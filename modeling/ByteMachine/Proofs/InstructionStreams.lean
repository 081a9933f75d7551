import ByteMachine.Disassembly
import ByteMachine.Proofs.TwoPasses

/-! # Instruction streams: programs as the bytes of instructions that stand one behind the other

What the second pass emits is such a stream, and disassembly takes it apart again. -/
namespace ByteMachine

/-- The bytes of instructions from `pc` on. -/
def encodeFrom (pc : Nat) : List Instruction → List UInt8
  | [] => []
  | i :: is => i.encode pc ++ encodeFrom (pc + i.opcode.length) is

theorem length_encodeFrom (pc : Nat) (is : List Instruction) :
    (encodeFrom pc is).length = (is.map (·.opcode.length)).sum := by
  induction is generalizing pc with
  | nil => rfl
  | cons i is ih => simp [encodeFrom, ih, Instruction.length_encode]

theorem encodeFrom_append (pc : Nat) (is js : List Instruction) :
    encodeFrom pc (is ++ js) = encodeFrom pc is ++ encodeFrom (pc + (encodeFrom pc is).length) js := by
  induction is generalizing pc with
  | nil => rfl
  | cons i is ih => simp [encodeFrom, ih, Instruction.length_encode, Nat.add_assoc]

/-- The instructions that statements stand for, once the labels are known. -/
inductive Yields (labels : LabelTable) : List Statement → List Instruction → Prop
  | nil : Yields labels [] []
  | label {name ss is} (rest : Yields labels ss is) : Yields labels (.label name :: ss) is
  | instruction {mnemonic operands ss i is} (read : readInstruction labels mnemonic operands = .ok i)
      (rest : Yields labels ss is) : Yields labels (.instruction mnemonic operands :: ss) (i :: is)

theorem exists_yields_iff {labels : LabelTable} {ss : List Statement} : (∃ is, Yields labels ss is) ↔
    ∀ mnemonic operands, .instruction mnemonic operands ∈ ss →
      ∃ i, readInstruction labels mnemonic operands = .ok i := by
  induction ss with
  | nil => exact ⟨fun _ _ _ => nofun, fun _ => ⟨[], .nil⟩⟩
  | cons s ss ih =>
    cases s with
    | label name =>
      simp only [List.mem_cons, reduceCtorEq, false_or, ← ih]
      exact ⟨fun ⟨is, .label rest⟩ => ⟨is, rest⟩, fun ⟨is, rest⟩ => ⟨is, .label rest⟩⟩
    | instruction mnemonic operands =>
      constructor
      · rintro ⟨_, ⟨⟩ | ⟨⟩ | ⟨read, rest⟩⟩ m os hm
        rcases List.mem_cons.mp hm with he | hm
        · cases he
          exact ⟨_, read⟩
        · exact ih.mp ⟨_, rest⟩ m os hm
      · intro h
        obtain ⟨i, read⟩ := h mnemonic operands List.mem_cons_self
        obtain ⟨is, rest⟩ := ih.mpr fun m os hm => h m os (List.mem_cons_of_mem _ hm)
        exact ⟨i :: is, .instruction read rest⟩

theorem assumedLength_of_readInstruction {labels : LabelTable} {mnemonic : Token} {operands : List Token}
    {i : Instruction} (h : readInstruction labels mnemonic operands = .ok i) :
    (Statement.instruction mnemonic operands).assumedLength = i.opcode.length := by
  obtain ⟨op, hop, hr⟩ := readInstruction_eq_ok_iff.mp h
  rw [hr.opcode_eq, Statement.assumedLength, Opcode.assumedLength, hop]
  rfl

theorem Chunks.exists_yields {labels : LabelTable} {pc : Nat} {ss : List Statement} {chunks : List (List UInt8)}
    (h : Chunks labels (placed pc ss) chunks) : ∃ is, Yields labels ss is ∧ encodeFrom pc is = chunks.flatten := by
  induction ss generalizing pc chunks with
  | nil =>
    cases h
    exact ⟨[], .nil, rfl⟩
  | cons s ss ih =>
    obtain _ | @⟨_, bytes, _, chunks, hs, hrest⟩ := h
    obtain ⟨is, hy, hf⟩ := ih hrest
    cases s with
    | label name =>
      cases hs
      exact ⟨is, .label hy, hf⟩
    | instruction mnemonic operands =>
      obtain ⟨op, i, hop, hr, rfl⟩ := encode_eq_ok_iff.mp hs
      have hi := readInstruction_eq_ok_iff.mpr ⟨op, hop, hr⟩
      refine ⟨i :: is, .instruction hi hy, ?_⟩
      rw [encodeFrom, ← assumedLength_of_readInstruction hi, hf, List.flatten_cons]

theorem Yields.exists_chunks {labels : LabelTable} {ss : List Statement} {is : List Instruction}
    (h : Yields labels ss is) (pc : Nat) :
    ∃ chunks, Chunks labels (placed pc ss) chunks ∧ chunks.flatten = encodeFrom pc is := by
  induction h generalizing pc with
  | nil => exact ⟨[], .nil, rfl⟩
  | label rest ih =>
    obtain ⟨chunks, hc, hf⟩ := ih pc
    exact ⟨[] :: chunks, .cons rfl hc, hf⟩
  | @instruction mnemonic operands ss i is read rest ih =>
    obtain ⟨op, hop, hr⟩ := readInstruction_eq_ok_iff.mp read
    obtain ⟨chunks, hc, hf⟩ := ih (pc + i.opcode.length)
    rw [← assumedLength_of_readInstruction read] at hc hf
    refine ⟨i.encode pc :: chunks, .cons (encode_eq_ok_iff.mpr ⟨op, i, hop, hr, rfl⟩) hc, ?_⟩
    rw [List.flatten_cons, hf, encodeFrom, assumedLength_of_readInstruction read]

/-- The second pass gives the stream of the instructions, labels or not in between. -/
theorem generate_eq_ok_iff_yields {labels : LabelTable} {ss : List (Located Statement)} {program : List UInt8} :
    generate labels ss = .ok program ↔ ∃ is, Yields labels (values ss) is ∧ encodeFrom 0 is = program := by
  rw [generate_eq_ok_iff]
  constructor
  · rintro ⟨chunks, hc, rfl⟩
    exact hc.exists_yields
  · rintro ⟨is, hy, rfl⟩
    exact hy.exists_chunks 0

theorem assemble_sourceOf {ss : List Statement} (hp : ∀ s ∈ ss, s.Printable) {labels : LabelTable}
    (hl : resolve (numbered ss) = .ok labels) {is : List Instruction} (hy : Yields labels ss is) :
    assemble (sourceOf ss) = .ok (encodeFrom 0 is) := by
  refine assemble_eq_ok_iff.mpr ⟨numbered ss, labels, statements_sourceOf hp, hl, ?_⟩
  refine generate_eq_ok_iff_yields.mpr ⟨is, ?_, rfl⟩
  rwa [values_numbered]

namespace Opcode

theorem ofByte?_header_or_toDst (op : Opcode) (r : Register) : ofByte? (op.header ||| r.toDst) = some op := by
  rcases op with _ | _ | f | _ | _ | _ | _ <;> first | (revert r; decide) | (revert r; cases f <;> decide)

theorem ofDst_header_or_toDst (op : Opcode) (r : Register) : Register.ofDst (op.header ||| r.toDst) = r := by
  rcases op with _ | _ | f | _ | _ | _ | _ <;> first | (revert r; decide) | (revert r; cases f <;> decide)

end Opcode

/-- An instruction takes one byte without operands, and otherwise two from which it can be decoded at its address. -/
theorem Instruction.encode_cases (pc : Nat) (i : Instruction) :
    i = .nop ∨ ∃ b₀ b₁, i.encode pc = [b₀, b₁] ∧ i.opcode ≠ .nop ∧ Opcode.ofByte? b₀ = some i.opcode ∧
      decode pc i.opcode b₀ b₁ = i := by
  have hbyte := Opcode.ofByte?_header_or_toDst
  have hdst := Opcode.ofDst_header_or_toDst
  cases i with
  | nop => exact .inl rfl
  | ldi rd v => exact .inr ⟨_, _, rfl, nofun, hbyte .ldi rd, congrArg (ldi · v) (hdst .ldi rd)⟩
  | alu f rd rs =>
    exact .inr ⟨_, _, rfl, nofun, hbyte (.alu f) rd, congrArg₂ (alu f) (hdst (.alu f) rd) rs.ofSrc_toSrc⟩
  | ld rd a => exact .inr ⟨_, _, rfl, nofun, hbyte .ld rd, congrArg (ld · a) (hdst .ld rd)⟩
  | st rd a => exact .inr ⟨_, _, rfl, nofun, hbyte .st rd, congrArg (st · a) (hdst .st rd)⟩
  | brz t =>
    exact .inr ⟨_, _, rfl, nofun, Opcode.ofByte?_header .brz, congrArg brz (Address.branchTarget_displacement pc t)⟩
  | jmp t => exact .inr ⟨_, _, rfl, nofun, Opcode.ofByte?_header .jmp, rfl⟩

/-- An instruction is found again at its address, whatever follows it. -/
theorem decodeNext_encode (pc : Nat) (i : Instruction) (rest : List UInt8) :
    decodeNext pc (i.encode pc ++ rest) = (.ok (some ⟨pc, i.encode pc, i⟩), rest) := by
  rcases i.encode_cases pc with rfl | ⟨b₀, b₁, he, hne, hop, hd⟩
  · rfl
  · rw [he]
    simp [decodeNext, hop, hd]

/-- Instructions with their addresses and bytes, from `pc` on. -/
def decodedFrom (pc : Nat) : List Instruction → List Decoded
  | [] => []
  | i :: is => ⟨pc, i.encode pc, i⟩ :: decodedFrom (pc + i.opcode.length) is

@[simp] theorem map_instruction_decodedFrom (pc : Nat) (is : List Instruction) :
    (decodedFrom pc is).map (·.instruction) = is := by
  induction is generalizing pc with
  | nil => rfl
  | cons i is ih => simp [decodedFrom, ih]

/-- The instructions found in a stream of bytes from `pc` on, up to its end. -/
inductive Decodes : Nat → List UInt8 → List Decoded → Prop
  | nil (pc) : Decodes pc [] []
  | cons {pc bytes rest d ds} (first : decodeNext pc bytes = (.ok (some d), rest))
      (more : Decodes (pc + d.raw.length) rest ds) : Decodes pc bytes (d :: ds)

theorem eq_nil_of_decodeNext {pc : Nat} {bytes rest : List UInt8} (h : decodeNext pc bytes = (.ok none, rest)) :
    bytes = [] := by
  unfold decodeNext at h
  split at h
  · rfl
  · split at h <;> simp at h

theorem exists_decodes_of_disassembleFrom {found : Array Decoded} {pc : Nat} {bytes : List UInt8} {ds : List Decoded}
    (h : disassembleFrom found pc bytes = .ok ds) : ∃ es, Decodes pc bytes es ∧ ds = found.toList ++ es := by
  fun_induction disassembleFrom found pc bytes with
  | case1 => cases h
  | case2 found pc bytes rest hd =>
    cases h
    obtain rfl := eq_nil_of_decodeNext hd
    exact ⟨[], .nil pc, by simp⟩
  | case3 found pc bytes d rest hd ih =>
    obtain ⟨es, hes, rfl⟩ := ih h
    exact ⟨d :: es, .cons hd hes, by simp⟩

theorem disassembleFrom_of_some {found : Array Decoded} {pc : Nat} {bytes rest : List UInt8} {d : Decoded}
    (h : decodeNext pc bytes = (.ok (some d), rest)) :
    disassembleFrom found pc bytes = disassembleFrom (found.push d) (pc + d.raw.length) rest := by
  rw [disassembleFrom]
  split
  · simp_all
  · simp_all
  · rename_i hd
    cases h.symm.trans hd
    rfl

theorem Decodes.disassembleFrom_eq {pc : Nat} {bytes : List UInt8} {es : List Decoded} (h : Decodes pc bytes es)
    (found : Array Decoded) : disassembleFrom found pc bytes = .ok (found.toList ++ es) := by
  induction h generalizing found with
  | nil pc =>
    unfold disassembleFrom
    simp [decodeNext]
  | cons first more ih =>
    rw [disassembleFrom_of_some first, ih]
    simp

/-- Disassembly finds the instructions of a stream that can be decoded to its end. -/
theorem disassemble_eq_ok_iff {program : List UInt8} {ds : List Decoded} :
    disassemble program = .ok ds ↔ Decodes 0 program ds := by
  constructor
  · intro h
    obtain ⟨es, hes, rfl⟩ := exists_decodes_of_disassembleFrom h
    exact hes
  · exact fun h => h.disassembleFrom_eq #[]

theorem decodes_encodeFrom (pc : Nat) (is : List Instruction) : Decodes pc (encodeFrom pc is) (decodedFrom pc is) := by
  induction is generalizing pc with
  | nil => exact .nil pc
  | cons i is ih =>
    refine .cons (decodeNext_encode pc i _) ?_
    rw [Instruction.length_encode]
    exact ih _

theorem disassemble_encodeFrom (is : List Instruction) : disassemble (encodeFrom 0 is) = .ok (decodedFrom 0 is) :=
  disassemble_eq_ok_iff.mpr (decodes_encodeFrom 0 is)

end ByteMachine
