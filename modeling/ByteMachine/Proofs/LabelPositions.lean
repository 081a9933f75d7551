import ByteMachine.Proofs.InstructionText
import ByteMachine.Proofs.TwoPasses

/-! # Label positions: the passes stay in step, so a reference finds the byte behind which its label stands -/
namespace ByteMachine

open Text

/-- An instruction with these operands has the name for its value, bare or, if it goes to memory, in brackets. -/
inductive Names (name : Token) : Opcode → List Token → Prop
  | ldi {rd} : Names name .ldi [rd, name]
  | ld {rd} : Names name .ld [rd, name]
  | ldBracketed {rd} : Names name .ld [rd, '[' :: name ++ [']']]
  | st {rd} : Names name .st [rd, name]
  | stBracketed {rd} : Names name .st [rd, '[' :: name ++ [']']]
  | jmp : Names name .jmp [name]
  | brz : Names name .brz [name]

/-- A numeral is not the name of a label. -/
theorem get?_eq_none_of_numeral? {source : List Char} {ss : List (Located Statement)} {t : LabelTable}
    (hs : statements source = .ok ss) (ht : resolve ss = .ok t) {w : Token} {v : UInt8} (hw : numeral? w = some v) :
    t.get? w = none := by
  apply get?_eq_none ht
  intro hmem
  simp [numeral?_eq_none_of_isIdentifier (isIdentifier_of_mem hs hmem)] at hw

/-- No instruction is refused for its length when its words are read. -/
theorem readInstruction_ne_lengthMismatch (labels : LabelTable) (mnemonic : Token) (operands : List Token) (name : Token)
    (assumed emitted : Nat) :
    readInstruction labels mnemonic operands ≠ .error (.lengthMismatch name assumed emitted) := by
  have hregister (token : Token) : registerOf token ≠ .error (.lengthMismatch name assumed emitted) := by
    unfold registerOf
    split <;> simp
  have hvalue (token : Token) : valueOf labels token ≠ .error (.lengthMismatch name assumed emitted) := by
    unfold valueOf
    split <;> simp
  have hcell (op : Opcode) (token : Token) : cellOf labels op token ≠ .error (.lengthMismatch name assumed emitted) := by
    unfold cellOf
    split
    · exact hvalue _
    · simp
  unfold readInstruction
  split
  · unfold instructionOf
    split <;> simp [bind_eq_error_iff, hregister, hvalue, hcell, pure, Except.pure]
  · simp

theorem emitStatement_ne_lengthMismatch (labels : LabelTable) (program : Array UInt8) (s : Statement) (mnemonic : Token)
    (assumed emitted : Nat) : emitStatement labels program s ≠ .error (.lengthMismatch mnemonic assumed emitted) := by
  rw [emitStatement_eq_map, ne_eq, map_eq_error_iff]
  cases s with
  | label name => simp [Statement.encode]
  | instruction name operands =>
    rw [Statement.encode, encode, map_eq_error_iff]
    exact readInstruction_ne_lengthMismatch labels name operands mnemonic assumed emitted

theorem Chunks.length_eq {labels : LabelTable} {xs : List (Statement × Nat)} {chunks : List (List UInt8)}
    (h : Chunks labels xs chunks) : chunks.length = xs.length := (List.Forall₂.length_eq h).symm

theorem Chunks.encode_eq {labels : LabelTable} {ss : List Statement} {chunks : List (List UInt8)}
    (h : Chunks labels (placed 0 ss) chunks) {i : Nat} {s : Statement} {chunk : List UInt8} (hs : ss[i]? = some s)
    (hc : chunks[i]? = some chunk) : s.encode labels (addressAt ss i) = .ok chunk := by
  obtain ⟨hi, rfl⟩ := List.getElem?_eq_some_iff.mp hc
  have hp : (placed 0 ss)[i]? = some (s, addressAt ss i) := by simp [getElem?_placed, hs]
  obtain ⟨hi', he⟩ := List.getElem?_eq_some_iff.mp hp
  have hget := List.Forall₂.get h hi' hi
  simpa [he] using hget

/-- The chunks before a statement take as many bytes as the first pass counted for it. -/
theorem Chunks.length_flatten_take {labels : LabelTable} {pc : Nat} {ss : List Statement} {chunks : List (List UInt8)}
    (h : Chunks labels (placed pc ss) chunks) (i : Nat) : (chunks.take i).flatten.length = addressAt ss i := by
  induction ss generalizing pc chunks i with
  | nil =>
    cases h
    simp [addressAt]
  | cons s ss ih =>
    obtain _ | ⟨hs, hrest⟩ := h
    cases i with
    | zero => simp [addressAt]
    | succ i =>
      have hi := ih hrest i
      have hl := Statement.length_of_encode hs
      simp_all [addressAt]

theorem getElem?_flatten_of_chunk {chunks : List (List UInt8)} {i : Nat} {chunk : List UInt8}
    (h : chunks[i]? = some chunk) {k : Nat} (hk : k < chunk.length) :
    chunks.flatten[(chunks.take i).flatten.length + k]? = chunk[k]? := by
  obtain ⟨hi, rfl⟩ := List.getElem?_eq_some_iff.mp h
  have hsplit : chunks.flatten = (chunks.take i).flatten ++ (chunks[i] ++ (chunks.drop (i + 1)).flatten) := by
    rw [← List.flatten_cons, ← List.flatten_append, List.getElem_cons_drop, List.take_append_drop]
  rw [hsplit, List.getElem?_append_right (Nat.le_add_right _ _), Nat.add_sub_cancel_left, List.getElem?_append_left hk]

/-- The byte behind the first one of an instruction that refers to address `t` from `pc`. -/
def referenceByte (op : Opcode) (pc t : Nat) : UInt8 :=
  if op = .brz then UInt8.ofNat t - UInt8.ofNat pc - 2 else UInt8.ofNat t

theorem Reads.encode_of_names {labels : LabelTable} {op : Opcode} {operands : List Token} {i : Instruction}
    (h : Reads labels op operands i) {name : Token} (hn : Names name op operands) (hid : isIdentifier name = true)
    {t : Nat} (hl : labels.get? name = some (UInt8.ofNat t)) (pc : Nat) :
    (i.encode pc)[1]? = some (referenceByte op pc t) := by
  have hv := valueOf_of_get? hl
  have hne := ne_nil_of_isIdentifier hid
  have hb := not_isBracket_of_isIdentifier hid
  have hcell (op : Opcode) : cellOf labels op name = .ok (UInt8.ofNat t) :=
    cellOf_eq_ok_iff.mpr ⟨name, unbracket?_of_not_isBracket hne hb, hv⟩
  have hbracketed (op : Opcode) : cellOf labels op ('[' :: name ++ [']']) = .ok (UInt8.ofNat t) :=
    cellOf_eq_ok_iff.mpr ⟨name, unbracket?_bracketed hne hb, hv⟩
  cases hn with
  | ldi | ld | ldBracketed | st | stBracketed | jmp =>
    cases h
    simp_all [Instruction.encode, referenceByte]
  | brz =>
    cases h
    simp_all [Instruction.encode, referenceByte, Address.displacement, Address.wrap]

/-- A program in one chunk for each statement, with the bounds where the first pass has them. -/
structure InStep (ss : List Statement) (labels : LabelTable) (program : List UInt8) (chunks : List (List UInt8)) :
    Prop where
  flatten_eq : chunks.flatten = program
  length_eq : chunks.length = ss.length
  start_eq : ∀ i, (chunks.take i).flatten.length = addressAt ss i
  chunk_eq : ∀ (i : Nat) (s : Statement) (chunk : List UInt8), ss[i]? = some s → chunks[i]? = some chunk →
    s.encode labels (addressAt ss i) = .ok chunk ∧ chunk.length = s.assumedLength

theorem Chunks.inStep {labels : LabelTable} {ss : List Statement} {chunks : List (List UInt8)}
    (h : Chunks labels (placed 0 ss) chunks) : InStep ss labels chunks.flatten chunks where
  flatten_eq := rfl
  length_eq := by rw [h.length_eq, length_placed]
  start_eq := h.length_flatten_take
  chunk_eq _ _ _ hs hc := ⟨h.encode_eq hs hc, Statement.length_of_encode (h.encode_eq hs hc)⟩

theorem InStep.getElem?_of_names {ss : List Statement} {labels : LabelTable} {program : List UInt8}
    {chunks : List (List UInt8)} (h : InStep ss labels program chunks) {i : Nat} {mnemonic : Token}
    {operands : List Token} (hi : ss[i]? = some (.instruction mnemonic operands)) {op : Opcode}
    (hop : Opcode.ofName? mnemonic = some op) {name : Token} (hn : Names name op operands)
    (hid : isIdentifier name = true) {t : Nat} (hl : labels.get? name = some (UInt8.ofNat t)) :
    program[addressAt ss i + 1]? = some (referenceByte op (addressAt ss i) t) := by
  have hlt : i < chunks.length := h.length_eq ▸ (List.getElem?_eq_some_iff.mp hi).1
  have hc : chunks[i]? = some chunks[i] := List.getElem?_eq_getElem hlt
  obtain ⟨op', instruction, hop', hr, he⟩ := encode_eq_ok_iff.mp (h.chunk_eq i _ _ hi hc).1
  obtain rfl : op = op' := Option.some.inj (hop.symm.trans hop')
  have hbyte := hr.encode_of_names hn hid hl (addressAt ss i)
  rw [he] at hbyte
  rw [← h.start_eq i, ← h.flatten_eq, getElem?_flatten_of_chunk hc (List.getElem?_eq_some_iff.mp hbyte).1, h.start_eq i,
    hbyte]

theorem branchTarget_referenceByte (pc t : Nat) :
    Address.branchTarget pc (referenceByte .brz pc t) = UInt8.ofNat t :=
  Address.branchTarget_displacement pc (UInt8.ofNat t)

theorem Statement.assumedLength_eq (s : Statement) : s.assumedLength =
    match s with
    | .label _ => 0
    | .instruction mnemonic _ => if Opcode.upperCase mnemonic = Opcode.nop.name then 1 else 2 := by
  cases s with
  | label name => rfl
  | instruction mnemonic operands => exact Opcode.assumedLength_eq mnemonic

/-- Both passes have each statement at the same address. So a label is kept as the number of bytes in front of it, a
reference from before or behind carries that number or the distance to it. Every instruction that is encoded has the
length that was assumed for it, so the second pass never fails on a length, and would do the same without looking. -/
theorem passes_agree_on_positions {source : List Char} {ss : List (Located Statement)} {program : List UInt8}
    (hs : statements source = .ok ss) (hp : assemble source = .ok program) :
    (∃ labels chunks, resolve ss = .ok labels ∧ InStep (values ss) labels program chunks ∧
      ∀ i name, (values ss)[i]? = some (.label name) →
        labels.get? name = some (UInt8.ofNat (addressAt (values ss) i))) ∧
    (∀ s : Statement, s.assumedLength =
      match s with
      | .label _ => 0
      | .instruction mnemonic _ => if Opcode.upperCase mnemonic = Opcode.nop.name then 1 else 2) ∧
    (∀ i j mnemonic operands op name, (values ss)[i]? = some (.instruction mnemonic operands) →
      Opcode.ofName? mnemonic = some op → Names name op operands → (values ss)[j]? = some (.label name) →
        let pc := addressAt (values ss) i
        let t := addressAt (values ss) j
        program[pc + 1]? = some (referenceByte op pc t) ∧
          (op = .brz → Address.branchTarget pc (referenceByte op pc t) = UInt8.ofNat t)) ∧
    (∀ labels pc mnemonic operands bytes, encode labels pc mnemonic operands = .ok bytes →
      bytes.length = Opcode.assumedLength mnemonic) ∧
    ∀ (labels : LabelTable) (code : Array UInt8) (s : Statement),
      (∀ mnemonic assumed emitted, emitStatement labels code s ≠ .error (.lengthMismatch mnemonic assumed emitted)) ∧
      emitStatement labels code s = (s.encode labels code.size).map fun (bytes : List UInt8) =>
        (code ++ bytes, s.records code.size bytes) := by
  obtain ⟨ss', labels, hs', hl, hg⟩ := assemble_eq_ok_iff.mp hp
  obtain rfl : ss = ss' := Except.ok.inj (hs.symm.trans hs')
  obtain ⟨chunks, hc, rfl⟩ := generate_eq_ok_iff.mp hg
  refine ⟨⟨labels, chunks, hl, hc.inStep, fun _ _ => get?_of_getElem? hl⟩, Statement.assumedLength_eq, ?_,
    fun _ _ _ _ _ => length_of_encode,
    fun labels code s => ⟨emitStatement_ne_lengthMismatch labels code s, emitStatement_eq_map labels code s⟩⟩
  intro i j mnemonic operands op name hi hop hn hj
  have hid := isIdentifier_of_mem hs (List.mem_of_getElem? hj)
  refine ⟨hc.inStep.getElem?_of_names hi hop hn hid (get?_of_getElem? hl hj), ?_⟩
  rintro rfl
  exact branchTarget_referenceByte _ _

theorem forward_and_backward_references :
    let source := "back: ; first\n".toList ++ (List.replicate 100 "nop\nLDI r1 end\n".toList).flatten ++
      "Brz back\nJMP end\nend:\nLD R2, [back]".toList
    let program := (List.replicate 100 [0x00, 0x12, 48]).flatten ++ [0x90, 210, 0xA0, 48, 0x74, 0]
    assemble source = .ok program ∧ ∃ ss labels chunks, statements source = .ok ss ∧ resolve ss = .ok labels ∧
      InStep (values ss) labels program chunks := by
  intro source program
  have hp : assemble source = .ok program := by decide +kernel
  obtain ⟨ss, _, hs, -, -⟩ := assemble_eq_ok_iff.mp hp
  obtain ⟨⟨labels, chunks, hl, hi, -⟩, -⟩ := passes_agree_on_positions hs hp
  exact ⟨hp, ss, labels, chunks, hs, hl, hi⟩

end ByteMachine
