import ByteMachine.Proofs.Reassembly

/-! # Canonical programs: a disassembly keeps of a program the bits that its instructions use -/
namespace ByteMachine

/-- The bits that count in each byte of an instruction of this form. Without operands none do, as the code of the one
such instruction is zero. -/
def Form.usedBits : Form → List UInt8
  | .bare => [0x00]
  | .regImm | .regMem => [0xFE, 0xFF]
  | .regReg => [0xFE, 0x07]
  | .absolute | .relative => [0xF0, 0xFF]

/-- The same instruction at the same address, in bytes whose unused bits are cleared. -/
def Decoded.canonical (d : Decoded) : Decoded :=
  { d with raw := List.zipWith (· &&& ·) d.raw d.instruction.opcode.form.usedBits }

theorem header_eq_and {b : UInt8} {op : Opcode} (h : Opcode.ofByte? b = some op) : op.header = b &&& 0xF0 := by
  have hall : ∀ b : UInt8, ∀ op ∈ Opcode.ofByte? b, op.header = b &&& 0xF0 := by decide +kernel
  exact hall b op h

theorem header_or_toDst_eq_and {b : UInt8} {op : Opcode} (h : Opcode.ofByte? b = some op) :
    op.header ||| (Register.ofDst b).toDst = b &&& 0xFE := by
  have hall : ∀ b : UInt8, ∀ op ∈ Opcode.ofByte? b, op.header ||| (Register.ofDst b).toDst = b &&& 0xFE := by
    decide +kernel
  exact hall b op h

theorem toSrc_ofSrc (b : UInt8) : (Register.ofSrc b).toSrc = b &&& 0x07 := by
  revert b
  decide +kernel

/-- Decoded from any two bytes, an instruction is encoded in the bits that it uses. -/
theorem encode_decode {b₀ b₁ : UInt8} {op : Opcode} (h : Opcode.ofByte? b₀ = some op) (hne : op ≠ .nop) (pc : Nat) :
    (Instruction.decode pc op b₀ b₁).encode pc = List.zipWith (· &&& ·) [b₀, b₁] op.form.usedBits := by
  have hdst := header_or_toDst_eq_and h
  have hheader := header_eq_and h
  have hkept : b₁ &&& 0xFF = b₁ := UInt8.and_neg_one
  cases op with
  | nop => contradiction
  | ldi | ld | st => exact congrArg₂ (fun x y => [x, y]) hdst hkept.symm
  | alu f => exact congrArg₂ (fun x y => [x, y]) hdst (toSrc_ofSrc b₁)
  | jmp => exact congrArg₂ (fun x y => [x, y]) hheader hkept.symm
  | brz =>
    have hoffset := Address.displacement_branchTarget pc b₁
    exact congrArg₂ (fun x y => [x, y]) hheader (hoffset.trans hkept.symm)

theorem decodeNext_cases {pc : Nat} {bytes rest : List UInt8} {d : Decoded}
    (h : decodeNext pc bytes = (.ok (some d), rest)) :
    (∃ b, bytes = b :: rest ∧ Opcode.ofByte? b = some .nop ∧ d = ⟨pc, [b], .nop⟩) ∨
      ∃ b₀ b₁ op, bytes = b₀ :: b₁ :: rest ∧ Opcode.ofByte? b₀ = some op ∧ op ≠ .nop ∧
        d = ⟨pc, [b₀, b₁], .decode pc op b₀ b₁⟩ := by
  unfold decodeNext at h
  split at h
  · simp at h
  · split at h
    · simp at h
    · rename_i hop
      cases h
      exact .inl ⟨_, rfl, hop, rfl⟩
    · simp at h
    · rename_i hop hne
      cases h
      exact .inr ⟨_, _, _, rfl, hne, hop, rfl⟩

theorem length_of_ne_nop {op : Opcode} (h : op ≠ .nop) : op.length = 2 := by
  cases op <;> first | rfl | contradiction

/-- What is decoded at an address stands in front of the rest, and encodes there to its canonical bytes. -/
theorem decodeNext_canonical {pc : Nat} {bytes rest : List UInt8} {d : Decoded}
    (h : decodeNext pc bytes = (.ok (some d), rest)) :
    bytes = d.raw ++ rest ∧ d.raw.length = d.instruction.opcode.length ∧
      d.canonical = ⟨pc, d.instruction.encode pc, d.instruction⟩ := by
  rcases decodeNext_cases h with ⟨b, rfl, -, rfl⟩ | ⟨b₀, b₁, op, rfl, hop, hne, rfl⟩
  · have hcleared : b &&& 0x00 = 0 := UInt8.and_zero
    exact ⟨rfl, rfl, congrArg (Decoded.mk pc [·] .nop) hcleared⟩
  · refine ⟨rfl, ?_, ?_⟩
    · rw [Instruction.opcode_decode, length_of_ne_nop hne]
      rfl
    · rw [Decoded.canonical, Instruction.opcode_decode, encode_decode hop hne]

theorem Decodes.flatten_raw {pc : Nat} {bytes : List UInt8} {ds : List Decoded} (h : Decodes pc bytes ds) :
    bytes = (ds.map (·.raw)).flatten := by
  induction h with
  | nil pc => rfl
  | cons first more ih =>
    rw [(decodeNext_canonical first).1, List.map_cons, List.flatten_cons, ← ih]

theorem Decodes.map_canonical {pc : Nat} {bytes : List UInt8} {ds : List Decoded} (h : Decodes pc bytes ds) :
    ds.map Decoded.canonical = decodedFrom pc (ds.map (·.instruction)) := by
  induction h with
  | nil pc => rfl
  | cons first more ih =>
    obtain ⟨-, hlength, hcanonical⟩ := decodeNext_canonical first
    rw [List.map_cons, List.map_cons, decodedFrom, ← hlength, ← ih, hcanonical]

theorem flatten_raw_decodedFrom (pc : Nat) (is : List Instruction) :
    ((decodedFrom pc is).map (·.raw)).flatten = encodeFrom pc is := by
  induction is generalizing pc with
  | nil => rfl
  | cons i is ih => simp [decodedFrom, encodeFrom, ih]

theorem Decodes.length_raw {pc : Nat} {bytes : List UInt8} {ds : List Decoded} (h : Decodes pc bytes ds) :
    bytes.length = (ds.map (·.instruction.opcode.length)).sum := by
  induction h with
  | nil pc => rfl
  | cons first more ih =>
    obtain ⟨hbytes, hlength, -⟩ := decodeNext_canonical first
    rw [hbytes, List.length_append, hlength, ih, List.map_cons, List.sum_cons]

/-- If a program can be disassembled, its instructions, printed one on each line, assemble to the program with the
unused bits cleared, and this has the same instructions at the same addresses. -/
theorem assemble_reassembly_clears_unused_bits {program : List UInt8} {ds : List Decoded}
    (h : disassemble program = .ok ds) :
    program = (ds.map (·.raw)).flatten ∧
      ∃ canonical, assemble (reassembly ds) = .ok canonical ∧ canonical.length = program.length ∧
        canonical = ((ds.map Decoded.canonical).map (·.raw)).flatten ∧
        disassemble canonical = .ok (ds.map Decoded.canonical) := by
  have hd := disassemble_eq_ok_iff.mp h
  refine ⟨hd.flatten_raw, encodeFrom 0 (ds.map (·.instruction)), ?_, ?_, ?_, ?_⟩
  · rw [reassembly_eq_sourceOf, assemble_statements]
  · rw [length_encodeFrom, List.map_map, hd.length_raw]
    rfl
  · rw [hd.map_canonical, flatten_raw_decodedFrom]
  · rw [hd.map_canonical, disassemble_encodeFrom]

/-- Junk in every unused bit, and a branch to before the start. -/
theorem canonical_form_of_junk_bits :
    let program : List UInt8 := [0x0F, 0x37, 0xF9, 0x1F, 0x80, 0x9F, 0xF0, 0xAB, 0x05]
    let canonical : List UInt8 := [0x00, 0x36, 0x01, 0x1E, 0x80, 0x90, 0xF0, 0xA0, 0x05]
    ∃ ds, disassemble program = .ok ds ∧ assemble (reassembly ds) = .ok canonical ∧
      disassemble canonical = .ok (ds.map Decoded.canonical) := by
  intro program canonical
  have hd : disassemble program = .ok [⟨0, [0x0F], .nop⟩, ⟨1, [0x37, 0xF9], .alu .sub 3 1⟩,
      ⟨3, [0x1F, 0x80], .ldi 7 0x80⟩, ⟨5, [0x9F, 0xF0], .brz 0xF7⟩, ⟨7, [0xAB, 0x05], .jmp 5⟩] :=
    disassemble_eq_ok_iff.mpr (.cons rfl (.cons rfl (.cons rfl (.cons rfl (.cons rfl (.nil _))))))
  obtain ⟨-, _, ha, -, rfl, hc⟩ := assemble_reassembly_clears_unused_bits hd
  exact ⟨_, hd, ha, hc⟩

end ByteMachine
