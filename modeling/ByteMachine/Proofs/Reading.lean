import ByteMachine.Assembly.Operands
import ByteMachine.Proofs.Outcomes

/-! # Reading operands: when the words of an instruction have a meaning, and which -/
namespace ByteMachine

open Text

theorem Opcode.upperCase_name (op : Opcode) : upperCase op.name = op.name := by
  rcases op with _ | _ | f | _ | _ | _ | _ <;> first | rfl | (cases f <;> rfl)

/-- A mnemonic is the name of an opcode but for the case of its letters. -/
theorem Opcode.ofName?_eq_some_iff {mnemonic : Token} {op : Opcode} :
    ofName? mnemonic = some op ↔ upperCase mnemonic = op.name := by
  constructor
  · intro h
    have hb := List.find?_some h
    exact (beq_iff_eq.mp hb).symm
  · intro h
    have hn := ofName?_name op
    rw [ofName?, upperCase_name] at hn
    rw [ofName?, h, hn]

/-- Only the instruction without operands is counted as one byte. -/
theorem Opcode.assumedLength_eq (mnemonic : Token) :
    assumedLength mnemonic = if upperCase mnemonic = nop.name then 1 else 2 := by
  unfold assumedLength
  split
  · rw [ofName?_eq_some_iff.mpr ‹_›]
    rfl
  · cases ho : ofName? mnemonic with
    | none => rfl
    | some op =>
      have hn := ofName?_eq_some_iff.mp ho
      cases op <;> first | rfl | contradiction

theorem Register.ofName?_eq_some_iff {w : Token} {r : Register} : ofName? w = some r ↔
    ∃ letter, (letter = 'R' ∨ letter = 'r') ∧ w = [letter, Nat.digitChar r.val] := by
  constructor
  · intro h
    unfold ofName? at h
    split at h
    · rename_i letter digit
      split at h
      · rename_i hl
        have hd := List.find?_some h
        exact ⟨letter, by simpa using hl, by rw [beq_iff_eq.mp hd]⟩
      · cases h
    · cases h
  · rintro ⟨letter, rfl | rfl, rfl⟩
    · exact ofName?_name r
    · revert r
      decide

theorem registerOf_eq_ok_iff {token : Token} {r : Register} :
    registerOf token = .ok r ↔ Register.ofName? token = some r := by
  unfold registerOf
  cases Register.ofName? token <;> simp

theorem valueOf_eq_ok_iff {labels : LabelTable} {token : Token} {v : UInt8} :
    valueOf labels token = .ok v ↔ (labels.get? token).or (numeral? token) = some v := by
  unfold valueOf
  cases (labels.get? token).or (numeral? token) <;> simp

theorem valueOf_of_get? {labels : LabelTable} {name : Token} {v : UInt8} (h : labels.get? name = some v) :
    valueOf labels name = .ok v := valueOf_eq_ok_iff.mpr (by simp [h])

theorem cellOf_eq_ok_iff {labels : LabelTable} {op : Opcode} {token : Token} {v : UInt8} :
    cellOf labels op token = .ok v ↔ ∃ inner, unbracket? token = some inner ∧ valueOf labels inner = .ok v := by
  unfold cellOf
  cases unbracket? token <;> simp

theorem unbracket?_of_not_isBracket {inner : Token} (hne : inner ≠ []) (h : ∀ c ∈ inner, isBracket c = false) :
    unbracket? inner = some inner := by
  have hhead : (inner.head? == some '[') = false := by
    have hm := h _ (List.head_mem hne)
    rw [List.head?_eq_some_head hne]
    simp_all [isBracket]
  have hlast : (inner.getLast? == some ']') = false := by
    have hm := h _ (List.getLast_mem hne)
    rw [List.getLast?_eq_some_getLast hne]
    simp_all [isBracket]
  have hany : inner.any isBracket = false := by simpa using h
  simp [unbracket?, hhead, hlast, hne, hany]

theorem unbracket?_bracketed {inner : Token} (hne : inner ≠ []) (h : ∀ c ∈ inner, isBracket c = false) :
    unbracket? ('[' :: inner ++ [']']) = some inner := by
  have hany : inner.any isBracket = false := by simpa using h
  have hlast : ('[' :: inner ++ [']']).getLast? = some ']' := List.getLast?_concat
  rw [unbracket?, hlast]
  simp [hne, hany]

/-- Brackets stand around an operand on both sides or not at all, and only there. -/
theorem unbracket?_eq_some_iff {token inner : Token} : unbracket? token = some inner ↔
    inner ≠ [] ∧ (∀ c ∈ inner, isBracket c = false) ∧ (token = inner ∨ token = '[' :: inner ++ [']']) := by
  constructor
  · intro h
    obtain ⟨hi, hp⟩ := Option.filter_eq_some_iff.mp h
    simp only [Bool.and_eq_true, Bool.not_eq_true', List.isEmpty_eq_false_iff, List.any_eq_false] at hp
    refine ⟨hp.1, by simpa using hp.2, ?_⟩
    split at hi
    · rename_i hhead hlast
      obtain ⟨rest, rfl⟩ := List.head?_eq_some_iff.mp (beq_iff_eq.mp hhead)
      have hrest : rest.getLast? = some ']' := by
        cases rest with
        | nil => simp at hlast
        | cons d ds => simpa using hlast
      obtain ⟨init, rfl⟩ := List.getLast?_eq_some_iff.mp hrest
      obtain rfl : init = inner := by simpa using hi
      exact .inr rfl
    · exact .inl (Option.some.inj hi)
    · cases hi
  · rintro ⟨hne, h, rfl | rfl⟩
    · exact unbracket?_of_not_isBracket hne h
    · exact unbracket?_bracketed hne h

/-- What the operands of each opcode have to be, and the instruction that they give. -/
inductive Reads (labels : LabelTable) : Opcode → List Token → Instruction → Prop
  | nop : Reads labels .nop [] .nop
  | ldi {rd v r b} (register : registerOf rd = .ok r) (value : valueOf labels v = .ok b) :
      Reads labels .ldi [rd, v] (.ldi r b)
  | alu {f rd rs r q} (first : registerOf rd = .ok r) (second : registerOf rs = .ok q) :
      Reads labels (.alu f) [rd, rs] (.alu f r q)
  | ld {rd a r b} (register : registerOf rd = .ok r) (cell : cellOf labels .ld a = .ok b) :
      Reads labels .ld [rd, a] (.ld r b)
  | st {rd a r b} (register : registerOf rd = .ok r) (cell : cellOf labels .st a = .ok b) :
      Reads labels .st [rd, a] (.st r b)
  | jmp {t b} (target : valueOf labels t = .ok b) : Reads labels .jmp [t] (.jmp b)
  | brz {t b} (target : valueOf labels t = .ok b) : Reads labels .brz [t] (.brz b)

theorem Reads.instructionOf_eq {labels : LabelTable} {op : Opcode} {operands : List Token} {i : Instruction}
    (h : Reads labels op operands i) : instructionOf labels op operands = .ok i := by
  cases h <;> simp_all [instructionOf, bind, Except.bind, pure, Except.pure]

theorem Reads.of_instructionOf {labels : LabelTable} {op : Opcode} {operands : List Token} {i : Instruction}
    (h : instructionOf labels op operands = .ok i) : Reads labels op operands i := by
  unfold instructionOf at h
  split at h
  · cases h
    exact .nop
  · obtain ⟨r, hr, h⟩ := bind_eq_ok_iff.mp h
    obtain ⟨b, hb, h⟩ := bind_eq_ok_iff.mp h
    cases h
    exact .ldi hr hb
  · obtain ⟨r, hr, h⟩ := bind_eq_ok_iff.mp h
    obtain ⟨q, hq, h⟩ := bind_eq_ok_iff.mp h
    cases h
    exact .alu hr hq
  · obtain ⟨r, hr, h⟩ := bind_eq_ok_iff.mp h
    obtain ⟨b, hb, h⟩ := bind_eq_ok_iff.mp h
    cases h
    exact .ld hr hb
  · obtain ⟨r, hr, h⟩ := bind_eq_ok_iff.mp h
    obtain ⟨b, hb, h⟩ := bind_eq_ok_iff.mp h
    cases h
    exact .st hr hb
  · obtain ⟨b, hb, h⟩ := bind_eq_ok_iff.mp h
    cases h
    exact .jmp hb
  · obtain ⟨b, hb, h⟩ := bind_eq_ok_iff.mp h
    cases h
    exact .brz hb
  · cases h

theorem instructionOf_eq_ok_iff {labels : LabelTable} {op : Opcode} {operands : List Token} {i : Instruction} :
    instructionOf labels op operands = .ok i ↔ Reads labels op operands i :=
  ⟨Reads.of_instructionOf, Reads.instructionOf_eq⟩

theorem Reads.opcode_eq {labels : LabelTable} {op : Opcode} {operands : List Token} {i : Instruction}
    (h : Reads labels op operands i) : i.opcode = op := by
  cases h <;> rfl

theorem readInstruction_eq_ok_iff {labels : LabelTable} {mnemonic : Token} {operands : List Token} {i : Instruction} :
    readInstruction labels mnemonic operands = .ok i ↔
      ∃ op, Opcode.ofName? mnemonic = some op ∧ Reads labels op operands i := by
  unfold readInstruction
  cases Opcode.ofName? mnemonic <;> simp [instructionOf_eq_ok_iff]

theorem Reads.readInstruction_eq {labels : LabelTable} {op : Opcode} {operands : List Token} {i : Instruction}
    (h : Reads labels op operands i) : readInstruction labels op.name operands = .ok i :=
  readInstruction_eq_ok_iff.mpr ⟨op, op.ofName?_name, h⟩

theorem encode_eq_ok_iff {labels : LabelTable} {pc : Nat} {mnemonic : Token} {operands : List Token}
    {bytes : List UInt8} : encode labels pc mnemonic operands = .ok bytes ↔
      ∃ op i, Opcode.ofName? mnemonic = some op ∧ Reads labels op operands i ∧ i.encode pc = bytes := by
  rw [encode, map_eq_ok_iff]
  simp only [readInstruction_eq_ok_iff]
  grind

/-- Whatever an instruction encodes to, its length is the one its mnemonic promised. -/
theorem length_of_encode {labels : LabelTable} {pc : Nat} {mnemonic : Token} {operands : List Token}
    {bytes : List UInt8} (h : encode labels pc mnemonic operands = .ok bytes) :
    bytes.length = Opcode.assumedLength mnemonic := by
  obtain ⟨op, i, hop, hi, rfl⟩ := encode_eq_ok_iff.mp h
  rw [Instruction.length_encode, hi.opcode_eq, Opcode.assumedLength, hop]
  rfl

end ByteMachine
