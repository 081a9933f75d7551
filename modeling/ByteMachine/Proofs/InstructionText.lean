import ByteMachine.Proofs.Numerals
import ByteMachine.Proofs.Reading
import ByteMachine.Proofs.StatementText

/-! # Instructions as text: mnemonics, registers, numerals and memory cells are words, and are read back from them -/
namespace ByteMachine

open Text

theorem Text.Spells.isIdentifierRest {radix n : Nat} {ds : List Char} (h : Spells radix ds n) :
    ∀ c ∈ ds, isIdentifierRest c = true := by
  intro c hc
  obtain ⟨d, hd⟩ := Option.isSome_iff_exists.mp (h.2.1 c hc)
  have hv := digitValue?_eq_some_iff.mp (digit?_eq_some_iff.mp hd).1
  exact isIdentifierRest_iff.mpr (by omega)

theorem Text.Denotes.mem {t : Token} {n : Int} (h : Denotes t n) {c : Char} (hc : c ∈ t) :
    isIdentifierRest c = true ∨ c = '+' ∨ c = '-' := by
  cases h with
  | plain digits => exact .inl (digits.isIdentifierRest c hc)
  | plus digits =>
    rcases List.mem_cons.mp hc with rfl | hc
    · simp
    · exact .inl (digits.isIdentifierRest c hc)
  | minus digits =>
    rcases List.mem_cons.mp hc with rfl | hc
    · simp
    · exact .inl (digits.isIdentifierRest c hc)
  | hexadecimal mark digits =>
    simp only [List.mem_cons] at hc
    rcases hc with rfl | rfl | hc
    · exact .inl (by decide)
    · exact .inl (by rcases mark with rfl | rfl <;> decide)
    · exact .inl (digits.isIdentifierRest c hc)

theorem Text.Denotes.ne_nil {t : Token} {n : Int} (h : Denotes t n) : t ≠ [] := by
  cases h with
  | plain digits => exact digits.1
  | plus | minus | hexadecimal => simp

/-- No character of a numeral has a meaning in a line. -/
theorem Text.Denotes.plain_of_mem {t : Token} {n : Int} (h : Denotes t n) {c : Char} (hc : c ∈ t) :
    isSeparator c = false ∧ isBracket c = false ∧ c ≠ ';' ∧ c ≠ ':' := by
  rcases h.mem hc with hr | rfl | rfl
  · have hn := isIdentifierRest_iff.mp hr
    have hne (d : Char) (hd : isIdentifierRest d = false) : c ≠ d := by
      rintro rfl
      simp [hr] at hd
    refine ⟨not_isSeparator_of_visible (by omega) (by omega) (hne ',' (by decide)), ?_, hne ';' (by decide),
      hne ':' (by decide)⟩
    simp [isBracket, hne '[' (by decide), hne ']' (by decide)]
  · decide
  · decide

theorem IsWord.of_denotes {t : Token} {n : Int} (h : Denotes t n) : IsWord t :=
  ⟨h.ne_nil, fun _ hc => ⟨(h.plain_of_mem hc).1, (h.plain_of_mem hc).2.2.1⟩⟩

theorem Text.Denotes.getLast?_ne {t : Token} {n : Int} (h : Denotes t n) : t.getLast? ≠ some ':' :=
  fun hl => (h.plain_of_mem (List.mem_of_getLast? hl)).2.2.2 rfl

theorem not_isBracket_of_isIdentifier {name : Token} (h : isIdentifier name = true) :
    ∀ c ∈ name, isBracket c = false := by
  intro c hc
  have hr := isIdentifierRest_iff.mp (isIdentifierRest_of_mem h c hc)
  simp only [isBracket, Bool.or_eq_false_iff, beq_eq_false_iff_ne]
  constructor
  · rintro rfl
    simp at hr
  · rintro rfl
    simp at hr

theorem isIdentifier_registerName (r : Register) : isIdentifier r.name = true := by
  revert r
  decide

theorem isIdentifier_opcodeName (op : Opcode) : isIdentifier op.name = true := by
  rcases op with _ | _ | f | _ | _ | _ | _ <;> first | rfl | (cases f <;> rfl)

theorem IsWord.bracketed {w : Token} (h : IsWord w) : IsWord ('[' :: w ++ [']']) := by
  refine ⟨by simp, ?_⟩
  intro c hc
  simp only [List.cons_append, List.mem_cons, List.mem_append, List.not_mem_nil, or_false] at hc
  rcases hc with rfl | hc | rfl
  · decide
  · exact h.2 c hc
  · decide

theorem isWord_operandText (o : Operand) : IsWord o.text := by
  cases o with
  | reg r => exact .of_isIdentifier (isIdentifier_registerName r)
  | imm b => exact .of_denotes (denotes_hexNumber b.toNat)
  | mem b => exact IsWord.bracketed (.of_denotes (denotes_hexNumber b.toNat))
  | addr b => exact .of_denotes (denotes_hexNumber b.toNat)

theorem getLast?_operandText (o : Operand) : o.text.getLast? ≠ some ':' := by
  cases o with
  | reg r => exact getLast?_ne_of_isIdentifier (isIdentifier_registerName r)
  | imm b => exact (denotes_hexNumber b.toNat).getLast?_ne
  | mem b =>
    have hl : (Operand.mem b).text.getLast? = some ']' := List.getLast?_concat
    simp [hl]
  | addr b => exact (denotes_hexNumber b.toNat).getLast?_ne

/-- The first character of a numeral is a digit or a sign. -/
theorem Text.Denotes.not_isIdentifier {t : Token} {n : Int} (h : Denotes t n) : isIdentifier t = false := by
  have hdigit {ds : List Char} {k : Nat} (hs : Spells 10 ds k) : isIdentifier ds = false := by
    obtain ⟨c, cs, rfl⟩ := List.exists_cons_of_ne_nil hs.1
    obtain ⟨d, hd⟩ := Option.isSome_iff_exists.mp (hs.2.1 c List.mem_cons_self)
    obtain ⟨hv, hlt⟩ := digit?_eq_some_iff.mp hd
    have hc := digitValue?_eq_some_iff.mp hv
    have hns : isIdentifierStart c = false := by
      rw [Bool.eq_false_iff, Ne, isIdentifierStart_iff]
      omega
    simp [isIdentifier, hns]
  cases h with
  | plain digits => exact hdigit digits
  | plus | minus | hexadecimal => simp [isIdentifier, isIdentifierStart]

theorem numeral?_eq_none_of_isIdentifier {name : Token} (h : isIdentifier name = true) : numeral? name = none := by
  rw [Option.eq_none_iff_forall_ne_some]
  intro v hv
  obtain ⟨n, hn, -⟩ := numeral?_eq_some_iff.mp hv
  simp [hn.not_isIdentifier] at h

theorem valueOf_of_denotes {labels : LabelTable} {t : Token} {n : Int} (h : Denotes t n) (hl : labels.get? t = none) :
    valueOf labels t = .ok (UInt8.ofInt n) :=
  valueOf_eq_ok_iff.mpr (by simp [hl, numeral?_of_denotes h])

theorem valueOf_hexNumber {labels : LabelTable} (b : UInt8) (hl : labels.get? (hexNumber b.toNat) = none) :
    valueOf labels (hexNumber b.toNat) = .ok b :=
  valueOf_eq_ok_iff.mpr (by simp [hl, numeral?_hexNumber_toNat])

theorem cellOf_memText {labels : LabelTable} (op : Opcode) (b : UInt8) (hl : labels.get? (hexNumber b.toNat) = none) :
    cellOf labels op (Operand.mem b).text = .ok b := by
  have hd := denotes_hexNumber b.toNat
  have hb := unbracket?_bracketed hd.ne_nil fun c hc => (hd.plain_of_mem hc).2.1
  exact cellOf_eq_ok_iff.mpr ⟨_, hb, valueOf_hexNumber b hl⟩

theorem registerOf_name (r : Register) : registerOf r.name = .ok r := registerOf_eq_ok_iff.mpr r.ofName?_name

namespace Instruction

/-- The instruction as the statement that its text is read as. -/
def statement (i : Instruction) : Statement := .instruction i.opcode.name (i.operands.map Operand.text)

theorem text_statement (i : Instruction) : i.statement.text = i.text := by
  cases i <;> rfl

theorem printable_statement (i : Instruction) : i.statement.Printable := by
  apply Statement.printable_instruction
  simp only [List.forall_mem_cons, List.forall_mem_map]
  have hid := isIdentifier_opcodeName i.opcode
  exact ⟨⟨.of_isIdentifier hid, getLast?_ne_of_isIdentifier hid⟩,
    fun o _ => ⟨isWord_operandText o, getLast?_operandText o⟩⟩

/-- If no numeral is a label, the text of an instruction is read as that instruction. -/
theorem readInstruction_statement {labels : LabelTable} (h : ∀ t n, Denotes t n → labels.get? t = none)
    (i : Instruction) : readInstruction labels i.opcode.name (i.operands.map Operand.text) = .ok i := by
  have hnone (b : UInt8) : labels.get? (hexNumber b.toNat) = none := h _ _ (denotes_hexNumber b.toNat)
  have hval (b : UInt8) := valueOf_hexNumber b (hnone b)
  have hcell (op : Opcode) (b : UInt8) := cellOf_memText op b (hnone b)
  apply Reads.readInstruction_eq
  cases i with
  | nop => exact .nop
  | ldi rd v => exact .ldi (registerOf_name rd) (hval v)
  | alu f rd rs => exact .alu (registerOf_name rd) (registerOf_name rs)
  | ld rd a => exact .ld (registerOf_name rd) (hcell .ld a)
  | st rd a => exact .st (registerOf_name rd) (hcell .st a)
  | brz t => exact .brz (hval t)
  | jmp t => exact .jmp (hval t)

end Instruction

end ByteMachine
