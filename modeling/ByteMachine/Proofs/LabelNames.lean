import ByteMachine.Proofs.Grammar
import ByteMachine.Proofs.LabelPositions

/-! # Label names: no label of a source can be taken for a number

Where a value stands, a word is looked up among the labels before it is read as a numeral. The order makes no difference:
a line defines only an identifier, the table has only names that lines define, and no numeral is an identifier. -/
namespace ByteMachine

open Text

/-- All names in the table are identifiers. -/
def LabelTable.Named (t : LabelTable) : Prop := ∀ name v, t.get? name = some v → isIdentifier name = true

/-- The value of a word if numerals are tried before labels. -/
def valueOfNumeralFirst (labels : LabelTable) (token : Token) : Except Fault UInt8 :=
  ((numeral? token).or (labels.get? token)).elim (.error (.unknownValue token)) .ok

theorem named_of_resolveLabels {source : List Char} {t : LabelTable} (h : resolveLabels source = .ok t) : t.Named := by
  obtain ⟨ss, hs, ht⟩ := bind_eq_ok_iff.mp h
  intro name v hv
  have hmem : name ∈ labelNames (values ss) := (isSome_get?_of_resolve ht name).mp (by simp [hv])
  exact isIdentifier_of_mem hs (mem_labelNames_iff.mp hmem)

/-- No character of an identifier has a meaning in a line or around an operand. -/
theorem plain_of_isIdentifier {name : Token} (h : isIdentifier name = true) :
    ∀ c ∈ name, c ∉ ['[', ']', ',', ';', ':'] ∧ isBlank c = false := by
  intro c hc
  have hrest := isIdentifierRest_of_mem h c hc
  have hword := (IsWord.of_isIdentifier h).2 c hc
  refine ⟨?_, not_isBlank_of_not_isSeparator hword.1⟩
  intro hmem
  simp only [List.mem_cons, List.not_mem_nil, or_false] at hmem
  rcases hmem with rfl | rfl | rfl | rfl | rfl <;> simp [isIdentifierRest] at hrest

namespace LabelTable.Named

variable {t : LabelTable} (h : t.Named)
include h

theorem get?_or_numeral? (w : Token) : (t.get? w).or (numeral? w) = (numeral? w).or (t.get? w) := by
  cases hv : t.get? w with
  | none => simp
  | some v => simp [numeral?_eq_none_of_isIdentifier (h w v hv)]

theorem valueOf_eq (w : Token) : valueOf t w = valueOfNumeralFirst t w := by
  rw [valueOf, valueOfNumeralFirst, h.get?_or_numeral? w]
  cases (numeral? w).or (t.get? w) <;> rfl

theorem cellOf_eq {name : Token} {v : UInt8} (hv : t.get? name = some v) (op : Opcode) : cellOf t op name = .ok v := by
  have hid := h name v hv
  have hbare := unbracket?_of_not_isBracket (ne_nil_of_isIdentifier hid) (not_isBracket_of_isIdentifier hid)
  exact cellOf_eq_ok_iff.mpr ⟨name, hbare, valueOf_of_get? hv⟩

theorem cellOf_bracketed {name : Token} {v : UInt8} (hv : t.get? name = some v) (op : Opcode) :
    cellOf t op ('[' :: name ++ [']']) = .ok v := by
  have hid := h name v hv
  have hinner := unbracket?_bracketed (ne_nil_of_isIdentifier hid) (not_isBracket_of_isIdentifier hid)
  exact cellOf_eq_ok_iff.mpr ⟨name, hinner, valueOf_of_get? hv⟩

end LabelTable.Named

theorem instructionOf_memory {labels : LabelTable} {op : Opcode} (hop : op ∈ [Opcode.ld, .st]) (rd : Token) {a b : Token}
    (hcell : cellOf labels op a = cellOf labels op b) :
    instructionOf labels op [rd, a] = instructionOf labels op [rd, b] := by
  simp only [List.mem_cons, List.not_mem_nil, or_false] at hop
  rcases hop with rfl | rfl <;> simp [instructionOf, hcell]

theorem encode_memory {labels : LabelTable} {op : Opcode} (hop : op ∈ [Opcode.ld, .st]) {mnemonic : Token}
    (hm : Opcode.ofName? mnemonic = some op) {rd a : Token} {r : Register} (hr : registerOf rd = .ok r) {v : UInt8}
    (hcell : cellOf labels op a = .ok v) (pc : Nat) :
    encode labels pc mnemonic [rd, a] = .ok [op.header ||| r.toDst, v] := by
  simp only [List.mem_cons, List.not_mem_nil, or_false] at hop
  rcases hop with rfl | rfl
  · exact encode_eq_ok_iff.mpr ⟨.ld, .ld r v, hm, .ld hr hcell, rfl⟩
  · exact encode_eq_ok_iff.mpr ⟨.st, .st r v, hm, .st hr hcell, rfl⟩

/-- The names of a table are identifiers, so none can be read as a numeral, and none has a character that means anything
in a line. Hence a word has the same value whether labels or numerals are tried first, and an instruction that goes to
memory has the same bytes, or the same fault in its register, with a name in brackets or without. -/
theorem labels_never_shadow_numerals {source : List Char} {t : LabelTable} (h : resolveLabels source = .ok t) :
    (∀ name v, t.get? name = some v → Grammar.Identifier name ∧ numeral? name = none ∧
      ∀ c ∈ name, c ∉ ['[', ']', ',', ';', ':'] ∧ isBlank c = false) ∧
    (∀ token, valueOf t token = valueOfNumeralFirst t token) ∧
    ∀ name v, t.get? name = some v → ∀ mnemonic op, Opcode.ofName? mnemonic = some op → op ∈ [Opcode.ld, .st] →
      ∀ rd pc, encode t pc mnemonic [rd, name] = encode t pc mnemonic [rd, '[' :: name ++ [']']] ∧
        ∀ r, registerOf rd = .ok r → encode t pc mnemonic [rd, name] = .ok [op.header ||| r.toDst, v] := by
  have hnamed := named_of_resolveLabels h
  refine ⟨?_, hnamed.valueOf_eq, ?_⟩
  · intro name v hv
    have hid := hnamed name v hv
    exact ⟨Grammar.identifier_iff.mpr hid, numeral?_eq_none_of_isIdentifier hid, plain_of_isIdentifier hid⟩
  · intro name v hv mnemonic op hm hop rd pc
    have hbare := hnamed.cellOf_eq hv op
    refine ⟨?_, fun r hr => encode_memory hop hm hr hbare pc⟩
    have hsame := instructionOf_memory hop rd (hbare.trans (hnamed.cellOf_bracketed hv op).symm)
    simp only [encode, readInstruction, hm, hsame]

/-- The digits of a hexadecimal numeral alone are a name, and so is the numeral behind an underscore. -/
theorem names_that_look_like_numerals :
    let source := "_0x10:\nNOP\nfF :; not 255\nld R1, [fF]\nST r2, _0x10".toList
    ∃ t, resolveLabels source = .ok t ∧ t.get? "fF".toList = some 1 ∧ numeral? "fF".toList = none ∧
      valueOfNumeralFirst t "fF".toList = .ok 1 ∧ encode t 1 "ld".toList ["R1".toList, "fF".toList] = .ok [0x72, 1] ∧
      encode t 1 "ld".toList ["R1".toList, "[fF]".toList] = .ok [0x72, 1] := by
  intro source
  have hget : (resolveLabels source).map (·.get? "fF".toList) = .ok (some 1) := by decide +kernel
  obtain ⟨t, ht, hv⟩ := map_eq_ok_iff.mp hget
  obtain ⟨hnames, hvalues, hcells⟩ := labels_never_shadow_numerals ht
  obtain ⟨hsame, hbytes⟩ := hcells _ _ hv "ld".toList .ld (by decide) (by decide) "R1".toList 1
  have hld : encode t 1 "ld".toList ["R1".toList, "fF".toList] = .ok [0x72, 1] := hbytes .r1 rfl
  exact ⟨t, ht, hv, (hnames _ _ hv).2.1, (hvalues _).symm.trans (valueOf_of_get? hv), hld, hsame.symm.trans hld⟩

end ByteMachine
