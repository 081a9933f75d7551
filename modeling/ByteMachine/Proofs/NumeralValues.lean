import ByteMachine.Proofs.Grammar

/-! # The values of numerals: a text of any length is read as the integer it denotes, modulo 256

Here the value of a row of digits is the sum of the digits, each times its power of the radix, in unbounded arithmetic. -/
namespace ByteMachine.Grammar

open Text

/-- The value of a digit is its place among the digits. -/
def DigitValue (c : Char) (d : Nat) : Prop :=
  "0123456789ABCDEF".toList[d]? = some c ∨ "0123456789abcdef".toList[d]? = some c

/-- A non-empty row of digits below the radix, and the number it stands for. -/
def Row (radix : Nat) (ds : List Char) (n : Nat) : Prop :=
  ds ≠ [] ∧ ∃ vs, List.Forall₂ DigitValue ds vs ∧ (∀ v ∈ vs, v < radix) ∧ Nat.ofDigits radix vs.reverse = n

/-- The integer that a numeral denotes. -/
inductive Literal : Token → Int → Prop
  | plain {ds n} (row : Row 10 ds n) : Literal ds n
  | plus {ds n} (row : Row 10 ds n) : Literal ('+' :: ds) n
  | minus {ds n} (row : Row 10 ds n) : Literal ('-' :: ds) (-n)
  | hexadecimal {x ds n} (mark : x = 'x' ∨ x = 'X') (row : Row 16 ds n) : Literal ('0' :: x :: ds) n

theorem digitValue_iff {c : Char} {d : Nat} : DigitValue c d ↔ digitValue? c = some d := by
  constructor
  · intro h
    have hd : d < 16 := h.elim (fun h => (List.getElem?_eq_some_iff.mp h).1) fun h => (List.getElem?_eq_some_iff.mp h).1
    unfold DigitValue at h
    interval_cases d <;> simp at h <;> rcases h with rfl | rfl <;> decide
  · intro h
    have hc := digitValue?_eq_some_iff.mp h
    have hd : d < 16 := by omega
    unfold DigitValue
    interval_cases d <;> simp [← Char.toNat_inj] <;> omega

theorem ofDigits_eq_magnitude {radix : Nat} {ds : List Char} {vs : List Nat} (h : List.Forall₂ DigitValue ds vs) :
    Nat.ofDigits radix vs.reverse = magnitude radix ds := by
  induction h with
  | nil => rfl
  | @cons c v ds vs first rest ih =>
    have hc : magnitude radix [c] = v := by rw [magnitude_singleton, digitValue_iff.mp first, Option.getD_some]
    rw [List.reverse_cons, Nat.ofDigits_append, Nat.ofDigits_singleton, ih, ← List.singleton_append (x := c),
      magnitude_append, hc, List.length_reverse, rest.length_eq]
    ring

theorem exists_digitValues_iff {radix : Nat} {ds : List Char} :
    (∃ vs, List.Forall₂ DigitValue ds vs ∧ ∀ v ∈ vs, v < radix) ↔ ∀ c ∈ ds, (digit? radix c).isSome = true := by
  induction ds with
  | nil => simp
  | cons c ds ih =>
    rw [List.forall_mem_cons, ← ih, Option.isSome_iff_exists]
    simp only [digit?_eq_some_iff, ← digitValue_iff]
    constructor
    · rintro ⟨_, _ | ⟨first, rest⟩, hlt⟩
      rw [List.forall_mem_cons] at hlt
      exact ⟨⟨_, first, hlt.1⟩, _, rest, hlt.2⟩
    · rintro ⟨⟨v, first, hv⟩, vs, rest, hlt⟩
      exact ⟨v :: vs, .cons first rest, List.forall_mem_cons.mpr ⟨hv, hlt⟩⟩

theorem row_iff {radix : Nat} {ds : List Char} {n : Nat} : Row radix ds n ↔ Spells radix ds n := by
  unfold Row Spells
  rw [← exists_digitValues_iff]
  constructor
  · rintro ⟨hne, vs, hvs, hlt, rfl⟩
    exact ⟨hne, ⟨vs, hvs, hlt⟩, (ofDigits_eq_magnitude hvs).symm⟩
  · rintro ⟨hne, ⟨vs, hvs, hlt⟩, rfl⟩
    exact ⟨hne, vs, hvs, hlt, ofDigits_eq_magnitude hvs⟩

theorem literal_iff {t : Token} {n : Int} : Literal t n ↔ Denotes t n := by
  constructor
  · intro h
    cases h with
    | plain row => exact .plain (row_iff.mp row)
    | plus row => exact .plus (row_iff.mp row)
    | minus row => exact .minus (row_iff.mp row)
    | hexadecimal mark row => exact .hexadecimal mark (row_iff.mp row)
  · intro h
    cases h with
    | plain digits => exact .plain (row_iff.mpr digits)
    | plus digits => exact .plus (row_iff.mpr digits)
    | minus digits => exact .minus (row_iff.mpr digits)
    | hexadecimal mark digits => exact .hexadecimal mark (row_iff.mpr digits)

theorem eq_ofInt_iff {v : UInt8} {n : Int} : v = UInt8.ofInt n ↔ (v.toNat : Int) = n % 256 := by
  rw [← UInt8.toNat_inj, UInt8.ofInt, UInt8.toNat_ofNat']
  omega

theorem decimal_eq_toString (a : Int) : decimal a = (toString a).toList := by
  cases a <;> simp [decimal, toString, Int.repr, Nat.repr]

theorem hexNumber_toNat (b : UInt8) : hexNumber b.toNat = '0' :: 'x' :: hexByte b := by
  have hb := b.toNat_lt
  unfold hexNumber hexByte hexDigit
  by_cases hlt : b.toNat < 16
  · rw [Nat.toDigits_of_lt_base hlt, Nat.div_eq_of_lt hlt, Nat.mod_eq_of_lt hlt]
    rfl
  · rw [Nat.toDigits_of_base_le (by decide) (by omega), Nat.toDigits_of_lt_base (by omega)]
    simp [List.leftpad]

theorem not_spells_of_mem {radix n : Nat} {ds : List Char} {c : Char} (hc : c ∈ ds) (hd : digit? radix c = none) :
    ¬ Spells radix ds n := by
  intro h
  have hsome := h.2.1 c hc
  simp [hd] at hsome

theorem not_spells_of_mark {x : Char} (hx : x = 'x' ∨ x = 'X') {ds : List Char} {n : Nat} :
    ¬ Spells 10 ('0' :: x :: ds) n := by
  apply not_spells_of_mem (List.mem_cons_of_mem _ List.mem_cons_self)
  rcases hx with rfl | rfl <;> decide

theorem denotes_unique {t : Token} {n m : Int} (h : Denotes t n) (h' : Denotes t m) : n = m := by
  have hsame {radix k l : Nat} {ds : List Char} (hk : Spells radix ds k) (hl : Spells radix ds l) : (k : Int) = l :=
    congrArg _ (hk.2.2.symm.trans hl.2.2)
  have hplus {ds : List Char} {k : Nat} : ¬ Spells 10 ('+' :: ds) k := not_spells_of_mem List.mem_cons_self (by decide)
  have hminus {ds : List Char} {k : Nat} : ¬ Spells 10 ('-' :: ds) k := not_spells_of_mem List.mem_cons_self (by decide)
  cases h with
  | plain digits =>
    cases h' with
    | plain digits' => exact hsame digits digits'
    | plus => exact absurd digits hplus
    | minus => exact absurd digits hminus
    | hexadecimal mark => exact absurd digits (not_spells_of_mark mark)
  | plus digits =>
    cases h' with
    | plain digits' => exact absurd digits' hplus
    | plus digits' => exact hsame digits digits'
  | minus digits =>
    cases h' with
    | plain digits' => exact absurd digits' hminus
    | minus digits' => exact congrArg _ (hsame digits digits')
  | hexadecimal mark digits =>
    cases h' with
    | plain digits' => exact absurd digits' (not_spells_of_mark mark)
    | hexadecimal _ digits' => exact hsame digits digits'

theorem numeral_iff_existsUnique_literal {t : Token} : Numeral t ↔ ∃! n, Literal t n := by
  rw [numeral_iff]
  constructor
  · rintro ⟨v, hv⟩
    obtain ⟨n, hn, -⟩ := numeral?_eq_some_iff.mp hv
    exact ⟨n, literal_iff.mpr hn, fun m hm => denotes_unique (literal_iff.mp hm) hn⟩
  · rintro ⟨n, hn, -⟩
    exact ⟨_, numeral?_of_denotes (literal_iff.mp hn)⟩

theorem numeral?_eq_some_iff_literal {t : Token} {v : UInt8} :
    numeral? t = some v ↔ ∃ n, Literal t n ∧ (v.toNat : Int) = n % 256 := by
  simp only [numeral?_eq_some_iff, literal_iff, eq_ofInt_iff]

/-- A text is read as a number if and only if it is a sign or none and decimal digits, or `0x` or `0X` and hexadecimal
digits. It then denotes one integer and is read as that integer modulo 256. So every integer is read back modulo 256
from its decimal digits, and every byte from its two hexadecimal digits. -/
theorem numerals_denote_integers_modulo_256 (t : Token) (a : Int) (b : UInt8) :
    ((∃ v, numeral? t = some v) ↔ Numeral t) ∧
    (Numeral t ↔ ∃! n, Literal t n) ∧
    (∀ v, numeral? t = some v ↔ ∃ n, Literal t n ∧ (v.toNat : Int) = n % 256) ∧
    (decimal a = (toString a).toList ∧ ∃ v, numeral? (decimal a) = some v ∧ (v.toNat : Int) = a % 256) ∧
    hexNumber b.toNat = '0' :: 'x' :: hexByte b ∧ numeral? (hexNumber b.toNat) = some b := by
  refine ⟨numeral_iff.symm, numeral_iff_existsUnique_literal, fun _ => numeral?_eq_some_iff_literal, ?_,
    hexNumber_toNat b, numeral?_hexNumber_toNat b⟩
  exact ⟨decimal_eq_toString a, _, numeral?_of_denotes (denotes_decimal a), eq_ofInt_iff.mp rfl⟩

-- Marks and signs do not go together, digits of other scripts are no digits, and the least of 64 bits is a multiple of 256.
example : ["0", "0x", "+0x1", "--1", "-", "0XfF", "-300", "٣", "-9223372036854775808"].map (numeral? ·.toList) =
    [some 0, none, none, none, none, some 255, some 212, none, some 0] := by decide

end ByteMachine.Grammar
