import ByteMachine.Text.Digits
import Mathlib

/-! # Numerals: a row of digits stands for a number, read modulo 256 and printed in full -/
namespace ByteMachine.Text

/-- The number that a row of digits stands for, the first digit being worth most. -/
def magnitude (radix : Nat) (ds : List Char) : Nat :=
  ds.foldl (fun n c => n * radix + (digitValue? c).getD 0) 0

/-- A non-empty row of digits of the radix, and its number. -/
def Spells (radix : Nat) (ds : List Char) (n : Nat) : Prop :=
  ds ≠ [] ∧ (∀ c ∈ ds, (digit? radix c).isSome = true) ∧ magnitude radix ds = n

/-- The integer that a numeral of any length denotes. -/
inductive Denotes : List Char → Int → Prop
  | plain {ds n} (digits : Spells 10 ds n) : Denotes ds n
  | plus {ds n} (digits : Spells 10 ds n) : Denotes ('+' :: ds) n
  | minus {ds n} (digits : Spells 10 ds n) : Denotes ('-' :: ds) (-n)
  | hexadecimal {x ds n} (mark : x = 'x' ∨ x = 'X') (digits : Spells 16 ds n) : Denotes ('0' :: x :: ds) n

@[simp] theorem ofInt_natCast (n : Nat) : UInt8.ofInt (n : Int) = UInt8.ofNat n := by
  apply UInt8.toNat_inj.mp
  simp only [UInt8.ofInt, UInt8.toNat_ofNat']
  omega

theorem digit?_eq_some_iff {radix d : Nat} {c : Char} :
    digit? radix c = some d ↔ digitValue? c = some d ∧ d < radix := by
  simp [digit?, Option.filter_eq_some_iff]

theorem digitValue?_eq_some_iff {c : Char} {d : Nat} : digitValue? c = some d ↔
    (48 ≤ c.toNat ∧ c.toNat ≤ 57 ∧ c.toNat = d + 48) ∨ (65 ≤ c.toNat ∧ c.toNat ≤ 70 ∧ c.toNat = d + 55) ∨
      (97 ≤ c.toNat ∧ c.toNat ≤ 102 ∧ c.toNat = d + 87) := by
  have hle (x y : Char) : x ≤ y ↔ x.toNat ≤ y.toNat := Iff.rfl
  simp only [digitValue?, hle, Char.reduceToNat]
  split_ifs <;> simp only [Option.some.injEq, false_iff] <;> omega

theorem isSome_digit?_ten {c : Char} : (digit? 10 c).isSome = true ↔ '0' ≤ c ∧ c ≤ '9' := by
  change _ ↔ 48 ≤ c.toNat ∧ c.toNat ≤ 57
  simp only [Option.isSome_iff_exists, digit?_eq_some_iff, digitValue?_eq_some_iff]
  constructor
  · rintro ⟨d, h, hlt⟩
    omega
  · intro h
    exact ⟨c.toNat - 48, by omega, by omega⟩

theorem isSome_digit?_sixteen {c : Char} : (digit? 16 c).isSome = true ↔
    ('0' ≤ c ∧ c ≤ '9') ∨ ('A' ≤ c ∧ c ≤ 'F') ∨ ('a' ≤ c ∧ c ≤ 'f') := by
  change _ ↔ (48 ≤ c.toNat ∧ c.toNat ≤ 57) ∨ (65 ≤ c.toNat ∧ c.toNat ≤ 70) ∨ (97 ≤ c.toNat ∧ c.toNat ≤ 102)
  simp only [Option.isSome_iff_exists, digit?_eq_some_iff, digitValue?_eq_some_iff]
  constructor
  · rintro ⟨d, h, hlt⟩
    omega
  · rintro (h | h | h)
    · exact ⟨c.toNat - 48, by omega, by omega⟩
    · exact ⟨c.toNat - 55, by omega, by omega⟩
    · exact ⟨c.toNat - 87, by omega, by omega⟩

private theorem foldlM_residue (radix : Nat) (ds : List Char) (n : Nat) (v : UInt8) :
    ds.foldlM (fun acc c => (digit? radix c).map fun d => acc * UInt8.ofNat radix + UInt8.ofNat d) (UInt8.ofNat n) =
        some v ↔
      (∀ c ∈ ds, (digit? radix c).isSome = true) ∧
        v = UInt8.ofNat (ds.foldl (fun n c => n * radix + (digitValue? c).getD 0) n) := by
  induction ds generalizing n with
  | nil =>
    have hv : some (UInt8.ofNat n) = some v ↔ v = UInt8.ofNat n := by rw [Option.some.injEq, eq_comm]
    simpa using hv
  | cons c ds ih =>
    cases hd : digit? radix c with
    | none => simp [hd]
    | some d =>
      have hv : digitValue? c = some d := (digit?_eq_some_iff.mp hd).1
      have hs : UInt8.ofNat n * UInt8.ofNat radix + UInt8.ofNat d = UInt8.ofNat (n * radix + d) := by simp
      rw [List.foldlM_cons, List.foldl_cons, hd, hv]
      simp only [Option.map_some, Option.bind_eq_bind, Option.bind_some, Option.getD_some, hs, ih]
      simp [hd]

/-- Reading modulo 256 at each digit is reading the whole number modulo 256. -/
theorem residue?_eq_some_iff {radix : Nat} {ds : List Char} {v : UInt8} :
    residue? radix ds = some v ↔ ∃ n, Spells radix ds n ∧ v = UInt8.ofNat n := by
  cases ds with
  | nil => simp [residue?, Spells]
  | cons d ds =>
    have h := foldlM_residue radix (d :: ds) 0 v
    simp only [residue?, List.isEmpty_cons, Bool.false_eq_true, ↓reduceIte]
    rw [show (0 : UInt8) = UInt8.ofNat 0 from rfl, h]
    constructor
    · rintro ⟨hd, rfl⟩
      exact ⟨_, ⟨by simp, hd, rfl⟩, rfl⟩
    · rintro ⟨n, ⟨-, hd, rfl⟩, rfl⟩
      exact ⟨hd, rfl⟩

theorem numeral?_of_digits {ds : List Char} (h : ∀ c ∈ ds, (digit? 10 c).isSome = true) :
    numeral? ds = residue? 10 ds := by
  have hx : 'x' ∉ ds := fun hm => absurd (h 'x' hm) (by decide)
  have hX : 'X' ∉ ds := fun hm => absurd (h 'X' hm) (by decide)
  have hminus : '-' ∉ ds := fun hm => absurd (h '-' hm) (by decide)
  have hplus : '+' ∉ ds := fun hm => absurd (h '+' hm) (by decide)
  unfold numeral?
  split <;> simp_all

/-- Numerals are accepted exactly in these four shapes, and denote integers that are taken modulo 256. -/
theorem numeral?_eq_some_iff {t : List Char} {v : UInt8} :
    numeral? t = some v ↔ ∃ n, Denotes t n ∧ v = UInt8.ofInt n := by
  constructor
  · intro h
    unfold numeral? at h
    split at h
    · obtain ⟨n, hn, rfl⟩ := residue?_eq_some_iff.mp h
      exact ⟨n, .hexadecimal (.inl rfl) hn, by simp⟩
    · obtain ⟨n, hn, rfl⟩ := residue?_eq_some_iff.mp h
      exact ⟨n, .hexadecimal (.inr rfl) hn, by simp⟩
    · obtain ⟨w, hw, rfl⟩ := Option.map_eq_some_iff.mp h
      obtain ⟨n, hn, rfl⟩ := residue?_eq_some_iff.mp hw
      exact ⟨-n, .minus hn, by simp⟩
    · obtain ⟨n, hn, rfl⟩ := residue?_eq_some_iff.mp h
      exact ⟨n, .plus hn, by simp⟩
    · obtain ⟨n, hn, rfl⟩ := residue?_eq_some_iff.mp h
      exact ⟨n, .plain hn, by simp⟩
  · rintro ⟨_, hd, rfl⟩
    cases hd with
    | @plain ds n hn =>
      rw [numeral?_of_digits hn.2.1]
      exact residue?_eq_some_iff.mpr ⟨_, hn, by simp⟩
    | plus hn => exact residue?_eq_some_iff.mpr ⟨_, hn, by simp⟩
    | @minus ds n hn =>
      have hr : residue? 10 ds = some (UInt8.ofNat n) := residue?_eq_some_iff.mpr ⟨n, hn, rfl⟩
      simp [numeral?, hr]
    | hexadecimal mark hn =>
      rcases mark with rfl | rfl
      · exact residue?_eq_some_iff.mpr ⟨_, hn, by simp⟩
      · exact residue?_eq_some_iff.mpr ⟨_, hn, by simp⟩

private theorem foldl_place (radix n : Nat) (ds : List Char) :
    ds.foldl (fun n c => n * radix + (digitValue? c).getD 0) n = n * radix ^ ds.length + magnitude radix ds := by
  induction ds generalizing n with
  | nil => simp [magnitude]
  | cons c ds ih =>
    rw [magnitude, List.foldl_cons, List.foldl_cons, ih, ih (0 * radix + _), List.length_cons, Nat.pow_succ]
    grind

theorem magnitude_append (radix : Nat) (ds es : List Char) :
    magnitude radix (ds ++ es) = magnitude radix ds * radix ^ es.length + magnitude radix es := by
  rw [magnitude, List.foldl_append, foldl_place]
  rfl

theorem magnitude_singleton (radix : Nat) (c : Char) : magnitude radix [c] = (digitValue? c).getD 0 := by
  simp [magnitude]

theorem Spells.append {radix n k : Nat} {ds es : List Char} (h : Spells radix ds n) (h' : Spells radix es k) :
    Spells radix (ds ++ es) (n * radix ^ es.length + k) := by
  obtain ⟨hne, hds, rfl⟩ := h
  obtain ⟨-, hes, rfl⟩ := h'
  refine ⟨by simp [hne], ?_, magnitude_append radix ds es⟩
  intro c hc
  rcases List.mem_append.mp hc with hc | hc
  · exact hds c hc
  · exact hes c hc

theorem spells_singleton {radix d : Nat} {c : Char} (h : digitValue? c = some d) (hd : d < radix) :
    Spells radix [c] d := by
  have hs : digit? radix c = some d := digit?_eq_some_iff.mpr ⟨h, hd⟩
  exact ⟨by simp, by simp [hs], by simp [magnitude_singleton, h]⟩

theorem digitValue?_digitChar {d : Nat} (h : d < 16) : digitValue? d.digitChar = some d := by
  revert d
  decide

theorem digitValue?_toUpper_digitChar {d : Nat} (h : d < 16) : digitValue? d.digitChar.toUpper = some d := by
  revert d
  decide

/-- Written digit by digit through `f`, a number in a radix up to sixteen is spelled by its digits. -/
theorem spells_map_toDigits {f : Char → Char} {radix : Nat} (hr : 1 < radix)
    (hf : ∀ d < radix, digitValue? (f d.digitChar) = some d) (n : Nat) :
    Spells radix ((Nat.toDigits radix n).map f) n := by
  induction n using Nat.strongRecOn with
  | ind n ih =>
    by_cases hn : n < radix
    · rw [Nat.toDigits_of_lt_base hn]
      exact spells_singleton (hf n hn) hn
    · have hlast : n % radix < radix := Nat.mod_lt n (by omega)
      have hq := ih (n / radix) (Nat.div_lt_self (by omega) hr)
      have h := hq.append (spells_singleton (hf (n % radix) hlast) hlast)
      rw [Nat.toDigits_of_base_le hr (by omega), List.map_append]
      simpa [Nat.div_add_mod'] using h

theorem spells_toDigits_ten (n : Nat) : Spells 10 (Nat.toDigits 10 n) n := by
  simpa using spells_map_toDigits (f := id) (by decide : 1 < 10) (fun d hd => digitValue?_digitChar (by omega)) n

theorem Spells.leftpad {radix n : Nat} {ds : List Char} (h : Spells radix ds n) (hr : 0 < radix) (k : Nat) :
    Spells radix (ds.leftpad k '0') n := by
  unfold List.leftpad
  induction k - ds.length with
  | zero => simpa using h
  | succ m ih => simpa [List.replicate_succ] using (spells_singleton (c := '0') rfl hr).append ih

/-- The digits behind the mark of a printed address spell it. -/
theorem exists_hexNumber (n : Nat) : ∃ ds, hexNumber n = '0' :: 'x' :: ds ∧ Spells 16 ds n := by
  have h := spells_map_toDigits (f := Char.toUpper) (by decide) (fun d hd => digitValue?_toUpper_digitChar hd) n
  exact ⟨_, rfl, h.leftpad (by decide) 2⟩

theorem denotes_hexNumber (n : Nat) : Denotes (hexNumber n) n := by
  obtain ⟨ds, hds, hn⟩ := exists_hexNumber n
  exact hds ▸ .hexadecimal (.inl rfl) hn

theorem denotes_decimal (a : Int) : Denotes (decimal a) a := by
  cases a with
  | ofNat n => exact .plain (spells_toDigits_ten n)
  | negSucc n => exact .minus (spells_toDigits_ten (n + 1))

theorem numeral?_of_denotes {t : List Char} {n : Int} (h : Denotes t n) : numeral? t = some (UInt8.ofInt n) :=
  numeral?_eq_some_iff.mpr ⟨n, h, rfl⟩

theorem numeral?_hexNumber_toNat (b : UInt8) : numeral? (hexNumber b.toNat) = some b := by
  simpa using numeral?_of_denotes (denotes_hexNumber b.toNat)

/-- A digit in upper case, by its place among the sixteen. -/
def IsHexDigit (d : Nat) (c : Char) : Prop := "0123456789ABCDEF".toList[d]? = some c

/-- A number in digits of upper case: in two, or in more if two are not enough, and then without a zero in front. -/
inductive Hexadecimal : Nat → List Char → Prop
  | pair {high low c d} (first : IsHexDigit high c) (second : IsHexDigit low d) : Hexadecimal (16 * high + low) [c, d]
  | more {n low ds d} (large : 16 ≤ n) (rest : Hexadecimal n ds) (last : IsHexDigit low d) :
      Hexadecimal (16 * n + low) (ds ++ [d])

theorem isHexDigit_hexDigit {d : Nat} (h : d < 16) : IsHexDigit d (hexDigit d) := by
  interval_cases d <;> rfl

theorem hexadecimal_hexByte (b : UInt8) : Hexadecimal b.toNat (hexByte b) := by
  have hb := b.toNat_lt
  have h := Hexadecimal.pair (isHexDigit_hexDigit (d := b.toNat / 16) (by omega))
    (isHexDigit_hexDigit (d := b.toNat % 16) (by omega))
  rwa [Nat.div_add_mod] at h

theorem two_le_length_toDigits {n : Nat} (h : 16 ≤ n) : 2 ≤ (Nat.toDigits 16 n).length := by
  have hne : Nat.toDigits 16 (n / 16) ≠ [] := Nat.toDigits_ne_nil
  have hpos := List.length_pos_iff.mpr hne
  rw [Nat.toDigits_of_base_le (by decide) h, List.length_append, List.length_singleton]
  omega

theorem hexadecimal_toDigits {n : Nat} (h : 16 ≤ n) : Hexadecimal n ((Nat.toDigits 16 n).map Char.toUpper) := by
  induction n using Nat.strongRecOn with
  | ind n ih =>
    have hlast := isHexDigit_hexDigit (d := n % 16) (Nat.mod_lt n (by decide))
    rw [Nat.toDigits_of_base_le (by decide) h, List.map_append]
    by_cases hsmall : n / 16 < 16
    · have hpair := Hexadecimal.pair (isHexDigit_hexDigit hsmall) hlast
      rw [Nat.div_add_mod] at hpair
      rw [Nat.toDigits_of_lt_base hsmall]
      exact hpair
    · have hmore := Hexadecimal.more (by omega) (ih (n / 16) (by omega) (by omega)) hlast
      rwa [Nat.div_add_mod] at hmore

theorem exists_hexadecimal (n : Nat) : ∃ ds, hexNumber n = '0' :: 'x' :: ds ∧ Hexadecimal n ds := by
  refine ⟨_, rfl, ?_⟩
  by_cases h : n < 16
  · have hpair := Hexadecimal.pair (isHexDigit_hexDigit (d := 0) (by decide)) (isHexDigit_hexDigit h)
    rw [Nat.mul_zero, Nat.zero_add] at hpair
    rw [Nat.toDigits_of_lt_base h]
    exact hpair
  · have hlong := two_le_length_toDigits (Nat.not_lt.mp h)
    have hpad : ((Nat.toDigits 16 n).map Char.toUpper).leftpad 2 '0' = (Nat.toDigits 16 n).map Char.toUpper := by
      simp [List.leftpad, Nat.sub_eq_zero_of_le hlong]
    rw [hpad]
    exact hexadecimal_toDigits (Nat.not_lt.mp h)

end ByteMachine.Text
