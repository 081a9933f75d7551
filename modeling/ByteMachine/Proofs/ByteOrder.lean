import Mathlib

/-! # Byte order: texts compare as their bytes do

In UTF-8 a code point is one byte below 128, or a first byte that tells how many bytes follow and up to three more with
six bits each. More bytes go with a greater first byte, so the order of code points is the order of their bytes, and it
is settled before either of two different code points ends. -/
namespace ByteMachine.Text

/-- The bytes of a text in UTF-8. -/
def utf8 (cs : List Char) : List UInt8 := (String.ofList cs).toUTF8.data.toList

theorem utf8_eq_flatMap (cs : List Char) : utf8 cs = cs.flatMap String.utf8EncodeChar := by
  simp [utf8, List.utf8Encode]

/-- A number in `k + 1` bytes: the last `k` carry six bits each, the first carries a mark and what is left. -/
def multibyte (mark : Nat) : Nat → Nat → List UInt8
  | 0, n => [UInt8.ofNat (mark + n)]
  | k + 1, n => multibyte mark k (n / 64) ++ [UInt8.ofNat (128 + n % 64)]

/-- The mark in the first byte of a code point, and how many bytes follow. -/
def utf8Form (n : Nat) : Nat × Nat :=
  if n ≤ 0x7F then (0, 0) else if n ≤ 0x7FF then (0xC0, 1) else if n ≤ 0xFFFF then (0xE0, 2) else (0xF0, 3)

def leadByte (n : Nat) : Nat := (utf8Form n).1 + n / 64 ^ (utf8Form n).2

theorem utf8EncodeChar_eq (c : Char) :
    String.utf8EncodeChar c = multibyte (utf8Form c.toNat).1 (utf8Form c.toNat).2 c.toNat := by
  have hmax : c.toNat ≤ 0x10FFFF := c.toNat_le_max
  have hval : c.val.toNat = c.toNat := rfl
  rw [String.utf8EncodeChar.eq_1, hval, utf8Form]
  generalize c.toNat = n at hmax
  split_ifs <;> simp only [multibyte, List.cons_append, List.nil_append, Nat.zero_add] <;> grind

theorem ofNat_cons_lt {m n : Nat} (h : m < n) (hn : n < 256) (us vs : List UInt8) :
    UInt8.ofNat m :: us < UInt8.ofNat n :: vs :=
  .rel ((UInt8.ofNat_lt_iff_lt (Nat.lt_trans h hn) hn).mpr h)

theorem exists_multibyte_eq_cons (mark k n : Nat) :
    ∃ bs, multibyte mark k n = UInt8.ofNat (mark + n / 64 ^ k) :: bs := by
  induction k generalizing n with
  | zero => exact ⟨[], by simp [multibyte]⟩
  | succ k ih =>
    obtain ⟨bs, hbs⟩ := ih (n / 64)
    rw [multibyte, hbs, Nat.div_div_eq_div_mul, ← Nat.pow_succ']
    exact ⟨_, rfl⟩

theorem append_lt_append_iff (bs us vs : List UInt8) : bs ++ us < bs ++ vs ↔ us < vs := by
  induction bs with
  | nil => exact Iff.rfl
  | cons b bs ih => simp [ih]

/-- With one mark and one number of bytes, the greater number has the greater byte where the two first differ. -/
theorem multibyte_append_lt {mark k m n : Nat} (h : m < n) (hn : mark + n / 64 ^ k < 256) (us vs : List UInt8) :
    multibyte mark k m ++ us < multibyte mark k n ++ vs := by
  induction k generalizing m n us vs with
  | zero =>
    rw [Nat.pow_zero, Nat.div_one] at hn
    exact ofNat_cons_lt (Nat.add_lt_add_left h mark) hn us vs
  | succ k ih =>
    rw [Nat.pow_succ', ← Nat.div_div_eq_div_mul] at hn
    simp only [multibyte, List.append_assoc]
    -- the last six bits count only if all bits before them are the same
    have hsplit : m / 64 < n / 64 ∨ m / 64 = n / 64 ∧ m % 64 < n % 64 := by omega
    rcases hsplit with hq | ⟨hq, hr⟩
    · exact ih hq hn _ _
    · rw [hq, append_lt_append_iff]
      exact ofNat_cons_lt (Nat.add_lt_add_left hr 128) (by omega) us vs

theorem leadByte_lt {n : Nat} (hn : n ≤ 0x10FFFF) : leadByte n < 256 := by
  unfold leadByte utf8Form
  split_ifs <;> simp only <;> omega

theorem leadByte_lt_leadByte {m n : Nat} (h : m < n) (hn : n ≤ 0x10FFFF) (hf : utf8Form m ≠ utf8Form n) :
    leadByte m < leadByte n := by
  unfold leadByte
  unfold utf8Form at hf ⊢
  split_ifs at hf ⊢ <;> simp at hf ⊢ <;> omega

/-- The bytes of the lesser character come first, whatever follows them. -/
theorem utf8EncodeChar_append_lt {c d : Char} (h : c < d) (us vs : List UInt8) :
    String.utf8EncodeChar c ++ us < String.utf8EncodeChar d ++ vs := by
  have hlt : c.toNat < d.toNat := h
  have hlead : leadByte d.toNat < 256 := leadByte_lt d.toNat_le_max
  rw [utf8EncodeChar_eq, utf8EncodeChar_eq]
  by_cases hf : utf8Form c.toNat = utf8Form d.toNat
  · rw [hf]
    exact multibyte_append_lt hlt hlead us vs
  · obtain ⟨bs, hc⟩ := exists_multibyte_eq_cons (utf8Form c.toNat).1 (utf8Form c.toNat).2 c.toNat
    obtain ⟨es, hd⟩ := exists_multibyte_eq_cons (utf8Form d.toNat).1 (utf8Form d.toNat).2 d.toNat
    rw [hc, hd]
    exact ofNat_cons_lt (leadByte_lt_leadByte hlt d.toNat_le_max hf) hlead _ _

theorem utf8_lt_utf8_iff {cs ds : List Char} : utf8 cs < utf8 ds ↔ cs < ds := by
  simp only [utf8_eq_flatMap]
  induction cs generalizing ds with
  | nil =>
    cases ds with
    | nil => simp
    | cons d ds =>
      obtain ⟨b, bs, hb⟩ := List.exists_cons_of_ne_nil (String.utf8EncodeChar_ne_nil (c := d))
      simp [hb]
  | cons c cs ih =>
    cases ds with
    | nil => simp
    | cons d ds =>
      rw [List.flatMap_cons, List.flatMap_cons, List.cons_lt_cons_iff]
      rcases lt_trichotomy c d with hlt | rfl | hgt
      · simp [utf8EncodeChar_append_lt hlt, hlt]
      · simp [append_lt_append_iff, ih]
      · have hbytes := utf8EncodeChar_append_lt hgt (ds.flatMap String.utf8EncodeChar) (cs.flatMap String.utf8EncodeChar)
        simp only [hgt.not_gt, hgt.ne', false_and, or_false, iff_false]
        exact List.lt_asymm hbytes

theorem compare_eq_lt_iff {cs ds : List Char} : compare cs ds = .lt ↔ cs < ds := by
  change List.compareLex compare cs ds = .lt ↔ cs < ds
  induction cs generalizing ds with
  | nil => cases ds <;> simp [List.compareLex_nil_nil, List.compareLex_nil_cons]
  | cons c cs ih =>
    cases ds with
    | nil => simp [List.compareLex_cons_nil]
    | cons d ds =>
      have hlt : compare c d = .lt ↔ c < d := compare_lt_iff_lt
      have heq : compare c d = .eq ↔ c = d := compare_eq_iff_eq
      rw [List.compareLex_cons_cons, Ordering.then_eq_lt, List.cons_lt_cons_iff, hlt, heq, ih]

end ByteMachine.Text
