import ByteMachine.HexText
import ByteMachine.Proofs.LinesAndWords
import ByteMachine.Proofs.Numerals
import ByteMachine.Proofs.Outcomes

/-! # Hex text line by line: what is written is read back, and what is read is, but for blanks, what is written -/
namespace ByteMachine.HexText

open Text

/-- A decimal digit or a capital letter from A to F. -/
def UpperHex (c : Char) : Prop := ('0' ≤ c ∧ c ≤ '9') ∨ ('A' ≤ c ∧ c ≤ 'F')

/-- Two digits in base sixteen, letters in upper case. -/
def HexPair (w : List Char) : Prop := w.length = 2 ∧ ∀ c ∈ w, UpperHex c

/-- The lines of a text that hold more than blanks, without the blanks around them. -/
def content (text : List Char) : List (List Char) := ((lines text).map trim).filter (!·.isEmpty)

theorem upperHex_iff {c : Char} :
    UpperHex c ↔ (48 ≤ c.toNat ∧ c.toNat ≤ 57) ∨ (65 ≤ c.toNat ∧ c.toNat ≤ 70) := Iff.rfl

theorem upperDigit?_eq_some_iff {c : Char} {d : Nat} :
    upperDigit? c = some d ↔ UpperHex c ∧ digitValue? c = some d := by
  have hlower : c.isLower = true ↔ 97 ≤ c.toNat ∧ c.toNat ≤ 122 := by
    simp [Char.isLower, UInt32.le_iff_toNat_le]
  have hdigit : digit? 16 c = some d ↔ digitValue? c = some d := by
    rw [digit?_eq_some_iff, digitValue?_eq_some_iff]
    omega
  unfold upperDigit?
  split
  · rename_i h
    rw [hlower] at h
    simp only [reduceCtorEq, false_iff, upperHex_iff]
    omega
  · rename_i h
    rw [hlower] at h
    rw [hdigit, digitValue?_eq_some_iff, upperHex_iff]
    omega

theorem UpperHex.exists_digitValue? {c : Char} (h : UpperHex c) : ∃ d, d < 16 ∧ digitValue? c = some d := by
  simp only [digitValue?_eq_some_iff]
  obtain h | h := upperHex_iff.mp h
  · exact ⟨c.toNat - 48, by omega, by omega⟩
  · exact ⟨c.toNat - 55, by omega, by omega⟩

theorem digitValue?_hexDigit {d : Nat} (h : d < 16) : digitValue? (hexDigit d) = some d :=
  digitValue?_toUpper_digitChar h

theorem upperHex_hexDigit {d : Nat} (h : d < 16) : UpperHex (hexDigit d) := by
  rw [upperHex_iff]
  revert d
  decide

/-- Each value has one digit in upper case. -/
theorem UpperHex.eq_hexDigit {c : Char} (h : UpperHex c) {d : Nat} (hd : digitValue? c = some d) (hlt : d < 16) :
    c = hexDigit d := by
  apply Char.toNat_inj.mp
  have hc := upperHex_iff.mp h
  have hc' := upperHex_iff.mp (upperHex_hexDigit hlt)
  have hv := digitValue?_eq_some_iff.mp hd
  have hv' := digitValue?_eq_some_iff.mp (digitValue?_hexDigit hlt)
  omega

theorem magnitude_pair {h l : Char} {x y : Nat} (hx : digitValue? h = some x) (hy : digitValue? l = some y) :
    magnitude 16 [h, l] = 16 * x + y := by
  simp [magnitude, hx, hy, Nat.mul_comm]

theorem hexPair_hexByte (b : UInt8) : HexPair (hexByte b) := by
  have hb := b.toNat_lt
  refine ⟨rfl, ?_⟩
  rw [hexByte, List.forall_mem_cons, List.forall_mem_singleton]
  exact ⟨upperHex_hexDigit (by omega), upperHex_hexDigit (by omega)⟩

theorem magnitude_hexByte (b : UInt8) : magnitude 16 (hexByte b) = b.toNat := by
  have hb := b.toNat_lt
  rw [hexByte, magnitude_pair (digitValue?_hexDigit (by omega)) (digitValue?_hexDigit (by omega))]
  omega

theorem HexPair.exists_digits {w : List Char} (h : HexPair w) : ∃ high low x y, w = [high, low] ∧ UpperHex high ∧
    UpperHex low ∧ digitValue? high = some x ∧ digitValue? low = some y ∧ x < 16 ∧ y < 16 := by
  obtain ⟨high, low, rfl⟩ := List.length_eq_two.mp h.1
  have hhigh := h.2 high List.mem_cons_self
  have hlow := h.2 low (List.mem_cons_of_mem high List.mem_cons_self)
  obtain ⟨x, hx, hdx⟩ := hhigh.exists_digitValue?
  obtain ⟨y, hy, hdy⟩ := hlow.exists_digitValue?
  exact ⟨high, low, x, y, rfl, hhigh, hlow, hdx, hdy, hx, hy⟩

/-- A byte is written in one way. -/
theorem eq_hexByte_iff {w : List Char} {b : UInt8} : w = hexByte b ↔ HexPair w ∧ magnitude 16 w = b.toNat := by
  constructor
  · rintro rfl
    exact ⟨hexPair_hexByte b, magnitude_hexByte b⟩
  · rintro ⟨hw, hb⟩
    obtain ⟨high, low, x, y, rfl, hhigh, hlow, hdx, hdy, hx, hy⟩ := hw.exists_digits
    rw [magnitude_pair hdx hdy] at hb
    rw [hexByte, ← hb, hhigh.eq_hexDigit hdx hx, hlow.eq_hexDigit hdy hy]
    congr <;> omega

theorem byte?_eq_some_iff {w : List Char} {b : UInt8} : byte? w = some b ↔ w = hexByte b := by
  rw [eq_hexByte_iff]
  constructor
  · intro h
    unfold byte? at h
    split at h
    · rename_i high low
      obtain ⟨x, hx, h⟩ := Option.bind_eq_some_iff.mp h
      obtain ⟨y, hy, h⟩ := Option.bind_eq_some_iff.mp h
      cases h
      obtain ⟨hhigh, hdx⟩ := upperDigit?_eq_some_iff.mp hx
      obtain ⟨hlow, hdy⟩ := upperDigit?_eq_some_iff.mp hy
      refine ⟨⟨rfl, List.forall_mem_cons.mpr ⟨hhigh, List.forall_mem_singleton.mpr hlow⟩⟩, ?_⟩
      have hx16 := digitValue?_eq_some_iff.mp hdx
      have hy16 := digitValue?_eq_some_iff.mp hdy
      rw [magnitude_pair hdx hdy, UInt8.toNat_ofNat']
      omega
    · cases h
  · rintro ⟨hw, hb⟩
    obtain ⟨high, low, x, y, rfl, hhigh, hlow, hdx, hdy, hx, hy⟩ := hw.exists_digits
    rw [magnitude_pair hdx hdy] at hb
    have hdx' := upperDigit?_eq_some_iff.mpr ⟨hhigh, hdx⟩
    have hdy' := upperDigit?_eq_some_iff.mpr ⟨hlow, hdy⟩
    rw [← UInt8.ofNat_toNat (x := b), ← hb]
    simp [byte?, hdx', hdy']

theorem byte?_eq_none_iff {w : List Char} : byte? w = none ↔ ¬ HexPair w := by
  rw [Option.eq_none_iff_forall_ne_some]
  simp only [ne_eq, byte?_eq_some_iff]
  constructor
  · intro h hw
    obtain ⟨high, low, x, y, rfl, -, -, hdx, hdy, hx, hy⟩ := hw.exists_digits
    apply h (UInt8.ofNat (16 * x + y))
    refine eq_hexByte_iff.mpr ⟨hw, ?_⟩
    rw [magnitude_pair hdx hdy, UInt8.toNat_ofNat']
    omega
  · rintro h b rfl
    exact h (hexPair_hexByte b)

theorem readLine_eq_ok_iff {number : Nat} {w : List Char} {b : UInt8} : readLine number w = .ok b ↔ w = hexByte b := by
  rw [← byte?_eq_some_iff, readLine]
  cases byte? w <;> simp

theorem readLine_eq_error_iff {number : Nat} {w : List Char} {e : Error} :
    readLine number w = .error e ↔ ¬ HexPair w ∧ e = .malformedLine number w := by
  rw [← byte?_eq_none_iff, readLine]
  cases byte? w <;> simp [eq_comm]

/-- The lines behind a number with their own numbers, those without content left out. -/
def numberedContent (number : Nat) (ls : List (List Char)) : List (List Char × Nat) :=
  ((ls.zipIdx number).map fun l => (trim l.1, l.2)).filter fun l => !l.1.isEmpty

theorem toBytes_eq (text : List Char) :
    toBytes text = (numberedContent 1 (lines text)).mapM fun l => readLine l.2 l.1 := rfl

theorem numberedContent_cons_of_blank {number : Nat} {l : List Char} (h : trim l = []) (ls : List (List Char)) :
    numberedContent number (l :: ls) = numberedContent (number + 1) ls := by
  simp [numberedContent, h]

theorem numberedContent_cons_of_content {number : Nat} {l : List Char} (h : trim l ≠ []) (ls : List (List Char)) :
    numberedContent number (l :: ls) = (trim l, number) :: numberedContent (number + 1) ls := by
  simp [numberedContent, h]

theorem map_fst_numberedContent (number : Nat) (ls : List (List Char)) :
    (numberedContent number ls).map Prod.fst = (ls.map trim).filter (!·.isEmpty) := by
  induction ls generalizing number with
  | nil => rfl
  | cons l ls ih =>
    by_cases h : trim l = []
    · rw [numberedContent_cons_of_blank h, ih]
      simp [h]
    · rw [numberedContent_cons_of_content h, List.map_cons, ih]
      simp [h]

/-- A text is read as those bytes whose renderings are its content. -/
theorem toBytes_eq_ok_iff {text : List Char} {program : List UInt8} :
    toBytes text = .ok program ↔ content text = program.map hexByte := by
  have hmap : List.Forall₂ (· = ·) ((numberedContent 1 (lines text)).map Prod.fst) (program.map hexByte) ↔
      List.Forall₂ (fun l b => l.1 = hexByte b) (numberedContent 1 (lines text)) program := by
    rw [List.forall₂_map_left_iff, List.forall₂_map_right_iff]
  rw [content, ← map_fst_numberedContent 1, toBytes_eq, mapM_eq_ok_iff, ← List.forall₂_eq_eq_eq, hmap]
  simp only [readLine_eq_ok_iff]

/-- Lines are read up to the first one with content that is no byte. -/
theorem mapM_numberedContent_eq_error_iff {number : Nat} {ls : List (List Char)} {e : Error} :
    (numberedContent number ls).mapM (fun l => readLine l.2 l.1) = .error e ↔
      ∃ front l back, ls = front ++ l :: back ∧ (∀ k ∈ front, trim k ≠ [] → HexPair (trim k)) ∧ trim l ≠ [] ∧
        ¬ HexPair (trim l) ∧ e = .malformedLine (number + front.length) (trim l) := by
  induction ls generalizing number with
  | nil => simp [numberedContent, pure, Except.pure]
  | cons l ls ih =>
    rw [exists_split_cons]
    by_cases h : trim l = []
    · rw [numberedContent_cons_of_blank h, ih]
      simp [h, Nat.add_assoc, Nat.add_comm 1]
    · rw [numberedContent_cons_of_content h, List.mapM_cons, bind_eq_error_iff, readLine_eq_error_iff]
      by_cases hp : HexPair (trim l)
      · have hb : ∃ b, readLine number (trim l) = .ok b := by
          cases hr : readLine number (trim l) with
          | ok b => exact ⟨b, rfl⟩
          | error e' => exact absurd hp (readLine_eq_error_iff.mp hr).1
        obtain ⟨b, hb⟩ := hb
        simp [hb, hp, h, bind_eq_error_iff, pure, Except.pure, ih, Nat.add_assoc, Nat.add_comm 1]
      · have hb : ∀ b, readLine number (trim l) ≠ .ok b := by
          intro b hb
          exact hp (readLine_eq_ok_iff.mp hb ▸ hexPair_hexByte b)
        simp [hb, hp, h]

theorem toBytes_eq_error_iff {text : List Char} {e : Error} : toBytes text = .error e ↔
    ∃ front l back, lines text = front ++ l :: back ∧ (∀ k ∈ front, trim k ≠ [] → HexPair (trim k)) ∧ trim l ≠ [] ∧
      ¬ HexPair (trim l) ∧ e = .malformedLine (front.length + 1) (trim l) := by
  rw [toBytes_eq, mapM_numberedContent_eq_error_iff]
  simp only [Nat.add_comm 1]

theorem ofBytes_cons (b : UInt8) (program : List UInt8) :
    ofBytes (b :: program) = hexByte b ++ '\n' :: ofBytes program := by
  simp [ofBytes]

theorem UpperHex.not_isBlank {c : Char} (h : UpperHex c) : isBlank c = false := by
  rw [upperHex_iff] at h
  simp only [isBlank, Bool.or_eq_false_iff, Bool.and_eq_false_iff, decide_eq_false_iff_not, beq_eq_false_iff_ne]
  omega

theorem trim_hexByte (b : UInt8) : trim (hexByte b) = hexByte b := by
  have h := (hexPair_hexByte b).2
  exact trim_eq_self ⟨fun c hc => (h c (List.mem_of_head? hc)).not_isBlank,
    fun c hc => (h c (List.mem_of_getLast? hc)).not_isBlank⟩

theorem lines_ofBytes (program : List UInt8) : lines (ofBytes program) = program.map hexByte := by
  induction program with
  | nil => rfl
  | cons b program ih =>
    have h := (hexPair_hexByte b).2
    have hn : '\n' ∉ hexByte b := fun hm => absurd (h _ hm) (by simp [upperHex_iff])
    have hr : (hexByte b).getLast? ≠ some '\r' := fun hl =>
      absurd (h _ (List.mem_of_getLast? hl)) (by simp [upperHex_iff])
    rw [ofBytes_cons, lines_append_newline hn, dropReturn, if_neg hr, ih, List.map_cons]

theorem content_ofBytes (program : List UInt8) : content (ofBytes program) = program.map hexByte := by
  have htrim : trim ∘ hexByte = hexByte := funext trim_hexByte
  rw [content, lines_ofBytes, List.map_map, htrim, List.filter_eq_self]
  intro w hw
  obtain ⟨b, -, rfl⟩ := List.mem_map.mp hw
  rfl

/-- Every byte is written on a line of its own. -/
theorem ofBytes_eq_flatten (program : List UInt8) : ∃ rows : List (List Char), ofBytes program = rows.flatten ∧
    rows.length = program.length ∧ ∀ row ∈ rows, ∃ w, HexPair w ∧ row = w ++ ['\n'] := by
  refine ⟨program.map (hexByte · ++ ['\n']), List.flatMap_def, List.length_map _, ?_⟩
  intro row hrow
  obtain ⟨b, -, rfl⟩ := List.mem_map.mp hrow
  exact ⟨hexByte b, hexPair_hexByte b, rfl⟩

/-- A program is written as one line of two digits for each byte, and read back from it. A text is read as a program if
and only if its lines with content are, blanks aside, the bytes of the program written so. Otherwise the error names the
first line with content that is not two digits, by its number among all lines. -/
theorem toBytes_reads_what_ofBytes_writes :
    (∀ program, (∃ rows : List (List Char), ofBytes program = rows.flatten ∧ rows.length = program.length ∧
        ∀ row ∈ rows, ∃ w, HexPair w ∧ row = w ++ ['\n']) ∧
      lines (ofBytes program) = program.map hexByte ∧ toBytes (ofBytes program) = .ok program) ∧
    (∀ w b, w = hexByte b ↔ HexPair w ∧ magnitude 16 w = b.toNat) ∧
    (∀ text program, toBytes text = .ok program ↔ content text = program.map hexByte) ∧
    ∀ text e, toBytes text = .error e ↔
      ∃ front l back, lines text = front ++ l :: back ∧ (∀ k ∈ front, trim k ≠ [] → HexPair (trim k)) ∧ trim l ≠ [] ∧
        ¬ HexPair (trim l) ∧ e = .malformedLine (front.length + 1) (trim l) := by
  refine ⟨?_, fun _ _ => eq_hexByte_iff, fun _ _ => toBytes_eq_ok_iff, fun _ _ => toBytes_eq_error_iff⟩
  intro program
  exact ⟨ofBytes_eq_flatten program, lines_ofBytes program, toBytes_eq_ok_iff.mpr (content_ofBytes program)⟩

theorem blank_lines_are_skipped_and_counted :
    let program := [0x0A, 0xFF]
    let text := "\u00850A\r\n\n \tFF\u3000\n\r\n".toList
    let signed := "0A\n \n\t+F\n0a".toList
    lines (ofBytes program) = ["0A".toList, "FF".toList] ∧ toBytes (ofBytes program) = .ok program ∧
      toBytes text = .ok program ∧ toBytes signed = .error (.malformedLine 3 "+F".toList) := by
  intro program text signed
  obtain ⟨hwritten, -, hread, hfails⟩ := toBytes_reads_what_ofBytes_writes
  have hcontent : content text = program.map hexByte := by decide +kernel
  have hlines : lines signed = ["0A".toList, " ".toList] ++ "\t+F".toList :: ["0a".toList] := by decide +kernel
  obtain ⟨-, hrows, hback⟩ := hwritten program
  refine ⟨hrows, hback, (hread text program).mpr hcontent, (hfails signed _).mpr ⟨_, _, _, hlines, ?_, ?_⟩⟩
  · rw [List.forall_mem_cons, List.forall_mem_singleton]
    exact ⟨fun _ => hexPair_hexByte 0x0A, fun h => absurd rfl h⟩
  · exact ⟨by decide, byte?_eq_none_iff.mp rfl, rfl⟩

end ByteMachine.HexText
