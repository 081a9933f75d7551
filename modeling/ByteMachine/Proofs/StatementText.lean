import ByteMachine.Proofs.LinesAndWords
import ByteMachine.Proofs.Outcomes
import ByteMachine.Source.Statement

/-! # Statements as text: what can be printed is read back

A source is read line by line. The lines that say something give the statements, in order, each with the number of its
line. -/
namespace ByteMachine

open Text

/-- A token that stays in one piece wherever it stands on a line. -/
def IsWord (w : Token) : Prop := w ≠ [] ∧ ∀ c ∈ w, isSeparator c = false ∧ c ≠ ';'

/-- A label has an identifier for a name. An instruction has words for tokens, and no colon at its end. -/
def Statement.Printable : Statement → Prop
  | .label name => isIdentifier name = true
  | .instruction mnemonic operands =>
    (∀ w ∈ mnemonic :: operands, IsWord w) ∧ ∀ w ∈ (mnemonic :: operands).getLast?, w.getLast? ≠ some ':'

theorem not_isBlank_of_not_isSeparator {c : Char} (h : isSeparator c = false) : isBlank c = false := by
  simp only [isSeparator, Bool.or_eq_false_iff] at h
  exact h.2

theorem not_isSeparator_of_visible {c : Char} (h : 0x21 ≤ c.toNat) (h' : c.toNat ≤ 0x7E) (hc : c ≠ ',') :
    isSeparator c = false := by
  have hn : (c == ',') = false := by simpa using hc
  simp only [isSeparator, isBlank, hn, Bool.false_or]
  grind

theorem isIdentifierStart_iff {c : Char} : isIdentifierStart c = true ↔
    (65 ≤ c.toNat ∧ c.toNat ≤ 90) ∨ (97 ≤ c.toNat ∧ c.toNat ≤ 122) ∨ c.toNat = 95 := by
  have hu : c = '_' ↔ c.toNat = 95 := Char.toNat_inj.symm
  simp [isIdentifierStart, Char.isAlpha, Char.isUpper, Char.isLower, UInt32.le_iff_toNat_le, hu, or_assoc]

theorem isIdentifierRest_iff {c : Char} : isIdentifierRest c = true ↔
    (65 ≤ c.toNat ∧ c.toNat ≤ 90) ∨ (97 ≤ c.toNat ∧ c.toNat ≤ 122) ∨ (48 ≤ c.toNat ∧ c.toNat ≤ 57) ∨
      c.toNat = 95 := by
  have hu : c = '_' ↔ c.toNat = 95 := Char.toNat_inj.symm
  simp [isIdentifierRest, Char.isAlphanum, Char.isAlpha, Char.isUpper, Char.isLower, Char.isDigit,
    UInt32.le_iff_toNat_le, hu, or_assoc]

theorem isIdentifierRest_of_mem {name : Token} (h : isIdentifier name = true) :
    ∀ c ∈ name, isIdentifierRest c = true := by
  cases name with
  | nil => simp [isIdentifier] at h
  | cons d ds =>
    simp only [isIdentifier, Bool.and_eq_true, List.all_eq_true] at h
    intro c hc
    rcases List.mem_cons.mp hc with rfl | hc
    · have hs := isIdentifierStart_iff.mp h.1
      exact isIdentifierRest_iff.mpr (by omega)
    · exact h.2 c hc

theorem ne_nil_of_isIdentifier {name : Token} (h : isIdentifier name = true) : name ≠ [] := by
  rintro rfl
  simp [isIdentifier] at h

theorem IsWord.of_isIdentifier {name : Token} (h : isIdentifier name = true) : IsWord name := by
  refine ⟨ne_nil_of_isIdentifier h, ?_⟩
  intro c hc
  have hr := isIdentifierRest_iff.mp (isIdentifierRest_of_mem h c hc)
  have hcomma : c ≠ ',' := fun he => by
    subst he
    simp at hr
  refine ⟨not_isSeparator_of_visible (by omega) (by omega) hcomma, ?_⟩
  rintro rfl
  simp at hr

theorem getLast?_ne_of_isIdentifier {name : Token} (h : isIdentifier name = true) : name.getLast? ≠ some ':' := by
  intro hl
  have hr := isIdentifierRest_of_mem h ':' (List.mem_of_getLast? hl)
  simp [isIdentifierRest] at hr

theorem IsWord.trimmed {w : Token} (h : IsWord w) : Trimmed w :=
  ⟨fun c hc => not_isBlank_of_not_isSeparator (h.2 c (List.mem_of_head? hc)).1,
    fun c hc => not_isBlank_of_not_isSeparator (h.2 c (List.mem_of_getLast? hc)).1⟩

theorem isLine_of_separators {l : List Char} (hne : l ≠ [])
    (h : ∀ c ∈ l, isSeparator c = true → c = ' ' ∨ c = ',') : l ≠ [] ∧ '\n' ∉ l ∧ l.getLast? ≠ some '\r' := by
  refine ⟨hne, fun hn => ?_, fun hr => ?_⟩
  · exact absurd (h '\n' hn (by decide)) (by decide)
  · exact absurd (h '\r' (List.mem_of_getLast? hr) (by decide)) (by decide)

namespace Statement

theorem printable_instruction {mnemonic : Token} {operands : List Token}
    (h : ∀ w ∈ mnemonic :: operands, IsWord w ∧ w.getLast? ≠ some ':') : (instruction mnemonic operands).Printable :=
  ⟨fun w hw => (h w hw).1, fun w hw => (h w (List.mem_of_getLast? hw)).2⟩

theorem text_instruction_cons (mnemonic operand : Token) (operands : List Token) :
    (instruction mnemonic (operand :: operands)).text =
      mnemonic ++ ' ' :: (", ".toList).intercalate (operand :: operands) := rfl

theorem mem_text_instruction {c : Char} {mnemonic : Token} {operands : List Token}
    (h : c ∈ (instruction mnemonic operands).text) : c = ' ' ∨ c = ',' ∨ ∃ w ∈ mnemonic :: operands, c ∈ w := by
  cases operands with
  | nil => exact .inr (.inr ⟨mnemonic, List.mem_cons_self, h⟩)
  | cons operand operands =>
    rw [text_instruction_cons] at h
    rcases List.mem_append.mp h with h | h
    · exact .inr (.inr ⟨mnemonic, List.mem_cons_self, h⟩)
    · rcases List.mem_cons.mp h with h | h
      · exact .inl h
      · rcases mem_intercalate h with h | ⟨w, hw, hc⟩
        · have hc : c = ',' ∨ c = ' ' := by simpa using h
          exact hc.elim (.inr ∘ .inl) .inl
        · exact .inr (.inr ⟨w, List.mem_cons_of_mem mnemonic hw, hc⟩)

theorem tokens_text_instruction {mnemonic : Token} {operands : List Token}
    (h : ∀ w ∈ mnemonic :: operands, IsWord w) :
    tokens (instruction mnemonic operands).text = mnemonic :: operands := by
  have hwords : ∀ w ∈ mnemonic :: operands, w ≠ [] ∧ ∀ c ∈ w, isSeparator c = false :=
    fun w hw => ⟨(h w hw).1, fun c hc => ((h w hw).2 c hc).1⟩
  obtain ⟨hm, hops⟩ := List.forall_mem_cons.mp hwords
  have hone : words isSeparator mnemonic = [mnemonic] := words_of_forall_not hm.1 hm.2
  cases operands with
  | nil => exact hone
  | cons operand operands =>
    have hgap : ∀ c ∈ ", ".toList, isSeparator c = true := by simp [isSeparator, isBlank]
    rw [tokens, text_instruction_cons, words_append_cons (by decide), hone, words_intercalate (by decide) hgap hops]
    rfl

theorem getLast?_text_instruction {mnemonic : Token} {operands : List Token} (h : ∀ w ∈ mnemonic :: operands, w ≠ []) :
    (instruction mnemonic operands).text.getLast? = (mnemonic :: operands).getLast?.bind List.getLast? := by
  cases operands with
  | nil => rfl
  | cons operand operands =>
    have hops := (List.forall_mem_cons.mp h).2
    obtain ⟨c, hc⟩ := exists_last_of_forall_ne_nil (by simp) hops
    rw [text_instruction_cons, List.getLast?_append, List.getLast?_cons, getLast?_intercalate _ hops,
      List.getLast?_cons_cons, hc]
    rfl

theorem text_ne_nil {s : Statement} (h : s.Printable) : s.text ≠ [] := by
  cases s with
  | label name => simp [text]
  | instruction mnemonic operands =>
    have hm : mnemonic ≠ [] := (h.1 mnemonic List.mem_cons_self).1
    cases operands with
    | nil => exact hm
    | cons operand operands => simp [text_instruction_cons]

theorem trimmed_text {s : Statement} (h : s.Printable) : Trimmed s.text := by
  cases s with
  | label name =>
    have hw := IsWord.of_isIdentifier h
    refine ⟨?_, by simp [text, isBlank]⟩
    intro c hc
    apply hw.trimmed.1
    simpa [text, List.head?_append, List.head?_eq_some_head hw.1] using hc
  | instruction mnemonic operands =>
    have hm := h.1 mnemonic List.mem_cons_self
    constructor
    · intro c hc
      apply hm.trimmed.1
      cases operands with
      | nil => exact hc
      | cons operand operands =>
        simpa [text_instruction_cons, List.head?_append, List.head?_eq_some_head hm.1] using hc
    · intro c hc
      rw [getLast?_text_instruction fun w hw => (h.1 w hw).1] at hc
      obtain ⟨w, hw, hc⟩ := Option.bind_eq_some_iff.mp hc
      exact (h.1 w (List.mem_of_getLast? hw)).trimmed.2 c hc

/-- A printed statement holds no comment, and no separator but blanks and commas. -/
theorem mem_text {s : Statement} (h : s.Printable) {c : Char} (hc : c ∈ s.text) :
    c ≠ ';' ∧ (isSeparator c = true → c = ' ' ∨ c = ',') := by
  cases s with
  | label name =>
    rcases List.mem_append.mp hc with hc | hc
    · obtain ⟨hs, hne⟩ := (IsWord.of_isIdentifier h).2 c hc
      exact ⟨hne, by simp [hs]⟩
    · obtain rfl : c = ':' := by simpa using hc
      exact ⟨by decide, by decide⟩
  | instruction mnemonic operands =>
    rcases mem_text_instruction hc with rfl | rfl | ⟨w, hw, hc⟩
    · exact ⟨by decide, by simp⟩
    · exact ⟨by decide, by simp⟩
    · obtain ⟨hs, hne⟩ := (h.1 w hw).2 c hc
      exact ⟨hne, by simp [hs]⟩

theorem ofLine?_text {s : Statement} (h : s.Printable) : ofLine? s.text = .ok (some s) := by
  cases s with
  | label name =>
    have hid : isIdentifier name = true := h
    have ht : trim name = name := trim_eq_self (IsWord.of_isIdentifier hid).trimmed
    simp [ofLine?, text, ht, hid]
  | instruction mnemonic operands =>
    have hl : (instruction mnemonic operands).text.getLast? ≠ some ':' := by
      rw [getLast?_text_instruction fun w hw => (h.1 w hw).1]
      intro hc
      obtain ⟨w, hw, hc⟩ := Option.bind_eq_some_iff.mp hc
      exact h.2 w hw hc
    rw [ofLine?, if_neg hl, tokens_text_instruction h.1]

theorem ofLine?_eq_label_iff {line : List Char} {name : Token} : ofLine? line = .ok (some (.label name)) ↔
    line.getLast? = some ':' ∧ trim line.dropLast = name ∧ isIdentifier name = true := by
  unfold ofLine?
  by_cases hc : line.getLast? = some ':'
  · by_cases hi : isIdentifier (trim line.dropLast) = true
    · simp only [hc, hi, ↓reduceIte, Except.ok.injEq, Option.some.injEq, label.injEq, true_and]
      exact ⟨fun h => ⟨h, h ▸ hi⟩, And.left⟩
    · simp only [hc, hi, ↓reduceIte, true_and]
      exact ⟨nofun, fun ⟨h, h'⟩ => absurd (h ▸ h') hi⟩
  · cases ht : tokens line <;> simp [hc]

theorem ofLine?_eq_instruction_iff {line : List Char} {mnemonic : Token} {operands : List Token} :
    ofLine? line = .ok (some (.instruction mnemonic operands)) ↔
      line.getLast? ≠ some ':' ∧ tokens line = mnemonic :: operands := by
  unfold ofLine?
  by_cases hc : line.getLast? = some ':'
  · simp only [hc, ↓reduceIte, ne_eq, not_true_eq_false, false_and, iff_false]
    split <;> simp
  · cases ht : tokens line <;> simp [hc]

theorem ofLine?_eq_none_iff {line : List Char} :
    ofLine? line = .ok none ↔ line.getLast? ≠ some ':' ∧ tokens line = [] := by
  unfold ofLine?
  by_cases hc : line.getLast? = some ':'
  · simp only [hc, ↓reduceIte, ne_eq, not_true_eq_false, false_and, iff_false]
    split <;> simp
  · cases ht : tokens line <;> simp [hc]

theorem stripComment_text {s : Statement} (h : s.Printable) : stripComment s.text = s.text := by
  have hall : ∀ c ∈ s.text, (c != ';') = true := fun c hc => by simpa using (mem_text h hc).1
  have ht : s.text.takeWhile (· != ';') = s.text := by
    exact List.takeWhile_eq_self_iff.mpr hall
  rw [stripComment, ht, trim_eq_self (trimmed_text h)]

theorem isLine_text {s : Statement} (h : s.Printable) :
    s.text ≠ [] ∧ '\n' ∉ s.text ∧ s.text.getLast? ≠ some '\r' :=
  isLine_of_separators (text_ne_nil h) fun _ hc => (mem_text h hc).2

end Statement

theorem readLine_text {s : Statement} (h : s.Printable) (number : Nat) :
    readLine number s.text = .ok (some ⟨⟨number, 1⟩, s⟩) := by
  have hi : indent s.text = 0 := by
    obtain ⟨c, cs, hc⟩ := List.exists_cons_of_ne_nil (s.text_ne_nil h)
    have hb : isBlank c = false := (Statement.trimmed_text h).1 c (by simp [hc])
    simp [indent, hc, hb]
  simp [readLine, Statement.stripComment_text h, Statement.ofLine?_text h, hi]

theorem statements_eq_ok_iff {source : List Char} {ss : List (Located Statement)} : statements source = .ok ss ↔
    ∃ found, List.Forall₂ (fun (l : List Char × Nat) s => readLine l.2 l.1 = .ok s) (numberedLines source) found ∧
      found.filterMap id = ss := by
  rw [statements, map_eq_ok_iff]
  simp only [mapM_eq_ok_iff]

/-- The statement on a line that can be read. -/
def statementOn? (line : List Char) : Option Statement :=
  match Statement.ofLine? (stripComment line) with
  | .ok s => s
  | .error _ => none

theorem readLine_eq_ok_iff {number : Nat} {line : List Char} {s : Option (Located Statement)} :
    readLine number line = .ok s ↔ (∃ s, Statement.ofLine? (stripComment line) = .ok s) ∧
      s = (statementOn? line).map (⟨⟨number, indent line + 1⟩, ·⟩) := by
  unfold readLine statementOn?
  cases Statement.ofLine? (stripComment line) with
  | error fault => simp
  | ok t => simp [eq_comm]

/-- A source can be read when each of its lines can, and then gives the statements that are on them. -/
theorem statements_eq_ok_iff_lines {source : List Char} {ss : List (Located Statement)} : statements source = .ok ss ↔
    (∀ line ∈ lines source, ∃ s, Statement.ofLine? (stripComment line) = .ok s) ∧
      (numberedLines source).filterMap (fun l => (statementOn? l.1).map (⟨⟨l.2, indent l.1 + 1⟩, ·⟩)) = ss := by
  have hmem : (∀ l ∈ numberedLines source, ∃ s, Statement.ofLine? (stripComment l.1) = .ok s) ↔
      ∀ line ∈ lines source, ∃ s, Statement.ofLine? (stripComment line) = .ok s := by
    rw [← List.forall_mem_map (f := Prod.fst) (P := fun line => ∃ s, Statement.ofLine? (stripComment line) = .ok s)]
    simp [numberedLines]
  have hmap (found : List (Option (Located Statement))) :
      List.Forall₂ (fun (l : List Char × Nat) s => s = (statementOn? l.1).map (⟨⟨l.2, indent l.1 + 1⟩, ·⟩))
        (numberedLines source) found ↔
      (numberedLines source).map (fun l => (statementOn? l.1).map (⟨⟨l.2, indent l.1 + 1⟩, ·⟩)) = found := by
    rw [← List.forall₂_eq_eq_eq, List.forall₂_map_left_iff]
    simp only [eq_comm]
  simp only [statements_eq_ok_iff, readLine_eq_ok_iff, List.forall₂_and_left, hmem, hmap, and_assoc, exists_and_left,
    exists_eq_left', List.filterMap_map]
  rfl

theorem exists_statements_iff {source : List Char} : (∃ ss, statements source = .ok ss) ↔
    ∀ line ∈ lines source, ∃ s, Statement.ofLine? (stripComment line) = .ok s := by
  simp [statements_eq_ok_iff_lines]

/-- Located statements without their places. -/
abbrev values (ss : List (Located Statement)) : List Statement := ss.map (·.value)

theorem values_filterMap_zipIdx (ls : List (List Char)) (k : Nat) :
    values ((ls.zipIdx k).filterMap fun l => (statementOn? l.1).map (⟨⟨l.2, indent l.1 + 1⟩, ·⟩)) =
      ls.filterMap statementOn? := by
  have hl : (ls.zipIdx k).map Prod.fst = ls := List.zipIdx_map_fst k ls
  rw [values, List.map_filterMap]
  nth_rewrite 2 [← hl]
  rw [List.filterMap_map]
  congr
  funext l
  simp [Function.comp_def]

theorem values_of_statements {source : List Char} {ss : List (Located Statement)} (h : statements source = .ok ss) :
    values ss = (lines source).filterMap statementOn? := by
  obtain ⟨-, rfl⟩ := statements_eq_ok_iff_lines.mp h
  exact values_filterMap_zipIdx (lines source) 1

theorem statementOn?_eq_some_iff {line : List Char} {s : Statement} :
    statementOn? line = some s ↔ Statement.ofLine? (stripComment line) = .ok (some s) := by
  unfold statementOn?
  cases Statement.ofLine? (stripComment line) <;> simp

theorem mem_values_iff {source : List Char} {ss : List (Located Statement)} (h : statements source = .ok ss)
    {s : Statement} : s ∈ values ss ↔ ∃ line ∈ lines source, Statement.ofLine? (stripComment line) = .ok (some s) := by
  simp only [values_of_statements h, List.mem_filterMap, statementOn?_eq_some_iff]

theorem isIdentifier_of_mem {source : List Char} {ss : List (Located Statement)} (h : statements source = .ok ss)
    {name : Token} (hs : .label name ∈ values ss) : isIdentifier name = true := by
  obtain ⟨line, -, hl⟩ := (mem_values_iff h).mp hs
  exact (Statement.ofLine?_eq_label_iff.mp hl).2.2

/-- Statements on lines of their own, without a blank in front. -/
def numbered (ss : List Statement) : List (Located Statement) := (ss.zipIdx 1).map fun s => ⟨⟨s.2, 1⟩, s.1⟩

@[simp] theorem values_numbered (ss : List Statement) : values (numbered ss) = ss := by
  simp [numbered, Function.comp_def]

/-- Statements are read from lines of their own, however these are written. -/
theorem statements_unlines {ss : List Statement} {render : Statement → List Char}
    (hlines : ∀ s ∈ ss, render s ≠ [] ∧ '\n' ∉ render s ∧ (render s).getLast? ≠ some '\r')
    (hread : ∀ s ∈ ss, ∀ number, readLine number (render s) = .ok (some ⟨⟨number, 1⟩, s⟩)) :
    statements (unlines (ss.map render)) = .ok (numbered ss) := by
  have hls : lines (unlines (ss.map render)) = ss.map render := lines_unlines (List.forall_mem_map.mpr hlines)
  rw [statements_eq_ok_iff]
  refine ⟨(ss.zipIdx 1).map fun s => some ⟨⟨s.2, 1⟩, s.1⟩, ?_, by simp [numbered, List.filterMap_map]⟩
  rw [numberedLines, hls, List.zipIdx_map, List.forall₂_map_left_iff, List.forall₂_map_right_iff, List.forall₂_same]
  intro s hs
  exact hread s.1 (List.fst_mem_of_mem_zipIdx hs) s.2

theorem statements_sourceOf {ss : List Statement} (h : ∀ s ∈ ss, s.Printable) :
    statements (sourceOf ss) = .ok (numbered ss) :=
  statements_unlines (fun s hs => Statement.isLine_text (h s hs)) fun s hs => readLine_text (h s hs)

end ByteMachine
