import ByteMachine.Proofs.Presentation
import Mathlib

/-! # Printed statements: what is printed is read back, and what is read could have been printed

One thing can be read that is not printed: an instruction with a colon at its end. A colon at the end of a line makes it
a label, but with a comma behind it the colon is part of the last word. -/
namespace ByteMachine

open Text

namespace Grammar

theorem Splits.isWord {cs : List Char} {ws : List Token} (h : Splits cs ws) (hplain : ';' ∉ cs) :
    ∀ w ∈ ws, IsWord w := by
  induction h with
  | nil => simp
  | gap separator more ih => exact ih fun hm => hplain (List.mem_cons_of_mem _ hm)
  | @word w cs ws nonempty whole ends more ih =>
    rw [List.mem_append, not_or] at hplain
    refine List.forall_mem_cons.mpr ⟨⟨nonempty, ?_⟩, ih hplain.2⟩
    intro c hc
    refine ⟨by simpa [separator_iff] using whole c hc, ?_⟩
    rintro rfl
    exact hplain.1 hc

/-- Behind the last word stand separators only. -/
theorem Splits.exists_last {cs : List Char} {ws : List Token} (h : Splits cs ws) {w : Token} (hw : w ∈ ws.getLast?) :
    ∃ front gap, cs = front ++ w ++ gap ∧ ∀ c ∈ gap, Separator c := by
  induction h with
  | nil => simp at hw
  | @gap c cs ws separator more ih =>
    obtain ⟨front, gap, rfl, hgap⟩ := ih hw
    exact ⟨c :: front, gap, rfl, hgap⟩
  | @word v cs ws nonempty whole ends more ih =>
    cases ws with
    | nil =>
      obtain rfl : v = w := by simpa using hw
      exact ⟨[], cs, rfl, more.separators rfl⟩
    | cons u us =>
      rw [List.getLast?_cons_cons] at hw
      obtain ⟨front, gap, rfl, hgap⟩ := ih hw
      exact ⟨v ++ front, gap, by simp, hgap⟩

end Grammar

namespace Statement

/-- A label has an identifier for a name, and an instruction has words for tokens. -/
def Worded : Statement → Prop
  | .label name => isIdentifier name = true
  | .instruction mnemonic operands => ∀ w ∈ mnemonic :: operands, IsWord w

/-- An instruction with a colon at the end of its last token, behind which a comma stands among the separators in front
of the comment. -/
def ColonBeforeComma (line : List Char) (s : Statement) : Prop :=
  ∃ mnemonic operands w front gap, s = .instruction mnemonic operands ∧ (mnemonic :: operands).getLast? = some w ∧
    w.getLast? = some ':' ∧ codePart line = front ++ w ++ gap ∧ (∀ c ∈ gap, isSeparator c = true) ∧ ',' ∈ gap

/-- The statement as a line of source. A blank follows each mnemonic, also one without operands, and the ending follows
each instruction. -/
def spaced (ending : List Char) : Statement → List Char
  | .label name => name ++ [':']
  | .instruction mnemonic operands => mnemonic ++ ' ' :: (", ".toList).intercalate operands ++ ending

theorem Printable.worded {s : Statement} (h : s.Printable) : s.Worded := by
  cases s with
  | label name => exact h
  | instruction mnemonic operands => exact h.1

theorem spaced_nil (s : Statement) : s.spaced [] = s.text ∨ s.spaced [] = s.text ++ [' '] := by
  cases s with
  | label name => exact .inl rfl
  | instruction mnemonic operands =>
    cases operands with
    | nil => exact .inr (by simp [spaced, text, List.intercalate])
    | cons operand operands => exact .inl (by simp [spaced, text])

theorem mem_spaced {s : Statement} (h : s.Worded) {ending : List Char} (hending : ∀ c ∈ ending, c = ',') {c : Char}
    (hc : c ∈ s.spaced ending) : c ≠ ';' ∧ (isSeparator c = true → c = ' ' ∨ c = ',') := by
  have hcomma : ',' ≠ ';' ∧ (isSeparator ',' = true → ',' = ' ' ∨ ',' = ',') := by decide
  have hspace : ' ' ≠ ';' ∧ (isSeparator ' ' = true → ' ' = ' ' ∨ ' ' = ',') := by decide
  cases s with
  | label name => exact mem_text (s := .label name) h hc
  | instruction mnemonic operands =>
    have hword {w : Token} (hw : w ∈ mnemonic :: operands) (hcw : c ∈ w) :
        c ≠ ';' ∧ (isSeparator c = true → c = ' ' ∨ c = ',') := by
      obtain ⟨hsep, hne⟩ := (h w hw).2 c hcw
      exact ⟨hne, by simp [hsep]⟩
    simp only [spaced, List.mem_append, List.mem_cons] at hc
    rcases hc with (hm | rfl | ho) | he
    · exact hword List.mem_cons_self hm
    · exact hspace
    · rcases mem_intercalate ho with hgap | ⟨w, hw, hcw⟩
      · rcases (by simpa using hgap : c = ',' ∨ c = ' ') with rfl | rfl
        · exact hcomma
        · exact hspace
      · exact hword (List.mem_cons_of_mem mnemonic hw) hcw
    · rw [hending c he]
      exact hcomma

theorem isLine_spaced {s : Statement} (h : s.Worded) {ending : List Char} (hending : ∀ c ∈ ending, c = ',') :
    s.spaced ending ≠ [] ∧ '\n' ∉ s.spaced ending ∧ (s.spaced ending).getLast? ≠ some '\r' :=
  isLine_of_separators (by cases s <;> simp [spaced]) fun _ hc => (mem_spaced h hending hc).2

theorem tokens_spaced {mnemonic : Token} {operands : List Token} (h : ∀ w ∈ mnemonic :: operands, IsWord w)
    {ending : List Char} (hending : ∀ c ∈ ending, c = ',') :
    tokens ((instruction mnemonic operands).spaced ending) = mnemonic :: operands := by
  have hsplit : ∀ w ∈ mnemonic :: operands, w ≠ [] ∧ ∀ c ∈ w, isSeparator c = false :=
    fun w hw => ⟨(h w hw).1, fun c hc => ((h w hw).2 c hc).1⟩
  obtain ⟨hm, ho⟩ := List.forall_mem_cons.mp hsplit
  have hgap : ∀ c ∈ ending, isSeparator c = true := by
    intro c hc
    rw [hending c hc]
    decide
  rw [tokens, spaced, words_append_gap hgap, words_append_cons (by decide), words_of_forall_not hm.1 hm.2,
    words_intercalate (by simp) (by simp [isSeparator, isBlank]) ho]
  rfl

end Statement

theorem semicolon_notMem_codePart (l : List Char) : ';' ∉ codePart l := (Grammar.takeWhile_eq_iff.mp rfl).1

/-- A colon at the end of the last word would be the end of the line, were it not for a comma. -/
theorem comma_mem_of_colon {front w gap : List Char} (hgap : ∀ c ∈ gap, isSeparator c = true)
    (hcolon : w.getLast? = some ':') (h : lastVisible? (front ++ w ++ gap) ≠ some ':') : ',' ∈ gap := by
  by_contra hcomma
  have hblank : ∀ c ∈ gap, isBlank c = true := by
    intro c hc
    have hne : (c == ',') = false := by
      rw [beq_eq_false_iff_ne]
      rintro rfl
      exact hcomma hc
    simpa [isSeparator, hne] using hgap c hc
  have hlast : (front ++ w).getLast? = some ':' := by rw [List.getLast?_append, hcolon, Option.some_or]
  have hvisible : lastVisible? (front ++ w) = (front ++ w).getLast? := by
    apply lastVisible?_of_getLast
    rw [hlast]
    rintro c ⟨⟩
    decide
  apply h
  rw [lastVisible?_append, lastVisible?_of_blank hblank, Option.none_or, hvisible, hlast]

theorem worded_of_statementOn? {line : List Char} {s : Statement} (h : statementOn? line = some s) :
    s.Worded ∧ (s.Printable ∨ s.ColonBeforeComma line) := by
  cases s with
  | label name =>
    have hname := (Statement.ofLine?_eq_label_iff.mp (statementOn?_eq_some_iff.mp h)).2.2
    exact ⟨hname, .inl hname⟩
  | instruction mnemonic operands =>
    obtain ⟨hvisible, htokens⟩ := statementOn?_eq_instruction_iff.mp h
    have hsplits := Grammar.splits_iff.mpr htokens
    have hwords := hsplits.isWord (semicolon_notMem_codePart line)
    refine ⟨hwords, ?_⟩
    by_cases hcolon : ∃ w ∈ (mnemonic :: operands).getLast?, w.getLast? = some ':'
    · obtain ⟨w, hw, hcolon⟩ := hcolon
      obtain ⟨front, gap, hcode, hgap⟩ := hsplits.exists_last hw
      have hgap' : ∀ c ∈ gap, isSeparator c = true := fun c hc => Grammar.separator_iff.mp (hgap c hc)
      rw [hcode] at hvisible
      exact .inr ⟨mnemonic, operands, w, front, gap, rfl, hw, hcolon, hcode, hgap',
        comma_mem_of_colon hgap' hcolon hvisible⟩
    · exact .inl ⟨hwords, fun w hw hc => hcolon ⟨w, hw, hc⟩⟩

theorem exists_line_of_mem {source : List Char} {ss : List (Located Statement)} (h : statements source = .ok ss)
    {s : Located Statement} (hs : s ∈ ss) : ∃ line, (line, s.position.line) ∈ numberedLines source ∧
      s.position.column = indent line + 1 ∧ statementOn? line = some s.value := by
  obtain ⟨-, rfl⟩ := statements_eq_ok_iff_lines.mp h
  obtain ⟨⟨line, number⟩, hline, hread⟩ := List.mem_filterMap.mp hs
  obtain ⟨value, hvalue, rfl⟩ := Option.map_eq_some_iff.mp hread
  exact ⟨line, hline, rfl, hvalue⟩

theorem readLine_spaced {s : Statement} (h : s.Printable) (number : Nat) :
    readLine number (s.spaced []) = .ok (some ⟨⟨number, 1⟩, s⟩) := by
  rw [← readLine_text h]
  obtain hs | hs := s.spaced_nil
  · rw [hs]
  · have hstrip : stripComment (s.text ++ [' ']) = stripComment s.text :=
      stripComment_append_right (by simp [isBlank]) s.text
    have hne : stripComment s.text ≠ [] := by
      rw [Statement.stripComment_text h]
      exact Statement.text_ne_nil h
    rw [hs, readLine, readLine, hstrip, indent_append hne]

/-- Behind a comma no colon ends the line, so the colon of a last word does no harm. -/
theorem readLine_spaced_comma {s : Statement} (h : s.Worded) (number : Nat) :
    readLine number (s.spaced [',']) = .ok (some ⟨⟨number, 1⟩, s⟩) := by
  cases s with
  | label name => exact readLine_text (s := .label name) h number
  | instruction mnemonic operands =>
    let line := (Statement.instruction mnemonic operands).spaced [',']
    have hcode : codePart line = line := by
      refine Grammar.takeWhile_eq_iff.mpr ⟨?_, [], (List.append_nil line).symm, .inl rfl⟩
      exact fun hm => (Statement.mem_spaced h (by simp) hm).1 rfl
    have hvisible : lastVisible? line = some ',' := by
      change lastVisible? (_ ++ [',']) = some ','
      rw [lastVisible?_append]
      rfl
    have hstatement : statementOn? line = some (.instruction mnemonic operands) := by
      rw [statementOn?_eq_instruction_iff, hcode, hvisible]
      exact ⟨by decide, Statement.tokens_spaced h (by simp)⟩
    have hindent : indent line = 0 := by
      have hm := h mnemonic List.mem_cons_self
      obtain ⟨c, cs, rfl⟩ := List.exists_cons_of_ne_nil hm.1
      have hb := not_isBlank_of_not_isSeparator (hm.2 c List.mem_cons_self).1
      simp [indent, line, Statement.spaced, hb]
    refine readLine_eq_ok_iff.mpr ⟨⟨_, statementOn?_eq_some_iff.mp hstatement⟩, ?_⟩
    rw [hstatement, hindent]
    rfl

/-- Statements that can be printed are read back from their text, each at the start of a line of its own, with a blank
behind a bare mnemonic or without it. What is read from any source can be printed, but for instructions with a colon at
their end and a comma behind it. With a comma behind each instruction, all such statements are read back too. -/
theorem statements_read_what_is_printed :
    (∀ ss : List Statement, (∀ s ∈ ss, s.Printable) →
      statements (unlines (ss.map (Statement.spaced []))) = .ok (numbered ss) ∧
      statements (sourceOf ss) = .ok (numbered ss)) ∧
    (∀ source located, statements source = .ok located → ∀ s ∈ located, s.value.Worded ∧
      ∃ line, (line, s.position.line) ∈ numberedLines source ∧ statementOn? line = some s.value ∧
        (s.value.Printable ∨ s.value.ColonBeforeComma line)) ∧
    (∀ ss : List Statement, (∀ s ∈ ss, s.Worded) →
      statements (unlines (ss.map (Statement.spaced [',']))) = .ok (numbered ss)) := by
  refine ⟨?_, ?_, ?_⟩
  · intro ss h
    refine ⟨statements_unlines ?_ fun s hs => readLine_spaced (h s hs), statements_sourceOf h⟩
    exact fun s hs => Statement.isLine_spaced (h s hs).worded (by simp)
  · intro source located h s hs
    obtain ⟨line, hline, -, hstatement⟩ := exists_line_of_mem h hs
    obtain ⟨hworded, hprintable⟩ := worded_of_statementOn? hstatement
    exact ⟨hworded, line, hline, hstatement, hprintable⟩
  · intro ss h
    exact statements_unlines (fun s hs => Statement.isLine_spaced (h s hs) (by simp)) fun s hs =>
      readLine_spaced_comma (h s hs)

/-- A label, a bare mnemonic and a colon inside a word, and then a colon at the end that is read as part of a word. -/
theorem colons_of_labels_and_of_words :
    let label : Statement := .label "go".toList
    let nop : Statement := .instruction "NOP".toList []
    let load : Statement := .instruction "LDI".toList ["r1".toList, "a:b".toList]
    let jump : Statement := .instruction "JMP".toList ["go:".toList]
    let line := "  JMP go: , ; there".toList
    statements "go:\nNOP \nLDI r1, a:b".toList = .ok (numbered [label, nop, load]) ∧
    statements line = .ok [⟨⟨1, 3⟩, jump⟩] ∧ jump.ColonBeforeComma line ∧
    statements "JMP go:,\ngo:".toList = .ok (numbered [jump, label]) := by
  intro label nop load jump line
  obtain ⟨hprinted, hread, hcommas⟩ := statements_read_what_is_printed
  have hlabel : label.Printable := (by decide +kernel : isIdentifier "go".toList = true)
  have hnop : nop.Printable := by
    simp [nop, Statement.Printable, IsWord, isSeparator, isBlank]
  have hload : load.Printable := by
    simp [load, Statement.Printable, IsWord, isSeparator, isBlank]
  have hjump : jump.Worded := by
    simp [jump, Statement.Worded, IsWord, isSeparator, isBlank]
  have hline : statements line = .ok [⟨⟨1, 3⟩, jump⟩] := by decide +kernel
  obtain ⟨-, line', hmem, -, hcolon⟩ := hread line _ hline _ List.mem_cons_self
  have hsame : line' = line := by
    have hlines : numberedLines line = [(line, 1)] := by decide +kernel
    rw [hlines] at hmem
    exact congrArg Prod.fst (List.mem_singleton.mp hmem)
  have hnot : ¬ jump.Printable := fun h => h.2 "go:".toList rfl rfl
  have hall : ∀ s ∈ [label, nop, load], s.Printable := by simp [hlabel, hnop, hload]
  have hall' : ∀ s ∈ [jump, label], s.Worded := by simp [hjump, hlabel.worded]
  exact ⟨(hprinted _ hall).1, hline, hsame ▸ hcolon.resolve_left hnot, hcommas _ hall'⟩

end ByteMachine
