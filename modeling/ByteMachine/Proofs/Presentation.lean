import ByteMachine.Proofs.LineEdits

/-! # Presentation: how a source is laid out does not change what is assembled from it -/
namespace ByteMachine

open Text

/-- Changes to the lines of a source that do not matter. A carriage return that belongs to the end of a line may stay
behind what is changed, and a text that ends in a line feed may get a line behind it. -/
inductive Edit : List (List Char) → List (List Char) → Prop
  | insert {front new back} (silent : SilentLine new) : Edit (front ++ back) (front ++ new :: back)
  | last {front new} (silent : SilentLine new) : Edit (front ++ [[]]) (front ++ [new])
  | line {front l l' ending back} (edit : LineEdit l l') (returned : ending = [] ∨ ending = ['\r']) :
      Edit (front ++ (l ++ ending) :: back) (front ++ (l' ++ ending) :: back)

def withReturns (source : List Char) : List Char := source.flatMap fun c => if c = '\n' then ['\r', '\n'] else [c]

/-- Every text is made of lines without line feeds. -/
theorem exists_eq_unlines (source : List Char) : ∃ ls, (∀ l ∈ ls, '\n' ∉ l) ∧ unlines ls = source := by
  -- there is always a first line, also in the empty text
  suffices h : ∃ l ls, (∀ k ∈ l :: ls, '\n' ∉ k) ∧ unlines (l :: ls) = source by
    obtain ⟨l, ls, hplain, hsource⟩ := h
    exact ⟨l :: ls, hplain, hsource⟩
  induction source using lineInduction with
  | last l plain => exact ⟨l, [], List.forall_mem_singleton.mpr plain, List.intercalate_singleton⟩
  | feed l rest plain ih =>
    obtain ⟨k, ks, hks, rfl⟩ := ih
    exact ⟨l, k :: ks, List.forall_mem_cons.mpr ⟨plain, hks⟩, unlines_cons_cons l k ks⟩

theorem filterMap_meaning?_append_cons (front : List (List Char)) (l : List Char) (back : List (List Char)) :
    (front ++ l :: back).filterMap meaning? =
      front.filterMap meaning? ++ ((meaning? l).toList ++ back.filterMap meaning?) := by
  rw [List.filterMap_append, filterMap_meaning?_cons]

/-- An edited source says the same, line by line. -/
theorem Edit.sameMeaning {ls ls' : List (List Char)} (h : Edit ls ls') :
    List.Forall₂ SameMeaning (ls.filterMap meaning?) (ls'.filterMap meaning?) := by
  have hrefl (ms : List (Except Fault Statement)) : List.Forall₂ SameMeaning ms ms :=
    List.forall₂_same.mpr fun m _ => .refl m
  cases h with
  | @insert front new back silent =>
    rw [filterMap_meaning?_append_cons, silent.meaning?_eq, List.filterMap_append]
    exact hrefl _
  | @last front new silent =>
    rw [filterMap_meaning?_append_cons, filterMap_meaning?_append_cons, silent.meaning?_eq]
    exact hrefl _
  | @line front l l' ending back edit returned =>
    have hblank : ∀ c ∈ ending, isBlank c = true := by
      rcases returned with rfl | rfl <;> simp [isBlank]
    have hending (k : List Char) : meaning? (k ++ ending) = meaning? k :=
      meaning?_of_stripComment_eq (stripComment_append_right hblank k)
    rw [filterMap_meaning?_append_cons, filterMap_meaning?_append_cons, hending, hending]
    exact List.rel_append (hrefl _) (List.rel_append edit.sameMeaning (hrefl _))

/-- The column of a line that says something does not depend on what is put behind it. -/
theorem indent_append {l : List Char} (h : stripComment l ≠ []) (post : List Char) : indent (l ++ post) = indent l := by
  rw [indent, List.takeWhile_append, if_neg]
  · rfl
  · -- a line of blanks alone would say nothing
    intro hlength
    apply h
    apply trim_of_forall_blank
    have hall := (List.takeWhile_prefix (p := isBlank)).eq_of_length hlength
    intro c hc
    exact List.takeWhile_eq_self_iff.mp hall c ((List.takeWhile_sublist _).mem hc)

theorem readLine_dropReturn (number : Nat) (l : List Char) : readLine number (dropReturn l) = readLine number l := by
  by_cases hlast : l.getLast? = some '\r'
  · obtain ⟨init, rfl⟩ := List.getLast?_eq_some_iff.mp hlast
    have hstrip : stripComment (init ++ ['\r']) = stripComment init := by
      rw [← stripComment_dropReturn, dropReturn, if_pos hlast, List.dropLast_concat]
    rw [dropReturn, if_pos hlast, List.dropLast_concat, readLine, readLine, hstrip]
    by_cases hne : stripComment init = []
    · rw [hne]
      rfl
    · rw [indent_append hne]
  · rw [dropReturn, if_neg hlast]

theorem withReturns_of_notMem {l : List Char} (h : '\n' ∉ l) : withReturns l = l := by
  induction l with
  | nil => rfl
  | cons c l ih =>
    obtain ⟨hc, hl⟩ := not_or.mp (mt List.mem_cons.mpr h)
    rw [withReturns, List.flatMap_cons, if_neg (Ne.symm hc), ← withReturns, ih hl]
    rfl

theorem withReturns_append_newline {l : List Char} (h : '\n' ∉ l) (rest : List Char) :
    withReturns (l ++ '\n' :: rest) = (l ++ ['\r']) ++ '\n' :: withReturns rest := by
  rw [withReturns, List.flatMap_append, ← withReturns, withReturns_of_notMem h, List.flatMap_cons]
  simp [withReturns]

/-- With the returns put in, a line is what it was or has one return more at its end. -/
theorem lines_withReturns (source : List Char) :
    List.Forall₂ (fun l l' => l' = l ∨ l = dropReturn l') (lines source) (lines (withReturns source)) := by
  induction source using lineInduction with
  | last l plain =>
    rw [withReturns_of_notMem plain]
    exact List.forall₂_same.mpr fun _ _ => .inl rfl
  | feed l rest plain ih =>
    have hplain : '\n' ∉ l ++ ['\r'] := by simp [plain]
    have hdrop : dropReturn (l ++ ['\r']) = l := by simp [dropReturn]
    rw [withReturns_append_newline plain, lines_append_newline plain, lines_append_newline hplain, hdrop]
    exact .cons (.inr rfl) ih

theorem mapM_readLine_congr {ls ls' : List (List Char)}
    (h : List.Forall₂ (fun l l' => ∀ number, readLine number l = readLine number l') ls ls') (k : Nat) :
    ((ls.zipIdx k).mapM fun l => readLine l.2 l.1) = (ls'.zipIdx k).mapM fun l => readLine l.2 l.1 := by
  induction h generalizing k with
  | nil => rfl
  | cons first _ ih => rw [List.zipIdx_cons, List.zipIdx_cons, List.mapM_cons, List.mapM_cons, first, ih]

theorem statements_withReturns (source : List Char) : statements (withReturns source) = statements source := by
  have hlines : List.Forall₂ (fun l l' => ∀ number, readLine number l = readLine number l') (lines source)
      (lines (withReturns source)) := by
    refine (lines_withReturns source).imp ?_
    rintro l l' (rfl | rfl) number
    · rfl
    · exact readLine_dropReturn number l'
  rw [statements, statements, numberedLines, numberedLines]
  congr 1
  exact (mapM_readLine_congr hlines 1).symm

/-- A source is lines joined by line feeds. Lines that say nothing may be put in anywhere, blanks and comments added to
lines, the gaps between the words of an instruction exchanged, and the case of letters changed in mnemonics and
registers: the program stays the same, or the fault does if there is one. If line ends get carriage returns, not even
the place of a fault changes. -/
theorem presentation_does_not_matter :
    (∀ source, ∃ ls, (∀ l ∈ ls, '\n' ∉ l) ∧ unlines ls = source) ∧
    (∀ ls ls', (∀ l ∈ ls, '\n' ∉ l) → (∀ l ∈ ls', '\n' ∉ l) → Edit ls ls' →
      outcome (unlines ls') = outcome (unlines ls)) ∧
    ∀ source, assemble (withReturns source) = assemble source := by
  refine ⟨exists_eq_unlines, ?_, ?_⟩
  · intro ls ls' hls hls' edit
    apply Eq.symm
    apply outcome_congr
    rw [meanings_unlines hls, meanings_unlines hls']
    exact edit.sameMeaning
  · intro source
    rw [assemble_eq_bind, assemble_eq_bind, statements_withReturns]

theorem edits_of_a_program_and_of_a_fault :
    let program (w : Token) : List (List Char) :=
      ["top:".toList] ++ ("ldi ".toList ++ w ++ " , top".toList ++ ['\r']) :: ["JMP top".toList]
    let fault (gap : List Char) : List (List Char) :=
      ["; no label".toList] ++ ("  LD R1".toList ++ gap ++ "[top]".toList ++ []) :: [[]]
    Edit (program "R1".toList) (program "r1".toList) ∧
      outcome (unlines (program "r1".toList)) = .ok [0x12, 0, 0xA0, 0] ∧
      Edit (fault ",".toList) (fault "\t,, ".toList) ∧
      outcome (unlines (fault "\t,, ".toList)) = .error (.unknownValue "top".toList) ∧
      assemble (withReturns (unlines (fault ",".toList))) =
        .error ⟨some ⟨2, 3⟩, .unknownValue "top".toList⟩ := by
  intro program fault
  obtain ⟨-, hedit, hreturns⟩ := presentation_does_not_matter
  have hregister : Edit (program "R1".toList) (program "r1".toList) := by
    have hline : InstructionLine ("ldi ".toList ++ "R1".toList ++ " , top".toList) :=
      ⟨"ldi".toList, ["R1".toList, "top".toList], by decide +kernel⟩
    have hword : WordAt "ldi ".toList "R1".toList " , top".toList :=
      ⟨by decide, by simp [isSeparator, isBlank], ⟨by simp, by simp [isSeparator, isBlank]⟩,
        by simp [isSeparator, isBlank]⟩
    have hldi : tokens "ldi ".toList = ["ldi".toList] := by decide +kernel
    have hknown : Opcode.ofName? "ldi".toList = some .ldi := by decide +kernel
    have hr1 : Register.ofName? "R1".toList = some 1 := by decide +kernel
    have hletters : SameLetters "R1".toList "r1".toList := rfl
    exact .line (.register hline hword hldi hknown rfl hr1 hletters) (.inr rfl)
  have hgap : Edit (fault ",".toList) (fault "\t,, ".toList) := by
    have hline : InstructionLine ("  LD R1".toList ++ ",".toList ++ "[top]".toList) :=
      ⟨"LD".toList, ["R1".toList, "[top]".toList], by decide +kernel⟩
    have hbetween : BetweenWords "  LD R1".toList "[top]".toList :=
      ⟨by decide, ⟨'1', rfl, by decide +kernel⟩, ⟨'[', rfl, by decide +kernel, by decide⟩⟩
    have hold : Gap ",".toList := ⟨by simp, by simp [isSeparator]⟩
    have hnew : Gap "\t,, ".toList := ⟨by simp, by simp [isSeparator, isBlank]⟩
    exact .line (.separators hline hbetween hold hnew) (.inl rfl)
  have hprogram : outcome (unlines (program "R1".toList)) = .ok [0x12, 0, 0xA0, 0] := by decide +kernel
  have hfault : assemble (unlines (fault ",".toList)) = .error ⟨some ⟨2, 3⟩, .unknownValue "top".toList⟩ := by
    decide +kernel
  refine ⟨hregister, ?_, hgap, ?_, (hreturns _).trans hfault⟩
  · exact (hedit _ _ (by decide +kernel) (by decide +kernel) hregister).trans hprogram
  · rw [hedit _ _ (by decide +kernel) (by decide +kernel) hgap, outcome, hfault]
    rfl

end ByteMachine
