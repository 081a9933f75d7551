import ByteMachine.Proofs.FirstErrors
import ByteMachine.Proofs.Relocation

/-! # Extension: lines added behind a program keep its bytes, and an error they bring is on one of them

The labels of the new lines are known when the old ones are encoded. None of them can be taken for a numeral, and none
moves a label that was there. -/
namespace ByteMachine

open Text

theorem length_lines_append_newline (xs : List Char) : (lines (xs ++ ['\n'])).length = xs.count '\n' + 1 := by
  induction xs using lineInduction with
  | last l plain =>
    rw [lines_append_newline plain, List.count_eq_zero_of_not_mem plain]
    rfl
  | feed l rest plain ih =>
    rw [List.append_assoc, List.cons_append, lines_append_newline plain, List.length_cons, ih, List.count_append,
      List.count_eq_zero_of_not_mem plain, List.count_cons_self, Nat.zero_add]

theorem LineBehind.append_cases {xs ys l : List Char} {before : List (List Char)}
    (h : LineBehind (xs ++ '\n' :: ys) before l) : LineBehind (xs ++ ['\n']) before l ∨
      ∃ between, before = lines (xs ++ ['\n']) ++ between ∧ LineBehind ys between l := by
  obtain ⟨back, hlines⟩ := h
  rw [lines_append_cons_newline] at hlines
  obtain ⟨between, hbefore, hys⟩ | ⟨rest, hxs, hrest⟩ := List.append_eq_append_iff.mp hlines
  · exact .inr ⟨between, hbefore, back, hys⟩
  · cases rest with
    | nil =>
      -- the line is the first one of the second part
      rw [List.append_nil] at hxs
      exact .inr ⟨[], by rw [hxs, List.append_nil], back, hrest.symm⟩
    | cons k rest =>
      obtain ⟨rfl, -⟩ := List.cons_eq_cons.mp hrest
      exact .inl ⟨rest, hxs⟩

section Table

variable {old new : List (Located Statement)} {labels labels' : LabelTable}

/-- Statements behind others leave the labels of those where they are. -/
theorem relocated_of_values_append {more : List Statement} (hl : resolve old = .ok labels)
    (hl' : resolve new = .ok labels') (hvalues : values new = values old ++ more)
    (hnumeral : ∀ w v, numeral? w = some v → labels'.get? w = none) : Relocated labels labels' 0 where
  shifted name v hv := by
    obtain ⟨a, ha, rfl⟩ := (get?_of_resolve hl name v).mp hv
    have hmem : (.label name, a) ∈ placed 0 (values new) := by
      rw [hvalues, placed_append]
      exact List.mem_append_left _ ha
    have hget := (get?_of_resolve hl' name _).mpr ⟨a, hmem, rfl⟩
    simpa [Address.wrap] using hget
  numeral := hnumeral

theorem Chunks.of_relocated (h : Relocated labels labels' 0) {ss : List Statement} {chunks : List (List UInt8)}
    (hc : Chunks labels (placed 0 ss) chunks) : Chunks labels' (placed 0 ss) chunks := by
  have hmoved := hc.relocate h
  have hlength : chunks.length = ss.length := by rw [hc.length_eq, length_placed]
  rwa [show Address.wrap 0 = 0 from rfl, relocate_zero labels hlength] at hmoved

end Table

section Front

variable {front source : List Char} {code : List UInt8} {ss : List (Located Statement)} {labels : LabelTable}

theorem values_of_statements_append (hs : statements front = .ok ss) {both : List (Located Statement)}
    (hboth : statements (front ++ '\n' :: source) = .ok both) :
    values both = values ss ++ (lines source).filterMap statementOn? := by
  rw [values_of_statements hboth, values_of_statements hs, lines_append_cons_newline, List.filterMap_append,
    filterMap_lines_append_newline]

theorem chunks_of_assemble_append (hs : statements front = .ok ss) (hl : resolve ss = .ok labels)
    {chunks : List (List UInt8)} (hc : Chunks labels (placed 0 (values ss)) chunks) {labels' : LabelTable}
    (hlabels' : resolveLabels (front ++ '\n' :: source) = .ok labels') :
    Chunks labels' (placed 0 (values ss)) chunks := by
  obtain ⟨both, hboth, hl'⟩ := bind_eq_ok_iff.mp hlabels'
  have hvalues := values_of_statements_append hs hboth
  exact hc.of_relocated (relocated_of_values_append hl hl' hvalues fun w v => get?_eq_none_of_numeral? hboth hl')

theorem values_of_lineBehind (hs : statements front = .ok ss) {before : List (List Char)} {l : List Char}
    (here : LineBehind (front ++ ['\n']) before l) {s : Statement} (hl : statementOn? l = some s) :
    ∃ after, values ss = before.filterMap statementOn? ++ s :: after := by
  obtain ⟨back, hlines⟩ := here
  refine ⟨back.filterMap statementOn?, ?_⟩
  rw [values_of_statements hs, ← filterMap_lines_append_newline, hlines, List.filterMap_append,
    List.filterMap_cons_some hl]

/-- No first error of a joined source is on a line of a first part that can be assembled alone. -/
theorem FirstError.exists_lineBehind {e : SourceError} (h : FirstError (front ++ '\n' :: source) e)
    (hfront : assemble front = .ok code) : ∃ between l, LineBehind source between l ∧
      e.position = some (placeBehind (lines (front ++ ['\n']) ++ between) l) := by
  obtain ⟨ss, labels, hs, hl, hg⟩ := assemble_eq_ok_iff.mp hfront
  have hnodup := exists_resolve_iff.mp ⟨labels, hl⟩
  -- in each stage, what is wrong with a line of the first part would be wrong with it alone
  cases h with
  | @reading before l name here _ malformed =>
    obtain hin | ⟨between, rfl, hbehind⟩ := here.append_cases
    · obtain ⟨back, hlines⟩ := hin
      have hread := (readable_append_newline_iff front).mpr (exists_statements_iff.mp ⟨ss, hs⟩) l (by simp [hlines])
      exact absurd malformed (readable_iff.mp hread name)
    · exact ⟨between, l, hbehind, rfl⟩
  | @labelling before l name _ here _ definition again =>
    obtain hin | ⟨between, rfl, hbehind⟩ := here.append_cases
    · obtain ⟨after, hvalues⟩ := values_of_lineBehind hs hin definition
      rw [hvalues, labelNames_append] at hnodup
      exact absurd List.mem_cons_self (List.disjoint_of_nodup_append hnodup again)
    · exact ⟨between, l, hbehind, rfl⟩
  | @encoding before l s labels' fault _ _ complete here _ statement failing _ =>
    obtain hin | ⟨between, rfl, hbehind⟩ := here.append_cases
    · obtain ⟨after, hvalues⟩ := values_of_lineBehind hs hin statement
      obtain ⟨chunks, hc, -⟩ := generate_eq_ok_iff.mp hg
      have hkept := chunks_of_assemble_append hs hl hc complete
      have hmem : (s, codeLength (before.filterMap statementOn?)) ∈ placed 0 (values ss) := by
        rw [hvalues, placed_append, Nat.zero_add]
        exact List.mem_append_right _ List.mem_cons_self
      obtain ⟨bytes, hbytes⟩ := exists_chunks_iff.mp ⟨chunks, hkept⟩ _ hmem
      cases hbytes.symm.trans failing
    · exact ⟨between, l, hbehind, rfl⟩

theorem prefix_of_assemble_append (hfront : assemble front = .ok code) {program : List UInt8}
    (h : assemble (front ++ '\n' :: source) = .ok program) : code <+: program := by
  obtain ⟨ss, labels, hs, hl, hg⟩ := assemble_eq_ok_iff.mp hfront
  obtain ⟨chunks, hc, rfl⟩ := generate_eq_ok_iff.mp hg
  obtain ⟨both, labels', hboth, hl', hg'⟩ := assemble_eq_ok_iff.mp h
  have hkept := chunks_of_assemble_append hs hl hc (bind_eq_ok_iff.mpr ⟨both, hboth, hl'⟩)
  obtain ⟨all, hall, -⟩ := generate_eq_ok_iff.mp hg'
  have hsplit := values_of_statements_append hs hboth
  -- the new statements have chunks of their own, which stand behind those that are kept
  obtain ⟨more, hmore⟩ : ∃ more, Chunks labels'
      (placed (codeLength (values ss)) ((lines source).filterMap statementOn?)) more := by
    apply exists_chunks_iff.mpr
    intro x hx
    apply exists_chunks_iff.mp ⟨all, hall⟩
    rw [hsplit, placed_append, Nat.zero_add]
    exact List.mem_append_right _ hx
  have hjoined : Chunks labels' (placed 0 (values both)) (chunks ++ more) := by
    rw [hsplit, placed_append, Nat.zero_add]
    exact List.rel_append hkept hmore
  have hprogram := generate_eq_ok_iff.mpr ⟨_, hjoined, rfl⟩
  obtain rfl := Except.ok.inj (hg'.symm.trans hprogram)
  rw [List.flatten_append]
  exact List.prefix_append _ _

end Front

/-- Lines that are added behind a source that can be assembled leave its bytes at the front of the program, whether or
not they could be assembled alone. If they bring an error, it is placed on one of them, whose number is counted behind
the lines of the source. -/
theorem assemble_append_keeps_program {front : List Char} {code : List UInt8} (hfront : assemble front = .ok code)
    (source : List Char) :
    (∃ program, assemble (front ++ '\n' :: source) = .ok program ∧ code <+: program) ∨
      ∃ position fault l, assemble (front ++ '\n' :: source) = .error ⟨some position, fault⟩ ∧
        front.count '\n' + 2 ≤ position.line ∧ (lines source)[position.line - (front.count '\n' + 2)]? = some l ∧
        position.column = indent l + 1 := by
  cases h : assemble (front ++ '\n' :: source) with
  | ok program => exact .inl ⟨program, rfl, prefix_of_assemble_append hfront h⟩
  | error e =>
    right
    obtain ⟨between, l, ⟨back, hlines⟩, hplace⟩ := (assemble_eq_error_iff_firstError.mp h).exists_lineBehind hfront
    have hline : (placeBehind (lines (front ++ ['\n']) ++ between) l).line = front.count '\n' + 2 + between.length := by
      simp only [placeBehind, List.length_append, length_lines_append_newline]
      omega
    refine ⟨placeBehind (lines (front ++ ['\n']) ++ between) l, e.fault, l, ?_, ?_, ?_, rfl⟩
    · rw [← hplace]
    · rw [hline]
      exact Nat.le_add_right _ _
    · rw [hline, Nat.add_sub_cancel_left, hlines, List.getElem?_append_right (Nat.le_refl _), Nat.sub_self]
      rfl

/-- New lines that use the old labels, and new lines that define one of them again. -/
theorem program_under_new_lines :
    let front := "top:\r\nLDI R1, 0x10\nBRZ top\r".toList
    let more := "x10:\nJMP top\nJMP x10".toList
    let again := "NOP\n\ttop: ".toList
    let code := [0x12, 0x10, 0x90, 252]
    let program := [0x12, 0x10, 0x90, 252, 0xA0, 0, 0xA0, 4]
    assemble front = .ok code ∧ assemble (front ++ '\n' :: more) = .ok program ∧ code <+: program ∧
      assemble (front ++ '\n' :: again) = .error ⟨some ⟨5, 2⟩, .duplicateLabel "top".toList⟩ ∧
      front.count '\n' + 2 ≤ 5 ∧ ∃ l, (lines again)[5 - (front.count '\n' + 2)]? = some l ∧ 2 = indent l + 1 := by
  intro front more again code program
  have hfront : assemble front = .ok code := by decide +kernel
  have hmore : assemble (front ++ '\n' :: more) = .ok program := by decide +kernel
  have hagain : assemble (front ++ '\n' :: again) = .error ⟨some ⟨5, 2⟩, .duplicateLabel "top".toList⟩ := by
    decide +kernel
  refine ⟨hfront, hmore, ?_, hagain, ?_⟩
  · obtain ⟨bytes, h, hbytes⟩ | ⟨_, _, _, h, -⟩ := assemble_append_keeps_program hfront more
    · rwa [Except.ok.inj (hmore.symm.trans h)]
    · cases hmore.symm.trans h
  · obtain ⟨_, h, -⟩ | ⟨position, fault, l, h, hline, hl, hcolumn⟩ := assemble_append_keeps_program hfront again
    · cases hagain.symm.trans h
    · obtain ⟨hposition, -⟩ := SourceError.mk.inj (Except.error.inj (hagain.symm.trans h))
      obtain rfl := Option.some.inj hposition
      exact ⟨hline, l, hl, hcolumn⟩

end ByteMachine
