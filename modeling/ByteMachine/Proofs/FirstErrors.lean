import ByteMachine.Proofs.StageErrors

/-! # First errors: the first fault of the earliest stage that has any ends an assembly, and is told with its place -/
namespace ByteMachine

open Text

/-- What ends the assembly of a source: the first malformed line; if there is none, the first line that defines a name
again; if there is none either, the first line that cannot be encoded at its address with all labels known. -/
inductive FirstError (source : List Char) : SourceError → Prop
  | reading {front l name} (here : LineBehind source front l) (earlier : ∀ k ∈ front, ∀ n, ¬ Malformed k n)
      (malformed : Malformed l name) : FirstError source ⟨some (placeBehind front l), .malformedLabel name⟩
  | labelling {front l name} (wellFormed : ∀ k ∈ lines source, ∀ n, ¬ Malformed k n) (here : LineBehind source front l)
      (earlier : (labelNames (front.filterMap statementOn?)).Nodup) (definition : statementOn? l = some (.label name))
      (again : name ∈ labelNames (front.filterMap statementOn?)) :
      FirstError source ⟨some (placeBehind front l), .duplicateLabel name⟩
  | encoding {front l s labels fault} (wellFormed : ∀ k ∈ lines source, ∀ n, ¬ Malformed k n)
      (distinct : (labelNames ((lines source).filterMap statementOn?)).Nodup)
      (complete : resolveLabels source = .ok labels) (here : LineBehind source front l)
      (earlier : ∀ y ∈ placed 0 (front.filterMap statementOn?), ∃ bytes, y.1.encode labels y.2 = .ok bytes)
      (statement : statementOn? l = some s)
      (failing : s.encode labels (codeLength (front.filterMap statementOn?)) = .error fault)
      (stage : fault.stage = .encoding) : FirstError source ⟨some (placeBehind front l), fault⟩

theorem wellFormed_iff {source : List Char} :
    (∀ l ∈ lines source, ∀ n, ¬ Malformed l n) ↔ ∃ ss, statements source = .ok ss := by
  simp only [exists_statements_iff, readable_iff]

theorem assemble_eq_error_iff_firstError {source : List Char} {e : SourceError} :
    assemble source = .error e ↔ FirstError source e := by
  rw [assemble_eq_error_iff]
  constructor
  · intro h
    obtain h | ⟨ss, hs, h | ⟨labels, hl, h⟩⟩ := h
    · obtain ⟨front, l, here, hfront, name, hm, rfl⟩ := statements_eq_error_iff.mp h
      exact .reading here hfront hm
    · obtain ⟨front, l, _, here, hl, hnodup, name, rfl, hmem, rfl⟩ := (resolve_eq_error_iff_lines hs).mp h
      exact .labelling (wellFormed_iff.mpr ⟨ss, hs⟩) here hnodup hl hmem
    · obtain ⟨front, l, s, here, hs', hfront, fault, hx, rfl⟩ := (generate_eq_error_iff_lines hs).mp h
      have hnodup := exists_resolve_iff.mp ⟨labels, hl⟩
      rw [values_of_statements hs] at hnodup
      have hresolved : resolveLabels source = .ok labels := bind_eq_ok_iff.mpr ⟨ss, hs, hl⟩
      have hstage := FailsEncoding.encode _ _ _ _ hx
      exact .encoding (wellFormed_iff.mpr ⟨ss, hs⟩) hnodup hresolved here hfront hs' hx hstage
  · intro h
    cases h with
    | reading here hfront hm => exact .inl (statements_eq_error_iff.mpr ⟨_, _, here, hfront, _, hm, rfl⟩)
    | labelling hread here hnodup hl hmem =>
      obtain ⟨ss, hs⟩ := wellFormed_iff.mp hread
      have h := (resolve_eq_error_iff_lines hs).mpr ⟨_, _, _, here, hl, hnodup, _, rfl, hmem, rfl⟩
      exact .inr ⟨ss, hs, .inl h⟩
    | encoding _ _ hresolved here hfront hl hx _ =>
      obtain ⟨ss, hs, hlabels⟩ := bind_eq_ok_iff.mp hresolved
      have h := (generate_eq_error_iff_lines hs).mpr ⟨_, _, _, here, hl, hfront, _, hx, rfl⟩
      exact .inr ⟨ss, hs, .inr ⟨_, hlabels, h⟩⟩

/-- The place of the first character of a line of the source that is no blank. -/
structure Position.IsStartOf (p : Position) (source l : List Char) : Prop where
  one_le_line : 1 ≤ p.line
  line_eq : (lines source)[p.line - 1]? = some l
  column_eq : p.column = indent l + 1
  visible : ∃ c, l[p.column - 1]? = some c ∧ isBlank c = false

/-- A line on which something is left without its comment starts with a character that can be seen. -/
theorem exists_visible {l : List Char} (h : stripComment l ≠ []) : ∃ c, l[indent l]? = some c ∧ isBlank c = false := by
  have hne : l.dropWhile isBlank ≠ [] := by
    intro hnil
    apply h
    apply trim_of_forall_blank
    intro c hc
    exact List.dropWhile_eq_nil_iff.mp hnil c ((List.takeWhile_sublist _).mem hc)
  obtain ⟨c, cs, hcs⟩ := List.exists_cons_of_ne_nil hne
  have hsplit : l.takeWhile isBlank ++ c :: cs = l := hcs ▸ List.takeWhile_append_dropWhile
  have hget : (l.takeWhile isBlank ++ c :: cs)[indent l]? = some c := by
    rw [indent, List.getElem?_append_right (Nat.le_refl _), Nat.sub_self]
    rfl
  rw [hsplit] at hget
  refine ⟨c, hget, ?_⟩
  apply head?_trimStart l
  rw [trimStart, hcs]
  rfl

theorem LineBehind.isStartOf {source l : List Char} {front : List (List Char)} (h : LineBehind source front l)
    (hne : stripComment l ≠ []) : (placeBehind front l).IsStartOf source l where
  one_le_line := Nat.le_add_left 1 _
  line_eq := by
    obtain ⟨back, hlines⟩ := h
    simp [hlines, placeBehind]
  column_eq := rfl
  visible := exists_visible hne

theorem stripComment_ne_nil_of_malformed {l : List Char} {name : Token} (h : Malformed l name) : stripComment l ≠ [] := by
  intro hnil
  have hlast := h.1
  simp [hnil] at hlast

theorem stripComment_ne_nil_of_statementOn? {l : List Char} {s : Statement} (h : statementOn? l = some s) :
    stripComment l ≠ [] := by
  intro hnil
  rw [statementOn?_eq_some_iff, hnil] at h
  cases h

theorem FirstError.exists_place {source : List Char} {e : SourceError} (h : FirstError source e) :
    ∃ position l, e.position = some position ∧ position.IsStartOf source l := by
  cases h with
  | reading here _ malformed => exact ⟨_, _, rfl, here.isStartOf (stripComment_ne_nil_of_malformed malformed)⟩
  | labelling _ here _ definition =>
    exact ⟨_, _, rfl, here.isStartOf (stripComment_ne_nil_of_statementOn? definition)⟩
  | encoding _ _ _ here _ statement =>
    exact ⟨_, _, rfl, here.isStartOf (stripComment_ne_nil_of_statementOn? statement)⟩

/-- If an assembly fails, then with the first error of the earliest stage that has one, and with no other. The error
has a place: a line of the source, and there the first character that is no blank. -/
theorem assemble_fails_with_first_error {source : List Char} {e : SourceError} (h : assemble source = .error e) :
    (FirstError source e ∧ ∀ e', FirstError source e' → e' = e) ∧
      ∃ position l, e.position = some position ∧ position.IsStartOf source l := by
  have hfirst := assemble_eq_error_iff_firstError.mp h
  refine ⟨⟨hfirst, ?_⟩, hfirst.exists_place⟩
  intro e' he'
  have h' := assemble_eq_error_iff_firstError.mpr he'
  exact Except.error.inj (h'.symm.trans h)

/-- The same faults in the same order, with the last line taken off twice. -/
theorem first_errors_of_the_three_stages :
    FirstError "  FOO x ; y:\n,\nx:\n x :\r\n\t1st:;".toList ⟨some ⟨5, 2⟩, .malformedLabel "1st".toList⟩ ∧
      FirstError "  FOO x ; y:\n,\nx:\n x :".toList ⟨some ⟨4, 2⟩, .duplicateLabel "x".toList⟩ ∧
      FirstError "  FOO x ; y:\n,\nx:".toList ⟨some ⟨1, 3⟩, .unknownInstruction "FOO".toList⟩ := by
  refine ⟨?_, ?_, ?_⟩
  · exact (assemble_fails_with_first_error (by decide +kernel)).1.1
  · exact (assemble_fails_with_first_error (by decide +kernel)).1.1
  · exact (assemble_fails_with_first_error (by decide +kernel)).1.1

end ByteMachine
