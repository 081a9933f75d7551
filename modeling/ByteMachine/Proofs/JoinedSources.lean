import ByteMachine.Proofs.Grammar
import ByteMachine.Proofs.StageErrors

/-! # Joined sources: what is read from two sources with a line feed between them -/
namespace ByteMachine

open Text

/-- Lines that are complete are not touched by what is put in front of them. -/
theorem foldr_lineStep_append (xs : List Char) {ws : List (List Char)} (hne : ws ≠ []) (ended : Bool)
    (zs : List (List Char)) : ∃ ws' ended', ws' ≠ [] ∧ xs.foldr lineStep (ws, ended) = (ws', ended') ∧
      xs.foldr lineStep (ws ++ zs, ended) = (ws' ++ zs, ended') := by
  induction xs with
  | nil => exact ⟨ws, ended, hne, rfl, rfl⟩
  | cons c xs ih =>
    obtain ⟨ws', ended', hne', hws, hzs⟩ := ih
    obtain ⟨w, rest, rfl⟩ := List.exists_cons_of_ne_nil hne'
    rw [List.foldr_cons, List.foldr_cons, hws, hzs]
    unfold lineStep
    split
    · exact ⟨_, _, by simp, rfl, rfl⟩
    · split
      · exact ⟨_, _, by simp, rfl, rfl⟩
      · exact ⟨_, _, by simp [consHead], rfl, rfl⟩

/-- A line feed parts the lines before it from those behind it. -/
theorem lines_append_cons_newline (xs ys : List Char) :
    lines (xs ++ '\n' :: ys) = lines (xs ++ ['\n']) ++ lines ys := by
  have hnewline (zs : List Char) : ('\n' :: zs).foldr lineStep ([], false) = ([[]] ++ lines zs, true) := rfl
  obtain ⟨ws, ended, -, hone, hboth⟩ := foldr_lineStep_append xs (List.cons_ne_nil [] []) true (lines ys)
  have hleft : lines (xs ++ '\n' :: ys) = ws ++ lines ys := by
    rw [lines, List.foldr_append, hnewline, hboth]
  have hright : lines (xs ++ ['\n']) = ws := by
    rw [lines, List.foldr_append, hnewline, lines_nil, List.append_nil, hone]
  rw [hleft, hright]

theorem trim_append_right {post : List Char} (h : ∀ c ∈ post, isBlank c = true) (cs : List Char) :
    trim (cs ++ post) = trim cs := by
  obtain ⟨before, after, hcs, hbefore, hafter⟩ := exists_eq_append_trim cs
  have hblank : ∀ c ∈ after ++ post, isBlank c = true := by
    intro c hc
    obtain hc | hc := List.mem_append.mp hc
    · exact hafter c hc
    · exact h c hc
  have hsplit : cs ++ post = before ++ trim cs ++ (after ++ post) := by rw [← List.append_assoc, ← hcs]
  rw [hsplit, trim_append_of_blank _ hbefore hblank (trimmed_trim cs)]

theorem stripComment_append_right {post : List Char} (h : ∀ c ∈ post, isBlank c = true) (l : List Char) :
    stripComment (l ++ post) = stripComment l := by
  rw [stripComment, stripComment, List.takeWhile_append]
  split
  · rename_i hlength
    have hall : l.takeWhile (· != ';') = l := (List.takeWhile_prefix _).eq_of_length hlength
    rw [hall]
    apply trim_append_right
    intro c hc
    exact h c ((List.takeWhile_sublist _).mem hc)
  · rfl

theorem stripComment_dropReturn (l : List Char) : stripComment (dropReturn l) = stripComment l := by
  unfold dropReturn
  split
  · rename_i hlast
    obtain ⟨init, rfl⟩ := List.getLast?_eq_some_iff.mp hlast
    have hblank : ∀ c ∈ ['\r'], isBlank c = true := by simp [isBlank]
    rw [List.dropLast_concat, stripComment_append_right hblank]
  · rfl

/-- A line feed at the end of a text ends its last line, or adds an empty one if that is ended already. -/
theorem lines_append_newline_cases (xs : List Char) : lines (xs ++ ['\n']) = lines xs ++ [[]] ∨
    ∃ front l, lines xs = front ++ [l] ∧ lines (xs ++ ['\n']) = front ++ [dropReturn l] := by
  induction xs using lineInduction with
  | last l plain =>
    by_cases he : l = []
    · subst he
      exact .inl rfl
    · refine .inr ⟨[], l, lines_of_notMem he plain, ?_⟩
      rw [lines_append_newline plain]
      rfl
  | feed l rest plain ih =>
    rw [List.append_assoc, List.cons_append, lines_append_newline plain, lines_append_newline plain]
    obtain hrest | ⟨front, last, hlast, hrest⟩ := ih
    · exact .inl (by rw [hrest]; rfl)
    · exact .inr ⟨dropReturn l :: front, last, by rw [hlast]; rfl, by rw [hrest]; rfl⟩

theorem statementOn?_dropReturn (l : List Char) : statementOn? (dropReturn l) = statementOn? l := by
  rw [statementOn?, statementOn?, stripComment_dropReturn]

theorem filterMap_lines_append_newline (xs : List Char) :
    (lines (xs ++ ['\n'])).filterMap statementOn? = (lines xs).filterMap statementOn? := by
  obtain h | ⟨front, l, hxs, h⟩ := lines_append_newline_cases xs
  · have hempty : statementOn? [] = none := rfl
    simp [h, hempty]
  · rw [h, hxs, List.filterMap_append, List.filterMap_append, List.filterMap_cons, List.filterMap_cons,
      statementOn?_dropReturn]

theorem readable_append_newline_iff (xs : List Char) :
    (∀ l ∈ lines (xs ++ ['\n']), ∃ s, Statement.ofLine? (stripComment l) = .ok s) ↔
      ∀ l ∈ lines xs, ∃ s, Statement.ofLine? (stripComment l) = .ok s := by
  obtain h | ⟨front, l, hxs, h⟩ := lines_append_newline_cases xs
  · have hempty : Statement.ofLine? (stripComment []) = .ok none := rfl
    simp [h, hempty, or_imp, forall_and]
  · simp [h, hxs, stripComment_dropReturn, or_imp, forall_and]

/-- Two sources that can be read are read together, the statements of the first before those of the second. -/
theorem exists_statements_append {xs ys : List Char} {first second : List (Located Statement)}
    (hx : statements xs = .ok first) (hy : statements ys = .ok second) :
    ∃ ss, statements (xs ++ '\n' :: ys) = .ok ss ∧ values ss = values first ++ values second := by
  have hreadable : ∀ l ∈ lines (xs ++ '\n' :: ys), ∃ s, Statement.ofLine? (stripComment l) = .ok s := by
    rw [lines_append_cons_newline, List.forall_mem_append, readable_append_newline_iff]
    exact ⟨exists_statements_iff.mp ⟨first, hx⟩, exists_statements_iff.mp ⟨second, hy⟩⟩
  obtain ⟨ss, hs⟩ := exists_statements_iff.mpr hreadable
  refine ⟨ss, hs, ?_⟩
  rw [values_of_statements hs, values_of_statements hx, values_of_statements hy, lines_append_cons_newline,
    List.filterMap_append, filterMap_lines_append_newline]

theorem placed_append (pc : Nat) (ss ts : List Statement) :
    placed pc (ss ++ ts) = placed pc ss ++ placed (pc + codeLength ss) ts := by
  induction ss generalizing pc with
  | nil => rfl
  | cons s ss ih => simp [placed, ih, codeLength, Nat.add_assoc]

theorem placed_add (k pc : Nat) (ss : List Statement) :
    placed (k + pc) ss = (placed pc ss).map fun x => (x.1, k + x.2) := by
  induction ss generalizing pc with
  | nil => rfl
  | cons s ss ih => simp [placed, Nat.add_assoc, ih]

/-- The labels of one program with those of a program that is put at address `k`, behind it. -/
def JoinedLabels (first second joined : LabelTable) (k : Nat) : Prop :=
  ∀ name, joined.get? name = (first.get? name).or ((second.get? name).map (· + Address.wrap k))

/-- Labels of statements that stand `k` bytes further on. -/
theorem get?_of_resolve_add {ss : List (Located Statement)} {t : LabelTable} (h : resolve ss = .ok t) (k : Nat)
    (name : Token) (v : UInt8) : (t.get? name).map (· + Address.wrap k) = some v ↔
      ∃ a, (.label name, a) ∈ placed k (values ss) ∧ v = Address.wrap a := by
  have hplaced : placed k (values ss) = (placed 0 (values ss)).map fun x => (x.1, k + x.2) := placed_add k 0 _
  rw [hplaced, Option.map_eq_some_iff]
  simp only [get?_of_resolve h, List.mem_map, Prod.mk.injEq, Prod.exists]
  constructor
  · rintro ⟨_, ⟨a, ha, rfl⟩, rfl⟩
    exact ⟨k + a, ⟨_, a, ha, rfl, rfl⟩, by rw [Nat.add_comm, Address.wrap_add]⟩
  · rintro ⟨_, ⟨_, a, ha, rfl, rfl⟩, rfl⟩
    exact ⟨_, ⟨a, ha, rfl⟩, by rw [Nat.add_comm, Address.wrap_add]⟩

/-- Names that are not defined twice are placed together, those of the second part behind all of the first. -/
theorem exists_resolve_append {first second ss : List (Located Statement)} {labels labels' : LabelTable}
    (hfirst : resolve first = .ok labels) (hsecond : resolve second = .ok labels')
    (hdisjoint : ∀ name, labels.get? name = none ∨ labels'.get? name = none)
    (hss : values ss = values first ++ values second) :
    ∃ joined, resolve ss = .ok joined ∧ JoinedLabels labels labels' joined (codeLength (values first)) := by
  have hnodup : (labelNames (values ss)).Nodup := by
    rw [hss, labelNames_append]
    refine List.Nodup.append (exists_resolve_iff.mp ⟨_, hfirst⟩) (exists_resolve_iff.mp ⟨_, hsecond⟩) ?_
    intro name hx hy
    have hx' := (isSome_get?_of_resolve hfirst name).mpr hx
    have hy' := (isSome_get?_of_resolve hsecond name).mpr hy
    obtain h | h := hdisjoint name
    · simp [h] at hx'
    · simp [h] at hy'
  obtain ⟨joined, hjoined⟩ := exists_resolve_iff.mpr hnodup
  refine ⟨joined, hjoined, ?_⟩
  intro name
  apply Option.ext
  intro v
  have hboth : joined.get? name = some v ↔ labels.get? name = some v ∨
      (labels'.get? name).map (· + Address.wrap (codeLength (values first))) = some v := by
    rw [get?_of_resolve hjoined, hss, placed_append, Nat.zero_add, get?_of_resolve_add hsecond,
      get?_of_resolve hfirst]
    simp only [List.mem_append, or_and_right, exists_or]
  rw [hboth]
  obtain h | h := hdisjoint name
  · simp [h]
  · simp [h]

end ByteMachine
