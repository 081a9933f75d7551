import ByteMachine.Proofs.JoinedSources

/-! # Line meanings: the outcome of an assembly hangs on what the lines say, not on where they stand

Lines that say nothing do not count, and statements can be exchanged for others that no stage tells apart. -/
namespace ByteMachine

open Text

/-- What a line says, if it says anything: a statement or a fault. -/
def meaning? (line : List Char) : Option (Except Fault Statement) :=
  match Statement.ofLine? (stripComment line) with
  | .ok none => none
  | .ok (some s) => some (.ok s)
  | .error fault => some (.error fault)

def meanings (source : List Char) : List (Except Fault Statement) := (lines source).filterMap meaning?

/-- What an assembly gives, with the fault of an error but not its place. -/
def outcome (source : List Char) : Except Fault (List UInt8) := (assemble source).mapError SourceError.fault

/-- Statements that no stage tells apart. -/
structure Statement.Alike (s t : Statement) : Prop where
  labelName?_eq : s.labelName? = t.labelName?
  assumedLength_eq : s.assumedLength = t.assumedLength
  encode_eq : ∀ labels pc, s.encode labels pc = t.encode labels pc

inductive SameMeaning : Except Fault Statement → Except Fault Statement → Prop
  | fault (f) : SameMeaning (.error f) (.error f)
  | statement {s t} (alike : s.Alike t) : SameMeaning (.ok s) (.ok t)

theorem Statement.Alike.refl (s : Statement) : s.Alike s := ⟨rfl, rfl, fun _ _ => rfl⟩

theorem SameMeaning.refl (m : Except Fault Statement) : SameMeaning m m := by
  cases m with
  | error f => exact .fault f
  | ok s => exact .statement (.refl s)

theorem meaning?_of_stripComment_eq {l k : List Char} (h : stripComment l = stripComment k) :
    meaning? l = meaning? k := by
  rw [meaning?, meaning?, h]

theorem meaning?_of_statementOn? {l : List Char} {s : Statement} (h : statementOn? l = some s) :
    meaning? l = some (.ok s) := by
  rw [meaning?, statementOn?_eq_some_iff.mp h]

theorem filterMap_meaning?_cons (l : List Char) (ls : List (List Char)) :
    (l :: ls).filterMap meaning? = (meaning? l).toList ++ ls.filterMap meaning? := by
  rw [List.filterMap_cons]
  cases meaning? l <;> rfl

theorem meanings_of_notMem {l : List Char} (h : '\n' ∉ l) : meanings l = (meaning? l).toList := by
  by_cases hne : l = []
  · subst hne
    rfl
  · rw [meanings, lines_of_notMem hne h, filterMap_meaning?_cons, List.filterMap_nil, List.append_nil]

theorem meanings_append_newline {l : List Char} (h : '\n' ∉ l) (rest : List Char) :
    meanings (l ++ '\n' :: rest) = (meaning? l).toList ++ meanings rest := by
  have hreturn : meaning? (dropReturn l) = meaning? l := meaning?_of_stripComment_eq (stripComment_dropReturn l)
  rw [meanings, lines_append_newline h, filterMap_meaning?_cons, hreturn]
  rfl

/-- Lines joined by line feeds say together what each of them says. -/
theorem meanings_unlines {ls : List (List Char)} (h : ∀ l ∈ ls, '\n' ∉ l) :
    meanings (unlines ls) = ls.filterMap meaning? := by
  induction ls with
  | nil => rfl
  | cons l ls ih =>
    obtain ⟨hl, hls⟩ := List.forall_mem_cons.mp h
    rw [filterMap_meaning?_cons]
    cases ls with
    | nil => simpa [unlines] using meanings_of_notMem hl
    | cons k ks => rw [unlines_cons_cons, meanings_append_newline hl, ih hls]

section Stages

variable {α β ε ε' : Type}

theorem mapError_bind (g : ε → ε') (x : Except ε α) (f : α → Except ε β) :
    (x >>= f).mapError g = x.mapError g >>= fun a => (f a).mapError g := by
  cases x <;> rfl

theorem mapError_map (g : ε → ε') (x : Except ε α) (f : α → β) : (x.map f).mapError g = (x.mapError g).map f := by
  cases x <;> rfl

theorem andThen_result (r : Run α) (next : Array Record → α → Run β) :
    (r.andThen next).result = r.result >>= fun a => (next r.journal a).result := by
  rcases r with ⟨journal, _ | a⟩ <;> rfl

theorem resolve_eq_map (ss : List (Located Statement)) :
    resolve ss = (runStatements placeStatement #[] ⟨.empty, 0⟩ ss).result.map Layout.labels := by
  rw [resolve, resolveRun, andThen_result]
  rfl

theorem generate_eq_map (labels : LabelTable) (ss : List (Located Statement)) :
    generate labels ss = (runStatements (emitStatement labels) #[] #[] ss).result.map Array.toList := by
  rw [generate, generateRun, andThen_result]
  rfl

theorem assemble_eq_bind (source : List Char) :
    assemble source = statements source >>= fun ss => resolve ss >>= fun labels => generate labels ss := by
  unfold assemble assembleRun
  cases statements source with
  | error e => rfl
  | ok ss =>
    simp only [andThen_result, generateRun_result]
    change resolve ss >>= _ = resolve ss >>= _
    congr
    funext labels
    cases generate labels ss <;> rfl

/-- A stage that cannot tell the statements apart fails on both with the same fault, or ends in the same state. -/
theorem runStatements_congr {σ : Type} {step : σ → Statement → Except Fault (σ × List Record)}
    {xs ys : List (Located Statement)}
    (h : List.Forall₂ (fun x y => ∀ s, (step s x.value).map Prod.fst = (step s y.value).map Prod.fst) xs ys)
    (journal journal' : Array Record) (s : σ) :
    (runStatements step journal s xs).result.mapError SourceError.fault =
      (runStatements step journal' s ys).result.mapError SourceError.fault := by
  -- the journals are left free, since what a stage records of two statements may differ
  induction h generalizing journal journal' s with
  | nil => rfl
  | @cons x y xs ys hxy _ ih =>
    have hs := hxy s
    rw [runStatements, runStatements]
    cases hx : step s x.value with
    | error f =>
      rw [hx] at hs
      rw [map_eq_error_iff.mp hs.symm]
      rfl
    | ok next =>
      rw [hx] at hs
      obtain ⟨next', hy, hnext⟩ := map_eq_ok_iff.mp hs.symm
      rw [hy]
      simp only [hnext]
      exact ih _ _ _

end Stages

theorem Statement.Alike.placeStatement_eq {s t : Statement} (h : s.Alike t) (l : Layout) :
    placeStatement l s = placeStatement l t := by
  cases s with
  | label name =>
    cases t with
    | label other =>
      cases h.labelName?_eq
      rfl
    | instruction => cases h.labelName?_eq
  | instruction =>
    cases t with
    | label => cases h.labelName?_eq
    | instruction => simp only [placeStatement, h.assumedLength_eq]

theorem map_fst_emitStatement (labels : LabelTable) (program : Array UInt8) (s : Statement) :
    (emitStatement labels program s).map Prod.fst =
      (s.encode labels program.size).map fun (bytes : List UInt8) => program ++ bytes := by
  rw [emitStatement_eq_map]
  cases s.encode labels program.size <;> rfl

section Congruence

variable {ss ts : List (Located Statement)}

theorem resolve_congr (h : List.Forall₂ (fun s t => s.value.Alike t.value) ss ts) :
    (resolve ss).mapError SourceError.fault = (resolve ts).mapError SourceError.fault := by
  rw [resolve_eq_map, resolve_eq_map, mapError_map, mapError_map]
  congr 1
  exact runStatements_congr (h.imp fun _ _ halike l => by rw [halike.placeStatement_eq]) _ _ _

theorem generate_congr (h : List.Forall₂ (fun s t => s.value.Alike t.value) ss ts) (labels : LabelTable) :
    (generate labels ss).mapError SourceError.fault = (generate labels ts).mapError SourceError.fault := by
  rw [generate_eq_map, generate_eq_map, mapError_map, mapError_map]
  congr 1
  refine runStatements_congr (h.imp fun _ _ halike program => ?_) _ _ _
  rw [map_fst_emitStatement, map_fst_emitStatement, halike.encode_eq]

end Congruence

/-- The statements of a source are read from its meanings, up to the first fault among them. -/
theorem mapM_filterMap_meaning? (ls : List (List Char)) (k : Nat) :
    (ls.filterMap meaning?).mapM id = (((ls.zipIdx k).mapM fun l => readLine l.2 l.1).map fun found =>
      values (found.filterMap id)).mapError SourceError.fault := by
  induction ls generalizing k with
  | nil => rfl
  | cons l ls ih =>
    have hrest := ih (k + 1)
    rw [List.zipIdx_cons, List.mapM_cons, List.filterMap_cons, meaning?, readLine]
    cases Statement.ofLine? (stripComment l) with
    | error f => simp [bind, Except.bind, Except.map, Except.mapError]
    | ok said =>
      cases said with
      | none =>
        simp only [hrest]
        cases (ls.zipIdx (k + 1)).mapM fun l => readLine l.2 l.1 <;>
          simp [bind, Except.bind, pure, Except.pure, Except.map, Except.mapError]
      | some s =>
        simp only [List.mapM_cons, hrest]
        cases (ls.zipIdx (k + 1)).mapM fun l => readLine l.2 l.1 <;>
          simp [bind, Except.bind, pure, Except.pure, Except.map, Except.mapError]

theorem mapM_meanings (source : List Char) :
    (meanings source).mapM id = ((statements source).map values).mapError SourceError.fault := by
  rw [meanings, mapM_filterMap_meaning? _ 1, statements, numberedLines]
  cases ((lines source).zipIdx 1).mapM fun l => readLine l.2 l.1 <;> rfl

theorem SameMeaning.mapM_id {ms ms' : List (Except Fault Statement)} (h : List.Forall₂ SameMeaning ms ms') :
    (∃ f, ms.mapM id = .error f ∧ ms'.mapM id = .error f) ∨
      ∃ ss ts, ms.mapM id = .ok ss ∧ ms'.mapM id = .ok ts ∧ List.Forall₂ Statement.Alike ss ts := by
  induction h with
  | nil => exact .inr ⟨[], [], rfl, rfl, .nil⟩
  | cons first _ ih =>
    cases first with
    | fault f => exact .inl ⟨f, rfl, rfl⟩
    | statement alike =>
      obtain ⟨f, hms, hms'⟩ | ⟨ss, ts, hms, hms', hrest⟩ := ih
      · exact .inl ⟨f, by simp [hms, bind, Except.bind], by simp [hms', bind, Except.bind]⟩
      · exact .inr ⟨_, _, by simp [hms]; rfl, by simp [hms']; rfl, .cons alike hrest⟩

theorem outcome_eq_bind (source : List Char) :
    outcome source = (statements source).mapError SourceError.fault >>= fun ss =>
      (resolve ss).mapError SourceError.fault >>= fun labels => (generate labels ss).mapError SourceError.fault := by
  rw [outcome, assemble_eq_bind, mapError_bind]
  congr
  funext ss
  rw [mapError_bind]

/-- Two sources whose lines say the same in turn have the same outcome. -/
theorem outcome_congr {source source' : List Char}
    (h : List.Forall₂ SameMeaning (meanings source) (meanings source')) : outcome source = outcome source' := by
  have hread := mapM_meanings source
  have hread' := mapM_meanings source'
  rw [outcome_eq_bind, outcome_eq_bind]
  obtain ⟨f, hf, hf'⟩ | ⟨ss, ts, hss, hts, halike⟩ := SameMeaning.mapM_id h
  · rw [hf, mapError_map] at hread
    rw [hf', mapError_map] at hread'
    rw [map_eq_error_iff.mp hread.symm, map_eq_error_iff.mp hread'.symm]
  · rw [hss, mapError_map] at hread
    rw [hts, mapError_map] at hread'
    obtain ⟨xs, hxs, rfl⟩ := map_eq_ok_iff.mp hread.symm
    obtain ⟨ys, hys, rfl⟩ := map_eq_ok_iff.mp hread'.symm
    rw [List.forall₂_map_left_iff, List.forall₂_map_right_iff] at halike
    rw [hxs, hys]
    change (resolve xs).mapError _ >>= _ = (resolve ys).mapError _ >>= _
    rw [resolve_congr halike]
    congr
    funext labels
    exact generate_congr halike labels

end ByteMachine
