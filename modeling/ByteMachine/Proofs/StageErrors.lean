import ByteMachine.Proofs.LabelPositions

/-! # Errors of the stages: each goes over the whole source and stops at the first line or statement it cannot take -/
namespace ByteMachine

open Text

/-- A run that fails has walked up to the statement it cannot take, and gives the fault and the place of that one. -/
theorem runStatements_eq_error_iff {σ : Type} {step : σ → Statement → Except Fault (σ × List Record)} {s : σ}
    {xs : List (Located Statement)} {journal : Array Record} {e : SourceError} :
    (runStatements step journal s xs).result = .error e ↔
      ∃ before x after, xs = before ++ x :: after ∧ ∃ t records fault, Walk step s (values before) records t ∧
        step t x.value = .error fault ∧ e = ⟨some x.position, fault⟩ := by
  induction xs generalizing s journal with
  | nil => simp [runStatements]
  | cons y ys ih =>
    rw [exists_split_cons, runStatements]
    constructor
    · intro h
      split at h
      · rename_i fault hy
        cases h
        exact .inl ⟨s, [], fault, .nil s, hy, rfl⟩
      · rename_i hy
        obtain ⟨before, x, after, rfl, t, records, fault, hw, hx, rfl⟩ := ih.mp h
        exact .inr ⟨before, x, after, rfl, t, _, fault, .cons hy hw, hx, rfl⟩
    · rintro (⟨t, _, fault, hw, hx, rfl⟩ | ⟨before, x, after, rfl, t, _, fault, hw, hx, rfl⟩)
      · cases hw
        simp [hx]
      · cases hw with
        | cons first rest =>
          simp only [first]
          exact ih.mpr ⟨before, x, after, rfl, t, _, fault, rest, hx, rfl⟩

theorem andThen_result_eq_error_iff {α β : Type} {r : Run α} {next : Array Record → α → Run β} {e : SourceError} :
    (r.andThen next).result = .error e ↔
      r.result = .error e ∨ ∃ a, r.result = .ok a ∧ (next r.journal a).result = .error e := by
  rcases r with ⟨journal, _ | a⟩ <;> simp [Run.andThen]

theorem andThen_ok_result_eq_error_iff {α β : Type} {r : Run α} {journal : Array Record → α → Array Record}
    {value : α → β} {e : SourceError} :
    (r.andThen fun j a => ⟨journal j a, .ok (value a)⟩).result = .error e ↔ r.result = .error e := by
  simp [andThen_result_eq_error_iff]

/-- The line is to define a label, but what stands in front of its colon is no identifier. -/
def Malformed (line : List Char) (name : Token) : Prop :=
  (stripComment line).getLast? = some ':' ∧ trim (stripComment line).dropLast = name ∧ isIdentifier name = false

theorem ofLine?_eq_error_iff {line : List Char} {fault : Fault} :
    Statement.ofLine? (stripComment line) = .error fault ↔ ∃ name, Malformed line name ∧ fault = .malformedLabel name := by
  unfold Statement.ofLine? Malformed
  by_cases hc : (stripComment line).getLast? = some ':'
  · by_cases hi : isIdentifier (trim (stripComment line).dropLast) = true
    · simp [hc, hi]
    · simp [hc, hi, eq_comm]
  · cases tokens (stripComment line) <;> simp [hc]

theorem readable_iff {line : List Char} :
    (∃ s, Statement.ofLine? (stripComment line) = .ok s) ↔ ∀ name, ¬ Malformed line name := by
  cases hs : Statement.ofLine? (stripComment line) with
  | error fault =>
    obtain ⟨name, hm, -⟩ := ofLine?_eq_error_iff.mp hs
    simp only [reduceCtorEq, exists_false, false_iff]
    exact fun h => h name hm
  | ok s =>
    simp only [Except.ok.injEq, exists_eq', true_iff]
    intro name hm
    have he := ofLine?_eq_error_iff.mpr ⟨name, hm, rfl⟩
    simp [hs] at he

theorem readLine_eq_error_iff {number : Nat} {line : List Char} {e : SourceError} : readLine number line = .error e ↔
    ∃ name, Malformed line name ∧ e = ⟨some ⟨number, indent line + 1⟩, .malformedLabel name⟩ := by
  unfold readLine
  cases hs : Statement.ofLine? (stripComment line) with
  | error fault =>
    obtain ⟨name, hm, rfl⟩ := ofLine?_eq_error_iff.mp hs
    simp only [Except.error.injEq]
    constructor
    · rintro rfl
      exact ⟨name, hm, rfl⟩
    · rintro ⟨other, ho, rfl⟩
      rw [← hm.2.1, ← ho.2.1]
  | ok s =>
    have hnone := readable_iff.mp ⟨s, hs⟩
    simp [hnone]

theorem exists_readLine_iff {number : Nat} {line : List Char} :
    (∃ s, readLine number line = .ok s) ↔ ∀ name, ¬ Malformed line name := by
  simp [readLine_eq_ok_iff, readable_iff]

/-- The line of a source behind those in `front`. -/
def LineBehind (source : List Char) (front : List (List Char)) (l : List Char) : Prop :=
  ∃ back, lines source = front ++ l :: back

/-- The place of the line behind those in `front`: its number, and the column behind the blanks it starts with. -/
def placeBehind (front : List (List Char)) (l : List Char) : Position := ⟨front.length + 1, indent l + 1⟩

theorem numberedLines_eq_append_iff {source : List Char} {before after : List (List Char × Nat)}
    {x : List Char × Nat} : numberedLines source = before ++ x :: after ↔
      ∃ front line back, lines source = front ++ line :: back ∧ before = front.zipIdx 1 ∧ x = (line, front.length + 1) ∧
        after = back.zipIdx (front.length + 2) := by
  rw [numberedLines, List.zipIdx_eq_append_iff]
  constructor
  · rintro ⟨front, rest, hsplit, rfl, hrest⟩
    obtain ⟨line, back, rfl, rfl, rfl⟩ := List.zipIdx_eq_cons_iff.mp hrest.symm
    exact ⟨front, line, back, hsplit, rfl, by rw [Nat.add_comm], by rw [Nat.add_comm 1, Nat.add_assoc]⟩
  · rintro ⟨front, line, back, hsplit, rfl, rfl, rfl⟩
    refine ⟨front, line :: back, hsplit, rfl, ?_⟩
    rw [List.zipIdx_cons, Nat.add_comm 1, Nat.add_assoc]

/-- Reading fails at the first malformed line. -/
theorem statements_eq_error_iff {source : List Char} {e : SourceError} : statements source = .error e ↔
    ∃ front l, LineBehind source front l ∧ (∀ k ∈ front, ∀ name, ¬ Malformed k name) ∧
      ∃ name, Malformed l name ∧ e = ⟨some (placeBehind front l), .malformedLabel name⟩ := by
  have hmem (front : List (List Char)) : (∀ k ∈ front.zipIdx 1, ∀ name, ¬ Malformed k.1 name) ↔
      ∀ k ∈ front, ∀ name, ¬ Malformed k name := by
    rw [← List.forall_mem_map (f := Prod.fst) (P := fun k => ∀ name, ¬ Malformed k name), List.zipIdx_map_fst]
  rw [statements, map_eq_error_iff, mapM_eq_error_iff]
  simp only [exists_readLine_iff, readLine_eq_error_iff, numberedLines_eq_append_iff]
  constructor
  · intro h
    obtain ⟨_, _, _, ⟨front, l, back, hlines, rfl, rfl, rfl⟩, hfront, name, hm, rfl⟩ := h
    exact ⟨front, l, ⟨back, hlines⟩, (hmem front).mp hfront, name, hm, rfl⟩
  · intro h
    obtain ⟨front, l, ⟨back, hlines⟩, hfront, name, hm, rfl⟩ := h
    exact ⟨_, _, _, ⟨front, l, back, hlines, rfl, rfl, rfl⟩, (hmem front).mpr hfront, name, hm, rfl⟩

theorem placeStatement_eq_error_iff {l : Layout} {s : Statement} {fault : Fault} : placeStatement l s = .error fault ↔
    ∃ name, s = .label name ∧ (l.labels.get? name).isSome ∧ fault = .duplicateLabel name := by
  cases s with
  | label name =>
    rw [placeStatement]
    cases hd : l.labels.define? name l.size with
    | none =>
      have hsome := LabelTable.define?_eq_none_iff.mp hd
      constructor
      · intro h
        cases h
        exact ⟨name, rfl, hsome, rfl⟩
      · rintro ⟨_, ⟨⟩, -, rfl⟩
        rfl
    | some t => simp [LabelTable.get?_eq_none_of_define? hd]
  | instruction mnemonic operands => simp [placeStatement]

/-- Placing the labels fails at the first statement that defines a name again. -/
theorem resolve_eq_error_iff {ss : List (Located Statement)} {e : SourceError} : resolve ss = .error e ↔
    ∃ before x after, ss = before ++ x :: after ∧ (labelNames (values before)).Nodup ∧
      ∃ name, x.value = .label name ∧ name ∈ labelNames (values before) ∧
        e = ⟨some x.position, .duplicateLabel name⟩ := by
  rw [resolve, resolveRun, andThen_ok_result_eq_error_iff, runStatements_eq_error_iff]
  simp only [placeStatement_eq_error_iff]
  constructor
  · rintro ⟨before, x, after, rfl, m, records, fault, hw, ⟨name, hx, hsome, rfl⟩, rfl⟩
    exact ⟨before, x, after, rfl, hw.nodup_place.1, name, hx, (hw.isSome_get?_place name).mp hsome, rfl⟩
  · rintro ⟨before, x, after, rfl, hnodup, name, hx, hmem, rfl⟩
    obtain ⟨records, m, hw⟩ := exists_walk_place ⟨.empty, 0⟩ _ hnodup fun name _ => LabelTable.get?_empty name
    exact ⟨before, x, after, rfl, m, records, _, hw, ⟨name, hx, (hw.isSome_get?_place name).mpr hmem, rfl⟩, rfl⟩

theorem emitStatement_eq_error_iff {labels : LabelTable} {program : Array UInt8} {s : Statement} {fault : Fault} :
    emitStatement labels program s = .error fault ↔ s.encode labels program.size = .error fault := by
  rw [emitStatement_eq_map, map_eq_error_iff]

theorem exists_chunks_iff {labels : LabelTable} {xs : List (Statement × Nat)} :
    (∃ chunks, Chunks labels xs chunks) ↔ ∀ x ∈ xs, ∃ bytes, x.1.encode labels x.2 = .ok bytes := by
  induction xs with
  | nil => exact ⟨fun _ _ hx => absurd hx List.not_mem_nil, fun _ => ⟨[], .nil⟩⟩
  | cons x xs ih =>
    rw [List.forall_mem_cons, ← ih]
    constructor
    · rintro ⟨_, _ | ⟨hx, hxs⟩⟩
      exact ⟨⟨_, hx⟩, _, hxs⟩
    · rintro ⟨⟨bytes, hx⟩, chunks, hxs⟩
      exact ⟨bytes :: chunks, .cons hx hxs⟩

theorem Chunks.length_flatten {labels : LabelTable} {pc : Nat} {ss : List Statement} {chunks : List (List UInt8)}
    (h : Chunks labels (placed pc ss) chunks) : chunks.flatten.length = codeLength ss := by
  have hlength : chunks.length = ss.length := by rw [h.length_eq, length_placed]
  have htake := h.length_flatten_take ss.length
  rwa [← hlength, List.take_length, hlength, addressAt, List.take_length] at htake

/-- The second pass fails at the first statement that has no bytes at its address. -/
theorem generate_eq_error_iff {labels : LabelTable} {ss : List (Located Statement)} {e : SourceError} :
    generate labels ss = .error e ↔
      ∃ before x after, ss = before ++ x :: after ∧
        (∀ y ∈ placed 0 (values before), ∃ bytes, y.1.encode labels y.2 = .ok bytes) ∧
        ∃ fault, x.value.encode labels (codeLength (values before)) = .error fault ∧ e = ⟨some x.position, fault⟩ := by
  rw [generate, generateRun, andThen_ok_result_eq_error_iff, runStatements_eq_error_iff]
  simp only [emitStatement_eq_error_iff, ← exists_chunks_iff]
  have hsize {before : List (Located Statement)} {chunks : List (List UInt8)} {program : Array UInt8}
      (hc : Chunks labels (placed 0 (values before)) chunks) (hp : program.toList = chunks.flatten) :
      program.size = codeLength (values before) := by
    rw [← Array.length_toList, hp, hc.length_flatten]
  constructor
  · rintro ⟨before, x, after, rfl, program, records, fault, hw, hx, rfl⟩
    obtain ⟨chunks, hc, hp⟩ := hw.exists_chunks
    rw [hsize hc (by simpa using hp)] at hx
    exact ⟨before, x, after, rfl, ⟨chunks, hc⟩, fault, hx, rfl⟩
  · rintro ⟨before, x, after, rfl, ⟨chunks, hc⟩, fault, hx, rfl⟩
    obtain ⟨records, program, hw, hp⟩ := Chunks.exists_walk #[] hc
    rw [← hsize hc (by simpa using hp)] at hx
    exact ⟨before, x, after, rfl, program, records, fault, hw, hx, rfl⟩

/-- A reader of operands or instructions that fails with a fault of the last stage only. -/
def FailsEncoding {α : Type} (x : Except Fault α) : Prop := ∀ fault, x = .error fault → fault.stage = .encoding

namespace FailsEncoding

theorem ok {α : Type} (a : α) : FailsEncoding (.ok a) := fun _ h => by cases h

theorem bind {α β : Type} {x : Except Fault α} {f : α → Except Fault β} (h : FailsEncoding x)
    (hf : ∀ a, FailsEncoding (f a)) : FailsEncoding (x >>= f) := by
  cases x with
  | error fault =>
    intro fault' he
    cases he
    exact h fault rfl
  | ok a => exact hf a

theorem registerOf (token : Token) : FailsEncoding (registerOf token) := by
  unfold ByteMachine.registerOf
  intro fault h
  split at h <;> cases h
  rfl

theorem valueOf (labels : LabelTable) (token : Token) : FailsEncoding (valueOf labels token) := by
  unfold ByteMachine.valueOf
  intro fault h
  split at h <;> cases h
  rfl

theorem cellOf (labels : LabelTable) (op : Opcode) (token : Token) : FailsEncoding (cellOf labels op token) := by
  unfold ByteMachine.cellOf
  split
  · exact valueOf labels _
  · rintro fault ⟨⟩
    rfl

theorem instructionOf (labels : LabelTable) (op : Opcode) (operands : List Token) :
    FailsEncoding (instructionOf labels op operands) := by
  unfold ByteMachine.instructionOf
  split
  · exact ok _
  · exact (registerOf _).bind fun _ => (valueOf labels _).bind fun _ => ok _
  · exact (registerOf _).bind fun _ => (registerOf _).bind fun _ => ok _
  · exact (registerOf _).bind fun _ => (cellOf labels _ _).bind fun _ => ok _
  · exact (registerOf _).bind fun _ => (cellOf labels _ _).bind fun _ => ok _
  · exact (valueOf labels _).bind fun _ => ok _
  · exact (valueOf labels _).bind fun _ => ok _
  · rintro fault ⟨⟩
    rfl

theorem encode (labels : LabelTable) (pc : Nat) (s : Statement) : FailsEncoding (s.encode labels pc) := by
  cases s with
  | label name => exact ok _
  | instruction mnemonic operands =>
    rw [Statement.encode, ByteMachine.encode, readInstruction]
    cases Opcode.ofName? mnemonic with
    | none =>
      rintro fault ⟨⟩
      rfl
    | some op => exact (instructionOf labels op operands).bind fun i => ok _

end FailsEncoding

/-- A stage is reached when those before it have gone through. -/
theorem assemble_eq_error_iff {source : List Char} {e : SourceError} : assemble source = .error e ↔
    statements source = .error e ∨ ∃ ss, statements source = .ok ss ∧
      (resolve ss = .error e ∨ ∃ labels, resolve ss = .ok labels ∧ generate labels ss = .error e) := by
  unfold assemble assembleRun
  cases hs : statements source with
  | error e' => simp
  | ok ss => simp [andThen_result_eq_error_iff, generateRun_result, resolve]

/-- Statements stand in the order of their lines, each placed at the first character of its line that is no blank. -/
theorem exists_statement_iff {source : List Char} {ss : List (Located Statement)} (h : statements source = .ok ss)
    {p : List Statement → Position → Statement → Prop} :
    (∃ before x after, ss = before ++ x :: after ∧ p (values before) x.position x.value) ↔
      ∃ front l s, LineBehind source front l ∧ statementOn? l = some s ∧
        p (front.filterMap statementOn?) (placeBehind front l) s := by
  obtain ⟨-, hss⟩ := statements_eq_ok_iff_lines.mp h
  constructor
  · intro hsplit
    obtain ⟨before, x, after, rfl, hp⟩ := hsplit
    obtain ⟨first, rest, hnumbered, hfirst, hrest⟩ := List.filterMap_eq_append_iff.mp hss
    obtain ⟨silent, _, behind, rfl, hsilent, hl, -⟩ := List.filterMap_eq_cons_iff.mp hrest
    rw [← List.append_assoc] at hnumbered
    obtain ⟨front, l, back, hlines, hfront, rfl, -⟩ := numberedLines_eq_append_iff.mp hnumbered
    obtain ⟨s, hs, rfl⟩ := Option.map_eq_some_iff.mp hl
    -- the lines between the statement and the one before it say nothing
    have hvalues : values before = front.filterMap statementOn? := by
      rw [← values_filterMap_zipIdx front 1, ← hfront, List.filterMap_append, hfirst,
        List.filterMap_eq_nil_iff.mpr hsilent, List.append_nil]
    exact ⟨front, l, s, ⟨back, hlines⟩, hs, hvalues ▸ hp⟩
  · intro hsplit
    obtain ⟨front, l, s, ⟨back, hlines⟩, hs, hp⟩ := hsplit
    have hnumbered := numberedLines_eq_append_iff.mpr ⟨front, l, back, hlines, rfl, rfl, rfl⟩
    rw [hnumbered, List.filterMap_append, List.filterMap_cons_some (by rw [hs]; rfl)] at hss
    refine ⟨_, _, _, hss.symm, ?_⟩
    rwa [values_filterMap_zipIdx]

theorem resolve_eq_error_iff_lines {source : List Char} {ss : List (Located Statement)} (h : statements source = .ok ss)
    {e : SourceError} : resolve ss = .error e ↔
      ∃ front l s, LineBehind source front l ∧ statementOn? l = some s ∧
        (labelNames (front.filterMap statementOn?)).Nodup ∧
        ∃ name, s = .label name ∧ name ∈ labelNames (front.filterMap statementOn?) ∧
          e = ⟨some (placeBehind front l), .duplicateLabel name⟩ := by
  rw [resolve_eq_error_iff]
  exact exists_statement_iff h (p := fun before position s => (labelNames before).Nodup ∧
    ∃ name, s = .label name ∧ name ∈ labelNames before ∧ e = ⟨some position, .duplicateLabel name⟩)

theorem generate_eq_error_iff_lines {source : List Char} {ss : List (Located Statement)}
    (h : statements source = .ok ss) {labels : LabelTable} {e : SourceError} : generate labels ss = .error e ↔
      ∃ front l s, LineBehind source front l ∧ statementOn? l = some s ∧
        (∀ y ∈ placed 0 (front.filterMap statementOn?), ∃ bytes, y.1.encode labels y.2 = .ok bytes) ∧
        ∃ fault, s.encode labels (codeLength (front.filterMap statementOn?)) = .error fault ∧
          e = ⟨some (placeBehind front l), fault⟩ := by
  rw [generate_eq_error_iff]
  exact exists_statement_iff h (p := fun before position s =>
    (∀ y ∈ placed 0 before, ∃ bytes, y.1.encode labels y.2 = .ok bytes) ∧
      ∃ fault, s.encode labels (codeLength before) = .error fault ∧ e = ⟨some position, fault⟩)

end ByteMachine
