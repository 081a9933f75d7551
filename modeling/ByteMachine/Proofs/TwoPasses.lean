import ByteMachine.Assembly.Assembler
import ByteMachine.Proofs.Reading
import ByteMachine.Proofs.StatementText

/-! # The two passes: where statements are placed, and the bytes they give there

The first pass counts lengths that it takes from the mnemonics, the second counts the bytes it emits. Both see the
same address at every statement. -/
namespace ByteMachine

section Walks

variable {σ : Type} {step : σ → Statement → Except Fault (σ × List Record)}

/-- The steps of a run without a fault, from one state to another, and their records. -/
inductive Walk (step : σ → Statement → Except Fault (σ × List Record)) : σ → List Statement → List Record → σ → Prop
  | nil (s) : Walk step s [] [] s
  | cons {s t u x xs records more} (first : step s x = .ok (t, records)) (rest : Walk step t xs more u) :
      Walk step s (x :: xs) (records ++ more) u

/-- A run goes on behind the statements it has taken, with their records. -/
theorem Walk.runStatements_append {s t : σ} {xs : List (Located Statement)} {records : List Record}
    (h : Walk step s (values xs) records t) (journal : Array Record) (rest : List (Located Statement)) :
    runStatements step journal s (xs ++ rest) = runStatements step (journal ++ records) t rest := by
  induction xs generalizing s records journal with
  | nil =>
    cases h
    simp
  | cons x xs ih =>
    cases h with
    | @cons _ _ _ _ _ records more first others =>
      have hj : journal ++ records ++ more = journal ++ (records ++ more) := by
        apply Array.toList_inj.mp
        simp
      simp [runStatements, first, ih others, hj]

theorem Walk.runStatements_eq {s t : σ} {xs : List (Located Statement)} {records : List Record}
    (h : Walk step s (values xs) records t) (journal : Array Record) :
    runStatements step journal s xs = ⟨journal ++ records, .ok t⟩ := by
  have hrun := h.runStatements_append journal []
  rwa [List.append_nil] at hrun

theorem exists_walk_of_runStatements {s t : σ} {xs : List (Located Statement)} {journal : Array Record}
    (h : (runStatements step journal s xs).result = .ok t) :
    ∃ records, Walk step s (values xs) records t := by
  induction xs generalizing s journal with
  | nil =>
    obtain rfl : s = t := by simpa [runStatements] using h
    exact ⟨[], .nil s⟩
  | cons x xs ih =>
    unfold runStatements at h
    split at h
    · cases h
    · obtain ⟨more, hw⟩ := ih h
      exact ⟨_, .cons ‹_› hw⟩

theorem runStatements_eq_ok_iff {s t : σ} {xs : List (Located Statement)} {journal : Array Record} :
    (runStatements step journal s xs).result = .ok t ↔ ∃ records, Walk step s (values xs) records t := by
  refine ⟨exists_walk_of_runStatements, ?_⟩
  rintro ⟨records, h⟩
  rw [h.runStatements_eq]

theorem result_runStatements (journal journal' : Array Record) (s : σ) (xs : List (Located Statement)) :
    (runStatements step journal s xs).result = (runStatements step journal' s xs).result := by
  induction xs generalizing journal journal' s with
  | nil => rfl
  | cons x xs ih =>
    unfold runStatements
    split
    · rfl
    · exact ih _ _ _

end Walks

theorem andThen_result_eq_ok_iff {α β : Type} {r : Run α} {next : Array Record → α → Run β} {b : β} :
    (r.andThen next).result = .ok b ↔ ∃ a, r.result = .ok a ∧ (next r.journal a).result = .ok b := by
  rcases r with ⟨journal, _ | a⟩ <;> simp [Run.andThen]

/-- Each statement with the address in front of it. -/
def placed (pc : Nat) : List Statement → List (Statement × Nat)
  | [] => []
  | s :: ss => (s, pc) :: placed (pc + s.assumedLength) ss

/-- The sum of the lengths of the first `i` statements. -/
def addressAt (ss : List Statement) (i : Nat) : Nat := ((ss.take i).map Statement.assumedLength).sum

/-- The bytes that the first pass counts for the statements. -/
def codeLength (ss : List Statement) : Nat := (ss.map Statement.assumedLength).sum

theorem getElem?_placed (pc : Nat) (ss : List Statement) (i : Nat) :
    (placed pc ss)[i]? = ss[i]?.map (·, pc + addressAt ss i) := by
  induction ss generalizing pc i with
  | nil => simp [placed]
  | cons s ss ih =>
    cases i with
    | zero => simp [placed, addressAt]
    | succ i => simp [placed, addressAt, ih, Nat.add_assoc]

@[simp] theorem length_placed (pc : Nat) (ss : List Statement) : (placed pc ss).length = ss.length := by
  induction ss generalizing pc with
  | nil => rfl
  | cons s ss ih => simp [placed, ih]

theorem mem_placed_iff {pc a : Nat} {ss : List Statement} {s : Statement} :
    (s, a) ∈ placed pc ss ↔ ∃ i, ss[i]? = some s ∧ a = pc + addressAt ss i := by
  simp only [List.mem_iff_getElem?, getElem?_placed, Option.map_eq_some_iff, Prod.mk.injEq]
  grind

theorem placeStatement_eq_ok_iff {l m : Layout} {s : Statement} {records : List Record} :
    placeStatement l s = .ok (m, records) ↔
      (∃ name, s = .label name ∧ l.labels.define? name l.size = some m.labels ∧ m.size = l.size ∧
        records = [.label name l.size]) ∨
      (∃ mnemonic operands, s = .instruction mnemonic operands ∧ m.labels = l.labels ∧
        m.size = l.size + s.assumedLength ∧ records = []) := by
  rcases m with ⟨labels, size⟩
  cases s with
  | label name =>
    cases hd : l.labels.define? name l.size with
    | none => simp [placeStatement, hd]
    | some t =>
      simp only [placeStatement, hd, Statement.assumedLength, Nat.add_zero, Except.ok.injEq, Prod.mk.injEq,
        Layout.mk.injEq]
      grind
  | instruction mnemonic operands =>
    simp only [placeStatement, Except.ok.injEq, Prod.mk.injEq, Layout.mk.injEq]
    grind

theorem LabelTable.get?_eq_none_of_define? {t u : LabelTable} {name : Token} {address : Nat}
    (h : t.define? name address = some u) : t.get? name = none := by
  cases hg : t.get? name with
  | none => rfl
  | some v =>
    have hn : t.define? name address = none := define?_eq_none_iff.mpr (by simp [hg])
    simp [h] at hn

theorem LabelTable.exists_define? {t : LabelTable} {name : Token} (h : t.get? name = none) (address : Nat) :
    ∃ u, t.define? name address = some u := by
  cases hd : t.define? name address with
  | none => simpa [h] using define?_eq_none_iff.mp hd
  | some u => exact ⟨u, rfl⟩

theorem LabelTable.mem_toList_iff {t : LabelTable} {name : Token} {v : UInt8} :
    (name, v) ∈ t.toList ↔ t.get? name = some v := Std.TreeMap.mem_toList_iff_getElem?_eq_some

def Statement.labelName? : Statement → Option Token
  | .label name => some name
  | .instruction .. => none

/-- The names that are defined, in order. -/
def labelNames (ss : List Statement) : List Token := ss.filterMap Statement.labelName?

@[simp] theorem labelNames_nil : labelNames [] = [] := rfl

@[simp] theorem labelNames_label (name : Token) (ss : List Statement) :
    labelNames (.label name :: ss) = name :: labelNames ss := rfl

@[simp] theorem labelNames_instruction (mnemonic : Token) (operands : List Token) (ss : List Statement) :
    labelNames (.instruction mnemonic operands :: ss) = labelNames ss := rfl

theorem labelNames_append (ss ts : List Statement) : labelNames (ss ++ ts) = labelNames ss ++ labelNames ts :=
  List.filterMap_append

theorem mem_labelNames_iff {name : Token} {ss : List Statement} : name ∈ labelNames ss ↔ .label name ∈ ss := by
  rw [labelNames, List.mem_filterMap]
  constructor
  · rintro ⟨_ | _, hs, hname⟩
    · cases hname
      exact hs
    · cases hname
  · exact fun h => ⟨_, h, rfl⟩

/-- The first pass keeps the labels it has, and adds each new one with the address in front of its definition. -/
theorem Walk.get?_place {l m : Layout} {ss : List Statement} {records : List Record}
    (h : Walk placeStatement l ss records m) (name : Token) (v : UInt8) :
    m.labels.get? name = some v ↔
      l.labels.get? name = some v ∨ ∃ a, (.label name, a) ∈ placed l.size ss ∧ v = Address.wrap a := by
  induction h with
  | nil l => simp [placed]
  | @cons l m n s ss _ _ first rest ih =>
    rw [ih]
    rcases placeStatement_eq_ok_iff.mp first with ⟨defined, rfl, hd, hsize, -⟩ | ⟨mnemonic, operands, rfl, hl, hsize, -⟩
    · have hnone := LabelTable.get?_eq_none_of_define? hd
      rw [LabelTable.get?_of_define? hd, hsize]
      by_cases he : defined = name
      · subst he
        simp [placed, hnone, Statement.assumedLength, eq_comm]
      · simp [placed, he, Statement.assumedLength, Ne.symm he]
    · simp [placed, hl, hsize]

/-- The names known at the end of a first pass are those that the statements define. -/
theorem Walk.isSome_get?_place {ss : List Statement} {records : List Record} {m : Layout}
    (h : Walk placeStatement ⟨.empty, 0⟩ ss records m) (name : Token) :
    (m.labels.get? name).isSome ↔ name ∈ labelNames ss := by
  simp only [Option.isSome_iff_exists, h.get?_place, LabelTable.get?_empty, reduceCtorEq, false_or, mem_labelNames_iff,
    mem_placed_iff]
  rw [List.mem_iff_getElem?]
  constructor
  · rintro ⟨v, a, ⟨i, hi, -⟩, -⟩
    exact ⟨i, hi⟩
  · rintro ⟨i, hi⟩
    exact ⟨_, _, ⟨i, hi, rfl⟩, rfl⟩

theorem LabelTable.get?_eq_none_iff_of_define? {t u : LabelTable} {name : Token} {address : Nat}
    (h : t.define? name address = some u) (other : Token) :
    u.get? other = none ↔ name ≠ other ∧ t.get? other = none := by
  rw [get?_of_define? h]
  split <;> simp_all

theorem Walk.nodup_place {l m : Layout} {ss : List Statement} {records : List Record}
    (h : Walk placeStatement l ss records m) :
    (labelNames ss).Nodup ∧ ∀ name ∈ labelNames ss, l.labels.get? name = none := by
  induction h with
  | nil l => simp [labelNames]
  | cons first rest ih =>
    obtain ⟨hnodup, hnew⟩ := ih
    rcases placeStatement_eq_ok_iff.mp first with ⟨name, rfl, hd, -, -⟩ | ⟨mnemonic, operands, rfl, hl, -, -⟩
    · simp only [LabelTable.get?_eq_none_iff_of_define? hd] at hnew
      rw [labelNames_label, List.nodup_cons, List.forall_mem_cons]
      have hnot : name ∉ labelNames _ := fun hm => (hnew name hm).1 rfl
      exact ⟨⟨hnot, hnodup⟩, LabelTable.get?_eq_none_of_define? hd, fun other ho => (hnew other ho).2⟩
    · exact ⟨hnodup, hl ▸ hnew⟩

theorem exists_walk_place (l : Layout) (ss : List Statement) (hnodup : (labelNames ss).Nodup)
    (hnew : ∀ name ∈ labelNames ss, l.labels.get? name = none) : ∃ records m, Walk placeStatement l ss records m := by
  induction ss generalizing l with
  | nil => exact ⟨[], l, .nil l⟩
  | cons s ss ih =>
    cases s with
    | label name =>
      rw [labelNames_label, List.nodup_cons] at hnodup
      rw [labelNames_label, List.forall_mem_cons] at hnew
      obtain ⟨labels, hd⟩ := LabelTable.exists_define? hnew.1 l.size
      have hfirst : placeStatement l (.label name) = .ok (⟨labels, l.size⟩, [.label name l.size]) :=
        placeStatement_eq_ok_iff.mpr (.inl ⟨name, rfl, hd, rfl, rfl⟩)
      have hrest : ∀ other ∈ labelNames ss, labels.get? other = none := by
        intro other ho
        have hne : name ≠ other := fun he => hnodup.1 (he ▸ ho)
        exact (LabelTable.get?_eq_none_iff_of_define? hd other).mpr ⟨hne, hnew.2 other ho⟩
      obtain ⟨records, m, hw⟩ := ih ⟨labels, l.size⟩ hnodup.2 hrest
      exact ⟨_, m, .cons hfirst hw⟩
    | instruction mnemonic operands =>
      let next : Layout := ⟨l.labels, l.size + (Statement.instruction mnemonic operands).assumedLength⟩
      obtain ⟨records, m, hw⟩ := ih next hnodup hnew
      exact ⟨_, m, .cons rfl hw⟩

theorem resolve_eq_ok_iff {ss : List (Located Statement)} {t : LabelTable} :
    resolve ss = .ok t ↔ ∃ records m, Walk placeStatement ⟨.empty, 0⟩ (values ss) records m ∧ m.labels = t := by
  simp only [resolve, resolveRun, andThen_result_eq_ok_iff, runStatements_eq_ok_iff, Except.ok.injEq]
  grind

theorem exists_resolve_iff {ss : List (Located Statement)} :
    (∃ t, resolve ss = .ok t) ↔ (labelNames (values ss)).Nodup := by
  simp only [resolve_eq_ok_iff]
  constructor
  · rintro ⟨t, records, m, hw, -⟩
    exact hw.nodup_place.1
  · intro h
    obtain ⟨records, m, hw⟩ := exists_walk_place ⟨.empty, 0⟩ (values ss) h fun name _ => LabelTable.get?_empty name
    exact ⟨m.labels, records, m, hw, rfl⟩

/-- Labels are placed at the addresses in front of their definitions, and no other name is a label. -/
theorem get?_of_resolve {ss : List (Located Statement)} {t : LabelTable} (h : resolve ss = .ok t) (name : Token)
    (v : UInt8) : t.get? name = some v ↔ ∃ a, (.label name, a) ∈ placed 0 (values ss) ∧ v = Address.wrap a := by
  obtain ⟨records, m, hw, rfl⟩ := resolve_eq_ok_iff.mp h
  simpa using hw.get?_place name v

theorem isSome_get?_of_resolve {ss : List (Located Statement)} {t : LabelTable} (h : resolve ss = .ok t) (name : Token) :
    (t.get? name).isSome ↔ name ∈ labelNames (values ss) := by
  obtain ⟨records, m, hw, rfl⟩ := resolve_eq_ok_iff.mp h
  exact hw.isSome_get?_place name

theorem get?_of_getElem? {ss : List (Located Statement)} {t : LabelTable} (h : resolve ss = .ok t) {i : Nat}
    {name : Token} (hi : (values ss)[i]? = some (.label name)) :
    t.get? name = some (UInt8.ofNat (addressAt (values ss) i)) :=
  (get?_of_resolve h name _).mpr ⟨_, mem_placed_iff.mpr ⟨i, hi, rfl⟩, by simp [Address.wrap]⟩

theorem get?_eq_none {ss : List (Located Statement)} {t : LabelTable} (h : resolve ss = .ok t) {name : Token}
    (hn : .label name ∉ values ss) : t.get? name = none := by
  rwa [← Option.not_isSome_iff_eq_none, isSome_get?_of_resolve h, mem_labelNames_iff]

/-- The bytes of a statement at an address. -/
def Statement.encode (labels : LabelTable) (pc : Nat) : Statement → Except Fault (List UInt8)
  | .label _ => .ok []
  | .instruction mnemonic operands => ByteMachine.encode labels pc mnemonic operands

theorem Statement.length_of_encode {labels : LabelTable} {pc : Nat} {s : Statement} {bytes : List UInt8}
    (h : s.encode labels pc = .ok bytes) : bytes.length = s.assumedLength := by
  cases s with
  | label name =>
    cases h
    rfl
  | instruction mnemonic operands => exact ByteMachine.length_of_encode h

theorem size_append_list (program : Array UInt8) (bytes : List UInt8) :
    (program ++ bytes).size = program.size + bytes.length := by
  rw [← Array.length_toList, Array.toList_appendList, List.length_append, Array.length_toList]

theorem size_append_of_encode {labels : LabelTable} {program : Array UInt8} {pc : Nat} {s : Statement}
    {bytes : List UInt8} (h : s.encode labels pc = .ok bytes) :
    (program ++ bytes).size = program.size + s.assumedLength := by
  rw [size_append_list, Statement.length_of_encode h]

/-- What is recorded of a statement with these bytes. -/
def Statement.records (pc : Nat) (bytes : List UInt8) : Statement → List Record
  | .label _ => []
  | .instruction mnemonic _ => [.encoded pc mnemonic bytes]

/-- The second pass never finds a length that differs from the one the first pass assumed, so it does what it would do
without looking. -/
theorem emitStatement_eq_map (labels : LabelTable) (program : Array UInt8) (s : Statement) :
    emitStatement labels program s = (s.encode labels program.size).map fun (bytes : List UInt8) =>
      (program ++ bytes, s.records program.size bytes) := by
  cases s with
  | label name => simp [emitStatement, Statement.encode, Statement.records, Except.map]
  | instruction mnemonic operands =>
    rw [emitStatement, Statement.encode]
    cases he : encode labels program.size mnemonic operands with
    | error fault => rfl
    | ok bytes =>
      have hlength : bytes.length = (Statement.instruction mnemonic operands).assumedLength := length_of_encode he
      exact if_pos hlength

theorem emitStatement_eq_ok {labels : LabelTable} {program : Array UInt8} {s : Statement} {bytes : List UInt8}
    (h : s.encode labels program.size = .ok bytes) :
    emitStatement labels program s = .ok (program ++ bytes, s.records program.size bytes) := by
  rw [emitStatement_eq_map, h]
  rfl

theorem exists_encode_of_emitStatement {labels : LabelTable} {program next : Array UInt8} {s : Statement}
    {records : List Record} (h : emitStatement labels program s = .ok (next, records)) :
    ∃ bytes, s.encode labels program.size = .ok bytes ∧ next = program ++ bytes ∧
      records = s.records program.size bytes := by
  rw [emitStatement_eq_map] at h
  obtain ⟨bytes, hbytes, hnext⟩ := map_eq_ok_iff.mp h
  cases hnext
  exact ⟨bytes, hbytes, rfl, rfl⟩

/-- The bytes of placed statements, one chunk for each. -/
def Chunks (labels : LabelTable) (xs : List (Statement × Nat)) (chunks : List (List UInt8)) : Prop :=
  List.Forall₂ (fun x bytes => x.1.encode labels x.2 = .ok bytes) xs chunks

theorem Walk.exists_chunks {labels : LabelTable} {program next : Array UInt8} {ss : List Statement}
    {records : List Record} (h : Walk (emitStatement labels) program ss records next) :
    ∃ chunks, Chunks labels (placed program.size ss) chunks ∧ next.toList = program.toList ++ chunks.flatten := by
  induction h with
  | nil program => exact ⟨[], .nil, by simp⟩
  | @cons program _ next s ss _ _ first rest ih =>
    obtain ⟨bytes, hs, rfl, -⟩ := exists_encode_of_emitStatement first
    obtain ⟨chunks, hc, hn⟩ := ih
    rw [size_append_of_encode hs] at hc
    exact ⟨bytes :: chunks, .cons hs hc, by simpa using hn⟩

theorem Chunks.exists_walk {labels : LabelTable} (program : Array UInt8) {ss : List Statement}
    {chunks : List (List UInt8)} (h : Chunks labels (placed program.size ss) chunks) :
    ∃ records next, Walk (emitStatement labels) program ss records next ∧
      next.toList = program.toList ++ chunks.flatten := by
  induction ss generalizing program chunks with
  | nil =>
    cases h
    exact ⟨[], program, .nil program, by simp⟩
  | cons s ss ih =>
    obtain _ | @⟨_, bytes, _, chunks, hs, hrest⟩ := h
    have first := emitStatement_eq_ok hs
    rw [← size_append_of_encode hs] at hrest
    obtain ⟨more, next, hw, hn⟩ := ih _ hrest
    exact ⟨_, next, .cons first hw, by simpa using hn⟩

theorem generateRun_result (labels : LabelTable) (journal : Array Record) (ss : List (Located Statement)) :
    (generateRun labels journal ss).result = generate labels ss := by
  have h : (runStatements (emitStatement labels) journal #[] ss).result =
      (runStatements (emitStatement labels) #[] #[] ss).result := result_runStatements journal #[] #[] ss
  unfold generate generateRun Run.andThen
  rw [h]
  split <;> rfl

/-- The second pass emits one chunk for each statement, encoded at the address where the first pass has it. -/
theorem generate_eq_ok_iff {labels : LabelTable} {ss : List (Located Statement)} {program : List UInt8} :
    generate labels ss = .ok program ↔
      ∃ chunks, Chunks labels (placed 0 (values ss)) chunks ∧ chunks.flatten = program := by
  simp only [generate, generateRun, andThen_result_eq_ok_iff, runStatements_eq_ok_iff, Except.ok.injEq]
  constructor
  · rintro ⟨next, ⟨records, hw⟩, rfl⟩
    obtain ⟨chunks, hc, hn⟩ := hw.exists_chunks
    exact ⟨chunks, hc, by simpa using hn.symm⟩
  · rintro ⟨chunks, hc, rfl⟩
    obtain ⟨records, next, hw, hn⟩ := Chunks.exists_walk #[] hc
    exact ⟨next, ⟨records, hw⟩, by simpa using hn⟩

theorem assemble_eq_ok_iff {source : List Char} {program : List UInt8} : assemble source = .ok program ↔
    ∃ ss labels, statements source = .ok ss ∧ resolve ss = .ok labels ∧ generate labels ss = .ok program := by
  unfold assemble assembleRun
  cases hs : statements source with
  | error e => simp
  | ok ss =>
    simp only [andThen_result_eq_ok_iff, generateRun_result, resolve, Except.ok.injEq, existsAndEq, and_true, true_and]

theorem assemble_eq_ok_iff_chunks {source : List Char} {ss : List (Located Statement)} {labels : LabelTable}
    (hs : statements source = .ok ss) (hl : resolve ss = .ok labels) {program : List UInt8} :
    assemble source = .ok program ↔
      ∃ chunks, Chunks labels (placed 0 (values ss)) chunks ∧ chunks.flatten = program := by
  simp [assemble_eq_ok_iff, hs, hl, generate_eq_ok_iff]

end ByteMachine
