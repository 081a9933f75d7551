import ByteMachine.Proofs.ByteOrder
import ByteMachine.Proofs.Journals

/-! # Label maps: what the first pass computes of any statements

The names of the statements need not be identifiers here, and there may be any number of them at one address. -/
namespace ByteMachine

open Text

namespace LabelTable

theorem mem_names_iff {t : LabelTable} {name : Token} : name ∈ t.toList.map Prod.fst ↔ (t.get? name).isSome := by
  simp [mem_toList_iff, Option.isSome_iff_exists]

theorem pairwise_toList (t : LabelTable) : t.toList.Pairwise fun x y => utf8 x.1 < utf8 y.1 := by
  refine Std.TreeMap.ordered_keys_toList.imp ?_
  intro x y h
  exact utf8_lt_utf8_iff.mpr (compare_eq_lt_iff.mp h)

theorem size_empty : empty.size = 0 := Std.TreeMap.size_emptyc

end LabelTable

/-- The table has a name for each label that the statements define, with the bytes counted in front of it, and no other
name. Listed, the names are in the order of their bytes. -/
structure IsLabelMap (ss : List Statement) (t : LabelTable) : Prop where
  names : ∀ name, name ∈ t.toList.map Prod.fst ↔ .label name ∈ ss
  size_eq : t.size = (labelNames ss).length
  increasing : t.toList.Pairwise fun x y => utf8 x.1 < utf8 y.1
  mem_toList : ∀ name v, (name, v) ∈ t.toList ↔ t.get? name = some v
  address : ∀ i name, ss[i]? = some (.label name) → (t.get? name).map UInt8.toNat = some (addressAt ss i % 256)
  other : ∀ name, .label name ∉ ss → t.get? name = none

theorem size_of_resolve {ss : List (Located Statement)} {t : LabelTable} (h : resolve ss = .ok t) :
    t.size = (labelNames (values ss)).length := by
  obtain ⟨records, m, hw, rfl⟩ := resolve_eq_ok_iff.mp h
  rw [hw.records_place.2.1, LabelTable.size_empty, Nat.zero_add]

theorem isLabelMap_of_resolve {ss : List (Located Statement)} {t : LabelTable} (h : resolve ss = .ok t) :
    IsLabelMap (values ss) t where
  names name := by rw [LabelTable.mem_names_iff, isSome_get?_of_resolve h, mem_labelNames_iff]
  size_eq := size_of_resolve h
  increasing := t.pairwise_toList
  mem_toList _ _ := LabelTable.mem_toList_iff
  address i name hi := by
    rw [get?_of_getElem? h hi, Option.map_some, UInt8.toNat_ofNat']
  other _ hn := get?_eq_none h hn

/-- Statement `i` defines a name that a statement before it defines. -/
def Repeats (ss : List Statement) (i : Nat) : Prop :=
  ∃ name j, j < i ∧ ss[j]? = some (.label name) ∧ ss[i]? = some (.label name)

/-- Statement `i` is `x`, which defines `name`, and it is the first to define a name again. -/
structure FirstRepeat (ss : List (Located Statement)) (i : Nat) (x : Located Statement) (name : Token) : Prop where
  here : ss[i]? = some x
  defines : x.value = .label name
  repeats : Repeats (values ss) i
  earlier : ∀ k < i, ¬ Repeats (values ss) k

theorem repeats_iff {ss : List Statement} {i : Nat} :
    Repeats ss i ↔ ∃ name, ss[i]? = some (.label name) ∧ name ∈ labelNames (ss.take i) := by
  simp only [Repeats, mem_labelNames_iff]
  simp only [List.mem_iff_getElem?, List.getElem?_take]
  constructor
  · rintro ⟨name, j, hlt, hj, hi⟩
    exact ⟨name, hi, j, by rw [if_pos hlt, hj]⟩
  · rintro ⟨name, hi, j, hj⟩
    split at hj
    · exact ⟨name, j, ‹_›, hj, hi⟩
    · cases hj

theorem nodup_take_succ_iff {ss : List Statement} {i : Nat} :
    (labelNames (ss.take (i + 1))).Nodup ↔ (labelNames (ss.take i)).Nodup ∧ ¬ Repeats ss i := by
  rw [repeats_iff, List.take_add_one, labelNames_append]
  cases ss[i]? with
  | none => simp
  | some s =>
    rw [Option.toList_some, List.nodup_append_comm]
    cases s with
    | label name => simp [and_comm]
    | instruction mnemonic operands => simp

theorem nodup_take_iff {ss : List Statement} {i : Nat} :
    (labelNames (ss.take i)).Nodup ↔ ∀ k < i, ¬ Repeats ss k := by
  induction i with
  | zero => simp [labelNames]
  | succ i ih =>
    rw [nodup_take_succ_iff, ih]
    grind

/-- The first pass fails at the first statement that defines a name again, and nowhere else. -/
theorem resolve_eq_error_iff_firstRepeat {ss : List (Located Statement)} {e : SourceError} : resolve ss = .error e ↔
    ∃ i x name, FirstRepeat ss i x name ∧ e = ⟨some x.position, .duplicateLabel name⟩ := by
  rw [resolve_eq_error_iff]
  constructor
  · rintro ⟨before, x, after, rfl, hnodup, name, hx, hmem, rfl⟩
    have htake : (values (before ++ x :: after)).take before.length = values before := by simp
    refine ⟨before.length, x, name, ⟨by simp, hx, ?_, ?_⟩, rfl⟩
    · exact repeats_iff.mpr ⟨name, by simp [hx], htake.symm ▸ hmem⟩
    · exact nodup_take_iff.mp (htake.symm ▸ hnodup)
  · rintro ⟨i, x, name, h, rfl⟩
    obtain ⟨hi, hx⟩ := List.getElem?_eq_some_iff.mp h.here
    obtain ⟨other, hother, hmem⟩ := repeats_iff.mp h.repeats
    have hname : name = other := by simpa [h.here, h.defines] using hother
    refine ⟨ss.take i, x, ss.drop (i + 1), ?_, ?_, name, h.defines, ?_, rfl⟩
    · rw [← hx, List.getElem_cons_drop, List.take_append_drop]
    · rw [values, List.map_take]
      exact nodup_take_iff.mpr h.earlier
    · rwa [values, List.map_take, hname]

theorem labelNames_of_instruction {before after : List (Located Statement)} {x : Located Statement} {mnemonic : Token}
    {operands : List Token} (hx : x.value = .instruction mnemonic operands) :
    labelNames (values (before ++ x :: after)) = labelNames (values (before ++ after)) := by
  rw [values, values, List.map_append, List.map_append, List.map_cons, hx, labelNames_append, labelNames_append,
    labelNames_instruction]

/-- The first pass gives a table if and only if no name is defined twice, and then the table is the label map of the
statements. Otherwise it fails at the first statement that defines a name again. An instruction that does not exist
counts for two bytes and makes no difference to whether there is a table. -/
theorem first_pass_computes_label_map (ss : List (Located Statement)) :
    ((∃ t, resolve ss = .ok t) ↔ (labelNames (values ss)).Nodup) ∧
    (∀ t, resolve ss = .ok t → IsLabelMap (values ss) t) ∧
    (¬ (labelNames (values ss)).Nodup → ∃ i x name, FirstRepeat ss i x name ∧
      resolve ss = .error ⟨some x.position, .duplicateLabel name⟩) ∧
    (∀ e, resolve ss = .error e → ∃ i x name, FirstRepeat ss i x name ∧
      e = ⟨some x.position, .duplicateLabel name⟩) ∧
    (∀ mnemonic operands, (∀ op : Opcode, Opcode.upperCase mnemonic ≠ op.name) →
      (Statement.instruction mnemonic operands).assumedLength = 2) ∧
    ∀ before x after mnemonic operands, ss = before ++ x :: after → x.value = .instruction mnemonic operands →
      ((∃ t, resolve ss = .ok t) ↔ ∃ t, resolve (before ++ after) = .ok t) := by
  refine ⟨exists_resolve_iff, fun _ => isLabelMap_of_resolve, ?_, fun _ => resolve_eq_error_iff_firstRepeat.mp, ?_, ?_⟩
  · intro hrepeated
    cases hr : resolve ss with
    | ok t => exact absurd (exists_resolve_iff.mp ⟨t, hr⟩) hrepeated
    | error e =>
      obtain ⟨i, x, name, hfirst, rfl⟩ := resolve_eq_error_iff_firstRepeat.mp hr
      exact ⟨i, x, name, hfirst, rfl⟩
  · intro mnemonic operands hunknown
    rw [Statement.assumedLength, Opcode.assumedLength_eq, if_neg (hunknown .nop)]
  · rintro before x after mnemonic operands rfl hx
    rw [exists_resolve_iff, exists_resolve_iff, labelNames_of_instruction hx]

/-- Behind 256 bytes of instructions that do not exist the addresses start again. The last two names would change places
in UTF-16. Of two names that are defined again, the one whose second definition comes first is told. -/
theorem labels_behind_a_page_and_a_repeat :
    let unknown := List.replicate 128 (Statement.instruction "FOO".toList ["x".toList])
    let ss := numbered (.label "𝒳".toList :: unknown ++
      [.label "～".toList, .label "é".toList, .instruction "nop".toList [], .label "z".toList])
    let rs := numbered [.label "a".toList, .label "b".toList, .instruction "b".toList [], .label "b".toList,
      .label "a".toList]
    (∃ t, resolve ss = .ok t ∧ IsLabelMap (values ss) t ∧
      t.toList = [("z".toList, 1), ("é".toList, 0), ("～".toList, 0), ("𝒳".toList, 0)]) ∧
    ∃ i x name, FirstRepeat rs i x name ∧ x.position = ⟨4, 1⟩ ∧ name = "b".toList := by
  intro unknown ss rs
  constructor
  · obtain ⟨t, ht⟩ := (first_pass_computes_label_map ss).1.mpr (by decide +kernel)
    have hlist : (resolve ss).map LabelTable.toList =
        .ok [("z".toList, 1), ("é".toList, 0), ("～".toList, 0), ("𝒳".toList, 0)] := by decide +kernel
    rw [ht] at hlist
    exact ⟨t, ht, (first_pass_computes_label_map ss).2.1 t ht, Except.ok.inj hlist⟩
  · have hr : resolve rs = .error ⟨some ⟨4, 1⟩, .duplicateLabel "b".toList⟩ := rfl
    obtain ⟨i, x, name, hfirst, he⟩ := (first_pass_computes_label_map rs).2.2.2.1 _ hr
    simp only [SourceError.mk.injEq, Option.some.injEq, Fault.duplicateLabel.injEq] at he
    exact ⟨i, x, name, hfirst, he.1.symm, he.2.symm⟩

end ByteMachine
