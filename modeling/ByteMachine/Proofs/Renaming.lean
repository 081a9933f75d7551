import ByteMachine.Proofs.JoinedSources

/-! # Renaming: labels may be called anything, also like a register or a mnemonic

A word is a label only where a value stands. There a new name cannot be taken for a numeral, and no numeral can be
taken for a new name, so the bytes do not change. -/
namespace ByteMachine

open Text

section Words

variable (names : List Token) (ρ : Token → Token)

/-- A word where a value stands, under new names for the labels in `names`. -/
def renameWord (w : Token) : Token := if w ∈ names then ρ w else w

/-- A memory operand under new names, with its brackets if it has them. -/
def renameCell (a : Token) : Token :=
  if a.head? = some '[' ∧ a.getLast? = some ']' then '[' :: renameWord names ρ (a.drop 1).dropLast ++ [']']
  else renameWord names ρ a

/-- Operands under new names. Registers are not labels. -/
def renameOperands : Opcode → List Token → List Token
  | .ldi, [rd, v] => [rd, renameWord names ρ v]
  | .ld, [rd, a] => [rd, renameCell names ρ a]
  | .st, [rd, a] => [rd, renameCell names ρ a]
  | .jmp, [t] => [renameWord names ρ t]
  | .brz, [t] => [renameWord names ρ t]
  | _, operands => operands

def Statement.rename : Statement → Statement
  | .label name => .label (ρ name)
  | .instruction mnemonic operands =>
    match Opcode.ofName? mnemonic with
    | some op => .instruction mnemonic (renameOperands names ρ op operands)
    | none => .instruction mnemonic operands

end Words

/-- Statements under new names for the labels that they define. -/
def renameLabels (ρ : Token → Token) (ss : List (Located Statement)) : List (Located Statement) :=
  ss.map fun s => ⟨s.position, s.value.rename (labelNames (values ss)) ρ⟩

/-- New names are identifiers, and no two labels get the same. -/
structure NewNames (names : List Token) (ρ : Token → Token) : Prop where
  identifier : ∀ name ∈ names, isIdentifier (ρ name) = true
  injective : ∀ name ∈ names, ∀ other ∈ names, ρ name = ρ other → name = other

/-- The same addresses under the new names, and no others. -/
structure RenamedTable (ρ : Token → Token) (labels labels' : LabelTable) : Prop where
  get?_eq_some_iff : ∀ name v, labels'.get? name = some v ↔ ∃ old, labels.get? old = some v ∧ ρ old = name
  entries : labels'.toList.Perm (labels.toList.map fun e => (ρ e.1, e.2))

theorem LabelTable.nodup_toList (t : LabelTable) : t.toList.Nodup := by
  refine (Std.TreeMap.distinct_keys_toList (t := t.addresses)).imp ?_
  rintro e _ hne rfl
  exact hne Std.ReflCmp.compare_self

section Values

variable {names : List Token} {ρ : Token → Token} {labels labels' : LabelTable}

theorem renameWord_of_mem {w : Token} (h : w ∈ names) : renameWord names ρ w = ρ w := if_pos h

theorem renameWord_of_notMem {w : Token} (h : w ∉ names) : renameWord names ρ w = w := if_neg h

theorem renameCell_bracketed (inner : Token) :
    renameCell names ρ ('[' :: inner ++ [']']) = '[' :: renameWord names ρ inner ++ [']'] := by
  have hlast : ('[' :: inner ++ [']']).getLast? = some ']' := List.getLast?_concat
  rw [renameCell, if_pos ⟨rfl, hlast⟩]
  simp

theorem renameCell_of_not_isBracket {inner : Token} (h : ∀ c ∈ inner, isBracket c = false) :
    renameCell names ρ inner = renameWord names ρ inner := by
  apply if_neg
  rintro ⟨hhead, -⟩
  have hb := h '[' (List.mem_of_head? hhead)
  simp [isBracket] at hb

/-- What the labels before and after a renaming have to do with each other. -/
structure Renames (names : List Token) (ρ : Token → Token) (labels labels' : LabelTable) : Prop where
  newNames : NewNames names ρ
  defined : ∀ w, (labels.get? w).isSome ↔ w ∈ names
  renamed : ∀ name v, labels'.get? name = some v ↔ ∃ old, labels.get? old = some v ∧ ρ old = name

/-- A numeral is no new name. -/
theorem Renames.get?_eq_none (h : Renames names ρ labels labels') {w : Token} {v : UInt8} (hw : numeral? w = some v) :
    labels'.get? w = none := by
  apply Option.eq_none_iff_forall_ne_some.mpr
  intro u hu
  obtain ⟨old, hold, rfl⟩ := (h.renamed w u).mp hu
  have hid := h.newNames.identifier old ((h.defined old).mp (by simp [hold]))
  simp [numeral?_eq_none_of_isIdentifier hid] at hw

theorem Renames.valueOf_eq (h : Renames names ρ labels labels') {w : Token} {v : UInt8}
    (hv : valueOf labels w = .ok v) : valueOf labels' (renameWord names ρ w) = .ok v := by
  rw [valueOf_eq_ok_iff] at hv
  cases hl : labels.get? w with
  | some u =>
    obtain rfl : u = v := by simpa [hl] using hv
    rw [renameWord_of_mem ((h.defined w).mp (by simp [hl]))]
    exact valueOf_of_get? ((h.renamed _ u).mpr ⟨w, hl, rfl⟩)
  | none =>
    have hn : numeral? w = some v := by simpa [hl] using hv
    have hnot : w ∉ names := by
      intro hw
      simpa [hl] using (h.defined w).mpr hw
    rw [renameWord_of_notMem hnot, valueOf_eq_ok_iff, h.get?_eq_none hn, hn]
    rfl

theorem NewNames.plain_renameWord (h : NewNames names ρ) {w : Token} (hne : w ≠ [])
    (hb : ∀ c ∈ w, isBracket c = false) :
    renameWord names ρ w ≠ [] ∧ ∀ c ∈ renameWord names ρ w, isBracket c = false := by
  by_cases hw : w ∈ names
  · rw [renameWord_of_mem hw]
    exact ⟨ne_nil_of_isIdentifier (h.identifier w hw), not_isBracket_of_isIdentifier (h.identifier w hw)⟩
  · rw [renameWord_of_notMem hw]
    exact ⟨hne, hb⟩

theorem Renames.cellOf_eq (h : Renames names ρ labels labels') {op : Opcode} {a : Token} {v : UInt8}
    (hv : cellOf labels op a = .ok v) : cellOf labels' op (renameCell names ρ a) = .ok v := by
  obtain ⟨inner, hinner, hvalue⟩ := cellOf_eq_ok_iff.mp hv
  obtain ⟨hne, hb, ha⟩ := unbracket?_eq_some_iff.mp hinner
  obtain ⟨hne', hb'⟩ := h.newNames.plain_renameWord hne hb
  refine cellOf_eq_ok_iff.mpr ⟨renameWord names ρ inner, ?_, h.valueOf_eq hvalue⟩
  obtain rfl | rfl := ha
  · rw [renameCell_of_not_isBracket hb]
    exact unbracket?_of_not_isBracket hne' hb'
  · rw [renameCell_bracketed]
    exact unbracket?_bracketed hne' hb'

/-- Renamed operands are read as the same instruction. -/
theorem Reads.rename (h : Renames names ρ labels labels') {op : Opcode} {operands : List Token} {i : Instruction}
    (hi : Reads labels op operands i) : Reads labels' op (renameOperands names ρ op operands) i := by
  cases hi with
  | nop => exact .nop
  | ldi register value => exact .ldi register (h.valueOf_eq value)
  | alu first second => exact .alu first second
  | ld register cell => exact .ld register (h.cellOf_eq cell)
  | st register cell => exact .st register (h.cellOf_eq cell)
  | jmp target => exact .jmp (h.valueOf_eq target)
  | brz target => exact .brz (h.valueOf_eq target)

theorem Statement.encode_rename (h : Renames names ρ labels labels') {s : Statement} {pc : Nat} {bytes : List UInt8}
    (hs : s.encode labels pc = .ok bytes) : (s.rename names ρ).encode labels' pc = .ok bytes := by
  cases s with
  | label name => exact hs
  | instruction mnemonic operands =>
    obtain ⟨op, i, hop, hi, rfl⟩ := encode_eq_ok_iff.mp hs
    rw [Statement.rename, hop]
    exact encode_eq_ok_iff.mpr ⟨op, i, hop, hi.rename h, rfl⟩

end Values

section Places

variable (names : List Token) (ρ : Token → Token)

theorem Statement.assumedLength_rename (s : Statement) : (s.rename names ρ).assumedLength = s.assumedLength := by
  cases s with
  | label name => rfl
  | instruction mnemonic operands => cases hop : Opcode.ofName? mnemonic <;> simp [rename, hop, assumedLength]

theorem Statement.labelName?_rename (s : Statement) : (s.rename names ρ).labelName? = s.labelName?.map ρ := by
  cases s with
  | label name => rfl
  | instruction mnemonic operands => cases hop : Opcode.ofName? mnemonic <;> simp [rename, hop, labelName?]

theorem labelNames_rename (ss : List Statement) :
    labelNames (ss.map (Statement.rename names ρ)) = (labelNames ss).map ρ := by
  rw [labelNames, labelNames, List.filterMap_map, List.map_filterMap]
  congr
  funext s
  exact s.labelName?_rename names ρ

/-- Every statement stays where it is. -/
theorem placed_rename (pc : Nat) (ss : List Statement) :
    placed pc (ss.map (Statement.rename names ρ)) = (placed pc ss).map fun x => (x.1.rename names ρ, x.2) := by
  induction ss generalizing pc with
  | nil => rfl
  | cons s ss ih => simp only [List.map_cons, placed, Statement.assumedLength_rename, ih]

theorem mem_placed_rename_iff {pc a : Nat} {ss : List Statement} {name : Token} :
    (.label name, a) ∈ placed pc (ss.map (Statement.rename names ρ)) ↔
      ∃ old, (.label old, a) ∈ placed pc ss ∧ ρ old = name := by
  rw [placed_rename, List.mem_map]
  constructor
  · rintro ⟨⟨s, b⟩, hmem, he⟩
    obtain ⟨hs, rfl⟩ := Prod.mk.inj he
    have hname := s.labelName?_rename names ρ
    rw [hs] at hname
    obtain ⟨old, hold, rfl⟩ := Option.map_eq_some_iff.mp hname.symm
    cases s with
    | label given =>
      cases hold
      exact ⟨old, hmem, rfl⟩
    | instruction mnemonic operands => cases hold
  · rintro ⟨old, hmem, rfl⟩
    exact ⟨_, hmem, rfl⟩

end Places

theorem values_renameLabels (ρ : Token → Token) (ss : List (Located Statement)) :
    values (renameLabels ρ ss) = (values ss).map (Statement.rename (labelNames (values ss)) ρ) := by
  simp [renameLabels]

theorem Chunks.rename {names : List Token} {ρ : Token → Token} {labels labels' : LabelTable}
    (h : Renames names ρ labels labels') {pc : Nat} {ss : List Statement} {chunks : List (List UInt8)}
    (hc : Chunks labels (placed pc ss) chunks) :
    Chunks labels' (placed pc (ss.map (Statement.rename names ρ))) chunks := by
  rw [placed_rename, Chunks, List.forall₂_map_left_iff]
  exact List.Forall₂.imp (fun _ _ hs => Statement.encode_rename h hs) hc

/-- Distinct names stay distinct, so the labels can be placed again, at the same addresses. -/
theorem exists_resolve_renameLabels {ss : List (Located Statement)} {labels : LabelTable} {ρ : Token → Token}
    (hl : resolve ss = .ok labels) (hρ : NewNames (labelNames (values ss)) ρ) :
    ∃ labels', resolve (renameLabels ρ ss) = .ok labels' ∧ Renames (labelNames (values ss)) ρ labels labels' := by
  have hnodup : (labelNames (values (renameLabels ρ ss))).Nodup := by
    rw [values_renameLabels, labelNames_rename]
    refine List.Nodup.map_on ?_ (exists_resolve_iff.mp ⟨labels, hl⟩)
    exact hρ.injective
  obtain ⟨labels', hl'⟩ := exists_resolve_iff.mpr hnodup
  refine ⟨labels', hl', hρ, isSome_get?_of_resolve hl, ?_⟩
  intro name v
  simp only [get?_of_resolve hl', get?_of_resolve hl, values_renameLabels, mem_placed_rename_iff]
  constructor
  · rintro ⟨a, ⟨old, hmem, hname⟩, hv⟩
    exact ⟨old, ⟨a, hmem, hv⟩, hname⟩
  · rintro ⟨old, ⟨a, hmem, hv⟩, hname⟩
    exact ⟨a, ⟨old, hmem, hname⟩, hv⟩

theorem Renames.renamedTable {names : List Token} {ρ : Token → Token} {labels labels' : LabelTable}
    (h : Renames names ρ labels labels') : RenamedTable ρ labels labels' where
  get?_eq_some_iff := h.renamed
  entries := by
    have hinj : ∀ e ∈ labels.toList, ∀ f ∈ labels.toList, (ρ e.1, e.2) = (ρ f.1, f.2) → e = f := by
      rintro ⟨name, v⟩ he ⟨other, u⟩ hf hsame
      obtain ⟨hname, rfl⟩ := Prod.mk.inj hsame
      have hdefined := (h.defined name).mp (by simp [LabelTable.mem_toList_iff.mp he])
      have hdefined' := (h.defined other).mp (by simp [LabelTable.mem_toList_iff.mp hf])
      rw [h.newNames.injective name hdefined other hdefined' hname]
    rw [List.perm_ext_iff_of_nodup labels'.nodup_toList (List.Nodup.map_on hinj labels.nodup_toList)]
    rintro ⟨name, v⟩
    simp only [LabelTable.mem_toList_iff, h.renamed, List.mem_map, Prod.exists, Prod.mk.injEq]
    constructor
    · rintro ⟨old, hold, rfl⟩
      exact ⟨old, v, hold, rfl, rfl⟩
    · rintro ⟨old, _, hold, rfl, rfl⟩
      exact ⟨old, hold, rfl⟩

/-- If labels get new names, identifiers and one for each, at their definitions and where they stand for values, then
the labels are placed as before under the new names, and the program is the same. -/
theorem generate_renameLabels {ss : List (Located Statement)} {labels : LabelTable} {program : List UInt8}
    {ρ : Token → Token} (hl : resolve ss = .ok labels) (hg : generate labels ss = .ok program)
    (hρ : NewNames (labelNames (values ss)) ρ) :
    ∃ labels', resolve (renameLabels ρ ss) = .ok labels' ∧ RenamedTable ρ labels labels' ∧
      generate labels' (renameLabels ρ ss) = .ok program := by
  obtain ⟨labels', hl', hrenames⟩ := exists_resolve_renameLabels hl hρ
  obtain ⟨chunks, hc, rfl⟩ := generate_eq_ok_iff.mp hg
  refine ⟨labels', hl', hrenames.renamedTable, generate_eq_ok_iff.mpr ⟨chunks, ?_, rfl⟩⟩
  rw [values_renameLabels]
  exact hc.rename hrenames

theorem labels_named_like_registers_and_mnemonics :
    let ρ : Token → Token := fun name => if name = "a".toList then "R0".toList else "ADD".toList
    let source := "a:\nldi R0, a\nADD r0, R1\nLD R1, [b]\nST R1, b\nBRZ b\nJMP 0xb\nb:".toList
    let renamed := "R0:\nldi R0, R0\nADD r0, R1\nLD R1, [ADD]\nST R1, ADD\nBRZ ADD\nJMP 0xb\nADD:".toList
    let program := [0x10, 0, 0x20, 1, 0x72, 12, 0x82, 12, 0x90, 2, 0xA0, 0x0B]
    ∃ ss labels labels', statements source = .ok ss ∧ statements renamed = .ok (renameLabels ρ ss) ∧
      NewNames (labelNames (values ss)) ρ ∧ resolve ss = .ok labels ∧ generate labels ss = .ok program ∧
      resolve (renameLabels ρ ss) = .ok labels' ∧ RenamedTable ρ labels labels' ∧
      generate labels' (renameLabels ρ ss) = .ok program := by
  intro ρ source renamed program
  have hp : assemble source = .ok program := by decide +kernel
  have hboth : (statements source).map (renameLabels ρ) = statements renamed := by decide +kernel
  have hnames : labelNames ((lines source).filterMap statementOn?) = ["a".toList, "b".toList] := by decide +kernel
  obtain ⟨ss, labels, hs, hl, hg⟩ := assemble_eq_ok_iff.mp hp
  have hρ : NewNames (labelNames (values ss)) ρ := by
    rw [values_of_statements hs, hnames]
    exact ⟨by decide +kernel, by decide +kernel⟩
  obtain ⟨labels', hl', htable, hg'⟩ := generate_renameLabels hl hg hρ
  rw [hs] at hboth
  exact ⟨ss, labels, labels', hs, hboth.symm, hρ, hl, hg, hl', htable, hg'⟩

end ByteMachine
