import ByteMachine.Proofs.Relocation

/-! # Label independence: the addresses of labels reach the bytes that refer to them, and nothing else

The second pass is run twice, with two tables that have the same names at any addresses. Both runs go wrong at the same
statement and in the same way, or both lay out the same instructions. -/
namespace ByteMachine

open Text

/-- Two outcomes of one computation: the same fault, or results that are related. -/
inductive Alike {α : Type} (r : α → α → Prop) : Except Fault α → Except Fault α → Prop
  | fails (fault) : Alike r (.error fault) (.error fault)
  | succeeds {a b} (related : r a b) : Alike r (.ok a) (.ok b)

namespace Alike

variable {α β : Type} {r : α → α → Prop} {q : β → β → Prop} {x y : Except Fault α}

theorem map {f g : α → β} (h : Alike r x y) (next : ∀ a b, r a b → q (f a) (g b)) : Alike q (x.map f) (y.map g) := by
  cases h with
  | fails fault => exact fails fault
  | succeeds related => exact succeeds (next _ _ related)

theorem bind {f g : α → Except Fault β} (h : Alike r x y) (next : ∀ a b, r a b → Alike q (f a) (g b)) :
    Alike q (x >>= f) (y >>= g) := by
  cases h with
  | fails fault => exact fails fault
  | succeeds related => exact next _ _ related

/-- A step that does not look at the labels is the same in both computations. -/
theorem bind_same (x : Except Fault α) {f g : α → Except Fault β} (next : ∀ a, Alike q (f a) (g a)) :
    Alike q (x >>= f) (x >>= g) := by
  cases x with
  | error fault => exact fails fault
  | ok a => exact next a

theorem eq_error_iff (h : Alike r x y) {fault : Fault} : x = .error fault ↔ y = .error fault := by
  cases h with
  | fails => rfl
  | succeeds => simp

theorem exists_ok_iff (h : Alike r x y) : (∃ a, x = .ok a) ↔ ∃ b, y = .ok b := by
  cases h with
  | fails => simp
  | succeeds => simp

theorem exists_related (h : Alike r x y) {a : α} (hx : x = .ok a) : ∃ b, y = .ok b ∧ r a b := by
  cases h with
  | fails => cases hx
  | succeeds related =>
    cases hx
    exact ⟨_, rfl, related⟩

end Alike

/-- Tables that have the same labels, each at an address of its own. -/
def SameNames (labels labels' : LabelTable) : Prop := ∀ name, (labels.get? name).isSome ↔ (labels'.get? name).isSome

/-- How much further on the second table has a label. A word that neither table has does not move. -/
def LabelTable.distance (labels labels' : LabelTable) (w : Token) : UInt8 :=
  (labels'.get? w).getD 0 - (labels.get? w).getD 0

/-- The word that a statement has for its value, without the brackets around it. -/
def Statement.valueWord? : Statement → Option Token
  | .label _ => none
  | .instruction mnemonic operands => (Opcode.ofName? mnemonic).bind (ByteMachine.valueWord? · operands)

/-- The byte at `k` is the second one of an instruction that has this label for its value. -/
def RefersAt (labels : LabelTable) (ss : List Statement) (k : Nat) (name : Token) : Prop :=
  ∃ i s, ss[i]? = some s ∧ s.valueWord? = some name ∧ (labels.get? name).isSome ∧ k = addressAt ss i + 1

theorem Address.displacement_add (pc : Nat) (target k : UInt8) :
    displacement pc (target + k) = displacement pc target + k := by
  simp only [displacement]
  grind

theorem Statement.assumedLength_of_valueWord? {s : Statement} {w : Token} (h : s.valueWord? = some w) :
    s.assumedLength = 2 := by
  cases s with
  | label name => cases h
  | instruction mnemonic operands =>
    obtain ⟨op, hop, hw⟩ := Option.bind_eq_some_iff.mp h
    rw [assumedLength, Opcode.assumedLength, hop]
    cases op with
    | nop => cases hw
    | ldi | alu | ld | st | brz | jmp => rfl

section Tables

variable {labels labels' : LabelTable}

/-- What the second byte of an instruction gains with the second table. -/
def gain (labels labels' : LabelTable) (word : Option Token) : UInt8 := (word.map (labels.distance labels')).getD 0

theorem SameNames.alike_valueOf (h : SameNames labels labels') (w : Token) :
    Alike (fun v v' => v' = v + gain labels labels' (some w)) (valueOf labels w) (valueOf labels' w) := by
  have hw := h w
  unfold valueOf gain LabelTable.distance
  cases hl : labels.get? w with
  | some v =>
    obtain ⟨v', hl'⟩ := Option.isSome_iff_exists.mp (hw.mp (by simp [hl]))
    rw [hl']
    exact .succeeds (by simp [hl, hl'])
  | none =>
    have hl' : labels'.get? w = none := by simpa [hl] using hw
    rw [hl']
    cases numeral? w with
    | none => exact .fails _
    | some v => exact .succeeds (by simp [hl, hl'])

theorem SameNames.alike_cellOf (h : SameNames labels labels') (op : Opcode) (a : Token) :
    Alike (fun v v' => v' = v + gain labels labels' (unbracket? a)) (cellOf labels op a) (cellOf labels' op a) := by
  unfold cellOf
  cases unbracket? a with
  | none => exact .fails _
  | some inner => exact h.alike_valueOf inner

/-- Operands are read alike, and the two instructions differ in the second byte by what the label has moved. -/
theorem SameNames.alike_instructionOf (h : SameNames labels labels') (op : Opcode) (operands : List Token) (pc : Nat) :
    Alike (fun i i' => i'.encode pc = (i.encode pc).modify 1 (· + gain labels labels' (valueWord? op operands)))
      (instructionOf labels op operands) (instructionOf labels' op operands) := by
  unfold instructionOf
  split
  · exact .succeeds rfl
  · exact .bind_same _ fun r => (h.alike_valueOf _).bind fun v v' hv => .succeeds (hv ▸ rfl)
  · refine .bind_same _ fun r => .bind_same _ fun q => .succeeds ?_
    simp [gain, valueWord?, Instruction.encode]
  · exact .bind_same _ fun r => (h.alike_cellOf _ _).bind fun v v' hv => .succeeds (hv ▸ rfl)
  · exact .bind_same _ fun r => (h.alike_cellOf _ _).bind fun v v' hv => .succeeds (hv ▸ rfl)
  · exact (h.alike_valueOf _).bind fun v v' hv => .succeeds (hv ▸ rfl)
  · refine (h.alike_valueOf _).bind fun v v' hv => .succeeds ?_
    -- a branch carries the distance from its own address, which is the same in both
    rw [hv, Instruction.encode, Address.displacement_add]
    rfl
  · exact .fails _

theorem SameNames.alike_encode (h : SameNames labels labels') (s : Statement) (pc : Nat) :
    Alike (fun bytes bytes' => bytes' = bytes.modify 1 (· + gain labels labels' s.valueWord?)) (s.encode labels pc)
      (s.encode labels' pc) := by
  cases s with
  | label name => exact .succeeds rfl
  | instruction mnemonic operands =>
    rw [Statement.encode, Statement.encode, encode, encode, readInstruction, readInstruction, Statement.valueWord?]
    cases Opcode.ofName? mnemonic with
    | none => exact .fails _
    | some op => exact (h.alike_instructionOf op operands pc).map fun i i' hi => hi

theorem SameNames.generate_eq_error_iff (h : SameNames labels labels') {ss : List (Located Statement)}
    {e : SourceError} : generate labels ss = .error e ↔ generate labels' ss = .error e := by
  have hfault (s : Statement) (pc : Nat) (fault : Fault) :
      s.encode labels pc = .error fault ↔ s.encode labels' pc = .error fault := (h.alike_encode s pc).eq_error_iff
  have hok (s : Statement) (pc : Nat) :
      (∃ bytes, s.encode labels pc = .ok bytes) ↔ ∃ bytes, s.encode labels' pc = .ok bytes :=
    (h.alike_encode s pc).exists_ok_iff
  simp only [ByteMachine.generate_eq_error_iff, hfault, hok]

def retargeted (labels labels' : LabelTable) (ss : List Statement) (chunks : List (List UInt8)) : List (List UInt8) :=
  List.zipWith (fun s chunk => chunk.modify 1 (· + gain labels labels' s.valueWord?)) ss chunks

theorem Chunks.retargeted (h : SameNames labels labels') {pc : Nat} {ss : List Statement} {chunks : List (List UInt8)}
    (hc : Chunks labels (placed pc ss) chunks) :
    Chunks labels' (placed pc ss) (retargeted labels labels' ss chunks) := by
  induction ss generalizing pc chunks with
  | nil =>
    cases hc
    exact .nil
  | cons s ss ih =>
    obtain _ | ⟨hs, hrest⟩ := hc
    obtain ⟨bytes, hbytes, rfl⟩ := (h.alike_encode s pc).exists_related hs
    exact .cons hbytes (ih hrest)

end Tables

theorem exists_chunk_of_lt {chunks : List (List UInt8)} {k : Nat} (h : k < chunks.flatten.length) :
    ∃ i chunk j, chunks[i]? = some chunk ∧ j < chunk.length ∧ k = (chunks.take i).flatten.length + j := by
  induction chunks generalizing k with
  | nil => exact absurd h (Nat.not_lt_zero k)
  | cons chunk chunks ih =>
    by_cases hk : k < chunk.length
    · exact ⟨0, chunk, k, rfl, hk, by simp⟩
    · rw [List.flatten_cons, List.length_append] at h
      obtain ⟨i, other, j, hi, hj, hrest⟩ := ih (k := k - chunk.length) (by omega)
      refine ⟨i + 1, other, j, hi, hj, ?_⟩
      rw [List.take_succ_cons, List.flatten_cons, List.length_append]
      omega

section Bytes

variable {labels labels' : LabelTable} {ss : List Statement} {program program' : List UInt8}
  {chunks : List (List UInt8)}

theorem InStep.getElem?_eq (h : InStep ss labels program chunks) {i : Nat} {chunk : List UInt8}
    (hi : chunks[i]? = some chunk) {j : Nat} (hj : j < chunk.length) : program[addressAt ss i + j]? = chunk[j]? := by
  rw [← h.start_eq i, ← h.flatten_eq, getElem?_flatten_of_chunk hi hj]

theorem getElem?_retargeted (labels labels' : LabelTable) {i : Nat} {s : Statement} {chunk : List UInt8}
    (hs : ss[i]? = some s) (hi : chunks[i]? = some chunk) :
    (retargeted labels labels' ss chunks)[i]? = some (chunk.modify 1 (· + gain labels labels' s.valueWord?)) := by
  rw [retargeted, List.getElem?_zipWith, hs, hi]

theorem SameNames.gain_eq_zero (h : SameNames labels labels') {word : Option Token}
    (hword : ∀ name, word = some name → ¬ (labels.get? name).isSome) : gain labels labels' word = 0 := by
  cases word with
  | none => rfl
  | some w =>
    have hl : labels.get? w = none := by simpa using hword w rfl
    have hl' : labels'.get? w = none := by simpa [hl] using h w
    simp [gain, LabelTable.distance, hl, hl']

/-- A byte that refers to no label is the same with both tables. -/
theorem InStep.getElem?_of_not_refersAt (h : SameNames labels labels') (hp : InStep ss labels program chunks)
    (hp' : InStep ss labels' program' (retargeted labels labels' ss chunks)) {k : Nat} (hk : k < program.length)
    (hnone : ∀ name, ¬ RefersAt labels ss k name) : program'[k]? = program[k]? := by
  rw [← hp.flatten_eq] at hk
  obtain ⟨i, chunk, j, hi, hj, rfl⟩ := exists_chunk_of_lt hk
  obtain ⟨s, hs⟩ : ∃ s, ss[i]? = some s := by
    have hlt : i < ss.length := hp.length_eq ▸ (List.getElem?_eq_some_iff.mp hi).1
    exact ⟨_, List.getElem?_eq_getElem hlt⟩
  have hi' := getElem?_retargeted labels labels' hs hi
  rw [hp.start_eq, hp.getElem?_eq hi hj, hp'.getElem?_eq hi' (by simpa using hj), List.getElem?_modify]
  by_cases hone : 1 = j
  · subst hone
    have hgain : gain labels labels' s.valueWord? = 0 := by
      apply h.gain_eq_zero
      intro name hname hdefined
      exact hnone name ⟨i, s, hs, hname, hdefined, by rw [hp.start_eq]⟩
    simp [hgain]
  · simp [hone]

/-- A byte that refers to a label is as much further on as the label. -/
theorem InStep.exists_of_refersAt (h : SameNames labels labels') (hp : InStep ss labels program chunks)
    (hp' : InStep ss labels' program' (retargeted labels labels' ss chunks)) {k : Nat} {name : Token}
    (hrefers : RefersAt labels ss k name) : ∃ b b' v v', program[k]? = some b ∧ program'[k]? = some b' ∧
      labels.get? name = some v ∧ labels'.get? name = some v' ∧ b' - b = v' - v := by
  obtain ⟨i, s, hs, hname, hdefined, rfl⟩ := hrefers
  obtain ⟨v, hv⟩ := Option.isSome_iff_exists.mp hdefined
  obtain ⟨v', hv'⟩ := Option.isSome_iff_exists.mp ((h name).mp hdefined)
  have hlt : i < chunks.length := hp.length_eq ▸ (List.getElem?_eq_some_iff.mp hs).1
  have hi : chunks[i]? = some chunks[i] := List.getElem?_eq_getElem hlt
  have hlength : chunks[i].length = 2 := by
    rw [(hp.chunk_eq i s _ hs hi).2, Statement.assumedLength_of_valueWord? hname]
  have hj : 1 < chunks[i].length := by omega
  have hi' := getElem?_retargeted labels labels' hs hi
  refine ⟨chunks[i][1], chunks[i][1] + (v' - v), v, v', ?_, ?_, hv, hv', by simp⟩
  · rw [hp.getElem?_eq hi hj, List.getElem?_eq_getElem hj]
  · rw [hp'.getElem?_eq hi' (by simpa using hj), List.getElem?_modify, List.getElem?_eq_getElem hj]
    simp [hname, gain, LabelTable.distance, hv, hv']

end Bytes

/-- With two tables of the same names the second pass fails with the same error at the same place, or gives two programs
of the same length. These agree in every byte but the second ones of instructions that have a label for their value, and
there they differ by as much as the two addresses of that label do, modulo 256. -/
theorem label_addresses_reach_references_only {labels labels' : LabelTable} (h : SameNames labels labels')
    (ss : List (Located Statement)) :
    (∃ e, generate labels ss = .error e ∧ generate labels' ss = .error e) ∨
    ∃ program program', generate labels ss = .ok program ∧ generate labels' ss = .ok program' ∧
      program'.length = program.length ∧
      (∀ k, (∀ name, ¬ RefersAt labels (values ss) k name) → program'[k]? = program[k]?) ∧
      ∀ k name, RefersAt labels (values ss) k name → ∃ b b' v v', program[k]? = some b ∧ program'[k]? = some b' ∧
        labels.get? name = some v ∧ labels'.get? name = some v' ∧ b' - b = v' - v := by
  cases hg : generate labels ss with
  | error e => exact .inl ⟨e, rfl, h.generate_eq_error_iff.mp hg⟩
  | ok program =>
    obtain ⟨chunks, hc, rfl⟩ := generate_eq_ok_iff.mp hg
    have hc' := hc.retargeted h
    have hlength : (retargeted labels labels' (values ss) chunks).flatten.length = chunks.flatten.length := by
      rw [hc'.length_flatten, hc.length_flatten]
    refine .inr ⟨_, _, rfl, generate_eq_ok_iff.mpr ⟨_, hc', rfl⟩, hlength, ?_, ?_⟩
    · intro k hnone
      by_cases hk : k < chunks.flatten.length
      · exact hc.inStep.getElem?_of_not_refersAt h hc'.inStep hk hnone
      · rw [List.getElem?_eq_none (by omega), List.getElem?_eq_none (by omega)]
    · intro k name hrefers
      exact hc.inStep.exists_of_refersAt h hc'.inStep hrefers

/-- Two labels at other addresses, in a program with both kinds of jump, and in one that names no register. -/
theorem labels_at_other_addresses :
    let table (a b : UInt8) : LabelTable := ⟨((∅ : Std.TreeMap Token UInt8).insert "a".toList a).insert "b".toList b⟩
    let source := "LDI R1, a\nNOP\nLD R2, [b]\nADD R1, R2\nBRZ b\nJMP 7".toList
    let broken := "JMP a\n ST R9, b".toList
    SameNames (table 3 250) (table 0 4) ∧
    (∃ ss program program', statements source = .ok ss ∧ generate (table 3 250) ss = .ok program ∧
      generate (table 0 4) ss = .ok program' ∧
      program = [0x12, 3, 0x00, 0x74, 250, 0x22, 2, 0x90, 241, 0xA0, 7] ∧
      program' = [0x12, 0, 0x00, 0x74, 4, 0x22, 2, 0x90, 251, 0xA0, 7] ∧
      RefersAt (table 3 250) (values ss) 8 "b".toList ∧
      ∀ k, (∀ name, ¬ RefersAt (table 3 250) (values ss) k name) → program'[k]? = program[k]?) ∧
    ∃ ss, statements broken = .ok ss ∧
      generate (table 3 250) ss = .error ⟨some ⟨2, 2⟩, .unknownRegister "R9".toList⟩ ∧
      generate (table 0 4) ss = .error ⟨some ⟨2, 2⟩, .unknownRegister "R9".toList⟩ := by
  intro table source broken
  have hnames : SameNames (table 3 250) (table 0 4) := by
    intro name
    simp only [table, LabelTable.get?, Std.TreeMap.getElem?_insert]
    split
    · simp
    · split <;> simp
  refine ⟨hnames, ?_, ?_⟩
  · have hrun : statements source >>= generate (table 3 250) =
        .ok [0x12, 3, 0x00, 0x74, 250, 0x22, 2, 0x90, 241, 0xA0, 7] := by decide +kernel
    have hrun' : statements source >>= generate (table 0 4) =
        .ok [0x12, 0, 0x00, 0x74, 4, 0x22, 2, 0x90, 251, 0xA0, 7] := by decide +kernel
    obtain ⟨ss, hs, hg⟩ := bind_eq_ok_iff.mp hrun
    rw [hs] at hrun'
    obtain ⟨e, he, -⟩ | ⟨program, program', hp, hp', -, hagree, -⟩ := label_addresses_reach_references_only hnames ss
    · cases hg.symm.trans he
    · refine ⟨ss, program, program', hs, hp, hp', ?_, ?_, ?_, hagree⟩
      · exact Except.ok.inj (hp.symm.trans hg)
      · exact Except.ok.inj (hp'.symm.trans hrun')
      · rw [values_of_statements hs]
        exact ⟨4, .instruction "BRZ".toList ["b".toList], by decide +kernel, rfl, by simp [table, LabelTable.get?],
          by decide +kernel⟩
  · have hrun : statements broken >>= generate (table 3 250) =
        .error ⟨some ⟨2, 2⟩, .unknownRegister "R9".toList⟩ := by decide +kernel
    obtain hbroken | ⟨ss, hs, hg⟩ := bind_eq_error_iff.mp hrun
    · exact absurd hbroken (by decide +kernel)
    · obtain ⟨e, he, he'⟩ | ⟨program, _, hp, -⟩ := label_addresses_reach_references_only hnames ss
      · obtain rfl := Except.error.inj (he.symm.trans hg)
        exact ⟨ss, hs, he, he'⟩
      · cases hg.symm.trans hp

end ByteMachine
