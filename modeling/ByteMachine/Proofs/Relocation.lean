import ByteMachine.Proofs.JoinedSources

/-! # Relocation: the bytes of a program that is moved behind another one

Only a second byte can change. Where it is the address of a label it moves along, and where it is the distance to a
fixed address it shrinks by as much. The labels of one program do not catch words of the other. -/
namespace ByteMachine

open Text

/-- The word that an instruction has for its value, without the brackets around it. -/
def valueWord? : Opcode → List Token → Option Token
  | .ldi, [_, v] => some v
  | .ld, [_, a] => unbracket? a
  | .st, [_, a] => unbracket? a
  | .jmp, [t] => some t
  | .brz, [t] => some t
  | _, _ => none

/-- What the second byte of an instruction gains when it is moved by `k`. -/
def wordShift (labels : LabelTable) (k : UInt8) : Opcode → Token → UInt8
  | .brz, w => if (numeral? w).isSome then -k else 0
  | _, w => if (labels.get? w).isSome then k else 0

def Statement.shift (labels : LabelTable) (k : UInt8) : Statement → UInt8
  | .label _ => 0
  | .instruction mnemonic operands =>
    match Opcode.ofName? mnemonic with
    | none => 0
    | some op => ((valueWord? op operands).map (wordShift labels k op)).getD 0

/-- The chunks of statements that are moved by `k`. -/
def relocate (labels : LabelTable) (k : UInt8) (ss : List Statement) (chunks : List (List UInt8)) :
    List (List UInt8) :=
  List.zipWith (fun s chunk => chunk.modify 1 (· + s.shift labels k)) ss chunks

/-- A table that has the labels of another one `n` bytes further on, and perhaps more, but no numeral for a name. -/
structure Relocated (labels joined : LabelTable) (n : Nat) : Prop where
  shifted : ∀ name v, labels.get? name = some v → joined.get? name = some (v + Address.wrap n)
  numeral : ∀ w v, numeral? w = some v → joined.get? w = none

section Values

variable {labels joined : LabelTable} {n : Nat}

/-- A value is a label, which moves along, or a numeral, which does not. -/
theorem Relocated.value_cases (h : Relocated labels joined n) {w : Token} {v : UInt8} (hv : valueOf labels w = .ok v) :
    ((labels.get? w).isSome = true ∧ (numeral? w).isSome = false ∧ valueOf joined w = .ok (v + Address.wrap n)) ∨
      ((labels.get? w).isSome = false ∧ (numeral? w).isSome = true ∧ valueOf joined w = .ok v) := by
  cases hl : labels.get? w with
  | some u =>
    obtain rfl : u = v := by simpa [hl] using valueOf_eq_ok_iff.mp hv
    have hj := h.shifted w u hl
    have hn : numeral? w = none := by
      apply Option.eq_none_iff_forall_ne_some.mpr
      intro b hb
      simp [h.numeral w b hb] at hj
    exact .inl ⟨rfl, by simp [hn], valueOf_of_get? hj⟩
  | none =>
    have hn : numeral? w = some v := by simpa [hl] using valueOf_eq_ok_iff.mp hv
    exact .inr ⟨rfl, by simp [hn], valueOf_eq_ok_iff.mpr (by simp [h.numeral w v hn, hn])⟩

theorem Relocated.valueOf_eq (h : Relocated labels joined n) (op : Opcode) (hop : op ≠ .brz) {w : Token} {v : UInt8}
    (hv : valueOf labels w = .ok v) : valueOf joined w = .ok (v + wordShift labels (Address.wrap n) op w) := by
  have hshift : wordShift labels (Address.wrap n) op w = if (labels.get? w).isSome then Address.wrap n else 0 := by
    cases op <;> first | rfl | contradiction
  rw [hshift]
  obtain ⟨hl, -, hj⟩ | ⟨hl, -, hj⟩ := h.value_cases hv
  · simpa [hl] using hj
  · simpa [hl] using hj

theorem Relocated.displacement_eq (h : Relocated labels joined n) {w : Token} {v : UInt8}
    (hv : valueOf labels w = .ok v) (pc : Nat) : ∃ v', valueOf joined w = .ok v' ∧
      Address.displacement (n + pc) v' = Address.displacement pc v + wordShift labels (Address.wrap n) .brz w := by
  simp only [Address.displacement, Address.wrap_add, wordShift]
  obtain ⟨-, hn, hj⟩ | ⟨-, hn, hj⟩ := h.value_cases hv
  · refine ⟨_, hj, ?_⟩
    simp only [hn]
    grind
  · refine ⟨_, hj, ?_⟩
    simp only [hn]
    grind

theorem Relocated.cellOf_eq (h : Relocated labels joined n) {op : Opcode} (hop : op ≠ .brz) {a : Token} {v : UInt8}
    (hv : cellOf labels op a = .ok v) : ∃ w, unbracket? a = some w ∧
      cellOf joined op a = .ok (v + wordShift labels (Address.wrap n) op w) := by
  obtain ⟨w, hw, hv⟩ := cellOf_eq_ok_iff.mp hv
  exact ⟨w, hw, cellOf_eq_ok_iff.mpr ⟨w, hw, h.valueOf_eq op hop hv⟩⟩

/-- The same operands are read with the joined labels, and give bytes that differ in the second one. -/
theorem Reads.relocate (h : Relocated labels joined n) {op : Opcode} {operands : List Token} {i : Instruction}
    (hi : Reads labels op operands i) (pc : Nat) : ∃ i', Reads joined op operands i' ∧ i'.encode (n + pc) =
      (i.encode pc).modify 1 (· + ((valueWord? op operands).map (wordShift labels (Address.wrap n) op)).getD 0) := by
  cases hi with
  | nop => exact ⟨_, .nop, rfl⟩
  | ldi register value => exact ⟨_, .ldi register (h.valueOf_eq .ldi (by decide) value), rfl⟩
  | alu first second => exact ⟨_, .alu first second, by simp [valueWord?, Instruction.encode]⟩
  | ld register cell =>
    obtain ⟨w, hw, hcell⟩ := h.cellOf_eq (by decide) cell
    exact ⟨_, .ld register hcell, by simp [valueWord?, hw, Instruction.encode, Instruction.opcode]⟩
  | st register cell =>
    obtain ⟨w, hw, hcell⟩ := h.cellOf_eq (by decide) cell
    exact ⟨_, .st register hcell, by simp [valueWord?, hw, Instruction.encode, Instruction.opcode]⟩
  | jmp target => exact ⟨_, .jmp (h.valueOf_eq .jmp (by decide) target), rfl⟩
  | brz target =>
    obtain ⟨v, hv, hdisplacement⟩ := h.displacement_eq target pc
    exact ⟨_, .brz hv, by simp [valueWord?, Instruction.encode, Instruction.opcode, hdisplacement]⟩

theorem Statement.encode_relocate (h : Relocated labels joined n) {s : Statement} {pc : Nat} {bytes : List UInt8}
    (hs : s.encode labels pc = .ok bytes) :
    s.encode joined (n + pc) = .ok (bytes.modify 1 (· + s.shift labels (Address.wrap n))) := by
  cases s with
  | label name =>
    cases hs
    rfl
  | instruction mnemonic operands =>
    obtain ⟨op, i, hop, hi, rfl⟩ := encode_eq_ok_iff.mp hs
    obtain ⟨i', hi', hbytes⟩ := hi.relocate h pc
    rw [Statement.encode, Statement.shift, hop]
    exact encode_eq_ok_iff.mpr ⟨op, i', hop, hi', hbytes⟩

theorem Chunks.relocate (h : Relocated labels joined n) {pc : Nat} {ss : List Statement} {chunks : List (List UInt8)}
    (hc : Chunks labels (placed pc ss) chunks) :
    Chunks joined (placed (n + pc) ss) (relocate labels (Address.wrap n) ss chunks) := by
  induction ss generalizing pc chunks with
  | nil =>
    cases hc
    exact .nil
  | cons s ss ih =>
    obtain _ | ⟨hs, hrest⟩ := hc
    have hmore := ih hrest
    rw [← Nat.add_assoc] at hmore
    exact .cons (Statement.encode_relocate h hs) hmore

end Values

theorem Statement.shift_zero (labels : LabelTable) (s : Statement) : s.shift labels 0 = 0 := by
  have hword (op : Opcode) (w : Token) : wordShift labels 0 op w = 0 := by cases op <;> simp [wordShift]
  cases s with
  | label name => rfl
  | instruction mnemonic operands =>
    cases hop : Opcode.ofName? mnemonic with
    | none => simp [shift, hop]
    | some op => cases hw : valueWord? op operands <;> simp [shift, hop, hw, hword]

/-- What is not moved keeps its bytes, whatever labels are added. -/
theorem relocate_zero (labels : LabelTable) {ss : List Statement} {chunks : List (List UInt8)}
    (h : chunks.length = ss.length) : relocate labels 0 ss chunks = chunks := by
  induction ss generalizing chunks with
  | nil =>
    obtain rfl := List.length_eq_zero_iff.mp h
    rfl
  | cons s ss ih =>
    obtain ⟨chunk, chunks, rfl⟩ := List.exists_cons_of_length_eq_add_one h
    have hsame : (fun b : UInt8 => b + s.shift labels 0) = id := by
      funext b
      simp [Statement.shift_zero]
    have hrest := ih (Nat.succ.inj h)
    rw [relocate] at hrest ⊢
    rw [List.zipWith_cons_cons, hsame, List.modify_id, hrest]

theorem JoinedLabels.relocated_first {labels labels' joined : LabelTable} {k : Nat}
    (h : JoinedLabels labels labels' joined k) (hnumeral : ∀ w v, numeral? w = some v → joined.get? w = none) :
    Relocated labels joined 0 where
  shifted name v hv := by simp [h name, hv, Address.wrap]
  numeral := hnumeral

theorem JoinedLabels.relocated_second {labels labels' joined : LabelTable} {k : Nat}
    (h : JoinedLabels labels labels' joined k) (hdisjoint : ∀ name, labels.get? name = none ∨ labels'.get? name = none)
    (hnumeral : ∀ w v, numeral? w = some v → joined.get? w = none) : Relocated labels' joined k where
  shifted name v hv := by
    have hfirst : labels.get? name = none := (hdisjoint name).resolve_right (by simp [hv])
    simp [h name, hfirst, hv]
  numeral := hnumeral

/-- A source that is put behind another one keeps its bytes but for second bytes: those of labels grow by the length of
what is in front, those of branches to numerals get smaller by it, both modulo 256. The labels are those of the first
source, and those of the second at the places they have moved to. -/
theorem assemble_append_relocates {front source : List Char} {code program : List UInt8} {labels labels' : LabelTable}
    (hfront : assemble front = .ok code) (hsource : assemble source = .ok program)
    (hlabels : resolveLabels front = .ok labels) (hlabels' : resolveLabels source = .ok labels')
    (hdisjoint : ∀ name, labels.get? name = none ∨ labels'.get? name = none) :
    ∃ ss chunks moved joined, statements source = .ok ss ∧ InStep (values ss) labels' program chunks ∧
      moved = (relocate labels' (Address.wrap code.length) (values ss) chunks).flatten ∧
      moved.length = program.length ∧ assemble (front ++ '\n' :: source) = .ok (code ++ moved) ∧
      resolveLabels (front ++ '\n' :: source) = .ok joined ∧ JoinedLabels labels labels' joined code.length := by
  obtain ⟨ss₀, hs₀, hl₀⟩ := bind_eq_ok_iff.mp hlabels
  obtain ⟨ss, hs, hl⟩ := bind_eq_ok_iff.mp hlabels'
  obtain ⟨chunks₀, hc₀, rfl⟩ := (assemble_eq_ok_iff_chunks hs₀ hl₀).mp hfront
  obtain ⟨chunks, hc, rfl⟩ := (assemble_eq_ok_iff_chunks hs hl).mp hsource
  obtain ⟨both, hboth, hvalues⟩ := exists_statements_append hs₀ hs
  obtain ⟨joined, hjoined, hjoin⟩ := exists_resolve_append hl₀ hl hdisjoint hvalues
  rw [← hc₀.length_flatten] at hjoin
  have hnumeral (w : Token) (v : UInt8) (hw : numeral? w = some v) : joined.get? w = none :=
    get?_eq_none_of_numeral? hboth hjoined hw
  have hkept : Chunks joined (placed 0 (values ss₀)) chunks₀ := by
    have hmoved := hc₀.relocate (hjoin.relocated_first hnumeral)
    have hlength : chunks₀.length = (values ss₀).length := by rw [hc₀.length_eq, length_placed]
    rwa [show Address.wrap 0 = 0 from rfl, relocate_zero labels hlength] at hmoved
  have hmoved := hc.relocate (hjoin.relocated_second hdisjoint hnumeral)
  refine ⟨ss, chunks, _, joined, hs, hc.inStep, rfl, ?_, ?_, bind_eq_ok_iff.mpr ⟨both, hboth, hjoined⟩, hjoin⟩
  · rw [hmoved.length_flatten, hc.length_flatten]
  · apply (assemble_eq_ok_iff_chunks hboth hjoined).mpr
    refine ⟨_, ?_, List.flatten_append⟩
    rw [hvalues, placed_append, ← hc₀.length_flatten, Nat.zero_add]
    exact List.rel_append hkept hmoved

theorem relocation_over_a_page :
    let front := "top:\n".toList ++ (List.replicate 149 "LDI R0, top\n".toList).flatten ++ "brz top ; again\r".toList
    let source := ("data:\nNOP\nLDI r1 end\nLD R2, [data]\nST R3, end\nADD R1, R2\nJMP end\n" ++
      "BRZ data\nBRZ 7\nLDI R4, -1\nend:").toList
    let code := (List.replicate 149 [0x10, 0]).flatten ++ [0x90, 212]
    let program := [0x00, 0x12, 17, 0x74, 0, 0x86, 17, 0x22, 2, 0xA0, 17, 0x90, 243, 0x90, 248, 0x18, 0xFF]
    let moved := [0x00, 0x12, 61, 0x74, 44, 0x86, 61, 0x22, 2, 0xA0, 61, 0x90, 243, 0x90, 204, 0x18, 0xFF]
    assemble front = .ok code ∧ assemble source = .ok program ∧
      assemble (front ++ '\n' :: source) = .ok (code ++ moved) ∧
      ∃ labels labels' ss chunks joined, resolveLabels front = .ok labels ∧ resolveLabels source = .ok labels' ∧
        (∀ name, labels.get? name = none ∨ labels'.get? name = none) ∧ statements source = .ok ss ∧
        InStep (values ss) labels' program chunks ∧
        moved = (relocate labels' (Address.wrap code.length) (values ss) chunks).flatten ∧
        resolveLabels (front ++ '\n' :: source) = .ok joined ∧ JoinedLabels labels labels' joined code.length := by
  intro front source code program moved
  have hfront : assemble front = .ok code := by decide +kernel
  have hsource : assemble source = .ok program := by decide +kernel
  have hboth : assemble (front ++ '\n' :: source) = .ok (code ++ moved) := by decide +kernel
  obtain ⟨ss₀, labels, hs₀, hl₀, -⟩ := assemble_eq_ok_iff.mp hfront
  obtain ⟨ss₁, labels', hs₁, hl₁, -⟩ := assemble_eq_ok_iff.mp hsource
  have hnames₀ : labelNames ((lines front).filterMap statementOn?) = ["top".toList] := by decide +kernel
  have hnames₁ : labelNames ((lines source).filterMap statementOn?) = ["data".toList, "end".toList] := by decide +kernel
  have hdisjoint (name : Token) : labels.get? name = none ∨ labels'.get? name = none := by
    by_cases hname : name = "top".toList
    · right
      apply get?_eq_none hl₁
      rw [← mem_labelNames_iff, values_of_statements hs₁, hnames₁, hname]
      decide
    · left
      apply get?_eq_none hl₀
      rw [← mem_labelNames_iff, values_of_statements hs₀, hnames₀]
      simpa using hname
  have hlabels : resolveLabels front = .ok labels := bind_eq_ok_iff.mpr ⟨ss₀, hs₀, hl₀⟩
  have hlabels' : resolveLabels source = .ok labels' := bind_eq_ok_iff.mpr ⟨ss₁, hs₁, hl₁⟩
  obtain ⟨ss, chunks, bytes, joined, hs, hstep, hbytes, -, happend, hjoined, hjoin⟩ :=
    assemble_append_relocates hfront hsource hlabels hlabels' hdisjoint
  obtain rfl : moved = bytes := List.append_cancel_left (Except.ok.inj (hboth.symm.trans happend))
  exact ⟨hfront, hsource, hboth, labels, labels', ss, chunks, joined, hlabels, hlabels', hdisjoint, hs, hstep, hbytes,
    hjoined, hjoin⟩

end ByteMachine
