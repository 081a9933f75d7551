import ByteMachine.Proofs.StageErrors

/-! # Line by line: lines encoded one behind the other with the labels of the whole source give its assembly -/
namespace ByteMachine

open Text

/-- Every line is encoded where the one before it ends. -/
inductive EncodesInTurn (labels : LabelTable) : Nat → List (List Char) → List (List UInt8) → Prop
  | nil (pc) : EncodesInTurn labels pc [] []
  | cons {pc l ls bytes chunks} (first : encodeLine labels pc l = .ok bytes)
      (more : EncodesInTurn labels (pc + bytes.length) ls chunks) : EncodesInTurn labels pc (l :: ls) (bytes :: chunks)

theorem encodeLine_of_silent (labels : LabelTable) (pc : Nat) {l : List Char}
    (h : ∃ s, Statement.ofLine? (stripComment l) = .ok s) (hnone : statementOn? l = none) :
    encodeLine labels pc l = .ok [] := by
  obtain ⟨s, hs⟩ := h
  obtain rfl : s = none := by simpa [statementOn?, hs] using hnone
  simp [encodeLine, hs]

theorem encodeLine_of_statement (labels : LabelTable) (pc : Nat) {l : List Char} {s : Statement}
    (h : statementOn? l = some s) : encodeLine labels pc l = (s.encode labels pc).mapError (⟨none, ·⟩) := by
  rw [encodeLine, statementOn?_eq_some_iff.mp h]
  cases s with
  | label name => rfl
  | instruction mnemonic operands =>
    simp only [Statement.encode]
    cases encode labels pc mnemonic operands <;> rfl

/-- The lines between the statements take no bytes, so lines in turn give the chunks of their statements. -/
theorem Chunks.exists_encodesInTurn {labels : LabelTable} {pc : Nat} {ls : List (List Char)}
    {chunks : List (List UInt8)} (hread : ∀ l ∈ ls, ∃ s, Statement.ofLine? (stripComment l) = .ok s)
    (h : Chunks labels (placed pc (ls.filterMap statementOn?)) chunks) :
    ∃ parts, EncodesInTurn labels pc ls parts ∧ parts.flatten = chunks.flatten := by
  induction ls generalizing pc chunks with
  | nil =>
    cases h
    exact ⟨[], .nil pc, rfl⟩
  | cons l ls ih =>
    obtain ⟨hl, hls⟩ := List.forall_mem_cons.mp hread
    cases hs : statementOn? l with
    | none =>
      rw [List.filterMap_cons_none hs] at h
      obtain ⟨parts, hparts, hflatten⟩ := ih hls h
      exact ⟨[] :: parts, .cons (encodeLine_of_silent labels pc hl hs) hparts, hflatten⟩
    | some s =>
      rw [List.filterMap_cons_some hs, placed] at h
      obtain _ | @⟨_, bytes, _, chunks, hbytes, hrest⟩ := h
      rw [← Statement.length_of_encode hbytes] at hrest
      obtain ⟨parts, hparts, hflatten⟩ := ih hls hrest
      have hfirst : encodeLine labels pc l = .ok bytes := by
        rw [encodeLine_of_statement labels pc hs, hbytes]
        rfl
      exact ⟨bytes :: parts, .cons hfirst hparts, by simp [hflatten]⟩

/-- Of an address only a byte counts. -/
theorem Instruction.encode_congr {pc pc' : Nat} (h : Address.wrap pc = Address.wrap pc') (i : Instruction) :
    i.encode pc = i.encode pc' := by
  cases i <;> simp [Instruction.encode, Address.displacement, h]

theorem encodeLine_congr (labels : LabelTable) {pc pc' : Nat} (h : Address.wrap pc = Address.wrap pc')
    (l : List Char) : encodeLine labels pc l = encodeLine labels pc' l := by
  have he (mnemonic : Token) (operands : List Token) :
      encode labels pc mnemonic operands = encode labels pc' mnemonic operands := by
    unfold encode
    congr 1
    funext i
    exact i.encode_congr h
  simp only [encodeLine, he]

theorem wrap_eq_wrap_iff {n k : Nat} : Address.wrap n = Address.wrap k ↔ n % 256 = k % 256 := by
  rw [Address.wrap, Address.wrap, ← UInt8.toNat_inj, UInt8.toNat_ofNat', UInt8.toNat_ofNat']

/-- An address that runs over the end of a word still has its last byte right. -/
theorem wrap_advance (pc n : Nat) : Address.wrap (Address.advance pc n) = Address.wrap (pc + n) := by
  rw [wrap_eq_wrap_iff, Address.advance, Address.wordSize]
  omega

theorem wrap_add_congr {pc pc' : Nat} (h : Address.wrap pc = Address.wrap pc') (n : Nat) :
    Address.wrap (pc + n) = Address.wrap (pc' + n) := by
  rw [Address.wrap_add, Address.wrap_add, h]

theorem map_snd_encodeLines_congr {labels : LabelTable} {pc pc' : Nat} (h : Address.wrap pc = Address.wrap pc')
    (ls : List (List Char)) :
    (encodeLines labels pc ls).map Prod.snd = (encodeLines labels pc' ls).map Prod.snd := by
  induction ls generalizing pc pc' with
  | nil => rfl
  | cons l ls ih =>
    have hl := encodeLine_congr labels h l
    rw [encodeLines, encodeLines, ← hl]
    cases encodeLine labels pc l with
    | error e =>
      simp only [List.map_cons]
      rw [ih h]
    | ok bytes =>
      have hnext : Address.wrap (Address.advance pc bytes.length) = Address.wrap (Address.advance pc' bytes.length) := by
        rw [wrap_advance, wrap_advance, wrap_add_congr h]
      simp only [List.map_cons]
      rw [ih hnext]

/-- Lines that can be encoded in turn give their bytes, whatever stands behind them. -/
theorem EncodesInTurn.map_snd_encodeLines {labels : LabelTable} {pc : Nat} {ls : List (List Char)}
    {chunks : List (List UInt8)} (h : EncodesInTurn labels pc ls chunks) (rest : List (List Char)) :
    (encodeLines labels pc (ls ++ rest)).map Prod.snd =
      chunks.map .ok ++ (encodeLines labels (pc + chunks.flatten.length) rest).map Prod.snd := by
  induction h with
  | nil pc => rfl
  | @cons pc l ls bytes chunks first more ih =>
    rw [List.cons_append, encodeLines, first]
    simp only [List.map_cons, List.cons_append]
    rw [map_snd_encodeLines_congr (wrap_advance pc bytes.length), ih, List.flatten_cons, List.length_append, Nat.add_assoc]

theorem assemble_eq_error_of_resolveLabels {source : List Char} {e : SourceError}
    (h : resolveLabels source = .error e) : assemble source = .error e := by
  apply assemble_eq_error_iff.mpr
  obtain hs | ⟨ss, hs, hl⟩ := bind_eq_error_iff.mp h
  · exact .inl hs
  · exact .inr ⟨ss, hs, .inl hl⟩

theorem exists_encodesInTurn_of_generate {source : List Char} {ss : List (Located Statement)} {labels : LabelTable}
    {program : List UInt8} (hs : statements source = .ok ss) (hg : generate labels ss = .ok program) :
    ∃ chunks, EncodesInTurn labels 0 (lines source) chunks ∧ chunks.flatten = program := by
  obtain ⟨chunks, hc, rfl⟩ := generate_eq_ok_iff.mp hg
  rw [values_of_statements hs] at hc
  exact hc.exists_encodesInTurn (exists_statements_iff.mp ⟨ss, hs⟩)

/-- The second pass fails at the line at which lines in turn do. -/
theorem exists_failing_line_of_generate {source : List Char} {ss : List (Located Statement)} {labels : LabelTable}
    {e : SourceError} (hs : statements source = .ok ss) (hg : generate labels ss = .error e) :
    ∃ front l chunks fault, LineBehind source front l ∧ EncodesInTurn labels 0 front chunks ∧
      encodeLine labels chunks.flatten.length l = .error ⟨none, fault⟩ ∧ fault.stage = .encoding ∧
      e = ⟨some (placeBehind front l), fault⟩ := by
  obtain ⟨front, l, s, ⟨back, hlines⟩, hl, hfront, fault, hfault, rfl⟩ := (generate_eq_error_iff_lines hs).mp hg
  obtain ⟨chunks, hc⟩ := exists_chunks_iff.mpr hfront
  have hread : ∀ k ∈ front, ∃ s, Statement.ofLine? (stripComment k) = .ok s := by
    intro k hk
    apply exists_statements_iff.mp ⟨ss, hs⟩
    rw [hlines]
    exact List.mem_append_left _ hk
  obtain ⟨parts, hparts, hflatten⟩ := hc.exists_encodesInTurn hread
  refine ⟨front, l, parts, fault, ⟨back, hlines⟩, hparts, ?_, FailsEncoding.encode _ _ _ _ hfault, rfl⟩
  rw [hflatten, hc.length_flatten, encodeLine_of_statement _ _ hl, hfault]
  rfl

/-- Lines encoded in turn with the labels of the whole source, each behind the bytes of those before it, do what its
assembly does. If the labels cannot be had, the assembly fails with the same error. If every line can be encoded, the
bytes are those of the assembly; if not, the assembly fails at the first line that cannot be, with the same fault. -/
theorem encodeLine_in_turn_agrees_with_assemble (source : List Char) :
    (∀ e, resolveLabels source = .error e → assemble source = .error e) ∧
    ∀ labels, resolveLabels source = .ok labels →
      (∃ chunks, EncodesInTurn labels 0 (lines source) chunks ∧
        (encodeLines labels 0 (lines source)).map Prod.snd = chunks.map .ok ∧ assemble source = .ok chunks.flatten) ∨
      ∃ front l chunks fault later, LineBehind source front l ∧ EncodesInTurn labels 0 front chunks ∧
        encodeLine labels chunks.flatten.length l = .error ⟨none, fault⟩ ∧ fault.stage = .encoding ∧
        (encodeLines labels 0 (lines source)).map Prod.snd = chunks.map .ok ++ .error ⟨none, fault⟩ :: later ∧
        assemble source = .error ⟨some (placeBehind front l), fault⟩ := by
  refine ⟨fun e => assemble_eq_error_of_resolveLabels, ?_⟩
  intro labels h
  obtain ⟨ss, hs, hl⟩ := bind_eq_ok_iff.mp h
  cases hg : generate labels ss with
  | ok program =>
    obtain ⟨chunks, hturn, rfl⟩ := exists_encodesInTurn_of_generate hs hg
    have hlines := hturn.map_snd_encodeLines []
    have hassemble := assemble_eq_ok_iff.mpr ⟨ss, labels, hs, hl, hg⟩
    exact .inl ⟨chunks, hturn, by simpa [encodeLines] using hlines, hassemble⟩
  | error e =>
    obtain ⟨front, l, chunks, fault, ⟨back, hlines⟩, hturn, hfails, hstage, rfl⟩ := exists_failing_line_of_generate hs hg
    have hall := hturn.map_snd_encodeLines (l :: back)
    rw [Nat.zero_add, encodeLines, hfails, ← hlines] at hall
    have hassemble := assemble_eq_error_iff.mpr (.inr ⟨ss, hs, .inr ⟨labels, hl, hg⟩⟩)
    exact .inr ⟨front, l, chunks, fault, _, ⟨back, hlines⟩, hturn, hfails, hstage, hall, hassemble⟩

theorem lines_in_turn_up_to_a_fault :
    let source := "BRZ end ; forward\n\n,\nx:\n ST R1 [x\nend:\nFOO".toList
    ∃ labels front l chunks, resolveLabels source = .ok labels ∧ LineBehind source front l ∧
      EncodesInTurn labels 0 front chunks ∧
      encodeLine labels chunks.flatten.length l = .error ⟨none, .operandMismatch .st⟩ ∧
      assemble source = .error ⟨some ⟨5, 2⟩, .operandMismatch .st⟩ := by
  intro source
  have hfails : assemble source = .error ⟨some ⟨5, 2⟩, .operandMismatch .st⟩ := by decide +kernel
  have hresolves : (resolveLabels source).toBool = true := by decide +kernel
  cases hl : resolveLabels source with
  | error e => simp [hl, Except.toBool] at hresolves
  | ok labels =>
    obtain ⟨_, -, -, h⟩ | ⟨front, l, chunks, fault, _, here, hturn, hline, -, -, h⟩ :=
      (encodeLine_in_turn_agrees_with_assemble source).2 labels hl
    · cases hfails.symm.trans h
    · obtain ⟨-, rfl⟩ := SourceError.mk.inj (Except.error.inj (hfails.symm.trans h))
      exact ⟨labels, front, l, chunks, rfl, here, hturn, hline, hfails⟩

end ByteMachine
