import ByteMachine.Proofs.Grammar
import ByteMachine.Proofs.InstructionStreams

/-! # Acceptance: a source can be assembled exactly when it is in the language -/
namespace ByteMachine.Grammar

open Text

theorem trimmed_stripComment (line : List Char) : Trimmed (stripComment line) := trimmed_trim _

theorem defines_iff {line : List Char} {name : Token} :
    Defines line name ↔ Statement.ofLine? (stripComment line) = .ok (some (.label name)) := by
  rw [← labelLine_iff (trimmed_stripComment line)]
  constructor
  · rintro ⟨body, hb, hl⟩
    rwa [body_iff.mp hb]
  · exact fun h => ⟨_, body_iff.mpr rfl, h⟩

/-- A body is accepted if it can be read, and, if it is an instruction, has a mnemonic with operands of its form. -/
theorem accepted_iff {value : Token → Prop} {body : List Char} (ht : Trimmed body) : Accepted value body ↔
    ∃ s, Statement.ofLine? body = .ok s ∧ ∀ mnemonic operands, s = some (.instruction mnemonic operands) →
      ∃ op, Opcode.ofName? mnemonic = some op ∧ Operands value op operands := by
  constructor
  · intro h
    cases h with
    | empty separators =>
      have hwords : tokens body = [] := words_of_forall fun c hc => separator_iff.mp (separators c hc)
      have hlast : body.getLast? ≠ some ':' := by
        intro hl
        have hs := separator_iff.mp (separators ':' (List.mem_of_getLast? hl))
        simp [isSeparator, isBlank] at hs
      refine ⟨none, Statement.ofLine?_eq_none_iff.mpr ⟨hlast, hwords⟩, ?_⟩
      intro mnemonic operands he
      cases he
    | label definition =>
      refine ⟨_, (labelLine_iff ht).mp definition, ?_⟩
      intro mnemonic operands he
      cases he
    | instruction noColon split name form =>
      refine ⟨_, Statement.ofLine?_eq_instruction_iff.mpr ⟨noColon, splits_iff.mp split⟩, ?_⟩
      intro mnemonic operands he
      cases he
      exact ⟨_, mnemonic_iff.mp name, form⟩
  · rintro ⟨s, hs, hinstruction⟩
    rcases s with _ | name | ⟨mnemonic, operands⟩
    · have hsplit := splits_iff.mpr (Statement.ofLine?_eq_none_iff.mp hs).2
      exact .empty (hsplit.separators rfl)
    · exact .label ((labelLine_iff ht).mpr hs)
    · obtain ⟨hlast, hwords⟩ := Statement.ofLine?_eq_instruction_iff.mp hs
      obtain ⟨op, hop, hform⟩ := hinstruction mnemonic operands rfl
      exact .instruction hlast (splits_iff.mpr hwords) (mnemonic_iff.mpr hop) hform

theorem inLanguage_iff {source : List Char} : InLanguage source ↔
    (∀ line ∈ lines source, Accepted (Value (lines source)) (stripComment line)) ∧
      (lines source).Pairwise fun line other => ∀ name, Defines line name → ¬ Defines other name := by
  constructor
  · rintro ⟨ls, hls, haccepted, hnodup⟩
    obtain rfl := hls.lines_eq
    refine ⟨?_, hnodup⟩
    intro line hline
    obtain ⟨body, hb, ha⟩ := haccepted line hline
    rwa [body_iff.mp hb]
  · rintro ⟨haccepted, hnodup⟩
    exact ⟨lines source, lines_lines source, fun line hline => ⟨_, body_iff.mpr rfl, haccepted line hline⟩, hnodup⟩

theorem Value.plain {ls : List (List Char)} {w : Token} (h : Value ls w) :
    w ≠ [] ∧ ∀ c ∈ w, isBracket c = false := by
  rcases h with ⟨line, -, body, -, ⟨identifier, -⟩⟩ | hn
  · have hid := identifier_iff.mp identifier
    exact ⟨ne_nil_of_isIdentifier hid, not_isBracket_of_isIdentifier hid⟩
  · obtain ⟨v, hv⟩ := numeral_iff.mp hn
    obtain ⟨n, hd, -⟩ := numeral?_eq_some_iff.mp hv
    exact ⟨hd.ne_nil, fun c hc => (hd.plain_of_mem hc).2.1⟩

section Resolved

variable {source : List Char} {ss : List (Located Statement)} {labels : LabelTable}

theorem exists_get?_iff (hs : statements source = .ok ss) (hl : resolve ss = .ok labels) {name : Token} :
    (∃ v, labels.get? name = some v) ↔ ∃ line ∈ lines source, Defines line name := by
  rw [← Option.isSome_iff_exists, isSome_get?_of_resolve hl, mem_labelNames_iff, mem_values_iff hs]
  simp only [defines_iff]

/-- The words that count as values are those that the label table or the reader of numerals knows. -/
theorem value_iff (hs : statements source = .ok ss) (hl : resolve ss = .ok labels) {w : Token} :
    Value (lines source) w ↔ ∃ v, valueOf labels w = .ok v := by
  simp only [Value, ← exists_get?_iff hs hl, numeral_iff, valueOf_eq_ok_iff]
  cases labels.get? w <;> simp

theorem memory_iff (hs : statements source = .ok ss) (hl : resolve ss = .ok labels) (op : Opcode) {w : Token} :
    Memory (Value (lines source)) w ↔ ∃ v, cellOf labels op w = .ok v := by
  simp only [cellOf_eq_ok_iff, unbracket?_eq_some_iff]
  constructor
  · intro h
    cases h with
    | bare inner =>
      obtain ⟨hne, hb⟩ := inner.plain
      obtain ⟨v, hv⟩ := (value_iff hs hl).mp inner
      exact ⟨v, w, ⟨hne, hb, .inl rfl⟩, hv⟩
    | bracketed inner =>
      obtain ⟨hne, hb⟩ := inner.plain
      obtain ⟨v, hv⟩ := (value_iff hs hl).mp inner
      exact ⟨v, _, ⟨hne, hb, .inr rfl⟩, hv⟩
  · rintro ⟨v, inner, ⟨-, -, rfl | rfl⟩, hv⟩
    · exact .bare ((value_iff hs hl).mpr ⟨v, hv⟩)
    · exact .bracketed ((value_iff hs hl).mpr ⟨v, hv⟩)

theorem operands_iff (hs : statements source = .ok ss) (hl : resolve ss = .ok labels) {op : Opcode}
    {operands : List Token} :
    Operands (Value (lines source)) op operands ↔ ∃ i, Reads labels op operands i := by
  constructor
  · intro h
    cases h with
    | nop => exact ⟨_, .nop⟩
    | ldi register immediate =>
      obtain ⟨r, hr⟩ := registerName_iff.mp register
      obtain ⟨v, hv⟩ := (value_iff hs hl).mp immediate
      exact ⟨_, .ldi hr hv⟩
    | alu first second =>
      obtain ⟨r, hr⟩ := registerName_iff.mp first
      obtain ⟨q, hq⟩ := registerName_iff.mp second
      exact ⟨_, .alu hr hq⟩
    | ld register cell =>
      obtain ⟨r, hr⟩ := registerName_iff.mp register
      obtain ⟨v, hv⟩ := (memory_iff hs hl .ld).mp cell
      exact ⟨_, .ld hr hv⟩
    | st register cell =>
      obtain ⟨r, hr⟩ := registerName_iff.mp register
      obtain ⟨v, hv⟩ := (memory_iff hs hl .st).mp cell
      exact ⟨_, .st hr hv⟩
    | jmp target =>
      obtain ⟨v, hv⟩ := (value_iff hs hl).mp target
      exact ⟨_, .jmp hv⟩
    | brz target =>
      obtain ⟨v, hv⟩ := (value_iff hs hl).mp target
      exact ⟨_, .brz hv⟩
  · rintro ⟨i, h⟩
    cases h with
    | nop => exact .nop
    | ldi register value => exact .ldi (registerName_iff.mpr ⟨_, register⟩) ((value_iff hs hl).mpr ⟨_, value⟩)
    | alu first second => exact .alu (registerName_iff.mpr ⟨_, first⟩) (registerName_iff.mpr ⟨_, second⟩)
    | ld register cell => exact .ld (registerName_iff.mpr ⟨_, register⟩) ((memory_iff hs hl .ld).mpr ⟨_, cell⟩)
    | st register cell => exact .st (registerName_iff.mpr ⟨_, register⟩) ((memory_iff hs hl .st).mpr ⟨_, cell⟩)
    | jmp target => exact .jmp ((value_iff hs hl).mpr ⟨_, target⟩)
    | brz target => exact .brz ((value_iff hs hl).mpr ⟨_, target⟩)

theorem nodup_labelNames_iff (hs : statements source = .ok ss) : (labelNames (values ss)).Nodup ↔
    (lines source).Pairwise fun line other => ∀ name, Defines line name → ¬ Defines other name := by
  have hdefines (line : List Char) (name : Token) :
      (statementOn? line).bind Statement.labelName? = some name ↔ Defines line name := by
    rw [defines_iff, ← statementOn?_eq_some_iff, Option.bind_eq_some_iff]
    constructor
    · rintro ⟨_ | _, hline, hname⟩
      · cases hname
        exact hline
      · cases hname
    · exact fun h => ⟨_, h, rfl⟩
  rw [labelNames, values_of_statements hs, List.filterMap_filterMap, List.Nodup, List.pairwise_filterMap]
  simp only [hdefines]
  constructor
  · exact fun h => h.imp fun hne name hd hd' => hne name hd name hd' rfl
  · intro h
    refine h.imp ?_
    rintro line other hnot name hd _ hd' rfl
    exact hnot name hd hd'

theorem accepted_stripComment_iff (hs : statements source = .ok ss) (hl : resolve ss = .ok labels) :
    (∀ line ∈ lines source, Accepted (Value (lines source)) (stripComment line)) ↔
      ∀ mnemonic operands, .instruction mnemonic operands ∈ values ss →
        ∃ i, readInstruction labels mnemonic operands = .ok i := by
  have hread := exists_statements_iff.mp ⟨ss, hs⟩
  simp only [accepted_iff (trimmed_stripComment _), operands_iff hs hl, mem_values_iff hs, readInstruction_eq_ok_iff]
  constructor
  · rintro h mnemonic operands ⟨line, hline, hi⟩
    obtain ⟨s, hs', hinstruction⟩ := h line hline
    obtain ⟨op, hop, i, hr⟩ := hinstruction mnemonic operands (Except.ok.inj (hs'.symm.trans hi))
    exact ⟨i, op, hop, hr⟩
  · intro h line hline
    obtain ⟨s, hs'⟩ := hread line hline
    refine ⟨s, hs', ?_⟩
    rintro mnemonic operands rfl
    obtain ⟨i, op, hop, hr⟩ := h mnemonic operands ⟨line, hline, hs'⟩
    exact ⟨op, hop, i, hr⟩

end Resolved

theorem exists_assemble_iff {source : List Char} : (∃ program, assemble source = .ok program) ↔
    ∃ ss labels, statements source = .ok ss ∧ resolve ss = .ok labels ∧
      ∀ mnemonic operands, .instruction mnemonic operands ∈ values ss →
        ∃ i, readInstruction labels mnemonic operands = .ok i := by
  simp only [assemble_eq_ok_iff, generate_eq_ok_iff_yields, ← exists_yields_iff]
  constructor
  · rintro ⟨_, ss, labels, hs, hl, is, hy, -⟩
    exact ⟨ss, labels, hs, hl, is, hy⟩
  · rintro ⟨ss, labels, hs, hl, is, hy⟩
    exact ⟨_, ss, labels, hs, hl, is, hy, rfl⟩

/-- The assembler accepts the language, no more and no less. For the names of registers it makes no difference how a
comparison without regard to case would treat characters outside ASCII. -/
theorem assemble_accepts_iff_inLanguage (source : List Char) :
    ((∃ program, assemble source = .ok program) ↔ InLanguage source) ∧
      ∀ lower, Lowercase lower → ∀ w r, Register.ofName? w = some r ↔ w.flatMap lower = r.name.flatMap lower := by
  refine ⟨?_, fun lower h w r => h.ofName?_eq_some_iff⟩
  rw [exists_assemble_iff, inLanguage_iff]
  constructor
  · rintro ⟨ss, labels, hs, hl, hread⟩
    have hnodup := exists_resolve_iff.mp ⟨labels, hl⟩
    exact ⟨(accepted_stripComment_iff hs hl).mpr hread, (nodup_labelNames_iff hs).mp hnodup⟩
  · rintro ⟨haccepted, hnodup⟩
    have hlines : ∀ line ∈ lines source, ∃ s, Statement.ofLine? (stripComment line) = .ok s := by
      intro line hline
      obtain ⟨s, hs, -⟩ := (accepted_iff (trimmed_stripComment line)).mp (haccepted line hline)
      exact ⟨s, hs⟩
    obtain ⟨ss, hs⟩ := exists_statements_iff.mpr hlines
    obtain ⟨labels, hl⟩ := exists_resolve_iff.mpr ((nodup_labelNames_iff hs).mpr hnodup)
    exact ⟨ss, labels, hs, hl, (accepted_stripComment_iff hs hl).mp haccepted⟩

theorem odd_corners_of_the_language :
    InLanguage ";\r\n r1 : ; a label named like a register\n , ,\nLdI,r7 r1,\nst R0 [0Xf]\nbrz\t-007".toList ∧
      ¬ InLanguage "JMP -0x1".toList ∧ ¬ InLanguage "LD R1 []".toList ∧ ¬ InLanguage "a: ,".toList ∧
      ∃ lower, Lowercase lower ∧ "r7".toList.flatMap lower = (7 : Register).name.flatMap lower := by
  have haccepts (source : List Char) := (assemble_accepts_iff_inLanguage source).1
  have hrejects (source : List Char) (h : (assemble source).toOption = none) : ¬ InLanguage source := by
    rw [← haccepts]
    rintro ⟨program, hp⟩
    simp [hp, Except.toOption] at h
  have hregister := (assemble_accepts_iff_inLanguage []).2 _ lowercase_toLower "r7".toList 7
  refine ⟨(haccepts _).mp ⟨[0x1E, 0, 0x80, 15, 0x90, 243], by decide +kernel⟩, ?_, ?_, ?_, ?_⟩
  · exact hrejects _ (by decide +kernel)
  · exact hrejects _ (by decide +kernel)
  · exact hrejects _ (by decide +kernel)
  · exact ⟨_, lowercase_toLower, hregister.mp (by decide)⟩

end ByteMachine.Grammar
