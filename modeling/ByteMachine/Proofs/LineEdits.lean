import ByteMachine.Proofs.LineMeanings

/-! # Line edits: changes to the look of a line that leave what it says

Blanks and comments may be added anywhere around what a line says. Inside an instruction, words keep their places but
not the gaps between them, and the case of letters counts in labels only. -/
namespace ByteMachine

open Text

/-- Commas and blanks, perhaps with a comment behind them. -/
inductive SilentLine : List Char → Prop
  | intro {gap comment} (separators : ∀ c ∈ gap, isSeparator c = true)
      (optional : comment = [] ∨ comment.head? = some ';') : SilentLine (gap ++ comment)

def InstructionLine (l : List Char) : Prop :=
  ∃ mnemonic operands, statementOn? l = some (.instruction mnemonic operands)

/-- A run of commas and blanks. -/
def Gap (gap : List Char) : Prop := gap ≠ [] ∧ ∀ c ∈ gap, isSeparator c = true

/-- The end of one word and the start of another, both in front of the comment. -/
structure BetweenWords (front back : List Char) : Prop where
  noComment : ';' ∉ front
  left : ∃ c, front.getLast? = some c ∧ isSeparator c = false
  right : ∃ c, back.head? = some c ∧ isSeparator c = false ∧ c ≠ ';'

/-- A word in front of the comment, between what stands before it and what stands behind it. -/
structure WordAt (front : List Char) (w : Token) (back : List Char) : Prop where
  noComment : ';' ∉ front
  starts : ∀ c ∈ front.getLast?, isSeparator c = true
  word : IsWord w
  ends : ∀ c ∈ back.head?, isSeparator c = true ∨ c = ';'

/-- The operands of an opcode, counted from zero, that are registers. -/
def RegisterPosition (op : Opcode) (i : Nat) : Prop :=
  match op.form with
  | .regImm | .regMem => i = 0
  | .regReg => i < 2
  | _ => False

/-- The same letters but for their case. -/
def SameLetters (w w' : Token) : Prop := Opcode.upperCase w = Opcode.upperCase w'

/-- Changes to a line that do not matter. The case of letters may change in a mnemonic, and in a register that stands
where one is expected. -/
inductive LineEdit : List Char → List Char → Prop
  | blanks {before l after} (blank : ∀ c ∈ before ++ after, isBlank c = true) : LineEdit l (before ++ l ++ after)
  | comment (l text) : LineEdit l (l ++ ';' :: text)
  | separators {front gap gap' back} (instruction : InstructionLine (front ++ gap ++ back))
      (between : BetweenWords front back) (old : Gap gap) (new : Gap gap') :
      LineEdit (front ++ gap ++ back) (front ++ gap' ++ back)
  | mnemonic {front w w' back} (instruction : InstructionLine (front ++ w ++ back)) (here : WordAt front w back)
      (first : tokens front = []) (letters : SameLetters w w') : LineEdit (front ++ w ++ back) (front ++ w' ++ back)
  | register {front w w' back mnemonic before op r} (instruction : InstructionLine (front ++ w ++ back))
      (here : WordAt front w back) (behind : tokens front = mnemonic :: before)
      (known : Opcode.ofName? mnemonic = some op) (position : RegisterPosition op before.length)
      (valid : Register.ofName? w = some r) (letters : SameLetters w w') :
      LineEdit (front ++ w ++ back) (front ++ w' ++ back)

/-- The part of a line in front of its comment. -/
def codePart (line : List Char) : List Char := line.takeWhile (· != ';')

theorem codePart_append {xs : List Char} (h : ';' ∉ xs) (ys : List Char) : codePart (xs ++ ys) = xs ++ codePart ys := by
  apply List.takeWhile_append_of_pos
  intro c hc
  simp only [bne_iff_ne]
  rintro rfl
  exact h hc

theorem codePart_comment (l text : List Char) : codePart (l ++ ';' :: text) = codePart l := by
  unfold codePart
  induction l with
  | nil => rfl
  | cons c l ih => rw [List.cons_append, List.takeWhile_cons, List.takeWhile_cons, ih]

theorem trim_append_left {before : List Char} (h : ∀ c ∈ before, isBlank c = true) (cs : List Char) :
    trim (before ++ cs) = trim cs := by
  rw [trim, trimStart, List.dropWhile_append_of_pos h]
  rfl

theorem words_append_of_getLast {p : Char → Bool} {xs : List Char} (h : ∀ c ∈ xs.getLast?, p c = true)
    (ys : List Char) : words p (xs ++ ys) = words p xs ++ words p ys := by
  obtain rfl | ⟨init, c, rfl⟩ := List.eq_nil_or_concat' xs
  · rfl
  · have hc : p c = true := h c (by simp)
    rw [List.append_assoc, List.singleton_append, words_append_cons hc, words_append_cons hc, words_nil,
      List.append_nil]

theorem words_append_gap {p : Char → Bool} {gap : List Char} (h : ∀ c ∈ gap, p c = true) (xs : List Char) :
    words p (xs ++ gap) = words p xs := by
  cases gap with
  | nil => rw [List.append_nil]
  | cons c gap =>
    obtain ⟨hc, hgap⟩ := List.forall_mem_cons.mp h
    rw [words_append_cons hc, words_of_forall hgap, List.append_nil]

theorem isSeparator_of_isBlank {c : Char} (h : isBlank c = true) : isSeparator c = true := by
  rw [isSeparator, h, Bool.or_true]

theorem tokens_trim (cs : List Char) : tokens (trim cs) = tokens cs := by
  obtain ⟨before, after, hcs, hbefore, hafter⟩ := exists_eq_append_trim cs
  have hall : tokens (before ++ trim cs ++ after) = tokens (trim cs) := by
    rw [tokens, words_append_gap fun c hc => isSeparator_of_isBlank (hafter c hc),
      words_append_of_forall fun c hc => isSeparator_of_isBlank (hbefore c hc)]
    rfl
  rw [← hall, ← hcs]

/-- The last character that is no blank. -/
def lastVisible? (cs : List Char) : Option Char := cs.reverse.find? (!isBlank ·)

theorem lastVisible?_append (xs ys : List Char) : lastVisible? (xs ++ ys) = (lastVisible? ys).or (lastVisible? xs) := by
  rw [lastVisible?, List.reverse_append, List.find?_append]
  rfl

theorem lastVisible?_of_getLast {cs : List Char} (h : ∀ c ∈ cs.getLast?, isBlank c = false) :
    lastVisible? cs = cs.getLast? := by
  obtain rfl | ⟨init, c, rfl⟩ := List.eq_nil_or_concat' cs
  · rfl
  · have hc : isBlank c = false := h c (by simp)
    simp [lastVisible?, hc]

theorem lastVisible?_of_blank {cs : List Char} (h : ∀ c ∈ cs, isBlank c = true) : lastVisible? cs = none := by
  simpa [lastVisible?] using h

theorem getLast?_trim (cs : List Char) : (trim cs).getLast? = lastVisible? cs := by
  obtain ⟨before, after, hcs, hbefore, hafter⟩ := exists_eq_append_trim cs
  have hall : lastVisible? (before ++ trim cs ++ after) = (trim cs).getLast? := by
    rw [lastVisible?_append, lastVisible?_append, lastVisible?_of_blank hafter, lastVisible?_of_blank hbefore,
      lastVisible?_of_getLast (trimmed_trim cs).2, Option.none_or, Option.or_none]
  rw [← hall, ← hcs]

theorem statementOn?_eq_instruction_iff {l : List Char} {mnemonic : Token} {operands : List Token} :
    statementOn? l = some (.instruction mnemonic operands) ↔
      lastVisible? (codePart l) ≠ some ':' ∧ tokens (codePart l) = mnemonic :: operands := by
  rw [statementOn?_eq_some_iff, Statement.ofLine?_eq_instruction_iff, ← getLast?_trim,
    ← tokens_trim (codePart l)]
  rfl

theorem SilentLine.meaning?_eq {l : List Char} (h : SilentLine l) : meaning? l = none := by
  obtain @⟨gap, comment, separators, optional⟩ := h
  have hcode : codePart (gap ++ comment) = gap := by
    have hgap : ';' ∉ gap := fun hm => absurd (separators _ hm) (by decide)
    exact Grammar.takeWhile_eq_iff.mpr ⟨hgap, comment, rfl, optional⟩
  have hlast : (trim gap).getLast? ≠ some ':' := by
    intro hl
    have hmem : ':' ∈ gap := by
      obtain ⟨before, after, hgap, -, -⟩ := exists_eq_append_trim gap
      rw [hgap]
      simp [List.mem_of_getLast? hl]
    exact absurd (separators _ hmem) (by decide)
  have hwords : tokens (trim gap) = [] := by
    rw [tokens_trim]
    exact words_of_forall separators
  have hnone : Statement.ofLine? (stripComment (gap ++ comment)) = .ok none := by
    change Statement.ofLine? (trim (codePart (gap ++ comment))) = .ok none
    rw [hcode]
    exact Statement.ofLine?_eq_none_iff.mpr ⟨hlast, hwords⟩
  rw [meaning?, hnone]

theorem stripComment_blanks {before after : List Char} (h : ∀ c ∈ before ++ after, isBlank c = true) (l : List Char) :
    stripComment (before ++ l ++ after) = stripComment l := by
  obtain ⟨hbefore, hafter⟩ := List.forall_mem_append.mp h
  have hnone : ';' ∉ before := fun hm => absurd (hbefore _ hm) (by decide)
  rw [stripComment_append_right hafter]
  change trim (codePart (before ++ l)) = trim (codePart l)
  rw [codePart_append hnone, trim_append_left hbefore]

/-- The words on both sides of a gap do not depend on it, and neither does the end of the line. -/
theorem BetweenWords.statementOn?_eq {front back gap gap' : List Char} (h : BetweenWords front back) (old : Gap gap)
    (new : Gap gap') {mnemonic : Token} {operands : List Token}
    (hi : statementOn? (front ++ gap ++ back) = some (.instruction mnemonic operands)) :
    statementOn? (front ++ gap' ++ back) = some (.instruction mnemonic operands) := by
  obtain ⟨c, hc, hcs, hcne⟩ := h.right
  obtain ⟨rest, rfl⟩ := List.head?_eq_some_iff.mp hc
  have hcode {g : List Char} (hg : Gap g) : codePart (front ++ g ++ c :: rest) = front ++ g ++ c :: codePart rest := by
    have hnone : ';' ∉ front ++ g := by
      rw [List.mem_append, not_or]
      exact ⟨h.noComment, fun hm => absurd (hg.2 _ hm) (by decide)⟩
    rw [codePart_append hnone]
    simp [codePart, hcne]
  have hwords {g : List Char} (hg : Gap g) :
      tokens (front ++ g ++ c :: codePart rest) = tokens front ++ tokens (c :: codePart rest) := by
    obtain ⟨d, ds, rfl⟩ := List.exists_cons_of_ne_nil hg.1
    obtain ⟨hd, hds⟩ := List.forall_mem_cons.mp hg.2
    rw [tokens, List.append_assoc, List.cons_append, words_append_cons hd, words_append_of_forall hds]
    rfl
  have hlast {g : List Char} : lastVisible? (front ++ g ++ c :: codePart rest) = lastVisible? (c :: codePart rest) := by
    have hsome : (lastVisible? (c :: codePart rest)).isSome = true := by
      simp [lastVisible?, not_isBlank_of_not_isSeparator hcs]
    obtain ⟨d, hd⟩ := Option.isSome_iff_exists.mp hsome
    rw [lastVisible?_append, hd]
    rfl
  rw [statementOn?_eq_instruction_iff, hcode old, hwords old, hlast] at hi
  rwa [statementOn?_eq_instruction_iff, hcode new, hwords new, hlast]

theorem toUpper_eq_iff_of_not_isAlpha {c d : Char} (h : d.isAlpha = false) : c.toUpper = d.toUpper ↔ c = d := by
  have hd : ¬ ((65 ≤ d.toNat ∧ d.toNat ≤ 90) ∨ (97 ≤ d.toNat ∧ d.toNat ≤ 122)) := by
    simpa [Char.isAlpha, Char.isUpper, Char.isLower, UInt32.le_iff_toNat_le] using h
  rw [← Char.toNat_inj, ← Char.toNat_inj, Grammar.toNat_toUpper, Grammar.toNat_toUpper]
  split_ifs <;> omega

theorem not_isAlpha_of_isSeparator {c : Char} (h : isSeparator c = true) : c.isAlpha = false := by
  rw [Bool.eq_false_iff]
  intro ha
  have hstart : isIdentifierStart c = true := by rw [isIdentifierStart, ha, Bool.true_or]
  have hw : IsWord [c] := IsWord.of_isIdentifier (by simp [isIdentifier, hstart])
  simp [(hw.2 c List.mem_cons_self).1] at h

/-- A character that is no letter stands in both words or in neither. -/
theorem SameLetters.mem {w w' : Token} (h : SameLetters w w') {c : Char} (hc : c.isAlpha = false) (hm : c ∈ w') :
    c ∈ w := by
  have hu : c.toUpper ∈ Opcode.upperCase w := by
    rw [h]
    exact List.mem_map_of_mem hm
  obtain ⟨d, hd, he⟩ := List.mem_map.mp hu
  rwa [← (toUpper_eq_iff_of_not_isAlpha hc).mp he]

theorem SameLetters.getLast?_eq {w w' : Token} (h : SameLetters w w') {c : Char} (hc : c.isAlpha = false)
    (hl : w'.getLast? = some c) : w.getLast? = some c := by
  have hu : (Opcode.upperCase w).getLast? = some c.toUpper := by
    rw [h, Opcode.upperCase, List.getLast?_map, hl]
    rfl
  rw [Opcode.upperCase, List.getLast?_map] at hu
  obtain ⟨d, hd, he⟩ := Option.map_eq_some_iff.mp hu
  rwa [← (toUpper_eq_iff_of_not_isAlpha hc).mp he]

theorem SameLetters.isWord {w w' : Token} (h : SameLetters w w') (hw : IsWord w) : IsWord w' := by
  refine ⟨?_, ?_⟩
  · rintro rfl
    exact hw.1 (List.map_eq_nil_iff.mp h)
  · intro c hc
    constructor
    · rw [Bool.eq_false_iff]
      intro hs
      have hm := h.mem (not_isAlpha_of_isSeparator hs) hc
      simp [(hw.2 c hm).1] at hs
    · rintro rfl
      exact (hw.2 _ (h.mem (by decide) hc)).2 rfl

theorem isAlpha_digitChar (r : Register) : (Nat.digitChar r.val).isAlpha = false := by
  revert r
  decide

theorem SameLetters.ofName?_register {w w' : Token} (h : SameLetters w w') {r : Register}
    (hr : Register.ofName? w = some r) : Register.ofName? w' = some r := by
  obtain ⟨letter, hletter, rfl⟩ := Register.ofName?_eq_some_iff.mp hr
  obtain ⟨c, d, rfl⟩ : ∃ c d, w' = [c, d] := by
    have hlength := congrArg List.length h
    simp only [Opcode.upperCase, List.length_map] at hlength
    exact List.length_eq_two.mp hlength.symm
  simp only [SameLetters, Opcode.upperCase, List.map_cons, List.map_nil, List.cons.injEq, and_true] at h
  obtain rfl := (toUpper_eq_iff_of_not_isAlpha (isAlpha_digitChar r)).mp h.2.symm
  refine Register.ofName?_eq_some_iff.mpr ⟨c, ?_, rfl⟩
  rw [← Grammar.toLower_eq_r_iff] at hletter ⊢
  rw [← hletter]
  exact Grammar.toUpper_eq_iff.mp h.1.symm

section Words

variable {front back : List Char} {w w' : Token}

theorem WordAt.codePart_eq (h : WordAt front w back) : codePart (front ++ w ++ back) = front ++ w ++ codePart back := by
  apply codePart_append
  rw [List.mem_append, not_or]
  exact ⟨h.noComment, fun hm => (h.word.2 _ hm).2 rfl⟩

theorem WordAt.tokens_eq (h : WordAt front w back) :
    tokens (codePart (front ++ w ++ back)) = tokens front ++ w :: tokens (codePart back) := by
  have hends : ∀ c ∈ (codePart back).head?, isSeparator c = true := by
    intro c hc
    rw [codePart, List.head?_takeWhile] at hc
    obtain ⟨hback, hne⟩ := Option.filter_eq_some_iff.mp hc
    exact (h.ends c hback).resolve_right (by simpa using hne)
  rw [h.codePart_eq, tokens, List.append_assoc, words_append_of_getLast h.starts,
    words_append_of_head h.word.1 (fun c hc => (h.word.2 c hc).1) hends]
  rfl

theorem WordAt.lastVisible?_eq (h : WordAt front w back) :
    lastVisible? (codePart (front ++ w ++ back)) = (lastVisible? (codePart back)).or w.getLast? := by
  obtain ⟨c, hc⟩ : ∃ c, w.getLast? = some c := ⟨_, List.getLast?_eq_some_getLast h.word.1⟩
  rw [h.codePart_eq, lastVisible?_append, lastVisible?_append, lastVisible?_of_getLast h.word.trimmed.2, hc]
  rfl

theorem WordAt.respelled (h : WordAt front w back) (letters : SameLetters w w') : WordAt front w' back :=
  { h with word := letters.isWord h.word }

/-- An instruction with one of its words respelled is an instruction with that word in the same place. -/
theorem WordAt.statementOn?_eq (h : WordAt front w back) (letters : SameLetters w w') {mnemonic : Token}
    {operands : List Token} (hi : InstructionLine (front ++ w ++ back))
    (hwords : tokens front ++ w' :: tokens (codePart back) = mnemonic :: operands) :
    statementOn? (front ++ w' ++ back) = some (.instruction mnemonic operands) := by
  obtain ⟨_, _, hi⟩ := hi
  obtain ⟨hlast, -⟩ := statementOn?_eq_instruction_iff.mp hi
  rw [h.lastVisible?_eq] at hlast
  refine statementOn?_eq_instruction_iff.mpr ⟨?_, (h.respelled letters).tokens_eq.trans hwords⟩
  rw [(h.respelled letters).lastVisible?_eq]
  cases hv : lastVisible? (codePart back) with
  | some c => simpa [hv] using hlast
  | none =>
    -- the word ends the line, and a colon cannot come in by a change of case
    rw [hv, Option.none_or] at hlast
    rw [Option.none_or]
    exact fun hl => hlast (letters.getLast?_eq (by decide) hl)

end Words

theorem Statement.Alike.of_sameLetters {w w' : Token} (h : SameLetters w w') (operands : List Token) :
    (Statement.instruction w operands).Alike (.instruction w' operands) := by
  have hname : Opcode.ofName? w = Opcode.ofName? w' := by rw [Opcode.ofName?, Opcode.ofName?, h]
  refine ⟨rfl, ?_, ?_⟩
  · simp only [assumedLength, Opcode.assumedLength, hname]
  · intro labels pc
    have hupper : Opcode.upperCase w = Opcode.upperCase w' := h
    simp only [Statement.encode, ByteMachine.encode, readInstruction, hname, hupper]

/-- Two ways to write a register are one operand where a register is expected. -/
theorem instructionOf_congr {labels : LabelTable} {op : Opcode} {before after : List Token} {w w' : Token}
    (position : RegisterPosition op before.length) (h : registerOf w = registerOf w') :
    instructionOf labels op (before ++ w :: after) = instructionOf labels op (before ++ w' :: after) := by
  cases op with
  | nop | brz | jmp => exact position.elim
  | ldi | ld | st =>
    obtain rfl := List.length_eq_zero_iff.mp position
    rcases after with _ | ⟨v, _ | ⟨u, more⟩⟩ <;> simp [instructionOf, h]
  | alu f =>
    rcases before with _ | ⟨x, _ | ⟨y, more⟩⟩
    · rcases after with _ | ⟨v, _ | ⟨u, more⟩⟩ <;> simp [instructionOf, h]
    · rcases after with _ | ⟨v, more⟩ <;> simp [instructionOf, h]
    · simp [RegisterPosition, Opcode.form] at position

theorem Statement.Alike.of_register {mnemonic : Token} {before after : List Token} {w w' : Token} {op : Opcode}
    (known : Opcode.ofName? mnemonic = some op) (position : RegisterPosition op before.length)
    (h : registerOf w = registerOf w') :
    (Statement.instruction mnemonic (before ++ w :: after)).Alike (.instruction mnemonic (before ++ w' :: after)) := by
  refine ⟨rfl, rfl, ?_⟩
  intro labels pc
  simp only [Statement.encode, ByteMachine.encode, readInstruction, known, instructionOf_congr position h]

/-- An edited line says the same. -/
theorem LineEdit.sameMeaning {l l' : List Char} (h : LineEdit l l') :
    List.Forall₂ SameMeaning (meaning? l).toList (meaning? l').toList := by
  have hsame {k k' : List Char} (he : meaning? k = meaning? k') :
      List.Forall₂ SameMeaning (meaning? k).toList (meaning? k').toList := by
    rw [he]
    exact List.forall₂_same.mpr fun m _ => .refl m
  have halike {k k' : List Char} {s t : Statement} (hs : statementOn? k = some s) (ht : statementOn? k' = some t)
      (hst : s.Alike t) : List.Forall₂ SameMeaning (meaning? k).toList (meaning? k').toList := by
    rw [meaning?_of_statementOn? hs, meaning?_of_statementOn? ht]
    exact .cons (.statement hst) .nil
  cases h with
  | blanks blank => exact hsame (meaning?_of_stripComment_eq (stripComment_blanks blank l).symm)
  | comment _ text =>
    apply hsame
    apply meaning?_of_stripComment_eq
    exact (congrArg trim (codePart_comment l text)).symm
  | separators instruction between old new =>
    obtain ⟨mnemonic, operands, hi⟩ := instruction
    exact halike hi (between.statementOn?_eq old new hi) (.refl _)
  | mnemonic instruction here first letters =>
    have hold := here.statementOn?_eq rfl instruction (by rw [first]; rfl)
    have hnew := here.statementOn?_eq letters instruction (by rw [first]; rfl)
    exact halike hold hnew (.of_sameLetters letters _)
  | register instruction here behind known position valid letters =>
    have hold := here.statementOn?_eq rfl instruction (by rw [behind]; rfl)
    have hnew := here.statementOn?_eq letters instruction (by rw [behind]; rfl)
    have hw := registerOf_eq_ok_iff.mpr valid
    have hw' := registerOf_eq_ok_iff.mpr (letters.ofName?_register valid)
    exact halike hold hnew (.of_register known position (hw.trans hw'.symm))

end ByteMachine
