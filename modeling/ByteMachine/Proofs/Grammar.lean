import ByteMachine.Proofs.InstructionText

/-! # The language of sources, as a grammar, and how the readers of lines and words meet it

The rules are stated on characters and know nothing of the readers: lines and their ends, the body of a line, words and
the gaps between them, and what a word may be. -/
namespace ByteMachine.Grammar

open Text

/-- A text and its lines. A line feed ends a line, together with a carriage return right before it; the last line need
not be ended. -/
inductive Lines : List Char → List (List Char) → Prop
  | nil : Lines [] []
  | last {l} (nonempty : l ≠ []) (plain : '\n' ∉ l) : Lines l [l]
  | feed {l rest ls} (plain : '\n' ∉ l) (more : Lines rest ls) : Lines (l ++ '\n' :: rest) (dropReturn l :: ls)

/-- What is left of a line when it is cut at its first semicolon and trimmed. -/
def Body (line body : List Char) : Prop :=
  ∃ before after comment, line = before ++ body ++ after ++ comment ∧ ';' ∉ before ++ body ++ after ∧
    (comment = [] ∨ comment.head? = some ';') ∧ (∀ c ∈ before ++ after, isBlank c = true) ∧ Trimmed body

def Separator (c : Char) : Prop := c = ',' ∨ isBlank c = true

/-- A text and its words, with separators before, between and behind them. -/
inductive Splits : List Char → List Token → Prop
  | nil : Splits [] []
  | gap {c cs ws} (separator : Separator c) (more : Splits cs ws) : Splits (c :: cs) ws
  | word {w cs ws} (nonempty : w ≠ []) (whole : ∀ c ∈ w, ¬ Separator c) (ends : ∀ c ∈ cs.head?, Separator c)
      (more : Splits cs ws) : Splits (w ++ cs) (w :: ws)

def Letter (c : Char) : Prop := ('A' ≤ c ∧ c ≤ 'Z') ∨ ('a' ≤ c ∧ c ≤ 'z') ∨ c = '_'

def Digit (c : Char) : Prop := '0' ≤ c ∧ c ≤ '9'

def HexDigit (c : Char) : Prop := Digit c ∨ ('A' ≤ c ∧ c ≤ 'F') ∨ ('a' ≤ c ∧ c ≤ 'f')

inductive Identifier : Token → Prop
  | intro {c cs} (first : Letter c) (rest : ∀ d ∈ cs, Letter d ∨ Digit d) : Identifier (c :: cs)

inductive RegisterName : Token → Prop
  | intro {letter digit} (first : letter = 'R' ∨ letter = 'r') (second : '0' ≤ digit ∧ digit ≤ '7') :
      RegisterName [letter, digit]

inductive Numeral : Token → Prop
  | decimal {sign ds} (signed : sign = [] ∨ sign = ['+'] ∨ sign = ['-']) (nonempty : ds ≠ [])
      (digits : ∀ c ∈ ds, Digit c) : Numeral (sign ++ ds)
  | hexadecimal {x ds} (mark : x = 'x' ∨ x = 'X') (nonempty : ds ≠ []) (digits : ∀ c ∈ ds, HexDigit c) :
      Numeral ('0' :: x :: ds)

/-- The word is the name of the opcode but for the case of its letters. -/
def Mnemonic (op : Opcode) (w : Token) : Prop := w.map Char.toLower = op.name.map Char.toLower

inductive Memory (value : Token → Prop) : Token → Prop
  | bare {v} (inner : value v) : Memory value v
  | bracketed {v} (inner : value v) : Memory value ('[' :: v ++ [']'])

/-- The operands that each mnemonic takes. -/
inductive Operands (value : Token → Prop) : Opcode → List Token → Prop
  | nop : Operands value .nop []
  | ldi {rd v} (register : RegisterName rd) (immediate : value v) : Operands value .ldi [rd, v]
  | alu {f rd rs} (first : RegisterName rd) (second : RegisterName rs) : Operands value (.alu f) [rd, rs]
  | ld {rd a} (register : RegisterName rd) (cell : Memory value a) : Operands value .ld [rd, a]
  | st {rd a} (register : RegisterName rd) (cell : Memory value a) : Operands value .st [rd, a]
  | jmp {t} (target : value t) : Operands value .jmp [t]
  | brz {t} (target : value t) : Operands value .brz [t]

inductive LabelLine (name : Token) : List Char → Prop
  | intro {gap} (identifier : Identifier name) (blank : ∀ c ∈ gap, isBlank c = true) :
      LabelLine name (name ++ gap ++ [':'])

/-- What the body of a line may be, given the words that count as values. -/
inductive Accepted (value : Token → Prop) : List Char → Prop
  | empty {body} (separators : ∀ c ∈ body, Separator c) : Accepted value body
  | label {name body} (definition : LabelLine name body) : Accepted value body
  | instruction {body mnemonic operands op} (noColon : body.getLast? ≠ some ':')
      (split : Splits body (mnemonic :: operands)) (name : Mnemonic op mnemonic) (form : Operands value op operands) :
      Accepted value body

def Defines (line : List Char) (name : Token) : Prop := ∃ body, Body line body ∧ LabelLine name body

/-- A value is a label that some line defines, or a numeral. -/
def Value (ls : List (List Char)) (w : Token) : Prop := (∃ line ∈ ls, Defines line w) ∨ Numeral w

/-- Every line says nothing, defines a label or is an instruction, and no two lines define the same label. -/
def InLanguage (source : List Char) : Prop :=
  ∃ ls, Lines source ls ∧ (∀ line ∈ ls, ∃ body, Body line body ∧ Accepted (Value ls) body) ∧
    ls.Pairwise fun line other => ∀ name, Defines line name → ¬ Defines other name

theorem Lines.lines_eq {source : List Char} {ls : List (List Char)} (h : Lines source ls) : lines source = ls := by
  induction h with
  | nil => rfl
  | last nonempty plain => exact lines_of_notMem nonempty plain
  | feed plain more ih => rw [lines_append_newline plain, ih]

theorem lines_lines (source : List Char) : Lines source (lines source) := by
  induction source using lineInduction with
  | last l plain =>
    by_cases he : l = []
    · subst he
      exact .nil
    · rw [lines_of_notMem he plain]
      exact .last he plain
  | feed l rest plain ih =>
    rw [lines_append_newline plain]
    exact .feed plain ih

theorem takeWhile_eq_iff {line code : List Char} : line.takeWhile (· != ';') = code ↔
    ';' ∉ code ∧ ∃ comment, line = code ++ comment ∧ (comment = [] ∨ comment.head? = some ';') := by
  constructor
  · rintro rfl
    refine ⟨fun hm => by simpa using List.mem_takeWhile_imp hm, _, List.takeWhile_append_dropWhile.symm, ?_⟩
    cases hd : line.dropWhile (· != ';') with
    | nil => exact .inl rfl
    | cons c cs =>
      have hc := List.head?_dropWhile_not (· != ';') line
      rw [hd] at hc
      exact .inr (by simpa using hc)
  · rintro ⟨hcode, comment, rfl, hcomment⟩
    have hall : ∀ c ∈ code, (c != ';') = true := fun c hc => by
      simp only [bne_iff_ne]
      rintro rfl
      exact hcode hc
    have hnil : comment.takeWhile (· != ';') = [] := by
      rcases hcomment with rfl | hc
      · rfl
      · obtain ⟨cs, rfl⟩ := List.head?_eq_some_iff.mp hc
        rfl
    rw [List.takeWhile_append_of_pos hall, hnil, List.append_nil]

theorem body_iff {line body : List Char} : Body line body ↔ stripComment line = body := by
  rw [stripComment, trim_eq_iff]
  constructor
  · rintro ⟨before, after, comment, rfl, hcode, hcomment, hblank, htrimmed⟩
    refine ⟨htrimmed, before, after, takeWhile_eq_iff.mpr ⟨hcode, comment, rfl, hcomment⟩, ?_, ?_⟩
    · exact fun c hc => hblank c (List.mem_append_left after hc)
    · exact fun c hc => hblank c (List.mem_append_right before hc)
  · rintro ⟨htrimmed, before, after, hcode, hbefore, hafter⟩
    obtain ⟨hplain, comment, hline, hcomment⟩ := takeWhile_eq_iff.mp hcode
    refine ⟨before, after, comment, hline, hplain, hcomment, ?_, htrimmed⟩
    intro c hc
    rcases List.mem_append.mp hc with hc | hc
    · exact hbefore c hc
    · exact hafter c hc

theorem separator_iff {c : Char} : Separator c ↔ isSeparator c = true := by simp [Separator, isSeparator]

theorem Splits.tokens_eq {cs : List Char} {ws : List Token} (h : Splits cs ws) : tokens cs = ws := by
  induction h with
  | nil => rfl
  | gap separator more ih => rw [tokens, words_cons_of_pos (separator_iff.mp separator), ← tokens, ih]
  | word nonempty whole ends more ih =>
    rw [tokens, words_append_of_head nonempty, ← tokens, ih]
    · exact fun c hc => by simpa [separator_iff] using whole c hc
    · exact fun c hc => separator_iff.mp (ends c hc)

theorem splits_tokens (cs : List Char) : Splits cs (tokens cs) := by
  induction hn : cs.length using Nat.strong_induction_on generalizing cs with
  | _ n ih =>
    cases cs with
    | nil => exact .nil
    | cons c cs =>
      by_cases hc : isSeparator c = true
      · rw [tokens, words_cons_of_pos hc]
        exact .gap (separator_iff.mpr hc) (ih cs.length (by simp [← hn]) cs rfl)
      · -- the first word goes up to the next separator
        let w := cs.takeWhile (!isSeparator ·)
        let rest := cs.dropWhile (!isSeparator ·)
        have hsplit : c :: cs = (c :: w) ++ rest := by simp [w, rest, List.takeWhile_append_dropWhile]
        have hlt : rest.length < n := by
          have hle : rest.length ≤ cs.length := (List.dropWhile_sublist _).length_le
          simp only [List.length_cons] at hn
          omega
        have hwhole : ∀ d ∈ c :: w, isSeparator d = false := by
          intro d hd
          rcases List.mem_cons.mp hd with rfl | hd
          · simpa using hc
          · simpa using List.mem_takeWhile_imp hd
        have hends : ∀ d ∈ rest.head?, isSeparator d = true := by
          intro d hd
          have hnot := List.head?_dropWhile_not (!isSeparator ·) cs
          rw [Option.mem_def.mp hd] at hnot
          simpa using hnot
        rw [hsplit, tokens, words_append_of_head (List.cons_ne_nil c w) hwhole hends, ← tokens]
        refine .word (List.cons_ne_nil c w) ?_ ?_ (ih rest.length hlt rest rfl)
        · exact fun d hd => by simp [separator_iff, hwhole d hd]
        · exact fun d hd => separator_iff.mpr (hends d hd)

theorem splits_iff {cs : List Char} {ws : List Token} : Splits cs ws ↔ tokens cs = ws :=
  ⟨Splits.tokens_eq, fun h => h ▸ splits_tokens cs⟩

theorem Splits.separators {cs : List Char} {ws : List Token} (h : Splits cs ws) (hw : ws = []) :
    ∀ c ∈ cs, Separator c := by
  induction h with
  | nil => nofun
  | gap separator more ih => exact List.forall_mem_cons.mpr ⟨separator, ih hw⟩
  | word => cases hw

theorem letter_iff {c : Char} : Letter c ↔ isIdentifierStart c = true := by
  rw [isIdentifierStart_iff, Letter, ← Char.toNat_inj (d := '_')]
  exact Iff.rfl

theorem letter_or_digit_iff {c : Char} : Letter c ∨ Digit c ↔ isIdentifierRest c = true := by
  rw [isIdentifierRest_iff, letter_iff, isIdentifierStart_iff]
  change _ ∨ (48 ≤ c.toNat ∧ c.toNat ≤ 57) ↔ _
  omega

theorem identifier_iff {w : Token} : Identifier w ↔ isIdentifier w = true := by
  cases w with
  | nil => exact ⟨nofun, nofun⟩
  | cons c cs =>
    simp only [isIdentifier, Bool.and_eq_true, List.all_eq_true, ← letter_iff, ← letter_or_digit_iff]
    constructor
    · rintro ⟨first, rest⟩
      exact ⟨first, rest⟩
    · rintro ⟨first, rest⟩
      exact ⟨first, rest⟩

theorem numeral_iff {w : Token} : Numeral w ↔ ∃ v, numeral? w = some v := by
  have hspells {radix : Nat} {ds : List Char} (hne : ds ≠ []) (h : ∀ c ∈ ds, (digit? radix c).isSome = true) :
      Spells radix ds (magnitude radix ds) := ⟨hne, h, rfl⟩
  have hten {ds : List Char} : (∀ c ∈ ds, (digit? 10 c).isSome = true) ↔ ∀ c ∈ ds, Digit c := by
    simp only [isSome_digit?_ten, Digit]
  have hsixteen {ds : List Char} : (∀ c ∈ ds, (digit? 16 c).isSome = true) ↔ ∀ c ∈ ds, HexDigit c := by
    simp only [isSome_digit?_sixteen, HexDigit, Digit]
  constructor
  · intro h
    cases h with
    | decimal signed nonempty digits =>
      have hs := hspells nonempty (hten.mpr digits)
      rcases signed with rfl | rfl | rfl
      · exact ⟨_, numeral?_of_denotes (.plain hs)⟩
      · exact ⟨_, numeral?_of_denotes (.plus hs)⟩
      · exact ⟨_, numeral?_of_denotes (.minus hs)⟩
    | hexadecimal mark nonempty digits =>
      exact ⟨_, numeral?_of_denotes (.hexadecimal mark (hspells nonempty (hsixteen.mpr digits)))⟩
  · rintro ⟨v, hv⟩
    obtain ⟨n, hd, -⟩ := numeral?_eq_some_iff.mp hv
    cases hd with
    | plain digits => exact .decimal (.inl rfl) digits.1 (hten.mp digits.2.1)
    | plus digits => exact .decimal (.inr (.inl rfl)) digits.1 (hten.mp digits.2.1)
    | minus digits => exact .decimal (.inr (.inr rfl)) digits.1 (hten.mp digits.2.1)
    | hexadecimal mark digits => exact .hexadecimal mark digits.1 (hsixteen.mp digits.2.1)

theorem exists_digitChar_iff {d : Char} : (∃ r : Register, Nat.digitChar r.val = d) ↔ '0' ≤ d ∧ d ≤ '7' := by
  constructor
  · rintro ⟨r, rfl⟩
    revert r
    decide
  · intro h
    have hd : 48 ≤ d.toNat ∧ d.toNat ≤ 55 := h
    refine ⟨⟨d.toNat - 48, by omega⟩, Char.toNat_inj.mp ?_⟩
    have hv := digitValue?_eq_some_iff.mp (digitValue?_digitChar (d := d.toNat - 48) (by omega))
    simp only
    omega

theorem registerName_iff {w : Token} : RegisterName w ↔ ∃ r, registerOf w = .ok r := by
  simp only [registerOf_eq_ok_iff, Register.ofName?_eq_some_iff]
  constructor
  · rintro ⟨first, second⟩
    obtain ⟨r, rfl⟩ := exists_digitChar_iff.mpr second
    exact ⟨r, _, first, rfl⟩
  · rintro ⟨r, letter, first, rfl⟩
    exact ⟨first, exists_digitChar_iff.mp ⟨r, rfl⟩⟩

theorem toNat_toLower (c : Char) :
    c.toLower.toNat = if 65 ≤ c.toNat ∧ c.toNat ≤ 90 then c.toNat + 32 else c.toNat := by
  have hcond : (c.val ≥ 'A'.val ∧ c.val ≤ 'Z'.val) ↔ 65 ≤ c.toNat ∧ c.toNat ≤ 90 := Iff.rfl
  unfold Char.toLower
  split
  · rename_i h
    have hle : c.val.toNat ≤ 90 := (hcond.mp h).2
    rw [if_pos (hcond.mp h)]
    change (c.val + 32).toNat = c.val.toNat + 32
    rw [UInt32.toNat_add]
    simp only [UInt32.reduceToNat]
    omega
  · rename_i h
    rw [if_neg (mt hcond.mpr h)]

theorem toNat_toUpper (c : Char) :
    c.toUpper.toNat = if 97 ≤ c.toNat ∧ c.toNat ≤ 122 then c.toNat - 32 else c.toNat := by
  have hcond : ('a'.val ≤ c.val ∧ c.val ≤ 'z'.val) ↔ 97 ≤ c.toNat ∧ c.toNat ≤ 122 := Iff.rfl
  unfold Char.toUpper
  split
  · rename_i h
    have hle : 97 ≤ c.val.toNat ∧ c.val.toNat ≤ 122 := hcond.mp h
    rw [if_pos (hcond.mp h)]
    change (c.val + 4294967264).toNat = c.val.toNat - 32
    rw [UInt32.toNat_add]
    simp only [UInt32.reduceToNat]
    omega
  · rename_i h
    rw [if_neg (mt hcond.mpr h)]

theorem toUpper_eq_iff {c d : Char} : c.toUpper = d.toUpper ↔ c.toLower = d.toLower := by
  rw [← Char.toNat_inj, ← Char.toNat_inj (c := c.toLower), toNat_toUpper, toNat_toUpper, toNat_toLower, toNat_toLower]
  split_ifs <;> omega

theorem toLower_eq_r_iff {c : Char} : c.toLower = 'r' ↔ c = 'R' ∨ c = 'r' := by
  simp only [← Char.toNat_inj, toNat_toLower, Char.reduceToNat]
  split_ifs <;> omega

theorem toLower_eq_digit_iff {c d : Char} (hd : '0' ≤ d ∧ d ≤ '7') : c.toLower = d ↔ c = d := by
  have hle : 48 ≤ d.toNat ∧ d.toNat ≤ 55 := hd
  simp only [← Char.toNat_inj, toNat_toLower]
  split_ifs <;> omega

theorem mnemonic_iff {op : Opcode} {w : Token} : Mnemonic op w ↔ Opcode.ofName? w = some op := by
  have hfold (v u : Token) : v.map Char.toUpper = u.map Char.toUpper ↔ v.map Char.toLower = u.map Char.toLower := by
    induction v generalizing u with
    | nil => cases u <;> simp
    | cons c v ih =>
      cases u with
      | nil => simp
      | cons d u => simp [toUpper_eq_iff, ih]
  rw [Opcode.ofName?_eq_some_iff, Mnemonic, ← hfold]
  have hname : op.name.map Char.toUpper = op.name := op.upperCase_name
  rw [hname]
  exact Iff.rfl

/-- A mapping of characters to their small letters, of which only the part in ASCII is known. -/
structure Lowercase (lower : Char → List Char) : Prop where
  ascii : ∀ c, c.toNat < 128 → lower c = [c.toLower]
  nonempty : ∀ c, lower c ≠ []
  other : ∀ c, 128 ≤ c.toNat → ∀ d ∈ (lower c).head?, d ≠ 'r' ∧ ¬ ('0' ≤ d ∧ d ≤ '7')

theorem lowercase_toLower : Lowercase fun c => [c.toLower] where
  ascii _ _ := rfl
  nonempty _ := List.cons_ne_nil _ _
  other c hc d hd := by
    obtain rfl : c.toLower = d := by simpa using hd
    have hn := toNat_toLower c
    rw [if_neg (by omega)] at hn
    have hne : c.toLower ≠ 'r' := fun he => by
      have hr : ('r' : Char).toNat = c.toNat := he ▸ hn
      simp only [Char.reduceToNat] at hr
      omega
    have hgt : ¬ (48 ≤ c.toLower.toNat ∧ c.toLower.toNat ≤ 55) := by omega
    exact ⟨hne, hgt⟩

theorem Lowercase.eq_toLower {lower : Char → List Char} (h : Lowercase lower) {c d : Char} {rest more : List Char}
    (hd : d = 'r' ∨ ('0' ≤ d ∧ d ≤ '7')) (he : lower c ++ rest = d :: more) : c.toLower = d ∧ rest = more := by
  have hascii : c.toNat < 128 := by
    by_contra hn
    obtain ⟨x, xs, hx⟩ := List.exists_cons_of_ne_nil (h.nonempty c)
    rw [hx, List.cons_append, List.cons.injEq] at he
    obtain ⟨hr, hdigit⟩ := h.other c (by omega) d (by simp [hx, he.1])
    exact hd.elim hr hdigit
  rw [h.ascii c hascii] at he
  exact List.cons.inj he

/-- Whatever small letters there are outside ASCII, a register is found by comparing its name without regard to case. -/
theorem Lowercase.ofName?_eq_some_iff {lower : Char → List Char} (h : Lowercase lower) {w : Token} {r : Register} :
    Register.ofName? w = some r ↔ w.flatMap lower = r.name.flatMap lower := by
  have hdigit : '0' ≤ Nat.digitChar r.val ∧ Nat.digitChar r.val ≤ '7' := exists_digitChar_iff.mp ⟨r, rfl⟩
  have hlower : lower (Nat.digitChar r.val) = [Nat.digitChar r.val] := by
    have hle : 48 ≤ (Nat.digitChar r.val).toNat ∧ (Nat.digitChar r.val).toNat ≤ 55 := hdigit
    rw [h.ascii _ (by omega), (toLower_eq_digit_iff hdigit).mpr rfl]
  have hname : r.name.flatMap lower = ['r', Nat.digitChar r.val] := by
    simp [Register.name, h.ascii 'R' (by decide), hlower]
  rw [Register.ofName?_eq_some_iff, hname]
  constructor
  · rintro ⟨letter, hl, rfl⟩
    have hr : lower letter = ['r'] := by
      have hlt : letter.toNat < 128 := by rcases hl with rfl | rfl <;> decide
      rw [h.ascii letter hlt, toLower_eq_r_iff.mpr hl]
    simp [hr, hlower]
  · intro he
    cases w with
    | nil => cases he
    | cons c w =>
      obtain ⟨hc, hw⟩ := h.eq_toLower (.inl rfl) he
      cases w with
      | nil => cases hw
      | cons d w =>
        obtain ⟨hd, hrest⟩ := h.eq_toLower (.inr hdigit) hw
        have hnil : w = [] := by
          cases w with
          | nil => rfl
          | cons x xs => simp [h.nonempty x] at hrest
        exact ⟨c, toLower_eq_r_iff.mp hc, by rw [(toLower_eq_digit_iff hdigit).mp hd, hnil]⟩

theorem labelLine_iff {name : Token} {body : List Char} (ht : Trimmed body) :
    LabelLine name body ↔ Statement.ofLine? body = .ok (some (.label name)) := by
  rw [Statement.ofLine?_eq_label_iff]
  constructor
  · rintro ⟨identifier, blank⟩
    have hid := identifier_iff.mp identifier
    refine ⟨List.getLast?_concat, ?_, hid⟩
    rw [List.dropLast_concat]
    exact trim_eq_iff.mpr ⟨(IsWord.of_isIdentifier hid).trimmed, [], _, rfl, nofun, blank⟩
  · rintro ⟨hlast, htrim, hid⟩
    obtain ⟨init, rfl⟩ := List.getLast?_eq_some_iff.mp hlast
    rw [List.dropLast_concat] at htrim
    obtain ⟨-, before, after, rfl, hbefore, hafter⟩ := trim_eq_iff.mp htrim
    -- a blank in front of the name would stand in front of the line
    cases before with
    | nil => exact .intro (identifier_iff.mpr hid) hafter
    | cons c cs =>
      have hc := ht.1 c rfl
      simp [hbefore c List.mem_cons_self] at hc

end ByteMachine.Grammar
