import ByteMachine.Proofs.StageErrors

/-! # Journals: the records of an assembly say how far it came and what it gave

Each pass leaves the records of the statements that it has taken. A pass that fails leaves those of the statements before
the one it cannot take, and nothing behind them. -/
namespace ByteMachine

open Text

def labelRecords (pc : Nat) (ss : List Statement) : List Record :=
  (placed pc ss).filterMap fun x => x.1.labelName?.map (Record.label · x.2)

/-- The records of a complete first pass: the labels, then how many there are and the bytes that were counted. -/
def firstPassRecords (ss : List Statement) : List Record :=
  labelRecords 0 ss ++ [.resolved (labelNames ss).length (codeLength ss)]

/-- One record for each instruction, with its mnemonic as it is written, its address and the bytes that it has there. -/
inductive Encodings (labels : LabelTable) : Nat → List Statement → List Record → Prop
  | nil (pc) : Encodings labels pc [] []
  | label {pc name ss records} (rest : Encodings labels pc ss records) :
      Encodings labels pc (.label name :: ss) records
  | instruction {pc mnemonic operands bytes ss records} (encoded : encode labels pc mnemonic operands = .ok bytes)
      (rest : Encodings labels (pc + bytes.length) ss records) :
      Encodings labels pc (.instruction mnemonic operands :: ss) (.encoded pc mnemonic bytes :: records)

def Record.bytes : Record → List UInt8
  | encoded _ _ bytes => bytes
  | label .. | resolved .. | assembled .. => []

/-- The records of the second pass over these statements. Each has for its address the number of bytes in the records
before it. -/
structure SecondPassRecords (labels : LabelTable) (ss : List Statement) (records : List Record) : Prop where
  encodings : Encodings labels 0 ss records
  address_eq : ∀ (i address : Nat) (mnemonic : Token) (bytes : List UInt8),
    records[i]? = some (.encoded address mnemonic bytes) → address = ((records.take i).flatMap Record.bytes).length

/-- The journal and the result of an assembly. A source that cannot be read leaves no records. A pass that can take the
statements in `before` but not the one behind them leaves the records of those in `before`. -/
inductive Reports (source : List Char) : List Record → Except SourceError (List UInt8) → Prop
  | reading {e} (unreadable : statements source = .error e) : Reports source [] (.error e)
  | labelling {before x after labels e} (read : statements source = .ok (before ++ x :: after))
      (earlier : resolve before = .ok labels) (here : resolve (before ++ [x]) = .error e)
      (place : e.position = some x.position) : Reports source (labelRecords 0 (values before)) (.error e)
  | encoding {before x after labels code records e} (read : statements source = .ok (before ++ x :: after))
      (labelled : resolve (before ++ x :: after) = .ok labels) (earlier : generate labels before = .ok code)
      (here : generate labels (before ++ [x]) = .error e) (place : e.position = some x.position)
      (encoded : SecondPassRecords labels (values before) records) :
      Reports source (firstPassRecords (values (before ++ x :: after)) ++ records) (.error e)
  | complete {ss labels records} (read : statements source = .ok ss) (labelled : resolve ss = .ok labels)
      (encoded : SecondPassRecords labels (values ss) records) :
      Reports source (firstPassRecords (values ss) ++ records ++ [.assembled ss.length (codeLength (values ss))])
        (.ok (records.flatMap Record.bytes))

/-- A record as it stands in the log. Addresses are in hexadecimal behind `0x`, as are bytes without it, and counts in
decimal. -/
inductive Logged : Record → Level × String → Prop
  | label {name address digits} (number : Hexadecimal address digits) : Logged (.label name address)
      (.trace, "label '" ++ String.ofList name ++ "' at 0x" ++ String.ofList digits)
  | resolved (labels size) : Logged (.resolved labels size)
      (.debug, "resolved " ++ toString labels ++ " labels over " ++ toString size ++ " bytes")
  | encoded {address mnemonic bytes digits pairs} (number : Hexadecimal address digits)
      (each : List.Forall₂ (fun b pair => Hexadecimal b.toNat pair) bytes pairs) :
      Logged (.encoded address mnemonic bytes) (.trace, "0x" ++ String.ofList digits ++ ": " ++ String.ofList mnemonic ++
        " [" ++ String.ofList (", ".toList.intercalate pairs) ++ "]")
  | assembled (statements size) : Logged (.assembled statements size)
      (.debug, "assembled " ++ toString statements ++ " statements into " ++ toString size ++ " bytes")

theorem logged_text (record : Record) : Logged record (record.level, record.text) := by
  cases record with
  | label name address =>
    obtain ⟨digits, hdigits, hnumber⟩ := exists_hexadecimal address
    have htext : (Record.label name address).text =
        "label '" ++ String.ofList name ++ "' at 0x" ++ String.ofList digits := by
      rw [Record.text, hdigits]
      simp [← String.toList_inj]
    rw [htext]
    exact .label hnumber
  | resolved labels size => exact .resolved labels size
  | encoded address mnemonic bytes =>
    obtain ⟨digits, hdigits, hnumber⟩ := exists_hexadecimal address
    have htext : (Record.encoded address mnemonic bytes).text = "0x" ++ String.ofList digits ++ ": " ++
        String.ofList mnemonic ++ " [" ++ String.ofList (", ".toList.intercalate (bytes.map hexByte)) ++ "]" := by
      rw [Record.text, hdigits]
      simp [← String.toList_inj]
    rw [htext]
    exact .encoded hnumber (List.forall₂_map_right_iff.mpr (List.forall₂_same.mpr fun b _ => hexadecimal_hexByte b))
  | assembled statements size => exact .assembled statements size

/-- A run takes all statements, or stops at the first that it cannot take. Its journal has the records of those taken. -/
theorem runStatements_cases {σ : Type} (step : σ → Statement → Except Fault (σ × List Record)) (s : σ)
    (xs : List (Located Statement)) (journal : Array Record) :
    (∃ records t, Walk step s (values xs) records t ∧ runStatements step journal s xs = ⟨journal ++ records, .ok t⟩) ∨
    ∃ before x after records t fault, xs = before ++ x :: after ∧ Walk step s (values before) records t ∧
      step t x.value = .error fault ∧
      runStatements step journal s xs = ⟨journal ++ records, .error ⟨some x.position, fault⟩⟩ := by
  cases hr : (runStatements step journal s xs).result with
  | ok t =>
    obtain ⟨records, hw⟩ := runStatements_eq_ok_iff.mp hr
    exact .inl ⟨records, t, hw, hw.runStatements_eq journal⟩
  | error e =>
    obtain ⟨before, x, after, rfl, t, records, fault, hw, hx, rfl⟩ := runStatements_eq_error_iff.mp hr
    refine .inr ⟨before, x, after, records, t, fault, rfl, hw, hx, ?_⟩
    rw [hw.runStatements_append, runStatements, hx]

theorem LabelTable.size_of_define? {t u : LabelTable} {name : Token} {address : Nat}
    (h : t.define? name address = some u) : u.size = t.size + 1 := by
  unfold define? at h
  split at h
  · cases h
  · rename_i hnew
    cases h
    simp [size, Std.TreeMap.size_insert, hnew]

theorem Walk.records_place {l m : Layout} {ss : List Statement} {records : List Record}
    (h : Walk placeStatement l ss records m) : records = labelRecords l.size ss ∧
      m.labels.size = l.labels.size + (labelNames ss).length ∧ m.size = l.size + codeLength ss := by
  induction h with
  | nil l => simp [labelRecords, placed, labelNames, codeLength]
  | @cons l m n s ss _ _ first rest ih =>
    obtain ⟨rfl, hlabels, hsize⟩ := ih
    obtain ⟨name, rfl, hd, hm, rfl⟩ | ⟨mnemonic, operands, rfl, hl, hm, rfl⟩ := placeStatement_eq_ok_iff.mp first
    · rw [hlabels, hsize, hm, LabelTable.size_of_define? hd]
      refine ⟨rfl, ?_, ?_⟩
      · rw [labelNames_label, List.length_cons]
        omega
      · simp [codeLength, Statement.assumedLength]
    · rw [hlabels, hsize, hm, hl]
      refine ⟨rfl, rfl, ?_⟩
      simp [codeLength, Nat.add_assoc]

theorem Walk.encodings {labels : LabelTable} {program next : Array UInt8} {ss : List Statement} {records : List Record}
    (h : Walk (emitStatement labels) program ss records next) :
    Encodings labels program.size ss records ∧ next.toList = program.toList ++ records.flatMap Record.bytes := by
  induction h with
  | nil program => exact ⟨.nil _, by simp⟩
  | @cons program _ next s ss _ _ first rest ih =>
    obtain ⟨hencodings, hnext⟩ := ih
    obtain ⟨bytes, hbytes, rfl, rfl⟩ := exists_encode_of_emitStatement first
    cases s with
    | label name =>
      cases hbytes
      exact ⟨.label (by simpa [Statement.records] using hencodings), by simpa [Statement.records] using hnext⟩
    | instruction mnemonic operands =>
      rw [size_append_list] at hencodings
      exact ⟨.instruction hbytes hencodings, by simpa [Statement.records, Record.bytes] using hnext⟩

theorem Encodings.length_flatMap {labels : LabelTable} {pc : Nat} {ss : List Statement} {records : List Record}
    (h : Encodings labels pc ss records) : (records.flatMap Record.bytes).length = codeLength ss := by
  induction h with
  | nil pc => rfl
  | label rest ih => simpa [codeLength, Statement.assumedLength] using ih
  | instruction encoded rest ih =>
    rw [List.flatMap_cons, List.length_append, ih, Record.bytes, length_of_encode encoded]
    rfl

theorem Encodings.address_eq {labels : LabelTable} {pc : Nat} {ss : List Statement} {records : List Record}
    (h : Encodings labels pc ss records) (i address : Nat) (mnemonic : Token) (bytes : List UInt8)
    (hi : records[i]? = some (.encoded address mnemonic bytes)) :
    address = pc + ((records.take i).flatMap Record.bytes).length := by
  induction h generalizing i with
  | nil pc => simp at hi
  | label rest ih => exact ih i hi
  | instruction encoded rest ih =>
    cases i with
    | zero =>
      cases hi
      rfl
    | succ i =>
      rw [ih i hi, List.take_succ_cons, List.flatMap_cons, List.length_append, Nat.add_assoc]
      rfl

theorem Walk.secondPassRecords {labels : LabelTable} {ss : List Statement} {records : List Record}
    {program : Array UInt8} (h : Walk (emitStatement labels) #[] ss records program) :
    SecondPassRecords labels ss records ∧ program.toList = records.flatMap Record.bytes := by
  obtain ⟨hencodings, hprogram⟩ := h.encodings
  refine ⟨⟨hencodings, ?_⟩, hprogram⟩
  intro i address mnemonic bytes hi
  rw [hencodings.address_eq i address mnemonic bytes hi]
  simp

@[simp] theorem Run.andThen_ok {α β : Type} (journal : Array Record) (a : α) (next : Array Record → α → Run β) :
    (Run.mk journal (.ok a)).andThen next = next journal a := rfl

@[simp] theorem Run.andThen_error {α β : Type} (journal : Array Record) (e : SourceError)
    (next : Array Record → α → Run β) : (Run.mk journal (.error e)).andThen next = ⟨journal, .error e⟩ := rfl

theorem resolveRun_cases (ss : List (Located Statement)) :
    (∃ labels journal, resolve ss = .ok labels ∧ resolveRun ss = ⟨journal, .ok labels⟩ ∧
      journal.toList = firstPassRecords (values ss)) ∨
    ∃ before x after labels e journal, ss = before ++ x :: after ∧ resolve before = .ok labels ∧
      resolve (before ++ [x]) = .error e ∧ e.position = some x.position ∧
      resolveRun ss = ⟨journal, .error e⟩ ∧ journal.toList = labelRecords 0 (values before) := by
  obtain ⟨records, l, hw, hrun⟩ | ⟨before, x, after, records, l, fault, rfl, hw, hx, hrun⟩ :=
    runStatements_cases placeStatement ⟨.empty, 0⟩ ss #[]
  · obtain ⟨rfl, hlabels, hsize⟩ := hw.records_place
    refine .inl ⟨l.labels, _, resolve_eq_ok_iff.mpr ⟨_, l, hw, rfl⟩, by rw [resolveRun, hrun, Run.andThen_ok], ?_⟩
    have hempty : LabelTable.empty.size = 0 := rfl
    simp [firstPassRecords, hlabels, hsize, hempty]
  · obtain ⟨rfl, -, -⟩ := hw.records_place
    refine .inr ⟨before, x, after, l.labels, ⟨some x.position, fault⟩, _, rfl, resolve_eq_ok_iff.mpr ⟨_, l, hw, rfl⟩, ?_,
      rfl, by rw [resolveRun, hrun, Run.andThen_error], by simp⟩
    rw [resolve, resolveRun, andThen_ok_result_eq_error_iff]
    exact runStatements_eq_error_iff.mpr ⟨before, x, [], rfl, l, _, fault, hw, hx, rfl⟩

theorem generateRun_cases (labels : LabelTable) (journal : Array Record) (ss : List (Located Statement)) :
    (∃ records journal', generateRun labels journal ss = ⟨journal', .ok (records.flatMap Record.bytes)⟩ ∧
      journal'.toList = journal.toList ++ records ∧ SecondPassRecords labels (values ss) records) ∨
    ∃ before x after code records e journal', ss = before ++ x :: after ∧ generate labels before = .ok code ∧
      generate labels (before ++ [x]) = .error e ∧ e.position = some x.position ∧
      generateRun labels journal ss = ⟨journal', .error e⟩ ∧ journal'.toList = journal.toList ++ records ∧
      SecondPassRecords labels (values before) records := by
  obtain ⟨records, program, hw, hrun⟩ | ⟨before, x, after, records, program, fault, rfl, hw, hx, hrun⟩ :=
    runStatements_cases (emitStatement labels) #[] ss journal
  · obtain ⟨hrecords, hprogram⟩ := hw.secondPassRecords
    refine .inl ⟨records, _, ?_, Array.toList_appendList, hrecords⟩
    rw [generateRun, hrun, Run.andThen_ok, hprogram]
  · obtain ⟨hrecords, hprogram⟩ := hw.secondPassRecords
    have hcode : generate labels before = .ok program.toList := by
      rw [generate, generateRun, hw.runStatements_eq, Run.andThen_ok]
    refine .inr ⟨before, x, after, _, records, ⟨some x.position, fault⟩, _, rfl, hcode, ?_, rfl,
      by rw [generateRun, hrun, Run.andThen_error], Array.toList_appendList, hrecords⟩
    rw [generate, generateRun, andThen_ok_result_eq_error_iff]
    exact runStatements_eq_error_iff.mpr ⟨before, x, [], rfl, program, _, fault, hw, hx, rfl⟩

/-- The log of an assembly is that of its course. Nothing is reported of a source that cannot be read. The first pass
reports each label at its whole address, up to where it fails. If it goes through, it reports the number of labels and
the bytes it has counted, and the second pass reports each instruction at its address, up to where it fails. If that goes
through too, the statements are counted, and the bytes, which are as many as in the first pass and are those of the
program. -/
theorem journal_tells_the_course_of_assembly (source : List Char) :
    Reports source (assembleRun source).journal.toList (assemble source) ∧
      List.Forall₂ Logged (assembleRun source).journal.toList (assembleRun source).log := by
  refine ⟨?_, List.forall₂_map_right_iff.mpr (List.forall₂_same.mpr fun record _ => logged_text record)⟩
  unfold assemble assembleRun
  cases hs : statements source with
  | error e => exact .reading hs
  | ok ss =>
    obtain ⟨labels, journal, hl, hrun, hjournal⟩ |
      ⟨before, x, after, labels, e, journal, rfl, hl, he, hplace, hrun, hjournal⟩ := resolveRun_cases ss
    · obtain ⟨records, journal', hrun', hjournal', hrecords⟩ |
        ⟨before, x, after, code, records, e, journal', rfl, hg, he, hplace, hrun', hjournal', hrecords⟩ :=
          generateRun_cases labels journal ss
      · simp only [hrun, hrun', Run.andThen_ok, hrecords.encodings.length_flatMap, Array.toList_push, hjournal', hjournal]
        exact .complete hs hl hrecords
      · simp only [hrun, hrun', Run.andThen_ok, Run.andThen_error, hjournal', hjournal]
        exact .encoding hs hl hg he hplace hrecords
    · simp only [hrun, Run.andThen_error, hjournal]
      exact .labelling hs hl he hplace

-- All labels are reported, with those behind the line that the second pass cannot take.
example : (assembleRun "a:\nnop\nldi R1, b ; forward\nFOO\nJMP a\nb:".toList).log =
    [(.trace, "label 'a' at 0x00"), (.trace, "label 'b' at 0x07"), (.debug, "resolved 2 labels over 7 bytes"),
      (.trace, "0x00: nop [00]"), (.trace, "0x01: ldi [12, 07]")] := by decide +kernel

end ByteMachine
