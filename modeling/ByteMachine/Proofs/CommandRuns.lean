import ByteMachine.Proofs.FileWrites
import ByteMachine.Proofs.HexLines
import ByteMachine.Proofs.InstructionStreams
import Mathlib

/-! # Command runs: what commands do to a world, one after another

A program that was written as hex text is the same to every later command as the source it was assembled from. -/
namespace ByteMachine

namespace World

def perform (w : World) (action : Action) : Except Failure Unit × World :=
  (action.perform : StateM World (Except Failure Unit)) w

def performAll (w : World) (actions : List Action) : Except Failure Unit × World :=
  (ByteMachine.performAll actions : StateM World (Except Failure Unit)) w

def carryOut (w : World) (plan : Except Failure (List Action)) : Except Failure Unit × World :=
  (ByteMachine.carryOut plan : StateM World (Except Failure Unit)) w

/-- How a command ends in a world, and the world after it. -/
def run (w : World) (command : Command) : Except Failure Unit × World :=
  (command.run : StateM World (Except Failure Unit)) w

def afterPrint (w : World) (text : List Char) : World := { w with printed := w.printed ++ String.ofList text }

/-- The files and the directory that paths are followed from. What is read depends on nothing else. -/
def storage (w : World) : FileSystem × Place := (w.files, w.home)

theorem run_eq_of_fst {w : World} {command : Command} {result : Except Failure Unit} (h : (w.run command).1 = result) :
    w.run command = (result, (w.run command).2) := Prod.ext h rfl

theorem run_assemble (w : World) (input : String) (output : Option String) (print labels : Bool) :
    w.run (.assemble input output print labels) =
      w.carryOut (Command.planAssemble input output print labels (w.read input)) := rfl

theorem run_send (w : World) (input port : String) (baud : Nat) (hex : Bool) :
    w.run (.send input port baud hex) = w.carryOut (Command.planSend input port baud hex (w.read input)) := rfl

theorem run_disassemble (w : World) (input : String) (source : Bool) :
    w.run (.disassemble input source) = w.carryOut (Command.planDisassemble input source (w.read input)) := rfl

theorem carryOut_ok (w : World) (actions : List Action) : w.carryOut (.ok actions) = w.performAll actions := rfl

theorem carryOut_error (w : World) (failure : Failure) : w.carryOut (.error failure) = (.error failure, w) := rfl

theorem carryOut_eq_ok_iff {w w' : World} {plan : Except Failure (List Action)} : w.carryOut plan = (.ok (), w') ↔
    ∃ actions, plan = .ok actions ∧ w.performAll actions = (.ok (), w') := by
  cases plan with
  | error failure => simp [carryOut_error]
  | ok actions => simp [carryOut_ok]

theorem performAll_nil (w : World) : w.performAll [] = (.ok (), w) := rfl

theorem performAll_print (w : World) (text : List Char) : w.performAll [.print text] = (.ok (), w.afterPrint text) := rfl

theorem perform_write (w : World) (path : String) (text : List Char) : w.perform (.write path text) =
    ((w.write path (String.ofList text).toUTF8).1.mapError (.unwritable path),
      (w.write path (String.ofList text).toUTF8).2) := rfl

theorem performAll_cons_of_ok {w next : World} {action : Action} (h : w.perform action = (.ok (), next))
    (actions : List Action) : w.performAll (action :: actions) = next.performAll actions := by
  rw [perform] at h
  rw [performAll, ByteMachine.performAll]
  simp only [bind, StateT.bind, h]
  rfl

theorem performAll_cons_of_error {w next : World} {action : Action} {failure : Failure}
    (h : w.perform action = (.error failure, next)) (actions : List Action) :
    w.performAll (action :: actions) = (.error failure, next) := by
  rw [perform] at h
  rw [performAll, ByteMachine.performAll]
  simp only [bind, StateT.bind, h]
  rfl

theorem performAll_cons_eq_ok_iff {w w' : World} {action : Action} {actions : List Action} :
    w.performAll (action :: actions) = (.ok (), w') ↔
      ∃ next, w.perform action = (.ok (), next) ∧ next.performAll actions = (.ok (), w') := by
  cases hperform : w.perform action with
  | mk result next =>
    cases result with
    | error failure => simp [performAll_cons_of_error hperform]
    | ok => simp [performAll_cons_of_ok hperform]

end World

/-- Only a write can change a file. -/
def Action.writes : Action → Bool
  | write _ _ => true
  | print _ | printLabels _ | note _ | send _ _ _ => false

/-- What is printed or noted always goes well. -/
def Action.reports : Action → Bool
  | print _ | note _ => true
  | printLabels _ | write _ _ | send _ _ _ => false

namespace World

theorem setLink_self (w : World) (port : Port) : w.setLink port (w.links port) = w := by
  have hlinks : (fun other => if other = port then w.links port else w.links other) = w.links := by
    funext other
    split
    · next h => rw [h]
    · rfl
  rw [setLink, hlinks]

theorem perform_printLabels_of_ok {w : World} {input : String} {text : List Char}
    (h : labelLines input (w.read input) = .ok text) :
    w.perform (.printLabels input) = (.ok (), w.afterPrint text) := by
  simp only [perform, Action.perform, Host.read, bind, StateT.bind, h]
  rfl

theorem perform_printLabels_of_error {w : World} {input : String} {failure : Failure}
    (h : labelLines input (w.read input) = .error failure) :
    w.perform (.printLabels input) = (.error failure, w) := by
  simp only [perform, Action.perform, Host.read, bind, StateT.bind, h]
  rfl

section Sending

variable {w : World} {name : String} {baud : Nat}

theorem perform_send_of_error {text : String} (h : w.openPort name baud = .error text) (program : List UInt8) :
    w.perform (.send name baud program) = (.error (.noPort name baud text), w) := by
  simp only [perform, Action.perform, Host.connect, bind, StateT.bind, h]
  rfl

/-- At an open port a program is sent over the link behind it. -/
theorem perform_send_of_ok {port : Port} (h : w.openPort name baud = .ok port) (program : List UInt8) :
    w.perform (.send name baud program) =
      (((w.links port).send program).result.mapError .notSent, w.setLink port ((w.links port).send program).link) := by
  simp only [perform, Action.perform, Host.connect, bind, StateT.bind, h]
  cases hframe : Frame.ofPayload program with
  | error e =>
    simp only [Link.send, hframe, setLink_self]
    rfl
  | ok frame =>
    simp only [Link.send, hframe]
    change ((w.transmit port frame).1.mapError _, (w.transmit port frame).2) = _
    unfold transmit
    cases (w.links port).deliver frame with
    | mk link result => cases result <;> rfl

end Sending

theorem storage_perform (w : World) {action : Action} (h : action.writes = false) :
    (w.perform action).2.storage = w.storage := by
  cases action with
  | write path text => cases h
  | printLabels input =>
    cases hlines : labelLines input (w.read input) with
    | error failure => rw [perform_printLabels_of_error hlines]
    | ok text =>
      rw [perform_printLabels_of_ok hlines]
      rfl
  | send name baud program =>
    cases hopen : w.openPort name baud with
    | error text => rw [perform_send_of_error hopen]
    | ok port =>
      rw [perform_send_of_ok hopen]
      rfl
  | print text | note text => rfl

theorem storage_performAll (w : World) {actions : List Action} (h : ∀ action ∈ actions, action.writes = false) :
    (w.performAll actions).2.storage = w.storage := by
  induction actions generalizing w with
  | nil => rfl
  | cons action actions ih =>
    rw [List.forall_mem_cons] at h
    have hstep := w.storage_perform h.1
    cases hperform : w.perform action with
    | mk result next =>
      rw [hperform] at hstep
      cases result with
      | error failure => rw [performAll_cons_of_error hperform, hstep]
      | ok => rw [performAll_cons_of_ok hperform, ih next h.2, hstep]

theorem performAll_append_of_ok {w next : World} {front : List Action} (h : w.performAll front = (.ok (), next))
    (back : List Action) : w.performAll (front ++ back) = next.performAll back := by
  induction front generalizing w with
  | nil =>
    rw [performAll_nil, Prod.mk.injEq] at h
    rw [List.nil_append, h.2]
  | cons action front ih =>
    obtain ⟨between, hperform, hfront⟩ := performAll_cons_eq_ok_iff.mp h
    rw [List.cons_append, performAll_cons_of_ok hperform, ih hfront]

theorem performAll_append_of_error {w next : World} {front : List Action} {failure : Failure}
    (h : w.performAll front = (.error failure, next)) (back : List Action) :
    w.performAll (front ++ back) = (.error failure, next) := by
  induction front generalizing w with
  | nil => cases h
  | cons action front ih =>
    rw [List.cons_append]
    cases hperform : w.perform action with
    | mk result between =>
      cases result with
      | error cause =>
        rw [performAll_cons_of_error hperform] at h ⊢
        exact h
      | ok =>
        rw [performAll_cons_of_ok hperform] at h ⊢
        exact ih h

/-- Reports go well, and change no file. -/
theorem performAll_reports (w : World) {actions : List Action} (h : ∀ action ∈ actions, action.reports = true) :
    ∃ w', w.performAll actions = (.ok (), w') ∧ w'.storage = w.storage := by
  induction actions generalizing w with
  | nil => exact ⟨w, rfl, rfl⟩
  | cons action actions ih =>
    rw [List.forall_mem_cons] at h
    have hstep : ∃ next, w.perform action = (.ok (), next) ∧ next.storage = w.storage := by
      cases action with
      | print text | note text => exact ⟨_, rfl, rfl⟩
      | printLabels input | write path text | send name baud program => cases h.1
    obtain ⟨next, hperform, hnext⟩ := hstep
    obtain ⟨w', hrest, hlast⟩ := ih next h.2
    exact ⟨w', by rw [performAll_cons_of_ok hperform, hrest], hlast.trans hnext⟩

/-- A run with one write in it, before which no file is changed and behind which nothing can fail. It fails on the files
there were, or comes to the write and ends as the write does. -/
theorem performAll_one_write {w w' : World} {result : Except Failure Unit} {front back : List Action} {path : String}
    {text : List Char} (hfront : ∀ action ∈ front, action.writes = false)
    (hback : ∀ action ∈ back, action.reports = true)
    (h : w.performAll (front ++ .write path text :: back) = (result, w')) :
    (∃ failure, result = .error failure ∧ w'.storage = w.storage) ∨
    ∃ (before after : World) (outcome : Except FileError Unit), before.storage = w.storage ∧
      before.write path (String.ofList text).toUTF8 = (outcome, after) ∧ result = outcome.mapError (.unwritable path) ∧
      w'.storage = after.storage := by
  have hkept := w.storage_performAll hfront
  cases hrun : w.performAll front with
  | mk early before =>
    rw [hrun] at hkept
    cases early with
    | error failure =>
      rw [performAll_append_of_error hrun, Prod.mk.injEq] at h
      exact .inl ⟨failure, h.1.symm, by rw [← h.2, hkept]⟩
    | ok =>
      rw [performAll_append_of_ok hrun] at h
      cases hwrite : before.write path (String.ofList text).toUTF8 with
      | mk outcome after =>
        have hperform : before.perform (.write path text) = (outcome.mapError (.unwritable path), after) := by
          rw [perform_write, hwrite]
        refine .inr ⟨before, after, outcome, hkept, hwrite, ?_⟩
        cases outcome with
        | error e =>
          rw [performAll_cons_of_error hperform, Prod.mk.injEq] at h
          exact ⟨h.1.symm, by rw [h.2]⟩
        | ok =>
          obtain ⟨last, hlast, hafter⟩ := after.performAll_reports hback
          rw [performAll_cons_of_ok hperform, hlast, Prod.mk.injEq] at h
          exact ⟨h.1.symm, by rw [← h.2, hafter]⟩

theorem exists_write_of_performAll {w w' : World} {front back : List Action} {path : String} {text : List Char}
    (hfront : ∀ action ∈ front, action.writes = false) (hback : ∀ action ∈ back, action.reports = true)
    (h : w.performAll (front ++ .write path text :: back) = (.ok (), w')) :
    ∃ before after : World, before.storage = w.storage ∧
      before.write path (String.ofList text).toUTF8 = (.ok (), after) ∧ w'.storage = after.storage := by
  obtain ⟨failure, hfailed, -⟩ | ⟨before, after, outcome, hbefore, hwrite, hok, hafter⟩ :=
    performAll_one_write hfront hback h
  · cases hfailed
  · rw [mapError_eq_ok_iff.mp hok.symm] at hwrite
    exact ⟨before, after, hbefore, hwrite, hafter⟩

section Storage

variable {w w' : World} (h : w.storage = w'.storage)

include h

theorem read_congr (path : String) : w.read path = w'.read path := by
  obtain ⟨hfiles, hhome⟩ := Prod.mk.inj h
  rw [read, read, hfiles, hhome]

theorem OtherFile.congr {path other : String} (hother : w.OtherFile path other) : w'.OtherFile path other := by
  obtain ⟨hfiles, hhome⟩ := Prod.mk.inj h
  rwa [OtherFile, place?, place?, hfiles, hhome] at hother

theorem Readable.congr {path : String} (hreadable : w.Readable path) : w'.Readable path := by
  obtain ⟨hfiles, hhome⟩ := Prod.mk.inj h
  rwa [Readable, place?, hfiles, hhome] at hreadable

end Storage

end World

theorem decodeInput_eq_ok_iff {content : Content} {path : String} {file : Except FileError ByteArray}
    {cs : List Char} : decodeInput content path file = .ok cs ↔
      ∃ text, file.bind decodeText = .ok text ∧ text.toList = cs := by
  unfold decodeInput
  cases file.bind decodeText <;> simp

theorem decodeInput_eq_error_iff {content : Content} {path : String} {file : Except FileError ByteArray}
    {failure : Failure} : decodeInput content path file = .error failure ↔
      ∃ e, file.bind decodeText = .error e ∧ failure = .unreadable content path e := by
  unfold decodeInput
  cases file.bind decodeText <;> simp [eq_comm]

theorem programOf_source_eq_ok_iff {path : String} {file : Except FileError ByteArray} {program : List UInt8} :
    programOf .source path file = .ok program ↔
      ∃ text, file.bind decodeText = .ok text ∧ assemble text.toList = .ok program := by
  simp only [programOf, bind_eq_ok_iff, decodeInput_eq_ok_iff, mapError_eq_ok_iff]
  grind

theorem programOf_source_eq_error_iff {path : String} {file : Except FileError ByteArray} {failure : Failure} :
    programOf .source path file = .error failure ↔
      (∃ e, file.bind decodeText = .error e ∧ failure = .unreadable .source path e) ∨
      ∃ text e, file.bind decodeText = .ok text ∧ assemble text.toList = .error e ∧ failure = .badSource path e := by
  simp only [programOf, bind_eq_error_iff, decodeInput_eq_ok_iff, decodeInput_eq_error_iff, mapError_eq_error_iff]
  grind

theorem decodeText_toUTF8 (text : String) : decodeText text.toUTF8 = .ok text := by
  rw [decodeText, String.fromUTF8?, String.toUTF8, dif_pos text.isValidUTF8]
  rfl

/-- A program is read back from the file of its hex text. -/
theorem programOf_hexText (path : String) (program : List UInt8) :
    programOf .hexText path (.ok (String.ofList (HexText.ofBytes program)).toUTF8) = .ok program := by
  have hdecode : decodeInput .hexText path (.ok (String.ofList (HexText.ofBytes program)).toUTF8) =
      .ok (HexText.ofBytes program) :=
    decodeInput_eq_ok_iff.mpr ⟨_, decodeText_toUTF8 _, String.toList_ofList⟩
  have hbytes := HexText.toBytes_eq_ok_iff.mpr (HexText.content_ofBytes program)
  simp only [programOf, bind_eq_ok_iff, mapError_eq_ok_iff]
  exact ⟨_, hdecode, hbytes⟩

theorem exists_disassemble_of_assemble {source : List Char} {program : List UInt8}
    (h : assemble source = .ok program) : ∃ ds, disassemble program = .ok ds := by
  obtain ⟨ss, labels, -, -, hg⟩ := assemble_eq_ok_iff.mp h
  obtain ⟨is, -, rfl⟩ := generate_eq_ok_iff_yields.mp hg
  exact ⟨decodedFrom 0 is, disassemble_encodeFrom is⟩

namespace Command

/-- What is done with a program that was assembled: it is printed, or it is written and said to be. -/
def ending (input : String) (output : Option String) (print : Bool) (program : List UInt8) : List Action :=
  if print then [.print (HexText.ofBytes program)]
  else
    let path := output.getD (defaultOutput input)
    writeActions path (HexText.ofBytes program) ++
      [.print (okMark ++ " '" ++ path ++ "' saved (" ++ toString program.length ++ " bytes)\n").toList]

/-- What is done before it: the labels are printed, if they are asked for. -/
def heading (input : String) (labels : Bool) : List Action := if labels then [.printLabels input] else []

theorem planAssemble_eq_map (input : String) (output : Option String) (print labels : Bool)
    (file : Except FileError ByteArray) : planAssemble input output print labels file =
      (programOf .source input file).map fun program => heading input labels ++ ending input output print program := by
  rw [planAssemble]
  cases programOf .source input file with
  | error failure => rfl
  | ok program =>
    cases print with
    | true => rfl
    | false =>
      simp only [bind, Except.bind, Except.map, ending, Bool.false_eq_true, if_false, List.append_assoc]
      rfl

theorem writes_of_mem_heading {input : String} {labels : Bool} :
    ∀ action ∈ heading input labels, action.writes = false := by
  cases labels <;> simp [heading, Action.writes]

theorem exists_of_planAssemble {input : String} {output : Option String} {labels : Bool}
    {file : Except FileError ByteArray} {actions : List Action}
    (h : planAssemble input output false labels file = .ok actions) :
    ∃ program back, programOf .source input file = .ok program ∧
      actions = heading input labels ++ .write (output.getD (defaultOutput input)) (HexText.ofBytes program) :: back ∧
      ∀ action ∈ back, action.reports = true := by
  rw [planAssemble_eq_map] at h
  obtain ⟨program, hprogram, rfl⟩ := map_eq_ok_iff.mp h
  refine ⟨program, _, hprogram, rfl, ?_⟩
  simp [Action.reports]

/-- What is sent depends on the program alone, not on the file it was found in. -/
theorem planSend_congr {input other : String} {file file' : Except FileError ByteArray} {program : List UInt8}
    (hsource : programOf .source input file = .ok program) (hhex : programOf .hexText other file' = .ok program)
    (port : String) (baud : Nat) : planSend other port baud true file' = planSend input port baud false file := by
  simp only [planSend, Bool.false_eq_true, if_false, if_true, hsource, hhex]

theorem planDisassemble_of_disassemble {input : String} {source : Bool} {file : Except FileError ByteArray}
    {program : List UInt8} {ds : List Decoded}
    (h : programOf (if source then .source else .hexText) input file = .ok program)
    (hds : ByteMachine.disassemble program = .ok ds) :
    planDisassemble input source file = .ok [.print (listing ds ++ ['\n'])] := by
  rw [planDisassemble, bind_eq_ok_iff]
  exact ⟨program, h, bind_eq_ok_iff.mpr ⟨ds, mapError_eq_ok_iff.mpr hds, rfl⟩⟩

end Command

namespace World

theorem run_disassemble_of_disassemble {w : World} {input : String} {source : Bool} {program : List UInt8}
    {ds : List Decoded} (h : programOf (if source then .source else .hexText) input (w.read input) = .ok program)
    (hds : disassemble program = .ok ds) :
    w.run (.disassemble input source) = (.ok (), w.afterPrint (listing ds ++ ['\n'])) := by
  rw [run_disassemble, Command.planDisassemble_of_disassemble h hds, carryOut_ok, performAll_print]

/-- Source is listed unless there is no program in its file, since every program of the assembler can be disassembled. -/
theorem run_disassemble_source_eq_error_iff {w w' : World} {input : String} {failure : Failure} :
    w.run (.disassemble input true) = (.error failure, w') ↔
      programOf .source input (w.read input) = .error failure ∧ w' = w := by
  cases hprogram : programOf .source input (w.read input) with
  | error cause =>
    have hplan : Command.planDisassemble input true (w.read input) = .error cause :=
      bind_eq_error_iff.mpr (.inl hprogram)
    simp [run_disassemble, hplan, carryOut_error, eq_comm]
  | ok program =>
    obtain ⟨text, -, hassemble⟩ := programOf_source_eq_ok_iff.mp hprogram
    obtain ⟨ds, hds⟩ := exists_disassemble_of_assemble hassemble
    have hlisted : w.run (.disassemble input true) = (.ok (), _) := run_disassemble_of_disassemble hprogram hds
    simp [hlisted]

/-- After a file was assembled into another, the source and its program can be read from the two. -/
theorem programs_after_assemble {w w' : World} {input output : String} {labels : Bool} (hother : w.OtherFile input output)
    (hreadable : w.Readable output) (h : w.run (.assemble input (some output) false labels) = (.ok (), w')) :
    ∃ program, w'.read input = w.read input ∧ programOf .source input (w.read input) = .ok program ∧
      programOf .hexText output (w'.read output) = .ok program := by
  rw [run_assemble] at h
  obtain ⟨actions, hplan, hperform⟩ := carryOut_eq_ok_iff.mp h
  obtain ⟨program, back, hprogram, rfl, hback⟩ := Command.exists_of_planAssemble hplan
  -- the labels are printed before the write and the ending after it, so only the write has changed files
  obtain ⟨before, after, hbefore, hwrite, hafter⟩ :=
    exists_write_of_performAll Command.writes_of_mem_heading hback hperform
  have houtput := read_of_write (hreadable.congr hbefore.symm) hwrite
  obtain ⟨text, htext, -⟩ := programOf_source_eq_ok_iff.mp hprogram
  obtain ⟨content, hcontent, -⟩ := bind_eq_ok_iff.mp htext
  refine ⟨program, ?_, hprogram, ?_⟩
  · rw [read_congr hafter, hcontent]
    exact read_other_of_write (hother.congr hbefore.symm) hwrite ((read_congr hbefore input).trans hcontent)
  · rw [read_congr hafter]
    exact houtput ▸ programOf_hexText output program

end World

/-- After a file was assembled into another file, from which the system lets it be read, both are listed alike, as the
instructions of the program, and sending the one is sending the other: the outcome and the world after it are the same at
every port and speed. Source is listed unless it cannot be read or cannot be assembled. -/
theorem hex_artifact_stands_for_source :
    (∀ (w w' : World) (input output : String) (labels : Bool), w.OtherFile input output → w.Readable output →
      w.run (.assemble input (some output) false labels) = (.ok (), w') →
      (∃ text program ds, (w.read input).bind decodeText = .ok text ∧ assemble text.toList = .ok program ∧
        disassemble program = .ok ds ∧
        w'.run (.disassemble output false) = (.ok (), w'.afterPrint (listing ds ++ ['\n'])) ∧
        w'.run (.disassemble input true) = (.ok (), w'.afterPrint (listing ds ++ ['\n']))) ∧
      ∀ port baud, w'.run (.send output port baud true) = w'.run (.send input port baud false)) ∧
    ∀ (w w' : World) (input : String) (failure : Failure), w.run (.disassemble input true) = (.error failure, w') ↔
      ((∃ e, (w.read input).bind decodeText = .error e ∧ failure = .unreadable .source input e) ∨
        ∃ text e, (w.read input).bind decodeText = .ok text ∧ assemble text.toList = .error e ∧
          failure = .badSource input e) ∧ w' = w := by
  constructor
  · intro w w' input output labels hother hreadable h
    obtain ⟨program, hkept, hsource, hhex⟩ := World.programs_after_assemble hother hreadable h
    obtain ⟨text, htext, hassemble⟩ := programOf_source_eq_ok_iff.mp hsource
    obtain ⟨ds, hds⟩ := exists_disassemble_of_assemble hassemble
    rw [← hkept] at hsource
    refine ⟨⟨text, program, ds, htext, hassemble, hds, ?_, ?_⟩, ?_⟩
    · exact World.run_disassemble_of_disassemble hhex hds
    · exact World.run_disassemble_of_disassemble hsource hds
    · intro port baud
      rw [World.run_send, World.run_send, Command.planSend_congr hsource hhex]
  · intro w w' input failure
    rw [World.run_disassemble_source_eq_error_iff, programOf_source_eq_error_iff]

/-- A loop in the working directory, its artifact outside of it, and a port that opens at one speed only. The artifact is
sent over a link that takes two bytes at first. -/
theorem artifact_of_a_loop :
    let source := "back:\nldi r1 -1\nBRZ back ; again".toUTF8
    let w : World :=
      { files := .ofList [("/home/me/in.s", .file source), ("/tmp", .directory)]
        home := ["home", "me"]
        openPort := fun port baud => if port = "/dev/ttyUSB0" ∧ baud = 9600 then .ok 3 else .error "No such device"
        links := fun _ => .ofScript [.accept 2] [] }
    let w' := (w.run (.assemble "in.s" (some "/tmp/out.hex") false true)).2
    w.OtherFile "in.s" "/tmp/out.hex" ∧ w.Readable "/tmp/out.hex" ∧
      w.run (.assemble "in.s" (some "/tmp/out.hex") false true) = (.ok (), w') ∧
      w'.run (.disassemble "/tmp/out.hex" false) = w'.run (.disassemble "in.s" true) ∧
      w'.run (.send "/tmp/out.hex" "/dev/ttyUSB0" 9600 true) = w'.run (.send "in.s" "/dev/ttyUSB0" 9600 false) ∧
      ((w'.run (.send "in.s" "/dev/ttyUSB0" 9600 false)).2.links 3).accepted =
        [0x55, 0xAA, 0, 4, 0x12, 0xFF, 0x90, 0xFC] ∧
      (w'.run (.send "in.s" "/dev/ttyUSB0" 115200 false)).1 = .error (.noPort "/dev/ttyUSB0" 115200 "No such device") ∧
      w.run (.disassemble "/tmp/out.hex" true) = (.error (.unreadable .source "/tmp/out.hex" .notFound), w) := by
  intro source w w'
  obtain ⟨hstands, hfails⟩ := hex_artifact_stands_for_source
  have hother : w.OtherFile "in.s" "/tmp/out.hex" := ⟨["tmp", "out.hex"], by decide +kernel, by decide +kernel⟩
  have hreadable : w.Readable "/tmp/out.hex" := ⟨["tmp", "out.hex"], by decide +kernel, rfl⟩
  have hresult : (w.run (.assemble "in.s" (some "/tmp/out.hex") false true)).1 = .ok () := by decide +kernel
  have hrun := World.run_eq_of_fst hresult
  have hmissing : (w.read "/tmp/out.hex").bind decodeText = .error .notFound := by decide +kernel
  obtain ⟨⟨text, program, ds, -, -, -, houtput, hinput⟩, hsend⟩ :=
    hstands w w' "in.s" "/tmp/out.hex" true hother hreadable hrun
  refine ⟨hother, hreadable, hrun, houtput.trans hinput.symm, hsend "/dev/ttyUSB0" 9600, by decide +kernel,
    by decide +kernel, ?_⟩
  exact (hfails w w "/tmp/out.hex" _).mpr ⟨.inl ⟨.notFound, hmissing, rfl⟩, rfl⟩

end ByteMachine
