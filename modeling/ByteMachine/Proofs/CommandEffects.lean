import ByteMachine.Proofs.CommandRuns
import ByteMachine.Proofs.FileNames
import ByteMachine.Proofs.FrameStreams
import ByteMachine.Proofs.Numerals

/-! # Command effects: what commands change, and what is left as it was when one fails

A command writes to one path at most. Before this write it only reads and prints, and behind it it only prints, so a
command that fails has changed no file. In the same way a send uses its link only when it has a whole frame. -/
namespace ByteMachine

open Text

namespace FileSystem

/-- The files after content went to a path. It stands in the file of the path, and is read from there unless the system
refuses. At every other place stands what stood there before. What goes to a device changes no file. -/
inductive Saved (fs : FileSystem) (home : Place) (path : String) (content : ByteArray) : FileSystem → Prop
  | device {place port} (leads : fs.locate home path = .ok (.device place port)) : Saved fs home path content fs
  | file {fs' : FileSystem} {place : Place} (leads : fs.place? home path = some place)
      (node : fs'.node? place = some (.file content)) (read : fs'.read home path = fs.permit place .read content)
      (others : ∀ other, other ≠ place → fs'.node? other = fs.node? other) (refusal : fs'.refusal = fs.refusal) :
      Saved fs home path content fs'

theorem Saved.put {fs : FileSystem} {home place : Place} {path : String} {content : ByteArray}
    (h : fs.sink home path content = .ok (.file place)) : fs.Saved home path content (fs.put place content) := by
  obtain ⟨hplace, hslash, -⟩ := sink_eq_file_iff.mp h
  have hslot := slot_of_place? hplace
  exact .file hplace (node?_put_self fs place content) (read_put_self hplace hslash content)
    (fun other hne => hslot.node?_put content hne) rfl

end FileSystem

namespace World

variable {w w' : World} {path : String} {content : ByteArray}

theorem storage_transmit (w : World) (port : Port) (bytes : List UInt8) :
    (w.transmit port bytes).2.storage = w.storage := rfl

theorem storage_of_write_error {e : FileError} (h : w.write path content = (.error e, w')) : w'.storage = w.storage := by
  unfold write at h
  cases hsink : w.files.sink w.home path content with
  | error cause =>
    simp only [hsink, Prod.mk.injEq] at h
    rw [h.2]
  | ok sink =>
    cases sink with
    | file place => simp [hsink] at h
    | port port =>
      simp only [hsink, Prod.mk.injEq] at h
      rw [← h.2, storage_transmit]

theorem saved_of_write (h : w.write path content = (.ok (), w')) : w.files.Saved w.home path content w'.files := by
  obtain ⟨place, hsink, rfl⟩ | ⟨port, hsink, htransmit⟩ := write_eq_ok_iff.mp h
  · exact .put hsink
  · obtain ⟨place, hdevice⟩ := FileSystem.exists_device_of_sink hsink
    have hkept := w.storage_transmit port content.toList
    rw [htransmit] at hkept
    obtain ⟨hfiles, -⟩ := Prod.mk.inj hkept
    rw [hfiles]
    exact .device hdevice

end World

namespace Command

def output? : Command → Option String
  | assemble input output print _ => if print then none else some (output.getD (defaultOutput input))
  | calculate _ _ _ output _ => output
  | send .. | disassemble .. => none

/-- The plan of a command where files are read like this. -/
def plan (read : String → Except FileError ByteArray) : Command → Except Failure (List Action)
  | assemble input output print labels => planAssemble input output print labels (read input)
  | calculate a symbol b output hex => planCalculate a symbol b output hex
  | send input port baud hex => planSend input port baud hex (read input)
  | disassemble input source => planDisassemble input source (read input)

theorem planCalculate_none (a : Int) (symbol : String) (b : Int) (hex : Bool) :
    planCalculate a symbol b none hex = (calculationText a symbol b hex).map fun text => [.print text] := by
  rw [planCalculate]
  cases calculationText a symbol b hex <;> rfl

theorem planCalculate_some (a : Int) (symbol : String) (b : Int) (path : String) (hex : Bool) :
    planCalculate a symbol b (some path) hex = (calculationText a symbol b hex).map (writeActions path) := by
  rw [planCalculate]
  cases calculationText a symbol b hex <;> rfl

variable {read : String → Except FileError ByteArray} {command : Command} {actions : List Action}

/-- Without an output, no action of the plan is a write. -/
theorem writes_of_plan (houtput : command.output? = none) (hplan : command.plan read = .ok actions) :
    ∀ action ∈ actions, action.writes = false := by
  cases command with
  | assemble input output print labels =>
    cases print with
    | false => cases houtput
    | true =>
      rw [plan, planAssemble_eq_map] at hplan
      obtain ⟨program, -, rfl⟩ := map_eq_ok_iff.mp hplan
      rw [List.forall_mem_append]
      exact ⟨writes_of_mem_heading, by simp [ending, Action.writes]⟩
  | calculate a symbol b output hex =>
    cases output with
    | some path => cases houtput
    | none =>
      rw [plan, planCalculate_none] at hplan
      obtain ⟨text, -, rfl⟩ := map_eq_ok_iff.mp hplan
      simp [Action.writes]
  | send input port baud hex =>
    obtain ⟨program, -, hactions⟩ := bind_eq_ok_iff.mp hplan
    cases hactions
    simp [Action.writes]
  | disassemble input source =>
    obtain ⟨program, -, hplan⟩ := bind_eq_ok_iff.mp hplan
    obtain ⟨ds, -, hactions⟩ := bind_eq_ok_iff.mp hplan
    cases hactions
    simp [Action.writes]

theorem exists_of_planCalculate {a : Int} {symbol : String} {b : Int} {path : String} {hex : Bool}
    (h : planCalculate a symbol b (some path) hex = .ok actions) :
    ∃ text back, calculationText a symbol b hex = .ok text ∧ actions = .write path text :: back ∧
      ∀ action ∈ back, action.reports = true := by
  rw [planCalculate_some] at h
  obtain ⟨text, htext, rfl⟩ := map_eq_ok_iff.mp h
  exact ⟨text, _, htext, rfl, by simp [Action.reports]⟩

/-- With an output, one action is a write, and only reports stand behind it. -/
theorem exists_write_of_plan {path : String} (houtput : command.output? = some path)
    (hplan : command.plan read = .ok actions) :
    ∃ front text back, actions = front ++ .write path text :: back ∧ (∀ action ∈ front, action.writes = false) ∧
      ∀ action ∈ back, action.reports = true := by
  cases command with
  | assemble input output print labels =>
    cases print with
    | true => cases houtput
    | false =>
      cases houtput
      obtain ⟨program, back, -, hactions, hback⟩ := exists_of_planAssemble hplan
      exact ⟨_, _, back, hactions, writes_of_mem_heading, hback⟩
  | calculate a symbol b output hex =>
    cases houtput
    obtain ⟨text, back, -, hactions, hback⟩ := exists_of_planCalculate hplan
    exact ⟨[], text, back, hactions, by simp, hback⟩
  | send input port baud hex | disassemble input source => cases houtput

end Command

namespace World

theorem run_eq_carryOut (w : World) (command : Command) : w.run command = w.carryOut (command.plan w.read) := by
  cases command <;> rfl

theorem storage_run (w : World) {command : Command} (houtput : command.output? = none) :
    (w.run command).2.storage = w.storage := by
  rw [run_eq_carryOut]
  cases hplan : command.plan w.read with
  | error failure => rfl
  | ok actions => exact w.storage_performAll (Command.writes_of_plan houtput hplan)

/-- The last action of a command that can fail is its write, and a write that fails changes no file. -/
theorem storage_of_run_error {w w' : World} {command : Command} {failure : Failure}
    (h : w.run command = (.error failure, w')) : w'.storage = w.storage := by
  cases houtput : command.output? with
  | none =>
    have hkept := w.storage_run houtput
    rwa [h] at hkept
  | some path =>
    rw [run_eq_carryOut] at h
    cases hplan : command.plan w.read with
    | error cause =>
      rw [hplan, carryOut_error, Prod.mk.injEq] at h
      rw [h.2]
    | ok actions =>
      obtain ⟨front, text, back, rfl, hfront, hback⟩ := Command.exists_write_of_plan houtput hplan
      rw [hplan, carryOut_ok] at h
      -- it failed in front of its write, or in it
      obtain ⟨cause, -, hkept⟩ | ⟨before, after, outcome, hbefore, hwrite, hresult, hafter⟩ :=
        performAll_one_write hfront hback h
      · exact hkept
      · obtain ⟨e, rfl, -⟩ := mapError_eq_error_iff.mp hresult.symm
        exact hafter.trans ((storage_of_write_error hwrite).trans hbefore)

theorem saved_of_performAll {w w' : World} {front back : List Action} {path : String} {text : List Char}
    (hfront : ∀ action ∈ front, action.writes = false) (hback : ∀ action ∈ back, action.reports = true)
    (h : w.performAll (front ++ .write path text :: back) = (.ok (), w')) :
    w.files.Saved w.home path (String.ofList text).toUTF8 w'.files := by
  obtain ⟨before, after, hbefore, hwrite, hafter⟩ := exists_write_of_performAll hfront hback h
  have hsaved := saved_of_write hwrite
  obtain ⟨hfiles, hhome⟩ := Prod.mk.inj hbefore
  obtain ⟨hfiles', -⟩ := Prod.mk.inj hafter
  rwa [hfiles, hhome, ← hfiles'] at hsaved

end World

theorem programOf_hexText_eq_error_iff {path : String} {file : Except FileError ByteArray} {failure : Failure} :
    programOf .hexText path file = .error failure ↔
      (∃ e, file.bind decodeText = .error e ∧ failure = .unreadable .hexText path e) ∨
      ∃ text e, file.bind decodeText = .ok text ∧ HexText.toBytes text.toList = .error e ∧
        failure = .badHexText path e := by
  simp only [programOf, bind_eq_error_iff, decodeInput_eq_ok_iff, decodeInput_eq_error_iff, mapError_eq_error_iff]
  grind

/-- The program in a file of hex text or in a source. -/
def World.load (w : World) (input : String) (hex : Bool) : Except Failure (List UInt8) :=
  programOf (if hex then .hexText else .source) input (w.read input)

/-- Why a send ends before its frame is complete: its input cannot be read, assembled or taken as hex text, its port does
not open at that speed, or its program is empty or too large. Whether the input is hex text is the index. -/
inductive Unsent (w : World) (input port : String) (baud : Nat) : Bool → Failure → Prop
  | unreadable {hex e} (unread : (w.read input).bind decodeText = .error e) :
      Unsent w input port baud hex (.unreadable (if hex then .hexText else .source) input e)
  | badSource {text e} (read : (w.read input).bind decodeText = .ok text) (bad : assemble text.toList = .error e) :
      Unsent w input port baud false (.badSource input e)
  | badHexText {text e} (read : (w.read input).bind decodeText = .ok text)
      (bad : HexText.toBytes text.toList = .error e) : Unsent w input port baud true (.badHexText input e)
  | noPort {hex program text} (loaded : w.load input hex = .ok program) (shut : w.openPort port baud = .error text) :
      Unsent w input port baud hex (.noPort port baud text)
  | empty {hex handle} (loaded : w.load input hex = .ok []) (opened : w.openPort port baud = .ok handle) :
      Unsent w input port baud hex (.notSent (.frame .emptyProgram))
  | tooLarge {hex program handle} (loaded : w.load input hex = .ok program)
      (opened : w.openPort port baud = .ok handle) (large : 65535 < program.length) :
      Unsent w input port baud hex (.notSent (.frame (.tooLarge program.length)))

theorem Unsent.of_load {w : World} {input : String} {hex : Bool} {failure : Failure} (port : String) (baud : Nat)
    (h : w.load input hex = .error failure) : Unsent w input port baud hex failure := by
  cases hex with
  | false =>
    obtain ⟨e, hunread, rfl⟩ | ⟨text, e, hread, hbad, rfl⟩ := programOf_source_eq_error_iff.mp h
    · exact .unreadable hunread
    · exact .badSource hread hbad
  | true =>
    obtain ⟨e, hunread, rfl⟩ | ⟨text, e, hread, hbad, rfl⟩ := programOf_hexText_eq_error_iff.mp h
    · exact .unreadable hunread
    · exact .badHexText hread hbad

namespace World

def afterNote (w : World) (text : String) : World := { w with notes := w.notes.push text }

theorem perform_note (w : World) (text : String) : w.perform (.note text) = (.ok (), w.afterNote text) := rfl

variable {w w' : World} {input port : String} {baud : Nat} {hex : Bool} {program : List UInt8} {failure : Failure}

theorem perform_send_of_unframed {handle : Port} {e : Frame.Error} (opened : w.openPort port baud = .ok handle)
    (h : Frame.ofPayload program = .error e) :
    w.perform (.send port baud program) = (.error (.notSent (.frame e)), w) := by
  rw [perform_send_of_ok opened]
  simp only [Link.send, h, setLink_self]
  rfl

/-- A frame can only fail on the link. -/
theorem exists_io_of_perform_send {handle : Port} {frame : List UInt8} (opened : w.openPort port baud = .ok handle)
    (h : Frame.ofPayload program = .ok frame) (hsend : w.perform (.send port baud program) = (.error failure, w')) :
    ∃ text, failure = .notSent (.io text) := by
  rw [perform_send_of_ok opened, Prod.mk.injEq] at hsend
  simp only [Link.send, h] at hsend
  obtain ⟨cause, hcause, rfl⟩ := mapError_eq_error_iff.mp hsend.1
  obtain ⟨text, -, rfl⟩ := mapError_eq_error_iff.mp hcause
  exact ⟨text, rfl⟩

theorem run_send_of_error (h : w.load input hex = .error failure) :
    w.run (.send input port baud hex) = (.error failure, w) := by
  rw [load] at h
  rw [run_send, Command.planSend, h]
  rfl

/-- A program that was loaded is noted first, and printed last, so a send can only fail between the two. -/
theorem exists_run_send_eq_error_iff (loaded : w.load input hex = .ok program) :
    ∃ note, ∀ failure w', w.run (.send input port baud hex) = (.error failure, w') ↔
      (w.afterNote note).perform (.send port baud program) = (.error failure, w') := by
  have hrun : ∃ note ending, w.run (.send input port baud hex) =
      w.performAll [.note note, .send port baud program, .print ending] := by
    rw [load] at loaded
    rw [run_send, Command.planSend, loaded]
    exact ⟨_, _, rfl⟩
  obtain ⟨note, ending, hrun⟩ := hrun
  refine ⟨note, fun failure w' => ?_⟩
  rw [hrun, performAll_cons_of_ok (w.perform_note note)]
  cases hsend : (w.afterNote note).perform (.send port baud program) with
  | mk result next =>
    cases result with
    | error cause => rw [performAll_cons_of_error hsend]
    | ok => simp [performAll_cons_of_ok hsend, performAll_print]

theorem exists_run_of_unframed {handle : Port} {e : Frame.Error} (loaded : w.load input hex = .ok program)
    (opened : w.openPort port baud = .ok handle) (unframed : Frame.ofPayload program = .error e) :
    ∃ w', w.run (.send input port baud hex) = (.error (.notSent (.frame e)), w') ∧ w'.links = w.links := by
  obtain ⟨note, hrun⟩ := exists_run_send_eq_error_iff loaded
  have hopen : (w.afterNote note).openPort port baud = .ok handle := opened
  exact ⟨_, (hrun _ _).mpr (perform_send_of_unframed hopen unframed), rfl⟩

theorem exists_run_of_unsent (h : Unsent w input port baud hex failure) :
    ∃ w', w.run (.send input port baud hex) = (.error failure, w') ∧ w'.links = w.links := by
  cases h with
  | @unreadable _ e unread =>
    refine ⟨w, run_send_of_error ?_, rfl⟩
    cases hex with
    | false => exact programOf_source_eq_error_iff.mpr (.inl ⟨e, unread, rfl⟩)
    | true => exact programOf_hexText_eq_error_iff.mpr (.inl ⟨e, unread, rfl⟩)
  | badSource read bad =>
    exact ⟨w, run_send_of_error (programOf_source_eq_error_iff.mpr (.inr ⟨_, _, read, bad, rfl⟩)), rfl⟩
  | badHexText read bad =>
    exact ⟨w, run_send_of_error (programOf_hexText_eq_error_iff.mpr (.inr ⟨_, _, read, bad, rfl⟩)), rfl⟩
  | noPort loaded shut =>
    obtain ⟨note, hrun⟩ := exists_run_send_eq_error_iff loaded
    have hopen : (w.afterNote note).openPort port baud = .error _ := shut
    exact ⟨_, (hrun _ _).mpr (perform_send_of_error hopen _), rfl⟩
  | empty loaded opened => exact exists_run_of_unframed loaded opened rfl
  | tooLarge loaded opened large =>
    exact exists_run_of_unframed loaded opened (Frame.ofPayload_eq_error_iff.mpr (.inr ⟨large, rfl⟩))

/-- A send that fails has not come to its frame, or fails on the link. -/
theorem unsent_of_run (h : w.run (.send input port baud hex) = (.error failure, w'))
    (hio : ∀ text, failure ≠ .notSent (.io text)) : Unsent w input port baud hex failure := by
  cases loaded : w.load input hex with
  | error cause =>
    rw [run_send_of_error loaded, Prod.mk.injEq, Except.error.injEq] at h
    rw [← h.1]
    exact .of_load port baud loaded
  | ok program =>
    obtain ⟨note, hrun⟩ := exists_run_send_eq_error_iff loaded
    have hsend := (hrun failure w').mp h
    cases hopen : w.openPort port baud with
    | error text =>
      have hshut : (w.afterNote note).openPort port baud = .error text := hopen
      rw [perform_send_of_error hshut, Prod.mk.injEq, Except.error.injEq] at hsend
      rw [← hsend.1]
      exact .noPort loaded hopen
    | ok handle =>
      have hopened : (w.afterNote note).openPort port baud = .ok handle := hopen
      cases hframe : Frame.ofPayload program with
      | ok frame =>
        obtain ⟨text, htext⟩ := exists_io_of_perform_send hopened hframe hsend
        exact absurd htext (hio text)
      | error e =>
        rw [perform_send_of_unframed hopened hframe, Prod.mk.injEq, Except.error.injEq] at hsend
        rw [← hsend.1]
        obtain ⟨hempty, rfl⟩ | ⟨hlarge, rfl⟩ := Frame.ofPayload_eq_error_iff.mp hframe
        · rw [List.length_eq_zero_iff.mp hempty] at loaded
          exact .empty loaded hopen
        · exact .tooLarge loaded hopen hlarge

end World

/-- The line of a label: its address in hexadecimal, two blanks and its name. -/
def IsLabelLine (label : Token × UInt8) (line : List Char) : Prop :=
  ∃ digits, Hexadecimal label.2.toNat digits ∧ line = "0x".toList ++ digits ++ "  ".toList ++ label.1 ++ ['\n']

theorem isLabelLine_labelLine (label : Token × UInt8) : IsLabelLine label (labelLine label) := by
  obtain ⟨digits, hdigits, hnumber⟩ := exists_hexadecimal label.2.toNat
  exact ⟨digits, hnumber, by rw [labelLine, hdigits]; rfl⟩

theorem exists_labels_of_assemble {source : List Char} {program : List UInt8} (h : assemble source = .ok program) :
    ∃ ss labels, statements source = .ok ss ∧ resolveLabels source = .ok labels ∧ generate labels ss = .ok program := by
  obtain ⟨ss, labels, hss, hlabels, hprogram⟩ := assemble_eq_ok_iff.mp h
  exact ⟨ss, labels, hss, bind_eq_ok_iff.mpr ⟨ss, hss, hlabels⟩, hprogram⟩

theorem labelLines_of_resolveLabels {path : String} {file : Except FileError ByteArray} {text : String}
    {labels : LabelTable} (htext : file.bind decodeText = .ok text) (h : resolveLabels text.toList = .ok labels) :
    labelLines path file = .ok (labels.toList.map labelLine).flatten := by
  have hdecode : decodeInput .source path file = .ok text.toList := decodeInput_eq_ok_iff.mpr ⟨text, htext, rfl⟩
  rw [labelLines, bind_eq_ok_iff]
  exact ⟨_, hdecode, bind_eq_ok_iff.mpr ⟨labels, mapError_eq_ok_iff.mpr h, rfl⟩⟩

/-- If labels are asked for, the input is read a second time and they are printed first. All else is as if they were not
asked for. -/
theorem World.run_assemble_labels {w : World} {input : String} {program : List UInt8} {text : List Char}
    (hprogram : programOf .source input (w.read input) = .ok program)
    (htext : labelLines input (w.read input) = .ok text) (output : Option String) (print : Bool) :
    w.run (.assemble input output print true) = (w.afterPrint text).run (.assemble input output print false) := by
  -- what is printed changes no file, so the second read agrees with the first
  have hread : (w.afterPrint text).read input = w.read input := rfl
  rw [run_assemble, run_assemble, hread, Command.planAssemble_eq_map, Command.planAssemble_eq_map, hprogram]
  exact performAll_cons_of_ok (perform_printLabels_of_ok htext) _

/-- A command that fails leaves every file as it was, and so does any command without an output: a send, a disassembly,
an assembly that is printed and a calculation that is. An assembly that is written changes nothing but its output, which
gets the hex text of the program in the input. The output is the given path or that of the input with `hex` as its
extension, in the place of an old one or added where there is none. A calculation that is written changes nothing but its
output. A send that fails for another reason than its link has not touched any link. Labels that are asked for are read
from the input once more. They are those the program was encoded with, each is printed as a line with its address, and to
print them is all that is done more. -/
theorem commands_leave_no_partial_output (w : World) :
    (∀ command failure w', w.run command = (.error failure, w') → w'.files = w.files) ∧
    (∀ command result w', command.output? = none → w.run command = (result, w') → w'.files = w.files) ∧
    (∀ input output labels w', w.run (.assemble input output false labels) = (.ok (), w') →
      ∃ text program, (w.read input).bind decodeText = .ok text ∧ assemble text.toList = .ok program ∧
        w.files.Saved w.home (output.getD (Command.defaultOutput input))
          (String.ofList (HexText.ofBytes program)).toUTF8 w'.files) ∧
    (∀ parent name : List Char, (∀ c ∈ parent.getLast?, c = '/') → name ≠ [] → name ≠ ['.'] → '/' ∉ name →
      (∀ old, '.' ∉ old ∧ '/' ∉ old → Command.defaultOutput (String.ofList (parent ++ name ++ '.' :: old)) =
        String.ofList (parent ++ name ++ ".hex".toList)) ∧
      ('.' ∉ name.tail → Command.defaultOutput (String.ofList (parent ++ name)) =
        String.ofList (parent ++ name ++ ".hex".toList))) ∧
    (∀ a symbol b path hex w', w.run (.calculate a symbol b (some path) hex) = (.ok (), w') →
      ∃ text, Command.calculationText a symbol b hex = .ok text ∧
        w.files.Saved w.home path (String.ofList text).toUTF8 w'.files) ∧
    (∀ input port baud hex failure, Unsent w input port baud hex failure ↔
      ∃ w', w.run (.send input port baud hex) = (.error failure, w') ∧ w'.links = w.links ∧
        ∀ text, failure ≠ .notSent (.io text)) ∧
    ∀ input output print text program, (w.read input).bind decodeText = .ok text →
      assemble text.toList = .ok program → ∃ ss labels lines, statements text.toList = .ok ss ∧
        resolveLabels text.toList = .ok labels ∧ generate labels ss = .ok program ∧
        List.Forall₂ IsLabelLine labels.toList lines ∧
        w.run (.assemble input output print true) =
          (w.afterPrint lines.flatten).run (.assemble input output print false) := by
  refine ⟨?_, ?_, ?_, ?_, ?_, ?_, ?_⟩
  · intro command failure w' h
    exact congrArg Prod.fst (World.storage_of_run_error h)
  · intro command result w' houtput h
    have hkept := w.storage_run houtput
    rw [h] at hkept
    exact congrArg Prod.fst hkept
  · intro input output labels w' h
    rw [World.run_assemble] at h
    obtain ⟨actions, hplan, hperform⟩ := World.carryOut_eq_ok_iff.mp h
    obtain ⟨program, back, hprogram, rfl, hback⟩ := Command.exists_of_planAssemble hplan
    obtain ⟨text, htext, hassemble⟩ := programOf_source_eq_ok_iff.mp hprogram
    exact ⟨text, program, htext, hassemble, World.saved_of_performAll Command.writes_of_mem_heading hback hperform⟩
  · intro parent name hparent hne hdot hname
    constructor
    · intro old hold
      exact Path.withExtension_of_extension hparent hne hdot hname hold "hex"
    · intro hnone
      exact Path.withExtension_of_notMem hparent hne hdot hname hnone "hex"
  · intro a symbol b path hex w' h
    obtain ⟨actions, hplan, hperform⟩ := World.carryOut_eq_ok_iff.mp h
    obtain ⟨text, back, htext, rfl, hback⟩ := Command.exists_of_planCalculate hplan
    exact ⟨text, htext, World.saved_of_performAll (List.forall_mem_nil _) hback hperform⟩
  · intro input port baud hex failure
    constructor
    · intro hunsent
      obtain ⟨w', hrun, hlinks⟩ := World.exists_run_of_unsent hunsent
      exact ⟨w', hrun, hlinks, by cases hunsent <;> simp⟩
    · rintro ⟨w', hrun, -, hio⟩
      exact World.unsent_of_run hrun hio
  · intro input output print text program htext hassemble
    obtain ⟨ss, labels, hss, hlabels, hgenerate⟩ := exists_labels_of_assemble hassemble
    have hprogram : programOf .source input (w.read input) = .ok program :=
      programOf_source_eq_ok_iff.mpr ⟨text, htext, hassemble⟩
    have hlines : List.Forall₂ IsLabelLine labels.toList (labels.toList.map labelLine) :=
      List.forall₂_map_right_iff.mpr (List.forall₂_same.mpr fun label _ => isLabelLine_labelLine label)
    exact ⟨ss, labels, _, hss, hlabels, hgenerate, hlines,
      World.run_assemble_labels hprogram (labelLines_of_resolveLabels htext hlabels) output print⟩

/-- A program that is written beside its source behind its two labels, one that a calculation puts outside of the working
directory, one that the system does not let be written over another file, and one that is too short to be sent. -/
theorem effects_in_a_small_world :
    let source := "go:\nLDI r1 go\nend:\nJMP end"
    let files := FileSystem.ofList [("/work/src/in", .file source.toUTF8), ("/work/none.s", .file "; nothing".toUTF8),
      ("/work/old.hex", .file "00".toUTF8), ("/tmp", .directory)]
    let denied := FileError.other "Permission denied (os error 13)"
    let w : World :=
      { files := { files with refusal := fun place _ => if place = ["work", "old.hex"] then some denied else none }
        home := ["work"]
        openPort := fun port _ => if port = "/dev/ttyUSB0" then .ok 0 else .error "No such file or directory" }
    let assembled := (w.run (.assemble "src/in" none false true)).2
    let calculated := (w.run (.calculate (-1) "*" 300 (some "/tmp/new.hex") true)).2
    (∃ program, assemble source.toList = .ok program ∧
      w.files.Saved w.home "src/in.hex" (String.ofList (HexText.ofBytes program)).toUTF8 assembled.files) ∧
    (∃ text, Command.calculationText (-1) "*" 300 true = .ok text ∧
      w.files.Saved w.home "/tmp/new.hex" (String.ofList text).toUTF8 calculated.files) ∧
    (w.run (.assemble "src/in" (some "old.hex") false true)).1 = .error (.unwritable "old.hex" denied) ∧
    (w.run (.assemble "src/in" (some "old.hex") false true)).2.files = w.files ∧
    (w.run (.assemble "src/in" none true true)).2.files = w.files ∧
    (∃ w', w.run (.send "none.s" "/dev/ttyUSB0" 9600 false) = (.error (.notSent (.frame .emptyProgram)), w') ∧
      w'.links = w.links) ∧
    (∃ w', w.run (.send "none.s" "tty" 9600 false) = (.error (.noPort "tty" 9600 "No such file or directory"), w') ∧
      w'.links = w.links) ∧
    (∃ w', w.run (.send "old.hex" "tty" 9600 true) = (.error (.unreadable .hexText "old.hex" denied), w') ∧
      w'.links = w.links) ∧
    ∃ labels lines, resolveLabels source.toList = .ok labels ∧ List.Forall₂ IsLabelLine labels.toList lines ∧
      w.run (.assemble "src/in" none true true) =
        (w.afterPrint lines.flatten).run (.assemble "src/in" none true false) := by
  intro source files denied w assembled calculated
  obtain ⟨hfailed, hquiet, hassembled, hname, hcalculated, hunsent, hlabels⟩ := commands_leave_no_partial_output w
  have hread : (w.read "src/in").bind decodeText = .ok source := by decide +kernel
  have hprogram : assemble source.toList = .ok [0x12, 0x00, 0xA0, 0x02] := by decide +kernel
  have hloaded : w.load "none.s" false = .ok [] := by decide +kernel
  have hdenied : (w.read "old.hex").bind decodeText = .error denied := by decide +kernel
  have hdefault : Command.defaultOutput "src/in" = "src/in.hex" :=
    (hname "src/".toList "in".toList (by simp) (by simp) (by simp) (by simp)).2 (by simp)
  have hwrites : (w.run (.assemble "src/in" none false true)).1 = .ok () := by decide +kernel
  have hwrites' : (w.run (.calculate (-1) "*" 300 (some "/tmp/new.hex") true)).1 = .ok () := by decide +kernel
  have hfails : (w.run (.assemble "src/in" (some "old.hex") false true)).1 = .error (.unwritable "old.hex" denied) := by
    decide +kernel
  obtain ⟨text, program, htext, hassemble, hsaved⟩ :=
    hassembled "src/in" none true assembled (World.run_eq_of_fst hwrites)
  obtain ⟨ss, labels, lines, -, hresolve, -, hlines, hprints⟩ := hlabels "src/in" none true source _ hread hprogram
  obtain ⟨w₁, hempty, hkept₁, -⟩ := (hunsent "none.s" "/dev/ttyUSB0" 9600 false _).mp (.empty hloaded rfl)
  obtain ⟨w₂, hshut, hkept₂, -⟩ := (hunsent "none.s" "tty" 9600 false _).mp (.noPort hloaded rfl)
  obtain ⟨w₃, hunread, hkept₃, -⟩ := (hunsent "old.hex" "tty" 9600 true _).mp (.unreadable hdenied)
  rw [← Except.ok.inj (hread.symm.trans htext)] at hassemble
  rw [Option.getD_none, hdefault] at hsaved
  exact ⟨⟨program, hassemble, hsaved⟩, hcalculated _ _ _ _ _ _ (World.run_eq_of_fst hwrites'), hfails,
    hfailed _ _ _ (World.run_eq_of_fst hfails), hquiet _ _ _ rfl (World.run_eq_of_fst rfl), ⟨w₁, hempty, hkept₁⟩,
    ⟨w₂, hshut, hkept₂⟩, ⟨w₃, hunread, hkept₃⟩, labels, lines, hresolve, hlines, hprints⟩

end ByteMachine
