import ByteMachine.Shell.Plan

/-! # Hosts: the computer a command runs on

`World` is a host as a value: files and a working directory, ports and what lies behind them, what was printed and what
was noted. -/
namespace ByteMachine

class Host (m : Type → Type) where
  /-- A port that is open. -/
  Handle : Type
  read : String → m (Except FileError ByteArray)
  write : String → ByteArray → m (Except FileError Unit)
  print : String → m Unit
  /-- Notes something for the log. -/
  note : String → m Unit
  /-- Opens a port at a speed, or says why it does not open. -/
  connect : String → Nat → m (Except String Handle)
  transmit : Handle → List UInt8 → m (Except String Unit)

section
variable {m : Type → Type} [Monad m] [Host m]

def Action.perform : Action → m (Except Failure Unit)
  | print text => do
    Host.print (String.ofList text)
    return .ok ()
  | printLabels input => do
    match labelLines input (← Host.read input) with
    | .ok text =>
      Host.print (String.ofList text)
      return .ok ()
    | .error failure => return .error failure
  | note text => do
    Host.note text
    return .ok ()
  | write path text => return (← Host.write path (String.ofList text).toUTF8).mapError (.unwritable path)
  | send port baud program => do
    match ← Host.connect port baud with
    | .error text => return .error (.noPort port baud text)
    | .ok handle =>
      match Frame.ofPayload program with
      | .error e => return .error (.notSent (.frame e))
      | .ok frame => return (← Host.transmit handle frame).mapError fun text => .notSent (.io text)

/-- Performs actions in order up to the first that fails. -/
def performAll : List Action → m (Except Failure Unit)
  | [] => return .ok ()
  | action :: actions => do
    match ← action.perform with
    | .ok _ => performAll actions
    | .error failure => return .error failure

/-- Performs the actions of a plan, if there is one. -/
def carryOut : Except Failure (List Action) → m (Except Failure Unit)
  | .ok actions => performAll actions
  | .error failure => return .error failure

/-- Reads the input file, if the command has one, and does what follows from it. -/
def Command.run : Command → m (Except Failure Unit)
  | assemble input output print labels => do carryOut (planAssemble input output print labels (← Host.read input))
  | calculate a symbol b output hex => carryOut (planCalculate a symbol b output hex)
  | send input port baud hex => do carryOut (planSend input port baud hex (← Host.read input))
  | disassemble input source => do carryOut (planDisassemble input source (← Host.read input))

end

structure World where
  files : FileSystem
  /-- The working directory. -/
  home : Place
  /-- The port that is opened by its name at a speed, or the reason why none is. -/
  openPort : String → Nat → Except String Port
  links : Port → Link := fun _ => .ofScript [] []
  printed : String := ""
  notes : Array String := #[]

namespace World

def read (w : World) (path : String) : Except FileError ByteArray := w.files.read w.home path

def setLink (w : World) (port : Port) (link : Link) : World :=
  { w with links := fun other => if other = port then link else w.links other }

def transmit (w : World) (port : Port) (bytes : List UInt8) : Except String Unit × World :=
  let (link, result) := (w.links port).deliver bytes
  (result, w.setLink port link)

def write (w : World) (path : String) (content : ByteArray) : Except FileError Unit × World :=
  match w.files.sink w.home path content with
  | .ok (.file place) => (.ok (), { w with files := w.files.put place content })
  | .ok (.port port) =>
    let (result, w) := w.transmit port content.toList
    (result.mapError .other, w)
  | .error e => (.error e, w)

end World

instance : Host (StateM World) where
  Handle := Port
  read path := fun w => (w.read path, w)
  write path content := fun w => w.write path content
  print text := fun w => ((), { w with printed := w.printed ++ text })
  note text := fun w => ((), { w with notes := w.notes.push text })
  connect port baud := fun w => (w.openPort port baud, w)
  transmit port bytes := fun w => w.transmit port bytes

/-- How a call of a tool ends. -/
inductive Ending
  | done
  | usage
  | version
  | failed (failure : Failure)

namespace Ending

def exitCode : Ending → UInt32
  | done | version => 0
  | usage | failed _ => 1

/-- The word that opens a bad ending, in bold red. -/
def errorMark : String := "\x1b[1;31mError\x1b[0m"

/-- What is printed on the error stream. -/
def complaint : Ending → String
  | done | version => ""
  | usage => "usage"
  | failed failure => errorMark ++ ": " ++ failure.message ++ "\n"

end Ending

/-- Calls a tool with the arguments behind its name. -/
def invoke {m : Type → Type} [Monad m] [Host m] (tool : Tool) (args : List String) : m Ending := do
  match Command.parse tool args with
  | .error .usage => return .usage
  | .error (.version title) =>
    Host.print (versionText title)
    return .version
  | .ok command =>
    match ← command.run with
    | .ok _ => return .done
    | .error failure => return .failed failure

end ByteMachine
