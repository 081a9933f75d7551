import ByteMachine.Assembly.Assembler
import ByteMachine.Calculation
import ByteMachine.Disassembly
import ByteMachine.HexText
import ByteMachine.Link
import ByteMachine.Shell.Command
import ByteMachine.Shell.FileSystem

/-! # Plans: what a command does, worked out from the file it reads -/
namespace ByteMachine

inductive Content | source | hexText
  deriving DecidableEq

def Content.text : Content → String
  | source => "source file"
  | hexText => "hex artifact"

/-- Why a command did not do what it was asked to. -/
inductive Failure
  | unreadable (content : Content) (path : String) (e : FileError)
  | unwritable (path : String) (e : FileError)
  | badSource (path : String) (e : SourceError)
  | badHexText (path : String) (e : HexText.Error)
  | badCalculation (e : Calculation.Error)
  | badGenerated (e : SourceError)
  | badProgram (e : DecodeError)
  | noPort (port : String) (baud : Nat) (text : String)
  | notSent (e : Link.Error)
  deriving DecidableEq

def Failure.message : Failure → String
  | unreadable content path e => "could not read " ++ content.text ++ " '" ++ path ++ "': " ++ e.message
  | unwritable path e => "could not write '" ++ path ++ "': " ++ e.message
  | badSource path e => "in '" ++ path ++ "': " ++ e.message
  | badHexText path e => "in '" ++ path ++ "': " ++ e.message
  | badCalculation e => e.message
  | badGenerated e => e.message
  | badProgram e => e.message
  | noPort port baud text => "could not open port '" ++ port ++ "' at " ++ toString baud ++ " baud: " ++ text
  | notSent e => e.message ++ ": " ++ e.cause

/-- One thing done to the host. Each needs the ones before it to have gone well. -/
inductive Action
  | print (text : List Char)
  /-- Reads a source once more and prints its labels. -/
  | printLabels (input : String)
  | note (text : String)
  | write (path : String) (text : List Char)
  /-- Opens a port at a speed, then frames a program and hands it over. -/
  | send (port : String) (baud : Nat) (program : List UInt8)

/-- The word that opens a good ending, in bold green. -/
def okMark : String := "\x1b[1;32mOK\x1b[0m"

def decodeInput (content : Content) (path : String) (file : Except FileError ByteArray) : Except Failure (List Char) :=
  match file.bind decodeText with
  | .ok text => .ok text.toList
  | .error e => .error (.unreadable content path e)

def programOf (content : Content) (path : String) (file : Except FileError ByteArray) : Except Failure (List UInt8) := do
  let text ← decodeInput content path file
  match content with
  | .source => (assemble text).mapError (.badSource path)
  | .hexText => (HexText.toBytes text).mapError (.badHexText path)

def labelLine (label : Token × UInt8) : List Char :=
  Text.hexNumber label.2.toNat ++ "  ".toList ++ label.1 ++ ['\n']

def labelLines (path : String) (file : Except FileError ByteArray) : Except Failure (List Char) := do
  let text ← decodeInput .source path file
  let labels ← (resolveLabels text).mapError (.badSource path)
  return labels.toList.flatMap labelLine

def writeActions (path : String) (text : List Char) : List Action :=
  [.write path text, .note ("wrote '" ++ path ++ "'")]

namespace Command

/-- Where the bytes of an assembled file go if no other place is given. -/
def defaultOutput (input : String) : String := Path.withExtension input "hex"

def planAssemble (input : String) (output : Option String) (print labels : Bool) (file : Except FileError ByteArray) :
    Except Failure (List Action) := do
  let program ← programOf .source input file
  let heading : List Action := if labels then [.printLabels input] else []
  if print then return heading ++ [.print (HexText.ofBytes program)]
  else
    let path := output.getD (defaultOutput input)
    let ending := okMark ++ " '" ++ path ++ "' saved (" ++ toString program.length ++ " bytes)\n"
    return heading ++ writeActions path (HexText.ofBytes program) ++ [.print ending.toList]

/-- The text that a calculation gives: hex text, or the source with a line feed at its end. -/
def calculationText (a : Int) (symbol : String) (b : Int) (hex : Bool) : Except Failure (List Char) := do
  let source ← (Calculation.sourceFor a b symbol.toList).mapError .badCalculation
  if hex then return HexText.ofBytes (← (ByteMachine.assemble source).mapError .badGenerated)
  else return source ++ ['\n']

def planCalculate (a : Int) (symbol : String) (b : Int) (output : Option String) (hex : Bool) :
    Except Failure (List Action) := do
  let text ← calculationText a symbol b hex
  match output with
  | some path => return writeActions path text
  | none => return [.print text]

def planSend (input port : String) (baud : Nat) (hex : Bool) (file : Except FileError ByteArray) :
    Except Failure (List Action) := do
  let program ← programOf (if hex then .hexText else .source) input file
  let size := toString program.length
  let opening := "sending " ++ size ++ " bytes to '" ++ port ++ "' at " ++ toString baud ++ " baud"
  let ending := okMark ++ " program of " ++ size ++ " bytes sent to '" ++ port ++ "'\n"
  return [.note opening, .send port baud program, .print ending.toList]

def planDisassemble (input : String) (source : Bool) (file : Except FileError ByteArray) :
    Except Failure (List Action) := do
  let program ← programOf (if source then .source else .hexText) input file
  let ds ← (ByteMachine.disassemble program).mapError .badProgram
  return [.print (listing ds ++ ['\n'])]

end Command

end ByteMachine
