import ByteMachine.Shell.Arguments
import ByteMachine.Text.Digits

/-! # Commands: what the two tools can be asked to do -/
namespace ByteMachine

open Text

inductive Command
  /-- Assemble a file; print the bytes or write them to a file; print the labels too. -/
  | assemble (input : String) (output : Option String) (print labels : Bool)
  /-- Make the source, or the bytes, of a program for `a op b`; print or write it. -/
  | calculate (a : Int) (symbol : String) (b : Int) (output : Option String) (hex : Bool)
  /-- Send the program in a file through a serial port. -/
  | send (input port : String) (baud : Nat) (hex : Bool)
  /-- List the instructions of the program in a file. -/
  | disassemble (input : String) (source : Bool)

/-- The suite has all commands under their names; the assembler is the first of them alone. -/
inductive Tool | suite | assembler
  deriving DecidableEq

def versionText (title : String) : String := title ++ " 0.1.0\n"

namespace Command

def assembleSignature (title : String) : Signature where
  title := title
  switches := [{ long := "print", short := some 'p' }, { long := "labels", short := some 'l' }]
  maxOperands := 2

def calculateSignature (title : String) : Signature where
  title := title
  switches := [{ long := "out", short := some 'o', takesValue := true }, { long := "hex" }]
  maxOperands := 3
  negativeNumbers := true

def sendSignature (title : String) : Signature where
  title := title
  switches :=
    [{ long := "port", short := some 'p', takesValue := true, fallback := some "/dev/ttyUSB0" },
      { long := "baud", short := some 'b', takesValue := true, fallback := some "115200" }, { long := "hex" }]
  maxOperands := 1

def disassembleSignature (title : String) : Signature where
  title := title
  switches := [{ long := "source" }]
  maxOperands := 1

/-- An integer of 64 bits. -/
def word? (text : String) : Option Int :=
  (signed? text.toList).filter fun n => -0x8000000000000000 ≤ n && n < 0x8000000000000000

/-- A natural number of 32 bits. -/
def baud? (text : String) : Option Nat := (unsigned? text.toList).filter (· < 0x100000000)

def parseAssemble (title : String) (args : List String) : Except Stop Command := do
  let args ← Arguments.parse (assembleSignature title) args
  match args.operands with
  | [input] => return .assemble input none (args.flag "print") (args.flag "labels")
  | [input, output] => return .assemble input (some output) (args.flag "print") (args.flag "labels")
  | _ => .error .usage

def parseCalculate (title : String) (args : List String) : Except Stop Command := do
  let sig := calculateSignature title
  let args ← Arguments.parse sig args
  match args.operands with
  | [a, symbol, b] =>
    match word? a, word? b with
    | some a, some b => return .calculate a symbol b (args.value? sig "out") (args.flag "hex")
    | _, _ => .error .usage
  | _ => .error .usage

def parseSend (title : String) (args : List String) : Except Stop Command := do
  let sig := sendSignature title
  let args ← Arguments.parse sig args
  match args.operands, args.value? sig "port", (args.value? sig "baud").bind baud? with
  | [input], some port, some baud => return .send input port baud (args.flag "hex")
  | _, _, _ => .error .usage

def parseDisassemble (title : String) (args : List String) : Except Stop Command := do
  let args ← Arguments.parse (disassembleSignature title) args
  match args.operands with
  | [input] => return .disassemble input (args.flag "source")
  | _ => .error .usage

/-- Reads the arguments behind the name of a tool. -/
def parse : Tool → List String → Except Stop Command
  | .assembler, args => parseAssemble "c8asm" args
  | .suite, "asm" :: args => parseAssemble "cpu8-asm" args
  | .suite, "calc" :: args => parseCalculate "cpu8-calc" args
  | .suite, "send" :: args => parseSend "cpu8-send" args
  | .suite, "disasm" :: args => parseDisassemble "cpu8-disasm" args
  | .suite, args => do
    let _ ← Arguments.parse { title := "cpu8" } args
    .error .usage

end Command

end ByteMachine
