import ByteMachine.Text.Blank
import ByteMachine.Text.Digits
import ByteMachine.Text.Split

/-! # Hex text: a program with one byte on each line -/
namespace ByteMachine.HexText

open Text

/-- Every byte as two digits and a line feed. -/
def ofBytes (program : List UInt8) : List Char := program.flatMap fun b => hexByte b ++ ['\n']

inductive Error
  | malformedLine (number : Nat) (line : List Char)
  deriving DecidableEq

def Error.message : Error → String
  | malformedLine number line =>
    "Malformed hex artifact line " ++ toString number ++ ": '" ++ String.ofList line ++ "', expected two hex digits"

/-- The value of a digit, letters in upper case only. -/
def upperDigit? (c : Char) : Option Nat := if c.isLower then none else digit? 16 c

def byte? : List Char → Option UInt8
  | [high, low] => do
    let h ← upperDigit? high
    let l ← upperDigit? low
    return UInt8.ofNat (16 * h + l)
  | _ => none

def readLine (number : Nat) (line : List Char) : Except Error UInt8 :=
  match byte? line with
  | some b => .ok b
  | none => .error (.malformedLine number line)

/-- Reads the bytes back. Blanks around a line and blank lines do not matter, but lines are counted with them. -/
def toBytes (text : List Char) : Except Error (List UInt8) :=
  let trimmed := (numberedLines text).map fun (line, number) => (trim line, number)
  (trimmed.filter fun (line, _) => !line.isEmpty).mapM fun (line, number) => readLine number line

end ByteMachine.HexText
