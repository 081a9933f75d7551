import ByteMachine.Isa.Opcode

/-! # What can be wrong with a source, where, and how it is said -/
namespace ByteMachine

/-- A place in a source, line and column counted from one. -/
structure Position where
  line : Nat
  column : Nat
  deriving DecidableEq

def Position.text (p : Position) : String :=
  "(line: " ++ toString p.line ++ ", col: " ++ toString p.column ++ ")"

/-- A source is first read, then its labels are placed, then its instructions are encoded. -/
inductive Stage | reading | labelling | encoding
  deriving DecidableEq

def Stage.text : Stage → String
  | .reading => "Tokenizer"
  | .labelling => "Resolver"
  | .encoding => "Generator"

inductive Fault
  | malformedLabel (name : List Char)
  | duplicateLabel (name : List Char)
  | unknownInstruction (name : List Char)
  | unknownRegister (token : List Char)
  | operandMismatch (op : Opcode)
  | unknownValue (token : List Char)
  | lengthMismatch (mnemonic : List Char) (assumed emitted : Nat)
  deriving DecidableEq

def Fault.stage : Fault → Stage
  | malformedLabel _ => .reading
  | duplicateLabel _ => .labelling
  | _ => .encoding

def Fault.text : Fault → String
  | malformedLabel name =>
    "Malformed label definition '" ++ String.ofList name ++ ":': label names must be identifiers"
  | duplicateLabel name => "Duplicate label: '" ++ String.ofList name ++ "'"
  | unknownInstruction name => "Unknown instruction: '" ++ String.ofList name ++ "'"
  | unknownRegister token => "Unknown register: '" ++ String.ofList token ++ "'"
  | operandMismatch op => "Syntax error, expected: " ++ String.ofList op.pattern
  | unknownValue token =>
    "Could not parse '" ++ String.ofList token ++ "': not a label, hex literal or decimal literal"
  | lengthMismatch mnemonic assumed emitted =>
    "Instruction '" ++ String.ofList mnemonic ++ "' was assumed to take " ++ toString assumed ++
      " bytes but encoded to " ++ toString emitted

/-- A fault with its place. A line that is encoded on its own has none. -/
structure SourceError where
  position : Option Position
  fault : Fault
  deriving DecidableEq

namespace SourceError

/-- The place, then the fault. -/
def locatedText (e : SourceError) : String :=
  match e.position with
  | some p => "@" ++ p.text ++ ": " ++ e.fault.text
  | none => "@<unknown location>: " ++ e.fault.text

def message (e : SourceError) : String :=
  "Assembly Error (in " ++ e.fault.stage.text ++ "): " ++ e.locatedText

end SourceError

end ByteMachine
