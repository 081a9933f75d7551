import ByteMachine.Source.Statement
import ByteMachine.Text.Digits
import ByteMachine.Isa.Instruction

/-! # Calculations: a program for `a op b`

The program leaves the result in register R0 and in the memory cell `resultAddress`, then jumps to itself for good. For a
product it adds `a` as often as a counter that starts at `b` can be lowered before it is zero; the first round comes before
the first test, so a counter of zero goes through 256 rounds and adds up to zero. -/
namespace ByteMachine

open Text

def resultAddress : UInt8 := 0xF0

inductive Operator | alu (f : Alu) | mul
  deriving DecidableEq

namespace Operator

def all : List Operator := [alu .add, alu .sub, alu .and, alu .or, alu .xor, mul]

def symbol : Operator → List Char
  | alu .add => ['+'] | alu .sub => ['-'] | alu .and => ['&'] | alu .or => ['|'] | alu .xor => ['^'] | mul => ['*']

def ofSymbol? (cs : List Char) : Option Operator := all.find? (·.symbol == cs)

/-- The instruction that does it in one step. -/
def opcode? : Operator → Option Opcode
  | alu f => some (.alu f)
  | mul => none

/-- Bytes wrap around. -/
def apply : Operator → UInt8 → UInt8 → UInt8
  | alu .add, a, b => a + b
  | alu .sub, a, b => a - b
  | alu .and, a, b => a &&& b
  | alu .or, a, b => a ||| b
  | alu .xor, a, b => a ^^^ b
  | mul, a, b => a * b

end Operator

namespace Calculation

def loadStatement (rd : Register) (value : Int) : Statement :=
  .instruction Opcode.ldi.name [rd.name, decimal value]

def aluStatement (f : Alu) (rd rs : Register) : Statement := .instruction f.name [rd.name, rs.name]

def idleLabel : Token := "loop".toList

def loopLabel : Token := "loop_mul".toList

def endLabel : Token := "end_mul".toList

/-- Puts the result into R0. -/
def body (a b : Int) : Operator → List Statement
  | .alu f => [loadStatement .r0 a, loadStatement .r1 b, aluStatement f .r0 .r1]
  | .mul =>
    [loadStatement .r0 0, loadStatement .r1 a, loadStatement .r2 b, loadStatement .r3 1,
      .label loopLabel, aluStatement .add .r0 .r1, aluStatement .sub .r2 .r3,
      .instruction Opcode.brz.name [endLabel], .instruction Opcode.jmp.name [loopLabel],
      .label endLabel]

/-- Stores the result and idles. -/
def ending : List Statement :=
  [.instruction Opcode.st.name [Register.r0.name, (Operand.mem resultAddress).text],
    .label idleLabel, .instruction Opcode.jmp.name [idleLabel]]

def statements (a b : Int) (op : Operator) : List Statement := body a b op ++ ending

/-- The program as a source, without a line feed at its end. -/
def source (a b : Int) (op : Operator) : List Char := sourceOf (statements a b op)

inductive Error
  | unsupported (symbol : List Char)
  deriving DecidableEq

def Error.message : Error → String
  | unsupported symbol =>
    String.ofList ("Unsupported operation '".toList ++ symbol ++ "', supported operations: ".toList ++
      (", ".toList).intercalate (Operator.all.map Operator.symbol))

/-- The source for an operator given by its symbol, blanks around it aside. -/
def sourceFor (a b : Int) (symbol : List Char) : Except Error (List Char) :=
  match Operator.ofSymbol? (trim symbol) with
  | some op => .ok (source a b op)
  | none => .error (.unsupported (trim symbol))

end Calculation

end ByteMachine
