/-! # Opcodes: the eleven operations, their names, codes and operand forms -/
namespace ByteMachine

inductive Alu | add | sub | and | or | xor
  deriving DecidableEq

inductive Opcode | nop | ldi | alu (f : Alu) | ld | st | brz | jmp
  deriving DecidableEq

/-- The operands an instruction takes: none, a register and a value, two registers, a register and a memory
cell, an address, or an address written as a distance. -/
inductive Form | bare | regImm | regReg | regMem | absolute | relative
  deriving DecidableEq

def Alu.name : Alu → List Char
  | .add => "ADD".toList | .sub => "SUB".toList | .and => "AND".toList | .or => "OR".toList | .xor => "XOR".toList

def Form.length : Form → Nat
  | .bare => 1
  | _ => 2

def Form.operands : Form → List Char
  | .bare => []
  | .regImm => "Rn, imm".toList
  | .regReg => "Rd, Rs".toList
  | .regMem => "Rd, [addr]".toList
  | .absolute | .relative => "addr_or_label".toList

namespace Opcode

def all : List Opcode :=
  [nop, ldi, alu .add, alu .sub, alu .and, alu .or, alu .xor, ld, st, brz, jmp]

def name : Opcode → List Char
  | nop => "NOP".toList | ldi => "LDI".toList | alu f => f.name | ld => "LD".toList | st => "ST".toList
  | brz => "BRZ".toList | jmp => "JMP".toList

def code : Opcode → UInt8
  | nop => 0 | ldi => 1
  | alu .add => 2 | alu .sub => 3 | alu .and => 4 | alu .or => 5 | alu .xor => 6
  | ld => 7 | st => 8 | brz => 9 | jmp => 10

def form : Opcode → Form
  | nop => .bare | ldi => .regImm | alu _ => .regReg | ld | st => .regMem | jmp => .absolute | brz => .relative

def length (op : Opcode) : Nat := op.form.length

/-- The code stands in the upper half of the first byte. -/
def header (op : Opcode) : UInt8 := op.code <<< 4

/-- How the instruction is written, with names for its operands. -/
def pattern (op : Opcode) : List Char :=
  match op.form with
  | .bare => op.name
  | form => op.name ++ ' ' :: form.operands

def ofCode? (n : UInt8) : Option Opcode := all.find? (·.code == n)

def codeIn (b : UInt8) : UInt8 := b >>> 4

def ofByte? (b : UInt8) : Option Opcode := ofCode? (codeIn b)

/-- Capital letters for the twenty-six small ones; other characters stay. -/
def upperCase (cs : List Char) : List Char := cs.map Char.toUpper

/-- Names are found in any mix of small and capital letters. -/
def ofName? (cs : List Char) : Option Opcode := all.find? (·.name == upperCase cs)

/-- The bytes taken by an instruction of this name. A name that no opcode has counts as two. -/
def assumedLength (cs : List Char) : Nat := ((ofName? cs).map length).getD 2

theorem ofCode?_code (op : Opcode) : ofCode? op.code = some op := by
  rcases op with _ | _ | f | _ | _ | _ | _ <;> first | rfl | (cases f <;> rfl)

theorem ofByte?_header (op : Opcode) : ofByte? op.header = some op := by
  rcases op with _ | _ | f | _ | _ | _ | _ <;> first | rfl | (cases f <;> rfl)

theorem ofName?_name (op : Opcode) : ofName? op.name = some op := by
  rcases op with _ | _ | f | _ | _ | _ | _ <;> first | rfl | (cases f <;> rfl)

end Opcode

end ByteMachine
