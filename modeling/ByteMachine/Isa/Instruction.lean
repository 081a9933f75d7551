import ByteMachine.Isa.Address
import ByteMachine.Isa.Opcode
import ByteMachine.Isa.Register
import ByteMachine.Text.Digits

/-! # Instructions: operation and operands, as text and as bytes -/
namespace ByteMachine

open Text

inductive Operand
  | reg (r : Register)
  | imm (value : UInt8)
  | mem (address : UInt8)
  | addr (address : UInt8)
  deriving DecidableEq

def Operand.text : Operand → List Char
  | .reg r => r.name
  | .imm b | .addr b => hexNumber b.toNat
  | .mem b => '[' :: hexNumber b.toNat ++ [']']

/-- An instruction with its operands known. A branch holds where it goes, not how far. -/
inductive Instruction
  | nop
  | ldi (rd : Register) (value : UInt8)
  | alu (f : Alu) (rd rs : Register)
  | ld (rd : Register) (address : UInt8)
  | st (rd : Register) (address : UInt8)
  | brz (target : UInt8)
  | jmp (target : UInt8)
  deriving DecidableEq

namespace Instruction

def opcode : Instruction → Opcode
  | nop => .nop
  | ldi .. => .ldi
  | alu f .. => .alu f
  | ld .. => .ld
  | st .. => .st
  | brz .. => .brz
  | jmp .. => .jmp

def operands : Instruction → List Operand
  | nop => []
  | ldi rd v => [.reg rd, .imm v]
  | alu _ rd rs => [.reg rd, .reg rs]
  | ld rd a | st rd a => [.reg rd, .mem a]
  | brz t | jmp t => [.addr t]

/-- The instruction as a line of source. -/
def text (i : Instruction) : List Char :=
  match i.operands with
  | [] => i.opcode.name
  | os => i.opcode.name ++ ' ' :: (", ".toList).intercalate (os.map Operand.text)

/-- The bytes of the instruction when it stands at `pc`. -/
def encode (pc : Nat) (i : Instruction) : List UInt8 :=
  match i with
  | nop => [i.opcode.header]
  | ldi rd v => [i.opcode.header ||| rd.toDst, v]
  | alu _ rd rs => [i.opcode.header ||| rd.toDst, rs.toSrc]
  | ld rd a | st rd a => [i.opcode.header ||| rd.toDst, a]
  | jmp t => [i.opcode.header, t]
  | brz t => [i.opcode.header, Address.displacement pc t]

/-- The instruction at `pc` with this opcode and these bytes; bits that its form does not use may be anything. -/
def decode (pc : Nat) (op : Opcode) (b₀ b₁ : UInt8) : Instruction :=
  match op with
  | .nop => nop
  | .ldi => ldi (.ofDst b₀) b₁
  | .alu f => alu f (.ofDst b₀) (.ofSrc b₁)
  | .ld => ld (.ofDst b₀) b₁
  | .st => st (.ofDst b₀) b₁
  | .jmp => jmp b₁
  | .brz => brz (Address.branchTarget pc b₁)

theorem length_encode (pc : Nat) (i : Instruction) : (i.encode pc).length = i.opcode.length := by
  cases i <;> rfl

theorem opcode_decode (pc : Nat) (op : Opcode) (b₀ b₁ : UInt8) : (decode pc op b₀ b₁).opcode = op := by
  cases op <;> rfl

end Instruction

end ByteMachine
