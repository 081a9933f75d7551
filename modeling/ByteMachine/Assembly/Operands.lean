import ByteMachine.Assembly.LabelTable
import ByteMachine.Isa.Instruction

/-! # Operands: what the words of an instruction mean -/
namespace ByteMachine

open Text

def registerOf (token : Token) : Except Fault Register :=
  match Register.ofName? token with
  | some r => .ok r
  | none => .error (.unknownRegister token)

/-- The address of a label of exactly this name, else the numeral. -/
def valueOf (labels : LabelTable) (token : Token) : Except Fault UInt8 :=
  match (labels.get? token).or (numeral? token) with
  | some v => .ok v
  | none => .error (.unknownValue token)

def isBracket (c : Char) : Bool := c == '[' || c == ']'

/-- Takes the brackets off a memory operand. They may be left out, but only both, and none may stand inside. -/
def unbracket? (token : Token) : Option Token :=
  let inner? : Option Token :=
    match token.head? == some '[', token.getLast? == some ']' with
    | true, true => some (token.drop 1).dropLast
    | false, false => some token
    | _, _ => none
  inner?.filter fun inner => !inner.isEmpty && !inner.any isBracket

def cellOf (labels : LabelTable) (op : Opcode) (token : Token) : Except Fault UInt8 :=
  match unbracket? token with
  | some inner => valueOf labels inner
  | none => .error (.operandMismatch op)

/-- Reads the operands of `op` from left to right, after their number is found right. -/
def instructionOf (labels : LabelTable) : Opcode → List Token → Except Fault Instruction
  | .nop, [] => .ok .nop
  | .ldi, [rd, v] => return .ldi (← registerOf rd) (← valueOf labels v)
  | .alu f, [rd, rs] => return .alu f (← registerOf rd) (← registerOf rs)
  | .ld, [rd, a] => return .ld (← registerOf rd) (← cellOf labels .ld a)
  | .st, [rd, a] => return .st (← registerOf rd) (← cellOf labels .st a)
  | .jmp, [t] => return .jmp (← valueOf labels t)
  | .brz, [t] => return .brz (← valueOf labels t)
  | op, _ => .error (.operandMismatch op)

def readInstruction (labels : LabelTable) (mnemonic : Token) (operands : List Token) : Except Fault Instruction :=
  match Opcode.ofName? mnemonic with
  | some op => instructionOf labels op operands
  | none => .error (.unknownInstruction (Opcode.upperCase mnemonic))

def encode (labels : LabelTable) (pc : Nat) (mnemonic : Token) (operands : List Token) : Except Fault (List UInt8) :=
  (readInstruction labels mnemonic operands).map (Instruction.encode pc)

end ByteMachine
