import ByteMachine.Isa.Register

/-! # The machine: registers, data memory, zero flag and program counter

The program stands in a memory of its own that it cannot change. The machine knows instructions by their bytes alone. It
idles at a jump to itself. -/
namespace ByteMachine

structure Machine where
  registers : Register → UInt8
  memory : UInt8 → UInt8
  zero : Bool
  pc : UInt8

namespace Machine

/-- The program byte at an address; there are zeros behind the end. -/
def fetch (program : List UInt8) (address : UInt8) : UInt8 := program.getD address.toNat 0

def setRegister (m : Machine) (r : Register) (v : UInt8) : Machine :=
  { m with registers := fun q => if q = r then v else m.registers q }

def setMemory (m : Machine) (a v : UInt8) : Machine :=
  { m with memory := fun c => if c = a then v else m.memory c }

/-- Arithmetic on two registers. Nothing else writes the zero flag. -/
def compute (m : Machine) (f : UInt8 → UInt8 → UInt8) (rd rs : Register) : Machine :=
  let v := f (m.registers rd) (m.registers rs)
  { m.setRegister rd v with zero := v == 0 }

/-- One instruction. A byte that starts none stops the machine. -/
def step? (program : List UInt8) (m : Machine) : Option Machine :=
  let b₀ := fetch program m.pc
  let b₁ := fetch program (m.pc + 1)
  let rd := Register.ofBits ((b₀ >>> 1) &&& 7)
  let rs := Register.ofBits (b₁ &&& 7)
  let next := m.pc + 2
  match b₀ >>> 4 with
  | 0x0 => some { m with pc := m.pc + 1 }
  | 0x1 => some { m.setRegister rd b₁ with pc := next }
  | 0x2 => some { m.compute (· + ·) rd rs with pc := next }
  | 0x3 => some { m.compute (· - ·) rd rs with pc := next }
  | 0x4 => some { m.compute (· &&& ·) rd rs with pc := next }
  | 0x5 => some { m.compute (· ||| ·) rd rs with pc := next }
  | 0x6 => some { m.compute (· ^^^ ·) rd rs with pc := next }
  | 0x7 => some { m.setRegister rd (m.memory b₁) with pc := next }
  | 0x8 => some { m.setMemory b₁ (m.registers rd) with pc := next }
  | 0x9 => some { m with pc := if m.zero then next + b₁ else next }
  | 0xA => some { m with pc := b₁ }
  | _ => none

/-- A jump to itself: the machine stays where it is for good. -/
def Idle (program : List UInt8) (m : Machine) : Prop :=
  fetch program m.pc >>> 4 = 0xA ∧ fetch program (m.pc + 1) = m.pc

instance (program : List UInt8) (m : Machine) : Decidable (m.Idle program) :=
  inferInstanceAs (Decidable (_ ∧ _))

def run? (program : List UInt8) : Nat → Machine → Option Machine
  | 0, m => some m
  | n + 1, m => (m.step? program).bind (run? program n)

end Machine

end ByteMachine
