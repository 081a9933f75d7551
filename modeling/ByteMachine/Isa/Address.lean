/-! # Addresses: what fits in a byte, and how far a branch goes -/
namespace ByteMachine.Address

/-- An address as an operand byte. -/
def wrap (n : Nat) : UInt8 := UInt8.ofNat n

/-- The byte a branch at `pc` carries to reach `target`, counted from the end of the branch. -/
def displacement (pc : Nat) (target : UInt8) : UInt8 := target - wrap pc - 2

def branchTarget (pc : Nat) (offset : UInt8) : UInt8 := wrap pc + 2 + offset

def wordSize : Nat := 0x10000000000000000

/-- The address `n` bytes further on, in words of 64 bits. -/
def advance (pc n : Nat) : Nat := (pc + n) % wordSize

theorem wrap_add (n k : Nat) : wrap (n + k) = wrap n + wrap k := UInt8.ofNat_add n k

theorem branchTarget_displacement (pc : Nat) (target : UInt8) :
    branchTarget pc (displacement pc target) = target := by
  simp only [branchTarget, displacement]
  grind

theorem displacement_branchTarget (pc : Nat) (offset : UInt8) :
    displacement pc (branchTarget pc offset) = offset := by
  simp only [branchTarget, displacement]
  grind

end ByteMachine.Address
