/-! # The eight registers, their names and their places in an instruction -/
namespace ByteMachine

abbrev Register := Fin 8

namespace Register

def r0 : Register := ⟨0, by decide⟩

def r1 : Register := ⟨1, by decide⟩

def r2 : Register := ⟨2, by decide⟩

def r3 : Register := ⟨3, by decide⟩

def index (r : Register) : UInt8 := UInt8.ofNat r.val

def name (r : Register) : List Char := ['R', Nat.digitChar r.val]

/-- A register number has three bits. -/
def mask : UInt8 := 7

/-- The place of the first register, above the lowest bit of the first byte. -/
def toDst (r : Register) : UInt8 := r.index <<< 1

/-- The place of the second register, at the end of the second byte. -/
def toSrc (r : Register) : UInt8 := r.index &&& mask

def dstIndex (b : UInt8) : UInt8 := (b >>> 1) &&& mask

def srcIndex (b : UInt8) : UInt8 := b &&& mask

/-- The register whose number is in the last three bits. -/
def ofBits (b : UInt8) : Register := Fin.ofNat 8 b.toNat

def ofDst (b : UInt8) : Register := ofBits (dstIndex b)

def ofSrc (b : UInt8) : Register := ofBits (srcIndex b)

def ofIndex? (b : UInt8) : Option Register :=
  if h : b.toNat < 8 then some ⟨b.toNat, h⟩ else none

/-- A register is written as a letter R of either case and its number. -/
def ofName? : List Char → Option Register
  | [letter, digit] =>
    if letter == 'R' || letter == 'r' then (List.finRange 8).find? (fun r => Nat.digitChar r.val == digit) else none
  | _ => none

def all : List Register := List.finRange 8

theorem ofName?_name (r : Register) : ofName? r.name = some r := by
  revert r; decide

theorem ofSrc_toSrc (r : Register) : ofSrc r.toSrc = r := by
  revert r; decide

end Register

end ByteMachine
