/-! # Digits: numbers written and read in bases ten and sixteen -/
namespace ByteMachine.Text

def hexDigit (n : Nat) : Char := (Nat.digitChar n).toUpper

def hexByte (b : UInt8) : List Char := [hexDigit (b.toNat / 16), hexDigit (b.toNat % 16)]

/-- A number behind `0x`, in at least two digits. -/
def hexNumber (n : Nat) : List Char :=
  '0' :: 'x' :: ((Nat.toDigits 16 n).map Char.toUpper).leftpad 2 '0'

def decimal : Int → List Char
  | .ofNat n => Nat.toDigits 10 n
  | .negSucc n => '-' :: Nat.toDigits 10 (n + 1)

def digitValue? (c : Char) : Option Nat :=
  if '0' ≤ c ∧ c ≤ '9' then some (c.toNat - '0'.toNat)
  else if 'A' ≤ c ∧ c ≤ 'F' then some (c.toNat - 'A'.toNat + 10)
  else if 'a' ≤ c ∧ c ≤ 'f' then some (c.toNat - 'a'.toNat + 10)
  else none

def digit? (radix : Nat) (c : Char) : Option Nat := (digitValue? c).filter (· < radix)

/-- The digits of a number read modulo 256, so that any length will do. -/
def residue? (radix : Nat) (ds : List Char) : Option UInt8 :=
  if ds.isEmpty then none
  else ds.foldlM (fun acc c => (digit? radix c).map fun d => acc * UInt8.ofNat radix + UInt8.ofNat d) 0

/-- A numeral modulo 256: hexadecimal behind `0x` or `0X`, else decimal with an optional sign. A negative
numeral counts down from 256. -/
def numeral? : List Char → Option UInt8
  | '0' :: 'x' :: ds => residue? 16 ds
  | '0' :: 'X' :: ds => residue? 16 ds
  | '-' :: ds => (residue? 10 ds).map (0 - ·)
  | '+' :: ds => residue? 10 ds
  | ds => residue? 10 ds

def natural? (ds : List Char) : Option Nat :=
  if ds.isEmpty then none else ds.foldlM (fun acc c => (digit? 10 c).map (acc * 10 + ·)) 0

def unsigned? : List Char → Option Nat
  | '+' :: ds => natural? ds
  | ds => natural? ds

def signed? : List Char → Option Int
  | '-' :: ds => (natural? ds).map fun n => -(n : Int)
  | ds => (unsigned? ds).map Int.ofNat

end ByteMachine.Text
