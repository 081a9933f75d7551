import ByteMachine.Isa.Instruction
import ByteMachine.Text.Split

/-! # Disassembly: from bytes back to instructions, and the listing of a program -/
namespace ByteMachine

open Text

structure Decoded where
  address : Nat
  raw : List UInt8
  instruction : Instruction
  deriving DecidableEq

inductive DecodeError
  | invalidOpcode (address : Nat) (byte : UInt8)
  | truncated (address : Nat)
  deriving DecidableEq

def DecodeError.message : DecodeError → String
  | invalidOpcode address byte =>
    String.ofList ("Invalid opcode at ".toList ++ hexNumber address ++ ": ".toList ++ hexNumber byte.toNat)
  | truncated address =>
    String.ofList ("Unexpectedly encountered end of stream in the instruction at ".toList ++ hexNumber address)

/-- Takes the instruction at `address` off a stream of bytes, and gives back the rest. An error takes the bytes that
were looked at. -/
def decodeNext (address : Nat) : List UInt8 → Except DecodeError (Option Decoded) × List UInt8
  | [] => (.ok none, [])
  | b₀ :: rest =>
    match Opcode.ofByte? b₀, rest with
    | none, _ => (.error (.invalidOpcode address b₀), rest)
    | some .nop, _ => (.ok (some ⟨address, [b₀], .nop⟩), rest)
    | some _, [] => (.error (.truncated address), [])
    | some op, b₁ :: rest => (.ok (some ⟨address, [b₀, b₁], .decode address op b₀ b₁⟩), rest)

theorem length_decodeNext {address : Nat} {bytes rest : List UInt8} {d : Decoded}
    (h : decodeNext address bytes = (.ok (some d), rest)) : bytes.length = d.raw.length + rest.length := by
  unfold decodeNext at h
  split at h
  · simp at h
  · split at h <;> simp at h <;> obtain ⟨rfl, rfl⟩ := h <;> simp <;> omega

theorem raw_ne_nil_of_decodeNext {address : Nat} {bytes rest : List UInt8} {d : Decoded}
    (h : decodeNext address bytes = (.ok (some d), rest)) : d.raw ≠ [] := by
  unfold decodeNext at h
  split at h
  · simp at h
  · split at h <;> simp at h <;> obtain ⟨rfl, -⟩ := h <;> simp

theorem length_rest_lt {address : Nat} {bytes rest : List UInt8} {d : Decoded}
    (h : decodeNext address bytes = (.ok (some d), rest)) : rest.length < bytes.length := by
  have := length_decodeNext h
  have := List.length_pos_iff.mpr (raw_ne_nil_of_decodeNext h)
  omega

/-- Behind `found`, the instructions from `address` on, each at the end of the one before it. -/
def disassembleFrom (found : Array Decoded) (address : Nat) (bytes : List UInt8) :
    Except DecodeError (List Decoded) :=
  match _h : decodeNext address bytes with
  | (.error e, _) => .error e
  | (.ok none, _) => .ok found.toList
  | (.ok (some d), rest) => disassembleFrom (found.push d) (address + d.raw.length) rest
termination_by bytes.length
decreasing_by exact length_rest_lt _h

def disassemble (program : List UInt8) : Except DecodeError (List Decoded) := disassembleFrom #[] 0 program

/-- Decodes once at each address from one stream, going on behind errors. With each answer comes the number of bytes
left. -/
def decodeAt : List Nat → List UInt8 → List (Except DecodeError (Option Decoded) × Nat)
  | [], _ => []
  | address :: addresses, bytes =>
    let (answer, rest) := decodeNext address bytes
    (answer, rest.length) :: decodeAt addresses rest

/-- Decodes from `address` to the end of the stream or to the first error, in address words of 64 bits. With each answer
comes the number of bytes left. -/
def decodeFrom (address : Nat) (bytes : List UInt8) : List (Except DecodeError Decoded × Nat) :=
  match _h : decodeNext address bytes with
  | (.error e, rest) => [(.error e, rest.length)]
  | (.ok none, _) => []
  | (.ok (some d), rest) => (.ok d, rest.length) :: decodeFrom (Address.advance address d.raw.length) rest
termination_by bytes.length
decreasing_by exact length_rest_lt _h

namespace Decoded

def rawText (d : Decoded) : List Char := [' '].intercalate (d.raw.map hexByte)

/-- Address, bytes in a column of six characters, and the instruction as source. -/
def line (d : Decoded) : List Char :=
  hexNumber d.address ++ ":  ".toList ++ d.rawText.rightpad 6 ' ' ++ ' ' :: d.instruction.text

end Decoded

def listing (ds : List Decoded) : List Char := unlines (ds.map Decoded.line)

def reassembly (ds : List Decoded) : List Char := unlines (ds.map (·.instruction.text))

end ByteMachine
