/-! # Frames: two marker bytes, the length of the payload with its high byte first, and the payload

`receive?` is the other end: it needs nothing but the stream to tell where a frame ends. -/
namespace ByteMachine.Frame

def sync : List UInt8 := [0x55, 0xAA]

def headerLength : Nat := sync.length + 2

/-- The longest payload whose length fits in two bytes. -/
def maxLength : Nat := 0xFFFF

inductive Error
  | emptyProgram
  | tooLarge (size : Nat)
  deriving DecidableEq

def Error.message : Error → String
  | emptyProgram => "Program is empty"
  | tooLarge size =>
    "Program of " ++ toString size ++ " bytes does not fit in a frame (at most " ++ toString maxLength ++ " bytes)"

def lengthBytes (n : Nat) : List UInt8 := [UInt8.ofNat (n / 256), UInt8.ofNat n]

def lengthOf (high low : UInt8) : Nat := 256 * high.toNat + low.toNat

def ofPayload (payload : List UInt8) : Except Error (List UInt8) :=
  if payload.isEmpty then .error .emptyProgram
  else if maxLength < payload.length then .error (.tooLarge payload.length)
  else .ok (sync ++ lengthBytes payload.length ++ payload)

/-- Takes one frame off a stream: its payload, and the stream behind it. -/
def receive? : List UInt8 → Option (List UInt8 × List UInt8)
  | s₀ :: s₁ :: high :: low :: stream =>
    if [s₀, s₁] = sync ∧ lengthOf high low ≤ stream.length then
      some (stream.take (lengthOf high low), stream.drop (lengthOf high low))
    else none
  | _ => none

theorem length_of_receive? {stream payload rest : List UInt8} (h : receive? stream = some (payload, rest)) :
    rest.length < stream.length := by
  unfold receive? at h
  split at h
  · split at h
    · cases h
      simp only [List.length_drop, List.length_cons]
      omega
    · cases h
  · cases h

/-- All frames of a stream in order, and what is left when no frame follows. -/
def receiveAll (stream : List UInt8) : List (List UInt8) × List UInt8 :=
  match _h : receive? stream with
  | none => ([], stream)
  | some (payload, rest) =>
    let (payloads, left) := receiveAll rest
    (payload :: payloads, left)
termination_by stream.length
decreasing_by exact length_of_receive? _h

end ByteMachine.Frame
