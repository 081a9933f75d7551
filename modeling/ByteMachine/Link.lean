import ByteMachine.Frame

/-! # Links: a line to the board that may take part of what it is offered, or fail -/
namespace ByteMachine

inductive Reply
  | accept (count : Nat)
  | interrupted
  | failure (text : String)
  deriving DecidableEq

/-- A link by its future and its past: the replies to come, after which it takes everything and every flush succeeds;
the bytes it took, and how often it was written to and flushed. A flush that fails has a text. -/
structure Link where
  writes : List Reply
  flushes : List (Option String)
  accepted : List UInt8
  writeCalls : Nat
  flushCalls : Nat

namespace Link

def ofScript (writes : List Reply) (flushes : List (Option String)) : Link := ⟨writes, flushes, [], 0, 0⟩

/-- The state of a write: what was taken, the number of calls, the replies still to come, and the text of a failure. -/
structure Written where
  taken : List UInt8
  calls : Nat
  script : List Reply
  failure : Option String

/-- Offers all that remains until nothing does. An interrupted write is tried again; a write that takes nothing, or that
fails, ends it. -/
def writeAll (taken : List UInt8) (calls : Nat) : List UInt8 → List Reply → Written
  | [], script => ⟨taken, calls, script, none⟩
  | remaining, [] => ⟨taken ++ remaining, calls + 1, [], none⟩
  | remaining, .interrupted :: script => writeAll taken (calls + 1) remaining script
  | _, .failure text :: script => ⟨taken, calls + 1, script, some text⟩
  | _, .accept 0 :: script => ⟨taken, calls + 1, script, some "failed to write whole buffer"⟩
  | remaining, .accept (n + 1) :: script =>
    writeAll (taken ++ remaining.take (n + 1)) (calls + 1) (remaining.drop (n + 1)) script

def flush (l : Link) : Link × Except String Unit :=
  ({ l with flushes := l.flushes.drop 1, flushCalls := l.flushCalls + 1 },
    match l.flushes.head? with
    | some (some text) => .error text
    | _ => .ok ())

/-- Writes the bytes and, when all are taken, flushes once. -/
def deliver (l : Link) (bytes : List UInt8) : Link × Except String Unit :=
  let w := writeAll [] 0 bytes l.writes
  let l := { l with writes := w.script, accepted := l.accepted ++ w.taken, writeCalls := l.writeCalls + w.calls }
  match w.failure with
  | some text => (l, .error text)
  | none => l.flush

inductive Error
  | frame (e : Frame.Error)
  | io (text : String)
  deriving DecidableEq

def Error.message : Error → String
  | frame e => e.message
  | io text => "Link error: " ++ text

def Error.cause : Error → String
  | frame e => e.message
  | io text => text

def reportText (size : Nat) : String := "sending frame of " ++ toString size ++ " bytes"

structure Sent where
  link : Link
  reports : List Nat
  result : Except Error Unit

/-- Frames a payload and delivers it. Nothing is written if it cannot be framed. -/
def send (l : Link) (payload : List UInt8) : Sent :=
  match Frame.ofPayload payload with
  | .error e => ⟨l, [], .error (.frame e)⟩
  | .ok bytes =>
    let (l, result) := l.deliver bytes
    ⟨l, [bytes.length], result.mapError .io⟩

def sendAll (l : Link) : List (List UInt8) → List Sent
  | [] => []
  | payload :: payloads =>
    let sent := l.send payload
    sent :: sendAll sent.link payloads

end Link

end ByteMachine
