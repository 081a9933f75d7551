import ByteMachine.Shell.Host

/-! # The command line -/
namespace ByteMachine

/-- An error of the operating system, known by its number. -/
def FileError.ofSystem (e : IO.Error) : FileError :=
  match e with
  | .noFileOrDirectory .. => .notFound
  | .inappropriateType _ code _ => if code == 20 then .notDirectory else .isDirectory
  | .invalidArgument _ code _ => if code == 36 then .nameTooLong else .other (toString e)
  | _ => .other (toString e)

def attempt {α : Type} (path : String) (action : IO α) : IO (Except FileError α) := do
  if Path.holdsNul path then return .error .nulInName
  try return .ok (← action) catch e => return .error (.ofSystem e)

def portText : IO.Error → String
  | .noFileOrDirectory .. => "No such file or directory"
  | e => toString e

/-- Notes are not shown, and a port keeps the speed it is set to. -/
instance : Host IO where
  Handle := IO.FS.Handle
  read path := attempt path (IO.FS.withFile path .read fun file => file.readBinToEnd)
  write path content := attempt path (IO.FS.writeBinFile path content)
  print text := IO.print text
  note _ := pure ()
  connect port _ := do
    try
      let handle ← IO.FS.Handle.mk port .readWrite
      return if ← handle.isTty then .ok handle else .error "Not a typewriter"
    catch e => return .error (portText e)
  transmit handle bytes := do
    try
      handle.write ⟨bytes.toArray⟩
      handle.flush
      return .ok ()
    catch e => return .error (toString e)

end ByteMachine

def main (args : List String) : IO UInt32 := do
  let ending ← ByteMachine.invoke .suite args
  IO.eprint ending.complaint
  return ending.exitCode
