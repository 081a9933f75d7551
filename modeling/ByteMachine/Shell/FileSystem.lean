import ByteMachine.Shell.Path

/-! # File systems: a tree of named places

A place is a row of names from the root down. At a place stands a file, a directory or a device. A directory is there if
it has an entry or if an entry stands below it, and the root is always there. A path is followed from the root, or through
the working directory. What stands at its end can be read or written unless the system refuses. -/
namespace ByteMachine

inductive FileError
  | notFound
  | notDirectory
  | isDirectory
  | nameTooLong
  | nulInName
  | notText
  /-- Any other, in the words of the operating system. -/
  | other (text : String)
  deriving DecidableEq

def FileError.message : FileError → String
  | notFound => "No such file or directory (os error 2)"
  | notDirectory => "Not a directory (os error 20)"
  | isDirectory => "Is a directory (os error 21)"
  | nameTooLong => "File name too long (os error 36)"
  | nulInName => "file name contained an unexpected NUL byte"
  | notText => "stream did not contain valid UTF-8"
  | other text => text

/-- The text of a file, if it is UTF-8. -/
def decodeText (content : ByteArray) : Except FileError String :=
  match String.fromUTF8? content with
  | some text => .ok text
  | none => .error .notText

abbrev Place := List String

/-- The number under which the system knows a port. -/
abbrev Port := Nat

inductive Node
  | file (content : ByteArray)
  | directory
  | device (port : Port)

/-- What is asked of a place: to give its content, or to take a new one. -/
inductive Access
  | read
  | write (content : ByteArray)

structure FileSystem where
  entries : List (Place × Node)
  /-- Why a place is not read or written, if it is not: a missing right, a disk that is bad or full. -/
  refusal : Place → Access → Option FileError := fun _ _ => none

namespace FileSystem

def node? (fs : FileSystem) (place : Place) : Option Node :=
  match fs.entries.find? (·.1 == place) with
  | some (_, node) => some node
  | none => if place.isEmpty || fs.entries.any (place.isPrefixOf ·.1) then some .directory else none

/-- What a path leads to: a directory, a file, a device, or a place in a directory where nothing stands. -/
inductive Target
  | directory
  | file (place : Place) (content : ByteArray)
  | device (place : Place) (port : Port)
  | vacant (place : Place)

/-- Follows names from a directory. Each name but the last has to be that of a directory. Above the root is the root. -/
def walk (fs : FileSystem) : Place → List String → Except FileError Target
  | _, [] => .ok .directory
  | here, name :: rest =>
    if name == "." then walk fs here rest
    else if name == ".." then walk fs here.dropLast rest
    else if Path.maxNameSize < name.utf8ByteSize then .error .nameTooLong
    else
      let next := here ++ [name]
      match fs.node? next, rest with
      | some .directory, _ => walk fs next rest
      | some (.file content), [] => .ok (.file next content)
      | some (.device port), [] => .ok (.device next port)
      | some _, _ :: _ => .error .notDirectory
      | none, [] => .ok (.vacant next)
      | none, _ :: _ => .error .notFound

def locate (fs : FileSystem) (home : Place) (path : String) : Except FileError Target :=
  if Path.holdsNul path then .error .nulInName
  else if path.isEmpty then .error .notFound
  else if Path.maxSize < path.utf8ByteSize then .error .nameTooLong
  else walk fs [] ((if Path.isAbsolute path then [] else home) ++ Path.components path)

def permit {α : Type} (fs : FileSystem) (place : Place) (access : Access) (a : α) : Except FileError α :=
  match fs.refusal place access with
  | some e => .error e
  | none => .ok a

/-- Only a directory may have a slash behind its name, and a directory cannot be read. Nothing comes from a device. -/
def read (fs : FileSystem) (home : Place) (path : String) : Except FileError ByteArray :=
  match fs.locate home path with
  | .ok .directory => .error .isDirectory
  | .ok (.file place content) => if Path.endsInSlash path then .error .notDirectory else fs.permit place .read content
  | .ok (.device place _) => if Path.endsInSlash path then .error .notDirectory else fs.permit place .read .empty
  | .ok (.vacant _) => .error .notFound
  | .error e => .error e

/-- Where that which is written goes: to a file, which is made if it is not there, or out through a port. -/
inductive Sink
  | file (place : Place)
  | port (port : Port)

def sink (fs : FileSystem) (home : Place) (path : String) (content : ByteArray) : Except FileError Sink :=
  match fs.locate home path with
  | .ok .directory => .error .isDirectory
  | .ok (.file place _) | .ok (.vacant place) =>
    if Path.endsInSlash path then .error .isDirectory else fs.permit place (.write content) (.file place)
  | .ok (.device place port) =>
    if Path.endsInSlash path then .error .isDirectory else fs.permit place (.write content) (.port port)
  | .error e => .error e

def put (fs : FileSystem) (place : Place) (content : ByteArray) : FileSystem :=
  { fs with entries := (place, .file content) :: fs.entries.filter (·.1 != place) }

/-- The file system with these entries, given by their paths from the root. -/
def ofList (entries : List (String × Node)) : FileSystem :=
  { entries := entries.map fun (path, node) => (Path.components path, node) }

end FileSystem

end ByteMachine
