import ByteMachine.Text.Split

/-! # Paths: names of files, parted by slashes -/
namespace ByteMachine.Path

open Text

def components (path : String) : List String := (words (· == '/') path.toList).map String.ofList

def endsInSlash (path : String) : Bool := path.toList.getLast? == some '/'

def isAbsolute (path : String) : Bool := path.toList.head? == some '/'

/-- Drops slashes and single dots behind the last name, from a path that is written backwards. -/
def dropTail : List Char → List Char
  | '/' :: cs => dropTail cs
  | '.' :: '/' :: cs => dropTail cs
  | cs => cs

/-- A file name without its last dot and what follows it, backwards. A dot in front does not count. -/
def stem (name : List Char) : List Char :=
  let before := (name.dropWhile (· != '.')).drop 1
  if before.isEmpty then name else before

def isFileName (name : List Char) : Bool := !(name.isEmpty || name == ['.'] || name == ['.', '.'])

/-- A file name without what follows its last dot, backwards. The dot stays, and one in front does not count. -/
def clipped (name : List Char) : List Char :=
  let rest := name.dropWhile (· != '.')
  if (rest.drop 1).isEmpty then name else rest

/-- Replaces the extension of the last name, or adds one. The old one goes first: where this leaves no name of a file, as
with `..s`, none is added. -/
def withExtension (path extension : String) : String :=
  let backwards := dropTail path.toList.reverse
  let name := backwards.takeWhile (· != '/')
  let parent := backwards.drop name.length
  if !isFileName name then path
  else if !isFileName (clipped name) then String.ofList (clipped name ++ parent).reverse
  else String.ofList ((stem name ++ parent).reverse ++ '.' :: extension.toList)

/-- A zero character ends a name for the operating system, so it cannot be part of one. -/
def holdsNul (path : String) : Bool := path.toList.contains '\x00'

def maxNameSize : Nat := 255

def maxSize : Nat := 4095

end ByteMachine.Path
