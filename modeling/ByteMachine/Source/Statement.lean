import ByteMachine.Source.Fault
import ByteMachine.Text.Blank
import ByteMachine.Text.Split

/-! # Statements: the lines of a source that say something

A line is cut at its comment and trimmed. If it ends in a colon it defines a label; otherwise its words are a mnemonic
and operands, and a line without words says nothing. `Statement.text` writes a statement as such a line again. -/
namespace ByteMachine

open Text

abbrev Token := List Char

inductive Statement
  | label (name : Token)
  | instruction (mnemonic : Token) (operands : List Token)
  deriving DecidableEq

structure Located (α : Type) where
  position : Position
  value : α
  deriving DecidableEq

/-- What stands in front of the first semicolon, without the blanks around it. -/
def stripComment (line : List Char) : List Char := trim (line.takeWhile (· != ';'))

def isSeparator (c : Char) : Bool := c == ',' || isBlank c

/-- The words of a line, parted by commas and blanks in any number and order. -/
def tokens (line : List Char) : List Token := words isSeparator line

def isIdentifierStart (c : Char) : Bool := c.isAlpha || c == '_'

def isIdentifierRest (c : Char) : Bool := c.isAlphanum || c == '_'

/-- A letter or underscore, then letters, digits and underscores, all of them ASCII. -/
def isIdentifier : List Char → Bool
  | [] => false
  | c :: cs => isIdentifierStart c && cs.all isIdentifierRest

namespace Statement

def ofLine? (line : List Char) : Except Fault (Option Statement) :=
  if line.getLast? = some ':' then
    let name := trim line.dropLast
    if isIdentifier name then .ok (some (.label name)) else .error (.malformedLabel name)
  else
    match tokens line with
    | [] => .ok none
    | mnemonic :: operands => .ok (some (.instruction mnemonic operands))

def text : Statement → List Char
  | .label name => name ++ [':']
  | .instruction mnemonic [] => mnemonic
  | .instruction mnemonic operands => mnemonic ++ ' ' :: (", ".toList).intercalate operands

end Statement

/-- The statement on the line with this number, placed at its first character that is no blank. -/
def readLine (number : Nat) (line : List Char) : Except SourceError (Option (Located Statement)) :=
  let position : Position := ⟨number, indent line + 1⟩
  match Statement.ofLine? (stripComment line) with
  | .error fault => .error ⟨some position, fault⟩
  | .ok statement? => .ok (statement?.map (⟨position, ·⟩))

/-- The statements of a source in order, or the fault of the first line that cannot be read. -/
def statements (source : List Char) : Except SourceError (List (Located Statement)) :=
  ((numberedLines source).mapM fun (line, number) => readLine number line).map (List.filterMap id)

def sourceOf (ss : List Statement) : List Char := unlines (ss.map Statement.text)

end ByteMachine
