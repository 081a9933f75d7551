import ByteMachine.Source.Statement
import ByteMachine.Text.Digits

/-! # Journals: what an assembly reports while it runs -/
namespace ByteMachine

open Text

inductive Level | trace | debug | info
  deriving DecidableEq

inductive Record
  | label (name : Token) (address : Nat)
  | resolved (labels size : Nat)
  | encoded (address : Nat) (mnemonic : Token) (bytes : List UInt8)
  | assembled (statements size : Nat)
  deriving DecidableEq

def Record.level : Record → Level
  | label .. | encoded .. => .trace
  | resolved .. | assembled .. => .debug

def Record.text : Record → String
  | label name address => "label '" ++ String.ofList name ++ "' at " ++ String.ofList (hexNumber address)
  | resolved labels size => "resolved " ++ toString labels ++ " labels over " ++ toString size ++ " bytes"
  | encoded address mnemonic bytes =>
    String.ofList (hexNumber address ++ ": ".toList ++ mnemonic ++ " [".toList ++
      (", ".toList).intercalate (bytes.map hexByte) ++ "]".toList)
  | assembled statements size =>
    "assembled " ++ toString statements ++ " statements into " ++ toString size ++ " bytes"

/-- A result, and the records up to it or up to the error. -/
structure Run (α : Type) where
  journal : Array Record
  result : Except SourceError α

def Run.log {α : Type} (r : Run α) : List (Level × String) :=
  r.journal.toList.map fun record => (record.level, record.text)

/-- Goes on with the journal and the result, unless there is an error. -/
def Run.andThen {α β : Type} (r : Run α) (next : Array Record → α → Run β) : Run β :=
  match r.result with
  | .ok a => next r.journal a
  | .error e => ⟨r.journal, .error e⟩

/-- Carries a state through the statements. A step gives the next state and its records, or a fault, which is placed at
the statement and ends the run. -/
def runStatements {σ : Type} (step : σ → Statement → Except Fault (σ × List Record)) :
    Array Record → σ → List (Located Statement) → Run σ
  | journal, s, [] => ⟨journal, .ok s⟩
  | journal, s, x :: xs =>
    match step s x.value with
    | .error fault => ⟨journal, .error ⟨some x.position, fault⟩⟩
    | .ok (s', records) => runStatements step (journal ++ records) s' xs

end ByteMachine
