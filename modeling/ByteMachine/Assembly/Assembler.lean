import ByteMachine.Assembly.Journal
import ByteMachine.Assembly.Operands

/-! # The assembler: from a source to the bytes of a program

All lines are read before the first label is placed, and all labels are placed before the first instruction is encoded,
so an instruction may name a label that is defined after it, and an error is the first one of the earliest stage that
has any. -/
namespace ByteMachine

def Statement.assumedLength : Statement → Nat
  | .label _ => 0
  | .instruction mnemonic _ => Opcode.assumedLength mnemonic

/-- The labels placed so far and the bytes counted so far. -/
structure Layout where
  labels : LabelTable
  size : Nat

def placeStatement (l : Layout) (s : Statement) : Except Fault (Layout × List Record) :=
  match s with
  | .label name =>
    match l.labels.define? name l.size with
    | some labels => .ok (⟨labels, l.size + s.assumedLength⟩, [.label name l.size])
    | none => .error (.duplicateLabel name)
  | .instruction .. => .ok (⟨l.labels, l.size + s.assumedLength⟩, [])

/-- Places every label behind the bytes of the statements before it. -/
def resolveRun (ss : List (Located Statement)) : Run LabelTable :=
  (runStatements placeStatement #[] ⟨.empty, 0⟩ ss).andThen fun journal l =>
    ⟨journal.push (.resolved l.labels.size l.size), .ok l.labels⟩

def resolve (ss : List (Located Statement)) : Except SourceError LabelTable := (resolveRun ss).result

/-- Appends the bytes of a statement, which stands at the end of those before it. -/
def emitStatement (labels : LabelTable) (program : Array UInt8) (s : Statement) :
    Except Fault (Array UInt8 × List Record) :=
  match s with
  | .label _ => .ok (program, [])
  | .instruction mnemonic operands => do
    let bytes ← encode labels program.size mnemonic operands
    -- the address of every label behind the statement depends on the two passes agreeing
    if bytes.length = s.assumedLength then return (program ++ bytes, [.encoded program.size mnemonic bytes])
    else .error (.lengthMismatch mnemonic s.assumedLength bytes.length)

def generateRun (labels : LabelTable) (journal : Array Record) (ss : List (Located Statement)) : Run (List UInt8) :=
  (runStatements (emitStatement labels) journal #[] ss).andThen fun journal program => ⟨journal, .ok program.toList⟩

/-- The bytes of all statements in order. -/
def generate (labels : LabelTable) (ss : List (Located Statement)) : Except SourceError (List UInt8) :=
  (generateRun labels #[] ss).result

def assembleRun (source : List Char) : Run (List UInt8) :=
  match statements source with
  | .error e => ⟨#[], .error e⟩
  | .ok ss =>
    (resolveRun ss).andThen fun journal labels =>
      (generateRun labels journal ss).andThen fun journal program =>
        ⟨journal.push (.assembled ss.length program.length), .ok program⟩

def assemble (source : List Char) : Except SourceError (List UInt8) := (assembleRun source).result

def resolveLabels (source : List Char) : Except SourceError LabelTable := do
  resolve (← statements source)

/-- The bytes of one line as it would be assembled at `pc`. Only an instruction has any. -/
def encodeLine (labels : LabelTable) (pc : Nat) (line : List Char) : Except SourceError (List UInt8) :=
  match Statement.ofLine? (stripComment line) with
  | .ok (some (.instruction mnemonic operands)) =>
    match encode labels pc mnemonic operands with
    | .ok bytes => .ok bytes
    | .error fault => .error ⟨none, fault⟩
  | .ok _ => .ok []
  | .error fault => .error ⟨none, fault⟩

/-- Encodes lines one behind the other, each with the address it is given. A line with an error takes no room. -/
def encodeLines (labels : LabelTable) (pc : Nat) : List (List Char) → List (Nat × Except SourceError (List UInt8))
  | [] => []
  | line :: rest =>
    match encodeLine labels pc line with
    | .ok bytes => (pc, .ok bytes) :: encodeLines labels (Address.advance pc bytes.length) rest
    | .error e => (pc, .error e) :: encodeLines labels pc rest

end ByteMachine
