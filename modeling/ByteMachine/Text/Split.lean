/-! # Cutting text into pieces, words and lines

All three are right folds over the characters, so each has one equation per kind of first character. -/
namespace ByteMachine.Text

def consHead (c : Char) : List (List Char) → List (List Char)
  | [] => [[c]]
  | w :: ws => (c :: w) :: ws

/-- The pieces between the characters in `p`, empty ones included. -/
def pieces (p : Char → Bool) (cs : List Char) : List (List Char) :=
  cs.foldr (fun c ws => if p c then [] :: ws else consHead c ws) [[]]

/-- The pieces that hold a character. -/
def words (p : Char → Bool) (cs : List Char) : List (List Char) :=
  (pieces p cs).filter (fun w => !w.isEmpty)

/-- The lines of the text from here on, and whether the text starts with a line feed. -/
def lineStep (c : Char) (s : List (List Char) × Bool) : List (List Char) × Bool :=
  if c == '\n' then ([] :: s.1, true)
  else if c == '\r' && s.2 then (s.1, false)
  else (consHead c s.1, false)

/-- A line ends at a line feed, or at the end of the text if a character stands before it. A carriage
return right before the line feed belongs to the line end. -/
def lines (cs : List Char) : List (List Char) := (cs.foldr lineStep ([], false)).1

def numberedLines (cs : List Char) : List (List Char × Nat) := (lines cs).zipIdx 1

def unlines (ls : List (List Char)) : List Char := ['\n'].intercalate ls

@[simp] theorem pieces_nil (p : Char → Bool) : pieces p [] = [[]] := rfl

theorem pieces_cons (p : Char → Bool) (c : Char) (cs : List Char) :
    pieces p (c :: cs) = if p c then [] :: pieces p cs else consHead c (pieces p cs) := rfl

@[simp] theorem lines_nil : lines [] = [] := rfl

@[simp] theorem lines_newline (cs : List Char) : lines ('\n' :: cs) = [] :: lines cs := rfl

@[simp] theorem lines_return_newline (cs : List Char) : lines ('\r' :: '\n' :: cs) = [] :: lines cs := rfl

end ByteMachine.Text
