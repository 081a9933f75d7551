/-! # Arguments: the words of a command line, parted into switches and operands

Switches stand anywhere among the operands. Short ones can be joined (`-pl`), and a value can be the next argument or be
joined to its switch (`-of`, `--out=f`). If the next argument is a switch or `--`, the value is missing; this is known only
at the end, so that a request for the version comes first. Behind `--` there are only operands. -/
namespace ByteMachine

structure Switch where
  long : String
  short : Option Char := none
  takesValue : Bool := false
  /-- The value if the switch is not given, or is given without one. -/
  fallback : Option String := none

structure Signature where
  title : String
  switches : List Switch := []
  maxOperands : Nat := 0
  negativeNumbers : Bool := false

structure Arguments where
  operands : List String := []
  switches : List (Switch × Option String) := []

/-- Why no command is run: the arguments do not fit, or only the version is asked for. -/
inductive Stop
  | usage
  | version (title : String)

namespace Arguments

def isExponent : List Char → Bool
  | [] => true
  | c :: cs =>
    let digits := match cs with
      | '+' :: ds => ds
      | '-' :: ds => ds
      | ds => ds
    (c == 'e' || c == 'E') && !digits.isEmpty && digits.all Char.isDigit

/-- A number without a sign, whole or with a fraction or a power of ten, or one of the names `inf`, `infinity`, `nan`. -/
def isNumber (cs : List Char) : Bool :=
  let named := ["inf", "infinity", "nan"].contains (String.ofList (cs.map Char.toLower))
  let whole := cs.takeWhile Char.isDigit
  match cs.dropWhile Char.isDigit with
  | '.' :: rest =>
    (!whole.isEmpty || !(rest.takeWhile Char.isDigit).isEmpty) && isExponent (rest.dropWhile Char.isDigit)
  | rest => named || (!whole.isEmpty && isExponent rest)

/-- Anything but a dash followed by something, unless that is a number and the command takes negative ones. -/
def isOperand (sig : Signature) : List Char → Bool
  | ['-'] => true
  | '-' :: cs => sig.negativeNumbers && isNumber cs
  | _ => true

def addOperand (sig : Signature) (args : Arguments) (operand : String) : Except Stop Arguments :=
  if args.operands.length < sig.maxOperands then .ok { args with operands := args.operands ++ [operand] }
  else .error .usage

def addSwitch (args : Arguments) (switch : Switch) (value : Option String) : Arguments :=
  { args with switches := args.switches ++ [(switch, value)] }

def settle (args : Arguments) : Option Switch → Arguments
  | some switch => args.addSwitch switch none
  | none => args

/-- A value that is joined to its switch may come behind equals signs. -/
def joinedValue (cs : List Char) : String := String.ofList (cs.dropWhile (· == '='))

def takeLong (sig : Signature) (args : Arguments) (cs : List Char) : Except Stop (Arguments × Option Switch) :=
  let name := String.ofList (cs.takeWhile (· != '='))
  let behind := cs.dropWhile (· != '=')
  if name == "version" then .error (.version sig.title)
  else
    match sig.switches.find? (·.long == name) with
    | none => .error .usage
    | some switch =>
      if !switch.takesValue then .ok (args.addSwitch switch none, none)
      else if behind.isEmpty then .ok (args, some switch)
      else .ok (args.addSwitch switch (some (joinedValue behind)), none)

/-- Takes short switches up to the first that has a value, and says whether that one still waits for it. -/
def takeShort (sig : Signature) (args : Arguments) : List Char → Except Stop (Arguments × Option Switch)
  | [] => .ok (args, none)
  | c :: cs =>
    if c == 'V' then .error (.version sig.title)
    else
      match sig.switches.find? (·.short == some c) with
      | none => .error .usage
      | some switch =>
        if !switch.takesValue then takeShort sig (args.addSwitch switch none) cs
        else if cs.isEmpty then .ok (args, some switch)
        else .ok (args.addSwitch switch (some (joinedValue cs)), none)

def takeOne (sig : Signature) (args : Arguments) (arg : String) : Except Stop (Arguments × Option Switch) :=
  if isOperand sig arg.toList then (args.addOperand sig arg).map (·, none)
  else
    match arg.toList with
    | '-' :: '-' :: cs => args.takeLong sig (cs.dropWhile (· == '-'))
    | cs => args.takeShort sig (cs.drop 1)

/-- Takes the arguments from left to right; a switch may be waiting for its value. -/
def takeAll (sig : Signature) : Arguments → Option Switch → List String → Except Stop Arguments
  | args, waiting, [] => .ok (args.settle waiting)
  | args, waiting, arg :: rest =>
    -- what looks like a switch is not taken for a value
    match waiting.filter fun _ => isOperand sig arg.toList with
    | some switch => takeAll sig (args.addSwitch switch (some arg)) none rest
    | none =>
      if arg == "--" then rest.foldlM (addOperand sig) (args.settle waiting)
      else
        match (args.settle waiting).takeOne sig arg with
        | .ok (args, waiting) => takeAll sig args waiting rest
        | .error stop => .error stop

def hasRepeats : List String → Bool
  | [] => false
  | name :: names => names.contains name || hasRepeats names

def lacksValue (given : Switch × Option String) : Bool :=
  given.1.takesValue && (given.2.or given.1.fallback).isNone

/-- No switch may be given twice, or without the value it needs. -/
def parse (sig : Signature) (args : List String) : Except Stop Arguments := do
  let args ← takeAll sig {} none args
  if hasRepeats (args.switches.map (·.1.long)) || args.switches.any lacksValue then .error .usage else return args

def flag (args : Arguments) (long : String) : Bool := args.switches.any (·.1.long == long)

def value? (sig : Signature) (args : Arguments) (long : String) : Option String :=
  ((args.switches.find? (·.1.long == long)).bind (·.2)).or
    ((sig.switches.find? (·.long == long)).bind Switch.fallback)

end Arguments

end ByteMachine
