import Recast.Text.Letter

/-!
# Command-line arguments

Options start with one or two dashes. A value is the next argument, or it is attached: `-bx`,
`-b=x`, `--bind=x`; a value that starts with a dash has to be attached. The names of commands are
recognised wherever an operand may stand, but not as the value of an option nor behind `--`, which
ends the options. Only `--bind` and `--schema` may be repeated.
-/

namespace Recast

inductive Format where
  | text
  | json
deriving DecidableEq, Repr

/-- What is asked for other than the conversion of one statement. -/
inductive Task where
  | explain (statement : Text)
  | schema
  | passes
  | replay (file : Text)
deriving DecidableEq, Repr

/-- What the command line asks for. -/
structure Invocation where
  statement : Option Text := none
  bindings : List Text := []
  serialized : Bool := false
  schemas : List Text := []
  previous : Option Text := none
  settings : Option Text := none
  format : Option Format := none
  verbose : Bool := false
  task : Option Task := none
deriving DecidableEq, Repr

inductive Stop where
  | usage
  | help
  | version
deriving DecidableEq, Repr

namespace Arguments

/-! ### Options -/

inductive Valued where
  | bind
  | schema
  | previous
  | settings
  | format
deriving DecidableEq, Repr

inductive Flag where
  | serialized
  | verbose
  | help
  | version
deriving DecidableEq, Repr

inductive Opt where
  | valued (o : Valued)
  | flag (f : Flag)
deriving DecidableEq, Repr

def longNames : List (Text × Opt) :=
  [("bind", .valued .bind), ("schema", .valued .schema), ("previous", .valued .previous),
    ("config", .valued .settings), ("format", .valued .format), ("serialized", .flag .serialized),
    ("verbose", .flag .verbose), ("help", .flag .help), ("version", .flag .version)]

def letters : List (Char × Opt) :=
  [('b', .valued .bind), ('s', .valued .schema), ('c', .valued .settings), ('f', .valued .format),
    ('v', .flag .verbose), ('h', .flag .help), ('V', .flag .version)]

def named? (name : Text) : Option Opt := (longNames.find? fun o => o.1 == name).map (·.2)

def lettered? (c : Char) : Option Opt := (letters.find? fun o => o.1 == c).map (·.2)

def format? (t : Text) : Option Format :=
  if t = ("text" : Text) then some .text else if t = ("json" : Text) then some .json else none

def setValue (i : Invocation) (o : Valued) (value : Text) : Except Stop Invocation :=
  match o with
  | .bind => .ok { i with bindings := i.bindings ++ [value] }
  | .schema =>
    if value.isEmpty then .error .usage else .ok { i with schemas := i.schemas ++ [value] }
  | .previous =>
    if i.previous.isSome then .error .usage else .ok { i with previous := some value }
  | .settings =>
    if i.settings.isSome || value.isEmpty then .error .usage
    else .ok { i with settings := some value }
  | .format =>
    match i.format, format? value with
    | none, some f => .ok { i with format := some f }
    | _, _ => .error .usage

def setFlag (i : Invocation) : Flag → Except Stop Invocation
  | .serialized => if i.serialized then .error .usage else .ok { i with serialized := true }
  | .verbose => if i.verbose then .error .usage else .ok { i with verbose := true }
  | .help => .error .help
  | .version => .error .version

def setOperand (i : Invocation) (value : Text) : Except Stop Invocation :=
  if i.statement.isSome then .error .usage else .ok { i with statement := some value }

/-! ### One argument -/

inductive Argument where
  /-- Two dashes. -/
  | ending
  /-- A long option, with what is attached to it. -/
  | long (name : Text) (value : Option Text)
  /-- Letters behind one dash. -/
  | cluster (letters : Text)
  | operand (value : Text)
deriving DecidableEq, Repr

/-- What an argument is; a single dash is an operand. -/
def classify : Text → Argument
  | ['-', '-'] => .ending
  | '-' :: '-' :: t =>
    match t.dropWhile (· != '=') with
    | _ :: value => .long (t.takeWhile (· != '=')) (some value)
    | [] => .long t none
  | '-' :: c :: t => .cluster (c :: t)
  | t => .operand t

/-- The invocation with a long option; with it the option that waits for a value. -/
def long (i : Invocation) (name : Text) (value : Option Text) :
    Except Stop (Invocation × Option Valued) :=
  match named? name, value with
  | some (.valued o), some v => do return (← setValue i o v, none)
  | some (.valued o), none => .ok (i, some o)
  | some (.flag f), none => do return (← setFlag i f, none)
  | _, _ => .error .usage

/-- The invocation with the options of a cluster; with it the option that waits for a value. -/
def cluster (i : Invocation) : Text → Except Stop (Invocation × Option Valued)
  | [] => .ok (i, none)
  | c :: t =>
    match lettered? c with
    | some (.flag f) => do cluster (← setFlag i f) t
    | some (.valued o) =>
      match t with
      | [] => .ok (i, some o)
      | '=' :: value => do return (← setValue i o value, none)
      | value => do return (← setValue i o value, none)
    | none => .error .usage

/-! ### Commands -/

def taskNames : List Text := ["explain", "schema", "passes", "replay", "help"]

/-- The operands of a command that takes at most so many. Its only option asks for help. -/
def operands (most : Nat) (ended : Bool) : List Text → Except Stop (List Text)
  | [] => .ok []
  | a :: rest =>
    match if ended then .operand a else classify a, most with
    | .operand value, most + 1 => do return value :: (← operands most ended rest)
    | .operand _, 0 => .error .usage
    | .ending, most => operands most true rest
    | .long name none, _ => if name = ("help" : Text) then .error .help else .error .usage
    | .long _ (some _), _ => .error .usage
    | .cluster letters, _ => if letters.head? = some 'h' then .error .help else .error .usage

def task (name : Text) (args : List Text) : Except Stop Task := do
  if name = ("explain" : Text) then
    match ← operands 1 false args with
    | [statement] => return .explain statement
    | _ => .error .usage
  else if name = ("replay" : Text) then
    match ← operands 1 false args with
    | [file] => if file.isEmpty then .error .usage else return .replay file
    | _ => .error .usage
  else if name = ("help" : Text) then
    match args with
    | [] => .error .help
    | [topic] => if taskNames.contains topic then .error .help else .error .usage
    | _ => .error .usage
  else
    let _ ← operands 0 false args
    return if name = ("schema" : Text) then .schema else .passes

/-! ### All arguments -/

/-- The invocation with the arguments, of which the option `waiting` takes the next as its value. -/
def readFrom (i : Invocation) (waiting : Option Valued) (ended : Bool) :
    List Text → Except Stop Invocation
  | [] => if waiting.isSome then .error .usage else .ok i
  | a :: rest =>
    match waiting, classify a with
    | some o, .operand value => do readFrom (← setValue i o value) none false rest
    | some _, _ => .error .usage
    | none, argument =>
      if ended then do readFrom (← setOperand i a) none true rest
      else if taskNames.contains a then do return { i with task := some (← task a rest) }
      else
        match argument with
        | .ending => readFrom i none true rest
        | .long name value => do
          let (i, waiting) ← long i name value
          readFrom i waiting false rest
        | .cluster letters => do
          let (i, waiting) ← cluster i letters
          readFrom i waiting false rest
        | .operand value => do readFrom (← setOperand i value) none false rest

/-- What the arguments ask for. The settings file that they do not name may be named in
`fallback`. -/
def read (fallback : Option Text) (args : List Text) : Except Stop Invocation := do
  let i ← readFrom {} none false args
  match i.settings, fallback with
  | none, some file => setValue i .settings file
  | _, _ => return i

end Arguments

end Recast
