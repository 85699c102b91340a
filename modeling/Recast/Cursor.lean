import Recast.Text.Case
import Recast.Text.Digit
import Recast.Text.Letter
import Recast.Text.Word

/-!
# Reading forward

A cursor is a place in a text: the offset, the character before it and what is left to read. The
steps below read one thing each and fail when it is not there, so that a clause is recognised by a
chain of steps. `scan` looks for a clause from left to right; occurrences never overlap.
-/

namespace Recast

/-- A place in a text. -/
structure Cursor where
  /-- The bytes already read. -/
  offset : Nat
  /-- The character just read. -/
  last : Option Char
  rest : Text
deriving DecidableEq, Repr

namespace Cursor

def start (t : Text) : Cursor := ⟨0, none, t⟩

def ofOffset (t : Text) (n : Nat) : Cursor := ⟨n, (t.before n).getLast?, t.after n⟩

def spanTo (c d : Cursor) : Span := ⟨c.offset, d.offset⟩

/-! ### Steps -/

def skipFrom (p : Char → Bool) (offset : Nat) (last : Option Char) : Text → Cursor
  | [] => ⟨offset, last, []⟩
  | c :: t => if p c then skipFrom p (offset + c.utf8Size) (some c) t else ⟨offset, last, c :: t⟩

/-- Past all characters with a property. -/
def skipWhile (c : Cursor) (p : Char → Bool) : Cursor := skipFrom p c.offset c.last c.rest

/-- Past one or more characters with a property. -/
def some? (c : Cursor) (p : Char → Bool) : Option Cursor :=
  if c.rest.head?.any p then some (c.skipWhile p) else none

def char? (c : Cursor) (p : Char → Bool) : Option Cursor :=
  match c.rest with
  | [] => none
  | x :: t => if p x then some ⟨c.offset + x.utf8Size, some x, t⟩ else none

def skipCount (c : Cursor) : Nat → Cursor
  | 0 => c
  | n + 1 =>
    match c.rest with
    | [] => c
    | x :: t => skipCount ⟨c.offset + x.utf8Size, some x, t⟩ n

def sign? (c : Cursor) (x : Char) : Option Cursor := c.char? (· == x)

/-- Past the given character if it is there. -/
def skipSign (c : Cursor) (x : Char) : Cursor := (c.sign? x).getD c

/-- Past a word, in whatever case it is written. -/
def word? (c : Cursor) : Text → Option Cursor
  | [] => some c
  | w :: word => do (← c.char? (sameLetter w)).word? word

/-- Past a word, letter for letter up to the case of ASCII letters. -/
def plain? (c : Cursor) : Text → Option Cursor
  | [] => some c
  | w :: word => do (← c.char? fun x => x.toLower == w.toLower).plain? word

def blanks (c : Cursor) : Cursor := c.skipWhile isBlank

def blanks? (c : Cursor) : Option Cursor := c.some? isBlank

def digits? (c : Cursor) : Option Cursor := c.some? isDecimalDigit

/-- The first of several words that can be read. -/
def oneOf? (c : Cursor) (words : List Text) : Option Cursor := words.findSome? c.word?

/-! ### Tests -/

def atEnd (c : Cursor) : Bool := c.rest.isEmpty

def afterWord (c : Cursor) : Bool := c.last.any isWordChar

def beforeWord (c : Cursor) : Bool := c.rest.head?.any isWordChar

/-- A place with a word character on exactly one side. -/
def atEdge (c : Cursor) : Bool := c.afterWord != c.beforeWord

/-! ### Scanning -/

/-- `scan` over a given rest. Nothing is tried before the offset `resume`. -/
def scanFrom (step : Cursor → Option (Option α × Nat)) (resume offset : Nat) (last : Option Char) :
    Text → List α
  | [] => []
  | c :: t =>
    let next := offset + c.utf8Size
    if offset < resume then scanFrom step resume next (some c) t
    else
      match step ⟨offset, last, c :: t⟩ with
      | none => scanFrom step resume next (some c) t
      | some (found, stop) => found.toList ++ scanFrom step stop next (some c) t

/-- What `step` finds at the places from `c` on, in order. At each place `step` fails, and the next
place is tried; or it names the offset at which to go on, with a find or without one. -/
def scan (c : Cursor) (step : Cursor → Option (Option α × Nat)) : List α :=
  scanFrom step c.offset c.offset c.last c.rest

/-- The occurrences of a clause, each searched for behind the one before it. -/
def findAll (c : Cursor) (clause : Cursor → Option (α × Cursor)) : List α :=
  c.scan fun d => (clause d).map fun (a, e) => (some a, e.offset)

end Cursor

end Recast
