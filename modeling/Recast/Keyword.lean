import Recast.Cursor
import Recast.Nesting

/-!
# Keywords and phrases

A keyword is a word in any letter case with no name character on either side. A phrase is a list
of keywords with ASCII blanks between them. Searches start at an offset; an offset that is no
boundary, or an empty word, finds nothing. `findTop?` looks for a phrase outside all parentheses.
-/

namespace Recast

namespace Keyword

def afterName (c : Cursor) : Bool := c.last.any isNameChar

def beforeName (c : Cursor) : Bool := c.rest.head?.any isNameChar

def here? (word : Text) (c : Cursor) : Option Cursor := do
  guard (!word.isEmpty && !afterName c)
  let d ← c.plain? word
  guard (!beforeName d)
  return d

/-- The occurrences of a word, as part of another word too, without overlap. -/
def occurrences (t needle : Text) : List Nat :=
  if needle.isEmpty then []
  else (Cursor.start t).findAll fun c => do return (c.offset, ← c.plain? needle)

/-- The first occurrence of a word at or behind an offset, as part of another word too. -/
def findWord? (t needle : Text) (offset : Nat) : Option Nat :=
  if needle.isEmpty || !t.isBoundary offset then none
  else ((Cursor.ofOffset t offset).findAll fun c => do return (c.offset, ← c.plain? needle)).head?

/-- The first occurrence of a keyword at or behind an offset. -/
def find? (t word : Text) (offset : Nat) : Option Nat :=
  if !t.isBoundary offset then none
  else ((Cursor.ofOffset t offset).findAll fun c => do return (c.offset, ← here? word c)).head?

def isAt (t word : Text) (offset : Nat) : Bool :=
  t.isBoundary offset && (here? word (Cursor.ofOffset t offset)).isSome

/-- Past keywords, each with ASCII blanks before it. -/
def rest? : List Text → Cursor → Option Cursor
  | [], c => some c
  | word :: words, c => do rest? words (← here? word (← c.some? isAsciiBlank))

/-- The phrases at places that `wanted` admits, from an offset on. Behind a first word that no
phrase follows the search goes on after that word, and behind a phrase after the phrase. -/
def phrases (wanted : Nat → Bool) (t : Text) (words : List Text) (offset : Nat) : List Span :=
  match words with
  | [] => []
  | first :: others =>
    if !t.isBoundary offset then []
    else (Cursor.ofOffset t offset).scan fun c => do
      let d ← here? first c
      match rest? others d with
      | none => return (none, d.offset)
      | some e => return (if wanted c.offset then some (c.spanTo e) else none, e.offset)

def findPhrase? (t : Text) (words : List Text) (offset : Nat) : Option Span :=
  (phrases (fun _ => true) t words offset).head?

/-- Whether a phrase stands at the start, and where it ends. -/
def leading? (t : Text) (words : List Text) : Option Nat :=
  match findPhrase? t words 0 with
  | some s => if s.start = 0 then some s.stop else none
  | none => none

def topPhrases (t : Text) (words : List Text) (offset : Nat) : List Span :=
  phrases (fun n => Nesting.depthAt t n == 0) t words offset

/-- The first phrase at depth zero at or behind an offset. -/
def findTop? (t : Text) (words : List Text) (offset : Nat) : Option Span :=
  (topPhrases t words offset).head?

def findLastTop? (t : Text) (words : List Text) : Option Span :=
  (topPhrases t words 0).getLast?

end Keyword

end Recast
