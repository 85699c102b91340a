import Recast.Text.Basic

/-!
# Blanks

Two sets of blanks are in use. `isBlank` is the Unicode property White_Space, by which texts are
trimmed and split into words; `isAsciiBlank` is the set that may stand between the words of a
phrase, which leaves out the vertical tab.
-/

namespace Recast

/-- The characters of the Unicode property White_Space. -/
def isBlank (c : Char) : Bool :=
  let n := c.toNat
  (9 ≤ n && n ≤ 13) || n == 0x20 || n == 0x85 || n == 0xA0 || n == 0x1680
    || (0x2000 ≤ n && n ≤ 0x200A) || n == 0x2028 || n == 0x2029 || n == 0x202F || n == 0x205F
    || n == 0x3000

/-- Space, tab, line feed, form feed and carriage return. -/
def isAsciiBlank (c : Char) : Bool :=
  c == ' ' || c == '\t' || c == '\n' || c == '\x0c' || c == '\r'

namespace Text

/-- The text without the characters at its end that have a property. -/
def dropEnd (p : Char → Bool) (t : Text) : Text := (t.reverse.dropWhile p).reverse

/-- The text without the characters at either end that have a property. -/
def strip (p : Char → Bool) (t : Text) : Text := dropEnd p (t.dropWhile p)

def trimStart (t : Text) : Text := t.dropWhile isBlank

def trimEnd (t : Text) : Text := dropEnd isBlank t

def trim (t : Text) : Text := trimEnd (trimStart t)

def isBlankText (t : Text) : Bool := t.all isBlank

/-- The span without the blanks at its ends; it never runs backwards. -/
def trimSpan (t : Text) (s : Span) : Span :=
  let part := t.slice s
  let start := s.start + (part.size - (trimStart part).size)
  let stop := s.stop - (part.size - (trimEnd part).size)
  ⟨start, max stop start⟩

/-- `words` with the word under way. -/
def wordsFrom (word : Text) : Text → List Text
  | [] => if word.isEmpty then [] else [word.reverse]
  | c :: t =>
    if isBlank c then
      if word.isEmpty then wordsFrom [] t else word.reverse :: wordsFrom [] t
    else wordsFrom (c :: word) t

/-- The maximal runs without blanks. -/
def words (t : Text) : List Text := wordsFrom [] t

end Text

end Recast
