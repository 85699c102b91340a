/-!
# Text and its offsets

A statement is a list of characters. Places in it are *offsets*, counted in UTF-8 bytes from the
start, so that a place found in one text can be used in another of the same layout. An offset is
a *boundary* when it does not fall inside a character. `Text.before` and `Text.after` cut at an
offset; together they always give the text back (`before_append_after`), and at the size of a
leading part they cut exactly behind it (`before_size_append`, `after_size_append`).
-/

namespace Recast

/-- The text of a statement, or of a part of one. -/
abbrev Text := List Char

/-- A string constant stands for its characters. -/
instance : Coe String Text where
  coe s := s.toList

/-- Whether something holds of every character of a text is seen by looking at each of them. -/
instance (priority := 2000) Text.decidableBAll (t : Text) (P : Char → Prop) [DecidablePred P] :
    Decidable (∀ c ∈ t, P c) :=
  List.decidableBAll P t

instance (priority := 2000) Text.decidableForallMem (c : Option Char) (P : Char → Prop)
    [DecidablePred P] : Decidable (∀ x ∈ c, P x) :=
  c.decidableForallMem

/-- The offsets from `start` up to `stop`, the latter not included. -/
structure Span where
  start : Nat
  stop : Nat
deriving DecidableEq, Repr, Inhabited

namespace Span

def isEmpty (s : Span) : Bool := s.stop ≤ s.start

/-- The same stretch seen from a text in which it starts `n` bytes later. -/
def shift (s : Span) (n : Nat) : Span := ⟨s.start + n, s.stop + n⟩

end Span

namespace Text

/-! ### Sizes and cuts -/

def size : Text → Nat
  | [] => 0
  | c :: t => c.utf8Size + size t

/-- The whole characters that end at or before offset `n`. -/
def before : Text → Nat → Text
  | [], _ => []
  | c :: t, n => if c.utf8Size ≤ n then c :: before t (n - c.utf8Size) else []

/-- What follows `before t n`. -/
def after : Text → Nat → Text
  | [], _ => []
  | c :: t, n => if c.utf8Size ≤ n then after t (n - c.utf8Size) else c :: t

/-- Whether an offset lies in the text and between two characters. -/
def isBoundary (t : Text) (n : Nat) : Bool := size (before t n) == n

def slice (t : Text) (s : Span) : Text := before (after t s.start) (s.stop - s.start)

/-- The text with the part that a span covers replaced. -/
def splice (t : Text) (s : Span) (new : Text) : Text := before t s.start ++ new ++ after t s.stop

/-- The text with `new` put in at an offset. -/
def insertAt (t : Text) (n : Nat) (new : Text) : Text := before t n ++ new ++ after t n

/-- The character that starts at an offset. -/
def charAt? (t : Text) (n : Nat) : Option Char :=
  if isBoundary t n then (after t n).head? else none

@[simp]
theorem size_nil : size [] = 0 := rfl

@[simp]
theorem size_cons (c : Char) (t : Text) : size (c :: t) = c.utf8Size + size t := rfl

@[simp]
theorem size_append (a b : Text) : size (a ++ b) = size a + size b := by
  induction a with
  | nil => simp
  | cons c a ih => simp [ih, Nat.add_assoc]

@[simp]
theorem before_append_after (t : Text) (n : Nat) : before t n ++ after t n = t := by
  induction t generalizing n with
  | nil => rfl
  | cons c t ih => by_cases h : c.utf8Size ≤ n <;> simp [before, after, h, ih]

@[simp]
theorem before_size_append (a b : Text) : before (a ++ b) (size a) = a := by
  induction a with
  | nil =>
    cases b with
    | nil => rfl
    | cons c b => simp [before, Nat.not_le.2 c.utf8Size_pos]
  | cons c a ih => simp [before, ih]

@[simp]
theorem after_size_append (a b : Text) : after (a ++ b) (size a) = b := by
  have h := before_append_after (a ++ b) (size a)
  rw [before_size_append] at h
  exact List.append_cancel_left h

/-! ### Searching for characters and exact words -/

/-- The offset of the first character with a property, when the text starts at `offset`. -/
def findFrom? (p : Char → Bool) (offset : Nat) : Text → Option Nat
  | [] => none
  | c :: t => if p c then some offset else findFrom? p (offset + c.utf8Size) t

def find? (t : Text) (p : Char → Bool) : Option Nat := findFrom? p 0 t

/-- Whether a word occurs in the text, letter for letter. -/
def has (t word : Text) : Bool :=
  match t with
  | [] => word.isEmpty
  | c :: r => word.isPrefixOf (c :: r) || has r word

/-- `replaceWord` on the part of a text whose first `skip` characters are already replaced. -/
def replaceWordFrom (old new : Text) : Nat → Text → Text
  | _, [] => []
  | skip + 1, _ :: t => replaceWordFrom old new skip t
  | 0, c :: t =>
    if old.isPrefixOf (c :: t) then new ++ replaceWordFrom old new (old.length - 1) t
    else c :: replaceWordFrom old new 0 t

/-- Every occurrence of `old`, from left to right without overlap, replaced by `new`. -/
def replaceWord (t old new : Text) : Text := replaceWordFrom old new 0 t

/-- The parts of a text between the characters equal to `sep`; never the empty list. -/
def splitOn (sep : Char) : Text → List Text
  | [] => [[]]
  | c :: t =>
    match splitOn sep t with
    | [] => [[c]]
    | part :: parts => if c = sep then [] :: part :: parts else (c :: part) :: parts

/-- The parts written one after another with `sep` between them. -/
def join (sep : Text) : List Text → Text
  | [] => []
  | [part] => part
  | part :: parts => part ++ sep ++ join sep parts

def ofNat (n : Nat) : Text := Nat.toDigits 10 n

/-- An integer in decimal digits, with a minus sign when it is negative. -/
def ofInt (n : Int) : Text := if n < 0 then '-' :: ofNat n.natAbs else ofNat n.natAbs

end Text

end Recast
