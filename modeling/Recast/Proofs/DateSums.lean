import Recast.Proofs.Rewriting

/-!
# Nested date arithmetic

A sum of dates is an atom, or a call of DATE_ADD or DATE_SUB around a sum (`DateSum`), and a
document may hold any number of sums between plain texts (`Document`). The places of calls are found
before anything is replaced; since the last call is replaced first, and a call only after all that
stands in it, each of them is still at its place when its turn comes (`foldl_sum`). So the pass puts
the target's words for every sum and leaves the rest as it is (`dateArithmetic_document`).
-/

namespace Recast

open Literal Nesting Cursor Keyword List Text
open Option hiding guard

variable {w x : Text} {c : Char} {n : Nat} {P : Char → Prop} {d : Direction} {a : Nat × Direction}

namespace Functions

/-! ### Sums of dates -/

/-- A whole number in digits, with a minus sign or without. -/
structure Amount where
  negative : Bool
  digits : Text
  ne_nil : digits ≠ []
  decimal : ∀ c ∈ digits, isDecimalDigit c = true

namespace Amount

def text (k : Amount) : Text := if k.negative then '-' :: k.digits else k.digits

def opposite (k : Amount) : Amount := { k with negative := !k.negative }

end Amount

/-- The name of a unit of time. -/
structure TimeUnit where
  text : Text
  ne_nil : text ≠ []
  letters : ∀ c ∈ text, c.isAlpha = true ∨ c = '_'

/-- A date that is no call. -/
structure Atom where
  text : Text
  ne_nil : text ≠ []
  trimmed : text.trim = text
  plain : ∀ c ∈ text, isQuote c = false ∧ c ≠ ',' ∧ c ≠ '(' ∧ c ≠ ')'

/-- A call without its date: the name with its parenthesis, in whatever case, and the interval. -/
structure Frame where
  direction : Direction
  opening : Text
  opening_eq : opening.lower = direction.call.lower
  amount : Amount
  unit : TimeUnit

namespace Frame

def interval (f : Frame) : Text := "INTERVAL " ++ (f.amount.text ++ ' ' :: f.unit.text)

def tail (f : Frame) : Text := ',' :: ' ' :: (f.interval ++ [')'])

def added (f : Frame) : Amount :=
  match f.direction with
  | .add => f.amount
  | .subtract => f.amount.opposite

/-- The call in the target's words, around a date. -/
def around (f : Frame) (date : Text) : Text :=
  "DATEADD(" ++ f.unit.text.upper ++ ", " ++ f.added.text ++ ", " ++ date ++ ")"

end Frame

/-- A date, or a call with an interval around a sum. -/
inductive DateSum
  | atom (a : Atom)
  | call (f : Frame) (e : DateSum)

namespace DateSum

def text : DateSum → Text
  | atom a => a.text
  | call f e => f.opening ++ (e.text ++ f.tail)

/-- The sum in the target's words. -/
def target : DateSum → Text
  | atom a => a.text
  | call f e => f.around e.target

/-- Where the calls of the sum begin, if it stands at an offset. -/
def starts (n : Nat) : DateSum → List (Nat × Direction)
  | atom _ => []
  | call f e => (n, f.direction) :: e.starts (n + f.opening.size)

end DateSum

/-- A text without quotes in which no call of date arithmetic begins. -/
structure Segment where
  text : Text
  plain : ∀ c ∈ text, isQuote c = false
  callFree : ∀ a w b, text = a ++ (w ++ b) → ∀ d : Direction, w.lower ≠ d.call.lower

/-- Segments with calls between them; no name runs into a call. -/
inductive Document
  | last (s : Segment)
  | call (s : Segment) (edge : s.text.getLast?.any isNameChar = false) (f : Frame) (e : DateSum)
      (rest : Document)

namespace Document

def text : Document → Text
  | last s => s.text
  | call s _ f e rest => s.text ++ ((DateSum.call f e).text ++ rest.text)

def target : Document → Text
  | last s => s.text
  | call s _ f e rest => s.text ++ ((DateSum.call f e).target ++ rest.target)

def starts (n : Nat) : Document → List (Nat × Direction)
  | last _ => []
  | call s _ f e rest => (DateSum.call f e).starts (n + s.text.size) ++
      rest.starts (n + s.text.size + (DateSum.call f e).text.size)

end Document

/-! ### Intervals -/

theorem isBlank_of_isFoldedLetter (h : isFoldedLetter c) : isBlank c = false :=
  isBlank_of_class h (by decide)

theorem TimeUnit.folded (u : TimeUnit) : ∀ c ∈ u.text, isFoldedLetter c := by
  intro c hc
  rcases u.letters c hc with halpha | rfl
  · exact of_isAlphanum (P := fun c => c.isAlpha → isFoldedLetter c)
      (by simp [Char.isAlphanum, halpha]) (by decide) halpha
  · decide

/-- The characters of an amount are all different from those that are neither a minus sign nor a
digit. -/
theorem Amount.of_mem_text (k : Amount) (hminus : P '-') (hdigit : ∀ c, isDecimalDigit c → P c) :
    ∀ c ∈ k.text, P c := by
  intro c hc
  rw [text] at hc
  split at hc
  · rcases mem_cons.1 hc with rfl | hc
    · exact hminus
    · exact hdigit c (k.decimal c hc)
  · exact hdigit c (k.decimal c hc)

theorem Amount.isBlank_text (k : Amount) : ∀ c ∈ k.text, isBlank c = false :=
  k.of_mem_text (by decide) fun _ => isBlank_of_isDecimalDigit

theorem Amount.text_ne_nil (k : Amount) : k.text ≠ [] := by
  rw [text]
  split
  · simp
  · exact k.ne_nil

/-- Past the minus sign of an amount there are its digits. -/
theorem Amount.skipSign_reads (k : Amount) {c : Cursor} {r : Text} (h : c.rest = k.text ++ r) :
    ∃ w, Reads c w (c.skipSign '-') ∧ k.text = w ++ k.digits ∧
      (c.skipSign '-').rest = k.digits ++ r := by
  rw [text] at h
  split at h
  · next hneg =>
    obtain ⟨d, hd, hread, hrest⟩ := exists_char? (p := (· == '-')) (c := c) h (by decide)
    have hskip : c.skipSign '-' = d := by rw [skipSign, sign?, hd, getD_some]
    exact ⟨['-'], hskip ▸ hread, if_pos hneg, hskip ▸ hrest⟩
  · next hneg =>
    obtain ⟨x, digits, hdigits⟩ := exists_cons_of_ne_nil k.ne_nil
    have hx : x ≠ '-' := ne_of_isDecimalDigit (k.decimal x (by simp [hdigits])) (by decide)
    have hskip : c.skipSign '-' = c := skipSign_of_head (by rw [h, hdigits]; simpa using hx)
    exact ⟨[], hskip.symm ▸ .refl c, if_neg hneg, hskip.symm ▸ h⟩

/-- The interval of a call is read as it is written. -/
theorem interval?_interval (f : Frame) :
    interval? f.interval = some ⟨f.amount.text, f.unit.text⟩ := by
  obtain ⟨x, digits, hdigits⟩ := exists_cons_of_ne_nil f.amount.ne_nil
  obtain ⟨y, unit, hunit⟩ := exists_cons_of_ne_nil f.unit.ne_nil
  obtain ⟨z, rest, hz⟩ := exists_cons_of_ne_nil f.amount.text_ne_nil
  have hx : isBlank x = false := isBlank_of_isDecimalDigit (f.amount.decimal x (by simp [hdigits]))
  have hy : isFoldedLetter y := f.unit.folded y (by simp [hunit])
  have hblank : isBlank y = false := isBlank_of_isFoldedLetter hy
  have hyquote : y ≠ '\'' := by
    rintro rfl
    cases hy
  have hz' : isBlank z = false := f.amount.isBlank_text z (by simp [hz])
  have hzquote : z ≠ '\'' := f.amount.of_mem_text (P := (· ≠ '\'')) (by decide)
    (fun c hc => ne_of_isDecimalDigit hc (by decide)) z (by simp [hz])
  -- the word and the blank behind it
  have hrest₀ :
      (start f.interval).rest = "INTERVAL".toList ++
        ([' '] ++ (f.amount.text ++ ' ' :: f.unit.text)) := rfl
  obtain ⟨c₁, h₁, hread₁⟩ :
      ∃ d, (start f.interval).word? "INTERVAL" = some d ∧ Reads _ "INTERVAL".toList d :=
    exists_word? hrest₀ rfl
  have hrest₁ := Reads.rest_eq hread₁ hrest₀
  obtain ⟨c₂, h₂, hread₂⟩ :=
    exists_some? hrest₁ (by simp) (p := isBlank) (by decide) (by simpa [hz] using hz')
  have hrest₂ := Reads.rest_eq hread₂ hrest₁
  have hat₂ := ((at_start f.interval).reads hread₁).reads hread₂
  -- the amount, which is not in quotes
  have hquote : c₂.skipSign '\'' = c₂ := skipSign_of_head (by simpa [hrest₂, hz] using hzquote)
  have hblanks₂ : c₂.blanks = c₂ := skipWhile_of_head (by simpa [hrest₂, hz] using hz')
  obtain ⟨minus, hminus, htext, hrest₃⟩ := f.amount.skipSign_reads hrest₂
  have hblanks₃ : (c₂.skipSign '-').blanks = c₂.skipSign '-' :=
    skipWhile_of_head (by simpa [hrest₃, hdigits] using hx)
  obtain ⟨d, hd, hreadd⟩ := exists_some? hrest₃ f.amount.ne_nil f.amount.decimal (by simp; decide)
  have hrestd := Reads.rest_eq hreadd hrest₃
  have hamount : Reads c₂ f.amount.text d := htext ▸ hminus.trans hreadd
  -- a blank and the unit up to the end
  have hrestd' : d.rest = [' '] ++ f.unit.text := hrestd
  have hreade : Reads d [' '] d.blanks :=
    reads_skipWhile hrestd' (by decide) (by simpa [hunit] using hblank)
  have hsign : d.blanks.sign? '\'' = none :=
    sign?_of_head (by simpa [Reads.rest_eq hreade hrestd', hunit] using hyquote)
  obtain ⟨e, he, hread⟩ :=
    exists_some? hrestd' (by simp) (p := isBlank) (by decide) (by simpa [hunit] using hblank)
  have hreste : e.rest = f.unit.text ++ [] := by rw [Reads.rest_eq hread hrestd', append_nil]
  obtain ⟨stop, hstop, hreadstop⟩ := exists_some? hreste f.unit.ne_nil f.unit.folded (by simp)
  have hend : stop.atEnd := by rw [atEnd, Reads.rest_eq hreadstop hreste, isEmpty_nil]
  have hslice : f.interval.slice (c₂.spanTo d) = f.amount.text := hat₂.slice hamount
  have hslice' : f.interval.slice (e.spanTo stop) = f.unit.text :=
    ((hat₂.reads hamount).reads hread).slice hreadstop
  have hfilter : f.amount.text.filter (!isBlank ·) = f.amount.text :=
    filter_eq_self.2 fun c hc => by rw [f.amount.isBlank_text c hc]; rfl
  rw [interval?, h₁]
  simp [blanks?, h₂, hquote, hblanks₂, hblanks₃, digits?, hd, hsign, he, hstop, hend, hslice,
    hslice', hfilter, guard]

theorem signed_eq_added (f : Frame) :
    Interval.signed ⟨f.amount.text, f.unit.text⟩ f.direction = f.added.text := by
  obtain ⟨x, digits, hdigits⟩ := exists_cons_of_ne_nil f.amount.ne_nil
  have hx : x ≠ '-' := ne_of_isDecimalDigit (f.amount.decimal x (by simp [hdigits])) (by decide)
  rw [Frame.added]
  cases hd : f.direction with
  | add => rfl
  | subtract =>
    cases hneg : f.amount.negative with
    | true => simp [Interval.signed, Amount.text, Amount.opposite, hneg]
    | false => simp [Interval.signed, Amount.text, Amount.opposite, hneg, hdigits, hx]

/-! ### Dates as arguments -/

/-- A text that is one argument of a call. -/
structure IsArgument (x : Text) : Prop where
  plain : ∀ c ∈ x, isQuote c = false
  level : level? 0 x = some 0
  flat : Flat ',' 0 x
  trimmed : x.trim = x

theorem isArgument_atom (a : Atom) : IsArgument a.text where
  plain c hc := (a.plain c hc).1
  level := level?_of_no_paren (fun c hc => (a.plain c hc).2.2) 0
  flat := flat_of_not_mem (fun hmem => (a.plain _ hmem).2.1 rfl) 0
  trimmed := a.trimmed

theorem flat_succ_of_level? {sep : Char} {d k : Nat} (h : level? d x = some k) :
    Flat sep (d + 1) x := by
  fun_induction level? d x with
  | case1 => trivial
  | case2 d t ih => exact ⟨fun _ => by omega, by simpa [step] using ih h⟩
  | case3 => cases h
  | case4 d t _ hd ih =>
    refine ⟨fun _ => by omega, ?_⟩
    have hstep : step (d + 1) ')' = d - 1 + 1 := by simp [step]; omega
    rw [hstep]
    exact ih h
  | case5 d c t h1 h2 ih => exact ⟨fun _ => by omega, by simpa [step, h1, h2] using ih h⟩

theorem level?_of_isPlain (h : ∀ c ∈ x, isPlain c) (d : Nat) : level? d x = some d :=
  level?_of_no_paren (fun c hc => by
    have hc := h c hc
    simp only [isPlain, Bool.and_eq_true, bne_iff_ne] at hc
    exact ⟨hc.1.2, hc.2⟩) d

def Frame.lead (f : Frame) : Text := f.unit.text.upper ++ ", " ++ f.added.text ++ ", "

theorem Frame.isPlain_lead (f : Frame) : ∀ c ∈ f.lead, isPlain c := by
  have hcomma : ∀ c ∈ ", ".toList, isPlain c := by decide
  intro c hc
  simp only [lead, mem_append] at hc
  rcases hc with ((hc | hc) | hc) | hc
  · obtain ⟨x, hx, rfl⟩ := mem_map.1 hc
    exact isPlain_toUpper (isPlain_of_class (f.unit.folded x hx) (by decide))
  · exact hcomma c hc
  · exact f.added.of_mem_text (by decide) (fun _ hc => isPlain_of_class hc (by decide)) c hc
  · exact hcomma c hc

theorem Frame.around_eq (f : Frame) (x : Text) :
    f.around x = "DATEADD".toList ++ '(' :: (f.lead ++ x ++ [')']) := by
  have hname : "DATEADD(".toList = "DATEADD".toList ++ ['('] := by decide
  have hclose : ")".toList = [')'] := by decide
  unfold around lead
  rw [hname, hclose]
  simp only [append_assoc, cons_append, nil_append]

/-- A call around an argument is an argument. -/
theorem IsArgument.around (h : IsArgument x) (f : Frame) : IsArgument (f.around x) := by
  have hinner : level? 0 (f.lead ++ x) = some 0 := by
    rw [level?_append, level?_of_isPlain f.isPlain_lead, bind_some, h.level]
  have hname : level? 0 "DATEADD".toList = some 0 := by decide
  rw [f.around_eq]
  refine ⟨fun c hc => ?_, ?_, ?_, ?_⟩
  · simp only [mem_append, mem_cons, not_mem_nil, or_false] at hc
    rcases hc with hc | rfl | (hc | hc) | rfl
    · exact (by decide : Code ("DATEADD".toList)) c hc
    · rfl
    · exact isQuote_of_isPlain (f.isPlain_lead c hc)
    · exact h.plain c hc
    · rfl
  · rw [level?_append, hname, bind_some, level?, level?_append, level?_add hinner 1]
    rfl
  · refine flat_append.2 ⟨flat_of_not_mem (by decide) 0, ?_⟩
    refine ⟨by decide, flat_append.2 ⟨flat_succ_of_level? hinner, ?_⟩⟩
    exact flat_of_not_mem (by decide) _
  · have hfirst :
        ∀ c, ("DATEADD".toList ++ '(' :: (f.lead ++ x ++ [')'])).head? = some c →
          isBlank c = false := by
      rintro c ⟨⟩
      decide
    have hlast :
        ∀ c, ("DATEADD".toList ++ '(' :: (f.lead ++ x ++ [')'])).getLast? = some c →
          isBlank c = false := by
      intro c hc
      rw [← cons_append, ← append_assoc, getLast?_append] at hc
      cases hc
      decide
    rw [trim, trimStart, dropWhile_of_head hfirst, trimEnd, dropEnd_of_last hlast]

theorem isArgument_target (e : DateSum) : IsArgument e.target := by
  induction e with
  | atom a => exact isArgument_atom a
  | call f e ih => exact ih.around f

/-! ### One call -/

/-- The name of a call: eight characters of names, in front of a parenthesis. -/
theorem exists_name (h : w.lower = d.call.lower) :
    ∃ v, w = v ++ ['('] ∧ v.length = 8 ∧ size v = 8 ∧ ∀ c ∈ v, isNameChar c := by
  obtain ⟨name, hcall, hlength, hsize, hname⟩ :
      ∃ name : Text, d.call.lower = lower (name ++ ['(']) ∧ name.lower.length = 8 ∧
      name.lower.size = 8 ∧ ∀ c ∈ name.lower, isNameChar c := by
    cases d with
    | add => exact ⟨"date_add", by decide, by decide, by decide, by decide⟩
    | subtract => exact ⟨"date_sub", by decide, by decide, by decide, by decide⟩
  obtain ⟨v, rfl, hv⟩ := exists_of_lower_paren (h.trans hcall)
  refine ⟨v, rfl, ?_, ?_, fun c hc => isNameChar_of_toLower (hname _ (hv ▸ mem_map_of_mem hc))⟩
  · rw [← hlength, ← hv, lower, length_map]
  · rw [← hsize, ← hv, size_lower]

theorem Frame.of_mem_interval (f : Frame) (hword : ∀ c ∈ "INTERVAL ".toList, P c) (hminus : P '-')
    (hdigit : ∀ c, isDecimalDigit c → P c) (hletter : ∀ c, isFoldedLetter c → P c) :
    ∀ c ∈ f.interval, P c := by
  intro c hc
  unfold interval at hc
  rw [mem_append, mem_append, mem_cons] at hc
  rcases hc with hc | hc | rfl | hc
  · exact hword c hc
  · exact f.amount.of_mem_text hminus hdigit c hc
  · exact hword ' ' (by decide)
  · exact hletter c (f.unit.folded c hc)

theorem Frame.isPlain_interval (f : Frame) : ∀ c ∈ f.interval, isPlain c :=
  f.of_mem_interval (by decide) (by decide)
    (fun _ hc => isPlain_of_class hc (by decide))
    (fun _ hc => isPlain_of_class hc (by decide))

theorem Frame.comma_not_mem_interval (f : Frame) : ',' ∉ f.interval := by
  intro hmem
  refine f.of_mem_interval (P := (· ≠ ',')) (by decide) (by decide)
    (fun c hc => ne_of_isDecimalDigit hc (by decide)) ?_ ',' hmem rfl
  rintro c hc rfl
  cases hc

/-- The interval without the blank before it. -/
theorem Frame.trim_interval (f : Frame) : trim (' ' :: f.interval) = f.interval := by
  obtain ⟨u, y, hunit⟩ := (eq_nil_or_concat' f.unit.text).resolve_left f.unit.ne_nil
  have hfirst : ∀ c, f.interval.head? = some c → isBlank c = false := by
    rintro c ⟨⟩
    decide
  have hlast : ∀ c, f.interval.getLast? = some c → isBlank c = false := by
    intro c hc
    have hend : f.interval = ("INTERVAL ".toList ++ (f.amount.text ++ ' ' :: u)) ++ [y] := by
      unfold interval
      rw [hunit]
      simp only [append_assoc, cons_append]
    rw [hend, getLast?_append] at hc
    cases hc
    exact isBlank_of_isFoldedLetter (f.unit.folded y (by simp [hunit]))
  have hstart : trimStart (' ' :: f.interval) = f.interval := by
    show dropWhile isBlank ([' '] ++ f.interval) = _
    exact (takeWhile_append_of_head (by decide) hfirst).2
  rw [trim, hstart, trimEnd, dropEnd_of_last hlast]

/-- The call around an argument is found, and replaced by the target's words for it. -/
theorem dateCall?_frame (f : Frame) {pre post : Text} (hx : IsArgument x) (hpre : Code pre)
    (hpost : Code post) :
    dateCall? (pre ++ (f.opening ++ (x ++ (f.tail ++ post)))) f.direction pre.size
      = some (pre ++ (f.around x ++ post)) := by
  obtain ⟨v, hopening, -, hsize, hname⟩ := exists_name f.opening_eq
  have htext : pre ++ (f.opening ++ (x ++ (f.tail ++ post)))
      = (pre ++ v) ++ '(' :: ((x ++ ',' :: ' ' :: f.interval) ++ ')' :: post) := by
    rw [hopening, Frame.tail]
    simp
  have hopen : pre.size + 8 = size (pre ++ v) := by rw [size_append, hsize]
  have hplain : Code ((pre ++ v) ++ '(' :: ((x ++ ',' :: ' ' :: f.interval) ++ ')' :: post)) := by
    intro c hc
    simp only [mem_append, mem_cons] at hc
    rcases hc with (hc | hc) | rfl | (hc | rfl | rfl | hc) | rfl | hc
    · exact hpre c hc
    · exact isQuote_of_class (hname c hc) (by decide) (by decide)
    · rfl
    · exact hx.plain c hc
    · rfl
    · rfl
    · exact isQuote_of_isPlain (f.isPlain_interval c hc)
    · rfl
    · exact hpost c hc
  have hlevel : level? 0 (x ++ ',' :: ' ' :: f.interval) = some 0 := by
    rw [level?_append, hx.level]
    exact level?_of_isPlain f.isPlain_interval 0
  have hparts : parts (x ++ ',' :: ' ' :: f.interval) ',' = [x, ' ' :: f.interval] := by
    have hblank : Code (' ' :: f.interval) :=
      forall_mem_cons.2 ⟨rfl, fun c hc => isQuote_of_isPlain (f.isPlain_interval c hc)⟩
    have hflat : Flat ',' 0 (mask (' ' :: f.interval)) := by
      rw [hblank.mask_eq]
      exact flat_of_not_mem (by simpa using f.comma_not_mem_interval) 0
    refine (parts_eq_iff (by decide) (by decide) (by decide) (by decide)).2
      (.cons ?_ ?_ ?_ (.last hflat))
    · exact Code.closed hx.plain
    · rw [Code.mask_eq hx.plain]
      exact hx.flat
    · rw [Code.mask_eq hx.plain]
      exact foldl_step_of_level? hx.level
  have hbefore :
      before ((pre ++ v) ++ '(' :: ((x ++ ',' :: ' ' :: f.interval) ++ ')' :: post))
        pre.size = pre := by
    rw [append_assoc, before_size_append]
  rw [htext, dateCall?, arguments?, hplain.mask_eq, hopen, closing?_of_level? hlevel]
  dsimp only [bind_eq_bind, bind_some]
  rw [slice_enclosed, hparts]
  show (interval? (trim (' ' :: f.interval))).bind _ = _
  rw [f.trim_interval, interval?_interval]
  show some (splice _ _ _) = _
  rw [splice, hbefore, after_enclosed, signed_eq_added, hx.trimmed, append_assoc]
  rfl

/-! ### All calls from the last to the first -/

/-- Each call at its place is replaced. -/
def settle (t : Text) (places : List (Nat × Direction)) : Text :=
  places.foldl (fun t call => (dateCall? t call.2 call.1).getD t) t

theorem settle_append (t : Text) (l l' : List (Nat × Direction)) :
    settle t (l ++ l') = settle (settle t l) l' :=
  foldl_append

theorem plain_tail (f : Frame) : Code f.tail := by
  have hinterval : Code f.interval := fun c hc => isQuote_of_isPlain (f.isPlain_interval c hc)
  intro c hc
  simp only [Frame.tail, mem_cons, mem_append, not_mem_nil, or_false] at hc
  rcases hc with rfl | rfl | hc | rfl
  · rfl
  · rfl
  · exact hinterval c hc
  · rfl

theorem plain_opening (f : Frame) : Code f.opening := by
  obtain ⟨v, hopening, -, -, hname⟩ := exists_name f.opening_eq
  rw [hopening]
  exact forall_mem_append.2 ⟨fun c hc => isQuote_of_class (hname c hc) (by decide) (by decide),
    by decide⟩

theorem DateSum.plain_text (e : DateSum) : Code e.text := by
  induction e with
  | atom a => exact fun c hc => (a.plain c hc).1
  | call f e ih =>
    exact forall_mem_append.2 ⟨plain_opening f, forall_mem_append.2 ⟨ih, plain_tail f⟩⟩

/-- In a sum that stands between texts without quotes, every call is replaced: those inside a call
come before it, and its own place is still where it was. -/
theorem settle_sum (e : DateSum) (pre post : Text) (hpre : Code pre) (hpost : Code post) :
    settle (pre ++ (e.text ++ post)) (e.starts pre.size).reverse = pre ++ (e.target ++ post) := by
  induction e generalizing pre post with
  | atom a => rfl
  | call f e ih =>
    have hinner := ih (pre ++ f.opening) (f.tail ++ post)
      (forall_mem_append.2 ⟨hpre, plain_opening f⟩) (forall_mem_append.2 ⟨plain_tail f, hpost⟩)
    rw [size_append] at hinner
    have htext :
        pre ++ ((DateSum.call f e).text ++ post) = pre ++ f.opening ++
          (e.text ++ (f.tail ++ post)) := by
      simp [DateSum.text]
    rw [DateSum.starts, reverse_cons, settle_append, htext, hinner, append_assoc]
    show (dateCall? _ _ _).getD _ = _
    rw [dateCall?_frame f (isArgument_target e) hpre hpost]
    rfl

theorem Document.plain_text (d : Document) : Code d.text := by
  induction d with
  | last s => exact s.plain
  | call s _ f e rest ih =>
    exact forall_mem_append.2 ⟨s.plain, forall_mem_append.2 ⟨(DateSum.call f e).plain_text, ih⟩⟩

theorem Document.plain_target (d : Document) : Code d.target := by
  induction d with
  | last s => exact s.plain
  | call s _ f e rest ih =>
    exact forall_mem_append.2
      ⟨s.plain, forall_mem_append.2 ⟨(isArgument_target (.call f e)).plain, ih⟩⟩

/-- In a document the sums behind a call are replaced before it. -/
theorem settle_document (d : Document) (pre : Text) (hpre : Code pre) :
    settle (pre ++ d.text) (d.starts pre.size).reverse = pre ++ d.target := by
  induction d generalizing pre with
  | last s => rfl
  | call s edge f e rest ih =>
    have hfront : Code (pre ++ s.text) := forall_mem_append.2 ⟨hpre, s.plain⟩
    have hrest := ih (pre ++ s.text ++ (DateSum.call f e).text)
      (forall_mem_append.2 ⟨hfront, (DateSum.call f e).plain_text⟩)
    have hsum := settle_sum (DateSum.call f e) (pre ++ s.text) rest.target hfront rest.plain_target
    rw [size_append, size_append] at hrest
    rw [size_append] at hsum
    have htext : pre ++ (Document.call s edge f e rest).text
        = pre ++ s.text ++ (DateSum.call f e).text ++ rest.text := by
      simp [Document.text]
    rw [Document.starts, reverse_append, settle_append, htext, hrest,
      append_assoc (pre ++ s.text), hsum]
    simp [Document.target]

/-! ### The places of calls -/

/-- Where a parenthesis opens in a sum, a call begins. -/
theorem DateSum.exists_start (e : DateSum) {y : Text} (h : e.text = x ++ '(' :: y) :
    ∃ x₀ v d, x = x₀ ++ v ∧ lower (v ++ ['(']) = lower d.call ∧
      ∀ n, (n + size x₀, d) ∈ e.starts n := by
  induction e generalizing x y with
  | atom a =>
    have hmem : '(' ∈ a.text := by rw [show a.text = x ++ '(' :: y from h]; simp
    exact absurd rfl (a.plain _ hmem).2.2.1
  | call f e ih =>
    obtain ⟨v, hopening, -, -, hname⟩ := exists_name f.opening_eq
    have hparen : '(' ∉ f.tail := by
      intro hmem
      simp only [Frame.tail, mem_cons, mem_append, not_mem_nil, or_false] at hmem
      rcases hmem with h | h | h | h
      · cases h
      · cases h
      · exact absurd (f.isPlain_interval _ h) (by decide)
      · cases h
    rcases append_cons_eq_append (show _ = f.opening ++ (e.text ++ f.tail) from h.symm) with
      ⟨z, hz, -⟩ | ⟨z, rfl, hz⟩
    · -- the parenthesis of the call itself
      rw [hopening] at hz
      rcases append_cons_eq_append hz.symm with ⟨z', rfl, -⟩ | ⟨z', rfl, hz'⟩
      · exact absurd (hname '(' (by simp)) (by decide)
      · obtain rfl : z' = [] := by
          cases z' with
          | nil => rfl
          | cons c z' => simp at hz'
        refine ⟨[], v, f.direction, by simp, hopening ▸ f.opening_eq, fun n => ?_⟩
        exact mem_cons_self
    · rcases append_cons_eq_append hz.symm with ⟨z', hz', -⟩ | ⟨z', rfl, hz'⟩
      · obtain ⟨x₀, v', d, rfl, hlower, hmem⟩ := ih hz'
        refine ⟨f.opening ++ x₀, v', d, by rw [append_assoc], hlower, fun n => ?_⟩
        rw [size_append, ← Nat.add_assoc]
        exact mem_cons_of_mem _ (hmem _)
      · exact absurd (hz' ▸ mem_append_right _ mem_cons_self) hparen

theorem text_call (f : Frame) (e : DateSum) : ∃ front, (DateSum.call f e).text = front ++ [')'] :=
  ⟨f.opening ++ (e.text ++ ',' :: ' ' :: f.interval), by simp [DateSum.text, Frame.tail]⟩

/-- Where a call begins in a document, it is one of its calls. -/
theorem Document.mem_starts (doc : Document) {a b : Text} (h : doc.text = a ++ (w ++ b))
    (hw : w.lower = d.call.lower) (n : Nat) : (n + a.size, d) ∈ doc.starts n := by
  induction doc generalizing a n with
  | last s => exact absurd hw (s.callFree a w b h d)
  | call s edge f e rest ih =>
    obtain ⟨v, rfl, hlength, -, hname⟩ := exists_name hw
    have hcut : s.text ++ ((DateSum.call f e).text ++ rest.text) = (a ++ v) ++ '(' :: b := by
      rw [show s.text ++ ((DateSum.call f e).text ++ rest.text) = _ from h]
      simp
    rcases append_cons_eq_append hcut.symm with ⟨z, hz, -⟩ | ⟨z, hfront, hz⟩
    · exact absurd hw (s.callFree a _ z (by simp [hz]) d)
    rcases append_cons_eq_append hz.symm with ⟨z', hz', -⟩ | ⟨z', rfl, hz'⟩
    · -- the call is one of the sum
      obtain ⟨x₀, v', d', rfl, hlower, hmem⟩ := (DateSum.call f e).exists_start hz'
      obtain ⟨v'', heq, hlength', -⟩ := exists_name hlower
      obtain rfl := append_cancel_right heq
      rw [← append_assoc] at hfront
      obtain ⟨rfl, rfl⟩ := append_inj' hfront (hlength.trans hlength'.symm)
      obtain rfl : d = d' := by
        have hcalls : d.call.lower = d'.call.lower := hw.symm.trans hlower
        revert hcalls
        cases d <;> cases d' <;> decide
      rw [size_append, ← Nat.add_assoc]
      exact mem_append_left _ (hmem _)
    · -- the call stands behind the sum, which ends with a parenthesis
      obtain ⟨front, hsum⟩ := text_call f e
      have hclose : a ++ v = (s.text ++ front) ++ ')' :: z' := by rw [hfront, hsum]; simp
      rcases append_cons_eq_append hclose.symm with ⟨z, rfl, rfl⟩ | ⟨z, -, rfl⟩
      · have hrest :=
          ih (a := z) (by simpa using hz') (n + s.text.size + (DateSum.call f e).text.size)
        have hsize : n + size (s.text ++ front ++ ')' :: z)
            = n + s.text.size + (DateSum.call f e).text.size + size z := by
          rw [hsum]
          simp only [size_append, size_cons, size_nil]
          omega
        rw [hsize]
        exact mem_append_right _ hrest
      · exact absurd (hname ')' (by simp)) (by decide)

/-- The places of the calls of a sum are calls. -/
theorem DateSum.begins_of_mem_starts (e : DateSum) (pre post : Text)
    (hedge : pre.getLast?.any isNameChar = false) (h : (n, d) ∈ e.starts pre.size) :
    Begins (pre ++ (e.text ++ post)) n d.call := by
  induction e generalizing pre post with
  | atom a => cases h
  | call f e ih =>
    rcases mem_cons.1 h with heq | hmem
    · cases heq
      exact ⟨pre, f.opening, e.text ++ f.tail ++ post, by simp [text], rfl, f.opening_eq, hedge⟩
    · obtain ⟨v, hopening, -⟩ := exists_name f.opening_eq
      have hlast : (pre ++ f.opening).getLast?.any isNameChar = false := by
        rw [hopening, ← append_assoc, getLast?_append]
        rfl
      rw [← size_append] at hmem
      have hbegins := ih (pre ++ f.opening) (f.tail ++ post) hlast hmem
      simpa [text] using hbegins

/-- A call begins at each of the places of a document. -/
theorem Document.begins_of_mem_starts (doc : Document) (pre : Text)
    (hedge : pre.getLast?.any isNameChar = false) (h : (n, d) ∈ doc.starts pre.size) :
    Begins (pre ++ doc.text) n d.call := by
  induction doc generalizing pre with
  | last s => cases h
  | call s edge f e rest ih =>
    rcases mem_append.1 h with hmem | hmem
    · have hlast : (pre ++ s.text).getLast?.any isNameChar = false := by
        rw [getLast?_append]
        cases hs : s.text.getLast? with
        | none => exact hedge
        | some c => rwa [hs] at edge
      rw [← size_append] at hmem
      have hbegins := (DateSum.call f e).begins_of_mem_starts (pre ++ s.text) rest.text hlast hmem
      rwa [append_assoc] at hbegins
    · obtain ⟨front, hsum⟩ := text_call f e
      have hlast : (pre ++ s.text ++ (DateSum.call f e).text).getLast?.any isNameChar = false := by
        rw [hsum, ← append_assoc, getLast?_append]
        rfl
      rw [← size_append, ← size_append] at hmem
      have hbegins := ih _ hlast hmem
      simpa [Document.text] using hbegins

theorem Frame.opening_pos (f : Frame) : 0 < f.opening.size := by
  obtain ⟨v, hopening, -, hv, -⟩ := exists_name f.opening_eq
  rw [hopening, size_append]
  omega

theorem DateSum.mem_starts_bounds (e : DateSum) (h : a ∈ e.starts n) :
    n ≤ a.1 ∧ a.1 < n + e.text.size := by
  induction e generalizing n with
  | atom _ => cases h
  | call f e ih =>
    have hsize : (call f e).text.size = f.opening.size + (e.text.size + f.tail.size) := by
      rw [text, size_append, size_append]
    have hpos := f.opening_pos
    rcases mem_cons.1 h with rfl | hmem
    · omega
    · have hbounds := ih hmem
      omega

theorem DateSum.pairwise_starts (e : DateSum) (n : Nat) :
    (e.starts n).Pairwise fun a b => a.1 < b.1 := by
  induction e generalizing n with
  | atom _ => exact .nil
  | call f e ih =>
    refine pairwise_cons.2 ⟨fun a ha => ?_, ih _⟩
    have hpos := f.opening_pos
    have hbounds := e.mem_starts_bounds ha
    omega

theorem Document.le_of_mem_starts (doc : Document) (h : a ∈ doc.starts n) : n ≤ a.1 := by
  induction doc generalizing n with
  | last _ => cases h
  | call s _ f e rest ih =>
    rcases mem_append.1 h with hmem | hmem
    · have hbounds := (DateSum.call f e).mem_starts_bounds hmem
      omega
    · have hle := ih hmem
      omega

theorem Document.pairwise_starts (doc : Document) (n : Nat) :
    (doc.starts n).Pairwise fun a b => a.1 < b.1 := by
  induction doc generalizing n with
  | last _ => exact .nil
  | call s _ f e rest ih =>
    refine pairwise_append.2 ⟨(DateSum.call f e).pairwise_starts _, ih _, fun a ha b hb => ?_⟩
    have hbounds := (DateSum.call f e).mem_starts_bounds ha
    have hle := rest.le_of_mem_starts hb
    omega

/-- The places of calls from the last to the first. -/
theorem sortedBy_calls (doc : Document) :
    sortedBy (fun a b => decide (b.1 ≤ a.1)) (allCalls Direction.call doc.text [.add, .subtract])
      = (doc.starts 0).reverse := by
  have hmem (a : Nat × Direction) :
      a ∈ allCalls Direction.call doc.text [.add, .subtract] ↔ a ∈ doc.starts 0 := by
    constructor
    · intro h
      obtain ⟨p, w, q, htext, hsize, hw, -⟩ := (begins_of_mem_allCalls h).1
      have hstart := doc.mem_starts htext hw 0
      rwa [hsize, Nat.zero_add] at hstart
    · intro h
      have hbegins := doc.begins_of_mem_starts [] rfl h
      refine mem_flatMap.2 ⟨a.2, by cases a.2 <;> simp,
        mem_map.2 ⟨a.1, (mem_calls_iff (isCallWord_direction _)).2 hbegins, rfl⟩⟩
  have hfound :=
    (pairwise_allCalls (m := doc.text) distinct_directions).imp fun {a b} hle => (show b.1 < a.1 by
    have hpos : 0 < b.2.call.size := by cases b.2 <;> decide
    omega)
  have hstarts := pairwise_reverse.2 (doc.pairwise_starts 0)
  refine List.Pairwise.eq_of_mem_iff (r := fun a b => b.1 < a.1) hfound hstarts fun a => ?_
  rw [mem_sortedBy, mem_reverse, hmem]

/-- Date arithmetic puts the target's words for every sum of a document and leaves the rest as it
is. -/
theorem dateArithmetic_document (doc : Document) : dateArithmetic doc.text = doc.target := by
  have hsettle := settle_document doc [] (by simp)
  show settle doc.text (sortedBy (fun a b => decide (b.1 ≤ a.1))
    (allCalls Direction.call (mask doc.text) [.add, .subtract])) = doc.target
  rw [Code.mask_eq doc.plain_text, sortedBy_calls]
  exact hsettle

/-- A text without quotes and opening parentheses. -/
def Segment.ofFlat (t : Text) (h : ∀ c ∈ t, isQuote c = false ∧ c ≠ '(') : Segment where
  text := t
  plain c hc := (h c hc).1
  callFree a w b ht d hw := by
    obtain ⟨v, rfl, -⟩ := exists_name hw
    exact (h '(' (by simp [ht])).2 rfl

/-- A difference in a sum. -/
theorem dateArithmetic_document_nested :
    let f : Frame := ⟨.add, "DATE_ADD(", by decide, ⟨false, "5", by decide, by decide⟩,
      ⟨"Hour_Minute", by decide, by decide⟩⟩
    let g : Frame := ⟨.subtract, "date_sub(", by decide, ⟨true, "3", by decide, by decide⟩,
      ⟨"day", by decide, by decide⟩⟩
    let doc : Document := .call (.ofFlat "SELECT " (by decide)) (by decide) f
      (.call g (.atom ⟨"d", by decide, by decide, by decide⟩))
        (.last (.ofFlat " FROM t" (by decide)))
    doc.text =
      "SELECT DATE_ADD(date_sub(d, INTERVAL -3 day), INTERVAL 5 Hour_Minute) FROM t".toList ∧
      dateArithmetic doc.text =
        "SELECT DATEADD(HOUR_MINUTE, 5, DATEADD(DAY, 3, d)) FROM t".toList := by
  intro f g doc
  have htarget :
      doc.target = "SELECT DATEADD(HOUR_MINUTE, 5, DATEADD(DAY, 3, d)) FROM t".toList := by decide
  exact ⟨by decide, (dateArithmetic_document doc).trans htarget⟩

end Functions

end Recast
