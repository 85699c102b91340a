import Recast.Proofs.Levels
import Recast.Proofs.WhereCalls

/-!
# Calls that are replaced

A rule says how certain calls begin and what is put for a call with given arguments (`Rule`). A pass
finds all places where such calls begin and then replaces the calls from the last to the first; a
call that the rule does not take stays as it is. When nothing that is put for a call gives rise to a
new one (`Rule.Lawful`), no call that can be replaced is left behind (`Lawful.not_redex_foldl`):
what stands between the parentheses of a call is settled when its turn comes.
-/

namespace Recast

open Literal Nesting Cursor Keyword List Text
open Option hiding guard

variable {a b new p q r rest s t v word x z : Text} {n : Nat} {args : List Text}

namespace Functions

/-! ### Where calls begin -/

/-- A word with which calls begin: it shows in a mask and ends in its only parenthesis. -/
structure IsCallWord (word : Text) : Prop where
  shows : Shows Char.toLower word = true
  last : word.getLast? = some '('
  plain : ∀ c ∈ word.dropLast, isPlain c.toLower = true

theorem isCallWord_direction (d : Direction) : IsCallWord d.call := by
  cases d <;> exact ⟨by decide, by decide, by decide⟩

theorem isCallWord_ifCall (spaced : Bool) : IsCallWord (ifCall spaced) := by
  cases spaced <;> exact ⟨by decide, by decide, by decide⟩

theorem IsCallWord.exists_eq {w : Text} (h : IsCallWord word) (hw : lower w = lower word) :
    ∃ v, w = v ++ ['('] ∧ ∀ c ∈ v, isPlain c := by
  have hword : word = word.dropLast ++ ['('] := (dropLast_append_getLast? _ h.last).symm
  rw [hword] at hw
  obtain ⟨v, rfl, hv⟩ := exists_of_lower_paren hw
  exact ⟨v, rfl, tells_toLower.plain sees_toLower hv h.plain⟩

theorem IsCallWord.size_pos (h : IsCallWord word) : 0 < word.size := by
  cases word with
  | nil => exact absurd h.last (by simp)
  | cons c r =>
    have hpos := Char.utf8Size_pos c
    rw [size_cons]
    omega

theorem isQuote_opening (hv : ∀ c ∈ v, isPlain c) : Code (v ++ ['(']) :=
  forall_mem_append.2 ⟨fun c hc => isQuote_of_isPlain (hv c hc), by decide⟩

theorem paren_not_mem (hv : ∀ c ∈ v, isPlain c) : '(' ∉ v :=
  fun hmem => absurd (hv _ hmem) (by decide)

theorem any_getLast?_of_append {p : Char → Bool} (h : (a ++ b).getLast?.any p = false) :
    b.getLast?.any p = false := by
  by_cases hb : b = []
  · rw [hb]
    rfl
  · rwa [getLast?_append_of_ne_nil _ hb] at h

theorem any_getLast?_append {p : Char → Bool} (ha : a.getLast?.any p = false)
    (hb : b.getLast?.any p = false) : (a ++ b).getLast?.any p = false := by
  by_cases hne : b = []
  · rwa [hne, append_nil]
  · rwa [getLast?_append_of_ne_nil _ hne]

theorem any_getLast?_opening (v : Text) : (v ++ ['(']).getLast?.any isNameChar = false := by
  rw [getLast?_concat]
  rfl

/-- A call of a word begins at an offset in the code of a text. -/
def BeginsAt (t : Text) (n : Nat) (word : Text) : Prop :=
  ∃ p w q, t = p ++ (w ++ q) ∧ p.size = n ∧ Closed p ∧ lower w = lower word ∧
    p.getLast?.any isNameChar = false

theorem beginsAt_of_le {s' : Text} (h : BeginsAt (p ++ s) n word) (hle : n + word.size ≤ p.size) :
    BeginsAt (p ++ s') n word := by
  obtain ⟨a, w, q, hcut, rfl, ha, hw, hlast⟩ := h
  have hsize : size (a ++ w) ≤ p.size := by rwa [size_append, ← size_lower w, hw, size_lower]
  obtain ⟨y, rfl, -⟩ := exists_append_of_size_le (show (a ++ w) ++ q = p ++ s by simp [hcut]) hsize
  exact ⟨a, w, y ++ s', by simp, rfl, ha, hw, hlast⟩

/-- A call begins in a mask where it begins in the code. -/
theorem begins_mask_iff (hword : IsCallWord word) : Begins (mask t) n word ↔ BeginsAt t n word := by
  constructor
  · rintro ⟨p, w, q, hm, rfl, hw, hlast⟩
    obtain ⟨v, rfl, hv⟩ := hword.exists_eq hw
    have hat : At (mask t) ⟨p.size, p.getLast?, v ++ ['('] ++ q⟩ := ⟨p, hm, rfl, rfl⟩
    have hread : Reads ⟨p.size, p.getLast?, v ++ ['('] ++ q⟩ (v ++ ['('])
        ⟨p.size + size (v ++ ['(']), (v ++ ['(']).getLast?.or p.getLast?, q⟩ := ⟨rfl, rfl, rfl⟩
    have hclear := (hat.clear_of_word hread sees_toLower hw hword.shows).1
    obtain ⟨a, b, rfl, ha, hsize, -⟩ :=
      hclear.exists_stretch hat hread (by simp) (isQuote_opening hv)
    rw [mask_append_code ha (by simp) (isQuote_opening hv)] at hm
    obtain ⟨rfl, -⟩ := append_inj_of_size hm ((size_mask a).trans hsize)
    exact ⟨a, v ++ ['('], b, rfl, (size_mask a).symm, ha, hw, by rwa [ha.getLast?_mask] at hlast⟩
  · rintro ⟨p, w, q, rfl, rfl, hp, hw, hlast⟩
    obtain ⟨v, rfl, hv⟩ := hword.exists_eq hw
    exact ⟨mask p, v ++ ['('], mask q, mask_append_code hp (by simp) (isQuote_opening hv) q,
      size_mask p, hw, by rwa [hp.getLast?_mask]⟩

theorem opening_unique (hv : '(' ∉ v) (hz : '(' ∉ z) (h : v ++ '(' :: q = z ++ '(' :: r) :
    v = z ∧ q = r := by
  rcases append_cons_eq_append h.symm with ⟨u, rfl, -⟩ | ⟨u, rfl, hu⟩
  · exact absurd (by simp) hv
  · cases u with
    | nil => exact ⟨by simp, (cons.inj hu).2⟩
    | cons c u =>
      obtain ⟨rfl, -⟩ := cons.inj hu
      exact absurd (by simp) hz

/-- A call that begins inside the opening of another of the same length is that call. -/
theorem eq_of_overlap {v' : Text} (h : p ++ (v ++ '(' :: q) = a ++ (v' ++ '(' :: r)) (hv : '(' ∉ v)
    (hv' : '(' ∉ v') (hsize : v.size = v'.size) (hle : a.size ≤ p.size)
    (hlt : p.size < a.size + v'.size + 1) : a.size = p.size := by
  rcases append_eq_append_iff.1 h with ⟨s, rfl, hs⟩ | ⟨s, rfl, hs⟩
  · rw [size_append] at hle ⊢
    omega
  · rcases append_cons_eq_append hs with ⟨z, rfl, -⟩ | ⟨z, rfl, hz⟩
    · rw [size_append, size_append, size_cons] at hlt
      have hpos := Char.utf8Size_pos '('
      omega
    · -- what is left of the opening of the first is the opening of the second
      obtain ⟨rfl, -⟩ := opening_unique hv (fun hmem => hv' (mem_append_right s hmem)) hz
      rw [size_append] at hsize ⊢
      omega

/-- Two calls of a word do not overlap, so none is passed over in the search. -/
theorem mem_calls_iff {m : Text} (hword : IsCallWord word) :
    n ∈ calls m word ↔ Begins m n word := by
  refine ⟨begins_of_mem_calls, ?_⟩
  rintro ⟨p, w, q, rfl, rfl, hw, hedge⟩
  have hne : word.isEmpty = false := by
    cases word with
    | nil => exact absurd hword.last (by simp)
    | cons c r => rfl
  have hsize {w : Text} (hw : lower w = lower word) : w.size = word.size := by
    rw [← size_lower, hw, size_lower]
  have hlen := hsize hw
  obtain ⟨v, rfl, hv⟩ := hword.exists_eq hw
  have hat : At (p ++ (v ++ ['('] ++ q)) ⟨p.size, p.getLast?, v ++ ['('] ++ q⟩ := ⟨p, rfl, rfl, rfl⟩
  obtain ⟨e, hread, -⟩ := exists_plain? (c := ⟨p.size, p.getLast?, v ++ ['('] ++ q⟩) rfl hw
  let clause (c : Cursor) : Option (Nat × Cursor) := do return (c.offset, ← c.plain? word)
  have hclause : clause ⟨p.size, p.getLast?, v ++ ['('] ++ q⟩ = some (p.size, e) := by
    show (plain? _ _ >>= _) = _
    rw [hread]
    rfl
  obtain ⟨k, b, e', hb, hread', hmem, hplace⟩ := hat.exists_covering (by simp) hclause
  obtain ⟨e'', hplain, heq⟩ := bind_eq_some_iff.1 hread'
  cases heq
  have hoffset : b.offset = p.size := by
    rcases hplace with rfl | ⟨hle, hlt⟩
    · rfl
    · obtain ⟨a, htext, ha, -⟩ := hb
      obtain ⟨w', hw', hlower, -⟩ := plain?_reads hplain
      have hlen' := hsize hlower
      obtain ⟨v', rfl, hv'⟩ := hword.exists_eq hlower
      rw [hw'.rest] at htext
      rw [hw'.offset, size_append] at hlt
      rw [size_append] at hlen hlen'
      rw [ha] at hle hlt ⊢
      exact eq_of_overlap (by simpa using htext) (paren_not_mem hv) (paren_not_mem hv')
        (by omega) hle hlt
  refine mem_filter.2 ⟨?_, ?_⟩
  · rw [occurrences, hne, ← hoffset]
    exact hmem
  · rw [before_size_append, hedge]
    rfl

theorem mem_allCalls_iff {word : β → Text} {words : List β} (hall : ∀ b, b ∈ words)
    (hword : ∀ b, IsCallWord (word b)) {a : Nat × β} :
    a ∈ allCalls word (mask t) words ↔ BeginsAt t a.1 (word a.2) := by
  rw [← begins_mask_iff (hword a.2)]
  refine ⟨fun h => (begins_of_mem_allCalls h).1, fun h => ?_⟩
  exact mem_flatMap.2 ⟨a.2, hall _, mem_map.2 ⟨a.1, (mem_calls_iff (hword a.2)).2 h, rfl⟩⟩

/-! ### Arguments -/

theorem slice_enclosed (a v r : Text) :
    slice (a ++ '(' :: (v ++ ')' :: r)) ⟨a.size + 1, a.size + 1 + v.size⟩ = v := by
  have hsize : a.size + 1 = size (a ++ ['(']) := (size_append a ['(']).symm
  rw [hsize, show a ++ '(' :: (v ++ ')' :: r) = (a ++ ['(']) ++ v ++ ')' :: r by simp]
  exact slice_append _ _ _ rfl rfl

theorem after_enclosed (a v r : Text) :
    after (a ++ '(' :: (v ++ ')' :: r)) (a.size + 1 + v.size + 1) = r := by
  have hsize : a.size + 1 + v.size + 1 = size (a ++ ['('] ++ v ++ [')']) := by
    rw [size_append, size_append, size_append]
    rfl
  rw [hsize, show a ++ '(' :: (v ++ ')' :: r) = a ++ ['('] ++ v ++ [')'] ++ r by simp,
    after_size_append]

/-- The arguments of a call are read off what stands in its parentheses. -/
theorem arguments?_enclosed {inner : Text} (ha : Closed a) (hinner : Balanced inner) (r : Text) :
    arguments? (a ++ '(' :: (inner ++ ')' :: r)) (mask (a ++ '(' :: (inner ++ ')' :: r))) a.size
      = some (parts inner ',', a.size + 1 + inner.size) := by
  have hmask :
      mask (a ++ '(' :: (inner ++ ')' :: r)) = mask a ++ '(' :: (mask inner ++ ')' :: mask r) := by
    rw [mask_append_cons ha (by decide), mask_append_cons hinner.closed (by decide)]
  have hlevel : level? 0 (mask inner) = some 0 := by rw [level?_mask, hinner.codeLevel?]
  have hclose := closing?_of_level? hlevel (mask a) (mask r)
  rw [← hmask, size_mask, size_mask] at hclose
  rw [arguments?, hclose]
  show some (parts (slice _ _) ',', _) = _
  rw [slice_enclosed]

theorem exists_of_arguments? {opening close : Nat}
    (h : arguments? t (mask t) opening = some (args, close)) :
    ∃ a inner r : Text, t = a ++ '(' :: (inner ++ ')' :: r) ∧ a.size = opening ∧ Closed a ∧
      Balanced inner ∧ args = parts inner ',' ∧ close = a.size + 1 + inner.size := by
  obtain ⟨k, hclose, -⟩ := bind_eq_some_iff.1 h
  obtain ⟨a', v, r', hm, rfl, -, hv⟩ := exists_of_closing? hclose
  obtain ⟨a, b, rfl, ha, rfl, hb⟩ := exists_code hm (by decide) (by decide)
  obtain ⟨inner, r, rfl, hinner, rfl, -⟩ := exists_code hb (by decide) (by decide)
  have hbalanced := balanced_of_level? hinner hv
  rw [size_mask, arguments?_enclosed ha hbalanced r] at h
  cases h
  exact ⟨a, inner, r, rfl, (size_mask a).symm, ha, hbalanced, rfl, rfl⟩

/-- Where an argument stands: behind the parenthesis or a comma. -/
theorem exists_of_mem_parts (hx : x ∈ parts t ',') :
    ∃ a b, t = a ++ (x ++ b) ∧ Closed a ∧ a.getLast?.any isNameChar = false := by
  have hcuts := cuts_parts t
  generalize parts t ',' = ps at hx hcuts
  induction hcuts with
  | @last t _ =>
    rw [mem_singleton.1 hx]
    exact ⟨[], [], by simp, closed_nil, rfl⟩
  | @cons t rest ps hclosed _ _ _ ih =>
    rcases mem_cons.1 hx with rfl | hx
    · exact ⟨[], ',' :: rest, rfl, closed_nil, rfl⟩
    · obtain ⟨a, b, rfl, ha, hlast⟩ := ih hx
      have hcomma : Closed (',' :: a) := ha
      refine ⟨t ++ ',' :: a, b, by simp, hclosed.append hcomma, ?_⟩
      rw [getLast?_append_of_ne_nil _ (by simp)]
      cases a with
      | nil => rfl
      | cons c a => rwa [getLast?_cons_cons]

/-! ### Rules -/

/-- Calls that are replaced: how they begin, and what is put for a call with given arguments. -/
structure Rule (β : Type) where
  word : β → Text
  new? : β → List Text → Option Text

namespace Rule

variable (R : Rule β)

/-- A call for which `new` is put stands at the start of `s`, with `rest` behind it. -/
def Applies (b : β) (s new rest : Text) : Prop :=
  ∃ w inner, s = w ++ (inner ++ ')' :: rest) ∧ lower w = lower (R.word b) ∧ Balanced inner ∧
    R.new? b (parts inner ',') = some new

/-- `r` is `t` with the call at a place replaced. -/
def Rewrites (t : Text) (a : Nat × β) (r : Text) : Prop :=
  ∃ p s new rest, t = p ++ s ∧ p.size = a.1 ∧ Closed p ∧ p.getLast?.any isNameChar = false ∧
    R.Applies a.2 s new rest ∧ r = p ++ (new ++ rest)

/-- A call that can be replaced begins at a place. -/
def Redex (t : Text) (a : Nat × β) : Prop := ∃ r, R.Rewrites t a r

/-- The call at a place replaced, if the rule takes its arguments. -/
def rewrite? (t : Text) (a : Nat × β) : Option Text :=
  (arguments? t (mask t) (a.1 + (R.word a.2).size - 1)).bind fun c =>
    (R.new? a.2 c.1).map (t.splice ⟨a.1, c.2 + 1⟩ ·)

/-- No call begins in a text, whatever stands behind it. -/
def Barren (F : Text) : Prop :=
  ∀ f₁ f₂ z b w q, F = f₁ ++ f₂ → f₂ ≠ [] → f₂ ++ z = w ++ q → lower w ≠ lower (R.word b)

/-- No call that begins in front of a text reaches into it. -/
def Rebuffs (F : Text) : Prop :=
  ∀ z b v w q, v ≠ [] → w ≠ [] → F ++ z = w ++ q → lower (v ++ w) ≠ lower (R.word b)

/-- A text made of arguments, without the blanks around them, in a frame in which no call begins. -/
inductive Framed (args : List Text) : Text → Prop
  | last {F : Text} : R.Barren F → Framed args F
  | arg {F x r : Text} : R.Barren F → Closed F → x ∈ args → R.Rebuffs r → Framed args r →
    Framed args (F ++ (x.trim ++ r))

/-- The function `f` replaces calls by the rule, and what is put for a call gives rise to no other:
it is made of the arguments, and no call that begins in front of it can be replaced. -/
structure Lawful (words : List β) (f : Text → Nat × β → Option Text) : Prop where
  all : ∀ b, b ∈ words
  distinct : Distinct R.word words
  word : ∀ b, IsCallWord (R.word b)
  step : ∀ t a, BeginsAt t a.1 (R.word a.2) → f t a = R.rewrite? t a
  framed : ∀ b args new, (∀ x ∈ args, Balanced x) → R.new? b args = some new → R.Framed args new
  closed : ∀ b args new, (∀ x ∈ args, Balanced x) → R.new? b args = some new → Closed new
  front : ∀ b inner new, Balanced inner → R.new? b (parts inner ',') = some new →
    ∀ b' (v z new' rest : Text), v ≠ [] → v.size < (R.word b').size →
    ¬ R.Applies b' (v ++ (new ++ z)) new' rest

variable {R} {words : List β} {f : Text → Nat × β → Option Text}

theorem Redex.beginsAt {a : Nat × β} (h : R.Redex t a) : BeginsAt t a.1 (R.word a.2) := by
  obtain ⟨r, p, s, new, rest, rfl, hsize, hp, hlast, ⟨w, inner, rfl, hw, -⟩, -⟩ := h
  exact ⟨p, w, _, rfl, hsize, hp, hw, hlast⟩

theorem splice_enclosed (p v inner rest new : Text) :
    splice (p ++ ((v ++ ['(']) ++ (inner ++ ')' :: rest)))
      ⟨p.size, (p ++ v).size + 1 + inner.size + 1⟩ new
      = p ++ (new ++ rest) := by
  have hbehind := after_enclosed (p ++ v) inner rest
  have htext :
      p ++ ((v ++ ['(']) ++ (inner ++ ')' :: rest)) = p ++ v ++ '(' :: (inner ++ ')' :: rest) := by
        simp
  rw [splice, before_size_append, htext, hbehind, append_assoc]

/-- A call is replaced as the rule says. -/
theorem rewrite?_eq_some_iff (hword : ∀ b, IsCallWord (R.word b)) {a : Nat × β}
    (hbegins : BeginsAt t a.1 (R.word a.2)) : R.rewrite? t a = some r ↔ R.Rewrites t a r := by
  have hsize {w v : Text} (hw : lower w = lower (R.word a.2)) (hv : w = v ++ ['(']) :
      (R.word a.2).size = v.size + 1 := by
    rw [← size_lower, ← hw, size_lower, hv, size_append]
    rfl
  constructor
  · intro h
    obtain ⟨c, hargs, h⟩ := bind_eq_some_iff.1 h
    obtain ⟨new, hnew, rfl⟩ := map_eq_some_iff.1 h
    obtain ⟨p, w, q, rfl, hp, hclosed, hw, hedge⟩ := hbegins
    obtain ⟨v, hv, -⟩ := (hword a.2).exists_eq hw
    rw [hsize hw hv] at hargs
    obtain ⟨a', inner, rest, hcut, ha', -, hinner, hparts, hclose⟩ := exists_of_arguments? hargs
    have hcut' : (p ++ v) ++ '(' :: q = a' ++ '(' :: (inner ++ ')' :: rest) := by
      rw [← hcut, hv]; simp
    obtain ⟨rfl, hq⟩ := append_inj_of_size hcut' (by rw [size_append]; omega)
    obtain rfl : q = inner ++ ')' :: rest := (cons.inj hq).2
    refine ⟨p, _, new, rest, rfl, hp, hclosed, hedge,
      ⟨w, inner, rfl, hw, hinner, hparts ▸ hnew⟩, ?_⟩
    rw [hclose, ← hp, hv]
    exact splice_enclosed p v inner rest new
  · rintro ⟨p, s, new, rest, rfl, hp, hclosed, -, ⟨w, inner, rfl, hw, hinner, hnew⟩, rfl⟩
    obtain ⟨v, rfl, hv⟩ := (hword a.2).exists_eq hw
    have hargs :=
      arguments?_enclosed (a := p ++ v) (hclosed.append (balanced_of_isPlain hv).closed) hinner rest
    have hopening : a.1 + (R.word a.2).size - 1 = size (p ++ v) := by
      rw [hsize hw rfl, size_append]
      omega
    have htext :
        p ++ ((v ++ ['(']) ++ (inner ++ ')' :: rest)) =
          p ++ v ++ '(' :: (inner ++ ')' :: rest) := by simp
    rw [rewrite?, hopening, htext, hargs, bind_some, hnew, map_some, ← htext, ← hp, splice_enclosed]

/-- A call that begins in a balanced text, and whose opening it holds, is a call whatever stands
behind. -/
theorem Applies.of_balanced (hword : ∀ b, IsCallWord (R.word b)) {x₁ x₂ : Text} {b : β}
    (hx : Balanced (x₁ ++ x₂)) (hx₁ : Closed x₁) (hne : x₂ ≠ []) (hr : R.Rebuffs r)
    (h : R.Applies b (x₂ ++ (r ++ z)) new rest) (z' : Text) :
    ∃ rest', R.Applies b (x₂ ++ z') new rest' := by
  obtain ⟨w, inner, hcut, hw, hinner, hnew⟩ := h
  obtain ⟨y, rfl, hy⟩ : ∃ y, x₂ = w ++ y ∧ y ++ (r ++ z) = inner ++ ')' :: rest := by
    rcases append_eq_append_iff.1 hcut with ⟨w₂, rfl, hw₂⟩ | ⟨y, rfl, hy⟩
    · cases w₂ with
      | nil => exact ⟨[], by simp, hw₂⟩
      | cons c w₂ => exact absurd hw (hr z b x₂ (c :: w₂) _ hne (by simp) hw₂)
    · exact ⟨y, rfl, hy.symm⟩
  obtain ⟨v, rfl, hv⟩ := (hword b).exists_eq hw
  have hopen : Balanced ((x₁ ++ v) ++ '(' :: y) := by simpa using hx
  obtain ⟨rest', rfl, -⟩ :=
    hopen.exists_closing (hx₁.append (balanced_of_isPlain hv).closed) hinner hy
  exact ⟨rest' ++ z', v ++ ['('], inner, by simp, hw, hinner, hnew⟩

/-- A call that begins in what is put for another begins in one of the arguments. -/
theorem Framed.exists_arg (hword : ∀ b, IsCallWord (R.word b)) (h : R.Framed args new)
    (hargs : ∀ x ∈ args, Balanced x) {u new' : Text} {b : β} (hcut : new ++ z = u ++ s)
    (hlt : u.size < new.size) (hu : Closed u) (hedge : u.getLast?.any isNameChar = false)
    (happlies : R.Applies b s new' rest) :
    ∃ x ∈ args, ∃ x₁ x₂ : Text, x.trim = x₁ ++ x₂ ∧ Closed x₁ ∧ x₁.getLast?.any isNameChar = false ∧
      ∀ z', ∃ rest', R.Applies b (x₂ ++ z') new' rest' := by
  have hbarren {F z u s : Text} (hF : R.Barren F) (hcut : F ++ z = u ++ s) (hlt : u.size < F.size) :
      ¬ R.Applies b s new' rest := by
    rintro ⟨w, inner, rfl, hw, -⟩
    obtain ⟨f₂, rfl, hf₂⟩ := exists_append_of_size_le hcut.symm (Nat.le_of_lt hlt)
    have hne : f₂ ≠ [] := by
      rintro rfl
      simp at hlt
    exact hF u f₂ z b w _ rfl hne hf₂.symm hw
  induction h generalizing u with
  | last hF => exact absurd happlies (hbarren hF hcut hlt)
  | @arg F x r hF hclosed hx hr _ ih =>
    rw [append_assoc, append_assoc] at hcut
    rcases Nat.lt_or_ge u.size F.size with hsize | hsize
    · exact absurd happlies (hbarren hF hcut hsize)
    obtain ⟨u', rfl, hcut'⟩ := exists_append_of_size_le hcut hsize
    rw [hclosed.append_iff] at hu
    have hedge' := any_getLast?_of_append hedge
    rcases Nat.lt_or_ge u'.size x.trim.size with hsize' | hsize'
    · obtain ⟨x₂, hx₂, rfl⟩ := exists_append_of_size_le hcut'.symm (Nat.le_of_lt hsize')
      have hne : x₂ ≠ [] := by
        rintro rfl
        simp [hx₂] at hsize'
      exact ⟨x, hx, u', x₂, hx₂, hu, hedge',
        happlies.of_balanced hword (hx₂ ▸ (hargs x hx).trim) hu hne hr⟩
    · obtain ⟨u'', rfl, hcut''⟩ := exists_append_of_size_le hcut' hsize'
      rw [(hargs x hx).trim.closed.append_iff] at hu
      refine ih hcut'' ?_ hu (any_getLast?_of_append hedge')
      simp only [size_append] at hlt
      omega

/-- After a call is replaced, a call that can be replaced begins in front of it, opening included,
or there was one behind its opening before. -/
theorem Lawful.le_or_exists_redex (h : R.Lawful words f) {b : β} (hp : Closed p)
    (hedge : p.getLast?.any isNameChar = false) (happlies : R.Applies b s new rest) {a : Nat × β}
    (hredex : R.Redex (p ++ (new ++ rest)) a) :
    a.1 + (R.word a.2).size ≤ p.size ∨ ∃ a', R.Redex (p ++ s) a' ∧ p.size < a'.1 := by
  obtain ⟨w, inner, rfl, hw, hinner, hnew⟩ := happlies
  obtain ⟨v, rfl, hv⟩ := (h.word b).exists_eq hw
  obtain ⟨_, p', s', new', rest', hcut, hsize, hp', hedge', happlies', -⟩ := hredex
  have hargs : ∀ x ∈ parts inner ',', Balanced x :=
    fun x hx => balanced_of_mem_parts hinner.closed (by rw [level?_mask, hinner.codeLevel?]) hx
  have hopening : Closed (v ++ ['(']) := Code.closed (isQuote_opening hv)
  rcases Nat.lt_or_ge p'.size p.size with hlt | hge
  · -- the call begins in front of the one that is replaced
    obtain ⟨x, rfl, rfl⟩ := exists_append_of_size_le hcut.symm (Nat.le_of_lt hlt)
    rw [size_append] at hlt ⊢
    refine .inl (Nat.le_of_not_lt fun hover => ?_)
    refine h.front b inner new hinner hnew a.2 x rest new' rest' ?_ (by omega) happlies'
    rintro rfl
    simp at hlt
  obtain ⟨u, rfl, hcut'⟩ := exists_append_of_size_le hcut hge
  rw [hp.append_iff] at hp'
  have hlast' := any_getLast?_of_append hedge'
  refine .inr ?_
  rcases Nat.lt_or_ge u.size new.size with hlt | hle
  · -- it begins in what is put
    obtain ⟨x, hx, x₁, x₂, htrim, hx₁, hlast, hall⟩ :=
      (h.framed b _ new hargs hnew).exists_arg h.word hargs hcut' hlt hp' hlast' happlies'
    obtain ⟨i₁, i₂, rfl, hi₁, hlast₁⟩ := exists_of_mem_parts hx
    obtain ⟨lead, trail, hx', htrimmed⟩ := trimmed_trim x
    rw [htrim] at hx'
    obtain ⟨rest'', happlies''⟩ := hall (trail ++ (i₂ ++ ')' :: rest))
    have hlead : Closed lead := (code_of_isBlank htrimmed.leads).closed
    have hlastLead : lead.getLast?.any isNameChar = false :=
      (any_eq_false _ _).2 fun c hc => by
        exact isNameChar_of_isBlank (htrimmed.leads c (mem_of_getLast? hc))
    refine ⟨(size (p ++ ((v ++ ['(']) ++ (i₁ ++ (lead ++ x₁)))), a.2),
      ⟨_, _, x₂ ++ (trail ++ (i₂ ++ ')' :: rest)), new', rest'', ?_, rfl,
        hp.append (hopening.append (hi₁.append (hlead.append hx₁))), ?_, happlies'', rfl⟩, ?_⟩
    · nth_rewrite 1 [hx']
      simp
    · exact any_getLast?_append hedge (any_getLast?_append (any_getLast?_opening v)
        (any_getLast?_append hlast₁ (any_getLast?_append hlastLead hlast)))
    · simp only [size_append, size_cons]
      have hpos := Char.utf8Size_pos '('
      omega
  · -- it begins behind the call
    obtain ⟨u', rfl, rfl⟩ := exists_append_of_size_le hcut' hle
    rw [(h.closed b _ new hargs hnew).append_iff] at hp'
    have hclose : Closed (')' :: u') := hp'
    refine ⟨(size (p ++ ((v ++ ['(']) ++ (inner ++ ')' :: u'))), a.2),
      ⟨_, _, s', new', rest', by simp, rfl,
        hp.append (hopening.append (hinner.closed.append hclose)), ?_, happlies', rfl⟩, ?_⟩
    · refine any_getLast?_append hedge (any_getLast?_append (any_getLast?_opening v) ?_)
      rw [append_cons]
      refine any_getLast?_append ?_ (any_getLast?_of_append hlast')
      rw [getLast?_concat]
      rfl
    · simp only [size_append, size_cons]
      have hpos := Char.utf8Size_pos '('
      omega

/-! ### Runs -/

/-- What holds while calls are replaced from the last to the first: those in the list are still to
come, all calls in front of one of them among them, and no other call can be replaced. -/
structure Pending (R : Rule β) (t : Text) (l : List (Nat × β)) : Prop where
  sorted : l.Pairwise fun a b => b.1 + (R.word b.2).size ≤ a.1
  begins : ∀ a ∈ l, BeginsAt t a.1 (R.word a.2)
  front :
      ∀ a ∈ l, ∀ b : Nat × β, BeginsAt t b.1 (R.word b.2) → b.1 + (R.word b.2).size ≤ a.1 → b ∈ l
  redex : ∀ a, R.Redex t a → a ∈ l

/-- Replacing the last call leaves the others to come. -/
theorem Pending.step (h : R.Lawful words f) {a : Nat × β} {l : List (Nat × β)}
    (hpending : R.Pending t (a :: l)) : R.Pending ((f t a).getD t) l := by
  obtain ⟨hle, hsorted⟩ := pairwise_cons.1 hpending.sorted
  have hbegins := hpending.begins a (by simp)
  have htail {b : Nat × β} (hb : b ∈ a :: l) (hlt : b.1 < a.1) : b ∈ l := by
    rcases mem_cons.1 hb with rfl | hb
    · exact absurd hlt (Nat.lt_irrefl _)
    · exact hb
  have hpos (b : Nat × β) := (h.word b.2).size_pos
  rcases hcall : f t a with _ | r
  · refine ⟨hsorted, (forall_mem_cons.1 hpending.begins).2, fun b hb c hc hend => ?_,
      fun b hb => ?_⟩
    · have hab := hle b hb
      have hc' := hpos c
      exact htail (hpending.front b (by simp [hb]) c hc hend) (by omega)
    · rcases mem_cons.1 (hpending.redex b hb) with rfl | hmem
      · obtain ⟨r, hr⟩ := hb
        simp [getD_none, ← rewrite?_eq_some_iff h.word hbegins, ← h.step t b hbegins, hcall] at hr
      · exact hmem
  · rw [h.step t a hbegins, rewrite?_eq_some_iff h.word hbegins] at hcall
    obtain ⟨p, s, new, rest, rfl, hsize, hp, hedge, happlies, rfl⟩ := hcall
    refine ⟨hsorted, fun b hb => ?_, fun b hb c hc hend => ?_, fun b hb => ?_⟩
    · exact beginsAt_of_le (hpending.begins b (by simp [hb])) (hsize ▸ hle b hb)
    · have hab := hle b hb
      have hc' := hpos c
      exact htail (hpending.front b (by simp [hb]) c (beginsAt_of_le hc (by omega)) hend) (by omega)
    · rcases h.le_or_exists_redex hp hedge happlies hb with hend | ⟨b', hb', hlt⟩
      · have hc' := hpos b
        exact htail (hpending.front a (by simp) b (beginsAt_of_le hb.beginsAt hend) (by omega))
          (by omega)
      · rcases mem_cons.1 (hpending.redex b' hb') with rfl | hmem
        · omega
        · have := hle b' hmem
          omega

theorem Pending.not_redex_foldl (h : R.Lawful words f) {l : List (Nat × β)}
    (hpending : R.Pending t l) (a : Nat × β) :
    ¬ R.Redex (l.foldl (fun t a => (f t a).getD t) t) a := by
  induction l generalizing t with
  | nil => exact fun hredex => absurd (hpending.redex a hredex) (by simp)
  | cons b l ih => exact ih (hpending.step h)

theorem foldl_of_not_redex (h : R.Lawful words f) (hnone : ∀ a, ¬ R.Redex t a) {l : List (Nat × β)}
    (hl : ∀ a ∈ l, BeginsAt t a.1 (R.word a.2)) : l.foldl (fun t a => (f t a).getD t) t = t := by
  induction l with
  | nil => rfl
  | cons a l ih =>
    have hbegins := hl a (by simp)
    have hcall : f t a = none := by
      refine eq_none_iff_forall_ne_some.2 fun r hr => hnone a ⟨r, ?_⟩
      rwa [← rewrite?_eq_some_iff h.word hbegins, ← h.step t a hbegins]
    rw [foldl_cons, hcall]
    exact ih (forall_mem_cons.1 hl).2

theorem Lawful.pending (h : R.Lawful words f) (t : Text) :
    R.Pending t (sortedBy (fun a b => decide (b.1 ≤ a.1)) (allCalls R.word (mask t) words)) := by
  have hmem {a : Nat × β} :
      a ∈ sortedBy (fun a b => decide (b.1 ≤ a.1)) (allCalls R.word (mask t) words) ↔
      BeginsAt t a.1 (R.word a.2) := mem_sortedBy.trans (mem_allCalls_iff h.all h.word)
  exact ⟨pairwise_allCalls h.distinct, fun a ha => hmem.1 ha, fun _ _ b hb _ => hmem.2 hb,
    fun a ha => hmem.2 ha.beginsAt⟩

theorem Lawful.foldl_foldl (h : R.Lawful words f) {run : Text → Text}
    (hrun : ∀ t,
      run t = (sortedBy (fun a b => decide (b.1 ≤ a.1)) (allCalls R.word (mask t) words)).foldl
      (fun t a => (f t a).getD t) t) (t : Text) : run (run t) = run t := by
  have hnone (a : Nat × β) : ¬ R.Redex (run t) a := by
    rw [hrun t]
    exact (h.pending t).not_redex_foldl h a
  rw [hrun (run t)]
  exact foldl_of_not_redex h hnone (h.pending (run t)).begins

end Rule

end Functions

end Recast
