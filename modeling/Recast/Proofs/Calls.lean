import Recast.Proofs.Fronts
import Recast.Proofs.Phrases

/-!
# Calls that are gone for good

The calls of the current time are replaced one function after another, each in a text that the one
before it has produced. None of them brings back what was replaced already: a call can stand in the
new text only where one stood in the old (`CalledAt.exchange`). As a scan misses no call, a function
that was replaced is then called nowhere in the text (`settled_currentTime`).
-/

namespace Recast

open Literal Cursor Keyword List Text
open Option hiding guard

variable {g h h₁ h₂ k new old r s t u word x y : Text} {a : Char} {c d : Cursor} {n : Nat}
  {f : Filling} {e : Text × Filling}

namespace Functions

/-! ### Calls in a text -/

/-- What may stand between the parentheses of a call. -/
inductive Filling where
  /-- Anything up to a parenthesis outside literals. -/
  | any
  | blank
deriving DecidableEq, Repr

def Filling.Admits : Filling → Text → Prop
  | any, u => Closed u
  | blank, u => ∀ c ∈ u, isBlank c = true

theorem Filling.Admits.closed (h : f.Admits u) : Closed u := by
  cases f with
  | any => exact h
  | blank => exact (code_of_isBlank h).closed

theorem Filling.Admits.exchange (h : f.Admits (x ++ u)) (hx : Closed x) :
    f.Admits u ∧ ∀ u', f.Admits u' → f.Admits (x ++ u') := by
  cases f with
  | any => exact ⟨hx.append_iff.1 h, fun u' hu' => hx.append hu'⟩
  | blank =>
    obtain ⟨hfront, hu⟩ := forall_mem_append.1 h
    exact ⟨hu, fun u' hu' => forall_mem_append.2 ⟨hfront, hu'⟩⟩

/-- The front of a call: the name, in whatever case, and a parenthesis behind blanks. -/
def IsOpening (word h : Text) : Prop :=
  ∃ w g, h = w ++ (g ++ ['(']) ∧ w.map foldChar = word.map foldChar ∧ ∀ c ∈ g, isBlank c = true

/-- The text starts with a call. -/
def Calls (word : Text) (f : Filling) (r : Text) : Prop :=
  ∃ h u v, r = h ++ (u ++ ')' :: v) ∧ IsOpening word h ∧ f.Admits u

/-- A call stands in the code of the text at the given offset. -/
def CalledAt (word : Text) (f : Filling) (t : Text) (n : Nat) : Prop :=
  ∃ a r, t = a ++ r ∧ a.size = n ∧ Closed a ∧ a.getLast?.any isWordChar = false ∧ Calls word f r

namespace IsOpening

variable {word h : Text}

theorem exists_cons (hopening : IsOpening (a :: word) h) :
    ∃ c r, h = c :: r ∧ foldChar c = foldChar a := by
  obtain ⟨w, g, rfl, hfold, -⟩ := hopening
  obtain ⟨c, v, rfl, hc, -⟩ := map_eq_cons_iff.1 hfold
  exact ⟨c, v ++ (g ++ ['(']), rfl, hc⟩

theorem no_quote (hopening : IsOpening word h) (hword : Callable foldChar word) : Code h := by
  obtain ⟨w, g, rfl, hfold, hblank⟩ := hopening
  have hname := tells_foldChar.plain sees_foldChar hfold fun c hc => (hword.plain c hc).2
  simp only [forall_mem_append]
  refine ⟨fun c hc => ?_, code_of_isBlank hblank, by decide⟩
  have hplain := hname c hc
  simp only [Nesting.isPlain, Bool.and_eq_true, Bool.not_eq_true'] at hplain
  exact hplain.1.1

/-- Where the front of a call is cut, what is left starts inside the name, or with a blank or the
parenthesis. -/
theorem cut (hopening : IsOpening word (h₁ ++ h₂)) (h₁ne : h₁ ≠ []) (h₂ne : h₂ ≠ []) :
    (∃ v w r, word.tail = v ++ w ∧ w ≠ [] ∧ ∃ w', h₂ = w' ++ r ∧ w'.map foldChar = w.map foldChar) ∨
      ∃ c r, h₂ = c :: r ∧ (isBlank c ∨ c = '(') := by
  obtain ⟨w, g, hcut, hfold, hblank⟩ := hopening
  have hbehind (hall : ∀ c ∈ h₂, c ∈ g ++ ['(']) : ∃ c r, h₂ = c :: r ∧ (isBlank c ∨ c = '(') := by
    obtain ⟨c, r, rfl⟩ := exists_cons_of_ne_nil h₂ne
    exact ⟨c, r, rfl, (mem_append.1 (hall c mem_cons_self)).imp (hblank c) mem_singleton.1⟩
  rcases append_eq_append_iff.1 hcut with ⟨w₂, rfl, hrest⟩ | ⟨g₁, rfl, hrest⟩
  · by_cases hw₂ : w₂ = []
    · exact .inr (hbehind fun c hc => by rwa [hrest, hw₂, nil_append] at hc)
    · left
      rw [map_append] at hfold
      obtain ⟨x, h₁, rfl⟩ := exists_cons_of_ne_nil h₁ne
      cases word with
      | nil => cases hfold
      | cons a word =>
        obtain ⟨-, hfold⟩ := cons.inj hfold
        obtain ⟨v, w, rfl, hv, hw⟩ := map_eq_append_iff.1 hfold.symm
        refine ⟨v, w, g ++ ['('], rfl, ?_, w₂, hrest, hw.symm⟩
        rintro rfl
        exact hw₂ (map_eq_nil_iff.1 hw.symm)
  · exact .inr (hbehind fun c hc => by rw [hrest]; exact mem_append_right _ hc)

end IsOpening

/-! ### Exchanging a stretch of the text -/

/-- A call begins in front of a place or behind it. -/
theorem CalledAt.split (h : CalledAt word f (x ++ s) n) :
    (∃ z r, x = z ++ r ∧ r ≠ [] ∧ z.size = n ∧ Closed z ∧ z.getLast?.any isWordChar = false ∧
      Calls word f (r ++ s)) ∨
    ∃ s₁ s₂, s = s₁ ++ s₂ ∧ Closed (x ++ s₁) ∧ (x ++ s₁).getLast?.any isWordChar = false ∧
      Calls word f s₂ := by
  obtain ⟨a, r, ht, rfl, ha, hlast, hcall⟩ := h
  rcases append_eq_append_iff.1 ht with ⟨s₁, rfl, hs⟩ | ⟨r', rfl, hr⟩
  · exact .inr ⟨s₁, r, hs, ha, hlast, hcall⟩
  · by_cases hr' : r' = []
    · subst hr'
      exact .inr ⟨[], r, hr.symm, by simpa using ha, by simpa using hlast, hcall⟩
    · rw [hr] at hcall
      exact .inl ⟨a, r', rfl, hr', rfl, ha, hlast, hcall⟩

/-- A call in a text with the stretch `new` was there with the stretch `old` as well, in front of it
or behind it: if one that begins before the stretch is a call with both, if none begins inside
`new`, and if one right behind `new` is also set off behind `old`. -/
theorem CalledAt.exchange (hx : Closed x) (hstate : state none old = state none new)
    (hreach : ∀ z r, x = z ++ r → r ≠ [] → Closed r → Calls word f (r ++ (new ++ y)) →
      Calls word f (r ++ (old ++ y))) (hbegin : ∀ n₁ n₂, new = n₁ ++ n₂ → n₂ ≠ [] → Closed n₁ →
      (x ++ n₁).getLast?.any isWordChar = false → ¬ Calls word f (n₂ ++ y))
    (hbehind : Closed old → Calls word f y → (x ++ old).getLast?.any isWordChar = false)
    (hcall : CalledAt word f (x ++ (new ++ y)) n) :
    n < x.size ∧ CalledAt word f (x ++ (old ++ y)) n ∨
      ∃ k, x.size + old.size ≤ k ∧ CalledAt word f (x ++ (old ++ y)) k := by
  rcases hcall.split with
    ⟨z, r, rfl, hr, rfl, hz, hlast, hcall⟩ | ⟨s₁, s₂, hs, hclosed, hlast, hcall⟩
  · left
    have hpos := size_pos hr
    refine ⟨by rw [size_append]; omega, z, r ++ (old ++ y), by simp, rfl, hz, hlast, ?_⟩
    exact hreach z r rfl hr (hz.append_iff.1 hx) hcall
  · right
    have hafter : ∀ y₁, y = y₁ ++ s₂ → s₁ = new ++ y₁ →
        ∃ k, x.size + old.size ≤ k ∧ CalledAt word f (x ++ (old ++ y)) k := by
      intro y₁ hy hs₁
      rw [hs₁, Closed, state_append, state_append, show state none x = none from hx, ← hstate]
        at hclosed
      have hset : (x ++ (old ++ y₁)).getLast?.any isWordChar = false := by
        cases y₁ with
        | nil =>
          rw [append_nil]
          exact hbehind hclosed (by rwa [hy])
        | cons c y₁ =>
          rw [hs₁, ← append_assoc, getLast?_append] at hlast
          rw [← append_assoc, getLast?_append]
          exact hlast
      refine ⟨size (x ++ (old ++ y₁)), ?_, x ++ (old ++ y₁), s₂, by simp [hy], rfl, ?_, hset, hcall⟩
      · simp only [size_append]
        omega
      · rw [Closed, state_append, state_append, show state none x = none from hx]
        exact hclosed
    rcases append_eq_append_iff.1 hs with ⟨y₁, hs₁, hy⟩ | ⟨n₂, hnew, hs₂⟩
    · exact hafter y₁ hy hs₁
    · by_cases hn₂ : n₂ = []
      · subst hn₂
        exact hafter [] (by simpa using hs₂.symm) (by rw [hnew]; simp)
      · rw [hs₂] at hcall
        exact absurd hcall (hbegin s₁ n₂ hnew hn₂ (hx.append_iff.1 hclosed) hlast)

/-- A call that begins in front of a place is also there with another text behind it, if its front
does not reach over the place and if what closes it is found with the other text, too. -/
theorem Calls.exchange {s' : Text}
    (hreach : ∀ h rest, s = h ++ rest → h ≠ [] → ¬ IsOpening word (r ++ h))
    (hclose : ∀ h x u v, r = h ++ x → IsOpening word h → s = u ++ ')' :: v → f.Admits (x ++ u) →
      ∃ u' v', x ++ s' = u' ++ ')' :: v' ∧ f.Admits u') (hcall : Calls word f (r ++ s)) : Calls word
      f (r ++ s') := by
  obtain ⟨h, u, v, hcut, hopening, hu⟩ := hcall
  -- the front is over before the place, so that only what closes the call may lie behind it
  have hover : ∀ x, r = h ++ x → u ++ ')' :: v = x ++ s → Calls word f (r ++ s') := by
    intro x hx hrest
    have hbehind : ∀ u₂, u = x ++ u₂ → s = u₂ ++ ')' :: v → Calls word f (r ++ s') := by
      intro u₂ hu₂ hs
      rw [hu₂] at hu
      obtain ⟨u', v', hcut', hu'⟩ := hclose h x u₂ v hx hopening hs hu
      exact ⟨h, u', v', by rw [hx, append_assoc, hcut'], hopening, hu'⟩
    rcases append_cons_eq_append hrest with ⟨w, hw, -⟩ | ⟨u₂, hu₂, hs⟩
    · exact ⟨h, u, w ++ s', by simp [hx, hw], hopening, hu⟩
    · exact hbehind u₂ hu₂ hs
  rcases append_eq_append_iff.1 hcut with ⟨h₂, rfl, hs⟩ | ⟨x, hx, hrest⟩
  · by_cases hh₂ : h₂ = []
    · subst hh₂
      exact hover [] (by simp) hs.symm
    · exact absurd hopening (hreach h₂ _ hs hh₂)
  · exact hover x hx hrest

/-- A text in which no call of the word begins and into which none reaches: none of its characters
is the first letter of the word, and where it stands behind a part of the word it does not go on
with the rest. -/
structure Inert (word new : Text) : Prop where
  first : ∀ c ∈ new, word.head?.all (fun a => foldChar c != foldChar a) = true
  clash : ∀ s ∈ word.tail.tails, s ≠ [] → clashesAt foldChar new s = true
  head : new.head?.any (fun c => !isBlank c && c != '(') = true

instance (word new : Text) : Decidable (Inert word new) :=
  decidable_of_iff ((∀ c ∈ new, word.head?.all (fun a => foldChar c != foldChar a) = true) ∧
    (∀ s ∈ word.tail.tails, s ≠ [] → clashesAt foldChar new s = true) ∧
    new.head?.any (fun c => !isBlank c && c != '(') = true)
    ⟨fun h => ⟨h.1, h.2.1, h.2.2⟩, fun h => ⟨h.first, h.clash, h.head⟩⟩

/-- No call reaches into an inert text. -/
theorem Inert.not_reaches (hinert : Inert word new) (h₁ne : h₁ ≠ []) (hcut : new ++ y = h₂ ++ r)
    (h₂ne : h₂ ≠ []) : ¬ IsOpening word (h₁ ++ h₂) := by
  intro hopening
  rcases hopening.cut h₁ne h₂ne with ⟨v, w, r', htail, hw, w', rfl, hfold⟩ | ⟨c, r', rfl, hc⟩
  · have hmem : w ∈ word.tail.tails := (mem_tails _ _).2 ⟨v, htail.symm⟩
    rw [append_assoc] at hcut
    exact false_of_clashesAt (hinert.clash w hmem hw) hcut hfold
  · have hhead := hinert.head
    cases new with
    | nil => cases hhead
    | cons d new =>
      obtain ⟨rfl, -⟩ := cons.inj hcut
      rcases hc with hc | rfl
      · simp [hc] at hhead
      · simp at hhead

theorem Inert.not_begins (hinert : Inert (a :: word) new) {n₁ n₂ : Text} (hnew : new = n₁ ++ n₂)
    (hne : n₂ ≠ []) (hcut : n₂ ++ y = h ++ r) : ¬ IsOpening (a :: word) h := by
  intro hopening
  obtain ⟨c, h, rfl, hc⟩ := hopening.exists_cons
  obtain ⟨d, n₂, rfl⟩ := exists_cons_of_ne_nil hne
  obtain ⟨rfl, -⟩ := cons.inj hcut
  have hfirst := hinert.first d (by rw [hnew]; simp)
  simp [hc] at hfirst

/-- A new stretch that starts with neither a blank nor a closing parenthesis closes no call that
takes blanks only. -/
theorem Filling.closes (hhead : new.head?.any (fun c => !isBlank c && c != ')') = true)
    (hany : ∀ u v, new ++ y = u ++ ')' :: v → Closed u → ∃ u' v', old ++ y = u' ++ ')' :: v' ∧
      Closed u') (u v : Text)
    (hcut : new ++ y = u ++ ')' :: v) (hu : f.Admits u) : ∃ u' v', old ++ y = u' ++ ')' :: v' ∧
        f.Admits u' := by
  cases f with
  | any => exact hany u v hcut hu
  | blank =>
    cases new with
    | nil => cases hhead
    | cons c new =>
      cases u with
      | nil =>
        obtain ⟨rfl, -⟩ := cons.inj hcut
        simp at hhead
      | cons d u =>
        obtain ⟨rfl, -⟩ := cons.inj hcut
        simp [hu c mem_cons_self] at hhead

/-! ### The functions of the current time -/

/-- The functions that are replaced for good, with what their calls take. -/
def clockCalls : List (Text × Filling) :=
  [("from_unixtime", .any), ("unix_timestamp", .any), ("NOW", .blank)]

/-- None of the functions is called. -/
def Settled (t : Text) : Prop := ∀ e ∈ clockCalls, ∀ n, ¬ CalledAt e.1 e.2 t n

theorem callable_of_mem_clockCalls (he : e ∈ clockCalls) : Callable foldChar e.1 := by
  simp only [clockCalls, mem_cons, not_mem_nil, or_false] at he
  rcases he with rfl | rfl | rfl <;> exact ⟨by decide, by decide, by decide⟩

theorem mem_clockCalls_of_unixTime : ∀ word ∈ (["from_unixtime", "unix_timestamp"] : List Text),
    (word, Filling.any) ∈ clockCalls := by
  decide

theorem inert_of_mem_clockCalls :
    ∀ e ∈ clockCalls, ∀ new ∈ ([now, "DATEPART(DD, ", ")", "as dom "] : List Text),
    Inert e.1 new := by
  decide

theorem exists_cons_of_mem_clockCalls : ∀ e ∈ clockCalls, ∃ a word, e.1 = a :: word := by
  simp only [clockCalls, forall_mem_cons]
  exact ⟨⟨_, _, rfl⟩, ⟨_, _, rfl⟩, ⟨_, _, rfl⟩, by simp⟩

/-- A stretch that is inert for the functions may be put in place of another. -/
theorem CalledAt.exchange_inert (he : e ∈ clockCalls) (hinert : Inert e.1 new) (hx : Closed x)
    (hstate : state none old = state none new)
    (hbehind : Calls e.1 e.2 y → (x ++ old).getLast?.any isWordChar = false)
    (hclose : ∀ u v, new ++ y = u ++ ')' :: v → e.2.Admits u →
      ∃ u' v', old ++ y = u' ++ ')' :: v' ∧ e.2.Admits u') (hcall : CalledAt e.1 e.2
      (x ++ (new ++ y)) n) :
    n < x.size ∧ CalledAt e.1 e.2 (x ++ (old ++ y)) n ∨
      ∃ k, x.size + old.size ≤ k ∧ CalledAt e.1 e.2 (x ++ (old ++ y)) k := by
  refine hcall.exchange hx hstate ?_ ?_ fun _ => hbehind
  · intro z r _ hrne hr hcall
    refine hcall.exchange ?_ ?_
    · intro h rest hcut hne
      exact hinert.not_reaches hrne hcut hne
    · rintro h x u v rfl hopening hs hu
      have hx := (Code.closed (hopening.no_quote (callable_of_mem_clockCalls he))).append_iff.1 hr
      obtain ⟨hu, hadmits⟩ := hu.exchange hx
      obtain ⟨u', v', hold, hu'⟩ := hclose u v hs hu
      exact ⟨x ++ u', v', by rw [hold, append_assoc], hadmits u' hu'⟩
  · rintro n₁ n₂ hnew hne _ _ ⟨h, u, v, hcut, hopening, -⟩
    obtain ⟨a, word, hword⟩ := exists_cons_of_mem_clockCalls e he
    rw [hword] at hinert hopening
    exact hinert.not_begins hnew hne hcut hopening

theorem CalledAt.exists_of_inert (he : e ∈ clockCalls)
    (hcall : CalledAt e.1 e.2 (x ++ (new ++ y)) n) (hinert : Inert e.1 new) (hx : Closed x)
    (hstate : state none old = state none new)
    (hbehind : Calls e.1 e.2 y → (x ++ old).getLast?.any isWordChar = false)
    (hclose : ∀ u v, new ++ y = u ++ ')' :: v → e.2.Admits u →
      ∃ u' v', old ++ y = u' ++ ')' :: v' ∧ e.2.Admits u') : ∃ k,
      CalledAt e.1 e.2 (x ++ (old ++ y)) k := by
  rcases hcall.exchange_inert he hinert hx hstate hbehind hclose with ⟨-, hold⟩ | ⟨k, -, hold⟩
  · exact ⟨n, hold⟩
  · exact ⟨k, hold⟩

theorem CalledAt.exchange_now (he : e ∈ clockCalls) {o : Text} (hx : Closed x) (ho : Closed o)
    (hcall : CalledAt e.1 e.2 (x ++ (now ++ y)) n) :
    n < x.size ∧ CalledAt e.1 e.2 (x ++ ((o ++ [')']) ++ y)) n ∨
      ∃ k, x.size + size (o ++ [')']) ≤ k ∧ CalledAt e.1 e.2 (x ++ ((o ++ [')']) ++ y)) k := by
  refine hcall.exchange_inert he (inert_of_mem_clockCalls e he now (by simp)) hx ?_ ?_ ?_
  · rw [state_append, show state none o = none from ho]
    rfl
  · intro _
    rw [← append_assoc, getLast?_concat]
    rfl
  · refine Filling.closes rfl ?_
    intro u v _ _
    exact ⟨o, y, by simp, ho⟩

/-! ### What is read and what is there -/

/-- Something between two characters of code that is read in a mask. -/
theorem exists_enclosed {inner : Text} {o z : Char} (hat : At (mask t) c) (hc : Clear (mask t) c)
    (hread : Reads c (k ++ o :: (inner ++ [z])) d) (hk : Code k)
    (ho : isQuote o = false ∧ o ≠ filler) (hz : isQuote z = false ∧ z ≠ filler) :
    ∃ a u b, t = a ++ ((k ++ [o]) ++ (u ++ z :: b)) ∧ Closed a ∧ a.getLast? = c.last ∧ Closed u ∧
      mask u = inner ∧ a.size = c.offset ∧ a.size + size ((k ++ [o]) ++ (u ++ [z])) = d.offset := by
  obtain ⟨a', hm, hoffset, hlast⟩ := hat
  have hstate : state none a' = none := by
    obtain ⟨b, hb, -, hstate⟩ := hc
    rwa [append_cancel_right (hm.symm.trans hb)]
  have hwhole : mask t = a' ++ (k ++ o :: inner) ++ z :: d.rest := by
    rw [hm, hread.rest]
    simp
  obtain ⟨y, b, rfl, hy, hmask, -⟩ := exists_code hwhole hz.1 hz.2
  obtain ⟨a, r, rfl, ha, -, hmaska, hmaskr⟩ := exists_cut hmask (by simp) hstate
  obtain ⟨k', u, rfl, hk', hmaskk, hmasku⟩ := exists_code hmaskr ho.1 ho.2
  have hkeq : k' = k := by
    rw [← hmaskk]
    exact (eq_of_mask_no_quote (by rwa [hmaskk])).symm
  subst hkeq
  have hu : Closed u := by
    have hfront : Closed (k' ++ [o]) := hk'.append (Code.closed (by simpa using ho.1))
    refine hfront.append_iff.1 ?_
    simpa using ha.append_iff.1 hy
  have hsize : a.size = c.offset := by rw [hoffset, ← hmaska, size_mask]
  refine ⟨a, u, b, by simp, ha, by rw [hlast, ← hmaska, ha.getLast?_mask], hu, hmasku, hsize, ?_⟩
  rw [hread.offset, ← hmasku]
  simp only [size_append, size_cons, size_nil, size_mask]
  omega

/-- The parts of a text in which a call is read between two places. -/
structure ReadsCall (word : Text) (f : Filling) (t : Text) (c d : Cursor) (a h u b : Text) :
    Prop where
  text : t = a ++ (h ++ (u ++ ')' :: b))
  front : Closed a
  last : a.getLast? = c.last
  opening : IsOpening word h
  admits : f.Admits u
  start : a.size = c.offset
  stop : a.size + size (h ++ (u ++ [')'])) = d.offset

namespace ReadsCall

variable {a b : Text} (hr : ReadsCall word f t c d a h u b)
include hr

theorem calledAt (hafter : c.afterWord = false) : CalledAt word f t c.offset := by
  refine ⟨a, _, hr.text, hr.start, hr.front, ?_, h, u, b, rfl, hr.opening, hr.admits⟩
  rw [hr.last]
  exact hafter

theorem exchanges (new : Text) : Edit.Exchanges t ⟨c.spanTo d, new⟩ a (h ++ (u ++ [')'])) b := by
  refine ⟨by simpa using hr.text, ?_⟩
  rw [hr.stop, hr.start]
  rfl

end ReadsCall

/-- The place of a call in the mask, and what is left to read there. -/
theorem Calls.exists_at {a : Text} (hcall : Calls word f r) (hword : Callable foldChar word)
    (ha : Closed a) (hlast : a.getLast?.any isWordChar = false) :
    ∃ c d u v, At (mask (a ++ r)) c ∧ c.offset = a.size ∧ c.afterWord = false ∧ c.rest ≠ [] ∧
      c.word? word = some d ∧
      (∃ g, d.rest = g ++ '(' :: (mask u ++ ')' :: v) ∧ ∀ x ∈ g, isBlank x) ∧ f.Admits u := by
  obtain ⟨h, u, v, rfl, hopening, hu⟩ := hcall
  have hquote := hopening.no_quote hword
  obtain ⟨w, g, rfl, hfold, hblank⟩ := hopening
  have hmask : mask (a ++ ((w ++ (g ++ ['('])) ++ (u ++ ')' :: v)))
      = mask a ++ (w ++ (g ++ '(' :: (mask u ++ ')' :: mask v))) := by
    rw [mask_append_code ha (by simp) hquote, mask_append_cons hu.closed (by decide)]
    simp
  obtain ⟨d, hd, hread⟩ := exists_word?
    (c := ⟨a.size, a.getLast?, w ++ (g ++ '(' :: (mask u ++ ')' :: mask v))⟩) rfl hfold
  refine ⟨⟨a.size, a.getLast?, _⟩, d, u, mask v, ⟨mask a, hmask, ?_, ?_⟩, rfl, hlast, ?_, hd,
    ⟨g, ?_, hblank⟩, hu⟩
  · rw [size_mask]
  · rw [ha.getLast?_mask]
  · simp
  · exact (append_cancel_left hread.rest).symm

/-- What stands in parentheses is read. -/
theorem exists_enclosed? {v : Text} (hrest : c.rest = g ++ '(' :: (u ++ ')' :: v))
    (hg : ∀ x ∈ g, isBlank x) : ∃ arg d, enclosed? c = some (arg, d) := by
  obtain ⟨d, hd, hdrest⟩ := exists_sign?_blanks hrest hg (by decide)
  -- the first closing parenthesis, which may stand inside `u`
  obtain ⟨w, hread, hw, hstop⟩ := skipWhile_reads d (· != ')')
  have hclose : ∃ r, (d.skipWhile (· != ')')).rest = ')' :: r := by
    cases hskip : (d.skipWhile (· != ')')).rest with
    | nil =>
      have hall := hread.rest
      rw [hdrest, hskip, append_nil] at hall
      have hmem : ')' ∈ w := by rw [← hall]; simp
      simpa using hw ')' hmem
    | cons x r =>
      have hx := hstop x (by rw [hskip]; rfl)
      exact ⟨r, by simpa using hx⟩
  obtain ⟨r, hclose⟩ := hclose
  obtain ⟨e, he, -, -⟩ := exists_char? (p := (· == ')')) hclose (by simp)
  refine ⟨d.spanTo (d.skipWhile (· != ')')), e, ?_⟩
  rw [enclosed?, hd]
  show ((d.skipWhile (· != ')')).char? (· == ')')).bind _ = _
  rw [he]
  rfl

/-- A clause that puts the current time for calls. -/
structure IsClock (clause : Cursor → Option (Edit × Cursor)) : Prop where
  span : ∀ c e d, clause c = some (e, d) → e.span = c.spanTo d
  called :
      ∀ t c e d, At (mask t) c → clause c = some (e, d) →
      ∃ f ∈ clockCalls, CalledAt f.1 f.2 t c.offset
  exchanges : ∀ t c e d, At (mask t) c → clause c = some (e, d) →
    e.new = now ∧ ∃ a o b, Edit.Exchanges t e a (o ++ [')']) b ∧ Closed a ∧ Closed o

/-- Whether a clause reads every call of a function. -/
def ReadsAll (clause : Cursor → Option (Edit × Cursor)) (e : Text × Filling) : Prop :=
  ∀ t n, CalledAt e.1 e.2 t n → ∃ c x, At (mask t) c ∧ c.offset = n ∧ c.rest ≠ [] ∧
    clause c = some x

section

variable {clause : Cursor → Option (Edit × Cursor)} {e : Text × Filling} {t : Text}

theorem IsClock.keeps (hclause : IsClock clause) (he : e ∈ clockCalls)
    (h : ∀ n, ¬ CalledAt e.1 e.2 t n) :
    ∀ n, ¬ CalledAt e.1 e.2 (Edit.replaceClauses t clause) n := by
  refine Edit.applyAll_keeps (P := fun t => ∀ n, ¬ CalledAt e.1 e.2 t n) ?_ h
  intro x hx
  obtain ⟨c, d, hc, hread⟩ := at_of_mem_findAll hx
  obtain ⟨hnew, a, o, b, hcut, ha, ho⟩ := hclause.exchanges t c x d hc hread
  refine ⟨a, o ++ [')'], b, hcut, ?_⟩
  intro r hnone n hcall
  rw [hnew] at hcall
  rcases hcall.exchange_now he ha ho with ⟨-, hold⟩ | ⟨k, -, hold⟩
  · exact hnone n hold
  · exact hnone k hold

/-- No call is left of a function whose calls are all read. -/
theorem IsClock.clears (hclause : IsClock clause) (he : e ∈ clockCalls) (hall : ReadsAll clause e) :
    ∀ n, ¬ CalledAt e.1 e.2 (Edit.replaceClauses t clause) n := by
  refine Edit.Clears.not_applyAll ⟨pairwise_findAll hclause.span _, ?_, ?_⟩
  · intro x hx
    obtain ⟨c, d, hc, hread⟩ := at_of_mem_findAll hx
    obtain ⟨hnew, a, o, b, hcut, ha, ho⟩ := hclause.exchanges t c x d hc hread
    refine ⟨a, o ++ [')'], b, hcut, by simp, ?_⟩
    intro r n _ hcall
    rw [hnew] at hcall
    exact hcall.exchange_now he ha ho
  · intro n hcall
    obtain ⟨c, ⟨x, d⟩, hc, rfl, hne, hread⟩ := hall t n hcall
    obtain ⟨y, b, d', hb, hread', hmem, hplace⟩ := hc.exists_covering hne hread
    have hspan := hclause.span b y d' hread'
    obtain ⟨-, a, o, r, hcut, -⟩ := hclause.exchanges t b y d' hb hread'
    have hlt : y.span.start < y.span.stop := by
      rw [hcut.span]
      simp [size_append, size_cons, Char.utf8Size_pos]
    refine ⟨y, hmem, ?_⟩
    rw [hspan] at hlt ⊢
    rcases hplace with rfl | hplace
    · exact ⟨Nat.le_refl _, hlt⟩
    · exact hplace

theorem IsClock.replaceClauses_eq (hclause : IsClock clause) (h : Settled t) :
    Edit.replaceClauses t clause = t := by
  have hnone : (start (mask t)).findAll clause = [] := by
    refine eq_nil_iff_forall_not_mem.2 ?_
    intro x hx
    obtain ⟨c, d, hc, hread⟩ := at_of_mem_findAll hx
    obtain ⟨f, hf, hcall⟩ := hclause.called t c x d hc hread
    exact h f hf _ hcall
  rw [Edit.replaceClauses, hnone, Edit.applyAll_nil]

end

/-! ### Unix time and NOW -/

/-- A call that is read in a mask up to the first closing parenthesis. -/
theorem exists_of_enclosed? {e : Cursor} {arg : Span} (hc : At (mask t) c)
    (hword : Callable foldChar word) (hd : c.word? word = some d)
    (he : enclosed? d = some (arg, e)) :
    ∃ a h u b, ReadsCall word .any t c e a h u b ∧ t.slice arg = u ∧ ∀ x ∈ mask u, x ≠ ')' := by
  obtain ⟨w, hw, hfold⟩ := word?_reads hd
  obtain ⟨g, inner, hread, hblank, hopen, rfl⟩ := enclosed?_reads he
  have hquote : Code (w ++ g) := by
    have h : IsOpening word (w ++ (g ++ ['('])) := ⟨w, g, rfl, hfold, hblank⟩
    intro x hx
    exact h.no_quote hword x (by rw [← append_assoc]; exact mem_append_left _ hx)
  obtain ⟨a, u, b, ht, ha, hlast, hu, rfl, hsize, hstop⟩ := exists_enclosed (k := w ++ g) hc
    (hc.clear_of_word? hd hword.shows).1 (by simpa using hw.trans hread) hquote (by decide)
      (by decide)
  refine ⟨a, w ++ g ++ ['('], u, b,
    ⟨ht, ha, hlast, ⟨w, g, by simp, hfold, hblank⟩, hu, hsize, hstop⟩, ?_, hopen⟩
  have hone : '('.utf8Size = 1 := rfl
  rw [ht, ← append_assoc, ← append_assoc, hw.offset]
  refine slice_append _ u _ ?_ ?_
  · simp only [size_append, size_cons, size_nil, hone]
    omega
  · simp only [size_append, size_cons, size_nil, hone, size_mask]
    omega

/-- What is read as a function of Unix time. -/
theorem exists_of_unixTime? {e : Edit} (hc : At (mask t) c) (h : unixTime? c = some (e, d)) :
    e = ⟨c.spanTo d, now⟩ ∧ c.afterWord = false ∧
      ∃ f ∈ clockCalls, ∃ a h u b, ReadsCall f.1 f.2 t c d a h u b ∧ ∀ x ∈ mask u, x ≠ ')' := by
  obtain ⟨_, hguard, f, hf, ⟨arg, g⟩, hg, h⟩ := of_bind₃ h
  cases h
  obtain ⟨word, hword, hread⟩ := exists_of_findSome?_eq_some hf
  have hmem := mem_clockCalls_of_unixTime word hword
  obtain ⟨a, h, u, b, hr, -, hopen⟩ :=
    exists_of_enclosed? hc (callable_of_mem_clockCalls hmem) hread hg
  have hafter : c.afterWord = false := by simpa [guard] using hguard
  exact ⟨rfl, hafter, (word, .any), hmem, a, h, u, b, hr, hopen⟩

/-- What is read as a call of NOW. -/
theorem exists_of_nowCall? {e : Edit} (hc : At (mask t) c) (h : nowCall? c = some (e, d)) :
    e = ⟨c.spanTo d, now⟩ ∧ c.afterWord = false ∧
      ∃ a h u b, ReadsCall "NOW" .blank t c d a h u b := by
  obtain ⟨_, hguard, f, hf, g, hg, k, hk, h⟩ := of_bind₄ h
  cases h
  have hcallable : Callable foldChar "NOW" :=
    callable_of_mem_clockCalls (e := ("NOW", .blank)) (by simp [clockCalls])
  obtain ⟨w, hw, hfold⟩ := word?_reads hf
  obtain ⟨gap, hgap, hblank, -⟩ := skipWhile_reads f isBlank
  obtain ⟨inner, hinner, hblank', -⟩ := skipWhile_reads g isBlank
  have hread := ((hw.trans hgap).trans (sign?_reads hg)).trans (hinner.trans (sign?_reads hk))
  have hopening : IsOpening "NOW" (w ++ gap ++ ['(']) := ⟨w, gap, by simp, hfold, hblank⟩
  obtain ⟨a, u, b, ht, ha, hlast, -, rfl, hstart, hstop⟩ := exists_enclosed (k := w ++ gap) hc
    (hc.clear_of_word? hf hcallable.shows).1 (by simpa using hread)
    (fun x hx => hopening.no_quote hcallable x (mem_append_left _ hx)) (by decide) (by decide)
  have hu : mask u = u := eq_of_mask_no_quote (code_of_isBlank hblank')
  rw [hu] at hblank'
  have hafter : c.afterWord = false := by simpa [guard] using hguard
  exact ⟨rfl, hafter, a, _, u, b, ht, ha, hlast, hopening, hblank', hstart, hstop⟩

/-- A clause that reads calls of the functions puts the current time for calls. -/
theorem isClock_of_reads {clause : Cursor → Option (Edit × Cursor)}
    (hspan : ∀ c e d, clause c = some (e, d) → e.span = c.spanTo d)
    (hreads : ∀ t c e d, At (mask t) c → clause c = some (e, d) →
      e = ⟨c.spanTo d, now⟩ ∧ c.afterWord = false ∧
        ∃ f ∈ clockCalls, ∃ a h u b, ReadsCall f.1 f.2 t c d a h u b) : IsClock clause where
  span := hspan
  called t c e d hc h := by
    obtain ⟨-, hafter, f, hf, a, h, u, b, hr⟩ := hreads t c e d hc h
    exact ⟨f, hf, hr.calledAt hafter⟩
  exchanges t c e d hc h := by
    obtain ⟨rfl, -, f, hf, a, h, u, b, hr⟩ := hreads t c e d hc h
    exact ⟨rfl, a, h ++ u, b, by simpa using hr.exchanges now, hr.front,
      (Code.closed (hr.opening.no_quote (callable_of_mem_clockCalls hf))).append hr.admits.closed⟩

theorem isClock_unixTime? : IsClock unixTime? :=
  isClock_of_reads (fun c e d h => by
    obtain ⟨_, -, f, -, ⟨arg, g⟩, -, h⟩ := of_bind₃ h
    cases h
    rfl) fun t c e d hc h => by
    obtain ⟨he, hafter, f, hf, a, k, u, b, hr, -⟩ := exists_of_unixTime? hc h
    exact ⟨he, hafter, f, hf, a, k, u, b, hr⟩

theorem isClock_nowCall? : IsClock nowCall? :=
  isClock_of_reads (fun c e d h => by
    obtain ⟨_, -, f, -, g, -, k, -, h⟩ := of_bind₄ h
    cases h
    rfl) fun t c e d hc h => by
    obtain ⟨he, hafter, hr⟩ := exists_of_nowCall? hc h
    exact ⟨he, hafter, ("NOW", .blank), by simp [clockCalls], hr⟩

/-- Every call of a function of Unix time is read. -/
theorem readsAll_unixTime? (hword : word ∈ (["from_unixtime", "unix_timestamp"] : List Text)) :
    ReadsAll unixTime? (word, .any) := by
  rintro t n ⟨a, r, rfl, rfl, ha, hlast, hcall⟩
  have hcallable := callable_of_mem_clockCalls (mem_clockCalls_of_unixTime word hword)
  obtain ⟨c, d, u, v, hc, hoffset, hafter, hne, hd, ⟨g, hrest, hg⟩, -⟩ :=
    hcall.exists_at hcallable ha hlast
  obtain ⟨arg, e, he⟩ := exists_enclosed? hrest hg
  have hone : c.oneOf? ["from_unixtime", "unix_timestamp"] = some d := by
    simp only [mem_cons, not_mem_nil, or_false] at hword
    rcases hword with rfl | rfl
    · simp only [oneOf?, findSome?_cons, hd]
    · have hother : c.word? "from_unixtime" = none := by
        cases hother : c.word? "from_unixtime" with
        | none => rfl
        | some d' =>
          obtain ⟨w, hw, hfold⟩ := word?_reads hd
          obtain ⟨w', hw', hfold'⟩ := word?_reads hother
          refine (false_of_clashesAt ?_ (hw.rest.symm.trans hw'.rest) hfold').elim
          rw [clashesAt_congr hfold]
          decide
      simp only [oneOf?, findSome?_cons, hother, hd]
  refine ⟨c, (⟨c.spanTo e, now⟩, e), hc, hoffset, hne, ?_⟩
  rw [unixTime?, hafter, hone]
  show (enclosed? d).bind _ = _
  rw [he]
  rfl

/-- Every call of NOW is read. -/
theorem readsAll_nowCall? : ReadsAll nowCall? ("NOW", .blank) := by
  rintro t n ⟨a, r, rfl, rfl, ha, hlast, hcall⟩
  have hcallable : Callable foldChar "NOW" :=
    callable_of_mem_clockCalls (e := ("NOW", .blank)) (by simp [clockCalls])
  obtain ⟨c, d, u, v, hc, hoffset, hafter, hne, hd, ⟨g, hrest, hg⟩, hu⟩ :=
    hcall.exists_at hcallable ha hlast
  rw [(code_of_isBlank hu).mask_eq] at hrest
  obtain ⟨e, he, herest⟩ := exists_sign?_blanks hrest hg (by decide)
  obtain ⟨f, hf, -⟩ := exists_sign?_blanks herest hu (by decide)
  refine ⟨c, (⟨c.spanTo f, now⟩, f), hc, hoffset, hne, ?_⟩
  rw [nowCall?, hafter, hd]
  show (d.blanks.sign? '(').bind _ = _
  rw [he]
  show (e.blanks.sign? ')').bind _ = _
  rw [hf]
  rfl

/-! ### The day of the month -/

theorem exists_of_dayOfMonth? {e : Edit} (hc : At (mask t) c) (h : dayOfMonth? t c = some (e, d)) :
    ∃ a h u b, Closed a ∧ IsOpening "dayofmonth" h ∧ Closed u ∧
      Edit.Exchanges t e a (h ++ (u ++ [')'])) b ∧ e.new = "DATEPART(DD, " ++ trim u ++ ")" := by
  obtain ⟨_, -, f, hf, ⟨arg, g⟩, hg, h⟩ := of_bind₃ h
  cases h
  obtain ⟨a, h, u, b, hr, rfl, -⟩ := exists_of_enclosed? hc ⟨by decide, by decide, by decide⟩ hf hg
  exact ⟨a, h, _, b, hr.front, hr.opening, hr.admits, hr.exchanges _, rfl⟩

section

variable {e : Text × Filling} (he : e ∈ clockCalls)
include he

/-- The front of a call of DAYOFMONTH exchanged. -/
theorem CalledAt.exchange_datepart {z : Text} (hx : Closed x) (hopening : IsOpening "dayofmonth" h)
    (hg : ∀ c ∈ g, isBlank c) (hy : Closed y)
    (hcall : CalledAt e.1 e.2 (x ++ ("DATEPART(DD, " ++ (y ++ ')' :: z))) n) :
    ∃ k, CalledAt e.1 e.2 (x ++ ((h ++ g) ++ (y ++ ')' :: z))) k := by
  have hquote : Code (h ++ g) := by
    refine forall_mem_append.2 ⟨hopening.no_quote ⟨by decide, by decide, by decide⟩, ?_⟩
    exact code_of_isBlank hg
  apply hcall.exists_of_inert he (inert_of_mem_clockCalls e he "DATEPART(DD, " (by simp)) hx
  · exact hquote.closed.trans (Code.closed (by decide)).symm
  · intro _
    obtain ⟨w, gap, rfl, -, -⟩ := hopening
    rcases eq_nil_or_concat g with rfl | ⟨g', b, rfl⟩
    · rw [append_nil, ← append_assoc w, ← append_assoc, getLast?_concat]
      rfl
    · rw [concat_eq_append, ← append_assoc, ← append_assoc, getLast?_concat]
      exact isWordChar_of_isBlank (hg b (by simp))
  · refine Filling.closes rfl ?_
    intro u v _ _
    exact ⟨h ++ g ++ y, z, by simp, hquote.closed.append hy⟩

/-- Blanks before a closing parenthesis take no call away. -/
theorem CalledAt.exchange_blanks (hx : Closed x) (hg : ∀ c ∈ g, isBlank c)
    (hcall : CalledAt e.1 e.2 (x ++ ([')'] ++ y)) n) :
    ∃ k, CalledAt e.1 e.2 (x ++ ((g ++ [')']) ++ y)) k := by
  have hquote : Code (g ++ [')']) := by
    refine forall_mem_append.2 ⟨code_of_isBlank hg, by decide⟩
  apply hcall.exists_of_inert he (inert_of_mem_clockCalls e he ")" (by simp)) hx
  · exact hquote.closed.trans (Code.closed (by decide)).symm
  · intro _
    rw [← append_assoc, getLast?_concat]
    rfl
  · intro u v _ _
    refine ⟨g, y, by simp, ?_⟩
    cases e.2 with
    | any => exact (code_of_isBlank hg).closed
    | blank => exact hg

/-- DATEPART in place of a call of DAYOFMONTH. -/
theorem CalledAt.exchange_dayOfMonth (hx : Closed x) (hopening : IsOpening "dayofmonth" h)
    (hu : Closed u) (hcall : CalledAt e.1 e.2 (x ++ ("DATEPART(DD, " ++ trim u ++ ")" ++ y)) n) :
    ∃ k, CalledAt e.1 e.2 (x ++ (h ++ (u ++ [')']) ++ y)) k := by
  obtain ⟨l, r, hcut, htrim⟩ := trimmed_trim u
  generalize trim u = core at hcall hcut htrim
  subst hcut
  have hl : Closed l := (code_of_isBlank htrim.leads).closed
  have hr : Code r := code_of_isBlank htrim.trails
  have hcore : Closed core := (hl.append_iff.1 hu).of_append hr
  have hlead : Closed ("DATEPART(DD, " : Text) := Code.closed (by decide)
  obtain ⟨k, hcall⟩ := CalledAt.exchange_blanks he (x := x ++ ("DATEPART(DD, " ++ core)) (y := y)
    (hx.append (hlead.append hcore)) htrim.trails (by simpa using hcall)
  obtain ⟨k, hcall⟩ :=
    CalledAt.exchange_datepart he (y := core ++ r) (z := y) hx hopening htrim.leads
    (hcore.append hr.closed) (by simpa using hcall)
  exact ⟨k, by simpa using hcall⟩

/-- No call begins with the word FROM. -/
theorem not_calls_from (hk : lower k = lower "FROM") (hy : y.head?.any isNameChar = false) :
    ¬ Calls e.1 e.2 (k ++ y) := by
  rintro ⟨h, u, v, hcut, ⟨w, g, rfl, hfold, -⟩, -⟩
  have hfrom := map_foldChar_of_lower hk (by decide)
  rw [append_assoc] at hcut
  simp only [clockCalls, mem_cons, not_mem_nil, or_false] at he
  rcases he with rfl | rfl | rfl
  · -- behind FROM the name goes on with an underscore
    have hname : ("from_unixtime" : Text).map foldChar
        = ("FROM" : Text).map foldChar ++ ("_unixtime" : Text).map foldChar := by decide
    obtain ⟨k', w, rfl, hk', hw⟩ := map_eq_append_iff.1 (hfold.trans hname)
    obtain ⟨x, w, rfl, hx, -⟩ := map_eq_cons_iff.1 hw
    rw [append_assoc] at hcut
    have hlength : k.length = k'.length := by simpa using congrArg length (hfrom.trans hk'.symm)
    rw [(append_inj hcut hlength).2, eq_of_toLower (toLower_of_foldChar hx (by decide) (by decide))
      (by decide)] at hy
    cases hy
  · exact false_of_clashesAt (by rw [clashesAt_congr hfrom]; decide) hcut hfold
  · exact false_of_clashesAt (by rw [clashesAt_congr hfrom]; decide) hcut hfold

/-- An alias put in front of FROM. -/
theorem CalledAt.exchange_alias (hx : Closed x) (hk : lower k = lower "FROM")
    (hy : y.head?.any isNameChar = false)
    (hcall : CalledAt e.1 e.2 (x ++ ("as dom " ++ (k ++ y))) n) :
    ∃ n, CalledAt e.1 e.2 (x ++ ([] ++ (k ++ y))) n := by
  apply hcall.exists_of_inert he (inert_of_mem_clockCalls e he "as dom " (by simp)) hx
  · exact (Code.closed (by decide)).symm
  · intro hcall
    exact absurd hcall (not_calls_from he hk hy)
  · refine Filling.closes rfl ?_
    intro u v hcut hu
    have hlead : Closed ("as dom " : Text) := Code.closed (by decide)
    rcases append_cons_eq_append hcut.symm with ⟨w, hw, -⟩ | ⟨w, rfl, hw⟩
    · have hmem : ')' ∈ ("as dom " : Text) := by
        rw [hw]
        simp
      exact absurd hmem (by decide)
    · exact ⟨w, v, hw, hlead.append_iff.1 hu⟩

end

/-- No function of the current time is called in what the pass makes. -/
theorem settled_currentTime (t : Text) : Settled (currentTime t) := by
  have hnow : Settled (Edit.replaceClauses (Edit.replaceClauses t unixTime?) nowCall?) := by
    intro e he
    have he' := he
    simp only [clockCalls, mem_cons, not_mem_nil, or_false] at he'
    rcases he' with rfl | rfl | rfl
    · exact isClock_nowCall?.keeps he (isClock_unixTime?.clears he (readsAll_unixTime? (by simp)))
    · exact isClock_nowCall?.keeps he (isClock_unixTime?.clears he (readsAll_unixTime? (by simp)))
    · exact isClock_nowCall?.clears he readsAll_nowCall?
  rw [currentTime]
  generalize Edit.replaceClauses (Edit.replaceClauses t unixTime?) nowCall? = t at hnow
  have hdated : Settled (Edit.replaceClauses t (dayOfMonth? t)) := by
    intro e he
    refine Edit.applyAll_keeps (P := fun t => ∀ n, ¬ CalledAt e.1 e.2 t n) ?_ (hnow e he)
    intro x hx
    obtain ⟨c, d, hc, hread⟩ := at_of_mem_findAll hx
    obtain ⟨a, h, u, b, ha, hopening, hu, hcut, hnew⟩ := exists_of_dayOfMonth? hc hread
    refine ⟨a, _, b, hcut, ?_⟩
    intro r hnone n hcall
    rw [hnew] at hcall
    obtain ⟨k, hold⟩ := CalledAt.exchange_dayOfMonth he ha hopening hu hcall
    exact hnone k hold
  generalize Edit.replaceClauses t (dayOfMonth? t) = dated at hdated
  split
  · exact hdated
  · split
    · next s hs =>
      obtain ⟨a, k, r, rfl, htop, rfl, -⟩ :=
        topmost_of_mem_topPhrases (by decide) (by decide) (by decide) (mem_of_mem_head? hs)
      intro e he n hcall
      obtain ⟨⟨w, k', rfl, hw, rfl⟩, -, hbehind⟩ := htop.toStands
      rw [insertAt, before_size_append, after_size_append, append_assoc, append_nil] at hcall
      rw [append_nil] at hdated
      obtain ⟨m, hold⟩ := CalledAt.exchange_alias he htop.closed hw hbehind hcall
      exact hdated e he m hold
    · exact hdated

theorem currentTime_of_settled (h : Settled t)
    (hday : (start (mask t)).findAll (dayOfMonth? t) = []) : currentTime t = t := by
  have hdated : Edit.replaceClauses t (dayOfMonth? t) = t := by
    rw [Edit.replaceClauses, hday, Edit.applyAll_nil]
  simp only [currentTime, isClock_unixTime?.replaceClauses_eq h,
    isClock_nowCall?.replaceClauses_eq h, hdated, decide_true, Bool.true_or, if_true]

end Functions

end Recast
