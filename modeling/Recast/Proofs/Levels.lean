import Recast.Proofs.Scripts

/-!
# The level of code

`level?` of a mask says whether the parentheses outside literals ever close more than was opened,
and how many are left open. `codeLevel?` follows it along the text itself, next to the state of the
literal scanner, so that a text can be put together from parts (`codeLevel?_append`). A balanced
text is one whose level comes back to where it was (`balanced_iff_codeLevel?`).
-/

namespace Recast.Nesting

open Literal List Text
open Option hiding guard

variable {a b t v x : Text} {d k : Nat} {s : Option Char}

/-! ### The level along a text -/

/-- The level behind a text that the scanner reads from state `s` on, given the level in front. -/
def codeLevel? : Option Char → Nat → Text → Option Nat
  | _, d, [] => some d
  | some q, d, c :: t => codeLevel? (next (some q) c) d t
  | none, d, c :: t => (level? d [c]).bind fun k => codeLevel? (next none c) k t

theorem codeLevel?_append (s : Option Char) (d : Nat) (a b : Text) :
    codeLevel? s d (a ++ b) = (codeLevel? s d a).bind fun k => codeLevel? (state s a) k b := by
  induction a generalizing s d with
  | nil => cases s <;> rfl
  | cons c a ih =>
    cases s with
    | some q => exact ih (next (some q) c) d
    | none =>
      rw [cons_append, codeLevel?, codeLevel?, bind_assoc]
      congr 1
      funext k
      exact ih (next none c) k

theorem Closed.codeLevel?_append (ha : Closed a) (d : Nat) (b : Text) :
    codeLevel? none d (a ++ b) = (codeLevel? none d a).bind fun k => codeLevel? none k b := by
  rw [Nesting.codeLevel?_append, ha]

/-- The level is counted in the outline. -/
theorem codeLevel?_eq (s : Option Char) (d : Nat) (t : Text) :
    codeLevel? s d t = level? d (outline s t) := by
  induction t generalizing s d with
  | nil => cases s <;> rfl
  | cons c t ih =>
    cases s with
    | some q => exact ih _ _
    | none =>
      rw [codeLevel?, outline]
      split
      · next hc =>
        have hno : c ≠ '(' ∧ c ≠ ')' := ⟨(ne_of_isQuote hc rfl).symm, (ne_of_isQuote hc rfl).symm⟩
        rw [level?_of_no_paren (by simpa using hno), bind_some, ih, level?, if_neg (by decide),
          if_neg (by decide)]
      · exact (bind_congr fun k _ => ih _ k).trans (level?_append d [c] _).symm

/-- The mask hides what does not count. -/
theorem level?_mask (d : Nat) (t : Text) : level? d (mask t) = codeLevel? none d t := by
  rw [← level?_filter, filter_isListMark_mask, level?_filter, codeLevel?_eq]

theorem codeLevel?_add (h : codeLevel? none d t = some k) (j : Nat) :
    codeLevel? none (d + j) t = some (k + j) := by
  rw [← level?_mask] at h ⊢
  exact level?_add h j

theorem level?_of_no_close (h : ∀ c ∈ t, c ≠ ')') (d : Nat) :
    level? d t = some (d + t.count '(') := by
  induction t generalizing d with
  | nil => rfl
  | cons c t ih =>
    have hrest : ∀ x ∈ t, x ≠ ')' := (forall_mem_cons.1 h).2
    rw [level?]
    by_cases hc : c = '('
    · rw [if_pos hc, ih hrest, hc, count_cons_self, Nat.add_assoc, Nat.add_comm 1]
    · rw [if_neg hc, if_neg (h c (by simp)), ih hrest, count_cons_of_ne hc]

/-! ### Balanced texts -/

/-- Where a text closes more than was opened, one more open parenthesis in front makes no difference
to the depth behind it. -/
theorem codeDepth_succ_of_codeLevel? (h : codeLevel? s d t = none) :
    codeDepth s (d + 1) t = codeDepth s d t := by
  induction t generalizing s d with
  | nil => cases s <;> cases h
  | cons c t ih =>
    cases s with
    | some q => exact ih h
    | none =>
      rw [codeLevel?] at h
      rw [codeDepth, codeDepth]
      by_cases hopen : c = '('
      · subst hopen
        exact ih h
      by_cases hclose : c = ')'
      · subst hclose
        cases d with
        | zero => rfl
        | succ d => exact ih h
      · rw [step_of_ne hopen hclose, step_of_ne hopen hclose]
        exact ih (by simpa [level?, hopen, hclose] using h)

theorem codeDepth_of_codeLevel? (h : codeLevel? none d t = some k) : codeDepth none d t = k := by
  rw [← level?_mask] at h
  rw [← foldl_step_mask, foldl_step_of_level? h]

theorem balanced_iff_codeLevel? : Balanced t ↔ Closed t ∧ codeLevel? none 0 t = some 0 := by
  refine ⟨fun h => ⟨h.closed, ?_⟩, fun h => balanced_of_level? h.1 (by rw [level?_mask, h.2])⟩
  cases hlevel : codeLevel? none 0 t with
  | none =>
    have hdepth := codeDepth_succ_of_codeLevel? hlevel
    rw [h.depth, h.depth] at hdepth
    cases hdepth
  | some k => rw [← codeDepth_of_codeLevel? hlevel, h.depth]

theorem Balanced.codeLevel? (h : Balanced t) (d : Nat) : codeLevel? none d t = some d := by
  have hadd := codeLevel?_add (balanced_iff_codeLevel?.1 h).2 d
  rwa [Nat.zero_add] at hadd

theorem Balanced.codeDepth_front (h : Balanced (a ++ b)) : codeDepth none 1 a ≠ 0 := by
  have hlevel := h.codeLevel? 0
  rw [codeLevel?_append] at hlevel
  obtain ⟨k, hk, -⟩ := bind_eq_some_iff.1 hlevel
  rw [codeDepth_of_codeLevel? (codeLevel?_add hk 1)]
  exact Nat.succ_ne_zero k

/-! ### The parenthesis that closes another -/

/-- A balanced text in front of a closing parenthesis is the same however far one looks. -/
theorem Balanced.eq_of_closing {u r s : Text} (hu : Balanced u) (hv : Balanced v)
    (h : u ++ ')' :: r = v ++ ')' :: s) : u = v ∧ r = s := by
  -- the longer of the two would fall below its own level
  have hno {x y z : Text} (hx : Balanced x) : ¬ Balanced (x ++ ')' :: (y ++ z)) := by
    intro hbalanced
    have hlevel := hbalanced.codeLevel? 0
    rw [Closed.codeLevel?_append hx.closed, hx.codeLevel? 0] at hlevel
    cases hlevel
  rcases append_eq_append_iff.1 h with ⟨z, hz, hr⟩ | ⟨z, hz, hr⟩
  · cases z with
    | nil => exact ⟨by simpa using hz.symm, (cons.inj hr).2⟩
    | cons c z =>
      obtain ⟨rfl, -⟩ := cons.inj hr
      exact absurd (hz ▸ hv) (by simpa using hno (y := z) (z := []) hu)
  · cases z with
    | nil => exact ⟨by simpa using hz, (cons.inj hr).2.symm⟩
    | cons c z =>
      obtain ⟨rfl, -⟩ := cons.inj hr
      exact absurd (hz ▸ hu) (by simpa using hno (y := z) (z := []) hv)

/-- A parenthesis that opens in a balanced text is closed in it. -/
theorem Balanced.exists_closing {y z s : Text} (h : Balanced (x ++ '(' :: y)) (hx : Closed x)
    (hv : Balanced v) (hcut : y ++ z = v ++ ')' :: s) : ∃ r, y = v ++ ')' :: r ∧ s = r ++ z := by
  have hy : Closed y := (hx.append_iff (b := '(' :: y)).1 h.closed
  -- the level behind `y` is below the level in front of it, so `y` is no front of a balanced text
  have hno (u : Text) : v ≠ y ++ u := by
    rintro rfl
    have hlevel := h.codeLevel? 0
    rw [Closed.codeLevel?_append hx] at hlevel
    obtain ⟨k, -, hlevel⟩ := bind_eq_some_iff.1 hlevel
    have hfront := hv.codeLevel? 0
    rw [Closed.codeLevel?_append hy] at hfront
    obtain ⟨j, hj, -⟩ := bind_eq_some_iff.1 hfront
    have hadd := codeLevel?_add hj (k + 1)
    rw [Nat.zero_add, show Nesting.codeLevel? none (k + 1) y = some 0 from hlevel] at hadd
    cases hadd
  rcases append_eq_append_iff.1 hcut with ⟨u, hu, -⟩ | ⟨u, rfl, hs⟩
  · exact absurd hu (hno u)
  · cases u with
    | nil => exact absurd (by simp) (hno [])
    | cons c u =>
      obtain ⟨rfl, rfl⟩ := cons.inj hs
      exact ⟨u, rfl, rfl⟩

/-! ### Texts that are one argument -/

theorem isQuote_of_isPlain {c : Char} (h : isPlain c) : isQuote c = false := by
  simp only [isPlain, Bool.and_eq_true, Bool.not_eq_true'] at h
  exact h.1.1

/-- A balanced text without a comma outside its parentheses. -/
structure Unsplit (x : Text) : Prop where
  balanced : Balanced x
  flat : Flat ',' 0 (mask x)

theorem Unsplit.append (ha : Unsplit a) (hb : Unsplit b) (hapart : Apart a b) :
    Unsplit (a ++ b) where
  balanced := ha.balanced.append hb.balanced
  flat := by
    rw [mask_append ha.balanced.closed hapart, flat_append, foldl_step_mask, ha.balanced.depth]
    exact ⟨ha.flat, hb.flat⟩

theorem unsplit_of_isPlain (h : ∀ c ∈ x, isPlain c) (hcomma : ',' ∉ x) : Unsplit x where
  balanced := balanced_of_isPlain h
  flat := by
    rw [Code.mask_eq fun c hc => isQuote_of_isPlain (h c hc)]
    exact flat_of_not_mem hcomma 0

theorem Unsplit.trim (h : Unsplit x) : Unsplit x.trim where
  balanced := h.balanced.trim
  flat := by
    obtain ⟨lead, trail, hx, htrimmed⟩ := trimmed_trim x
    have hplain : ∀ c ∈ lead, isPlain c := fun c hc => isPlain_of_isBlank (htrimmed.leads c hc)
    have hlead := balanced_of_isPlain hplain
    have hno : Code lead := fun c hc => isQuote_of_isPlain (hplain c hc)
    have hflat := h.flat
    rw [hx, mask_append hlead.closed hno.apart, flat_append, foldl_step_mask, hlead.depth,
      mask_append (Closed.trim h.balanced.closed) (code_of_isBlank htrimmed.trails).apart_right,
        flat_append] at hflat
    exact hflat.2.1

theorem cuts_parts (t : Text) : Cuts ',' (parts t ',') t :=
  (parts_eq_iff (by decide) (by decide) (by decide) (by decide)).1 rfl

theorem flat_of_cuts {sep : Char} {ps : List Text} (h : Cuts sep ps t) (hx : x ∈ ps) :
    Flat sep 0 (mask x) := by
  induction h with
  | last hflat => rwa [mem_singleton.1 hx]
  | cons _ hflat _ _ ih =>
    rcases mem_cons.1 hx with rfl | hx
    · exact hflat
    · exact ih hx

theorem unsplit_of_mem_parts (h : Balanced t) (hx : x ∈ parts t ',') : Unsplit x where
  balanced := balanced_of_mem_parts h.closed (by rw [level?_mask, h.codeLevel?]) hx
  flat := flat_of_cuts (cuts_parts t) hx

end Recast.Nesting
