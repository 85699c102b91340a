import Recast.Proofs.Alike
import Recast.Proofs.Items

/-!
# The depth of code

The depth of a place is counted in the mask, where the parentheses inside literals are gone.
`codeDepth` counts it along the text itself, next to the state of the literal scanner, so that it
can be followed through a text put together from parts (`depth_mask`). A text may stand in for
another when it is `Lighter`: then nothing behind it gets any deeper.
-/

namespace Recast.Nesting

open Literal List Text

variable {a b t : Text} {c : Char} {d e : Nat} {s : Option Char}

/-! ### Depth along a text -/

/-- The depth behind a text that the scanner reads from state `s` on, given the depth in front. -/
def codeDepth : Option Char → Nat → Text → Nat
  | _, d, [] => d
  | none, d, c :: t => codeDepth (next none c) (step d c) t
  | some q, d, c :: t => codeDepth (next (some q) c) d t

theorem codeDepth_append (s : Option Char) (d : Nat) (a b : Text) :
    codeDepth s d (a ++ b) = codeDepth (state s a) (codeDepth s d a) b := by
  induction a generalizing s d with
  | nil => cases s <;> rfl
  | cons c a ih =>
    cases s with
    | none => exact ih (next none c) (step d c)
    | some q => exact ih (next (some q) c) d

theorem Closed.codeDepth_append (ha : Closed a) (d : Nat) (b : Text) :
    codeDepth none d (a ++ b) = codeDepth none (codeDepth none d a) b := by
  rw [Nesting.codeDepth_append, ha]

theorem step_mono (h : d ≤ e) (c : Char) : step d c ≤ step e c := by
  unfold step
  split
  · omega
  · split <;> omega

theorem codeDepth_mono (h : d ≤ e) (s : Option Char) (t : Text) :
    codeDepth s d t ≤ codeDepth s e t := by
  induction t generalizing s d e with
  | nil => cases s <;> exact h
  | cons c t ih =>
    cases s with
    | none => exact ih (step_mono h c) (next none c)
    | some q => exact ih h (next (some q) c)

/-- The depth is counted in the outline. -/
theorem codeDepth_eq (s : Option Char) (d : Nat) (t : Text) :
    codeDepth s d t = (outline s t).foldl step d := by
  induction t generalizing s d with
  | nil => cases s <;> rfl
  | cons c t ih =>
    cases s with
    | some q =>
      exact (ih _ _).trans (by rw [outline, foldl_cons, step_of_ne (by decide) (by decide)])
    | none =>
      rw [codeDepth, ih, outline, foldl_cons]
      split
      · next hc =>
        rw [step_of_ne (ne_of_isQuote hc (by decide)).symm (ne_of_isQuote hc (by decide)).symm,
          step_of_ne (by decide) (by decide)]
      · rfl

/-- The mask hides what does not count. -/
theorem foldl_step_mask (d : Nat) (t : Text) : (mask t).foldl step d = codeDepth none d t := by
  rw [← foldl_step_filter, filter_isListMark_mask, foldl_step_filter, codeDepth_eq]

theorem depth_mask (t : Text) : depth (mask t) = codeDepth none 0 t := foldl_step_mask 0 t

/-! ### Balanced texts -/

/-- A text that leaves the scanner outside literals and the depth where it was. -/
structure Balanced (t : Text) : Prop where
  closed : Closed t
  depth : ∀ d, codeDepth none d t = d

theorem Balanced.append (ha : Balanced a) (hb : Balanced b) : Balanced (a ++ b) where
  closed := ha.closed.append hb.closed
  depth d := by rw [Closed.codeDepth_append ha.closed, ha.depth, hb.depth]

def isPlain (c : Char) : Bool := !isQuote c && c != '(' && c != ')'

theorem balanced_nil : Balanced [] := ⟨rfl, fun _ => rfl⟩

theorem balanced_of_isPlain (h : ∀ c ∈ t, isPlain c) : Balanced t := by
  induction t with
  | nil => exact balanced_nil
  | cons c t ih =>
    have hc : isPlain c := h c (by simp)
    simp only [isPlain, Bool.and_eq_true, Bool.not_eq_true', bne_iff_ne] at hc
    obtain ⟨⟨hquote, hopen⟩, hclose⟩ := hc
    have ht := ih (forall_mem_cons.1 h).2
    refine ⟨?_, fun d => ?_⟩
    · rw [closed_cons hquote]
      exact ht.closed
    · rw [codeDepth, next_none_of_not_isQuote hquote, step_of_ne hopen hclose, ht.depth]

theorem codeDepth_of_no_paren (h : ∀ c ∈ t, c ≠ '(' ∧ c ≠ ')') (s : Option Char) (d : Nat) :
    codeDepth s d t = d := by
  induction t generalizing s with
  | nil => cases s <;> rfl
  | cons c t ih =>
    have hrest := fun s => ih (forall_mem_cons.1 h).2 s
    obtain ⟨hopen, hclose⟩ := h c (by simp)
    cases s with
    | none => rw [codeDepth, step_of_ne hopen hclose, hrest]
    | some q => rw [codeDepth, hrest]

theorem scan_of_isPlain (h : ∀ c ∈ t, isPlain c) (hs : Valid s) (d : Nat) :
    state s t = s ∧ codeDepth s d t = d := by
  have hparts : ∀ c ∈ t, isQuote c = false ∧ c ≠ '(' ∧ c ≠ ')' := by
    intro c hc
    have hplain := h c hc
    simp only [isPlain, Bool.and_eq_true, Bool.not_eq_true', bne_iff_ne] at hplain
    exact ⟨hplain.1.1, hplain.1.2, hplain.2⟩
  exact ⟨Code.state_eq hs fun c hc => (hparts c hc).1,
    codeDepth_of_no_paren (fun c hc => (hparts c hc).2) s d⟩

theorem balanced_of_level? (hclosed : Closed t) (h : level? 0 (mask t) = some 0) : Balanced t where
  closed := hclosed
  depth d := by
    have hd := level?_add h d
    rw [Nat.zero_add] at hd
    rw [← foldl_step_mask, foldl_step_of_level? hd]

theorem Balanced.enclosed (h : Balanced t) : Balanced ('(' :: (t ++ [')'])) where
  closed := (closed_cons (by decide)).2 (h.closed.append rfl)
  depth d := by
    rw [codeDepth, next_none_of_not_isQuote (by decide), Closed.codeDepth_append h.closed, h.depth]
    rfl

theorem isPlain_of_isBlank (h : isBlank c) : isPlain c := by
  rw [isPlain, isQuote_of_isBlank h]
  simp [ne_of_isBlank h (d := '(') (by decide), ne_of_isBlank h (d := ')') (by decide)]

theorem exists_trim (t : Text) : ∃ a b, t = a ++ (t.trim ++ b) ∧ Balanced a ∧ Balanced b := by
  obtain ⟨a, ha, hblank, -⟩ := exists_dropWhile isBlank t
  obtain ⟨b, hb, hblank', -⟩ := exists_dropEnd isBlank (t.dropWhile isBlank)
  refine ⟨a, b, ?_, balanced_of_isPlain fun c hc => isPlain_of_isBlank (hblank c hc),
    balanced_of_isPlain fun c hc => isPlain_of_isBlank (hblank' c hc)⟩
  rw [trim, trimEnd, trimStart, ← hb, ← ha]

theorem Closed.trim (h : Closed t) : Closed t.trim := (Sealed.refl h).trim.closed

theorem codeDepth_trim (h : Closed t) (d : Nat) : codeDepth none d t.trim = codeDepth none d t := by
  obtain ⟨a, b, ht, ha, hb⟩ := exists_trim t
  conv => rhs; rw [ht]
  rw [Closed.codeDepth_append ha.closed, ha.depth,
    Closed.codeDepth_append (Closed.trim h), hb.depth]

theorem Balanced.trim (h : Balanced t) : Balanced t.trim where
  closed := Closed.trim h.closed
  depth d := by rw [codeDepth_trim h.closed, h.depth]

/-- The place of an item covers the item. -/
theorem exists_slice_place (front : Text) {items : List Item} {n : Nat} {s : Span}
    (hs : s ∈ places n items) (hn : n = front.size) :
    ∃ i ∈ items, (front ++ written items).slice s = i.text := by
  induction items generalizing front n with
  | nil => cases hs
  | cons i items ih =>
    cases items with
    | nil =>
      obtain rfl : s = ⟨n, n + i.text.size⟩ := by simpa [places] using hs
      refine ⟨i, by simp, ?_⟩
      have h := slice_append front i.text [] (m := n) (n := n + i.text.size) hn (by rw [hn])
      rwa [append_nil] at h
    | cons j items =>
      rcases mem_cons.1 hs with rfl | hs
      · refine ⟨i, by simp, ?_⟩
        rw [written_cons, ← append_assoc]
        exact slice_append front i.text _ hn (by rw [hn])
      · obtain ⟨k, hk, hslice⟩ := ih (front ++ (i.text ++ [','])) hs (by
          rw [size_append, size_append, hn]
          rfl)
        refine ⟨k, by simp [hk], ?_⟩
        rw [← hslice, written_cons]
        simp

theorem balanced_of_mem_parts {u : Text} (hclosed : Closed t) (hlevel : level? 0 (mask t) = some 0)
    (hu : u ∈ parts t ',') : Balanced u := by
  obtain ⟨items, hne, hproper, rfl⟩ := exists_items t hclosed hlevel
  rw [parts, splitTop, splitTopFrom_written hne hproper] at hu
  obtain ⟨s, hs, rfl⟩ := mem_map.1 hu
  obtain ⟨i, hi, hslice⟩ := exists_slice_place [] hs rfl
  rw [nil_append] at hslice
  rw [hslice]
  exact balanced_of_level? (hproper i hi).closed_text (hproper i hi).level_text

/-! ### Texts that stand in for others -/

/-- Where the scanner is in state `s` at depth `d`, both texts take it to one state, and nothing
behind the new one is deeper than it was behind the old one. -/
structure Lighter (s : Option Char) (d : Nat) (new old : Text) : Prop where
  state : state s new = state s old
  depth : codeDepth s d new ≤ codeDepth s d old

theorem Lighter.refl (s : Option Char) (d : Nat) (t : Text) : Lighter s d t t :=
  ⟨rfl, Nat.le_refl _⟩

theorem Lighter.append {a' b' : Text} (ha : Lighter s d a a')
    (hb : Lighter (Literal.state s a') (codeDepth s d a') b b') :
    Lighter s d (a ++ b) (a' ++ b') where
  state := by rw [state_append, state_append, ha.state, hb.state]
  depth := by
    rw [codeDepth_append, codeDepth_append, ha.state]
    exact Nat.le_trans (codeDepth_mono ha.depth _ b) hb.depth

theorem Balanced.lighter {new old : Text} (hnew : Balanced new) (hold : Balanced old) (d : Nat) :
    Lighter none d new old where
  state := hnew.closed.trans hold.closed.symm
  depth := Nat.le_of_eq ((hnew.depth d).trans (hold.depth d).symm)

end Recast.Nesting
