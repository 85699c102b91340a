import Recast.Proofs.Reparse
import Recast.Proofs.WhereCalls

/-!
# Phrases

A phrase stands in a text where its words can be read one behind another, with blanks between them
and no name character on either side (`Stands`). A search goes on behind whatever it has read, found
or not. No phrase is lost that way, as the only places at which a word can begin inside what was
read are those of the later words, and none of them is the first one: a search finds a phrase that
stands behind its offset, or an earlier one (`Stands.exists_head?`), and nothing else
(`exists_of_mem_phrases`).
-/

namespace Recast.Keyword

open Cursor List Text
open Option hiding guard

variable {first front k m r rest s t u w x y : Text} {c d e : Cursor} {offset : Nat}
  {others words : List Text} {wanted : Nat → Bool}

/-! ### Words one behind another -/

theorem exists_between (h : front ++ (w ++ rest) = x ++ (y ++ s))
    (hlt : x.size + y.size < front.size) :
    ∃ u, u ≠ [] ∧ front = x ++ (y ++ u) ∧ s = u ++ (w ++ rest) := by
  rw [← append_assoc x] at h
  rcases append_eq_append_iff.1 h with ⟨k, hk, -⟩ | ⟨k, rfl, hk⟩
  · rw [← size_append, hk, size_append] at hlt
    omega
  · refine ⟨k, ?_, append_assoc x y k, hk⟩
    rintro rfl
    rw [append_nil, size_append] at hlt
    omega

/-- A keyword is not empty and made of name characters. -/
def Named (word : Text) : Prop := word ≠ [] ∧ ∀ c ∈ lower word, isNameChar c = true

instance (word : Text) : Decidable (Named word) :=
  inferInstanceAs (Decidable (word ≠ [] ∧ ∀ c ∈ lower word, isNameChar c = true))

/-- The given words, in whatever case, each with ASCII blanks before it. -/
def Trailing : List Text → Text → Prop
  | [], k => k = []
  | word :: words, k => ∃ gap w k', k = gap ++ (w ++ k') ∧ gap ≠ [] ∧
    (∀ c ∈ gap, isAsciiBlank c = true) ∧ lower w = lower word ∧ Trailing words k'

/-- The phrase of the given words is `k`, between `front` and `rest`. -/
structure Stands (first : Text) (others : List Text) (front k rest : Text) : Prop where
  spelled : ∃ w k', k = w ++ k' ∧ lower w = lower first ∧ Trailing others k'
  before : front.getLast?.any isNameChar = false
  behind : rest.head?.any isNameChar = false

theorem isNameChar_of_lower {word : Text} (h : lower w = lower word) (hword : Named word) :
    w ≠ [] ∧ ∀ c ∈ w, isNameChar c := by
  constructor
  · rintro rfl
    exact hword.1 (map_eq_nil_iff.1 h.symm)
  · intro c hc
    apply Functions.isNameChar_of_toLower
    apply hword.2
    rw [← h]
    exact mem_map_of_mem hc

theorem head?_of_trailing (h : Trailing words k) (hrest : rest.head?.any isNameChar = false) :
    (k ++ rest).head?.any isNameChar = false := by
  cases words with
  | nil =>
    obtain rfl : k = [] := h
    exact hrest
  | cons word words =>
    obtain ⟨gap, w, k', rfl, hne, hgap, -⟩ := h
    obtain ⟨b, gap, rfl⟩ := exists_cons_of_ne_nil hne
    exact isNameChar_of_isBlank (isBlank_of_isAsciiBlank (hgap b mem_cons_self))

theorem mem_of_trailing (hwords : ∀ w ∈ words, Named w) (h : Trailing words k) :
    ∀ c ∈ k, isNameChar c ∨ isAsciiBlank c := by
  induction words generalizing k with
  | nil =>
    obtain rfl : k = [] := h
    simp
  | cons word words ih =>
    obtain ⟨gap, w, k', rfl, -, hgap, hlower, hk⟩ := h
    have hname := (isNameChar_of_lower hlower (hwords word mem_cons_self)).2
    have hk := ih (forall_mem_cons.1 hwords).2 hk
    simp only [forall_mem_append]
    exact ⟨fun c hc => .inr (hgap c hc), fun c hc => .inl (hname c hc), hk⟩

theorem Stands.lower_eq (h : Stands first [] front k rest) : lower k = lower first := by
  obtain ⟨w, k', rfl, hw, rfl⟩ := h.spelled
  rw [append_nil]
  exact hw

theorem Stands.exists_cons {a : Char} (h : Stands (a :: first) others front k rest) :
    ∃ c r, k = c :: r ∧ c.toLower = a.toLower := by
  obtain ⟨w, k', rfl, hlower, -⟩ := h.spelled
  obtain ⟨c, v, rfl, hc, -⟩ := map_eq_cons_iff.1 hlower
  exact ⟨c, v ++ k', rfl, hc⟩

/-- Two stretches of name characters with no name character behind them are the same. -/
theorem eq_of_named (h : x ++ r = y ++ s) (hx : ∀ c ∈ x, isNameChar c) (hy : ∀ c ∈ y, isNameChar c)
    (hr : r.head?.any isNameChar = false) (hs : s.head?.any isNameChar = false) : x = y := by
  have hnext {z : Text} (hz : z.head?.any isNameChar = false) (c : Char) (hc : z.head? = some c) :
      isNameChar c = false := by simpa [hc] using hz
  rw [← (takeWhile_append_of_head hx (hnext hr)).1, h, (takeWhile_append_of_head hy (hnext hs)).1]

/-- A word that stands inside words that trail is one of them. -/
theorem exists_word_of_trailing (hwords : ∀ w ∈ words, Named w) (hk : Trailing words k)
    (hr : r.head?.any isNameChar = false) (hcut : k ++ r = u ++ (w ++ s)) (hlen : u.size < k.size)
    (hu : u.getLast?.any isNameChar = false) (hw : w ≠ []) (hname : ∀ c ∈ w, isNameChar c)
    (hs : s.head?.any isNameChar = false) : ∃ word ∈ words, lower w = lower word := by
  induction words generalizing k u with
  | nil =>
    obtain rfl : k = [] := hk
    cases hlen
  | cons word words ih =>
    obtain ⟨gap, x, k, rfl, hne, hgap, hlower, hk⟩ := hk
    obtain ⟨hx, hxname⟩ := isNameChar_of_lower hlower (hwords word mem_cons_self)
    have hbehind := head?_of_trailing hk hr
    rw [append_assoc, append_assoc] at hcut
    rcases append_eq_append_iff.1 hcut with ⟨v, rfl, htail⟩ | ⟨v, rfl, htail⟩
    · -- the word begins at `x` or behind it
      rcases append_eq_append_iff.1 htail with ⟨z, rfl, hz⟩ | ⟨z, rfl, hz⟩
      · by_cases hz' : z = []
        · -- right behind `x` no word begins
          rw [hz', append_nil, any_getLast?_append hx hxname] at hu
          cases hu
        · rw [← append_assoc, getLast?_append_of_ne_nil _ hz'] at hu
          obtain ⟨word', hword', hlower'⟩ := ih (forall_mem_cons.1 hwords).2 hk hz
            (by simp only [size_append] at hlen; omega) hu
          exact ⟨word', mem_cons_of_mem _ hword', hlower'⟩
      · by_cases hv : v = []
        · subst hv
          have heq : w = z := eq_of_named hz hname hxname hs hbehind
          exact ⟨word, mem_cons_self, by rw [heq]; exact hlower⟩
        · -- inside `x` no word begins
          rw [any_getLast?_append hv fun c hc => hxname c (mem_append_left _ hc)] at hu
          cases hu
    · -- among the blanks no word begins
      by_cases hv : v = []
      · subst hv
        have heq : w = x := eq_of_named htail hname hxname hs hbehind
        exact ⟨word, mem_cons_self, by rw [heq]; exact hlower⟩
      · obtain ⟨b, v, rfl⟩ := exists_cons_of_ne_nil hv
        obtain ⟨c, w, rfl⟩ := exists_cons_of_ne_nil hw
        obtain ⟨rfl, -⟩ := cons.inj htail
        have hblank :=
          isNameChar_of_isBlank
            (isBlank_of_isAsciiBlank (hgap c (mem_append_right _ mem_cons_self)))
        simp [hname c mem_cons_self] at hblank

/-! ### Reading a phrase -/

theorem trailing_of_rest? (h : rest? words c = some d) : ∃ k, Reads c k d ∧ Trailing words k := by
  induction words generalizing c with
  | nil =>
    cases h
    exact ⟨[], .refl _, rfl⟩
  | cons word words ih =>
    obtain ⟨e, he, f, hf, h⟩ := of_bind₂ h
    obtain ⟨gap, hgap, hne, hblank, -⟩ := some?_reads he
    obtain ⟨w, hw, hlower, -⟩ := here?_reads hf
    obtain ⟨k, hk, htrailing⟩ := ih h
    exact ⟨gap ++ (w ++ k), hgap.trans (hw.trans hk), gap, w, k, rfl, hne, hblank, hlower,
      htrailing⟩

/-- Keywords that stand behind a place are read. -/
theorem exists_rest? (hwords : ∀ w ∈ words, Named w) (hrest : c.rest = k ++ rest)
    (hk : Trailing words k) (hbehind : rest.head?.any isNameChar = false) :
    ∃ d, rest? words c = some d ∧ Reads c k d := by
  induction words generalizing c k with
  | nil =>
    obtain rfl : k = [] := hk
    exact ⟨c, rfl, .refl c⟩
  | cons word words ih =>
    obtain ⟨gap, w, k, rfl, hne, hgap, hlower, hk⟩ := hk
    obtain ⟨hw, hname⟩ := isNameChar_of_lower hlower (hwords word mem_cons_self)
    have hstop : ∀ x, (w ++ (k ++ rest)).head? = some x → isAsciiBlank x = false := by
      intro x hx
      obtain ⟨y, w, rfl⟩ := exists_cons_of_ne_nil hw
      obtain rfl : y = x := some.inj hx
      by_contra hblank
      have hy := isNameChar_of_isBlank (isBlank_of_isAsciiBlank (by simpa using hblank))
      simp [hname y mem_cons_self] at hy
    obtain ⟨e, he, hread⟩ := exists_some? (by rw [hrest]; simp) hne hgap hstop
    have herest : e.rest = w ++ (k ++ rest) :=
      append_cancel_left (by rw [← hread.rest, hrest]; simp)
    obtain ⟨f, hf, hread'⟩ := exists_plain? herest hlower
    have hfrest : f.rest = k ++ rest := append_cancel_left (by rw [← hread'.rest, herest])
    have hhere : here? word e = some f := by
      refine here?_eq_some.2 ⟨(hwords word mem_cons_self).1, ?_, hf, ?_⟩
      · obtain ⟨x, hx⟩ := isSome_iff_exists.1 (getLast?_isSome.2 hne)
        rw [afterName, hread.last, hx]
        exact isNameChar_of_isBlank (isBlank_of_isAsciiBlank (hgap x (mem_of_mem_getLast? hx)))
      · rw [beforeName, hfrest]
        exact head?_of_trailing hk hbehind
    obtain ⟨d, hd, hread''⟩ := ih (forall_mem_cons.1 hwords).2 hfrest hk
    refine ⟨d, ?_, hread.trans (hread'.trans hread'')⟩
    rw [rest?, he, bind_eq_bind, bind_some, hhere]
    exact hd

/-- A phrase that is read stands in the text. -/
theorem stands_of_here? (hc : At m c) (hd : here? first c = some d) (he : rest? others d = some e) :
    ∃ front k,
      m = front ++ (k ++ e.rest) ∧ c.offset = front.size ∧ e.offset = front.size + k.size ∧
        Stands first others front k e.rest := by
  obtain ⟨front, hm, hoffset, hlast⟩ := hc
  obtain ⟨-, hbefore, -, hbehind⟩ := here?_eq_some.1 hd
  obtain ⟨w, hw, hlower, -⟩ := here?_reads hd
  obtain ⟨k, hk, htrailing⟩ := trailing_of_rest? he
  have hread := hw.trans hk
  refine ⟨front, w ++ k, ?_, hoffset, ?_, ⟨w, k, rfl, hlower, htrailing⟩, ?_, ?_⟩
  · rw [hm, hread.rest]
  · rw [hread.offset, hoffset]
  · rw [← hlast]
    exact hbefore
  · by_cases hne : others = []
    · subst hne
      cases he
      exact hbehind
    · exact beforeName_of_rest? hne he

/-! ### Searching for a phrase -/

/-- Whatever a search finds is a phrase that stands behind the offset. -/
theorem exists_of_mem_phrases {s : Span} (h : s ∈ phrases wanted m (first :: others) offset) :
    ∃ front k rest, m = front ++ (k ++ rest) ∧
      Stands first others front k rest ∧ s = ⟨front.size, front.size + k.size⟩ ∧
      offset ≤ front.size ∧ wanted front.size := by
  obtain ⟨-, u, c, d, e, hu, hc, hd, he, rfl, hwanted⟩ := at_of_mem_phrases h
  obtain ⟨front, k, hm, hfront, hend, hstands⟩ := stands_of_here? hc hd he
  refine ⟨front, k, e.rest, hm, hstands, by rw [spanTo, hfront, hend], ?_, hfront ▸ hwanted⟩
  rw [← hfront]
  exact hu.le

section

open Literal Nesting

variable (h : Stands first others front k rest) (hfirst : Named first)
  (hothers : ∀ w ∈ others, Named w)
include h hfirst hothers

theorem Stands.mem : ∀ c ∈ k, isNameChar c ∨ isAsciiBlank c := by
  obtain ⟨w, k', rfl, hlower, htrailing⟩ := h.spelled
  rw [forall_mem_append]
  exact ⟨fun c hc => .inl ((isNameChar_of_lower hlower hfirst).2 c hc),
    mem_of_trailing hothers htrailing⟩

theorem Stands.no_quote : Code k := by
  intro c hc
  rcases h.mem hfirst hothers c hc with hname | hblank
  · exact isQuote_of_class hname (by decide) (by decide)
  · exact isQuote_of_class hblank (by decide) (by decide)

omit hothers in
theorem Stands.ne_nil : k ≠ [] := by
  obtain ⟨x, word, rfl⟩ := exists_cons_of_ne_nil hfirst.1
  obtain ⟨c, v, rfl, -⟩ := h.exists_cons
  exact cons_ne_nil c v

theorem Stands.mask (hfront : Closed front) :
    mask (front ++ (k ++ rest)) = mask front ++ (k ++ mask rest) ∧
      Stands first others (mask front) k (mask rest) := by
  refine ⟨mask_append_code hfront (h.ne_nil hfirst) (h.no_quote hfirst hothers) rest,
    h.spelled, ?_, ?_⟩
  · rw [hfront.getLast?_mask]
    exact h.before
  · rw [head?_mask]
    exact h.behind

theorem Stands.exists_here? (hlast : c.last = front.getLast?) (hrest : c.rest = k ++ rest) :
    ∃ d e, here? first c = some d ∧ rest? others d = some e ∧ Reads c k e := by
  obtain ⟨w, k', rfl, hlower, htrailing⟩ := h.spelled
  rw [append_assoc] at hrest
  obtain ⟨d, hd, hread⟩ := exists_plain? hrest hlower
  have hdrest : d.rest = k' ++ rest := append_cancel_left (by rw [← hread.rest, hrest])
  obtain ⟨e, he, hread'⟩ := exists_rest? hothers hdrest htrailing h.behind
  refine ⟨d, e, here?_eq_some.2 ⟨hfirst.1, ?_, hd, ?_⟩, he, hread.trans hread'⟩
  · rw [afterName, hlast]
    exact h.before
  · rw [beforeName, hdrest]
    exact head?_of_trailing htrailing h.behind

/-- What a search reads in front of a phrase does not reach into it. -/
theorem Stands.le_of_here? {z : Text} {x : Char} (hfront : front = u ++ x :: z)
    (hrest : c.rest = x :: z ++ (k ++ rest)) (hd : here? first c = some d)
    (he : e = d ∨ rest? others d = some e ∧ ∀ w ∈ others, lower first ≠ lower w) :
    e.offset ≤ c.offset + size (x :: z) := by
  obtain ⟨w, k₀, rfl, hlower, htrailing⟩ := h.spelled
  obtain ⟨hw, hname⟩ := isNameChar_of_lower hlower hfirst
  obtain ⟨w', hread, hlower', -⟩ := here?_reads hd
  obtain ⟨hw', hname'⟩ := isNameChar_of_lower hlower' hfirst
  have hlead : (x :: z).getLast?.any isNameChar = false := by
    have hbefore := h.before
    rwa [hfront, getLast?_append_of_ne_nil _ (cons_ne_nil x z)] at hbefore
  have htail : ∃ k', Reads d k' e ∧ e.rest.head?.any isNameChar = false ∧
      ∃ words, Trailing words k' ∧ ∀ v ∈ words, v ∈ others ∧ lower first ≠ lower v := by
    rcases he with rfl | ⟨he, hdistinct⟩
    · exact ⟨[], .refl _, (here?_eq_some.1 hd).2.2.2, [], rfl, by simp⟩
    · obtain ⟨k', hk', htrailing'⟩ := trailing_of_rest? he
      by_cases hne : others = []
      · subst hne
        cases he
        exact ⟨[], .refl _, (here?_eq_some.1 hd).2.2.2, [], rfl, by simp⟩
      · exact ⟨k', hk', beforeName_of_rest? hne he, others, htrailing',
          fun v hv => ⟨hv, hdistinct v hv⟩⟩
  obtain ⟨k', hread', hbehind, words, hwords, hsub⟩ := htail
  have hboth := hread.trans hread'
  by_contra hlt
  rw [hboth.offset, Nat.not_le, size_append] at hlt
  -- so the phrase begins inside what was read
  have hcut : w' ++ (k' ++ e.rest) = x :: z ++ (w ++ (k₀ ++ rest)) := by
    rw [← append_assoc w k₀, ← hrest, hboth.rest, append_assoc]
  rcases append_eq_append_iff.1 hcut with ⟨v, hv, hkr⟩ | ⟨v, hv, -⟩
  · by_cases hne : v = []
    · subst hne
      rw [hv, append_nil, ← nil_append w', any_getLast?_append hw' hname'] at hlead
      cases hlead
    · rw [hv, getLast?_append_of_ne_nil _ hne] at hlead
      have hlen : size v < size k' := by
        rw [hv, size_append] at hlt
        omega
      obtain ⟨word, hword, heq⟩ :=
        exists_word_of_trailing (fun v hv => hothers v (hsub v hv).1) hwords hbehind
        hkr hlen hlead hw hname (head?_of_trailing htrailing h.behind)
      exact (hsub word hword).2 (hlower.symm.trans heq)
  · rw [← nil_append (x :: z), any_getLast?_append (by simp) fun c hc =>
      hname' c (by rw [hv]; exact mem_append_left _ hc)]
      at hlead
    cases hlead

/-- A search finds a phrase that stands behind the offset, or an earlier one, if an earlier one that
reaches into it is wanted too. -/
theorem Stands.exists_head? (hwanted : wanted front.size)
    (hreach : ∀ (u : Text) x z d e, front = u ++ x :: z →
      here? first ⟨u.size, u.getLast?, x :: z ++ (k ++ rest)⟩ = some d →
      rest? others d = some e → front.size < e.offset → wanted u.size)
    (hoffset : (front ++ (k ++ rest)).isBoundary offset)
    (hle : offset ≤ front.size) :
    ∃ s, (phrases wanted (front ++ (k ++ rest)) (first :: others) offset).head? = some s ∧
      s.start ≤ front.size := by
  obtain ⟨a, b, hcut, rfl⟩ := isBoundary_iff.1 hoffset
  obtain ⟨u, rfl, -⟩ := exists_append_of_size_le hcut.symm hle
  have hk : k ++ rest ≠ [] := by
    obtain ⟨w, k', rfl, hlower, -⟩ := h.spelled
    have hw := (isNameChar_of_lower hlower hfirst).1
    simp [hw]
  have hlast : u.getLast?.or a.getLast? = (a ++ u).getLast? := by
    rw [getLast?_append]
  obtain ⟨d, e, hd, he, -⟩ := h.exists_here? hfirst hothers
    (c := ⟨a.size + u.size, u.getLast?.or a.getLast?, k ++ rest⟩) hlast rfl
  rw [phrases, hoffset]
  rw [append_assoc, ofOffset, before_size_append, after_size_append]
  refine exists_head?_scanFrom (P := fun s : Span => s.start ≤ size (a ++ u))
    (x := ⟨a.size + u.size, e.offset⟩) (k := e.offset) hk ?_ ?_ (Nat.le_add_right _ _) ?_
  · have hw : wanted (a.size + u.size) := by
      rw [← size_append]
      exact hwanted
    simp only [hd, he, hw, bind_eq_bind, bind_some]
    rfl
  · exact Nat.le_of_eq (size_append a u).symm
  · intro v x z found stop hu hstep
    have hfront : a ++ u = a ++ v ++ x :: z := by rw [hu, append_assoc]
    have hend : a.size + v.size + size (x :: z) = a.size + u.size := by
      rw [hu, size_append, Nat.add_assoc]
    obtain ⟨d', hd', hstep⟩ := bind_eq_some_iff.1 hstep
    split at hstep
    · cases hstep
      refine ⟨fun _ => ?_, by simp⟩
      rw [← hend]
      exact h.le_of_here? hfirst hothers hfront rfl hd' (.inl rfl)
    · next e' he' =>
      cases hstep
      refine ⟨fun hnone => ?_, fun y hy => ?_⟩
      · by_contra hlt
        rw [← size_append, Nat.not_le] at hlt
        have hearlier : wanted (size (a ++ v)) := hreach (a ++ v) x z d' e' hfront
          (by rw [size_append, getLast?_append]; exact hd') he' hlt
        rw [size_append] at hearlier
        simp [hearlier] at hnone
      · split at hy
        · cases hy
          rw [size_append, ← hend]
          exact Nat.le_add_right _ _
        · cases hy

theorem Stands.exists_findPhrase? :
    ∃ s, findPhrase? (front ++ (k ++ rest)) (first :: others) 0 = some s := by
  have hzero : (front ++ (k ++ rest)).isBoundary 0 := isBoundary_iff.2 ⟨[], _, rfl, rfl⟩
  obtain ⟨s, hs, -⟩ :
      ∃ s, (phrases (fun _ => true) (front ++ (k ++ rest)) (first :: others) 0).head?
      = some s ∧ s.start ≤ front.size :=
    h.exists_head? hfirst hothers rfl (fun _ _ _ _ _ _ _ _ _ => rfl) hzero (Nat.zero_le _)
  exact ⟨s, hs⟩

/-- A phrase at depth zero is found, or an earlier one. -/
theorem Stands.exists_findTop? (htop : depth front = 0)
    (hoffset : (front ++ (k ++ rest)).isBoundary offset) (hle : offset ≤ front.size) :
    ∃ s, findTop? (front ++ (k ++ rest)) (first :: others) offset = some s ∧
      s.start ≤ front.size := by
  have hdepth {u v : Text} (hu : depth u = 0) : (depthAt (u ++ v) u.size == 0) = true := by
    rw [beq_iff_eq, depthAt, before_size_append, hu]
  refine h.exists_head? hfirst hothers (hdepth htop) (fun u x z d e hfront hd he hlt => ?_)
    hoffset hle
  -- a phrase that reaches into this one stands at the same depth: there is no parenthesis in a
  -- phrase
  subst hfront
  rw [append_assoc]
  obtain ⟨u', k', hcut, hsize, hend, hstands⟩ := stands_of_here? ⟨u, rfl, rfl, rfl⟩ hd he
  obtain ⟨rfl, hphrase⟩ := append_inj_of_size hcut hsize
  obtain ⟨y, rfl, -⟩ := exists_append_of_size_le hphrase (by rw [size_append] at hlt; omega)
  have hplain : ∀ c ∈ x :: z, c ≠ '(' ∧ c ≠ ')' := by
    intro c hc
    have hmem := hstands.mem hfirst hothers c (mem_append_left y hc)
    constructor <;> (rintro rfl; exact absurd hmem (by decide))
  rw [depth, foldl_append, foldl_step_of_level? (level?_of_no_paren hplain _)] at htop
  exact hdepth htop

/-- A phrase at a place is read in one way only. -/
theorem Stands.eq_of_front {k' rest' : Text} (h' : Stands first others front k' rest')
    (heq : k ++ rest = k' ++ rest') : k = k' := by
  obtain ⟨d, e, hd, he, hread⟩ :=
    h.exists_here? hfirst hothers (c := ⟨0, front.getLast?, k ++ rest⟩) rfl rfl
  obtain ⟨d', e', hd', he', hread'⟩ :=
    h'.exists_here? hfirst hothers (c := ⟨0, front.getLast?, k ++ rest⟩) rfl heq
  obtain rfl : d = d' := some.inj (hd.symm.trans hd')
  obtain rfl : e = e' := some.inj (he.symm.trans he')
  have hsize : k.size = k'.size := by
    have hoffset := hread.offset.symm.trans hread'.offset
    omega
  exact (append_inj_of_size heq hsize).1

end

/-! ### The first phrase at depth zero -/

open Literal Nesting

/-- The phrase stands at a span of the text, at depth zero. -/
def TopAt (first : Text) (others : List Text) (t : Text) (span : Span) : Prop :=
  ∃ front k rest, t = front ++ (k ++ rest) ∧ Stands first others front k rest ∧
    depthAt t span.start = 0 ∧
    span = ⟨front.size, front.size + k.size⟩

/-- A search finds the first phrase at depth zero from the offset on, and nothing exactly if there
is none. -/
theorem findTop?_first (hfirst : Named first) (hothers : ∀ w ∈ others, Named w)
    (hoffset : t.isBoundary offset) :
    (∀ span, findTop? t (first :: others) offset = some span ↔ TopAt first others t span ∧
      offset ≤ span.start ∧
      ∀ span', TopAt first others t span' → offset ≤ span'.start → span.start ≤ span'.start) ∧
    (findTop? t (first :: others) offset = none ↔ ∀ span, TopAt first others t span →
      span.start < offset) := by
  have hsound {span : Span} (h : findTop? t (first :: others) offset = some span) :
      TopAt first others t span ∧ offset ≤ span.start := by
    obtain ⟨front, k, rest, ht, hstands, rfl, hle, hdepth⟩ :=
      exists_of_mem_phrases (mem_of_mem_head? h)
    exact ⟨⟨front, k, rest, ht, hstands, beq_iff_eq.1 hdepth, rfl⟩, hle⟩
  have hcomplete {span' : Span} (h : TopAt first others t span') (hle : offset ≤ span'.start) :
      ∃ span, findTop? t (first :: others) offset = some span ∧ span.start ≤ span'.start := by
    obtain ⟨front, k, rest, rfl, hstands, hdepth, rfl⟩ := h
    rw [depthAt, before_size_append] at hdepth
    exact hstands.exists_findTop? hfirst hothers hdepth hoffset hle
  refine ⟨fun span => ⟨fun h => ⟨(hsound h).1, (hsound h).2, fun span' htop hle => ?_⟩, ?_⟩,
    fun h span htop => ?_, ?_⟩
  · obtain ⟨span₂, hspan₂, hle⟩ := hcomplete htop hle
    rw [h] at hspan₂
    cases hspan₂
    exact hle
  · rintro ⟨htop, hle, hleast⟩
    obtain ⟨span', hspan', hle'⟩ := hcomplete htop hle
    obtain ⟨htop', hoffset'⟩ := hsound hspan'
    have hge := hleast span' htop' hoffset'
    obtain ⟨front, k, rest, rfl, hstands, -, rfl⟩ := htop
    obtain ⟨front', k', rest', hcut, hstands', -, rfl⟩ := htop'
    obtain ⟨rfl, hphrase⟩ := append_inj_of_size hcut (Nat.le_antisymm hge hle')
    rw [hspan', hstands.eq_of_front hfirst hothers hstands' hphrase]
  · by_contra hle
    obtain ⟨span', hspan', -⟩ := hcomplete htop (Nat.le_of_not_lt hle)
    rw [h] at hspan'
    cases hspan'
  · intro hnone
    cases h : findTop? t (first :: others) offset with
    | none => rfl
    | some span =>
      obtain ⟨htop, hle⟩ := hsound h
      exact absurd (hnone span htop) (Nat.not_lt.2 hle)

/-- Phrases that overlap, that stand inside parentheses, and whose words are part of others. -/
theorem findTop?_first_overlapping : let t : Text := "a (a a a) _a a\tA a"
    t.isBoundary 2 ∧ findTop? t ["A", "a"] 2 = some ⟨13, 16⟩ ∧ TopAt "A" ["a"] t ⟨13, 16⟩ ∧
      ∀ span, TopAt "A" ["a"] t span → 2 ≤ span.start → 13 ≤ span.start := by
  intro t
  have hspan : findTop? t ["A", "a"] 2 = some ⟨13, 16⟩ := by decide +kernel
  obtain ⟨htop, -, hleast⟩ :=
    ((findTop?_first (by decide) (by decide) (by decide +kernel)).1 _).1 hspan
  exact ⟨by decide +kernel, hspan, htop, hleast⟩

/-! ### Phrases in code -/

/-- A phrase that shows in the mask stands in the text, outside literals. -/
theorem Stands.of_mask (hfirst : Named first) (hothers : ∀ w ∈ others, Named w)
    (hshows : Shows Char.toLower first) (hm : Literal.mask t = front ++ (k ++ rest))
    (h : Stands first others front k rest) :
    ∃ a r, t = a ++ (k ++ r) ∧ Closed a ∧ Literal.mask a = front ∧ Literal.mask r = rest ∧
      Stands first others a k r := by
  have hquote := h.no_quote hfirst hothers
  obtain ⟨x, word, rfl⟩ := exists_cons_of_ne_nil hfirst.1
  obtain ⟨c, v, rfl, hc⟩ := h.exists_cons
  have hfiller : c ≠ filler := by
    rintro rfl
    have hx : x.toLower = filler := hc.symm
    simp [Shows, hx] at hshows
  have hfree := free_of_code (a := front) (b := v ++ rest) hm (hquote c (by simp)) hfiller
  obtain ⟨a, r, rfl, -, ha, rfl⟩ := hfree.exists_stretch hm hquote
  have hrest : Literal.mask r = rest := by
    rw [mask_append_code ha (by simp) hquote] at hm
    exact append_cancel_left (append_cancel_left hm)
  refine ⟨a, r, rfl, ha, rfl, hrest, h.spelled, ?_, ?_⟩
  · rw [← ha.getLast?_mask]
    exact h.before
  · rw [← head?_mask, hrest]
    exact h.behind

/-- The phrase stands in the code of a text, outside all parentheses. -/
structure Topmost (first : Text) (others : List Text) (front k rest : Text) : Prop
    extends Stands first others front k rest where
  closed : Closed front
  top : codeDepth none 0 front = 0

section

variable {first : Text} {others : List Text} (hfirst : Named first)
  (hothers : ∀ w ∈ others, Named w)
include hfirst hothers

theorem topmost_of_mem_topPhrases (hshows : Shows Char.toLower first) {s : Span}
    (hs : s ∈ topPhrases (mask t) (first :: others) offset) : ∃ a k r, t = a ++ (k ++ r) ∧
      Topmost first others a k r ∧ s = ⟨a.size, a.size + k.size⟩ ∧ offset ≤ a.size := by
  obtain ⟨front, k, rest, hm, hstands, rfl, hle, hdepth⟩ := exists_of_mem_phrases hs
  obtain ⟨a, r, rfl, ha, rfl, rfl, hstands'⟩ := hstands.of_mask hfirst hothers hshows hm
  rw [size_mask] at hle
  refine ⟨a, k, r, rfl, ⟨hstands', ha, ?_⟩, by rw [size_mask], hle⟩
  rw [beq_iff_eq, depthAt, hm, before_size_append, depth_mask] at hdepth
  exact hdepth

/-- A search from an offset finds a phrase that stands behind it, or an earlier one. -/
theorem Topmost.exists_findTop? (h : Topmost first others front k rest)
    (hoffset : (mask (front ++ (k ++ rest))).isBoundary offset) (hle : offset ≤ front.size) :
    ∃ s, findTop? (mask (front ++ (k ++ rest))) (first :: others) offset = some s ∧
      s.start ≤ front.size := by
  obtain ⟨hm, hstands⟩ := h.toStands.mask hfirst hothers h.closed
  rw [← size_mask front] at hle ⊢
  rw [hm] at hoffset ⊢
  exact hstands.exists_findTop? hfirst hothers (by rw [depth_mask, h.top]) hoffset hle

end

/-- A WHERE that is set off is a phrase outside all parentheses. -/
theorem SetOff.topmost (h : SetOff front w rest) : Topmost "WHERE" [] front w rest where
  spelled := ⟨w, [], by simp, h.spelled, rfl⟩
  before := by
    obtain ⟨b, hb, hblank⟩ := h.lead
    rw [hb]
    exact isNameChar_of_isBlank hblank
  behind := by
    cases hr : rest.head? with
    | none => rfl
    | some x =>
      rcases h.trail x hr with hx | rfl
      · exact isNameChar_of_isBlank hx
      · rfl
  closed := h.closed
  top := h.top

/-- A search for a WHERE that is set off, from a place before it, finds it, or one before it. -/
theorem SetOff.exists_findTop? (h : SetOff front w rest) (hle : offset ≤ front.size)
    (hplace : Outside (mask (front ++ (w ++ rest))) offset) :
    ∃ s, findTop? (mask (front ++ (w ++ rest))) ["WHERE"] offset = some s ∧ s.start ≤ front.size :=
  h.topmost.exists_findTop? (by decide) (by simp) hplace.isBoundary_mask hle

theorem HasWhere.exists_findTop? (h : HasWhere t) :
    ∃ s, findTop? (mask t) ["WHERE"] 0 = some s := by
  obtain ⟨front, word, rest, rfl, h⟩ := h
  obtain ⟨s, hs, -⟩ := h.exists_findTop? (Nat.zero_le _) (outside_zero _)
  exact ⟨s, hs⟩

/-- Words that are found wherever they stand. -/
def Sought : List Text → Prop
  | [] => False
  | first :: others => Named first ∧ (∀ w ∈ others, Named w) ∧ Shows Char.toLower first = true ∧
    ∀ w ∈ others, lower first ≠ lower w

instance (words : List Text) : Decidable (Sought words) := by
  cases words <;> unfold Sought <;> infer_instance

end Recast.Keyword
