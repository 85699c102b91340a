import Recast.Proofs.Depth
import Recast.Proofs.Landmarks

/-!
# A word that is set off

A keyword can be lost in two ways: what is put in front of it or behind it joins it to a longer
word, or it ends up inside a literal or parentheses. Neither can happen to a WHERE that is set off
by blanks (`SetOff`) as long as the edits around it keep out of its way (`Spares`) and put in
nothing that leaves a literal or a parenthesis open (`SetOff.applyAll`).
-/

namespace Recast.Keyword

open Literal Nesting List Text
open Option hiding guard

variable {done p q r t x y z : Text} {b c : Char} {n : Nat} {s : Span} {e : Edit}
  {edits : List Edit}

/-! ### The word -/

/-- A WHERE at depth zero outside literals, between `front` and `rest`, with a blank before it and a
blank, a parenthesis or nothing behind it. -/
structure SetOff (front word rest : Text) : Prop where
  closed : Closed front
  top : codeDepth none 0 front = 0
  lead : ∃ b, front.getLast? = some b ∧ isBlank b = true
  spelled : lower word = lower "WHERE"
  trail : ∀ c, rest.head? = some c → isBlank c = true ∨ c = '('

def isLetter (c : Char) : Bool := ['w', 'h', 'e', 'r'].contains c.toLower

theorem isBlank_of_isLetter (h : isLetter c) : isBlank c = false := isBlank_of_class h (by decide)

/-- Where the two texts meet, at most one of them has a letter of the word. -/
def Parted (x z : Text) : Prop :=
  ∀ a b, x.getLast? = some a → z.head? = some b → isLetter a = true → isLetter b = false

/-- A stretch of code that starts with none of the letters of the word, does not end in a blank, and
has a `w` behind a blank only inside parentheses. -/
structure Compact (y : Text) : Prop where
  first : ∃ c r, y = c :: r ∧ isLetter c = false ∧ isBlank c = false ∧ c ≠ '('
  last : ∀ c, y.getLast? = some c → isBlank c = false
  inside :
      ∀ u b c v, y = u ++ b :: c :: v → isBlank b = true → c.toLower = 'w' →
      ∀ d, 0 < (u ++ [b]).foldl step d

/-- How a stretch of a text lies to a word of it: it ends in front of the word with something
between them, or reaches up to the word, or starts in the word, or behind it. -/
theorem stretch_cases {front word rest a b : Text} (h : front ++ (word ++ rest) = a ++ (y ++ b))
    (hword : word ≠ []) (hy : y ≠ []) :
    a.size + y.size < front.size ∨
      (∃ u v, u ≠ [] ∧ front = a ++ u ∧ y = u ++ v ∧ v ++ b = word ++ rest) ∨
      (∃ u c v, word = u ++ c :: v ∧ a = front ++ u ∧ y ++ b = c :: v ++ rest) ∨
      ∃ u, rest = u ++ (y ++ b) ∧ a = front ++ (word ++ u) := by
  rcases append_eq_append_iff.1 h with ⟨u, rfl, hu⟩ | ⟨u, hfront, hu⟩
  · rcases append_eq_append_iff.1 hu with ⟨v, rfl, hv⟩ | ⟨v, hv, hv'⟩
    · exact .inr (.inr (.inr ⟨v, hv, rfl⟩))
    · cases v with
      | nil => exact .inr (.inr (.inr ⟨[], by simpa using hv'.symm, by simpa using hv.symm⟩))
      | cons c v => exact .inr (.inr (.inl ⟨u, c, v, hv, rfl, hv'⟩))
  · rcases append_eq_append_iff.1 hu with ⟨v, rfl, hv⟩ | ⟨v, rfl, hv⟩
    · cases v with
      | nil => exact .inr (.inl ⟨y, [], hy, by simpa using hfront, by simp, hv⟩)
      | cons c v =>
        left
        have hpos := c.utf8Size_pos
        rw [hfront]
        simp only [size_append, size_cons]
        omega
    · cases u with
      | nil =>
        obtain ⟨c, v', rfl⟩ := exists_cons_of_ne_nil hword
        exact .inr (.inr (.inl ⟨[], c, v', rfl, by simpa using hfront.symm, hv.symm⟩))
      | cons c u => exact .inr (.inl ⟨c :: u, v, by simp, hfront, rfl, hv.symm⟩)

/-- Somewhere in the text a WHERE is set off. -/
def HasWhere (t : Text) : Prop :=
  ∃ front word rest, t = front ++ (word ++ rest) ∧ SetOff front word rest

namespace SetOff

variable {front word rest : Text} (h : SetOff front word rest)
include h

/-! ### The word and its surroundings -/

theorem exists_cons :
    ∃ w v, word = w :: v ∧ w.toLower = 'w' ∧ ∀ c ∈ v, c.toLower ∈ ['h', 'e', 'r'] := by
  obtain ⟨w, v, rfl, hw, hv⟩ := map_eq_cons_iff.1 h.spelled
  refine ⟨w, v, rfl, hw, fun c hc => ?_⟩
  have hmem : c.toLower ∈ lower v := mem_map_of_mem hc
  rw [lower, hv] at hmem
  revert hmem
  generalize c.toLower = x
  intro hx
  have hall : ∀ x ∈ ['h', 'e', 'r', 'e'], x ∈ ['h', 'e', 'r'] := by decide
  exact hall x hx

theorem ne_nil : word ≠ [] := by
  obtain ⟨w, v, rfl, -⟩ := h.exists_cons
  simp

theorem isLetter_of_mem : ∀ c ∈ word, isLetter c := by
  obtain ⟨w, v, rfl, hw, hv⟩ := h.exists_cons
  intro c hc
  rcases mem_cons.1 hc with rfl | hc
  · simp [isLetter, hw]
  · simp [isLetter, mem_cons_of_mem _ (hv c hc)]

theorem no_quote : Code word :=
  sees_toLower.no_quote h.spelled (by decide)

theorem mask_eq : mask (front ++ (word ++ rest)) = mask front ++ (word ++ mask rest) := by
  obtain ⟨w, v, rfl, -, -⟩ := h.exists_cons
  have hno := h.no_quote
  have hapart : Apart front (w :: v ++ rest) := apart_code (hno w (by simp))
  rw [mask_append h.closed hapart, hno.mask_append]

theorem getLast?_mask : ∃ b, (mask front).getLast? = some b ∧ isBlank b := by
  obtain ⟨b, hb, hblank⟩ := h.lead
  obtain ⟨u, rfl⟩ := getLast?_eq_some_iff.1 hb
  have hclosed : Closed u := h.closed.of_append (by simpa using isQuote_of_isBlank hblank)
  refine ⟨b, ?_, hblank⟩
  rw [mask_append_cons hclosed (isQuote_of_isBlank hblank)]
  simp [mask, shade, shadeFrom]

/-! ### Texts that do not reach into the word -/

theorem lt_of_behind {f m u : Text} (hhead : m.head? = rest.head?) (hm : m = u ++ c :: z)
    (hc : isBlank c = false ∧ c ≠ '(') : f.size + word.size < size (f ++ (word ++ u)) := by
  cases u with
  | nil =>
    rcases h.trail c (by rw [← hhead, hm]; rfl) with hblank | hparen
    · simp [hc.1] at hblank
    · exact absurd hparen hc.2
  | cons z u =>
    have hpos := z.utf8Size_pos
    simp only [size_append, size_cons]
    omega

/-- A stretch of the mask that is compact is clear of the word. -/
theorem clear_of_compact (hy : Compact y)
    (hm : mask (front ++ (word ++ rest)) = p ++ (y ++ q)) :
    size p + size y < front.size ∨ front.size + word.size < size p := by
  obtain ⟨x, y', hxy, hletter, hspace, hparen⟩ := hy.first
  have hne : y ≠ [] := by simp [hxy]
  rw [h.mask_eq] at hm
  rw [← size_mask front]
  rcases stretch_cases hm h.ne_nil hne with hlt | ⟨u, v, hu, hfront, hyu, hv⟩ |
    ⟨u, c, v, hword, -, hc⟩ | ⟨u, hrest, rfl⟩
  · exact .inl hlt
  · -- up to the word it has the blank before the word, and then not a `w` at depth zero
    exfalso
    obtain ⟨b, hb, hblank⟩ := h.getLast?_mask
    obtain ⟨w, word', rfl, hw, -⟩ := h.exists_cons
    rw [hfront, getLast?_append_of_ne_nil _ hu] at hb
    obtain ⟨u, rfl⟩ := getLast?_eq_some_iff.1 hb
    cases v with
    | nil =>
      simp [hy.last b (by rw [hyu, append_nil, getLast?_concat])] at hblank
    | cons z v =>
      obtain ⟨rfl, -⟩ := cons.inj hv
      have hdepth : (mask front).foldl step 0 = 0 := by rw [foldl_step_mask, h.top]
      have hpos := hy.inside u b z v (by rw [hyu]; simp) hblank hw (p.foldl step 0)
      rw [hfront, foldl_append] at hdepth
      omega
  · rw [hxy] at hc
    obtain ⟨rfl, -⟩ := cons.inj hc
    simp [h.isLetter_of_mem x (by rw [hword]; simp)] at hletter
  · rw [hxy] at hrest
    exact .inr (h.lt_of_behind (head?_mask rest) hrest ⟨hspace, hparen⟩)

/-- A name that starts where the word starts is the word. -/
theorem lower_eq_of_name (hm : word ++ mask rest = x ++ z) (hne : x ≠ [])
    (hx : ∀ c ∈ x, isBlank c = false ∧ c ≠ '(') (hright : Parted x z) :
    lower x = lower "WHERE" := by
  rcases append_eq_append_iff.1 hm with ⟨u, rfl, hu⟩ | ⟨u, rfl, hu⟩
  · cases u with
    | nil => simpa using h.spelled
    | cons c u =>
      have hlt := h.lt_of_behind (f := front) (u := []) (head?_mask rest) (by simpa using hu)
        (hx c (by simp))
      rw [append_nil, size_append] at hlt
      omega
  · cases u with
    | nil => simpa using h.spelled
    | cons c u =>
      obtain ⟨a, ha⟩ := isSome_iff_exists.1 (getLast?_isSome.2 hne)
      have hmem := mem_append_left (c :: u) (mem_of_mem_getLast? ha)
      have hletter := h.isLetter_of_mem c (by simp)
      simp [hright a c ha (by rw [hu]; rfl) (h.isLetter_of_mem a hmem)] at hletter

/-- A name other than the word, and what follows it without a `w`, is clear of the word, but may end
where the word starts. -/
theorem clear_of_name (hm : mask (front ++ (word ++ rest)) = p ++ (x ++ (y ++ q)))
    (hne : x ≠ []) (hx : ∀ c ∈ x, isBlank c = false ∧ c ≠ '(') (hother : lower x ≠ lower "WHERE")
    (hleft : front.size < p.size → Parted p x) (hright : Parted x (y ++ q))
    (hy : ∀ c ∈ y, c.toLower ≠ 'w') :
    p.size + x.size + y.size ≤ front.size ∨ front.size + word.size < p.size := by
  rw [h.mask_eq] at hm
  rcases stretch_cases hm h.ne_nil hne with hlt | ⟨u, v, hu, hfront, hxu, -⟩ |
    ⟨u, c, v, hword, rfl, hc⟩ | ⟨u, hrest, rfl⟩
  · -- in front of the word: what follows the name ends before the `w`
    left
    have hm' : mask front ++ (word ++ mask rest) = (p ++ x) ++ (y ++ q) := by rw [hm, append_assoc]
    rw [← size_mask front]
    rw [← size_append] at hlt
    rcases append_eq_append_iff.1 hm' with ⟨u, hu, -⟩ | ⟨u, hu, hu'⟩
    · rw [hu, size_append] at hlt
      omega
    · rcases append_eq_append_iff.1 hu' with ⟨v, rfl, -⟩ | ⟨v, rfl, hv⟩
      · rw [hu]
        simp only [size_append]
        omega
      · cases v with
        | nil =>
          rw [hu]
          simp only [size_append, append_nil]
          omega
        | cons z v =>
          obtain ⟨w, word', rfl, hw, -⟩ := h.exists_cons
          obtain ⟨rfl, -⟩ := cons.inj hv
          exact absurd hw (hy w (by simp))
  · -- it would reach over the blank before the word
    obtain ⟨b, hb, hblank⟩ := h.getLast?_mask
    rw [hfront, getLast?_append_of_ne_nil _ hu] at hb
    have hmem : b ∈ x := by
      rw [hxu]
      exact mem_append_left v (mem_of_mem_getLast? hb)
    simp [(hx b hmem).1] at hblank
  · exfalso
    cases eq_nil_or_concat u with
    | inl hnil =>
      subst hnil
      rw [nil_append] at hword
      rw [← hword] at hc
      exact hother (h.lower_eq_of_name hc.symm hne hx hright)
    | inr hconcat =>
      -- inside the word
      obtain ⟨u, b, rfl⟩ := hconcat
      rw [concat_eq_append] at hword hleft
      obtain ⟨a, x, rfl⟩ := exists_cons_of_ne_nil hne
      obtain ⟨rfl, -⟩ := cons.inj hc
      have hsize : front.size < size (mask front ++ (u ++ [b])) := by
        have hpos := b.utf8Size_pos
        simp only [size_append, size_mask, size_cons]
        omega
      have hletter := h.isLetter_of_mem a (by rw [hword]; simp)
      simp [hleft hsize b a (by simp) rfl (h.isLetter_of_mem b (by rw [hword]; simp))] at hletter
  · obtain ⟨a, x, rfl⟩ := exists_cons_of_ne_nil hne
    rw [← size_mask front]
    exact .inr (h.lt_of_behind (head?_mask rest) hrest (hx a (by simp)))

theorem ends_in_blank (hm : mask (front ++ (word ++ rest)) = p ++ (y ++ q))
    (hne : y ≠ []) (hsize : p.size + y.size = front.size) :
    ∃ b, y.getLast? = some b ∧ isBlank b := by
  obtain ⟨b, hb, hblank⟩ := h.getLast?_mask
  have hfront : mask front = p ++ y := by
    rw [h.mask_eq, ← append_assoc p] at hm
    exact (append_inj_of_size hm (by rw [size_mask, ← hsize, size_append])).1
  rw [hfront, getLast?_append_of_ne_nil _ hne] at hb
  exact ⟨b, hb, hblank⟩

/-- A literal is clear of the word. -/
theorem clear_of_literal (hs : s ∈ spans (front ++ (word ++ rest))) :
    s.stop < front.size ∨ front.size + word.size < s.start := by
  obtain ⟨b, hb, hblank⟩ := h.lead
  obtain ⟨f, rfl⟩ := getLast?_eq_some_iff.1 hb
  have hbq := isQuote_of_isBlank hblank
  have hf : Closed f := h.closed.of_append (by simpa using hbq)
  have hcode : Code (b :: word) := by simpa using ⟨hbq, h.no_quote⟩
  have hsize : size (f ++ [b]) = size f + b.utf8Size := by
    rw [size_append]
    rfl
  have hpos := b.utf8Size_pos
  obtain ⟨a, q, u, r, ht, -, -, hq, -, -, hspan⟩ := exists_of_mem_spans hs
  rw [show f ++ [b] ++ (word ++ rest) = f ++ (b :: word ++ rest) by simp] at hs
  rcases clear_of_mem_spans hf (by simp) hcode hs with hstop | hstart
  · left
    omega
  · -- what stands behind the word is no quote
    right
    rw [hspan] at hstart
    rw [hsize, hspan]
    refine Nat.lt_of_le_of_ne (by simpa [Nat.add_assoc] using hstart) fun heq => ?_
    rw [← append_assoc] at ht
    obtain ⟨-, hrest⟩ := append_inj_of_size ht (by rw [size_append, hsize, heq])
    rcases h.trail q (by rw [hrest]; rfl) with hblank | rfl
    · simp [isQuote_of_isBlank hblank] at hq
    · cases hq

end SetOff

/-! ### Edits -/

/-- An edit whose new text may stand in for what it replaces. -/
def Light (t : Text) (e : Edit) : Prop :=
  Lighter (state none (t.before e.span.start)) (codeDepth none 0 (t.before e.span.start)) e.new
    (t.slice e.span)

theorem light_of_closed (h : Closed (t.before e.span.start))
    (hlighter : ∀ d, Lighter none d e.new (t.slice e.span)) : Light t e := by
  rw [Light, show state none (t.before e.span.start) = none from h]
  exact hlighter _

/-- An edit that keeps out of the way of the word behind `front`. One that reaches up to the word
leaves a blank before it. -/
def Spares (front word : Text) (e : Edit) : Prop :=
  e.span.stop < front.size ∨
    (e.span.stop = front.size ∧ ∃ b, e.new.getLast? = some b ∧ isBlank b = true) ∨
    front.size + word.size < e.span.start

/-- Light edits make a text lighter. -/
theorem exists_lighter_applyFrom {limit : Nat} (h : ∀ e ∈ edits, e.span.stop ≤ limit → Light t e)
    (done : Text) :
    ∃ r, Edit.applyFrom t limit done edits = r ++ done ∧ Lighter none 0 r (t.before limit) := by
  induction edits generalizing limit done with
  | nil => exact ⟨t.before limit, rfl, .refl _ _ _⟩
  | cons e edits ih =>
    have hrest := fun k (hk : k ≤ limit) e' (he' : e' ∈ edits) (hstop : e'.span.stop ≤ k) =>
      h e' (mem_cons_of_mem e he') (Nat.le_trans hstop hk)
    rw [Edit.applyFrom]
    split
    · next hfits =>
      obtain ⟨⟨hle, hboundary, hboundary'⟩, hstop⟩ := Edit.fits_iff.1 hfits
      obtain ⟨r, hr, hlighter⟩ :=
        ih (hrest _ (Nat.le_trans hle hstop)) (e.new ++ t.slice ⟨e.span.stop, limit⟩ ++ done)
      have hfront := hlighter.append (h e (by simp) hstop)
      rw [← before_eq_append_slice hboundary hle] at hfront
      rw [before_eq_append_slice hboundary' hstop]
      exact ⟨r ++ e.new ++ t.slice ⟨e.span.stop, limit⟩, by rw [hr]; simp,
        hfront.append (.refl _ _ _)⟩
    · exact ih (hrest limit (Nat.le_refl _)) done

namespace SetOff

variable {front word rest : Text} (h : SetOff front word rest)
include h

/-- A lighter text that ends in a blank can stand in front of the word, and a text that starts as
well can follow it. -/
theorem exchange {front' rest' : Text} (hlight : Lighter none 0 front' front)
    (hlead : ∃ b, front'.getLast? = some b ∧ isBlank b)
    (htrail : ∀ c, rest'.head? = some c → isBlank c ∨ c = '(') :
    HasWhere (front' ++ (word ++ rest')) := by
  refine ⟨front', word, rest', rfl, hlight.state.trans h.closed, ?_, hlead, h.spelled, htrail⟩
  have hle := hlight.depth
  rw [h.top] at hle
  omega

/-- Once an edit in front of the word is made, everything behind that edit is settled. -/
theorem applyFrom_front
    (hlight : ∀ x ∈ e :: edits, x.span.stop ≤ front.size → Light (front ++ (word ++ rest)) x)
    (hle : e.span.start ≤ e.span.stop) (hstop : e.span.stop ≤ front.size)
    (hstart : (front ++ (word ++ rest)).isBoundary e.span.start)
    (hend : (front ++ (word ++ rest)).isBoundary e.span.stop)
    (hblank : e.span.stop = front.size → ∃ b, e.new.getLast? = some b ∧ isBlank b)
    (htrail : ∀ c, (rest.before n ++ done).head? = some c → isBlank c ∨ c = '(') :
    HasWhere (Edit.applyFrom (front ++ (word ++ rest)) e.span.start (e.new ++ slice
      (front ++ (word ++ rest)) ⟨e.span.stop, front.size + word.size + n⟩ ++ done) edits) := by
  have he := hlight e (by simp) hstop
  obtain ⟨r, hr, hlighter⟩ := exists_lighter_applyFrom
    (fun x hx (hx' : x.span.stop ≤ e.span.start) => hlight x (mem_cons_of_mem e hx) (by omega))
    (e.new ++ slice (front ++ (word ++ rest)) ⟨e.span.stop, front.size + word.size + n⟩ ++ done)
  rw [isBoundary_append_of_le (by omega)] at hstart hend
  obtain ⟨a, old, b, rfl, ha, hb, hslice⟩ := exists_three hstart hend hle
  have hfront := hlighter.append he
  rw [before_append_of_le (by omega), slice_append_of_le hstop, hslice, ← ha,
    append_assoc, before_size_append] at hfront
  have hbehind : slice (a ++ old ++ b ++ (word ++ rest))
      ⟨e.span.stop, size (a ++ old ++ b) + word.size + n⟩ = b ++ (word ++ rest.before n) := by
    have hafter := after_size_append (a ++ old) (b ++ (word ++ rest))
    rw [size_append, hb] at hafter
    have hsize : size (a ++ old ++ b) + word.size + n - e.span.stop = b.size + (word.size + n) := by
      rw [size_append, size_append]
      omega
    rw [slice, append_assoc (a ++ old), hafter, hsize, before_append_add, before_append_add]
  have hlead : ∃ c, (r ++ e.new ++ b).getLast? = some c ∧ isBlank c := by
    cases b with
    | nil =>
      obtain ⟨c, hc, hc'⟩ := hblank (by rw [append_nil, size_append, hb])
      exact ⟨c, by simp [hc], hc'⟩
    | cons x b =>
      obtain ⟨c, hc, hc'⟩ := h.lead
      rw [getLast?_append, or_of_isSome (by simp)] at hc
      exact ⟨c, by rw [getLast?_append, hc, some_or], hc'⟩
  have h' : HasWhere (r ++ e.new ++ b ++ (word ++ (rest.before n ++ done))) :=
    h.exchange (hfront.append (.refl _ _ _)) hlead htrail
  rw [hr, hbehind]
  simpa using h'

/-- Edits that spare the word, and are light where they stand in front of it, keep it set off. -/
theorem applyFrom (hspares : ∀ e ∈ edits, Spares front word e)
    (hlight : ∀ e ∈ edits, e.span.stop ≤ front.size → Light (front ++ (word ++ rest)) e)
    (htrail : ∀ c, (rest.before n ++ done).head? = some c → isBlank c ∨ c = '(') :
    HasWhere (Edit.applyFrom (front ++ (word ++ rest)) (front.size + word.size + n) done
      edits) := by
  induction edits generalizing n done with
  | nil =>
    have h' := h.exchange (.refl _ _ _) h.lead htrail
    rw [Edit.applyFrom, Nat.add_assoc, before_append_add, before_append_add]
    simpa using h'
  | cons e edits ih =>
    have hspares' := fun x hx => hspares x (mem_cons_of_mem e hx)
    have hlight' := fun x hx => hlight x (mem_cons_of_mem e hx)
    rw [Edit.applyFrom]
    split
    · next hfits =>
      obtain ⟨⟨hle, hboundary, hboundary'⟩, hstop⟩ := Edit.fits_iff.1 hfits
      rcases hspares e (by simp) with hlt | ⟨heq, hblank⟩ | hgt
      · exact h.applyFrom_front hlight hle (by omega) hboundary hboundary' (by omega) htrail
      · exact h.applyFrom_front hlight hle (by omega) hboundary hboundary' (fun _ => hblank) htrail
      · -- the word's right neighbour stays
        obtain ⟨k, hk⟩ := Nat.exists_eq_add_of_lt hgt
        rw [hk, Nat.add_assoc _ k 1] at hboundary ⊢
        refine ih hspares' hlight' fun c hc => h.trail c ?_
        have hsize : (rest.before (k + 1)).size = k + 1 := by
          simpa [isBoundary, Nat.add_assoc, before_append_add] using hboundary
        cases hbefore : rest.before (k + 1) with
        | nil => simp [hbefore] at hsize
        | cons x r =>
          rw [← before_append_after rest (k + 1), hbefore]
          rwa [hbefore] at hc
    · exact ih hspares' hlight' htrail

theorem applyAll (hspares : ∀ e ∈ edits, Spares front word e)
    (hlight : ∀ e ∈ edits, e.span.stop ≤ front.size → Light (front ++ (word ++ rest)) e) :
    HasWhere (Edit.applyAll (front ++ (word ++ rest)) edits) := by
  have hsize : size (front ++ (word ++ rest)) = front.size + word.size + rest.size := by
    rw [size_append, size_append, Nat.add_assoc]
  rw [Edit.applyAll, hsize]
  refine h.applyFrom (fun e he => hspares e (mem_sortedBy.1 he))
    (fun e he => hlight e (mem_sortedBy.1 he)) fun c hc => h.trail c ?_
  rwa [before_size, append_nil] at hc

theorem splice {new : Text} (hle : s.start ≤ s.stop)
    (hstart : Outside (mask (front ++ (word ++ rest))) s.start)
    (hstop : Outside (mask (front ++ (word ++ rest))) s.stop) (hspares : Spares front word ⟨s, new⟩)
    (hlight : s.stop ≤ front.size → Light (front ++ (word ++ rest)) ⟨s, new⟩) :
    HasWhere ((front ++ (word ++ rest)).splice s new) := by
  rw [← Edit.applyAll_singleton hle hstart.isBoundary hstop.isBoundary]
  refine h.applyAll (fun e he => ?_) fun e he => ?_
  · rw [mem_singleton.1 he]
    exact hspares
  · rw [mem_singleton.1 he]
    exact hlight

end SetOff

end Recast.Keyword
