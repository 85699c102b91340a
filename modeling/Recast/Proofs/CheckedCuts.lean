import Recast.Proofs.Patterns

/-!
# Cuts that are checked

Texts are cut at every offset, and a list answers for every place. Here the same functions are
followed step by step, but each cut first makes sure that its offsets lie in the text, between two
characters and in order, and each place of a list that the list has it; otherwise the work ends with
a `Breach`. A checked function bears the name of the one that it follows, in the namespace
`Checked`, and cuts by the functions of the first section alone. What only looks is taken over.

A checked function that does what the other one does has no cut that fails. Most spans are read off
the mask, which can be cut inside the characters of literals where the text cannot; but only between
two fillers (`isBoundary_of_edge`).
-/

namespace Recast

open Literal Cursor List Text
open Option hiding guard

variable {a b m t w : Text} {x : Char} {n : Nat} {list : Span}

/-- What can go wrong when a text is cut or a list is read. -/
inductive Breach where
  /-- A cut outside the text or inside a character. -/
  | cut (fault : Fault)
  /-- A part that would end before it starts. -/
  | backwards (s : Span)
  /-- A place that the list does not have. -/
  | index (n : Nat)
deriving DecidableEq, Repr

namespace Checked

/-- Work that a breach may end. -/
abbrev Check := Except Breach

/-- A search that a breach may end. -/
abbrev Search := OptionT Check

instance : MonadLift Option Search where
  monadLift o := OptionT.mk (.ok o)

/-! ### The checks -/

/-- The offset is one at which the text can be cut. -/
def place (t : Text) (n : Nat) : Check Unit :=
  if t.isBoundary n then .ok () else .error (.cut ⟨n⟩)

/-- The span is one that can be cut out of the text. -/
def part (t : Text) (s : Span) : Check Unit := do
  place t s.start
  place t s.stop
  if s.start ≤ s.stop then return else throw (.backwards s)

def before (t : Text) (n : Nat) : Check Text := do
  place t n
  return t.before n

def after (t : Text) (n : Nat) : Check Text := do
  place t n
  return t.after n

def slice (t : Text) (s : Span) : Check Text := do
  part t s
  return t.slice s

def splice (t : Text) (s : Span) (new : Text) : Check Text := do
  part t s
  return t.splice s new

def insertAt (t : Text) (n : Nat) (new : Text) : Check Text := do
  place t n
  return t.insertAt n new

def ofOffset (t : Text) (n : Nat) : Check Cursor := do
  place t n
  return Cursor.ofOffset t n

def get (l : List α) (n : Nat) : Check α :=
  match l[n]? with
  | some a => .ok a
  | none => .error (.index n)

/-- A span whose ends are in order and are places at which the text can be cut. -/
structure Part (t : Text) (s : Span) : Prop where
  start : t.isBoundary s.start = true
  stop : t.isBoundary s.stop = true
  le : s.start ≤ s.stop

section

variable {t : Text} {n : Nat} {s : Span}

/-- A boundary passes its check. -/
theorem place_eq (h : t.isBoundary n) : place t n = .ok () := if_pos h

/-- A part passes its check. -/
theorem Part.part_eq (h : Part t s) : part t s = .ok () := by
  rw [part, place_eq h.start, place_eq h.stop]
  exact if_pos h.le

/-- At a boundary the checked cuts give what the cuts give. -/
theorem before_eq (h : t.isBoundary n) : before t n = .ok (t.before n) := by
  rw [before, place_eq h]
  rfl

theorem after_eq (h : t.isBoundary n) : after t n = .ok (t.after n) := by
  rw [after, place_eq h]
  rfl

theorem insertAt_eq (h : t.isBoundary n) (new : Text) :
    insertAt t n new = .ok (t.insertAt n new) := by
  rw [insertAt, place_eq h]
  rfl

theorem ofOffset_eq (h : t.isBoundary n) : ofOffset t n = .ok (Cursor.ofOffset t n) := by
  rw [ofOffset, place_eq h]
  rfl

/-- A part can be cut out, and another text put in its place. -/
theorem Part.slice_eq (h : Part t s) : slice t s = .ok (t.slice s) := by
  rw [slice, h.part_eq]
  rfl

theorem Part.splice_eq (h : Part t s) (new : Text) : splice t s new = .ok (t.splice s new) := by
  rw [splice, h.part_eq]
  rfl

end

/-- A list has the places below its length. -/
theorem get_eq {l : List α} (h : n < l.length) : ∃ a, l[n]? = some a ∧ get l n = .ok a := by
  refine ⟨l[n], getElem?_eq_getElem h, ?_⟩
  rw [get, getElem?_eq_getElem h]

/-! ### Work and searches that no breach ends -/

theorem ok_bind (a : α) (f : α → Check β) : (Except.ok a >>= f) = f a := rfl

/-- No breach ends a choice if none ends what is chosen. -/
theorem ok_ite {p : Prop} [Decidable p] {x y : Check α} {a b : α} (hx : p → x = .ok a)
    (hy : ¬ p → y = .ok b) : (if p then x else y) = .ok (if p then a else b) := by
  split
  · next hp => exact hx hp
  · next hp => exact hy hp

/-- No breach ends the work over a list if none ends the work on a member. -/
theorem mapM_eq {f : α → Check β} {g : α → β} {l : List α} (h : ∀ a ∈ l, f a = .ok (g a)) :
    l.mapM f = .ok (l.map g) := by
  induction l with
  | nil => rfl
  | cons a l ih =>
    rw [mapM_cons, h a mem_cons_self, ih fun b hb => h b (mem_cons_of_mem a hb)]
    rfl

/-- A list is filtered if its members can be tested. -/
theorem filterM_eq {f : α → Check Bool} {p : α → Bool} {l : List α} (h : ∀ a ∈ l, f a = .ok (p a)) :
    l.filterM f = .ok (l.filter p) := by
  have haux (acc : List α) : l.filterAuxM f acc = .ok ((l.filter p).reverse ++ acc) := by
    induction l generalizing acc with
    | nil => rfl
    | cons a l ih =>
      rw [filterAuxM, h a mem_cons_self, ok_bind, ih fun b hb => h b (mem_cons_of_mem a hb)]
      cases hp : p a with
      | true => simp [hp]
      | false => simp [hp]
  rw [filterM, haux, append_nil]
  exact congrArg Except.ok (reverse_reverse _)

/-- A fold is carried through under an invariant of what is left and what is done. -/
theorem foldlM_eq {f : β → α → Check β} {g : β → α → β} {I : List α → β → Prop}
    (h : ∀ a l b, I (a :: l) b → f b a = .ok (g b a) ∧ I l (g b a)) {l : List α} {b : β}
    (hb : I l b) : l.foldlM f b = .ok (l.foldl g b) ∧ I [] (l.foldl g b) := by
  induction l generalizing b with
  | nil => exact ⟨rfl, hb⟩
  | cons a l ih =>
    obtain ⟨hstep, hrest⟩ := h a l b hb
    rw [foldlM_cons, hstep]
    exact ih hrest

/-- The search finds what the given one finds, and no breach ends it. -/
def Finds (x : Search α) (o : Option α) : Prop := x.run = .ok o

theorem Finds.run_eq {x : Search α} {o : Option α} (h : Finds x o) : x.run = .ok o := h

/-- A search that goes on with what another one found. -/
theorem Finds.bind {x : Search α} {o : Option α} {f : α → Search β} {g : α → Option β}
    (hx : Finds x o) (h : ∀ a, o = some a → Finds (f a) (g a)) : Finds (x >>= f) (o >>= g) := by
  rw [Finds, OptionT.run_bind, hx.run_eq]
  cases o with
  | none => rfl
  | some a => exact h a rfl

/-- A search that starts by looking something up. -/
theorem Finds.of_option {o : Option α} {f : α → Search β} {g : α → Option β}
    (h : ∀ a, o = some a → Finds (f a) (g a)) : Finds (liftM o >>= f) (o >>= g) :=
  Finds.bind (x := liftM o) rfl h

/-- A search that starts with a cut. -/
theorem Finds.of_check {c : Check α} {a : α} {f : α → Search β} {o : Option β} (hc : c = .ok a)
    (h : Finds (f a) o) : Finds (liftM c >>= f) o := by
  rw [hc]
  exact h

theorem finds_pure (a : α) : Finds (pure a : Search α) (some a) := rfl

/-- A search that goes on under a condition. -/
theorem Finds.of_guard {p : Prop} [Decidable p] {f : Unit → Search β} {g : Unit → Option β}
    (h : p → Finds (f ()) (g ())) : Finds (guard p >>= f) (guard p >>= g) := by
  by_cases hp : p
  · rw [guard, guard, if_pos hp, if_pos hp]
    exact h hp
  · rw [guard, guard, if_neg hp, if_neg hp]
    rfl

theorem finds_check {c : Check α} {a : α} (h : c = .ok a) : Finds (liftM c) (some a) := by
  rw [h]
  rfl

theorem finds_failure : Finds (failure : Search α) none := rfl

/-- A choice between two searches. -/
theorem Finds.ite {p : Prop} [Decidable p] {x y : Search α} {o o' : Option α} (hx : p → Finds x o)
    (hy : ¬ p → Finds y o') : Finds (if p then x else y) (if p then o else o') := by
  split
  · next hp => exact hx hp
  · next hp => exact hy hp

/-- The same search for each member of a list. -/
theorem Finds.mapM {f : α → Search β} {g : α → Option β} {l : List α}
    (h : ∀ a ∈ l, Finds (f a) (g a)) : Finds (l.mapM f) (l.mapM g) := by
  induction l with
  | nil => exact finds_pure []
  | cons a l ih =>
    rw [mapM_cons, mapM_cons]
    refine (h a mem_cons_self).bind fun b _ => ?_
    exact (ih fun c hc => h c (mem_cons_of_mem a hc)).bind fun bs _ => finds_pure (b :: bs)

/-- What a search finds, or else the given value. -/
def Search.getD (x : Search α) (a : α) : Check α := do return (← x.run).getD a

/-- A search with a value to fall back on. -/
theorem Finds.getD_eq {x : Search α} {o : Option α} (h : Finds x o) (a : α) :
    Search.getD x a = .ok (o.getD a) := by
  rw [Search.getD, h.run_eq]
  rfl

/-- What the searches for the members of a list find. -/
def gather (l : List α) (f : α → Search β) : Check (List β) := do
  return (← l.mapM fun a => (f a).run).filterMap id

/-- What is found is gathered if no breach ends one of the searches. -/
theorem gather_eq {f : α → Search β} {g : α → Option β} {l : List α}
    (h : ∀ a ∈ l, Finds (f a) (g a)) : gather l f = .ok (l.filterMap g) := by
  rw [gather, mapM_eq (g := g) h]
  exact congrArg Except.ok (by rw [filterMap_map]; rfl)

end Checked

/-! ### Places next to what is no filler -/

namespace Literal

/-- Between `a` and `b` no two fillers meet. -/
def Edge (a b : Text) : Prop := a.getLast? ≠ some filler ∨ b.head? ≠ some filler

/-- A boundary of a stretch is one of the text around it. -/
theorem isBoundary_shift {core : Text} (h : core.isBoundary n) (front back : Text) :
    (front ++ core ++ back).isBoundary (n + front.size) := by
  obtain ⟨a, b, rfl, rfl⟩ := isBoundary_iff.1 h
  refine isBoundary_iff.2 ⟨front ++ a, b ++ back, by simp, ?_⟩
  rw [size_append, Nat.add_comm]

/-- Behind a stretch `x`, which the mask shows as `w`, boundaries are those of the rest. -/
theorem Edge.isBoundary_append {x : Text} (hsize : w.size = x.size) (hedge : Edge (w ++ a) b)
    (h : Edge a b → t.isBoundary a.size) : isBoundary (x ++ t) (size (w ++ a)) := by
  by_cases ha : a = []
  · rw [ha, append_nil, hsize]
    exact Text.isBoundary_append x t
  · rw [Edge, getLast?_append_of_ne_nil _ ha] at hedge
    obtain ⟨u, v, rfl, hu⟩ := isBoundary_iff.1 (h hedge)
    refine isBoundary_iff.2 ⟨x ++ u, v, by simp, ?_⟩
    rw [size_append, size_append, hsize, hu]

/-- In a run of fillers only its ends are edges. -/
theorem Edge.of_replicate (hedge : Edge a (w ++ b)) (h : a ++ w = replicate n filler) :
    a = [] ∨ w = [] := by
  have hall : ∀ x ∈ a ++ w, x = filler := fun x hx => eq_of_mem_replicate (h ▸ hx)
  refine Classical.or_iff_not_imp_left.2 fun ha => Classical.not_not.1 fun hw => ?_
  rcases hedge with hedge | hedge
  · refine hedge ?_
    rw [getLast?_eq_some_getLast ha, hall _ (mem_append_left w (getLast_mem ha))]
  · obtain ⟨x, w, rfl⟩ := exists_cons_of_ne_nil hw
    exact hedge (by rw [hall x (by simp)]; rfl)

/-- A mask can be cut where the text cannot, but only between two fillers. -/
theorem isBoundary_of_edge (hm : mask t = a ++ b) (hedge : Edge a b) : t.isBoundary a.size := by
  induction t using literal_induction generalizing a with
  | nil =>
    obtain ⟨rfl, -⟩ := append_eq_nil_iff.1 hm.symm
    exact isBoundary_zero []
  | code c t hc ih =>
    rw [mask_cons hc] at hm
    cases a with
    | nil => exact isBoundary_zero _
    | cons x a =>
      obtain ⟨rfl, htail⟩ := cons.inj hm
      exact Edge.isBoundary_append (x := [c]) (w := [c]) rfl hedge (ih htail)
  | literal q u rest hq hu hends ih =>
    rw [mask_literal hq hu hends] at hm
    cases a with
    | nil => exact isBoundary_zero _
    | cons x a =>
      obtain ⟨rfl, htail⟩ := cons.inj hm
      rcases append_eq_append_iff.1 htail with ⟨w, rfl, hrest⟩ | ⟨w, hveil, rfl⟩
      · exact Edge.isBoundary_append (x := q :: u) (w := q :: veil q u) (by simp [size_veil hq])
          hedge (ih hrest)
      by_cases ha : a = []
      · rw [ha]
        exact Text.isBoundary_append [q] (u ++ rest)
      by_cases hw : w = []
      · rw [← append_nil a, ← hw, ← hveil, size_cons, size_veil hq]
        exact Text.isBoundary_append (q :: u) rest
      -- the cut lies in what hides the literal: at the end of its fillers
      rw [← singleton_append, Edge, getLast?_append_of_ne_nil _ ha] at hedge
      rcases veil_cases hq u with ⟨hfill, -⟩ | ⟨v, rfl, hfill⟩
      · exact absurd ((Edge.of_replicate hedge (hveil.symm.trans hfill)).resolve_left ha) hw
      · obtain ⟨w, x, rfl⟩ := (eq_nil_or_concat' w).resolve_left hw
        rw [← append_assoc, hfill] at hveil
        have hrun := append_inj_left' hveil.symm rfl
        rw [append_assoc] at hedge
        obtain rfl := (Edge.of_replicate hedge hrun).resolve_left ha
        rw [← append_nil a, hrun, size_cons, size_replicate_filler]
        simpa using Text.isBoundary_append (q :: v) (q :: rest)

end Literal

namespace Cursor

/-- The cursor does not stand between two fillers. -/
def Edge (c : Cursor) : Prop := c.last ≠ some filler ∨ c.rest.head? ≠ some filler

variable {t : Text} {c d : Cursor} {p : Char → Bool}

/-- A text can be cut at an edge of its mask. -/
theorem Edge.isBoundary (h : Edge c) (hc : At (mask t) c) : t.isBoundary c.offset := by
  obtain ⟨a, hm, hoffset, hlast⟩ := hc
  rw [hoffset]
  refine isBoundary_of_edge hm ?_
  rwa [Edge, hlast] at h

/-- An edge stands behind what is no filler. -/
theorem edge_of_reads (h : Reads c (w ++ [x]) d) (hx : x ≠ filler) : Edge d := by
  left
  rw [h.last]
  simpa using hx

/-- An edge stands where a run that takes fillers ends. -/
theorem edge_of_next (hp : p filler) (h : ∀ x, d.rest.head? = some x → p x = false) : Edge d := by
  right
  intro hhead
  simp [h filler hhead] at hp

/-- An edge stands behind a run that takes no fillers. -/
theorem edge_of_class (h : Reads c w d) (hne : w ≠ []) (hall : ∀ x ∈ w, p x)
    (hp : p filler = false) : Edge d := by
  obtain ⟨w, x, rfl⟩ := (eq_nil_or_concat' w).resolve_left hne
  refine edge_of_reads h ?_
  rintro rfl
  simp [hall filler (by simp)] at hp

/-- Every run of a class of characters ends at an edge. -/
theorem edge_of_some? (h : c.some? p = some d) : Edge d := by
  obtain ⟨w, hw, hne, hall, hnext⟩ := some?_reads h
  cases hp : p filler with
  | true => exact edge_of_next hp hnext
  | false => exact edge_of_class hw hne hall hp

/-- An edge stays one if a class of characters is skipped. -/
theorem Edge.skipWhile (h : Edge c) (p : Char → Bool) : Edge (c.skipWhile p) := by
  obtain ⟨w, hw, hall, hnext⟩ := skipWhile_reads c p
  cases hp : p filler with
  | true => exact edge_of_next hp hnext
  | false =>
    by_cases hne : w = []
    · subst hne
      rcases h with h | h
      · exact .inl (by rwa [hw.last])
      · exact .inr (by rwa [hw.rest] at h)
    · exact edge_of_class hw hne hall hp

/-- There is an edge on both sides of a sign. -/
theorem edge_of_sign? (hx : x ≠ filler) (h : c.sign? x = some d) : Edge c ∧ Edge d := by
  have hread := sign?_reads h
  refine ⟨.inr ?_, edge_of_reads (w := []) hread hx⟩
  rw [hread.rest]
  simpa using hx

end Cursor

/-! ### Parts -/

namespace Checked

section

variable {t : Text} {s : Span} {c d : Cursor}

/-- From one place outside literals to another. -/
theorem part_of_outside (hstart : Outside (mask t) s.start) (hstop : Outside (mask t) s.stop)
    (hle : s.start ≤ s.stop) : Part t s :=
  ⟨hstart.isBoundary, hstop.isBoundary, hle⟩

theorem Part.mask (h : Part t s) : Part (mask t) s :=
  ⟨isBoundary_mask h.start, isBoundary_mask h.stop, h.le⟩

/-- What is read off a text is a part of it. -/
theorem part_of_at (hc : At t c) (h : Reads c w d) : Part t (c.spanTo d) :=
  ⟨hc.isBoundary, (hc.reads h).isBoundary, h.le⟩

/-- What is read off the mask between two edges is a part of the text. -/
theorem part_of_edges (hc : At (mask t) c) (hedge : c.Edge) (h : Reads c w d) (hedge' : d.Edge) :
    Part t (c.spanTo d) :=
  ⟨hedge.isBoundary hc, hedge'.isBoundary (hc.reads h), h.le⟩

/-- A part without the blanks around it. -/
theorem Part.trimSpan (h : Part t s) : Part t (t.trimSpan s) := by
  obtain ⟨front, core, back, rfl, hfront, hcore, -⟩ := exists_three h.start h.stop h.le
  obtain ⟨lead, core, trail, rfl, htrimmed⟩ := exists_trimmed core
  obtain ⟨start, stop⟩ := s
  simp only at hfront hcore
  rw [htrimmed.trimSpan_eq front back hfront.symm (by rw [← hcore, hfront])]
  refine ⟨?_, ?_, Nat.le_add_right _ _⟩
  · refine isBoundary_iff.2 ⟨front ++ lead, core ++ trail ++ back, by simp, ?_⟩
    rw [size_append, hfront]
  · refine isBoundary_iff.2 ⟨front ++ lead ++ core, trail ++ back, by simp, ?_⟩
    rw [size_append, size_append, hfront]

/-- A part of a part, by its place in the whole. -/
theorem Part.shift (h : Part t s) {u : Span} (hu : Part (t.slice s) u) :
    Part t (u.shift s.start) := by
  obtain ⟨front, core, back, rfl, hfront, -, hslice⟩ := exists_three h.start h.stop h.le
  rw [hslice] at hu
  rw [← hfront]
  exact ⟨isBoundary_shift hu.start front back, isBoundary_shift hu.stop front back,
    Nat.add_le_add_right hu.le _⟩

/-- A part of what follows a boundary, by its place in the whole. -/
theorem part_of_after (hn : t.isBoundary n) (h : Part (t.after n) s) : Part t (s.shift n) := by
  obtain ⟨a, b, rfl, rfl⟩ := isBoundary_iff.1 hn
  rw [after_size_append] at h
  rw [← append_nil (a ++ b)]
  exact ⟨isBoundary_shift h.start a [], isBoundary_shift h.stop a [], Nat.add_le_add_right h.le _⟩

theorem part_of_mem_splitTop (h : s ∈ Recast.Nesting.splitTop t ',') : Part t s := by
  obtain ⟨hstart, hstop, hle⟩ := outside_of_mem_splitTop (by decide) (by decide) h
  exact part_of_outside hstart hstop hle

/-- The items of a list are parts. -/
theorem Part.of_mem_itemsIn (h : Part t list) (hs : s ∈ Recast.Nesting.itemsIn t list ',') :
    Part t s := by
  obtain ⟨u, hu, rfl⟩ := mem_map.1 hs
  exact (h.shift (part_of_mem_splitTop hu)).trimSpan

/-- Literals are parts. -/
theorem part_of_mem_spans (h : s ∈ spans t) : Part t s := by
  obtain ⟨a, q, u, r, rfl, -, -, hq, -, -, rfl⟩ := exists_of_mem_spans h
  have hone : q.utf8Size = 1 := utf8Size_of_isQuote hq
  refine ⟨isBoundary_append a _, isBoundary_iff.2 ⟨a ++ q :: u, r, by simp, ?_⟩,
    Nat.le_add_right _ _⟩
  rw [size_append, size_cons, hone]

end

/-! ### Lists and edits -/

def trimSpan (t : Text) (s : Span) : Check Span := do
  let part ← slice t s
  let start := s.start + (part.size - (trimStart part).size)
  let stop := s.stop - (part.size - (trimEnd part).size)
  return ⟨start, max stop start⟩

theorem Part.trimSpan_eq {s : Span} (h : Part t s) : Checked.trimSpan t s = .ok (t.trimSpan s) := by
  rw [Checked.trimSpan, h.slice_eq]
  rfl

namespace Nesting

def parts (t : Text) : Check (List Text) := (Nesting.splitTop t ',').mapM (slice t)

def itemsIn (t : Text) (list : Span) : Check (List Span) := do
  let part ← slice t list
  (Nesting.splitTop part ',').mapM fun s => trimSpan t (s.shift list.start)

theorem parts_eq (t : Text) : parts t = .ok (Recast.Nesting.parts t ',') :=
  mapM_eq fun _ hs => (part_of_mem_splitTop hs).slice_eq

/-- A list that is a part can be cut into its items. -/
theorem itemsIn_eq (h : Part t list) :
    itemsIn t list = .ok (Recast.Nesting.itemsIn t list ',') := by
  rw [itemsIn, h.slice_eq]
  exact mapM_eq fun s hs => (h.shift (part_of_mem_splitTop hs)).trimSpan_eq

end Nesting

namespace Edit

def applyFrom (t : Text) (limit : Nat) (done : Text) : List Edit → Check Text
  | [] => do return (← before t limit) ++ done
  | e :: edits => do
    if e.fits t limit then
      let kept ← slice t ⟨e.span.stop, limit⟩
      applyFrom t e.span.start (e.new ++ kept ++ done) edits
    else applyFrom t limit done edits

def applyAll (t : Text) (edits : List Edit) : Check Text :=
  applyFrom t t.size [] (sortedBy (fun a b => b.span.start ≤ a.span.start) edits)

/-- Everything from a boundary on is settled: the next edit is made up to there, and what starts it
is a boundary again. -/
theorem applyFrom_eq {limit : Nat} (hlimit : t.isBoundary limit) (done : Text) (edits : List Edit) :
    applyFrom t limit done edits = .ok (Recast.Edit.applyFrom t limit done edits) := by
  induction edits generalizing limit done with
  | nil =>
    rw [applyFrom, before_eq hlimit]
    rfl
  | cons e edits ih =>
    rw [applyFrom, Recast.Edit.applyFrom]
    split
    · next hfits =>
      simp only [Edit.fits, Bool.and_eq_true, decide_eq_true_eq] at hfits
      obtain ⟨⟨⟨hle, hle'⟩, hstart⟩, hstop⟩ := hfits
      rw [Part.slice_eq ⟨hstop, hlimit, hle'⟩]
      exact ih hstart _
    · exact ih hlimit done

/-- Edits can be made whatever they are: those that do not fit are left out. -/
theorem applyAll_eq (t : Text) (edits : List Edit) :
    applyAll t edits = .ok (Recast.Edit.applyAll t edits) :=
  applyFrom_eq (isBoundary_iff.2 ⟨t, [], by simp, rfl⟩) [] _

def replaceAll (t needle new : Text) : Check Text :=
  applyAll t ((Keyword.occurrences (mask t) needle).map fun n => ⟨⟨n, n + needle.size⟩, new⟩)

theorem replaceAll_eq (t needle new : Text) :
    replaceAll t needle new = .ok (Recast.Edit.replaceAll t needle new) :=
  applyAll_eq t _

def replaceClauses (t : Text) (clause : Cursor → Option (Edit × Cursor)) : Check Text :=
  applyAll t ((Cursor.start (mask t)).findAll clause)

theorem replaceClauses_eq (t : Text) (clause : Cursor → Option (Edit × Cursor)) :
    replaceClauses t clause = .ok (Recast.Edit.replaceClauses t clause) :=
  applyAll_eq t _

end Edit

/-! ### Literals and placeholders -/

namespace Literal

def piecesFrom (t : Text) (offset : Nat) : List Span → Check (List Piece)
  | [] => do return [⟨offset, false, ← after t offset⟩]
  | s :: rest => do
    let code ← slice t ⟨offset, s.start⟩
    let literal ← slice t s
    return ⟨offset, false, code⟩ :: ⟨s.start, true, literal⟩ :: (← piecesFrom t s.stop rest)

def pieces (t : Text) : Check (List Piece) := piecesFrom t 0 (spans t)

/-- The literals follow one another, so each piece of code ends behind its start. -/
theorem piecesFrom_eq {offset : Nat} (hoffset : t.isBoundary offset) {l : List Span}
    (hparts : ∀ s ∈ l, Part t s) (hbehind : ∀ s ∈ l, offset ≤ s.start)
    (horder : l.Pairwise fun s s' => s.stop ≤ s'.start) :
    piecesFrom t offset l = .ok (Recast.Literal.piecesFrom t offset l) := by
  induction l generalizing offset with
  | nil =>
    rw [piecesFrom, after_eq hoffset]
    rfl
  | cons s l ih =>
    obtain ⟨hpart, hparts⟩ := forall_mem_cons.1 hparts
    obtain ⟨hfirst, horder⟩ := pairwise_cons.1 horder
    have hcode : Part t ⟨offset, s.start⟩ := ⟨hoffset, hpart.start, hbehind s mem_cons_self⟩
    rw [piecesFrom, hcode.slice_eq, hpart.slice_eq, ok_bind, ih hpart.stop hparts hfirst horder]
    rfl

theorem pieces_eq (t : Text) : pieces t = .ok (Recast.Literal.pieces t) :=
  piecesFrom_eq (isBoundary_zero t) (fun _ hs => part_of_mem_spans hs) (fun _ _ => Nat.zero_le _)
    (spanned_spans t).pairwise

end Literal

namespace Placeholder

def all (t : Text) : Check (List Placeholder) := do
  return (← Literal.pieces t).flatMap Placeholder.inPiece

def bind (t : Text) (params : List Param) : Check Text := do
  let places ← all t
  Edit.applyAll t ((Placeholder.assign places params).filterMap Placeholder.edit?)

theorem all_eq (t : Text) : all t = .ok (Recast.Placeholder.all t) := by
  rw [all, Literal.pieces_eq]
  rfl

/-- Parameters are bound without a breach. -/
theorem bind_eq (t : Text) (params : List Param) :
    bind t params = .ok (Recast.Placeholder.bind t params) := by
  rw [bind, all_eq]
  exact Edit.applyAll_eq t _

end Placeholder

/-! ### Aliases -/

namespace Alias

def all (t : Text) : Check (List Text) :=
  let masked := mask t
  let found := (Cursor.start masked).findAll fun c => do
    let (s, d) ← Alias.clause? c
    return ((c.offset, s), d)
  (found.filter fun f => Nesting.depthAt masked f.1 == 0).mapM fun f => slice t f.2

/-- The name of an alias ends at an edge. -/
theorem edge_of_name? {c d : Cursor} (h : Alias.name? c = some d) :
    (∃ w, Reads c w d) ∧ d.Edge := by
  rw [Alias.name?] at h
  split at h
  · next e he =>
    obtain ⟨f, hf, h⟩ := bind_eq_some_iff.1 h
    obtain ⟨w, hw, -⟩ := some?_reads hf
    exact ⟨⟨_, ((sign?_reads he).trans hw).trans (sign?_reads h)⟩, (edge_of_sign? (by decide) h).2⟩
  · obtain ⟨e, he, h⟩ := bind_eq_some_iff.1 h
    cases h
    obtain ⟨x, -, hx⟩ := char?_reads he
    obtain ⟨w, hw, -, hnext⟩ := skipWhile_reads e isFoldedName
    exact ⟨⟨_, hx.trans hw⟩, edge_of_next (p := isFoldedName) (by decide) hnext⟩

theorem all_eq (t : Text) : all t = .ok (Recast.Alias.all t) := by
  refine mapM_eq fun f hf => Part.slice_eq ?_
  obtain ⟨c, d, hc, h⟩ := at_of_mem_findAll (mem_filter.1 hf).1
  obtain ⟨⟨s, e⟩, he, h⟩ := bind_eq_some_iff.1 h
  cases h
  obtain ⟨_, -, a, ha, b, hb, g, hg, he⟩ := of_bind₄ he
  cases he
  obtain ⟨⟨w, hw⟩, hend⟩ := edge_of_name? hg
  exact part_of_edges ((hc.word? ha).some? hb) (edge_of_some? hb) hw hend

end Alias

end Checked

end Recast
