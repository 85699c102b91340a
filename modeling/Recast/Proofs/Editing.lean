import Recast.Edit
import Recast.Proofs.Cutting

/-!
# Edits made one behind another

`Edit.applyAll` works from the back of a text to its front and leaves out the edits that do not
fit. For edits that stand in order, none reaching into the next, nothing is left out, and the
outcome can be read off from front to back: `Edit.Weave` says so, and `Weave.applyAll` is the bridge
to the definition.
-/

namespace Recast

open List Text

variable {a b old r t : Text} {limit n : Nat} {e : Edit} {edits : List Edit}

/-! ### Sorting what is in order already -/

theorem insertSorted_of_forall_false {le : α → α → Bool} {a : α} {l : List α}
    (h : ∀ b ∈ l, le a b = false) : insertSorted le a l = l ++ [a] := by
  induction l with
  | nil => rfl
  | cons b l ih =>
    have hb : le a b = false := h b (by simp)
    rw [insertSorted, hb, ih (forall_mem_cons.1 h).2]
    rfl

theorem sortedBy_eq_reverse {le : α → α → Bool} {l : List α}
    (h : l.Pairwise fun a b => le a b = false) : sortedBy le l = l.reverse := by
  induction l with
  | nil => rfl
  | cons a l ih =>
    obtain ⟨ha, hl⟩ := pairwise_cons.1 h
    have hrev : ∀ b ∈ l.reverse, le a b = false := fun b hb => ha b (mem_reverse.1 hb)
    rw [sortedBy, foldr_cons, ← sortedBy, ih hl, insertSorted_of_forall_false hrev, reverse_cons]

theorem sortedBy_eq_insertionSort (le : α → α → Bool) (l : List α) :
    sortedBy le l = l.insertionSort fun a b => le a b := by
  have hinsert (a : α) (l : List α) :
      insertSorted le a l = l.orderedInsert (fun a b => le a b) a := by
    induction l with
    | nil => rfl
    | cons b l ih => rw [insertSorted, orderedInsert, ih]
  rw [sortedBy, insertionSort, funext₂ hinsert]

theorem sortedBy_perm (le : α → α → Bool) (l : List α) : (sortedBy le l).Perm l := by
  rw [sortedBy_eq_insertionSort]
  exact perm_insertionSort _ l

theorem mem_sortedBy {le : α → α → Bool} {x : α} {l : List α} : x ∈ sortedBy le l ↔ x ∈ l :=
  (sortedBy_perm le l).mem_iff

theorem mem_foldr_dedup [DecidableEq α] {a : α} {l : List α} :
    a ∈ l.foldr (fun b rest => if rest.head? = some b then rest else b :: rest) [] ↔ a ∈ l := by
  induction l with
  | nil => rfl
  | cons b l ih =>
    rw [foldr_cons, mem_cons, ← ih]
    split
    · next h => exact ⟨.inr, fun h' => h'.elim (fun hb => hb ▸ mem_of_mem_head? h) id⟩
    · exact mem_cons

theorem map_sortedBy {le : α → α → Bool} {le' : β → β → Bool} {f : α → β}
    (h : ∀ a b, le' (f a) (f b) = le a b) (l : List α) :
    (sortedBy le l).map f = sortedBy le' (l.map f) := by
  rw [sortedBy_eq_insertionSort, sortedBy_eq_insertionSort]
  exact map_insertionSort _ _ f l fun a _ b _ => by rw [h]

theorem sortedBy_pairwise (key : α → Nat) (l : List α) :
    (sortedBy (fun x y => decide (key y ≤ key x)) l).Pairwise fun x y => key y ≤ key x := by
  rw [sortedBy_eq_insertionSort]
  exact (pairwise_insertionSort _ l).imp of_decide_eq_true

namespace Edit

/-! ### Edits that show -/

/-- What is made starts with the text in front of the last edit made, and its new text. -/
theorem applyFrom_cases (t : Text) (limit : Nat) (done : Text) (edits : List Edit) :
    applyFrom t limit done edits = t.before limit ++ done ∨ ∃ e ∈ edits, ∃ r,
      applyFrom t limit done edits = t.before e.span.start ++ (e.new ++ r) := by
  induction edits generalizing limit done with
  | nil => exact .inl rfl
  | cons e edits ih =>
    rw [applyFrom]
    split
    · rcases ih e.span.start (e.new ++ t.slice ⟨e.span.stop, limit⟩ ++ done) with
        h | ⟨e', he', r, h⟩
      · exact .inr ⟨e, by simp, t.slice ⟨e.span.stop, limit⟩ ++ done, by rw [h, append_assoc]⟩
      · exact .inr ⟨e', by simp [he'], r, h⟩
    · rcases ih limit done with h | ⟨e', he', r, h⟩
      · exact .inl h
      · exact .inr ⟨e', by simp [he'], r, h⟩

theorem applyAll_cases (t : Text) (edits : List Edit) : applyAll t edits = t ∨
    ∃ e ∈ edits, ∃ r, applyAll t edits = t.before e.span.start ++ (e.new ++ r) := by
  rcases applyFrom_cases t t.size []
    (sortedBy (fun a b => decide (b.span.start ≤ a.span.start)) edits) with
    h | ⟨e, he, h⟩
  · exact .inl (by rw [applyAll, h, before_size, append_nil])
  · exact .inr ⟨e, mem_sortedBy.1 he, h⟩

theorem prefix_applyAll {front : Text} (h : front <+: t)
    (hedits : ∀ e ∈ edits, front.size ≤ e.span.start) : front <+: applyAll t edits := by
  rcases applyAll_cases t edits with heq | ⟨e, he, r, heq⟩
  · rwa [heq]
  · rw [heq]
    exact (prefix_before h (hedits e he)).trans (prefix_append _ _)

/-- Edits that come in the order of the text are made from the last one on. -/
theorem applyAll_of_ascending (h : edits.Pairwise fun d e => d.span.start < e.span.start) :
    applyAll t edits = applyFrom t t.size [] edits.reverse := by
  rw [applyAll, sortedBy_eq_reverse (h.imp fun hlt => by simpa using hlt)]

/-- Edits whose new texts differ from what they replace change the text. -/
theorem applyAll_ne_self (hne : edits ≠ []) (hfits : ∀ e ∈ edits, fits t t.size e)
    (hnew : ∀ e ∈ edits, ∀ r, t.after e.span.start ≠ e.new ++ r) : applyAll t edits ≠ t := by
  intro hsame
  -- whatever edit is made last, the text would have to read its new text there
  have hshow {e : Edit} (he : e ∈ edits) {r : Text} :
      t.before e.span.start ++ (e.new ++ r) ≠ t := by
    intro heq
    conv at heq => rhs; rw [← before_append_after t e.span.start]
    exact hnew e he r (append_cancel_left heq).symm
  have hmem {e : Edit} : e ∈ sortedBy (fun a b => decide (b.span.start ≤ a.span.start)) edits ↔
      e ∈ edits := mem_sortedBy
  rw [applyAll] at hsame
  cases hsorted : sortedBy (fun a b => decide (b.span.start ≤ a.span.start)) edits with
  | nil =>
    obtain ⟨e, he⟩ := exists_mem_of_ne_nil edits hne
    simp [← hmem, hsorted] at he
  | cons e rest =>
    rw [hsorted] at hsame hmem
    have he : e ∈ edits := hmem.1 (by simp)
    rw [applyFrom, if_pos (hfits e he)] at hsame
    rcases applyFrom_cases t e.span.start (e.new ++ t.slice ⟨e.span.stop, t.size⟩ ++ []) rest with
      h | ⟨e', he', r, h⟩
    · rw [h, append_assoc] at hsame
      exact hshow he hsame
    · rw [h] at hsame
      exact hshow (hmem.1 (by simp [he'])) hsame

theorem applyAll_singleton {s : Span} (hle : s.start ≤ s.stop) (hstart : t.isBoundary s.start)
    (hstop : t.isBoundary s.stop) (new : Text) : applyAll t [⟨s, new⟩] = t.splice s new := by
  have hsize := le_size_of_isBoundary hstop
  have hfits : fits t t.size ⟨s, new⟩ := by simp [fits, hle, hsize, hstart, hstop]
  have htail : t.slice ⟨s.stop, t.size⟩ = t.after s.stop := by
    have h := before_eq_append_slice hstop hsize
    rw [before_size] at h
    conv at h => lhs; rw [← before_append_after t s.stop]
    exact (append_cancel_left h).symm
  show applyFrom t t.size [] [⟨s, new⟩] = _
  rw [applyFrom, if_pos hfits, applyFrom, htail, append_nil, ← append_assoc]
  rfl

theorem applyAll_nil (t : Text) : applyAll t [] = t := by
  show t.before t.size ++ [] = t
  rw [before_size, append_nil]

/-! ### One edit after another -/

/-- An edit exchanges the stretch `old` of the text. -/
structure Exchanges (t : Text) (e : Edit) (a old b : Text) : Prop where
  cut : t = a ++ (old ++ b)
  span : e.span = ⟨a.size, a.size + old.size⟩

/-- The last edit made, with the text settled so far behind it. -/
theorem Exchanges.applyFrom_cons (h : Exchanges t e a old b) (hlimit : e.span.stop ≤ limit)
    (done : Text) (edits : List Edit) : ∃ r,
      t.before limit ++ done = a ++ (old ++ r) ∧
      t.before a.size ++ (e.new ++ r) = a ++ (e.new ++ r) ∧
      applyFrom t limit done (e :: edits) = applyFrom t a.size (e.new ++ r) edits := by
  obtain ⟨rfl, hspan⟩ := h
  rw [hspan] at hlimit
  have hcut :
      before (a ++ (old ++ b)) limit = a ++ (old ++ b.before (limit - (a.size + old.size))) := by
    have hadd := before_append_add (a ++ old) b (limit - (a.size + old.size))
    rw [size_append, Nat.add_sub_cancel' hlimit] at hadd
    rw [← append_assoc, hadd, append_assoc]
  have hslice :
      slice (a ++ (old ++ b)) ⟨a.size + old.size, limit⟩ =
        b.before (limit - (a.size + old.size)) := by
    rw [slice, ← append_assoc, ← size_append, after_size_append]
  have hfits : fits (a ++ (old ++ b)) limit e := by
    have hstart := isBoundary_append a (old ++ b)
    have hstop := isBoundary_append (a ++ old) b
    rw [append_assoc, size_append] at hstop
    simp [fits, hspan, hlimit, hstart, hstop]
  refine ⟨b.before (limit - (a.size + old.size)) ++ done, ?_, ?_, ?_⟩
  · rw [hcut]
    simp
  · rw [before_size_append]
  · rw [applyFrom, if_pos hfits, hspan]
    rw [hslice, append_assoc]

/-- What holds of a text still holds after edits of which each alone keeps it, whatever stands
behind the place. -/
theorem applyAll_keeps {P : Text → Prop} (hedits : ∀ e ∈ edits, ∃ a old b, Exchanges t e a old b ∧
      ∀ r, P (a ++ (old ++ r)) → P (a ++ (e.new ++ r))) (h : P t) : P (applyAll t edits) := by
  have hfrom : ∀ (edits' : List Edit) (limit : Nat) (done : Text), (∀ e ∈ edits', e ∈ edits) →
      P (t.before limit ++ done) → P (applyFrom t limit done edits') := by
    intro edits'
    induction edits' with
    | nil => exact fun limit done _ hdone => hdone
    | cons e edits' ih =>
      intro limit done hmem hdone
      have hrest : ∀ e' ∈ edits', e' ∈ edits := fun e' he' => hmem e' (mem_cons_of_mem _ he')
      by_cases hlimit : e.span.stop ≤ limit
      · obtain ⟨a, old, b, hcut, hkeeps⟩ := hedits e (hmem e mem_cons_self)
        obtain ⟨r, hbefore, hmade, heq⟩ := hcut.applyFrom_cons hlimit done edits'
        rw [heq]
        refine ih _ _ hrest ?_
        rw [hbefore] at hdone
        rw [hmade]
        exact hkeeps r hdone
      · have hfits : fits t limit e = false := by simp [fits, hlimit]
        rw [applyFrom, hfits]
        exact ih limit done hrest hdone
  refine hfrom _ _ _ (fun e he => mem_sortedBy.1 he) ?_
  rwa [before_size, append_nil]

/-- Edits in order that cover all places with a property, and of which none makes a new one: a place
with the property is then in front of the edit or behind it, and was there before. -/
structure Clears (Has : Text → Nat → Prop) (t : Text) (edits : List Edit) : Prop where
  order : edits.Pairwise fun d e => d.span.stop ≤ e.span.start
  exchange : ∀ e ∈ edits, ∃ a old b, Exchanges t e a old b ∧ old ≠ [] ∧
    ∀ r n, (b = [] → r = []) → Has (a ++ (e.new ++ r)) n →
      n < a.size ∧ Has (a ++ (old ++ r)) n ∨ ∃ k, a.size + old.size ≤ k ∧ Has (a ++ (old ++ r)) k
  cover : ∀ n, Has t n → ∃ e ∈ edits, e.span.start ≤ n ∧ n < e.span.stop

namespace Clears

variable {Has : Text → Nat → Prop} {t : Text} {edits : List Edit}

theorem start_lt_stop (h : Clears Has t edits) (he : e ∈ edits) :
    e.span.start < e.span.stop ∧ e.span.stop ≤ t.size := by
  obtain ⟨a, old, b, ⟨rfl, hspan⟩, hne, -⟩ := h.exchange e he
  have hpos := size_pos hne
  rw [hspan]
  simp only [size_append]
  omega

/-- The edits from `limit` on are made, and the places with the property lie in front of it and were
there before. -/
structure Settled (Has : Text → Nat → Prop) (t : Text) (edits front behind : List Edit)
    (limit : Nat) (done : Text) : Prop where
  all : edits = front ++ behind
  ends : ∀ e ∈ front, e.span.stop ≤ limit
  starts : ∀ e ∈ behind, limit ≤ e.span.start
  opens : behind = [] → limit = t.size ∧ done = []
  places : ∀ n, Has (t.before limit ++ done) n → n < limit ∧ Has t n

/-- One more edit is made, and what is settled stays settled. -/
theorem step {front behind : List Edit} {done : Text} (h : Clears Has t edits)
    (hs : Settled Has t edits (front ++ [e]) behind limit done) :
    ∃ k new, Settled Has t edits front (e :: behind) k new ∧
      Edit.applyFrom t limit done (e :: front.reverse) = Edit.applyFrom t k new front.reverse := by
  have hall : edits = front ++ e :: behind := by rw [hs.all, append_assoc, singleton_append]
  have he : e ∈ edits := by rw [hall]; simp
  obtain ⟨a, old, b, hcut, -, hexchange⟩ := h.exchange e he
  obtain ⟨r, hr, hmade, heq⟩ := hcut.applyFrom_cons (hs.ends e (by simp)) done front.reverse
  have horder := h.order
  rw [hall] at horder
  obtain ⟨-, hlast, hearlier⟩ := pairwise_append.1 horder
  have hlast := (pairwise_cons.1 hlast).1
  have hstop : e.span.stop = a.size + old.size := by rw [hcut.span]
  have hlt := h.start_lt_stop he
  have hend : b = [] → r = [] := by
    rintro rfl
    have hnil : behind = [] := eq_nil_iff_forall_not_mem.2 fun d hd => by
      have hd' := h.start_lt_stop (e := d) (by rw [hall]; simp [hd])
      have hle := hlast d hd
      have hsize := congrArg size hcut.cut
      simp only [append_nil, size_append] at hsize
      omega
    obtain ⟨rfl, rfl⟩ := hs.opens hnil
    rw [before_size, append_nil] at hr
    exact (append_cancel_left (append_cancel_left (hcut.cut.symm.trans hr))).symm
  refine ⟨a.size, e.new ++ r,
    ⟨hall, fun d hd => ?_, forall_mem_cons.2 ⟨?_, fun d hd => ?_⟩, by simp, fun n hn => ?_⟩, heq⟩
  · have hle := hearlier d hd e mem_cons_self
    rwa [hcut.span] at hle
  · rw [hcut.span]
  · have hle := hlast d hd
    omega
  · rw [hmade] at hn
    rcases hexchange r n hend hn with ⟨hlt, hhas⟩ | ⟨k, hle, hhas⟩
    · rw [← hr] at hhas
      exact ⟨hlt, (hs.places n hhas).2⟩
    · -- no edit covers a place between this one and the one behind it
      rw [← hr] at hhas
      obtain ⟨hlimit, hhas⟩ := hs.places k hhas
      obtain ⟨d, hd, hstart, hdstop⟩ := h.cover k hhas
      rw [hall] at hd
      rcases mem_append.1 hd with hd | hd
      · have hbefore := hearlier d hd e mem_cons_self
        omega
      · rcases mem_cons.1 hd with rfl | hd
        · omega
        · have hbehind := hs.starts d hd
          omega

theorem Settled.not_applyFrom {front behind : List Edit} {done : Text}
    (hs : Settled Has t edits front behind limit done) (h : Clears Has t edits) (n : Nat) :
    ¬ Has (Edit.applyFrom t limit done front.reverse) n := by
  induction front using reverseRecOn generalizing behind limit done with
  | nil =>
    intro hhas
    obtain ⟨hlt, hn⟩ := hs.places n hhas
    obtain ⟨e, he, hstart, -⟩ := h.cover n hn
    have hle := hs.starts e (by rwa [hs.all] at he)
    omega
  | append_singleton front e ih =>
    obtain ⟨k, new, hnext, heq⟩ := h.step hs
    rw [reverse_concat, heq]
    exact ih hnext

/-- Such edits leave no place with the property. -/
theorem not_applyAll (h : Clears Has t edits) (n : Nat) : ¬ Has (applyAll t edits) n := by
  rw [applyAll_of_ascending (h.order.imp_of_mem fun hd _ => (h.start_lt_stop hd).1.trans_le)]
  have hs : Settled Has t edits edits [] t.size [] := by
    refine ⟨by simp, fun e he => (h.start_lt_stop he).2, by simp, fun _ => ⟨rfl, rfl⟩,
      fun k hk => ?_⟩
    rw [before_size, append_nil] at hk
    obtain ⟨e, he, -, hstop⟩ := h.cover k hk
    exact ⟨Nat.lt_of_lt_of_le hstop (h.start_lt_stop he).2, hk⟩
  exact hs.not_applyFrom h n

end Clears

/-! ### Weaving -/

/-- `Weave n t edits r`: in a text `t` that starts at offset `n` the edits stand one behind another,
each at a place of its own, and `r` is `t` with all of them made. -/
inductive Weave : Nat → Text → List Edit → Text → Prop
  | rest (n : Nat) (t : Text) : Weave n t [] t
  | keep {n : Nat} (u : Text) {t : Text} {edits : List Edit} {r : Text} :
    Weave (n + u.size) t edits r → Weave n (u ++ t) edits (u ++ r)
  | make {n : Nat} (old new : Text) {t : Text} {edits : List Edit} {r : Text} :
    (∀ e ∈ edits, n < e.span.start) → Weave (n + old.size) t edits r →
    Weave n (old ++ t) (⟨⟨n, n + old.size⟩, new⟩ :: edits) (new ++ r)

theorem Weave.pairwise (h : Weave n t edits r) :
    edits.Pairwise fun a b => a.span.start < b.span.start := by
  induction h with
  | rest => exact .nil
  | keep _ _ ih => exact ih
  | make _ _ hlt _ ih => exact pairwise_cons.2 ⟨hlt, ih⟩

theorem Weave.le_start (h : Weave n t edits r) : ∀ e ∈ edits, n ≤ e.span.start := by
  induction h with
  | rest => simp
  | keep u _ ih =>
    intro e he
    exact Nat.le_of_add_right_le (ih e he)
  | make old new hlt _ _ =>
    intro e he
    rcases mem_cons.1 he with rfl | he
    · exact Nat.le_refl _
    · exact Nat.le_of_lt (hlt e he)

theorem Weave.append (h : Weave n t edits r) (u : Text) : Weave n (t ++ u) edits (r ++ u) := by
  induction h with
  | rest n t => exact .rest n (t ++ u)
  | keep v _ ih =>
    rw [append_assoc, append_assoc]
    exact .keep v ih
  | make old new hlt _ ih =>
    rw [append_assoc, append_assoc]
    exact .make old new hlt ih

/-- Two weaves one behind another. -/
theorem Weave.join {u s : Text} {more : List Edit} (h : Weave n t edits r)
    (h' : Weave (n + t.size) u more s) (hlt : ∀ e ∈ more, n + t.size < e.span.start) :
    Weave n (t ++ u) (edits ++ more) (r ++ s) := by
  induction h with
  | rest n t => exact .keep t h'
  | keep v _ ih =>
    rw [size_append, ← Nat.add_assoc] at h' hlt
    rw [append_assoc, append_assoc]
    exact .keep v (ih h' hlt)
  | @make n old new t edits r hfirst hrest ih =>
    rw [size_append, ← Nat.add_assoc] at h' hlt
    rw [append_assoc, append_assoc]
    refine .make old new (fun e he => ?_) (ih h' hlt)
    rcases mem_append.1 he with he | he
    · exact hfirst e he
    · have hle := hlt e he
      omega

/-- Running the edits of a weave from the back settles all of the text but its front `w`. -/
theorem Weave.applyFrom (h : Weave n t edits r) (ha : a.size = n) :
    ∃ w y done, t = w ++ y ∧ w ++ done = r ∧
      ∀ front, applyFrom (a ++ t) (a ++ t).size [] (edits.reverse ++ front)
        = applyFrom (a ++ t) (n + w.size) done front := by
  induction h generalizing a with
  | rest n t =>
    refine ⟨t, [], [], by simp, by simp, fun front => ?_⟩
    rw [size_append, ha]
    rfl
  | @keep n u t edits r _ ih =>
    obtain ⟨w, y, done, rfl, rfl, hrun⟩ := ih (a := a ++ u) (by simp [ha])
    refine ⟨u ++ w, y, done, by simp, by simp, fun front => ?_⟩
    rw [← append_assoc a u, hrun, size_append, Nat.add_assoc]
  | @make n old new t edits r _ _ ih =>
    obtain ⟨w, y, done, rfl, rfl, hrun⟩ := ih (a := a ++ old) (by simp [ha])
    refine ⟨[], old ++ (w ++ y), new ++ (w ++ done), rfl, rfl, fun front => ?_⟩
    rw [reverse_cons, append_assoc, ← append_assoc a old, hrun, singleton_append, applyFrom, if_pos]
    · -- what stands between the edit and the settled part is `w`
      rw [← append_assoc _ w y, slice_append (a ++ old) w y (by simp [ha]) (by simp [ha])]
      simp
    · have hstart : (a ++ old ++ (w ++ y)).isBoundary n :=
        isBoundary_iff.2 ⟨a, old ++ (w ++ y), by simp, ha⟩
      have hstop : (a ++ old ++ (w ++ y)).isBoundary (n + old.size) :=
        isBoundary_iff.2 ⟨a ++ old, w ++ y, rfl, by simp [ha]⟩
      rw [fits, hstart, hstop]
      simp

theorem Weave.applyAll (h : Weave 0 t edits r) : Edit.applyAll t edits = r := by
  obtain ⟨w, y, done, rfl, rfl, hrun⟩ := h.applyFrom (a := []) rfl
  have hall := hrun []
  rw [append_nil, nil_append, Nat.zero_add] at hall
  rw [Edit.applyAll_of_ascending h.pairwise, hall, Edit.applyFrom, before_size_append]

/-! ### Edits in any order -/

/-- An edit whose span runs forwards between two places of the text. -/
def Sound (t : Text) (e : Edit) : Prop :=
  e.span.start ≤ e.span.stop ∧ t.isBoundary e.span.start = true ∧ t.isBoundary e.span.stop = true

/-- An edit does not reach past the start of any edit of a list that starts behind it. -/
def EndsBefore (e : Edit) (made : List Edit) : Prop :=
  ∀ f ∈ made, e.span.start < f.span.start → e.span.stop ≤ f.span.start

theorem fits_iff : fits t limit e ↔ Sound t e ∧ e.span.stop ≤ limit := by
  simp only [fits, Bool.and_eq_true, decide_eq_true_eq, Sound]
  tauto

/-- An edit in front of a weave makes a longer one. -/
theorem Weave.cons {behind : List Edit} {done : Text} (h : Weave limit (t.after limit) behind done)
    (he : Sound t e) (hlimit : t.isBoundary limit) (hstop : e.span.stop ≤ limit)
    (hbehind : ∀ f ∈ behind, e.span.start < f.span.start) :
    Weave e.span.start (t.after e.span.start) (e :: behind)
      (e.new ++ t.slice ⟨e.span.stop, limit⟩ ++ done) := by
  obtain ⟨hle, hstart, hstop'⟩ := he
  obtain ⟨u, c, rfl, rfl⟩ := isBoundary_iff.1 hlimit
  rw [isBoundary_append_of_le (by omega)] at hstart hstop'
  obtain ⟨a, old, gap, rfl, ha, hold, -⟩ := exists_three hstart hstop' hle
  rw [after_size_append] at h
  have hslice : slice (a ++ old ++ gap ++ c) ⟨e.span.stop, size (a ++ old ++ gap)⟩ = gap :=
    slice_append (a ++ old) gap c (by rw [size_append, hold]) (by rw [size_append])
  have hspan : e = ⟨⟨a.size, a.size + old.size⟩, e.new⟩ := by rw [ha, ← ha, hold, ha]
  rw [hslice, ← ha, append_assoc, append_assoc, append_assoc, after_size_append]
  rw [hspan] at hbehind ⊢
  refine .make old e.new hbehind (.keep gap ?_)
  rwa [← size_append, ← size_append]

/-- Running edits in descending order makes exactly those that are sound and clear of the ones made
behind them. -/
theorem exists_weave_applyFrom (hdesc : edits.Pairwise fun e f => f.span.start < e.span.start)
    {behind : List Edit} {done : Text} (hlimit : t.isBoundary limit)
    (h : Weave limit (t.after limit) behind done)
    (hbehind : ∀ e ∈ edits, ∀ f ∈ behind, e.span.start < f.span.start)
    (hclear : ∀ k ≤ t.size, k ≤ limit ↔ ∀ f ∈ behind, k ≤ f.span.start) :
    ∃ made, Weave 0 t made (applyFrom t limit done edits) ∧
      ∀ e, e ∈ made ↔ e ∈ behind ∨ e ∈ edits ∧ Sound t e ∧ EndsBefore e made := by
  induction edits generalizing limit behind done with
  | nil =>
    refine ⟨behind, ?_, by simp⟩
    have hweave : Weave 0 (t.before limit ++ t.after limit) behind (t.before limit ++ done) :=
      .keep _ (by rwa [Nat.zero_add, beq_iff_eq.1 hlimit])
    rwa [before_append_after] at hweave
  | cons e edits ih =>
    obtain ⟨hfirst, hdesc⟩ := pairwise_cons.1 hdesc
    obtain ⟨he, hbehind⟩ := forall_mem_cons.1 hbehind
    rw [applyFrom]
    split
    · next hfits =>
      obtain ⟨hsound, hstop⟩ := fits_iff.1 hfits
      obtain ⟨made, hweave, hmade⟩ := ih hdesc hsound.2.1 (h.cons hsound hlimit hstop he)
        (fun x hx => forall_mem_cons.2 ⟨hfirst x hx, hbehind x hx⟩) (fun k hk => by
          rw [forall_mem_cons, ← hclear k hk]
          have hle := hsound.1
          omega)
      refine ⟨made, hweave, fun x => ?_⟩
      have hclear : EndsBefore e made := by
        intro f hf hlt
        rcases (hmade f).1 hf with hf | ⟨hf, -⟩
        · rcases mem_cons.1 hf with rfl | hf
          · omega
          · exact (hclear _ (le_size_of_isBoundary hsound.2.2)).1 hstop f hf
        · have := hfirst f hf
          omega
      grind
    · next hfits =>
      obtain ⟨made, hweave, hmade⟩ := ih hdesc hlimit h hbehind hclear
      refine ⟨made, hweave, fun x => ?_⟩
      have hclash (hsound : Sound t e) : ¬ EndsBefore e made :=
        fun hclear' => hfits <| fits_iff.2 ⟨hsound,
        (hclear _ (le_size_of_isBoundary hsound.2.2)).2 fun f hf =>
          hclear' f ((hmade f).2 (.inl hf)) (he f hf)⟩
      grind

theorem sortedBy_start (h : edits.Pairwise fun e f => e.span.start ≠ f.span.start) :
    (sortedBy (fun a b => decide (b.span.start ≤ a.span.start)) edits).Pairwise fun e f =>
      f.span.start < e.span.start := by
  have hsorted := sortedBy_pairwise (fun e : Edit => e.span.start) edits
  refine (hsorted.and (((sortedBy_perm _ edits).pairwise_iff Ne.symm).2 h)).imp fun h => ?_
  exact Nat.lt_of_le_of_ne h.1 h.2.symm

/-- Edits with different starts are made at once: in whatever order they come, those are made that
are sound and end before the next one made, and where the edits lie apart from each other all of
them are. -/
theorem applyAll_simultaneous (h : edits.Pairwise fun e f => e.span.start ≠ f.span.start)
    (t : Text) :
    (∀ edits', edits'.Perm edits → applyAll t edits' = applyAll t edits) ∧
    ∃ made, Weave 0 t made (applyAll t edits) ∧
      (∀ e, e ∈ made ↔ e ∈ edits ∧ Sound t e ∧ EndsBefore e made) ∧
      ((∀ e ∈ edits, Sound t e) → (∀ e ∈ edits, ∀ f ∈ edits, e ≠ f →
        e.span.stop ≤ f.span.start ∨ f.span.stop ≤ e.span.start) → ∀ e ∈ edits, e ∈ made) := by
  constructor
  · intro edits' hperm
    have hsame : sortedBy (fun a b => decide (b.span.start ≤ a.span.start)) edits'
        = sortedBy (fun a b => decide (b.span.start ≤ a.span.start)) edits := by
      refine (((sortedBy_perm _ edits').trans hperm).trans
        (sortedBy_perm _ edits).symm).eq_of_pairwise
        (fun e f _ _ hlt hgt => absurd hlt (Nat.lt_asymm hgt)) (sortedBy_start ?_)
          (sortedBy_start h)
      exact (hperm.pairwise_iff Ne.symm).2 h
    rw [applyAll, applyAll, hsame]
  · have hend : Weave t.size (t.after t.size) [] [] := by
      have hafter := after_size_append t []
      rw [append_nil] at hafter
      rw [hafter]
      exact .rest _ _
    obtain ⟨made, hweave, hmade⟩ :=
      exists_weave_applyFrom (sortedBy_start h) (by simp [isBoundary]) hend
      (by simp) (by simp)
    simp only [not_mem_nil, false_or, mem_sortedBy] at hmade
    refine ⟨made, hweave, hmade, fun hsound hapart e he =>
      (hmade e).2 ⟨he, hsound e he, fun f hf hlt => ?_⟩⟩
    obtain ⟨hf, hfsound, -⟩ := (hmade f).1 hf
    have hle := hfsound.1
    rcases hapart e he f hf (by rintro rfl; omega) with hstop | hstop
    · exact hstop
    · omega

/-- Two edits that touch, one that reaches over them, one inside a character and one that runs
backwards. -/
theorem applyAll_simultaneous_overlapping : let t : Text := "aébcd"
    let edits : List Edit :=
      [⟨⟨3, 4⟩, "B"⟩, ⟨⟨0, 5⟩, "x"⟩, ⟨⟨2, 3⟩, "y"⟩, ⟨⟨6, 4⟩, "z"⟩, ⟨⟨4, 6⟩, "!"⟩]
    (edits.Pairwise fun e f => e.span.start ≠ f.span.start) ∧ applyAll t edits = "aéB!" ∧
      applyAll t edits.reverse = "aéB!" := by
  intro t edits
  have h : edits.Pairwise fun e f => e.span.start ≠ f.span.start := by decide
  have hmade : applyAll t edits = "aéB!" := by decide +kernel
  exact ⟨h, hmade, ((applyAll_simultaneous h t).1 _ (reverse_perm _)).trans hmade⟩

end Edit

end Recast
