import Recast.Proofs.WhereClauses

/-!
# Terms of ORDER BY around a clause

An UPDATE may have an ORDER BY list, whose terms are cast where they are columns of text. Such a
term is a name between blanks and commas. It is not the word WHERE, so it keeps out of the way of a
WHERE that is set off.
-/

namespace Recast

open Literal Nesting Keyword List Text
open Option hiding guard

variable {m p q t word x : Text} {length : Nat} {item list s : Span} {e : Edit}
  {columns : List ColumnRef}

/-! ### The items of a list -/

/-- An item of a list of a text, with what stands before it and behind it in the list. -/
theorem Nesting.exists_of_mem_list (hstart : Outside (mask t) list.start)
    (hstop : Outside (mask t) list.stop) (hle : list.start ≤ list.stop)
    (hitem : item ∈ splitTop (t.slice list) ',') :
    ∃ u v, mask (t.slice list) = u ++ (mask (t.slice (item.shift list.start)) ++ v) ∧
      u.size = item.start ∧ (u = [] ∨ u.getLast? = some ',') ∧ (v = [] ∨ v.head? = some ',') := by
  obtain ⟨hfirst, hend, hle'⟩ := outside_of_mem_splitTop (by decide) (by decide) hitem
  have hedges := edges_of_mem_splitTop hitem
  obtain ⟨u, i, v, hcore, hu, hi, -⟩ :=
    exists_three hfirst.isBoundary_mask hend.isBoundary_mask hle'
  have hslice : mask (t.slice (item.shift list.start)) = i := by
    obtain ⟨front, core, back, hm, hfront, -, hcore'⟩ :=
      exists_three hstart.isBoundary_mask hstop.isBoundary_mask hle
    rw [← hstart.mask_slice hstop, hcore] at hcore'
    have hcut : mask t = (front ++ u) ++ i ++ (v ++ back) := by
      rw [hm, ← hcore']
      simp
    rw [Outside.mask_slice (s := item.shift list.start) (hstart.of_slice hstop hle hfirst)
      (hstart.of_slice hstop hle hend), hcut]
    exact slice_append _ _ _ (by simp only [size_append]; omega) (by simp only [size_append]; omega)
  rw [hcore] at hedges
  refine ⟨u, v, by rw [hslice, hcore, append_assoc], hu, ?_, ?_⟩
  · rcases hedges.start with hzero | ⟨a, b, hsep, hstart⟩
    · exact .inl (eq_nil_of_size (hu.trans hzero))
    · have hcut : u ++ (i ++ v) = (a ++ [',']) ++ b := by simpa using hsep
      rw [(append_inj_of_size hcut (hu.trans hstart)).1, getLast?_concat]
      exact .inr rfl
  · rcases hedges.stop with hsize | ⟨a, b, hsep, hstop⟩
    · rw [size_append, size_append] at hsize
      exact .inl (eq_nil_of_size (by omega))
    · rw [(append_inj_of_size hsep (by rw [size_append, hi, hstop])).2]
      exact .inr rfl

/-- Code of the mask is code of the text. -/
theorem Literal.code_of_mask (h : mask t = p ++ (x ++ q)) (hp : state none p = none) (hne : x ≠ [])
    (hx : Code x) : Closed (t.before p.size) ∧ t.slice ⟨p.size, p.size + x.size⟩ = x := by
  have hfree : Free (mask t) p.size := ⟨p, x ++ q, h, rfl, by simp [hne], hp⟩
  have hcut : mask t = p ++ x ++ q := by rw [h, append_assoc]
  have hlast : Outside (mask t) (p.size + x.size) := by
    rw [← size_append]
    refine outside_of_state hcut ?_
    rw [state_append, hp]
    exact hx.closed
  have hmask := Outside.mask_slice (s := ⟨p.size, p.size + x.size⟩) hfree.outside hlast
  rw [hcut, slice_append _ _ _ rfl rfl] at hmask
  exact ⟨hfree.closed_before, (eq_of_mask_no_quote (by rwa [hmask])).symm.trans hmask⟩

namespace Ordering

/-- The text of an item that is cast, and its edit. -/
theorem exists_of_termEdit? (hstart : t.isBoundary s.start) (hstop : t.isBoundary s.stop)
    (hle : s.start ≤ s.stop) (h : termEdit? t columns length s = some e) :
    ∃ a x c, t.slice s = a ++ (x ++ c) ∧ Cast columns a x c ∧
      e = ⟨⟨s.start + a.size, s.start + a.size + x.size⟩, casted length x⟩ := by
  obtain ⟨front, p, back, rfl, hfront, hsize, hslice⟩ := exists_three hstart hstop hle
  obtain ⟨start, stop⟩ := s
  obtain rfl : front.size = start := hfront
  obtain rfl : front.size + p.size = stop := hsize
  obtain ⟨a, x, c, new, hparts, hnew, hedit⟩ := exists_termEdit p columns length
  rw [hedit] at h
  obtain ⟨w, hw, rfl⟩ := map_eq_some_iff.1 h
  obtain ⟨hcast, rfl⟩ := hnew w hw
  exact ⟨a, x, c, hslice.trans hparts, hcast, rfl⟩

theorem balanced_casted (hx : ∀ y ∈ x, isPlain y) (length : Nat) : Balanced (casted length x) := by
  have hword (word : Text) (hword : ∀ z ∈ word, isPlain z) : Balanced word :=
    balanced_of_isPlain hword
  have hnumber : Balanced (ofNat length) := hword _ (isPlain_ofNat length)
  have hcast (number : Text) :
      "cast" ++ '(' :: (x ++ " as varchar" ++ '(' :: (number ++ [')']) ++ [')'])
        = ("cast(" ++ x ++ " as varchar(" ++ number ++ "))" : Text) := by simp
  have h := (hword "cast" (by decide)).append (((hword x hx).append
    (hword " as varchar" (by decide))).append hnumber.enclosed).enclosed
  rw [hcast] at h
  exact h

/-- A term that is cast is a name, but not WHERE. -/
theorem Cast.name {a c : Text} (h : Cast columns a x c)
    (hcolumns : ∀ r ∈ columns, r.column.same "WHERE" = false) :
    (∀ z ∈ x, isBlank z = false ∧ isPlain z) ∧ lower x ≠ lower "WHERE" := by
  obtain ⟨table, column, href, hrefers⟩ := h.ref
  refine ⟨fun z hz => ?_, fun hlower => ?_⟩
  · rcases (name_of_columnRef? href).2 z hz with hz | rfl
    · exact Comparison.of_isNameChar (P := fun c => isBlank c = false ∧ isPlain c) hz (by decide)
    · decide
  · obtain ⟨-, -, ⟨-, rfl⟩ | ⟨name, -, rfl, -⟩⟩ := exists_of_columnRef? href
    · obtain ⟨r, hr, href⟩ := any_eq_true.1 hrefers
      rw [Bool.and_eq_true] at href
      have hsame : lower r.column = lower "WHERE" := (eq_of_beq href.2).trans hlower
      have hother := hcolumns r hr
      simp [same, hsame] at hother
    · have hdot : '.'.toLower ∈ lower "WHERE" := by
        rw [← hlower]
        exact mem_map_of_mem (by simp)
      exact absurd hdot (by decide)

/-! ### Terms in the text -/

theorem head?_after_phrase {word' : Text} {words : List Text} {offset : Nat}
    (h : s ∈ topPhrases m (word :: word' :: words) offset) {z : Char}
    (hz : (m.after s.stop).head? = some z) : isNameChar z = false := by
  obtain ⟨p, w, c, d, hm, hc, hd, rfl, -, -, -⟩ := exists_of_mem_topPhrases h
  obtain ⟨v, hv⟩ := Cursor.rest?_reads hd
  have hcut : m = (p ++ w ++ v) ++ d.rest := by rw [hm, hv.rest]; simp
  have hsize : d.offset = size (p ++ w ++ v) := by
    rw [hv.offset, hc, size_append, size_append]
  rw [hsize, hcut, after_size_append] at hz
  have hbefore := beforeName_of_rest? (by simp) hd
  rwa [beforeName, hz, any_some] at hbefore

/-- No name goes on where the two texts meet. -/
def Severed (p q : Text) : Prop :=
  ∀ y z, p.getLast? = some y → q.head? = some z → isNameChar y = true → isNameChar z = false

/-- No name goes on at the edges of an item. -/
theorem exists_item (hlist : list? (mask t) = some list)
    (hitem : item ∈ splitTop (t.slice list) ',') : ∃ p q,
      mask t = p ++ (mask (t.slice (item.shift list.start)) ++ q) ∧
      p.size = (item.shift list.start).start ∧
      Severed p (mask (t.slice (item.shift list.start)) ++ q) ∧
      ∀ z, q.head? = some z → isNameChar z = false := by
  obtain ⟨hstart, hstop, hle⟩ := outside_of_list? hlist
  obtain ⟨u, v, hcore, hu, hleft, hright⟩ := exists_of_mem_list hstart hstop hle hitem
  obtain ⟨clause, hclause, front, lead, core, trail, tail, hm, hsize, htrim, -, htail, rfl⟩ :=
    exists_list hlist
  have hlisted :
      mask (t.slice ⟨front.size + lead.size, front.size + lead.size + core.size⟩) = core := by
    have h := slice_append (front ++ lead) core (trail ++ tail)
      (m := front.size + lead.size) (n := front.size + lead.size + core.size) (by simp) (by simp)
    rw [hstart.mask_slice hstop, hm]
    simpa using h
  rw [hlisted] at hcore
  generalize mask (t.slice (item.shift (front.size + lead.size))) = i at hcore
  have hcut : mask t = front ++ lead ++ u ++ (i ++ (v ++ trail ++ tail)) := by
    rw [hm, hcore]
    simp
  refine ⟨front ++ lead ++ u, v ++ trail ++ tail, hcut, ?_, fun y z hy hz hname => ?_,
    fun z hz => ?_⟩
  · simp only [size_append, Span.shift]
    omega
  · -- before the item stands a comma, a blank, or the phrase, behind which no name goes on
    rcases hleft with rfl | hsep
    · rw [append_nil] at hy
      cases lead with
      | nil =>
        refine head?_after_phrase hclause ?_
        rw [hsize, hcut]
        simpa using hz
      | cons b lead =>
        rw [getLast?_append] at hy
        rw [isNameChar_of_isBlank (htrim.leads y (mem_of_mem_getLast? hy))] at hname
        cases hname
    · rw [getLast?_append, hsep] at hy
      cases hy
      cases hname
  · rcases hright with rfl | hsep
    · rcases mem_append.1 (mem_of_mem_head? hz) with hz | hz
      · exact isNameChar_of_isBlank (htrim.trails z hz)
      · rcases htail z hz with hz | rfl
        · exact isNameChar_of_isBlank hz
        · rfl
    · rw [append_assoc, head?_append, hsep] at hz
      cases hz
      rfl

/-- Where a term that is cast stands. -/
structure Stands (t p x q : Text) : Prop where
  mask_eq : mask t = p ++ (x ++ q)
  closed : Closed (t.before p.size)
  slice_eq : t.slice ⟨p.size, p.size + x.size⟩ = x
  left : Severed p x
  right : ∀ z, q.head? = some z → isNameChar z = false

/-- Where a term stands that is cast. -/
theorem exists_stands (hlist : list? (mask t) = some list)
    (hitem : item ∈ splitTop (t.slice list) ',')
    (he : termEdit? t columns length (item.shift list.start) = some e) :
    ∃ p a x c q, Stands t p x q ∧ Cast columns a x c ∧
      e = ⟨⟨p.size, p.size + x.size⟩, casted length x⟩ := by
  obtain ⟨hstart, hstop, hle⟩ := outside_of_list? hlist
  obtain ⟨hfirst, hend, hle'⟩ := outside_of_mem_splitTop (by decide) (by decide) hitem
  have hfirst' := hstart.of_slice hstop hle hfirst
  have hend' := hstart.of_slice hstop hle hend
  obtain ⟨a, x, c, hslice, hcast, rfl⟩ := exists_of_termEdit? hfirst'.isBoundary hend'.isBoundary
    (Nat.add_le_add_right hle' _) he
  obtain ⟨hne, hx, hall⟩ := hcast.no_quote
  obtain ⟨p, q, hm, hp, hleft, hright⟩ := exists_item hlist hitem
  rw [hslice, hall.mask_eq] at hm hleft
  have hcut : mask t = (p ++ a) ++ (x ++ (c ++ q)) := by
    rw [hm]
    simp
  have hstate : state none (p ++ a) = none := by
    have hpos := size_pos hne
    have hlt : (item.shift list.start).start < t.size := by
      rw [← size_mask, hm]
      simp only [size_append]
      omega
    have hfree : Free (mask t) p.size := hp ▸ hfirst'.free_of_lt hlt
    rw [state_append, hfree.state_eq hm]
    exact Code.closed fun y hy => hall y (mem_append_left _ hy)
  obtain ⟨hclosed, hterm⟩ := code_of_mask hcut hstate hne hx
  refine ⟨p ++ a, a, x, c, c ++ q,
    ⟨hcut, hclosed, hterm, fun y z hy hz hname => ?_, fun z hz => ?_⟩,
    hcast, by rw [size_append, hp]⟩
  · cases a with
    | nil =>
      refine hleft y z (by simpa using hy) ?_ hname
      rw [nil_append, append_assoc, head?_append, hz, some_or]
    | cons b a =>
      rw [getLast?_append] at hy
      simp [isNameChar_of_isBlank (hcast.leads y (mem_of_mem_getLast? hy))] at hname
  · cases c with
    | nil => exact hright z hz
    | cons b c =>
      cases hz
      exact isNameChar_of_isBlank (hcast.trails _ rfl)

/-! ### Casts around a clause -/

/-- A term that is cast keeps out of the way of a WHERE that is set off. -/
theorem Stands.spares {front rest : Text} (hwhere : SetOff front word rest)
    (h : Stands (front ++ (word ++ rest)) p x q) (hne : x ≠ [])
    (hx : ∀ z ∈ x, isBlank z = false ∧ isPlain z) (hother : lower x ≠ lower "WHERE") (new : Text) :
    Spares front word ⟨⟨p.size, p.size + x.size⟩, new⟩ := by
  have hletter {y z : Char} (hname : isNameChar y → isNameChar z = false) (hy : isLetter y) :
      isLetter z = false := by
    cases hz : isLetter z with
    | false => rfl
    | true =>
      rw [isNameChar_of_isLetter hz] at hname
      exact hname (isNameChar_of_isLetter hy)
  have hopen : ∀ z ∈ x, isBlank z = false ∧ z ≠ '(' := by
    refine fun z hz => ⟨(hx z hz).1, ?_⟩
    rintro rfl
    exact absurd (hx '(' hz).2 (by decide)
  rcases hwhere.clear_of_name (y := []) h.mask_eq hne hopen hother
    (fun _ y z hy hz => hletter (h.left y z hy hz)) (fun y z _ hz => hletter fun _ => h.right z hz)
    (by simp) with hclear | hclear
  · refine .inl (Nat.lt_of_le_of_ne (by simpa using hclear) fun hsize => ?_)
    obtain ⟨b, hb, hblank⟩ := hwhere.ends_in_blank h.mask_eq hne hsize
    simp [(hx b (mem_of_mem_getLast? hb)).1] at hblank
  · exact .inr (.inr hclear)

/-- The WHERE stays when terms are cast. -/
theorem cast_keeps {catalog : Catalog} (hplain : catalog.Plain) (length : Nat) (h : HasWhere t) :
    HasWhere ((cast catalog length t).getD t) := by
  cases hlist : list? (mask t) with
  | none =>
    rw [cast, hlist]
    exact h
  | some list =>
    obtain ⟨front, word, rest, rfl, h⟩ := h
    have hedit : ∀ e ∈ (terms (front ++ (word ++ rest)) list).filterMap
        (cast? (front ++ (word ++ rest)) (catalog.ofClass .text) length),
        Spares front word e ∧ Light (front ++ (word ++ rest)) e := by
      intro e he
      rw [filterMap_terms] at he
      obtain ⟨item, hitem, he⟩ := mem_filterMap.1 he
      obtain ⟨p, a, x, c, q, hstands, hcast, rfl⟩ := exists_stands hlist hitem he
      obtain ⟨hx, hother⟩ := hcast.name fun r hr => (hplain.of_mem_ofClass hr).2.2
      have hbalanced := balanced_of_isPlain fun z hz => (hx z hz).2
      refine ⟨hstands.spares h hcast.no_quote.1 hx hother _,
        light_of_closed hstands.closed fun d => ?_⟩
      rw [hstands.slice_eq]
      exact (balanced_casted (fun z hz => (hx z hz).2) length).lighter hbalanced d
    rw [cast, hlist]
    exact h.applyAll (fun e he => (hedit e he).1) fun e he _ => (hedit e he).2

end Ordering

end Recast
