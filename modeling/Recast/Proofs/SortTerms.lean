import Recast.Pass.Ordering
import Recast.Proofs.Landmarks
import Recast.Proofs.Rendering

/-!
# The terms of ORDER BY

A term of an ORDER BY list is cast when it is a column reference, so when it has no quotes.
Everything about such a term shows in the mask; the other terms are left alone, whatever they hold.
-/

namespace Recast

open List Text
open Option hiding guard

variable {column t t' x : Text} {list : Span} {table : Option Text}

namespace Ordering

open Literal

/-! ### The list -/

def strip (m : Text) : Text := trimEnd (dropEnd (· == ';') m.trimEnd)

theorem exists_strip (m : Text) : ∃ b, m = strip m ++ b ∧ (∀ c ∈ b, isBlank c ∨ c = ';') ∧
    ∀ c, (strip m).getLast? = some c → isBlank c = false := by
  obtain ⟨b₁, h₁, hb₁, -⟩ := exists_dropEnd isBlank m
  obtain ⟨b₂, h₂, hb₂, -⟩ := exists_dropEnd (· == ';') m.trimEnd
  obtain ⟨b₃, h₃, hb₃, hlast⟩ := exists_dropEnd isBlank (dropEnd (· == ';') m.trimEnd)
  refine ⟨b₃ ++ (b₂ ++ b₁), ?_, fun c hc => ?_, hlast⟩
  · rw [← append_assoc, ← append_assoc, strip, trimEnd, ← h₃, ← h₂, trimEnd, ← h₁]
  · simp only [mem_append] at hc
    rcases hc with hc | hc | hc
    · exact .inl (hb₃ c hc)
    · exact .inr (eq_of_beq (hb₂ c hc))
    · exact .inl (hb₁ c hc)

/-- The list stands behind ORDER BY, between blanks, and up to the blanks and semicolons at the
end. -/
theorem exists_list (h : list? (mask t) = some list) :
    ∃ clause ∈ Keyword.topPhrases (mask t) ["ORDER", "BY"] 0, ∃ front lead core trail tail : Text,
      mask t = front ++ (lead ++ (core ++ trail)) ++ tail ∧ clause.stop = front.size ∧
      Text.Trimmed lead core trail ∧ lead ++ (core ++ trail) ≠ [] ∧
      (∀ c ∈ tail, isBlank c ∨ c = ';') ∧
      list = ⟨front.size + lead.size, front.size + lead.size + core.size⟩ := by
  obtain ⟨clause, hclause, _, hguard, h⟩ := of_bind₂ h
  cases h
  have hmem := mem_of_getLast? hclause
  obtain ⟨tail, hm, htail, -⟩ := exists_strip (mask t)
  rw [show trimEnd (dropEnd (· == ';') (mask t).trimEnd) = strip (mask t) from rfl] at hguard ⊢
  generalize strip (mask t) = u at hm hguard ⊢
  have hlt : clause.stop < u.size := by simpa [guard] using hguard
  have hboundary := (Keyword.free_of_mem_phrases (by decide) hmem).2.isBoundary_mask
  rw [hm, isBoundary_append_of_le (by omega)] at hboundary
  obtain ⟨front, w, rfl, hsize⟩ := isBoundary_iff.1 hboundary
  obtain ⟨lead, core, trail, rfl, htrimmed⟩ := exists_trimmed w
  have hstop :
      size (front ++ (lead ++ (core ++ trail))) = clause.stop + size (lead ++ (core ++ trail)) := by
    rw [size_append, hsize]
  have hspan := htrimmed.trimSpan_eq front tail hsize.symm hstop
  rw [← hm] at hspan
  refine ⟨clause, hmem, front, lead, core, trail, tail, hm, hsize.symm, htrimmed, ?_, htail, ?_⟩
  · intro hnil
    rw [hnil, append_nil] at hlt
    omega
  · rw [hspan, hsize]

/-- The list of a statement begins and ends outside literals. -/
theorem outside_of_list? (h : list? (mask t) = some list) :
    Outside (mask t) list.start ∧ Outside (mask t) list.stop ∧ list.start ≤ list.stop := by
  obtain ⟨clause, hclause, front, lead, core, trail, tail, hm, hsize, htrimmed, hne, htail, rfl⟩ :=
    exists_list h
  have hblank {c : Char} (h : isBlank c) : isQuote c = false ∧ c ≠ filler :=
    ⟨isQuote_of_isBlank h, by rintro rfl; cases h⟩
  have hbehind := (Keyword.free_of_mem_phrases (by decide) hclause).2
  have hstate : state none front = none := by
    rw [hsize] at hbehind
    rcases hbehind with hfree | hend
    · exact hfree.state_eq (by rw [hm, append_assoc])
    · have hpos := size_pos hne
      rw [hm, size_append, size_append] at hend
      omega
  have hstart : Outside (mask t) (front ++ lead : Text).size := by
    refine outside_of_state (b := core ++ trail ++ tail) (by simp [hm]) ?_
    rw [state_append, hstate]
    exact Code.closed fun c hc => (hblank (htrimmed.leads c hc)).1
  have hend : Outside (mask t) (front ++ lead ++ core : Text).size := by
    refine outside_of_rest (b := trail ++ tail) (by simp [hm]) (forall_mem_append.2 ⟨?_, ?_⟩)
    · exact fun c hc => hblank (htrimmed.trails c hc)
    · intro c hc
      rcases htail c hc with hc | rfl
      · exact hblank hc
      · decide
  rw [size_append] at hstart
  rw [size_append, size_append] at hend
  exact ⟨hstart, hend, Nat.le_add_right _ _⟩

/-! ### One term -/

theorem exists_of_endsIn {direction : Text} (h : endsIn t direction) :
    ∃ y b r, t = y ++ b :: r ∧ isAsciiBlank b ∧ lower r = lower direction := by
  have ht := take_append_drop (t.length - (direction.length + 1)) t
  rw [endsIn] at h
  split at h
  · next b r hdrop =>
    rw [Bool.and_eq_true, Bool.and_eq_true] at h
    exact ⟨_, b, r, by rw [← hdrop, ht], h.1.2, eq_of_beq h.2⟩
  · cases h

theorem utf8Size_of_isAsciiBlank {c : Char} (h : isAsciiBlank c) : c.utf8Size = 1 := by
  simp only [isAsciiBlank, Bool.or_eq_true, beq_iff_eq] at h
  rcases h with (((rfl | rfl) | rfl) | rfl) | rfl <;> rfl

/-- A text is its parts with separators between them. -/
theorem join_splitOn (sep : Char) (t : Text) : Text.join [sep] (Text.splitOn sep t) = t := by
  induction t with
  | nil => rfl
  | cons c t ih =>
    rw [Text.splitOn]
    split
    · next hparts =>
      rw [hparts] at ih
      rw [← ih]
      rfl
    · next part parts hparts =>
      rw [hparts] at ih
      split
      · next hc =>
        rw [← ih, hc]
        rfl
      · rw [← ih]
        cases parts <;> rfl

/-- A column reference is a name, or two with a dot between them. -/
theorem exists_of_columnRef? (h : columnRef? x = some (table, column)) :
    column ≠ [] ∧ (∀ c ∈ column, isNameChar c) ∧
      (table = none ∧ x = column ∨ ∃ name, table = some name ∧ x = name ++ '.' :: column ∧
        name ≠ [] ∧ ∀ c ∈ name, isNameChar c) := by
  have hname {part : Text} (h : (!part.isEmpty && part.all isNameChar) = true) :
      part ≠ [] ∧ ∀ c ∈ part, isNameChar c := by
    rw [Bool.and_eq_true] at h
    exact ⟨by simpa using h.1, fun c hc => List.all_eq_true.1 h.2 c hc⟩
  have hjoin := join_splitOn '.' x
  rw [columnRef?] at h
  split at h
  · next part hsplit =>
    split at h
    · next hpart =>
      cases h
      rw [hsplit] at hjoin
      exact ⟨(hname hpart).1, (hname hpart).2, .inl ⟨rfl, hjoin.symm⟩⟩
    · cases h
  · next name part hsplit =>
    split at h
    · next hboth =>
      cases h
      rw [Bool.and_eq_true] at hboth
      rw [hsplit] at hjoin
      obtain ⟨hne, hall⟩ := hname hboth.1
      refine ⟨(hname hboth.2).1, (hname hboth.2).2, .inr ⟨name, rfl, ?_, hne, hall⟩⟩
      rw [← hjoin]
      simp [Text.join]
    · cases h
  · cases h

/-- A column reference starts with a name character, and has none but these and a dot. -/
theorem name_of_columnRef? (h : columnRef? x = some (table, column)) :
    (∃ c r, x = c :: r ∧ isNameChar c) ∧ ∀ c ∈ x, isNameChar c ∨ c = '.' := by
  obtain ⟨hne, hcolumn, ⟨-, rfl⟩ | ⟨name, -, rfl, hne', hname⟩⟩ := exists_of_columnRef? h
  · obtain ⟨c, r, rfl⟩ := exists_cons_of_ne_nil hne
    exact ⟨⟨c, r, rfl, hcolumn c (by simp)⟩, fun x hx => .inl (hcolumn x hx)⟩
  · obtain ⟨c, r, rfl⟩ := exists_cons_of_ne_nil hne'
    refine ⟨⟨c, _, rfl, hname c (by simp)⟩, fun x hx => ?_⟩
    rcases mem_append.1 hx with hx | hx
    · exact .inl (hname x hx)
    · rcases mem_cons.1 hx with rfl | hx
      · exact .inr rfl
      · exact .inl (hcolumn x hx)

theorem no_quote_of_columnRef? (h : columnRef? x = some (table, column)) : x ≠ [] ∧ Code x := by
  obtain ⟨⟨c, r, rfl, -⟩, hall⟩ := name_of_columnRef? h
  refine ⟨by simp, fun x hx => ?_⟩
  rcases hall x hx with hx | rfl
  · exact isQuote_of_class hx (by decide) (by decide)
  · decide

theorem exists_isEmpty_trimSpan (p : Text) : ∃ empty : Bool, ∀ front back : Text,
    ((front ++ p ++ back).trimSpan ⟨front.size, front.size + p.size⟩).isEmpty = empty := by
  obtain ⟨lead, core, trail, rfl, htrimmed⟩ := exists_trimmed p
  refine ⟨decide (core.size = 0), fun front back => ?_⟩
  rw [htrimmed.trimSpan_eq front back rfl rfl]
  exact decide_eq_decide.2 (by simp only; omega)

/-- The term in a part of a text: where it is does not depend on what stands around the part. Before
the term are blanks, and behind it blanks and a direction. -/
theorem exists_term (p : Text) :
    ∃ a x c : Text, p = a ++ (x ++ c) ∧ (∀ y ∈ a, isBlank y) ∧ (Code c) ∧
    (∀ y, c.head? = some y → isBlank y) ∧ ∀ front back : Text, (termOf (front ++ p ++ back)
      ((front ++ p ++ back).trimSpan ⟨front.size, front.size + p.size⟩)).expr
        = ⟨front.size + a.size, front.size + a.size + x.size⟩ := by
  obtain ⟨lead, core, trail, rfl, htrimmed⟩ := exists_trimmed p
  have hblank {w : Text} (h : ∀ c ∈ w, isBlank c) : Code w :=
    code_of_isBlank h
  have hspan (front back : Text) := htrimmed.trimSpan_eq front back rfl rfl
  have hcore (front back : Text) : (front ++ (lead ++ (core ++ trail)) ++ back).slice
      ⟨front.size + lead.size, front.size + lead.size + core.size⟩ = core := by
    have h := slice_append (front ++ lead) core (trail ++ back) (m := front.size + lead.size)
      (n := front.size + lead.size + core.size) (by simp) (by simp)
    simpa using h
  cases hdirection : directions.find? (endsIn core) with
  | none =>
    refine ⟨lead, core, trail, rfl, htrimmed.leads, hblank htrimmed.trails,
      fun y hy => htrimmed.trails y (mem_of_mem_head? hy), fun front back => ?_⟩
    rw [termOf, hspan, hcore, hdirection]
  | some direction =>
    obtain ⟨y, b, r, rfl, hb, hr⟩ := exists_of_endsIn (find?_some hdirection)
    obtain ⟨lead', core', trail', rfl, htrimmed'⟩ := exists_trimmed y
    have hsize : size (b :: r) = direction.size + 1 := by
      rw [size_cons, ← size_lower r, hr, size_lower, utf8Size_of_isAsciiBlank hb, Nat.add_comm]
    have hword : ∀ w ∈ directions, ∀ c ∈ w, isQuote c.toLower = false := by decide
    have hquote : Code (b :: r) := by
      refine forall_mem_cons.2 ⟨isQuote_of_class hb (by decide) (by decide), ?_⟩
      exact sees_toLower.no_quote hr (hword direction (mem_of_find?_eq_some hdirection))
    refine ⟨lead ++ lead', core', trail' ++ (b :: r ++ trail), by simp, ?_, ?_, fun y hy => ?_,
      fun front back => ?_⟩
    · exact forall_mem_append.2 ⟨htrimmed.leads, htrimmed'.leads⟩
    · exact forall_mem_append.2 ⟨hblank htrimmed'.trails,
        forall_mem_append.2 ⟨hquote, hblank htrimmed.trails⟩⟩
    · cases trail' with
      | nil =>
        cases hy
        exact isBlank_of_isAsciiBlank hb
      | cons z trail' =>
        cases hy
        exact htrimmed'.trails _ (by simp)
    · have hstop : front.size + lead.size + (size (lead' ++ (core' ++ trail') ++ b :: r)
          - (direction.size + 1)) = front.size + lead.size + size (lead' ++ (core' ++ trail')) := by
        rw [size_append, hsize, Nat.add_sub_cancel]
      have h :=
        htrimmed'.trimSpan_eq (front ++ lead) (b :: r ++ (trail ++ back))
          (size_append front lead).symm hstop
      rw [termOf, hspan, hcore, hdirection]
      simp only [append_assoc, size_append, Nat.add_assoc] at h ⊢
      exact h

/-! ### The casts -/

/-- The edit for the item at a span, if there is one. -/
def termEdit? (t : Text) (columns : List ColumnRef) (length : Nat) (s : Span) : Option Edit :=
  if (t.trimSpan s).isEmpty then none else cast? t columns length (termOf t (t.trimSpan s))

theorem filterMap_terms (t : Text) (list : Span) (columns : List ColumnRef) (length : Nat) :
    (terms t list).filterMap (cast? t columns length) =
      (Nesting.splitTop (t.slice list) ',').filterMap fun s =>
        termEdit? t columns length (s.shift list.start) := by
  rw [terms, Nesting.itemsIn, filterMap_map, filterMap_filter, filterMap_map]
  congr 1
  funext s
  simp only [Function.comp, termEdit?]
  cases ((t.trimSpan (s.shift list.start))).isEmpty <;> rfl

def casted (length : Nat) (x : Text) : Text :=
  "cast(" ++ x ++ " as varchar(" ++ ofNat length ++ "))"

/-- An item that is cast: one of the columns, with blanks before it, and blanks and a direction
behind it. -/
structure Cast (columns : List ColumnRef) (a x c : Text) : Prop where
  leads : ∀ y ∈ a, isBlank y = true
  ref : ∃ table column, columnRef? x = some (table, column) ∧ refersTo columns table column = true
  quotes : ∀ y ∈ c, isQuote y = false
  trails : ∀ y, c.head? = some y → isBlank y = true

theorem Cast.no_quote {columns : List ColumnRef} {a c : Text} (h : Cast columns a x c) :
    x ≠ [] ∧ (Code x) ∧ Code (a ++ (x ++ c)) := by
  obtain ⟨table, column, href, -⟩ := h.ref
  obtain ⟨hne, hx⟩ := no_quote_of_columnRef? href
  exact ⟨hne, hx, forall_mem_append.2 ⟨code_of_isBlank h.leads, forall_mem_append.2 ⟨hx, h.quotes⟩⟩⟩

theorem closed_casted (hx : Code x) (length : Nat) : Closed (casted length x) := by
  have hwords {w : Text} (h : Code w) : Closed w := h.closed
  have hnumber : Closed (ofNat length) :=
    hwords fun c hc => isQuote_of_isBare (isBare_of_mem_ofNat c hc)
  exact ((((hwords (by decide)).append (hwords hx)).append (hwords (by decide))).append
    hnumber).append (hwords (by decide))

/-- The edit of an item depends on nothing but the item. -/
theorem exists_termEdit (p : Text) (columns : List ColumnRef) (length : Nat) :
    ∃ a x c : Text, ∃ new : Option Text, p = a ++ (x ++ c) ∧
      (∀ w, new = some w → Cast columns a x c ∧ w = casted length x) ∧
      ∀ front back : Text, termEdit? (front ++ p ++ back) columns length
        ⟨front.size, front.size + p.size⟩
          = new.map fun w => ⟨⟨front.size + a.size, front.size + a.size + x.size⟩, w⟩ := by
  obtain ⟨empty, hblank⟩ := exists_isEmpty_trimSpan p
  obtain ⟨a, x, c, rfl, ha, hc, hhead, hterm⟩ := exists_term p
  refine ⟨a, x, c, if empty then none else do
    let ref ← columnRef? x
    guard (refersTo columns ref.1 ref.2)
    return casted length x,
    rfl, ?_, fun front back => ?_⟩
  · intro w hw
    split at hw
    · cases hw
    · obtain ⟨⟨table, column⟩, href, hw⟩ := bind_eq_some_iff.1 hw
      obtain ⟨_, hguard, hw⟩ := bind_eq_some_iff.1 hw
      cases hw
      exact ⟨⟨ha, ⟨table, column, href, by simpa [guard] using hguard⟩, hc, hhead⟩, rfl⟩
  · have hslice :
        (front ++ (a ++ (x ++ c)) ++ back).slice ⟨front.size + a.size,
          front.size + a.size + x.size⟩ = x := by
      have h := slice_append (front ++ a) x (c ++ back) (m := front.size + a.size)
        (n := front.size + a.size + x.size) (by simp) (by simp)
      simpa using h
    rw [termEdit?, hblank]
    split
    · rfl
    · rw [cast?, hterm, hslice]
      cases columnRef? x with
      | none => rfl
      | some ref =>
        simp only [bind_eq_bind, bind_some]
        cases refersTo columns ref.1 ref.2 <;> rfl

/-- The same item of texts that are alike gets the same edit, or none. -/
theorem termEdit?_alongside (h : Alike t t') {s : Span} (hstart : Outside (mask t) s.start)
    (hstop : Outside (mask t) s.stop) (hle : s.start ≤ s.stop) (columns : List ColumnRef)
    (length : Nat) :
    Alongside (mask t) (termEdit? t columns length s).toList
      (termEdit? t' columns length s).toList := by
  have hp := h.slice hstart hstop
  have hstart' : Outside (mask t') s.start := h ▸ hstart
  have hstop' : Outside (mask t') s.stop := h ▸ hstop
  obtain ⟨front, p, back, rfl, hfront, hsize, hslice⟩ :=
    exists_three hstart.isBoundary hstop.isBoundary hle
  obtain ⟨front', p', back', rfl, hfront', hsize', hslice'⟩ :=
    exists_three hstart'.isBoundary hstop'.isBoundary hle
  rw [hslice, hslice'] at hp
  obtain ⟨start, stop⟩ := s
  obtain rfl : front.size = start := hfront
  obtain rfl : front.size + p.size = stop := hsize
  obtain ⟨a, x, c, new, hparts, hnew, hedit⟩ := exists_termEdit p columns length
  by_cases hquote : Code p
  · obtain rfl := hp.eq_of_no_quote hquote
    have hedit' := hedit front' back'
    rw [show front'.size = front.size from hfront'] at hedit'
    rw [hedit, hedit']
    cases new with
    | none => exact .nil
    | some w =>
      obtain ⟨hcast, rfl⟩ := hnew w rfl
      obtain ⟨hne, hx, -⟩ := hcast.no_quote
      have hclosed := closed_casted hx length
      subst hparts
      have hxc : x ++ (c ++ back) ≠ [] := by simp [hne]
      have hfree : Free (mask (front ++ (a ++ (x ++ c)) ++ back)) front.size := by
        refine hstart.free_of_lt ?_
        have hpos := size_pos hne
        simp only [size_append]
        omega
      have hfirst := (Free.inside front a (x ++ (c ++ back)) (by simpa using hfree)
        (forall_mem_append.1 hquote).1).2 hxc
      have hlast :=
        (Free.inside front (a ++ x) (c ++ back) (by simpa using hfree) fun y hy =>
          hquote y (by grind)).1
      have hflat : front ++ (a ++ (x ++ (c ++ back))) = front ++ (a ++ (x ++ c)) ++ back := by simp
      have hflat' : front ++ (a ++ x ++ (c ++ back)) = front ++ (a ++ (x ++ c)) ++ back := by simp
      rw [hflat] at hfirst
      rw [hflat', size_append, ← Nat.add_assoc] at hlast
      exact .cons hfirst hlast (.refl hclosed) .nil
  · -- a term with a quote is no column
    obtain ⟨a', x', c', new', hparts', hnew', hedit'⟩ := exists_termEdit p' columns length
    have hquote' : ¬ Code p' := fun hno =>
      hquote (Alike.eq_of_no_quote hp.symm hno ▸ hno)
    have hedit' := hedit' front' back'
    rw [show front'.size = front.size from hfront',
      show p'.size = p.size by rw [← size_mask, ← size_mask p, show mask p = mask p' from hp]]
      at hedit'
    rw [hedit, hedit']
    cases new with
    | some w => exact absurd (hparts ▸ (hnew w rfl).1.no_quote.2.2) hquote
    | none =>
      cases new' with
      | some w => exact absurd (hparts' ▸ (hnew' w rfl).1.no_quote.2.2) hquote'
      | none => exact .nil

/-- Terms are cast without a look at data. -/
theorem cast_alike (catalog : Catalog) (length : Nat) (h : Alike t t') :
    Alike ((cast catalog length t).getD t) ((cast catalog length t').getD t') := by
  rw [cast, cast, ← show mask t = mask t' from h]
  cases hlist : list? (mask t) with
  | none => exact h
  | some list =>
    obtain ⟨hstart, hstop, hle⟩ := outside_of_list? hlist
    have hparts : Nesting.splitTop (t.slice list) ',' = Nesting.splitTop (t'.slice list) ',' := by
      rw [Nesting.splitTop, Nesting.splitTop, show mask _ = mask _ from h.slice hstart hstop]
    refine h.applyAll ?_
    rw [filterMap_terms, filterMap_terms, ← hparts]
    refine .filterMap fun s hs => ?_
    obtain ⟨hs₁, hs₂, hs₃⟩ := outside_of_mem_splitTop (by decide) (by decide) hs
    exact termEdit?_alongside h (hstart.of_slice hstop hle hs₁) (hstart.of_slice hstop hle hs₂)
      (Nat.add_le_add_right hs₃ _) _ _

end Ordering

end Recast
