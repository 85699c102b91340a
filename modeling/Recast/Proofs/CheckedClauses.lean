import Recast.Proofs.CheckedPasses

/-!
# Clauses with checked cuts

The passes over whole clauses: LIMIT, ORDER BY, GROUP BY, patterns and comparisons. A name that is
read in the mask may be made of the letter that fills literals, so it is not enough that something
was read. What says that the text can be cut at its ends is what stands next to them.
-/

namespace Recast

open Keyword Literal Cursor List Text
open Option hiding guard

variable {t word : Text} {c d : Cursor} {list name s : Span} {isEqual : Bool}
  {l : Comparison.Clause} {names : List Text} {number : Option Span}

/-! ### Words and their ends -/

namespace Cursor

variable {c d : Cursor}

/-- A word whose first and last letters are not the filler's, in whatever case. -/
def Edged (word : Text) : Bool :=
  word.head?.any (foldChar · != foldChar filler) &&
    word.getLast?.any (foldChar · != foldChar filler)

/-- A word is read from edge to edge. -/
theorem edges_of_word? (h : c.word? word = some d) (hword : Edged word) : c.Edge ∧ d.Edge := by
  obtain ⟨w, hw, hfold⟩ := word?_reads h
  obtain ⟨hfirst, hend⟩ := Bool.and_eq_true_iff.1 hword
  have hletter {o o' : Option Char} (ho : o.map foldChar = o'.map foldChar)
      (hany : o'.any (foldChar · != foldChar filler)) : ∃ x, o = some x ∧ x ≠ filler := by
    obtain ⟨y, rfl, hy⟩ := (any_eq_true _ _).1 hany
    obtain ⟨x, rfl, hx⟩ := map_eq_some_iff.1 ho
    exact ⟨x, rfl, fun hfiller => by simp [← hx, hfiller] at hy⟩
  obtain ⟨x, hx, hxne⟩ := @hletter w.head? word.head? (by rw [← head?_map, hfold, head?_map]) hfirst
  obtain ⟨y, hy, hyne⟩ :=
    @hletter w.getLast? word.getLast? (by rw [← getLast?_map, hfold, getLast?_map]) hend
  refine ⟨.inr ?_, .inl ?_⟩
  · rw [hw.rest, head?_append, hx]
    simpa using hxne
  · rw [hw.last, hy]
    simpa using hyne

/-- Where no word goes on there is an edge. -/
theorem edge_of_atEdge (h : c.atEdge) : c.Edge := by
  refine Classical.byContradiction fun hno => ?_
  simp only [Edge, not_or, not_not] at hno
  have hfiller : isWordChar filler := by decide
  simp [atEdge, afterWord, beforeWord, hno.1, hno.2, hfiller] at h

theorem reads_skipCount (c : Cursor) (n : Nat) : ∃ w, Reads c w (c.skipCount n) := by
  induction n generalizing c with
  | zero => exact ⟨[], .refl c⟩
  | succ n ih =>
    rw [skipCount]
    split
    · exact ⟨[], .refl c⟩
    · next x t hrest =>
      obtain ⟨w, hw⟩ := ih ⟨c.offset + x.utf8Size, some x, t⟩
      have hx : Reads c [x] ⟨c.offset + x.utf8Size, some x, t⟩ :=
        ⟨by simp [hrest], by simp, by simp⟩
      exact ⟨_, hx.trans hw⟩

end Cursor

namespace Checked

/-- From a place outside literals to a phrase that is found behind it. -/
theorem part_to_findTop? {words : List Text} {n : Nat} (hn : Outside (mask t) n)
    (hwords : ∀ w ∈ words, Shows Char.toLower w) (h : findTop? (mask t) words n = some s) :
    Part t ⟨n, s.start⟩ :=
  part_of_outside hn (free_of_findTop? hwords h).1.outside (part_of_findTop? h).2.le

/-! ### Counting rows -/

namespace FoundRows

def unmark? (t : Text) : Search Text := do
  let masked := mask t
  let n ← find? masked FoundRows.marker 0
  let clause ← findTop? masked ["FROM"] n
  splice t ⟨n, clause.start⟩ "* "

def recount? (previous : Text) : Search Text := do
  let masked := mask previous
  let clause ← findTop? masked ["FROM"] 0
  let stops := FoundRows.endings.filterMap fun words =>
    (findTop? masked words clause.stop).map (·.start)
  let stop := stops.foldl min previous.size
  let body := trim (← slice previous ⟨clause.start, stop⟩)
  return "COUNT(1) as Computed " ++ trimEnd (dropEnd (· == ';') body)

def apply (previous : Option Text) (t : Text) : Check Text := do
  let t ← (unmark? t).getD t
  let counted : Search Text := do recount? (← previous)
  match ← counted.run with
  | some count => Edit.replaceAll t FoundRows.call count
  | none => return t

/-- From the mark to the FROM behind it. -/
theorem unmark?_finds (t : Text) : Finds (unmark? t) (Recast.FoundRows.unmark? t) := by
  refine .of_option fun n hn => .of_option fun clause hclause => ?_
  have hstart := (free_of_find? (by decide) hn).1
  exact finds_check ((part_to_findTop? hstart.outside (by decide) hclause).splice_eq _)

/-- From FROM to the first clause that ends what is counted. -/
theorem recount?_finds (previous : Text) :
    Finds (recount? previous) (Recast.FoundRows.recount? previous) := by
  refine .of_option fun clause hclause => ?_
  obtain ⟨hstart, hbehind⟩ := free_of_findTop? (by decide) hclause
  have hle : clause.start ≤ clause.stop := (part_of_findTop? hclause).1.le
  suffices hpart : Part previous ⟨clause.start, (FoundRows.endings.filterMap fun words =>
      (findTop? (mask previous) words clause.stop).map (·.start)).foldl min previous.size⟩ from
    .of_check hpart.slice_eq (finds_pure _)
  obtain ⟨hmem, -⟩ := Recast.FoundRows.foldl_min_eq_iff.1 (Eq.refl ((FoundRows.endings.filterMap
    fun words => (findTop? (mask previous) words clause.stop).map (·.start)).foldl min
      previous.size))
  rcases mem_cons.1 hmem with hend | hmem
  · rw [hend]
    have hsize := le_size_of_isBoundary hbehind.isBoundary
    exact part_of_outside hstart.outside (.inr (size_mask previous).symm) (Nat.le_trans hle hsize)
  · obtain ⟨words, hwords, hfound⟩ := mem_filterMap.1 hmem
    obtain ⟨s, hs, heq⟩ := map_eq_some_iff.1 hfound
    rw [← heq]
    have hshows : ∀ words ∈ FoundRows.endings, ∀ w ∈ words, Shows Char.toLower w := by decide
    exact part_of_outside hstart.outside (free_of_findTop? (hshows words hwords) hs).1.outside
      (Nat.le_trans hle (part_of_findTop? hs).2.le)

theorem apply_eq (previous : Option Text) (t : Text) :
    apply previous t = .ok (Recast.FoundRows.apply previous t) := by
  have hcounted : Finds (do recount? (← previous)) (previous.bind Recast.FoundRows.recount?) :=
    .of_option fun p _ => recount?_finds p
  unfold apply Recast.FoundRows.apply
  rw [(unmark?_finds t).getD_eq]
  dsimp only
  rw [hcounted.run_eq]
  cases previous.bind Recast.FoundRows.recount? with
  | none => rfl
  | some count => exact Edit.replaceAll_eq _ _ _

end FoundRows

/-! ### LIMIT -/

namespace Limit

def insertTop (t : Text) (kind : Kind) (verb top : Text) : Check Text :=
  let masked := mask t
  match find? masked verb 0 with
  | none => return t
  | some n => do
    let behind := n + verb.size
    let c := (← ofOffset masked behind).blanks
    if kind = .select ∧ isAt masked "DISTINCT" c.offset then insertAt t (c.offset + 8) top
    else insertAt t behind top

def limited? (d : Draft) : Search Draft := do
  let masked := mask d.text
  guard (d.kind == .select || d.kind == .delete || d.kind == .update)
  let clause ← ((Cursor.start masked).findAll Limit.clause?).head?
  guard (Nesting.depthAt masked clause.start == 0)
  let w ← clause.window?
  let stripped := trimEnd (← before d.text clause.start)
  if w.skip = 0 then
    let (verb, top) ← Limit.top? w.count d.kind
    return { d with text := ← insertTop stripped d.kind verb top }
  else
    guard (d.kind == .select)
    return { d with text := stripped, window := some w }

def apply (d : Draft) : Check Draft := (limited? d).getD d

/-- TOP is put behind the verb, or behind DISTINCT. -/
theorem insertTop_eq (t : Text) (kind : Kind) {verb : Text} (hverb : Shows Char.toLower verb)
    (top : Text) : insertTop t kind verb top = .ok (Recast.Limit.insertTop t kind verb top) := by
  rw [insertTop, Recast.Limit.insertTop]
  cases hn : find? (mask t) verb 0 with
  | none => rfl
  | some n =>
    have hbehind := (free_of_find? hverb hn).2
    dsimp only
    rw [ofOffset_eq hbehind.isBoundary_mask]
    refine ok_ite (fun hdistinct => ?_) fun _ => insertAt_eq hbehind.isBoundary top
    exact insertAt_eq (outside_of_isAt (by decide) hdistinct.2).isBoundary top

theorem apply_eq (d : Draft) : apply d = .ok (Recast.Limit.apply d) := by
  refine Finds.getD_eq (o := Recast.Limit.limited? d) ?_ d
  refine .of_guard fun _ => .of_option fun clause hclause => .of_guard fun _ =>
    .of_option fun w _ => ?_
  obtain ⟨c, e, hc, hread⟩ := at_of_mem_findAll (mem_of_mem_head? hclause)
  refine .of_check (before_eq (Recast.Limit.free_of_clause? hc hread).outside.isBoundary) ?_
  refine .ite (fun _ => .of_option ?_) fun _ => .of_guard fun _ => finds_pure _
  rintro ⟨verb, top⟩ htop
  exact .of_check (insertTop_eq _ _ (Recast.Limit.shows_of_top? htop).1 top) (finds_pure _)

end Limit

/-! ### ORDER BY -/

namespace Ordering

def list? (masked : Text) : Search Span := do
  let clause ← findLastTop? masked ["ORDER", "BY"]
  let stop := (trimEnd (dropEnd (· == ';') masked.trimEnd)).size
  guard (clause.stop < stop)
  trimSpan masked ⟨clause.stop, stop⟩

def termOf (t : Text) (s : Span) : Check Ordering.Term := do
  let text ← slice t s
  match Ordering.directions.find? (Ordering.endsIn text) with
  | some direction =>
    return ⟨← trimSpan t ⟨s.start, s.start + (text.size - (direction.size + 1))⟩, some direction⟩
  | none => return ⟨s, none⟩

def terms (t : Text) (list : Span) : Check (List Ordering.Term) := do
  ((← Nesting.itemsIn t list).filter fun s => !s.isEmpty).mapM (termOf t)

/-- The list of an ORDER BY ends with the text. -/
theorem list?_finds (m : Text) : Finds (list? m) (Recast.Ordering.list? m) := by
  refine .of_option fun clause hclause => .of_guard fun hlt =>
    finds_check (Part.trimSpan_eq ⟨?_, ?_, ?_⟩)
  · exact (part_of_mem_phrases (mem_of_getLast? hclause)).1.stop
  · obtain ⟨b, hm, -⟩ := Recast.Ordering.exists_strip m
    exact isBoundary_iff.2 ⟨_, b, hm, rfl⟩
  · exact Nat.le_of_lt hlt

/-- A term without its direction, which has one byte for each of its letters. -/
theorem part_of_endsIn {direction : Text} (h : Part t s)
    (hends : Recast.Ordering.endsIn (t.slice s) direction) :
    Part t ⟨s.start, s.start + ((t.slice s).size - (direction.size + 1))⟩ := by
  obtain ⟨front, core, back, rfl, hfront, -, hslice⟩ := exists_three h.start h.stop h.le
  rw [hslice] at hends ⊢
  obtain ⟨y, b, r, rfl, hb, hr⟩ := Recast.Ordering.exists_of_endsIn hends
  have hsize : size r = direction.size := by rw [← size_lower r, hr, size_lower]
  have hrest : size (y ++ b :: r) - (direction.size + 1) = size y := by
    rw [size_append, size_cons, Recast.Ordering.utf8Size_of_isAsciiBlank hb]
    omega
  refine ⟨h.start, isBoundary_iff.2 ⟨front ++ y, b :: r ++ back, by simp, ?_⟩, Nat.le_add_right _ _⟩
  rw [hrest, size_append, hfront]

/-- A term is a part, and so is its expression. -/
theorem termOf_eq (h : Part t s) :
    termOf t s = .ok (Recast.Ordering.termOf t s) ∧ Part t (Recast.Ordering.termOf t s).expr := by
  rw [termOf, h.slice_eq, ok_bind, Recast.Ordering.termOf]
  cases hends : Ordering.directions.find? (Ordering.endsIn (t.slice s)) with
  | none => exact ⟨rfl, h⟩
  | some direction =>
    have hpart := part_of_endsIn h (find?_some hends)
    dsimp only
    rw [hpart.trimSpan_eq]
    exact ⟨rfl, hpart.trimSpan⟩

/-- The list of terms is cut up without a breach. -/
theorem terms_eq (h : Part t list) :
    terms t list = .ok (Recast.Ordering.terms t list) ∧
      ∀ term ∈ Recast.Ordering.terms t list, Part t term.expr := by
  have hitem {s : Span} (hs : s ∈ (Recast.Nesting.itemsIn t list ',').filter fun s => !s.isEmpty) :
      Part t s :=
    h.of_mem_itemsIn (mem_filter.1 hs).1
  constructor
  · rw [terms, Nesting.itemsIn_eq h]
    exact mapM_eq fun s hs => (termOf_eq (hitem hs)).1
  · intro term hterm
    obtain ⟨s, hs, rfl⟩ := mem_map.1 hterm
    exact (termOf_eq (hitem hs)).2

theorem part_of_list? (h : Recast.Ordering.list? (mask t) = some list) : Part t list := by
  obtain ⟨hstart, hstop, hle⟩ := Recast.Ordering.outside_of_list? h
  exact part_of_outside hstart hstop hle

def isAliased (t : Text) (aliases : List Text) (term : Ordering.Term) : Check Bool := do
  let expr := unquote (← slice t term.expr)
  return aliases.any fun a => same a.unquote expr

def distinct? (t : Text) : Search Text := do
  let masked := mask t
  let _ ← findTop? masked ["DISTINCT"] 0
  let list ← list? masked
  let aliases ← Alias.all t
  guard (!aliases.isEmpty)
  let terms ← terms t list
  let aliased ← (terms.mapM (isAliased t aliases) : Check (List Bool))
  guard (!aliased.all id)
  let direction := match terms.getLast?.bind (·.direction) with
    | some direction => ' ' :: direction
    | none => []
  splice t list (join ", " aliases ++ direction)

/-- The list of terms makes room for the aliases. -/
theorem distinct?_finds (t : Text) : Finds (distinct? t) (Recast.Ordering.distinct? t) := by
  refine .of_option fun _ _ => (list?_finds (mask t)).bind fun list hlist => ?_
  have hpart := part_of_list? hlist
  obtain ⟨hterms, hexpr⟩ := terms_eq hpart
  refine .of_check (Alias.all_eq t) (.of_guard fun _ => .of_check hterms ?_)
  have haliased : (Recast.Ordering.terms t list).mapM (isAliased t (Recast.Alias.all t))
      = .ok ((Recast.Ordering.terms t list).map
        (Recast.Ordering.isAliased t (Recast.Alias.all t))) := by
    refine mapM_eq fun term hterm => ?_
    rw [isAliased, (hexpr term hterm).slice_eq]
    rfl
  refine .of_check haliased ?_
  rw [List.all_map]
  exact .of_guard fun _ => finds_check (hpart.splice_eq _)

def cast? (t : Text) (columns : List ColumnRef) (length : Nat) (term : Ordering.Term) :
    Search Edit := do
  let expr ← slice t term.expr
  let (table, column) ← Ordering.columnRef? expr
  guard (Ordering.refersTo columns table column)
  return ⟨term.expr, "cast(" ++ expr ++ " as varchar(" ++ ofNat length ++ "))"⟩

def cast (catalog : Catalog) (length : Nat) (t : Text) : Search Text := do
  let list ← list? (mask t)
  let columns := catalog.ofClass .text
  let edits ← gather (← terms t list) (cast? t columns length)
  Edit.applyAll t edits

/-- Casts are put around the expressions of terms. -/
theorem cast_finds (catalog : Catalog) (length : Nat) (t : Text) :
    Finds (cast catalog length t) (Recast.Ordering.cast catalog length t) := by
  refine (list?_finds (mask t)).bind fun list hlist => ?_
  obtain ⟨hterms, hexpr⟩ := terms_eq (part_of_list? hlist)
  refine .of_check hterms
    (.of_check (gather_eq fun term hterm => ?_) (finds_check (Edit.applyAll_eq t _)))
  exact .of_check (hexpr term hterm).slice_eq
    (.of_option fun _ _ => .of_guard fun _ => finds_pure _)

end Ordering

/-! ### Patterns -/

namespace Wildcard

def isPattern (masked : Text) (offset : Nat) : Check Bool := do
  let lead := (← before masked offset).trimEnd
  return 4 ≤ lead.size && isAt lead "LIKE" (lead.size - 4)

def apply (t : Text) : Check Text := do
  let masked := mask t
  let patterns ← (Recast.Literal.spans t).filterM fun s => isPattern masked s.start
  let edits ← patterns.mapM fun s => do return (⟨s, Wildcard.bracket (← slice t s)⟩ : Edit)
  Edit.applyAll t edits

theorem apply_eq (t : Text) : apply t = .ok (Recast.Wildcard.apply t) := by
  have hpatterns : (spans t).filterM (fun s => isPattern (mask t) s.start)
      = .ok ((spans t).filter fun s => Recast.Wildcard.isPattern (mask t) s.start) := by
    refine filterM_eq fun s hs => ?_
    rw [isPattern, before_eq (part_of_mem_spans hs).mask.start]
    rfl
  unfold apply
  dsimp only
  rw [hpatterns, ok_bind, mapM_eq (g := fun s => ⟨s, Wildcard.bracket (t.slice s)⟩)]
  · exact Edit.applyAll_eq t _
  · intro s hs
    rw [(part_of_mem_spans (mem_filter.1 hs).1).slice_eq]
    rfl

end Wildcard

/-! ### GROUP BY -/

namespace Grouping

/-- What follows a clause starts and ends where the text can be cut. -/
theorem edges_of_follower? (h : Recast.Grouping.follower? c = some d) :
    c.Edge ∧ d.Edge ∧ ∃ w, Reads c w d := by
  rw [Recast.Grouping.follower?] at h
  split at h
  · next e he =>
    cases h
    obtain ⟨f, hf, _, -, he⟩ := of_bind₂ he
    cases he
    obtain ⟨word, hword, hread⟩ := exists_of_findSome?_eq_some hf
    have hedged : ∀ w ∈ ["ORDER".toList, "LIMIT".toList], Edged w := by decide
    obtain ⟨hc, hd⟩ := edges_of_word? hread (hedged word hword)
    obtain ⟨w, hw, -⟩ := word?_reads hread
    exact ⟨hc, hd, w, hw⟩
  · split at h
    · next e he =>
      cases h
      obtain ⟨hc, hd⟩ := edge_of_sign? (by decide) he
      exact ⟨hc, hd, _, sign?_reads he⟩
    · split at h
      · next hend =>
        cases h
        have hedge : c.Edge := .inr (by rw [isEmpty_iff.1 hend]; simp)
        exact ⟨hedge, hedge, [], .refl c⟩
      · cases h

theorem reads_of_wordBack? {e : Cursor} (h : Recast.Grouping.wordBack? c d = some e) :
    ∃ w, Reads c w e := by
  rw [Recast.Grouping.wordBack?] at h
  dsimp only at h
  split at h
  · split at h
    · cases h
      exact reads_skipCount c _
    · cases h
  · cases h

/-- The spans of a clause are parts of the text. -/
structure Parted (t : Text) (l : Grouping.KeyClause) : Prop where
  span : Part t l.span
  table : Part t l.table
  column : Part t l.column
  follower : Part t l.follower

/-- A GROUP BY of one column, with the table in front of it and what follows. -/
theorem parted_of_keyClause? (hc : At (mask t) c) {l : Grouping.KeyClause}
    (h : Recast.Grouping.keyClause? c = some (l, d)) : Parted t l := by
  obtain ⟨_, -, d₁, h₁, d₂, h₂, d₃, h₃, h⟩ := of_bind₄ h
  obtain ⟨d₄, h₄, e, he, f, hf, g, hg, h⟩ := of_bind₄ h
  obtain ⟨w₁, r₁, -⟩ := word?_reads h₁
  obtain ⟨w₂, r₂, -⟩ := some?_reads h₂
  obtain ⟨w₃, r₃, -⟩ := word?_reads h₃
  obtain ⟨w₄, r₄, -⟩ := some?_reads h₄
  obtain ⟨table, htable, -⟩ := some?_reads he
  obtain ⟨column, hcolumn, -⟩ := some?_reads hg
  have hlead := ((r₁.trans r₂).trans r₃).trans r₄
  have hd₄ := hc.reads hlead
  have hfront := (hlead.trans htable).trans (sign?_reads hf)
  have hf' := hc.reads hfront
  have hstart : c.Edge := (edges_of_word? h₁ (by decide)).1
  have hdot : f.Edge := (edge_of_sign? (by decide) hf).2
  obtain ⟨⟨stop, start, _⟩, hfound, h⟩ := bind_eq_some_iff.1 h
  cases h
  -- behind the column, or in front of the word at its end
  obtain ⟨hstop, ⟨u, hu⟩, ⟨v, hv⟩, hend⟩ :
      stop.Edge ∧ (∃ u, Reads f u stop) ∧ (∃ v, Reads stop v start) ∧
      Recast.Grouping.follower? start = some d := by
    have hfound : Option.orElse _ (fun _ => _) = some (stop, start, d) := hfound
    rw [orElse_eq_or, or_eq_some_iff] at hfound
    rcases hfound with hfound | ⟨-, hfound⟩
    · obtain ⟨k, hk, hfound⟩ := bind_eq_some_iff.1 hfound
      cases hfound
      obtain ⟨v, hv, -⟩ := skipWhile_reads g isBlank
      exact ⟨edge_of_some? hg, ⟨_, hcolumn⟩, ⟨v, hv⟩, hk⟩
    · obtain ⟨k, hk, m, hm, hfound⟩ := of_bind₂ hfound
      cases hfound
      exact ⟨(edges_of_follower? hm).1, reads_of_wordBack? hk, ⟨[], .refl _⟩, hm⟩
  obtain ⟨hstart', hend', w, hw⟩ := edges_of_follower? hend
  exact {
    span := part_of_edges hc hstart ((hfront.trans hu).trans (hv.trans hw)) hend'
    table := part_of_edges hd₄ (edge_of_some? h₄) htable (edge_of_some? he)
    column := part_of_edges hf' hdot hu hstop
    follower := part_of_edges (hf'.reads (hu.trans hv)) hstart' hw hend' }

def dropKey? (catalog : Catalog) (t : Text) : Search Text := do
  let masked := mask t
  let clause ← ((Cursor.start masked).findAll Grouping.keyClause?).head?
  guard (Nesting.depthAt masked clause.span.start == 0)
  let tableName ← slice t clause.table
  let column ← slice t clause.column
  let table ← catalog.table? tableName
  let isPrimary := match table.primaryKey with
    | [key] => same key column
    | _ => false
  guard (isPrimary || (catalog.identity? tableName).any fun i => i.same column)
  let follower ← slice t clause.follower
  return trimEnd (← splice t clause.span follower)

/-- The clause is taken out, and what follows it stays. -/
theorem dropKey?_finds (catalog : Catalog) (t : Text) :
    Finds (dropKey? catalog t) (Recast.Grouping.dropKey? catalog t) := by
  refine .of_option fun clause hclause => .of_guard fun _ => ?_
  obtain ⟨c, d, hc, h⟩ := at_of_mem_findAll (mem_of_mem_head? hclause)
  have hparts := parted_of_keyClause? hc h
  refine .of_check hparts.table.slice_eq
    (.of_check hparts.column.slice_eq (.of_option fun table _ => ?_))
  refine .of_guard fun _ => .of_check hparts.follower.slice_eq ?_
  exact .of_check (hparts.span.splice_eq _) (finds_pure _)

/-- The last word of a text, and the blanks before it. -/
theorem splitLast?_eq_some {lead : Text} (h : Recast.Grouping.splitLast? t = some (lead, word)) :
    ∃ gap : Text, t = lead ++ (gap ++ word) ∧ gap ≠ [] ∧ ∀ c ∈ gap, isBlank c := by
  have hword : t.reverse = t.reverse.takeWhile (!isBlank ·) ++ t.reverse.dropWhile (!isBlank ·) :=
    takeWhile_append_dropWhile.symm
  obtain ⟨-, -, -, hblank⟩ := exists_dropWhile (!isBlank ·) t.reverse
  rw [Recast.Grouping.splitLast?] at h
  generalize t.reverse.takeWhile (!isBlank ·) = w at h hword
  generalize t.reverse.dropWhile (!isBlank ·) = r at hword hblank
  have ht : t = r.reverse ++ w.reverse := by rw [← reverse_append, ← hword, reverse_reverse]
  have hlead : t.take (t.length - w.reverse.length) = r.reverse := by
    rw [ht, length_append, Nat.add_sub_cancel, take_left]
  rw [hlead] at h
  split at h
  · cases h
  · next hne =>
    cases h
    obtain ⟨gap, hgap, hall, hlast⟩ := exists_dropEnd isBlank r.reverse
    refine ⟨gap, ?_, ?_, hall⟩
    · rw [← append_assoc, trimEnd, ← hgap, ← ht]
    · -- otherwise nothing is trimmed, and the front would end in a letter
      rintro rfl
      rw [append_nil] at hgap
      obtain ⟨x, hx⟩ : ∃ x, r.head? = some x := by
        cases r with
        | nil => simp at hne
        | cons x r => exact ⟨x, rfl⟩
      have hletter := hlast x (by rw [← hgap, getLast?_reverse, hx])
      simpa [hletter] using hblank x hx

/-- An expression and its alias are cut at the blanks around AS. -/
theorem part_of_aliased? (hs : Part t s) {expr : Span}
    (h : Recast.Grouping.aliased? ((mask t).slice s) = some (expr, name)) :
    Part t (expr.shift s.start) ∧ Part t (name.shift s.start) := by
  obtain ⟨⟨lead, last⟩, hlast, h⟩ := bind_eq_some_iff.1 h
  obtain ⟨⟨front, word⟩, hword, h⟩ := bind_eq_some_iff.1 h
  obtain ⟨_, -, c, -, _, -, h⟩ := of_bind₃ h
  obtain ⟨gap, hcut, hne, hall⟩ := splitLast?_eq_some hlast
  obtain ⟨gap', hcut', hne', hall'⟩ := splitLast?_eq_some hword
  obtain ⟨a, m, b, hm, ha, hstop, hslice⟩ := exists_three hs.mask.start hs.mask.stop hs.mask.le
  rw [hslice] at h hcut
  cases h
  have hsize : m.size = lead.size + (gap.size + last.size) := by rw [hcut, size_append, size_append]
  have hblank {x : Char} (hx : isBlank x) : x ≠ filler := by
    rintro rfl
    cases hx
  have hexpr : t.isBoundary (size (a ++ front)) := by
    refine isBoundary_of_edge (b := gap' ++ (word ++ (gap ++ last) ++ b))
      (by rw [hm, hcut, hcut']; simp) (.inr ?_)
    obtain ⟨x, gap', rfl⟩ := exists_cons_of_ne_nil hne'
    simpa using hblank (hall' x mem_cons_self)
  have hname : t.isBoundary (size (a ++ lead ++ gap)) := by
    refine isBoundary_of_edge (b := last ++ b) (by rw [hm, hcut]; simp) (.inl ?_)
    obtain ⟨gap, x, rfl⟩ := (eq_nil_or_concat' gap).resolve_left hne
    simpa using hblank (hall x (by simp))
  rw [size_append, ha, Nat.add_comm] at hexpr
  rw [size_append, size_append, ha,
    show s.start + lead.size + gap.size = m.size - last.size + s.start by omega] at hname
  refine ⟨⟨?_, hexpr, ?_⟩, hname, ?_, ?_⟩
  · rw [Span.shift, Nat.zero_add]
    exact hs.start
  · simp only [Span.shift]
    omega
  · show t.isBoundary (m.size + s.start)
    rw [Nat.add_comm, ← ha, hstop]
    exact hs.stop
  · simp only [Span.shift]
    omega

def items (t : Text) (list : Span) : Check (List Span) := do
  return (← Nesting.itemsIn t list).filter fun s => !s.isEmpty

theorem items_eq (h : Part t list) :
    items t list = .ok (Recast.Grouping.items t list) ∧
      ∀ s ∈ Recast.Grouping.items t list, Part t s := by
  constructor
  · rw [items, Nesting.itemsIn_eq h]
    rfl
  · exact fun s hs => h.of_mem_itemsIn (mem_filter.1 hs).1

def aliases (t masked : Text) (list : Span) : Check (List (Text × Text)) := do
  gather (← items t list) fun s => do
    let item ← slice masked s
    let (expr, name) ← Grouping.aliased? item
    return (Grouping.key (← slice t (expr.shift s.start)), unquote (← slice t (name.shift s.start)))

/-- The aliases of a list of columns are cut out. -/
theorem aliases_eq (h : Part t list) :
    aliases t (mask t) list = .ok (Recast.Grouping.aliases t (mask t) list) := by
  obtain ⟨hitems, hpart⟩ := items_eq h
  rw [aliases, hitems]
  refine gather_eq fun s hs => .of_check (hpart s hs).mask.slice_eq (.of_option ?_)
  rintro ⟨expr, name⟩ hfound
  obtain ⟨hexpr, hname⟩ := part_of_aliased? (hpart s hs) hfound
  exact .of_check hexpr.slice_eq (.of_check hname.slice_eq (finds_pure _))

def takes (grouped expr : Text) : Check Bool :=
  match grouped.find? (· == '(') with
  | some n => do return (find? (← after grouped n) expr.unquote 0).isSome
  | none => return false

theorem takes_eq (grouped expr : Text) :
    takes grouped expr = .ok (Recast.Grouping.takes grouped expr) := by
  rw [takes, Recast.Grouping.takes]
  cases hn : grouped.find? (· == '(') with
  | none => rfl
  | some n =>
    obtain ⟨a, c, b, rfl, -, -, rfl⟩ := findFrom?_eq_some.1 hn
    dsimp only
    rw [Nat.zero_add, after_eq (isBoundary_append a _)]
    rfl

def replacement? (aliases : List (Text × Text)) (grouped : List Text) (term : Text) :
    Search (Option Text) := do
  let (expr, direction) := Grouping.splitTerm term
  if grouped.any (fun g => Grouping.key g == Grouping.key expr) ||
    aliases.any (fun a => a.2.same expr) then
    return none
  let taken ← (grouped.filterM (takes · expr) : Check (List Text))
  let names ← (taken.mapM fun g => do
    let (_, name) ← aliases.find? fun a => a.1 == Grouping.key g
    return match direction with
      | some direction => name ++ ' ' :: direction
      | none => name : Option (List Text))
  return if names.isEmpty then none else some (join ", " names)

theorem replacement?_finds (aliases : List (Text × Text)) (grouped : List Text) (term : Text) :
    Finds (replacement? aliases grouped term)
      (Recast.Grouping.replacement? aliases grouped term) := by
  refine .ite (fun _ => finds_pure _) fun _ => ?_
  refine .of_check (filterM_eq fun g _ => takes_eq g _) ?_
  exact .of_option fun names _ => finds_pure _

def orderByAliases? (t : Text) : Search Text := do
  let masked := mask t
  let select ← findTop? masked ["SELECT"] 0
  let source ← findTop? masked ["FROM"] select.stop
  let group ← findTop? masked ["GROUP", "BY"] source.stop
  let order ← findTop? masked ["ORDER", "BY"] group.stop
  let groupStop := match findTop? masked ["HAVING"] group.stop with
    | some s => min s.start order.start
    | none => order.start
  let orderStop := match findTop? masked ["LIMIT"] order.stop with
    | some s => s.start
    | none => t.size
  let aliases ← aliases t masked ⟨select.stop, source.start⟩
  let keys ← items t ⟨group.stop, groupStop⟩
  let grouped ← (keys.mapM (slice t) : Check (List Text))
  guard (!grouped.isEmpty && !aliases.isEmpty)
  let terms ← items t ⟨order.stop, orderStop⟩
  let edits ← terms.mapM fun s => do
    let new ← replacement? aliases grouped (← slice t s)
    return new.map fun n => (⟨s, n⟩ : Edit)
  Edit.applyAll t (edits.filterMap id)

/-- Each list lies between two clauses that are found one behind another. -/
theorem orderByAliases?_finds (t : Text) :
    Finds (orderByAliases? t) (Recast.Grouping.orderByAliases? t) := by
  refine .of_option fun select hselect => .of_option fun source hsource =>
    .of_option fun group hgroup => .of_option fun order horder => ?_
  have hselect' := (free_of_findTop? (by decide) hselect).2
  have hgroup' := (free_of_findTop? (by decide) hgroup).2
  have hbehind := (free_of_findTop? (by decide) horder).2
  have hlist := part_to_findTop? hselect' (by decide) hsource
  have hkeys : Part t ⟨group.stop, match findTop? (mask t) ["HAVING"] group.stop with
      | some s => min s.start order.start
      | none => order.start⟩ := by
    have horder' := part_to_findTop? hgroup' (by decide) horder
    cases hhaving : findTop? (mask t) ["HAVING"] group.stop with
    | none => exact horder'
    | some s =>
      have hs := part_to_findTop? hgroup' (by decide) hhaving
      show Part t ⟨group.stop, min s.start order.start⟩
      rcases min_choice s.start order.start with h | h <;> rwa [h]
  have hterms : Part t ⟨order.stop, match findTop? (mask t) ["LIMIT"] order.stop with
      | some s => s.start
      | none => t.size⟩ := by
    cases hlimit : findTop? (mask t) ["LIMIT"] order.stop with
    | none =>
      exact part_of_outside hbehind (.inr (size_mask t).symm)
        (le_size_of_isBoundary hbehind.isBoundary)
    | some s => exact part_to_findTop? hbehind (by decide) hlimit
  refine .of_check (aliases_eq hlist) (.of_check (items_eq hkeys).1 ?_)
  refine .of_check (mapM_eq fun s hs => ((items_eq hkeys).2 s hs).slice_eq) (.of_guard fun _ => ?_)
  refine .of_check (items_eq hterms).1 (Finds.bind (.mapM fun s hs => ?_) fun edits _ => ?_)
  · refine .of_check ((items_eq hterms).2 s hs).slice_eq ?_
    exact (replacement?_finds _ _ _).bind fun new _ => finds_pure _
  · exact finds_check (Edit.applyAll_eq t _)

def apply (catalog : Catalog) (t : Text) : Check Text := do
  let t ← (dropKey? catalog t).getD t
  (orderByAliases? t).getD t

theorem apply_eq (catalog : Catalog) (t : Text) :
    apply catalog t = .ok (Recast.Grouping.apply catalog t) := by
  rw [apply, (dropKey?_finds catalog t).getD_eq]
  exact (orderByAliases?_finds _).getD_eq _

end Grouping

/-! ### Comparisons -/

namespace Comparison

/-- What holds of each span that is cut out for a comparison. -/
structure Each (P : Span → Prop) (l : Comparison.Clause) : Prop where
  column : P l.column
  table : ∀ s, l.table = some s → P s
  name : P l.name
  number : ∀ s, l.number = some s → P s

/-- A number ends at an edge. -/
theorem edge_of_number? (h : Recast.Comparison.number? c = some d) : d.Edge ∧ ∃ w, Reads c w d := by
  obtain ⟨w, hw, -⟩ :=
    Recast.Comparison.number?_through (P := fun _ => True) trivial trivial (fun _ _ => trivial) h
  refine ⟨?_, w, hw⟩
  obtain ⟨e, he, h⟩ := bind_eq_some_iff.1 h
  dsimp only at h
  split at h
  · next f hf =>
    cases h
    obtain ⟨g, -, k, hk, _, -, hf⟩ := of_bind₃ hf
    cases hf
    exact edge_of_some? hk
  · split at h
    · cases h
    · cases h
      exact edge_of_some? he

/-- Behind a column stand an operator and a number, which is a part. -/
theorem part_of_tail? (hc : At (mask t) c)
    (h : Recast.Comparison.tail? c = some (isEqual, number, d)) :
    c.Edge ∧ ∀ s, number = some s → Part t s := by
  obtain ⟨_, hguard, h⟩ := bind_eq_some_iff.1 h
  have hedge : c.atEdge := by simpa [guard] using hguard
  refine ⟨edge_of_atEdge hedge, ?_⟩
  obtain ⟨⟨isEqual', e⟩, he, h⟩ := bind_eq_some_iff.1 h
  obtain ⟨word, hmem, hword⟩ := Recast.Comparison.operator?_word he
  have hedged : ∀ w ∈ Recast.Comparison.operators, Edged w := by decide
  have hblanks : At (mask t) e.blanks := ((hc.skipWhile _).word? hword).skipWhile _
  dsimp only at h
  split at h
  · next f hf =>
    cases h
    rintro s ⟨⟩
    obtain ⟨hend, w, hw⟩ := edge_of_number? hf
    exact part_of_edges hblanks ((edges_of_word? hword (hedged word hmem)).2.skipWhile _) hw hend
  · cases h
    exact fun s hs => by cases hs

/-- A comparison is read between edges, with or without a table in front of the column. -/
theorem parts_of_clause? (hc : At (mask t) c)
    (h : Recast.Comparison.clause? names c = some (l, d)) : Each (Part t) l := by
  obtain ⟨e, k, hp⟩ := Recast.Comparison.exists_parsed h
  obtain ⟨word, -, hk⟩ := hp.word
  obtain ⟨w, hw, -⟩ := word?_reads hk
  have hedge := edge_of_atEdge hp.edge
  obtain ⟨⟨a, ha⟩, hstart, htable⟩ :
      (∃ a, Reads c a e) ∧ e.Edge ∧ ∀ s, l.table = some s → Part t s := by
    rcases hp.table with ⟨htable, rfl⟩ | ⟨f, htable, hf, he⟩
    · exact ⟨⟨[], .refl e⟩, hedge, by simp [htable]⟩
    · obtain ⟨u, hu, -⟩ := some?_reads hf
      refine ⟨⟨_, hu.trans (sign?_reads he)⟩, (edge_of_sign? (by decide) he).2, ?_⟩
      rintro s hs
      cases htable.symm.trans hs
      exact part_of_edges hc hedge hu (edge_of_some? hf)
  obtain ⟨hend, hnumber⟩ := part_of_tail? ((hc.reads ha).reads hw) hp.tail
  refine ⟨?_, htable, ?_, hnumber⟩
  · rw [hp.column]
    exact part_of_edges hc hedge (ha.trans hw) hend
  · rw [hp.name]
    exact part_of_edges (hc.reads ha) hstart hw hend

def refers (t : Text) (columns : List ColumnRef) (region : Nat) (c : Comparison.Clause) :
    Check Bool :=
  match c.table with
  | some table => do
    return Ordering.refersTo columns (some (← slice t (table.shift region)))
      (← slice t (c.name.shift region))
  | none => return true

def right (t : Text) (region : Nat) (c : Comparison.Clause) : Check Text :=
  match c.number with
  | some n => do return ("cast(" : Text) ++ (← slice t (n.shift region)) ++ " as varchar(max))"
  | none => return []

def edit? (t : Text) (columns : List ColumnRef) (region : Nat) (c : Comparison.Clause) :
    Search Edit := do
  guard (← refers t columns region c)
  let right ← right t region c
  let column ← slice t (c.column.shift region)
  return ⟨c.span.shift region, column ++ (if c.isEqual then " LIKE " else " NOT LIKE ") ++ right⟩

def byLike? (catalog : Catalog) (kind : Kind) (t : Text) : Search Text := do
  let masked := mask t
  let region ← Comparison.region? kind masked
  let columns := catalog.ofClass .text
  let found :=
    (Cursor.start (← after masked region)).findAll (Comparison.clause? (Comparison.namesOf columns))
  let edits ← gather found (edit? t columns region)
  Edit.applyAll t edits

/-- The parts of a comparison are cut out behind the place where the search began. -/
theorem edit?_finds {region : Nat} (columns : List ColumnRef)
    (h : Each (fun s => Part t (s.shift region)) l) :
    Finds (edit? t columns region l) (Recast.Comparison.edit? t columns region l) := by
  have hrefers : refers t columns region l = .ok (l.table.all fun table =>
      Recast.Ordering.refersTo columns (some (t.slice (table.shift region)))
        (t.slice (l.name.shift region))) := by
    rw [refers]
    cases htable : l.table with
    | none => rfl
    | some table =>
      dsimp only
      rw [(h.table table htable).slice_eq, h.name.slice_eq]
      rfl
  refine .of_check hrefers (.of_guard fun _ => ?_)
  rw [right]
  cases hnumber : l.number with
  | none => exact .of_check rfl (.of_check h.column.slice_eq (finds_pure _))
  | some n =>
    dsimp only
    rw [(h.number n hnumber).slice_eq]
    exact .of_check rfl (.of_check h.column.slice_eq (finds_pure _))

/-- Comparisons are searched for behind a place outside literals. -/
theorem byLike?_finds (catalog : Catalog) (kind : Kind) (t : Text) :
    Finds (byLike? catalog kind t) (Recast.Comparison.byLike? catalog kind t) := by
  refine .of_option fun region hregion => ?_
  have hplace := Recast.Comparison.outside_of_region? hregion
  refine .of_check (after_eq hplace.isBoundary_mask) ?_
  refine .of_check (gather_eq fun l hl => edit?_finds _ ?_) (finds_check (Edit.applyAll_eq t _))
  rw [← hplace.mask_after] at hl
  obtain ⟨c, d, hc, h⟩ := at_of_mem_findAll hl
  have hparts := parts_of_clause? hc h
  have hshift {s : Span} (hs : Part (t.after region) s) := part_of_after hplace.isBoundary hs
  exact ⟨hshift hparts.column, fun s hs => hshift (hparts.table s hs), hshift hparts.name,
    fun s hs => hshift (hparts.number s hs)⟩

end Comparison

end Checked

end Recast
