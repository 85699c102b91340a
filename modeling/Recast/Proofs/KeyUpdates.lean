import Recast.Proofs.Calls
import Recast.Proofs.Printing

/-!
# The updates for duplicate keys

What ON DUPLICATE KEY UPDATE asks for, said without the search that looks for it. A `Reference` is
`VALUES(name)` in the code of an expression, and `Resolves` puts the value of a row for every
reference. The pass either takes the clause off and adds one update for each row (`Taken`), or it
leaves the draft as it is, for one of the reasons that `GivesUp` lists.
-/

namespace Recast

open Literal Cursor Keyword List Text
open Option hiding guard

variable {a b front item name old r rest t : Text} {c d : Cursor} {s : Span × Span}

/-! ### Trying every element of a list -/

theorem forall₂_of_mapM {f : α → Option β} {l : List α} {l' : List β} (h : l.mapM f = some l') :
    List.Forall₂ (fun a b => f a = some b) l l' := by
  induction l generalizing l' with
  | nil =>
    cases h
    exact .nil
  | cons x l ih =>
    rw [mapM_cons] at h
    obtain ⟨y, hy, ys, hys, h⟩ := of_bind₂ h
    cases h
    exact .cons hy (ih hys)

theorem exists_of_mapM_eq_none {f : α → Option β} {l : List α} (h : l.mapM f = none) :
    ∃ a ∈ l, f a = none := by
  induction l with
  | nil => cases h
  | cons x l ih =>
    cases hx : f x with
    | none => exact ⟨x, mem_cons_self, hx⟩
    | some y =>
      rw [mapM_cons, hx] at h
      cases hl : l.mapM f with
      | none =>
        obtain ⟨a, ha, hnone⟩ := ih hl
        exact ⟨a, mem_cons_of_mem x ha, hnone⟩
      | some ys =>
        simp [hl] at h

namespace DuplicateKey

/-! ### References -/

/-- In the code behind `front` the reference `old` names a column. -/
structure Reference (front old name : Text) : Prop where
  closed : Closed front
  edge : front.getLast?.any isWordChar = false
  written : ∃ h g x g', old = h ++ (g ++ (x ++ (g' ++ [')']))) ∧ Functions.IsOpening "VALUES" h ∧
    (∀ c ∈ g, isBlank c = true) ∧ (∀ c ∈ g', isBlank c = true) ∧ x ≠ [] ∧
    (∀ c ∈ x, isBracketedName c = true) ∧ name = unquote x

/-- The value of a row for the column of a name. -/
def valueOf? (columns values : List Text) (name : Text) : Option Text := do
  values[← columns.findIdx? fun c => c.same name]?

/-- Behind `front`, the text has the value of its column in place of each reference, and nothing
else is changed. -/
inductive Resolves (columns values : List Text) : Text → Text → Text → Prop
  | nil (front : Text) : Resolves columns values front [] []
  | keep {front rest r : Text} {c : Char} :
      (∀ old b name, c :: rest = old ++ b → ¬ Reference front old name) →
    Resolves columns values (front ++ [c]) rest r →
    Resolves columns values front (c :: rest) (c :: r)
  | put {front old rest r name v : Text} :
      Reference front old name → valueOf? columns values name = some v →
    Resolves columns values (front ++ old) rest r →
    Resolves columns values front (old ++ rest) (v ++ r)

theorem callable_values : Callable foldChar "VALUES" := ⟨by decide, by decide, by decide⟩

theorem isQuote_of_isBracketedName {c : Char} (h : isBracketedName c) : isQuote c = false :=
  isQuote_of_class h (by decide) (by decide)

theorem isBlank_of_head? {x : Text} (hne : x ≠ []) (hx : ∀ c ∈ x, isBracketedName c) (r : Text) :
    ∀ c, (x ++ r).head? = some c → isBlank c = false := by
  obtain ⟨y, x, rfl⟩ := exists_cons_of_ne_nil hne
  rintro c ⟨⟩
  exact isBlank_of_class (hx y mem_cons_self) (by decide)

theorem isBracketedName_of_head? {g : Text} (hg : ∀ c ∈ g, isBlank c) (r : Text) :
    ∀ c, (g ++ ')' :: r).head? = some c → isBracketedName c = false := by
  cases g with
  | nil =>
    rintro c ⟨⟩
    decide
  | cons y g =>
    rintro c ⟨⟩
    exact of_isBlank (P := fun c => isBracketedName c = false) (hg y mem_cons_self) (by decide)

theorem Reference.ne_nil (h : Reference front old name) : old ≠ [] := by
  obtain ⟨h, g, x, g', rfl, -⟩ := h.written
  simp

/-- What is read as a reference is one. -/
theorem exists_of_valueRef? (hc : At (mask t) c) (h : valueRef? c = some (s, d)) :
    ∃ a old b, t = a ++ (old ++ b) ∧
      Reference a old (unquote (t.slice s.2)) ∧ s.1 = ⟨a.size, a.size + old.size⟩ := by
  obtain ⟨_, hguard, e, he, f, hf, h⟩ := of_bind₃ h
  obtain ⟨k, hk, l, hl, h⟩ := of_bind₂ h
  cases h
  obtain ⟨w, hw, hfold⟩ := word?_reads he
  obtain ⟨gap, hgap, hblank, -⟩ := skipWhile_reads e isBlank
  obtain ⟨g, hg, hgblank, -⟩ := skipWhile_reads f isBlank
  obtain ⟨x, hx, hne, hname, -⟩ := some?_reads hk
  obtain ⟨g', hg', hgblank', -⟩ := skipWhile_reads k isBlank
  have hopening : Functions.IsOpening "VALUES" (w ++ gap ++ ['(']) :=
    ⟨w, gap, by simp, hfold, hblank⟩
  have hfront := (hw.trans hgap).trans (sign?_reads hf)
  have hread : Reads c ((w ++ gap) ++ '(' :: ((g ++ x ++ g') ++ [')'])) d := by
    simpa using hfront.trans ((hg.trans hx).trans (hg'.trans (sign?_reads hl)))
  obtain ⟨a, u, b, ht, ha, hlast, -, hmask, hstart, hstop⟩ := Functions.exists_enclosed hc
    (hc.clear_of_word? he callable_values.shows).1 hread
    (fun y hy => hopening.no_quote callable_values y (mem_append_left _ hy)) (by decide) (by decide)
  -- blanks and names are the same in the text as in its mask
  obtain rfl : g ++ x ++ g' = u := by
    rw [← hmask]
    refine eq_of_mask_no_quote ?_
    rw [hmask]
    simp only [forall_mem_append]
    exact ⟨⟨code_of_isBlank hgblank, fun y hy => isQuote_of_isBracketedName (hname y hy)⟩,
      code_of_isBlank hgblank'⟩
  have hslice : t.slice ((f.skipWhile isBlank).spanTo k) = x := by
    have hcut : t = (a ++ (w ++ gap ++ ['(']) ++ g) ++ x ++ (g' ++ ')' :: b) := by
      rw [ht]
      simp
    have hbegin : (f.skipWhile isBlank).offset = size (a ++ (w ++ gap ++ ['(']) ++ g) := by
      simp only [hg.offset, hfront.offset, ← hstart, size_append]
    rw [hcut]
    exact slice_append _ x _ hbegin (by rw [← hbegin]; exact hx.offset)
  refine ⟨a, (w ++ gap ++ ['(']) ++ (g ++ (x ++ (g' ++ [')']))), b, by rw [ht]; simp,
    ⟨ha, ?_, ?_⟩, ?_⟩
  · rw [hlast]
    simpa [guard, afterWord] using hguard
  · exact ⟨_, g, x, g', rfl, hopening, hgblank, hgblank', hne, hname, congrArg _ hslice⟩
  · show Span.mk c.offset d.offset = _
    rw [← hstop, hstart]
    simp

theorem span_of_valueRef? (h : valueRef? c = some (s, d)) : s.1 = c.spanTo d := by
  obtain ⟨_, -, e, -, f, -, h⟩ := of_bind₃ h
  obtain ⟨k, -, l, -, h⟩ := of_bind₂ h
  cases h
  rfl

/-- A reference is read as one. -/
theorem Reference.exists_valueRef? (h : Reference a old name) : ∃ c s d,
    At (mask (a ++ (old ++ b))) c ∧ c.offset = a.size ∧ c.rest ≠ [] ∧
    valueRef? c = some (s, d) := by
  obtain ⟨front, g, x, g', rfl, hopening, hg, hg', hne, hx, -⟩ := h.written
  have hquote : Code (front ++ (g ++ (x ++ (g' ++ [')'])))) := by
    simp only [forall_mem_append]
    exact ⟨hopening.no_quote callable_values, code_of_isBlank hg,
      fun y hy => isQuote_of_isBracketedName (hx y hy), code_of_isBlank hg', by decide⟩
  have hmask := mask_append_code h.closed (by simp) hquote b
  obtain ⟨w, gap, rfl, hfold, hgap⟩ := hopening
  let c : Cursor := ⟨a.size, a.getLast?, w ++ (gap ++ '(' :: (g ++ (x ++ (g' ++ ')' :: mask b))))⟩
  obtain ⟨d, hd, hword⟩ : ∃ d, c.word? "VALUES" = some d ∧ Reads c w d := exists_word? rfl hfold
  obtain ⟨e, he, herest⟩ :=
    exists_sign?_blanks (append_cancel_left hword.rest).symm hgap (by decide)
  have hblanks : Reads e g e.blanks := reads_skipWhile herest hg (isBlank_of_head? hne hx _)
  have hname : e.blanks.rest = x ++ (g' ++ ')' :: mask b) :=
    (append_cancel_left (herest.symm.trans hblanks.rest)).symm
  obtain ⟨f, hf, hfread⟩ := exists_some? hname hne hx (isBracketedName_of_head? hg' _)
  obtain ⟨k, hk, -⟩ := exists_sign?_blanks
    (append_cancel_left (hname.symm.trans hfread.rest)).symm hg' (by decide)
  refine ⟨c, (c.spanTo k, e.blanks.spanTo f), k,
    ⟨mask a, ?_, (size_mask a).symm, h.closed.getLast?_mask.symm⟩, rfl, by simp [c], ?_⟩
  · rw [hmask]
    simp [c]
  · rw [valueRef?, show c.afterWord = false from h.edge, hd]
    show (d.blanks.sign? '(').bind _ = _
    rw [he]
    show (e.blanks.some? isBracketedName).bind _ = _
    rw [hf]
    show (f.blanks.sign? ')').bind _ = _
    rw [hk]
    rfl

/-! ### Resolving an expression -/

section

variable {columns values : List Text} {expr : Text}

theorem Resolves.keeps {u : Text}
    (hnone : ∀ (x : Text) c (y : Text) old b name, u = x ++ c :: y → c :: (y ++ rest) = old ++ b →
      ¬ Reference (front ++ x) old name)
    (h : Resolves columns values (front ++ u) rest r) :
    Resolves columns values front (u ++ rest) (u ++ r) := by
  induction u generalizing front with
  | nil => simpa using h
  | cons c u ih =>
    refine .keep (fun old b name hcut => ?_)
      (ih (fun x d y old b name hu hcut => ?_) (by simpa using h))
    · simpa using hnone [] c u old b name rfl hcut
    · simpa using hnone (c :: x) d y old b name (by rw [hu]; rfl) hcut

def putValue? (columns values : List Text) (expr : Text) (s : Span × Span) : Option Edit :=
  (valueOf? columns values (unquote (expr.slice s.2))).map fun v => ⟨s.1, v⟩

theorem resolve?_eq (columns values : List Text) (expr : Text) : resolve? columns values expr
    = ((((start (mask expr)).findAll valueRef?).mapM (putValue? columns values expr)).map
      (Edit.applyAll expr)) := by
  rw [map_eq_bind]
  refine congrArg (fun edit : Span × Span → Option Edit =>
    (((start (mask expr)).findAll valueRef?).mapM edit).bind (some ∘ Edit.applyAll expr))
      (funext fun s => ?_)
  obtain ⟨whole, name⟩ := s
  rw [putValue?, valueOf?]
  dsimp only
  cases columns.findIdx? fun c => c.same (unquote (expr.slice name)) with
  | none => rfl
  | some n => cases hv : values[n]? <;> simp [hv]

/-- The reference of which the spans were found in an expression. -/
structure Found (expr : Text) (s : Span × Span) (a old b : Text) : Prop where
  cut : expr = a ++ (old ++ b)
  reference : Reference a old (unquote (expr.slice s.2))
  span : s.1 = ⟨a.size, a.size + old.size⟩

/-- Edits at all references of the rest of an expression put the values in place of them. -/
theorem exists_resolves {finds : List (Span × Span)} {edits : List Edit}
    (hexpr : expr = front ++ rest)
    (hfinds : ∀ s ∈ finds, front.size ≤ s.1.start ∧ ∃ a old b, Found expr s a old b)
    (horder : finds.Pairwise fun s s' => s.1.stop ≤ s'.1.start)
    (hcover : ∀ a old b name, expr = a ++ (old ++ b) → Reference a old name → front.size ≤ a.size →
      ∃ s ∈ finds, s.1.start ≤ a.size ∧ a.size < s.1.stop)
    (hedits : finds.mapM (putValue? columns values expr) = some edits) :
    ∃ r, Edit.Weave front.size rest edits r ∧ Resolves columns values front rest r := by
  induction finds generalizing front rest edits with
  | nil =>
    cases hedits
    refine ⟨rest, .rest _ _, ?_⟩
    have hend : Resolves columns values (front ++ rest) [] [] := .nil _
    suffices hkept : Resolves columns values front (rest ++ []) (rest ++ []) by simpa using hkept
    refine hend.keeps fun x c y old b name hrest hcut href => ?_
    obtain ⟨s, hs, -⟩ := hcover (front ++ x) old b name (by rw [hexpr, hrest, ← hcut]; simp) href
      (by rw [size_append]; exact Nat.le_add_right _ _)
    cases hs
  | cons s finds ih =>
    obtain ⟨hle, a, old, b, hfound⟩ := hfinds s mem_cons_self
    obtain ⟨hfirst, horder⟩ := pairwise_cons.1 horder
    rw [mapM_cons] at hedits
    obtain ⟨e, he, edits, hmore, hedits⟩ := of_bind₂ hedits
    cases hedits
    obtain ⟨v, hv, rfl⟩ := map_eq_some_iff.1 he
    have hstart : s.1.start = a.size := congrArg Span.start hfound.span
    have hstop : s.1.stop = a.size + old.size := congrArg Span.stop hfound.span
    obtain ⟨u, rfl, hrest⟩ := exists_append_of_size_le (hexpr.symm.trans hfound.cut) (hstart ▸ hle)
    have hpos := size_pos hfound.reference.ne_nil
    have hbehind :
        ∀ s' ∈ finds, size (front ++ u ++ old) ≤ s'.1.start ∧ ∃ a old b, Found expr s' a old b := by
      intro s' hs'
      refine ⟨?_, (hfinds s' (mem_cons_of_mem s hs')).2⟩
      rw [size_append, ← hstop]
      exact hfirst s' hs'
    have hcover' : ∀ a' old' b' name, expr = a' ++ (old' ++ b') → Reference a' old' name →
        size (front ++ u ++ old) ≤ a'.size → ∃ s' ∈ finds, s'.1.start ≤ a'.size ∧
          a'.size < s'.1.stop := by
      intro a' old' b' name hcut href hle'
      rw [size_append] at hle'
      obtain ⟨s', hs', hplace⟩ := hcover a' old' b' name hcut href (by omega)
      rcases mem_cons.1 hs' with rfl | hs'
      · omega
      · exact ⟨s', hs', hplace⟩
    have hcut : expr = (front ++ u ++ old) ++ b := by rw [hfound.cut]; simp
    obtain ⟨r, hweave, hresolves⟩ := ih hcut hbehind horder hcover' hmore
    rw [size_append] at hstart hstop hweave
    refine ⟨u ++ (v ++ r), ?_, ?_⟩
    · rw [hrest, hfound.span, size_append]
      refine .keep u (.make old v (fun e he => ?_) ?_)
      · have hlt := hweave.le_start e he
        rw [size_append] at hlt
        omega
      · rwa [size_append] at hweave
    · rw [hrest]
      refine Resolves.keeps (fun x c y old' b' name hu hcut href => ?_)
        (.put hfound.reference hv hresolves)
      -- a reference that starts in front of the first one would have been found
      have hsize : size u = x.size + (c.utf8Size + size y) := by
        rw [hu, size_append, size_cons]
      have hc := Char.utf8Size_pos c
      obtain ⟨s', hs', hstart', -⟩ := hcover (front ++ x) old' b' name
        (by rw [hexpr, hrest, hu, ← hcut]; simp) href
          (by rw [size_append]; exact Nat.le_add_right _ _)
      rw [size_append] at hstart'
      rcases mem_cons.1 hs' with rfl | hs'
      · omega
      · have hlt := hfirst s' hs'
        omega

theorem exists_found (h : s ∈ (start (mask expr)).findAll valueRef?) :
    ∃ a old b, Found expr s a old b := by
  obtain ⟨c, d, hc, hread⟩ := at_of_mem_findAll h
  obtain ⟨a, old, b, hcut, href, hspan⟩ := exists_of_valueRef? hc hread
  exact ⟨a, old, b, hcut, href, hspan⟩

/-- Every reference lies in one that is found. -/
theorem Reference.exists_covering (href : Reference a old name) (hcut : expr = a ++ (old ++ b)) :
    ∃ s ∈ (start (mask expr)).findAll valueRef?, s.1.start ≤ a.size ∧ a.size < s.1.stop := by
  obtain ⟨c, s, d, hc, hoffset, hne, hread⟩ := href.exists_valueRef? (b := b)
  rw [← hcut] at hc
  obtain ⟨s', c', d', hc', hread', hmem, hplace⟩ := hc.exists_covering hne hread
  obtain ⟨a', old', b', -, href', hsize⟩ := exists_of_valueRef? hc' hread'
  have hspan := span_of_valueRef? hread'
  have hpos := size_pos href'.ne_nil
  refine ⟨s', hmem, ?_⟩
  rcases hplace with rfl | hplace
  · have hstart : a'.size = c'.offset := congrArg Span.start (hsize.symm.trans hspan)
    rw [hsize, ← hoffset, hstart]
    exact ⟨Nat.le_refl _, Nat.lt_add_of_pos_right hpos⟩
  · rw [hspan, ← hoffset]
    exact hplace

theorem resolves_of_resolve? (h : resolve? columns values expr = some r) :
    Resolves columns values [] expr r := by
  rw [resolve?_eq] at h
  obtain ⟨edits, hedits, rfl⟩ := map_eq_some_iff.1 h
  have horder :
      ((start (mask expr)).findAll valueRef?).Pairwise fun s s' => s.1.stop ≤ s'.1.start :=
    pairwise_findAll (fun _ _ _ => span_of_valueRef?) _
  obtain ⟨r, hweave, hresolves⟩ := exists_resolves (nil_append expr).symm
    (fun s hs => ⟨Nat.zero_le _, exists_found hs⟩) horder
    (fun _ _ _ _ hcut href _ => href.exists_covering hcut) hedits
  rwa [show Edit.applyAll expr edits = r from hweave.applyAll]

theorem exists_of_resolve?_eq_none (h : resolve? columns values expr = none) : ∃ a old b name,
    expr = a ++ (old ++ b) ∧ Reference a old name ∧ valueOf? columns values name = none := by
  rw [resolve?_eq, map_eq_none_iff] at h
  obtain ⟨s, hs, hnone⟩ := exists_of_mapM_eq_none h
  obtain ⟨a, old, b, hfound⟩ := exists_found hs
  exact ⟨a, old, b, _, hfound.cut, hfound.reference, map_eq_none_iff.1 hnone⟩

end

/-! ### The clause -/

def clauseWords : List Text := ["DUPLICATE", "KEY", "UPDATE"]

/-- In the code of `t` outside parentheses ON DUPLICATE KEY UPDATE stands first between `head`,
blanks at its end apart, and `rest`. -/
def IsClause (t head rest : Text) : Prop :=
  ∃ front k, t = front ++ (k ++ rest) ∧ Topmost "ON" clauseWords front k rest ∧
    head = front.trimEnd ∧
    ∀ front' k' rest', t = front' ++ (k' ++ rest') → Topmost "ON" clauseWords front' k' rest' →
      front.size ≤ front'.size

/-- The item sets a column: the first equals sign in its code stands between column and
expression. -/
def IsAssignment (item : Text) (a : Assignment) : Prop :=
  ∃ u v, item = u ++ '=' :: v ∧ Closed u ∧ '=' ∉ mask u ∧ a = ⟨unquote u, trim v⟩

/-- The text of the clause without blanks around it and semicolons behind it. -/
def clauseText (rest : Text) : Text := dropEnd (· == ';') rest.trim

/-- What follows the words of the clause sets columns one after another. -/
def Assigns (rest : Text) (assignments : List Assignment) : Prop :=
  ∃ items, Nesting.Cuts ',' items (clauseText rest) ∧ List.Forall₂ IsAssignment items assignments

/-- The update of the row with the given values: all that the clause sets, where the key column has
the value of the row. -/
def IsUpdate (table : Text) (columns : List Text) (key : Nat) (assignments : List Assignment)
    (values : List Text) (sql : Text) : Prop :=
  values.length = columns.length ∧ ∃ sets column value,
    List.Forall₂ (fun a set => ∃ r, Resolves columns values [] a.expr r ∧
      set = a.column ++ " = " ++ r)
      assignments sets ∧
    columns[key]? = some column ∧ values[key]? = some value ∧
    sql = "UPDATE " ++ table ++ " SET " ++ join ", " sets ++ " WHERE " ++ column ++ " = " ++ value

/-- The clause is taken off `t`, and there is one update for each value group of `head`, in
order. -/
def Taken (catalog : Catalog) (t head : Text) (updates : List Text) : Prop :=
  ∃ rest i columns assignments, IsClause t head rest ∧ Insertion.ofText? head = some i ∧
    i.groups ≠ [] ∧
    columns? catalog i = some columns ∧ Assigns rest assignments ∧
    List.Forall₂ (fun g sql => IsUpdate i.table columns (keyIn catalog i.table columns) assignments
      (Insertion.values head g) sql) i.groups updates

/-- Why a statement is left as it is. -/
inductive GivesUp (catalog : Catalog) (t : Text) : Prop
  | clause :
      (∀ front k rest, t = front ++ (k ++ rest) → ¬ Topmost "ON" clauseWords front k rest) →
      GivesUp catalog t
  | rows {head rest : Text} :
      IsClause t head rest → (∀ i, Insertion.ofText? head = some i → i.groups = []) →
    GivesUp catalog t
  | columns {head rest : Text} {i : Insertion} :
      IsClause t head rest → Insertion.ofText? head = some i →
    columns? catalog i = none → GivesUp catalog t
  | assignment {head rest item : Text} {items : List Text} : IsClause t head rest →
    Nesting.Cuts ',' items (clauseText rest) → item ∈ items → '=' ∉ mask item → GivesUp catalog t
  | width {head rest : Text} {i : Insertion} {columns : List Text} {g : Span} :
      IsClause t head rest →
    Insertion.ofText? head = some i → columns? catalog i = some columns → g ∈ i.groups →
    (Insertion.values head g).length ≠ columns.length → GivesUp catalog t
  | reference {head rest : Text} {i : Insertion} {columns : List Text}
      {assignments : List Assignment} {g : Span}
    {a : Assignment} {x old b name : Text} :
    IsClause t head rest → Insertion.ofText? head = some i →
    columns? catalog i = some columns → Assigns rest assignments → g ∈ i.groups → a ∈ assignments →
    a.expr = x ++ (old ++ b) → Reference x old name →
    valueOf? columns (Insertion.values head g) name = none → GivesUp catalog t

theorem named_on : Named "ON" := by decide

theorem named_clauseWords : ∀ w ∈ clauseWords, Named w := by decide

/-- The first clause that is found is the first. -/
theorem isClause_of_findTop? {s : Span}
    (h : findTop? (mask t) ("ON".toList :: clauseWords) 0 = some s) :
    ∃ rest, IsClause t (trimEnd (t.before s.start)) rest ∧ t.after s.stop = rest := by
  obtain ⟨front, k, rest, ht, htop, hspan, -⟩ :=
    topmost_of_mem_topPhrases named_on named_clauseWords (by decide) (mem_of_mem_head? h)
  refine ⟨rest, ⟨front, k, ht, htop, ?_, fun front' k' rest' ht' htop' => ?_⟩, ?_⟩
  · rw [hspan, ht, before_size_append]
  · obtain ⟨s', hs', hle⟩ :=
      htop'.exists_findTop? named_on named_clauseWords (isBoundary_zero _) (Nat.zero_le _)
    rw [← ht', h] at hs'
    cases hs'
    rwa [hspan] at hle
  · rw [hspan, ht, ← append_assoc, ← size_append, after_size_append]

theorem not_topmost_of_findTop? (h : findTop? (mask t) ("ON".toList :: clauseWords) 0 = none)
    {k : Text} (ht : t = front ++ (k ++ rest)) : ¬ Topmost "ON" clauseWords front k rest := by
  intro htop
  obtain ⟨s, hs, -⟩ :=
    htop.exists_findTop? named_on named_clauseWords (isBoundary_zero _) (Nat.zero_le _)
  rw [← ht, h] at hs
  cases hs

theorem isAssignment_of_assignment? {a : Assignment} (h : assignment? item = some a) :
    IsAssignment item a := by
  obtain ⟨n, hn, h⟩ := bind_eq_some_iff.1 h
  cases h
  obtain ⟨w, c, s, hmask, hw, hc, rfl⟩ := findFrom?_eq_some.1 hn
  obtain rfl : c = '=' := by simpa using hc
  obtain ⟨u, v, rfl, hu, rfl, -⟩ := exists_code hmask (by decide) (by decide)
  have hfree : '=' ∉ mask u := fun hmem => by simpa using hw '=' hmem
  have hsize : 0 + (mask u).size = size u := by rw [size_mask, Nat.zero_add]
  refine ⟨u, v, rfl, hu, hfree, ?_⟩
  rw [hsize, before_size_append, show size u + 1 = size (u ++ ['=']) from
    (size_append u ['=']).symm, ← singleton_append, ← append_assoc, after_size_append]

theorem mask_of_assignment?_eq_none (h : assignment? item = none) : '=' ∉ mask item := by
  intro hmem
  obtain ⟨w, s, hmask, hw⟩ := eq_append_cons_of_mem hmem
  have hfind : (mask item).find? (· == '=') = some (0 + size w) :=
    findFrom?_eq_some.2 ⟨w, '=', s, hmask,
      fun x hx => beq_false_of_ne fun he => hw (he ▸ hx), rfl, rfl⟩
  simp [assignment?, hfind] at h

/-! ### The updates -/

theorem keyIn_lt {columns : List Text} (hne : columns ≠ []) (catalog : Catalog) (table : Text) :
    keyIn catalog table columns < columns.length := by
  have hpos : 0 < columns.length := length_pos_of_ne_nil hne
  unfold keyIn
  cases h : (catalog.table? table).bind fun t => columns.findIdx? t.isKey with
  | none => exact hpos
  | some n =>
    obtain ⟨t, -, hn⟩ := bind_eq_some_iff.1 h
    exact (findIdx?_eq_some_iff_getElem.1 hn).1

variable {table : Text} {key : Nat} {assignments : List Assignment}

theorem isUpdate_of_update? {sql : Text}
    (h : update? table columns key assignments values = some sql) :
    IsUpdate table columns key assignments values sql := by
  rw [update?] at h
  simp only [bind_eq_bind, bind_eq_some_iff] at h
  obtain ⟨_, hguard, sets, hsets, column, hcolumn, value, hvalue, h⟩ := h
  have hlength : values.length = columns.length := by simpa [guard] using hguard
  refine ⟨hlength, sets, column, value, (forall₂_of_mapM hsets).imp fun a set ha => ?_, hcolumn,
    hvalue, ?_⟩
  · obtain ⟨r, hr, ha⟩ := bind_eq_some_iff.1 ha
    exact ⟨r, resolves_of_resolve? hr, (some.inj ha).symm⟩
  · exact (some.inj h).symm

/-- With a key among the columns an update fails only for a row of another length, or for a
reference. -/
theorem of_update?_eq_none (hkey : key < columns.length)
    (h : update? table columns key assignments values = none) :
    values.length ≠ columns.length ∨ ∃ a ∈ assignments, resolve? columns values a.expr = none := by
  by_cases hlength : values.length = columns.length
  · refine .inr ?_
    rw [update?, hlength, getElem?_eq_getElem hkey, getElem?_eq_getElem (hlength ▸ hkey)] at h
    cases hsets : assignments.mapM fun a => do
        return a.column ++ " = " ++ (← resolve? columns values a.expr) with
    | some sets =>
      rw [hsets] at h
      simp at h
    | none =>
      obtain ⟨a, ha, hnone⟩ := exists_of_mapM_eq_none hsets
      exact ⟨a, ha, by rcases hr : resolve? columns values a.expr <;> simp_all⟩
  · exact .inl hlength

/-! ### The pass -/

theorem values_ne_nil (head : Text) (g : Span) : Insertion.values head g ≠ [] := by
  simp [Insertion.values, Insertion.entries, Nesting.itemsIn, Nesting.splitTop,
    Nesting.splitTopFrom_ne_nil]

variable {catalog : Catalog} {t head : Text}

theorem cuts_clauseText (rest : Text) :
    Nesting.Cuts ',' (Nesting.parts (clauseText rest) ',') (clauseText rest) :=
  (Nesting.parts_eq_iff (by decide) (by decide) (by decide) (by decide)).1 rfl

theorem assigns_of_mapM
    (h : (Nesting.parts (clauseText rest) ',').mapM assignment? = some assignments) :
    Assigns rest assignments :=
  ⟨_, cuts_clauseText rest, (forall₂_of_mapM h).imp fun _ _ => isAssignment_of_assignment?⟩

theorem taken_of_split? {updates : List Text} (h : split? catalog t = some (head, updates)) :
    Taken catalog t head updates := by
  rw [split?] at h
  simp only [bind_eq_bind, bind_eq_some_iff] at h
  obtain ⟨s, hclause, i, hi, _, hguard, columns, hcolumns, assignments, hassignments, rows,
    hrows, h⟩ := h
  cases h
  obtain ⟨rest, hrest, hafter⟩ := isClause_of_findTop? hclause
  rw [hafter] at hassignments
  have hgroups : i.groups ≠ [] := by simpa [guard] using hguard
  exact ⟨rest, i, columns, assignments, hrest, hi, hgroups, hcolumns, assigns_of_mapM hassignments,
    (forall₂_of_mapM hrows).imp fun _ _ => isUpdate_of_update?⟩

/-- A row without an update has another length than the list of columns, or refers to a column that
is not there. -/
theorem givesUp_of_update? {i : Insertion} {g : Span} (hclause : IsClause t head rest)
    (hi : Insertion.ofText? head = some i) (hcolumns : columns? catalog i = some columns)
    (hassigns : Assigns rest assignments) (hg : g ∈ i.groups)
    (h : update? i.table columns (keyIn catalog i.table columns) assignments
      (Insertion.values head g) = none) : GivesUp catalog t := by
  by_cases hne : columns = []
  · refine .width hclause hi hcolumns hg fun hlength => values_ne_nil head g ?_
    rwa [hne, length_nil, length_eq_zero_iff] at hlength
  · obtain hlength | ⟨a, ha, hnone⟩ := of_update?_eq_none (keyIn_lt hne catalog i.table) h
    · exact .width hclause hi hcolumns hg hlength
    · obtain ⟨x, old, b, name, hexpr, href, hvalue⟩ := exists_of_resolve?_eq_none hnone
      exact .reference hclause hi hcolumns hassigns hg ha hexpr href hvalue

/-- A statement is left as it is for one of the reasons. -/
theorem givesUp_of_split?_eq_none (h : split? catalog t = none) : GivesUp catalog t := by
  cases hfind : findTop? (mask t) ["ON", "DUPLICATE", "KEY", "UPDATE"] 0 with
  | none => exact .clause fun front k rest ht => not_topmost_of_findTop? hfind ht
  | some s =>
  obtain ⟨rest, hclause, hafter⟩ := isClause_of_findTop? hfind
  cases hi : Insertion.ofText? (trimEnd (t.before s.start)) with
  | none => exact .rows hclause fun i hi' => by cases hi.symm.trans hi'
  | some i =>
  by_cases hgroups : i.groups = []
  · exact .rows hclause fun j hj => by cases hi.symm.trans hj; exact hgroups
  cases hcolumns : columns? catalog i with
  | none => exact .columns hclause hi hcolumns
  | some columns =>
  cases hassignments : (Nesting.parts (clauseText rest) ',').mapM assignment? with
  | none =>
    obtain ⟨item, hitem, hnone⟩ := exists_of_mapM_eq_none hassignments
    exact .assignment hclause (cuts_clauseText rest) hitem (mask_of_assignment?_eq_none hnone)
  | some assignments =>
  cases hrows :
      i.groups.mapM fun g => update? i.table columns (keyIn catalog i.table columns) assignments
      (Insertion.values (trimEnd (t.before s.start)) g) with
  | none =>
    obtain ⟨g, hg, hnone⟩ := exists_of_mapM_eq_none hrows
    exact givesUp_of_update? hclause hi hcolumns (assigns_of_mapM hassignments) hg hnone
  | some updates =>
    have hsplit : split? catalog t = some (trimEnd (t.before s.start), updates) := by
      rw [← hafter] at hassignments
      simp only [split?, bind_eq_bind, bind_eq_some_iff]
      exact ⟨s, hfind, i, hi, (), by simp [guard, hgroups], columns, hcolumns, assignments,
        hassignments, updates, hrows, rfl⟩
    cases h.symm.trans hsplit

/-- ON DUPLICATE KEY UPDATE is taken off whole, with one update for each row, or not at all. -/
theorem onDuplicateKey_taken_or_left (context : Context) (d : Draft) :
    (Pass.apply context d .onDuplicateKey = .ok d ∧ (d.kind = .insert → GivesUp d.catalog d.text)) ∨
    (d.kind = .insert ∧ ∃ head updates, Taken d.catalog d.text head updates ∧
      Pass.apply context d .onDuplicateKey = .ok
        { d with
          text := head, following := d.following ++ updates.map fun sql => ⟨sql, .always⟩ }) := by
  by_cases hkind : d.kind = .insert
  · have happly : Pass.apply context d .onDuplicateKey = .ok (apply d) :=
      congrArg Except.ok (if_pos hkind)
    cases hsplit : split? d.catalog d.text with
    | none =>
      refine .inl ⟨?_, fun _ => givesUp_of_split?_eq_none hsplit⟩
      rw [happly, apply, hsplit]
    | some pair =>
      refine .inr ⟨hkind, pair.1, pair.2, taken_of_split? hsplit, ?_⟩
      rw [happly, apply, hsplit]
  · exact .inl ⟨congrArg Except.ok (if_neg hkind), fun h => absurd h hkind⟩

/-- A dollar sign may stand in the name of a column, but not in a reference to it. -/
theorem dollar_reference_kept : let d : Draft := {
      text := "INSERT INTO t (a$b) VALUES (1) ON DUPLICATE KEY UPDATE a$b = VALUES(a$b)"
      kind := .insert, prepared := false, serialized := false, verify := false, previous := none
      template := "", params := [], catalog := {} }
    (apply d).text = "INSERT INTO t (a$b) VALUES (1)".toList ∧
      (apply d).following = [⟨"UPDATE t SET a$b = VALUES(a$b) WHERE a$b = 1", .always⟩] := by
  decide +kernel

end DuplicateKey

end Recast
