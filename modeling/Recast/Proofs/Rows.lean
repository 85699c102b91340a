import Recast.Pass.DuplicateKey
import Recast.Pass.RowSplit
import Recast.Proofs.Landmarks
import Recast.Proofs.Restoration

/-!
# Statements of several rows

The value groups of an INSERT are put together from rows (`ValueRow`, `rowsText`). Every INSERT with
value groups is written that way, and other rows in their place are read as such, with the same
table and columns (`exists_rows`). Splitting such a statement gives one statement for each of its
rows (`statements_rows`).
-/

namespace Recast

open Verify Literal Nesting List Text
open Option hiding guard

variable {a r t table tail u z : Text} {c x : Char} {k n : Nat} {g : Span} {columns : List Text}
  {rows : List ValueRow}

namespace Insertion

/-! ### Rows -/

/-- A value group, and what separates it from the one before. -/
structure ValueRow where
  lead : Text
  items : List Item

namespace ValueRow

def group (r : ValueRow) : Text := '(' :: (written r.items ++ [')'])

def text (r : ValueRow) : Text := r.lead ++ r.group

structure Proper (r : ValueRow) : Prop where
  ne : r.items ≠ []
  items : ∀ i ∈ r.items, i.Proper

theorem size_group (r : ValueRow) : r.group.size = 1 + (written r.items).size + 1 := by
  rw [group, size_cons, size_append]
  show 1 + ((written r.items).size + 1) = _
  omega

theorem size_text (r : ValueRow) :
    r.text.size = r.lead.size + (1 + (written r.items).size + 1) := by
  rw [text, size_append, size_group]

end ValueRow

/-- A comma among blanks. -/
def Separates (t : Text) : Prop :=
  ∃ x y : Text, t = x ++ ',' :: y ∧ Gap x ∧ Gap y

theorem Separates.no_quote (h : Separates t) : Code t := by
  obtain ⟨x, y, rfl, hx, hy⟩ := h
  exact forall_mem_append.2 ⟨hx.no_quote, forall_mem_cons.2 ⟨rfl, hy.no_quote⟩⟩

def rowsText (rows : List ValueRow) : Text := rows.flatMap ValueRow.text

theorem rowsText_cons (r : ValueRow) (rows : List ValueRow) :
    rowsText (r :: rows) = r.text ++ rowsText rows := rfl

theorem rowsText_append (l m : List ValueRow) : rowsText (l ++ m) = rowsText l ++ rowsText m :=
  flatMap_append

/-- Where the groups of rows are that start at `n`. -/
def groupsAt (n : Nat) : List ValueRow → List Span
  | [] => []
  | r :: rows => ⟨n + r.lead.size, n + r.text.size⟩ :: groupsAt (n + r.text.size) rows

theorem length_groupsAt (n : Nat) (rows : List ValueRow) :
    (groupsAt n rows).length = rows.length := by
  induction rows generalizing n with
  | nil => rfl
  | cons r rows ih => rw [groupsAt, length_cons, length_cons, ih]

theorem stop_groupsAt (h : rows ≠ []) :
    (groupsAt n rows).getLast?.map (·.stop) = some (n + (rowsText rows).size) := by
  induction rows generalizing n with
  | nil => exact absurd rfl h
  | cons r rows ih =>
    rw [rowsText_cons, size_append, groupsAt]
    cases rows with
    | nil => rfl
    | cons r' rows =>
      have hlast := ih (n := n + r.text.size) (by simp)
      rw [← Nat.add_assoc, ← hlast, groupsAt]
      rfl

/-- Rows that follow a group. -/
def Behind (rows : List ValueRow) : Prop := ∀ r ∈ rows, r.Proper ∧ Separates r.lead

/-- Rows as they stand behind VALUES: nothing separates the first from what is in front of it. -/
structure Listed (rows : List ValueRow) : Prop where
  first : ∀ r, rows.head? = some r → r.Proper ∧ r.lead = []
  others : Behind rows.tail

theorem Listed.proper (h : Listed rows) : ∀ r ∈ rows, r.Proper := by
  cases rows with
  | nil => simp
  | cons r rows =>
    intro x hx
    rcases mem_cons.1 hx with rfl | hx
    · exact (h.first x rfl).1
    · exact (h.others x hx).1

/-! ### Reading rows -/

theorem groupsFrom?_comma {x : Text} (hx : Gap x) (t : Text) :
    groupsFrom? .comma n (x ++ ',' :: t) = groupsFrom? .group (n + x.size + 1) t := by
  rw [(groupsFrom?_gap hx _).1]
  rfl

theorem exists_of_groupsFrom?_comma {groups : List Span}
    (h : groupsFrom? .comma n t = some (g :: groups)) :
    ∃ x t', t = x ++ ',' :: t' ∧ Gap x ∧ groupsFrom? .group (n + size x + 1) t' =
      some (g :: groups) := by
  by_cases hnext : ∃ x r, t = x ++ ',' :: r ∧ Gap x ∧ ∃ y s, r = y ++ '(' :: s ∧ Gap y
  · obtain ⟨x, r, rfl, hx, -⟩ := hnext
    exact ⟨x, r, rfl, hx, by rwa [groupsFrom?_comma hx] at h⟩
  · rw [groupsFrom?_comma_eq_nil.2 hnext] at h
    cases h

theorem mask_row {r : ValueRow} (hitems : ∀ i ∈ r.items, i.Proper) (hlead : Code r.lead)
    (t : Text) :
    mask (r.text ++ t) = r.lead ++ '(' :: (mask (written r.items) ++ ')' :: mask t) := by
  have htext : r.text ++ t = r.lead ++ '(' :: (written r.items ++ ')' :: t) := by
    simp [ValueRow.text, ValueRow.group]
  rw [htext, mask_append_cons hlead.closed (by decide),
    mask_append_cons (closed_written hitems) (by decide), hlead.mask_eq]

/-- Rows are read as the groups that they are. -/
theorem groupsFrom?_rows (h : Behind rows) (tail : Text) (n : Nat) :
    groupsFrom? .comma n (mask (rowsText rows ++ tail))
      = (groupsFrom? .comma (n + (rowsText rows).size) (mask tail)).map (groupsAt n rows ++ ·) := by
  induction rows generalizing n with
  | nil => simp [rowsText, groupsAt]
  | cons r rows ih =>
    obtain ⟨hr, hsep⟩ := h r (by simp)
    have hmask := mask_row hr.items hsep.no_quote (rowsText rows ++ tail)
    have hrest := ih (forall_mem_cons.1 h).2 (n + r.text.size)
    obtain ⟨x, y, hlead, hx, hy⟩ := hsep
    have hsize : n + r.text.size = n + x.size + 1 + y.size + 1 + (written r.items).size + 1 := by
      rw [ValueRow.text, size_append, ValueRow.size_group, hlead, size_append]
      show n + (x.size + (1 + y.size) + (1 + (written r.items).size + 1)) = _
      omega
    have hstart : n + r.lead.size = n + x.size + 1 + y.size := by
      rw [hlead, size_append]
      show n + (x.size + (1 + y.size)) = _
      omega
    rw [rowsText_cons, append_assoc, hmask, hlead, append_assoc, cons_append,
      groupsFrom?_comma hx, groupsFrom?_group hy (level_written hr.items), size_mask,
        ← hsize, hrest,
      Text.size_append, Option.map_map, groupsAt, hstart, ← Nat.add_assoc]
    rfl

/-- Groups that are read are those of rows. -/
theorem exists_rows_of_groupsFrom? {gs : List Span} (h : groupsFrom? .comma n (mask t) = some gs) :
    ∃ rows tail, t = rowsText rows ++ tail ∧ Behind rows ∧ gs = groupsAt n rows ∧
      groupsFrom? .comma (n + (rowsText rows).size) (mask tail) = some [] := by
  induction gs generalizing n t with
  | nil => exact ⟨[], t, rfl, by simp [Behind], rfl, h⟩
  | cons g gs ih =>
    obtain ⟨x, u, hmask, hx, hgroup⟩ := exists_of_groupsFrom?_comma h
    obtain ⟨y, body', rest', rfl, hy, hlevel, hg, hrest⟩ := exists_of_groupsFrom?_group hgroup
    have hsplit : mask t = (x ++ ',' :: y) ++ '(' :: (body' ++ ')' :: rest') := by
      rw [hmask, append_assoc, cons_append]
    obtain ⟨lead, u, rfl, -, hlead, hu⟩ := exists_code hsplit (by decide) (by decide)
    obtain ⟨body, rest, rfl, hclosed, rfl, rfl⟩ := exists_code hu (by decide) (by decide)
    have hsep : Separates (mask lead) := ⟨x, y, hlead, hx, hy⟩
    -- a separator has no literals, so it stands in the text as it does in the mask
    have hsame : mask lead = lead := eq_of_mask_no_quote hsep.no_quote
    rw [hsame] at hsep hlead
    obtain ⟨items, hne, hitems, rfl⟩ := exists_items body hclosed hlevel
    have hlen : lead.size = x.size + 1 + y.size := by
      rw [hlead, size_append]
      show x.size + (1 + y.size) = _
      omega
    have hstop : n + (⟨lead, items⟩ : ValueRow).text.size
        = n + x.size + 1 + y.size + 1 + (mask (written items)).size + 1 := by
      rw [ValueRow.text, size_append, ValueRow.size_group, size_mask]
      show n + (lead.size + (1 + (written items).size + 1)) = _
      omega
    rw [← hstop] at hrest hg
    obtain ⟨rows, tail, rfl, hrows, rfl, hend⟩ := ih hrest
    refine ⟨⟨lead, items⟩ :: rows, tail, ?_, ?_, ?_, ?_⟩
    · simp [rowsText_cons, ValueRow.text, ValueRow.group]
    · intro r hr
      rcases mem_cons.1 hr with rfl | hr
      · exact ⟨⟨hne, hitems⟩, hsep⟩
      · exact hrows r hr
    · rw [groupsAt, hg, hlen]
      congr 2
      omega
    · rwa [rowsText_cons, size_append, ← Nat.add_assoc]

/-! ### Statements -/

/-- No row stands at the start of a text. -/
def NoRow (t : Text) : Prop := groupsFrom? .comma 0 (mask t) = some []

/-- There is a row, or one that is not closed, exactly where a parenthesis opens behind a comma. -/
theorem noRow_iff : NoRow t ↔ ¬ ∃ s r, t = s ++ '(' :: r ∧ Separates s := by
  rw [NoRow, groupsFrom?_comma_eq_nil, not_iff_not]
  constructor
  · rintro ⟨x, -, hmask, hx, y, r, rfl, hy⟩
    have hsep : Separates (x ++ ',' :: y) := ⟨x, y, rfl, hx, hy⟩
    rw [← cons_append, ← append_assoc] at hmask
    obtain ⟨s, b, rfl, -, hs, -⟩ := exists_code hmask (by decide) (by decide)
    -- a comma among blanks stands in the text as it does in the mask
    rw [eq_of_mask_no_quote (by rw [hs]; exact hsep.no_quote)] at hs
    exact ⟨s, b, rfl, hs ▸ hsep⟩
  · rintro ⟨s, r, rfl, hsep⟩
    rw [mask_append_cons hsep.no_quote.closed (by decide), hsep.no_quote.mask_eq]
    obtain ⟨x, y, rfl, hx, hy⟩ := hsep
    exact ⟨x, y ++ '(' :: mask r, by simp, hx, y, mask r, rfl, hy⟩

/-- Behind `a`, rows are read as those that are inserted into the table. -/
def Opens (a table : Text) (columns : List Text) : Prop :=
  ∀ rows tail, rows ≠ [] → Listed rows → NoRow tail → ofText? (a ++ (rowsText rows ++ tail))
    = some ⟨table, columns, groupsAt a.size rows, a.size + (rowsText rows).size⟩

/-- Every statement with value groups is written from rows, and read the same way with others. -/
theorem exists_rows {j : Insertion} (h : ofText? t = some j) (hne : j.groups ≠ []) :
    ∃ a rows tail, t = a ++ (rowsText rows ++ tail) ∧ Closed a ∧ rows ≠ [] ∧ Listed rows ∧
      NoRow tail ∧ j.groups = groupsAt a.size rows ∧ Opens a j.table j.columns := by
  obtain ⟨g, gs, hg⟩ := exists_cons_of_ne_nil hne
  obtain ⟨a, body, rest, rfl, ha, hbody, hlevel, hspan, hrest, hagain⟩ := ofText?_front h hg
  obtain ⟨items, hitems, hproper, rfl⟩ := exists_items body hbody hlevel
  obtain ⟨rows, tail, rfl, hrows, rfl, htail⟩ := exists_rows_of_groupsFrom? hrest
  have hstop (items : List Item) :
      a.size + 1 + (written items).size + 1 = a.size + (⟨[], items⟩ : ValueRow).text.size := by
    rw [ValueRow.text, nil_append, ValueRow.size_group]
    show _ = a.size + (1 + (written items).size + 1)
    omega
  refine ⟨a, ⟨[], items⟩ :: rows, tail, ?_, ha, by simp, ⟨?_, hrows⟩,
    groupsFrom?_nil htail 0, ?_, ?_⟩
  · simp [rowsText_cons, ValueRow.text, ValueRow.group]
  · rintro r ⟨⟩
    exact ⟨⟨hitems, hproper⟩, rfl⟩
  · rw [hg, hspan, hstop]
    rfl
  · intro rows' tail' hne' hlisted htail'
    obtain ⟨⟨lead, items'⟩, rows', rfl⟩ := exists_cons_of_ne_nil hne'
    obtain ⟨hproper', rfl⟩ := hlisted.first _ rfl
    have hitems' : ∀ i ∈ items', i.Proper := hproper'.items
    have hothers : Behind rows' := hlisted.others
    have htext : a ++ (rowsText (⟨[], items'⟩ :: rows') ++ tail')
        = a ++ '(' :: (written items' ++ ')' :: (rowsText rows' ++ tail')) := by
      simp [rowsText_cons, ValueRow.text, ValueRow.group]
    have hstops : (groupsAt a.size (⟨[], items'⟩ :: rows')).getLast?.map (·.stop) = _ :=
      stop_groupsAt (by simp)
    have hgroups :
        groupsAt a.size (⟨[], items'⟩ :: rows') =
          ⟨a.size, a.size + (⟨[], items'⟩ : ValueRow).text.size⟩
          :: groupsAt (a.size + (⟨[], items'⟩ : ValueRow).text.size) rows' := rfl
    rw [htext, hagain _ _ (closed_written hitems') (level_written hitems'), hstop,
      groupsFrom?_rows hothers, groupsFrom?_nil htail']
    rw [hgroups] at hstops ⊢
    simp only [map_some, append_nil, hstops, getD_some]

/-- A group of a statement as the one row of what stands around it. -/
theorem exists_withRow_of_group (tail : Text) (hg : (groupsAt a.size rows)[k]? = some g) :
    ∃ r front back, rows[k]? = some r ∧ a ++ (rowsText rows ++ tail) = withRow front r.items back ∧
      g = rowSpan front r.items := by
  induction rows generalizing a k with
  | nil => simp [groupsAt] at hg
  | cons r rows ih =>
    cases k with
    | zero =>
      obtain rfl : (⟨a.size + r.lead.size, a.size + r.text.size⟩ : Span) = g := by
        simpa [groupsAt] using hg
      refine ⟨r, a ++ r.lead, rowsText rows ++ tail, rfl, ?_, ?_⟩
      · simp [rowsText_cons, ValueRow.text, ValueRow.group, withRow]
      · rw [rowSpan, ValueRow.text, size_append, size_append, ValueRow.size_group]
        congr 1
        omega
    | succ k =>
      rw [groupsAt, getElem?_cons_succ, ← size_append] at hg
      obtain ⟨r', front, back, hr', htext, hspan⟩ := ih hg
      refine ⟨r', front, back, hr', ?_, hspan⟩
      rw [← htext, rowsText_cons]
      simp

/-- The row of a statement is the group of its items. -/
theorem slice_withRow (a : Text) (r : ValueRow) (tail : Text) :
    slice (withRow a r.items tail) (rowSpan a r.items) = r.group := by
  have hsplit : withRow a r.items tail = a ++ r.group ++ tail := by
    simp [withRow, ValueRow.group]
  rw [hsplit]
  refine slice_append _ _ _ rfl ?_
  rw [ValueRow.size_group]
  omega

/-- The entries of a group are the cores of its row. -/
theorem entries_of_group (tail : Text) (h : ∀ r ∈ rows, r.Proper)
    (hg : (groupsAt a.size rows)[k]? = some g) :
    ∃ r, rows[k]? = some r ∧ entries (a ++ (rowsText rows ++ tail)) g =
      cores (g.start + 1) r.items ∧ slice (a ++ (rowsText rows ++ tail)) g = r.group ∧
      ∀ (n : Nat) s, (entries (a ++ (rowsText rows ++ tail)) g)[n]? = some s →
        ∃ i, r.items[n]? = some i ∧ slice (a ++ (rowsText rows ++ tail)) s = i.core := by
  obtain ⟨r, front, back, hr, htext, rfl⟩ := exists_withRow_of_group tail hg
  have hproper := h r (mem_of_getElem? hr)
  have hentries := entries_withRow front back hproper.ne hproper.items
  rw [htext]
  refine ⟨r, hr, hentries, slice_withRow front r back, fun n s hs => ?_⟩
  rw [hentries] at hs
  exact slice_entry back hs

/-- A statement is split into one for each of its rows. -/
theorem statements_rows (ha : Opens a table columns) (hne : rows ≠ []) (h : Listed rows)
    (htail : NoRow tail) :
    RowSplit.statements (a ++ (rowsText rows ++ tail)) = rows.map fun r =>
      withRow a r.items tail := by
  have hj := ha rows tail hne h htail
  obtain ⟨r, rows, rfl⟩ := exists_cons_of_ne_nil hne
  have hlead : r.lead = [] := (h.first r rfl).2
  cases rows with
  | nil =>
    rw [RowSplit.statements, hj]
    simp [groupsAt, rowsText, ValueRow.text, ValueRow.group, withRow, hlead]
  | cons r' rows =>
    have hfront :
        before (a ++ (rowsText (r :: r' :: rows) ++ tail)) (a.size + r.lead.size) = a := by
      rw [hlead]
      exact before_size_append _ _
    have hback : after (a ++ (rowsText (r :: r' :: rows) ++ tail))
        (a.size + (rowsText (r :: r' :: rows)).size) = tail := by
      rw [← size_append, ← append_assoc, after_size_append]
    have hsplit : RowSplit.statements (a ++ (rowsText (r :: r' :: rows) ++ tail))
        = (groupsAt a.size (r :: r' :: rows)).map fun g =>
          a ++ slice (a ++ (rowsText (r :: r' :: rows) ++ tail)) g ++ tail := by
      rw [RowSplit.statements, hj]
      simp only [groupsAt, hfront, hback]
    rw [hsplit]
    refine ext_getElem? fun k => ?_
    rw [getElem?_map, getElem?_map]
    cases hg : (groupsAt a.size (r :: r' :: rows))[k]? with
    | none =>
      rw [getElem?_eq_none_iff, length_groupsAt] at hg
      rw [getElem?_eq_none hg]
      rfl
    | some g =>
      obtain ⟨x, hx, -, hslice, -⟩ := entries_of_group tail h.proper hg
      rw [hx, map_some, hslice]
      simp [withRow, ValueRow.group]

/-- The statement for one row. -/
theorem Opens.withRow (h : Opens a table columns) {items : List Item} (hne : items ≠ [])
    (hitems : ∀ i ∈ items, i.Proper) (htail : NoRow tail) :
    ∃ j, ofText? (withRow a items tail) = some j ∧ j.table = table ∧
      j.columns = columns ∧ j.groups = [rowSpan a items] := by
  have hlisted : Listed [⟨[], items⟩] := by
    refine ⟨?_, by simp [Behind]⟩
    rintro r ⟨⟩
    exact ⟨⟨hne, hitems⟩, rfl⟩
  have htext : Verify.withRow a items tail = a ++ (rowsText [⟨[], items⟩] ++ tail) := by
    simp [Verify.withRow, rowsText, ValueRow.text, ValueRow.group]
  refine ⟨_, by rw [htext, h _ _ (by simp) hlisted htail], rfl, rfl, ?_⟩
  simp only [groupsAt, Verify.rowSpan, ValueRow.size_text]
  congr 2
  show a.size + (0 + (1 + (written items).size + 1)) = _
  omega

/-- Verifying the statements for rows puts the wanted texts into each. -/
theorem getElem?_rows {template : Text} (params : List Param) (hopens : Opens a table columns)
    (htail : NoRow tail) {i : Insertion} (hi : ofText? template = some i)
    (hlen : i.groups.length = rows.length) {group : Span} {r : ValueRow}
    (hgroup : i.groups[n]? = some group) (hr : rows[n]? = some r) (hproper : r.Proper)
    (hcount : (entries template group).length = r.items.length) :
    (Verify.rows (Verify.expected template params) template
      (rows.map fun r => Verify.withRow a r.items tail))[n]?
      = some (Verify.withRow a
        (Verify.restored (Verify.expected template params) (entries template group) r.items)
          tail) := by
  obtain ⟨j, hj, -, -, hgroups⟩ := hopens.withRow hproper.ne hproper.items htail
  rw [rows_of_shape hi (by rw [length_map, hlen]), getElem?_zipWith, hgroup, getElem?_map, hr]
  exact congrArg some (row_withRow hproper.ne hproper.items hj hgroups hcount)

/-- What a value that was a placeholder alone reads once its row is verified. -/
theorem exists_restored {template a table tail : Text} {columns : List Text} {params : List Param}
    (hopens : Opens a table columns) (htail : NoRow tail) {issued : List Span} {items : List Item}
    (hne : items ≠ []) (hitems : ∀ i ∈ items, i.Proper) (hcount : issued.length = items.length)
    {k : Nat} {p : Placeholder} {param : Param} {x : Item}
    (hgiven : (p, some param) ∈ Placeholder.assign (Placeholder.all template) params)
    (halone : p.inline = false) (hplace : issued[k]? = some p.span) (hx : items[k]? = some x) :
    let m := withRow a (restored (expected template params) issued items) tail
    ∃ j g now, ofText? m = some j ∧ j.table = table ∧ j.columns = columns ∧ j.groups = [g] ∧
      (entries m g)[k]? = some now ∧
      m.slice now = if isExempt param then x.core else param.render p.spec false := by
  intro m
  have hlen := length_restored (expected template params) hcount
  have hproper := proper_restored template params issued hitems
  have hne' : restored (expected template params) issued items ≠ [] := by
    rw [← length_pos_iff, hlen]
    exact length_pos_iff.2 hne
  obtain ⟨j, hj, htable, hcolumns, hgroups⟩ := hopens.withRow hne' hproper htail
  have hk : k < (cores (a.size + 1) (restored (expected template params) issued items)).length := by
    rw [length_cores, hlen]
    exact (List.getElem?_eq_some_iff.1 hx).1
  have hnow := getElem?_eq_getElem hk
  obtain ⟨y, hy, hslice⟩ := slice_entry_restored tail hplace hnow
  obtain rfl : y = x := some.inj (hy.symm.trans hx)
  refine ⟨j, _, _, hj, htable, hcolumns, hgroups, ?_, hslice.trans ?_⟩
  · rw [entries_withRow a tail hne' hproper, hnow]
  · rw [want_of_mem_assign hgiven halone]
    split <;> rfl

/-! ### Taking off what follows the rows -/

theorem cut_append_cons {l : Text} {y : Char} (h : l ++ y :: r = u ++ x :: z) (hne : y ≠ x) :
    (∃ m, l = u ++ x :: m) ∨ ∃ v, u = l ++ y :: v ∧ r = v ++ x :: z := by
  rcases append_cons_eq_append h.symm with ⟨m, hl, -⟩ | ⟨v, hu, hr⟩
  · exact .inl ⟨m, hl⟩
  · cases v with
    | nil => exact absurd (cons.inj hr).1 hne
    | cons c v =>
      obtain ⟨rfl, hrest⟩ := cons.inj hr
      exact .inr ⟨v, hu, hrest⟩

theorem getLast?_rowsText (h : rows ≠ []) : (rowsText rows).getLast? = some ')' := by
  rw [← dropLast_concat_getLast h, rowsText_append, rowsText_cons]
  have hnil : rowsText [] = [] := rfl
  rw [ValueRow.text, ValueRow.group, ← cons_append, hnil, append_nil, ← append_assoc,
    ← append_assoc, getLast?_concat]

theorem mask_append_rows (ha : Closed a) (hne : rows ≠ []) (h : Listed rows) (tail : Text) :
    mask (a ++ (rowsText rows ++ tail)) = mask a ++ mask (rowsText rows ++ tail) := by
  obtain ⟨r, rows, rfl⟩ := exists_cons_of_ne_nil hne
  have hlead := (h.first r rfl).2
  refine mask_append ha ?_
  rw [rowsText_cons, ValueRow.text, hlead]
  exact apart_code (by decide)

/-- What may stand between rows. -/
def isBetween (c : Char) : Bool := c == ',' || isAsciiBlank c

theorem Separates.isBetween (h : Separates t) : ∀ c ∈ t, isBetween c := by
  obtain ⟨x, y, rfl, hx, hy⟩ := h
  intro c hc
  rcases mem_append.1 hc with hc | hc
  · simp [isBetween, hx c hc]
  · rcases mem_cons.1 hc with rfl | hc
    · rfl
    · simp [isBetween, hy c hc]

theorem Listed.between (h : Listed rows) : ∀ r ∈ rows, r.Proper ∧ ∀ c ∈ r.lead, isBetween c := by
  cases rows with
  | nil => simp
  | cons r rows =>
    intro x hx
    rcases mem_cons.1 hx with rfl | hx
    · obtain ⟨hproper, hlead⟩ := h.first x rfl
      exact ⟨hproper, by simp [hlead]⟩
    · obtain ⟨hproper, hlead⟩ := h.others x hx
      exact ⟨hproper, hlead.isBetween⟩

theorem plain_of_isBetween (h : isBetween c) :
    isQuote c = false ∧ c ≠ '(' ∧ c ≠ ')' ∧ c.toLower ≠ 'o' := by
  simp only [isBetween, isAsciiBlank, Bool.or_eq_true, beq_iff_eq] at h
  rcases h with rfl | (((rfl | rfl) | rfl) | rfl) | rfl <;> decide

/-- A letter of a clause behind the rows, if it is not inside parentheses, stands behind the
rows. -/
theorem cut_rows (h : ∀ r ∈ rows, r.Proper ∧ ∀ c ∈ r.lead, isBetween c) (hx : x.toLower = 'o')
    (hcut : mask (rowsText rows ++ tail) = u ++ x :: z) :
    (∀ d, 0 < u.foldl step d) ∨ ∃ v, u.size = (rowsText rows).size + size v ∧
      mask tail = v ++ x :: z := by
  induction rows generalizing u with
  | nil => exact .inr ⟨u, by simp [rowsText], hcut⟩
  | cons r rows ih =>
    obtain ⟨hr, hlead⟩ := h r (by simp)
    have hlevel := level_written hr.items
    have hflat (d : Nat) : r.lead.foldl step d = d := foldl_step_of_level?
      (level?_of_no_paren (fun c hc => ⟨(plain_of_isBetween (hlead c hc)).2.1,
        (plain_of_isBetween (hlead c hc)).2.2.1⟩) d)
    rw [rowsText_cons, append_assoc,
      mask_row hr.items fun c hc => (plain_of_isBetween (hlead c hc)).1] at hcut
    have hopen : '(' ≠ x := by
      rintro rfl
      exact absurd hx (by decide)
    have hclose : ')' ≠ x := by
      rintro rfl
      exact absurd hx (by decide)
    rcases cut_append_cons hcut hopen with ⟨m, hm⟩ | ⟨v, rfl, hgroup⟩
    · exact absurd hx (plain_of_isBetween (hlead x (by simp [hm]))).2.2.2
    · rcases cut_append_cons hgroup hclose with ⟨m, hm⟩ | ⟨v, rfl, hrest⟩
      · -- inside the group the depth never falls to where the group starts
        refine .inl fun d => ?_
        rw [hm] at hlevel
        rw [foldl_append, hflat]
        exact Nat.zero_lt_of_lt (lt_foldl_step hlevel d)
      · rcases ih (forall_mem_cons.1 h).2 hrest with hdeep | ⟨w, hsize, htail⟩
        · refine .inl fun d => ?_
          simp only [foldl_append, foldl_cons]
          exact hdeep _
        · refine .inr ⟨w, ?_, htail⟩
          have hone : '('.utf8Size = 1 ∧ ')'.utf8Size = 1 := ⟨rfl, rfl⟩
          rw [rowsText_cons, size_append (a := r.text), ValueRow.size_text, size_append, size_cons,
            size_append, size_cons, size_mask]
          omega

/-- The front of a text that no row starts is none that a row starts. -/
theorem NoRow.of_append (h : NoRow (t ++ u)) : NoRow t := by
  rw [noRow_iff] at h ⊢
  rintro ⟨s, r, rfl, hsep⟩
  exact h ⟨s, r ++ u, by simp, hsep⟩

theorem NoRow.trimEnd {b : Text} (h : NoRow (b ++ r)) : NoRow b.trimEnd := by
  obtain ⟨w, hw, -, -⟩ := exists_dropEnd isBlank b
  rw [hw, append_assoc] at h
  exact h.of_append

/-- Taking off a clause for duplicate keys leaves the rows as they are. -/
theorem exists_of_split? (ha : Closed a) (hopens : Opens a table columns) (hne : rows ≠ [])
    (h : Listed rows) (htail : NoRow tail) {catalog : Catalog} {head : Text} {updates : List Text}
    (hsplit : DuplicateKey.split? catalog (a ++ (rowsText rows ++ tail)) = some (head, updates)) :
    ∃ tail', head = a ++ (rowsText rows ++ tail') ∧ NoRow tail' := by
  have hread := hopens rows tail hne h htail
  obtain ⟨clause, hclause, i, hi, ⟨⟩, hguard, hsplit⟩ := of_bind₃ hsplit
  obtain ⟨_, -, _, -, _, -, hsplit⟩ := of_bind₃ hsplit
  obtain ⟨rfl, -⟩ := Prod.mk.inj (some.inj hsplit)
  obtain ⟨p, w, c, d, hmask, -, -, rfl, hlower, -, hdepth⟩ :=
    Keyword.exists_of_mem_topPhrases (mem_of_mem_head? hclause)
  have hword : w.map Char.toLower = ['o', 'n'] := hlower
  obtain ⟨x, w, rfl, hx, -⟩ := map_eq_cons_iff.1 hword
  have hquote : isQuote x = false :=
    sees_toLower.no_quote (show [x].map Char.toLower = ['o'].map Char.toLower by simp [hx])
      (by decide) x (by simp)
  have hfiller : x ≠ filler := by
    rintro rfl
    cases hx
  rw [mask_append_rows ha hne h] at hmask
  rcases append_cons_eq_append hmask.symm with ⟨m, hm, -⟩ | ⟨v, rfl, hrows⟩
  · -- rows in front of the clause would be the first rows of the whole statement
    exfalso
    obtain ⟨p, r, rfl, -, rfl, -⟩ := exists_code hm hquote hfiller
    have hgroups : i.groups ≠ [] := by
      intro hnil
      simp [hnil, guard] at hguard
    rw [append_assoc, size_mask, before_size_append] at hi
    obtain ⟨g, gs, hg⟩ := exists_cons_of_ne_nil hgroups
    obtain ⟨a', body, tail', hhead, -, hbody, hlevel, -, -, hagain⟩ := ofText?_front hi hg
    obtain ⟨blanks, hblanks, -, -⟩ := exists_dropEnd isBlank p
    have hwhole : p ++ x :: r ++ (rowsText rows ++ tail) = a' ++ '(' :: (body ++ ')' ::
        (tail' ++ (blanks ++ x :: r ++ (rowsText rows ++ tail)))) := by
      rw [← trimEnd, hhead] at hblanks
      conv => lhs; rw [hblanks]
      simp
    rw [hwhole, hagain body _ hbody hlevel] at hread
    obtain ⟨gs', -, heq⟩ := map_eq_some_iff.1 hread
    obtain ⟨first, rows, rfl⟩ := exists_cons_of_ne_nil hne
    have hstart : a'.size = size (p ++ x :: r) + first.lead.size :=
      congrArg Span.start (cons.inj (congrArg groups heq)).1
    have hsize := congrArg size hblanks
    rw [← trimEnd, hhead, size_append, size_append] at hsize
    rw [size_append] at hstart
    have hx := Char.utf8Size_pos x
    rw [size_cons] at hstart
    omega
  · rcases cut_rows h.between hx hrows with hdeep | ⟨u, hsize, htailcut⟩
    · rw [depth, foldl_append] at hdepth
      exact absurd hdepth (Nat.ne_of_gt (hdeep _))
    · obtain ⟨b, r, rfl, hb, rfl, -⟩ := exists_code htailcut hquote hfiller
      refine ⟨b.trimEnd, ?_, htail.trimEnd⟩
      have hcut : size (mask a ++ v) = size (a ++ rowsText rows ++ b) := by
        rw [size_append, hsize, size_mask, size_mask, size_append, size_append, Nat.add_assoc]
      have hlast : ∀ c, (a ++ rowsText rows).getLast? = some c → isBlank c = false := by
        intro c hc
        rw [getLast?_append, getLast?_rowsText hne] at hc
        cases hc
        decide
      have hsplit : a ++ (rowsText rows ++ (b ++ x :: r)) = a ++ rowsText rows ++ b ++ x :: r := by
        simp
      rw [hcut, hsplit, before_size_append, trimEnd, dropEnd_append_of_last hlast, append_assoc]
      rfl

end Insertion

end Recast
