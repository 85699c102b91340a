import Recast.Proofs.CheckedClauses
import Recast.Proofs.KeyUpdates

/-!
# Rows with checked cuts

The passes over the value groups of an INSERT, and the verification of bound values at the end. Here
lists are read by index as well: a row has as many values as there are columns, so whatever place a
column has among the columns is one that the row has too.
-/

namespace Recast

open Literal Cursor List Text
open Option hiding guard

variable {t : Text} {group : Span} {columns values : List Text}

namespace Checked

/-! ### Dates that are not given -/

namespace ZeroDate

def editsIn (t : Text) (catalog : Catalog) (clock : Clock) (i : Insertion) (group : Span) :
    Check (List Edit) := do
  gather (i.columns.zip (← Insertion.entries t group)) fun (column, entry) => do
    let value ← slice t entry
    if ZeroDate.isDate catalog i.table column && ZeroDate.isZero value then
      return ⟨entry, Literal.quote (clock.now (ZeroDate.isUniversal column))⟩
    else failure

def filled? (catalog : Catalog) (clock : Clock) (t : Text) : Search Text := do
  let i ← Insertion.ofText? t
  let edits ← (i.groups.mapM (editsIn t catalog clock i) : Check (List (List Edit)))
  Edit.applyAll t edits.flatten

/-- The dates of a row are looked up at places that the row has. -/
theorem editsIn_eq (catalog : Catalog) (clock : Clock) (i : Insertion)
    (h : Insertion.Held t group) :
    editsIn t catalog clock i group = .ok (Recast.ZeroDate.editsIn t catalog clock i group) := by
  rw [editsIn, h.entries_eq]
  refine gather_eq ?_
  rintro ⟨column, entry⟩ hentry
  refine .of_check (h.part_of_mem_entries (of_mem_zip hentry).2).slice_eq ?_
  exact .ite (fun _ => finds_pure _) fun _ => finds_failure

theorem filled?_finds (catalog : Catalog) (clock : Clock) (t : Text) :
    Finds (filled? catalog clock t) (Recast.ZeroDate.filled? catalog clock t) := by
  refine (Insertion.ofText?_finds t).bind fun i hi => ?_
  refine .of_check
    (mapM_eq fun g hg => editsIn_eq catalog clock i (Insertion.held_of_ofText? hi hg)) ?_
  exact finds_check (Edit.applyAll_eq t _)

end ZeroDate

/-! ### ON DUPLICATE KEY UPDATE -/

namespace DuplicateKey

def assignment? (item : Text) : Search DuplicateKey.Assignment := do
  let n ← (mask item).find? (· == '=')
  return ⟨unquote (← before item n), trim (← after item (n + 1))⟩

/-- An equals sign that the mask shows is one of the text. -/
theorem assignment?_finds (item : Text) :
    Finds (assignment? item) (Recast.DuplicateKey.assignment? item) := by
  refine .of_option fun n hn => ?_
  obtain ⟨a, c, b, hm, -, hc, rfl⟩ := findFrom?_eq_some.1 hn
  obtain rfl : c = '=' := by simpa using hc
  have hfront : item.isBoundary (size a) :=
    isBoundary_of_edge hm (.inr (by simp; decide))
  have hbehind : item.isBoundary (size (a ++ ['='])) :=
    isBoundary_of_edge (b := b) (by rw [hm]; simp) (.inl (by simp; decide))
  rw [size_append] at hbehind
  rw [Nat.zero_add]
  exact .of_check (before_eq hfront) (.of_check (after_eq hbehind) (finds_pure _))

def resolve? (columns values : List Text) (expr : Text) : Search Text := do
  let refs := (Cursor.start (mask expr)).findAll DuplicateKey.valueRef?
  let edits ← refs.mapM fun (whole, name) => do
    let text ← slice expr name
    let n ← columns.findIdx? fun c => c.same (unquote text)
    let value ← (get values n : Check Text)
    return (⟨whole, value⟩ : Edit)
  Edit.applyAll expr edits

/-- The name in a reference to a value is a part. -/
theorem part_of_valueRef? {c d : Cursor} {whole name : Span} (hc : At (mask t) c)
    (h : Recast.DuplicateKey.valueRef? c = some ((whole, name), d)) : Part t name := by
  obtain ⟨_, -, e, he, f, hf, h⟩ := of_bind₃ h
  obtain ⟨g, hg, k, -, h⟩ := of_bind₂ h
  cases h
  have hinside : At (mask t) f.blanks := (((hc.word? he).skipWhile _).sign? hf).skipWhile _
  have hstart : f.blanks.Edge := (edge_of_sign? (by decide) hf).2.skipWhile _
  obtain ⟨w, hw, -⟩ := some?_reads hg
  exact part_of_edges hinside hstart hw (edge_of_some? hg)

/-- A row with a value for each column has one for the column that is referred to. -/
theorem resolve?_finds (hlength : values.length = columns.length) (expr : Text) :
    Finds (resolve? columns values expr) (Recast.DuplicateKey.resolve? columns values expr) := by
  refine Finds.bind (.mapM ?_) fun edits _ => finds_check (Edit.applyAll_eq expr _)
  rintro ⟨whole, name⟩ hmem
  obtain ⟨c, d, hc, h⟩ := at_of_mem_findAll hmem
  refine .of_check (part_of_valueRef? hc h).slice_eq (.of_option fun n hn => ?_)
  have hlt : n < values.length := hlength ▸ (findIdx?_eq_some_iff_getElem.1 hn).1
  obtain ⟨value, hvalue, hget⟩ := get_eq hlt
  rw [hvalue]
  exact .of_check hget (finds_pure _)

def update? (table : Text) (columns : List Text) (key : Nat)
    (assignments : List DuplicateKey.Assignment) (values : List Text) : Search Text := do
  guard (values.length = columns.length)
  let sets ← assignments.mapM fun a => do
    return a.column ++ " = " ++ (← resolve? columns values a.expr)
  let column ← (get columns key : Check Text)
  let value ← (get values key : Check Text)
  return "UPDATE " ++ table ++ " SET " ++ join ", " sets ++ " WHERE " ++ column ++ " = " ++ value

/-- The key is one of the columns, so the row has a value for it. -/
theorem update?_finds (table : Text) {key : Nat} (hkey : columns ≠ [] → key < columns.length)
    (assignments : List DuplicateKey.Assignment) (hvalues : values ≠ []) :
    Finds (update? table columns key assignments values)
      (Recast.DuplicateKey.update? table columns key assignments values) := by
  refine .of_guard fun hlength => ?_
  have hlt : key < columns.length := hkey fun hnil => hvalues (by simpa [hnil] using hlength)
  obtain ⟨column, hcolumn, hget⟩ := get_eq hlt
  obtain ⟨value, hvalue, hget'⟩ := get_eq (hlength ▸ hlt)
  refine Finds.bind (.mapM fun a _ => (resolve?_finds hlength a.expr).bind fun r _ => finds_pure _)
    fun sets _ => ?_
  rw [hcolumn, hvalue]
  exact .of_check hget (.of_check hget' (finds_pure _))

def split? (catalog : Catalog) (t : Text) : Search (Text × List Text) := do
  let clause ← Keyword.findTop? (mask t) ["ON", "DUPLICATE", "KEY", "UPDATE"] 0
  let head := trimEnd (← before t clause.start)
  let i ← Insertion.ofText? head
  guard (!i.groups.isEmpty)
  let columns ← DuplicateKey.columns? catalog i
  let rest ← after t clause.stop
  let items ← Nesting.parts (dropEnd (· == ';') (trim rest))
  let assignments ← items.mapM assignment?
  let updates ← i.groups.mapM fun g => do
    let values ← Insertion.values head g
    update? i.table columns (DuplicateKey.keyIn catalog i.table columns) assignments values
  return (head, updates)

/-- The clause is cut off, and each row read by the columns. -/
theorem split?_finds (catalog : Catalog) (t : Text) :
    Finds (split? catalog t) (Recast.DuplicateKey.split? catalog t) := by
  refine .of_option fun clause hclause => ?_
  obtain ⟨hstart, hstop⟩ := Keyword.free_of_findTop? (by decide) hclause
  refine .of_check (before_eq hstart.outside.isBoundary) ?_
  refine (Insertion.ofText?_finds _).bind fun i hi => .of_guard fun _ =>
    .of_option fun columns _ => ?_
  refine .of_check (after_eq hstop.isBoundary) (.of_check (Nesting.parts_eq _) ?_)
  refine Finds.bind (.mapM fun item _ => assignment?_finds item) fun assignments _ => ?_
  refine Finds.bind (.mapM fun g hg => ?_) fun updates _ => finds_pure _
  refine .of_check (Insertion.held_of_ofText? hi hg).values_eq ?_
  exact update?_finds i.table (fun hne => Recast.DuplicateKey.keyIn_lt hne catalog i.table)
    assignments (Recast.DuplicateKey.values_ne_nil _ g)

def apply (d : Draft) : Check Draft := do
  return match ← (split? d.catalog d.text).run with
    | some (head, updates) =>
      { d with
        text := head
        following := d.following ++ updates.map fun sql => ⟨sql, .always⟩ }
    | none => d

theorem apply_eq (d : Draft) : apply d = .ok (Recast.DuplicateKey.apply d) := by
  rw [apply, (split?_finds d.catalog d.text).run_eq]
  rfl

end DuplicateKey

/-! ### One statement for each row -/

namespace RowSplit

def statements (t : Text) : Check (List Text) := do
  match ← (Insertion.ofText? t).run with
  | some { groups := first :: second :: others, tail, .. } =>
    (first :: second :: others).mapM fun g => do
      return (← before t first.start) ++ (← slice t g) ++ (← after t tail)
  | _ => return [t]

/-- What follows the rows starts at a boundary. -/
theorem isBoundary_tail {i : Insertion} (h : Recast.Insertion.ofText? t = some i)
    (hne : i.groups ≠ []) : t.isBoundary i.tail := by
  obtain ⟨-, _, _, _, _, -, -, -, -, -, htail⟩ := (Recast.Insertion.ofText?_eq_some hne).1 h
  obtain ⟨groups, g, hg⟩ := (eq_nil_or_concat' i.groups).resolve_left hne
  have hlast : g ∈ i.groups := by rw [hg]; simp
  rw [htail, hg, getLast?_concat]
  exact (Insertion.held_of_ofText? h hlast).whole.stop

/-- Each row is put between what stands around the rows. -/
theorem statements_eq (t : Text) : statements t = .ok (Recast.RowSplit.statements t) := by
  rw [statements, (Insertion.ofText?_finds t).run_eq, Recast.RowSplit.statements]
  cases h : Recast.Insertion.ofText? t with
  | none => rfl
  | some i =>
    obtain ⟨table, columns, groups, tail⟩ := i
    rcases groups with _ | ⟨first, _ | ⟨second, others⟩⟩
    · rfl
    · rfl
    · refine mapM_eq fun g hg => ?_
      have hfirst := (Insertion.held_of_ofText? h (g := first) (by simp)).whole.start
      rw [before_eq hfirst, (Insertion.held_of_ofText? h hg).whole.slice_eq, ok_bind,
        after_eq (isBoundary_tail h (by simp))]
      rfl

end RowSplit

/-! ### Verifying bound values -/

namespace Verify

def expected (template : Text) (params : List Param) : Check (List Verify.Expected) := do
  return (Placeholder.assign (← Placeholder.all template) params).filterMap Verify.Expected.of?

def restore? (wanted : List Verify.Expected) (t : Text) (issued now : Span) : Search Edit := do
  let e ← wanted.find? fun e => e.place == issued
  let value ← slice t now
  guard (value != e.text && !e.exempt)
  return ⟨now, e.text⟩

def restore (wanted : List Verify.Expected) (t : Text) (issued now : List Span) : Check Text :=
  if issued.length = now.length then do
    Edit.applyAll t (← gather (issued.zip now) fun (a, b) => restore? wanted t a b)
  else return t

/-- What the values of a template have to read is found without a breach. -/
theorem expected_eq (template : Text) (params : List Param) :
    expected template params = .ok (Recast.Verify.expected template params) := by
  rw [expected, Placeholder.all_eq]
  rfl

/-- Values are put back at parts of the statement. -/
theorem restore_eq (wanted : List Verify.Expected) (issued : List Span) {now : List Span}
    (h : ∀ s ∈ now, Part t s) :
    restore wanted t issued now = .ok (Recast.Verify.restore wanted t issued now) := by
  refine ok_ite (fun _ => ?_) fun _ => rfl
  rw [gather_eq (g := fun (a, b) => Recast.Verify.restore? wanted t a b)]
  · exact Edit.applyAll_eq t _
  · rintro ⟨a, b⟩ hab
    refine .of_option fun e _ => .of_check (h b (of_mem_zip hab).2).slice_eq ?_
    exact .of_guard fun _ => finds_pure _

def row (wanted : List Verify.Expected) (template : Text) (group : Span) (t : Text) :
    Check Text := do
  match ← (Insertion.ofText? t).run with
  | some { groups := [g], .. } =>
    restore wanted t (← Insertion.entries template group) (← Insertion.entries t g)
  | _ => return t

def rows (wanted : List Verify.Expected) (template : Text) (main : List Text) :
    Check (List Text) := do
  match ← (Insertion.ofText? template).run with
  | some i =>
    if i.groups.length = main.length then
      (i.groups.zip main).mapM fun (g, t) => row wanted template g t
    else return main
  | none => return main

/-- A statement with one row is compared with that row of the template. -/
theorem row_eq (wanted : List Verify.Expected) {template : Text} (h : Insertion.Held template group)
    (t : Text) : row wanted template group t = .ok (Recast.Verify.row wanted template group t) := by
  rw [row, (Insertion.ofText?_finds t).run_eq, ok_bind, Recast.Verify.row]
  cases hi : Recast.Insertion.ofText? t with
  | none => rfl
  | some i =>
    obtain ⟨table, columns, groups, tail⟩ := i
    rcases groups with _ | ⟨g, _ | ⟨_, _⟩⟩
    · rfl
    · have hg := Insertion.held_of_ofText? hi (g := g) (by simp)
      dsimp only
      rw [h.entries_eq, hg.entries_eq, ok_bind]
      exact restore_eq wanted _ fun s hs => hg.part_of_mem_entries hs
    · rfl

/-- The statements are compared with the rows of the template. -/
theorem rows_eq (wanted : List Verify.Expected) (template : Text) (main : List Text) :
    rows wanted template main = .ok (Recast.Verify.rows wanted template main) := by
  rw [rows, (Insertion.ofText?_finds template).run_eq, Recast.Verify.rows]
  cases hi : Recast.Insertion.ofText? template with
  | none => rfl
  | some i =>
    refine ok_ite (fun _ => mapM_eq ?_) fun _ => rfl
    rintro ⟨g, t⟩ hmem
    exact row_eq wanted (Insertion.held_of_ofText? hi (of_mem_zip hmem).1) t

def setValue (t masked : Text) (s : Span) : Check Span := do
  let item ← slice masked s
  let start := match item.find? (· == '=') with
    | some n => s.start + n + 1
    | none => s.start
  trimSpan t ⟨start, s.stop⟩

def setValues? (t : Text) : Search (List Span) := do
  let masked := mask t
  let set ← Keyword.findTop? masked ["SET"] 0
  let stop := match Keyword.findTop? masked ["WHERE"] set.stop with
    | some s => s.start
    | none => t.size
  let region ← slice t ⟨set.stop, stop⟩
  let items := (Nesting.splitTop region ',').map fun s => s.shift set.stop
  (items.mapM (setValue t masked) : Check (List Span))

/-- Between SET and its end each value starts behind an equals sign outside literals. -/
theorem mapM_setValue {start stop : Nat} (hstart : Outside (mask t) start)
    (hstop : Outside (mask t) stop) (hle : start ≤ stop) :
    let items := (Nesting.splitTop (t.slice ⟨start, stop⟩) ',').map fun s => s.shift start
    items.mapM (setValue t (mask t)) = .ok (items.map fun s =>
      t.trimSpan ⟨match ((mask t).slice s).find? (· == '=') with
        | some n => s.start + n + 1
        | none => s.start, s.stop⟩) := by
  refine mapM_eq fun s hs => ?_
  obtain ⟨item, hitem, rfl⟩ := mem_map.1 hs
  obtain ⟨-, horder, -, hfirst, hlast⟩ :=
    Recast.Verify.exists_of_mem_splitTop hstart hstop hle hitem
  have hpart : Part t (item.shift start) := part_of_outside hfirst hlast horder
  rw [setValue, hpart.mask.slice_eq]
  refine Part.trimSpan_eq ?_
  cases hequals : ((mask t).slice (item.shift start)).find? (· == '=') with
  | none => exact hpart
  | some n =>
    obtain ⟨hvalue, hle'⟩ := Recast.Verify.outside_of_equals hfirst hlast horder hequals
    exact part_of_outside hvalue hlast hle'

/-- The list of a SET ends at the WHERE or with the text. -/
theorem setValues?_finds (t : Text) : Finds (setValues? t) (Recast.Verify.setValues? t) := by
  refine .of_option fun set hset => ?_
  have hstart := (Keyword.free_of_findTop? (by decide) hset).2
  have hregion {stop : Nat} (hstop : Outside (mask t) stop) (hle : set.stop ≤ stop) :
      Part t ⟨set.stop, stop⟩ :=
    part_of_outside hstart hstop hle
  cases hwhere : Keyword.findTop? (mask t) ["WHERE"] set.stop with
  | none =>
    have hend : Outside (mask t) t.size := .inr (size_mask t).symm
    have hle := le_size_of_isBoundary hstart.isBoundary
    exact .of_check (hregion hend hle).slice_eq (finds_check (mapM_setValue hstart hend hle))
  | some s =>
    have hend := (Keyword.free_of_findTop? (by decide) hwhere).1.outside
    have hle : set.stop ≤ s.start := (part_of_findTop? hwhere).2.le
    exact .of_check (hregion hend hle).slice_eq (finds_check (mapM_setValue hstart hend hle))

theorem part_of_mem_setValues {spans : List Span} (h : Recast.Verify.setValues? t = some spans)
    {s : Span} (hs : s ∈ spans) : Part t s := by
  obtain ⟨set, n, m, -, -, hle, hn, hm, rfl, -⟩ := Recast.Verify.exists_of_mem_setValues h hs
  exact (part_of_outside (s := ⟨n, m⟩) hn hm hle).trimSpan

def update (wanted : List Verify.Expected) (template t : Text) : Check Text := do
  match ← (setValues? template).run, ← (setValues? t).run with
  | some issued, some now => restore wanted t issued now
  | _, _ => return t

/-- An UPDATE is compared with its template. -/
theorem update_eq (wanted : List Verify.Expected) (template t : Text) :
    update wanted template t = .ok (Recast.Verify.update wanted template t) := by
  rw [update, (setValues?_finds template).run_eq, (setValues?_finds t).run_eq, ok_bind,
    Recast.Verify.update]
  cases Recast.Verify.setValues? template with
  | none => rfl
  | some issued =>
    cases hnow : Recast.Verify.setValues? t with
    | none => rfl
    | some now => exact restore_eq wanted issued fun s hs => part_of_mem_setValues hnow hs

def apply (d : Draft) (main : List Text) : Check (List Text) := do
  let wanted ← expected d.template d.params
  match d.kind with
  | .insert => rows wanted d.template main
  | .update => main.mapM (update wanted d.template)
  | _ => return main

theorem apply_eq (d : Draft) (main : List Text) :
    apply d main = .ok (Recast.Verify.apply d main) := by
  rw [apply, expected_eq, Recast.Verify.apply]
  cases d.kind with
  | insert => exact rows_eq _ _ _
  | update => exact mapM_eq fun t _ => update_eq _ _ t
  | _ => rfl

end Verify

end Checked

end Recast
