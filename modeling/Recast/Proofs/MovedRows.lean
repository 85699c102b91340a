import Mathlib.Data.List.Perm.Basic
import Recast.Pass.Identity
import Recast.Proofs.Reading

/-!
# Rows under new numbers

A statement that gives a row another number becomes a copy of the row and a deletion. Here the three
statements run on tables: a table is a list of rows, and a row gives every column a value. The copy
and the deletion leave the rows that the update leaves, up to their order, unless the new number is
the old one, for then the deletion takes the copy with it (`moveRow?_rows_perm_iff`).
-/

namespace Recast

open List Text
open Option hiding guard

namespace Identity

open Cursor

/-! ### Tables -/

/-- A row gives each column of its table a value. The case of letters does not matter in the name of
a column. -/
def StoredRow (columns : List Text) (V : Type) : Type := {n : Text // n ∈ columns.map lower} → V

variable {columns : List Text} {V : Type}

namespace StoredRow

def set (row : StoredRow columns V) (column : Text) (v : V) : StoredRow columns V :=
  fun n => if n.1 = column.lower then v else row n

variable [DecidableEq V]

def has (row : StoredRow columns V) (column : Text) (v : V) : Bool :=
  if h : column.lower ∈ columns.map lower then row ⟨column.lower, h⟩ == v else false

theorem has_congr (row : StoredRow columns V) {a b : Text} (h : a.same b) (v : V) :
    row.has a v = row.has b v := by
  have hlower : a.lower = b.lower := eq_of_beq h
  simp only [has, hlower]

theorem has_set {row : StoredRow columns V} {column : Text} (h : column.lower ∈ columns.map lower)
    (v w : V) : (row.set column v).has column w = (v == w) := by
  rw [has, dif_pos h, set, if_pos rfl]

theorem mem_of_has {row : StoredRow columns V} {column : Text} {v : V} (h : row.has column v) :
    column.lower ∈ columns.map lower := by
  by_contra hmem
  rw [has, dif_neg hmem] at h
  cases h

end StoredRow

/-! ### Statements -/

/-- What a copy puts into a column: a number, or the value of a column. -/
inductive Source
  | number (digits : Text)
  | column (name : Text)
deriving DecidableEq, Repr

/-- The statement that adds a copy of each row of a table that has a number in a column. -/
structure Copy where
  table : Text
  entries : List (Text × Source)
  whereColumn : Text
  source : Text

/-- The statement that removes each row of a table that has a number in a column. -/
structure Deletion where
  table : Text
  whereColumn : Text
  source : Text

namespace Source

def text : Source → Text
  | number digits => digits
  | column name => name

end Source

def Copy.text (c : Copy) : Text :=
  "INSERT INTO " ++ c.table ++ " (" ++ join "," (c.entries.map Prod.fst) ++ ") SELECT "
    ++ join "," (c.entries.map fun e => e.2.text) ++ " FROM " ++ c.table ++ " WHERE " ++
      c.whereColumn
    ++ " = " ++ c.source

def Deletion.text (d : Deletion) : Text :=
  "DELETE " ++ d.table ++ " WHERE " ++ d.whereColumn ++ " = " ++ d.source

/-- The statement that copies rows under another number. -/
def Renumbering.copy (r : Renumbering) (identity : Text) (columns : List Text) : Copy where
  table := r.table
  entries := columns.map fun c => (c, if c.same identity then .number r.target else .column c)
  whereColumn := identity
  source := r.source

def Renumbering.deletion (r : Renumbering) (identity : Text) : Deletion :=
  ⟨r.table, identity, r.source⟩

/-! ### What statements do -/

section Run

variable [DecidableEq V]

/-- How the server reads numbers, and what it puts where nothing is given. -/
structure Values (V : Type) where
  number : Text → V
  null : V

variable (m : Values V)

def Source.value (row : StoredRow columns V) : Source → V
  | number digits => m.number digits
  | column name => if h : name.lower ∈ columns.map lower then row ⟨name.lower, h⟩ else m.null

/-- The copy of a row: a column gets what stands beside it in the statement. -/
def Copy.row (c : Copy) (row : StoredRow columns V) : StoredRow columns V :=
  fun n => match c.entries.find? fun e => e.1.lower == n.1 with
    | some e => e.2.value m row
    | none => m.null

/-- The rows with the copies behind them. -/
def Copy.run (c : Copy) (rows : List (StoredRow columns V)) : List (StoredRow columns V) :=
  rows ++ (rows.filter (·.has c.whereColumn (m.number c.source))).map (c.row m)

/-- The rows that are left. -/
def Deletion.run (d : Deletion) (rows : List (StoredRow columns V)) : List (StoredRow columns V) :=
  rows.filter fun row => !row.has d.whereColumn (m.number d.source)

/-- The rows with another number in those that have the old one. -/
def Renumbering.run (r : Renumbering) (rows : List (StoredRow columns V)) :
    List (StoredRow columns V) :=
  rows.map fun row =>
    if row.has r.whereColumn (m.number r.source) then row.set r.setColumn
      (m.number r.target) else row

end Run

/-! ### The update -/

def IsGap (g : Text) : Prop := g ≠ [] ∧ ∀ c ∈ g, isBlank c = true

/-- The written form of a name, with brackets or without. -/
def IsName (x name : Text) : Prop := x ≠ [] ∧ (∀ c ∈ x, isBracketedName c = true) ∧ name = unquote x

/-- A name, an equals sign and a number, with blanks between them or without. -/
def IsEquation (s column number : Text) : Prop :=
  ∃ x g g', s = x ++ (g ++ ('=' :: (g' ++ number))) ∧ IsName x column ∧
    (∀ c ∈ g, isBlank c = true) ∧
    (∀ c ∈ g', isBlank c = true) ∧ number ≠ [] ∧ ∀ c ∈ number, isDecimalDigit c = true

/-- The text is `UPDATE table SET column = target WHERE column = source`, with a semicolon or
without. -/
def IsRenumbering (t : Text) (r : Renumbering) : Prop :=
  ∃ update g₁ table g₂ set g₃ equation g₄ word g₅ condition g₆ semicolon,
    t = [update, g₁, table, g₂, set, g₃, equation, g₄, word, g₅, condition, g₆, semicolon].flatten ∧
    update.map foldChar = "UPDATE".toList.map foldChar ∧
      set.map foldChar = "SET".toList.map foldChar ∧
    word.map foldChar = "WHERE".toList.map foldChar ∧ IsName table r.table ∧
    IsEquation equation r.setColumn r.target ∧ IsEquation condition r.whereColumn r.source ∧
    (∀ g ∈ [g₁, g₂, g₃, g₄, g₅], IsGap g) ∧ (∀ c ∈ g₆, isBlank c = true) ∧
    (semicolon = [] ∨ semicolon = [';'])

section Reads

variable {t : Text} {c d e : Cursor}

theorem gap_reads (h : c.blanks? = some d) : ∃ g, Reads c g d ∧ IsGap g := by
  obtain ⟨g, hread, hne, hall, -⟩ := some?_reads h
  exact ⟨g, hread, hne, hall⟩

theorem name?_reads {name : Text} (hc : At t c) (h : name? t c = some (name, d)) :
    ∃ x, Reads c x d ∧ IsName x name := by
  obtain ⟨d', hd, h⟩ := bind_eq_some_iff.1 h
  cases h
  obtain ⟨x, hread, hne, hall, -⟩ := some?_reads hd
  exact ⟨x, hread, hne, hall, by rw [hc.slice hread]⟩

theorem equation_reads {column number : Text} (hc : At t c) (h : name? t c = some (column, d))
    (h' : equalsNumber? t d = some (number, e)) :
    ∃ s, Reads c s e ∧ IsEquation s column number := by
  obtain ⟨x, hx, hname⟩ := name?_reads hc h
  obtain ⟨d', hsign, e', hdigits, h'⟩ := of_bind₂ h'
  cases h'
  obtain ⟨g, hg, hblank, -⟩ := skipWhile_reads d isBlank
  obtain ⟨g', hg', hblank', -⟩ := skipWhile_reads d' isBlank
  obtain ⟨n, hn, hne, hall, -⟩ := some?_reads hdigits
  have hfront := (hx.trans hg).trans (sign?_reads hsign)
  have hslice := ((hc.reads hfront).reads hg').slice hn
  refine ⟨_, (hfront.trans hg').trans hn, x, g, g', ?_, hname, hblank, hblank', ?_⟩
  · rw [show t.slice (d'.blanks.spanTo e) = n from hslice]
    simp
  · rw [show t.slice (d'.blanks.spanTo e) = n from hslice]
    exact ⟨hne, hall⟩

theorem rest_of_atEnd (h : (c.blanks.skipSign ';').atEnd) : ∃ g semicolon, c.rest = g ++ semicolon ∧
    (∀ x ∈ g, isBlank x) ∧ (semicolon = [] ∨ semicolon = [';']) := by
  obtain ⟨g, hg, hblank, -⟩ := skipWhile_reads c isBlank
  have hend : (c.blanks.skipSign ';').rest = [] := by simpa [atEnd] using h
  rw [skipSign] at hend
  cases hsign : c.blanks.sign? ';' with
  | none =>
    rw [hsign] at hend
    exact ⟨g, c.blanks.rest, hg.rest, hblank, .inl hend⟩
  | some d =>
    rw [hsign] at hend
    refine ⟨g, c.blanks.rest, hg.rest, hblank, .inr ?_⟩
    rw [(sign?_reads hsign).rest, show d.rest = [] from hend, append_nil]

end Reads

/-- What is read as a change of a number is written as one. -/
theorem isRenumbering_of_renumbering? {t : Text} {r : Renumbering} (h : renumbering? t = some r) :
    IsRenumbering t r := by
  simp only [renumbering?, bind_eq_bind, bind_eq_some_iff] at h
  obtain ⟨c₁, h₁, c₂, h₂, ⟨table, c₃⟩, h₃, c₄, h₄, c₅, h₅, c₆, h₆, ⟨column, c₇⟩, h₇, ⟨target, c₈⟩,
    h₈, c₉, h₉, c₁₀, h₁₀, c₁₁, h₁₁, ⟨whereColumn, c₁₂⟩, h₁₂, ⟨source, c₁₃⟩, h₁₃, _, hguard, h⟩ := h
  cases h
  obtain ⟨update, hupdate, hfold⟩ := word?_reads h₁
  obtain ⟨g₁, hg₁, hgap₁⟩ := gap_reads h₂
  have hat₂ := ((at_start t).reads hupdate).reads hg₁
  obtain ⟨x, hx, hname⟩ := name?_reads hat₂ h₃
  obtain ⟨g₂, hg₂, hgap₂⟩ := gap_reads h₄
  obtain ⟨set, hset, hfoldSet⟩ := word?_reads h₅
  obtain ⟨g₃, hg₃, hgap₃⟩ := gap_reads h₆
  have hat₆ := (((hat₂.reads hx).reads hg₂).reads hset).reads hg₃
  obtain ⟨s, hs, hequation⟩ := equation_reads hat₆ h₇ h₈
  obtain ⟨g₄, hg₄, hgap₄⟩ := gap_reads h₉
  obtain ⟨word, hword, hfoldWord⟩ := word?_reads h₁₀
  obtain ⟨g₅, hg₅, hgap₅⟩ := gap_reads h₁₁
  have hat₁₁ := (((hat₆.reads hs).reads hg₄).reads hword).reads hg₅
  obtain ⟨s', hs', hcondition⟩ := equation_reads hat₁₁ h₁₂ h₁₃
  obtain ⟨g₆, semicolon, hrest, hblank, hsemicolon⟩ :=
    rest_of_atEnd (c := c₁₃) (by simpa [guard] using hguard)
  refine ⟨update, g₁, x, g₂, set, g₃, s, g₄, word, g₅, s', g₆, semicolon, ?_, hfold, hfoldSet,
    hfoldWord, hname, hequation, hcondition, ?_, hblank, hsemicolon⟩
  · rw [show t = (start t).rest from rfl, hupdate.rest, hg₁.rest, hx.rest, hg₂.rest, hset.rest,
      hg₃.rest, hs.rest, hg₄.rest, hword.rest, hg₅.rest, hs'.rest, hrest]
    simp
  · simp [hgap₁, hgap₂, hgap₃, hgap₄, hgap₅]

/-! ### The same rows -/

section Same

variable (m : Values V) {r : Renumbering} {identity : Text}

/-- A copy is the row with another number. -/
theorem row_copy (hset : r.setColumn.same identity) (row : StoredRow columns V) :
    (r.copy identity columns).row m row = row.set r.setColumn (m.number r.target) := by
  have hlower : r.setColumn.lower = identity.lower := eq_of_beq hset
  funext ⟨n, hn⟩
  -- the entry that gives the column its value is the first of the name
  obtain ⟨c, hfind⟩ : ∃ c, columns.find? (fun c => c.lower == n) = some c := by
    obtain ⟨c, hc, rfl⟩ := mem_map.1 hn
    exact isSome_iff_exists.1 (find?_isSome.2 ⟨c, hc, beq_self_eq_true _⟩)
  have hc : c.lower = n := by simpa using find?_some hfind
  have hentry : (r.copy identity columns).entries.find? (fun e => e.1.lower == n)
      = some (c, if c.same identity then .number r.target else .column c) := by
    rw [Renumbering.copy, find?_map, Function.comp_def, hfind, map_some]
  have hsame : c.same identity = (n == r.setColumn.lower) := by rw [same, hc, hlower]
  rw [Copy.row, hentry, StoredRow.set, hsame]
  by_cases h : n = r.setColumn.lower
  · simp [h, Source.value]
  · subst hc
    simp [h, Source.value, hn]

variable [DecidableEq V]

/-- The rows that have the old number are set off from the others. -/
theorem run_perm (rows : List (StoredRow columns V)) : (r.run m rows).Perm
    ((rows.filter fun row => !row.has r.whereColumn (m.number r.source)) ++
      (rows.filter fun row => row.has r.whereColumn (m.number r.source)).map
        fun row => row.set r.setColumn (m.number r.target)) := by
  have hsplit :=
    ((filter_append_perm (fun row => row.has r.whereColumn (m.number r.source)) rows).map
    fun row =>
      if row.has r.whereColumn (m.number r.source) then row.set r.setColumn
        (m.number r.target) else row)
  refine hsplit.symm.trans ?_
  rw [map_append]
  refine perm_append_comm.trans (List.Perm.of_eq ?_)
  congr 1
  · refine (map_congr_left fun row hrow => ?_).trans (map_id _)
    rw [if_neg (by simpa using (mem_filter.1 hrow).2), id]
  · exact map_congr_left fun row hrow => if_pos (mem_filter.1 hrow).2

/-- The deletion takes the rows that were copied, and the copies with them if they have the old
number still. -/
theorem run_deletion_copy (hset : r.setColumn.same identity) (hwhere : r.whereColumn.same identity)
    (rows : List (StoredRow columns V)) :
    (r.deletion identity).run m ((r.copy identity columns).run m rows)
      = (rows.filter fun row => !row.has r.whereColumn (m.number r.source)) ++
        if m.number r.target = m.number r.source then []
        else (rows.filter fun row => row.has r.whereColumn (m.number r.source)).map
          fun row => row.set r.setColumn (m.number r.target) := by
  have hhas (row : StoredRow columns V) :
      row.has identity (m.number r.source) = row.has r.whereColumn (m.number r.source) :=
    (row.has_congr hwhere _).symm
  -- what was copied has the new number
  have hcopied (row : StoredRow columns V) (h : row.has r.whereColumn (m.number r.source)) :
      (row.set r.setColumn (m.number r.target)).has r.whereColumn (m.number r.source)
        = (m.number r.target == m.number r.source) := by
    have hlower : r.setColumn.lower = r.whereColumn.lower :=
      (eq_of_beq hset).trans (eq_of_beq hwhere).symm
    rw [StoredRow.has_congr _ (b := r.setColumn) (beq_iff_eq.2 hlower.symm),
      StoredRow.has_set (hlower ▸ StoredRow.mem_of_has h)]
  have hpick : rows.filter (fun row => row.has (r.copy identity columns).whereColumn
      (m.number (r.copy identity columns).source)) = rows.filter fun row => row.has r.whereColumn
        (m.number r.source) :=
    filter_congr fun row _ => hhas row
  rw [Deletion.run, Copy.run, filter_append, hpick, funext (row_copy m hset)]
  congr 1
  · exact filter_congr fun row _ => congrArg (! ·) (hhas row)
  · split
    · next heq =>
      refine filter_eq_nil_iff.2 fun copied hcopy => ?_
      obtain ⟨row, hrow, rfl⟩ := mem_map.1 hcopy
      rw [Renumbering.deletion, hhas, hcopied row (mem_filter.1 hrow).2, heq, beq_self_eq_true]
      decide
    · next hne =>
      refine filter_eq_self.2 fun copied hcopy => ?_
      obtain ⟨row, hrow, rfl⟩ := mem_map.1 hcopy
      rw [Renumbering.deletion, hhas, hcopied row (mem_filter.1 hrow).2, beq_false_of_ne hne]
      rfl

/-- The copy and the deletion leave what the update leaves unless the new number is the old one. -/
theorem run_perm_iff (hset : r.setColumn.same identity) (hwhere : r.whereColumn.same identity)
    (rows : List (StoredRow columns V)) :
    ((r.deletion identity).run m ((r.copy identity columns).run m rows)).Perm (r.run m rows) ↔
      (m.number r.target ≠ m.number r.source ∨ ∀ row ∈ rows,
        row.has r.whereColumn (m.number r.source) = false) := by
  rw [run_deletion_copy m hset hwhere, (run_perm m rows).congr_right]
  by_cases heq : m.number r.target = m.number r.source
  · -- the copies are gone, so there must have been none
    rw [if_pos heq, append_nil]
    have hnone : (∀ row ∈ rows, row.has r.whereColumn (m.number r.source) = false) ↔
        rows.filter (fun row => row.has r.whereColumn (m.number r.source)) = [] := by
      simp [filter_eq_nil_iff]
    rw [hnone, or_iff_right (not_not_intro heq)]
    constructor
    · intro hperm
      have hlength := hperm.length_eq
      rw [length_append, length_map] at hlength
      exact length_eq_zero_iff.1 (by omega)
    · intro hempty
      rw [hempty, map_nil, append_nil]
  · simp [heq]

end Same

/-! ### The pass -/

/-- The copy as it is written. -/
theorem text_copy (r : Renumbering) (identity : Text) (columns : List Text) :
    (r.copy identity columns).text
    = "INSERT INTO " ++ r.table ++ " (" ++ join "," columns ++ ") SELECT "
      ++ join "," (columns.map fun c => if c.same identity then r.target else c) ++ " FROM"
      ++ (" " ++ r.table ++ " WHERE " ++ identity ++ " = " ++ r.source) := by
  have hnames : (r.copy identity columns).entries.map Prod.fst = columns := by
    simp [Renumbering.copy, Function.comp_def]
  have hsources : ((r.copy identity columns).entries.map fun e => e.2.text)
      = columns.map fun c => if c.same identity then r.target else c := by
    rw [Renumbering.copy, List.map_map]
    refine map_congr_left fun c _ => ?_
    show Source.text (if _ then _ else _) = _
    split <;> rfl
  have hfrom : " FROM ".toList = " FROM".toList ++ " ".toList := by decide
  unfold Copy.text
  simp only [hnames, hsources, hfrom, append_assoc]
  simp only [Renumbering.copy]

/-- A draft with another number for a row has the copy for its text and the deletion behind it,
between the switches. The two statements do to every table what the update does, up to the order of
rows, unless a row is given the number it has. -/
theorem moveRow?_rows_perm_iff {d e : Draft} (h : moveRow? d = some e) :
    ∃ r identity table, IsRenumbering d.text r ∧ d.catalog.table? r.table = some table ∧
      d.catalog.identity? r.table = some identity ∧
      r.setColumn.same identity = true ∧ r.whereColumn.same identity = true ∧
      e.text = (r.copy identity table.columnNames).text ∧
      e.preceding = d.preceding ++ [toggle r.table true] ∧
      e.following = d.following ++ [⟨(r.deletion identity).text, .onSuccess⟩,
        ⟨toggle r.table false, .always⟩] ∧
      ∀ (V : Type) [DecidableEq V] (m : Values V) (rows : List (StoredRow table.columnNames V)),
        ((r.deletion identity).run m ((r.copy identity table.columnNames).run m rows)).Perm
          (r.run m rows) ↔
          (m.number r.target ≠ m.number r.source ∨
            ∀ row ∈ rows, row.has r.whereColumn (m.number r.source) = false) := by
  simp only [moveRow?, bind_eq_bind, bind_eq_some_iff] at h
  obtain ⟨_, -, r, hr, identity, hidentity, _, hsame, table, htable, _, -, h⟩ := h
  cases h
  have hsame : r.setColumn.same identity ∧ r.whereColumn.same identity := by
    simpa [guard] using hsame
  refine ⟨r, identity, table, isRenumbering_of_renumbering? hr, htable, hidentity, hsame.1, hsame.2,
    ?_, rfl, ?_, fun V _ m rows => run_perm_iff m hsame.1 hsame.2 rows⟩
  · rw [text_copy]
    rfl
  · exact append_assoc _ _ _

def decimal : Values Nat := ⟨fun t => t.foldl (fun n c => 10 * n + (c.toNat - '0'.toNat)) 0, 0⟩

/-- An update in another case of letters, with brackets and a semicolon. -/
theorem moveRow?_rows_perm_iff_brackets : let d : Draft := {
      text := "update [T] set Id=7\nWHERE ID = 03 ;", kind := .update, prepared := false
      serialized := false, verify := true, previous := none, template := "", params := []
      catalog := Catalog.learn {} "CREATE TABLE t (id int auto_increment, a int)" }
    let e : Draft := { d with
      text := "INSERT INTO T (id,a) SELECT 7,a FROM T WHERE id = 03", verify := false
      preceding := ["SET IDENTITY_INSERT T ON"]
      following :=
        [⟨"DELETE T WHERE id = 03", .onSuccess⟩, ⟨"SET IDENTITY_INSERT T OFF", .always⟩] }
    moveRow? d = some e ∧ ∃ r identity table, IsRenumbering d.text r ∧
      d.catalog.table? r.table = some table ∧
      e.text = (r.copy identity table.columnNames).text ∧
      ∀ rows : List (StoredRow table.columnNames Nat),
        ((r.deletion identity).run decimal
          ((r.copy identity table.columnNames).run decimal rows)).Perm
            (r.run decimal rows) ↔
          (decimal.number r.target ≠ decimal.number r.source ∨
            ∀ row ∈ rows, row.has r.whereColumn (decimal.number r.source) = false) := by
  intro d e
  have hmove : moveRow? d = some e := by decide +kernel
  obtain ⟨r, identity, table, hr, htable, -, -, -, htext, -, -, hrows⟩ :=
    moveRow?_rows_perm_iff hmove
  exact ⟨hmove, r, identity, table, hr, htable, htext, hrows Nat decimal⟩

/-- A row that is given the number it has is lost. -/
theorem moveRow?_loses_row : let d : Draft := {
      text := "UPDATE t SET id = 5 WHERE id = 5", kind := .update, prepared := false
      serialized := false, verify := true, previous := none, template := "", params := []
      catalog := Catalog.learn {} "CREATE TABLE t (id int auto_increment, a int)" }
    let r : Renumbering := ⟨"t", "id", "5", "id", "5"⟩
    let rows : List (StoredRow ["id", "a"] Nat) := [fun _ => 5]
    (moveRow? d).map (fun e => (e.text, e.following.map Following.sql)) =
        some ((r.copy "id" ["id", "a"]).text, [(r.deletion "id").text, toggle "t" false]) ∧
      (r.run decimal rows).length = 1 ∧
      ((r.deletion "id").run decimal ((r.copy "id" ["id", "a"]).run decimal rows)).length = 0 := by
  decide +kernel

end Identity

end Recast
