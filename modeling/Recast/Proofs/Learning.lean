import Recast.Proofs.Editing
import Recast.Schema.Catalog

/-!
# What a run of definitions teaches

A catalog learns from one statement after another. Column names are told apart without regard to
case: defining a table, adding, modifying and dropping columns keep them apart, and so does renaming
one, unless the new name belongs to another column (`Change.unique_apply_iff`). As long as no
statement does that, looking a column up and listing the columns of a class give the same answers
(`Catalog.listed_iff_looked_up`). A column that is renamed leaves its name in the keys
(`Catalog.rename_leaves_keys`).
-/

namespace Recast

open List Text
open Option hiding guard

variable {key name s : Text} {t : Table}

theorem Text.same_iff {a b : Text} : a.same b ↔ a.lower = b.lower := by simp [same]

/-! ### Lists with one element exchanged -/

theorem map_replaceFirst (f : α → β) (p : β → Bool) (new : α) (l : List α) :
    (replaceFirst (fun a => p (f a)) new l).map f = replaceFirst p (f new) (l.map f) := by
  induction l with
  | nil => rfl
  | cons a l ih =>
    rw [replaceFirst, map_cons, replaceFirst]
    split
    · rfl
    · rw [map_cons, ih]

theorem replaceFirst_of_forall_false {p : α → Bool} {l : List α} (h : ∀ a ∈ l, p a = false)
    (new : α) : replaceFirst p new l = l ++ [new] := by
  induction l with
  | nil => rfl
  | cons a l ih =>
    rw [replaceFirst, h a (by simp), ih (forall_mem_cons.1 h).2]
    rfl

theorem eq_or_mem_of_mem_replaceFirst {p : α → Bool} {new a : α} {l : List α}
    (h : a ∈ replaceFirst p new l) : a = new ∨ a ∈ l := by
  induction l with
  | nil => exact .inl (mem_singleton.1 h)
  | cons b l ih =>
    rw [replaceFirst] at h
    split at h
    · rcases mem_cons.1 h with h | h
      · exact .inl h
      · exact .inr (mem_cons_of_mem _ h)
    · rcases mem_cons.1 h with rfl | h
      · exact .inr mem_cons_self
      · exact (ih h).imp_right (mem_cons_of_mem _)

section

variable [BEq α] [LawfulBEq α] {k : α} {l : List α}

theorem replaceFirst_perm (h : k ∈ l) (new : α) :
    (replaceFirst (· == k) new l).Perm (new :: l.erase k) := by
  induction l with
  | nil => cases h
  | cons a l ih =>
    rw [replaceFirst]
    by_cases ha : a = k
    · simp [ha]
    · have hmem : k ∈ l := (mem_cons.1 h).resolve_left fun h => ha h.symm
      rw [if_neg (by simpa using ha), erase_cons_tail (by simpa using ha)]
      exact ((ih hmem).cons a).trans (.swap new a _)

/-- Exchanging an element for one that is not yet there, and for nothing else, makes no
duplicate. -/
theorem nodup_replaceFirst_iff (hl : l.Nodup) (hk : k ∈ l) (new : α) :
    (replaceFirst (· == k) new l).Nodup ↔ new = k ∨ new ∉ l := by
  rw [(replaceFirst_perm hk new).nodup_iff, nodup_cons, hl.mem_erase_iff, and_iff_left (hl.erase k)]
  tauto

theorem nodup_replaceFirst_self (hl : l.Nodup) (k : α) : (replaceFirst (· == k) k l).Nodup := by
  by_cases hk : k ∈ l
  · exact (nodup_replaceFirst_iff hl hk k).2 (.inl rfl)
  · have hne : ∀ a ∈ l, (a == k) = false := by
      intro a ha
      refine beq_false_of_ne ?_
      rintro rfl
      exact hk ha
    rw [replaceFirst_of_forall_false hne, nodup_append]
    exact ⟨hl, by simp, fun a ha b hb => by
      rw [mem_singleton.1 hb]
      exact ne_of_beq_false (hne a ha)⟩

end

/-! ### Column names -/

namespace Table

def folded (t : Table) : List Text := t.columns.map fun c => c.name.lower

/-- No two columns have one name. -/
def Unique (t : Table) : Prop := t.columns.Pairwise fun a b => a.name.same b.name = false

variable {t : Table}

theorem unique_iff : t.Unique ↔ t.folded.Nodup := by
  rw [Unique, folded, List.Nodup, pairwise_map]
  simp [same]

theorem isSome_column?_iff : (t.column? name).isSome ↔ name.lower ∈ t.folded := by
  simp [column?, folded, same]

theorem Unique.column?_eq (h : t.Unique) {c : Column} (hc : c ∈ t.columns) :
    t.column? c.name = some c := by
  obtain ⟨front, back, hcut⟩ := append_of_mem hc
  rw [Unique, hcut, pairwise_append] at h
  have hfront : ∀ d ∈ front, d.name.same c.name = false := fun d hd => h.2.2 d hd c (by simp)
  have hself : c.name.same c.name := same_iff.2 rfl
  rw [column?, hcut, find?_append, find?_eq_none.2 (by simpa using hfront)]
  simp [hself]

theorem folded_put (c : Column) :
    (t.put c).folded = replaceFirst (· == c.name.lower) c.name.lower t.folded :=
  map_replaceFirst (fun d : Column => d.name.lower) (· == c.name.lower) c t.columns

theorem Unique.put (h : t.Unique) (c : Column) : (t.put c).Unique := by
  rw [unique_iff] at h ⊢
  rw [folded_put]
  exact nodup_replaceFirst_self h _

theorem folded_rename {old : Text} (h : (t.column? old).isSome) (c : Column) :
    (t.rename old c).folded = replaceFirst (· == old.lower) c.name.lower t.folded := by
  rw [rename, if_pos h]
  exact map_replaceFirst (fun d : Column => d.name.lower) (· == old.lower) c t.columns

end Table

namespace Definition

/-- Whether a change gives one column the name of another. -/
def Change.clashes (table : Table) : Change → Bool
  | .rename old c =>
    (table.column? old).isSome && !c.name.same old && (table.column? c.name).isSome
  | _ => false

/-- A change keeps the column names apart exactly if it does not clash. -/
theorem Change.unique_apply_iff (h : t.Unique) (change : Change) :
    (change.apply t).Unique ↔ change.clashes t = false := by
  cases change with
  | put c => exact iff_of_true (h.put c) rfl
  | drop name => exact iff_of_true (List.Pairwise.filter _ h) rfl
  | rename old c =>
    cases hold : (t.column? old).isSome with
    | false =>
      have hput : t.rename old c = t.put c := by rw [Table.rename, hold]; rfl
      refine iff_of_true ?_ (by simp [clashes, hold])
      rw [apply, hput]
      exact h.put c
    | true =>
      have hmem : old.lower ∈ t.folded := Table.isSome_column?_iff.1 hold
      rw [apply, Table.unique_iff, Table.folded_rename hold,
        nodup_replaceFirst_iff (Table.unique_iff.1 h) hmem, ← Table.isSome_column?_iff]
      cases hnew : (t.column? c.name).isSome with
      | false => simp [clashes, hold, hnew]
      | true => simp [clashes, hold, hnew, ← same_iff]

/-- Whether none of the changes clashes, made one after another. -/
def clashFree (table : Table) : List Change → Bool
  | [] => true
  | change :: changes => !change.clashes table && clashFree (change.apply table) changes

theorem unique_foldl_apply (h : t.Unique) {changes : List Change} (hfree : clashFree t changes) :
    (changes.foldl Change.apply t).Unique := by
  induction changes generalizing t with
  | nil => exact h
  | cons change changes ih =>
    rw [clashFree, Bool.and_eq_true, Bool.not_eq_true'] at hfree
    exact ih ((change.unique_apply_iff h).2 hfree.1) hfree.2

theorem name_foldl_apply (t : Table) (changes : List Change) :
    (changes.foldl Change.apply t).name = t.name := by
  induction changes generalizing t with
  | nil => rfl
  | cons change changes ih =>
    rw [foldl_cons, ih]
    cases change with
    | put c => rfl
    | drop name => rfl
    | rename old c =>
      rw [Change.apply, Table.rename]
      split <;> rfl

theorem unique_addEntry (h : t.Unique) (entry : Text) : (addEntry t entry).Unique := by
  rw [addEntry]
  split
  · exact h
  · split
    · exact h
    · split
      · split <;> exact h
      · split
        · exact h
        · split
          · exact Table.Unique.put (t := { t with primaryKey := _ }) h _
          · exact h.put _

theorem unique_foldl_addEntry (h : t.Unique) (entries : List Text) :
    (entries.foldl addEntry t).Unique := by
  induction entries generalizing t with
  | nil => exact h
  | cons entry entries ih => exact ih (unique_addEntry h entry)

theorem unique_of_table? {t : Text} {table : Table} (h : table? t = some table) : table.Unique := by
  simp only [table?, bind_eq_bind, bind_eq_some_iff] at h
  obtain ⟨⟨name, stop⟩, -, opening, -, close, -, h⟩ := h
  cases h
  exact unique_foldl_addEntry (t := { name }) List.Pairwise.nil _

theorem not_alter_of_create {t : Text} (h : t.startsWith "CREATE") :
    t.startsWith "ALTER" = false := by
  cases t with
  | nil => rfl
  | cons c t =>
    have hc : c.toLower = 'c' := beq_iff_eq.1 (Bool.and_elim_left h)
    show (c.toLower == 'a' && _) = false
    rw [hc]
    rfl

/-- The table that an ALTER TABLE statement names and the changes it asks for, as a catalog reads
it. -/
def alteration? (statement : Text) : Option (Text × List Change) :=
  let t := Literal.normalizeEscapes statement.trim
  if t.startsWith "ALTER" then changes? t else none

end Definition

/-! ### Entries and their keys -/

namespace Catalog

open Definition

theorem lookUp_store_self (key : Text) (a : α) (l : List (Text × α)) :
    lookUp key (store key a l) = some a := by
  induction l with
  | nil => simp [store, replaceFirst, lookUp]
  | cons e l ih =>
    rw [store, replaceFirst]
    by_cases he : e.1 = key
    · simp [he, lookUp]
    · simpa [he, lookUp, store] using ih

theorem mem_of_lookUp {a : α} {l : List (Text × α)} (h : lookUp key l = some a) : (key, a) ∈ l := by
  obtain ⟨⟨key', a'⟩, hfind, rfl⟩ := map_eq_some_iff.1 h
  have hkey := find?_some hfind
  rw [beq_iff_eq] at hkey
  exact hkey ▸ mem_of_find?_eq_some hfind

theorem lookUp_of_mem {a : α} {l : List (Text × α)} (hl : (l.map (·.1)).Nodup) (h : (key, a) ∈ l) :
    lookUp key l = some a := by
  induction l with
  | nil => cases h
  | cons e l ih =>
    rw [map_cons, nodup_cons] at hl
    rcases mem_cons.1 h with rfl | h
    · simp [lookUp]
    · have hne : e.1 ≠ key := fun he => hl.1 (he ▸ mem_map.2 ⟨_, h, rfl⟩)
      simpa [lookUp, hne] using ih hl.2 h

/-- Every table stands once, under its name in lower case. -/
structure Keyed (c : Catalog) : Prop where
  nodup : (c.tables.map (·.1)).Nodup
  named : ∀ e ∈ c.tables, e.1 = e.2.name.lower

theorem keyed_empty : Keyed {} where
  nodup := List.Pairwise.nil
  named := by simp

variable {c : Catalog}

theorem Keyed.publish (h : c.Keyed) (t : Table) : (c.publish t).Keyed where
  nodup := by
    have hkeys : ((c.publish t).tables.map (·.1))
        = replaceFirst (· == t.name.lower) t.name.lower (c.tables.map (·.1)) :=
      map_replaceFirst (fun e : Text × Table => e.1) (· == t.name.lower) (t.name.lower, t) c.tables
    rw [hkeys]
    exact nodup_replaceFirst_self h.nodup _
  named := by
    intro e he
    rcases eq_or_mem_of_mem_replaceFirst he with rfl | he
    · rfl
    · exact h.named e he

/-- The table that changes to a table of a given name start from. -/
def base (c : Catalog) (name : Text) : Table := (c.table? name).getD { name }

theorem Keyed.update_eq (h : c.Keyed) (name : Text) (changes : List Change) :
    c.update name (fun t => changes.foldl Change.apply t) =
      c.publish (changes.foldl Change.apply (c.base name)) := by
  have hname : (changes.foldl Change.apply (c.base name)).name.lower = name.lower := by
    rw [name_foldl_apply, base]
    cases ht : c.table? name with
    | none => rfl
    | some t => exact (h.named _ (mem_of_lookUp ht)).symm
  rw [update, Catalog.publish, hname, base]

/-- What one statement does: nothing, define a table, or change one. -/
theorem learn_cases (c : Catalog) (s : Text) :
    (alteration? s = none ∧ (c.learn s = c ∨ ∃ t, t.Unique ∧ c.learn s = c.publish t)) ∨
    ∃ name changes, alteration? s = some (name, changes) ∧
      c.learn s = c.update name fun t => changes.foldl Change.apply t := by
  rw [alteration?, learn, learn?]
  generalize Literal.normalizeEscapes s.trim = t
  cases hcreate : t.startsWith "CREATE" with
  | true =>
    refine .inl ⟨by rw [not_alter_of_create hcreate]; rfl, ?_⟩
    cases ht : Definition.table? t with
    | none => exact .inl (by simp)
    | some table => exact .inr ⟨table, unique_of_table? ht, by simp⟩
  | false =>
    cases halter : t.startsWith "ALTER" with
    | false => exact .inl ⟨by simp, .inl (by simp)⟩
    | true =>
      cases hchanges : changes? t with
      | none => exact .inl ⟨by simp, .inl (by simp)⟩
      | some p => exact .inr ⟨p.1, p.2, by simp, by simp⟩

/-- Whether no change that a statement asks for clashes. -/
def isClean (c : Catalog) (s : Text) : Bool :=
  match alteration? s with
  | none => true
  | some (name, changes) => clashFree (c.base name) changes

/-- Whether no change of a run of statements clashes. -/
def runsClean (c : Catalog) : List Text → Bool
  | [] => true
  | s :: statements => c.isClean s && runsClean (c.learn s) statements

def Unique (c : Catalog) : Prop := ∀ e ∈ c.tables, e.2.Unique

theorem Unique.publish (h : c.Unique) (ht : t.Unique) : (c.publish t).Unique := by
  intro e he
  rcases eq_or_mem_of_mem_replaceFirst he with rfl | he
  · exact ht
  · exact h e he

theorem Unique.base (h : c.Unique) (name : Text) : (c.base name).Unique := by
  rw [Catalog.base]
  cases ht : c.table? name with
  | none => exact List.Pairwise.nil
  | some t => exact h _ (mem_of_lookUp ht)

theorem Keyed.learn (h : c.Keyed) (s : Text) : (c.learn s).Keyed := by
  rcases c.learn_cases s with ⟨-, hc | ⟨t, -, hc⟩⟩ | ⟨name, changes, -, hc⟩
  · rwa [hc]
  · rw [hc]
    exact h.publish t
  · rw [hc, h.update_eq]
    exact h.publish _

theorem Unique.learn (h : c.Unique) (hkeyed : c.Keyed) (hclean : c.isClean s) :
    (c.learn s).Unique := by
  rcases c.learn_cases s with ⟨-, hc | ⟨t, ht, hc⟩⟩ | ⟨name, changes, hs, hc⟩
  · rwa [hc]
  · rw [hc]
    exact h.publish ht
  · rw [isClean, hs] at hclean
    rw [hc, hkeyed.update_eq]
    exact h.publish (unique_foldl_apply (h.base name) hclean)

theorem Keyed.foldl_learn (h : c.Keyed) (statements : List Text) :
    (statements.foldl Catalog.learn c).Keyed := by
  induction statements generalizing c with
  | nil => exact h
  | cons s statements ih => exact ih (h.learn s)

theorem Unique.foldl_learn (h : c.Unique) (hkeyed : c.Keyed) {statements : List Text}
    (hclean : c.runsClean statements) : (statements.foldl Catalog.learn c).Unique := by
  induction statements generalizing c with
  | nil => exact h
  | cons s statements ih =>
    rw [runsClean, Bool.and_eq_true] at hclean
    exact ih (h.learn hkeyed hclean.1) (hkeyed.learn s) hclean.2

/-! ### Lists and look-ups -/

theorem mem_ofClass {k : ColumnClass} {r : ColumnRef} : r ∈ c.ofClass k ↔
    ∃ e ∈ c.tables, ∃ column ∈ e.2.columns, column.holds = k ∧ r = ⟨e.2.name, column.name⟩ := by
  rw [ofClass, mem_foldr_dedup, mem_sortedBy]
  simp only [List.mem_flatMap, List.mem_map, List.mem_filter, beq_iff_eq]
  constructor
  · rintro ⟨e, he, column, ⟨hcolumn, hholds⟩, rfl⟩
    exact ⟨e, he, column, hcolumn, hholds, rfl⟩
  · rintro ⟨e, he, column, hcolumn, hholds, rfl⟩
    exact ⟨e, he, column, ⟨hcolumn, hholds⟩, rfl⟩

theorem column?_of_mem (hkeyed : c.Keyed) (hunique : c.Unique) {e : Text × Table}
    (he : e ∈ c.tables) {column : Column} (hcolumn : column ∈ e.2.columns) :
    c.column? e.2.name column.name = some column := by
  have htable : c.table? e.2.name = some e.2 := by
    refine lookUp_of_mem hkeyed.nodup ?_
    rw [← hkeyed.named e he]
    exact he
  rw [column?, htable]
  exact (hunique e he).column?_eq hcolumn

/-- A statement that asks for one change keeps the names apart exactly if that change does not
clash. -/
theorem Unique.learn_iff (h : c.Unique) (hkeyed : c.Keyed) {change : Change}
    (hs : alteration? s = some (name, [change])) :
    (c.learn s).Unique ↔ change.clashes (c.base name) = false := by
  have hclean : c.isClean s = !change.clashes (c.base name) := by simp [isClean, hs, clashFree]
  refine ⟨fun hunique => ?_, fun hfree => h.learn hkeyed (by rw [hclean, hfree]; rfl)⟩
  rcases c.learn_cases s with ⟨hnone, -⟩ | ⟨name', changes, hs', hc⟩
  · rw [hs] at hnone
    cases hnone
  · rw [hs] at hs'
    cases hs'
    have hlearned : (c.learn s).table? name = some (change.apply (c.base name)) := by
      rw [hc]
      exact lookUp_store_self _ _ _
    exact (change.unique_apply_iff (h.base name)).1 (hunique _ (mem_of_lookUp hlearned))

/-- Tables stand once and under their names in lower case. As long as no statement of a run gives a
column the name of another, the column names of each table stay apart, and the columns listed for a
class are those, as they are spelled, that a look-up finds to be of that class; a further statement
with one change keeps it so exactly if it does not clash. -/
theorem listed_iff_looked_up (statements : List Text) : let c := statements.foldl learn {}
    (c.tables.map (·.1)).Nodup ∧ (∀ e ∈ c.tables, e.1 = e.2.name.lower) ∧
    (runsClean {} statements →
      (∀ e ∈ c.tables, e.2.columns.Pairwise fun a b => a.name.same b.name = false) ∧
      (∀ k table column, (⟨table, column⟩ : ColumnRef) ∈ c.ofClass k ↔
        (∃ e ∈ c.tables, e.2.name = table ∧ column ∈ e.2.columnNames) ∧
          (c.column? table column).map (·.holds) = some k) ∧
      ∀ s name change, alteration? s = some (name, [change]) →
        ((∀ e ∈ (c.learn s).tables, e.2.columns.Pairwise fun a b => a.name.same b.name = false) ↔
          change.clashes (c.base name) = false)) := by
  intro c
  have hkeyed : c.Keyed := keyed_empty.foldl_learn statements
  refine ⟨hkeyed.nodup, hkeyed.named, fun hclean => ?_⟩
  have hunique : c.Unique := Unique.foldl_learn (by simp [Unique]) keyed_empty hclean
  refine ⟨hunique, fun k table column => ?_, fun s name change hs => hunique.learn_iff hkeyed hs⟩
  rw [mem_ofClass]
  constructor
  · rintro ⟨e, he, found, hfound, hholds, href⟩
    cases href
    refine ⟨⟨e, he, rfl, mem_map.2 ⟨found, hfound, rfl⟩⟩, ?_⟩
    rw [column?_of_mem hkeyed hunique he hfound, map_some, hholds]
  · rintro ⟨⟨e, he, rfl, hname⟩, hholds⟩
    obtain ⟨found, hfound, rfl⟩ := mem_map.1 hname
    rw [column?_of_mem hkeyed hunique he hfound, map_some, some.injEq] at hholds
    exact ⟨e, he, found, hfound, hholds, rfl⟩

/-- Renaming a column to a name that is free. -/
theorem listed_iff_looked_up_renamed :
    let statements : List Text :=
      ["CREATE TABLE t (a int, b text)", "ALTER TABLE t CHANGE a c int, ADD COLUMN d text"]
    let c := statements.foldl learn {}
    runsClean {} statements ∧ ((⟨"t", "d"⟩ : ColumnRef) ∈ c.ofClass .text ↔
        (∃ e ∈ c.tables, e.2.name = "t" ∧ ("d" : Text) ∈ e.2.columnNames) ∧
          (c.column? "t" "d").map (·.holds) = some .text) := by
  intro statements c
  have hclean : runsClean {} statements := by decide +kernel
  exact ⟨hclean, ((listed_iff_looked_up statements).2.2 hclean).2.1 .text "t" "d"⟩

/-- A column that is renamed to the name of another hides it: the other is still listed for its
class, but it is not found any more. -/
theorem renamed_hides_column :
    let c :=
      [("CREATE TABLE t (a int, b text)" : Text), "ALTER TABLE t CHANGE a b int"].foldl learn {}
    (c.table? "t").map Table.columnNames = some [("b" : Text), "b"] ∧
      (⟨"t", "b"⟩ : ColumnRef) ∈ c.ofClass .text ∧
      (c.column? "t" "b").map (·.holds) = some .integer := by
  decide +kernel

/-! ### Keys of renamed columns -/

theorem isKey_of_not_mem (h : ∀ k ∈ t.primaryKey ++ t.unique, k.same name = false) :
    t.isKey name = false := by
  rw [Table.isKey, Bool.or_eq_false_iff]
  constructor
  · split
    · next key hkey => exact h key (by simp [hkey])
    · rfl
  · exact any_eq_false.2 fun u hu => by simp [h u (by simp [hu])]

/-- Renaming a column exchanges its declaration and leaves the keys as they are. So the key follows
the column exactly if there is nothing to follow: the old name stands in no key, and the new one is
no key. -/
theorem rename_leaves_keys {s name old : Text} {column : Column}
    (hs : alteration? s = some (name, [.rename old column])) {t : Table}
    (ht : c.table? name = some t) (hold : (t.column? old).isSome = true) :
    ∃ t', (c.learn s).table? name = some t' ∧
      t' = { t with columns := replaceFirst (fun d => d.name.same old) column t.columns } ∧
      (∀ x, t'.isKey x = t.isKey x) ∧
      ((t'.isKey column.name = t.isKey old ∧
        (∀ k ∈ t'.primaryKey ++ t'.unique, k.same old = false) ∧
          ∀ x, x.same old = false → x.same column.name = false → t'.isKey x = t.isKey x) ↔
        (∀ k ∈ t.primaryKey ++ t.unique, k.same old = false) ∧ t.isKey column.name = false) := by
  have hlearned : (c.learn s).table? name = some (t.rename old column) := by
    rcases c.learn_cases s with ⟨hnone, -⟩ | ⟨name', changes, hs', hc⟩
    · rw [hs] at hnone
      cases hnone
    · rw [hs] at hs'
      cases hs'
      rw [hc, table?, update, lookUp_store_self, ht]
      rfl
  rw [Table.rename, if_pos hold] at hlearned
  refine ⟨_, hlearned, rfl, fun _ => rfl, ⟨?_, ?_⟩⟩
  · rintro ⟨hfollows, habsent, -⟩
    exact ⟨habsent, hfollows.trans (isKey_of_not_mem habsent)⟩
  · rintro ⟨habsent, hno⟩
    exact ⟨hno.trans (isKey_of_not_mem habsent).symm, habsent, fun _ _ _ => rfl⟩

/-- A column that is in no key is renamed. -/
theorem rename_leaves_keys_plain :
    let c := [("CREATE TABLE t (id int, a text, PRIMARY KEY (id))" : Text)].foldl learn {}
    let column : Column := ⟨"b", "text", .text, true, false⟩
    ∃ t t', c.table? "t" = some t ∧ (t.column? "a").isSome ∧ t.column? "b" = none ∧
      alteration? "ALTER TABLE t CHANGE a b text" = some (("t" : Text), [.rename "a" column]) ∧
      (c.learn "ALTER TABLE t CHANGE a b text").table? "t" = some t' ∧
      (∀ x, t'.isKey x = t.isKey x) ∧ t'.isKey "b" = t.isKey "a" := by
  intro c column
  have hs :
      alteration? "ALTER TABLE t CHANGE a b text" = some (("t" : Text), [.rename "a" column]) := by
    decide +kernel
  obtain ⟨t, ht, hold, hnew, hfree⟩ : ∃ t, c.table? "t" = some t ∧ (t.column? "a").isSome ∧
      t.column? "b" = none ∧ (∀ k ∈ t.primaryKey ++ t.unique, k.same "a" = false) ∧
        t.isKey "b" = false :=
    ⟨⟨"t", [⟨"id", "int", .integer, true, false⟩, ⟨"a", "text", .text, true, false⟩], ["id"], []⟩,
      by decide +kernel⟩
  obtain ⟨t', ht', -, hkeys, hfollows⟩ := rename_leaves_keys hs ht hold
  exact ⟨t, t', ht, hold, hnew, hs, ht', hkeys, (hfollows.2 hfree).1⟩

/-- The primary key keeps the name of a column that is renamed, so the column is no key any more. -/
theorem renamed_key_is_lost :
    let c := [("CREATE TABLE t (a int, PRIMARY KEY (a))" : Text)].foldl learn {}
    let c' := c.learn "ALTER TABLE t CHANGE a b int"
    (c.table? "t").map (fun t => (t.columnNames, t.isKey "a")) = some ([("a" : Text)], true) ∧
      (c'.table? "t").map (fun t => (t.columnNames, t.isKey "b", t.primaryKey))
        = some ([("b" : Text)], false, [("a" : Text)]) := by
  decide +kernel

end Catalog

end Recast
