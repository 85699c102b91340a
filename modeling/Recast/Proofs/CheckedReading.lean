import Recast.Proofs.CheckedCuts
import Recast.Proofs.Rows
import Recast.Proofs.SetValues

/-!
# Definitions and insertions with checked cuts

Table definitions and INSERT statements are read off the mask and the text in turn: a name is read
in the text from a place that the mask gave, and the search goes on in the mask. So both have to be
cut at the end of a name. The value groups of a statement are parts of it (`exists_rows`).
-/

namespace Recast

open Insertion Nesting Keyword Literal Cursor List Text
open Option hiding guard

variable {t : Text} {offset : Nat} {g group s : Span} {p : Char → Bool} {words : List Text}

namespace Checked

/-! ### Where things are found -/

section

variable {t : Text} {n k : Nat}

/-- From a boundary to a character that is found behind it. -/
theorem part_of_findFrom? (hn : t.isBoundary n) (h : findFrom? p n (t.after n) = some k) :
    Part t ⟨n, k⟩ := by
  obtain ⟨a, b, rfl, rfl⟩ := isBoundary_iff.1 hn
  rw [after_size_append] at h
  obtain ⟨u, c, v, rfl, -, -, rfl⟩ := findFrom?_eq_some.1 h
  refine ⟨hn, isBoundary_iff.2 ⟨a ++ u, c :: v, by simp, ?_⟩, Nat.le_add_right _ _⟩
  rw [size_append]

/-- A character found in the mask, which is no filler, starts at a boundary. -/
theorem isBoundary_of_findFrom? (hp : p filler = false) {c : Cursor} (hc : At (mask t) c)
    (h : findFrom? p c.offset c.rest = some n) : t.isBoundary n := by
  obtain ⟨u, x, v, hrest, -, hx, rfl⟩ := findFrom?_eq_some.1 h
  have hread : Reads c u ⟨c.offset + size u, u.getLast?.or c.last, x :: v⟩ := ⟨hrest, rfl, rfl⟩
  refine Edge.isBoundary (.inr ?_) (hc.reads hread)
  rintro ⟨⟩
  simp [hx] at hp

/-- What stands in parentheses is a part. -/
theorem part_of_closing? (h : Recast.Nesting.closing? (mask t) n = some k) :
    Part t ⟨n + 1, k⟩ ∧ t.isBoundary (k + 1) := by
  obtain ⟨hopen, hclose, hbehind⟩ := free_of_closing? h
  obtain ⟨a, v, r, -, rfl, rfl, -⟩ := exists_of_closing? h
  exact ⟨part_of_outside hopen hclose.outside (Nat.le_add_right _ _), hbehind.isBoundary⟩

/-- A phrase stands at or behind the place from which it is looked for. -/
theorem part_of_mem_phrases {wanted : Nat → Bool} (h : s ∈ phrases wanted t words n) :
    Part t s ∧ Part t ⟨n, s.start⟩ := by
  cases words with
  | nil => cases h
  | cons first others =>
    obtain ⟨hn, u, c, d, e, hu, hc, hd, he, rfl, -⟩ := at_of_mem_phrases h
    obtain ⟨v, hv, -⟩ := here?_reads hd
    obtain ⟨w, hw⟩ := rest?_reads he
    exact ⟨part_of_at hc (hv.trans hw), part_of_at (at_ofOffset hn) hu⟩

theorem part_of_findPhrase? (h : findPhrase? t words n = some s) : Part t s ∧ Part t ⟨n, s.start⟩ :=
  part_of_mem_phrases (mem_of_mem_head? h)

theorem part_of_findTop? (h : findTop? t words n = some s) : Part t s ∧ Part t ⟨n, s.start⟩ :=
  part_of_mem_phrases (mem_of_mem_head? h)

/-- The first words of a text end at a boundary. -/
theorem isBoundary_of_leading? (h : leading? t words = some n) : t.isBoundary n := by
  rw [leading?] at h
  split at h
  · next s hs =>
    split at h
    · cases h
      exact (part_of_findPhrase? hs).1.stop
    · cases h
  · cases h

/-- A word stands at or behind the place from which it is looked for. -/
theorem part_of_find? {word : Text} (h : find? t word n = some k) :
    Part t ⟨n, k⟩ ∧ t.isBoundary (k + word.size) := by
  obtain ⟨hplace, u, c, d, hu, hc, rfl, hhere⟩ := at_of_find? h
  obtain ⟨w, hw, -, hsize⟩ := here?_reads hhere
  refine ⟨part_of_at (at_ofOffset hplace) hu, ?_⟩
  rw [← hsize, ← hw.offset]
  exact (hc.reads hw).isBoundary

end

/-! ### Definitions -/

namespace Definition

def skipPhrase (masked : Text) (offset : Nat) (words : List Text) : Check Nat :=
  match findPhrase? masked words offset with
  | some s => do
    let between ← slice masked ⟨offset, s.start⟩
    return if between.isBlankText then s.stop else offset
  | none => return offset

def behind (masked : Text) (offset : Nat) : Check Nat :=
  Definition.existenceWords.foldlM (skipPhrase masked) offset

def tableName? (t : Text) (offset : Nat) : Search (Text × Nat) := do
  let behind ← behind (mask t) offset
  let c := (← ofOffset t behind).skipWhile isAsciiBlank
  let d := c.skipWhile Definition.isTableChar
  let name := unquote (← slice t (c.spanTo d))
  if name.isEmpty then failure else return (name, d.offset)

theorem skipPhrase_eq (masked : Text) (offset : Nat) (words : List Text) :
    skipPhrase masked offset words = .ok (Recast.Definition.skipPhrase masked offset words) := by
  rw [skipPhrase, Recast.Definition.skipPhrase]
  cases hs : findPhrase? masked words offset with
  | none => rfl
  | some s =>
    dsimp only
    rw [(part_of_findPhrase? hs).2.slice_eq]
    rfl

/-- A phrase that is skipped ends where the text can be cut. -/
theorem isBoundary_skipPhrase (h : t.isBoundary offset)
    (hwords : ∀ w ∈ words, Shows Char.toLower w) :
    t.isBoundary (Recast.Definition.skipPhrase (mask t) offset words) := by
  rw [Recast.Definition.skipPhrase]
  split
  · next s hs =>
    split
    · exact (free_of_mem_phrases hwords (mem_of_mem_head? hs)).2.isBoundary
    · exact h
  · exact h

/-- What may stand in front of a name is skipped without a breach. -/
theorem behind_eq (h : t.isBoundary offset) :
    behind (mask t) offset = .ok (Recast.Definition.behind (mask t) offset) ∧
      t.isBoundary (Recast.Definition.behind (mask t) offset) := by
  have hrun := foldlM_eq (f := skipPhrase (mask t)) (g := Recast.Definition.skipPhrase (mask t))
    (I := fun l n => t.isBoundary n ∧ ∀ words ∈ l, ∀ w ∈ words, Shows Char.toLower w)
    (fun words l n hn => ?_) (l := Definition.existenceWords) (b := offset) ⟨h, by decide⟩
  · exact ⟨hrun.1, hrun.2.1⟩
  · obtain ⟨hplace, hshows⟩ := hn
    obtain ⟨hfirst, hshows⟩ := forall_mem_cons.1 hshows
    exact ⟨skipPhrase_eq _ n words, isBoundary_skipPhrase hplace hfirst, hshows⟩

/-- The name of a table is read from a boundary, and ends at one. -/
theorem tableName?_finds (h : t.isBoundary offset) :
    Finds (tableName? t offset) (Recast.Definition.tableName? t offset) ∧
      ∀ name stop, Recast.Definition.tableName? t offset = some (name, stop) →
      t.isBoundary stop := by
  obtain ⟨hbehind, hplace⟩ := behind_eq h
  have hc : At t (Definition.nameStart t offset) := (at_ofOffset hplace).skipWhile isAsciiBlank
  obtain ⟨v, hv, -⟩ := skipWhile_reads (Definition.nameStart t offset) Definition.isTableChar
  constructor
  · refine .of_check hbehind
      (.of_check (ofOffset_eq hplace) (.of_check (part_of_at hc hv).slice_eq ?_))
    exact .ite (fun _ => finds_failure) fun _ => finds_pure _
  · intro name stop hname
    obtain ⟨-, -, rfl⟩ := Definition.tableName?_eq_some.1 hname
    exact (hc.reads hv).isBoundary

def keyColumns (entry : Text) : Check (List Text) :=
  let masked := mask entry
  match masked.find? (· == '(') with
  | none => return []
  | some opening =>
    match closing? masked opening with
    | none => return []
    | some close => do
      let list ← slice entry ⟨opening + 1, close⟩
      let names := (← Nesting.parts list).map fun c => unquote ((trim c).takeWhile (· != '('))
      return names.filter fun n => !n.isEmpty

/-- The columns of a key are cut out of its parentheses. -/
theorem keyColumns_eq (entry : Text) :
    keyColumns entry = .ok (Recast.Definition.keyColumns entry) := by
  rw [keyColumns, Recast.Definition.keyColumns]
  cases (mask entry).find? (· == '(') with
  | none => rfl
  | some opening =>
    dsimp only
    cases hclose : closing? (mask entry) opening with
    | none => rfl
    | some close =>
      dsimp only
      rw [(part_of_closing? hclose).1.slice_eq, ok_bind, Nesting.parts_eq]
      rfl

def singleKey (entry : Text) : Check (List Text) := do
  return match ← keyColumns entry with
    | [c] => [c]
    | _ => []

theorem singleKey_eq (entry : Text) :
    singleKey entry = .ok (Recast.Definition.singleKey entry) := by
  rw [singleKey, keyColumns_eq]
  rfl

def addEntry (table : Table) (entry : Text) : Check Table :=
  if (leading? entry Definition.primaryWords).isSome then do
    return { table with primaryKey := ← keyColumns entry }
  else if isAt entry "UNIQUE" 0 then do
    return { table with unique := table.unique ++ (← singleKey entry) }
  else if isAt entry "CONSTRAINT" 0 then
    match findPhrase? entry Definition.primaryWords 0, find? entry "UNIQUE" 0 with
    | some s, _ => do return { table with primaryKey := ← keyColumns (← after entry s.stop) }
    | none, some n =>
      do return { table with unique := table.unique ++ (← singleKey (← after entry n)) }
    | none, none => return table
  else
    match Definition.column? entry with
    | none => return table
    | some c =>
      let table := if (findPhrase? entry Definition.primaryWords 0).isSome
        then { table with primaryKey := [c.name] } else table
      return table.put c

/-- Every entry of a definition is taken in without a breach. -/
theorem addEntry_eq (table : Table) (entry : Text) :
    addEntry table entry = .ok (Recast.Definition.addEntry table entry) := by
  refine ok_ite (fun _ => ?_) fun _ => ok_ite (fun _ => ?_) fun _ =>
    ok_ite (fun _ => ?_) fun _ => ?_
  · rw [keyColumns_eq]
    rfl
  · rw [singleKey_eq]
    rfl
  · cases hs : findPhrase? entry Definition.primaryWords 0 with
    | some s =>
      dsimp only
      rw [after_eq (part_of_findPhrase? hs).1.stop, ok_bind, keyColumns_eq]
      rfl
    | none =>
      cases hn : find? entry "UNIQUE" 0 with
      | some n =>
        dsimp only
        rw [after_eq (part_of_find? hn).1.stop, ok_bind, singleKey_eq]
        rfl
      | none => rfl
  · cases Definition.column? entry <;> rfl

def named? (t : Text) : Search (Text × Nat) := do
  let n ← find? (mask t) "TABLE" 0
  tableName? t (n + 5)

theorem named?_finds (t : Text) : Finds (named? t) (Recast.Definition.named? t) ∧
    ∀ name stop, Recast.Definition.named? t = some (name, stop) → t.isBoundary stop := by
  have hbehind {n : Nat} (hn : find? (mask t) "TABLE" 0 = some n) : t.isBoundary (n + 5) :=
    (free_of_find? (by decide) hn).2.isBoundary
  constructor
  · exact .of_option fun n hn => (tableName?_finds (hbehind hn)).1
  · intro name stop h
    obtain ⟨n, hn, h⟩ := bind_eq_some_iff.1 h
    exact (tableName?_finds (hbehind hn)).2 name stop h

def table? (t : Text) : Search Table := do
  let masked := mask t
  let (name, stop) ← named? t
  let opening ← findFrom? (· == '(') stop (← after masked stop)
  let close ← closing? masked opening
  let list ← slice t ⟨opening + 1, close⟩
  let entries := (← Nesting.parts list).map trim
  (entries.foldlM addEntry { name } : Check Table)

/-- The entries of a definition are cut out of its parentheses. -/
theorem table?_finds (t : Text) : Finds (table? t) (Recast.Definition.table? t) := by
  refine (named?_finds t).1.bind ?_
  rintro ⟨name, stop⟩ hname
  refine .of_check (after_eq (isBoundary_mask ((named?_finds t).2 name stop hname))) ?_
  refine .of_option fun opening _ => .of_option fun close hclose => ?_
  refine .of_check (part_of_closing? hclose).1.slice_eq (.of_check (Nesting.parts_eq _) ?_)
  exact congrArg (Functor.map some) (foldlM_eq (I := fun _ _ => True)
    (fun entry _ table _ => ⟨addEntry_eq table entry, trivial⟩) trivial).1

def changes? (t : Text) : Search (Text × List Definition.Change) := do
  let (name, stop) ← named? t
  let rest ← after t stop
  return (name, (← Nesting.parts rest).filterMap Definition.change?)

theorem changes?_finds (t : Text) : Finds (changes? t) (Recast.Definition.changes? t) := by
  refine (named?_finds t).1.bind ?_
  rintro ⟨name, stop⟩ hname
  refine .of_check (after_eq ((named?_finds t).2 name stop hname)) ?_
  exact .of_check (Nesting.parts_eq _) (finds_pure _)

end Definition

namespace Catalog

def learn? (c : Catalog) (statement : Text) : Search (Text × Catalog) :=
  let t := normalizeEscapes statement.trim
  if t.startsWith "CREATE" then do
    let table ← Definition.table? t
    return (table.name, c.publish table)
  else if t.startsWith "ALTER" then do
    let (name, changes) ← Definition.changes? t
    return (name, c.update name fun table => changes.foldl Definition.Change.apply table)
  else failure

def learn (c : Catalog) (statement : Text) : Check Catalog := do
  let learned ← (learn? c statement).run
  return (learned.map (·.2)).getD c

/-- A catalog learns without a breach. -/
theorem learn_eq (c : Catalog) (statement : Text) :
    learn c statement = .ok (Recast.Catalog.learn c statement) := by
  have hfinds : Finds (learn? c statement) (Recast.Catalog.learn? c statement) := by
    refine .ite (fun _ => ?_) fun _ => .ite (fun _ => ?_) fun _ => finds_failure
    · exact (Definition.table?_finds _).bind fun table _ => finds_pure _
    · exact (Definition.changes?_finds _).bind fun _ _ => finds_pure _
  rw [learn, hfinds.run_eq]
  rfl

end Catalog

/-! ### Insertions -/

namespace Insertion

def columns? (t masked : Text) (offset : Nat) : Search (List Text × Nat) := do
  let n := ((← ofOffset masked offset).skipWhile isAsciiBlank).offset
  if masked.charAt? n = some '(' then
    let close ← closing? masked n
    let list ← slice t ⟨n + 1, close⟩
    let names := (← Nesting.parts list).map unquote
    return (names, ((← ofOffset masked (close + 1)).skipWhile isAsciiBlank).offset)
  else return ([], n)

/-- The columns of an INSERT are cut out of their parentheses. -/
theorem columns?_finds (h : (mask t).isBoundary offset) :
    Finds (columns? t (mask t) offset) (Recast.Insertion.columns? t (mask t) offset) := by
  refine .of_check (ofOffset_eq h) (.ite (fun _ => ?_) fun _ => finds_pure _)
  refine .of_option fun close hclose => ?_
  obtain ⟨hlist, hbehind⟩ := part_of_closing? hclose
  refine .of_check hlist.slice_eq (.of_check (Nesting.parts_eq _) ?_)
  exact .of_check (ofOffset_eq (isBoundary_mask hbehind)) (finds_pure _)

def ofText? (t : Text) : Search Insertion := do
  guard (Kind.ofText t == .insert)
  let masked := mask t
  let (table, n) ← Definition.tableName? t (← verbEnd? masked)
  let (columns, n) ← columns? t masked n
  let groups ← match valuesEnd? masked n with
    | some m => do groupsFrom? .group m (← after masked m)
    | none => pure []
  return { table, columns, groups, tail := (groups.getLast?.map (·.stop)).getD n }

/-- The name of the table is looked for from a boundary. -/
theorem isBoundary_of_verbEnd? {n : Nat} (h : Recast.Insertion.verbEnd? (mask t) = some n) :
    t.isBoundary n := by
  rw [Recast.Insertion.verbEnd?] at h
  split at h
  · next k hk =>
    cases h
    exact (free_of_find? (by decide) (filter_eq_some_iff.1 hk).1).2.isBoundary
  · exact isBoundary_of_findFrom? (by decide) ((at_start _).skipWhile isAsciiBlank) h

/-- An INSERT is read without a breach. -/
theorem ofText?_finds (t : Text) : Finds (ofText? t) (Recast.Insertion.ofText? t) := by
  refine .of_guard fun _ => .of_option fun verb hverb => ?_
  obtain ⟨hname, hplace⟩ := Definition.tableName?_finds (isBoundary_of_verbEnd? hverb)
  refine hname.bind ?_
  rintro ⟨table, n⟩ htable
  refine (columns?_finds (isBoundary_mask (hplace table n htable))).bind ?_
  rintro ⟨columns, m⟩ -
  dsimp only
  cases hk : valuesEnd? (mask t) m with
  | none => exact finds_pure _
  | some k =>
    refine .of_check (after_eq (Recast.Insertion.valuesEnd?_eq_some hk).1) ?_
    exact .of_option fun groups _ => finds_pure _

/-- A value group is a part of its statement, and so is what stands in its parentheses. -/
structure Held (t : Text) (group : Span) : Prop where
  whole : Part t group
  inner : Part t ⟨group.start + 1, group.stop - 1⟩

/-- The groups of rows are parts of a text that holds the rows. -/
theorem held_of_mem_groupsAt {rows : List ValueRow} {a tail : Text} (h : g ∈ groupsAt a.size rows) :
    Held (a ++ (rowsText rows ++ tail)) g := by
  induction rows generalizing a with
  | nil => cases h
  | cons r rows ih =>
    rw [rowsText_cons]
    rcases mem_cons.1 h with rfl | h
    · have hcut : a ++ (r.text ++ rowsText rows ++ tail)
          = a ++ r.lead ++ '(' :: (written r.items ++ ')' :: (rowsText rows ++ tail)) := by
        simp [ValueRow.text, ValueRow.group]
      have hsize : size (a ++ r.lead) = a.size + r.lead.size := size_append _ _
      have hplace {u v : Text} (hcut' : '(' :: (written r.items ++ ')' :: (rowsText rows ++ tail))
          = u ++ v) {n : Nat} (hn : n = a.size + r.lead.size + u.size) :
          isBoundary (a ++ (r.text ++ rowsText rows ++ tail)) n := by
        refine isBoundary_iff.2 ⟨a ++ r.lead ++ u, v, ?_, ?_⟩
        · rw [hcut, hcut', append_assoc _ u]
        · rw [size_append, hsize, hn]
      have hparen : '('.utf8Size = 1 := rfl
      have hparen' : ')'.utf8Size = 1 := rfl
      have htext := r.size_text
      refine ⟨⟨hplace (u := []) rfl rfl, hplace (u := '(' :: (written r.items ++ [')']))
        (v := rowsText rows ++ tail) (by simp) ?_, ?_⟩,
        ⟨hplace (u := ['(']) rfl rfl, hplace (u := '(' :: written r.items) rfl ?_, ?_⟩⟩ <;>
        simp only [size_cons, size_append, size_nil] <;> omega
    · rw [← size_append] at h
      rw [append_assoc, ← append_assoc]
      exact ih h

/-- The value groups of an INSERT, and what stands in them, are parts. -/
theorem held_of_ofText? {i : Insertion} (h : Recast.Insertion.ofText? t = some i)
    (hg : g ∈ i.groups) : Held t g := by
  obtain ⟨a, rows, tail, rfl, -, -, -, -, hgroups, -⟩ := exists_rows h (ne_nil_of_mem hg)
  rw [hgroups] at hg
  exact held_of_mem_groupsAt hg

def entries (t : Text) (group : Span) : Check (List Span) :=
  Nesting.itemsIn t ⟨group.start + 1, group.stop - 1⟩

def values (t : Text) (group : Span) : Check (List Text) := do
  (← entries t group).mapM (slice t)

theorem Held.entries_eq (h : Held t group) :
    entries t group = .ok (Recast.Insertion.entries t group) :=
  Nesting.itemsIn_eq h.inner

theorem Held.part_of_mem_entries (h : Held t group) (hs : s ∈ Recast.Insertion.entries t group) :
    Part t s :=
  h.inner.of_mem_itemsIn hs

theorem Held.values_eq (h : Held t group) :
    values t group = .ok (Recast.Insertion.values t group) := by
  rw [values, h.entries_eq]
  exact mapM_eq fun s hs => (h.part_of_mem_entries hs).slice_eq

end Insertion

end Checked

end Recast
