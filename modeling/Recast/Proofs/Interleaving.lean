import Recast.Proofs.Learning

/-!
# Definitions from several sessions

Several sessions teach one catalog, each with its statements in order. What a statement teaches does
not depend on what is known (`lesson?`): it defines a table or asks for changes to one. A lesson
concerns the columns it names, and a definition concerns every column of its table; to all others it
does nothing.

Statements are independent if they are about different tables, or ask for changes to columns of
different names. However independent statements of different sessions are mixed, the catalog answers
the same (`Catalog.learn_interleaved`). The order of the columns in a table does depend on the
mixture, so catalogs are compared by what one session can see of them: the columns of its own names,
in order.
-/

namespace Recast

open List Text
open Option hiding guard

variable {column table : Text} {change : Change} {l' : Lesson} {changes : List Change}
  {S : Text → Bool}

/-! ### Runs of several sessions -/

section

variable {ι : Type u} [DecidableEq ι]

/-- The steps that session `i` takes in a run, each of whose steps says which session takes it. -/
def stepsOf (i : ι) (run : List (ι × α)) : List α := (run.filter (·.1 = i)).map (·.2)

theorem stepsOf_cons_self (i : ι) (a : α) (run : List (ι × α)) :
    stepsOf i ((i, a) :: run) = a :: stepsOf i run := by
  simp [stepsOf]

theorem stepsOf_cons_of_ne {i j : ι} (h : j ≠ i) (a : α) (run : List (ι × α)) :
    stepsOf i ((j, a) :: run) = stepsOf i run := by
  simp [stepsOf, h]

theorem mem_stepsOf {i : ι} {a : α} {run : List (ι × α)} : a ∈ stepsOf i run ↔ (i, a) ∈ run := by
  simp [stepsOf]

/-- A view that the steps of other sessions leave alone, and that is carried on by the steps of
session `i`, shows after the whole run what it shows after the steps of session `i`. -/
theorem view_foldl_eq {step : σ → α → σ} {view : σ → β} {i : ι} {run : List (ι × α)}
    (hsilent : ∀ j a, (j, a) ∈ run → j ≠ i → ∀ s, view (step s a) = view s)
    (hcarried : ∀ a, (i, a) ∈ run → ∀ s t, view s = view t → view (step s a) = view (step t a))
    {s t : σ} (h : view s = view t) :
    view (run.foldl (fun s e => step s e.2) s) = view ((stepsOf i run).foldl step t) := by
  induction run generalizing s t with
  | nil => exact h
  | cons e run ih =>
    obtain ⟨j, a⟩ := e
    have ih :=
      @ih (fun j b hb => hsilent j b (mem_cons_of_mem _ hb))
        (fun b hb => hcarried b (mem_cons_of_mem _ hb))
    by_cases hj : j = i
    · subst hj
      rw [stepsOf_cons_self]
      apply ih
      exact hcarried a mem_cons_self s t h
    · rw [stepsOf_cons_of_ne hj]
      apply ih
      exact (hsilent j a mem_cons_self hj s).trans h

theorem foldl_append_cons_comm {f : β → α → β} {front : List α} {a : α}
    (h : ∀ b ∈ front, ∀ s, f (f s b) a = f (f s a) b) (back : List α) (s : β) :
    (front ++ a :: back).foldl f s = (a :: (front ++ back)).foldl f s := by
  induction front generalizing s with
  | nil => rfl
  | cons b front ih =>
    have hfront := ih (fun b' hb' => h b' (mem_cons_of_mem _ hb')) (f s b)
    rw [cons_append, foldl_cons, hfront, foldl_cons, h b mem_cons_self s]
    rfl

/-- The first step of a session has steps of other sessions before it only. -/
theorem exists_first_step {i : ι} {a : α} {rest : List α} {run : List (ι × α)}
    (h : stepsOf i run = a :: rest) : ∃ front back, run = front ++ (i, a) :: back ∧
      (∀ e ∈ front, e.1 ≠ i) ∧ ∀ j, stepsOf j run = stepsOf j ((i, a) :: (front ++ back)) := by
  induction run with
  | nil => cases h
  | cons e run ih =>
    obtain ⟨k, b⟩ := e
    by_cases hk : k = i
    · subst hk
      rw [stepsOf_cons_self, cons.injEq] at h
      exact ⟨[], run, by rw [h.1]; rfl, by simp, fun j => by rw [h.1]; rfl⟩
    · rw [stepsOf_cons_of_ne hk] at h
      obtain ⟨front, back, hrun, hfront, hsteps⟩ := ih h
      refine ⟨(k, b) :: front, back, by rw [hrun]; rfl, ?_, fun j => ?_⟩
      · rintro e (_ | ⟨_, he⟩)
        · exact hk
        · exact hfront e he
      · have hj := hsteps j
        by_cases hkj : k = j
        · subst hkj
          rw [stepsOf_cons_of_ne (Ne.symm hk)] at hj ⊢
          rw [cons_append, stepsOf_cons_self, stepsOf_cons_self, hj]
        · rw [stepsOf_cons_of_ne hkj, hj]
          by_cases hij : i = j
          · subst hij
            rw [cons_append, stepsOf_cons_self, stepsOf_cons_self, stepsOf_cons_of_ne hkj]
          · rw [cons_append, stepsOf_cons_of_ne hij, stepsOf_cons_of_ne hij, stepsOf_cons_of_ne hkj]

/-- Two runs in which every session takes the same steps come to the same end, if steps of different
sessions may change places. -/
theorem foldl_eq_of_stepsOf_eq {f : β → α → β} {run run' : List (ι × α)}
    (hsteps : ∀ i, stepsOf i run = stepsOf i run')
    (hcomm : ∀ e ∈ run, ∀ e' ∈ run, e.1 ≠ e'.1 → ∀ s, f (f s e.2) e'.2 = f (f s e'.2) e.2) (s : β) :
    run.foldl (fun s e => f s e.2) s = run'.foldl (fun s e => f s e.2) s := by
  induction run generalizing run' s with
  | nil =>
    cases run' with
    | nil => rfl
    | cons e run' =>
      have he := hsteps e.1
      rw [stepsOf_cons_self] at he
      cases he
  | cons e run ih =>
    obtain ⟨i, a⟩ := e
    have hfirst := hsteps i
    rw [stepsOf_cons_self] at hfirst
    obtain ⟨front, back, rfl, hfront, hrun'⟩ := exists_first_step hfirst.symm
    have hrest : ∀ j, stepsOf j run = stepsOf j (front ++ back) := by
      intro j
      have hj := (hsteps j).trans (hrun' j)
      by_cases hij : i = j
      · subst hij
        rw [stepsOf_cons_self, stepsOf_cons_self, cons.injEq] at hj
        exact hj.2
      · rwa [stepsOf_cons_of_ne hij, stepsOf_cons_of_ne hij] at hj
    -- the step is brought to the front of the other run, past steps of other sessions
    have hmove : ∀ e ∈ front, ∀ s, f (f s e.2) a = f (f s a) e.2 := by
      intro e he
      have hmem : e ∈ run := by
        rw [← mem_stepsOf (i := e.1), hrest]
        exact mem_stepsOf.2 (mem_append_left _ he)
      intro s
      exact hcomm e (mem_cons_of_mem _ hmem) (i, a) mem_cons_self (hfront e he) s
    rw [foldl_append_cons_comm (a := (i, a)) hmove back s, foldl_cons]
    apply ih hrest
    intro e he e' he'
    exact hcomm e (mem_cons_of_mem _ he) e' (mem_cons_of_mem _ he')

end

/-! ### What a change sees and leaves -/

theorem filter_replaceFirst_of_imp {p S : α → Bool} {new : α} (hp : ∀ a, p a → S a) (hnew : S new)
    (l : List α) : (replaceFirst p new l).filter S = replaceFirst p new (l.filter S) := by
  induction l with
  | nil => simp [replaceFirst, hnew]
  | cons a l ih =>
    rw [replaceFirst]
    by_cases ha : p a
    · simp [ha, hp a ha, hnew, replaceFirst]
    · cases hS : S a with
      | true => simp [ha, hS, replaceFirst, ih]
      | false => simp [ha, hS, ih]

theorem filter_replaceFirst_of_not {p S : α → Bool} {new : α} (hp : ∀ a, p a → S a = false)
    (hnew : S new = false) (l : List α) : (replaceFirst p new l).filter S = l.filter S := by
  induction l with
  | nil => simp [replaceFirst, hnew]
  | cons a l ih =>
    rw [replaceFirst]
    by_cases ha : p a
    · simp [ha, hp a ha, hnew]
    · rw [if_neg ha, filter_cons, filter_cons, ih]

def Table.keys (t : Table) : List Text × List Text := (t.primaryKey, t.unique)

namespace Definition

/-- The names of the columns that a change is about, in lower case. -/
def Change.names : Change → List Text
  | .put c => [c.name.lower]
  | .rename old c => [old.lower, c.name.lower]
  | .drop name => [name.lower]

/-- What a change does to the columns of a table. -/
def Change.onColumns (columns : List Column) : Change → List Column
  | .put c => replaceFirst (fun d => d.name.same c.name) c columns
  | .rename old c =>
    if columns.any fun d => d.name.same old then replaceFirst (fun d => d.name.same old) c columns
    else replaceFirst (fun d => d.name.same c.name) c columns
  | .drop name => columns.filter fun d => !d.name.same name

/-- The names, in lower case, that a change strikes out of the keys. -/
def Change.struck : Change → List Text
  | .drop name => [name.lower]
  | _ => []

/-- The primary key and the unique columns, without the names in a list. -/
def strike (names : List Text) (keys : List Text × List Text) : List Text × List Text :=
  (keys.1.filter fun k => !names.contains k.lower, keys.2.filter fun k => !names.contains k.lower)

theorem strike_comm (names names' : List Text) (keys : List Text × List Text) :
    strike names (strike names' keys) = strike names' (strike names keys) := by
  rw [strike, strike, strike, strike, filter_comm, filter_comm (l := keys.2)]

theorem strike_strike (names names' : List Text) (keys : List Text × List Text) :
    strike names' (strike names keys) = strike (names ++ names') keys := by
  simp [strike, List.filter_filter, Bool.and_comm]

theorem Change.columns_apply (t : Table) (change : Change) :
    (change.apply t).columns = change.onColumns t.columns := by
  cases change with
  | put c => rfl
  | drop name => rfl
  | rename old c =>
    have hsome : (t.column? old).isSome = t.columns.any fun d => d.name.same old := by
      rw [Bool.eq_iff_iff]
      simp [Table.column?]
    rw [apply, Table.rename, onColumns, hsome]
    split <;> rfl

theorem Change.keys_apply (t : Table) (change : Change) :
    (change.apply t).keys = strike change.struck t.keys := by
  cases change with
  | put c => simp [apply, Table.put, Table.keys, strike, struck]
  | drop name =>
    have hstruck : ∀ k : Text, [name.lower].contains k.lower = k.same name := by
      intro k
      rw [Bool.eq_iff_iff, same_iff, contains_iff_mem, mem_singleton]
    simp only [apply, Table.drop, Table.keys, strike, struck, hstruck]
  | rename old c =>
    rw [apply, Table.rename]
    split <;> simp [Table.put, Table.keys, strike, struck]

theorem keys_foldl_apply (t : Table) (changes : List Change) :
    (changes.foldl Change.apply t).keys = strike (changes.flatMap Change.struck) t.keys := by
  induction changes generalizing t with
  | nil => simp [strike]
  | cons change changes ih =>
    rw [foldl_cons, ih, Change.keys_apply, strike_strike, flatMap_cons]

theorem columns_foldl_apply (t : Table) (changes : List Change) :
    (changes.foldl Change.apply t).columns = changes.foldl Change.onColumns t.columns := by
  induction changes generalizing t with
  | nil => rfl
  | cons change changes ih => rw [foldl_cons, ih, Change.columns_apply, foldl_cons]

/-- A change keeps apart the columns whose names belong to `S` if its own names do. -/
theorem Change.filter_onColumns_of_mem (h : ∀ x ∈ change.names, S x) (columns : List Column) :
    (change.onColumns columns).filter (fun d => S d.name.lower)
      = change.onColumns (columns.filter fun d => S d.name.lower) := by
  have hsame : ∀ x : Text, S x.lower → ∀ d : Column, d.name.same x → S d.name.lower := by
    intro x hx d hd
    rwa [same_iff.1 hd]
  cases change with
  | put c =>
    have hc : S c.name.lower := h _ (by simp [names])
    exact filter_replaceFirst_of_imp (hsame c.name hc) hc columns
  | drop name =>
    rw [onColumns, onColumns, filter_comm]
  | rename old c =>
    have hc : S c.name.lower := h _ (by simp [names])
    have hold : S old.lower := h _ (by simp [names])
    have hany : (columns.filter fun d => S d.name.lower).any (fun d => d.name.same old)
        = columns.any fun d => d.name.same old := by
      rw [List.any_filter]
      refine any_congr rfl ?_
      intro d
      cases hd : d.name.same old with
      | true => simp [hsame old hold d hd]
      | false => simp
    rw [onColumns, onColumns, hany]
    split
    · exact filter_replaceFirst_of_imp (hsame old hold) hc columns
    · exact filter_replaceFirst_of_imp (hsame c.name hc) hc columns

/-- A change does nothing to the columns whose names belong to `S` if none of its own names does. -/
theorem Change.filter_onColumns_of_not_mem (h : ∀ x ∈ change.names, S x = false)
    (columns : List Column) :
    (change.onColumns columns).filter (fun d => S d.name.lower) = columns.filter fun d =>
      S d.name.lower := by
  have hsame :
      ∀ x : Text, S x.lower = false → ∀ d : Column, d.name.same x → S d.name.lower = false := by
    intro x hx d hd
    rwa [same_iff.1 hd]
  cases change with
  | put c =>
    have hc : S c.name.lower = false := h _ (by simp [names])
    exact filter_replaceFirst_of_not (hsame c.name hc) hc columns
  | drop name =>
    have hname : S name.lower = false := h _ (by simp [names])
    rw [onColumns, List.filter_filter]
    refine filter_congr ?_
    intro d _
    cases hd : d.name.same name with
    | true => simp [hsame name hname d hd]
    | false => simp
  | rename old c =>
    have hc : S c.name.lower = false := h _ (by simp [names])
    have hold : S old.lower = false := h _ (by simp [names])
    rw [onColumns]
    split
    · exact filter_replaceFirst_of_not (hsame old hold) hc columns
    · exact filter_replaceFirst_of_not (hsame c.name hc) hc columns

theorem filter_foldl_onColumns_of_mem (h : ∀ x ∈ changes.flatMap Change.names, S x)
    (columns : List Column) :
    (changes.foldl Change.onColumns columns).filter (fun d => S d.name.lower)
      = changes.foldl Change.onColumns (columns.filter fun d => S d.name.lower) := by
  induction changes generalizing columns with
  | nil => rfl
  | cons change changes ih =>
    rw [flatMap_cons, forall_mem_append] at h
    rw [foldl_cons, ih h.2, Change.filter_onColumns_of_mem h.1, foldl_cons]

theorem filter_foldl_onColumns_of_not_mem (h : ∀ x ∈ changes.flatMap Change.names, S x = false)
    (columns : List Column) :
    (changes.foldl Change.onColumns columns).filter (fun d => S d.name.lower)
      = columns.filter fun d => S d.name.lower := by
  induction changes generalizing columns with
  | nil => rfl
  | cons change changes ih =>
    rw [flatMap_cons, forall_mem_append] at h
    rw [foldl_cons, ih h.2, Change.filter_onColumns_of_not_mem h.1]

/-! ### Lessons -/

/-- What a statement teaches, whatever is known already: a table as a whole, or changes to the table
of a name. -/
inductive Lesson where
  | define (table : Table)
  | alter (name : Text) (changes : List Change)
deriving DecidableEq, Repr

namespace Lesson

def name : Lesson → Text
  | .define table => table.name
  | .alter name _ => name

def key (l : Lesson) : Text := l.name.lower

def teach (c : Catalog) : Lesson → Catalog
  | .define table => c.publish table
  | .alter name changes => c.update name fun t => changes.foldl Change.apply t

/-- The names of the columns, in lower case; a definition names them all. -/
def names? : Lesson → Option (List Text)
  | .define _ => none
  | .alter _ changes => some (changes.flatMap Change.names)

/-- Whether a lesson is about a column of the table with a given key, names in lower case. -/
def Concerns (l : Lesson) (key column : Text) : Prop :=
  l.key = key ∧ ∀ names ∈ l.names?, column ∈ names

/-- Two lessons are about different tables, or change columns of different names. -/
def Independent (l l' : Lesson) : Prop :=
  l.key = l'.key → ∃ names ∈ l.names?, ∃ names' ∈ l'.names?, ∀ x ∈ names, x ∉ names'

instance (l : Lesson) (key column : Text) : Decidable (l.Concerns key column) :=
  inferInstanceAs (Decidable (_ ∧ _))

instance (l l' : Lesson) : Decidable (l.Independent l') :=
  inferInstanceAs (Decidable (_ → _))

end Lesson

/-- The lesson in a statement. -/
def lesson? (statement : Text) : Option Lesson :=
  let t := Literal.normalizeEscapes statement.trim
  if t.startsWith "CREATE" then (table? t).map .define
  else if t.startsWith "ALTER" then (changes? t).map fun p => .alter p.1 p.2
  else none

end Definition

namespace Catalog

open Definition

theorem learn?_eq (c : Catalog) (s : Text) :
    c.learn? s = (lesson? s).map fun l => (l.name, l.teach c) := by
  rw [learn?, lesson?]
  generalize Literal.normalizeEscapes s.trim = t
  split
  · cases Definition.table? t <;> rfl
  · split
    · cases changes? t <;> rfl
    · rfl

theorem learn_eq (c : Catalog) (s : Text) :
    c.learn s = ((lesson? s).map fun l => l.teach c).getD c := by
  rw [learn, learn?_eq]
  cases lesson? s <;> rfl

/-! ### What is seen of a catalog -/

theorem lookUp_store_of_ne {key key' : Text} (h : key' ≠ key) (a : α) (l : List (Text × α)) :
    lookUp key' (store key a l) = lookUp key' l := by
  induction l with
  | nil => simp [store, replaceFirst, lookUp, h.symm]
  | cons e l ih =>
    rw [store, replaceFirst]
    by_cases he : e.1 = key
    · simp [he, lookUp, h.symm]
    · rw [if_neg (by simpa using he)]
      by_cases he' : e.1 = key'
      · simp [lookUp, he']
      · simpa [lookUp, he', store] using ih

/-- The columns in the entry under a key whose names belong to `S`. -/
def seen (key : Text) (S : Text → Bool) (c : Catalog) : List Column :=
  (((lookUp key c.tables).map (·.columns)).getD []).filter fun d => S d.name.lower

/-- The keys in the entry under a key. -/
def keysAt (key : Text) (c : Catalog) : Option (List Text × List Text) :=
  (lookUp key c.tables).map Table.keys

theorem column?_eq_seen (c : Catalog) (table : Text) (h : S column.lower) :
    c.column? table column = (c.seen table.lower S).find? fun d => d.name.same column := by
  have hfind :
      ∀ l : List Column, (l.filter fun d => S d.name.lower).find? (fun d => d.name.same column)
      = l.find? fun d => d.name.same column := by
    intro l
    rw [find?_filter]
    congr 1
    funext d
    cases hd : d.name.same column with
    | true => simp [same_iff.1 hd, h]
    | false => simp
  rw [column?, seen, hfind, table?]
  cases lookUp table.lower c.tables <;> rfl

theorem map_isKey_eq (c : Catalog) (table column : Text) :
    (c.table? table).map (·.isKey column) = (c.keysAt table.lower).map fun keys =>
      Table.isKey { name := [], primaryKey := keys.1, unique := keys.2 } column := by
  rw [keysAt, Option.map_map]
  rfl

end Catalog

namespace Definition.Lesson

open Catalog

variable {l : Lesson} {c d : Catalog} {key : Text} {S : Text → Bool}

theorem lookUp_teach_of_ne (h : key ≠ l.key) :
    lookUp key (l.teach c).tables = lookUp key c.tables := by
  cases l with
  | define table => exact lookUp_store_of_ne h _ _
  | alter name changes => exact lookUp_store_of_ne h _ _

theorem seen_define (table : Table) : seen table.name.lower S (teach c (.define table))
    = table.columns.filter fun d => S d.name.lower := by
  rw [seen, teach, publish, lookUp_store_self]
  rfl

theorem seen_alter (name : Text) (changes : List Change) :
    seen name.lower S (teach c (.alter name changes))
      = (changes.foldl Change.onColumns
        (((lookUp name.lower c.tables).map (·.columns)).getD [])).filter
          fun d => S d.name.lower := by
  rw [seen, teach, update, lookUp_store_self, map_some, columns_foldl_apply, Catalog.table?]
  cases lookUp name.lower c.tables <;> rfl

/-- A lesson that concerns none of the columns seen does nothing to them. -/
theorem seen_teach_of_not_concerns (h : ∀ x, S x → ¬ l.Concerns key x) :
    seen key S (l.teach c) = seen key S c := by
  by_cases hkey : key = l.key
  · subst hkey
    cases l with
    | define table =>
      -- a definition concerns every column, so none is seen
      have hnone : ∀ x, S x = false := by
        intro x
        refine Bool.eq_false_iff.2 fun hx => h x hx ⟨rfl, ?_⟩
        intro names hnames
        cases hnames
      simp [seen, hnone]
    | alter name changes =>
      have hnone : ∀ x ∈ changes.flatMap Change.names, S x = false := by
        intro x hx
        refine Bool.eq_false_iff.2 fun hS => h x hS ⟨rfl, ?_⟩
        intro names hnames
        cases hnames
        exact hx
      exact (seen_alter name changes).trans (filter_foldl_onColumns_of_not_mem hnone _)
  · rw [seen, seen, lookUp_teach_of_ne hkey]

/-- What is seen after a lesson that concerns only columns seen depends on what was seen before. -/
theorem seen_teach_congr (h : ∀ x, l.Concerns key x → S x) (hseen : seen key S c = seen key S d) :
    seen key S (l.teach c) = seen key S (l.teach d) := by
  by_cases hkey : key = l.key
  · subst hkey
    cases l with
    | define table => exact (seen_define table).trans (seen_define table).symm
    | alter name changes =>
      have hall : ∀ x ∈ changes.flatMap Change.names, S x := by
        intro x hx
        refine h x ⟨rfl, ?_⟩
        intro names hnames
        cases hnames
        exact hx
      have hteach : ∀ c : Catalog, seen name.lower S (teach c (.alter name changes))
          = changes.foldl Change.onColumns (seen name.lower S c) := by
        intro c
        rw [seen_alter, filter_foldl_onColumns_of_mem hall, seen]
      rw [key, Lesson.name] at hseen ⊢
      rw [hteach, hteach, hseen]
  · rw [seen, seen, lookUp_teach_of_ne hkey, lookUp_teach_of_ne hkey]
    exact hseen

/-- What a lesson makes of the keys under a key. -/
def onKeys (key : Text) (keys : Option (List Text × List Text)) :
    Lesson → Option (List Text × List Text)
  | .define table => if table.name.lower = key then some table.keys else keys
  | .alter name changes =>
    if name.lower =
      key then some (strike (changes.flatMap Change.struck) (keys.getD ([], []))) else keys

theorem onKeys_of_ne (h : l.key ≠ key) (keys : Option (List Text × List Text)) :
    l.onKeys key keys = keys := by
  cases l with
  | define table => exact if_neg h
  | alter name changes => exact if_neg h

theorem keysAt_teach (key : Text) (c : Catalog) (l : Lesson) :
    keysAt key (l.teach c) = l.onKeys key (keysAt key c) := by
  by_cases hkey : l.key = key
  · subst hkey
    cases l with
    | define table =>
      rw [keysAt, teach, publish, key, name, lookUp_store_self, onKeys, if_pos rfl]
      rfl
    | alter name changes =>
      rw [keysAt, teach, update, key, Lesson.name, lookUp_store_self, map_some, keys_foldl_apply,
        onKeys, if_pos rfl, Catalog.table?, keysAt]
      cases lookUp name.lower c.tables <;> rfl
  · rw [onKeys_of_ne hkey, keysAt, lookUp_teach_of_ne (Ne.symm hkey), keysAt]

/-- Independent lessons may change places, as far as keys go. -/
theorem onKeys_comm (h : l.Independent l') (key : Text) (keys : Option (List Text × List Text)) :
    l'.onKeys key (l.onKeys key keys) = l.onKeys key (l'.onKeys key keys) := by
  by_cases hl : l.key = key
  · by_cases hl' : l'.key = key
    · obtain ⟨names, hnames, names', hnames', -⟩ := h (hl.trans hl'.symm)
      cases l with
      | define table => cases hnames
      | alter name changes =>
        cases l' with
        | define table => cases hnames'
        | alter name' changes' =>
          have hname : name.lower = key := hl
          have hname' : name'.lower = key := hl'
          simp only [onKeys, if_pos hname, if_pos hname', getD_some]
          rw [strike_comm]
    · rw [onKeys_of_ne hl', onKeys_of_ne hl']
  · rw [onKeys_of_ne hl, onKeys_of_ne hl]

theorem Independent.symm (h : l.Independent l') : l'.Independent l := by
  intro hkey
  obtain ⟨names, hnames, names', hnames', hdisjoint⟩ := h hkey.symm
  exact ⟨names', hnames', names, hnames, fun x hx hx' => hdisjoint x hx' hx⟩

theorem Independent.not_concerns (h : l.Independent l') {x : Text} (hl : l.Concerns key x) :
    ¬ l'.Concerns key x := by
  intro hl'
  obtain ⟨names, hnames, names', hnames', hdisjoint⟩ := h (hl.1.trans hl'.1.symm)
  exact hdisjoint x (hl.2 names hnames) (hl'.2 names' hnames')

end Definition.Lesson

namespace Catalog

open Definition

def Independent (s s' : Text) : Prop := ∀ l ∈ lesson? s, ∀ l' ∈ lesson? s', l.Independent l'

instance (s s' : Text) : Decidable (Independent s s') :=
  inferInstanceAs (Decidable (∀ l ∈ lesson? s, ∀ l' ∈ lesson? s', l.Independent l'))

/-- Two catalogs give the same answers about columns and keys. -/
structure Same (c d : Catalog) : Prop where
  column : ∀ table column, c.column? table column = d.column? table column
  key : ∀ table column, (c.table? table).map (·.isKey column) = (d.table? table).map
      (·.isKey column)

/-! ### One statement -/

variable {c d : Catalog} {s key : Text} {S : Text → Bool}

theorem seen_learn_of_not_concerns (h : ∀ l ∈ lesson? s, ∀ x, S x → ¬ l.Concerns key x) :
    seen key S (c.learn s) = seen key S c := by
  rw [learn_eq]
  cases hl : lesson? s with
  | none => rfl
  | some l => exact Lesson.seen_teach_of_not_concerns (h l hl)

theorem seen_learn_congr (h : ∀ l ∈ lesson? s, ∀ x, l.Concerns key x → S x)
    (hseen : seen key S c = seen key S d) : seen key S (c.learn s) = seen key S (d.learn s) := by
  rw [learn_eq, learn_eq]
  cases hl : lesson? s with
  | none => exact hseen
  | some l => exact Lesson.seen_teach_congr (h l hl) hseen

def onKeys (key : Text) (keys : Option (List Text × List Text)) (s : Text) :
    Option (List Text × List Text) :=
  ((lesson? s).map (Lesson.onKeys key keys)).getD keys

theorem keysAt_learn (key : Text) (c : Catalog) (s : Text) :
    keysAt key (c.learn s) = onKeys key (keysAt key c) s := by
  rw [learn_eq, onKeys]
  cases lesson? s with
  | none => rfl
  | some l => exact Lesson.keysAt_teach key c l

theorem onKeys_comm {s' : Text} (h : Independent s s') (key : Text)
    (keys : Option (List Text × List Text)) :
    onKeys key (onKeys key keys s) s' = onKeys key (onKeys key keys s') s := by
  rw [onKeys, onKeys, onKeys, onKeys]
  cases hl : lesson? s with
  | none => rfl
  | some l =>
    cases hl' : lesson? s' with
    | none => rfl
    | some l' => exact Lesson.onKeys_comm (h l hl l' hl') key keys

/-! ### Runs of statements -/

variable {ι : Type u}

/-- The catalog after a run of statements, each of which says which session issues it. -/
def learnRun (c : Catalog) (run : List (ι × Text)) : Catalog := run.foldl (fun c e => c.learn e.2) c

/-- Statements of different sessions are independent. -/
def Apart (run : List (ι × Text)) : Prop :=
  ∀ e ∈ run, ∀ e' ∈ run, e.1 ≠ e'.1 → Independent e.2 e'.2

variable {run run' : List (ι × Text)}

/-- A column that no statement concerns stays as it was. -/
theorem column?_learnRun_of_not_concerns
    (h : ∀ e ∈ run, ∀ l ∈ lesson? e.2, ¬ l.Concerns table.lower column.lower) :
    (c.learnRun run).column? table column = c.column? table column := by
  induction run generalizing c with
  | nil => rfl
  | cons e run ih =>
    let S : Text → Bool := fun x => decide (x = column.lower)
    have hself : S column.lower := decide_eq_true rfl
    have hseen : seen table.lower S (c.learn e.2) = seen table.lower S c := by
      apply seen_learn_of_not_concerns
      intro l hl x hx
      rw [of_decide_eq_true hx]
      exact h e mem_cons_self l hl
    calc (c.learnRun (e :: run)).column? table column
        = (c.learn e.2).column? table column := ih fun e' he' => h e' (mem_cons_of_mem _ he')
      _ = c.column? table column := by
          rw [column?_eq_seen _ _ hself, hseen, ← column?_eq_seen _ _ hself]

theorem keysAt_learnRun (key : Text) (c : Catalog) (run : List (ι × Text)) :
    keysAt key (c.learnRun run) = run.foldl (fun keys e => onKeys key keys e.2) (keysAt key c) := by
  induction run generalizing c with
  | nil => rfl
  | cons e run ih => exact (ih (c.learn e.2)).trans (by rw [keysAt_learn, foldl_cons])

variable [DecidableEq ι]

/-- A column that a statement concerns is at the end as if its session had been alone. -/
theorem column?_learnRun_of_concerns (hapart : Apart run) {i : ι} (hs : (i, s) ∈ run) {l : Lesson}
    (hl : lesson? s = some l) (hconcerns : l.Concerns table.lower column.lower) :
    (c.learnRun run).column? table column = ((stepsOf i run).foldl learn c).column? table
      column := by
  -- the columns that the session sees are all those that it names
  let S : Text → Bool := fun x => (stepsOf i run).any fun s =>
    (lesson? s).any fun l => decide (l.Concerns table.lower x)
  have hS : ∀ {x}, S x ↔ ∃ s, (i, s) ∈ run ∧ ∃ l ∈ lesson? s, l.Concerns table.lower x := by
    intro x
    simp [S, mem_stepsOf, Option.any_eq_true]
  have hcolumn : S column.lower := hS.2 ⟨s, hs, l, hl, hconcerns⟩
  have hsilent : ∀ j s', (j, s') ∈ run → j ≠ i →
      ∀ c : Catalog, seen table.lower S (c.learn s') = seen table.lower S c := by
    intro j s' hs' hj c
    apply seen_learn_of_not_concerns
    intro l' hl' x hx
    obtain ⟨s₀, hs₀, l₀, hl₀, hx₀⟩ := hS.1 hx
    exact (hapart _ hs₀ _ hs' (Ne.symm hj) l₀ hl₀ l' hl').not_concerns hx₀
  have hcarried :
      ∀ s', (i, s') ∈ run → ∀ c d : Catalog, seen table.lower S c = seen table.lower S d →
      seen table.lower S (c.learn s') = seen table.lower S (d.learn s') := by
    intro s' hs' c d
    apply seen_learn_congr
    intro l' hl' x hx
    exact hS.2 ⟨s', hs', l', hl', hx⟩
  have hseen : seen table.lower S (c.learnRun run)
      = seen table.lower S ((stepsOf i run).foldl learn c) := view_foldl_eq hsilent hcarried rfl
  rw [column?_eq_seen _ _ hcolumn, hseen, ← column?_eq_seen _ _ hcolumn]

/-- Runs in which every session issues the same statements end in catalogs with the same answers. -/
theorem same_learnRun (hsteps : ∀ i, stepsOf i run = stepsOf i run') (hapart : Apart run)
    (c : Catalog) : Same (c.learnRun run) (c.learnRun run') := by
  have hmem : ∀ {e}, e ∈ run ↔ e ∈ run' := by
    intro e
    rw [← mem_stepsOf (i := e.1), hsteps, mem_stepsOf]
  constructor
  · intro table column
    by_cases h : ∃ e ∈ run, ∃ l ∈ lesson? e.2, l.Concerns table.lower column.lower
    · obtain ⟨⟨i, s⟩, he, l, hl, hconcerns⟩ := h
      have hapart' : Apart run' := fun e he e' he' => hapart e (hmem.2 he) e' (hmem.2 he')
      rw [column?_learnRun_of_concerns hapart he hl hconcerns,
        column?_learnRun_of_concerns hapart' (hmem.1 he) hl hconcerns, hsteps]
    · have hnone : ∀ e ∈ run, ∀ l ∈ lesson? e.2, ¬ l.Concerns table.lower column.lower :=
        fun e he l hl hconcerns => h ⟨e, he, l, hl, hconcerns⟩
      rw [column?_learnRun_of_not_concerns hnone,
        column?_learnRun_of_not_concerns fun e he => hnone e (hmem.2 he)]
  · intro table column
    have hkeys : keysAt table.lower (c.learnRun run) = keysAt table.lower (c.learnRun run') := by
      rw [keysAt_learnRun, keysAt_learnRun]
      apply foldl_eq_of_stepsOf_eq hsteps
      intro e he e' he' hne keys
      exact onKeys_comm (hapart e he e' he' hne) table.lower keys
    rw [map_isKey_eq, map_isKey_eq, hkeys]

/-- A statement that teaches nothing leaves the catalog as it is, and any other changes the entry of
its table only. However the statements of several sessions are mixed, if those of different sessions
are about different tables or ask for changes to columns of different names, the catalog answers the
same about columns and keys; in particular two such statements may change places. And a column that
a statement concerns is in the end as if the session of that statement had been alone, so none gets
lost. -/
theorem learn_interleaved (c : Catalog) : (∀ s, c.learn? s = none → c.learn s = c) ∧
    (∀ s name c', c.learn? s = some (name, c') → c.learn s = c' ∧ c'.identities = c.identities ∧
      ∀ key, key ≠ name.lower → lookUp key c'.tables = lookUp key c.tables) ∧
    (∀ s s', Independent s s' → Same ((c.learn s).learn s') ((c.learn s').learn s)) ∧
    ∀ run run' : List (ι × Text), (∀ i, stepsOf i run = stepsOf i run') →
      (∀ e ∈ run, ∀ e' ∈ run, e.1 ≠ e'.1 → Independent e.2 e'.2) →
      Same (c.learnRun run) (c.learnRun run') ∧
      ∀ i s l table column, (i, s) ∈ run → lesson? s = some l →
      l.Concerns table.lower column.lower →
        (c.learnRun run).column? table column = ((stepsOf i run).foldl learn c).column? table
          column := by
  refine ⟨?_, ?_, ?_, ?_⟩
  · intro s hnone
    rw [learn, hnone]
    rfl
  · intro s name c' hsome
    have hlearn : c.learn s = c' := by
      rw [learn, hsome]
      rfl
    rw [learn?_eq] at hsome
    obtain ⟨l, -, hl⟩ := map_eq_some_iff.1 hsome
    cases hl
    refine ⟨hlearn, ?_, fun key hkey => Lesson.lookUp_teach_of_ne hkey⟩
    cases l <;> rfl
  · intro s s' hind
    have hsteps : ∀ i, stepsOf i [(false, s), (true, s')] = stepsOf i [(true, s'), (false, s)] := by
      intro i
      cases i <;> rfl
    refine same_learnRun hsteps ?_ c
    rintro e he e' he' hne
    simp only [mem_cons, not_mem_nil, or_false] at he he'
    rcases he with rfl | rfl <;> rcases he' with rfl | rfl
    · exact absurd rfl hne
    · exact hind
    · exact fun l hl l' hl' => (hind l' hl' l hl).symm
    · exact absurd rfl hne
  · intro run run' hsteps hapart
    refine ⟨same_learnRun hsteps hapart c, ?_⟩
    intro i s l table column hs hl hconcerns
    exact column?_learnRun_of_concerns hapart hs hl hconcerns

/-- A session that adds a column and renames it, and another that adds one to the same table. -/
theorem learn_interleaved_alterations :
    let c := ({} : Catalog).learn "CREATE TABLE t (id int, PRIMARY KEY (id))"
    let add : Text := "ALTER TABLE t ADD COLUMN c0 text"
    let rename : Text := "alter table T change `c0` d0 varchar(9)"
    let other : Text := "ALTER TABLE t ADD c1 longtext, DROP id"
    let run := [(0, add), (1, other), (0, rename)]
    let run' := [(0, add), (0, rename), (1, other)]
    (∀ i, stepsOf i run = stepsOf i run') ∧ Independent rename other ∧
      Same (c.learnRun run) (c.learnRun run') ∧
      ((c.learnRun run).column? "t" "D0").isSome := by
  intro c add rename other run run'
  have hsteps : ∀ i, stepsOf i run = stepsOf i run' := by
    intro i
    match i with
    | 0 => rfl
    | 1 => rfl
    | i + 2 => rfl
  have hrename : Independent rename other := by decide +kernel
  have hapart : ∀ e ∈ run, ∀ e' ∈ run, e.1 ≠ e'.1 → Independent e.2 e'.2 := by decide +kernel
  have hlesson : (lesson? rename).any (fun l => decide (l.Concerns (lower "t") (lower "D0"))) := by
    decide +kernel
  obtain ⟨l, hl, hconcerns⟩ := (any_eq_true _ _).1 hlesson
  obtain ⟨-, -, -, hruns⟩ := learn_interleaved (ι := Nat) c
  obtain ⟨hsame, hcolumn⟩ := hruns run run' hsteps hapart
  refine ⟨hsteps, hrename, hsame, ?_⟩
  decide +kernel

end Catalog

end Recast
