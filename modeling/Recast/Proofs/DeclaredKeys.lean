import Recast.Proofs.Learning
import Recast.Proofs.Pipeline
import Recast.Proofs.PrimaryPhrase

/-!
# The primary key that is learned and the one that is declared

A CREATE TABLE statement is read twice: to write the statement for the target, with literals out of
the way, and to learn the table, with nothing out of the way. Both readers cut the statement into
the same entries (`table?_of_definition?`), and an entry for a column that names PRIMARY KEY is read
alike if it is `Legible`: a plain name, a type, and the words outside literals and parentheses
(`exists_add`). The catalog then knows the primary key that the statement declares
(`learned_key_is_declared`).
-/

namespace Recast

open Literal Nesting Cursor Keyword List Text
open Option hiding guard

variable {entry list t table : Text} {c close opening : Char}

namespace CreateTable

open Definition

/-! ### Names of columns -/

/-- The marks that a name may stand between. -/
def nameMarks : List (Char × Char) := [('\x60', '\x60'), ('[', ']'), ('"', '"')]

/-- How a column name is written: as it is, or between marks. -/
inductive Spelled : Text → Text → Prop
  | bare {name : Text} : name ≠ [] → (∀ c ∈ name, isNameChar c = true ∨ c = '$') → Spelled name name
  | marked {opening close : Char} {name : Text} : (opening, close) ∈ nameMarks → name ≠ [] →
    (∀ c ∈ name, isNameMark c = false) → Spelled (opening :: (name ++ [close])) name

/-- What may follow a name: a gap, and a type. -/
def Typed (rest : Text) : Prop :=
  ∃ gap c more, rest = gap ++ c :: more ∧ gap ≠ [] ∧ (∀ b ∈ gap, isGap b = true) ∧
    isNameChar c = true

theorem isBlank_of_isGap (h : isGap c) : isBlank c := by
  simp only [isGap, Bool.or_eq_true, beq_iff_eq] at h
  rcases h with ((rfl | rfl) | rfl) | rfl <;> decide

theorem isGap_of_not_isBlank (h : isBlank c = false) : isGap c = false := by
  cases hgap : isGap c with
  | false => rfl
  | true =>
    simp [isBlank_of_isGap hgap] at h

theorem Typed.exists_cons {rest : Text} (h : Typed rest) : ∃ b r, rest = b :: r ∧ isGap b := by
  obtain ⟨gap, c, more, rfl, hne, hgap, -⟩ := h
  obtain ⟨b, gap, rfl⟩ := exists_cons_of_ne_nil hne
  exact ⟨b, gap ++ c :: more, rfl, hgap b (by simp)⟩

theorem isNameMark_of_isNameChar (h : isNameChar c) : isNameMark c = false := by
  cases hmark : isNameMark c with
  | false => rfl
  | true =>
    simp only [isNameMark, Bool.or_eq_true, beq_iff_eq] at hmark
    rcases hmark with ((rfl | rfl) | rfl) | rfl <;> cases h

theorem not_of_bare (h : isNameChar c ∨ c = '$') : isNameMark c = false ∧ isBlank c = false := by
  rcases h with h | rfl
  · exact ⟨isNameMark_of_isNameChar h, isBlank_of_isNameChar h⟩
  · decide

theorem isNameMark_of_mem (h : (opening, close) ∈ nameMarks) :
    isNameMark opening ∧ isNameMark close ∧ isBlank opening = false ∧ isBlank close = false := by
  have hall :
      ∀ e ∈ nameMarks, isNameMark e.1 ∧ isNameMark e.2 ∧ isBlank e.1 = false ∧
        isBlank e.2 = false := by decide
  exact hall _ h

/-- How both readers split off a name without marks. -/
theorem names_of_bare (h : isNameMark c = false) (t : Text) :
    splitName (c :: t) = ((c :: t).takeWhile (!isBlank ·), (c :: t).dropWhile (!isBlank ·)) ∧
      name? (c :: t) = run? (fun c => isNameChar c || c == '$') (c :: t) := by
  constructor
  · unfold splitName
    split
    · next heq => cases heq; cases h
    · next heq => cases heq; cases h
    · next heq => cases heq; cases h
    · rfl
  · unfold name?
    split
    · next heq => cases heq; cases h
    · next heq => cases heq; cases h
    · next heq => cases heq; cases h
    · rfl

theorem names_of_marks (h : (opening, close) ∈ nameMarks) (t : Text) :
    splitName (opening :: t) = splitQuoted opening close t ∧
      name? (opening :: t) = enclosed? close t := by
  simp only [nameMarks, mem_cons, Prod.mk.injEq, not_mem_nil, or_false] at h
  rcases h with ⟨rfl, rfl⟩ | ⟨rfl, rfl⟩ | ⟨rfl, rfl⟩ <;> exact ⟨rfl, rfl⟩

namespace Spelled

variable {token name rest : Text}

theorem ends (h : Spelled token name) : (∃ c r, token = c :: r ∧ isBlank c = false) ∧
    ∀ c, token.getLast? = some c → isBlank c = false := by
  cases h with
  | bare hne hall =>
    refine ⟨?_, fun c hc => (not_of_bare (hall c (mem_of_mem_getLast? hc))).2⟩
    obtain ⟨c, r, rfl⟩ := exists_cons_of_ne_nil hne
    exact ⟨c, r, rfl, (not_of_bare (hall c (by simp))).2⟩
  | marked hmarks hne hall =>
    obtain ⟨-, -, hopening, hclose⟩ := isNameMark_of_mem hmarks
    refine ⟨⟨_, _, rfl, hopening⟩, fun c hc => ?_⟩
    rw [getLast?_cons, getLast?_concat] at hc
    cases hc
    exact hclose

/-- A spelled name without its marks. -/
theorem unquote_eq (h : Spelled token name) : token.unquote = name := by
  obtain ⟨⟨c, r, rfl, hc⟩, hlast⟩ := h.ends
  have htrim : trim (c :: r) = c :: r := by
    show dropEnd isBlank ((c :: r).dropWhile isBlank) = c :: r
    rw [dropWhile_cons_of_neg (by simp [hc])]
    exact dropEnd_of_last hlast
  rw [unquote, htrim, strip]
  cases h with
  | bare _ hall =>
    rw [dropWhile_cons_of_neg (by simp [(not_of_bare (hall c (by simp))).1])]
    exact dropEnd_of_last fun x hx => (not_of_bare (hall x (mem_of_mem_getLast? hx))).1
  | marked hmarks hne hall =>
    obtain ⟨hopening, hclose, -⟩ := isNameMark_of_mem hmarks
    obtain ⟨x, name, rfl⟩ := exists_cons_of_ne_nil hne
    rw [dropWhile_cons_of_pos hopening, cons_append,
      dropWhile_cons_of_neg (by simp [hall x (by simp)]), ← cons_append,
      dropEnd_append (by simpa using hclose)]
    exact dropEnd_of_last fun y hy => hall y (mem_of_mem_getLast? hy)

/-- Both readers take the same name off the front of an entry. -/
theorem names_eq (h : Spelled token name) (hrest : Typed rest) :
    splitName (token ++ rest) = (token, rest) ∧ name? (token ++ rest) = some (name, rest) := by
  obtain ⟨b, r, rfl, hb⟩ := hrest.exists_cons
  cases h with
  | bare hne hall =>
    have hsplit := takeWhile_append_of_head (p := fun c => !isBlank c) (a := token) (b := b :: r)
      (fun c hc => by simp [(not_of_bare (hall c hc)).2]) (by simpa using isBlank_of_isGap hb)
    have hrun := takeWhile_append_of_head (p := fun c => isNameChar c || c == '$') (a := token)
      (b := b :: r) (fun c hc => by simpa using hall c hc) (fun c hc => ?_)
    · obtain ⟨c, name, rfl⟩ := exists_cons_of_ne_nil hne
      obtain ⟨hname, hname'⟩ := names_of_bare (not_of_bare (hall c (by simp))).1 (name ++ b :: r)
      refine ⟨by rw [cons_append, hname, ← cons_append, hsplit.1, hsplit.2], ?_⟩
      rw [cons_append, hname', ← cons_append, run?, hrun.1, hrun.2]
      rfl
    · cases hc
      simp only [isGap, Bool.or_eq_true, beq_iff_eq] at hb
      rcases hb with ((rfl | rfl) | rfl) | rfl <;> rfl
  | marked hmarks hne hall =>
    next opening close =>
    obtain ⟨hname, hname'⟩ := names_of_marks hmarks (name ++ close :: b :: r)
    have hother : ∀ c ∈ name, (c != close) := by
      intro c hc
      rw [bne_iff_ne]
      rintro rfl
      have hmark := (isNameMark_of_mem hmarks).2.1
      simp [hall c hc] at hmark
    have hrun := takeWhile_append_of_head (b := close :: b :: r) hother (by simp)
    have hcut : opening :: (name ++ [close]) ++ b :: r = opening :: (name ++ close :: b :: r) := by
      simp
    rw [hcut, hname, hname', splitQuoted, enclosed?, hrun.1, hrun.2]
    simp [hne]

end Spelled

/-! ### Columns -/

/-- An entry for a column that is declared the primary key: a name, a type, and the words outside
literals and parentheses. -/
structure Declared (entry token name rest : Text) : Prop where
  cut : entry = token ++ rest
  spelled : Spelled token name
  typed : Typed rest
  /-- The name is not the first of the words. -/
  column : isAt entry "PRIMARY" 0 = false
  declares : Declares rest

/-- An entry for a column that names PRIMARY KEY, if at all, to declare the column the primary
key. -/
structure Legible (entry : Text) : Prop where
  unnested : Unnested (splitName entry).2
  declared :
      (findPhrase? entry primaryWords 0).isSome = true →
      ∃ token name rest, Declared entry token name rest

namespace Declared

variable {entry token name rest : Text}

theorem names_eq (h : Declared entry token name rest) :
    splitName entry = (token, rest) ∧ name? entry = some (name, rest) := by
  rw [h.cut]
  exact h.spelled.names_eq h.typed

/-- The column is learned under its name. -/
theorem exists_column? (h : Declared entry token name rest) (htrim : entry.trim = entry)
    (hwords : ∀ w ∈ entryWords, w ≠ "PRIMARY".toList → isAt entry w 0 = false) :
    ∃ c, column? entry = some c ∧ c.name = name := by
  have hany : (!entryWords.any fun w => isAt entry w 0) = true := by
    simp only [Bool.not_eq_true', List.any_eq_false, Bool.not_eq_true]
    intro w hw
    by_cases heq : w = "PRIMARY".toList
    · rw [heq]
      exact h.column
    · exact hwords w hw heq
  have hgap : ∀ c, entry.head? = some c → isGap c = false := by
    obtain ⟨⟨x, r, htoken, hx⟩, -⟩ := h.spelled.ends
    rw [h.cut, htoken]
    rintro c ⟨⟩
    exact isGap_of_not_isBlank hx
  obtain ⟨gap, c, more, hrest, hne, hall, hc⟩ := h.typed
  have hrun := Text.takeWhile_append_of_head (b := c :: more) hall
    (by simpa using isGap_of_not_isBlank (isBlank_of_isNameChar hc))
  have hgap' : run? isGap rest = some (gap, c :: more) := by
    rw [hrest, run?, hrun.1, hrun.2]
    simp [hne]
  have htype : run? isNameChar (c :: more) = some ((c :: more).takeWhile isNameChar,
      (c :: more).dropWhile isNameChar) := by
    rw [run?, List.takeWhile_cons_of_pos hc]
    rfl
  have hread : (column? entry).map Column.name = some name := by
    rw [column?]
    simp only [htrim, hany, Text.dropWhile_of_head hgap, h.names_eq.2, hgap', htype, guard, if_true,
      Option.bind_eq_bind, Option.bind_some, Option.pure_def]
    rfl
  exact Option.map_eq_some_iff.1 hread

end Declared

theorem column?_eq_none {w : Text} (htrim : entry.trim = entry) (hw : w ∈ entryWords)
    (h : isAt entry w 0) : column? entry = none := by
  have hany : (entryWords.any fun w => isAt entry w 0) := any_eq_true.2 ⟨w, hw, h⟩
  rw [column?]
  simp only [htrim, hany]
  rfl

/-! ### Entries -/

/-- What the first words of an entry make it. -/
inductive Begun (entry : Text) : Entry → Prop
  | primaryKey : (leading? entry primaryWords).isSome = true → Begun entry .primaryKey
  | uniqueKey :
      (leading? entry primaryWords).isSome = false → isAt entry "UNIQUE" 0 = true →
      Begun entry .uniqueKey
  | other {kind : Entry} {w : Text} : (leading? entry primaryWords).isSome = false →
    isAt entry "UNIQUE" 0 = false → w ∈ entryWords → isAt entry w 0 = true →
    kind ∈ [Entry.index, .dropped, .verbatim] → Begun entry kind
  | column : (leading? entry primaryWords).isSome = false →
    (∀ w ∈ entryWords, w ≠ "PRIMARY".toList → isAt entry w 0 = false) → Begun entry .column

/-- An entry is told by its first words. -/
theorem begun_ofText (entry : Text) : Begun entry (Entry.ofText entry) := by
  simp only [Entry.ofText]
  split
  · next h => exact .primaryKey h
  · next hprimary =>
    rw [Bool.not_eq_true] at hprimary
    split
    · next h => exact .uniqueKey hprimary h
    · next hunique =>
      rw [Bool.not_eq_true] at hunique
      split
      · next h =>
        rcases Bool.or_eq_true_iff.1 h with
          h | h <;> exact .other hprimary hunique (by decide) h (by decide)
      · next hindex =>
        split
        · next h =>
          rcases Bool.or_eq_true_iff.1 h with
            h | h <;> exact .other hprimary hunique (by decide) h (by decide)
        · next hdropped =>
          split
          · next h =>
            simp only [Bool.or_eq_true] at h
            rcases h with (h | h) | h <;> exact .other hprimary hunique (by decide) h (by decide)
          · next hverbatim =>
            simp only [Bool.not_eq_true, Bool.or_eq_false_iff] at hindex hdropped hverbatim
            refine .column hprimary ?_
            simp only [entryWords, forall_mem_cons, ne_eq]
            exact ⟨fun h => absurd trivial h, fun _ => hunique, fun _ => hindex.1,
              fun _ => hindex.2, fun _ => hdropped.1, fun _ => hdropped.2, fun _ => hverbatim.1.1,
              fun _ => hverbatim.1.2, fun _ => hverbatim.2, by simp⟩

/-! ### A column and the words behind its name -/

/-- Words stay words if no name runs into them. -/
theorem mentions_append_left {a s : Text} (h : Mentions s) (hapart : ∀ b c, a.getLast? = some b →
    s.head? = some c → isNameChar b = false ∨ isNameChar c = false) : Mentions (a ++ s) := by
  obtain ⟨front, w, rest, rfl, h⟩ := h
  refine ⟨a ++ front, w, rest, by simp, h.phrase, ?_, h.behind⟩
  cases front with
  | nil =>
    obtain ⟨p, v, rfl, hp, -⟩ := h.phrase.exists_cons
    have hname : isNameChar p := Functions.isNameChar_of_toLower (by rw [hp]; decide)
    rw [append_nil]
    cases hb : a.getLast? with
    | none => rfl
    | some b =>
      rcases hapart b p hb rfl with hb' | hp'
      · exact hb'
      · simp [hname] at hp'
  | cons c front =>
    rw [getLast?_append_of_ne_nil _ (by simp)]
    exact h.before

theorem exists_splitQuoted (opening close : Char) (t : Text) : ∃ a,
    opening :: t = a ++ (splitQuoted opening close t).2 ∧
      ((splitQuoted opening close t).2 = [] ∨ a.getLast? = some close) := by
  obtain ⟨a, ht, -, hhead⟩ := exists_dropWhile (· != close) t
  unfold splitQuoted
  split
  · next c rest heq =>
    rw [heq] at ht hhead
    obtain rfl : c = close := by simpa using hhead c rfl
    exact ⟨opening :: (a ++ [c]), by rw [ht]; simp, .inr (by simp [getLast?_cons])⟩
  · exact ⟨opening :: t, by simp, .inl rfl⟩

/-- A definition is cut behind its name, where no name goes on. -/
theorem exists_splitName (entry : Text) : ∃ a, entry = a ++ (splitName entry).2 ∧
    ∀ b c, a.getLast? = some b → (splitName entry).2.head? = some c → isNameChar b = false ∨
    isNameChar c = false := by
  have hquoted (opening close : Char) (hclose : isNameChar close = false) (t : Text) : ∃ a,
      opening :: t = a ++ (splitQuoted opening close t).2 ∧
        ∀ b c, a.getLast? = some b → (splitQuoted opening close t).2.head? = some c →
          isNameChar b = false ∨ isNameChar c = false := by
    obtain ⟨a, ha, hrest⟩ := exists_splitQuoted opening close t
    refine ⟨a, ha, fun b c hb hc => ?_⟩
    rcases hrest with hnil | hlast
    · rw [hnil] at hc
      cases hc
    · rw [hlast] at hb
      cases hb
      exact .inl hclose
  unfold splitName
  split
  · exact hquoted _ _ rfl _
  · exact hquoted _ _ rfl _
  · exact hquoted _ _ rfl _
  · obtain ⟨a, ha, -, hhead⟩ := exists_dropWhile (!isBlank ·) entry
    exact ⟨a, ha, fun b c _ hc => .inr (isNameChar_of_isBlank (by simpa using hhead c hc))⟩

theorem isSome_dropPrimary?_iff : (dropPrimary? t).isSome ↔ Mentions (mask t) := by
  rw [← isSome_findPhrase?_iff, dropPrimary?]
  cases findPhrase? (mask t) primaryWords 0 <;> simp

theorem exists_column_of_replaceEnums (settings : Settings) {r : Text}
    (hr : replaceEnums (splitName entry).2 = .ok r) :
    ∃ definition, column settings entry
      = .ok (definition, (dropPrimary? r).map fun _ => (splitName entry).1.unquote) := by
  rw [column]
  cases hsplit : splitName entry with
  | mk token rest =>
    rw [hsplit] at hr
    simp only [hr]
    exact ⟨_, rfl⟩

/-- A column is written out, and as the primary key if and only if the words stand in its entry. -/
theorem exists_column (settings : Settings) (h : Legible entry) :
    ∃ definition key, column settings entry = .ok (definition, key) ∧
      ((findPhrase? entry primaryWords 0).isSome = false ∧ key = none ∨
      (findPhrase? entry primaryWords 0).isSome ∧
          ∃ token name rest, Declared entry token name rest ∧ key = some name) := by
  obtain ⟨r, hr, hmentions, hdeclares⟩ := exists_replaceEnums h.unnested
  obtain ⟨definition, hcolumn⟩ := exists_column_of_replaceEnums settings hr
  refine ⟨definition, _, hcolumn, ?_⟩
  cases hfind : (findPhrase? entry primaryWords 0).isSome with
  | false =>
    -- words in what is written would be words of the entry
    refine .inl ⟨rfl, ?_⟩
    have hnone : (dropPrimary? r).isSome ≠ true := by
      intro hsome
      obtain ⟨a, ha, hapart⟩ := exists_splitName entry
      have hentry :=
        mentions_append_left (hmentions (isSome_dropPrimary?_iff.1 hsome).of_mask) hapart
      simp [← ha, ← isSome_findPhrase?_iff, hfind] at hentry
    rw [not_isSome_iff_eq_none.1 hnone]
    rfl
  | true =>
    obtain ⟨token, name, rest, hdecl⟩ := h.declared hfind
    refine .inr ⟨rfl, token, name, rest, hdecl, ?_⟩
    rw [hdecl.names_eq.1] at hdeclares ⊢
    have hsome := isSome_dropPrimary?_iff.2 (hdeclares hdecl.declares).mentions_mask
    obtain ⟨x, hx⟩ := isSome_iff_exists.1 hsome
    rw [hx, hdecl.spelled.unquote_eq]
    rfl

theorem primaryKey_addEntry (hprimary : (leading? entry primaryWords).isSome = false)
    (hunique : isAt entry "UNIQUE" 0 = false) (hconstraint : isAt entry "CONSTRAINT" 0 = false)
    (table : Table) :
    (addEntry table entry).primaryKey = ((column? entry).bind fun c =>
      if (findPhrase? entry primaryWords 0).isSome then some [c.name] else none).getD
        table.primaryKey := by
  simp only [addEntry, hprimary, hunique, hconstraint, Bool.false_eq_true, if_false]
  cases column? entry with
  | none => rfl
  | some c =>
    simp only [Table.put, bind_some]
    split <;> rfl

/-- Both readers take in an entry, and agree on the primary key if they did before. -/
theorem exists_add (settings : Settings) (htrim : entry.trim = entry)
    (hconstraint : isAt entry "CONSTRAINT" 0 = false)
    (hlegible : Entry.ofText entry = .column → Legible entry) {table : Table} {b : Body}
    (h : table.primaryKey = b.primary) :
    ∃ b', b.add settings entry = .ok b' ∧ (addEntry table entry).primaryKey = b'.primary := by
  have hbegun := begun_ofText entry
  rw [Body.add]
  generalize Entry.ofText entry = kind at hbegun hlegible ⊢
  cases hbegun with
  | primaryKey hprimary =>
    refine ⟨_, rfl, ?_⟩
    rw [addEntry, if_pos hprimary]
  | uniqueKey hprimary hunique =>
    refine ⟨_, rfl, ?_⟩
    rw [addEntry, if_neg (by rw [hprimary]; decide), if_pos hunique]
    exact h
  | other hprimary hunique hw hat hkind =>
    have hsame : (addEntry table entry).primaryKey = b.primary := by
      rw [primaryKey_addEntry hprimary hunique hconstraint, column?_eq_none htrim hw hat]
      exact h
    simp only [mem_cons, not_mem_nil, or_false] at hkind
    rcases hkind with rfl | rfl | rfl <;> exact ⟨_, rfl, hsame⟩
  | column hprimary hwords =>
    obtain ⟨definition, key, hcolumn, hkey⟩ := exists_column settings (hlegible rfl)
    simp only [hcolumn]
    refine ⟨_, rfl, ?_⟩
    rw [primaryKey_addEntry hprimary (hwords _ (by decide) (by decide)) hconstraint]
    rcases hkey with ⟨hfind, rfl⟩ | ⟨hfind, token, name, rest, hdecl, rfl⟩
    · rw [hfind]
      cases column? entry <;> exact h
    · obtain ⟨c, hc, rfl⟩ := hdecl.exists_column? htrim hwords
      rw [hc, hfind]
      rfl

/-- Both readers take in all entries, empty ones apart, and agree on the primary key. -/
theorem foldlM_add_agrees (settings : Settings) {entries : List Text}
    (htrim : ∀ e ∈ entries, e.trim = e)
    (hplain : ∀ e ∈ entries, isAt e "CONSTRAINT" 0 = false ∧ (Entry.ofText e = .column → Legible e))
    {table : Table} {b : Body} (h : table.primaryKey = b.primary) :
    ∃ b', (entries.filter fun e => !e.isEmpty).foldlM (Body.add settings) b = .ok b' ∧
      (entries.foldl addEntry table).primaryKey = b'.primary := by
  induction entries generalizing table b with
  | nil => exact ⟨b, rfl, h⟩
  | cons e entries ih =>
    have ih := fun {table b} => @ih (fun x hx => htrim x (mem_cons_of_mem e hx))
      (fun x hx => hplain x (mem_cons_of_mem e hx)) table b
    cases e with
    | nil =>
      -- an empty entry is not written, and teaches nothing
      exact ih h
    | cons c e =>
      obtain ⟨hconstraint, hlegible⟩ := hplain (c :: e) (by simp)
      obtain ⟨b', hb', hagree⟩ :=
        exists_add settings (htrim _ (by simp)) hconstraint hlegible h
      rw [filter_cons_of_pos (by rfl), foldlM_cons_of_ok hb']
      exact ih hagree

/-! ### The statement -/

def entries (list : Text) : List Text := (parts list ',').map trim

/-- How a statement is cut at its list: the word TABLE and the name stand in front of it. -/
structure Header (a table list r : Text) (n stop : Nat) : Prop where
  closed : Closed a
  closed_list : Closed list
  level : level? 0 (mask list) = some 0
  word : find? (mask (a ++ '(' :: (list ++ ')' :: r))) "TABLE" 0 = some n
  name : tableName? (a ++ '(' :: (list ++ ')' :: r)) (n + 5) = some (table, stop)
  opening :
      findFrom? (· == '(') stop ((mask (a ++ '(' :: (list ++ ')' :: r))).after stop) = some a.size

/-- How a statement that creates a table is cut. -/
theorem exists_header (h : definition? t = .ok (some (table, list))) :
    ∃ a r n stop, t = a ++ '(' :: (list ++ ')' :: r) ∧ Header a table list r n stop := by
  rw [definition?] at h
  cases hfind : find? (mask t) "TABLE" 0 with
  | none =>
    simp only [hfind] at h
    cases h
  | some n =>
    simp only [hfind] at h
    obtain ⟨plain, -, h⟩ := bind_eq_ok h
    cases plain with
    | false => cases h
    | true =>
      replace h := Except.ok.inj h
      obtain ⟨⟨name, stop⟩, hname, h⟩ := bind_eq_some_iff.1 h
      obtain ⟨opening, hopening, -, -, close, hclose, h⟩ := of_bind₃ h
      cases h
      -- the parentheses show in the mask, and cut the statement where they stand
      obtain ⟨a', v, r', hm, rfl, rfl, hlevel⟩ := exists_of_closing? hclose
      obtain ⟨a, b, rfl, ha, rfl, hb⟩ := exists_code hm rfl (by decide)
      obtain ⟨list, r, rfl, hlist, rfl, -⟩ := exists_code hb rfl (by decide)
      have hslice : slice (a ++ '(' :: (list ++ ')' :: r))
          ⟨(mask a).size + 1, (mask a).size + 1 + (mask list).size⟩ = list := by
        rw [size_mask, size_mask, show a ++ '(' :: (list ++ ')' :: r) = a ++ ['('] ++ list ++ ')' ::
          r by simp]
        exact slice_append (a ++ ['(']) list (')' :: r) (by rw [size_append]; rfl)
          (by rw [size_append]; rfl)
      rw [hslice]
      rw [size_mask] at hopening
      exact ⟨a, r, n, stop, rfl, ha, hlist, hlevel, hfind, hname, hopening⟩

namespace Header

variable {a table list r : Text} {n stop : Nat}

theorem le_size (h : Header a table list r n stop) : n + 5 ≤ stop ∧ stop ≤ a.size :=
  ⟨le_of_tableName? h.name, le_of_findFrom? h.opening⟩

theorem mask_eq (h : Header a table list r n stop) (r' : Text) :
    mask (a ++ '(' :: (list ++ ')' :: r')) = mask a ++ '(' :: (mask list ++ ')' :: mask r') := by
  rw [mask_append_cons h.closed rfl, mask_append_cons h.closed_list rfl]

/-- What stands behind the list does not matter to where it is found. -/
theorem exchange (h : Header a table list r n stop) (r' : Text) :
    Header a table list r' n stop where
  closed := h.closed
  closed_list := h.closed_list
  level := h.level
  word := by
    have hword := h.word
    have hle := h.le_size
    have hwordly : Wordly "TABLE".toList := by
      unfold Wordly
      decide
    rw [h.mask_eq] at hword ⊢
    exact find?_append hwordly hword (by rw [size_mask]; omega)
  name := tableName?_append (size_mask a) (h.mask_eq r) (h.mask_eq r') h.name h.le_size.2
  opening := by
    have hopening := h.opening
    have hle : stop ≤ (mask a).size := by
      rw [size_mask]
      exact h.le_size.2
    -- what follows the name reaches up to the parenthesis at least
    have hsize : a.size < stop + size ((mask a).after stop ++ ['(']) := by
      have hwhole := congrArg size (before_append_after (mask a) stop)
      have hbefore := size_before_le (mask a) stop
      rw [size_append, size_mask] at hwhole
      rw [size_append, show size ['('] = 1 from rfl]
      omega
    rw [h.mask_eq, after_append_of_le hle, append_cons] at hopening ⊢
    exact findFrom?_append hopening hsize

/-- The statement is read as the definition of a table. -/
theorem table?_eq (h : Header a table list r n stop) :
    Definition.table? (a ++ '(' :: (list ++ ')' :: r))
      = some ((entries list).foldl addEntry { name := table }) := by
  have hclose := closing?_of_level? h.level (mask a) (mask r)
  have hslice := slice_append (a ++ ['(']) list (')' :: r) (m := a.size + 1)
    (n := a.size + 1 + list.size) (by rw [size_append]; rfl) (by rw [size_append]; rfl)
  rw [← h.mask_eq, size_mask, size_mask] at hclose
  rw [show a ++ ['('] ++ list ++ ')' :: r = a ++ '(' :: (list ++ ')' :: r) by simp] at hslice
  simp only [Definition.table?, named?, h.word, h.name, h.opening, hclose, hslice,
    Option.bind_eq_bind, Option.bind_some, Option.pure_def]
  rfl

end Header

theorem isBlank_of_startsWith (h : t.startsWith "CREATE") :
    ∀ c, t.head? = some c → isBlank c = false := by
  intro c hc
  cases t with
  | nil => cases hc
  | cons x t =>
    cases hc
    exact isBlank_of_toLower (x := 'c') (eq_of_beq (Bool.and_elim_left h)) (by decide)

/-- A statement that creates a table, blanks at its end apart, is read as the definition of it. -/
theorem table?_of_definition? (h : definition? t = .ok (some (table, list)))
    (hstart : t.startsWith "CREATE") :
    t.trim.startsWith "CREATE" ∧
      table? t.trim = some ((entries list).foldl addEntry { name := table }) := by
  obtain ⟨a, r, n, stop, rfl, hheader⟩ := exists_header h
  have htrim : trim (a ++ '(' :: (list ++ ')' :: r)) = a ++ '(' :: (list ++ ')' :: trimEnd r) := by
    show dropEnd isBlank ((a ++ '(' :: (list ++ ')' :: r)).dropWhile isBlank) = _
    rw [dropWhile_of_head (isBlank_of_startsWith hstart),
      show a ++ '(' :: (list ++ ')' :: r) = a ++ '(' :: (list ++ [')']) ++ r by simp,
      dropEnd_append_of_last (fun c hc => ?_)]
    · simp [trimEnd]
    · rw [getLast?_append, getLast?_cons, getLast?_concat] at hc
      cases hc
      decide
  have hwordly : Wordly "CREATE".toList := by
    unfold Wordly
    decide
  rw [htrim]
  exact ⟨by rw [startsWith_append hwordly a]; exact hstart, (hheader.exchange _).table?_eq⟩

theorem name_foldl_addEntry (entries : List Text) (table : Table) :
    (entries.foldl addEntry table).name = table.name := by
  have hstep (table : Table) (entry : Text) : (addEntry table entry).name = table.name := by
    rw [addEntry]
    split
    · rfl
    · split
      · rfl
      · split
        · split <;> rfl
        · split
          · rfl
          · split <;> rfl
  induction entries generalizing table with
  | nil => rfl
  | cons entry entries ih => rw [foldl_cons, ih, hstep]

theorem table?_learn {c : Catalog} {known : Table} (hsettled : normalizeEscapes t.trim = t.trim)
    (hstart : t.trim.startsWith "CREATE") (hknown : table? t.trim = some known) :
    (c.learn t).table? known.name = some known := by
  have hlearn : c.learn t = c.publish known := by
    rw [Catalog.learn, Catalog.learn?, hsettled, if_pos hstart, hknown]
    rfl
  rw [hlearn]
  exact Catalog.lookUp_store_self _ _ _

/-- The catalog knows the primary key that the statement declares. -/
theorem learned_key_is_declared (settings : Settings) {d : Draft} {table list : Text}
    (hkind : d.kind = .create) (hstart : d.text.startsWith "CREATE" = true)
    (hdefinition : definition? d.text = .ok (some (table, list)))
    (hsettled : normalizeEscapes d.text.trim = d.text.trim)
    (hentries : ∀ e ∈ entries list, isAt e "CONSTRAINT" 0 = false ∧
      (Entry.ofText e = .column → Legible e)) :
    ∃ d' body known, apply settings d = .ok d' ∧
      ((entries list).filter fun e => !e.isEmpty).foldlM (Body.add settings) {} = .ok body ∧
      d'.text = body.statement settings table ∧ d'.catalog.table? table = some known ∧
      known.name = table ∧ known.primaryKey = body.primary ∧
      (primaryConstraint settings table body.primary = [] ↔ known.primaryKey = []) := by
  obtain ⟨hcreate, hknown⟩ := table?_of_definition? hdefinition hstart
  have htrim : ∀ e ∈ entries list, e.trim = e := by
    intro e he
    obtain ⟨u, -, rfl⟩ := mem_map.1 he
    exact trim_trim u
  obtain ⟨body, hbody, hagree⟩ := foldlM_add_agrees settings htrim hentries
    (show ({ name := table } : Table).primaryKey = ({} : Body).primary from rfl)
  have hname : ((entries list).foldl addEntry { name := table }).name = table :=
    name_foldl_addEntry (entries list) _
  have hlearned := table?_learn (c := d.catalog) hsettled hcreate hknown
  rw [hname] at hlearned
  have happly : ∃ d', apply settings d = .ok d' ∧ d'.text = body.statement settings table ∧
      d'.catalog = d.catalog.learn d.text := by
    simp only [entries] at hbody
    rw [apply, hkind]
    simp only [create, hdefinition, bind, Except.bind, hbody]
    exact ⟨_, rfl, rfl, rfl⟩
  obtain ⟨d', happly, htext, hcatalog⟩ := happly
  rw [← hcatalog] at hlearned
  refine ⟨d', body, _, happly, hbody, htext, hlearned, hname, hagree, ?_⟩
  rw [hagree, primaryConstraint]
  cases body.primary <;> simp

/-- The words in a comment do no harm where the column is the primary key, whatever its type. -/
theorem learned_key_is_declared_enum :
    let list : Text := "`a` enum('x') COMMENT 'primary key' PRIMARY KEY, b int, KEY (b)"
    let d : Draft := {
      text := "CREATE TABLE `t` (" ++ list ++ ");", kind := .create, prepared := false
      serialized := false, verify := true, previous := none, template := [], params := []
      catalog := {} }
    d.kind = .create ∧ d.text.startsWith "CREATE" ∧
      definition? d.text = .ok (some ("t", list)) ∧ normalizeEscapes d.text.trim = d.text.trim ∧
      (∀ e ∈ entries list, isAt e "CONSTRAINT" 0 = false ∧ (Entry.ofText e = .column → Legible e)) ∧
      ∃ d' body known, apply {} d = .ok d' ∧
        ((entries list).filter fun e => !e.isEmpty).foldlM (Body.add {}) {} = .ok body ∧
        d'.text = body.statement {} "t" ∧ d'.catalog.table? "t" = some known ∧
        known.name = ("t" : Text) ∧ known.primaryKey = body.primary ∧
        (primaryConstraint {} "t" body.primary = [] ↔ known.primaryKey = []) := by
  intro list d
  have hdefinition : definition? d.text = .ok (some ("t", list)) := by decide +kernel
  have hsettled : normalizeEscapes d.text.trim = d.text.trim := by decide +kernel
  have hentries :
      ∀ e ∈ entries list, isAt e "CONSTRAINT" 0 = false ∧
        (Entry.ofText e = .column → Legible e) := by
    have hlist :
        entries list = [("`a` enum('x') COMMENT 'primary key' PRIMARY KEY" : Text), "b int",
        "KEY (b)"] := by decide +kernel
    have hdeclared : Declared "`a` enum('x') COMMENT 'primary key' PRIMARY KEY" "`a`" "a"
        " enum('x') COMMENT 'primary key' PRIMARY KEY" := {
      cut := rfl
      spelled := @Spelled.marked '\x60' '\x60' "a" (by decide) (by decide) (by decide)
      typed :=
        ⟨" ", 'e', "num('x') COMMENT 'primary key' PRIMARY KEY", rfl, by decide, by decide, rfl⟩
      column := by decide
      declares := ⟨" enum('x') COMMENT 'primary key' ", "PRIMARY KEY", [], rfl, rfl, by decide,
        by decide, ⟨"PRIMARY", " ", "KEY", rfl, rfl, rfl, by decide, by decide⟩, rfl⟩ }
    intro e he
    rw [hlist] at he
    simp only [mem_cons, not_mem_nil, or_false] at he
    rcases he with rfl | rfl | rfl
    · exact ⟨by decide, fun _ => ⟨by decide +kernel, fun _ => ⟨_, _, _, hdeclared⟩⟩⟩
    · exact ⟨by decide, fun _ => ⟨by decide +kernel, fun h => absurd h (by decide)⟩⟩
    · exact ⟨by decide, fun h => absurd h (by decide)⟩
  exact ⟨rfl, by decide, hdefinition, hsettled, hentries,
    learned_key_is_declared {} rfl (by decide) hdefinition hsettled hentries⟩

/-- The words in a comment are learned as a key, though none is declared; and with a value that ends
in a backslash in place, a table with a primary key is not learned at all. -/
theorem learned_key_in_comment : let context : Context := ⟨{}, ⟨0, 0⟩⟩
    let comment : Statement := .ofText "CREATE TABLE t (a int COMMENT 'primary key')"
    let backslash : Statement := {
      text := "CREATE TABLE t (a char default %s, b int PRIMARY KEY)"
      params := [.text "\\"], prepared := true }
    (apply {} (.bound context {} comment none)).toOption.map
        (fun d => (d.text, (d.catalog.table? "t").map (·.primaryKey)))
      = some (("CREATE TABLE t (\n  a int COMMENT 'primary key'\n);" : Text), some [("a" : Text)]) ∧
    (apply {} (.bound context {} backslash none)).toOption.map
      (fun d => (d.text, d.catalog.table? "t"))
      = some (("CREATE TABLE t (\n  a char default '\\',\n  b int,\n" : Text) ++
          "  CONSTRAINT [t_b] PRIMARY KEY CLUSTERED (b) WITH (IGNORE_DUP_KEY = OFF) ON [PRIMARY]" ++
          "\n) ON [PRIMARY];", none) := by
  decide +kernel

end CreateTable

end Recast
