import Recast.Proofs.CheckedRows

/-!
# Conversion with checked cuts

The whole of a conversion, each cut and each place of a list checked first, ends as the conversion
does: with the same outcome, or at the same fault. And there are two faults. In front of the word
TABLE a statement is cut behind the sixth byte, where CREATE ends if the statement starts with it.
And an enumeration is replaced at the place that it had, though one inside it may have been replaced
before.
-/

namespace Recast

open CreateTable Literal Cursor List Text
open Option hiding guard

variable {t : Text} {c : Cursor} {n : Nat} {s : Span} {context : Context} {d : Draft}
  {fault : Fault} {settings : Settings}

namespace Checked

/-! ### Work that a fault may end -/

/-- The work ends as the given one does: with the same outcome, or at the same fault. -/
def Ends (x : Check α) (y : Except Fault α) : Prop := x = y.mapError .cut

theorem ends_ok {x : Check α} {a : α} (h : x = .ok a) : Ends x (.ok a) := h

/-- Work that goes on with an outcome. -/
theorem Ends.bind {x : Check α} {y : Except Fault α} {f : α → Check β} {g : α → Except Fault β}
    (hx : Ends x y) (h : ∀ a, y = .ok a → Ends (f a) (g a)) : Ends (x >>= f) (y >>= g) := by
  rw [show x = _ from hx]
  cases y with
  | error fault => rfl
  | ok a => exact h a rfl

/-- Work that starts with a cut. -/
theorem Ends.of_check {x : Check α} {a : α} {f : α → Check β} {y : Except Fault β} (hx : x = .ok a)
    (h : Ends (f a) y) : Ends (x >>= f) y := by
  rw [hx]
  exact h

theorem Ends.ite {p : Prop} [Decidable p] {x x' : Check α} {y y' : Except Fault α}
    (hx : p → Ends x y) (hx' : ¬ p → Ends x' y') :
    Ends (if p then x else x') (if p then y else y') := by
  split
  · next hp => exact hx hp
  · next hp => exact hx' hp

/-- A fold ends as the other does if each step does. -/
theorem Ends.foldlM {f : β → α → Check β} {g : β → α → Except Fault β} {l : List α}
    (h : ∀ a ∈ l, ∀ b, Ends (f b a) (g b a)) (b : β) : Ends (l.foldlM f b) (l.foldlM g b) := by
  induction l generalizing b with
  | nil => rfl
  | cons a l ih =>
    exact (h a mem_cons_self b).bind fun c _ => ih (fun x hx => h x (mem_cons_of_mem a hx)) c

/-! ### CREATE TABLE -/

namespace CreateTable

def replaceEnum (t masked out : Text) (n : Nat) : Check Text := do
  if (← before masked n).getLast?.any isNameChar then return out
  else
    match Nesting.closing? masked (n + 4) with
    | none => return out
    | some close =>
      let members ← slice t ⟨n + 5, close⟩
      splice out ⟨n, close + 1⟩ (enumType members)

def replaceEnums (t : Text) : Check Text :=
  let masked := mask t
  (Keyword.occurrences masked "enum(").reverse.foldlM (replaceEnum t masked) t

/-- The ends of a replacement are checked in the same order. -/
theorem splice_ends {out : Text} (hle : s.start ≤ s.stop) (new : Text) :
    Ends (splice out s new) (if !out.isBoundary s.start then .error ⟨s.start⟩
      else if !out.isBoundary s.stop then .error ⟨s.stop⟩ else .ok (out.splice s new)) := by
  cases hstart : out.isBoundary s.start with
  | false =>
    rw [splice, part, place, if_neg (by simp [hstart])]
    rfl
  | true =>
    cases hstop : out.isBoundary s.stop with
    | false =>
      rw [splice, part, place_eq hstart, place, if_neg (by simp [hstop])]
      rfl
    | true => exact Part.splice_eq ⟨hstart, hstop, hle⟩ new

/-- An enumeration is read where it stood, and replaced in what became of the text. -/
theorem replaceEnum_ends (hn : n ∈ Keyword.occurrences (mask t) "enum(") (out : Text) :
    Ends (replaceEnum t (mask t) out n) (Recast.CreateTable.replaceEnum t (mask t) out n) := by
  rw [replaceEnum, before_eq (Functions.isBoundary_of_mem_occurrences hn)]
  refine .ite (fun _ => rfl) fun _ => ?_
  cases hclose : Nesting.closing? (mask t) (n + 4) with
  | none => rfl
  | some close =>
    have hpart : Part t ⟨n + 5, close⟩ := (part_of_closing? hclose).1
    have hle : n ≤ close + 1 := by
      have hmembers : n + 5 ≤ close := hpart.le
      omega
    exact .of_check hpart.slice_eq (splice_ends (s := ⟨n, close + 1⟩) hle _)

theorem replaceEnums_ends (t : Text) : Ends (replaceEnums t) (Recast.CreateTable.replaceEnums t) :=
  .foldlM (fun _ hn out => replaceEnum_ends (mem_reverse.1 hn) out) t

def dropPrimary? (t : Text) : Search Text := do
  let s ← Keyword.findPhrase? (mask t) Definition.primaryWords 0
  return trimEnd (← before t s.start) ++ (← after t s.stop)

theorem dropPrimary?_finds (t : Text) :
    Finds (dropPrimary? t) (Recast.CreateTable.dropPrimary? t) := by
  refine .of_option fun s hs => ?_
  obtain ⟨hstart, hstop⟩ := Keyword.free_of_mem_phrases (by decide) (mem_of_mem_head? hs)
  exact .of_check (before_eq hstart.outside.isBoundary)
    (.of_check (after_eq hstop.isBoundary) (finds_pure _))

def collate (collation t : Text) : Check Text :=
  let masked := mask t
  let c := (Cursor.start masked).blanks
  let suffix : Text :=
    if (Keyword.find? masked "COLLATE" 0).isSome then [] else " COLLATE " ++ collation
  match unbounded? c, bounded? c with
  | some s, _ => splice t s ("TEXT" ++ suffix)
  | none, some s => do splice t s ((← slice t s) ++ suffix)
  | none, none => return t

/-- A type of unbounded texts is a word. -/
theorem part_of_unbounded? (hc : At (mask t) c) (h : Recast.CreateTable.unbounded? c = some s) :
    Part t s := by
  obtain ⟨name, hname, h⟩ := exists_of_findSome?_eq_some h
  obtain ⟨d, hd, _, -, h⟩ := of_bind₂ h
  cases h
  have hedged : ∀ name ∈ Recast.CreateTable.textTypes, Edged name := by decide
  obtain ⟨hstart, hstop⟩ := edges_of_word? hd (hedged name hname)
  obtain ⟨w, hw, -⟩ := word?_reads hd
  exact part_of_edges hc hstart hw hstop

/-- A type of bounded texts ends with the parenthesis behind its length. -/
theorem part_of_bounded? (hc : At (mask t) c) (h : Recast.CreateTable.bounded? c = some s) :
    Part t s := by
  obtain ⟨d, hd, e, he, h⟩ := of_bind₂ h
  cases h
  obtain ⟨f, hf, g, hg, he⟩ := of_bind₂ he
  obtain ⟨w, hw, -⟩ := word?_reads hd
  obtain ⟨w₁, h₁, -⟩ := skipWhile_reads d isBlank
  obtain ⟨w₂, h₂, -⟩ := skipWhile_reads f isBlank
  obtain ⟨w₃, h₃, -⟩ := some?_reads hg
  obtain ⟨w₄, h₄, -⟩ := skipWhile_reads g isBlank
  have hread :=
    ((((((hw.trans h₁).trans (sign?_reads hf)).trans h₂).trans h₃).trans h₄).trans (sign?_reads he))
  exact part_of_edges hc (edges_of_word? hd (by decide)).1 hread (edge_of_sign? (by decide) he).2

theorem collate_eq (collation t : Text) :
    collate collation t = .ok (Recast.CreateTable.collate collation t) := by
  have hc : At (mask t) (Cursor.start (mask t)).blanks := (at_start _).skipWhile _
  unfold collate Recast.CreateTable.collate
  dsimp only
  cases hs : unbounded? (Cursor.start (mask t)).blanks with
  | some s => exact (part_of_unbounded? hc hs).splice_eq _
  | none =>
    cases hs' : bounded? (Cursor.start (mask t)).blanks with
    | none => rfl
    | some s =>
      have hpart := part_of_bounded? hc hs'
      dsimp only
      rw [hpart.slice_eq]
      exact hpart.splice_eq _

def options (settings : Settings) (t : Text) : Check Text := do
  let t ← Edit.replaceClauses t autoIncrement?
  let t ← Edit.replaceClauses t afterColumn?
  let t ← Edit.replaceClauses t integerWidth?
  let t ← Edit.replaceClauses t unsigned?
  let t := t.replaceWord zeroDefault "getdate()"
  let t ← Edit.replaceClauses t characterSet?
  collate settings.collation t

/-- The options of a column are replaced without a breach. -/
theorem options_eq (settings : Settings) (t : Text) :
    options settings t = .ok (Recast.CreateTable.options settings t) := by
  rw [options, Edit.replaceClauses_eq, ok_bind, Edit.replaceClauses_eq, ok_bind,
    Edit.replaceClauses_eq, ok_bind, Edit.replaceClauses_eq, ok_bind]
  dsimp only
  rw [Edit.replaceClauses_eq, ok_bind]
  exact collate_eq _ _

def column (settings : Settings) (entry : Text) : Check (Text × Option Text) := do
  let (token, rest) := splitName entry
  let name := token.unquote
  let rest ← replaceEnums rest
  let key ← (dropPrimary? rest).run
  let rest := trim (← options settings (key.getD rest))
  let token := if settings.isReserved name then bracket settings name else token
  return (if rest.isEmpty then token else token ++ ' ' :: rest, key.map fun _ => name)

theorem column_ends (settings : Settings) (entry : Text) :
    Ends (column settings entry) (Recast.CreateTable.column settings entry) := by
  refine (replaceEnums_ends _).bind fun rest _ => ?_
  exact .of_check (dropPrimary?_finds rest) (.of_check (options_eq settings _) rfl)

def add (settings : Settings) (b : Body) (entry : Text) : Check Body :=
  match Entry.ofText entry with
  | .primaryKey => do return { b with primary := ← Definition.keyColumns entry }
  | .uniqueKey => do return { b with uniques := b.uniques ++ [← Definition.keyColumns entry] }
  | .index => do return { b with indexes := b.indexes ++ [← Definition.keyColumns entry] }
  | .dropped => return b
  | .verbatim =>
    let isKey := (Keyword.findPhrase? entry Definition.primaryWords 0).isSome
    return { b with verbatim := b.verbatim ++ [entry], verbatimKey := b.verbatimKey || isKey }
  | .column => do
    let (definition, key) ← column settings entry
    return { b with
      columns := b.columns ++ [definition]
      primary := (key.map fun name => [name]).getD b.primary }

/-- Only columns can end at a fault. -/
theorem add_ends (settings : Settings) (b : Body) (entry : Text) :
    Ends (add settings b entry) (b.add settings entry) := by
  rw [add, Body.add]
  cases Entry.ofText entry with
  | primaryKey | uniqueKey | index => exact .of_check (Definition.keyColumns_eq entry) rfl
  | dropped | verbatim => rfl
  | column => exact (column_ends settings entry).bind fun _ _ => rfl

def isPlain (masked : Text) (tableWord : Nat) : Check Bool := do
  let words := trim (← slice masked ⟨min 6 tableWord, tableWord⟩)
  return words.isEmpty || words.same "TEMPORARY"

/-- The cut behind the sixth byte is a fault of both. -/
theorem isPlain_ends {masked : Text} (hn : masked.isBoundary n) :
    Ends (isPlain masked n) (Recast.CreateTable.isPlain masked n) := by
  rw [isPlain, Recast.CreateTable.isPlain]
  cases hstart : masked.isBoundary (min 6 n) with
  | true =>
    rw [Part.slice_eq ⟨hstart, hn, Nat.min_le_right 6 n⟩]
    rfl
  | false =>
    rw [slice, part, place, if_neg (by simp [hstart])]
    rfl

def header? (t masked : Text) (tableWord : Nat) : Search (Text × Text) := do
  let (table, stop) ← Definition.tableName? t (tableWord + 5)
  let opening ← findFrom? (· == '(') stop (← after masked stop)
  guard (← slice masked ⟨stop, opening⟩).isBlankText
  let close ← Nesting.closing? masked opening
  return (table, ← slice t ⟨opening + 1, close⟩)

/-- The name of the table and its list of entries. -/
theorem header?_finds (hn : t.isBoundary (n + 5)) :
    Finds (header? t (mask t) n) (Recast.CreateTable.header? t (mask t) n) := by
  obtain ⟨hname, hplace⟩ := Definition.tableName?_finds hn
  refine hname.bind ?_
  rintro ⟨table, stop⟩ htable
  have hstop := isBoundary_mask (hplace table stop htable)
  refine .of_check (after_eq hstop) (.of_option fun opening hopening => ?_)
  refine .of_check (part_of_findFrom? hstop hopening).slice_eq (.of_guard fun _ => ?_)
  exact .of_option fun close hclose => .of_check (part_of_closing? hclose).1.slice_eq (finds_pure _)

def definition? (t : Text) : Check (Option (Text × Text)) :=
  let masked := mask t
  match Keyword.find? masked "TABLE" 0 with
  | none => return none
  | some n => do if ← isPlain masked n then (header? t masked n).run else return none

theorem definition?_ends (t : Text) : Ends (definition? t) (Recast.CreateTable.definition? t) := by
  rw [definition?, Recast.CreateTable.definition?]
  cases hn : Keyword.find? (mask t) "TABLE" 0 with
  | none => rfl
  | some n =>
    obtain ⟨hstart, hstop⟩ := Keyword.free_of_find? (by decide) hn
    refine (isPlain_ends hstart.outside.isBoundary_mask).bind fun plain _ => ?_
    cases plain with
    | false => rfl
    | true => exact header?_finds hstop.isBoundary

def create (settings : Settings) (d : Draft) : Check Draft := do
  match ← definition? d.text with
  | none => return d
  | some (table, list) =>
    let entries := ((← Nesting.parts list).map trim).filter fun e => !e.isEmpty
    let body ← entries.foldlM (add settings) {}
    let indexes := (body.indexes.filter (isKept settings)).map (createIndex settings table)
    return { d with
      text := body.statement settings table
      following := d.following ++ indexes.map fun sql => ⟨sql, .onSuccess⟩
      catalog := ← Catalog.learn d.catalog d.text }

/-- A CREATE TABLE ends as it does unchecked. -/
theorem create_ends (settings : Settings) (d : Draft) :
    Ends (create settings d) (Recast.CreateTable.create settings d) := by
  refine (definition?_ends d.text).bind fun found _ => ?_
  match found with
  | none => rfl
  | some (table, list) =>
    refine .of_check (Nesting.parts_eq list) ?_
    refine (Ends.foldlM (fun entry _ b => add_ends settings b entry) _).bind fun body _ => ?_
    exact .of_check (Catalog.learn_eq d.catalog d.text) rfl

def apply (settings : Settings) (d : Draft) : Check Draft :=
  match d.kind with
  | .create => create settings d
  | .alter => do return { d with catalog := ← Catalog.learn d.catalog d.text }
  | _ => return d

theorem apply_ends (settings : Settings) (d : Draft) :
    Ends (apply settings d) (Recast.CreateTable.apply settings d) := by
  rw [apply, Recast.CreateTable.apply]
  cases d.kind with
  | create => exact create_ends settings d
  | alter => exact .of_check (Catalog.learn_eq d.catalog d.text) rfl
  | _ => rfl

end CreateTable

/-! ### The passes -/

namespace Pass

def apply (context : Context) (d : Draft) : Pass → Check Draft
  | .general => do return { d with text := ← General.apply d.catalog d.text }
  | .identityInsert => Identity.aroundInsert d
  | .identityUpdate => Identity.ofUpdate d
  | .dateArithmetic => do return { d with text := ← Functions.dateArithmetic d.text }
  | .conditionalUnwrap => do return { d with text := ← Functions.conditionals d.text }
  | .rowCount => do return { d with text := ← FoundRows.apply d.previous d.text }
  | .limit => Limit.apply d
  | .nowFunctions => do return { d with text := ← Functions.currentTime d.text }
  | .distinctOrderBy => do return d.change (← (Ordering.distinct? d.text).run)
  | .sortCast =>
    do return d.change (← (Ordering.cast d.catalog context.settings.sortCastLength d.text).run)
  | .escapedWildcard => do return { d with text := ← Wildcard.apply d.text }
  | .groupByElision => do return { d with text := ← Grouping.apply d.catalog d.text }
  | .nullDatetime =>
    if d.kind = .insert then
      do return d.change (← (ZeroDate.filled? d.catalog context.clock d.text).run)
    else return d
  | .incompatibleOperator => do return d.change (← (Comparison.byLike? d.catalog d.kind d.text).run)
  | .createTable => CreateTable.apply context.settings d
  | .onDuplicateKey => if d.kind = .insert then DuplicateKey.apply d else return d
  | .splitInsert => return d
  | .verify => return d

def run (context : Context) (d : Draft) (p : Pass) : Check Draft := do
  let e ← apply context d p
  return if e.text = d.text then e else e.record p d.text e.text

/-- A checked pass ends as the pass does. -/
theorem apply_ends (context : Context) (d : Draft) (p : Pass) :
    Ends (apply context d p) (p.apply context d) := by
  cases p with
  | general => exact .of_check (General.apply_eq _ _) rfl
  | identityInsert => exact Identity.aroundInsert_eq d
  | identityUpdate => exact Identity.ofUpdate_eq d
  | dateArithmetic => exact .of_check (Functions.dateArithmetic_eq _) rfl
  | conditionalUnwrap => exact .of_check (Functions.conditionals_eq _) rfl
  | rowCount => exact .of_check (FoundRows.apply_eq _ _) rfl
  | limit => exact Limit.apply_eq d
  | nowFunctions => exact .of_check (Functions.currentTime_eq _) rfl
  | distinctOrderBy => exact .of_check (Ordering.distinct?_finds _) rfl
  | sortCast => exact .of_check (Ordering.cast_finds _ _ _) rfl
  | escapedWildcard => exact .of_check (Wildcard.apply_eq _) rfl
  | groupByElision => exact .of_check (Grouping.apply_eq _ _) rfl
  | nullDatetime =>
    refine ends_ok (ok_ite (fun _ => ?_) fun _ => rfl)
    rw [(ZeroDate.filled?_finds _ _ _).run_eq]
    rfl
  | incompatibleOperator => exact .of_check (Comparison.byLike?_finds _ _ _) rfl
  | createTable => exact CreateTable.apply_ends context.settings d
  | onDuplicateKey => exact ends_ok (ok_ite (fun _ => DuplicateKey.apply_eq d) fun _ => rfl)
  | splitInsert | verify => rfl

/-- Every pass ends as it does unchecked. -/
theorem run_ends (context : Context) (d : Draft) (p : Pass) :
    Ends (run context d p) (p.run context d) :=
  (apply_ends context d p).bind fun _ _ => rfl

end Pass

/-! ### The conversion -/

def boundText (s : Statement) : Check Text :=
  if s.prepared then Placeholder.bind s.text s.params else return s.text

theorem boundText_eq (s : Statement) : boundText s = .ok s.boundText :=
  ok_ite (fun _ => Placeholder.bind_eq s.text s.params) fun _ => rfl

def splitRows (d : Draft) : Check (Draft × List Text) := do
  let main ← RowSplit.statements d.text
  return (if 1 < main.length then d.record .splitInsert d.text (Draft.joined main) else d, main)

theorem splitRows_eq (d : Draft) : splitRows d = .ok d.splitRows := by
  rw [splitRows, RowSplit.statements_eq]
  rfl

def verified (d : Draft) (main : List Text) : Check (Draft × List Text) :=
  if d.prepared && d.verify then do
    let restored ← Verify.apply d main
    return (if Draft.joined restored = Draft.joined main then d
      else d.record .verify (Draft.joined main) (Draft.joined restored), restored)
  else return (d, main)

theorem verified_eq (d : Draft) (main : List Text) : verified d main = .ok (d.verified main) := by
  refine ok_ite (fun _ => ?_) fun _ => rfl
  rw [Verify.apply_eq]
  rfl

def convert (context : Context) (catalog : Catalog) (s : Statement) (previous : Option Text) :
    Check (Outcome × Catalog) := do
  let s := { s with text := Recast.Literal.normalizeEscapes s.text }
  let d := Draft.ofStatement s previous context.settings.verify catalog
  let text ← boundText s
  let d := { d with text := text.trim }
  if d.serialized then
    let d ← Pass.run context d .general
    let d ← if d.kind = .insert then Pass.run context d .onDuplicateKey else pure d
    return (d.outcome [d.text], d.catalog)
  else
    let d ← Pass.pipeline.foldlM (Pass.run context) d
    let (d, main) ← if d.kind = .insert then do
        let d ← Pass.run context d .onDuplicateKey
        splitRows d
      else pure (d, [d.text])
    let (d, main) ← verified d main
    return (d.outcome main, d.catalog)

/-- The checked conversion ends as the conversion does. -/
theorem convert_ends (context : Context) (catalog : Catalog) (s : Statement)
    (previous : Option Text) :
    Ends (convert context catalog s previous) (Recast.convert context catalog s previous) := by
  refine .of_check (boundText_eq _) (.ite (fun _ => ?_) fun _ => ?_)
  · refine (Pass.run_ends context _ .general).bind fun d _ => .ite (fun _ => ?_) fun _ => rfl
    exact (Pass.run_ends context d .onDuplicateKey).bind fun e _ => rfl
  · refine (Ends.foldlM (fun p _ d => Pass.run_ends context d p) _).bind fun d _ =>
      .ite (fun _ => ?_) fun _ => ?_
    · refine (Pass.run_ends context d .onDuplicateKey).bind fun e _ => ?_
      exact .of_check (splitRows_eq e) (.of_check (verified_eq _ _) rfl)
    · exact .of_check rfl (.of_check (verified_eq _ _) rfl)

end Checked

/-! ### The two faults -/

theorem bind_eq_error {x : Except ε α} {f : α → Except ε β} {e : ε} (h : x >>= f = .error e) :
    x = .error e ∨ ∃ a, x = .ok a ∧ f a = .error e := by
  cases x with
  | error e' =>
    cases h
    exact .inl rfl
  | ok a => exact .inr ⟨a, rfl, h⟩

/-- The fault of a fold is one of its steps. -/
theorem exists_of_foldlM_eq_error {f : β → α → Except ε β} {l : List α} {b : β} {e : ε}
    (h : l.foldlM f b = .error e) : ∃ a ∈ l, ∃ c, f c a = .error e := by
  induction l generalizing b with
  | nil => cases h
  | cons a l ih =>
    rcases bind_eq_error h with h | ⟨c, -, h⟩
    · exact ⟨a, mem_cons_self, b, h⟩
    · obtain ⟨a', ha', hfails⟩ := ih h
      exact ⟨a', mem_cons_of_mem a ha', hfails⟩

namespace CreateTable

/-- A statement whose conversion may end at a fault. -/
inductive Faulty (t : Text) : Prop
  /-- The sixth byte is in front of the word TABLE, and it does not end a character. -/
  | word {n : Nat} :
      Keyword.find? (mask t) "TABLE" 0 = some n → 6 < n → (mask t).isBoundary 6 = false → Faulty t
  /-- In the definition of a column an enumeration stands inside another. -/
  | enumeration {table list entry : Text} : definition? t = .ok (some (table, list)) →
    entry ∈ (Nesting.parts list ',').map trim → Entry.ofText entry = .column →
    ¬ Unnested (splitName entry).2 → Faulty t

/-- The first fault: the cut in front of the word TABLE. -/
theorem faulty_of_definition? (h : definition? t = .error fault) : Faulty t := by
  rw [definition?] at h
  cases hn : Keyword.find? (mask t) "TABLE" 0 with
  | none =>
    rw [hn] at h
    cases h
  | some n =>
    rw [hn] at h
    rcases bind_eq_error h with h | ⟨plain, -, h⟩
    · rw [isPlain] at h
      split at h
      · cases h
      · next hno =>
        have hword := (Keyword.free_of_find? (by decide) hn).1.outside.isBoundary_mask
        have hlt : 6 < n := by
          refine Nat.lt_of_not_le fun hle => hno ?_
          rwa [Nat.min_eq_right hle]
        rw [Nat.min_eq_left (Nat.le_of_lt hlt)] at hno
        exact .word hn hlt (Bool.eq_false_iff.2 hno)
    · cases h

/-- The second fault: a column with nested enumerations. -/
theorem not_unnested_of_add {b : Body} {entry : Text} (h : b.add settings entry = .error fault) :
    Entry.ofText entry = .column ∧ ¬ Unnested (splitName entry).2 := by
  rw [Body.add] at h
  cases hentry : Entry.ofText entry with
  | column =>
    refine ⟨rfl, fun hunnested => ?_⟩
    rw [hentry] at h
    obtain ⟨r, hr, -⟩ := exists_replaceEnums hunnested
    obtain ⟨definition, hdefinition⟩ := exists_column_of_replaceEnums settings hr
    rcases bind_eq_error h with h | ⟨_, -, h⟩
    · simp [hdefinition] at h
    · cases h
  | _ =>
    simp [hentry] at h

/-- A CREATE TABLE that ends at a fault is faulty. -/
theorem faulty_of_apply (h : apply settings d = .error fault) :
    d.kind = .create ∧ Faulty d.text := by
  rw [apply] at h
  cases hkind : d.kind with
  | create =>
    refine ⟨rfl, ?_⟩
    rw [hkind] at h
    rcases bind_eq_error h with h | ⟨found, hfound, h⟩
    · exact faulty_of_definition? h
    · rcases found with _ | ⟨table, list⟩
      · cases h
      · rcases bind_eq_error h with h | ⟨_, -, h⟩
        · obtain ⟨entry, hentry, b, hb⟩ := exists_of_foldlM_eq_error h
          obtain ⟨hcolumn, hnested⟩ := not_unnested_of_add hb
          exact .enumeration hfound (mem_filter.1 hentry).1 hcolumn hnested
        · cases h
  | _ =>
    simp [hkind] at h

end CreateTable

/-- No other pass ends at a fault. -/
theorem Pass.faulty_of_run {p : Pass} (h : p.run context d = .error fault) :
    p = .createTable ∧ d.kind = .create ∧ Faulty d.text := by
  rcases bind_eq_error h with h | ⟨e, -, h⟩
  · cases p with
    | createTable => exact ⟨rfl, faulty_of_apply h⟩
    | _ => cases h
  · cases h

/-- A fault of the pipeline is one of its last pass. -/
theorem Pass.faulty_of_pipeline (h : pipeline.foldlM (run context) d = .error fault) :
    ∃ e, pipeline.dropLast.foldlM (run context) d = .ok e ∧ e.kind = .create ∧ Faulty e.text := by
  rw [show pipeline = pipeline.dropLast ++ [createTable] from rfl, foldlM_append] at h
  rcases bind_eq_error h with h | ⟨e, he, h⟩
  · obtain ⟨p, hp, c, hc⟩ := exists_of_foldlM_eq_error h
    obtain ⟨rfl, -⟩ := faulty_of_run hc
    exact absurd hp (by decide)
  · refine ⟨e, he, ?_⟩
    rcases bind_eq_error h with h | ⟨_, -, h⟩
    · exact (faulty_of_run h).2
    · cases h

/-- A conversion ends at a fault only for a CREATE TABLE that is faulty when its pass is made. -/
theorem faulty_of_convert {catalog : Catalog} {s : Statement} {previous : Option Text}
    (h : convert context catalog s previous = .error fault) : s.isSerialized = false ∧ ∃ d,
      Pass.pipeline.dropLast.foldlM (Pass.run context) (.bound context catalog s previous) = .ok d ∧
      d.kind = .create ∧ Faulty d.text := by
  have hother {d : Draft} {p : Pass} (hp : p ≠ .createTable) : p.run context d ≠ .error fault :=
    fun herror => hp (Pass.faulty_of_run herror).1
  rw [convert] at h
  split at h
  · rcases bind_eq_error h with h | ⟨d, -, h⟩
    · exact absurd h (hother (by decide))
    · split at h
      · rcases bind_eq_error h with h | ⟨_, -, h⟩
        · exact absurd h (hother (by decide))
        · cases h
      · cases h
  · next hno =>
    refine ⟨Bool.eq_false_iff.2 hno, ?_⟩
    rcases bind_eq_error h with h | ⟨d, -, h⟩
    · exact Pass.faulty_of_pipeline h
    · split at h
      · rcases bind_eq_error h with h | ⟨_, -, h⟩
        · exact absurd h (hother (by decide))
        · cases h
      · cases h

/-- No cut of a conversion fails and no place of a list is missing, whatever the statement, its
parameters, the statement before it, the catalog and the settings are; but for a CREATE TABLE that
is faulty, which may end the conversion. -/
theorem convert_in_bounds_or_faulty (context : Context) (catalog : Catalog) (s : Statement)
    (previous : Option Text) :
    (∃ r, Checked.convert context catalog s previous = .ok r ∧
      convert context catalog s previous = .ok r) ∨
    ∃ fault, Checked.convert context catalog s previous = .error (.cut fault) ∧
      convert context catalog s previous = .error fault ∧ s.isSerialized = false ∧ ∃ d,
        Pass.pipeline.dropLast.foldlM (Pass.run context)
          (.bound context catalog s previous) = .ok d ∧
        d.kind = .create ∧ CreateTable.Faulty d.text := by
  have hends := Checked.convert_ends context catalog s previous
  cases h : convert context catalog s previous with
  | ok r =>
    rw [h] at hends
    exact .inl ⟨r, hends, rfl⟩
  | error fault =>
    rw [h] at hends
    exact .inr ⟨fault, hends, rfl, faulty_of_convert h⟩

/-- Behind a parenthesis and two wide blanks CREATE is still the first word, but the sixth byte lies
inside the second blank. And what stands for the inner one of two enumerations is a byte shorter, so
the outer one would end behind the definition. -/
theorem convert_out_of_bounds :
    Checked.convert ⟨{}, ⟨0, 0⟩⟩ {} (.ofText "(　　CREATE TABLE t (a int)") none = .error (.cut ⟨6⟩) ∧
      Checked.convert ⟨{}, ⟨0, 0⟩⟩ {} (.ofText "CREATE TABLE t (a enum(enum('1')))") none =
        .error (.cut ⟨16⟩) := by
  decide +kernel

end Recast
