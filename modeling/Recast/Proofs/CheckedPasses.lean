import Recast.Proofs.CheckedReading
import Recast.Proofs.Recounting

/-!
# Passes with checked cuts

The passes that look for one construct at a time. Most cut their text where they read something that
the mask shows, and a literal shows nothing but its quotes: such a place is outside literals, so the
text can be cut there. Calls that may be nested are replaced from the last one to the first, in a
text that has changed since they were looked for; what stands in front of a replacement has not.
-/

namespace Recast

open Keyword Literal Cursor List Text
open Option hiding guard

variable {m name t word : Text} {c d : Cursor} {n : Nat}

/-! ### Reading on -/

namespace Cursor

/-- A scan that takes over what another one finds, with `f` applied to it. -/
theorem scanFrom_map {step : Cursor → Option (Option α × Nat)}
    {step' : Cursor → Option (Option β × Nat)} {f : α → β}
    (h : ∀ c, step' c = (step c).map (Prod.map (Option.map f) id)) (resume offset : Nat)
    (last : Option Char) (t : Text) :
    scanFrom step' resume offset last t = (scanFrom step resume offset last t).map f := by
  induction t generalizing resume offset last with
  | nil => rfl
  | cons c t ih =>
    rw [scanFrom, scanFrom, h]
    split
    · exact ih ..
    · cases step ⟨offset, last, c :: t⟩ with
      | none => exact ih ..
      | some found =>
        obtain ⟨found, stop⟩ := found
        simp only [map_some, Prod.map_apply, id_eq, ih, map_append]
        cases found <;> rfl

theorem findAll_map {clause : Cursor → Option (α × Cursor)} {clause' : Cursor → Option (β × Cursor)}
    {f : α → β} (h : ∀ c, clause' c = (clause c).map (Prod.map f id)) (c : Cursor) :
    c.findAll clause' = (c.findAll clause).map f := by
  refine scanFrom_map (fun d => ?_) ..
  rw [h]
  cases clause d <;> rfl

end Cursor

namespace Checked

theorem bind_eq_map_bind {o : Option α} {f : α → Option γ} {g : α → Option β} {h : β → γ}
    (hf : ∀ a, f a = (g a).map h) : (o >>= f) = (o >>= g).map h := by
  cases o with
  | none => rfl
  | some a => exact hf a

/-- Finds that are cut out afterwards, against clauses that cut while they read. -/
theorem mapM_findAll {clause : Cursor → Option (α × Cursor)}
    {clause' : Cursor → Option (β × Cursor)} {f : α → Check β} {g : α → β}
    (hclause : ∀ d, clause' d = (clause d).map (Prod.map g id))
    (hf : ∀ a ∈ c.findAll clause, f a = .ok (g a)) :
    (c.findAll clause).mapM f = .ok (c.findAll clause') := by
  rw [findAll_map hclause]
  exact mapM_eq hf

/-! ### Commands and quoting -/

namespace General

def command? (t : Text) : Search Text :=
  if t.startsWith "SHOW VARIABLES LIKE 'sql_mode'" || t.startsWith "SET NAMES" then return []
  else if t.same "SHOW TABLES" then return General.tableList
  else
    match leading? t ["SHOW", "TABLES", "LIKE"], leading? t ["SHOW", "COLUMNS", "FROM"] with
    | some n, _ => do
      let rest ← after t n
      return "SELECT TABLE_NAME FROM INFORMATION_SCHEMA.TABLES WHERE TABLE_NAME LIKE " ++ trim rest
    | none, some n => do
      let rest ← after t n
      let table := unquote (strip (· == '\'') (trim rest))
      return "SELECT COLUMN_NAME FROM INFORMATION_SCHEMA.COLUMNS WHERE TABLE_NAME = " ++
        Literal.quote table
    | none, none => failure

/-- A command is cut behind its first words. -/
theorem command?_finds (t : Text) : Finds (command? t) (Recast.General.command? t) := by
  refine .ite (fun _ => finds_pure _) fun _ => .ite (fun _ => finds_pure _) fun _ => ?_
  cases hlike : leading? t ["SHOW", "TABLES", "LIKE"] with
  | some n => exact .of_check (after_eq (isBoundary_of_leading? hlike)) (finds_pure _)
  | none =>
    cases hcolumns : leading? t ["SHOW", "COLUMNS", "FROM"] with
    | some n => exact .of_check (after_eq (isBoundary_of_leading? hcolumns)) (finds_pure _)
    | none => exact finds_failure

def indexHint? (catalog : Catalog) (t : Text) : Search Text := do
  let masked := mask t
  let hint ← findPhrase? masked ["USE", "INDEX"] 0
  let opening ← findFrom? (· == '(') hint.stop (← after masked hint.stop)
  guard (← slice masked ⟨hint.stop, opening⟩).isBlankText
  let close ← Nesting.closing? masked opening
  let front ← before masked hint.start
  let table := ((words front).getLast?.map unquote).bind catalog.table?
  let list ← slice t ⟨opening + 1, close⟩
  let names := (← Nesting.parts list).map (General.indexName table)
  splice t ⟨hint.start, close + 1⟩ ("WITH (INDEX(" ++ join "," names ++ "))")

/-- From the hint to the parenthesis that closes its list. -/
theorem indexHint?_finds (catalog : Catalog) (t : Text) :
    Finds (indexHint? catalog t) (Recast.General.indexHint? catalog t) := by
  refine .of_option fun hint hhint => ?_
  obtain ⟨hpart, -⟩ := part_of_findPhrase? hhint
  have hstart := (free_of_mem_phrases (by decide) (mem_of_mem_head? hhint)).1
  refine .of_check (after_eq hpart.stop) (.of_option fun opening hopening => ?_)
  have hgap := part_of_findFrom? hpart.stop hopening
  refine .of_check hgap.slice_eq (.of_guard fun _ => .of_option fun close hclose => ?_)
  obtain ⟨hlist, hbehind⟩ := part_of_closing? hclose
  refine .of_check (before_eq hpart.start)
    (.of_check hlist.slice_eq (.of_check (Nesting.parts_eq _) ?_))
  have hwhole : Part t ⟨hint.start, close + 1⟩ := by
    refine ⟨hstart.outside.isBoundary, hbehind, ?_⟩
    calc
      hint.start ≤ hint.stop := hpart.le
      _ ≤ opening := hgap.le
      _ ≤ close + 1 := Nat.le_of_succ_le (Nat.le_succ_of_le hlist.le)
  exact finds_check (hwhole.splice_eq _)

def versionQuery (t : Text) : Check Text :=
  if t.startsWith "SELECT VERSION()" then do return "SELECT @@VERSION" ++ (← after t 16)
  else return t

theorem versionQuery_eq (t : Text) : versionQuery t = .ok (Recast.General.versionQuery t) := by
  refine ok_ite (fun hstarts => ?_) fun _ => rfl
  obtain ⟨w, r, rfl, hw⟩ := exists_of_startsWith hstarts
  have hsize : size w = 16 := by
    rw [← size_lower, hw]
    rfl
  rw [after_eq (hsize ▸ isBoundary_append w r)]
  rfl

def dropCondition (t : Text) : Check Text :=
  match leading? t ["DROP", "TABLE", "IF", "EXISTS"] with
  | some n => do return "DROP TABLE" ++ (← after t n)
  | none => return t

theorem dropCondition_eq (t : Text) : dropCondition t = .ok (Recast.General.dropCondition t) := by
  rw [dropCondition, Recast.General.dropCondition]
  cases hn : leading? t ["DROP", "TABLE", "IF", "EXISTS"] with
  | none => rfl
  | some n =>
    dsimp only
    rw [after_eq (isBoundary_of_leading? hn)]
    rfl

/-- Past the AS in front of the name of a count. -/
def countName? (d : Cursor) : Option Cursor := do
  let e ← (← d.blanks?).word? "AS"
  guard (!e.beforeWord)
  return e

/-- Past SELECT and a COUNT over all rows, with its span unless it has a name. -/
def counted? (c : Cursor) : Option (Option Span × Cursor) := do
  guard (!c.afterWord)
  let d ← (← c.word? "SELECT").blanks?
  let d := (← (← d.word? "COUNT").sign? '(').blanks
  let d ← d.char? fun x => x == '*' || x == '1'
  let d ← d.blanks.sign? ')'
  match countName? d with
  | some e => return (none, e)
  | none => return (some (c.spanTo d), d)

def nameCount (t : Text) : Option Span → Check (Option Edit)
  | none => return none
  | some s => do return some ⟨s, (← slice t s) ++ " as Computed"⟩

def nameCounts (t : Text) : Check Text := do
  let edits ← ((Cursor.start (mask t)).findAll counted?).mapM (nameCount t)
  Edit.applyAll t (edits.filterMap id)

/-- The edit of a count is read off its span. -/
theorem count?_eq (t : Text) (c : Cursor) : Recast.General.count? t c =
    (counted? c).map (Prod.map (Option.map fun s => ⟨s, t.slice s ++ " as Computed"⟩) id) := by
  refine bind_eq_map_bind fun _ => bind_eq_map_bind fun _ => bind_eq_map_bind fun _ => ?_
  refine bind_eq_map_bind fun _ => bind_eq_map_bind fun _ => bind_eq_map_bind fun _ => ?_
  refine bind_eq_map_bind fun d => ?_
  cases hname : countName? d <;>
  · rw [countName?] at hname
    rw [hname]
    rfl

/-- A count starts at the word SELECT and ends at a parenthesis. -/
theorem part_of_counted? (hc : At (mask t) c) {s : Span} (h : counted? c = some (some s, d)) :
    Part t s := by
  obtain ⟨_, -, d₁, h₁, d₂, h₂, d₃, h₃, h⟩ := of_bind₄ h
  obtain ⟨d₄, h₄, d₅, h₅, d₆, h₆, h⟩ := of_bind₃ h
  split at h
  · cases h
  · cases h
    obtain ⟨w₁, r₁, -⟩ := word?_reads h₁
    obtain ⟨w₂, r₂, -⟩ := some?_reads h₂
    obtain ⟨w₃, r₃, -⟩ := word?_reads h₃
    obtain ⟨w₄, r₄, -⟩ := skipWhile_reads d₄ isBlank
    obtain ⟨x, -, r₅⟩ := char?_reads h₅
    obtain ⟨w₆, r₆, -⟩ := skipWhile_reads d₅ isBlank
    obtain ⟨hclear, -, hne⟩ := hc.clear_of_word? h₁ (by decide)
    have hread :=
      ((((((r₁.trans r₂).trans r₃).trans (sign?_reads h₄)).trans r₄).trans r₅).trans r₆).trans
      (sign?_reads h₆)
    refine ⟨(hclear.free hne).outside.isBoundary, ?_, hread.le⟩
    exact (edge_of_sign? (by decide) h₆).2.isBoundary (hc.reads hread)

theorem nameCounts_eq (t : Text) : nameCounts t = .ok (Recast.General.nameCounts t) := by
  have hfinds : ((start (mask t)).findAll counted?).mapM (nameCount t)
      = .ok ((start (mask t)).findAll (Recast.General.count? t)) := by
    refine mapM_findAll (count?_eq t) fun s hs => ?_
    obtain ⟨c, d, hc, h⟩ := at_of_mem_findAll hs
    cases s with
    | none => rfl
    | some s =>
      rw [nameCount, (part_of_counted? hc h).slice_eq]
      rfl
  rw [nameCounts, hfinds]
  exact Edit.applyAll_eq t _

def apply (catalog : Catalog) (t : Text) : Check Text := do
  match ← (command? (trimEnd (dropEnd (· == ';') t.trim))).run with
  | some command => return command
  | none =>
    let t ← Edit.replaceAll (← versionQuery t) "LAST_INSERT_ID()" "@@IDENTITY"
    let t ← dropCondition (← (indexHint? catalog t).getD t)
    nameCounts (← Edit.replaceAll t ['\x60'] [])

theorem apply_eq (catalog : Catalog) (t : Text) :
    apply catalog t = .ok (Recast.General.apply catalog t) := by
  unfold apply Recast.General.apply
  rw [(command?_finds _).run_eq, ok_bind]
  cases Recast.General.command? (trimEnd (dropEnd (· == ';') t.trim)) with
  | some command => rfl
  | none =>
    rw [versionQuery_eq, ok_bind, Edit.replaceAll_eq, ok_bind,
      (indexHint?_finds catalog _).getD_eq, ok_bind,
      dropCondition_eq, ok_bind, Edit.replaceAll_eq, ok_bind]
    exact nameCounts_eq _

end General

/-! ### Identity columns -/

namespace Identity

def given? (d : Draft) : Search Text := do
  guard (d.kind == .insert)
  let i ← Insertion.ofText? d.text
  let identity ← d.catalog.identity? i.table
  guard (i.columns.any fun c => c.same identity)
  return i.table

def aroundInsert (d : Draft) : Check Draft := do
  return match ← (given? d).run with
    | some table =>
      (d.precede (Identity.toggle table true)).follow (Identity.toggle table false) .always
    | none => d

/-- The table of an INSERT is looked up in its parts. -/
theorem aroundInsert_eq (d : Draft) : aroundInsert d = .ok (Recast.Identity.aroundInsert d) := by
  have hgiven : Finds (given? d) (do
      guard (d.kind == .insert)
      let i ← Recast.Insertion.ofText? d.text
      let identity ← d.catalog.identity? i.table
      guard (i.columns.any fun c => c.same identity)
      return i.table) :=
    .of_guard fun _ => (Insertion.ofText?_finds d.text).bind fun i _ => .of_option fun identity _ =>
      .of_guard fun _ => finds_pure _
  rw [aroundInsert, hgiven.run_eq]
  rfl

def name? (t : Text) (c : Cursor) : Search (Text × Cursor) := do
  let d ← c.some? isBracketedName
  return (unquote (← slice t (c.spanTo d)), d)

def equalsNumber? (t : Text) (c : Cursor) : Search (Text × Cursor) := do
  let d := (← c.blanks.sign? '=').blanks
  let e ← d.digits?
  return (← slice t (d.spanTo e), e)

def renumbering? (t : Text) : Search Identity.Renumbering := do
  let c ← (← (Cursor.start t).word? "UPDATE").blanks?
  let (table, c) ← name? t c
  let c ← (← (← c.blanks?).word? "SET").blanks?
  let (setColumn, c) ← name? t c
  let (target, c) ← equalsNumber? t c
  let c ← (← (← c.blanks?).word? "WHERE").blanks?
  let (whereColumn, c) ← name? t c
  let (source, c) ← equalsNumber? t c
  guard (c.blanks.skipSign ';').atEnd
  return { table, setColumn, target, whereColumn, source }

/-- A search that reads a name and goes on behind it. -/
theorem name?_finds (hc : At t c) {f : Text × Cursor → Search α} {g : Text × Cursor → Option α}
    (h : ∀ name d, At t d → Finds (f (name, d)) (g (name, d))) :
    Finds (name? t c >>= f) (Recast.Identity.name? t c >>= g) := by
  refine Finds.bind (.of_option fun d hd => ?_) ?_
  · obtain ⟨w, hw, -⟩ := some?_reads hd
    exact .of_check (part_of_at hc hw).slice_eq (finds_pure _)
  · rintro ⟨name, d⟩ hname
    obtain ⟨e, he, hname⟩ := bind_eq_some_iff.1 hname
    cases hname
    exact h _ _ (hc.some? he)

/-- A search that reads a number behind an equals sign and goes on. -/
theorem equalsNumber?_finds (hc : At t c) {f : Text × Cursor → Search α}
    {g : Text × Cursor → Option α}
    (h : ∀ number d, At t d → Finds (f (number, d)) (g (number, d))) :
    Finds (equalsNumber? t c >>= f) (Recast.Identity.equalsNumber? t c >>= g) := by
  have hbehind {d : Cursor} (hd : c.blanks.sign? '=' = some d) : At t d.blanks :=
    ((hc.skipWhile _).sign? hd).skipWhile _
  refine Finds.bind (.of_option fun d hd => .of_option fun e he => ?_) ?_
  · obtain ⟨w, hw, -⟩ := some?_reads he
    exact .of_check (part_of_at (hbehind hd) hw).slice_eq (finds_pure _)
  · rintro ⟨number, d⟩ hnumber
    obtain ⟨e, he, k, hk, hnumber⟩ := of_bind₂ hnumber
    cases hnumber
    exact h _ _ ((hbehind he).some? hk)

/-- An UPDATE that renumbers a row is read from its start. -/
theorem renumbering?_finds (t : Text) :
    Finds (renumbering? t) (Recast.Identity.renumbering? t) := by
  refine .of_option fun c₁ h₁ => .of_option fun c₂ h₂ => ?_
  refine name?_finds (((at_start t).word? h₁).some? h₂) fun table c₃ hc₃ => ?_
  refine .of_option fun c₄ h₄ => .of_option fun c₅ h₅ => .of_option fun c₆ h₆ => ?_
  refine name?_finds (((hc₃.some? h₄).word? h₅).some? h₆) fun setColumn c₇ hc₇ => ?_
  refine equalsNumber?_finds hc₇ fun target c₈ hc₈ => ?_
  refine .of_option fun c₉ h₉ => .of_option fun d₁ k₁ => .of_option fun d₂ k₂ => ?_
  refine name?_finds (((hc₈.some? h₉).word? k₁).some? k₂) fun whereColumn d₃ hd₃ => ?_
  exact equalsNumber?_finds hd₃ fun source d₄ _ => .of_guard fun _ => finds_pure _

def moveRow? (d : Draft) : Search Draft := do
  guard (d.kind == .update)
  let r ← renumbering? d.text
  let identity ← d.catalog.identity? r.table
  guard (r.setColumn.same identity && r.whereColumn.same identity)
  let columns := (← d.catalog.table? r.table).columnNames
  guard (columns.any fun c => c.same identity)
  let selected := columns.map fun c => if c.same identity then r.target else c
  let place : Text := " " ++ r.table ++ " WHERE " ++ identity ++ " = " ++ r.source
  let copy : Text := "INSERT INTO " ++ r.table ++ " (" ++ join "," columns ++ ") SELECT "
    ++ join "," selected ++ " FROM" ++ place
  let d := { d with verify := false, text := copy }
  return ((d.precede (Identity.toggle r.table true)).follow ("DELETE" ++ place) .onSuccess).follow
    (Identity.toggle r.table false) .always

def ofUpdate (d : Draft) : Check Draft := (moveRow? d).getD d

theorem ofUpdate_eq (d : Draft) : ofUpdate d = .ok (Recast.Identity.ofUpdate d) := by
  refine Finds.getD_eq (o := Recast.Identity.moveRow? d) ?_ d
  refine .of_guard fun _ => (renumbering?_finds d.text).bind fun r _ =>
    .of_option fun identity _ => ?_
  exact .of_guard fun _ => .of_option fun table _ => .of_guard fun _ => finds_pure _

end Identity

/-! ### Function calls -/

namespace Functions

def calls (masked name : Text) : Check (List Nat) :=
  (occurrences masked name).filterM fun n => do
    return !(← before masked n).getLast?.any isNameChar

theorem isBoundary_of_mem_occurrences (h : n ∈ occurrences m name) : m.isBoundary n := by
  obtain ⟨c, d, hc, rfl, -⟩ := at_of_mem_occurrences h
  exact hc.isBoundary

theorem calls_eq (masked name : Text) :
    calls masked name = .ok (Recast.Functions.calls masked name) := by
  refine filterM_eq fun n hn => ?_
  rw [before_eq (isBoundary_of_mem_occurrences hn)]
  rfl

theorem free_of_mem_calls (hname : Shows Char.toLower name)
    (h : n ∈ Recast.Functions.calls (mask t) name) : Free (mask t) n :=
  (free_of_mem_occurrences hname (mem_filter.1 h).1).1

def arguments? (t masked : Text) (opening : Nat) : Search (List Text × Nat) := do
  let close ← Nesting.closing? masked opening
  let list ← slice t ⟨opening + 1, close⟩
  return (← Nesting.parts list, close)

theorem arguments?_finds (t : Text) (opening : Nat) :
    Finds (arguments? t (mask t) opening) (Recast.Functions.arguments? t (mask t) opening) := by
  refine .of_option fun close hclose => .of_check (part_of_closing? hclose).1.slice_eq ?_
  exact .of_check (Nesting.parts_eq _) (finds_pure _)

/-- From a call to the parenthesis that closes it. -/
theorem part_of_arguments? {opening close : Nat} {args : List Text} (hn : Free (mask t) n)
    (hle : n ≤ opening) (h : Recast.Functions.arguments? t (mask t) opening = some (args, close)) :
    Part t ⟨n, close + 1⟩ := by
  obtain ⟨k, hk, h⟩ := bind_eq_some_iff.1 h
  cases h
  obtain ⟨hlist, hbehind⟩ := part_of_closing? hk
  refine ⟨hn.outside.isBoundary, hbehind, ?_⟩
  calc
    n ≤ opening + 1 := Nat.le_succ_of_le hle
    _ ≤ close := hlist.le
    _ ≤ close + 1 := Nat.le_succ close

/-- Calls that are replaced from the last one to the first start where the text can still be cut. -/
theorem foldlM_calls (place : α → Nat) {f : Text → α → Check Text} {g : Text → α → Option Text}
    (hf : ∀ t a, Free (mask t) (place a) → f t a = .ok ((g t a).getD t))
    (hg : ∀ t a r, g t a = some r → ∃ stop c rest, r = t.splice ⟨place a, stop⟩ (c :: rest) ∧
      isQuote c = false)
    {l : List α} (hl : l.Pairwise fun a b => place b ≤ place a)
    (hfree : ∀ a ∈ l, Free (mask t) (place a)) :
    l.foldlM f t = .ok (l.foldl (fun t a => (g t a).getD t) t) := by
  refine (foldlM_eq (I := fun l t => l.Pairwise (fun a b => place b ≤ place a) ∧
    ∀ a ∈ l, Free (mask t) (place a)) (fun a l t ht => ?_) ⟨hl, hfree⟩).1
  obtain ⟨hl, hfree⟩ := ht
  obtain ⟨hle, hl⟩ := pairwise_cons.1 hl
  obtain ⟨ha, hfree⟩ := forall_mem_cons.1 hfree
  refine ⟨hf t a ha, hl, fun b hb => ?_⟩
  cases hr : g t a with
  | none => exact hfree b hb
  | some r =>
    obtain ⟨stop, c, rest, rfl, hc⟩ := hg t a r hr
    exact Recast.Functions.free_of_splice ha (hfree b hb) (hle b hb) hc

def interval? (t : Text) : Search Functions.Interval := do
  let c ← (← (Cursor.start t).word? "INTERVAL").blanks?
  let c := (c.skipSign '\'').blanks
  let d ← (c.skipSign '-').blanks.digits?
  let e := d.blanks
  let unit ← (match e.sign? '\'' with
    | some f => f.blanks?
    | none => d.blanks? : Option Cursor)
  let stop ← unit.some? isFoldedLetter
  guard stop.atEnd
  let amount ← slice t (c.spanTo d)
  return { amount := amount.filter (!isBlank ·), unit := ← slice t (unit.spanTo stop) }

/-- An interval is read from its start, with or without quotes. -/
theorem interval?_finds (t : Text) : Finds (interval? t) (Recast.Functions.interval? t) := by
  refine .of_option fun c₁ h₁ => .of_option fun c₂ h₂ => .of_option fun d hd => ?_
  obtain ⟨quote, hquote, -⟩ := through_skipSign (P := fun x => x = '\'') c₂ rfl
  have hc := ((((at_start t).word? h₁).some? h₂).reads hquote).skipWhile isBlank
  obtain ⟨minus, hminus, -⟩ :=
    through_skipSign (P := fun x => x = '-') (c₂.skipSign '\'').blanks rfl
  obtain ⟨gap, hgap, -⟩ := skipWhile_reads ((c₂.skipSign '\'').blanks.skipSign '-') isBlank
  obtain ⟨digits, hdigits, -⟩ := some?_reads hd
  have hamount := (hminus.trans hgap).trans hdigits
  have hd' := hc.reads hamount
  have hend {unit : Cursor} (hunit : At t unit) : Finds (do
        let stop ← unit.some? isFoldedLetter
        guard stop.atEnd
        let amount ← slice t ((c₂.skipSign '\'').blanks.spanTo d)
        return { amount := amount.filter (!isBlank ·), unit := ← slice t (unit.spanTo stop) })
      (do
        let stop ← unit.some? isFoldedLetter
        guard stop.atEnd
        return { amount := (t.slice ((c₂.skipSign '\'').blanks.spanTo d)).filter (!isBlank ·)
                 unit := t.slice (unit.spanTo stop) : Functions.Interval }) := by
    refine .of_option fun stop hstop => .of_guard fun _ => ?_
    obtain ⟨letters, hletters, -⟩ := some?_reads hstop
    refine .of_check (part_of_at hc hamount).slice_eq ?_
    exact .of_check (part_of_at hunit hletters).slice_eq (finds_pure _)
  dsimp only
  cases hf : d.blanks.sign? '\'' with
  | some f => exact .of_option fun unit hunit => hend (((hd'.skipWhile _).sign? hf).some? hunit)
  | none => exact .of_option fun unit hunit => hend (hd'.some? hunit)

def dateCall? (t : Text) (direction : Functions.Direction) (n : Nat) : Search Text := do
  let (args, close) ← arguments? t (mask t) (n + 8)
  match args with
  | [date, interval] =>
    let i ← interval? interval.trim
    splice t ⟨n, close + 1⟩
      ("DATEADD(" ++ i.unit.upper ++ ", " ++ i.signed direction ++ ", " ++ date.trim ++ ")")
  | _ => failure

def dateArithmetic (t : Text) : Check Text := do
  let masked := mask t
  let found ← [Functions.Direction.add, .subtract].mapM fun d => do
    return (← calls masked d.call).map fun n => (n, d)
  (sortedBy (fun a b => b.1 ≤ a.1) found.flatten).foldlM
    (fun t call => (dateCall? t call.2 call.1).getD t) t

/-- A date sum is replaced from its name to its end. -/
theorem dateCall?_finds (hn : Free (mask t) n) (direction : Functions.Direction) :
    Finds (dateCall? t direction n) (Recast.Functions.dateCall? t direction n) := by
  refine (arguments?_finds t (n + 8)).bind ?_
  rintro ⟨args, close⟩ hargs
  have hpart := part_of_arguments? hn (Nat.le_add_right n 8) hargs
  match args with
  | [date, interval] => exact (interval?_finds _).bind fun i _ => finds_check (hpart.splice_eq _)
  | [] | [_] | _ :: _ :: _ :: _ => exact finds_failure

/-- What stands for a date sum starts with a letter. -/
theorem dateCall?_eq_some {r : Text} {direction : Functions.Direction}
    (h : Recast.Functions.dateCall? t direction n = some r) :
    ∃ stop c rest, r = t.splice ⟨n, stop⟩ (c :: rest) ∧ isQuote c = false := by
  obtain ⟨⟨args, close⟩, -, h⟩ := bind_eq_some_iff.1 h
  dsimp only at h
  split at h
  · obtain ⟨i, -, h⟩ := bind_eq_some_iff.1 h
    cases h
    exact ⟨close + 1, 'D', _, rfl, by decide⟩
  · cases h

/-- Date sums are replaced without a breach, from the last to the first. -/
theorem dateArithmetic_eq (t : Text) :
    dateArithmetic t = .ok (Recast.Functions.dateArithmetic t) := by
  have hfound : [Functions.Direction.add, .subtract].mapM (fun d => do
      return (← calls (mask t) d.call).map fun n => (n, d))
      = Except.ok ([Functions.Direction.add, .subtract].map fun d =>
        (Recast.Functions.calls (mask t) d.call).map fun n => (n, d)) := by
    refine mapM_eq fun d _ => ?_
    rw [calls_eq]
    rfl
  unfold dateArithmetic
  dsimp only
  rw [hfound]
  refine foldlM_calls Prod.fst (fun u call hcall => ?_) (fun u call r hr => dateCall?_eq_some hr)
    ?_ fun call hcall => ?_
  · exact (dateCall?_finds hcall call.2).getD_eq u
  · exact sortedBy_pairwise Prod.fst _
  · obtain ⟨d, -, hmem⟩ := mem_flatMap.1 (mem_sortedBy.1 hcall)
    obtain ⟨n, hn, rfl⟩ := mem_map.1 hmem
    exact free_of_mem_calls (by cases d <;> decide) hn

def caseCall? (t : Text) (n : Nat) : Search Text := do
  let masked := mask t
  let opening ← findWord? masked "(" n
  let (args, close) ← arguments? t masked opening
  match args with
  | [condition, yes, no] =>
    let _ ← findWord? (mask condition) "DATEADD(" 0
    splice t ⟨n, close + 1⟩
      ("(CASE WHEN " ++ condition.trim ++ " THEN " ++ yes.trim ++ " ELSE " ++ no.trim ++ " END)")
  | _ => failure

def conditionals (t : Text) : Check Text := do
  let masked := mask t
  let found := (← calls masked "IF(") ++ (← calls masked "IF (")
  (Functions.descending found).foldlM (fun t n => (caseCall? t n).getD t) t

theorem le_of_findWord? {k : Nat} (h : findWord? m word n = some k) : n ≤ k := by
  rw [findWord?] at h
  split at h
  · cases h
  · next hn =>
    have hplace : m.isBoundary n := by simp_all
    obtain ⟨_, c, d, hread, -, -, h⟩ := (at_ofOffset hplace).mem_findAll (mem_of_mem_head? h)
    obtain ⟨e, -, h⟩ := bind_eq_some_iff.1 h
    cases h
    exact hread.le

/-- A conditional is replaced from its name to its end. -/
theorem caseCall?_finds (hn : Free (mask t) n) :
    Finds (caseCall? t n) (Recast.Functions.caseCall? t n) := by
  refine .of_option fun opening hopening => (arguments?_finds t opening).bind ?_
  rintro ⟨args, close⟩ hargs
  have hpart := part_of_arguments? hn (le_of_findWord? hopening) hargs
  match args with
  | [condition, yes, no] => exact .of_option fun _ _ => finds_check (hpart.splice_eq _)
  | [] | [_] | [_, _] | _ :: _ :: _ :: _ :: _ => exact finds_failure

/-- Conditionals are replaced without a breach, from the last to the first. -/
theorem conditionals_eq (t : Text) : conditionals t = .ok (Recast.Functions.conditionals t) := by
  unfold conditionals
  dsimp only
  rw [calls_eq, calls_eq, ok_bind]
  refine foldlM_calls id (fun u n hn => (caseCall?_finds hn).getD_eq u) (fun u n r hr => ?_) ?_
    fun n hn => ?_
  · obtain ⟨close, rest, rfl⟩ := Recast.Functions.caseCall?_eq_some hr
    exact ⟨close + 1, '(', rest, rfl, by decide⟩
  · exact sortedBy_pairwise id _
  · rcases mem_append.1 (mem_sortedBy.1 hn) with hn | hn <;>
      exact free_of_mem_calls (by decide) hn

/-- Past a call of DAYOFMONTH; with it the span of the call and that of its argument. -/
def dayCall? (c : Cursor) : Option ((Span × Span) × Cursor) := do
  guard (!c.afterWord)
  let (arg, d) ← Functions.enclosed? (← c.word? "dayofmonth")
  return ((c.spanTo d, arg), d)

def dayEdit (t : Text) (call : Span × Span) : Check Edit := do
  return ⟨call.1, "DATEPART(DD, " ++ trim (← slice t call.2) ++ ")"⟩

def currentTime (t : Text) : Check Text := do
  let t ← Edit.replaceClauses (← Edit.replaceClauses t Functions.unixTime?) Functions.nowCall?
  let dated ← Edit.applyAll t (← ((Cursor.start (mask t)).findAll dayCall?).mapM (dayEdit t))
  if dated = t || !(← Alias.all dated).isEmpty then return dated
  else
    match findTop? (mask dated) ["FROM"] 0 with
    | some s => insertAt dated s.start "as dom "
    | none => return dated

/-- What stands in the parentheses of a call is a part. -/
theorem part_of_enclosed? {arg : Span} (hc : At (mask t) c)
    (h : Recast.Functions.enclosed? c = some (arg, d)) : Part t arg := by
  obtain ⟨hstart, hstop, -⟩ := Recast.Functions.free_of_enclosed? hc h
  refine part_of_outside hstart hstop.outside ?_
  obtain ⟨e, -, f, -, h⟩ := of_bind₂ h
  cases h
  obtain ⟨w, hw, -⟩ := skipWhile_reads e (· != ')')
  exact hw.le

/-- The arguments of DAYOFMONTH are cut out. -/
theorem mapM_dayEdit (t : Text) : ((start (mask t)).findAll dayCall?).mapM (dayEdit t)
    = .ok ((start (mask t)).findAll (Recast.Functions.dayOfMonth? t)) := by
  refine mapM_findAll (g := fun call => ⟨call.1, "DATEPART(DD, " ++ trim (t.slice call.2) ++ ")"⟩)
    (fun c => ?_) fun call hcall => ?_
  · exact bind_eq_map_bind fun _ => bind_eq_map_bind fun _ => bind_eq_map_bind fun _ => rfl
  · obtain ⟨c, d, hc, h⟩ := at_of_mem_findAll hcall
    obtain ⟨_, -, e, he, ⟨arg, f⟩, hf, h⟩ := of_bind₃ h
    cases h
    rw [dayEdit, (part_of_enclosed? (hc.word? he) hf).slice_eq]
    rfl

/-- A name for the day is put in front of a FROM. -/
theorem currentTime_eq (t : Text) : currentTime t = .ok (Recast.Functions.currentTime t) := by
  unfold currentTime Recast.Functions.currentTime
  rw [Edit.replaceClauses_eq, ok_bind, Edit.replaceClauses_eq, ok_bind, mapM_dayEdit, ok_bind,
    Edit.applyAll_eq, ok_bind]
  dsimp only [Recast.Edit.replaceClauses]
  rw [Alias.all_eq, ok_bind]
  refine ok_ite (fun _ => rfl) fun _ => ?_
  generalize Recast.Edit.applyAll _ (findAll _ (Functions.dayOfMonth? _)) = dated
  cases hs : findTop? (mask dated) ["FROM"] 0 with
  | none => rfl
  | some s => exact insertAt_eq (free_of_findTop? (by decide) hs).1.outside.isBoundary _

end Functions

end Checked

end Recast
