import Recast.Proofs.IdentitySwitch
import Recast.Proofs.Transparency

/-!
# Dates that are filled in and verified

The pass for dates exchanges entries of the rows of an INSERT (`filled?_rows`), and what is verified
in the end are these rows.
-/

namespace Recast

open Pass Literal Nesting Insertion List Text
open Option hiding guard

variable {a table tail : Text} {context : Context} {d e : Draft} {rows : List ValueRow} {p : Pass}

namespace ZeroDate

/-! ### Filling rows -/

section

variable (catalog : Catalog) (clock : Clock)

/-- An item of a row as the pass leaves it in a column. -/
def dated (table column : Text) (i : Item) : Item :=
  if isDate catalog table column && isZero i.core then
    { i with core := quote (clock.now (isUniversal column)) }
  else i

def datedRow (j : Insertion) (r : ValueRow) : ValueRow :=
  { r with items := overlay (dated catalog clock j.table) j.columns r.items }

end

section

variable {catalog : Catalog} {clock : Clock}

theorem proper_dated {column : Text} {i : Item} (h : i.Proper) :
    (dated catalog clock table column i).Proper := by
  rw [dated]
  split
  · exact ⟨h.lead, h.trail, entry_quote _, fun hempty => nomatch hempty⟩
  · exact h

theorem proper_overlay {g : α → Item → Item} (hg : ∀ a i, i.Proper → (g a i).Proper) (as : List α)
    {items : List Item} (h : ∀ i ∈ items, i.Proper) : ∀ i ∈ overlay g as items, i.Proper := by
  fun_induction overlay g as items with
  | case1 a as i items ih =>
    intro x hx
    rcases mem_cons.1 hx with rfl | hx
    · exact hg a i (h i (by simp))
    · exact ih (forall_mem_cons.1 h).2 x hx
  | case2 => exact h

theorem proper_datedRow (j : Insertion) {r : ValueRow} (h : r.Proper) :
    (datedRow catalog clock j r).Proper := by
  refine ⟨fun hnil => h.ne ?_, proper_overlay (fun _ _ => proper_dated) _ h.items⟩
  have hlen := length_overlay (dated catalog clock j.table) j.columns r.items
  rw [show overlay (dated catalog clock j.table) j.columns r.items = [] from hnil] at hlen
  exact length_eq_zero_iff.1 hlen.symm

theorem listed_map_datedRow (j : Insertion) (h : Insertion.Listed rows) :
    Insertion.Listed (rows.map (datedRow catalog clock j)) := by
  constructor
  · intro r hr
    rw [head?_map] at hr
    obtain ⟨x, hx, rfl⟩ := map_eq_some_iff.1 hr
    exact ⟨proper_datedRow j (h.first x hx).1, (h.first x hx).2⟩
  · intro r hr
    rw [← map_tail] at hr
    obtain ⟨x, hx, rfl⟩ := mem_map.1 hr
    exact ⟨proper_datedRow j (h.others x hx).1, (h.others x hx).2⟩

theorem makes_dated (catalog : Catalog) (clock : Clock) (t table column : Text) (i : Item)
    (s : Span) (hs : t.slice s = i.core) :
    (if isDate catalog table column && isZero (t.slice s) then
        some (⟨s, quote (clock.now (isUniversal column))⟩ : Edit) else none) = none ∧
      dated catalog clock table column i = i ∨
    ∃ w, (if isDate catalog table column && isZero (t.slice s) then
        some (⟨s, quote (clock.now (isUniversal column))⟩ : Edit) else none) = some ⟨s, w⟩ ∧
      dated catalog clock table column i = { i with core := w } := by
  rw [dated, hs]
  split
  · exact .inr ⟨_, rfl, rfl⟩
  · exact .inl ⟨rfl, rfl⟩

/-- The edits to the groups of a statement make the rows what they are filled to. -/
theorem weave_dated (catalog : Catalog) (clock : Clock) (j : Insertion) {t : Text}
    (h : ∀ r ∈ rows, r.Proper) (front : Text) (ht : t = front ++ (rowsText rows ++ tail)) :
    Edit.Weave front.size (rowsText rows)
      ((groupsAt front.size rows).flatMap (editsIn t catalog clock j))
      (rowsText (rows.map (datedRow catalog clock j))) := by
  induction rows generalizing front with
  | nil => exact .rest _ _
  | cons r rows ih =>
    have hgroup : (groupsAt front.size (r :: rows))[0]?
        = some ⟨front.size + r.lead.size, front.size + r.text.size⟩ := rfl
    obtain ⟨r', hr', hentries, -, -⟩ := entries_of_group tail h hgroup
    obtain rfl : r = r' := some.inj hr'
    rw [← ht] at hentries
    -- the row is kept up to its parenthesis, then its items are woven
    have hopen : front.size + r.lead.size + 1 = size (front ++ r.lead ++ ['(']) := by
      rw [size_append, size_append]
      rfl
    have hclose :
        front.size + r.lead.size + 1 + (written r.items).size + 1 = front.size + r.text.size := by
      rw [ValueRow.text, size_append, ValueRow.size_group]
      omega
    have hsplit :
        t = front ++ r.lead ++ ['('] ++ (written r.items ++ ')' :: (rowsText rows ++ tail)) := by
      simp [ht, rowsText_cons, ValueRow.text, ValueRow.group]
    have hitems := weave_overlay (makes_dated catalog clock t j.table) j.columns _ _ hsplit hopen
    have hrest := ih (forall_mem_cons.1 h).2 (front ++ r.text) (by rw [ht, rowsText_cons]; simp)
    rw [size_append, ← hclose] at hrest
    have hjoin :=
      hitems.join (.keep [')'] hrest) fun e he => Nat.lt_of_succ_le (hrest.le_start e he)
    have hrow := Edit.Weave.keep r.lead (Edit.Weave.keep ['('] hjoin)
    rw [groupsAt, flatMap_cons, editsIn, hentries, rowsText_cons, map_cons, rowsText_cons, ← hclose]
    simpa [ValueRow.text, ValueRow.group, datedRow] using hrow

theorem filled?_rows (catalog : Catalog) (clock : Clock) {j : Insertion}
    (hj : ofText? (a ++ (rowsText rows ++ tail)) = some j)
    (hgroups : j.groups = groupsAt a.size rows) (h : Insertion.Listed rows) :
    filled? catalog clock (a ++ (rowsText rows ++ tail))
      = some (a ++ (rowsText (rows.map (datedRow catalog clock j)) ++ tail)) := by
  have hrows :=
    weave_dated catalog clock j h.proper a (show _ = a ++ (rowsText rows ++ tail) from rfl)
  have hall := hrows.append tail
  rw [← Nat.zero_add a.size] at hall
  have hmade := (Edit.Weave.keep a hall).applyAll
  rw [Nat.zero_add] at hmade
  rw [filled?, hj]
  simp only [bind_eq_bind, bind_some, hgroups, hmade]
  rfl

end

end ZeroDate

/-! ### An INSERT on its way -/

/-- What the passes over an INSERT leave alone. -/
structure Draft.Same (d e : Draft) : Prop where
  kind : e.kind = d.kind
  prepared : e.prepared = d.prepared
  verify : e.verify = d.verify
  template : e.template = d.template
  params : e.params = d.params
  catalog : e.catalog = d.catalog

theorem Draft.Same.trans {c : Draft} (h : c.Same d) (h' : d.Same e) : c.Same e :=
  ⟨h'.kind.trans h.kind, h'.prepared.trans h.prepared, h'.verify.trans h.verify,
    h'.template.trans h.template, h'.params.trans h.params, h'.catalog.trans h.catalog⟩

theorem Draft.same_text (d : Draft) (t : Text) : d.Same { d with text := t } :=
  ⟨rfl, rfl, rfl, rfl, rfl, rfl⟩

theorem Draft.Same.record (h : d.Same e) (p : Pass) (before after : Text) :
    d.Same (e.record p before after) :=
  ⟨h.kind, h.prepared, h.verify, h.template, h.params, h.catalog⟩

theorem Limit.apply_of_insert (h : d.kind = .insert) : Limit.apply d = d := by
  rw [Limit.apply, Limit.limited?, h]
  rfl

theorem Identity.same_aroundInsert (d : Draft) : d.Same (Identity.aroundInsert d) := by
  rw [Identity.aroundInsert]
  split
  · exact ⟨rfl, rfl, rfl, rfl, rfl, rfl⟩
  · exact ⟨rfl, rfl, rfl, rfl, rfl, rfl⟩

theorem DuplicateKey.same_apply (d : Draft) : d.Same (DuplicateKey.apply d) := by
  rw [DuplicateKey.apply]
  split
  · exact ⟨rfl, rfl, rfl, rfl, rfl, rfl⟩
  · exact ⟨rfl, rfl, rfl, rfl, rfl, rfl⟩

namespace Pass

theorem same_apply (hkind : d.kind = .insert) (h : p.apply context d = .ok e) : d.Same e := by
  cases p with
  | identityInsert =>
    cases h
    exact Identity.same_aroundInsert d
  | identityUpdate =>
    cases h
    rw [Identity.ofUpdate_of_insert hkind]
    exact d.same_text d.text
  | limit =>
    cases h
    rw [Limit.apply_of_insert hkind]
    exact d.same_text d.text
  | createTable =>
    rw [apply, CreateTable.apply, hkind] at h
    cases h
    exact d.same_text d.text
  | nullDatetime =>
    rw [apply, if_pos hkind] at h
    cases h
    exact d.same_text _
  | onDuplicateKey =>
    rw [apply, if_pos hkind] at h
    cases h
    exact DuplicateKey.same_apply d
  | _ =>
    obtain rfl := Except.ok.inj h
    exact d.same_text _

theorem same_run (hkind : d.kind = .insert) (h : run context d p = .ok e) : d.Same e := by
  obtain ⟨f, hf, rfl | rfl⟩ := exists_of_run h
  · exact same_apply hkind hf
  · exact (same_apply hkind hf).record _ _ _

theorem text_of_run {f : Draft} (h : run context d p = .ok e) (hf : p.apply context d = .ok f) :
    e.text = f.text := by
  obtain ⟨f', hf', rfl | rfl⟩ := exists_of_run h
  · rw [Except.ok.inj (hf'.symm.trans hf)]
  · rw [Except.ok.inj (hf'.symm.trans hf)]
    rfl

theorem same_foldlM {l : List Pass} (hkind : d.kind = .insert)
    (h : l.foldlM (run context) d = .ok e) : d.Same e :=
  foldlM_keeps (P := fun x => d.Same x)
    (fun _ _ _ _ hx hrun => hx.trans (same_run (hx.kind.trans hkind) hrun)) (d.same_text d.text) h

/-- The draft of a statement as it reaches a pass of the pipeline. -/
def Reaches (context : Context) (catalog : Catalog) (s : Statement) (previous : Option Text)
    (p : Pass) (d : Draft) : Prop :=
  (pipeline.takeWhile (· != p)).foldlM (run context) (.bound context catalog s previous) = .ok d

end Pass

namespace ZeroDate

variable {context : Context} {catalog : Catalog} {s : Statement} {previous : Option Text}

/-- The passes behind the one for dates do nothing to an INSERT. -/
theorem text_of_pipeline (hkind : d.kind = .insert)
    (hd : Reaches context catalog s previous .nullDatetime d)
    (he : pipeline.foldlM (run context) (.bound context catalog s previous) = .ok e) :
    d.Same e ∧ e.text = (filled? d.catalog context.clock d.text).getD d.text := by
  have hsplit : pipeline = pipeline.takeWhile (· != .nullDatetime)
      ++ [.nullDatetime, .incompatibleOperator, .createTable] := rfl
  rw [hsplit, foldlM_append] at he
  obtain ⟨d', hd', he⟩ := bind_eq_ok he
  obtain rfl : d' = d := Except.ok.inj (hd'.symm.trans hd)
  refine ⟨same_foldlM hkind he, ?_⟩
  obtain ⟨f, hf, he⟩ := bind_eq_ok he
  obtain ⟨f', hf', he⟩ := bind_eq_ok he
  obtain ⟨f'', hf'', he⟩ := bind_eq_ok he
  obtain rfl : f'' = e := Except.ok.inj he
  have hkind' := (same_run hkind hf).kind.trans hkind
  have hkind'' := (same_run hkind' hf').kind.trans hkind'
  calc f''.text
      _ = f'.text := text_of_run hf'' (by rw [apply, CreateTable.apply, hkind''])
      _ = f.text := text_of_run hf' (by rw [apply, hkind']; rfl)
      _ = (filled? d'.catalog context.clock d'.text).getD d'.text :=
        text_of_run hf (by rw [apply, if_pos hkind])

/-- The main statements of an INSERT whose values are verified, one for each row. -/
theorem main_of_rows {e' : Draft} {main : List Text} (h : Finished context e e' main)
    (hkind : e.kind = .insert) (hprepared : e.prepared) (hverify : e.verify) {columns : List Text}
    (htext : e.text = a ++ (rowsText rows ++ tail)) (ha : Closed a) (hopens : Opens a table columns)
    (hne : rows ≠ []) (hrows : Insertion.Listed rows) (htail : NoRow tail) : ∃ tail', NoRow tail' ∧
      main = Verify.rows (Verify.expected e.template e.params) e.template
        (rows.map fun r => Verify.withRow a r.items tail') := by
  cases h with
  | other hno => exact absurd hkind hno
  | @insert d' _ hrun =>
    have hsame := same_run hkind hrun
    obtain ⟨tail', hdtext, htail'⟩ :
        ∃ tail', d'.text = a ++ (rowsText rows ++ tail') ∧ NoRow tail' := by
      rw [text_of_run hrun (by rw [apply, if_pos hkind]), DuplicateKey.apply]
      split
      · next head updates hsplit =>
        rw [htext] at hsplit
        exact exists_of_split? ha hopens hne hrows htail hsplit
      · exact ⟨tail, htext, htail⟩
    refine ⟨tail', htail', ?_⟩
    have hmain : d'.splitRows.2 = rows.map fun r => Verify.withRow a r.items tail' := by
      rw [Draft.splitRows, hdtext]
      exact statements_rows hopens hne hrows htail'
    have hsplit : d'.Same d'.splitRows.1 := by
      rw [Draft.splitRows]
      split
      · exact (d'.same_text d'.text).record _ _ _
      · exact d'.same_text d'.text
    have hall := hsame.trans hsplit
    rw [Draft.verified, hall.prepared, hall.verify, hprepared, hverify, Verify.apply,
      hall.kind, hkind, hall.template, hall.params, hmain]
    rfl

/-- A value of the statement as issued that is a placeholder alone, as a text on its way carries it:
the text has as many rows, the row of the value has as many entries, and at the place of the value
it reads as its parameter is written. -/
structure Carried (template : Text) (params : List Param) (t : Text) (j : Insertion) (n k : Nat)
    (p : Placeholder) (param : Param) : Prop where
  found : ofText? t = some j
  given : (p, some param) ∈ Placeholder.assign (Placeholder.all template) params
  alone : p.inline = false
  placed : ∃ i group g entry, ofText? template = some i ∧ i.groups.length = j.groups.length ∧
    i.groups[n]? = some group ∧ j.groups[n]? = some g ∧
    (entries template group).length = (entries t g).length ∧
    (entries template group)[k]? = some p.span ∧ (entries t g)[k]? = some entry ∧
    t.slice entry = param.render p.spec false

/-- A text that comes straight from binding carries every value of an INSERT that is a placeholder
alone. -/
theorem exists_carried {template : Text} {params : List Param} {i : Insertion} {group : Span}
    {n k : Nat} {p : Placeholder} {param : Param} (hinto : Placeholder.LeavesInto template params)
    (hi : ofText? template = some i) (hgroup : i.groups[n]? = some group)
    (hplace : (entries template group)[k]? = some p.span) (halone : p.inline = false)
    (hgiven : (p, some param) ∈ Placeholder.assign (Placeholder.all template) params) :
    ∃ j, Carried template params (Placeholder.bind template params) j n k p param := by
  obtain ⟨j, hj, haligned⟩ :=
    Verify.exists_aligned hinto hi (ne_nil_of_mem (mem_of_getElem? hgroup))
  obtain ⟨g, hg⟩ : ∃ g, j.groups[n]? = some g :=
    ⟨_, getElem?_eq_getElem (by rw [haligned.groups]; exact (List.getElem?_eq_some_iff.1 hgroup).1)⟩
  have hcount := haligned.entries hgroup hg
  obtain ⟨entry, hentry⟩ :
      ∃ entry, (entries (Placeholder.bind template params) g)[k]? = some entry :=
    ⟨_, getElem?_eq_getElem (by rw [hcount]; exact (List.getElem?_eq_some_iff.1 hplace).1)⟩
  exact ⟨j, hj, hgiven, halone, i, group, g, entry, hi, haligned.groups.symm, hgroup, hg,
    hcount.symm, hplace, hentry, haligned.reads hgroup hg hplace hentry p param hgiven halone rfl⟩

/-- A date that is not given is filled in by the current time, and verification lets it stand
exactly for the parameters it exempts; for the others it puts back what was given. -/
theorem verified_dates {catalog' : Catalog} {o : Outcome}
    (hconvert : convert context catalog s previous = .ok (o, catalog'))
    (hkind : Kind.ofText (normalizeEscapes s.text) = .insert) (hprepared : s.prepared = true)
    (hplain : s.isSerialized = false) (hverify : context.settings.verify = true) {d : Draft}
    (hd : Reaches context catalog s previous .nullDatetime d) {j : Insertion} {n k : Nat}
    {p : Placeholder} {param : Param} {column : Text}
    (h : Carried (normalizeEscapes s.text).trim s.params d.text j n k p param)
    (hcolumn : j.columns[k]? = some column) (hdate : isDate catalog j.table column = true)
    (hzero : isZero (param.render p.spec false) = true) :
    ∃ m j' g now, o.main[n]? = some m ∧ ofText? m = some j' ∧ j'.table = j.table ∧
      j'.columns = j.columns ∧ j'.groups = [g] ∧ (entries m g)[k]? = some now ∧
      m.slice now = if Verify.isExempt param then quote (context.clock.now (isUniversal column))
        else param.render p.spec false := by
  rcases exists_of_convert hconvert with ⟨hyes, -⟩ | ⟨-, e, e', main, hpipeline, hfinished, rfl, -⟩
  · simp [hplain] at hyes
  have hsame : (Draft.bound context catalog s previous).Same d := same_foldlM hkind hd
  have hkind' : d.kind = .insert := hsame.kind.trans hkind
  obtain ⟨hsame', htext⟩ := text_of_pipeline hkind' hd hpipeline
  have hall := hsame.trans hsame'
  obtain ⟨i, group, g, entry, hi, hlen, hgroup, hg, hcount, hplace, hentry, hreads⟩ := h.placed
  have hgroups : j.groups ≠ [] := by
    rintro hnil
    simp [hnil] at hg
  obtain ⟨a, rows, tail, hrow, ha, hne, hlisted, htail, hj, hopens⟩ := exists_rows h.found hgroups
  -- the rows as the pass leaves them
  have hfilled := filled?_rows d.catalog context.clock (hrow ▸ h.found) hj hlisted
  rw [hrow, hfilled] at htext
  obtain ⟨tail', htail', rfl⟩ := main_of_rows hfinished (hall.kind.trans hkind)
    (hall.prepared.trans hprepared) (hall.verify.trans hverify) htext ha hopens (by simpa using hne)
    (listed_map_datedRow j hlisted) htail
  rw [hj] at hg
  rw [hj, length_groupsAt, ← length_map (datedRow d.catalog context.clock j)] at hlen
  obtain ⟨r, hr, hentries, -, hslices⟩ := entries_of_group tail hlisted.proper hg
  rw [hrow, hentries, length_cores, ← length_overlay (dated d.catalog context.clock j.table)
    j.columns] at hcount
  rw [hrow] at hentry hreads
  obtain ⟨x, hx, hcore⟩ := hslices k entry hentry
  rw [hreads] at hcore
  -- the statement for the row, its values put back
  have hr' :
      (rows.map (datedRow d.catalog context.clock j))[n]? =
        some (datedRow d.catalog context.clock j r) := by
    rw [getElem?_map, hr]
    rfl
  have hproper := (listed_map_datedRow j hlisted).proper _ (mem_of_getElem? hr')
  have hmain := getElem?_rows s.params hopens htail' hi hlen hgroup hr' hproper hcount
  have hx' : (overlay (dated d.catalog context.clock j.table) j.columns r.items)[k]?
      = some { x with core := quote (context.clock.now (isUniversal column)) } := by
    have hcatalog : d.catalog = catalog := hsame.catalog
    rw [getElem?_overlay, hx, hcolumn, hcatalog]
    simp only [map_some, elim_some, dated, hdate, ← hcore, hzero, Bool.and_self, if_true]
  obtain ⟨j', g', now, hm⟩ :=
    exists_restored hopens htail' hproper.ne hproper.items hcount h.given h.alone hplace hx'
  refine ⟨_, j', g', now, ?_, hm⟩
  rw [← hmain]
  show (Verify.rows (Verify.expected e.template e.params) e.template _)[n]? = _
  rw [hall.template, hall.params]
  rfl

/-- An empty date is exempt, so the time that was filled in stands. -/
theorem verified_dates_empty : let context : Context := ⟨{}, ⟨1262448245, 0⟩⟩
    let catalog : Catalog := { tables := [("t", {
      name := "t"
      columns := [⟨"d", "datetime", .date, true, false⟩]
      primaryKey := []
      unique := [] })] }
    let s : Statement := {
      text := "INSERT INTO t (d) VALUES (%s)", params := [.text ""], prepared := true }
    let j : Insertion := ⟨"t", ["d"], [⟨25, 29⟩], 29⟩
    let p : Placeholder := ⟨⟨26, 28⟩, .text, false, '\''⟩
    ∃ o catalog' d, convert context catalog s none = .ok (o, catalog') ∧
      Kind.ofText (normalizeEscapes s.text) = .insert ∧ s.prepared ∧
      s.isSerialized = false ∧ context.settings.verify ∧
      Reaches context catalog s none .nullDatetime d ∧
      Carried (normalizeEscapes s.text).trim s.params d.text j 0 0 p (.text "") ∧
      j.columns[0]? = some ("d" : Text) ∧ isDate catalog j.table "d" ∧
      isZero (Param.render (.text "") p.spec false) ∧
      ∃ m j' g now, o.main[0]? = some m ∧ ofText? m = some j' ∧ j'.table = j.table ∧
        j'.columns = j.columns ∧ j'.groups = [g] ∧ (entries m g)[0]? = some now ∧
        m.slice now = if Verify.isExempt (.text "") then
          quote (context.clock.now (isUniversal "d")) else Param.render (.text "") p.spec
            false := by
  intro context catalog s j p
  obtain ⟨⟨o, catalog'⟩, hconvert, -⟩ : ∃ r, convert context catalog s none = .ok r ∧
      r.1.main.length = 1 := exists_of_toOption (by decide +kernel)
  obtain ⟨d, hd, htext⟩ : ∃ d, Reaches context catalog s none .nullDatetime d ∧
      d.text = Placeholder.bind (normalizeEscapes s.text).trim s.params :=
        exists_of_toOption (by decide +kernel)
  have hcarried : Carried (normalizeEscapes s.text).trim s.params d.text j 0 0 p (.text "") := by
    obtain ⟨j', h⟩ :=
      @exists_carried (normalizeEscapes s.text).trim s.params j ⟨25, 29⟩ 0 0 p (.text "")
      (by decide) (by decide) rfl (by decide) rfl (by decide)
    obtain rfl : j' = j := some.inj (h.found.symm.trans (by decide))
    exact htext ▸ h
  have hkind : Kind.ofText (normalizeEscapes s.text) = .insert := by decide
  exact ⟨o, catalog', d, hconvert, hkind, rfl, rfl, rfl, hd, hcarried, rfl, by decide, by decide,
    verified_dates hconvert hkind rfl rfl rfl hd hcarried rfl (by decide) (by decide)⟩

/-- A day of zeros is replaced by the pass as well, but it is not exempt, so it is put back. -/
theorem verified_dates_zero_day : let context : Context := ⟨{}, ⟨1262448245, 0⟩⟩
    let catalog : Catalog := { tables := [("t", {
      name := "t"
      columns := [⟨"d", "datetime", .date, true, false⟩]
      primaryKey := []
      unique := [] })] }
    let s : Statement := {
      text := "INSERT INTO t (d) VALUES (%s)", params := [.text "0000-00-00"], prepared := true }
    isDate catalog "t" "d" ∧ isZero (Param.render (.text "0000-00-00") .text false) ∧
      (convert context catalog s none).toOption.map (·.1.main)
        = some [("INSERT INTO t (d) VALUES ('0000-00-00')" : Text)] := by
  decide +kernel

end ZeroDate

end Recast
