import Recast.Proofs.Opening
import Recast.Proofs.Tracing

/-!
# Verification of what was not damaged

Verification looks up the values of an INSERT in the statement as issued and in the statements it
was split into. If these come straight from binding, every value is found at the entry of the same
number: rows and items of the template are rows and items of the bound text (`exists_rows_results`),
and what stands at the entry of a placeholder is what binding wrote for it (`Threaded.answers`). So
verifying the statements of a bound INSERT changes nothing (`apply_statements_bind`), unless a value
bound right in front of INTO takes the word away.
-/

namespace Recast

open Literal Nesting List Text

variable {t : Text} {k : Nat} {g : Span} {i : Insertion} {items : List Item} {params : List Param}
  {back front parts seg : List Stretch} {param : Option Param} {p : Placeholder}

namespace Placeholder

/-- What is read at a place is what was written for the placeholder that stands alone there, if one
does. -/
def Answers (given : List (Placeholder × Option Param)) (place : Span) (text : Text) : Prop :=
  ∀ p param, (p, some param) ∈ given → p.inline = false → p.span = place →
    text = param.render p.spec false

/-- No value is bound right in front of INTO, where the first parenthesis of the template is still
to come. -/
def LeavesInto (t : Text) (params : List Param) : Prop :=
  ∀ x ∈ assign (all t) params, x.2.isSome = true → x.1.inline = false →
    '(' ∉ mask (t.before x.1.span.stop) → startsWith (t.after x.1.span.stop) "INTO" = false

instance (t : Text) (params : List Param) : Decidable (LeavesInto t params) :=
  inferInstanceAs (Decidable (∀ x ∈ assign (all t) params, _))

namespace Stretch

theorem Placed.span_eq {n : Nat} {src : Text} (h : Placed n (front ++ filled p param src :: back)) :
    p.span = ⟨n + (sources front).size, n + (sources front).size + src.size⟩ := by
  induction front generalizing n with
  | nil => exact h.1 p param rfl
  | cons x front ih =>
    rw [ih h.2, sources_cons, size_append, Nat.add_assoc n]

theorem exists_of_mem_filling? (h : (p, param) ∈ parts.filterMap filling?) :
    ∃ front src back, parts = front ++ filled p param src :: back := by
  obtain ⟨x, hx, hfilling⟩ := mem_filterMap.1 h
  cases x with
  | kept text => cases hfilling
  | filled q param' src =>
    cases hfilling
    obtain ⟨front, back, rfl⟩ := append_of_mem hx
    exact ⟨front, src, back, rfl⟩

/-- Where a placeholder stands in the template, what was written for it stands in the bound text. -/
theorem Threaded.answers (h : Threaded none parts) (hplaced : Placed 0 parts)
    (hparts : parts = front ++ (seg ++ back)) :
    Answers (parts.filterMap filling?)
      ⟨(sources front).size, (sources front).size + (sources seg).size⟩ (results seg) := by
  intro p param hmem hinline hspan
  obtain ⟨front', src, back', hcut⟩ := exists_of_mem_filling? hmem
  rw [hcut] at hplaced
  obtain ⟨hstart, hstop⟩ := Span.mk.inj (hplaced.span_eq.symm.trans hspan)
  -- the stretches are cut at the same places, so they are the same
  have heq : front' ++ Stretch.filled p (some param) src :: back' = front ++ (seg ++ back) :=
    hcut.symm.trans hparts
  rw [hcut] at h
  obtain ⟨rfl, hrest⟩ := h.append_inj heq (by omega)
  obtain ⟨rfl, -⟩ := h.append.2.append_inj (a := [Stretch.filled p (some param) src]) hrest
    (by simp only [sources, flatMap_cons, flatMap_nil, source, append_nil] at *; omega)
  show (Stretch.filled p (some param) src).result ++ [] = _
  rw [append_nil, result, written_of_not_inline hinline]

/-- The stretches of a template in which no value is bound right in front of INTO. -/
theorem Placed.parted (hplaced : Placed 0 parts)
    (h : ∀ x ∈ parts.filterMap filling?, x.2.isSome → x.1.inline = false →
      '(' ∉ mask ((sources parts).before x.1.span.stop) →
      startsWith ((sources parts).after x.1.span.stop) "INTO" = false) : Parted parts := by
  rintro front p param src back rfl hinline hparen
  have hstop : p.span.stop = size (sources front ++ src) := by
    rw [hplaced.span_eq, size_append, Nat.zero_add]
  have hcut :
      sources (front ++ filled p (some param) src :: back) = (sources front ++ src) ++ sources
        back := by
    simp [source]
  have hnot := h (p, some param) (by simp [filling?]) rfl hinline
  rw [hcut, hstop, before_size_append, after_size_append] at hnot
  exact hnot hparen

theorem Threaded.flat_results (h : Threaded none parts) (d : Nat) :
    Flat ',' d (mask (results parts)) ↔ Flat ',' d (mask (sources parts)) := by
  rw [← flat_filter, h.filter_isListMark, flat_filter]

/-- What fills a placeholder has no blanks at its ends, so a text without them has none once it is
bound. -/
theorem Threaded.edges_results (h : Threaded none parts) (hclosed : Closed (sources parts))
    (hfirst : ∀ c, (sources parts).head? = some c → isBlank c = false)
    (hlast : ∀ c, (sources parts).getLast? = some c → isBlank c = false) :
    (∀ c, (results parts).head? = some c → isBlank c = false) ∧
      ∀ c, (results parts).getLast? = some c → isBlank c = false := by
  constructor
  · intro c hc
    cases h with
    | nil => cases hc
    | kept => exact hfirst c hc
    | @filled _ p param src rest hspells _ hopened _ htakes _ =>
      obtain ⟨hne, -⟩ := result_of_code hspells hopened htakes
      obtain ⟨d, r, hr⟩ := exists_cons_of_ne_nil hne
      refine (edges_of_code hspells hopened htakes).1 c ?_
      rw [results_cons, hr] at hc
      rw [hr]
      exact hc
  · intro c hc
    rcases eq_nil_or_concat parts with rfl | ⟨front, x, rfl⟩
    · cases hc
    · rw [concat_eq_append] at h hclosed hlast hc
      rw [sources_append] at hlast
      rw [results_append] at hc
      rcases h.last_cases hclosed with ⟨d, rfl⟩ | ⟨p, param, src, rfl, hspells, hopened, htakes⟩
      · refine hlast c ?_
        rw [getLast?_append_of_ne_nil _ (by simp [sources, source])]
        rwa [getLast?_append_of_ne_nil _ (by simp [results, result])] at hc
      · obtain ⟨hne, -⟩ := result_of_code hspells hopened htakes
        have hone : results [Stretch.filled p param src] = (Stretch.filled p param src).result :=
          append_nil _
        rw [hone, getLast?_append_of_ne_nil _ hne] at hc
        exact (edges_of_code hspells hopened htakes).2 c hc

/-! ### Items and rows -/

section

variable {parts front seg : List Stretch}

/-- An item of the template is an item of the bound text. -/
theorem Threaded.exists_item (h : Threaded none parts) (hplaced : Placed 0 parts)
    (hparts : parts = front ++ (seg ++ back)) (hseg : Threaded none seg) {i : Item} (hi : i.Proper)
    (htext : sources seg = i.text) : ∃ i' : Item, i'.Proper ∧ i'.text = results seg ∧
      Answers (parts.filterMap filling?) ⟨(sources front).size + i.lead.size,
        (sources front).size + i.lead.size + i.core.size⟩ i'.core := by
  obtain ⟨rest, rfl, hrest⟩ := hseg.exists_keeps htext (unmarked_of_isBlank hi.lead).not_mem
  have hrestT : Threaded none rest := by
    have hlead := hseg.append.2
    rwa [sources_keeps, (code_of_isBlank hi.lead).closed] at hlead
  obtain ⟨core, trail, rfl, hcore, htrail⟩ := hrestT.exists_split hrest fun c hc hmem => by
    have hblank := (of_mem_marks c hmem).1
    simp [hi.trail c (mem_of_mem_head? hc)] at hblank
  obtain ⟨hcoreT, htrailT⟩ := hrestT.append
  have hclosed : Closed (sources core) := hcore ▸ hi.entry.closed
  -- the blanks behind the core are kept
  have hkept : trail = keeps i.trail := by
    have hmarks := unmarked_of_isBlank hi.trail
    rw [← htrail]
    exact htrailT.eq_keeps (fun hmem => (hmarks _ (htrail ▸ hmem)).2 (by decide))
      fun hmem => (hmarks _ (htrail ▸ hmem)).2 (by decide)
  obtain ⟨hfirst, hlast⟩ :=
    hcoreT.edges_results hclosed (hcore ▸ hi.entry.first) (hcore ▸ hi.entry.last)
  refine ⟨⟨i.lead, results core, i.trail⟩,
    ⟨hi.lead, hi.trail, ⟨hcoreT.closed_results hclosed, ?_, ?_, hfirst,
    hlast⟩, fun hnil => ?_⟩, ?_, ?_⟩
  · rw [hcoreT.level?_results, hcore]
    exact hi.entry.level
  · rw [hcoreT.flat_results, hcore]
    exact hi.entry.flat
  · rw [hcoreT.eq_nil_of_results hnil] at hcore
    exact hi.empty hcore.symm
  · simp [Item.text, hkept]
  · have hcut : parts = front ++ keeps i.lead ++ (core ++ (trail ++ back)) := by rw [hparts]; simp
    simpa [hcore] using h.answers hplaced hcut

/-- A list of items in the template is a list of as many items in the bound text. -/
theorem Threaded.exists_items (h : Threaded none parts) (hplaced : Placed 0 parts)
    (hparts : parts = front ++ (seg ++ back)) (hseg : Threaded none seg) (hne : items ≠ [])
    (hitems : ∀ i ∈ items, i.Proper) (htext : sources seg = Nesting.written items) :
    ∃ items' : List Item, (∀ i ∈ items', i.Proper) ∧ Nesting.written items' = results seg ∧
      List.Forall₂ (fun place i => Answers (parts.filterMap filling?) place i.core)
        (cores (sources front).size items) items' := by
  induction items generalizing front seg with
  | nil => exact absurd rfl hne
  | cons i items ih =>
    have hi := hitems i (by simp)
    cases items with
    | nil =>
      obtain ⟨i', hi', htext', hanswers⟩ := h.exists_item hplaced hparts hseg hi htext
      exact ⟨[i'], by simpa using hi', htext', .cons hanswers .nil⟩
    | cons j items =>
      rw [written_cons] at htext
      obtain ⟨seg₁, seg₂, rfl, hseg₁, hseg₂, hfirst, hrest⟩ :=
        hseg.exists_code_cut htext hi.closed_text (by decide) (by decide)
      have hcut₁ : parts = front ++ (seg₁ ++ Stretch.kept [','] :: (seg₂ ++ back)) := by
        rw [hparts]; simp
      have hcut₂ : parts = front ++ (seg₁ ++ [Stretch.kept [',']]) ++ (seg₂ ++ back) := by
        rw [hparts]; simp
      obtain ⟨i', hi', htext', hanswers⟩ := h.exists_item hplaced hcut₁ hfirst hi hseg₁
      obtain ⟨items', hitems', hwritten, hforall⟩ := ih hcut₂ hrest (by simp)
        (forall_mem_cons.1 hitems).2 hseg₂
      have hsize : (sources (front ++ (seg₁ ++ [Stretch.kept [',']]))).size
          = (sources front).size + i.text.size + 1 := by
        simp only [sources_append, size_append, hseg₁]
        rfl
      rw [hsize] at hforall
      refine ⟨i' :: items', forall_mem_cons.2 ⟨hi', hitems'⟩, ?_, .cons hanswers hforall⟩
      cases items' with
      | nil => cases hforall
      | cons j' items' =>
        rw [written_cons, htext', hwritten, results_append]
        rfl

end

end Stretch

end Placeholder

namespace Insertion

open Placeholder Placeholder.Stretch

/-- A row of the bound text answers a row of the template that starts at `n`. -/
structure RowAnswers (given : List (Placeholder × Option Param)) (n : Nat) (r r' : ValueRow) :
    Prop where
  lead : r'.lead = r.lead
  proper : r'.Proper
  items :
      List.Forall₂ (fun place i => Answers given place i.core)
      (cores (n + r.lead.size + 1) r.items) r'.items

/-- Rows of the bound text answer rows of the template, the first of which starts at `n`. -/
inductive RowsAnswer (given : List (Placeholder × Option Param)) :
    Nat → List ValueRow → List ValueRow → Prop
  | nil (n : Nat) : RowsAnswer given n [] []
  | cons {n : Nat} {r r' : ValueRow} {rows rows' : List ValueRow} : RowAnswers given n r r' →
    RowsAnswer given (n + r.text.size) rows rows' → RowsAnswer given n (r :: rows) (r' :: rows')

namespace RowsAnswer

variable {given : List (Placeholder × Option Param)} {n : Nat} {rows rows' : List ValueRow}

theorem length_eq (h : RowsAnswer given n rows rows') : rows'.length = rows.length := by
  induction h with
  | nil => rfl
  | cons _ _ ih => rw [length_cons, length_cons, ih]

theorem ne_nil (h : RowsAnswer given n rows rows') (hne : rows ≠ []) : rows' ≠ [] := by
  rw [← length_pos_iff, h.length_eq]
  exact length_pos_iff.2 hne

theorem behind (h : RowsAnswer given n rows rows') (hrows : Behind rows) : Behind rows' := by
  induction h with
  | nil => exact hrows
  | cons hrow _ ih =>
    obtain ⟨⟨-, hsep⟩, hrest⟩ := forall_mem_cons.1 hrows
    exact forall_mem_cons.2 ⟨⟨hrow.proper, by rw [hrow.lead]; exact hsep⟩, ih hrest⟩

theorem listed (h : RowsAnswer given n rows rows') (hrows : Listed rows) : Listed rows' := by
  cases h with
  | nil => exact hrows
  | cons hrow hrest =>
    refine ⟨?_, hrest.behind hrows.others⟩
    rintro r ⟨⟩
    exact ⟨hrow.proper, by rw [hrow.lead]; exact (hrows.first _ rfl).2⟩

theorem getElem? (h : RowsAnswer given n rows rows') (hg : (groupsAt n rows)[k]? = some g) :
    ∃ r r', rows[k]? = some r ∧ rows'[k]? = some r' ∧ r'.Proper ∧
      List.Forall₂ (fun place i => Answers given place i.core) (cores (g.start + 1) r.items)
        r'.items := by
  induction h generalizing k with
  | nil => cases hg
  | @cons n r r' rows rows' hrow _ ih =>
    cases k with
    | zero =>
      cases hg
      exact ⟨r, r', rfl, rfl, hrow.proper, hrow.items⟩
    | succ k => exact ih hg

theorem exists_row {a : Text} (h : RowsAnswer given a.size rows rows')
    (hrows : ∀ r ∈ rows, r.Proper) (tail : Text) (hg : (groupsAt a.size rows)[k]? = some g) :
    ∃ r', rows'[k]? = some r' ∧
      r'.Proper ∧ List.Forall₂ (fun place i => Answers given place i.core)
        (entries (a ++ (rowsText rows ++ tail)) g) r'.items := by
  obtain ⟨r, r', hr, hr', hproper, hitems⟩ := h.getElem? hg
  obtain ⟨r₀, hr₀, hentries, -, -⟩ := entries_of_group tail hrows hg
  obtain rfl : r₀ = r := Option.some.inj (hr₀.symm.trans hr)
  exact ⟨r', hr', hproper, by rwa [hentries]⟩

end RowsAnswer

/-- Rows of the template are as many rows of the bound text. -/
theorem exists_rows_results (h : Threaded none parts) (hplaced : Placed 0 parts)
    (hparts : parts = front ++ seg) (hseg : Threaded none seg) {rows : List ValueRow}
    (hrows : ∀ r ∈ rows, r.Proper ∧ ∀ c ∈ r.lead, isBetween c) {tail : Text}
    (htext : sources seg = rowsText rows ++ tail) : ∃ rows' back,
      RowsAnswer (parts.filterMap filling?) (sources front).size rows rows' ∧
      results seg = rowsText rows' ++ results back ∧ sources back = tail ∧ Threaded none back := by
  induction rows generalizing front seg with
  | nil => exact ⟨[], seg, .nil _, rfl, htext, hseg⟩
  | cons r rows ih =>
    obtain ⟨hr, hbetween⟩ := hrows r (by simp)
    have hunmarked : Unmarked r.lead := fun c hc => by
      rcases Bool.or_eq_true_iff.1 (hbetween c hc) with hcomma | hblank
      · obtain rfl := eq_of_beq hcomma
        decide
      · exact unmarked_of_isBlank (t := [c]) (by simpa using isBlank_of_isAsciiBlank hblank)
          c (by simp)
    have hsplit :
        sources seg = r.lead ++ '(' :: (written r.items ++ ')' :: (rowsText rows ++ tail)) := by
      rw [htext]
      simp [rowsText_cons, ValueRow.text, ValueRow.group]
    have hlead : Closed r.lead := Code.closed fun c hc => (hunmarked c hc).1
    obtain ⟨lead, group, rfl, hsources, hgroup, hleadT, hgroupT⟩ :=
      hseg.exists_code_cut hsplit hlead (by decide) (by decide)
    obtain ⟨list, rest, rfl, hlist, hrest, hlistT, hrestT⟩ :=
      hgroupT.exists_code_cut hgroup (closed_written hr.items) (by decide) (by decide)
    obtain rfl : lead = keeps r.lead := by
      rw [← hsources]
      exact hleadT.eq_keeps (fun hmem => (hunmarked _ (hsources ▸ hmem)).2 (by decide))
        fun hmem => (hunmarked _ (hsources ▸ hmem)).2 (by decide)
    have hcut₁ :
        parts = front ++ (keeps r.lead ++ [Stretch.kept ['(']]) ++
          (list ++ Stretch.kept [')'] :: rest) := by
      rw [hparts]
      simp
    have hcut₂ :
        parts = front ++ (keeps r.lead ++ Stretch.kept ['('] :: (list ++ [Stretch.kept [')']])) ++
          rest := by
      rw [hparts]
      simp
    obtain ⟨items', hitems', hwritten, hanswers⟩ :=
      h.exists_items hplaced hcut₁ hlistT hr.ne hr.items hlist
    obtain ⟨rows', back, hrows', hresults, hback, hbackT⟩ :=
      ih hcut₂ hrestT (forall_mem_cons.1 hrows).2 hrest
    have hstart : (sources (front ++ (keeps r.lead ++ [Stretch.kept ['(']]))).size
        = (sources front).size + r.lead.size + 1 := by
      simp only [sources_append, sources_keeps, size_append]
      rfl
    have hstop :
        (sources
          (front ++ (keeps r.lead ++ Stretch.kept ['('] :: (list ++ [Stretch.kept [')']])))).size
        = (sources front).size + r.text.size := by
      simp only [sources_append, sources_cons, sources_keeps, size_append, hlist,
        ValueRow.size_text]
      rfl
    rw [hstart] at hanswers
    rw [hstop] at hrows'
    have hne : items' ≠ [] := by
      rintro rfl
      have hlength := hanswers.length_eq
      rw [length_cores] at hlength
      exact hr.ne (length_eq_zero_iff.1 hlength)
    refine ⟨⟨r.lead, items'⟩ :: rows', back, .cons ⟨rfl, ⟨hne, hitems'⟩, hanswers⟩ hrows', ?_,
      hback, hbackT⟩
    simp [rowsText_cons, ValueRow.text, ValueRow.group, result, hwritten, hresults]

/-- No row comes to stand behind the last one. -/
theorem NoRow.results (h : Threaded none back) (hno : NoRow (sources back)) :
    NoRow (results back) := by
  rw [noRow_iff] at hno ⊢
  rintro ⟨s, r, hr, hsep⟩
  have hbetween (c : Char) (hc : c ∈ s) : isQuote c = false ∧ isFill c = false := by
    have hc := hsep.isBetween c hc
    simp only [isBetween, isAsciiBlank, Bool.or_eq_true, beq_iff_eq] at hc
    rcases hc with rfl | (((rfl | rfl) | rfl) | rfl) | rfl <;> decide
  have hsplit : Stretch.results back = (s ++ ['(']) ++ r := by rw [hr]; simp
  obtain ⟨rest, rfl, -⟩ := h.exists_keeps_results hsplit
    (forall_mem_append.2 ⟨hbetween, by decide⟩)
  exact hno ⟨s, sources rest, by simp, hsep⟩

/-- An INSERT with value groups, and what binding makes of it. -/
theorem exists_bound_rows (hinto : LeavesInto t params) (hi : ofText? t = some i)
    (hne : i.groups ≠ []) :
    ∃ a a' table columns rows rows' tail tail',
      t = a ++ (rowsText rows ++ tail) ∧ rows ≠ [] ∧ Listed rows ∧ i.groups = groupsAt a.size rows ∧
      bind t params = a' ++ (rowsText rows' ++ tail') ∧ Opens a' table columns ∧ NoRow tail' ∧
      RowsAnswer (assign (all t) params) a.size rows rows' := by
  obtain ⟨a, rows, tail, ht, ha, hrows, hlisted, htail, hgroups, hopens⟩ := exists_rows hi hne
  obtain ⟨parts, hsource, hfill, hplaced, hthreaded, hweave⟩ := (laid_all t).exists_stretches params
  have hbind : bind t params = results parts := hweave.applyAll
  have hsource : sources parts = t := hsource
  rw [← hfill]
  have hparted : Parted parts := hplaced.parted (by rw [hsource, hfill]; exact hinto)
  -- the front of the statement, up to the first parenthesis of its rows
  obtain ⟨r, hr⟩ : ∃ r, rowsText rows ++ tail = '(' :: r := by
    obtain ⟨first, rows, rfl⟩ := exists_cons_of_ne_nil hrows
    rw [rowsText_cons, ValueRow.text, (hlisted.first first rfl).2]
    exact ⟨_, rfl⟩
  obtain ⟨front, rest, rfl, rfl, hrest, hfrontT, -⟩ :=
    hthreaded.exists_code_cut (hsource.trans (by rw [ht, hr])) ha (by decide) (by decide)
  have hsegT := hthreaded.append.2
  rw [ha] at hsegT
  obtain ⟨table, columns, hopens'⟩ := hopens.results hfrontT ha hparted
  obtain ⟨rows', back, hanswers, hresults, hback, hbackT⟩ :=
    exists_rows_results hthreaded hplaced rfl hsegT
    hlisted.between (by rw [hr, ← hrest]; rfl)
  refine ⟨_, _, table, columns, rows, rows', tail, results back, ht, hrows, hlisted, hgroups,
    ?_, hopens', NoRow.results hbackT (by rwa [hback]), hanswers⟩
  rw [hbind, results_append, hresults]

end Insertion

namespace Verify

open Placeholder Insertion

/-- Values that read as they were bound are what verification wants to see. -/
theorem restored_of_answers {template : Text} {issued : List Span}
    (h : List.Forall₂ (fun place i => Answers (assign (all template) params) place i.core)
      issued items) : restored (expected template params) issued items = items := by
  induction h with
  | nil => rfl
  | @cons place i issued items hi _ ih =>
    have hkeep : i.exchange (want (expected template params) place) = i := by
      cases hwant : want (expected template params) place with
      | none => rfl
      | some w =>
        obtain ⟨p, param, hmem, hinline, hspan, -, rfl⟩ := want_eq_some.1 hwant
        rw [← hi p param hmem hinline hspan]
        rfl
    rw [restored] at ih ⊢
    rw [zipWith_cons_cons, hkeep, ih]

/-- The values of a template and of the bound text line up: there are as many groups, with as many
entries each, and where a placeholder stands alone as an entry, the entry of the same number reads
as its parameter is written. -/
structure Aligned (template : Text) (params : List Param) (i j : Insertion) : Prop where
  groups : j.groups.length = i.groups.length
  entries {k : Nat} {g g' : Span} : i.groups[k]? = some g → j.groups[k]? = some g' →
    (entries (bind template params) g').length = (entries template g).length
  reads {k : Nat} {g g' : Span} {n : Nat} {place now : Span} :
      i.groups[k]? = some g → j.groups[k]? = some g' →
    (Insertion.entries template g)[n]? = some place →
    (Insertion.entries (bind template params) g')[n]? = some now →
    Answers (assign (all template) params) place ((bind template params).slice now)

/-- The values of a bound INSERT line up with those of its template. -/
theorem exists_aligned (hinto : LeavesInto t params) (hi : ofText? t = some i)
    (hne : i.groups ≠ []) : ∃ j, ofText? (bind t params) = some j ∧ Aligned t params i j := by
  obtain ⟨a, a', table, columns, rs, rs', tail, tail', ht, hrs, hlisted, hgroups, hbind, hopens,
    htail', hanswers⟩ :=
    exists_bound_rows hinto hi hne
  have hlisted' := hanswers.listed hlisted
  have hread := hopens rs' tail' (hanswers.ne_nil hrs) hlisted' htail'
  -- two groups of the same number are those of one row
  have hrow {k : Nat} {g g' : Span} (hg : i.groups[k]? = some g)
    (hg' : (groupsAt a'.size rs')[k]? = some g') :
      ∃ items : List Item, List.Forall₂
        (fun place i => Answers (assign (all t) params) place i.core)
          (entries t g) items ∧ (entries (bind t params) g').length = items.length ∧
        ∀ (n : Nat) now, (entries (bind t params) g')[n]? = some now →
          ∃ x, items[n]? = some x ∧ (bind t params).slice now = x.core := by
    rw [hgroups] at hg
    obtain ⟨r', hr', hproper, hitems⟩ := hanswers.exists_row hlisted.proper tail hg
    obtain ⟨r₀, hr₀, hentries, -, hslices⟩ := entries_of_group tail' hlisted'.proper hg'
    obtain rfl : r₀ = r' := Option.some.inj (hr₀.symm.trans hr')
    rw [← ht] at hitems
    rw [hbind]
    exact ⟨r₀.items, hitems, by rw [hentries, length_cores], hslices⟩
  refine ⟨_, by rw [hbind, hread], ?_, ?_, ?_⟩
  · rw [hgroups, length_groupsAt, length_groupsAt, hanswers.length_eq]
  · intro k g g' hg hg'
    obtain ⟨items, hitems, hlength, -⟩ := hrow hg hg'
    rw [hlength, hitems.length_eq]
  · intro k g g' n place now hg hg' hplace hnow
    obtain ⟨items, hitems, -, hslices⟩ := hrow hg hg'
    obtain ⟨x, hx, hslice⟩ := hslices n now hnow
    obtain ⟨hn, rfl⟩ := List.getElem?_eq_some_iff.1 hplace
    obtain ⟨hn', rfl⟩ := List.getElem?_eq_some_iff.1 hx
    rw [hslice]
    exact hitems.get hn hn'

/-- If no value is bound right in front of INTO, the values of a bound INSERT line up with those of
the template, and verifying its statements changes nothing. -/
theorem apply_statements_bind (d : Draft) (hkind : d.kind = .insert)
    (hinto : LeavesInto d.template d.params) :
    apply d (RowSplit.statements (bind d.template d.params)) = RowSplit.statements
      (bind d.template d.params) ∧
    ∀ i, ofText? d.template = some i → i.groups ≠ [] →
      ∃ j, ofText? (bind d.template d.params) = some j ∧ Aligned d.template d.params i j := by
  refine ⟨?_, fun i hi hne => exists_aligned hinto hi hne⟩
  have happly (l : List Text) : apply d l = rows (expected d.template d.params) d.template l := by
    rw [apply, hkind]
  rw [happly]
  by_cases hgroups : ∃ i, ofText? d.template = some i ∧ i.groups ≠ []
  · obtain ⟨i, hi, hne⟩ := hgroups
    obtain ⟨a, a', table, columns, rs, rs', tail, tail', ht, hrs, hlisted, hgroups, hbind, hopens,
      htail', hanswers⟩ :=
      exists_bound_rows hinto hi hne
    have hlength : i.groups.length = rs'.length := by
      rw [hgroups, length_groupsAt, hanswers.length_eq]
    rw [hbind, statements_rows hopens (hanswers.ne_nil hrs) (hanswers.listed hlisted) htail']
    refine ext_getElem? fun k => ?_
    cases hg : i.groups[k]? with
    | none =>
      have hk : rs'.length ≤ k := hlength ▸ getElem?_eq_none_iff.1 hg
      rw [rows_of_shape hi (by rw [length_map, hlength]), getElem?_zipWith, hg,
        getElem?_eq_none (by rwa [length_map])]
    | some g =>
      have hat : (groupsAt a.size rs)[k]? = some g := hgroups ▸ hg
      obtain ⟨r', hr', hproper, hitems⟩ := hanswers.exists_row hlisted.proper tail hat
      rw [← ht] at hitems
      rw [getElem?_rows d.params hopens htail' hi hlength hg hr' hproper hitems.length_eq,
        restored_of_answers hitems, getElem?_map, hr']
      rfl
  · refine rows_of_no_shape _ fun i hi hlen => hgroups ⟨i, hi, fun hnil => ?_⟩
    rw [hnil] at hlen
    exact RowSplit.statements_ne_nil _ (length_eq_zero_iff.1 hlen.symm)

/-- Two rows with a value in front of INTO that is set off from it, and one inside a literal. -/
theorem apply_statements_bind_rows : let d : Draft := {
      text := "", kind := .insert, prepared := true, serialized := false, verify := true
      previous := none, template := "INSERT ? INTO t (a, b) VALUES (?, 'x%s'), ('%s' , f(?))"
      params := [.null, .text "it's),(", .text "(", .int 7, .null], catalog := {} }
    d.kind = .insert ∧ LeavesInto d.template d.params ∧
      apply d (RowSplit.statements (bind d.template d.params))
        = RowSplit.statements (bind d.template d.params) ∧
      ∀ i, ofText? d.template = some i → i.groups ≠ [] →
        ∃ j, ofText? (bind d.template d.params) = some j ∧ Aligned d.template d.params i j := by
  intro d
  have hinto : LeavesInto d.template d.params := by decide +kernel
  exact ⟨rfl, hinto, apply_statements_bind d rfl hinto⟩

/-- A value right in front of INTO makes one word with it: the bound statement inserts into another
table, and its values are no longer those of the template. -/
theorem apply_loses_value : let d : Draft := {
      text := "", kind := .insert, prepared := true, serialized := false, verify := true
      previous := none, template := "INSERT ?INTO VALUES (?) VALUES (?)"
      params := [.null, .text "b", .text "c"], catalog := {} }
    RowSplit.statements (bind d.template d.params) =
      ["INSERT NULLINTO VALUES ('b') VALUES ('c')".toList] ∧
      apply d (RowSplit.statements (bind d.template d.params))
        = ["INSERT NULLINTO VALUES ('c') VALUES ('c')".toList] := by
  decide +kernel

end Verify

end Recast
