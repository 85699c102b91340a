import Recast.Pass.Verify
import Recast.Proofs.Binding
import Recast.Proofs.Reparse

/-!
# Verification restores the values of an INSERT

Whatever became of the statements of a split INSERT, a value that is one placeholder in the
statement as issued reads as its parameter is written once they are verified. A written parameter is
one item of a list (`entry_render`): exchanging items for such texts gives a row that is read as the
same list again, in a statement with the same table and columns.
-/

namespace Recast

open Insertion Literal Nesting List Text
open Option hiding guard

variable {a t template w : Text} {c : Char} {k n : Nat} {g group : Span} {e : Expected}
  {j shape : Insertion} {wanted : List Expected} {items : List Item} {params : List Param}
  {issued : List Span} {main : List Text} {spec : Spec}

/-! ### A written parameter is one item -/

theorem ne_of_isBare {d : Char} (hc : isBare c) (hd : isBare d = false) : c ≠ d := by
  rintro rfl
  simp [hc] at hd

theorem Literal.mask_quote (t : Text) :
    mask (quote t) = '\'' :: (replicate (escape t).size filler ++ ['\'']) := by
  have hmask : mask ('\'' :: (escape t ++ ['\''] ++ [])) = _ :=
    mask_literal (by decide) (inside_doubled '\'' t .close) fun hne => absurd rfl hne
  rwa [append_nil, veil_concat (by decide), mask_nil, append_nil] at hmask

/-- A literal is one item of a list. -/
theorem entry_quote (t : Text) : Entry (quote t) := by
  have hmem : ∀ c ∈ mask (quote t), c = '\'' ∨ c = filler := by
    intro c hc
    rw [mask_quote] at hc
    rcases mem_cons.1 hc with h | hc
    · exact .inl h
    · rcases mem_append.1 hc with hc | hc
      · exact .inr (mem_replicate.1 hc).2
      · exact .inl (mem_singleton.1 hc)
  refine ⟨state_quote t, ?_, ?_, ?_, ?_⟩
  · refine level?_of_no_paren (fun c hc => ?_) 0
    rcases hmem c hc with rfl | rfl <;> decide
  · refine flat_of_not_mem (fun hc => ?_) 0
    rcases hmem _ hc with h | h <;> exact absurd h (by decide)
  · rintro c ⟨⟩
    decide
  · intro c hc
    rw [quote, ← cons_append, getLast?_concat] at hc
    cases hc
    decide

theorem entry_of_isBare (h : ∀ c ∈ t, isBare c) : Entry t := by
  have hmask : mask t = t := Code.mask_eq fun c hc => isQuote_of_isBare (h c hc)
  refine ⟨Code.closed fun c hc => isQuote_of_isBare (h c hc), ?_, ?_, ?_, ?_⟩
  · rw [hmask]
    exact level?_of_no_paren (fun c hc =>
      ⟨ne_of_isBare (h c hc) (by decide), ne_of_isBare (h c hc) (by decide)⟩) 0
  · rw [hmask]
    exact flat_of_not_mem (fun hmem => absurd (h _ hmem) (by decide)) 0
  · intro c hc
    exact isBlank_of_class (h c (mem_of_mem_head? hc)) (by decide)
  · intro c hc
    exact isBlank_of_class (h c (mem_of_getLast? hc)) (by decide)

theorem entry_render (p : Param) (h : spec ≠ .percent) : Entry (p.render spec false) := by
  rcases p.render_cases h with ⟨t, ht⟩ | hbare
  · rw [ht]
    exact entry_quote t
  · exact entry_of_isBare hbare

theorem render_ne_nil (p : Param) (h : spec ≠ .percent) : p.render spec false ≠ [] := by
  have hnat (n : Nat) : ofNat n ≠ [] := Nat.toDigits_ne_nil
  have hint (n : Int) : ofInt n ≠ [] := by
    rw [ofInt]
    split
    · simp
    · exact hnat _
  have hfixed (x : Binary64) : x.fixed Param.places ≠ [] := by
    cases x with
    | nan => decide
    | infinite negative => simp [Binary64.fixed, Binary64.write]
    | finite negative m e => simp [Binary64.fixed, Binary64.write]
  cases spec with
  | percent => exact absurd rfl h
  | text =>
    cases p with
    | null => decide
    | _ => exact cons_ne_nil _ _
  | int =>
    cases p with
    | null => decide
    | _ => exact hint _
  | float =>
    cases p with
    | null => decide
    | _ => exact hfixed _

namespace Verify

/-! ### What has to be restored -/

/-- What has to stand where the statement as issued has a placeholder alone at `a`. -/
def want (wanted : List Expected) (a : Span) : Option Text :=
  (wanted.find? fun e => e.place == a).bind fun e => if e.exempt then none else some e.text

theorem restore?_eq (wanted : List Expected) (t : Text) (a b : Span) :
    restore? wanted t a b = exchange? t b (want wanted a) := by
  rw [restore?, want]
  cases wanted.find? fun e => e.place == a with
  | none => rfl
  | some e =>
    cases hexempt : e.exempt with
    | true => simp [exchange?, hexempt, guard]
    | false =>
      by_cases htext : t.slice b = e.text
      · simp [exchange?, hexempt, htext, guard]
      · simp [exchange?, hexempt, htext, guard]

theorem Expected.of?_eq_some {x : Placeholder × Option Param} :
    Expected.of? x = some e ↔ ∃ p param, x = (p, some param) ∧ p.inline = false ∧
      e = ⟨p.span, param.render p.spec false, isExempt param⟩ := by
  obtain ⟨p, param⟩ := x
  cases param with
  | none => simp [Expected.of?]
  | some param =>
    rw [Expected.of?]
    constructor
    · intro he
      split at he
      · cases he
      · next hinline =>
        cases he
        exact ⟨p, param, rfl, by simpa using hinline, rfl⟩
    · rintro ⟨p', param', hx, hinline, rfl⟩
      cases hx
      simp [hinline]

theorem mem_expected : e ∈ expected template params ↔
      ∃ p param, (p, some param) ∈ Placeholder.assign (Placeholder.all template) params ∧
        p.inline = false ∧ e = ⟨p.span, param.render p.spec false, isExempt param⟩ := by
  rw [expected, mem_filterMap]
  constructor
  · rintro ⟨x, hmem, he⟩
    obtain ⟨p, param, rfl, hinline, rfl⟩ := Expected.of?_eq_some.1 he
    exact ⟨p, param, hmem, hinline, rfl⟩
  · rintro ⟨p, param, hmem, hinline, rfl⟩
    exact ⟨(p, some param), hmem, Expected.of?_eq_some.2 ⟨p, param, rfl, hinline, rfl⟩⟩

/-- No two placeholders that stand alone stand at one place. -/
theorem expected_pairwise (template : Text) (params : List Param) :
    (expected template params).Pairwise fun a b => a.place ≠ b.place := by
  have hassign : (Placeholder.assign (Placeholder.all template) params).Pairwise
      fun x y => x.1.span.start < y.1.span.start := by
    have hall := (Placeholder.laid_all template).pairwise
    rw [← Placeholder.map_fst_assign (Placeholder.all template) params, pairwise_map] at hall
    exact hall
  have hplace (x : Placeholder × Option Param) (e : Expected) (he : Expected.of? x = some e) :
      e.place = x.1.span := by
    obtain ⟨p, param, rfl, -, rfl⟩ := Expected.of?_eq_some.1 he
    rfl
  refine hassign.filterMap _ fun x y hxy e he e' he' heq => ?_
  rw [hplace x e he, hplace y e' he'] at heq
  rw [heq] at hxy
  exact Nat.lt_irrefl _ hxy

theorem find?_place (h : wanted.Pairwise fun a b => a.place ≠ b.place) (he : e ∈ wanted) :
    wanted.find? (fun x => x.place == e.place) = some e := by
  induction wanted with
  | nil => cases he
  | cons x wanted ih =>
    obtain ⟨hx, hrest⟩ := pairwise_cons.1 h
    rw [find?_cons]
    rcases mem_cons.1 he with rfl | he
    · simp
    · have hne : (x.place == e.place) = false := beq_eq_false_iff_ne.2 (hx e he)
      rw [hne]
      exact ih hrest he

/-- The texts to be restored are those of the parameters that standalone placeholders received. -/
theorem want_eq_some {a : Span} : want (expected template params) a = some w ↔
      ∃ p param, (p, some param) ∈ Placeholder.assign (Placeholder.all template) params ∧
        p.inline = false ∧ p.span = a ∧ isExempt param = false ∧ w = param.render p.spec false := by
  rw [want, bind_eq_some_iff]
  constructor
  · rintro ⟨e, hfind, he⟩
    have hplace : e.place = a := eq_of_beq (find?_some hfind :)
    obtain ⟨p, param, hmem, hinline, rfl⟩ := mem_expected.1 (mem_of_find?_eq_some hfind)
    split at he
    · cases he
    · next hexempt =>
      cases he
      exact ⟨p, param, hmem, hinline, hplace, by simpa using hexempt, rfl⟩
  · rintro ⟨p, param, hmem, hinline, rfl, hexempt, rfl⟩
    have he := mem_expected.2 ⟨p, param, hmem, hinline, rfl⟩
    exact ⟨_, find?_place (expected_pairwise template params) he, by simp [hexempt]⟩

theorem want_of_mem_assign {p : Placeholder} {param : Param}
    (hmem : (p, some param) ∈ Placeholder.assign (Placeholder.all template) params)
    (hinline : p.inline = false) :
    want (expected template params) p.span = if isExempt param then none else some
      (param.render p.spec false) := by
  have hfind :=
    find?_place (expected_pairwise template params) (mem_expected.2 ⟨p, param, hmem, hinline, rfl⟩)
  rw [want, show (expected template params).find? (fun e => e.place == p.span) = _ from hfind]
  rfl

theorem entry_of_want {a : Span} (h : want (expected template params) a = some w) :
    Entry w ∧ w ≠ [] := by
  obtain ⟨p, param, hmem, -, -, -, rfl⟩ := want_eq_some.1 h
  have hspec : p.spec ≠ .percent := by
    simpa [Placeholder.takesParam] using Placeholder.takesParam_of_mem_assign hmem
  exact ⟨entry_render param hspec, render_ne_nil param hspec⟩

/-! ### Restoring a row -/

/-- The items of a row with the wanted texts put in. -/
def restored (wanted : List Expected) (issued : List Span) (items : List Item) : List Item :=
  issued.zipWith (fun a i => i.exchange (want wanted a)) items

theorem length_restored (wanted : List Expected) (h : issued.length = items.length) :
    (restored wanted issued items).length = items.length := by
  rw [restored, length_zipWith, h, Nat.min_self]

theorem restored_restored (wanted : List Expected) (issued : List Span) (items : List Item) :
    restored wanted issued (restored wanted issued items) = restored wanted issued items := by
  induction issued generalizing items with
  | nil => rfl
  | cons a issued ih =>
    cases items with
    | nil => rfl
    | cons i items =>
      have hi :
          (i.exchange (want wanted a)).exchange (want wanted a) = i.exchange (want wanted a) := by
        cases want wanted a <;> rfl
      simp only [restored, zipWith_cons_cons, hi] at ih ⊢
      rw [ih]

/-- A row stays a row when its values are restored. -/
theorem proper_restored (template : Text) (params : List Param) (issued : List Span)
    (h : ∀ i ∈ items, i.Proper) :
    ∀ i ∈ restored (expected template params) issued items, i.Proper := by
  induction issued generalizing items with
  | nil => simp [restored]
  | cons a issued ih =>
    cases items with
    | nil => simp [restored]
    | cons i items =>
      have hi := h i (by simp)
      intro x hx
      rcases mem_cons.1 hx with rfl | hx
      · show (i.exchange (want (expected template params) a)).Proper
        cases hw : want (expected template params) a with
        | none => exact hi
        | some w =>
          obtain ⟨hentry, hne⟩ := entry_of_want hw
          exact ⟨hi.lead, hi.trail, hentry, fun hempty => absurd hempty hne⟩
      · exact ih (forall_mem_cons.1 h).2 x hx

/-- The statement with a row written from items. -/
def withRow (a : Text) (items : List Item) (tail : Text) : Text :=
  a ++ '(' :: (written items ++ ')' :: tail)

def rowSpan (a : Text) (items : List Item) : Span := ⟨a.size, a.size + 1 + (written items).size + 1⟩

theorem before_withRow (a : Text) (items : List Item) (tail : Text) :
    (withRow a items tail).before (rowSpan a items).start = a :=
  before_size_append a _

theorem after_withRow (a : Text) (items : List Item) (tail : Text) :
    (withRow a items tail).after (rowSpan a items).stop = tail := by
  have hsize : size (a ++ '(' :: (written items ++ [')'])) = (rowSpan a items).stop := by
    simp only [size_append, size_cons, size_nil, rowSpan]
    show a.size + (1 + ((written items).size + (1 + 0))) = a.size + 1 + (written items).size + 1
    omega
  have hafter := after_size_append (a ++ '(' :: (written items ++ [')'])) tail
  rw [hsize] at hafter
  simpa [withRow] using hafter

theorem entries_withRow (a tail : Text) (hne : items ≠ []) (h : ∀ i ∈ items, i.Proper) :
    entries (withRow a items tail) (rowSpan a items) = cores (a.size + 1) items := by
  have hfront : a.size + 1 = size (a ++ ['(']) := by
    rw [size_append]
    rfl
  have hitems := itemsIn_written hne h (a ++ ['(']) (')' :: tail) hfront
  simp only [append_assoc, singleton_append] at hitems
  exact hitems

/-- Verifying a statement of one row puts the wanted texts into the row. -/
theorem row_withRow {tail : Text} (hne : items ≠ []) (h : ∀ i ∈ items, i.Proper)
    (hj : ofText? (withRow a items tail) = some j) (hg : j.groups = [rowSpan a items])
    (hlen : (entries template group).length = items.length) :
    row wanted template group (withRow a items tail)
      = withRow a (restored wanted (entries template group) items) tail := by
  have hrow : row wanted template group (withRow a items tail) = restore wanted
      (withRow a items tail) (entries template group) (cores (a.size + 1) items) := by
    rw [row, hj, ← entries_withRow a tail hne h]
    obtain ⟨table, columns, groups, tail'⟩ := j
    obtain rfl : groups = [rowSpan a items] := hg
    rfl
  have hweave := weave_exchange (want wanted) hlen (t := withRow a items tail)
    (a ++ ['(']) (')' :: tail) (n := a.size + 1)
    (by simp [withRow]) (by rw [size_append]; rfl)
  have hsize : 0 + size (a ++ ['(']) = a.size + 1 := by
    rw [Nat.zero_add, size_append]
    rfl
  have hall := hweave.append (')' :: tail)
  rw [← hsize] at hall
  have hmade := (Edit.Weave.keep (a ++ ['(']) hall).applyAll
  rw [hsize, append_assoc, append_assoc] at hmade
  rw [hrow, restore, if_pos (by rw [length_cores, hlen])]
  simp only [restore?_eq]
  exact hmade

/-- A statement of one row is written from items, and read the same way with others. -/
theorem exists_withRow (h : ofText? t = some j) (hg : j.groups = [g]) :
    ∃ a items tail, items ≠ [] ∧ (∀ i ∈ items, i.Proper) ∧ t = withRow a items tail ∧
      g = rowSpan a items ∧ ∀ items', (∀ i ∈ items', i.Proper) → ∃ j',
        ofText? (withRow a items' tail) = some j' ∧ j'.table = j.table ∧
        j'.columns = j.columns ∧ j'.groups = [rowSpan a items'] := by
  obtain ⟨a, body, tail, ht, hclosed, hlevel, hspan, hagain⟩ := ofText?_reparse h hg
  obtain ⟨items, hne, hitems, rfl⟩ := exists_items body hclosed hlevel
  exact ⟨a, items, tail, hne, hitems, ht, hspan, fun items' hitems' =>
    hagain _ (closed_written hitems') (level_written hitems')⟩

theorem slice_entry (tail : Text) {s : Span} (h : (cores (a.size + 1) items)[k]? = some s) :
    ∃ i, items[k]? = some i ∧ (withRow a items tail).slice s = i.core := by
  have hmap := map_slice_cores (a ++ ['(']) items (')' :: tail) (n := a.size + 1) (by
    rw [size_append]
    rfl)
  have hk := congrArg (fun l => l[k]?) hmap
  simp only [getElem?_map, h, map_some, append_assoc, singleton_append] at hk
  obtain ⟨i, hi, hcore⟩ := map_eq_some_iff.1 hk.symm
  exact ⟨i, hi, hcore.symm⟩

theorem slice_entry_restored (tail : Text) {place now : Span} (hplace : issued[k]? = some place)
    (hnow : (cores (a.size + 1) (restored wanted issued items))[k]? = some now) :
    ∃ i, items[k]? = some i ∧ (withRow a (restored wanted issued items) tail).slice now
      = (want wanted place).getD i.core := by
  obtain ⟨i', hi', hslice⟩ := slice_entry tail hnow
  rw [restored, getElem?_zipWith, hplace] at hi'
  cases hi : items[k]? with
  | none => simp [hi] at hi'
  | some i =>
    simp only [hi, some.injEq] at hi'
    refine ⟨i, rfl, ?_⟩
    rw [hslice, ← hi']
    rfl

/-! ### The statements of an INSERT -/

/-- A statement lines up with the statement as issued, whose value groups are as many as there are
main statements: it has one row, with as many entries as the group of its number. -/
structure LinesUp (template : Text) (main : List Text) (n : Nat) (group : Span) (t : Text)
    (j : Insertion) (g : Span) : Prop where
  issued : ∃ shape, ofText? template = some shape ∧
    shape.groups.length = main.length ∧ shape.groups[n]? = some group
  found : ofText? t = some j
  one : j.groups = [g]
  count : (entries template group).length = (entries t g).length

/-- `t'` is the statement `t` with the values of its row restored: the entries whose place was a
placeholder alone read as its parameter is written, unless the parameter is exempt, and nothing else
is changed. -/
structure Restored (template : Text) (params : List Param) (group : Span) (t : Text) (j : Insertion)
    (g : Span) (t' : Text) (j' : Insertion) (g' : Span) : Prop where
  found : ofText? t' = some j'
  table : j'.table = j.table
  columns : j'.columns = j.columns
  one : j'.groups = [g']
  count : (entries t' g').length = (entries t g).length
  front : t'.before g'.start = t.before g.start
  back : t'.after g'.stop = t.after g.stop
  bound : ∀ (k : Nat) p param now,
    (p, some param) ∈ Placeholder.assign (Placeholder.all template) params → p.inline = false →
    isExempt param = false → (entries template group)[k]? = some p.span →
    (entries t' g')[k]? = some now → t'.slice now = param.render p.spec false
  other : ∀ (k : Nat) place old now, (entries template group)[k]? = some place →
    (∀ p param, (p, some param) ∈ Placeholder.assign (Placeholder.all template) params →
      p.inline = false → p.span = place → isExempt param = true) →
    (entries t g)[k]? = some old → (entries t' g')[k]? = some now →
    t'.slice now = t.slice old

/-- Verifying a statement that lines up restores its row, and doing so again changes nothing. -/
theorem LinesUp.restored_row (params : List Param) (h : LinesUp template main n group t j g) :
    ∃ t' j' g', row (expected template params) template group t = t' ∧
      row (expected template params) template group t' = t' ∧
      Restored template params group t j g t' j' g' := by
  obtain ⟨a, items, tail, hne, hitems, rfl, rfl, hagain⟩ := exists_withRow h.found h.one
  have hentries := entries_withRow a tail hne hitems
  have hlen : (entries template group).length = items.length := by
    rw [h.count, hentries, length_cores]
  -- The restored items are again the items of a row, as many as before.
  have hproper := proper_restored template params (entries template group) hitems
  have hlen' := length_restored (expected template params) hlen
  have hne' : restored (expected template params) (entries template group) items ≠ [] := by
    rw [← length_pos_iff, hlen']
    exact length_pos_iff.2 hne
  obtain ⟨j', hj', htable, hcolumns, hgroups⟩ := hagain _ hproper
  have hentries' := entries_withRow a tail hne' hproper
  refine ⟨_, j', rowSpan a (restored _ _ items), row_withRow hne hitems h.found h.one hlen, ?_,
    hj', htable, hcolumns, hgroups, ?_, ?_, ?_, ?_, ?_⟩
  · rw [row_withRow hne' hproper hj' hgroups (by rw [hlen', hlen]), restored_restored]
  · rw [hentries, hentries', length_cores, length_cores, hlen']
  · rw [before_withRow, before_withRow]
  · rw [after_withRow, after_withRow]
  · intro k p param now hmem hinline hexempt hplace hnow
    rw [hentries'] at hnow
    obtain ⟨i, -, hslice⟩ := slice_entry_restored tail hplace hnow
    rw [hslice, want_eq_some.2 ⟨p, param, hmem, hinline, rfl, hexempt, rfl⟩]
    rfl
  · intro k place old now hplace hother hold hnow
    rw [hentries'] at hnow
    rw [hentries] at hold
    obtain ⟨i, hi, hslice⟩ := slice_entry_restored tail hplace hnow
    obtain ⟨i', hi', hslice'⟩ := slice_entry tail hold
    obtain rfl : i' = i := some.inj (hi'.symm.trans hi)
    have hwant : want (expected template params) place = none := by
      rw [eq_none_iff_forall_ne_some]
      intro w hw
      obtain ⟨p, param, hmem, hinline, hspan, hexempt, -⟩ := want_eq_some.1 hw
      simp [hother p param hmem hinline hspan] at hexempt
    rw [hslice, hslice', hwant]
    rfl

theorem row_eq_self (h : ∀ j g, ofText? t = some j → j.groups = [g] →
      (entries template group).length ≠ (entries t g).length) :
    row wanted template group t = t := by
  rw [row]
  split
  · next g _ hj => exact if_neg (h _ g hj rfl)
  · rfl

/-- What verifying does to one of as many statements as the issued one has value groups. -/
theorem row_settles (params : List Param) (hshape : ofText? template = some shape)
    (hlen : shape.groups.length = main.length) (hgroup : shape.groups[n]? = some group) (t : Text) :
    ∃ t', row (expected template params) template group t = t' ∧
      row (expected template params) template group t' = t' ∧
      (∀ group' j g, LinesUp template main n group' t j g → ∃ j' g',
        Restored template params group' t j g t' j' g') ∧
      ((∀ group' j g, ¬ LinesUp template main n group' t j g) → t' = t) := by
  -- The group a statement lines up with is the one of its number.
  have hunique {group' : Span} {j : Insertion} {g : Span}
      (h : LinesUp template main n group' t j g) : group' = group := by
    obtain ⟨shape', hshape', -, hgroup'⟩ := h.issued
    obtain rfl : shape' = shape := some.inj (hshape'.symm.trans hshape)
    exact some.inj (hgroup'.symm.trans hgroup)
  by_cases hup : ∃ j g, LinesUp template main n group t j g
  · obtain ⟨j, g, hjg⟩ := hup
    obtain ⟨t', j', g', hrow, hagain, hrestored⟩ := hjg.restored_row params
    refine ⟨t', hrow, hagain, fun group' j₂ g₂ h₂ => ?_, fun hnone => absurd hjg (hnone group j g)⟩
    obtain rfl := hunique h₂
    obtain rfl : j₂ = j := some.inj (h₂.found.symm.trans hjg.found)
    obtain rfl : g₂ = g := singleton_inj.1 (h₂.one.symm.trans hjg.one)
    exact ⟨j', g', hrestored⟩
  · have hself : row (expected template params) template group t = t :=
      row_eq_self fun j g hj hg hcount =>
        hup ⟨j, g, ⟨shape, hshape, hlen, hgroup⟩, hj, hg, hcount⟩
    refine ⟨t, hself, hself, fun group' j g h => ?_, fun _ => rfl⟩
    obtain rfl := hunique h
    exact absurd ⟨j, g, h⟩ hup

theorem rows_of_shape (hshape : ofText? template = some shape)
    (hlen : shape.groups.length = main.length) :
    rows wanted template main = shape.groups.zipWith (row wanted template) main := by
  rw [rows, hshape]
  simp only [if_pos hlen, map_zip_eq_zipWith]
  rfl

theorem rows_of_no_shape (wanted : List Expected)
    (h : ∀ shape, ofText? template = some shape → shape.groups.length ≠ main.length) :
    rows wanted template main = main := by
  rw [rows]
  split
  · next shape hshape => exact if_neg (h shape hshape)
  · rfl

/-- Verifying the statements of an INSERT restores the rows that line up with the statement as
issued and leaves the others as they are; verifying them again changes nothing. -/
theorem apply_restores_rows (d : Draft) (hkind : d.kind = .insert) (main : List Text) :
    (apply d main).length = main.length ∧
    (∀ (n : Nat) t, main[n]? = some t → ∃ t', (apply d main)[n]? = some t' ∧
      (∀ group j g, LinesUp d.template main n group t j g →
        ∃ j' g', Restored d.template d.params group t j g t' j' g') ∧
      ((∀ group j g, ¬ LinesUp d.template main n group t j g) → t' = t)) ∧
    apply d (apply d main) = apply d main := by
  have happly (l : List Text) : apply d l = rows (expected d.template d.params) d.template l := by
    rw [apply, hkind]
  simp only [happly]
  by_cases h : ∃ shape, ofText? d.template = some shape ∧ shape.groups.length = main.length
  · obtain ⟨shape, hshape, hlen⟩ := h
    have hlength :
        (shape.groups.zipWith (row (expected d.template d.params) d.template) main).length
        = main.length := by
      rw [length_zipWith, hlen, Nat.min_self]
    rw [rows_of_shape hshape hlen]
    refine ⟨hlength, fun n t ht => ?_, ?_⟩
    · have hn : n < shape.groups.length := by
        rw [hlen]
        exact (List.getElem?_eq_some_iff.1 ht).1
      obtain ⟨t', hrow, -, hup, hnone⟩ :=
        row_settles d.params hshape hlen (getElem?_eq_getElem hn) t
      refine ⟨t', ?_, hup, hnone⟩
      rw [getElem?_zipWith, getElem?_eq_getElem hn, ht, ← hrow]
    · rw [rows_of_shape hshape (hlen.trans hlength.symm)]
      refine ext_getElem (by rw [length_zipWith, hlength, hlen, Nat.min_self]) ?_
      intro n h₁ h₂
      rw [length_zipWith, hlen, Nat.min_self] at h₂
      have hn : n < shape.groups.length := hlen ▸ h₂
      obtain ⟨t', hrow, hagain, -, -⟩ :=
        row_settles d.params hshape hlen (getElem?_eq_getElem hn) main[n]
      rw [getElem_zipWith, getElem_zipWith, hrow, hagain]
  · have hno : ∀ shape, ofText? d.template = some shape →
        shape.groups.length ≠ main.length := fun shape hshape hlen => h ⟨shape, hshape, hlen⟩
    have hsame := rows_of_no_shape (expected d.template d.params) hno
    rw [hsame, hsame]
    refine ⟨rfl, fun n t ht => ⟨t, ht, fun group j g hup => ?_, fun _ => rfl⟩, rfl⟩
    obtain ⟨shape, hshape, hlen, -⟩ := hup.issued
    exact absurd hlen (hno shape hshape)

/-- A row in which both values were damaged gets the bound one back, and keeps the other. -/
theorem apply_restores_rows_damaged : let d : Draft := {
      text := "", kind := .insert, prepared := true, serialized := false, verify := true
      previous := none, template := "INSERT INTO t VALUES (?, 1)", params := [.text "it's"]
      catalog := {} }
    let damaged : Text := "INSERT INTO t VALUES (f('),', 3), 2)"
    let j : Insertion := ⟨"t", [], [⟨21, 36⟩], 36⟩
    let whole : Text := "INSERT INTO t VALUES ('it''s', 2)"
    d.kind = .insert ∧ LinesUp d.template [damaged] 0 ⟨21, 27⟩ damaged j ⟨21, 36⟩ ∧
      apply d [damaged] = [whole] ∧
      ∃ j' g', Restored d.template d.params ⟨21, 27⟩ damaged j ⟨21, 36⟩ whole j' g' := by
  intro d damaged j whole
  have hup : LinesUp d.template [damaged] 0 ⟨21, 27⟩ damaged j ⟨21, 36⟩ :=
    ⟨⟨⟨"t", [], [⟨21, 27⟩], 27⟩, by decide, rfl, rfl⟩, by decide, rfl, by decide⟩
  have hwhole : apply d [damaged] = [whole] := by decide +kernel
  obtain ⟨t', ht', hrestored, -⟩ := (apply_restores_rows d rfl [damaged]).2.1 0 damaged rfl
  rw [hwhole] at ht'
  cases ht'
  exact ⟨rfl, hup, hwhole, hrestored _ _ _ hup⟩

end Verify

end Recast
