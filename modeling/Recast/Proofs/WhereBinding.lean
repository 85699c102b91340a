import Recast.Proofs.ReadBack
import Recast.Proofs.SetValues
import Recast.Proofs.WhereClauses

/-!
# Binding keeps a clause

A placeholder is written with marks, none of which is a blank, a parenthesis or a letter of WHERE.
So what is bound keeps out of the way of a WHERE that is set off, and as it leaves literals and
parentheses as they were, the WHERE stays (`bind_keeps`). Nor can a placeholder stand before the
verb of a statement, so binding leaves its kind alone.
-/

namespace Recast

open Literal Nesting Keyword List Text
open Option hiding guard

variable {t : Text} {s : Statement}

/-! ### Where marks can stand -/

theorem Placeholder.of_mem_marks : ∀ c ∈ marks, isBlank c = false ∧ isLetter c = false ∧ c ≠ '(' ∧
    c ≠ ')' ∧ c.toLower ≠ 'u' := by
  decide

/-- What has neither a blank nor a parenthesis nor a letter of the word is clear of it, inside
literals as well as outside. -/
theorem Keyword.SetOff.clear_of_marks {front word rest a y b : Text} (h : SetOff front word rest)
    (ht : front ++ (word ++ rest) = a ++ (y ++ b)) (hne : y ≠ [])
    (hy : ∀ c ∈ y, isBlank c = false ∧ isLetter c = false ∧ c ≠ '(') :
    a.size + y.size < front.size ∨ front.size + word.size < a.size := by
  obtain ⟨c, y', hcy⟩ := exists_cons_of_ne_nil hne
  obtain ⟨hspace, hletter, hparen⟩ := hy c (by simp [hcy])
  rcases stretch_cases ht h.ne_nil hne with
    hlt | ⟨u, v, hu, hfront, hyu, -⟩ | ⟨u, z, v, hword, -, hz⟩ | ⟨u, hrest, rfl⟩
  · exact .inl hlt
  · -- they would reach over the blank before the word
    obtain ⟨x, hx, hblank⟩ := h.lead
    rw [hfront, getLast?_append_of_ne_nil _ hu] at hx
    have hmem : x ∈ y := by
      rw [hyu]
      exact mem_append_left v (mem_of_mem_getLast? hx)
    simp [(hy x hmem).1] at hblank
  · rw [hcy] at hz
    obtain ⟨rfl, -⟩ := cons.inj hz
    simp [h.isLetter_of_mem c (by rw [hword]; simp)] at hletter
  · rw [hcy] at hrest
    exact .inr (h.lt_of_behind rfl hrest ⟨hspace, hparen⟩)

/-! ### What is bound -/

namespace Placeholder

theorem codeDepth_double {q : Char} (hq : isQuote q) (d : Nat) (t : Text) :
    codeDepth (some q) d (double q t) = d := by
  have hinside : Inside q (double q t) := by simpa [double] using inside_doubled q t .nil
  rw [codeDepth_eq]
  refine foldl_step_of_level? (level?_of_no_paren (fun c hc => ?_) d)
  rw [outline_inside hq hinside c hc]
  decide

theorem codeDepth_written {p : Placeholder} (hquote : isQuote p.quote)
    (hspec : p.spec ≠ .percent) (param : Param) (d : Nat) :
    codeDepth p.opened d (p.written param) = d := by
  cases hinline : p.inline with
  | false =>
    have hopened : p.opened = none := by simp [opened, hinline]
    have hwritten : p.written param = param.render p.spec false := by simp [written, hinline]
    rw [hopened, hwritten]
    exact (balanced_of_entry (entry_render param hspec)).depth d
  | true =>
    have hopened : p.opened = some p.quote := by simp [opened, hinline]
    rw [hopened, written_eq hinline hquote hspec param, codeDepth_double hquote]

/-- The edit of a placeholder stands where the placeholder does, and is light. -/
theorem exists_of_mem_edits {params : List Param} {e : Edit}
    (he : e ∈ (assign (all t) params).filterMap edit?) :
    ∃ a source b, t = a ++ (source ++ b) ∧
      e.span = ⟨a.size, a.size + source.size⟩ ∧ source ≠ [] ∧ (∀ c ∈ source, c ∈ marks) ∧
      Light t e := by
  obtain ⟨⟨p, param⟩, hmem, hedit⟩ := mem_filterMap.1 he
  obtain ⟨a, source, b, rfl, hspan, hne, hmarks, hquote, hopened, hstate⟩ :=
    (laid_all t).exists_of_mem (mem_of_mem_assign hmem)
  rw [Nat.zero_add] at hspan
  have hresult : e = ⟨p.span, (Stretch.filled p param source).result⟩ := by
    rcases edit?_eq p param source with h | ⟨h, -⟩
    · exact some.inj (hedit.symm.trans h)
    · cases hedit.symm.trans h
  have htakes : param.isSome → p.takesParam := by
    intro hsome
    obtain ⟨param, rfl⟩ := isSome_iff_exists.1 hsome
    exact takesParam_of_mem_assign hmem
  refine ⟨a, source, b, rfl, by rw [hresult]; exact hspan, hne, hmarks, ?_⟩
  have hbefore : before (a ++ (source ++ b)) p.span.start = a := by
    rw [hspan, before_size_append]
  have hslice : slice (a ++ (source ++ b)) p.span = source := by
    rw [hspan, ← append_assoc]
    exact slice_append a source b rfl rfl
  have hdepth (d : Nat) : codeDepth p.opened d source = d :=
    codeDepth_of_no_paren (fun c hc =>
      have hc := of_mem_marks c (hmarks c hc)
      ⟨hc.2.2.1, hc.2.2.2.1⟩) _ d
  rw [hresult, Light]
  simp only [hbefore, hslice, ← hopened]
  refine ⟨(state_result hquote htakes hstate).trans hstate.symm, ?_⟩
  rw [hdepth]
  cases param with
  | some param =>
    have hspec : p.spec ≠ .percent := by simpa [takesParam] using htakes rfl
    exact Nat.le_of_eq (codeDepth_written hquote hspec param _)
  | none =>
    rw [Stretch.result]
    split
    · exact Nat.le_of_eq (hdepth _)
    · exact Nat.le_of_eq (codeDepth_of_no_paren (by decide) _ _)

theorem bind_keeps (h : HasWhere t) (params : List Param) : HasWhere (bind t params) := by
  obtain ⟨front, word, rest, rfl, h⟩ := h
  refine h.applyAll (fun e he => ?_) fun e he _ => ?_
  · obtain ⟨a, source, b, ht, hspan, hne, hmarks, -⟩ := exists_of_mem_edits he
    have hclear := h.clear_of_marks ht hne fun c hc =>
      have hc := of_mem_marks c (hmarks c hc)
      ⟨hc.1, hc.2.1, hc.2.2.1⟩
    rw [Spares, hspan]
    rcases hclear with hlt | hgt
    · exact .inl hlt
    · exact .inr (.inr hgt)
  · obtain ⟨-, -, -, -, -, -, -, hlight⟩ := exists_of_mem_edits he
    exact hlight

/-- Binding leaves what stands before all marks. -/
theorem exists_bind_append {w : Text} (hw : ∀ c ∈ w, c ∉ marks) (r : Text)
    (params : List Param) : ∃ r', bind (w ++ r) params = w ++ r' := by
  have hstart : ∀ e ∈ (assign (all (w ++ r)) params).filterMap edit?, w.size ≤ e.span.start := by
    intro e he
    obtain ⟨a, source, b, ht, hspan, hne, hmarks, -⟩ := exists_of_mem_edits he
    rw [hspan]
    rcases append_eq_append_iff.1 ht with ⟨u, rfl, -⟩ | ⟨u, rfl, hu⟩
    · rw [size_append]
      exact Nat.le_add_right _ _
    · cases u with
      | nil => simp
      | cons c u =>
        obtain ⟨x, source, rfl⟩ := exists_cons_of_ne_nil hne
        obtain ⟨rfl, -⟩ := cons.inj hu
        exact absurd (hmarks x (by simp)) (hw x (by simp))
  obtain ⟨r', hr'⟩ := Edit.prefix_applyAll (prefix_append w r) hstart
  exact ⟨r', hr'.symm⟩

end Placeholder

/-! ### The start of an UPDATE -/

/-- The WHERE stays when blanks are taken off. -/
theorem Keyword.HasWhere.trimStart (h : HasWhere t) (hheads : Heads t.trimStart) :
    HasWhere t.trimStart := by
  obtain ⟨front, word, rest, rfl, h⟩ := h
  obtain ⟨a, ha, hblank, -⟩ := exists_dropWhile isBlank (front ++ (word ++ rest))
  obtain ⟨w, v, rfl, hw, -⟩ := h.exists_cons
  rw [trimStart] at hheads ⊢
  generalize dropWhile isBlank (front ++ (w :: v ++ rest)) = r at ha hheads ⊢
  -- what starts with WHERE is no UPDATE
  have hverb {u : Text} (hr : r = w :: u) : False := by
    obtain ⟨c, r', rfl, hc⟩ := hheads
    obtain ⟨rfl, -⟩ := cons.inj hr
    rcases hc with rfl | hc
    · cases hw
    · simp [hw] at hc
  rcases append_eq_append_iff.1 ha with ⟨u, rfl, hu⟩ | ⟨u, rfl, rfl⟩
  · cases u with
    | nil => exact (hverb hu.symm).elim
    | cons z u =>
      obtain ⟨rfl, -⟩ := cons.inj hu
      have hletter := isBlank_of_isLetter (h.isLetter_of_mem w (by simp))
      simp [hblank w (by simp)] at hletter
  · have hplain := balanced_of_isPlain fun c hc => isPlain_of_isBlank (hblank c hc)
    refine ⟨u, w :: v, rest, rfl, hplain.closed.append_iff.1 h.closed, ?_, ?_, h.spelled, h.trail⟩
    · have htop := h.top
      rwa [Nesting.Closed.codeDepth_append hplain.closed, hplain.depth] at htop
    · obtain ⟨b, hb, hb'⟩ := h.lead
      cases u with
      | nil => exact (hverb rfl).elim
      | cons z u =>
        rw [getLast?_append, or_of_isSome (by simp)] at hb
        exact ⟨b, hb, hb'⟩

/-- Behind its blanks a statement starts with a parenthesis or with the letter of a verb of its
kind. -/
theorem Kind.exists_head {kind : Kind} (h : ofText t = kind) (hkind : kind ≠ .other) :
    ∃ c r, t.trimStart = c :: r ∧
      (c = '(' ∨ ∃ v ∈ verbs, v.2 = kind ∧ v.1.head?.map Char.toLower = some c.toLower) := by
  obtain ⟨a, -, -, hfirst⟩ := exists_dropWhile isBlank t
  obtain ⟨parens, hcut, hparens, -⟩ := exists_dropWhile (· == '(') t.trimStart
  cases parens with
  | cons c parens =>
    have hc : c = '(' := by simpa using hparens c (by simp)
    exact ⟨c, _, hcut, .inl hc⟩
  | nil =>
    rw [nil_append] at hcut
    have hbody : trimStart (t.trimStart.dropWhile (· == '(')) = t.trimStart := by
      rw [← hcut]
      exact dropWhile_of_head hfirst
    rw [ofText, hbody] at h
    cases hfind : verbs.find? fun v => startsWith t.trimStart v.1 with
    | none =>
      rw [hfind] at h
      exact absurd h.symm hkind
    | some v =>
      rw [hfind] at h
      have hmem := mem_of_find?_eq_some hfind
      have hne : ∀ v ∈ verbs, v.1 ≠ [] := by decide
      obtain ⟨w, r, hw, hlower⟩ : ∃ w r, t.trimStart = w ++ r ∧ lower w = lower v.1 :=
        exists_of_startsWith (by simpa using find?_some hfind)
      obtain ⟨a, word, hword⟩ := exists_cons_of_ne_nil (hne v hmem)
      rw [hword] at hlower
      obtain ⟨c, w, rfl, hc, -⟩ := map_eq_cons_iff.1 hlower
      refine ⟨c, w ++ r, hw, .inr ⟨v, hmem, h, ?_⟩⟩
      rw [hword, hc]
      rfl

theorem heads_of_kind (h : Kind.ofText t = .update) : Heads t.trimStart := by
  obtain ⟨c, r, hr, hc⟩ := Kind.exists_head h (by decide)
  refine ⟨c, r, hr, ?_⟩
  rcases hc with hc | ⟨v, hv, hkind, hlower⟩
  · exact .inl hc
  · have hall : ∀ v ∈ Kind.verbs, v.2 = .update → v.1 = "UPDATE" := by decide
    rw [hall v hv hkind] at hlower
    exact .inr (some.inj hlower).symm

/-- A first character that no placeholder has is not bound, nor are the blanks before it. -/
theorem Statement.exists_trimStart_boundText {c : Char} {r : Text} (h : s.text.trimStart = c :: r)
    (hblank : isBlank c = false) (hmark : c ∉ Placeholder.marks) :
    ∃ r', s.boundText.trimStart = c :: r' := by
  rw [boundText]
  split
  · obtain ⟨a, ht, hall, -⟩ := exists_dropWhile isBlank s.text
    rw [trimStart] at h
    rw [h] at ht
    have hmarks : ∀ x ∈ a ++ [c], x ∉ Placeholder.marks := by
      intro x hx hmem
      rcases mem_append.1 hx with hx | hx
      · have hspace := (Placeholder.of_mem_marks x hmem).1
        simp [hall x hx] at hspace
      · rw [mem_singleton.1 hx] at hmem
        exact hmark hmem
    obtain ⟨r', hr'⟩ := Placeholder.exists_bind_append hmarks r s.params
    have hflat : s.text = a ++ [c] ++ r := by simpa using ht
    refine ⟨r', ?_⟩
    rw [hflat, hr', trimStart, append_assoc, dropWhile_append_of_pos hall,
      singleton_append, dropWhile_cons, if_neg (by simp [hblank])]
  · exact ⟨r, h⟩

/-- The statement as it goes into the passes starts as an UPDATE does, and keeps its clause. -/
theorem Statement.boundText_keeps (hkind : s.kind = .update) (h : HasWhere s.text) :
    Heads s.boundText.trim ∧ HasWhere s.boundText.trim := by
  have hheads : Heads s.boundText.trimStart := by
    obtain ⟨c, r, hr, hc⟩ := heads_of_kind hkind
    have hmark : c ∉ Placeholder.marks := by
      intro hmem
      obtain ⟨-, -, hparen, -, hverb⟩ := Placeholder.of_mem_marks c hmem
      exact hc.elim hparen hverb
    obtain ⟨r', hr'⟩ := exists_trimStart_boundText hr (Heads.isBlank_eq_false hc) hmark
    exact ⟨c, r', hr', hc⟩
  have hwhere : HasWhere s.boundText := by
    rw [boundText]
    split
    · exact Placeholder.bind_keeps h s.params
    · exact h
  exact ⟨hheads.dropEnd fun _ => Heads.isBlank_eq_false, (hwhere.trimStart hheads).trimEnd⟩

end Recast
