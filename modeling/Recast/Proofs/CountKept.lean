import Recast.Proofs.Recounting

/-!
# A count goes through the passes as it is

A count has no clause outside parentheses that a pass for SELECT looks for (`Counted.not_opens`), so
limits, orderings and groupings have nothing to change in it. What is called in the count, or
escaped in one of its patterns, stood in the statement that is counted over, where it was dealt with
(`Counted.exists_calledAt`, `Counted.exists_escapedAt`).
-/

namespace Recast

open Literal Nesting Cursor Keyword List Text
open Option hiding guard

variable {body front rest t : Text} {n : Nat} {words : List Text} {e : Text × Filling}

/-! ### Letters -/

theorem any_isNameChar_of_isWordChar {o : Option Char} (h : o.any isWordChar = false) :
    o.any isNameChar = false := by
  cases o with
  | none => rfl
  | some c =>
    by_contra hname
    rw [any_some, Comparison.of_isNameChar (P := fun c => isWordChar c = true)
      (by simpa using hname) (by decide)] at h
    cases h

theorem lower_of_foldChar {w word : Text} (h : w.map foldChar = word.map foldChar)
    (hword : word.map foldChar = lower word)
    (hplain : ∀ x ∈ word.map foldChar, x.toNat < 0x80 ∧ x ∉ ['s', 'k', Char.ofNat 0]) :
    lower w = lower word := by
  rw [← hword, ← h]
  refine map_congr_left fun c hc => ?_
  obtain ⟨hascii, hother⟩ := hplain (foldChar c) (h ▸ mem_map_of_mem hc)
  exact toLower_of_foldChar rfl hascii hother

namespace FoundRows

/-! ### Clauses -/

section

variable {core : Text} (h : Counted (countFront ++ core) countFront core [])
include h

theorem Counted.not_opens (hwords : words ∈ endings) {a b : Text}
    (hcut : countFront ++ core = a ++ b) : ¬ Opens words a b := by
  intro hopens
  have hle :=
    h.whole words hwords a b hcut hopens (size_countFront_le (mem_cons_of_mem _ hwords) hcut hopens)
  obtain ⟨w, r, rfl, hne, -⟩ := hopens.exists_word (sought_of_mem_endings words hwords)
  have hpos := size_pos hne
  have hsize := congrArg size hcut
  simp only [size_append] at hle hsize
  omega

theorem Counted.findTop?_eq_none (hwords : words ∈ endings) (offset : Nat) :
    findTop? (mask (countFront ++ core)) words offset = none := by
  refine eq_none_iff_forall_ne_some.2 fun s hs => ?_
  obtain ⟨a, b, hcut, hopens, -, -⟩ := opens_of_findTop? (sought_of_mem_endings words hwords) hs
  exact h.not_opens hwords hcut hopens

theorem Counted.list?_eq_none : Ordering.list? (mask (countFront ++ core)) = none := by
  have hnone : topPhrases (mask (countFront ++ core)) ["ORDER", "BY"] 0 = [] :=
    head?_eq_none_iff.1 (h.findTop?_eq_none (by simp [endings]) 0)
  rw [Ordering.list?, findLastTop?, hnone]
  rfl

theorem Counted.distinct?_eq_none : Ordering.distinct? (countFront ++ core) = none := by
  rw [Ordering.distinct?]
  cases findTop? (mask (countFront ++ core)) ["DISTINCT"] 0 with
  | none => rfl
  | some s => simp only [bind_eq_bind, bind_some, h.list?_eq_none, bind_none]

theorem Counted.orderByAliases?_eq_none : Grouping.orderByAliases? (countFront ++ core) = none := by
  refine eq_none_iff_forall_ne_some.2 fun r hr => ?_
  obtain ⟨_, _, group, _, _, -, -, hgroup, -⟩ := Grouping.exists_of_orderByAliases? hr
  rw [h.findTop?_eq_none (by simp [endings])] at hgroup
  cases hgroup

/-- A count has no limit. -/
theorem Counted.limited?_eq_none {d : Draft} (htext : d.text = countFront ++ core) :
    Limit.limited? d = none := by
  refine eq_none_iff_forall_ne_some.2 fun e he => ?_
  rw [Limit.limited?, htext] at he
  obtain ⟨_, -, clause, hclause, _, hdepth, -⟩ := of_bind₃ he
  obtain ⟨c, f, ⟨p, hm, hoffset, hlast⟩, hread⟩ := at_of_mem_findAll (mem_of_mem_head? hclause)
  obtain ⟨hstart, -⟩ := Limit.start_of_clause? hread
  obtain ⟨_, hguard, g, hword, g', hblank, -⟩ := of_bind₃ hread
  obtain ⟨w, hw, hfold⟩ := word?_reads hword
  obtain ⟨v, hv, hvne, hvblank, -⟩ := some?_reads hblank
  -- the word is a clause of its own in the mask
  have hstands : Stands "LIMIT" [] p w g.rest := by
    refine ⟨⟨w, [], by simp, lower_of_foldChar hfold (by decide) (by decide), rfl⟩, ?_, ?_⟩
    · rw [← hlast]
      have hafter : c.afterWord = false := by simpa [guard] using hguard
      exact any_isNameChar_of_isWordChar hafter
    · obtain ⟨x, v, rfl⟩ := exists_cons_of_ne_nil hvne
      rw [hv.rest]
      exact isNameChar_of_isBlank (hvblank x (by simp))
  rw [hw.rest] at hm
  obtain ⟨a, r, hcut, ha, rfl, -, hstands⟩ := hstands.of_mask (by decide) (by decide) (by decide) hm
  have hending : [("LIMIT" : Text)] ∈ endings := by simp [endings]
  refine h.not_opens hending hcut ⟨_, _, w, r, rfl, rfl, hstands, ha, ?_⟩
  have hzero : depthAt (mask (countFront ++ core)) clause.start = 0 := by simpa [guard] using hdepth
  rwa [hstart, hoffset, depthAt, hm, before_size_append, depth_mask] at hzero

end

theorem dropKey?_empty (t : Text) : Grouping.dropKey? {} t = none := by
  refine eq_none_iff_forall_ne_some.2 fun r hr => ?_
  obtain ⟨_, -, _, -, table, htable, -⟩ := of_bind₃ hr
  cases htable

end FoundRows

/-! ### Calls and patterns -/

namespace Functions

/-- The functions that are replaced, with what their calls take. -/
def timeCalls : List (Text × Filling) := ("dayofmonth", .any) :: clockCalls

/-- A call begins with the first letter of its name. -/
theorem Calls.exists_head (he : e ∈ timeCalls) {r : Text} (h : Calls e.1 e.2 r) :
    ∃ c r', r = c :: r' ∧ e.1.head?.map foldChar = some c.toLower ∧
      c.toLower ∈ ['d', 'f', 'u', 'n'] := by
  have hall :
      ∀ e ∈ timeCalls, e.1.head?.any (fun a => foldChar a ∈ ['d', 'f', 'u', 'n']) = true := by
        decide
  have hletter : ∀ x ∈ ['d', 'f', 'u', 'n'], x.toNat < 0x80 ∧ x ∉ ['s', 'k', Char.ofNat 0] := by
    decide
  obtain ⟨k, u, v, rfl, hopening, -⟩ := h
  have hhead := hall e he
  cases hword : e.1 with
  | nil =>
    simp [hword] at hhead
  | cons a word =>
    rw [hword] at hhead hopening
    obtain ⟨c, k, rfl, hc⟩ := hopening.exists_cons
    have ha : foldChar a ∈ ['d', 'f', 'u', 'n'] := of_decide_eq_true hhead
    obtain ⟨hascii, hother⟩ := hletter _ ha
    have hlower := toLower_of_foldChar hc hascii hother
    exact ⟨c, k ++ (u ++ ')' :: v), rfl, congrArg some hlower.symm, hlower ▸ ha⟩

theorem calledAt_of_dayOfMonth? {c d : Cursor} {e : Edit} (hc : At (mask t) c)
    (h : dayOfMonth? t c = some (e, d)) : CalledAt "dayofmonth" .any t c.offset := by
  obtain ⟨_, hguard, f, hf, ⟨arg, g⟩, hg, -⟩ := of_bind₃ h
  obtain ⟨a, k, u, b, hr, -⟩ := exists_of_enclosed? hc ⟨by decide, by decide, by decide⟩ hf hg
  exact hr.calledAt (by simpa [guard] using hguard)

theorem findAll_dayOfMonth?_of_not_calledAt (h : ∀ n, ¬ CalledAt "dayofmonth" .any t n) :
    (start (mask t)).findAll (dayOfMonth? t) = [] := by
  refine eq_nil_iff_forall_not_mem.2 fun e he => ?_
  obtain ⟨c, d, hc, hread⟩ := at_of_mem_findAll he
  exact h _ (calledAt_of_dayOfMonth? hc hread)

theorem Calls.not_from (he : e ∈ timeCalls) {k y : Text} (hk : lower k = lower "FROM")
    (hy : y.head?.any isNameChar = false) : ¬ Calls e.1 e.2 (k ++ y) := by
  rcases mem_cons.1 he with rfl | hclock
  · intro hcall
    obtain ⟨c, r, hcut, hhead, -⟩ := hcall.exists_head he
    obtain ⟨x, k, rfl, hx, -⟩ := map_eq_cons_iff.1 hk
    obtain ⟨rfl, -⟩ := cons.inj hcut
    rw [hx] at hhead
    exact absurd hhead (by decide)
  · exact not_calls_from hclock hk hy

end Functions

namespace FoundRows

section

variable {t front body rest : Text} (h : Counted t front body rest) {x : Text} (hx : Closed x)
  (z : Text)
include h hx

open Functions in
/-- What is called in a count is called in every text with the part that is counted over. -/
theorem Counted.exists_calledAt (he : e ∈ timeCalls)
    (hcall : CalledAt e.1 e.2 (countFront ++ body.trim) n) :
    ∃ m, CalledAt e.1 e.2 (x ++ (body ++ z)) m := by
  obtain ⟨k, mid, g, rfl, htrim, hg, htop⟩ := h.exists_core
  rw [htrim] at hcall
  rcases hcall.split with
    ⟨a, s, hcut, hne, -, -, hlast, hcall⟩ | ⟨s, s', hcut, hclosed, hlast, hcall⟩
  · -- no call begins in the front of a count
    obtain ⟨c, r, hc, -, hmem⟩ := hcall.exists_head he
    obtain ⟨y, s, rfl⟩ := exists_cons_of_ne_nil hne
    obtain ⟨rfl, -⟩ := cons.inj hc
    have hall : ∀ y ∈ ['d', 'f', 'u', 'n'], y ∈ ['f', 'g', 'h', 'l', 'n', 'o', 'u', 'd'] := by
      decide
    exact absurd (hall _ hmem) (head_countFront hcut (any_isNameChar_of_isWordChar hlast) y rfl)
  · cases s with
    | nil =>
      have hmid := head?_any_of_append (head?_any_of_append htop.behind)
      rw [nil_append] at hcut
      exact absurd (hcut ▸ hcall) (Calls.not_from he htop.lower_eq hmid)
    | cons c s =>
      obtain ⟨u, v, w, rfl, hopening, hv⟩ := hcall
      refine ⟨_, x ++ c :: s, u ++ (v ++ ')' :: (w ++ (g ++ z))), ?_, rfl,
        hx.append (closed_countFront.append_iff.1 hclosed), ?_, u, v, _, rfl, hopening, hv⟩
      · have hwhole := congrArg (x ++ · ++ (g ++ z)) hcut
        simpa using hwhole
      · rw [getLast?_append_of_ne_nil _ (cons_ne_nil c s)] at hlast ⊢
        exact hlast

/-- A wildcard that is escaped in a count is escaped in every text with the part that is counted
over. -/
theorem Counted.exists_escapedAt (hescaped : Wildcard.EscapedAt (countFront ++ body.trim) n) :
    ∃ m, Wildcard.EscapedAt (x ++ (body ++ z)) m := by
  obtain ⟨k, mid, g, rfl, htrim, hg, htop⟩ := h.exists_core
  rw [htrim] at hescaped
  obtain ⟨_, q, u, c, r, hcut, -, ha, ⟨b, l, gap, rfl, hl, hgap⟩, hq, hu, hc⟩ := hescaped
  rw [append_assoc, append_assoc] at hcut
  -- the word LIKE stands behind the front of the count
  obtain ⟨b, rfl, hcore⟩ : ∃ b', b = countFront ++ b' ∧
      k ++ mid = b' ++ (l ++ (gap ++ q :: (u ++ '\\' :: c :: r))) := by
    rcases append_eq_append_iff.1 hcut with ⟨b', rfl, hcore⟩ | ⟨s, hfront, hcore⟩
    · exact ⟨b', rfl, hcore⟩
    · cases s with
      | nil => exact ⟨[], by simpa using hfront.symm, by simpa using hcore.symm⟩
      | cons c s =>
        obtain ⟨y, l, rfl, hy, -⟩ := map_eq_cons_iff.1 hl.lower_eq
        obtain ⟨rfl, -⟩ := cons.inj hcore
        exact absurd (by rw [hy]; decide) (head_countFront hfront hl.before y rfl)
  -- and is not FROM
  have hb : b ≠ [] := by
    rintro rfl
    have hgap : (gap ++ q :: (u ++ '\\' :: c :: r)).head?.any isNameChar = false := by
      cases gap with
      | nil =>
        rw [← Bool.not_eq_true]
        intro hq'
        simp [Comparison.of_isNameChar (P := fun c => isQuote c = false) hq' (by decide)] at hq
      | cons c gap => exact hl.behind
    rw [nil_append] at hcore
    have hsame := eq_of_named hcore (isNameChar_of_lower htop.lower_eq sought_from.1).2
      (isNameChar_of_lower hl.lower_eq Wildcard.named_like).2
      (head?_any_of_append (head?_any_of_append htop.behind)) hgap
    have hlower := hl.lower_eq
    rw [← hsame, htop.lower_eq] at hlower
    exact absurd hlower (by decide)
  refine ⟨_, x ++ (b ++ (l ++ gap)), q, u, c, r ++ (g ++ z), ?_, rfl, ?_,
    ⟨x ++ b, l, gap, by simp, ?_, hgap⟩, hq, hu, hc⟩
  · have hwhole := congrArg (x ++ · ++ (g ++ z)) hcore
    simpa using hwhole
  · exact hx.append (closed_countFront.append_iff.1 ha)
  · have hbefore := hl.before
    rw [getLast?_append_of_ne_nil _ hb] at hbefore
    refine ⟨hl.spelled, ?_, hl.behind⟩
    rw [getLast?_append_of_ne_nil _ hb]
    exact hbefore

end

/-! ### The passes behind the limit -/

/-- Up to the end of the part that is counted over a statement is as it was before its grouping. -/
theorem Counted.exists_ungrouped (h : Counted (Grouping.apply {} t) front body rest) :
    ∃ z, t = front ++ (body ++ z) := by
  rw [Grouping.apply, dropKey?_empty] at h
  simp only [getD_none] at h
  cases hr : Grouping.orderByAliases? t with
  | none =>
    rw [hr] at h
    exact ⟨rest, h.cut⟩
  | some r =>
    rw [hr] at h
    obtain ⟨_, source, group, order, edits, -, hsource, hgroup, horder, hedited, hedits⟩ :=
      Grouping.exists_of_orderByAliases? hr
    obtain ⟨a, k, s, hcut, htop, rfl, -⟩ :=
      topmost_of_mem_topPhrases (by decide) (by decide) (by decide) (mem_of_mem_head? hsource)
    obtain ⟨x, l, s', hcut', htop', rfl, hle⟩ :=
      topmost_of_mem_topPhrases (by decide) (by decide) (by decide) (mem_of_mem_head? hgroup)
    obtain ⟨y, o, s'', hcut'', htop'', rfl, hle'⟩ :=
      topmost_of_mem_topPhrases (by decide) (by decide) (by decide) (mem_of_mem_head? horder)
    have hl : l ≠ [] := htop'.ne_nil (by decide)
    have ho : o ≠ [] := htop''.ne_nil (by decide)
    -- FROM, GROUP BY and ORDER BY, one behind the other
    rw [← size_append] at hle hle'
    obtain ⟨v, rfl, rfl⟩ := exists_append_of_size_le
      (show (x ++ l) ++ s' = y ++ (o ++ s'') by rw [append_assoc, ← hcut', hcut'']) hle'
    obtain ⟨u, rfl, rfl⟩ := exists_append_of_size_le
      (show (a ++ k) ++ s = x ++ (l ++ (v ++ (o ++ s''))) by rw [append_assoc, ← hcut, hcut']) hle
    obtain ⟨z, hz⟩ : a ++ k ++ u ++ l ++ v ++ o <+: r := by
      rw [hedited]
      refine Edit.prefix_applyAll ⟨s'', by rw [hcut'']; simp⟩ fun e he => ?_
      rw [size_append]
      exact hedits e he
    have hsource : Opens ["FROM"] a (k ++ ((u ++ (l ++ (v ++ o))) ++ z)) :=
      ⟨_, _, k, _, rfl, rfl, Topmost.exchange_rest (s := s'') (by simpa using htop)
        (by simp [hl]) z⟩
    have hgroup : Opens ["GROUP", "BY"] (a ++ k ++ u) (l ++ ((v ++ o) ++ z)) :=
      ⟨_, _, l, _, rfl, rfl, Topmost.exchange_rest (s := s'') (by simpa using htop')
        (by simp [ho]) z⟩
    have hfirst := h.first a _ (by rw [← hz]; simp) hsource
    have hwhole := h.whole _ (by simp [endings]) (a ++ k ++ u) _ (by rw [← hz]; simp) hgroup
      (by simp only [size_append]; omega)
    obtain ⟨w, hw, -⟩ := exists_append_of_size_le
      (show (front ++ body) ++ rest = (a ++ k ++ u) ++ (l ++ ((v ++ o) ++ z)) by
        rw [append_assoc, ← h.cut, ← hz]; simp) hwhole
    refine ⟨w ++ (l ++ (v ++ (o ++ s''))), ?_⟩
    rw [hcut', hw]
    simp

/-- A SELECT before its grouping, as the passes behind the limit make it. -/
def settleTerms (t : Text) : Text :=
  Wildcard.apply ((Ordering.distinct? (Functions.currentTime t)).getD (Functions.currentTime t))

/-- What the passes behind the limit make of a SELECT while no table is known. -/
def settle (t : Text) : Text := Grouping.apply {} (settleTerms t)

open Functions in
/-- A count over what the passes have made is left as it is. -/
theorem Counted.settle_eq (h : Counted (settle t) front body rest)
    (hday : ∀ n, ¬ CalledAt "dayofmonth" .any body n) :
    settle (countFront ++ body.trim) = countFront ++ body.trim := by
  obtain ⟨z, hz⟩ := h.exists_ungrouped
  have hfront := h.opens.closed
  have hsettled : Settled (front ++ (body ++ z)) := by
    rw [← hz, settleTerms]
    apply Settled.wildcard
    cases hr : Ordering.distinct? (currentTime t) with
    | none =>
      rw [getD_none]
      exact settled_currentTime t
    | some r =>
      rw [getD_some]
      exact (settled_currentTime t).distinct? hr
  have hescaped : ∀ n, ¬ Wildcard.EscapedAt (front ++ (body ++ z)) n := by
    rw [← hz, settleTerms]
    exact Wildcard.not_escapedAt_apply _
  have htime : currentTime (countFront ++ body.trim) = countFront ++ body.trim := by
    refine currentTime_of_settled (fun e he n hcall => ?_)
      (findAll_dayOfMonth?_of_not_calledAt fun n hcall => ?_)
    · obtain ⟨m, hm⟩ := h.exists_calledAt hfront z (mem_cons_of_mem _ he) hcall
      exact hsettled e he m hm
    · obtain ⟨m, hm⟩ :=
        h.exists_calledAt (e := ("dayofmonth", .any)) (show Closed [] from rfl) []
          mem_cons_self hcall
      rw [nil_append, append_nil] at hm
      exact hday m hm
  have hwildcard : Wildcard.apply (countFront ++ body.trim) = countFront ++ body.trim := by
    refine Wildcard.apply_of_not_escapedAt fun n hn => ?_
    obtain ⟨m, hm⟩ := h.exists_escapedAt hfront z hn
    exact hescaped m hm
  have hagain := h.again
  simp only [settle, settleTerms, htime, hagain.distinct?_eq_none, getD_none, hwildcard,
    Grouping.apply, dropKey?_empty, hagain.orderByAliases?_eq_none]

end FoundRows

end Recast
