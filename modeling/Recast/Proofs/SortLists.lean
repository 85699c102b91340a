import Recast.Proofs.CastTerms

/-!
# ORDER BY lists that are found again

The list of a statement stands behind its last ORDER BY outside all parentheses, and in front of the
blanks and semicolons at the end (`Listed`). When terms of the list are cast it is found again where
it was (`Listed.recast`). So the pass that casts changes nothing when it is run twice (`cast_cast`).
-/

namespace Recast

open Literal Nesting List Text
open Option hiding guard

variable {a back k lead list s t u v : Text}

namespace Ordering

variable {columns : List ColumnRef} {length : Nat}

namespace Listed

variable {a k lead list list' back : Text}

theorem behind_recast (h : Listed a k lead list back)
    (hrecast : Recasts columns length list list') :
    (lead ++ (list' ++ back)).head?.any isNameChar = false := by
  have hbehind := h.clause.behind
  cases lead with
  | cons c lead => exact hbehind
  | nil =>
    rw [nil_append, head?_append] at hbehind ⊢
    rcases hrecast.head?_mask with hhead | ⟨-, y, hy, hname⟩
    · rw [head?_mask, head?_mask] at hhead
      rwa [hhead]
    · rw [head?_mask] at hy
      simp [hy, some_or, any_some, hname] at hbehind

/-- The list is found again when its terms are cast. -/
theorem recast (h : Listed a k lead list back) (hrecast : Recasts columns length list list') :
    Listed a k lead list' back where
  clause := by
    have hstands : Keyword.Topmost "ORDER" ["BY"] a k (lead ++ (list' ++ back)) :=
      ⟨⟨h.clause.spelled, h.clause.before, h.behind_recast hrecast⟩, h.clause.closed, h.clause.top⟩
    refine ⟨hstands, fun a' k' r' hcut htop => Nat.le_of_not_lt fun hlt => ?_⟩
    obtain ⟨c, k'', hk', hc⟩ := exists_head htop
    have hle := hstands.le_of_lt htop.toStands sought_orderBy hcut hlt
    rw [← append_assoc] at hcut
    obtain ⟨u, rfl, hu⟩ := exists_append_of_size_le hcut hle
    -- a clause that stands behind this one begins in the list
    rw [hk'] at hu
    have hlead := size_le_of_name (fun d hd => isNameChar_of_isBlank (h.leads d hd)) hc hu
    obtain ⟨y, rfl, hy⟩ := exists_append_of_size_le hu hlead
    have hlt' : y.size < list'.size := Nat.lt_of_not_le fun hge => by
      obtain ⟨s, rfl, hs⟩ := exists_append_of_size_le hy hge
      have hno : ∀ d ∈ back, isNameChar d = false := fun d hd => by
        rcases h.tail d hd with hblank | rfl
        · exact isNameChar_of_isBlank hblank
        · rfl
      have hsize := size_le_of_name (z := []) hno hc (by rw [append_nil]; exact hs)
      have hpos := Char.utf8Size_pos c
      rw [hs, size_append, cons_append, size_cons] at hsize
      omega
    obtain ⟨hfront, hdepth⟩ := h.closed_front
    rw [← append_assoc] at htop
    have htop' := htop.exchange (g := []) hfront hdepth closed_nil rfl (fun _ => rfl) rfl
    rw [← hk'] at hy
    obtain ⟨y₀, r₀, hcut₀, htop₀⟩ := hrecast.exists_topmost hy hlt' htop'
    have htop₁ : Keyword.Topmost "ORDER" ["BY"] (a ++ k ++ lead ++ y₀) k' r₀ := by
      refine Keyword.Topmost.exchange (f := []) htop₀ closed_nil rfl hfront hdepth ?_ rfl
      rintro rfl
      -- where no blank stands behind the clause, no name does
      cases lead with
      | nil =>
        have hbehind := h.clause.behind
        rw [nil_append, hcut₀, hk', nil_append, cons_append, head?_cons, any_some, hc] at hbehind
        cases hbehind
      | cons d lead =>
        rw [getLast?_append_of_ne_nil _ (by simp), Option.any_eq_false]
        exact fun e he => isNameChar_of_isBlank (h.leads e (mem_of_getLast? he))
    have hle₁ := h.clause.last _ k' r₀ (by simp [hcut₀]) htop₁
    have hpos := size_pos (h.clause.ne_nil sought_orderBy.1)
    simp only [size_append] at hle₁
    omega
  leads := h.leads
  nonempty := by
    rintro rfl
    rcases hrecast.getLast?_mask with hlast | hlast
    · exact mask_ne_nil h.nonempty (getLast?_eq_none_iff.1 hlast.symm)
    · cases hlast
  first c hc := by
    rcases hrecast.head?_mask with hhead | ⟨hhead, -⟩
    · exact h.first c (hhead ▸ hc)
    · rw [hc] at hhead
      cases hhead
      rfl
  tail := h.tail
  closed := h.closed.imp id hrecast.closed
  stripped := strip_exchange hrecast.getLast?_mask h.stripped

end Listed

theorem Listed.cast_eq (h : Listed a k lead list back) (catalog : Catalog) (length : Nat) :
    cast catalog length (a ++ k ++ lead ++ list ++ back) =
      some (Edit.applyAll (a ++ k ++ lead ++ list ++ back)
      (termEdits (catalog.ofClass .text) length (a ++ k ++ lead) list back)) := by
  have htext : a ++ k ++ lead ++ list ++ back = a ++ (k ++ (lead ++ (list ++ back))) := by simp
  have hfront : a ++ (k ++ lead) = a ++ k ++ lead := by simp
  have hlist := h.list?_eq
  rw [← htext, hfront] at hlist
  have hslice := slice_append (a ++ k ++ lead) list back rfl rfl
  rw [cast, hlist]
  show some (Edit.applyAll _ (filterMap _ (terms _ _))) = _
  rw [filterMap_terms, hslice]
  rfl

/-- A second run casts nothing. -/
theorem cast_cast (catalog : Catalog) (length : Nat) (t : Text) :
    (cast catalog length ((cast catalog length t).getD t)).getD ((cast catalog length t).getD t)
      = (cast catalog length t).getD t := by
  cases hlist : list? (mask t) with
  | none =>
    have hcast : cast catalog length t = none := by
      rw [cast, hlist]
      rfl
    simp only [hcast, getD_none]
  | some s =>
    obtain ⟨a, k, lead, list, back, rfl, hlisted⟩ := exists_listed hlist
    have htext (list : Text) :
        a ++ (k ++ (lead ++ (list ++ back))) = a ++ k ++ lead ++ list ++ back := by simp
    obtain ⟨list', hrecast, hweave⟩ :=
      exists_recasts (catalog.ofClass .text) length (cuts_parts list)
      (a ++ k ++ lead) back
    have hmade := Edit.Weave.applyAll (Edit.Weave.keep (a ++ k ++ lead) (by rwa [Nat.zero_add]))
    rw [← append_assoc, ← append_assoc] at hmade
    rw [htext, hlisted.cast_eq, getD_some, hmade, (hlisted.recast hrecast).cast_eq,
      hrecast.termEdits_eq_nil, Edit.applyAll_nil, getD_some]

end Ordering

end Recast
