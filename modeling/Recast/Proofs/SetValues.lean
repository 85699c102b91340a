import Recast.Proofs.Phrases
import Recast.Proofs.Restoration

/-!
# Verification of an UPDATE

Verification puts written parameters in place of values of the SET list, which stand outside
literals, between the first SET and the first WHERE behind it. So a WHERE that is set off stays
(`update_keeps`), as long as the values are whole: a value that is empty may touch the WHERE, and
one that closes a parenthesis of its item takes the parenthesis away with it.
-/

namespace Recast

open Literal Nesting Keyword List Text

variable {t : Text} {n : Nat} {s : Span} {spans : List Span}

theorem Nesting.balanced_of_entry (h : Entry t) : Balanced t :=
  balanced_of_level? h.closed h.level

namespace Verify

/-- No value of the SET list is empty, and each closes what it opens and nothing else. -/
def Whole (t : Text) : Prop :=
  ∀ spans, setValues? t = some spans → ∀ s ∈ spans, t.slice s ≠ [] ∧ Balanced (t.slice s)

/-! ### Where the values are -/

/-- What stands behind an equals sign in a part of the mask stands outside literals. -/
theorem outside_of_equals (hstart : Outside (mask t) s.start) (hstop : Outside (mask t) s.stop)
    (hle : s.start ≤ s.stop) (h : ((mask t).slice s).find? (· == '=') = some n) :
    Outside (mask t) (s.start + n + 1) ∧ s.start + n + 1 ≤ s.stop := by
  obtain ⟨a, c, b, hslice, -, hc, rfl⟩ := findFrom?_eq_some.1 h
  obtain rfl : c = '=' := by simpa using hc
  obtain ⟨front, part, back, hm, hfront, hpart, hslice'⟩ :=
    exists_three hstart.isBoundary_mask hstop.isBoundary_mask hle
  rw [hslice'] at hslice
  subst hslice
  have hcut : mask t = (front ++ a) ++ '=' :: (b ++ back) := by
    rw [hm]
    simp
  have hbehind := outside_of_code hcut (by decide) (by decide)
  have hone : '='.utf8Size = 1 := rfl
  rw [size_append, hfront] at hbehind
  rw [Nat.zero_add]
  refine ⟨hbehind, ?_⟩
  rw [← hpart, size_append, size_cons]
  omega

/-- The items between two places, and behind an equals sign what is their value. -/
theorem exists_of_mem_splitTop {start stop : Nat} (hstart : Outside (mask t) start)
    (hstop : Outside (mask t) stop) (hle : start ≤ stop) {item : Span}
    (h : item ∈ splitTop (t.slice ⟨start, stop⟩) ',') :
    start ≤ (item.shift start).start ∧ (item.shift start).start ≤ (item.shift start).stop ∧
      (item.shift start).stop ≤ stop ∧ Outside (mask t) (item.shift start).start ∧
      Outside (mask t) (item.shift start).stop := by
  obtain ⟨h₁, h₂, h₃⟩ := outside_of_mem_splitTop (by decide) (by decide) h
  refine ⟨Nat.le_add_left _ _, Nat.add_le_add_right h₃ _, ?_, hstart.of_slice hstop hle h₁,
    hstart.of_slice hstop hle h₂⟩
  obtain ⟨front, part, back, -, hfront, hpart, hslice⟩ :=
    exists_three (s := ⟨start, stop⟩) hstart.isBoundary hstop.isBoundary hle
  have hsize := le_size_of_isBoundary h₂.isBoundary
  rw [hslice] at hsize
  simp only [Span.shift]
  simp only at hpart hfront
  omega

/-- A value of the SET list is what stands, without the blanks around it, between two places outside
literals behind the SET and in front of the next WHERE. -/
theorem exists_of_mem_setValues (h : setValues? t = some spans) (hs : s ∈ spans) :
    ∃ set n m, findTop? (mask t) ["SET"] 0 = some set ∧
      set.stop ≤ n ∧ n ≤ m ∧ Outside (mask t) n ∧ Outside (mask t) m ∧ s = t.trimSpan ⟨n, m⟩ ∧
      ∀ w, findTop? (mask t) ["WHERE"] set.stop = some w → m ≤ w.start := by
  obtain ⟨set, hset, h⟩ := Option.bind_eq_some_iff.1 h
  have hstart := (free_of_findTop? (by decide) hset).2
  cases h
  obtain ⟨item', hitem', rfl⟩ := mem_map.1 hs
  obtain ⟨item, hitem, rfl⟩ := mem_map.1 hitem'
  obtain ⟨stop, hlast, hle, hbefore, hitem⟩ : ∃ stop, Outside (mask t) stop ∧ set.stop ≤ stop ∧
      (∀ w, findTop? (mask t) ["WHERE"] set.stop = some w → stop ≤ w.start) ∧
      item ∈ splitTop (t.slice ⟨set.stop, stop⟩) ',' := by
    refine ⟨_, ?_, ?_, fun w hw => ?_, hitem⟩
    · split
      · next w hw => exact (free_of_findTop? (by decide) hw).1.outside
      · exact .inr (size_mask t).symm
    · split
      · next w hw =>
        obtain ⟨p, v, q, -, rfl, -, hle, -⟩ := exists_of_findTop? hw
        exact hle
      · exact le_size_of_isBoundary hstart.isBoundary
    · exact Nat.le_of_eq (by rw [hw])
  obtain ⟨hbehind, horder, hinside, hfirst, hend⟩ := exists_of_mem_splitTop hstart hlast hle hitem
  cases hequals : ((mask t).slice (item.shift set.stop)).find? (· == '=') with
  | none =>
    exact ⟨set, _, _, hset, hbehind, horder, hfirst, hend, rfl,
      fun w hw => Nat.le_trans hinside (hbefore w hw)⟩
  | some n =>
    obtain ⟨hvalue, hle'⟩ := outside_of_equals hfirst hend horder hequals
    exact ⟨set, _, _, hset, by omega, hle', hvalue, hend, rfl,
      fun w hw => Nat.le_trans hinside (hbefore w hw)⟩

/-! ### Putting values back -/

/-- A value that is whole is clear of a WHERE that is set off. -/
theorem clear_of_value {front word rest : Text} (h : SetOff front word rest)
    (hspans : setValues? (front ++ (word ++ rest)) = some spans) (hs : s ∈ spans)
    (hne : slice (front ++ (word ++ rest)) s ≠ []) :
    (s.stop < front.size ∧ Closed (before (front ++ (word ++ rest)) s.start)) ∨
      (front.size + word.size < s.start ∧ s.start ≤ s.stop) := by
  obtain ⟨set, n, m, hset, hn, hnm, hout, hout', rfl, hwhere⟩ := exists_of_mem_setValues hspans hs
  obtain ⟨a, part, b, ht, ha, hpart, -⟩ :=
    exists_three (s := ⟨n, m⟩) hout.isBoundary hout'.isBoundary hnm
  simp only at ha hpart
  obtain ⟨lead, core, trail, rfl, htrim⟩ := exists_trimmed part
  have hspan :
      trimSpan (front ++ (word ++ rest)) ⟨n, m⟩ = ⟨n + lead.size, n + lead.size + core.size⟩ := by
    rw [ht]
    exact htrim.trimSpan_eq a b ha.symm (by rw [← hpart, ha])
  rw [hspan] at hne ⊢
  have hplace := (free_of_findTop? (by decide) hset).2
  obtain ⟨p, w, q, hm, rfl, hlower, -, -⟩ := exists_of_findTop? hset
  rcases h.clear_of_compact (tells_toLower.compact hlower (by decide) (by decide)) hm with hlt | hgt
  · -- the SET is in front of the WHERE, and so are the values
    obtain ⟨found, hfound, hle⟩ := h.exists_findTop? (Nat.le_of_lt hlt) hplace
    have hstop := hwhere found hfound
    have hsize : n + lead.size + core.size + trail.size = m := by
      rw [← hpart]
      simp only [size_append]
      omega
    have hcore : core ≠ [] := by
      rintro rfl
      exact hne (by rw [size_nil, Nat.add_zero, slice_self])
    refine .inl ⟨Nat.lt_of_le_of_ne (by simp only; omega) fun hend => ?_, ?_⟩
    · -- a value that reached up to the WHERE would end in the blank before it
      have hfront : front = a ++ lead ++ core := by
        have hcut : front ++ (word ++ rest) = (a ++ lead ++ core) ++ (trail ++ b) := by
          rw [ht]
          simp
        refine (append_inj_of_size hcut ?_).1
        simp only [size_append]
        simp only at hend
        omega
      obtain ⟨x, hx, hblank⟩ := h.lead
      rw [hfront, getLast?_append_of_ne_nil _ hcore] at hx
      simp [htrim.last x hx] at hblank
    · have hflat : front ++ (word ++ rest) = (a ++ lead) ++ (core ++ trail ++ b) := by
        rw [ht]
        simp
      have hlen : n + lead.size = size (a ++ lead) := by rw [size_append, ha]
      have hclosed : Closed a := by
        have hbefore := (hout.free_of_lt ?_).closed_before
        · rwa [ht, ← ha, append_assoc, before_size_append] at hbefore
        · obtain ⟨x, v, rfl, -⟩ := h.exists_cons
          have hpos := x.utf8Size_pos
          simp only [size_append, size_cons]
          omega
      rw [hflat, hlen, before_size_append]
      exact hclosed.append (code_of_isBlank htrim.leads).closed
  · simp only at hn
    exact .inr ⟨by simp only; omega, by simp only; omega⟩

/-- Putting back the values of an UPDATE keeps a WHERE that is set off. -/
theorem update_keeps (template : Text) (params : List Param) (h : HasWhere t) (hwhole : Whole t) :
    HasWhere (update (expected template params) template t) := by
  rw [update]
  split
  · next issued now _ hnow =>
    rw [restore]
    split
    · obtain ⟨front, word, rest, rfl, h⟩ := h
      have hedit : ∀ e ∈ (issued.zip now).filterMap
          (fun x => restore? (expected template params) (front ++ (word ++ rest)) x.1 x.2),
          e.span ∈ now ∧ Balanced e.new := by
        intro e he
        obtain ⟨⟨a, b⟩, hab, he⟩ := mem_filterMap.1 he
        simp only [restore?_eq, exchange?, Option.bind_eq_some_iff] at he
        obtain ⟨w, hw, he⟩ := he
        split at he
        · cases he
        · cases he
          exact ⟨(of_mem_zip hab).2, balanced_of_entry (entry_of_want hw).1⟩
      refine h.applyAll (fun e he => ?_) fun e he hstop => ?_
      · obtain ⟨hspan, -⟩ := hedit e he
        rcases clear_of_value h hnow hspan (hwhole now hnow e.span hspan).1 with hlt | hgt
        · exact .inl hlt.1
        · exact .inr (.inr hgt.1)
      · obtain ⟨hspan, hnew⟩ := hedit e he
        obtain ⟨hne, hold⟩ := hwhole now hnow e.span hspan
        rcases clear_of_value h hnow hspan hne with hlt | hgt
        · exact light_of_closed hlt.2 (hnew.lighter hold)
        · omega
    · exact h
  · exact h

end Verify

end Recast
