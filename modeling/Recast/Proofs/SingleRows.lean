import Recast.Proofs.Rows

/-!
# Statements of one row

What splitting a statement of several rows gives: one statement for each value group, with
everything before the first group and behind the last one repeated. Each of them is read as the
statement of that one group (`OneRow`), so splitting it again does nothing, and every statement of
fewer groups stays whole (`statements_one_row`).
-/

namespace Recast

open Literal Nesting Insertion

variable {t : Text} {g : Span}

namespace RowSplit

/-- `s` is read as the statement that inserts the group `g` of `t` alone, with what stands in `t`
before its first group and behind its last one around it. -/
structure OneRow (t : Text) (i : Insertion) (g : Span) (s : Text) (j : Insertion) (h : Span) :
    Prop where
  table : j.table = i.table
  columns : j.columns = i.columns
  groups : j.groups = [h]
  tail : j.tail = h.stop
  row : s.slice h = t.slice g
  front : some (s.before h.start) = i.groups.head?.map fun first => t.before first.start
  back : s.after h.stop = t.after i.tail

theorem statements_of_one {i : Insertion} (h : ofText? t = some i) (hfew : i.groups.length < 2) :
    statements t = [t] := by
  obtain ⟨table, columns, groups, tail⟩ := i
  rw [statements, h]
  rcases groups with _ | ⟨g, _ | ⟨g', groups⟩⟩
  · rfl
  · rfl
  · simp at hfew

theorem tail_of_one {j : Insertion} (h : ofText? t = some j) (hg : j.groups = [g]) :
    j.tail = g.stop := by
  obtain ⟨-, _, _, _, _, -, -, -, -, -, htail⟩ := (ofText?_eq_some (by rw [hg]; simp)).1 h
  rw [htail, hg]
  rfl

/-- The statement for one of the rows of a statement. -/
theorem oneRow_withRow {a table tail : Text} {columns : List Text} (hopens : Opens a table columns)
    {rows : List ValueRow} (hlisted : Listed rows) (htail : NoRow tail) {k : Nat}
    (hg : (groupsAt a.size rows)[k]? = some g) {r : ValueRow} (hr : rows[k]? = some r) :
    ∃ j, ofText? (Verify.withRow a r.items tail) = some j ∧
      OneRow (a ++ (rowsText rows ++ tail)) ⟨table, columns, groupsAt a.size rows,
        a.size + (rowsText rows).size⟩ g
        (Verify.withRow a r.items tail) j (Verify.rowSpan a r.items) := by
  have hproper := hlisted.proper r (List.mem_of_getElem? hr)
  obtain ⟨j, hj, htable, hcolumns, hgroups⟩ := hopens.withRow hproper.ne hproper.items htail
  refine ⟨j, hj, htable, hcolumns, hgroups, tail_of_one hj hgroups, ?_, ?_, ?_⟩
  · obtain ⟨r', hr', -, hslice, -⟩ := entries_of_group tail hlisted.proper hg
    obtain rfl : r' = r := Option.some.inj (hr'.symm.trans hr)
    rw [hslice]
    exact slice_withRow a r' tail
  · -- in front of the first row nothing separates it from what opens the statement
    obtain ⟨first, rows, rfl⟩ :=
      List.exists_cons_of_ne_nil (List.ne_nil_of_mem (List.mem_of_getElem? hr))
    have hlead : first.lead = [] := (hlisted.first first rfl).2
    rw [Verify.before_withRow, groupsAt, List.head?_cons, hlead]
    exact congrArg some (Text.before_size_append _ _).symm
  · rw [Verify.after_withRow, ← Text.size_append, ← List.append_assoc, Text.after_size_append]

/-- Splitting loses nothing and doubles nothing: there is one statement for each value group, which
is read as the statement of that group alone and is not split any further, and a statement of fewer
than two groups stays whole. -/
theorem statements_one_row (t : Text) : (∀ i, ofText? t = some i → 2 ≤ i.groups.length →
      (statements t).length = i.groups.length ∧
      ∀ (k : Nat) g s, i.groups[k]? = some g → (statements t)[k]? = some s →
        (∃ j h, ofText? s = some j ∧ OneRow t i g s j h) ∧ statements s = [s]) ∧
    ((∀ i, ofText? t = some i → i.groups.length < 2) → statements t = [t]) := by
  constructor
  · intro i hi hlen
    have hgroups : i.groups ≠ [] := by
      intro hnil
      simp [hnil] at hlen
    obtain ⟨a, rows, tail, rfl, -, hne, hlisted, htail, -, hopens⟩ := exists_rows hi hgroups
    have hread := Option.some.inj (hi.symm.trans (hopens rows tail hne hlisted htail))
    generalize i.table = table, i.columns = columns at hopens hread
    subst hread
    rw [statements_rows hopens hne hlisted htail]
    refine ⟨by rw [List.length_map, length_groupsAt], fun k g s hg hs => ?_⟩
    rw [List.getElem?_map] at hs
    obtain ⟨r, hr, rfl⟩ := Option.map_eq_some_iff.1 hs
    obtain ⟨j, hj, hone⟩ := oneRow_withRow hopens hlisted htail hg hr
    refine ⟨⟨j, _, hj, hone⟩, statements_of_one hj ?_⟩
    rw [hone.groups]
    exact Nat.lt_succ_self 1
  · intro hfew
    cases hi : ofText? t with
    | none => rw [statements, hi]
    | some i => exact statements_of_one hi (hfew i hi)

/-- Three rows, one with a list of its own, and a comma and an open literal behind them. -/
theorem statements_one_row_open_tail :
    let t : Text := "INSERT INTO t (a, b) VALUES ('),(', 1) , (f(1, (2)), 'it''s'),(3,4), ON 'x"
    (∃ i, ofText? t = some i ∧ 2 ≤ i.groups.length ∧ (statements t).length = i.groups.length) ∧
      (statements t)[1]? = some "INSERT INTO t (a, b) VALUES (f(1, (2)), 'it''s'), ON 'x".toList ∧
      statements "INSERT INTO t (a, b) VALUES (f(1, (2)), 'it''s'), ON 'x" =
        ["INSERT INTO t (a, b) VALUES (f(1, (2)), 'it''s'), ON 'x".toList] ∧
      statements "INSERT INTO t SELECT (1), (2)" = ["INSERT INTO t SELECT (1), (2)".toList] := by
  intro t
  have hread : ∃ i, ofText? t = some i ∧ i.groups.length = 3 := by decide +kernel
  have hsecond :
      (statements t)[1]? =
        some "INSERT INTO t (a, b) VALUES (f(1, (2)), 'it''s'), ON 'x".toList := by
    decide +kernel
  obtain ⟨i, hi, hlen⟩ := hread
  obtain ⟨hcount, hrows⟩ := (statements_one_row t).1 i hi (by rw [hlen]; decide)
  have hgroup : (1 : Nat) < i.groups.length := by rw [hlen]; decide
  refine ⟨⟨i, hi, by rw [hlen]; decide, hcount⟩, hsecond, ?_, ?_⟩
  · exact (hrows 1 _ _ (List.getElem?_eq_getElem hgroup) hsecond).2
  · exact (statements_one_row _).2 (by decide +kernel)

end RowSplit

end Recast
