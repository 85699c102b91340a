import Recast.Proofs.CallRules
import Recast.Proofs.Pipeline
import Recast.Proofs.SortLists

/-!
# Passes that are run twice

Date arithmetic, conditionals, the casts of ORDER BY and escaped wildcards are passes over the text
alone, and what they leave behind gives them nothing more to do. So such a pass changes nothing when
it is run on its own output, and records nothing (`run_run_of_settled`).
-/

namespace Recast

namespace Pass

/-- The passes with nothing left to do once they were run. -/
def settled : List Pass := [dateArithmetic, conditionalUnwrap, sortCast, escapedWildcard]

theorem exists_idempotent (context : Context) {p : Pass} (hp : p ∈ settled) :
    ∃ f : Catalog → Text →
      Text, (∀ d, p.apply context d = .ok { d with text := f d.catalog d.text }) ∧
      ∀ catalog t, f catalog (f catalog t) = f catalog t := by
  simp only [settled, List.mem_cons, List.not_mem_nil, or_false] at hp
  rcases hp with rfl | rfl | rfl | rfl
  · exact ⟨fun _ => Functions.dateArithmetic, fun _ => rfl,
      fun _ => Functions.dateArithmetic_dateArithmetic⟩
  · exact ⟨fun _ => Functions.conditionals, fun _ => rfl,
      fun _ => Functions.conditionals_conditionals⟩
  · exact ⟨fun catalog t => (Ordering.cast catalog context.settings.sortCastLength t).getD t,
      fun _ => rfl, fun catalog t => Ordering.cast_cast catalog _ t⟩
  · exact ⟨fun _ => Wildcard.apply, fun _ => rfl,
      fun _ t => Wildcard.apply_of_not_escapedAt (Wildcard.not_escapedAt_apply t)⟩

/-- A pass of this kind returns its own output as it is, and has nothing to record the second
time. -/
theorem run_run_of_settled (context : Context) (d : Draft) {p : Pass} (hp : p ∈ settled) :
    (∃ e, p.apply context d = .ok e ∧ p.apply context e = .ok e) ∧
      ∃ e, p.run context d = .ok e ∧ p.run context e = .ok e := by
  obtain ⟨f, happly, hidem⟩ := exists_idempotent context hp
  have hagain {e : Draft} (h : f e.catalog e.text = e.text) :
      p.apply context e = .ok e ∧ p.run context e = .ok e := by
    have hsame : p.apply context e = .ok e := by rw [happly, h]
    refine ⟨hsame, ?_⟩
    rw [run, hsame]
    exact congrArg Except.ok (if_pos rfl)
  refine ⟨⟨_, happly d, (hagain (hidem d.catalog d.text)).1⟩, ?_⟩
  by_cases hsame : f d.catalog d.text = d.text
  · exact ⟨d, (hagain hsame).2, (hagain hsame).2⟩
  · let e : Draft := { d with text := f d.catalog d.text }
    refine ⟨e.record p d.text e.text, ?_, (hagain (hidem d.catalog d.text)).2⟩
    rw [run, happly]
    exact congrArg Except.ok (if_neg hsame)

/-- A conditional in the condition of another, behind a name and in a literal, and one that is not
closed. -/
theorem run_run_of_settled_conditional : let d : Draft := {
      text := "SELECT IF(DATEADD(DAY, 1, d) < IF (DATEADD(DAY, 2, e) > 0, 'IF(', f), g, h), IF(a, b"
      kind := .select, prepared := false, serialized := false, verify := true, previous := none
      template := "", params := [], catalog := {} }
    let context : Context := ⟨{}, ⟨0, 0⟩⟩
    let new : Text :=
      "SELECT (CASE WHEN DATEADD(DAY, 1, d) < (CASE WHEN DATEADD(DAY, 2, e) > 0 THEN 'IF(' " ++
      "ELSE f END) THEN g ELSE h END), IF(a, b"
    conditionalUnwrap ∈ settled ∧
      (∃ e, conditionalUnwrap.apply context d = .ok e ∧ conditionalUnwrap.apply context e = .ok e) ∧
      ∃ e, conditionalUnwrap.run context d = .ok e ∧ conditionalUnwrap.run context e = .ok e ∧
        e.text = new := by
  intro d context new
  have hmem : conditionalUnwrap ∈ settled := by decide
  obtain ⟨hstep, e, hrun, hagain⟩ := run_run_of_settled context d hmem
  obtain ⟨e', hrun', htext⟩ : ∃ e', conditionalUnwrap.run context d = .ok e' ∧ e'.text = new :=
    exists_of_toOption (by decide +kernel)
  obtain rfl := Except.ok.inj (hrun.symm.trans hrun')
  exact ⟨hmem, hstep, e, hrun, hagain, htext⟩

end Pass

end Recast
