import Recast.Proofs.LastClause

/-!
# Ordering by aliases

Under DISTINCT an ORDER BY list with other terms gives way to the aliases of the statement, and
nothing else of the statement changes (`distinct?_reorders`). Every alias outside parentheses is
taken. So the list is one of aliases of the select list if and only if an AS stands nowhere else:
the name of a table is taken for an alias as well.
-/

namespace Recast

open Literal Nesting Keyword List Text
open Option hiding guard

variable {t u : Text}

namespace Alias

/-- Where an alias is given outside parentheses and literals: the offset of AS, and the name. -/
def places (t : Text) : List (Nat × Span) :=
  ((Cursor.start (mask t)).findAll fun c => do
    let (s, d) ← clause? c
    return ((c.offset, s), d)).filter fun f => depthAt (mask t) f.1 == 0

/-- Whether an offset lies behind SELECT and in front of the first FROM, both outside
parentheses. -/
def isSelected (t : Text) (n : Nat) : Bool :=
  (findTop? (mask t) ["SELECT"] 0).any (fun s => s.stop ≤ n) &&
    (findTop? (mask t) ["FROM"] 0).all fun s => n ≤ s.start

/-- The aliases of the select list, in order. -/
def selected (t : Text) : List Text :=
  ((places t).filter fun f => isSelected t f.1).map fun f => t.slice f.2

theorem all_eq_selected_iff : all t = selected t ↔ ∀ f ∈ places t, isSelected t f.1 := by
  have hall : all t = (places t).map fun f => t.slice f.2 := rfl
  rw [hall, selected]
  constructor
  · intro h
    have hlength := congrArg length h
    rw [length_map, length_map] at hlength
    exact length_filter_eq_length_iff.1 hlength.symm
  · intro h
    rw [filter_eq_self.2 h]

end Alias

namespace Ordering

/-- The direction that the last item of a list ends in, as it is written behind a list. -/
def direction (t : Text) (list : Span) : Text :=
  (((itemsIn t list ',').filter fun s => !s.isEmpty).getLast?.bind fun s => directions.find?
    (endsIn (t.slice s))).elim
    [] (' ' :: ·)

theorem direction_termOf (t : Text) (s : Span) :
    (termOf t s).direction = directions.find? (endsIn (t.slice s)) := by
  rw [termOf]
  split
  · next h => exact h.symm
  · next h => exact h.symm

theorem direction_eq (t : Text) (list : Span) :
    direction t list = ((terms t list).getLast?.bind (·.direction)).elim [] (' ' :: ·) := by
  rw [direction, terms, getLast?_map, bind_map]
  simp only [Function.comp_def, direction_termOf]

/-- The statement `u` is `t` with its aliases, in the direction of the last term, in place of its
ORDER BY list. -/
def Reorders (t u : Text) : Prop :=
  ∃ a k lead list back, t = a ++ (k ++ (lead ++ (list ++ back))) ∧ Listed a k lead list back ∧
    u = a ++ (k ++ (lead ++ (join ", " (Alias.all t) ++
      (direction t ⟨size (a ++ (k ++ lead)), size (a ++ (k ++ lead)) + list.size⟩ ++ back))))

/-- **ORDER BY under DISTINCT.** Where the list is replaced, it is by all the aliases of the
statement in the direction of the last term. These are the aliases of the select list exactly if the
statement gives no others, as it does to a table. -/
theorem distinct?_reorders (h : distinct? t = some u) :
    Reorders t u ∧
      (Alias.all t = Alias.selected t ↔ ∀ f ∈ Alias.places t, Alias.isSelected t f.1) := by
  obtain ⟨_, -, s, hs, _, -, _, -, h⟩ := of_bind₄ h
  obtain ⟨a, k, lead, list, back, ht, hlisted⟩ := exists_listed hs
  obtain rfl := some.inj (hlisted.list?_eq.symm.trans (ht ▸ hs))
  refine ⟨⟨a, k, lead, list, back, ht, hlisted, ?_⟩, Alias.all_eq_selected_iff⟩
  have hafter : t.after (size (a ++ (k ++ lead)) + list.size) = back := by
    rw [ht]
    simpa [Nat.add_assoc] using after_size_append (a ++ (k ++ lead) ++ list) back
  have hbefore : t.before (size (a ++ (k ++ lead))) = a ++ (k ++ lead) := by
    rw [ht]
    simpa using before_size_append (a ++ (k ++ lead)) (list ++ back)
  rw [direction_eq]
  cases hlast :
      (terms t ⟨size (a ++ (k ++ lead)), size (a ++ (k ++ lead)) + list.size⟩).getLast?.bind
        (·.direction) with
  | none | some d =>
    rw [hlast] at h
    rw [← some.inj h, splice, hbefore, hafter]
    simp

theorem distinct?_reorders_selected :
    let t : Text := "SELECT DISTINCT a AS x, (b) AS [y] FROM t ORDER BY x, b DESC;"
    let u : Text := "SELECT DISTINCT a AS x, (b) AS [y] FROM t ORDER BY x, [y] DESC;"
    distinct? t = some u ∧ Alias.selected t = ["x", "[y]"] ∧
      Reorders t u ∧
        (Alias.all t = Alias.selected t ↔ ∀ f ∈ Alias.places t, Alias.isSelected t f.1) := by
  intro t u
  have h : distinct? t = some u := by decide +kernel
  exact ⟨h, by decide +kernel, distinct?_reorders h⟩

/-- The name of a table takes part in the order. -/
theorem distinct?_orders_by_table : distinct? "SELECT DISTINCT a AS x FROM t AS u ORDER BY b" =
        some "SELECT DISTINCT a AS x FROM t AS u ORDER BY x, u" ∧
      Alias.selected "SELECT DISTINCT a AS x FROM t AS u ORDER BY b" = ["x"] := by
  decide +kernel

end Ordering

end Recast
