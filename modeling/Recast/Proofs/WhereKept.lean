import Recast.Proofs.Pipeline
import Recast.Proofs.WhereBinding
import Recast.Proofs.WhereCalls
import Recast.Proofs.WhereTerms

/-!
# An UPDATE keeps its WHERE

An UPDATE without its WHERE changes every row, so binding, the passes and verification must not lose
it. They do not, if the WHERE is set off by blanks in the statement as issued and every change that
the trace of the outcome records is `Safe`. Both are needed: a parameter that is bound right before
the WHERE joins it, and verification then takes the two for the value.
-/

namespace Recast

open Literal Nesting Keyword

variable {d : Draft}

/-- The text was changed only behind a WHERE that is set off. -/
def Record.Behind (r : Record) : Prop :=
  ∃ front word c b b', SetOff front word [c] ∧ r.before = front ++ (word ++ c :: b) ∧
    r.after = front ++ (word ++ c :: b')

/-- A recorded change that cannot lose a WHERE that is set off. The general pass may not have met an
index hint, a count that was put in must be balanced, and the passes for lists that only a SELECT
has may have changed what stands behind the WHERE. No column may be called WHERE where names of
columns are put in or looked for, and verification must have found values that are whole. -/
def Record.Safe (catalog : Catalog) (r : Record) : Prop :=
  match r.pass with
  | .general =>
    General.indexHint? catalog (Edit.replaceAll r.before "LAST_INSERT_ID()" "@@IDENTITY") = none
  | .identityUpdate | .sortCast | .incompatibleOperator => catalog.Plain
  | .rowCount => ∃ count, Balanced count ∧ r.after = Edit.replaceAll r.before FoundRows.call count
  | .distinctOrderBy | .groupByElision => r.Behind
  | .verify => Verify.Whole r.before
  | _ => True

/-- The draft `e` of an UPDATE comes from the draft `d`, and has its WHERE if every change made so
far is safe. -/
structure Draft.Keeps (d e : Draft) : Prop where
  kind : e.kind = .update
  catalog : e.catalog = d.catalog
  trace : d.trace ⊆ e.trace
  clause : (∀ r ∈ e.trace, r.Safe d.catalog) → HasWhere d.text → HasWhere e.text

theorem Draft.Keeps.trans {e f : Draft} (h : d.Keeps e) (h' : e.Keeps f) : d.Keeps f where
  kind := h'.kind
  catalog := h'.catalog.trans h.catalog
  trace := List.Subset.trans h.trace h'.trace
  clause hsafe hwhere := by
    refine h'.clause (by rwa [h.catalog]) (h.clause (fun r hr => ?_) hwhere)
    exact hsafe r (h'.trace hr)

/-! ### One pass -/

theorem FoundRows.replaceable_call : Replaceable call where
  shows := by decide
  starts := by decide
  letters := by decide
  depth _ := Nat.le_refl _

theorem Record.Behind.hasWhere {r : Record} (h : r.Behind) : HasWhere r.after := by
  obtain ⟨front, word, c, b, b', hset, -, hafter⟩ := h
  exact ⟨front, word, c :: b', hafter, { hset with }⟩

theorem Identity.aroundInsert_of_update (h : d.kind = .update) : aroundInsert d = d := by
  rw [aroundInsert, h]
  rfl

theorem Identity.ofUpdate_fields (d : Draft) : (ofUpdate d).kind = d.kind ∧
    (ofUpdate d).catalog = d.catalog ∧ (ofUpdate d).trace = d.trace := by
  rw [ofUpdate]
  cases h : moveRow? d with
  | none => exact ⟨rfl, rfl, rfl⟩
  | some e =>
    simp only [moveRow?, Option.bind_eq_bind, Option.bind_eq_some_iff] at h
    obtain ⟨_, -, r, -, identity, -, _, -, table, -, _, -, he⟩ := h
    cases he
    exact ⟨rfl, rfl, rfl⟩

theorem Limit.apply_fields (d : Draft) : (apply d).kind = d.kind ∧
    (apply d).catalog = d.catalog ∧ (apply d).trace = d.trace := by
  rw [apply_eq]
  exact ⟨rfl, rfl, rfl⟩

/-- What a pass does to an UPDATE, which it never refuses. -/
theorem Pass.exists_apply (context : Context) (hkind : d.kind = .update) (p : Pass) :
    ∃ f, p.apply context d = .ok f ∧ f.kind = .update ∧ f.catalog = d.catalog ∧ f.trace = d.trace ∧
      ((p = .general → Heads d.text) → Record.Safe d.catalog ⟨p, d.text, f.text⟩ →
        HasWhere d.text → HasWhere f.text) := by
  -- most passes change nothing but the text
  have htext (p : Pass) (t : Text) (happly : p.apply context d = .ok { d with text := t })
      (hclause : (p = .general → Heads d.text) → Record.Safe d.catalog ⟨p, d.text, t⟩ →
        HasWhere d.text → HasWhere t) :
      ∃ f, p.apply context d = .ok f ∧ f.kind = .update ∧ f.catalog = d.catalog ∧
        f.trace = d.trace ∧
        ((p = .general → Heads d.text) → Record.Safe d.catalog ⟨p, d.text, f.text⟩ →
          HasWhere d.text → HasWhere f.text) :=
    ⟨_, happly, hkind, rfl, rfl, hclause⟩
  cases p with
  | general => exact htext _ _ rfl fun hheads hsafe h => General.apply_keeps h (hheads rfl) hsafe
  | identityInsert =>
    refine htext _ d.text ?_ fun _ _ h => h
    rw [Pass.apply, Identity.aroundInsert_of_update hkind]
  | identityUpdate =>
    obtain ⟨h₁, h₂, h₃⟩ := Identity.ofUpdate_fields d
    exact ⟨_, rfl, h₁.trans hkind, h₂, h₃, fun _ hsafe h => Identity.ofUpdate_keeps h hsafe⟩
  | dateArithmetic => exact htext _ _ rfl fun _ _ h => Functions.dateArithmetic_keeps h
  | conditionalUnwrap => exact htext _ _ rfl fun _ _ h => Functions.conditionals_keeps h
  | limit =>
    obtain ⟨h₁, h₂, h₃⟩ := Limit.apply_fields d
    exact ⟨_, rfl, h₁.trans hkind, h₂, h₃, fun _ _ h => Limit.apply_keeps hkind h⟩
  | nowFunctions => exact htext _ _ rfl fun _ _ h => Functions.currentTime_keeps h
  | escapedWildcard => exact htext _ _ rfl fun _ _ h => Wildcard.apply_keeps h
  | incompatibleOperator =>
    refine htext _ _ rfl fun _ hsafe h => ?_
    rw [hkind]
    exact Comparison.byLike?_keeps hsafe h
  | nullDatetime | onDuplicateKey =>
    refine htext _ d.text ?_ fun _ _ h => h
    rw [Pass.apply, if_neg (by rw [hkind]; decide)]
  | createTable =>
    refine ⟨d, ?_, hkind, rfl, rfl, fun _ _ h => h⟩
    rw [Pass.apply, CreateTable.apply, hkind]
  | sortCast => exact htext _ _ rfl fun _ hsafe h => Ordering.cast_keeps hsafe _ h
  | rowCount =>
    refine htext _ _ rfl fun _ hsafe h => ?_
    obtain ⟨count, hcount, hafter⟩ := hsafe
    have hafter : FoundRows.apply d.previous d.text = Edit.replaceAll d.text FoundRows.call count :=
      hafter
    rw [hafter]
    exact h.replaceAll FoundRows.replaceable_call hcount
  | distinctOrderBy | groupByElision => exact htext _ _ rfl fun _ hsafe _ => hsafe.hasWhere
  | splitInsert | verify => exact htext _ d.text rfl fun _ _ h => h

theorem Pass.exists_run (context : Context) (hkind : d.kind = .update) {p : Pass}
    (hheads : p = .general → Heads d.text) : ∃ e, Pass.run context d p = .ok e ∧ d.Keeps e := by
  obtain ⟨f, hf, hkind', hcatalog, htrace, hclause⟩ := exists_apply context hkind p
  refine ⟨_, by rw [run, hf]; rfl, ?_⟩
  split
  · next hsame => exact ⟨hkind', hcatalog, by rw [htrace]; simp, fun _ h => hsame ▸ h⟩
  · refine ⟨hkind', hcatalog, fun r hr => ?_, fun hsafe h => ?_⟩
    · exact List.mem_append_left _ (htrace ▸ hr)
    · exact hclause hheads (hsafe _ (List.mem_append_right _ (by simp))) h

/-! ### All passes -/

theorem Pass.exists_foldlM (context : Context) {l : List Pass} (hl : Pass.general ∉ l)
    (hkind : d.kind = .update) : ∃ e, l.foldlM (Pass.run context) d = .ok e ∧ d.Keeps e := by
  refine foldlM_succeeds (P := d.Keeps) (fun p hp e h => ?_) ⟨hkind, rfl, fun _ h => h,
    fun _ h => h⟩
  obtain ⟨f, hf, hkeeps⟩ :=
    exists_run context h.kind (p := p) fun hgeneral => (hl (hgeneral ▸ hp)).elim
  exact ⟨f, hf, h.trans hkeeps⟩

/-! ### The whole conversion -/

theorem Draft.joined_singleton (t : Text) : joined [t] = t := rfl

/-- Verification leaves one statement, with its WHERE if its change is safe. -/
theorem Draft.exists_verified (hkind : d.kind = .update) :
    ∃ m, (d.verified [d.text]).2 = [m] ∧ d.trace ⊆ (d.verified [d.text]).1.trace ∧
      ((∀ r ∈ (d.verified [d.text]).1.trace, r.Safe d.catalog) → HasWhere d.text → HasWhere m) := by
  have happly :
      Verify.apply d [d.text] =
        [Verify.update (Verify.expected d.template d.params) d.template d.text] := by
    rw [Verify.apply, hkind]
    rfl
  rw [verified]
  split
  · rw [happly]
    refine ⟨_, rfl, ?_⟩
    simp only
    split
    · next hsame =>
      rw [joined_singleton] at hsame
      rw [hsame]
      exact ⟨fun _ h => h, fun _ h => h⟩
    · refine ⟨fun r hr => List.mem_append_left _ hr, fun hsafe h => ?_⟩
      exact Verify.update_keeps d.template d.params h
        (hsafe ⟨.verify, _, _⟩ (List.mem_append_right _ List.mem_cons_self))
  · exact ⟨d.text, rfl, fun _ h => h, fun _ h => h⟩

/-- An UPDATE is converted, to one main statement. If a WHERE is set off in the statement as issued
and every recorded change is safe, that statement has a WHERE outside literals and parentheses. -/
theorem convert_keeps_where (context : Context) (catalog : Catalog) (s : Statement)
    (previous : Option Text) (hkind : Kind.ofText (normalizeEscapes s.text) = .update)
    (hserialized : s.isSerialized = false) (hwhere : HasWhere (normalizeEscapes s.text)) :
    ∃ o catalog' m, convert context catalog s previous = .ok (o, catalog') ∧ o.main = [m] ∧
      ((∀ r ∈ o.trace, r.Safe catalog) → ∃ place, findTop? (mask m) ["WHERE"] 0 = some place) := by
  have hbound : (Draft.bound context catalog s previous).kind = .update := hkind
  obtain ⟨hheads, hclause⟩ :=
    Statement.boundText_keeps (s := { s with text := normalizeEscapes s.text }) hkind hwhere
  obtain ⟨d, hd, hkeeps⟩ := Pass.exists_run context hbound (p := .general) fun _ => hheads
  obtain ⟨e, he, hkeeps'⟩ :=
    Pass.exists_foldlM context (l := Pass.pipeline.tail) (by decide) hkeeps.kind
  have hall := hkeeps.trans hkeeps'
  have hrun :
      Pass.pipeline.foldlM (Pass.run context) (.bound context catalog s previous) = .ok e := by
    have hcons : Pass.pipeline = .general :: Pass.pipeline.tail := rfl
    rw [hcons, foldlM_cons_of_ok hd, he]
  obtain ⟨m, hm, htrace, hverified⟩ := Draft.exists_verified hall.kind
  refine ⟨_, _, m, convert_of_pipeline hserialized hrun (by rw [hall.kind]; decide), hm,
    fun hsafe => ?_⟩
  have hcatalog : e.catalog = catalog := hall.catalog
  have hkept := hall.clause (fun r hr => hsafe r (htrace hr)) hclause
  exact (hverified (by rwa [hcatalog]) hkept).exists_findTop?

/-- Five passes change this statement, and a parameter looks like a clause. -/
theorem convert_keeps_where_ordered : let context : Context := ⟨{}, ⟨0, 0⟩⟩
    let catalog : Catalog := { tables := [("t", {
      name := "t"
      columns := [⟨"body", "text", .text, true, false⟩]
      primaryKey := []
      unique := [] })] }
    let s : Statement := ⟨"UPDATE t SET body = ?, n = FOUND_ROWS(), seen = NOW() " ++
      "WHERE body = ? ORDER BY body LIMIT 1", [.text "x WHERE (", .int 5], true, false⟩
    let previous : Option Text := some "SELECT a FROM u WHERE b = ')'"
    let changed : List Pass := [.rowCount, .limit, .nowFunctions, .sortCast, .incompatibleOperator]
    Kind.ofText (normalizeEscapes s.text) = .update ∧ s.isSerialized = false ∧
      HasWhere (normalizeEscapes s.text) ∧
      ∃ o catalog' m, convert context catalog s previous = .ok (o, catalog') ∧ o.main = [m] ∧
        o.trace.map (·.pass) = changed ∧ (∀ r ∈ o.trace, r.Safe catalog) ∧
        ∃ place, findTop? (mask m) ["WHERE"] 0 = some place := by
  intro context catalog s previous changed
  have hkind : Kind.ofText (normalizeEscapes s.text) = .update := by decide
  have hwhere : HasWhere (normalizeEscapes s.text) :=
    ⟨"UPDATE t SET body = ?, n = FOUND_ROWS(), seen = NOW() ", "WHERE",
      " body = ? ORDER BY body LIMIT 1", by decide, rfl, by decide, ⟨' ', by decide, rfl⟩, rfl,
        fun c hc => by
        cases hc
        exact .inl rfl⟩
  obtain ⟨o, catalog', m, hconvert, hmain, hkept⟩ :=
    convert_keeps_where context catalog s previous hkind rfl hwhere
  let count : Text := "COUNT(1) as Computed FROM u WHERE b = ')'"
  obtain ⟨r, hr, hrecords⟩ : ∃ r, convert context catalog s previous = .ok r ∧
      (r.1.trace.map (·.pass), r.1.trace.all fun x =>
        x.pass != .rowCount || x.after == Edit.replaceAll x.before FoundRows.call count)
        = (changed, true) := exists_of_toOption (by decide +kernel)
  obtain rfl : (o, catalog') = r := Except.ok.inj (hconvert.symm.trans hr)
  obtain ⟨htrace, hcount⟩ := Prod.mk.inj hrecords
  have hsafe : ∀ r ∈ o.trace, r.Safe catalog := by
    have hplain : catalog.Plain := by
      rw [Catalog.Plain]
      decide
    have hbalanced : Balanced count := balanced_of_level? rfl (by decide)
    intro r hr
    have hpass : r.pass ∈ changed := htrace ▸ List.mem_map_of_mem hr
    have hafter := List.all_eq_true.1 hcount r hr
    simp only [changed, List.mem_cons, List.not_mem_nil, or_false] at hpass
    rcases hpass with hpass | hpass | hpass | hpass | hpass
    · rw [Record.Safe, hpass]
      exact ⟨count, hbalanced, by simpa [hpass] using hafter⟩
    all_goals simp [Record.Safe, hpass, hplain]
  exact ⟨hkind, rfl, hwhere, o, catalog', m, hconvert, hmain, htrace, hsafe, hkept hsafe⟩

/-- NULL joins a WHERE that is not set off, so verification takes all that follows for the value,
and the statement that is left changes every row. -/
theorem convert_loses_where :
    let s : Statement := ⟨"UPDATE t SET a = ?WHERE id = 1", [.null], true, false⟩
    (∃ set, findTop? (mask (normalizeEscapes s.text)) ["SET"] 0 = some set ∧
      ∃ place, findTop? (mask (normalizeEscapes s.text)) ["WHERE"] set.stop = some place) ∧
    (convert ⟨{}, ⟨0, 0⟩⟩ {} s none).toOption.map (·.1.main) =
      some [("UPDATE t SET a = NULL" : Text)] ∧
    findTop? (mask "UPDATE t SET a = NULL") ["WHERE"] 0 = none :=
  ⟨⟨⟨9, 12⟩, by decide, ⟨18, 23⟩, by decide⟩, by decide +kernel, by decide⟩

end Recast
