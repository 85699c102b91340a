import Recast.Proofs.CountKept
import Recast.Proofs.Execution
import Recast.Proofs.Pipeline

/-!
# Asking for the found rows again and again

While no table is known, a pass does to a SELECT what it does to its text alone (`Pass.select`), the
limit apart. So a count over the previous statement is sent as it is, and is then itself the
previous statement. The next count is over the same part, and so on (`Session.query_counts`):
however often the found rows are asked for, the same count is sent (`Session.query_repeats_count`).
-/

namespace Recast

open Statement FoundRows Literal Nesting Keyword List Text
open Option hiding guard

variable {body front previous rest t : Text} {o : Outcome} {s : Session} {statement : Statement}

/-! ### A SELECT while no table is known -/

theorem cast_empty (length : Nat) (t : Text) : (Ordering.cast {} length t).getD t = t := by
  rw [Ordering.cast]
  cases Ordering.list? (mask t) with
  | none => rfl
  | some list =>
    have hnone :
        (Ordering.terms t list).filterMap
          (Ordering.cast? t (Catalog.ofClass {} .text) length) = [] := by
      refine filterMap_eq_nil_iff.2 fun term _ => ?_
      refine eq_none_iff_forall_ne_some.2 fun e he => ?_
      obtain ⟨⟨table, column⟩, -, he⟩ := bind_eq_some_iff.1 he
      obtain ⟨_, hrefers, -⟩ := bind_eq_some_iff.1 he
      cases hrefers
    simp only [bind_eq_bind, bind_some, hnone, Edit.applyAll_nil]
    rfl

theorem byLike?_empty (kind : Kind) (t : Text) : (Comparison.byLike? {} kind t).getD t = t := by
  rw [Comparison.byLike?]
  cases Comparison.region? kind (mask t) with
  | none => rfl
  | some region =>
    have hnames (c : Cursor) :
        Comparison.named? (Comparison.namesOf (Catalog.ofClass {} .text)) c = none := rfl
    have hnone : (Cursor.start ((mask t).after region)).findAll
        (Comparison.clause? (Comparison.namesOf (Catalog.ofClass {} .text))) = [] := by
      refine eq_nil_iff_forall_not_mem.2 fun e he => ?_
      obtain ⟨_, c, d, -, -, -, hread⟩ := (Cursor.at_start _).mem_findAll he
      simp [Comparison.clause?, hnames] at hread
    simp only [bind_eq_bind, bind_some, hnone, filterMap_nil, Edit.applyAll_nil]
    rfl

namespace Pass

/-- What a pass makes of the text of a SELECT while no table is known, the limit apart. -/
def select (previous : Option Text) (t : Text) : Pass → Text
  | general => General.apply {} t
  | dateArithmetic => Functions.dateArithmetic t
  | conditionalUnwrap => Functions.conditionals t
  | rowCount => FoundRows.apply previous t
  | nowFunctions => Functions.currentTime t
  | distinctOrderBy => (Ordering.distinct? t).getD t
  | escapedWildcard => Wildcard.apply t
  | groupByElision => Grouping.apply {} t
  | _ => t

theorem foldl_select_behind (previous : Option Text) (t : Text) :
    (pipeline.drop 7).foldl (Pass.select previous) t = settle t := by
  have hpasses :
      pipeline.drop 7 = [nowFunctions, distinctOrderBy, sortCast, escapedWildcard, groupByElision,
    nullDatetime, incompatibleOperator, createTable] := rfl
  rw [hpasses, settle, settleTerms]
  simp only [foldl_cons, foldl_nil, Pass.select]

variable (context : Context) {d : Draft} (hkind : d.kind = .select) (hcatalog : d.catalog = {})
include hkind hcatalog

theorem apply_select {p : Pass} (hp : p ≠ .limit) :
    p.apply context d = .ok { d with text := p.select d.previous d.text } := by
  cases d
  subst hkind hcatalog
  cases p with
  | limit => exact absurd rfl hp
  | sortCast =>
    rw [apply, Draft.change, cast_empty]
    rfl
  | incompatibleOperator =>
    rw [apply, Draft.change, byLike?_empty]
    rfl
  | _ => rfl

theorem foldlM_select {l : List Pass} (hl : .limit ∉ l) : ∃ trace, l.foldlM (run context) d
    = .ok { d with text := l.foldl (select d.previous) d.text, trace := trace } := by
  induction l generalizing d with
  | nil => exact ⟨d.trace, rfl⟩
  | cons p l ih =>
    rw [mem_cons, not_or] at hl
    obtain ⟨trace, hrun⟩ := exists_run_eq (apply_select context hkind hcatalog (Ne.symm hl.1))
    rw [foldlM_cons_of_ok hrun]
    exact ih (d := { d with text := p.select d.previous d.text, trace := trace }) hkind
      hcatalog hl.2

/-- The whole pipeline: the passes up to the count, the limit, and those behind it. -/
theorem exists_pipeline_select : ∃ t e, pipeline.foldlM (Pass.run context) d = .ok e ∧
    e.text = settle t ∧ e.kind = d.kind ∧ e.catalog = d.catalog ∧ e.preceding = d.preceding ∧
    e.following = d.following ∧ ∀ s, (pipeline.take 6).foldl (Pass.select d.previous) d.text = s →
      (∀ e : Draft, e.text = s → Limit.limited? e = none) → t = s := by
  obtain ⟨trace, hfront⟩ := foldlM_select context (l := pipeline.take 6) hkind hcatalog (by decide)
  generalize htext : (pipeline.take 6).foldl (Pass.select d.previous) d.text = s at hfront
  have hlimit : Pass.apply context { d with text := s, trace := trace } .limit
      = .ok (Limit.apply { d with text := s, trace := trace }) := rfl
  rw [Limit.apply_eq] at hlimit
  obtain ⟨trace', hrun⟩ := exists_run_eq hlimit
  obtain ⟨trace'', hrest⟩ := foldlM_select context (l := pipeline.drop 7) (d := { d with
      text := (Limit.apply { d with text := s, trace := trace }).text
      window := (Limit.apply { d with text := s, trace := trace }).window
      trace := trace' }) hkind hcatalog (by decide)
  rw [foldl_select_behind] at hrest
  have hcut : pipeline = pipeline.take 6 ++ .limit :: pipeline.drop 7 := rfl
  have hwhole := (foldlM_append_of_ok hfront (.limit :: pipeline.drop 7)).trans
    ((foldlM_cons_of_ok hrun (pipeline.drop 7)).trans hrest)
  refine ⟨(Limit.apply { d with text := s, trace := trace }).text, _, hwhole, ?_, ?_, ?_,
    ?_, ?_, ?_⟩
  iterate 5 simp only
  rintro _ rfl hnone
  rw [Limit.apply, hnone _ rfl]
  rfl

end Pass

theorem Draft.verified_of_select {d : Draft} (hkind : d.kind = .select) (main : List Text) :
    d.verified main = (d, main) := by
  have hsame : Verify.apply d main = main := by simp only [Verify.apply, hkind]
  rw [verified, hsame]
  simp

section

variable (context : Context) {s : Statement}
  (hkind : Kind.ofText (normalizeEscapes s.text) = .select) (hserialized : s.isSerialized = false)
include hkind hserialized

/-- A SELECT is converted to one statement while no table is known. -/
theorem convert_select (previous : Option Text) :
    ∃ t o, convert context {} s previous = .ok (o, {}) ∧
    o.main = [settle t] ∧ o.preceding = [] ∧ o.following = [] ∧
    ∀ r, (Pass.pipeline.take 6).foldl (Pass.select previous)
      (Draft.bound context {} s previous).text = r →
      (∀ e : Draft, e.text = r → Limit.limited? e = none) → t = r := by
  obtain ⟨t, e, hrun, htext, hkind', hcatalog, hpreceding, hfollowing, hlimit⟩ :=
    Pass.exists_pipeline_select context (d := Draft.bound context {} s previous) hkind rfl
  have hselect : e.kind = .select := hkind'.trans hkind
  have hconvert := convert_of_pipeline hserialized hrun (by rw [hselect]; decide)
  rw [Draft.verified_of_select hselect, hcatalog] at hconvert
  refine ⟨t, _, hconvert, ?_, hpreceding, hfollowing, hlimit⟩
  rw [← htext]
  rfl

end

/-! ### The question -/

namespace FoundRows

theorem select_question :
    Functions.conditionals (Functions.dateArithmetic (General.apply {} "SELECT FOUND_ROWS()"))
      = "SELECT FOUND_ROWS()" := by
  decide +kernel

theorem unmark?_question : unmark? "SELECT FOUND_ROWS()" = none := by decide +kernel

theorem replaceAll_question (count : Text) :
    Edit.replaceAll "SELECT FOUND_ROWS()" call count = "SELECT " ++ count := by
  have hplace : occurrences (mask "SELECT FOUND_ROWS()") call = [7] := by decide +kernel
  have hfront : before "SELECT FOUND_ROWS()" 7 = "SELECT " := by decide
  have hrest : after "SELECT FOUND_ROWS()" (7 + call.size) = [] := by decide
  rw [Edit.replaceAll, hplace, map_singleton,
    Edit.applyAll_singleton (by decide) (by decide) (by decide), splice, hfront, hrest, append_nil]

theorem foldl_select_question {count : Text} (h : recount? previous = some count) :
    (Pass.pipeline.take 6).foldl (Pass.select (some previous)) "SELECT FOUND_ROWS()" =
      "SELECT " ++ count := by
  have hpasses :
      Pass.pipeline.take 6 = [.general, .identityInsert, .identityUpdate, .dateArithmetic,
    .conditionalUnwrap, .rowCount] := rfl
  rw [hpasses]
  simp only [foldl_cons, foldl_nil, Pass.select, select_question]
  simp only [apply, unmark?_question, getD_none, bind_some, h, replaceAll_question]

theorem Counted.recount?_of_no_semicolon (h : Counted t front body rest) (hsemicolon : ';' ∉ body) :
    recount? t = some ("COUNT(1) as Computed " ++ body.trim) := by
  obtain ⟨lead, trail, hcut, htrimmed⟩ := trimmed_trim body
  have hlast : dropEnd (· == ';') body.trim = body.trim := by
    refine dropEnd_of_last fun c hc => beq_eq_false_iff_ne.2 ?_
    rintro rfl
    apply hsemicolon
    rw [hcut]
    simp [mem_of_getLast? hc]
  have htrim : trimEnd body.trim = body.trim := dropEnd_of_last htrimmed.last
  rw [h.recount?_eq, hlast, htrim]

/-- A part of a statement whose count is left as it is, and counted over again is the same count. -/
structure Steady (core : Text) : Prop where
  counted : Counted (countFront ++ core) countFront core []
  settled : settle (countFront ++ core) = countFront ++ core
  recount : recount? (countFront ++ core) = some ("COUNT(1) as Computed " ++ core)

theorem Counted.steady (h : Counted (settle t) front body rest) (hsemicolon : ';' ∉ body)
    (hday : ∀ n, ¬ Functions.CalledAt "dayofmonth" .any body n) : Steady body.trim := by
  refine ⟨h.again, h.settle_eq hday, ?_⟩
  obtain ⟨lead, trail, hcut, -⟩ := trimmed_trim body
  have hagain := h.again.recount?_of_no_semicolon fun hmem => hsemicolon (by rw [hcut]; simp [hmem])
  rwa [trim_trim] at hagain

/-- Behind a statement that is counted over, the count is sent for the question. -/
theorem Steady.convert_question {core : Text} (h : Steady core)
    (hrecount : recount? previous = some ("COUNT(1) as Computed " ++ core)) (context : Context) :
    ∃ o, convert context {} (ofText "SELECT FOUND_ROWS()") (some previous) = .ok (o, {}) ∧
      o.main = [countFront ++ core] ∧ o.preceding = [] ∧ o.following = [] := by
  obtain ⟨t, o, hconvert, hmain, hpreceding, hfollowing, hlimit⟩ := convert_select context
    (s := ofText "SELECT FOUND_ROWS()") (by decide +kernel) (by decide) (some previous)
  have hbound : (Draft.bound context {} (ofText "SELECT FOUND_ROWS()") (some previous)).text
      = "SELECT FOUND_ROWS()" := by
    have htext : trim (normalizeEscapes "SELECT FOUND_ROWS()") = "SELECT FOUND_ROWS()" := by
      decide +kernel
    exact htext
  have hcount : ("SELECT " : Text) ++ ("COUNT(1) as Computed " ++ core) = countFront ++ core := rfl
  have ht := hlimit (countFront ++ core) (by rw [hbound, foldl_select_question hrecount, hcount])
    fun e he => h.counted.limited?_eq_none he
  rw [ht, h.settled] at hmain
  exact ⟨o, hconvert, hmain, hpreceding, hfollowing⟩

end FoundRows

/-! ### Sessions -/

namespace Session

variable {run : Executor σ} (hrun : ∀ m sql, ∃ r, (run m sql).2 = .ok r)
include hrun

theorem succeeded_of_runAll (m : σ) (l : List Text) :
    ∀ c ∈ (run.runAll m l).2, Call.Succeeded c := by
  induction l generalizing m with
  | nil => simp [Executor.runAll]
  | cons sql l ih =>
    exact forall_mem_cons.2 ⟨hrun m sql, ih _⟩

/-- On such a machine a statement that is converted to main statements alone sends these. -/
theorem query_of_convert {s' : Session} (hconvert : s.convert statement = .ok (o, s'))
    (hpreceding : o.preceding = []) (hfollowing : o.following = []) (m : σ) :
    ∃ m' calls r, s.query run.logged (m, []) statement
      = .ok ({ s' with previous := o.lastMain? <|> s'.previous }, (m', calls), .ok r) ∧
      calls.map Prod.fst = mainOf o := by
  have hlog := run.runAll_logged m [] (mainOf o)
  obtain ⟨r, hgather⟩ : ∃ r, gather (run.runAll m (mainOf o)).2 = .ok r :=
    ⟨_, gather_of_succeeded (succeeded_of_runAll hrun m (mainOf o))⟩
  have hafter : followingOf o false = [] := by rw [followingOf_false, hfollowing, map_nil]
  have hbefore : run.logged.runAll (m, []) o.preceding = ((m, []), []) := by rw [hpreceding]; rfl
  have hlogged :
      gather (run.logged.runAll (run.logged.runAll (m, []) o.preceding).1 (mainOf o)).2 =
        .ok r := by
    rw [hbefore, hlog]
    exact hgather
  have hexecute := execute_of_ok s' hlogged
  rw [hbefore, hlog, hafter] at hexecute
  refine ⟨(run.runAll m (mainOf o)).1, (run.runAll m (mainOf o)).2, o.shaped r, ?_,
    run.map_fst_runAll m (mainOf o)⟩
  rw [query_eq, hconvert]
  exact congrArg Except.ok hexecute

omit hrun

theorem convert_of_empty (hcatalog : s.catalog = {})
    (h : Recast.convert s.context {} statement s.previous = .ok (o, {})) :
    s.convert statement = .ok (o, s) := by
  cases s
  subst hcatalog
  rw [convert, h]
  rfl

/-- As often as it is said, the statement succeeds, and each time the machine is sent the given
texts. -/
def Repeats (run : Executor σ) (statement : Statement) (texts : List Text) :
    Nat → Session → σ → Prop
  | 0, _, _ => True
  | n + 1, s, m => ∃ s' m' calls r, s.query run.logged (m, []) statement =
      .ok (s', (m', calls), .ok r) ∧
    calls.map Prod.fst = texts ∧ Repeats run statement texts n s' m'

section

variable {core : Text} (hsteady : Steady core) {s : Session} (hcatalog : s.catalog = {})
include hrun hsteady hcatalog

/-- Asked behind a statement that is counted over, the machine is sent the count, and the count can
be counted over in its turn. -/
theorem query_counts (hprevious : s.previous = some previous)
    (hrecount : recount? previous = some ("COUNT(1) as Computed " ++ core)) (m : σ) :
    ∃ s' m' calls r, s.query run.logged (m, []) (ofText "SELECT FOUND_ROWS()")
      = .ok (s', (m', calls), .ok r) ∧ calls.map Prod.fst = [countFront ++ core] ∧ s'.catalog = {} ∧
      s'.previous = some (countFront ++ core) := by
  obtain ⟨o, hconvert, hmain, hpreceding, hfollowing⟩ := hsteady.convert_question hrecount s.context
  have hsession := convert_of_empty hcatalog (hprevious ▸ hconvert)
  obtain ⟨m', calls, r, hquery, hcalls⟩ := query_of_convert hrun hsession hpreceding hfollowing m
  refine ⟨_, m', calls, r, hquery, ?_, hcatalog, ?_⟩
  · rw [hcalls, mainOf, hmain]
    rfl
  · show (o.lastMain? <|> s.previous) = _
    rw [Outcome.lastMain?, hmain]
    rfl

theorem repeats_count (n : Nat) (hprevious : s.previous = some previous)
    (hrecount : recount? previous = some ("COUNT(1) as Computed " ++ core)) (m : σ) :
    Repeats run (ofText "SELECT FOUND_ROWS()") [countFront ++ core] n s m := by
  induction n generalizing s previous m with
  | zero => trivial
  | succ n ih =>
    obtain ⟨s', m', calls, r, hquery, hcalls, hcatalog', hprevious'⟩ :=
      query_counts hrun hsteady hcatalog hprevious hrecount m
    exact ⟨s', m', calls, r, hquery, hcalls, ih hcatalog' hprevious' hsteady.recount m'⟩

end

/-- On a machine that never fails, while no table is known, a SELECT is carried out. If the
statement that was sent for it has a FROM outside parentheses and no semicolon, then however often
the found rows are asked for behind it, each time the machine is sent the count over the part from
the first such FROM up to the clause that ends it, blanks around it apart: as long as DAYOFMONTH is
not called in that part any more. -/
theorem query_repeats_count (run : Executor σ) (hrun : ∀ m sql, ∃ r, (run m sql).2 = .ok r) (m : σ)
    (s : Session) (hcatalog : s.catalog = {}) (statement : Statement)
    (hkind : Kind.ofText (normalizeEscapes statement.text) = .select)
    (hserialized : statement.isSerialized = false) :
    ∃ s₁ m₁ calls r, s.query run.logged (m, []) statement = .ok (s₁, (m₁, calls), .ok r) ∧
      ∀ p, calls.map Prod.fst = [p] → (findTop? (mask p) ["FROM"] 0).isSome = true → ';' ∉ p →
        ∃ front body rest, Counted p front body rest ∧
          ((∀ n, ¬ Functions.CalledAt "dayofmonth" .any body n) → ∀ n, Repeats run
            (ofText "SELECT FOUND_ROWS()") ["SELECT COUNT(1) as Computed " ++ body.trim] n
              s₁ m₁) := by
  obtain ⟨t, o, hconvert, hmain, hpreceding, hfollowing, -⟩ :=
    convert_select s.context hkind hserialized s.previous
  have hsession := convert_of_empty hcatalog hconvert
  obtain ⟨m₁, calls, r, hquery, hcalls⟩ := query_of_convert hrun hsession hpreceding hfollowing m
  refine ⟨_, m₁, calls, r, hquery, fun p hp hfrom hsemicolon => ?_⟩
  -- what was sent is the one main statement
  have hone : p = settle t := by
    have hmem : p ∈ mainOf o := by
      rw [← hcalls, hp]
      exact mem_singleton_self p
    rw [mainOf, hmain] at hmem
    exact mem_singleton.1 (mem_filter.1 hmem).1
  rw [hone] at hfrom hsemicolon ⊢
  obtain ⟨clause, hclause⟩ := isSome_iff_exists.1 hfrom
  have hprevious : (o.lastMain? <|> s.previous) = some (settle t) := by
    have hne : (settle t).isEmpty = false := by
      refine isEmpty_eq_false_iff.2 fun hempty => ?_
      rw [hempty] at hclause
      cases hclause
    rw [Outcome.lastMain?, hmain, reverse_singleton, find?_cons, hne]
    rfl
  obtain ⟨front, body, rest, hcounted⟩ : ∃ front body rest, Counted (settle t) front body rest :=
    ⟨_, _, _, counted_of_findTop? hclause rfl⟩
  refine ⟨front, body, rest, hcounted, fun hday n => ?_⟩
  have hbody : ';' ∉ body := fun hmem => hsemicolon (by rw [hcounted.cut]; simp [hmem])
  apply repeats_count hrun (hcounted.steady hbody hday) _ n _
    (hcounted.recount?_of_no_semicolon hbody)
  · exact hcatalog
  · exact hprevious

/-- The current time and an escape are replaced before the statement is sent for the first time, and
the limit and the last clause are not counted over. -/
theorem query_repeats_count_having : let s : Session := { context := ⟨{}, ⟨0, 0⟩⟩ }
    let p : Text := "SELECT TOP 3 a FROM t WHERE d < getdate() AND b LIKE 'x[_]%' HAVING a > 1"
    ∃ s₁ m₁ calls r, s.query DryRun.run.logged ({}, [])
        (ofText "SELECT a FROM t WHERE d < NOW() AND b LIKE 'x\\_%' HAVING a > 1 LIMIT 3")
        = .ok (s₁, (m₁, calls), .ok r) ∧
      calls.map Prod.fst = [p] ∧ (findTop? (mask p) ["FROM"] 0).isSome = true ∧ ';' ∉ p ∧
      ∀ n, Repeats DryRun.run (ofText "SELECT FOUND_ROWS()")
        ["SELECT COUNT(1) as Computed FROM t WHERE d < getdate() AND b LIKE 'x[_]%'"] n s₁ m₁ := by
  intro s p
  obtain ⟨s₁, m₁, calls, r, hquery, hall⟩ :=
    query_repeats_count DryRun.run (fun _ _ => ⟨_, rfl⟩) {} s rfl
    (ofText "SELECT a FROM t WHERE d < NOW() AND b LIKE 'x\\_%' HAVING a > 1 LIMIT 3")
      (by decide +kernel) rfl
  obtain ⟨x, hx, hsent⟩ : ∃ x, s.query DryRun.run.logged ({}, [])
      (ofText "SELECT a FROM t WHERE d < NOW() AND b LIKE 'x\\_%' HAVING a > 1 LIMIT 3") = .ok x ∧
      x.2.1.2.map Prod.fst = [p] := exists_of_toOption (by decide +kernel)
  obtain rfl := Except.ok.inj (hquery.symm.trans hx)
  have hfrom : (findTop? (mask p) ["FROM"] 0).isSome = true := by decide +kernel
  have hsemicolon : ';' ∉ p := by decide
  obtain ⟨front, body, rest, hcounted, hrepeats⟩ := hall p hsent hfrom hsemicolon
  have hmem : ∀ c ∈ body, c ∈ p := fun c hc => by rw [hcounted.cut]; simp [hc]
  have hbody : body.trim = "FROM t WHERE d < getdate() AND b LIKE 'x[_]%'" := by
    have hrecount : recount? p
        = some ("COUNT(1) as Computed " ++ "FROM t WHERE d < getdate() AND b LIKE 'x[_]%'") := by
          decide +kernel
    rw [hcounted.recount?_of_no_semicolon fun h => hsemicolon (hmem _ h)] at hrecount
    exact (append_right_inj _).1 (some.inj hrecount)
  refine ⟨s₁, m₁, calls, r, hquery, hsent, hfrom, hsemicolon, ?_⟩
  rw [hbody] at hrepeats
  refine hrepeats ?_
  -- there is no letter Y in the statement
  rintro n ⟨a, _, rfl, -, -, -, _, u, v, rfl, ⟨w, g, rfl, hw, -⟩, -⟩
  have hno : ∀ c ∈ p, foldChar c ≠ 'y' := by decide
  have hyes : 'y' ∈ w.map foldChar := by
    rw [hw]
    decide
  obtain ⟨c, hc, hy⟩ := mem_map.1 hyes
  exact hno c (hmem c (by simp [hc])) hy

/-- A statement with blobs is sent before the current time is put in, and of two calls of
DAYOFMONTH, one inside the other, the inner one is left. Both are replaced in the count, which is
then over another part. -/
theorem query_changes_count : let s : Session := { context := ⟨{}, ⟨0, 0⟩⟩ }
    let sent (first : Statement) : Option (List Text) :=
      ((s.query DryRun.run {} first).bind fun x =>
      x.1.query DryRun.run x.2.1 (ofText "SELECT FOUND_ROWS()")).toOption.map (·.2.1.statements)
    sent { text := "SELECT a FROM t WHERE d < NOW()", serialized := true }
      = some [("SELECT a FROM t WHERE d < NOW()" : Text),
        "SELECT COUNT(1) as Computed FROM t WHERE d < getdate()"] ∧
    sent (ofText "SELECT a FROM t WHERE dayofmonth(dayofmonth(d)) = 1")
      = some [("SELECT a as dom FROM t WHERE DATEPART(DD, dayofmonth(d)) = 1" : Text),
        "SELECT COUNT(1) as Computed FROM t WHERE DATEPART(DD, DATEPART(DD, d)) = 1"] :=
  ⟨by decide +kernel, by decide +kernel⟩

end Session

end Recast
