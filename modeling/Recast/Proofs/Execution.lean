import Mathlib
import Recast.Session

/-!
# What a session sends

A session only talks to its machine by sending statements, so what it does is told by the calls that
a machine gets which writes them down (`Executor.logged`): such a machine behaves like the one it is
made from (`runAll_logged`). The main statement, `query_runs`, says for every machine, whichever of
the calls it refuses, which statements are sent, in which order, and what comes back.
-/

namespace Recast

open List

variable {sql : Text} {c : Call} {back calls front : List Call} {o : Outcome} {r : Refusal}

/-- A statement that was sent, and the answer. -/
abbrev Call := Text × Except Refusal Result

namespace Call

def Succeeded (c : Call) : Prop := ∃ r, c.2 = .ok r

theorem not_succeeded (h : ¬ Call.Succeeded c) : ∃ sql r, c = (sql, .error r) := by
  obtain ⟨sql, answer⟩ := c
  cases answer with
  | error r => exact ⟨sql, r, rfl⟩
  | ok r => exact absurd ⟨r, rfl⟩ h

theorem failure?_eq_none : failure? c = none ↔ Call.Succeeded c := by
  obtain ⟨sql, answer⟩ := c
  cases answer with
  | error r => exact iff_of_false (by simp [failure?]) (by rintro ⟨_, h⟩; cases h)
  | ok r => exact iff_of_true rfl ⟨r, rfl⟩

def results (calls : List Call) : List Result := calls.filterMap fun c => c.2.toOption

end Call

/-! ### Machines that write down their calls -/

/-- The machine that also writes down every statement it is sent, with its answer. -/
def Executor.logged (run : Executor σ) : Executor (σ × List Call) := fun (m, log) sql =>
  (((run m sql).1, log ++ [(sql, (run m sql).2)]), (run m sql).2)

namespace Executor

variable (run : Executor σ)

theorem runAll_cons (m : σ) (sql : Text) (rest : List Text) :
    run.runAll m (sql :: rest) = ((run.runAll (run m sql).1 rest).1,
      (sql, (run m sql).2) :: (run.runAll (run m sql).1 rest).2) := rfl

theorem map_fst_runAll (m : σ) (l : List Text) : (run.runAll m l).2.map Prod.fst = l := by
  induction l generalizing m with
  | nil => rfl
  | cons sql l ih => rw [runAll_cons, map_cons, ih]

theorem runAll_logged (m : σ) (log : List Call) (l : List Text) :
    run.logged.runAll (m, log) l = (((run.runAll m l).1, log ++ (run.runAll m l).2),
      (run.runAll m l).2) := by
  induction l generalizing m log with
  | nil => simp [runAll]
  | cons sql l ih =>
    have hstep :
        run.logged (m, log) sql = (((run m sql).1, log ++ [(sql, (run m sql).2)]), (run m sql).2) :=
          rfl
    rw [runAll_cons, runAll_cons, hstep, ih, append_assoc, singleton_append]

end Executor

/-! ### All the answers in one -/

theorem gather_of_succeeded (h : ∀ c ∈ calls, Call.Succeeded c) :
    gather calls = .ok ((Call.results calls).foldl Result.append {}) := by
  have hnone : calls.findSome? failure? = none :=
    findSome?_eq_none_iff.2 fun c hc => Call.failure?_eq_none.2 (h c hc)
  rw [gather, hnone]
  rfl

theorem gather_of_failure (h : ∀ c ∈ front, Call.Succeeded c) :
    gather (front ++ (sql, .error r) :: back) = .error (r.failure sql) := by
  have hfront : front.findSome? failure? = none :=
    findSome?_eq_none_iff.2 fun c hc => Call.failure?_eq_none.2 (h c hc)
  have hfirst : (front ++ (sql, .error r) :: back).findSome? failure? = some (r.failure sql) := by
    rw [findSome?_append, hfront, findSome?_cons]
    rfl
  rw [gather, hfirst]

/-- If not all statements were carried out, one of them was the first that was not. -/
theorem exists_first_failure (h : ¬ ∀ c ∈ calls, Call.Succeeded c) :
    ∃ front sql r back, calls = front ++ (sql, .error r) :: back ∧
      ∀ c ∈ front, Call.Succeeded c := by
  induction calls with
  | nil => exact absurd (by simp) h
  | cons c calls ih =>
    by_cases hc : Call.Succeeded c
    · have hrest : ¬ ∀ c ∈ calls, Call.Succeeded c := by
        intro hall
        refine h fun x hx => ?_
        rcases mem_cons.1 hx with rfl | hx
        · exact hc
        · exact hall x hx
      obtain ⟨front, sql, r, back, rfl, hfront⟩ := ih hrest
      refine ⟨c :: front, sql, r, back, rfl, fun x hx => ?_⟩
      rcases mem_cons.1 hx with rfl | hx
      · exact hc
      · exact hfront x hx
    · obtain ⟨sql, r, rfl⟩ := Call.not_succeeded hc
      exact ⟨[], sql, r, calls, rfl, by simp⟩

theorem rows_foldl_append (a : Result) (results : List Result) :
    (results.foldl Result.append a).rows = a.rows ++ results.flatMap (·.rows) := by
  induction results generalizing a with
  | nil => simp
  | cons r results ih => rw [foldl_cons, ih, flatMap_cons, ← append_assoc]; rfl

theorem rowsAffected_foldl_append (a : Result) (results : List Result)
    (h : a.rowsAffected.toNat + (results.map (·.rowsAffected.toNat)).sum < 2 ^ 64) :
    (results.foldl Result.append a).rowsAffected.toNat
      = a.rowsAffected.toNat + (results.map (·.rowsAffected.toNat)).sum := by
  induction results generalizing a with
  | nil => simp
  | cons r results ih =>
    rw [map_cons, sum_cons] at h ⊢
    have hadd : (a.append r).rowsAffected.toNat = a.rowsAffected.toNat + r.rowsAffected.toNat := by
      show (a.rowsAffected + r.rowsAffected).toNat = _
      rw [UInt64.toNat_add, Nat.mod_eq_of_lt (by omega)]
    rw [foldl_cons, ih _ (by rw [hadd]; omega), hadd, Nat.add_assoc]

/-! ### What comes back -/

/-- The rows of a result in the expected shape, cut to the window of an outcome. -/
def Outcome.shaped (o : Outcome) (r : Result) : Result :=
  { r with rows := Window.apply o.window (r.rows.map Row.normalize) }

/-- The answer to the main statements of `o`, given the calls that were made for them. -/
structure Answered (o : Outcome) (main : List Call) (answer : Except ExecutionError Result) :
    Prop where
  /-- Nothing but the answers to the main statements counts. -/
  alone : answer = (gather main).map o.shaped
  failed_iff : (∃ e, answer = .error e) ↔ ∃ c ∈ main, ¬ Call.Succeeded c
  /-- The first failure is the answer: a refusal in execution as it is, any other one with the
  statement that was refused. -/
  first :
      ∀ front sql r back, main = front ++ (sql, .error r) :: back →
      (∀ c ∈ front, Call.Succeeded c) →
    (∀ statement message, r = .execution statement message → answer = .error ⟨statement, message⟩) ∧
    ((∀ statement message, r ≠ .execution statement message) → answer = .error ⟨sql, r.text⟩)
  rows : ∀ r, answer = .ok r →
      r.rows = Window.apply o.window (((Call.results main).flatMap (·.rows)).map Row.normalize)
  affected : ∀ r, answer = .ok r → ((Call.results main).map (·.rowsAffected.toNat)).sum < 2 ^ 64 →
    r.rowsAffected.toNat = ((Call.results main).map (·.rowsAffected.toNat)).sum

/-- Where nothing fails the results are the answer. -/
theorem answered_of_succeeded (o : Outcome) {main : List Call} (h : ∀ c ∈ main, Call.Succeeded c) :
    Answered o main ((gather main).map o.shaped) := by
  rw [gather_of_succeeded h]
  refine ⟨by rw [gather_of_succeeded h], ?_, ?_, ?_, ?_⟩
  · refine iff_of_false (by rintro ⟨e, he⟩; cases he) ?_
    rintro ⟨c, hc, hfailed⟩
    exact hfailed (h c hc)
  · rintro front sql r back rfl -
    obtain ⟨_, hr⟩ := h (sql, .error r) (by simp)
    cases hr
  · rintro r ⟨⟩
    simp only [Outcome.shaped, rows_foldl_append, nil_append]
  · rintro r ⟨⟩ hsum
    simpa [Outcome.shaped] using
      rowsAffected_foldl_append {} (Call.results main) (by simpa using hsum)

/-- The first failure is the answer. -/
theorem answered_of_failure (o : Outcome) (h : ∀ c ∈ front, Call.Succeeded c) :
    Answered o (front ++ (sql, .error r) :: back)
      ((gather (front ++ (sql, .error r) :: back)).map o.shaped) := by
  have hgather : gather (front ++ (sql, .error r) :: back) = .error (r.failure sql) :=
    gather_of_failure h
  rw [hgather]
  refine ⟨by rw [hgather], ?_, ?_, ?_, ?_⟩
  · refine iff_of_true ⟨_, rfl⟩ ⟨(sql, .error r), by simp, ?_⟩
    rintro ⟨_, hr⟩
    cases hr
  · intro front' sql' r' back' hsplit hfront'
    have hsame : r.failure sql = r'.failure sql' := by
      rw [hsplit, gather_of_failure hfront'] at hgather
      exact (Except.error.inj hgather).symm
    rw [hsame]
    refine ⟨?_, fun hother => ?_⟩
    · rintro statement message rfl
      rfl
    · cases r' with
      | execution statement message => exact absurd rfl (hother statement message)
      | _ => rfl
  all_goals rintro r ⟨⟩

theorem answered_gather (o : Outcome) (main : List Call) :
    Answered o main ((gather main).map o.shaped) := by
  by_cases h : ∀ c ∈ main, Call.Succeeded c
  · exact answered_of_succeeded o h
  · obtain ⟨front, sql, r, back, rfl, hfront⟩ := exists_first_failure h
    exact answered_of_failure o hfront

/-! ### Running an outcome -/

namespace Session

/-- What running the statements of `o` comes to, where `before`, `main` and `after` are the calls
that were made, one part behind the other, in a session that was `s` and is now `s'`. -/
structure Ran (o : Outcome) (s s' : Session) (before main after : List Call)
    (answer : Except ExecutionError Result) : Prop extends Answered o main answer where
  before_sent : before.map Prod.fst = o.preceding
  main_sent : main.map Prod.fst = o.main.filter fun t => !t.isBlankText
  after_sent : (∀ c ∈ main, Call.Succeeded c) → after.map Prod.fst = o.following.map (·.sql)
  after_sent_failed : (¬ ∀ c ∈ main, Call.Succeeded c) →
    after.map Prod.fst = (o.following.filter (·.policy = .always)).map (·.sql)
  kept : ∀ e, answer = .error e → s'.previous = s.previous
  remembered : ∀ r, answer = .ok r → s'.previous = o.lastMain?.or s.previous

theorem followingOf_false (o : Outcome) : followingOf o false = o.following.map (·.sql) := by
  have hall : o.following.filter (fun f => !false || f.policy == .always) = o.following :=
    filter_eq_self.2 fun _ _ => rfl
  rw [followingOf, hall]

theorem execute_of_ok {run : Executor σ} {m : σ} {r : Result} (s : Session)
    (h : gather (run.runAll (run.runAll m o.preceding).1 (mainOf o)).2 = .ok r) :
    execute run m s o = ({ s with previous := o.lastMain? <|> s.previous },
      (run.runAll (run.runAll (run.runAll m o.preceding).1 (mainOf o)).1 (followingOf o false)).1,
      .ok (o.shaped r)) := by
  simp only [execute, h, Outcome.shaped]

theorem execute_of_error {run : Executor σ} {m : σ} {e : ExecutionError} (s : Session)
    (h : gather (run.runAll (run.runAll m o.preceding).1 (mainOf o)).2 = .error e) :
    execute run m s o =
      (s, (run.runAll (run.runAll (run.runAll m o.preceding).1 (mainOf o)).1
        (followingOf o true)).1,
      .error e) := by
  simp only [execute, h]

/-- Running an outcome sends its statements in three parts; a machine that writes down its calls has
written down these. -/
theorem execute_runs (run : Executor σ) (m : σ) (s : Session) (o : Outcome) :
    ∃ s' m' answer before main after, execute run m s o = (s', m', answer) ∧
      execute run.logged (m, []) s o = (s', (m', before ++ main ++ after), answer) ∧
      Ran o s s' before main after answer := by
  let before := run.runAll m o.preceding
  let main := run.runAll before.1 (mainOf o)
  have hbefore : before.2.map Prod.fst = o.preceding := run.map_fst_runAll _ _
  have hmain : main.2.map Prod.fst = o.main.filter fun t => !t.isBlankText :=
    run.map_fst_runAll _ _
  have hlog : run.logged.runAll (m, []) o.preceding = ((before.1, before.2), before.2) :=
    run.runAll_logged m [] o.preceding
  have hlog' : run.logged.runAll (before.1, before.2) (mainOf o)
      = ((main.1, before.2 ++ main.2), main.2) := run.runAll_logged _ _ _
  have hanswered := answered_gather o main.2
  -- which of the following statements are sent depends on the answers to the main ones
  by_cases hall : ∀ c ∈ main.2, Call.Succeeded c
  · have hgather := gather_of_succeeded hall
    rw [hgather] at hanswered
    have hafter := run.map_fst_runAll main.1 (followingOf o false)
    rw [followingOf_false] at hafter
    refine ⟨_, _, _, before.2, main.2, _, execute_of_ok s hgather, ?_, hanswered, hbefore, hmain,
      fun _ => hafter, fun h => absurd hall h, ?_, ?_⟩
    · rw [execute_of_ok s (by rw [hlog, hlog']; exact hgather), hlog, hlog', run.runAll_logged,
        followingOf_false]
    · rintro e ⟨⟩
    · rintro r ⟨⟩
      show (o.lastMain? <|> s.previous) = _
      cases o.lastMain? <;> rfl
  · obtain ⟨front, sql, r, back, hsplit, hfront⟩ := exists_first_failure hall
    have hgather : gather main.2 = .error (r.failure sql) := by
      rw [hsplit, gather_of_failure hfront]
    rw [hgather] at hanswered
    have hafter := run.map_fst_runAll main.1 (followingOf o true)
    refine ⟨_, _, _, before.2, main.2, _, execute_of_error s hgather, ?_, hanswered, hbefore, hmain,
      fun h => absurd h hall, fun _ => hafter, fun _ _ => rfl, ?_⟩
    · rw [execute_of_error s (by rw [hlog, hlog']; exact hgather), hlog, hlog', run.runAll_logged]
    · rintro r ⟨⟩

theorem query_eq (run : Executor σ) (m : σ) (s : Session) (statement : Statement) :
    s.query run m statement = (s.convert statement).map fun r => execute run m r.2 r.1 := by
  rw [query]
  cases s.convert statement <;> rfl

theorem previous_of_convert {s s' : Session} {statement : Statement}
    (h : s.convert statement = .ok (o, s')) : s'.previous = s.previous := by
  rw [convert] at h
  cases hc : Recast.convert s.context s.catalog statement s.previous with
  | error f =>
    rw [hc] at h
    cases h
  | ok r =>
    rw [hc] at h
    cases h
    rfl

/-- The law of a session, for every machine and whichever of its calls fail. If the conversion comes
to an outcome, the machine is sent the preceding statements, the main ones that are not blank and
the following ones; the answer depends on the answers to the main statements alone, and the session
remembers its last main statement only if all of them were carried out. -/
theorem query_runs (run : Executor σ) (m : σ) (s : Session) (statement : Statement) :
    match s.convert statement with
    | .error f => s.query run m statement = .error f
    | .ok (o, _) => ∃ s' m' answer before main after, s.query run m statement =
      .ok (s', m', answer) ∧
      s.query run.logged (m, []) statement = .ok (s', (m', before ++ main ++ after), answer) ∧
      Ran o s s' before main after answer := by
  cases hconvert : s.convert statement with
  | error f => simp [query_eq, hconvert, Except.map]
  | ok r =>
    obtain ⟨o, s₁⟩ := r
    have hprevious := previous_of_convert hconvert
    obtain ⟨s', m', answer, before, main, after, hrun, hlogged, hran⟩ := execute_runs run m s₁ o
    refine ⟨s', m', answer, before, main, after, ?_, ?_, ?_⟩
    · rw [query_eq, hconvert, Except.map, hrun]
    · rw [query_eq, hconvert, Except.map, hlogged]
    · exact { hran with
        kept := fun e he => (hran.kept e he).trans hprevious
        remembered := fun r hr => by rw [hran.remembered r hr, hprevious] }

end Session

end Recast
