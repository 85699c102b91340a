import Recast.Proofs.Execution
import Recast.Proofs.Fronts
import Recast.Proofs.Pipeline

/-!
# The identity switch

Numbers may be given in an identity column only between the two turns of a switch, and a table whose
switch stays on is a table that takes any number. Drafts come in three forms (`Scheduled`): one
around which nothing is turned, one of an INSERT that is turned around, and one of an UPDATE that
became a copy and a deletion. Every pass behind the identity passes keeps the form
(`Scheduled.run`), so the outcome has it too, and with it every run of a session
(`query_switches_off`).
-/

namespace Recast

open Except List Text
open Option hiding guard

variable {t : Text} {context : Context} {d e : Draft} {answer : Except ExecutionError Result}
  {after before main : List Call} {o : Outcome} {p : Pass} {s s' : Session} {settings : Settings}

namespace Identity

/-- A statement that turns a switch, on or off. -/
def IsToggle (t : Text) : Prop := ("SET IDENTITY_INSERT " : Text) <+: t

def IsDeletion (t : Text) : Prop := ("DELETE" : Text) <+: t

/-- A statement that neither turns a switch nor deletes. -/
structure Plain (t : Text) : Prop where
  no_toggle : ¬ IsToggle t
  no_deletion : ¬ IsDeletion t

theorem plain_of_head {c : Char} (h : c ≠ 'S') (h' : c ≠ 'D') : Plain (c :: t) := by
  constructor
  · rintro ⟨r, hr⟩
    exact h (cons.inj hr).1.symm
  · rintro ⟨r, hr⟩
    exact h' (cons.inj hr).1.symm

theorem not_isDeletion_toggle (table : Text) (on : Bool) : ¬ IsDeletion (toggle table on) := by
  rintro ⟨r, hr⟩
  cases hr

/-! ### What passes schedule -/

/-- A front that TOP does not go into either, of an UPDATE or a SELECT. -/
structure Steady (kind : Kind) (front : Text) : Prop where
  firm : Firm front
  kinds : kind = .update ∨ kind = .select
  top : ∀ n verb top, Limit.top? n kind = some (verb, top) →
    ∀ t, Kept front t → Kept front (Limit.insertTop t kind verb top)

theorem Steady.not_of_ne {kind : Kind} {front : Text} (h : Steady kind front)
    (hkind : kind ≠ .update ∧ kind ≠ .select) : False :=
  h.kinds.elim hkind.1 hkind.2

theorem steady_verb : Steady .update verb where
  firm := firm_verb
  kinds := .inl rfl
  top n verb top htop t ht := by
    cases htop
    exact Limit.kept_insertTop firm_verb ht (by decide) _

/-- Drafts that a pass may make of `d`: it may add statements to run after it, but none to an
UPDATE, and it leaves a steady front, such as the first word of an UPDATE that has become an
INSERT. -/
structure Framed (d e : Draft) : Prop where
  kind : e.kind = d.kind
  verify : e.verify = d.verify
  preceding : e.preceding = d.preceding
  following :
      ∃ more, e.following = d.following ++ more ∧ (∀ f ∈ more, Plain f.sql) ∧
      (d.kind = .update → more = [])
  front : ∀ front, Steady d.kind front → Kept front d.text → Kept front e.text

theorem Framed.record (h : Framed d e) (p : Pass) (before after : Text) :
    Framed d (e.record p before after) := ⟨h.kind, h.verify, h.preceding, h.following, h.front⟩

theorem framed_of_text (h : ∀ front, Steady d.kind front → Kept front d.text → Kept front t) :
    Framed d { d with text := t } := ⟨rfl, rfl, rfl, ⟨[], by simp, by simp, by simp⟩, h⟩

/-- A limit adds nothing to the schedule. -/
theorem framed_limit (d : Draft) : Framed d (Limit.apply d) := by
  have hfront (front : Text) (hs : Steady d.kind front) (h : Kept front d.text) :
      Kept front (Limit.apply d).text :=
    Limit.kept_apply hs.firm h rfl hs.top
  rw [Limit.apply] at hfront ⊢
  cases hlimited : Limit.limited? d with
  | none => exact framed_of_text fun _ _ h => h
  | some e =>
    rw [hlimited] at hfront
    obtain ⟨_, -, _, -, _, -, w, -, hlimited⟩ := of_bind₄ hlimited
    split at hlimited
    · obtain ⟨_, -, hlimited⟩ := bind_eq_some_iff.1 hlimited
      cases hlimited
      exact framed_of_text hfront
    · obtain ⟨_, -, hlimited⟩ := bind_eq_some_iff.1 hlimited
      cases hlimited
      exact ⟨rfl, rfl, rfl, ⟨[], by simp, by simp, by simp⟩, hfront⟩

theorem framed_create (hkind : d.kind ≠ .update ∧ d.kind ≠ .select)
    (h : CreateTable.create settings d = .ok e) : Framed d e := by
  obtain ⟨definition, -, h⟩ := bind_eq_ok h
  split at h
  · cases h
    exact framed_of_text fun _ _ h => h
  · next table list =>
    obtain ⟨body, -, h⟩ := bind_eq_ok h
    cases h
    refine ⟨rfl, rfl, rfl, ⟨_, rfl, fun f hf => ?_, fun h => absurd h hkind.1⟩,
      fun _ hs => (hs.not_of_ne hkind).elim⟩
    obtain ⟨sql, hsql, rfl⟩ := mem_map.1 hf
    obtain ⟨columns, -, rfl⟩ := mem_map.1 hsql
    exact plain_of_head (by decide) (by decide)

theorem framed_createTable (h : CreateTable.apply settings d = .ok e) : Framed d e := by
  rw [CreateTable.apply] at h
  split at h
  · next hkind => exact framed_create (by rw [hkind]; decide) h
  · cases h
    exact ⟨rfl, rfl, rfl, ⟨[], by simp, by simp, by simp⟩, fun _ _ h => h⟩
  · cases h
    exact framed_of_text fun _ _ h => h

/-- A row whose key is there already is updated afterwards. -/
theorem framed_onDuplicateKey (hkind : d.kind = .insert) : Framed d (DuplicateKey.apply d) := by
  have hno : d.kind ≠ .update ∧ d.kind ≠ .select := by rw [hkind]; decide
  rw [DuplicateKey.apply]
  cases hsplit : DuplicateKey.split? d.catalog d.text with
  | none => exact framed_of_text fun _ _ h => h
  | some r =>
    refine ⟨rfl, rfl, rfl, ⟨_, rfl, fun f hf => ?_, fun h => absurd h hno.1⟩,
      fun _ hs => (hs.not_of_ne hno).elim⟩
    obtain ⟨sql, hsql, rfl⟩ := mem_map.1 hf
    obtain ⟨_, -, _, -, _, -, _, -, hsplit⟩ := of_bind₄ hsplit
    obtain ⟨_, -, _, hupdates, hsplit⟩ := of_bind₂ hsplit
    cases hsplit
    obtain ⟨_, -, hupdate⟩ := exists_of_mem_mapM hupdates hsql
    obtain ⟨_, -, _, -, _, -, _, -, hupdate⟩ := of_bind₄ hupdate
    cases hupdate
    exact plain_of_head (by decide) (by decide)

/-- The passes that leave the schedule of a draft alone, as far as switches go. -/
def others : List Pass := Pass.pipeline.drop 3 ++ [.onDuplicateKey]

/-- Each of these passes makes a framed draft. Most of them change the text only, and a lemma about
the pass says that they leave the front. -/
theorem framed_apply (hp : p ∈ others) (h : p.apply context d = .ok e) : Framed d e := by
  cases p with
  | general | identityInsert | identityUpdate | splitInsert | verify =>
    exact absurd hp (by decide)
  | dateArithmetic =>
    obtain rfl := ok.inj h
    exact framed_of_text fun _ hs h => Functions.kept_dateArithmetic hs.firm h
  | conditionalUnwrap =>
    obtain rfl := ok.inj h
    exact framed_of_text fun _ hs h => Functions.kept_conditionals hs.firm h
  | rowCount =>
    obtain rfl := ok.inj h
    exact framed_of_text fun _ hs h => FoundRows.kept_apply hs.firm h _
  | limit =>
    obtain rfl := ok.inj h
    exact framed_limit d
  | nowFunctions =>
    obtain rfl := ok.inj h
    exact framed_of_text fun _ hs h => Functions.kept_currentTime hs.firm h
  | distinctOrderBy =>
    obtain rfl := ok.inj h
    exact framed_of_text fun _ hs h => h.getD fun r hr => Ordering.kept_distinct? hs.firm h hr
  | sortCast =>
    obtain rfl := ok.inj h
    exact framed_of_text fun _ hs h => h.getD fun r hr => Ordering.kept_cast hs.firm h hr
  | escapedWildcard =>
    obtain rfl := ok.inj h
    exact framed_of_text fun _ hs h => Wildcard.kept_apply hs.firm h
  | groupByElision =>
    obtain rfl := ok.inj h
    exact framed_of_text fun _ hs h => Grouping.kept_apply hs.firm h
  | nullDatetime =>
    obtain rfl := ok.inj h
    split
    · next hkind => exact framed_of_text fun _ hs => (hs.not_of_ne (by rw [hkind]; decide)).elim
    · exact framed_of_text fun _ _ h => h
  | incompatibleOperator =>
    obtain rfl := ok.inj h
    exact framed_of_text fun _ hs h => h.getD fun r hr => Comparison.kept_byLike? hs.firm h hr
  | createTable => exact framed_createTable h
  | onDuplicateKey =>
    obtain rfl := ok.inj h
    split
    · next hkind => exact framed_onDuplicateKey hkind
    · exact framed_of_text fun _ _ h => h

theorem framed_run (hp : p ∈ others) (h : Pass.run context d p = .ok e) : Framed d e := by
  obtain ⟨f, hf, rfl | rfl⟩ := Pass.exists_of_run h
  · exact framed_apply hp hf
  · exact (framed_apply hp hf).record _ _ _

/-! ### The three forms of a draft -/

/-- What is scheduled around a draft, as far as switches and deletions go. -/
inductive Scheduled (d : Draft) : Prop
  | quiet : d.preceding = [] → (∀ f ∈ d.following, Plain f.sql) → Scheduled d
  | inserted (table : Text) (back : List Following) : d.kind = .insert →
    d.preceding = [toggle table true] → d.following = ⟨toggle table false, .always⟩ :: back →
    (∀ f ∈ back, Plain f.sql) → Scheduled d
  | moved (table place : Text) : d.kind = .update → d.verify = false → Kept verb d.text →
    d.preceding = [toggle table true] →
    d.following = [⟨"DELETE" ++ place, .onSuccess⟩, ⟨toggle table false, .always⟩] → Scheduled d

/-- A pass that leaves the schedule alone keeps its form. -/
theorem Scheduled.framed (h : Scheduled d) (hframed : Framed d e) : Scheduled e := by
  obtain ⟨more, hmore, hplain, hnone⟩ := hframed.following
  cases h with
  | quiet hpreceding hfollowing =>
    refine .quiet (hframed.preceding.trans hpreceding) fun f hf => ?_
    rw [hmore] at hf
    rcases mem_append.1 hf with hf | hf
    · exact hfollowing f hf
    · exact hplain f hf
  | inserted table back hkind hpreceding hfollowing hback =>
    refine .inserted table (back ++ more) (hframed.kind.trans hkind)
      (hframed.preceding.trans hpreceding)
      (by rw [hmore, hfollowing, cons_append]) fun f hf => ?_
    rcases mem_append.1 hf with hf | hf
    · exact hback f hf
    · exact hplain f hf
  | moved table place hkind hverify hfront hpreceding hfollowing =>
    refine .moved table place (hframed.kind.trans hkind) (hframed.verify.trans hverify)
      (hframed.front verb (by rw [hkind]; exact steady_verb) hfront)
        (hframed.preceding.trans hpreceding) ?_
    rw [hmore, hnone hkind, append_nil, hfollowing]

/-- A draft around which nothing is scheduled yet. -/
structure Bare (d : Draft) : Prop where
  preceding : d.preceding = []
  following : d.following = []

theorem Bare.scheduled (h : Bare d) : Scheduled d :=
  .quiet h.preceding (by rw [h.following]; simp)

theorem Bare.general (h : Bare d) (hrun : Pass.run context d .general = .ok e) : Bare e := by
  obtain ⟨f, hf, rfl | rfl⟩ := Pass.exists_of_run hrun
  · cases hf
    exact ⟨h.preceding, h.following⟩
  · cases hf
    exact ⟨h.preceding, h.following⟩

theorem Bare.aroundInsert (h : Bare d) : Bare (Identity.aroundInsert d) ∨
    (Identity.aroundInsert d).kind = .insert ∧ Scheduled (Identity.aroundInsert d) := by
  rw [Identity.aroundInsert]
  split
  · next table htable =>
    obtain ⟨_, hkind, -⟩ := bind_eq_some_iff.1 htable
    have hkind : d.kind = .insert := by simpa [guard] using hkind
    refine .inr ⟨hkind, .inserted table [] hkind ?_ ?_ (by simp)⟩
    · show d.preceding ++ [toggle table true] = _
      rw [h.preceding, nil_append]
    · show d.following ++ [_] = _
      rw [h.following, nil_append]
  · exact .inl h

/-- The switch is turned around a copy, and the deletion waits for it, or nothing is done. -/
theorem Bare.ofUpdate (h : Bare d) : Scheduled (Identity.ofUpdate d) := by
  rw [Identity.ofUpdate]
  cases hmove : moveRow? d with
  | none => exact h.scheduled
  | some e =>
    obtain ⟨_, hkind, hmove⟩ := bind_eq_some_iff.1 hmove
    have hkind : d.kind = .update := by simpa [guard] using hkind
    obtain ⟨r, -, identity, -, _, -, hmove⟩ := of_bind₃ hmove
    obtain ⟨_, -, _, -, hmove⟩ := of_bind₂ hmove
    obtain rfl := some.inj hmove
    let place : Text := " " ++ r.table ++ " WHERE " ++ identity ++ " = " ++ r.source
    refine .moved r.table place hkind rfl ⟨_, rfl, rfl⟩ ?_ ?_
    · show d.preceding ++ [toggle r.table true] = _
      rw [h.preceding, nil_append]
    · show d.following ++ [_] ++ [_] = _
      rw [h.following, nil_append, singleton_append]

theorem ofUpdate_of_insert (h : d.kind = .insert) : ofUpdate d = d := by
  rw [ofUpdate, moveRow?, h]
  rfl

theorem Scheduled.record (h : Scheduled d) (p : Pass) (before after : Text) :
    Scheduled (d.record p before after) := by
  have hself : Framed d d := framed_of_text fun _ _ h => h
  exact h.framed (hself.record p before after)

/-- The pipeline gives a draft one of the three forms. -/
theorem scheduled_of_pipeline (h : Bare d)
    (hrun : Pass.pipeline.foldlM (Pass.run context) d = .ok e) : Scheduled e := by
  obtain ⟨d₁, h₁, hrun⟩ := bind_eq_ok hrun
  obtain ⟨d₂, h₂, hrun⟩ := bind_eq_ok hrun
  obtain ⟨d₃, h₃, hrun⟩ := bind_eq_ok hrun
  have hbare := h.general h₁
  obtain ⟨f, hf, hd₂⟩ := Pass.exists_of_run h₂
  obtain ⟨g, hg, hd₃⟩ := Pass.exists_of_run h₃
  have h₃ : Scheduled d₃ := by
    obtain rfl := ok.inj hf
    obtain rfl := ok.inj hg
    have hupdated : Scheduled (ofUpdate d₂) := by
      rcases hbare.aroundInsert with hbare | ⟨hkind, hscheduled⟩
      · refine Bare.ofUpdate ?_
        rcases hd₂ with rfl | rfl
        · exact hbare
        · exact ⟨hbare.preceding, hbare.following⟩
      · rcases hd₂ with rfl | rfl
        · rw [ofUpdate_of_insert hkind]
          exact hscheduled
        · rw [ofUpdate_of_insert (by exact hkind)]
          exact hscheduled.record _ _ _
    rcases hd₃ with rfl | rfl
    · exact hupdated
    · exact hupdated.record _ _ _
  refine foldlM_keeps (fun p hp b b' hb hstep => ?_) h₃ hrun
  exact hb.framed (framed_run (mem_append_left _ hp) hstep)

/-! ### Outcomes -/

/-- The switch for a table is turned on before the main statements, and off behind them: once, come
what may, and behind the deletion if there is one, which waits for the copy. -/
structure Switched (o : Outcome) (table : Text) (front back : List Following) : Prop where
  on : o.preceding = ["SET IDENTITY_INSERT " ++ table ++ " ON"]
  off : o.following = front ++ ⟨"SET IDENTITY_INSERT " ++ table ++ " OFF", .always⟩ :: back
  once : ∀ f ∈ front ++ back, ¬ IsToggle f.sql
  deletions : ∀ f ∈ o.following, IsDeletion f.sql → f ∈ front ∧ f.policy = .onSuccess
  copied : (∃ f ∈ o.following, IsDeletion f.sql) → ∃ t, o.main = [t] ∧ verb <+: t

/-- No switch is turned, and nothing is deleted. -/
structure Untouched (o : Outcome) : Prop where
  preceding : o.preceding = []
  following : ∀ f ∈ o.following, Plain f.sql

/-- A scheduled outcome turns a switch on and off again, or none. -/
theorem switched_or_untouched (h : Scheduled d) {main : List Text}
    (hmain : d.kind = .update → d.verify = false → main = [d.text]) :
    Untouched (d.outcome main) ∨ ∃ table front back, Switched (d.outcome main) table front
      back := by
  cases h with
  | quiet hpreceding hfollowing => exact .inl ⟨hpreceding, hfollowing⟩
  | inserted table back hkind hpreceding hfollowing hback =>
    have hno : ∀ f ∈ d.following, ¬ IsDeletion f.sql := by
      intro f hf
      rw [hfollowing] at hf
      rcases mem_cons.1 hf with rfl | hf
      · exact not_isDeletion_toggle table false
      · exact (hback f hf).no_deletion
    refine .inr ⟨table, [], back, hpreceding, hfollowing, fun f hf => (hback f hf).no_toggle,
      fun f hf h => absurd h (hno f hf), ?_⟩
    rintro ⟨f, hf, h⟩
    exact absurd h (hno f hf)
  | moved table place hkind hverify hfront hpreceding hfollowing =>
    refine .inr ⟨table, [⟨"DELETE" ++ place, .onSuccess⟩], [], hpreceding, hfollowing, ?_,
      ?_, fun _ =>
      ⟨d.text, hmain hkind hverify, hfront.imp fun r hr => hr.1.symm⟩⟩
    · intro f hf
      obtain rfl := mem_singleton.1 hf
      rintro ⟨r, hr⟩
      cases hr
    · intro f hf h
      have hf : f ∈ d.following := hf
      rw [hfollowing] at hf
      rcases mem_cons.1 hf with rfl | hf
      · exact ⟨by simp, rfl⟩
      · obtain rfl := mem_singleton.1 hf
        exact absurd h (not_isDeletion_toggle table false)

theorem Scheduled.splitRows (h : Scheduled d) : Scheduled d.splitRows.1 := by
  rw [Draft.splitRows]
  split
  · exact h.record _ _ _
  · exact h

theorem Scheduled.verified (h : Scheduled d) (main : List Text) :
    Scheduled (d.verified main).1 := by
  rw [Draft.verified]
  split
  · simp only
    split
    · exact h
    · exact h.record _ _ _
  · exact h

theorem verify_verified (d : Draft) (main : List Text) : (d.verified main).1.verify = d.verify := by
  rw [Draft.verified]
  split
  · simp only
    split <;> rfl
  · rfl

theorem kind_verified (d : Draft) (main : List Text) : (d.verified main).1.kind = d.kind := by
  rw [Draft.verified]
  split
  · simp only
    split <;> rfl
  · rfl

theorem kind_splitRows (d : Draft) : d.splitRows.1.kind = d.kind := by
  rw [Draft.splitRows]
  split <;> rfl

/-- The switch is turned around the main statements of every outcome, or not at all. -/
theorem convert_switches {catalog catalog' : Catalog} {s : Statement} {previous : Option Text}
    (h : convert context catalog s previous = .ok (o, catalog')) :
    Untouched o ∨ ∃ table front back, Switched o table front back := by
  have hbare : Bare (.bound context catalog s previous) := ⟨rfl, rfl⟩
  rcases exists_of_convert h with ⟨-, d, e, hd, he, rfl, -⟩ | ⟨-, d, e, main, hd, hfinished, rfl, -⟩
  · have hgeneral := (hbare.general hd).scheduled
    rcases he with ⟨-, he⟩ | ⟨-, rfl⟩
    · exact switched_or_untouched (hgeneral.framed (framed_run (by decide) he)) fun _ _ => rfl
    · exact switched_or_untouched hgeneral fun _ _ => rfl
  · have hscheduled := scheduled_of_pipeline hbare hd
    cases hfinished with
    | insert hkind hrun =>
      have hframed := framed_run (by decide) hrun
      refine switched_or_untouched ((hscheduled.framed hframed).splitRows.verified _)
        fun hupdate => ?_
      simp [kind_verified, kind_splitRows, hframed.kind, hkind] at hupdate
    | other hkind =>
      refine switched_or_untouched (hscheduled.verified _) fun _ hverify => ?_
      rw [verify_verified] at hverify
      simp [Draft.verified, hverify]

end Identity

/-! ### Runs -/

namespace Session

open Identity

theorem exists_convert {statement : Statement} (h : s.convert statement = .ok (o, s')) :
    ∃ catalog, Recast.convert s.context s.catalog statement s.previous = .ok (o, catalog) := by
  obtain ⟨⟨o', catalog⟩, hr, h⟩ := bind_eq_ok h
  cases h
  exact ⟨catalog, hr⟩

theorem Ran.mem_after (h : Ran o s s' before main after answer) {f : Following}
    (hf : f ∈ o.following) (halways : f.policy = .always) : f.sql ∈ after.map Prod.fst := by
  by_cases hall : ∀ c ∈ main, Call.Succeeded c
  · rw [h.after_sent hall]
    exact mem_map_of_mem hf
  · rw [h.after_sent_failed hall]
    exact mem_map_of_mem (mem_filter.2 ⟨hf, by simpa using halways⟩)

/-- What is sent afterwards is scheduled, and if it is not to run always, all the main statements
have succeeded. -/
theorem Ran.exists_following (h : Ran o s s' before main after answer) {c : Call} (hc : c ∈ after) :
    ∃ f ∈ o.following, f.sql = c.1 ∧ (f.policy = .onSuccess → ∀ c ∈ main, Call.Succeeded c) := by
  have hsql := mem_map_of_mem (f := Prod.fst) hc
  by_cases hall : ∀ c ∈ main, Call.Succeeded c
  · rw [h.after_sent hall] at hsql
    obtain ⟨f, hf, heq⟩ := mem_map.1 hsql
    exact ⟨f, hf, heq, fun _ => hall⟩
  · rw [h.after_sent_failed hall] at hsql
    obtain ⟨f, hf, heq⟩ := mem_map.1 hsql
    obtain ⟨hf, halways⟩ := mem_filter.1 hf
    refine ⟨f, hf, heq, fun hsuccess => ?_⟩
    simp [hsuccess] at halways

theorem Ran.main_eq (h : Ran o s s' before main after answer) (hmain : o.main = [t])
    (ht : verb <+: t) : ∃ a, main = [(t, a)] := by
  have hblank : t.isBlankText = false := by
    obtain ⟨r, rfl⟩ := ht
    rfl
  have hsent := h.main_sent
  rw [hmain, filter_cons, if_pos (by simp [hblank])] at hsent
  obtain ⟨⟨t', a⟩, rest, rfl, ht', hrest⟩ := map_eq_cons_iff.1 hsent
  obtain rfl := map_eq_nil_iff.1 hrest
  cases ht'
  exact ⟨a, rfl⟩

/-- The identity switch is always turned off again. Every outcome either turns no switch, or turns
one on before its main statements and the same one off behind them; and in every run, whichever of
its calls the machine refuses, each switch that was turned on is turned off after the main
statements, and rows are deleted only if the INSERT that copies them was carried out. -/
theorem query_switches_off (run : Executor σ) (m : σ) (s : Session) (statement : Statement) :
    match s.convert statement with
    | .error f => s.query run m statement = .error f
    | .ok (o, _) => (Untouched o ∨ ∃ table front back, Switched o table front back) ∧
      ∃ s' m' answer before main after,
        s.query run m statement = .ok (s', m', answer) ∧
        s.query run.logged (m, []) statement = .ok (s', (m', before ++ main ++ after), answer) ∧
        before.map Prod.fst = o.preceding ∧
        main.map Prod.fst = mainOf o ∧
        (∀ table : Text, ("SET IDENTITY_INSERT " ++ table ++ " ON" : Text) ∈ before.map Prod.fst →
          ("SET IDENTITY_INSERT " ++ table ++ " OFF" : Text) ∈ after.map Prod.fst) ∧
        ∀ c ∈ after, IsDeletion c.1 → ∃ t r, verb <+: t ∧ main = [(t, .ok r)] := by
  cases hconvert : s.convert statement with
  | error f => simp [query_eq, hconvert, Except.map]
  | ok r =>
    obtain ⟨o, s₁⟩ := r
    obtain ⟨catalog, hc⟩ := exists_convert hconvert
    have hswitched := convert_switches hc
    obtain ⟨s', m', answer, before, main, after, hrun, hlogged, hran⟩ := execute_runs run m s₁ o
    refine ⟨hswitched, s', m', answer, before, main, after, ?_, ?_, hran.before_sent,
      hran.main_sent, fun table htable => ?_, fun c hc hdeletion => ?_⟩
    · rw [query_eq, hconvert, Except.map, hrun]
    · rw [query_eq, hconvert, Except.map, hlogged]
    · rw [hran.before_sent] at htable
      rcases hswitched with huntouched | ⟨table', front, back, hswitched⟩
      · simp [huntouched.preceding] at htable
      · rw [hswitched.on] at htable
        have hsame : table = table' := by
          have htoggle := mem_singleton.1 htable
          exact append_cancel_left (append_cancel_right htoggle)
        rw [hsame]
        have hoff := hran.mem_after (hswitched.off ▸ mem_append_right front (mem_cons_self ..)) rfl
        exact hoff
    · obtain ⟨f, hf, hsql, hsuccess⟩ := hran.exists_following hc
      rw [← hsql] at hdeletion
      rcases hswitched with huntouched | ⟨table', front, back, hswitched⟩
      · exact absurd hdeletion (huntouched.following f hf).no_deletion
      · obtain ⟨t, hmain, ht⟩ := hswitched.copied ⟨f, hf, hdeletion⟩
        obtain ⟨a, rfl⟩ := hran.main_eq hmain ht
        obtain ⟨r, hr⟩ := hsuccess (hswitched.deletions f hf hdeletion).2 (t, a) (by simp)
        exact ⟨t, r, ht, by rw [← hr]⟩

/-- A row that is given another number is deleted between the switches if the machine has taken its
copy. A machine that refuses everything is still sent the second switch. -/
theorem query_switches_off_moved :
    let s : Session := { context := ⟨{}, ⟨0, 0⟩⟩
                         catalog := .learn {} "CREATE TABLE t (id int auto_increment, a int)" }
    let moved := Statement.ofText "UPDATE t SET id = 7 WHERE id = 3"
    let sent (answer : Except Refusal Result) : Option (List Text) :=
      (s.query (Executor.logged fun m _ => (m, answer)) ((), []) moved).toOption.map
        (·.2.1.2.map Prod.fst)
    sent (.ok {}) = some [("SET IDENTITY_INSERT t ON" : Text),
      "INSERT INTO t (id,a) SELECT 7,a FROM t WHERE id = 3", "DELETE t WHERE id = 3",
      "SET IDENTITY_INSERT t OFF"] ∧
    sent (.error (.io "")) = some [("SET IDENTITY_INSERT t ON" : Text),
      "INSERT INTO t (id,a) SELECT 7,a FROM t WHERE id = 3", "SET IDENTITY_INSERT t OFF"] ∧
    ∃ o s₁, s.convert moved = .ok (o, s₁) ∧ ∃ table front back, Switched o table front back := by
  intro s moved sent
  refine ⟨by decide +kernel, by decide +kernel, ?_⟩
  obtain ⟨⟨o, s₁⟩, hconvert, hon⟩ : ∃ x, s.convert moved = .ok x ∧ x.1.preceding.length = 1 :=
    exists_of_toOption (by decide +kernel)
  clear_value s moved
  have h := query_switches_off DryRun.run {} s moved
  rw [hconvert] at h
  refine ⟨o, s₁, hconvert, h.1.resolve_left fun huntouched => ?_⟩
  simp [huntouched.preceding] at hon

end Session

end Recast
