import Recast.Proofs.Rows
import Recast.Proofs.WhereKept

/-!
# The trace of a conversion

Every pass that changes the text leaves a record of the text before it and behind it. The records of
an outcome lead from the statement as it was bound to the main statements, without a gap
(`Replays`), and in the order of the passes (`Logged`). `Pass.run`, the split into rows and
verification keep `Logged`, so it holds of the whole conversion (`convert_trace_replays`).
-/

namespace Recast

open Literal Nesting List Text

variable {issued now t : Text} {context : Context} {d e : Draft} {made passes : List Pass}
  {records : List Record} {main : List Text} {p : Pass}

/-! ### Records that lead from one text to another -/

/-- Made one after another, the recorded changes lead from the first text to the last, and each of
them changes something. -/
inductive Replays : Text → List Record → Text → Prop
  | nil (t : Text) : Replays t [] t
  | cons (p : Pass) {before after last : Text} {records : List Record} : before ≠ after →
    Replays after records last → Replays before (⟨p, before, after⟩ :: records) last

namespace Replays

variable {first last : Text} {records : List Record}

theorem concat (h : Replays first records last) (p : Pass) {new : Text} (hne : last ≠ new) :
    Replays first (records ++ [⟨p, last, new⟩]) new := by
  induction h with
  | nil t => exact .cons p hne (.nil new)
  | cons q hchange _ ih => exact .cons q hchange (ih hne)

theorem ne (h : Replays first records last) : ∀ r ∈ records, r.before ≠ r.after := by
  induction h with
  | nil => simp
  | cons p hchange _ ih =>
    intro r hr
    rcases mem_cons.1 hr with rfl | hr
    · exact hchange
    · exact ih r hr

theorem before_head (h : Replays first records last) : ∀ r ∈ records.head?, r.before = first := by
  cases h with
  | nil => simp
  | cons => simp

theorem isChain (h : Replays first records last) :
    records.IsChain fun r r' => r.after = r'.before := by
  induction h with
  | nil => exact .nil
  | cons p _ hrest ih =>
    refine isChain_cons.2 ⟨fun r' hr' => ?_, ih⟩
    exact (hrest.before_head r' hr').symm

theorem after_last (h : Replays first records last) : ∀ r ∈ records.getLast?, r.after = last := by
  induction h with
  | nil => simp
  | cons p _ hrest ih =>
    intro r hr
    cases hrest with
    | nil =>
      obtain rfl := Option.some.inj hr
      rfl
    | cons q hchange hrest =>
      exact ih r hr

theorem eq_of_nil (h : Replays first [] last) : first = last := by
  cases h
  rfl

end Replays

/-- The records lead from the statement as issued to the text as it is now, and stand in the order
of the passes made so far. -/
structure Logged (issued : Text) (made : List Pass) (records : List Record) (now : Text) :
    Prop where
  replays : Replays issued records now
  passes : (records.map (·.pass)).Sublist made

theorem Logged.step (h : Logged issued made records now) (p : Pass) (new : Text) :
    Logged issued (made ++ [p])
      (if new = now then records else records ++ [⟨p, now, new⟩]) new := by
  split
  · next hsame =>
    rw [hsame]
    exact ⟨h.replays, h.passes.trans (sublist_append_left made [p])⟩
  · next hne =>
    refine ⟨h.replays.concat p (Ne.symm hne), ?_⟩
    rw [map_append]
    exact h.passes.append (.refl _)

theorem Logged.skip (h : Logged issued made records now) (more : List Pass) :
    Logged issued (made ++ more) records now :=
  ⟨h.replays, h.passes.trans (sublist_append_left made more)⟩

/-! ### The passes -/

theorem CreateTable.trace_of_apply {settings : Settings}
    (h : CreateTable.apply settings d = .ok e) : e.trace = d.trace := by
  rw [CreateTable.apply] at h
  split at h
  · obtain ⟨definition, -, h⟩ := bind_eq_ok h
    split at h
    · cases h
      rfl
    · obtain ⟨body, -, h⟩ := bind_eq_ok h
      cases h
      rfl
  · cases h
    rfl
  · cases h
    rfl

/-- A pass does not touch the trace. -/
theorem Pass.trace_of_apply (h : p.apply context d = .ok e) : e.trace = d.trace := by
  cases p with
  | createTable => exact CreateTable.trace_of_apply h
  | identityInsert =>
    obtain rfl := Except.ok.inj h
    simp only [Identity.aroundInsert]
    split <;> rfl
  | identityUpdate =>
    obtain rfl := Except.ok.inj h
    exact (Identity.ofUpdate_fields d).2.2
  | limit =>
    obtain rfl := Except.ok.inj h
    exact (Limit.apply_fields d).2.2
  | nullDatetime =>
    obtain rfl := Except.ok.inj h
    split <;> rfl
  | onDuplicateKey =>
    obtain rfl := Except.ok.inj h
    split
    · rw [DuplicateKey.apply]
      split <;> rfl
    · rfl
  | _ =>
    obtain rfl := Except.ok.inj h
    rfl

theorem Pass.logged_run (h : Logged issued made d.trace d.text)
    (hrun : Pass.run context d p = .ok e) : Logged issued (made ++ [p]) e.trace e.text := by
  obtain ⟨f, hf, hrun⟩ := bind_eq_ok hrun
  have hstep := h.step p f.text
  rw [← trace_of_apply hf] at hstep
  cases hrun
  split
  · next hsame => rwa [if_pos hsame] at hstep
  · next hne => rwa [if_neg hne] at hstep

theorem Pass.logged_foldlM (h : Logged issued made d.trace d.text)
    (hrun : passes.foldlM (Pass.run context) d = .ok e) :
    Logged issued (made ++ passes) e.trace e.text := by
  induction passes generalizing d made with
  | nil =>
    cases hrun
    rwa [append_nil]
  | cons p passes ih =>
    obtain ⟨f, hf, hrun⟩ := bind_eq_ok hrun
    have hrest := ih (logged_run h hf) hrun
    rwa [append_assoc, singleton_append] at hrest

/-! ### One statement for each row -/

/-- The statements for rows are never the statement that they come from: behind the first row it
goes on with another row, and they with what follows the last one. -/
theorem RowSplit.joined_ne (h : 1 < (statements t).length) : Draft.joined (statements t) ≠ t := by
  obtain ⟨j, hj, hgroups⟩ : ∃ j, Insertion.ofText? t = some j ∧ 1 < j.groups.length := by
    rw [statements] at h
    split at h
    · next hj => exact ⟨_, hj, by simp⟩
    · simp at h
  obtain ⟨a, rows, tail, rfl, -, hne, hlisted, htail, hat, hopens⟩ :=
    Insertion.exists_rows hj (by rintro hnil; simp [hnil] at hgroups)
  rw [hat, Insertion.length_groupsAt] at hgroups
  obtain ⟨r, r', rows, rfl⟩ : ∃ r r' rest, rows = r :: r' :: rest := by
    rcases rows with _ | ⟨r, _ | ⟨r', rest⟩⟩
    · simp at hgroups
    · simp at hgroups
    · exact ⟨r, r', rest, rfl⟩
  rw [Insertion.statements_rows hopens hne hlisted htail]
  obtain ⟨-, hlead⟩ := hlisted.first r rfl
  obtain ⟨-, hsep⟩ := hlisted.others r' (by simp)
  intro heq
  obtain ⟨z, hz⟩ : ∃ z, Draft.joined ((r :: r' :: rows).map fun r => Verify.withRow a r.items tail)
      = a ++ r.group ++ (tail ++ ';' :: z) := by
    refine ⟨'\n' :: Draft.joined ((r' :: rows).map fun r => Verify.withRow a r.items tail), ?_⟩
    simp [Draft.joined, join, Verify.withRow, Insertion.ValueRow.group]
  obtain ⟨w, hw⟩ : ∃ w, a ++ (Insertion.rowsText (r :: r' :: rows) ++ tail)
      = a ++ r.group ++ (r'.lead ++ '(' :: w) := by
    refine ⟨written r'.items ++ ')' :: (Insertion.rowsText rows ++ tail), ?_⟩
    simp [Insertion.rowsText_cons, Insertion.ValueRow.text, Insertion.ValueRow.group, hlead]
  rw [hz, hw] at heq
  rcases Insertion.cut_append_cons (append_cancel_left heq) (by decide) with ⟨m, hm⟩ | ⟨v, hv, -⟩
  · exact Insertion.noRow_iff.1 htail ⟨_, m, hm, hsep⟩
  · -- among blanks and a comma there is no semicolon
    exact absurd (hsep.isBetween ';' (by rw [hv]; simp)) (by decide)

theorem RowSplit.statements_ne_nil (t : Text) : statements t ≠ [] := by
  rw [statements]
  split <;> simp

theorem RowSplit.statements_of_length (h : ¬ 1 < (statements t).length) : statements t = [t] := by
  rw [statements] at h ⊢
  split at h
  · simp at h
  · rfl

theorem Draft.logged_splitRows (h : Logged issued made d.trace d.text) :
    Logged issued (made ++ [.splitInsert]) d.splitRows.1.trace (joined d.splitRows.2) := by
  have hstep := h.step .splitInsert (joined (RowSplit.statements d.text))
  rw [splitRows]
  by_cases hlen : 1 < (RowSplit.statements d.text).length
  · rw [if_neg (RowSplit.joined_ne hlen)] at hstep
    simp only [if_pos hlen]
    exact hstep
  · have hone := RowSplit.statements_of_length hlen
    rw [hone, joined_singleton, if_pos rfl] at hstep
    simp only [hone, joined_singleton]
    exact hstep

/-! ### Verification -/

theorem Verify.length_apply (d : Draft) (main : List Text) :
    (apply d main).length = main.length := by
  rw [apply]
  split
  · rw [rows]
    split
    · split
      · next hlen => rw [length_map, length_zip, hlen, Nat.min_self]
      · rfl
    · rfl
  · rw [length_map]
  · rfl

theorem Draft.length_verified (d : Draft) (main : List Text) :
    (d.verified main).2.length = main.length := by
  rw [verified]
  split
  · exact Verify.length_apply d main
  · rfl

theorem Draft.logged_verified (h : Logged issued made d.trace (joined main)) :
    Logged issued (made ++ [.verify]) (d.verified main).1.trace (joined (d.verified main).2) := by
  rw [verified]
  split
  · have hstep := h.step .verify (joined (Verify.apply d main))
    simp only
    split
    · next hsame => rwa [if_pos hsame] at hstep
    · next hne => rwa [if_neg hne] at hstep
  · exact h.skip _

/-! ### The whole conversion -/

theorem Pass.pairwise_of_sublist (h : passes.Sublist Pass.all) :
    passes.Pairwise fun p q => Pass.all.idxOf p < Pass.all.idxOf q := by
  have hall : Pass.all.Pairwise fun p q => Pass.all.idxOf p < Pass.all.idxOf q := by decide
  exact hall.sublist h

/-- What a finished draft records, and that it splits the statement only with a record. -/
theorem Finished.logged (h : Finished context d e main)
    (hd : Logged issued Pass.pipeline d.trace d.text) :
    Logged issued Pass.all e.trace (Draft.joined main) ∧ (e.trace = [] → main.length = 1) := by
  have hverified (f : Draft) (main : List Text) (hf : f.trace ≠ [] ∨ main.length = 1)
      (hnil : (f.verified main).1.trace = []) : (f.verified main).2.length = 1 := by
    rw [Draft.length_verified]
    refine hf.resolve_left fun hne => hne ?_
    rw [Draft.verified] at hnil
    split at hnil
    · simp only at hnil
      split at hnil
      · exact hnil
      · simp [Draft.record] at hnil
    · exact hnil
  cases h with
  | @insert d' hkind hrun =>
    refine ⟨Draft.logged_verified (Draft.logged_splitRows (Pass.logged_run hd hrun)), ?_⟩
    refine hverified _ _ ?_
    rw [Draft.splitRows]
    by_cases hlen : 1 < (RowSplit.statements d'.text).length
    · refine .inl ?_
      simp [if_pos hlen, Draft.record]
    · exact .inr (by rw [RowSplit.statements_of_length hlen]; rfl)
  | other hkind =>
    refine ⟨?_, hverified d [d.text] (.inr rfl)⟩
    have hd' : Logged issued (Pass.pipeline ++ [.onDuplicateKey, .splitInsert]) d.trace
        (Draft.joined [d.text]) := hd.skip _
    exact Draft.logged_verified hd'

/-- The trace of an outcome replays the whole conversion. Every record changes something; the first
starts from the statement as issued, with its escapes normalized, its parameters bound and no blanks
around it; each goes on where the one before it ends; the last ends in the main statements. Without
a record the main statement is the statement as issued. And the passes stand in their order, each at
most once. -/
theorem convert_trace_replays {context : Context} {catalog catalog' : Catalog} {s : Statement}
    {previous : Option Text} {o : Outcome}
    (h : convert context catalog s previous = .ok (o, catalog')) :
    let issued := trim (Statement.boundText { s with text := normalizeEscapes s.text })
    (∀ r ∈ o.trace, r.before ≠ r.after) ∧
    (∀ r ∈ o.trace.head?, r.before = issued) ∧
    (o.trace.IsChain fun r r' => r.after = r'.before) ∧
    (∀ r ∈ o.trace.getLast?, r.after = join ";\n" o.main) ∧
    (o.trace = [] → o.main = [issued]) ∧
    (o.trace.map (·.pass)).Pairwise fun p q => Pass.all.idxOf p < Pass.all.idxOf q := by
  intro issued
  obtain ⟨hlogged, hone⟩ : Logged issued Pass.all o.trace (Draft.joined o.main) ∧
      (o.trace = [] → o.main.length = 1) := by
    have hbound : Logged issued [] (Draft.bound context catalog s previous).trace issued :=
      ⟨.nil _, .refl _⟩
    rcases exists_of_convert h with ⟨-, d, e, hd, he, rfl, -⟩ | ⟨-, d, e, main, hd, he, rfl, -⟩
    · -- with blobs there is one main statement, and two passes at most
      refine ⟨?_, fun _ => rfl⟩
      have hgeneral := Pass.logged_run hbound hd
      have htwo : Logged issued [.general, .onDuplicateKey] e.trace e.text := by
        rcases he with ⟨-, he⟩ | ⟨-, rfl⟩
        · exact Pass.logged_run hgeneral he
        · exact hgeneral.skip [.onDuplicateKey]
      exact ⟨htwo.replays, htwo.passes.trans (by decide)⟩
    · exact he.logged (Pass.logged_foldlM hbound hd)
  refine ⟨hlogged.replays.ne, hlogged.replays.before_head, hlogged.replays.isChain,
    hlogged.replays.after_last, fun hnil => ?_, Pass.pairwise_of_sublist hlogged.passes⟩
  obtain ⟨m, hm⟩ := length_eq_one_iff.1 (hone hnil)
  have hsame := hlogged.replays
  rw [hnil, hm] at hsame
  rw [hm, hsame.eq_of_nil]
  rfl

/-- Two rows, of which verification puts a day back that another pass has replaced: every kind of
record stands in the trace. -/
theorem convert_trace_replays_rows : let catalog : Catalog := { tables := [("t", {
      name := "t"
      columns := [⟨"d", "datetime", .date, true, false⟩]
      primaryKey := []
      unique := [] })] }
    let s : Statement := ⟨" INSERT INTO \x60t\x60 (a, d) VALUES (?, NOW()), ('NOW()', ?)",
      [.text "\x60x\x60", .text "0000-00-00"], true, false⟩
    ∃ o catalog', convert ⟨{}, ⟨0, 0⟩⟩ catalog s none = .ok (o, catalog') ∧
      o.trace.map (·.pass) = [.general, .nowFunctions, .nullDatetime, .splitInsert, .verify] ∧
      (∀ r ∈ o.trace, r.before ≠ r.after) ∧
      (∀ r ∈ o.trace.head?, r.before =
        ("INSERT INTO \x60t\x60 (a, d) VALUES ('\x60x\x60', NOW()), ('NOW()', '0000-00-00')" :
          Text)) ∧
      (o.trace.IsChain fun r r' => r.after = r'.before) ∧
      ∀ r ∈ o.trace.getLast?, r.after = join ";\n" o.main := by
  intro catalog s
  obtain ⟨⟨o, catalog'⟩, hconvert, hpasses⟩ : ∃ r, convert ⟨{}, ⟨0, 0⟩⟩ catalog s none = .ok r ∧
      r.1.trace.map (·.pass) = [.general, .nowFunctions, .nullDatetime, .splitInsert, .verify] :=
    exists_of_toOption (by decide +kernel)
  have hissued : trim (Statement.boundText { s with text := normalizeEscapes s.text })
      = "INSERT INTO \x60t\x60 (a, d) VALUES ('\x60x\x60', NOW()), ('NOW()', '0000-00-00')" := by
    decide +kernel
  obtain ⟨hne, hfirst, hchain, hlast, -, -⟩ := convert_trace_replays hconvert
  rw [hissued] at hfirst
  exact ⟨o, catalog', hconvert, hpasses, hne, hfirst, hchain, hlast⟩

end Recast
