import Recast.Proofs.LimitWindows

/-!
# The block that a TOP limits

A limit without offset becomes a TOP behind the verb of the statement, or behind the DISTINCT after
its SELECT (`apply_topped`). A verb may have parentheses in front of it, and the TOP is then as deep
as they are many: it limits the first of several blocks, and not what the limit did.
-/

namespace Recast

open Literal Nesting Cursor Keyword List Text
open Option hiding guard

namespace Limit

variable {lead p q r v w : Text}

theorem foldl_step_lead (h : ∀ c ∈ lead, isBlank c ∨ c = '(') (d : Nat) :
    lead.foldl step d = d + lead.count '(' := by
  induction lead generalizing d with
  | nil => rfl
  | cons c lead ih =>
    have hrest := ih (forall_mem_cons.1 h).2
    rw [foldl_cons, hrest]
    rcases h c (by simp) with hblank | rfl
    · have hopen : c ≠ '(' := ne_of_isBlank hblank (by decide)
      have hclose : c ≠ ')' := ne_of_isBlank hblank (by decide)
      rw [step, if_neg hclose, if_neg hopen, count_cons_of_ne hopen]
    · rw [count_cons_self]
      show d + 1 + _ = _
      omega

theorem foldl_step_name (h : ∀ c ∈ w, isNameChar c) (d : Nat) : w.foldl step d = d :=
  foldl_step_of_level?
    (level?_of_no_paren
      (fun c hc => ⟨(by rintro rfl; cases h _ hc), (by rintro rfl; cases h _ hc)⟩) d)

theorem code_lead (hlead : ∀ c ∈ lead, isBlank c ∨ c = '(') (hw : ∀ c ∈ w, isNameChar c) :
    Code (lead ++ w) :=
  code_append.2 ⟨fun c hc => (hlead c hc).elim isQuote_of_isBlank (by rintro rfl; rfl),
    fun c hc => isQuote_of_class (hw c hc) (by decide) (by decide)⟩

/-- From the verb on no parenthesis stands in front of TOP. -/
theorem Placed.depth {kind : Kind} (h : Placed kind v r p q) (hv : Code v) :
    depthAt (mask (p ++ q)) p.size = v.foldl step 0 := by
  cases h with
  | verb => rw [depthAt, hv.mask_append, before_size_append, depth]
  | @distinct g k _ _ h =>
    rw [depthAt, (hv.append (h.code.1.append h.code.2)).mask_append, before_size_append, depth,
      foldl_append, foldl_append, foldl_step_of_level? (level?_of_isBlank h.gap _),
      foldl_step_name (isNameChar_of_lower h.word named_distinct).2]

theorem named_top? {kind : Kind} {n : Nat} {verb top : Text} (h : top? n kind = some (verb, top)) :
    Named verb ∧ Shows Char.toLower verb ∧ (kind == .select || kind == .delete || kind == .update) ∧
      clashes foldChar verb "LIMIT" ∧ (∀ c ∈ lower verb, c.toNat < 0x80) ∧
      ∀ v ∈ Kind.verbs, v.2 = kind → v.1 = verb := by
  cases kind <;> cases h <;> decide

/-- A clause does not start before the end of the verb. -/
theorem exists_verb_before {d : Draft} {clause : Clause} {n : Nat} {verb top : Text}
    (hkind : Kind.ofText d.text = d.kind)
    (hclause : ((start (mask d.text)).findAll clause?).head? = some clause)
    (htop : top? n d.kind = some (verb, top)) :
    ∃ lead w r, trimEnd (d.text.before clause.start) = lead ++ (w ++ r) ∧
      (∀ c ∈ lead, isBlank c = true ∨ c = '(') ∧ lower w = lower verb := by
  obtain ⟨hnamed, -, hkinds, hclash, hascii, hverb⟩ := named_top? htop
  obtain ⟨lead, w, r, v, ht, hlead, hv, hw, -⟩ :=
    Kind.exists_lead hkind (by rintro h; rw [h] at hkinds; cases hkinds)
  obtain rfl : v = verb := hverb (v, d.kind) hv rfl
  obtain ⟨hwne, hwname⟩ := isNameChar_of_lower hw hnamed
  have hcode := code_lead hlead hwname
  have hfront : clashes foldChar (lead ++ w) "LIMIT" := by
    refine clashes_append (clashes_of_head (fun c hc => ?_) _) ?_
    · rcases hlead c hc with hblank | rfl
      · exact of_isBlank (P := fun c => foldChar c ≠ foldChar 'L') hblank (by decide)
      · decide
    · rwa [clashes_congr (map_foldChar_of_lower hw hascii)]
  have hprefix : lead ++ w <+: d.text := ⟨r, by rw [ht, append_assoc]⟩
  have hle : size (lead ++ w) ≤ clause.start := by
    obtain ⟨c, f, ⟨p, hm, hoffset, -⟩, hread⟩ := at_of_mem_findAll (mem_of_mem_head? hclause)
    obtain ⟨hstart, g, hg⟩ := start_of_clause? hread
    obtain ⟨u, hu, hfold⟩ := word?_reads hg
    rw [hu.rest] at hm
    rw [hstart, hoffset]
    refine size_le_of_clashes hfront ?_ hm hfold
    rw [ht, ← append_assoc, hcode.mask_append]
    exact prefix_append _ _
  obtain ⟨r', hr'⟩ := prefix_dropEnd (p := isBlank) (prefix_before hprefix hle) fun c hc => by
    rw [getLast?_append_of_ne_nil _ hwne] at hc
    exact isBlank_of_isNameChar (hwname c (mem_of_getLast? hc))
  exact ⟨lead, w, r', by rw [← append_assoc]; exact hr'.symm, hlead, hw⟩

/-- **The place of TOP.** From a statement whose limit skips nothing the clause is removed, and
unless a name goes on behind its verb, TOP is put in once: directly behind the verb, or behind the
DISTINCT after a SELECT. Nothing else changes, and TOP is as deep as there are parentheses in front
of the verb. -/
theorem apply_topped {d : Draft} {clause : Clause} {n : Nat} {verb top : Text}
    (hkind : Kind.ofText d.text = d.kind)
    (hclause : ((start (mask d.text)).findAll clause?).head? = some clause)
    (hdepth : depthAt (mask d.text) clause.start = 0) (hwindow : clause.window? = some ⟨0, n⟩)
    (htop : top? n d.kind = some (verb, top)) :
    ∃ lead w r, trimEnd (d.text.before clause.start) = lead ++ (w ++ r) ∧
      (∀ c ∈ lead, isBlank c = true ∨ c = '(') ∧ lower w = lower verb ∧
      (r.head?.any isNameChar = false → ∃ p q, lead ++ (w ++ r) = p ++ q ∧
      Placed d.kind (lead ++ w) r p q ∧
        apply d = { d with text := p ++ (top ++ q) } ∧
        depthAt (mask (p ++ q)) p.size = lead.count '(') := by
  obtain ⟨lead, w, r, hfront, hlead, hw⟩ := exists_verb_before hkind hclause htop
  refine ⟨lead, w, r, hfront, hlead, hw, fun hr => ?_⟩
  obtain ⟨hnamed, hshows, hkinds, -⟩ := named_top? htop
  have hname := (isNameChar_of_lower hw hnamed).2
  have hcode := code_lead hlead hname
  have hsize : lead.size + verb.size = size (lead ++ w) := by
    rw [size_append, ← size_lower w, hw, size_lower]
  have hfind := find?_verb hlead hw hnamed hshows hr
  rw [← append_assoc] at hfind hfront ⊢
  obtain ⟨p, q, hcut, hplaced, hinsert⟩ := @exists_placed _ _ r hcode hr d.kind _ hfind hsize top
  refine ⟨p, q, hcut, hplaced, ?_, ?_⟩
  · rw [apply, limited?]
    simp only [hkinds, hclause, hdepth, hwindow, htop, hfront, hinsert, bind_eq_bind, bind_some]
    rfl
  · rw [hplaced.depth hcode, foldl_append, foldl_step_lead hlead, foldl_step_name hname,
      Nat.zero_add]

/-- The first word of a text can be read in one way. -/
theorem eq_of_lead {lead' w' r' verb : Text} (h : lead ++ (w ++ r) = lead' ++ (w' ++ r'))
    (hverb : Named verb) (hlead : ∀ c ∈ lead, isNameChar c = false)
    (hlead' : ∀ c ∈ lead', isNameChar c = false) (hw : lower w = lower verb)
    (hw' : lower w' = lower verb) : lead = lead' ∧ w = w' ∧ r = r' := by
  have hsize : w.size = w'.size := by rw [← size_lower w, hw, ← hw', size_lower]
  obtain ⟨hne, hname⟩ := isNameChar_of_lower hw hverb
  obtain ⟨hne', hname'⟩ := isNameChar_of_lower hw' hverb
  obtain ⟨c, v, rfl⟩ := exists_cons_of_ne_nil hne
  obtain ⟨c', v', rfl⟩ := exists_cons_of_ne_nil hne'
  have hle := size_le_of_name hlead (hname' c' (by simp)) h
  have hle' := size_le_of_name hlead' (hname c (by simp)) h.symm
  obtain ⟨rfl, hrest⟩ := append_inj_of_size h (Nat.le_antisymm hle hle')
  exact ⟨rfl, append_inj_of_size hrest hsize⟩

/-- Behind a blank and a DISTINCT in other letters, at depth zero. -/
theorem apply_topped_distinct :
    let d := Draft.ofStatement (Statement.ofText " SELECT distinct a FROM t LIMIT 5;") none true {}
    Placed .select " SELECT" " distinct a FROM t" " SELECT distinct" " a FROM t" ∧
      apply d = { d with text := " SELECT distinct TOP 5 a FROM t" } ∧
      depthAt (mask " SELECT distinct a FROM t") (size " SELECT distinct") = 0 := by
  intro d
  obtain ⟨lead, w, r, hfront, hlead, hw, htopped⟩ :=
    @apply_topped d ⟨26, "5", none, none⟩ 5 "SELECT" " TOP 5"
    (by decide +kernel) (by decide +kernel) (by decide +kernel) (by decide +kernel)
      (by decide +kernel)
  have htrim : trimEnd (d.text.before 26) = [' '] ++ ("SELECT" ++ " distinct a FROM t") := by
    decide +kernel
  obtain ⟨rfl, rfl, rfl⟩ := eq_of_lead (hfront.symm.trans htrim) (by decide)
    (fun c hc => (hlead c hc).elim isNameChar_of_isBlank (by rintro rfl; rfl)) (by decide) hw rfl
  obtain ⟨p, q, -, hplaced, happly, hdepth⟩ := htopped rfl
  have hdistinct : Distinct " " "distinct" " a FROM t" " distinct a FROM t" :=
    ⟨rfl, by decide, rfl, rfl⟩
  cases hplaced with
  | verb hnone => exact absurd hdistinct (hnone rfl _ _ _)
  | distinct _ h =>
    obtain ⟨rfl, rfl, rfl⟩ := eq_of_lead (h.cut.symm.trans hdistinct.cut) named_distinct
      (fun c hc => isNameChar_of_isBlank (h.gap c hc)) (by decide) h.word hdistinct.word
    exact ⟨.distinct rfl h, happly, hdepth⟩

/-- The limit is for the union, and the TOP for its first half. -/
theorem apply_tops_first_block :
    (apply (Draft.ofStatement (Statement.ofText "(SELECT a FROM t) UNION (SELECT b FROM u) LIMIT 5")
      none true {})).text
        = "(SELECT TOP 5 a FROM t) UNION (SELECT b FROM u)" ∧
      depthAt (mask "(SELECT a FROM t) UNION (SELECT b FROM u)") (size "(SELECT") = 1 := by
  decide +kernel

end Limit

end Recast
