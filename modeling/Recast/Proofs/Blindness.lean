import Recast.Pass.Run
import Recast.Proofs.Comparisons
import Recast.Proofs.SortTerms

/-!
# Passes that do not see data

Six of the passes take every decision from the mask and cut their statement outside literals only.
So what they do to two statements with the same mask is the same, and leaves them with the same
mask.
-/

namespace Recast

open Literal Cursor List Text
open Option hiding guard

variable {t t' top verb : Text} {c d : Cursor} {k n : Nat} {e : Edit}

/-- The drafts differ in nothing but the data inside the literals of their texts. -/
def Draft.Alike (d e : Draft) : Prop := ∃ q, e = { d with text := q } ∧ Literal.Alike d.text q

theorem getD_bind {R : β → β → Prop} {o : Option α} {f f' : α → Option β} {b b' : β} (h : R b b')
    (hf : ∀ a, o = some a → R ((f a).getD b) ((f' a).getD b')) :
    R ((o.bind f).getD b) ((o.bind f').getD b') := by
  cases o with
  | none => exact h
  | some a => exact hf a rfl

/-! ### Counting rows -/

namespace FoundRows

theorem unmark?_alike (h : Alike t t') : Alike ((unmark? t).getD t) ((unmark? t').getD t') := by
  rw [unmark?, unmark?, ← show mask t = mask t' from h]
  refine getD_bind h fun n hn => getD_bind h fun s hs => ?_
  have hstart := (Keyword.free_of_find? (by decide) hn).1
  have hstop := (Keyword.free_of_findTop? (by decide) hs).1
  exact h.splice (s := ⟨n, s.start⟩) hstart hstop.outside (sealed_of_no_quote (by decide))

/-- The statement, without its marker, asks for the count outside literals. -/
def Asks (t : Text) : Prop := Keyword.occurrences (mask ((unmark? t).getD t)) call ≠ []

theorem apply_alike {previous : Option Text} (h : Alike t t')
    (hcount : Asks t → ∀ count, previous.bind recount? = some count → Closed count) :
    Alike (apply previous t) (apply previous t') := by
  have hunmark := unmark?_alike h
  rw [apply, apply]
  cases hprevious : previous.bind recount? with
  | none => exact hunmark
  | some count =>
    refine hunmark.applyAll ?_
    rw [← show mask _ = mask _ from hunmark, ← filterMap_eq_map]
    refine .filterMap fun n hn => ?_
    obtain ⟨hstart, hstop⟩ := Keyword.free_of_mem_occurrences (by decide) hn
    exact .cons hstart hstop (.refl (hcount (ne_nil_of_mem hn) count hprevious)) .nil

/-- A count that leaves a literal open takes the data that follows it for code. -/
theorem apply_open_count : mask "SELECT FOUND_ROWS(), 'foo'" = mask "SELECT FOUND_ROWS(), 'xxx'" ∧
      mask (apply (some "SELECT a FROM t WHERE x = 'abc") "SELECT FOUND_ROWS(), 'foo'")
        ≠ mask (apply (some "SELECT a FROM t WHERE x = 'abc") "SELECT FOUND_ROWS(), 'xxx'") := by
  decide

end FoundRows

/-! ### LIMIT -/

namespace Limit

theorem free_of_clause? (hc : At (mask t) c) {l : Clause} (h : clause? c = some (l, d)) :
    Free (mask t) l.start := by
  obtain ⟨_, -, e, he, _, -, ⟨first, f⟩, -, h⟩ := of_bind₄ h
  obtain ⟨_, -, h⟩ := bind_eq_some_iff.1 h
  have hstart : l.start = c.offset := by
    cases h
    cases second? f <;> cases offset? f <;> rfl
  obtain ⟨hclear, -, hne⟩ := hc.clear_of_word? he (by decide)
  rw [hstart]
  exact hclear.free hne

theorem insertTop_alike (h : Sealed t t') (kind : Kind) (hverb : Shows Char.toLower verb)
    (htop : Code top) : Alike (insertTop t kind verb top) (insertTop t' kind verb top) := by
  have hinsert {n : Nat} (hn : Outside (mask t) n) : Alike (t.insertAt n top) (t'.insertAt n top) :=
    ((h.before hn).append (sealed_of_no_quote htop)).append_alike (h.alike.after hn)
  rw [insertTop, insertTop, ← show mask t = mask t' from h.alike]
  cases hn : Keyword.find? (mask t) verb 0 with
  | none => exact h.alike
  | some n =>
    simp only
    split
    · next hdistinct => exact hinsert (Keyword.outside_of_isAt (by decide) hdistinct.2)
    · exact hinsert (Keyword.free_of_find? hverb hn).2

theorem shows_of_top? {count : Nat} {kind : Kind} (h : top? count kind = some (verb, top)) :
    Shows Char.toLower verb ∧ Code top := by
  have hnumber : Code (ofNat count) := fun c hc =>
    isQuote_of_isBare (isBare_of_mem_ofNat c hc)
  cases kind with
  | select =>
    cases h
    exact ⟨by decide, forall_mem_append.2 ⟨by decide, hnumber⟩⟩
  | delete | update =>
    cases h
    exact ⟨by decide, forall_mem_append.2 ⟨forall_mem_append.2 ⟨by decide, hnumber⟩, by decide⟩⟩
  | _ => cases h

theorem apply_alike {d e : Draft} (h : d.Alike e) : (apply d).Alike (apply e) := by
  obtain ⟨q, rfl, hq⟩ := h
  have hsame : d.Alike { d with text := q } := ⟨q, rfl, hq⟩
  rw [apply, apply, limited?, limited?, ← show mask d.text = mask q from hq]
  refine getD_bind hsame fun _ _ => getD_bind hsame fun clause hclause =>
    getD_bind hsame fun _ _ => getD_bind hsame fun w _ => ?_
  obtain ⟨c, e, hc, hread⟩ := at_of_mem_findAll (mem_of_mem_head? hclause)
  have hstripped := (hq.sealed_before (free_of_clause? hc hread)).trimEnd
  split
  · refine getD_bind hsame fun ⟨verb, top⟩ htop => ?_
    obtain ⟨hverb, htop⟩ := shows_of_top? htop
    exact ⟨_, rfl, insertTop_alike hstripped d.kind hverb htop⟩
  · refine getD_bind hsame fun _ _ => ?_
    exact ⟨_, rfl, hstripped.alike⟩

end Limit

/-! ### Conditionals -/

namespace Functions

theorem caseCall?_eq_some {r : Text} (h : caseCall? t n = some r) :
    ∃ close rest, r = t.splice ⟨n, close + 1⟩ ('(' :: rest) := by
  obtain ⟨opening, -, ⟨args, close⟩, -, h⟩ := of_bind₂ h
  simp only at h
  split at h
  · obtain ⟨_, -, h⟩ := bind_eq_some_iff.1 h
    cases h
    exact ⟨close, _, rfl⟩
  · cases h

/-- A conditional is replaced without a look at data. -/
theorem caseCall?_alike (h : Alike t t') (hn : Free (mask t) n) :
    Alike ((caseCall? t n).getD t) ((caseCall? t' n).getD t') := by
  rw [caseCall?, caseCall?, ← show mask t = mask t' from h]
  refine getD_bind h fun opening _ => ?_
  rw [arguments?, arguments?]
  cases hclose : Nesting.closing? (mask t) opening with
  | none => exact h
  | some close =>
    obtain ⟨hopen, hfree, hbehind⟩ := Nesting.free_of_closing? hclose
    obtain ⟨spans, hparts, hparts', hsealed⟩ :=
      (h.sealed_slice (s := ⟨opening + 1, close⟩) hopen hfree).parts ',' (by decide) (by decide)
    simp only [Option.bind_eq_bind, Option.bind_some, hparts, hparts', Option.pure_def]
    match spans with
    | [a, b, c] =>
      have ha := hsealed a (by simp)
      simp only [List.map_cons, List.map_nil]
      rw [← show mask _ = mask _ from ha.alike]
      refine getD_bind h fun _ _ => h.splice (s := ⟨n, close + 1⟩) hn hbehind ?_
      have hb := hsealed b (by simp)
      have hc := hsealed c (by simp)
      exact ((((((sealed_of_no_quote (by decide)).append ha.trim).append
        (sealed_of_no_quote (by decide))).append hb.trim).append
        (sealed_of_no_quote (by decide))).append hc.trim).append (sealed_of_no_quote (by decide))
    | [] | [_] | [_, _] | _ :: _ :: _ :: _ :: _ => exact h

theorem free_of_splice {rest : Text} {stop : Nat} {c : Char} (hn : Free (mask t) n)
    (hk : Free (mask t) k) (hle : k ≤ n) (hc : isQuote c = false) :
    Free (mask (t.splice ⟨n, stop⟩ (c :: rest))) k := by
  rw [splice, append_assoc, cons_append, mask_append_cons hn.closed_before hc,
    hn.outside.mask_before]
  exact hk.of_front hn hle (by simp)

theorem caseCall?_free (hn : Free (mask t) n) (hk : Free (mask t) k) (hle : k ≤ n) :
    Free (mask ((caseCall? t n).getD t)) k := by
  cases h : caseCall? t n with
  | none => exact hk
  | some r =>
    obtain ⟨close, rest, rfl⟩ := caseCall?_eq_some h
    exact free_of_splice hn hk hle (by decide)

theorem foldl_caseCall?_alike {l : List Nat} (hl : l.Pairwise fun n k => k ≤ n) (h : Alike t t')
    (hfree : ∀ n ∈ l, Free (mask t) n) :
    Alike (l.foldl (fun t n => (caseCall? t n).getD t) t)
      (l.foldl (fun t n => (caseCall? t n).getD t) t') := by
  induction l generalizing t t' with
  | nil => exact h
  | cons n l ih =>
    obtain ⟨hle, hl⟩ := pairwise_cons.1 hl
    have hn := hfree n (by simp)
    refine ih hl (caseCall?_alike h hn) fun k hk => ?_
    exact caseCall?_free hn (hfree k (by simp [hk])) (hle k hk)

theorem conditionals_alike (h : Alike t t') : Alike (conditionals t) (conditionals t') := by
  rw [conditionals, conditionals, ← show mask t = mask t' from h]
  refine foldl_caseCall?_alike ?_ h fun n hn => ?_
  · exact sortedBy_pairwise id _
  · have hmem : n ∈ calls (mask t) "IF(" ++ calls (mask t) "IF (" := mem_sortedBy.1 hn
    rcases mem_append.1 hmem with hmem | hmem
    · exact (Keyword.free_of_mem_occurrences (by decide) (mem_filter.1 hmem).1).1
    · exact (Keyword.free_of_mem_occurrences (by decide) (mem_filter.1 hmem).1).1

end Functions

/-! ### The current time -/

namespace Functions

/-- The places of what stands between parentheses. -/
theorem free_of_enclosed? {arg : Span} (hc : At (mask t) c) (h : enclosed? c = some (arg, d)) :
    Outside (mask t) arg.start ∧ Free (mask t) arg.stop ∧ Outside (mask t) d.offset ∧
      c.offset ≤ d.offset := by
  obtain ⟨e, he, f, hf, h⟩ := of_bind₂ h
  cases h
  obtain ⟨u, hu, -⟩ := skipWhile_reads c isBlank
  have hopen := sign?_reads he
  obtain ⟨v, hv, -⟩ := skipWhile_reads e (· != ')')
  have hclose := sign?_reads hf
  have hcb := hc.reads hu
  have hce := hcb.reads hopen
  obtain ⟨hclear, hclear'⟩ := (hce.reads hv).clear_of_code hclose (by decide) (by decide)
  refine ⟨(hcb.clear_of_code hopen (by decide) (by decide)).2.outside, hclear.free ?_,
    hclear'.outside, ?_⟩
  · rw [hclose.rest]
    simp
  · exact (((hu.trans hopen).trans hv).trans hclose).le

theorem closed_now : Closed now := Code.closed (by decide)

theorem unixTime?_free (hc : At (mask t) c) (h : unixTime? c = some (e, d)) :
    Free (mask t) e.span.start ∧ Outside (mask t) e.span.stop ∧ Closed e.new := by
  obtain ⟨_, -, f, hf, ⟨arg, g⟩, hg, h⟩ := of_bind₃ h
  cases h
  obtain ⟨word, hword, hread⟩ := exists_of_findSome?_eq_some hf
  have hshows : ∀ w ∈ ["from_unixtime".toList, "unix_timestamp".toList], Shows foldChar w := by
    decide
  obtain ⟨hclear, -, hne⟩ := hc.clear_of_word? hread (hshows word hword)
  exact ⟨hclear.free hne, (free_of_enclosed? (hc.word? hread) hg).2.2.1, closed_now⟩

theorem nowCall?_free (hc : At (mask t) c) (h : nowCall? c = some (e, d)) :
    Free (mask t) e.span.start ∧ Outside (mask t) e.span.stop ∧ Closed e.new := by
  obtain ⟨_, -, f, hf, g, hg, k, hk, h⟩ := of_bind₄ h
  cases h
  obtain ⟨hclear, -, hne⟩ := hc.clear_of_word? hf (by decide)
  have hg' := (((hc.word? hf).skipWhile isBlank).sign? hg).skipWhile isBlank
  exact ⟨hclear.free hne, (hg'.clear_of_code (sign?_reads hk) (by decide) (by decide)).2.outside,
    closed_now⟩

theorem dayOfMonth?_eq_some (h : dayOfMonth? t c = some (e, d)) :
    ∃ f arg, c.word? "dayofmonth" = some f ∧
      enclosed? f = some (arg, d) ∧ e = ⟨c.spanTo d, "DATEPART(DD, ".toList ++ (t.slice arg).trim
        ++ ")".toList⟩ ∧ ∀ t', dayOfMonth? t' c = some (⟨c.spanTo d, "DATEPART(DD, ".toList
          ++ (t'.slice arg).trim ++ ")".toList⟩, d) := by
  obtain ⟨u, hu, f, hf, ⟨arg, g⟩, hg, h⟩ := of_bind₃ h
  cases h
  refine ⟨f, arg, hf, hg, rfl, fun t' => ?_⟩
  simp only [dayOfMonth?, hu, hf, hg, bind_eq_bind, bind_some]
  rfl

theorem dayOfMonth?_eq_none (h : dayOfMonth? t c = none) (t' : Text) : dayOfMonth? t' c = none := by
  cases h' : dayOfMonth? t' c with
  | none => rfl
  | some found =>
    obtain ⟨_, _, -, -, -, hsome⟩ := dayOfMonth?_eq_some h'
    simp [hsome t] at h

theorem dayOfMonth?_free (h : Alike t t') (hc : At (mask t) c)
    (hread : dayOfMonth? t c = some (e, d)) :
    Free (mask t) e.span.start ∧ Outside (mask t) e.span.stop ∧
      ∃ new', dayOfMonth? t' c = some (⟨e.span, new'⟩, d) ∧ Sealed e.new new' := by
  obtain ⟨f, arg, hf, harg, rfl, hsome⟩ := dayOfMonth?_eq_some hread
  obtain ⟨hclear, -, hne⟩ := hc.clear_of_word? hf (by decide)
  obtain ⟨hstart, hstop, hend, -⟩ := free_of_enclosed? (hc.word? hf) harg
  refine ⟨hclear.free hne, hend, _, hsome t', ?_⟩
  exact ((sealed_of_no_quote (by decide)).append (h.sealed_slice hstart hstop).trim).append
    (sealed_of_no_quote (by decide))

/-- The text that stands for a call of DAYOFMONTH is another one than the call. -/
theorem dayOfMonth?_shows (hc : At (mask t) c) (h : dayOfMonth? t c = some (e, d)) (r : Text) :
    t.after e.span.start ≠ e.new ++ r := by
  obtain ⟨f, arg, hf, harg, rfl, -⟩ := dayOfMonth?_eq_some h
  obtain ⟨w, hw, hfold⟩ := word?_reads hf
  obtain ⟨hclear, -, hne⟩ := hc.clear_of_word? hf (by decide)
  have hmask := (hclear.free hne).outside.mask_after
  obtain ⟨a, hm, hoffset, -⟩ := hclear
  intro heq
  -- the third letter would have to be that of both words
  have hthird : (mask (t.after c.offset))[2]? = some 'T' := by
    rw [show t.after c.offset = _ from heq]
    simp only [append_assoc]
    show (mask ('D' :: 'A' :: 'T' :: _))[2]? = some 'T'
    rfl
  rw [hmask, hoffset, hm, after_size_append, hw.rest, getElem?_append_left] at hthird
  · have hletter : (w.map foldChar)[2]? = some (foldChar 'T') := by
      rw [getElem?_map, hthird]
      rfl
    rw [hfold] at hletter
    revert hletter
    decide
  · rw [← length_map foldChar, hfold]
    decide

/-- The calls of DAYOFMONTH change a text, if there is any. -/
theorem replaceClauses_dayOfMonth?_eq_self :
    Edit.replaceClauses t (dayOfMonth? t) = t ↔ (start (mask t)).findAll (dayOfMonth? t) = [] := by
  constructor
  · intro h
    refine Classical.byContradiction fun hne => Edit.applyAll_ne_self hne ?_ ?_ h
    · intro e he
      obtain ⟨c, d, hc, hread⟩ := at_of_mem_findAll he
      obtain ⟨hstart, hstop, -⟩ := dayOfMonth?_free rfl hc hread
      obtain ⟨f, arg, hf, harg, rfl, -⟩ := dayOfMonth?_eq_some hread
      obtain ⟨w, hw, -⟩ := word?_reads hf
      have hle := Nat.le_trans hw.le (free_of_enclosed? (hc.reads hw) harg).2.2.2
      have hsize := le_size_of_isBoundary hstop.isBoundary
      simp only [Edit.fits, hstart.outside.isBoundary, hstop.isBoundary, Bool.and_true,
        Bool.and_eq_true, decide_eq_true_eq]
      exact ⟨hle, hsize⟩
    · intro e he
      obtain ⟨c, d, hc, hread⟩ := at_of_mem_findAll he
      exact dayOfMonth?_shows hc hread
  · intro h
    rw [Edit.replaceClauses, h]
    show t.before t.size ++ [] = t
    rw [before_size, append_nil]

theorem findAll_dayOfMonth?_eq_nil (h : Alike t t') :
    (start (mask t)).findAll (dayOfMonth? t) = [] ↔
      (start (mask t')).findAll (dayOfMonth? t') = [] := by
  have halong := (at_start (mask t)).alongside_findAll (fun d h => dayOfMonth?_eq_none h t')
    fun d e f hd hread => dayOfMonth?_free h hd hread
  rw [← show mask t = mask t' from h]
  exact halong.eq_nil_iff

/-- The current time is put in without a look at data. -/
theorem currentTime_alike (h : Alike t t') : Alike (currentTime t) (currentTime t') := by
  have hnow := (h.replaceFree fun _ _ _ => unixTime?_free).replaceFree fun _ _ _ => nowCall?_free
  rw [currentTime, currentTime]
  generalize Edit.replaceClauses (Edit.replaceClauses t unixTime?) nowCall? = u at hnow
  generalize Edit.replaceClauses (Edit.replaceClauses t' unixTime?) nowCall? = u' at hnow
  have hdated :
      Alike (Edit.replaceClauses u (dayOfMonth? u)) (Edit.replaceClauses u' (dayOfMonth? u')) :=
    hnow.replaceClauses (fun d h => dayOfMonth?_eq_none h u') fun d e f hd hread =>
      dayOfMonth?_free hnow hd hread
  have hself :
      Edit.replaceClauses u (dayOfMonth? u) = u ↔ Edit.replaceClauses u' (dayOfMonth? u') = u' := by
    rw [replaceClauses_dayOfMonth?_eq_self, replaceClauses_dayOfMonth?_eq_self,
      findAll_dayOfMonth?_eq_nil hnow]
  have hempty : ∀ {v v' : Text}, Alike v v' → (Alias.all v).isEmpty = (Alias.all v').isEmpty := by
    intro v v' h
    rw [Alias.all, Alias.all, ← show mask v = mask v' from h, isEmpty_map, isEmpty_map]
  simp only [hself, hempty hdated]
  generalize Edit.replaceClauses u (dayOfMonth? u) = v at hdated
  generalize Edit.replaceClauses u' (dayOfMonth? u') = v' at hdated
  split
  · exact hdated
  · rw [← show mask v = mask v' from hdated]
    split
    · next s hs =>
      have hfree := (Keyword.free_of_findTop? (by decide) hs).1
      exact hdated.insertAt hfree (by decide)
    · exact hdated

end Functions

/-! ### All six -/

namespace Pass

/-- The passes that do not see data. -/
def blind : List Pass :=
  [rowCount, limit, nowFunctions, conditionalUnwrap, sortCast, incompatibleOperator]

/-- Statements with the same mask go through such a pass alike: the texts have the same mask again,
and everything else is the same. The count of an earlier statement is put in as it stands, so it
must not leave a literal open. -/
theorem apply_blind (context : Context) (d : Draft) {p : Pass} (hp : p ∈ blind)
    {q₁ q₂ : Text} (hmask : mask q₁ = mask q₂)
    (hnames : ∀ r ∈ d.catalog.ofClass .text, ∀ c ∈ r.column, isNameChar c = true)
    (hcount : p = rowCount → FoundRows.Asks q₁ →
      ∀ count, d.previous.bind FoundRows.recount? = some count → Closed count) :
    ∃ (e : Draft) (u₁ u₂ : Text), p.apply context { d with text := q₁ } = .ok
    { e with text := u₁ } ∧
      p.apply context { d with text := q₂ } = .ok { e with text := u₂ } ∧ mask u₁ = mask u₂ := by
  simp only [blind, mem_cons, not_mem_nil, or_false] at hp
  rcases hp with rfl | rfl | rfl | rfl | rfl | rfl
  · exact ⟨d, _, _, rfl, rfl, FoundRows.apply_alike hmask (hcount rfl)⟩
  · have hsame : Draft.Alike { d with text := q₁ } { d with text := q₂ } := ⟨q₂, rfl, hmask⟩
    obtain ⟨u, hu, halike⟩ := Limit.apply_alike hsame
    exact ⟨Limit.apply { d with text := q₁ }, _, u, rfl, congrArg Except.ok hu, halike⟩
  · exact ⟨d, _, _, rfl, rfl, Functions.currentTime_alike hmask⟩
  · exact ⟨d, _, _, rfl, rfl, Functions.conditionals_alike hmask⟩
  · exact ⟨d, _, _, rfl, rfl, Ordering.cast_alike d.catalog _ hmask⟩
  · exact ⟨d, _, _, rfl, rfl, Comparison.byLike?_alike d.catalog d.kind hnames hmask⟩

/-- Two questions for the number of rows, behind a statement that closes its literals. -/
theorem apply_blind_recount : let d : Draft := {
      text := "", kind := .select, prepared := false, serialized := false, verify := true
      previous := some "SELECT a FROM t WHERE x = 'it''s' LIMIT 2", template := "", params := []
      catalog := { tables := [("t", {
        name := "t", columns := [⟨"body", "text", .text, true, false⟩] })] } }
    let context : Context := ⟨{}, ⟨0, 0⟩⟩
    let q₁ : Text := "SELECT FOUND_ROWS(), 'a''b'"
    let q₂ : Text := "SELECT FOUND_ROWS(), 'wxyz'"
    rowCount ∈ blind ∧ mask q₁ = mask q₂ ∧
      (∀ r ∈ d.catalog.ofClass .text, ∀ c ∈ r.column, isNameChar c) ∧
      (∀ count, d.previous.bind FoundRows.recount? = some count → Closed count) ∧
      ∃ (e : Draft) (u₁ u₂ : Text), rowCount.apply context { d with text := q₁ } =
        .ok { e with text := u₁ } ∧
        rowCount.apply context { d with text := q₂ } = .ok { e with text := u₂ } ∧
        mask u₁ = mask u₂ := by
  intro d context q₁ q₂
  have hpass : rowCount ∈ blind := by decide
  have hmask : mask q₁ = mask q₂ := by decide
  have hnames : ∀ r ∈ d.catalog.ofClass .text, ∀ c ∈ r.column, isNameChar c := by decide
  have hrecount : d.previous.bind FoundRows.recount?
      = some "COUNT(1) as Computed FROM t WHERE x = 'it''s'".toList := by decide
  have hcount : ∀ count, d.previous.bind FoundRows.recount? = some count → Closed count := by
    intro count h
    obtain rfl := some.inj (hrecount.symm.trans h)
    show state none _ = none
    decide
  exact ⟨hpass, hmask, hnames, hcount, apply_blind context d hpass hmask hnames fun _ _ => hcount⟩

end Pass

end Recast
