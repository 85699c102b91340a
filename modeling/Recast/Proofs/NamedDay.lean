import Recast.Proofs.BalancedCalls
import Recast.Proofs.CountKept

/-!
# What stands in front of FROM

The pass over functions of the current time edits the calls it finds, and then may put a name in
front of the first FROM outside parentheses. If no call starts in front of that FROM, none can be
read there later on either: it would have to be closed in front of FROM
(`CalledAt.exchange_behind`). The edits therefore leave this part alone
(`Undisturbed.replaceClauses`). The name does not: it is put there wherever the call stands that
asks for it (`before_currentTime`).
-/

namespace Recast

open Literal Nesting Cursor Keyword List Text
open Option hiding guard

variable {front t w x z : Text} {n : Nat} {s : Span} {clause : Cursor → Option (Edit × Cursor)}
  {e : Text × Filling}

/-! ### The first FROM -/

/-- What may stand in front of the first FROM outside parentheses. -/
structure Keyword.Ahead (front : Text) : Prop where
  closed : Closed front
  top : codeDepth none 0 front = 0
  before : front.getLast?.any isNameChar = false
  first : ∀ a k r, front = a ++ (k ++ r) → ¬ Topmost "FROM" [] a k r

namespace Keyword.Ahead

open FoundRows (sought_from)

variable {front w z : Text}

theorem topmost (h : Ahead front) (hw : lower w = lower "FROM")
    (hz : z.head?.any isNameChar = false) :
    Topmost "FROM" [] front w z where
  spelled := ⟨w, [], by simp, hw, rfl⟩
  before := h.before
  behind := hz
  closed := h.closed
  top := h.top

/-- The first FROM is found. -/
theorem findTop?_eq (h : Ahead front) (hw : lower w = lower "FROM")
    (hz : z.head?.any isNameChar = false) :
    findTop? (mask (front ++ (w ++ z))) ["FROM"] 0 = some ⟨front.size, front.size + w.size⟩ := by
  have htop := h.topmost hw hz
  obtain ⟨s, hs, hle⟩ :=
    htop.exists_findTop? sought_from.1 sought_from.2.1 (isBoundary_zero _) (Nat.zero_le _)
  obtain ⟨a, k, r, heq, htop', rfl, -⟩ :=
    topmost_of_mem_topPhrases sought_from.1 sought_from.2.1 sought_from.2.2.1
    (mem_of_mem_head? hs)
  rcases Nat.lt_or_eq_of_le hle with hlt | hsame
  · -- one that comes before stands in the front alone
    have hinside := htop'.le_of_lt htop.toStands sought_from heq.symm hlt
    have hcut : (a ++ k) ++ r = front ++ (w ++ z) := by rw [append_assoc, heq]
    obtain ⟨u, hfront, hr⟩ := exists_append_of_size_le hcut hinside
    rw [append_assoc] at hfront
    refine absurd ?_ (h.first a k u hfront)
    refine ⟨⟨htop'.spelled, htop'.before, ?_⟩, htop'.closed, htop'.top⟩
    have hbehind := htop'.behind
    rw [hr] at hbehind
    exact head?_any_of_append hbehind
  · obtain ⟨rfl, hrest⟩ := append_inj_of_size heq.symm hsame
    rw [hs, htop'.eq_of_front sought_from.1 sought_from.2.1 htop.toStands hrest]

end Keyword.Ahead

open FoundRows (sought_from)

/-- What stands in front of the FROM that is found. -/
theorem Keyword.exists_ahead (h : findTop? (mask t) ["FROM"] 0 = some s) :
    ∃ front w z, t = front ++ (w ++ z) ∧ Ahead front ∧ lower w = lower "FROM" ∧
      z.head?.any isNameChar = false ∧ s.start = front.size := by
  obtain ⟨front, w, z, rfl, htop, rfl, -⟩ := topmost_of_mem_topPhrases sought_from.1 sought_from.2.1
    sought_from.2.2.1 (mem_of_mem_head? h)
  refine ⟨front, w, z, rfl, ⟨htop.closed, htop.top, htop.before, ?_⟩, htop.lower_eq,
    htop.behind, rfl⟩
  rintro a k r rfl htop'
  have hne : r ≠ [] := by
    rintro rfl
    obtain ⟨c, hc, hname⟩ := htop'.exists_last sought_from.1 sought_from.2.1
    have hbefore := htop.before
    rw [append_nil, getLast?_append_of_ne_nil _ (ne_nil_of_mem (mem_of_getLast? hc)), hc] at hbefore
    exact absurd (hname.symm.trans hbefore) (by decide)
  rw [← append_nil r] at htop'
  have htop' := htop'.exchange_rest hne (w ++ z)
  obtain ⟨s, hs, hle⟩ :=
    htop'.exists_findTop? sought_from.1 sought_from.2.1 (isBoundary_zero _) (Nat.zero_le _)
  rw [show a ++ (k ++ (r ++ (w ++ z))) = a ++ (k ++ r) ++ (w ++ z) by simp, h] at hs
  cases hs
  have hpos := size_pos hne
  simp only [size_append] at hle
  omega

/-- A name put in front of FROM holds no FROM. -/
theorem Keyword.Ahead.named (h : Ahead front) : Ahead (front ++ "as dom ") where
  closed := h.closed.append (Code.closed (by decide))
  top := by
    rw [Closed.codeDepth_append h.closed, h.top]
    rfl
  before := by
    rw [getLast?_append_of_ne_nil _ (by decide)]
    rfl
  first := by
    intro a k r heq htop
    have hnamed := isNameChar_of_lower htop.lower_eq sought_from.1
    rcases Nat.lt_or_ge a.size front.size with hlt | hge
    · obtain ⟨x, rfl, hx⟩ := Text.exists_append_of_size_le heq.symm (Nat.le_of_lt hlt)
      rcases List.append_eq_append_iff.1 hx with ⟨u, rfl, hr⟩ | ⟨u, rfl, hr⟩
      · refine h.first a k u rfl ⟨⟨htop.spelled, htop.before, ?_⟩, htop.closed, htop.top⟩
        have hbehind := htop.behind
        rw [hr] at hbehind
        exact Text.head?_any_of_append hbehind
      · -- a word does not go on over the end of the front
        have hxne : x ≠ [] := by
          rintro rfl
          simp at hlt
        obtain ⟨c, hc⟩ := Option.isSome_iff_exists.1 (List.getLast?_isSome.2 hxne)
        have hbefore := h.before
        rw [getLast?_append_of_ne_nil _ hxne, hc, Option.any_some,
          hnamed.2 c (List.mem_append_left _ (List.mem_of_getLast? hc))] at hbefore
        cases hbefore
    · obtain ⟨x, rfl, hx⟩ := Text.exists_append_of_size_le heq hge
      obtain ⟨c, k', rfl, hc⟩ := htop.exists_cons
      have hno : ∀ c ∈ ("as dom " : Text), c.toLower ≠ 'f' := by decide
      exact hno c (by rw [hx]; simp) hc

theorem Edit.Exchanges.fits {a old b : Text} {e : Edit} (h : Exchanges t e a old b) :
    Edit.fits t t.size e := by
  obtain ⟨rfl, hspan⟩ := h
  have hstart := isBoundary_append a (old ++ b)
  have hstop := isBoundary_append (a ++ old) b
  rw [append_assoc, size_append] at hstop
  simp [Edit.fits, hspan, hstart, hstop, size_append]

namespace Functions

/-! ### Calls in front of FROM -/

/-- No call goes on over the word FROM. -/
theorem not_isOpening_from (he : e ∈ timeCalls) {h rest : Text} (hx : x ≠ []) (hh : h ≠ [])
    (hw : lower w = lower "FROM") (hcut : w ++ z = h ++ rest) : ¬ IsOpening e.1 (x ++ h) := by
  intro hopening
  rcases hopening.cut hx hh with ⟨v, s, r, hs, hsne, k, rfl, hk⟩ | ⟨c, r, rfl, hc⟩
  · have hclash : ∀ e ∈ timeCalls, ∀ s ∈ e.1.tail.tails, s ≠ [] → clashesAt foldChar "FROM" s := by
      decide
    have hsmem : s ∈ e.1.tail.tails := by
      rw [mem_tails, hs]
      exact suffix_append v s
    rw [append_assoc] at hcut
    refine false_of_clashesAt (t := w) ?_ hcut hk
    rw [clashesAt_congr (map_foldChar_of_lower hw (by decide))]
    exact hclash e he s hsmem hsne
  · obtain ⟨y, w, rfl, hy, -⟩ := map_eq_cons_iff.1 hw
    obtain ⟨rfl, -⟩ := cons.inj hcut
    rcases hc with hblank | rfl
    · rw [toLower_of_isBlank hblank] at hy
      rw [hy] at hblank
      exact absurd hblank (by decide)
    · exact absurd hy (by decide)

theorem exists_close_of_codeDepth {d : Nat} (h : codeDepth none (d + 1) x = 0) :
    ∃ u v, x = u ++ ')' :: v ∧ Closed u := by
  by_cases hmem : ')' ∈ mask x
  · obtain ⟨a, b, hm⟩ := append_of_mem hmem
    obtain ⟨u, v, rfl, hu, -⟩ := exists_code hm (by decide) (by decide)
    exact ⟨u, v, rfl, hu⟩
  · have hlevel := level?_of_no_close (fun c hc hclose => hmem (hclose ▸ hc)) (d + 1)
    rw [← foldl_step_mask, foldl_step_of_level? hlevel] at h
    omega

theorem callable_of_mem_timeCalls (he : e ∈ timeCalls) : Callable foldChar e.1 := by
  rcases mem_cons.1 he with rfl | he
  · exact ⟨by decide, by decide, by decide⟩
  · exact callable_of_mem_clockCalls he

/-- A call that starts in front of FROM is there whatever stands behind. -/
theorem CalledAt.exchange_behind (he : e ∈ timeCalls) (hfront : Ahead front)
    (hw : lower w = lower "FROM") (hcall : CalledAt e.1 e.2 (front ++ (w ++ z)) n)
    (hn : n < front.size) (y : Text) : CalledAt e.1 e.2 (front ++ y) n := by
  obtain ⟨a, r, hcut, rfl, ha, hlast, hcall⟩ := hcall
  obtain ⟨x, rfl, rfl⟩ := exists_append_of_size_le hcut.symm (Nat.le_of_lt hn)
  have hx : x ≠ [] := by
    rintro rfl
    simp at hn
  have hclosed : Closed x := ha.append_iff.1 hfront.closed
  refine ⟨a, x ++ y, by simp, rfl, ha, hlast, hcall.exchange ?_ ?_⟩
  · intro h rest hs hh
    exact not_isOpening_from he hx hh hw hs
  · -- the parenthesis is closed in the front, since FROM stands outside
    rintro h x' u v rfl hopening - hu
    have hh := hopening.no_quote (callable_of_mem_timeCalls he)
    have htop := hfront.top
    obtain ⟨k, rfl, hk⟩ := hopening.isPlain (callable_of_mem_timeCalls he)
    rw [Closed.codeDepth_append ha, append_assoc,
      Closed.codeDepth_append (balanced_of_isPlain hk).closed,
      (balanced_of_isPlain hk).depth] at htop
    obtain ⟨u', v', rfl, hu'⟩ :=
      exists_close_of_codeDepth (show codeDepth none (codeDepth none 0 a + 1) x' = 0 from htop)
    refine ⟨u', v' ++ y, by simp, ?_⟩
    cases hfill : e.2 with
    | any => exact hu'
    | blank =>
      rw [hfill] at hu
      exact absurd (hu ')' (by simp)) (by decide)

/-- A call behind FROM starts behind the character that ends the word. -/
theorem CalledAt.exists_behind (he : e ∈ timeCalls) (hw : lower w = lower "FROM")
    (hz : z.head?.any isNameChar = false) (hcall : CalledAt e.1 e.2 (front ++ (w ++ z)) n)
    (hn : front.size ≤ n) : ∃ c z', z = c :: z' ∧ size (front ++ (w ++ [c])) ≤ n := by
  obtain ⟨a, r, hcut, rfl, -, hlast, hcall⟩ := hcall
  obtain ⟨x, rfl, hx⟩ := exists_append_of_size_le hcut hn
  have hname := isNameChar_of_lower hw sought_from.1
  -- no call begins inside the word or at its end
  have hinside {y : Text} (hy : y ≠ []) (hmem : ∀ c ∈ y, c ∈ w) :
      (front ++ y).getLast?.any isWordChar := by
    obtain ⟨c, hc⟩ := isSome_iff_exists.1 (getLast?_isSome.2 hy)
    rw [getLast?_append_of_ne_nil _ hy, hc]
    exact Comparison.of_isNameChar (P :=
      fun c => isWordChar c) (hname.2 c (hmem c (mem_of_getLast? hc))) (by decide)
  rcases append_eq_append_iff.1 hx with ⟨u, rfl, hz'⟩ | ⟨u, rfl, rfl⟩
  · cases u with
    | nil =>
      rw [append_nil, hinside hname.1 fun c hc => hc] at hlast
      cases hlast
    | cons c u =>
      refine ⟨c, u ++ r, hz', ?_⟩
      simp only [size_append, size_cons, size_nil]
      omega
  · cases x with
    | nil => exact absurd hcall (Calls.not_from he hw hz)
    | cons c x =>
      rw [hinside (cons_ne_nil c x) fun y hy => mem_append_left _ hy] at hlast
      cases hlast

/-! ### Passes that work behind FROM -/

/-- No call starts in front of the word `w` behind `front`. -/
structure Undisturbed (front w t : Text) : Prop where
  cut : ∃ z, t = front ++ (w ++ z) ∧ z.head?.any isNameChar = false
  behind : ∀ e ∈ timeCalls, ∀ n, CalledAt e.1 e.2 t n → front.size ≤ n

/-- Calls that are replaced behind FROM leave what stands in front of it, and make no call there. -/
theorem Undisturbed.replaceClauses (h : Undisturbed front w t) (hfront : Ahead front)
    (hw : lower w = lower "FROM") (hclause : ∀ c e d, At (mask t) c → clause c = some (e, d) →
      e.span = c.spanTo d ∧ ∃ f ∈ timeCalls, CalledAt f.1 f.2 t c.offset) :
    Undisturbed front w (Edit.replaceClauses t clause) := by
  obtain ⟨⟨z, rfl, hz⟩, hbehind⟩ := h
  have hedits : ∀ e ∈ (start (mask (front ++ (w ++ z)))).findAll clause,
      ∃ c z', z = c :: z' ∧ size (front ++ (w ++ [c])) ≤ e.span.start := by
    intro e he
    obtain ⟨c, d, hc, hread⟩ := at_of_mem_findAll he
    obtain ⟨hspan, f, hf, hcall⟩ := hclause c e d hc hread
    rw [hspan]
    exact hcall.exists_behind hf hw hz (hbehind f hf _ hcall)
  have hcut : ∃ z', Edit.replaceClauses (front ++ (w ++ z)) clause = front ++ (w ++ z') ∧
      z'.head?.any isNameChar = false := by
    cases z with
    | nil =>
      have hnone : (start (mask (front ++ (w ++ [])))).findAll clause = [] := by
        refine eq_nil_iff_forall_not_mem.2 fun e he => ?_
        obtain ⟨c, z', hnil, -⟩ := hedits e he
        cases hnil
      exact ⟨[], by rw [Edit.replaceClauses, hnone, Edit.applyAll_nil], rfl⟩
    | cons c z =>
      have hprefix : front ++ (w ++ [c]) <+: front ++ (w ++ c :: z) := ⟨z, by simp⟩
      obtain ⟨z', hz'⟩ := Edit.prefix_applyAll hprefix fun e he => by
        obtain ⟨c', z', hcons, hle⟩ := hedits e he
        cases hcons
        exact hle
      exact ⟨c :: z', by rw [Edit.replaceClauses, ← hz']; simp, hz⟩
  refine ⟨hcut, fun e he n hcall => ?_⟩
  obtain ⟨z', heq, -⟩ := hcut
  rw [heq] at hcall
  by_contra hlt
  exact hlt (hbehind e he n (hcall.exchange_behind he hfront hw (Nat.lt_of_not_le hlt) (w ++ z)))

theorem IsClock.reads (hclause : IsClock clause) (c : Cursor) (e : Edit) (d : Cursor)
    (hc : At (mask t) c) (h : clause c = some (e, d)) :
    e.span = c.spanTo d ∧ ∃ f ∈ timeCalls, CalledAt f.1 f.2 t c.offset := by
  obtain ⟨f, hf, hcall⟩ := hclause.called t c e d hc h
  exact ⟨hclause.span c e d h, f, mem_cons_of_mem _ hf, hcall⟩

theorem span_of_dayOfMonth? (c : Cursor) (e : Edit) (d : Cursor)
    (h : dayOfMonth? t c = some (e, d)) : e.span = c.spanTo d := by
  obtain ⟨_, -, f, -, ⟨arg, g⟩, -, h⟩ := of_bind₃ h
  cases h
  rfl

/-- The text with the current time put for the calls that ask for it. -/
def timed (t : Text) : Text := Edit.replaceClauses (Edit.replaceClauses t unixTime?) nowCall?

/-- The text with DATEPART put for the calls of DAYOFMONTH as well. -/
def dated (t : Text) : Text := Edit.replaceClauses (timed t) (dayOfMonth? (timed t))

theorem Undisturbed.dated (h : Undisturbed front w t) (hfront : Ahead front)
    (hw : lower w = lower "FROM") : Undisturbed front w (dated t) :=
  ((h.replaceClauses hfront hw isClock_unixTime?.reads).replaceClauses hfront hw
    isClock_nowCall?.reads).replaceClauses
    hfront hw fun c e d hc hread =>
      ⟨span_of_dayOfMonth? c e d hread, ("dayofmonth", .any), by simp [timeCalls],
        calledAt_of_dayOfMonth? hc hread⟩

/-! ### The name of the day -/

/-- Whether the pass puts a name in: DAYOFMONTH is called, and nothing has a name. -/
def namesDay (t : Text) : Bool :=
  !((start (mask (timed t))).findAll (dayOfMonth? (timed t))).isEmpty &&
    (Alias.all (dated t)).isEmpty

/-- DATEPART is not spelled as DAYOFMONTH is. -/
theorem dated_eq_timed_iff (t : Text) :
    dated t = timed t ↔ (start (mask (timed t))).findAll (dayOfMonth? (timed t)) = [] := by
  rw [dated]
  refine ⟨fun hsame => by_contra fun hne => ?_, fun hnone => by
    rw [Edit.replaceClauses, hnone, Edit.applyAll_nil]⟩
  refine Edit.applyAll_ne_self hne (fun e he => ?_) (fun e he r hafter => ?_) hsame
  · obtain ⟨c, d, hc, hread⟩ := at_of_mem_findAll he
    obtain ⟨a, h, u, b, -, -, -, hcut, -⟩ := exists_of_dayOfMonth? hc hread
    exact hcut.fits
  · obtain ⟨c, d, hc, hread⟩ := at_of_mem_findAll he
    obtain ⟨a, _, u, b, -, ⟨w, g, rfl, hfold, -⟩, -, hcut, hnew⟩ := exists_of_dayOfMonth? hc hread
    rw [hcut.span, hcut.cut, hnew] at hafter
    have hclash : clashesAt foldChar "DATEPART(DD, " "dayofmonth" := by decide
    refine false_of_clashesAt (r := trim u ++ ")" ++ r) (q := g ++ ['('] ++ (u ++ [')']) ++ b)
      hclash ?_ hfold
    simpa using hafter.symm

theorem namesDay_iff (t : Text) :
    namesDay t ↔ dated t ≠ timed t ∧ (Alias.all (dated t)).isEmpty := by
  rw [namesDay, Bool.and_eq_true, Bool.not_eq_true', isEmpty_eq_false_iff, Ne, Ne,
    dated_eq_timed_iff]

theorem currentTime_of_not_namesDay (h : namesDay t = false) : currentTime t = dated t := by
  rw [currentTime, ← timed]
  split
  · rfl
  · next hcond =>
    rw [Bool.or_eq_true, decide_eq_true_eq, Bool.not_eq_true', not_or, Bool.not_eq_false] at hcond
    simp [(namesDay_iff t).2 hcond] at h

theorem currentTime_of_namesDay (h : namesDay t)
    (hs : findTop? (mask (dated t)) ["FROM"] 0 = some s) :
    currentTime t = (dated t).insertAt s.start "as dom " := by
  obtain ⟨hne, halias⟩ := (namesDay_iff t).1 h
  rw [currentTime, ← timed, ← dated]
  split
  · next hcond =>
    rw [Bool.or_eq_true, decide_eq_true_eq, halias] at hcond
    exact absurd hcond (not_or_intro hne (by decide))
  · rw [hs]

theorem exists_of_calledAt_dayOfMonth (h : CalledAt "dayofmonth" .any t n) :
    ∃ c x, At (mask t) c ∧ c.offset = n ∧ c.rest ≠ [] ∧ dayOfMonth? t c = some x := by
  obtain ⟨a, r, rfl, rfl, ha, hlast, hcall⟩ := h
  obtain ⟨c, d, u, v, hc, hoffset, hafter, hne, hd, ⟨g, hrest, hg⟩, -⟩ :=
    hcall.exists_at ⟨by decide, by decide, by decide⟩ ha hlast
  obtain ⟨arg, e, he⟩ := exists_enclosed? hrest hg
  refine ⟨c, (⟨c.spanTo e, "DATEPART(DD, " ++ trim (slice (a ++ r) arg) ++ ")"⟩, e), hc,
    hoffset, hne, ?_⟩
  rw [dayOfMonth?, hafter, hd]
  show (enclosed? d).bind _ = _
  rw [he]
  rfl

theorem le_of_calledAt {bound : Nat} (hspan : ∀ c e d, clause c = some (e, d) → e.span = c.spanTo d)
    (hfinds : ∀ e ∈ (start (mask t)).findAll clause, bound ≤ e.span.start)
    (hread : ∃ c x, At (mask t) c ∧ c.offset = n ∧ c.rest ≠ [] ∧ clause c = some x) :
    bound ≤ n := by
  obtain ⟨c, ⟨x, d⟩, hc, rfl, hne, hread⟩ := hread
  obtain ⟨y, b, d', -, hread', hmem, hplace⟩ := hc.exists_covering hne hread
  have hle := hfinds y hmem
  rw [hspan b y d' hread'] at hle
  rcases hplace with rfl | hplace
  · exact hle
  · exact Nat.le_trans hle hplace.1

/-- **What stands in front of FROM.** Where no call starts in front of the first FROM outside
parentheses, the pass leaves what stands there as it is, but for the name that is put in front of
FROM if DAYOFMONTH is called anywhere and nothing has a name. -/
theorem before_currentTime {t : Text} {s : Span} (hfrom : findTop? (mask t) ["FROM"] 0 = some s)
    (hunix : ∀ e ∈ (start (mask t)).findAll unixTime?, s.start ≤ e.span.start)
    (hnow : ∀ e ∈ (start (mask t)).findAll nowCall?, s.start ≤ e.span.start)
    (hday : ∀ e ∈ (start (mask t)).findAll (dayOfMonth? t), s.start ≤ e.span.start) :
    ∃ s', findTop? (mask (currentTime t)) ["FROM"] 0 = some s' ∧
      (currentTime t).before s'.start = t.before s.start ++
        (if namesDay t then ("as dom " : Text) else []) := by
  obtain ⟨front, w, z, rfl, hfront, hw, hz, hstart⟩ := exists_ahead hfrom
  rw [hstart] at hunix hnow hday
  have h : Undisturbed front w (front ++ (w ++ z)) := by
    refine ⟨⟨z, rfl, hz⟩, fun e he n hcall => ?_⟩
    simp only [timeCalls, clockCalls, mem_cons, not_mem_nil, or_false] at he
    rcases he with rfl | rfl | rfl | rfl
    · exact le_of_calledAt span_of_dayOfMonth? hday (exists_of_calledAt_dayOfMonth hcall)
    · exact le_of_calledAt isClock_unixTime?.span hunix (readsAll_unixTime? (by simp) _ _ hcall)
    · exact le_of_calledAt isClock_unixTime?.span hunix (readsAll_unixTime? (by simp) _ _ hcall)
    · exact le_of_calledAt isClock_nowCall?.span hnow (readsAll_nowCall? _ _ hcall)
  obtain ⟨⟨z', hdated, hz'⟩, -⟩ := h.dated hfront hw
  have hfound := hfront.findTop?_eq hw hz'
  rw [hstart, before_size_append]
  cases hnames : namesDay (front ++ (w ++ z)) with
  | false =>
    rw [currentTime_of_not_namesDay hnames, hdated]
    refine ⟨_, hfound, ?_⟩
    simp
  | true =>
    rw [← hdated] at hfound
    rw [currentTime_of_namesDay hnames hfound, hdated, insertAt, before_size_append,
      after_size_append]
    refine ⟨_, hfront.named.findTop?_eq hw hz', ?_⟩
    rw [before_size_append]
    rfl

/-- A statement that has a name already. -/
theorem before_currentTime_aliased :
    findTop? (mask "SELECT (a) AS b FROM t WHERE c < NOW() AND DAYOFMONTH(d) = 1") ["FROM"] 0 =
      some ⟨16, 20⟩ ∧
      ∃ s', findTop?
        (mask (currentTime "SELECT (a) AS b FROM t WHERE c < NOW() AND DAYOFMONTH(d) = 1"))
          ["FROM"] 0
          = some s' ∧
        (currentTime "SELECT (a) AS b FROM t WHERE c < NOW() AND DAYOFMONTH(d) = 1").before s'.start
          = "SELECT (a) AS b " := by
  have hfrom :
      findTop? (mask "SELECT (a) AS b FROM t WHERE c < NOW() AND DAYOFMONTH(d) = 1") ["FROM"] 0
      = some ⟨16, 20⟩ := by decide +kernel
  obtain ⟨s', hs', hbefore⟩ :=
    before_currentTime hfrom (by decide +kernel) (by decide +kernel) (by decide +kernel)
  exact ⟨hfrom, s', hs', hbefore.trans (by decide +kernel)⟩

/-- A day of the month that is only compared with names the column that is selected. -/
theorem currentTime_names_column :
    findTop? (mask "SELECT a FROM t WHERE DAYOFMONTH(d) = 1") ["FROM"] 0 = some ⟨9, 13⟩ ∧
      (start (mask "SELECT a FROM t WHERE DAYOFMONTH(d) = 1")).findAll unixTime? = [] ∧
      (start (mask "SELECT a FROM t WHERE DAYOFMONTH(d) = 1")).findAll nowCall? = [] ∧
      ((start (mask "SELECT a FROM t WHERE DAYOFMONTH(d) = 1")).findAll
        (dayOfMonth? "SELECT a FROM t WHERE DAYOFMONTH(d) = 1")).map (·.span.start) = [22] ∧
      currentTime "SELECT a FROM t WHERE DAYOFMONTH(d) = 1" =
        "SELECT a as dom FROM t WHERE DATEPART(DD, d) = 1" := by
  decide +kernel

end Functions

end Recast
