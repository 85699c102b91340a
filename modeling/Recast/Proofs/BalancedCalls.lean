import Mathlib.Algebra.Order.BigOperators.Group.List
import Recast.Proofs.Calls
import Recast.Proofs.Levels

/-!
# Parentheses around the current time

A call of NOW, and one of DAYOFMONTH, opens and closes as many parentheses as what is put in its
place (`Edit.codeLevel?_applyAll`). A function of Unix time is read up to the first closing
parenthesis. If that belongs to something inside, the opening parenthesis of the call goes and its
closing one stays: the text is balanced after the pass exactly if all these calls were read to their
own end (`currentTime_balanced_iff`).
-/

namespace Recast

open Literal Cursor Keyword List Text
open Option hiding guard

variable {a k t u : Text} {e : Edit} {edits : List Edit}

namespace Nesting

/-! ### Parentheses opened and closed -/

/-- The parentheses opened, less the ones closed, in a text that the scanner reads from state `s`
on. -/
def codeNet : Option Char → Text → Int
  | _, [] => 0
  | some q, c :: t => codeNet (next (some q) c) t
  | none, c :: t => (if c = '(' then 1 else if c = ')' then -1 else 0) + codeNet (next none c) t

theorem codeNet_append (s : Option Char) (a b : Text) :
    codeNet s (a ++ b) = codeNet s a + codeNet (state s a) b := by
  induction a generalizing s with
  | nil => cases s <;> simp [codeNet]
  | cons c a ih =>
    cases s with
    | some q => exact ih (next (some q) c)
    | none =>
      rw [cons_append, codeNet, codeNet, ih (next none c), Int.add_assoc]
      rfl

theorem Closed.codeNet_append (ha : Closed a) (b : Text) :
    codeNet none (a ++ b) = codeNet none a + codeNet none b := by
  rw [Nesting.codeNet_append, ha]

/-- The level rises by what is opened and not closed. -/
theorem codeNet_of_codeLevel? {s : Option Char} {d k : Nat} (h : codeLevel? s d t = some k) :
    codeNet s t = k - d := by
  induction t generalizing s d with
  | nil =>
    cases s <;> cases h <;> simp [codeNet]
  | cons c t ih =>
    cases s with
    | some q => exact ih h
    | none =>
      obtain ⟨j, hj, h⟩ := bind_eq_some_iff.1 h
      rw [codeNet, ih h]
      rw [level?] at hj
      split at hj
      · cases hj
        rw [if_pos ‹_›]
        omega
      · split at hj
        · split at hj
          · cases hj
          · cases hj
            rw [if_neg ‹_›, if_pos ‹_›]
            omega
        · cases hj
          rw [if_neg ‹_›, if_neg ‹_›]
          omega

theorem codeLevel?_trim (h : Closed t) (d : Nat) :
    codeLevel? none d t.trim = codeLevel? none d t := by
  obtain ⟨a, b, ht, ha, hb⟩ := exists_trim t
  conv => rhs; rw [ht]
  rw [Closed.codeLevel?_append ha.closed, ha.codeLevel?, bind_some,
    Closed.codeLevel?_append (Closed.trim h)]
  cases codeLevel? none d t.trim with
  | none => rfl
  | some k => exact (hb.codeLevel? k).symm

theorem closing?_eq_some_iff {v r : Text} :
    closing? (a ++ '(' :: (v ++ ')' :: r)) a.size = some (a.size + 1 + v.size) ↔
      level? 0 v = some 0 := by
  refine ⟨fun h => ?_, fun h => closing?_of_level? h a r⟩
  obtain ⟨a', v', r', hcut, hopening, hclose, hlevel⟩ := exists_of_closing? h
  obtain ⟨-, hcut⟩ := append_inj_of_size hcut hopening
  obtain ⟨rfl, -⟩ := append_inj_of_size (cons.inj hcut).2 (by omega)
  exact hlevel

end Nesting

namespace Edit

open Nesting

/-! ### Edits that keep the level -/

/-- Closed texts that take every level to the same one. -/
structure Even (old new : Text) : Prop where
  closed_old : Closed old
  closed_new : Closed new
  level : ∀ d, codeLevel? none d new = codeLevel? none d old

theorem Exchanges.slice_eq {old b : Text} (h : Exchanges t e a old b) : t.slice e.span = old := by
  rw [h.cut, h.span, ← append_assoc]
  exact slice_append a old b rfl rfl

theorem codeLevel?_applyAll
    (hedits : ∀ e ∈ edits, ∃ a old b, Exchanges t e a old b ∧ Closed a ∧ Even old e.new) (d : Nat) :
    codeLevel? none d (applyAll t edits) = codeLevel? none d t := by
  refine applyAll_keeps (P := fun r => codeLevel? none d r = codeLevel? none d t)
    (fun e he => ?_) rfl
  obtain ⟨a, old, b, hcut, ha, heven⟩ := hedits e he
  refine ⟨a, old, b, hcut, fun r hr => ?_⟩
  rw [← hr, Closed.codeLevel?_append ha, Closed.codeLevel?_append ha]
  congr 1
  funext k
  rw [Closed.codeLevel?_append heven.closed_new, Closed.codeLevel?_append heven.closed_old,
    heven.level]

/-- A measure from which every edit takes its own share, whatever stands behind it, loses all of the
shares. -/
theorem sum_applyAll {f : Text → Int} {share : Edit → Int}
    (horder : edits.Pairwise fun d e => d.span.stop ≤ e.span.start)
    (hedits : ∀ e ∈ edits, ∃ a old b, Exchanges t e a old b ∧ old ≠ [] ∧
      ∀ r, f (a ++ (e.new ++ r)) = f (a ++ (old ++ r)) - share e) :
    f (applyAll t edits) = f t - (edits.map share).sum := by
  have hpos : ∀ e ∈ edits, e.span.start < e.span.stop ∧ e.span.stop ≤ t.size := by
    intro e he
    obtain ⟨a, old, b, ⟨rfl, hspan⟩, hne, -⟩ := hedits e he
    have hsize := size_pos hne
    rw [hspan]
    simp only [size_append]
    omega
  -- the edits are made from the back, so the induction is on the list from its end
  have hfrom : ∀ (limit : Nat) (done : Text), (∀ e ∈ edits, e.span.stop ≤ limit) →
      f (applyFrom t limit done edits.reverse) = f (t.before limit ++ done) -
        (edits.map share).sum := by
    clear hpos
    induction edits using reverseRecOn with
    | nil => simp [applyFrom]
    | append_singleton front e ih =>
      intro limit done hlimit
      obtain ⟨hfront, -, hle⟩ := pairwise_append.1 horder
      obtain ⟨a, old, b, hcut, -, hshare⟩ := hedits e (by simp)
      obtain ⟨r, hbefore, hmade, heq⟩ := hcut.applyFrom_cons (hlimit e (by simp)) done front.reverse
      have hstop : ∀ d ∈ front, d.span.stop ≤ a.size := by
        intro d hd
        have hd := hle d hd e (by simp)
        rwa [hcut.span] at hd
      rw [reverse_concat, heq, ih hfront (fun d hd => hedits d (by simp [hd])) _ _ hstop,
        hmade, hshare, hbefore, map_append, sum_append]
      simp only [map_cons, map_nil, sum_cons, sum_nil]
      omega
  rw [applyAll_of_ascending (horder.imp_of_mem fun hd _ => (hpos _ hd).1.trans_le),
    hfrom _ _ fun e he => (hpos e he).2, before_size, append_nil]

end Edit

namespace Functions

open Nesting Edit

/-! ### The level of a call -/

theorem IsOpening.isPlain {word h : Text} (hopening : IsOpening word h)
    (hword : Callable foldChar word) : ∃ k, h = k ++ ['('] ∧ ∀ c ∈ k, isPlain c := by
  obtain ⟨w, g, rfl, hfold, hblank⟩ := hopening
  refine ⟨w ++ g, by simp, forall_mem_append.2 ⟨?_, fun c hc => isPlain_of_isBlank (hblank c hc)⟩⟩
  exact tells_foldChar.plain sees_foldChar hfold fun c hc => (hword.plain c hc).2

theorem closed_call (hk : ∀ c ∈ k, isPlain c) (hu : Closed u) :
    Closed (k ++ ['('] ++ (u ++ [')'])) :=
  ((balanced_of_isPlain hk).closed.append (Code.closed (by decide))).append
    (hu.append (Code.closed (by decide)))

theorem codeLevel?_call (hk : ∀ c ∈ k, isPlain c) (hu : Closed u) (d : Nat) :
    codeLevel? none d (k ++ ['('] ++ (u ++ [')'])) = (codeLevel? none (d + 1) u).bind fun j =>
      level? j [')'] := by
  have hopen : Closed (k ++ ['(']) :=
    (balanced_of_isPlain hk).closed.append (Code.closed (by decide))
  have hlevel : codeLevel? none d (k ++ ['(']) = some (d + 1) := by
    rw [Closed.codeLevel?_append (balanced_of_isPlain hk).closed,
      (balanced_of_isPlain hk).codeLevel?]
    rfl
  rw [Closed.codeLevel?_append hopen, hlevel, bind_some, Closed.codeLevel?_append hu]
  congr 1
  funext j
  rw [← level?_mask, Code.mask_eq (by decide)]

/-- What is read up to the first closing parenthesis leaves all those open that were opened in
it. -/
theorem codeLevel?_call_of_no_close (hk : ∀ c ∈ k, isPlain c) (hu : Closed u)
    (hopen : ∀ c ∈ mask u, c ≠ ')') (d : Nat) :
    codeLevel? none d (k ++ ['('] ++ (u ++ [')'])) = some (d + (mask u).count '(') := by
  rw [codeLevel?_call hk hu, ← level?_mask, level?_of_no_close hopen, bind_some,
    show d + 1 + (mask u).count '(' = d + (mask u).count '(' + 1 by omega]
  rfl

theorem codeLevel?_now (d : Nat) : codeLevel? none d now = some d := balanced_now.codeLevel? d

/-! ### Functions of Unix time -/

/-- The stretch ends with the parenthesis that closes the first one in it. -/
def SelfClosing (t : Text) (s : Span) : Prop :=
  (Keyword.findWord? (mask t) "(" s.start).bind (closing? (mask t)) = some (s.stop - 1)

instance (t : Text) (s : Span) : Decidable (SelfClosing t s) := inferInstanceAs (Decidable (_ = _))

/-- What is read as a function of Unix time opens as many parentheses as it holds in front of its
end. -/
theorem exists_count_of_unixTime? (he : e ∈ (start (mask t)).findAll unixTime?) :
    ∃ a old b n, Exchanges t e a old b ∧ old ≠ [] ∧ e.new = now ∧ Closed a ∧ Closed old ∧
      (∀ d, codeLevel? none d old = some (d + n)) ∧ (SelfClosing t e.span ↔ n = 0) := by
  obtain ⟨c, d, hc, hread⟩ := at_of_mem_findAll he
  obtain ⟨rfl, -, f, hf, a, h, u, b, hr, hopen⟩ := exists_of_unixTime? hc hread
  have hquote := hr.opening.no_quote (callable_of_mem_clockCalls hf)
  obtain ⟨k, rfl, hk⟩ := hr.opening.isPlain (callable_of_mem_clockCalls hf)
  have hu := hr.admits.closed
  refine ⟨a, _, b, (mask u).count '(', hr.exchanges now, by simp, rfl, hr.front, closed_call hk hu,
    codeLevel?_call_of_no_close hk hu hopen, ?_⟩
  have hm : mask t = mask a ++ (k ++ '(' :: (mask u ++ ')' :: mask b)) := by
    rw [hr.text, mask_append_code hr.front (by simp) hquote, mask_append_cons hu (by decide)]
    simp
  have hm' : mask t = (mask a ++ k) ++ '(' :: (mask u ++ ')' :: mask b) := by
    rw [hm, append_assoc]
  have hparen : ∀ c ∈ k, c ≠ '(' := by
    rintro c hc rfl
    exact absurd (hk _ hc) (by decide)
  have hplace : c.offset = size (mask a) := by rw [size_mask, hr.start]
  have hend : d.offset - 1 = size (mask a ++ k) + 1 + size (mask u) := by
    rw [← hr.stop]
    simp only [size_append, size_cons, size_nil, size_mask,
      show '('.utf8Size = 1 from rfl, show ')'.utf8Size = 1 from rfl]
    omega
  show (findWord? (mask t) "(" c.offset).bind _ = some (d.offset - 1) ↔ _
  rw [hplace, findWord?_opening hm hparen, bind_some, hend, hm', closing?_eq_some_iff,
    level?_of_no_close hopen, Nat.zero_add, some.injEq]

theorem codeLevel?_unixTime (h : ∀ e ∈ (start (mask t)).findAll unixTime?, SelfClosing t e.span) :
    codeLevel? none 0 (replaceClauses t unixTime?) = codeLevel? none 0 t := by
  refine codeLevel?_applyAll (fun e he => ?_) 0
  obtain ⟨a, old, b, n, hcut, -, hnew, ha, hold, hlevel, hown⟩ := exists_count_of_unixTime? he
  refine ⟨a, old, b, hcut, ha, hold, by rw [hnew]; exact balanced_now.closed, fun d => ?_⟩
  rw [hnew, codeLevel?_now, hlevel, hown.1 (h e he), Nat.add_zero]

theorem codeNet_exchange_unixTime (he : e ∈ (start (mask t)).findAll unixTime?) :
    ∃ a old b, Exchanges t e a old b ∧ old ≠ [] ∧
      ∀ r, codeNet none (a ++ (e.new ++ r)) = codeNet none (a ++ (old ++ r)) - codeNet none
        (t.slice e.span) := by
  obtain ⟨a, old, b, n, hcut, hne, hnew, ha, hold, -⟩ := exists_count_of_unixTime? he
  refine ⟨a, old, b, hcut, hne, fun r => ?_⟩
  have hnow : codeNet none now = 0 := by simpa using codeNet_of_codeLevel? (codeLevel?_now 0)
  rw [Closed.codeNet_append ha, Closed.codeNet_append ha, Closed.codeNet_append hold, hnew,
    Closed.codeNet_append balanced_now.closed, hcut.slice_eq]
  omega

theorem codeNet_slice_unixTime (he : e ∈ (start (mask t)).findAll unixTime?) :
    0 ≤ codeNet none (t.slice e.span) ∧
      (codeNet none (t.slice e.span) = 0 → SelfClosing t e.span) := by
  obtain ⟨a, old, b, n, hcut, -, -, -, -, hlevel, hown⟩ := exists_count_of_unixTime? he
  have hnet : codeNet none (t.slice e.span) = n := by
    rw [hcut.slice_eq, codeNet_of_codeLevel? (hlevel 0)]
    simp
  rw [hown]
  omega

/-- A call that is not read to its own end leaves more closed than before. -/
theorem codeNet_unixTime_lt (he : e ∈ (start (mask t)).findAll unixTime?)
    (hown : ¬ SelfClosing t e.span) :
    codeNet none (replaceClauses t unixTime?) < codeNet none t := by
  have hsum := sum_applyAll (t := t) (pairwise_findAll isClock_unixTime?.span _) fun e he =>
    codeNet_exchange_unixTime he
  have hlt : (((start (mask t)).findAll unixTime?).map fun _ => (0 : Int)).sum
      < (((start (mask t)).findAll unixTime?).map fun e => codeNet none (t.slice e.span)).sum := by
    obtain ⟨hle, hzero⟩ := codeNet_slice_unixTime he
    exact sum_lt_sum _ _ (fun e he => (codeNet_slice_unixTime he).1)
      ⟨e, he, lt_of_le_of_ne hle fun h => hown (hzero h.symm)⟩
  rw [replaceClauses]
  simp only [map_const', sum_replicate, smul_zero] at hlt
  omega

/-- The calls of Unix time leave a balanced text balanced exactly if all are read to their own
end. -/
theorem codeLevel?_unixTime_iff (h : codeLevel? none 0 t = some 0) :
    codeLevel? none 0 (replaceClauses t unixTime?) = some 0 ↔
      ∀ e ∈ (start (mask t)).findAll unixTime?, SelfClosing t e.span := by
  refine ⟨fun hbalanced e he => ?_, fun hall => (codeLevel?_unixTime hall).trans h⟩
  by_contra hown
  have hlt := codeNet_unixTime_lt he hown
  rw [codeNet_of_codeLevel? hbalanced, codeNet_of_codeLevel? h] at hlt
  omega

/-! ### The other calls -/

theorem codeLevel?_nowCall (t : Text) :
    codeLevel? none 0 (replaceClauses t nowCall?) = codeLevel? none 0 t := by
  refine codeLevel?_applyAll (fun e he => ?_) 0
  obtain ⟨c, d, hc, hread⟩ := at_of_mem_findAll he
  obtain ⟨rfl, -, a, h, u, b, hr⟩ := exists_of_nowCall? hc hread
  obtain ⟨k, rfl, hk⟩ := hr.opening.isPlain ⟨by decide, by decide, by decide⟩
  have hu : Balanced u := balanced_of_isPlain fun c hc => isPlain_of_isBlank (hr.admits c hc)
  have hlevel (d : Nat) : codeLevel? none d (k ++ ['('] ++ (u ++ [')'])) = some d := by
    rw [codeLevel?_call hk hu.closed, hu.codeLevel?]
    rfl
  refine ⟨a, _, b, hr.exchanges now, hr.front, ?_, balanced_now.closed, fun d => ?_⟩
  · exact closed_call hk hu.closed
  · rw [hlevel]
    exact codeLevel?_now d

/-- What is put for a call of DAYOFMONTH has the parentheses of the call, with the same between
them. -/
theorem codeLevel?_dayOfMonth (t : Text) :
    codeLevel? none 0 (replaceClauses t (dayOfMonth? t)) = codeLevel? none 0 t := by
  refine codeLevel?_applyAll (fun e he => ?_) 0
  obtain ⟨c, d, hc, hread⟩ := at_of_mem_findAll he
  obtain ⟨a, h, u, b, ha, hopening, hu, hcut, hnew⟩ := exists_of_dayOfMonth? hc hread
  obtain ⟨k, rfl, hk⟩ := hopening.isPlain ⟨by decide, by decide, by decide⟩
  have hname : ∀ c ∈ ("DATEPART" : Text), isPlain c := by decide
  have hunit : Balanced ("DD, " : Text) := balanced_of_isPlain (by decide)
  have hinner : Closed (("DD, " : Text) ++ u.trim) := hunit.closed.append (Closed.trim hu)
  have heq : e.new = ("DATEPART" : Text) ++ ['('] ++ ((("DD, " : Text) ++ u.trim) ++ [')']) := by
    rw [hnew, show ("DATEPART(DD, " : Text) = ("DATEPART" : Text) ++ '(' ::
      ("DD, " : Text) from rfl]
    simp
  refine ⟨a, _, b, hcut, ha, closed_call hk hu, ?_, fun d => ?_⟩
  · rw [heq]
    exact closed_call hname hinner
  · rw [heq, codeLevel?_call hname hinner, codeLevel?_call hk hu,
      Closed.codeLevel?_append hunit.closed, hunit.codeLevel?, bind_some, codeLevel?_trim hu]

theorem codeLevel?_insertAt {new : Text} {n : Nat} (hfront : Closed (t.before n))
    (hnew : Balanced new) (d : Nat) :
    codeLevel? none d (t.insertAt n new) = codeLevel? none d t := by
  conv => rhs; rw [← before_append_after t n]
  rw [insertAt, append_assoc, Closed.codeLevel?_append hfront, Closed.codeLevel?_append hfront]
  congr 1
  funext k
  rw [Closed.codeLevel?_append hnew.closed, hnew.codeLevel?, bind_some]

theorem codeLevel?_currentTime (t : Text) :
    codeLevel? none 0 (currentTime t) = codeLevel? none 0 (replaceClauses t unixTime?) := by
  have hdated :=
    (codeLevel?_dayOfMonth (replaceClauses (replaceClauses t unixTime?) nowCall?)).trans
    (codeLevel?_nowCall (replaceClauses t unixTime?))
  rw [← hdated, currentTime]
  split
  · rfl
  · split
    · next s hs =>
      exact codeLevel?_insertAt (free_of_findTop? (by decide) hs).1.closed_before
        (balanced_of_isPlain (by decide)) 0
    · rfl

/-- **Parentheses around the current time.** A text whose parentheses outside literals are balanced
has balanced parentheses after the pass exactly if every function of Unix time was read to its own
closing parenthesis. -/
theorem currentTime_balanced_iff {t : Text} (h : level? 0 (mask t) = some 0) :
    level? 0 (mask (currentTime t)) = some 0 ↔
      ∀ e ∈ (start (mask t)).findAll unixTime?, SelfClosing t e.span := by
  rw [level?_mask] at h ⊢
  rw [codeLevel?_currentTime]
  exact codeLevel?_unixTime_iff h

/-- Three calls, one of them around another call. -/
theorem currentTime_balanced_dated :
    level? 0 (mask "SELECT FROM_UNIXTIME(x, ':('), DAYOFMONTH(ABS(d)) FROM t WHERE c < NOW( )") =
      some 0 ∧
      level? 0
        (mask (currentTime
          "SELECT FROM_UNIXTIME(x, ':('), DAYOFMONTH(ABS(d)) FROM t WHERE c < NOW( )"))
        = some 0 := by
  have h :
      level? 0 (mask "SELECT FROM_UNIXTIME(x, ':('), DAYOFMONTH(ABS(d)) FROM t WHERE c < NOW( )") =
        some 0 := by
    decide +kernel
  exact ⟨h, (currentTime_balanced_iff h).2 (by decide +kernel)⟩

/-- A function of Unix time around another call leaves a closing parenthesis behind. -/
theorem currentTime_leaves_parenthesis :
    level? 0 (mask "SELECT FROM_UNIXTIME(ABS(x)) FROM t") = some 0 ∧
      currentTime "SELECT FROM_UNIXTIME(ABS(x)) FROM t" = "SELECT getdate()) FROM t" ∧
      level? 0 (mask (currentTime "SELECT FROM_UNIXTIME(ABS(x)) FROM t")) = none := by
  decide +kernel

end Functions

end Recast
