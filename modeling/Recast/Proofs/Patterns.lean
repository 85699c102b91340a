import Recast.Proofs.AliasList
import Recast.Proofs.Tokens
import Recast.Proofs.WhereClauses

/-!
# Patterns without escapes

In the literal behind a LIKE every escaped wildcard is put in brackets. What is left has no escaped
wildcard in any pattern: the brackets make no new escape, and they change neither where a literal
ends nor which literals are patterns (`not_escapedAt_apply`). As only data is changed, no call is
made (`Settled.wildcard`).
-/

namespace Recast

open Literal List Text

variable {a new old r t u u' v w y z : Text} {c q q' : Char} {n : Nat} {s : Option Char}

/-! ### The inside of a literal -/

namespace Literal

/-- The front of the inside of a literal. -/
theorem Inside.of_append (h : Inside q (u ++ v)) : Inside q u := by
  generalize hw : u ++ v = w at h
  induction h generalizing u with
  | nil =>
    rw [(append_eq_nil_iff.1 hw).1]
    exact .nil
  | close =>
    rcases append_eq_singleton_iff.1 hw with ⟨rfl, -⟩ | ⟨rfl, -⟩
    · exact .nil
    · exact .close
  | @data c w hc _ ih =>
    cases u with
    | nil => exact .nil
    | cons d u =>
      obtain ⟨rfl, htail⟩ := cons.inj hw
      exact .data hc (ih htail)
  | @doubled w _ ih =>
    match u, hw with
    | [], _ => exact .nil
    | [d], hw =>
      obtain ⟨rfl, -⟩ := cons.inj hw
      exact .close
    | d :: e :: u, hw =>
      obtain ⟨rfl, htail⟩ := cons.inj hw
      obtain ⟨rfl, hrest⟩ := cons.inj htail
      exact .doubled (ih hrest)

theorem Inside.of_data (hw : ∀ c ∈ w, c ≠ q) (hu : Inside q u) : Inside q (w ++ u) := by
  induction w with
  | nil => exact hu
  | cons c w ih => exact .data (hw c (by simp)) (ih (forall_mem_cons.1 hw).2)

/-- The character that is read may be followed by what the scanner goes on with. -/
theorem Reading.cons (hq : isQuote q) (h : Reading q s (c :: t)) (hr : Reading q (next s c) r) :
    Reading q s (c :: r) := by
  by_cases hc : c = q
  · subst hc
    rcases h with ⟨rfl, -⟩ | ⟨rfl, -⟩
    · rw [next_some_self] at hr
      rcases hr with ⟨hsome, -⟩ | ⟨-, rfl | ⟨v, rfl, hv⟩⟩
      · cases hsome
      · exact .inl ⟨rfl, .close⟩
      · exact .inl ⟨rfl, .doubled hv⟩
    · rw [next_none_of_isQuote hq] at hr
      rcases hr with ⟨-, hinside⟩ | ⟨hnone, -⟩
      · exact .inr ⟨rfl, .inr ⟨r, rfl, hinside⟩⟩
      · cases hnone
  · obtain rfl := h.eq_some hc
    rw [next_some_of_ne hc] at hr
    rcases hr with ⟨-, hinside⟩ | ⟨hnone, -⟩
    · exact .inl ⟨rfl, .data hc hinside⟩
    · cases hnone

section

variable {q : Char} {u n₁ n₂ : Text} (hq : isQuote q = true) (h : Inside q u) (hn₁ : Closed n₁)
include hq h hn₁

theorem Inside.next_eq (hcut : q :: u = n₁ ++ c :: n₂) : c = q := by
  cases n₁ with
  | nil => exact (cons.inj hcut).1.symm
  | cons d w =>
    obtain ⟨rfl, rfl⟩ := cons.inj hcut
    rw [closed_quote hq] at hn₁
    have hreading : Reading q (state (some q) w) (c :: n₂) := Reading.run hq (.inl ⟨rfl, h⟩)
    rw [hn₁] at hreading
    rcases hreading with ⟨hsome, -⟩ | ⟨-, hnil | ⟨v, hv, -⟩⟩
    · cases hsome
    · cases hnil
    · exact (cons.inj hv).1

theorem Inside.getLast?_of_closed (hcut : q :: u = n₁ ++ n₂) (hne : n₁ ≠ []) :
    n₁.getLast? = some q := by
  obtain ⟨d, w, rfl⟩ := exists_cons_of_ne_nil hne
  obtain ⟨rfl, rfl⟩ := cons.inj hcut
  rw [closed_quote hq] at hn₁
  have hlast := h.of_append.getLast?_eq hq hn₁
  rw [getLast?_cons, hlast]
  rfl

end

end Literal

/-! ### Brackets -/

namespace Text

theorem replaceWord_of_not_infix (hne : old ≠ []) (new : Text) (h : ¬ old <:+: t) :
    replaceWord t old new = t := by
  have hreplaced := replaced_replaceWord hne new t
  generalize replaceWord t old new = r at hreplaced
  induction hreplaced with
  | nil => rfl
  | @keep c t r _ _ ih => rw [ih fun hinfix => h (infix_cons hinfix)]
  | @put t r _ _ => exact absurd (prefix_append old t).isInfix h

/-- Brackets around an escaped character make no escape. -/
theorem Replaced.infix_of_bracket {x y : Char} (hx : x ≠ '\\') (hy : y ≠ '[')
    (h : Replaced ['\\', x] ['[', x, ']'] t r) (hr : ['\\', y] <:+: r) :
    y ≠ x ∧ ['\\', y] <:+: t := by
  induction h with
  | nil => simp at hr
  | @keep c t r hprefix hrest ih =>
    rcases infix_cons_iff.1 hr with hhead | htail
    · obtain ⟨rfl, htail⟩ := cons_prefix_cons.1 hhead
      obtain ⟨r', rfl⟩ := htail
      -- the character behind the backslash is one that is kept
      cases hrest with
      | @keep _ t r _ _ =>
        refine ⟨?_, (prefix_append ['\\', y] t).isInfix⟩
        rintro rfl
        exact hprefix (prefix_append ['\\', y] t)
      | put _ => exact absurd rfl hy
    · obtain ⟨hne, hinfix⟩ := ih htail
      exact ⟨hne, infix_cons hinfix⟩
  | @put t r _ ih =>
    have htail : ['\\', y] <:+: r := by
      rcases infix_cons_iff.1 hr with hhead | hr
      · simp at hhead
      rcases infix_cons_iff.1 hr with hhead | hr
      · exact absurd (cons_prefix_cons.1 hhead).1.symm hx
      rcases infix_cons_iff.1 hr with hhead | hr
      · simp at hhead
      · exact hr
    obtain ⟨hne, hinfix⟩ := ih htail
    exact ⟨hne, hinfix.trans (suffix_append _ t).isInfix⟩

theorem Replaced.reading (hne : old ≠ []) (hold : Code old) (hnew : Code new)
    (hq : isQuote q) (h : Replaced old new t r) (ht : Reading q s t) : Reading q s r := by
  induction h generalizing s with
  | nil => exact ht
  | keep _ _ ih => exact ht.cons hq (ih (ht.step hq))
  | put _ ih =>
    obtain ⟨c, w, rfl⟩ := exists_cons_of_ne_nil hne
    obtain rfl : s = some q := ht.eq_some (ne_of_isQuote hq (hold c (by simp)))
    have hbehind := ht.run hq
    rw [Code.state_eq (valid_some hq) hold] at hbehind
    rcases ih hbehind with ⟨-, hinside⟩ | ⟨hnone, -⟩
    · exact .inl ⟨rfl, hinside.of_data fun d hd => ne_of_isQuote hq (hnew d hd)⟩
    · cases hnone

theorem Replaced.exists_cons (hc : ∀ t, ¬ old <+: c :: t) (h : Replaced old new (c :: t) r) :
    ∃ r', r = c :: r' := by
  generalize ht : c :: t = x at h
  cases h with
  | nil => cases ht
  | @keep d t r _ _ =>
    obtain ⟨rfl, -⟩ := cons.inj ht
    exact ⟨r, rfl⟩
  | @put t' r _ => exact absurd ⟨t', ht.symm⟩ (hc t)

end Text

namespace Wildcard

theorem not_infix_bracket (t : Text) (hc : c ∈ ['_', '%']) : ¬ ['\\', c] <:+: bracket t := by
  intro hinfix
  have hbracket : c ≠ '[' := by
    rintro rfl
    simp at hc
  obtain ⟨hpercent, hinfix⟩ :=
    (replaced_replaceWord (by simp) ['[', '%', ']'] _).infix_of_bracket (by decide) hbracket hinfix
  obtain ⟨hunderscore, -⟩ :=
    (replaced_replaceWord (by simp) ['[', '_', ']'] t).infix_of_bracket (by decide) hbracket hinfix
  simp [hpercent, hunderscore] at hc

theorem bracket_of_not_infix (h : ∀ c ∈ ['_', '%'], ¬ ['\\', c] <:+: t) : bracket t = t := by
  rw [bracket, replaceWord_of_not_infix (by simp) _ (h '_' (by simp)),
    replaceWord_of_not_infix (by simp) _ (h '%' (by simp))]

/-- A literal keeps its quotes. -/
theorem exists_bracket_literal (hq : isQuote q) (hu : Inside q u) :
    ∃ v, bracket (q :: u) = q :: v ∧ Inside q v ∧ state (some q) v = state (some q) u := by
  have hslash : q ≠ '\\' := by
    rintro rfl
    cases hq
  have hfirst := replaced_replaceWord (show ['\\', '_'] ≠ [] by simp) "[_]" (q :: u)
  have hsecond :=
    replaced_replaceWord (show ['\\', '%'] ≠ [] by simp) "[%]"
      (replaceWord (q :: u) ['\\', '_'] "[_]")
  have hreading : Reading q none (q :: u) := .inr ⟨rfl, .inr ⟨u, rfl, hu⟩⟩
  replace hreading := hfirst.reading (by simp) (by decide) (by decide) hq hreading
  replace hreading := hsecond.reading (by simp) (by decide) (by decide) hq hreading
  obtain ⟨w, hw⟩ := hfirst.exists_cons (by simp [hslash.symm])
  rw [hw] at hsecond
  obtain ⟨v, hv⟩ := hsecond.exists_cons (by simp [hslash.symm])
  have hcut : bracket (q :: u) = q :: v := by rw [bracket, hw, hv]
  refine ⟨v, hcut, ?_, ?_⟩
  · rw [hw, hv] at hreading
    rcases hreading with ⟨hsome, -⟩ | ⟨-, hnil | ⟨v', hcons, hv'⟩⟩
    · cases hsome
    · cases hnil
    · obtain ⟨-, rfl⟩ := cons.inj hcons
      exact hv'
  · have hstate := (scan_bracket (q :: u) valid_none 0).1
    rwa [hcut, state_cons, state_cons, next_none_of_isQuote hq] at hstate

end Wildcard

/-! ### Which literals are patterns -/

namespace Wildcard

/-- A text that ends in the word LIKE, blanks apart. -/
def Likes (a : Text) : Prop :=
  ∃ b k g, a = b ++ (k ++ g) ∧ Keyword.Stands "LIKE" [] b k g ∧ ∀ c ∈ g, isBlank c = true

theorem named_like : Keyword.Named "LIKE" := by decide

theorem no_quote_of_like {b k g : Text} (hk : Keyword.Stands "LIKE" [] b k g)
    (hg : ∀ c ∈ g, isBlank c) : Code (k ++ g) := by
  intro c hc
  rcases mem_append.1 hc with hc | hc
  · exact hk.no_quote named_like (by simp) c hc
  · exact isQuote_of_isBlank (hg c hc)

namespace Likes

variable {a : Text} (h : Likes a)
include h

theorem isQuote_getLast? : ∀ c, a.getLast? = some c → isQuote c = false := by
  obtain ⟨b, k, g, rfl, hk, hg⟩ := h
  intro c hc
  have hne : k ++ g ≠ [] := by simp [hk.ne_nil named_like]
  rw [getLast?_append_of_ne_nil _ hne] at hc
  exact no_quote_of_like hk hg c (mem_of_mem_getLast? hc)

/-- The literal behind is a pattern. -/
theorem isPattern (ha : Closed a) (r : Text) : isPattern (mask (a ++ r)) a.size := by
  have hapart : Apart a r := by
    intro q hq hlast
    simp [h.isQuote_getLast? q hlast] at hq
  obtain ⟨b, k, g, rfl, hk, hg⟩ := h
  have hcode := no_quote_of_like hk hg
  have hb : Closed b := ha.of_append hcode
  have hmask : mask (b ++ (k ++ g)) = mask b ++ (k ++ g) := by
    have hwhole := mask_append_code hb (by simp [hk.ne_nil named_like]) hcode []
    rwa [append_nil, show mask [] = [] from rfl, append_nil] at hwhole
  have hbefore :
      before (mask b ++ (k ++ g) ++ mask r) (size (b ++ (k ++ g))) = mask b ++ (k ++ g) := by
    rw [← size_mask (b ++ (k ++ g)), hmask, before_size_append]
  have htrim : trimEnd (mask b ++ (k ++ g)) = mask b ++ k := by
    rw [trimEnd, ← append_assoc, dropEnd_append hg]
    apply dropEnd_of_last
    intro c hc
    rw [getLast?_append_of_ne_nil _ (hk.ne_nil named_like)] at hc
    have hname := (Keyword.isNameChar_of_lower hk.lower_eq named_like).2
    exact isBlank_of_isNameChar (hname c (mem_of_mem_getLast? hc))
  have hsize : k.size = 4 := by rw [← size_lower, hk.lower_eq]; rfl
  have hlead : (mask b ++ k).size - 4 = (mask b).size := by
    rw [size_append, hsize, Nat.add_sub_cancel]
  have hstands : Keyword.Stands "LIKE" [] (mask b) k [] := by
    refine ⟨hk.spelled, ?_, rfl⟩
    rw [hb.getLast?_mask]
    exact hk.before
  obtain ⟨d, -, hd, -⟩ :=
    hstands.exists_here? named_like (by simp) (c := Cursor.ofOffset (mask b ++ k) (mask b).size)
    (by rw [Cursor.ofOffset, before_size_append])
    (by rw [Cursor.ofOffset, after_size_append, append_nil])
  rw [mask_append ha hapart, hmask, isPattern, hbefore, htrim]
  simp only [hlead, Keyword.isAt, hd, isBoundary_append]
  simp [size_append, hsize]

end Likes

/-- Behind a quote only what follows it is looked at. -/
theorem likes_quote (hq : isQuote q) (p y : Text) : Likes (p ++ q :: y) ↔ Likes y := by
  constructor
  · rintro ⟨b, k, g, hcut, hk, hg⟩
    rcases append_cons_eq_append hcut with ⟨w, rfl, rfl⟩ | ⟨w, -, hw⟩
    · refine ⟨w, k, g, rfl, ⟨hk.spelled, ?_, hk.behind⟩, hg⟩
      cases w with
      | nil => rfl
      | cons c w =>
        rw [← getLast?_cons_cons, ← getLast?_append_of_ne_nil p (by simp)]; exact hk.before
    · have hcode := no_quote_of_like hk hg q (by simp [hw])
      simp [hq] at hcode
  · rintro ⟨b, k, g, rfl, hk, hg⟩
    refine ⟨p ++ q :: b, k, g, by simp, ⟨hk.spelled, ?_, hk.behind⟩, hg⟩
    cases b with
    | nil =>
      rw [getLast?_concat]
      rcases isQuote_iff.1 hq with rfl | rfl <;> rfl
    | cons c b => rw [getLast?_append_of_ne_nil _ (by simp)]; exact hk.before

/-- What stands before a literal plays no part behind it. -/
theorem likes_literal (hq : isQuote q) (hu : Inside q u) (hclosed : state (some q) u = none)
    (x y : Text) : Likes (x ++ q :: (u ++ y)) ↔ Likes y := by
  obtain ⟨v, rfl⟩ := getLast?_eq_some_iff.1 (hu.getLast?_eq hq hclosed)
  have hcut : x ++ q :: (v ++ [q] ++ y) = (x ++ q :: v) ++ q :: y := by simp
  rw [hcut, likes_quote hq]

/-- The text before a pattern ends in LIKE. -/
theorem likes_of_isPattern (ha : Closed a) (hapart : Apart a r)
    (h : isPattern (mask (a ++ r)) a.size) : Likes a := by
  obtain ⟨g, hg, hblank, -⟩ := exists_dropEnd isBlank a
  obtain ⟨htrim, hclosed⟩ :=
    ha.mask_dropEnd (p := isBlank) (fun _ => isQuote_of_isBlank) (by decide)
  rw [isPattern, mask_append ha hapart, ← size_mask a, before_size_append, trimEnd, ← htrim,
    Bool.and_eq_true, Keyword.isAt, Bool.and_eq_true] at h
  obtain ⟨hsize, hboundary, hhere⟩ := h
  obtain ⟨d, hd⟩ := Option.isSome_iff_exists.1 hhere
  obtain ⟨front, k, hlead, hoffset, hend, hstands⟩ :=
    Keyword.stands_of_here? (Cursor.at_ofOffset hboundary) hd
      (show Keyword.rest? [] d = some d from rfl)
  have hk : k.size = 4 := by rw [← size_lower, hstands.lower_eq]; rfl
  have hrest : d.rest = [] := by
    have hwhole := congrArg size hlead
    simp only [size_append, Cursor.ofOffset] at hwhole hoffset
    apply eq_nil_of_size
    omega
  rw [hrest] at hlead hstands
  obtain ⟨b, r', hb, -, -, hr', hstands'⟩ := hstands.of_mask named_like (by simp) (by decide) hlead
  obtain rfl : r' = [] := eq_nil_of_size (by rw [← size_mask, hr']; rfl)
  refine ⟨b, k, g, by rw [hg, hb]; simp, ⟨hstands'.spelled, hstands'.before, ?_⟩, hblank⟩
  cases g with
  | nil => rfl
  | cons c g => exact isNameChar_of_isBlank (hblank c (by simp))

end Wildcard

/-! ### Escapes in patterns -/

namespace Wildcard

/-- A literal that is a pattern, with the text before it and behind it. -/
structure Pattern (a : Text) (q : Char) (u b : Text) : Prop where
  closed : Closed a
  likes : Likes a
  quote : isQuote q = true
  inside : Inside q u
  ends : Ends q u b

/-- A backslash before a wildcard, in a pattern. -/
def EscapedAt (t : Text) (n : Nat) : Prop :=
  ∃ a q u c z, t = a ++ q :: (u ++ '\\' :: c :: z) ∧ size (a ++ q :: u) = n ∧ Closed a ∧ Likes a ∧
    isQuote q = true ∧ Inside q (u ++ ['\\', c]) ∧ c ∈ ['_', '%']

/-- What the pass replaces. -/
theorem exists_pattern {s : Span} (hs : s ∈ spans t) (h : isPattern (mask t) s.start) :
    ∃ a q u b, Edit.Exchanges t ⟨s, bracket (t.slice s)⟩ a (q :: u) b ∧ t.slice s = q :: u ∧
      Pattern a q u b := by
  obtain ⟨a, q, u, b, rfl, ha, hlast, hq, hu, hends, rfl⟩ := exists_of_mem_spans hs
  have hapart : Apart a (q :: (u ++ b)) := by
    rintro p - hp ⟨⟩
    exact hlast hp
  exact ⟨a, q, u, b, ⟨by simp, by rw [size_cons, utf8Size_of_isQuote hq]⟩,
    slice_literal hq a u b, ha, likes_of_isPattern ha hapart h, hq, hu, hends⟩

/-- Where no pattern has an escape nothing is changed. -/
theorem apply_of_not_escapedAt (h : ∀ n, ¬ EscapedAt t n) : apply t = t := by
  refine Edit.applyAll_keeps (P := (· = t)) ?_ rfl
  intro e he
  obtain ⟨s, hs, rfl⟩ := mem_map.1 he
  obtain ⟨a, q, u, b, hexchanges, hslice, hpattern⟩ :=
    exists_pattern (mem_filter.1 hs).1 (mem_filter.1 hs).2
  refine ⟨a, q :: u, b, hexchanges, ?_⟩
  have hsame : bracket (q :: u) = q :: u := by
    apply bracket_of_not_infix
    rintro c hc ⟨v, z, hvz⟩
    cases v with
    | nil =>
      obtain ⟨rfl, -⟩ := cons.inj hvz
      cases hpattern.quote
    | cons d v =>
      obtain ⟨rfl, rfl⟩ := cons.inj hvz
      apply h (size (a ++ d :: v))
      refine ⟨a, d, v, c, z ++ b, by rw [hexchanges.cut]; simp, rfl, hpattern.closed,
        hpattern.likes, hpattern.quote, hpattern.inside.of_append, hc⟩
  intro r hr
  rw [hslice, hsame]
  exact hr

/-! ### The pass from front to back -/

/-- `Bracketed x t r`: behind the text `x`, `r` is `t` with the escaped wildcards of its patterns in
brackets. -/
inductive Bracketed : Text → Text → Text → Prop
  | nil {x : Text} : Bracketed x [] []
  | code {x : Text} {c : Char} {t r : Text} : isQuote c = false → Bracketed (x ++ [c]) t r →
    Bracketed x (c :: t) (c :: r)
  | literal {x : Text} {q : Char} {u rest w r : Text} :
      isQuote q = true → Inside q u → Ends q u rest →
    (Likes x → w = bracket (q :: u)) → (¬ Likes x → w = q :: u) → Bracketed (x ++ q :: u) rest r →
    Bracketed x (q :: (u ++ rest)) (w ++ r)

theorem exists_bracketed (x t : Text) : ∃ r, Bracketed x t r := by
  induction t using literal_induction generalizing x with
  | nil => exact ⟨[], .nil⟩
  | code c t hc ih =>
    obtain ⟨r, hr⟩ := ih (x ++ [c])
    exact ⟨c :: r, .code hc hr⟩
  | literal q u rest hq hu hends ih =>
    obtain ⟨r, hr⟩ := ih (x ++ q :: u)
    by_cases hx : Likes x
    · exact ⟨_, .literal hq hu hends (fun _ => rfl) (fun h => absurd hx h) hr⟩
    · exact ⟨_, .literal hq hu hends (fun h => absurd h hx) (fun _ => rfl) hr⟩

/-- The literal that stands for another begins with the same quote and ends in the same state. -/
theorem exists_literal {x : Text} (hq : isQuote q) (hu : Inside q u)
    (hlike : Likes x → w = bracket (q :: u)) (hother : ¬ Likes x → w = q :: u) :
    ∃ v, w = q :: v ∧ Inside q v ∧ state (some q) v = state (some q) u := by
  by_cases hx : Likes x
  · rw [hlike hx]
    exact exists_bracket_literal hq hu
  · exact ⟨u, hother hx, hu, rfl⟩

namespace Bracketed

variable {x : Text}

theorem head?_eq (h : Bracketed x t r) : r.head? = t.head? := by
  cases h with
  | nil => rfl
  | code => rfl
  | literal hq hu _ hlike hother _ =>
    obtain ⟨v, rfl, -⟩ := exists_literal hq hu hlike hother
    rfl

theorem move {x' : Text} (h : Bracketed x t r) (hx : ∀ y, Likes (x ++ y) ↔ Likes (x' ++ y)) :
    Bracketed x' t r := by
  induction h generalizing x' with
  | nil => exact .nil
  | @code x c t r hc _ ih => exact .code hc (ih fun y => by simpa using hx (c :: y))
  | @literal x q u rest w r hq hu hends hlike hother _ ih =>
    have hsame : Likes x ↔ Likes x' := by simpa using hx []
    exact .literal hq hu hends (fun h => hlike (hsame.2 h)) (fun h => hother (mt hsame.1 h))
      (ih fun y => by simpa using hx (q :: (u ++ y)))

theorem append {b s : Text} (h : Bracketed x a r) (ha : Closed a) (hapart : Apart a b)
    (hb : Bracketed (x ++ a) b s) : Bracketed x (a ++ b) (r ++ s) := by
  induction h with
  | nil => simpa using hb
  | @code x c t r hc _ ih =>
    exact .code hc (ih ((closed_cons hc).1 ha) (hapart.of_append (a := [c])) (by simpa using hb))
  | @literal x q u rest w r hq hu hends hlike hother _ ih =>
    obtain ⟨hstate, hrest⟩ := hends.closed hq ha
    rw [cons_append, append_assoc, append_assoc]
    refine .literal hq hu (fun _ => ⟨hstate, ?_⟩) hlike hother
      (ih hrest (hapart.of_append (a := q :: u)) (by simpa using hb))
    cases rest with
    | nil =>
      refine hapart q hq ?_
      rw [append_nil, getLast?_cons, hu.getLast?_eq hq hstate]
      rfl
    | cons d rest => exact (hends (cons_ne_nil d rest)).2

/-- The edits of the pass make the text that the relation gives. -/
theorem weave (h : Bracketed x t r) (hx : Closed x) (hapart : Apart x t) :
    Edit.Weave x.size t (((spansFrom x.size none (shadeFrom none t)).filter fun s =>
      isPattern (mask (x ++ t)) s.start).map fun s => ⟨s, bracket (slice (x ++ t) s)⟩) r := by
  induction h with
  | nil => exact .rest _ _
  | @code x c t r hc _ ih =>
    have hcode : Code [c] := by simpa using hc
    have hrest := ih (hx.append hcode.closed) (hcode.apart.append (by simp) x)
    rw [append_assoc, size_append] at hrest
    rw [← singleton_append, spansFrom_of_no_quote hcode]
    exact .keep [c] hrest
  | @literal x q u rest w r hq hu hends hlike hother h ih =>
    have hrest : Edit.Weave (x.size + size (q :: u)) rest (((spansFrom (x.size + size (q :: u)) none
        (shadeFrom none rest)).filter fun s => isPattern (mask (x ++ q :: (u ++ rest))) s.start).map
          fun s =>
          ⟨s, bracket (slice (x ++ q :: (u ++ rest)) s)⟩) r := by
      cases rest with
      | nil =>
        cases h
        exact .rest _ _
      | cons d rest =>
        obtain ⟨hstate, hhead⟩ := hends (cons_ne_nil d rest)
        have hlast := hu.getLast?_eq hq hstate
        have hclosed : Closed (q :: u) := (closed_quote hq).2 hstate
        have hapart : Apart (q :: u) (d :: rest) := by
          intro p _ hp
          rw [getLast?_cons, hlast] at hp
          cases hp
          exact hhead
        have hrest := ih (hx.append hclosed) (hapart.append (by simp) x)
        rwa [append_assoc, cons_append, size_append] at hrest
    have hsize : size (q :: u) = 1 + u.size := by rw [size_cons, utf8Size_of_isQuote hq]
    rw [spansFrom_literal hq hu hends, ← hsize]
    by_cases hlikes : Likes x
    · rw [filter_cons, if_pos (hlikes.isPattern hx _), map_cons, hsize, slice_literal hq,
        hlike hlikes, ← hsize]
      refine .make (q :: u) _ (fun e he => ?_) hrest
      have hle := hrest.le_start e he
      omega
    · rw [filter_cons, if_neg (mt (likes_of_isPattern hx hapart) hlikes), hother hlikes]
      exact .keep (q :: u) hrest

theorem apply_eq (h : Bracketed [] t r) : apply t = r := (h.weave rfl (apart_nil t)).applyAll

/-- No pattern has an escape once its wildcards are in brackets. -/
theorem not_escaped (h : Bracketed x t (a ++ q :: (u ++ '\\' :: c :: z))) (ha : Closed a)
    (hlikes : Likes (x ++ a)) (hq : isQuote q) (hu : Inside q (u ++ ['\\', c]))
    (hc : c ∈ ['_', '%']) : False := by
  generalize hr : a ++ q :: (u ++ '\\' :: c :: z) = r at h
  induction h generalizing a with
  | nil => simp at hr
  | @code x d t r hd _ ih =>
    cases a with
    | nil => simp [(cons.inj hr).1, hd] at hq
    | cons e a =>
      obtain ⟨rfl, htail⟩ := cons.inj hr
      exact ih ((closed_cons hd).1 ha) (by simpa using hlikes) htail
  | @literal x p v rest w r hp hv hends hlike hother h ih =>
    obtain ⟨v', rfl, hv', hstate⟩ := exists_literal hp hv hlike hother
    have hends' : r ≠ [] → state (some p) v' = none ∧ r.head? ≠ some p := by
      intro hne
      have hrest : rest ≠ [] := by
        rintro rfl
        exact hne (head?_eq_none_iff.1 h.head?_eq)
      rw [hstate, h.head?_eq]
      exact hends hrest
    cases a with
    | nil =>
      obtain ⟨rfl, htail⟩ := cons.inj hr
      have hcut : (u ++ ['\\', c]) ++ z = v' ++ r := by simpa using htail
      rcases append_eq_append_iff.1 hcut with ⟨y, rfl, -⟩ | ⟨y, hy, rfl⟩
      · refine not_infix_bracket (q :: v) hc ?_
        rw [← hlike (by simpa using hlikes)]
        exact ⟨q :: u, y, by simp⟩
      · cases y with
        | nil =>
          refine not_infix_bracket (q :: v) hc ?_
          rw [← hlike (by simpa using hlikes)]
          exact ⟨q :: u, [], by simpa using hy⟩
        | cons d y =>
          -- the literal would end before the escape, which is in it
          obtain ⟨hclosed, hhead⟩ := hends' (by simp)
          rw [hy] at hu
          have hd : d = q := hu.next_eq hq ((closed_quote hq).2 hclosed) rfl
          exact hhead (by rw [hd]; rfl)
    | cons e a =>
      obtain ⟨rfl, htail⟩ := cons.inj hr
      rcases append_cons_eq_append htail with ⟨y, rfl, -⟩ | ⟨y, rfl, rfl⟩
      · -- a literal does not begin right behind LIKE inside another one
        have hlast := hv'.getLast?_of_closed hp ha rfl (by simp)
        have hquote :=
          hlikes.isQuote_getLast? e (by rwa [getLast?_append_of_ne_nil _ (cons_ne_nil e a)])
        simp [hp] at hquote
      · obtain ⟨hclosed, -⟩ := hends' (by simp)
        refine ih (((closed_quote hp).2 hclosed).append_iff.1 ha) ?_ rfl
        rw [append_assoc, cons_append, likes_literal hp hv (hstate ▸ hclosed)]
        exact (likes_literal hp hv' hclosed _ _).1 hlikes

end Bracketed

theorem not_escapedAt_apply (t : Text) : ∀ n, ¬ EscapedAt (apply t) n := by
  rintro n ⟨a, q, u, c, z, hcut, -, ha, hlikes, hq, hu, hc⟩
  obtain ⟨r, hr⟩ := exists_bracketed [] t
  rw [hr.apply_eq] at hcut
  exact (hcut ▸ hr).not_escaped ha hlikes hq hu hc

end Wildcard

/-! ### Patterns and calls -/

namespace Functions

open Wildcard

/-- A call behind a literal that takes the place of another is one that was there. -/
theorem CalledAt.exchange_literal {e : Text × Filling} (he : e ∈ clockCalls) {x : Text}
    (hx : Closed x) (hq : isQuote q) (hu : Inside q u) (hv : Inside q v)
    (hstate : state (some q) v = state (some q) u)
    (hcall : CalledAt e.1 e.2 (x ++ (q :: v ++ y)) n) :
    ∃ k, CalledAt e.1 e.2 (x ++ (q :: u ++ y)) k := by
  have hword := callable_of_mem_clockCalls he
  have hstate' : state none (q :: u) = state none (q :: v) := by
    rw [state_cons, state_cons, next_none_of_isQuote hq, hstate]
  have hno : ∀ {h : Text}, IsOpening e.1 h → q ∉ h := by
    intro h hopening hmem
    simp [hopening.no_quote hword q hmem] at hq
  suffices h : n < x.size ∧ CalledAt e.1 e.2 (x ++ (q :: u ++ y)) n ∨
      ∃ k, x.size + size (q :: u) ≤ k ∧ CalledAt e.1 e.2 (x ++ (q :: u ++ y)) k by
    rcases h with ⟨-, hk⟩ | ⟨k, -, hk⟩
    · exact ⟨n, hk⟩
    · exact ⟨k, hk⟩
  refine hcall.exchange hx hstate' ?_ ?_ ?_
  · intro z r _ _ hr hcall
    refine hcall.exchange ?_ ?_
    · intro h rest hcut hne hopening
      obtain ⟨c, h, rfl⟩ := exists_cons_of_ne_nil hne
      obtain ⟨rfl, -⟩ := cons.inj hcut
      exact hno hopening (by simp)
    · rintro h x u' w rfl hopening hs hadmits
      have hx : Closed x := (Code.closed (hopening.no_quote hword)).append_iff.1 hr
      obtain ⟨hu', hfill⟩ := hadmits.exchange hx
      rcases append_cons_eq_append hs.symm with ⟨z, hz, -⟩ | ⟨z, rfl, rfl⟩
      · obtain rfl := hv.next_eq hq hu'.closed hz
        cases hq
      · refine ⟨x ++ (q :: u ++ z), w, by simp, hfill _ ?_⟩
        cases hf : e.2 with
        | any =>
          rw [hf] at hu'
          show Closed (q :: u ++ z)
          rw [Closed, state_append, hstate', ← state_append]
          exact hu'
        | blank =>
          rw [hf] at hu'
          have hblank := isQuote_of_isBlank (hu' q (by simp))
          simp [hq] at hblank
  · rintro n₁ n₂ hnew hne hn₁ - ⟨h, u', w, hcut, hopening, -⟩
    obtain ⟨c, n₂, rfl⟩ := exists_cons_of_ne_nil hne
    obtain rfl := hv.next_eq hq hn₁ hnew
    obtain ⟨a, word, hcons⟩ := exists_cons_of_mem_clockCalls e he
    obtain ⟨d, h, rfl, -⟩ := (hcons ▸ hopening).exists_cons
    obtain ⟨rfl, -⟩ := cons.inj hcut
    exact hno hopening (by simp)
  · intro hclosed _
    have hlast := hu.getLast?_of_closed hq hclosed (append_nil _).symm (by simp)
    rw [getLast?_append_of_ne_nil _ (cons_ne_nil q u), hlast]
    show isWordChar q = false
    by_contra hchar
    simp [isQuote_of_class (by simpa using hchar) (by decide) (by decide)] at hq

theorem Settled.wildcard (h : Settled t) : Settled (apply t) := by
  refine Edit.applyAll_keeps ?_ h
  intro e he
  obtain ⟨s, hs, rfl⟩ := mem_map.1 he
  obtain ⟨a, q, u, b, hexchanges, hslice, hpattern⟩ :=
    exists_pattern (mem_filter.1 hs).1 (mem_filter.1 hs).2
  obtain ⟨v, hbracket, hv, hstate⟩ := exists_bracket_literal hpattern.quote hpattern.inside
  refine ⟨a, q :: u, b, hexchanges, ?_⟩
  intro r hr e he n hcall
  rw [hslice, hbracket] at hcall
  obtain ⟨k, hk⟩ :=
    hcall.exchange_literal he hpattern.closed hpattern.quote hpattern.inside hv hstate
  exact hr e he k hk

end Functions

end Recast
