import Recast.Proofs.Escapes
import Recast.Proofs.Patterns
import Recast.Proofs.ReadBack

/-!
# What patterns match

A pattern is read differently in the two dialects: in the source a backslash takes its meaning from
the next character, whatever it is; in the target brackets do, and a backslash is ordinary. A
shortest match of a pattern (`shortest`) tells the two readings apart unless every backslash stands
before a wildcard, and then they are the same.
-/

namespace Recast

open Literal List Text

variable {a b p r s t : Text} {c d : Char}

namespace Wildcard

/-! ### Matching -/

/-- What a pattern asks for at a place. -/
inductive Shape where
  | any
  | one
  | exactly (c : Char)
deriving DecidableEq, Repr

variable {l l' : List Shape}

/-- Whether a text is of the given shapes, one behind another. -/
def Matches : List Shape → Text → Prop
  | [], s => s = []
  | .any :: l, s => ∃ a b, s = a ++ b ∧ Matches l b
  | .one :: l, s => ∃ c r, s = c :: r ∧ Matches l r
  | .exactly c :: l, s => ∃ r, s = c :: r ∧ Matches l r

/-- A character that nothing gives another meaning. -/
def Shape.plain (c : Char) : Shape := if c = '%' then .any else if c = '_' then .one else .exactly c

/-- How the source reads a pattern. -/
def source : Text → List Shape
  | '\\' :: c :: t => .exactly c :: source t
  | c :: t => .plain c :: source t
  | [] => []

/-- How the target reads a pattern. -/
def target : Text → List Shape
  | '[' :: c :: ']' :: t => .exactly c :: target t
  | c :: t => .plain c :: target t
  | [] => []

/-- Whether every backslash stands before a wildcard or at the end. -/
def escapesWildcards : Text → Bool
  | '\\' :: c :: t => (c == '_' || c == '%') && escapesWildcards t
  | _ :: t => escapesWildcards t
  | [] => true

/-! ### Shortest matches -/

/-- The shapes that take a character. -/
def solid (l : List Shape) : List Shape := l.filter (· != .any)

theorem solid_cons (x : Shape) (l : List Shape) : solid (x :: l) = solid [x] ++ solid l :=
  filter_append [x] l

def Shape.Fits (x : Shape) (c : Char) : Prop := x = .one ∨ x = .exactly c

/-- A match has a character for each solid shape, and if it has no more these fit. -/
theorem Matches.fits (h : Matches l s) :
    (solid l).length ≤ s.length ∧
      (s.length ≤ (solid l).length → Forall₂ Shape.Fits (solid l) s) := by
  induction l generalizing s with
  | nil =>
    obtain rfl : s = [] := h
    exact ⟨Nat.le_refl _, fun _ => .nil⟩
  | cons x l ih =>
    cases x with
    | any =>
      obtain ⟨u, v, rfl, hv⟩ := h
      obtain ⟨hle, hfits⟩ := ih hv
      rw [show solid (.any :: l) = solid l from rfl, length_append]
      refine ⟨by omega, fun hlength => ?_⟩
      rw [length_eq_zero_iff.1 (show u.length = 0 by omega)]
      exact hfits (by omega)
    | one =>
      obtain ⟨c, r, rfl, hr⟩ := h
      obtain ⟨hle, hfits⟩ := ih hr
      exact ⟨Nat.succ_le_succ hle,
        fun hlength => .cons (.inl rfl) (hfits (Nat.le_of_succ_le_succ hlength))⟩
    | exactly c =>
      obtain ⟨r, rfl, hr⟩ := h
      obtain ⟨hle, hfits⟩ := ih hr
      exact ⟨Nat.succ_le_succ hle,
        fun hlength => .cons (.inr rfl) (hfits (Nat.le_of_succ_le_succ hlength))⟩

def shortest : List Shape → Text
  | [] => []
  | .any :: l => shortest l
  | .one :: l => 'x' :: shortest l
  | .exactly c :: l => c :: shortest l

theorem matches_shortest (l : List Shape) :
    Matches l (shortest l) ∧ (shortest l).length = (solid l).length := by
  induction l with
  | nil => exact ⟨rfl, rfl⟩
  | cons x l ih =>
    cases x with
    | any => exact ⟨⟨[], _, rfl, ih.1⟩, ih.2⟩
    | one => exact ⟨⟨'x', _, rfl, ih.1⟩, congrArg (· + 1) ih.2⟩
    | exactly c => exact ⟨⟨_, rfl, ih.1⟩, congrArg (· + 1) ih.2⟩

/-! ### Brackets -/

theorem bracket_escaped (hc : c = '_' ∨ c = '%') (t : Text) :
    bracket ('\\' :: c :: t) = '[' :: c :: ']' :: bracket t := by
  rcases hc with rfl | rfl
  · have hfirst : replaceWord ('\\' :: '_' :: t) ['\\', '_'] "[_]"
        = '[' :: '_' :: ']' :: replaceWord t ['\\', '_'] "[_]" := replaceWord_append (by simp) _ t
    rw [bracket, hfirst, replaceWord_cons (by simp), replaceWord_cons (by simp),
      replaceWord_cons (by simp), bracket]
  · exact replaceWord_append (show ['\\', '%'] ≠ [] by simp) "[%]" _

/-- A character that escapes no wildcard stays in front. -/
theorem bracket_cons (h : ∀ d r, c = '\\' → t = d :: r → d ≠ '_' ∧ d ≠ '%') :
    bracket (c :: t) = c :: bracket t := by
  have hfirst : ¬ ['\\', '_'] <+: c :: t := by
    rintro ⟨r, hr⟩
    cases hr
    exact (h _ r rfl rfl).1 rfl
  rw [bracket, replaceWord_cons hfirst, replaceWord_cons, bracket]
  rintro ⟨r, hr⟩
  -- the first replacement puts no percent sign anywhere
  cases t with
  | nil => cases hr
  | cons d t =>
    by_cases hd : ['\\', '_'] <+: d :: t
    · obtain ⟨t', ht⟩ := hd
      rw [← ht] at hr
      cases hr
    · rw [replaceWord_cons hd] at hr
      cases hr
      exact (h _ t rfl rfl).2 rfl

/-! ### The two readings -/

theorem target_cons (h : c ≠ '[') : target (c :: t) = .plain c :: target t := by
  rw [target]
  exact fun d r hc _ => h hc

/-- Once wildcards are in brackets a backslash before one is gone, and everything else is read as it
is. -/
theorem target_bracket_cases (h : '[' ∉ c :: t) :
    (∃ d r, c = '\\' ∧ t = d :: r ∧ (d = '_' ∨ d = '%') ∧
      target (bracket (c :: t)) = .exactly d :: target (bracket r)) ∨
      (∀ d r, c = '\\' → t = d :: r → d ≠ '_' ∧ d ≠ '%') ∧
      target (bracket (c :: t)) = .plain c :: target (bracket t) := by
  by_cases hd : ∀ d r, c = '\\' → t = d :: r → d ≠ '_' ∧ d ≠ '%'
  · refine .inr ⟨hd, ?_⟩
    rw [bracket_cons hd, target_cons fun hc => h (by simp [hc])]
  · simp only [not_forall, not_and_or, not_not] at hd
    obtain ⟨d, r, rfl, rfl, hd⟩ := hd
    exact .inl ⟨d, r, rfl, rfl, hd, by rw [bracket_escaped hd, target]⟩

theorem length_target_le (h : '[' ∉ c :: t) :
    (solid (target (bracket t))).length ≤ (solid (target (bracket (c :: t)))).length := by
  rcases target_bracket_cases h with ⟨d, r, rfl, rfl, hd, heq⟩ | ⟨-, heq⟩
  · have hplain : target (bracket (d :: r)) = .plain d :: target (bracket r) := by
      rw [bracket_cons (by rintro _ _ rfl; simp at hd), target_cons fun h' => h (by simp [h'])]
    have hle : (solid [.plain d]).length ≤ 1 := length_filter_le _ _
    rw [heq, hplain, solid_cons, solid_cons (.exactly d), length_append, length_append]
    exact Nat.add_le_add_right hle _
  · rw [heq, solid_cons, length_append]
    omega

/-- The target asks for no fewer characters than the source. -/
theorem length_source_le (h : '[' ∉ p) :
    (solid (source p)).length ≤ (solid (target (bracket p))).length := by
  fun_induction source p with
  | case1 c t ih =>
    have ih := ih fun ht => h (by simp [ht])
    rcases target_bracket_cases h with ⟨d, r, -, hcut, -, heq⟩ | ⟨-, heq⟩
    · cases hcut
      rw [heq]
      exact Nat.succ_le_succ ih
    · rw [heq]
      exact Nat.succ_le_succ (Nat.le_trans ih (length_target_le fun ht => h (mem_cons_of_mem _ ht)))
  | case2 c t hslash ih =>
    have ih := ih fun ht => h (by simp [ht])
    rcases target_bracket_cases h with ⟨d, r, rfl, rfl, -⟩ | ⟨-, heq⟩
    · exact (hslash d r rfl rfl).elim
    · rw [heq, solid_cons, solid_cons _ (target _), length_append, length_append]
      omega
  | case3 => exact Nat.zero_le _

theorem target_bracket_eq (h : '[' ∉ p) (hescapes : escapesWildcards p) :
    target (bracket p) = source p := by
  fun_induction source p with
  | case1 c t ih =>
    obtain ⟨hc, ht⟩ : (c = '_' ∨ c = '%') ∧ escapesWildcards t := by
      simpa [escapesWildcards] using hescapes
    rw [bracket_escaped hc, target, ih (fun h' => h (by simp [h'])) ht]
  | case2 c t hslash ih =>
    rw [escapesWildcards] at hescapes
    · rw [bracket_cons fun d r hc ht => (hslash d r hc ht).elim,
        target_cons fun hc => h (by simp [hc]), ih (fun h' => h (by simp [h'])) hescapes]
    · exact hslash
  | case3 => rfl

/-- The target takes a shortest match of the source only if every backslash stands before a
wildcard: one that stays makes the target ask for a character more, or for the wildcard itself. -/
theorem escapesWildcards_of_fits (h : '[' ∉ p)
    (hfits : Forall₂ Shape.Fits (solid (target (bracket p))) (shortest (source p))) :
    escapesWildcards p := by
  have hshort (r : Text) := (matches_shortest (source r)).2
  fun_induction source p with
  | case1 c t ih =>
    have ht : '[' ∉ t := fun ht => h (by simp [ht])
    rcases target_bracket_cases h with ⟨d, r, -, hcut, hd, htarget⟩ | ⟨-, htarget⟩
    · cases hcut
      rw [htarget] at hfits
      obtain _ | ⟨-, hfits⟩ := hfits
      simpa [escapesWildcards, hd] using ih ht hfits
    · rw [htarget] at hfits
      obtain _ | ⟨hc, hfits⟩ := hfits
      obtain rfl : '\\' = c := by simpa [Shape.Fits, Shape.plain] using hc
      have hlength := hfits.length_eq
      rcases target_bracket_cases (fun h' => h (mem_cons_of_mem _ h')) with
        ⟨d, r, -, rfl, hd, htarget⟩ | ⟨-, htarget⟩
      · have hle := length_source_le fun h' => ht (mem_cons_of_mem _ h')
        rw [htarget] at hfits hlength
        rcases hd with rfl | rfl
        · obtain _ | ⟨hc, -⟩ := hfits
          simp [Shape.Fits] at hc
        · have hmore : (solid (target (bracket r))).length + 1 = (shortest (source r)).length :=
            hlength
          rw [hshort] at hmore
          omega
      · have hle := length_source_le ht
        rw [htarget] at hlength
        have hmore : (solid (target (bracket t))).length + 1 = (shortest (source t)).length :=
          hlength
        rw [hshort] at hmore
        omega
  | case2 c t hslash ih =>
    have hplain : target (bracket (c :: t)) = .plain c :: target (bracket t) := by
      rw [bracket_cons fun d r hc ht => (hslash d r hc ht).elim,
        target_cons fun hc => h (by simp [hc])]
    rw [escapesWildcards]
    · refine ih (fun h' => h (by simp [h'])) ?_
      rw [hplain] at hfits
      cases hc : Shape.plain c with
      | any => rwa [hc] at hfits
      | one | exactly =>
        rw [hc] at hfits
        obtain _ | ⟨-, hfits⟩ := hfits
        exact hfits
    · exact hslash
  | case3 => rfl

/-! ### The literal -/

theorem escape_cons (hc : c ≠ '\'') (t : Text) : escape (c :: t) = c :: escape t := by
  rw [escape, flatMap_cons, if_neg hc]
  rfl

theorem escape_quote (t : Text) : escape ('\'' :: t) = '\'' :: '\'' :: escape t := rfl

/-- Quotes may be doubled before wildcards are put in brackets, or after. -/
theorem bracket_escape (p : Text) :
    bracket (escape p ++ ['\'']) = escape (bracket p) ++ ['\''] := by
  -- an escaped wildcard is left behind as a whole, so the induction is on the length
  induction hlength : p.length using Nat.strongRecOn generalizing p with
  | ind n ih =>
  subst hlength
  cases p with
  | nil => rfl
  | cons c t =>
    by_cases hd : ∀ d r, c = '\\' → t = d :: r → d ≠ '_' ∧ d ≠ '%'
    · have ht := ih t.length (Nat.lt_succ_self _) t rfl
      rw [bracket_cons hd]
      by_cases hc : c = '\''
      · rw [hc, escape_quote, cons_append, cons_append, bracket_cons (by simp),
          bracket_cons (by simp), ht]
        rfl
      · rw [escape_cons hc, escape_cons hc, cons_append, bracket_cons, ht, cons_append]
        intro d r hslash hcut
        cases t with
        | nil =>
          cases hcut
          decide
        | cons x t =>
          by_cases hx : x = '\''
          · rw [hx] at hcut
            cases hcut
            decide
          · rw [escape_cons hx] at hcut
            obtain ⟨rfl, -⟩ := cons.inj hcut
            exact hd x t hslash rfl
    · simp only [not_forall, not_and_or, not_not] at hd
      obtain ⟨d, r, rfl, rfl, hd⟩ := hd
      have hr := ih r.length (by simp) r rfl
      have hquote : d ≠ '\'' := by rintro rfl; simp at hd
      rw [bracket_escaped hd, escape_cons (by decide), escape_cons hquote, cons_append, cons_append,
        bracket_escaped hd, hr, escape_cons (by decide), escape_cons hquote]
      rfl

theorem bracket_quote (p : Text) : bracket (quote p) = quote (bracket p) := by
  rw [quote, bracket_cons (by simp), bracket_escape, quote]

/-- The pass goes on behind a pattern as at the start of a text. -/
theorem apply_quote (ha : Closed a) (hlikes : Likes a) (hb : b.head? ≠ some '\'') (p : Text) :
    apply (a ++ (quote p ++ b)) = apply a ++ (quote (bracket p) ++ apply b) := by
  obtain ⟨r, hr⟩ := exists_bracketed [] a
  obtain ⟨s, hs⟩ := exists_bracketed [] b
  have hinside : Inside '\'' (escape p ++ ['\'']) := inside_doubled '\'' p .close
  have hstate : state (some '\'') (escape p ++ ['\'']) = none := by
    rw [state_append, state_escape]
    rfl
  have hbehind : Bracketed (a ++ quote p) b s := by
    refine hs.move fun y => ?_
    rw [append_assoc]
    exact (likes_literal rfl hinside hstate a y).symm
  have hpattern : Bracketed a (quote p ++ b) (quote (bracket p) ++ s) :=
    .literal rfl hinside (fun _ => ⟨hstate, hb⟩) (fun _ => (bracket_quote p).symm)
      (fun h => absurd hlikes h) hbehind
  have hapart : Apart a (quote p ++ b) := by
    intro q hq hlast
    simp [hlikes.isQuote_getLast? q hlast] at hq
  rw [(hr.append ha hapart hpattern).apply_eq, hr.apply_eq, hs.apply_eq]

theorem apply_of_code (h : Code t) : apply t = t := by
  refine apply_of_not_escapedAt ?_
  rintro n ⟨a, q, u, c, z, rfl, -, -, -, hq, -⟩
  simp [h q (by simp)] at hq

/-- **Escaped wildcards.** Wherever a pattern stands behind LIKE, it is replaced by one that matches
the same texts in the target as it does in the source exactly if each of its backslashes stands
before a wildcard or at its end. The texts before and behind it are treated like texts of their own,
and code is left as it is. -/
theorem apply_keeps_meaning (a b p : Text) (ha : Closed a) (hlikes : Likes a)
    (hb : b.head? ≠ some '\'') (hp : '[' ∉ p) :
    apply (a ++ (quote p ++ b)) = apply a ++ (quote (bracket p) ++ apply b) ∧
      (Code a → apply a = a) ∧ (Code b → apply b = b) ∧
      ((∀ s, Matches (target (bracket p)) s ↔ Matches (source p) s) ↔
      escapesWildcards p = true) := by
  refine ⟨apply_quote ha hlikes hb p, apply_of_code, apply_of_code, fun h => ?_,
    fun h s => by rw [target_bracket_eq hp h]⟩
  obtain ⟨hmatch, hlength⟩ := matches_shortest (source p)
  exact escapesWildcards_of_fits hp
    (((h _).2 hmatch).fits.2 (by rw [hlength]; exact length_source_le hp))

/-- An escaped percent sign in the pattern, and a quote; a literal before it is no pattern, and one
behind it is another. -/
theorem apply_keeps_meaning_percent :
    apply "SELECT 'x\\_' FROM t WHERE a LIKE '10\\%''_' OR a LIKE '\\_'"
        = "SELECT 'x\\_' FROM t WHERE a LIKE '10[%]''_' OR a LIKE '[_]'" ∧
      ∀ s, Matches (target "10[%]'_") s ↔ Matches (source "10\\%'_") s := by
  have hlikes : Likes "SELECT 'x\\_' FROM t WHERE a LIKE " :=
    ⟨"SELECT 'x\\_' FROM t WHERE a ", "LIKE", " ", rfl,
      ⟨⟨"LIKE", [], rfl, rfl, rfl⟩, by decide, by decide⟩, by decide⟩
  have h :=
    apply_keeps_meaning "SELECT 'x\\_' FROM t WHERE a LIKE " " OR a LIKE '\\_'" "10\\%'_" rfl hlikes
    (by decide) (by decide)
  have hfront :
      apply "SELECT 'x\\_' FROM t WHERE a LIKE " = "SELECT 'x\\_' FROM t WHERE a LIKE " := by
    decide +kernel
  have hback : apply " OR a LIKE '\\_'" = " OR a LIKE '[_]'" := by decide +kernel
  exact ⟨h.1, h.2.2.2.2 (by decide)⟩

/-- A backslash that is itself escaped, before a wildcard: the source matches any character
there. -/
theorem apply_changes_meaning :
    apply "SELECT * FROM t WHERE a LIKE '\\\\_'" = "SELECT * FROM t WHERE a LIKE '\\[_]'" ∧
      Matches (source "\\\\_") "\\a" ∧ ¬ Matches (target "\\[_]") "\\a" := by
  refine ⟨by decide +kernel, ⟨_, rfl, 'a', _, rfl, rfl⟩, ?_⟩
  rintro ⟨r, hr, s, hs, -⟩
  cases hr
  cases hs

end Wildcard

end Recast
