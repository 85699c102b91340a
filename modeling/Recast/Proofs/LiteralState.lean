import Recast.Proofs.Editing

/-!
# The state of a literal scanner

`Literal.shade` looks one character ahead, to tell a doubled quote from one that closes. `state`
does without: it leaves the literal at every quote of its kind, and the second half of a doubled
quote enters it again. The main statement, `holds_iff`, says that the two agree: a character that is
no quote lies in one of the `spans` exactly when the state in front of it is open.
-/

namespace Recast.Literal

open List Text

variable {a b r rest t u w : Text} {c q : Char} {k n : Nat} {s : Option Char} {l : List Span}

/-! ### The state -/

/-- Where a text stands after one more character: outside literals, or inside one opened by the
given quote. -/
def next : Option Char → Char → Option Char
  | none, c => if isQuote c then some c else none
  | some q, c => if c = q then none else some q

/-- Where a text stands at its end. -/
def state (s : Option Char) (t : Text) : Option Char := t.foldl next s

@[simp]
theorem state_nil (s : Option Char) : state s [] = s := rfl

@[simp]
theorem state_cons (s : Option Char) (c : Char) (t : Text) :
    state s (c :: t) = state (next s c) t := rfl

@[simp]
theorem state_append (s : Option Char) (a b : Text) : state s (a ++ b) = state (state s a) b := by
  simp [state]

theorem next_none_of_isQuote (h : isQuote c) : next none c = some c := by
  simp [next, h]

theorem next_none_of_not_isQuote (h : isQuote c = false) : next none c = none := by
  simp [next, h]

@[simp]
theorem next_some_self (q : Char) : next (some q) q = none := by simp [next]

theorem next_some_of_ne (h : c ≠ q) : next (some q) c = some q := by simp [next, h]

theorem state_twice (h : isQuote q) (t : Text) :
    state (some q) (q :: q :: t) = state (some q) t := by
  rw [state_cons, next_some_self, state_cons, next_none_of_isQuote h]

theorem ne_of_isQuote (hq : isQuote q) (hc : isQuote c = false) : c ≠ q := by
  rintro rfl
  simp [hq] at hc

theorem isQuote_iff : isQuote q ↔ q = '\'' ∨ q = '"' := by simp [isQuote]

theorem utf8Size_of_isQuote (h : isQuote q) : q.utf8Size = 1 := by
  rcases isQuote_iff.1 h with rfl | rfl <;> rfl

theorem isQuote_of_class {p : Char → Bool} (h : p c = true) (hsingle : p '\'' = false)
    (hdouble : p '"' = false) : isQuote c = false := by
  by_contra hq
  rcases isQuote_iff.1 (by simpa using hq) with rfl | rfl
  · simp [hsingle] at h
  · simp [hdouble] at h

theorem isQuote_of_isBlank (h : isBlank c) : isQuote c = false :=
  isQuote_of_class h (by decide) (by decide)

/-- The states that a scan can be in. -/
def Valid (s : Option Char) : Prop := ∀ q, s = some q → isQuote q = true

theorem valid_none : Valid none := by intro q h; cases h

theorem valid_some (h : isQuote q) : Valid (some q) := by
  rintro _ ⟨⟩
  exact h

theorem valid_state (hs : Valid s) (t : Text) : Valid (state s t) := by
  induction t generalizing s with
  | nil => exact hs
  | cons c t ih =>
    refine ih fun q hq => ?_
    cases s with
    | none =>
      obtain ⟨hc, rfl⟩ : isQuote c ∧ c = q := by simpa [next] using hq
      exact hc
    | some p =>
      obtain ⟨-, rfl⟩ : c ≠ p ∧ p = q := by simpa [next] using hq
      exact hs p rfl

/-- A text without quotes. -/
abbrev Code (t : Text) : Prop := ∀ c ∈ t, isQuote c = false

@[simp]
theorem code_nil : Code [] ↔ True := iff_true_intro nofun

@[simp]
theorem code_cons : Code (c :: t) ↔ isQuote c = false ∧ Code t := forall_mem_cons

@[simp]
theorem code_append : Code (a ++ b) ↔ Code a ∧ Code b := forall_mem_append

theorem Code.append (ha : Code a) (hb : Code b) : Code (a ++ b) := code_append.2 ⟨ha, hb⟩

theorem code_of_isBlank (h : ∀ c ∈ t, isBlank c) : Code t := fun c hc => isQuote_of_isBlank (h c hc)

theorem Code.state_eq (hs : Valid s) (h : Code t) : state s t = s := by
  induction t with
  | nil => rfl
  | cons c t ih =>
    have hc : isQuote c = false := h c (by simp)
    have hnext : next s c = s := by
      cases s with
      | none => exact next_none_of_not_isQuote hc
      | some q => exact next_some_of_ne (ne_of_isQuote (hs q rfl) hc)
    rw [state_cons, hnext, ih (forall_mem_cons.1 h).2]

/-- All literals of the text are closed. -/
def Closed (t : Text) : Prop := state none t = none

theorem closed_nil : Closed [] := rfl

theorem closed_cons (h : isQuote c = false) : Closed (c :: t) ↔ Closed t := by
  rw [Closed, state_cons, next_none_of_not_isQuote h]
  rfl

theorem closed_quote (h : isQuote q) : Closed (q :: t) ↔ state (some q) t = none := by
  rw [Closed, state_cons, next_none_of_isQuote h]

theorem Code.closed (h : Code t) : Closed t :=
  Code.state_eq valid_none h

theorem Closed.append (ha : Closed a) (hb : Closed b) : Closed (a ++ b) := by
  rw [Closed, state_append, ha, hb]

theorem Closed.append_iff (ha : Closed a) : Closed (a ++ b) ↔ Closed b := by
  rw [Closed, state_append, ha]
  rfl

theorem Closed.of_append (h : Closed (a ++ b)) (hb : Code b) : Closed a := by
  rwa [Closed, state_append, Code.state_eq (valid_state valid_none a) hb] at h

/-! ### The inside of a literal -/

/-- What may stand behind an opening quote, up to the end of the literal: data, doubled quotes and
at last the closing quote, which is missing where the text ends too early. -/
inductive Inside (q : Char) : Text → Prop
  | nil : Inside q []
  | close : Inside q [q]
  | data {c : Char} {t : Text} : c ≠ q → Inside q t → Inside q (c :: t)
  | doubled {t : Text} : Inside q t → Inside q (q :: q :: t)

/-- What a scanner of a literal can be in front of: more of the inside, or, when it has just read a
quote, either the end of the literal or the second half of a doubled quote. -/
def Reading (q : Char) (s : Option Char) (u : Text) : Prop :=
  (s = some q ∧ Inside q u) ∨ (s = none ∧ (u = [] ∨ ∃ v, u = q :: v ∧ Inside q v))

theorem Reading.step {q : Char} (hq : isQuote q) {s : Option Char} {c : Char} {t : Text}
    (h : Reading q s (c :: t)) : Reading q (next s c) t := by
  rcases h with ⟨rfl, h⟩ | ⟨rfl, h | ⟨v, h, hv⟩⟩
  · cases h with
    | close => exact .inr ⟨next_some_self q, .inl rfl⟩
    | data hc ht => exact .inl ⟨next_some_of_ne hc, ht⟩
    | doubled ht => exact .inr ⟨next_some_self q, .inr ⟨_, rfl, ht⟩⟩
  · cases h
  · obtain ⟨rfl, rfl⟩ := cons.inj h
    exact .inl ⟨next_none_of_isQuote hq, hv⟩

theorem Reading.run (hq : isQuote q) (h : Reading q s (a ++ b)) : Reading q (state s a) b := by
  induction a generalizing s with
  | nil => exact h
  | cons c a ih => exact ih (h.step hq)

theorem Reading.eq_some (h : Reading q s (c :: t)) (hc : c ≠ q) : s = some q := by
  rcases h with ⟨h, -⟩ | ⟨-, h | ⟨v, h, -⟩⟩
  · exact h
  · cases h
  · exact absurd (cons.inj h).1 hc

/-- A literal opened by `q` ends behind `u`, with `rest` to follow: the text is over, or the literal
is closed and the quote that closes it is not the first half of a doubled one. -/
def Ends (q : Char) (u rest : Text) : Prop :=
  rest ≠ [] → state (some q) u = none ∧ rest.head? ≠ some q

theorem ends_data (hc : c ≠ q) : Ends q (c :: u) rest ↔ Ends q u rest := by
  rw [Ends, state_cons, next_some_of_ne hc]
  rfl

theorem ends_doubled (hq : isQuote q) : Ends q (q :: q :: u) rest ↔ Ends q u rest := by
  rw [Ends, state_twice hq]
  rfl

/-- The part of a text up to the end of the literal that it starts inside of, and the rest. -/
theorem exists_inside {q : Char} (hq : isQuote q) :
    (r : Text) → ∃ u rest, r = u ++ rest ∧ Inside q u ∧ Ends q u rest
  | [] => ⟨[], [], rfl, .nil, by simp [Ends]⟩
  | [c] => by
    by_cases hc : c = q
    · subst hc
      exact ⟨[c], [], rfl, .close, by simp [Ends]⟩
    · exact ⟨[c], [], rfl, .data hc .nil, by simp [Ends]⟩
  | c :: d :: t => by
    by_cases hc : c = q
    · subst hc
      by_cases hd : d = c
      · subst hd
        obtain ⟨u, rest, rfl, hu, hends⟩ := exists_inside hq t
        exact ⟨d :: d :: u, rest, rfl, .doubled hu, (ends_doubled hq).2 hends⟩
      · exact ⟨[c], d :: t, rfl, .close, by simp [Ends, hd]⟩
    · obtain ⟨u, rest, hr, hu, hends⟩ := exists_inside hq (d :: t)
      exact ⟨c :: u, rest, by rw [hr]; rfl, .data hc hu, (ends_data hc).2 hends⟩

theorem Ends.rest_eq_nil (h : Ends q [] rest) : rest = [] := by
  cases rest with
  | nil => rfl
  | cons c rest => cases (h (by simp)).1

theorem shadeFrom_data (h : c ≠ q) (t : Text) :
    shadeFrom (some q) (c :: t) = (c, .inner) :: shadeFrom (some q) t := by
  cases t with
  | nil => simp only [shadeFrom, if_neg h]
  | cons d t => rw [shadeFrom, if_pos h]

/-- The span of a literal that is under way comes first. -/
theorem spansFrom_inside (hq : isQuote q) (h : Inside q u) (hends : Ends q u rest) (m n : Nat) :
    spansFrom n (some m) (shadeFrom (some q) (u ++ rest))
      = ⟨m, n + u.size⟩ :: spansFrom (n + u.size) none (shadeFrom none rest) := by
  induction h generalizing n with
  | nil =>
    obtain rfl := hends.rest_eq_nil
    simp [shadeFrom, spansFrom]
  | close =>
    cases rest with
    | nil => simp [shadeFrom, spansFrom]
    | cons d rest =>
      have hd : d ≠ q := by simpa using (hends (by simp)).2
      simp [shadeFrom, spansFrom, hd]
  | data hc _ ih =>
    rw [cons_append, shadeFrom_data hc]
    simp [spansFrom, ih ((ends_data hc).1 hends), Nat.add_assoc]
  | @doubled u _ ih =>
    have hrest := (ends_doubled hq).1 hends
    by_cases hu : u = []
    · subst hu
      obtain rfl := hrest.rest_eq_nil
      simp [shadeFrom, spansFrom, Nat.add_assoc]
    · simp [shadeFrom, spansFrom, hu, ih hrest, Nat.add_assoc]

theorem spansFrom_literal (hq : isQuote q) (hu : Inside q u) (hends : Ends q u rest) (n : Nat) :
    spansFrom n none (shadeFrom none (q :: (u ++ rest)))
      = ⟨n, n + (1 + u.size)⟩ :: spansFrom (n + (1 + u.size)) none (shadeFrom none rest) := by
  rw [shadeFrom, if_pos hq, spansFrom, spansFrom_inside hq hu hends, utf8Size_of_isQuote hq,
    Nat.add_assoc]

/-- A literal ends at one place. -/
theorem Inside.unique (hq : isQuote q) {u' rest' : Text} (h : Inside q u) (hends : Ends q u rest)
    (h' : Inside q u') (hends' : Ends q u' rest') (heq : u ++ rest = u' ++ rest') :
    u = u' ∧ rest = rest' := by
  have hspans := spansFrom_inside hq h hends 0 0
  rw [heq, spansFrom_inside hq h' hends'] at hspans
  refine append_inj_of_size heq ?_
  simpa using (congrArg Span.stop (cons.inj hspans).1).symm

/-- Where the literals of a text are closed, a literal and what follows it are. -/
theorem Ends.closed (hq : isQuote q) (h : Ends q u rest) (ht : Closed (q :: (u ++ rest))) :
    state (some q) u = none ∧ Closed rest := by
  rw [closed_quote hq, state_append] at ht
  cases rest with
  | nil => exact ⟨ht, rfl⟩
  | cons c rest =>
    have hclosed := (h (by simp)).1
    rw [hclosed] at ht
    exact ⟨hclosed, ht⟩

theorem Inside.getLast?_eq (hq : isQuote q) (h : Inside q u) (hclosed : state (some q) u = none) :
    u.getLast? = some q := by
  induction h with
  | nil => cases hclosed
  | close => rfl
  | @data c v hc _ ih =>
    rw [state_cons, next_some_of_ne hc] at hclosed
    rw [getLast?_cons, ih hclosed]
    rfl
  | @doubled v _ ih =>
    rw [state_twice hq] at hclosed
    rw [getLast?_cons, getLast?_cons, ih hclosed]
    rfl

theorem Inside.append (h : Inside q u) (hu : state (some q) u = none) (hv : Inside q w)
    (hq : isQuote q) : Inside q (u ++ q :: w) := by
  induction h with
  | nil => cases hu
  | close => exact .doubled hv
  | data hc _ ih =>
    rw [state_cons, next_some_of_ne hc] at hu
    exact .data hc (ih hu)
  | doubled _ ih =>
    rw [state_twice hq] at hu
    exact .doubled (ih hu)

/-! ### One literal behind another -/

/-- `Spanned n t l`: the literals of a text `t` that starts at offset `n` have the spans `l`. -/
inductive Spanned : Nat → Text → List Span → Prop
  | nil {n : Nat} : Spanned n [] []
  | code {n : Nat} {c : Char} {t : Text} {l : List Span} :
      isQuote c = false → Spanned (n + c.utf8Size) t l →
    Spanned n (c :: t) l
  | literal {n : Nat} {q : Char} {u rest : Text} {l : List Span} :
      isQuote q = true → Inside q u → Ends q u rest →
    Spanned (n + (1 + u.size)) rest l → Spanned n (q :: (u ++ rest)) (⟨n, n + (1 + u.size)⟩ :: l)

theorem spanned_spansFrom :
    (t : Text) → (n : Nat) → Spanned n t (spansFrom n none (shadeFrom none t))
  | [], n => .nil
  | c :: t, n => by
    cases hc : isQuote c with
    | false => simpa [shadeFrom, spansFrom, hc] using Spanned.code hc (spanned_spansFrom t _)
    | true =>
      obtain ⟨u, rest, rfl, hu, hends⟩ := exists_inside hc t
      rw [spansFrom_literal hc hu hends]
      exact .literal hc hu hends (spanned_spansFrom rest _)
  termination_by t => t.length

theorem spanned_spans (t : Text) : Spanned 0 t (spans t) := spanned_spansFrom t 0

/-- Texts are code and literals, one behind another. -/
@[elab_as_elim]
theorem literal_induction {motive : Text → Prop} (nil : motive [])
    (code : ∀ c t, isQuote c = false → motive t → motive (c :: t))
    (literal : ∀ q u rest, isQuote q = true → Inside q u → Ends q u rest → motive rest →
      motive (q :: (u ++ rest)))
    (t : Text) : motive t := by
  have h := spanned_spans t
  generalize 0 = n, spans t = l at h
  induction h with
  | nil => exact nil
  | code hc _ ih => exact code _ _ hc ih
  | literal hq hu hends _ ih => exact literal _ _ _ hq hu hends ih

theorem Spanned.le_start (h : Spanned n t l) : ∀ s ∈ l, n ≤ s.start := by
  induction h with
  | nil => simp
  | code _ _ ih => exact fun s hs => Nat.le_trans (Nat.le_add_right _ _) (ih s hs)
  | literal _ _ _ _ ih =>
    exact forall_mem_cons.2
      ⟨Nat.le_refl _, fun s hs => Nat.le_trans (Nat.le_add_right _ _) (ih s hs)⟩

theorem Spanned.pairwise (h : Spanned n t l) : l.Pairwise fun s s' => s.stop ≤ s'.start := by
  induction h with
  | nil => exact .nil
  | code _ _ ih => exact ih
  | literal _ _ _ h ih => exact pairwise_cons.2 ⟨h.le_start, ih⟩

/-- A literal is opened outside literals, by a quote that does not touch another of its kind. -/
theorem Spanned.exists_of_mem {s : Span} (h : Spanned n t l) (hs : s ∈ l) : ∃ a q u r,
    t = a ++ q :: (u ++ r) ∧ Closed a ∧ a.getLast? ≠ some q ∧ isQuote q ∧ Inside q u ∧ Ends q u r ∧
      s = ⟨n + size a, n + size a + (1 + size u)⟩ := by
  induction h with
  | nil => cases hs
  | @code n c t l hc _ ih =>
    obtain ⟨a, q, u, r, rfl, ha, hlast, hq, hu, hends, rfl⟩ := ih hs
    refine ⟨c :: a, q, u, r, rfl, ?_, ?_, hq, hu, hends, by rw [size_cons, Nat.add_assoc]⟩
    · rwa [closed_cons hc]
    · cases a with
      | nil => simpa using ne_of_isQuote hq hc
      | cons d a => rwa [getLast?_cons_cons]
  | @literal n q u rest l hq hu hends _ ih =>
    rcases mem_cons.1 hs with rfl | hs
    · exact ⟨[], q, u, rest, rfl, rfl, by simp, hq, hu, hends, rfl⟩
    · obtain ⟨a, q', u', r, rfl, ha, hlast, hq', hu', hends', rfl⟩ := ih hs
      obtain ⟨hclosed, hhead⟩ := hends (by simp)
      refine ⟨q :: (u ++ a), q', u', r, by simp, ?_, ?_, hq', hu', hends', ?_⟩
      · rwa [Closed, state_cons, next_none_of_isQuote hq, state_append, hclosed]
      · cases a with
        | nil =>
          rw [append_nil, getLast?_cons, hu.getLast?_eq hq hclosed]
          exact fun heq => hhead heq.symm
        | cons d a => rwa [← cons_append, getLast?_append_of_ne_nil _ (cons_ne_nil d a)]
      · rw [size_cons, size_append, utf8Size_of_isQuote hq]
        simp only [Nat.add_assoc]

theorem exists_of_mem_spans {s : Span} (h : s ∈ spans t) :
    ∃ a q u r, t = a ++ q :: (u ++ r) ∧ Closed a ∧
    a.getLast? ≠ some q ∧ isQuote q ∧ Inside q u ∧ Ends q u r ∧
      s = ⟨size a, size a + (1 + size u)⟩ := by
  simpa using (spanned_spans t).exists_of_mem h

theorem slice_literal (hq : isQuote q) (a u r : Text) :
    slice (a ++ q :: (u ++ r)) ⟨a.size, a.size + (1 + u.size)⟩ = q :: u := by
  rw [← cons_append, ← append_assoc]
  exact slice_append _ _ _ rfl (by rw [size_cons, utf8Size_of_isQuote hq])

/-! ### The bytes of literals -/

/-- Whether the byte at an offset belongs to a literal, its quotes included. -/
def Holds (t : Text) (n : Nat) : Prop := ∃ s ∈ spans t, s.start ≤ n ∧ n < s.stop

instance (t : Text) (n : Nat) : Decidable (Holds t n) :=
  inferInstanceAs (Decidable (∃ s ∈ spans t, s.start ≤ n ∧ n < s.stop))

theorem append_cons_eq_append {a b u r : List α} {c : α} (h : a ++ c :: b = u ++ r) :
    (∃ w, u = a ++ c :: w ∧ b = w ++ r) ∨ ∃ w, a = u ++ w ∧ r = w ++ c :: b := by
  rcases append_eq_append_iff.1 h with ⟨w, rfl, hw⟩ | ⟨w, rfl, rfl⟩
  · cases w with
    | nil => exact .inr ⟨[], by simp, by simpa using hw.symm⟩
    | cons x w =>
      obtain ⟨rfl, rfl⟩ := cons.inj hw
      exact .inl ⟨w, rfl, rfl⟩
  · exact .inr ⟨w, rfl, rfl⟩

/-- A byte lies in a literal if it is part of a quote, or the scanner is in one. -/
theorem Spanned.holds_iff (h : Spanned n (a ++ c :: b) l) (hk : k < c.utf8Size) :
    (∃ s ∈ l, s.start ≤ n + a.size + k ∧ n + a.size + k < s.stop) ↔
      isQuote c ∨ state none a ≠ none := by
  generalize ht : a ++ c :: b = t at h
  induction h generalizing a with
  | nil => simp at ht
  | @code n d t l hd h ih =>
    cases a with
    | nil =>
      obtain ⟨rfl, -⟩ := cons.inj ht
      refine iff_of_false ?_ (by simp [hd])
      rintro ⟨s, hs, hstart, -⟩
      have hle := h.le_start s hs
      simp only [size_nil] at hstart
      omega
    | cons x a =>
      obtain ⟨rfl, htail⟩ := cons.inj ht
      simpa [next_none_of_not_isQuote hd, Nat.add_assoc] using ih htail
  | @literal n q u rest l hq hu hends h ih =>
    cases a with
    | nil =>
      obtain ⟨rfl, -⟩ := cons.inj ht
      rw [utf8Size_of_isQuote hq] at hk
      exact iff_of_true ⟨_, mem_cons_self, by simp; omega⟩ (.inl hq)
    | cons x a =>
      obtain ⟨rfl, htail⟩ := cons.inj ht
      rw [state_cons, next_none_of_isQuote hq, size_cons, utf8Size_of_isQuote hq]
      rcases append_cons_eq_append htail with ⟨w, rfl, -⟩ | ⟨w, rfl, hw⟩
      · -- the character belongs to the literal that opens here
        have hreading : Reading x (some x) (a ++ c :: w) := .inl ⟨rfl, hu⟩
        refine iff_of_true ⟨_, mem_cons_self, ?_⟩ ?_
        · simp only [size_append, size_cons]
          omega
        · cases hc : isQuote c with
          | true => exact .inl rfl
          | false => simp [(hreading.run hq).eq_some (ne_of_isQuote hq hc)]
      · -- the literal ends in front of the character
        rw [state_append, (hends (by rw [hw]; simp)).1, ← ih hw.symm, size_append]
        simp only [exists_mem_cons_iff, ← Nat.add_assoc]
        exact or_iff_right fun hin => by omega

/-- A byte lies in a literal exactly when it is a quote or a literal is open in front of its
character. -/
theorem holds_byte_iff (hk : k < c.utf8Size) :
    Holds (a ++ c :: b) (a.size + k) ↔ isQuote c ∨ state none a ≠ none := by
  have h := (spanned_spans (a ++ c :: b)).holds_iff hk
  rwa [Nat.zero_add] at h

/-- A byte of a character that is no quote lies in a literal exactly when a literal is open in front
of that character. -/
theorem holds_iff (hc : isQuote c = false) (hk : k < c.utf8Size) :
    Holds (a ++ c :: b) (a.size + k) ↔ state none a ≠ none := by
  simp [holds_byte_iff hk, hc]

/-! ### Literals and what stands around them -/

/-- No literal holds code that stands behind closed literals. -/
theorem not_holds_of_no_quote (ha : Closed a) (hw : Code w) (r : Text) (hn : a.size ≤ n)
    (hn' : n < a.size + w.size) : ¬ Holds (a ++ (w ++ r)) n := by
  induction w generalizing a with
  | nil => exact absurd hn' (by simpa using hn)
  | cons c w ih =>
    have hc := hw c (by simp)
    by_cases hlt : n < a.size + c.utf8Size
    · obtain ⟨k, rfl⟩ := Nat.exists_eq_add_of_le hn
      have hholds := holds_iff (a := a) (b := w ++ r) hc (k := k) (by omega)
      intro h
      exact hholds.1 h ha
    · have hnext :=
        ih (ha.append (Code.closed (t := [c]) (by simpa using hc))) (forall_mem_cons.1 hw).2
      have hsize : size (a ++ [c]) = a.size + c.utf8Size := by
        rw [size_append]
        rfl
      rw [size_cons] at hn'
      simpa using hnext (by omega) (by omega)

theorem clear_of_mem_spans (ha : Closed a) (hne : w ≠ []) (hw : Code w) {s : Span}
    (h : s ∈ spans (a ++ (w ++ r))) : s.stop ≤ a.size ∨ a.size + w.size ≤ s.start := by
  have hpos := size_pos hne
  have hlt : s.start < s.stop := by
    obtain ⟨_, _, _, _, -, -, -, -, -, -, rfl⟩ := exists_of_mem_spans h
    simp only
    omega
  refine Classical.or_iff_not_imp_left.2 fun hstop => Nat.le_of_not_lt fun hstart => ?_
  exact not_holds_of_no_quote ha hw r (n := max s.start a.size) (by omega) (by omega)
    ⟨s, h, by omega, by omega⟩

end Recast.Literal
