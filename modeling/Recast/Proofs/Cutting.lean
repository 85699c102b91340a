import Mathlib
import Recast.Text.Letter
import Recast.Text.Word

/-!
# Cutting and trimming texts

Offsets of a text that is given as parts put together: the boundaries are the places where parts can
meet, and a span from one such place to another covers what stands between them. Trimming likewise
is a cut, into what is taken away and what stays.
-/

namespace Recast

open List

variable {a b t : Text} {c : Char} {m n : Nat} {s : Span} {p : Char → Bool}

/-! ### Searches in several steps -/

theorem of_bind₂ {o : Option α} {f : α → Option β} {g : α → β → Option γ} {c : γ}
    (h : (o.bind fun a => (f a).bind (g a)) = some c) :
    ∃ a, o = some a ∧ ∃ b, f a = some b ∧ g a b = some c := by
  obtain ⟨a, ha, h⟩ := Option.bind_eq_some_iff.1 h
  exact ⟨a, ha, Option.bind_eq_some_iff.1 h⟩

theorem of_bind₃ {o : Option α} {f : α → Option β} {g : α → β → Option γ}
    {k : α → β → γ → Option δ} {d : δ}
    (h : (o.bind fun a => (f a).bind fun b => (g a b).bind (k a b)) = some d) :
    ∃ a, o = some a ∧ ∃ b, f a = some b ∧ ∃ c, g a b = some c ∧ k a b c = some d := by
  obtain ⟨a, ha, h⟩ := Option.bind_eq_some_iff.1 h
  exact ⟨a, ha, of_bind₂ h⟩

theorem of_bind₄ {o : Option α} {f : α → Option β} {g : α → β → Option γ} {k : α → β → γ → Option δ}
    {l : α → β → γ → δ → Option ε} {e : ε}
    (h : (o.bind fun a => (f a).bind fun b => (g a b).bind fun c => (k a b c).bind (l a b c)) =
      some e) :
    ∃ a, o = some a ∧ ∃ b, f a = some b ∧ ∃ c, g a b = some c ∧ ∃ d, k a b c = some d ∧
    l a b c d = some e := by
  obtain ⟨a, ha, h⟩ := Option.bind_eq_some_iff.1 h
  exact ⟨a, ha, of_bind₃ h⟩

/-! ### ASCII -/

/-- Each ASCII character can be checked, and the others have no case and are no letters or
digits. -/
theorem of_ascii {P : Char → Prop} (c : Char) (hall : ∀ n < 128, P (Char.ofNat n))
    (hother : 128 ≤ c.toNat → c.isAlphanum = false → c.toLower = c → c.toUpper = c → P c) :
    P c := by
  by_cases h : c.toNat < 128
  · have hc := hall c.toNat h
    rwa [Char.ofNat_toNat] at hc
  · have hval : ∀ d : Char, d.toNat < 128 → ¬ c.val ≤ d.val := by
      intro d hd hle
      exact h (Nat.lt_of_le_of_lt (UInt32.le_iff_toNat_le.1 hle) hd)
    have h9 := hval '9' (by decide)
    have hZ := hval 'Z' (by decide)
    have hz := hval 'z' (by decide)
    refine hother (by omega) ?_ ?_ ?_
    · simp only [Char.isAlphanum, Char.isAlpha, Char.isUpper, Char.isLower, Char.isDigit,
        h9, hZ, hz]
      simp
    · rw [Char.toLower, dif_neg fun h => hZ h.2]
    · rw [Char.toUpper, dif_neg fun h => hz h.2]

theorem of_isAlphanum {P : Char → Prop} (h : c.isAlphanum)
    (hall : ∀ n < 128, (Char.ofNat n).isAlphanum → P (Char.ofNat n)) : P c :=
  of_ascii (P := fun c => c.isAlphanum → P c) c hall (fun _ hc _ _ h => by simp [hc] at h) h

theorem toLower_ne_of_class {x : Char} (hx : p x = false) (hx' : p x.toUpper = false) :
    ∀ c, p c → c.toLower ≠ x := by
  rintro c hc rfl
  have hback : c.toLower.toUpper = c ∨ c.toLower = c :=
    of_ascii (P := fun c => c.toLower.toUpper = c ∨ c.toLower = c) c (by decide) fun _ _ h
      _ => .inr h
  rcases hback with h | h
  · simp [h, hc] at hx'
  · simp [h, hc] at hx

theorem Text.isDigit_of_mem_ofNat {n : Nat} (h : c ∈ ofNat n) : c.isDigit :=
  Nat.isDigit_of_mem_toDigits (by decide) (by decide) h

theorem Text.isDigit_of_mem_ofInt {n : Int} (h : c ∈ ofInt n) : c = '-' ∨ c.isDigit := by
  rw [ofInt] at h
  split at h
  · rcases mem_cons.1 h with rfl | h
    · exact .inl rfl
    · exact .inr (isDigit_of_mem_ofNat h)
  · exact .inr (isDigit_of_mem_ofNat h)

/-! ### Blanks -/

def blankChars : List Char :=
  [0x9, 0xA, 0xB, 0xC, 0xD, 0x20, 0x85, 0xA0, 0x1680, 0x2000, 0x2001, 0x2002, 0x2003,
    0x2004, 0x2005,
    0x2006, 0x2007, 0x2008, 0x2009, 0x200A, 0x2028, 0x2029, 0x202F, 0x205F, 0x3000].map Char.ofNat

theorem of_isBlank {P : Char → Prop} (h : isBlank c) (hall : ∀ x ∈ blankChars, P x) : P c := by
  refine hall c (mem_map.2 ⟨c.toNat, ?_, Char.ofNat_toNat c⟩)
  simp only [isBlank, Bool.or_eq_true, Bool.and_eq_true, decide_eq_true_eq, beq_iff_eq] at h
  simp only [mem_cons, not_mem_nil, or_false]
  omega

theorem toLower_of_isBlank (h : isBlank c) : c.toLower = c :=
  of_isBlank (P := fun c => c.toLower = c) h (by decide)

theorem isWordChar_of_isBlank (h : isBlank c) : isWordChar c = false :=
  of_isBlank (P := fun c => isWordChar c = false) h (by decide +kernel)

theorem isNameChar_of_isBlank (h : isBlank c) : isNameChar c = false :=
  of_isBlank (P := fun c => isNameChar c = false) h (by decide)

/-- A class without blanks, such as a kind of letter or the characters that a view takes to one. -/
theorem isBlank_of_class {p : Char → Bool} (h : p c) (hall : ∀ x ∈ blankChars, p x = false) :
    isBlank c = false := by
  by_contra hblank
  have hfalse := of_isBlank (P := fun x => p x = false) (by simpa using hblank) hall
  simp [h] at hfalse

theorem not_mem_of_class {p : Char → Bool} {l : List Char} (h : p c) (hall : ∀ x ∈ l, p x = false) :
    c ∉ l := by
  intro hmem
  simp [hall c hmem] at h

theorem isBlank_of_isNameChar (h : isNameChar c) : isBlank c = false :=
  isBlank_of_class h (by decide)

theorem isBlank_of_toLower {x : Char} (h : c.toLower = x) (hx : isBlank x = false) :
    isBlank c = false := by
  by_contra hblank
  rw [toLower_of_isBlank (by simpa using hblank)] at h
  exact hblank (h ▸ hx)

theorem isBlank_of_isAsciiBlank (h : isAsciiBlank c) : isBlank c := by
  simp only [isAsciiBlank, Bool.or_eq_true, beq_iff_eq] at h
  rcases h with (((rfl | rfl) | rfl) | rfl) | rfl <;> rfl

namespace Text

/-! ### Cuts -/

theorem isBoundary_iff : t.isBoundary n ↔ ∃ a b, t = a ++ b ∧ a.size = n := by
  constructor
  · intro h
    refine ⟨t.before n, t.after n, (before_append_after t n).symm, ?_⟩
    simpa [isBoundary] using h
  · rintro ⟨a, b, rfl, rfl⟩
    simp [isBoundary]

theorem isBoundary_append (a b : Text) : (a ++ b).isBoundary a.size :=
  isBoundary_iff.2 ⟨a, b, rfl, rfl⟩

theorem isBoundary_zero (t : Text) : t.isBoundary 0 :=
  isBoundary_append [] t

theorem charAt?_eq_some : t.charAt? n = some c ↔ ∃ a b, t = a ++ c :: b ∧ n = size a := by
  constructor
  · intro h
    unfold charAt? at h
    split at h
    · next hn =>
      obtain ⟨b, hb⟩ := head?_eq_some_iff.1 h
      exact ⟨before t n, b, by rw [← hb, before_append_after], (beq_iff_eq.1 hn).symm⟩
    · cases h
  · rintro ⟨a, b, rfl, rfl⟩
    rw [charAt?, isBoundary_append, after_size_append]
    rfl

@[simp]
theorem before_size (t : Text) : t.before t.size = t := by
  have h := before_size_append t []
  rwa [append_nil] at h

@[simp]
theorem before_zero (t : Text) : t.before 0 = [] := before_size_append [] t

@[simp]
theorem after_zero (t : Text) : t.after 0 = t := after_size_append [] t

theorem size_pos (h : t ≠ []) : 0 < t.size := by
  cases t with
  | nil => exact absurd rfl h
  | cons c t =>
    have := c.utf8Size_pos
    rw [size_cons]
    omega

theorem eq_nil_of_size (h : t.size = 0) : t = [] :=
  Classical.byContradiction fun hne => Nat.ne_of_gt (size_pos hne) h

theorem append_inj_of_size {a' b' : Text} (h : a ++ b = a' ++ b') (hsize : a.size = a'.size) :
    a = a' ∧ b = b' := by
  have ha : a = a' := by
    rw [← before_size_append a b, h, hsize, before_size_append]
  subst ha
  exact ⟨rfl, append_cancel_left h⟩

theorem exists_append_of_size_le {c d : Text} (h : a ++ b = c ++ d) (hle : a.size ≤ c.size) :
    ∃ u, c = a ++ u ∧ b = u ++ d := by
  rcases append_eq_append_iff.1 h with ⟨u, rfl, rfl⟩ | ⟨u, rfl, rfl⟩
  · exact ⟨u, rfl, rfl⟩
  · rw [size_append] at hle
    obtain rfl : u = [] := eq_nil_of_size (by omega)
    exact ⟨[], by simp, by simp⟩

theorem before_append_add (a b : Text) (n : Nat) :
    (a ++ b).before (a.size + n) = a ++ b.before n := by
  induction a with
  | nil => simp
  | cons c a ih =>
    rw [cons_append, before, size_cons, if_pos (by omega),
      show c.utf8Size + size a + n - c.utf8Size = size a + n by omega, ih]
    rfl

theorem after_append_add (a b : Text) (n : Nat) : (a ++ b).after (a.size + n) = b.after n := by
  have h := before_append_after (a ++ b) (a.size + n)
  rw [before_append_add, append_assoc] at h
  have htail := append_cancel_left h
  conv at htail => rhs; rw [← before_append_after b n]
  exact append_cancel_left htail

theorem before_eq_append_slice (hm : t.isBoundary m) (hle : m ≤ n) :
    t.before n = t.before m ++ t.slice ⟨m, n⟩ := by
  obtain ⟨a, b, rfl, rfl⟩ := isBoundary_iff.1 hm
  have h := before_append_add a b (n - a.size)
  rw [Nat.add_sub_cancel' hle] at h
  rw [h, before_size_append, slice, after_size_append]

theorem slice_self (t : Text) (n : Nat) : t.slice ⟨n, n⟩ = [] := by
  rw [slice, Nat.sub_self, before_zero]

theorem slice_append (a b c : Text) (hm : m = a.size) (hn : n = a.size + b.size) :
    (a ++ b ++ c).slice ⟨m, n⟩ = b := by
  subst hm hn
  rw [slice, append_assoc, after_size_append, Nat.add_sub_cancel_left, before_size_append]

/-! ### Cuts in the front part -/

theorem before_append_of_le (h : n ≤ a.size) (b : Text) : (a ++ b).before n = a.before n := by
  induction a generalizing n with
  | nil =>
    obtain rfl : n = 0 := Nat.le_zero.1 h
    exact before_zero b
  | cons c a ih =>
    rw [size_cons] at h
    rw [cons_append, before, before]
    split
    · rw [ih (by omega)]
    · rfl

theorem after_append_of_le (h : n ≤ a.size) (b : Text) : (a ++ b).after n = a.after n ++ b := by
  have hcut := before_append_after (a ++ b) n
  conv at hcut => rhs; rw [← before_append_after a n, append_assoc]
  rw [before_append_of_le h] at hcut
  exact append_cancel_left hcut

theorem isBoundary_append_add (x u : Text) (n : Nat) :
    isBoundary (x ++ u) (x.size + n) = isBoundary u n := by
  rw [isBoundary, isBoundary, before_append_add, size_append]
  simp

theorem isBoundary_append_of_le (h : n ≤ a.size) (b : Text) :
    (a ++ b).isBoundary n = a.isBoundary n := by
  rw [isBoundary, before_append_of_le h, isBoundary]

theorem size_before_le (t : Text) (n : Nat) : (t.before n).size ≤ n := by
  induction t generalizing n with
  | nil => exact Nat.zero_le n
  | cons c t ih =>
    rw [before]
    split
    · next h =>
      have hle := ih (n - c.utf8Size)
      rw [size_cons]
      omega
    · exact Nat.zero_le n

theorem prefix_before {front : Text} (h : front <+: t) (hn : front.size ≤ n) :
    front <+: t.before n := by
  obtain ⟨r, rfl⟩ := h
  obtain ⟨k, rfl⟩ := Nat.exists_eq_add_of_le hn
  rw [before_append_add]
  exact prefix_append front _

theorem mem_of_mem_slice (h : c ∈ t.slice s) : c ∈ t := by
  have hafter : c ∈ t.after s.start := by
    rw [← before_append_after (t.after s.start) (s.stop - s.start)]
    exact mem_append_left _ h
  rw [← before_append_after t s.start]
  exact mem_append_right _ hafter

/-- A span between boundaries cuts the text in three. -/
theorem exists_three (hstart : t.isBoundary s.start) (hstop : t.isBoundary s.stop)
    (hle : s.start ≤ s.stop) : ∃ a b c, t = a ++ b ++ c ∧
      a.size = s.start ∧ a.size + b.size = s.stop ∧ t.slice s = b := by
  obtain ⟨a, r, rfl, ha⟩ := isBoundary_iff.1 hstart
  obtain ⟨u, c, hu, hsize⟩ := isBoundary_iff.1 hstop
  obtain ⟨b, rfl, rfl⟩ := exists_append_of_size_le hu (by omega)
  rw [size_append] at hsize
  refine ⟨a, b, c, by simp, ha, hsize, ?_⟩
  rw [← append_assoc]
  exact slice_append a b c ha.symm hsize.symm

theorem le_size_of_isBoundary (h : t.isBoundary n) : n ≤ t.size := by
  obtain ⟨a, b, rfl, rfl⟩ := isBoundary_iff.1 h
  rw [size_append]
  omega

theorem slice_append_of_le (h : s.stop ≤ a.size) (b : Text) : (a ++ b).slice s = a.slice s := by
  by_cases hs : s.start ≤ s.stop
  · have hsum := size_append (a.before s.start) (a.after s.start)
    have hle := size_before_le a s.start
    rw [before_append_after] at hsum
    rw [slice, after_append_of_le (by omega), before_append_of_le (by omega), slice]
  · rw [slice, slice, Nat.sub_eq_zero_of_le (by omega), before_zero, before_zero]

theorem slice_middle (a b c : Text) (hstart : a.size ≤ s.start) (hstop : s.stop ≤ a.size + b.size) :
    (a ++ (b ++ c)).slice s = b.slice ⟨s.start - a.size, s.stop - a.size⟩ := by
  have hafter := after_append_add a (b ++ c) (s.start - a.size)
  rw [Nat.add_sub_cancel' hstart] at hafter
  have hsize : s.stop - s.start = s.stop - a.size - (s.start - a.size) := by omega
  rw [slice, hafter, hsize]
  exact slice_append_of_le (s := ⟨s.start - a.size, s.stop - a.size⟩) (by simp only; omega) c

/-! ### Searches -/

theorem findFrom?_append_of_not (h : ∀ c ∈ a, p c = false) (n : Nat) (b : Text) :
    findFrom? p n (a ++ b) = findFrom? p (n + a.size) b := by
  induction a generalizing n with
  | nil => rfl
  | cons c a ih =>
    have hrest := ih (forall_mem_cons.1 h).2 (n + c.utf8Size)
    rw [cons_append, findFrom?, h c (by simp), if_neg (by simp), hrest, size_cons, Nat.add_assoc]

/-- The first character with a property, as a cut of the text. -/
theorem findFrom?_eq_some {offset : Nat} :
    findFrom? p offset t = some n ↔ ∃ (w : Text) (c : Char) (s : Text), t = w ++ c :: s ∧
      (∀ x ∈ w, p x = false) ∧ p c ∧ offset + w.size = n := by
  constructor
  · intro h
    induction t generalizing offset with
    | nil => cases h
    | cons x t ih =>
      rw [findFrom?] at h
      split at h
      · next hx =>
        cases h
        exact ⟨[], x, t, rfl, by simp, hx, rfl⟩
      · next hx =>
        obtain ⟨w, c, s, rfl, hw, hc, rfl⟩ := ih h
        refine ⟨x :: w, c, s, rfl, ?_, hc, by rw [size_cons, Nat.add_assoc]⟩
        simpa [hx] using hw
  · rintro ⟨w, c, s, rfl, hw, hc, rfl⟩
    rw [findFrom?_append_of_not hw, findFrom?, if_pos hc]

theorem le_of_findFrom? {offset : Nat} (h : findFrom? p offset t = some n) : offset ≤ n := by
  obtain ⟨w, c, s, -, -, -, rfl⟩ := findFrom?_eq_some.1 h
  exact Nat.le_add_right _ _

theorem findFrom?_append {offset : Nat} {x y : Text} (h : findFrom? p offset (b ++ x) = some n)
    (hn : n < offset + b.size) : findFrom? p offset (b ++ y) = some n := by
  obtain ⟨w, c, s, hcut, hw, hc, rfl⟩ := findFrom?_eq_some.1 h
  obtain ⟨u, rfl, hu⟩ := exists_append_of_size_le hcut.symm (by omega)
  cases u with
  | nil => simp at hn
  | cons d u =>
    obtain ⟨rfl, -⟩ := cons.inj hu
    exact findFrom?_eq_some.2 ⟨w, c, u ++ y, by simp, hw, hc, rfl⟩

/-! ### Trimming -/

theorem exists_dropWhile (p : Char → Bool) (t : Text) : ∃ a, t = a ++ t.dropWhile p ∧
    (∀ c ∈ a, p c) ∧ ∀ c, (t.dropWhile p).head? = some c → p c = false := by
  refine ⟨t.takeWhile p, takeWhile_append_dropWhile.symm, ?_, fun c hc => ?_⟩
  · exact all_eq_true.1 all_takeWhile
  · have h := head?_dropWhile_not p t
    rwa [hc] at h

theorem dropWhile_of_head (h : ∀ c, t.head? = some c → p c = false) : t.dropWhile p = t := by
  cases t with
  | nil => rfl
  | cons c t => rw [dropWhile_cons, h c rfl]; rfl

theorem takeWhile_append_of_head (ha : ∀ c ∈ a, p c) (hb : ∀ c, b.head? = some c → p c = false) :
    (a ++ b).takeWhile p = a ∧ (a ++ b).dropWhile p = b := by
  rw [takeWhile_append_of_pos ha, dropWhile_append_of_pos ha, dropWhile_of_head hb]
  refine ⟨?_, rfl⟩
  cases b with
  | nil => simp
  | cons c b => simp [hb c rfl]

theorem any_getLast?_append {p : Char → Bool} {u : Text} (hu : u ≠ []) (h : ∀ c ∈ u, p c)
    (a : Text) : (a ++ u).getLast?.any p := by
  rw [getLast?_append_of_ne_nil _ hu, getLast?_eq_some_getLast hu]
  exact h _ (getLast_mem hu)

theorem exists_dropEnd (p : Char → Bool) (t : Text) : ∃ b, t = dropEnd p t ++ b ∧
    (∀ c ∈ b, p c) ∧ ∀ c, (dropEnd p t).getLast? = some c → p c = false := by
  obtain ⟨b, hb, hp, hlast⟩ := exists_dropWhile p t.reverse
  refine ⟨b.reverse, ?_, fun c hc => hp c (mem_reverse.1 hc), fun c hc => hlast c ?_⟩
  · rw [dropEnd, ← reverse_append, ← hb, reverse_reverse]
  · rwa [dropEnd, getLast?_reverse] at hc

theorem dropEnd_append (h : ∀ c ∈ b, p c) : dropEnd p (a ++ b) = dropEnd p a := by
  rw [dropEnd, reverse_append, dropWhile_append_of_pos fun c hc => h c (mem_reverse.1 hc),
    ← dropEnd]

theorem dropEnd_of_last (h : ∀ c, t.getLast? = some c → p c = false) : dropEnd p t = t := by
  rw [dropEnd, dropWhile_of_head fun c hc => h c (by rwa [head?_reverse] at hc), reverse_reverse]

theorem dropEnd_append_of_last (h : ∀ c, a.getLast? = some c → p c = false) (b : Text) :
    dropEnd p (a ++ b) = a ++ dropEnd p b := by
  obtain ⟨r, hr, hall, hlast⟩ := exists_dropEnd p b
  have hend : ∀ c, (a ++ dropEnd p b).getLast? = some c → p c = false := by
    intro c hc
    rw [getLast?_append, Option.or_eq_some_iff] at hc
    rcases hc with hc | ⟨-, hc⟩
    · exact hlast c hc
    · exact h c hc
  conv => lhs; rw [hr]
  rw [← append_assoc, dropEnd_append hall, dropEnd_of_last hend]

/-- A text without blanks at its ends, between blanks; all those around an empty text lead. -/
structure Trimmed (lead core trail : Text) : Prop where
  leads : ∀ c ∈ lead, isBlank c = true
  trails : ∀ c ∈ trail, isBlank c = true
  first : ∀ c, core.head? = some c → isBlank c = false
  last : ∀ c, core.getLast? = some c → isBlank c = false
  empty : core = [] → trail = []

/-- A text is its trimmed core between blanks. -/
theorem trimmed_trim (t : Text) :
    ∃ lead trail, t = lead ++ (t.trim ++ trail) ∧ Trimmed lead t.trim trail := by
  obtain ⟨lead, ht, hlead, hfirst⟩ := exists_dropWhile isBlank t
  obtain ⟨trail, hrest, htrail, hlast⟩ := exists_dropEnd isBlank (t.dropWhile isBlank)
  change t.dropWhile isBlank = t.trim ++ trail at hrest
  change ∀ c, t.trim.getLast? = some c → isBlank c = false at hlast
  rw [hrest] at ht hfirst
  refine ⟨lead, trail, ht, hlead, htrail, fun c hc => hfirst c ?_, hlast, ?_⟩
  · rw [head?_append, hc]
    rfl
  · intro hcore
    rw [hcore] at hfirst
    cases trail with
    | nil => rfl
    | cons c trail => exact absurd (htrail c (by simp)) (by simp [hfirst c rfl])

theorem exists_trimmed (t : Text) :
    ∃ lead core trail, t = lead ++ (core ++ trail) ∧ Trimmed lead core trail := by
  obtain ⟨lead, trail, ht, htrimmed⟩ := trimmed_trim t
  exact ⟨lead, t.trim, trail, ht, htrimmed⟩

theorem trim_trim (t : Text) : t.trim.trim = t.trim := by
  obtain ⟨lead, trail, -, h⟩ := trimmed_trim t
  show dropEnd isBlank (t.trim.dropWhile isBlank) = t.trim
  rw [dropWhile_of_head h.first, dropEnd_of_last h.last]

/-- The blanks around a text are what trimming takes away. -/
theorem Trimmed.trimSpan_eq {lead core trail : Text} (h : Trimmed lead core trail)
    (front back : Text) (hn : n = front.size) (hm : m = n + size (lead ++ (core ++ trail))) :
    trimSpan (front ++ (lead ++ (core ++ trail)) ++ back) ⟨n, m⟩ =
      ⟨n + lead.size, n + lead.size + core.size⟩ := by
  have hslice : (front ++ (lead ++ (core ++ trail)) ++ back).slice ⟨n, m⟩
      = lead ++ (core ++ trail) := slice_append _ _ _ hn (by rw [hm, hn])
  have hstart : trimStart (lead ++ (core ++ trail)) = core ++ trail := by
    rw [trimStart, dropWhile_append_of_pos h.leads]
    refine dropWhile_of_head fun c hc => ?_
    cases core with
    | nil => rw [h.empty rfl] at hc; cases hc
    | cons d core => exact h.first c hc
  rw [trimSpan, hslice, hstart, hm, size_append, size_append]
  by_cases hcore : core = []
  · -- of a text of blanks everything leads
    have hstop : trimEnd (lead ++ (core ++ trail)) = [] := by
      have h0 := dropEnd_append (p := isBlank) (a := []) h.leads
      rw [hcore, h.empty hcore, append_nil, append_nil]
      exact h0
    rw [hstop, hcore]
    simp only [size_nil, Span.mk.injEq]
    omega
  · have hstop : trimEnd (lead ++ (core ++ trail)) = lead ++ core := by
      rw [trimEnd, ← append_assoc, dropEnd_append h.trails]
      refine dropEnd_of_last fun c hc => h.last c ?_
      rwa [getLast?_append_of_ne_nil _ hcore] at hc
    rw [hstop, size_append]
    simp only [Span.mk.injEq]
    omega

end Text

end Recast
