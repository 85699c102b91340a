import Recast.Proofs.Landmarks
import Recast.Proofs.Tokens

/-!
# Texts byte by byte

Offsets count the bytes of a text, while its scanners go from character to character. Here what they
find is said of the bytes (`Text.bytes`). The main statements are that a mask is a shadow of its
text, byte for byte (`mask_shadows`), and that the partner of a parenthesis is the first byte up to
which as many parentheses are closed as opened (`closing?_first`).
-/

namespace Recast

open List Text

variable {a b t u : Text} {c x : Char} {d k n : Nat}

/-! ### Bytes and characters -/

namespace Text

/-- The bytes that a text is written with. -/
def bytes (t : Text) : List UInt8 := t.flatMap String.utf8EncodeChar

theorem bytes_cons (c : Char) (t : Text) : bytes (c :: t) = String.utf8EncodeChar c ++ bytes t :=
  flatMap_cons

theorem bytes_append (a b : Text) : bytes (a ++ b) = a.bytes ++ b.bytes := flatMap_append

theorem length_bytes (t : Text) : t.bytes.length = t.size := by
  induction t with
  | nil => rfl
  | cons c t ih => rw [bytes_cons, length_append, String.length_utf8EncodeChar, ih, size_cons]

/-- The bytes of a longer character belong to no shorter one. -/
theorem eq_of_mem_utf8EncodeChar (hx : x.utf8Size = 1) (h : x.toUInt8 ∈ String.utf8EncodeChar c) :
    c = x := by
  have hx' : x.val.toNat ≤ 127 := Char.utf8Size_eq_one_iff.1 hx
  have hbyte : x.toUInt8.toNat = x.val.toNat := by
    rw [Char.toUInt8, UInt32.toNat_toUInt8]
    omega
  have hlow {n : Nat} (heq : x.toUInt8 = UInt8.ofNat n) : n % 256 = x.val.toNat := by
    rw [← hbyte, heq, UInt8.toNat_ofNat']
  have hlong : ¬ c.val.toNat ≤ 127 → False := by
    intro hc
    simp only [String.utf8EncodeChar, hc, if_false] at h
    split at h
    all_goals try split at h
    all_goals
      grind
  have hc := Classical.not_not.1 hlong
  simp only [String.utf8EncodeChar, hc, if_true, mem_singleton] at h
  have := hlow h
  exact Char.ext (UInt32.toNat_inj.1 (by omega))

/-- Every byte of a text is one of a character. -/
theorem exists_char (h : n < t.size) :
    ∃ a c b k, t = a ++ c :: b ∧ n = size a + k ∧ k < c.utf8Size := by
  induction t generalizing n with
  | nil => cases h
  | cons c t ih =>
    by_cases hn : n < c.utf8Size
    · exact ⟨[], c, t, n, rfl, by simp, hn⟩
    · rw [size_cons] at h
      obtain ⟨a, x, b, k, rfl, hk, hlt⟩ := ih (n := n - c.utf8Size) (by omega)
      exact ⟨c :: a, x, b, k, rfl, by rw [size_cons]; omega, hlt⟩

theorem getElem?_bytes (a b : Text) (hk : k < c.utf8Size) :
    (bytes (a ++ c :: b))[a.size + k]? = (String.utf8EncodeChar c)[k]? := by
  rw [bytes_append, bytes_cons, ← length_bytes, getElem?_append_right (Nat.le_add_right _ _),
    Nat.add_sub_cancel_left, getElem?_append_left (by rwa [String.length_utf8EncodeChar])]

theorem byte_append (a b : Text) (hx : x.utf8Size = 1) :
    (bytes (a ++ x :: b))[a.size]? = some x.toUInt8 := by
  have h := getElem?_bytes (c := x) (k := 0) a b x.utf8Size_pos
  rwa [String.utf8EncodeChar_eq_singleton hx] at h

theorem byte_eq_some_iff (hx : x.utf8Size = 1) :
    t.bytes[n]? = some x.toUInt8 ↔ ∃ a b, t = a ++ x :: b ∧ n = a.size := by
  constructor
  · intro h
    obtain ⟨hn, -⟩ := List.getElem?_eq_some_iff.1 h
    rw [length_bytes] at hn
    obtain ⟨a, c, b, k, rfl, rfl, hk⟩ := exists_char hn
    rw [getElem?_bytes a b hk] at h
    obtain rfl := eq_of_mem_utf8EncodeChar hx (mem_of_getElem? h)
    exact ⟨a, b, rfl, by omega⟩
  · rintro ⟨a, b, rfl, rfl⟩
    exact byte_append a b hx

/-- The bytes in front of an offset hold what the characters there hold. -/
theorem count_take_bytes (hx : x.utf8Size = 1) (t : Text) (n : Nat) :
    (t.bytes.take n).count x.toUInt8 = (t.before n).count x := by
  induction t generalizing n with
  | nil => simp [bytes, before]
  | cons c t ih =>
    rw [bytes_cons, take_append, count_append, String.length_utf8EncodeChar, ih, before]
    split
    · next hn =>
      rw [take_of_length_le (by rwa [String.length_utf8EncodeChar]), count_cons, Nat.add_comm]
      congr 1
      by_cases hc : c = x
      · rw [hc, String.utf8EncodeChar_eq_singleton hx, if_pos (beq_self_eq_true x)]
        exact count_singleton_self
      · rw [if_neg (by simpa using hc)]
        exact count_eq_zero.2 fun h => hc (eq_of_mem_utf8EncodeChar hx h)
    · next hn =>
      have hnone : ((String.utf8EncodeChar c).take n).count x.toUInt8 = 0 := by
        refine count_eq_zero.2 fun h => ?_
        obtain rfl := eq_of_mem_utf8EncodeChar hx (mem_of_mem_take h)
        obtain rfl : n = 0 := by omega
        cases h
      rw [hnone, show n - c.utf8Size = 0 by omega, before_zero]
      rfl

end Text

/-! ### Masks -/

namespace Literal

variable {q : Char} {rest : Text}

theorem inside_veil (hq : isQuote q) (u : Text) : Inside q (veil q u) := by
  have hfill (n : Nat) {w : Text} (hw : Inside q w) : Inside q (replicate n filler ++ w) := by
    induction n with
    | zero => exact hw
    | succ n ih => exact .data (filler_ne hq) ih
  rcases veil_cases hq u with ⟨h, -⟩ | ⟨v, -, h⟩
  · simpa [h] using hfill u.size .nil
  · simpa [h] using hfill v.size .close

theorem Ends.veil (hq : isQuote q) (hu : Inside q u) (h : Ends q u rest) :
    Ends q (veil q u) (mask rest) := by
  intro hne
  obtain ⟨hstate, hhead⟩ := h (mt mask_eq_nil_iff.2 hne)
  exact ⟨state_veil hq (hu.getLast?_eq hq hstate), by rwa [head?_mask]⟩

theorem veil_veil (hq : isQuote q) (u : Text) : veil q (veil q u) = veil q u := by
  rcases veil_cases hq u with ⟨h, -⟩ | ⟨v, -, h⟩
  · rw [h, veil, if_neg ?_, size_replicate_filler]
    exact fun hlast => filler_ne hq (eq_of_mem_replicate (mem_of_getLast? hlast)).symm
  · rw [h, veil_concat hq, size_replicate_filler]

theorem mask_mask (t : Text) : mask (mask t) = mask t := by
  induction t using literal_induction with
  | nil => rfl
  | code c t hc ih => rw [mask_cons hc, mask_cons hc, ih]
  | literal q u rest hq hu hends ih =>
    rw [mask_literal hq hu hends, mask_literal hq (inside_veil hq u) (hends.veil hq hu),
      veil_veil hq, ih]

theorem spans_mask (t : Text) : spans (mask t) = spans t := by
  have h (n : Nat) :
      spansFrom n none (shadeFrom none (mask t)) = spansFrom n none (shadeFrom none t) := by
    induction t using literal_induction generalizing n with
    | nil => rfl
    | code c t hc ih => simp [mask_cons hc, shadeFrom, hc, spansFrom, ih]
    | literal q u rest hq hu hends ih =>
      rw [mask_literal hq hu hends, spansFrom_literal hq (inside_veil hq u) (hends.veil hq hu),
        size_veil hq, ih, spansFrom_literal hq hu hends]
  exact h 0

theorem bounds_of_mem_spans {s : Span} (h : s ∈ spans t) : s.start < s.stop ∧ s.stop ≤ t.size := by
  obtain ⟨a, q, u, r, rfl, -, -, hq, -, -, rfl⟩ := exists_of_mem_spans h
  simp only [size_append, size_cons, utf8Size_of_isQuote hq]
  omega

theorem getElem?_bytes_mask_of_not_holds (h : ¬ Holds t n) : (mask t).bytes[n]? = t.bytes[n]? := by
  rcases Nat.lt_or_ge n t.size with hn | hn
  · obtain ⟨a, c, b, k, rfl, rfl, hk⟩ := exists_char hn
    obtain ⟨hc, ha⟩ := not_or.1 (mt (holds_byte_iff hk).2 h)
    have hmask := getElem?_bytes (mask a) (mask b) hk
    rw [size_mask, ← mask_append_cons (Classical.not_not.1 ha) (by simpa using hc)] at hmask
    rw [hmask, getElem?_bytes a b hk]
  · rw [getElem?_eq_none (by rwa [length_bytes, size_mask]),
      getElem?_eq_none (by rwa [length_bytes])]

/-- Of a literal a mask shows the first byte, and the last of one that has more and ends in its own
quote. -/
theorem getElem?_bytes_mask_of_mem_spans {s : Span} (hs : s ∈ spans t) (hstart : s.start ≤ n)
    (hstop : n < s.stop) :
    (mask t).bytes[n]? = if n = s.start ∨ s.start + 2 ≤ s.stop ∧ n + 1 = s.stop ∧
      t.bytes[n]? = t.bytes[s.start]?
      then t.bytes[n]? else some filler.toUInt8 := by
  obtain ⟨a, q, u, r, rfl, ha, hlast, hq, hu, hends, rfl⟩ := exists_of_mem_spans hs
  have hone := utf8Size_of_isQuote hq
  have hapart : Apart a (q :: (u ++ r)) := fun p _ hp heq => hlast (hp.trans heq.symm)
  have hmask : mask (a ++ q :: (u ++ r)) = mask a ++ q :: (veil q u ++ mask r) := by
    rw [mask_append ha hapart, mask_literal hq hu hends]
  have hfirst := byte_append a (u ++ r) hone
  obtain ⟨k, rfl⟩ := Nat.exists_eq_add_of_le hstart
  simp only at hstop ⊢
  cases k with
  | zero =>
    have hshown := byte_append (mask a) (veil q u ++ mask r) hone
    rw [← hmask, size_mask] at hshown
    rw [if_pos (.inl rfl)]
    exact hshown.trans hfirst.symm
  | succ k =>
    have hhidden {m : Nat} {z : Text} (hveil : veil q u = replicate m filler ++ z) (hk : k < m) :
        (mask (a ++ q :: (u ++ r))).bytes[a.size + (k + 1)]? = some filler.toUInt8 := by
      have hcut :
          replicate m filler = replicate k filler ++ filler :: replicate (m - k - 1) filler := by
        rw [← replicate_succ, replicate_append_replicate]
        congr 1
        omega
      refine (byte_eq_some_iff rfl).2 ⟨mask a ++ q :: replicate k filler, _,
        by rw [hmask, hveil, hcut]; simp; rfl, ?_⟩
      simp [size_replicate_filler, hone, Nat.add_comm]
    rcases veil_cases hq u with ⟨hveil, hne⟩ | ⟨v, rfl, hveil⟩
    · rw [if_neg]
      · exact hhidden (z := []) (by rw [hveil, append_nil]) (by omega)
      · rintro (h | ⟨-, hend, hbyte⟩)
        · omega
        · -- a quote that ends the literal would show
          obtain ⟨a', b, hcut, hsize⟩ := (byte_eq_some_iff hone).1 (hbyte.trans hfirst)
          have hcut : a ++ [q] ++ u ++ r = a' ++ [q] ++ b := by simpa using hcut
          obtain ⟨hfront, -⟩ := append_inj_of_size hcut (by simp [hone]; omega)
          have hu : u ≠ [] := by
            rintro rfl
            simp at hend
          rw [← getLast?_append_of_ne_nil _ hu, hfront, getLast?_concat] at hne
          exact hne rfl
    · simp only [size_append, size_cons, size_nil, hone] at hstop ⊢
      by_cases hk : k = v.size
      · subst hk
        have htext : (a ++ q :: (v ++ [q] ++ r)).bytes[a.size + (v.size + 1)]? = some q.toUInt8 :=
          (byte_eq_some_iff hone).2 ⟨a ++ q :: v, r, by simp, by simp [hone]; omega⟩
        rw [if_pos (.inr ⟨by omega, by omega, htext.trans hfirst.symm⟩), htext]
        refine (byte_eq_some_iff hone).2 ⟨mask a ++ q :: replicate v.size filler, mask r,
          by rw [hmask, hveil]; simp, ?_⟩
        simp [hone, size_replicate_filler]
        omega
      · rw [if_neg (by omega)]
        exact hhidden hveil (by omega)

/-- A mask is the shadow of its text. The spans of the literals are those of both. -/
theorem mask_shadows (t : Text) :
    (∀ s ∈ spans t, s.start < s.stop ∧ s.stop ≤ t.size ∧ ∃ q, isQuote q ∧
      t.bytes[s.start]? = some q.toUInt8) ∧ ((spans t).Pairwise fun s s' => s.stop ≤ s'.start) ∧
    (∀ n q, isQuote q → t.bytes[n]? = some q.toUInt8 → Holds t n) ∧
    (∀ s ∈ (spans t).dropLast, Closed (t.slice s)) ∧
    (mask t).bytes.length = t.bytes.length ∧ (mask t).bytes.toByteArray.IsValidUTF8 ∧
    (∀ n, ¬ Holds t n → (mask t).bytes[n]? = t.bytes[n]?) ∧
    (∀ s ∈ spans t, ∀ n, s.start ≤ n → n < s.stop → (mask t).bytes[n]? =
      if n = s.start ∨ s.start + 2 ≤ s.stop ∧ n + 1 = s.stop ∧ t.bytes[n]? = t.bytes[s.start]?
      then t.bytes[n]? else some filler.toUInt8) ∧
    spans (mask t) = spans t ∧ mask (mask t) = mask t := by
  refine ⟨fun s hs => ?_, (spanned_spans t).pairwise, fun n q hq h => ?_, fun s hs => ?_, ?_,
    ⟨mask t, rfl⟩,
    fun n => getElem?_bytes_mask_of_not_holds, fun s hs n =>
      getElem?_bytes_mask_of_mem_spans hs, spans_mask t, mask_mask t⟩
  · obtain ⟨hlt, hle⟩ := bounds_of_mem_spans hs
    obtain ⟨a, q, u, r, rfl, -, -, hq, -, -, rfl⟩ := exists_of_mem_spans hs
    exact ⟨hlt, hle, q, hq, (byte_eq_some_iff (utf8Size_of_isQuote hq)).2 ⟨a, _, rfl, rfl⟩⟩
  · obtain ⟨a, b, rfl, rfl⟩ := (byte_eq_some_iff (utf8Size_of_isQuote hq)).1 h
    exact (holds_byte_iff (k := 0) q.utf8Size_pos).2 (.inl hq)
  · have hpairs := (spanned_spans t).pairwise
    have hne : spans t ≠ [] := fun h => by simp [h] at hs
    rw [← dropLast_append_getLast hne, pairwise_append] at hpairs
    have hbehind := hpairs.2.2 s hs _ mem_cons_self
    have hbounds := bounds_of_mem_spans (getLast_mem hne)
    obtain ⟨a, q, u, r, rfl, -, -, hq, -, hends, rfl⟩ :=
      exists_of_mem_spans (mem_of_mem_dropLast hs)
    rw [slice_literal hq, closed_quote hq]
    refine (hends ?_).1
    rintro rfl
    simp [utf8Size_of_isQuote hq] at hbehind hbounds
    omega
  · rw [length_bytes, length_bytes, size_mask]

end Literal

/-! ### Parentheses -/

namespace Nesting

/-- From `n` up to `k` as many parentheses are opened as closed. -/
def Paired (t : Text) (n k : Nat) : Prop :=
  ((t.bytes.take k).drop n).count '('.toUInt8 = ((t.bytes.take k).drop n).count ')'.toUInt8

/-- `closingFrom?` with a counter that must not be taken below zero: nothing at all where it would
be. -/
def countedFrom? (depth offset : Nat) : Text → Option (Option Nat)
  | [] => some none
  | c :: t =>
    let next := offset + c.utf8Size
    if c = '(' then countedFrom? (depth + 1) next t
    else if c = ')' then
      if depth = 0 then none
      else if depth - 1 = 0 then some (some offset)
      else countedFrom? (depth - 1) next t
    else countedFrom? depth next t

theorem countedFrom?_eq (depth offset : Nat) (t : Text) :
    countedFrom? (depth + 1) offset t = some (closingFrom? (depth + 1) offset t) := by
  induction t generalizing depth offset with
  | nil => rfl
  | cons c t ih =>
    rw [countedFrom?, closingFrom?]
    cases depth with
    | zero => grind
    | succ depth =>
      grind

theorem count_of_level? (h : level? d t = some k) : t.count '(' + d = t.count ')' + k := by
  fun_induction level? d t with
  | case1 => cases h; rfl
  | case2 d t ih => have := ih h; simp; omega
  | case3 => cases h
  | case4 d t _ _ ih => have := ih h; simp; omega
  | case5 d c t hopen hclose ih => simpa [hopen, hclose] using ih h

/-- The level fails at the first parenthesis that closes more than was opened. -/
theorem exists_of_level?_eq_none (h : level? d t = none) :
    ∃ v r, t = v ++ ')' :: r ∧ level? d v = some 0 := by
  fun_induction level? d t with
  | case1 => cases h
  | case3 t => exact ⟨[], t, rfl, rfl⟩
  | case2 d t ih | case4 d t _ _ ih | case5 d c t _ _ ih =>
    obtain ⟨v, r, rfl, hv⟩ := ih h
    exact ⟨_ :: v, r, rfl, by simp [level?, *]⟩

theorem paired_iff (a b : Text) (k : Nat) :
    Paired (a ++ '(' :: b) a.size (a.size + (1 + k)) ↔
      (b.before k).count '(' + 1 = (b.before k).count ')' := by
  have hcut : before ('(' :: b) (1 + k) = '(' :: b.before k := before_append_add ['('] b k
  rw [Paired, bytes_append, ← length_bytes, take_length_add_append, drop_left, count_take_bytes rfl,
    count_take_bytes rfl, hcut]
  simp

/-- What stands between an opening parenthesis and its partner never closes more than it opens, so
the partner is the first that evens it out. -/
theorem isLeast_of_level? {v : Text} (h : level? 0 v = some 0) (a r : Text) :
    IsLeast {c | a.size ≤ c ∧ Paired (a ++ '(' :: (v ++ ')' :: r)) a.size (c + 1)}
      (a.size + 1 + v.size) := by
  constructor
  · have hbefore : before (v ++ ')' :: r) (v.size + 1) = v ++ [')'] := by
      rw [before_append_add]
      exact congrArg (v ++ ·) (before_size_append [')'] r)
    have hcount := count_of_level? h
    refine ⟨by omega, ?_⟩
    rw [show a.size + 1 + v.size + 1 = a.size + (1 + (v.size + 1)) by omega, paired_iff, hbefore]
    simp
    omega
  · rintro c ⟨hle, hpaired⟩
    obtain ⟨k, rfl⟩ := Nat.exists_eq_add_of_le hle
    by_contra hlt
    rw [Nat.add_assoc, Nat.add_comm k, paired_iff, before_append_of_le (by omega)] at hpaired
    rw [← before_append_after v k, level?_append] at h
    obtain ⟨j, hj, -⟩ := Option.bind_eq_some_iff.1 h
    have hcount := count_of_level? hj
    omega

theorem depthAt_behind {v : Text} (h : level? 0 v = some 0) (a r : Text) :
    depthAt (a ++ '(' :: (v ++ ')' :: r)) (a.size + 1 + v.size + 1) =
      depthAt (a ++ '(' :: (v ++ ')' :: r)) a.size := by
  have htext : a ++ '(' :: (v ++ ')' :: r) = a ++ '(' :: (v ++ [')']) ++ r := by simp
  have hsize : a.size + 1 + v.size + 1 = size (a ++ '(' :: (v ++ [')'])) := by
    rw [size_append, size_cons, size_append, Nat.add_assoc, Nat.add_assoc]
    rfl
  have hinner : v.foldl step (depth a + 1) = depth a + 1 :=
    foldl_step_of_level? (by simpa using level?_add h (depth a + 1))
  rw [depthAt, depthAt, before_size_append, htext, hsize, before_size_append, depth, foldl_append]
  show (v ++ [')']).foldl step (depth a + 1) = depth a
  rw [foldl_append, hinner]
  rfl

/-- The partner of a parenthesis is the first byte up to which as many parentheses are closed as
opened. The counter is not taken below zero on the way, and the depth behind the partner is the one
in front, whatever stands there. -/
theorem closing?_first (t : Text) (n : Nat) :
    (∀ c, closing? t n = some c ↔
      t.bytes[n]? = some '('.toUInt8 ∧ IsLeast {c | n ≤ c ∧ Paired t n (c + 1)} c) ∧
    (∀ c, closing? t n = some c → t.bytes[c]? = some ')'.toUInt8 ∧
      level? 0 (t.slice ⟨n + 1, c⟩) = some 0 ∧ depthAt t (c + 1) = depthAt t n) ∧
    (t.charAt? n = some '(' → countedFrom? 0 n (t.after n) = some (closing? t n)) := by
  refine ⟨fun c => ⟨fun h => ?_, ?_⟩, fun c h => ?_, fun h => ?_⟩
  · obtain ⟨a, v, r, rfl, rfl, rfl, hv⟩ := exists_of_closing? h
    exact ⟨(byte_eq_some_iff rfl).2 ⟨a, _, rfl, rfl⟩, isLeast_of_level? hv a r⟩
  · rintro ⟨hbyte, hleast⟩
    obtain ⟨a, b, rfl, rfl⟩ := (byte_eq_some_iff rfl).1 hbyte
    obtain ⟨hle, hpaired⟩ := hleast.1
    obtain ⟨k, rfl⟩ := Nat.exists_eq_add_of_le hle
    rw [Nat.add_assoc, Nat.add_comm k, paired_iff] at hpaired
    cases hlevel : level? 0 (before b k) with
    | some j =>
      have hcount := count_of_level? hlevel
      omega
    | none =>
      obtain ⟨v, r, hcut, hv⟩ := exists_of_level?_eq_none hlevel
      obtain ⟨r, rfl⟩ : ∃ r, b = v ++ ')' :: r := by
        refine ⟨r ++ after b k, ?_⟩
        rw [← cons_append, ← append_assoc, ← hcut, before_append_after]
      rw [closing?_of_level? hv, hleast.unique (isLeast_of_level? hv a _)]
  · obtain ⟨a, v, r, rfl, rfl, rfl, hv⟩ := exists_of_closing? h
    refine ⟨(byte_eq_some_iff rfl).2 ⟨a ++ '(' :: v, r, by simp, ?_⟩, ?_, depthAt_behind hv a r⟩
    · rw [size_append, size_cons, ← Nat.add_assoc]
      rfl
    · have hslice := slice_append (a ++ ['(']) v (')' :: r) rfl rfl
      rw [size_append, append_assoc, append_assoc] at hslice
      exact (congrArg (level? 0) hslice).trans hv
  · obtain ⟨a, b, rfl, rfl⟩ := charAt?_eq_some.1 h
    rw [closing?, if_pos h, after_size_append]
    exact countedFrom?_eq 0 _ b

end Nesting

end Recast
