import Recast.Param
import Recast.Proofs.NormalRows

/-!
# Whole numbers in texts

A whole number that arrives as text is read as a double. The double is the nearest one
(`toSigned_ofRatio`), so the number that is written is another one unless a double holds it exactly;
only the greatest signed number comes back although no double holds it, since the next double is
beyond the range and is cut back to it (`Param.render_text_eq_iff`).
-/

namespace Recast

open Nat List Text

variable {m n num den k : Nat} {e : Int} {negative : Bool} {t : Text}

/-! ### The nearest double -/

namespace Number

theorem roundDiv_cases (num den : Nat) :
    roundDiv num den = num / den ∧ 2 * (num % den) ≤ den ∨ roundDiv num den = num / den + 1 ∧
      den ≤ 2 * (num % den) := by
  simp only [roundDiv]
  split_ifs <;> omega

theorem roundDiv_one (n : Nat) : roundDiv n 1 = n := by
  simp [roundDiv, mod_one]

/-- A quotient that is rounded is taken back by multiplication only if it was whole. -/
theorem roundDiv_mul_eq_iff (hden : 0 < den) : roundDiv num den * den = num ↔ den ∣ num := by
  have hsum := div_add_mod num den
  have hrest := mod_lt num hden
  rw [mul_comm]
  rcases roundDiv_cases num den with ⟨hround, -⟩ | ⟨hround, hhalf⟩
  · rw [hround]
    omega
  · rw [hround, mul_add]
    omega

theorem roundDiv_mul_le (hden : 0 < den) (h : num < den * k) :
    roundDiv num den * den ≤ den * k := by
  have hquotient : num / den < k := (div_lt_iff_lt_mul hden).2 (by rwa [mul_comm])
  have hround : roundDiv num den ≤ k := by
    rcases roundDiv_cases num den with ⟨hround, -⟩ | ⟨hround, -⟩ <;> omega
  rw [mul_comm den]
  exact mul_le_mul_right den hround

theorem scaleDown_of_nonneg (base num den k : Nat) :
    scaleDown base num den (k : Int) = (num, den * base ^ k) := by
  rfl

theorem scaleDown_of_neg (base num den : Nat) (hk : 0 < k) :
    scaleDown base num den (-(k : Int)) = (num * base ^ k, den) := by
  rw [scaleDown, if_neg (by omega), Int.neg_neg]
  rfl

end Number

namespace Binary64

open Number

/-- A double holds the whole number exactly. -/
def Holds (n : Nat) : Prop := ∃ m e, m < 2 ^ 53 ∧ n = m * 2 ^ e

/-- The unit of the doubles around a whole number. -/
def unit (n : Nat) : Nat := 2 ^ (n.log2 - 52)

/-- The whole number nearest to `n` that a double holds. -/
def nearest (n : Nat) : Nat := roundDiv n (unit n) * unit n

theorem unit_pos (n : Nat) : 0 < unit n := Nat.two_pow_pos _

/-- A double holds the multiples of its unit. -/
theorem holds_iff_dvd (n : Nat) : Holds n ↔ unit n ∣ n := by
  constructor
  · rintro ⟨m, e, hm, rfl⟩
    refine Nat.dvd_mul_left_of_dvd (Nat.pow_dvd_pow 2 ?_) m
    -- a mantissa below 2 ^ 53 leaves the rest of the size to the exponent
    by_cases hzero : m = 0
    · simp [hzero]
    · have hlt : m * 2 ^ e < 2 ^ (53 + e) := by
        rw [pow_add]
        exact Nat.mul_lt_mul_of_pos_right hm (Nat.two_pow_pos e)
      have hne : m * 2 ^ e ≠ 0 := Nat.mul_ne_zero hzero (Nat.ne_of_gt (Nat.two_pow_pos e))
      have := (Nat.log2_lt hne).2 hlt
      omega
  · rintro ⟨m, hm⟩
    refine ⟨m, n.log2 - 52, ?_, by rw [mul_comm]; exact hm⟩
    have hlt : n < 2 ^ (n.log2 + 1) := lt_log2_self
    have hpow : 2 ^ (n.log2 + 1) ≤ unit n * 2 ^ 53 := by
      rw [unit, ← pow_add]
      exact Nat.pow_le_pow_right (by decide) (by omega)
    refine Nat.lt_of_mul_lt_mul_left (a := unit n) ?_
    rw [← hm]
    exact Nat.lt_of_lt_of_le hlt hpow

theorem nearest_eq_iff (n : Nat) : nearest n = n ↔ Holds n := by
  rw [nearest, roundDiv_mul_eq_iff (unit_pos n), holds_iff_dvd]

theorem nearest_le (h : n < 2 ^ k) : nearest n ≤ 2 ^ k := by
  by_cases hn : n = 0
  · simp [hn, nearest, roundDiv]
  have hlog : n.log2 < k := (log2_lt hn).2 h
  have hsplit : unit n * 2 ^ (k - (n.log2 - 52)) = 2 ^ k := by
    rw [unit, ← pow_add]
    congr 1
    omega
  rw [← hsplit] at h ⊢
  exact roundDiv_mul_le (unit_pos n) h

/-! ### Reading a whole number -/

theorem exponentOf_one (hn : n ≠ 0) (hlog : n.log2 ≤ 63) :
    exponentOf n 1 = (n.log2 : Int) - 52 := by
  have hzero : (1 : Nat).log2 = 0 := rfl
  have hge : ¬ n < 1 * 2 ^ n.log2 := by
    rw [one_mul, not_lt]
    exact log2_self_le hn
  simp only [exponentOf, hzero, cast_zero, sub_zero, scaleDown_of_nonneg, if_neg hge, minExponent]
  omega

theorem toSigned_of_nonneg (negative : Bool) (m k : Nat) :
    (finite negative m k).toSigned =
      clamp (if negative then -((m * 2 ^ k : Nat) : Int) else (m * 2 ^ k : Nat)) := by
  rfl

theorem toSigned_of_neg (negative : Bool) (m : Nat) (hk : 0 < k) :
    (finite negative m (-k)).toSigned =
      clamp (if negative then -((m / 2 ^ k : Nat) : Int) else (m / 2 ^ k : Nat)) := by
  simp only [toSigned, if_neg (show ¬ (0 : Int) ≤ -k by omega), Int.neg_neg, Int.toNat_natCast]
  rfl

theorem toSigned_zero (negative : Bool) (e : Int) : (finite negative 0 e).toSigned = 0 := by
  simp [toSigned, clamp, minSigned, maxSigned]

/-- A whole number is read as the nearest one that a double holds, within the signed range. -/
theorem toSigned_ofRatio (negative : Bool) (hn : n ≠ 0) (hsmall : n ≤ 2 ^ 63) :
    (ofRatio negative n 1).toSigned =
      clamp (if negative then -(nearest n : Int) else nearest n) := by
  have hlog : n.log2 ≤ 63 := Nat.lt_succ_iff.1 ((Nat.log2_lt hn).2 (by omega))
  rw [nearest, unit]
  rcases Nat.lt_or_ge n.log2 52 with hlt | hge
  · -- the mantissa is the number with zeros behind it
    obtain ⟨j, hj⟩ : ∃ j, n.log2 + j = 52 := ⟨52 - n.log2, by omega⟩
    have he : exponentOf n 1 = -(j : Int) := by rw [exponentOf_one hn hlog]; omega
    have hm : n * 2 ^ j ≠ 2 * leastNormal := by
      have hpow : n * 2 ^ j < 2 ^ (n.log2 + 1) * 2 ^ j :=
        Nat.mul_lt_mul_of_pos_right Nat.lt_log2_self (Nat.two_pow_pos j)
      rw [← Nat.pow_add, show n.log2 + 1 + j = 53 by omega] at hpow
      exact Nat.ne_of_lt hpow
    simp only [ofRatio, if_neg hn, he, scaleDown_of_neg 2 n 1 (show 0 < j by omega), roundDiv_one,
      if_neg hm]
    rw [if_neg (by rw [maxExponent]; omega), toSigned_of_neg negative _ (by omega),
      Nat.mul_div_cancel n (Nat.two_pow_pos j),
      Nat.sub_eq_zero_of_le (Nat.le_of_lt hlt), Nat.pow_zero, roundDiv_one, Nat.mul_one]
  · obtain ⟨k, hk⟩ : ∃ k, n.log2 = 52 + k := Nat.exists_eq_add_of_le hge
    have he : exponentOf n 1 = (k : Int) := by rw [exponentOf_one hn hlog]; omega
    simp only [ofRatio, if_neg hn, he, scaleDown_of_nonneg, Nat.one_mul, hk,
      Nat.add_sub_cancel_left]
    by_cases hm : roundDiv n (2 ^ k) = 2 * leastNormal
    · have hsucc : leastNormal * 2 ^ (k + 1) = roundDiv n (2 ^ k) * 2 ^ k := by
        rw [hm, Nat.pow_succ']
        exact (Nat.mul_assoc ..).symm.trans (congrArg (· * 2 ^ k) (Nat.mul_comm ..))
      simp only [if_pos hm]
      rw [if_neg (by rw [maxExponent]; omega), ← hsucc]
      exact toSigned_of_nonneg negative leastNormal (k + 1)
    · simp only [if_neg hm]
      rw [if_neg (by rw [maxExponent]; omega), toSigned_of_nonneg]

theorem ofDecimal_zero (negative : Bool) (hn : n ≠ 0) (hsmall : n ≤ 2 ^ 63) :
    ofDecimal negative n 0 = ofRatio negative n 1 := by
  have hlength : (toDigits 10 n).length ≤ 19 :=
    (length_toDigits_le_iff (by decide) (by decide)).2 (by omega)
  simp only [ofDecimal, if_neg hn, Int.neg_zero]
  rw [if_neg (by omega)]
  rfl

theorem readMagnitude?_ofNat (negative : Bool) (n : Nat) :
    readMagnitude? negative (ofNat n) = some (ofDecimal negative n 0) := by
  have hdigits : ∀ c ∈ ofNat n, c.isDigit := fun _ => isDigit_of_mem_ofNat
  obtain ⟨htake, hdrop⟩ := takeWhile_append_of_head (b := []) hdigits (by simp)
  rw [append_nil] at htake hdrop
  have hne : (ofNat n).isEmpty = false := by simp [ofNat, toDigits_ne_nil]
  simp only [readMagnitude?, htake, hdrop, append_nil, hne, readExponent?, digitsValue_ofNat]
  rfl

theorem readUnsigned?_ofNat (negative : Bool) (n : Nat) :
    readUnsigned? negative (ofNat n) = some (ofDecimal negative n 0) := by
  have hname {word : Text} {c : Char} (hc : c ∈ word.lower) (hdigit : c.isDigit = false ∧
    c.toUpper.isDigit = false) :
      same (ofNat n) word = false := by
    rw [same, beq_eq_false_iff_ne]
    intro h
    rw [← h] at hc
    obtain ⟨x, hx, hlower⟩ := mem_map.1 hc
    exact toLower_ne_of_class hdigit.1 hdigit.2 x (isDigit_of_mem_ofNat hx) hlower
  rw [readUnsigned?, hname (c := 'i') (by decide) (by decide),
    hname (c := 'i') (by decide) (by decide),
    hname (c := 'n') (by decide) (by decide), readMagnitude?_ofNat]
  rfl

theorem read?_ofInt (n : Int) :
    read? (Text.ofInt n) = some (ofDecimal (decide (n < 0)) n.natAbs 0) := by
  by_cases h : n < 0
  · rw [Text.ofInt, if_pos h, read?, readUnsigned?_ofNat, decide_eq_true h]
  · rw [Text.ofInt, if_neg h, decide_eq_false h, ← readUnsigned?_ofNat]
    have hdigits : ∀ c ∈ ofNat n.natAbs, c.isDigit := fun _ => isDigit_of_mem_ofNat
    generalize ofNat n.natAbs = t at hdigits
    rw [read?] <;> rintro r rfl
    · exact absurd (hdigits '-' mem_cons_self) (by decide)
    · exact absurd (hdigits '+' mem_cons_self) (by decide)

end Binary64

theorem Text.ofInt_injective : Function.Injective ofInt := by
  intro m n h
  have hsign (k l : Int) : ofNat k.natAbs ≠ '-' :: ofNat l.natAbs := fun h => by
    have hdigit : '-' ∈ ofNat k.natAbs := by rw [h]; exact mem_cons_self
    exact absurd (isDigit_of_mem_ofNat hdigit) (by decide)
  have hvalue (h : ofNat m.natAbs = ofNat n.natAbs) : m.natAbs = n.natAbs := by
    rw [← Number.digitsValue_ofNat m.natAbs, h, Number.digitsValue_ofNat]
  simp only [ofInt] at h
  split_ifs at h
  · have := hvalue (cons.inj h).2
    omega
  · exact absurd h.symm (hsign n m)
  · exact absurd h (hsign m n)
  · have := hvalue h
    omega

namespace Param

open Number

theorem numeralBody_digits (h : ∀ c ∈ t, c.isDigit) (pointSeen : Bool) :
    numeralBody pointSeen t = t := by
  induction t with
  | nil => rfl
  | cons c t ih => rw [numeralBody, if_pos (h c mem_cons_self), ih (forall_mem_cons.1 h).2]

theorem leadingNumeral_ofInt (n : Int) : leadingNumeral (ofInt n) = ofInt n := by
  have hdigits : ∀ c ∈ ofNat n.natAbs, c.isDigit := fun _ => isDigit_of_mem_ofNat
  have htrim := DateTime.trimStart_digits (r := []) hdigits toDigits_ne_nil
  by_cases h : n < 0
  · rw [ofInt, if_pos h]
    show '-' :: numeralBody false (ofNat n.natAbs) = _
    rw [numeralBody_digits hdigits]
  · rw [append_nil] at htrim
    rw [ofInt, if_neg h, leadingNumeral, htrim]
    generalize ofNat n.natAbs = t at hdigits
    split
    · exact absurd (hdigits '-' mem_cons_self) (by decide)
    · exact absurd (hdigits '+' mem_cons_self) (by decide)
    · exact numeralBody_digits hdigits false

theorem asInt_text_ofInt {n : Int} (hsmall : n.natAbs ≤ 2 ^ 63) :
    asInt (.text (ofInt n)) = clamp (n.sign * Binary64.nearest n.natAbs) := by
  rw [asInt, leadingDouble?, leadingNumeral_ofInt, Binary64.read?_ofInt, Option.map_some,
    Option.getD_some]
  by_cases hn : n = 0
  · rw [hn]
    exact Binary64.toSigned_zero false _
  have hpos : n.natAbs ≠ 0 := Int.natAbs_ne_zero.2 hn
  rw [Binary64.ofDecimal_zero _ hpos hsmall, Binary64.toSigned_ofRatio _ hpos hsmall]
  by_cases h : n < 0
  · rw [if_pos (decide_eq_true h), Int.sign_eq_neg_one_of_neg h, Int.neg_one_mul]
  · rw [if_neg (by simpa using h), Int.sign_eq_one_of_pos (by omega), Int.one_mul]

end Param

/-- **Whole numbers in texts.** A signed number that arrives as text is written as itself exactly if
a double holds it, or if it is the greatest one: the double nearest to that is beyond the range and
is cut back. -/
theorem Param.render_text_eq_iff (n : Int) (hn : Number.minSigned ≤ n ∧ n ≤ Number.maxSigned)
    (inline : Bool) :
    render (.text (ofInt n)) .int inline = render (.int n) .int inline ↔
      Binary64.Holds n.natAbs ∨ n = Number.maxSigned := by
  have hrender :
      render (.text (ofInt n)) .int inline = render (.int n) .int inline ↔
        asInt (.text (ofInt n)) = n :=
    ofInt_injective.eq_iff
  rw [hrender, ← Binary64.nearest_eq_iff]
  simp only [Number.minSigned, Number.maxSigned] at hn
  have hnearest : Binary64.nearest n.natAbs ≤ 2 ^ 63 := by
    by_cases h : n.natAbs < 2 ^ 63
    · exact Binary64.nearest_le h
    · rw [show n.natAbs = 2 ^ 63 by omega]
      decide +kernel
  have hgreatest (h : n = 9223372036854775807) : Binary64.nearest n.natAbs = 2 ^ 63 := by
    rw [h]
    decide +kernel
  rw [asInt_text_ofInt (by omega), Number.clamp, Number.minSigned, Number.maxSigned, Int.min_def]
  rcases Int.lt_trichotomy n 0 with h | h | h
  · rw [Int.sign_eq_neg_one_of_neg h]
    split_ifs <;> omega
  · subst h
    decide +kernel
  · rw [Int.sign_eq_one_of_pos h]
    split_ifs <;> omega

/-- The greatest number but the last that is written as itself. -/
theorem Param.render_text_exact :
    render (.text (ofInt 9223372036854774784)) .int true = render (.int 9223372036854774784)
      .int true :=
  (render_text_eq_iff 9223372036854774784 ⟨by decide, by decide⟩ true).2
    (.inl ⟨9007199254740991, 10, by decide, by decide⟩)

theorem Param.render_text_changes :
    render (.text (ofInt 9007199254740993)) .int false = "9007199254740992" := by
  decide +kernel

end Recast
