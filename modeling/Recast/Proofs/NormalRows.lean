import Recast.Row
import Recast.Proofs.Cutting

/-!
# Normal rows

A time is read back from its text whatever fraction of a second stands behind it
(`DateTime.read?_text_fraction`), so the fraction is all that normalization takes off. No value in
normal form is changed again: a time is written without a point, and so is an integer. Rows are
normalized one value at a time, which keeps their columns and does not care which rows are kept.
-/

namespace Recast

open List Text

variable {a f r t : Text} {d : DateTime} {n width : Nat}

/-! ### Digits -/

namespace Number

theorem digitsValue_ofNat (n : Nat) : digitsValue (ofNat n) = n := Nat.ofDigitChars_ten_toDigits

theorem digitsValue_replicate_zero (k : Nat) (t : Text) :
    digitsValue (replicate k '0' ++ t) = digitsValue t := by
  rw [digitsValue, digitsValue]
  induction k with
  | zero => rfl
  | succ k ih => exact ih

end Number

theorem Text.length_le_size (t : Text) : t.length ≤ t.size := by
  induction t with
  | nil => exact Nat.le_refl _
  | cons c t ih =>
    have := c.utf8Size_pos
    rw [length_cons, size_cons]
    omega

theorem isBlank_of_isDigit {c : Char} (h : c.isDigit) : isBlank c = false :=
  isBlank_of_isNameChar (by simp [isNameChar, Char.isAlphanum, h])

namespace DateTime

/-! ### Numbers in a time -/

theorem isDigit_of_mem_padded : ∀ c ∈ padded width n, c.isDigit := by
  intro c hc
  rcases mem_append.1 hc with hc | hc
  · rw [(mem_replicate.1 hc).2]
    decide
  · exact isDigit_of_mem_ofNat hc

theorem padded_ne_nil (width n : Nat) : padded width n ≠ [] :=
  append_ne_nil_of_right_ne_nil _ Nat.toDigits_ne_nil

theorem le_length_padded (width n : Nat) : width ≤ (padded width n).length := by
  rw [padded, length_append, length_replicate]
  omega

theorem length_padded (hwidth : 0 < width) (h : n < 10 ^ width) :
    (padded width n).length = width := by
  have hlength : (ofNat n).length ≤ width := (Nat.length_toDigits_le_iff (by decide) hwidth).2 h
  rw [padded, length_append, length_replicate]
  omega

/-- Digits are read up to the first character that is none. -/
theorem digits?_append {most : Nat} (ha : ∀ c ∈ a, c.isDigit) (hne : a ≠ [])
    (hmost : a.length ≤ most) (hr : ∀ c, r.head? = some c → c.isDigit = false) :
    digits? most (a ++ r) = some (Number.digitsValue a, r) := by
  have hrun : ((a ++ r).takeWhile Char.isDigit).take most = a := by
    rw [(takeWhile_append_of_head ha hr).1, take_of_length_le hmost]
  rw [digits?, hrun, drop_left]
  cases a with
  | nil => exact absurd rfl hne
  | cons => rfl

theorem trimStart_digits (ha : ∀ c ∈ a, c.isDigit) (hne : a ≠ []) :
    (a ++ r).trimStart = a ++ r := by
  refine dropWhile_of_head fun c hc => isBlank_of_isDigit (ha c ?_)
  obtain ⟨x, a, rfl⟩ := exists_cons_of_ne_nil hne
  cases hc
  exact mem_cons_self

/-- A number in the width it is written in, with a sign behind it. -/
theorem digits?_padded {c : Char} (hwidth : 0 < width) (h : n < 10 ^ width) (hc : c.isDigit = false)
    (r : Text) : digits? width (padded width n ++ c :: r) = some (n, c :: r) := by
  have hread :=
    digits?_append isDigit_of_mem_padded (padded_ne_nil width n)
      (Nat.le_of_eq (length_padded hwidth h))
    (r := c :: r) (by rintro x ⟨⟩; exact hc)
  rwa [padded, Number.digitsValue_replicate_zero, Number.digitsValue_ofNat, ← padded] at hread

theorem field?_padded {c : Char} (h : n < 100) (hc : c.isDigit = false) (r : Text) :
    field? (padded 2 n ++ c :: r) = some (n, c :: r) := by
  rw [field?, trimStart_digits isDigit_of_mem_padded (padded_ne_nil 2 n),
    digits?_padded (by decide) h hc]

theorem year?_yearText {year : Int} {c : Char} (h : 0 ≤ year ∧ year ≤ 9999) (hc : c.isDigit = false)
    (r : Text) : year? (yearText year ++ c :: r) = some (year, c :: r) := by
  have hsmall : year.toNat < 10 ^ 4 := by omega
  have hfirst : ∀ x, (padded 4 year.toNat ++ c :: r).head? = some x → x.isDigit := by
    intro x hx
    obtain ⟨y, l, hl⟩ := exists_cons_of_ne_nil (padded_ne_nil 4 year.toNat)
    rw [hl] at hx
    cases hx
    exact isDigit_of_mem_padded x (by rw [hl]; exact mem_cons_self)
  rw [yearText, if_pos h, year?, trimStart_digits isDigit_of_mem_padded (padded_ne_nil 4 _)]
  -- a digit is no sign
  split
  · next hcut => exact absurd (hfirst '-' (by rw [hcut]; rfl)) (by decide)
  · next hcut => exact absurd (hfirst '+' (by rw [hcut]; rfl)) (by decide)
  · rw [digits?_padded (by decide) hsmall hc]
    show some ((year.toNat : Int), c :: r) = _
    rw [Int.toNat_of_nonneg h.1]

theorem afterFraction?_digits (hne : f ≠ []) (hf : ∀ c ∈ f, c.isDigit) :
    afterFraction? ('.' :: f) = some [] := by
  have hdigits := digits?_append (r := []) hf hne (Nat.le_refl _) (by simp)
  rw [append_nil] at hdigits
  rw [afterFraction?, hdigits]
  rfl

/-! ### Times -/

theorem daysIn_le (year : Int) (month : Nat) : daysIn year month ≤ 31 := by
  rw [daysIn]
  split_ifs <;> decide

/-- A time is read back from its text, without its fraction. -/
theorem read?_text_fraction (hd : d.isValid) (hyear : 0 ≤ d.year ∧ d.year ≤ 9999) (hne : f ≠ [])
    (hf : ∀ c ∈ f, c.isDigit) : read? (d.text ++ '.' :: f) = some d := by
  have hfields : d.month < 100 ∧ d.day < 100 ∧ d.hour < 100 ∧ d.minute < 100 ∧ d.second < 100 := by
    have hdays := daysIn_le d.year d.month
    simp only [isValid, Bool.and_eq_true, decide_eq_true_eq] at hd
    omega
  obtain ⟨hmonth, hday, hhour, hminute, hsecond⟩ := hfields
  have htext :
      d.text ++ '.' :: f = yearText d.year ++ '-' :: (padded 2 d.month ++ '-' :: (padded 2 d.day ++
      ' ' :: (padded 2 d.hour ++ ':' ::
        (padded 2 d.minute ++ ':' :: (padded 2 d.second ++ '.' :: f))))) := by
    simp [text]
  have hblank (r : Text) : trimStart (' ' :: (padded 2 d.hour ++ r)) = padded 2 d.hour ++ r :=
    trimStart_digits isDigit_of_mem_padded (padded_ne_nil 2 d.hour)
  have hdash : ('-').isDigit = false := by decide
  have hspace : (' ').isDigit = false := by decide
  have hcolon : (':').isDigit = false := by decide
  have hpoint : ('.').isDigit = false := by decide
  rw [htext, read?, year?_yearText hyear hdash]
  simp only [bind, Option.bind, sign?, if_true, field?_padded hmonth hdash,
    field?_padded hday hspace, hblank,
    field?_padded hhour hcolon, field?_padded hminute hcolon, field?_padded hsecond hpoint,
    afterFraction?_digits hne hf, isEmpty_nil, hd, Bool.and_self]

theorem point_not_mem_text (d : DateTime) : '.' ∉ d.text := by
  have hpadded {width n : Nat} : '.' ∉ padded width n :=
    fun h => absurd (isDigit_of_mem_padded _ h) (by decide)
  have hyear : '.' ∉ yearText d.year := by
    rw [yearText]
    split
    · exact hpadded
    · intro h
      rcases mem_cons.1 h with h | h
      · split at h <;> cases h
      · exact hpadded h
  simp [text, hyear, hpadded]

theorem length_text (d : DateTime) : 19 ≤ d.text.length := by
  have hyear : 4 ≤ (yearText d.year).length := by
    rw [yearText]
    split
    · exact le_length_padded 4 _
    · exact Nat.le_succ_of_le (le_length_padded 4 _)
  have hmonth := le_length_padded 2 d.month
  have hday := le_length_padded 2 d.day
  have hhour := le_length_padded 2 d.hour
  have hminute := le_length_padded 2 d.minute
  have hsecond := le_length_padded 2 d.second
  simp only [text, length_append, length_cons]
  omega

theorem text_ne_space (d : DateTime) : d.text ≠ [' '] := by
  intro h
  have hlength := d.length_text
  rw [h] at hlength
  simp at hlength

end DateTime

namespace Cell

/-! ### Values -/

theorem normalize_of_no_point (h : '.' ∉ t) (hne : t ≠ [' ']) : normalize (.text t) = .text t := by
  have hwhole : wholeSeconds? t = none := by
    rw [wholeSeconds?, if_neg (by simp [h])]
  rw [normalize, if_neg hne, hwhole]
  rfl

theorem normalize_text_fraction (hd : d.isValid) (hyear : 0 ≤ d.year ∧ d.year ≤ 9999) (hne : f ≠ [])
    (hf : ∀ c ∈ f, c.isDigit) : normalize (.text (d.text ++ '.' :: f)) = .text d.text := by
  have hlength : 20 ≤ (d.text ++ '.' :: f).length := by
    have htext := d.length_text
    rw [length_append, length_cons]
    omega
  have hlong :
      (contains (d.text ++ '.' :: f) '.' && decide (20 ≤ size (d.text ++ '.' :: f))) = true := by
    rw [Bool.and_eq_true, decide_eq_true_eq]
    exact ⟨by simp, Nat.le_trans hlength (length_le_size _)⟩
  have hwhole : wholeSeconds? (d.text ++ '.' :: f) = some d.text := by
    rw [wholeSeconds?, if_pos hlong, DateTime.read?_text_fraction hd hyear hne hf]
    rfl
  have hspace : d.text ++ '.' :: f ≠ [' '] := by
    intro h
    rw [h] at hlength
    simp at hlength
  rw [normalize, if_neg hspace, hwhole]
  rfl

theorem wholeSeconds?_eq_some {u : Text} (h : wholeSeconds? t = some u) :
    ∃ d : DateTime, u = d.text := by
  rw [wholeSeconds?] at h
  split at h
  · obtain ⟨d, -, rfl⟩ := Option.map_eq_some_iff.1 h
    exact ⟨d, rfl⟩
  · cases h

/-- A value in normal form stays. -/
theorem normalize_normalize (c : Cell) : c.normalize.normalize = c.normalize := by
  cases c with
  | text t =>
    by_cases hspace : t = [' ']
    · rw [hspace]
      rfl
    · rw [normalize, if_neg hspace]
      cases hwhole : wholeSeconds? t with
      | none => rw [Option.getD_none, normalize, if_neg hspace, hwhole, Option.getD_none]
      | some u =>
        obtain ⟨d, rfl⟩ := wholeSeconds?_eq_some hwhole
        rw [Option.getD_some, normalize_of_no_point d.point_not_mem_text d.text_ne_space]
  | int n =>
    have hpoint : '.' ∉ ofInt n := fun h => by simpa using isDigit_of_mem_ofInt h
    have hspace : ofInt n ≠ [' '] :=
      fun h => by simpa using isDigit_of_mem_ofInt (n := n) (c := ' ') (by simp [h])
    rw [normalize, normalize_of_no_point hpoint hspace]
  | null | bool | float | list | map => rfl

end Cell

/-! ### Rows -/

namespace Row

theorem normalize_normalize (r : Row) : r.normalize.normalize = r.normalize := by
  rw [normalize, normalize, map_map]
  refine map_congr_left fun e _ => ?_
  show (e.1, e.2.normalize.normalize) = (e.1, e.2.normalize)
  rw [Cell.normalize_normalize]

end Row

theorem Window.apply_map {α β : Type} (f : α → β) (w : Option Window) (rows : List α) :
    Window.apply w (rows.map f) = (Window.apply w rows).map f := by
  cases w with
  | none => rfl
  | some w => rw [Window.apply, Window.apply, ← map_drop, ← map_take]

/-- **Normal rows.** A time with a fraction is read back as the time, whatever the fraction.
Normalizing rows keeps their number and the names of their columns, changes nothing the second time,
and may come before or behind a window on them. -/
theorem Row.normalize_rows :
    (∀ (d : DateTime) (f : Text), d.isValid = true → 0 ≤ d.year ∧ d.year ≤ 9999 → f ≠ [] →
      (∀ c ∈ f, c.isDigit = true) → Cell.normalize (.text (d.text ++ '.' :: f)) = .text d.text) ∧
    ∀ rows : List Row, (rows.map normalize).length = rows.length ∧
      (rows.map normalize).map (fun r => r.map (·.1)) = rows.map (fun r => r.map (·.1)) ∧
      (rows.map normalize).map normalize = rows.map normalize ∧
      ∀ w : Option Window, Window.apply w (rows.map normalize) = (Window.apply w rows).map
        normalize := by
  refine ⟨fun d f hd hyear hne hf => Cell.normalize_text_fraction hd hyear hne hf,
    fun rows => ⟨?_, ?_, ?_, ?_⟩⟩
  · rw [length_map]
  · rw [map_map]
    exact map_congr_left fun r _ => by simp [normalize, Function.comp_def]
  · rw [map_map]
    exact map_congr_left fun r _ => r.normalize_normalize
  · exact fun w => Window.apply_map normalize w rows

/-- The last second of the four-digit years, a leap second, and a fraction of more digits than a
clock has. -/
theorem Row.normalize_rows_last_second :
    let d : DateTime := ⟨9999, 12, 31, 23, 59, 60⟩
    let f : Text := "123456789012"
    let row : Row := [("at", .text (d.text ++ '.' :: f)), ("n", .int (-7)), ("c", .text [' '])]
    d.isValid = true ∧ d.text = "9999-12-31 23:59:60" ∧
      Cell.normalize (.text (d.text ++ '.' :: f)) = .text d.text ∧
      Window.apply (some ⟨1, 1⟩) ([row, row].map normalize) =
        (Window.apply (some ⟨1, 1⟩) [row, row]).map normalize := by
  intro d f row
  exact ⟨by decide, by decide, Row.normalize_rows.1 d f (by decide) (by decide) (by decide)
    (by decide),
    (Row.normalize_rows.2 [row, row]).2.2.2 (some ⟨1, 1⟩)⟩

end Recast
