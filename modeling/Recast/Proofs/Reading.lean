import Recast.Keyword
import Recast.Proofs.Cutting

/-!
# What cursors read

A cursor in a text is a cut of the text (`At`), and each of its steps reads some characters and
moves the cut behind them (`Reads`). What a step has read is all that later proofs need to know
about it. `mem_scan` says where the finds of a scan come from.
-/

namespace Recast

open Keyword List Text
open Option hiding guard

variable {r t u w word : Text} {x : Char} {c d : Cursor} {n offset resume : Nat} {p : Char → Bool}
  {last : Option Char}

/-! ### The case of ASCII letters -/

theorem utf8Size_toLower (c : Char) : c.toLower.utf8Size = c.utf8Size :=
  of_ascii (P := fun c => c.toLower.utf8Size = c.utf8Size) c (by decide) fun _ _ h _ => by rw [h]

theorem eq_of_toLower {c d : Char} (h : c.toLower = d) (hd : d.isLower = false) : c = d := by
  subst h
  exact of_ascii (P := fun c => c.toLower.isLower = false → c = c.toLower) c (by decide)
    (fun _ _ h _ _ => h.symm) hd

theorem Text.size_lower (t : Text) : t.lower.size = t.size := by
  induction t with
  | nil => rfl
  | cons c t ih =>
    show c.toLower.utf8Size + size (lower t) = _
    rw [ih, utf8Size_toLower]
    rfl

/-- What is read as a name and a parenthesis ends in a parenthesis. -/
theorem Text.exists_of_lower_paren {name : Text} (h : lower w = lower (name ++ ['('])) :
    ∃ v, w = v ++ ['('] ∧ lower v = lower name := by
  rw [lower, lower, map_append] at h
  obtain ⟨v, r, rfl, hv, hr⟩ := map_eq_append_iff.1 h
  obtain ⟨x, r, rfl, hx, hr⟩ := map_eq_cons_iff.1 hr
  obtain rfl : r = [] := map_eq_nil_iff.1 hr
  obtain rfl : x = '(' := eq_of_toLower hx rfl
  exact ⟨v, rfl, hv⟩

/-! ### Digits -/

theorem isBlank_of_isDecimalDigit {c : Char} (h : isDecimalDigit c) : isBlank c = false :=
  isBlank_of_class h (by decide)

theorem ne_of_isDecimalDigit {c : Char} (h : isDecimalDigit c) (hx : isDecimalDigit x = false) :
    c ≠ x := by
  rintro rfl
  simp [h] at hx

namespace Cursor

/-! ### Places and steps -/

/-- The cursor stands in the text `t`. -/
def At (t : Text) (c : Cursor) : Prop :=
  ∃ a, t = a ++ c.rest ∧ c.offset = a.size ∧ c.last = a.getLast?

/-- From `c` to `d` exactly the characters `w` are read. -/
structure Reads (c : Cursor) (w : Text) (d : Cursor) : Prop where
  rest : c.rest = w ++ d.rest
  offset : d.offset = c.offset + w.size
  last : d.last = w.getLast?.or c.last

theorem at_start (t : Text) : At t (start t) := ⟨[], rfl, rfl, rfl⟩

theorem at_ofOffset (h : t.isBoundary n) : At t (ofOffset t n) := by
  refine ⟨t.before n, (before_append_after t n).symm, ?_, rfl⟩
  have hsize : (t.before n).size = n := by simpa [isBoundary] using h
  exact hsize.symm

theorem At.ofOffset_eq (h : At t c) : ofOffset t c.offset = c := by
  obtain ⟨a, ht, hoffset, hlast⟩ := h
  rw [ofOffset, hoffset, ht, before_size_append, after_size_append, ← hlast, ← hoffset]

theorem Reads.refl (c : Cursor) : Reads c [] c := ⟨rfl, rfl, by simp⟩

theorem Reads.trans {e : Cursor} {v : Text} (h : Reads c v d) (h' : Reads d w e) :
    Reads c (v ++ w) e := by
  refine ⟨?_, ?_, ?_⟩
  · rw [h.rest, h'.rest, append_assoc]
  · rw [h'.offset, h.offset, size_append, Nat.add_assoc]
  · rw [h'.last, h.last, List.getLast?_append, Option.or_assoc]

theorem Reads.le (h : Reads c w d) : c.offset ≤ d.offset := by
  rw [h.offset]
  omega

theorem At.reads (hc : At t c) (h : Reads c w d) : At t d := by
  obtain ⟨a, ht, hoffset, hlast⟩ := hc
  refine ⟨a ++ w, ?_, ?_, ?_⟩
  · rw [ht, h.rest, append_assoc]
  · rw [h.offset, hoffset, size_append]
  · rw [h.last, hlast, getLast?_append]

theorem At.slice (hc : At t c) (h : Reads c w d) : t.slice (c.spanTo d) = w := by
  obtain ⟨a, ht, hoffset, -⟩ := hc
  rw [ht, h.rest, ← append_assoc]
  exact slice_append a w _ hoffset (by rw [h.offset, hoffset])

theorem At.isBoundary (h : At t c) : t.isBoundary c.offset := by
  obtain ⟨a, ht, hoffset, -⟩ := h
  exact isBoundary_iff.2 ⟨a, c.rest, ht, hoffset.symm⟩

/-- What is skipped, up to the first other character. -/
theorem skipWhile_reads (c : Cursor) (p : Char → Bool) : ∃ w, Reads c w (c.skipWhile p) ∧
    (∀ x ∈ w, p x) ∧ ∀ x, (c.skipWhile p).rest.head? = some x → p x = false := by
  obtain ⟨offset, last, rest⟩ := c
  show ∃ w, Reads _ w (skipFrom p offset last rest) ∧ _ ∧ _
  induction rest generalizing offset last with
  | nil => exact ⟨[], .refl _, by simp, by simp [skipFrom, skipWhile]⟩
  | cons x t ih =>
    rw [skipWhile, skipFrom]
    cases hx : p x with
    | false =>
      refine ⟨[], .refl _, by simp, ?_⟩
      rintro y ⟨⟩
      exact hx
    | true =>
      obtain ⟨w, hw, hall, hhead⟩ := ih (offset + x.utf8Size) (some x)
      have hfirst : Reads ⟨offset, last, x :: t⟩ [x] ⟨offset + x.utf8Size, some x, t⟩ :=
        ⟨rfl, rfl, rfl⟩
      exact ⟨x :: w, hfirst.trans hw, by simpa [hx] using hall, hhead⟩

theorem char?_reads (h : c.char? p = some d) : ∃ x, p x ∧ Reads c [x] d := by
  obtain ⟨offset, last, rest⟩ := c
  cases rest with
  | nil => cases h
  | cons x t =>
    simp only [char?] at h
    split at h
    · next hx =>
      cases h
      exact ⟨x, hx, rfl, rfl, rfl⟩
    · cases h

theorem some?_reads (h : c.some? p = some d) : ∃ w, Reads c w d ∧
    w ≠ [] ∧ (∀ x ∈ w, p x) ∧ ∀ x, d.rest.head? = some x → p x = false := by
  rw [some?] at h
  split at h
  · next hfirst =>
    cases h
    obtain ⟨w, hw, hall, hhead⟩ := skipWhile_reads c p
    refine ⟨w, hw, ?_, hall, hhead⟩
    rintro rfl
    -- if nothing were read, the first character would both have the property and lack it
    rw [hw.rest, nil_append] at hfirst
    cases hx : (c.skipWhile p).rest.head? with
    | none => rw [hx] at hfirst; cases hfirst
    | some x =>
      simp [hx, any_some, hhead x hx] at hfirst
  · cases h

theorem sign?_reads (h : c.sign? x = some d) : Reads c [x] d := by
  obtain ⟨y, hy, hread⟩ := char?_reads h
  rwa [eq_of_beq hy] at hread

theorem word?_reads (h : c.word? word = some d) :
    ∃ w, Reads c w d ∧ w.map foldChar = word.map foldChar := by
  induction word generalizing c with
  | nil =>
    cases h
    exact ⟨[], .refl _, rfl⟩
  | cons a word ih =>
    obtain ⟨e, he, hrest⟩ := bind_eq_some_iff.1 h
    obtain ⟨x, hx, hread⟩ := char?_reads he
    obtain ⟨w, hw, hall⟩ := ih hrest
    refine ⟨x :: w, hread.trans hw, ?_⟩
    rw [map_cons, map_cons, hall, eq_of_beq hx]

theorem le_skipWhile (c : Cursor) (p : Char → Bool) : c.offset ≤ (c.skipWhile p).offset := by
  obtain ⟨w, hw, -⟩ := skipWhile_reads c p
  exact hw.le

theorem At.skipWhile (hc : At t c) (p : Char → Bool) : At t (c.skipWhile p) := by
  obtain ⟨w, hw, -⟩ := skipWhile_reads c p
  exact hc.reads hw

theorem At.some? (hc : At t c) (h : c.some? p = some d) : At t d := by
  obtain ⟨w, hw, -⟩ := some?_reads h
  exact hc.reads hw

theorem At.sign? (hc : At t c) (h : c.sign? x = some d) : At t d := hc.reads (sign?_reads h)

theorem At.word? (hc : At t c) (h : c.word? word = some d) : At t d := by
  obtain ⟨w, hw, -⟩ := word?_reads h
  exact hc.reads hw

/-- Past a word, up to the case of ASCII letters. -/
theorem plain?_reads (h : c.plain? word = some d) :
    ∃ w, Reads c w d ∧ lower w = lower word ∧ w.size = word.size := by
  have hread : ∃ w, Reads c w d ∧ lower w = lower word := by
    induction word generalizing c with
    | nil =>
      cases h
      exact ⟨[], .refl _, rfl⟩
    | cons a word ih =>
      obtain ⟨e, he, hrest⟩ := bind_eq_some_iff.1 h
      obtain ⟨x, hx, hread⟩ := char?_reads he
      obtain ⟨w, hw, hall⟩ := ih hrest
      refine ⟨x :: w, hread.trans hw, ?_⟩
      show x.toLower :: lower w = a.toLower :: lower word
      rw [eq_of_beq hx, hall]
  obtain ⟨w, hw, hlower⟩ := hread
  exact ⟨w, hw, hlower, by rw [← size_lower w, hlower, size_lower]⟩

theorem exists_char? (hrest : c.rest = x :: r) (hx : p x) :
    ∃ d, c.char? p = some d ∧ Reads c [x] d ∧ d.rest = r := by
  refine ⟨⟨c.offset + x.utf8Size, some x, r⟩, ?_, ⟨hrest, rfl, rfl⟩, rfl⟩
  obtain ⟨offset, last, rest⟩ := c
  simp only at hrest
  rw [hrest]
  exact if_pos hx

theorem exists_plain? (hrest : c.rest = w ++ r) (hw : lower w = lower word) :
    ∃ d, c.plain? word = some d ∧ Reads c w d := by
  induction word generalizing c w with
  | nil =>
    obtain rfl : w = [] := map_eq_nil_iff.1 hw
    exact ⟨c, rfl, .refl c⟩
  | cons a word ih =>
    obtain ⟨x, w, rfl, hx, hw⟩ := map_eq_cons_iff.1 hw
    obtain ⟨d, hd, hread, hrest'⟩ :=
      exists_char? (p := fun y => y.toLower == a.toLower) hrest (by simp [hx])
    obtain ⟨e, he, hreads⟩ := ih hrest' hw
    exact ⟨e, by rw [plain?, hd]; exact he, hread.trans hreads⟩

theorem exists_word? (hrest : c.rest = w ++ r) (hw : w.map foldChar = word.map foldChar) :
    ∃ d, c.word? word = some d ∧ Reads c w d := by
  induction word generalizing c w with
  | nil =>
    obtain rfl : w = [] := map_eq_nil_iff.1 hw
    exact ⟨c, rfl, .refl c⟩
  | cons a word ih =>
    obtain ⟨x, w, rfl, hx, hw⟩ := map_eq_cons_iff.1 hw
    obtain ⟨d, hd, hread, hrest'⟩ :=
      exists_char? (p := sameLetter a) hrest (by simp [sameLetter, hx])
    obtain ⟨e, he, hreads⟩ := ih hrest' hw
    exact ⟨e, by rw [word?, hd]; exact he, hread.trans hreads⟩

theorem reads_skipWhile (hrest : c.rest = w ++ r) (hw : ∀ x ∈ w, p x)
    (hr : ∀ x, r.head? = some x → p x = false) : Reads c w (c.skipWhile p) := by
  obtain ⟨v, hread, hv, hstop⟩ := skipWhile_reads c p
  rcases append_eq_append_iff.1 (hrest.symm.trans hread.rest) with ⟨u, rfl, hu⟩ | ⟨u, hu, hrest'⟩
  · cases u with
    | nil => simpa using hread
    | cons y u =>
      have hy := hr y (by rw [hu]; rfl)
      simp [hv y (by simp)] at hy
  · cases u with
    | nil =>
      rw [append_nil] at hu
      rwa [hu]
    | cons y u =>
      have hy := hstop y (by rw [hrest']; rfl)
      simp [hw y (by rw [hu]; simp)] at hy

theorem exists_some? (hrest : c.rest = w ++ r) (hne : w ≠ []) (hw : ∀ x ∈ w, p x)
    (hr : ∀ x, r.head? = some x → p x = false) : ∃ d, c.some? p = some d ∧ Reads c w d := by
  obtain ⟨x, w, rfl⟩ := exists_cons_of_ne_nil hne
  exact ⟨c.skipWhile p, by simp [some?, hrest, hw x (by simp)], reads_skipWhile hrest hw hr⟩

theorem Reads.rest_eq (h : Reads c w d) (hrest : c.rest = w ++ r) : d.rest = r :=
  (append_cancel_left (hrest.symm.trans h.rest)).symm

theorem skipWhile_of_head (h : ∀ x, c.rest.head? = some x → p x = false) : c.skipWhile p = c := by
  obtain ⟨offset, last, rest⟩ := c
  cases rest with
  | nil => rfl
  | cons x r =>
    have hx := h x rfl
    simp [skipWhile, skipFrom, hx]

theorem sign?_of_head (h : c.rest.head? ≠ some x) : c.sign? x = none := by
  obtain ⟨offset, last, rest⟩ := c
  cases rest with
  | nil => rfl
  | cons y r =>
    have hy : y ≠ x := fun heq => h (by rw [heq]; rfl)
    simp [sign?, char?, hy]

theorem skipSign_of_head (h : c.rest.head? ≠ some x) : c.skipSign x = c := by
  rw [skipSign, sign?_of_head h, getD_none]

theorem exists_sign?_blanks {g : Text} (hrest : c.rest = g ++ x :: r) (hg : ∀ y ∈ g, isBlank y)
    (hx : isBlank x = false) : ∃ d, c.blanks.sign? x = some d ∧ d.rest = r := by
  have hblanks : Reads c g c.blanks := reads_skipWhile hrest hg (by simpa using hx)
  have hnext : c.blanks.rest = x :: r := hblanks.rest_eq hrest
  obtain ⟨d, hd, -, hdrest⟩ := exists_char? (p := (· == x)) hnext (by simp)
  exact ⟨d, hd, hdrest⟩

theorem here?_eq_some : here? word c = some d ↔
    word ≠ [] ∧ afterName c = false ∧ c.plain? word = some d ∧ beforeName d = false := by
  simp [here?, bind_eq_some_iff, guard, and_assoc]

theorem here?_reads (h : here? word c = some d) :
    ∃ w, Reads c w d ∧ lower w = lower word ∧ w.size = word.size :=
  plain?_reads (here?_eq_some.1 h).2.2.1

theorem rest?_reads {words : List Text} (h : rest? words c = some d) : ∃ w, Reads c w d := by
  induction words generalizing c with
  | nil =>
    cases h
    exact ⟨[], .refl _⟩
  | cons word words ih =>
    obtain ⟨e, he, f, hf, h⟩ := of_bind₂ h
    obtain ⟨u, hu, -⟩ := some?_reads he
    obtain ⟨v, hv, -⟩ := here?_reads hf
    obtain ⟨w, hw⟩ := ih h
    exact ⟨_, (hu.trans hv).trans hw⟩

/-! ### Reading through characters of a kind -/

/-- From `c` to `d` only characters with a property are read. -/
def Through (P : Char → Prop) (c d : Cursor) : Prop := ∃ w, Reads c w d ∧ ∀ x ∈ w, P x

section

variable {P : Char → Prop} {c d e : Cursor}

theorem Through.refl (c : Cursor) : Through P c c := ⟨[], .refl c, by simp⟩

theorem Through.trans (h : Through P c d) (h' : Through P d e) : Through P c e := by
  obtain ⟨v, hv, hall⟩ := h
  obtain ⟨w, hw, hall'⟩ := h'
  exact ⟨v ++ w, hv.trans hw, forall_mem_append.2 ⟨hall, hall'⟩⟩

theorem Through.le (h : Through P c d) : c.offset ≤ d.offset := by
  obtain ⟨w, hw, -⟩ := h
  exact hw.le

theorem through_skipWhile (c : Cursor) (hp : ∀ x, p x → P x) : Through P c (c.skipWhile p) := by
  obtain ⟨w, hw, hall, -⟩ := skipWhile_reads c p
  exact ⟨w, hw, fun x hx => hp x (hall x hx)⟩

theorem through_some? (h : c.some? p = some d) (hp : ∀ x, p x → P x) : Through P c d := by
  obtain ⟨w, hw, -, hall, -⟩ := some?_reads h
  exact ⟨w, hw, fun x hx => hp x (hall x hx)⟩

theorem through_sign? (h : c.sign? x = some d) (hx : P x) : Through P c d :=
  ⟨[x], sign?_reads h, by simpa using hx⟩

theorem through_skipSign (c : Cursor) (hx : P x) : Through P c (c.skipSign x) := by
  rw [skipSign]
  cases h : c.sign? x with
  | none => exact .refl c
  | some d => exact through_sign? h hx

end

/-! ### Scans -/

theorem getLast?_cons_or (c : Char) (v : Text) (last : Option Char) :
    (c :: v).getLast?.or last = v.getLast?.or (some c) := by
  rw [getLast?_cons]
  cases v.getLast? <;> rfl

/-- The place behind `c :: v`, counted from the place behind `c`. -/
theorem mk_cons (c : Char) (v r : Text) :
    (⟨offset + size (c :: v), (c :: v).getLast?.or last, r⟩ : Cursor)
    = ⟨offset + c.utf8Size + size v, v.getLast?.or (some c), r⟩ := by
  rw [getLast?_cons_or, size_cons, Nat.add_assoc]

/-- A find comes from a place of the text. -/
theorem mem_scanFrom {step : Cursor → Option (Option α × Nat)} {x : α}
    (h : x ∈ scanFrom step resume offset last t) :
    ∃ u c v stop, t = u ++ c :: v ∧ step ⟨offset + size u, u.getLast?.or last, c :: v⟩ =
      some (some x, stop) := by
  induction t generalizing resume offset last with
  | nil => cases h
  | cons c t ih =>
    have hnext {resume' : Nat} (h : x ∈ scanFrom step resume' (offset + c.utf8Size) (some c) t) :
        ∃ u d v stop, c :: t = u ++ d :: v ∧
          step ⟨offset + size u, u.getLast?.or last, d :: v⟩ = some (some x, stop) := by
      obtain ⟨u, d, v, stop, rfl, hstep⟩ := ih h
      exact ⟨c :: u, d, v, stop, rfl, by rw [mk_cons, hstep]⟩
    rw [scanFrom] at h
    split at h
    · exact hnext h
    · split at h
      · exact hnext h
      · next found stop hstep =>
        rcases mem_append.1 h with hx | h
        · rw [mem_toList] at hx
          exact ⟨[], c, t, stop, rfl, by rw [← hx]; exact hstep⟩
        · exact hnext h

theorem At.mem_scan (hc : At t c) {step : Cursor → Option (Option α × Nat)} {x : α}
    (h : x ∈ c.scan step) :
    ∃ w d stop, Reads c w d ∧ At t d ∧ d.rest ≠ [] ∧ step d = some (some x, stop) := by
  obtain ⟨w, y, v, stop, hrest, hstep⟩ := mem_scanFrom h
  have hread : Reads c w ⟨c.offset + size w, w.getLast?.or c.last, y :: v⟩ := ⟨hrest, rfl, rfl⟩
  exact ⟨w, _, stop, hread, hc.reads hread, by simp, hstep⟩

theorem At.mem_findAll (hc : At t c) {clause : Cursor → Option (α × Cursor)} {x : α}
    (h : x ∈ c.findAll clause) :
    ∃ w d e, Reads c w d ∧ At t d ∧ d.rest ≠ [] ∧ clause d = some (x, e) := by
  obtain ⟨w, d, stop, hread, hd, hne, hstep⟩ := hc.mem_scan h
  obtain ⟨⟨y, e⟩, hclause, heq⟩ := map_eq_some_iff.1 hstep
  cases heq
  exact ⟨w, d, e, hread, hd, hne, hclause⟩

/-- What is found in a text is read at a place of it. -/
theorem at_of_mem_findAll {clause : Cursor → Option (α × Cursor)} {x : α}
    (h : x ∈ (start t).findAll clause) : ∃ c d, At t c ∧ clause c = some (x, d) := by
  obtain ⟨-, c, d, -, hc, -, hread⟩ := (at_start t).mem_findAll h
  exact ⟨c, d, hc, hread⟩

theorem at_of_mem_occurrences (h : n ∈ occurrences t word) :
    ∃ c d, At t c ∧ c.offset = n ∧ word ≠ [] ∧ c.plain? word = some d := by
  rw [occurrences] at h
  split at h
  · cases h
  · next hne =>
    obtain ⟨c, d, hc, hread⟩ := at_of_mem_findAll h
    obtain ⟨e, hplain, heq⟩ := bind_eq_some_iff.1 hread
    cases heq
    exact ⟨c, d, hc, rfl, by simpa using hne, hplain⟩

theorem at_of_find? {k : Nat} (h : find? t word n = some k) : t.isBoundary n ∧
    ∃ u c d, Reads (ofOffset t n) u c ∧ At t c ∧ c.offset = k ∧ Keyword.here? word c = some d := by
  rw [Keyword.find?] at h
  split at h
  · cases h
  · next hn =>
    have hplace : t.isBoundary n := by simpa using hn
    obtain ⟨u, c, d, hu, hc, -, hread⟩ := (at_ofOffset hplace).mem_findAll (mem_of_mem_head? h)
    obtain ⟨e, hhere, heq⟩ := bind_eq_some_iff.1 hread
    cases heq
    exact ⟨hplace, u, c, d, hu, hc, rfl, hhere⟩

/-- A phrase is found where its words are read, at or behind the offset. -/
theorem at_of_mem_phrases {wanted : Nat → Bool} {first : Text} {others : List Text} {s : Span}
    (h : s ∈ phrases wanted t (first :: others) n) :
    t.isBoundary n ∧ ∃ u c d e, Reads (ofOffset t n) u c ∧
      At t c ∧ here? first c = some d ∧ rest? others d = some e ∧ s = c.spanTo e ∧
      wanted c.offset := by
  rw [phrases] at h
  split at h
  · cases h
  · next hn =>
    have hplace : t.isBoundary n := by simpa using hn
    obtain ⟨u, c, stop, hu, hc, -, hstep⟩ := (at_ofOffset hplace).mem_scan h
    obtain ⟨d, hd, hstep⟩ := bind_eq_some_iff.1 hstep
    split at hstep
    · cases hstep
    · next e he =>
      split at hstep
      · next hwanted =>
        cases hstep
        exact ⟨hplace, u, c, d, e, hu, hc, hd, he, rfl, hwanted⟩
      · cases hstep

/-- What can be found behind `u` is found, or something before it, if no find in `u` reaches
beyond. -/
theorem exists_head?_scanFrom {step : Cursor → Option (Option α × Nat)} {P : α → Prop} {x : α}
    {k : Nat} (hr : r ≠ [])
    (hfind : step ⟨offset + size u, u.getLast?.or last, r⟩ = some (some x, k)) (hx : P x)
    (hresume : resume ≤ offset + size u) (hearlier : ∀ v c w found stop, u = v ++ c :: w →
      step ⟨offset + size v, v.getLast?.or last, c :: (w ++ r)⟩ = some (found, stop) →
      (found = none → stop ≤ offset + size u) ∧ ∀ y, found = some y → P y) :
    ∃ y, (scanFrom step resume offset last (u ++ r)).head? = some y ∧ P y := by
  induction u generalizing resume offset last with
  | nil =>
    obtain ⟨c, r, rfl⟩ := exists_cons_of_ne_nil hr
    simp only [size_nil, Nat.add_zero, getLast?_nil, none_or] at hfind hresume
    rw [nil_append, scanFrom, if_neg (by omega), hfind]
    exact ⟨x, rfl, hx⟩
  | cons c u ih =>
    have hsize : offset + c.utf8Size + size u = offset + size (c :: u) := by
      rw [size_cons, Nat.add_assoc]
    have hnext (resume' : Nat) (h : resume' ≤ offset + size (c :: u)) :
        ∃ y, (scanFrom step resume' (offset + c.utf8Size) (some c) (u ++ r)).head? =
          some y ∧ P y := by
      refine ih (by rwa [← mk_cons]) (by rwa [hsize]) fun v d w found stop hu hstep => ?_
      rw [← mk_cons] at hstep
      rw [hsize]
      exact hearlier (c :: v) d w found stop (by rw [hu]; rfl) hstep
    rw [cons_append, scanFrom]
    split
    · exact hnext resume hresume
    · split
      · exact hnext resume hresume
      · next found stop hstep =>
        obtain ⟨hstop, hfound⟩ := hearlier [] c u found stop rfl (by simpa using hstep)
        cases found with
        | some y => exact ⟨y, rfl, hfound y rfl⟩
        | none => exact hnext stop (hstop rfl)

/-- Every place at which a clause can be read is a find, or inside one. -/
theorem exists_covering {clause : Cursor → Option (α × Cursor)} (hr : r ≠ []) {x : α} (resume : Nat)
    (hread : clause ⟨offset + size u, u.getLast?.or last, r⟩ = some (x, d)) :
    offset + size u < resume ∨ ∃ v w y e, u = v ++ w ∧
      clause ⟨offset + size v, v.getLast?.or last, w ++ r⟩ = some (y, e) ∧
      y ∈ scanFrom (fun c => (clause c).map fun (a, e) => (some a, e.offset)) resume offset last
        (u ++ r) ∧
      (w = [] ∨ offset + size u < e.offset) := by
  induction u generalizing resume offset last with
  | nil =>
    obtain ⟨c, r, rfl⟩ := exists_cons_of_ne_nil hr
    by_cases hlt : offset < resume
    · exact .inl hlt
    · simp only [size_nil, Nat.add_zero, getLast?_nil, none_or] at hread
      refine .inr ⟨[], [], x, d, rfl, by simpa using hread, ?_, .inl rfl⟩
      rw [nil_append, scanFrom, if_neg hlt, hread]
      simp
  | cons c u ih =>
    have hsize : offset + c.utf8Size + size u = offset + size (c :: u) := by
      rw [size_cons, Nat.add_assoc]
    -- the finds behind the first character, for either place to go on from
    have hnext (resume' : Nat) (hlt : ¬ offset + size (c :: u) < resume') :
        ∃ v w y e, c :: u = v ++ w ∧
          clause ⟨offset + size v, v.getLast?.or last, w ++ r⟩ = some (y, e) ∧
          y ∈ scanFrom (fun c => (clause c).map fun (a, e) => (some a, e.offset)) resume'
            (offset + c.utf8Size) (some c) (u ++ r) ∧
          (w = [] ∨ offset + size (c :: u) < e.offset) := by
      rw [mk_cons] at hread
      rcases ih resume' hread with h | ⟨v, w, y, e, rfl, hread', hmem, hbefore⟩
      · rw [hsize] at h
        exact absurd h hlt
      · rw [← mk_cons] at hread'
        rw [hsize] at hbefore
        exact ⟨c :: v, w, y, e, rfl, hread', hmem, hbefore⟩
    by_cases hdone : offset + size (c :: u) < resume
    · exact .inl hdone
    · right
      rw [cons_append, scanFrom]
      split
      · exact hnext resume hdone
      · split
        · exact hnext resume hdone
        · next found stop hstep =>
          obtain ⟨⟨y, e⟩, hclause, heq⟩ := map_eq_some_iff.1 hstep
          cases heq
          by_cases hlt : offset + size (c :: u) < e.offset
          · exact ⟨[], c :: u, y, e, rfl, by simpa using hclause, by simp, .inr hlt⟩
          · obtain ⟨v, w, z, f, hu, hread', hmem, hbefore⟩ := hnext e.offset hlt
            exact ⟨v, w, z, f, hu, hread', mem_append_right _ hmem, hbefore⟩

/-- Where a clause can be read, one is found that begins there or covers the place. -/
theorem At.exists_covering {m : Text} (hc : At m c) (hne : c.rest ≠ [])
    {clause : Cursor → Option (α × Cursor)} {x : α} (hread : clause c = some (x, d)) :
    ∃ y b e, At m b ∧ clause b = some (y, e) ∧ y ∈ (start m).findAll clause ∧
      (b = c ∨ b.offset ≤ c.offset ∧ c.offset < e.offset) := by
  obtain ⟨u, rfl, hoffset, hlast⟩ := hc
  obtain ⟨offset, last, rest⟩ := c
  simp only at hoffset hlast hne
  subst hoffset hlast
  have hplace : clause ⟨0 + size u, u.getLast?.or none, rest⟩ = some (x, d) := by
    rwa [Nat.zero_add, or_none]
  rcases exists_covering hne 0 hplace with h | ⟨v, w, y, e, rfl, hread', hmem, hbefore⟩
  · cases h
  · simp only [Nat.zero_add, or_none] at hread' hbefore
    refine ⟨y, _, e, ⟨v, append_assoc v w rest, rfl, rfl⟩, hread', hmem, ?_⟩
    rcases hbefore with rfl | hlt
    · left
      simp
    · right
      refine ⟨?_, hlt⟩
      rw [size_append]
      exact Nat.le_add_right _ _

/-- Each find is searched for behind the one before it. -/
theorem pairwise_findAll {clause : Cursor → Option (α × Cursor)} {span : α → Span}
    (hspan : ∀ c x d, clause c = some (x, d) → span x = c.spanTo d) (c : Cursor) :
    (c.findAll clause).Pairwise fun x y => (span x).stop ≤ (span y).start := by
  suffices h : ∀ (t : Text) (resume offset : Nat) (last : Option Char),
      (scanFrom (fun c => (clause c).map fun (a, e) => (some a, e.offset)) resume offset last
        t).Pairwise
        (fun x y => (span x).stop ≤ (span y).start) ∧
      ∀ x ∈ scanFrom (fun c => (clause c).map fun (a, e) => (some a, e.offset)) resume
        offset last t,
        resume ≤ (span x).start from (h _ _ _ _).1
  intro t
  induction t with
  | nil => exact fun _ _ _ => ⟨.nil, by simp [scanFrom]⟩
  | cons x t ih =>
    intro resume offset last
    rw [scanFrom]
    split
    · exact ih _ _ _
    · next hle =>
      split
      · exact ih _ _ _
      · next found stop hstep =>
        obtain ⟨⟨y, e⟩, hclause, heq⟩ := map_eq_some_iff.1 hstep
        cases heq
        have hy := hspan _ _ _ hclause
        obtain ⟨hpairs, hall⟩ := ih e.offset (offset + x.utf8Size) (some x)
        constructor
        · refine pairwise_cons.2 ⟨fun z hz => ?_, hpairs⟩
          rw [hy]
          exact hall z hz
        · intro z hz
          rcases mem_cons.1 hz with rfl | hz
          · rw [hy]
            exact Nat.le_of_not_lt hle
          · obtain ⟨u, c', v, stop, -, hstep'⟩ := mem_scanFrom hz
            obtain ⟨⟨z', e'⟩, hclause', heq⟩ := map_eq_some_iff.1 hstep'
            cases heq
            rw [hspan _ _ _ hclause']
            simp only [spanTo]
            omega

theorem scanFrom_resume (step : Cursor → Option (Option α × Nat)) {m : Nat} (hm : m ≤ offset)
    (hn : n ≤ offset) (last : Option Char) (t : Text) :
    scanFrom step m offset last t = scanFrom step n offset last t := by
  induction t generalizing offset last with
  | nil => rfl
  | cons c t ih =>
    rw [scanFrom, scanFrom, if_neg (by omega), if_neg (by omega)]
    split
    · exact ih (by omega) (by omega) _
    · rfl

/-- A scan passes over characters at which its step fails. -/
theorem Reads.scan_eq {step : Cursor → Option (Option α × Nat)} (h : Reads c w d)
    (hfail : ∀ offset last, ∀ x ∈ w, ∀ t, step ⟨offset, last, x :: t⟩ = none) :
    c.scan step = d.scan step := by
  obtain ⟨offset, last, rest⟩ := c
  obtain ⟨hrest, hoffset, hlast⟩ := h
  induction w generalizing offset last rest with
  | nil =>
    obtain ⟨doffset, dlast, drest⟩ := d
    simp only [nil_append, size_nil, Nat.add_zero, getLast?_nil, none_or] at hrest hoffset hlast
    rw [hrest, hoffset, hlast]
  | cons x w ih =>
    simp only at hrest
    rw [hrest, scan, cons_append, scanFrom, if_neg (by simp),
      hfail offset last x (by simp), scanFrom_resume step (by simp) (Nat.le_refl _)]
    refine ih (fun o l y hy => hfail o l y (by simp [hy])) _ _ _ rfl ?_ ?_
    · simp [hoffset, Nat.add_assoc]
    · rw [hlast, getLast?_cons_or]

end Cursor

end Recast
