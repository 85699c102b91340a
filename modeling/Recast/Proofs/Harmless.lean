import Recast.Proofs.SetOff

/-!
# Edits that do no harm

Most passes replace calls and words that they find in the mask. Such an edit is `Harmless` to a
WHERE that is set off: what it replaces is `Compact`, so it does not reach into the word, and what
it puts in is balanced. Whether a stretch is compact is read off the words it was recognised by.
-/

namespace Recast

open Literal Nesting List Text

variable {gap inner name new t w word y : Text} {c x : Char} {d : Cursor} {n : Nat}
  {f : Char → Char} {e : Edit}

namespace Keyword

/-- An edit outside literals of a compact stretch of code, by a text that weighs no more. -/
structure Harmless (t : Text) (e : Edit) : Prop where
  le : e.span.start ≤ e.span.stop
  start : Outside (mask t) e.span.start
  stop : Outside (mask t) e.span.stop
  compact : Compact ((mask t).slice e.span)
  lighter : ∀ d, Lighter none d e.new (t.slice e.span)

theorem Harmless.closed_before (h : Harmless t e) : Closed (t.before e.span.start) := by
  have hne : e.span.start ≠ e.span.stop := by
    intro heq
    obtain ⟨c, r, hr, -⟩ := h.compact.first
    have hempty : (mask t).slice ⟨e.span.start, e.span.stop⟩ = [] := by
      rw [heq, slice_self]
    cases hempty.symm.trans hr
  have hle := h.le
  have hsize := le_size_of_isBoundary h.stop.isBoundary
  exact (h.start.free_of_lt (by omega)).closed_before

theorem SetOff.spares_of_harmless {front rest : Text} (h : SetOff front word rest)
    (he : Harmless (front ++ (word ++ rest)) e) : Spares front word e := by
  obtain ⟨a, b, c, hm, ha, hb, hslice⟩ :=
    exists_three he.start.isBoundary_mask he.stop.isBoundary_mask he.le
  have hcompact := he.compact
  rw [hslice] at hcompact
  rw [append_assoc] at hm
  rcases h.clear_of_compact hcompact hm with hlt | hgt
  · exact .inl (by omega)
  · exact .inr (.inr (by omega))

theorem HasWhere.applyAll (h : HasWhere t) {edits : List Edit}
    (hedits : ∀ e ∈ edits, Harmless t e) : HasWhere (Edit.applyAll t edits) := by
  obtain ⟨front, word, rest, rfl, h⟩ := h
  refine h.applyAll (fun e he => h.spares_of_harmless (hedits e he)) fun e he _ => ?_
  exact light_of_closed (hedits e he).closed_before (hedits e he).lighter

theorem HasWhere.splice (h : HasWhere t) {s : Span} (he : Harmless t ⟨s, new⟩) :
    HasWhere (t.splice s new) := by
  rw [← Edit.applyAll_singleton he.le he.start.isBoundary he.stop.isBoundary]
  exact h.applyAll fun e hmem => by rw [mem_singleton.1 hmem]; exact he

theorem HasWhere.insertAt {p q : Text} (h : HasWhere t) (hm : mask t = p ++ (y ++ q))
    (hy : Compact y) (hle : p.size ≤ n) (hle' : n ≤ p.size + y.size) (hn : Outside (mask t) n)
    (hclosed : Closed (t.before n)) (hnew : Balanced new) : HasWhere (t.insertAt n new) := by
  obtain ⟨front, word, rest, rfl, h⟩ := h
  refine h.splice (s := ⟨n, n⟩) (Nat.le_refl n) hn hn ?_ fun _ => ?_
  · rcases h.clear_of_compact hy hm with hlt | hgt
    · exact .inl (Nat.lt_of_le_of_lt hle' hlt)
    · exact .inr (.inr (Nat.lt_of_lt_of_le hgt hle))
  · refine light_of_closed hclosed fun d => ?_
    rw [slice_self]
    exact hnew.lighter balanced_nil d

/-! ### Compact stretches -/

theorem compact_of_no_w
    (hfirst : ∃ c r, y = c :: r ∧ isLetter c = false ∧ isBlank c = false ∧ c ≠ '(')
    (hlast : ∀ c, y.getLast? = some c → isBlank c = false) (hno : ∀ c ∈ y, c.toLower ≠ 'w') :
    Compact y where
  first := hfirst
  last := hlast
  inside u b c v hy _ hc := absurd hc (hno c (by simp [hy]))

/-- A text behind an opening parenthesis that does not close it. -/
def StaysOpen (t : Text) : Prop := ∀ a b, t = a ++ b → ∀ d, d < a.foldl step (d + 1)

/-- A call is compact: what stands before the parenthesis is a name and blanks. -/
theorem compact_call
    (hfirst : ∃ c r, name = c :: r ∧ isLetter c = false ∧ isBlank c = false ∧ c ≠ '(')
    (hname : ∀ c ∈ name, isBlank c = false) (hgap : ∀ c ∈ gap, isBlank c)
    (hinner : StaysOpen inner) :
    Compact (name ++ (gap ++ '(' :: (inner ++ [')']))) where
  first := by
    obtain ⟨c, r, rfl, hc⟩ := hfirst
    exact ⟨c, _, rfl, hc⟩
  last c hc := by
    have hlast : (name ++ (gap ++ '(' :: (inner ++ [')']))).getLast? = some ')' := by
      simp [getLast?_append, getLast?_cons]
    rw [hlast] at hc
    cases hc
    decide
  inside u b c v hy hb hc d := by
    have hopen : c ≠ '(' := by rintro rfl; cases hc
    have hclose : c ≠ ')' := by rintro rfl; cases hc
    have hblank : isBlank c ≠ true := by
      intro hblank
      rw [toLower_of_isBlank hblank] at hc
      rw [hc] at hblank
      cases hblank
    have hcut : (name ++ gap) ++ '(' :: (inner ++ [')']) = (u ++ [b]) ++ c :: v := by
      simpa using hy
    rcases append_cons_eq_append hcut with ⟨r, hu, hr⟩ | ⟨r, hu, hr⟩
    · -- the blank is inside the parentheses
      rw [hu, foldl_append]
      rcases append_cons_eq_append hr.symm with ⟨z, rfl, -⟩ | ⟨z, -, hz⟩
      · exact Nat.zero_lt_of_lt (hinner r _ rfl _)
      · cases z with
        | nil => exact absurd (cons.inj hz).1.symm hclose
        | cons x z => simp at hz
    · -- the blank is in the gap, where only blanks follow
      cases r with
      | nil => exact absurd (cons.inj hr).1 hopen
      | cons x r =>
        obtain ⟨rfl, -⟩ := cons.inj hr
        rcases append_eq_append_iff.1 hu with ⟨z, -, hz⟩ | ⟨z, hz, -⟩
        · exact absurd (hgap c (by simp [hz])) hblank
        · exact absurd (hname b (by simp [hz])) (by simp [hb])

/-! ### Words and their letters -/

/-- A way to look at characters that shows the letters of the word, blanks and parentheses as they
are. -/
structure Tells (f : Char → Char) : Prop where
  letter : ∀ c, isLetter c = true → f c = c.toLower
  blank : ∀ c, isBlank c = true → f c = c
  opening : f '(' = '('
  closing : f ')' = ')'

theorem tells_toLower : Tells Char.toLower where
  letter _ _ := rfl
  blank _ h := toLower_of_isBlank h
  opening := rfl
  closing := rfl

theorem foldChar_of_isBlank (h : isBlank c) : foldChar c = c :=
  of_isBlank (P := fun c => foldChar c = c) h (by decide)

theorem foldChar_of_toLower (h : c.toLower = x) (hx : x.toNat < 0x80) : foldChar c = x := by
  rw [foldChar]
  split
  · exact h
  · next hc =>
    have hself : c.toLower = c := of_ascii (P := fun c => 0x80 ≤ c.toNat → c.toLower = c) c
      (by decide) (fun _ _ h _ _ => h) (Nat.le_of_not_lt hc)
    rw [← hself, h] at hc
    exact absurd hx hc

theorem map_foldChar_of_lower {t w : Text} (h : lower t = lower w)
    (hw : ∀ c ∈ lower w, c.toNat < 0x80) : t.map foldChar = w.map foldChar := by
  have hall {u : Text} (hu : lower u = lower w) : u.map foldChar = lower w := by
    rw [← hu]
    refine map_congr_left fun c hc => foldChar_of_toLower rfl (hw _ ?_)
    rw [← hu]
    exact mem_map_of_mem hc
  rw [hall h, hall rfl]

theorem mapByRuns_foldRuns (hn : 0x80 ≤ n) :
    0x80 ≤ mapByRuns foldRuns n ∨ mapByRuns foldRuns n = 's'.toNat ∨
      mapByRuns foldRuns n = 'k'.toNat := by
  rw [mapByRuns]
  split
  · next r hr =>
    have hall : ∀ r ∈ foldRuns, 0x80 ≤ r.2.2.2 ∨
        r.1 = r.2.1 ∧ (r.2.2.2 = 's'.toNat ∨ r.2.2.2 = 'k'.toNat) := by decide +kernel
    have hin := find?_some hr
    simp only [Bool.and_eq_true, decide_eq_true_eq] at hin
    rcases hall r (mem_of_find?_eq_some hr) with h | ⟨hone, h⟩
    · omega
    · omega
  · exact .inl hn

/-- Folded to an ASCII letter other than S and K, a character is that letter. -/
theorem toLower_of_foldChar (h : foldChar c = x) (hx : x.toNat < 0x80)
    (hother : x ∉ ['s', 'k', Char.ofNat 0]) : c.toLower = x := by
  rw [foldChar] at h
  split at h
  · exact h
  · next hc =>
    exfalso
    apply hother
    rcases mapByRuns_foldRuns (Nat.le_of_not_lt hc) with hle | heq | heq
    · by_cases hvalid : (mapByRuns foldRuns c.toNat).isValidChar
      · rw [← h, Char.toNat_ofNat, if_pos hvalid] at hx
        omega
      · rw [Char.ofNat, dif_neg hvalid] at h
        rw [← h]
        decide
    · rw [heq] at h
      simp [← h]
    · rw [heq] at h
      simp [← h]

theorem tells_foldChar : Tells foldChar where
  letter c h := by
    have hall : ∀ x ∈ ['w', 'h', 'e', 'r'], x.toNat < 0x80 := by decide
    rw [isLetter, contains_iff_mem] at h
    exact foldChar_of_toLower rfl (hall _ h)
  blank _ h := foldChar_of_isBlank h
  opening := rfl
  closing := rfl

/-- A word, looked at by `f`, that starts with none of the letters of the word WHERE. -/
def Starts (f : Char → Char) (word : Text) : Bool :=
  word.head?.any fun c => !(['w', 'h', 'e', 'r'].contains (f c)) && !isBlank (f c) && f c != '('

/-- Such a word starts with none of the letters of WHERE, nor a blank or parenthesis. -/
theorem Tells.first (hf : Tells f) (h : w.map f = word.map f) (hword : Starts f word) :
    ∃ c r, w = c :: r ∧ isLetter c = false ∧ isBlank c = false ∧ c ≠ '(' := by
  cases word with
  | nil => cases hword
  | cons a word =>
    obtain ⟨c, r, rfl, hc, -⟩ := map_eq_cons_iff.1 h
    rw [Starts, head?_cons, Option.any_some, ← hc] at hword
    simp only [Bool.and_eq_true, Bool.not_eq_true', bne_iff_ne] at hword
    obtain ⟨⟨hletter, hblank⟩, hparen⟩ := hword
    refine ⟨c, r, rfl, ?_, ?_, ?_⟩
    · cases hc' : isLetter c with
      | false => rfl
      | true =>
        rw [hf.letter c hc', ← isLetter, hc'] at hletter
        cases hletter
    · cases hc' : isBlank c with
      | false => rfl
      | true =>
        rw [hf.blank c hc', hc'] at hblank
        cases hblank
    · rintro rfl
      exact hparen hf.opening

/-- A class of characters that `f` shows as they are is absent from a word if it is absent from how
the word looks. -/
theorem not_of_map {p : Char → Bool} (hf : ∀ c, p c → f c = c) (h : w.map f = word.map f)
    (hword : ∀ c ∈ word, p (f c) = false) : ∀ c ∈ w, p c = false := by
  intro c hc
  cases hp : p c with
  | false => rfl
  | true =>
    have hmem : f c ∈ word.map f := by
      rw [← h]
      exact mem_map_of_mem hc
    obtain ⟨a, ha, heq⟩ := mem_map.1 hmem
    have hno := hword a ha
    simp [heq, hf c hp, hp] at hno

theorem Tells.plain (hf : Tells f) (hf' : Sees f) (h : w.map f = word.map f)
    (hword : ∀ c ∈ word, isPlain (f c)) : ∀ c ∈ w, isPlain c := by
  have hall := not_of_map (p := fun c => !isPlain c) (fun c hc => ?_) h (by simpa using hword)
  · simpa using hall
  · simp only [isPlain, Bool.not_and, Bool.not_not, Bool.or_eq_true, Bool.not_eq_true',
      bne_eq_false_iff_eq] at hc
    rcases hc with (hc | rfl) | rfl
    · exact hf'.quote c hc
    · exact hf.opening
    · exact hf.closing

/-! ### Weights -/

theorem staysOpen_of_no_close (h : ∀ c ∈ t, c ≠ ')') : StaysOpen t := by
  rintro a b rfl d
  induction a generalizing d with
  | nil => exact Nat.lt_succ_self d
  | cons c a ih =>
    have hc : c ≠ ')' := h c (by simp)
    have ha := fun d => ih (fun x hx => h x (by simp at hx; grind)) d
    rw [foldl_cons, step]
    split
    · exact Nat.lt_of_succ_lt (ha (d + 1))
    · exact ha d

theorem staysOpen_of_level? {k : Nat} (h : level? 0 t = some k) : StaysOpen t := by
  rintro a b rfl d
  exact lt_foldl_step h d

/-- A name, blanks, and something in parentheses. -/
structure Call (name gap inner : Text) : Prop where
  first : ∃ c r, name = c :: r ∧ isLetter c = false ∧ isBlank c = false ∧ c ≠ '('
  plain : ∀ c ∈ name, isBlank c = false ∧ isPlain c = true
  blanks : ∀ c ∈ gap, isBlank c = true
  stays : StaysOpen inner

/-- A word, looked at by `f`, that can be the name of a call. -/
structure Callable (f : Char → Char) (word : Text) : Prop where
  shows : Shows f word = true
  starts : Starts f word = true
  plain : ∀ c ∈ word, isBlank (f c) = false ∧ isPlain (f c) = true

theorem Tells.call (hf : Tells f) (hf' : Sees f) (h : w.map f = word.map f)
    (hword : Callable f word) (hgap : ∀ c ∈ gap, isBlank c) (hinner : StaysOpen inner) :
    Call w gap inner where
  first := hf.first h hword.starts
  plain c hc := ⟨not_of_map hf.blank h (fun x hx => (hword.plain x hx).1) c hc,
    hf.plain hf' h (fun x hx => (hword.plain x hx).2) c hc⟩
  blanks := hgap
  stays := hinner

theorem foldl_step_of_isPlain (h : ∀ c ∈ t, isPlain c) (d : Nat) : t.foldl step d = d := by
  have hmask : mask t = t := Code.mask_eq fun c hc => by
    have hplain := h c hc
    simp only [isPlain, Bool.and_eq_true, Bool.not_eq_true'] at hplain
    exact hplain.1.1
  have hdepth := (balanced_of_isPlain h).depth d
  rwa [← foldl_step_mask, hmask] at hdepth

theorem Call.foldl_step (h : Call name gap inner) (d : Nat) :
    (name ++ (gap ++ '(' :: (inner ++ [')']))).foldl step d =
      step (inner.foldl step (d + 1)) ')' := by
  rw [foldl_append, foldl_step_of_isPlain fun c hc => (h.plain c hc).2, foldl_append,
    foldl_step_of_isPlain fun c hc => isPlain_of_isBlank (h.blanks c hc), foldl_cons,
    foldl_append]
  rfl

theorem Call.le_foldl_step (h : Call name gap inner) (d : Nat) :
    d ≤ (name ++ (gap ++ '(' :: (inner ++ [')']))).foldl step d := by
  have hinner := h.stays inner [] (by simp) d
  rw [h.foldl_step, step, if_neg (by decide), if_pos rfl]
  omega

theorem Call.compact (h : Call name gap inner) :
    Compact (name ++ (gap ++ '(' :: (inner ++ [')']))) :=
  compact_call h.first (fun c hc => (h.plain c hc).1) h.blanks h.stays

/-! ### Harmless edits -/

theorem lighter_of_balanced {old : Text} (hnew : Balanced new) (hold : Closed old) {d : Nat}
    (hdepth : d ≤ (mask old).foldl step d) : Lighter none d new old where
  state := hnew.closed.trans hold.symm
  depth := by
    rw [hnew.depth, ← foldl_step_mask]
    exact hdepth

/-- An edit at a clause that was read outside literals. -/
theorem harmless_of_reads {c : Cursor} (hat : Cursor.At (mask t) c) (hread : Cursor.Reads c y d)
    (hc : Cursor.Clear (mask t) c) (hd : Cursor.Clear (mask t) d) (hcompact : Compact y)
    (hlast : ∀ z, y.getLast? = some z → isQuote z = false)
    (hlighter : Closed (t.slice (c.spanTo d)) → mask (t.slice (c.spanTo d)) = y →
      ∀ n, Lighter none n new (t.slice (c.spanTo d))) : Harmless t ⟨c.spanTo d, new⟩ := by
  have hslice := hat.slice hread
  have hmask : mask (t.slice (c.spanTo d)) = y := by
    rw [Outside.mask_slice hc.outside hd.outside, hslice]
  have hclosed : Closed (t.slice (c.spanTo d)) := by
    obtain ⟨x, r, hy, -⟩ := hcompact.first
    cases eq_nil_or_concat y with
    | inl hnil => simp [hnil] at hy
    | inr hconcat =>
      obtain ⟨w, z, hw⟩ := hconcat
      rw [concat_eq_append] at hw
      rw [hw] at hread hlast
      exact closed_slice hc.outside (hc.closed_before hread hd (hlast z (by simp)))
  exact ⟨hread.le, hc.outside, hd.outside, by rw [hslice]; exact hcompact, hlighter hclosed hmask⟩

/-- A call replaced by a balanced text. -/
theorem Call.harmless {c : Cursor} (h : Call name gap inner) (hat : Cursor.At (mask t) c)
    (hread : Cursor.Reads c (name ++ (gap ++ '(' :: (inner ++ [')']))) d)
    (hc : Cursor.Clear (mask t) c) (hnew : Balanced new) : Harmless t ⟨c.spanTo d, new⟩ := by
  have hends :
      name ++ (gap ++ '(' :: (inner ++ [')'])) = name ++ (gap ++ '(' :: inner) ++ [')'] := by
    simp
  have hd : Cursor.Clear (mask t) d := by
    rw [hends] at hread
    exact hat.clear_behind hread (by decide) (by decide)
  refine harmless_of_reads hat hread hc hd h.compact (fun z hz => ?_) fun hclosed hmask n => ?_
  · rw [hends, getLast?_concat] at hz
    cases hz
    rfl
  · exact lighter_of_balanced hnew hclosed (by rw [hmask]; exact h.le_foldl_step n)

end Keyword

end Recast
