import Recast.Proofs.WherePasses

/-!
# Calls that keep a clause

Date arithmetic and conditionals are replaced from the last call to the first, each where it was
found before any was replaced: no two calls overlap, and a replacement leaves everything in front of
it as it was (`Begins.splice`). The arguments of a call are balanced, so a WHERE that is set off is
still set off once all calls are replaced (`foldl_keeps`).
-/

namespace Recast

open Literal Nesting Cursor Keyword List Text
open Option hiding guard

variable {m t word : Text} {c : Char} {d : Cursor} {e : Edit}

/-! ### Finds in order -/

theorem Cursor.pairwise_scanFrom {step : Cursor → Option (Option α × Nat)} {f : α → Nat}
    (hf : ∀ c x stop, step c = some (some x, stop) → f x = c.offset) (resume offset : Nat)
    (last : Option Char) (t : Text) :
    (scanFrom step resume offset last t).Pairwise fun x y => f x < f y := by
  induction t generalizing resume offset last with
  | nil => exact .nil
  | cons c t ih =>
    rw [scanFrom]
    split
    · exact ih _ _ _
    · split
      · exact ih _ _ _
      · next found stop hstep =>
        refine pairwise_append.2 ⟨?_, ih _ _ _, fun x hx y hy => ?_⟩
        · cases found <;> simp
        · rw [mem_toList] at hx
          obtain ⟨u, d, v, stop', -, hstep'⟩ := mem_scanFrom hy
          have hpos := c.utf8Size_pos
          rw [hf _ x stop (by rw [← hx]; exact hstep), hf _ y stop' hstep']
          simp only
          omega

namespace Functions

/-! ### Where calls begin -/

/-- A text shows a word at an offset, in whatever case, and no name runs into it. -/
def Begins (m : Text) (n : Nat) (word : Text) : Prop :=
  ∃ p w q, m = p ++ (w ++ q) ∧ p.size = n ∧ lower w = lower word ∧ p.getLast?.any isNameChar = false

theorem begins_of_mem_calls {n : Nat} (h : n ∈ calls m word) : Begins m n word := by
  obtain ⟨hmem, hlast⟩ := mem_filter.1 h
  obtain ⟨c, d, ⟨p, hm, hoffset, -⟩, rfl, -, hplain⟩ := at_of_mem_occurrences hmem
  obtain ⟨w, hw, hlower, -⟩ := plain?_reads hplain
  refine ⟨p, w, d.rest, by rw [hm, hw.rest], hoffset.symm, hlower, ?_⟩
  rw [hm, hoffset] at hlast
  simpa using hlast

theorem pairwise_calls (m word : Text) : (calls m word).Pairwise (· < ·) := by
  refine List.Pairwise.filter _ ?_
  rw [occurrences]
  split
  · exact .nil
  · refine pairwise_scanFrom (f := fun n => n) (fun c x stop h => ?_) _ _ _ _
    obtain ⟨⟨n, d⟩, hread, heq⟩ := map_eq_some_iff.1 h
    obtain ⟨e, -, heq'⟩ := bind_eq_some_iff.1 hread
    cases heq'
    cases heq
    rfl

theorem isNameChar_of_toLower (h : isNameChar c.toLower) : isNameChar c := by
  unfold Char.toLower at h
  split at h
  · next hupper =>
    have hup : c.isUpper := by simpa [Char.isUpper] using hupper
    simp [isNameChar, Char.isAlphanum, Char.isAlpha, hup]
  · exact h

/-- No call of `word'` begins inside `word`: each letter but the last is one of a name, or one that
`word'` does not start with follows. -/
def Guarded (word word' : Text) : Bool :=
  (word.lower.zip word.lower.tail).all fun e => isNameChar e.1 || word'.lower.head? != some e.2

theorem of_guarded {word' u v : Text} {b : Char} (h : Guarded word word')
    (hword : word.lower = u ++ b :: c :: v) : isNameChar b ∨ word'.lower.head? ≠ some c := by
  have hmem : (b, c) ∈ word.lower.zip word.lower.tail := by
    rw [hword]
    clear hword
    induction u with
    | nil => simp
    | cons x u ih =>
      cases u with
      | nil => simp
      | cons y u => exact mem_cons_of_mem _ ih
  simpa using all_eq_true.1 h _ hmem

namespace Begins

variable {m word word' : Text} {n k : Nat}

/-- A call that begins behind another begins behind its parenthesis. -/
theorem le_of_lt (h : Begins m n word) (h' : Begins m k word') (hlt : n < k)
    (hguard : Guarded word word') (hne : word' ≠ []) : n + word.size ≤ k := by
  obtain ⟨p, w, q, rfl, rfl, hw, -⟩ := h
  obtain ⟨p', w', q', hm, rfl, hw', hlast⟩ := h'
  have hsize : w.size = word.size := by rw [← size_lower, hw, size_lower]
  rw [← hsize]
  rcases append_eq_append_iff.1 hm with ⟨u, rfl, hu⟩ | ⟨u, rfl, -⟩
  · rw [size_append] at hlt ⊢
    rcases append_eq_append_iff.1 hu with ⟨v, rfl, -⟩ | ⟨v, rfl, hv⟩
    · rw [size_append]
      omega
    · cases v with
      | nil => simp
      | cons c v =>
        -- the second call begins in the middle of the first
        cases eq_nil_or_concat u with
        | inl hnil => simp [hnil] at hlt
        | inr hconcat =>
          obtain ⟨u, b, rfl⟩ := hconcat
          have hhead : (lower word').head? = some c.toLower := by
            cases w' with
            | nil =>
              rw [eq_comm, lower, lower, map_nil, map_eq_nil_iff] at hw'
              exact absurd hw' hne
            | cons x w' =>
              obtain ⟨rfl, -⟩ := cons.inj hv
              rw [← hw']
              rfl
          rcases of_guarded hguard (u := lower u) (b := b.toLower) (c := c.toLower)
            (v := lower v) (by rw [← hw]; simp [lower]) with hname | hother
          · rw [concat_eq_append, ← append_assoc, getLast?_concat, any_some,
              isNameChar_of_toLower hname] at hlast
            cases hlast
          · exact absurd hhead hother
  · rw [size_append] at hlt
    omega

theorem prefix_of_eq (h : Begins m n word) (h' : Begins m n word') :
    lower word <+: lower word' ∨ lower word' <+: lower word := by
  obtain ⟨p, w, q, rfl, rfl, hw, -⟩ := h
  obtain ⟨p', w', q', hm, hsize, hw', -⟩ := h'
  obtain ⟨rfl, htail⟩ := append_inj_of_size hm hsize.symm
  rw [← hw, ← hw']
  rcases append_eq_append_iff.1 htail with ⟨u, rfl, -⟩ | ⟨u, rfl, -⟩
  · exact .inl ⟨lower u, by simp [lower]⟩
  · exact .inr ⟨lower u, by simp [lower]⟩

/-- A replacement leaves the calls in front of it. -/
theorem splice {new : Text} {s : Span} (h : Begins (mask t) n word)
    (hstart : Outside (mask t) s.start) (hclosed : Closed (t.before s.start))
    (hle : n + word.size ≤ s.start) (hc : isQuote c = false) :
    Begins (mask (t.splice s (c :: new))) n word := by
  obtain ⟨p, w, q, hm, rfl, hw, hlast⟩ := h
  have hsize : w.size = word.size := by rw [← size_lower, hw, size_lower]
  obtain ⟨k, hk⟩ := Nat.exists_eq_add_of_le hle
  refine ⟨p, w, q.before k ++ mask (c :: (new ++ t.after s.stop)), ?_, rfl, hw, hlast⟩
  rw [splice, append_assoc, cons_append, mask_append_cons hclosed hc,
    hstart.mask_before, mask_cons hc, hm, hk, ← hsize, Nat.add_assoc, before_append_add,
    before_append_add]
  simp

end Begins

/-! ### Replacing calls one after another -/

/-- `r` is `t` with the call at `n` replaced harmlessly. -/
def Settles (t : Text) (n : Nat) (r : Text) : Prop :=
  ∃ stop c new, r = t.splice ⟨n, stop⟩ (c :: new) ∧ isQuote c = false ∧
    Harmless t ⟨⟨n, stop⟩, c :: new⟩

variable {word : β → Text}

/-- Calls that do not overlap may be replaced one after another. -/
theorem foldl_keeps {f : Text → Nat × β → Option Text}
    (hstep : ∀ t a r, Begins (mask t) a.1 (word a.2) → f t a = some r → Settles t a.1 r)
    {l : List (Nat × β)} (hl : l.Pairwise fun a b => b.1 + (word b.2).size ≤ a.1) (h : HasWhere t)
    (hbegins : ∀ a ∈ l, Begins (mask t) a.1 (word a.2)) :
    HasWhere (l.foldl (fun t a => (f t a).getD t) t) := by
  induction l generalizing t with
  | nil => exact h
  | cons a l ih =>
    obtain ⟨hle, hl⟩ := pairwise_cons.1 hl
    rw [foldl_cons]
    cases hf : f t a with
    | none => exact ih hl h (forall_mem_cons.1 hbegins).2
    | some r =>
      obtain ⟨stop, c, new, rfl, hc, hharm⟩ := hstep t a r (hbegins a (by simp)) hf
      refine ih hl (h.splice hharm) fun b hb => ?_
      exact (hbegins b (by simp [hb])).splice hharm.start hharm.closed_before (hle b hb) hc

def allCalls (word : β → Text) (m : Text) (words : List β) : List (Nat × β) :=
  words.flatMap fun b => (calls m (word b)).map fun n => (n, b)

theorem begins_of_mem_allCalls {words : List β} {a : Nat × β} (h : a ∈ allCalls word m words) :
    Begins m a.1 (word a.2) ∧ a.2 ∈ words := by
  obtain ⟨b, hb, hmem⟩ := mem_flatMap.1 h
  obtain ⟨n, hn, rfl⟩ := mem_map.1 hmem
  exact ⟨begins_of_mem_calls hn, hb⟩

/-- Words that can be told apart where they begin, and do not begin inside one another. -/
structure Distinct (word : β → Text) (words : List β) : Prop where
  guarded : ∀ b ∈ words, ∀ b' ∈ words, Guarded (word b) (word b') = true
  nonempty : ∀ b ∈ words, word b ≠ []
  clash : words.Pairwise fun b b' =>
    ¬ (word b).lower <+: (word b').lower ∧ ¬ (word b').lower <+: (word b).lower

/-- From the last to the first, each call ends before the one that comes before it in the list. -/
theorem pairwise_allCalls {words : List β} (h : Distinct word words) :
    (sortedBy (fun a b => decide (b.1 ≤ a.1)) (allCalls word m words)).Pairwise
      fun a b => b.1 + (word b.2).size ≤ a.1 := by
  have hne : (allCalls word m words).Pairwise fun a b => a.1 ≠ b.1 := by
    refine pairwise_flatMap.2 ⟨fun b _ => ?_, ?_⟩
    · exact pairwise_map.2 ((pairwise_calls m (word b)).imp fun hlt => Nat.ne_of_lt hlt)
    · refine h.clash.imp fun {b b'} hclash x hx y hy heq => ?_
      obtain ⟨n, hn, rfl⟩ := mem_map.1 hx
      obtain ⟨k, hk, rfl⟩ := mem_map.1 hy
      subst heq
      rcases (begins_of_mem_calls hn).prefix_of_eq (begins_of_mem_calls hk) with hpre | hpre
      · exact hclash.1 hpre
      · exact hclash.2 hpre
  have hsorted := sortedBy_pairwise Prod.fst (allCalls word m words)
  have hne' := (List.Perm.pairwise_iff (R := fun a b : Nat × β => a.1 ≠ b.1) (fun h => h.symm)
    (sortedBy_perm (fun a b => decide (b.1 ≤ a.1)) (allCalls word m words))).2 hne
  refine (hsorted.and hne').imp_of_mem fun {a b} ha hb hab => ?_
  obtain ⟨hbegins, hmem⟩ := begins_of_mem_allCalls (mem_sortedBy.1 ha)
  obtain ⟨hbegins', hmem'⟩ := begins_of_mem_allCalls (mem_sortedBy.1 hb)
  exact hbegins'.le_of_lt hbegins (by omega) (h.guarded _ hmem' _ hmem) (h.nonempty _ hmem)

/-! ### A call and its arguments -/

/-- A name and the blanks that may stand between it and its parenthesis. -/
structure Opener (name gap : Text) : Prop where
  name : Callable Char.toLower name
  blanks : ∀ c ∈ gap, isBlank c = true

theorem Opener.exists_of_begins {name gap m : Text} {n : Nat}
    (h : Begins m n (name ++ (gap ++ ['(']))) : ∃ p name' gap' q,
      m = p ++ (name' ++ (gap' ++ '(' :: q)) ∧ n = p.size ∧ lower name' = lower name ∧
      lower gap' = lower gap := by
  obtain ⟨p, w, q, rfl, rfl, hw, -⟩ := h
  rw [← append_assoc] at hw
  obtain ⟨v, rfl, hv⟩ := exists_of_lower_paren hw
  rw [lower, lower, map_append] at hv
  obtain ⟨name', gap', rfl, hname, hgap⟩ := map_eq_append_iff.1 hv
  exact ⟨p, name', gap', q, by simp, rfl, hname, hgap⟩

theorem Opener.call {name gap name' gap' inner : Text} (h : Opener name gap)
    (hname : lower name' = lower name) (hgap : lower gap' = lower gap)
    (hinner : StaysOpen inner) : Call name' gap' inner := by
  refine tells_toLower.call sees_toLower hname h.name (fun c hc => ?_) hinner
  have hmem : c.toLower ∈ lower gap := hgap ▸ mem_map_of_mem hc
  obtain ⟨b, hb, heq⟩ := mem_map.1 hmem
  have hblank := h.blanks b hb
  rw [toLower_of_isBlank hblank] at heq
  have hlower : b.isLower = false := by
    have hname := isNameChar_of_isBlank hblank
    simp only [isNameChar, Char.isAlphanum, Char.isAlpha, Bool.or_eq_false_iff] at hname
    exact hname.1.1.2
  rw [eq_of_toLower heq.symm hlower]
  exact hblank

/-- A call may be replaced by anything balanced. -/
theorem Opener.harmless {name gap t p name' gap' q new : Text} {close : Nat} (h : Opener name gap)
    (hm : mask t = p ++ (name' ++ (gap' ++ '(' :: q))) (hname : lower name' = lower name)
    (hgap : lower gap' = lower gap)
    (hclose : closing? (mask t) (size (p ++ (name' ++ gap'))) = some close)
    (hnew : Balanced new) : Harmless t ⟨⟨p.size, close + 1⟩, new⟩ := by
  obtain ⟨a, v, r, hm', hsize, rfl, hv⟩ := exists_of_closing? hclose
  have hcut : p ++ (name' ++ gap') ++ '(' :: q = a ++ '(' :: (v ++ ')' :: r) := by
    rw [← hm', hm]
    simp
  obtain ⟨rfl, htail⟩ := append_inj_of_size hcut hsize
  obtain rfl : q = v ++ ')' :: r := (cons.inj htail).2
  have hread (w r : Text) : Reads ⟨p.size, p.getLast?, w ++ r⟩ w
      ⟨p.size + w.size, w.getLast?.or p.getLast?, r⟩ := ⟨rfl, rfl, rfl⟩
  have hat : At (mask t) ⟨p.size, p.getLast?, name' ++ (gap' ++ '(' :: (v ++ ')' :: r))⟩ :=
    ⟨p, hm, rfl, rfl⟩
  have hclear := (hat.clear_of_word (hread name' _) sees_toLower hname h.name.shows).1
  have hcut' :
      name' ++ (gap' ++ '(' :: (v ++ ')' :: r)) = name' ++ (gap' ++ '(' :: (v ++ [')'])) ++ r := by
        simp
  rw [hcut'] at hat hclear
  have hharm := (h.call hname hgap (staysOpen_of_level? hv)).harmless hat (hread _ r) hclear hnew
  have hstop : size (p ++ (name' ++ gap')) + 1 + v.size + 1
      = p.size + size (name' ++ (gap' ++ '(' :: (v ++ [')']))) := by
    simp only [size_append, size_cons, Nat.add_assoc]
    rfl
  rw [hstop]
  exact hharm

/-- The arguments of a call are balanced. -/
theorem balanced_of_arguments? {opening close : Nat} {args : List Text}
    (h : arguments? t (mask t) opening = some (args, close)) :
    closing? (mask t) opening = some close ∧ ∀ u ∈ args, Balanced u := by
  obtain ⟨_, hclose, h⟩ := bind_eq_some_iff.1 h
  cases h
  refine ⟨hclose, fun u hu => ?_⟩
  obtain ⟨hopen, hfree, -⟩ := free_of_closing? hclose
  obtain ⟨a, v, r, hm, rfl, rfl, hv⟩ := exists_of_closing? hclose
  have hslice : (mask t).slice ⟨a.size + 1, a.size + 1 + v.size⟩ = v := by
    rw [hm, show a ++ '(' :: (v ++ ')' :: r) = a ++ ['('] ++ v ++ ')' :: r by simp]
    exact slice_append (a ++ ['(']) v (')' :: r) (by rw [size_append]; rfl)
      (by rw [size_append]; rfl)
  refine balanced_of_mem_parts (closed_slice hopen hfree.closed_before) ?_ hu
  rw [hopen.mask_slice hfree.outside, hslice, hv]

/-! ### Date arithmetic -/

theorem isPlain_toUpper (h : isPlain c) : isPlain c.toUpper :=
  of_ascii (P := fun c => isPlain c → isPlain c.toUpper) c (by decide)
    (fun _ _ _ hc h => by rwa [hc]) h

/-- An interval has nothing but digits, a sign and letters. -/
theorem interval?_plain {i : Interval} (h : interval? t = some i) :
    (∀ c ∈ i.amount, isPlain c) ∧ ∀ c ∈ i.unit, isPlain c := by
  obtain ⟨c₁, h₁, c₂, h₂, d, hd, h⟩ := of_bind₃ h
  obtain ⟨quote, hquote, -⟩ := through_skipSign (P := fun x => x = '\'') c₂ rfl
  have hat := ((((at_start t).word? h₁).some? h₂).reads hquote).skipWhile isBlank
  obtain ⟨minus, hminus, hsign⟩ :=
    through_skipSign (P := fun x => x = '-') (c₂.skipSign '\'').blanks rfl
  obtain ⟨gap', hgap', hblank, -⟩ :=
    skipWhile_reads ((c₂.skipSign '\'').blanks.skipSign '-') isBlank
  obtain ⟨digits, hdigits, -, hdigit, -⟩ := some?_reads hd
  have hamount := (hminus.trans hgap').trans hdigits
  have hd' : At t d := hat.reads hamount
  have hnumber :
      ∀ c ∈ (t.slice ((c₂.skipSign '\'').blanks.spanTo d)).filter (!isBlank ·), isPlain c := by
    intro c hc
    have hmem := (mem_filter.1 hc).1
    rw [show t.slice ((c₂.skipSign '\'').blanks.spanTo d) = _ from hat.slice hamount] at hmem
    rcases mem_append.1 hmem with hmem | hmem
    · rcases mem_append.1 hmem with hmem | hmem
      · rw [hsign c hmem]
        rfl
      · exact isPlain_of_isBlank (hblank c hmem)
    · exact isPlain_of_class (hdigit c hmem) (by decide)
  have hletters {u v : Cursor} (hu : At t u) (hv : u.some? isFoldedLetter = some v) :
      ∀ c ∈ t.slice (u.spanTo v), isPlain c := by
    obtain ⟨w, hw, -, hall, -⟩ := some?_reads hv
    rw [hu.slice hw]
    exact fun c hc => isPlain_of_class (hall c hc) (by decide)
  simp only at h
  split at h
  · next f hf =>
    obtain ⟨unit, hunit, stop, hstop, _, -, h⟩ := of_bind₃ h
    cases h
    exact ⟨hnumber, hletters (((hd'.skipWhile isBlank).sign? hf).some? hunit) hstop⟩
  · obtain ⟨unit, hunit, stop, hstop, _, -, h⟩ := of_bind₃ h
    cases h
    exact ⟨hnumber, hletters (hd'.some? hunit) hstop⟩

theorem Interval.signed_plain {i : Interval} (h : ∀ c ∈ i.amount, isPlain c)
    (direction : Direction) : ∀ c ∈ i.signed direction, isPlain c := by
  cases direction with
  | add => exact h
  | subtract =>
    intro c hc
    rw [Interval.signed] at hc
    split at hc
    · next r hr => exact h c (by rw [hr]; exact mem_cons_of_mem _ hc)
    · rcases mem_cons.1 hc with rfl | hc
      · rfl
      · exact h c hc

theorem opener_of_direction (direction : Direction) :
    ∃ name, direction.call = name ++ ([] ++ ['(']) ∧ name.size = 8 ∧ Opener name [] := by
  cases direction with
  | add => exact ⟨"DATE_ADD", rfl, rfl, ⟨by decide, by decide, by decide⟩, by simp⟩
  | subtract => exact ⟨"DATE_SUB", rfl, rfl, ⟨by decide, by decide, by decide⟩, by simp⟩

/-- Date arithmetic is replaced harmlessly. -/
theorem dateCall?_settles {t r : Text} {direction : Direction} {n : Nat}
    (hbegins : Begins (mask t) n direction.call) (h : dateCall? t direction n = some r) :
    Settles t n r := by
  obtain ⟨⟨args, close⟩, hargs, h⟩ := bind_eq_some_iff.1 h
  obtain ⟨hclose, hbalanced⟩ := balanced_of_arguments? hargs
  simp only at h
  split at h
  · next date interval =>
    obtain ⟨i, hi, h⟩ := bind_eq_some_iff.1 h
    cases h
    obtain ⟨hamount, hunit⟩ := interval?_plain hi
    obtain ⟨name, hcall, hsize, hopener⟩ := opener_of_direction direction
    rw [hcall] at hbegins
    obtain ⟨p, name', gap', q, hm, rfl, hname, hgap⟩ := Opener.exists_of_begins hbegins
    obtain rfl : gap' = [] := map_eq_nil_iff.1 hgap
    have hopening : p.size + 8 = size (p ++ (name' ++ [])) := by
      rw [append_nil, size_append, ← size_lower name', hname, size_lower, hsize]
    rw [hopening] at hclose
    have hword {word : Text} (hword : ∀ c ∈ word, isPlain c) : Balanced word :=
      balanced_of_isPlain hword
    have hinner : Balanced (i.unit.upper ++ ", " ++ i.signed direction ++ ", " ++ date.trim) := by
      refine ((((hword fun c hc => ?_).append (hword (by decide))).append
        (hword (i.signed_plain hamount direction))).append (hword (by decide))).append
        (hbalanced date (by simp)).trim
      obtain ⟨x, hx, rfl⟩ := mem_map.1 hc
      exact isPlain_toUpper (hunit x hx)
    have hnew : Balanced ("DATEADD" ++ '(' :: (_ ++ [')'])) :=
      (hword (by decide)).append hinner.enclosed
    refine ⟨close + 1, 'D', _, ?_, by decide, hopener.harmless hm hname hgap hclose hnew⟩
    show _ = t.splice _ (("DATEADD" : Text) ++ '(' :: (_ ++ [')']))
    simp
  · cases h

theorem distinct_directions : Distinct Direction.call [.add, .subtract] where
  guarded := by decide
  nonempty := by decide
  clash := by decide

theorem dateArithmetic_keeps (h : HasWhere t) : HasWhere (dateArithmetic t) :=
  foldl_keeps (fun _ _ _ hbegins hcall => dateCall?_settles hbegins hcall)
    (pairwise_allCalls distinct_directions) h
    fun _ ha => (begins_of_mem_allCalls (mem_sortedBy.1 ha)).1

/-! ### Conditionals -/

/-- How a conditional starts, with a blank before its parenthesis or without. -/
def ifCall (spaced : Bool) : Text := if spaced then "IF (" else "IF("

theorem distinct_ifCall : Distinct ifCall [false, true] where
  guarded := by decide
  nonempty := by decide
  clash := by decide

theorem opener_of_ifCall (spaced : Bool) :
    ∃ gap, ifCall spaced = "IF" ++ (gap ++ ['(']) ∧ (∀ c ∈ gap, c.toLower ≠ '(') ∧
      Opener "IF" gap := by
  cases spaced with
  | false => exact ⟨[], rfl, by simp, ⟨by decide, by decide, by decide⟩, by simp⟩
  | true => exact ⟨[' '], rfl, by simp, ⟨by decide, by decide, by decide⟩, by simp; rfl⟩

/-- The first parenthesis behind a place. -/
theorem findWord?_opening {m p u q : Text} (hm : m = p ++ (u ++ '(' :: q)) (hu : ∀ c ∈ u, c ≠ '(') :
    findWord? m "(" p.size = some (size (p ++ u)) := by
  have hboundary : m.isBoundary p.size := isBoundary_iff.2 ⟨p, _, hm, rfl⟩
  rw [findWord?, hboundary, hm, ofOffset, before_size_append, after_size_append]
  have hparen : lower ['('] = lower "(" := rfl
  obtain ⟨d, hd, -⟩ :=
    exists_plain? (c := ⟨p.size + size u, u.getLast?.or p.getLast?, '(' :: q⟩) rfl hparen
  have hfirst : ∃ x, ((mk p.size p.getLast? (u ++ '(' :: q)).findAll fun c => do
      return (c.offset, ← c.plain? "(")).head? = some x ∧ x = size (p ++ u) := by
    refine exists_head?_scanFrom (x := p.size + size u) (k := d.offset) (by simp)
      (by simp only [hd]; rfl) (size_append p u).symm (Nat.le_add_right _ _)
      fun v c w found stop hv hstep => ?_
    -- a parenthesis that is read before is one of `u`
    obtain ⟨⟨x, e⟩, hread, -⟩ := map_eq_some_iff.1 hstep
    obtain ⟨f, hplain, -⟩ := bind_eq_some_iff.1 hread
    obtain ⟨y, hy, hlower, -⟩ := plain?_reads hplain
    obtain ⟨z, y, rfl, hz, -⟩ := map_eq_cons_iff.1 hlower
    obtain ⟨rfl, -⟩ := cons.inj hy.rest
    exact absurd (eq_of_toLower hz rfl) (hu c (by simp [hv]))
  obtain ⟨x, hx, rfl⟩ := hfirst
  exact hx

/-- A conditional is replaced harmlessly. -/
theorem caseCall?_settles {t r : Text} {spaced : Bool} {n : Nat}
    (hbegins : Begins (mask t) n (ifCall spaced)) (h : caseCall? t n = some r) : Settles t n r := by
  obtain ⟨opening, hopening, ⟨args, close⟩, hargs, h⟩ := of_bind₂ h
  obtain ⟨hclose, hbalanced⟩ := balanced_of_arguments? hargs
  obtain ⟨gap, hcall, hgap, hopener⟩ := opener_of_ifCall spaced
  rw [hcall] at hbegins
  obtain ⟨p, name', gap', q, hm, rfl, hname, hgap'⟩ := Opener.exists_of_begins hbegins
  simp only at h
  split at h
  · next condition yes no =>
    obtain ⟨_, -, h⟩ := bind_eq_some_iff.1 h
    cases h
    have hno : ∀ c ∈ name' ++ gap', c ≠ '(' := by
      have hall : ∀ x ∈ lower (name' ++ gap'), x ≠ '(' := by
        rw [lower, map_append, show name'.map Char.toLower = _ from hname,
          show gap'.map Char.toLower = _ from hgap']
        exact forall_mem_append.2 ⟨by decide, by simpa [lower] using hgap⟩
      rintro _ hc rfl
      exact hall _ (mem_map_of_mem hc) rfl
    have hcut : mask t = p ++ ((name' ++ gap') ++ '(' :: q) := by
      rw [hm]
      simp
    rw [findWord?_opening hcut hno] at hopening
    cases hopening
    have hword {word : Text} (hword : ∀ c ∈ word, isPlain c) : Balanced word :=
      balanced_of_isPlain hword
    have hinner :
        Balanced ("CASE WHEN " ++ condition.trim ++ " THEN " ++ yes.trim ++ " ELSE " ++ no.trim ++
          " END") :=
      ((((((hword (by decide)).append (hbalanced condition (by simp)).trim).append
        (hword (by decide))).append (hbalanced yes (by simp)).trim).append
          (hword (by decide))).append
        (hbalanced no (by simp)).trim).append (hword (by decide))
    refine ⟨close + 1, '(', _, ?_, by decide,
      hopener.harmless hm hname hgap' hclose hinner.enclosed⟩
    simp
  · cases h

theorem conditionals_eq_foldl (t : Text) :
    conditionals t =
      (sortedBy (fun a b => decide (b.1 ≤ a.1)) (allCalls ifCall (mask t) [false, true])).foldl
      (fun t a => (caseCall? t a.1).getD t) t := by
  have hfound :
      descending (calls (mask t) "IF(" ++ calls (mask t) "IF (") =
        (sortedBy (fun a b => decide (b.1 ≤ a.1))
          (allCalls ifCall (mask t) [false, true])).map (·.1) := by
    have hall :
        calls (mask t) "IF(" ++ calls (mask t) "IF (" = (allCalls ifCall (mask t) [false, true]).map
          (·.1) := by
      simp [allCalls, ifCall, Function.comp_def]
    rw [hall]
    exact (map_sortedBy (fun _ _ => rfl) _).symm
  rw [conditionals]
  simp only [hfound, foldl_map]

theorem conditionals_keeps (h : HasWhere t) : HasWhere (conditionals t) := by
  rw [conditionals_eq_foldl]
  exact foldl_keeps (f :=
    fun t a => caseCall? t a.1) (fun _ _ _ hbegins hcall => caseCall?_settles hbegins hcall)
    (pairwise_allCalls distinct_ifCall) h fun _ ha => (begins_of_mem_allCalls (mem_sortedBy.1 ha)).1

/-! ### The current time -/

/-- Past something in parentheses. -/
theorem enclosed?_reads {c : Cursor} {arg : Span} (h : enclosed? c = some (arg, d)) :
    ∃ gap inner, Reads c (gap ++ '(' :: (inner ++ [')'])) d ∧ (∀ x ∈ gap, isBlank x) ∧
      (∀ x ∈ inner, x ≠ ')') ∧
      arg = ⟨c.offset + gap.size + 1, c.offset + gap.size + 1 + size inner⟩ := by
  obtain ⟨e, he, f, hf, h⟩ := of_bind₂ h
  cases h
  obtain ⟨gap, hgap, hblank, -⟩ := skipWhile_reads c isBlank
  obtain ⟨inner, hinner, hall, -⟩ := skipWhile_reads e (· != ')')
  have hopen := hgap.trans (sign?_reads he)
  have hread := (hopen.trans hinner).trans (sign?_reads hf)
  have hoffset : e.offset = c.offset + gap.size + 1 := by
    rw [hopen.offset, size_append]
    rfl
  refine ⟨gap, inner, by simpa using hread, hblank, fun x hx => by simpa using hall x hx, ?_⟩
  rw [spanTo, hinner.offset, hoffset]

theorem balanced_now : Balanced now := by
  have hname : Balanced ("getdate" : Text) := balanced_of_isPlain (by decide)
  exact hname.append balanced_nil.enclosed

/-- A call whose arguments reach up to the first closing parenthesis. -/
theorem call_of_enclosed? {t word : Text} {c d e : Cursor} {arg : Span} (hc : At (mask t) c)
    (hword : Callable foldChar word) (h : c.word? word = some d)
    (henclosed : enclosed? d = some (arg, e)) :
    ∃ name gap inner, Reads c (name ++ (gap ++ '(' :: (inner ++ [')']))) e ∧ Call name gap inner ∧
      Clear (mask t) c ∧ arg = ⟨c.offset + name.size + gap.size + 1,
        c.offset + name.size + gap.size + 1 + size inner⟩ := by
  obtain ⟨name, hname, hfold⟩ := word?_reads h
  obtain ⟨gap, inner, hread, hblank, hclose, rfl⟩ := enclosed?_reads henclosed
  refine ⟨name, gap, inner, hname.trans hread, ?_, (hc.clear_of_word? h hword.shows).1, ?_⟩
  · exact tells_foldChar.call sees_foldChar hfold hword hblank (staysOpen_of_no_close hclose)
  · rw [hname.offset]

theorem unixTime?_harmless {c : Cursor} (hc : At (mask t) c) (h : unixTime? c = some (e, d)) :
    Harmless t e := by
  obtain ⟨_, -, f, hf, ⟨arg, g⟩, hg, h⟩ := of_bind₃ h
  cases h
  obtain ⟨word, hword, hread⟩ := exists_of_findSome?_eq_some hf
  have hcallable : Callable foldChar word := by
    simp only [mem_cons, not_mem_nil, or_false] at hword
    rcases hword with rfl | rfl
    · exact ⟨by decide, by decide, by decide⟩
    · exact ⟨by decide, by decide, by decide⟩
  obtain ⟨name, gap, inner, hread, hcall, hclear, -⟩ := call_of_enclosed? hc hcallable hread hg
  exact hcall.harmless hc hread hclear balanced_now

theorem nowCall?_harmless {c : Cursor} (hc : At (mask t) c) (h : nowCall? c = some (e, d)) :
    Harmless t e := by
  obtain ⟨_, -, f, hf, g, hg, k, hk, h⟩ := of_bind₄ h
  cases h
  obtain ⟨name, hname, hfold⟩ := word?_reads hf
  obtain ⟨gap, hgap, hblank, -⟩ := skipWhile_reads f isBlank
  obtain ⟨gap', hgap', hblank', -⟩ := skipWhile_reads g isBlank
  have hread := ((hname.trans hgap).trans (sign?_reads hg)).trans (hgap'.trans (sign?_reads hk))
  have hcallable : Callable foldChar "NOW" := ⟨by decide, by decide, by decide⟩
  have hcall : Call name gap gap' := tells_foldChar.call sees_foldChar hfold hcallable hblank
    (staysOpen_of_no_close fun x hx => ne_of_isBlank (hblank' x hx) (by decide))
  exact hcall.harmless hc (by simpa using hread) (hc.clear_of_word? hf hcallable.shows).1
    balanced_now

/-- A call of DAYOFMONTH is replaced harmlessly. -/
theorem dayOfMonth?_harmless {c : Cursor} (hc : At (mask t) c) (h : dayOfMonth? t c = some (e, d)) :
    Harmless t e := by
  obtain ⟨_, -, f, hf, ⟨arg, g⟩, hg, h⟩ := of_bind₃ h
  cases h
  have hcallable : Callable foldChar "dayofmonth" := ⟨by decide, by decide, by decide⟩
  obtain ⟨hstart, hstop, -⟩ := free_of_enclosed? (hc.word? hf) hg
  obtain ⟨name, gap, inner, hread, hcall, hclear, harg⟩ := call_of_enclosed? hc hcallable hf hg
  have hends :
      name ++ (gap ++ '(' :: (inner ++ [')'])) = name ++ (gap ++ '(' :: inner) ++ [')'] := by
    simp
  have hclear' : Clear (mask t) d := by
    rw [hends] at hread
    exact hc.clear_behind hread (by decide) (by decide)
  have hclosed : Closed (t.slice arg) := closed_slice hstart hstop.closed_before
  have hinner : mask (t.slice arg) = inner := by
    obtain ⟨a, hm, hoffset, -⟩ := hc
    rw [hstart.mask_slice hstop.outside, hm, hread.rest, harg,
      show a ++ (name ++ (gap ++ '(' :: (inner ++ [')'])) ++ d.rest)
        = (a ++ name ++ gap ++ ['(']) ++ inner ++ ')' :: d.rest by simp]
    have hsize : c.offset + name.size + gap.size + 1 = size (a ++ name ++ gap ++ ['(']) := by
      rw [size_append, size_append, size_append, hoffset]
      rfl
    exact slice_append _ inner _ hsize (by rw [hsize])
  refine harmless_of_reads hc hread hclear hclear' hcall.compact (fun z hz => ?_) fun hold hmask
    n => ⟨?_, ?_⟩
  · rw [hends, getLast?_concat] at hz
    cases hz
    rfl
  · have hlead : Closed ("DATEPART(DD, " : Text) := Code.closed (by decide)
    exact ((hlead.append (Nesting.Closed.trim hclosed)).append
      (Code.closed (t := ")") (by decide))).trans hold.symm
  · have hlead : Closed ("DATEPART(DD, " : Text) := Code.closed (by decide)
    rw [← foldl_step_mask n (t.slice _), hmask, hcall.foldl_step, ← hinner, foldl_step_mask,
      ← codeDepth_trim hclosed, Nesting.Closed.codeDepth_append
        (hlead.append (Nesting.Closed.trim hclosed))]
    exact Nat.le_refl _

/-- The WHERE stays when the current time is put in. -/
theorem currentTime_keeps (h : HasWhere t) : HasWhere (currentTime t) := by
  have hnow : HasWhere (Edit.replaceClauses (Edit.replaceClauses t unixTime?) nowCall?) :=
    (h.replaceClauses fun c d e => unixTime?_harmless).replaceClauses fun c d e => nowCall?_harmless
  have hdated := hnow.replaceClauses fun c d e => dayOfMonth?_harmless
  rw [currentTime]
  split
  · exact hdated
  · split
    · next s hs =>
      obtain ⟨p, w, q, hm, rfl, hlower, -⟩ := exists_of_findTop? hs
      have hfree := (free_of_findTop? (by decide) hs).1
      exact hdated.insertAt hm (tells_toLower.compact hlower (by decide) (by decide))
        (Nat.le_refl _)
        (Nat.le_add_right _ _) hfree.outside hfree.closed_before (balanced_of_isPlain (by decide))
    · exact hdated

end Functions

end Recast
