import Recast.Proofs.Phrases

/-!
# Where PRIMARY KEY stands

The words PRIMARY KEY make a column the primary key, wherever a reader of the definition finds them
(`Mentions`, `isSome_findPhrase?_iff`). The type of an enumeration is replaced before the words are
looked for. A replacement never brings them about (`mentions_of_replaced`), and words outside
parentheses are not lost (`declares_replaced`). `replaceEnums_keeps` carries this through all
replacements, when no enumeration stands inside another.
-/

namespace Recast

open Literal Nesting Cursor Keyword List Text
open Option hiding guard

namespace Definition

/-! ### The words -/

/-- The words PRIMARY KEY in whatever case, with ASCII blanks between them. -/
def IsPhrase (w : Text) : Prop :=
  ∃ first gap second, w = first ++ (gap ++ second) ∧ lower first = lower "PRIMARY" ∧
    lower second = lower "KEY" ∧ gap ≠ [] ∧ ∀ c ∈ gap, isAsciiBlank c = true

/-- The words between `front` and `rest`, with no name character on either side. -/
structure Words (front w rest : Text) : Prop where
  phrase : IsPhrase w
  before : front.getLast?.any isNameChar = false
  behind : rest.head?.any isNameChar = false

/-- Somewhere in the text the words stand, be it inside a literal. -/
def Mentions (t : Text) : Prop := ∃ front w rest, t = front ++ (w ++ rest) ∧ Words front w rest

/-- What the words are made of behind their first letter. -/
def tailLetters : Text := " \t\n\x0c\rrimayke"

theorem mem_tailLetters_of_isAsciiBlank {c : Char} (h : isAsciiBlank c) :
    c.toLower ∈ tailLetters := by
  simp only [isAsciiBlank, Bool.or_eq_true, beq_iff_eq] at h
  rcases h with (((rfl | rfl) | rfl) | rfl) | rfl <;> decide

theorem mem_of_lower {w word letters : Text} (h : lower w = lower word)
    (hword : ∀ c ∈ lower word, c ∈ letters) : ∀ c ∈ w, c.toLower ∈ letters :=
  fun c hc => hword c.toLower (h ▸ mem_map_of_mem hc)

theorem exists_cons_of_first {w : Text} (h : lower w = lower "PRIMARY") :
    ∃ c v, w = c :: v ∧ c.toLower = 'p' ∧ ∀ x ∈ v, x.toLower ∈ tailLetters := by
  obtain ⟨c, v, rfl, hc, hv⟩ := map_eq_cons_iff.1 h
  refine ⟨c, v, rfl, hc, fun x hx => ?_⟩
  have hmem : x.toLower ∈ lower v := mem_map_of_mem hx
  rw [lower, hv] at hmem
  revert hmem
  generalize x.toLower = y
  revert y
  decide

namespace IsPhrase

variable {w : Text}

theorem exists_cons (h : IsPhrase w) :
    ∃ c v, w = c :: v ∧ c.toLower = 'p' ∧ ∀ x ∈ v, x.toLower ∈ tailLetters := by
  obtain ⟨first, gap, second, rfl, hfirst, hsecond, -, hgap⟩ := h
  obtain ⟨c, v, rfl, hc, hv⟩ := exists_cons_of_first hfirst
  refine ⟨c, v ++ (gap ++ second), rfl, hc, fun x hx => ?_⟩
  rcases mem_append.1 hx with hx | hx
  · exact hv x hx
  · rcases mem_append.1 hx with hx | hx
    · exact mem_tailLetters_of_isAsciiBlank (hgap x hx)
    · exact mem_of_lower hsecond (by decide) x hx

theorem ne_nil (h : IsPhrase w) : w ≠ [] := by
  obtain ⟨c, v, rfl, -⟩ := h.exists_cons
  simp

theorem mem_letters (h : IsPhrase w) : ∀ c ∈ w, c.toLower ∈ 'p' :: tailLetters := by
  obtain ⟨c, v, rfl, hc, hv⟩ := h.exists_cons
  intro x hx
  rcases mem_cons.1 hx with rfl | hx
  · simp [hc]
  · exact mem_cons_of_mem _ (hv x hx)

theorem no_quote (h : IsPhrase w) : Code w := by
  intro c hc
  cases hq : isQuote c with
  | false => rfl
  | true =>
    have hmem := h.mem_letters c hc
    rw [sees_toLower.quote c hq] at hmem
    have hall : Code ('p' :: tailLetters) := by decide
    simp [hall c hmem] at hq

theorem toLower_getLast (h : IsPhrase w) {u : Text} {c : Char} (hw : w = u ++ [c]) :
    c.toLower = 'y' := by
  obtain ⟨first, gap, second, rfl, -, hsecond, -⟩ := h
  obtain ⟨k, s, rfl, -, hs⟩ := map_eq_cons_iff.1 hsecond
  obtain ⟨e, s, rfl, -, hs⟩ := map_eq_cons_iff.1 hs
  obtain ⟨y, s, rfl, hy, hs⟩ := map_eq_cons_iff.1 hs
  obtain rfl : s = [] := map_eq_nil_iff.1 hs
  have hlast := congrArg getLast? hw
  simp only [getLast?_append, getLast?_cons_cons, getLast?_singleton, some_or, some.injEq] at hlast
  rw [← hlast]
  exact hy

theorem mask_append (h : IsPhrase w) {front : Text} (hfront : Closed front) (rest : Text) :
    mask (front ++ (w ++ rest)) = mask front ++ (w ++ mask rest) :=
  mask_append_code hfront h.ne_nil h.no_quote rest

end IsPhrase

/-! ### Searching for the words -/

theorem words_iff_stands {front w rest : Text} :
    Words front w rest ↔ Stands "PRIMARY" ["KEY"] front w rest := by
  constructor
  · rintro ⟨⟨first, gap, second, rfl, hfirst, hsecond, hne, hgap⟩, hbefore, hbehind⟩
    refine ⟨⟨first, gap ++ second, rfl, hfirst, gap, second, [], ?_, hne, hgap, hsecond, rfl⟩,
      hbefore, hbehind⟩
    rw [append_nil]
  · rintro ⟨⟨first, _, rfl, hfirst, gap, second, _, rfl, hne, hgap, hsecond, rfl⟩, hbefore, hbehind⟩
    refine ⟨⟨first, gap, second, ?_, hfirst, hsecond, hne, hgap⟩, hbefore, hbehind⟩
    rw [append_nil]

theorem isSome_findPhrase?_iff {t : Text} : (findPhrase? t primaryWords 0).isSome ↔ Mentions t := by
  rw [isSome_iff_exists]
  constructor
  · rintro ⟨s, hs⟩
    obtain ⟨front, w, rest, ht, hstands, -⟩ := exists_of_mem_phrases (mem_of_mem_head? hs)
    exact ⟨front, w, rest, ht, words_iff_stands.2 hstands⟩
  · rintro ⟨front, w, rest, rfl, hwords⟩
    exact (words_iff_stands.1 hwords).exists_findPhrase? (by decide) (by decide)

theorem Mentions.of_mask {t : Text} (h : Mentions (mask t)) : Mentions t := by
  obtain ⟨front, w, rest, hm, hw⟩ := h
  obtain ⟨a, r, rfl, -, -, -, hstands⟩ :=
    (words_iff_stands.1 hw).of_mask (by decide) (by decide) (by decide) hm
  exact ⟨a, w, r, rfl, words_iff_stands.2 hstands⟩

/-- The words behind `front`, outside literals and parentheses, and not right behind a closing
one. -/
structure SetAside (front w rest : Text) : Prop where
  closed : Closed front
  top : codeDepth none 0 front = 0
  lead : ∀ b ∈ front.getLast?, isNameChar b = false ∧ b ≠ ')'
  phrase : IsPhrase w
  behind : rest.head?.any isNameChar = false

/-- Somewhere in the text the words are set aside. -/
def Declares (t : Text) : Prop := ∃ front w rest, t = front ++ (w ++ rest) ∧ SetAside front w rest

theorem Declares.mentions_mask {t : Text} (h : Declares t) : Mentions (mask t) := by
  obtain ⟨front, w, rest, rfl, h⟩ := h
  refine ⟨mask front, w, mask rest, h.phrase.mask_append h.closed rest, h.phrase, ?_, ?_⟩
  · rw [h.closed.getLast?_mask]
    cases hb : front.getLast? with
    | none => rfl
    | some b => exact (h.lead b hb).1
  · rw [head?_mask]
    exact h.behind

end Definition

namespace CreateTable

open Definition

/-! ### Enumerations and their types -/

/-- The word for an enumeration, and its members in parentheses. -/
def Enumeration (old : Text) : Prop :=
  ∃ word members, old = word ++ '(' :: (members ++ [')']) ∧ lower word = lower "enum" ∧
    Closed members ∧ level? 0 (mask members) = some 0

/-- An enumeration that is found stands there. -/
theorem exists_enumeration {t : Text} {n close : Nat} (hn : n ∈ Functions.calls (mask t) "enum(")
    (hclose : closing? (mask t) (n + 4) = some close) : ∃ x old s, t = x ++ (old ++ s) ∧
      x.size = n ∧ x.size + old.size = close + 1 ∧ Closed x ∧ Enumeration old := by
  have hfree := (free_of_mem_occurrences (by decide) (mem_filter.1 hn).1).1
  have hbegins : Functions.Begins (mask t) n (("enum" : Text) ++ ([] ++ ['('])) :=
    Functions.begins_of_mem_calls hn
  obtain ⟨p, w, gap, q, hm, rfl, hw, hgap⟩ := Functions.Opener.exists_of_begins hbegins
  obtain rfl : gap = [] := map_eq_nil_iff.1 hgap
  obtain ⟨a, v, r, hm', hsize, rfl, hv⟩ := exists_of_closing? hclose
  have hfour : w.size = 4 := by
    rw [← size_lower, hw]
    rfl
  have hcut : p ++ w ++ '(' :: q = a ++ '(' :: (v ++ ')' :: r) := by
    rw [← hm', hm]
    simp
  obtain ⟨rfl, htail⟩ := append_inj_of_size hcut (by rw [size_append, hfour, hsize])
  obtain ⟨-, rfl⟩ := cons.inj htail
  -- the mask shows all of it but the literals among the members
  have hlower : (w ++ ['(']).map Char.toLower = ("enum(" : Text).map Char.toLower := by
    rw [map_append, show w.map Char.toLower = _ from hw]
    rfl
  have hno := sees_toLower.no_quote hlower (by decide)
  obtain ⟨x, r', rfl, hx, hclosed, rfl⟩ :=
    hfree.exists_stretch (w := w ++ ['(']) (q := v ++ ')' :: r) (by rw [hm]; simp) hno
  rw [mask_append_code hclosed (by simp) hno] at hm
  have hr' : mask r' = v ++ ')' :: r := by simpa using hm
  obtain ⟨members, s, rfl, hmembers, rfl, -⟩ := exists_code hr' rfl (by decide)
  refine ⟨x, w ++ '(' :: (members ++ [')']), s, by simp, hx, ?_, hclosed, w, members, rfl, hw,
    hmembers, hv⟩
  simp only [size_append, size_cons, size_mask, size_nil]
  rw [show '('.utf8Size = 1 from rfl, show ')'.utf8Size = 1 from rfl]
  omega

namespace Enumeration

variable {old : Text}

theorem balanced_word {word : Text} (h : lower word = lower "enum") : Balanced word :=
  balanced_of_isPlain (tells_toLower.plain sees_toLower h (by decide))

theorem balanced (h : Enumeration old) : Balanced old := by
  obtain ⟨word, members, rfl, hword, hclosed, hlevel⟩ := h
  exact (balanced_word hword).append (balanced_of_level? hclosed hlevel).enclosed

theorem getLast?_eq (h : Enumeration old) : old.getLast? = some ')' := by
  obtain ⟨word, members, rfl, -⟩ := h
  simp [getLast?_append, getLast?_cons]

theorem exists_cons (h : Enumeration old) :
    ∃ c d r, old = c :: d :: r ∧ c.toLower = 'e' ∧ d.toLower = 'n' := by
  obtain ⟨word, members, rfl, hword, -⟩ := h
  obtain ⟨c, word, rfl, hc, hword⟩ := map_eq_cons_iff.1 hword
  obtain ⟨d, word, rfl, hd, -⟩ := map_eq_cons_iff.1 hword
  exact ⟨c, d, _, rfl, hc, hd⟩

/-- A `p` in an enumeration stands inside its parentheses. -/
theorem codeDepth_pos (h : Enumeration old) {u v : Text} {c : Char} (hcut : old = u ++ c :: v)
    (hc : c.toLower = 'p') (hu : Closed u) (d : Nat) : 0 < codeDepth none d u := by
  obtain ⟨word, members, rfl, hword, hclosed, hlevel⟩ := h
  have hne {x : Char} (hx : x ≠ 'p') (hlow : x.toLower = x) : x ≠ c := by
    rintro rfl
    exact hx (hlow.symm.trans hc)
  rcases append_eq_append_iff.1 hcut with ⟨k, rfl, hk⟩ | ⟨k, rfl, hk⟩
  · cases k with
    | nil => exact absurd (cons.inj hk).1 (hne (by decide) rfl)
    | cons y k =>
      obtain ⟨rfl, htail⟩ := cons.inj hk
      obtain ⟨k', rfl⟩ : ∃ k', members = k ++ c :: k' := by
        rcases append_eq_append_iff.1 htail with ⟨j, rfl, hj⟩ | ⟨j, rfl, hj⟩
        · cases j with
          | nil => exact absurd (cons.inj hj).1 (hne (by decide) rfl)
          | cons z j => simp at hj
        · cases j with
          | nil => exact absurd (cons.inj hj).1.symm (hne (by decide) rfl)
          | cons z j =>
            obtain ⟨rfl, -⟩ := cons.inj hj
            exact ⟨j, rfl⟩
      have hword' := balanced_word hword
      have hk' : Closed k := (hword'.closed.append_iff (b := '(' :: k)).1 hu
      have hlower : [c].map Char.toLower = ['p'].map Char.toLower := by simpa using hc
      have hquote : isQuote c = false := sees_toLower.no_quote hlower (by decide) c (by simp)
      have hopen :=
        staysOpen_of_level? hlevel (mask k) (c :: mask k') (mask_append_cons hk' hquote k') d
      rw [foldl_step_mask] at hopen
      rw [Closed.codeDepth_append hword'.closed, hword'.depth]
      exact Nat.lt_of_le_of_lt (Nat.zero_le d) hopen
  · cases k with
    | nil => exact absurd (cons.inj hk).1.symm (hne (by decide) rfl)
    | cons y k =>
      obtain ⟨rfl, -⟩ := cons.inj hk
      have hmem : c.toLower ∈ ("enum" : Text) := mem_of_lower hword (by decide) c (by simp)
      rw [hc] at hmem
      exact absurd hmem (by decide)

end Enumeration

/-- The type of an enumeration starts with a name character that is none of the letters of the
words, and has no `p`. -/
theorem exists_cons_enumType (members : Text) : ∃ c r, enumType members = c :: r ∧
    isNameChar c ∧ c.toLower ∉ 'p' :: tailLetters ∧ ∀ x ∈ c :: r, x.toLower ≠ 'p' := by
  rw [enumType]
  split
  · exact ⟨'s', "mallint".toList, rfl, by decide, by decide, by decide⟩
  · exact ⟨'v', "archar(255)".toList, rfl, by decide, by decide, by decide⟩

theorem balanced_enumType (members : Text) : Balanced (enumType members) := by
  rw [enumType]
  split
  · exact balanced_of_isPlain (by decide)
  · exact (balanced_of_isPlain (t := "varchar") (by decide)).append
      (balanced_of_isPlain (t := "255") (by decide)).enclosed

/-! ### The words and a replacement -/

/-- Putting a type in the place of an enumeration does not bring about the words. -/
theorem mentions_of_replaced {x old s members : Text} (hold : Enumeration old)
    (h : Mentions (x ++ (enumType members ++ s))) : Mentions (x ++ (old ++ s)) := by
  obtain ⟨front, w, rest, hcut, h⟩ := h
  obtain ⟨c, r, hnew, hname, hletter, hno⟩ := exists_cons_enumType members
  rw [hnew] at hcut
  obtain ⟨p, v, hw, hp, -⟩ := h.phrase.exists_cons
  rcases stretch_cases hcut.symm h.phrase.ne_nil (cons_ne_nil c r) with hlt |
    ⟨u, z, -, hfront, hz, hz'⟩ | ⟨u, d, z, hd, -, hz⟩ | ⟨u, hrest, rfl⟩
  · -- the type stands in front of the words
    obtain ⟨u, hu, rfl, rfl⟩ := exists_between hcut.symm hlt
    refine ⟨x ++ (old ++ u), w, rest, by simp, h.phrase, ?_, h.behind⟩
    have hbefore := h.before
    rw [← append_assoc, getLast?_append_of_ne_nil _ hu] at hbefore ⊢
    exact hbefore
  · cases z with
    | nil =>
      -- the words follow at once, and the enumeration ends in a parenthesis
      rw [nil_append] at hz'
      refine ⟨x ++ old, w, rest, by rw [hz', append_assoc], h.phrase, ?_, h.behind⟩
      rw [getLast?_append, hold.getLast?_eq]
      rfl
    | cons y z =>
      rw [hw] at hz'
      obtain ⟨rfl, -⟩ := cons.inj hz'
      exact absurd hp (hno y (by rw [hz]; simp))
  · obtain ⟨rfl, -⟩ := cons.inj hz
    exact absurd (h.phrase.mem_letters c (by rw [hd]; simp)) hletter
  · -- the type stands behind the words
    refine ⟨front, w, u ++ (old ++ s), by simp, h.phrase, h.before, ?_⟩
    have hbehind := h.behind
    rw [hrest] at hbehind
    cases u with
    | nil =>
      simp [nil_append, cons_append, head?_cons, any_some, hname] at hbehind
    | cons y u => exact hbehind

/-- Words that are set aside are still so when a type takes the place of an enumeration. -/
theorem declares_replaced {x old s : Text} (hx : Closed x) (hold : Enumeration old) (members : Text)
    (h : Declares (x ++ (old ++ s))) : Declares (x ++ (enumType members ++ s)) := by
  obtain ⟨front, w, rest, hcut, h⟩ := h
  obtain ⟨e, n, r, hen, he, hn⟩ := hold.exists_cons
  have hne : old ≠ [] := by simp [hen]
  obtain ⟨p, v, hw, hp, -⟩ := h.phrase.exists_cons
  rcases stretch_cases hcut.symm h.phrase.ne_nil hne with hlt |
    ⟨u, z, hu, rfl, hz, hz'⟩ | ⟨u, d, z, hd, -, hz⟩ | ⟨u, rfl, rfl⟩
  · obtain ⟨u, hu, rfl, rfl⟩ := exists_between hcut.symm hlt
    have hnew := balanced_enumType members
    have hclosed := (hold.balanced.closed.append_iff).1 ((hx.append_iff).1 h.closed)
    refine ⟨x ++ (enumType members ++ u), w, rest, by simp,
      hx.append (hnew.closed.append hclosed), ?_, ?_, h.phrase, h.behind⟩
    · have htop := h.top
      rw [Closed.codeDepth_append hx, Closed.codeDepth_append hold.balanced.closed,
        hold.balanced.depth] at htop
      rw [Closed.codeDepth_append hx, Closed.codeDepth_append hnew.closed, hnew.depth]
      exact htop
    · have hlead := h.lead
      rw [← append_assoc, getLast?_append_of_ne_nil _ hu] at hlead ⊢
      exact hlead
  · exfalso
    cases z with
    | nil =>
      rw [append_nil] at hz
      exact (h.lead ')' (by rw [getLast?_append, ← hz, hold.getLast?_eq]; rfl)).2 rfl
    | cons y z =>
      -- the words would start inside the parentheses
      rw [hw] at hz'
      obtain ⟨rfl, -⟩ := cons.inj hz'
      have hpos := hold.codeDepth_pos hz hp ((hx.append_iff).1 h.closed) (codeDepth none 0 x)
      rw [← Closed.codeDepth_append hx, h.top] at hpos
      exact absurd hpos (Nat.lt_irrefl 0)
  · exfalso
    -- the second letter of the enumeration would be one of the words
    rw [hen] at hz
    obtain ⟨rfl, htail⟩ := cons.inj hz
    cases z with
    | nil =>
      have hy := h.phrase.toLower_getLast hd
      rw [he] at hy
      exact absurd hy (by decide)
    | cons y z =>
      obtain ⟨rfl, -⟩ := cons.inj htail
      have hmem := h.phrase.mem_letters n (by rw [hd]; simp)
      rw [hn] at hmem
      exact absurd hmem (by decide)
  · refine ⟨front, w, u ++ (enumType members ++ s), by simp, h.closed, h.top, h.lead, h.phrase, ?_⟩
    have hbehind := h.behind
    cases u with
    | nil =>
      have hname : isNameChar e := Functions.isNameChar_of_toLower (by rw [he]; decide)
      simp [nil_append, hen, cons_append, head?_cons, any_some, hname] at hbehind
    | cons y u => exact hbehind

/-! ### All enumerations -/

/-- No enumeration stands inside another. -/
def Unnested (t : Text) : Prop :=
  (Functions.calls (mask t) "enum(").Pairwise fun n m =>
    ∀ close ∈ closing? (mask t) (n + 4), close < m

instance (t : Text) : Decidable (Unnested t) :=
  inferInstanceAs (Decidable (List.Pairwise _ _))

theorem foldlM_replaceEnum_filter (t masked out : Text) (places : List Nat) :
    places.foldlM (replaceEnum t masked) out
      = (places.filter fun n => !(masked.before n).getLast?.any isNameChar).foldlM
        (replaceEnum t masked) out := by
  induction places generalizing out with
  | nil => rfl
  | cons n places ih =>
    cases hn : (masked.before n).getLast?.any isNameChar with
    | true =>
      rw [filter_cons_of_neg (by simp [hn]), ← ih, foldlM_cons]
      simp only [replaceEnum, hn, if_true]
      rfl
    | false =>
      rw [filter_cons_of_pos (by simp [hn]), foldlM_cons, foldlM_cons]
      simp only [ih]

/-- One step: nothing is replaced, or an enumeration that ends before `limit`, up to which `out` is
`t`. -/
theorem replaceEnum_cases {t : Text} {n limit : Nat} (hn : n ∈ Functions.calls (mask t) "enum(")
    (hlimit : ∀ close ∈ closing? (mask t) (n + 4), close < limit) (done : Text) :
    replaceEnum t (mask t) (t.before limit ++ done) n = .ok (t.before limit ++ done) ∨
      ∃ x old s members, Closed x ∧ Enumeration old ∧ t.before limit = x ++ (old ++ s) ∧
        x = t.before n ∧ replaceEnum t (mask t) (t.before limit ++ done) n
          = .ok (x ++ (enumType members ++ (s ++ done))) := by
  have hname := (mem_filter.1 hn).2
  rw [Bool.not_eq_true'] at hname
  rw [replaceEnum, if_neg (by rw [hname]; decide)]
  cases hclose : closing? (mask t) (n + 4) with
  | none => exact .inl rfl
  | some close =>
    right
    obtain ⟨x, old, s, ht, hx, hsize, hclosed, hold⟩ := exists_enumeration hn hclose
    obtain ⟨k, rfl⟩ : ∃ k, limit = x.size + (old.size + k) := by
      have hlt := hlimit close hclose
      exact ⟨limit - (close + 1), by omega⟩
    have hbefore : t.before (x.size + (old.size + k)) = x ++ (old ++ s.before k) := by
      rw [ht, before_append_add, before_append_add]
    refine ⟨x, old, s.before k, t.slice ⟨n + 5, close⟩, hclosed, hold, hbefore, ?_, ?_⟩
    · rw [ht, ← hx, before_size_append]
    · have hstart := isBoundary_append x (old ++ (s.before k ++ done))
      have hfront := before_size_append x (old ++ (s.before k ++ done))
      have hstop := isBoundary_append (x ++ old) (s.before k ++ done)
      have hafter := after_size_append (x ++ old) (s.before k ++ done)
      rw [size_append, hsize, append_assoc] at hstop hafter
      rw [hx] at hstart hfront
      rw [hbefore, append_assoc]
      simp only [hstart, hstop, splice, hfront, hafter, Bool.not_true, Bool.false_eq_true, if_false,
        append_assoc]

/-- What each replacement keeps is kept by all of them, from the last to the first. In front of the
last one that was made the text is as it was. -/
theorem foldlM_replaceEnum_keeps {t : Text} {P : Text → Prop}
    (hstep : ∀ x old s members, Closed x → Enumeration old → P (x ++ (old ++ s)) →
      P (x ++ (enumType members ++ s)))
    {places : List Nat} (hmem : ∀ n ∈ places, n ∈ Functions.calls (mask t) "enum(")
    (hplaces : places.Pairwise fun m n => ∀ close ∈ closing? (mask t) (n + 4), close < m)
    {limit : Nat} (hlimit : ∀ n ∈ places, ∀ close ∈ closing? (mask t) (n + 4), close < limit)
    {done : Text} (h : P (t.before limit ++ done)) :
    ∃ r, places.foldlM (replaceEnum t (mask t)) (t.before limit ++ done) = .ok r ∧ P r := by
  induction places generalizing limit done with
  | nil => exact ⟨_, rfl, h⟩
  | cons n places ih =>
    obtain ⟨hn, hplaces⟩ := pairwise_cons.1 hplaces
    have hmem' := fun m hm => hmem m (mem_cons_of_mem n hm)
    rw [foldlM_cons]
    rcases replaceEnum_cases (hmem n (by simp)) (hlimit n (by simp)) done with
      heq | ⟨x, old, s, members, hx, hold, hbefore, hcut, heq⟩
    · rw [heq]
      exact ih hmem' hplaces (fun m hm => hlimit m (mem_cons_of_mem n hm)) h
    · rw [hbefore, append_assoc, append_assoc] at h
      rw [heq, hcut]
      exact ih hmem' hplaces hn (hcut ▸ hstep x old (s ++ done) members hx hold h)

/-- What each replacement keeps is kept by all of them. -/
theorem replaceEnums_keeps {t : Text} (ht : Unnested t) {P : Text → Prop}
    (hstep : ∀ x old s members, Closed x → Enumeration old → P (x ++ (old ++ s)) →
      P (x ++ (enumType members ++ s))) (h : P t) : ∃ r, replaceEnums t = .ok r ∧ P r := by
  have hlimit : ∀ n ∈ (Functions.calls (mask t) "enum(").reverse,
      ∀ close ∈ closing? (mask t) (n + 4), close < t.size := by
    intro n hn close hclose
    obtain ⟨x, old, s, rfl, -, hsize, -⟩ := exists_enumeration (mem_reverse.1 hn) hclose
    simp only [size_append]
    omega
  have hstart : P (t.before t.size ++ []) := by
    rwa [before_size, append_nil]
  obtain ⟨r, hr, hP⟩ := foldlM_replaceEnum_keeps hstep (fun n hn => mem_reverse.1 hn)
    (pairwise_reverse.2 ht) hlimit hstart
  rw [before_size, append_nil] at hr
  refine ⟨r, ?_, hP⟩
  rw [replaceEnums, foldlM_replaceEnum_filter, filter_reverse]
  exact hr

theorem exists_replaceEnums {t : Text} (ht : Unnested t) :
    ∃ r, replaceEnums t = .ok r ∧ (Mentions r → Mentions t) ∧ (Declares t → Declares r) := by
  refine replaceEnums_keeps (P := fun r => (Mentions r → Mentions t) ∧ (Declares t → Declares r)) ht
    (fun x old s members hx hold h => ?_) ⟨id, id⟩
  exact ⟨fun hr => h.1 (mentions_of_replaced hold hr),
    fun hdecl => declares_replaced hx hold members (h.2 hdecl)⟩

end CreateTable

end Recast
