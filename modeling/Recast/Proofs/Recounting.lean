import Recast.Proofs.Patterns

/-!
# Counting once more

A count is taken over a part of the previous statement: from its first FROM outside parentheses up
to the first clause that ends it (`Counted`). `recount?` finds that part, both ways
(`counted_of_findTop?`, `Counted.recount?_eq`). A count is itself a statement with that part and
nothing behind it (`Counted.again`), so that counting over a count gives the same count.
-/

namespace Recast

open Literal Nesting List Text
open Option hiding guard

variable {a b body first front k r rest s t x : Text} {m n offset : Nat} {others words : List Text}

theorem Text.head?_any_of_append {p : Char → Bool} {y : Text} (h : (x ++ y).head?.any p = false) :
    x.head?.any p = false := by
  cases x with
  | nil => rfl
  | cons c x => exact h

/-! ### Clauses outside parentheses -/

namespace Keyword

/-- A clause begins with the words at the cut, in code and outside parentheses. -/
def Opens (words : List Text) (front rest : Text) : Prop :=
  ∃ first others k r, words = first :: others ∧ rest = k ++ r ∧ Topmost first others front k r

theorem opens_of_findTop? (hwords : Sought words) {s : Span}
    (h : findTop? (mask t) words offset = some s) :
    ∃ a b, t = a ++ b ∧ Opens words a b ∧ s.start = a.size ∧ offset ≤ a.size := by
  cases words with
  | nil => cases hwords
  | cons first others =>
    obtain ⟨hfirst, hothers, hshows, -⟩ := hwords
    obtain ⟨a, k, r, rfl, htop, rfl, hle⟩ :=
      topmost_of_mem_topPhrases hfirst hothers hshows (mem_of_mem_head? h)
    exact ⟨a, k ++ r, rfl, ⟨first, others, k, r, rfl, rfl, htop⟩, rfl, hle⟩

section

variable {words : List Text} {a b : Text} (h : Opens words a b)
include h

theorem Opens.exists_findTop? (hwords : Sought words) (hoffset : (mask (a ++ b)).isBoundary offset)
    (hle : offset ≤ a.size) :
    ∃ s, findTop? (mask (a ++ b)) words offset = some s ∧ s.start ≤ a.size := by
  obtain ⟨first, others, k, r, rfl, rfl, htop⟩ := h
  exact htop.exists_findTop? hwords.1 hwords.2.1 hoffset hle

theorem Opens.closed : Closed a := by
  obtain ⟨_, _, _, _, -, -, htop⟩ := h
  exact htop.closed

theorem Opens.top : codeDepth none 0 a = 0 := by
  obtain ⟨_, _, _, _, -, -, htop⟩ := h
  exact htop.top

theorem Opens.before : a.getLast?.any isNameChar = false := by
  obtain ⟨_, _, _, _, -, -, htop⟩ := h
  exact htop.before

theorem Opens.exists_word (hwords : Sought words) : ∃ w r, b = w ++ r ∧ w ≠ [] ∧
    (∀ c ∈ w, isNameChar c) ∧ r.head?.any isNameChar = false ∧
    words.head?.map lower = some (lower w) := by
  obtain ⟨first, others, k, r, rfl, rfl, htop⟩ := h
  obtain ⟨w, k', rfl, hw, hk'⟩ := htop.spelled
  obtain ⟨hne, hname⟩ := isNameChar_of_lower hw hwords.1
  refine ⟨w, k' ++ r, by simp, hne, hname, head?_of_trailing hk' htop.behind, ?_⟩
  rw [hw]
  rfl

/-- No clause begins in a word of another clause. -/
theorem Opens.le_of_opens (hwords : Sought words) {w : Text} (hcut : a ++ b = x ++ (w ++ r))
    (hw : ∀ c ∈ w, isNameChar c) (hr : r.head?.any isNameChar = false)
    (hne : words.head?.map lower ≠ some (lower w)) (hle : x.size ≤ a.size) :
    size (x ++ w) ≤ a.size := by
  obtain ⟨u, rfl, hu⟩ := exists_append_of_size_le hcut.symm hle
  rcases append_eq_append_iff.1 hu.symm with ⟨v, rfl, rfl⟩ | ⟨v, rfl, -⟩
  · rcases eq_nil_or_concat u with rfl | ⟨u, c, rfl⟩
    · obtain ⟨w', r', hb, -, hw', hr', hhead⟩ := h.exists_word hwords
      rw [hhead, eq_of_named hb hw hw' hr hr'] at hne
      exact absurd rfl hne
    · have hbefore := h.before
      simp [any_some, hw c (by simp)] at hbefore
  · rw [← append_assoc, size_append (x ++ w)]
    omega

end

/-- The last word of a phrase ends it. -/
theorem Stands.exists_last (h : Stands first others front k rest) (hfirst : Named first)
    (hothers : ∀ w ∈ others, Named w) : ∃ c, k.getLast? = some c ∧ isNameChar c := by
  obtain ⟨w, k', rfl, hw, hk'⟩ := h.spelled
  clear h
  induction others generalizing first w k' with
  | nil =>
    obtain ⟨hne, hname⟩ := isNameChar_of_lower hw hfirst
    obtain rfl : k' = [] := hk'
    refine ⟨w.getLast hne, ?_, hname _ (getLast_mem hne)⟩
    rw [append_nil, getLast?_eq_some_getLast hne]
  | cons word others ih =>
    obtain ⟨gap, w', k', rfl, -, -, hw', hk'⟩ := hk'
    obtain ⟨c, hc, hname⟩ := ih (hothers word (by simp)) (forall_mem_cons.1 hothers).2 w' k' hw' hk'
    refine ⟨c, ?_, hname⟩
    rw [← append_assoc, getLast?_append, hc]
    rfl

theorem Topmost.exchange_rest (h : Topmost first others front k (r ++ s)) (hr : r ≠ [])
    (s' : Text) : Topmost first others front k (r ++ s') := by
  obtain ⟨c, r, rfl⟩ := exists_cons_of_ne_nil hr
  exact ⟨⟨h.spelled, h.before, h.behind⟩, h.closed, h.top⟩

/-- A clause also begins behind another front, and with more behind it that does not prolong its
words. -/
theorem Opens.exchange {front' z : Text} (h : Opens words (front ++ a) b) (hwords : Sought words)
    (hfront : Closed front) (htop : codeDepth none 0 front = 0) (hfront' : Closed front')
    (htop' : codeDepth none 0 front' = 0) (hbefore : front'.getLast?.any isNameChar = false)
    (hz : ∀ c, b.getLast? = some c → isNameChar c → z.head?.any isNameChar = false) :
    Opens words (front' ++ a) (b ++ z) := by
  obtain ⟨first, others, k, r, rfl, rfl, hphrase⟩ := h
  have hdepth := hphrase.top
  refine ⟨first, others, k, r ++ z, rfl, by simp, ⟨⟨hphrase.spelled, ?_, ?_⟩,
    hfront'.append (hfront.append_iff.1 hphrase.closed), ?_⟩⟩
  · cases a with
    | nil => simpa using hbefore
    | cons c a =>
      have hlast := hphrase.before
      rw [getLast?_append] at hlast ⊢
      exact hlast
  · cases r with
    | cons c r => exact hphrase.behind
    | nil =>
      obtain ⟨c, hc, hname⟩ := hphrase.toStands.exists_last hwords.1 hwords.2.1
      exact hz c (by rwa [append_nil]) hname
  · rw [Closed.codeDepth_append hfront, htop] at hdepth
    rw [Closed.codeDepth_append hfront', htop', hdepth]

end Keyword

/-! ### What is counted over -/

namespace FoundRows

open Keyword

theorem sought_from : Sought ["FROM"] := by decide

theorem sought_of_mem_endings : ∀ words ∈ endings, Sought words := by decide

theorem head_ne_from_of_mem_endings :
    ∀ words ∈ endings, words.head?.map lower ≠ some (lower "FROM") := by decide

/-- The part of a statement from its first FROM outside parentheses up to the first clause that ends
what is counted over, or to the end. -/
structure Counted (t front body rest : Text) : Prop where
  cut : t = front ++ (body ++ rest)
  opens : Opens ["FROM"] front (body ++ rest)
  first : ∀ a b, t = a ++ b → Opens ["FROM"] a b → front.size ≤ a.size
  whole :
      ∀ words ∈ endings, ∀ a b, t = a ++ b → Opens words a b → front.size ≤ a.size →
      size (front ++ body) ≤ a.size
  ended : rest = [] ∨ ∃ words ∈ endings, Opens words (front ++ body) rest

theorem le_of_opens (hwords : words ∈ endings) (ht : t = a ++ b) (hcut : t = x ++ (k ++ r))
    (hk : Topmost "FROM" [] x k r) (h : Opens words a b) (hle : x.size ≤ a.size) :
    size (x ++ k) ≤ a.size := by
  have hlower := hk.lower_eq
  refine h.le_of_opens (sought_of_mem_endings words hwords) (ht ▸ hcut)
    (isNameChar_of_lower hlower sought_from.1).2 hk.behind ?_ hle
  rw [hlower]
  exact head_ne_from_of_mem_endings words hwords

theorem isBoundary_behind_from (hk : Topmost "FROM" [] x k r) :
    (mask (x ++ (k ++ r))).isBoundary (size (x ++ k)) := by
  rw [(hk.toStands.mask sought_from.1 sought_from.2.1 hk.closed).1, ← append_assoc, size_append,
    ← size_mask x, ← size_append]
  exact isBoundary_append _ _

namespace Counted

variable {t front body rest : Text} (h : Counted t front body rest)
include h

/-- The part begins with the word FROM. -/
theorem exists_source : ∃ k mid, body = k ++ mid ∧ Topmost "FROM" [] front k (mid ++ rest) := by
  obtain ⟨_, _, k, r, hwords, hcut, htop⟩ := h.opens
  cases hwords
  have hle : k.size ≤ body.size := by
    rcases h.ended with rfl | ⟨words, hwords, hopens⟩
    · have hsize := congrArg size hcut
      rw [append_nil, size_append] at hsize
      omega
    · have hwhole : t = (front ++ body) ++ rest := by rw [h.cut, append_assoc]
      have hle :=
        le_of_opens hwords hwhole (by rw [h.cut, hcut]) htop hopens (by simp [size_append])
      simp only [size_append] at hle
      omega
  obtain ⟨mid, rfl, rfl⟩ := exists_append_of_size_le hcut.symm hle
  exact ⟨k, mid, rfl, htop⟩

theorem findTop?_from (htop : Topmost "FROM" [] front k r) :
    findTop? (mask t) ["FROM"] 0 = some ⟨front.size, size (front ++ k)⟩ := by
  have hzero : (mask (front ++ (body ++ rest))).isBoundary 0 := isBoundary_zero _
  obtain ⟨s, hs, hle⟩ := h.opens.exists_findTop? sought_from hzero (Nat.zero_le _)
  rw [← h.cut] at hs
  obtain ⟨a, k', r, hcut, htop', rfl, -⟩ :=
    topmost_of_mem_topPhrases sought_from.1 sought_from.2.1 sought_from.2.2.1 (mem_of_mem_head? hs)
  have hge := h.first a (k' ++ r) hcut ⟨_, _, k', r, rfl, rfl, htop'⟩
  have hsize : k'.size = k.size := by
    rw [← size_lower, htop'.lower_eq, ← htop.lower_eq, size_lower]
  rw [hs, size_append, hsize]
  simp only at hle
  rw [Nat.le_antisymm hle hge]

end Counted

theorem start_mem_of_opens (hwords : words ∈ endings) (hopens : Opens words a b)
    (hn : (mask (a ++ b)).isBoundary n) (hle : n ≤ a.size) :
    ∃ m ∈ endings.filterMap fun words =>
      (findTop? (mask (a ++ b)) words n).map (·.start), m ≤ a.size := by
  obtain ⟨s, hs, hstart⟩ := hopens.exists_findTop? (sought_of_mem_endings words hwords) hn hle
  exact ⟨s.start, mem_filterMap.2 ⟨words, hwords, by rw [hs]; rfl⟩, hstart⟩

theorem opens_of_start_mem
    (hm : m ∈ endings.filterMap fun words => (findTop? (mask t) words n).map (·.start)) :
    ∃ words ∈ endings, ∃ a b, t = a ++ b ∧ Opens words a b ∧ m = a.size ∧ n ≤ a.size := by
  obtain ⟨words, hwords, h⟩ := mem_filterMap.1 hm
  obtain ⟨s, hs, rfl⟩ := map_eq_some_iff.1 h
  obtain ⟨a, b, hcut, hopens, hstart, hle⟩ :=
    opens_of_findTop? (sought_of_mem_endings words hwords) hs
  exact ⟨words, hwords, a, b, hcut, hopens, hstart, hle⟩

theorem foldl_min_eq_iff {l : List Nat} : l.foldl min n = m ↔ m ∈ n :: l ∧ ∀ b ∈ n :: l, m ≤ b := by
  rw [← min?_eq_some_iff, min?_cons', some_inj]

/-- What is counted over is the part that is to be counted over. -/
theorem Counted.recount?_eq (h : Counted t front body rest) :
    recount? t = some ("COUNT(1) as Computed " ++ trimEnd (dropEnd (· == ';') body.trim)) := by
  obtain ⟨k, mid, hbody, htop⟩ := h.exists_source
  have hflat : t = (front ++ body) ++ rest := by rw [h.cut, append_assoc]
  have hstop : (endings.filterMap fun words =>
      (findTop? (mask t) words (size (front ++ k))).map (·.start)).foldl min t.size =
        size (front ++ body) := by
    have hge : ∀ m ∈ endings.filterMap fun words =>
        (findTop? (mask t) words (size (front ++ k))).map (·.start), size (front ++ body) ≤ m := by
      intro m hm
      obtain ⟨words, hwords, a, b, hcut, hopens, rfl, hle⟩ := opens_of_start_mem hm
      rw [size_append] at hle
      exact h.whole words hwords a b hcut hopens (by omega)
    rw [foldl_min_eq_iff]
    constructor
    · rcases h.ended with hrest | ⟨words, hwords, hopens⟩
      · rw [hrest, append_nil] at hflat
        rw [hflat]
        exact mem_cons_self
      · have hboundary := isBoundary_behind_from htop
        rw [← append_assoc k, ← hbody, ← append_assoc] at hboundary
        obtain ⟨m, hm, hle⟩ :=
          start_mem_of_opens hwords hopens hboundary (by simp only [hbody, size_append]; omega)
        rw [← hflat] at hm
        rw [Nat.le_antisymm (hge m hm) hle]
        exact mem_cons_of_mem _ hm
    · intro m hm
      rcases mem_cons.1 hm with rfl | hm
      · rw [hflat, size_append (front ++ body)]
        omega
      · exact hge m hm
  have hslice : t.slice ⟨front.size, size (front ++ body)⟩ = body := by
    rw [hflat]
    exact slice_append _ _ _ rfl (size_append _ _)
  rw [recount?, h.findTop?_from htop]
  simp only [bind_eq_bind, bind_some, hstop, hslice]
  rfl

/-- The part that is counted over, as it is searched for. -/
theorem counted_of_findTop? {clause : Span} {stop : Nat}
    (hfrom : findTop? (mask t) ["FROM"] 0 = some clause) (hstop : (endings.filterMap fun words =>
      (findTop? (mask t) words clause.stop).map (·.start)).foldl min t.size = stop) :
    Counted t (t.before clause.start) (t.slice ⟨clause.start, stop⟩) (t.after stop) := by
  obtain ⟨a, k, r, hcut, htop, rfl, -⟩ :=
    topmost_of_mem_topPhrases sought_from.1 sought_from.2.1 sought_from.2.2.1
      (mem_of_mem_head? hfrom)
  obtain ⟨hmem, hmin⟩ := foldl_min_eq_iff.1 hstop
  -- the end of the text or a clause, behind FROM
  obtain ⟨y, z, hyz, rfl, hle, hended⟩ :
      ∃ y z, t = y ++ z ∧ y.size = stop ∧ size (a ++ k) ≤ y.size ∧
      (z = [] ∨ ∃ words ∈ endings, Opens words y z) := by
    rcases mem_cons.1 hmem with rfl | hmem
    · refine ⟨t, [], by simp, rfl, ?_, .inl rfl⟩
      rw [hcut, ← append_assoc, size_append (a ++ k)]
      omega
    · obtain ⟨words, hwords, y, z, hyz, hopens, rfl, hle⟩ := opens_of_start_mem hmem
      exact ⟨y, z, hyz, rfl, by rwa [size_append], .inr ⟨words, hwords, hopens⟩⟩
  have hflat : (a ++ k) ++ r = y ++ z := by rw [← hyz, hcut, append_assoc]
  obtain ⟨mid, rfl, rfl⟩ := exists_append_of_size_le hflat hle
  have hbody : a ++ k ++ mid = a ++ (k ++ mid) := append_assoc a k mid
  rw [hbody] at hyz hended hmin ⊢
  have hbefore : t.before a.size = a := by rw [hcut, before_size_append]
  have hslice : t.slice ⟨a.size, size (a ++ (k ++ mid))⟩ = k ++ mid := by
    rw [hyz]
    exact slice_append _ _ _ rfl (size_append _ _)
  have hafter : t.after (size (a ++ (k ++ mid))) = z := by rw [hyz, after_size_append]
  rw [hbefore, hslice, hafter]
  refine ⟨by rw [hyz, append_assoc], ⟨_, _, k, mid ++ z, rfl, by simp, htop⟩, ?_, ?_, hended⟩
  · intro a' b' hcut' hopens
    have hzero : (mask (a' ++ b')).isBoundary 0 := isBoundary_zero _
    obtain ⟨s, hs, hstart⟩ := hopens.exists_findTop? sought_from hzero (Nat.zero_le _)
    rw [← hcut', hfrom] at hs
    cases hs
    exact hstart
  · intro words hwords a' b' hcut' hopens hle'
    have hbehind := le_of_opens hwords hcut' hcut htop hopens hle'
    have hboundary := isBoundary_behind_from htop
    rw [← hcut, hcut'] at hboundary
    obtain ⟨m, hm, hstart⟩ := start_mem_of_opens hwords hopens hboundary hbehind
    rw [← hcut', size_append] at hm
    exact (hmin m (mem_cons_of_mem _ hm)).trans hstart

/-! ### Counting over a count -/

/-- What is written in front of the part that is counted over. -/
def countFront : Text := "SELECT COUNT(1) as Computed "

theorem closed_countFront : Closed countFront := Code.closed (by decide)

theorem head_countFront (hcut : countFront = a ++ s) (hlast : a.getLast?.any isNameChar = false) :
    ∀ c, s.head? = some c → c.toLower ∉ ['f', 'g', 'h', 'l', 'n', 'o', 'u', 'd'] := by
  have hall : ∀ i < 29, (countFront.take i).getLast?.any isNameChar = false →
      ∀ c ∈ (countFront.drop i).head?, c.toLower ∉ ['f', 'g', 'h', 'l', 'n', 'o', 'u', 'd'] := by
        decide
  have hlength : a.length < 29 := by
    have h := congrArg length hcut
    rw [length_append] at h
    have hsize : countFront.length = 28 := rfl
    omega
  have h := hall a.length hlength
  rw [hcut, take_left, drop_left] at h
  exact h hlast

theorem sought_of_mem : ∀ words ∈ [("FROM" : Text)] :: endings, Sought words := by decide

/-- In the front of a count no clause begins. -/
theorem size_countFront_le (hwords : words ∈ [("FROM" : Text)] :: endings)
    (hcut : countFront ++ r = a ++ b) (h : Opens words a b) : countFront.size ≤ a.size := by
  rcases append_eq_append_iff.1 hcut with ⟨s, hs, -⟩ | ⟨s, hs, hb⟩
  · rw [hs, size_append]
    omega
  · cases s with
    | nil => simp [hs]
    | cons c s =>
      -- a word that begins here has one of the letters with which no name of the front begins
      exfalso
      refine head_countFront hs h.before c rfl ?_
      obtain ⟨w, r', hw, hne, -, -, hhead⟩ := h.exists_word (sought_of_mem words hwords)
      obtain ⟨x, w, rfl⟩ := exists_cons_of_ne_nil hne
      obtain rfl : c = x := (cons.inj (hb.symm.trans hw)).1
      have hall : ∀ words ∈ [("FROM" : Text)] :: endings, ∀ y ∈ (words.head?.map lower).bind head?,
          y ∈ ['f', 'g', 'h', 'l', 'n', 'o', 'u', 'd'] := by decide
      exact hall words hwords c.toLower (by rw [hhead]; rfl)

/-- The part without the blanks behind it. -/
theorem Counted.exists_core (h : Counted t front body rest) : ∃ k mid g,
    body = k ++ (mid ++ g) ∧ body.trim = k ++ mid ∧ (∀ c ∈ g, isBlank c) ∧
      Topmost "FROM" [] front k ((mid ++ g) ++ rest) := by
  obtain ⟨k, mid, rfl, htop⟩ := h.exists_source
  obtain ⟨hne, hname⟩ := isNameChar_of_lower htop.lower_eq sought_from.1
  obtain ⟨g, hg, hblank, -⟩ := exists_dropEnd isBlank mid
  have hstart : trimStart (k ++ mid) = k ++ mid := by
    refine dropWhile_of_head fun c hc => ?_
    obtain ⟨x, k, rfl⟩ := exists_cons_of_ne_nil hne
    obtain rfl : x = c := some.inj hc
    exact isBlank_of_isNameChar (hname x (by simp))
  have hend : trimEnd (k ++ mid) = k ++ mid.trimEnd :=
    dropEnd_append_of_last (fun c hc => isBlank_of_isNameChar (hname c (mem_of_getLast? hc))) mid
  refine ⟨k, mid.trimEnd, g, by rw [trimEnd, ← hg], by rw [trim, hstart, hend], hblank, ?_⟩
  rw [trimEnd, ← hg]
  exact htop

/-- A count over a part of a statement has that part, and nothing behind it. -/
theorem Counted.again (h : Counted t front body rest) :
    Counted (countFront ++ body.trim) countFront body.trim [] := by
  obtain ⟨k, mid, g, hbody, htrim, hg, htop⟩ := h.exists_core
  have hclosed := h.opens.closed
  rw [htrim]
  refine ⟨by simp, ⟨_, _, k, mid, rfl, by simp, ?_⟩,
    fun a b hcut hopens => size_countFront_le (by simp) hcut hopens, ?_, .inl rfl⟩
  · refine ⟨⟨htop.spelled, by decide, ?_⟩, closed_countFront, by decide⟩
    exact head?_any_of_append (head?_any_of_append htop.behind)
  · intro words hwords a b hcut hopens hle
    obtain ⟨a, rfl, hb⟩ := exists_append_of_size_le hcut hle
    have hpart : body = a ++ (b ++ g) := by rw [hbody, ← append_assoc, ← append_assoc, hb]
    -- the clause begins in the statement as well, at the same place of the part
    have hold : Opens words (front ++ a) (b ++ (g ++ rest)) := by
      refine hopens.exchange (sought_of_mem_endings words hwords) closed_countFront (by decide)
        hclosed h.opens.top
        h.opens.before fun c hc hname => ?_
      cases g with
      | cons x g => exact isNameChar_of_isBlank (hg x (by simp))
      | nil =>
        rcases h.ended with rfl | ⟨words', -, hnext⟩
        · rfl
        · have hlast := hnext.before
          rw [hpart, append_nil, getLast?_append, getLast?_append, hc, some_or, some_or, any_some,
            hname] at hlast
          cases hlast
    have hwhole :=
      h.whole words hwords (front ++ a) _ (by rw [h.cut, hpart]; simp) hold
        (by rw [size_append]; omega)
    have hsize := congrArg size hb
    rw [hpart] at hwhole
    simp only [size_append] at hwhole hsize ⊢
    omega

end FoundRows

end Recast
