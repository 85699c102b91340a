import Recast.Proofs.Masking

/-!
# Lists of items

`Nesting.itemsIn` cuts a list at its commas and trims the items. Here such a list is put together
from its items: `Item` is one of them with the blanks around it, `written` the list. For items that
are `Proper` the spans found are those of the cores (`itemsIn_written`), and every list with closed
literals and balanced parentheses is written that way (`exists_items`). Exchanging the cores of some
items is then a weave of edits (`weave_exchange`).
-/

namespace Recast.Nesting

open Literal List Text

variable {a b rest t : Text} {sep : Char} {d k n start : Nat} {i : Item} {items : List Item}

/-! ### Depth -/

/-- The depth behind a text, given the depth in front of it; nothing if a parenthesis closes more
than was opened. -/
def level? (d : Nat) : Text → Option Nat
  | [] => some d
  | c :: t =>
    if c = '(' then level? (d + 1) t
    else if c = ')' then if d = 0 then none else level? (d - 1) t
    else level? d t

theorem level?_append (d : Nat) (a b : Text) :
    level? d (a ++ b) = (level? d a).bind fun k => level? k b := by
  fun_induction level? d a with
  | case1 => rfl
  | case2 d t ih => simpa [level?] using ih
  | case3 t => simp [level?]
  | case4 d t hd _ ih => simpa [level?, hd] using ih
  | case5 d c t h1 h2 ih => simpa [level?, h1, h2] using ih

/-- The level behind a text is as much higher as the one in front. -/
theorem level?_add (h : level? d t = some k) (j : Nat) : level? (d + j) t = some (k + j) := by
  fun_induction level? d t with
  | case1 => cases h; rfl
  | case2 d t ih =>
    have := ih h
    rw [level?, if_pos rfl, ← this]
    congr 1
    omega
  | case3 t => cases h
  | case4 d t h1 hd ih =>
    have := ih h
    rw [level?, if_neg (by decide), if_pos rfl, if_neg (by omega), ← this]
    congr 1
    omega
  | case5 d c t h1 h2 ih =>
    rw [level?, if_neg h1, if_neg h2]
    exact ih h

theorem level?_of_no_paren (h : ∀ c ∈ t, c ≠ '(' ∧ c ≠ ')') (d : Nat) : level? d t = some d := by
  induction t with
  | nil => rfl
  | cons c t ih =>
    obtain ⟨h1, h2⟩ := h c (by simp)
    rw [level?, if_neg h1, if_neg h2, ih (forall_mem_cons.1 h).2]

theorem foldl_step_of_level? (h : level? d t = some k) : t.foldl step d = k := by
  fun_induction level? d t with
  | case1 => cases h; rfl
  | case2 d t ih => simpa [step] using ih h
  | case3 => cases h
  | case4 d t _ _ ih => simpa [step] using ih h
  | case5 d c t h1 h2 ih => simpa [step, h1, h2] using ih h

/-- In front of a place of such a text nothing is closed that was open before it. -/
theorem lt_foldl_step {v w : Text} (h : level? 0 (v ++ w) = some k) (d : Nat) :
    d < v.foldl step (d + 1) := by
  rw [level?_append] at h
  obtain ⟨j, hj, -⟩ := Option.bind_eq_some_iff.1 h
  have hlevel := foldl_step_of_level? (level?_add hj (d + 1))
  rw [Nat.zero_add] at hlevel
  omega

theorem exists_append_cons_iff {P : Text → Text → Prop} {c x : Char} :
    (∃ v r, c :: t = v ++ x :: r ∧ P v r) ↔
    c = x ∧ P [] t ∨ ∃ v r, t = v ++ x :: r ∧ P (c :: v) r := by
  constructor
  · rintro ⟨v, r, h, hv⟩
    cases v with
    | nil =>
      obtain ⟨rfl, rfl⟩ := cons.inj h
      exact .inl ⟨rfl, hv⟩
    | cons y v =>
      obtain ⟨rfl, rfl⟩ := cons.inj h
      exact .inr ⟨v, r, rfl, hv⟩
  · rintro (⟨rfl, h⟩ | ⟨v, r, rfl, h⟩)
    · exact ⟨[], t, rfl, h⟩
    · exact ⟨c :: v, r, rfl, h⟩

/-- What stands before the closing parenthesis closes whatever it opens. -/
theorem closingFrom?_eq_some {offset : Nat} : closingFrom? (k + 1) offset t = some n ↔
    ∃ v r : Text, t = v ++ ')' :: r ∧ n = offset + v.size ∧ level? k v = some 0 := by
  induction t generalizing k offset with
  | nil => simp [closingFrom?]
  | cons c t ih =>
    rw [exists_append_cons_iff, closingFrom?]
    split_ifs with hopen hclose hk
    · simp [ih, hopen, level?, Nat.add_assoc]
    · obtain rfl : k = 0 := by omega
      simp [hclose, level?, eq_comm]
    · obtain ⟨k, rfl⟩ := Nat.exists_eq_succ_of_ne_zero (show k ≠ 0 by omega)
      simp [ih, hclose, level?, Nat.add_assoc]
    · simp [ih, hopen, hclose, level?, Nat.add_assoc]

theorem exists_of_closing? {opening close : Nat} (h : closing? t opening = some close) :
    ∃ a v r : Text, t = a ++ '(' :: (v ++ ')' :: r) ∧
      opening = a.size ∧ close = a.size + 1 + v.size ∧ level? 0 v = some 0 := by
  rw [closing?] at h
  split at h
  · next hchar =>
    obtain ⟨a, b, rfl, rfl⟩ := charAt?_eq_some.1 hchar
    rw [after_size_append] at h
    obtain ⟨v, r, rfl, rfl, hv⟩ := closingFrom?_eq_some.1 h
    exact ⟨a, v, r, rfl, rfl, rfl, hv⟩
  · cases h

theorem closing?_of_level? {v : Text} (h : level? 0 v = some 0) (a r : Text) :
    closing? (a ++ '(' :: (v ++ ')' :: r)) a.size = some (a.size + 1 + v.size) := by
  rw [closing?, if_pos (charAt?_eq_some.2 ⟨a, _, rfl, rfl⟩), after_size_append, closingFrom?]
  exact closingFrom?_eq_some.2 ⟨v, r, rfl, rfl, h⟩

/-! ### Separators inside parentheses -/

/-- Every separator stands inside parentheses, when the text starts at depth `d`. -/
def Flat (sep : Char) : Nat → Text → Prop
  | _, [] => True
  | d, c :: t => (c = sep → d ≠ 0) ∧ Flat sep (step d c) t

theorem flat_append : Flat sep d (a ++ b) ↔ Flat sep d a ∧ Flat sep (a.foldl step d) b := by
  induction a generalizing d with
  | nil => simp [Flat]
  | cons c a ih => simp [Flat, ih, and_assoc]

theorem flat_of_not_mem (h : sep ∉ t) (d : Nat) : Flat sep d t := by
  induction t generalizing d with
  | nil => trivial
  | cons c t ih =>
    refine ⟨?_, ih (fun hmem => h (by simp [hmem])) _⟩
    rintro rfl
    exact absurd (by simp) h

/-! ### The marks of a list -/

theorem step_of_ne (hopen : c ≠ '(') (hclose : c ≠ ')') (d : Nat) : step d c = d := by
  rw [step, if_neg hopen, if_neg hclose]

/-- The marks by which a list is read. -/
def isListMark (c : Char) : Bool := c == '(' || c == ')' || c == ','

theorem step_of_not_isListMark (h : ¬ isListMark c) (d : Nat) : step d c = d := by
  simp only [isListMark, Bool.or_eq_true, beq_iff_eq, not_or] at h
  exact step_of_ne h.1.1 h.1.2 d

theorem foldl_step_filter (d : Nat) (m : Text) :
    (m.filter isListMark).foldl step d = m.foldl step d := by
  induction m generalizing d with
  | nil => rfl
  | cons c m ih =>
    rw [filter_cons]
    split
    · exact ih _
    · next hmark => rw [ih, foldl_cons, step_of_not_isListMark hmark]

theorem filter_isListMark_mask (t : Text) :
    (mask t).filter isListMark = (outline none t).filter isListMark :=
  filter_mask rfl (fun _ hq => Bool.eq_false_of_not_eq_true fun hmark => by
    simp [isQuote_of_class hmark rfl rfl] at hq) t

theorem level?_filter (d : Nat) (m : Text) : level? d (m.filter isListMark) = level? d m := by
  induction m generalizing d with
  | nil => rfl
  | cons c m ih =>
    rw [filter_cons]
    split
    · rw [level?, level?]
      simp only [ih]
    · next hmark =>
      simp only [isListMark, Bool.or_eq_true, beq_iff_eq, not_or] at hmark
      rw [ih, level?, if_neg hmark.1.1, if_neg hmark.1.2]

theorem flat_filter (d : Nat) (m : Text) : Flat ',' d (m.filter isListMark) ↔ Flat ',' d m := by
  induction m generalizing d with
  | nil => exact Iff.rfl
  | cons c m ih =>
    rw [filter_cons]
    split
    · rw [Flat, Flat, ih]
    · next hmark =>
      rw [ih, Flat, step_of_not_isListMark hmark]
      refine ⟨fun h => ⟨?_, h⟩, And.right⟩
      rintro rfl
      exact absurd rfl hmark

/-! ### Cutting at separators -/

theorem splitTopFrom_flat (h : Flat sep d t) :
    splitTopFrom sep d start n t = [⟨start, n + t.size⟩] := by
  induction t generalizing d n with
  | nil => rfl
  | cons c t ih =>
    obtain ⟨hc, ht⟩ := h
    have hnext := ih (n := n + c.utf8Size) ht
    rw [Nat.add_assoc, ← size_cons] at hnext
    rw [splitTopFrom, ← hnext]
    unfold step
    grind

/-- A list is split behind a first part with nothing to split. -/
theorem splitTopFrom_sep (hopen : sep ≠ '(') (hclose : sep ≠ ')') (h : Flat sep d t)
    (hd : t.foldl step d = 0) :
    splitTopFrom sep d start n (t ++ sep :: rest) =
      ⟨start, n + t.size⟩ :: splitTopFrom sep 0 (n + t.size + sep.utf8Size)
        (n + t.size + sep.utf8Size) rest := by
  induction t generalizing d n with
  | nil =>
    obtain rfl : d = 0 := hd
    simp [splitTopFrom, hopen, hclose]
  | cons c t ih =>
    obtain ⟨hc, ht⟩ := h
    have hnext := ih (n := n + c.utf8Size) ht hd
    rw [Nat.add_assoc n c.utf8Size, ← size_cons] at hnext
    rw [cons_append, splitTopFrom, ← hnext]
    unfold step
    grind

theorem splitTopFrom_ne_nil (sep : Char) (d start n : Nat) (t : Text) :
    splitTopFrom sep d start n t ≠ [] := by
  fun_induction splitTopFrom with
  | case1 | case4 => exact cons_ne_nil _ _
  | case2 | case3 | case5 => assumption

/-- A part of a list starts at the start of the list or behind a separator, and ends at its end or
in front of one. -/
structure Edges (m : Text) (sep : Char) (s : Span) : Prop where
  start : s.start = 0 ∨ ∃ a b, m = a ++ sep :: b ∧ s.start = size (a ++ [sep])
  stop : s.stop = m.size ∨ ∃ a b, m = a ++ sep :: b ∧ s.stop = size a
  le : s.start ≤ s.stop

/-- A part reaches from one separator to the next. -/
theorem edges_of_mem_splitTopFrom {m w u : Text} (hm : m = w ++ u) (hn : n = w.size)
    (hstart : start = 0 ∨ ∃ a b, m = a ++ sep :: b ∧ start = size (a ++ [sep])) (hle : start ≤ n) :
    ∀ s ∈ splitTopFrom sep d start n u, Edges m sep s := by
  induction u generalizing d start n w with
  | nil =>
    intro s hs
    obtain rfl := mem_singleton.1 hs
    exact ⟨hstart, .inl (by rw [hm, append_nil, hn]), hle⟩
  | cons c u ih =>
    have hm' : m = (w ++ [c]) ++ u := by simpa using hm
    have hn' : n + c.utf8Size = (w ++ [c] : Text).size := by
      rw [size_append, hn]
      rfl
    have hle' : start ≤ n + c.utf8Size := Nat.le_add_right_of_le hle
    rw [splitTopFrom]
    split
    · exact ih hm' hn' hstart hle'
    split
    · exact ih hm' hn' hstart hle'
    split
    · next hc =>
      obtain ⟨rfl, rfl⟩ := hc
      refine forall_mem_cons.2 ⟨⟨hstart, .inr ⟨w, u, hm, hn⟩, hle⟩, ?_⟩
      exact ih hm' hn' (.inr ⟨w, u, hm, hn'⟩) (Nat.le_refl _)
    · exact ih hm' hn' hstart hle'

theorem edges_of_mem_splitTop {s : Span} (h : s ∈ splitTop t sep) : Edges (mask t) sep s :=
  edges_of_mem_splitTopFrom (w := []) rfl rfl (.inl rfl) (Nat.le_refl 0) s h

/-- The parts but the last end where a separator stands at depth zero. -/
theorem exists_mem_dropLast_splitTopFrom (hopen : sep ≠ '(') (hclose : sep ≠ ')')
    (d start n k : Nat) (t : Text) :
    (∃ s ∈ (splitTopFrom sep d start n t).dropLast, s.stop = k) ↔
      ∃ a b : Text, t = a ++ sep :: b ∧ a.foldl step d = 0 ∧ k = n + a.size := by
  induction t generalizing d start n with
  | nil => simp [splitTopFrom]
  | cons c t ih =>
    rw [exists_append_cons_iff, splitTopFrom]
    split_ifs with hc hc' hsep
    · simp [ih, hc, step, hopen.symm, Nat.add_assoc]
    · simp [ih, hc', step, hclose.symm, Nat.add_assoc]
    · obtain ⟨rfl, rfl⟩ := hsep
      rw [dropLast_cons_of_ne_nil (splitTopFrom_ne_nil _ _ _ _ _), exists_mem_cons_iff, ih]
      simp [step, hc, hc', eq_comm, Nat.add_assoc]
    · rw [ih, or_iff_right fun h => hsep ⟨h.1, h.2.1⟩]
      simp [step, hc, hc', Nat.add_assoc]

theorem flat_or_exists_sep (sep : Char) (d : Nat) (t : Text) :
    Flat sep d t ∨ ∃ a b : Text, t = a ++ sep :: b ∧ Flat sep d a ∧ a.foldl step d = 0 := by
  induction t generalizing d with
  | nil => exact .inl trivial
  | cons c t ih =>
    by_cases hc : c = sep ∧ d = 0
    · obtain ⟨rfl, rfl⟩ := hc
      exact .inr ⟨[], t, rfl, trivial, rfl⟩
    · have hflat : c = sep → d ≠ 0 := fun h hd => hc ⟨h, hd⟩
      rcases ih (step d c) with ht | ⟨a, b, rfl, ha, hd⟩
      · exact .inl ⟨hflat, ht⟩
      · exact .inr ⟨c :: a, b, rfl, ⟨hflat, ha⟩, hd⟩

/-! ### Items -/

theorem ne_of_isBlank {c d : Char} (hc : isBlank c) (hd : isBlank d = false) : c ≠ d := by
  rintro rfl
  simp [hc] at hd

theorem level?_of_isBlank (h : ∀ c ∈ t, isBlank c) (d : Nat) : level? d t = some d :=
  level?_of_no_paren (fun c hc =>
    ⟨ne_of_isBlank (h c hc) (by decide), ne_of_isBlank (h c hc) (by decide)⟩) d

theorem flat_of_isBlank (h : ∀ c ∈ t, isBlank c) (d : Nat) : Flat ',' d t :=
  flat_of_not_mem (fun hmem => absurd (h _ hmem) (by decide)) d

theorem mask_between_blanks (ha : ∀ c ∈ a, isBlank c) (ht : Closed t) (hb : ∀ c ∈ b, isBlank c) :
    mask (a ++ (t ++ b)) = a ++ (mask t ++ b) := by
  have hqa : Code a := code_of_isBlank ha
  have hqb : Code b := code_of_isBlank hb
  rw [hqa.mask_append, mask_append ht hqb.apart_right, hqb.mask_eq]

/-- A text that is one item of a list as it stands: its literals and parentheses close, no comma
stands outside them, and no blank at its ends. -/
structure Entry (t : Text) : Prop where
  closed : Closed t
  level : level? 0 (mask t) = some 0
  flat : Flat ',' 0 (mask t)
  first : ∀ c, t.head? = some c → isBlank c = false
  last : ∀ c, t.getLast? = some c → isBlank c = false

/-- An item with the blanks around it. -/
structure Item where
  lead : Text
  core : Text
  trail : Text

namespace Item

def text (i : Item) : Text := i.lead ++ (i.core ++ i.trail)

/-- The blanks are blanks, and all those of an empty item lead. -/
structure Proper (i : Item) : Prop where
  lead : ∀ c ∈ i.lead, isBlank c = true
  trail : ∀ c ∈ i.trail, isBlank c = true
  entry : Entry i.core
  empty : i.core = [] → i.trail = []

theorem Proper.mask_text (h : i.Proper) : mask i.text = i.lead ++ (mask i.core ++ i.trail) :=
  mask_between_blanks h.lead h.entry.closed h.trail

theorem Proper.closed_text (h : i.Proper) : Closed i.text :=
  (code_of_isBlank h.lead).closed.append (h.entry.closed.append (code_of_isBlank h.trail).closed)

theorem Proper.level_text (h : i.Proper) : level? 0 (mask i.text) = some 0 := by
  rw [h.mask_text, level?_append, level?_of_isBlank h.lead, Option.bind_some, level?_append,
    h.entry.level, Option.bind_some, level?_of_isBlank h.trail]

theorem Proper.flat_text (h : i.Proper) : Flat ',' 0 (mask i.text) := by
  rw [h.mask_text, flat_append, flat_append, foldl_step_of_level? (level?_of_isBlank h.lead 0),
    foldl_step_of_level? h.entry.level]
  exact ⟨flat_of_isBlank h.lead 0, h.entry.flat, flat_of_isBlank h.trail 0⟩

theorem Proper.trimSpan_eq (h : i.Proper) {front : Text} (back : Text) (hn : n = front.size) :
    trimSpan (front ++ i.text ++ back) ⟨n, n + i.text.size⟩ =
      ⟨n + i.lead.size, n + i.lead.size + i.core.size⟩ := by
  have htrimmed : Text.Trimmed i.lead i.core i.trail :=
    ⟨h.lead, h.trail, h.entry.first, h.entry.last, h.empty⟩
  exact htrimmed.trimSpan_eq front back hn rfl

/-- Every text that is one item is a core between blanks. -/
theorem exists_proper (hclosed : Closed t) (hlevel : level? 0 (mask t) = some 0)
    (hflat : Flat ',' 0 (mask t)) : ∃ i : Item, i.Proper ∧ i.text = t := by
  obtain ⟨lead, core, trail, rfl, htrimmed⟩ := exists_trimmed t
  obtain ⟨hlead, htrail, hfirst, hlast, hempty⟩ := htrimmed
  have hcore : Closed core := by
    have hall : Closed (core ++ trail) :=
      (code_of_isBlank hlead).closed.append_iff.1 hclosed
    exact hall.of_append (code_of_isBlank htrail)
  rw [mask_between_blanks hlead hcore htrail] at hlevel hflat
  rw [level?_append, level?_of_isBlank hlead, Option.bind_some, level?_append] at hlevel
  have hlevelCore : level? 0 (mask core) = some 0 := by
    cases hk : level? 0 (mask core) with
    | none => rw [hk] at hlevel; cases hlevel
    | some k => rwa [hk, Option.bind_some, level?_of_isBlank htrail] at hlevel
  rw [flat_append, foldl_step_of_level? (level?_of_isBlank hlead 0), flat_append] at hflat
  exact ⟨⟨lead, core, trail⟩,
    ⟨hlead, htrail, ⟨hcore, hlevelCore, hflat.2.1, hfirst, hlast⟩, hempty⟩, rfl⟩

end Item

/-! ### Lists of items -/

/-- The items with commas between them. -/
def written (items : List Item) : Text := join [','] (items.map Item.text)

theorem written_cons (i j : Item) (items : List Item) :
    written (i :: j :: items) = i.text ++ ',' :: written (j :: items) := by
  simp [written, join]

/-- Where the items stand in a list that starts at `n`, blanks included. -/
def places (n : Nat) : List Item → List Span
  | [] => []
  | i :: items => ⟨n, n + i.text.size⟩ :: places (n + i.text.size + 1) items

/-- Where the cores stand in a list that starts at `n`. -/
def cores (n : Nat) : List Item → List Span
  | [] => []
  | i :: items =>
    ⟨n + i.lead.size, n + i.lead.size + i.core.size⟩ :: cores (n + i.text.size + 1) items

theorem length_cores (n : Nat) (items : List Item) : (cores n items).length = items.length := by
  induction items generalizing n with
  | nil => rfl
  | cons i items ih => rw [cores, length_cons, length_cons, ih]

theorem mask_written_cons (hi : i.Proper) (j : Item) (items : List Item) :
    mask (written (i :: j :: items)) = mask i.text ++ ',' :: mask (written (j :: items)) := by
  rw [written_cons, mask_append_cons hi.closed_text (by decide)]

theorem closed_written (h : ∀ i ∈ items, i.Proper) : Closed (written items) := by
  induction items with
  | nil => rfl
  | cons i items ih =>
    have hi := (h i (by simp)).closed_text
    cases items with
    | nil => exact hi
    | cons j items =>
      rw [written_cons]
      exact hi.append ((Code.closed (t := [',']) (by decide)).append (ih (forall_mem_cons.1 h).2))

theorem level_written (h : ∀ i ∈ items, i.Proper) : level? 0 (mask (written items)) = some 0 := by
  induction items with
  | nil => rfl
  | cons i items ih =>
    have hi := h i (by simp)
    cases items with
    | nil => exact hi.level_text
    | cons j items =>
      rw [mask_written_cons hi, level?_append, hi.level_text]
      exact ih (forall_mem_cons.1 h).2

/-- A written list is split into its items. -/
theorem splitTopFrom_written (hne : items ≠ []) (h : ∀ i ∈ items, i.Proper) (n : Nat) :
    splitTopFrom ',' 0 n n (mask (written items)) = places n items := by
  induction items generalizing n with
  | nil => exact absurd rfl hne
  | cons i items ih =>
    have hi := h i (by simp)
    have hsize : (mask i.text).size = i.text.size := size_mask i.text
    cases items with
    | nil =>
      have hone : splitTopFrom ',' 0 n n (mask i.text) = _ := splitTopFrom_flat hi.flat_text
      rwa [hsize] at hone
    | cons j items =>
      rw [mask_written_cons hi, splitTopFrom_sep (by decide) (by decide) hi.flat_text
        (foldl_step_of_level? hi.level_text), hsize]
      exact congrArg _ (ih (by simp) (forall_mem_cons.1 h).2 _)

/-- Every list with closed literals and balanced parentheses is written from proper items. -/
theorem exists_items : (t : Text) → Closed t → level? 0 (mask t) = some 0 →
    ∃ items : List Item, items ≠ [] ∧ (∀ i ∈ items, i.Proper) ∧ written items = t
  | t, hclosed, hlevel => by
    rcases flat_or_exists_sep ',' 0 (mask t) with hflat | ⟨a', b', hmask, hflat, hdepth⟩
    · obtain ⟨i, hi, rfl⟩ := Item.exists_proper hclosed hlevel hflat
      exact ⟨[i], by simp, by simpa using hi, rfl⟩
    · obtain ⟨a, b, ht, ha, rfl, rfl⟩ := exists_code hmask (by decide) (by decide)
      have hb : Closed b := by
        rw [ht] at hclosed
        exact (ha.append_iff (b := ',' :: b)).1 hclosed
      rw [hmask, level?_append] at hlevel
      obtain ⟨k, hk, hrest⟩ := Option.bind_eq_some_iff.1 hlevel
      obtain rfl : k = 0 := (foldl_step_of_level? hk).symm.trans hdepth
      obtain ⟨i, hi, rfl⟩ := Item.exists_proper ha hk hflat
      obtain ⟨items, hne, hitems, rfl⟩ := exists_items b hb hrest
      obtain ⟨j, items, rfl⟩ := exists_cons_of_ne_nil hne
      refine ⟨i :: j :: items, by simp, fun x hx => ?_, (written_cons i j items).trans ht.symm⟩
      rcases mem_cons.1 hx with rfl | hx
      · exact hi
      · exact hitems x hx
  termination_by t => t.length

/-- Trimming the places of the items gives the cores. -/
theorem map_trimSpan_places (h : ∀ i ∈ items, i.Proper) (front back : Text) {m : Nat}
    (hn : m + n = front.size) :
    (places m items).map (fun s => (front ++ written items ++ back).trimSpan (s.shift n)) =
      cores (m + n) items := by
  induction items generalizing front m with
  | nil => rfl
  | cons i items ih =>
    have hi := h i (by simp)
    have hshift : Span.shift ⟨m, m + i.text.size⟩ n = ⟨m + n, m + n + i.text.size⟩ := by
      simp [Span.shift, Nat.add_right_comm]
    cases items with
    | nil =>
      have htrim := hi.trimSpan_eq back hn
      simp only [places, map_cons, map_nil, cores, hshift]
      exact congrArg (· :: []) htrim
    | cons j items =>
      have hfirst := hi.trimSpan_eq (',' :: written (j :: items) ++ back) hn
      have hnext :=
        ih (forall_mem_cons.1 h).2 (front ++ i.text ++ [',']) (m := m + i.text.size + 1) (by
          rw [size_append, size_append, ← hn]
          show m + i.text.size + 1 + n = m + n + i.text.size + 1
          omega)
      rw [places, map_cons, hshift, written_cons]
      simp only [append_assoc, cons_append, nil_append] at hfirst hnext ⊢
      rw [hnext]
      congr 2
      omega

theorem itemsIn_written (hne : items ≠ []) (h : ∀ i ∈ items, i.Proper) (front back : Text)
    (hn : n = front.size) :
    itemsIn (front ++ written items ++ back) ⟨n, n + (written items).size⟩ ',' = cores n items := by
  have hslice : (front ++ written items ++ back).slice ⟨n, n + (written items).size⟩
      = written items := slice_append _ _ _ hn (by rw [hn])
  have htrim := map_trimSpan_places h front back (m := 0) (n := n) (by omega)
  rw [itemsIn, hslice, splitTop, splitTopFrom_written hne h, htrim, Nat.zero_add]

theorem slice_core (front : Text) (i : Item) (items : List Item) (back : Text)
    (hn : n = front.size) :
    (front ++ (written (i :: items) ++ back)).slice
      ⟨n + i.lead.size, n + i.lead.size + i.core.size⟩ = i.core := by
  obtain ⟨rest, hrest⟩ : ∃ rest, written (i :: items) ++ back = i.text ++ rest := by
    cases items with
    | nil => exact ⟨back, rfl⟩
    | cons j items => exact ⟨',' :: written (j :: items) ++ back, by rw [written_cons]; simp⟩
  have hsplit : front ++ (i.text ++ rest) = front ++ i.lead ++ i.core ++ (i.trail ++ rest) := by
    simp [Item.text]
  rw [hrest, hsplit]
  exact slice_append _ _ _ (by simp [hn]) (by simp [hn])

theorem map_slice_cores (front : Text) (items : List Item) (back : Text) (hn : n = front.size) :
    (cores n items).map (front ++ (written items ++ back)).slice = items.map Item.core := by
  induction items generalizing front n with
  | nil => rfl
  | cons i items ih =>
    rw [cores, map_cons, map_cons, slice_core front i items back hn]
    cases items with
    | nil => rfl
    | cons j items =>
      have hnext := ih (front ++ i.text ++ [',']) (n := n + i.text.size + 1) (by
        rw [size_append, size_append, hn]
        rfl)
      rw [← hnext, written_cons]
      simp

/-! ### Exchanging cores -/

/-- The item with another core, if one is wanted. -/
def Item.exchange (i : Item) (want : Option Text) : Item := { i with core := want.getD i.core }

/-- The edit that makes the text at a span read what is wanted, if it does not yet. -/
def exchange? (t : Text) (s : Span) (want : Option Text) : Option Edit :=
  want.bind fun w => if t.slice s = w then none else some ⟨s, w⟩

/-- The items, each changed by what stands beside it; those with nothing beside them stay. -/
def overlay (g : α → Item → Item) : List α → List Item → List Item
  | a :: as, i :: items => g a i :: overlay g as items
  | _, items => items

theorem overlay_nil (g : α → Item → Item) (as : List α) : overlay g as [] = [] := by
  cases as <;> rfl

theorem length_overlay (g : α → Item → Item) (as : List α) (items : List Item) :
    (overlay g as items).length = items.length := by
  fun_induction overlay g as items with
  | case1 a as i items ih => rw [length_cons, length_cons, ih]
  | case2 => rfl

theorem getElem?_overlay (g : α → Item → Item) (as : List α) (items : List Item) (k : Nat) :
    (overlay g as items)[k]? = items[k]?.map fun i => as[k]?.elim i (g · i) := by
  fun_induction overlay g as items generalizing k with
  | case1 a as i items ih =>
    cases k with
    | zero => rfl
    | succ k => simpa using ih k
  | case2 as items h =>
    cases as with
    | nil => simp
    | cons a as =>
      cases items with
      | nil => rfl
      | cons i items => exact absurd rfl (h a as i items rfl)

theorem overlay_eq_zipWith (g : α → Item → Item) {as : List α} (h : as.length = items.length) :
    overlay g as items = as.zipWith g items := by
  induction as generalizing items with
  | nil =>
    obtain rfl := length_eq_zero_iff.1 h.symm
    rfl
  | cons a as ih =>
    obtain ⟨i, items, rfl⟩ := exists_cons_of_length_eq_add_one h.symm
    rw [overlay, zipWith_cons_cons, ih (Nat.succ.inj h)]

theorem weave_item {i' : Item} {edit : Option Edit} {r : Text} {edits : List Edit}
    (hedit : edit = none ∧ i' = i ∨ ∃ w,
      edit = some ⟨⟨n + i.lead.size, n + i.lead.size + i.core.size⟩, w⟩ ∧ i' = { i with core := w })
    (hlt : ∀ e ∈ edits, n + i.lead.size < e.span.start)
      (h : Edit.Weave (n + i.text.size) rest edits r) :
    Edit.Weave n (i.text ++ rest) (edit.toList ++ edits) (i'.text ++ r) := by
  have hsize : n + i.text.size = n + i.lead.size + i.core.size + i.trail.size := by
    simp [Item.text, Nat.add_assoc]
  rw [hsize] at h
  have htrail := Edit.Weave.keep i.trail h
  rcases hedit with ⟨rfl, hi⟩ | ⟨w, rfl, rfl⟩
  · simpa [Item.text, hi] using Edit.Weave.keep i.lead (Edit.Weave.keep i.core htrail)
  · simpa [Item.text] using Edit.Weave.keep i.lead (Edit.Weave.make i.core w hlt htrail)

/-- Edits that each exchange a core or do nothing make a weave over a list of items. -/
theorem weave_overlay {f : α → Span → Option Edit} {g : α → Item → Item}
    (hf : ∀ a i s, t.slice s = i.core →
      f a s = none ∧ g a i = i ∨ ∃ w, f a s = some ⟨s, w⟩ ∧ g a i = { i with core := w })
      (as : List α)
    (front back : Text) (ht : t = front ++ (written items ++ back)) (hn : n = front.size) :
    Edit.Weave n (written items) ((as.zip (cores n items)).filterMap fun (a, s) => f a s)
      (written (overlay g as items)) := by
  induction items generalizing as front n with
  | nil =>
    rw [overlay_nil, cores, zip_nil_right]
    exact .rest n []
  | cons i items ih =>
    cases as with
    | nil => exact .rest n _
    | cons a as =>
      have hcore : t.slice ⟨n + i.lead.size, n + i.lead.size + i.core.size⟩ = i.core := by
        rw [ht]
        exact slice_core front i items back hn
      have hzip : ((a :: as).zip (cores n (i :: items))).filterMap (fun (a, s) => f a s)
          = (f a ⟨n + i.lead.size, n + i.lead.size + i.core.size⟩).toList
            ++ (as.zip (cores (n + i.text.size + 1) items)).filterMap fun (a, s) => f a s := by
        rw [cores]
        cases h : f a ⟨n + i.lead.size, n + i.lead.size + i.core.size⟩ <;> simp [h]
      rw [hzip, overlay]
      cases items with
      | nil =>
        have hlast := weave_item (hf a i _ hcore) (by simp) (.rest (n + i.text.size) [])
        simpa [written, join, cores, overlay_nil] using hlast
      | cons j items =>
        have hnext := ih as (front ++ i.text ++ [',']) (n := n + i.text.size + 1)
          (by rw [ht, written_cons]; simp) (by rw [size_append, size_append, hn]; rfl)
        have hlt : ∀ e ∈ (as.zip (cores (n + i.text.size + 1) (j :: items))).filterMap
            (fun (a, s) => f a s), n + i.lead.size < e.span.start := by
          intro e he
          have hle := hnext.le_start e he
          have hlead : i.lead.size ≤ i.text.size := by simp [Item.text]
          omega
        have hitem := weave_item (hf a i _ hcore) hlt (Edit.Weave.keep [','] hnext)
        obtain ⟨x, rest, hrest⟩ : ∃ x rest, overlay g as (j :: items) = x :: rest := by
          cases as <;> exact ⟨_, _, rfl⟩
        rw [hrest] at hitem ⊢
        rw [written_cons, written_cons]
        exact hitem

/-- Putting the wanted cores into a list of items is a weave of edits. -/
theorem weave_exchange (want : α → Option Text) {places : List α}
    (hlen : places.length = items.length) (front back : Text)
    (ht : t = front ++ (written items ++ back)) (hn : n = front.size) :
    Edit.Weave n (written items)
      ((places.zip (cores n items)).filterMap fun (a, s) => exchange? t s (want a))
      (written (places.zipWith (fun a i => i.exchange (want a)) items)) := by
  rw [← overlay_eq_zipWith _ hlen]
  refine weave_overlay (f := fun a s => exchange? t s (want a)) (fun a i s hs => ?_) places front
    back ht hn
  cases want a with
  | none => exact .inl ⟨rfl, rfl⟩
  | some w =>
    by_cases hw : i.core = w
    · exact .inl ⟨by simp [exchange?, hs, hw], by simp [Item.exchange, ← hw]⟩
    · exact .inr ⟨w, by simp [exchange?, hs, hw], rfl⟩

end Recast.Nesting
