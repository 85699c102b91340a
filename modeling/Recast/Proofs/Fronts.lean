import Recast.Pass.Run
import Recast.Proofs.Comparisons

/-!
# What a statement starts with

Passes edit a statement where they find a word, and none of the words that they look for
(`searched`) can be read at a place inside a front such as `INSERT` (`clashes`). A front that no
name goes on (`Kept`) is not read into from behind either, so whatever a pass does to such a
statement happens behind the front and the character after it.
-/

namespace Recast

open Literal Cursor List Text
open Option hiding guard

variable {first front q r t w word : Text} {c d : Cursor} {n offset : Nat} {list s : Span}
  {catalog : Catalog} {f : Char → Char} {others : List Text}

/-! ### Cuts behind a front -/

namespace Text

variable {front t : Text}

theorem prefix_dropEnd {p : Char → Bool} (h : front <+: t)
    (hlast : ∀ c, front.getLast? = some c → p c = false) : front <+: dropEnd p t := by
  obtain ⟨r, rfl⟩ := h
  exact ⟨dropEnd p r, (dropEnd_append_of_last hlast r).symm⟩

theorem le_trimSpan (t : Text) (s : Span) : s.start ≤ (t.trimSpan s).start := Nat.le_add_right _ _

end Text

/-! ### Words that cannot be read in a front -/

/-- Whether a word, looked at by `f`, differs from a text at one of the places they share. -/
def clashesAt (f : Char → Char) : Text → Text → Bool
  | a :: t, b :: word => f a != f b || clashesAt f t word
  | _, _ => false

/-- Whether a word, looked at by `f`, can be read at no place of a front, whatever follows. -/
def clashes (f : Char → Char) : Text → Text → Bool
  | [], _ => true
  | a :: front, word => clashesAt f (a :: front) word && clashes f front word

theorem false_of_clashesAt (h : clashesAt f t word) (hcut : t ++ r = w ++ q)
    (hw : w.map f = word.map f) : False := by
  induction t generalizing word w with
  | nil => cases h
  | cons a t ih =>
    cases word with
    | nil => cases h
    | cons b word =>
      obtain ⟨c, w, rfl, hc, hrest⟩ := map_eq_cons_iff.1 hw
      obtain ⟨rfl, htail⟩ := cons.inj hcut
      rw [clashesAt, hc] at h
      simp only [bne_self_eq_false, Bool.false_or] at h
      exact ih h htail hrest

/-- A word that clashes with a front does not start inside it. -/
theorem size_le_of_clashes {m p : Text} (h : clashes f front word) (hfront : front <+: m)
    (hm : m = p ++ (w ++ q)) (hw : w.map f = word.map f) : front.size ≤ p.size := by
  obtain ⟨r, rfl⟩ := hfront
  rcases append_eq_append_iff.1 hm with ⟨u, rfl, -⟩ | ⟨u, rfl, hu⟩
  · rw [size_append]
    omega
  · induction p with
    | nil =>
      cases u with
      | nil => exact Nat.le_refl _
      | cons a u =>
        rw [nil_append, clashes, Bool.and_eq_true] at h
        exact (false_of_clashesAt h.1 hu.symm hw).elim
    | cons c p ih =>
      rw [cons_append, clashes, Bool.and_eq_true] at h
      have hle := ih h.2 (by simpa using (cons.inj hm).2)
      rw [cons_append, size_cons, size_cons]
      omega

theorem clashesAt_congr (h : t.map f = w.map f) (word : Text) :
    clashesAt f t word = clashesAt f w word := by
  induction t generalizing w word with
  | nil =>
    obtain rfl := map_eq_nil_iff.1 h.symm
    rfl
  | cons a t ih =>
    obtain ⟨b, w, rfl, hb, hw⟩ := map_eq_cons_iff.1 h.symm
    cases word with
    | nil => rfl
    | cons x word => rw [clashesAt, clashesAt, hb, ih hw.symm]

theorem clashes_congr (h : t.map f = w.map f) (word : Text) :
    clashes f t word = clashes f w word := by
  induction t generalizing w with
  | nil =>
    obtain rfl := map_eq_nil_iff.1 h.symm
    rfl
  | cons a t ih =>
    obtain ⟨b, w, rfl, hb, hw⟩ := map_eq_cons_iff.1 h.symm
    rw [clashes, clashes, clashesAt_congr h, ih hw.symm]

/-- A word that clashes with two texts clashes with both together. -/
theorem clashes_append (ht : clashes f t word) (hw : clashes f w word) :
    clashes f (t ++ w) word := by
  have hat {t word : Text} (h : clashesAt f t word) : clashesAt f (t ++ w) word := by
    induction t generalizing word with
    | nil => cases h
    | cons a t ih =>
      cases word with
      | nil => cases h
      | cons b word =>
        simp only [clashesAt, cons_append, Bool.or_eq_true] at h ⊢
        exact h.imp_right ih
  induction t with
  | nil => exact hw
  | cons a t ih =>
    rw [clashes, Bool.and_eq_true] at ht
    rw [cons_append, clashes, ← cons_append, hat ht.1, ih ht.2]
    rfl

theorem clashes_of_head {x : Char} (h : ∀ c ∈ t, f c ≠ f x) (word : Text) :
    clashes f t (x :: word) := by
  induction t with
  | nil => rfl
  | cons a t ih => simp [clashes, clashesAt, h a, ih (forall_mem_cons.1 h).2]

/-! ### Fronts that stay -/

/-- Characters that names are made of, quoted ones included. -/
def isNaming (c : Char) : Bool := isNameChar c || c == '\x60'

/-- Characters with which no name goes on, in whatever case. -/
def isApart (c : Char) : Bool := !isNaming (foldChar c)

/-- The text starts with the front, and no name goes on with it. -/
def Kept (front t : Text) : Prop := ∃ r, t = front ++ r ∧ r.head?.all isApart

/-- The place is behind the front and the character after it. -/
def Behind (front t : Text) (n : Nat) : Prop := ∃ x r, t = front ++ x :: r ∧ size (front ++ [x]) ≤ n

theorem Behind.mono (h : Behind front t n) (hle : n ≤ offset) : Behind front t offset := by
  obtain ⟨x, r, ht, hn⟩ := h
  exact ⟨x, r, ht, Nat.le_trans hn hle⟩

theorem Behind.before_append (h : Behind front t n) (z : Text) :
    ∃ x r r', t = front ++ x :: r ∧ t.before n ++ z = front ++ x :: r' := by
  obtain ⟨x, r, rfl, hn⟩ := h
  obtain ⟨r', hr'⟩ := prefix_before (t := front ++ x :: r) ⟨r, by simp⟩ hn
  exact ⟨x, r, r' ++ z, rfl, by rw [← hr']; simp⟩

/-- A change behind the front leaves the places where they are. -/
theorem Behind.change (h : Behind front t n) (hn : Behind front t offset) (z : Text) :
    Behind front (t.before offset ++ z) n := by
  obtain ⟨x, r, r', ht, ht'⟩ := hn.before_append z
  obtain ⟨y, q, hy, hle⟩ := h
  obtain ⟨rfl, -⟩ := cons.inj (append_cancel_left (ht.symm.trans hy))
  exact ⟨x, r', ht', hle⟩

namespace Kept

variable (h : Kept front t)

include h

theorem before_append (hn : Behind front t n) (z : Text) : Kept front (t.before n ++ z) := by
  obtain ⟨x, r, r', rfl, ht'⟩ := hn.before_append z
  obtain ⟨q, hq, hapart⟩ := h
  obtain rfl := append_cancel_left hq
  exact ⟨x :: r', ht', hapart⟩

theorem splice (hs : Behind front t s.start) (new : Text) : Kept front (t.splice s new) := by
  rw [Text.splice, append_assoc]
  exact h.before_append hs _

theorem insertAt (hn : Behind front t n) (new : Text) : Kept front (t.insertAt n new) := by
  rw [Text.insertAt, append_assoc]
  exact h.before_append hn _

theorem dropEnd {p : Char → Bool} (hlast : ∀ c, front.getLast? = some c → p c = false) :
    Kept front (dropEnd p t) := by
  obtain ⟨r, rfl, hr⟩ := h
  obtain ⟨b, hb, -⟩ := exists_dropEnd p r
  refine ⟨dropEnd p r, dropEnd_append_of_last hlast r, ?_⟩
  cases hd : dropEnd p r with
  | nil => rfl
  | cons x d =>
    rw [hb, hd] at hr
    exact hr

theorem applyAll {edits : List Edit}
    (hedits : ∀ e ∈ edits, ∀ z, Kept front (t.before e.span.start ++ (e.new ++ z))) :
    Kept front (Edit.applyAll t edits) := by
  rcases Edit.applyAll_cases t edits with heq | ⟨e, he, r, heq⟩
  · rwa [heq]
  · rw [heq]
    exact hedits e he r

theorem getD {o : Option Text} (ho : ∀ r, o = some r → Kept front r) : Kept front (o.getD t) := by
  cases o with
  | none => exact h
  | some r => exact ho r rfl

/-- Changes one after the other, each from a place on that was found before. -/
theorem foldl {f : Text → β → Option Text} {l : List β} (place : β → Nat)
    (hl : ∀ b ∈ l, Behind front t (place b))
    (hstep : ∀ b ∈ l, ∀ t r, f t b = some r → ∃ z, r = t.before (place b) ++ z) :
    Kept front (l.foldl (fun t b => (f t b).getD t) t) := by
  induction l generalizing t with
  | nil => exact h
  | cons b l ih =>
    refine ih ?_ ?_ fun x hx => hstep x (mem_cons_of_mem b hx)
    · refine h.getD fun r hr => ?_
      obtain ⟨z, rfl⟩ := hstep b (by simp) t r hr
      exact h.before_append (hl b (by simp)) z
    · intro x hx
      have hplace := hl x (mem_cons_of_mem b hx)
      show Behind front ((f t b).getD t) (place x)
      cases hr : f t b with
      | none => exact hplace
      | some r =>
        obtain ⟨z, rfl⟩ := hstep b (by simp) t r hr
        exact hplace.change (hl b (by simp)) z

end Kept

/-! ### The words that passes look for -/

/-- The words with which passes start to read. -/
def searched : List Text :=
  ["DATE_ADD(", "DATE_SUB(", "IF(", "IF (", "from_unixtime", "unix_timestamp", "NOW",
    "dayofmonth", "FROM",
    FoundRows.marker, FoundRows.call, "LIMIT", "UPDATE", "ORDER", "GROUP", "WHERE",
      "LAST_INSERT_ID()", "USE", ['\x60']]

/-- A front that ends in a name and that none of the words can be read in. -/
structure Firm (front : Text) : Prop where
  code : Code front
  last : ∀ c, front.getLast? = some c → isNameChar c
  signs : ∀ c ∈ front, foldChar c ∉ ['!', '<', '=', ')']
  fold : ∀ word ∈ searched, clashes foldChar front word
  lower : ∀ word ∈ searched, clashes Char.toLower front word

def verb : Text := "INSERT"

theorem firm_verb : Firm verb where
  code := by decide
  last := by decide
  signs := by decide
  fold := by decide
  lower := by decide

/-! ### Where clauses start -/

theorem exists_of_mem_mapM {f : α → Option β} {l : List α} {l' : List β} (h : l.mapM f = some l')
    {b : β} (hb : b ∈ l') : ∃ a ∈ l, f a = some b := by
  induction l generalizing l' with
  | nil =>
    cases h
    cases hb
  | cons a l ih =>
    rw [mapM_cons] at h
    obtain ⟨c, hc, rest, hrest, h⟩ := of_bind₂ h
    cases h
    rcases mem_cons.1 hb with rfl | hb
    · exact ⟨a, by simp, hc⟩
    · obtain ⟨x, hx, hfx⟩ := ih hrest hb
      exact ⟨x, by simp [hx], hfx⟩

/-- A clause starts where the word LIMIT is read. -/
theorem Limit.start_of_clause? {l : Clause} (h : clause? c = some (l, d)) :
    l.start = c.offset ∧ ∃ e, c.word? "LIMIT" = some e := by
  obtain ⟨_, -, e, he, _, -, ⟨first, f⟩, -, h⟩ := of_bind₄ h
  obtain ⟨_, -, h⟩ := bind_eq_some_iff.1 h
  refine ⟨?_, e, he⟩
  cases h
  split <;> rfl

theorem Nesting.le_start_of_mem_itemsIn {sep : Char} (h : s ∈ Nesting.itemsIn t list sep) :
    list.start ≤ s.start := by
  obtain ⟨r, -, rfl⟩ := mem_map.1 h
  refine Nat.le_trans ?_ (le_trimSpan t _)
  exact Nat.le_add_left _ _

theorem Ordering.le_start_of_termOf (t : Text) (s : Span) : s.start ≤ (termOf t s).expr.start := by
  rw [termOf]
  split
  · next direction _ =>
    exact le_trimSpan t ⟨s.start, s.start + ((t.slice s).size - (direction.size + 1))⟩
  · exact Nat.le_refl _

/-- No literal starts in a stretch of code. -/
theorem spansFrom_of_no_quote (hw : Code w) (r : Text) (n : Nat) :
    spansFrom n none (shadeFrom none (w ++ r)) = spansFrom (n + w.size) none
      (shadeFrom none r) := by
  induction w generalizing n with
  | nil => rfl
  | cons c w ih =>
    have hc := hw c (by simp)
    rw [cons_append, shadeFrom, if_neg (by simp [hc])]
    show spansFrom (n + c.utf8Size) none (shadeFrom none (w ++ r)) = _
    rw [ih (forall_mem_cons.1 hw).2, size_cons, Nat.add_assoc]

namespace Grouping

/-- A clause starts where the word GROUP is read. -/
theorem start_of_keyClause? {k : KeyClause} (h : keyClause? c = some (k, d)) :
    k.span.start = c.offset ∧ ∃ e, c.word? "GROUP" = some e := by
  obtain ⟨_, -, e, he, _, -, _, -, h⟩ := of_bind₄ h
  obtain ⟨_, -, _, -, _, -, h⟩ := of_bind₃ h
  obtain ⟨_, -, _, -, h⟩ := of_bind₂ h
  cases h
  exact ⟨rfl, e, he⟩

/-- The clauses that the pass looks for, and where it changes something. -/
theorem exists_of_orderByAliases? (hr : orderByAliases? t = some r) :
    ∃ select source group order edits, Keyword.findTop? (mask t) ["SELECT"] 0 = some select ∧
      Keyword.findTop? (mask t) ["FROM"] select.stop = some source ∧
      Keyword.findTop? (mask t) ["GROUP", "BY"] source.stop = some group ∧
      Keyword.findTop? (mask t) ["ORDER", "BY"] group.stop = some order ∧
      r = Edit.applyAll t edits ∧ ∀ e ∈ edits, order.stop ≤ e.span.start := by
  obtain ⟨select, hselect, source, hsource, group, hgroup, order, horder, hr⟩ := of_bind₄ hr
  obtain ⟨_, -, edits, hedits, hr⟩ := of_bind₂ hr
  cases hr
  refine ⟨select, source, group, order, _, hselect, hsource, hgroup, horder, rfl, fun e he => ?_⟩
  obtain ⟨o, ho, heq⟩ := mem_filterMap.1 he
  obtain ⟨s, hs, hnew⟩ := exists_of_mem_mapM hedits ho
  obtain ⟨new, -, hnew⟩ := bind_eq_some_iff.1 hnew
  cases hnew
  obtain ⟨n, -, rfl⟩ := map_eq_some_iff.1 heq
  exact Nesting.le_start_of_mem_itemsIn (mem_filter.1 hs).1

end Grouping

theorem Text.replaceWord_cons {x : Char} {old : Text} (h : ¬ old <+: x :: t) (new : Text) :
    replaceWord (x :: t) old new = x :: replaceWord t old new := by
  rw [replaceWord, replaceWordFrom, if_neg (by rwa [ isPrefixOf_iff_prefix])]
  rfl

theorem naming_searched : ∀ word ∈ searched,
    (word.head?.any fun x => isNaming (foldChar x)) ∧ word.head?.any fun x =>
      isNaming x.toLower := by
  decide

theorem isApart_of_toLower {x : Char} (hx : isNaming x.toLower) : isApart x = false :=
  of_ascii (P := fun c => isNaming c.toLower → isApart c = false) x (by decide)
    (fun hle hc hlow _ hx => by
      rw [hlow, isNaming, isNameChar, hc, Bool.false_or, Bool.or_eq_true, beq_iff_eq,
        beq_iff_eq] at hx
      rcases hx with rfl | rfl <;> exact absurd hle (by decide)) hx

section

variable {t : Text} (hfront : Firm front) (h : Kept front t)

include hfront h

/-- A place behind the front is its very end, or behind the next character. -/
theorem eq_or_behind {p : Text} (hm : mask t = p ++ q) (hle : front.size ≤ p.size) :
    p = front ∧ q.head?.all isApart ∨ Behind front t p.size := by
  obtain ⟨r, rfl, hr⟩ := h
  rw [hfront.code.mask_append] at hm
  obtain ⟨u, rfl, hu⟩ := exists_append_of_size_le hm hle
  have hhead := head?_mask r
  rw [hu] at hhead
  cases u with
  | nil => exact .inl ⟨append_nil front, by rw [← hhead] at hr; exact hr⟩
  | cons y u =>
    cases r with
    | nil => cases hhead
    | cons z r =>
      obtain rfl : y = z := some.inj hhead
      exact .inr ⟨y, r, rfl, by simp only [size_append, size_cons, size_nil]; omega⟩

/-- A word that starts as names do, and clashes with the front, is read behind it. -/
theorem behind_of_map {p : Text} (hf : ∀ x, isNaming (f x) → isApart x = false)
    (hclash : clashes f front word) (hname : word.head?.any fun x => isNaming (f x))
    (hm : mask t = p ++ (w ++ q)) (hw : w.map f = word.map f) : Behind front t p.size := by
  have hprefix : front <+: mask t := by
    obtain ⟨r, rfl, -⟩ := h
    rw [hfront.code.mask_append]
    exact prefix_append _ _
  refine (eq_or_behind hfront h hm (size_le_of_clashes hclash hprefix hm hw)).resolve_left ?_
  rintro ⟨-, hapart⟩
  cases word with
  | nil => cases hname
  | cons x word =>
    obtain ⟨y, w, rfl, hy, -⟩ := map_eq_cons_iff.1 hw
    have hy := hf y (by rw [hy]; simpa using hname)
    simp [hy] at hapart

theorem behind_of_fold {p : Text} (hword : word ∈ searched) (hm : mask t = p ++ (w ++ q))
    (hw : w.map foldChar = word.map foldChar) : Behind front t p.size :=
  behind_of_map hfront h (fun x hx => by simp [isApart, hx]) (hfront.fold word hword)
    (naming_searched word hword).1 hm hw

theorem behind_of_lower {p : Text} (hword : word ∈ searched) (hm : mask t = p ++ (w ++ q))
    (hw : lower w = lower word) : Behind front t p.size :=
  behind_of_map hfront h (fun _ => isApart_of_toLower) (hfront.lower word hword)
    (naming_searched word hword).2 hm hw

theorem behind_of_word? (hword : word ∈ searched) (hc : At (mask t) c)
    (hd : c.word? word = some d) : Behind front t c.offset := by
  obtain ⟨p, hm, hoffset, -⟩ := hc
  obtain ⟨w, hw, hfold⟩ := word?_reads hd
  rw [hw.rest] at hm
  rw [hoffset]
  exact behind_of_fold hfront h hword hm hfold

theorem behind_of_mem_occurrences (hword : word ∈ searched)
    (hn : n ∈ Keyword.occurrences (mask t) word) : Behind front t n := by
  obtain ⟨c, d, ⟨p, hm, hoffset, -⟩, rfl, -, hplain⟩ := at_of_mem_occurrences hn
  obtain ⟨w, hw, hlower, -⟩ := plain?_reads hplain
  rw [hw.rest] at hm
  rw [hoffset]
  exact behind_of_lower hfront h hword hm hlower

theorem behind_of_mem_phrases {wanted : Nat → Bool} (hword : first ∈ searched)
    (hs : s ∈ Keyword.phrases wanted (mask t) (first :: others) offset) :
    Behind front t s.start ∧ s.start ≤ s.stop := by
  obtain ⟨-, u, c, d, e, -, ⟨p, hm, hc, -⟩, hd, he, rfl, -⟩ := at_of_mem_phrases hs
  obtain ⟨w, hw, hlower, -⟩ := here?_reads hd
  obtain ⟨v, hv⟩ := rest?_reads he
  refine ⟨?_, (hw.trans hv).le⟩
  show Behind front t c.offset
  rw [hw.rest] at hm
  rw [hc]
  exact behind_of_lower hfront h hword hm hlower

theorem behind_of_findTop? (hword : first ∈ searched)
    (hs : Keyword.findTop? (mask t) (first :: others) offset = some s) :
    Behind front t s.start ∧ s.start ≤ s.stop :=
  behind_of_mem_phrases hfront h hword (mem_of_mem_head? hs)

theorem behind_of_find? (hword : word ∈ searched)
    (hn : Keyword.find? (mask t) word offset = some n) : Behind front t n := by
  obtain ⟨p, w, q, hm, rfl, hlower⟩ := Keyword.exists_of_find? hn
  exact behind_of_lower hfront h hword hm hlower

theorem kept_replaceAll (hword : word ∈ searched) (new : Text) :
    Kept front (Edit.replaceAll t word new) := by
  refine h.applyAll fun e he z => ?_
  obtain ⟨n, hn, rfl⟩ := mem_map.1 he
  exact h.before_append (behind_of_mem_occurrences hfront h hword hn) _

theorem kept_replaceClauses {clause : Cursor → Option (Edit × Cursor)}
    (hclause : ∀ c d e, clause c = some (e, d) →
      e.span.start = c.offset ∧ ∃ word f, c.word? word = some f ∧ word ∈ searched) :
    Kept front (Edit.replaceClauses t clause) := by
  refine h.applyAll fun e he z => ?_
  obtain ⟨c, d, hc, hread⟩ := at_of_mem_findAll he
  obtain ⟨hstart, word, f, hf, hword⟩ := hclause c d e hread
  rw [hstart]
  exact h.before_append (behind_of_word? hfront h hword hc hf) _

/-! ### Pass by pass -/

namespace Functions

theorem kept_dateArithmetic : Kept front (dateArithmetic t) := by
  refine h.foldl (f := fun t (call : Nat × Direction) => dateCall? t call.2 call.1) Prod.fst
    (fun call hcall => ?_) fun call _ t r hr => ?_
  · obtain ⟨direction, -, hcall⟩ := mem_flatMap.1 (mem_sortedBy.1 hcall)
    obtain ⟨n, hn, rfl⟩ := mem_map.1 hcall
    refine behind_of_mem_occurrences hfront h ?_ (mem_filter.1 hn).1
    cases direction <;> decide
  · obtain ⟨⟨args, close⟩, -, hr⟩ := bind_eq_some_iff.1 hr
    simp only at hr
    split at hr
    · obtain ⟨i, -, hr⟩ := bind_eq_some_iff.1 hr
      cases hr
      exact ⟨_, append_assoc ..⟩
    · cases hr

theorem kept_conditionals : Kept front (conditionals t) := by
  refine h.foldl id (fun n hn => ?_) fun n _ t r hr => ?_
  · rcases mem_append.1 (mem_sortedBy.1 hn) with hn | hn
    · exact behind_of_mem_occurrences hfront h (by decide) (mem_filter.1 hn).1
    · exact behind_of_mem_occurrences hfront h (by decide) (mem_filter.1 hn).1
  · obtain ⟨opening, -, ⟨args, close⟩, -, hr⟩ := of_bind₂ hr
    simp only at hr
    split at hr
    · obtain ⟨_, -, hr⟩ := bind_eq_some_iff.1 hr
      cases hr
      exact ⟨_, append_assoc ..⟩
    · cases hr

/-- The current time is put in behind the front. -/
theorem kept_currentTime : Kept front (currentTime t) := by
  have hunix : Kept front (Edit.replaceClauses t unixTime?) := by
    refine kept_replaceClauses hfront h fun c d e hread => ?_
    obtain ⟨_, -, f, hf, _, -, hread⟩ := of_bind₃ hread
    cases hread
    obtain ⟨word, hword, hf⟩ := exists_of_findSome?_eq_some hf
    have hall : ∀ word ∈ (["from_unixtime", "unix_timestamp"] : List Text), word ∈ searched := by
      decide
    exact ⟨rfl, word, f, hf, hall word hword⟩
  have hnow : Kept front (Edit.replaceClauses (Edit.replaceClauses t unixTime?) nowCall?) := by
    refine kept_replaceClauses hfront hunix fun c d e hread => ?_
    obtain ⟨_, -, f, hf, _, -, _, -, hread⟩ := of_bind₄ hread
    cases hread
    exact ⟨rfl, _, f, hf, by decide⟩
  rw [currentTime]
  generalize Edit.replaceClauses (Edit.replaceClauses t unixTime?) nowCall? = u at hnow
  have hday : Kept front (Edit.replaceClauses u (dayOfMonth? u)) := by
    refine kept_replaceClauses hfront hnow fun c d e hread => ?_
    obtain ⟨_, -, f, hf, _, -, hread⟩ := of_bind₃ hread
    cases hread
    exact ⟨rfl, _, f, hf, by decide⟩
  split
  · exact hday
  · split
    · next s hs => exact hday.insertAt (behind_of_findTop? hfront hday (by decide) hs).1 _
    · exact hday

end Functions

theorem FoundRows.kept_apply (previous : Option Text) :
    Kept front (FoundRows.apply previous t) := by
  have hunmark : Kept front ((unmark? t).getD t) := by
    refine h.getD fun r hr => ?_
    obtain ⟨n, hn, s, -, hr⟩ := of_bind₂ hr
    cases hr
    exact h.splice (behind_of_find? hfront h (by decide) hn) _
  rw [FoundRows.apply]
  split
  · exact kept_replaceAll hfront hunmark (by decide) _
  · exact hunmark

theorem Limit.kept_insertTop (hword : word ∈ searched) (top : Text) :
    Kept front (insertTop t .update word top) := by
  rw [insertTop]
  cases hn : Keyword.find? (mask t) word 0 with
  | none => exact h
  | some n => exact h.insertAt ((behind_of_find? hfront h hword hn).mono (Nat.le_add_right ..)) top

/-- A limit leaves the front, if TOP does. -/
theorem Limit.kept_apply {d : Draft} (ht : d.text = t)
    (htop : ∀ n verb top, top? n d.kind = some (verb, top) → ∀ u, Kept front u →
      Kept front (insertTop u d.kind verb top)) : Kept front (apply d).text := by
  subst ht
  rw [apply]
  cases hlimited : limited? d with
  | none => exact h
  | some e =>
    obtain ⟨_, -, clause, hclause, _, -, w, -, hlimited⟩ := of_bind₄ hlimited
    have hbehind : Behind front d.text clause.start := by
      obtain ⟨c, f, hc, hread⟩ := at_of_mem_findAll (mem_of_mem_head? hclause)
      obtain ⟨hstart, g, hg⟩ := start_of_clause? hread
      rw [hstart]
      exact behind_of_word? hfront h (by decide) hc hg
    have hbefore := h.before_append hbehind []
    rw [append_nil] at hbefore
    have hstripped := hbefore.dropEnd fun c hc => isBlank_of_isNameChar (hfront.last c hc)
    split at hlimited
    · obtain ⟨⟨verb, top⟩, hverb, hlimited⟩ := bind_eq_some_iff.1 hlimited
      cases hlimited
      exact htop _ verb top hverb _ hstripped
    · obtain ⟨_, -, hlimited⟩ := bind_eq_some_iff.1 hlimited
      cases hlimited
      exact hstripped

namespace Ordering

theorem behind_of_list? (hlist : list? (mask t) = some list) : Behind front t list.start := by
  obtain ⟨clause, hclause, _, -, hlist⟩ := of_bind₂ hlist
  cases hlist
  obtain ⟨hbehind, hle⟩ := behind_of_mem_phrases hfront h (by decide) (mem_of_getLast? hclause)
  exact hbehind.mono (Nat.le_trans hle
    (le_trimSpan (mask t) ⟨clause.stop, (trimEnd (dropEnd (· == ';') (mask t).trimEnd)).size⟩))

theorem kept_distinct? (hr : distinct? t = some r) : Kept front r := by
  obtain ⟨_, -, list, hlist, _, -, _, -, hr⟩ := of_bind₄ hr
  cases hr
  exact h.splice (behind_of_list? hfront h hlist) _

theorem kept_cast {length : Nat} (hr : cast catalog length t = some r) : Kept front r := by
  obtain ⟨list, hlist, hr⟩ := bind_eq_some_iff.1 hr
  cases hr
  refine h.applyAll fun e he z => ?_
  obtain ⟨term, hterm, hcast⟩ := mem_filterMap.1 he
  obtain ⟨_, -, _, -, hcast⟩ := of_bind₂ hcast
  cases hcast
  obtain ⟨s, hs, rfl⟩ := mem_map.1 hterm
  refine h.before_append ((behind_of_list? hfront h hlist).mono ?_) _
  exact Nat.le_trans (Nesting.le_start_of_mem_itemsIn (mem_filter.1 hs).1) (le_start_of_termOf t s)

end Ordering

/-- A pattern starts with the quote that it had. -/
theorem Wildcard.kept_apply : Kept front (Wildcard.apply t) := by
  refine h.applyAll fun e he z => ?_
  obtain ⟨s, hs, rfl⟩ := mem_map.1 he
  have hspan := (mem_filter.1 hs).1
  obtain ⟨r, ht, hapart⟩ := h
  have hle : front.size ≤ s.start := by
    rw [ht, spans, shade, spansFrom_of_no_quote hfront.code] at hspan
    exact Nat.le_trans (Nat.le_add_left _ 0) ((spanned_spansFrom r _).le_start s hspan)
  obtain ⟨a, q, u, b, rfl, -, -, hq, -, -, rfl⟩ := exists_of_mem_spans hspan
  obtain ⟨v, rfl, rfl⟩ := exists_append_of_size_le ht.symm hle
  have hslice := slice_literal hq (front ++ v) u b
  have hne : '\\' ≠ q := by
    rintro rfl
    cases hq
  show Kept front
    (before (front ++ v ++ q :: (u ++ b)) (size (front ++ v)) ++ (bracket (slice _ _) ++ z))
  rw [before_size_append, hslice, bracket, replaceWord_cons (by simp [hne]),
    replaceWord_cons (by simp [hne]), append_assoc]
  refine ⟨_, rfl, ?_⟩
  cases v <;> exact hapart

namespace Grouping

theorem kept_dropKey? (hr : dropKey? catalog t = some r) : Kept front r := by
  obtain ⟨clause, hclause, _, -, _, -, _, -, hr⟩ := of_bind₄ hr
  cases hr
  obtain ⟨c, d, hc, hread⟩ := at_of_mem_findAll (mem_of_mem_head? hclause)
  obtain ⟨hstart, g, hg⟩ := start_of_keyClause? hread
  have hbehind : Behind front t clause.span.start := by
    rw [hstart]
    exact behind_of_word? hfront h (by decide) hc hg
  exact (h.splice hbehind _).dropEnd fun c hc => isBlank_of_isNameChar (hfront.last c hc)

theorem kept_orderByAliases? (hr : orderByAliases? t = some r) : Kept front r := by
  obtain ⟨_, _, _, order, edits, -, -, -, horder, rfl, hedits⟩ := exists_of_orderByAliases? hr
  obtain ⟨hbehind, hle⟩ := behind_of_findTop? hfront h (by decide) horder
  exact h.applyAll fun e he z => h.before_append (hbehind.mono (Nat.le_trans hle (hedits e he))) _

theorem kept_apply : Kept front (apply catalog t) := by
  have hdropped : Kept front ((dropKey? catalog t).getD t) :=
    h.getD fun r hr => kept_dropKey? hfront h hr
  exact hdropped.getD fun r hr => kept_orderByAliases? hfront hdropped hr

end Grouping

/-- A change that puts back what is read up to a place behind the front. -/
theorem kept_put {p : Text} (hm : mask t = p ++ (w ++ q)) (hle : front.size ≤ size (p ++ w))
    {y : Text} (hy : y.head?.any isApart) (z : Text) :
    Kept front (t.before p.size ++ (t.slice ⟨p.size, size (p ++ w)⟩ ++ y ++ z)) := by
  by_cases hlt : front.size < p.size
  · rcases eq_or_behind hfront h hm (Nat.le_of_lt hlt) with ⟨rfl, -⟩ | hbehind
    · omega
    · exact h.before_append hbehind _
  · have hboundary : t.isBoundary p.size := by
      obtain ⟨r, rfl, -⟩ := h
      rw [hfront.code.mask_append] at hm
      obtain ⟨u, rfl, -⟩ := exists_append_of_size_le hm.symm (Nat.le_of_not_lt hlt)
      rw [append_assoc]
      exact isBoundary_append _ _
    rw [append_assoc, ← append_assoc,
      ← before_eq_append_slice hboundary (by rw [size_append]; omega)]
    rw [← append_assoc] at hm
    rcases eq_or_behind hfront h hm hle with ⟨heq, -⟩ | hbehind
    · obtain ⟨r, rfl, -⟩ := h
      rw [heq, before_size_append]
      refine ⟨y ++ z, rfl, ?_⟩
      cases y with
      | nil => cases hy
      | cons x y => simpa using hy
    · exact h.before_append hbehind _

namespace Comparison

/-- An operator stands behind the front, and so does the name before it. -/
theorem le_of_tail? (hc : At (mask t) c) {k : Bool × Option Span × Cursor}
    (htail : tail? c = some k) : front.size ≤ c.offset := by
  obtain ⟨_, -, ⟨isEqual, d⟩, hoperator, -⟩ := of_bind₂ htail
  obtain ⟨g, hg, hblank, -⟩ := skipWhile_reads c isBlank
  obtain ⟨x, z, hx, hsign⟩ := operator?_head hoperator
  obtain ⟨p, hm, hoffset, -⟩ := hc
  obtain ⟨r, rfl, -⟩ := h
  rw [hfront.code.mask_append, hg.rest, show (c.skipWhile isBlank).rest = x :: z from hx] at hm
  rw [hoffset]
  by_contra hlt
  obtain ⟨u, rfl, hu⟩ := exists_append_of_size_le hm.symm (by omega)
  rcases append_cons_eq_append hu with ⟨w, rfl, -⟩ | ⟨w, rfl, -⟩
  · have hnot := hfront.signs x (by simp)
    simp only [mem_cons, not_mem_nil, or_false] at hsign hnot
    tauto
  · have hne : u ≠ [] := by
      rintro rfl
      simp at hlt
    obtain ⟨v, y, rfl⟩ := eq_nil_or_concat u |>.resolve_left hne
    have hname := hfront.last y (by simp)
    rw [isNameChar_of_isBlank (hblank y (by simp))] at hname
    cases hname

/-- Comparisons are replaced behind the front. -/
theorem kept_byLike? {kind : Kind} (hr : byLike? catalog kind t = some r) : Kept front r := by
  obtain ⟨region, hregion, hr⟩ := bind_eq_some_iff.1 hr
  cases hr
  have hplace : region = 0 ∨ Behind front t region := by
    cases kind with
    | select | delete => exact .inl (some.inj hregion).symm
    | update =>
      obtain ⟨s, hs, rfl⟩ := map_eq_some_iff.1 hregion
      exact .inr (behind_of_findTop? hfront h (by decide) hs).1
    | _ => cases hregion
  refine h.applyAll fun e he z => ?_
  obtain ⟨l, hl, he⟩ := mem_filterMap.1 he
  obtain ⟨_, -, he⟩ := bind_eq_some_iff.1 he
  cases he
  rcases hplace with rfl | hbehind
  · rw [after_zero] at hl
    obtain ⟨c, d, hc, hread⟩ := at_of_mem_findAll hl
    obtain ⟨e, k, hp⟩ := exists_parsed hread
    obtain ⟨w, hw⟩ := hp.reads
    have hle := le_of_tail? hfront h (hc.reads hw) hp.tail
    obtain ⟨p, hm, hoffset, -⟩ := hc
    have hend : k.offset = size (p ++ w) := by rw [hw.offset, hoffset, size_append]
    rw [hw.rest] at hm
    rw [hend] at hle
    have hkept (y : Text) (hy : y.head?.any isApart) (z : Text) := kept_put hfront h hm hle hy z
    simp only [Span.shift, hp.span, hp.column, spanTo, Nat.add_zero, hoffset, hend]
    rw [append_assoc (t.slice _ ++ _)]
    refine hkept _ ?_ _
    split <;> rfl
  · exact h.before_append (hbehind.mono (Nat.le_add_left ..)) _

end Comparison

end

end Recast
