import Recast.Proofs.Phrases

/-!
# Clauses around a clause

The passes over LIMIT, ORDER BY, LIKE patterns and comparisons look at clauses that may stand next
to a WHERE, so what they replace is not always compact. A name that is replaced is not the word
WHERE (`SetOff.clear_of_name`), and what is cut off at the end has no `w` in it.
-/

namespace Recast

open Literal Nesting Cursor Keyword List Text
open Option hiding guard

variable {front old rest t word : Text} {c d : Cursor} {region : Nat} {catalog : Catalog}
  {p : Char → Bool} {P : Char → Prop} {l : Clause} {e : Edit} {s : Option Char}

/-! ### Cutting off the end -/

/-- A text loses no word at its end with its blanks. -/
theorem Keyword.HasWhere.trimEnd (h : HasWhere t) : HasWhere t.trimEnd := by
  obtain ⟨front, word, rest, rfl, h⟩ := h
  obtain ⟨b, hb, hblank, hlast⟩ := exists_dropEnd isBlank rest
  have htrim : trimEnd (front ++ (word ++ rest)) = front ++ (word ++ rest.trimEnd) := by
    have hflat : front ++ (word ++ rest) = front ++ (word ++ rest.trimEnd) ++ b := by
      rw [trimEnd, append_assoc, append_assoc, ← hb]
    rw [trimEnd, hflat, dropEnd_append hblank, dropEnd_of_last fun c hc => ?_]
    cases hrest : rest.trimEnd.getLast? with
    | some x =>
      rw [getLast?_append, getLast?_append, hrest] at hc
      cases hc
      exact hlast c hrest
    | none =>
      obtain ⟨w, v, rfl, -⟩ := h.exists_cons
      rw [getLast?_append, getLast?_append, hrest, none_or, or_of_isSome (by simp)] at hc
      exact isBlank_of_isLetter (h.isLetter_of_mem c (mem_of_mem_getLast? hc))
  rw [htrim]
  refine ⟨front, word, rest.trimEnd, rfl, h.closed, h.top, h.lead, h.spelled,
    fun c hc => h.trail c ?_⟩
  rw [hb, head?_append]
  exact or_eq_some_iff.2 (.inl hc)

/-- Behind a clause that starts compactly and has no `w` there is no WHERE to lose. -/
theorem Keyword.HasWhere.before {p y q : Text} (h : HasWhere t) (hm : mask t = p ++ (y ++ q))
    (hy : Compact y) (hno : ∀ c ∈ y ++ q, c.toLower ≠ 'w') : HasWhere (t.before p.size) := by
  obtain ⟨front, word, rest, rfl, h⟩ := h
  rcases h.clear_of_compact hy hm with hlt | hgt
  · -- the word would be part of the clause
    rw [h.mask_eq] at hm
    obtain ⟨w, v, rfl, hw, -⟩ := h.exists_cons
    rcases append_eq_append_iff.1 hm with ⟨u, rfl, -⟩ | ⟨u, -, hu⟩
    · rw [size_append, size_mask] at hlt
      omega
    · exact absurd hw (hno w (by rw [hu]; simp))
  · obtain ⟨k, hk⟩ := Nat.exists_eq_add_of_lt hgt
    rw [hk, Nat.add_assoc, Nat.add_assoc, before_append_add, before_append_add]
    refine ⟨front, word, _, rfl, h.closed, h.top, h.lead, h.spelled, fun c hc => h.trail c ?_⟩
    rw [← before_append_after rest (k + 1), head?_append]
    exact or_eq_some_iff.2 (.inl hc)

/-! ### LIMIT -/

namespace Limit

theorem number?_through (hdigit : ∀ x, isDecimalDigit x → P x) {n : Text}
    (h : number? c = some (n, d)) : Through P c d := by
  obtain ⟨e, he, h⟩ := bind_eq_some_iff.1 h
  cases h
  exact through_some? he hdigit

/-- Behind its first word a clause has blanks, digits, the letters of OFFSET and two signs, up to
the end of the text. -/
theorem clause?_through (hblank : ∀ x, isBlank x → P x) (hdigit : ∀ x, isDecimalDigit x → P x)
    (hcomma : P ',') (hsemicolon : P ';')
    (hletter : ∀ w : Text, w.map foldChar = ("OFFSET" : Text).map foldChar → ∀ x ∈ w, P x)
    (h : clause? c = some (l, d)) :
    l.start = c.offset ∧ d.rest = [] ∧ ∃ e, c.word? "LIMIT" = some e ∧ Through P e d := by
  obtain ⟨_, -, e, he, f, hf, ⟨first, g⟩, hg, h⟩ := of_bind₄ h
  obtain ⟨_, hend, h⟩ := bind_eq_some_iff.1 h
  have hfirst : Through P e g := (through_some? hf hblank).trans (number?_through hdigit hg)
  have hsecond {n : Text} {k : Cursor} (h : second? g = some (n, k)) : Through P g k := by
    obtain ⟨i, hi, h⟩ := bind_eq_some_iff.1 h
    exact (((through_skipWhile g hblank).trans (through_sign? hi hcomma)).trans
      (through_skipWhile i hblank)).trans (number?_through hdigit h)
  have hoffset {n : Text} {k : Cursor} (h : offset? g = some (n, k)) : Through P g k := by
    obtain ⟨i, hi, j, hj, k, hk, h⟩ := of_bind₃ h
    obtain ⟨w, hw, hfold⟩ := word?_reads hj
    exact (((through_some? hi hblank).trans ⟨w, hw, hletter w hfold⟩).trans
      (through_some? hk hblank)).trans (number?_through hdigit h)
  have hrest (k : Cursor) : Through P k (k.blanks.skipSign ';').blanks :=
    ((through_skipWhile k hblank).trans (through_skipSign _ hsemicolon)).trans
      (through_skipWhile _ hblank)
  have hempty {k : Cursor} {u : Unit} (h : guard k.atEnd = some u) : k.rest = [] := by
    simpa [guard, atEnd] using h
  cases hs : second? g with
  | some r =>
    obtain ⟨n, k⟩ := r
    rw [hs] at h hend
    cases h
    exact ⟨rfl, hempty hend, e, he, (hfirst.trans (hsecond hs)).trans (hrest k)⟩
  | none =>
    cases ho : offset? g with
    | some r =>
      obtain ⟨n, k⟩ := r
      rw [hs, ho] at h hend
      cases h
      exact ⟨rfl, hempty hend, e, he, (hfirst.trans (hoffset ho)).trans (hrest k)⟩
    | none =>
      rw [hs, ho] at h hend
      cases h
      exact ⟨rfl, hempty hend, e, he, hfirst.trans (hrest g)⟩

theorem clause?_no_w (h : clause? c = some (l, d)) :
    l.start = c.offset ∧ ∃ e w, Reads c w e ∧ w.map foldChar = ("LIMIT" : Text).map foldChar ∧
      ∀ x ∈ w ++ e.rest, x.toLower ≠ 'w' := by
  obtain ⟨hstart, hrest, e, he, y, hy, hno⟩ := clause?_through (P := fun x => x.toLower ≠ 'w')
    (toLower_ne_of_class (by decide) (by decide)) (toLower_ne_of_class (by decide) (by decide))
      (by decide) (by decide)
    (fun w hw => tells_foldChar.no_w hw (by decide)) h
  obtain ⟨w, hw, hfold⟩ := word?_reads he
  refine ⟨hstart, e, w, hw, hfold, forall_mem_append.2 ⟨tells_foldChar.no_w hfold (by decide), ?_⟩⟩
  rw [hy.rest, hrest, append_nil]
  exact hno

/-- The WHERE stays when TOP is put in. -/
theorem insertTop_keeps {top : Text} (h : HasWhere t) (htop : Balanced top) :
    HasWhere (insertTop t .update "UPDATE" top) := by
  rw [insertTop]
  cases hn : find? (mask t) "UPDATE" 0 with
  | none => exact h
  | some n =>
    obtain ⟨hfree, hbehind⟩ := free_of_find? (by decide) hn
    obtain ⟨p, w, q, hm, rfl, hlower⟩ := exists_of_find? hn
    have hno : Code w := sees_toLower.no_quote hlower (by decide)
    have hsize : size "UPDATE" = w.size := by
      rw [← size_lower w, hlower, size_lower]
    have hclosed : Closed (t.before (p.size + w.size)) := by
      obtain ⟨a, r, rfl, ha, hclosed, -⟩ := hfree.exists_stretch hm hno
      rw [← ha, ← size_append, ← append_assoc, before_size_append]
      exact hclosed.append hno.closed
    rw [hsize] at hbehind ⊢
    exact h.insertAt hm (tells_toLower.compact hlower (by decide) (by decide))
      (Nat.le_add_right _ _)
      (Nat.le_refl _) hbehind hclosed htop

theorem apply_keeps {d : Draft} (hkind : d.kind = .update) (h : HasWhere d.text) :
    HasWhere (apply d).text := by
  rw [apply]
  cases hlimited : limited? d with
  | none => exact h
  | some e =>
    obtain ⟨_, -, clause, hclause, _, -, w, -, hlimited⟩ := of_bind₄ hlimited
    obtain ⟨c, f, ⟨p, hm, hc, -⟩, hread⟩ := at_of_mem_findAll (mem_of_mem_head? hclause)
    obtain ⟨hstart, g, word, hword, hfold, hall⟩ := clause?_no_w hread
    have hstripped : HasWhere (trimEnd (d.text.before clause.start)) := by
      rw [hword.rest] at hm
      rw [hstart, hc]
      exact (h.before hm (tells_foldChar.compact hfold (by decide) (by decide)) hall).trimEnd
    split at hlimited
    · obtain ⟨⟨verb, top⟩, htop, hlimited⟩ := bind_eq_some_iff.1 hlimited
      rw [hkind] at htop hlimited
      cases htop
      cases hlimited
      refine insertTop_keeps hstripped ?_
      have hcount : Balanced (ofNat w.count) := balanced_of_isPlain (isPlain_ofNat _)
      have htop :
          (" TOP (" ++ ofNat w.count ++ ")" : Text) =
            " TOP " ++ '(' :: (ofNat w.count ++ [')']) := by simp
      rw [htop]
      exact (balanced_of_isPlain (by decide)).append hcount.enclosed
    · simp [hkind] at hlimited

theorem apply_eq (d : Draft) :
    apply d = { d with text := (apply d).text, window := (apply d).window } := by
  rw [apply]
  cases h : limited? d with
  | none => rfl
  | some e =>
    obtain ⟨_, -, clause, -, _, -, w, -, h⟩ := of_bind₄ h
    split at h
    · obtain ⟨⟨verb, top⟩, -, h⟩ := bind_eq_some_iff.1 h
      cases h
      rfl
    · obtain ⟨_, -, h⟩ := bind_eq_some_iff.1 h
      cases h
      rfl

end Limit

/-! ### LIKE patterns -/

namespace Text

theorem replaceWordFrom_skip (old new u r : Text) :
    replaceWordFrom old new u.length (u ++ r) = replaceWord r old new := by
  induction u with
  | nil => rfl
  | cons c u ih => exact ih

theorem replaceWord_append (hne : old ≠ []) (new r : Text) :
    replaceWord (old ++ r) old new = new ++ replaceWord r old new := by
  obtain ⟨c, u, rfl⟩ := exists_cons_of_ne_nil hne
  rw [replaceWord, cons_append, replaceWordFrom, if_pos (by simp), ← replaceWordFrom_skip _ new u]
  rfl

/-- From the left each occurrence of a word is replaced, and all else stays. -/
inductive Replaced (old new : Text) : Text → Text → Prop
  | nil : Replaced old new [] []
  | keep {c : Char} {t r : Text} :
      ¬ old <+: c :: t → Replaced old new t r → Replaced old new (c :: t) (c :: r)
  | put {t r : Text} : Replaced old new t r → Replaced old new (old ++ t) (new ++ r)

/-- What `replaceWord` does, from the left. -/
theorem replaced_replaceWord (hne : old ≠ []) (new t : Text) :
    Replaced old new t (replaceWord t old new) := by
  -- an occurrence is left behind as a whole, so the induction is on the length
  induction hlength : t.length using Nat.strongRecOn generalizing t with
  | ind n ih =>
  subst hlength
  cases t with
  | nil => exact .nil
  | cons c t =>
    by_cases hprefix : old.isPrefixOf (c :: t)
    · obtain ⟨r, hr⟩ := isPrefixOf_iff_prefix.1 hprefix
      have hlt : r.length < (c :: t).length := by
        rw [← hr, length_append]
        have hpos := length_pos_iff.2 hne
        omega
      rw [← hr, replaceWord_append hne]
      exact .put (ih r.length hlt r rfl)
    · have hkeep : replaceWord (c :: t) old new = c :: replaceWord t old new := by
        rw [replaceWord, replaceWordFrom, if_neg hprefix]
        rfl
      rw [hkeep]
      refine .keep ?_ (ih t.length (Nat.lt_succ_self _) t rfl)
      rwa [ isPrefixOf_iff_prefix] at hprefix

/-- Words that are neither quotes nor parentheses, one put for the other, change nothing that the
scanner sees. -/
theorem scan_replaceWord (old new : Text) (hold : ∀ c ∈ old, isPlain c)
    (hnew : ∀ c ∈ new, isPlain c) (hne : old ≠ []) (t : Text) (hs : Valid s) (d : Nat) :
    state s (replaceWord t old new) = state s t ∧
      codeDepth s d (replaceWord t old new) = codeDepth s d t := by
  have h := replaced_replaceWord hne new t
  generalize replaceWord t old new = r at h
  induction h generalizing s d with
  | nil => exact ⟨rfl, rfl⟩
  | @keep c t r _ _ ih =>
    obtain ⟨hstate, hdepth⟩ := ih (valid_state hs [c]) (codeDepth s d [c])
    have hone : c :: t = [c] ++ t := rfl
    have hone' : c :: r = [c] ++ r := rfl
    rw [hone, hone', state_append, codeDepth_append, codeDepth_append]
    exact ⟨hstate, hdepth⟩
  | @put t r _ ih =>
    obtain ⟨hstate, hdepth⟩ := ih hs d
    obtain ⟨hold', hdold⟩ := scan_of_isPlain hold hs d
    obtain ⟨hnew', hdnew⟩ := scan_of_isPlain hnew hs d
    rw [state_append, state_append, codeDepth_append, codeDepth_append, hold', hnew', hdold, hdnew]
    exact ⟨hstate, hdepth⟩

end Text

namespace Wildcard

theorem scan_bracket (t : Text) (hs : Valid s) (d : Nat) :
    state s (bracket t) = state s t ∧ codeDepth s d (bracket t) = codeDepth s d t := by
  obtain ⟨h₁, h₂⟩ := scan_replaceWord ['\\', '_'] "[_]" (by decide) (by decide) (by decide) t hs d
  obtain ⟨h₃, h₄⟩ := scan_replaceWord ['\\', '%'] "[%]" (by decide) (by decide)
    (by decide) (t.replaceWord ['\\', '_'] "[_]") hs d
  exact ⟨h₃.trans h₁, h₄.trans h₂⟩

/-- Patterns are changed inside their literals. -/
theorem apply_keeps (h : HasWhere t) : HasWhere (apply t) := by
  obtain ⟨front, word, rest, rfl, h⟩ := h
  refine h.applyAll (fun e he => ?_) fun e he hstop => ?_
  · obtain ⟨s, hs, rfl⟩ := mem_map.1 he
    rcases h.clear_of_literal (mem_filter.1 hs).1 with hlt | hgt
    · exact .inl hlt
    · exact .inr (.inr hgt)
  · obtain ⟨s, hs, rfl⟩ := mem_map.1 he
    obtain ⟨a, q, u, r, ht, ha, -, hq, -, hends, rfl⟩ := exists_of_mem_spans (mem_filter.1 hs).1
    have hone : q.utf8Size = 1 := utf8Size_of_isQuote hq
    have hslice : slice (front ++ (word ++ rest)) ⟨a.size, a.size + (1 + size u)⟩ = q :: u := by
      rw [ht, slice_literal hq]
    have hbefore : before (front ++ (word ++ rest)) a.size = a := by
      rw [ht, before_size_append]
    -- more text follows, so the literal is closed
    refine light_of_closed (by rw [hbefore]; exact ha) fun d => ?_
    show Lighter _ _ (bracket (slice _ _)) (slice _ _)
    rw [hslice]
    obtain ⟨hstate, hdepth⟩ := scan_bracket (q :: u) valid_none d
    exact ⟨hstate, Nat.le_of_eq hdepth⟩

end Wildcard

/-! ### Comparisons -/

theorem Keyword.isNameChar_of_isLetter {c : Char} (h : isLetter c) : isNameChar c := by
  cases hupper : c.isUpper with
  | true => simp [isNameChar, Char.isAlphanum, Char.isAlpha, hupper]
  | false =>
    have hsame : c.toLower = c := by
      exact dif_neg (by simpa [Char.isUpper] using hupper)
    rw [isLetter, hsame, contains_iff_mem] at h
    have hall : ∀ x ∈ ['w', 'h', 'e', 'r'], isNameChar x := by decide
    exact hall c h

/-- A place behind another one. -/
theorem Cursor.At.of_after (hregion : Outside (mask t) region) (hc : At (mask (t.after region)) c) :
    ∃ p, mask t = p ++ c.rest ∧ p.size = c.offset + region ∧
      (0 < c.offset → c.last = p.getLast?) := by
  obtain ⟨a, hm, hoffset, hlast⟩ := hc
  have hsize : ((mask t).before region).size = region := by
    simpa [Text.isBoundary] using hregion.isBoundary_mask
  refine ⟨(mask t).before region ++ a, ?_, by rw [size_append, hsize, hoffset, Nat.add_comm],
    fun hpos => ?_⟩
  · rw [append_assoc, ← hm, hregion.mask_after, before_append_after]
  · cases a with
    | nil =>
      simp [hoffset] at hpos
    | cons z a => rw [hlast, getLast?_append, or_of_isSome (by simp)]

theorem Cursor.parted_of_atEdge (h : c.atEdge) {a b : Char} (ha : c.last = some a)
    (hb : c.rest.head? = some b) (hletter : isLetter a) : isLetter b = false := by
  have hword {z : Char} (hz : isLetter z) : isWordChar z :=
    Comparison.of_isNameChar (P := fun c => isWordChar c) (isNameChar_of_isLetter hz) (by decide)
  cases hb' : isLetter b with
  | false => rfl
  | true => simp [atEdge, afterWord, beforeWord, ha, hb, hword hletter, hword hb'] at h

theorem Catalog.Plain.of_mem_ofClass (h : catalog.Plain) {k : ColumnClass} {r : ColumnRef}
    (hr : r ∈ catalog.ofClass k) :
    r.column ≠ [] ∧ (∀ x ∈ r.column, isNameChar x) ∧ r.column.same "WHERE" = false := by
  obtain ⟨e, he, hr⟩ := mem_flatMap.1 (mem_sortedBy.1 (mem_foldr_dedup.1 hr))
  obtain ⟨column, hcolumn, rfl⟩ := mem_map.1 hr
  exact h e he column (mem_filter.1 hcolumn).1

namespace Comparison

theorem number?_last (h : number? c = some d) : ∃ z, d.last = some z ∧ isDecimalDigit z := by
  have hdigits {c d : Cursor} (h : c.some? isDecimalDigit = some d) :
      ∃ z, d.last = some z ∧ isDecimalDigit z := by
    obtain ⟨w, hw, hne, hall, -⟩ := some?_reads h
    obtain ⟨z, hz⟩ := isSome_iff_exists.1 (getLast?_isSome.2 hne)
    exact ⟨z, by rw [hw.last, hz, some_or], hall z (mem_of_mem_getLast? hz)⟩
  obtain ⟨e, he, h⟩ := bind_eq_some_iff.1 h
  simp only at h
  split at h
  · next f hfraction =>
    cases h
    obtain ⟨g, -, k, hk, _, -, hfraction⟩ := of_bind₃ hfraction
    cases hfraction
    exact hdigits hk
  · split at h
    · cases h
    · cases h
      exact hdigits he

/-- The characters between the name of a column and the end of its comparison. -/
def isBehind (c : Char) : Bool := c.toLower != 'w' && isPlain c

theorem isBehind_of_class (hp : p 'w' = false) (hp' : p 'W' = false)
    (hplain : ∀ x ∈ ['\'', '"', '(', ')'], p x = false) : ∀ c, p c = true → isBehind c = true := by
  intro c hc
  rw [isBehind, isPlain_of_class hc hplain]
  simpa using toLower_ne_of_class hp hp' c hc

theorem tail?_through {isEqual : Bool} {number : Option Span}
    (h : tail? c = some (isEqual, number, d)) :
    c.atEdge = true ∧ Through (isBehind · = true) c d ∧
      (number ≠ none → ∃ z, d.last = some z ∧ isDecimalDigit z = true) := by
  obtain ⟨_, hedge, ⟨e, f⟩, hf, h⟩ := of_bind₂ h
  have hblank : ∀ x, isBlank x = true → isBehind x = true :=
    isBehind_of_class (by decide) (by decide) (by decide)
  have hdigit : ∀ x, isDecimalDigit x = true → isBehind x = true :=
    isBehind_of_class (by decide) (by decide) (by decide)
  have hedge : c.atEdge = true := by simpa [guard] using hedge
  have hoperator : Through (isBehind · = true) c.blanks f := by
    have hword {word : Text} (h : c.blanks.word? word = some f)
        (hall : ∀ x ∈ word, foldChar x ≠ 'w' ∧ isPlain (foldChar x) = true) :
        Through (isBehind · = true) c.blanks f := by
      obtain ⟨w, hw, hfold⟩ := word?_reads h
      refine ⟨w, hw, fun x hx => ?_⟩
      have hplain := tells_foldChar.plain sees_foldChar hfold (fun z hz => (hall z hz).2) x hx
      have hno := tells_foldChar.no_w hfold (fun z hz => (hall z hz).1) x hx
      simp [isBehind, hplain, hno]
    rw [operator?] at hf
    split at hf
    · next h' => cases hf; exact hword h' (by decide)
    · next h' => cases hf; exact hword h' (by decide)
    · next h' => cases hf; exact hword h' (by decide)
    · cases hf
  have hfront : Through (isBehind · = true) c f.blanks :=
    ((through_skipWhile c hblank).trans hoperator).trans (through_skipWhile f hblank)
  simp only at h
  split at h
  · next g hg =>
    cases h
    have hnumber : Through (isBehind · = true) f.blanks d :=
      number?_through (by decide) (by decide) hdigit hg
    exact ⟨hedge, hfront.trans hnumber, fun _ => number?_last hg⟩
  · cases h
    exact ⟨hedge, hfront, by simp⟩

/-- A comparison is the name `x` of a column, with or without its table, and what stands behind
it. -/
structure Reading (names : List Text) (l : Clause) (c d : Cursor) (x y : Text) : Prop where
  reads : Reads c (x ++ y) d
  ne : x ≠ []
  name : ∀ z ∈ x, isBlank z = false ∧ isPlain z = true
  known : '.' ∈ x ∨ ∃ name ∈ names, x.map foldChar = name.map foldChar
  left : c.atEdge = true
  right :
      ∀ a b, x.getLast? = some a → (y ++ d.rest).head? = some b → isLetter a = true →
      isLetter b = false
  behind : ∀ z ∈ y, isBehind z = true
  number : l.number ≠ none → ∃ z, d.last = some z ∧ isDecimalDigit z = true

/-- How a name of a column is written. -/
theorem word?_name {name : Text} (hne : name ≠ []) (hname : ∀ z ∈ name, isNameChar z = true)
    (h : c.word? name = some d) : ∃ w, Reads c w d ∧ w ≠ [] ∧
      w.map foldChar = name.map foldChar ∧ ∀ z ∈ w, isBlank z = false ∧ isPlain z = true := by
  obtain ⟨w, hw, hfold⟩ := word?_reads h
  have hletter : ∀ z ∈ name, isBlank (foldChar z) = false ∧ isPlain (foldChar z) = true :=
    fun z hz =>
      of_isNameChar (P := fun c => isBlank (foldChar c) = false ∧ isPlain (foldChar c) = true)
      (hname z hz) (by decide)
  refine ⟨w, hw, ?_, hfold, fun z hz => ⟨?_, ?_⟩⟩
  · rintro rfl
    exact hne (map_eq_nil_iff.1 hfold.symm)
  · exact not_of_map tells_foldChar.blank hfold (fun x hx => (hletter x hx).1) z hz
  · exact tells_foldChar.plain sees_foldChar hfold (fun x hx => (hletter x hx).2) z hz

theorem isBlank_of_isFoldedName {c : Char} (h : isFoldedName c = true) : isBlank c = false := by
  cases hblank : isBlank c with
  | false => rfl
  | true =>
    simp [of_isBlank (P := fun c => isFoldedName c = false) hblank (by decide)] at h

/-- How a comparison is read. -/
theorem clause?_reading {names : List Text}
    (hnames : ∀ name ∈ names, name ≠ [] ∧ ∀ z ∈ name, isNameChar z = true)
    (h : clause? names c = some (l, d)) : ∃ x y, Reading names l c d x y := by
  obtain ⟨e, k, hp⟩ := exists_parsed h
  obtain ⟨word, hword, hk⟩ := hp.word
  obtain ⟨w, hw, hne, hfold, hall⟩ := word?_name (hnames word hword).1 (hnames word hword).2 hk
  obtain ⟨hright, ⟨y, hy, hbehind⟩, hnumber⟩ := tail?_through hp.tail
  obtain ⟨a, ha, hplain, hdot⟩ :
      ∃ a, Reads c a e ∧ (∀ z ∈ a, isBlank z = false ∧ isPlain z = true) ∧
      (a = [] ∨ '.' ∈ a) := by
    rcases hp.table with ⟨-, rfl⟩ | ⟨f, -, hf, he⟩
    · exact ⟨[], .refl e, by simp, .inl rfl⟩
    · obtain ⟨table, htable, -, hall, -⟩ := some?_reads hf
      refine ⟨_, htable.trans (sign?_reads he), forall_mem_append.2 ⟨fun z hz => ?_, by decide⟩,
        .inr (by simp)⟩
      exact ⟨isBlank_of_isFoldedName (hall z hz), isPlain_of_class (hall z hz) (by decide)⟩
  have hx := ha.trans hw
  refine ⟨a ++ w, y, hx.trans hy, by simp [hne], forall_mem_append.2 ⟨hplain, hall⟩, ?_, hp.edge,
    fun p q hp hq => ?_, hbehind, hnumber⟩
  · rcases hdot with rfl | hdot
    · exact .inr ⟨word, hword, hfold⟩
    · exact .inl (mem_append_left w hdot)
  · refine parted_of_atEdge hright ?_ ?_
    · rw [hx.last, hp, some_or]
    · rw [hy.rest, hq]

variable {names : List Text} {l : Clause} {c d : Cursor} {x y : Text}

/-- No column that is compared is called WHERE. -/
theorem Reading.lower_ne (h : Reading names l c d x y)
    (hnames : ∀ name ∈ names, (∀ z ∈ name, isNameChar z = true) ∧ name.same "WHERE" = false) :
    lower x ≠ lower "WHERE" := by
  intro hlower
  have hletter : ∀ z ∈ x, isLetter z = true := by
    intro z hz
    have hmem : z.toLower ∈ lower "WHERE" := hlower ▸ mem_map_of_mem hz
    have hall : ∀ a ∈ lower "WHERE", ['w', 'h', 'e', 'r'].contains a = true := by decide
    exact hall _ hmem
  rcases h.known with hdot | ⟨name, hname, hfold⟩
  · exact absurd (hletter '.' hdot) (by decide)
  · obtain ⟨hchars, hother⟩ := hnames name hname
    have hx : x.map foldChar = lower x :=
      map_congr_left fun z hz => tells_foldChar.letter z (hletter z hz)
    have hlow : name.map foldChar = lower name := map_congr_left fun z hz =>
      of_isNameChar (P := fun c => foldChar c = c.toLower) (hchars z hz) (by decide)
    have hsame : lower name = lower "WHERE" := by rw [← hlow, ← hfold, hx, hlower]
    simp [same, hsame] at hother

theorem Reading.plain (h : Reading names l c d x y) : ∀ z ∈ x ++ y, isPlain z = true := by
  refine forall_mem_append.2 ⟨fun z hz => (h.name z hz).2, fun z hz => ?_⟩
  have hbehind := h.behind z hz
  rw [isBehind, Bool.and_eq_true] at hbehind
  exact hbehind.2

/-- What is put for a comparison leaves nothing open. -/
theorem balanced_edit? {columns : List ColumnRef} (h : edit? t columns region l = some e)
    {P : Span → Prop} (hplain : ∀ s, P s → ∀ z ∈ t.slice (s.shift region), isPlain z = true)
    (hcolumn : P l.column) (hnumber : ∀ s, l.number = some s → P s) :
    e.span = l.span.shift region ∧ Balanced e.new ∧
      (l.number = none → ∃ b, e.new.getLast? = some b ∧ isBlank b = true) := by
  obtain ⟨_, -, h⟩ := bind_eq_some_iff.1 h
  cases h
  have hfront : Balanced (t.slice (l.column.shift region)
      ++ (if l.isEqual then " LIKE " else " NOT LIKE " : String).toList) := by
    refine (balanced_of_isPlain (hplain _ hcolumn)).append (balanced_of_isPlain ?_)
    split <;> decide
  refine ⟨rfl, ?_, fun hnone => ?_⟩
  · cases hn : l.number with
    | none =>
      simp only [append_nil]
      exact hfront
    | some n =>
      have hword (word : Text) (hword : ∀ z ∈ word, isPlain z = true) : Balanced word :=
        balanced_of_isPlain hword
      have hcast : ("cast(" ++ t.slice (n.shift region) ++ " as varchar(max))" : Text)
          = "cast" ++ '(' ::
            (t.slice (n.shift region) ++ " as varchar" ++ '(' :: ("max" ++ [')']) ++ [')']) := by
              simp
      simp only
      rw [hcast]
      exact hfront.append
        ((hword "cast" (by decide)).append (((hword _ (hplain n (hnumber n hn))).append
        (hword " as varchar" (by decide))).append (hword "max" (by decide)).enclosed).enclosed)
  · simp only [hnone, append_nil]
    refine ⟨' ', ?_, rfl⟩
    rw [getLast?_append]
    split <;> rfl

/-- The edit for a comparison spares a WHERE that is set off. -/
theorem Reading.spares (hwhere : SetOff front word rest) (h : Reading names l c d x y)
    (hnames : ∀ name ∈ names, (∀ z ∈ name, isNameChar z = true) ∧ name.same "WHERE" = false)
    (hle : region ≤ front.size) (hregion : Outside (mask (front ++ (word ++ rest))) region)
    (hc : At (mask (after (front ++ (word ++ rest)) region)) c)
    (hspan : e.span = (c.spanTo d).shift region)
    (hnew : l.number = none → ∃ b, e.new.getLast? = some b ∧ isBlank b = true) :
    Spares front word e := by
  obtain ⟨p, hm, hp, hlast⟩ := hc.of_after hregion
  rw [h.reads.rest, append_assoc] at hm
  have hleft : front.size < p.size → Parted p x := by
    intro hlt a b ha hb
    refine parted_of_atEdge h.left ?_ ?_
    · rw [hlast (by omega), ha]
    · rw [h.reads.rest, append_assoc, head?_append, hb, some_or]
  have hopen : ∀ z ∈ x, z ≠ '(' := by
    rintro z hz rfl
    exact absurd (h.name '(' hz).2 (by decide)
  have hw : ∀ z ∈ y, z.toLower ≠ 'w' := by
    intro z hz
    have hbehind := h.behind z hz
    simp only [isBehind, Bool.and_eq_true, bne_iff_ne] at hbehind
    exact hbehind.1
  have hstop : d.offset + region = p.size + x.size + y.size := by
    rw [h.reads.offset, size_append]
    omega
  rw [Spares, hspan]
  simp only [spanTo, Span.shift, hstop, ← hp]
  rcases hwhere.clear_of_name hm h.ne (fun z hz => ⟨(h.name z hz).1, hopen z hz⟩)
    (h.lower_ne hnames)
    hleft h.right hw with hclear | hclear
  · rcases Nat.lt_or_eq_of_le hclear with hlt | heq
    · exact .inl hlt
    · refine .inr (.inl ⟨heq, hnew (Classical.byContradiction fun hnumber => ?_)⟩)
      -- what ends at the word ends in a blank, not in a number
      obtain ⟨z, hz, hdigit⟩ := h.number hnumber
      obtain ⟨b, hb, hblank⟩ := hwhere.ends_in_blank (y := x ++ y) (by simpa using hm)
        (by simp [h.ne]) (by rw [size_append, ← Nat.add_assoc, heq])
      have hends : d.last = some b := by rw [h.reads.last, hb, some_or]
      obtain rfl : z = b := some.inj (hz.symm.trans hends)
      simp [of_isBlank (P := fun c => isDecimalDigit c = false) hblank (by decide)] at hdigit
  · exact .inr (.inr hclear)

/-- The edit for a comparison keeps out of the way of WHERE. -/
theorem edit?_spares (hwhere : SetOff front word rest) (hplain : catalog.Plain)
    (hle : region ≤ front.size) (hregion : Outside (mask (front ++ (word ++ rest))) region)
    (hl : l ∈ (start (mask (after (front ++ (word ++ rest)) region))).findAll
      (clause? (namesOf (catalog.ofClass .text))))
    (he : edit? (front ++ (word ++ rest)) (catalog.ofClass .text) region l = some e) :
    Spares front word e ∧ Light (front ++ (word ++ rest)) e := by
  have hnames : ∀ name ∈ namesOf (catalog.ofClass .text), name ≠ [] ∧
      (∀ z ∈ name, isNameChar z = true) ∧ name.same "WHERE" = false := by
    intro name hname
    obtain ⟨r, hr, rfl⟩ := exists_of_mem_namesOf hname
    exact hplain.of_mem_ofClass hr
  obtain ⟨c, d, hc, hread⟩ := at_of_mem_findAll hl
  obtain ⟨x, y, hreading⟩ := clause?_reading (fun name hname =>
    ⟨(hnames name hname).1, (hnames name hname).2.1⟩) hread
  obtain ⟨hshown, hinside⟩ := clause?_shown (fun name hname z hz =>
    isQuote_foldChar ((hnames name hname).2.1 z hz)) hread
  obtain ⟨hclear, -, hne⟩ := hshown.clear hc
  have hquote : Code (x ++ y) := by
    intro z hz
    have hz := hreading.plain z hz
    simp only [isPlain, Bool.and_eq_true, Bool.not_eq_true'] at hz
    exact hz.1.1
  have hwithin :
      ∀ s, Within c d s → ∀ z ∈ slice (front ++ (word ++ rest)) (s.shift region), isPlain z := by
    intro s hs z hz
    rw [slice_within hregion hclear hreading.reads hquote hne hs] at hz
    exact hreading.plain z (mem_of_mem_slice hz)
  obtain ⟨hspan, hnew, hblank⟩ := balanced_edit? he hwithin hinside.column hinside.number
  rw [hinside.span] at hspan
  refine ⟨hreading.spares hwhere (fun name hname => (hnames name hname).2) hle hregion hc
    hspan hblank,
    light_of_closed ?_ fun n => ?_⟩
  · rw [hspan]
    exact (Free.of_after hregion (hclear.free hne)).closed_before
  · rw [hspan]
    exact hnew.lighter (balanced_of_isPlain (hwithin (c.spanTo d) ⟨Nat.le_refl _, Nat.le_refl _⟩)) n

/-- In an UPDATE only comparisons behind a WHERE are changed. -/
theorem byLike?_keeps (hplain : catalog.Plain) (h : HasWhere t) :
    HasWhere ((byLike? catalog .update t).getD t) := by
  obtain ⟨front, word, rest, rfl, h⟩ := h
  obtain ⟨s, hs, hle⟩ := h.exists_findTop? (Nat.zero_le _) (outside_zero _)
  have hregion := (free_of_findTop? (by decide) hs).1.outside
  rw [byLike?, region?, hs]
  have hedit : ∀ e ∈ ((start ((mask (front ++ (word ++ rest))).after s.start)).findAll
      (clause? (namesOf (catalog.ofClass .text)))).filterMap
        (edit? (front ++ (word ++ rest)) (catalog.ofClass .text) s.start),
      Spares front word e ∧ Light (front ++ (word ++ rest)) e := by
    intro e he
    obtain ⟨l, hl, he⟩ := mem_filterMap.1 he
    rw [← hregion.mask_after] at hl
    exact edit?_spares h hplain hle hregion hl he
  exact h.applyAll (fun e he => (hedit e he).1) fun e he _ => (hedit e he).2

end Comparison

end Recast
