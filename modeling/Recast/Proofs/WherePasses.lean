import Recast.Proofs.Blindness
import Recast.Proofs.Harmless

/-!
# Passes that keep a clause

Pass by pass: a statement in which a WHERE is set off still has one. The passes that replace words
and calls do so by harmless edits. The others are followed along their own steps.
-/

namespace Recast

open Literal Nesting Cursor Keyword List Text
open Option hiding guard

variable {name needle r t u w word : Text} {c d : Cursor} {p : Char → Bool} {f : Char → Char}
  {e : Edit}

/-! ### Words and clauses -/

theorem Nesting.foldl_step_lower (d : Nat) (t : Text) :
    (lower t).foldl step d = t.foldl step d := by
  have hstep (d : Nat) (c : Char) : step d c.toLower = step d c := by
    by_cases hopen : c.toLower = '('
    · rw [hopen, eq_of_toLower hopen rfl]
    · by_cases hclose : c.toLower = ')'
      · rw [hclose, eq_of_toLower hclose rfl]
      · have hne {x : Char} (hx : x.toLower = x) (h : c.toLower ≠ x) : c ≠ x := by
          rintro rfl
          exact h hx
        rw [step_of_ne hopen hclose, step_of_ne (hne rfl hopen) (hne rfl hclose)]
  induction t generalizing d with
  | nil => rfl
  | cons c t ih =>
    show (lower t).foldl step (step d c.toLower) = _
    rw [ih, hstep]
    rfl

theorem Keyword.Tells.no_w (hf : Tells f) (h : w.map f = word.map f)
    (hword : ∀ c ∈ word, f c ≠ 'w') : ∀ c ∈ w, c.toLower ≠ 'w' := by
  intro c hc hw
  have hletter : isLetter c := by simp [isLetter, hw]
  have hmem : f c ∈ word.map f := by
    rw [← h]
    exact mem_map_of_mem hc
  obtain ⟨a, ha, heq⟩ := mem_map.1 hmem
  rw [hf.letter c hletter, hw] at heq
  exact hword a ha heq

theorem Keyword.Tells.compact (hf : Tells f) (h : w.map f = word.map f) (hstarts : Starts f word)
    (hword : ∀ c ∈ word, isBlank (f c) = false) : Compact w := by
  have hno := not_of_map hf.blank h hword
  refine ⟨hf.first h hstarts, fun z hz => hno z (mem_of_mem_getLast? hz), ?_⟩
  rintro u b c v rfl hb
  simp [hno b (by simp)] at hb

/-- A word without blanks that may be replaced wherever it stands. -/
structure Replaceable (needle : Text) : Prop where
  shows : Shows Char.toLower needle = true
  starts : Starts Char.toLower needle = true
  letters : ∀ c ∈ needle, isBlank c.toLower = false
  depth : ∀ d, d ≤ (lower needle).foldl step d

/-- The WHERE stays when words are replaced. -/
theorem Keyword.HasWhere.replaceAll {new : Text} (h : HasWhere t) (hneedle : Replaceable needle)
    (hnew : Balanced new) : HasWhere (Edit.replaceAll t needle new) := by
  refine h.applyAll fun e he => ?_
  obtain ⟨n, hn, rfl⟩ := mem_map.1 he
  obtain ⟨c, d, hc, rfl, -, hplain⟩ := at_of_mem_occurrences hn
  obtain ⟨y, hy, hlower, hsize⟩ := plain?_reads hplain
  obtain ⟨hclear, hclear', -⟩ := hc.clear_of_plain? hplain hneedle.shows
  have hspan : (⟨c.offset, c.offset + needle.size⟩ : Span) = c.spanTo d := by
    rw [spanTo, hy.offset, hsize]
  rw [hspan]
  have hquote : Code y := sees_toLower.no_quote hlower fun x hx => by
    simpa using all_eq_true.1 (Bool.and_eq_true_iff.1 hneedle.shows).1 x hx
  refine harmless_of_reads hc hy hclear hclear'
    (tells_toLower.compact hlower hneedle.starts hneedle.letters) (fun z hz => ?_)
    fun hclosed hmask n => ?_
  · exact hquote z (mem_of_mem_getLast? hz)
  · refine lighter_of_balanced hnew hclosed ?_
    rw [hmask, ← foldl_step_lower, hlower]
    exact hneedle.depth n

/-! ### Quoting and counting -/

theorem Keyword.HasWhere.replaceClauses (h : HasWhere t) {clause : Cursor → Option (Edit × Cursor)}
    (hclause : ∀ c d e, At (mask t) c → clause c = some (e, d) → Harmless t e) :
    HasWhere (Edit.replaceClauses t clause) := by
  refine h.applyAll fun e he => ?_
  obtain ⟨c, d, hc, hread⟩ := at_of_mem_findAll he
  exact hclause c d e hc hread

theorem Keyword.no_w_of_isBlank (h : ∀ c ∈ t, isBlank c) : ∀ c ∈ t, c.toLower ≠ 'w' := by
  intro c hc hw
  rw [toLower_of_isBlank (h c hc)] at hw
  have hblank := h c hc
  rw [hw] at hblank
  cases hblank

theorem Nesting.Lighter.append_balanced (ht : Closed t) (hu : Balanced u) (d : Nat) :
    Lighter none d (t ++ u) t where
  state := (ht.append hu.closed).trans ht.symm
  depth := Nat.le_of_eq (by rw [Nesting.Closed.codeDepth_append ht, hu.depth])

theorem Text.exists_of_startsWith (h : t.startsWith word) :
    ∃ w r, t = w ++ r ∧ lower w = lower word := by
  fun_induction startsWith t word with
  | case1 t => exact ⟨[], t, rfl, rfl⟩
  | case2 => cases h
  | case3 c t a word ih =>
    rw [Bool.and_eq_true] at h
    obtain ⟨w, r, rfl, hw⟩ := ih h.2
    refine ⟨c :: w, r, rfl, ?_⟩
    show c.toLower :: lower w = a.toLower :: lower word
    rw [hw, eq_of_beq h.1]

theorem Cursor.At.rest_eq (h : At t c) (hzero : c.offset = 0) : c.rest = t := by
  obtain ⟨a, ht, hoffset, -⟩ := h
  cases a with
  | nil => exact ht.symm
  | cons x a =>
    have hpos := x.utf8Size_pos
    rw [hoffset, size_cons] at hzero
    omega

/-- A text that starts as an UPDATE may, with its verb or a parenthesis. -/
def Heads (t : Text) : Prop := ∃ c r, t = c :: r ∧ (c = '(' ∨ c.toLower = 'u')

namespace Heads

variable {t : Text}

theorem ne_lower (h : Heads t) (ht : t = w ++ r) (hw : lower w = lower word) :
    word.head?.all (fun c => c.toLower == '(' || c.toLower == 'u') = true := by
  obtain ⟨c, r', rfl, hc⟩ := h
  cases word with
  | nil => rfl
  | cons a word =>
    obtain ⟨x, v, rfl, hx, -⟩ := map_eq_cons_iff.1 hw
    obtain ⟨rfl, -⟩ := cons.inj ht
    rw [head?_cons, all_some, ← hx]
    rcases hc with rfl | hc
    · rfl
    · simp [hc]

theorem mask (h : Heads t) : Heads (mask t) := by
  obtain ⟨c, r, rfl, hc⟩ := h
  have hquote : isQuote c = false := by
    rcases hc with rfl | hc
    · rfl
    · have hsame : [c].map Char.toLower = ['u'].map Char.toLower := by simp [hc]
      exact sees_toLower.no_quote hsame (by decide) c (by simp)
  exact ⟨c, mask r, mask_cons hquote r, hc⟩

theorem utf8Size_eq_one {c : Char} (h : c = '(' ∨ c.toLower = 'u') : c.utf8Size = 1 := by
  rcases h with rfl | h
  · rfl
  · rw [← utf8Size_toLower, h]
    rfl

theorem isBlank_eq_false {c : Char} (h : c = '(' ∨ c.toLower = 'u') : isBlank c = false := by
  rcases h with rfl | h
  · rfl
  · cases hblank : isBlank c with
    | false => rfl
    | true =>
      rw [← toLower_of_isBlank hblank, h] at hblank
      cases hblank

/-- Edits behind the first character keep it. -/
theorem applyAll (h : Heads t) {edits : List Edit} (hedits : ∀ e ∈ edits, 0 < e.span.start) :
    Heads (Edit.applyAll t edits) := by
  obtain ⟨c, r, rfl, hc⟩ := h
  have hsize : size [c] = 1 := utf8Size_eq_one hc
  obtain ⟨r', hr'⟩ :=
    Edit.prefix_applyAll (prefix_append [c] r) fun e he => hsize.trans_le (hedits e he)
  exact ⟨c, r', hr'.symm, hc⟩

theorem replaceAll (h : Heads t)
    (hneedle : needle.head?.all (fun c => c.toLower == '(' || c.toLower == 'u') = false)
    (new : Text) : Heads (Edit.replaceAll t needle new) := by
  refine h.applyAll fun e he => ?_
  obtain ⟨n, hn, rfl⟩ := mem_map.1 he
  refine Nat.pos_of_ne_zero fun hzero => ?_
  obtain ⟨c, d, hc, rfl, -, hplain⟩ := at_of_mem_occurrences hn
  obtain ⟨w, hw, hlower, -⟩ := plain?_reads hplain
  have hm := (hc.rest_eq hzero).symm.trans hw.rest
  simp [h.mask.ne_lower hm hlower] at hneedle

theorem dropEnd (h : Heads t) (hp : ∀ c, c = '(' ∨ c.toLower = 'u' → p c = false) :
    Heads (dropEnd p t) := by
  obtain ⟨c, r, rfl, hc⟩ := h
  obtain ⟨b, hb, hall, -⟩ := exists_dropEnd p (c :: r)
  cases hdrop : dropEnd p (c :: r) with
  | nil =>
    rw [hdrop, nil_append] at hb
    have hpc := hall c (by rw [← hb]; simp)
    simp [hp c hc] at hpc
  | cons x r' =>
    rw [hdrop] at hb
    obtain ⟨rfl, -⟩ := cons.inj hb
    exact ⟨c, r', rfl, hc⟩

end Heads

/-! ### Commands -/

/-- The text starts with a word, in whatever case. -/
def Text.Opens (t word : Text) : Prop := ∃ w r, t = w ++ r ∧ lower w = lower word

theorem startsWith_eq_false (h : ¬ Opens t word) : t.startsWith word = false :=
  Bool.eq_false_iff.2 fun hstarts => h (exists_of_startsWith hstarts)

theorem same_eq_false (h : ¬ Opens t word) : t.same word = false :=
  Bool.eq_false_iff.2 fun hsame => h ⟨t, [], (append_nil t).symm, eq_of_beq hsame⟩

/-- A text that starts otherwise has no such phrase in front. -/
theorem leading?_eq_none (h : ¬ Opens t word) {words : List Text} :
    leading? t (word :: words) = none := by
  rw [leading?]
  split
  · next s hs =>
    split
    · next hstart =>
      have hmem : s ∈ phrases (fun _ => true) t (word :: words) 0 := mem_of_mem_head? hs
      rw [phrases] at hmem
      split at hmem
      · cases hmem
      · next hboundary =>
        obtain ⟨_, c, _, -, hc, -, hstep⟩ :=
          (at_ofOffset (by simpa using hboundary)).mem_scan hmem
        obtain ⟨d, hd, hstep⟩ := bind_eq_some_iff.1 hstep
        obtain ⟨w, hw, hlower, -⟩ := here?_reads hd
        have hzero : c.offset = 0 := by
          split at hstep
          · cases hstep
          · cases hstep
            exact hstart
        exact (h ⟨w, _, (hc.rest_eq hzero).symm.trans hw.rest, hlower⟩).elim
    · rfl
  · rfl

namespace General

def commands : List Text := ["SHOW VARIABLES LIKE 'sql_mode'", "SET NAMES", "SHOW TABLES", "SHOW"]

theorem command?_eq_none (h : ∀ word ∈ commands, ¬ Opens t word) : command? t = none := by
  rw [command?, startsWith_eq_false (h _ (by decide)), startsWith_eq_false (h _ (by decide)),
    same_eq_false (h _ (by decide)), leading?_eq_none (h _ (by decide)), leading?_eq_none
      (h _ (by decide))]
  rfl

/-- No command starts like this text, and no DROP TABLE. -/
def Mild (t : Text) : Prop := ∀ c ∈ t.head?, c.toLower ≠ 's' ∧ c.toLower ≠ 'd'

namespace Mild

variable {t : Text}

theorem of_prefix (h : Mild t) (hu : u <+: t) : Mild u := by
  intro c hc
  obtain ⟨r, rfl⟩ := hu
  obtain ⟨v, rfl⟩ := head?_eq_some_iff.1 hc
  exact h c rfl

theorem not_opens (h : Mild t)
    (hword : word.head?.any (fun c => c.toLower == 's' || c.toLower == 'd') = true) :
    ¬ Opens t word := by
  rintro ⟨w, r, ht, hw⟩
  cases word with
  | nil => cases hword
  | cons a word =>
    obtain ⟨c, v, rfl, hc, -⟩ := map_eq_cons_iff.1 hw
    obtain ⟨hs, hd⟩ := h c (by rw [ht]; rfl)
    rw [hc] at hs hd
    simp [hs, hd] at hword

theorem command?_eq_none (h : Mild t) : command? t = none := by
  have hall : ∀ word ∈ commands, word.head?.any fun c => c.toLower == 's' || c.toLower == 'd' := by
    decide
  exact General.command?_eq_none fun word hword => h.not_opens (hall word hword)

theorem versionQuery_eq (h : Mild t) : versionQuery t = t := by
  rw [versionQuery, startsWith_eq_false (h.not_opens (by decide))]
  rfl

theorem dropCondition_eq (h : Mild t) : dropCondition t = t := by
  rw [dropCondition, leading?_eq_none (h.not_opens (by decide))]

end Mild

theorem mild_of_heads (h : Heads t) : Mild t := by
  obtain ⟨c, r, rfl, hc⟩ := h
  rintro _ ⟨⟩
  rcases hc with rfl | hc
  · decide
  · rw [hc]
    decide

/-! ### The other words of the pass -/

/-- What is read of a leading count that is given a name: no letter of it is a `w`. -/
theorem count?_reads (h : count? t c = some (some e, d)) :
    ∃ f g select y, c.word? "SELECT" = some f ∧ Reads c (select ++ y) g ∧ g.sign? ')' = some d ∧
      e = ⟨c.spanTo d, t.slice (c.spanTo d) ++ (" as Computed" : Text)⟩ ∧
      select.map foldChar = ("SELECT" : Text).map foldChar ∧
      (∀ x ∈ select ++ y, x.toLower ≠ 'w') ∧ Code (select ++ y) := by
  obtain ⟨_, -, c₁, h₁, c₂, h₂, c₃, h₃, h⟩ := of_bind₄ h
  obtain ⟨c₄, h₄, c₅, h₅, c₆, h₆, h⟩ := of_bind₃ h
  simp only at h
  split at h
  · cases h
  · cases h
    obtain ⟨select, hselect, hfold⟩ := word?_reads h₁
    obtain ⟨gap, hgap, -, hblank, -⟩ := some?_reads h₂
    obtain ⟨count, hcount, hfold'⟩ := word?_reads h₃
    obtain ⟨u, hu, hblank', -⟩ := skipWhile_reads c₄ isBlank
    obtain ⟨x, hx, hstar⟩ := char?_reads h₅
    obtain ⟨v, hv, hblank'', -⟩ := skipWhile_reads c₅ isBlank
    have hread :=
      hselect.trans (((((hgap.trans hcount).trans (sign?_reads h₄)).trans hu).trans hstar).trans hv)
    have hx : x.toLower ≠ 'w' ∧ isQuote x = false := by
      have hcases : x = '*' ∨ x = '1' := by simpa using hx
      rcases hcases with rfl | rfl <;> decide
    refine ⟨c₁, _, select, _, h₁, hread, h₆, rfl, hfold, ?_, ?_⟩
    · simp only [forall_mem_append]
      exact ⟨tells_foldChar.no_w hfold (by decide), ⟨⟨⟨⟨no_w_of_isBlank hblank,
        tells_foldChar.no_w hfold' (by decide)⟩, by decide⟩, no_w_of_isBlank hblank'⟩,
        by simpa using hx.1⟩, no_w_of_isBlank hblank''⟩
    · simp only [forall_mem_append]
      exact ⟨sees_foldChar.no_quote hfold (by decide), ⟨⟨⟨⟨code_of_isBlank hblank,
        sees_foldChar.no_quote hfold' (by decide)⟩, by decide⟩,
        code_of_isBlank hblank'⟩, by simpa using hx.2⟩,
        code_of_isBlank hblank''⟩

/-- A count is named harmlessly. -/
theorem count?_harmless (hc : At (mask t) c) (h : count? t c = some (some e, d)) :
    Harmless t e := by
  obtain ⟨f, g, select, y, hselect, hfront, hclose, rfl, hfold, hw, -⟩ := count?_reads h
  have hread := hfront.trans (sign?_reads hclose)
  have hclear := (hc.clear_of_word? hselect (by decide)).1
  have hclear' := ((hc.reads hfront).clear_of_code (sign?_reads hclose) (by decide) (by decide)).2
  refine harmless_of_reads hc hread hclear hclear' (compact_of_no_w ?_ ?_ ?_) ?_
    fun hclosed _ n => ?_
  · obtain ⟨a, r, rfl, ha⟩ := tells_foldChar.first hfold (by decide)
    exact ⟨a, _, rfl, ha⟩
  · rw [getLast?_concat]
    rintro _ ⟨⟩
    rfl
  · exact forall_mem_append.2 ⟨hw, by decide⟩
  · rw [getLast?_concat]
    rintro _ ⟨⟩
    rfl
  · exact .append_balanced hclosed (balanced_of_isPlain (by decide)) n

theorem nameCounts_keeps (h : HasWhere t) : HasWhere (nameCounts t) := by
  refine h.applyAll fun e he => ?_
  obtain ⟨found, hfound, rfl⟩ := mem_filterMap.1 he
  obtain ⟨c, d, hc, hread⟩ := at_of_mem_findAll hfound
  exact count?_harmless hc hread

theorem heads_trim (h : Heads t) : Heads t.trim := by
  have hblank : ∀ c, c = '(' ∨ c.toLower = 'u' → isBlank c = false :=
    fun _ => Heads.isBlank_eq_false
  refine Heads.dropEnd ?_ hblank
  obtain ⟨c, r, rfl, hc⟩ := h
  refine ⟨c, r, ?_, hc⟩
  rw [trimStart, dropWhile_cons, hblank c hc]
  rfl

theorem command?_of_mild (h : Mild t.trim) :
    command? (trimEnd (dropEnd (· == ';') t.trim)) = none := by
  have hdrop (p : Char → Bool) (u : Text) : dropEnd p u <+: u := by
    obtain ⟨b, hb, -⟩ := exists_dropEnd p u
    exact ⟨b, hb.symm⟩
  exact (h.of_prefix ((hdrop _ _).trans (hdrop _ _))).command?_eq_none

theorem replaceable_identity : Replaceable "LAST_INSERT_ID()" where
  shows := by decide
  starts := by decide
  letters := by decide
  depth _ := Nat.le_refl _

theorem replaceable_backQuote : Replaceable ['\x60'] where
  shows := by decide
  starts := by decide
  letters := by decide
  depth _ := Nat.le_refl _

/-- Without an index hint, an UPDATE keeps its clause. -/
theorem apply_keeps {catalog : Catalog} (h : HasWhere t) (hheads : Heads t)
    (hhint : indexHint? catalog (Edit.replaceAll t "LAST_INSERT_ID()" "@@IDENTITY") = none) :
    HasWhere (apply catalog t) := by
  have hidentity : HasWhere (Edit.replaceAll t "LAST_INSERT_ID()" "@@IDENTITY") :=
    h.replaceAll replaceable_identity (balanced_of_isPlain (by decide))
  have hdrop : dropCondition (Edit.replaceAll t "LAST_INSERT_ID()" "@@IDENTITY")
      = Edit.replaceAll t "LAST_INSERT_ID()" "@@IDENTITY" :=
    (mild_of_heads (hheads.replaceAll (by decide) _)).dropCondition_eq
  rw [apply, command?_of_mild (mild_of_heads (heads_trim hheads))]
  simp only
  rw [(mild_of_heads hheads).versionQuery_eq, hhint, getD_none, hdrop]
  exact nameCounts_keeps (hidentity.replaceAll replaceable_backQuote balanced_nil)

end General

/-! ### Renumbered rows -/

/-- Every column is named by an identifier, and none is called WHERE. -/
def Catalog.Plain (c : Catalog) : Prop :=
  ∀ e ∈ c.tables, ∀ column ∈ e.2.columns,
    column.name ≠ [] ∧ (∀ x ∈ column.name, isNameChar x = true) ∧ column.name.same "WHERE" = false

theorem Nesting.isPlain_of_class {c : Char} (h : p c)
    (hp : ∀ x ∈ ['\'', '"', '(', ')'], p x = false) : isPlain c = true := by
  have hne {x : Char} (hx : x ∈ ['\'', '"', '(', ')']) : c ≠ x := by
    rintro rfl
    simp [hp c hx] at h
  simp [isPlain, isQuote, hne]

theorem Nesting.isPlain_ofNat (n : Nat) : ∀ c ∈ ofNat n, isPlain c := fun c hc =>
  isPlain_of_class (isBare_of_mem_ofNat c hc) (by decide)

theorem Nesting.balanced_join {parts : List Text} (h : ∀ t ∈ parts, Balanced t) :
    Balanced (join "," parts) := by
  induction parts with
  | nil => exact balanced_nil
  | cons t parts ih =>
    have ht := h t (by simp)
    cases parts with
    | nil => exact ht
    | cons u parts =>
      exact (ht.append (balanced_of_isPlain (by decide))).append (ih (forall_mem_cons.1 h).2)

theorem Text.mem_of_mem_strip {c : Char} (h : c ∈ t.strip p) : c ∈ t := by
  obtain ⟨b, hb, -, -⟩ := exists_dropEnd p (t.dropWhile p)
  have hmem : c ∈ t.dropWhile p := by
    rw [hb]
    exact mem_append_left b h
  exact (dropWhile_sublist p).mem hmem

theorem Catalog.Plain.of_table? {c : Catalog} (h : c.Plain) {table : Table}
    (htable : c.table? name = some table) : ∀ column ∈ table.columnNames, Balanced column := by
  obtain ⟨e, he, rfl⟩ := map_eq_some_iff.1 htable
  intro column hcolumn
  obtain ⟨col, hcol, rfl⟩ := mem_map.1 hcolumn
  refine balanced_of_isPlain fun x hx => ?_
  exact isPlain_of_class ((h e (mem_of_find?_eq_some he) col hcol).2.1 x hx) (by decide)

namespace Identity

theorem balanced_of_name? (hc : At t c) (h : name? t c = some (name, d)) :
    Balanced name ∧ At t d := by
  obtain ⟨e, he, h⟩ := bind_eq_some_iff.1 h
  cases h
  obtain ⟨w, hw, -, hall, -⟩ := some?_reads he
  rw [hc.slice hw]
  refine ⟨balanced_of_isPlain fun x hx => ?_, hc.reads hw⟩
  exact isPlain_of_class (hall x (mem_of_mem_strip (mem_of_mem_strip hx))) (by decide)

theorem balanced_of_equalsNumber? {number : Text} (hc : At t c)
    (h : equalsNumber? t c = some (number, d)) : Balanced number := by
  obtain ⟨e, he, f, hf, h⟩ := of_bind₂ h
  cases h
  obtain ⟨w, hw, -, hall, -⟩ := some?_reads hf
  have hat := ((hc.skipWhile isBlank).sign? he).skipWhile isBlank
  rw [show t.slice (e.blanks.spanTo d) = w from hat.slice hw]
  exact balanced_of_isPlain fun x hx => isPlain_of_class (hall x hx) (by decide)

/-- The parts of a renumbering that are copied in front of a clause leave nothing open. -/
theorem balanced_of_renumbering? {r : Renumbering} (h : renumbering? t = some r) :
    Balanced r.table ∧ Balanced r.target := by
  obtain ⟨c₁, h₁, c₂, h₂, ⟨table, c₃⟩, h₃, h⟩ := of_bind₃ h
  obtain ⟨c₄, h₄, c₅, h₅, c₆, h₆, ⟨column, c₇⟩, h₇, h⟩ := of_bind₄ h
  obtain ⟨⟨target, c₈⟩, h₈, h⟩ := bind_eq_some_iff.1 h
  have hread : r.table = table ∧ r.target = target := by
    simp only [bind_eq_bind, bind_eq_some_iff] at h
    grind
  obtain ⟨htable, hat⟩ := balanced_of_name? (((at_start t).word? h₁).some? h₂) h₃
  obtain ⟨-, hat'⟩ := balanced_of_name? (((hat.some? h₄).word? h₅).some? h₆) h₇
  rw [hread.1, hread.2]
  exact ⟨htable, balanced_of_equalsNumber? hat' h₈⟩

/-- The copy of a row is taken under a clause of its own. -/
theorem ofUpdate_keeps {d : Draft} (h : HasWhere d.text) (hplain : d.catalog.Plain) :
    HasWhere (ofUpdate d).text := by
  rw [ofUpdate]
  cases hmove : moveRow? d with
  | none => exact h
  | some e =>
    obtain ⟨_, -, r, hr, identity, hidentity, _, -, hmove⟩ := of_bind₄ hmove
    obtain ⟨table, htable, _, -, hmove⟩ := of_bind₂ hmove
    cases hmove
    obtain ⟨hname, htarget⟩ := balanced_of_renumbering? hr
    have hcolumns := hplain.of_table? htable
    have hselected :
        ∀ c ∈ table.columnNames.map fun c =>
          if c.same identity then r.target else c, Balanced c := by
      intro c hc
      obtain ⟨column, hcolumn, rfl⟩ := mem_map.1 hc
      split
      · exact htarget
      · exact hcolumns column hcolumn
    have hword (word : Text) (hword : ∀ c ∈ word, isPlain c = true) : Balanced word :=
      balanced_of_isPlain hword
    have hfront : Balanced ("INSERT INTO " ++ r.table ++ [' ']
        ++ '(' :: (join "," table.columnNames ++ [')']) ++ " SELECT "
        ++ join "," (table.columnNames.map fun c => if c.same identity then r.target else c)
        ++ " FROM " ++ r.table ++ [' ']) :=
      ((((((((hword _ (by decide)).append hname).append (hword _ (by decide))).append
        (balanced_join hcolumns).enclosed).append (hword _ (by decide))).append
        (balanced_join hselected)).append (hword _ (by decide))).append hname).append
        (hword _ (by decide))
    refine ⟨_, "WHERE", " " ++ identity ++ " = " ++ r.source, ?_, hfront.closed, hfront.depth 0,
      ⟨' ', by rw [getLast?_concat], rfl⟩, rfl, ?_⟩
    · show ("INSERT INTO " ++ r.table ++ " (" ++ join "," table.columnNames ++ ") SELECT " ++ _
        ++ " FROM" ++ (" " ++ r.table ++ " WHERE " ++ identity ++ " = " ++ r.source) : Text) = _
      simp
    · rintro c ⟨⟩
      exact .inl rfl

end Identity

end Recast
