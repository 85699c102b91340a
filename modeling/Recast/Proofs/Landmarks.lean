import Recast.Proofs.Alike
import Recast.Proofs.Items
import Recast.Proofs.Reading

/-!
# Finds in a mask

What is searched for in a mask is found outside literals: inside there is nothing but filler, and
the words that are looked for start with another letter and have no quote in them (`Shows`). So a
find starts at a place that is `Free` and ends at one that is `Outside`.
-/

namespace Recast

open Literal List Text
open Option hiding guard

variable {m t t' v w word : Text} {x : Char} {c d : Cursor} {close k n offset opening : Nat}
  {s : Span} {f : Char → Char} {clause clause' : Cursor → Option (Edit × Cursor)}
  {words : List Text}

namespace Cursor

/-! ### Cursors outside literals -/

/-- The cursor stands outside the literals of the masked text `m`. -/
def Clear (m : Text) (c : Cursor) : Prop :=
  ∃ a, m = a ++ c.rest ∧ c.offset = a.size ∧ state none a = none

theorem Clear.outside (h : Clear m c) : Outside m c.offset := by
  obtain ⟨a, hm, hoffset, ha⟩ := h
  rw [hoffset]
  exact outside_of_state hm ha

theorem Clear.free (h : Clear m c) (hne : c.rest ≠ []) : Free m c.offset := by
  obtain ⟨a, hm, hoffset, ha⟩ := h
  exact ⟨a, c.rest, hm, hoffset.symm, hne, ha⟩

theorem Clear.reads (hc : Clear m c) (h : Reads c w d) (hw : Code w) : Clear m d := by
  obtain ⟨a, hm, hoffset, ha⟩ := hc
  refine ⟨a ++ w, ?_, ?_, ?_⟩
  · rw [hm, h.rest, append_assoc]
  · rw [h.offset, hoffset, size_append]
  · rw [state_append, ha, Code.state_eq valid_none hw]

theorem Clear.of_reads (hd : Clear m d) (hc : At m c) (h : Reads c w d) (hw : Code w) :
    Clear m c := by
  obtain ⟨a, hm, hoffset, -⟩ := hc
  refine ⟨a, hm, hoffset, ?_⟩
  obtain ⟨b, hm', -, hb⟩ := hd
  have hcut : b = a ++ w := by
    rw [hm, h.rest, ← append_assoc] at hm'
    exact (append_cancel_right hm').symm
  rw [hcut] at hb
  exact Closed.of_append hb hw

/-- Behind a character that is no quote the text is outside literals where its mask is. -/
theorem Clear.closed_before {z : Char} (hc : Clear (mask t) c) (h : Reads c (w ++ [z]) d)
    (hd : Clear (mask t) d) (hz : isQuote z = false) : Closed (t.before d.offset) := by
  obtain ⟨a, hm, hoffset, -⟩ := hc
  obtain ⟨b, hm', -, hb⟩ := hd
  have hcut : b = a ++ w ++ [z] := by
    rw [hm, h.rest, ← append_assoc] at hm'
    simpa using (append_cancel_right hm').symm
  rw [hcut] at hb hm'
  have hstate : state none (a ++ w) = none := Closed.of_append hb (by simpa using hz)
  have hends : mask t = a ++ w ++ z :: d.rest := by
    rw [hm']
    simp
  obtain ⟨u, v, rfl, hu, hmask, -⟩ := exists_code_of_state hends hz hstate
  have hsize : d.offset = size (u ++ [z]) := by
    rw [h.offset, hoffset, size_append, size_append, ← size_mask u, hmask, size_append,
      Nat.add_assoc]
  rw [hsize, show u ++ z :: v = (u ++ [z]) ++ v by simp, before_size_append]
  exact hu.append (Code.closed (by simpa using hz))

theorem At.clear_of_code (hc : At (mask t) c) (h : Reads c [x] d) (hq : isQuote x = false)
    (hx : x ≠ filler) : Clear (mask t) c ∧ Clear (mask t) d := by
  obtain ⟨a, hm, hoffset, -⟩ := hc
  have hclear : Clear (mask t) c := by
    refine ⟨a, hm, hoffset, ?_⟩
    rw [h.rest] at hm
    exact closed_of_code hm hq hx
  exact ⟨hclear, hclear.reads h (by simpa using hq)⟩

theorem At.clear_behind (hc : At (mask t) c) (h : Reads c (w ++ [x]) d) (hx : isQuote x = false)
    (hfiller : x ≠ filler) : Clear (mask t) d := by
  have hfront : Reads c w ⟨c.offset + w.size, w.getLast?.or c.last, x :: d.rest⟩ :=
    ⟨by rw [h.rest]; simp, rfl, rfl⟩
  refine ((hc.reads hfront).clear_of_code (d := d) ⟨rfl, ?_, ?_⟩ hx hfiller).2
  · rw [h.offset, size_append, Nat.add_assoc]
  · rw [h.last, getLast?_concat]
    rfl

theorem Clear.exists_stretch {y : Text} (hat : At (mask t) c) (hc : Clear (mask t) c)
    (hread : Reads c y d) (hne : y ≠ []) (hy : Code y) :
    ∃ a b, t = a ++ (y ++ b) ∧ Closed a ∧ a.size = c.offset ∧ a.size + y.size = d.offset := by
  have hrest : c.rest ≠ [] := by
    rw [hread.rest]
    simp [hne]
  obtain ⟨p, hm, hoffset, -⟩ := hat
  rw [hread.rest] at hm
  have hfree := hc.free hrest
  rw [hoffset] at hfree
  obtain ⟨a, b, ht, hsize, ha, -⟩ := hfree.exists_stretch hm hy
  refine ⟨a, b, ht, ha, ?_, ?_⟩
  · rw [hsize, hoffset]
  · rw [hread.offset, hsize, hoffset]

end Cursor

/-! ### Words that show -/

/-- A word that is recognised by the map `f` shows in a mask: it has no quotes, and starts with a
character that is not the filler. -/
def Shows (f : Char → Char) (word : Text) : Bool :=
  (word.all fun c => !isQuote (f c)) && word.head?.any fun c => f c != filler

/-- A way to look at characters that tells quotes and the filler from the others. -/
structure Sees (f : Char → Char) : Prop where
  quote : ∀ q, isQuote q = true → f q = q
  filler : f filler = filler

theorem sees_foldChar : Sees foldChar where
  quote q hq := by
    rcases isQuote_iff.1 hq with rfl | rfl <;> rfl
  filler := rfl

theorem sees_toLower : Sees Char.toLower where
  quote q hq := by
    rcases isQuote_iff.1 hq with rfl | rfl <;> rfl
  filler := rfl

theorem Sees.no_quote (hf : Sees f) (h : w.map f = word.map f)
    (hword : ∀ c ∈ word, isQuote (f c) = false) : Code w := by
  intro c hc
  cases hq : isQuote c with
  | false => rfl
  | true =>
    have hmem : c ∈ word.map f := by
      rw [← h, ← hf.quote c hq]
      exact mem_map_of_mem (hf.quote c hq ▸ hc)
    obtain ⟨d, hd, hdc⟩ := mem_map.1 hmem
    simp [← hdc, hword d hd] at hq

namespace Cursor

/-- A word that shows is read outside literals. -/
theorem At.clear_of_word (hc : At (mask t) c) (h : Reads c w d) (hf : Sees f)
    (hw : w.map f = word.map f) (hword : Shows f word) :
    Clear (mask t) c ∧ Clear (mask t) d ∧ c.rest ≠ [] := by
  rw [Shows, Bool.and_eq_true] at hword
  have hno : Code w := hf.no_quote hw fun x hx => by
    simpa using all_eq_true.1 hword.1 x hx
  cases word with
  | nil => simp at hword
  | cons y word =>
    obtain ⟨x, w, rfl, hx, -⟩ := map_eq_cons_iff.1 hw
    have hfirst : f y ≠ filler := by simpa using hword.2
    have hmem : Reads c [x] ⟨c.offset + x.utf8Size, some x, w ++ d.rest⟩ :=
      ⟨h.rest, rfl, rfl⟩
    have hclear := (hc.clear_of_code hmem (hno x (by simp)) (by
      rintro rfl
      exact hfirst (hx ▸ hf.filler))).1
    refine ⟨hclear, hclear.reads h hno, ?_⟩
    rw [h.rest]
    simp

theorem At.clear_of_word? (hc : At (mask t) c) (h : c.word? word = some d)
    (hword : Shows foldChar word) : Clear (mask t) c ∧ Clear (mask t) d ∧ c.rest ≠ [] := by
  obtain ⟨w, hread, hw⟩ := word?_reads h
  exact hc.clear_of_word hread sees_foldChar hw hword

theorem At.clear_of_plain? (hc : At (mask t) c) (h : c.plain? word = some d)
    (hword : Shows Char.toLower word) : Clear (mask t) c ∧ Clear (mask t) d ∧ c.rest ≠ [] := by
  obtain ⟨w, hread, hw, -⟩ := plain?_reads h
  exact hc.clear_of_word hread sees_toLower hw hword

end Cursor

/-! ### Keywords and phrases -/

namespace Keyword

open Cursor

variable {t word : Text}

theorem free_of_plain? (hword : Shows Char.toLower word) (hc : At (mask t) c)
    (h : c.plain? word = some d) :
    Free (mask t) c.offset ∧ Outside (mask t) (c.offset + word.size) := by
  obtain ⟨v, hv, -, hsize⟩ := plain?_reads h
  obtain ⟨hclear, hclear', hne⟩ := hc.clear_of_plain? h hword
  refine ⟨hclear.free hne, ?_⟩
  rw [← hsize, ← hv.offset]
  exact hclear'.outside

theorem free_of_mem_occurrences (hword : Shows Char.toLower word)
    (h : n ∈ occurrences (mask t) word) : Free (mask t) n ∧ Outside (mask t) (n + word.size) := by
  obtain ⟨c, d, hc, rfl, -, hplain⟩ := at_of_mem_occurrences h
  exact free_of_plain? hword hc hplain

theorem free_of_find? (hword : Shows Char.toLower word) (h : find? (mask t) word offset = some n) :
    Free (mask t) n ∧ Outside (mask t) (n + word.size) := by
  obtain ⟨-, u, c, d, -, hc, rfl, hhere⟩ := at_of_find? h
  exact free_of_plain? hword hc (here?_eq_some.1 hhere).2.2.1

theorem outside_of_isAt (hword : Shows Char.toLower word) (h : isAt (mask t) word offset) :
    Outside (mask t) (offset + word.size) := by
  rw [isAt, Bool.and_eq_true] at h
  obtain ⟨d, hd⟩ := isSome_iff_exists.1 h.2
  exact (free_of_plain? hword (at_ofOffset h.1) (here?_eq_some.1 hd).2.2.1).2

/-- Behind keywords that show the cursor is outside literals. -/
theorem clear_of_rest? (hwords : ∀ w ∈ words, Shows Char.toLower w) (hc : Clear m c)
    (h : rest? words c = some d) : Clear m d := by
  induction words generalizing c with
  | nil =>
    cases h
    exact hc
  | cons word words ih =>
    obtain ⟨e, he, f, hf, h⟩ := of_bind₂ h
    obtain ⟨u, hu, -, hblank, -⟩ := some?_reads he
    obtain ⟨v, hv, hlower, -⟩ := here?_reads hf
    have hword := hwords word (by simp)
    rw [Shows, Bool.and_eq_true] at hword
    have hno : Code v := sees_toLower.no_quote hlower fun x hx => by
      simpa using all_eq_true.1 hword.1 x hx
    have hread := hc.reads hu fun x hx => isQuote_of_class (hblank x hx) (by decide) (by decide)
    exact ih (forall_mem_cons.1 hwords).2 (hread.reads hv hno) h

theorem free_of_mem_phrases {wanted : Nat → Bool} (hwords : ∀ w ∈ words, Shows Char.toLower w)
    (h : s ∈ phrases wanted (mask t) words offset) :
    Free (mask t) s.start ∧ Outside (mask t) s.stop := by
  cases words with
  | nil => cases h
  | cons first others =>
    obtain ⟨-, u, c, d, e, -, hc, hd, he, rfl, -⟩ := at_of_mem_phrases h
    obtain ⟨hclear, hclear', hne⟩ :=
      hc.clear_of_plain? (here?_eq_some.1 hd).2.2.1 (hwords first (by simp))
    exact ⟨hclear.free hne, (clear_of_rest? (forall_mem_cons.1 hwords).2 hclear' he).outside⟩

theorem free_of_findTop? (hwords : ∀ w ∈ words, Shows Char.toLower w)
    (h : findTop? (mask t) words offset = some s) :
    Free (mask t) s.start ∧ Outside (mask t) s.stop :=
  free_of_mem_phrases hwords (mem_of_mem_head? h)

/-- The first word of a phrase at depth zero, and the end of the phrase. -/
theorem exists_of_mem_topPhrases (h : s ∈ topPhrases m (word :: words) offset) :
    ∃ p w c d, m = p ++ (w ++ c.rest) ∧
      c.offset = p.size + w.size ∧ rest? words c = some d ∧ s = ⟨p.size, d.offset⟩ ∧
      lower w = lower word ∧ offset ≤ p.size ∧ Nesting.depth p = 0 := by
  obtain ⟨-, u, c, d, e, hu, ⟨p, hm, hc, -⟩, hd, he, rfl, hwanted⟩ := at_of_mem_phrases h
  obtain ⟨w, hw, hlower, -⟩ := here?_reads hd
  have hdepth := eq_of_beq hwanted
  rw [Nesting.depthAt, hm, hc, before_size_append] at hdepth
  refine ⟨p, w, d, e, by rw [hm, hw.rest], by rw [hw.offset, hc], he, by rw [spanTo, hc], hlower,
    ?_, hdepth⟩
  rw [← hc]
  exact hu.le

theorem beforeName_of_rest? (hne : words ≠ []) (h : rest? words c = some d) :
    beforeName d = false := by
  induction words generalizing c with
  | nil => exact absurd rfl hne
  | cons word words ih =>
    obtain ⟨e, -, f, hf, h⟩ := of_bind₂ h
    cases words with
    | nil =>
      cases h
      exact (here?_eq_some.1 hf).2.2.2
    | cons word' words => exact ih (by simp) h

theorem exists_of_findTop? (h : findTop? m [word] offset = some s) : ∃ p w q, m = p ++ (w ++ q) ∧
      s = ⟨p.size, p.size + w.size⟩ ∧ lower w = lower word ∧ offset ≤ p.size ∧
      Nesting.depth p = 0 := by
  obtain ⟨p, w, c, d, hm, hc, hd, rfl, hlower, hle, hdepth⟩ :=
    exists_of_mem_topPhrases (mem_of_mem_head? h)
  obtain rfl : c = d := some.inj hd
  exact ⟨p, w, c.rest, hm, by rw [hc], hlower, hle, hdepth⟩

theorem exists_of_find? (h : find? m word offset = some n) :
    ∃ p w q, m = p ++ (w ++ q) ∧ n = p.size ∧ lower w = lower word := by
  obtain ⟨-, u, c, d, -, ⟨p, hm, hc, -⟩, rfl, hhere⟩ := at_of_find? h
  obtain ⟨w, hw, hlower, -⟩ := here?_reads hhere
  exact ⟨p, w, d.rest, by rw [hm, hw.rest], hc, hlower⟩

end Keyword

/-! ### Edits at finds -/

/-- Readers that find the same spans, outside literals, make edits alongside each other. -/
theorem Cursor.At.alongside_findAll (hc : At (mask t) c)
    (hnone : ∀ d, clause d = none → clause' d = none)
    (hsome : ∀ d e f, At (mask t) d → clause d = some (e, f) →
      Free (mask t) e.span.start ∧ Outside (mask t) e.span.stop ∧
        ∃ new', clause' d = some (⟨e.span, new'⟩, f) ∧ Sealed e.new new') :
    Alongside (mask t) (c.findAll clause) (c.findAll clause') := by
  obtain ⟨offset, last, rest⟩ := c
  suffices h : ∀ resume, At (mask t) ⟨offset, last, rest⟩ → Alongside (mask t)
      (scanFrom (fun d => (clause d).map fun (a, e) => (some a, e.offset)) resume offset last rest)
      (scanFrom (fun d => (clause' d).map fun (a, e) => (some a, e.offset)) resume offset
        last rest) by
    exact h offset hc
  induction rest generalizing offset last with
  | nil => exact fun _ _ => .nil
  | cons x rest ih =>
    intro resume hc
    have hread : Reads ⟨offset, last, x :: rest⟩ [x] ⟨offset + x.utf8Size, some x, rest⟩ :=
      ⟨rfl, rfl, rfl⟩
    have hrest := fun resume' => ih _ _ (hc.reads hread) resume' (hc.reads hread)
    rw [scanFrom, scanFrom]
    split
    · exact hrest resume
    · cases h : clause ⟨offset, last, x :: rest⟩ with
      | none =>
        rw [hnone _ h]
        exact hrest resume
      | some found =>
        obtain ⟨⟨span, new⟩, f⟩ := found
        obtain ⟨hstart, hstop, new', h', hnew⟩ := hsome _ _ _ hc h
        rw [h']
        exact .cons hstart hstop hnew (hrest f.offset)

theorem Literal.Alike.replaceClauses (h : Alike t t')
    (hnone : ∀ d, clause d = none → clause' d = none)
    (hsome : ∀ d e f, Cursor.At (mask t) d → clause d = some (e, f) →
      Free (mask t) e.span.start ∧ Outside (mask t) e.span.stop ∧
        ∃ new', clause' d = some (⟨e.span, new'⟩, f) ∧ Sealed e.new new') :
    Alike (Edit.replaceClauses t clause) (Edit.replaceClauses t' clause') := by
  rw [Edit.replaceClauses, Edit.replaceClauses, ← show mask t = mask t' from h]
  exact h.applyAll ((Cursor.at_start _).alongside_findAll hnone hsome)

theorem Literal.Alike.replaceFree (h : Alike t t')
    (hfree : ∀ d e f, Cursor.At (mask t) d → clause d = some (e, f) →
      Free (mask t) e.span.start ∧ Outside (mask t) e.span.stop ∧ Closed e.new) :
    Alike (Edit.replaceClauses t clause) (Edit.replaceClauses t' clause) := by
  refine h.replaceClauses (fun _ h => h) fun d e f hd hread => ?_
  obtain ⟨hstart, hstop, hnew⟩ := hfree d e f hd hread
  exact ⟨hstart, hstop, e.new, hread, .refl hnew⟩

/-! ### Parentheses -/

theorem Nesting.free_of_closing? (h : closing? (mask t) opening = some close) :
    Outside (mask t) (opening + 1) ∧
      Free (mask t) close ∧ Outside (mask t) (close + 1) := by
  obtain ⟨a, v, r, hm, rfl, rfl, -⟩ := exists_of_closing? h
  have hclose : mask t = (a ++ '(' :: v) ++ ')' :: r := by
    rw [hm]
    simp
  have hsize : a.size + 1 + v.size = size (a ++ '(' :: v) := by
    rw [size_append, Nat.add_assoc]
    rfl
  rw [hsize]
  exact ⟨outside_of_code hm (by decide) (by decide), free_of_code hclose (by decide) (by decide),
    outside_of_code hclose (by decide) (by decide)⟩

end Recast
