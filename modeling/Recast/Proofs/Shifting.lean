import Recast.Proofs.Phrases
import Recast.Proofs.Restoration

/-!
# Reading behind a front

What a reader finds behind a front of a text is what it finds in the rest of the text alone, at
places that are as many bytes later as the front is long. The one thing it can see of the front is
the character just before it, so the place where reading starts is behind a character of the rest,
or blanks follow (`Anchored`).
-/

namespace Recast

open Literal List Text
open Option hiding guard

variable {first masked u x : Text} {c : Cursor} {n : Nat} {P : Char → Prop} {others : List Text}

/-! ### Cursors -/

namespace Cursor

/-- A cursor and the one in a text that has `k` bytes more in front. -/
theorem twin_move (k : Nat) (c : Cursor) : Twin k [] [] c { c with offset := k + c.offset } := by
  have h : Twin k [] [] ⟨c.offset, c.last, c.rest ++ []⟩ ⟨k + c.offset, c.last, c.rest ++ []⟩ :=
    .mk ..
  rwa [append_nil] at h

theorem twin_append_add (x : Text) (h : u.before n ≠ []) :
    Twin x.size [] [] (ofOffset u n) (ofOffset (x ++ u) (x.size + n)) := by
  rw [ofOffset, ofOffset, before_append_add, after_append_add, getLast?_append_of_ne_nil _ h]
  exact twin_move x.size ⟨n, (u.before n).getLast?, u.after n⟩

theorem skipWhile_of_rest {d : Cursor} {k : Nat} (hrest : c.rest = d.rest)
    (hoffset : c.offset = k + d.offset) (p : Char → Bool) :
    (c.skipWhile p).offset = k + (d.skipWhile p).offset ∧
      (c.skipWhile p).rest = (d.skipWhile p).rest := by
  obtain ⟨w, hw, hall, hstop⟩ := skipWhile_reads d p
  have hc := reads_skipWhile (hrest.trans hw.rest) hall hstop
  constructor
  · rw [hc.offset, hw.offset, hoffset, Nat.add_assoc]
  · exact append_cancel_left (hc.rest.symm.trans (hrest.trans hw.rest))

end Cursor

namespace Text

theorem charAt?_append_add (x u : Text) (n : Nat) :
    charAt? (x ++ u) (x.size + n) = charAt? u n := by
  rw [charAt?, charAt?, isBoundary_append_add, after_append_add]

theorem slice_append_add (x u : Text) (m n : Nat) :
    slice (x ++ u) ⟨x.size + m, x.size + n⟩ = slice u ⟨m, n⟩ := by
  rw [slice, slice, after_append_add]
  simp only [Nat.add_sub_add_left]

theorem before_ne_nil (h : u.isBoundary n) (hn : n ≠ 0) : u.before n ≠ [] := by
  intro hnil
  rw [isBoundary, hnil] at h
  exact hn (eq_of_beq h).symm

end Text

/-! ### Table names -/

/-- A place of `u` that is behind a character of it, or that blanks follow. -/
def Anchored (u : Text) (n : Nat) : Prop :=
  u.isBoundary n = true ∧ (n = 0 → ∃ c r, u = c :: r ∧ isBlank c = true)

open Cursor Keyword

/-- Behind its blanks an anchored place is seen the same way with a front. -/
theorem Anchored.skipWhile_isBlank (h : Anchored u n) (x : Text) :
    Twin x.size [] [] ((ofOffset u n).skipWhile isBlank)
      ((ofOffset (x ++ u) (x.size + n)).skipWhile isBlank) := by
  by_cases hn : n = 0
  · obtain ⟨c, r, rfl, hc⟩ := h.2 hn
    subst hn
    have hfront : (ofOffset (x ++ c :: r) (x.size + 0)).rest = c :: r := by
      show Text.after _ _ = _
      rw [after_append_add, after_zero]
    have hrest : (ofOffset (c :: r) 0).rest = c :: r := after_zero _
    have hstep (d : Cursor) (hd : d.rest = c :: r) :
        d.skipWhile isBlank = skipFrom isBlank (d.offset + c.utf8Size) (some c) r := by
      rw [skipWhile, hd, skipFrom, if_pos hc]
    have hmove := (twin_move x.size ⟨0 + c.utf8Size, some c, r⟩).skipWhile (p := isBlank) .nil
    rw [hstep _ hfront, hstep _ hrest]
    simpa [skipWhile, ofOffset, Nat.add_assoc] using hmove
  · exact (twin_append_add x (before_ne_nil h.1 hn)).skipWhile .nil

namespace Definition

theorem skipPhrase_append_add (x : Text) (h : Anchored u n) (hfirst : Inked first) :
    skipPhrase (x ++ u) (x.size + n) (first :: others) = x.size + skipPhrase u n
      (first :: others) :=
  skipPhrase_twin h.1 (by rw [isBoundary_append_add, h.1]) (h.skipWhile_isBlank x) hfirst .nil fun _
    _ _ _ => .nil

/-- What a phrase that is skipped is read as, with the blanks before it. -/
theorem exists_skipPhrase (hn : masked.isBoundary n) (hfirst : Inked first)
    (hnamed : ∀ word ∈ first :: others, Named word) (hblank : ∀ c, isBlank c → P c)
    (hname : ∀ c, isNameChar c → P c) :
    ∃ d, d.offset = skipPhrase masked n (first :: others) ∧ Through P (ofOffset masked n) d := by
  have hhere {word : Text} (hmem : word ∈ first :: others) {c d : Cursor}
    (hd : here? word c = some d) :
      Through P c d := by
    obtain ⟨w, hw, hlower, -⟩ := here?_reads hd
    exact ⟨w, hw, fun x hx => hname x ((isNameChar_of_lower hlower (hnamed word hmem)).2 x hx)⟩
  have hrest {c d : Cursor} {words : List Text} (hwords : ∀ w ∈ words, w ∈ first :: others)
      (hd : rest? words c = some d) : Through P c d := by
    induction words generalizing c with
    | nil =>
      cases hd
      exact .refl _
    | cons word words ih =>
      obtain ⟨e, he, f, hf, hd⟩ := of_bind₂ hd
      exact (through_some? he fun x hx => hblank x (isBlank_of_isAsciiBlank hx)).trans
        ((hhere (hwords word (by simp)) hf).trans (ih (forall_mem_cons.1 hwords).2 hd))
  rw [skipPhrase_eq hn hfirst]
  cases hd : here? first ((ofOffset masked n).skipWhile isBlank) with
  | none => exact ⟨ofOffset masked n, rfl, .refl _⟩
  | some d =>
    cases he : rest? others d with
    | none => exact ⟨ofOffset masked n, by simp [he, ofOffset], .refl _⟩
    | some e =>
      refine ⟨e, by simp [he], (through_skipWhile _ hblank).trans ((hhere (by simp) hd).trans ?_)⟩
      exact hrest (fun w hw => by simp [hw]) he

theorem anchored_skipPhrase (h : Anchored u n) (hfirst : Inked first)
    (hnamed : ∀ word ∈ first :: others, Named word) :
    Anchored u (skipPhrase u n (first :: others)) := by
  obtain ⟨d, hd, w, hw, -⟩ := exists_skipPhrase (P := fun _ => True) h.1 hfirst hnamed
    (fun _ _ => trivial) fun _ _ => trivial
  refine ⟨hd ▸ ((at_ofOffset h.1).reads hw).isBoundary, fun hzero => h.2 ?_⟩
  have hle : n ≤ d.offset := hw.le
  omega

theorem named_existence : ∀ words ∈ existenceWords, ∀ word ∈ words, Named word := by decide

/-- What existence conditions are read as, with the blanks before them. -/
theorem exists_behind (hn : masked.isBoundary n) (hblank : ∀ c, isBlank c → P c)
    (hname : ∀ c, isNameChar c → P c) :
    ∃ d, d.offset = behind masked n ∧ Through P (ofOffset masked n) d := by
  obtain ⟨d, hd, hthrough⟩ := exists_skipPhrase hn inked_existence
    (named_existence ["IF", "NOT", "EXISTS"] (by simp [existenceWords])) hblank hname
  obtain ⟨w, hw, -⟩ := id hthrough
  have hat := (at_ofOffset hn).reads hw
  obtain ⟨e, he, hthrough'⟩ := exists_skipPhrase hat.isBoundary inked_existence
    (named_existence ["IF", "EXISTS"] (by simp [existenceWords])) hblank hname
  rw [hat.ofOffset_eq] at hthrough'
  refine ⟨e, ?_, hthrough.trans hthrough'⟩
  rw [he, hd]
  rfl

theorem behind_append_add (x : Text) (h : Anchored u n) :
    behind (x ++ u) (x.size + n) = x.size + behind u n := by
  simp only [behind, existenceWords, foldl_cons, foldl_nil]
  rw [skipPhrase_append_add x h inked_existence,
    skipPhrase_append_add x (anchored_skipPhrase h inked_existence
      (named_existence ["IF", "NOT", "EXISTS"] (by simp [existenceWords]))) inked_existence]

/-- A table name is read behind a front as it is read without it. -/
theorem tableName?_append_add (hx : Closed x) (hapart : Apart x u) (h : Anchored (mask u) n) :
    tableName? (x ++ u) (x.size + n) = (tableName? u n).map fun r => (r.1, x.size + r.2) := by
  have hbehind : behind (mask (x ++ u)) (x.size + n) = x.size + behind (mask u) n := by
    rw [mask_append hx hapart, ← size_mask x, behind_append_add _ h]
  have hstart : (ofOffset (x ++ u) (x.size + behind (mask u) n)).rest
      = (ofOffset u (behind (mask u) n)).rest := after_append_add _ _ _
  obtain ⟨hc, hrest⟩ := skipWhile_of_rest hstart rfl isAsciiBlank
  obtain ⟨hd, -⟩ := skipWhile_of_rest hrest hc isTableChar
  rw [tableName?_eq, tableName?_eq, nameStart, nameStart, hbehind, spanTo, spanTo, hc, hd,
    slice_append_add]
  split <;> rfl

end Definition

/-! ### Columns and values -/

theorem blankEnd_append_add (x u : Text) (n : Nat) :
    blankEnd (x ++ u) (x.size + n) = x.size + blankEnd u n :=
  (skipWhile_of_rest (c := ofOffset (x ++ u) (x.size + n)) (d := ofOffset u n)
    (after_append_add _ _ _) rfl isAsciiBlank).1

theorem Nesting.closingFrom?_add (k depth offset : Nat) (t : Text) :
    closingFrom? depth (k + offset) t = (closingFrom? depth offset t).map (k + ·) := by
  induction t generalizing depth offset with
  | nil => rfl
  | cons c t ih =>
    simp only [closingFrom?, Nat.add_assoc, ih]
    split
    · rfl
    · split
      · split <;> rfl
      · rfl

theorem Nesting.closing?_append_add (x u : Text) (n : Nat) :
    closing? (x ++ u) (x.size + n) = (closing? u n).map (x.size + ·) := by
  rw [closing?, closing?, charAt?_append_add, after_append_add, closingFrom?_add]
  split <;> rfl

namespace Insertion

/-- The columns are read behind a front as they are read without it. -/
theorem columns?_append_add {m : Text} (hsize : m.size = x.size) (u masked : Text) (n : Nat) :
    columns? (x ++ u) (m ++ masked) (x.size + n) = (columns? u masked n).map fun r =>
      (r.1, x.size + r.2) := by
  rw [columns?_eq, columns?_eq, ← hsize, blankEnd_append_add, charAt?_append_add,
    Nesting.closing?_append_add]
  split
  · cases Nesting.closing? masked (blankEnd masked n) with
    | none => rfl
    | some close =>
      simp only [map_some, bind_some, Nat.add_assoc, blankEnd_append_add]
      rw [hsize, slice_append_add]
  · rfl

theorem valuesEnd?_append_add (x : Text) (h : u.before n ≠ []) :
    valuesEnd? (x ++ u) (x.size + n) = (valuesEnd? u n).map (x.size + ·) := by
  have hat (word : Text) : isAt (x ++ u) word (x.size + n) = isAt u word n := by
    rw [isAt, isAt, isBoundary_append_add, ((twin_append_add x h).here? fun _ _ => .nil).isSome_eq]
  rw [valuesEnd?, valuesEnd?, hat, hat]
  split
  · simp [Nat.add_assoc]
  · split
    · simp [Nat.add_assoc]
    · rfl

end Insertion

end Recast
