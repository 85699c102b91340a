import Recast.Pass.Comparison
import Recast.Proofs.Landmarks

/-!
# Comparisons of columns

A comparison of a named column is read without meeting a quote, and its operator shows that it
stands outside literals. So all of it shows in the mask.
-/

namespace Recast

open Literal List Text
open Option hiding guard

variable {t t' : Text} {c d : Cursor} {region : Nat} {isEqual : Bool} {P : Char → Prop} {l : Clause}
  {columns : List ColumnRef} {names : List Text} {number : Option Span}

namespace Cursor

/-! ### Reading without quotes -/

/-- No quote is read from `c` to `d`. -/
def Quiet (c d : Cursor) : Prop := Through (isQuote · = false) c d

theorem quiet_of_class {p : Char → Bool} (hsingle : p '\'' = false) (hdouble : p '"' = false) :
    ∀ x, p x → isQuote x = false :=
  fun _ hx => isQuote_of_class hx hsingle hdouble

theorem quiet_blanks (c : Cursor) : Quiet c c.blanks :=
  through_skipWhile c (quiet_of_class (by decide) (by decide))

theorem quiet_word? {word : Text} (h : c.word? word = some d)
    (hword : ∀ x ∈ word, isQuote (foldChar x) = false) : Quiet c d := by
  obtain ⟨w, hw, hfold⟩ := word?_reads h
  exact ⟨w, hw, sees_foldChar.no_quote hfold hword⟩

/-- From `c` to `d` a word that shows is read, and no quote around it. -/
def Shown (c d : Cursor) : Prop := ∃ e f word, Quiet c e ∧ e.word? word = some f ∧
  Shows foldChar word = true ∧ Quiet f d

theorem Shown.quiet (h : Shown c d) : Quiet c d := by
  obtain ⟨e, f, word, hce, hword, hshows, hfd⟩ := h
  rw [Shows, Bool.and_eq_true] at hshows
  have hef := quiet_word? hword fun x hx => by simpa using all_eq_true.1 hshows.1 x hx
  exact (hce.trans hef).trans hfd

theorem Shown.of_quiet {e : Cursor} (h : Quiet c d) (h' : Shown d e) : Shown c e := by
  obtain ⟨f, g, word, hdf, hword, hshows, hge⟩ := h'
  exact ⟨f, g, word, h.trans hdf, hword, hshows, hge⟩

theorem Shown.clear (h : Shown c d) (hc : At (mask t) c) :
    Clear (mask t) c ∧ Clear (mask t) d ∧ c.rest ≠ [] := by
  obtain ⟨w, hw, hno⟩ := h.quiet
  obtain ⟨e, f, word, ⟨u, hu, huq⟩, hword, hshows, -⟩ := h
  obtain ⟨hclear, -, hne⟩ := (hc.reads hu).clear_of_word? hword hshows
  have hstart := hclear.of_reads hc hu huq
  refine ⟨hstart, hstart.reads hw hno, ?_⟩
  rw [hu.rest]
  simp [hne]

end Cursor

namespace Comparison

open Cursor

/-! ### The parts of a comparison -/

def operators : List Text := ["!=", "<>", "="]

theorem operator?_word (h : operator? c = some (isEqual, d)) :
    ∃ word ∈ operators, c.word? word = some d := by
  rw [operator?] at h
  split at h
  · next h' => cases h; exact ⟨_, by decide, h'⟩
  · next h' => cases h; exact ⟨_, by decide, h'⟩
  · next h' => cases h; exact ⟨_, by decide, h'⟩
  · cases h

theorem operator?_head (h : operator? c = some (isEqual, d)) :
    ∃ x r, c.rest = x :: r ∧ foldChar x ∈ ['!', '<', '='] := by
  obtain ⟨word, hword, hd⟩ := operator?_word h
  obtain ⟨w, hw, hfold⟩ := word?_reads hd
  have hhead :=
    (by decide : ∀ w ∈ operators, w.head?.any (['!', '<', '='].contains <| foldChar ·)) word hword
  cases word with
  | nil => cases hhead
  | cons y word =>
    obtain ⟨x, w, rfl, hx, -⟩ := map_eq_cons_iff.1 hfold
    exact ⟨x, _, hw.rest, by rw [hx]; simpa using hhead⟩

theorem number?_through (hminus : P '-') (hdot : P '.') (hdigit : ∀ x, isDecimalDigit x → P x)
    (h : number? c = some d) : Through P c d := by
  obtain ⟨e, he, h⟩ := bind_eq_some_iff.1 h
  have hdigits := (through_skipSign c hminus).trans (through_some? he hdigit)
  simp only at h
  split at h
  · next f hfraction =>
    cases h
    obtain ⟨g, hg, k, hk, _, -, hfraction⟩ := of_bind₃ hfraction
    cases hfraction
    exact (hdigits.trans (through_sign? hg hdot)).trans (through_some? hk hdigit)
  · split at h
    · cases h
    · cases h
      exact hdigits

def Within (c d : Cursor) (s : Span) : Prop := c.offset ≤ s.start ∧ s.stop ≤ d.offset

/-- The rest of a comparison shows, and its number stands in it. -/
theorem tail?_shown (h : tail? c = some (isEqual, number, d)) :
    Shown c d ∧ ∀ s, number = some s → Within c d s := by
  obtain ⟨_, -, ⟨e, f⟩, hf, h⟩ := of_bind₂ h
  obtain ⟨word, hmem, hword⟩ := operator?_word hf
  have hshows := (by decide : ∀ word ∈ operators, Shows foldChar word) word hmem
  have hblanks := quiet_blanks f
  have hshown : Shown c f.blanks := ⟨_, f, word, quiet_blanks c, hword, hshows, hblanks⟩
  simp only at h
  split at h
  · next g hg =>
    cases h
    have hnumber : Quiet _ d :=
      number?_through (by decide) (by decide) (quiet_of_class (by decide) (by decide)) hg
    refine ⟨⟨_, f, word, quiet_blanks c, hword, hshows, hblanks.trans hnumber⟩, ?_⟩
    rintro s ⟨⟩
    exact ⟨hshown.quiet.le, Nat.le_refl _⟩
  · cases h
    exact ⟨hshown, by simp⟩

/-- How a comparison is read: the name from `e` to `k`, behind its table or where the comparison
starts. -/
structure Clause.Parsed (names : List Text) (l : Clause) (c d e k : Cursor) : Prop where
  edge : c.atEdge
  span : l.span = c.spanTo d
  column : l.column = ⟨c.offset, k.offset⟩
  name : l.name = e.spanTo k
  word : ∃ word ∈ names, e.word? word = some k
  tail : tail? k = some (l.isEqual, l.number, d)
  table :
      l.table = none ∧ e = c ∨ ∃ f, l.table = some (c.spanTo f) ∧ c.some? isFoldedName = some f ∧
    f.sign? '.' = some e

/-- How a comparison was read. -/
theorem exists_parsed (h : clause? names c = some (l, d)) : ∃ e k, l.Parsed names c d e k := by
  obtain ⟨_, hguard, h⟩ := bind_eq_some_iff.1 h
  have hedge : c.atEdge := by simpa [guard] using hguard
  have h : Option.orElse _ (fun _ => _) = some (l, d) := h
  rw [orElse_eq_or, or_eq_some_iff] at h
  rcases h with h | ⟨-, h⟩
  · obtain ⟨f, hf, e, he, ⟨name, isEqual, number, g⟩, hg, h⟩ := of_bind₃ h
    cases h
    obtain ⟨word, hword, hg⟩ := exists_of_findSome?_eq_some hg
    obtain ⟨k, hk, _, htail, hg⟩ := of_bind₂ hg
    cases hg
    exact ⟨e, k, hedge, rfl, rfl, rfl, ⟨word, hword, hk⟩, htail, .inr ⟨f, rfl, hf, he⟩⟩
  · obtain ⟨⟨name, isEqual, number, g⟩, hg, h⟩ := bind_eq_some_iff.1 h
    cases h
    obtain ⟨word, hword, hg⟩ := exists_of_findSome?_eq_some hg
    obtain ⟨k, hk, _, htail, hg⟩ := of_bind₂ hg
    cases hg
    exact ⟨c, k, hedge, rfl, rfl, rfl, ⟨word, hword, hk⟩, htail, .inl ⟨rfl, rfl⟩⟩

theorem Clause.Parsed.reads {e k : Cursor} (h : l.Parsed names c d e k) : ∃ w, Reads c w k := by
  obtain ⟨word, -, hk⟩ := h.word
  obtain ⟨w, hw, -⟩ := word?_reads hk
  rcases h.table with ⟨-, rfl⟩ | ⟨f, -, hf, he⟩
  · exact ⟨w, hw⟩
  · obtain ⟨u, hu, -⟩ := some?_reads hf
    exact ⟨_, (hu.trans (sign?_reads he)).trans hw⟩

/-- The parts of a comparison stand where it was read. -/
structure Clause.Inside (l : Clause) (c d : Cursor) : Prop where
  span : l.span = c.spanTo d
  column : Within c d l.column
  table : ∀ s, l.table = some s → Within c d s
  name : Within c d l.name
  number : ∀ s, l.number = some s → Within c d s

/-- A comparison starts and ends outside literals. -/
theorem clause?_shown (hnames : ∀ name ∈ names, ∀ x ∈ name, isQuote (foldChar x) = false)
    (h : clause? names c = some (l, d)) : Shown c d ∧ l.Inside c d := by
  obtain ⟨e, k, hp⟩ := exists_parsed h
  obtain ⟨word, hword, hk⟩ := hp.word
  have hname := quiet_word? hk (hnames word hword)
  obtain ⟨hshown, hnumber⟩ := tail?_shown hp.tail
  obtain ⟨hfront, htable⟩ : Quiet c e ∧ ∀ s, l.table = some s → Within c e s := by
    rcases hp.table with ⟨htable, rfl⟩ | ⟨f, htable, hf, he⟩
    · exact ⟨.refl e, by simp [htable]⟩
    · have hsign : Quiet f e := through_sign? he (by decide)
      refine ⟨(through_some? hf (quiet_of_class (by decide) (by decide))).trans hsign, ?_⟩
      rintro s hs
      cases htable.symm.trans hs
      exact ⟨Nat.le_refl _, hsign.le⟩
  have hle := hfront.le
  have hle' := hname.le
  have hend := hshown.quiet.le
  refine ⟨hshown.of_quiet (hfront.trans hname), hp.span, ?_, fun s hs => ?_, ?_, fun s hs => ?_⟩
  · rw [hp.column]
    exact ⟨Nat.le_refl _, hend⟩
  · exact ⟨(htable s hs).1, Nat.le_trans (htable s hs).2 (Nat.le_trans hle' hend)⟩
  · rw [hp.name]
    exact ⟨hle, hend⟩
  · exact ⟨Nat.le_trans hle (Nat.le_trans hle' (hnumber s hs).1), (hnumber s hs).2⟩

/-! ### The edits -/

/-- What stands inside a comparison is what the mask shows there. -/
theorem slice_within (hregion : Outside (mask t) region) {w : Text}
    (hclear : Clear (mask (t.after region)) c) (hw : Reads c w d) (hno : Code w) (hne : c.rest ≠ [])
    {s : Span} (hs : Within c d s) :
    t.slice (s.shift region) = w.slice ⟨s.start - c.offset, s.stop - c.offset⟩ := by
  obtain ⟨a, hm, hoffset, ha⟩ := hclear
  obtain ⟨front, b, hcut, -, -, hfront, hb⟩ := exists_cut hm hne ha
  rw [hw.rest] at hb
  obtain ⟨r, rfl, -⟩ := exists_of_mask_append hb hno
  have ht := before_append_after t region
  have hboundary : (t.before region).size = region := by simpa [isBoundary] using hregion.isBoundary
  have hsize : size (t.before region ++ front) = region + c.offset := by
    rw [size_append, hboundary, hoffset, ← hfront, size_mask]
  rw [hcut, ← append_assoc] at ht
  obtain ⟨hstart, hstop⟩ := hs
  rw [hw.offset] at hstop
  rw [← ht, slice_middle _ _ _ (by rw [hsize]; simp only [Span.shift]; omega)
    (by rw [hsize]; simp only [Span.shift]; omega)]
  simp only [Span.shift]
  congr 2 <;> omega

/-- The edit for a comparison depends on the texts of its parts alone. -/
theorem edit?_congr {P : Span → Prop}
    (htext : ∀ s, P s → t'.slice (s.shift region) = t.slice (s.shift region)) (hcolumn : P l.column)
    (htable : ∀ s, l.table = some s → P s) (hname : P l.name)
    (hnumber : ∀ s, l.number = some s → P s) :
    edit? t' columns region l = edit? t columns region l := by
  obtain ⟨span, column, table, name, isEqual, number⟩ := l
  simp only [edit?, htext column hcolumn, htext name hname]
  cases table with
  | none =>
    simp only [all_none]
    cases number with
    | none => rfl
    | some n => simp only [htext n (hnumber n rfl)]
  | some s =>
    simp only [all_some, htext s (htable s rfl)]
    cases number with
    | none => rfl
    | some n => simp only [htext n (hnumber n rfl)]

theorem closed_edit? {e : Edit} (h : edit? t columns region l = some e) {P : Span → Prop}
    (hquote : ∀ s, P s → Code (t.slice (s.shift region))) (hcolumn : P l.column)
    (hnumber : ∀ s, l.number = some s → P s) : e.span = l.span.shift region ∧ Closed e.new := by
  obtain ⟨_, -, h⟩ := bind_eq_some_iff.1 h
  cases h
  refine ⟨rfl, ((Code.closed (hquote _ hcolumn)).append ?_).append ?_⟩
  · split <;> exact Code.closed (by decide)
  · cases hn : l.number with
    | none => exact closed_nil
    | some n =>
      exact ((Code.closed (by decide)).append (Code.closed (hquote n (hnumber n hn)))).append
        (Code.closed (by decide))

/-- The edits for a comparison are the same in texts that are alike. -/
theorem edit?_alongside (h : Alike t t') (hregion : Outside (mask t) region)
    (columns : List ColumnRef) (hc : At (mask (t.after region)) c) (hshown : Shown c d)
    (hl : l.Inside c d) :
    Alongside (mask t) (edit? t columns region l).toList (edit? t' columns region l).toList := by
  obtain ⟨hclear, hclear', hne⟩ := hshown.clear hc
  obtain ⟨w, hw, hno⟩ := hshown.quiet
  have hregion' : Outside (mask t') region := h ▸ hregion
  have hrest : mask (t.after region) = mask (t'.after region) := h.after hregion
  have hslice {s : Span} (hs : Within c d s) := slice_within hregion hclear hw hno hne hs
  have hsame : ∀ s, Within c d s → t'.slice (s.shift region) = t.slice (s.shift region) := by
    intro s hs
    rw [hslice hs, slice_within hregion' (hrest ▸ hclear) hw hno hne hs]
  have hquote : ∀ s, Within c d s → Code (t.slice (s.shift region)) := by
    intro s hs x hx
    rw [hslice hs] at hx
    exact hno x (mem_of_mem_slice hx)
  rw [edit?_congr hsame hl.column hl.table hl.name hl.number]
  cases hedit : edit? t columns region l with
  | none => exact .nil
  | some e =>
    obtain ⟨span, new⟩ := e
    obtain ⟨hspan, hnew⟩ := closed_edit? hedit hquote hl.column hl.number
    obtain rfl : span = l.span.shift region := hspan
    rw [hl.span]
    exact .cons (Free.of_after hregion (hclear.free hne)) (hregion.of_after hclear'.outside)
      (.refl hnew) .nil

theorem exists_of_mem_namesOf {name : Text} (h : name ∈ namesOf columns) :
    ∃ r ∈ columns, r.column = name :=
  mem_map.1 (mem_sortedBy.1 (mem_foldr_dedup.1 h))

theorem of_isNameChar {c : Char} (h : isNameChar c)
    (hall : ∀ n < 128, isNameChar (Char.ofNat n) → P (Char.ofNat n)) : P c := by
  rcases Bool.or_eq_true_iff.1 h with hc | hc
  · exact of_isAlphanum hc fun n hn halnum => hall n hn (Bool.or_eq_true_iff.2 (.inl halnum))
  · rw [beq_iff_eq.1 hc]
    exact hall 95 (by decide) (by decide)

theorem isQuote_foldChar {c : Char} (h : isNameChar c) : isQuote (foldChar c) = false :=
  of_isNameChar (P := fun c => isQuote (foldChar c) = false) h (by decide)

theorem outside_of_region? {kind : Kind} {region : Nat} (h : region? kind (mask t) = some region) :
    Outside (mask t) region := by
  cases kind with
  | select | delete => cases h; exact outside_zero t
  | update =>
    obtain ⟨s, hs, rfl⟩ := map_eq_some_iff.1 h
    exact (Keyword.free_of_findTop? (by decide) hs).1.outside
  | _ => cases h

/-- Comparisons are replaced without a look at data. -/
theorem byLike?_alike (catalog : Catalog) (kind : Kind)
    (hnames : ∀ r ∈ catalog.ofClass .text, ∀ c ∈ r.column, isNameChar c) (h : Alike t t') :
    Alike ((byLike? catalog kind t).getD t) ((byLike? catalog kind t').getD t') := by
  rw [byLike?, byLike?, ← show mask t = mask t' from h]
  cases hregion : region? kind (mask t) with
  | none => exact h
  | some region =>
    have hplace := outside_of_region? hregion
    refine h.applyAll (.filterMap fun l hl => ?_)
    rw [← hplace.mask_after] at hl
    obtain ⟨c, d, hc, hread⟩ := at_of_mem_findAll hl
    have hquote :
        ∀ name ∈ namesOf (catalog.ofClass .text), ∀ x ∈ name, isQuote (foldChar x) = false := by
      intro name hname x hx
      obtain ⟨r, hr, rfl⟩ := exists_of_mem_namesOf hname
      exact isQuote_foldChar (hnames r hr x hx)
    obtain ⟨hshown, hinside⟩ := clause?_shown hquote hread
    exact edit?_alongside h hplace _ hc hshown hinside

end Comparison

end Recast
