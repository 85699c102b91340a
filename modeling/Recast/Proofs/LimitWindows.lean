import Recast.Proofs.Opening
import Recast.Proofs.Recounting

/-!
# Limits with numbers of any size

A limit may be written with any numerals (`Amounts.Spells`), but the pass reads them into words. It
leaves the statement alone if the first numeral does not fit. If the first fits and the other does
not, the other is taken as not there, and the statement gets a TOP that it did not ask for. In all
other cases the window is kept: as a TOP, or as rows to skip and rows to keep (`apply_kept_iff`).
-/

namespace Recast

open Literal Nesting Cursor Keyword List Text
open Option hiding guard

variable {a b e front g k q r t : Text} {c d : Cursor} {n : Nat} {l : Amounts} {m : Numeral}

/-- The rows in a window are those from the first one on that is not skipped, as many as are
kept. -/
theorem Window.getElem?_apply {α : Type} (w : Window) (rows : List α) (k : Nat) :
    (Window.apply (some w) rows)[k]? = if k < w.count then rows[w.skip + k]? else none := by
  rw [Window.apply, getElem?_take]
  simp only [getElem?_drop]

/-! ### Words at a place -/

theorem Keyword.isAt_mask_iff {word : Text} (hword : Named word)
    (hshows : Shows Char.toLower word) : isAt (mask t) word n ↔ Occurs t word n := by
  rw [occurs_iff hword hshows, isAt, Bool.and_eq_true, isSome_iff_exists]
  constructor
  · rintro ⟨hboundary, d, hd⟩
    exact ⟨_, d, at_ofOffset hboundary, hd, rfl⟩
  · rintro ⟨c, d, hc, hd, rfl⟩
    exact ⟨hc.isBoundary, d, by rwa [hc.ofOffset_eq]⟩

namespace Limit

/-! ### Numerals -/

structure Numeral where
  text : Text
  ne_nil : text ≠ []
  digits : ∀ c ∈ text, c.isDigit = true

namespace Numeral

def value (n : Numeral) : Nat := Number.digitsValue n.text

/-- Whether the number goes into a word. -/
def Fits (n : Numeral) : Prop := n.value < 2 ^ 64

instance (n : Numeral) : Decidable n.Fits := inferInstanceAs (Decidable (_ < _))

theorem isDecimalDigit (n : Numeral) : ∀ c ∈ n.text, isDecimalDigit c := by
  intro c hc
  have hdigit := n.digits c hc
  exact of_isAlphanum (P := fun c => c.isDigit → Recast.isDecimalDigit c)
    (by simp [Char.isAlphanum, hdigit])
    (by decide) hdigit

theorem readUnsigned?_eq (n : Numeral) :
    Number.readUnsigned? n.text = if n.Fits then some n.value else none := by
  have hall : (!n.text.isEmpty && n.text.all Char.isDigit) = true := by
    rw [Bool.and_eq_true, Bool.not_eq_true', List.isEmpty_eq_false_iff, List.all_eq_true]
    exact ⟨n.ne_nil, n.digits⟩
  rw [Number.readUnsigned?, Number.readNat?, if_pos hall]
  rfl

end Numeral

/-- The numbers of a limit in the order in which they are written. -/
inductive Amounts where
  | count (n : Numeral)
  /-- The rows to skip, a comma and the rows to keep. -/
  | comma (o n : Numeral)
  /-- The rows to keep, OFFSET and the rows to skip. -/
  | offset (n o : Numeral)

namespace Amounts

def first : Amounts → Numeral
  | count n => n
  | comma o _ => o
  | offset n _ => n

def second : Amounts → Option Numeral
  | count _ => none
  | comma _ n => some n
  | offset _ o => some o

def window : Amounts → Window
  | count n => ⟨0, n.value⟩
  | comma o n => ⟨o.value, n.value⟩
  | offset n o => ⟨o.value, n.value⟩

def clause (start : Nat) : Amounts → Clause
  | count n => ⟨start, n.text, none, none⟩
  | comma o n => ⟨start, o.text, some n.text, none⟩
  | offset n o => ⟨start, n.text, none, some o.text⟩

/-- What is written behind the first number. -/
inductive Tail : Amounts → Text → Prop
  | count (n : Numeral) : Tail (.count n) []
  | comma (o n : Numeral) {g g' : Text} :
      (∀ c ∈ g, isBlank c = true) → (∀ c ∈ g', isBlank c = true) →
    Tail (.comma o n) (g ++ ',' :: (g' ++ n.text))
  | offset (n o : Numeral) {g w g' : Text} : g ≠ [] → (∀ c ∈ g, isBlank c = true) →
    w.map foldChar = ("OFFSET" : Text).map foldChar → g' ≠ [] → (∀ c ∈ g', isBlank c = true) →
    Tail (.offset n o) (g ++ (w ++ (g' ++ o.text)))

end Amounts

/-- What may stand behind a limit: blanks, and a semicolon among them. -/
inductive IsEnd : Text → Prop
  | blanks {g : Text} : (∀ c ∈ g, isBlank c = true) → IsEnd g
  | semicolon {g g' : Text} :
      (∀ c ∈ g, isBlank c = true) → (∀ c ∈ g', isBlank c = true) → IsEnd (g ++ ';' :: g')

/-- A limit as it is written at the end of a statement. -/
def Amounts.Spells (l : Amounts) (t : Text) : Prop :=
  ∃ w g tail e, t = w ++ (g ++ (l.first.text ++ (tail ++ e))) ∧
    w.map foldChar = ("LIMIT" : Text).map foldChar ∧
    g ≠ [] ∧ (∀ c ∈ g, isBlank c = true) ∧ l.Tail tail ∧ IsEnd e

/-! ### Reading a limit -/

theorem Numeral.exists_number? (n : Numeral) (hrest : c.rest = n.text ++ r)
    (hr : ∀ x, r.head? = some x → Recast.isDecimalDigit x = false) :
    ∃ d, number? c = some (n.text, d) ∧ d.rest = r := by
  obtain ⟨d, hd, hread⟩ := exists_some? hrest n.ne_nil n.isDecimalDigit hr
  have hd' : d.rest = r := hread.rest_eq hrest
  refine ⟨d, ?_, hd'⟩
  rw [number?, digits?, hd]
  show some (c.rest.take (c.rest.length - d.rest.length), d) = _
  rw [hrest, hd']
  simp

theorem IsEnd.rest_blanks (h : IsEnd e) (hrest : c.rest = e) :
    c.blanks.rest = [] ∨ ∃ g, c.blanks.rest = ';' :: g ∧ ∀ x ∈ g, isBlank x := by
  cases h with
  | blanks hg =>
    rw [← append_nil e] at hrest
    have hread := reads_skipWhile hrest hg (by simp)
    exact .inl (hread.rest_eq hrest)
  | @semicolon g g' hg hg' =>
    have hread := reads_skipWhile hrest hg (by simp; decide)
    exact .inr ⟨g', hread.rest_eq hrest, hg'⟩

theorem IsEnd.atEnd (h : IsEnd e) (hrest : c.rest = e) : (c.blanks.skipSign ';').blanks.atEnd := by
  rcases h.rest_blanks hrest with hnil | ⟨g, hg, hblank⟩
  · have hskip : c.blanks.skipSign ';' = c.blanks := skipSign_of_head (by simp [hnil])
    have hblanks : c.blanks.blanks = c.blanks := skipWhile_of_head (by simp [hnil])
    rw [hskip, hblanks, Cursor.atEnd, hnil]
    rfl
  · obtain ⟨d, hd, -, hrestd⟩ := exists_char? (p := (· == ';')) hg (by decide)
    have hskip : c.blanks.skipSign ';' = d := by rw [skipSign, sign?, hd, getD_some]
    rw [← append_nil g] at hrestd
    have hread : Reads d g d.blanks := reads_skipWhile hrestd hblank (by simp)
    rw [hskip, Cursor.atEnd, hread.rest_eq hrestd]
    rfl

theorem blanks?_eq (h : c.blanks? = some d) : d = c.blanks := by
  rw [blanks?, some?] at h
  split at h
  · exact (some.inj h).symm
  · cases h

theorem IsEnd.second?_eq_none (h : IsEnd e) (hrest : c.rest = e) : second? c = none := by
  have hsign : c.blanks.sign? ',' = none := by
    rcases h.rest_blanks hrest with hnil | ⟨g, hg, -⟩
    · exact sign?_of_head (by simp [hnil])
    · exact sign?_of_head (by simp [hg])
  rw [second?, hsign]
  rfl

theorem IsEnd.offset?_eq_none (h : IsEnd e) (hrest : c.rest = e) : offset? c = none := by
  refine eq_none_iff_forall_ne_some.2 fun x hx => ?_
  obtain ⟨d, hd, f, hf, -⟩ := of_bind₂ hx
  obtain ⟨w, hw, hfold⟩ := word?_reads hf
  obtain ⟨y, w, rfl, hy, -⟩ := map_eq_cons_iff.1 hfold
  have hrestd := hw.rest
  rw [blanks?_eq hd] at hrestd
  rcases h.rest_blanks hrest with hnil | ⟨g, hg, -⟩
  · simp [hnil] at hrestd
  · obtain ⟨rfl, -⟩ := cons.inj (hg.symm.trans hrestd)
    exact absurd hy (by decide)

theorem isDecimalDigit_head (hg : ∀ c ∈ g, isBlank c)
    (hr : g = [] → ∀ x, r.head? = some x → isDecimalDigit x = false) :
    ∀ x, (g ++ r).head? = some x → isDecimalDigit x = false := by
  intro x hx
  cases g with
  | nil => exact hr rfl x hx
  | cons y g =>
    cases hx
    exact of_isBlank (P := fun c => isDecimalDigit c = false) (hg _ (by simp)) (by decide)

theorem IsEnd.isDecimalDigit_head (h : IsEnd e) :
    ∀ x, e.head? = some x → isDecimalDigit x = false := by
  cases h with
  | blanks hg =>
    rw [← append_nil e]
    exact Limit.isDecimalDigit_head hg fun _ => by simp
  | semicolon hg hg' => exact Limit.isDecimalDigit_head hg fun _ => by simp; decide

theorem Numeral.isBlank_head (n : Numeral) (r : Text) :
    ∀ x, (n.text ++ r).head? = some x → isBlank x = false := by
  obtain ⟨y, t, hy⟩ := exists_cons_of_ne_nil n.ne_nil
  intro x hx
  rw [hy] at hx
  cases hx
  exact isBlank_of_isDecimalDigit (n.isDecimalDigit y (by rw [hy]; simp))

theorem Numeral.exists_second? (n : Numeral) (hrest : c.rest = a ++ ',' :: (b ++ (n.text ++ r)))
    (ha : ∀ x ∈ a, isBlank x) (hb : ∀ x ∈ b, isBlank x)
    (hr : ∀ x, r.head? = some x → Recast.isDecimalDigit x = false) :
    ∃ d, second? c = some (n.text, d) ∧ d.rest = r := by
  obtain ⟨d, hd, hrestd⟩ := exists_sign?_blanks hrest ha (by decide)
  have hread : Reads d b d.blanks := reads_skipWhile hrestd hb (n.isBlank_head r)
  obtain ⟨k, hk, hrestk⟩ := n.exists_number? (hread.rest_eq hrestd) hr
  refine ⟨k, ?_, hrestk⟩
  rw [second?, hd]
  exact hk

/-- OFFSET and a number are read, and no comma. -/
theorem Numeral.exists_offset? (n : Numeral) {w : Text}
    (hrest : c.rest = a ++ (w ++ (b ++ (n.text ++ r)))) (hane : a ≠ []) (ha : ∀ x ∈ a, isBlank x)
    (hw : w.map foldChar = ("OFFSET" : Text).map foldChar) (hbne : b ≠ []) (hb : ∀ x ∈ b, isBlank x)
    (hr : ∀ x, r.head? = some x → Recast.isDecimalDigit x = false) :
    second? c = none ∧ ∃ d, offset? c = some (n.text, d) ∧ d.rest = r := by
  obtain ⟨y, v, hv, hy, -⟩ := map_eq_cons_iff.1 hw
  have hhead : ∀ x, (w ++ (b ++ (n.text ++ r))).head? = some x → isBlank x = false ∧ x ≠ ',' := by
    intro x hx
    rw [hv] at hx
    cases hx
    refine ⟨isBlank_of_class (p := fun c => foldChar c == 'o') (beq_iff_eq.2 hy) (by decide), ?_⟩
    · rintro rfl
      exact absurd hy (by decide)
  obtain ⟨d, hd, hread⟩ := exists_some? hrest hane ha fun x hx => (hhead x hx).1
  have hrestd := hread.rest_eq hrest
  refine ⟨?_, ?_⟩
  · have hblanks := blanks?_eq hd
    have hsign : c.blanks.sign? ',' = none := by
      rw [← hblanks]
      exact sign?_of_head fun hcomma => (hhead ',' (hrestd ▸ hcomma)).2 rfl
    rw [second?, hsign]
    rfl
  · obtain ⟨e, he, hreade⟩ := exists_word? hrestd hw
    have hreste := hreade.rest_eq hrestd
    obtain ⟨f, hf, hreadf⟩ := exists_some? hreste hbne hb (n.isBlank_head r)
    obtain ⟨k, hk, hrestk⟩ := n.exists_number? (hreadf.rest_eq hreste) hr
    refine ⟨k, ?_, hrestk⟩
    simp only [offset?, blanks?, hd, he, hf, bind_eq_bind, bind_some, hk]

/-- A limit at the end of a text is read. -/
theorem Amounts.Spells.exists_clause? (h : l.Spells t) (hrest : c.rest = t)
    (hlast : c.afterWord = false) : ∃ e, clause? c = some (l.clause c.offset, e) := by
  obtain ⟨w, g, tail, e, rfl, hw, hgne, hg, htail, hend⟩ := h
  obtain ⟨d, hd, hread⟩ := exists_word? hrest hw
  have hrestd := hread.rest_eq hrest
  obtain ⟨f, hf, hreadf⟩ := exists_some? hrestd hgne hg (l.first.isBlank_head _)
  have hrestf := hreadf.rest_eq hrestd
  cases htail with
  | count n =>
    obtain ⟨k, hk, hrestk⟩ := n.exists_number? hrestf hend.isDecimalDigit_head
    refine ⟨(k.blanks.skipSign ';').blanks, ?_⟩
    simp only [clause?, hlast, hd, blanks?, hf, hk, hend.second?_eq_none hrestk,
      hend.offset?_eq_none hrestk, hend.atEnd hrestk, bind_eq_bind, bind_some]
    rfl
  | @comma o n a b ha hb =>
    rw [append_assoc, cons_append, append_assoc] at hrestf
    obtain ⟨k, hk, hrestk⟩ :=
      o.exists_number? hrestf (isDecimalDigit_head ha fun _ => by simp; decide)
    obtain ⟨i, hi, hresti⟩ := n.exists_second? hrestk ha hb hend.isDecimalDigit_head
    refine ⟨(i.blanks.skipSign ';').blanks, ?_⟩
    simp only [clause?, hlast, hd, blanks?, hf, hk, hi, hend.atEnd hresti, bind_eq_bind, bind_some]
    rfl
  | @offset n o a w b hane ha hw hbne hb =>
    rw [append_assoc, append_assoc, append_assoc] at hrestf
    obtain ⟨k, hk, hrestk⟩ :=
      n.exists_number? hrestf (isDecimalDigit_head ha fun hnil => absurd hnil hane)
    obtain ⟨hsecond, i, hi, hresti⟩ :=
      o.exists_offset? hrestk hane ha hw hbne hb hend.isDecimalDigit_head
    refine ⟨(i.blanks.skipSign ';').blanks, ?_⟩
    simp only [clause?, hlast, hd, blanks?, hf, hk, hsecond, hi, hend.atEnd hresti, bind_eq_bind,
      bind_some]
    rfl

/-- The letter with which a clause begins does not occur in it again. -/
theorem toLower_ne_of_mem_tail {l : Clause} (h : clause? c = some (l, d)) :
    ∀ x ∈ c.rest.tail, x.toLower ≠ 'l' := by
  have hletters {word w : Text} (hw : w.map foldChar = word.map foldChar)
    (hword : 'l' ∉ word.map foldChar) :
      ∀ x ∈ w, x.toLower ≠ 'l' := by
    intro x hx hl
    rw [← hw, ← foldChar_of_toLower hl (by decide)] at hword
    exact hword (mem_map_of_mem hx)
  obtain ⟨-, hrest, e, he, y, hy, hno⟩ := clause?_through (P := fun x => x.toLower ≠ 'l')
    (toLower_ne_of_class (by decide) (by decide)) (toLower_ne_of_class (by decide) (by decide))
      (by decide) (by decide)
    (fun w hw => hletters hw (by decide)) h
  obtain ⟨w, hw, hfold⟩ := word?_reads he
  obtain ⟨x, w, rfl, -, hfold⟩ := map_eq_cons_iff.1 hfold
  rw [hw.rest, hy.rest, hrest, append_nil]
  exact forall_mem_append.2 ⟨@hletters "IMIT" w hfold (by decide), hno⟩

theorem Numeral.no_quote (n : Numeral) : Code n.text :=
  fun c hc => isQuote_of_class (n.isDecimalDigit c hc) (by decide) (by decide)

theorem Amounts.Tail.no_quote {tail : Text} (h : l.Tail tail) : Code tail := by
  cases h with
  | count n => simp
  | comma o n ha hb =>
    exact (code_of_isBlank ha).append
      (forall_mem_cons.2 ⟨by decide, (code_of_isBlank hb).append n.no_quote⟩)
  | offset n o _ ha hw _ hb =>
    have hword := sees_foldChar.no_quote hw (by decide)
    exact (code_of_isBlank ha).append (hword.append ((code_of_isBlank hb).append o.no_quote))

theorem IsEnd.no_quote (h : IsEnd e) : Code e := by
  cases h with
  | blanks hg => exact code_of_isBlank hg
  | semicolon hg hg' =>
    exact (code_of_isBlank hg).append (forall_mem_cons.2 ⟨by decide, code_of_isBlank hg'⟩)

theorem Amounts.Spells.exists_cons (h : l.Spells t) :
    ∃ y r, t = y :: r ∧ y.toLower = 'l' ∧ Code t := by
  obtain ⟨w, g, tail, e, rfl, hw, -, hg, htail, hend⟩ := h
  have hcode : Code (w ++ (g ++ (l.first.text ++ (tail ++ e)))) :=
    (sees_foldChar.no_quote hw (by decide)).append
    ((code_of_isBlank hg).append (l.first.no_quote.append (htail.no_quote.append hend.no_quote)))
  obtain ⟨y, v, rfl, hy, -⟩ := map_eq_cons_iff.1 hw
  exact ⟨y, _, rfl, toLower_of_foldChar hy (by decide) (by decide), hcode⟩

/-- A SELECT that ends in a limit outside parentheses and literals. -/
structure Limited (front : Text) (l : Amounts) (t : Text) : Prop where
  cut : ∃ clause, t = front ++ clause ∧ l.Spells clause
  verb : ∃ w r, front = w ++ r ∧ lower w = lower "SELECT" ∧ r.head?.any isNameChar = false
  closed : Closed front
  top : codeDepth none 0 front = 0
  edge : front.getLast?.any isWordChar = false

namespace Limited

variable {front t : Text} {l : Amounts} (h : Limited front l t)
include h

/-- The limit at the end is the one that is found. -/
theorem head?_findAll : ((start (mask t)).findAll clause?).head? = some (l.clause front.size) ∧
    depthAt (mask t) front.size = 0 := by
  obtain ⟨clause, rfl, hspells⟩ := h.cut
  obtain ⟨y, r, rfl, hy, hcode⟩ := hspells.exists_cons
  have hm : mask (front ++ y :: r) = mask front ++ y :: r := by
    rw [mask_append h.closed (apart_code (hcode y (by simp))), hcode.mask_eq]
  rw [hm]
  have hlast : (mask front).getLast?.any isWordChar = false := by
    rw [Closed.getLast?_mask h.closed]
    exact h.edge
  obtain ⟨e, he⟩ :=
    hspells.exists_clause? (c := ⟨0 + (mask front).size, (mask front).getLast?.or none, y :: r⟩) rfl
    (by rw [or_none]; exact hlast)
  refine ⟨?_, ?_⟩
  · have hfound :
        ∃ x, ((start (mask front ++ y :: r)).findAll clause?).head? = some x ∧
          x = l.clause front.size := by
      refine exists_head?_scanFrom (x := l.clause front.size) (k := e.offset) (by simp) ?_
        rfl (Nat.zero_le _)
        fun v c w found stop hu hstep => ?_
      · exact map_eq_some_iff.2 ⟨_, he, by simp only [Nat.zero_add, size_mask]⟩
      · obtain ⟨x, hread, -⟩ := map_eq_some_iff.1 hstep
        exact absurd hy (toLower_ne_of_mem_tail hread y (by simp))
    obtain ⟨x, hx, rfl⟩ := hfound
    exact hx
  · rw [← size_mask, depthAt, before_size_append, depth_mask, h.top]

theorem kind_eq : Kind.ofText t = .select := by
  obtain ⟨clause, rfl, -⟩ := h.cut
  obtain ⟨w, r, rfl, hw, -⟩ := h.verb
  rw [append_assoc]
  exact Kind.ofText_verb (v := ("SELECT", .select)) (by simp [Kind.verbs]) hw (r ++ clause)

end Limited

/-! ### The place of TOP -/

/-- DISTINCT as the first word. -/
structure Distinct (g k q t : Text) : Prop where
  cut : t = g ++ (k ++ q)
  gap : ∀ c ∈ g, isBlank c = true
  word : lower k = lower "DISTINCT"
  behind : q.head?.any isNameChar = false

/-- TOP goes behind `v`, which ends in the verb, or behind the DISTINCT that follows a SELECT. -/
inductive Placed (kind : Kind) (v r : Text) : Text → Text → Prop
  | verb : (kind = .select → ∀ g k q, ¬ Distinct g k q r) → Placed kind v r v r
  | distinct {g k q : Text} : kind = .select → Distinct g k q r → Placed kind v r (v ++ (g ++ k)) q

theorem named_distinct : Named "DISTINCT" := by decide

theorem Distinct.code (h : Distinct g k q t) : Code g ∧ Code k :=
  ⟨code_of_isBlank h.gap, sees_toLower.no_quote h.word (by decide)⟩

theorem Distinct.reads_blanks (h : Distinct g k q t) (last : Option Char) :
    Reads ⟨n, last, mask t⟩ g (blanks ⟨n, last, mask t⟩) := by
  obtain ⟨hne, hname⟩ := isNameChar_of_lower h.word named_distinct
  have hmask : mask t = g ++ (k ++ mask q) := by
    rw [h.cut, h.code.1.mask_append, h.code.2.mask_append]
  refine reads_skipWhile hmask h.gap fun x hx => ?_
  obtain ⟨y, v, rfl⟩ := exists_cons_of_ne_nil hne
  cases hx
  exact isBlank_of_isNameChar (hname _ (by simp))

section

variable {v r : Text} (hv : Code v)
include hv

/-- Up to the blanks behind the verb there is nothing to hide. -/
theorem Distinct.of_isAt {s : Text} (hmask : mask r = g ++ s) (hg : ∀ c ∈ g, isBlank c)
    (h : isAt (mask (v ++ r)) "DISTINCT" (v.size + g.size)) : ∃ k q, Distinct g k q r := by
  obtain ⟨a, k, q, heq, ha, hstands, hplace⟩ := (isAt_mask_iff named_distinct (by decide)).1 h
  obtain ⟨hma, -⟩ := hstands.mask named_distinct (by simp) ha
  rw [← heq, hv.mask_append, hmask, ← append_assoc] at hma
  obtain ⟨hfront, -⟩ := append_inj_of_size hma (by rw [size_mask, hplace, size_append])
  have hno : Code (mask a) := hfront ▸ hv.append (code_of_isBlank hg)
  rw [eq_of_mask_no_quote hno] at hfront
  subst hfront
  exact ⟨k, q, by simpa using heq, hg, hstands.lower_eq, hstands.behind⟩

variable (hr : r.head?.any isNameChar = false)
include hr

/-- DISTINCT is found behind the verb. -/
theorem Distinct.isAt (h : Distinct g k q r) :
    isAt (mask (v ++ r)) "DISTINCT" (v.size + g.size) := by
  obtain ⟨hcut, hg, hk, hq⟩ := h
  have hbefore : (v ++ g).getLast?.any isNameChar = false := by
    cases hlast : g.getLast? with
    | none =>
      -- without blanks DISTINCT would go on with the verb
      obtain rfl := getLast?_eq_none_iff.1 hlast
      obtain ⟨hne, hname⟩ := isNameChar_of_lower hk named_distinct
      obtain ⟨y, v, rfl⟩ := exists_cons_of_ne_nil hne
      rw [hcut] at hr
      exact absurd hr (by simpa using hname y (by simp))
    | some y =>
      rw [getLast?_append, hlast]
      exact isNameChar_of_isBlank (hg y (mem_of_getLast? hlast))
  refine (isAt_mask_iff named_distinct (by decide)).2 ⟨v ++ g, k, q, by simp [hcut],
    (hv.append (code_of_isBlank hg)).closed, ?_, size_append _ _⟩
  exact ⟨⟨k, [], by simp, hk, rfl⟩, hbefore, hq⟩

variable {kind : Kind} {verb : Text} (hfind : find? (mask (v ++ r)) verb 0 = some n)
  (hn : n + verb.size = v.size)
include hfind hn

omit hr in
theorem insertTop_eq (top : Text)
    (hg : Reads ⟨v.size, v.getLast?, mask r⟩ g (blanks ⟨v.size, v.getLast?, mask r⟩)) :
    insertTop (v ++ r) kind verb top = if kind = .select ∧
      isAt (mask (v ++ r)) "DISTINCT" (v.size + g.size) = true then
        (v ++ r).insertAt (v.size + g.size + 8) top
      else (v ++ r).insertAt v.size top := by
  have hstart : ofOffset (mask (v ++ r)) v.size = ⟨v.size, v.getLast?, mask r⟩ := by
    rw [hv.mask_append, ofOffset, before_size_append, after_size_append]
  rw [insertTop, hfind]
  simp only [hn, hstart, hg.offset]

/-- TOP is put in its place. -/
theorem exists_placed (top : Text) : ∃ p q, v ++ r = p ++ q ∧ Placed kind v r p q ∧
    insertTop (v ++ r) kind verb top = p ++ (top ++ q) := by
  have hinsert {p q : Text} : (p ++ q).insertAt p.size top = p ++ (top ++ q) := by
    rw [insertAt, before_size_append, after_size_append, append_assoc]
  obtain ⟨g, hg, hblank, -⟩ := skipWhile_reads ⟨v.size, v.getLast?, mask r⟩ isBlank
  rw [insertTop_eq hv hfind hn top hg]
  split
  · next hdistinct =>
    obtain ⟨k, q, h⟩ := Distinct.of_isAt hv hg.rest hblank hdistinct.2
    have hcut : v ++ r = v ++ (g ++ k) ++ q := by simp [h.cut]
    have hk : k.size = 8 := by
      rw [← size_lower, h.word]
      rfl
    have hend : v.size + g.size + 8 = size (v ++ (g ++ k)) := by
      simp only [size_append, hk]
      omega
    exact ⟨v ++ (g ++ k), q, hcut, .distinct hdistinct.1 h, by rw [hcut, hend, hinsert]⟩
  · next hdistinct =>
    refine ⟨v, r, rfl, .verb fun hkind g' k q h => hdistinct ⟨hkind, ?_⟩, hinsert⟩
    -- the blanks before DISTINCT are those that are read
    have hsame : v.size + g.size = v.size + g'.size :=
      hg.offset.symm.trans (h.reads_blanks _).offset
    rw [hsame]
    exact h.isAt hv hr

end

/-- Behind blanks and opening parentheses a verb is the first word. -/
theorem find?_verb {lead w verb : Text} (hlead : ∀ c ∈ lead, isBlank c ∨ c = '(')
    (hw : lower w = lower verb) (hverb : Named verb) (hshows : Shows Char.toLower verb)
    (hr : r.head?.any isNameChar = false) :
    find? (mask (lead ++ (w ++ r))) verb 0 = some lead.size := by
  have hname : ∀ c ∈ lead, isNameChar c = false :=
    fun c hc => (hlead c hc).elim isNameChar_of_isBlank (by rintro rfl; rfl)
  have hcode : Code lead := fun c hc => (hlead c hc).elim isQuote_of_isBlank (by rintro rfl; rfl)
  refine (find?_mask_eq_some hverb hshows).2
    ⟨⟨lead, w, r, rfl, hcode.closed, ⟨⟨w, [], by simp, hw, rfl⟩, ?_, hr⟩, rfl⟩, ?_⟩
  · exact (any_eq_false _ _).2 fun c hc => hname c (mem_of_getLast? hc)
  · rintro k ⟨a, u, s, hcut, -, hstands, rfl⟩
    obtain ⟨hne, hu⟩ := isNameChar_of_lower hstands.lower_eq hverb
    obtain ⟨c, u, rfl⟩ := exists_cons_of_ne_nil hne
    exact size_le_of_name hname (hu c (by simp)) hcut

/-! ### What the pass makes of a limit -/

namespace Amounts

variable (l : Amounts) (n : Nat)

theorem exists_count : ∃ m, (m = l.first ∨ m ∈ l.second) ∧ l.window.count = m.value := by
  cases l with
  | count m => exact ⟨m, .inl rfl, rfl⟩
  | comma o m => exact ⟨m, .inr rfl, rfl⟩
  | offset m o => exact ⟨m, .inl rfl, rfl⟩

/-- A first number that does not fit is not understood, and the other one is as good as not there if
it does not. -/
theorem window?_eq : (l.clause n).window? = if l.first.Fits then
    some (if ∀ m ∈ l.second, m.Fits then l.window else ⟨0, l.first.value⟩) else none := by
  cases l with
  | count m =>
    simp only [clause, first, second, window, Clause.window?, Numeral.readUnsigned?_eq]
    by_cases h : m.Fits <;> simp [h]
  | comma o m =>
    simp only [clause, first, second, window, Clause.window?, Numeral.readUnsigned?_eq, bind_some]
    by_cases h : o.Fits <;> by_cases h' : m.Fits <;> simp [h, h']
  | offset m o =>
    simp only [clause, first, second, window, Clause.window?, Numeral.readUnsigned?_eq, bind_some]
    by_cases h : m.Fits <;> by_cases h' : o.Fits <;> simp [h, h']

end Amounts

/-- The draft with a window kept: as a TOP if no rows are skipped, or else on the rows. -/
def windowed (d : Draft) (front : Text) (w : Window) : Draft :=
  if w.skip = 0 then
    { d with text := insertTop front.trimEnd .select "SELECT" (" TOP " ++ ofNat w.count) }
  else { d with text := front.trimEnd, window := some w }

/-- What the pass does to a statement with a limit. -/
theorem Limited.apply_eq {d : Draft} (h : Limited front l d.text)
    (hkind : d.kind = Kind.ofText d.text) :
    apply d = ((l.clause front.size).window?.map (windowed d front)).getD d := by
  rw [h.kind_eq] at hkind
  obtain ⟨hfound, hdepth⟩ := h.head?_findAll
  have hstart : (l.clause front.size).start = front.size := by cases l <;> rfl
  have hbefore : d.text.before front.size = front := by
    obtain ⟨clause, hcut, -⟩ := h.cut
    rw [hcut, before_size_append]
  rw [apply, limited?]
  simp only [hkind, hfound, bind_eq_bind, bind_some, hstart, hdepth, hbefore]
  cases hwindow : (l.clause front.size).window? with
  | none => rfl
  | some w =>
    simp only [bind_some, map_some, getD_some, windowed]
    split <;> rw [hkind] <;> rfl

/-! ### How long the texts are -/

namespace Numeral

theorem foldl_lt (h : ∀ c ∈ t, c.isDigit) (a : Nat) :
    t.foldl (fun n c => 10 * n + (c.toNat - 48)) a < (a + 1) * 10 ^ t.length := by
  induction t generalizing a with
  | nil => simp
  | cons c t ih =>
    have hdigit : c.toNat - 48 < 10 := by
      have := h c (by simp)
      simp only [Char.isDigit, Bool.and_eq_true, decide_eq_true_eq, ge_iff_le,
        UInt32.le_iff_toNat_le] at this
      have hle : c.toNat ≤ 57 := this.2
      omega
    calc _ < (10 * a + (c.toNat - 48) + 1) * 10 ^ t.length := ih (forall_mem_cons.1 h).2 _
      _ ≤ (10 * (a + 1)) * 10 ^ t.length := Nat.mul_le_mul_right _ (by omega)
      _ = (a + 1) * 10 ^ (c :: t).length := by rw [length_cons]; ring

theorem length_ofNat_le (n : Numeral) : (ofNat n.value).length ≤ n.text.length := by
  refine (Nat.length_toDigits_le_iff (by decide) (length_pos_iff.2 n.ne_nil)).2 ?_
  have := foldl_lt n.digits 0
  rwa [Nat.zero_add, Nat.one_mul] at this

end Numeral

theorem Amounts.Spells.length_le (h : l.Spells t) (hm : m = l.first ∨ m ∈ l.second) :
    m.text.length + 6 ≤ t.length := by
  obtain ⟨w, g, tail, e, rfl, hw, hg, -, htail, -⟩ := h
  have hword : w.length = 5 := by simpa using congrArg length hw
  have hgap : 0 < g.length := length_pos_iff.2 hg
  simp only [length_append, hword]
  rcases hm with rfl | hm
  · omega
  · cases htail with
    | count => cases hm
    | comma o n =>
      cases hm
      simp only [length_append, length_cons]
      omega
    | offset n o =>
      cases hm
      simp only [length_append]
      omega

/-! ### The window that is kept -/

theorem Limited.trimEnd_eq (h : Limited front l t) :
    ∃ w r, front.trimEnd = w ++ r ∧ lower w = lower "SELECT" ∧ r.head?.any isNameChar = false := by
  obtain ⟨w, r, rfl, hw, hr⟩ := h.verb
  have hname := (isNameChar_of_lower hw (by decide)).2
  refine ⟨w, r.trimEnd, ?_, hw, ?_⟩
  · exact dropEnd_append_of_last
      (fun c hc => isBlank_of_isNameChar (hname c (mem_of_getLast? hc))) r
  · obtain ⟨g, hg, -⟩ := exists_dropEnd isBlank r
    exact head?_any_of_append (hg ▸ hr)

/-- What the pass may make of a limit: nothing, a TOP with the rows to keep, or a window on the
rows. -/
inductive Kept (d : Draft) (front : Text) (l : Amounts) : Prop
  | same : apply d = d → Kept d front l
  | top {w r p q : Text} : l.window.skip = 0 → front.trimEnd = p ++ q → lower w = lower "SELECT" →
    Placed .select w r p q →
    apply d = { d with text := p ++ ((" TOP " ++ ofNat l.window.count) ++ q) } → Kept d front l
  | rows : 0 < l.window.skip → apply d = { d with text := front.trimEnd, window := some l.window } →
    (∀ {α : Type} (rows : List α) (k : Nat), (Window.apply (apply d).window rows)[k]? =
      if k < l.window.count then rows[l.window.skip + k]? else none) → Kept d front l

section

variable {d : Draft} {front : Text} {l : Amounts} (h : Limited front l d.text)
  (hkind : d.kind = Kind.ofText d.text)
include h

theorem Limited.exists_windowed (n : Nat) : ∃ w r p q, front.trimEnd = p ++ q ∧
    lower w = lower "SELECT" ∧ Placed .select w r p q ∧
    windowed d front ⟨0, n⟩ = { d with text := p ++ ((" TOP " ++ ofNat n) ++ q) } := by
  obtain ⟨w, r, hfront, hw, hr⟩ := h.trimEnd_eq
  have hsize : 0 + size "SELECT" = w.size := by
    rw [← size_lower w, hw]
    rfl
  obtain ⟨p, q, hcut, hplaced, hinsert⟩ :=
    @exists_placed _ w r (sees_toLower.no_quote hw (by decide)) hr
    .select _ (@find?_verb r [] _ _ (by simp) hw (by decide) (by decide) hr) hsize
      (" TOP " ++ ofNat n)
  exact ⟨w, r, p, q, hfront.trans hcut, hw, hplaced, by rw [windowed, if_pos rfl, hfront, hinsert]⟩

theorem Limited.length_windowed (n : Nat) :
    (windowed d front ⟨0, n⟩).text.length = front.trimEnd.length + 5 + (ofNat n).length := by
  obtain ⟨-, -, p, q, hcut, -, -, hw⟩ := h.exists_windowed n
  have htop : (" TOP " : Text).length = 5 := rfl
  rw [hw, hcut]
  simp only [length_append, htop]
  omega

/-- Without the clause the text is shorter, also with a TOP in it. -/
theorem Limited.windowed_ne (hm : m = l.first ∨ m ∈ l.second) (k : Nat) :
    windowed d front ⟨k, m.value⟩ ≠ d := by
  intro heq
  obtain ⟨clause, hcut, hspells⟩ := h.cut
  obtain ⟨g, hg, -⟩ := exists_dropEnd isBlank front
  have htrim : front.length = front.trimEnd.length + g.length := by
    rw [← length_append, trimEnd, ← hg]
  have hlength : d.text.length = front.length + clause.length := by rw [hcut, length_append]
  have hclause := hspells.length_le hm
  rcases Nat.eq_zero_or_pos k with rfl | hk
  · have hsame := h.length_windowed m.value
    have hdigits := m.length_ofNat_le
    rw [heq] at hsame
    omega
  · rw [windowed, if_neg (Nat.ne_of_gt hk)] at heq
    have hsame := congrArg (fun e : Draft => e.text.length) heq
    simp only at hsame
    omega

include hkind

theorem Limited.apply_of_fits (hfirst : l.first.Fits) (hsecond : ∀ m ∈ l.second, m.Fits) :
    apply d = windowed d front l.window := by
  rw [h.apply_eq hkind, l.window?_eq, if_pos hfirst, if_pos hsecond]
  rfl

theorem Limited.apply_of_second (hfirst : l.first.Fits) (hm : m ∈ l.second) (hfits : ¬ m.Fits) :
    apply d = windowed d front ⟨0, l.first.value⟩ := by
  rw [h.apply_eq hkind, l.window?_eq, if_pos hfirst, if_neg fun hall => hfits (hall m hm)]
  rfl

theorem Limited.apply_eq_self_iff : apply d = d ↔ ¬ l.first.Fits := by
  constructor
  · intro hsame hfirst
    by_cases hsecond : ∀ m ∈ l.second, m.Fits
    · rw [h.apply_of_fits hkind hfirst hsecond] at hsame
      obtain ⟨m, hm, hcount⟩ := l.exists_count
      exact h.windowed_ne hm l.window.skip (by rwa [← hcount])
    · push Not at hsecond
      obtain ⟨m, hm, hfits⟩ := hsecond
      exact h.windowed_ne (.inl rfl) 0 (by rwa [← h.apply_of_second hkind hfirst hm hfits])
  · intro hfirst
    rw [h.apply_eq hkind, l.window?_eq, if_neg hfirst]
    rfl

theorem Limited.kept_of_fits (hfirst : l.first.Fits) (hsecond : ∀ m ∈ l.second, m.Fits) :
    Kept d front l := by
  have hread := h.apply_of_fits hkind hfirst hsecond
  rcases Nat.eq_zero_or_pos l.window.skip with hskip | hskip
  · obtain ⟨w, r, p, q, hcut, hw, hplaced, heq⟩ := h.exists_windowed l.window.count
    exact .top hskip hcut hw hplaced (by rw [hread, ← heq, ← hskip])
  · rw [windowed, if_neg (Nat.ne_of_gt hskip)] at hread
    exact .rows hskip hread fun rows k => by rw [hread, Window.getElem?_apply]

/-- A TOP that stands for a number that does not fit is not the one that was asked for. -/
theorem Limited.not_kept (hfirst : l.first.Fits) (hm : m ∈ l.second) (hfits : ¬ m.Fits) :
    ¬ Kept d front l := by
  have hread := h.apply_of_second hkind hfirst hm hfits
  have hlength := h.length_windowed l.first.value
  rw [← hread] at hlength
  intro hkept
  cases hkept with
  | same hsame => exact (h.apply_eq_self_iff hkind).1 hsame hfirst
  | top hskip hcut _ _ heq =>
    have htop : (" TOP " : Text).length = 5 := rfl
    rw [heq, hcut] at hlength
    simp only [length_append, htop] at hlength
    have hdigits : (ofNat l.window.count).length = (ofNat l.first.value).length := by omega
    cases l with
    | count => cases hm
    | comma o =>
      cases hm
      have hzero : o.value = 0 := hskip
      have hone : (ofNat m.value).length ≤ 1 := by
        rw [Amounts.first, hzero] at hdigits
        exact Nat.le_of_eq hdigits
      have hsmall : m.value < 10 ^ 1 := (Nat.length_toDigits_le_iff (by decide) (by decide)).1 hone
      exact hfits (Nat.lt_trans hsmall (by decide))
    | offset =>
      cases hm
      have hzero : m.value = 0 := hskip
      exact hfits (by rw [Numeral.Fits, hzero]; decide)
  | rows _ heq _ =>
    rw [heq] at hlength
    simp only at hlength
    omega

/-- A limit keeps its window, unless its first number fits and the other does not. -/
theorem apply_kept_iff : (apply d = d ↔ ¬ l.first.Fits) ∧
    (Kept d front l ↔ (l.first.Fits → ∀ m ∈ l.second, m.Fits)) := by
  refine ⟨h.apply_eq_self_iff hkind, fun hkept hfirst m hm => ?_, fun hfit => ?_⟩
  · by_contra hfits
    exact h.not_kept hkind hfirst hm hfits hkept
  · by_cases hfirst : l.first.Fits
    · exact h.kept_of_fits hkind hfirst (hfit hfirst)
    · exact .same ((h.apply_eq_self_iff hkind).2 hfirst)

end

theorem apply_kept_iff_greatest :
    let d := Draft.ofStatement
      (Statement.ofText "SELECT a FROM t LIMIT 18446744073709551615 OFFSET 007 ;") none true {}
    let l :=
      Amounts.offset ⟨"18446744073709551615", by decide, by decide⟩ ⟨"007", by decide, by decide⟩
    Limited "SELECT a FROM t " l d.text ∧ Kept d "SELECT a FROM t " l := by
  intro d l
  have hgap : (" " : Text) ≠ [] := by decide
  have hblank : ∀ c ∈ (" " : Text), isBlank c := by decide
  have hspells : l.Spells "LIMIT 18446744073709551615 OFFSET 007 ;" :=
    ⟨"LIMIT", " ", " OFFSET 007", " ;", rfl, rfl, hgap, hblank,
      .offset _ _ (w := "OFFSET") hgap hblank rfl hgap hblank, .semicolon hblank (by decide)⟩
  have h : Limited "SELECT a FROM t " l d.text :=
    ⟨⟨_, rfl, hspells⟩, ⟨"SELECT", " a FROM t ", rfl, rfl, rfl⟩, by decide +kernel,
      by decide +kernel, rfl⟩
  refine ⟨h, (apply_kept_iff h (by decide +kernel)).2.2 fun _ m hm => ?_⟩
  cases hm
  decide

/-- The rows to skip are too many for a word, and the first rows are taken. -/
theorem apply_drops_offset :
    let d := Draft.ofStatement
      (Statement.ofText "SELECT * FROM t LIMIT 10 OFFSET 18446744073709551616") none true {}
    let l :=
      Amounts.offset ⟨"10", by decide, by decide⟩ ⟨"18446744073709551616", by decide, by decide⟩
    Limited "SELECT * FROM t " l d.text ∧ ¬ Kept d "SELECT * FROM t " l ∧
      (apply d).text = "SELECT TOP 10 * FROM t" ∧ (apply d).window = none := by
  intro d l
  have hgap : (" " : Text) ≠ [] := by decide
  have hblank : ∀ c ∈ (" " : Text), isBlank c := by decide
  have hspells : l.Spells "LIMIT 10 OFFSET 18446744073709551616" :=
    ⟨"LIMIT", " ", " OFFSET 18446744073709551616", "", rfl, rfl, hgap, hblank,
      .offset _ _ (w := "OFFSET") hgap hblank rfl hgap hblank,
      .blanks (by decide)⟩
  have h : Limited "SELECT * FROM t " l d.text :=
    ⟨⟨_, rfl, hspells⟩, ⟨"SELECT", " * FROM t ", rfl, rfl, rfl⟩, by decide +kernel,
      by decide +kernel, rfl⟩
  refine ⟨h, h.not_kept (by decide +kernel) (by decide) rfl (by decide), ?_⟩
  decide +kernel

end Limit

end Recast
