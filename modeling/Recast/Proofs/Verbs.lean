import Recast.Proofs.Filling
import Recast.Proofs.Printing
import Recast.Proofs.Shifting
import Recast.Proofs.WhereBinding

/-!
# The verb of a bound INSERT

The verb of an INSERT ends behind the first INTO, if that stands before the first parenthesis, or
else at the first blank (`verbEnd?_eq_some`). Binding leaves blanks, parentheses and the letters of
INTO where they are, and puts in no others. But INTO is a word of its own only between characters
that are in no name. If no placeholder that is filled stands just before it (`Parted`), the verb
ends in the bound text where it ends in the template (`exists_verb`).
-/

namespace Recast

open Literal Nesting Cursor Keyword List Text
open Option hiding guard

variable {r t w : Text} {c : Char} {n v : Nat} {back front : List Stretch}

/-! ### Words in the code of a text -/

namespace Keyword

/-- The word stands in the code of a text at an offset. -/
def Occurs (t word : Text) (n : Nat) : Prop :=
  ∃ a w r, t = a ++ (w ++ r) ∧ Closed a ∧ Stands word [] a w r ∧ a.size = n

variable {t word : Text} {n : Nat}

theorem occurs_iff (hword : Named word) (hshows : Shows Char.toLower word) :
    Occurs t word n ↔ ∃ c d, At (mask t) c ∧ here? word c = some d ∧ c.offset = n := by
  constructor
  · rintro ⟨a, w, r, rfl, ha, hstands, rfl⟩
    obtain ⟨hmask, hstands'⟩ := hstands.mask hword (by simp) ha
    obtain ⟨d, e, hd, -, -⟩ := hstands'.exists_here? hword (by simp)
      (c := ⟨(mask a).size, (mask a).getLast?, w ++ mask r⟩) rfl rfl
    exact ⟨_, d, ⟨mask a, hmask, rfl, rfl⟩, hd, size_mask a⟩
  · rintro ⟨c, d, hc, hd, rfl⟩
    obtain ⟨front, k, hm, hoffset, -, hstands⟩ := stands_of_here? hc hd (rfl : rest? [] d = some d)
    obtain ⟨a, r, rfl, ha, rfl, -, hstands'⟩ := hstands.of_mask hword (by simp) hshows hm
    exact ⟨a, k, r, rfl, ha, hstands', by rw [hoffset, size_mask]⟩

section

variable (hword : Named word) (hshows : Shows Char.toLower word)
include hword hshows

theorem occurs_of_find? (h : find? (mask t) word 0 = some n) : Occurs t word n := by
  obtain ⟨-, u, c, d, -, hc, rfl, hd⟩ := at_of_find? h
  exact (occurs_iff hword hshows).2 ⟨c, d, hc, hd, rfl⟩

theorem Occurs.exists_find? (h : Occurs t word n) :
    ∃ k, find? (mask t) word 0 = some k ∧ k ≤ n := by
  obtain ⟨⟨offset, last, r⟩, d, ⟨u, hm, rfl, rfl⟩, hd, rfl⟩ := (occurs_iff hword hshows).1 h
  rw [hm]
  exact exists_find?_le hd

/-- The word that is found is the first one in the code of the text. -/
theorem find?_mask_eq_some :
    find? (mask t) word 0 = some n ↔ Occurs t word n ∧ ∀ k, Occurs t word k → n ≤ k := by
  constructor
  · intro h
    refine ⟨occurs_of_find? hword hshows h, fun k hk => ?_⟩
    obtain ⟨n', hn', hle⟩ := hk.exists_find? hword hshows
    rw [h] at hn'
    cases hn'
    exact hle
  · rintro ⟨hn, hleast⟩
    obtain ⟨k, hk, hle⟩ := hn.exists_find? hword hshows
    rw [hk, Nat.le_antisymm hle (hleast k (occurs_of_find? hword hshows hk))]

theorem find?_mask_eq_none (h : find? (mask t) word 0 = none) : ¬ Occurs t word n := by
  intro hn
  obtain ⟨k, hk, -⟩ := hn.exists_find? hword hshows
  simp [h] at hk

end

end Keyword

/-! ### Where the verb ends -/

namespace Insertion

theorem named_into : Named "INTO" := by decide

theorem shows_into : Shows Char.toLower "INTO" := by decide

/-- A first blank behind the blanks at the start of a text. -/
def FirstBlank (m : Text) (n : Nat) : Prop :=
  ∃ (g w : Text) (c : Char) (s : Text), m = g ++ (w ++ c :: s) ∧ Gap g ∧
    (∀ x ∈ w, isBlank x = false) ∧ isBlank c = true ∧
    (w = [] → isAsciiBlank c = false) ∧ g.size + w.size = n

/-- The first blank behind the first word is found. -/
theorem firstBlank_iff {m : Text} : findFrom? isBlank ((start m).skipWhile isAsciiBlank).offset
      ((start m).skipWhile isAsciiBlank).rest = some n ↔ FirstBlank m n := by
  rw [findFrom?_eq_some]
  constructor
  · rintro ⟨w, c, s, hrest, hw, hc, rfl⟩
    obtain ⟨g, hg, hgap, hstop⟩ := skipWhile_reads (start m) isAsciiBlank
    have hm : m = g ++ (w ++ c :: s) := by
      rw [← hrest]
      exact hg.rest
    refine ⟨g, w, c, s, hm, hgap, hw, hc, ?_, ?_⟩
    · rintro rfl
      exact hstop c (by rw [hrest]; rfl)
    · rw [hg.offset]
      show g.size + size w = 0 + g.size + size w
      omega
  · rintro ⟨g, w, c, s, rfl, hgap, hw, hc, hfirst, rfl⟩
    have hg :
        Reads (start (g ++ (w ++ c :: s))) g
          ((start (g ++ (w ++ c :: s))).skipWhile isAsciiBlank) := by
      refine reads_skipWhile rfl hgap fun x hx => ?_
      cases w with
      | nil =>
        cases hx
        exact hfirst rfl
      | cons y w =>
        obtain rfl : y = x := some.inj hx
        cases hy : isAsciiBlank y with
        | false => rfl
        | true =>
          have hblank := hw y (by simp)
          simp [isBlank_of_isAsciiBlank hy] at hblank
    refine ⟨w, c, s, append_cancel_left hg.rest.symm, hw, hc, ?_⟩
    rw [hg.offset]
    show 0 + g.size + size w = g.size + size w
    omega

/-- The verb ends behind an INTO before the first parenthesis, or else at the first blank. -/
theorem verbEnd?_eq_some {f : Text} (hmask : mask t = f ++ '(' :: r) (hf : '(' ∉ f) :
    verbEnd? (mask t) = some v ↔
      (∃ n, Occurs t "INTO" n ∧ (∀ k, Occurs t "INTO" k → n ≤ k) ∧ n < f.size ∧ n + 4 = v) ∨
      (∀ k, Occurs t "INTO" k → f.size ≤ k) ∧ FirstBlank (mask t) v := by
  have hparen : ((mask t).find? (· == '(')).getD (mask t).size = f.size := by
    have hfind : (mask t).find? (· == '(') = some (0 + f.size) := by
      refine findFrom?_eq_some.2 ⟨f, '(', r, hmask, fun x hx => ?_, rfl, rfl⟩
      exact beq_eq_false_iff_ne.2 fun heq => hf (heq ▸ hx)
    rw [hfind, Nat.zero_add]
    rfl
  have hfirst {n : Nat} := find?_mask_eq_some (t := t) (n := n) named_into shows_into
  rw [verbEnd?, hparen, ← firstBlank_iff]
  constructor
  · intro h
    split at h
    · next n hn =>
      obtain ⟨hfind, hlt⟩ := filter_eq_some_iff.1 hn
      obtain ⟨hoccurs, hleast⟩ := hfirst.1 hfind
      exact .inl ⟨n, hoccurs, hleast, by simpa using hlt, some.inj h⟩
    · next hnone =>
      refine .inr ⟨fun k hk => ?_, h⟩
      cases hfind : find? (mask t) ("INTO" : Text) 0 with
      | none => exact absurd hk (find?_mask_eq_none named_into shows_into hfind)
      | some n =>
        have hle := (hfirst.1 hfind).2 k hk
        have hn : ¬ n < f.size := by simpa using filter_eq_none_iff.1 hnone n hfind
        omega
  · rintro (⟨n, hoccurs, hleast, hlt, rfl⟩ | ⟨hlate, hblank⟩)
    · rw [hfirst.2 ⟨hoccurs, hleast⟩, filter_some, if_pos (by simpa using hlt)]
    · have hnone : (find? (mask t) ("INTO" : Text) 0).filter (· < f.size) = none := by
        rw [filter_eq_none_iff]
        intro n hn
        have hle := hlate n (hfirst.1 hn).1
        simpa using hle
      rw [hnone]
      exact hblank

end Insertion

/-! ### The verb of a bound statement -/

theorem Text.startsWith_of_lower {word : Text} (h : lower w = lower word) (r : Text) :
    startsWith (w ++ r) word := by
  induction word generalizing w with
  | nil => cases w ++ r <;> rfl
  | cons x word ih =>
    obtain ⟨c, w, rfl, hc, hw⟩ := map_eq_cons_iff.1 h
    rw [cons_append, startsWith, ih hw, hc, beq_self_eq_true]
    rfl

namespace Placeholder.Stretch

/-- No placeholder that is filled stands just before INTO and in front of the first parenthesis. -/
def Parted (parts : List Stretch) : Prop :=
  ∀ front p param src back, parts = front ++ filled p (some param) src :: back → p.inline = false →
    '(' ∉ mask (sources front ++ src) → startsWith (sources back) "INTO" = false

namespace Threaded

variable {parts pf pr : List Stretch}

theorem mem_mask_sources (h : Threaded none parts) (hfill : isFill c = false)
    (hquote : isQuote c = false) (hc : c ∈ mask (results parts)) : c ∈ mask (sources parts) := by
  have hfilter := h.filter_mask (p := (· == c))
    (fun x hx => beq_eq_false_iff_ne.2 fun heq => by rw [heq, hfill] at hx; cases hx)
    (fun x hx => beq_eq_false_iff_ne.2 fun heq => by rw [heq, hquote] at hx; cases hx)
  have hmem : c ∈ (mask (results parts)).filter (· == c) := mem_filter.2 ⟨hc, by simp⟩
  rw [hfilter] at hmem
  exact (mem_filter.1 hmem).1

theorem closed_sources (h : Threaded none parts) (hclosed : Closed (results parts)) :
    Closed (sources parts) := by
  rwa [Closed, ← h.state_results]

theorem closed_results (h : Threaded none parts) (hclosed : Closed (sources parts)) :
    Closed (results parts) := by
  rwa [Closed, h.state_results]

theorem behind_sources {s : Option Char} (h : Threaded s parts)
    (hname : (results parts).head?.any isNameChar = false) :
    (sources parts).head?.any isNameChar = false := by
  cases h with
  | nil => rfl
  | kept => exact hname
  | filled hspells =>
    obtain ⟨-, c, r, hsrc, hstart⟩ := hspells.starts
    have hall : ∀ c ∈ ['%', '?', '\'', '"'], isNameChar c = false := by decide
    rw [sources_cons, hsrc]
    exact hall c hstart

theorem getLast?_front (h : Threaded none front) (hparted : Parted (front ++ (keeps w ++ back)))
    (hclosed : Closed (sources front)) (hparen : '(' ∉ mask (sources front))
    (hw : lower w = lower ("INTO" : Text)) :
    (results front).getLast? = (sources front).getLast? := by
  refine h.getLast?_results hclosed fun front' p param src heq => ?_
  subst heq
  cases hinline : p.inline with
  | true => rfl
  | false =>
    have hnot := hparted front' p param src (keeps w ++ back) (by simp) hinline
      (by simpa [source, sources] using hparen)
    rw [sources_append, sources_keeps, startsWith_of_lower hw] at hnot
    cases hnot

theorem exists_letter (hw : lower w = lower ("INTO" : Text)) :
    ∃ c w', w = c :: w' ∧ isQuote c = false ∧ c ∉ marks := by
  obtain ⟨c, w, rfl, hc, -⟩ := map_eq_cons_iff.1 hw
  refine ⟨c, w, rfl, ?_, fun hmem => ?_⟩
  · have hmap : [c].map Char.toLower = ['i'].map Char.toLower := by rw [map_singleton, hc]; rfl
    exact sees_toLower.no_quote hmap (by decide) c (by simp)
  · have hall : ∀ c ∈ marks, c.toLower ≠ 'i' := by decide
    exact hall c hmem hc

section

variable (h : Threaded none parts) (hparted : Parted parts)
  (hcut : parts = pf ++ Stretch.kept ['('] :: pr) (hparen : '(' ∉ mask (sources pf))
include h hparted hcut hparen

/-- INTO stands in front of a parenthesis in the template and in the bound text, behind the same
character, or behind it in both. -/
theorem into_cases (hparts : parts = front ++ (keeps w ++ back)) (hclosed : Closed (sources front))
    (hw : lower w = lower ("INTO" : Text)) :
    ((sources front).size < (sources pf).size ∧ (results front).size < (results pf).size ∧
        (results front).getLast? = (sources front).getLast?) ∨
      (sources pf).size ≤ (sources front).size ∧ (results pf).size ≤ (results front).size := by
  rw [hparts] at h hparted
  obtain ⟨c, w', rfl, hc, -⟩ := exists_letter hw
  have hboth : front ++ Stretch.kept [c] :: _ = pf ++ _ := hparts.symm.trans hcut
  rcases append_cons_eq_append hboth with ⟨m, rfl, -⟩ | ⟨m, rfl, -⟩
  · have hfront : '(' ∉ mask (sources front) := by
      rw [sources_append, sources_cons, source, List.singleton_append,
        mask_append_cons hclosed hc] at hparen
      exact fun hmem => hparen (List.mem_append_left _ hmem)
    have hpos := Text.size_pos (cons_ne_nil c [])
    refine .inl ⟨?_, ?_, h.append.1.getLast?_front hparted hclosed hfront hw⟩
    · rw [sources_append, Text.size_append, sources_cons, Text.size_append, source]
      omega
    · rw [results_append, Text.size_append, results_cons, Text.size_append, result]
      omega
  · simp only [sources_append, results_append, Text.size_append]
    omega

/-- INTO in the bound text before its first parenthesis is INTO in the template before its own. -/
theorem occurs_of_results (hn : Occurs (results parts) "INTO" n) (hlt : n < (results pf).size) :
    ∃ front back w, parts = front ++ (keeps w ++ back) ∧ (results front).size = n ∧
      (sources front).size < (sources pf).size ∧
      Occurs (sources parts) "INTO" (sources front).size := by
  obtain ⟨a, w, r, hres, ha, hstands, rfl⟩ := hn
  obtain ⟨front, back, hparts, rfl, rfl⟩ := h.exists_into hres ha hstands.lower_eq
  have hthreaded := hparts ▸ h
  have hclosed := hthreaded.append.1.closed_sources ha
  rcases h.into_cases hparted hcut hparen hparts hclosed hstands.lower_eq with
    ⟨hsize, -, hlast⟩ | ⟨-, hle⟩
  · refine ⟨front, back, w, hparts, rfl, hsize, sources front, w, sources back, ?_, hclosed,
      ⟨hstands.spelled, ?_, ?_⟩, rfl⟩
    · rw [hparts, sources_append, sources_append, sources_keeps]
    · rw [← hlast]
      exact hstands.before
    · exact hthreaded.append.2.append.2.behind_sources hstands.behind
  · omega

/-- INTO in the template before its first parenthesis is INTO in the bound text before its own, if a
character that is kept follows it. -/
theorem occurs_results {d : Char} (hparts : parts = front ++ (keeps w ++ Stretch.kept [d] :: back))
    (hclosed : Closed (sources front))
    (hstands : Stands "INTO" [] (sources front) w (d :: sources back))
    (hlt : (sources front).size < (sources pf).size) :
    Occurs (results parts) "INTO" (results front).size ∧
      (results front).size < (results pf).size := by
  rcases h.into_cases hparted hcut hparen hparts hclosed hstands.lower_eq with
    ⟨-, hsize, hlast⟩ | ⟨hle, -⟩
  · rw [hparts] at h
    refine ⟨⟨results front, w, d :: results back, ?_, h.append.1.closed_results hclosed,
      ⟨hstands.spelled, ?_, hstands.behind⟩, rfl⟩, hsize⟩
    · rw [hparts, results_append, results_append, results_keeps]
      rfl
    · rw [hlast]
      exact hstands.before
  · omega

end

/-- The first blank of a template is the first blank of the bound text. -/
theorem exists_firstBlank (h : Threaded none parts)
    (hblank : Insertion.FirstBlank (mask (sources parts)) n) :
    ∃ front c back, parts = front ++ Stretch.kept [c] :: back ∧ Closed (sources front) ∧
      isBlank c = true ∧
      n = (sources front).size ∧
      Insertion.FirstBlank (mask (results parts)) (results front).size := by
  obtain ⟨g, w, c, s, hm, hgap, hw, hc, hfirst, rfl⟩ := hblank
  have hquote := isQuote_of_isBlank hc
  rw [← List.append_assoc] at hm
  obtain ⟨a, b, ht, ha, hma, -⟩ := exists_code hm hquote (ne_of_isBlank hc (by decide))
  obtain ⟨front, back, rfl, rfl, rfl⟩ :=
    h.exists_cut ht (of_isBlank (P := (· ∉ marks)) hc (by decide))
  obtain ⟨a, hsources, rfl⟩ := exists_of_mask_append hma hgap.no_quote
  obtain ⟨front, rfl, rfl⟩ := h.append.1.exists_keeps hsources fun x hx => by
    exact not_mem_of_class (hgap x hx) (by decide)
  have hplain := Code.closed hgap.no_quote
  have hrest := h.append.1.append.2
  rw [sources_keeps, hplain] at hrest
  rw [hsources, hplain.append_iff] at ha
  have hresults := hrest.closed_results ha
  refine ⟨keeps g ++ front, c, back, rfl, ?_, hc, ?_, g, mask (results front), c,
    mask (results back), ?_, hgap, ?_, hc, ?_, ?_⟩
  · rw [hsources]
    exact hplain.append ha
  · rw [hsources, size_append, size_mask]
  · rw [results_append, results_append, results_keeps, results_cons, result, append_assoc,
      hgap.no_quote.mask_append, singleton_append, mask_append_cons hresults hquote]
  · intro x hx
    cases hblank : isBlank x with
    | false => rfl
    | true =>
      rw [← hw x (hrest.mem_mask_sources (isFill_of_isBlank hblank) (isQuote_of_isBlank hblank) hx),
        hblank]
  · intro hnil
    refine hfirst ?_
    have hsize := size_mask (results front)
    rw [hnil] at hsize
    have hempty : results front = [] := by
      cases hres : results front with
      | nil => rfl
      | cons y t =>
        have hpos := size_pos (t := results front) (by simp [hres])
        simp [← hsize] at hpos
    rw [hrest.eq_nil_of_results hempty]
    rfl
  · rw [results_append, results_keeps, size_append, size_mask]

theorem exists_word {a : Text} (h : Threaded none parts) (ht : sources parts = a ++ (w ++ r))
    (hw : lower w = lower ("INTO" : Text)) :
    ∃ front back, parts = front ++ (keeps w ++ back) ∧ sources front = a ∧ sources back = r := by
  obtain ⟨c, w', rfl, -, hc⟩ := exists_letter hw
  obtain ⟨front, back, rfl, rfl, hback⟩ := h.exists_split ht (by rintro x ⟨⟩; exact hc)
  obtain ⟨rest, rfl, hrest⟩ := h.append.2.exists_keeps hback fun x hx =>
    not_mem_of_class ((isNameChar_of_lower hw Insertion.named_into).2 x hx) (by decide)
  exact ⟨front, rest, rfl, rfl, hrest⟩

/-- The verb of a template and that of the bound text end at the same character, which is kept: at
the last letter of INTO, if what follows it is kept as well, or at a blank. -/
theorem exists_verb (h : Threaded none parts) (hparted : Parted parts)
    (hparen : '(' ∈ mask (sources parts))
    (hv : Insertion.verbEnd? (mask (sources parts)) = some v) : ∃ front c back j,
      parts = front ++ Stretch.kept [c] :: back ∧ Closed (sources front) ∧ isQuote c = false ∧
      c ∉ ['%', '?'] ∧ (j = 0 ∧ isBlank c ∨ j = c.utf8Size) ∧ v = (sources front).size + j ∧
      ((∃ d rest, back = Stretch.kept [d] :: rest) →
        Insertion.verbEnd? (mask (results parts)) = some ((results front).size + j)) := by
  obtain ⟨f, r, hmask, hf⟩ := eq_append_cons_of_mem hparen
  obtain ⟨tf, tr, ht, htf, rfl, rfl⟩ := exists_code hmask (by decide) (by decide)
  obtain ⟨pf, pr, hcut, rfl, rfl⟩ := h.exists_cut ht (by decide)
  have hpf : Threaded none pf := by
    rw [hcut] at h
    exact h.append.1
  have hmask' : mask (results parts) = mask (results pf) ++ '(' :: mask (results pr) := by
    rw [hcut, results_append, results_cons, result, singleton_append,
      mask_append_cons (hpf.closed_results htf) (by decide)]
  have hf' : '(' ∉ mask (results pf) :=
    fun hmem => hf (hpf.mem_mask_sources (by decide) (by decide) hmem)
  have hend {v : Nat} := Insertion.verbEnd?_eq_some (v := v) hmask' hf'
  simp only [size_mask] at hend
  rcases (Insertion.verbEnd?_eq_some hmask hf).1 hv with
    ⟨n, ⟨a, w, r, hsrc, ha, hstands, rfl⟩, hleast, hlt, rfl⟩ | ⟨hlate, hblank⟩
  · have hw := hstands.lower_eq
    obtain ⟨front, back, hparts, rfl, rfl⟩ := h.exists_word hsrc hw
    rw [size_mask] at hlt
    have hsize : w.size = 4 := by rw [← size_lower, hw]; rfl
    have hplain : Code w :=
      fun c hc => isQuote_of_isNameChar ((isNameChar_of_lower hw Insertion.named_into).2 c hc)
    have hletters : w.map Char.toLower = ['i', 'n', 't'] ++ ['o'] := hw
    obtain ⟨w', o, rfl, ho⟩ : ∃ w' o, w = w' ++ [o] ∧ o.toLower = 'o' := by
      obtain ⟨w', v, rfl, -, hv⟩ := map_eq_append_iff.1 hletters
      obtain ⟨o, v, rfl, ho, hv⟩ := map_eq_cons_iff.1 hv
      obtain rfl := map_eq_nil_iff.1 hv
      exact ⟨w', o, rfl, ho⟩
    rw [size_append] at hsize
    refine ⟨front ++ keeps w', o, back, o.utf8Size, ?_, ?_, hplain o (by simp), ?_,
      .inr rfl, ?_, ?_⟩
    · rw [hparts]
      simp [keeps]
    · rw [sources_append, sources_keeps]
      exact ha.append (Code.closed fun c hc => hplain c (by simp [hc]))
    · have hall : ∀ c ∈ ['%', '?'], c.toLower ≠ 'o' := by decide
      exact fun hmem => hall o hmem ho
    · rw [sources_append, sources_keeps, size_append, Nat.add_assoc, ← hsize]
      rfl
    · rintro ⟨d, rest, rfl⟩
      obtain ⟨hoccurs, hlt'⟩ := h.occurs_results hparted hcut hf hparts ha hstands hlt
      refine hend.2 (.inl ⟨(results front).size, hoccurs, fun k hk => ?_, hlt', ?_⟩)
      · -- an earlier INTO in the bound text would be an earlier one in the template
        by_contra hearly
        obtain ⟨front', back', w'', hparts', rfl, -, hoccurs'⟩ :=
          h.occurs_of_results hparted hcut hf hk (by omega)
        have hle := hleast _ hoccurs'
        rcases append_eq_append_iff.1 (hparts.symm.trans hparts') with ⟨m, rfl, -⟩ | ⟨m, hm, -⟩
        · rw [results_append, size_append] at hearly
          omega
        · have hfront : (sources front).size = (sources front').size := by
            rw [hm, sources_append, size_append] at hle ⊢
            omega
          rw [hparts] at h
          obtain ⟨rfl, -⟩ := h.append_inj (hparts.symm.trans hparts') hfront
          omega
      · rw [results_append, results_keeps, size_append, Nat.add_assoc, ← hsize]
        rfl
  · obtain ⟨front, c, back, hparts, hclosed, hc, rfl, hblank'⟩ := h.exists_firstBlank hblank
    refine ⟨front, c, back, 0, hparts, hclosed, isQuote_of_isBlank hc, ?_, .inl ⟨rfl, hc⟩, rfl,
      fun _ => hend.2 (.inr ⟨fun k hk => ?_, hblank'⟩)⟩
    · exact of_isBlank (P := (· ∉ ['%', '?'])) hc (by decide)
    · by_contra hearly
      obtain ⟨front', -, -, -, -, hlt, hoccurs⟩ :=
        h.occurs_of_results hparted hcut hf hk (by omega)
      have hle := hlate _ hoccurs
      rw [size_mask] at hle
      omega

end Threaded

end Placeholder.Stretch

end Recast
