import Recast.Proofs.Calls
import Recast.Proofs.LastClause

/-!
# Aliases in place of an ORDER BY list

Under DISTINCT the aliases of a statement may take the place of its ORDER BY list. They are
stretches of the statement itself, one behind another (`Listed`), so that whatever is called in the
new list was called in the statement before: with a statement in which nothing is called the new one
has no call either (`Settled.distinct?`).
-/

namespace Recast

open Literal Cursor Keyword Functions List Text
open Option hiding guard

variable {g h r s t u v word : Text} {c d : Cursor} {list : Span} {e : Text × Filling}

/-! ### Openings -/

namespace Functions

theorem IsOpening.getLast?_eq (hopening : IsOpening word h) : h.getLast? = some '(' := by
  obtain ⟨w, g, rfl, -, -⟩ := hopening
  rw [← append_assoc, getLast?_concat]

theorem IsOpening.no_comma (he : e ∈ clockCalls) (hopening : IsOpening e.1 h) : ',' ∉ h := by
  obtain ⟨w, g, rfl, hfold, hblank⟩ := hopening
  have hword : ∀ e ∈ clockCalls, foldChar ',' ∉ e.1.map foldChar := by decide
  simp only [mem_append, mem_singleton, not_or]
  refine ⟨?_, ?_, by decide⟩
  · intro hmem
    apply hword e he
    rw [← hfold]
    exact mem_map_of_mem hmem
  · intro hmem
    cases hblank ',' hmem

theorem Calls.exists_cons (he : e ∈ clockCalls) (hcall : Calls e.1 e.2 r) :
    ∃ c s, r = c :: s ∧ c ∉ [',', ' '] := by
  obtain ⟨h, u, v, rfl, hopening, -⟩ := hcall
  have hword : ∀ e ∈ clockCalls, ∀ a ∈ e.1.head?, ∀ c ∈ [',', ' '], foldChar c ≠ foldChar a := by
    decide
  obtain ⟨a, word, heq⟩ := exists_cons_of_mem_clockCalls e he
  have hfirst := hword e he a (by rw [heq]; rfl)
  rw [heq] at hopening
  obtain ⟨c, r, rfl, hc⟩ := hopening.exists_cons
  exact ⟨c, _, rfl, fun hmem => hfirst c hmem hc⟩

/-- Where the front of a call is cut, the last character in front of the place that is no blank
belongs to the name. -/
theorem IsOpening.cut_last {h₁ h₂ : Text} (hopening : IsOpening word (h₁ ++ h₂)) (hword : word ≠ [])
    (h₁ne : h₁ ≠ []) (h₂ne : h₂ ≠ []) :
    ∃ v c g, h₁ = v ++ c :: g ∧ (∀ b ∈ g, isBlank b) ∧ foldChar c ∈ word.map foldChar := by
  obtain ⟨w, g, hcut, hfold, hblank⟩ := hopening
  rcases append_eq_append_iff.1 hcut with ⟨w₂, rfl, -⟩ | ⟨g₁, rfl, hrest⟩
  · rcases eq_nil_or_concat h₁ with rfl | ⟨v, c, rfl⟩
    · exact absurd rfl h₁ne
    · refine ⟨v, c, [], by simp, by simp, ?_⟩
      rw [← hfold]
      exact mem_map_of_mem (by simp)
  · rcases eq_nil_or_concat w with rfl | ⟨v, c, rfl⟩
    · exact absurd (map_eq_nil_iff.1 hfold.symm) hword
    · refine ⟨v, c, g₁, by simp, ?_, ?_⟩
      · intro b hb
        rcases append_eq_append_iff.1 hrest with ⟨z, rfl, hz⟩ | ⟨z, rfl, -⟩
        · rcases append_eq_singleton_iff.1 hz.symm with ⟨rfl, -⟩ | ⟨-, rfl⟩
          · rw [append_nil] at hb
            exact hblank b hb
          · exact absurd rfl h₂ne
        · exact hblank b (by simp [hb])
      · rw [← hfold]
        exact mem_map_of_mem (by simp)

end Functions

/-! ### Names in order -/

/-- `Listed t names`: the names stand in the code of `t` one behind another, each of them behind a
blank. -/
inductive Listed : Text → List Text → Prop
  | nil (t : Text) : Listed t []
  | cons {a name r : Text} {names : List Text} :
      Closed a → (∃ b, a.getLast? = some b ∧ isBlank b = true) →
    Closed name → Listed r names → Listed (a ++ (name ++ r)) (name :: names)

theorem Text.join_comma_cons (name : Text) (names : List Text) (d : Text) :
    ∃ s, join ", " (name :: names) ++ d = name ++ s ∧
      (names = [] ∧ s = d ∨ names ≠ [] ∧ s = ',' :: ' ' :: (join ", " names ++ d)) := by
  cases names with
  | nil => exact ⟨d, rfl, .inl ⟨rfl, rfl⟩⟩
  | cons name' names =>
    refine ⟨_, ?_, .inr ⟨by simp, rfl⟩⟩
    simp only [join, append_assoc]
    rfl

theorem closed_comma : Closed [',', ' '] := Code.closed (by decide)

theorem exists_behind_comma {x : Char} (h : ',' :: ' ' :: s = u ++ x :: v) (hx : x ∉ [',', ' ']) :
    ∃ u', u = [',', ' '] ++ u' ∧ s = u' ++ x :: v := by
  rcases append_cons_eq_append (u := [',', ' ']) h.symm with ⟨w, hw, -⟩ | ⟨w, rfl, hw⟩
  · exact absurd (by rw [hw]; simp) hx
  · exact ⟨w, rfl, hw⟩

namespace Listed

variable {t d : Text} {names : List Text}

/-- A parenthesis that closes in the list closes in the text. -/
theorem closes (h : Listed t names) (hd : ')' ∉ d) (hcut : join ", " names ++ d = u ++ ')' :: v)
    (hu : Closed u) : ∃ u' v', t = u' ++ ')' :: v' ∧ Closed u' := by
  induction h generalizing u v with
  | nil t =>
    have hmem : ')' ∈ d := by
      rw [show d = u ++ ')' :: v from hcut]
      simp
    exact absurd hmem hd
  | @cons a name r names ha _ hname _ ih =>
    obtain ⟨s, hs, hrest⟩ := join_comma_cons name names d
    rw [hs] at hcut
    rcases append_cons_eq_append hcut.symm with ⟨w, rfl, -⟩ | ⟨w, rfl, hw⟩
    · exact ⟨a ++ u, w ++ r, by simp, ha.append hu⟩
    · have hclosed : Closed w := hname.append_iff.1 hu
      rcases hrest with ⟨-, rfl⟩ | ⟨-, rfl⟩
      · exact absurd (by rw [hw]; simp) hd
      · obtain ⟨w', rfl, hw'⟩ := exists_behind_comma hw (by decide)
        obtain ⟨u', v', rfl, hu'⟩ := ih hw' (closed_comma.append_iff.1 hclosed)
        exact ⟨a ++ (name ++ u'), v', by simp, ha.append (hname.append hu')⟩

/-- A call that begins in a name of the list is one with the text behind the name. -/
theorem calls (he : e ∈ clockCalls) (h : Listed t names) (hd : '(' ∉ d ∧ ')' ∉ d) {n : Text}
    (hs : names = [] ∧ s = d ∨ names ≠ [] ∧ s = ',' :: ' ' :: (join ", " names ++ d))
    (hn : Closed n) (hcall : Calls e.1 e.2 (n ++ s)) : Calls e.1 e.2 (n ++ t) := by
  refine hcall.exchange ?_ ?_
  · intro h' rest hcut hne hopening
    rcases hs with ⟨-, rfl⟩ | ⟨-, rfl⟩
    · apply hd.1
      rw [hcut]
      refine mem_append_left _ (mem_of_getLast? ?_)
      rw [← getLast?_append_of_ne_nil n hne]
      exact hopening.getLast?_eq
    · obtain ⟨c, h', rfl⟩ := exists_cons_of_ne_nil hne
      obtain ⟨rfl, -⟩ := cons.inj hcut
      exact hopening.no_comma he (by simp)
  · rintro h' x u v rfl hopening hcut hu
    rcases hs with ⟨-, rfl⟩ | ⟨-, rfl⟩
    · exact absurd (by rw [hcut]; simp) hd.2
    · have hx : Closed x :=
        (Code.closed (hopening.no_quote (callable_of_mem_clockCalls he))).append_iff.1 hn
      obtain ⟨u, rfl, hrest⟩ := exists_behind_comma hcut (by decide)
      obtain ⟨hadmits, -⟩ := hu.exchange hx
      cases hf : e.2 with
      | blank =>
        rw [hf] at hadmits
        cases hadmits ',' mem_cons_self
      | any =>
        rw [hf] at hadmits
        obtain ⟨u', v', rfl, hu'⟩ := h.closes hd.2 hrest (closed_comma.append_iff.1 hadmits)
        exact ⟨x ++ u', v', by simp, hx.append hu'⟩

/-- What is called in the list is called in the text. -/
theorem called (he : e ∈ clockCalls) (h : Listed t names) (hd : '(' ∉ d ∧ ')' ∉ d) {s₁ s₂ : Text}
    (hcut : join ", " names ++ d = s₁ ++ s₂) (hs₁ : Closed s₁)
    (hlast : s₁.getLast?.any isWordChar = false) (hcall : Calls e.1 e.2 s₂) :
    ∃ a r, t = a ++ r ∧ a ≠ [] ∧ Closed a ∧ a.getLast?.any isWordChar = false ∧
      Calls e.1 e.2 r := by
  induction h generalizing s₁ s₂ with
  | nil t =>
    obtain ⟨h, u, v, rfl, hopening, -⟩ := hcall
    have hmem : '(' ∈ d := by
      rw [show d = s₁ ++ (h ++ (u ++ ')' :: v)) from hcut]
      exact mem_append_right _ (mem_append_left _ (mem_of_getLast? hopening.getLast?_eq))
    exact absurd hmem hd.1
  | @cons a name r names ha hblank hname hlisted ih =>
    obtain ⟨s, hs, hrest⟩ := join_comma_cons name names d
    rw [hs] at hcut
    rcases append_eq_append_iff.1 hcut with ⟨w, rfl, hw⟩ | ⟨n₂, rfl, rfl⟩
    · -- the call is behind the name, and so behind the comma
      have hparen : '(' ∈ s₂ := by
        obtain ⟨h, u, v, rfl, hopening, -⟩ := hcall
        exact mem_append_left _ (mem_of_getLast? hopening.getLast?_eq)
      rcases hrest with ⟨-, rfl⟩ | ⟨-, rfl⟩
      · exact absurd (by rw [hw]; exact mem_append_right _ hparen) hd.1
      · obtain ⟨c, s₂, rfl, hc⟩ := hcall.exists_cons he
        obtain ⟨w', rfl, hw'⟩ := exists_behind_comma hw hc
        have hw'closed : Closed w' := closed_comma.append_iff.1 (hname.append_iff.1 hs₁)
        have hw'last : w'.getLast?.any isWordChar = false := by
          by_cases hne : w' = []
          · rw [hne]
            rfl
          · rwa [← append_assoc, getLast?_append_of_ne_nil _ hne] at hlast
        obtain ⟨a', r', rfl, ha'ne, ha', hlast', hcall'⟩ := ih hw' hw'closed hw'last hcall
        refine ⟨a ++ (name ++ a'), r', by simp, by simp [ha'ne], ha.append (hname.append ha'),
          ?_, hcall'⟩
        rwa [← append_assoc, getLast?_append_of_ne_nil _ ha'ne]
    · obtain ⟨b, hb, hblank⟩ := hblank
      have hane : a ≠ [] := by
        rintro rfl
        cases hb
      refine ⟨a ++ s₁, n₂ ++ r, by simp, by simp [hane], ha.append hs₁, ?_,
        hlisted.calls he hd hrest (hs₁.append_iff.1 hname) hcall⟩
      by_cases hne : s₁ = []
      · rw [hne, append_nil, hb]
        exact isWordChar_of_isBlank hblank
      · rwa [getLast?_append_of_ne_nil _ hne]

end Listed

/-! ### The aliases of a statement -/

namespace Alias

/-- What is read as a name, behind blanks. -/
theorem exists_of_name? {e : Cursor} (hat : At (mask t) c) (hc : Clear (mask t) c)
    (hg : Reads c g d) (hgne : g ≠ []) (hblank : ∀ x ∈ g, isBlank x) (he : name? d = some e) :
    ∃ a name r, t = a ++ (name ++ r) ∧ Closed a ∧ (∃ b, a.getLast? = some b ∧ isBlank b) ∧
      Closed name ∧ a.size = d.offset ∧ a.size + name.size = e.offset := by
  have hquote : Code g := code_of_isBlank hblank
  have hlast : ∀ a : Text, ∃ b, (a ++ g).getLast? = some b ∧ isBlank b := by
    intro a
    obtain ⟨b, hb⟩ := isSome_iff_exists.1 (getLast?_isSome.2 hgne)
    exact ⟨b, by rw [getLast?_append_of_ne_nil _ hgne, hb], hblank b (mem_of_getLast? hb)⟩
  rw [name?] at he
  split at he
  · next f hf =>
    obtain ⟨h, hh, he⟩ := bind_eq_some_iff.1 he
    obtain ⟨inner, hinner, -, -, -⟩ := some?_reads hh
    have hread := hg.trans ((sign?_reads hf).trans (hinner.trans (sign?_reads he)))
    obtain ⟨a, u, b, rfl, ha, -, hu, -, hstart, hstop⟩ :=
      exists_enclosed hat hc (by simpa using hread) hquote (by decide) (by decide)
    have hname : Closed ('[' :: (u ++ [']'])) :=
      (Code.closed (t := ['[']) (by decide)).append (hu.append (Code.closed (by decide)))
    refine ⟨a ++ g, '[' :: (u ++ [']']), b, by simp, ha.append hquote.closed, hlast a,
      hname, ?_, ?_⟩
    · rw [size_append, hstart, hg.offset]
    · rw [← hstop]
      simp only [size_append, size_cons, size_nil]
      omega
  · obtain ⟨f, hf, he⟩ := bind_eq_some_iff.1 he
    cases he
    obtain ⟨x, hx, hfread⟩ := char?_reads hf
    obtain ⟨w, hw, hall, -⟩ := skipWhile_reads f isFoldedName
    have hname : Code ([x] ++ w) := by
      refine forall_mem_append.2
        ⟨?_, fun y hy => isQuote_of_class (hall y hy) (by decide) (by decide)⟩
      simpa using isQuote_of_class hx (by decide) (by decide)
    obtain ⟨a, b, rfl, ha, hstart, hstop⟩ :=
      Clear.exists_stretch hat hc (hg.trans (hfread.trans hw))
      (by simp) (forall_mem_append.2 ⟨hquote, hname⟩)
    refine ⟨a ++ g, [x] ++ w, b, by simp, ha.append hquote.closed, hlast a, hname.closed, ?_, ?_⟩
    · rw [size_append, hstart, hg.offset]
    · rw [← hstop]
      simp only [size_append]
      omega

/-- The name that an AS clause gives, behind a blank in the code of the text. -/
theorem exists_of_clause? {s : Span} (hc : At (mask t) c) (h : clause? c = some (s, d)) :
    c.offset < s.start ∧ ∃ a name r,
      t = a ++ (name ++ r) ∧ Closed a ∧ (∃ b, a.getLast? = some b ∧ isBlank b) ∧ Closed name ∧
      s = ⟨a.size, a.size + name.size⟩ := by
  obtain ⟨_, -, f, hf, g, hg, e, he, h⟩ := of_bind₄ h
  cases h
  obtain ⟨w, hw, -⟩ := word?_reads hf
  obtain ⟨gap, hgap, hne, hblank, -⟩ := some?_reads hg
  obtain ⟨a, name, r, ht, ha, hlast, hname, hstart, hstop⟩ :=
    exists_of_name? (hc.reads hw) (hc.clear_of_word? hf (by decide)).2.1 hgap hne hblank he
  refine ⟨?_, a, name, r, ht, ha, hlast, hname, ?_⟩
  · have hpos := size_pos hne
    have hoffset := (hw.trans hgap).offset
    rw [size_append] at hoffset
    show c.offset < g.offset
    omega
  · rw [hstop, hstart]
    rfl

/-- Names that stand in a text one behind another are listed in it. -/
theorem listed_of_pairwise {spans : List (Nat × Span)}
    (hspans : ∀ x ∈ spans, x.1 < x.2.start ∧ ∃ a name r, t = a ++ (name ++ r) ∧ Closed a ∧
      (∃ b, a.getLast? = some b ∧ isBlank b) ∧ Closed name ∧ x.2 = ⟨a.size, a.size + name.size⟩)
    (horder : spans.Pairwise fun x y => x.2.stop ≤ y.1) :
    ∀ p s : Text, t = p ++ s → Closed p → (∀ x ∈ spans, p.size ≤ x.1) →
      Listed s (spans.map fun x => t.slice x.2) := by
  induction spans with
  | nil => exact fun p s _ _ _ => .nil s
  | cons x spans ih =>
    intro p s ht hp hle
    obtain ⟨hfirst, hrest⟩ := pairwise_cons.1 horder
    obtain ⟨hstart, a, name, r, ht', ha, hblank, hname, hspan⟩ := hspans x mem_cons_self
    have hle := hle x mem_cons_self
    have hlt : p.size < a.size := by
      rw [hspan] at hstart
      exact Nat.lt_of_le_of_lt hle hstart
    obtain ⟨a', hne, rfl, rfl⟩ : ∃ a', a' ≠ [] ∧ a = p ++ a' ∧ s = a' ++ (name ++ r) := by
      rcases append_eq_append_iff.1 (ht.symm.trans ht') with ⟨a', rfl, hs⟩ | ⟨p', rfl, -⟩
      · refine ⟨a', ?_, rfl, hs⟩
        rintro rfl
        simp at hlt
      · rw [size_append] at hlt
        omega
    have hslice : t.slice x.2 = name := by
      rw [hspan, ht', ← append_assoc]
      exact slice_append _ name r rfl rfl
    rw [map_cons, hslice]
    refine .cons (hp.append_iff.1 ha) ?_ hname ?_
    · rwa [getLast?_append_of_ne_nil _ hne] at hblank
    · refine ih (forall_mem_cons.1 hspans).2 hrest (p ++ a' ++ name) r
        (by simp [ht']) (ha.append hname) ?_
      intro y hy
      have hstop := hfirst y hy
      rw [hspan] at hstop
      simpa [size_append, Nat.add_assoc] using hstop

/-- The aliases of a text are listed in it. -/
theorem listed_all (t : Text) : Listed t (all t) := by
  rw [all]
  refine listed_of_pairwise ?_ ?_ [] t rfl rfl (by simp)
  · intro x hx
    obtain ⟨c, d, hc, hread⟩ := at_of_mem_findAll (mem_filter.1 hx).1
    obtain ⟨⟨s, e⟩, hclause, hread⟩ := bind_eq_some_iff.1 hread
    cases hread
    exact exists_of_clause? hc hclause
  · have hspan : ∀ (c : Cursor) (x : Nat × Span) (d : Cursor),
        (do let r ← clause? c; return ((c.offset, r.1), r.2)) = some (x, d) →
          (⟨x.1, x.2.stop⟩ : Span) = c.spanTo d := by
      intro c x d hread
      obtain ⟨⟨s, e⟩, hclause, hread⟩ := bind_eq_some_iff.1 hread
      cases hread
      obtain ⟨_, -, f, -, g, -, k, -, hclause⟩ := of_bind₄ hclause
      cases hclause
      rfl
    exact (pairwise_findAll hspan _).filter _

end Alias

/-! ### In place of the list -/

/-- The last character of a text that is no blank. -/
theorem Text.last_unique (v v' : Text) {g' : Text} {c c' : Char} (h : v ++ c :: g = v' ++ c' :: g')
    (hg : ∀ b ∈ g, isBlank b) (hg' : ∀ b ∈ g', isBlank b) (hc : isBlank c = false)
    (hc' : isBlank c' = false) : c = c' := by
  have hdrop : ∀ (v g : Text) (c : Char), (∀ b ∈ g, isBlank b) → isBlank c = false →
      dropEnd isBlank (v ++ c :: g) = v ++ [c] := by
    intro v g c hg hc
    rw [show v ++ c :: g = v ++ [c] ++ g by simp, dropEnd_append hg]
    apply dropEnd_of_last
    intro x hx
    rw [getLast?_concat] at hx
    cases hx
    exact hc
  have hlast := congrArg (getLast? ∘ dropEnd isBlank) h
  simp only [Function.comp_apply, hdrop v g c hg hc, hdrop v' g' c' hg' hc',
    getLast?_concat] at hlast
  exact some.inj hlast

/-- A parenthesis that is open at the start of a text and no longer at its end is closed in it. -/
theorem Nesting.exists_close {s : Option Char} {d : Nat} (h : codeDepth s d t < d) :
    ∃ u v, t = u ++ ')' :: v ∧ state s u = none := by
  induction t generalizing s d with
  | nil => exact absurd h (Nat.lt_irrefl d)
  | cons c t ih =>
    cases s with
    | some q =>
      obtain ⟨u, v, rfl, hu⟩ := ih h
      exact ⟨c :: u, v, rfl, hu⟩
    | none =>
      by_cases hc : c = ')'
      · exact ⟨[], t, by rw [hc]; rfl, rfl⟩
      · have hle : d ≤ step d c := by
          rw [step]
          split
          · exact Nat.le_succ d
          · exact Nat.le_refl d
        obtain ⟨u, v, rfl, hu⟩ := ih (Nat.lt_of_lt_of_le h hle)
        exact ⟨c :: u, v, rfl, hu⟩

namespace Ordering

/-- Where the list of an ORDER BY stands: in front of it the words, outside parentheses, and behind
it nothing that matters. -/
theorem exists_front (h : list? (mask t) = some list) :
    ∃ x s, t = x ++ s ∧ x.size = list.start ∧ Closed x ∧ Nesting.codeDepth none 0 x = 0 ∧
      (∃ v c g, x = v ++ c :: g ∧ c.toLower = 'y' ∧ ∀ b ∈ g, isBlank b) ∧
      '(' ∉ t.after list.stop ∧ ')' ∉ t.after list.stop := by
  obtain ⟨a, k, lead, l, back, rfl, hlisted⟩ := exists_listed h
  obtain rfl := some.inj (hlisted.list?_eq.symm.trans h)
  obtain ⟨hclosed, hdepth⟩ := hlisted.closed_front
  have hafter :
      (a ++ (k ++ (lead ++ (l ++ back)))).after (size (a ++ (k ++ lead)) + l.size) = back := by
    simpa [Nat.add_assoc] using after_size_append (a ++ (k ++ lead) ++ l) back
  have hno {x : Char} (hx : isBlank x = false) (hne : x ≠ ';') : x ∉ back := by
    intro hmem
    rcases hlisted.tail x hmem with hc | hc
    · simp [hx] at hc
    · exact hne hc
  refine ⟨a ++ k ++ lead, l ++ back, by simp, by simp, hclosed, hdepth, ?_, ?_⟩
  · obtain ⟨w, _, rfl, -, gap, by', _, rfl, -, -, hby, rfl⟩ := hlisted.clause.spelled
    obtain ⟨b, _, rfl, -, hby⟩ := map_eq_cons_iff.1 hby
    obtain ⟨y, _, rfl, hy, hby⟩ := map_eq_cons_iff.1 hby
    obtain rfl := map_eq_nil_iff.1 hby
    exact ⟨a ++ (w ++ (gap ++ [b])), y, lead, by simp, hy, hlisted.leads⟩
  · rw [hafter]
    exact ⟨hno (by decide) (by decide), hno (by decide) (by decide)⟩

theorem direction_of_mem_terms {term : Term} (h : term ∈ terms t list) {direction : Text}
    (hdirection : term.direction = some direction) : direction ∈ directions := by
  obtain ⟨s, -, rfl⟩ := mem_map.1 h
  rw [termOf] at hdirection
  split at hdirection
  · next d hd =>
    cases hdirection
    exact mem_of_find?_eq_some hd
  · cases hdirection

theorem exists_of_distinct? (h : distinct? t = some r) : ∃ list d, list? (mask t) = some list ∧
    (d = [] ∨ ∃ direction ∈ directions, d = ' ' :: direction) ∧
    r = t.splice list (join ", " (Alias.all t) ++ d) := by
  obtain ⟨_, -, list, hlist, _, -, _, -, h⟩ := of_bind₄ h
  refine ⟨list, _, hlist, ?_, (some.inj h).symm⟩
  split
  · next direction hdirection =>
    obtain ⟨term, hterm, hdirection⟩ := bind_eq_some_iff.1 hdirection
    exact .inr ⟨direction, direction_of_mem_terms (mem_of_getLast? hterm) hdirection, rfl⟩
  · exact .inl rfl

end Ordering

/-- A call does not reach over the place behind the words ORDER BY. -/
theorem Functions.Calls.exchange_front (he : e ∈ clockCalls) {x z s' : Text}
    (hdepth : Nesting.codeDepth none 0 x = 0)
    (hend : ∃ v c g, x = v ++ c :: g ∧ c.toLower = 'y' ∧ ∀ b ∈ g, isBlank b) (hz : Closed z)
    (hcut : x = z ++ r) (hr : r ≠ []) (hcall : Calls e.1 e.2 (r ++ s)) :
    Calls e.1 e.2 (r ++ s') := by
  obtain ⟨v, y, g, hxy, hy, hg⟩ := hend
  have hyblank : isBlank y = false := isBlank_of_toLower hy (by decide)
  refine hcall.exchange ?_ ?_
  · intro h rest _ hne hopening
    obtain ⟨a, word, hword⟩ := exists_cons_of_mem_clockCalls e he
    obtain ⟨v', c, g', rfl, hg', hc⟩ := hopening.cut_last (by rw [hword]; simp) hr hne
    obtain ⟨b, hb, hfold⟩ := mem_map.1 hc
    have hcblank : isBlank c = false := by
      cases hblank : isBlank c with
      | false => rfl
      | true =>
        have hplain := ((callable_of_mem_clockCalls he).plain b hb).1
        rw [hfold, foldChar_of_isBlank hblank, hblank] at hplain
        cases hplain
    have hsame : y = c := last_unique v (z ++ v') (by rw [← hxy, hcut]; simp) hg hg' hyblank hcblank
    have hletters : ∀ e ∈ clockCalls, 'y' ∉ e.1.map foldChar := by decide
    apply hletters e he
    rwa [← foldChar_of_toLower hy (by decide), hsame]
  · rintro h x' u w rfl hopening _ hu
    have hxcut : x = (z ++ h) ++ x' := by rw [hcut, append_assoc]
    cases hf : e.2 with
    | any =>
      have hclosed : Closed (z ++ h) :=
        hz.append (Code.closed (hopening.no_quote (callable_of_mem_clockCalls he)))
      have hopen : 0 < Nesting.codeDepth none 0 (z ++ h) := by
        obtain ⟨n, g', rfl, -, -⟩ := hopening
        rw [show z ++ (n ++ (g' ++ ['('])) = z ++ (n ++ g') ++ ['('] by simp] at hclosed ⊢
        rw [Nesting.Closed.codeDepth_append (hclosed.of_append (by decide))]
        exact Nat.succ_pos _
      rw [hxcut, Nesting.Closed.codeDepth_append hclosed] at hdepth
      obtain ⟨u', w', rfl, hu'⟩ := Nesting.exists_close (hdepth.trans_lt hopen)
      exact ⟨u', w' ++ s', by simp, hu'⟩
    | blank =>
      rw [hf] at hu
      obtain ⟨n, g', rfl, -, -⟩ := hopening
      have hsame : y = '(' := last_unique v (z ++ (n ++ g')) (by rw [← hxy, hxcut]; simp) hg
        (fun b hb => hu b (mem_append_left _ hb)) hyblank (by decide)
      rw [hsame] at hy
      cases hy

/-- Nothing is called in a list of aliases that takes the place of another. -/
theorem Functions.Settled.distinct? (h : Settled t) (hr : Ordering.distinct? t = some r) :
    Settled r := by
  obtain ⟨list, d, hlist, hd, rfl⟩ := Ordering.exists_of_distinct? hr
  obtain ⟨x, s, ht, hsize, hx, hdepth, hend, hopen, hclose⟩ := Ordering.exists_front hlist
  have hno : '(' ∉ d ∧ ')' ∉ d := by
    rcases hd with rfl | ⟨direction, hdirection, rfl⟩
    · simp
    · have hall :
          ∀ direction ∈ Ordering.directions, '(' ∉ ' ' :: direction ∧ ')' ∉ ' ' :: direction := by
        decide
      exact hall direction hdirection
  have hplain : '(' ∉ d ++ t.after list.stop ∧ ')' ∉ d ++ t.after list.stop := by
    simp only [mem_append, not_or]
    exact ⟨⟨hno.1, hopen⟩, hno.2, hclose⟩
  have hnew : t.splice list (join ", " (Alias.all t) ++ d)
      = x ++ (join ", " (Alias.all t) ++ (d ++ t.after list.stop)) := by
    have hbefore : t.before list.start = x := by rw [← hsize, ht, before_size_append]
    rw [splice, hbefore]
    simp only [append_assoc]
  intro e he n hcall
  rw [hnew] at hcall
  rcases hcall.split with
    ⟨z, r, hcut, hrne, rfl, hz, hlast, hcall⟩ | ⟨s₁, s₂, hs, hclosed, hlast, hcall⟩
  · have hold : Calls e.1 e.2 (r ++ s) := hcall.exchange_front he hdepth hend hz hcut hrne
    refine h e he z.size ⟨z, r ++ s, ?_, rfl, hz, hlast, hold⟩
    rw [ht, hcut, append_assoc]
  · have hs₁ : s₁.getLast?.any isWordChar = false := by
      by_cases hne : s₁ = []
      · rw [hne]
        rfl
      · rwa [getLast?_append_of_ne_nil _ hne] at hlast
    obtain ⟨a, r, ht', -, ha, hlast', hcall'⟩ := (Alias.listed_all t).called he hplain hs
      (hx.append_iff.1 hclosed) hs₁ hcall
    exact h e he a.size ⟨a, r, ht', rfl, ha, hlast', hcall'⟩

end Recast
