import Recast.Proofs.Phrases

/-!
# The last clause

A search for a phrase finds every place where it stands outside all parentheses, in order and none
inside another. So the last find is the last such place (`findLastTop?_eq_some_iff`).
-/

namespace Recast

open Literal Nesting Cursor List Text
open Option hiding guard

variable {k' rest' : Text} {wanted : Nat → Bool}

theorem Text.size_le_of_name {r x y z : Text} {c : Char} (hx : ∀ d ∈ x, isNameChar d = false)
    (hc : isNameChar c) (hcut : x ++ z = y ++ c :: r) : x.size ≤ y.size := by
  refine Nat.le_of_not_lt fun hlt => ?_
  obtain ⟨s, rfl, hs⟩ := exists_append_of_size_le hcut.symm (Nat.le_of_lt hlt)
  cases s with
  | nil => simp at hlt
  | cons d s =>
    obtain ⟨rfl, -⟩ := cons.inj hs
    simp [hx c (by simp)] at hc

namespace Keyword

variable {first : Text} {others : List Text} {front k rest : Text}

/-! ### All phrases are found -/

theorem scanFrom_subset {step step' : Cursor → Option (Option α × Nat)}
    (h : ∀ c, step' c = step c ∨ ∃ x stop, step c = some (none, stop) ∧
      step' c = some (some x, stop))
    (resume offset : Nat) (last : Option Char) (t : Text) :
    scanFrom step resume offset last t ⊆ scanFrom step' resume offset last t := by
  induction t generalizing resume offset last with
  | nil => exact List.Subset.refl _
  | cons c t ih =>
    rw [scanFrom, scanFrom]
    split
    · exact ih _ _ _
    · rcases h ⟨offset, last, c :: t⟩ with heq | ⟨x, stop, hnone, hsome⟩
      · rw [heq]
        split
        · exact ih _ _ _
        · exact append_subset.2 ⟨subset_append_left _ _, subset_append_of_subset_right _ (ih _ _ _)⟩
      · rw [hnone, hsome]
        exact subset_append_of_subset_right _ (ih _ _ _)

/-- Where more places are wanted, more is found. -/
theorem phrases_subset {wanted' : Nat → Bool} (h : ∀ n, wanted n → wanted' n) (m : Text)
    (offset : Nat) :
    phrases wanted m (first :: others) offset ⊆ phrases wanted' m (first :: others) offset := by
  rw [phrases, phrases]
  split
  · exact List.Subset.refl _
  · refine scanFrom_subset (fun c => ?_) _ _ _ _
    cases here? first c with
    | none => exact .inl rfl
    | some d =>
      simp only [bind_eq_bind, bind_some]
      cases rest? others d with
      | none => exact .inl rfl
      | some e =>
        cases hw : wanted c.offset with
        | true =>
          rw [h _ hw]
          exact .inl rfl
        | false =>
          cases wanted' c.offset with
          | true => exact .inr ⟨c.spanTo e, e.offset, rfl, rfl⟩
          | false => exact .inl rfl

/-- A phrase that stands in a text is found. -/
theorem Stands.exists_mem_phrases (h : Stands first others front k rest)
    (hwords : Sought (first :: others)) (hwanted : wanted front.size) :
    ∃ s ∈ phrases wanted (front ++ (k ++ rest)) (first :: others) 0, s.start = front.size := by
  obtain ⟨hfirst, hothers, -, hdistinct⟩ := hwords
  have hzero : (front ++ (k ++ rest)).isBoundary 0 := isBoundary_iff.2 ⟨[], _, rfl, rfl⟩
  -- look for this place alone
  obtain ⟨s, hs, -⟩ :
      ∃ s, (phrases (front.size == ·) (front ++ (k ++ rest)) (first :: others) 0).head? = some s ∧
      s.start ≤ front.size :=
    h.exists_head? hfirst hothers (beq_self_eq_true _) (fun u x z d e hfront hd he hlt => by
      have hle : e.offset ≤ u.size + size (x :: z) :=
        h.le_of_here? hfirst hothers hfront rfl hd (.inr ⟨he, hdistinct⟩)
      rw [hfront, size_append] at hlt
      omega) hzero (Nat.zero_le _)
  have hmem := mem_of_head? hs
  obtain ⟨a, k', r, -, -, rfl, -, hsize⟩ := exists_of_mem_phrases hmem
  refine ⟨_, phrases_subset (fun n hn => ?_) _ _ hmem, (eq_of_beq hsize).symm⟩
  rwa [← eq_of_beq hn]

theorem Topmost.exists_mem_topPhrases (h : Topmost first others front k rest)
    (hwords : Sought (first :: others)) :
    ∃ s ∈ topPhrases (mask (front ++ (k ++ rest))) (first :: others) 0, s.start = front.size := by
  obtain ⟨hm, hstands⟩ := h.toStands.mask hwords.1 hwords.2.1 h.closed
  have htop : (depthAt (mask (front ++ (k ++ rest))) (mask front).size == 0) = true := by
    rw [beq_iff_eq, depthAt, hm, before_size_append, depth_mask, h.top]
  rw [← size_mask front]
  rw [hm] at htop ⊢
  exact hstands.exists_mem_phrases hwords htop

theorem pairwise_phrases (wanted : Nat → Bool) (m : Text) (offset : Nat) :
    (phrases wanted m (first :: others) offset).Pairwise fun s s' => s.start < s'.start := by
  rw [phrases]
  split
  · exact .nil
  · refine pairwise_scanFrom (fun c s stop hstep => ?_) _ _ _ _
    obtain ⟨d, -, hstep⟩ := bind_eq_some_iff.1 hstep
    split at hstep
    · cases hstep
    · split at hstep
      · cases hstep
        rfl
      · cases hstep

/-- No phrase begins inside another. -/
theorem Stands.le_of_lt {front' : Text} (h : Stands first others front k rest)
    (h' : Stands first others front' k' rest') (hwords : Sought (first :: others))
    (heq : front ++ (k ++ rest) = front' ++ (k' ++ rest')) (hlt : front.size < front'.size) :
    size (front ++ k) ≤ front'.size := by
  obtain ⟨hfirst, hothers, -, hdistinct⟩ := hwords
  obtain ⟨u, rfl, hu⟩ := exists_append_of_size_le heq (Nat.le_of_lt hlt)
  cases u with
  | nil =>
    rw [append_nil] at hlt
    omega
  | cons x z =>
    obtain ⟨d, e, hd, he, hread⟩ :=
      h.exists_here? hfirst hothers (c := ⟨0, front.getLast?, k ++ rest⟩) rfl rfl
    have hle := h'.le_of_here? hfirst hothers rfl hu hd (.inr ⟨he, hdistinct⟩)
    rw [hread.offset] at hle
    rw [size_append, size_append]
    omega

/-- A phrase outside all parentheses is one behind another front too. -/
theorem Topmost.exchange {f g y k r r' : Text} (h : Topmost first others (f ++ y) k r)
    (hf : Closed f) (hdepth : codeDepth none 0 f = 0) (hg : Closed g)
    (hdepth' : codeDepth none 0 g = 0) (hedge : y = [] → g.getLast?.any isNameChar = false)
    (hr : r'.head? = r.head?) :
    Topmost first others (g ++ y) k r' where
  spelled := h.spelled
  before := by
    by_cases hy : y = []
    · rw [hy, append_nil]
      exact hedge hy
    · have hbefore := h.before
      rw [getLast?_append_of_ne_nil _ hy] at hbefore ⊢
      exact hbefore
  behind := by
    rw [hr]
    exact h.behind
  closed := hg.append (hf.append_iff.1 h.closed)
  top := by
    have htop := h.top
    rw [Closed.codeDepth_append hf, hdepth] at htop
    rw [Closed.codeDepth_append hg, hdepth', htop]

/-! ### The last of them -/

/-- A phrase stands outside all parentheses and none stands so behind it. -/
structure Lasts (first : Text) (others : List Text) (front k rest : Text) : Prop
    extends Topmost first others front k rest where
  last : ∀ a k' r, front ++ (k ++ rest) = a ++ (k' ++ r) → Topmost first others a k' r →
      a.size ≤ front.size

/-- A search for the last phrase finds it. -/
theorem findLastTop?_eq_some_iff (hwords : Sought (first :: others)) {t : Text} {s : Span} :
    findLastTop? (mask t) (first :: others) = some s ↔ ∃ front k rest, t = front ++ (k ++ rest) ∧
      Lasts first others front k rest ∧ s = ⟨front.size, front.size + k.size⟩ := by
  have hsorted :
      (topPhrases (mask t) (first :: others) 0).Pairwise fun s s' => s.start < s'.start :=
    pairwise_phrases _ _ _
  have hle {s₀ : Span} (hlast : findLastTop? (mask t) (first :: others) = some s₀) {s' : Span}
      (hs' : s' ∈ topPhrases (mask t) (first :: others) 0) : s'.start ≤ s₀.start := by
    obtain ⟨l, hl⟩ := getLast?_eq_some_iff.1 hlast
    rw [hl] at hs' hsorted
    rcases mem_append.1 hs' with hmem | hmem
    · exact Nat.le_of_lt ((pairwise_append.1 hsorted).2.2 s' hmem s₀ (by simp))
    · rw [mem_singleton.1 hmem]
  have hfound {s₀ : Span} (hlast : findLastTop? (mask t) (first :: others) = some s₀) :=
    topmost_of_mem_topPhrases hwords.1 hwords.2.1 hwords.2.2.1 (mem_of_getLast? hlast)
  constructor
  · intro hlast
    obtain ⟨front, k, rest, rfl, htop, rfl, -⟩ := hfound hlast
    refine ⟨front, k, rest, rfl, ⟨htop, fun a k' r heq htop' => ?_⟩, rfl⟩
    obtain ⟨s', hs', hstart⟩ := htop'.exists_mem_topPhrases hwords
    rw [← heq] at hs'
    exact hstart ▸ hle hlast hs'
  · rintro ⟨front, k, rest, rfl, hlasts, rfl⟩
    obtain ⟨s', hs', hstart⟩ := hlasts.exists_mem_topPhrases hwords
    cases hlast : findLastTop? (mask (front ++ (k ++ rest))) (first :: others) with
    | none => exact absurd (getLast?_eq_none_iff.1 hlast) (ne_nil_of_mem hs')
    | some s₀ =>
      have hge := hle hlast hs'
      obtain ⟨a, k', r, heq, htop, rfl, -⟩ := hfound hlast
      have hsize := hlasts.last a k' r heq htop
      obtain ⟨rfl, hrest⟩ := append_inj_of_size heq (by simp only at hge; omega)
      rw [hlasts.eq_of_front hwords.1 hwords.2.1 htop.toStands hrest]

end Keyword

namespace Ordering

variable {a back k lead list s t u v : Text}

theorem sought_orderBy : Keyword.Sought ["ORDER", "BY"] := by decide

/-! ### Where the list ends -/

/-- What is dropped at the end does not depend on what stands in front. -/
theorem dropEnd_exchange {p : Char → Bool} {r : Text}
    (hlast : v.getLast? = u.getLast? ∨ ∃ c, v.getLast? = some c ∧ p c = false)
    (h : dropEnd p (u ++ s) = u ++ r) : dropEnd p (v ++ s) = v ++ r := by
  obtain ⟨b, hb, hall, hend⟩ := exists_dropEnd p (u ++ s)
  rw [h, append_assoc] at hb
  rw [h] at hend
  obtain rfl := append_cancel_left hb
  rw [← append_assoc, dropEnd_append hall]
  refine dropEnd_of_last fun c hc => ?_
  by_cases hr : r = []
  · rw [hr, append_nil] at hc hend
    rcases hlast with heq | ⟨d, hd, hp⟩
    · exact hend c (heq ▸ hc)
    · rw [hc] at hd
      cases hd
      exact hp
  · rw [getLast?_append_of_ne_nil _ hr] at hc hend
    exact hend c hc

/-- What stands behind the list is taken off whatever the list is, if it does not end in it. -/
theorem strip_exchange (hlast : v.getLast? = u.getLast? ∨ v.getLast? = some ')')
    (h : strip (u ++ s) = u) : strip (v ++ s) = v := by
  have hlast' {p : Char → Bool} (hp : p ')' = false) :
      v.getLast? = u.getLast? ∨ ∃ c, v.getLast? = some c ∧ p c = false :=
    hlast.imp id fun h => ⟨')', h, hp⟩
  obtain ⟨b₂, h₂, -⟩ := exists_dropEnd (· == ';') (u ++ s).trimEnd
  obtain ⟨b₃, h₃, -⟩ := exists_dropEnd isBlank (dropEnd (· == ';') (u ++ s).trimEnd)
  rw [show dropEnd isBlank (dropEnd (· == ';') (u ++ s).trimEnd) = u from h] at h₃
  rw [h₃, append_assoc] at h₂
  have hv₁ : trimEnd (v ++ s) = v ++ (b₃ ++ b₂) := dropEnd_exchange (hlast' rfl) h₂
  have hv₂ : dropEnd (· == ';') (v ++ (b₃ ++ b₂)) = v ++ b₃ :=
    dropEnd_exchange (hlast' rfl) (by rw [← h₂, h₃])
  have hv₃ : trimEnd (v ++ b₃) = v ++ [] :=
    dropEnd_exchange (hlast' rfl) (by rw [← h₃, append_nil]; exact h)
  rw [strip, hv₁, hv₂, hv₃, append_nil]

theorem list?_eq_bind (m : Text) :
    list? m = (Keyword.findLastTop? m ["ORDER", "BY"]).bind fun clause =>
    if clause.stop < (strip m).size then some
      (m.trimSpan ⟨clause.stop, (strip m).size⟩) else none := by
  rw [list?]
  cases Keyword.findLastTop? m ["ORDER", "BY"] with
  | none => rfl
  | some clause =>
    show ((guard (clause.stop < (strip m).size) : Option Unit) >>= fun _ => _) = if clause.stop <
      (strip m).size then _ else _
    by_cases hlt : clause.stop < (strip m).size
    · rw [guard, if_pos hlt, if_pos hlt]
      rfl
    · rw [guard, if_neg hlt, if_neg hlt]
      rfl

/-! ### The list in its statement -/

/-- The ORDER BY list of a statement: behind the last such clause outside all parentheses and
blanks, and in front of blanks and semicolons. -/
structure Listed (a k lead list back : Text) : Prop where
  clause : Keyword.Lasts "ORDER" ["BY"] a k (lead ++ (list ++ back))
  leads : ∀ c ∈ lead, isBlank c = true
  nonempty : list ≠ []
  first : ∀ c, (mask list).head? = some c → isBlank c = false
  tail : ∀ c ∈ back, isBlank c = true ∨ c = ';'
  closed : back = [] ∨ Closed list
  stripped : strip (mask list ++ back) = mask list

theorem mask_ne_nil (h : t ≠ []) : mask t ≠ [] := by
  intro hnil
  have hhead := head?_mask t
  rw [hnil, head?_nil, eq_comm, head?_eq_none_iff] at hhead
  exact h hhead

/-- What the scanner sees in front of the list, in the list and behind it. -/
theorem mask_listed (ha : Closed a) (hk : Code k) (hne : k ≠ [])
    (hlead : ∀ c ∈ lead, isBlank c) (hback : ∀ c ∈ back, isBlank c ∨ c = ';')
    (hclosed : back = [] ∨ Closed list) :
    mask (a ++ (k ++ (lead ++ (list ++ back)))) =
      (mask a ++ k) ++ (lead ++ (mask list ++ back)) := by
  have hlead' : Code lead := code_of_isBlank hlead
  have hback' : Code back := fun c hc => by
    rcases hback c hc with hblank | rfl
    · exact isQuote_of_isBlank hblank
    · rfl
  have hend : mask (list ++ back) = mask list ++ back := by
    rcases hclosed with rfl | hlist
    · rw [append_nil, append_nil]
    · rw [mask_append hlist hback'.apart_right, hback'.mask_eq]
  rw [mask_append_code ha hne hk, mask_append hlead'.closed hlead'.apart, hlead'.mask_eq, hend,
    append_assoc]

namespace Listed

variable {a k lead list back : Text}

theorem mask_eq (h : Listed a k lead list back) :
    mask (a ++ (k ++ (lead ++ (list ++ back)))) = (mask a ++ k) ++ (lead ++ (mask list ++ back)) :=
  mask_listed h.clause.closed (h.clause.no_quote sought_orderBy.1 sought_orderBy.2.1)
    (h.clause.ne_nil sought_orderBy.1) h.leads h.tail h.closed

/-- The list of a statement is found. -/
theorem list?_eq (h : Listed a k lead list back) :
    list? (mask (a ++ (k ++ (lead ++ (list ++ back)))))
    = some ⟨size (a ++ (k ++ lead)), size (a ++ (k ++ lead)) + list.size⟩ := by
  have hne := mask_ne_nil h.nonempty
  have hstrip :
      strip (mask (a ++ (k ++ (lead ++ (list ++ back))))) =
        (mask a ++ k) ++ (lead ++ mask list) := by
    have hlast : ((mask a ++ k) ++ (lead ++ mask list)).getLast? = (mask list).getLast? := by
      rw [← append_assoc, getLast?_append_of_ne_nil _ hne]
    rw [h.mask_eq, ← append_assoc lead, ← append_assoc]
    exact strip_exchange (.inl hlast) h.stripped
  have hsize : size (mask a ++ k) = a.size + k.size := by rw [size_append, size_mask]
  have htrimmed : Text.Trimmed lead (mask list) [] := by
    refine ⟨h.leads, by simp, h.first, fun c hc => ?_, fun _ => rfl⟩
    obtain ⟨-, -, -, hlast⟩ := exists_strip (mask list ++ back)
    exact hlast c (by rw [h.stripped]; exact hc)
  have hspan := htrimmed.trimSpan_eq (mask a ++ k) back hsize.symm
    (m := size ((mask a ++ k) ++ (lead ++ mask list))) (by rw [append_nil, size_append, hsize])
  have hlt : a.size + k.size < size ((mask a ++ k) ++ (lead ++ mask list)) := by
    have hpos := size_pos hne
    rw [size_append, hsize, size_append]
    omega
  rw [list?_eq_bind,
    (Keyword.findLastTop?_eq_some_iff sought_orderBy).2 ⟨a, k, _, rfl, h.clause, rfl⟩,
    bind_some, hstrip, if_pos hlt, h.mask_eq]
  simp only [append_nil, append_assoc, size_append, size_mask, Nat.add_assoc] at hspan
  simp only [append_assoc, size_append, size_mask, Nat.add_assoc, hspan]

end Listed

/-- A list that is found is the list of a statement. The text is cut behind the last clause, at the
first character that is no blank, and in front of blanks and semicolons. -/
theorem exists_listed {s : Span} (h : list? (mask t) = some s) :
    ∃ a k lead list back, t = a ++ (k ++ (lead ++ (list ++ back))) ∧ Listed a k lead list back := by
  rw [list?_eq_bind] at h
  obtain ⟨clause, hclause, h⟩ := bind_eq_some_iff.1 h
  obtain ⟨hlt, -⟩ := ite_none_right_eq_some.1 h
  obtain ⟨a, k, rest, rfl, hlasts, rfl⟩ :=
    (Keyword.findLastTop?_eq_some_iff sought_orderBy).1 hclause
  obtain ⟨back, hm, hback, hlast⟩ := exists_strip (mask (a ++ (k ++ rest)))
  have hno : ∀ c ∈ back, isQuote c = false ∧ c ≠ filler := fun c hc => by
    rcases hback c hc with hblank | rfl
    · exact ⟨isQuote_of_isBlank hblank, by rintro rfl; cases hblank⟩
    · decide
  -- what is taken off is code
  obtain ⟨t₁, ht, hmask, hclosed⟩ : ∃ t₁, a ++ (k ++ rest) = t₁ ++ back ∧
      mask t₁ = strip (mask (a ++ (k ++ rest))) ∧ (back = [] ∨ Closed t₁) := by
    cases back with
    | nil => exact ⟨a ++ (k ++ rest), by simp, by rw [append_nil] at hm; exact hm, .inl rfl⟩
    | cons c back =>
      obtain ⟨t₁, b, ht, hclosed, hmask, hb⟩ :=
        exists_code hm (hno c (by simp)).1 (hno c (by simp)).2
      have hb' :=
        eq_of_mask_no_quote (t := b) (by rw [hb]; exact fun d hd => (hno d (by simp [hd])).1)
      exact ⟨t₁, by rw [ht, ← hb, hb'], hmask, .inr hclosed⟩
  rw [← hmask] at hlt hlast hm
  rw [size_mask, ← size_append] at hlt
  obtain ⟨w, rfl, hw⟩ :=
    exists_append_of_size_le (a := a ++ k) (b := rest) (by simpa using ht) (Nat.le_of_lt hlt)
  obtain ⟨lead, hlead, hblank, hfirst⟩ := exists_dropWhile isBlank w
  generalize w.dropWhile isBlank = list at hlead hfirst
  subst hlead hw
  have hk := hlasts.no_quote sought_orderBy.1 sought_orderBy.2.1
  have hfront : Closed (a ++ k) := hlasts.closed.append hk.closed
  have hleadClosed : Closed lead := (code_of_isBlank hblank).closed
  have hlist : back = [] ∨ Closed list :=
    hclosed.imp id fun h => hleadClosed.append_iff.1 (hfront.append_iff.1 h)
  have hmask₁ :
      mask (a ++ (k ++ (lead ++ (list ++ [])))) = (mask a ++ k) ++ (lead ++ (mask list ++ [])) :=
    mask_listed hlasts.closed hk (hlasts.ne_nil sought_orderBy.1) hblank (by simp) (.inl rfl)
  rw [append_nil, append_nil, ← append_assoc a] at hmask₁
  have hne : list ≠ [] := by
    rintro rfl
    rw [hmask₁] at hlast
    cases lead with
    | nil => simp at hlt
    | cons c lead =>
      obtain ⟨d, hd⟩ := isSome_iff_exists.1 (getLast?_isSome.2 (cons_ne_nil c lead))
      have hblank' := hlast d (by
        rw [show mask [] = [] from rfl, append_nil, getLast?_append_of_ne_nil _ (by simp), hd])
      simp [hblank d (mem_of_getLast? hd)] at hblank'
  refine ⟨a, k, lead, list, back, by simp,
    ⟨by simpa using hlasts, hblank, hne, ?_, hback, hlist, ?_⟩⟩
  · rw [head?_mask]
    exact hfirst
  · refine strip_exchange (u := mask (a ++ k ++ (lead ++ list))) (.inl ?_) ?_
    · rw [hmask₁, ← append_assoc, getLast?_append_of_ne_nil _ (mask_ne_nil hne)]
    · rw [← hm]
      exact hmask.symm

namespace Listed

variable {a k lead list back : Text}

theorem closed_front (h : Listed a k lead list back) :
    Closed (a ++ k ++ lead) ∧ codeDepth none 0 (a ++ k ++ lead) = 0 := by
  have hplain : ∀ c ∈ k ++ lead, isPlain c := by
    refine forall_mem_append.2 ⟨fun c hc => ?_, fun c hc => isPlain_of_isBlank (h.leads c hc)⟩
    rcases h.clause.mem sought_orderBy.1 sought_orderBy.2.1 c hc with hname | hblank
    · exact isPlain_of_class hname (by decide)
    · exact isPlain_of_class hblank (by decide)
  have hbalanced := balanced_of_isPlain hplain
  rw [append_assoc]
  refine ⟨h.clause.closed.append hbalanced.closed, ?_⟩
  rw [Closed.codeDepth_append h.clause.closed, h.clause.top, hbalanced.depth]

end Listed

end Ordering

end Recast
