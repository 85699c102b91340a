import Recast.Proofs.Rendering
import Recast.Proofs.Tokens

/-!
# Binding moves no literal

`Placeholder.all` finds the placeholders piece by piece, through the spans of the literals. `Laid`
describes the same list character by character, next to the state of the literal scanner. From there
the bound text is the template with every placeholder's source text exchanged for a text that leaves
the scanner where it was, so the scanner reads the text in between in the same states, and no value
can open or close a literal of the template.
-/

namespace Recast.Placeholder

open Literal List Text

variable {t : Text} {c q : Char} {n : Nat} {ps : List Placeholder} {s : Option Char}
  {p : Placeholder}

/-! ### Where placeholders stand -/

/-- The characters that placeholders are written with. -/
def marks : List Char := ['%', '?', 's', 'd', 'f', 'F', '\'', '"']

/-- How a placeholder is written. -/
inductive Spells (p : Placeholder) : Text → Prop
  | mark : p.spec = .text → Spells p ['?']
  | percent {c : Char} : spec? c = some p.spec → Spells p ['%', c]
  | literal {q : Char} : isQuote q = true → p.spec = .text → Spells p [q, '%', 's', q]

/-- `Laid n s t ps`: in a text `t` that starts at offset `n` with the scanner in state `s`, the
placeholders `ps` stand one behind another. Each covers a source text of its own, which leaves the
scanner in the state that the placeholder was found in. -/
inductive Laid : Nat → Option Char → Text → List Placeholder → Prop
  | nil (n : Nat) (s : Option Char) : Laid n s [] []
  | keep {n : Nat} {s : Option Char} {c : Char} {t : Text} {ps : List Placeholder} :
    Laid (n + c.utf8Size) (next s c) t ps → Laid n s (c :: t) ps
  | hole {n : Nat} {s : Option Char} {p : Placeholder} (source : Text) {t : Text}
    {ps : List Placeholder} : p.span = ⟨n, n + source.size⟩ → 0 < source.size →
    p.Spells source → isQuote p.quote = true → p.opened = s → state s source = s →
    Laid (n + source.size) s t ps →
    Laid n s (source ++ t) (p :: ps)

theorem Laid.append {a b : Text} {qs : List Placeholder} (ha : Laid n s a ps)
    (hb : Laid (n + a.size) (state s a) b qs) : Laid n s (a ++ b) (ps ++ qs) := by
  induction ha with
  | nil => exact hb
  | @keep n s c t ps _ ih =>
    exact .keep (ih (by simpa [Nat.add_assoc] using hb))
  | @hole n s p source t ps hspan hpos hspells hquote hopened hstate _ ih =>
    rw [append_assoc]
    refine .hole source hspan hpos hspells hquote hopened hstate (ih ?_)
    rwa [size_append, ← Nat.add_assoc, state_append, hstate] at hb

theorem Laid.of_nil {s' : Option Char} (h : Laid n s [] ps) : Laid n s' [] ps := by
  generalize ht : ([] : Text) = t at h
  cases h with
  | nil => exact .nil n s'
  | keep => cases ht
  | hole source _ hpos =>
    rw [(append_eq_nil_iff.1 ht.symm).1] at hpos
    exact absurd hpos (by decide)

theorem spec?_eq_some {spec : Spec} (h : spec? c = some spec) :
    c.utf8Size = 1 ∧ isQuote c = false ∧ c ∈ marks := by
  have hc : c ∈ ['s', 'd', 'f', 'F', '%'] := by
    unfold spec? at h
    split at h <;> simp_all
  have hall : ∀ c ∈ ['s', 'd', 'f', 'F', '%'], c.utf8Size = 1 ∧ isQuote c = false ∧ c ∈ marks := by
    decide
  exact hall c hc

theorem size_of_spec? {spec : Spec} (h : spec? c = some spec) : size ['%', c] = 2 := by
  rw [size_cons, size_cons, (spec?_eq_some h).1]
  rfl

/-- Placeholders are written with marks only. -/
theorem Spells.mem_marks {source : Text} (h : p.Spells source) : ∀ c ∈ source, c ∈ marks := by
  cases h with
  | mark => decide
  | percent hspec =>
    intro x hx
    rcases mem_cons.1 hx with rfl | hx
    · decide
    · rw [mem_singleton.1 hx]
      exact (spec?_eq_some hspec).2.2
  | @literal q hq =>
    have hmark : q ∈ marks := by rcases isQuote_iff.1 hq with rfl | rfl <;> decide
    intro x hx
    simp only [mem_cons, not_mem_nil, or_false] at hx
    rcases hx with rfl | rfl | rfl | rfl
    · exact hmark
    · decide
    · decide
    · exact hmark

theorem valid_opened (h : isQuote p.quote) : Valid p.opened := by
  unfold opened
  split
  · exact valid_some h
  · exact valid_none

/-- A percent sign and the character that says what it asks for. -/
theorem Laid.percent (hspec : spec? c = some p.spec) (hspan : p.span = ⟨n, n + 2⟩)
    (hquote : isQuote p.quote) (hopened : p.opened = s) (ht : Laid (n + 2) s t ps) :
    Laid n s ('%' :: c :: t) (p :: ps) := by
  obtain ⟨hsize, hc, -⟩ := spec?_eq_some hspec
  have hsource : size ['%', c] = 2 := by
    rw [size_cons, size_cons, hsize]
    rfl
  have hplain : Code ['%', c] := by
    intro x hx
    rcases mem_cons.1 hx with rfl | hx
    · decide
    · rwa [mem_singleton.1 hx]
  have hvalid : Valid s := hopened ▸ valid_opened hquote
  refine .hole ['%', c] ?_ ?_ (.percent hspec) hquote hopened (Code.state_eq hvalid hplain) ?_
  · rw [hsource, hspan]
  · rw [hsource]; decide
  · rwa [hsource]

theorem laid_inCode (n : Nat) (u : Text) (h : Code u) : Laid n none u (inCode n u) := by
  fun_induction inCode n u with
  | case1 n => exact .nil n none
  | case2 n t ih =>
    exact .hole ['?'] rfl (by decide) (.mark rfl) rfl rfl rfl (ih fun c hc => h c (by simp [hc]))
  | case3 n c t spec hspec ih =>
    exact .percent hspec rfl rfl rfl (ih fun c hc => h c (by simp [hc]))
  | case4 n c t hspec ih =>
    exact .keep (ih fun c hc => h c (by simp [hc]))
  | case5 n c t _ _ ih =>
    refine .keep ?_
    rw [next_none_of_not_isQuote (h c (by simp))]
    exact ih fun c hc => h c (by simp [hc])

/-- Inside a literal, up to its end. -/
theorem laid_inLiteral (hq : isQuote q) (n : Nat) (u : Text) (h : Reading q s u) :
    Laid n s u (inLiteral q n u) := by
  have hpercent : '%' ≠ q := ne_of_isQuote hq (by decide)
  fun_induction inLiteral q n u generalizing s with
  | case1 n => exact .nil n s
  | case2 n c t spec hspec ih =>
    obtain rfl := h.eq_some hpercent
    have ht : Reading q (state (some q) ['%', c]) t := h.run hq (a := ['%', c])
    rw [state_cons, next_some_of_ne hpercent, state_cons,
      next_some_of_ne (ne_of_isQuote hq (spec?_eq_some hspec).2.1)] at ht
    exact .percent hspec rfl hq rfl (ih ht)
  | case3 n c t hspec ih => exact .keep (ih (h.step hq))
  | case4 n c t _ ih => exact .keep (ih (h.step hq))

/-- A whole literal, which may be a placeholder itself. -/
theorem laid_inPiece (hq : isQuote q) {u : Text} (h : Inside q u) (n : Nat) :
    Laid n none (q :: u) (inPiece ⟨n, true, q :: u⟩) := by
  have hsize : q.utf8Size = 1 := utf8Size_of_isQuote hq
  simp only [inPiece, Bool.not_true, Bool.false_eq_true, if_false]
  split
  · next heq =>
    rw [heq]
    exact .hole ['\'', '%', 's', '\''] rfl (by decide) (.literal rfl rfl) rfl rfl rfl (.nil _ _)
  · next heq =>
    rw [heq]
    exact .hole ['"', '%', 's', '"'] rfl (by decide) (.literal rfl rfl) rfl rfl rfl (.nil _ _)
  · next q' t' _ _ heq =>
    obtain ⟨rfl, rfl⟩ := cons.inj heq
    refine .keep ?_
    rw [next_none_of_isQuote hq, hsize]
    exact laid_inLiteral hq (n + 1) u (.inl ⟨rfl, h⟩)
  · next heq => cases heq

/-- The placeholders of the pieces of a text are laid out in it. -/
theorem laid_of_cut {l : List Piece} (h : Cut n t l) : Laid n none t (l.flatMap inPiece) := by
  induction h with
  | @last n code hcode =>
    rw [flatMap_singleton]
    exact laid_inCode n code hcode
  | @literal n code q u rest l hcode hq hu hends _ ih =>
    refine (laid_inCode n code hcode).append ?_
    rw [Code.state_eq valid_none hcode]
    refine (laid_inPiece hq hu _).append ?_
    rw [size_cons, utf8Size_of_isQuote hq, state_cons, next_none_of_isQuote hq]
    cases rest with
    | nil =>
      -- nothing follows, so it does not matter whether the literal was closed
      exact ih.of_nil
    | cons d rest => rwa [(hends (by simp)).1]

theorem laid_all (t : Text) : Laid 0 none t (all t) :=
  laid_of_cut (cut_pieces t)

theorem Laid.le_start (h : Laid n s t ps) : ∀ p ∈ ps, n ≤ p.span.start := by
  induction h with
  | nil => simp
  | keep _ ih =>
    intro p hp
    exact Nat.le_of_add_right_le (ih p hp)
  | hole source hspan _ _ _ _ _ _ ih =>
    intro q hq
    rcases mem_cons.1 hq with rfl | hq
    · exact Nat.le_of_eq (by rw [hspan])
    · exact Nat.le_of_add_right_le (ih q hq)

theorem Laid.pairwise (h : Laid n s t ps) : ps.Pairwise fun p q => p.span.start < q.span.start := by
  induction h with
  | nil => exact .nil
  | keep _ ih => exact ih
  | hole source hspan hpos _ _ _ _ hrest ih =>
    refine pairwise_cons.2 ⟨fun q hq => ?_, ih⟩
    have hle := hrest.le_start q hq
    rw [hspan]
    simp only
    omega

/-- Where a placeholder stands, and what it is written with. -/
theorem Laid.exists_of_mem (h : Laid n s t ps) (hp : p ∈ ps) :
    ∃ a source b, t = a ++ (source ++ b) ∧
      p.span = ⟨n + a.size, n + a.size + source.size⟩ ∧ source ≠ [] ∧
      (∀ c ∈ source, c ∈ marks) ∧ isQuote p.quote ∧ p.opened = state s a ∧
      state p.opened source = p.opened := by
  induction h with
  | nil => cases hp
  | @keep n s c t ps _ ih =>
    obtain ⟨a, source, b, rfl, hspan, hrest⟩ := ih hp
    refine ⟨c :: a, source, b, rfl, ?_, hrest⟩
    rw [hspan, size_cons, Nat.add_assoc n]
  | @hole n s q source t ps hspan hpos hspells hquote hopened hstate _ ih =>
    rcases mem_cons.1 hp with rfl | hp
    · refine ⟨[], source, t, rfl, hspan, ?_, hspells.mem_marks, hquote, hopened,
        by rw [hopened, hstate]⟩
      rintro rfl
      cases hpos
    · obtain ⟨a, source', b, rfl, hspan', hne, hmarks', hquote', hopened', hstate'⟩ := ih hp
      refine ⟨source ++ a, source', b, by simp, ?_, hne, hmarks', hquote', ?_, hstate'⟩
      · rw [hspan', size_append, Nat.add_assoc n]
      · rw [hopened', state_append, hstate]

/-! ### What binding does to a template -/

/-- A part of a template: text between placeholders, or a placeholder with its source text and the
parameter that it receives. -/
inductive Stretch where
  | kept (text : Text)
  | filled (p : Placeholder) (param : Option Param) (source : Text)

namespace Stretch

/-- What stands in the template. -/
def source : Stretch → Text
  | kept text => text
  | filled _ _ source => source

/-- What stands in the bound text. -/
def result : Stretch → Text
  | kept text => text
  | filled p (some param) _ => p.written param
  | filled p none source => if p.takesParam then source else ['%']

def filling? : Stretch → Option (Placeholder × Option Param)
  | kept _ => none
  | filled p param _ => some (p, param)

/-- Every placeholder stands where its span says, in a template whose stretches start at `n`. -/
def Placed (n : Nat) : List Stretch → Prop
  | [] => True
  | x :: rest =>
    (∀ p param, x.filling? = some (p, param) → p.span = ⟨n, n + x.source.size⟩) ∧
    Placed (n + x.source.size) rest

/-- Filling the placeholders does not disturb a scanner that starts in state `s`. -/
def Steady (s : Option Char) : List Stretch → Prop
  | [] => True
  | kept text :: rest => Steady (state s text) rest
  | x :: rest => state s x.source = s ∧ state s x.result = s ∧ Steady s rest

/-- The stretches of a template that a scanner reads from state `s` on: single characters, and
placeholders that leave the scanner where it is. -/
inductive Threaded : Option Char → List Stretch → Prop
  | nil (s : Option Char) : Threaded s []
  | kept {s : Option Char} {c : Char} {rest : List Stretch} :
      Threaded (next s c) rest → Threaded s (.kept [c] :: rest)
  | filled {s : Option Char} {p : Placeholder} {param : Option Param} {source : Text}
    {rest : List Stretch} : p.Spells source → isQuote p.quote = true → p.opened = s →
    state s source = s → (param.isSome → p.takesParam = true) → Threaded s rest →
    Threaded s (.filled p param source :: rest)

theorem Steady.state_eq {front back : List Stretch} (h : Steady s (front ++ back)) :
    state s (front.flatMap source) = state s (front.flatMap result) := by
  induction front generalizing s with
  | nil => rfl
  | cons x front ih =>
    rw [flatMap_cons, flatMap_cons, state_append, state_append]
    cases x with
    | kept text => exact ih h
    | filled p param src =>
      obtain ⟨hsource, hresult, hrest⟩ := h
      rw [hsource, hresult, ih hrest]

end Stretch

theorem assign_cons (p : Placeholder) (ps : List Placeholder) (params : List Param) :
    ∃ param params', assign (p :: ps) params = (p, param) :: assign ps params' ∧
      (param.isSome → p.takesParam) := by
  cases htakes : p.takesParam with
  | false => exact ⟨none, params, by cases params <;> simp [assign, htakes], by simp⟩
  | true =>
    cases params with
    | nil => exact ⟨none, [], by simp [assign, htakes], by simp⟩
    | cons param params => exact ⟨some param, params, by simp [assign, htakes], by simp⟩

theorem map_fst_assign (ps : List Placeholder) (params : List Param) :
    (assign ps params).map Prod.fst = ps := by
  induction ps generalizing params with
  | nil => rfl
  | cons p ps ih =>
    obtain ⟨param, params', h, -⟩ := assign_cons p ps params
    rw [h, map_cons, ih]

theorem mem_of_mem_assign {params : List Param} {x : Placeholder × Option Param}
    (h : x ∈ assign ps params) : x.1 ∈ ps := by
  rw [← map_fst_assign ps params]
  exact mem_map_of_mem h

theorem takesParam_of_mem_assign {params : List Param} {param : Param}
    (h : (p, some param) ∈ assign ps params) : p.takesParam := by
  induction ps generalizing params with
  | nil => cases h
  | cons q ps ih =>
    obtain ⟨param', params', heq, htakes⟩ := assign_cons q ps params
    rw [heq] at h
    rcases mem_cons.1 h with h | h
    · cases h
      exact htakes rfl
    · exact ih h

theorem eq_none_of_mem_assign {params : List Param} {x : Placeholder × Option Param}
    (h : x ∈ assign ps params) (htakes : x.1.takesParam = false) : x.2 = none := by
  obtain ⟨p, param⟩ := x
  cases param with
  | none => rfl
  | some param => rw [takesParam_of_mem_assign h] at htakes; cases htakes

/-- The parameters go in order to the placeholders that take one. -/
theorem getElem?_filter_assign {params : List Param} {i : Nat} {x : Placeholder × Option Param}
    (h : ((assign ps params).filter (·.1.takesParam))[i]? = some x) : x.2 = params[i]? := by
  induction ps generalizing params i with
  | nil => cases h
  | cons p ps ih =>
    cases htakes : p.takesParam with
    | false =>
      have hassign : assign (p :: ps) params = (p, none) :: assign ps params := by
        cases params <;> simp [assign, htakes]
      rw [hassign, filter_cons_of_neg (by simp [htakes])] at h
      exact ih h
    | true =>
      have hassign : assign (p :: ps) params = (p, params.head?) :: assign ps params.tail := by
        cases params <;> simp [assign, htakes]
      rw [hassign, filter_cons_of_pos (by simp [htakes])] at h
      cases i with
      | zero =>
        cases h
        exact head?_eq_getElem?
      | succ i => rw [ih h, getElem?_tail]

/-- The edit of a placeholder, if there is one, puts in what the stretch says; if there is none, the
stretch stays as it is. -/
theorem edit?_eq (p : Placeholder) (param : Option Param) (source : Text) :
    (edit? (p, param) = some ⟨p.span, (Stretch.filled p param source).result⟩) ∨
      (edit? (p, param) = none ∧ (Stretch.filled p param source).result = source) := by
  cases param with
  | some param => exact .inl rfl
  | none =>
    cases htakes : p.takesParam with
    | false => exact .inl (by simp [edit?, Stretch.result, htakes])
    | true => exact .inr (by simp [edit?, Stretch.result, htakes])

theorem state_result {param : Option Param} {source : Text} (hquote : isQuote p.quote)
    (htakes : param.isSome → p.takesParam) (hsource : state p.opened source = p.opened) :
    state p.opened (Stretch.filled p param source).result = p.opened := by
  cases param with
  | some param =>
    have hspec : p.spec ≠ .percent := by simpa [takesParam] using htakes rfl
    exact state_written hquote hspec param
  | none =>
    rw [Stretch.result]
    split
    · exact hsource
    · exact Code.state_eq (valid_opened hquote) (by decide)

theorem Stretch.Threaded.steady {parts : List Stretch} (h : Stretch.Threaded s parts) :
    Stretch.Steady s parts := by
  induction h with
  | nil => trivial
  | kept _ ih => exact ih
  | filled _ hquote hopened hstate htakes _ ih =>
    subst hopened
    exact ⟨hstate, state_result hquote htakes hstate, ih⟩

/-- The template cut at its placeholders, with the bound text put together from the same cuts. -/
theorem Laid.exists_stretches (h : Laid n s t ps) (params : List Param) : ∃ parts : List Stretch,
      parts.flatMap Stretch.source = t ∧
      parts.filterMap Stretch.filling? = assign ps params ∧
      Stretch.Placed n parts ∧ Stretch.Threaded s parts ∧
      Edit.Weave n t ((assign ps params).filterMap edit?) (parts.flatMap Stretch.result) := by
  induction h generalizing params with
  | nil n s => exact ⟨[], rfl, rfl, trivial, .nil s, .rest n []⟩
  | @keep n s c t ps _ ih =>
    obtain ⟨parts, hsource, hfill, hplaced, hthreaded, hweave⟩ := ih params
    refine ⟨.kept [c] :: parts, ?_, hfill, ⟨?_, hplaced⟩, .kept hthreaded, .keep [c] hweave⟩
    · rw [flatMap_cons, hsource]
      rfl
    · intro p param hnone
      cases hnone
  | @hole n s p source t ps hspan hpos hspells hquote hopened hstate _ ih =>
    obtain ⟨param, params', hassign, htakes⟩ := assign_cons p ps params
    obtain ⟨parts, hsource, hfill, hplaced, hthreaded, hweave⟩ := ih params'
    refine ⟨.filled p param source :: parts, ?_, ?_, ⟨?_, hplaced⟩,
      .filled hspells hquote hopened hstate htakes hthreaded, ?_⟩
    · rw [flatMap_cons, hsource]
      rfl
    · rw [hassign, ← hfill]
      rfl
    · rintro _ _ ⟨⟩
      exact hspan
    · rw [hassign, flatMap_cons]
      rcases edit?_eq p param source with hedit | ⟨hedit, hkept⟩
      · rw [filterMap_cons_some hedit, hspan]
        refine .make source _ (fun e he => ?_) hweave
        have hle := hweave.le_start e he
        omega
      · rw [filterMap_cons_none hedit, hkept]
        exact .keep source hweave

/-- No bound value can move the boundary of a literal. A template falls into its placeholders and
the text between them; the bound text holds the same stretches in the same order, each placeholder
exchanged for what is written for its parameter, and a percent sign for a doubled one. All
placeholders are among them, and those that take a parameter receive the parameters in order. A
character between placeholders that is no quote lies inside a literal of the bound text exactly when
it lies inside a literal of the template. -/
theorem bind_moves_no_literal (t : Text) (params : List Param) : ∃ parts : List Stretch,
    parts.flatMap Stretch.source = t ∧ parts.flatMap Stretch.result = bind t params ∧
    parts.filterMap Stretch.filling? = assign (all t) params ∧ Stretch.Placed 0 parts ∧
    (parts.filterMap Stretch.filling?).map Prod.fst = all t ∧
    (∀ x ∈ parts.filterMap Stretch.filling?, x.1.takesParam = false → x.2 = none) ∧
    (∀ (i : Nat) x, ((parts.filterMap Stretch.filling?).filter (·.1.takesParam))[i]? = some x →
      x.2 = params[i]?) ∧
    ∀ front x c y back, parts = front ++ .kept (x ++ c :: y) :: back → isQuote c = false →
      ∀ k < c.utf8Size, (Holds t (Text.size (front.flatMap Stretch.source ++ x) + k) ↔
        Holds (bind t params) (Text.size (front.flatMap Stretch.result ++ x) + k)) := by
  obtain ⟨parts, hsource, hfill, hplaced, hthreaded, hweave⟩ := (laid_all t).exists_stretches params
  have hbind : bind t params = parts.flatMap Stretch.result := hweave.applyAll
  refine ⟨parts, hsource, hbind.symm, hfill, hplaced, ?_, ?_, ?_, ?_⟩
  · rw [hfill, map_fst_assign]
  · rw [hfill]
    exact fun _ => eq_none_of_mem_assign
  · rw [hfill]
    exact fun _ _ => getElem?_filter_assign
  rintro front x c y back rfl hc k hk
  have hstate :
      state none (front.flatMap Stretch.source ++ x) =
        state none (front.flatMap Stretch.result ++ x) := by
    rw [state_append, state_append, hthreaded.steady.state_eq]
  have hleft :
      t = front.flatMap Stretch.source ++ x ++ c :: (y ++ back.flatMap Stretch.source) := by
    rw [← hsource]
    simp [Stretch.source]
  have hright :
      bind t params = front.flatMap Stretch.result ++ x ++ c ::
        (y ++ back.flatMap Stretch.result) := by
    rw [hbind]
    simp [Stretch.result]
  rw [hright, holds_iff hc hk, ← hstate]
  conv => lhs; rw [hleft]
  exact holds_iff hc hk

/-- Quotes in the two values are doubled, so the literal around the second one ends where it did. -/
theorem bind_moves_no_literal_quotes :
    let t : Text := "a = ? AND b = 'x%s%%' AND c = %d"
    let params : List Param := [.text "it's", .text "'; --", .int 7]
    bind t params = "a = 'it''s' AND b = 'x''; --%' AND c = 7" ∧
    (assign (all t) params).map Prod.snd = [some (.text "it's"), some (.text "'; --"), none,
      some (.int 7)] ∧
    ∃ parts : List Stretch, parts.flatMap Stretch.source = t ∧
      parts.flatMap Stretch.result = "a = 'it''s' AND b = 'x''; --%' AND c = 7" ∧
      parts.filterMap Stretch.filling? = assign (all t) params := by
  intro t params
  have hbind : bind t params = "a = 'it''s' AND b = 'x''; --%' AND c = 7" := by decide +kernel
  obtain ⟨parts, hsource, hresult, hfill, -⟩ := bind_moves_no_literal t params
  exact ⟨hbind, by decide +kernel, parts, hsource, hresult.trans hbind, hfill⟩

end Recast.Placeholder
