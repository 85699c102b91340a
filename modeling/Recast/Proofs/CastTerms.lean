import Recast.Proofs.Recounting
import Recast.Proofs.Rewriting

/-!
# Terms of ORDER BY that are cast

An item of an ORDER BY list is cast when it is one of the columns, and stays as it is otherwise
(`Becomes`). A cast is no column reference, so in a list that was cast nothing is cast
(`Recasts.termEdits_eq_nil`). It puts no comma outside its parentheses, and no ORDER BY: such a
clause in the new list comes from the same clause in the old one (`Recasts.exists_topmost`).
-/

namespace Recast

open Literal Nesting List Text

variable {a c k list p r x y z z' : Text}

namespace Ordering

variable {columns : List ColumnRef} {length : Nat}

/-! ### Items -/

/-- An item that no edit is made for, wherever it stands. -/
def Uncast (columns : List ColumnRef) (length : Nat) (p : Text) : Prop :=
  ∀ front back : Text, termEdit? (front ++ p ++ back) columns length
    ⟨front.size, front.size + p.size⟩ = none

/-- An item and what becomes of it. -/
inductive Becomes (columns : List ColumnRef) (length : Nat) : Text → Text → Prop
  | cast {a x c : Text} :
      Cast columns a x c → Becomes columns length (a ++ (x ++ c)) (a ++ (casted length x ++ c))
  | keep {p : Text} : Uncast columns length p → Becomes columns length p p

/-- The edits of a text with an item in front. -/
theorem exists_becomes (columns : List ColumnRef) (length : Nat) (p : Text) :
    ∃ p', Becomes columns length p p' ∧
    ∀ (front back rest r : Text) (edits : List Edit), Edit.Weave (front.size + p.size)
      rest edits r →
      Edit.Weave front.size (p ++ rest)
        ((termEdit? (front ++ p ++ back) columns length ⟨front.size, front.size + p.size⟩).toList ++
          edits)
        (p' ++ r) := by
  obtain ⟨a, x, c, new, rfl, hnew, hedit⟩ := exists_termEdit p columns length
  cases new with
  | none =>
    refine ⟨a ++ (x ++ c), .keep hedit, fun front back rest r edits hweave => ?_⟩
    rw [hedit]
    exact .keep _ hweave
  | some w =>
    obtain ⟨hcast, rfl⟩ := hnew w rfl
    refine ⟨a ++ (casted length x ++ c), .cast hcast, fun front back rest r edits hweave => ?_⟩
    have hpos := size_pos hcast.no_quote.1
    rw [size_append, size_append, ← Nat.add_assoc, ← Nat.add_assoc] at hweave
    have hmade :=
      Edit.Weave.keep a (Edit.Weave.make x (casted length x) (fun e he => ?_) (.keep c hweave))
    · rw [hedit]
      simpa using hmade
    · have hle := hweave.le_start e he
      omega

namespace Cast

variable {a x c : Text} (h : Cast columns a x c)

include h

theorem spelled : ∀ y ∈ x, isNameChar y ∨ y = '.' := by
  obtain ⟨table, column, href, -⟩ := h.ref
  exact (name_of_columnRef? href).2

theorem isPlain_front : ∀ y ∈ a ++ x, isPlain y := by
  refine forall_mem_append.2 ⟨fun y hy => isPlain_of_isBlank (h.leads y hy), fun y hy => ?_⟩
  rcases h.spelled y hy with hname | rfl
  · exact isPlain_of_class hname (by decide)
  · rfl

end Cast

/-- What stands in the parentheses of a cast. -/
def castBody (length : Nat) (x : Text) : Text :=
  x ++ (" as varchar" ++ '(' :: (ofNat length ++ [')']))

theorem casted_eq (length : Nat) (x : Text) :
    casted length x = "cast" ++ '(' :: (castBody length x ++ [')']) := by
  have hfront : ("cast(" : Text) = "cast".toList ++ ['('] := rfl
  have hmiddle : (" as varchar(" : Text) = " as varchar".toList ++ ['('] := rfl
  have hback : ("))" : Text) = [')', ')'] := rfl
  unfold casted castBody
  rw [hfront, hmiddle, hback]
  simp only [append_assoc, cons_append, nil_append]

theorem balanced_castBody (hx : ∀ y ∈ x, isPlain y) (length : Nat) : Balanced (castBody length x) :=
  (balanced_of_isPlain hx).append
    ((balanced_of_isPlain (by decide)).append (balanced_of_isPlain (isPlain_ofNat length)).enclosed)

theorem forall_mem_casted {P : Char → Prop} (hx : ∀ y ∈ x, P y) (hbare : ∀ y, isBare y → P y)
    (hblank : P ' ') (hopen : P '(') (hclose : P ')') (length : Nat) :
    ∀ y ∈ casted length x, P y := by
  have hword {w : Text} (hw : w.all (fun y => isBare y || y == ' ' || y == '(' || y == ')') =
    true) : ∀ y ∈ w, P y := by
    intro y hy
    have hall := all_eq_true.1 hw y hy
    simp only [Bool.or_eq_true, beq_iff_eq] at hall
    rcases hall with ((hall | rfl) | rfl) | rfl
    · exact hbare y hall
    · exact hblank
    · exact hopen
    · exact hclose
  exact forall_mem_append.2 ⟨forall_mem_append.2 ⟨forall_mem_append.2 ⟨forall_mem_append.2
    ⟨hword (by decide), hx⟩, hword (by decide)⟩, fun y hy => hbare y (isBare_of_mem_ofNat y hy)⟩,
      hword (by decide)⟩

theorem no_quote_casted (hx : Code x) (length : Nat) : Code (casted length x) :=
  forall_mem_casted hx (fun _ hy => isQuote_of_isBare hy) rfl rfl rfl length

/-- A cast is one item of a list. -/
theorem Cast.unsplit_casted (h : Cast columns a x c) (length : Nat) :
    Unsplit (casted length x) where
  balanced := by
    rw [casted_eq]
    exact (balanced_of_isPlain (by decide)).append
      (balanced_castBody (forall_mem_append.1 h.isPlain_front).2 length).enclosed
  flat := by
    have hcomma : ∀ y ∈ casted length x, y ≠ ',' := by
      refine forall_mem_casted (fun y hy => ?_) ?_ (by decide) (by decide) (by decide) length
      · rintro rfl
        rcases h.spelled _ hy with hname | hdot
        · exact absurd hname (by decide)
        · exact absurd hdot (by decide)
      · rintro _ hy rfl
        exact absurd hy (by decide)
    rw [Code.mask_eq (no_quote_casted h.no_quote.2.1 length)]
    exact flat_of_not_mem (fun hmem => hcomma _ hmem rfl) 0

theorem Cast.no_quote_made (h : Cast columns a x c) (length : Nat) :
    Code (a ++ (casted length x ++ c)) :=
  forall_mem_append.2 ⟨code_of_isBlank h.leads,
    forall_mem_append.2 ⟨no_quote_casted h.no_quote.2.1 length, h.quotes⟩⟩

/-- A term that is cast is no column reference, wherever the item is cut. -/
theorem Cast.uncast (h : Cast columns a x c) (length : Nat) :
    Uncast columns length (a ++ (casted length x ++ c)) := by
  obtain ⟨a', x', c', new, hcut, hnew, hedit⟩ :=
    exists_termEdit (a ++ (casted length x ++ c)) columns length
  intro front back
  rw [hedit]
  cases new with
  | none => rfl
  | some w =>
    obtain ⟨hcast, -⟩ := hnew w rfl
    obtain ⟨table, column, href, -⟩ := hcast.ref
    obtain ⟨⟨y, x'', hx', hy⟩, -⟩ := name_of_columnRef? href
    -- both cuts are behind the blanks
    have hlead : a' = a := by
      have hhead : ∀ z, (x' ++ c').head? = some z → isBlank z = false := by
        rw [hx']
        rintro _ ⟨⟩
        exact isBlank_of_isNameChar hy
      have hhead' : ∀ z, (casted length x ++ c).head? = some z → isBlank z = false := by
        rintro _ ⟨⟩
        rfl
      rw [← (takeWhile_append_of_head hcast.leads hhead).1, ← hcut,
        (takeWhile_append_of_head h.leads hhead').1]
    subst hlead
    have hrest : ("cast" : Text) ++ ('(' :: (castBody length x ++ [')']) ++ c) = x' ++ c' := by
      rw [← append_assoc, ← casted_eq]
      exact append_cancel_left hcut
    -- a column reference holds no parenthesis, and no blank is one
    have hparen : '(' ∉ x' := fun hmem => by
      rcases hcast.spelled _ hmem with hname | hdot
      · exact absurd hname (by decide)
      · exact absurd hdot (by decide)
    rcases append_cons_eq_append hrest with ⟨z, rfl, -⟩ | ⟨z, hz, hc'⟩
    · exact absurd (by simp) hparen
    · have hword : ∀ y ∈ ("cast" : Text), isBlank y = false := by decide
      cases z with
      | nil => exact absurd (hcast.trails '(' (by rw [hc']; rfl)) (by decide)
      | cons y z =>
        have hblank := hcast.trails y (by rw [hc']; rfl)
        simp [hword y (by rw [hz]; simp)] at hblank

namespace Becomes

variable {p p' : Text} (h : Becomes columns length p p')

include h

theorem closed (hp : Closed p) : Closed p' := by
  cases h with
  | keep => exact hp
  | cast hcast => exact Code.closed (hcast.no_quote_made length)

theorem uncast : Uncast columns length p' := by
  cases h with
  | keep hkeep => exact hkeep
  | cast hcast => exact hcast.uncast length

theorem codeDepth_eq : codeDepth none 0 p' = codeDepth none 0 p := by
  cases h with
  | keep => rfl
  | @cast a x c hcast =>
    have hfront := balanced_of_isPlain hcast.isPlain_front
    have hlead := balanced_of_isPlain (forall_mem_append.1 hcast.isPlain_front).1
    have hcasted := (hcast.unsplit_casted length).balanced
    rw [← append_assoc, Closed.codeDepth_append (hlead.append hcasted).closed,
      (hlead.append hcasted).depth,
      ← append_assoc, Closed.codeDepth_append hfront.closed, hfront.depth]

theorem flat (hp : Flat ',' 0 (mask p)) : Flat ',' 0 (mask p') := by
  cases h with
  | keep => exact hp
  | @cast a x c hcast =>
    have hlead := (forall_mem_append.1 hcast.isPlain_front).1
    have hfront := balanced_of_isPlain hcast.isPlain_front
    have hunsplit := hcast.unsplit_casted length
    have hcomma : ',' ∉ a := fun hmem => absurd (hcast.leads _ hmem) (by decide)
    rw [← append_assoc, mask_append hfront.closed
      (Code.apart fun y hy => isQuote_of_isPlain (hcast.isPlain_front y hy)), flat_append,
        foldl_step_mask,
      hfront.depth] at hp
    have hunsplit' := (unsplit_of_isPlain hlead hcomma).append hunsplit
      (Code.apart fun y hy => isQuote_of_isPlain (hlead y hy))
    have hno : Code (a ++ casted length x) := forall_mem_append.2
      ⟨fun y hy => isQuote_of_isPlain (hlead y hy), no_quote_casted hcast.no_quote.2.1 length⟩
    rw [← append_assoc, mask_append hunsplit'.balanced.closed hno.apart, flat_append,
      foldl_step_mask, hunsplit'.balanced.depth]
    exact ⟨hunsplit'.flat, hp.2⟩

theorem getLast?_mask : (mask p').getLast? = (mask p).getLast? ∨ (mask p').getLast? = some ')' := by
  cases h with
  | keep => exact .inl rfl
  | @cast a x c hcast =>
    rw [Code.mask_eq hcast.no_quote.2.2, Code.mask_eq (hcast.no_quote_made length), ← append_assoc,
      ← append_assoc, casted_eq]
    by_cases hc : c = []
    · rw [hc, append_nil, ← append_assoc, ← cons_append, ← append_assoc, getLast?_concat]
      exact .inr rfl
    · rw [getLast?_append_of_ne_nil _ hc, getLast?_append_of_ne_nil _ hc]
      exact .inl rfl

theorem head?_mask : (mask p').head? = (mask p).head? ∨
    (mask p').head? = some 'c' ∧ ∃ y, (mask p).head? = some y ∧ isNameChar y := by
  cases h with
  | keep => exact .inl rfl
  | @cast a x c hcast =>
    obtain ⟨table, column, href, -⟩ := hcast.ref
    obtain ⟨⟨y, x', hx', hy⟩, -⟩ := name_of_columnRef? href
    rw [Code.mask_eq hcast.no_quote.2.2, Code.mask_eq (hcast.no_quote_made length)]
    cases a with
    | cons z a => exact .inl rfl
    | nil =>
      rw [hx']
      exact .inr ⟨rfl, y, rfl, hy⟩

end Becomes

/-! ### Clauses in items -/

section

open Keyword

/-- The clause does not begin in a cast: its parentheses enclose all of it but its name. -/
theorem not_topmost_casted (hx : ∀ y ∈ x, isPlain y) (hcut : casted length x ++ z = y ++ (k ++ r))
    (hlt : y.size < (casted length x).size) : ¬ Topmost "ORDER" ["BY"] y k r := by
  intro htop
  obtain ⟨w, k', rfl, hw, -⟩ := htop.spelled
  have htext : casted length x = "cast(" ++ (castBody length x ++ [')']) := by
    rw [casted_eq]
    simp
  rw [htext, append_assoc, append_assoc w] at hcut
  rw [htext, size_append, size_append] at hlt
  have hle := size_le_of_clashes (by decide) (prefix_append _ _) hcut hw
  obtain ⟨u, rfl, hu⟩ := exists_append_of_size_le hcut hle
  rw [size_append, show size [')'] = 1 from rfl] at hlt
  obtain ⟨s, hs, -⟩ :=
    exists_append_of_size_le (a := u) (c := castBody length x) (by simpa using hu.symm) (by omega)
  have hdepth := (hs ▸ balanced_castBody hx length).codeDepth_front
  exact hdepth htop.top

/-- What stands behind an item in two texts: the same, or a comma in both. -/
def Follows (z z' : Text) : Prop := z' = z ∨ ∃ r r', z = ',' :: r ∧ z' = ',' :: r'

theorem Follows.exists_rest {s : Text} (h : Follows z z') (hk : ',' ∉ k) (hcut : s ++ z' = k ++ r) :
    ∃ r', s ++ z = k ++ r' ∧ r'.head? = r.head? := by
  rcases h with rfl | ⟨u, u', rfl, rfl⟩
  · exact ⟨r, hcut, rfl⟩
  · rcases append_eq_append_iff.1 hcut with ⟨v, rfl, hv⟩ | ⟨v, rfl, rfl⟩
    · cases v with
      | nil => exact ⟨',' :: u, by simp, by rw [← show ',' :: u' = r from hv]; rfl⟩
      | cons c v =>
        obtain ⟨rfl, -⟩ := cons.inj hv
        exact absurd (by simp) hk
    · refine ⟨v ++ ',' :: u, by simp, ?_⟩
      cases v <;> rfl

theorem comma_not_mem (h : Topmost "ORDER" ["BY"] y k r) : ',' ∉ k := fun hmem => by
  rcases h.mem sought_orderBy.1 sought_orderBy.2.1 _ hmem with hname | hblank
  · exact absurd hname (by decide)
  · exact absurd hblank (by decide)

theorem exists_head (h : Topmost "ORDER" ["BY"] y k r) : ∃ c k', k = c :: k' ∧ isNameChar c := by
  obtain ⟨w, k', rfl, hw, -⟩ := h.spelled
  obtain ⟨hne, hname⟩ := isNameChar_of_lower hw sought_orderBy.1
  obtain ⟨c, w, rfl⟩ := exists_cons_of_ne_nil hne
  exact ⟨c, w ++ k', rfl, hname c (by simp)⟩

/-- A clause that begins in an item begins in the item it came from. -/
theorem Becomes.exists_topmost {p' : Text} (h : Becomes columns length p p') (hz : Follows z z')
    (hcut : p' ++ z' = y ++ (k ++ r)) (hlt : y.size < p'.size)
    (htop : Topmost "ORDER" ["BY"] y k r) :
    ∃ y₀ r₀, p ++ z = y₀ ++ (k ++ r₀) ∧ Topmost "ORDER" ["BY"] y₀ k r₀ := by
  have hcomma := comma_not_mem htop
  obtain ⟨b, k', hk, hb⟩ := exists_head htop
  cases h with
  | keep =>
    obtain ⟨s, rfl, hs⟩ := exists_append_of_size_le hcut.symm (Nat.le_of_lt hlt)
    obtain ⟨r₀, hr₀, hhead⟩ := hz.exists_rest hcomma hs.symm
    refine ⟨y, r₀, by rw [append_assoc, hr₀], ?_⟩
    exact ⟨⟨htop.spelled, htop.before, by rw [hhead]; exact htop.behind⟩, htop.closed, htop.top⟩
  | @cast a x c hcast =>
    have hplain := forall_mem_append.1 hcast.isPlain_front
    have hlead := balanced_of_isPlain hplain.1
    have hfront := balanced_of_isPlain hcast.isPlain_front
    have hcasted := (hcast.unsplit_casted length).balanced
    rw [append_assoc, append_assoc] at hcut
    -- not among the blanks
    have hle : a.size ≤ y.size :=
      size_le_of_name (fun d hd => isNameChar_of_isBlank (hcast.leads d hd)) hb
        (by rw [hcut, hk]; rfl)
    obtain ⟨u, rfl, hu⟩ := exists_append_of_size_le hcut hle
    -- nor in the cast
    have hle' : (casted length x).size ≤ u.size := Nat.le_of_not_lt fun hlt => by
      refine not_topmost_casted hplain.2 hu hlt ?_
      exact htop.exchange (g := []) hlead.closed (hlead.depth 0) closed_nil rfl (fun _ => rfl) rfl
    obtain ⟨v, rfl, hv⟩ := exists_append_of_size_le hu hle'
    simp only [size_append] at hlt
    obtain ⟨s, rfl, hs⟩ := exists_append_of_size_le hv.symm (by omega)
    obtain ⟨r₀, hr₀, hhead⟩ := hz.exists_rest hcomma hs.symm
    refine ⟨(a ++ x) ++ v, r₀, by simp [hr₀], ?_⟩
    have hne : v ≠ [] := by
      rintro rfl
      cases s with
      | nil => simp at hlt
      | cons d s =>
        rw [hk] at hs
        obtain ⟨rfl, -⟩ := cons.inj hs
        simp [isNameChar_of_isBlank (hcast.trails b rfl)] at hb
    rw [← append_assoc] at htop
    exact htop.exchange (hlead.append hcasted).closed ((hlead.append hcasted).depth 0) hfront.closed
      (hfront.depth 0)
      (fun hnil => absurd hnil hne) hhead

end

/-! ### Lists -/

/-- A list and what becomes of it, item by item. -/
inductive Recasts (columns : List ColumnRef) (length : Nat) : Text → Text → Prop
  | last {p p' : Text} :
      Flat ',' 0 (mask p) → Becomes columns length p p' → Recasts columns length p p'
  | cons {p p' rest rest' : Text} : Closed p → Flat ',' 0 (mask p) → depth (mask p) = 0 →
    Becomes columns length p p' → Recasts columns length rest rest' →
    Recasts columns length (p ++ ',' :: rest) (p' ++ ',' :: rest')

/-- The edits of the items of a list that stands behind `front`. -/
def termEdits (columns : List ColumnRef) (length : Nat) (front list back : Text) : List Edit :=
  (splitTop list ',').filterMap fun s =>
    termEdit? (front ++ list ++ back) columns length (s.shift front.size)

theorem shift_item (p front : Text) :
    Span.shift ⟨0, p.size⟩ front.size = ⟨front.size, front.size + p.size⟩ := by
  simp [Span.shift, Nat.add_comm]

theorem termEdits_of_flat (h : Flat ',' 0 (mask p)) (front back : Text) :
    termEdits columns length front p back
      = (termEdit? (front ++ p ++ back) columns length
        ⟨front.size, front.size + p.size⟩).toList := by
  rw [termEdits, splitTop_of_flat h, filterMap_eq_flatMap_toList, flatMap_singleton, shift_item]

/-- The edits of a list are those of its first item and of the others. -/
theorem termEdits_append (hp : Closed p) (hflat : Flat ',' 0 (mask p)) (hdepth : depth (mask p) = 0)
    (front rest back : Text) : termEdits columns length front (p ++ ',' :: rest) back
      = (termEdit? (front ++ p ++ (',' :: rest ++ back)) columns length
        ⟨front.size, front.size + p.size⟩).toList
        ++ termEdits columns length (front ++ (p ++ [','])) rest back := by
  have hitem : front ++ (p ++ ',' :: rest) ++ back = front ++ p ++ (',' :: rest ++ back) := by simp
  have hrest : front ++ p ++ (',' :: rest ++ back) = front ++ (p ++ [',']) ++ rest ++ back := by
    simp
  rw [termEdits, splitTop_append (by decide) (by decide) (by decide) hp hflat hdepth,
    filterMap_eq_flatMap_toList,
    flatMap_cons, shift_item, hitem, flatMap_map, termEdits, filterMap_eq_flatMap_toList, ← hrest]
  congr 2
  funext s
  rw [size_append front, Span.shift, Span.shift, Span.shift, Nat.add_comm front.size, Nat.add_assoc,
    Nat.add_assoc]

/-- The edits of a list are a weave that casts it item by item. -/
theorem exists_recasts (columns : List ColumnRef) (length : Nat) {ps : List Text}
    (h : Cuts ',' ps list) (front back : Text) :
    ∃ list', Recasts columns length list list' ∧
      Edit.Weave front.size (list ++ back) (termEdits columns length front list back)
        (list' ++ back) := by
  induction h generalizing front with
  | @last p hflat =>
    obtain ⟨p', hp', hweave⟩ := exists_becomes columns length p
    refine ⟨p', .last hflat hp', ?_⟩
    have hmade := hweave front back back back [] (.rest _ _)
    rwa [append_nil, ← termEdits_of_flat hflat] at hmade
  | @cons p rest ps hclosed hflat hdepth _ ih =>
    obtain ⟨p', hp', hweave⟩ := exists_becomes columns length p
    obtain ⟨rest', hrest', hmade⟩ := ih (front ++ (p ++ [',']))
    refine ⟨p' ++ ',' :: rest', .cons hclosed hflat hdepth hp' hrest', ?_⟩
    rw [termEdits_append hclosed hflat hdepth]
    rw [size_append, size_append] at hmade
    have hall := hweave front (',' :: rest ++ back) _ _ _ (Edit.Weave.keep [','] hmade)
    simpa using hall

theorem Recasts.termEdits_eq_nil {list' : Text} (h : Recasts columns length list list')
    (front back : Text) : termEdits columns length front list' back = [] := by
  induction h generalizing front with
  | last hflat hp =>
    rw [termEdits_of_flat (hp.flat hflat), hp.uncast]
    rfl
  | cons hclosed hflat hdepth hp _ ih =>
    have hdepth' := hp.codeDepth_eq
    rw [← depth_mask, ← depth_mask, hdepth] at hdepth'
    rw [termEdits_append (hp.closed hclosed) (hp.flat hflat) hdepth', hp.uncast, ih]
    rfl

namespace Recasts

variable {list list' : Text} (h : Recasts columns length list list')

include h

theorem closed (hlist : Closed list) : Closed list' := by
  induction h with
  | last _ hp => exact hp.closed hlist
  | @cons p p' rest rest' hclosed _ _ hp _ ih =>
    have hrest : Closed (',' :: rest) := hclosed.append_iff.1 hlist
    have hrest' : Closed (',' :: rest') := ih hrest
    exact (hp.closed hclosed).append hrest'

theorem getLast?_mask :
    (mask list').getLast? = (mask list).getLast? ∨ (mask list').getLast? = some ')' := by
  induction h with
  | last _ hp => exact hp.getLast?_mask
  | cons hclosed _ _ hp _ ih =>
    rw [mask_append_cons (hp.closed hclosed) (by decide), mask_append_cons hclosed (by decide),
      getLast?_append_of_ne_nil _ (by simp), getLast?_append_of_ne_nil _ (by simp), getLast?_cons,
      getLast?_cons]
    rcases ih with ih | ih
    · exact .inl (by rw [ih])
    · exact .inr (by rw [ih]; rfl)

theorem head?_mask : (mask list').head? = (mask list).head? ∨
    (mask list').head? = some 'c' ∧ ∃ y, (mask list).head? = some y ∧ isNameChar y := by
  cases h with
  | last _ hp => exact hp.head?_mask
  | cons hclosed _ _ hp _ =>
    rw [mask_append_cons (hp.closed hclosed) (by decide), mask_append_cons hclosed (by decide),
      head?_append, head?_append]
    rcases hp.head?_mask with hhead | ⟨hhead, y, hy, hname⟩
    · exact .inl (by rw [hhead]; rfl)
    · exact .inr ⟨by rw [hhead]; rfl, y, by rw [hy]; rfl, hname⟩

/-- A clause that begins in a list begins in the list it came from. -/
theorem exists_topmost {B : Text} (hcut : list' ++ B = y ++ (k ++ r)) (hlt : y.size < list'.size)
    (htop : Keyword.Topmost "ORDER" ["BY"] y k r) :
    ∃ y₀ r₀, list ++ B = y₀ ++ (k ++ r₀) ∧ Keyword.Topmost "ORDER" ["BY"] y₀ k r₀ := by
  induction h generalizing y with
  | last _ hp => exact hp.exists_topmost (.inl rfl) hcut hlt htop
  | @cons p p' rest rest' hclosed _ hdepth hp _ ih =>
    rw [append_assoc] at hcut
    rw [depth_mask] at hdepth
    rcases Nat.lt_or_ge y.size p'.size with hlt' | hge
    · obtain ⟨y₀, r₀, hcut₀, htop₀⟩ :=
        hp.exists_topmost (.inr ⟨rest ++ B, rest' ++ B, rfl, rfl⟩) hcut hlt' htop
      exact ⟨y₀, r₀, by rw [← hcut₀]; simp, htop₀⟩
    · obtain ⟨u, rfl, hu⟩ := exists_append_of_size_le hcut hge
      cases u with
      | nil =>
        obtain ⟨b, k', rfl, -⟩ := exists_head htop
        obtain ⟨rfl, -⟩ := cons.inj hu
        exact absurd (by simp) (comma_not_mem htop)
      | cons d v =>
        obtain ⟨rfl, hv⟩ := cons.inj hu
        have hfront {q : Text} (hq : Closed q) (hd : codeDepth none 0 q = 0) :
            Closed (q ++ [',']) ∧ codeDepth none 0 (q ++ [',']) = 0 := by
          refine ⟨hq.append rfl, ?_⟩
          rw [Closed.codeDepth_append hq, hd]
          rfl
        obtain ⟨hp₁, hp₂⟩ := hfront (hp.closed hclosed) (hp.codeDepth_eq.trans hdepth)
        obtain ⟨hp₃, hp₄⟩ := hfront hclosed hdepth
        rw [append_cons] at htop
        have htop' := htop.exchange (g := []) hp₁ hp₂ closed_nil rfl (fun _ => rfl) rfl
        obtain ⟨y₀, r₀, hcut₀, htop₀⟩ := ih hv (by simp at hlt; omega) htop'
        refine ⟨(p ++ [',']) ++ y₀, r₀, by simp [hcut₀], ?_⟩
        exact Keyword.Topmost.exchange (f := []) htop₀ closed_nil rfl hp₃ hp₄
          (fun _ => by rw [getLast?_concat]; rfl) rfl

end Recasts

end Ordering

end Recast
