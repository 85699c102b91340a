import Recast.Proofs.LiteralState

/-!
# Masks

A mask shows the code of a text as it is (`mask_cons`), and of a literal its quotes, with filler
between them (`mask_literal`). The main statements are about cutting: where the scanner stands
outside literals, and the cut does not fall between two quotes of one kind, the mask of the whole is
made of those of the parts (`mask_append`), and every place of a mask outside literals is such a cut
of the text (`exists_cut`, `exists_code`).
-/

namespace Recast.Literal

open List Text

variable {a a' b b' rest t u : Text} {c q : Char} {n : Nat}

/-! ### What a mask shows of a literal -/

theorem filler_ne (hq : isQuote q) : filler ≠ q := ne_of_isQuote hq (by decide)

theorem size_replicate_filler (n : Nat) : size (replicate n filler) = n := by
  induction n with
  | zero => rfl
  | succ n ih =>
    rw [replicate_succ, size_cons, ih, Nat.add_comm]
    rfl

theorem code_replicate_filler (n : Nat) : Code (replicate n filler) := by
  intro c hc
  rw [eq_of_mem_replicate hc]
  decide

/-- What a mask shows of a literal behind its opening quote: filler, up to the quote that ends
it. -/
def veil (q : Char) (u : Text) : Text :=
  if u.getLast? = some q then replicate (u.size - 1) filler ++ [q] else replicate u.size filler

theorem veil_append (hu : u ≠ []) (v : Text) :
    veil q (v ++ u) = replicate v.size filler ++ veil q u := by
  rw [veil, veil, getLast?_append_of_ne_nil _ hu, size_append]
  split
  · rw [Nat.add_sub_assoc (size_pos hu), ← replicate_append_replicate, append_assoc]
  · rw [replicate_append_replicate]

theorem veil_concat (hq : isQuote q) (v : Text) :
    veil q (v ++ [q]) = replicate v.size filler ++ [q] := by
  simp [veil, utf8Size_of_isQuote hq]

theorem veil_cases (hq : isQuote q) (u : Text) :
    (veil q u = replicate u.size filler ∧ u.getLast? ≠ some q) ∨
    ∃ v, u = v ++ [q] ∧ veil q u = replicate v.size filler ++ [q] := by
  by_cases h : u.getLast? = some q
  · obtain ⟨v, rfl⟩ := getLast?_eq_some_iff.1 h
    exact .inr ⟨v, rfl, veil_concat hq v⟩
  · exact .inl ⟨if_neg h, h⟩

theorem size_veil (hq : isQuote q) (u : Text) : (veil q u).size = u.size := by
  rcases veil_cases hq u with ⟨h, -⟩ | ⟨v, rfl, h⟩
  · rw [h, size_replicate_filler]
  · rw [h, size_append, size_append, size_replicate_filler]

theorem state_veil (hq : isQuote q) (h : u.getLast? = some q) :
    state (some q) (veil q u) = none := by
  obtain ⟨v, rfl⟩ := getLast?_eq_some_iff.1 h
  rw [veil_concat hq, state_append, Code.state_eq (valid_some hq) (code_replicate_filler _)]
  exact next_some_self q

theorem eq_of_mem_veil (hq : isQuote q) (h : c ∈ veil q u) : c = filler ∨ c = q := by
  rcases veil_cases hq u with ⟨hveil, -⟩ | ⟨v, -, hveil⟩
  · exact .inl (eq_of_mem_replicate (hveil ▸ h))
  · rw [hveil] at h
    exact (mem_append.1 h).imp eq_of_mem_replicate mem_singleton.1

/-- No quote shows in front of the end of a literal. -/
theorem code_of_veil (hq : isQuote q) (h : veil q u = a ++ b) (hb : b ≠ []) : Code a := by
  rcases veil_cases hq u with ⟨hveil, -⟩ | ⟨v, -, hveil⟩
  · exact (code_append.1 (h ▸ hveil ▸ code_replicate_filler _)).1
  · have hlast := congrArg dropLast (hveil.symm.trans h)
    rw [dropLast_concat, dropLast_append_of_ne_nil hb] at hlast
    exact (code_append.1 (hlast ▸ code_replicate_filler _)).1

/-- What shows of the inside of a literal and of what follows. -/
theorem flatMap_hide_inside (hq : isQuote q) (h : Inside q u) (hends : Ends q u rest) :
    (shadeFrom (some q) (u ++ rest)).flatMap hide = veil q u ++ mask rest := by
  have hone := utf8Size_of_isQuote hq
  induction h with
  | nil =>
    obtain rfl := hends.rest_eq_nil
    rfl
  | close =>
    cases rest with
    | nil => simp [shadeFrom, hide, veil, mask, shade, hone]
    | cons d rest =>
      have hd : d ≠ q := by simpa using (hends (by simp)).2
      simp [shadeFrom, hide, veil, mask, shade, hone, hd]
  | @data c u hc _ ih =>
    rw [cons_append, shadeFrom_data hc, flatMap_cons, ih ((ends_data hc).1 hends), ← append_assoc]
    congr 1
    by_cases hu : u = []
    · simp [hu, veil, hide, hc]
    · exact (veil_append hu [c]).symm
  | @doubled u _ ih =>
    have hrest := (ends_doubled hq).1 hends
    by_cases hu : u = []
    · subst hu
      obtain rfl := hrest.rest_eq_nil
      simp [shadeFrom, hide, veil, mask, shade, hone]
    · have hveil : veil q (q :: q :: u) = filler :: filler :: veil q u := by
        simpa [hone, replicate_succ] using veil_append (q := q) hu [q, q]
      rw [hveil, cons_append, cons_append, cons_append, cons_append, ← ih hrest]
      simp [shadeFrom, hide, hu, hone]

@[simp]
theorem mask_nil : mask [] = [] := rfl

theorem mask_cons (h : isQuote c = false) (t : Text) : mask (c :: t) = c :: mask t := by
  simp [mask, shade, shadeFrom, h, hide]

theorem mask_literal (hq : isQuote q) (h : Inside q u) (hends : Ends q u rest) :
    mask (q :: (u ++ rest)) = q :: (veil q u ++ mask rest) := by
  rw [← flatMap_hide_inside hq h hends, mask, shade, shadeFrom, if_pos hq]
  rfl

theorem head?_mask (t : Text) : (mask t).head? = t.head? := by
  induction t using literal_induction with
  | nil => rfl
  | code c t hc => rw [mask_cons hc]; rfl
  | literal q u rest hq hu hends => rw [mask_literal hq hu hends]; rfl

theorem mask_eq_nil_iff : mask t = [] ↔ t = [] := by
  rw [← head?_eq_none_iff, head?_mask, head?_eq_none_iff]

@[simp]
theorem size_mask (t : Text) : (mask t).size = t.size := by
  induction t using literal_induction with
  | nil => rfl
  | code c t hc ih => rw [mask_cons hc, size_cons, size_cons, ih]
  | literal q u rest hq hu hends ih =>
    rw [mask_literal hq hu hends, size_cons, size_cons, size_append, size_append, size_veil hq, ih]

theorem isBoundary_veil (hq : isQuote q) (hn : n ≤ u.size) : (veil q u).isBoundary n := by
  have hcut {k : Nat} (hk : n ≤ k) :
      replicate k filler = replicate n filler ++ replicate (k - n) filler := by
    rw [replicate_append_replicate, Nat.add_sub_of_le hk]
  rcases veil_cases hq u with ⟨hveil, -⟩ | ⟨v, rfl, hveil⟩
  · exact isBoundary_iff.2 ⟨_, _, hveil.trans (hcut hn), size_replicate_filler n⟩
  · rcases Nat.lt_or_ge v.size n with hlt | hle
    · refine isBoundary_iff.2 ⟨_, [], (append_nil _).symm, ?_⟩
      rw [size_veil hq]
      simp only [size_append, size_cons, size_nil, utf8Size_of_isQuote hq] at hn ⊢
      omega
    · exact isBoundary_iff.2 ⟨_, _, by rw [hveil, hcut hle, append_assoc], size_replicate_filler n⟩

/-- A mask can be cut wherever the text can. -/
theorem isBoundary_mask (h : t.isBoundary n) : (mask t).isBoundary n := by
  obtain ⟨a, b, hab, rfl⟩ := isBoundary_iff.1 h
  clear h
  induction t using literal_induction generalizing a with
  | nil =>
    obtain ⟨rfl, -⟩ := append_eq_nil_iff.1 hab.symm
    rfl
  | code c t hc ih =>
    cases a with
    | nil => exact isBoundary_zero _
    | cons x a =>
      obtain ⟨rfl, htail⟩ := cons.inj hab
      rw [mask_cons hc]
      exact (isBoundary_append_add [c] _ _).trans (ih _ htail)
  | literal q u rest hq hu hends ih =>
    cases a with
    | nil => exact isBoundary_zero _
    | cons x a =>
      obtain ⟨rfl, htail⟩ := cons.inj hab
      rw [mask_literal hq hu hends]
      refine (isBoundary_append_add [q] (veil q u ++ mask rest) _).trans ?_
      rcases Nat.le_total (size a) u.size with hle | hle
      · rw [isBoundary_append_of_le (by rwa [size_veil hq])]
        exact isBoundary_veil hq hle
      · obtain ⟨w, rfl, hrest⟩ := exists_append_of_size_le htail hle
        rw [size_append, ← size_veil hq, isBoundary_append_add]
        exact ih _ hrest

/-- What shows and is no filler stands in the text. -/
theorem mem_of_mem_mask (h : c ∈ mask t) (hx : c ≠ filler) : c ∈ t := by
  induction t using literal_induction with
  | nil => exact h
  | code d t hd ih =>
    rw [mask_cons hd] at h
    exact mem_cons.2 ((mem_cons.1 h).imp_right ih)
  | literal q u rest hq hu hends ih =>
    rw [mask_literal hq hu hends] at h
    rcases mem_cons.1 h with rfl | h
    · simp
    · rcases mem_append.1 h with h | h
      · rcases eq_of_mem_veil hq h with rfl | rfl
        · exact absurd rfl hx
        · simp
      · simp [ih h]

/-! ### Where the scanner stands in a mask -/

theorem closed_mask (h : Closed t) : Closed (mask t) := by
  induction t using literal_induction with
  | nil => exact h
  | code c t hc ih =>
    rw [closed_cons hc] at h
    rw [mask_cons hc, closed_cons hc]
    exact ih h
  | literal q u rest hq hu hends ih =>
    obtain ⟨hclosed, hrest⟩ := hends.closed hq h
    rw [mask_literal hq hu hends, closed_quote hq, state_append,
      state_veil hq (hu.getLast?_eq hq hclosed)]
    exact ih hrest

/-- What stands outside the literals of a mask is read in the closed state: inside a literal there
is only filler, up to the quote that closes it. -/
theorem closed_of_code (h : mask t = a ++ c :: b) (hc : isQuote c = false) (hx : c ≠ filler) :
    Closed a := by
  induction t using literal_induction generalizing a with
  | nil => simp at h
  | code d t hd ih =>
    rw [mask_cons hd] at h
    cases a with
    | nil => rfl
    | cons x a =>
      obtain ⟨rfl, htail⟩ := cons.inj h
      rw [closed_cons hd]
      exact ih htail
  | literal q u rest hq hu hends ih =>
    rw [mask_literal hq hu hends] at h
    cases a with
    | nil => rfl
    | cons x a =>
      obtain ⟨rfl, htail⟩ := cons.inj h
      rw [closed_quote hq]
      rcases append_cons_eq_append htail.symm with ⟨w, hw, -⟩ | ⟨w, rfl, hw⟩
      · rcases eq_of_mem_veil hq (show c ∈ veil q u by rw [hw]; simp) with rfl | rfl
        · exact absurd rfl hx
        · simp [hc] at hq
      · have hne : rest ≠ [] := by
          rintro rfl
          simp at hw
        rw [state_append, state_veil hq (hu.getLast?_eq hq (hends hne).1)]
        exact ih hw

/-! ### Cuts -/

/-- No two quotes of one kind meet where the texts do. -/
def Apart (a b : Text) : Prop := ∀ q, isQuote q = true → a.getLast? = some q → b.head? ≠ some q

theorem apart_nil (b : Text) : Apart [] b := by
  intro q _ h
  cases h

theorem Apart.of_append (h : Apart (a ++ a') b) : Apart a' b := by
  intro q hq hlast
  refine h q hq ?_
  rw [getLast?_append, hlast]
  rfl

theorem Apart.append (h : Apart a' b) (hne : a' ≠ []) (a : Text) : Apart (a ++ a') b := by
  intro q hq hlast
  rw [getLast?_append_of_ne_nil _ hne] at hlast
  exact h q hq hlast

theorem apart_code (h : isQuote c = false) : Apart a (c :: b) := by
  intro q hq _ hhead
  cases hhead
  simp [h] at hq

theorem Code.apart (h : Code a) : Apart a b := by
  intro q hq hlast
  simp [h q (mem_of_getLast? hlast)] at hq

theorem Code.apart_right (h : Code b) : Apart a b := by
  intro q hq _ hhead
  simp [h q (mem_of_mem_head? hhead)] at hq

/-- The mask of a text is made of the masks of its parts. -/
theorem mask_append (ha : Closed a) (h : Apart a b) : mask (a ++ b) = mask a ++ mask b := by
  induction a using literal_induction with
  | nil => rfl
  | code c a hc ih =>
    rw [closed_cons hc] at ha
    rw [cons_append, mask_cons hc, mask_cons hc, ih ha (h.of_append (a := [c])), cons_append]
  | literal q u rest hq hu hends ih =>
    obtain ⟨hclosed, hrest⟩ := hends.closed hq ha
    have hends' : Ends q u (rest ++ b) := by
      refine fun _ => ⟨hclosed, ?_⟩
      cases rest with
      | nil => exact h q hq (by simp [getLast?_cons, hu.getLast?_eq hq hclosed])
      | cons d rest => exact (hends (by simp)).2
    rw [← cons_append] at h
    rw [cons_append, append_assoc, mask_literal hq hu hends', ih hrest h.of_append,
      mask_literal hq hu hends]
    simp

theorem Code.mask_eq (h : Code t) : mask t = t := by
  induction t with
  | nil => rfl
  | cons c t ih => rw [mask_cons (h c (by simp)), ih (forall_mem_cons.1 h).2]

theorem eq_of_mask_no_quote (h : Code (mask t)) : mask t = t := by
  induction t with
  | nil => rfl
  | cons c t ih =>
    have hc : isQuote c = false := h c (mem_of_mem_head? (head?_mask (c :: t)))
    rw [mask_cons hc] at h ⊢
    rw [ih (forall_mem_cons.1 h).2]

/-- A place of a mask outside literals is a cut of the text. At the very end it need not be one: a
doubled quote that ends the text closes its literal in the mask only. -/
theorem exists_cut (h : mask t = a' ++ b') (hb' : b' ≠ []) (hstate : state none a' = none) :
    ∃ a b, t = a ++ b ∧ Closed a ∧ Apart a b ∧ mask a = a' ∧ mask b = b' := by
  induction t using literal_induction generalizing a' with
  | nil => exact absurd (append_eq_nil_iff.1 h.symm).2 hb'
  | code c t hc ih =>
    cases a' with
    | nil => exact ⟨[], c :: t, rfl, rfl, apart_nil _, rfl, h⟩
    | cons x a' =>
      rw [mask_cons hc] at h
      obtain ⟨rfl, htail⟩ := cons.inj h
      rw [state_cons, next_none_of_not_isQuote hc] at hstate
      obtain ⟨a, b, rfl, ha, hab, rfl, rfl⟩ := ih htail hstate
      refine ⟨c :: a, b, rfl, ?_, ?_, mask_cons hc a, rfl⟩
      · rwa [closed_cons hc]
      · cases a with
        | nil => exact Code.apart (by simpa using hc)
        | cons d a => exact hab.append (by simp) [c]
  | literal q u rest hq hu hends ih =>
    cases a' with
    | nil => exact ⟨[], _, rfl, rfl, apart_nil _, rfl, h⟩
    | cons x a' =>
      rw [mask_literal hq hu hends] at h
      obtain ⟨rfl, htail⟩ := cons.inj h
      rw [state_cons, next_none_of_isQuote hq] at hstate
      -- the literal is open up to its end
      obtain ⟨w, rfl, hw⟩ : ∃ w, a' = veil q u ++ w ∧ mask rest = w ++ b' := by
        rcases append_eq_append_iff.1 htail with ⟨w, rfl, hw⟩ | ⟨w, hw, rfl⟩
        · exact ⟨w, rfl, hw⟩
        · cases w with
          | nil => exact ⟨[], by simpa using hw.symm, rfl⟩
          | cons y w =>
            rw [Code.state_eq (valid_some hq) (code_of_veil hq hw (by simp))] at hstate
            cases hstate
      have hne : rest ≠ [] := by
        rintro rfl
        exact hb' (append_eq_nil_iff.1 hw.symm).2
      obtain ⟨hclosed, hhead⟩ := hends hne
      have hlast := hu.getLast?_eq hq hclosed
      rw [state_append, state_veil hq hlast] at hstate
      obtain ⟨a, b, rfl, ha, hab, rfl, rfl⟩ := ih hw hstate
      have hends' : Ends q u a := by
        refine fun hane => ⟨hclosed, ?_⟩
        rwa [head?_append_of_ne_nil _ hane] at hhead
      refine ⟨q :: (u ++ a), b, by simp, ?_, ?_, mask_literal hq hu hends', rfl⟩
      · rwa [Closed, state_cons, next_none_of_isQuote hq, state_append, hclosed]
      · by_cases ha : a = []
        · subst ha
          intro p _ hp
          rw [append_nil, getLast?_cons, hlast] at hp
          cases hp
          exact hhead
        · exact hab.append ha (q :: u)

theorem exists_code_of_state (h : mask t = a' ++ c :: b') (hc : isQuote c = false)
    (hstate : state none a' = none) :
    ∃ a b, t = a ++ c :: b ∧ Closed a ∧ mask a = a' ∧ mask b = b' := by
  obtain ⟨a, b, rfl, ha, -, hma, hmb⟩ := exists_cut h (by simp) hstate
  have hhead := head?_mask b
  rw [hmb] at hhead
  cases b with
  | nil => cases hhead
  | cons d b =>
    cases hhead
    rw [mask_cons hc] at hmb
    exact ⟨a, b, rfl, ha, hma, (cons.inj hmb).2⟩

theorem exists_code (h : mask t = a' ++ c :: b') (hc : isQuote c = false) (hx : c ≠ filler) :
    ∃ a b, t = a ++ c :: b ∧ Closed a ∧ mask a = a' ∧ mask b = b' :=
  exists_code_of_state h hc (closed_of_code h hc hx)

theorem mask_append_cons (ha : Closed a) (hc : isQuote c = false) (b : Text) :
    mask (a ++ c :: b) = mask a ++ c :: mask b := by
  rw [mask_append ha (apart_code hc), mask_cons hc]

theorem Code.mask_append (h : Code a) (b : Text) : mask (a ++ b) = a ++ mask b := by
  rw [Literal.mask_append h.closed h.apart, h.mask_eq]

theorem mask_append_code {w : Text} (ha : Closed a) (hne : w ≠ []) (hw : Code w) (r : Text) :
    mask (a ++ (w ++ r)) = mask a ++ (w ++ mask r) := by
  obtain ⟨c, w, rfl⟩ := exists_cons_of_ne_nil hne
  have hapart : Apart a (c :: w ++ r) := apart_code (hw c (by simp))
  rw [mask_append ha hapart, hw.mask_append]

/-! ### The outline of a text -/

/-- The code of a text that is read from state `s` on, with filler for every character of a
literal. -/
def outline : Option Char → Text → Text
  | _, [] => []
  | none, c :: t => (if isQuote c then filler else c) :: outline (next none c) t
  | some q, c :: t => filler :: outline (next (some q) c) t

@[simp]
theorem outline_nil (s : Option Char) : outline s [] = [] := by
  cases s <;> rfl

theorem outline_append (s : Option Char) (a b : Text) :
    outline s (a ++ b) = outline s a ++ outline (state s a) b := by
  induction a generalizing s with
  | nil => simp
  | cons c a ih => cases s <;> simp [outline, ih]

theorem outline_inside (hq : isQuote q) (h : Inside q u) :
    ∀ c ∈ outline (some q) u, c = filler := by
  induction h with
  | nil => simp
  | close => simp [outline]
  | data hc _ ih => simpa [outline, next_some_of_ne hc] using ih
  | doubled _ ih => simpa [outline, hq, next_none_of_isQuote hq] using ih

/-- The mask and the outline show the same code. -/
theorem filter_mask {p : Char → Bool} (hp : p filler = false)
    (hquote : ∀ q, isQuote q → p q = false) (t : Text) :
    (mask t).filter p = (outline none t).filter p := by
  induction t using literal_induction with
  | nil => rfl
  | code c t hc ih => simp [mask_cons hc, outline, next_none_of_not_isQuote hc, filter_cons, hc, ih]
  | literal q u rest hq hu hends ih =>
    have hveil : (veil q u).filter p = [] := by
      refine filter_eq_nil_iff.2 fun c hc => ?_
      rcases eq_of_mem_veil hq hc with rfl | rfl
      · simp [hp]
      · simp [hquote c hq]
    have hinside : (outline (some q) u).filter p = [] :=
      filter_eq_nil_iff.2 fun c hc => by simp [outline_inside hq hu c hc, hp]
    have hrest : outline (state (some q) u) rest = outline none rest := by
      cases rest with
      | nil => simp
      | cons d rest => rw [(hends (by simp)).1]
    rw [mask_literal hq hu hends, outline, next_none_of_isQuote hq, outline_append, hrest]
    simp [hveil, hinside, ih, hp, hquote q hq, hq]

end Recast.Literal
