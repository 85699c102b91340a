import Recast.Proofs.Items

/-!
# Texts with the same mask

Texts with the same mask differ in nothing but the data inside their literals. They can be cut at
the same places, as long as these are outside literals (`Free`, `Outside`), and parts that are alike
can be put together, as long as all but the last close their literals (`Sealed.append_alike`): what
two texts show once they are put together depends on their masks alone (`mask_append_eq_glue`).
-/

namespace Recast.Literal

open List Text
open Option hiding guard

variable {a a' b b' m new new' t t' u w : Text} {c q sep : Char} {i j k n : Nat} {s : Span}
  {p : Char → Bool} {edits edits' : List Edit}

/-! ### Putting texts together -/

/-- The masks of two texts put together, the first with its literals closed. Where two quotes of one
kind meet they become a doubled quote inside one literal. -/
def glue : Text → Text → Text
  | [], n => n
  | c :: m, n =>
    if m = [] ∧ isQuote c = true ∧ n.head? = some c then
      if n.tail = [] then [filler, c] else filler :: filler :: n.tail
    else c :: glue m n

theorem glue_append_of_ne_nil (h : m ≠ []) (u n : Text) : glue (u ++ m) n = u ++ glue m n := by
  induction u with
  | nil => rfl
  | cons c u ih =>
    rw [cons_append, glue, if_neg (by simp [h]), ih]
    rfl

/-- Behind a literal, either another text begins or the literal goes on. -/
theorem mask_literal_append (hq : isQuote q) (hu : Inside q (u ++ [q]))
    (hclosed : state (some q) (u ++ [q]) = none) (b : Text) :
    mask (q :: (u ++ [q] ++ b)) = q :: (replicate u.size filler ++ glue [q] (mask b)) := by
  by_cases hmeet : b.head? = some q
  · obtain ⟨r, rfl⟩ := head?_eq_some_iff.1 hmeet
    obtain ⟨v, rest, rfl, hv, hends⟩ := exists_inside hq r
    have hends' : Ends q (u ++ [q] ++ q :: v) rest := by
      intro hne
      rw [state_append, hclosed, state_cons, next_none_of_isQuote hq]
      exact hends hne
    have htext : q :: (u ++ [q] ++ q :: (v ++ rest)) = q :: (u ++ [q] ++ q :: v ++ rest) := by simp
    rw [htext, mask_literal hq (hu.append hclosed hv hq) hends', mask_literal hq hv hends, glue,
      if_pos ⟨rfl, hq, rfl⟩]
    by_cases hne : v = []
    · subst hne
      obtain rfl := hends.rest_eq_nil
      simp [veil, utf8Size_of_isQuote hq, replicate_succ']
    · have hveil : veil q v ≠ [] := fun hnil => by
        have hsize := size_veil hq v
        have hpos := size_pos hne
        simp only [hnil, size_nil] at hsize
        omega
      have hsplit : u ++ [q] ++ q :: v = u ++ [q, q] ++ v := by simp
      rw [hsplit, veil_append hne, if_neg (by simp [hveil])]
      simp [utf8Size_of_isQuote hq, replicate_succ']
  · rw [glue, if_neg (by simp [head?_mask, hmeet]), mask_literal hq hu fun _ => ⟨hclosed, hmeet⟩,
      veil_concat hq]
    simp [glue]

/-- What two texts show together depends on their masks alone. -/
theorem mask_append_eq_glue (ha : Closed a) (b : Text) :
    mask (a ++ b) = glue (mask a) (mask b) := by
  induction a using literal_induction with
  | nil => rfl
  | code c a hc ih =>
    rw [closed_cons hc] at ha
    rw [cons_append, mask_cons hc, mask_cons hc, glue, if_neg (by simp [hc]), ih ha]
  | literal q u rest hq hu hends ih =>
    obtain ⟨hclosed, hrest⟩ := hends.closed hq ha
    rw [mask_literal hq hu hends, cons_append, append_assoc]
    by_cases hne : rest = []
    · subst hne
      obtain ⟨v, rfl⟩ := getLast?_eq_some_iff.1 (hu.getLast?_eq hq hclosed)
      rw [nil_append, mask_literal_append hq hu hclosed, veil_concat hq, mask_nil, append_nil,
        ← cons_append, ← cons_append, glue_append_of_ne_nil (by simp)]
    · have hends' : Ends q u (rest ++ b) :=
        fun _ => by rw [head?_append_of_ne_nil _ hne]; exact hends hne
      rw [mask_literal hq hu hends', ih hrest, ← cons_append, ← cons_append,
        glue_append_of_ne_nil (mask_eq_nil_iff.not.2 hne)]

/-- The texts differ in nothing but the data inside their literals. -/
def Alike (t t' : Text) : Prop := mask t = mask t'

/-- Texts that are alike and close their literals, so that anything may follow. -/
structure Sealed (t t' : Text) : Prop where
  alike : Alike t t'
  closed : Closed t
  closed' : Closed t'

theorem Sealed.refl (h : Closed t) : Sealed t t := ⟨rfl, h, h⟩

theorem sealed_of_no_quote (h : Code t) : Sealed t t :=
  .refl h.closed

theorem Sealed.append_alike (ha : Sealed a a') (hb : Alike b b') : Alike (a ++ b) (a' ++ b') := by
  rw [Alike, mask_append_eq_glue ha.closed, mask_append_eq_glue ha.closed', ha.alike, hb]

theorem Sealed.append (ha : Sealed a a') (hb : Sealed b b') : Sealed (a ++ b) (a' ++ b') :=
  ⟨ha.append_alike hb.alike, ha.closed.append hb.closed, ha.closed'.append hb.closed'⟩

/-! ### Places outside literals -/

/-- A place of a masked text outside its literals, in front of something. -/
def Free (m : Text) (n : Nat) : Prop :=
  ∃ a b, m = a ++ b ∧ a.size = n ∧ b ≠ [] ∧ state none a = none

/-- A place of a masked text outside its literals, or its end. -/
def Outside (m : Text) (n : Nat) : Prop := Free m n ∨ n = m.size

theorem Free.outside (h : Free m n) : Outside m n := .inl h

theorem Free.state_eq {p r : Text} (h : Free m p.size) (hm : m = p ++ r) : state none p = none := by
  obtain ⟨a, b, hcut, hsize, -, hstate⟩ := h
  obtain ⟨rfl, -⟩ := append_inj_of_size (hcut.symm.trans hm) hsize
  exact hstate

theorem Outside.free_of_lt (h : Outside (mask t) n) (hlt : n < t.size) : Free (mask t) n := by
  rcases h with h | h
  · exact h
  · rw [size_mask] at h
    omega

/-- At the end of a text it does not matter where the scanner stands. -/
theorem outside_iff :
    Outside m n ↔ ∃ a b, m = a ++ b ∧ a.size = n ∧ (b ≠ [] → state none a = none) := by
  constructor
  · rintro (⟨a, b, hm, ha, -, hstate⟩ | rfl)
    · exact ⟨a, b, hm, ha, fun _ => hstate⟩
    · exact ⟨m, [], by simp, rfl, by simp⟩
  · rintro ⟨a, b, rfl, rfl, hstate⟩
    by_cases hb : b = []
    · exact .inr (by simp [hb])
    · exact .inl ⟨a, b, rfl, rfl, hb, hstate hb⟩

theorem Free.exists_cut (h : Free (mask t) n) :
    ∃ a b, t = a ++ b ∧ a.size = n ∧ Closed a ∧ mask t = mask a ++ mask b ∧ b ≠ [] := by
  obtain ⟨a', b', hm, rfl, hb', hstate⟩ := h
  obtain ⟨a, b, rfl, ha, -, rfl, rfl⟩ := exists_cut hm hb' hstate
  refine ⟨a, b, rfl, (size_mask a).symm, ha, hm, ?_⟩
  rintro rfl
  exact hb' rfl

theorem Free.closed_before (h : Free (mask t) n) : Closed (t.before n) := by
  obtain ⟨a, b, rfl, rfl, ha, -, -⟩ := h.exists_cut
  rwa [before_size_append]

theorem Outside.exists_cut (h : Outside (mask t) n) :
    ∃ a b, t = a ++ b ∧ a.size = n ∧ (b ≠ [] → Closed a) ∧ mask t = mask a ++ mask b := by
  rcases h with h | rfl
  · obtain ⟨a, b, ht, hn, ha, hmask, -⟩ := h.exists_cut
    exact ⟨a, b, ht, hn, fun _ => ha, hmask⟩
  · exact ⟨t, [], by simp, by simp, by simp, by simp⟩

theorem Outside.isBoundary (h : Outside (mask t) n) : t.isBoundary n := by
  obtain ⟨a, b, rfl, rfl, -⟩ := h.exists_cut
  exact isBoundary_append a b

theorem Outside.isBoundary_mask (h : Outside m n) : m.isBoundary n := by
  obtain ⟨a, b, rfl, rfl, -⟩ := outside_iff.1 h
  exact isBoundary_append a b

theorem Outside.mask_before (h : Outside (mask t) n) : mask (t.before n) = (mask t).before n := by
  obtain ⟨a, b, rfl, rfl, -, hmask⟩ := h.exists_cut
  rw [hmask, before_size_append, ← size_mask a, before_size_append]

theorem Outside.mask_after (h : Outside (mask t) n) : mask (t.after n) = (mask t).after n := by
  obtain ⟨a, b, rfl, rfl, -, hmask⟩ := h.exists_cut
  rw [hmask, after_size_append, ← size_mask a, after_size_append]

/-- Behind one place outside literals, the others stay so. -/
theorem Outside.behind (hi : Outside m i) (hj : Outside m j) (hle : i ≤ j) :
    Outside (m.after i) (j - i) := by
  obtain ⟨a, b, rfl, rfl, ha⟩ := outside_iff.1 hi
  obtain ⟨a', b', hm, rfl, ha'⟩ := outside_iff.1 hj
  obtain ⟨w, rfl, rfl⟩ := exists_append_of_size_le hm hle
  refine outside_iff.2 ⟨w, b', by rw [after_size_append], by simp, fun hb' => ?_⟩
  have hstate := ha' hb'
  rwa [state_append, ha (by simp [hb'])] at hstate

theorem Free.of_front (hk : Free m k) (hn : Free m n) (hle : k ≤ n) (hb : b ≠ []) :
    Free (m.before n ++ b) k := by
  obtain ⟨a, r, rfl, rfl, -, ha⟩ := hk
  obtain ⟨c, s, hm, rfl, -, -⟩ := hn
  obtain ⟨w, rfl, -⟩ := exists_append_of_size_le hm hle
  rw [hm, before_size_append]
  exact ⟨a, w ++ b, by simp, rfl, by simp [hb], ha⟩

theorem Outside.mask_slice (hstart : Outside (mask t) s.start) (hstop : Outside (mask t) s.stop) :
    mask (t.slice s) = (mask t).slice s := by
  by_cases hle : s.start ≤ s.stop
  · have hbehind := hstart.behind hstop hle
    rw [← hstart.mask_after] at hbehind
    rw [slice, hbehind.mask_before, hstart.mask_after, slice]
  · have hnil (u : Text) : u.slice s = [] := by
      rw [slice, Nat.sub_eq_zero_of_le (by omega), before_zero]
    rw [hnil, hnil]
    rfl

theorem closed_slice (hstart : Outside (mask t) s.start) (hstop : Closed (t.before s.stop)) :
    Closed (t.slice s) := by
  obtain ⟨a, b, rfl, ha, hclosed, -⟩ := hstart.exists_cut
  rw [slice, ← ha, after_size_append]
  by_cases hle : a.size ≤ s.stop
  · have hsplit := before_append_add a b (s.stop - a.size)
    rw [Nat.add_sub_cancel' hle] at hsplit
    rw [hsplit] at hstop
    by_cases hb : b = []
    · subst hb
      exact closed_nil
    · exact (hclosed hb).append_iff.1 hstop
  · rw [Nat.sub_eq_zero_of_le (by omega), before_zero]
    exact closed_nil

/-! ### The same cut in two texts -/

section

variable {t t' : Text}

theorem Alike.sealed_before (h : Alike t t') (hn : Free (mask t) n) :
    Sealed (t.before n) (t'.before n) := by
  have hn' : Free (mask t') n := h ▸ hn
  refine ⟨?_, hn.closed_before, hn'.closed_before⟩
  rw [Alike, hn.outside.mask_before, hn'.outside.mask_before, h]

theorem Sealed.before (h : Sealed t t') (hn : Outside (mask t) n) :
    Sealed (t.before n) (t'.before n) := by
  rcases hn with hn | rfl
  · exact h.alike.sealed_before hn
  · have hsize : t.size = t'.size := by
      rw [← size_mask t, ← size_mask t', h.alike]
    rw [size_mask, before_size, hsize, before_size]
    exact h

theorem Alike.after (h : Alike t t') (hn : Outside (mask t) n) :
    Alike (t.after n) (t'.after n) := by
  have hn' : Outside (mask t') n := h ▸ hn
  rw [Alike, hn.mask_after, hn'.mask_after, h]

theorem Alike.slice (h : Alike t t') (hstart : Outside (mask t) s.start)
    (hstop : Outside (mask t) s.stop) : Alike (t.slice s) (t'.slice s) := by
  have hstart' : Outside (mask t') s.start := h ▸ hstart
  have hstop' : Outside (mask t') s.stop := h ▸ hstop
  rw [Alike, hstart.mask_slice hstop, hstart'.mask_slice hstop', h]

theorem Alike.sealed_slice (h : Alike t t') (hstart : Outside (mask t) s.start)
    (hstop : Free (mask t) s.stop) : Sealed (t.slice s) (t'.slice s) := by
  have hbefore := h.sealed_before hstop
  have hstart' : Outside (mask t') s.start := h ▸ hstart
  exact ⟨h.slice hstart hstop.outside, closed_slice hstart hbefore.closed,
    closed_slice hstart' hbefore.closed'⟩

theorem Sealed.slice (h : Sealed t t') (hstart : Outside (mask t) s.start)
    (hstop : Outside (mask t) s.stop) : Sealed (t.slice s) (t'.slice s) := by
  have hbefore := h.before hstop
  have hstart' : Outside (mask t') s.start := h.alike ▸ hstart
  exact ⟨h.alike.slice hstart hstop, closed_slice hstart hbefore.closed,
    closed_slice hstart' hbefore.closed'⟩

theorem Alike.splice (h : Alike t t') (hstart : Free (mask t) s.start)
    (hstop : Outside (mask t) s.stop) (hnew : Sealed new new') :
    Alike (t.splice s new) (t'.splice s new') :=
  ((h.sealed_before hstart).append hnew).append_alike (h.after hstop)

theorem Alike.insertAt (h : Alike t t') (hn : Free (mask t) n) (hnew : Code new) :
    Alike (t.insertAt n new) (t'.insertAt n new) :=
  h.splice (s := ⟨n, n⟩) hn hn.outside (sealed_of_no_quote hnew)

end

/-! ### Trimming -/

/-- The last character that shows is a filler, or that of the text. -/
theorem getLast?_of_mask (h : (mask t).getLast? = some c) : c = filler ∨ t.getLast? = some c := by
  induction t using literal_induction with
  | nil => cases h
  | code d t hd ih =>
    rw [mask_cons hd] at h
    cases hlast : (mask t).getLast? with
    | none => simp_all [mask_eq_nil_iff]
    | some x => grind
  | literal q u rest hq hu hends ih =>
    rw [mask_literal hq hu hends, getLast?_cons, getLast?_append] at h
    cases hlast : (mask rest).getLast? with
    | some x => grind
    | none =>
      obtain rfl := mask_eq_nil_iff.1 (getLast?_eq_none_iff.1 hlast)
      rcases veil_cases hq u with ⟨hveil, -⟩ | ⟨v, rfl, hveil⟩
      · cases u with
        | nil => exact .inr h
        | cons x u =>
          rw [hveil, getLast?_replicate, if_neg (Nat.ne_of_gt (size_pos (cons_ne_nil x u)))] at h
          exact .inl (some.inj h).symm
      · grind

theorem Closed.getLast?_mask (h : Closed t) : (mask t).getLast? = t.getLast? := by
  induction t using literal_induction with
  | nil => rfl
  | code c t hc ih =>
    rw [closed_cons hc] at h
    rw [mask_cons hc, getLast?_cons, getLast?_cons, ih h]
  | literal q u rest hq hu hends ih =>
    obtain ⟨hclosed, hrest⟩ := hends.closed hq h
    obtain ⟨v, rfl⟩ := getLast?_eq_some_iff.1 (hu.getLast?_eq hq hclosed)
    rw [mask_literal hq hu hends, veil_concat hq]
    simp [getLast?_cons, getLast?_append, ih hrest]

/-- What is dropped from the end of a text with closed literals is code, which the mask shows. -/
theorem Closed.mask_dropEnd (h : Closed t) (hquote : ∀ c, p c → isQuote c = false)
    (hfiller : p filler = false) :
    mask (dropEnd p t) = dropEnd p (mask t) ∧ Closed (dropEnd p t) := by
  obtain ⟨b, hb, hall, hlast⟩ := exists_dropEnd p t
  have hno : Code b := fun c hc => hquote c (hall c hc)
  have hclosed : Closed (dropEnd p t) := Closed.of_append (hb ▸ h) hno
  have hmask : mask t = mask (dropEnd p t) ++ b := by
    conv => lhs; rw [hb]
    rw [mask_append hclosed hno.apart_right, hno.mask_eq]
  have hend : ∀ c, (mask (dropEnd p t)).getLast? = some c → p c = false := by
    intro c hc
    rcases getLast?_of_mask hc with rfl | hc
    · exact hfiller
    · exact hlast c hc
  exact ⟨by rw [hmask, dropEnd_append hall, dropEnd_of_last hend], hclosed⟩

theorem mask_dropWhile (t : Text) (hquote : ∀ c, p c → isQuote c = false) :
    mask (t.dropWhile p) = (mask t).dropWhile p := by
  obtain ⟨a, ha, hall, hhead⟩ := exists_dropWhile p t
  have hno : Code a := fun c hc => hquote c (hall c hc)
  have hmask : mask t = a ++ mask (t.dropWhile p) := by
    conv => lhs; rw [ha]
    rw [hno.mask_append]
  have hfirst : ∀ c, (mask (t.dropWhile p)).head? = some c → p c = false := fun c hc =>
    hhead c (by rw [← head?_mask, hc])
  rw [hmask, dropWhile_append_of_pos hall, dropWhile_of_head hfirst]

theorem Closed.dropWhile (h : Closed t) (hquote : ∀ c, p c → isQuote c = false) :
    Closed (t.dropWhile p) := by
  obtain ⟨a, ha, hall, -⟩ := exists_dropWhile p t
  have hno : Code a := fun c hc => hquote c (hall c hc)
  rw [ha] at h
  exact hno.closed.append_iff.1 h

theorem Sealed.trimEnd (h : Sealed t t') : Sealed t.trimEnd t'.trimEnd := by
  obtain ⟨hmask, hclosed⟩ := h.closed.mask_dropEnd (fun _ => isQuote_of_isBlank) (by decide)
  obtain ⟨hmask', hclosed'⟩ := h.closed'.mask_dropEnd (fun _ => isQuote_of_isBlank) (by decide)
  exact ⟨by rw [Alike, Text.trimEnd, hmask, Text.trimEnd, hmask', h.alike], hclosed, hclosed'⟩

theorem Sealed.trim (h : Sealed t t') : Sealed t.trim t'.trim := by
  refine Sealed.trimEnd ⟨?_, h.closed.dropWhile fun _ => isQuote_of_isBlank,
    h.closed'.dropWhile fun _ => isQuote_of_isBlank⟩
  rw [Alike, trimStart, mask_dropWhile t fun _ => isQuote_of_isBlank, trimStart,
    mask_dropWhile t' fun _ => isQuote_of_isBlank, h.alike]

/-! ### Code shows where literals are not -/

theorem outside_of_state (h : m = a ++ b) (ha : state none a = none) : Outside m a.size :=
  outside_iff.2 ⟨a, b, h, rfl, fun _ => ha⟩

theorem free_of_code (h : mask t = a ++ c :: b) (hc : isQuote c = false) (hx : c ≠ filler) :
    Free (mask t) a.size :=
  ⟨a, c :: b, h, rfl, by simp, closed_of_code h hc hx⟩

theorem outside_of_code (h : mask t = a ++ c :: b) (hc : isQuote c = false) (hx : c ≠ filler) :
    Outside (mask t) (a.size + c.utf8Size) := by
  have hstate : state none (a ++ [c]) = none := by
    rw [state_append, closed_of_code h hc hx, state_cons, next_none_of_not_isQuote hc]
    rfl
  have hout := outside_of_state (a := a ++ [c]) (b := b) (by simpa using h) hstate
  rwa [size_append] at hout

theorem outside_of_rest (h : mask t = a ++ b) (hb : ∀ c ∈ b, isQuote c = false ∧ c ≠ filler) :
    Outside (mask t) a.size := by
  cases b with
  | nil => exact .inr (by rw [h, append_nil])
  | cons c b =>
    obtain ⟨hc, hx⟩ := hb c (by simp)
    exact (free_of_code h hc hx).outside

theorem Outside.of_after (hk : Outside (mask t) k) (hn : Outside (mask (t.after k)) n) :
    Outside (mask t) (n + k) := by
  rw [hk.mask_after] at hn
  obtain ⟨front, rest, hm, rfl, hfront⟩ := outside_iff.1 hk
  rw [hm, after_size_append] at hn
  obtain ⟨a, b, rfl, rfl, ha⟩ := outside_iff.1 hn
  refine outside_iff.2 ⟨front ++ a, b, by rw [hm, append_assoc], by rw [size_append, Nat.add_comm],
    fun hb => ?_⟩
  rw [state_append, hfront (by simp [hb]), ha hb]

theorem Free.of_after (hk : Outside (mask t) k) (hn : Free (mask (t.after k)) n) :
    Free (mask t) (n + k) := by
  refine (hk.of_after hn.outside).free_of_lt ?_
  obtain ⟨a, b, ht, rfl, -, -, hb⟩ := hn.exists_cut
  obtain ⟨a', b', rfl, rfl, -⟩ := hk.exists_cut
  have hpos := size_pos hb
  rw [after_size_append] at ht
  rw [ht, size_append, size_append]
  omega

theorem Outside.of_before (hk : Outside m k) (hn : Outside (m.before k) n) : Outside m n := by
  obtain ⟨a, b, rfl, rfl, ha⟩ := outside_iff.1 hk
  rw [before_size_append] at hn
  obtain ⟨c, d, rfl, rfl, hc⟩ := outside_iff.1 hn
  refine outside_iff.2 ⟨c, d ++ b, by simp, rfl, fun hne => ?_⟩
  by_cases hd : d = []
  · subst hd
    simpa using ha hne
  · exact hc hd

/-- A place outside the literals of a part is outside those of the text. -/
theorem Outside.of_slice (hstart : Outside (mask t) s.start) (hstop : Outside (mask t) s.stop)
    (hle : s.start ≤ s.stop) (hn : Outside (mask (t.slice s)) n) :
    Outside (mask t) (n + s.start) := by
  have hbehind := hstart.behind hstop hle
  rw [hstart.mask_slice hstop] at hn
  refine hstart.of_after ?_
  rw [hstart.mask_after]
  exact hbehind.of_before hn

theorem outside_zero (t : Text) : Outside (mask t) 0 :=
  outside_of_state (a := []) rfl rfl

/-- The parts of a list begin and end outside literals. -/
theorem outside_of_mem_splitTop (hsep : isQuote sep = false) (hx : sep ≠ filler)
    (hs : s ∈ Nesting.splitTop t sep) :
    Outside (mask t) s.start ∧ Outside (mask t) s.stop ∧ s.start ≤ s.stop := by
  have hedges := Nesting.edges_of_mem_splitTop hs
  refine ⟨?_, ?_, hedges.le⟩
  · rcases hedges.start with hzero | ⟨a, b, hm, hstart⟩
    · exact hzero ▸ outside_zero t
    · rw [hstart, size_append]
      exact outside_of_code hm hsep hx
  · rcases hedges.stop with hend | ⟨a, b, hm, hstop⟩
    · exact .inr hend
    · exact hstop ▸ (free_of_code hm hsep hx).outside

theorem Sealed.parts (h : Sealed t t') (sep : Char) (hsep : isQuote sep = false)
    (hx : sep ≠ filler) :
    ∃ spans : List Span, Nesting.parts t sep = spans.map t.slice ∧
      Nesting.parts t' sep = spans.map t'.slice ∧ ∀ s ∈ spans, Sealed (t.slice s) (t'.slice s) := by
  refine ⟨Nesting.splitTop t sep, rfl, ?_, fun s hs => ?_⟩
  · rw [Nesting.parts, Nesting.splitTop, Nesting.splitTop, ← show mask t = mask t' from h.alike]
  · obtain ⟨hstart, hstop, -⟩ := outside_of_mem_splitTop hsep hx hs
    exact h.slice hstart hstop

/-! ### Text without quotes -/

theorem Alike.eq_of_no_quote (h : Alike t t') (ht : Code t) : t' = t := by
  have hmask : mask t' = t := by rw [← show mask t = mask t' from h, ht.mask_eq]
  have hself : mask t' = t' := eq_of_mask_no_quote (by rwa [hmask])
  exact hself.symm.trans hmask

theorem exists_of_mask_append (h : mask t = w ++ r) (hw : Code w) :
    ∃ r', t = w ++ r' ∧ mask r' = r := by
  induction w generalizing t with
  | nil => exact ⟨t, rfl, h⟩
  | cons c w ih =>
    have hhead := head?_mask t
    rw [h] at hhead
    cases t with
    | nil => cases hhead
    | cons x t =>
      obtain rfl : c = x := some.inj hhead
      rw [mask_cons (hw c (by simp))] at h
      obtain ⟨r', rfl, hr'⟩ := ih (cons.inj h).2 (forall_mem_cons.1 hw).2
      exact ⟨r', rfl, hr'⟩

theorem Free.exists_stretch {p q : Text} (h : Free (mask t) p.size) (hm : mask t = p ++ (w ++ q))
    (hw : Code w) : ∃ a r, t = a ++ (w ++ r) ∧ a.size = p.size ∧ Closed a ∧ mask a = p := by
  obtain ⟨a, b, rfl, ha, hclosed, hcut, -⟩ := h.exists_cut
  have hp : mask a = p := (append_inj_of_size (hcut.symm.trans hm) (by rw [size_mask, ha])).1
  rw [hcut, hp] at hm
  obtain ⟨r, rfl, -⟩ := exists_of_mask_append (append_cancel_left hm) hw
  exact ⟨a, r, rfl, ha, hclosed, hp⟩

/-- Text without quotes behind a free place is code. -/
theorem Free.inside (front w rest : Text) (h : Free (mask (front ++ (w ++ rest))) front.size)
    (hw : Code w) :
    Outside (mask (front ++ (w ++ rest))) (front.size + w.size) ∧
      (rest ≠ [] → Free (mask (front ++ (w ++ rest))) (front.size + w.size)) := by
  have hclosed := h.closed_before
  have hafter := h.outside.mask_after
  have hbefore := h.outside.mask_before
  rw [before_size_append] at hclosed hbefore
  rw [after_size_append] at hafter
  have hmask : mask (front ++ (w ++ rest)) = (mask front ++ w) ++ mask rest := by
    rw [← before_append_after (mask (front ++ (w ++ rest))) front.size, ← hbefore, ← hafter,
      hw.mask_append, append_assoc]
  have hstate : state none (mask front ++ w) = none := by
    rw [state_append, closed_mask hclosed]
    exact hw.closed
  have hsize : size (mask front ++ w) = front.size + w.size := by
    rw [size_append, size_mask]
  rw [← hsize]
  refine ⟨outside_of_state hmask hstate, fun hne => ⟨_, _, hmask, rfl, ?_, hstate⟩⟩
  exact fun hnil => hne (mask_eq_nil_iff.1 hnil)

/-! ### Edits -/

/-- The two lists of edits replace the same spans of texts with the mask `m`, which begin and end
outside literals, by texts that are alike and sealed. -/
inductive Alongside (m : Text) : List Edit → List Edit → Prop
  | nil : Alongside m [] []
  | cons {span : Span} {new new' : Text} {edits edits' : List Edit} :
    Free m span.start → Outside m span.stop → Sealed new new' → Alongside m edits edits' →
    Alongside m (⟨span, new⟩ :: edits) (⟨span, new'⟩ :: edits')

theorem Alongside.append {more more' : List Edit} (h : Alongside m edits edits')
    (hmore : Alongside m more more') : Alongside m (edits ++ more) (edits' ++ more') := by
  induction h with
  | nil => exact hmore
  | cons hstart hstop hnew _ ih => exact .cons hstart hstop hnew ih

theorem Alongside.filterMap {l : List α} {f f' : α → Option Edit}
    (h : ∀ a ∈ l, Alongside m (f a).toList (f' a).toList) :
    Alongside m (l.filterMap f) (l.filterMap f') := by
  induction l with
  | nil => exact .nil
  | cons a l ih =>
    have hl := ih (forall_mem_cons.1 h).2
    have hcons (g : α → Option Edit) : (a :: l).filterMap g = (g a).toList ++ l.filterMap g := by
      cases hg : g a <;> simp [hg]
    rw [hcons, hcons]
    exact (h a (by simp)).append hl

theorem Alongside.insertSorted {span : Span} (hstart : Free m span.start)
    (hstop : Outside m span.stop) (hnew : Sealed new new') (h : Alongside m edits edits') :
    Alongside m
      (insertSorted (fun a b => b.span.start ≤ a.span.start) ⟨span, new⟩ edits)
      (insertSorted (fun a b => b.span.start ≤ a.span.start) ⟨span, new'⟩ edits') := by
  induction h with
  | nil => exact .cons hstart hstop hnew .nil
  | @cons span₁ _ _ _ _ hstart₁ hstop₁ hnew₁ h ih =>
    rw [Recast.insertSorted, Recast.insertSorted]
    by_cases hle : span₁.start ≤ span.start
    · rw [if_pos (by simpa using hle), if_pos (by simpa using hle)]
      exact .cons hstart hstop hnew (.cons hstart₁ hstop₁ hnew₁ h)
    · rw [if_neg (by simpa using hle), if_neg (by simpa using hle)]
      exact .cons hstart₁ hstop₁ hnew₁ ih

theorem Alongside.sortedBy (h : Alongside m edits edits') :
    Alongside m (sortedBy (fun a b => b.span.start ≤ a.span.start) edits)
      (sortedBy (fun a b => b.span.start ≤ a.span.start) edits') := by
  induction h with
  | nil => exact .nil
  | cons hstart hstop hnew _ ih => exact ih.insertSorted hstart hstop hnew

/-- What is settled from `limit` on stays alike: `done` is not yet closed at its end, so while
nothing is settled the limit is the end of the text, and afterwards it is free. -/
theorem Alike.applyFrom (h : Alike t t') (hedits : Alongside (mask t) edits edits') {limit : Nat}
    {done done' : Text} (hdone : Alike done done')
    (hlimit : Free (mask t) limit ∨ limit = (mask t).size ∧ done = [] ∧ done' = []) :
    Alike (Edit.applyFrom t limit done edits) (Edit.applyFrom t' limit done' edits') := by
  induction hedits generalizing limit done done' with
  | nil =>
    rw [Edit.applyFrom, Edit.applyFrom]
    rcases hlimit with hlimit | ⟨rfl, rfl, rfl⟩
    · exact (h.sealed_before hlimit).append_alike hdone
    · have hsize : (mask t).size = t'.size := by rw [h, size_mask]
      rw [append_nil, append_nil, hsize, before_size, ← hsize, size_mask, before_size]
      exact h
  | @cons span new new' edits edits' hstart hstop hnew _ ih =>
    have hfits : Edit.fits t limit ⟨span, new⟩ = Edit.fits t' limit ⟨span, new'⟩ := by
      have hstart' : Free (mask t') span.start := h ▸ hstart
      have hstop' : Outside (mask t') span.stop := h ▸ hstop
      simp only [Edit.fits, hstart.outside.isBoundary, hstart'.outside.isBoundary, hstop.isBoundary,
        hstop'.isBoundary]
    rw [Edit.applyFrom, Edit.applyFrom, ← hfits]
    split
    · refine ih ?_ (.inl hstart)
      rw [append_assoc, append_assoc]
      refine hnew.append_alike ?_
      rcases hlimit with hlimit | ⟨rfl, rfl, rfl⟩
      · exact (h.sealed_slice hstop hlimit).append_alike hdone
      · rw [append_nil, append_nil]
        exact h.slice hstop (.inr rfl)
    · exact ih hdone hlimit

theorem Alongside.eq_nil_iff (h : Alongside m edits edits') : edits = [] ↔ edits' = [] := by
  cases h <;> simp

theorem Alike.applyAll (h : Alike t t') (hedits : Alongside (mask t) edits edits') :
    Alike (Edit.applyAll t edits) (Edit.applyAll t' edits') := by
  have hsize : t.size = t'.size := by rw [← size_mask t, ← size_mask t', h]
  rw [Edit.applyAll, Edit.applyAll, ← hsize]
  exact h.applyFrom hedits.sortedBy rfl (.inr ⟨(size_mask t).symm, rfl, rfl⟩)

end Recast.Literal
