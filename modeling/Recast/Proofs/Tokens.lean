import Recast.Proofs.LiteralState

/-!
# What a text is read as

A server reads a text as code and data: characters outside literals, and the texts that its literals
stand for. `tokens` takes both off the pieces of a text. `Reads` describes the same from front to
back, with the condition that keeps two literals apart; as a text is read in one way only
(`Reads.unique`), a text that is put together so is read so (`Reads.tokens_eq`).
-/

namespace Recast.Literal

open List Text

variable {rest t u : Text} {c q : Char} {l : List Token}

/-- A character of code, or the data of a literal. -/
inductive Token where
  | code (c : Char)
  | data (t : Text)
deriving DecidableEq, Repr

/-- The data of a literal opened by `q`, from behind the opening quote on: a doubled quote stands
for one, and the closing quote for nothing. -/
def decode (q : Char) : Text → Text
  | [] => []
  | [c] => if c = q then [] else [c]
  | c :: d :: t => if c = q ∧ d = q then q :: decode q t else c :: decode q (d :: t)

/-- What a piece is read as. -/
def Piece.tokens (p : Piece) : List Token :=
  if p.isLiteral then
    match p.text with
    | q :: t => [.data (decode q t)]
    | [] => []
  else p.text.map .code

def tokens (t : Text) : List Token := (pieces t).flatMap Piece.tokens

theorem decode_cons_of_ne (h : c ≠ q) (t : Text) : decode q (c :: t) = c :: decode q t := by
  cases t with
  | nil => simp [decode, h]
  | cons d t => rw [decode, if_neg fun h' => h h'.1]

theorem decode_doubled (q : Char) (t : Text) : decode q (q :: q :: t) = q :: decode q t := by
  rw [decode, if_pos ⟨rfl, rfl⟩]

/-! ### Pieces, one behind another -/

/-- `Cut n t ps`: a text `t` that starts at offset `n` falls into the pieces `ps`, code and literals
in turn. -/
inductive Cut : Nat → Text → List Piece → Prop
  | last {n : Nat} {code : Text} : Code code → Cut n code [⟨n, false, code⟩]
  | literal {n : Nat} {code : Text} {q : Char} {u rest : Text} {ps : List Piece} :
    Code code → isQuote q = true → Inside q u → Ends q u rest →
    Cut (n + code.size + (1 + u.size)) rest ps →
    Cut n (code ++ (q :: (u ++ rest))) (⟨n, false, code⟩ :: ⟨n + code.size, true, q :: u⟩ :: ps)

theorem piecesFrom_literal (front code u r : Text) (c : Char) (l : List Span) :
    piecesFrom (front ++ (code ++ c :: (u ++ r))) front.size
      (⟨front.size + code.size, front.size + code.size + c.utf8Size + u.size⟩ :: l)
      = ⟨front.size, false, code⟩ :: ⟨front.size + code.size, true, c :: u⟩ ::
        piecesFrom (front ++ (code ++ c :: (u ++ r)))
          (front.size + code.size + c.utf8Size + u.size) l := by
  have hcode := slice_append front code (c :: (u ++ r)) rfl rfl
  have hliteral : slice (front ++ code ++ (c :: u) ++ r)
      ⟨front.size + code.size, front.size + code.size + c.utf8Size + u.size⟩ = c :: u :=
    slice_append _ _ r (by simp) (by simp [Nat.add_assoc])
  rw [append_assoc] at hcode
  rw [append_assoc, append_assoc, cons_append] at hliteral
  rw [piecesFrom, hcode, hliteral]

/-- `cut_pieces` for the pieces from the end of `front` on, where `code` has been read already. -/
theorem Spanned.cut {n : Nat} {l : List Span} (h : Spanned n rest l) (front code : Text)
    (hn : n = front.size + code.size) (ht : t = front ++ (code ++ rest)) (hcode : Code code) :
    Cut front.size (code ++ rest) (piecesFrom t front.size l) := by
  induction h generalizing front code with
  | nil =>
    rw [ht, piecesFrom, after_size_append, append_nil]
    exact .last hcode
  | @code n c rest l hc _ ih =>
    have hcut :=
      ih front (code ++ [c]) (by simp [hn, Nat.add_assoc]) (by simpa using ht)
        (hcode.append (by simpa using hc))
    simpa using hcut
  | @literal n q u rest l hq hu hends _ ih =>
    have hone := utf8Size_of_isQuote hq
    have hcut :=
      ih (front ++ code ++ q :: u) [] (by simp [hn, hone, Nat.add_assoc])
        (by simpa using ht) (by simp)
    have hpieces := piecesFrom_literal front code u rest q l
    rw [hone, Nat.add_assoc _ 1] at hpieces
    rw [ht, hn, hpieces, ← ht]
    refine .literal hcode hq hu hends ?_
    simpa [hone, Nat.add_assoc] using hcut

theorem cut_pieces (t : Text) : Cut 0 t (pieces t) := (spanned_spans t).cut [] [] rfl rfl (by simp)

theorem Cut.flatMap_text {n : Nat} {ps : List Piece} (h : Cut n t ps) :
    ps.flatMap Piece.text = t := by
  induction h with
  | last => simp
  | literal _ _ _ _ _ ih => simp [ih]

/-! ### Reading -/

/-- `Reads t l`: the text `t` is read as `l`. -/
inductive Reads : Text → List Token → Prop
  | nil : Reads [] []
  | code {c : Char} {t : Text} {l : List Token} :
      isQuote c = false → Reads t l → Reads (c :: t) (.code c :: l)
  | literal {q : Char} {u t : Text} {l : List Token} : isQuote q = true → Inside q u → Ends q u t →
    Reads t l → Reads (q :: (u ++ t)) (.data (decode q u) :: l)

theorem Reads.of_code {code : Text} (h : Code code) (ht : Reads t l) :
    Reads (code ++ t) (code.map .code ++ l) := by
  induction code with
  | nil => exact ht
  | cons c code ih => exact .code (h c (by simp)) (ih (forall_mem_cons.1 h).2)

/-- A text is read in one way only. -/
theorem Reads.unique {l' : List Token} (h : Reads t l) (h' : Reads t l') : l = l' := by
  induction h generalizing l' with
  | nil => cases h' with
    | nil => rfl
  | @code c t l hc _ ih =>
    cases h' with
    | code _ ht' => rw [ih ht']
    | literal hq => rw [hc] at hq; cases hq
  | @literal q u t l hq hu hends _ ih =>
    generalize hr : q :: (u ++ t) = r at h'
    cases h' with
    | nil => cases hr
    | code hc =>
      obtain ⟨rfl, -⟩ := cons.inj hr
      simp [hc] at hq
    | literal _ hu' hends' ht' =>
      obtain ⟨rfl, htail⟩ := cons.inj hr
      obtain ⟨rfl, rfl⟩ := hu.unique hq hends hu' hends' htail
      rw [ih ht']

theorem Cut.reads {n : Nat} {ps : List Piece} (h : Cut n t ps) :
    Reads t (ps.flatMap Piece.tokens) := by
  induction h with
  | @last n code hcode =>
    have h := Reads.of_code hcode .nil
    simpa [Piece.tokens] using h
  | @literal n code q u rest ps hcode hq hu hends _ ih =>
    exact .of_code hcode (.literal hq hu hends ih)

theorem Reads.tokens_eq (h : Reads t l) : tokens t = l :=
  (cut_pieces t).reads.unique h

end Recast.Literal
