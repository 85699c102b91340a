import Recast.Proofs.Tokens

/-!
# Backslash escapes

Statements are issued in a dialect in which a backslash inside a literal takes the character behind
it with it. `Escaped.shadeFrom` reads a text in that dialect, and `Escaped.pieces` are the literals
and the code that it sees. `normalizeEscapes` brings a text into the target's dialect: its literals
stand where they stood, the code between them is untouched, and inside them a quote behind a
backslash is doubled (`pieces_normalizeEscapes`).
-/

namespace Recast

open List Text

variable {r rest t u : Text} {c d q : Char} {n : Nat} {ps : List Piece}

namespace Escaped

open Literal

/-! ### The dialect with backslashes -/

/-- `shade` of a text that starts outside literals, or inside one opened by the given quote. -/
def shadeFrom : Option Char → Text → List (Char × Role)
  | _, [] => []
  | none, c :: t =>
    if isQuote c then (c, .opening) :: shadeFrom (some c) t else (c, .code) :: shadeFrom none t
  | some q, [c] => [(c, if c = q then .closing else .inner)]
  | some q, c :: d :: t =>
    if c = '\\' then (c, .inner) :: (d, .inner) :: shadeFrom (some q) t
    else if c ≠ q then (c, .inner) :: shadeFrom (some q) (d :: t)
    else if d = q then (c, .inner) :: (d, .inner) :: shadeFrom (some q) t
    else (c, .closing) :: shadeFrom none (d :: t)

/-- Every character with its role. Inside a literal a backslash takes the next character with it,
and two quotes are one that is data. -/
def shade (t : Text) : List (Char × Role) := shadeFrom none t

def spans (t : Text) : List Span := spansFrom 0 none (shade t)

def pieces (t : Text) : List Piece := piecesFrom t 0 (spans t)

/-- The inside of a literal opened by `q`, with every quote that a backslash escapes doubled
instead. -/
def requote (q : Char) : Text → Text
  | [] => []
  | [c] => [c]
  | c :: d :: t =>
    if c = '\\' then (if d = q then q else c) :: d :: requote q t else c :: requote q (d :: t)

end Escaped

namespace Literal

/-- A piece of a text with backslash escapes as the target's dialect writes it. -/
def Piece.requoted (p : Piece) : Piece :=
  match p.isLiteral, p.text with
  | true, q :: u => { p with text := q :: Escaped.requote q u }
  | _, _ => p

theorem ne_backslash (hq : isQuote q) : q ≠ '\\' := by
  rintro rfl
  cases hq

theorem normalizeFrom_data (hbackslash : c ≠ '\\') (hq : c ≠ q) (t : Text) :
    normalizeFrom (some q) (c :: t) = c :: normalizeFrom (some q) t := by
  cases t with
  | nil => rfl
  | cons d t => simp [normalizeFrom, hbackslash, hq]

theorem head?_normalizeFrom (t : Text) : (normalizeFrom none t).head? = t.head? := by
  cases t with
  | nil => rfl
  | cons c t => rfl

theorem normalizeFrom_close (hq : isQuote q) (h : t.head? ≠ some q) :
    normalizeFrom (some q) (q :: t) = q :: normalizeFrom none t := by
  cases t with
  | nil => rfl
  | cons d t =>
    have hd : d ≠ q := by simpa using h
    simp [normalizeFrom, ne_backslash hq, hd]

theorem normalizeFrom_backslash (hq : isQuote q) (hbackslash : d ≠ '\\') (hd : d ≠ q) (t : Text) :
    normalizeFrom (some q) ('\\' :: d :: t) = '\\' :: d :: normalizeFrom (some q) t := by
  rw [normalizeFrom, if_neg (by simp [hbackslash]), if_neg (by simp [hd]),
    if_neg (ne_backslash hq).symm, normalizeFrom_data hbackslash hd]

end Literal

namespace Escaped

open Literal

theorem requote_cons_of_ne (h : c ≠ '\\') (q : Char) (t : Text) :
    requote q (c :: t) = c :: requote q t := by
  cases t with
  | nil => rfl
  | cons d t => rw [requote, if_neg h]

theorem shadeFrom_data (hbackslash : c ≠ '\\') (hq : c ≠ q) (t : Text) :
    shadeFrom (some q) (c :: t) = (c, .inner) :: shadeFrom (some q) t := by
  cases t with
  | nil => simp [shadeFrom, hq]
  | cons d t => simp [shadeFrom, hbackslash, hq]

theorem size_requote (hq : isQuote q) (t : Text) : (requote q t).size = t.size := by
  fun_induction requote q t with
  | case1 => rfl
  | case2 c => rfl
  | case3 d t ih =>
    have hsize : (if d = q then q else '\\').utf8Size = '\\'.utf8Size := by
      split
      · exact utf8Size_of_isQuote hq
      · rfl
    rw [size_cons, size_cons, size_cons, size_cons, ih, hsize]
  | case4 c d t hc ih => rw [size_cons, size_cons, ih]

/-! ### One literal -/

/-- How a text `r` behind an opening quote `q` is read: the literal ends behind `u`, and `rest`
follows. Once it is normalized, the literal ends behind `requote q u`. -/
structure Taken (q : Char) (r u rest : Text) : Prop where
  cut : r = u ++ rest
  spans : ∀ m n, spansFrom n (some m) (shadeFrom (some q) r)
    = ⟨m, n + u.size⟩ :: spansFrom (n + u.size) none (shadeFrom none rest)
  normalized : normalizeFrom (some q) r = requote q u ++ normalizeFrom none rest
  inside : Inside q (requote q u)
  ends : Ends q (requote q u) (normalizeFrom none rest)

theorem taken_nil (q : Char) : Taken q [] [] [] where
  cut := rfl
  spans := by simp [shadeFrom, spansFrom]
  normalized := rfl
  inside := .nil
  ends := by simp [Ends, normalizeFrom]

theorem taken_last (q c : Char) : Taken q [c] [c] [] where
  cut := rfl
  spans := by by_cases hc : c = q <;> simp [shadeFrom, spansFrom, hc]
  normalized := rfl
  inside := by
    by_cases hc : c = q
    · rw [hc]
      exact .close
    · exact .data hc .nil
  ends := by simp [Ends, normalizeFrom]

theorem taken_close (hq : isQuote q) (hd : d ≠ q) (t : Text) :
    Taken q (q :: d :: t) [q] (d :: t) where
  cut := rfl
  spans := by simp [shadeFrom, spansFrom, ne_backslash hq, hd]
  normalized := by simp [normalizeFrom, requote, ne_backslash hq, hd]
  inside := .close
  ends := fun _ => ⟨next_some_self q, by simpa [head?_normalizeFrom] using hd⟩

theorem Taken.data (h : Taken q r u rest) (hbackslash : c ≠ '\\') (hc : c ≠ q) :
    Taken q (c :: r) (c :: u) rest where
  cut := by rw [h.cut]; rfl
  spans m n := by simp [shadeFrom_data hbackslash hc, spansFrom, h.spans, Nat.add_assoc]
  normalized := by
    rw [normalizeFrom_data hbackslash hc, h.normalized, requote_cons_of_ne hbackslash]
    rfl
  inside := by
    rw [requote_cons_of_ne hbackslash]
    exact .data hc h.inside
  ends := by
    rw [requote_cons_of_ne hbackslash]
    exact (ends_data hc).2 h.ends

theorem Taken.doubled (hq : isQuote q) (h : Taken q r u rest) :
    Taken q (q :: q :: r) (q :: q :: u) rest where
  cut := by rw [h.cut]; rfl
  spans m n := by simp [shadeFrom, spansFrom, ne_backslash hq, h.spans, Nat.add_assoc]
  normalized := by
    rw [requote_cons_of_ne (ne_backslash hq), requote_cons_of_ne (ne_backslash hq)]
    simp [normalizeFrom, ne_backslash hq, h.normalized]
  inside := by
    rw [requote_cons_of_ne (ne_backslash hq), requote_cons_of_ne (ne_backslash hq)]
    exact .doubled h.inside
  ends := by
    rw [requote_cons_of_ne (ne_backslash hq), requote_cons_of_ne (ne_backslash hq)]
    exact (ends_doubled hq).2 h.ends

/-- A backslash and what it takes with it: the two characters stay together, as a doubled quote or
as they are. -/
theorem Taken.escape (hq : isQuote q) (h : Taken q r u rest) (d : Char) :
    Taken q ('\\' :: d :: r) ('\\' :: d :: u) rest where
  cut := by rw [h.cut]; rfl
  spans m n := by simp [shadeFrom, spansFrom, h.spans, Nat.add_assoc]
  normalized := by
    by_cases hd : d = q
    · simp [normalizeFrom, requote, hd, ne_backslash hq, h.normalized]
    · by_cases hpair : d = '\\'
      · simp [normalizeFrom, requote, hpair, (ne_backslash hq).symm, h.normalized]
      · simp [normalizeFrom_backslash hq hpair hd, requote, hd, h.normalized]
  inside := by
    rw [requote]
    by_cases hd : d = q
    · rw [if_pos hd, hd]
      exact .doubled h.inside
    · rw [if_neg hd]
      exact .data (ne_backslash hq).symm (.data hd h.inside)
  ends := by
    rw [requote]
    by_cases hd : d = q
    · rw [if_pos hd, hd]
      exact (ends_doubled hq).2 h.ends
    · rw [if_neg hd]
      exact (ends_data (ne_backslash hq).symm).2 ((ends_data hd).2 h.ends)

/-- Behind an opening quote a literal is always read. -/
theorem exists_taken {q : Char} (hq : isQuote q) : (r : Text) → ∃ u rest, Taken q r u rest
  | [] => ⟨[], [], taken_nil q⟩
  | [c] => ⟨[c], [], taken_last q c⟩
  | c :: d :: t => by
    by_cases hbackslash : c = '\\'
    · subst hbackslash
      obtain ⟨u, rest, h⟩ := exists_taken hq t
      exact ⟨_, rest, h.escape hq d⟩
    · by_cases hc : c = q
      · subst hc
        by_cases hd : d = c
        · subst hd
          obtain ⟨u, rest, h⟩ := exists_taken hq t
          exact ⟨_, rest, h.doubled hq⟩
        · exact ⟨_, _, taken_close hq hd t⟩
      · obtain ⟨u, rest, h⟩ := exists_taken hq (d :: t)
        exact ⟨_, rest, h.data hbackslash hc⟩

theorem Taken.length_le (h : Taken q r u rest) : rest.length ≤ r.length := by
  rw [h.cut, length_append]
  omega

/-! ### All literals -/

/-- `spans_normalizeEscapes` for a text that starts at offset `n`. -/
theorem spansFrom_normalizeFrom : (t : Text) → (n : Nat) →
    spansFrom n none (Literal.shadeFrom none (normalizeFrom none t)) =
      spansFrom n none (shadeFrom none t)
  | [], n => rfl
  | c :: t, n => by
    cases hc : isQuote c with
    | false =>
      have ih := spansFrom_normalizeFrom t (n + c.utf8Size)
      simpa [normalizeFrom, Literal.shadeFrom, shadeFrom, spansFrom, hc] using ih
    | true =>
      obtain ⟨u, rest, h⟩ := exists_taken hc t
      have := h.length_le
      have ih := spansFrom_normalizeFrom rest (n + c.utf8Size + u.size)
      simp only [normalizeFrom, Literal.shadeFrom, shadeFrom, spansFrom, hc, if_true]
      rw [h.normalized, spansFrom_inside hc h.inside h.ends, h.spans, size_requote hc, ih]
  termination_by t => t.length

/-- The pieces from the end of `front` on, where `code` has been read already. -/
theorem piecesFrom_requoted : (rest front front' code : Text) → front'.size = front.size →
    (piecesFrom (front ++ (code ++ rest)) front.size
      (spansFrom (front.size + code.size) none (shadeFrom none rest))).flatMap Piece.text =
        code ++ rest ∧ piecesFrom (front' ++ (code ++ normalizeFrom none rest)) front'.size
        (spansFrom (front'.size + code.size) none (shadeFrom none rest)) =
      (piecesFrom (front ++ (code ++ rest)) front.size
        (spansFrom (front.size + code.size) none (shadeFrom none rest))).map Piece.requoted
  | [], front, front', code, hsize => by
    have hafter := after_size_append front' code
    rw [hsize] at hafter
    simp [shadeFrom, spansFrom, piecesFrom, normalizeFrom, Piece.requoted, hsize, hafter]
  | c :: rest, front, front', code, hsize => by
    cases hc : isQuote c with
    | false =>
      have ih := piecesFrom_requoted rest front front' (code ++ [c]) hsize
      simpa [shadeFrom, spansFrom, normalizeFrom, hc, Nat.add_assoc] using ih
    | true =>
      obtain ⟨u, r, h⟩ := exists_taken hc rest
      have := h.length_le
      obtain rfl := h.cut
      have hrequote := size_requote hc u
      have ih :=
        piecesFrom_requoted r (front ++ code ++ c :: u) (front' ++ code ++ c :: requote c u) []
        (by simp [hsize, hrequote])
      have hpieces := piecesFrom_literal front' code (requote c u) (normalizeFrom none r) c
      rw [hrequote] at hpieces
      rw [shadeFrom, if_pos hc, spansFrom, h.spans, spansFrom, h.spans, piecesFrom_literal,
        normalizeFrom, if_pos hc, h.normalized, hpieces]
      simpa [Piece.requoted, hsize, hrequote, Nat.add_assoc] using ih
  termination_by rest => rest.length

/-! ### Normalizing twice -/

/-- What is normalized has nothing left to normalize. -/
theorem normalizeFrom_idem {s : Option Char} (hs : Valid s) (t : Text) :
    normalizeFrom s (normalizeFrom s t) = normalizeFrom s t := by
  fun_induction normalizeFrom s t with
  | case1 s => simp [normalizeFrom]
  | case2 c t ih =>
    rw [normalizeFrom, ih]
    split
    · next hc => exact valid_some hc
    · exact valid_none
  | case3 q c => rfl
  | case4 q c d t hpair ih => rw [normalizeFrom, if_pos hpair, ih hs]
  | case5 q c d t _ _ ih =>
    rw [normalizeFrom, if_neg fun h => ne_backslash (hs q rfl) h.1, if_pos ⟨.inr rfl, rfl⟩, ih hs]
  | case6 q c d t hpair hquote ih =>
    have hq := hs q rfl
    by_cases hc : c = q
    · subst hc
      have hd : d ≠ c := fun hd => hquote ⟨.inr rfl, hd⟩
      rw [if_pos rfl] at ih ⊢
      rw [normalizeFrom_close hq (by simpa [head?_normalizeFrom] using hd), ih valid_none]
    · rw [if_neg hc] at ih ⊢
      by_cases hbackslash : c = '\\'
      · -- the backslash escapes nothing that is changed, so it stands before the same
        -- character again
        have hd : d ≠ q := fun hd => hquote ⟨.inl hbackslash, hd⟩
        have hd' : d ≠ '\\' := fun hd => hpair ⟨hbackslash, hd⟩
        rw [normalizeFrom_data hd' hd, normalizeFrom_data hd' hd, cons.injEq] at ih
        rw [hbackslash, normalizeFrom_data hd' hd, normalizeFrom_backslash hq hd' hd, (ih hs).2]
      · rw [normalizeFrom_data hbackslash hc, ih hs]

end Escaped

namespace Literal

/-- Normalizing the escapes keeps the pieces of a text where they are. The code between literals
stays as it is, a literal is only changed by doubling the quotes that a backslash escapes, and what
comes out has nothing left to normalize. -/
theorem pieces_normalizeEscapes (t : Text) : (Escaped.pieces t).flatMap Piece.text = t ∧
    normalizeEscapes t = ((Escaped.pieces t).map Piece.requoted).flatMap Piece.text ∧
    pieces (normalizeEscapes t) = (Escaped.pieces t).map Piece.requoted ∧
    spans (normalizeEscapes t) = Escaped.spans t ∧
    normalizeEscapes (normalizeEscapes t) = normalizeEscapes t := by
  obtain ⟨htext, hpieces⟩ := Escaped.piecesFrom_requoted t [] [] [] rfl
  have hspans : spans (normalizeEscapes t) = Escaped.spans t := Escaped.spansFrom_normalizeFrom t 0
  have hall : pieces (normalizeEscapes t) = (Escaped.pieces t).map Piece.requoted := by
    rw [pieces, hspans]
    exact hpieces
  refine ⟨htext, ?_, hall, hspans, Escaped.normalizeFrom_idem valid_none t⟩
  rw [← hall, (cut_pieces _).flatMap_text]

end Literal

end Recast
