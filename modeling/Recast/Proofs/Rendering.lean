import Recast.Placeholder
import Recast.Proofs.LiteralState

/-!
# What is written for a parameter

A parameter outside literals becomes either one literal or one bare word: `render_cases`. Either way
the scanner is in the same state behind it as in front of it, and the same holds for a parameter
that becomes part of a literal; `state_written` states it for both.
-/

namespace Recast

/-! ### Bare words -/

/-- The characters of bare words and numerals. -/
def isBare (c : Char) : Bool := c.isAlphanum || c == '-' || c == '.'

theorem isQuote_of_isBare {c : Char} (h : isBare c = true) : Literal.isQuote c = false := by
  cases hq : Literal.isQuote c with
  | false => rfl
  | true =>
    have hc : c = '\'' ∨ c = '"' := by simpa [Literal.isQuote] using hq
    rcases hc with rfl | rfl <;> exact absurd h (by decide)

theorem isBare_of_mem_ofNat {n : Nat} : ∀ c ∈ Text.ofNat n, isBare c = true := by
  intro c hc
  have hdigit := Text.isDigit_of_mem_ofNat hc
  simp [isBare, Char.isAlphanum, hdigit]

theorem isBare_of_mem_ofInt {n : Int} : ∀ c ∈ Text.ofInt n, isBare c = true := by
  intro c hc
  rcases Text.isDigit_of_mem_ofInt hc with rfl | hdigit
  · decide
  · simp [isBare, Char.isAlphanum, hdigit]

theorem Binary64.isBare_of_mem_write {finite : Nat → Int → Text}
    (h : ∀ m e, ∀ c ∈ finite m e, isBare c = true) (x : Binary64) :
    ∀ c ∈ x.write finite, isBare c = true := by
  have hsign : ∀ negative, ∀ c ∈ sign negative, isBare c = true := by decide
  have hnan : ∀ c ∈ "NaN".toList, isBare c = true := by decide
  have hinf : ∀ c ∈ "inf".toList, isBare c = true := by decide
  intro c hc
  cases x with
  | nan => exact hnan c hc
  | infinite negative =>
    rcases List.mem_append.1 hc with hc | hc
    · exact hsign negative c hc
    · exact hinf c hc
  | finite negative m e =>
    rcases List.mem_append.1 hc with hc | hc
    · exact hsign negative c hc
    · exact h m e c hc

theorem Binary64.isBare_of_mem_fixed (places : Nat) (x : Binary64) :
    ∀ c ∈ x.fixed places, isBare c = true := by
  refine isBare_of_mem_write (fun m e c hc => ?_) x
  simp only [List.mem_append, List.mem_cons] at hc
  rcases hc with hc | rfl | hc | hc
  · exact isBare_of_mem_ofNat c hc
  · decide
  · rw [(List.mem_replicate.1 hc).2]
    decide
  · exact isBare_of_mem_ofNat c hc

/-! ### Literals -/

namespace Literal

theorem state_doubled {q : Char} (hq : isQuote q = true) (t : Text) :
    state (some q) (t.flatMap fun c => if c = q then [q, q] else [c]) = some q := by
  induction t with
  | nil => rfl
  | cons c t ih =>
    rw [List.flatMap_cons, state_append]
    by_cases hc : c = q
    · rw [if_pos hc, state_twice hq, state_nil, ih]
    · rw [if_neg hc, state_cons, next_some_of_ne hc, state_nil, ih]

theorem inside_doubled (q : Char) (t : Text) {u : Text} (h : Inside q u) :
    Inside q ((t.flatMap fun c => if c = q then [q, q] else [c]) ++ u) := by
  induction t with
  | nil => exact h
  | cons c t ih =>
    rw [List.flatMap_cons]
    by_cases hc : c = q
    · rw [if_pos hc]
      exact .doubled ih
    · rw [if_neg hc]
      exact .data hc ih

theorem state_escape (t : Text) : state (some '\'') (escape t) = some '\'' :=
  state_doubled (by decide) t

theorem state_quote (t : Text) : state none (quote t) = none := by
  rw [quote, state_cons, next_none_of_isQuote (by decide), state_append, state_escape]
  rfl

end Literal

namespace Param

/-- A parameter is written as a literal, or with characters of bare words. -/
theorem render_cases (p : Param) {spec : Spec} (h : spec ≠ .percent) :
    (∃ t, p.render spec false = Literal.quote t) ∨
      ∀ c ∈ p.render spec false, isBare c = true := by
  have hnull : ∀ c ∈ "NULL".toList, isBare c = true := by decide
  cases spec with
  | percent => exact absurd rfl h
  | text =>
    cases p with
    | null => exact .inr hnull
    | _ => exact .inl ⟨_, rfl⟩
  | int =>
    cases p with
    | null => exact .inr hnull
    | _ => exact .inr isBare_of_mem_ofInt
  | float =>
    cases p with
    | null => exact .inr hnull
    | _ => exact .inr (Binary64.isBare_of_mem_fixed places _)

/-- Inside a literal in single quotes a parameter keeps the literal open. -/
theorem state_render_inline (p : Param) (spec : Spec) :
    Literal.state (some '\'') (p.render spec true) = some '\'' := by
  have hbare {t : Text} (h : ∀ c ∈ t, isBare c = true) : Literal.state (some '\'') t = some '\'' :=
    Literal.Code.state_eq (Literal.valid_some (by decide)) fun c hc =>
      isQuote_of_isBare (h c hc)
  cases spec with
  | percent => rfl
  | text =>
    cases p with
    | null => rfl
    | _ => exact Literal.state_escape _
  | int =>
    have hint : p.render .int true = Text.ofInt p.asInt := by cases p <;> simp [render]
    rw [hint]
    exact hbare isBare_of_mem_ofInt
  | float =>
    have hfloat : p.render .float true = p.asFloat.fixed places := by cases p <;> simp [render]
    rw [hfloat]
    exact hbare (Binary64.isBare_of_mem_fixed places _)

end Param

namespace Placeholder

/-- The quote of the literal that a placeholder stands inside of. -/
def opened (p : Placeholder) : Option Char := if p.inline then some p.quote else none

/-- What is written in place of a placeholder leaves the scanner where it was. -/
theorem state_written {p : Placeholder} (hquote : Literal.isQuote p.quote = true)
    (hspec : p.spec ≠ .percent) (param : Param) :
    Literal.state p.opened (p.written param) = p.opened := by
  cases hinline : p.inline with
  | false =>
    have hopened : p.opened = none := by simp [opened, hinline]
    have hwritten : p.written param = param.render p.spec false := by simp [written, hinline]
    rw [hopened, hwritten]
    rcases param.render_cases hspec with ⟨t, ht⟩ | hbare
    · rw [ht, Literal.state_quote]
    · exact Literal.Code.state_eq Literal.valid_none fun c hc => isQuote_of_isBare (hbare c hc)
  | true =>
    have hopened : p.opened = some p.quote := by simp [opened, hinline]
    by_cases hdouble : p.quote = '"'
    · have hwritten : p.written param = (param.render p.spec true).flatMap
          fun c => if c = '"' then ['"', '"'] else [c] := by simp [written, hinline, hdouble]
      rw [hopened, hwritten, hdouble]
      exact Literal.state_doubled (by decide) _
    · have hsingle : p.quote = '\'' := by simpa [Literal.isQuote, hdouble] using hquote
      have hwritten : p.written param = param.render p.spec true := by
        simp [written, hinline, hsingle]
      rw [hopened, hwritten, hsingle]
      exact param.state_render_inline p.spec

end Placeholder

end Recast
