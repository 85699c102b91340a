import Mathlib
import Recast.Conversion

/-!
# Along the pipeline

How a statement becomes an outcome, in the form that proofs follow. The draft that goes into the
passes is `Draft.bound`; a property that every pass keeps holds of the draft that comes out
(`foldlM_keeps`), and `exists_of_convert` takes a conversion apart into the passes and what finishes
them.
-/

namespace Recast

variable {catalog : Catalog} {context : Context} {d e : Draft} {previous : Option Text} {p : Pass}
  {s : Statement}

/-! ### Computations that may fail -/

theorem bind_eq_ok {x : Except ε α} {f : α → Except ε β} {b : β} (h : x >>= f = .ok b) :
    ∃ a, x = .ok a ∧ f a = .ok b := by
  cases x with
  | error e => cases h
  | ok a => exact ⟨a, rfl, h⟩

theorem exists_of_toOption {x : Except ε α} {f : α → β} {b : β} (h : x.toOption.map f = some b) :
    ∃ a, x = .ok a ∧ f a = b := by
  cases x with
  | error e => cases h
  | ok a => exact ⟨a, rfl, Option.some.inj h⟩

theorem foldlM_cons_of_ok {f : β → α → Except ε β} {a : α} {b c : β} (h : f b a = .ok c)
    (l : List α) : (a :: l).foldlM f b = l.foldlM f c := by
  rw [List.foldlM_cons, h]
  rfl

theorem foldlM_append_of_ok {f : β → α → Except ε β} {l : List α} {b c : β}
    (h : l.foldlM f b = .ok c) (l' : List α) : (l ++ l').foldlM f b = l'.foldlM f c := by
  rw [List.foldlM_append, h]
  rfl

theorem foldlM_keeps {P : β → Prop} {f : β → α → Except ε β} {l : List α}
    (hstep : ∀ a ∈ l, ∀ b b', P b → f b a = .ok b' → P b') {b b' : β} (hb : P b)
    (h : l.foldlM f b = .ok b') : P b' := by
  induction l generalizing b with
  | nil =>
    cases h
    exact hb
  | cons a l ih =>
    obtain ⟨c, hc, h⟩ := bind_eq_ok h
    exact ih (fun x hx => hstep x (List.mem_cons_of_mem a hx)) (hstep a (by simp) b c hb hc) h

theorem foldlM_succeeds {P : β → Prop} {f : β → α → Except ε β} {l : List α}
    (hstep : ∀ a ∈ l, ∀ b, P b → ∃ b', f b a = .ok b' ∧ P b') {b : β} (hb : P b) :
    ∃ b', l.foldlM f b = .ok b' ∧ P b' := by
  induction l generalizing b with
  | nil => exact ⟨b, rfl, hb⟩
  | cons a l ih =>
    obtain ⟨c, hc, hP⟩ := hstep a (by simp) b hb
    rw [foldlM_cons_of_ok hc]
    exact ih (fun x hx => hstep x (List.mem_cons_of_mem a hx)) hP

/-! ### Taking a conversion apart -/

/-- The draft of a statement as it goes into the passes, its parameters in place. -/
def Draft.bound (context : Context) (catalog : Catalog) (s : Statement) (previous : Option Text) :
    Draft :=
  let s := { s with text := Literal.normalizeEscapes s.text }
  { ofStatement s previous context.settings.verify catalog with text := s.boundText.trim }

theorem Pass.exists_of_run (h : Pass.run context d p = .ok e) : ∃ f, p.apply context d = .ok f ∧
      (e = f ∨ e = f.record p d.text f.text) := by
  obtain ⟨f, hf, h⟩ := bind_eq_ok h
  refine ⟨f, hf, ?_⟩
  cases h
  split
  · exact .inl rfl
  · exact .inr rfl

theorem Pass.exists_run_eq (h : p.apply context d = .ok e) :
    ∃ trace, Pass.run context d p = .ok { e with trace := trace } := by
  by_cases htext : e.text = d.text
  · refine ⟨e.trace, ?_⟩
    rw [Pass.run, h]
    exact congrArg Except.ok (if_pos htext)
  · refine ⟨e.trace ++ [⟨p, d.text, e.text⟩], ?_⟩
    rw [Pass.run, h]
    exact congrArg Except.ok (if_neg htext)

/-- How the draft `e` and its main statements come from the draft `d` that the pipeline has made. -/
inductive Finished (context : Context) (d : Draft) : Draft → List Text → Prop
  /-- An INSERT loses its clause for duplicate keys and is split. -/
  | insert {d' : Draft} : d.kind = .insert → Pass.run context d .onDuplicateKey = .ok d' →
    Finished context d (d'.splitRows.1.verified d'.splitRows.2).1
    (d'.splitRows.1.verified d'.splitRows.2).2
  | other : d.kind ≠ .insert → Finished context d (d.verified [d.text]).1 (d.verified [d.text]).2

/-- The two ways to convert a statement: with serialized blobs, and without. -/
theorem exists_of_convert {catalog' : Catalog} {o : Outcome}
    (h : convert context catalog s previous = .ok (o, catalog')) :
    (s.isSerialized ∧ ∃ d e, Pass.run context (.bound context catalog s previous) .general = .ok d ∧
      ((d.kind = .insert ∧ Pass.run context d .onDuplicateKey = .ok e) ∨ d.kind ≠ .insert ∧ e = d) ∧
      o = e.outcome [e.text] ∧ catalog' = e.catalog) ∨
    (s.isSerialized = false ∧ ∃ d e main,
      Pass.pipeline.foldlM (Pass.run context) (.bound context catalog s previous) = .ok d ∧
      Finished context d e main ∧ o = e.outcome main ∧ catalog' = e.catalog) := by
  rw [convert] at h
  split at h
  · next hyes =>
    obtain ⟨d, hd, h⟩ := bind_eq_ok h
    split at h
    · next hkind =>
      obtain ⟨e, he, h⟩ := bind_eq_ok h
      cases h
      exact .inl ⟨hyes, d, e, hd, .inl ⟨hkind, he⟩, rfl, rfl⟩
    · next hkind =>
      cases h
      exact .inl ⟨hyes, d, d, hd, .inr ⟨hkind, rfl⟩, rfl, rfl⟩
  · next hno =>
    have hno : s.isSerialized = false := Bool.eq_false_iff.2 hno
    obtain ⟨d, hd, h⟩ := bind_eq_ok h
    split at h
    · next hkind =>
      obtain ⟨d', hd', h⟩ := bind_eq_ok h
      cases h
      exact .inr ⟨hno, d, _, _, hd, .insert hkind hd', rfl, rfl⟩
    · next hkind =>
      cases h
      exact .inr ⟨hno, d, _, _, hd, .other hkind, rfl, rfl⟩

/-- The passes made, what remains of a statement that inserts nothing is its verification. -/
theorem convert_of_pipeline (hserialized : s.isSerialized = false)
    (hd : Pass.pipeline.foldlM (Pass.run context) (.bound context catalog s previous) = .ok d)
    (hkind : d.kind ≠ .insert) : convert context catalog s previous
      = .ok ((d.verified [d.text]).1.outcome (d.verified [d.text]).2,
        (d.verified [d.text]).1.catalog) := by
  have hplain : (Draft.bound context catalog s previous).serialized = false := hserialized
  show (if (Draft.bound context catalog s previous).serialized then _ else _ : Except Fault _) = _
  rw [hplain, if_neg (by decide)]
  show Except.bind
    (Pass.pipeline.foldlM (Pass.run context) (.bound context catalog s previous)) _ = _
  rw [hd]
  exact if_neg hkind

/-- A statement with blobs goes through two passes at most. -/
theorem convert_of_serialized (hserialized : s.isSerialized)
    (hd : Pass.run context (.bound context catalog s previous) .general = .ok d)
    (he : (if d.kind = .insert then Pass.run context d .onDuplicateKey else .ok d) = .ok e) :
    convert context catalog s previous = .ok (e.outcome [e.text], e.catalog) := by
  have hyes : (Draft.bound context catalog s previous).serialized := hserialized
  show (if (Draft.bound context catalog s previous).serialized then _ else _ : Except Fault _) = _
  rw [if_pos hyes]
  show Except.bind (Pass.run context (.bound context catalog s previous) .general) _ = _
  rw [hd]
  show (if d.kind = .insert then _ else _ : Except Fault _) = _
  by_cases hkind : d.kind = .insert
  · rw [if_pos hkind] at he ⊢
    show Except.bind (Pass.run context d .onDuplicateKey) _ = _
    rw [he]
    rfl
  · rw [if_neg hkind] at he ⊢
    cases he
    rfl

end Recast
