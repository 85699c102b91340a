import Recast.Proofs.ReadBack
import Recast.Proofs.Restoration

/-!
# What binding leaves in place

A template is a list of stretches (`Stretch.Threaded`): single characters that binding keeps, and
placeholders that it fills. What fills a placeholder shows only few characters outside literals
(`isFill`): no blank, no comma, no parenthesis, no T and no O. So such a character of the bound text
stands in the template (`Threaded.exists_cut_results`), a character that no placeholder is written
with stands in the bound text (`Threaded.exists_cut`), and both texts show the same blanks, commas
and parentheses (`Threaded.filter_mask`).
-/

namespace Recast

open Literal Nesting List Text

variable {a b r t w : Text} {c : Char} {p : Placeholder}

/-! ### What the outline shows -/

/-- Inside a literal a text in which its quote is doubled shows nothing. -/
theorem Literal.outline_doubled {q : Char} (hq : isQuote q) (t : Text) :
    ∀ c ∈ outline (some q) (t.flatMap fun c => if c = q then [q, q] else [c]), c = filler :=
  outline_inside hq (by simpa using inside_doubled q t .nil)

/-! ### What is written for a parameter -/

def isNumeral (c : Char) : Bool := c.isDigit || c == '-' || c == '.'

theorem isNumeral_of_mem_ofNat {n : Nat} : ∀ c ∈ ofNat n, isNumeral c := by
  intro c hc
  have hdigit := isDigit_of_mem_ofNat hc
  simp [isNumeral, hdigit]

theorem isNumeral_of_mem_ofInt {n : Int} : ∀ c ∈ ofInt n, isNumeral c := by
  intro c hc
  rcases isDigit_of_mem_ofInt hc with rfl | hdigit
  · decide
  · simp [isNumeral, hdigit]

/-- The words among what is written for parameters. -/
def fillWords : List Text := ["NULL", "NaN", "inf", "-inf"]

/-- A number with fixed places is a word or made of numerals. -/
theorem Binary64.fixed_cases (places : Nat) (x : Binary64) :
    x.fixed places ∈ fillWords ∨ ∀ c ∈ x.fixed places, isNumeral c := by
  cases x with
  | nan =>
    refine .inl ?_
    show ("NaN" : Text) ∈ fillWords
    decide
  | infinite negative =>
    refine .inl ?_
    show sign negative ++ ("inf" : Text) ∈ fillWords
    cases negative <;> decide
  | finite negative m e =>
    refine .inr fun c hc => ?_
    have hsign : ∀ c ∈ sign negative, isNumeral c := by cases negative <;> decide
    simp only [fixed, write, mem_append, mem_cons] at hc
    rcases hc with hc | hc | rfl | hc | hc
    · exact hsign c hc
    · exact isNumeral_of_mem_ofNat c hc
    · decide
    · rw [(mem_replicate.1 hc).2]
      decide
    · exact isNumeral_of_mem_ofNat c hc

/-- A parameter is written as a literal, a word or a numeral. -/
theorem Param.render_eq (p : Param) {spec : Spec} (h : spec ≠ .percent) :
    (∃ t, p.render spec false = quote t) ∨ p.render spec false ∈ fillWords ∨
      ∀ c ∈ p.render spec false, isNumeral c := by
  cases spec with
  | percent => exact absurd rfl h
  | text =>
    cases p with
    | null => exact .inr (.inl (by decide))
    | _ => exact .inl ⟨_, rfl⟩
  | int =>
    cases p with
    | null => exact .inr (.inl (by decide))
    | _ => exact .inr (.inr isNumeral_of_mem_ofInt)
  | float =>
    cases p with
    | null => exact .inr (.inl (by decide))
    | _ => exact .inr (Binary64.fixed_cases places _)

/-- The characters that a filled placeholder may show outside literals, and the filler. -/
def isFill (c : Char) : Bool := isNumeral c || ("NULaifn%?sdFx" : Text).contains c

theorem isFill_of_isBlank (h : isBlank c) : isFill c = false :=
  of_isBlank (P := fun c => isFill c = false) h (by decide)

theorem toLower_of_isNumeral (h : isNumeral c) : c.toLower = c :=
  of_ascii (P := fun c => isNumeral c → c.toLower = c) c (by decide) (fun _ _ h _ _ => h) h

theorem toLower_of_isFill (h : isFill c) : c.toLower ≠ 't' ∧ c.toLower ≠ 'o' := by
  rcases Bool.or_eq_true_iff.1 h with hnumeral | hmem
  · rw [toLower_of_isNumeral hnumeral]
    constructor <;> rintro rfl <;> cases hnumeral
  · have hall : ∀ c ∈ ("NULaifn%?sdFx" : Text), c.toLower ≠ 't' ∧ c.toLower ≠ 'o' := by decide
    exact hall c (elem_iff.1 hmem)

/-- A text that does not end in the first letters of INTO. -/
def Mute (r : Text) : Prop := ∀ u c, r = u ++ [c] → c.toLower ≠ 'i' ∧
  (c.toLower = 'n' → ∃ v d, u = v ++ [d] ∧ d.toLower ≠ 'i')

theorem mute_of_last (h : ∀ c ∈ r.getLast?, c.toLower ≠ 'i' ∧ c.toLower ≠ 'n') : Mute r := by
  rintro u c rfl
  obtain ⟨hi, hn⟩ := h c (by simp)
  exact ⟨hi, fun hlower => absurd hlower hn⟩

theorem mute_of_isNumeral (h : ∀ c ∈ r, isNumeral c) : Mute r := by
  refine mute_of_last fun c hc => ?_
  have hc := h c (mem_of_getLast? hc)
  rw [toLower_of_isNumeral hc]
  constructor <;> rintro rfl <;> cases hc

theorem mute_of_mem_fillWords (h : w ∈ fillWords) : Mute w := by
  simp only [fillWords, mem_cons, not_mem_nil, or_false] at h
  rcases h with rfl | rfl | rfl | rfl
  · exact mute_of_last (by decide)
  · rintro u c hu
    have hu : ['N', 'a'] ++ ['N'] = u ++ [c] := hu
    obtain ⟨rfl, hc⟩ := append_inj' hu rfl
    obtain rfl : 'N' = c := singleton_inj.1 hc
    exact ⟨by decide, fun _ => ⟨['N'], 'a', rfl, by decide⟩⟩
  · exact mute_of_last (by decide)
  · exact mute_of_last (by decide)

namespace Placeholder

/-! ### The outline of a filled placeholder -/

theorem Spells.of_percent {source : Text} (h : p.Spells source) (hspec : p.takesParam = false) :
    source = ['%', '%'] := by
  have hspec : p.spec = .percent := by simpa [takesParam] using hspec
  cases h with
  | mark htext =>
    simp [hspec] at htext
  | @percent c hc =>
    rw [hspec] at hc
    unfold spec? at hc
    split at hc <;> cases hc
    rfl
  | literal _ htext =>
    simp [hspec] at htext

theorem Spells.ne_nil {source : Text} (h : p.Spells source) : source ≠ [] := by
  cases h <;> simp

/-- Every placeholder is written with a percent sign or a question mark, and starts with one of them
or with a quote. -/
theorem Spells.starts {source : Text} (h : p.Spells source) :
    ('%' ∈ source ∨ '?' ∈ source) ∧ ∃ c r, source = c :: r ∧ c ∈ ['%', '?', '\'', '"'] := by
  cases h with
  | mark => exact ⟨.inr (by simp), '?', [], rfl, by decide⟩
  | percent => exact ⟨.inl (by simp), '%', _, rfl, by decide⟩
  | @literal q hq =>
    refine ⟨.inl (by simp), q, _, rfl, ?_⟩
    rcases isQuote_iff.1 hq with rfl | rfl <;> decide

theorem mute_of_marks (h : ∀ c ∈ r, c ∈ marks) : Mute r := by
  refine mute_of_last fun c hc => ?_
  have hall : ∀ c ∈ marks, c.toLower ≠ 'i' ∧ c.toLower ≠ 'n' := by decide
  exact hall c (h c (mem_of_getLast? hc))

/-- What fills a placeholder shows few characters in its outline. -/
theorem isFill_of_mem_outline (h : ∀ c ∈ t, isQuote c = false → isFill c) (s : Option Char) :
    ∀ c ∈ outline s t, isFill c := by
  induction t generalizing s with
  | nil => simp
  | cons x t ih =>
    have hrest := fun s => ih (forall_mem_cons.1 h).2 s
    intro c hc
    cases s with
    | none =>
      rcases mem_cons.1 hc with rfl | hc
      · cases hx : isQuote x with
        | true =>
          rw [if_pos rfl]
          decide
        | false =>
          exact h x (by simp) hx
      · exact hrest _ c hc
    | some q =>
      rcases mem_cons.1 hc with rfl | hc
      · decide
      · exact hrest _ c hc

theorem inline_of_opened (h : p.opened = none) : p.inline = false := by
  cases hinline : p.inline with
  | false => rfl
  | true => simp [opened, hinline] at h

theorem written_of_not_inline (h : p.inline = false) (param : Param) :
    p.written param = param.render p.spec false := by
  simp [written, h]

/-- What is written for a parameter shows no other characters than these. -/
theorem isFill_of_mem_written (hquote : isQuote p.quote) (hspec : p.spec ≠ .percent)
    (param : Param) : ∀ c ∈ outline p.opened (p.written param), isFill c := by
  cases hinline : p.inline with
  | false =>
    have hopened : p.opened = none := by simp [opened, hinline]
    rw [hopened, written_of_not_inline hinline]
    rcases param.render_eq hspec with ⟨t, ht⟩ | hword | hnumeral
    · rw [ht]
      intro c hc
      rcases mem_cons.1 hc with rfl | hc
      · decide
      · have hq : isQuote '\'' := rfl
        rw [next_none_of_isQuote hq, outline_append] at hc
        have hescape : state (some '\'') (escape t) = some '\'' := state_escape t
        rcases mem_append.1 hc with hc | hc
        · rw [outline_doubled hq t c hc]
          decide
        · rw [hescape] at hc
          rcases mem_cons.1 hc with rfl | hc
          · decide
          · simp at hc
    · exact isFill_of_mem_outline (fun c hc _ =>
        (by decide : ∀ w ∈ fillWords, ∀ c ∈ w, isFill c) _ hword c hc) none
    · exact isFill_of_mem_outline (fun c hc _ => by simp [isFill, hnumeral c hc]) none
  | true =>
    have hopened : p.opened = some p.quote := by simp [opened, hinline]
    rw [hopened, written_eq hinline hquote hspec]
    intro c hc
    rw [outline_doubled hquote _ c hc]
    decide

namespace Stretch

/-- The template that the stretches make up. -/
def sources (parts : List Stretch) : Text := parts.flatMap source

/-- The bound text that the stretches make up. -/
def results (parts : List Stretch) : Text := parts.flatMap result

@[simp]
theorem sources_cons (x : Stretch) (parts : List Stretch) :
    sources (x :: parts) = x.source ++ sources parts := rfl

@[simp]
theorem results_cons (x : Stretch) (parts : List Stretch) :
    results (x :: parts) = x.result ++ results parts := rfl

@[simp]
theorem sources_append (a b : List Stretch) : sources (a ++ b) = sources a ++ sources b :=
  flatMap_append

@[simp]
theorem results_append (a b : List Stretch) : results (a ++ b) = results a ++ results b :=
  flatMap_append

/-- A text of which every character is kept. -/
def keeps (t : Text) : List Stretch := t.map fun c => .kept [c]

theorem keeps_cons (c : Char) (t : Text) : keeps (c :: t) = .kept [c] :: keeps t := rfl

@[simp]
theorem sources_keeps (t : Text) : sources (keeps t) = t := by
  induction t with
  | nil => rfl
  | cons c t ih =>
    show [c] ++ sources (keeps t) = _
    rw [ih]
    rfl

@[simp]
theorem results_keeps (t : Text) : results (keeps t) = t := by
  induction t with
  | nil => rfl
  | cons c t ih =>
    show [c] ++ results (keeps t) = _
    rw [ih]
    rfl

/-! ### What fills a placeholder -/

section

variable {s : Option Char} {p : Placeholder} {param : Option Param} {src : Text}

theorem result_none (p : Placeholder) (src : Text) : (filled p none src).result = src ∨
    (filled p none src).result = ['%'] := by
  rw [result]
  split
  · exact .inl rfl
  · exact .inr rfl

theorem isFill_of_mem_source (h : p.Spells src) : ∀ c ∈ outline s src, isFill c :=
  isFill_of_mem_outline (fun c hc =>
    (by decide : ∀ c ∈ marks, isQuote c = false → isFill c) c (h.mem_marks c hc)) s

theorem isFill_of_mem_result (h : p.Spells src) (hquote : isQuote p.quote)
    (htakes : param.isSome → p.takesParam) :
    ∀ c ∈ outline p.opened (filled p param src).result, isFill c := by
  cases param with
  | some param =>
    have hspec : p.spec ≠ .percent := by simpa [takesParam] using htakes rfl
    exact isFill_of_mem_written hquote hspec param
  | none =>
    rcases result_none p src with heq | heq
    · rw [heq]
      exact isFill_of_mem_source h
    · rw [heq]
      exact isFill_of_mem_outline (by decide) _

/-- Outside literals no blank stands at either end of what fills a placeholder. -/
theorem edges_of_code (h : p.Spells src) (hopened : p.opened = none)
    (htakes : param.isSome → p.takesParam) :
    (∀ c, (filled p param src).result.head? = some c → isBlank c = false) ∧
      ∀ c, (filled p param src).result.getLast? = some c → isBlank c = false := by
  have hmarks : ∀ c ∈ marks, isBlank c = false := by decide
  cases param with
  | some param =>
    have hspec : p.spec ≠ .percent := by simpa [takesParam] using htakes rfl
    rw [result, written_of_not_inline (inline_of_opened hopened)]
    exact ⟨(entry_render param hspec).first, (entry_render param hspec).last⟩
  | none =>
    have hall : ∀ c ∈ (filled p none src).result, isBlank c = false := by
      intro c hc
      rcases result_none p src with heq | heq
      · exact hmarks c (h.mem_marks c (heq ▸ hc))
      · rw [heq] at hc
        rw [mem_singleton.1 hc]
        decide
    exact ⟨fun c hc => hall c (mem_of_mem_head? hc), fun c hc => hall c (mem_of_getLast? hc)⟩

/-- Outside literals something stands in place of every placeholder, and it does not end in the
first letters of INTO. -/
theorem result_of_code (h : p.Spells src) (hopened : p.opened = none)
    (htakes : param.isSome → p.takesParam) :
    (filled p param src).result ≠ [] ∧ Mute (filled p param src).result := by
  cases param with
  | some param =>
    have hspec : p.spec ≠ .percent := by simpa [takesParam] using htakes rfl
    rw [result, written_of_not_inline (inline_of_opened hopened)]
    refine ⟨render_ne_nil param hspec, ?_⟩
    rcases param.render_eq hspec with ⟨t, ht⟩ | hword | hnumeral
    · rw [ht]
      refine mute_of_last fun c hc => ?_
      rw [Literal.quote, ← cons_append, getLast?_concat] at hc
      cases hc
      decide
    · exact mute_of_mem_fillWords hword
    · exact mute_of_isNumeral hnumeral
  | none =>
    rcases result_none p src with heq | heq
    · rw [heq]
      exact ⟨h.ne_nil, mute_of_marks h.mem_marks⟩
    · rw [heq]
      exact ⟨by simp, mute_of_last (by decide)⟩

end

/-! ### Cutting stretches -/

namespace Threaded

variable {s : Option Char} {parts : List Stretch}

theorem state_results (h : Threaded s parts) :
    state s (results parts) = state s (sources parts) := by
  have hsteady : Steady s (parts ++ []) := by
    rw [append_nil]
    exact h.steady
  exact hsteady.state_eq.symm

theorem append {a b : List Stretch} (h : Threaded s (a ++ b)) :
    Threaded s a ∧ Threaded (state s (sources a)) b := by
  induction a generalizing s with
  | nil => exact ⟨.nil s, h⟩
  | cons x a ih =>
    cases h with
    | kept h =>
      obtain ⟨ha, hb⟩ := ih h
      exact ⟨.kept ha, hb⟩
    | filled hspells hquote hopened hstate htakes h =>
      obtain ⟨ha, hb⟩ := ih h
      refine ⟨.filled hspells hquote hopened hstate htakes ha, ?_⟩
      rwa [sources_cons, state_append, source, hstate]

/-- A character that no placeholder is written with is kept. -/
theorem exists_cut (h : Threaded s parts) (ht : sources parts = a ++ c :: b) (hc : c ∉ marks) :
    ∃ front back, parts = front ++ Stretch.kept [c] :: back ∧ sources front = a ∧
      sources back = b := by
  induction h generalizing a with
  | nil => simp [sources] at ht
  | @kept s x rest _ ih =>
    cases a with
    | nil =>
      obtain ⟨rfl, rfl⟩ := cons.inj ht
      exact ⟨[], rest, rfl, rfl, rfl⟩
    | cons y a =>
      obtain ⟨rfl, hrest⟩ := cons.inj ht
      obtain ⟨front, back, rfl, rfl, rfl⟩ := ih hrest
      exact ⟨Stretch.kept [x] :: front, back, rfl, rfl, rfl⟩
  | @filled s p param src rest hspells _ _ _ _ _ ih =>
    rcases append_cons_eq_append ht.symm with ⟨w, hw, -⟩ | ⟨w, rfl, hrest⟩
    · exact absurd (hspells.mem_marks c (by rw [show src = a ++ c :: w from hw]; simp)) hc
    · obtain ⟨front, back, rfl, rfl, rfl⟩ := ih hrest
      exact ⟨Stretch.filled p param src :: front, back, rfl, rfl, rfl⟩

/-- Characters that no placeholder starts with are kept, if they are not inside of one. -/
theorem exists_keeps (h : Threaded s parts) (ht : sources parts = w ++ b)
    (hw : ∀ c ∈ w, c ∉ ['%', '?', '\'', '"']) :
    ∃ back, parts = keeps w ++ back ∧ sources back = b := by
  induction w generalizing s parts with
  | nil => exact ⟨parts, rfl, ht⟩
  | cons x w ih =>
    cases h with
    | nil => cases ht
    | kept h =>
      obtain ⟨rfl, hrest⟩ := cons.inj ht
      obtain ⟨back, rfl, hback⟩ := ih h hrest (forall_mem_cons.1 hw).2
      exact ⟨back, rfl, hback⟩
    | filled hspells =>
      obtain ⟨-, c, r, hsrc, hstart⟩ := hspells.starts
      rw [sources_cons, hsrc] at ht
      obtain ⟨rfl, -⟩ := cons.inj ht
      exact absurd hstart (hw c (by simp))

theorem eq_keeps (h : Threaded s parts) (hpercent : '%' ∉ sources parts)
    (hmark : '?' ∉ sources parts) : parts = keeps (sources parts) := by
  induction h with
  | nil => rfl
  | kept _ ih =>
    have hrest := ih (fun hmem => hpercent (by simp [hmem])) fun hmem => hmark (by simp [hmem])
    conv => lhs; rw [hrest]
    rfl
  | filled hspells =>
    rcases hspells.starts.1 with hmem | hmem
    · exact absurd (mem_append_left _ hmem) hpercent
    · exact absurd (mem_append_left _ hmem) hmark

/-- A character of the code of the bound text that fills no placeholder stands in the template. -/
theorem exists_cut_results (h : Threaded s parts) (ht : results parts = a ++ c :: b)
    (ha : state s a = none) (hquote : isQuote c = false) (hc : isFill c = false) :
    ∃ front back, parts = front ++ Stretch.kept [c] :: back ∧ results front = a ∧
      results back = b := by
  induction h generalizing a with
  | nil => simp [results] at ht
  | @kept s x rest _ ih =>
    cases a with
    | nil =>
      obtain ⟨rfl, rfl⟩ := List.cons.inj ht
      exact ⟨[], rest, rfl, rfl, rfl⟩
    | cons y a =>
      obtain ⟨rfl, hrest⟩ := List.cons.inj ht
      obtain ⟨front, back, rfl, rfl, rfl⟩ := ih hrest ha
      exact ⟨Stretch.kept [x] :: front, back, rfl, rfl, rfl⟩
  | @filled s p param src rest hspells hq hopened hstate htakes _ ih =>
    rcases append_cons_eq_append ht.symm with ⟨w, hw, -⟩ | ⟨w, rfl, hrest⟩
    · -- inside what fills the placeholder the character would be one that may stand there
      subst hopened
      have hmem : c ∈ outline p.opened (Stretch.filled p param src).result := by
        rw [hw, outline_append, ha, outline, hquote]
        simp
      simp [isFill_of_mem_result hspells hq htakes c hmem] at hc
    · subst hopened
      rw [state_append, state_result hq htakes hstate] at ha
      obtain ⟨front, back, rfl, rfl, rfl⟩ := ih hrest ha
      exact ⟨Stretch.filled p param src :: front, back, rfl, rfl, rfl⟩

/-- Both texts show the same of what fills no placeholder. -/
theorem filter_outline (h : Threaded s parts) {p : Char → Bool}
    (hp : ∀ c, isFill c = true → p c = false) :
    (outline s (results parts)).filter p = (outline s (sources parts)).filter p := by
  have hnone {t : Text} (ht : ∀ c ∈ t, isFill c = true) : t.filter p = [] := by
    rw [filter_eq_nil_iff]
    intro c hc
    simp [hp c (ht c hc)]
  induction h with
  | nil => rfl
  | @kept s c rest _ ih =>
    show (outline s ([c] ++ results rest)).filter p = (outline s ([c] ++ sources rest)).filter p
    rw [outline_append, outline_append, filter_append, filter_append]
    exact congrArg _ ih
  | @filled s q param src rest hspells hquote hopened hstate htakes _ ih =>
    subst hopened
    have hstate' := state_result hquote htakes hstate
    rw [results_cons, sources_cons, outline_append, outline_append, hstate', source, hstate,
      filter_append, filter_append, ih, hnone (isFill_of_mem_result hspells hquote htakes),
      hnone (isFill_of_mem_source hspells)]

theorem filter_mask (h : Threaded none parts) {p : Char → Bool}
    (hp : ∀ c, isFill c = true → p c = false) (hquote : ∀ q, isQuote q = true → p q = false) :
    (mask (results parts)).filter p = (mask (sources parts)).filter p := by
  have hfiller : p filler = false := hp filler (by decide)
  rw [Literal.filter_mask hfiller hquote, Literal.filter_mask hfiller hquote, h.filter_outline hp]

/-! ### Reading the bound text -/

theorem size_source_pos {x : Stretch} {rest : List Stretch} (h : Threaded s (x :: rest)) :
    0 < x.source.size := by
  cases h with
  | kept => exact size_pos (by simp [source])
  | filled hspells => exact size_pos hspells.ne_nil

/-- Stretches are told apart by where they start. -/
theorem append_inj {a b a' b' : List Stretch} (h : Threaded s (a ++ b)) (heq : a ++ b = a' ++ b')
    (hsize : (sources a).size = (sources a').size) : a = a' ∧ b = b' := by
  have hnil {s : Option Char} {m rest : List Stretch} (hm : Threaded s (m ++ rest))
      (hsize : (sources m).size = 0) : m = [] := by
    cases m with
    | nil => rfl
    | cons x m =>
      have hpos := size_source_pos hm
      rw [sources_cons, size_append] at hsize
      omega
  rcases append_eq_append_iff.1 heq with ⟨m, rfl, rfl⟩ | ⟨m, rfl, rfl⟩
  · rw [sources_append, size_append] at hsize
    obtain rfl := hnil h.append.2 (by omega)
    simp
  · rw [sources_append, size_append] at hsize
    rw [append_assoc] at h
    obtain rfl := hnil h.append.2 (by omega)
    simp

theorem exists_split (h : Threaded s parts) (ht : sources parts = a ++ b)
    (hb : ∀ c, b.head? = some c → c ∉ marks) :
    ∃ front back, parts = front ++ back ∧ sources front = a ∧ sources back = b := by
  cases b with
  | nil => exact ⟨parts, [], by simp, by simpa using ht, rfl⟩
  | cons c b =>
    obtain ⟨front, back, rfl, rfl, rfl⟩ := h.exists_cut ht (hb c rfl)
    exact ⟨front, Stretch.kept [c] :: back, rfl, rfl, rfl⟩

theorem eq_nil_of_results (h : Threaded none parts) (hnil : results parts = []) : parts = [] := by
  cases h with
  | nil => rfl
  | kept => cases hnil
  | filled hspells _ hopened _ htakes =>
    exact absurd (append_eq_nil_iff.1 hnil).1 (result_of_code hspells hopened htakes).1

/-- Code at the start of the bound text that fills no placeholder is kept. -/
theorem exists_keeps_results (h : Threaded none parts) (ht : results parts = w ++ b)
    (hw : ∀ c ∈ w, isQuote c = false ∧ isFill c = false) :
    ∃ back, parts = keeps w ++ back ∧ results back = b := by
  induction w generalizing parts with
  | nil => exact ⟨parts, rfl, ht⟩
  | cons c w ih =>
    obtain ⟨hquote, hfill⟩ := hw c (by simp)
    obtain ⟨front, back, rfl, hfront, hback⟩ :=
      h.exists_cut_results (a := []) ht rfl hquote hfill
    obtain rfl := h.append.1.eq_nil_of_results hfront
    cases h with
    | kept h =>
      rw [next_none_of_not_isQuote hquote] at h
      obtain ⟨rest, rfl, hrest⟩ := ih h hback (forall_mem_cons.1 hw).2
      exact ⟨rest, rfl, hrest⟩

/-- Where no literal is open at the end, what stands last is kept or is a placeholder in code. -/
theorem last_cases {x : Stretch} (h : Threaded none (front ++ [x]))
    (hclosed : Closed (sources (front ++ [x]))) :
    (∃ d, x = Stretch.kept [d]) ∨ ∃ p param src, x = Stretch.filled p param src ∧ p.Spells src ∧
      p.opened = none ∧ (param.isSome → p.takesParam) := by
  have hlast := h.append.2
  rw [Closed, sources_append, state_append] at hclosed
  generalize state none (sources front) = s at hlast hclosed
  cases hlast with
  | @kept _ d => exact .inl ⟨d, rfl⟩
  | @filled _ p param src _ hspells _ hopened hstate htakes _ =>
    have hnone : s = none := by
      rw [← hclosed]
      simpa [sources, source] using hstate.symm
    exact .inr ⟨p, param, src, rfl, hspells, hopened.trans hnone, htakes⟩

/-- A character behind which no literal is open is kept, if nothing that fills a placeholder can end
there. -/
theorem exists_last (h : Threaded none parts) (hclosed : Closed (results parts))
    (ht : results parts = a ++ [c]) (hmute : ∀ v r : Text, a = v ++ r → ¬ Mute (r ++ [c])) :
    ∃ front, parts = front ++ [Stretch.kept [c]] ∧ results front = a := by
  rcases List.eq_nil_or_concat parts with rfl | ⟨front, x, rfl⟩
  · cases a <;> cases ht
  · rw [List.concat_eq_append] at h hclosed ht ⊢
    rw [Closed, h.state_results] at hclosed
    rw [results_append] at ht
    rcases h.last_cases hclosed with ⟨d, rfl⟩ | ⟨p, param, src, rfl, hspells, hopened, htakes⟩
    · obtain ⟨rfl, hd⟩ := List.append_inj' ht rfl
      obtain rfl : d = c := List.singleton_inj.1 hd
      exact ⟨front, rfl, rfl⟩
    · obtain ⟨hne, hm⟩ := result_of_code hspells hopened htakes
      have hend : results front ++ (Stretch.filled p param src).result = a ++ [c] := by
        simpa [results] using ht
      rcases List.eq_nil_or_concat (Stretch.filled p param src).result with hnil | ⟨r, d, hr⟩
      · exact absurd hnil hne
      · rw [hr, List.concat_eq_append] at hm hend
        rw [← List.append_assoc] at hend
        obtain ⟨ha, hd⟩ := List.append_inj' hend rfl
        obtain rfl := List.singleton_inj.1 hd
        exact absurd hm (hmute _ r ha.symm)

/-- The letters of INTO in the code of the bound text stand in the template. -/
theorem exists_into (h : Threaded none parts) {u : Text} (ht : results parts = u ++ (w ++ r))
    (hu : Closed u) (hw : Text.lower w = Text.lower ("INTO" : Text)) :
    ∃ front back, parts = front ++ (keeps w ++ back) ∧ results front = u ∧ results back = r := by
  obtain ⟨i, w, rfl, hi, hw⟩ := List.map_eq_cons_iff.1 hw
  obtain ⟨n, w, rfl, hn, hw⟩ := List.map_eq_cons_iff.1 hw
  obtain ⟨t, w, rfl, htt, hw⟩ := List.map_eq_cons_iff.1 hw
  obtain ⟨o, w, rfl, ho, hw⟩ := List.map_eq_cons_iff.1 hw
  obtain rfl := List.map_eq_nil_iff.1 hw
  have hquote {c d : Char} (hc : c.toLower = d) (hd : d ∉ ['\'', '"']) : isQuote c = false := by
    by_contra hq
    rcases isQuote_iff.1 (by simpa using hq) with
      rfl | rfl <;> exact absurd (by rw [← hc]; decide) hd
  have hfill {c : Char} (hc : c.toLower = 't' ∨ c.toLower = 'o') : isFill c = false := by
    cases hf : isFill c with
    | false => rfl
    | true =>
      obtain ⟨hnt, hno⟩ := toLower_of_isFill hf
      rcases hc with hc | hc
      · exact absurd hc hnt
      · exact absurd hc hno
  have hplain : Closed [i, n] := by
    refine Code.closed fun c hc => ?_
    rcases mem_pair.1 hc with rfl | rfl
    · exact hquote hi (by decide)
    · exact hquote hn (by decide)
  -- T and O are kept since nothing that fills a placeholder shows them
  obtain ⟨front, back, rfl, hfront, hback⟩ := h.exists_cut_results (a := u ++ [i, n]) (c := t)
    (by simpa using ht) (hu.append hplain) (hquote htt (by decide)) (hfill (.inl htt))
  have hbehind : Threaded none back := by
    have hrest := h.append.2
    rw [← h.append.1.state_results, hfront, hu.append hplain] at hrest
    cases hrest with
    | kept hrest => rwa [next_none_of_not_isQuote (hquote htt (by decide))] at hrest
  obtain ⟨rest, rfl, hrest⟩ := hbehind.exists_keeps_results (w := [o]) hback (by
    intro c hc
    rw [mem_singleton.1 hc]
    exact ⟨hquote ho (by decide), hfill (.inr ho)⟩)
  -- and so are I and N, since nothing that fills a placeholder ends in them
  obtain ⟨front, rfl, hfront'⟩ := h.append.1.exists_last (a := u ++ [i]) (c := n)
    (by rw [hfront]; exact hu.append hplain) (by rw [hfront]; simp) (by
      intro v r hvr hmute
      obtain ⟨r, d, rfl, hd⟩ := (hmute r n rfl).2 hn
      rw [← append_assoc] at hvr
      obtain ⟨-, hd'⟩ := append_inj' hvr rfl
      obtain rfl := singleton_inj.1 hd'
      exact hd hi)
  have hfirst : Closed [i] := Code.closed (by simpa using hquote hi (by decide))
  obtain ⟨front, rfl, hfirst⟩ := h.append.1.append.1.exists_last (a := u) (c := i)
    (by rw [hfront']; exact hu.append hfirst) hfront' fun v r _ hmute => (hmute r i rfl).1 hi
  exact ⟨front, rest, by simp [keeps], hfirst, hrest⟩

/-- The template and the bound text end in the same character where no parameter was put in last. -/
theorem getLast?_results (h : Threaded none parts) (hclosed : Closed (sources parts))
    (hlast : ∀ front p param src, parts = front ++ [Stretch.filled p (some param) src] →
      p.inline) : (results parts).getLast? = (sources parts).getLast? := by
  rcases eq_nil_or_concat parts with rfl | ⟨front, x, rfl⟩
  · rfl
  · rw [concat_eq_append] at *
    have hsame {r s : Text} (hr : r ≠ []) (hs : s ≠ []) (heq : r.getLast? = s.getLast?) :
        (results front ++ r).getLast? = (sources front ++ s).getLast? := by
      rw [getLast?_append_of_ne_nil _ hr, getLast?_append_of_ne_nil _ hs, heq]
    rw [results_append, sources_append]
    rcases h.last_cases hclosed with ⟨d, rfl⟩ | ⟨p, param, src, rfl, hspells, hopened, htakes⟩
    · exact hsame (by simp [results, result]) (by simp [sources, source]) rfl
    · cases param with
      | some param =>
        have hinline := hlast front p param src rfl
        simp [inline_of_opened hopened] at hinline
      | none =>
        refine hsame ?_ (by simpa [sources, source] using hspells.ne_nil) ?_
        · simpa [results] using (result_of_code hspells hopened htakes).1
        · cases htakes' : p.takesParam with
          | true => simp [results, sources, result, source, htakes']
          | false =>
            rw [hspells.of_percent htakes']
            simp [results, sources, result, source, htakes']

end Threaded

end Stretch

end Placeholder

end Recast
