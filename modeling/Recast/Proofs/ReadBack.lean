import Recast.Proofs.Binding
import Recast.Proofs.Tokens

/-!
# Bound values are read back

What a bound text is read as can be told from the template and the parameters alone: `filled`
replaces each placeholder in code by the datum that it receives, and each placeholder inside a
literal by its text. The main statement, `tokens_bind`, says that this is how the bound text is
read, as long as no placeholder in code touches a quote or another placeholder.

There is one place where more is read than was bound: in a literal in double quotes, every single
quote of a text comes out twice (`shown`).
-/

namespace Recast.Placeholder

open Literal List Text

variable {r source t u v v' : Text} {c d q : Char} {n : Nat}
  {given rest : List (Placeholder × Option Param)} {l : List Token} {param : Option Param}
  {p : Placeholder} {spec : Spec}

/-! ### What should be read -/

/-- What is read in place of a placeholder in code, which is written `source`. -/
def tokensFor (spec : Spec) (source : Text) : Option Param → List Token
  | none => if spec = .percent then [.code '%'] else source.map .code
  | some param =>
    if spec = .text ∧ param ≠ .null then [.data param.plainText]
    else (param.render spec false).map .code

/-- What code with placeholders is read as, given the parameter that each of them receives. -/
def fillCode : Text → List (Option Param) → List Token
  | [], _ => []
  | '?' :: t, param :: given => tokensFor .text ['?'] param ++ fillCode t given
  | '%' :: c :: t, param :: given =>
    match spec? c with
    | some spec => tokensFor spec ['%', c] param ++ fillCode t given
    | none => .code '%' :: fillCode (c :: t) (param :: given)
  | c :: t, given => .code c :: fillCode t given

/-- What is read of a parameter inside a literal opened by `q`. -/
def shown (q : Char) (param : Param) : Spec → Text
  | .text => if q = '"' then escape param.plainText else param.plainText
  | .int => Text.ofInt param.asInt
  | .float => param.asFloat.fixed Param.places
  | .percent => ['%']

/-- What is read in place of a placeholder inside a literal, which is written `source`. -/
def dataFor (q : Char) (spec : Spec) (source : Text) : Option Param → Text
  | none => if spec = .percent then ['%'] else source
  | some param => shown q param spec

/-- The data of a literal with placeholders, given the parameter that each of them receives. -/
def fillData (q : Char) : Text → List (Option Param) → Text
  | [], _ => []
  | '%' :: c :: t, param :: given =>
    match spec? c with
    | some spec => dataFor q spec ['%', c] param ++ fillData q t given
    | none => '%' :: fillData q (c :: t) (param :: given)
  | c :: t, given => c :: fillData q t given

/-- What a piece of a template is read as, given the parameter that each of its placeholders
receives. -/
def fillPiece (p : Piece) (given : List (Option Param)) : List Token :=
  if !p.isLiteral then fillCode p.text given
  else
    match p.text, given with
    | ['\'', '%', 's', '\''], some param :: _ | ['"', '%', 's', '"'], some param :: _ =>
      tokensFor .text [] (some param)
    | q :: t, given => [.data (fillData q (decode q t) given)]
    | [], _ => []

/-- What the pieces of a template are read as, given the parameter that each placeholder
receives. -/
def filled : List Piece → List (Option Param) → List Token
  | [], _ => []
  | p :: ps, given =>
    fillPiece p (given.take (inPiece p).length) ++ filled ps (given.drop (inPiece p).length)

/-- No placeholder in code touches a quote or another placeholder. -/
structure SetApart (t : Text) : Prop where
  no_quote :
      ∀ p ∈ all t, p.inline = false → (∀ c ∈ (t.before p.span.start).getLast?, isQuote c = false) ∧
      ∀ c ∈ (t.after p.span.stop).head?, isQuote c = false
  no_other : ∀ p ∈ all t, ∀ p' ∈ all t, p.inline = false → p'.span.start ≠ p.span.stop

instance (t : Text) : Decidable (SetApart t) :=
  decidable_of_iff
    ((∀ p ∈ all t, p.inline = false → (∀ c ∈ (t.before p.span.start).getLast?, isQuote c = false) ∧
      ∀ c ∈ (t.after p.span.stop).head?, isQuote c = false) ∧
    ∀ p ∈ all t, ∀ p' ∈ all t, p.inline = false → p'.span.start ≠ p.span.stop)
    ⟨fun h => ⟨h.1, h.2⟩, fun h => ⟨h.no_quote, h.no_other⟩⟩

/-! ### Inside a literal -/

/-- The text with every quote `q` doubled. -/
def double (q : Char) (t : Text) : Text := t.flatMap fun c => if c = q then [q, q] else [c]

theorem decode_double (q : Char) (t u : Text) : decode q (double q t ++ u) = t ++ decode q u := by
  induction t with
  | nil => rfl
  | cons c t ih =>
    rw [double, flatMap_cons]
    by_cases hc : c = q
    · rw [if_pos hc, hc]
      show decode q (q :: q :: (double q t ++ u)) = _
      rw [decode_doubled, ih, cons_append]
    · rw [if_neg hc]
      show decode q (c :: (double q t ++ u)) = _
      rw [decode_cons_of_ne hc, ih, cons_append]

theorem double_of_not_mem (h : q ∉ t) : double q t = t := by
  induction t with
  | nil => rfl
  | cons c t ih =>
    have hc : c ≠ q := fun hc => h (by simp [hc])
    rw [double, flatMap_cons, if_neg hc]
    show c :: double q t = _
    rw [ih fun hmem => h (by simp [hmem])]

theorem render_inline (param : Param) (h : spec ≠ .percent) :
    param.render spec true = double '\'' (shown '\'' param spec) := by
  have hbare {t : Text} (h : ∀ c ∈ t, isBare c = true) : double '\'' t = t :=
    double_of_not_mem fun hmem => by cases h _ hmem
  cases spec with
  | percent => exact absurd rfl h
  | text => cases param <;> rfl
  | int =>
    rw [shown, hbare isBare_of_mem_ofInt]
    cases param <;> rfl
  | float =>
    rw [shown, hbare (Binary64.isBare_of_mem_fixed _ _)]
    cases param <;> rfl

/-- What is written into a literal is what should be read, with the quote of the literal doubled. -/
theorem written_eq (hinline : p.inline = true) (hquote : isQuote p.quote = true)
    (hspec : p.spec ≠ .percent) (param : Param) :
    p.written param = double p.quote (shown p.quote param p.spec) := by
  rw [written, hinline, render_inline param hspec]
  by_cases hdouble : p.quote = '"'
  · have hshown : double '\'' (shown '\'' param p.spec) = shown '"' param p.spec := by
      rw [← render_inline param hspec]
      cases hp : p.spec with
      | percent => exact absurd hp hspec
      | text | int | float => cases param <;> rfl
    rw [hdouble, hshown]
    rfl
  · have hsingle : p.quote = '\'' := by simpa [isQuote, hdouble] using hquote
    rw [hsingle]
    rfl

/-- What stands in place of an inline placeholder. -/
theorem result_inline (hinline : p.inline = true) (hquote : isQuote p.quote = true)
    (hsource : p.quote ∉ source) (htakes : param.isSome → p.takesParam = true) :
    (Stretch.filled p param source).result =
      double p.quote (dataFor p.quote p.spec source param) := by
  cases param with
  | some param => exact written_eq hinline hquote (by simpa [takesParam] using htakes rfl) param
  | none =>
    rw [Stretch.result, dataFor, takesParam]
    by_cases hspec : p.spec = .percent
    · have hpercent : p.quote ∉ ['%'] := by
        rintro hmem
        rw [mem_singleton.1 hmem] at hquote
        cases hquote
      rw [if_neg (by simp [hspec]), if_pos hspec, double_of_not_mem hpercent]
    · rw [if_pos (by simpa using hspec), if_neg hspec, double_of_not_mem hsource]

theorem weave_hole (param : Option Param) (hspan : p.span = ⟨n, n + source.size⟩)
    (hpos : 0 < source.size) {edits : List Edit}
    (h : Edit.Weave (n + source.size) t (given.filterMap edit? ++ edits) r) :
    Edit.Weave n (source ++ t) (((p, param) :: given).filterMap edit? ++ edits)
      ((Stretch.filled p param source).result ++ r) := by
  rcases edit?_eq p param source with hedit | ⟨hedit, hkept⟩
  · rw [filterMap_cons_some hedit, hspan]
    refine .make source _ (fun e he => ?_) h
    have hle := h.le_start e he
    omega
  · rw [filterMap_cons_none hedit, hkept]
    exact .keep source h

theorem fillData_keep (h : c = '%' → ∀ d, t.head? = some d → spec? d = none)
    (given : List (Option Param)) : fillData q (c :: t) given = c :: fillData q t given := by
  by_cases hc : c = '%'
  · subst hc
    cases t with
    | nil => cases given <;> rfl
    | cons d t =>
      cases given with
      | nil => rfl
      | cons param given => rw [fillData, h rfl d rfl]
  · rw [fillData]
    intro d t param given _ hc'
    exact absurd hc' hc

theorem inLiteral_keep (h : c = '%' → ∀ d, t.head? = some d → spec? d = none) (n : Nat) :
    inLiteral q n (c :: t) = inLiteral q (n + c.utf8Size) t := by
  by_cases hc : c = '%'
  · subst hc
    cases t with
    | nil => rfl
    | cons d t => rw [inLiteral, h rfl d rfl]; rfl
  · rw [inLiteral]
    intro d t hc'
    exact absurd hc' hc

theorem head?_of_decode (h : Inside q v) (hd : (decode q v).head? = some d) : v.head? = some d := by
  cases h with
  | nil => exact hd
  | close => simp [decode] at hd
  | data hc => rwa [decode_cons_of_ne hc] at hd
  | doubled => rwa [decode_doubled] at hd

/-- Filling placeholders turns `u`, the inside of a literal from offset `n` on, into `u'`: the
inside of a literal again, with the data that it should have. -/
structure Fills (q : Char) (n : Nat) (u : Text) (given : List (Placeholder × Option Param))
    (u' : Text) : Prop where
  inside : Inside q u'
  state_eq : state (some q) u' = state (some q) u
  decode_eq : decode q u' = fillData q (decode q u) (given.map Prod.snd)
  weave : ∀ t edits r, Edit.Weave (n + u.size) t edits r →
    Edit.Weave n (u ++ t) (given.filterMap edit? ++ edits) (u' ++ r)

section

variable {q : Char} (hq : isQuote q = true) {n : Nat} {given : List (Placeholder × Option Param)}

include hq

theorem ne_percent : q ≠ '%' := fun h => by rw [h] at hq; cases hq

theorem Fills.doubled (h : Fills q (n + 1 + 1) v given v') :
    Fills q n (q :: q :: v) given (q :: q :: v') where
  inside := .doubled h.inside
  state_eq := by simp [next_none_of_isQuote hq, h.state_eq]
  decode_eq := by
    rw [decode_doubled, decode_doubled, h.decode_eq,
      fillData_keep fun hc => absurd hc (ne_percent hq)]
  weave t edits r hweave := by
    have hsize : size [q, q] = 1 + 1 := by simp [utf8Size_of_isQuote hq]
    refine .keep [q, q] ?_
    rw [hsize]
    refine h.weave t edits r ?_
    rwa [size_cons, size_cons, utf8Size_of_isQuote hq, ← Nat.add_assoc, ← Nat.add_assoc] at hweave

/-- A placeholder in front of the inside of a literal. -/
theorem Fills.hole (hspec : spec? d = some spec) {w w' : Text}
    (htakes : param.isSome → spec ≠ .percent) (h : Fills q (n + 2) w given w') :
    ∃ u', Fills q n ('%' :: d :: w) ((⟨⟨n, n + 2⟩, spec, true, q⟩, param) :: given) u' := by
  have hpercent : '%' ≠ q := Ne.symm (ne_percent hq)
  have hd : d ≠ q := ne_of_isQuote hq (spec?_eq_some hspec).2.1
  have hsource := size_of_spec? hspec
  have hresult : (Stretch.filled ⟨⟨n, n + 2⟩, spec, true, q⟩ param ['%', d]).result
      = double q (dataFor q spec ['%', d] param) :=
    result_inline rfl hq (by simp [ne_percent hq, Ne.symm hd]) fun hsome => by
      simpa [takesParam] using htakes hsome
  refine ⟨double q (dataFor q spec ['%', d] param) ++ w', inside_doubled q _ h.inside, ?_, ?_,
    fun t edits r hweave => ?_⟩
  · rw [state_append, double, state_doubled hq, h.state_eq, state_cons, next_some_of_ne hpercent,
      state_cons, next_some_of_ne hd]
  · rw [decode_double, h.decode_eq, decode_cons_of_ne hpercent, decode_cons_of_ne hd, map_cons,
      fillData, hspec]
  · rw [append_assoc, ← hresult]
    refine weave_hole (p := ⟨⟨n, n + 2⟩, spec, true, q⟩) param (by rw [hsource])
      (by rw [hsource]; decide) ?_
    rw [hsource]
    refine h.weave t edits r ?_
    rwa [size_cons, size_cons, ← Nat.add_assoc, ← Nat.add_assoc, (spec?_eq_some hspec).1] at hweave

omit hq in
theorem Fills.keep (hc : c ≠ q) (hv : Inside q v)
    (hkeep : c = '%' → ∀ d, v.head? = some d → spec? d = none)
    (h : Fills q (n + c.utf8Size) v given v') : Fills q n (c :: v) given (c :: v') where
  inside := .data hc h.inside
  state_eq := by simp [next_some_of_ne hc, h.state_eq]
  decode_eq := by
    rw [decode_cons_of_ne hc, decode_cons_of_ne hc, h.decode_eq,
      fillData_keep fun hpercent d hd => hkeep hpercent d (head?_of_decode hv hd)]
  weave t edits r hweave := by
    refine .keep [c] ?_
    have hsize : size [c] = c.utf8Size := by simp
    refine h.weave t edits r ?_
    rwa [size_cons, ← Nat.add_assoc] at hweave

end

/-- Filling the placeholders of a literal keeps it one literal, with the data that it should
have. -/
theorem exists_fills (hq : isQuote q = true) : (u : Text) → Inside q u → (n : Nat) →
    (given : List (Placeholder × Option Param)) → given.map Prod.fst = inLiteral q n u →
    (∀ x ∈ given, x.2.isSome → x.1.takesParam = true) → ∃ u', Fills q n u given u'
  | u, h, n, given, hgiven, htakes => by
    cases h with
    | nil =>
      obtain rfl := map_eq_nil_iff.1 hgiven
      exact ⟨[], .nil, rfl, rfl, fun t edits r h => h⟩
    | close =>
      rw [inLiteral_keep (by simp)] at hgiven
      obtain rfl := map_eq_nil_iff.1 hgiven
      exact ⟨[q], .close, rfl, by simp [decode, fillData], fun t edits r h => .keep [q] h⟩
    | @doubled v hv =>
      rw [inLiteral_keep fun hc => absurd hc (ne_percent hq),
        inLiteral_keep fun hc => absurd hc (ne_percent hq), utf8Size_of_isQuote hq] at hgiven
      obtain ⟨v', hv'⟩ := exists_fills hq v hv (n + 1 + 1) given hgiven htakes
      exact ⟨_, hv'.doubled hq⟩
    | @data c v hc hv =>
      by_cases hkeep : c = '%' → ∀ d, v.head? = some d → spec? d = none
      · rw [inLiteral_keep hkeep] at hgiven
        obtain ⟨v', hv'⟩ := exists_fills hq v hv (n + c.utf8Size) given hgiven htakes
        exact ⟨_, hv'.keep hc hv hkeep⟩
      · -- a percent sign and the letter behind it, neither of which is a quote
        obtain ⟨rfl, d, hd, hsome⟩ : c = '%' ∧ ∃ d, v.head? = some d ∧ ¬ spec? d = none := by
          simpa [Classical.not_forall] using hkeep
        obtain ⟨spec, hspec⟩ := Option.ne_none_iff_exists'.1 hsome
        obtain ⟨w, rfl⟩ := head?_eq_some_iff.1 hd
        have hdq : d ≠ q := ne_of_isQuote hq (spec?_eq_some hspec).2.1
        have hw : Inside q w := by
          cases hv with
          | close => exact absurd rfl hdq
          | data _ hw => exact hw
          | doubled => exact absurd rfl hdq
        rw [inLiteral, hspec] at hgiven
        obtain ⟨⟨p, param⟩, rest, rfl, rfl, hrest⟩ := map_eq_cons_iff.1 hgiven
        obtain ⟨w', hw'⟩ := exists_fills hq w hw (n + 2) rest hrest (forall_mem_cons.1 htakes).2
        refine hw'.hole hq hspec fun hsome => ?_
        simpa [takesParam] using htakes _ mem_cons_self hsome
  termination_by u => u.length

/-! ### In code -/

/-- Placeholders in code that touch neither a quote of `t`, a text that starts at offset `n`, nor
each other. -/
structure Spaced (n : Nat) (t : Text) (given : List (Placeholder × Option Param)) : Prop where
  before : ∀ x ∈ given, x.1.inline = false → ∀ (a : Text) c b, t = a ++ c :: b → isQuote c = true →
    x.1.span.start ≠ n + a.size + 1
  after : ∀ x ∈ given, x.1.inline = false → ∀ (a : Text) c b, t = a ++ c :: b → isQuote c = true →
    x.1.span.stop ≠ n + a.size
  other : ∀ x ∈ given, ∀ y ∈ given, x.1.inline = false → y.1.span.start ≠ x.1.span.stop

theorem Spaced.tail {a : Text} (h : Spaced n (a ++ t) (given ++ rest)) :
    Spaced (n + a.size) t rest where
  before x hx hinline b c r ht hc := by
    have := h.before x (by simp [hx]) hinline (a ++ b) c r (by rw [ht, append_assoc]) hc
    rwa [size_append, ← Nat.add_assoc] at this
  after x hx hinline b c r ht hc := by
    have := h.after x (by simp [hx]) hinline (a ++ b) c r (by rw [ht, append_assoc]) hc
    rwa [size_append, ← Nat.add_assoc] at this
  other x hx y hy := h.other x (by simp [hx]) y (by simp [hy])

/-- Filling placeholders turns `t`, a text that starts at offset `n`, into `r`, which is read as
`l`. -/
structure Bound (n : Nat) (t : Text) (given : List (Placeholder × Option Param)) (r : Text)
    (l : List Token) : Prop where
  weave : Edit.Weave n t (given.filterMap edit?) r
  reads : Reads r l
  head : (∀ x ∈ given, x.1.inline = false → x.1.span.start ≠ n) → r.head? = t.head?
  nil : t = [] → r = []

theorem Bound.keep (hc : isQuote c = false) (h : Bound (n + c.utf8Size) t given r l) :
    Bound n (c :: t) given (c :: r) (.code c :: l) where
  weave := .keep [c] (by simpa using h.weave)
  reads := .code hc h.reads
  head _ := rfl
  nil ht := by cases ht

theorem reads_quote (v : Text) (hhead : t.head? ≠ some '\'') (h : Reads t l) :
    Reads (Literal.quote v ++ t) (.data v :: l) := by
  have hinside : Inside '\'' (escape v ++ ['\'']) := inside_doubled '\'' v .close
  have hends : Ends '\'' (escape v ++ ['\'']) t := fun _ => by
    refine ⟨?_, hhead⟩
    rw [state_append, state_escape]
    rfl
  have hdecode : decode '\'' (escape v ++ ['\'']) = v := by
    have h : decode '\'' (double '\'' v ++ ['\'']) = v ++ [] := decode_double '\'' v ['\'']
    rwa [List.append_nil] at h
  have hreads := Reads.literal (by decide) hinside hends h
  rwa [hdecode] at hreads

theorem isBare_of_mem_render {param : Param} (hspec : spec ≠ .percent)
    (h : ¬ (spec = .text ∧ param ≠ .null)) : ∀ c ∈ param.render spec false, isBare c = true := by
  have hnull : ∀ c ∈ "NULL".toList, isBare c = true := by decide
  cases param with
  | null =>
    cases spec with
    | percent => exact absurd rfl hspec
    | _ => exact hnull
  | _ =>
    cases spec with
    | percent => exact absurd rfl hspec
    | text => exact absurd ⟨rfl, by simp⟩ h
    | int => exact isBare_of_mem_ofInt
    | float => exact Binary64.isBare_of_mem_fixed _ _

/-- What is written in place of a placeholder in code is read as it should be, whatever no quote
comes behind it. -/
theorem reads_result (hinline : p.inline = false) (htakes : param.isSome → p.takesParam = true)
    (hsource : param = none → ∀ c ∈ source, isQuote c = false) (hhead : t.head? ≠ some '\'')
    (h : Reads t l) :
    Reads ((Stretch.filled p param source).result ++ t) (tokensFor p.spec source param ++ l) := by
  cases param with
  | none =>
    rw [Stretch.result, tokensFor, takesParam]
    by_cases hspec : p.spec = .percent
    · rw [if_neg (by simp [hspec]), if_pos hspec]
      exact .code (by decide) h
    · rw [if_pos (by simpa using hspec), if_neg hspec]
      exact .of_code (hsource rfl) h
  | some param =>
    have hspec : p.spec ≠ .percent := by simpa [takesParam] using htakes rfl
    have hwritten : (Stretch.filled p (some param) source).result = param.render p.spec false := by
      simp [Stretch.result, written, hinline]
    rw [hwritten, tokensFor]
    by_cases htext : p.spec = .text ∧ param ≠ .null
    · have hquote : param.render p.spec false = Literal.quote param.plainText := by
        rw [htext.1]
        cases param with
        | null => exact absurd rfl htext.2
        | _ => rfl
      rw [if_pos htext, hquote]
      exact reads_quote _ hhead h
    · rw [if_neg htext]
      exact .of_code (fun c hc => isQuote_of_isBare (isBare_of_mem_render hspec htext c hc)) h

/-- What comes behind a placeholder in code is no quote, before and after the placeholders are
filled. -/
theorem Spaced.head?_ne (hinline : p.inline = false) (hspan : p.span = ⟨n, n + source.size⟩)
    (h : Spaced n (source ++ t) ((p, param) :: given))
    (hbound : Bound (n + source.size) t given r l) (hq : isQuote q = true) : r.head? ≠ some q := by
  have hhead : r.head? = t.head? := hbound.head fun y hy _ hstart =>
    h.other (p, param) (by simp) y (by simp [hy]) hinline (by rw [hspan]; exact hstart)
  rw [hhead]
  intro ht
  obtain ⟨b, rfl⟩ := head?_eq_some_iff.1 ht
  exact h.after (p, param) (by simp) hinline source q b rfl hq (by rw [hspan])

/-- A placeholder in front of a text. -/
theorem Bound.hole (hinline : p.inline = false) (hspan : p.span = ⟨n, n + source.size⟩)
    (hpos : 0 < source.size) (htakes : param.isSome → p.takesParam = true)
    (hsource : param = none → ∀ c ∈ source, isQuote c = false)
    (hspaced : Spaced n (source ++ t) ((p, param) :: given))
    (h : Bound (n + source.size) t given r l) :
    Bound n (source ++ t) ((p, param) :: given) ((Stretch.filled p param source).result ++ r)
      (tokensFor p.spec source param ++ l) where
  weave := by
    have hweave : Edit.Weave (n + source.size) t (given.filterMap edit? ++ []) r := by
      rw [append_nil]
      exact h.weave
    have := weave_hole param hspan hpos hweave
    rwa [append_nil] at this
  reads :=
    reads_result hinline htakes hsource (hspaced.head?_ne hinline hspan h (by decide)) h.reads
  head hstart := absurd (by rw [hspan]) (hstart (p, param) (by simp) hinline)
  nil ht := by
    simp [(append_eq_nil_iff.1 ht).1] at hpos

theorem fillCode_keep (hc : c ≠ '?') (h : c = '%' → ∀ d, t.head? = some d → spec? d = none)
    (given : List (Option Param)) : fillCode (c :: t) given = .code c :: fillCode t given := by
  by_cases hpercent : c = '%'
  · subst hpercent
    cases t with
    | nil => cases given <;> rfl
    | cons d t =>
      cases given with
      | nil => rfl
      | cons param given => rw [fillCode, h rfl d rfl]
  · rw [fillCode]
    · intro param given _ hc'
      exact absurd hc' hc
    · intro d t param given _ hc'
      exact absurd hc' hpercent

/-- Code with placeholders in front of a text. -/
theorem Bound.code (hu : ∀ c ∈ u, isQuote c = false) (hgiven : given.map Prod.fst = inCode n u)
    (htakes : ∀ x ∈ given, x.2.isSome → x.1.takesParam = true)
    (hspaced : Spaced n (u ++ t) (given ++ rest)) (h : Bound (n + u.size) t rest r l) :
    ∃ r', Bound n (u ++ t) (given ++ rest) r' (fillCode u (given.map Prod.snd) ++ l) := by
  fun_induction inCode n u generalizing given with
  | case1 n =>
    obtain rfl := map_eq_nil_iff.1 hgiven
    exact ⟨r, h⟩
  | case2 n u ih =>
    obtain ⟨⟨p, param⟩, given, rfl, rfl, hrest⟩ := map_eq_cons_iff.1 hgiven
    have hspaced : Spaced n (['?'] ++ (u ++ t)) ([(_, param)] ++ (given ++ rest)) := hspaced
    obtain ⟨r', hr'⟩ :=
      ih (fun c hc => hu c (by simp [hc])) hrest (fun x hx => htakes x (by simp [hx]))
      hspaced.tail (by rwa [size_cons, ← Nat.add_assoc] at h)
    rw [map_cons, fillCode, append_assoc]
    exact ⟨_, .hole rfl rfl (by decide) (htakes _ mem_cons_self) (fun _ => by decide) hspaced hr'⟩
  | case3 n c u spec hspec ih =>
    obtain ⟨⟨p, param⟩, given, rfl, rfl, hrest⟩ := map_eq_cons_iff.1 hgiven
    have hsource := size_of_spec? hspec
    have hspaced : Spaced n (['%', c] ++ (u ++ t)) ([(_, param)] ++ (given ++ rest)) := hspaced
    obtain ⟨r', hr'⟩ :=
      ih (fun c hc => hu c (by simp [hc])) hrest (fun x hx => htakes x (by simp [hx]))
      (by rw [← hsource]; exact hspaced.tail)
      (by rwa [size_cons, size_cons, ← Nat.add_assoc, ← Nat.add_assoc,
        (spec?_eq_some hspec).1] at h)
    rw [map_cons, fillCode, hspec, append_assoc]
    rw [← hsource] at hr'
    refine ⟨_, .hole rfl ?_ ?_ (htakes _ mem_cons_self) (fun _ x hx => hu x ?_) hspaced hr'⟩
    · rw [hsource]
    · rw [hsource]
      decide
    · rcases mem_cons.1 hx with rfl | hx
      · simp
      · simp [mem_singleton.1 hx]
  | case4 n c u hspec ih =>
    have hspaced : Spaced n (['%'] ++ (c :: u ++ t)) ([] ++ (given ++ rest)) := hspaced
    obtain ⟨r', hr'⟩ := ih (fun c hc => hu c (by simp [hc])) hgiven htakes hspaced.tail
      (by rwa [size_cons, ← Nat.add_assoc] at h)
    rw [fillCode_keep (by decide) (by simpa using hspec)]
    exact ⟨_, hr'.keep (by decide)⟩
  | case5 n c u hmark hpercent ih =>
    have hspaced : Spaced n ([c] ++ (u ++ t)) ([] ++ (given ++ rest)) := hspaced
    obtain ⟨r', hr'⟩ := ih (fun c hc => hu c (by simp [hc])) hgiven htakes
      (by simpa using hspaced.tail) (by rwa [size_cons, ← Nat.add_assoc] at h)
    rw [fillCode_keep hmark fun hc d hd => ?_]
    · exact ⟨_, hr'.keep (hu c (by simp))⟩
    · obtain ⟨w, rfl⟩ := head?_eq_some_iff.1 hd
      exact absurd rfl (hpercent d w hc)

/-! ### Literals and code in turn -/

section

variable (hq : isQuote q) (hu : Inside q u) (hends : Ends q u t)
  (hspaced : Spaced n (q :: (u ++ t)) (given ++ rest)) (h : Bound (n + (1 + u.size)) t rest r l)
include hq hu hends hspaced h

/-- A literal ends in front of what follows it also after the placeholders are filled. -/
theorem Bound.ends {u' : Text} (hstate : state (some q) u' = state (some q) u) : Ends q u' r := by
  intro hne
  have ht : t ≠ [] := fun ht => hne (h.nil ht)
  obtain ⟨hclosed, hhead⟩ := hends ht
  obtain ⟨w, rfl⟩ : ∃ w, u = w ++ [q] := by
    have hlast := hu.getLast?_eq hq hclosed
    exact getLast?_eq_some_iff.1 hlast
  -- a placeholder right behind the literal would touch its closing quote
  have hstart : ∀ x ∈ rest, x.1.inline = false → x.1.span.start ≠ n + (1 + size (w ++ [q])) := by
    intro x hx hinline
    have := hspaced.before x (by simp [hx]) hinline (q :: w) q t (by simp) hq
    rw [size_cons, utf8Size_of_isQuote hq] at this
    rw [size_append, size_cons, utf8Size_of_isQuote hq, size_nil]
    omega
  rw [h.head hstart]
  exact ⟨hstate.trans hclosed, hhead⟩

/-- A literal with placeholders in it. -/
theorem Bound.inner (hgiven : given.map Prod.fst = inLiteral q (n + 1) u)
    (htakes : ∀ x ∈ given, x.2.isSome → x.1.takesParam) :
    ∃ r', Bound n (q :: (u ++ t)) (given ++ rest) r'
      (.data (fillData q (decode q u) (given.map Prod.snd)) :: l) := by
  obtain ⟨u', hu'⟩ := exists_fills hq u hu (n + 1) given hgiven htakes
  refine ⟨q :: (u' ++ r), ?_, ?_, fun _ => rfl, fun ht => by cases ht⟩
  · refine .keep [q] ?_
    rw [filterMap_append, size_cons, utf8Size_of_isQuote hq]
    refine hu'.weave t _ r ?_
    have hweave := h.weave
    rwa [← Nat.add_assoc] at hweave
  · rw [← hu'.decode_eq]
    exact .literal hq hu'.inside (h.ends hq hu hends hspaced hu'.state_eq) h.reads

end

/-- A literal that is a placeholder as a whole. -/
theorem Bound.whole (hq : isQuote q = true) (hends : Ends q ['%', 's', q] t)
    (hspaced : Spaced n (q :: (['%', 's', q] ++ t))
      ([(⟨⟨n, n + 4⟩, .text, false, '\''⟩, param)] ++ rest))
    (h : Bound (n + (1 + size ['%', 's', q])) t rest r l) :
    ∃ r', Bound n (q :: (['%', 's', q] ++ t))
      ([(⟨⟨n, n + 4⟩, .text, false, '\''⟩, param)] ++ rest) r'
      (fillPiece ⟨n, true, [q, '%', 's', q]⟩ [param] ++ l) := by
  have hquote := isQuote_iff.1 hq
  have hsize : size [q, '%', 's', q] = 4 := by rcases hquote with rfl | rfl <;> rfl
  have hinside : Inside q ['%', 's', q] :=
    .data (Ne.symm (ne_percent hq)) (.data (ne_of_isQuote hq (by decide)) .close)
  cases param with
  | some param =>
    have hfill : fillPiece ⟨n, true, [q, '%', 's', q]⟩ [some param]
        = tokensFor .text [q, '%', 's', q] (some param) := by rcases hquote with rfl | rfl <;> rfl
    rw [hfill]
    rw [← utf8Size_of_isQuote hq, ← size_cons] at h
    refine ⟨_, .hole rfl ?_ ?_ (fun _ => rfl) ?_ hspaced h⟩
    · rw [hsize]
    · rw [hsize]
      decide
    · rintro ⟨⟩
  | none =>
    have hfill :
        fillPiece ⟨n, true, [q, '%', 's', q]⟩ [none] = [.data (decode q ['%', 's', q])] := by
      rcases hquote with rfl | rfl <;> rfl
    rw [hfill]
    refine ⟨q :: (['%', 's', q] ++ r), ?_, ?_, fun _ => rfl, fun ht => by cases ht⟩
    · refine .keep [q, '%', 's', q] ?_
      have hweave := h.weave
      rwa [← utf8Size_of_isQuote hq, ← size_cons] at hweave
    · exact .literal hq hinside (h.ends hq hinside hends hspaced rfl) h.reads

/-- A literal with placeholders in front of a text. -/
theorem Bound.literal (hq : isQuote q) (hu : Inside q u) (hends : Ends q u t)
    (hgiven : given.map Prod.fst = inPiece ⟨n, true, q :: u⟩)
    (htakes : ∀ x ∈ given, x.2.isSome → x.1.takesParam)
    (hspaced : Spaced n (q :: (u ++ t)) (given ++ rest)) (h : Bound (n + (1 + u.size)) t rest r l) :
    ∃ r', Bound n (q :: (u ++ t)) (given ++ rest) r'
      (fillPiece ⟨n, true, q :: u⟩ (given.map Prod.snd) ++ l) := by
  by_cases hwhole : q :: u = ['\'', '%', 's', '\''] ∨ q :: u = ['"', '%', 's', '"']
  · obtain rfl : u = ['%', 's', q] := by
      rcases hwhole with heq | heq
      · obtain ⟨rfl, rfl⟩ := cons.inj heq
        rfl
      · obtain ⟨rfl, rfl⟩ := cons.inj heq
        rfl
    have hpiece : inPiece ⟨n, true, [q, '%', 's', q]⟩ = [⟨⟨n, n + 4⟩, .text, false, '\''⟩] := by
      rcases hwhole with heq | heq <;> rw [heq] <;> rfl
    rw [hpiece] at hgiven
    obtain ⟨⟨p, param⟩, none, rfl, rfl, hnone⟩ := map_eq_cons_iff.1 hgiven
    obtain rfl := map_eq_nil_iff.1 hnone
    exact Bound.whole hq hends hspaced h
  · rw [not_or] at hwhole
    have hpiece : inPiece ⟨n, true, q :: u⟩ = inLiteral q (n + 1) u := by
      simp only [inPiece, Bool.not_true, Bool.false_eq_true, if_false]
      split
      · next heq => exact absurd heq hwhole.1
      · next heq => exact absurd heq hwhole.2
      · next heq =>
        obtain ⟨rfl, rfl⟩ := cons.inj heq
        rfl
      · next heq => cases heq
    have hfill : fillPiece ⟨n, true, q :: u⟩ (given.map Prod.snd)
        = [.data (fillData q (decode q u) (given.map Prod.snd))] := by
      simp only [fillPiece, Bool.not_true, Bool.false_eq_true, if_false]
      split
      · next heq _ => exact absurd heq hwhole.1
      · next heq _ => exact absurd heq hwhole.2
      · next heq _ _ =>
        obtain ⟨rfl, rfl⟩ := cons.inj heq
        rfl
      · next heq => cases heq
    rw [hfill]
    exact h.inner hq hu hends hspaced (hgiven.trans hpiece) htakes

/-- Filling the placeholders of a text makes every piece of it be read as it should be. -/
theorem exists_bound {ps : List Piece} (h : Cut n t ps)
    (hgiven : given.map Prod.fst = ps.flatMap inPiece)
    (htakes : ∀ x ∈ given, x.2.isSome → x.1.takesParam) (hspaced : Spaced n t given) :
    ∃ r, Bound n t given r (filled ps (given.map Prod.snd)) := by
  induction h generalizing given with
  | @last n code hcode =>
    have hnil : Bound (n + code.size) [] [] [] [] := ⟨.rest _ _, .nil, fun _ => rfl, fun _ => rfl⟩
    rw [flatMap_singleton] at hgiven
    have hspaced' : Spaced n (code ++ []) (given ++ []) := by
      rwa [append_nil, append_nil]
    have hbound := hnil.code hcode hgiven htakes hspaced'
    have htake : (given.map Prod.snd).take (inPiece ⟨n, false, code⟩).length = given.map Prod.snd :=
      take_of_length_le (Nat.le_of_eq (by rw [← hgiven, length_map, length_map]))
    rw [filled, htake]
    rwa [append_nil, append_nil] at hbound
  | @literal n code q u rest ps hcode hq hu hends _ ih =>
    obtain ⟨first, others, rfl, hfirst, hothers⟩ := map_eq_append_iff.1 hgiven
    obtain ⟨second, others, rfl, hsecond, hothers⟩ := map_eq_append_iff.1 hothers
    have hspaced₁ : Spaced (n + code.size) (q :: (u ++ rest)) (second ++ others) := hspaced.tail
    have hspaced₂ : Spaced (n + code.size + (1 + u.size)) rest others := by
      have hcut : Spaced (n + code.size) ((q :: u) ++ rest) (second ++ others) := hspaced₁
      have htail := hcut.tail
      rwa [size_cons, utf8Size_of_isQuote hq] at htail
    obtain ⟨r, hr⟩ := ih hothers (fun x hx => htakes x (by simp [hx])) hspaced₂
    obtain ⟨r₁, hr₁⟩ :=
      Bound.literal hq hu hends hsecond (fun x hx => htakes x (by simp [hx])) hspaced₁ hr
    obtain ⟨r₂, hr₂⟩ := hr₁.code hcode hfirst (fun x hx => htakes x (by simp [hx])) hspaced
    refine ⟨r₂, ?_⟩
    have hlength₁ : (inPiece ⟨n, false, code⟩).length = (first.map Prod.snd).length := by
      rw [← hfirst, length_map, length_map]
    have hlength₂ :
        (inPiece ⟨n + code.size, true, q :: u⟩).length = (second.map Prod.snd).length := by
      rw [← hsecond, length_map, length_map]
    rw [map_append, map_append, filled, filled, hlength₁, hlength₂, take_left, drop_left, take_left,
      drop_left]
    exact hr₂

/-- Placeholders that are set apart are spaced, whatever they receive. -/
theorem SetApart.spaced (h : SetApart t) (params : List Param) :
    Spaced 0 t (assign (all t) params) where
  before x hx hinline a c b ht hc hstart := by
    have hlast : (t.before x.1.span.start).getLast? = some c := by
      have hsplit : t = a ++ [c] ++ b := by simp [ht]
      have hsize : x.1.span.start = size (a ++ [c]) := by
        rw [size_append, size_cons, utf8Size_of_isQuote hc, size_nil]
        omega
      rw [hsize, hsplit, before_size_append, getLast?_concat]
    have := (h.no_quote x.1 (mem_of_mem_assign hx) hinline).1 c hlast
    simp [hc] at this
  after x hx hinline a c b ht hc hstop := by
    have hhead : (t.after x.1.span.stop).head? = some c := by
      rw [hstop, Nat.zero_add, ht, after_size_append]
      rfl
    have := (h.no_quote x.1 (mem_of_mem_assign hx) hinline).2 c hhead
    simp [hc] at this
  other x hx y hy hinline :=
    h.no_other x.1 (mem_of_mem_assign hx) y.1 (mem_of_mem_assign hy) hinline

/-- A bound text is read as its template with the values in place, as long as no placeholder in code
touches a quote or another placeholder: the code stays, a text bound in code is read as one datum,
and the data of a literal is that of the template's literal with its placeholders filled. -/
theorem tokens_bind (t : Text) (params : List Param) (h : SetApart t) :
    tokens (bind t params) = filled (pieces t) ((assign (all t) params).map Prod.snd) := by
  have htakes : ∀ x ∈ assign (all t) params, x.2.isSome → x.1.takesParam := by
    rintro ⟨p, param⟩ hx hsome
    obtain ⟨param, rfl⟩ := Option.isSome_iff_exists.1 hsome
    exact takesParam_of_mem_assign hx
  obtain ⟨r, hr⟩ :=
    exists_bound (cut_pieces t) (map_fst_assign (all t) params) htakes (h.spaced params)
  have hbind : bind t params = r := hr.weave.applyAll
  rw [hbind, hr.reads.tokens_eq]

/-- Values with both kinds of quotes, bound in code, as a literal and into a literal. -/
theorem tokens_bind_quotes : SetApart "a = ? AND b = '%s' AND c = 'x%s%%'" ∧
      tokens (bind "a = ? AND b = '%s' AND c = 'x%s%%'" [.text "it's", .blob "\"", .text "'y'"])
        = filled (pieces "a = ? AND b = '%s' AND c = 'x%s%%'")
          ((assign (all "a = ? AND b = '%s' AND c = 'x%s%%'")
            [.text "it's", .blob "\"", .text "'y'"]).map Prod.snd) :=
  ⟨by decide, tokens_bind _ _ (by decide)⟩

/-- In double quotes, a single quote that is bound once is read twice. -/
theorem tokens_bind_double_quotes : tokens (bind "a LIKE \"%s%%\"" [.text "it's"])
      = ("a LIKE " : Text).map .code ++ [.data "it''s%"] := by
  decide

end Recast.Placeholder
