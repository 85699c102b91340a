import Recast.Insertion
import Recast.Proofs.Items
import Recast.Proofs.Reading

/-!
# Reading an INSERT again

What stands in front of the value group of an INSERT is read without looking behind the group's
opening parenthesis: no step of a cursor that looks for words, names or blanks passes one. So two
texts that agree up to that parenthesis have the same table and columns, and `ofText?_reparse` gives
the parts of the second text from those of the first.
-/

namespace Recast

open Keyword Literal List Text
open Option hiding guard

variable {b body first masked name s s' t word : Text} {x : Char} {c : Cursor}
  {d depth m n offset start : Nat} {g : Span} {p : Char → Bool} {j : Insertion} {groups : List Span}
  {names others : List Text} {y : Option Cursor}

/-! ### Steps that stop at a parenthesis -/

/-- Both fail, or both succeed with related results. -/
def Both (R : α → β → Prop) : Option α → Option β → Prop
  | none, none => True
  | some a, some b => R a b
  | _, _ => False

theorem Both.bind {R : α → β → Prop} {S : γ → δ → Prop} {x : Option α} {y : Option β}
    {f : α → Option γ} {g : β → Option δ} (h : Both R x y)
    (hfg : ∀ a b, R a b → Both S (f a) (g b)) : Both S (x.bind f) (y.bind g) := by
  match x, y, h with
  | none, none, _ => trivial
  | some a, some b, h => exact hfg a b h

namespace Cursor

/-- Two cursors at one place of texts that agree up to where `r` and `r'` start; the second text has
`k` bytes more in front. -/
inductive Twin (k : Nat) (r r' : Text) : Cursor → Cursor → Prop
  | mk (offset : Nat) (last : Option Char) (front : Text) :
    Twin k r r' ⟨offset, last, front ++ r⟩ ⟨k + offset, last, front ++ r'⟩

/-- Both texts end, or start with one character that the property does not hold of. -/
inductive Stops (p : Char → Bool) : Text → Text → Prop
  | nil : Stops p [] []
  | cons {x : Char} (r r' : Text) (hp : p x = false) : Stops p (x :: r) (x :: r')

variable {k : Nat} {r r' : Text} {c d : Cursor}

theorem Stops.head? (h : Stops p r r') : r'.head? = r.head? := by cases h <;> rfl

theorem twin_ofOffset (r r' : Text) {a : Text} (h : n ≤ a.size) :
    Twin 0 ('(' :: r) ('(' :: r') (ofOffset (a ++ '(' :: r) n) (ofOffset (a ++ '(' :: r') n) := by
  rw [ofOffset, ofOffset, before_append_of_le h, before_append_of_le h, after_append_of_le h,
    after_append_of_le h]
  simpa using Twin.mk n (k := 0) (a.before n).getLast? (a.after n)

theorem Twin.offset_eq (h : Twin k r r' c d) : d.offset = k + c.offset := by
  cases h
  rfl

theorem Twin.last_eq (h : Twin k r r' c d) : d.last = c.last := by
  cases h
  rfl

theorem Twin.head?_eq (h : Twin k r r' c d) (hhead : r'.head? = r.head?) :
    d.rest.head? = c.rest.head? := by
  obtain ⟨offset, last, front⟩ := h
  simp [hhead]

/-- What twins skip ends at one place. -/
theorem Twin.skipWhile (h : Twin k r r' c d) (hp : Stops p r r') :
    Twin k r r' (c.skipWhile p) (d.skipWhile p) := by
  obtain ⟨offset, last, front⟩ := h
  show Twin k r r' (skipFrom p offset last (front ++ r))
    (skipFrom p (k + offset) last (front ++ r'))
  induction front generalizing offset last with
  | nil =>
    cases hp with
    | nil => exact .mk offset last []
    | cons r r' hp =>
      simp only [nil_append, skipFrom, hp, Bool.false_eq_true, if_false]
      exact .mk offset last []
  | cons x front ih =>
    simp only [cons_append, skipFrom, Nat.add_assoc]
    split
    · exact ih _ _
    · exact .mk offset last (x :: front)

theorem Twin.char? (h : Twin k r r' c d) (hp : Stops p r r') :
    Both (Twin k r r') (c.char? p) (d.char? p) := by
  obtain ⟨offset, last, front⟩ := h
  cases front with
  | nil =>
    cases hp with
    | nil => trivial
    | cons r r' hp => simp [char?, hp, Both]
  | cons x front =>
    simp only [char?, cons_append, Nat.add_assoc]
    split
    · exact .mk _ _ front
    · trivial

theorem Twin.some? (h : Twin k r r' c d) (hp : Stops p r r') :
    Both (Twin k r r') (c.some? p) (d.some? p) := by
  rw [Cursor.some?, Cursor.some?, h.head?_eq hp.head?]
  split
  · exact h.skipWhile hp
  · trivial

/-- No letter of the word is the one that both texts start with. -/
def Spared (r r' word : Text) : Prop := ∀ w ∈ word, Stops (fun x => x.toLower == w.toLower) r r'

/-- The word has no opening parenthesis in it. -/
def Wordly (word : Text) : Prop := ∀ w ∈ word, ('('.toLower == w.toLower) = false

theorem Wordly.spared (h : Wordly word) (r r' : Text) : Spared ('(' :: r) ('(' :: r') word :=
  fun w hw => .cons r r' (h w hw)

theorem Twin.plain? (h : Twin k r r' c d) (hword : Spared r r' word) :
    Both (Twin k r r') (c.plain? word) (d.plain? word) := by
  induction word generalizing c d with
  | nil => exact h
  | cons w word ih =>
    refine (h.char? (hword w (by simp))).bind fun x y hxy => ?_
    exact ih hxy (forall_mem_cons.1 hword).2

theorem Twin.here? (h : Twin k r r' c d) (hword : Spared r r' word) :
    Both (Twin k r r') (here? word c) (here? word d) := by
  rcases word with - | ⟨w, word⟩
  · trivial
  have hafter : afterName d = afterName c := by
    rw [afterName, h.last_eq, afterName]
  have hguard (b : Bool) : Both (fun _ _ => True) (guard (b) : Option Unit)
      (guard (b) : Option Unit) := by cases b <;> trivial
  rw [here?, here?, hafter]
  refine (hguard _).bind fun _ _ _ => (h.plain? hword).bind fun x y hxy => ?_
  have hbefore : beforeName y = beforeName x := by
    rw [beforeName, hxy.head?_eq (hword w (by simp)).head?, beforeName]
  rw [hbefore]
  exact (hguard _).bind fun _ _ _ => hxy

theorem Twin.rest? {words : List Text} (h : Twin k r r' c d) (hblank : Stops isAsciiBlank r r')
    (hwords : ∀ w ∈ words, Spared r r' w) : Both (Twin k r r') (rest? words c) (rest? words d) := by
  induction words generalizing c d with
  | nil => exact h
  | cons w words ih =>
    refine (h.some? hblank).bind fun x y hxy => ?_
    refine (hxy.here? (hwords w (by simp))).bind fun x y hxy => ?_
    exact ih hxy (forall_mem_cons.1 hwords).2

end Cursor

/-! ### Phrases -/

namespace Keyword

/-- The step of a search for a phrase, at whatever place. -/
def phraseStep (first : Text) (others : List Text) (c : Cursor) : Option (Option Span × Nat) := do
  let d ← here? first c
  match rest? others d with
  | none => return (none, d.offset)
  | some e => return (some (c.spanTo e), e.offset)

theorem findPhrase?_eq (hn : t.isBoundary n) (first : Text) (others : List Text) :
    findPhrase? t (first :: others) n
      = ((Cursor.ofOffset t n).scan (phraseStep first others)).head? := by
  rw [findPhrase?, phrases, hn]
  rfl

theorem phraseStep_eq_some {s : Span} {stop : Nat}
    (h : phraseStep first others c = some (some s, stop)) :
    ∃ d e, here? first c = some d ∧ rest? others d = some e ∧ s = c.spanTo e ∧ stop = e.offset := by
  obtain ⟨d, hd, h⟩ := bind_eq_some_iff.1 h
  split at h
  · cases h
  · next e he =>
    cases h
    exact ⟨d, e, hd, he, rfl, rfl⟩

/-- No blank is read as the first letter of the word. -/
def Inked (word : Text) : Prop :=
  ∀ x w, isBlank x → word.head? = some w → (x.toLower == w.toLower) = false

theorem here?_eq_none
    (h : ∀ x w, c.rest.head? = some x → word.head? = some w → (x.toLower == w.toLower) = false) :
    here? word c = none := by
  obtain ⟨offset, last, rest⟩ := c
  cases word with
  | nil => rfl
  | cons w word =>
    have hplain : Cursor.plain? ⟨offset, last, rest⟩ (w :: word) = none := by
      cases rest with
      | nil => rfl
      | cons x t => simp [Cursor.plain?, Cursor.char?, h x w rfl rfl]
    cases hd : here? (w :: word) ⟨offset, last, rest⟩ with
    | none => rfl
    | some d =>
      simp [(Cursor.here?_eq_some.1 hd).2.2.1] at hplain

end Keyword

open Keyword Cursor in
/-- The phrase that `skipPhrase` skips is the one behind the blanks at the offset. -/
theorem Definition.skipPhrase_eq (hn : masked.isBoundary n) (hfirst : Inked first) :
    skipPhrase masked n (first :: others) =
      (((here? first ((ofOffset masked n).skipWhile isBlank)).bind
        (rest? others)).map Cursor.offset).getD n := by
  have hc : At masked (ofOffset masked n) := at_ofOffset hn
  obtain ⟨w, hw, hblank, hhead⟩ := skipWhile_reads (ofOffset masked n) isBlank
  generalize hd : (ofOffset masked n).skipWhile isBlank = d at hw hhead
  -- nothing is found among the blanks
  have hscan :
      (ofOffset masked n).scan (phraseStep first others) = d.scan (phraseStep first others) := by
    refine hw.scan_eq fun offset last x hx t => ?_
    have hnone : here? first ⟨offset, last, x :: t⟩ = none := by
      refine here?_eq_none fun y v hy hv => ?_
      cases hy
      exact hfirst x v (hblank x hx) hv
    rw [phraseStep, hnone]
    rfl
  -- a phrase that is found later does not stand directly behind the blanks
  have hlater {x : Char} {v : Text} (hrest : d.rest = x :: v) (resume : Nat) {s : Span}
      (hs : s ∈ scanFrom (phraseStep first others) resume (d.offset + x.utf8Size) (some x) v) :
      (masked.slice ⟨n, s.start⟩).isBlankText = false := by
    obtain ⟨u, y, z, stop, hv, hstep⟩ := mem_scanFrom hs
    obtain ⟨e, f, -, -, rfl, -⟩ := phraseStep_eq_some hstep
    have hread :
        Reads d (x :: u) ⟨d.offset + x.utf8Size + size u, u.getLast?.or (some x), y :: z⟩ := by
      refine ⟨by rw [hrest, hv]; rfl, by simp [Nat.add_assoc], ?_⟩
      rw [getLast?_cons]
      cases u.getLast? <;> rfl
    have hslice : masked.slice ⟨n, d.offset + x.utf8Size + size u⟩ = w ++ x :: u :=
      hc.slice (hw.trans hread)
    have hx : isBlank x = false := hhead x (by rw [hrest]; rfl)
    show (masked.slice ⟨n, d.offset + x.utf8Size + size u⟩).isBlankText = false
    rw [hslice, isBlankText, all_append, all_cons, hx]
    simp
  have hmiss {found : List Span}
      (hfound : ∀ s ∈ found, (masked.slice ⟨n, s.start⟩).isBlankText = false) :
      found.head?.elim n (fun s => if (masked.slice ⟨n, s.start⟩).isBlankText then s.stop else n) =
        n := by
    cases found with
    | nil => rfl
    | cons s found => simp [hfound s (by simp)]
  have hskip :
      skipPhrase masked n (first :: others) = (findPhrase? masked (first :: others) n).elim n
      fun s => if (masked.slice ⟨n, s.start⟩).isBlankText then s.stop else n := by
    rw [skipPhrase]
    cases findPhrase? masked (first :: others) n <;> rfl
  rw [hskip, findPhrase?_eq hn, hscan]
  cases hrest : d.rest with
  | nil =>
    have hnone : here? first d = none := here?_eq_none fun x w hx => by rw [hrest] at hx; cases hx
    rw [hnone, scan, hrest]
    rfl
  | cons x v =>
    have hd' : (⟨d.offset, d.last, x :: v⟩ : Cursor) = d := by rw [← hrest]
    rw [scan, hrest, scanFrom, if_neg (by simp), hd']
    cases he : here? first d with
    | none =>
      rw [phraseStep, he]
      exact hmiss fun s hs => hlater hrest _ hs
    | some e =>
      cases hf : rest? others e with
      | none =>
        have hstep : phraseStep first others d = some (none, e.offset) := by
          rw [phraseStep, he]
          simp [hf]
        rw [hstep, bind_some, hf]
        exact hmiss fun s hs => hlater hrest _ hs
      | some f =>
        have hstep : phraseStep first others d = some (some (d.spanTo f), f.offset) := by
          rw [phraseStep, he]
          simp [hf]
        have hslice : masked.slice ⟨n, d.offset⟩ = w := hc.slice hw
        have hall : isBlankText w := all_eq_true.2 hblank
        rw [hstep, bind_some, hf]
        simp [spanTo, hslice, hall]

/-! ### Reading in front of a parenthesis -/

section

variable {a r r' : Text} {k : Nat}

open Cursor Keyword

theorem Both.offset_eq {x : Option Cursor} (h : Both (Twin k r r') x y) (n : Nat) :
    (y.map Cursor.offset).getD (k + n) = k + (x.map Cursor.offset).getD n := by
  match x, y, h with
  | none, none, _ => rfl
  | some c, some d, h => exact Twin.offset_eq h

theorem Both.isSome_eq {x : Option Cursor} (h : Both (Twin k r r') x y) : y.isSome = x.isSome := by
  match x, y, h with
  | none, none, _ => rfl
  | some c, some d, h => rfl

theorem Definition.skipPhrase_of_not_isBoundary (hn : masked.isBoundary n = false)
    (words : List Text) : skipPhrase masked n words = n := by
  cases words with
  | nil => rfl
  | cons first others => simp [skipPhrase, findPhrase?, phrases, hn]

theorem Definition.le_skipPhrase (hfirst : Inked first) :
    n ≤ skipPhrase masked n (first :: others) := by
  cases hn : masked.isBoundary n with
  | false => exact Nat.le_of_eq (skipPhrase_of_not_isBoundary hn _).symm
  | true =>
    rw [skipPhrase_eq hn hfirst]
    have hle : n ≤ ((ofOffset masked n).skipWhile isBlank).offset :=
      le_skipWhile (ofOffset masked n) isBlank
    cases hd : here? first ((ofOffset masked n).skipWhile isBlank) with
    | none => exact Nat.le_refl n
    | some d =>
      obtain ⟨u, hu, -⟩ := here?_reads hd
      cases he : rest? others d with
      | none => simp [he]
      | some e =>
        obtain ⟨v, hv⟩ := rest?_reads he
        have h1 := hu.le
        have h2 := hv.le
        simp only [bind_some, he, map_some, getD_some]
        omega

/-- A phrase is skipped in both texts if they are seen the same way behind the blanks. -/
theorem Definition.skipPhrase_twin {masked' : Text} (hn : masked.isBoundary n)
    (hn' : masked'.isBoundary (k + n))
    (hskip : Twin k r r' ((ofOffset masked n).skipWhile isBlank)
      ((ofOffset masked' (k + n)).skipWhile isBlank)) (hfirst : Inked first)
    (hblank : Stops isAsciiBlank r r') (hwords : ∀ w ∈ first :: others, Spared r r' w) :
    skipPhrase masked' (k + n) (first :: others) = k + skipPhrase masked n (first :: others) := by
  rw [skipPhrase_eq hn hfirst, skipPhrase_eq hn' hfirst]
  exact ((hskip.here? (hwords first (by simp))).bind fun x y hxy =>
    hxy.rest? hblank (forall_mem_cons.1 hwords).2).offset_eq n

theorem Definition.skipPhrase_append (h : n ≤ a.size) (hfirst : Inked first)
    (hwords : ∀ w ∈ first :: others, Wordly w) :
    skipPhrase (a ++ '(' :: r') n (first :: others)
      = skipPhrase (a ++ '(' :: r) n (first :: others) := by
  cases hn : a.isBoundary n with
  | false =>
    rw [skipPhrase_of_not_isBoundary (by rw [isBoundary_append_of_le h, hn]),
      skipPhrase_of_not_isBoundary (by rw [isBoundary_append_of_le h, hn])]
  | true =>
    have hboundary (r : Text) : isBoundary (a ++ '(' :: r) n := by
      rw [isBoundary_append_of_le h, hn]
    have hskip := (twin_ofOffset r r' h).skipWhile (p := isBlank) (.cons r r' (by decide))
    simpa using skipPhrase_twin (k := 0) (hboundary r) (by rw [Nat.zero_add]; exact hboundary r')
      (by rwa [Nat.zero_add]) hfirst (.cons r r' (by decide)) fun w hw => (hwords w hw).spared r r'

theorem inked_existence : Inked ("IF" : String).toList := by
  intro x w hx hw
  cases hw
  rw [toLower_of_isBlank hx]
  exact beq_eq_false_iff_ne.2 (Nesting.ne_of_isBlank hx (by decide))

/-- Behind the existence conditions. -/
def Definition.behind (masked : Text) (n : Nat) : Nat := existenceWords.foldl (skipPhrase masked) n

theorem Definition.behind_append (r r' : Text) (h : behind (a ++ '(' :: r) n ≤ a.size) :
    behind (a ++ '(' :: r') n = behind (a ++ '(' :: r) n := by
  have hfirst : skipPhrase (a ++ '(' :: r) n ["IF", "NOT", "EXISTS"] ≤ a.size :=
    Nat.le_trans (le_skipPhrase inked_existence) h
  have hn : n ≤ a.size := Nat.le_trans (le_skipPhrase inked_existence) hfirst
  have hwords : ∀ w ∈ (["IF", "NOT", "EXISTS"] : List Text), Wordly w := by unfold Wordly; decide
  have hwords' : ∀ w ∈ (["IF", "EXISTS"] : List Text), Wordly w := by unfold Wordly; decide
  simp only [behind, existenceWords, foldl_cons, foldl_nil]
  rw [skipPhrase_append (r := r) hn inked_existence hwords]
  exact skipPhrase_append hfirst inked_existence hwords'

/-- Where the table name behind an offset starts. -/
def Definition.nameStart (t : Text) (n : Nat) : Cursor :=
  (ofOffset t (behind (mask t) n)).skipWhile isAsciiBlank

theorem Definition.tableName?_eq (t : Text) (n : Nat) :
    tableName? t n = if (unquote (t.slice ((nameStart t n).spanTo
          ((nameStart t n).skipWhile isTableChar)))).isEmpty then none
        else some (unquote (t.slice ((nameStart t n).spanTo
          ((nameStart t n).skipWhile isTableChar))),
            ((nameStart t n).skipWhile isTableChar).offset) :=
  rfl

theorem Definition.tableName?_eq_some : tableName? t n = some (name, m) ↔
      unquote (t.slice ⟨(nameStart t n).offset, m⟩) = name ∧ name ≠ [] ∧
      ((nameStart t n).skipWhile isTableChar).offset = m := by
  rw [tableName?_eq]
  constructor
  · intro h
    split at h
    · cases h
    · next hname =>
      cases h
      exact ⟨rfl, by simpa using hname, rfl⟩
  · rintro ⟨rfl, hname, rfl⟩
    rw [if_neg (by simpa [spanTo] using hname)]
    rfl

theorem Definition.le_of_tableName? (h : tableName? t n = some (name, m)) : n ≤ m := by
  obtain ⟨-, -, rfl⟩ := tableName?_eq_some.1 h
  have hbehind : n ≤ behind (mask t) n :=
    Nat.le_trans (le_skipPhrase inked_existence) (le_skipPhrase inked_existence)
  have hstart := le_skipWhile (ofOffset t (behind (mask t) n)) isAsciiBlank
  exact (hbehind.trans hstart).trans (le_skipWhile (nameStart t n) isTableChar)

/-- The table name is read in front of the parenthesis. -/
theorem Definition.tableName?_append (hsize : b.size = a.size)
    (hmask : mask (a ++ '(' :: r) = b ++ '(' :: s) (hmask' : mask (a ++ '(' :: r') = b ++ '(' :: s')
    (h : tableName? (a ++ '(' :: r) n = some (name, m)) (hm : m ≤ a.size) :
    tableName? (a ++ '(' :: r') n = some (name, m) := by
  obtain ⟨hname, hne, hstop⟩ := tableName?_eq_some.1 h
  have hstart : (nameStart (a ++ '(' :: r) n).offset ≤ a.size :=
    Nat.le_trans (le_skipWhile _ isTableChar) (hstop ▸ hm)
  have htwin :
      Twin 0 ('(' :: r) ('(' :: r') (nameStart (a ++ '(' :: r) n)
        (nameStart (a ++ '(' :: r') n) := by
    have hk : behind (b ++ '(' :: s) n ≤ a.size := by
      rw [← hmask]
      exact Nat.le_trans (le_skipWhile (ofOffset (a ++ '(' :: r) _) isAsciiBlank) hstart
    rw [nameStart, nameStart, hmask, hmask', behind_append s s' (by omega)]
    exact (twin_ofOffset r r' hk).skipWhile (p := isAsciiBlank) (.cons r r' (by decide))
  refine tableName?_eq_some.2 ⟨?_, hne, ?_⟩
  · rw [← hname, htwin.offset_eq, Nat.zero_add, slice_append_of_le hm, slice_append_of_le hm]
  · rw [← hstop, (htwin.skipWhile (p := isTableChar) (.cons r r' (by decide))).offset_eq,
      Nat.zero_add]

theorem charAt?_append (h : n ≤ a.size) :
    charAt? (a ++ '(' :: r') n = charAt? (a ++ '(' :: r) n := by
  rw [charAt?, charAt?, isBoundary_append_of_le h, isBoundary_append_of_le h,
    after_append_of_le h, after_append_of_le h]
  cases a.after n <;> rfl

theorem Nesting.le_of_closing? (h : closing? t n = some m) : n ≤ m := by
  obtain ⟨a, v, r, -, rfl, rfl, -⟩ := exists_of_closing? h
  omega

theorem Nesting.closing?_append (h : closing? (a ++ '(' :: r) n = some m) (hm : m < a.size) :
    closing? (a ++ '(' :: r') n = some m := by
  obtain ⟨e, v, s, heq, rfl, rfl, hlevel⟩ := exists_of_closing? h
  have hsize : size (e ++ '(' :: v) = e.size + 1 + v.size := by
    rw [size_append, Nat.add_assoc]
    rfl
  have hcut : (e ++ '(' :: v) ++ ')' :: s = a ++ '(' :: r := by simp [heq]
  obtain ⟨u, rfl, hu⟩ := exists_append_of_size_le hcut (by omega)
  cases u with
  | nil => rw [append_nil] at hm; omega
  | cons y u =>
    cases hu
    simpa using closing?_of_level? hlevel e (u ++ '(' :: r')

/-- The offset behind the ASCII blanks at an offset. -/
def blankEnd (t : Text) (n : Nat) : Nat := ((ofOffset t n).skipWhile isAsciiBlank).offset

theorem le_blankEnd (t : Text) (n : Nat) : n ≤ blankEnd t n :=
  le_skipWhile (ofOffset t n) isAsciiBlank

theorem blankEnd_append (r r' : Text) (h : n ≤ a.size) :
    blankEnd (a ++ '(' :: r') n = blankEnd (a ++ '(' :: r) n := by
  simpa [blankEnd]
    using ((twin_ofOffset r r' h).skipWhile (p := isAsciiBlank) (.cons r r' (by decide))).offset_eq

theorem Insertion.columns?_eq (t masked : Text) (n : Nat) : columns? t masked n =
      if masked.charAt? (blankEnd masked n) = some '(' then
        (Nesting.closing? masked (blankEnd masked n)).bind fun close =>
          some ((Nesting.parts (t.slice ⟨blankEnd masked n + 1, close⟩) ',').map unquote,
            blankEnd masked (close + 1))
      else some ([], blankEnd masked n) :=
  rfl

/-- How a column list is read. -/
theorem Insertion.columns?_eq_some : columns? t masked n = some (names, m) ↔
      (masked.charAt? (blankEnd masked n) = some '(' ∧
        ∃ close, Nesting.closing? masked (blankEnd masked n) = some close ∧
          names = (Nesting.parts (t.slice ⟨blankEnd masked n + 1, close⟩) ',').map unquote ∧
          m = blankEnd masked (close + 1)) ∨
      (masked.charAt? (blankEnd masked n) ≠ some '(' ∧ names = [] ∧ m = blankEnd masked n) := by
  rw [columns?_eq]
  by_cases hchar : masked.charAt? (blankEnd masked n) = some '('
  · rw [if_pos hchar, bind_eq_some_iff]
    constructor
    · rintro ⟨close, hclose, ⟨⟩⟩
      exact .inl ⟨hchar, close, hclose, rfl, rfl⟩
    · rintro (⟨-, close, hclose, rfl, rfl⟩ | ⟨hne, -⟩)
      · exact ⟨close, hclose, rfl⟩
      · exact absurd hchar hne
  · rw [if_neg hchar]
    constructor
    · rintro ⟨⟩
      exact .inr ⟨hchar, rfl, rfl⟩
    · rintro (⟨hc, -⟩ | ⟨-, rfl, rfl⟩)
      · exact absurd hc hchar
      · rfl

theorem Insertion.le_of_columns? (h : columns? t masked n = some (names, m)) : n ≤ m := by
  have hn := le_blankEnd masked n
  rcases columns?_eq_some.1 h with ⟨-, close, hclose, -, rfl⟩ | ⟨-, -, rfl⟩
  · have h1 := Nesting.le_of_closing? hclose
    have h2 := le_blankEnd masked (close + 1)
    omega
  · exact hn

/-- The column list is read in front of the parenthesis. -/
theorem Insertion.columns?_append (hsize : b.size = a.size)
    (h : columns? (a ++ '(' :: r) (b ++ '(' :: s) n = some (names, m)) (hm : m ≤ a.size) :
    columns? (a ++ '(' :: r') (b ++ '(' :: s') n = some (names, m) := by
  have hn := le_blankEnd (b ++ '(' :: s) n
  rcases columns?_eq_some.1 h with ⟨hchar, close, hclose, rfl, rfl⟩ | ⟨hchar, rfl, rfl⟩
  · have hle := Nesting.le_of_closing? hclose
    have hnext := le_blankEnd (b ++ '(' :: s) (close + 1)
    refine columns?_eq_some.2 (.inl ?_)
    rw [blankEnd_append s s' (n := n) (by omega)]
    refine ⟨?_, close, Nesting.closing?_append hclose (by omega), ?_, ?_⟩
    · rw [charAt?_append (r := s) (by omega), hchar]
    · have hclosed : close ≤ a.size := by omega
      rw [slice_append_of_le hclosed, slice_append_of_le hclosed]
    · exact (blankEnd_append s s' (by omega)).symm
  · refine columns?_eq_some.2 (.inr ?_)
    rw [blankEnd_append s s' (n := n) (by omega)]
    refine ⟨?_, rfl, rfl⟩
    rwa [charAt?_append (r := s) (by omega)]

theorem Keyword.isAt_append (h : n ≤ a.size) (hword : Wordly word) :
    isAt (a ++ '(' :: r') word n = isAt (a ++ '(' :: r) word n := by
  rw [isAt, isAt, isBoundary_append_of_le h, isBoundary_append_of_le h,
    ((twin_ofOffset r r' h).here? (hword.spared r r')).isSome_eq]

theorem Insertion.valuesEnd?_append (h : n ≤ a.size) :
    valuesEnd? (a ++ '(' :: r') n = valuesEnd? (a ++ '(' :: r) n := by
  have hvalues : Wordly ("VALUES" : String).toList := by unfold Wordly; decide
  have hvalue : Wordly ("VALUE" : String).toList := by unfold Wordly; decide
  rw [valuesEnd?, valuesEnd?, isAt_append h hvalues, isAt_append h hvalue]

/-! ### The verb -/

theorem Text.exists_findFrom? (offset : Nat) (b : Text) : ∃ n, n ≤ offset + b.size ∧
    ∀ x, findFrom? (· == '(') offset (b ++ '(' :: x) = some n := by
  induction b generalizing offset with
  | nil => exact ⟨offset, by simp, fun x => rfl⟩
  | cons c b ih =>
    by_cases hc : c = '('
    · exact ⟨offset, by omega, fun x => by simp [findFrom?, hc]⟩
    · obtain ⟨n, hn, hfind⟩ := ih (offset + c.utf8Size)
      refine ⟨n, by rw [size_cons]; omega, fun x => ?_⟩
      rw [cons_append, findFrom?, if_neg (by simpa using hc), hfind]

/-- The step of a search for a keyword. -/
def Keyword.wordStep (word : Text) (c : Cursor) : Option (Option Nat × Nat) :=
  (here? word c).map fun e => (some c.offset, e.offset)

theorem Keyword.find?_eq (t word : Text) :
    find? t word 0 = ((Cursor.start t).scan (wordStep word)).head? := by
  have hfind (c : Cursor) :
      c.findAll (fun c => do return (c.offset, ← here? word c)) = c.scan (wordStep word) := by
    rw [Cursor.findAll]
    congr 1
    funext d
    rw [wordStep]
    cases here? word d <;> rfl
  rw [find?, isBoundary_zero, Cursor.ofOffset, before_zero, after_zero, hfind]
  rfl

/-- A keyword that can be read is found, or one before it. -/
theorem Keyword.exists_find? {P : Nat → Prop} {u : Text} {e : Cursor}
    (h : here? word ⟨u.size, u.getLast?, r⟩ = some e) (hu : P u.size)
    (hfirst : ∀ v c w d, u = v ++ c :: w →
      here? word ⟨size v, v.getLast?, c :: (w ++ r)⟩ = some d → P (size v)) :
    ∃ n, find? (u ++ r) word 0 = some n ∧ P n := by
  have hr : r ≠ [] := by
    rintro rfl
    obtain ⟨hne, -, hplain, -⟩ := here?_eq_some.1 h
    obtain ⟨c, word, rfl⟩ := exists_cons_of_ne_nil hne
    cases hplain
  have hstep :
      wordStep word ⟨0 + u.size, u.getLast?.or none, r⟩ = some (some u.size, e.offset) := by
    rw [Nat.zero_add, or_none, wordStep, h, map_some]
  rw [find?_eq]
  refine exists_head?_scanFrom hr hstep hu (Nat.zero_le _) fun v c w found stop hcut hfind => ?_
  simp only [start, Nat.zero_add, or_none] at hfind
  obtain ⟨d, hd, heq⟩ := map_eq_some_iff.1 hfind
  cases heq
  refine ⟨fun hnone => (by cases hnone), fun y hy => ?_⟩
  cases hy
  exact hfirst v c w d hcut hd

theorem Keyword.exists_find?_le {u : Text} {e : Cursor}
    (h : here? word ⟨u.size, u.getLast?, r⟩ = some e) :
    ∃ n, find? (u ++ r) word 0 = some n ∧ n ≤ u.size :=
  exists_find? h (Nat.le_refl _) fun v c w _ hu _ => by
    rw [hu, size_append]
    exact Nat.le_add_right _ _

/-- A keyword in front of a parenthesis is found whatever stands behind it, or one before it. -/
theorem Keyword.exists_find?_append (hword : Wordly word)
    (h : find? (b ++ '(' :: r) word 0 = some n) (hn : n < b.size) (r' : Text) :
    ∃ m, find? (b ++ '(' :: r') word 0 = some m ∧ m ≤ n := by
  obtain ⟨-, -, c, d, -, ⟨u, ht, hoffset, hlast⟩, rfl, hd⟩ := at_of_find? h
  obtain ⟨w, rfl, hrest⟩ := exists_append_of_size_le ht.symm (by omega)
  have hboth := (Twin.mk (k := 0) u.size u.getLast? w).here? (hword.spared r r')
  rw [← hrest, ← hlast, ← hoffset, hd, hoffset, hlast, Nat.zero_add] at hboth
  cases hd' : here? word ⟨u.size, u.getLast?, w ++ '(' :: r'⟩ with
  | none =>
    rw [hd'] at hboth
    exact hboth.elim
  | some e =>
    rw [append_assoc, hoffset]
    exact exists_find?_le hd'

theorem Keyword.find?_append (hword : Wordly word) (h : find? (b ++ '(' :: r) word 0 = some n)
    (hn : n < b.size) : find? (b ++ '(' :: r') word 0 = some n := by
  obtain ⟨m, hm, hle⟩ := exists_find?_append hword h hn r'
  obtain ⟨k, hk, hle'⟩ := exists_find?_append hword hm (by omega) r
  rw [h] at hk
  cases hk
  rwa [Nat.le_antisymm hle' hle]

/-- The end of the verb is found in front of the parenthesis. -/
theorem Insertion.verbEnd?_append (h : verbEnd? (a ++ '(' :: r) = some n) (hn : n < a.size) :
    verbEnd? (a ++ '(' :: r') = some n := by
  obtain ⟨paren, hle, hparen⟩ := exists_findFrom? 0 a
  have hfirst (x : Text) :
      ((a ++ '(' :: x).find? (· == '(')).getD (a ++ '(' :: x).size = paren := by
    rw [Text.find?, hparen]
    rfl
  have hinto : Wordly ("INTO" : String).toList := by unfold Wordly; decide
  have hfind : (find? (a ++ '(' :: r') "INTO".toList 0).filter (· < paren)
      = (find? (a ++ '(' :: r) "INTO".toList 0).filter (· < paren) := by
    refine Option.ext fun k => ?_
    rw [filter_eq_some_iff, filter_eq_some_iff, decide_eq_true_eq]
    exact and_congr_left fun hlt =>
      ⟨fun hk => find?_append hinto hk (by omega), fun hk => find?_append hinto hk (by omega)⟩
  rw [verbEnd?, hfirst] at h
  rw [verbEnd?, hfirst, hfind]
  split at h
  · exact h
  · -- without INTO the verb ends at the first blank behind the first word
    obtain ⟨w, hw, -, -⟩ := skipWhile_reads (start (a ++ '(' :: r)) isAsciiBlank
    have htwin : Twin 0 ('(' :: r) ('(' :: r') ((start (a ++ '(' :: r)).skipWhile isAsciiBlank)
        ((start (a ++ '(' :: r')).skipWhile isAsciiBlank) :=
      (Twin.mk 0 none a).skipWhile (.cons r r' (by decide))
    generalize (start (a ++ '(' :: r)).skipWhile isAsciiBlank = c at h hw htwin
    generalize (start (a ++ '(' :: r')).skipWhile isAsciiBlank = c' at htwin
    obtain ⟨offset, last, front⟩ := htwin
    have ha : a = w ++ front := by
      have hrest : a ++ '(' :: r = w ++ front ++ '(' :: r := by
        rw [append_assoc]
        exact hw.rest
      exact append_cancel_right hrest
    have hoffset : offset = 0 + w.size := hw.offset
    rw [Nat.zero_add]
    refine findFrom?_append h ?_
    rw [ha, size_append] at hn
    simp only
    omega

theorem Text.startsWith_append (hword : Wordly word) (b : Text) :
    startsWith (b ++ '(' :: r') word = startsWith (b ++ '(' :: r) word := by
  induction b generalizing word with
  | nil =>
    cases word with
    | nil => rfl
    | cons w word =>
      have hw : ('('.toLower == w.toLower) = false := hword w (by simp)
      simp only [nil_append, startsWith, hw, Bool.false_and]
  | cons c b ih =>
    cases word with
    | nil => rfl
    | cons w word =>
      simp only [cons_append, startsWith]
      rw [ih (forall_mem_cons.1 hword).2]

theorem Text.mem_dropWhile (hx : x ∈ b) (hp : p x = false) : x ∈ b.dropWhile p := by
  obtain ⟨w, hb, hall, -⟩ := exists_dropWhile p b
  rw [hb] at hx
  rcases mem_append.1 hx with hw | hx
  · simp [hall x hw] at hp
  · exact hx

theorem Text.dropWhile_append_of_mem (hx : x ∈ b) (hp : p x = false) (y : Text) :
    (b ++ y).dropWhile p = b.dropWhile p ++ y := by
  have hne : (b.dropWhile p).isEmpty = false :=
    isEmpty_eq_false_iff_exists_mem.2 ⟨x, mem_dropWhile hx hp⟩
  rw [dropWhile_append, hne]
  rfl

/-- What stands behind blanks and opening parentheses, if anything does, is what a text goes on
with. -/
theorem Text.trimStart_parens_append (hx : x ∈ b) (hblank : isBlank x = false) (hparen : x ≠ '(')
    (y : Text) :
    trimStart ((b ++ y).trimStart.dropWhile (· == '(')) =
      trimStart (b.trimStart.dropWhile (· == '(')) ++ y := by
  have hparen' : (x == '(') = false := beq_eq_false_iff_ne.2 hparen
  have hx1 := mem_dropWhile (p := isBlank) hx hblank
  have hx2 := mem_dropWhile (p := (· == '(')) hx1 hparen'
  rw [trimStart, trimStart, dropWhile_append_of_mem hx hblank, dropWhile_append_of_mem hx1 hparen',
    dropWhile_append_of_mem hx2 hblank]
  rfl

/-- The kind is read in front of the parenthesis, if anything but blanks and parentheses is. -/
theorem Kind.ofText_append (hx : x ∈ a) (hblank : isBlank x = false) (hparen : x ≠ '(') :
    ofText (a ++ '(' :: r') = ofText (a ++ '(' :: r) := by
  have hbody := trimStart_parens_append hx hblank hparen
  have hverbs : ∀ v ∈ verbs, Wordly v.1 := by unfold Wordly; decide
  have hfind : ∀ l : List (Text × Kind), (∀ v ∈ l, Wordly v.1) → ∀ b : Text,
      l.find? (fun v => startsWith (b ++ '(' :: r') v.1) =
        l.find? (fun v => startsWith (b ++ '(' :: r) v.1) := by
    intro l hl b
    induction l with
    | nil => rfl
    | cons v l ih =>
      rw [find?_cons, find?_cons, startsWith_append (hl v (by simp)), ih (forall_mem_cons.1 hl).2]
  rw [ofText, ofText, hbody, hbody, hfind verbs hverbs]

end

/-! ### Value groups -/

/-- Blanks that may stand between two tokens. -/
def Gap (t : Text) : Prop := ∀ c ∈ t, isAsciiBlank c = true

theorem Gap.no_quote (h : Gap t) : Code t :=
  code_of_isBlank fun c hc => isBlank_of_isAsciiBlank (h c hc)

namespace Insertion

open Nesting

/-- A group ends with the parenthesis that closes it. -/
theorem groupsFrom?_close (h : level? d body = some 0) (tail : Text) :
    groupsFrom? (.close start (d + 1)) n (body ++ ')' :: tail)
      = (groupsFrom? .comma (n + body.size + 1) tail).map (⟨start, n + body.size + 1⟩ :: ·) := by
  induction body generalizing d n with
  | nil =>
    cases h
    rfl
  | cons c body ih =>
    have hsize : n + size (c :: body) + 1 = n + c.utf8Size + size body + 1 := by
      rw [size_cons, ← Nat.add_assoc]
    rw [hsize]
    by_cases hopen : c = '('
    · subst hopen
      exact ih (d := d + 1) h
    · by_cases hclose : c = ')'
      · subst hclose
        cases d with
        | zero => cases h
        | succ d => exact ih (d := d) h
      · rw [level?, if_neg hopen, if_neg hclose] at h
        rw [← ih h, cons_append, groupsFrom?]
        simp only [if_neg hopen, if_neg hclose]

theorem groupsFrom?_of_not_closed (h : closingFrom? (d + 1) n t = none) :
    groupsFrom? (.close start (d + 1)) n t = none := by
  induction t generalizing d n with
  | nil => rfl
  | cons c t ih =>
    rw [closingFrom?] at h
    rw [groupsFrom?]
    split_ifs at h ⊢ with hopen hclose hd
    · exact ih h
    · obtain ⟨d, rfl⟩ := Nat.exists_eq_succ_of_ne_zero (show d ≠ 0 by omega)
      exact ih h
    · exact ih h

/-- A group ends at the parenthesis that brings the depth back. -/
theorem exists_of_groupsFrom?_close (h : groupsFrom? (.close start (d + 1)) n t = some groups) :
    ∃ body tail groups',
      t = body ++ ')' :: tail ∧ level? d body = some 0 ∧
      groups = ⟨start, n + size body + 1⟩ :: groups' ∧
      groupsFrom? .comma (n + size body + 1) tail = some groups' := by
  cases hclose : closingFrom? (d + 1) n t with
  | none =>
    rw [groupsFrom?_of_not_closed hclose] at h
    cases h
  | some m =>
    obtain ⟨body, tail, rfl, -, hlevel⟩ := closingFrom?_eq_some.1 hclose
    rw [groupsFrom?_close hlevel] at h
    obtain ⟨groups', htail, rfl⟩ := map_eq_some_iff.1 h
    exact ⟨body, tail, groups', rfl, hlevel, rfl, htail⟩

theorem groupsFrom?_gap {y : Text} (hy : Gap y) (t : Text) :
    groupsFrom? .comma n (y ++ t) = groupsFrom? .comma (n + y.size) t ∧
      groupsFrom? .group n (y ++ t) = groupsFrom? .group (n + y.size) t := by
  induction y generalizing n with
  | nil => exact ⟨rfl, rfl⟩
  | cons c y ih =>
    have hnext := ih (n := n + c.utf8Size) (forall_mem_cons.1 hy).2
    rw [Nat.add_assoc] at hnext
    simpa [groupsFrom?, hy c (by simp)] using hnext

/-- There is no group where no parenthesis opens. -/
theorem groupsFrom?_group_eq_nil :
    groupsFrom? .group n t = some [] ↔ ¬ ∃ y r, t = y ++ '(' :: r ∧ Gap y := by
  induction t generalizing n with
  | nil => simp [groupsFrom?]
  | cons c t ih =>
    rw [exists_append_cons_iff, groupsFrom?]
    split_ifs with hblank hopen
    · have hopen : c ≠ '(' := by rintro rfl; cases hblank
      simp [ih, hopen, Gap, hblank]
    · refine iff_of_false (fun h => ?_) (by simp [hopen, Gap])
      obtain ⟨_, _, _, -, -, hne, -⟩ := exists_of_groupsFrom?_close (d := 0) h
      cases hne
    · simp [hopen, Gap, hblank]

/-- There is no further group where no parenthesis opens behind a comma. -/
theorem groupsFrom?_comma_eq_nil : groupsFrom? .comma n t = some [] ↔
    ¬ ∃ x r, t = x ++ ',' :: r ∧ Gap x ∧ ∃ y s, r = y ++ '(' :: s ∧ Gap y := by
  induction t generalizing n with
  | nil => simp [groupsFrom?]
  | cons c t ih =>
    rw [exists_append_cons_iff, groupsFrom?]
    split_ifs with hblank hcomma
    · have hcomma : c ≠ ',' := by rintro rfl; cases hblank
      simp [ih, hcomma, Gap, hblank]
    · rw [groupsFrom?_group_eq_nil]
      subst hcomma
      simp [Gap, hblank]
    · simp [hcomma, Gap, hblank]

theorem groupsFrom?_nil (h : groupsFrom? .comma m t = some []) (n : Nat) :
    groupsFrom? .comma n t = some [] :=
  groupsFrom?_comma_eq_nil.2 (groupsFrom?_comma_eq_nil.1 h)

theorem groupsFrom?_group {lead : Text} (hlead : Gap lead) (hlevel : level? 0 body = some 0)
    (tail : Text) :
    groupsFrom? .group n (lead ++ '(' :: (body ++ ')' :: tail))
      = (groupsFrom? .comma (n + lead.size + 1 + body.size + 1) tail).map
        (⟨n + lead.size, n + lead.size + 1 + body.size + 1⟩ :: ·) := by
  rw [(groupsFrom?_gap hlead _).2]
  exact groupsFrom?_close (d := 0) hlevel tail

theorem exists_of_groupsFrom?_group (h : groupsFrom? .group n t = some (g :: groups)) :
    ∃ lead body tail,
      t = lead ++ '(' :: (body ++ ')' :: tail) ∧ Gap lead ∧ level? 0 body = some 0 ∧
      g = ⟨n + size lead, n + size lead + 1 + size body + 1⟩ ∧
      groupsFrom? .comma (n + size lead + 1 + size body + 1) tail = some groups := by
  obtain ⟨lead, r, rfl, hlead⟩ : ∃ y r, t = y ++ '(' :: r ∧ Gap y := by
    by_contra hno
    rw [groupsFrom?_group_eq_nil.2 hno] at h
    cases h
  rw [(groupsFrom?_gap hlead _).2] at h
  obtain ⟨body, tail, groups', rfl, hlevel, hgroups, htail⟩ :=
    exists_of_groupsFrom?_close (d := 0) h
  cases hgroups
  exact ⟨lead, body, tail, rfl, hlead, hlevel, rfl, htail⟩

/-- VALUES or VALUE, where it is read. -/
theorem exists_of_valuesEnd? (h : valuesEnd? t n = some m) :
    ∃ (a w r : Text) (c : Char), t = a ++ c :: (w ++ r) ∧ a.size = n ∧ m = n + size (c :: w) ∧
      c.toLower = 'v' ∧
      ∃ word ∈ (["VALUES", "VALUE"] : List Text), lower (c :: w) = lower word := by
  obtain ⟨word, hword, hat, hm⟩ : ∃ word : Text, 'V' :: word ∈ (["VALUES", "VALUE"] : List Text) ∧
      isAt t ('V' :: word) n ∧ m = n + size ('V' :: word) := by
    unfold valuesEnd? at h
    split at h
    · next hat =>
      cases h
      exact ⟨"ALUES", by decide, hat, rfl⟩
    · split at h
      · next hat =>
        cases h
        exact ⟨"ALUE", by decide, hat, rfl⟩
      · cases h
  obtain ⟨hn, hhere⟩ := Bool.and_eq_true_iff.1 hat
  obtain ⟨d, hd⟩ := isSome_iff_exists.1 hhere
  obtain ⟨w, hw, hlower, hsize⟩ := Cursor.here?_reads hd
  obtain ⟨a, ht, ha, -⟩ := Cursor.at_ofOffset hn
  obtain ⟨c, w, rfl, hc, -⟩ := map_eq_cons_iff.1 hlower
  exact ⟨a, w, d.rest, c, by rw [ht, hw.rest]; rfl, ha.symm, by rw [hm, hsize], hc, _,
    hword, hlower⟩

/-- The place behind VALUES is a boundary, and a letter stands in front of it. -/
theorem valuesEnd?_eq_some (h : valuesEnd? t n = some m) :
    t.isBoundary m ∧ n < m ∧ ∃ x ∈ t.before m, x.toLower = 'v' := by
  obtain ⟨a, w, r, c, rfl, rfl, rfl, hc, -⟩ := exists_of_valuesEnd? h
  have hcut : a ++ c :: (w ++ r) = (a ++ c :: w) ++ r := by simp
  have hpos := c.utf8Size_pos
  rw [hcut, ← size_append]
  refine ⟨isBoundary_append _ r, ?_, c, ?_, hc⟩
  · rw [size_append, size_cons]
    omega
  · rw [before_size_append]
    simp

/-- What the parts of a statement with value groups are made of. -/
theorem ofText?_eq_some (hne : j.groups ≠ []) :
    ofText? t = some j ↔ Kind.ofText t = .insert ∧ ∃ v n m k,
      verbEnd? (mask t) = some v ∧ Definition.tableName? t v = some (j.table, n) ∧
      columns? t (mask t) n = some (j.columns, m) ∧
      valuesEnd? (mask t) m = some k ∧
      groupsFrom? .group k ((mask t).after k) = some j.groups ∧
      j.tail = (j.groups.getLast?.map (·.stop)).getD m := by
  constructor
  · intro h
    obtain ⟨_, hkind, v, hv, ⟨table, n⟩, htable, h⟩ := of_bind₃ h
    obtain ⟨⟨columns, m⟩, hcolumns, h⟩ := bind_eq_some_iff.1 h
    simp only at h
    split at h
    · next k hk =>
      obtain ⟨groups, hgroups, h⟩ := bind_eq_some_iff.1 h
      cases h
      exact ⟨by simpa [guard] using hkind, v, n, m, k, hv, htable, hcolumns, hk, hgroups, rfl⟩
    · cases h
      exact absurd rfl hne
  · rintro ⟨hkind, v, n, m, k, hv, htable, hcolumns, hk, hgroups, htail⟩
    simp [ofText?, guard, hkind, hv, htable, hcolumns, hk, hgroups, ← htail]

/-- A statement with value groups, read again after its first group and what follows it were written
anew. -/
theorem ofText?_front (h : ofText? t = some j) {gs : List Span} (hg : j.groups = g :: gs) :
    ∃ a body tail, t = a ++ '(' :: (body ++ ')' :: tail) ∧
      Closed a ∧ Closed body ∧ level? 0 (mask body) = some 0 ∧
      g = ⟨a.size, a.size + 1 + size body + 1⟩ ∧
      groupsFrom? .comma (a.size + 1 + size body + 1) (mask tail) = some gs ∧
      ∀ body' tail', Closed body' → level? 0 (mask body') = some 0 →
        ofText? (a ++ '(' :: (body' ++ ')' :: tail'))
          = (groupsFrom? .comma (a.size + 1 + size body' + 1) (mask tail')).map fun gs' =>
            let groups := ⟨a.size, a.size + 1 + size body' + 1⟩ :: gs'
            ⟨j.table, j.columns, groups, (groups.getLast?.map (·.stop)).getD 0⟩ := by
  obtain ⟨hkind, v, n, m, k, hv, htable, hcolumns, hk, hgroups, htail⟩ :=
    (ofText?_eq_some (by simp [hg])).1 h
  obtain ⟨hboundary, hmk, x, hx, hxv⟩ := valuesEnd?_eq_some hk
  rw [hg] at hgroups
  obtain ⟨lead, b, r, hafter, hlead, hlevel, hgroup, hrest⟩ := exists_of_groupsFrom?_group hgroups
  have hmask : mask t = ((mask t).before k ++ lead) ++ '(' :: (b ++ ')' :: r) := by
    rw [append_assoc, ← hafter, before_append_after]
  have hbefore : ((mask t).before k).size = k := by
    simpa [isBoundary] using hboundary
  generalize (mask t).before k = front at hmask hbefore hx
  obtain ⟨a, rest, rfl, ha, hma, hmr⟩ := exists_code hmask (by decide) (by decide)
  obtain ⟨body, tail, rfl, hbody, rfl, rfl⟩ := exists_code hmr (by decide) (by decide)
  have hsize : (mask a).size = a.size := size_mask a
  have hasize : a.size = k + lead.size := by rw [← hsize, hma, size_append, hbefore]
  have hmasks (body' tail' : Text) (hb : Closed body') : mask (a ++ '(' :: (body' ++ ')' :: tail'))
        = mask a ++ '(' :: (mask body' ++ ')' :: mask tail') := by
    rw [mask_append_cons ha (by decide), mask_append_cons hb (by decide)]
  have hvn := Definition.le_of_tableName? htable
  have hnm := le_of_columns? hcolumns
  refine ⟨a, body, tail, rfl, ha, hbody, hlevel, ?_, ?_, fun body' tail' hb hl => ?_⟩
  · rw [hgroup, hasize, size_mask]
  · rw [size_mask] at hrest
    rwa [hasize]
  · have hxa : x ∈ a := by
      refine mem_of_mem_mask (by rw [hma]; simp [hx]) ?_
      rintro rfl
      cases hxv
    have hblank : isBlank x = false := isBlank_of_toLower hxv (by decide)
    have hparen : x ≠ '(' := by
      rintro rfl
      cases hxv
    rw [hmasks body tail hbody] at hv hcolumns hk
    have hkind' : Kind.ofText (a ++ '(' :: (body' ++ ')' :: tail')) = .insert := by
      rw [← hkind]
      exact Kind.ofText_append hxa hblank hparen
    have hv' : verbEnd? (mask (a ++ '(' :: (body' ++ ')' :: tail'))) = some v := by
      rw [hmasks body' tail' hb]
      exact verbEnd?_append hv (by omega)
    have htable' :=
      Definition.tableName?_append hsize (hmasks body tail hbody) (hmasks body' tail' hb)
      htable (by omega)
    have hcolumns' : columns? (a ++ '(' :: (body' ++ ')' :: tail'))
        (mask (a ++ '(' :: (body' ++ ')' :: tail'))) n = some (j.columns, m) := by
      rw [hmasks body' tail' hb]
      exact columns?_append hsize hcolumns (by omega)
    have hk' : valuesEnd? (mask (a ++ '(' :: (body' ++ ')' :: tail'))) m = some k := by
      rw [hmasks body' tail' hb, valuesEnd?_append (by omega), hk]
    have hgroups' : groupsFrom? .group k ((mask (a ++ '(' :: (body' ++ ')' :: tail'))).after k)
        = (groupsFrom? .comma (a.size + 1 + size body' + 1) (mask tail')).map
          (⟨a.size, a.size + 1 + size body' + 1⟩ :: ·) := by
      rw [hmasks body' tail' hb, hma, append_assoc, ← hbefore, after_size_append,
        groupsFrom?_group hlead hl, hbefore, size_mask, hasize]
    simp only [ofText?, hkind', hv', htable', hcolumns', hk', hgroups', bind_eq_bind, bind_some]
    cases groupsFrom? .comma (a.size + 1 + size body' + 1) (mask tail') <;> rfl

/-- A statement of one row, read again after its row was written anew. -/
theorem ofText?_reparse (h : ofText? t = some j) (hg : j.groups = [g]) :
    ∃ a body tail, t = a ++ '(' :: (body ++ ')' :: tail) ∧ Closed body ∧
      level? 0 (mask body) = some 0 ∧ g = ⟨a.size, a.size + 1 + size body + 1⟩ ∧
      ∀ body', Closed body' → level? 0 (mask body') = some 0 → ∃ j',
        ofText? (a ++ '(' :: (body' ++ ')' :: tail)) = some j' ∧ j'.table = j.table ∧
        j'.columns = j.columns ∧ j'.groups = [⟨a.size, a.size + 1 + size body' + 1⟩] := by
  obtain ⟨a, body, tail, ht, -, hbody, hlevel, hspan, hrest, hagain⟩ := ofText?_front h hg
  refine ⟨a, body, tail, ht, hbody, hlevel, hspan, fun body' hb hl => ?_⟩
  have hread := hagain body' tail hb hl
  rw [groupsFrom?_nil hrest] at hread
  exact ⟨_, hread, rfl, rfl, rfl⟩

end Insertion

end Recast
