import Recast.Proofs.Phrases
import Recast.Proofs.Pipeline
import Recast.Proofs.WhereBinding

/-!
# Serialized blobs

A serialized blob gives the lengths of its parts, so one byte more or less inside a literal makes it
unreadable. Statements with blobs go through two passes only, and these exchange code for code: the
literals stay on the text like beads on a string (`Laced`). None is changed, lost or moved
(`convert_keeps_blobs`).
-/

namespace Recast

open List Text
open Option hiding guard

variable {a needle new old r t : Text} {n : Nat} {e : Edit} {ls : List Text}

namespace Literal

/-! ### Literals on a string -/

def literals (t : Text) : List Text := ((pieces t).filter (·.isLiteral)).map (·.text)

/-- The given literals one behind another, with code before, between and behind them. One that is
not closed is the last and ends the text. -/
inductive Laced : List Text → Text → Prop
  | nil {g : Text} : (∀ c ∈ g, isQuote c = false) → Laced [] g
  | cons {g : Text} {q : Char} {u r : Text} {ls : List Text} : (∀ c ∈ g, isQuote c = false) →
    isQuote q = true → Inside q u → (r ≠ [] → state (some q) u = none) → Laced ls r →
    Laced ((q :: u) :: ls) (g ++ (q :: u ++ r))

theorem Cut.laced {ps : List Piece} (h : Cut n t ps) :
    Laced ((ps.filter (·.isLiteral)).map (·.text)) t := by
  induction h with
  | last hcode => exact .nil hcode
  | literal hcode hq hinside hends _ ih =>
    exact .cons hcode hq hinside (fun hne => (hends hne).1) ih

namespace Laced

variable {ls l₁ l₂ : List Text} {a b w w' : Text}

theorem code_append (hw : Code w) (h : Laced ls b) : Laced ls (w ++ b) := by
  cases h with
  | nil hg => exact .nil (forall_mem_append.2 ⟨hw, hg⟩)
  | cons hg hq hinside hends h =>
    rw [← append_assoc]
    exact .cons (forall_mem_append.2 ⟨hw, hg⟩) hq hinside hends h

/-- Code in front of a text holds none of its literals. -/
theorem of_code_append (hw : Code w) (h : Laced ls (w ++ b)) : Laced ls b := by
  generalize ht : w ++ b = t at h
  cases h with
  | nil hg =>
    subst ht
    exact .nil (forall_mem_append.1 hg).2
  | @cons g q u r ls hg hq hinside hends h =>
    -- a literal starts with a quote, so the code ends in front of it
    rcases append_eq_append_iff.1 ht with ⟨z, rfl, rfl⟩ | ⟨z, rfl, hz⟩
    · exact .cons (forall_mem_append.1 hg).2 hq hinside hends h
    · cases z with
      | nil =>
        rw [nil_append] at hz
        rw [← hz]
        exact .cons (g := []) (by simp) hq hinside hends h
      | cons c z =>
        obtain ⟨rfl, -⟩ := cons.inj hz
        simp [hw q (by simp)] at hq

theorem append (h₁ : Laced l₁ a) (ha : Closed a) (h₂ : Laced l₂ b) : Laced (l₁ ++ l₂) (a ++ b) := by
  induction h₁ with
  | nil hg => exact h₂.code_append hg
  | @cons g q u r ls hg hq hinside hends _ ih =>
    have hclosed : state (some q) u = none ∧ Closed r := by
      have hall := (Code.closed hg).append_iff.1 ha
      rw [cons_append, closed_quote hq, state_append] at hall
      by_cases hr : r = []
      · subst hr
        exact ⟨hall, rfl⟩
      · rw [hends hr] at hall
        exact ⟨hends hr, hall⟩
    rw [append_assoc, append_assoc]
    exact .cons hg hq hinside (fun _ => hclosed.1) (ih hclosed.2)

/-- A text can be cut in front of code that stands outside its literals. -/
theorem exists_split (h : Laced ls (a ++ b)) (ha : Closed a)
    (hb : ∃ c r, b = c :: r ∧ isQuote c = false) :
    ∃ l₁ l₂, ls = l₁ ++ l₂ ∧ Laced l₁ a ∧ Laced l₂ b := by
  obtain ⟨c, b, rfl, hc⟩ := hb
  generalize ht : a ++ c :: b = t at h
  induction h generalizing a with
  | nil hg =>
    subst ht
    have hboth := forall_mem_append.1 hg
    exact ⟨[], [], rfl, .nil hboth.1, .nil hboth.2⟩
  | @cons g q u r ls hg hq hinside hends h ih =>
    rcases append_eq_append_iff.1 ht with ⟨g', rfl, hb⟩ | ⟨a', rfl, hr⟩
    · -- in front of the first literal
      have hboth := forall_mem_append.1 hg
      rw [hb]
      exact ⟨[], _, rfl, .nil hboth.1, .cons hboth.2 hq hinside hends h⟩
    · have hclosed := (Code.closed hg).append_iff.1 ha
      rcases append_eq_append_iff.1 hr with ⟨z, rfl, rfl⟩ | ⟨z, hz, hz'⟩
      · -- behind it
        have hstate := hends (by simp)
        have hz : Closed z := by
          rw [cons_append, closed_quote hq, state_append, hstate] at hclosed
          exact hclosed
        obtain ⟨m₁, m₂, rfl, h₁, h₂⟩ := ih hz rfl
        exact ⟨_ :: m₁, m₂, rfl, .cons hg hq hinside (fun _ => hstate) h₁, h₂⟩
      · cases z with
        | nil =>
          obtain rfl : a' = q :: u := by simpa using hz.symm
          obtain rfl : r = c :: b := by simpa using hz'.symm
          exact ⟨[q :: u], ls, rfl,
            by simpa using cons hg hq hinside (by simp) (.nil (g := []) (by simp)), h⟩
        | cons d z =>
          obtain ⟨rfl, rfl⟩ := cons.inj hz'
          -- inside a literal the reader is never outside in front of anything but a quote
          cases a' with
          | nil =>
            obtain ⟨rfl, -⟩ := cons.inj hz
            simp [hc] at hq
          | cons x a' =>
            obtain ⟨rfl, rfl⟩ := cons.inj hz
            have hread : Reading q (state (some q) a') (c :: z) :=
              Reading.run hq (.inl ⟨rfl, hinside⟩)
            have hsome := hread.eq_some (ne_of_isQuote hq hc)
            simp [Closed, state_cons, next_none_of_isQuote hq, hsome] at hclosed

theorem exchange (h : Laced ls (a ++ (w ++ b))) (ha : Closed a) (hne : w ≠ [])
    (hw : Code w) (hw' : Code w') :
    Laced ls (a ++ (w' ++ b)) := by
  obtain ⟨c, v, rfl⟩ := exists_cons_of_ne_nil hne
  obtain ⟨l₁, l₂, rfl, h₁, h₂⟩ := h.exists_split ha ⟨c, v ++ b, rfl, hw c mem_cons_self⟩
  exact h₁.append ha ((h₂.of_code_append hw).code_append hw')

theorem dropEnd (h : Laced ls a) (ha : Closed a) {p : Char → Bool}
    (hp : ∀ c, p c → isQuote c = false) : Laced ls (Text.dropEnd p a) := by
  obtain ⟨b, hcut, hall, -⟩ := Text.exists_dropEnd p a
  have hb : Code b := fun c hc => hp c (hall c hc)
  generalize Text.dropEnd p a = a' at hcut
  subst hcut
  by_cases hne : b = []
  · subst hne
    rwa [List.append_nil] at h
  · rw [← List.append_nil b] at h
    have hexchange : Laced ls (a' ++ ([] ++ [])) := h.exchange (ha.of_append hb) hne hb (by simp)
    rwa [List.nil_append, List.append_nil] at hexchange

end Laced

end Literal

open Literal Keyword

/-! ### Edits of code -/

namespace Edit

/-- An edit outside literals that exchanges code for code. -/
structure Recodes (t : Text) (e : Edit) (a old b : Text) : Prop extends Exchanges t e a old b where
  closed : Closed a
  nonempty : old ≠ []
  old_code : ∀ c ∈ old, isQuote c = false
  new_code : ∀ c ∈ e.new, isQuote c = false

end Edit

theorem Literal.Laced.applyAll (h : Laced ls t) {edits : List Edit}
    (hedits : ∀ e ∈ edits, ∃ a old b, Edit.Recodes t e a old b) :
    Laced ls (Edit.applyAll t edits) := by
  refine Edit.applyAll_keeps (fun e he => ?_) h
  obtain ⟨a, old, b, hrecodes⟩ := hedits e he
  refine ⟨a, old, b, hrecodes.toExchanges, fun r hr => ?_⟩
  exact hr.exchange hrecodes.closed hrecodes.nonempty hrecodes.old_code hrecodes.new_code

theorem Keyword.exists_of_mem_occurrences (hneedle : Shows Char.toLower needle)
    (h : n ∈ occurrences (mask t) needle) : ∃ a old b, t = a ++ (old ++ b) ∧ Closed a ∧
      a.size = n ∧ old.size = needle.size ∧ lower old = lower needle ∧
      old ≠ [] ∧ Code old := by
  obtain ⟨c, d, hc, rfl, hempty, hplain⟩ := Cursor.at_of_mem_occurrences h
  obtain ⟨y, hy, hlower, hsize⟩ := Cursor.plain?_reads hplain
  have hquote : Code y := sees_toLower.no_quote hlower fun x hx => by
    simpa using all_eq_true.1 (Bool.and_eq_true_iff.1 hneedle).1 x hx
  have hne : y ≠ [] := by
    rintro rfl
    exact hempty (map_eq_nil_iff.1 hlower.symm)
  obtain ⟨a, b, ht, ha, hstart, -⟩ :=
    (hc.clear_of_plain? hplain hneedle).1.exists_stretch hc hy hne hquote
  exact ⟨a, y, b, ht, ha, hstart, hsize, hlower, hne, hquote⟩

theorem Edit.exists_recodes_of_occurrences (hneedle : Shows Char.toLower needle)
    (hnew : Code new)
    (he : e ∈ (occurrences (mask t) needle).map fun n => ⟨⟨n, n + needle.size⟩, new⟩) :
    ∃ a old b, Recodes t e a old b ∧ lower old = lower needle ∧ e.new = new := by
  obtain ⟨n, hn, rfl⟩ := mem_map.1 he
  obtain ⟨a, old, b, ht, ha, hstart, hsize, hlower, hne, hcode⟩ :=
    exists_of_mem_occurrences hneedle hn
  refine ⟨a, old, b, ⟨⟨ht, ?_⟩, ha, hne, hcode, hnew⟩, hlower, rfl⟩
  rw [hstart, hsize]

/-! ### The general pass -/

namespace General

/-- A count is given its name outside literals. -/
theorem exists_recodes_of_count? {c d : Cursor} (hc : Cursor.At (mask t) c)
    (h : count? t c = some (some e, d)) : ∃ a old b, Edit.Recodes t e a old b := by
  obtain ⟨f, g, select, y, hselect, hfront, hclose, rfl, -, -, hcode⟩ := count?_reads h
  have hread := hfront.trans (Cursor.sign?_reads hclose)
  have hcode : Code ((select ++ y) ++ [')']) :=
    forall_mem_append.2 ⟨hcode, by decide⟩
  obtain ⟨a, b, ht, ha, hstart, hstop⟩ :=
    (hc.clear_of_word? hselect (by decide)).1.exists_stretch hc hread (by simp) hcode
  have hslice : t.slice (c.spanTo d) = (select ++ y) ++ [')'] := by
    rw [ht, ← append_assoc a]
    exact slice_append a _ b hstart.symm hstop.symm
  refine ⟨a, _, b, ⟨ht, ?_⟩, ha, by simp, hcode, ?_⟩
  · rw [hstop, hstart]
    rfl
  · rw [hslice]
    exact forall_mem_append.2 ⟨hcode, by decide⟩

theorem laced_nameCounts (h : Laced ls t) : Laced ls (nameCounts t) := by
  refine h.applyAll fun e he => ?_
  obtain ⟨found, hfound, rfl⟩ := mem_filterMap.1 he
  obtain ⟨c, d, hc, hread⟩ := Cursor.at_of_mem_findAll hfound
  exact exists_recodes_of_count? hc hread

theorem laced_replaceAll (h : Laced ls t) (hneedle : Shows Char.toLower needle)
    (hnew : Code new) : Laced ls (Edit.replaceAll t needle new) := by
  refine h.applyAll fun e he => ?_
  obtain ⟨a, old, b, hrecodes, -⟩ := Edit.exists_recodes_of_occurrences hneedle hnew he
  exact ⟨a, old, b, hrecodes⟩

/-! ### Index hints -/

/-- Behind every USE INDEX that shows comes an at sign, so it is no hint. -/
def Unhinted (t : Text) : Prop :=
  ∀ front k rest, mask t = front ++ (k ++ rest) → Stands "USE" ["INDEX"] front k rest →
    rest.head? = some '@'

theorem unhinted_of_findPhrase? (h : findPhrase? (mask t) ["USE", "INDEX"] 0 = none) :
    Unhinted t := by
  intro front k rest hm hstands
  obtain ⟨s, hs⟩ := hstands.exists_findPhrase? (by decide) (by decide)
  rw [hm, hs] at h
  cases h

/-- The words of a hint do not come about where the last identity is asked for. -/
theorem Unhinted.exchange (ha : Closed a) (hold : lower old = lower "LAST_INSERT_ID()")
    (h : Unhinted (a ++ (old ++ r))) : Unhinted (a ++ (("@@IDENTITY" : Text) ++ r)) := by
  have hcode : Code old := sees_toLower.no_quote hold (by decide)
  have hne : old ≠ [] := by
    rintro rfl
    cases hold
  have hmask := mask_append_code ha hne hcode r
  have hmask' := mask_append_code ha (w := ("@@IDENTITY" : Text)) (by decide) (by decide) r
  intro front k rest hm hstands
  rw [hmask'] at hm
  obtain ⟨u, v, rfl, hu⟩ := hstands.exists_cons
  rcases stretch_cases hm.symm (cons_ne_nil u v) (by decide) with
    hlt | ⟨x, y, hx, rfl, hxy, hy⟩ | ⟨x, c, y, hk, hfront, hy⟩ | ⟨x, rfl, hfront⟩
  · -- behind the identity everything is as it was
    obtain ⟨x, hx, rfl, hrest⟩ := exists_between hm.symm hlt
    refine h (mask a ++ (old ++ x)) (u :: v) rest ?_ ⟨hstands.spelled, ?_, hstands.behind⟩
    · rw [hmask, hrest]
      simp
    · have hbefore := hstands.before
      obtain ⟨z, hz⟩ := isSome_iff_exists.1 (getLast?_isSome.2 hx)
      simp only [getLast?_append, hz, some_or] at hbefore ⊢
      exact hbefore
  · -- no hint begins inside the identity, or right behind it
    cases y with
    | nil =>
      have hbefore := hstands.before
      rw [append_nil] at hxy
      rw [← hxy, getLast?_append] at hbefore
      cases hbefore
    | cons c y =>
      obtain ⟨rfl, -⟩ := cons.inj hy
      have hmem : c ∈ ("@@IDENTITY" : Text) := by rw [hxy]; simp
      have hall : ∀ c ∈ ("@@IDENTITY" : Text), c.toLower ≠ 'u' := by decide
      exact (hall c hmem hu).elim
  · -- and none goes on into it
    obtain rfl : c = '@' := (cons.inj hy).1.symm
    rcases hstands.mem (by decide) (by decide) '@' (by rw [hk]; simp) with hname | hblank
    · cases hname
    · cases hblank
  · cases x with
    | nil => rfl
    | cons c x =>
      refine h front (u :: v) (c :: x ++ (old ++ mask r)) ?_ ⟨hstands.spelled, hstands.before,
        hstands.behind⟩
      rw [hmask, hfront]
      simp

/-- Where no hint shows, none is found. -/
theorem Unhinted.indexHint?_eq_none (h : Unhinted t) (catalog : Catalog) :
    indexHint? catalog t = none := by
  rw [indexHint?]
  cases hfind : findPhrase? (mask t) ["USE", "INDEX"] 0 with
  | none => rfl
  | some s =>
    obtain ⟨front, k, rest, hm, hstands, rfl, -⟩ := exists_of_mem_phrases (mem_of_mem_head? hfind)
    obtain ⟨r, rfl⟩ := head?_eq_some_iff.1 (h front k rest hm hstands)
    have hbehind : (mask t).after (front.size + k.size) = '@' :: r := by
      rw [hm, ← append_assoc, ← size_append, after_size_append]
    simp only [bind_eq_bind, bind_some, hbehind]
    refine bind_eq_none_iff.2 fun opening hopening => ?_
    -- the at sign stands before any parenthesis, so something does between the hint and it
    have hlt : front.size + k.size + 1 ≤ opening := le_of_findFrom? (t := r) hopening
    have hslice : (mask t).slice ⟨front.size + k.size, opening⟩
        = '@' :: before r (opening - (front.size + k.size) - 1) := by
      rw [slice, hbehind, before, if_pos (by show 1 ≤ opening - (front.size + k.size); omega)]
      rfl
    have hnot : isBlankText ('@' :: before r (opening - (front.size + k.size) - 1)) = false := rfl
    rw [hslice]
    rfl

/-! ### The whole pass -/

theorem Mild.exchange (h : Mild (a ++ (old ++ r))) : Mild (a ++ (("@@IDENTITY" : Text) ++ r)) := by
  cases a with
  | nil =>
    rintro _ ⟨⟩
    decide
  | cons c a => exact h

/-- The pass keeps every literal of a statement that is no command and has no index hint. -/
theorem laced_apply (catalog : Catalog) (htrim : t.trim = t) (hmild : Mild t) (hhint : Unhinted t) :
    Laced (literals t) (apply catalog t) := by
  obtain ⟨hmild', hhint'⟩ : Mild (Edit.replaceAll t "LAST_INSERT_ID()" "@@IDENTITY") ∧
      Unhinted (Edit.replaceAll t "LAST_INSERT_ID()" "@@IDENTITY") := by
    refine Edit.applyAll_keeps (P := fun u => Mild u ∧ Unhinted u) (fun e he => ?_) ⟨hmild, hhint⟩
    obtain ⟨a, old, b, hrecodes, hlower, hnew⟩ :=
      Edit.exists_recodes_of_occurrences (by decide) (by decide) he
    refine ⟨a, old, b, hrecodes.toExchanges, fun r hr => ?_⟩
    rw [hnew]
    exact ⟨hr.1.exchange, hr.2.exchange hrecodes.closed hlower⟩
  rw [apply, command?_of_mild (by rwa [htrim])]
  simp only
  rw [hmild.versionQuery_eq, hhint'.indexHint?_eq_none, getD_none, hmild'.dropCondition_eq]
  have hidentity : Laced (literals t) (Edit.replaceAll t "LAST_INSERT_ID()" "@@IDENTITY") :=
    laced_replaceAll (cut_pieces t).laced (by decide) (by decide)
  exact laced_nameCounts (laced_replaceAll hidentity (by decide) (by decide))

/-- A statement that inserts or updates starts with none of the words of the pass. -/
theorem mild_boundText {s : Statement} (hkind : s.kind = .insert ∨ s.kind = .update) :
    Mild s.boundText.trim := by
  have hother : s.kind ≠ .other := by
    rcases hkind with h | h <;> rw [h] <;> decide
  obtain ⟨c, r, hr, hc⟩ := Kind.exists_head rfl hother
  have hall : ∀ v ∈ Kind.verbs, v.2 = .insert ∨ v.2 = .update →
      v.1.head?.map Char.toLower = some 'i' ∨ v.1.head?.map Char.toLower = some 'r' ∨
        v.1.head?.map Char.toLower = some 'u' := by
    decide
  have hfirst : c = '(' ∨ c.toLower = 'i' ∨ c.toLower = 'r' ∨ c.toLower = 'u' := by
    rcases hc with hc | ⟨v, hv, hv', hlower⟩
    · exact .inl hc
    · have hletter := hall v hv (by rw [hv']; exact hkind)
      rw [hlower] at hletter
      simp only [some.injEq] at hletter
      exact .inr hletter
  have hmarks :
      ∀ x ∈ Placeholder.marks, x ≠ '(' ∧ x.toLower ≠ 'i' ∧ x.toLower ≠ 'r' ∧ x.toLower ≠ 'u' := by
    decide
  have hmark : c ∉ Placeholder.marks := by
    intro hmem
    have hnot := hmarks c hmem
    tauto
  obtain ⟨_, -, -, hblank⟩ := exists_dropWhile isBlank s.text
  obtain ⟨r', hr'⟩ :=
    Statement.exists_trimStart_boundText hr (hblank c (by rw [trimStart] at hr; rw [hr]; rfl)) hmark
  have hmild : Mild (c :: r') := by
    rintro _ ⟨⟩
    rcases hfirst with rfl | h | h | h
    · decide
    all_goals rw [h]; decide
  obtain ⟨b, hb, -⟩ := exists_dropEnd isBlank (c :: r')
  rw [trim, hr']
  exact hmild.of_prefix ⟨b, hb.symm⟩

end General

/-! ### The clause for duplicate keys -/

namespace DuplicateKey

/-- What is split off starts at the clause, and the literals before it stay. -/
theorem laced_split? {catalog : Catalog} {head : Text} {updates : List Text}
    (h : split? catalog t = some (head, updates)) (hlaced : Laced ls t) : updates ≠ [] ∧
      ∃ clause, findTop? (mask t) ["ON", "DUPLICATE", "KEY", "UPDATE"] 0 = some clause ∧
        head = trimEnd (t.before clause.start) ∧
        ∃ before behind, ls = before ++ behind ∧ Laced before head ∧
          Laced behind (t.after clause.start) := by
  obtain ⟨clause, hclause, i, -, ⟨⟩, hgroups, h⟩ := of_bind₃ h
  obtain ⟨columns, -, assignments, -, updates', hupdates, h⟩ := of_bind₃ h
  cases h
  refine ⟨?_, clause, hclause, rfl, ?_⟩
  · rintro rfl
    cases hall : i.groups with
    | nil =>
      simp [hall] at hgroups
    | cons g gs =>
      rw [hall, mapM_cons] at hupdates
      obtain ⟨_, -, _, -, hupdates⟩ := of_bind₂ hupdates
      cases hupdates
  · have hfree := (free_of_findTop? (by decide) hclause).1
    obtain ⟨front, k, rest, hm, hstands, rfl, -⟩ := exists_of_mem_phrases (mem_of_mem_head? hclause)
    have hcode : Code k := by
      intro c hc
      rcases hstands.mem (by decide) (by decide) c hc with hname | hblank
      · exact isQuote_of_class hname rfl rfl
      · exact isQuote_of_class hblank rfl rfl
    obtain ⟨a, r, ht, hsize, ha, -⟩ := hfree.exists_stretch hm hcode
    obtain ⟨u, v, rfl, -⟩ := hstands.exists_cons
    rw [ht] at hlaced
    rw [ht, ← hsize, before_size_append, after_size_append]
    obtain ⟨before, behind, hls, hbefore, hbehind⟩ :=
      hlaced.exists_split ha ⟨u, v ++ r, rfl, hcode u mem_cons_self⟩
    exact ⟨before, behind, hls, hbefore.dropEnd ha fun c => isQuote_of_isBlank, hbehind⟩

end DuplicateKey

/-! ### Statements with blobs -/

/-- What the two passes over a statement with blobs make of its draft. -/
theorem Draft.exists_serialized (context : Context) (d : Draft) : ∃ e f,
    Pass.run context d .general = .ok e ∧
      (if e.kind = .insert then Pass.run context e .onDuplicateKey else .ok e) = .ok f ∧
      f.preceding = d.preceding ∧ f.window = d.window ∧
      (f.text = General.apply d.catalog d.text ∧ f.following = d.following ∨
        d.kind = .insert ∧ ∃ updates,
          DuplicateKey.split? d.catalog (General.apply d.catalog d.text) = some (f.text, updates) ∧
          f.following = d.following ++ updates.map fun sql => ⟨sql, .always⟩) := by
  have hgeneral : Pass.apply context d .general
      = .ok { d with text := General.apply d.catalog d.text } := rfl
  generalize General.apply d.catalog d.text = g at hgeneral
  obtain ⟨trace, hrun⟩ := Pass.exists_run_eq hgeneral
  by_cases hinsert : d.kind = .insert
  · cases hsplit : DuplicateKey.split? d.catalog g with
    | none =>
      have happly : Pass.apply context { d with text := g, trace := trace } .onDuplicateKey
          = .ok { d with text := g, trace := trace } := by
        rw [Pass.apply, if_pos hinsert, DuplicateKey.apply, hsplit]
      obtain ⟨trace', hrun'⟩ := Pass.exists_run_eq happly
      exact ⟨_, _, hrun, (if_pos hinsert).trans hrun', rfl, rfl, .inl ⟨rfl, rfl⟩⟩
    | some found =>
      have happly : Pass.apply context { d with text := g, trace := trace } .onDuplicateKey
          = .ok { d with
            text := found.1
            following := d.following ++ found.2.map fun sql => ⟨sql, .always⟩
            trace := trace } := by
        rw [Pass.apply, if_pos hinsert, DuplicateKey.apply, hsplit]
      obtain ⟨trace', hrun'⟩ := Pass.exists_run_eq happly
      exact ⟨_, _, hrun, (if_pos hinsert).trans hrun', rfl, rfl, .inr ⟨hinsert, found.2, rfl, rfl⟩⟩
  · exact ⟨_, _, hrun, if_neg hinsert, rfl, rfl, .inl ⟨rfl, rfl⟩⟩

/-- A serialized INSERT or UPDATE without an index hint becomes one statement, with nothing to run
before it and no window of rows. Every literal of the bound text is in it, byte for byte and in
order, with code only between them; of an INSERT that loses its clause for duplicate keys, every
literal before the clause. -/
theorem convert_keeps_blobs (context : Context) (catalog : Catalog) (s : Statement)
    (previous : Option Text) (hserialized : s.isSerialized = true)
    (hkind : Kind.ofText (normalizeEscapes s.text) = .insert ∨
      Kind.ofText (normalizeEscapes s.text) = .update)
    (hhint : findPhrase? (mask (Draft.bound context catalog s previous).text) ["USE", "INDEX"]
      0 = none) :
    let t := (Draft.bound context catalog s previous).text
    let g := General.apply catalog t
    ∃ o catalog' m, convert context catalog s previous = .ok (o, catalog') ∧ o.main = [m] ∧
      o.window = none ∧ o.preceding = [] ∧
      (o.following = [] ∧ Laced (literals t) m ∨
        Kind.ofText (normalizeEscapes s.text) = .insert ∧ o.following ≠ [] ∧
          ∃ clause, findTop? (mask g) ["ON", "DUPLICATE", "KEY", "UPDATE"] 0 = some clause ∧
            m = trimEnd (g.before clause.start) ∧
            ∃ before behind, literals t = before ++ behind ∧ Laced before m ∧
              Laced behind (g.after clause.start)) := by
  intro t g
  have hlaced : Laced (literals t) g :=
    General.laced_apply catalog (trim_trim _)
      (General.mild_boundText (s := { s with text := normalizeEscapes s.text }) hkind)
      (General.unhinted_of_findPhrase? hhint)
  obtain ⟨d, e, hd, he, hpreceding, hwindow, hresult⟩ :=
    Draft.exists_serialized context (.bound context catalog s previous)
  refine ⟨_, _, e.text, convert_of_serialized hserialized hd he, rfl, hwindow, hpreceding, ?_⟩
  rcases hresult with ⟨htext, hfollowing⟩ | ⟨hinsert, updates, hsplit, hfollowing⟩
  · left
    refine ⟨hfollowing, ?_⟩
    rw [htext]
    exact hlaced
  · right
    obtain ⟨hupdates, hclause⟩ := DuplicateKey.laced_split? hsplit hlaced
    refine ⟨hinsert, ?_, hclause⟩
    show e.following ≠ []
    rw [hfollowing]
    simpa using fun _ => hupdates

/-- Back quotes and the name of a function go from the code, but not from the blob. -/
theorem convert_keeps_blobs_update :
    let context : Context := ⟨{}, ⟨0, 0⟩⟩
    let s : Statement :=
      ⟨"UPDATE \x60t\x60 SET n = LAST_INSERT_ID(), body = ? WHERE name = 'USE INDEX (a)'",
        [.blob "s:18:\"\x60LAST_INSERT_ID()'\";"], true, false⟩
    s.isSerialized ∧ Kind.ofText (normalizeEscapes s.text) = .update ∧
      findPhrase? (mask (Draft.bound context {} s none).text) ["USE", "INDEX"] 0 = none ∧
      ∃ o catalog' m, convert context {} s none = .ok (o, catalog') ∧ o.main = [m] ∧
        o.window = none ∧
        o.preceding = [] ∧ o.following = [] ∧
        Laced ["'s:18:\"\x60LAST_INSERT_ID()''\";'", "'USE INDEX (a)'"] m := by
  intro context s
  have hkind : Kind.ofText (normalizeEscapes s.text) = .update := by decide +kernel
  have hhint :
      findPhrase? (mask (Draft.bound context {} s none).text) ["USE", "INDEX"] 0 = none := by
    decide +kernel
  have hliterals : literals (Draft.bound context {} s none).text
      = [("'s:18:\"\x60LAST_INSERT_ID()''\";'" : Text), ("'USE INDEX (a)'" : Text)] := by
    decide +kernel
  obtain ⟨o, catalog', m, hconvert, hmain, hwindow, hpreceding, hcase⟩ :=
    convert_keeps_blobs context {} s none rfl (.inr hkind) hhint
  refine ⟨rfl, hkind, hhint, o, catalog', m, hconvert, hmain, hwindow, hpreceding, ?_⟩
  rcases hcase with hkept | ⟨hinsert, -⟩
  · rw [← hliterals]
    exact hkept
  · simp [hkind] at hinsert

end Recast
