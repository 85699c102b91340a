import Recast.Command
import Recast.Proofs.Depth
import Recast.Proofs.Escapes

/-!
# Scripts

A script is a list of statements with semicolons between them. It is cut where the scanner of
literals, which knows doubled quotes but no backslashes, meets a semicolon at depth zero (`Cuts`).
So the statements come out as they were put in exactly if that scanner sees the end of every one of
them (`parts_join`).

Statements are written in the dialect with backslashes, where a text may stand on its own
(`Escaped.Sole`) although the scanner loses its way in it. The two agree as long as no literal holds
a quote of its own kind behind a backslash. The main result is `Invocation.replay_join`.
-/

namespace Recast

open Text

variable {t : Text} {texts : List Text}

namespace Nesting

open Literal

/-! ### Cutting a text -/

variable {sep : Char}

/-- A text comes apart into parts: each of them but the last is closed, ends at depth zero and has a
separator behind it, and none has a separator of its own at depth zero. -/
inductive Cuts (sep : Char) : List Text → Text → Prop
  | last {t : Text} : Flat sep 0 (mask t) → Cuts sep [t] t
  | cons {t rest : Text} {ps : List Text} : Closed t → Flat sep 0 (mask t) → depth (mask t) = 0 →
    Cuts sep ps rest → Cuts sep (t :: ps) (t ++ sep :: rest)

theorem splitTopFrom_shift (sep : Char) (d start offset k : Nat) (t : Text) :
    splitTopFrom sep d (start + k) (offset + k) t = (splitTopFrom sep d start offset t).map
      (Span.shift · k) := by
  induction t generalizing d start offset with
  | nil => rfl
  | cons c t ih =>
    have hnext : offset + k + c.utf8Size = offset + c.utf8Size + k := by omega
    rw [splitTopFrom, splitTopFrom, hnext]
    split_ifs with hopen hclose hsep
    · exact ih ..
    · exact ih ..
    · rw [ih]
      rfl
    · exact ih ..

theorem slice_shift (a t : Text) (s : Span) : (a ++ t).slice (s.shift a.size) = t.slice s := by
  have hsize : s.stop + a.size - (s.start + a.size) = s.stop - s.start := by omega
  rw [slice, Span.shift, hsize, Nat.add_comm s.start, after_append_add, slice]

theorem splitTop_of_flat (h : Flat sep 0 (mask t)) : splitTop t sep = [⟨0, t.size⟩] := by
  rw [splitTop, splitTopFrom_flat h, size_mask, Nat.zero_add]

theorem splitTop_append (hquote : isQuote sep = false) (hopen : sep ≠ '(') (hclose : sep ≠ ')')
    (ht : Closed t) (hflat : Flat sep 0 (mask t)) (hdepth : depth (mask t) = 0) (rest : Text) :
    splitTop (t ++ sep :: rest) sep = ⟨0, t.size⟩ :: (splitTop rest sep).map
      (Span.shift · (t ++ [sep]).size) := by
  have hsize : (t ++ [sep]).size = t.size + sep.utf8Size := by
    rw [size_append, size_cons]
    rfl
  have hshift := splitTopFrom_shift sep 0 0 0 (t.size + sep.utf8Size) (mask rest)
  rw [Nat.zero_add] at hshift
  rw [splitTop, mask_append_cons ht hquote, splitTopFrom_sep hopen hclose hflat hdepth, size_mask,
    Nat.zero_add, hshift, hsize, splitTop]

theorem parts_of_flat (h : Flat sep 0 (mask t)) : parts t sep = [t] := by
  have hslice := slice_append [] t [] rfl (Nat.zero_add _).symm
  rw [parts, splitTop_of_flat h, List.map_singleton]
  rw [List.nil_append, List.append_nil, size_nil] at hslice
  rw [hslice]

theorem parts_append (hquote : isQuote sep = false) (hopen : sep ≠ '(') (hclose : sep ≠ ')')
    (ht : Closed t) (hflat : Flat sep 0 (mask t)) (hdepth : depth (mask t) = 0) (rest : Text) :
    parts (t ++ sep :: rest) sep = t :: parts rest sep := by
  have hfront : (t ++ sep :: rest).slice ⟨0, t.size⟩ = t :=
    slice_append [] t (sep :: rest) rfl (Nat.zero_add _).symm
  rw [parts, splitTop_append hquote hopen hclose ht hflat hdepth, List.map_cons,
    List.map_map, parts]
  congr 1
  apply List.map_congr_left
  intro s _
  have hrest := slice_shift (t ++ [sep]) rest s
  rw [List.append_assoc] at hrest
  exact hrest

theorem flat_or_exists_part (hquote : isQuote sep = false) (hfiller : sep ≠ filler) (t : Text) :
    Flat sep 0 (mask t) ∨ ∃ a b, t = a ++ sep :: b ∧ Closed a ∧ Flat sep 0 (mask a) ∧
      depth (mask a) = 0 := by
  rcases flat_or_exists_sep sep 0 (mask t) with hflat | ⟨a', b', hmask, hflat, hdepth⟩
  · exact .inl hflat
  · obtain ⟨a, b, ht, ha, rfl, -⟩ := exists_code hmask hquote hfiller
    exact .inr ⟨a, b, ht, ha, hflat, hdepth⟩

/-- The parts of a text are what it comes apart into. -/
theorem parts_eq_iff (hquote : isQuote sep = false) (hfiller : sep ≠ filler) (hopen : sep ≠ '(')
    (hclose : sep ≠ ')') {ps : List Text} : parts t sep = ps ↔ Cuts sep ps t := by
  constructor
  · rintro rfl
    -- along the parts: the rest behind a separator is shorter
    induction hn : t.length using Nat.strong_induction_on generalizing t with
    | _ n ih =>
      rcases flat_or_exists_part hquote hfiller t with hflat | ⟨a, b, rfl, ha, hflat, hdepth⟩
      · rw [parts_of_flat hflat]
        exact .last hflat
      · rw [parts_append hquote hopen hclose ha hflat hdepth]
        refine .cons ha hflat hdepth (ih b.length ?_ rfl)
        rw [← hn, List.length_append, List.length_cons]
        omega
  · intro h
    induction h with
    | last hflat => exact parts_of_flat hflat
    | cons ht hflat hdepth _ ih => rw [parts_append hquote hopen hclose ht hflat hdepth, ih]

theorem join_cons_cons (sep t t' : Text) (texts : List Text) :
    join sep (t :: t' :: texts) = t ++ sep ++ join sep (t' :: texts) := rfl

theorem Cuts.join_eq {ps : List Text} (h : Cuts sep ps t) : join [sep] ps = t := by
  induction h with
  | last => rfl
  | cons _ _ _ h ih =>
    rw [← ih]
    cases h <;> simp [join_cons_cons]

theorem Cuts.flat {ps : List Text} (h : Cuts sep ps t) : ∀ p ∈ ps, Flat sep 0 (mask p) := by
  induction h with
  | last hflat => simpa using hflat
  | cons _ hflat _ _ ih => exact List.forall_mem_cons.2 ⟨hflat, ih⟩

/-- A text is its parts with separators between them. A separator is taken out exactly if it stands
outside literals at depth zero, and no part comes apart again. -/
theorem join_parts (hquote : isQuote sep = false) (hfiller : sep ≠ filler) (hopen : sep ≠ '(')
    (hclose : sep ≠ ')') (t : Text) :
    join [sep] (parts t sep) = t ∧ parts t sep = (splitTop t sep).map t.slice ∧
      (∀ n, (∃ s ∈ (splitTop t sep).dropLast, s.stop = n) ↔
        t.charAt? n = some sep ∧ ¬ Holds t n ∧ depthAt (mask t) n = 0) ∧
      ∀ p ∈ parts t sep, parts p sep = [p] := by
  have hcuts : Cuts sep (parts t sep) t := (parts_eq_iff hquote hfiller hopen hclose).1 rfl
  refine ⟨hcuts.join_eq, rfl, fun n => ?_, fun p hp => parts_of_flat (hcuts.flat p hp)⟩
  rw [splitTop, exists_mem_dropLast_splitTopFrom hopen hclose, charAt?_eq_some]
  have hholds {a b : Text} : Holds (a ++ sep :: b) a.size ↔ ¬ Closed a :=
    holds_iff hquote (Char.utf8Size_pos sep)
  constructor
  · rintro ⟨a', b', hmask, hdepth, rfl⟩
    obtain ⟨a, b, rfl, ha, rfl, -⟩ := exists_code hmask hquote hfiller
    rw [Nat.zero_add, size_mask, hholds, hmask, depthAt, ← size_mask a, before_size_append]
    exact ⟨⟨a, b, rfl, size_mask a⟩, not_not.2 ha, hdepth⟩
  · rintro ⟨⟨a, b, rfl, rfl⟩, ha, hdepth⟩
    rw [hholds, not_not] at ha
    rw [mask_append_cons ha hquote, depthAt, ← size_mask a, before_size_append] at hdepth
    exact ⟨mask a, mask b, mask_append_cons ha hquote b, hdepth, by rw [size_mask, Nat.zero_add]⟩

/-- A parenthesis that closes nothing, and a literal that is never closed. -/
theorem join_parts_unbalanced : let t : Text := "a),(b,c),'d,"
    parts t ',' = ["a)", "(b,c)", "'d,"] ∧ join [','] (parts t ',') = t ∧
      ∀ p ∈ parts t ',', parts p ',' = [p] := by
  intro t
  obtain ⟨hjoin, -, -, hparts⟩ :=
    join_parts (by decide : isQuote ',' = false) (by decide) (by decide) (by decide) t
  exact ⟨by decide +kernel, hjoin, hparts⟩

/-! ### Statements with semicolons between them -/

/-- The scanner sees the end of every text of a script: at each semicolon between them it is outside
literals and at depth zero, and at none inside them. -/
structure Severable (texts : List Text) : Prop where
  flat : ∀ t ∈ texts, Flat ';' 0 (mask t)
  ended : ∀ t ∈ texts.dropLast, Closed t ∧ depth (mask t) = 0

/-- A script comes apart into its texts if they can be told apart. -/
theorem cuts_join (hne : texts ≠ []) : Cuts ';' texts (join [';'] texts) ↔ Severable texts := by
  constructor
  · intro h
    generalize hjoin : join [';'] texts = script at h
    induction h with
    | @last t hflat => exact ⟨by simpa using hflat, by simp⟩
    | @cons t rest ps ht hflat hdepth h ih =>
      cases ps with
      | nil => cases h
      | cons t' ps =>
        rw [join_cons_cons, List.append_assoc] at hjoin
        have hrest := List.cons.inj (List.append_cancel_left hjoin)
        have hps := ih (List.cons_ne_nil _ _) hrest.2
        refine ⟨List.forall_mem_cons.2 ⟨hflat, hps.flat⟩, ?_⟩
        exact List.forall_mem_cons.2 ⟨⟨ht, hdepth⟩, hps.ended⟩
  · intro h
    induction texts with
    | nil => exact absurd rfl hne
    | cons t texts ih =>
      have hflat := h.flat t List.mem_cons_self
      cases texts with
      | nil => exact .last hflat
      | cons t' texts =>
        have hended := h.ended
        rw [List.dropLast_cons_cons, List.forall_mem_cons] at hended
        have hrest : Severable (t' :: texts) :=
          ⟨fun u hu => h.flat u (List.mem_cons_of_mem _ hu), hended.2⟩
        rw [join_cons_cons, List.append_assoc]
        exact .cons hended.1.1 hflat hended.1.2 (ih (List.cons_ne_nil _ _) hrest)

theorem parts_join (hne : texts ≠ []) : parts (join [';'] texts) ';' = texts ↔ Severable texts :=
  (parts_eq_iff (by decide) (by decide) (by decide) (by decide)).trans (cuts_join hne)

end Nesting

/-! ### Statements on their own -/

namespace Escaped

open Literal Nesting

/-- The quote of the literal that a text with backslashes ends in, if it does, given that of the
literal it starts in. -/
def state : Option Char → Text → Option Char
  | s, [] => s
  | none, c :: t => state (if isQuote c then some c else none) t
  | some q, [c] => if c = q then none else some q
  | some q, c :: d :: t =>
    if c = '\\' then state (some q) t
    else if c ≠ q then state (some q) (d :: t)
    else if d = q then state (some q) t
    else state none (d :: t)

def mask (t : Text) : Text := (shade t).flatMap hide

/-- A text that can stand on its own between semicolons: its literals are closed, its parentheses
are balanced, and it has no semicolon outside literals. -/
structure Sole (t : Text) : Prop where
  closed : state none t = none
  level : level? 0 (mask t) = some 0
  semicolon : ';' ∉ mask t

instance (t : Text) : Decidable (Sole t) :=
  decidable_of_iff (state none t = none ∧ level? 0 (mask t) = some 0 ∧ ';' ∉ mask t)
    ⟨fun ⟨hclosed, hlevel, hsemicolon⟩ => ⟨hclosed, hlevel, hsemicolon⟩,
      fun h => ⟨h.closed, h.level, h.semicolon⟩⟩

/-- Where no quote is escaped by a backslash, both readers see the same literals in a text that
closes them. -/
theorem shadeFrom_eq {s : Option Char} (hs : Valid s) (hnormal : normalizeFrom s t = t)
    (hclosed : state s t = none) :
    Literal.state s t = none ∧ Literal.shadeFrom s t = shadeFrom s t := by
  fun_induction state s t with
  | case1 s => exact ⟨hclosed, by cases s <;> rfl⟩
  | case2 c t ih =>
    rw [normalizeFrom, List.cons.injEq] at hnormal
    have hnext : (if isQuote c then some c else none) = next none c := by rw [next]
    have hvalid : Valid (if isQuote c then some c else none) := by
      exact valid_state valid_none [c]
    obtain ⟨hstate, hshade⟩ := ih hvalid hnormal.2 hclosed
    refine ⟨?_, ?_⟩
    · exact hstate
    · rw [Literal.shadeFrom, shadeFrom]
      split_ifs at hshade ⊢ with hquote <;> rw [hshade]
  | case3 q =>
    refine ⟨next_some_self q, ?_⟩
    rw [Literal.shadeFrom, shadeFrom]
  | case4 q c hc => cases hclosed
  | case5 q d t ih =>
    have hbackslash : '\\' ≠ q := (ne_backslash (hs q rfl)).symm
    -- a quote behind the backslash would have been doubled
    have hd : d ≠ q := by
      rintro rfl
      rw [normalizeFrom, if_neg (fun h => hbackslash h.2.symm), if_pos ⟨.inl rfl, rfl⟩] at hnormal
      exact hbackslash (List.cons.inj hnormal).1.symm
    have htail : normalizeFrom (some q) t = t := by
      by_cases hd' : d = '\\'
      · subst hd'
        exact (List.cons.inj (List.cons.inj hnormal).2).2
      · rw [normalizeFrom_backslash (hs q rfl) hd' hd] at hnormal
        exact (List.cons.inj (List.cons.inj hnormal).2).2
    obtain ⟨hstate, hshade⟩ := ih hs htail hclosed
    refine ⟨?_, ?_⟩
    · rw [state_cons, next_some_of_ne hbackslash, state_cons, next_some_of_ne hd]
      exact hstate
    · rw [Literal.shadeFrom_data hbackslash, Literal.shadeFrom_data hd, shadeFrom,
        if_pos rfl, hshade]
  | case6 q c d t hbackslash hc ih =>
    rw [normalizeFrom_data hbackslash hc] at hnormal
    obtain ⟨hstate, hshade⟩ := ih hs (List.cons.inj hnormal).2 hclosed
    refine ⟨?_, ?_⟩
    · rw [state_cons, next_some_of_ne hc]
      exact hstate
    · rw [Literal.shadeFrom_data hc, shadeFrom_data hbackslash hc, hshade]
  | case7 c q t hbackslash hc ih =>
    obtain rfl : c = q := of_not_not hc
    rw [normalizeFrom, if_neg (fun h => hbackslash h.1), if_pos ⟨.inr rfl, rfl⟩] at hnormal
    obtain ⟨hstate, hshade⟩ := ih hs (List.cons.inj (List.cons.inj hnormal).2).2 hclosed
    refine ⟨?_, ?_⟩
    · rw [state_twice (hs c rfl)]
      exact hstate
    · have ht : t.isEmpty = false := by
        cases t with
        | nil => cases hclosed
        | cons d t => rfl
      rw [Literal.shadeFrom, if_neg hc, if_neg hc, ht, shadeFrom, if_neg hbackslash, if_neg hc,
        if_pos rfl, hshade]
      rfl
  | case8 q c d t hbackslash hc hd ih =>
    obtain rfl : c = q := of_not_not hc
    rw [normalizeFrom_close (hs c rfl) (by simpa using hd)] at hnormal
    obtain ⟨hstate, hshade⟩ := ih valid_none (List.cons.inj hnormal).2 hclosed
    refine ⟨?_, ?_⟩
    · rw [state_cons, next_some_self]
      exact hstate
    · rw [Literal.shadeFrom, if_neg hc, if_pos hd, shadeFrom, if_neg hbackslash, if_neg hc,
        if_neg hd, hshade]

/-- Texts without escapes that stand on their own can be told apart. -/
theorem severable_of_sole (h : ∀ t ∈ texts, Sole t ∧ normalizeEscapes t = t) : Severable texts := by
  have hread : ∀ t ∈ texts, Closed t ∧ Literal.mask t = mask t := by
    intro t ht
    obtain ⟨hsole, hnormal⟩ := h t ht
    obtain ⟨hstate, hshade⟩ := shadeFrom_eq valid_none hnormal hsole.closed
    exact ⟨hstate, congrArg (·.flatMap hide) hshade⟩
  constructor
  · intro t ht
    rw [(hread t ht).2]
    exact flat_of_not_mem (h t ht).1.semicolon 0
  · intro t ht
    have ht := List.mem_of_mem_dropLast ht
    refine ⟨(hread t ht).1, ?_⟩
    rw [(hread t ht).2]
    exact foldl_step_of_level? (h t ht).1.level

end Escaped

/-! ### Running a script -/

namespace Session

/-- The session and the machine after several statements. -/
def queries (run : Executor σ) (m : σ) (s : Session) : List Statement → Except Fault (Session × σ)
  | [] => .ok (s, m)
  | statement :: rest => do
    let (s, m, _) ← s.query run m statement
    queries run m s rest

end Session

namespace Invocation

open Literal Nesting

/-- The statements of a script: what stands between its semicolons, without blanks around it and
unless it is blank. -/
theorem replay_eq (s : Session) (script : Text) : replay s script
    = (s.queries DryRun.run {} ((((parts script ';').map trim).filter fun t => !t.isEmpty).map
        Statement.ofMarked)).map (·.2.statements) := by
  have hfold : ∀ (texts : List Text) (s : Session) (m : DryRun), texts.foldlM (fun p t => do
        let r ← p.1.query DryRun.run p.2 (Statement.ofMarked t)
        return (r.1, r.2.1)) (s, m) = s.queries DryRun.run m (texts.map Statement.ofMarked) := by
    intro texts
    induction texts with
    | nil => intro s m; rfl
    | cons t texts ih =>
      intro s m
      rw [List.foldlM_cons, List.map_cons, Session.queries]
      cases s.query DryRun.run m (Statement.ofMarked t) with
      | error f => rfl
      | ok r => exact ih r.1 r.2.1
  refine (congrArg (· >>= _) (hfold _ s {})).trans ?_
  cases s.queries DryRun.run {} ((((parts script ';').map trim).filter fun t => !t.isEmpty).map
    Statement.ofMarked) <;> rfl

/-- Texts that can stand on their own make a script that means the same as the texts one after
another, to a session and to a catalog, if the scanner of literals sees the end of each. That is so
if no literal holds a quote of its own kind behind a backslash, and it is exactly what it takes for
the script to be cut into these texts. -/
theorem replay_join (s : Session) (c : Catalog) {texts : List Text}
    (hsole : ∀ t ∈ texts, Escaped.Sole t ∧ t.trim ≠ []) :
    ((∀ t ∈ texts, normalizeEscapes t = t) → Severable texts) ∧
    (texts ≠ [] → (parts (Text.join [';'] texts) ';' = texts ↔ Severable texts)) ∧
    (Severable texts → replay s (Text.join [';'] texts) = (s.queries DryRun.run {}
        (texts.map fun t => Statement.ofMarked t.trim)).map (·.2.statements) ∧
      c.learnScript (Text.join [';'] texts) = (texts.map Text.trim).foldl Catalog.learn c) := by
  refine ⟨?_, parts_join, ?_⟩
  · intro hnormal
    exact Escaped.severable_of_sole fun t ht => ⟨(hsole t ht).1, hnormal t ht⟩
  · intro hsever
    by_cases hne : texts = []
    · subst hne
      exact ⟨rfl, rfl⟩
    · have hparts := (parts_join hne).2 hsever
      have hfilter : (texts.map trim).filter (fun t => !t.isEmpty) = texts.map trim := by
        apply List.filter_eq_self.2
        intro t ht
        obtain ⟨u, hu, rfl⟩ := List.mem_map.1 ht
        simpa using (hsole u hu).2
      refine ⟨?_, ?_⟩
      · rw [replay_eq, hparts, hfilter, List.map_map]
        rfl
      · rw [Catalog.learnScript, hparts]

/-- Literals that hold semicolons, parentheses, a pair of backslashes and the other quote behind
one. -/
theorem replay_join_quoted :
    let texts : List Text :=
  ["CREATE TABLE t (a text DEFAULT 'x;)\\\\')", "\n insert into t values ('it''s; (')",
      " SELECT a FROM t WHERE a = \"\\';\" LIMIT 1 "]
    let s : Session := ⟨⟨{}, ⟨0, 0⟩⟩, {}, none⟩
    (∀ t ∈ texts, Escaped.Sole t ∧ t.trim ≠ []) ∧ parts (join [';'] texts) ';' = texts ∧
      replay s (join [';'] texts) = (s.queries DryRun.run {}
        (texts.map fun t => Statement.ofMarked t.trim)).map (·.2.statements) ∧
      Catalog.learnScript {} (join [';'] texts) = (texts.map trim).foldl Catalog.learn {} := by
  intro texts s
  have hsole : ∀ t ∈ texts, Escaped.Sole t ∧ t.trim ≠ [] := by decide +kernel
  obtain ⟨hnormal, hparts, hmeaning⟩ := replay_join s {} hsole
  have hsever : Severable texts := hnormal (by decide +kernel)
  exact ⟨hsole, (hparts (by decide)).2 hsever, hmeaning hsever⟩

/-- A quote behind a backslash ends the literal to the scanner, so the script is cut inside it. -/
theorem replay_cuts_inside_literal : let texts : List Text := ["SELECT 'it\\'s; x'", "SELECT 2"]
    let s : Session := ⟨⟨{}, ⟨0, 0⟩⟩, {}, none⟩
    (∀ t ∈ texts, Escaped.Sole t ∧ t.trim ≠ []) ∧
      (replay s (join [';'] texts)).toOption = some [("SELECT 'it''s" : Text), "x';SELECT 2"] ∧
      ((s.queries DryRun.run {} (texts.map fun t => Statement.ofMarked t.trim)).map
        (·.2.statements)).toOption = some [("SELECT 'it''s; x'" : Text), "SELECT 2"] := by
  decide +kernel

end Invocation

end Recast
