import Recast.Proofs.Fronts
import Recast.Proofs.Rewriting

/-!
# The passes over calls, run twice

The passes over date arithmetic and over conditionals replace calls by a rule (`dateRule`,
`caseRule`), and what they put gives rise to no other call: the words around the arguments hold
none, and the parenthesis with which a CASE begins encloses one argument only. So a second run
changes nothing (`dateArithmetic_dateArithmetic`, `conditionals_conditionals`).
-/

namespace Recast

open Literal Nesting Cursor Keyword List Text

variable {F condition new no t yes : Text} {args : List Text}

namespace Functions

namespace Rule

variable {R : Rule β}

/-! ### Words around the arguments -/

theorem barren_append {F₁ F₂ : Text} (h₁ : ∀ b, clashes Char.toLower F₁ (R.word b))
    (h₂ : R.Barren F₂) : R.Barren (F₁ ++ F₂) := by
  intro f₁ f₂ z b w q hcut hne hread hw
  have hm : (F₁ ++ F₂) ++ z = f₁ ++ (w ++ q) := by rw [hcut, append_assoc, hread]
  have hle := size_le_of_clashes (h₁ b) (append_assoc .. ▸ prefix_append F₁ (F₂ ++ z)) hm hw
  obtain ⟨u, rfl, rfl⟩ := exists_append_of_size_le hcut hle
  exact h₂ u f₂ z b w q rfl hne hread hw

theorem barren_of_clashes (h : ∀ b, clashes Char.toLower F (R.word b)) : R.Barren F := by
  have hnil : R.Barren [] :=
    fun _ _ _ _ _ _ hcut hne => absurd (append_eq_nil_iff.1 hcut.symm).2 hne
  have hbarren := barren_append h hnil
  rwa [append_nil] at hbarren

/-- A text without parentheses holds no opening of a call, and a blank at its end cuts off what
follows. -/
theorem barren_of_isPlain (hword : ∀ b, IsCallWord (R.word b))
    (hblank : ∀ b, ' ' ∉ (R.word b).lower) (h : ∀ c ∈ F, isPlain c) : R.Barren (F ++ [' ']) := by
  intro f₁ f₂ z b w q hcut hne hread hw
  obtain ⟨v, rfl, hv⟩ := (hword b).exists_eq hw
  have hspace : ' ' ∈ f₂ := by
    have hlast := getLast?_append_of_ne_nil f₁ hne
    rw [← hcut, getLast?_concat] at hlast
    exact mem_of_getLast? hlast.symm
  have hno : '(' ∉ f₂ := fun hmem => by
    have hmem' : '(' ∈ F ++ [' '] := hcut ▸ mem_append_right _ hmem
    exact absurd (forall_mem_append.2 ⟨h, by decide⟩ _ hmem') (by decide)
  rw [append_assoc] at hread
  rcases append_cons_eq_append hread.symm with ⟨y, rfl, -⟩ | ⟨y, rfl, -⟩
  · exact hno (by simp)
  · refine hblank b ?_
    rw [← hw]
    exact mem_map.2 ⟨' ', by simp [hspace], rfl⟩

/-- Whether each proper end of a word differs from a text at one of the places they share. -/
def rebuffs (F word : Text) : Bool :=
  word.tails.all fun s => s.isEmpty || s == word || clashesAt Char.toLower F s

theorem rebuffs_append (h : ∀ b, rebuffs F (R.word b)) (r : Text) : R.Rebuffs (F ++ r) := by
  intro z b v w q hv hw hread hword
  rw [Text.lower, List.map_append] at hword
  obtain ⟨s₁, s, hcut, hs₁, hs⟩ := List.map_eq_append_iff.1 hword.symm
  have hall := List.all_eq_true.1 (h b) s ((List.mem_tails _ _).2 ⟨s₁, hcut.symm⟩)
  simp only [Bool.or_eq_true, List.isEmpty_iff, beq_iff_eq] at hall
  rcases hall with (rfl | rfl) | hclash
  · exact hw (List.map_eq_nil_iff.1 hs.symm)
  · obtain rfl : s₁ = [] := by simpa using hcut
    exact hv (List.map_eq_nil_iff.1 hs₁.symm)
  · rw [List.append_assoc] at hread
    exact false_of_clashesAt hclash hread hs.symm

end Rule

/-! ### Date arithmetic -/

/-- What stands in front of the date in the target's call. -/
def dateLead (i : Interval) (d : Direction) : Text := i.unit.upper ++ (", " ++ (i.signed d ++ ","))

/-- A call with a date and an interval. -/
def dateRule : Rule Direction where
  word := Direction.call
  new? d
    | [date, interval] => (interval? interval.trim).map fun i =>
      "DATEADD(" ++ (dateLead i d ++ [' ']) ++ (date.trim ++ ")")
    | _ => none

/-- Date arithmetic is replaced by its rule. -/
theorem dateCall?_eq (t : Text) (a : Nat × Direction) :
    dateCall? t a.2 a.1 = dateRule.rewrite? t a := by
  have hopening : a.1 + (dateRule.word a.2).size - 1 = a.1 + 8 := by
    cases a.2 <;> rfl
  rw [dateCall?, Rule.rewrite?, hopening]
  congr 1
  funext c
  rcases c with ⟨args, close⟩
  rcases args with _ | ⟨date, _ | ⟨interval, _ | ⟨x, args⟩⟩⟩
  · rfl
  · rfl
  · cases h : interval? interval.trim with
    | none => simp [dateRule, h]
    | some i => simp [dateRule, dateLead, h]
  · rfl

theorem isPlain_dateLead {i : Interval} (h : interval? t = some i) (d : Direction) :
    ∀ c ∈ dateLead i d, isPlain c := by
  obtain ⟨hamount, hunit⟩ := interval?_plain h
  refine forall_mem_append.2 ⟨fun c hc => ?_, forall_mem_append.2 ⟨by decide,
    forall_mem_append.2 ⟨i.signed_plain hamount d, by decide⟩⟩⟩
  obtain ⟨x, hx, rfl⟩ := mem_map.1 hc
  exact isPlain_toUpper (hunit x hx)

theorem exists_of_dateRule {d : Direction} (h : dateRule.new? d args = some new) :
    ∃ date ∈ args, ∃ lead, (∀ c ∈ lead, isPlain c) ∧
      new = "DATEADD(" ++ (lead ++ [' ']) ++ (date.trim ++ ")") := by
  rcases args with _ | ⟨date, _ | ⟨interval, _ | ⟨x, args⟩⟩⟩
  · cases h
  · cases h
  · obtain ⟨i, hi, rfl⟩ := Option.map_eq_some_iff.1 h
    exact ⟨date, by simp, dateLead i d, isPlain_dateLead hi d, rfl⟩
  · cases h

/-- What is put for a sum of dates gives rise to no other call. -/
theorem lawful_dateRule : dateRule.Lawful [.add, .subtract] fun t a => dateCall? t a.2 a.1 where
  all b := by cases b <;> simp
  distinct := distinct_directions
  word := isCallWord_direction
  step t a _ := dateCall?_eq t a
  framed d args new _ h := by
    obtain ⟨date, hdate, lead, hlead, rfl⟩ := exists_of_dateRule h
    have hclosed : Closed ("DATEADD(" ++ (lead ++ [' '])) := by
      refine Code.closed
        (forall_mem_append.2 ⟨by decide, forall_mem_append.2 ⟨fun c hc => ?_, by decide⟩⟩)
      exact isQuote_of_isPlain (hlead c hc)
    have hfront : dateRule.Barren ("DATEADD(" ++ (lead ++ [' '])) :=
      Rule.barren_append (fun b => by cases b <;> decide)
        (Rule.barren_of_isPlain isCallWord_direction (fun b => by cases b <;> decide) hlead)
    have hback : dateRule.Rebuffs [')'] :=
      Rule.rebuffs_append (F := [')']) (fun b => by cases b <;> decide) []
    exact .arg hfront hclosed hdate hback
      (.last (Rule.barren_of_clashes fun b => by cases b <;> decide))
  closed d args new hargs h := by
    obtain ⟨date, hdate, lead, hlead, rfl⟩ := exists_of_dateRule h
    have hinner :=
      (balanced_of_isPlain
        (forall_mem_append.2 ⟨hlead, (by decide : ∀ c ∈ [' '], isPlain c)⟩)).append
      (hargs date hdate).trim
    have hnew := (balanced_of_isPlain (t := "DATEADD") (by decide)).append hinner.enclosed
    simpa using hnew.closed
  front d inner new _ h d' v z new' rest hv hlt := by
    rintro ⟨w, inner', hcut, hw, -⟩
    obtain ⟨date, -, lead, -, rfl⟩ := exists_of_dateRule h
    have hsize : w.size = (dateRule.word d').size := by rw [← size_lower, hw, size_lower]
    obtain ⟨w', rfl, hread⟩ := exists_append_of_size_le hcut (by omega)
    have hne : w' ≠ [] := by
      rintro rfl
      rw [append_nil] at hsize
      omega
    have hrebuffs : dateRule.Rebuffs ("DATEADD(" ++ (lead ++ [' '] ++ (date.trim ++ ")"))) :=
      Rule.rebuffs_append (fun b => by cases b <;> decide) _
    exact hrebuffs z d' v w' _ hv hne hread hw

theorem dateArithmetic_dateArithmetic (t : Text) :
    dateArithmetic (dateArithmetic t) = dateArithmetic t :=
  lawful_dateRule.foldl_foldl (fun _ => rfl) t

/-! ### Conditionals -/

/-- What is put for a conditional. -/
def caseText (condition yes no : Text) : Text :=
  "(CASE WHEN " ++
    (condition.trim ++ (" THEN " ++ (yes.trim ++ (" ELSE " ++ (no.trim ++ " END)")))))

/-- A call whose first argument holds a sum of dates. -/
def caseRule : Rule Bool where
  word := ifCall
  new? _
    | [condition, yes, no] =>
      (findWord? (mask condition) "DATEADD(" 0).map fun _ => caseText condition yes no
    | _ => none

/-- A conditional is replaced by its rule. -/
theorem caseCall?_eq {a : Nat × Bool} (h : BeginsAt t a.1 (caseRule.word a.2)) :
    caseCall? t a.1 = caseRule.rewrite? t a := by
  obtain ⟨p, w, q, hm, hp, hw, -⟩ := (begins_mask_iff (isCallWord_ifCall a.2)).2 h
  obtain ⟨v, rfl, hv⟩ := (isCallWord_ifCall a.2).exists_eq hw
  have hfind : findWord? (mask t) "(" a.1 = some (a.1 + (caseRule.word a.2).size - 1) := by
    have hsize : (caseRule.word a.2).size = size v + 1 := by
      rw [← size_lower, show (caseRule.word a.2).lower = _ from hw.symm, size_lower, size_append]
      rfl
    rw [← hp, findWord?_opening (by simpa using hm) fun c hc hparen =>
      paren_not_mem hv (hparen ▸ hc), hsize,
      size_append]
    rfl
  rw [caseCall?, hfind]
  show (arguments? _ _ _).bind _ = _
  congr 1
  funext c
  rcases c with ⟨args, close⟩
  rcases args with _ | ⟨condition, _ | ⟨yes, _ | ⟨no, _ | ⟨x, args⟩⟩⟩⟩
  · rfl
  · rfl
  · rfl
  · show (findWord? (mask condition) "DATEADD(" 0).bind _ =
      ((findWord? (mask condition) "DATEADD(" 0).map _).map _
    cases findWord? (mask condition) "DATEADD(" 0 with
    | none => rfl
    | some n =>
      unfold caseText
      simp only [Option.bind_some, Option.map_some, append_assoc, Option.pure_def]
  · rfl

/-- The same without the parentheses around it. -/
def caseBody (condition yes no : Text) : Text :=
  "CASE WHEN " ++ (condition.trim ++ (" THEN " ++ (yes.trim ++ (" ELSE " ++ (no.trim ++ " END")))))

theorem caseText_eq (condition yes no : Text) :
    caseText condition yes no = '(' :: (caseBody condition yes no ++ [')']) := by
  have hfront : ("(CASE WHEN " : Text) = '(' :: "CASE WHEN ".toList := rfl
  have hback : (" END)" : Text) = " END".toList ++ [')'] := rfl
  unfold caseText caseBody
  rw [hfront, hback]
  simp only [cons_append, append_assoc]

theorem exists_of_caseRule {spaced : Bool} (h : caseRule.new? spaced args = some new) :
    ∃ condition yes no, args = [condition, yes, no] ∧ new = caseText condition yes no := by
  rcases args with _ | ⟨condition, _ | ⟨yes, _ | ⟨no, _ | ⟨x, args⟩⟩⟩⟩
  · cases h
  · cases h
  · cases h
  · obtain ⟨n, -, rfl⟩ := Option.map_eq_some_iff.1 h
    exact ⟨condition, yes, no, rfl, rfl⟩
  · cases h

theorem balanced_caseBody (hargs : ∀ x ∈ [condition, yes, no], Balanced x) :
    Balanced (caseBody condition yes no) := by
  simp only [forall_mem_cons, not_mem_nil, false_implies, implies_true, and_true] at hargs
  obtain ⟨hcondition, hyes, hno⟩ := hargs
  have hword {word : Text} (hword : ∀ c ∈ word, isPlain c) : Balanced word :=
    balanced_of_isPlain hword
  exact (hword (by decide)).append
    (hcondition.trim.append ((hword (by decide)).append (hyes.trim.append
    ((hword (by decide)).append (hno.trim.append (hword (by decide)))))))

theorem unsplit_caseBody (hargs : ∀ x ∈ [condition, yes, no], Unsplit x) :
    Unsplit (caseBody condition yes no) := by
  simp only [forall_mem_cons, not_mem_nil, false_implies, implies_true, and_true] at hargs
  obtain ⟨hcondition, hyes, hno⟩ := hargs
  have hframe {word r : Text} (hword : ∀ c ∈ word, isPlain c) (hcomma : ',' ∉ word)
    (hr : Unsplit r) :
      Unsplit (word ++ r) :=
    (unsplit_of_isPlain hword hcomma).append hr
      (Code.apart fun c hc => isQuote_of_isPlain (hword c hc))
  have hend : Unsplit " END" := unsplit_of_isPlain (by decide) (by decide)
  exact hframe (by decide) (by decide) (hcondition.trim.append (hframe (by decide) (by decide)
    (hyes.trim.append (hframe (by decide) (by decide) (hno.trim.append hend (apart_code rfl)))
      (apart_code rfl))) (apart_code rfl))

/-- No call begins in the words of a CASE. -/
theorem framed_caseText (condition yes no : Text) :
    caseRule.Framed [condition, yes, no] (caseText condition yes no) := by
  have hframe {F G r x : Text} (hx : x ∈ [condition, yes, no])
      (hF : ∀ b, clashes Char.toLower F (caseRule.word b)) (hno : Code F)
      (hG : ∀ b, Rule.rebuffs G (caseRule.word b))
        (hr : caseRule.Framed [condition, yes, no] (G ++ r)) :
      caseRule.Framed [condition, yes, no] (F ++ (x.trim ++ (G ++ r))) :=
    .arg (Rule.barren_of_clashes hF) hno.closed hx (Rule.rebuffs_append hG r) hr
  have hend : caseRule.Framed [condition, yes, no] ((" END)" : Text) ++ []) := by
    exact .last (Rule.barren_of_clashes (by decide))
  have hno := hframe (F := " ELSE ") (x := no) (by simp) (by decide) (by decide) (by decide) hend
  have hyes := hframe (F := " THEN ") (x := yes) (by simp) (by decide) (by decide) (by decide) hno
  have hcondition :=
    hframe (F := "(CASE WHEN ") (x := condition) (by simp) (by decide) (by decide) (by decide) hyes
  rwa [append_nil] at hcondition

/-- What is put for a conditional gives rise to no other call. -/
theorem lawful_caseRule : caseRule.Lawful [false, true] fun t a => caseCall? t a.1 where
  all b := by cases b <;> simp
  distinct := distinct_ifCall
  word := isCallWord_ifCall
  step _ _ h := caseCall?_eq h
  framed b args new _ h := by
    obtain ⟨condition, yes, no, rfl, rfl⟩ := exists_of_caseRule h
    exact framed_caseText condition yes no
  closed b args new hargs h := by
    obtain ⟨condition, yes, no, rfl, rfl⟩ := exists_of_caseRule h
    rw [caseText_eq]
    exact (balanced_caseBody hargs).enclosed.closed
  front b inner new hinner h b' v z new' rest hv hlt := by
    rintro ⟨w, inner', hcut, hw, hinner', hnew⟩
    obtain ⟨condition, yes, no, hparts, rfl⟩ := exists_of_caseRule h
    rw [caseText_eq] at hcut
    have hargs : ∀ x ∈ [condition, yes, no], Unsplit x :=
      fun x hx => unsplit_of_mem_parts hinner (hparts ▸ hx)
    have hbody := unsplit_caseBody hargs
    have hsize : w.size = (caseRule.word b').size := by rw [← size_lower, hw, size_lower]
    obtain ⟨u, rfl, hu⟩ := (isCallWord_ifCall b').exists_eq hw
    -- the parenthesis of the call is the one with which the CASE begins
    obtain ⟨y, rfl, hy⟩ : ∃ y, u = v ++ y ∧ _ = y ++ '(' :: (inner' ++ ')' :: rest) := by
      rw [append_assoc] at hcut
      refine exists_append_of_size_le hcut ?_
      rw [size_append, show size ['('] = 1 from rfl] at hsize
      omega
    obtain rfl : y = [] := by
      cases y with
      | nil => rfl
      | cons c y =>
        obtain ⟨rfl, -⟩ := cons.inj hy
        exact absurd (hu '(' (by simp)) (by decide)
    have hclose : caseBody condition yes no ++ ')' :: z = inner' ++ ')' :: rest := by
      simpa using hy
    obtain ⟨rfl, -⟩ := hbody.balanced.eq_of_closing hinner' hclose
    rw [parts_of_flat hbody.flat] at hnew
    cases hnew

theorem conditionals_conditionals (t : Text) : conditionals (conditionals t) = conditionals t :=
  lawful_caseRule.foldl_foldl conditionals_eq_foldl t

end Functions

end Recast
