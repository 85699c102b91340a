import Recast.Proofs.DeclaredKeys
import Recast.Proofs.Rows
import Recast.Proofs.Scripts

/-!
# Reading a printed INSERT

A statement `INSERT INTO table (columns) VALUES (…), (…)` is printed from its table, its columns and
its rows, with ASCII blanks between the tokens as one likes (`Printed`). Each step of the reader is
shown to read the token that was printed there, whatever follows it. So reading gives back exactly
what was printed (`ofText?_printed`).
-/

namespace Recast

open Definition Literal Nesting Cursor Keyword List Text
open Option hiding guard

variable {a b g name r s t word : Text} {c x : Char} {p : Char → Bool} {items : List Item}
  {rows : List ValueRow}

/-! ### Blanks and names -/

/-- A name that is written without marks. -/
structure PlainName (t : Text) : Prop where
  ne : t ≠ []
  chars : ∀ c ∈ t, isNameChar c = true

theorem Gap.isBlank (h : Gap t) : ∀ c ∈ t, isBlank c :=
  fun c hc => isBlank_of_isAsciiBlank (h c hc)

/-- Behind a gap that a mark follows, no character of a class starts that has neither blanks nor the
mark. -/
theorem Gap.head?_append (h : Gap g) (hblank : ∀ y, isAsciiBlank y → p y = false) (hc : p c = false)
    (hx : (g ++ c :: r).head? = some x) : p x = false := by
  cases g with
  | nil =>
    cases hx
    exact hc
  | cons x g =>
    cases hx
    exact hblank x (h x (by simp))

theorem isNameChar_of_isAsciiBlank (h : isAsciiBlank c) : isNameChar c = false :=
  isNameChar_of_isBlank (isBlank_of_isAsciiBlank h)

theorem isTableChar_of_isAsciiBlank (h : isAsciiBlank c) : isTableChar c = false := by
  simp only [isAsciiBlank, Bool.or_eq_true, beq_iff_eq] at h
  rcases h with (((rfl | rfl) | rfl) | rfl) | rfl <;> rfl

theorem isQuote_of_isNameChar (h : isNameChar c) : isQuote c = false :=
  isQuote_of_class h (by decide) (by decide)

theorem PlainName.no_quote (h : PlainName t) : Code t :=
  fun c hc => isQuote_of_isNameChar (h.chars c hc)

theorem PlainName.unquote (h : PlainName t) : t.unquote = t :=
  CreateTable.Spelled.unquote_eq (.bare h.ne fun c hc => .inl (h.chars c hc))

theorem PlainName.head?_append (h : PlainName t) (hp : ∀ y, p y → isNameChar y = false)
    (hx : (t ++ r).head? = some x) : p x = false := by
  obtain ⟨y, t, rfl⟩ := exists_cons_of_ne_nil h.ne
  obtain rfl : y = x := some.inj hx
  have hname := h.chars y (by simp)
  cases hy : p y with
  | false => rfl
  | true =>
    simp [hp y hy] at hname

/-! ### The verb -/

/-- A keyword is found where it can first be read. -/
theorem Keyword.find?_append_of_first {u : Text} {e : Cursor}
    (h : here? word ⟨u.size, u.getLast?, r⟩ = some e)
    (hfirst : ∀ v c w, u = v ++ c :: w → here? word ⟨size v, v.getLast?, c :: (w ++ r)⟩ = none) :
    find? (u ++ r) word 0 = some u.size := by
  obtain ⟨n, hn, rfl⟩ := exists_find? (P := (· = u.size)) h rfl fun v c w d hu hd => by
    simp [hfirst v c w hu] at hd
  exact hn

/-- The first INTO is the one behind the verb. -/
theorem Keyword.find?_into (hg : Gap g) (hne : g ≠ [])
    (hr : ∀ x, r.head? = some x → isNameChar x = false) :
    find? (("INSERT" : Text) ++ g ++ (("INTO" : Text) ++ r)) "INTO" 0 = some (6 + g.size) := by
  have hlast : ∃ y ∈ g, (("INSERT" : Text) ++ g).getLast? = some y := by
    refine ⟨g.getLast hne, getLast_mem hne, ?_⟩
    rw [getLast?_append_of_ne_nil _ hne, getLast?_eq_some_getLast hne]
  have hhere : ∃ e, here? "INTO" ⟨size (("INSERT" : Text) ++ g), (("INSERT" : Text) ++ g).getLast?,
      ("INTO" : Text) ++ r⟩ = some e := by
    obtain ⟨y, hy, hlast⟩ := hlast
    obtain ⟨e, he, hreads⟩ : ∃ e, plain? ⟨size (("INSERT" : Text) ++ g),
        (("INSERT" : Text) ++ g).getLast?, ("INTO" : Text) ++ r⟩ "INTO" = some e ∧ _ :=
      exists_plain? rfl rfl
    refine ⟨e, here?_eq_some.2 ⟨by decide, ?_, he, ?_⟩⟩
    · rw [hlast]
      exact isNameChar_of_isAsciiBlank (hg y hy)
    · rw [beforeName, ← append_cancel_left hreads.rest]
      cases hhead : r.head? with
      | none => rfl
      | some z => exact hr z hhead
  obtain ⟨e, he⟩ := hhere
  have hfind := find?_append_of_first he ?_
  · rwa [size_append] at hfind
  · intro v c w hu
    cases hd : here? "INTO" ⟨size v, v.getLast?, c :: (w ++ (("INTO" : Text) ++ r))⟩ with
    | none => rfl
    | some d =>
      exfalso
      obtain ⟨-, hafter, hplain, -⟩ := here?_eq_some.1 hd
      -- inside the verb a letter precedes, and no blank is the first letter of INTO
      cases v with
      | nil =>
        cases hu
        cases hplain
      | cons x v =>
        rcases append_cons_eq_append hu.symm with ⟨z, hz, -⟩ | ⟨z, -, hz⟩
        · obtain ⟨y, hy⟩ : ∃ y, (x :: v).getLast? = some y :=
            ⟨_, getLast?_eq_some_getLast (by simp)⟩
          have hname : isNameChar y := by
            refine (by decide : ∀ y ∈ ("INSERT" : Text), isNameChar y) y ?_
            rw [hz]
            exact mem_append_left _ (mem_of_getLast? hy)
          rw [afterName] at hafter
          simp [hy, hname] at hafter
        · have hblank := hg.isBlank c (by simp [hz])
          rw [here?_eq_none] at hd
          · cases hd
          · intro y w hy hw
            cases hy
            cases hw
            rw [toLower_of_isBlank hblank]
            exact beq_eq_false_iff_ne.2 (ne_of_isBlank hblank (by decide))

namespace Insertion

/-- The verb ends behind INTO. -/
theorem verbEnd?_printed (hg : Gap g) (hne : g ≠ [])
    (hr : ∀ x, r.head? = some x → isNameChar x = false) :
    verbEnd? (("INSERT" : Text) ++ g ++ (("INTO" : Text) ++ r))
      = some (size (("INSERT" : Text) ++ g ++ ("INTO" : Text))) := by
  have hplain : ∀ c ∈ ("INSERT" : Text) ++ g ++ ("INTO" : Text), (c == '(') = false := by
    intro c hc
    rcases mem_append.1 hc with hc | hc
    · rcases mem_append.1 hc with hc | hc
      · exact (by decide : ∀ c ∈ ("INSERT" : Text), (c == '(') = false) c hc
      · exact beq_eq_false_iff_ne.2 (ne_of_isBlank (hg.isBlank c hc) (by decide))
    · exact (by decide : ∀ c ∈ ("INTO" : Text), (c == '(') = false) c hc
  have hsize : size (("INSERT" : Text) ++ g ++ ("INTO" : Text)) = 6 + g.size + 4 := by
    rw [size_append, size_append]
    rfl
  have hparen : 6 + g.size < (find? (("INSERT" : Text) ++ g ++ (("INTO" : Text) ++ r))
      (· == '(')).getD (size (("INSERT" : Text) ++ g ++ (("INTO" : Text) ++ r))) := by
    rw [← List.append_assoc, Text.find?, Text.findFrom?_append_of_not hplain, Nat.zero_add, hsize]
    cases hfind : findFrom? (· == '(') (6 + g.size + 4) r with
    | some n =>
      have hle := le_of_findFrom? hfind
      rw [getD_some]
      omega
    | none =>
      rw [getD_none, size_append]
      omega
  rw [verbEnd?, Keyword.find?_into hg hne hr, filter_some, if_pos (by simpa using hparen), hsize]

/-! ### The table -/

/-- No keyword follows a gap and a parenthesis. -/
theorem rest?_paren {others : List Text} (hb : Gap b) (hword : Wordly word) {c : Cursor}
    (hc : c.rest = b ++ '(' :: r) : rest? (word :: others) c = none := by
  rw [rest?]
  cases hd : c.some? isAsciiBlank with
  | none => rfl
  | some d =>
    have hread : Reads c b d := by
      obtain rfl : c.skipWhile isAsciiBlank = d := by
        unfold some? at hd
        split at hd
        · exact some.inj hd
        · cases hd
      exact reads_skipWhile hc hb (by rintro x ⟨⟩; rfl)
    have hrest : d.rest = '(' :: r := (append_cancel_left (hc.symm.trans hread.rest)).symm
    have hnone : here? word d = none := by
      apply here?_eq_none
      intro x w hx hw
      rw [hrest] at hx
      cases hx
      exact hword w (mem_of_mem_head? hw)
    simp only [bind_eq_bind, bind_some, hnone, bind_none]

/-- Nothing is skipped in front of a name that a parenthesis follows. -/
theorem skipPhrase_printed (hg : Gap g) (hname : PlainName name) (hb : Gap b) (hword : Wordly word)
    (others : List Text) :
    skipPhrase (a ++ (g ++ (name ++ (b ++ '(' :: r)))) a.size ("IF" :: word :: others) =
      a.size := by
  have hat : isBoundary (a ++ (g ++ (name ++ (b ++ '(' :: r)))) a.size :=
    isBoundary_append _ _
  rw [skipPhrase_eq hat inked_existence]
  have hrest : (ofOffset (a ++ (g ++ (name ++ (b ++ '(' :: r)))) a.size).rest
      = g ++ (name ++ (b ++ '(' :: r)) := after_size_append _ _
  have hread := reads_skipWhile (p := isBlank) hrest hg.isBlank fun x hx =>
    hname.head?_append (fun _ => isNameChar_of_isBlank) hx
  generalize (ofOffset (a ++ (g ++ (name ++ (b ++ '(' :: r)))) a.size).skipWhile isBlank =
    c at hread
  have hc : c.rest = name ++ (b ++ '(' :: r) :=
    (append_cancel_left (hrest.symm.trans hread.rest)).symm
  cases hd : here? "IF" c with
  | none => rfl
  | some d =>
    -- a word that is read here is the whole name
    obtain ⟨w, hw, hlower, -⟩ := here?_reads hd
    have hbehind : d.rest.head?.any isNameChar = false := (here?_eq_some.1 hd).2.2.2
    have hparen : (b ++ '(' :: r).head?.any isNameChar = false := by
      cases hx : (b ++ '(' :: r).head? with
      | none => rfl
      | some x => exact hb.head?_append (fun _ => isNameChar_of_isAsciiBlank) (by decide) hx
    obtain rfl : name = w := eq_of_named (hc.symm.trans hw.rest) hname.chars
      (isNameChar_of_lower hlower (by decide)).2 hparen hbehind
    have hrest : d.rest = b ++ '(' :: r := (append_cancel_left (hc.symm.trans hw.rest)).symm
    rw [bind_some, rest?_paren hb hword hrest]
    rfl

/-- The table is the name behind INTO. -/
theorem tableName?_printed
    (hmask : mask (a ++ (g ++ (name ++ (b ++ '(' :: r)))) = a ++ (g ++ (name ++ (b ++ '(' :: s))))
    (hg : Gap g) (hname : PlainName name) (hb : Gap b) :
    tableName? (a ++ (g ++ (name ++ (b ++ '(' :: r)))) a.size =
      some (name, size (a ++ (g ++ name))) := by
  have hbehind : behind (mask (a ++ (g ++ (name ++ (b ++ '(' :: r))))) a.size = a.size := by
    rw [hmask, behind, existenceWords, foldl_cons, foldl_cons,
      skipPhrase_printed hg hname hb (by unfold Wordly; decide)]
    exact skipPhrase_printed hg hname hb (by unfold Wordly; decide) _
  have hat :
      At (a ++ (g ++ (name ++ (b ++ '(' :: r))))
        (ofOffset (a ++ (g ++ (name ++ (b ++ '(' :: r)))) a.size) :=
    at_ofOffset (isBoundary_append _ _)
  have hrest : (ofOffset (a ++ (g ++ (name ++ (b ++ '(' :: r)))) a.size).rest
      = g ++ (name ++ (b ++ '(' :: r)) := after_size_append _ _
  have hgap := reads_skipWhile (p := isAsciiBlank) hrest hg fun x hx =>
    hname.head?_append (fun _ => isNameChar_of_isAsciiBlank) hx
  have hstart : nameStart (a ++ (g ++ (name ++ (b ++ '(' :: r)))) a.size
      = (ofOffset (a ++ (g ++ (name ++ (b ++ '(' :: r)))) a.size).skipWhile isAsciiBlank := by
    rw [nameStart, hbehind]
  rw [← hstart] at hgap
  have hc := hat.reads hgap
  have hword :=
    reads_skipWhile (p := isTableChar) (append_cancel_left (hrest.symm.trans hgap.rest)).symm
    (fun x hx => by simp [isTableChar, hname.chars x hx])
    (fun x hx => hb.head?_append (fun _ => isTableChar_of_isAsciiBlank) (by decide) hx)
  have hstop := (hgap.trans hword).offset
  refine tableName?_eq_some.2 ⟨?_, hname.ne, ?_⟩
  · have hslice := hc.slice hword
    rw [spanTo, hstop] at hslice
    rw [size_append]
    exact (congrArg unquote hslice).trans hname.unquote
  · rw [hstop, size_append a (g ++ name)]
    rfl

/-! ### The columns -/

theorem no_quote_written (h : ∀ i ∈ items, Code i.text) : Code (written items) := by
  induction items with
  | nil => simp [written, Text.join]
  | cons i items ih =>
    cases items with
    | nil => exact h i (by simp)
    | cons j items =>
      rw [written_cons]
      intro c hc
      rcases List.mem_append.1 hc with hc | hc
      · exact h i (by simp) c hc
      · rcases List.mem_cons.1 hc with rfl | hc
        · rfl
        · exact ih (forall_mem_cons.1 h).2 c hc

theorem parts_written (hne : items ≠ []) (h : ∀ i ∈ items, i.Proper) :
    parts (written items) ',' = items.map Item.text := by
  induction items with
  | nil => exact absurd rfl hne
  | cons i items ih =>
    have hi := h i (by simp)
    cases items with
    | nil => exact parts_of_flat hi.flat_text
    | cons j items =>
      have hdepth : depth (mask i.text) = 0 := foldl_step_of_level? hi.level_text
      rw [written_cons, parts_append (by decide) (by decide) (by decide) hi.closed_text
        hi.flat_text hdepth,
        ih (by simp) (forall_mem_cons.1 h).2]
      rfl

/-- Columns as they stand in a list of columns. -/
structure ColumnList (columns : List Item) : Prop where
  ne : columns ≠ []
  gaps : ∀ i ∈ columns, Gap i.lead ∧ Gap i.trail
  names : ∀ i ∈ columns, PlainName i.core

namespace ColumnList

variable {columns : List Item}

theorem no_quote (h : ColumnList columns) : ∀ i ∈ columns, Code i.text := by
  intro i hi c hc
  rcases mem_append.1 hc with hc | hc
  · exact (h.gaps i hi).1.no_quote c hc
  · rcases mem_append.1 hc with hc | hc
    · exact (h.names i hi).no_quote c hc
    · exact (h.gaps i hi).2.no_quote c hc

theorem proper (h : ColumnList columns) : ∀ i ∈ columns, i.Proper := by
  intro i hi
  have hname := h.names i hi
  have hmask : mask i.core = i.core := Code.mask_eq hname.no_quote
  have hother (p : Char) (hp : isNameChar p = false) : ∀ c ∈ i.core, c ≠ p := by
    rintro c hc rfl
    simp [hname.chars c hc] at hp
  refine ⟨(h.gaps i hi).1.isBlank, (h.gaps i hi).2.isBlank, ⟨?_, ?_, ?_, ?_, ?_⟩, ?_⟩
  · exact Code.closed hname.no_quote
  · rw [hmask]
    exact level?_of_no_paren
      (fun c hc => ⟨hother '(' (by decide) c hc, hother ')' (by decide) c hc⟩) 0
  · rw [hmask]
    exact flat_of_not_mem (fun hmem => hother ',' (by decide) ',' hmem rfl) 0
  · exact fun c hc => isBlank_of_isNameChar (hname.chars c (mem_of_mem_head? hc))
  · exact fun c hc => isBlank_of_isNameChar (hname.chars c (mem_of_getLast? hc))
  · exact fun hnil => absurd hnil hname.ne

/-- Without the blanks around it a column is its name. -/
theorem unquote_text (h : ColumnList columns) : ∀ i ∈ columns, unquote i.text = i.core := by
  intro i hi
  have hproper := h.proper i hi
  have hname := h.names i hi
  have htrim : trim i.text = i.core := by
    have hfirst := takeWhile_append_of_head (b := i.core ++ i.trail) hproper.lead fun c hc =>
      hname.head?_append (fun _ => isNameChar_of_isBlank) hc
    rw [trim, trimStart, Item.text, hfirst.2, trimEnd, dropEnd_append hproper.trail]
    exact dropEnd_of_last hproper.entry.last
  have hcoreTrim : trim i.core = i.core := by rw [← htrim, trim_trim]
  have hunquote := hname.unquote
  rw [unquote, hcoreTrim] at hunquote
  rw [unquote, htrim, hunquote]

end ColumnList

theorem blankEnd_gap (hg : Gap g) (hr : ∀ x, r.head? = some x → isAsciiBlank x = false) :
    blankEnd (a ++ (g ++ r)) a.size = a.size + g.size := by
  have hrest : (ofOffset (a ++ (g ++ r)) a.size).rest = g ++ r := after_size_append _ _
  exact (reads_skipWhile hrest hg hr).offset

/-- What stands in parentheses behind blanks is read as the columns, with the blanks behind it. -/
theorem columns?_list {list : Text} (hlevel : level? 0 list = some 0) (hb : Gap b) (hg : Gap g)
    (hs : ∀ x, s.head? = some x → isAsciiBlank x = false) (t : Text) :
    columns? t (a ++ (b ++ '(' :: (list ++ ')' :: (g ++ s)))) a.size
      = some ((parts (t.slice ⟨size (a ++ b) + 1, size (a ++ b) + 1 + list.size⟩) ',').map unquote,
        size (a ++ (b ++ '(' :: (list ++ ')' :: g)))) := by
  have hblank : blankEnd (a ++ (b ++ '(' :: (list ++ ')' :: (g ++ s)))) a.size = size (a ++ b) := by
    rw [blankEnd_gap hb (by rintro x ⟨⟩; rfl), size_append]
  have hsplit :
      a ++ (b ++ '(' :: (list ++ ')' :: (g ++ s))) = (a ++ b) ++ '(' ::
        (list ++ ')' :: (g ++ s)) := by simp
  refine columns?_eq_some.2 (.inl ?_)
  rw [hblank, hsplit]
  refine ⟨charAt?_eq_some.2 ⟨_, _, rfl, rfl⟩, _, closing?_of_level? hlevel _ _, rfl, ?_⟩
  have hpieces :
      (a ++ b) ++ '(' :: (list ++ ')' :: (g ++ s)) = (a ++ b ++ '(' :: (list ++ [')'])) ++
        (g ++ s) := by
    simp
  have hsize : size (a ++ b) + 1 + list.size + 1 = size (a ++ b ++ '(' :: (list ++ [')'])) := by
    rw [size_append (a ++ b), size_cons, size_append list]
    show _ = size (a ++ b) + (1 + (list.size + 1))
    omega
  rw [hpieces, hsize, blankEnd_gap hg hs, ← size_append]
  simp

/-- The columns are the names in the parentheses behind the table. -/
theorem columns?_printed {columns : List Item} (h : ColumnList columns) (hb : Gap b) (hg : Gap g)
    (hs : ∀ x, s.head? = some x → isAsciiBlank x = false) :
    columns? (a ++ (b ++ '(' :: (written columns ++ ')' :: (g ++ r))))
        (a ++ (b ++ '(' :: (written columns ++ ')' :: (g ++ s)))) a.size
      = some (columns.map Item.core, size (a ++ (b ++ '(' :: (written columns ++ ')' :: g)))) := by
  have hlevel : level? 0 (written columns) = some 0 := by
    have hlevel := level_written h.proper
    rwa [Code.mask_eq (no_quote_written h.no_quote)] at hlevel
  have hpieces : a ++ (b ++ '(' :: (written columns ++ ')' :: (g ++ r)))
      = (a ++ b ++ ['(']) ++ written columns ++ ')' :: (g ++ r) := by simp
  have hopen : size (a ++ b) + 1 = size (a ++ b ++ ['(']) := by rw [size_append (a ++ b)]; rfl
  rw [columns?_list hlevel hb hg hs, hpieces, hopen, slice_append _ _ _ rfl rfl,
    parts_written h.ne h.proper,
    List.map_map, map_congr_left (f := unquote ∘ Item.text) h.unquote_text]

/-! ### The rows -/

/-- The rows are the groups behind VALUES. -/
theorem groupsFrom?_printed (hg : Gap g) (hne : rows ≠ []) (h : Listed rows) (n : Nat) :
    groupsFrom? .group n (g ++ mask (rowsText rows)) = some (groupsAt (n + g.size) rows) := by
  obtain ⟨r, rows, rfl⟩ := exists_cons_of_ne_nil hne
  obtain ⟨hr, hlead⟩ := h.first r rfl
  have hmask := mask_row hr.items (by rw [hlead]; simp) (rowsText rows)
  have hothers := groupsFrom?_rows h.others [] (n + g.size + r.text.size)
  have hsize : n + g.size + r.text.size = n + g.size + 1 + (mask (written r.items)).size + 1 := by
    rw [ValueRow.size_text, hlead, size_mask]
    show n + g.size + (0 + (1 + (written r.items).size + 1)) = _
    omega
  rw [append_nil] at hothers
  rw [rowsText_cons, hmask, hlead, nil_append,
    groupsFrom?_group hg (level_written hr.items), ← hsize]
  change groupsFrom? .comma _ (mask (rowsText rows)) = some (groupsAt _ rows ++ []) at hothers
  rw [hothers, append_nil, groupsAt, hlead]
  rfl

theorem exists_mask_rows (hne : rows ≠ []) (h : Listed rows) :
    ∃ r, mask (rowsText rows) = '(' :: r := by
  obtain ⟨r, rows, rfl⟩ := exists_cons_of_ne_nil hne
  obtain ⟨hr, hlead⟩ := h.first r rfl
  rw [rowsText_cons, mask_row hr.items (by rw [hlead]; simp), hlead]
  exact ⟨_, rfl⟩

/-! ### The whole statement -/

/-- A statement that inserts rows, with the blanks behind its words. -/
structure Printed where
  table : Text
  columns : List Item
  rows : List ValueRow
  behindVerb : Text
  behindInto : Text
  behindTable : Text
  behindColumns : Text
  behindValues : Text

namespace Printed

def verb (p : Printed) : Text := ("INSERT" : Text) ++ p.behindVerb ++ ("INTO" : Text)

def front (p : Printed) : Text :=
  p.verb ++ (p.behindInto ++ (p.table ++ (p.behindTable ++ '(' :: (written p.columns ++ ')' ::
    (p.behindColumns ++ (("VALUES" : Text) ++ p.behindValues))))))

def text (p : Printed) : Text := p.front ++ rowsText p.rows

/-- The names are names, the rows are rows, and the words are apart from each other. -/
structure Proper (p : Printed) : Prop where
  table : PlainName p.table
  columns : ColumnList p.columns
  rows_ne : p.rows ≠ []
  rows : Listed p.rows
  behindVerb : Gap p.behindVerb ∧ p.behindVerb ≠ []
  behindInto : Gap p.behindInto ∧ p.behindInto ≠ []
  behindTable : Gap p.behindTable
  behindColumns : Gap p.behindColumns
  behindValues : Gap p.behindValues

theorem front_append (p : Printed) (r : Text) : p.front ++ r =
    p.verb ++ (p.behindInto ++ (p.table ++ (p.behindTable ++ '(' :: (written p.columns ++ ')' ::
      (p.behindColumns ++ (("VALUES" : Text) ++ (p.behindValues ++ r))))))) := by
  unfold front
  simp only [append_assoc, cons_append]

/-- No literal starts in front of the rows. -/
theorem Proper.no_quote {p : Printed} (h : p.Proper) : Code p.front := by
  have hword (w : Text) (hw : ∀ c ∈ w, isNameChar c) : Code w :=
    fun c hc => isQuote_of_isNameChar (hw c hc)
  have hverb : Code p.verb :=
    forall_mem_append.2 ⟨forall_mem_append.2 ⟨hword _ (by decide), h.behindVerb.1.no_quote⟩,
      hword _ (by decide)⟩
  have hvalues : Code (p.behindColumns ++ (("VALUES" : Text) ++ p.behindValues)) :=
    forall_mem_append.2 ⟨h.behindColumns.no_quote,
      forall_mem_append.2 ⟨hword _ (by decide), h.behindValues.no_quote⟩⟩
  have hcolumns : ∀ c ∈ written p.columns ++ ')' :: (p.behindColumns ++ (("VALUES" : Text)
      ++ p.behindValues)), isQuote c = false :=
    forall_mem_append.2 ⟨no_quote_written h.columns.no_quote, forall_mem_cons.2 ⟨rfl, hvalues⟩⟩
  exact forall_mem_append.2 ⟨hverb, forall_mem_append.2 ⟨h.behindInto.1.no_quote,
    forall_mem_append.2 ⟨h.table.no_quote, forall_mem_append.2 ⟨h.behindTable.no_quote,
      forall_mem_cons.2 ⟨rfl, hcolumns⟩⟩⟩⟩⟩

end Printed

theorem ofText_insert (t : Text) : Kind.ofText (("INSERT" : Text) ++ t) = .insert := by
  have hbody :
      trimStart ((trimStart (("INSERT" : Text) ++ t)).dropWhile (· == '(')) =
        ("INSERT" : Text) ++ t := rfl
  rw [Kind.ofText, hbody]
  simp [Kind.verbs, startsWith]

/-- VALUES is read where it stands. -/
theorem valuesEnd?_printed (ha : ∀ x, a.getLast? = some x → isNameChar x = false)
    (hr : ∀ x, r.head? = some x → isNameChar x = false) :
    valuesEnd? (a ++ (("VALUES" : Text) ++ r)) a.size = some (size (a ++ ("VALUES" : Text))) := by
  have hhere : ∃ e, here? "VALUES" (ofOffset (a ++ (("VALUES" : Text) ++ r)) a.size) = some e := by
    have hrest : (ofOffset (a ++ (("VALUES" : Text) ++ r)) a.size).rest = ("VALUES" : Text) ++ r :=
      after_size_append _ _
    obtain ⟨e, he, hreads⟩ := exists_plain? hrest rfl
    refine ⟨e, here?_eq_some.2 ⟨by decide, ?_, he, ?_⟩⟩
    · rw [ofOffset, before_size_append]
      cases hlast : a.getLast? with
      | none => rfl
      | some x => exact ha x hlast
    · rw [hreads.rest] at hrest
      rw [beforeName, append_cancel_left hrest]
      cases hhead : r.head? with
      | none => rfl
      | some x => exact hr x hhead
  obtain ⟨e, he⟩ := hhere
  have hat : isAt (a ++ (("VALUES" : Text) ++ r)) "VALUES" a.size := by
    rw [isAt, isBoundary_append, he]
    rfl
  rw [valuesEnd?, if_pos hat, size_append]
  rfl

/-- The values of a group are the entries of its row. -/
theorem values_of_group (tail : Text) (h : ∀ r ∈ rows, r.Proper) {k : Nat} {g : Span}
    (hg : (groupsAt a.size rows)[k]? = some g) : ∃ r, rows[k]? = some r ∧
      slice (a ++ (rowsText rows ++ tail)) g = r.group ∧
      values (a ++ (rowsText rows ++ tail)) g = r.items.map Item.core := by
  obtain ⟨r, hr, hentries, hgroup, hslice⟩ := entries_of_group tail h hg
  refine ⟨r, hr, hgroup, ?_⟩
  have hlen : (entries (a ++ (rowsText rows ++ tail)) g).length = r.items.length := by
    rw [hentries, length_cores]
  apply ext_getElem?
  intro n
  rw [values, getElem?_map, getElem?_map]
  cases hs : (entries (a ++ (rowsText rows ++ tail)) g)[n]? with
  | some s =>
    obtain ⟨i, hi, hcore⟩ := hslice n s hs
    rw [hi, map_some, map_some, hcore]
  | none =>
    rw [getElem?_eq_none_iff, hlen] at hs
    rw [getElem?_eq_none hs]
    rfl

/-- The parts of a printed statement. -/
theorem Printed.Proper.ofText?_eq {p : Printed} (h : p.Proper) : ofText? p.text
    = some ⟨p.table, p.columns.map Item.core, groupsAt p.front.size p.rows, p.text.size⟩ := by
  have hne : groupsAt p.front.size p.rows ≠ [] := by
    intro hnil
    have hlen := length_groupsAt p.front.size p.rows
    rw [hnil] at hlen
    exact h.rows_ne (length_eq_zero_iff.1 hlen.symm)
  let named := p.verb ++ (p.behindInto ++ p.table)
  let listed := named ++ (p.behindTable ++ '(' :: (written p.columns ++ ')' :: p.behindColumns))
  have htext := p.front_append (rowsText p.rows)
  have hmask : mask p.text = p.front ++ mask (rowsText p.rows) := h.no_quote.mask_append _
  rw [p.front_append (mask (rowsText p.rows))] at hmask
  have hkind : Kind.ofText p.text = .insert := by
    exact ofText_insert _
  have hverb : verbEnd? (mask p.text) = some p.verb.size := by
    rw [hmask, verb, append_assoc]
    refine verbEnd?_printed h.behindVerb.1 h.behindVerb.2 fun x hx => ?_
    obtain ⟨y, g, hg⟩ := exists_cons_of_ne_nil h.behindInto.2
    rw [hg] at hx
    obtain rfl : y = x := some.inj hx
    exact isNameChar_of_isAsciiBlank (h.behindInto.1 y (by simp [hg]))
  have htable : tableName? p.text p.verb.size = some (p.table, size named) := by
    rw [text, htext] at hmask ⊢
    exact tableName?_printed hmask h.behindInto.1 h.table h.behindTable
  have hcolumns :
      columns? p.text (mask p.text) (size named) = some (p.columns.map Item.core, size listed) := by
    have hassoc (r : Text) : p.verb ++ (p.behindInto ++ (p.table ++ r)) = named ++ r := by
      simp only [named, append_assoc]
    rw [hmask, text, htext, hassoc, hassoc]
    exact columns?_printed h.columns h.behindTable h.behindColumns fun x hx => by cases hx; rfl
  have hassoc (r : Text) : p.verb ++ (p.behindInto ++ (p.table ++ (p.behindTable ++ '(' ::
      (written p.columns ++ ')' :: (p.behindColumns ++ r))))) = listed ++ r := by
    simp only [listed, named, append_assoc, cons_append]
  have hvalues :
      valuesEnd? (mask p.text) (size listed) = some (size (listed ++ ("VALUES" : Text))) := by
    rw [hmask, hassoc]
    refine valuesEnd?_printed (fun x hx => ?_) fun x hx => ?_
    · have hsplit :
          listed = (named ++ (p.behindTable ++ '(' :: written p.columns)) ++ ')' ::
            p.behindColumns := by
        simp only [listed, append_assoc, cons_append]
      rw [hsplit, getLast?_append_of_ne_nil _ (by simp)] at hx
      rcases mem_cons.1 (mem_of_getLast? hx) with rfl | hx
      · rfl
      · exact isNameChar_of_isAsciiBlank (h.behindColumns x hx)
    · obtain ⟨r, hr⟩ := exists_mask_rows h.rows_ne h.rows
      rw [hr] at hx
      exact h.behindValues.head?_append (fun _ => isNameChar_of_isAsciiBlank) (by decide) hx
  have hgroups : groupsFrom? .group (size (listed ++ ("VALUES" : Text)))
      ((mask p.text).after (size (listed ++ ("VALUES" : Text)))) =
        some (groupsAt p.front.size p.rows) := by
    have hsize : size (listed ++ ("VALUES" : Text)) + p.behindValues.size = p.front.size := by
      rw [← size_append, append_assoc, ← hassoc]
      rfl
    rw [hmask, hassoc, ← append_assoc, after_size_append,
      groupsFrom?_printed h.behindValues h.rows_ne h.rows, hsize]
  refine (ofText?_eq_some hne).2 ⟨hkind, _, _, _, _, hverb, htable, hcolumns, hvalues, hgroups, ?_⟩
  rw [stop_groupsAt h.rows_ne, getD_some, text, size_append]

/-- What is printed is what is read: the table, the columns, one group for each row with the entries
of the row, and nothing behind the last group. -/
theorem ofText?_printed (p : Printed) (h : p.Proper) : ∃ groups : List Span,
    ofText? p.text = some ⟨p.table, p.columns.map Item.core, groups, p.text.size⟩ ∧
    groups.map p.text.slice = p.rows.map ValueRow.group ∧
    groups.map (values p.text) = p.rows.map fun r => r.items.map Item.core := by
  have hread (k : Nat) (g : Span) (hg : (groupsAt p.front.size p.rows)[k]? = some g) : ∃ r,
      p.rows[k]? = some r ∧ p.text.slice g = r.group ∧ values p.text g = r.items.map Item.core := by
    have hrow := values_of_group [] h.rows.proper hg
    rwa [append_nil] at hrow
  have hmap {β : Type} (f : Span → β) (f' : ValueRow → β)
      (hf : ∀ g r, p.text.slice g = r.group → values p.text g = r.items.map Item.core →
        f g = f' r) :
      (groupsAt p.front.size p.rows).map f = p.rows.map f' := by
    apply ext_getElem?
    intro k
    rw [getElem?_map, getElem?_map]
    cases hg : (groupsAt p.front.size p.rows)[k]? with
    | some g =>
      obtain ⟨r, hr, hgroup, hvalues⟩ := hread k g hg
      rw [hr, map_some, map_some, hf g r hgroup hvalues]
    | none =>
      rw [getElem?_eq_none_iff, length_groupsAt] at hg
      rw [getElem?_eq_none hg]
      rfl
  exact ⟨groupsAt p.front.size p.rows, h.ofText?_eq, hmap _ _ fun _ _ hgroup _ => hgroup,
    hmap _ _ fun _ _ _ hvalues => hvalues⟩

instance decidableFlat (sep : Char) : (d : Nat) → (t : Text) → Decidable (Flat sep d t)
  | _, [] => isTrue trivial
  | d, c :: t =>
    have := decidableFlat sep (step d c) t
    inferInstanceAs (Decidable ((c = sep → d ≠ 0) ∧ Flat sep (step d c) t))

instance (t : Text) : Decidable (Closed t) := inferInstanceAs (Decidable (state none t = none))

instance (t : Text) : Decidable (Gap t) :=
  inferInstanceAs (Decidable (∀ c ∈ t, isAsciiBlank c = true))

theorem plainName_of_all (h : t ≠ [] ∧ t.all isNameChar) : PlainName t :=
  ⟨h.1, all_eq_true.1 h.2⟩

theorem proper_of_check {i : Item} (h : (i.lead ++ i.trail).all isBlank ∧ i.core ≠ [] ∧
    Closed i.core ∧ level? 0 (mask i.core) = some 0 ∧ Flat ',' 0 (mask i.core) ∧
    i.core.head?.all (!isBlank ·) = true ∧ i.core.getLast?.all (!isBlank ·) = true) : i.Proper := by
  obtain ⟨hblank, hne, hclosed, hlevel, hflat, hfirst, hlast⟩ := h
  rw [List.all_append, Bool.and_eq_true, List.all_eq_true, List.all_eq_true] at hblank
  refine ⟨hblank.1, hblank.2, ⟨hclosed, hlevel, hflat, fun c hc => ?_, fun c hc => ?_⟩,
    fun hnil => absurd hnil hne⟩
  · simpa [hc] using hfirst
  · simpa [hc] using hlast

/-- Two rows with a quoted comma, a call and no more blanks than are needed. -/
theorem ofText?_printed_rows : let p : Printed := {
      table := "t"
      columns := [⟨"", "a", " "⟩, ⟨"\t", "b", ""⟩]
      rows :=
        [⟨"", [⟨" ", "'x, (''y'", ""⟩, ⟨" ", "f(1, 2)", ""⟩]⟩,
          ⟨" ,\n", [⟨"", "NULL", ""⟩, ⟨"", "2", " "⟩]⟩]
      behindVerb := " "
      behindInto := "\n"
      behindTable := ""
      behindColumns := ""
      behindValues := "" }
    p.text = ("INSERT INTO\nt(a ,\tb)VALUES( 'x, (''y', f(1, 2)) ,\n(NULL,2 )" : Text) ∧ p.Proper ∧
      ∃ groups, ofText? p.text = some ⟨"t", ["a", "b"], groups, p.text.size⟩ ∧
        groups.map (values p.text) = [[("'x, (''y'" : Text), ("f(1, 2)" : Text)],
          [("NULL" : Text), ("2" : Text)]] := by
  intro p
  have hcolumns : ColumnList p.columns :=
    ⟨by decide, by decide, fun i hi => plainName_of_all (by revert i; decide)⟩
  have hrows : Listed p.rows := by
    refine ⟨?_, ?_⟩
    · rintro r ⟨⟩
      exact ⟨⟨by decide, fun i hi => proper_of_check (by revert i; decide)⟩, rfl⟩
    · intro r hr
      obtain rfl := mem_singleton.1 hr
      exact ⟨⟨by decide, fun i hi => proper_of_check (by revert i; decide)⟩, " ", "\n", rfl,
        by decide, by decide⟩
  have h : p.Proper :=
    ⟨plainName_of_all (by decide), hcolumns, by decide, hrows, by decide, by decide,
    by decide, by decide, by decide⟩
  obtain ⟨groups, hread, -, hvalues⟩ := ofText?_printed p h
  exact ⟨rfl, h, groups, hread, hvalues⟩

end Insertion

end Recast
