import Recast.Proofs.Verbs

/-!
# The front of a bound INSERT

Behind the verb a table name is read, a column list and VALUES, with existence conditions and blanks
around them. None of these has a placeholder in it but the column list, so binding leaves all of
them where they are and changes at most what stands in the parentheses of the columns
(`ReadsRow.results`). Behind the front of a bound INSERT rows are therefore read as they are behind
the template's (`Opens.results`).
-/

namespace Recast

open Definition Placeholder.Stretch Literal Nesting Cursor Keyword List Text

variable {a b g q r t table z : Text} {c : Char} {e k n : Nat} {pa parts rest : List Stretch}

/-- Characters with which no placeholder is written. -/
def Unmarked (t : Text) : Prop := ∀ c ∈ t, isQuote c = false ∧ c ∉ ['%', '?']

theorem unmarked_of_isBlank (h : ∀ c ∈ t, isBlank c) : Unmarked t :=
  fun c hc => of_isBlank (P := fun c => isQuote c = false ∧ c ∉ ['%', '?']) (h c hc) (by decide)

theorem Unmarked.not_mem (h : Unmarked t) : ∀ c ∈ t, c ∉ ['%', '?', '\'', '"'] := by
  intro c hc hmem
  obtain ⟨hquote, hmark⟩ := h c hc
  have hall : ∀ x ∈ ['%', '?', '\'', '"'], x ∈ ['%', '?'] ∨ isQuote x := by decide
  rcases hall c hmem with hmem | hc
  · exact hmark hmem
  · simp [hquote] at hc

/-! ### The kind of a statement -/

/-- No verb starts another one. -/
theorem Kind.verbs_find? {w : Text} {v : Text × Kind} (hv : v ∈ verbs) (hw : lower w = lower v.1)
    (r : Text) : verbs.find? (fun u => startsWith (w ++ r) u.1) = some v := by
  have hstarts : startsWith (w ++ r) v.1 := startsWith_of_lower hw r
  cases hfind : verbs.find? (fun u => startsWith (w ++ r) u.1) with
  | none => exact absurd hstarts (by simpa using find?_eq_none.1 hfind v hv)
  | some u =>
    obtain ⟨w', r', heq, hw'⟩ : ∃ w' r', w ++ r = w' ++ r' ∧ lower w' = lower u.1 :=
      exists_of_startsWith (by simpa using find?_some hfind)
    have happart : ∀ u ∈ verbs, ∀ v ∈ verbs, lower u.1 <+: lower v.1 → u = v := by decide
    have hu := mem_of_find?_eq_some hfind
    rcases append_eq_append_iff.1 heq with ⟨y, rfl, -⟩ | ⟨y, rfl, -⟩
    · rw [happart v hv u hu ⟨lower y, by rw [← hw, ← hw']; exact map_append.symm⟩]
    · rw [happart u hu v hv ⟨lower y, by rw [← hw, ← hw']; exact map_append.symm⟩]

/-- A verb has letters only. -/
theorem Kind.isLower_of_verb {w : Text} {v : Text × Kind} (hv : v ∈ verbs)
    (hw : lower w = lower v.1) : w ≠ [] ∧ ∀ x ∈ w, x.toLower.isLower := by
  have hall : ∀ v ∈ verbs, lower v.1 ≠ [] ∧ ∀ x ∈ lower v.1, x.isLower := by decide
  obtain ⟨hne, hlower⟩ := hall v hv
  rw [← hw] at hne hlower
  exact ⟨fun hnil => hne (congrArg lower hnil), fun x hx => hlower _ (mem_map_of_mem hx)⟩

theorem Kind.ofText_verb {w : Text} {v : Text × Kind} (hv : v ∈ verbs) (hw : lower w = lower v.1)
    (r : Text) : ofText (w ++ r) = v.2 := by
  obtain ⟨hne, hlower⟩ := isLower_of_verb hv hw
  obtain ⟨x, w, rfl⟩ := exists_cons_of_ne_nil hne
  have hx := hlower x mem_cons_self
  have htrim : trimStart (x :: w ++ r) = x :: w ++ r := dropWhile_cons_of_neg
    (by simp [isBlank_of_class (p := fun c => c.toLower.isLower) hx (by decide)])
  have hdrop : (x :: w ++ r).dropWhile (· == '(') = x :: w ++ r :=
    dropWhile_cons_of_neg fun hparen => by rw [eq_of_beq hparen] at hx; cases hx
  rw [ofText, htrim, hdrop, htrim, verbs_find? hv hw]
  rfl

/-- The verb of a text stands behind blanks and parentheses. -/
theorem Kind.exists_lead {kind : Kind} (h : ofText t = kind) (hkind : kind ≠ .other) :
    ∃ lead w r v, t = lead ++ (w ++ r) ∧ (∀ c ∈ lead, isBlank c = true ∨ c = '(') ∧
      (v, kind) ∈ verbs ∧
      lower w = lower v ∧ trimStart (t.trimStart.dropWhile (· == '(')) = w ++ r := by
  obtain ⟨w₁, ht₁, hw₁, -⟩ := exists_dropWhile isBlank t
  obtain ⟨w₂, ht₂, hw₂, -⟩ := exists_dropWhile (· == '(') t.trimStart
  obtain ⟨w₃, ht₃, hw₃, -⟩ := exists_dropWhile isBlank (t.trimStart.dropWhile (· == '('))
  have hbody : t = (w₁ ++ (w₂ ++ w₃)) ++ trimStart (t.trimStart.dropWhile (· == '(')) := by
    rw [append_assoc, append_assoc, trimStart, ← ht₃, ← ht₂]
    exact ht₁
  rw [ofText] at h
  cases hfind :
      verbs.find? fun v => startsWith (trimStart (t.trimStart.dropWhile (· == '('))) v.1 with
  | none =>
    rw [hfind] at h
    exact absurd h.symm hkind
  | some v =>
    rw [hfind] at h
    obtain rfl : v.2 = kind := h
    obtain ⟨w, r, hw, hlower⟩ := exists_of_startsWith (by simpa using find?_some hfind)
    refine ⟨w₁ ++ (w₂ ++ w₃), w, r, v.1, hw ▸ hbody, ?_, mem_of_find?_eq_some hfind, hlower, hw⟩
    refine forall_mem_append.2 ⟨fun c hc => .inl (hw₁ c hc),
      forall_mem_append.2 ⟨fun c hc => .inr ?_, fun c hc => .inl (hw₃ c hc)⟩⟩
    simpa using hw₂ c hc

/-- The kind of a text is that of every text that starts in the same way, up to the end of its
verb. -/
theorem Kind.exists_verb {kind : Kind} (h : ofText t = kind) (hkind : kind ≠ .other) :
    ∃ w r, t = w ++ r ∧ Unmarked w ∧ ∀ r', ofText (w ++ r') = kind := by
  obtain ⟨lead, w, r, v, rfl, hlead, hv, hlower, hbody⟩ := exists_lead h hkind
  have hunmarked : Unmarked lead := fun c hc => (hlead c hc).elim
    (fun hblank => unmarked_of_isBlank (t := [c]) (by simpa using hblank) c mem_cons_self)
      (by rintro rfl; decide)
  obtain ⟨hne, hletter⟩ := isLower_of_verb hv hlower
  have hmarks {x : Char} (hx : x ∈ w) : x ∉ ['(', '%', '?', '\'', '"'] :=
    not_mem_of_class (p := fun c => c.toLower.isLower) (hletter x hx) (by decide)
  obtain ⟨x, hx⟩ := exists_mem_of_ne_nil w hne
  have hblank : isBlank x = false :=
    isBlank_of_class (p := fun c => c.toLower.isLower) (hletter x hx) (by decide)
  have hparen : x ≠ '(' := by
    rintro rfl
    exact hmarks hx (by decide)
  have htail := trimStart_parens_append (b := lead ++ w) (x := x) (by simp [hx]) hblank hparen
  have hstart : trimStart ((trimStart (lead ++ w)).dropWhile (· == '(')) = w := by
    refine (append_left_inj r).1 ?_
    rw [← htail, append_assoc, hbody]
  refine ⟨lead ++ w, r, (append_assoc ..).symm, forall_mem_append.2 ⟨hunmarked, fun c hc => ?_⟩,
    fun r' => ?_⟩
  · have hnot := hmarks hc
    simp only [mem_cons, not_mem_nil, or_false, not_or] at hnot
    simp [isQuote, hnot]
  · rw [ofText, htail, hstart, verbs_find? hv hlower]
    rfl

/-! ### What is read behind the verb -/

/-- In front of the end of a table name there are no placeholders. -/
theorem Definition.exists_of_tableName? {p name : Text}
    (h : tableName? (p ++ q) p.size = some (name, n)) (hp : Unmarked p) :
    ∃ z s, p ++ q = z ++ s ∧ z.size = n ∧ z ≠ [] ∧ ∀ c ∈ z, c ∉ ['%', '?'] := by
  have hmask : mask (p ++ q) = p ++ mask q := Code.mask_append (fun c hc => (hp c hc).1) q
  have hblank (c : Char) (hc : isBlank c) : isQuote c = false ∧ c ∉ ['%', '?'] :=
    of_isBlank (P := fun c => isQuote c = false ∧ c ∉ ['%', '?']) hc (by decide)
  obtain ⟨e, he, w, hw, hplain⟩ := exists_behind (isBoundary_append p (mask q)) hblank
    (P := fun c => isQuote c = false ∧ c ∉ ['%', '?']) fun c hc =>
      ⟨isQuote_of_isNameChar hc, not_mem_of_class hc (by decide)⟩
  have hbehind : behind (mask (p ++ q)) p.size = size (p ++ w) := by
    have hoffset : e.offset = p.size + w.size := hw.offset
    rw [hmask, size_append, ← hoffset, he]
  obtain ⟨q', rfl, -⟩ := exists_of_mask_append (t := q) (w := w) (r := e.rest) (by
    rw [← hw.rest]
    exact (after_size_append p (mask q)).symm) fun c hc => (hplain c hc).1
  -- and the name, with the blanks before it
  obtain ⟨hname, hne, rfl⟩ := tableName?_eq_some.1 h
  have hstart : At (p ++ (w ++ q')) (ofOffset (p ++ (w ++ q')) (size (p ++ w))) := by
    rw [← append_assoc]
    exact at_ofOffset (isBoundary_append _ _)
  have hrest : (ofOffset (p ++ (w ++ q')) (size (p ++ w))).rest = q' := by
    rw [← append_assoc]
    exact after_size_append _ _
  rw [nameStart, hbehind] at hname ⊢
  obtain ⟨g, hg, hgap, -⟩ :=
    skipWhile_reads (ofOffset (p ++ (w ++ q')) (size (p ++ w))) isAsciiBlank
  generalize (ofOffset (p ++ (w ++ q')) (size (p ++ w))).skipWhile isAsciiBlank = c at hname hg ⊢
  obtain ⟨x, hx, hchars, -⟩ := skipWhile_reads c isTableChar
  generalize c.skipWhile isTableChar = c' at hname hx ⊢
  refine ⟨p ++ (w ++ (g ++ x)), c'.rest, ?_, ?_, ?_, ?_⟩
  · have hq' : q' = g ++ (x ++ c'.rest) := by rw [← hrest, hg.rest, hx.rest]
    rw [hq']
    simp
  · rw [hx.offset, hg.offset]
    show _ = size (p ++ w) + g.size + x.size
    simp only [size_append]
    omega
  · intro hnil
    obtain ⟨-, -, -, rfl⟩ : p = [] ∧ w = [] ∧ g = [] ∧ x = [] := by
      simpa only [append_eq_nil_iff] using hnil
    have hslice := (hstart.reads hg).slice hx
    rw [spanTo] at hslice
    rw [hslice] at hname
    exact hne hname.symm
  · simp only [forall_mem_append]
    exact ⟨fun c hc => (hp c hc).2, fun c hc => (hplain c hc).2,
      fun c hc => not_mem_of_class (hgap c hc) (by decide), fun c hc =>
        not_mem_of_class (hchars c hc) (by decide)⟩

theorem Text.before_cons_ne_nil (h : c.utf8Size ≤ n) : before (c :: r) n ≠ [] := by
  rw [before, if_pos h]
  simp

namespace Insertion

/-- From place `n` of a text on, a table name, columns and VALUES are read, and one row at `e`. -/
def ReadsRow (u : Text) (n e : Nat) : Prop :=
  ∃ (table : Text) (n' : Nat) (columns : List Text) (m k : Nat) (lead body tail : Text),
    tableName? u n = some (table, n') ∧ columns? u (mask u) n' = some (columns, m) ∧
    valuesEnd? (mask u) m = some k ∧ (mask u).after k = lead ++ '(' :: (body ++ ')' :: tail) ∧
      Gap lead ∧
    level? 0 body = some 0 ∧ groupsFrom? .comma 0 tail = some [] ∧ k + lead.size = e

/-- A place at the first character of a text, if that is a blank, or behind it. -/
def AtFirst (c : Char) (n : Nat) : Prop := n = 0 ∧ isBlank c = true ∨ n = c.utf8Size

theorem AtFirst.anchored (h : AtFirst c n) (hc : isQuote c = false) (r : Text) :
    Anchored (mask (c :: r)) n := by
  rw [mask_cons hc]
  rcases h with ⟨rfl, hblank⟩ | rfl
  · exact ⟨isBoundary_zero _, fun _ => ⟨c, mask r, rfl, hblank⟩⟩
  · refine ⟨isBoundary_append [c] (mask r), fun hzero => ?_⟩
    have hpos := Char.utf8Size_pos c
    omega

theorem AtFirst.exists_of_tableName? {n' : Nat} (h : AtFirst c n) (hc : isQuote c = false)
    (hplain : c ∉ ['%', '?']) (htable : tableName? (c :: r) n = some (table, n')) :
    ∃ z s : Text, c :: r = z ++ s ∧ z.size = n' ∧ z ≠ [] ∧ ∀ c ∈ z, c ∉ ['%', '?'] := by
  rcases h with ⟨rfl, -⟩ | rfl
  · exact exists_of_tableName? (p := []) htable fun x hx => nomatch hx
  · refine exists_of_tableName? (p := [c]) (q := r) htable fun x hx => ?_
    obtain rfl := mem_singleton.1 hx
    exact ⟨hc, hplain⟩

/-- A row is read behind the verb exactly if the statement has one value group. -/
theorem readsRow_iff {x : Text} (hx : Closed x) (hc : isQuote c = false) (hplain : c ∉ ['%', '?'])
    (hn : AtFirst c n) (hkind : Kind.ofText (x ++ c :: r) = .insert)
    (hv : verbEnd? (mask (x ++ c :: r)) = some (x.size + n)) :
    ReadsRow (c :: r) n e ↔ ∃ i s, ofText? (x ++ c :: r) = some i ∧
      i.groups = [⟨x.size + e, s⟩] := by
  have hapart : Apart x (c :: r) := apart_code hc
  have hmask : mask (x ++ c :: r) = mask x ++ mask (c :: r) := mask_append hx hapart
  have htable := tableName?_append_add hx hapart (hn.anchored hc r)
  have hcolumns (k : Nat) := columns?_append_add (size_mask x) (c :: r) (mask (c :: r)) k
  have hafter (k : Nat) : (mask (x ++ c :: r)).after (x.size + k) = (mask (c :: r)).after k := by
    rw [hmask, ← size_mask x, after_append_add]
  -- VALUES stands behind a table name, so nothing of the front is seen there
  have hvalues {table : Text} {n' m : Nat} {columns : List Text}
      (ht : tableName? (c :: r) n = some (table, n'))
      (hm : columns? (c :: r) (mask (c :: r)) n' = some (columns, m)) :
      valuesEnd? (mask (x ++ c :: r)) (x.size + m) = (valuesEnd? (mask (c :: r)) m).map
        (x.size + ·) := by
    have hne : (mask (c :: r)).before m ≠ [] := by
      obtain ⟨z, s, hz, rfl, hzne, -⟩ := hn.exists_of_tableName? hc hplain ht
      have hle := le_of_columns? hm
      obtain ⟨y, z, rfl⟩ := exists_cons_of_ne_nil hzne
      obtain rfl : c = y := (cons.inj hz).1
      rw [mask_cons hc]
      refine before_cons_ne_nil ?_
      rw [size_cons] at hle
      omega
    rw [hmask, ← size_mask x, valuesEnd?_append_add _ hne]
  constructor
  · rintro ⟨table, n', columns, m, k, lead, body, tail, ht, hm, hk, hrow, hgap, hlevel, htail, rfl⟩
    have hgroups : groupsFrom? .group (x.size + k) ((mask (x ++ c :: r)).after (x.size + k))
        = some [⟨x.size + k + lead.size, x.size + k + lead.size + 1 + body.size + 1⟩] := by
      rw [hafter, hrow, groupsFrom?_group hgap hlevel, groupsFrom?_nil htail]
      rfl
    refine ⟨⟨table, columns, _, _⟩, _,
      (ofText?_eq_some (by simp)).2 ⟨hkind, _, x.size + n', x.size + m,
      x.size + k, hv, ?_, ?_, ?_, hgroups, rfl⟩, by rw [Nat.add_assoc x.size k]⟩
    · rw [htable, ht]
      rfl
    · rw [hmask, hcolumns, hm]
      rfl
    · rw [hvalues ht hm, hk]
      rfl
  · rintro ⟨i, s, hi, hgroups⟩
    obtain ⟨-, v, n', m, k, hv', ht, hm, hk, hrow, -⟩ := (ofText?_eq_some (by simp [hgroups])).1 hi
    obtain rfl : x.size + n = v := Option.some.inj (hv.symm.trans hv')
    rw [htable] at ht
    obtain ⟨⟨table, n'⟩, ht', heq⟩ := Option.map_eq_some_iff.1 ht
    obtain ⟨-, rfl⟩ := Prod.mk.inj heq
    rw [hmask, hcolumns] at hm
    obtain ⟨⟨columns, m⟩, hm', heq⟩ := Option.map_eq_some_iff.1 hm
    obtain ⟨-, rfl⟩ := Prod.mk.inj heq
    rw [hvalues ht' hm'] at hk
    obtain ⟨k, hk', rfl⟩ := Option.map_eq_some_iff.1 hk
    rw [hafter, hgroups] at hrow
    obtain ⟨lead, body, tail, hafter, hlead, hlevel, hg, htail⟩ := exists_of_groupsFrom?_group hrow
    refine ⟨table, n', columns, m, k, lead, body, tail, ht', hm', hk', hafter, hlead, hlevel,
      groupsFrom?_nil htail 0, ?_⟩
    have hstart := congrArg Span.start hg
    simp only at hstart
    omega

/-! ### The column list -/

theorem exists_gap (a b : Text) : ∃ g r, b = g ++ r ∧ Gap g ∧
    (∀ x, r.head? = some x → isAsciiBlank x = false) ∧
    blankEnd (a ++ b) a.size = a.size + g.size := by
  obtain ⟨g, hg, hgap, hstop⟩ := skipWhile_reads (ofOffset (a ++ b) a.size) isAsciiBlank
  have hrest : (ofOffset (a ++ b) a.size).rest = b := after_size_append _ _
  exact ⟨g, _, by rw [← hg.rest, hrest], hgap, hstop, hg.offset⟩

theorem exists_values (h : valuesEnd? (a ++ b) a.size = some k) :
    ∃ c w r, b = c :: (w ++ r) ∧ c.toLower = 'v' ∧ (∀ x ∈ c :: w, isNameChar x) ∧
      k = a.size + size (c :: w) := by
  have hnamed : ∀ word ∈ (["VALUES", "VALUE"] : List Text), Named word := by decide
  obtain ⟨a', w, r, c, hcut, ha, hk, hc, word, hword, hlower⟩ := exists_of_valuesEnd? h
  obtain ⟨rfl, rfl⟩ := append_inj_of_size hcut ha.symm
  exact ⟨c, w, r, rfl, hc, (isNameChar_of_lower hlower (hnamed word hword)).2, hk⟩

/-- A row behind a list of columns is read without looking into the list. -/
theorem readsRow_list_iff {cl h : Text} (hz : Closed z) (hg : Gap g) (hcl : Closed cl)
    (hlevel : level? 0 (mask cl) = some 0) (hh : Gap h) (hq : Code q)
    (hstop : ∀ x, q.head? = some x → isAsciiBlank x = false)
    (htable : tableName? (z ++ (g ++ '(' :: (cl ++ ')' :: (h ++ q)))) n = some (table, z.size)) :
    ReadsRow (z ++ (g ++ '(' :: (cl ++ ')' :: (h ++ q)))) n e ↔ ∃ (k : Nat) (lead body tail : Text),
      valuesEnd? (')' :: (h ++ q)) (1 + h.size) = some k ∧
      after (')' :: (h ++ q)) k = lead ++ '(' :: (body ++ ')' :: tail) ∧ Gap lead ∧
      level? 0 body = some 0 ∧ groupsFrom? .comma 0 tail = some [] ∧
      size (z ++ (g ++ '(' :: cl)) + k + lead.size = e := by
  have hplain : Code (h ++ q) := forall_mem_append.2 ⟨hh.no_quote, hq⟩
  have hmask : mask (z ++ (g ++ '(' :: (cl ++ ')' :: (h ++ q))))
      = mask z ++ (g ++ '(' :: mask cl) ++ ')' :: (h ++ q) := by
    have hapart : Apart z (g ++ '(' :: (cl ++ ')' :: (h ++ q))) := by
      cases g with
      | nil => exact apart_code (by decide)
      | cons x g => exact apart_code (hg.no_quote x (by simp))
    rw [mask_append hz hapart, hg.no_quote.mask_append, mask_cons (by decide),
      mask_append_cons hcl (by decide), hplain.mask_eq]
    simp
  have hsize : size (mask z ++ (g ++ '(' :: mask cl)) = size (z ++ (g ++ '(' :: cl)) := by
    simp only [size_append, size_cons, size_mask]
  obtain ⟨columns, hcolumns⟩ : ∃ columns, columns? (z ++ (g ++ '(' :: (cl ++ ')' :: (h ++ q))))
      (mask z ++ (g ++ '(' :: mask cl) ++ ')' :: (h ++ q)) z.size
      = some (columns, size (mask z ++ (g ++ '(' :: mask cl)) + (1 + h.size)) := by
    have hlist :=
      columns?_list (a := mask z) hlevel hg hh hstop (z ++ (g ++ '(' :: (cl ++ ')' :: (h ++ q))))
    have hlast : size (mask z ++ (g ++ '(' :: (mask cl ++ ')' :: h)))
        = size (mask z ++ (g ++ '(' :: mask cl)) + (1 + h.size) := by
      show _ = _ + size (')' :: h)
      rw [← size_append]
      simp
    rw [hlast] at hlist
    exact ⟨_, by simpa using hlist⟩
  have hvalues := valuesEnd?_append_add (mask z ++ (g ++ '(' :: mask cl)) (u := ')' :: (h ++ q))
    (n := 1 + h.size) (before_cons_ne_nil (by show 1 ≤ _; omega))
  rw [ReadsRow, hmask]
  constructor
  · rintro ⟨table', n', columns', m, k, lead, body, tail, ht, hm, hk, hafter, hlead, hbody,
      htail, rfl⟩
    rw [htable] at ht
    cases ht
    rw [hcolumns] at hm
    cases hm
    rw [hvalues] at hk
    obtain ⟨k, hk', rfl⟩ := Option.map_eq_some_iff.1 hk
    rw [after_append_add] at hafter
    exact ⟨k, lead, body, tail, hk', hafter, hlead, hbody, htail, by rw [hsize]⟩
  · rintro ⟨k, lead, body, tail, hk, hafter, hlead, hbody, htail, rfl⟩
    refine ⟨table, _, columns, _, size (mask z ++ (g ++ '(' :: mask cl)) + k, lead, body,
      tail, htable, hcolumns, ?_, ?_, hlead, hbody, htail, by rw [hsize]⟩
    · rw [hvalues, hk]
      rfl
    · rw [after_append_add, hafter]

/-- Behind a table name, blanks and code are what the mask shows. -/
theorem exists_code_behind {s A B : Text} (hmask : mask (z ++ s) = A ++ (g ++ c :: B))
    (hsize : A.size = z.size) (hg : Gap g) (hc : isQuote c = false) (hfill : c ≠ filler) :
    Closed z ∧ ∃ r, s = g ++ c :: r ∧ mask r = B := by
  -- the first of these characters is code, whether it is a blank or not
  obtain ⟨x, rest, hrest, hx, hxfill⟩ :
      ∃ x rest, g ++ c :: B = x :: rest ∧ isQuote x = false ∧ x ≠ filler := by
    cases g with
    | nil => exact ⟨c, B, rfl, hc, hfill⟩
    | cons x g =>
      exact ⟨x, g ++ c :: B, rfl, hg.no_quote x (by simp),
        ne_of_isBlank (hg.isBlank x (by simp)) (by decide)⟩
  rw [hrest] at hmask
  obtain ⟨a, b, hab, ha, rfl, rfl⟩ := exists_code hmask hx hxfill
  obtain ⟨rfl, rfl⟩ := append_inj_of_size hab (by rw [← hsize, size_mask])
  have hs : mask (x :: b) = (g ++ [c]) ++ B := by
    rw [mask_cons hx, ← hrest]
    simp
  obtain ⟨r, hr, hB⟩ :=
    exists_of_mask_append hs (forall_mem_append.2 ⟨hg.no_quote, by simpa using hc⟩)
  exact ⟨ha, r, by rw [hr]; simp, hB⟩

/-- VALUES and the parenthesis of a row, where nothing is in the row and nothing behind it. -/
theorem exists_values_row {lead : Text} (h : valuesEnd? (a ++ b) a.size = some k) (hlead : Gap lead)
    (hafter : (a ++ b).after k = lead ++ ['(', ')']) :
    ∃ c q, b = c :: (q ++ ['(', ')']) ∧ c.toLower = 'v' ∧ Unmarked (c :: q) := by
  obtain ⟨c, w, r, rfl, hc, hname, rfl⟩ := exists_values h
  have hr : r = lead ++ ['(', ')'] := by
    rw [← hafter, ← cons_append, ← append_assoc, ← size_append, after_size_append]
  refine ⟨c, w ++ lead, by rw [hr]; simp, hc, ?_⟩
  exact forall_mem_append.2
    ⟨fun x hx => ⟨isQuote_of_isNameChar (hname x hx), not_mem_of_class (hname x hx) (by decide)⟩,
    unmarked_of_isBlank hlead.isBlank⟩

/-- VALUES and an empty row, behind the blanks at a place of a mask. -/
theorem exists_values_behind {A B lead : Text}
    (h : valuesEnd? (A ++ B) (blankEnd (A ++ B) A.size) = some k) (hlead : Gap lead)
    (hafter : (A ++ B).after k = lead ++ ['(', ')']) :
    ∃ g x q, B = g ++ x :: (q ++ ['(', ')']) ∧ Gap g ∧ x.toLower = 'v' ∧ Unmarked (x :: q) := by
  obtain ⟨g, B, rfl, hg, -, hblank⟩ := exists_gap A B
  rw [hblank, ← size_append, ← append_assoc] at h
  rw [← append_assoc] at hafter
  obtain ⟨x, q, rfl, hx, hq⟩ := exists_values_row h hlead hafter
  exact ⟨g, x, q, rfl, hg, hx, hq⟩

theorem code_values {x : Char} (hg : Gap g) (hq : Unmarked (x :: q)) :
    Code (g ++ x :: (q ++ ['(', ')'])) :=
  forall_mem_append.2 ⟨hg.no_quote, forall_mem_append.2 ⟨fun y hy => (hq y hy).1, by decide⟩⟩

/-- Another list of columns may stand in front of a row. -/
theorem ReadsRow.exchange {cl cl' h : Text} (hz : Closed z) (hg : Gap g) (hh : Gap h)
    (hq : Code q) (hstop : ∀ x, q.head? = some x → isAsciiBlank x = false)
    (htable : tableName? (z ++ (g ++ '(' :: (cl ++ ')' :: (h ++ q)))) n = some (table, z.size))
    (hcl : Closed cl) (hlevel : level? 0 (mask cl) = some 0)
    (hread : ReadsRow (z ++ (g ++ '(' :: (cl ++ ')' :: (h ++ q)))) n
      (size (z ++ (g ++ '(' :: cl)) + e))
    (hcl' : Closed cl') (hlevel' : level? 0 (mask cl') = some 0) :
    ReadsRow (z ++ (g ++ '(' :: (cl' ++ ')' :: (h ++ q)))) n
      (size (z ++ (g ++ '(' :: cl')) + e) := by
  have hzg : Closed (z ++ g) := hz.append (Code.closed hg.no_quote)
  have htable' : tableName? (z ++ (g ++ '(' :: (cl' ++ ')' :: (h ++ q)))) n
      = some (table, z.size) := by
    rw [← append_assoc] at htable ⊢
    exact tableName?_append (size_mask (z ++ g)) (mask_append_cons hzg (by decide) _)
      (mask_append_cons hzg (by decide) _) htable (by rw [size_append]; omega)
  obtain ⟨k, lead, body, tail, hk, hrow, hlead, hbody, htail, hsum⟩ :=
    (readsRow_list_iff hz hg hcl hlevel hh hq hstop htable).1 hread
  exact (readsRow_list_iff hz hg hcl' hlevel' hh hq hstop htable').2
    ⟨k, lead, body, tail, hk, hrow, hlead, hbody, htail, by omega⟩

/-- An empty row that is read at the end of a text is the one behind VALUES. -/
theorem after_values {u lead body tail : Text} (ha : u = a ++ ['(', ')'])
    (hvalues : valuesEnd? (mask u) n = some k)
    (hafter : (mask u).after k = lead ++ '(' :: (body ++ ')' :: tail))
    (hsize : k + lead.size = a.size) : (mask u).after k = lead ++ ['(', ')'] := by
  have hsplit : mask u = (mask u).before k ++ lead ++ '(' :: (body ++ ')' :: tail) := by
    rw [append_assoc, ← hafter, before_append_after]
  obtain ⟨a', r', hu', -, ha', hr'⟩ := exists_code hsplit (by decide) (by decide)
  have hbefore : ((mask u).before k).size = k := beq_iff_eq.1 (valuesEnd?_eq_some hvalues).1
  obtain ⟨-, hend⟩ := append_inj_of_size (hu'.symm.trans ha)
    (by rw [← size_mask a', ha', size_append, hbefore, hsize])
  obtain ⟨-, rfl⟩ := cons.inj hend
  rw [hafter, ← hr']
  rfl

/-- In front of a row that is read there are no placeholders but among the columns, and what is
written there can be exchanged. -/
theorem ReadsRow.exists_columns (hc : isQuote c = false) (hplain : c ∉ ['%', '?'])
    (hn : AtFirst c n) (ha : c :: r = a ++ ['(', ')']) (h : ReadsRow (c :: r) n a.size) :
    (1 < a.length ∧ ∀ x ∈ a, x ∉ ['%', '?']) ∨
      ∃ y cl q : Text, a = y ++ '(' :: (cl ++ ')' :: q) ∧ y ≠ [] ∧
      (∀ x ∈ y, x ∉ ['%', '?']) ∧ (∀ x ∈ q, x ∉ ['%', '?']) ∧ Closed y ∧ Closed cl ∧
      level? 0 (mask cl) = some 0 ∧ ∀ cl' : Text, Closed cl' → level? 0 (mask cl') = some 0 →
        ReadsRow (y ++ '(' :: (cl' ++ ')' :: (q ++ ['(', ')']))) n
          (size (y ++ '(' :: (cl' ++ ')' :: q))) := by
  have hread := h
  obtain ⟨table, n', columns, m, k, lead, body, tail, htable, hcolumns, hvalues, hafter, hlead, -,
    -, hsize⟩ := h
  obtain ⟨z, s, hu, rfl, hzne, hzplain⟩ := hn.exists_of_tableName? hc hplain htable
  generalize c :: r = u at *
  have hrow := after_values ha hvalues hafter hsize
  have hblanks {g q : Text} {x : Char} (hg : Gap g) (hq : Unmarked (x :: q)) :
      ∀ y ∈ g ++ x :: q, y ∉ ['%', '?'] := forall_mem_append.2
    ⟨fun y hy => (unmarked_of_isBlank hg.isBlank y hy).2, fun y hy => (hq y hy).2⟩
  obtain ⟨A, B, hAB, hA⟩ := isBoundary_iff.1 (isBoundary_mask (isBoundary_iff.2 ⟨_, _, hu, rfl⟩))
  rw [hAB] at hcolumns hvalues hrow
  rcases columns?_eq_some.1 hcolumns with ⟨-, close, hclose, -, rfl⟩ | ⟨-, -, rfl⟩
  · -- VALUES and the row stand behind the list of columns
    obtain ⟨g, B, rfl, hg, -, hblank⟩ := exists_gap A B
    rw [← hA, hblank] at hclose
    obtain ⟨A', v, R, hA', hopen, rfl, hlevel⟩ := exists_of_closing? hclose
    rw [← append_assoc] at hA'
    obtain ⟨rfl, rfl⟩ := append_inj_of_size hA' (by rw [size_append, hopen])
    subst hu
    obtain ⟨hz, s, rfl, hs⟩ := exists_code_behind hAB hA hg (by decide) (by decide)
    obtain ⟨cl, s, rfl, hcl, rfl, rfl⟩ := exists_code hs (by decide) (by decide)
    have hlist : A ++ (g ++ '(' :: (mask cl ++ ')' :: mask s))
        = A ++ (g ++ '(' :: (mask cl ++ [')'])) ++ mask s := by simp
    have hclosing :
        size (A ++ g) + 1 + (mask cl).size + 1 = size (A ++ (g ++ '(' :: (mask cl ++ [')']))) := by
      simp only [size_append, size_cons, size_nil]
      show _ = _ + (_ + (1 + (_ + (1 + 0))))
      omega
    rw [hclosing, hlist] at hvalues
    rw [hlist] at hrow
    obtain ⟨g', x, q, hB, hg', hx, hq⟩ := exists_values_behind hvalues hlead hrow
    obtain rfl : s = g' ++ x :: (q ++ ['(', ')']) := by
      rw [← hB, eq_of_mask_no_quote]
      rw [hB]
      exact code_values hg' hq
    obtain rfl : a = z ++ g ++ '(' :: (cl ++ ')' :: (g' ++ x :: q)) := by
      refine (append_left_inj ['(', ')']).1 ?_
      rw [← ha]
      simp
    refine .inr ⟨z ++ g, cl, g' ++ x :: q, rfl, by simp [hzne], forall_mem_append.2 ⟨hzplain,
      fun y hy => (unmarked_of_isBlank hg.isBlank y hy).2⟩, hblanks hg' hq,
      hz.append (Code.closed hg.no_quote), hcl, hlevel, fun cl' hcl' hlevel' => ?_⟩
    have hsum (cl : Text) : size (z ++ g ++ '(' :: (cl ++ ')' :: (g' ++ x :: q)))
        = size (z ++ (g ++ '(' :: cl)) + size (')' :: (g' ++ x :: q)) := by
      rw [← size_append]
      simp
    have hstop : ∀ y, (x :: (q ++ ['(', ')'])).head? = some y → isAsciiBlank y = false := by
      rintro y ⟨⟩
      have hblank := isBlank_of_toLower hx (by decide)
      exact Bool.eq_false_iff.2 fun hy => by simp [isBlank_of_isAsciiBlank hy] at hblank
    rw [hsum] at hread ⊢
    simpa using hread.exchange hz hg hg' (code_values (g := []) (by simp [Gap]) hq) hstop htable hcl
      hlevel hcl' hlevel'
  · rw [← hA] at hvalues
    obtain ⟨g, x, q, rfl, hg, hx, hq⟩ := exists_values_behind hvalues hlead hrow
    subst hu
    obtain ⟨-, s, rfl, hs⟩ :=
      exists_code_behind hAB hA hg (hq x (by simp)).1 (by rintro rfl; cases hx)
    obtain rfl : s = q ++ ['(', ')'] := by
      rw [← hs, eq_of_mask_no_quote]
      rw [hs]
      exact forall_mem_append.2 ⟨fun y hy => (hq y (by simp [hy])).1, by decide⟩
    obtain rfl : a = z ++ (g ++ x :: q) := by
      refine (append_left_inj ['(', ')']).1 ?_
      rw [← ha]
      simp
    have hlength := length_pos_of_ne_nil hzne
    exact .inl ⟨by simp only [length_append, length_cons]; omega,
      forall_mem_append.2 ⟨hzplain, hblanks hg hq⟩⟩

end Insertion

namespace Placeholder.Stretch

theorem Threaded.exists_code_cut (h : Threaded none parts) (ht : sources parts = a ++ c :: b)
    (ha : Closed a) (hquote : isQuote c = false) (hc : c ∉ marks) :
    ∃ front back, parts = front ++ Stretch.kept [c] :: back ∧ sources front = a ∧ sources back = b ∧
      Threaded none front ∧ Threaded none back := by
  obtain ⟨front, back, rfl, rfl, rfl⟩ := h.exists_cut ht hc
  obtain ⟨hfront, hback⟩ := h.append
  rw [ha] at hback
  cases hback with
  | kept hback =>
    rw [next_none_of_not_isQuote hquote] at hback
    exact ⟨front, back, rfl, rfl, rfl, hfront, hback⟩

theorem Threaded.filter_isListMark (h : Threaded none parts) :
    (mask (results parts)).filter isListMark = (mask (sources parts)).filter isListMark := by
  have hmarks {c : Char} (hmark : isListMark c) : isFill c = false ∧ isQuote c = false := by
    have hall : ∀ x ∈ ['(', ')', ','], isFill x = false ∧ isQuote x = false := by decide
    refine hall c ?_
    simpa [isListMark, or_assoc] using hmark
  refine h.filter_mask (fun c hc => ?_) fun c hc => ?_
  · by_contra hmark
    simp [(hmarks (by simpa using hmark)).1] at hc
  · by_contra hmark
    simp [(hmarks (by simpa using hmark)).2] at hc

theorem Threaded.level?_results (h : Threaded none parts) (d : Nat) :
    level? d (mask (results parts)) = level? d (mask (sources parts)) := by
  rw [← level?_filter, h.filter_isListMark, level?_filter]

end Placeholder.Stretch

namespace Insertion

open Placeholder Stretch in
/-- Behind the verb, a row is read in the bound text where one is read in the template. -/
theorem ReadsRow.results (hthreaded : Threaded none (kept [c] :: rest)) (hc : isQuote c = false)
    (hplain : c ∉ ['%', '?']) (hn : AtFirst c n)
    (h : ReadsRow (c :: (sources rest ++ ['(', ')'])) n (sources (kept [c] :: rest)).size) :
    (∃ d back, rest = kept [d] :: back) ∧ ReadsRow (c :: (results rest ++ ['(', ')'])) n
        (results (kept [c] :: rest)).size := by
  rcases h.exists_columns (a := sources (kept [c] :: rest)) hc hplain hn rfl with
    ⟨hlength, hall⟩ | ⟨y, cl, q, ha, hyne, hyplain, hqplain, hy, hcl, hlevel, hexchange⟩
  · have hkeeps :=
      hthreaded.eq_keeps (fun hmem => hall _ hmem (by decide)) fun hmem => hall _ hmem (by decide)
    obtain ⟨-, hrest⟩ := cons.inj hkeeps
    have hne : sources rest ≠ [] := by
      intro hnil
      rw [sources_cons, hnil] at hlength
      exact absurd hlength (Nat.lt_irrefl 1)
    obtain ⟨d, w, hw⟩ := exists_cons_of_ne_nil hne
    replace hrest : rest = kept [d] :: keeps w := by
      rw [← keeps_cons, ← hw]
      exact hrest
    subst hrest
    refine ⟨⟨d, keeps w, rfl⟩, ?_⟩
    simpa [source, result] using h
  · obtain ⟨front, back, hparts, rfl, hback, hfront, hbackT⟩ :=
      hthreaded.exists_code_cut ha hy (by decide) (by decide)
    obtain ⟨columns, back, rfl, rfl, rfl, hcolumns, hbackT⟩ :=
      hbackT.exists_code_cut hback hcl (by decide) (by decide)
    have hkeep {ps : List Stretch} (hps : Threaded none ps) (hplain : ∀ x ∈ sources ps,
      x ∉ ['%', '?']) :
        ps = keeps (sources ps) :=
      hps.eq_keeps (fun hmem => hplain _ hmem (by decide)) fun hmem => hplain _ hmem (by decide)
    have hread := hexchange (Stretch.results columns) (hcolumns.closed_results hcl)
      (by rw [hcolumns.level?_results, hlevel])
    -- the two sides of the column list are kept
    rw [hkeep hfront hyplain, hkeep hbackT hqplain] at hparts
    generalize sources front = y at hparts hread hyne
    generalize sources back = q at hparts hread
    obtain ⟨x, y, rfl⟩ := exists_cons_of_ne_nil hyne
    rw [keeps_cons, cons_append] at hparts
    obtain ⟨hx, rfl⟩ := cons.inj hparts
    obtain rfl : c = x := by simpa using hx
    refine ⟨?_, by simpa [source, result] using hread⟩
    cases y with
    | nil => exact ⟨_, _, rfl⟩
    | cons d y => exact ⟨d, _, rfl⟩

end Insertion

namespace Placeholder.Stretch

theorem Threaded.concat {s : Option Char} {a b : List Stretch} (ha : Threaded s a)
    (hb : Threaded (state s (sources a)) b) : Threaded s (a ++ b) := by
  induction ha with
  | nil => exact hb
  | @kept s c rest h ih => exact .kept (ih hb)
  | @filled s p param src rest hspells hquote hopened hstate htakes h ih =>
    refine .filled hspells hquote hopened hstate htakes (ih ?_)
    rw [sources_cons, state_append] at hb
    rwa [source, hstate] at hb

theorem threaded_keeps (s : Option Char) (t : Text) : Threaded s (keeps t) := by
  induction t generalizing s with
  | nil => exact .nil s
  | cons c t ih => exact .kept (ih _)

/-- Whether a placeholder stands in front of INTO is seen in front of the next parenthesis. -/
theorem Parted.exchange (h : Parted (pa ++ kept ['('] :: rest)) (t : Text) :
    Parted (pa ++ kept ['('] :: keeps t) := by
  intro front p param src back hparts hinline hparen
  have hmem : filled p (some param) src ∉ keeps ('(' :: t) := by
    simp [keeps]
  rcases append_eq_append_iff.1 hparts with ⟨back', -, hback⟩ | ⟨back', hback, hrest⟩
  · refine absurd ?_ hmem
    rw [keeps_cons, hback]
    simp
  · cases back' with
    | nil => cases hrest
    | cons x back' =>
      obtain ⟨rfl, rfl⟩ := cons.inj hrest
      have hnot :=
        h front p param src (back' ++ kept ['('] :: rest) (by rw [hback]; simp) hinline hparen
      have hinto : Wordly ("INTO" : Text) := by unfold Wordly; decide
      rw [sources_append] at hnot
      rw [← hnot]
      show startsWith (sources (back' ++ kept ['('] :: keeps t)) _ = _
      rw [sources_append]
      exact startsWith_append hinto _

end Placeholder.Stretch

namespace Insertion

theorem listed_empty : Listed [⟨[], [⟨[], [], []⟩]⟩] := by
  have hempty : (⟨[], [], []⟩ : Item).Proper :=
    ⟨by simp, by simp, ⟨rfl, rfl, trivial, by simp, by simp⟩, fun _ => rfl⟩
  refine ⟨?_, by simp [Behind]⟩
  rintro r ⟨⟩
  exact ⟨⟨by simp, by simpa using hempty⟩, rfl⟩

/-- Behind a front rows are read if one empty row is. -/
theorem exists_opens_iff : (∃ table columns, Opens a table columns) ↔
    ∃ i stop, ofText? (a ++ ['(', ')']) = some i ∧ i.groups = [⟨a.size, stop⟩] := by
  constructor
  · rintro ⟨table, columns, h⟩
    exact ⟨_, _, h [⟨[], [⟨[], [], []⟩]⟩] [] (by simp) listed_empty rfl, rfl⟩
  · rintro ⟨i, stop, hi, hgroups⟩
    obtain ⟨a', rows, tail, ha, -, hne, hlisted, -, hat, hopens⟩ :=
      exists_rows hi (by simp [hgroups])
    obtain ⟨r, rows, rfl⟩ := exists_cons_of_ne_nil hne
    obtain ⟨-, hlead⟩ := hlisted.first r rfl
    rw [hat, groupsAt, hlead] at hgroups
    have hstart := congrArg Span.start (cons.inj hgroups).1
    obtain rfl := (append_inj_of_size ha hstart.symm).1
    exact ⟨_, _, hopens⟩

open Placeholder Stretch in
/-- Rows are read behind the front of the bound text as they are behind that of the template. -/
theorem Opens.results (hpa : Threaded none pa) (hclosed : Closed (sources pa))
    (hparted : Parted (pa ++ kept ['('] :: rest)) {columns : List Text}
    (h : Opens (sources pa) table columns) :
    ∃ table' columns', Opens (results pa) table' columns' := by
  -- the front with one empty row behind it
  have hthreaded : Threaded none (pa ++ keeps ['(', ')']) :=
    hpa.concat (by rw [hclosed]; exact threaded_keeps none _)
  have hparted : Parted (pa ++ keeps ['(', ')']) := hparted.exchange [')']
  obtain ⟨i, stop, hi, hgroups⟩ := exists_opens_iff.1 ⟨_, _, h⟩
  have hsources : sources (pa ++ keeps ['(', ')']) = sources pa ++ ['(', ')'] := by simp
  have hresults :
      Stretch.results (pa ++ Stretch.keeps ['(', ')']) = Stretch.results pa ++ ['(', ')'] := by simp
  obtain ⟨hkind, v, n, m, k, hv, htable, hcolumns, hvalues, hrow, -⟩ :=
    (ofText?_eq_some (by simp [hgroups])).1 hi
  have hlt : v < (sources pa).size := by
    rw [hgroups] at hrow
    obtain ⟨lead, _, _, -, -, -, hg, -⟩ := exists_of_groupsFrom?_group hrow
    have hstart : (sources pa).size = k + lead.size := congrArg Span.start hg
    have h₁ := le_of_tableName? htable
    have h₂ := le_of_columns? hcolumns
    have h₃ := (valuesEnd?_eq_some hvalues).2.1
    omega
  have hmem : '(' ∈ mask (sources (pa ++ keeps ['(', ')'])) := by
    rw [hsources, mask_append_cons hclosed (by decide)]
    simp
  rw [← hsources] at hv
  obtain ⟨front, c, back, j, hparts, hfront, hc, hplain, hj, rfl, hend⟩ :=
    hthreaded.exists_verb hparted hmem hv
  -- the verb ends in the front
  obtain ⟨rest, rfl, rfl⟩ :
      ∃ rest, pa = front ++ kept [c] :: rest ∧ back = rest ++ keeps ['(', ')'] := by
    rcases append_eq_append_iff.1 hparts with ⟨y, rfl, hy⟩ | ⟨y, rfl, hy⟩
    · simp only [sources_append, size_append] at hlt
      omega
    · cases y with
      | nil =>
        simp only [append_nil] at hlt
        omega
      | cons x y =>
        obtain ⟨rfl, rfl⟩ := cons.inj hy
        exact ⟨y, rfl, rfl⟩
  obtain ⟨hfrontT, hrest⟩ := hpa.append
  rw [hfront] at hrest
  have hsize {f g : List Stretch} :
      (sources (f ++ g)).size = (sources f).size + (sources g).size := by
    rw [sources_append, size_append]
  have hparts : sources (front ++ kept [c] :: rest) ++ ['(', ')']
      = sources front ++ c :: (sources rest ++ ['(', ')']) := by simp [source]
  have hread :
      ReadsRow (c :: (sources rest ++ ['(', ')'])) j (sources (kept [c] :: rest)).size := by
    refine (readsRow_iff hfront hc hplain hj (by rwa [← hparts]) ?_).2
      ⟨i, stop, by rwa [← hparts], ?_⟩
    · rwa [hsources, hparts] at hv
    · rw [hgroups, hsize]
  obtain ⟨⟨d, back, hback⟩, hread'⟩ := hread.results hrest hc hplain hj
  have hv' := hend ⟨d, back ++ keeps ['(', ')'], by rw [hback]; rfl⟩
  have hparts' : results (front ++ kept [c] :: rest) ++ ['(', ')']
      = results front ++ c :: (results rest ++ ['(', ')']) := by simp [result]
  have hkind' : Kind.ofText (results (front ++ kept [c] :: rest) ++ ['(', ')']) = .insert := by
    obtain ⟨w, r, hw, hunmarked, hverb⟩ := Kind.exists_verb hkind (by decide)
    obtain ⟨back, hback, -⟩ := hthreaded.exists_keeps (hsources.trans hw) hunmarked.not_mem
    rw [← hresults, hback, results_append, results_keeps]
    exact hverb _
  obtain ⟨i', stop', hi', hgroups'⟩ := (readsRow_iff (hfrontT.closed_results hfront) hc hplain hj
    (by rwa [← hparts']) (by rwa [hresults, hparts'] at hv')).1 hread'
  exact exists_opens_iff.2 ⟨i', stop', by rw [hparts', hi'], by
    rw [hgroups', results_append, size_append]⟩

end Insertion

end Recast
