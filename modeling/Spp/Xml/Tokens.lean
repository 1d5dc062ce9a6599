import Spp.Xml.Document

/-!
# What the scanner finds in a document

One rule for each kind of token and node: where the document goes on with it, the scanner
passes exactly it.

## Main results

* `xFindToken_name`, `xFindToken_special`, `xFindToken_string` — the tokens.
* `startTag_renderFiller`, `startTag_open`, `startTag_close` — the search for a start tag.
* `endTag_eq` — an end tag.
-/

namespace Spp.Xml

open Scan

variable {szDoc a t : List Char} {n : ℕ} {c : Char}

/-! ## Tokens -/

theorem peek_eq (h : Lies szDoc n (c :: t)) : peek szDoc n = c := h.getD _

theorem isNul_peek_nil (h : Lies szDoc n []) : isNul (peek szDoc n) := by
  rw [peek, h.getD_nil]
  rfl

theorem xFindChar_eq (h : Lies szDoc n (a ++ c :: t)) (ha : ∀ x ∈ a, ¬isNul x ∧ x ≠ c)
    (hc : ¬isNul c) : xFindChar szDoc n c = (n + a.length, true) := by
  have hskip : skipWhile (fun x => !isNul x && x != c) szDoc n = n + a.length := by
    refine skipWhile_eq h ?_ ?_
    · intro x hx
      simpa using ha x hx
    · intro x hx
      obtain rfl := Option.some.inj hx
      simp
  rw [xFindChar, hskip, peek_eq h.append]
  simpa using hc

section
variable (sp : Space)

theorem Space.skipWhile_eq (h : Lies szDoc n (sp.chars ++ c :: t)) (hc : ¬isSpace c) :
    skipWhile isSpace szDoc n = n + sp.chars.length := by
  refine Scan.skipWhile_eq h sp.space ?_
  intro x hx
  obtain rfl := Option.some.inj hx
  exact hc

/-- A name ends where a special character is. -/
theorem xFindToken_name {name : Name} (h : Lies szDoc n (sp.chars ++ (name.chars ++ c :: t)))
    (hc : isSpecial c) :
    xFindToken szDoc n =
      (⟨n + sp.chars.length, n + sp.chars.length + name.chars.length - 1,
        n + sp.chars.length + name.chars.length, false⟩, true) := by
  have hhead : name.head ∈ name.chars := List.mem_cons_self
  have hfirst : skipWhile isSpace szDoc n = n + sp.chars.length :=
    Space.skipWhile_eq sp h (name.not_isSpace hhead)
  have hpeek : peek szDoc (n + sp.chars.length) = name.head := peek_eq h.append
  have hname : skipWhile (fun x => !isNul x && !isSpecial x) szDoc (n + sp.chars.length) =
      n + sp.chars.length + name.chars.length := by
    refine Scan.skipWhile_eq h.append ?_ ?_
    · intro x hx
      have hnul := name.nul x hx
      have hspecial := name.special x hx
      simp [hnul, hspecial]
    · intro x hx
      obtain rfl := Option.some.inj hx
      simp [hc]
  have hne : n + sp.chars.length + name.chars.length ≠ n + sp.chars.length := by
    have hpos : 0 < name.chars.length := List.length_pos_of_mem hhead
    omega
  have hnul := name.nul name.head hhead
  rw [xFindToken, hfirst, hpeek, if_neg hnul, if_neg name.quote, hname]
  simp only [if_neg hne]

/-- A special character is a token of its own. -/
theorem xFindToken_special (h : Lies szDoc n (sp.chars ++ c :: t)) (hc : isSpecial c)
    (hspace : ¬isSpace c) :
    xFindToken szDoc n =
      (⟨n + sp.chars.length, n + sp.chars.length, n + sp.chars.length + 1, false⟩, true) := by
  have hpeek : peek szDoc (n + sp.chars.length) = c := peek_eq h.append
  have hkind : ¬isNul c ∧ ¬isQuote c := by
    rw [isSpecial, Bool.or_eq_true_iff, or_iff_right hspace] at hc
    simp only [List.mem_cons, List.not_mem_nil, or_false, decide_eq_true_eq] at hc
    rcases hc with rfl | rfl | rfl | rfl | rfl | rfl | rfl <;> decide
  have hstay : skipWhile (fun x => !isNul x && !isSpecial x) szDoc (n + sp.chars.length) =
      n + sp.chars.length := by
    have hlies : Lies szDoc (n + sp.chars.length) ([] ++ c :: t) := h.append
    rw [Scan.skipWhile_eq hlies (by simp) (by simpa using fun _ => hc), List.length_nil,
      Nat.add_zero]
  rw [xFindToken, Space.skipWhile_eq sp h hspace, hpeek, if_neg hkind.1, if_neg hkind.2, hstay]
  simp only [if_true]
  rw [Nat.add_sub_cancel]

/-- A string ends where its quote is again. -/
theorem xFindToken_string {raw : List Char} (h : Lies szDoc n (sp.chars ++ c :: (raw ++ c :: t)))
    (hc : isQuote c) (hraw : ∀ x ∈ raw, ¬isNul x ∧ x ≠ c) :
    xFindToken szDoc n =
      (⟨n + sp.chars.length + 1, n + sp.chars.length + 1 + raw.length - 1,
        n + sp.chars.length + 1 + raw.length + 1, true⟩, true) := by
  have hkind := not_isSpace_of_isQuote hc
  have hpeek : peek szDoc (n + sp.chars.length) = c := peek_eq h.append
  have hclose := xFindChar_eq h.append.cons hraw hkind.2
  rw [xFindToken, Space.skipWhile_eq sp h hkind.1, hpeek, if_neg hkind.2, if_pos hc, hclose]
  rfl

end

/-- The text of a token that is a name. -/
theorem xGetToken_name {name : Name} {e : ℕ} {b : Bool} (h : Lies szDoc n (name.chars ++ t)) :
    xGetToken szDoc ⟨n, n + name.chars.length - 1, e, b⟩ = name.chars := by
  have hpos : 0 < name.chars.length := List.length_pos_of_mem List.mem_cons_self
  have hlen := h.length
  rw [List.length_append] at hlen
  have hcount : n + name.chars.length - 1 - n + 1 = name.chars.length := by omega
  rw [xGetToken, if_neg (by dsimp only; omega), if_pos (by dsimp only; omega)]
  dsimp only
  rw [hcount, h.take]

theorem matches_name {name : Name} {szName : List Char} {e : ℕ} {b : Bool}
    (h : Lies szDoc n (name.chars ++ t)) :
    TokenPos.matches ⟨n, n + name.chars.length - 1, e, b⟩ szDoc szName =
      (decide (name.chars = szName.take name.chars.length) &&
        (isNul (peek szName name.chars.length) ||
          peek szName name.chars.length ∈ [' ', '=', '/', '['])) := by
  have hpos : 0 < name.chars.length := List.length_pos_of_mem List.mem_cons_self
  have hcount : n + name.chars.length - 1 + 1 - n = name.chars.length := by omega
  rw [TokenPos.matches]
  dsimp only
  rw [hcount, h.take]

theorem matches_self {name : Name} {e : ℕ} {b : Bool} (h : Lies szDoc n (name.chars ++ t)) :
    TokenPos.matches ⟨n, n + name.chars.length - 1, e, b⟩ szDoc name.chars := by
  have hend : Lies name.chars name.chars.length [] := ⟨le_rfl, List.drop_length⟩
  rw [matches_name h, isNul_peek_nil hend, List.take_length]
  simp

/-! ## Tags -/

/-- What ends a start tag: with a slash if the element is empty. -/
def slash (empty : Bool) : List Char := if empty then ['/'] else []

theorem mem_renderTag {name : Name} {attrs : List Attr} {sp : Space}
    (hc : c ∈ renderTag name attrs sp) : ¬isNul c ∧ c ≠ '>' := by
  have hspace : ∀ sp : Space, c ∈ sp.chars → ¬isNul c ∧ c ≠ '>' := by
    intro sp hc
    refine ⟨not_isNul_of_isSpace (sp.space c hc), ?_⟩
    rintro rfl
    exact absurd (sp.space _ hc) (by decide)
  have hname : ∀ name : Name, c ∈ name.chars → ¬isNul c ∧ c ≠ '>' :=
    fun name hc => ⟨name.nul c hc, name.ne_of_isSpecial hc (by decide)⟩
  rw [renderTag, List.mem_append, List.mem_append, renderAttrs, List.mem_flatMap] at hc
  rcases hc with hc | ⟨a, -, hc⟩ | hc
  · exact hname name hc
  · have hquote : ∀ c, isQuote c → ¬isNul c ∧ c ≠ '>' := by
      intro c hc
      refine ⟨(not_isSpace_of_isQuote hc).2, ?_⟩
      rintro rfl
      exact absurd hc (by decide)
    simp only [Attr.render, List.mem_append, List.mem_cons, List.not_mem_nil, or_false] at hc
    rcases hc with hc | hc | hc | rfl | hc | rfl | hc | rfl
    · exact hspace _ hc
    · exact hname _ hc
    · exact hspace _ hc
    · decide
    · exact hspace _ hc
    · exact hquote _ a.isQuote_quote
    · exact ⟨a.nul c hc, a.bracket c hc⟩
    · exact hquote _ a.isQuote_quote
  · exact hspace sp hc

/-- In front of the right angle bracket there is a slash only in an empty element. -/
theorem renderTag_eq_snoc (name : Name) (attrs : List Attr) (sp : Space) :
    ∃ a c, renderTag name attrs sp = a ++ [c] ∧ c ≠ '/' := by
  rcases List.eq_nil_or_concat' sp.chars with hsp | ⟨a, c, hsp⟩
  · rcases List.eq_nil_or_concat' attrs with hattrs | ⟨as, b, hattrs⟩
    · have hne : name.chars ≠ [] := by simp [Name.chars]
      obtain ⟨a, c, hname⟩ := (List.eq_nil_or_concat' name.chars).resolve_left hne
      refine ⟨a, c, by simp [renderTag, hsp, hattrs, renderAttrs, hname], ?_⟩
      exact name.ne_of_isSpecial (by simp [hname]) (by decide)
    · refine ⟨name.chars ++ (renderAttrs as ++ (b.lead.chars ++ (b.name.chars ++ (b.before.chars ++
        '=' :: (b.after.chars ++ b.quote :: b.raw))))), b.quote, ?_, ?_⟩
      · simp [renderTag, hsp, hattrs, renderAttrs, Attr.render]
      · intro hslash
        have hquote := b.isQuote_quote
        rw [hslash] at hquote
        exact absurd hquote (by decide)
  · refine ⟨name.chars ++ (renderAttrs attrs ++ a), c, by simp [renderTag, hsp], ?_⟩
    rintro rfl
    exact absurd (sp.space '/' (by simp [hsp])) (by decide)

/-- Behind its name, a tag goes on with a special character. -/
theorem exists_special (attrs : List Attr) (sp : Space) (b : Bool) (t : List Char) :
    ∃ c t', renderAttrs attrs ++ (sp.chars ++ (slash b ++ '>' :: t)) = c :: t' ∧ isSpecial c := by
  cases attrs with
  | cons a attrs => exact ⟨a.gap, _, rfl, isSpecial_of_isSpace a.isSpace_gap⟩
  | nil =>
      cases hsp : sp.chars with
      | cons c cs =>
          refine ⟨c, _, rfl, isSpecial_of_isSpace (sp.space c ?_)⟩
          rw [hsp]
          exact List.mem_cons_self
      | nil =>
          cases b with
          | false => exact ⟨'>', _, rfl, by decide⟩
          | true => exact ⟨'/', _, rfl, by decide⟩

/-- The empty white space. -/
def noSpace : Space := ⟨[], by simp⟩

section
variable {fuel : ℕ}

theorem startTag_open {name : Name} {attrs : List Attr} {sp : Space} {b : Bool}
    (ha : ∀ x ∈ a, ¬isNul x ∧ x ≠ '<')
    (h : Lies szDoc n (a ++ '<' :: (renderTag name attrs sp ++ (slash b ++ '>' :: t)))) :
    startTag szDoc (fuel + 1) n =
      some (.found (n + a.length) name.chars
        (n + a.length + 1 + (renderTag name attrs sp ++ slash b).length)) := by
  have hfind := xFindChar_eq h ha (by decide)
  obtain ⟨c, t', hrest, hspecial⟩ := exists_special attrs sp b t
  have hname : Lies szDoc (n + a.length + 1) (name.chars ++ c :: t') := by
    rw [← hrest]
    have hcons := h.append.cons
    rw [renderTag, List.append_assoc, List.append_assoc] at hcons
    exact hcons
  have htoken := xFindToken_name noSpace hname hspecial
  have hhead : name.head ∈ name.chars := List.mem_cons_self
  have hfirst : peek szDoc (n + a.length + 1) = name.head := peek_eq hname
  have hbang : ¬(name.head = '?' ∨ name.head = '!') := by
    rintro (heq | heq)
    · exact name.ne_of_isSpecial hhead (by decide) heq
    · exact name.ne_of_isSpecial hhead (by decide) heq
  have hslash : name.head ≠ '/' := name.ne_of_isSpecial hhead (by decide)
  have hend : xFindChar szDoc (n + a.length + 1 + name.chars.length) '>' =
      (n + a.length + 1 + (renderTag name attrs sp ++ slash b).length, true) := by
    have htail : Lies szDoc (n + a.length + 1 + name.chars.length)
        ((renderAttrs attrs ++ sp.chars ++ slash b) ++ '>' :: t) := by
      have hcons := h.append.cons
      rw [renderTag, List.append_assoc] at hcons
      simpa using hcons.append
    have hinner : ∀ x ∈ renderAttrs attrs ++ sp.chars ++ slash b, ¬isNul x ∧ x ≠ '>' := by
      intro x hx
      rw [List.mem_append] at hx
      rcases hx with hx | hx
      · have hmem : x ∈ renderTag name attrs sp := List.mem_append_right _ hx
        exact mem_renderTag hmem
      · cases b with
        | false => simp [slash] at hx
        | true =>
            obtain rfl := List.mem_singleton.mp hx
            decide
    rw [xFindChar_eq htail hinner (by decide)]
    simp only [renderTag, List.length_append]
    simp only [Nat.add_assoc]
  have hne : name.chars ≠ [] := by simp [Name.chars]
  rw [startTag, hfind]
  dsimp only
  rw [htoken]
  dsimp only [noSpace, List.length_nil]
  rw [Nat.add_zero, hfirst, if_neg (by decide), if_neg hbang, if_pos hslash, hend]
  dsimp only
  rw [xGetToken_name hname, if_neg hne]

/-- At an end tag, the search gives up. -/
theorem startTag_close (ha : ∀ x ∈ a, ¬isNul x ∧ x ≠ '<')
    (h : Lies szDoc n (a ++ '<' :: '/' :: t)) :
    startTag szDoc (fuel + 1) n = some (.release (n + a.length)) := by
  have htoken := xFindToken_special noSpace h.append.cons (by decide) (by decide)
  have hfirst : peek szDoc (n + a.length + 1) = '/' := peek_eq h.append.cons
  rw [startTag, xFindChar_eq h ha (by decide)]
  dsimp only
  rw [htoken]
  dsimp only [noSpace, List.length_nil]
  rw [Nat.add_zero, hfirst, if_neg (by decide), if_neg (by decide), if_neg (by decide)]

/-- A comment, a declaration or the like is a node that its closing pattern ends. -/
theorem xParseNode_eq (fuel : ℕ) {kind : MiscKind} {cs : List Char} (hcs : ∀ c ∈ cs, ¬isNul c)
    (hcloses : Closes kind.closing (kind.opening ++ cs))
    (h : Lies szDoc n (kind.opening ++ cs ++ kind.closing ++ t)) :
    xParseNode szDoc fuel n = some (some (n + (kind.opening ++ cs ++ kind.closing).length)) := by
  have hclosed : closedBy szDoc n kind.closing =
      some (n + (kind.opening ++ cs ++ kind.closing).length) := by
    have hne : kind.closing ≠ [] := by cases kind <;> simp [MiscKind.closing]
    rw [closedBy, h.drop, find_eq hne hcloses, Option.map_some]
    simp only [List.length_append, Nat.add_assoc]
  rw [List.append_assoc, List.append_assoc] at h
  cases kind with
  | instruction =>
      have hsecond : ¬isNul (peek szDoc (n + 2)) := by
        cases cs with
        | nil =>
            rw [peek_eq (c := '?') h.cons.cons]
            decide
        | cons c cs =>
            rw [peek_eq (c := c) h.cons.cons]
            exact hcs c List.mem_cons_self
      have hfirst : peek szDoc (n + 1) = '?' := peek_eq h.cons
      rw [xParseNode, hfirst]
      have hmark : isNul '?' = false := by decide
      simp only [if_pos, hsecond, hmark, Bool.or_self, Bool.false_eq_true, if_false]
      exact congrArg some hclosed
  | comment =>
      have hfirst : peek szDoc (n + 1) = '!' := peek_eq h.cons
      have hsecond : peek szDoc (n + 2) = '-' := peek_eq h.cons.cons
      rw [xParseNode, hfirst, hsecond]
      exact congrArg some hclosed
  | cdata =>
      have hfirst : peek szDoc (n + 1) = '!' := peek_eq h.cons
      have hsecond : peek szDoc (n + 2) = '[' := peek_eq h.cons.cons
      rw [xParseNode, hfirst, hsecond]
      exact congrArg some hclosed

/-- One turn of the search passes a node. -/
theorem startTag_node (fuel : ℕ) {kind : MiscKind} {cs : List Char} (hcs : ∀ c ∈ cs, ¬isNul c)
    (hcloses : Closes kind.closing (kind.opening ++ cs)) (ha : ∀ x ∈ a, ¬isNul x ∧ x ≠ '<')
    (h : Lies szDoc n (a ++ (kind.opening ++ cs ++ kind.closing ++ t))) :
    startTag szDoc (fuel + 1) n =
      startTag szDoc fuel (n + a.length + (kind.opening ++ cs ++ kind.closing).length) := by
  obtain ⟨c, cs', hopening, hc⟩ :
      ∃ c cs', kind.opening = '<' :: c :: cs' ∧ (c = '?' ∨ c = '!') := by
    cases kind with
    | instruction => exact ⟨'?', [], rfl, .inl rfl⟩
    | comment => exact ⟨'!', ['-'], rfl, .inr rfl⟩
    | cdata => exact ⟨'!', ['['], rfl, .inr rfl⟩
  have hspecial : isSpecial c ∧ ¬isSpace c := by
    rcases hc with rfl | rfl <;> decide
  have hnode := xParseNode_eq fuel hcs hcloses h.append
  rw [hopening] at h
  have hnext : Lies szDoc (n + a.length + 1) (c :: (cs' ++ cs ++ kind.closing ++ t)) := by
    simpa using h.append.cons
  have htoken := xFindToken_special noSpace hnext hspecial.1 hspecial.2
  have hfirst : peek szDoc (n + a.length + 1) = c := peek_eq hnext
  have hfind : xFindChar szDoc n '<' = (n + a.length, true) :=
    xFindChar_eq (t := c :: (cs' ++ cs ++ kind.closing ++ t)) (by simpa using h) ha (by decide)
  rw [startTag, hfind]
  dsimp only
  rw [htoken]
  dsimp only [noSpace, List.length_nil]
  rw [Nat.add_zero, hfirst, if_neg (by decide), if_pos hc, hnode]

/-- The search passes all that lies between elements. -/
theorem startTag_renderFiller (filler : List Misc) {k : ℕ}
    (hfuel : (renderFiller filler).length + k ≤ fuel) (ha : ∀ x ∈ a, ¬isNul x ∧ x ≠ '<')
    (h : Lies szDoc n (a ++ (renderFiller filler ++ t))) :
    ∃ fuel' m a', k ≤ fuel' ∧ startTag szDoc fuel n = startTag szDoc fuel' m ∧
      (∀ x ∈ a', ¬isNul x ∧ x ≠ '<') ∧ Lies szDoc m (a' ++ t) ∧
      m + a'.length = n + a.length + (renderFiller filler).length := by
  induction filler generalizing fuel n a with
  | nil => exact ⟨fuel, n, a, by omega, rfl, ha, h, rfl⟩
  | cons misc filler ih =>
      have hrender : renderFiller (misc :: filler) = misc.render ++ renderFiller filler := rfl
      rw [hrender, List.append_assoc] at h
      rw [hrender, List.length_append] at hfuel
      rw [hrender, List.length_append]
      cases misc with
      | text cs hnul hbracket =>
          have hboth : ∀ x ∈ a ++ cs, ¬isNul x ∧ x ≠ '<' := by
            intro x hx
            rcases List.mem_append.mp hx with hx | hx
            · exact ha x hx
            · exact ⟨hnul x hx, hbracket x hx⟩
          have hlies : Lies szDoc n (a ++ cs ++ (renderFiller filler ++ t)) := by
            rwa [List.append_assoc]
          have hless : (renderFiller filler).length + k ≤ fuel := by omega
          obtain ⟨fuel', m, a', hk, heq, ha', hm, hlen⟩ := ih hless hboth hlies
          refine ⟨fuel', m, a', hk, heq, ha', hm, ?_⟩
          rw [hlen, List.length_append, Misc.render]
          omega
      | node kind cs hnul hcloses =>
          have hpos : 0 < (Misc.node kind cs hnul hcloses).render.length := by
            cases kind <;> simp [Misc.render, MiscKind.opening]
          obtain ⟨fuel, rfl⟩ : ∃ fuel₀, fuel = fuel₀ + 1 := ⟨fuel - 1, by omega⟩
          have hnext := startTag_node fuel hnul hcloses ha h
          have hlies : Lies szDoc (n + a.length + (Misc.node kind cs hnul hcloses).render.length)
              ([] ++ (renderFiller filler ++ t)) := h.append.append
          have hless : (renderFiller filler).length + k ≤ fuel := by omega
          obtain ⟨fuel', m, a', hk, heq, ha', hm, hlen⟩ := ih hless (by simp) hlies
          refine ⟨fuel', m, a', hk, hnext.trans heq, ha', hm, ?_⟩
          rw [hlen, List.length_nil]
          omega

/-- The tokens of an end tag. -/
theorem endTag_eq {name : Name} {sp : Space} (hfuel : 3 ≤ fuel)
    (h : Lies szDoc n ('/' :: (name.chars ++ (sp.chars ++ '>' :: t)))) :
    endTag szDoc name.chars fuel n 0 =
      some (.ok (n + 1 + name.chars.length + sp.chars.length)) := by
  obtain ⟨fuel, rfl⟩ : ∃ fuel₀, fuel = fuel₀ + 3 := ⟨fuel - 3, by omega⟩
  have hslash := xFindToken_special noSpace h (by decide) (by decide)
  obtain ⟨c, t', hrest, hspecial⟩ := exists_special [] sp false t
  have hname : Lies szDoc (n + 1) (name.chars ++ c :: t') := by
    rw [← hrest]
    exact h.cons
  have hsecond := xFindToken_name noSpace hname hspecial
  have hthird := xFindToken_special sp h.cons.append (by decide) (by decide)
  have hfirst : peek szDoc n = '/' := peek_eq h
  have hhead : peek szDoc (n + 1) ≠ '>' := by
    rw [peek_eq (c := name.head) hname]
    exact name.ne_of_isSpecial List.mem_cons_self (by decide)
  have hend : peek szDoc (n + 1 + name.chars.length + sp.chars.length) = '>' :=
    peek_eq h.cons.append.append
  have hself := matches_self (e := n + 1 + name.chars.length) (b := false) hname
  dsimp only [noSpace, List.length_nil] at hslash hsecond
  rw [Nat.add_zero] at hslash hsecond
  rw [endTag, hslash]
  dsimp only
  rw [if_neg (by decide), hfirst, if_neg (by simp), if_neg (by simp), if_neg (by decide), endTag,
    hsecond]
  dsimp only
  rw [if_neg (by decide), if_neg (by simp), if_neg fun hsecond => hsecond.2 hself, if_neg hhead,
    endTag, hthird]
  dsimp only
  rw [if_neg (by decide), hend, if_neg (by simp), if_neg (by simp), if_pos rfl, if_neg (by simp)]

end

end Spp.Xml
