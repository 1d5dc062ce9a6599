import Mathlib.Data.List.GetD
import Spp.Xml.Parse

/-!
# Reading a configuration

The calls of `CMarkupSTL` on a document move a cursor about in the tree that the document is,
and answer with what is in the tree there.

## Main results

* `xFindAttrib_eq` — the search for an attribute in a start tag.
* `findPath_eq` — the search for an element.
* `reads_tree` — a reader of the text answers like one of the tree.
-/

namespace Spp.Xml

open Scan Forest

variable {szDoc t : List Char} {n fuel : ℕ}

/-! ## Names -/

theorem Key.nul_or_plain (k : Key) {c : Char} (hc : c ∈ k.chars) :
    ¬(isNul c || c ∈ [' ', '=', '/', '[']) := by
  have hnul := k.nul c hc
  have hplain := k.plain c hc
  simp only [Bool.or_eq_true, decide_eq_true_eq, not_or]
  exact ⟨hnul, hplain⟩

/-- A name matches a key, whatever steps follow in the path. -/
theorem matches_key {name : Name} {e : ℕ} {b : Bool} (k : Key) {rest : List Char}
    (hrest : rest = [] ∨ ∃ r, rest = '/' :: r) (h : Lies szDoc n (name.chars ++ t)) :
    TokenPos.matches ⟨n, n + name.chars.length - 1, e, b⟩ szDoc (k.chars ++ rest) =
      decide (name.chars = k.chars) := by
  rw [matches_name h]
  by_cases heq : name.chars = k.chars
  · have hend : isNul (peek (k.chars ++ rest) k.chars.length) ∨
        peek (k.chars ++ rest) k.chars.length ∈ [' ', '=', '/', '['] := by
      have hlies := (lies_zero (k.chars ++ rest)).append
      rw [Nat.zero_add] at hlies
      rcases hrest with rfl | ⟨r, rfl⟩
      · exact .inl (isNul_peek_nil hlies)
      · rw [peek_eq hlies]
        exact .inr (by decide)
    rw [heq, List.take_left]
    simpa using hend
  · have hfalse : ¬(name.chars = (k.chars ++ rest).take name.chars.length ∧
        (isNul (peek (k.chars ++ rest) name.chars.length) ||
          peek (k.chars ++ rest) name.chars.length ∈ [' ', '=', '/', '['])) := by
      rintro ⟨htake, hend⟩
      rcases Nat.lt_trichotomy name.chars.length k.chars.length with hlt | hlen | hgt
      · -- the key goes on
        have hget : (k.chars ++ rest).getD name.chars.length (Char.ofNat 0) ∈ k.chars := by
          rw [List.getD_append _ _ _ _ hlt, List.getD_eq_getElem _ _ hlt]
          exact List.getElem_mem _
        exact k.nul_or_plain hget hend
      · rw [hlen, List.take_left] at htake
        exact heq htake
      · -- the name goes on with the path
        rcases hrest with rfl | ⟨r, rfl⟩
        · have hlen := congrArg List.length htake
          rw [List.append_nil, List.length_take] at hlen
          omega
        · have hslash : '/' ∈ name.chars := by
            rw [htake, List.mem_take_iff_getElem]
            refine ⟨k.chars.length, ?_, ?_⟩
            · simp only [List.length_append, List.length_cons]
              omega
            · simp
          exact name.special _ hslash (by decide)
    rw [decide_eq_false heq]
    rw [Bool.eq_false_iff]
    intro htrue
    rw [Bool.and_eq_true, decide_eq_true_eq] at htrue
    exact hfalse htrue

/-! ## Attributes -/

/-- The token that a search for an attribute ends with is the value of the attribute. -/
def Answers (szDoc : List Char) : Option Attr → Option TokenPos → Prop
  | none, none => True
  | some a, some token => ∃ n t, 1 ≤ n ∧
      token = ⟨n, n + a.raw.length - 1, n + a.raw.length + 1, true⟩ ∧
      Lies szDoc n (a.raw ++ a.quote :: t)
  | _, _ => False

/-- The tokens of an attribute: its name, the equal sign and its value. -/
structure Tokens (szDoc : List Char) (n : ℕ) (a : Attr) (t : List Char) (p q r : ℕ) : Prop where
  name : xFindToken szDoc n =
    (⟨p, p + a.name.chars.length - 1, p + a.name.chars.length, false⟩, true)
  equal : xFindToken szDoc (p + a.name.chars.length) = (⟨q, q, q + 1, false⟩, true)
  value : xFindToken szDoc (q + 1) = (⟨r, r + a.raw.length - 1, r + a.raw.length + 1, true⟩, true)
  lies_name : ∃ t', Lies szDoc p (a.name.chars ++ t')
  peek_equal : peek szDoc q = '='
  lies_value : 1 ≤ r ∧ Lies szDoc r (a.raw ++ a.quote :: t)
  stop : r + a.raw.length + 1 = n + a.render.length

theorem exists_tokens {a : Attr} (h : Lies szDoc n (a.render ++ t)) :
    ∃ p q r, Tokens szDoc n a t p q r := by
  have hlen : a.render.length = a.lead.chars.length + a.name.chars.length + a.before.chars.length +
      a.after.chars.length + a.raw.length + 3 := by
    simp only [Attr.render, List.length_append, List.length_cons, List.length_nil]
    omega
  simp only [Attr.render, List.append_assoc, List.cons_append, List.nil_append] at h
  obtain ⟨c, t', hrest, hspecial⟩ : ∃ c t', a.before.chars ++ '=' ::
      (a.after.chars ++ a.quote :: (a.raw ++ a.quote :: t)) = c :: t' ∧ isSpecial c := by
    cases hsp : a.before.chars with
    | nil => exact ⟨'=', _, rfl, by decide⟩
    | cons c cs =>
        refine ⟨c, _, rfl, isSpecial_of_isSpace (a.before.space c ?_)⟩
        rw [hsp]
        exact List.mem_cons_self
  have hstring := h.append.append.append.cons
  refine ⟨_, _, _, xFindToken_name a.lead (hrest ▸ h) hspecial,
    xFindToken_special a.before h.append.append (by decide) (by decide),
    xFindToken_string a.after hstring a.isQuote_quote fun x hx => ⟨a.nul x hx, a.closed x hx⟩,
    ⟨_, h.append⟩, peek_eq h.append.append.append, ⟨Nat.le_add_left _ _, hstring.append.cons⟩, ?_⟩
  rw [hlen]
  omega

section
variable {k : Key} {nCount : ℕ}

/-- The search passes an attribute with another name. -/
theorem xFindAttrib_pass {a : Attr} (hcount : nCount ≠ 0) (hk : a.name.chars ≠ k.chars)
    (h : Lies szDoc n (a.render ++ t)) :
    xFindAttrib szDoc k.chars (fuel + 3) n 0 nCount =
      xFindAttrib szDoc k.chars fuel (n + a.render.length) 0 (nCount + 3) := by
  obtain ⟨p, q, r, htokens⟩ := exists_tokens h
  obtain ⟨t', hname⟩ := htokens.lies_name
  have hhead : a.name.head ∈ a.name.chars := List.mem_cons_self
  have hpeek : peek szDoc p = a.name.head := peek_eq hname
  have hend : ¬(a.name.head = '>' ∨ a.name.head = '/') := by
    rintro (heq | heq)
    · exact a.name.ne_of_isSpecial hhead (by decide) heq
    · exact a.name.ne_of_isSpecial hhead (by decide) heq
  have hmatch := matches_key (e := p + a.name.chars.length) (b := false) k (.inl rfl) hname
  rw [List.append_nil, decide_eq_false hk] at hmatch
  rw [xFindAttrib, htokens.name]
  dsimp only
  rw [if_pos (by decide), hpeek, if_neg hend, if_neg (a.name.ne_of_isSpecial hhead (by decide)),
    if_pos ⟨rfl, hcount⟩, if_neg (by simp [Key.chars]), if_neg (by simp [hmatch]), xFindAttrib,
    htokens.equal]
  dsimp only
  rw [if_pos (by decide), htokens.peek_equal, if_neg (by decide), if_pos rfl, xFindAttrib,
    htokens.value]
  dsimp only
  rw [if_neg (by decide), if_neg (by simp), htokens.stop]

/-- The search ends at the value of the attribute with its name. -/
theorem xFindAttrib_found (fuel : ℕ) {a : Attr} (hcount : nCount ≠ 0) (hk : a.name.chars = k.chars)
    (h : Lies szDoc n (a.render ++ t)) :
    ∃ token, xFindAttrib szDoc k.chars (fuel + 3) n 0 nCount = some (some token) ∧
      Answers szDoc (some a) (some token) := by
  obtain ⟨p, q, r, htokens⟩ := exists_tokens h
  obtain ⟨t', hname⟩ := htokens.lies_name
  have hhead : a.name.head ∈ a.name.chars := List.mem_cons_self
  have hpeek : peek szDoc p = a.name.head := peek_eq hname
  have hend : ¬(a.name.head = '>' ∨ a.name.head = '/') := by
    rintro (heq | heq)
    · exact a.name.ne_of_isSpecial hhead (by decide) heq
    · exact a.name.ne_of_isSpecial hhead (by decide) heq
  have hmatch := matches_key (e := p + a.name.chars.length) (b := false) k (.inl rfl) hname
  rw [List.append_nil, decide_eq_true hk] at hmatch
  refine ⟨⟨r, r + a.raw.length - 1, r + a.raw.length + 1, true⟩, ?_,
    r, _, htokens.lies_value.1, rfl, htokens.lies_value.2⟩
  rw [xFindAttrib, htokens.name]
  dsimp only
  rw [if_pos (by decide), hpeek, if_neg hend, if_neg (a.name.ne_of_isSpecial hhead (by decide)),
    if_pos ⟨rfl, hcount⟩, if_neg (by simp [Key.chars]), if_pos hmatch, xFindAttrib, htokens.equal]
  dsimp only
  rw [if_pos (by decide), htokens.peek_equal, if_neg (by decide), if_pos rfl, xFindAttrib,
    htokens.value]
  dsimp only
  rw [if_neg (by decide), if_pos ⟨hcount, rfl⟩]

/-- The search over the attributes of a tag. -/
theorem xFindAttrib_attrs {sp : Space} {b : Bool} (attrs : List Attr)
    (hfuel : 3 * attrs.length < fuel) (hcount : nCount ≠ 0)
    (h : Lies szDoc n (renderAttrs attrs ++ (sp.chars ++ (slash b ++ '>' :: t)))) :
    ∃ r, xFindAttrib szDoc k.chars fuel n 0 nCount = some r ∧
      Answers szDoc (attrs.find? fun a => a.name.chars = k.chars) r := by
  induction attrs generalizing fuel n nCount with
  | nil =>
      obtain ⟨fuel, rfl⟩ : ∃ fuel₀, fuel = fuel₀ + 1 := ⟨fuel - 1, by omega⟩
      obtain ⟨c, t', hrest, hspecial, hspace, hc⟩ : ∃ c t', slash b ++ '>' :: t = c :: t' ∧
          isSpecial c ∧ ¬isSpace c ∧ (c = '>' ∨ c = '/') := by
        cases b with
        | false => exact ⟨'>', _, rfl, by decide, by decide, .inl rfl⟩
        | true => exact ⟨'/', _, rfl, by decide, by decide, .inr rfl⟩
      rw [hrest] at h
      have hlies : Lies szDoc n (sp.chars ++ c :: t') := h
      refine ⟨none, ?_, trivial⟩
      rw [xFindAttrib, xFindToken_special sp hlies hspecial hspace]
      dsimp only
      rw [if_pos (by decide), peek_eq hlies.append, if_pos hc]
  | cons a attrs ih =>
      obtain ⟨fuel, rfl⟩ : ∃ fuel₀, fuel = fuel₀ + 3 := by
        rw [List.length_cons] at hfuel
        exact ⟨fuel - 3, by omega⟩
      have hrender : renderAttrs (a :: attrs) = a.render ++ renderAttrs attrs := rfl
      rw [hrender, List.append_assoc] at h
      by_cases hk : a.name.chars = k.chars
      · obtain ⟨token, hfind, htoken⟩ := xFindAttrib_found fuel hcount hk h
        refine ⟨some token, hfind, ?_⟩
        rw [List.find?_cons_of_pos (by simpa using hk)]
        exact htoken
      · rw [List.find?_cons_of_neg (by simpa using hk), xFindAttrib_pass hcount hk h]
        rw [List.length_cons] at hfuel
        exact ih (by omega) (by omega) h.append

end

theorem length_attrs_le (attrs : List Attr) : 5 * attrs.length ≤ (renderAttrs attrs).length := by
  induction attrs with
  | nil => exact le_rfl
  | cons a attrs ih =>
      have hrender : renderAttrs (a :: attrs) = a.render ++ renderAttrs attrs := rfl
      have hlen : 5 ≤ a.render.length := by
        simp only [Attr.render, Attr.lead, Name.chars, List.length_append, List.length_cons,
          List.length_nil]
        omega
      rw [hrender, List.length_append, List.length_cons]
      omega

theorem label_attrib (name : Name) (attrs : List Attr) (k : Key) :
    (label name attrs).attrib k.chars =
      match attrs.find? fun a => a.name.chars = k.chars with
      | some a => unescapeFrom 0 a.raw
      | none => [] := by
  rw [Label.attrib, label]
  dsimp only
  rw [List.find?_map]
  have hsame : ((fun a => decide (a.1 = k.chars)) ∘ Attr.value) =
      fun a => decide (a.name.chars = k.chars) := rfl
  rw [hsame]
  cases attrs.find? fun a => decide (a.name.chars = k.chars) <;> rfl

variable {aPos : ℕ → ElemPos} {i : ℕ} {l : Label}

/-- The value that is read at a start tag. -/
theorem xFindAttrib_eq (hfuel : szDoc.length < fuel) (k : Key) (h : Shows szDoc aPos i l) :
    ∃ r, xFindAttrib szDoc k.chars fuel ((aPos i).nStartL + 1) 0 0 = some r ∧
      l.attrib k.chars = match r with
        | none => []
        | some token => xTextFromDoc szDoc token.nL
            (token.nR + 1 - if token.nR < szDoc.length then 0 else 1) := by
  obtain ⟨name, attrs, sp, b, t, hlies, rfl⟩ := h
  have hlen := hlies.length
  have hattrs := length_attrs_le attrs
  rw [renderTag, List.append_assoc, List.append_assoc] at hlies
  simp only [renderTag, List.length_append] at hlen
  obtain ⟨fuel, rfl⟩ : ∃ fuel₀, fuel = fuel₀ + 1 := ⟨fuel - 1, by omega⟩
  obtain ⟨c, t', hrest, hspecial⟩ := exists_special attrs sp b t
  have hname : Lies szDoc ((aPos i).nStartL + 1) (name.chars ++ c :: t') := hrest ▸ hlies
  have hhead : name.head ∈ name.chars := List.mem_cons_self
  have hend : ¬(name.head = '>' ∨ name.head = '/') := by
    rintro (heq | heq)
    · exact name.ne_of_isSpecial hhead (by decide) heq
    · exact name.ne_of_isSpecial hhead (by decide) heq
  have hpeek : peek szDoc ((aPos i).nStartL + 1) = name.head := peek_eq hname
  have htoken := xFindToken_name noSpace hname hspecial
  dsimp only [noSpace, List.length_nil] at htoken
  rw [Nat.add_zero] at htoken
  have hless : 3 * attrs.length < fuel := by omega
  obtain ⟨r, hrun, hr⟩ := xFindAttrib_attrs (k := k) attrs hless Nat.one_ne_zero hlies.append
  refine ⟨r, ?_, ?_⟩
  · rw [xFindAttrib, htoken]
    dsimp only
    rw [if_pos (by decide), hpeek, if_neg hend, if_neg (name.ne_of_isSpecial hhead (by decide)),
      if_neg (by simp)]
    exact hrun
  · rw [label_attrib]
    cases hfind : attrs.find? fun a => a.name.chars = k.chars with
    | none =>
        rw [hfind] at hr
        cases r with
        | none => rfl
        | some token => exact absurd hr id
    | some a =>
        rw [hfind] at hr
        cases r with
        | none => exact absurd hr id
        | some token =>
            obtain ⟨m, t, hm, rfl, hvalue⟩ := hr
            have hvalue_len := hvalue.length
            simp only [List.length_append, List.length_cons] at hvalue_len
            dsimp only
            rw [if_pos (by omega), xTextFromDoc]
            have hcount : m + a.raw.length - 1 + 1 - 0 - m = a.raw.length := by omega
            rw [hcount, hvalue.take]

/-- The name that is read at a start tag. -/
theorem xFindToken_tag (h : Shows szDoc aPos i l) :
    ∃ (name : Name) (t : List Char), l.name = name.chars ∧
      Lies szDoc ((aPos i).nStartL + 1) (name.chars ++ t) ∧
      xFindToken szDoc ((aPos i).nStartL + 1) =
        (⟨(aPos i).nStartL + 1, (aPos i).nStartL + 1 + name.chars.length - 1,
          (aPos i).nStartL + 1 + name.chars.length, false⟩, true) := by
  obtain ⟨name, attrs, sp, b, t, hlies, rfl⟩ := h
  rw [renderTag, List.append_assoc, List.append_assoc] at hlies
  obtain ⟨c, t', hrest, hspecial⟩ := exists_special attrs sp b t
  rw [hrest] at hlies
  have htoken := xFindToken_name noSpace hlies hspecial
  dsimp only [noSpace, List.length_nil] at htoken
  rw [Nat.add_zero] at htoken
  exact ⟨name, _, rfl, hlies, htoken⟩

/-! ## Paths -/

/-- What follows a step in a path. -/
def stepRest : List PathStep → List Char
  | [] => []
  | s :: ss => '/' :: renderSteps s ss

theorem renderSteps_eq (s : PathStep) (ss : List PathStep) :
    renderSteps s ss = s.chars ++ stepRest ss := by
  cases ss with
  | nil => exact (List.append_nil _).symm
  | cons s' ss => rfl

theorem peek_stepRest (a : List Char) (ss : List PathStep) :
    peek (a ++ stepRest ss) a.length = '/' ↔ ss ≠ [] := by
  have hlies := (lies_zero (a ++ stepRest ss)).append
  rw [Nat.zero_add] at hlies
  cases ss with
  | nil =>
      have hnul := isNul_peek_nil hlies
      simp only [ne_eq, not_true_eq_false, iff_false]
      intro hslash
      rw [hslash] at hnul
      exact absurd hnul (by decide)
  | cons s ss => simp [peek_eq (c := '/') hlies]

/-- What a turn of the search does at an element: it goes on inside, ends there or goes on
behind it. -/
theorem findPath_cons (s : PathStep) (ss : List PathStep) (hi : i ≠ 0)
    (hshows : Shows szDoc aPos i l) :
    findPath szDoc aPos (fuel + 1) i (renderSteps s ss) =
      if s.test l then
        match ss with
        | [] => some i
        | s' :: ss => findPath szDoc aPos fuel (aPos i).iElemChild (renderSteps s' ss)
      else findPath szDoc aPos fuel (aPos i).iElemNext (renderSteps s ss) := by
  obtain ⟨name, t, hl, hlies, htoken⟩ := xFindToken_tag hshows
  rw [findPath, if_neg hi, htoken, renderSteps_eq]
  dsimp only
  cases s with
  | any =>
      have hslash : peek (PathStep.any.chars ++ stepRest ss) 1 = '/' ↔ ss ≠ [] :=
        peek_stepRest ['*'] ss
      have hstar : peek (PathStep.any.chars ++ stepRest ss) 0 = '*' := rfl
      have htest : PathStep.any.test l = true := rfl
      rw [if_pos hstar, if_pos htest]
      cases ss with
      | nil =>
          rw [if_neg fun h => hslash.mp h rfl]
      | cons s' ss =>
          rw [if_pos (hslash.mpr (by simp))]
          rfl
  | key k =>
      have hstar : ¬peek ((PathStep.key k).chars ++ stepRest ss) 0 = '*' := k.star
      have hrest : stepRest ss = [] ∨ ∃ r, stepRest ss = '/' :: r := by
        cases ss with
        | nil => exact .inl rfl
        | cons s' ss => exact .inr ⟨_, rfl⟩
      have hmatch := matches_key (e := (aPos i).nStartL + 1 + name.chars.length) (b := false) k
        hrest hlies
      have hpos : 0 < name.chars.length := List.length_pos_of_mem List.mem_cons_self
      have hcount : (aPos i).nStartL + 1 + name.chars.length - 1 - ((aPos i).nStartL + 1) + 1 =
          name.chars.length := by omega
      rw [if_neg hstar, hcount]
      have hchars : (PathStep.key k).chars = k.chars := rfl
      rw [hchars, hmatch, PathStep.test, hl]
      by_cases heq : name.chars = k.chars
      · rw [if_pos (decide_eq_true heq), if_pos (decide_eq_true heq), heq]
        have hslash := peek_stepRest k.chars ss
        cases ss with
        | nil => rw [if_neg fun h => hslash.mp h rfl]
        | cons s' ss =>
            rw [if_pos (hslash.mpr (by simp))]
            have hdrop : (k.chars ++ stepRest (s' :: ss)).drop (k.chars.length + 1) =
                renderSteps s' ss := by
              rw [← List.drop_drop, List.drop_left]
              rfl
            rw [hdrop]
      · have hneg : ¬decide (name.chars = k.chars) = true := fun h => heq (of_decide_eq_true h)
        rw [if_neg hneg, if_neg hneg]

/-- The search along a path. -/
theorem findPath_eq {above : List (List (Rose Label) × List (Rose Label))}
    {siblings ts : List (Rose Label)} {p : ℕ} (s : PathStep) (ss : List PathStep)
    (hfuel : size ts < fuel) (hspine : Spine (links aPos) (Shows szDoc aPos) n p above)
    (hsiblings : Hangs (links aPos) (Shows szDoc aPos) n p (aPos p).iElemChild siblings)
    (h : Hangs (links aPos) (Shows szDoc aPos) n p i ts) :
    ∃ j, findPath szDoc aPos fuel i (renderSteps s ss) = some j ∧
      Reaches (links aPos) (Shows szDoc aPos) n j
        (Cursor.search above siblings ts s.test (ss.map PathStep.test)) := by
  induction fuel generalizing above siblings ts p i s ss with
  | zero => exact absurd hfuel (Nat.not_lt_zero _)
  | succ fuel ih =>
      cases ts with
      | nil =>
          refine ⟨0, ?_, ?_⟩
          · rw [findPath, if_pos (h.eq_zero_iff.mpr rfl)]
          · rw [Cursor.search_nil]
            exact rfl
      | cons u us =>
          rw [size, u.count_eq] at hfuel
          rw [findPath_cons s ss h.ne_zero h.shows_label]
          by_cases htest : s.test u.label
          · rw [if_pos htest]
            cases ss with
            | nil =>
                refine ⟨i, rfl, ?_⟩
                rw [List.map_nil, Cursor.search_cons_last htest]
                refine ⟨h.ne_zero, ?_⟩
                rw [h.parent_eq]
                exact ⟨hspine, hsiblings, h, .nil i, fun _ _ => rfl⟩
            | cons s' ss =>
                rw [List.map_cons, Cursor.search_cons_into htest]
                exact ih s' ss (by omega) (.into hspine hsiblings h) h.kids h.kids
          · rw [if_neg htest, Cursor.search_cons_neg htest]
            exact ih s ss (by omega) hspine hsiblings h.tail

/-- `x_FindElem` of a path. -/
theorem xFindElem_eq {c : Cursor Label} {p iPosChild : ℕ} (path : Path) (hfuel : n < fuel)
    (h : At (links aPos) (Shows szDoc aPos) n p i iPosChild c) :
    ∃ j, xFindElem szDoc aPos fuel p i path.chars = some j ∧
      Reaches (links aPos) (Shows szDoc aPos) n j (c.next path.absolute path.tests) := by
  have hroots := h.roots
  have hfrom := h.from
  obtain ⟨absolute, steps⟩ := path
  cases absolute with
  | true =>
      rw [Cursor.next, if_pos rfl, Path.tests]
      cases steps with
      | nil => exact ⟨_, rfl, reaches_lookup .root hroots hroots⟩
      | cons s ss =>
          obtain ⟨j, hrun, hj⟩ :=
            findPath_eq s ss (hroots.size_le.trans_lt hfuel) .root hroots hroots
          refine ⟨j, ?_, hj⟩
          have hne : renderSteps s ss ≠ [] := by
            rw [renderSteps_eq]
            cases s <;> simp [PathStep.chars, Key.chars]
          rw [xFindElem]
          have hchars : Path.chars ⟨true, s :: ss⟩ = '/' :: renderSteps s ss := rfl
          have hpeek : peek ('/' :: renderSteps s ss) 0 = '/' := rfl
          rw [hchars, if_pos hpeek, if_pos hpeek, List.drop_one, List.tail_cons]
          rw [if_neg hne]
          exact hrun
  | false =>
      have hstart : (if i ≠ 0 then (aPos i).iElemNext else (aPos p).iElemChild) =
          if i = 0 then (links aPos).child p else (links aPos).next i := ite_not _ _ _
      rw [Cursor.next, if_neg (by simp), Path.tests]
      cases steps with
      | nil =>
          refine ⟨_, ?_, reaches_lookup h.spine h.siblings hfrom⟩
          have hchars : Path.chars ⟨false, []⟩ = [] := rfl
          have hpeek : ¬peek [] 0 = '/' := by decide
          rw [hchars, xFindElem, if_neg hpeek, if_neg hpeek, if_pos rfl, hstart]
      | cons s ss =>
          obtain ⟨j, hrun, hj⟩ := findPath_eq s ss (hfrom.size_le.trans_lt hfuel)
            h.spine h.siblings hfrom
          refine ⟨j, ?_, hj⟩
          have hchars : Path.chars ⟨false, s :: ss⟩ = renderSteps s ss := rfl
          have hpeek : ¬peek (renderSteps s ss) 0 = '/' := by
            rw [renderSteps_eq]
            cases s with
            | any =>
                have hstar : peek (PathStep.any.chars ++ stepRest ss) 0 = '*' := rfl
                rw [hstar]
                decide
            | key k =>
                intro hslash
                have hplain := k.plain k.head List.mem_cons_self
                have hhead : k.head = '/' := hslash
                rw [hhead] at hplain
                exact hplain (by decide)
          have hne : renderSteps s ss ≠ [] := by
            rw [renderSteps_eq]
            cases s <;> simp [PathStep.chars, Key.chars]
          rw [hchars, xFindElem, if_neg hpeek, if_neg hpeek, if_neg hne, hstart]
          exact hrun

mutual

theorem count_tree_le : ∀ e : Elem, e.tree.count ≤ e.render.length
  | .empty name attrs sp => by
      simp [Elem.tree, Rose.count, size, Elem.render]
  | .full name attrs sp inner close => by
      have hinner := size_trees_le inner
      simp only [Elem.tree, Rose.count, Elem.render, List.length_cons, List.length_append]
      omega

theorem size_trees_le : ∀ inner : Inner, size inner.trees ≤ inner.render.length
  | .done _ => Nat.zero_le _
  | .cons filler e rest => by
      have he := count_tree_le e
      have hrest := size_trees_le rest
      simp only [Inner.trees, size, Inner.render, List.length_append]
      omega

end

/-! ## Runs -/

/-- A call on a document. -/
inductive Cmd
  | findElem (path : Path)
  | findChildElem (path : Path)
  | intoElem
  | outOfElem
  | resetPos
  | resetMainPos
  | resetChildPos
  | getTagName
  | getChildTagName
  | getAttrib (k : Key)
  | getChildAttrib (k : Key)

/-- What a call returns. -/
inductive Answer
  | done
  | found (b : Bool)
  | text (s : List Char)
  /-- The loop has not ended. -/
  | endless
  deriving DecidableEq

def Answer.ofFind (m : Markup) : Option (Bool × Markup) → Markup × Answer
  | none => (m, .endless)
  | some (b, m) => (m, .found b)

def Answer.ofText : Option (List Char) → Answer
  | none => .endless
  | some s => .text s

/-- A call on the text. -/
def exec (fuel : ℕ) (m : Markup) : Cmd → Markup × Answer
  | .findElem path => Answer.ofFind m (m.findElem fuel path.chars)
  | .findChildElem path => Answer.ofFind m (m.findChildElem fuel path.chars)
  | .intoElem => (m.intoElem.2, .found m.intoElem.1)
  | .outOfElem => (m.outOfElem.2, .found m.outOfElem.1)
  | .resetPos => (m.resetPos, .done)
  | .resetMainPos => (m.resetMainPos, .done)
  | .resetChildPos => (m.resetChildPos, .done)
  | .getTagName => (m, .text (m.xGetTagName m.iPos))
  | .getChildTagName => (m, .text (m.xGetTagName m.iPosChild))
  | .getAttrib k => (m, .ofText (m.xGetAttrib fuel m.iPos k.chars))
  | .getChildAttrib k => (m, .ofText (m.xGetAttrib fuel m.iPosChild k.chars))

/-- What the first of the trees says, if there is one. -/
def read (f : Label → List Char) : List (Rose Label) → List Char
  | [] => []
  | t :: _ => f t.label

/-- The same call on the tree. -/
def meaning (c : Cursor Label) : Cmd → Cursor Label × Answer
  | .findElem path =>
      ((c.find path.absolute path.tests).2, .found (c.find path.absolute path.tests).1)
  | .findChildElem path =>
      ((c.findKid path.absolute path.tests).2, .found (c.findKid path.absolute path.tests).1)
  | .intoElem => (c.into.2, .found c.into.1)
  | .outOfElem => (c.outOf.2, .found c.outOf.1)
  | .resetPos => (c.reset, .done)
  | .resetMainPos => (c.resetHere, .done)
  | .resetChildPos => (c.resetKids, .done)
  | .getTagName => (c, .text (read Label.name c.here))
  | .getChildTagName => (c, .text (read Label.name c.kids))
  | .getAttrib k => (c, .text (read (Label.attrib · k.chars) c.here))
  | .getChildAttrib k =>
      (c, .text (if c.here = [] then [] else read (Label.attrib · k.chars) c.kids))

/-- The reader of the text is where the cursor is in the tree. -/
structure Reads (szDoc : List Char) (aPos : ℕ → ElemPos) (n : ℕ) (m : Markup) (c : Cursor Label) :
    Prop where
  strDoc : m.strDoc = szDoc
  aPos_eq : m.aPos = aPos
  place : At (links aPos) (Shows szDoc aPos) n m.iPosParent m.iPos m.iPosChild c

variable {m : Markup} {c : Cursor Label}

theorem Reads.xSetPos {p j iPosChild : ℕ} {d : Cursor Label} (h : Reads szDoc aPos n m c)
    (hd : At (links aPos) (Shows szDoc aPos) n p j iPosChild d) :
    Reads szDoc aPos n (m.xSetPos p j iPosChild) d := ⟨h.strDoc, h.aPos_eq, hd⟩

theorem Reads.findElem (h : Reads szDoc aPos n m c) (hfuel : n < fuel) (path : Path) :
    ∃ m', m.findElem fuel path.chars = some ((c.find path.absolute path.tests).1, m') ∧
      Reads szDoc aPos n m' (c.find path.absolute path.tests).2 := by
  obtain ⟨j, hrun, hj⟩ := xFindElem_eq path hfuel h.place
  obtain ⟨hfound, hplace⟩ := h.place.find hj
  rw [Markup.findElem, h.strDoc, h.aPos_eq, hrun, hfound]
  by_cases hzero : j = 0
  · rw [if_pos hzero] at hplace
    exact ⟨m, by simp [hzero], h.strDoc, h.aPos_eq, hplace⟩
  · rw [if_neg hzero] at hplace
    exact ⟨_, by simp [hzero], h.xSetPos hplace⟩

/-- Where there is no main position, the first of the siblings becomes it. -/
theorem Reads.main (h : Reads szDoc aPos n m c) (hfuel : n < fuel)
    (hroots : (aPos 0).iElemChild ≠ 0) :
    ∃ m', (if m.iPos = 0 then (m.findElem fuel []).map Prod.snd else some m) = some m' ∧
      Reads szDoc aPos n m' c.main ∧ (m'.iPos = 0 → m'.iPosChild = 0) := by
  rw [Cursor.main]
  by_cases hi : m.iPos = 0
  · have hhere := h.place.here.eq_zero_iff.mp hi
    obtain ⟨m', hrun, hm'⟩ := h.findElem hfuel ⟨false, []⟩
    rw [if_pos hi, if_pos hhere]
    refine ⟨m', ?_, hm', ?_⟩
    · have hchars : Path.chars ⟨false, []⟩ = [] := rfl
      rw [← hchars, hrun]
      rfl
    · intro hi'
      have hplace := hm'.place
      have hhere' := hplace.here.eq_zero_iff.mp hi'
      rw [Cursor.find, Cursor.next, if_neg (by simp), if_pos hhere] at hhere' hplace
      by_cases hnil : c.siblings = []
      · -- there are no siblings, so this is not the level of the root
        have hlookup : Cursor.lookup c.above c.siblings c.siblings (Path.tests ⟨false, []⟩) =
            none := if_pos hnil
        rw [hlookup] at hplace
        have hp : m'.iPosParent ≠ 0 := by
          intro hp
          have hchild := hplace.siblings.eq_zero_iff.mpr hnil
          rw [hp] at hchild
          exact hroots hchild
        exact hplace.kids.eq_zero_iff.mpr (hplace.kids_nil hhere hp)
      · have hlookup : Cursor.lookup c.above c.siblings c.siblings (Path.tests ⟨false, []⟩) =
            some ⟨c.above, c.siblings, c.siblings, []⟩ := if_neg hnil
        rw [hlookup] at hhere'
        exact absurd hhere' hnil
  · rw [if_neg hi, if_neg fun hnil => hi (h.place.here.eq_zero_iff.mpr hnil)]
    exact ⟨m, rfl, h, fun hi' => absurd hi' hi⟩

theorem Reads.findChildElem (h : Reads szDoc aPos n m c) (hfuel : n < fuel)
    (hroots : (aPos 0).iElemChild ≠ 0) (htop : (aPos 0).iElemParent = 0) (path : Path) :
    ∃ m', m.findChildElem fuel path.chars =
        some ((c.findKid path.absolute path.tests).1, m') ∧
      Reads szDoc aPos n m' (c.findKid path.absolute path.tests).2 := by
  obtain ⟨m₁, hmain, h₁, hzero₁⟩ := h.main hfuel hroots
  obtain ⟨j, hrun, hj⟩ := xFindElem_eq path hfuel (h₁.place.inside hzero₁)
  obtain ⟨hfound, hplace⟩ := h₁.place.findKid hj htop
  have hstep : m.findChildElem fuel path.chars =
      some (if j ≠ 0 then
        (true, m₁.xSetPos (aPos (aPos j).iElemParent).iElemParent (aPos j).iElemParent j)
        else (false, m₁)) := by
    rw [Markup.findChildElem, hmain]
    dsimp only [Option.bind_eq_bind, Option.bind_some]
    rw [h₁.strDoc, h₁.aPos_eq, hrun]
    dsimp only [Option.bind_some]
    split <;> rfl
  rw [hstep, hfound]
  by_cases hzero : j = 0
  · rw [if_pos hzero] at hplace
    exact ⟨m₁, by simp [hzero], h₁.strDoc, h₁.aPos_eq, hplace⟩
  · rw [if_neg hzero] at hplace
    exact ⟨_, by simp [hzero], h₁.xSetPos hplace⟩

theorem Reads.intoElem (h : Reads szDoc aPos n m c) :
    m.intoElem.1 = c.into.1 ∧ Reads szDoc aPos n m.intoElem.2 c.into.2 := by
  rw [Markup.intoElem]
  by_cases hi : m.iPos = 0
  · have hplace := h.place
    rw [hi] at hplace
    rw [if_neg (not_not.mpr hi), hplace.into_zero]
    exact ⟨rfl, h⟩
  · obtain ⟨hfound, hplace⟩ := h.place.into hi
    rw [if_pos hi, hfound]
    exact ⟨rfl, h.xSetPos hplace⟩

theorem Reads.outOfElem (h : Reads szDoc aPos n m c) :
    m.outOfElem.1 = c.outOf.1 ∧ Reads szDoc aPos n m.outOfElem.2 c.outOf.2 := by
  rw [Markup.outOfElem]
  by_cases hp : m.iPosParent = 0
  · have hplace := h.place
    rw [hp] at hplace
    rw [if_neg (not_not.mpr hp), hplace.outOf_zero]
    exact ⟨rfl, h⟩
  · obtain ⟨hfound, hplace⟩ := h.place.outOf hp
    rw [if_pos hp, hfound, h.aPos_eq]
    exact ⟨rfl, h.xSetPos hplace⟩

/-- The name that is read at a place. -/
theorem Reads.xGetTagName (h : Reads szDoc aPos n m c) {p : ℕ} {ts : List (Rose Label)}
    (hts : Hangs (links aPos) (Shows szDoc aPos) n p i ts) :
    m.xGetTagName i = read Label.name ts := by
  rw [Markup.xGetTagName]
  cases ts with
  | nil => exact if_pos (hts.eq_zero_iff.mpr rfl)
  | cons u us =>
      obtain ⟨name, t, hname, hlies, htoken⟩ := xFindToken_tag hts.shows_label
      rw [if_neg hts.ne_zero, h.strDoc, h.aPos_eq, htoken]
      dsimp only
      rw [xGetToken_name hlies]
      exact hname.symm

/-- The value that is read at a place. -/
theorem Reads.xGetAttrib (h : Reads szDoc aPos n m c) (hfuel : szDoc.length < fuel) (k : Key)
    {p : ℕ} {ts : List (Rose Label)} (hi : m.iPos ≠ 0)
    (hts : Hangs (links aPos) (Shows szDoc aPos) n p i ts) :
    m.xGetAttrib fuel i k.chars = some (read (Label.attrib · k.chars) ts) := by
  rw [Markup.xGetAttrib]
  cases ts with
  | nil => exact if_pos (.inl (hts.eq_zero_iff.mpr rfl))
  | cons u us =>
      obtain ⟨r, hrun, hr⟩ := xFindAttrib_eq hfuel k hts.shows_label
      rw [if_neg (not_or.mpr ⟨hts.ne_zero, hi⟩), h.strDoc, h.aPos_eq, hrun, read, hr]
      cases r <;> rfl

/-- Each call answers as on the tree, and the reader stays where the cursor is. -/
theorem Reads.step (h : Reads szDoc aPos n m c) (hfuel : n < fuel)
    (hlen : szDoc.length < fuel) (hroots : (aPos 0).iElemChild ≠ 0)
    (htop : (aPos 0).iElemParent = 0) (cmd : Cmd) :
    (exec fuel m cmd).2 = (meaning c cmd).2 ∧
      Reads szDoc aPos n (exec fuel m cmd).1 (meaning c cmd).1 := by
  cases cmd with
  | findElem path =>
      obtain ⟨m', hrun, hm'⟩ := h.findElem hfuel path
      rw [exec, meaning, hrun]
      exact ⟨rfl, hm'⟩
  | findChildElem path =>
      obtain ⟨m', hrun, hm'⟩ := h.findChildElem hfuel hroots htop path
      rw [exec, meaning, hrun]
      exact ⟨rfl, hm'⟩
  | intoElem =>
      obtain ⟨hanswer, hnext⟩ := h.intoElem
      exact ⟨congrArg Answer.found hanswer, hnext⟩
  | outOfElem =>
      obtain ⟨hanswer, hnext⟩ := h.outOfElem
      exact ⟨congrArg Answer.found hanswer, hnext⟩
  | resetPos => exact ⟨rfl, h.xSetPos h.place.reset⟩
  | resetMainPos => exact ⟨rfl, h.xSetPos h.place.resetHere⟩
  | resetChildPos => exact ⟨rfl, h.xSetPos h.place.resetKids⟩
  | getTagName => exact ⟨congrArg Answer.text (h.xGetTagName h.place.here), h⟩
  | getChildTagName => exact ⟨congrArg Answer.text (h.xGetTagName h.place.kids), h⟩
  | getAttrib k =>
      refine ⟨?_, h⟩
      rw [exec, meaning]
      by_cases hi : m.iPos = 0
      · rw [h.place.here.eq_zero_iff.mp hi, Markup.xGetAttrib, if_pos (.inl hi)]
        rfl
      · rw [h.xGetAttrib hlen k hi h.place.here]
        rfl
  | getChildAttrib k =>
      refine ⟨?_, h⟩
      rw [exec, meaning]
      by_cases hi : m.iPos = 0
      · rw [if_pos (h.place.here.eq_zero_iff.mp hi), Markup.xGetAttrib, if_pos (.inr hi)]
        rfl
      · rw [if_neg fun hnil => hi (h.place.here.eq_zero_iff.mpr hnil),
          h.xGetAttrib hlen k hi h.place.kids]
        rfl

/-- Reading a document is reading its tree: every document is accepted, and then, whatever
calls follow, they answer as calls on the tree. -/
theorem reads_tree (fuel : ℕ) (d : Document) (aPos : ℕ → ElemPos)
    (hfuel : 2 * d.render.length < fuel) :
    ∃ m, Markup.setDoc fuel aPos d.render = some (.accepted m) ∧
      ∀ cmds, Run.trace (exec fuel) m cmds =
        Run.trace meaning (Cursor.start [d.root.tree]) cmds := by
  obtain ⟨aPos', hset, htop, hlinked⟩ := setDoc_render d aPos hfuel.le
  refine ⟨_, hset, ?_⟩
  intro cmds
  have hsize : size [d.root.tree] ≤ d.render.length := by
    have hcount := count_tree_le d.root
    simp only [size, Document.render, List.length_append]
    omega
  have hhangs : Hangs (links aPos') (Shows d.text aPos') d.render.length 0 (aPos' 0).iElemChild
      [d.root.tree] := ⟨hlinked, hsize⟩
  have hlen := d.text_length_le
  have hstart : Reads d.text aPos' d.render.length ⟨d.text, aPos', 0, 0, 0⟩
      (Cursor.start [d.root.tree]) := ⟨rfl, rfl, at_start hhangs⟩
  exact Run.trace_eq
    (fun m c cmd h => h.step (by omega) (by omega) hhangs.ne_zero htop cmd) hstart cmds

/-- A configuration with one entry, which a server looks for and asks for its port. -/
theorem reads_tree_entry : ∃ (d : Document) (entry port : Key),
    d.render = "<?xml ?><proxy><entry port='80' /></proxy>".toList ∧
      entry.chars = "entry".toList ∧ port.chars = "port".toList ∧
      ∃ m, Markup.setDoc 100 (fun _ => .clear) d.render = some (.accepted m) ∧
        Run.trace (exec 100) m
          [.findElem ⟨false, [.any]⟩, .findChildElem ⟨false, [.key entry]⟩, .getChildAttrib port,
            .findChildElem ⟨false, [.key entry]⟩] =
          [(.findElem ⟨false, [.any]⟩, .found true),
            (.findChildElem ⟨false, [.key entry]⟩, .found true),
            (.getChildAttrib port, .text "80".toList),
            (.findChildElem ⟨false, [.key entry]⟩, .found false)] := by
  let proxy : Name := ⟨'p', "roxy".toList, by simp [isNul],
    by simp [isSpecial, isSpace], by simp [isQuote]⟩
  let entryName : Name := ⟨'e', "ntry".toList, by simp [isNul],
    by simp [isSpecial, isSpace], by simp [isQuote]⟩
  let portName : Name := ⟨'p', "ort".toList, by simp [isNul],
    by simp [isSpecial, isSpace], by simp [isQuote]⟩
  let value : Attr := ⟨' ', noSpace, portName, noSpace, noSpace, '\'', "80".toList, by simp [isSpace],
    by simp [isQuote], by simp [isNul], by simp, by simp⟩
  let d : Document := ⟨[.node .instruction "xml ".toList (by simp [isNul]) (by decide)],
    .full proxy [] noSpace
      (.cons [] (.empty entryName [value] ⟨[' '], by simp [isSpace]⟩) (.done [])) noSpace, []⟩
  let entry : Key := ⟨'e', "ntry".toList, by simp [isNul], by simp, by simp⟩
  let port : Key := ⟨'p', "ort".toList, by simp [isNul], by simp, by simp⟩
  obtain ⟨m, hset, hreads⟩ := reads_tree 100 d (fun _ => .clear) (by decide)
  refine ⟨d, entry, port, by decide, by decide, by decide, m, hset, ?_⟩
  rw [hreads]
  rfl

end Spp.Xml
