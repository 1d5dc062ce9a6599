import Mathlib.Data.List.GetD
import Spp.Xml.Positions
import Spp.Xml.Tokens

/-!
# Any text

What `SetDoc` does with a text that need not be a document.  It comes to an end, unless white
space stands between a left angle bracket and a question or exclamation mark: there the parser
takes the node for an element and stays where it is.  And where it accepts the text, the positions
are those of elements that lie inside each other, from angle bracket to angle bracket.

## Main definitions

* `Span`, `Spanned`, `Nested` — elements as parts of a text.
* `NoGap` — no white space where the parser would hang.

## Main results

* `setDoc_nested` — what is accepted is nested.
* `setDoc_ends` — the parser comes to an end where there is no gap.
* `setDoc_hangs` — and does not where the first angle bracket has one.
-/

namespace Spp.Xml

open Scan Forest

variable {szDoc strName : List Char} {n m fuel : ℕ} {c : Char}

/-! ## The scanner -/

theorem lt_of_not_isNul (h : ¬isNul (peek szDoc n)) : n < szDoc.length := by
  by_contra hle
  refine h ?_
  rw [peek, List.getD_eq_default _ _ (by omega)]
  rfl

theorem lt_of_peek (h : peek szDoc n = c) (hc : ¬isNul c) : n < szDoc.length :=
  lt_of_not_isNul (h ▸ hc)

/-- A character that was found is there. -/
theorem xFindChar_spec (hc : xFindChar szDoc n c = (m, true)) :
    n ≤ m ∧ peek szDoc m = c ∧ m < szDoc.length := by
  rw [xFindChar, Prod.mk.injEq] at hc
  obtain ⟨rfl, hfound⟩ := hc
  have hnul : ¬isNul (peek szDoc (skipWhile (fun x => !isNul x && x != c) szDoc n)) := by
    simpa using hfound
  have hlt := lt_of_not_isNul hnul
  refine ⟨le_skipWhile _ _ _, ?_, hlt⟩
  have hstop := not_of_skipWhile_lt (Char.ofNat 0) hlt
  rw [← peek] at hstop
  simpa [hnul] using hstop

/-- A token lies ahead, and the scanner gets on. -/
theorem xFindToken_spec {token : TokenPos} (h : xFindToken szDoc n = (token, true)) :
    n ≤ token.nL ∧ n < token.nNext ∧ token.nNext ≤ szDoc.length ∧
      (token.bIsString = false → token.nL = skipWhile isSpace szDoc n) := by
  have hle := le_skipWhile isSpace szDoc n
  rw [xFindToken] at h
  dsimp only at h
  split at h
  next => cases h
  next hnul =>
    have hlt := lt_of_not_isNul hnul
    split at h
    next hquote =>
      have hstart := le_skipWhile
        (fun x => !isNul x && x != peek szDoc (skipWhile isSpace szDoc n)) szDoc
        (skipWhile isSpace szDoc n + 1)
      have hend := skipWhile_le (s := szDoc) (n := skipWhile isSpace szDoc n + 1)
        (p := fun x => !isNul x && x != peek szDoc (skipWhile isSpace szDoc n)) hlt
      rw [xFindChar] at h
      obtain rfl := (Prod.mk.inj h).1
      dsimp only
      refine ⟨by omega, ?_, ?_, by simp⟩
      · split <;> omega
      · split
        next hfound =>
          have hlast := lt_of_not_isNul (by simpa using hfound)
          omega
        next => exact hend
    next hquote =>
      have hstart := le_skipWhile (fun x => !isNul x && !isSpecial x) szDoc
        (skipWhile isSpace szDoc n)
      have hend := skipWhile_le (p := fun x => !isNul x && !isSpecial x) (s := szDoc)
        (n := skipWhile isSpace szDoc n) hlt.le
      obtain rfl := (Prod.mk.inj h).1
      dsimp only
      refine ⟨hle, ?_, ?_, fun _ => rfl⟩
      · split <;> omega
      · split <;> omega

/-- A node ends behind where it begins; only an element may end where it begins. -/
theorem docType_spec {k : ℤ} (h : docType szDoc fuel n k = some (some m)) :
    n < m ∧ m ≤ szDoc.length := by
  induction fuel generalizing n k with
  | zero => cases h
  | succ fuel ih =>
      rw [docType] at h
      rcases htoken : xFindToken szDoc n with ⟨token, found⟩
      rw [htoken] at h
      cases found with
      | false => cases h
      | true =>
          obtain ⟨-, hnext, hlen, -⟩ := xFindToken_spec htoken
          have hloop : ∀ k, docType szDoc fuel token.nNext k = some (some m) →
              n < m ∧ m ≤ szDoc.length := by
            intro k hk
            obtain ⟨hlt, hle⟩ := ih hk
            exact ⟨hnext.trans hlt, hle⟩
          dsimp only at h
          split at h
          next => exact hloop _ h
          next =>
            split at h
            next => exact hloop _ h
            next =>
              split at h
              next => exact hloop _ h
              next =>
                split at h
                next =>
                  obtain rfl := Option.some.inj (Option.some.inj h)
                  exact ⟨hnext, hlen⟩
                next => exact hloop _ h

theorem closedBy_spec {pat : List Char} (h : closedBy szDoc n pat = some m) (hn : n ≤ szDoc.length)
    (hpat : pat ≠ []) : n < m ∧ m ≤ szDoc.length := by
  obtain ⟨k, hk, rfl⟩ := Option.map_eq_some_iff.mp h
  have hle := find_le hk
  have hpos := List.length_pos_iff.mpr hpat
  rw [List.length_drop] at hle
  omega

/-- A node ends behind where it begins, or is an element. -/
theorem xParseNode_spec (h : xParseNode szDoc fuel n = some (some m)) (hn : n ≤ szDoc.length) :
    (n < m ∧ m ≤ szDoc.length) ∨
      (m = n ∧ peek szDoc (n + 1) ≠ '?' ∧ peek szDoc (n + 1) ≠ '!') := by
  rw [xParseNode] at h
  split at h
  next => cases h
  next =>
    split at h
    next => exact .inl (closedBy_spec (Option.some.inj h) hn (by simp))
    next hquestion =>
      split at h
      next =>
        split at h
        next => exact .inl (closedBy_spec (Option.some.inj h) hn (by simp))
        next =>
          split at h
          next => exact .inl (closedBy_spec (Option.some.inj h) hn (by simp))
          next => exact .inl (docType_spec h)
      next hbang =>
        split at h
        next => cases h
        next =>
          obtain rfl := Option.some.inj (Option.some.inj h)
          exact .inr ⟨rfl, hquestion, hbang⟩

/-- Nowhere does white space follow a left angle bracket and then a question or exclamation
mark. -/
def NoGap (szDoc : List Char) : Prop :=
  ∀ n < szDoc.length, peek szDoc n = '<' → (peek szDoc (skipWhile isSpace szDoc (n + 1)) = '?' ∨
    peek szDoc (skipWhile isSpace szDoc (n + 1)) = '!') → skipWhile isSpace szDoc (n + 1) = n + 1

/-- What the search for a start tag ends with is between angle brackets; its errors say no name. -/
def StartTag.Ends (szDoc : List Char) (n : ℕ) : StartTag → Prop
  | .error e => e ≠ .overflow
  | .release nStartL => n ≤ nStartL ∧ peek szDoc nStartL = '<'
  | .found nStartL name nStartR =>
      n ≤ nStartL ∧ peek szDoc nStartL = '<' ∧ nStartL + 1 < nStartR ∧ peek szDoc nStartR = '>' ∧
        name = xGetToken szDoc (xFindToken szDoc (nStartL + 1)).1

theorem xParseError_none (szError : String) : xParseError szError none ≠ .overflow :=
  ParseError.noConfusion

/-- One turn of the search: it ends, or goes on, or hangs in a node. -/
theorem startTag_turn (szDoc : List Char) (n fuel : ℕ) :
    (∃ r, startTag szDoc (fuel + 1) n = some r ∧ r.Ends szDoc n) ∨
      (∃ m, n ≤ m ∧ m ≤ szDoc.length ∧
        startTag szDoc (fuel + 1) n = startTag szDoc fuel m ∧ (NoGap szDoc → n < m)) ∨
      (startTag szDoc (fuel + 1) n = none ∧
        ∃ m, n ≤ m ∧ m ≤ szDoc.length ∧ xParseNode szDoc fuel m = none) := by
  rcases hfind : xFindChar szDoc n '<' with ⟨p, found⟩
  cases found with
  | false =>
      refine .inl ⟨_, by rw [startTag, hfind], ?_⟩
      exact xParseError_none _
  | true =>
      obtain ⟨hp, hleft, hplen⟩ := xFindChar_spec hfind
      rcases htoken : xFindToken szDoc (p + 1) with ⟨token, found⟩
      cases found with
      | false =>
          refine .inl ⟨_, by rw [startTag, hfind]; dsimp only; rw [htoken], ?_⟩
          exact xParseError_none _
      | true =>
          obtain ⟨hstart, hnext, hlen, hplain⟩ := xFindToken_spec htoken
          rw [startTag, hfind]
          dsimp only
          rw [htoken]
          dsimp only
          by_cases hstring : token.bIsString = true
          · rw [if_pos hstring]
            exact .inl ⟨_, rfl, xParseError_none _⟩
          rw [if_neg hstring]
          by_cases hmark : peek szDoc token.nL = '?' ∨ peek szDoc token.nL = '!'
          · rw [if_pos hmark]
            rcases hnode : xParseNode szDoc fuel p with _ | _ | m
            · exact .inr (.inr ⟨rfl, p, hp, hplen.le, hnode⟩)
            · exact .inl ⟨_, rfl, xParseError_none _⟩
            · rcases xParseNode_spec hnode hplen.le with ⟨hlt, hle⟩ | ⟨rfl, hquestion, hbang⟩
              · exact .inr (.inl ⟨m, by omega, hle, rfl, fun _ => by omega⟩)
              · refine .inr (.inl ⟨m, hp, hplen.le, rfl, ?_⟩)
                intro hgap
                rw [hplain (by simpa using hstring)] at hmark
                rw [hgap m hplen hleft hmark] at hmark
                exact absurd hmark (not_or.mpr ⟨hquestion, hbang⟩)
          rw [if_neg hmark]
          by_cases hslash : peek szDoc token.nL ≠ '/'
          · rw [if_pos hslash]
            rcases hend : xFindChar szDoc token.nNext '>' with ⟨q, found⟩
            cases found with
            | false => exact .inl ⟨_, rfl, xParseError_none _⟩
            | true =>
                obtain ⟨hq, hright, hqlen⟩ := xFindChar_spec hend
                dsimp only
                by_cases hname : xGetToken szDoc token = []
                · rw [if_pos hname]
                  exact .inr (.inl ⟨q, by omega, hqlen.le, rfl, fun _ => by omega⟩)
                · rw [if_neg hname]
                  exact .inl ⟨_, rfl, hp, hleft, by omega, hright, by rw [htoken]⟩
          · rw [if_neg hslash]
            exact .inl ⟨_, rfl, hp, hleft⟩

theorem StartTag.Ends.mono {r : StartTag} (h : r.Ends szDoc m) (hle : n ≤ m) : r.Ends szDoc n := by
  cases r with
  | error e => exact h
  | release p => exact ⟨hle.trans h.1, h.2⟩
  | found p name q => exact ⟨hle.trans h.1, h.2⟩

theorem startTag_ends {r : StartTag} (h : startTag szDoc fuel n = some r) :
    r.Ends szDoc n := by
  induction fuel generalizing n with
  | zero => cases h
  | succ fuel ih =>
      rcases startTag_turn szDoc n fuel with ⟨r', hrun, hends⟩ | ⟨m, hle, -, hrun, -⟩ |
        ⟨hrun, -⟩
      · rw [hrun] at h
        obtain rfl := Option.some.inj h
        exact hends
      · rw [hrun] at h
        exact (ih h).mono hle
      · rw [hrun] at h
        cases h

/-- An end tag ends at a right angle bracket. -/
theorem endTag_ends {k : ℕ} (h : endTag szDoc strName fuel n k = some (.ok m)) :
    n ≤ m ∧ peek szDoc m = '>' := by
  induction fuel generalizing n k with
  | zero => cases h
  | succ fuel ih =>
      rw [endTag] at h
      rcases htoken : xFindToken szDoc n with ⟨token, found⟩
      rw [htoken] at h
      cases found with
      | false => cases h
      | true =>
          obtain ⟨hstart, hnext, -, -⟩ := xFindToken_spec htoken
          have hloop : endTag szDoc strName fuel token.nNext (k + 1) = some (.ok m) →
              n ≤ m ∧ peek szDoc m = '>' := by
            intro hrest
            obtain ⟨hle, hright⟩ := ih hrest
            exact ⟨by omega, hright⟩
          dsimp only at h
          split at h
          next => exact hloop h
          next =>
            split at h
            next => cases h
            next =>
              split at h
              next => cases h
              next =>
                split at h
                next hright =>
                  split at h
                  next => cases h
                  next =>
                    obtain rfl := Except.ok.inj (Option.some.inj h)
                    exact ⟨hstart, hright⟩
                next => exact hloop h

/-! ## What is accepted -/

/-- An element as a part of the text: where its tags begin and end. -/
structure Span where
  nStartL : ℕ
  nStartR : ℕ
  nEndL : ℕ
  nEndR : ℕ

/-- The part of the text that a position is for. -/
def Spans (pos : ElemPos) (l : Span) : Prop :=
  l = ⟨pos.nStartL, pos.nStartR, pos.nEndL, pos.nEndR⟩

/-- Between angle brackets there is a start tag. -/
structure Span.Tag (szDoc : List Char) (n : ℕ) (l : Span) : Prop where
  le : n ≤ l.nStartL
  left : peek szDoc l.nStartL = '<'
  lt : l.nStartL + 1 < l.nStartR
  right : peek szDoc l.nStartR = '>'

/-- An end tag behind the start tag. -/
structure Span.EndTag (szDoc : List Char) (l : Span) : Prop where
  left : peek szDoc l.nEndL = '<'
  lt : l.nEndL < l.nEndR
  right : peek szDoc l.nEndR = '>'

mutual

/-- The element and those inside it lie between `n` and `stop`, and end there. -/
inductive Spanned (szDoc : List Char) : ℕ → ℕ → Rose Span → Prop
  | empty {n : ℕ} {l : Span} (tag : l.Tag szDoc n) (slash : peek szDoc l.nEndL = '/')
      (endL : l.nEndL + 1 = l.nStartR) (endR : l.nEndR = l.nStartR) :
      Spanned szDoc n (l.nEndR + 1) (.node l [])
  | full {n : ℕ} {l : Span} {kids : List (Rose Span)} (tag : l.Tag szDoc n)
      (endTag : l.EndTag szDoc) (inner : Nested szDoc (l.nStartR + 1) l.nEndL kids) :
      Spanned szDoc n (l.nEndR + 1) (.node l kids)

/-- The elements lie one behind the other between `n` and `stop`. -/
inductive Nested (szDoc : List Char) : ℕ → ℕ → List (Rose Span) → Prop
  | nil {n stop : ℕ} (le : n ≤ stop) : Nested szDoc n stop []
  | cons {n mid stop : ℕ} {t : Rose Span} {ts : List (Rose Span)} (head : Spanned szDoc n mid t)
      (tail : Nested szDoc mid stop ts) : Nested szDoc n stop (t :: ts)

end

mutual

theorem Spanned.lt {n stop : ℕ} {t : Rose Span} : Spanned szDoc n stop t → n < stop
  | .empty tag _ _ endR => by
      have hle := tag.le
      have hlt := tag.lt
      omega
  | .full tag endTag inner => by
      have hle := tag.le
      have hlt := tag.lt
      have hend := endTag.lt
      have hinner := inner.le
      omega

theorem Nested.le {n stop : ℕ} {ts : List (Rose Span)} : Nested szDoc n stop ts → n ≤ stop
  | .nil le => le
  | .cons head tail => head.lt.le.trans tail.le

end

theorem Nested.mono {stop : ℕ} {ts : List (Rose Span)} (h : Nested szDoc n m ts)
    (hle : m ≤ stop) : Nested szDoc n stop ts := by
  induction ts generalizing n with
  | nil =>
      cases h with
      | nil le => exact .nil (le.trans hle)
  | cons t ts ih =>
      cases h with
      | cons head tail => exact .cons head (ih tail)

variable {s s' : Positions} {iPos iPosParent iInnerPrev i : ℕ}

/-- Inside an element, the parser only makes what is nested. -/
def InnerNests (szDoc : List Char) (fuel : ℕ) : Prop :=
  ∀ (s s' : Positions) (iPos iInnerPrev : ℕ), Ready s iPos iInnerPrev →
    xParseInner szDoc fuel iPos iInnerPrev s = some (.ok s') →
    ∃ stop ts, InnerParsed Spans s s' iPos iInnerPrev stop ts ∧
      Nested szDoc (s.aPos iPos).nEndL stop ts ∧ stop ≤ szDoc.length

/-- An element that was parsed lies in the text, or there was an end tag. -/
theorem parseElem_nests (hinner : InnerNests szDoc fuel) (hpos : iPosParent < s.iPosFree)
    (hn : (s.aPos iPosParent).nEndL = n)
    (h : xParseElem szDoc (fuel + 1) iPosParent s = some (.ok (i, s'))) :
    (i = 0 ∧ ∃ p, n ≤ p ∧ p ≤ szDoc.length ∧
        s' = s.modify iPosParent fun pos => { pos with nEndL := p }) ∨
      (i = s.iPosFree ∧ ∃ stop t, ElemParsed Spans s s' iPosParent stop t ∧
        Spanned szDoc n stop t ∧ stop ≤ szDoc.length) := by
  rw [xParseElem, hn] at h
  rcases hstart : startTag szDoc fuel n with _ | e | p | ⟨p, name, q⟩
  · rw [hstart] at h
    cases h
  · rw [hstart] at h
    cases h
  · rw [hstart] at h
    obtain ⟨hle, hleft⟩ := startTag_ends hstart
    obtain ⟨rfl, rfl⟩ := Prod.mk.inj (Except.ok.inj (Option.some.inj h))
    exact .inl ⟨rfl, p, hle, (lt_of_peek hleft (by decide)).le, rfl⟩
  · obtain ⟨hle, hleft, hlt, hright, -⟩ := startTag_ends hstart
    have hq : q < szDoc.length := lt_of_peek hright (by decide)
    rw [hstart] at h
    dsimp only at h
    by_cases hslash : peek szDoc (q - 1) = '/'
    · rw [if_pos hslash] at h
      obtain ⟨rfl, rfl⟩ := Prod.mk.inj (Except.ok.inj (Option.some.inj h))
      refine .inr ⟨rfl, q + 1, .node ⟨p, q, q - 1, q⟩ [], elemParsed_empty hpos rfl, ?_, hq⟩
      exact .empty (l := ⟨p, q, q - 1, q⟩) ⟨hle, hleft, hlt, hright⟩ hslash
        (Nat.sub_add_cancel (by omega)) rfl
    · rw [if_neg hslash] at h
      rcases hrun : xParseInner szDoc fuel s.iPosFree 0 (opened s iPosParent p q) with _ | e | s₁
      · unfold opened taken at hrun
        rw [hrun] at h
        cases h
      · unfold opened taken at hrun
        rw [hrun] at h
        cases h
      · have hopened : ((opened s iPosParent p q).aPos s.iPosFree).nEndL = q + 1 := by
          rw [opened, Positions.modify_self]
        obtain ⟨stop, ts, hparsed, hnested, hstop⟩ :=
          hinner _ _ _ _ (ready_opened s _ _ _) hrun
        rw [hopened] at hnested
        obtain ⟨j, habove, -⟩ := hparsed.above
        have hendL : (s₁.aPos s.iPosFree).nEndL = stop := by rw [habove]
        unfold opened taken at hrun
        rw [hrun] at h
        dsimp only at h
        rw [hendL] at h
        rcases hfind : xFindChar szDoc stop '<' with ⟨nEndL, found⟩
        rw [hfind] at h
        cases found with
        | false => cases h
        | true =>
            obtain ⟨hstopL, hleft', -⟩ := xFindChar_spec hfind
            dsimp only at h
            rcases hend : endTag szDoc name fuel (nEndL + 1) 0 with _ | e | nEndR
            · rw [hend] at h
              cases h
            · rw [hend] at h
              cases h
            · rw [hend] at h
              obtain ⟨hltR, hright'⟩ := endTag_ends hend
              obtain ⟨rfl, rfl⟩ := Prod.mk.inj (Except.ok.inj (Option.some.inj h))
              have hlast : nEndR < szDoc.length := lt_of_peek hright' (by decide)
              refine .inr ⟨rfl, nEndR + 1, .node ⟨p, q, nEndL, nEndR⟩ ts,
                hparsed.elemParsed hpos fun _ => rfl, ?_, hlast⟩
              exact .full (l := ⟨p, q, nEndL, nEndR⟩) ⟨hle, hleft, hlt, hright⟩
                ⟨hleft', hltR, hright'⟩ (hnested.mono hstopL)

theorem innerNests (szDoc : List Char) (fuel : ℕ) : InnerNests szDoc fuel := by
  induction fuel using Nat.strong_induction_on with
  | _ fuel ih =>
      intro s s' iPos iInnerPrev hready h
      obtain _ | _ | fuel := fuel
      · cases h
      · cases h
      · have hinner := ih fuel (by omega)
        rcases helem : xParseElem szDoc (fuel + 1) iPos s with _ | e | ⟨i, s₁⟩
        · rw [xParseInner, helem] at h
          cases h
        · rw [xParseInner, helem] at h
          cases h
        · rcases parseElem_nests hinner hready.pos rfl helem with
            ⟨rfl, p, hle, hp, rfl⟩ | ⟨rfl, stop, t, hparsed, hspanned, hstop⟩
          · rw [xParseInner, helem] at h
            obtain rfl := Except.ok.inj (Option.some.inj h)
            exact ⟨p, [], innerParsed_nil hready p, .nil hle, hp⟩
          · have hne : s.iPosFree ≠ 0 := by
              have hpos := hready.pos
              omega
            rw [xParseInner_cons hne helem hready.pos.ne' hready.prev.ne', hparsed.stop] at h
            have hnext : ((advanced s₁ iPos iInnerPrev s.iPosFree stop).aPos iPos).nEndL =
                stop := by
              rw [advanced_pos fun hprev => (hready.next hprev).1]
            obtain ⟨last, ts, hin, hnested, hlast⟩ := ih (fuel + 1) (by omega) _ _ _ _
              (hparsed.ready hready) h
            rw [hnext] at hnested
            refine ⟨last, t :: ts, hparsed.cons ?_ hready hin, .cons hspanned hnested, hlast⟩
            exact fun _ _ _ hl => hl

/-! ## When the parser returns -/

theorem docType_returns {k : ℤ} (hfuel : szDoc.length - n < fuel) :
    docType szDoc fuel n k ≠ none := by
  induction fuel generalizing n k with
  | zero => exact absurd hfuel (Nat.not_lt_zero _)
  | succ fuel ih =>
      rw [docType]
      rcases htoken : xFindToken szDoc n with ⟨token, found⟩
      cases found with
      | false => exact Option.some_ne_none _
      | true =>
          obtain ⟨-, hnext, hlen, -⟩ := xFindToken_spec htoken
          have hless : szDoc.length - token.nNext < fuel := by omega
          dsimp only
          split
          next => exact ih hless
          next =>
            split
            next => exact ih hless
            next =>
              split
              next => exact ih hless
              next =>
                split
                next => exact Option.some_ne_none _
                next => exact ih hless

theorem xParseNode_returns (hfuel : szDoc.length - n < fuel) : xParseNode szDoc fuel n ≠ none := by
  rw [xParseNode]
  split
  next => exact Option.some_ne_none _
  next =>
    split
    next => exact Option.some_ne_none _
    next =>
      split
      next =>
        split
        next => exact Option.some_ne_none _
        next =>
          split
          next => exact Option.some_ne_none _
          next => exact docType_returns hfuel
      next => split <;> exact Option.some_ne_none _

theorem startTag_returns (hgap : NoGap szDoc) (hn : n ≤ szDoc.length)
    (hfuel : szDoc.length - n + 1 < fuel) : startTag szDoc fuel n ≠ none := by
  induction fuel generalizing n with
  | zero => exact absurd hfuel (Nat.not_lt_zero _)
  | succ fuel ih =>
      rcases startTag_turn szDoc n fuel with ⟨r, hrun, -⟩ | ⟨m, -, hlen, hrun, hless⟩ |
        ⟨-, m, hle, hlen, hnode⟩
      · rw [hrun]
        exact Option.some_ne_none _
      · have hlt := hless hgap
        rw [hrun]
        exact ih hlen (by omega)
      · exact absurd hnode (xParseNode_returns (by omega))

theorem endTag_returns {k : ℕ} (hfuel : szDoc.length - n < fuel) :
    endTag szDoc strName fuel n k ≠ none := by
  induction fuel generalizing n k with
  | zero => exact absurd hfuel (Nat.not_lt_zero _)
  | succ fuel ih =>
      rw [endTag]
      rcases htoken : xFindToken szDoc n with ⟨token, found⟩
      cases found with
      | false => exact Option.some_ne_none _
      | true =>
          obtain ⟨-, hnext, hlen, -⟩ := xFindToken_spec htoken
          have hless : szDoc.length - token.nNext < fuel := by omega
          dsimp only
          split
          next => exact ih hless
          next =>
            split
            next => exact Option.some_ne_none _
            next =>
              split
              next => exact Option.some_ne_none _
              next =>
                split
                next => split <;> exact Option.some_ne_none _
                next => exact ih hless

theorem parse_returns (hgap : NoGap szDoc) (fuel : ℕ) :
    (∀ (s : Positions) (iPosParent : ℕ), iPosParent < s.iPosFree →
      (s.aPos iPosParent).nEndL ≤ szDoc.length →
      2 * (szDoc.length - (s.aPos iPosParent).nEndL) + 3 ≤ fuel →
      xParseElem szDoc fuel iPosParent s ≠ none) ∧
    ∀ (s : Positions) (iPos iInnerPrev : ℕ), Ready s iPos iInnerPrev →
      (s.aPos iPos).nEndL ≤ szDoc.length → 2 * (szDoc.length - (s.aPos iPos).nEndL) + 4 ≤ fuel →
      xParseInner szDoc fuel iPos iInnerPrev s ≠ none := by
  induction fuel with
  | zero =>
      refine ⟨?_, ?_⟩
      · intro s iPosParent _ _ hfuel
        omega
      · intro s iPos iInnerPrev _ _ hfuel
        omega
  | succ fuel ih =>
      obtain ⟨ihelem, ihinner⟩ := ih
      refine ⟨?_, ?_⟩
      · intro s iPosParent hpos hlen hfuel
        rw [xParseElem]
        rcases hstart : startTag szDoc fuel (s.aPos iPosParent).nEndL with _ | e | p | ⟨p, name, q⟩
        · exact absurd hstart (startTag_returns hgap hlen (by omega))
        · exact Option.some_ne_none _
        · exact Option.some_ne_none _
        · obtain ⟨hle, hleft, hlt, hright, -⟩ := startTag_ends hstart
          have hq : q < szDoc.length := lt_of_peek hright (by decide)
          dsimp only
          split
          next => exact Option.some_ne_none _
          next =>
            have hopened : ((opened s iPosParent p q).aPos s.iPosFree).nEndL = q + 1 := by
              rw [opened, Positions.modify_self]
            rcases hrun : xParseInner szDoc fuel s.iPosFree 0 (opened s iPosParent p q) with
              _ | e | s₁
            · refine absurd hrun (ihinner _ _ _ (ready_opened s _ _ _) (hopened.trans_le hq) ?_)
              rw [hopened]
              omega
            · unfold opened taken at hrun
              rw [hrun]
              exact Option.some_ne_none _
            · obtain ⟨stop, ts, hparsed, hnested, -⟩ := innerNests szDoc fuel _ _ _ _
                (ready_opened s _ _ _) hrun
              have hstop := hnested.le
              rw [hopened] at hstop
              obtain ⟨j, habove, -⟩ := hparsed.above
              have hendL : (s₁.aPos s.iPosFree).nEndL = stop := by rw [habove]
              unfold opened taken at hrun
              rw [hrun]
              dsimp only
              rw [hendL]
              rcases hfind : xFindChar szDoc stop '<' with ⟨nEndL, found⟩
              cases found with
              | false => exact Option.some_ne_none _
              | true =>
                  have hle' := (xFindChar_spec hfind).1
                  dsimp only
                  rcases hend : endTag szDoc name fuel (nEndL + 1) 0 with _ | e | nEndR
                  · exact absurd hend (endTag_returns (by omega))
                  · exact Option.some_ne_none _
                  · exact Option.some_ne_none _
      · intro s iPos iInnerPrev hready hlen hfuel
        obtain _ | fuel := fuel
        · omega
        · rcases helem : xParseElem szDoc (fuel + 1) iPos s with _ | e | ⟨i, s₁⟩
          · exact absurd helem (ihelem s iPos hready.pos hlen (by omega))
          · rw [xParseInner, helem]
            exact Option.some_ne_none _
          · rcases parseElem_nests (innerNests _ _) hready.pos rfl helem with
              ⟨rfl, -⟩ | ⟨rfl, stop, t, hparsed, hspanned, hstop⟩
            · rw [xParseInner, helem]
              exact Option.some_ne_none _
            · have hne : s.iPosFree ≠ 0 := by
                have hpos := hready.pos
                omega
              have hnext : ((advanced s₁ iPos iInnerPrev s.iPosFree stop).aPos iPos).nEndL =
                  stop := by
                rw [advanced_pos fun hprev => (hready.next hprev).1]
              have hless : (s.aPos iPos).nEndL < stop := hspanned.lt
              rw [xParseInner_cons hne helem hready.pos.ne' hready.prev.ne', hparsed.stop]
              refine ihinner _ _ _ (hparsed.ready hready) (hnext.trans_le hstop) ?_
              rw [hnext]
              omega

/-- Whatever the text: where `SetDoc` accepts it, the positions are linked as a tree of
elements that lie inside each other in the text. -/
theorem setDoc_nested (fuel : ℕ) (aPos : ℕ → ElemPos) (szDoc : List Char) (m : Markup)
    (h : Markup.setDoc fuel aPos szDoc = some (.accepted m)) :
    ∃ stop t, Linked (links m.aPos) (fun i => Spans (m.aPos i)) 0 (m.aPos 0).iElemChild [t] ∧
      Spanned m.strDoc 0 stop t ∧ stop ≤ m.strDoc.length := by
  rw [Markup.setDoc] at h
  dsimp only at h
  split at h
  next => cases h
  next =>
    obtain _ | fuel := fuel
    · cases h
    · have hclear : Function.update aPos 0 ElemPos.clear 0 = .clear := Function.update_self _ _ _
      rcases helem : xParseElem (szDoc.takeWhile fun c => !isNul c) (fuel + 1) 0
        ⟨Function.update aPos 0 .clear, 1⟩ with _ | ⟨_ | _⟩ | ⟨i, s'⟩
      · rw [helem] at h
        cases h
      · rw [helem] at h
        cases h
      · rw [helem] at h
        cases h
      · rcases parseElem_nests (innerNests _ _) Nat.one_pos (congrArg ElemPos.nEndL hclear)
          helem with
          ⟨rfl, -⟩ | ⟨rfl, stop, t, hparsed, hspanned, hstop⟩
        · rw [helem] at h
          cases h
        · rw [helem] at h
          obtain rfl := DocResult.accepted.inj (Option.some.inj h)
          exact ⟨stop, t, (hparsed.root rfl (congrArg ElemPos.iElemParent hclear)).2, hspanned,
            hstop⟩

/-- Whatever the text: where it has no gap, `SetDoc` comes to an end. -/
theorem setDoc_ends (fuel : ℕ) (aPos : ℕ → ElemPos) (szDoc : List Char)
    (hgap : NoGap (szDoc.takeWhile fun c => !isNul c)) (hfuel : 2 * szDoc.length + 4 ≤ fuel) :
    Markup.setDoc fuel aPos szDoc ≠ none := by
  have hlen := (List.takeWhile_prefix (l := szDoc) fun c => !isNul c).length_le
  have hclear : Function.update aPos 0 ElemPos.clear 0 = .clear := Function.update_self _ _ _
  have hstart : (Function.update aPos 0 ElemPos.clear 0).nEndL = 0 :=
    congrArg ElemPos.nEndL hclear
  have hreturns := (parse_returns hgap fuel).1 ⟨Function.update aPos 0 .clear, 1⟩ 0 Nat.one_pos
    (hstart.trans_le (Nat.zero_le _)) (by rw [hstart]; omega)
  rw [Markup.setDoc]
  dsimp only
  split
  next => exact Option.some_ne_none _
  next =>
    split
    next hnone => exact absurd hnone hreturns
    next => exact Option.some_ne_none _
    next => exact Option.some_ne_none _
    next => exact Option.some_ne_none _
    next => exact Option.some_ne_none _

/-! ## Where it hangs -/

/-- At an angle bracket with a gap behind it, the search for a start tag stays where it is. -/
theorem startTag_gap {a t : List Char} {sp : Space} (hsp : sp.chars ≠ []) (hc : c = '?' ∨ c = '!')
    (ha : ∀ x ∈ a, ¬isNul x ∧ x ≠ '<') (h : Lies szDoc n (a ++ '<' :: (sp.chars ++ c :: t))) :
    startTag szDoc fuel n = none := by
  induction fuel generalizing n a with
  | zero => rfl
  | succ fuel ih =>
      have hkind : isSpecial c ∧ ¬isSpace c ∧ ¬isNul c := by
        rcases hc with rfl | rfl <;> decide
      obtain ⟨x, xs, hx⟩ := List.exists_cons_of_ne_nil hsp
      have hxspace : isSpace x := sp.space x (by rw [hx]; exact List.mem_cons_self)
      have hfind := xFindChar_eq h ha (by decide)
      have htoken := xFindToken_special sp h.append.cons hkind.1 hkind.2.1
      have hpeek := peek_eq h.append.cons.append
      have hfirst : peek szDoc (n + a.length + 1) = x := by
        have hcons := h.append.cons
        rw [hx, List.cons_append] at hcons
        exact peek_eq hcons
      have hsecond : ¬isNul (peek szDoc (n + a.length + 2)) := by
        have hcons := h.append.cons
        rw [hx, List.cons_append] at hcons
        cases xs with
        | nil =>
            rw [peek_eq (c := c) hcons.cons]
            exact hkind.2.2
        | cons y ys =>
            rw [peek_eq (c := y) hcons.cons]
            refine not_isNul_of_isSpace (sp.space y ?_)
            rw [hx]
            exact List.mem_cons_of_mem _ List.mem_cons_self
      have hother : x ≠ '?' ∧ x ≠ '!' ∧ x ≠ '/' := by
        refine ⟨?_, ?_, ?_⟩ <;> rintro rfl <;> exact absurd hxspace (by decide)
      have hnode : xParseNode szDoc fuel (n + a.length) = some (some (n + a.length)) := by
        have hnul : ¬(isNul x || isNul (peek szDoc (n + a.length + 2))) = true := by
          simp [not_isNul_of_isSpace hxspace, hsecond]
        rw [xParseNode, hfirst, if_neg hnul, if_neg hother.1, if_neg hother.2.1, if_neg hother.2.2]
      have hagain : Lies szDoc (n + a.length) ([] ++ '<' :: (sp.chars ++ c :: t)) := h.append
      rw [startTag, hfind]
      dsimp only
      rw [htoken]
      dsimp only
      rw [if_neg (by decide), hpeek, if_pos hc, hnode]
      exact ih (by simp) hagain

/-- Where white space stands between the first left angle bracket of a text and a question or
exclamation mark, `SetDoc` never returns. -/
theorem setDoc_hangs (aPos : ℕ → ElemPos) (a t : List Char) (sp : Space) (c : Char)
    (hsp : sp.chars ≠ []) (hc : c = '?' ∨ c = '!') (ha : ∀ x ∈ a, ¬isNul x ∧ x ≠ '<')
    (fuel : ℕ) : Markup.setDoc fuel aPos (a ++ '<' :: (sp.chars ++ c :: t)) = none := by
  have hc' : ¬isNul c := by
    rcases hc with rfl | rfl <;> decide
  have htext : ((a ++ '<' :: (sp.chars ++ c :: t)).takeWhile fun x => !isNul x) =
      a ++ '<' :: (sp.chars ++ c :: t.takeWhile fun x => !isNul x) := by
    rw [List.takeWhile_append_of_pos, List.takeWhile_cons_of_pos, List.takeWhile_append_of_pos,
      List.takeWhile_cons_of_pos]
    · simpa using hc'
    · intro x hx
      simpa using not_isNul_of_isSpace (sp.space x hx)
    · decide
    · intro x hx
      simpa using (ha x hx).1
  have hclear : Function.update aPos 0 ElemPos.clear 0 = .clear := Function.update_self _ _ _
  have hstart : (Function.update aPos 0 ElemPos.clear 0).nEndL = 0 :=
    congrArg ElemPos.nEndL hclear
  rw [Markup.setDoc, htext]
  dsimp only
  rw [if_neg (by simp)]
  cases fuel with
  | zero => rfl
  | succ fuel => rw [xParseElem, hstart, startTag_gap hsp hc ha (lies_zero _)]

theorem setDoc_hangs_declaration :
    Markup.setDoc 100 (fun _ => .clear) "< ?xml ?>".toList = none :=
  setDoc_hangs (fun _ => .clear) [] "xml ?>".toList ⟨[' '], by simp [isSpace]⟩ '?' (by simp) (.inl rfl)
    (by simp) 100

end Spp.Xml
