import Spp.Xml.Accepted
import Spp.Xml.Parse

/-!
# Errors with a name

`x_ParseError` writes an error about an end tag, with the name of the element, into a buffer of
300 bytes.  A name that is long enough is written behind the end of the buffer.

## Main definitions

* `LongName` — a tag with a long name.

## Main results

* `xParseError_eq_overflow` — how long a name may be.
* `setDoc_overflow` — no buffer overflows without a long name.
* `setDoc_total` — what `SetDoc` does with any text.
* `setDoc_overflows` — an element with a long name and another end tag.
-/

namespace Spp.Xml

open Scan Forest

variable {szDoc t : List Char} {n fuel : ℕ}

/-! ## The buffer -/

theorem formatName_plain {a : List Char} (szName : List Char) (ha : '%' ∉ a) :
    formatName a szName = a := by
  induction a with
  | nil => rfl
  | cons c a ih =>
      have hc : c ≠ '%' := fun h => ha (h ▸ List.mem_cons_self)
      rw [formatName, ih fun h => ha (List.mem_cons_of_mem _ h)]
      exact fun _ h => absurd h hc

/-- The name goes where the `%s` is. -/
theorem formatName_append {a b : List Char} (szName : List Char) (ha : '%' ∉ a) (hb : '%' ∉ b) :
    formatName (a ++ '%' :: 's' :: b) szName = a ++ (szName ++ b) := by
  induction a with
  | nil => rw [List.nil_append, formatName, formatName_plain szName hb, List.nil_append]
  | cons c a ih =>
      have hc : c ≠ '%' := fun h => ha (h ▸ List.mem_cons_self)
      rw [List.cons_append, formatName, ih fun h => ha (List.mem_cons_of_mem _ h),
        List.cons_append]
      exact fun _ h => absurd h hc

/-- The buffer overflows with a name of more than `k` characters, if the format has `299 - k`
others. -/
theorem xParseError_eq_overflow {szError : String} (a b : List Char) (k : ℕ) (szName : List Char)
    (h : szError.toList = a ++ '%' :: 's' :: b ∧ '%' ∉ a ∧ '%' ∉ b ∧
      a.length + b.length + k = 299) :
    xParseError szError (some szName) = .overflow ↔ k < szName.length := by
  obtain ⟨heq, ha, hb, hlen⟩ := h
  rw [xParseError, heq, formatName_append szName ha hb]
  simp only [List.length_append]
  split
  · next hfits =>
    simp only [reduceCtorEq, false_iff, not_lt]
    omega
  · next hlong =>
    simp only [true_iff]
    omega

section
variable {strName : List Char}

theorem lt_of_endTagNotFound
    (h : xParseError "End tag of %s element not found" (some strName) = .overflow) :
    265 < strName.length := by
  rw [xParseError_eq_overflow "End tag of ".toList " element not found".toList 270 strName
    (by decide)] at h
  omega

theorem endTagDoesNotCorrespond_eq_overflow :
    xParseError "End tag does not correspond to %s" (some strName) = .overflow ↔
      268 < strName.length :=
  xParseError_eq_overflow "End tag does not correspond to ".toList [] 268 strName (by decide)

/-- An end tag makes the buffer overflow with a long name only. -/
theorem endTag_overflow {k : ℕ} (h : endTag szDoc strName fuel n k = some (.error .overflow)) :
    265 < strName.length := by
  have hcompleted :
      xParseError "End tag not completed for element %s" (some strName) = .overflow →
        265 < strName.length :=
    (xParseError_eq_overflow "End tag not completed for element ".toList [] 265 strName
      (by decide)).mp
  induction fuel generalizing n k with
  | zero => cases h
  | succ fuel ih =>
      rw [endTag] at h
      rcases htoken : xFindToken szDoc n with ⟨token, found⟩
      rw [htoken] at h
      cases found with
      | false => exact hcompleted (Except.error.inj (Option.some.inj h))
      | true =>
          dsimp only at h
          split at h
          next => exact ih h
          next =>
            split at h
            next =>
              have hlong := (xParseError_eq_overflow "Expecting end tag of element ".toList [] 270
                strName (by decide)).mp (Except.error.inj (Option.some.inj h))
              omega
            next =>
              split at h
              next =>
                have hlong := endTagDoesNotCorrespond_eq_overflow.mp
                  (Except.error.inj (Option.some.inj h))
                omega
              next =>
                split at h
                next =>
                  split at h
                  next => exact hcompleted (Except.error.inj (Option.some.inj h))
                  next => cases h
                next => exact ih h

end

/-! ## Where nothing overflows -/

/-- A tag of the text has a name of more than 265 characters. -/
def LongName (szDoc : List Char) : Prop :=
  ∃ n, peek szDoc n = '<' ∧ 265 < (xGetToken szDoc (xFindToken szDoc (n + 1)).1).length

/-- The parser makes the buffer overflow with a long name only. -/
theorem parse_overflow (szDoc : List Char) (fuel : ℕ) :
    (∀ (s : Positions) (iPosParent : ℕ),
      xParseElem szDoc fuel iPosParent s = some (.error .overflow) → LongName szDoc) ∧
    ∀ (s : Positions) (iPos iInnerPrev : ℕ),
      xParseInner szDoc fuel iPos iInnerPrev s = some (.error .overflow) → LongName szDoc := by
  induction fuel with
  | zero =>
      constructor
      · intro s iPosParent h
        cases h
      · intro s iPos iInnerPrev h
        cases h
  | succ fuel ih =>
      obtain ⟨ihelem, ihinner⟩ := ih
      constructor
      · intro s iPosParent h
        rw [xParseElem] at h
        rcases hstart : startTag szDoc fuel (s.aPos iPosParent).nEndL with _ | e | p | ⟨p, name, q⟩
        · rw [hstart] at h
          cases h
        · rw [hstart] at h
          exact absurd (Except.error.inj (Option.some.inj h)) (startTag_ends hstart)
        · rw [hstart] at h
          cases h
        · obtain ⟨-, hleft, -, -, hname⟩ := startTag_ends hstart
          have hlong : 265 < name.length → LongName szDoc := fun hlen => ⟨p, hleft, hname ▸ hlen⟩
          rw [hstart] at h
          dsimp only at h
          split at h
          next => cases h
          next =>
            split at h
            next => cases h
            next hrun =>
              obtain rfl := Except.error.inj (Option.some.inj h)
              exact ihinner _ _ _ hrun
            next =>
              split at h
              next => exact hlong (lt_of_endTagNotFound (Except.error.inj (Option.some.inj h)))
              next =>
                split at h
                next => cases h
                next hend =>
                  obtain rfl := Except.error.inj (Option.some.inj h)
                  exact hlong (endTag_overflow hend)
                next => cases h
      · intro s iPos iInnerPrev h
        rw [xParseInner] at h
        split at h
        next => cases h
        next helem =>
          obtain rfl := Except.error.inj (Option.some.inj h)
          exact ihelem _ _ helem
        next => cases h
        next => exact ihinner _ _ _ h

/-- The buffer overflows with a long name only. -/
theorem setDoc_overflow (fuel : ℕ) (aPos : ℕ → ElemPos) (szDoc : List Char)
    (h : Markup.setDoc fuel aPos szDoc = some .overflow) :
    LongName (szDoc.takeWhile fun c => !isNul c) := by
  rw [Markup.setDoc] at h
  dsimp only at h
  split at h
  next => cases h
  next =>
    split at h
    next => cases h
    next => cases h
    next => cases h
    next => cases h
    next hrun => exact (parse_overflow _ fuel).1 _ _ hrun

/-! ## Where one does -/

/-- An end tag with another name. -/
theorem endTag_other {name : Name} {strName : List Char} {c : Char} (hfuel : 2 ≤ fuel)
    (h : Lies szDoc n ('/' :: (name.chars ++ c :: t))) (hc : isSpecial c)
    (hother : ¬name.chars <+: strName) :
    endTag szDoc strName fuel n 0 =
      some (.error (xParseError "End tag does not correspond to %s" (some strName))) := by
  obtain ⟨fuel, rfl⟩ : ∃ fuel₀, fuel = fuel₀ + 2 := ⟨fuel - 2, by omega⟩
  have hslash := xFindToken_special noSpace h (by decide) (by decide)
  have hsecond := xFindToken_name noSpace h.cons hc
  have hfirst : peek szDoc n = '/' := peek_eq h
  have hmatch : ¬TokenPos.matches
      ⟨n + 1, n + 1 + name.chars.length - 1, n + 1 + name.chars.length, false⟩ szDoc strName := by
    rw [matches_name h.cons]
    intro hboth
    have htake := of_decide_eq_true (Bool.and_eq_true_iff.mp hboth).1
    exact hother (htake ▸ List.take_prefix _ _)
  dsimp only [noSpace, List.length_nil] at hslash hsecond
  rw [Nat.add_zero] at hslash hsecond
  rw [endTag, hslash]
  dsimp only
  rw [if_neg (by decide), hfirst, if_neg (by simp), if_neg (by simp), if_neg (by decide), endTag,
    hsecond]
  dsimp only
  rw [if_neg (by decide), if_neg (by simp), if_pos ⟨rfl, hmatch⟩]

/-- An element with another end tag is an error. -/
theorem xParseElem_other {name other : Name} {s : Positions} {iPosParent : ℕ} (hfuel : 5 ≤ fuel)
    (hn : (s.aPos iPosParent).nEndL = n) (hother : ¬other.chars <+: name.chars)
    (h : Lies szDoc n
      ('<' :: (name.chars ++ '>' :: '<' :: '/' :: (other.chars ++ '>' :: t)))) :
    xParseElem szDoc fuel iPosParent s =
      some (.error (xParseError "End tag does not correspond to %s" (some name.chars))) := by
  obtain ⟨fuel, rfl⟩ : ∃ fuel₀, fuel = fuel₀ + 1 := ⟨fuel - 1, by omega⟩
  have htag : Lies szDoc (n + 1) (renderTag name [] noSpace ++ (slash false ++ '>' :: '<' :: '/' ::
      (other.chars ++ '>' :: t))) := by
    simpa [renderTag, renderAttrs, noSpace, slash] using h.cons
  have hstart : startTag szDoc fuel n =
      some (.found n name.chars (n + 1 + name.chars.length)) := by
    have hfill : Lies szDoc n (renderFiller [] ++ '<' :: (renderTag name [] noSpace ++
        (slash false ++ '>' :: '<' :: '/' :: (other.chars ++ '>' :: t)))) := by
      simpa [renderFiller, renderTag, renderAttrs, noSpace, slash] using h
    have hless : (renderFiller []).length + 1 ≤ fuel := by
      simp only [renderFiller, List.flatMap_nil, List.length_nil]
      omega
    simpa [renderFiller, renderTag, renderAttrs, noSpace, slash] using startTag_found hless hfill
  have hslash : ¬peek szDoc (n + 1 + name.chars.length - 1) = '/' := by
    have hpeek := peek_slash htag
    simpa [renderTag, renderAttrs, noSpace, slash] using hpeek
  have hclose := h.cons.append.cons
  have hinner : Lies szDoc (n + 1 + name.chars.length + 1)
      ((Inner.done []).render ++ '<' :: '/' :: (other.chars ++ '>' :: t)) := by
    simpa [Inner.render, renderFiller] using hclose
  obtain ⟨s', hrun, hparsed⟩ := parse_done [] szDoc _
    (opened s iPosParent n (n + 1 + name.chars.length)) s.iPosFree 0 _ fuel
    (by simp only [Inner.render, renderFiller, List.flatMap_nil, List.length_nil]; omega)
    (ready_opened s _ _ _) (by rw [opened, Positions.modify_self]) hinner
  have hfind : xFindChar szDoc (s'.aPos s.iPosFree).nEndL '<' =
      (n + 1 + name.chars.length + 1, true) := by
    obtain ⟨i, habove, -⟩ := hparsed.above
    rw [habove]
    exact xFindChar_eq (a := []) hclose (by simp) (by decide)
  have hless : 2 ≤ fuel := by omega
  have hend := endTag_other hless hclose.cons (by decide) hother
  unfold opened taken at hrun
  rw [xParseElem, hn, hstart]
  dsimp only
  rw [if_neg hslash, hrun]
  dsimp only
  rw [hfind]
  dsimp only
  rw [hend]

/-- With a name of more than 268 characters, the buffer overflows. -/
theorem setDoc_overflows (aPos : ℕ → ElemPos) (name other : Name) (t : List Char)
    (hlong : 268 < name.chars.length) (hother : ¬other.chars <+: name.chars)
    (hfuel : 5 ≤ fuel) :
    Markup.setDoc fuel aPos
      ('<' :: (name.chars ++ '>' :: '<' :: '/' :: (other.chars ++ '>' :: t))) =
        some .overflow := by
  have htext : (('<' :: (name.chars ++ '>' :: '<' :: '/' :: (other.chars ++ '>' :: t))).takeWhile
      fun x => !isNul x) = '<' :: (name.chars ++ '>' :: '<' :: '/' :: (other.chars ++ '>' ::
        t.takeWhile fun x => !isNul x)) := by
    rw [List.takeWhile_cons_of_pos, List.takeWhile_append_of_pos, List.takeWhile_cons_of_pos,
      List.takeWhile_cons_of_pos, List.takeWhile_cons_of_pos, List.takeWhile_append_of_pos,
      List.takeWhile_cons_of_pos]
    · decide
    · intro x hx
      simpa using other.nul x hx
    · decide
    · decide
    · decide
    · intro x hx
      simpa using name.nul x hx
    · decide
  have hclear : Function.update aPos 0 ElemPos.clear 0 = .clear := Function.update_self _ _ _
  rw [Markup.setDoc, htext]
  dsimp only
  rw [if_neg (by simp), xParseElem_other hfuel (congrArg ElemPos.nEndL hclear) hother
    (lies_zero _), endTagDoesNotCorrespond_eq_overflow.mpr hlong]

/-! ## Any text -/

/-- A text without question and exclamation marks has no gap. -/
theorem noGap_of_plain (h : ∀ c ∈ szDoc, c ≠ '?' ∧ c ≠ '!') : NoGap szDoc := by
  intro n _ _ hmark
  have hmem : ∀ m c, peek szDoc m = c → ¬isNul c → c ∈ szDoc := by
    intro m c hpeek hc
    have hlt := lt_of_peek hpeek hc
    rw [← hpeek, peek, List.getD_eq_getElem _ _ hlt]
    exact List.getElem_mem hlt
  rcases hmark with hmark | hmark
  · exact absurd rfl (h _ (hmem _ _ hmark (by decide))).1
  · exact absurd rfl (h _ (hmem _ _ hmark (by decide))).2

/-- Whatever the text: where it has no gap, `SetDoc` returns, unless the buffer overflows, which
takes a long name; and what it accepts is nested. -/
theorem setDoc_total (fuel : ℕ) (aPos : ℕ → ElemPos) (szDoc : List Char)
    (hgap : NoGap (szDoc.takeWhile fun c => !isNul c)) (hfuel : 2 * szDoc.length + 4 ≤ fuel) :
    ∃ r, Markup.setDoc fuel aPos szDoc = some r ∧
      match r with
      | .accepted m => ∃ stop t,
          Linked (links m.aPos) (fun i => Spans (m.aPos i)) 0 (m.aPos 0).iElemChild [t] ∧
            Spanned m.strDoc 0 stop t ∧ stop ≤ m.strDoc.length
      | .refused _ _ => True
      | .overflow => LongName (szDoc.takeWhile fun c => !isNul c) := by
  rcases hrun : Markup.setDoc fuel aPos szDoc with _ | r
  · exact absurd hrun (setDoc_ends fuel aPos szDoc hgap hfuel)
  · refine ⟨r, rfl, ?_⟩
    cases r with
    | accepted m => exact setDoc_nested fuel aPos szDoc m hrun
    | refused strError m => trivial
    | overflow => exact setDoc_overflow fuel aPos szDoc hrun

/-- An element with a name of 300 characters and with another end tag. -/
theorem setDoc_total_long :
    let szDoc := '<' :: (List.replicate 300 'a' ++ ['>', '<', '/', 'b', '>'])
    Markup.setDoc 1000 (fun _ => .clear) szDoc = some .overflow ∧
      LongName (szDoc.takeWhile fun c => !isNul c) := by
  intro szDoc
  have hname : ∀ c ∈ List.replicate 300 'a', c = 'a' := fun c hc => List.eq_of_mem_replicate hc
  have htail : ∀ c ∈ ['>', '<', '/', 'b', '>'], c ≠ '?' ∧ c ≠ '!' := by simp
  let name : Name := ⟨'a', List.replicate 299 'a', fun c hc => hname c hc ▸ by decide,
    fun c hc => hname c hc ▸ by decide, by decide⟩
  let other : Name := ⟨'b', [], List.forall_mem_singleton.mpr (by decide),
    List.forall_mem_singleton.mpr (by decide), by decide⟩
  have hover : Markup.setDoc 1000 (fun _ => .clear) szDoc = some .overflow := by
    refine setDoc_overflows (fun _ => .clear) name other [] ?_ ?_ (by decide)
    · rw [Name.chars, List.length_cons, List.length_replicate]
      decide
    · intro hstart
      exact absurd (hname 'b' (hstart.subset List.mem_cons_self)) (by decide)
  have hplain : NoGap (szDoc.takeWhile fun c => !isNul c) := by
    refine noGap_of_plain fun c hc => ?_
    have hmem := (List.takeWhile_prefix _).subset hc
    rw [List.mem_cons, List.mem_append] at hmem
    rcases hmem with rfl | hmem | hmem
    · decide
    · rw [hname c hmem]
      decide
    · exact htail c hmem
  have hfuel : 2 * szDoc.length + 4 ≤ 1000 := by
    rw [List.length_cons, List.length_append, List.length_replicate]
    decide
  obtain ⟨r, hrun, hr⟩ := setDoc_total 1000 (fun _ => .clear) szDoc hplain hfuel
  rw [hover] at hrun
  obtain rfl := Option.some.inj hrun
  exact ⟨hover, hr⟩

end Spp.Xml
