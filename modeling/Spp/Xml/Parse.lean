import Spp.Xml.Positions
import Spp.Xml.Tokens

/-!
# Parsing a document

The positions the parser makes for a document are linked as the tree of the document is, and
each is where the start tag of its element is.

## Main results

* `parse_elem`, `parse_inner` — one element, and what lies between two tags.
* `setDoc_render` — a document.
-/

namespace Spp.Xml

open Scan Forest

/-- The start tag that a position is for. -/
def Tagged (szDoc : List Char) (pos : ElemPos) (l : Label) : Prop :=
  ∃ name attrs sp b t,
    Lies szDoc (pos.nStartL + 1) (renderTag name attrs sp ++ (slash b ++ '>' :: t)) ∧
      l = label name attrs

/-- What a position shows of the document. -/
def Shows (szDoc : List Char) (aPos : ℕ → ElemPos) (i : ℕ) : Label → Prop := Tagged szDoc (aPos i)

variable {szDoc t : List Char} {s s₁ s' : Positions} {iPos iPosParent iInnerPrev n stop fuel : ℕ}

/-- The parser makes the tree of the element, whatever lies behind it. -/
def ElemParses (e : Elem) : Prop :=
  ∀ (szDoc t : List Char) (s : Positions) (iPosParent n fuel : ℕ) (filler : List Misc),
    2 * ((renderFiller filler).length + e.render.length) ≤ fuel → iPosParent < s.iPosFree →
    (s.aPos iPosParent).nEndL = n → Lies szDoc n (renderFiller filler ++ (e.render ++ t)) →
    ∃ s', xParseElem szDoc fuel iPosParent s = some (.ok (s.iPosFree, s')) ∧
      ElemParsed (Tagged szDoc) s s' iPosParent
        (n + (renderFiller filler).length + e.render.length) e.tree

/-- The parser makes the trees of what is inside, up to an end tag. -/
def InnerParses (inner : Inner) : Prop :=
  ∀ (szDoc t : List Char) (s : Positions) (iPos iInnerPrev n fuel : ℕ),
    2 * inner.render.length + 4 ≤ fuel → Ready s iPos iInnerPrev → (s.aPos iPos).nEndL = n →
    Lies szDoc n (inner.render ++ '<' :: '/' :: t) →
    ∃ s', xParseInner szDoc fuel iPos iInnerPrev s = some (.ok s') ∧
      InnerParsed (Tagged szDoc) s s' iPos iInnerPrev (n + inner.render.length) inner.trees

/-- At an end tag, nothing is inside any more. -/
theorem parse_done (filler : List Misc) : InnerParses (.done filler) := by
  intro szDoc t s iPos iInnerPrev n fuel hfuel hready hn h
  rw [Inner.render] at hfuel h ⊢
  obtain ⟨fuel, rfl⟩ : ∃ fuel₀, fuel = fuel₀ + 2 := ⟨fuel - 2, by omega⟩
  have hstart : startTag szDoc fuel n = some (.release (n + (renderFiller filler).length)) := by
    have hless : (renderFiller filler).length + 1 ≤ fuel := by omega
    obtain ⟨fuel', m, a, hk, heq, ha, hm, hlen⟩ :=
      startTag_renderFiller (a := []) filler hless (by simp) h
    obtain ⟨fuel', rfl⟩ : ∃ fuel₀, fuel' = fuel₀ + 1 := ⟨fuel' - 1, by omega⟩
    rw [List.length_nil, Nat.add_zero] at hlen
    rw [heq, startTag_close ha hm, hlen]
  exact ⟨_, xParseInner_nil hn hstart, innerParsed_nil hready _⟩

section
variable {filler : List Misc} {name : Name} {attrs : List Attr} {sp : Space} {b : Bool}

theorem startTag_found (hfuel : (renderFiller filler).length + 1 ≤ fuel)
    (h : Lies szDoc n (renderFiller filler ++
      '<' :: (renderTag name attrs sp ++ (slash b ++ '>' :: t)))) :
    startTag szDoc fuel n = some (.found (n + (renderFiller filler).length) name.chars
      (n + (renderFiller filler).length + 1 + (renderTag name attrs sp ++ slash b).length)) := by
  obtain ⟨fuel', m, a, hk, heq, ha, hm, hlen⟩ :=
    startTag_renderFiller (a := []) filler hfuel (by simp) h
  obtain ⟨fuel', rfl⟩ : ∃ fuel₀, fuel' = fuel₀ + 1 := ⟨fuel' - 1, by omega⟩
  rw [List.length_nil, Nat.add_zero] at hlen
  rw [heq, startTag_open ha hm, hlen]

/-- The character in front of a tag's end says whether the element is empty. -/
theorem peek_slash (h : Lies szDoc n (renderTag name attrs sp ++ (slash b ++ '>' :: t))) :
    peek szDoc (n + (renderTag name attrs sp ++ slash b).length - 1) = '/' ↔ b = true := by
  cases b with
  | true =>
      have hlast := peek_eq (c := '/') h.append
      have hlen : n + (renderTag name attrs sp ++ slash true).length - 1 =
          n + (renderTag name attrs sp).length := by
        rw [List.length_append, slash, if_pos rfl, List.length_singleton]
        omega
      rw [hlen, hlast]
      simp
  | false =>
      obtain ⟨a, c, hac, hc⟩ := renderTag_eq_snoc name attrs sp
      have hlies : Lies szDoc n (a ++ c :: ('>' :: t)) := by
        rw [hac, List.append_assoc] at h
        exact h
      have hlen : n + (renderTag name attrs sp ++ slash false).length - 1 = n + a.length := by
        rw [hac]
        simp only [slash, List.length_append, List.length_singleton, Bool.false_eq_true, if_false,
          List.length_nil]
        omega
      rw [hlen, peek_eq hlies.append]
      simpa using hc

/-- An element without content. -/
theorem parse_empty (name : Name) (attrs : List Attr) (sp : Space) :
    ElemParses (.empty name attrs sp) := by
  intro szDoc t s iPosParent n fuel filler hfuel hpos hn h
  have hlen : (Elem.empty name attrs sp).render.length = (renderTag name attrs sp).length + 3 := by
    simp [Elem.render]
  rw [hlen] at hfuel ⊢
  simp only [Elem.render, List.cons_append, List.append_assoc, List.nil_append] at h
  obtain ⟨fuel, rfl⟩ : ∃ fuel₀, fuel = fuel₀ + 1 := ⟨fuel - 1, by omega⟩
  have hstartFuel : (renderFiller filler).length + 1 ≤ fuel := by omega
  have hstart := startTag_found (b := true) hstartFuel h
  have htag : Lies szDoc (n + (renderFiller filler).length + 1)
    (renderTag name attrs sp ++ (slash true ++ '>' :: t)) := h.append.cons
  have hslash := (peek_slash htag).mpr rfl
  have hstop : n + (renderFiller filler).length + 1 +
      (renderTag name attrs sp ++ slash true).length + 1 =
      n + (renderFiller filler).length + ((renderTag name attrs sp).length + 3) := by
    simp only [slash, List.length_append, List.length_singleton, if_true]
    omega
  refine ⟨_, xParseElem_empty hn hstart hslash, ?_⟩
  rw [← hstop]
  exact elemParsed_empty hpos ⟨name, attrs, sp, true, t, htag, rfl⟩

/-- An element with its end tag. -/
theorem parse_full (name : Name) (attrs : List Attr) (sp : Space) {inner : Inner} (close : Space)
    (hinner : InnerParses inner) : ElemParses (.full name attrs sp inner close) := by
  intro szDoc t s iPosParent n fuel filler hfuel hpos hn h
  have hlen : (Elem.full name attrs sp inner close).render.length =
      (renderTag name attrs sp).length + inner.render.length + name.chars.length +
        close.chars.length + 5 := by
    simp only [Elem.render, List.length_cons, List.length_append, List.length_nil]
    omega
  rw [hlen] at hfuel ⊢
  simp only [Elem.render, List.cons_append, List.append_assoc, List.nil_append] at h
  obtain ⟨fuel, rfl⟩ : ∃ fuel₀, fuel = fuel₀ + 1 := ⟨fuel - 1, by omega⟩
  have hstartFuel : (renderFiller filler).length + 1 ≤ fuel := by omega
  have hstart := startTag_found (b := false) hstartFuel h
  have htag : Lies szDoc (n + (renderFiller filler).length + 1) (renderTag name attrs sp ++
      (slash false ++ '>' :: (inner.render ++ '<' :: '/' ::
        (name.chars ++ (close.chars ++ '>' :: t))))) := h.append.cons
  have hslash : ¬_ = '/' := fun hslash => absurd ((peek_slash htag).mp hslash) (by decide)
  set m := n + (renderFiller filler).length with hm
  set nStartR := m + 1 + (renderTag name attrs sp ++ slash false).length with hstartR
  have hlies : Lies szDoc (nStartR + 1)
      (inner.render ++ '<' :: '/' :: (name.chars ++ (close.chars ++ '>' :: t))) := by
    rw [hstartR, List.length_append, ← Nat.add_assoc]
    exact htag.append.append.cons
  obtain ⟨s', hrun, hparsed⟩ := hinner szDoc _ (opened s iPosParent m nStartR) s.iPosFree 0
    (nStartR + 1) fuel (by omega) (ready_opened s _ _ _)
    (by rw [opened, Positions.modify_self]) hlies
  have hfind : xFindChar szDoc (s'.aPos s.iPosFree).nEndL '<' =
      (nStartR + 1 + inner.render.length, true) := by
    obtain ⟨i, habove, -⟩ := hparsed.above
    rw [habove]
    exact xFindChar_eq (a := []) hlies.append (by simp) (by decide)
  have hendFuel : 3 ≤ fuel := by omega
  have hend := endTag_eq hendFuel hlies.append.cons
  refine ⟨_, xParseElem_full hn hstart hslash hrun hfind hend, ?_⟩
  have hstop : nStartR + 1 + inner.render.length + 1 + 1 + name.chars.length + close.chars.length +
      1 = m + ((renderTag name attrs sp).length + inner.render.length + name.chars.length +
        close.chars.length + 5) := by
    simp only [hstartR, slash, List.length_append, Bool.false_eq_true, if_false, List.length_nil]
    omega
  rw [← hstop]
  exact hparsed.elemParsed hpos fun i => ⟨name, attrs, sp, false, _, htag, rfl⟩

end

theorem parse_cons (filler : List Misc) {e : Elem} {rest : Inner} (he : ElemParses e)
    (hrest : InnerParses rest) : InnerParses (.cons filler e rest) := by
  intro szDoc t s iPos iInnerPrev n fuel hfuel hready hn h
  have hlen : (Inner.cons filler e rest).render.length =
      (renderFiller filler).length + e.render.length + rest.render.length := by
    simp only [Inner.render, List.length_append]
    omega
  have hshort : 4 ≤ e.render.length := by
    cases e <;> simp [Elem.render, renderTag, Name.chars] <;> omega
  rw [hlen] at hfuel ⊢
  simp only [Inner.render, List.append_assoc] at h
  obtain ⟨fuel, rfl⟩ : ∃ fuel₀, fuel = fuel₀ + 1 := ⟨fuel - 1, by omega⟩
  obtain ⟨s₁, helem, hparsed⟩ :=
    he szDoc _ s iPos n fuel filler (by omega) hready.pos hn h
  have hne : s.iPosFree ≠ 0 := by
    have hpos := hready.pos
    omega
  have hstart : ((advanced s₁ iPos iInnerPrev s.iPosFree
      (n + (renderFiller filler).length + e.render.length)).aPos iPos).nEndL =
      n + (renderFiller filler).length + e.render.length := by
    rw [advanced_pos fun hprev => (hready.next hprev).1]
  obtain ⟨s', hrun, hin⟩ := hrest szDoc t _ iPos s.iPosFree _ fuel (by omega)
    (hparsed.ready hready) hstart h.append.append
  refine ⟨s', ?_, ?_⟩
  · rw [xParseInner_cons hne helem hready.pos.ne' hready.prev.ne', hparsed.stop]
    exact hrun
  · rw [← Nat.add_assoc, ← Nat.add_assoc]
    exact hparsed.cons (fun _ _ _ hl => hl) hready hin

/-! ## A document -/

mutual

theorem parse_elem : ∀ e : Elem, ElemParses e
  | .empty name attrs sp => parse_empty name attrs sp
  | .full name attrs sp inner close => parse_full name attrs sp close (parse_inner inner)

theorem parse_inner : ∀ inner : Inner, InnerParses inner
  | .done filler => parse_done filler
  | .cons filler e rest => parse_cons filler (parse_elem e) (parse_inner rest)

end

theorem MiscKind.not_isNul (kind : MiscKind) :
    (∀ c ∈ kind.opening, ¬isNul c) ∧ ∀ c ∈ kind.closing, ¬isNul c := by
  cases kind <;> simp [MiscKind.opening, MiscKind.closing, isNul]

theorem not_isNul_renderFiller {filler : List Misc} {c : Char} (hc : c ∈ renderFiller filler) :
    ¬isNul c := by
  obtain ⟨misc, -, hc⟩ := List.mem_flatMap.mp hc
  cases misc with
  | text cs hnul _ => exact hnul c hc
  | node kind cs hnul _ =>
      simp only [Misc.render, List.mem_append] at hc
      rcases hc with (hc | hc) | hc
      · exact kind.not_isNul.1 c hc
      · exact hnul c hc
      · exact kind.not_isNul.2 c hc

mutual

theorem Elem.not_isNul_render {c : Char} : ∀ e : Elem, c ∈ e.render → ¬isNul c
  | .empty name attrs sp, hc => by
      simp only [Elem.render, List.mem_cons, List.mem_append, List.not_mem_nil, or_false] at hc
      rcases hc with rfl | hc | rfl | rfl
      · decide
      · exact (mem_renderTag hc).1
      · decide
      · decide
  | .full name attrs sp inner close, hc => by
      simp only [Elem.render, List.mem_cons, List.mem_append, List.not_mem_nil, or_false] at hc
      rcases hc with rfl | hc | rfl | hc | rfl | rfl | hc | hc | rfl
      · decide
      · exact (mem_renderTag hc).1
      · decide
      · exact inner.not_isNul_render hc
      · decide
      · decide
      · exact name.nul c hc
      · exact not_isNul_of_isSpace (close.space c hc)
      · decide

theorem Inner.not_isNul_render {c : Char} : ∀ inner : Inner, c ∈ inner.render → ¬isNul c
  | .done filler, hc => not_isNul_renderFiller hc
  | .cons filler e rest, hc => by
      rw [Inner.render, List.mem_append, List.mem_append] at hc
      rcases hc with hc | hc | hc
      · exact not_isNul_renderFiller hc
      · exact e.not_isNul_render hc
      · exact rest.not_isNul_render hc

end

/-- What `SetDoc` keeps of a document: it ends at its first null byte. -/
def Document.text (d : Document) : List Char :=
  renderFiller d.prolog ++ (d.root.render ++ d.rest.takeWhile fun c => !isNul c)

theorem Document.takeWhile_render (d : Document) :
    (d.render.takeWhile fun c => !isNul c) = d.text := by
  rw [render, List.takeWhile_append_of_pos, List.takeWhile_append_of_pos, text]
  · intro c hc
    simpa using d.root.not_isNul_render hc
  · intro c hc
    simpa using not_isNul_renderFiller hc

theorem Document.text_length_le (d : Document) : d.text.length ≤ d.render.length := by
  rw [← d.takeWhile_render]
  exact (List.takeWhile_prefix _).length_le

/-- The positions that `SetDoc` makes for a document. -/
theorem setDoc_render (d : Document) (aPos : ℕ → ElemPos) (hfuel : 2 * d.render.length ≤ fuel) :
    ∃ aPos', Markup.setDoc fuel aPos d.render = some (.accepted ⟨d.text, aPos', 0, 0, 0⟩) ∧
      (aPos' 0).iElemParent = 0 ∧
      Linked (links aPos') (Shows d.text aPos') 0 (aPos' 0).iElemChild [d.root.tree] := by
  have hlen : (renderFiller d.prolog).length + d.root.render.length ≤ d.render.length := by
    simp only [Document.render, List.length_append]
    omega
  have hne : d.text ≠ [] := by
    intro hnil
    have hroot : d.root.render = [] := by
      simp only [Document.text, List.append_eq_nil_iff] at hnil
      exact hnil.2.1
    cases hd : d.root <;> rw [hd] at hroot <;> simp [Elem.render] at hroot
  have hclear : Function.update aPos 0 ElemPos.clear 0 = .clear := Function.update_self _ _ _
  obtain ⟨s', hrun, hparsed⟩ := parse_elem d.root d.text _
    ⟨Function.update aPos 0 .clear, 1⟩ 0 0 fuel d.prolog (by omega) Nat.one_pos
    (congrArg ElemPos.nEndL hclear) (lies_zero _)
  refine ⟨_, ?_, hparsed.root rfl (congrArg ElemPos.iElemParent hclear)⟩
  rw [Markup.setDoc, d.takeWhile_render]
  dsimp only
  rw [if_neg hne, hrun]

end Spp.Xml
