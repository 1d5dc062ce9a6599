import Mathlib.Algebra.GroupWithZero.Nat
import Spp.Xml.Markup
import Spp.Lib.Forest

/-!
# The array of positions

The parser writes entries of the array from the first free one on.  In those before it, only
the end of the parent and the link of the element in front change.  So what has been parsed
stays linked as a tree.

## Main definitions

* `links` — the links between positions.
* `ElemParsed`, `InnerParsed` — what has come of parsing an element, and what lies inside one.

## Main results

* `elemParsed_empty`, `InnerParsed.elemParsed` — how an element is completed.
* `innerParsed_nil`, `ElemParsed.cons` — how what is inside is put together.
* `ElemParsed.root` — the first element becomes the root.
-/

namespace Spp.Xml

open Forest

/-- The links between positions. -/
def links (aPos : ℕ → ElemPos) : Links ℕ where
  parent := fun i => (aPos i).iElemParent
  child := fun i => (aPos i).iElemChild
  next := fun i => (aPos i).iElemNext

section
variable (aPos : ℕ → ElemPos) (i : ℕ)

@[simp] theorem links_parent : (links aPos).parent i = (aPos i).iElemParent := rfl
@[simp] theorem links_child : (links aPos).child i = (aPos i).iElemChild := rfl
@[simp] theorem links_next : (links aPos).next i = (aPos i).iElemNext := rfl

end

namespace Positions

variable (s : Positions) (i j : ℕ) (f : ElemPos → ElemPos)

@[simp] theorem modify_self : (s.modify i f).aPos i = f (s.aPos i) := Function.update_self _ _ _

@[simp] theorem modify_iPosFree : (s.modify i f).iPosFree = s.iPosFree := rfl

variable {i j} in
theorem modify_of_ne (h : j ≠ i) : (s.modify i f).aPos j = s.aPos j := Function.update_of_ne h _ _

end Positions

section
variable {L : Type*} (shows : ElemPos → L → Prop)

/-- A position that was made since `a` was free shows something. -/
def ShowsFrom (s : Positions) (a i : ℕ) (l : L) : Prop :=
  a ≤ i ∧ i < s.iPosFree ∧ shows (s.aPos i) l

/-- What has come of parsing an element. -/
structure ElemParsed (s s' : Positions) (iPosParent stop : ℕ) (t : Rose L) : Prop where
  free : s.iPosFree < s'.iPosFree
  label : shows (s'.aPos s.iPosFree) t.label
  parent : (s'.aPos s.iPosFree).iElemParent = iPosParent
  next : (s'.aPos s.iPosFree).iElemNext = 0
  kids : Linked (links s'.aPos) (ShowsFrom shows s' (s.iPosFree + 1)) s.iPosFree
    (s'.aPos s.iPosFree).iElemChild t.kids
  stop : (s'.aPos s.iPosFree).nEndR + 1 = stop
  above : ∃ n, s'.aPos iPosParent = { s.aPos iPosParent with nEndL := n }
  frame : ∀ j < s.iPosFree, j ≠ iPosParent → s'.aPos j = s.aPos j

/-- What has come of parsing what lies inside `iPos` behind `iInnerPrev`. -/
structure InnerParsed (s s' : Positions) (iPos iInnerPrev stop : ℕ) (ts : List (Rose L)) :
    Prop where
  free : s.iPosFree ≤ s'.iPosFree
  kids : Linked (links s'.aPos) (ShowsFrom shows s' s.iPosFree) iPos
    (if iInnerPrev = 0 then (s'.aPos iPos).iElemChild else (s'.aPos iInnerPrev).iElemNext) ts
  above : ∃ i, s'.aPos iPos = { s.aPos iPos with nEndL := stop, iElemChild := i } ∧
    (iInnerPrev ≠ 0 → i = (s.aPos iPos).iElemChild)
  prev : iInnerPrev ≠ 0 → ∃ i, s'.aPos iInnerPrev = { s.aPos iInnerPrev with iElemNext := i }
  frame : ∀ j < s.iPosFree, j ≠ iPos → (j = iInnerPrev → j = 0) → s'.aPos j = s.aPos j

end

/-- Before the first element inside there is no child yet, and behind an element no sibling. -/
structure Ready (s : Positions) (iPos iInnerPrev : ℕ) : Prop where
  pos : iPos < s.iPosFree
  prev : iInnerPrev < s.iPosFree
  child : iInnerPrev = 0 → (s.aPos iPos).iElemChild = 0
  next : iInnerPrev ≠ 0 → iInnerPrev ≠ iPos ∧ (s.aPos iInnerPrev).iElemNext = 0

variable {L : Type*} {shows : ElemPos → L → Prop} {szDoc : List Char} {s s₁ s' : Positions}
  {iPos iPosParent iInnerPrev n stop fuel : ℕ}

/-! ## One element -/

/-- An entry has been taken for a tag at `nStartL`. -/
def taken (s : Positions) (iPosParent nStartL : ℕ) : Positions :=
  { s.modify iPosParent fun pos => { pos with nEndL := nStartL } with iPosFree := s.iPosFree + 1 }

@[simp] theorem taken_iPosFree (s : Positions) (i n : ℕ) :
    (taken s i n).iPosFree = s.iPosFree + 1 := rfl

theorem taken_self (s : Positions) (i n : ℕ) :
    (taken s i n).aPos i = { s.aPos i with nEndL := n } := Function.update_self _ _ _

theorem taken_of_ne (s : Positions) {i j : ℕ} (n : ℕ) (h : j ≠ i) :
    (taken s i n).aPos j = s.aPos j := Function.update_of_ne h _ _

/-- An element without content. -/
theorem elemParsed_empty {nStartL nStartR : ℕ} {l : L} (hpos : iPosParent < s.iPosFree)
    (hl : shows ⟨nStartL, nStartR, nStartR - 1, nStartR, iPosParent, 0, 0⟩ l) :
    ElemParsed shows s ((taken s iPosParent nStartL).modify s.iPosFree fun _ =>
      ⟨nStartL, nStartR, nStartR - 1, nStartR, iPosParent, 0, 0⟩) iPosParent (nStartR + 1)
      (.node l []) := by
  constructor
  · exact Nat.lt_succ_self _
  · rwa [Positions.modify_self]
  · rw [Positions.modify_self]
  · rw [Positions.modify_self]
  · rw [Positions.modify_self]
    exact .nil _
  · rw [Positions.modify_self]
  · rw [Positions.modify_of_ne _ _ hpos.ne]
    exact ⟨_, taken_self s _ _⟩
  · intro j hj hjparent
    rw [Positions.modify_of_ne _ _ hj.ne]
    exact taken_of_ne s _ hjparent

theorem xParseElem_empty {strName : List Char} {nStartL nStartR : ℕ}
    (hn : (s.aPos iPosParent).nEndL = n)
    (hstart : startTag szDoc fuel n = some (.found nStartL strName nStartR))
    (hslash : peek szDoc (nStartR - 1) = '/') :
    xParseElem szDoc (fuel + 1) iPosParent s = some (.ok (s.iPosFree,
      (taken s iPosParent nStartL).modify s.iPosFree fun _ =>
        ⟨nStartL, nStartR, nStartR - 1, nStartR, iPosParent, 0, 0⟩)) := by
  rw [xParseElem, hn, hstart]
  dsimp only
  rw [if_pos hslash]
  rfl

/-- The entry of an element whose end is not known yet. -/
def opened (s : Positions) (iPosParent nStartL nStartR : ℕ) : Positions :=
  (taken s iPosParent nStartL).modify s.iPosFree fun pos =>
    ⟨nStartL, nStartR, nStartR + 1, pos.nEndR, iPosParent, 0, 0⟩

theorem xParseElem_full {strName : List Char} {nStartL nStartR nEndL nEndR : ℕ}
    (hn : (s.aPos iPosParent).nEndL = n)
    (hstart : startTag szDoc fuel n = some (.found nStartL strName nStartR))
    (hslash : ¬peek szDoc (nStartR - 1) = '/')
    (hrun : xParseInner szDoc fuel s.iPosFree 0 (opened s iPosParent nStartL nStartR) =
      some (.ok s'))
    (hfind : xFindChar szDoc (s'.aPos s.iPosFree).nEndL '<' = (nEndL, true))
    (hend : endTag szDoc strName fuel (nEndL + 1) 0 = some (.ok nEndR)) :
    xParseElem szDoc (fuel + 1) iPosParent s = some (.ok (s.iPosFree,
      s'.modify s.iPosFree fun pos => { pos with nEndL := nEndL, nEndR := nEndR })) := by
  unfold opened taken at hrun
  rw [xParseElem, hn, hstart]
  dsimp only
  rw [if_neg hslash, hrun]
  dsimp only
  rw [hfind]
  dsimp only
  rw [hend]

/-- Where the inside of an element has been parsed, its end completes it. -/
theorem InnerParsed.elemParsed {nStartL nStartR nEndL nEndR : ℕ} {l : L} {ts : List (Rose L)}
    (hparsed : InnerParsed shows (opened s iPosParent nStartL nStartR) s' s.iPosFree 0 stop ts)
    (hpos : iPosParent < s.iPosFree)
    (hl : ∀ i, shows ⟨nStartL, nStartR, nEndL, nEndR, iPosParent, i, 0⟩ l) :
    ElemParsed shows s
      (s'.modify s.iPosFree fun pos => { pos with nEndL := nEndL, nEndR := nEndR })
      iPosParent (nEndR + 1) (.node l ts) := by
  obtain ⟨i, habove, -⟩ := hparsed.above
  have hentry : ((opened s iPosParent nStartL nStartR).aPos s.iPosFree) =
      ⟨nStartL, nStartR, nStartR + 1, ((taken s iPosParent nStartL).aPos s.iPosFree).nEndR,
        iPosParent, 0, 0⟩ := Positions.modify_self _ _ _
  have hkids := hparsed.kids
  rw [if_pos rfl] at hkids
  rw [hentry] at habove
  constructor
  · exact hparsed.free
  · rw [Positions.modify_self, habove]
    exact hl i
  · rw [Positions.modify_self, habove]
  · rw [Positions.modify_self, habove]
  · rw [Positions.modify_self]
    refine hkids.mono ?_
    rintro j l ⟨hle, hlt, hshows⟩
    have hj : j ≠ s.iPosFree := by
      have hle' : s.iPosFree + 1 ≤ j := hle
      omega
    refine ⟨⟨hle, hlt, ?_⟩, ?_⟩
    · rwa [Positions.modify_of_ne _ _ hj]
    · simp only [links, Positions.modify_of_ne _ _ hj, and_self]
  · rw [Positions.modify_self]
  · have hne : iPosParent ≠ s.iPosFree := hpos.ne
    have hparent : s'.aPos iPosParent = (opened s iPosParent nStartL nStartR).aPos iPosParent :=
      hparsed.frame _ (Nat.lt_succ_of_lt hpos) hne id
    rw [Positions.modify_of_ne _ _ hne, hparent, opened, Positions.modify_of_ne _ _ hne]
    exact ⟨_, taken_self s _ _⟩
  · intro j hj hjparent
    have hother : s'.aPos j = (opened s iPosParent nStartL nStartR).aPos j :=
      hparsed.frame _ (Nat.lt_succ_of_lt hj) hj.ne id
    rw [Positions.modify_of_ne _ _ hj.ne, hother, opened, Positions.modify_of_ne _ _ hj.ne]
    exact taken_of_ne s _ hjparent

/-- In the entry of an element there is no child yet. -/
theorem ready_opened (s : Positions) (iPosParent nStartL nStartR : ℕ) :
    Ready (opened s iPosParent nStartL nStartR) s.iPosFree 0 := by
  refine ⟨Nat.lt_succ_self _, Nat.succ_pos _, fun _ => ?_, fun h => absurd rfl h⟩
  rw [opened, Positions.modify_self]

/-! ## What is inside an element -/

/-- At the end tag, nothing is inside any more. -/
theorem innerParsed_nil (hready : Ready s iPos iInnerPrev) (stop : ℕ) :
    InnerParsed shows s (s.modify iPos fun pos => { pos with nEndL := stop }) iPos iInnerPrev stop
      [] := by
  refine ⟨le_rfl, ?_, ⟨_, s.modify_self iPos _, fun _ => rfl⟩, ?_, ?_⟩
  · by_cases hprev : iInnerPrev = 0
    · rw [if_pos hprev, Positions.modify_self, hready.child hprev]
      exact .nil iPos
    · obtain ⟨hne, hnext⟩ := hready.next hprev
      rw [if_neg hprev, Positions.modify_of_ne _ _ hne, hnext]
      exact .nil iPos
  · intro hprev
    rw [Positions.modify_of_ne _ _ (hready.next hprev).1]
    exact ⟨_, rfl⟩
  · intro j _ hj _
    exact Positions.modify_of_ne _ _ hj

theorem xParseInner_nil {nStartL : ℕ} (hn : (s.aPos iPos).nEndL = n)
    (hstart : startTag szDoc fuel n = some (.release nStartL)) :
    xParseInner szDoc (fuel + 2) iPos iInnerPrev s =
      some (.ok (s.modify iPos fun pos => { pos with nEndL := nStartL })) := by
  rw [xParseInner, xParseElem, hn, hstart]

/-- The element `iInner` has been put behind `iInnerPrev`, or first, inside `iPos`. -/
def attached (s : Positions) (iPos iInnerPrev iInner : ℕ) : Positions :=
  if iInnerPrev ≠ 0 then s.modify iInnerPrev fun pos => { pos with iElemNext := iInner }
  else s.modify iPos fun pos => { pos with iElemChild := iInner }

/-- And the search for the next one begins at `nEndL`. -/
def advanced (s : Positions) (iPos iInnerPrev iInner nEndL : ℕ) : Positions :=
  (attached s iPos iInnerPrev iInner).modify iPos fun pos => { pos with nEndL := nEndL }

theorem attached_of_ne {iInner j : ℕ} (hpos : j ≠ iPos) (hprev : j = iInnerPrev → j = 0) :
    (attached s iPos iInnerPrev iInner).aPos j = s.aPos j := by
  rw [attached]
  split
  next hne => exact Positions.modify_of_ne _ _ fun h => hne (h ▸ hprev h)
  next => exact Positions.modify_of_ne _ _ hpos

theorem advanced_of_ne {iInner nEndL j : ℕ} (hpos : j ≠ iPos) (hprev : j = iInnerPrev → j = 0) :
    (advanced s iPos iInnerPrev iInner nEndL).aPos j = s.aPos j :=
  (Positions.modify_of_ne _ _ hpos).trans (attached_of_ne hpos hprev)

theorem advanced_pos {iInner nEndL : ℕ} (hne : iInnerPrev ≠ 0 → iInnerPrev ≠ iPos) :
    (advanced s iPos iInnerPrev iInner nEndL).aPos iPos = { s.aPos iPos with
      nEndL := nEndL
      iElemChild := if iInnerPrev = 0 then iInner else (s.aPos iPos).iElemChild } := by
  rw [advanced, Positions.modify_self, attached]
  by_cases hprev : iInnerPrev = 0
  · rw [if_neg (not_not.mpr hprev), if_pos hprev, Positions.modify_self]
  · rw [if_pos hprev, if_neg hprev, Positions.modify_of_ne _ _ (hne hprev).symm]

theorem advanced_prev {iInner nEndL : ℕ} (hprev : iInnerPrev ≠ 0) (hne : iInnerPrev ≠ iPos) :
    (advanced s iPos iInnerPrev iInner nEndL).aPos iInnerPrev =
      { s.aPos iInnerPrev with iElemNext := iInner } := by
  rw [advanced, Positions.modify_of_ne _ _ hne, attached, if_pos hprev, Positions.modify_self]

theorem advanced_iPosFree {iInner nEndL : ℕ} :
    (advanced s iPos iInnerPrev iInner nEndL).iPosFree = s.iPosFree := by
  rw [advanced, attached]
  split <;> rfl

theorem xParseInner_cons {i : ℕ} (hi : i ≠ 0)
    (helem : xParseElem szDoc fuel iPos s = some (.ok (i, s₁))) (hpos : i ≠ iPos)
    (hprev : i ≠ iInnerPrev) :
    xParseInner szDoc (fuel + 1) iPos iInnerPrev s =
      xParseInner szDoc fuel iPos i (advanced s₁ iPos iInnerPrev i ((s₁.aPos i).nEndR + 1)) := by
  obtain ⟨i, rfl⟩ : ∃ k, i = k + 1 := ⟨i - 1, by omega⟩
  rw [xParseInner, helem]
  dsimp only
  have hsame : (attached s₁ iPos iInnerPrev (i + 1)).aPos (i + 1) = s₁.aPos (i + 1) :=
    attached_of_ne hpos fun h => absurd h hprev
  rw [← hsame]
  rfl

/-- An element and what lies behind it. -/
theorem ElemParsed.cons {mid : ℕ} {u : Rose L} {ts : List (Rose L)}
    (hshows : ∀ pos l i, shows pos l → shows { pos with iElemNext := i } l)
    (helem : ElemParsed shows s s₁ iPos mid u) (hready : Ready s iPos iInnerPrev)
    (hin : InnerParsed shows (advanced s₁ iPos iInnerPrev s.iPosFree mid) s' iPos s.iPosFree
      stop ts) :
    InnerParsed shows s s' iPos iInnerPrev stop (u :: ts) := by
  have hfree := helem.free
  have hne : s.iPosFree ≠ 0 := by
    have hpos := hready.pos
    omega
  have hnePos : s.iPosFree ≠ iPos := hready.pos.ne'
  have hnePrev : s.iPosFree ≠ iInnerPrev := hready.prev.ne'
  have hprevPos : iInnerPrev ≠ 0 → iInnerPrev ≠ iPos := fun hprev => (hready.next hprev).1
  have hfree₃ : (advanced s₁ iPos iInnerPrev s.iPosFree mid).iPosFree = s₁.iPosFree :=
    advanced_iPosFree
  have hin_free := hin.free
  have hin_frame := hin.frame
  obtain ⟨i, habove, hchild⟩ := hin.above
  obtain ⟨i', hlast⟩ := hin.prev hne
  have hkids := hin.kids
  rw [hfree₃] at hin_free hin_frame hkids
  rw [advanced_pos hprevPos] at habove hchild
  rw [advanced_of_ne hnePos fun h => absurd h hnePrev] at hlast
  rw [if_neg hne] at hkids
  -- the entries made for the element stay as they are, but for the link of the first one
  have hsame : ∀ j, s.iPosFree + 1 ≤ j → j < s₁.iPosFree → s'.aPos j = s₁.aPos j := by
    intro j hle hlt
    have hj : j ≠ iPos := by
      have hpos := hready.pos
      omega
    have hjprev : j ≠ iInnerPrev := by
      have hprev := hready.prev
      omega
    rw [hin_frame j hlt hj fun h => by omega]
    exact advanced_of_ne hj fun h => absurd h hjprev
  have hprev_eq : iInnerPrev ≠ 0 →
      s'.aPos iInnerPrev = { s.aPos iInnerPrev with iElemNext := s.iPosFree } := by
    intro hprev
    have hback := helem.frame _ hready.prev (hprevPos hprev)
    rw [hin_frame _ (hready.prev.trans hfree) (hprevPos hprev) fun h => absurd h.symm hnePrev,
      advanced_prev hprev (hprevPos hprev), hback]
  obtain ⟨nEndL, hparent⟩ := helem.above
  rw [hparent] at habove hchild
  have hfirst : (if iInnerPrev = 0 then (s'.aPos iPos).iElemChild
      else (s'.aPos iInnerPrev).iElemNext) = s.iPosFree := by
    by_cases hprev : iInnerPrev = 0
    · rw [if_pos hprev, habove]
      rw [if_pos hprev] at hchild
      exact hchild hne
    · rw [if_neg hprev, hprev_eq hprev]
  constructor
  · exact hfree.le.trans hin_free
  · rw [hfirst]
    refine linked_cons hne ⟨le_rfl, hfree.trans_le hin_free, ?_⟩ ?_ ?_ ?_
    · rw [hlast]
      exact hshows _ _ _ helem.label
    · rw [links_parent, hlast]
      exact helem.parent
    · rw [links_child, hlast]
      refine helem.kids.mono ?_
      rintro j l ⟨hle, hlt, hl⟩
      refine ⟨⟨by omega, hlt.trans_le hin_free, ?_⟩, ?_⟩
      · rwa [hsame j hle hlt]
      · simp only [links, hsame j hle hlt, and_self]
    · refine hkids.mono ?_
      rintro j l ⟨hle, hlt, hl⟩
      exact ⟨⟨hfree.le.trans hle, hlt, hl⟩, rfl, rfl, rfl⟩
  · refine ⟨i, habove, ?_⟩
    intro hprev
    rw [if_neg hprev] at hchild
    exact hchild hne
  · exact fun hprev => ⟨_, hprev_eq hprev⟩
  · intro j hj hjpos hjprev
    rw [hin_frame j (hj.trans hfree) hjpos fun h => absurd h hj.ne,
      advanced_of_ne hjpos hjprev]
    exact helem.frame j hj hjpos

/-- For the next element, all is ready. -/
theorem ElemParsed.ready {mid : ℕ} {u : Rose L} (helem : ElemParsed shows s s₁ iPos mid u)
    (hready : Ready s iPos iInnerPrev) :
    Ready (advanced s₁ iPos iInnerPrev s.iPosFree mid) iPos s.iPosFree := by
  have hnePos : s.iPosFree ≠ iPos := hready.pos.ne'
  have hne : s.iPosFree ≠ 0 := by
    have hpos := hready.pos
    omega
  refine ⟨?_, ?_, fun h => absurd h hne, fun _ => ⟨hnePos, ?_⟩⟩
  · rw [advanced_iPosFree]
    exact hready.pos.trans helem.free
  · rw [advanced_iPosFree]
    exact helem.free
  · rw [advanced_of_ne hnePos fun h => absurd h hready.prev.ne']
    exact helem.next

/-! ## The root -/

/-- The first element becomes the root. -/
theorem ElemParsed.root {t : Rose L} (helem : ElemParsed shows s s' 0 stop t)
    (hfree : s.iPosFree = 1) (htop : (s.aPos 0).iElemParent = 0) :
    ((s'.modify 0 fun pos => { pos with iElemChild := 1 }).aPos 0).iElemParent = 0 ∧
      Linked (links (s'.modify 0 fun pos => { pos with iElemChild := 1 }).aPos)
        (fun i => shows ((s'.modify 0 fun pos => { pos with iElemChild := 1 }).aPos i)) 0
        ((s'.modify 0 fun pos => { pos with iElemChild := 1 }).aPos 0).iElemChild [t] := by
  obtain ⟨-, hlabel, hparent, hnext, hkids, -, ⟨n, habove⟩, -⟩ := helem
  rw [hfree] at hlabel hparent hnext hkids
  have hother : ∀ j, 1 ≤ j →
      (s'.modify 0 fun pos => { pos with iElemChild := 1 }).aPos j = s'.aPos j :=
    fun j hj => Positions.modify_of_ne _ _ (by omega)
  refine ⟨?_, ?_⟩
  · rw [Positions.modify_self, habove]
    exact htop
  · rw [Positions.modify_self]
    refine linked_cons Nat.one_ne_zero ?_ ?_ ?_ ?_
    · rwa [hother 1 le_rfl]
    · rwa [links_parent, hother 1 le_rfl]
    · rw [links_child, hother 1 le_rfl]
      refine hkids.mono ?_
      rintro j l ⟨hle, hlt, hl⟩
      have hj : 1 ≤ j := (Nat.le_add_left _ _).trans hle
      rw [links_parent, links_child, links_next, hother j hj]
      exact ⟨hl, rfl, rfl, rfl⟩
    · rw [links_next, hother 1 le_rfl, hnext]
      exact .nil 0

end Spp.Xml
