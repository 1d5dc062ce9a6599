import Mathlib.Algebra.GroupWithZero.Nat
import Spp.Lib.Rings
import Spp.Lib.Run

/-!
# The doubly linked list

`list.h` keeps lists as rings of `list_head` cells that lie inside other objects.  The calls
only move pointers; what a list holds is said by whoever uses it.  Here the calls are taken as
they are, pointer by pointer, and a client that keeps to their rules gets from them what the
lists themselves would answer.

## Main definitions

* `getNext`, `setNext`, … — one access through a pointer, which fails where `ok` says that no
  cell lies there.
* `listAdd`, `listDel`, `listMove`, `listSplice`, `listForEach`, … — the calls.
* `Op`, `step` — a client's calls on the cells.
* `Heads.step`, `Op.Legal` — what the calls mean for the lists, and the rules.
-/

namespace Spp.ListHead

open Rings

/-! ## The calls -/

variable {ι : Type} [DecidableEq ι] (ok : ι → Prop) [DecidablePred ok]

def getNext (m : Cells ι) (p : ι) : Option ι := if ok p then some (m.next p) else none

def getPrev (m : Cells ι) (p : ι) : Option ι := if ok p then some (m.prev p) else none

def setNext (m : Cells ι) (p v : ι) : Option (Cells ι) :=
  if ok p then some { m with next := Function.update m.next p v } else none

def setPrev (m : Cells ι) (p v : ι) : Option (Cells ι) :=
  if ok p then some { m with prev := Function.update m.prev p v } else none

/-- `INIT_LIST_HEAD`. -/
def initListHead (m : Cells ι) (ptr : ι) : Option (Cells ι) := do
  let m ← setNext ok m ptr ptr
  setPrev ok m ptr ptr

/-- `__list_add`. -/
def listAddBetween (m : Cells ι) (newe prev next : ι) : Option (Cells ι) := do
  let m ← setPrev ok m next newe
  let m ← setNext ok m newe next
  let m ← setPrev ok m newe prev
  setNext ok m prev newe

/-- `list_add`. -/
def listAdd (m : Cells ι) (newe head : ι) : Option (Cells ι) := do
  listAddBetween ok m newe head (← getNext ok m head)

/-- `list_add_tail`. -/
def listAddTail (m : Cells ι) (newe head : ι) : Option (Cells ι) := do
  listAddBetween ok m newe (← getPrev ok m head) head

/-- `__list_del`. -/
def listDelBetween (m : Cells ι) (prev next : ι) : Option (Cells ι) := do
  let m ← setPrev ok m next prev
  setNext ok m prev next

def listUnlink (m : Cells ι) (entry : ι) : Option (Cells ι) := do
  listDelBetween ok m (← getPrev ok m entry) (← getNext ok m entry)

/-- `list_del`. -/
def listDel [Zero ι] (m : Cells ι) (entry : ι) : Option (Cells ι) := do
  let m ← listUnlink ok m entry
  let m ← setNext ok m entry 0
  setPrev ok m entry 0

/-- `list_del_init`. -/
def listDelInit (m : Cells ι) (entry : ι) : Option (Cells ι) := do
  let m ← listUnlink ok m entry
  initListHead ok m entry

/-- `list_move`. -/
def listMove (m : Cells ι) (list head : ι) : Option (Cells ι) := do
  let m ← listUnlink ok m list
  listAdd ok m list head

/-- `list_move_tail`. -/
def listMoveTail (m : Cells ι) (list head : ι) : Option (Cells ι) := do
  let m ← listUnlink ok m list
  listAddTail ok m list head

/-- `list_empty`. -/
def listEmpty (m : Cells ι) (head : ι) : Option Bool := do
  return (← getNext ok m head) == head

/-- `__list_splice`. -/
def listSpliceNonempty (m : Cells ι) (list head : ι) : Option (Cells ι) := do
  let first ← getNext ok m list
  let last ← getPrev ok m list
  let at' ← getNext ok m head
  let m ← setPrev ok m first head
  let m ← setNext ok m head first
  let m ← setNext ok m last at'
  setPrev ok m at' last

/-- `list_splice`. -/
def listSplice (m : Cells ι) (list head : ι) : Option (Cells ι) := do
  if ← listEmpty ok m list then return m
  listSpliceNonempty ok m list head

/-- `list_splice_init`. -/
def listSpliceInit (m : Cells ι) (list head : ι) : Option (Cells ι) := do
  if ← listEmpty ok m list then return m
  let m ← listSpliceNonempty ok m list head
  initListHead ok m list

/-- The loop of `list_for_each`, by `load` from one cell to the next: the cells that at most `n`
turns visit, and whether it has ended. -/
def listForEachFrom (load : ι → Option ι) (head : ι) : ℕ → ι → Option (List ι × Bool)
  | 0, pos => some ([], pos = head)
  | n + 1, pos =>
      if pos = head then some ([], true)
      else do
        let (l, ended) ← listForEachFrom load head n (← load pos)
        return (pos :: l, ended)

/-- `list_for_each`. -/
def listForEach (m : Cells ι) (n : ℕ) (head : ι) : Option (List ι × Bool) := do
  listForEachFrom (getNext ok m) head n (← getNext ok m head)

/-- `list_for_each_prev`. -/
def listForEachPrev (m : Cells ι) (n : ℕ) (head : ι) : Option (List ι × Bool) := do
  listForEachFrom (getPrev ok m) head n (← getPrev ok m head)

/-! ## A client -/

/-- What a client calls. -/
inductive Op (ι : Type)
  | init (ptr : ι)
  | add (newe head : ι)
  | addTail (newe head : ι)
  | del (entry : ι)
  | delInit (entry : ι)
  | move (list head : ι)
  | moveTail (list head : ι)
  | splice (list head : ι)
  | spliceInit (list head : ι)
  | empty (head : ι)
  | forEach (n : ℕ) (head : ι)
  | forEachPrev (n : ℕ) (head : ι)

/-- What a client sees; `crash` is an access where no cell lies. -/
inductive Answer (ι : Type)
  | done
  | isEmpty (b : Bool)
  | visited (l : List ι) (ended : Bool)
  | crash
  deriving DecidableEq

/-- A call that writes. -/
def writing (m : Option (Cells ι)) : Option (Cells ι) × Answer ι :=
  (m, if m.isSome then .done else .crash)

/-- A call that reads. -/
def reading {α : Type} (m : Cells ι) (f : α → Answer ι) (a : Option α) :
    Option (Cells ι) × Answer ι :=
  (a.map fun _ => m, (a.map f).getD .crash)

/-- One call on the cells; after a crash there are none. -/
def exec [Zero ι] (m : Cells ι) : Op ι → Option (Cells ι) × Answer ι
  | .init ptr => writing (initListHead ok m ptr)
  | .add newe head => writing (listAdd ok m newe head)
  | .addTail newe head => writing (listAddTail ok m newe head)
  | .del entry => writing (listDel ok m entry)
  | .delInit entry => writing (listDelInit ok m entry)
  | .move list head => writing (listMove ok m list head)
  | .moveTail list head => writing (listMoveTail ok m list head)
  | .splice list head => writing (listSplice ok m list head)
  | .spliceInit list head => writing (listSpliceInit ok m list head)
  | .empty head => reading m .isEmpty (listEmpty ok m head)
  | .forEach n head => reading m (fun r => .visited r.1 r.2) (listForEach ok m n head)
  | .forEachPrev n head => reading m (fun r => .visited r.1 r.2) (listForEachPrev ok m n head)

def step [Zero ι] (m : Option (Cells ι)) (op : Op ι) : Option (Cells ι) × Answer ι :=
  match m with
  | some m => exec ok m op
  | none => (none, .crash)

/-! ## The lists -/

/-- The cell is taken out of the ring that it is a node of. -/
def erase (b : Heads ι) (e : ι) : Heads ι := fun h => (b h).map (·.erase e)

/-- The cell is free. -/
def free (b : Heads ι) (e : ι) : Heads ι := Function.update b e none

/-- The list of a head is changed. -/
def change (b : Heads ι) (h : ι) (f : List ι → List ι) : Heads ι :=
  Function.update b h ((b h).map f)

/-- The nodes of `list` are put behind `head`; an empty `list` is left alone. -/
def moveAll (b : Heads ι) (list head : ι) (v : Option (List ι)) : Heads ι :=
  match b list with
  | some (i :: l) => change (Function.update b list v) head (i :: l ++ ·)
  | _ => b

/-- What the calls mean for the lists. -/
def meaning (b : Heads ι) : Op ι → Heads ι × Answer ι
  | .init ptr => (Function.update b ptr (some []), .done)
  | .add newe head => (change (free b newe) head (newe :: ·), .done)
  | .addTail newe head => (change (free b newe) head (· ++ [newe]), .done)
  | .del entry => (free (erase b entry) entry, .done)
  | .delInit entry => (Function.update (erase b entry) entry (some []), .done)
  | .move list head => (change (free (erase b list) list) head (list :: ·), .done)
  | .moveTail list head => (change (free (erase b list) list) head (· ++ [list]), .done)
  | .splice list head => (moveAll b list head none, .done)
  | .spliceInit list head => (moveAll b list head (some []), .done)
  | .empty head => (b, .isEmpty (b head == some []))
  | .forEach n head =>
      let l := (b head).getD []
      (b, .visited (l.take n) (l.length ≤ n))
  | .forEachPrev n head =>
      let l := ((b head).getD []).reverse
      (b, .visited (l.take n) (l.length ≤ n))

/-- The cell can be taken out: it is a node, or the head of an empty list. -/
def Linked (b : Heads ι) (e : ι) : Prop := b.Node e ∨ b e = some []

/-- The rules of the calls.  What is given for a head is one, what is added is a cell in no
list, what is taken out is in one, and nothing is its own head. -/
def Op.Legal (ok : ι → Prop) (b : Heads ι) : Op ι → Prop
  | .init ptr => ok ptr ∧ ¬b.Node ptr
  | .add newe head | .addTail newe head =>
      ok newe ∧ ¬b.Node newe ∧ newe ≠ head ∧ (b head).isSome
  | .del entry | .delInit entry => Linked b entry
  | .move list head | .moveTail list head => Linked b list ∧ list ≠ head ∧ (b head).isSome
  | .splice list head | .spliceInit list head =>
      list ≠ head ∧ (b list).isSome ∧ (b head).isSome
  | .empty head | .forEach _ head | .forEachPrev _ head => (b head).isSome

/-! ## One call -/

variable {ok} {m : Cells ι} {b : Heads ι} {e h k : ι} {A B l : List ι} {v : Option (List ι)}

/-- The cells hold the lists, and all of them can be used. -/
structure Sound (ok : ι → Prop) (m : Cells ι) (b : Heads ι) : Prop extends Holds m b where
  ok : ∀ {h l}, b h = some l → ∀ i ∈ h :: l, ok i

namespace Sound

omit [DecidableEq ι] in
theorem getNext_eq (hm : Sound ok m b) (hh : b h = some l) {i : ι} (hi : i ∈ h :: l) :
    getNext ok m i = some (m.next i) := if_pos (hm.ok hh i hi)

omit [DecidableEq ι] in
theorem getPrev_eq (hm : Sound ok m b) (hh : b h = some l) {i : ι} (hi : i ∈ h :: l) :
    getPrev ok m i = some (m.prev i) := if_pos (hm.ok hh i hi)

omit [DecidableEq ι] in
theorem getNext_head (hm : Sound ok m b) (hh : b h = some l) :
    getNext ok m h = some (l.headD h) := by
  rw [hm.getNext_eq hh List.mem_cons_self, (hm.ring hh).next_head]

omit [DecidableEq ι] in
theorem getPrev_head (hm : Sound ok m b) (hh : b h = some l) :
    getPrev ok m h = some (l.getLastD h) := by
  rw [hm.getPrev_eq hh List.mem_cons_self, (hm.ring hh).prev_head]

end Sound

theorem initListHead_eq (m : Cells ι) (he : ok e) : initListHead ok m e = some (m.join e e) := by
  simp only [initListHead, setNext, setPrev, if_pos he, Option.bind_eq_bind, Option.bind_some]
  rfl

theorem listAddBetween_eq (m : Cells ι) (he : ok e) (hh : ok h) (hk : ok k) :
    listAddBetween ok m e h k = some ((m.join e k).join h e) := by
  simp only [listAddBetween, setNext, setPrev, if_pos he, if_pos hh, if_pos hk,
    Option.bind_eq_bind, Option.bind_some]
  rfl

theorem listDelBetween_eq (m : Cells ι) (hh : ok h) (hk : ok k) :
    listDelBetween ok m h k = some (m.join h k) := by
  simp only [listDelBetween, setNext, setPrev, if_pos hh, if_pos hk, Option.bind_eq_bind,
    Option.bind_some]
  rfl

/-! ## What the calls mean -/

@[simp] theorem change_eq (hh : b h = some l) (f : List ι → List ι) :
    change b h f = Function.update b h (some (f l)) := by rw [change, hh, Option.map_some]

theorem free_eq (hnone : b e = none) : free b e = b := by
  rw [free, ← hnone, Function.update_eq_self]

theorem erase_eq_self (hnode : ¬b.Node e) : erase b e = b := by
  funext h
  cases hh : b h with
  | none => rw [erase, hh, Option.map_none]
  | some l =>
      have hmem : e ∉ l := fun hmem => hnode ⟨h, l, hh, hmem⟩
      rw [erase, hh, Option.map_some, List.erase_of_not_mem hmem]

theorem erase_eq (hm : Holds m b) (hh : b h = some (A ++ e :: B)) :
    erase b e = Function.update b h (some (A ++ B)) := by
  have hmem : e ∈ A ++ e :: B := List.mem_append_right A List.mem_cons_self
  funext k
  by_cases hkh : k = h
  · subst hkh
    have hA : e ∉ A := by
      have hnodup := (List.nodup_cons.mp (hm.ring hh).nodup).2
      exact fun hA => (List.nodup_append'.mp hnodup).2.2 hA List.mem_cons_self
    rw [Function.update_self, erase, hh, Option.map_some, List.erase_append_right _ hA,
      List.erase_cons_head]
  · rw [Function.update_of_ne hkh]
    cases hk : b k with
    | none => rw [erase, hk, Option.map_none]
    | some l =>
        have hl : e ∉ l := fun hl => hm.notMem_of_ne hh hmem hkh hk (.tail _ hl)
        rw [erase, hk, Option.map_some, List.erase_of_not_mem hl]

omit [DecidablePred ok] in
/-- A head gets a list of cells, or none. -/
theorem Sound.update {m' : Cells ι} (hm : Sound ok m b)
    (hl : ∀ l, v = some l → ∀ i ∈ h :: l, ok i) (hm' : Holds m' (Function.update b h v)) :
    Sound ok m' (Function.update b h v) := by
  refine ⟨hm', fun {k l} hk => ?_⟩
  by_cases hkh : k = h
  · subst hkh
    rw [Function.update_self] at hk
    exact hl l hk
  · rw [Function.update_of_ne hkh] at hk
    exact hm.ok hk

omit [DecidableEq ι] [DecidablePred ok] in
theorem Sound.mono {ok' : ι → Prop} (hm : Sound ok m b)
    (hok : ∀ h l, b h = some l → ∀ i ∈ h :: l, ok i → ok' i) : Sound ok' m b :=
  ⟨hm.toHolds, fun hh i hi => hok _ _ hh i hi (hm.ok hh i hi)⟩

theorem Sound.init (hm : Sound ok m b) (he : ok e) (hnode : ¬b.Node e) :
    ∃ m', initListHead ok m e = some m' ∧ Sound ok m' (Function.update b e (some [])) := by
  refine ⟨_, initListHead_eq m he, hm.update (fun l hl i hi => ?_) (hm.toHolds.init hnode)⟩
  obtain rfl := Option.some.inj hl
  rwa [List.mem_singleton.mp hi]

omit [DecidablePred ok] in
theorem Sound.free (hm : Sound ok m b) (e : ι) : Sound ok m (free b e) :=
  hm.update nofun (hm.toHolds.forget e)

theorem not_node_free (hnode : ¬b.Node e) (k : ι) : ¬(ListHead.free b k).Node e := by
  rintro ⟨h, l, hh, hmem⟩
  by_cases hhk : h = k
  · rw [ListHead.free, hhk, Function.update_self] at hh
    cases hh
  · rw [ListHead.free, Function.update_of_ne hhk] at hh
    exact hnode ⟨h, l, hh, hmem⟩

/-- A free cell is put between two nodes. -/
theorem Sound.insert (hm : Sound ok m b) (hh : b h = some (A ++ B)) (he : ok e)
    (hnone : b e = none) (hnode : ¬b.Node e) :
    ∃ m', listAddBetween ok m e (A.getLastD h) (B.headD h) = some m' ∧
      Sound ok m' (Function.update b h (some (A ++ e :: B))) := by
  have hhead := hm.ok hh _ (headD_mem_ring A B h)
  have hlast := hm.ok hh _ (getLastD_mem_ring A B h)
  refine ⟨_, listAddBetween_eq m he hlast hhead,
    hm.update (fun l hl i hi => ?_) (hm.toHolds.insert hh hnone hnode)⟩
  obtain rfl := Option.some.inj hl
  by_cases hie : i = e
  · rwa [hie]
  · exact hm.ok hh i (by simpa [hie] using hi)

theorem Sound.add (hm : Sound ok m b) (he : ok e) (hnode : ¬b.Node e) (hne : e ≠ h)
    (hh : b h = some l) :
    (∃ m', listAdd ok m e h = some m' ∧ Sound ok m' (change (ListHead.free b e) h (e :: ·))) ∧
      ∃ m', listAddTail ok m e h = some m' ∧
        Sound ok m' (change (ListHead.free b e) h (· ++ [e])) := by
  have hfree := hm.free e
  have hnone : ListHead.free b e e = none := Function.update_self _ _ _
  have hh' : ListHead.free b e h = some l := by
    rw [ListHead.free, Function.update_of_ne hne.symm, hh]
  have htail : ListHead.free b e h = some (l ++ []) := by rw [List.append_nil, hh']
  rw [change_eq hh', change_eq hh', listAdd, listAddTail, hm.getNext_head hh, hm.getPrev_head hh]
  exact ⟨hfree.insert (A := []) hh' he hnone (not_node_free hnode e),
    hfree.insert htail he hnone (not_node_free hnode e)⟩

theorem not_node_erase (hm : Holds m b) (e : ι) : ¬(erase b e).Node e := by
  rintro ⟨h, l, hh, hmem⟩
  obtain ⟨l₀, hl₀, rfl⟩ := Option.map_eq_some_iff.mp hh
  have hnodup := (List.nodup_cons.mp (hm.ring hl₀).nodup).2
  exact hnodup.not_mem_erase hmem

/-- A node is unlinked from its neighbours. -/
theorem Sound.unlink_node (hm : Sound ok m b) (hh : b h = some (A ++ e :: B)) :
    ∃ m', listUnlink ok m e = some m' ∧ Sound ok m' (erase b e) := by
  have hmem : e ∈ h :: (A ++ e :: B) := .tail _ (List.mem_append_right A List.mem_cons_self)
  have hsub : ∀ i ∈ h :: (A ++ B), i ∈ h :: (A ++ e :: B) :=
    fun i hi => ((List.sublist_cons_self e B).append_left A).cons_cons h |>.subset hi
  have hhead := hm.ok hh _ (hsub _ (headD_mem_ring A B h))
  have hlast := hm.ok hh _ (hsub _ (getLastD_mem_ring A B h))
  obtain ⟨hnext, hprev⟩ := (hm.ring hh).neighbours
  rw [erase_eq hm.toHolds hh, listUnlink, hm.getPrev_eq hh hmem, hm.getNext_eq hh hmem, hnext,
    hprev]
  refine ⟨_, listDelBetween_eq m hlast hhead,
    hm.update (fun l hl i hi => ?_) (hm.toHolds.delete hh)⟩
  obtain rfl := Option.some.inj hl
  exact hm.ok hh i (hsub i hi)

/-- Unlinking the head of an empty list changes nothing. -/
theorem Sound.unlink_head (hm : Sound ok m b) (hh : b e = some []) :
    ∃ m', listUnlink ok m e = some m' ∧ Sound ok m' b := by
  have he := hm.ok hh _ List.mem_cons_self
  have hsame : Function.update b e (some []) = b := by rw [← hh, Function.update_eq_self]
  have hinit := hm.toHolds.init (hm.toHolds.not_node hh)
  rw [hsame] at hinit
  rw [listUnlink, hm.getPrev_head hh, hm.getNext_head hh]
  exact ⟨_, listDelBetween_eq m he he, hinit, hm.ok⟩

/-- A cell is unlinked from its neighbours; its own links stay. -/
theorem Sound.unlink (hm : Sound ok m b) (he : Linked b e) :
    ok e ∧ ∃ m', listUnlink ok m e = some m' ∧ Sound ok m' (ListHead.free (erase b e) e) ∧
      ¬(erase b e).Node e := by
  have hnode := not_node_erase hm.toHolds e
  rcases he with ⟨h, l, hh, hmem⟩ | he
  · refine ⟨hm.ok hh e (.tail _ hmem), ?_⟩
    obtain ⟨A, B, rfl⟩ := List.append_of_mem hmem
    obtain ⟨m', hm', hsound⟩ := hm.unlink_node hh
    exact ⟨m', hm', hsound.free e, hnode⟩
  · refine ⟨hm.ok he e List.mem_cons_self, ?_⟩
    rw [erase_eq_self (hm.toHolds.not_node he)] at hnode ⊢
    obtain ⟨m', hm', hsound⟩ := hm.unlink_head he
    exact ⟨m', hm', hsound.free e, hnode⟩

/-- The links of a free cell may be anything. -/
theorem Sound.setNull (hm : Sound ok m b) (he : ok e) (hnone : b e = none) (hnode : ¬b.Node e)
    (p : ι) :
    ∃ m', (do setPrev ok (← setNext ok m e p) e p) = some m' ∧ Sound ok m' b := by
  simp only [setNext, setPrev, if_pos he, Option.bind_eq_bind, Option.bind_some]
  refine ⟨_, rfl, hm.toHolds.congr fun h l hh i hi => ?_, hm.ok⟩
  have hie : i ≠ e := by
    rintro rfl
    rcases List.mem_cons.mp hi with rfl | hi
    · rw [hnone] at hh
      cases hh
    · exact hnode ⟨h, l, hh, hi⟩
  exact ⟨Function.update_of_ne hie _ _, Function.update_of_ne hie _ _⟩

theorem Sound.del [Zero ι] (hm : Sound ok m b) (he : Linked b e) :
    (∃ m', listDel ok m e = some m' ∧ Sound ok m' (ListHead.free (erase b e) e)) ∧
      ∃ m', listDelInit ok m e = some m' ∧
        Sound ok m' (Function.update (erase b e) e (some [])) := by
  obtain ⟨hok, m', hm', hsound, hnode⟩ := hm.unlink he
  have hnode' := not_node_free hnode e
  have hinit := hsound.init hok hnode'
  rw [ListHead.free, Function.update_idem] at hinit
  rw [listDel, listDelInit, hm']
  exact ⟨hsound.setNull hok (Function.update_self _ _ _) hnode' 0, hinit⟩

theorem Sound.move (hm : Sound ok m b) (he : Linked b e) (hne : e ≠ h) (hh : (b h).isSome) :
    (∃ m', listMove ok m e h = some m' ∧
        Sound ok m' (change (ListHead.free (erase b e) e) h (e :: ·))) ∧
      ∃ m', listMoveTail ok m e h = some m' ∧
        Sound ok m' (change (ListHead.free (erase b e) e) h (· ++ [e])) := by
  obtain ⟨hok, m', hm', hsound, hnode⟩ := hm.unlink he
  obtain ⟨l, hl⟩ := Option.isSome_iff_exists.mp hh
  have hh' : ListHead.free (erase b e) e h = some (l.erase e) := by
    rw [ListHead.free, Function.update_of_ne hne.symm, erase, hl, Option.map_some]
  have hadd := hsound.add hok (not_node_free hnode e) hne hh'
  have hidem : ListHead.free (ListHead.free (erase b e) e) e = ListHead.free (erase b e) e :=
    free_eq (Function.update_self _ _ _)
  rw [hidem] at hadd
  rw [listMove, listMoveTail, hm']
  exact hadd

theorem Sound.listEmpty_eq (hm : Sound ok m b) (hh : b h = some l) :
    listEmpty ok m h = some (b h == some []) := by
  rw [listEmpty, hm.getNext_head hh, hh]
  cases l with
  | nil => simp
  | cons i l =>
      have hih : i ≠ h := by
        rintro rfl
        exact (List.nodup_cons.mp (hm.ring hh).nodup).1 List.mem_cons_self
      simp [hih]

theorem listSpliceNonempty_eq (hm : Sound ok m b) (hk : b k = some A) (hh : b h = some B) :
    listSpliceNonempty ok m k h =
      some ((m.join h (A.headD k)).join (A.getLastD k) (B.headD h)) := by
  have hh' := hm.ok hh _ List.mem_cons_self
  have hfirst := hm.ok hk _ (headD_mem_ring [] A k)
  have hlast := hm.ok hk _ (getLastD_mem A k)
  have hat := hm.ok hh _ (headD_mem_ring [] B h)
  rw [listSpliceNonempty, hm.getNext_head hk, hm.getPrev_head hk, hm.getNext_head hh]
  simp only [setNext, setPrev, if_pos hh', if_pos hfirst, if_pos hlast, if_pos hat,
    Option.bind_eq_bind, Option.bind_some]
  rfl

theorem Sound.spliceNonempty (hm : Sound ok m b) (hne : k ≠ h) (hk : b k = some A)
    (hh : b h = some B) (hA : A ≠ []) :
    ∃ m', listSpliceNonempty ok m k h = some m' ∧
      Sound ok m' (Function.update (ListHead.free b k) h (some (A ++ B))) := by
  refine ⟨_, listSpliceNonempty_eq hm hk hh, (hm.free k).update (fun l hl i hi => ?_)
    (hm.toHolds.splice hk hh hne hA)⟩
  obtain rfl := Option.some.inj hl
  simp only [List.mem_cons, List.mem_append] at hi
  rcases hi with hi | hi | hi
  · exact hm.ok hh i (List.mem_cons.mpr (.inl hi))
  · exact hm.ok hk i (.tail _ hi)
  · exact hm.ok hh i (.tail _ hi)

theorem Sound.splice (hm : Sound ok m b) (hne : k ≠ h) (hk : (b k).isSome) (hh : (b h).isSome) :
    (∃ m', listSplice ok m k h = some m' ∧ Sound ok m' (moveAll b k h none)) ∧
      ∃ m', listSpliceInit ok m k h = some m' ∧ Sound ok m' (moveAll b k h (some [])) := by
  obtain ⟨A, hA⟩ := Option.isSome_iff_exists.mp hk
  obtain ⟨B, hB⟩ := Option.isSome_iff_exists.mp hh
  have hempty := hm.listEmpty_eq hA
  rw [listSplice, listSpliceInit, hempty, moveAll, moveAll, hA]
  cases A with
  | nil => exact ⟨⟨m, by simp, hm⟩, m, by simp, hm⟩
  | cons i A =>
      obtain ⟨m', hm', hsound⟩ := hm.spliceNonempty hne hA hB (List.cons_ne_nil i A)
      have hk' := hm.ok hA _ List.mem_cons_self
      have hB' : ∀ v, Function.update b k v h = some B := by
        intro v
        rw [Function.update_of_ne hne.symm, hB]
      have hnode : ¬Heads.Node (Function.update (ListHead.free b k) h (some (i :: A ++ B))) k := by
        have hk := hm.toHolds.not_node hA
        rintro ⟨j, l, hj, hmem⟩
        by_cases hjh : j = h
        · rw [hjh, Function.update_self] at hj
          obtain rfl := Option.some.inj hj
          rcases List.mem_append.mp hmem with hmem | hmem
          · exact hk ⟨k, _, hA, hmem⟩
          · exact hk ⟨h, _, hB, hmem⟩
        · rw [Function.update_of_ne hjh] at hj
          exact not_node_free hk k ⟨j, l, hj, hmem⟩
      obtain ⟨m'', hm'', hinit⟩ := hsound.init hk' hnode
      rw [Function.update_comm hne.symm, ListHead.free, Function.update_idem] at hinit
      simp only [change_eq (hB' _), hm']
      exact ⟨⟨m', by simp, hsound⟩, m'', by simpa using hm'', hinit⟩

/-! ## Loops -/

theorem forEachFrom_eq {load : ι → Option ι} (hB : h ∉ B)
    (hload : ∀ A i C, B = A ++ i :: C → load i = some (C.headD h)) (n : ℕ) :
    listForEachFrom load h n (B.headD h) = some (B.take n, decide (B.length ≤ n)) := by
  induction n generalizing B with
  | zero =>
      cases B with
      | nil => simp [listForEachFrom]
      | cons i B =>
          have hih : i ≠ h := by
            rintro rfl
            exact hB List.mem_cons_self
          simp [listForEachFrom, hih]
  | succ n ih =>
      cases B with
      | nil => simp [listForEachFrom]
      | cons i B =>
          have hih : i ≠ h := by
            rintro rfl
            exact hB List.mem_cons_self
          have hrest := ih (fun hmem => hB (.tail _ hmem)) fun A j C hB' =>
            hload (i :: A) j C (by rw [hB', List.cons_append])
          rw [List.headD_cons, listForEachFrom, if_neg hih, hload [] i B rfl]
          simp only [Option.bind_eq_bind, Option.bind_some, hrest]
          simp

theorem Sound.forEach_eq (hm : Sound ok m b) (hh : b h = some l) (n : ℕ) :
    listForEach ok m n h = some (l.take n, decide (l.length ≤ n)) := by
  rw [listForEach, hm.getNext_head hh]
  refine forEachFrom_eq (List.nodup_cons.mp (hm.ring hh).nodup).1 (fun A i C hl => ?_) n
  have hmem : i ∈ h :: l := .tail _ (hl ▸ List.mem_append_right A List.mem_cons_self)
  have hring : Ring m h (A ++ i :: C) := hl ▸ hm.ring hh
  rw [hm.getNext_eq hh hmem, hring.neighbours.1]

theorem Sound.forEachPrev_eq (hm : Sound ok m b) (hh : b h = some l) (n : ℕ) :
    listForEachPrev ok m n h = some (l.reverse.take n, decide (l.length ≤ n)) := by
  have hhead : ∀ A : List ι, A.getLastD h = A.reverse.headD h := by
    intro A
    induction A using List.reverseRecOn with
    | nil => rfl
    | append_singleton A a ih => simp
  have hnot : h ∉ l.reverse := by
    rw [List.mem_reverse]
    exact (List.nodup_cons.mp (hm.ring hh).nodup).1
  have hlen : l.length = l.reverse.length := List.length_reverse.symm
  rw [listForEachPrev, hm.getPrev_head hh, hhead, hlen]
  refine forEachFrom_eq hnot (fun A i C hl => ?_) n
  have hl : l = C.reverse ++ i :: A.reverse := by
    rw [← List.reverse_reverse l, hl]
    simp
  have hmem : i ∈ h :: l := .tail _ (hl ▸ List.mem_append_right _ List.mem_cons_self)
  have hring : Ring m h (C.reverse ++ i :: A.reverse) := hl ▸ hm.ring hh
  rw [hm.getPrev_eq hh hmem, hring.neighbours.2, hhead, List.reverse_reverse]

/-! ## Runs -/

theorem Sound.exec [Zero ι] (hm : Sound ok m b) (op : Op ι) (hop : op.Legal ok b) :
    (exec ok m op).2 = (meaning b op).2 ∧
      ∃ m', (exec ok m op).1 = some m' ∧ Sound ok m' (meaning b op).1 := by
  have hwriting : ∀ {a : Option (Cells ι)} {b' : Heads ι}, (∃ m', a = some m' ∧ Sound ok m' b') →
      (writing a).2 = .done ∧ ∃ m', (writing a).1 = some m' ∧ Sound ok m' b' := by
    rintro a b' ⟨m', rfl, hm'⟩
    exact ⟨rfl, m', rfl, hm'⟩
  cases op with
  | init ptr => exact hwriting (hm.init hop.1 hop.2)
  | add newe head =>
      obtain ⟨l, hl⟩ := Option.isSome_iff_exists.mp hop.2.2.2
      exact hwriting (hm.add hop.1 hop.2.1 hop.2.2.1 hl).1
  | addTail newe head =>
      obtain ⟨l, hl⟩ := Option.isSome_iff_exists.mp hop.2.2.2
      exact hwriting (hm.add hop.1 hop.2.1 hop.2.2.1 hl).2
  | del entry => exact hwriting (hm.del hop).1
  | delInit entry => exact hwriting (hm.del hop).2
  | move list head => exact hwriting (hm.move hop.1 hop.2.1 hop.2.2).1
  | moveTail list head => exact hwriting (hm.move hop.1 hop.2.1 hop.2.2).2
  | splice list head => exact hwriting (hm.splice hop.1 hop.2.1 hop.2.2).1
  | spliceInit list head => exact hwriting (hm.splice hop.1 hop.2.1 hop.2.2).2
  | empty head =>
      obtain ⟨l, hl⟩ := Option.isSome_iff_exists.mp hop
      rw [ListHead.exec, hm.listEmpty_eq hl]
      exact ⟨rfl, m, rfl, hm⟩
  | forEach n head =>
      obtain ⟨l, hl⟩ := Option.isSome_iff_exists.mp hop
      rw [ListHead.exec, hm.forEach_eq hl, meaning, hl]
      exact ⟨rfl, m, rfl, hm⟩
  | forEachPrev n head =>
      obtain ⟨l, hl⟩ := Option.isSome_iff_exists.mp hop
      rw [ListHead.exec, hm.forEachPrev_eq hl, meaning, hl]
      exact ⟨by simp [reading], m, rfl, hm⟩

/-- A client that keeps to the rules never touches anything but cells, and every call answers
as the lists do. -/
theorem trace_eq_lists [Zero ι] (m : Cells ι) (ops : List (Op ι))
    (hlegal : Run.Always meaning (Op.Legal ok) (fun _ => none) ops) :
    Run.trace (step ok) (some m) ops = Run.trace meaning (fun _ => none) ops := by
  refine Run.trace_eq_of_always (R := fun s b => ∃ m, s = some m ∧ Sound ok m b) ?_ ?_
    (Run.always_true _ ops) hlegal
  · rintro _ b op ⟨m, rfl, hm⟩ - hop
    exact hm.exec op hop
  · exact ⟨m, rfl, .none m, nofun⟩

/-- A queue of two, walked and then moved to another head. -/
theorem trace_eq_lists_queue :
    Run.trace (step (· ≠ 0)) (some (⟨fun _ => 0, fun _ => 0⟩ : Cells ℕ))
        [.init 1, .init 2, .addTail 3 1, .addTail 4 1, .forEach 5 1, .spliceInit 1 2,
          .forEachPrev 5 2, .empty 1] =
      [(.init 1, .done), (.init 2, .done), (.addTail 3 1, .done), (.addTail 4 1, .done),
        (.forEach 5 1, .visited [3, 4] true), (.spliceInit 1 2, .done),
        (.forEachPrev 5 2, .visited [4, 3] true), (.empty 1, .isEmpty true)] := by
  refine (trace_eq_lists _ _ ?_).trans rfl
  simp only [Run.always_cons, Run.always_nil, Op.Legal, meaning, Heads.Node, change,
    ListHead.free, moveAll, Function.update_apply]
  simp
  constructor <;> intro h l <;> split_ifs <;> rintro ⟨⟩ <;> simp

end Spp.ListHead
