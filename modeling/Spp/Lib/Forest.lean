import Spp.Lib.Run

/-!
# Forests by links

A forest is kept by three links for each node: to the node it hangs from, to its first child
and to its next sibling, with zero for none.  A reader keeps three nodes: the one whose
children it is among, the one it is at, and a child of that one.  On the other side a reader is
a place in a forest, which says what lies in front of it.

## Main definitions

* `Rose`, `Links`, `Linked` — the forest that hangs from a node.
* `Cursor` — a place in a forest; `Cursor.find` goes on to what a path describes.
* `At k shows p i c t` — the nodes `p`, `i` and `c` are where the cursor `t` is.
-/

namespace Spp.Forest

variable {L ι : Type*}

inductive Rose (L : Type*)
  | node (label : L) (kids : List (Rose L))

def Rose.label : Rose L → L
  | .node l _ => l

def Rose.kids : Rose L → List (Rose L)
  | .node _ ts => ts

mutual

def Rose.count : Rose L → ℕ
  | .node _ ts => size ts + 1

/-- How many nodes there are. -/
def size : List (Rose L) → ℕ
  | [] => 0
  | t :: ts => t.count + size ts

end

theorem Rose.count_eq (t : Rose L) : t.count = size t.kids + 1 := by
  cases t
  rw [Rose.count, Rose.kids]

/-! ## Cursors -/

/-- Where a reader is: the siblings, from which on it is among them, and from which on it is
among the children there.  Above it lie the siblings of each node it has gone into, and these
from that node on. -/
structure Cursor (L : Type*) where
  above : List (List (Rose L) × List (Rose L))
  siblings : List (Rose L)
  here : List (Rose L)
  kids : List (Rose L)

namespace Cursor

/-- The roots of the forest. -/
def rootsFrom : List (List (Rose L) × List (Rose L)) → List (Rose L) → List (Rose L)
  | [], ts => ts
  | (ts, _) :: above, _ => rootsFrom above ts

def roots (c : Cursor L) : List (Rose L) := rootsFrom c.above c.siblings

def start (ts : List (Rose L)) : Cursor L := ⟨[], ts, [], []⟩

def reset (c : Cursor L) : Cursor L := start c.roots

def resetHere (c : Cursor L) : Cursor L := { c with here := [], kids := [] }

def resetKids (c : Cursor L) : Cursor L := { c with kids := [] }

def into (c : Cursor L) : Bool × Cursor L :=
  match c.here with
  | [] => (false, c)
  | t :: ts => (true, ⟨(c.siblings, t :: ts) :: c.above, t.kids, c.kids, []⟩)

def outOf (c : Cursor L) : Bool × Cursor L :=
  match c.above with
  | [] => (false, c)
  | (ts, here) :: above => (true, ⟨above, ts, here, c.here⟩)

/-- The first of the trees `ts` that a path leads to. -/
def search (above : List (List (Rose L) × List (Rose L))) (siblings ts : List (Rose L))
    (q : L → Bool) : List (L → Bool) → Option (Cursor L)
  | [] =>
      match ts.dropWhile fun t => !q t.label with
      | [] => none
      | here => some ⟨above, siblings, here, []⟩
  | q' :: qs =>
      match ts.dropWhile fun t => !q t.label with
      | [] => none
      | t :: rest => search ((siblings, t :: rest) :: above) t.kids t.kids q' qs

/-- The first of the trees `ts`, where there is no path. -/
def lookup (above : List (List (Rose L) × List (Rose L))) (siblings ts : List (Rose L)) :
    List (L → Bool) → Option (Cursor L)
  | [] => if ts = [] then none else some ⟨above, siblings, ts, []⟩
  | q :: qs => search above siblings ts q qs

/-- The next place that the path describes, from here on or from the root. -/
def next (c : Cursor L) (absolute : Bool) (qs : List (L → Bool)) : Option (Cursor L) :=
  if absolute then lookup [] c.roots c.roots qs
  else lookup c.above c.siblings (if c.here = [] then c.siblings else c.here.tail) qs

def find (c : Cursor L) (absolute : Bool) (qs : List (L → Bool)) : Bool × Cursor L :=
  match c.next absolute qs with
  | none => (false, c)
  | some c => (true, c)

/-- Where a reader is that looks at children: among the siblings, if it was not yet. -/
def main (c : Cursor L) : Cursor L := if c.here = [] then (c.find false []).2 else c

/-- Where a search for a child begins: among the children, or at the root if there is nothing
that could have any. -/
def inside (c : Cursor L) : Cursor L := if c.here = [] then c.reset else c.into.2

/-- What was found is a child; above a root there is nothing. -/
def asKids (d : Cursor L) : Cursor L :=
  match d.above with
  | [] => ⟨[], d.siblings, [], d.here⟩
  | _ => d.outOf.2

/-- The next child that the path describes. -/
def findKid (c : Cursor L) (absolute : Bool) (qs : List (L → Bool)) : Bool × Cursor L :=
  match c.main.inside.next absolute qs with
  | none => (false, c.main)
  | some d => (true, d.asKids)

end Cursor

/-! ## Links -/

structure Links (ι : Type*) where
  parent : ι → ι
  child : ι → ι
  next : ι → ι

variable [Zero ι]

/-- From the node `i` on, the trees hang from `p`; a node with a label shows it. -/
inductive Linked (k : Links ι) (shows : ι → L → Prop) : ι → ι → List (Rose L) → Prop
  | nil (p : ι) : Linked k shows p 0 []
  | cons {p i : ι} {l : L} {kids ts : List (Rose L)} (ne : i ≠ 0) (label : shows i l)
      (parent : k.parent i = p) (inner : Linked k shows i (k.child i) kids)
      (rest : Linked k shows p (k.next i) ts) : Linked k shows p i (.node l kids :: ts)

variable {k : Links ι} {shows : ι → L → Prop} {p i j : ι} {t : Rose L} {ts : List (Rose L)}

theorem linked_cons (ne : i ≠ 0) (label : shows i t.label) (parent : k.parent i = p)
    (inner : Linked k shows i (k.child i) t.kids) (rest : Linked k shows p (k.next i) ts) :
    Linked k shows p i (t :: ts) := by
  cases t
  exact .cons ne label parent inner rest

/-- What is linked depends on the links of the nodes that show something. -/
theorem Linked.mono {k' : Links ι} {shows' : ι → L → Prop}
    (hnode : ∀ i l, shows i l → shows' i l ∧ k'.parent i = k.parent i ∧
      k'.child i = k.child i ∧ k'.next i = k.next i)
    (h : Linked k shows p i ts) : Linked k' shows' p i ts := by
  induction h with
  | nil p => exact .nil p
  | cons ne label parent _ _ ihinner ihrest =>
      obtain ⟨hshows, hparent, hchild, hnext⟩ := hnode _ _ label
      rw [← hchild] at ihinner
      rw [← hnext] at ihrest
      exact .cons ne hshows (hparent.trans parent) ihinner ihrest

/-- From the node `i` on, the trees hang from `p`, and there are at most `n` nodes. -/
structure Hangs (k : Links ι) (shows : ι → L → Prop) (n : ℕ) (p i : ι) (ts : List (Rose L)) :
    Prop where
  linked : Linked k shows p i ts
  size_le : size ts ≤ n

namespace Hangs

variable {n : ℕ}

theorem nil (p : ι) : Hangs k shows n p 0 [] := ⟨.nil p, Nat.zero_le n⟩

theorem eq_zero_iff (h : Hangs k shows n p i ts) : i = 0 ↔ ts = [] := by
  cases h.linked with
  | nil => exact ⟨fun _ => rfl, fun _ => rfl⟩
  | cons ne => exact ⟨fun h => absurd h ne, fun h => absurd h (by simp)⟩

theorem ne_zero (h : Hangs k shows n p i (t :: ts)) : i ≠ 0 := by
  intro hi
  exact absurd (h.eq_zero_iff.mp hi) (by simp)

theorem shows_label (h : Hangs k shows n p i (t :: ts)) : shows i t.label := by
  cases h.linked with
  | cons _ label => exact label

theorem parent_eq (h : Hangs k shows n p i (t :: ts)) : k.parent i = p := by
  cases h.linked with
  | cons _ _ parent => exact parent

theorem kids (h : Hangs k shows n p i (t :: ts)) : Hangs k shows n i (k.child i) t.kids := by
  refine ⟨?_, ?_⟩
  · cases h.linked with
    | cons _ _ _ inner => exact inner
  · have hsize := h.size_le
    rw [size, t.count_eq] at hsize
    omega

theorem tail (h : Hangs k shows n p i (t :: ts)) : Hangs k shows n p (k.next i) ts := by
  refine ⟨?_, ?_⟩
  · cases h.linked with
    | cons _ _ _ _ rest => exact rest
  · have hsize := h.size_le
    rw [size] at hsize
    omega

end Hangs

/-! ## Where a cursor is -/

/-- The node `p` is the one that the levels above lead to. -/
inductive Spine (k : Links ι) (shows : ι → L → Prop) (n : ℕ) :
    ι → List (List (Rose L) × List (Rose L)) → Prop
  | root : Spine k shows n 0 []
  | into {p i : ι} {above : List (List (Rose L) × List (Rose L))} {us ts : List (Rose L)}
      {t : Rose L} (up : Spine k shows n p above) (siblings : Hangs k shows n p (k.child p) us)
      (here : Hangs k shows n p i (t :: ts)) : Spine k shows n i ((us, t :: ts) :: above)

/-- The nodes `p`, `i` and `c` are where the cursor is.  Only a root can be a child of
nothing. -/
structure At (k : Links ι) (shows : ι → L → Prop) (n : ℕ) (p i c : ι) (t : Cursor L) : Prop where
  spine : Spine k shows n p t.above
  siblings : Hangs k shows n p (k.child p) t.siblings
  here : Hangs k shows n p i t.here
  kids : Hangs k shows n i c t.kids
  kids_nil : t.here = [] → p ≠ 0 → t.kids = []

variable {c : ι} {n : ℕ} {t d : Cursor L}

theorem at_start (h : Hangs k shows n 0 (k.child 0) ts) : At k shows n 0 0 0 (.start ts) :=
  ⟨.root, h, .nil 0, .nil 0, fun _ _ => rfl⟩

theorem Spine.roots {above : List (List (Rose L) × List (Rose L))} {siblings : List (Rose L)}
    (h : Spine k shows n p above) (hs : Hangs k shows n p (k.child p) siblings) :
    Hangs k shows n 0 (k.child 0) (Cursor.rootsFrom above siblings) := by
  induction h generalizing siblings with
  | root => exact hs
  | into _ hsiblings _ ih => exact ih hsiblings

theorem At.roots (h : At k shows n p i c t) : Hangs k shows n 0 (k.child 0) t.roots :=
  h.spine.roots h.siblings

theorem At.reset (h : At k shows n p i c t) : At k shows n 0 0 0 t.reset := at_start h.roots

theorem At.resetHere (h : At k shows n p i c t) : At k shows n p 0 0 t.resetHere :=
  ⟨h.spine, h.siblings, .nil p, .nil 0, fun _ _ => rfl⟩

theorem At.resetKids (h : At k shows n p i c t) : At k shows n p i 0 t.resetKids :=
  ⟨h.spine, h.siblings, h.here, .nil i, fun _ _ => rfl⟩

/-- Going into the node it is at. -/
theorem At.into (h : At k shows n p i c t) (hi : i ≠ 0) :
    t.into.1 = true ∧ At k shows n i c 0 t.into.2 := by
  obtain ⟨hspine, hsiblings, hhere, hkids, -⟩ := h
  cases hts : t.here with
  | nil => exact absurd (hhere.eq_zero_iff.mpr hts) hi
  | cons u us =>
      rw [hts] at hhere
      rw [Cursor.into, hts]
      exact ⟨rfl, .into hspine hsiblings hhere, hhere.kids, hkids, .nil c, fun _ _ => rfl⟩

theorem At.into_zero (h : At k shows n p 0 c t) : t.into = (false, t) := by
  rw [Cursor.into, h.here.eq_zero_iff.mp rfl]

/-- Going out to the node it is among the children of. -/
theorem At.outOf (h : At k shows n p i c t) (hp : p ≠ 0) :
    t.outOf.1 = true ∧ At k shows n (k.parent p) p i t.outOf.2 := by
  obtain ⟨hspine, hsiblings, hhere, hkids, -⟩ := h
  rw [Cursor.outOf]
  cases habove : t.above with
  | nil =>
      rw [habove] at hspine
      cases hspine
      exact absurd rfl hp
  | cons level above =>
      rw [habove] at hspine
      cases hspine with
      | into hup hs hh =>
          obtain rfl := hh.parent_eq
          exact ⟨rfl, hup, hs, hh, hhere, fun hnil _ => absurd hnil (by simp)⟩

theorem At.above_eq_nil_iff (h : At k shows n p i c t) : t.above = [] ↔ p = 0 := by
  have hspine := h.spine
  constructor
  · intro habove
    rw [habove] at hspine
    cases hspine
    rfl
  · rintro rfl
    cases habove : t.above with
    | nil => rfl
    | cons level above =>
        rw [habove] at hspine
        cases hspine with
        | into _ _ hh => exact absurd rfl hh.ne_zero

theorem At.outOf_zero (h : At k shows n 0 i c t) : t.outOf = (false, t) := by
  rw [Cursor.outOf, h.above_eq_nil_iff.mpr rfl]

/-- Where a search for a child begins. -/
theorem At.inside (h : At k shows n p i c t) (hc : i = 0 → c = 0) :
    At k shows n i c 0 t.inside := by
  rw [Cursor.inside]
  by_cases hi : i = 0
  · have hc' := hc hi
    subst hi hc'
    rw [if_pos (h.here.eq_zero_iff.mp rfl)]
    exact h.reset
  · rw [if_neg fun hnil => hi (h.here.eq_zero_iff.mpr hnil)]
    exact (h.into hi).2

/-- What has been found becomes a child. -/
theorem At.asKids (h : At k shows n p i 0 d) (hroot : k.parent 0 = 0) :
    At k shows n (k.parent p) p i d.asKids := by
  rw [Cursor.asKids]
  cases habove : d.above with
  | nil =>
      obtain rfl := h.above_eq_nil_iff.mp habove
      rw [hroot]
      exact ⟨.root, h.siblings, .nil 0, h.here, fun _ h => absurd rfl h⟩
  | cons level above =>
      have hp : p ≠ 0 := by
        intro hp
        rw [h.above_eq_nil_iff.mpr hp] at habove
        cases habove
      exact (h.outOf hp).2

/-! ## Searching -/

variable {above : List (List (Rose L) × List (Rose L))} {siblings us : List (Rose L)}
  {q q' : L → Bool} {qs : List (L → Bool)} {u : Rose L}

namespace Cursor

theorem search_nil : search above siblings [] q qs = none := by
  cases qs <;> rfl

theorem search_cons_neg (hq : ¬q u.label) :
    search above siblings (u :: us) q qs = search above siblings us q qs := by
  have hdrop : (u :: us).dropWhile (fun t => !q t.label) = us.dropWhile fun t => !q t.label := by
    rw [List.dropWhile_cons_of_pos]
    simpa using hq
  cases qs with
  | nil => rw [search, search, hdrop]
  | cons q' qs => rw [search, search, hdrop]

theorem search_cons_last (hq : q u.label) :
    search above siblings (u :: us) q [] = some ⟨above, siblings, u :: us, []⟩ := by
  have hdrop : (u :: us).dropWhile (fun t => !q t.label) = u :: us := by
    rw [List.dropWhile_cons_of_neg]
    simpa using hq
  rw [search, hdrop]

theorem search_cons_into (hq : q u.label) :
    search above siblings (u :: us) q (q' :: qs) =
      search ((siblings, u :: us) :: above) u.kids u.kids q' qs := by
  have hdrop : (u :: us).dropWhile (fun t => !q t.label) = u :: us := by
    rw [List.dropWhile_cons_of_neg]
    simpa using hq
  rw [search, hdrop]

end Cursor

/-- What a search that ended at the node `i` says: there was nothing, or the reader is there. -/
def Reaches (k : Links ι) (shows : ι → L → Prop) (n : ℕ) (i : ι) : Option (Cursor L) → Prop
  | none => i = 0
  | some d => i ≠ 0 ∧ At k shows n (k.parent i) i 0 d

/-- A reader is at the first of the trees, if there are any. -/
theorem reaches_lookup (hspine : Spine k shows n p above)
    (hsiblings : Hangs k shows n p (k.child p) siblings) (h : Hangs k shows n p i ts) :
    Reaches k shows n i (Cursor.lookup above siblings ts []) := by
  rw [Cursor.lookup]
  cases ts with
  | nil => exact h.eq_zero_iff.mpr rfl
  | cons t ts =>
      rw [if_neg (by simp)]
      refine ⟨h.ne_zero, ?_⟩
      rw [h.parent_eq]
      exact ⟨hspine, hsiblings, h, .nil i, fun _ _ => rfl⟩

section
variable [DecidableEq ι]

/-- Where a search begins: behind the place, or at the first of the siblings. -/
theorem At.from (h : At k shows n p i c t) :
    Hangs k shows n p (if i = 0 then k.child p else k.next i)
      (if t.here = [] then t.siblings else t.here.tail) := by
  by_cases hi : i = 0
  · rw [if_pos hi, if_pos (h.here.eq_zero_iff.mp hi)]
    exact h.siblings
  · have hne : t.here ≠ [] := fun hnil => hi (h.here.eq_zero_iff.mpr hnil)
    rw [if_neg hi, if_neg hne]
    obtain ⟨u, us, hu⟩ := List.exists_cons_of_ne_nil hne
    have hhere := h.here
    rw [hu] at hhere ⊢
    exact hhere.tail

variable {absolute : Bool}

/-- After a search that ended at `j`. -/
theorem At.find (h : At k shows n p i c t) (hj : Reaches k shows n j (t.next absolute qs)) :
    (t.find absolute qs).1 = decide (j ≠ 0) ∧
      if j = 0 then At k shows n p i c (t.find absolute qs).2
      else At k shows n (k.parent j) j 0 (t.find absolute qs).2 := by
  rw [Cursor.find]
  cases hnext : t.next absolute qs with
  | none =>
      rw [hnext] at hj
      have hzero : j = 0 := hj
      rw [if_pos hzero, hzero]
      exact ⟨by simp, h⟩
  | some d =>
      rw [hnext] at hj
      rw [if_neg hj.1]
      exact ⟨by simp [hj.1], hj.2⟩

/-- Where a reader is that looks at children: at the first of the siblings, if it was not at one
of them and there are any. -/
theorem At.main (h : At k shows n p i c t) :
    if i = 0 ∧ k.child p ≠ 0 then At k shows n (k.parent (k.child p)) (k.child p) 0 t.main
    else At k shows n p i c t.main := by
  have hfrom := h.from
  rw [Cursor.main]
  by_cases hi : i = 0
  · have hhere := h.here.eq_zero_iff.mp hi
    rw [if_pos hi, if_pos hhere] at hfrom
    have hreaches : Reaches k shows n (k.child p) (t.next false []) := by
      rw [Cursor.next, if_neg (by simp), if_pos hhere]
      exact reaches_lookup h.spine h.siblings hfrom
    have hfind := h.find hreaches
    rw [if_pos hhere]
    by_cases hp : k.child p = 0
    · rw [if_neg fun hand => hand.2 hp]
      rw [if_pos hp] at hfind
      exact hfind.2
    · rw [if_pos ⟨hi, hp⟩]
      rw [if_neg hp] at hfind
      exact hfind.2
  · rw [if_neg fun hnil => hi (h.here.eq_zero_iff.mpr hnil), if_neg fun hand => hi hand.1]
    exact h

/-- After a search for a child that ended at `j`. -/
theorem At.findKid (h : At k shows n p i c t.main)
    (hj : Reaches k shows n j (t.main.inside.next absolute qs)) (hroot : k.parent 0 = 0) :
    (t.findKid absolute qs).1 = decide (j ≠ 0) ∧
      if j = 0 then At k shows n p i c (t.findKid absolute qs).2
      else At k shows n (k.parent (k.parent j)) (k.parent j) j (t.findKid absolute qs).2 := by
  rw [Cursor.findKid]
  cases hnext : t.main.inside.next absolute qs with
  | none =>
      rw [hnext] at hj
      have hzero : j = 0 := hj
      rw [if_pos hzero, hzero]
      exact ⟨by simp, h⟩
  | some d =>
      rw [hnext] at hj
      rw [if_neg hj.1]
      exact ⟨by simp [hj.1], hj.2.asKids hroot⟩

end

end Spp.Forest
