import Mathlib.Data.List.Induction
import Mathlib.Data.List.Nodup
import Mathlib.Logic.Function.Basic

/-!
# Linked lists in arrays of links

A linked list is kept as an array of links: `next i` is the node behind `i`, `prev i`
the one before it, and `none` ends the list.  The predicates say which list of nodes
the links spell; the lemmas say what that list is after a link has been changed.

## Main definitions

* `Path next h l t` — from `h` the links lead through the nodes `l` to `t`.
* `Chain next h l` — from `h` they lead through `l` to the end.
* `Back prev p l` — the links back from `l`, where `p` stands before it.
* `Linked next prev h l` — a doubly linked list.
* `pushPrev`, `unlinkNext`, `unlinkPrev` — the links after a node is put before a
  list, or taken out of it.
-/

namespace Spp.Links

variable {ι : Type*} {next prev : ι → Option ι} {h t p : Option ι} {l a b : List ι} {i : ι}

/-- From `h` the links lead through the nodes `l` to `t`. -/
def Path (next : ι → Option ι) : Option ι → List ι → Option ι → Prop
  | h, [], t => h = t
  | h, i :: l, t => h = some i ∧ Path next (next i) l t

/-- From `h` the links lead through the nodes `l` to the end. -/
def Chain (next : ι → Option ι) (h : Option ι) (l : List ι) : Prop := Path next h l none

/-- The links back from the nodes `l`, where `p` stands before the first one. -/
def Back (prev : ι → Option ι) : Option ι → List ι → Prop
  | _, [] => True
  | p, i :: l => prev i = p ∧ Back prev (some i) l

@[simp] theorem path_nil : Path next h [] t ↔ h = t := Iff.rfl
@[simp] theorem path_cons : Path next h (i :: l) t ↔ h = some i ∧ Path next (next i) l t := Iff.rfl
@[simp] theorem chain_nil : Chain next h [] ↔ h = none := Iff.rfl
@[simp] theorem chain_cons : Chain next h (i :: l) ↔ h = some i ∧ Chain next (next i) l := Iff.rfl
@[simp] theorem back_nil : Back prev p [] := trivial
@[simp] theorem back_cons : Back prev p (i :: l) ↔ prev i = p ∧ Back prev (some i) l := Iff.rfl

theorem path_append : Path next h (a ++ b) t ↔ ∃ u, Path next h a u ∧ Path next u b t := by
  induction a generalizing h with
  | nil => simp
  | cons j a ih => simp [ih, and_assoc]

theorem back_append :
    Back prev p (a ++ b) ↔ Back prev p a ∧ Back prev (a.getLast?.or p) b := by
  induction a generalizing p with
  | nil => simp
  | cons j a ih =>
      rw [List.cons_append, back_cons, back_cons, ih, and_assoc]
      cases a with
      | nil => simp
      | cons k a => simp [List.getLast?_cons]

/-- The first link of a chain is its first node. -/
theorem Chain.head (hl : Chain next h l) : h = l.head? := by
  cases l with
  | nil => exact hl
  | cons j l => exact hl.1

/-- A node's link leads to the one behind it. -/
theorem Chain.bind_getElem? (hl : Chain next h l) (n : ℕ) : l[n]?.bind next = l[n + 1]? := by
  induction l generalizing h n with
  | nil => simp
  | cons j l ih =>
      cases n with
      | zero => simpa [List.head?_eq_getElem?] using Chain.head hl.2
      | succ n => simpa using ih hl.2 n

/-- The links spell one list only. -/
theorem Chain.unique {l' : List ι} (hl : Chain next h l) (hl' : Chain next h l') : l = l' := by
  induction l generalizing h l' with
  | nil =>
      have hnone : h = none := hl
      rw [hnone] at hl'
      cases l' with
      | nil => rfl
      | cons j l' => exact absurd hl'.1 (by simp)
  | cons j l ih =>
      obtain ⟨rfl, hl⟩ := hl
      cases l' with
      | nil => exact absurd hl' (by simp)
      | cons k l' =>
          obtain ⟨heq, hl'⟩ := hl'
          obtain rfl : j = k := Option.some.inj heq
          rw [ih hl hl']

/-- Links of other nodes do not matter. -/
theorem Path.congr {next' : ι → Option ι} (hl : Path next h l t)
    (heq : ∀ j ∈ l, next' j = next j) : Path next' h l t := by
  induction l generalizing h with
  | nil => exact hl
  | cons j l ih =>
      refine ⟨hl.1, ?_⟩
      rw [heq j List.mem_cons_self]
      exact ih hl.2 fun k hk => heq k (.tail _ hk)

theorem Chain.congr {next' : ι → Option ι} (hl : Chain next h l)
    (heq : ∀ j ∈ l, next' j = next j) : Chain next' h l := Path.congr hl heq

theorem Back.congr {prev' : ι → Option ι} (hl : Back prev p l)
    (heq : ∀ j ∈ l, prev' j = prev j) : Back prev' p l := by
  induction l generalizing p with
  | nil => trivial
  | cons j l ih =>
      exact ⟨(heq j List.mem_cons_self).trans hl.1, ih hl.2 fun k hk => heq k (.tail _ hk)⟩

/-- A doubly linked list. -/
structure Linked (next prev : ι → Option ι) (h : Option ι) (l : List ι) : Prop where
  chain : Chain next h l
  back : Back prev none l

theorem Linked.congr {next' prev' : ι → Option ι} (hl : Linked next prev h l)
    (hnext : ∀ j ∈ l, next' j = next j) (hprev : ∀ j ∈ l, prev' j = prev j) :
    Linked next' prev' h l :=
  ⟨hl.chain.congr hnext, hl.back.congr hprev⟩

/-- The neighbours of an inner node. -/
theorem Linked.neighbours (hl : Linked next prev h (a ++ i :: b)) :
    next i = b.head? ∧ prev i = a.getLast? := by
  obtain ⟨u, -, hu⟩ := path_append.mp hl.chain
  have hback := (back_append.mp hl.back).2.1
  rw [Option.or_none] at hback
  exact ⟨Chain.head hu.2, hback⟩

/-- The links back spell the list backwards. -/
theorem Back.reverse (hl : Back prev none l) : Chain prev l.getLast? l.reverse := by
  induction l using List.reverseRecOn with
  | nil => rfl
  | append_singleton a i ih =>
      obtain ⟨hback, hlast, -⟩ := back_append.mp hl
      rw [List.getLast?_concat, List.reverse_append]
      refine ⟨rfl, ?_⟩
      rw [hlast, Option.or_none]
      exact ih hback

section
variable [DecidableEq ι] {v : Option ι}

theorem update_apply_of_notMem {f : ι → Option ι} (hi : i ∉ l) :
    ∀ j ∈ l, Function.update f i v j = f j := by
  intro j hj
  rw [Function.update_of_ne]
  rintro rfl
  exact hi hj

theorem Path.update (hl : Path next h l t) (hi : i ∉ l) :
    Path (Function.update next i v) h l t := hl.congr (update_apply_of_notMem hi)

theorem Chain.update (hl : Chain next h l) (hi : i ∉ l) :
    Chain (Function.update next i v) h l := hl.congr (update_apply_of_notMem hi)

theorem Back.update (hl : Back prev p l) (hi : i ∉ l) :
    Back (Function.update prev i v) p l := hl.congr (update_apply_of_notMem hi)

/-- A node that is linked to the head of a chain lies before it. -/
theorem Chain.push (hl : Chain next h l) (hi : i ∉ l) :
    Chain (Function.update next i h) (some i) (i :: l) := by
  refine ⟨rfl, ?_⟩
  rw [Function.update_self]
  exact hl.update hi

/-- The links back after `i` has been put before the node `h`. -/
def pushPrev (prev : ι → Option ι) (h : Option ι) (i : ι) : ι → Option ι :=
  match h with
  | none => Function.update prev i none
  | some j => Function.update (Function.update prev i none) j (some i)

theorem pushPrev_of_ne {j : ι} (hj : j ≠ i) (hh : h ≠ some j) :
    pushPrev prev h i j = prev j := by
  unfold pushPrev
  cases h with
  | none => exact Function.update_of_ne hj _ _
  | some k =>
      have hjk : j ≠ k := fun heq => hh (congrArg some heq.symm)
      exact (Function.update_of_ne hjk _ _).trans (Function.update_of_ne hj _ _)

/-- Putting a node before a doubly linked list. -/
theorem Linked.push (hl : Linked next prev h l) (hnd : (i :: l).Nodup) :
    Linked (Function.update next i h) (pushPrev prev h i) (some i) (i :: l) := by
  obtain ⟨hi, hnd⟩ := List.nodup_cons.mp hnd
  refine ⟨hl.chain.push hi, ?_⟩
  have hhead := hl.chain.head
  have hback := hl.back
  cases l with
  | nil =>
      subst hhead
      exact ⟨Function.update_self _ _ _, trivial⟩
  | cons j l =>
      subst hhead
      have hij : i ≠ j := fun heq => hi (heq ▸ List.mem_cons_self)
      refine ⟨?_, Function.update_self _ _ _, ?_⟩
      · exact (Function.update_of_ne hij _ _).trans (Function.update_self _ _ _)
      · exact (hback.2.update fun hmem => hi (.tail _ hmem)).update (List.nodup_cons.mp hnd).1

/-- The links after `i` has been taken out: its predecessor leads behind it. -/
def unlinkNext (next prev : ι → Option ι) (i : ι) : ι → Option ι :=
  match prev i with
  | none => next
  | some p => Function.update next p (next i)

/-- The links back after `i` has been taken out. -/
def unlinkPrev (next prev : ι → Option ι) (i : ι) : ι → Option ι :=
  match next i with
  | none => prev
  | some n => Function.update prev n (prev i)

/-- Only the predecessor's link changes. -/
theorem unlinkNext_of_ne {j : ι} (hj : prev i ≠ some j) :
    unlinkNext next prev i j = next j := by
  unfold unlinkNext
  cases hp : prev i with
  | none => rfl
  | some p =>
      rw [hp] at hj
      exact Function.update_of_ne (fun heq => hj (congrArg some heq.symm)) _ _

theorem unlinkPrev_of_ne {j : ι} (hj : next i ≠ some j) :
    unlinkPrev next prev i j = prev j := by
  unfold unlinkPrev
  cases hn : next i with
  | none => rfl
  | some n =>
      rw [hn] at hj
      exact Function.update_of_ne (fun heq => hj (congrArg some heq.symm)) _ _

/-- Taking a node out of a doubly linked list. -/
theorem Linked.unlink (hl : Linked next prev h (a ++ i :: b)) (hnd : (a ++ i :: b).Nodup) :
    Linked (unlinkNext next prev i) (unlinkPrev next prev i)
      (if h = some i then next i else h) (a ++ b) := by
  obtain ⟨hnext, hprev⟩ := hl.neighbours
  obtain ⟨u, ha, rfl, hb⟩ := path_append.mp hl.chain
  obtain ⟨hback, -, hback'⟩ := back_append.mp hl.back
  rw [List.nodup_append] at hnd
  obtain ⟨hnda, hndb, hdisj⟩ := hnd
  have hib : i ∉ b := (List.nodup_cons.mp hndb).1
  refine ⟨?_, back_append.mpr ⟨?_, ?_⟩⟩
  · -- the links: the last node of `a`, if any, now leads to `b`
    rcases List.eq_nil_or_concat' a with rfl | ⟨a', q, rfl⟩
    · have hhead : h = some i := ha
      have hnone : prev i = none := hprev
      rw [if_pos hhead, unlinkNext, hnone]
      exact hb
    · have hq : prev i = some q := by simpa using hprev
      have hne : h ≠ some i := by
        intro hhead
        have hmem : i ∈ a' ++ [q] := by
          rw [Chain.head hl.chain] at hhead
          cases a' with
          | nil => simpa using hhead.symm
          | cons j a' => simp at hhead; simp [hhead]
        exact hdisj i hmem i List.mem_cons_self rfl
      obtain ⟨u, ha', rfl, hqi⟩ := path_append.mp ha
      have hnew : unlinkNext next prev i = Function.update next q (next i) := by
        rw [unlinkNext, hq]
      rw [if_neg hne, hnew, List.append_assoc]
      have hqa : q ∉ a' := fun hmem => by
        rw [List.nodup_append] at hnda
        exact hnda.2.2 q hmem q (by simp) rfl
      have hqb : q ∉ b := fun hmem => hdisj q (by simp) q (.tail _ hmem) rfl
      have hstart : Function.update next q (next i) q = next i := Function.update_self _ _ _
      refine path_append.mpr ⟨some q, ha'.update hqa, rfl, ?_⟩
      rw [hstart]
      exact hb.update hqb
  · -- the links back within `a` stay
    refine hback.congr fun j hj => unlinkPrev_of_ne ?_
    rw [hnext]
    intro hhead
    exact hdisj j hj j (.tail _ (List.mem_of_mem_head? hhead)) rfl
  · -- the first node of `b`, if any, now leads back to `a`
    cases b with
    | nil => trivial
    | cons n b =>
        have hn : next i = some n := hnext
        rw [List.nodup_cons, List.nodup_cons] at hndb
        rw [unlinkPrev, hn, hprev, Option.or_none]
        exact ⟨Function.update_self _ _ _, hback'.2.update hndb.2.1⟩

/-- The last node after one has been taken out. -/
theorem getLast?_unlink (hnd : (a ++ i :: b).Nodup) :
    (a ++ b).getLast? =
      if (a ++ i :: b).getLast? = some i then a.getLast? else (a ++ i :: b).getLast? := by
  rcases List.eq_nil_or_concat' b with rfl | ⟨b, n, rfl⟩
  · simp
  · have hne : n ≠ i := by
      rintro rfl
      rw [List.nodup_append] at hnd
      exact (List.nodup_cons.mp hnd.2.1).1 (by simp)
    have hlast : (a ++ i :: (b ++ [n])).getLast? = some n := by
      rw [← List.cons_append, ← List.append_assoc, List.getLast?_concat]
    rw [hlast, if_neg (by simpa using hne), ← List.append_assoc, List.getLast?_concat]

end
end Spp.Links
