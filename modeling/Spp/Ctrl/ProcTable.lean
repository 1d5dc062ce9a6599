import Spp.Ctrl.ListHead
import Spp.Ctrl.Procmon

/-!
# The process table in memory

The monitor's table is an array of groups with ten `list_head`s each, and a process object for
each process, linked into one of them.  Here the calls that touch the table are taken as the
source has them, with the loops that follow the links and with `new` and `delete`, and they
answer as the lists of the monitor do.

## Main definitions

* `Addr`, `Heap` — the memory; `Usable` says where a `list_head` lies.
* `lookFor`, `Heap.findProc`, `Heap.addProc`, `Heap.delProc`, `Heap.recvMsg`, … — the calls.
* `Heap.first`, `Heap.advance` — `list_for_each_entry`, where the body may make other calls.
* `View`, `View.step` — the monitor's lists, and how much of a bucket a walk still has to visit.
-/

namespace Spp.ProcTable

open Rings ListHead

/-! ## The memory -/

/-- Where a `list_head` lies: nowhere, in a bucket of a group, or in a process object. -/
inductive Addr
  | null
  | bucket (groupid j : ℕ)
  | list (p : ℕ)
  deriving DecidableEq

instance instZeroAddr : Zero Addr := ⟨.null⟩

/-- A `TProcGroupObj` without its buckets. -/
structure GroupObj where
  groupinfo : TGroupInfo
  curprocnum : ℤ
  errprocnum : ℤ
  lastCheckGroupTime : ℤ

/-- The memory of a monitor.  A walk over the bucket `head` is at `pos`. -/
structure Heap where
  cells : Cells Addr
  proc : ℕ → Option TProcObj
  group : ℕ → GroupObj
  curGroup : ℕ
  head : Addr
  pos : Addr

/-- There is a `list_head`: in the array of groups, or in an object that is not deleted. -/
def Usable (proc : ℕ → Option TProcObj) : Addr → Prop
  | .null => False
  | .bucket groupid j => groupid < MAX_PROC_GROUP_NUM ∧ j < BUCKET_SIZE
  | .list p => (proc p).isSome

instance instDecidableUsable (proc : ℕ → Option TProcObj) : DecidablePred (Usable proc)
  | .null => inferInstanceAs (Decidable False)
  | .bucket _ _ => inferInstanceAs (Decidable (_ ∧ _))
  | .list _ => inferInstanceAs (Decidable (_ = _))

/-! ## The calls -/

/-- The loop of `find_proc`, in at most `n` turns.  There is no result where it has not ended,
or follows a pointer that leads nowhere. -/
def lookFor (h : Heap) (head : Addr) (procid : ℕ) : ℕ → Addr → Option (Option ℕ)
  | 0, _ => none
  | n + 1, pos =>
      if pos = head then some none
      else
        match pos with
        | .list p => do
            let o ← h.proc p
            if o.procid = procid then return some p
            lookFor h head procid n (← getNext (Usable h.proc) h.cells (.list p))
        | _ => none

namespace Heap

def setGroup (h : Heap) (groupid : ℕ) (g : GroupObj) : Heap :=
  { h with group := Function.update h.group groupid g }

/-- `add_group`. -/
def addGroup (h : Heap) (groupinfo : TGroupInfo) : Option Heap :=
  if h.curGroup < MAX_PROC_GROUP_NUM ∧ h.curGroup = groupinfo.groupid then do
    let cells ← (List.range BUCKET_SIZE).foldlM
      (fun cells j => initListHead (Usable h.proc) cells (.bucket h.curGroup j)) h.cells
    return { h.setGroup h.curGroup ⟨groupinfo, 0, 0, 0⟩ with
      cells := cells, curGroup := h.curGroup + 1 }
  else some h

/-- `mod_group`. -/
def modGroup (h : Heap) (groupid : ℕ) (groupinfo : TGroupInfo) : Heap :=
  if groupid < h.curGroup ∧ groupid = groupinfo.groupid then
    h.setGroup groupid { h.group groupid with groupinfo := groupinfo }
  else h

/-- The loop over the bucket of a process. -/
def look (n : ℕ) (h : Heap) (groupid procid : ℕ) : Option (Option ℕ) := do
  let head := Addr.bucket groupid (procid % BUCKET_SIZE)
  lookFor h head procid n (← getNext (Usable h.proc) h.cells head)

/-- `find_proc`. -/
def findProc (n : ℕ) (h : Heap) (groupid procid : ℕ) : Option (Option ℕ) :=
  if groupid ≥ h.curGroup then some none else h.look n groupid procid

/-- `add_proc`, where `new` gives the address `p`. -/
def addProc (h : Heap) (groupid : ℕ) (procinfo : TProcInfo) (now : ℤ) (p : ℕ) : Option Heap :=
  if groupid ≥ h.curGroup then some h
  else do
    let proc := Function.update h.proc p (some ⟨procinfo, 0, now⟩)
    let cells ← initListHead (Usable proc) h.cells (.list p)
    let cells ← listAdd (Usable proc) cells (.list p)
      (.bucket groupid (procinfo.procid % BUCKET_SIZE))
    let g := h.group groupid
    return { h.setGroup groupid { g with curprocnum := g.curprocnum + 1 } with
      cells := cells, proc := proc }

/-- `list_del` and `delete`. -/
def unlink (h : Heap) (p : ℕ) : Option Heap := do
  let cells ← listDel (Usable h.proc) h.cells (.list p)
  return { h with cells := cells, proc := Function.update h.proc p none }

/-- `del_proc`; the count goes down also where nothing is found. -/
def delProc (n : ℕ) (h : Heap) (groupid procid : ℕ) : Option Heap :=
  if groupid ≥ h.curGroup then some h
  else do
    let h ← match ← h.look n groupid procid with
      | some p => h.unlink p
      | none => some h
    let g := h.group groupid
    return h.setGroup groupid { g with curprocnum := g.curprocnum - 1 }

/-- A write to a process object. -/
def write (h : Heap) (p : ℕ) (f : TProcObj → TProcObj) : Heap :=
  { h with proc := Function.update h.proc p ((h.proc p).map f) }

/-- A write through the pointer to a registered process. -/
def modProc (n : ℕ) (h : Heap) (groupid procid : ℕ) (f : TProcObj → TProcObj) :
    Option Heap := do
  match ← h.look n groupid procid with
  | some p => return h.write p f
  | none => return h

/-- What `do_recv` does with one message. -/
def recvMsg (n : ℕ) (h : Heap) (m : TProcMonMsg) (p : ℕ) : Option Heap :=
  if m.srctype % 2 = 1 then do
    match ← h.findProc n m.procinfo.groupid m.procinfo.procid with
    | some q => return h.write q fun o => { o with procinfo := m.procinfo }
    | none => h.addProc m.procinfo.groupid m.procinfo m.now p
  else some h

/-- The process that a walk is at, if it has not ended. -/
def current (h : Heap) : Option (Option TProcObj) :=
  if h.pos = h.head then some none
  else
    match h.pos with
    | .list p => (h.proc p).map some
    | _ => none

/-- `list_for_each_entry` begins. -/
def first (h : Heap) (groupid j : ℕ) : Option Heap := do
  let head := Addr.bucket groupid j
  let pos ← getNext (Usable h.proc) h.cells head
  return { h with head := head, pos := pos }

/-- `list_for_each_entry` goes on. -/
def advance (h : Heap) : Option Heap := do
  let pos ← getNext (Usable h.proc) h.cells h.pos
  return { h with pos := pos }

end Heap

/-! ## Runs of calls -/

/-- A call on the table. -/
inductive Op
  | addGroup (groupinfo : TGroupInfo)
  | modGroup (groupid : ℕ) (groupinfo : TGroupInfo)
  | recv (m : TProcMonMsg) (p : ℕ)
  | find (groupid procid : ℕ)
  | del (groupid procid : ℕ)
  | write (groupid procid : ℕ) (f : TProcObj → TProcObj)
  | first (groupid j : ℕ)
  | advance

/-- What a call gives; `crash` is an access where nothing lies, or a loop that does not end. -/
inductive Answer
  | done
  | proc (o : Option TProcObj)
  | crash

/-- The answer of a call that changes the memory. -/
def changing (h : Option Heap) : Option Heap × Answer :=
  (h, if h.isSome then .done else .crash)

/-- The answer of a call that moves a walk. -/
def walking (h : Option Heap) : Option Heap × Answer :=
  (h, ((h.bind Heap.current).map .proc).getD .crash)

/-- One call, with loops of at most `n` turns. -/
def exec (n : ℕ) (h : Heap) : Op → Option Heap × Answer
  | .addGroup groupinfo => changing (h.addGroup groupinfo)
  | .modGroup groupid groupinfo => changing (some (h.modGroup groupid groupinfo))
  | .recv m p => changing (h.recvMsg n m p)
  | .find groupid procid =>
      (some h, ((h.findProc n groupid procid).map fun p => .proc (p.bind h.proc)).getD .crash)
  | .del groupid procid => changing (h.delProc n groupid procid)
  | .write groupid procid f => changing (h.modProc n groupid procid f)
  | .first groupid j => walking (h.first groupid j)
  | .advance => walking h.advance

def step (n : ℕ) (h : Option Heap) (op : Op) : Option Heap × Answer :=
  match h with
  | some h => exec n h op
  | none => (none, .crash)

/-- `new` gives memory that is not in use. -/
def Fresh (h : Option Heap) : Op → Prop
  | .recv _ p => ∀ heap ∈ h, heap.proc p = none
  | _ => True

/-! ## The lists of the monitor -/

/-- The monitor's lists.  A walk over a bucket has the last `k` of its processes to visit. -/
structure View where
  srv : MonSrv
  walk : Option (ℕ × ℕ × ℕ)

/-- The last `k` processes of a bucket. -/
def View.rest (v : View) (groupid j k : ℕ) : List TProcObj :=
  let l := (v.srv.procGroups groupid).bucket j
  l.drop (l.length - k)

/-- A walk is moved on. -/
def View.goto (v : View) (groupid j k : ℕ) : View × Answer :=
  ({ v with walk := some (groupid, j, k) }, .proc (v.rest groupid j k).head?)

/-- What the calls mean.  A walk cannot go on after a process has been taken out. -/
def View.step (v : View) : Op → View × Answer
  | .addGroup groupinfo => ({ v with srv := v.srv.addGroup groupinfo }, .done)
  | .modGroup groupid groupinfo => ({ v with srv := v.srv.modGroup groupid groupinfo }, .done)
  | .recv m _ => ({ v with srv := v.srv.recvMsg m }, .done)
  | .find groupid procid => (v, .proc (v.srv.findProc groupid procid))
  | .del groupid procid => (⟨v.srv.delProc groupid procid, none⟩, .done)
  | .write groupid procid f => ({ v with srv := v.srv.modProc groupid procid f }, .done)
  | .first groupid j => v.goto groupid j ((v.srv.procGroups groupid).bucket j).length
  | .advance =>
      match v.walk with
      | some (groupid, j, k) => v.goto groupid j (k - 1)
      | none => (v, .crash)

/-- How the monitor uses the table: it walks over buckets that there are, goes on only from a
process that is still there, and writes to processes of its groups. -/
def Op.Legal (v : View) : Op → Prop
  | .write groupid _ _ => groupid < v.srv.curGroup
  | .first groupid j => groupid < v.srv.curGroup ∧ j < BUCKET_SIZE
  | .advance => ∃ groupid j k, v.walk = some (groupid, j, k + 1)
  | _ => True

/-! ## The refinement -/

/-- The objects of each bucket. -/
abbrev Ptrs := ℕ → ℕ → List ℕ

/-- One bucket gets other objects. -/
def Ptrs.set (ptrs : Ptrs) (groupid j : ℕ) (l : List ℕ) : Ptrs :=
  Function.update ptrs groupid (Function.update (ptrs groupid) j l)

/-- The `list_head`s that are heads, and the objects that hang on them. -/
def heads (curGroup : ℕ) (ptrs : Ptrs) : Heads Addr
  | .bucket groupid j =>
      if groupid < curGroup ∧ j < BUCKET_SIZE then some ((ptrs groupid j).map .list) else none
  | _ => none

/-- A group without its buckets. -/
def fixed (g : TProcGroupObj) : GroupObj :=
  ⟨g.groupinfo, g.curprocnum, g.errprocnum, g.lastCheckGroupTime⟩

/-- A walk is at the first of the objects that it still has to visit. -/
def AtWalk (h : Heap) (ptrs : Ptrs) (groupid j k : ℕ) : Prop :=
  groupid < h.curGroup ∧ j < BUCKET_SIZE ∧ h.head = .bucket groupid j ∧
    ∃ A B, ptrs groupid j = A ++ B ∧ B.length = k ∧
      h.pos = (B.map Addr.list).headD (.bucket groupid j)

/-- The memory holds the monitor's lists, with the objects `ptrs`. -/
structure Refines (ptrs : Ptrs) (h : Heap) (v : View) : Prop where
  curGroup : v.srv.curGroup = h.curGroup
  le : h.curGroup ≤ MAX_PROC_GROUP_NUM
  group : ∀ i < h.curGroup, h.group i = fixed (v.srv.procGroups i)
  sound : Sound (Usable h.proc) h.cells (heads h.curGroup ptrs)
  procs : ∀ i < h.curGroup, ∀ j < BUCKET_SIZE,
    (ptrs i j).map h.proc = ((v.srv.procGroups i).bucket j).map some
  walk : ∀ {i j k}, v.walk = some (i, j, k) → AtWalk h ptrs i j k

variable {ptrs : Ptrs} {h : Heap} {v : View} {n groupid procid i j k p : ℕ}

theorem bucket_ne_list (i j p : ℕ) : Addr.bucket i j ≠ .list p := nofun

@[simp] theorem Ptrs.set_self (ptrs : Ptrs) (i j : ℕ) (l : List ℕ) : ptrs.set i j l i j = l := by
  simp [Ptrs.set]

theorem Ptrs.set_of_ne (ptrs : Ptrs) (l : List ℕ) {i' j' : ℕ} (hne : ¬(i' = i ∧ j' = j)) :
    ptrs.set i j l i' j' = ptrs i' j' := by
  by_cases hi : i' = i
  · subst hi
    rw [Ptrs.set, Function.update_self, Function.update_of_ne (by simpa using hne)]
  · rw [Ptrs.set, Function.update_of_ne hi]

theorem heads_bucket (ptrs : Ptrs) {cur : ℕ} (hi : i < cur) (hj : j < BUCKET_SIZE) :
    heads cur ptrs (.bucket i j) = some ((ptrs i j).map .list) := if_pos ⟨hi, hj⟩

theorem heads_set (ptrs : Ptrs) {cur : ℕ} (hi : i < cur) (hj : j < BUCKET_SIZE) (l : List ℕ) :
    heads cur (ptrs.set i j l) =
      Function.update (heads cur ptrs) (.bucket i j) (some (l.map .list)) := by
  funext a
  by_cases ha : a = .bucket i j
  · subst ha
    rw [Function.update_self, heads_bucket _ hi hj, Ptrs.set_self]
  · rw [Function.update_of_ne ha]
    cases a with
    | bucket i' j' =>
        have hne : ¬(i' = i ∧ j' = j) := by
          rintro ⟨rfl, rfl⟩
          exact ha rfl
        rw [heads, heads, Ptrs.set_of_ne ptrs l hne]
    | null => rfl
    | list p => rfl

/-! ## Looking for a process -/

/-- A bucket's objects and its processes, up to the first one with a property. -/
theorem find_cases {proc : ℕ → Option TProcObj} {L : List ℕ} {l : List TProcObj}
    (hl : L.map proc = l.map some) (q : TProcObj → Bool) :
    (L.find? fun p => (proc p).any q) = none ∧ (∀ o ∈ l, ¬q o) ∨
    ∃ A p B A' o B', L = A ++ p :: B ∧ l = A' ++ o :: B' ∧ A.map proc = A'.map some ∧
      proc p = some o ∧ B.map proc = B'.map some ∧ q o ∧ (∀ a ∈ A', ¬q a) ∧
      (L.find? fun p => (proc p).any q) = some p := by
  induction L generalizing l with
  | nil =>
      left
      obtain rfl : l = [] := by simpa using hl.symm
      simp
  | cons p L ih =>
      cases l with
      | nil => simp at hl
      | cons o l =>
          obtain ⟨hp, hl⟩ := List.cons_eq_cons.mp hl
          by_cases hq : q o
          · exact .inr ⟨[], p, L, [], o, l, rfl, rfl, rfl, hp, hl, hq, nofun, by simp [hp, hq]⟩
          · have hskip : ((p :: L).find? fun p => (proc p).any q) =
                L.find? fun p => (proc p).any q := List.find?_cons_of_neg (by simpa [hp] using hq)
            rcases ih hl with ⟨hnone, hall⟩ |
              ⟨A, p', B, A', o', B', rfl, rfl, hA, hp₁, hB, hq', hA', hsome⟩
            · left
              rw [hskip]
              exact ⟨hnone, by simpa [hq] using hall⟩
            · refine .inr ⟨p :: A, p', B, o :: A', o', B', rfl, rfl, ?_, hp₁, hB, hq', ?_, ?_⟩
              · rw [List.map_cons, List.map_cons, hp, hA]
              · simpa [hq] using hA'
              · rwa [hskip]

/-- The loop of `find_proc` finds the first object with the id. -/
theorem lookFor_eq {head : Addr} {B : List ℕ} (hhead : ∀ p, head ≠ .list p)
    (hproc : ∀ p ∈ B, (h.proc p).isSome)
    (hload : ∀ A p C, B = A ++ p :: C →
      getNext (Usable h.proc) h.cells (.list p) = some ((C.map Addr.list).headD head))
    (hn : B.length < n) :
    lookFor h head procid n ((B.map Addr.list).headD head) =
      some (B.find? fun p => (h.proc p).any fun o => o.procid = procid) := by
  induction n generalizing B with
  | zero => omega
  | succ n ih =>
      cases B with
      | nil => simp [lookFor]
      | cons p B =>
          obtain ⟨o, ho⟩ := Option.isSome_iff_exists.mp (hproc p List.mem_cons_self)
          have hrest := ih (fun q hq => hproc q (.tail _ hq))
            (fun A q C hB => hload (p :: A) q C (by rw [hB, List.cons_append]))
            (by rw [List.length_cons] at hn; omega)
          rw [List.map_cons, List.headD_cons, lookFor, if_neg (hhead p).symm]
          simp only [ho, hload [] p B rfl, hrest, Option.bind_eq_bind, Option.bind_some]
          by_cases hid : o.procid = procid
          · simp [hid, ho]
          · simp [hid, ho]

namespace Refines

theorem length_eq (hr : Refines ptrs h v) (hi : i < h.curGroup) (hj : j < BUCKET_SIZE) :
    (ptrs i j).length = ((v.srv.procGroups i).bucket j).length := by
  have hlen := congrArg List.length (hr.procs i hi j hj)
  rwa [List.length_map, List.length_map] at hlen

theorem isSome_of_mem (hr : Refines ptrs h v) (hi : i < h.curGroup) (hj : j < BUCKET_SIZE)
    (hp : p ∈ ptrs i j) : (h.proc p).isSome :=
  hr.sound.ok (heads_bucket ptrs hi hj) (.list p) (.tail _ (List.mem_map_of_mem hp))

/-- From an object the links lead to the one behind it in its bucket. -/
theorem getNext_list (hr : Refines ptrs h v) (hi : i < h.curGroup) (hj : j < BUCKET_SIZE)
    {A B : List ℕ} (hl : ptrs i j = A ++ p :: B) :
    getNext (Usable h.proc) h.cells (.list p) =
      some ((B.map Addr.list).headD (.bucket i j)) := by
  have hhead := heads_bucket ptrs hi hj
  have hmem : Addr.list p ∈ Addr.bucket i j :: (ptrs i j).map .list := by simp [hl]
  have hring := hr.sound.ring hhead
  rw [hl, List.map_append, List.map_cons] at hring
  rw [hr.sound.getNext_eq hhead hmem, hring.neighbours.1]

theorem getNext_bucket (hr : Refines ptrs h v) (hi : i < h.curGroup) (hj : j < BUCKET_SIZE) :
    getNext (Usable h.proc) h.cells (.bucket i j) =
      some (((ptrs i j).map Addr.list).headD (.bucket i j)) :=
  hr.sound.getNext_head (heads_bucket ptrs hi hj)

theorem look_eq (hr : Refines ptrs h v) (hi : i < h.curGroup)
    (hn : (ptrs i (procid % BUCKET_SIZE)).length < n) :
    h.look n i procid = some ((ptrs i (procid % BUCKET_SIZE)).find? fun p =>
      (h.proc p).any fun o => o.procid = procid) := by
  have hj : procid % BUCKET_SIZE < BUCKET_SIZE := Nat.mod_lt _ (by decide)
  rw [Heap.look, hr.getNext_bucket hi hj]
  refine lookFor_eq nofun (fun p hp => hr.isSome_of_mem hi hj hp) (fun A p C hl => ?_) hn
  exact hr.getNext_list hi hj hl

theorem nodup (hr : Refines ptrs h v) (hi : i < h.curGroup) (hj : j < BUCKET_SIZE) :
    (ptrs i j).Nodup :=
  (List.nodup_cons.mp (hr.sound.ring (heads_bucket ptrs hi hj)).nodup).2.of_map _

/-- An object is in one bucket only. -/
theorem notMem_of_ne (hr : Refines ptrs h v) (hi : i < h.curGroup) (hj : j < BUCKET_SIZE)
    (hp : p ∈ ptrs i j) {i' j' : ℕ} (hi' : i' < h.curGroup) (hj' : j' < BUCKET_SIZE)
    (hne : ¬(i' = i ∧ j' = j)) : p ∉ ptrs i' j' := by
  have hne' : Addr.bucket i' j' ≠ .bucket i j := by simpa using hne
  have hnot := hr.sound.notMem_of_ne (heads_bucket ptrs hi hj) (List.mem_map_of_mem hp) hne'
    (heads_bucket ptrs hi' hj')
  exact fun hmem => hnot (.tail _ (List.mem_map_of_mem hmem))

/-- What the loop of `find_proc` finds in a bucket. -/
theorem look_cases (hr : Refines ptrs h v) (hi : i < h.curGroup) (procid : ℕ)
    (hn : ((v.srv.procGroups i).bucket (procid % BUCKET_SIZE)).length < n) :
    h.look n i procid = some none ∧
        (∀ o ∈ (v.srv.procGroups i).bucket (procid % BUCKET_SIZE), ¬decide (o.procid = procid)) ∨
    ∃ A p B A' o B', ptrs i (procid % BUCKET_SIZE) = A ++ p :: B ∧
      (v.srv.procGroups i).bucket (procid % BUCKET_SIZE) = A' ++ o :: B' ∧
      A.map h.proc = A'.map some ∧ h.proc p = some o ∧ B.map h.proc = B'.map some ∧
      decide (o.procid = procid) ∧ (∀ a ∈ A', ¬decide (a.procid = procid)) ∧
      h.look n i procid = some (some p) := by
  have hj : procid % BUCKET_SIZE < BUCKET_SIZE := Nat.mod_lt _ (by decide)
  rw [← hr.length_eq hi hj] at hn
  rw [hr.look_eq hi hn]
  simpa using find_cases (hr.procs i hi _ hj) fun o => o.procid = procid

/-- One bucket gets other objects. -/
theorem setBucket (hr : Refines ptrs h v) {h' : Heap} {v' : View} (hi : i < h.curGroup)
    (hj : j < BUCKET_SIZE) {L : List ℕ} {l : List TProcObj}
    (hcur : h'.curGroup = h.curGroup) (hcur' : v'.srv.curGroup = v.srv.curGroup)
    (hgroup : ∀ k < h.curGroup, h'.group k = fixed (v'.srv.procGroups k))
    (hsound : Sound (Usable h'.proc) h'.cells
      (Function.update (heads h.curGroup ptrs) (.bucket i j) (some (L.map .list))))
    (hbucket : ∀ i' j', (v'.srv.procGroups i').bucket j' =
      if i' = i ∧ j' = j then l else (v.srv.procGroups i').bucket j')
    (hsame : ∀ i' < h.curGroup, ∀ j' < BUCKET_SIZE, ¬(i' = i ∧ j' = j) →
      ∀ q ∈ ptrs i' j', h'.proc q = h.proc q)
    (hprocs : L.map h'.proc = l.map some)
    (hwalk : ∀ {i' j' k}, v'.walk = some (i', j', k) → AtWalk h' (ptrs.set i j L) i' j' k) :
    Refines (ptrs.set i j L) h' v' where
  curGroup := by rw [hcur', hr.curGroup, hcur]
  le := hcur ▸ hr.le
  group k hk := hgroup k (hcur ▸ hk)
  sound := by rwa [hcur, heads_set ptrs hi hj]
  procs i' hi' j' hj' := by
    rw [hcur] at hi'
    rw [hbucket]
    by_cases heq : i' = i ∧ j' = j
    · rw [if_pos heq, heq.1, heq.2, Ptrs.set_self, hprocs]
    · rw [if_neg heq, Ptrs.set_of_ne ptrs L heq, ← hr.procs i' hi' j' hj']
      exact List.map_congr_left (hsame i' hi' j' hj' heq)
  walk := hwalk

end Refines

/-! ## Each call -/

theorem bucket_setGroup (s : MonSrv) {g : TProcGroupObj} {l : List TProcObj}
    (hg : g.bucket = Function.update (s.procGroups i).bucket j l) (i' j' : ℕ) :
    ((s.setGroup i g).procGroups i').bucket j' =
      if i' = i ∧ j' = j then l else (s.procGroups i').bucket j' := by
  by_cases hi : i' = i
  · subst hi
    rw [MonSrv.setGroup_self, hg]
    by_cases hj : j' = j
    · rw [hj, Function.update_self, if_pos ⟨rfl, rfl⟩]
    · rw [Function.update_of_ne hj, if_neg fun heq => hj heq.2]
  · rw [MonSrv.setGroup_of_ne s g hi, if_neg fun heq => hi heq.1]

theorem fixed_setGroup {s : MonSrv} {group : ℕ → GroupObj} {g : TProcGroupObj} {g' : GroupObj}
    {cur : ℕ} (hgroup : ∀ k < cur, k ≠ i → group k = fixed (s.procGroups k)) (hg : g' = fixed g) :
    ∀ k < cur, Function.update group i g' k = fixed ((s.setGroup i g).procGroups k) := by
  intro k hk
  by_cases hki : k = i
  · rw [hki, Function.update_self, MonSrv.setGroup_self, hg]
  · rw [Function.update_of_ne hki, MonSrv.setGroup_of_ne s g hki, hgroup k hk hki]

theorem map_update_of_notMem {proc : ℕ → Option TProcObj} {L : List ℕ} (hp : p ∉ L)
    (o : Option TProcObj) : L.map (Function.update proc p o) = L.map proc :=
  List.map_congr_left fun _ hq => Function.update_of_ne (ne_of_mem_of_not_mem hq hp) _ _

@[simp] theorem proc_write (h : Heap) (p : ℕ) (f : TProcObj → TProcObj) :
    (h.write p f).proc = Function.update h.proc p ((h.proc p).map f) := rfl

theorem usable_congr {proc proc' : ℕ → Option TProcObj} {a : Addr} (ha : Usable proc a)
    (hproc : ∀ q, a = .list q → (proc q).isSome → (proc' q).isSome) : Usable proc' a := by
  cases a with
  | null => exact ha
  | bucket i j => exact ha
  | list q => exact hproc q rfl ha

namespace Refines

theorem group_modProc (hr : Refines ptrs h v) (hi : i < h.curGroup) (procid : ℕ)
    (f : TProcObj → TProcObj) :
    ∀ k < h.curGroup, h.group k = fixed ((v.srv.modProc i procid f).procGroups k) := by
  have hgroup : ∀ k < h.curGroup, Function.update h.group i (h.group i) k =
      fixed ((v.srv.modProc i procid f).procGroups k) :=
    fixed_setGroup (fun k hk _ => hr.group k hk) (hr.group i hi)
  rwa [Function.update_eq_self] at hgroup

/-- A write where nothing is found. -/
theorem write_none (hr : Refines ptrs h v) (hi : i < h.curGroup)
    (hnone : ∀ o ∈ (v.srv.procGroups i).bucket (procid % BUCKET_SIZE),
      ¬decide (o.procid = procid))
    (f : TProcObj → TProcObj) :
    Refines ptrs h { v with srv := v.srv.modProc i procid f } := by
  have hj : procid % BUCKET_SIZE < BUCKET_SIZE := Nat.mod_lt _ (by decide)
  have hsame : ptrs.set i (procid % BUCKET_SIZE) (ptrs i (procid % BUCKET_SIZE)) = ptrs := by
    simp [Ptrs.set]
  rw [← hsame]
  refine hr.setBucket hi hj rfl rfl (hr.group_modProc hi procid f) ?_ (bucket_setGroup _ rfl)
    (fun _ _ _ _ _ _ _ => rfl) ?_ ?_
  · rw [← heads_set ptrs hi hj, hsame]
    exact hr.sound
  · rw [Buckets.modifyFirst_eq_self hnone]
    exact hr.procs i hi _ hj
  · rw [hsame]
    exact hr.walk

/-- A write to the object that is found. -/
theorem write (hr : Refines ptrs h v) (hi : i < h.curGroup) {A B : List ℕ}
    {A' B' : List TProcObj} {o : TProcObj}
    (hptrs : ptrs i (procid % BUCKET_SIZE) = A ++ p :: B)
    (hbucket : (v.srv.procGroups i).bucket (procid % BUCKET_SIZE) = A' ++ o :: B')
    (hA : A.map h.proc = A'.map some) (hp : h.proc p = some o) (hB : B.map h.proc = B'.map some)
    (ho : decide (o.procid = procid)) (hbefore : ∀ a ∈ A', ¬decide (a.procid = procid))
    (f : TProcObj → TProcObj) :
    Refines ptrs (h.write p f) { v with srv := v.srv.modProc i procid f } := by
  have hj : procid % BUCKET_SIZE < BUCKET_SIZE := Nat.mod_lt _ (by decide)
  have hmem : p ∈ ptrs i (procid % BUCKET_SIZE) := by simp [hptrs]
  have hnodup := hr.nodup hi hj
  rw [hptrs, List.nodup_middle, List.nodup_cons, List.mem_append, not_or] at hnodup
  have hsame : ptrs.set i (procid % BUCKET_SIZE) (ptrs i (procid % BUCKET_SIZE)) = ptrs := by
    simp [Ptrs.set]
  rw [← hsame]
  refine hr.setBucket hi hj rfl rfl (hr.group_modProc hi procid f) ?_ (bucket_setGroup _ rfl)
    (fun i' hi' j' hj' hne q hq => ?_) ?_ ?_
  · rw [← heads_set ptrs hi hj, hsame]
    refine hr.sound.mono fun _ _ _ a _ ha => usable_congr ha fun q _ hq => ?_
    by_cases hqp : q = p
    · simp [hqp, hp]
    · rwa [proc_write, Function.update_of_ne hqp]
  · have hqp : q ≠ p := ne_of_mem_of_not_mem hq (hr.notMem_of_ne hi hj hmem hi' hj' hne)
    exact Function.update_of_ne hqp _ _
  · rw [hptrs, hbucket, Buckets.modifyFirst_append hbefore ho, proc_write, List.map_append,
      List.map_cons, map_update_of_notMem hnodup.1.1, map_update_of_notMem hnodup.1.2,
      Function.update_self, hp, hA, hB]
    simp
  · rw [hsame]
    exact hr.walk

/-- `list_del` and `delete` of the object that is found. -/
theorem unlink (hr : Refines ptrs h v) (hi : i < h.curGroup) {A B : List ℕ}
    {A' B' : List TProcObj} {o : TProcObj}
    (hptrs : ptrs i (procid % BUCKET_SIZE) = A ++ p :: B)
    (hbucket : (v.srv.procGroups i).bucket (procid % BUCKET_SIZE) = A' ++ o :: B')
    (hA : A.map h.proc = A'.map some) (hB : B.map h.proc = B'.map some)
    (ho : decide (o.procid = procid)) (hbefore : ∀ a ∈ A', ¬decide (a.procid = procid)) :
    ∃ h', h.unlink p = some h' ∧ h'.curGroup = h.curGroup ∧ h'.group = h.group ∧
      Refines (ptrs.set i (procid % BUCKET_SIZE) (A ++ B))
        (h'.setGroup i { h.group i with curprocnum := (h.group i).curprocnum - 1 })
        ⟨v.srv.delProc i procid, none⟩ := by
  have hj : procid % BUCKET_SIZE < BUCKET_SIZE := Nat.mod_lt _ (by decide)
  have hhead := heads_bucket ptrs hi hj
  have hmem : p ∈ ptrs i (procid % BUCKET_SIZE) := by simp [hptrs]
  have hnodup := hr.nodup hi hj
  rw [hptrs, List.nodup_middle, List.nodup_cons, List.mem_append, not_or] at hnodup
  have hnode : (heads h.curGroup ptrs).Node (.list p) :=
    ⟨_, _, hhead, List.mem_map_of_mem hmem⟩
  obtain ⟨cells, hcells, hsound⟩ := (hr.sound.del (.inl hnode)).1
  have hdel : ListHead.free (erase (heads h.curGroup ptrs) (.list p)) (.list p) =
      Function.update (heads h.curGroup ptrs) (.bucket i (procid % BUCKET_SIZE))
        (some ((A ++ B).map .list)) := by
    rw [hptrs, List.map_append, List.map_cons] at hhead
    have herase := erase_eq hr.sound.toHolds hhead
    rw [← List.map_append] at herase
    rw [herase, free_eq]
    rw [Function.update_of_ne (bucket_ne_list _ _ p).symm]
    rfl
  have hgone := not_node_free (not_node_erase hr.sound.toHolds (.list p)) (.list p)
  rw [hdel] at hsound hgone
  have hdelProc : v.srv.delProc i procid = (v.srv.setGroup i _).emit _ :=
    if_neg (by rw [hr.curGroup]; omega)
  refine ⟨{ h with cells := cells, proc := Function.update h.proc p none },
    by rw [Heap.unlink, hcells]; rfl, rfl, rfl, ?_⟩
  rw [hdelProc]
  refine hr.setBucket hi hj rfl rfl ?_ (hsound.mono fun a l ha b hb hb' => ?_)
    (bucket_setGroup _ rfl) (fun i' hi' j' hj' hne q hq => ?_) ?_ nofun
  · exact fixed_setGroup (fun k hk _ => hr.group k hk) (by rw [hr.group i hi]; rfl)
  · refine usable_congr hb' fun q hq hsome => ?_
    have hqp : q ≠ p := by
      rintro rfl
      subst hq
      refine Heads.notMem hgone ?_ ha hb
      rintro rfl
      cases ha
    exact (congrArg Option.isSome (Function.update_of_ne hqp none h.proc)).trans hsome
  · have hqp : q ≠ p := ne_of_mem_of_not_mem hq (hr.notMem_of_ne hi hj hmem hi' hj' hne)
    exact Function.update_of_ne hqp _ _
  · have herase : ((v.srv.procGroups i).bucket (procid % BUCKET_SIZE)).eraseP
        (fun a => decide (a.procid = procid)) = A' ++ B' := by
      rw [hbucket, List.eraseP_append_right _ hbefore]
      exact congrArg (A' ++ ·) (List.eraseP_cons_of_pos ho)
    rw [herase, List.map_append, List.map_append, ← hA, ← hB]
    exact congrArg₂ _ (map_update_of_notMem hnodup.1.1 none) (map_update_of_notMem hnodup.1.2 none)

/-- Where nothing is found, `del_proc` only counts. -/
theorem del_none (hr : Refines ptrs h v) (hi : i < h.curGroup)
    (hnone : ∀ o ∈ (v.srv.procGroups i).bucket (procid % BUCKET_SIZE),
      ¬decide (o.procid = procid)) :
    Refines ptrs (h.setGroup i { h.group i with curprocnum := (h.group i).curprocnum - 1 })
      ⟨v.srv.delProc i procid, none⟩ := by
  have hj : procid % BUCKET_SIZE < BUCKET_SIZE := Nat.mod_lt _ (by decide)
  have hsame : ptrs.set i (procid % BUCKET_SIZE) (ptrs i (procid % BUCKET_SIZE)) = ptrs := by
    simp [Ptrs.set]
  have hdelProc : v.srv.delProc i procid = (v.srv.setGroup i _).emit _ :=
    if_neg (by rw [hr.curGroup]; omega)
  rw [← hsame, hdelProc]
  refine hr.setBucket hi hj rfl rfl ?_ ?_ (bucket_setGroup _ rfl)
    (fun _ _ _ _ _ _ _ => rfl) ?_ nofun
  · exact fixed_setGroup (fun k hk _ => hr.group k hk) (by rw [hr.group i hi]; rfl)
  · rw [← heads_set ptrs hi hj, hsame]
    exact hr.sound
  · rw [List.eraseP_of_forall_not hnone]
    exact hr.procs i hi _ hj

theorem delProc (hr : Refines ptrs h v) (i procid : ℕ)
    (hn : ∀ i < h.curGroup, ∀ j, ((v.srv.procGroups i).bucket j).length < n) :
    ∃ h' ptrs', h.delProc n i procid = some h' ∧
      Refines ptrs' h' ⟨v.srv.delProc i procid, none⟩ := by
  rw [Heap.delProc]
  by_cases hi : i < h.curGroup
  · rw [if_neg (by omega)]
    rcases hr.look_cases hi procid (hn i hi _) with ⟨hlook, hnone⟩ |
      ⟨A, p, B, A', o, B', hptrs, hbucket, hA, -, hB, ho, hbefore, hlook⟩
    · rw [hlook]
      exact ⟨_, ptrs, rfl, hr.del_none hi hnone⟩
    · obtain ⟨h', hunlink, -, hgroup, hrest⟩ := hr.unlink hi hptrs hbucket hA hB ho hbefore
      rw [← hgroup] at hrest
      simp only [hlook, hunlink, Option.bind_eq_bind, Option.bind_some]
      exact ⟨_, _, rfl, hrest⟩
  · rw [if_pos (by omega)]
    have hsame : v.srv.delProc i procid = v.srv := if_pos (by rw [hr.curGroup]; omega)
    rw [hsame]
    exact ⟨h, ptrs, rfl, hr.curGroup, hr.le, hr.group, hr.sound, hr.procs, nofun⟩

theorem modProc (hr : Refines ptrs h v) (hi : i < h.curGroup) (procid : ℕ)
    (f : TProcObj → TProcObj)
    (hn : ∀ i < h.curGroup, ∀ j, ((v.srv.procGroups i).bucket j).length < n) :
    ∃ h', h.modProc n i procid f = some h' ∧
      Refines ptrs h' { v with srv := v.srv.modProc i procid f } := by
  rw [Heap.modProc]
  rcases hr.look_cases hi procid (hn i hi _) with ⟨hlook, hnone⟩ |
    ⟨A, p, B, A', o, B', hptrs, hbucket, hA, hp, hB, ho, hbefore, hlook⟩
  · rw [hlook]
    exact ⟨h, rfl, hr.write_none hi hnone f⟩
  · rw [hlook]
    exact ⟨_, rfl, hr.write hi hptrs hbucket hA hp hB ho hbefore f⟩

/-- `find_proc` finds nothing, or the object that holds what the list has. -/
theorem findProc_cases (hr : Refines ptrs h v) (i procid : ℕ)
    (hn : ∀ i < h.curGroup, ∀ j, ((v.srv.procGroups i).bucket j).length < n) :
    h.findProc n i procid = some none ∧ v.srv.findProc i procid = none ∨
    ∃ p o, h.findProc n i procid = some (some p) ∧ v.srv.findProc i procid = some o ∧
      h.proc p = some o ∧ i < h.curGroup ∧
      ∀ f, Refines ptrs (h.write p f) { v with srv := v.srv.modProc i procid f } := by
  rw [Heap.findProc, MonSrv.findProc, hr.curGroup]
  by_cases hi : i < h.curGroup
  · rw [if_neg (by omega), if_neg (by omega)]
    rcases hr.look_cases hi procid (hn i hi _) with ⟨hlook, hnone⟩ |
      ⟨A, p, B, A', o, B', hptrs, hbucket, hA, hp, hB, ho, hbefore, hlook⟩
    · exact .inl ⟨hlook, List.find?_eq_none.mpr hnone⟩
    · have hnone : A'.find? (fun a => decide (a.procid = procid)) = none :=
        List.find?_eq_none.mpr hbefore
      have hfirst : (o :: B').find? (fun a => decide (a.procid = procid)) = some o :=
        List.find?_cons_of_pos ho
      refine .inr ⟨p, o, hlook, ?_, hp, hi, hr.write hi hptrs hbucket hA hp hB ho hbefore⟩
      rw [Buckets.find?, hbucket, List.find?_append, hnone]
      exact hfirst
  · rw [if_pos (by omega), if_pos (by omega)]
    exact .inl ⟨rfl, rfl⟩

/-- A walk does not see what is put in front of it. -/
theorem atWalk_push {h' : Heap} (hwalk : AtWalk h ptrs groupid procid k)
    (hcur : h'.curGroup = h.curGroup) (hhead : h'.head = h.head) (hpos : h'.pos = h.pos)
    (i j p : ℕ) : AtWalk h' (ptrs.set i j (p :: ptrs i j)) groupid procid k := by
  obtain ⟨hg, hj, hhead', A, B, hptrs, hlen, hpos'⟩ := hwalk
  refine ⟨hcur ▸ hg, hj, hhead ▸ hhead', ?_⟩
  by_cases heq : groupid = i ∧ procid = j
  · obtain ⟨rfl, rfl⟩ := heq
    exact ⟨p :: A, B, by rw [Ptrs.set_self, hptrs, List.cons_append], hlen, hpos ▸ hpos'⟩
  · exact ⟨A, B, by rw [Ptrs.set_of_ne ptrs _ heq, hptrs], hlen, hpos ▸ hpos'⟩

theorem addProc (hr : Refines ptrs h v) (i : ℕ) (procinfo : TProcInfo) (now : ℤ)
    (hp : h.proc p = none) :
    ∃ h' ptrs', h.addProc i procinfo now p = some h' ∧
      Refines ptrs' h' { v with srv := v.srv.addProc i procinfo now } := by
  rw [Heap.addProc]
  by_cases hi : i < h.curGroup
  · have hj : procinfo.procid % BUCKET_SIZE < BUCKET_SIZE := Nat.mod_lt _ (by decide)
    have hhead := heads_bucket ptrs hi hj
    have hnode : ¬(heads h.curGroup ptrs).Node (.list p) := by
      rintro ⟨a, l, ha, hmem⟩
      have hok : (h.proc p).isSome := hr.sound.ok ha _ (.tail _ hmem)
      rw [hp] at hok
      cases hok
    have hold : ∀ q, q ≠ p → Function.update h.proc p (some ⟨procinfo, 0, now⟩) q = h.proc q :=
      fun q hqp => Function.update_of_ne hqp _ _
    have hnew : Function.update h.proc p (some ⟨procinfo, 0, now⟩) p = some ⟨procinfo, 0, now⟩ :=
      Function.update_self _ _ _
    have hfresh : ∀ i' < h.curGroup, ∀ j' < BUCKET_SIZE, ∀ q ∈ ptrs i' j', q ≠ p := by
      rintro i' hi' j' hj' q hq rfl
      exact hnode ⟨_, _, heads_bucket ptrs hi' hj', List.mem_map_of_mem hq⟩
    rw [if_neg (by omega)]
    generalize Function.update h.proc p (some ⟨procinfo, 0, now⟩) = proc at hold hnew ⊢
    have hmono : Sound (Usable proc) h.cells (heads h.curGroup ptrs) := by
      refine hr.sound.mono fun _ _ _ a _ ha => usable_congr ha fun q _ hq => ?_
      rwa [hold q]
      rintro rfl
      rw [hp] at hq
      cases hq
    have husable : Usable proc (.list p) := by
      rw [Usable, hnew]
      rfl
    -- the new object is first the head of an empty list of its own
    obtain ⟨cells, hcells, hinit⟩ := hmono.init husable hnode
    have hnode' : ¬Heads.Node (Function.update (heads h.curGroup ptrs) (.list p) (some []))
        (.list p) := hinit.toHolds.not_node (Function.update_self _ _ _)
    have hhead' : Function.update (heads h.curGroup ptrs) (.list p) (some [])
        (.bucket i (procinfo.procid % BUCKET_SIZE)) =
          some ((ptrs i (procinfo.procid % BUCKET_SIZE)).map .list) := by
      rw [Function.update_of_ne (bucket_ne_list _ _ p), hhead]
    obtain ⟨cells', hcells', hadd⟩ :=
      (hinit.add husable hnode' (bucket_ne_list _ _ p).symm hhead').1
    have hfree : ListHead.free (Function.update (heads h.curGroup ptrs) (.list p) (some []))
        (.list p) = heads h.curGroup ptrs := by
      rw [ListHead.free, Function.update_idem]
      exact Function.update_eq_self (f := heads h.curGroup ptrs) (.list p)
    rw [hfree, change_eq hhead] at hadd
    have haddProc : v.srv.addProc i procinfo now = v.srv.setGroup i _ :=
      if_neg (by rw [hr.curGroup]; omega)
    simp only [hcells, hcells', Option.bind_eq_bind, Option.bind_some]
    refine ⟨_, ptrs.set i (procinfo.procid % BUCKET_SIZE)
      (p :: ptrs i (procinfo.procid % BUCKET_SIZE)), rfl, ?_⟩
    rw [haddProc]
    refine hr.setBucket hi hj rfl rfl ?_ hadd (bucket_setGroup _ rfl)
      (fun i' hi' j' hj' _ q hq => hold q (hfresh i' hi' j' hj' q hq)) ?_ fun hwalk =>
        atWalk_push (hr.walk hwalk) rfl rfl rfl _ _ p
    · exact fixed_setGroup (fun k hk _ => hr.group k hk) (by rw [hr.group i hi]; rfl)
    · have hsame := List.map_congr_left fun q hq => hold q (hfresh i hi _ hj q hq)
      exact congrArg₂ List.cons hnew (hsame.trans (hr.procs i hi _ hj))
  · rw [if_pos (by omega)]
    have hsame : v.srv.addProc i procinfo now = v.srv := if_pos (by rw [hr.curGroup]; omega)
    rw [hsame]
    exact ⟨h, ptrs, rfl, hr⟩

theorem recvMsg (hr : Refines ptrs h v) (m : TProcMonMsg) (hp : h.proc p = none)
    (hn : ∀ i < h.curGroup, ∀ j, ((v.srv.procGroups i).bucket j).length < n) :
    ∃ h' ptrs', h.recvMsg n m p = some h' ∧
      Refines ptrs' h' { v with srv := v.srv.recvMsg m } := by
  rw [Heap.recvMsg, MonSrv.recvMsg]
  by_cases hsrc : m.srctype % 2 = 1
  · rw [if_pos hsrc, if_pos hsrc]
    rcases hr.findProc_cases m.procinfo.groupid m.procinfo.procid hn with ⟨hfind, hfind'⟩ |
      ⟨q, o, hfind, hfind', -, -, hwrite⟩
    · rw [hfind, hfind']
      exact hr.addProc m.procinfo.groupid m.procinfo m.now hp
    · rw [hfind, hfind']
      exact ⟨_, ptrs, rfl, hwrite _⟩
  · rw [if_neg hsrc, if_neg hsrc]
    exact ⟨h, ptrs, rfl, hr⟩

theorem modGroup (hr : Refines ptrs h v) (groupid : ℕ) (groupinfo : TGroupInfo) :
    Refines ptrs (h.modGroup groupid groupinfo)
      { v with srv := v.srv.modGroup groupid groupinfo } := by
  rw [Heap.modGroup, MonSrv.modGroup, hr.curGroup]
  split
  next hassert =>
    refine ⟨hr.curGroup, hr.le, ?_, hr.sound, fun i hi j hj => ?_, hr.walk⟩
    · exact fixed_setGroup (fun k hk _ => hr.group k hk) (by rw [hr.group _ hassert.1]; rfl)
    · refine (hr.procs i hi j hj).trans ?_
      by_cases hig : i = groupid
      · subst hig
        rw [MonSrv.setGroup_self]
      · rw [MonSrv.setGroup_of_ne _ _ hig]
  next => exact hr

end Refines

/-! ## A new group -/

/-- The heads while a new group is made: `k` of its buckets are there. -/
def headsWith (cur : ℕ) (ptrs : Ptrs) (k : ℕ) : Heads Addr
  | .bucket i j => if i = cur ∧ j < k then some [] else heads cur ptrs (.bucket i j)
  | a => heads cur ptrs a

theorem headsWith_zero (cur : ℕ) (ptrs : Ptrs) : headsWith cur ptrs 0 = heads cur ptrs := by
  funext a
  cases a with
  | bucket i j => exact if_neg (by omega)
  | null => rfl
  | list p => rfl

theorem headsWith_succ (cur : ℕ) (ptrs : Ptrs) (k : ℕ) :
    headsWith cur ptrs (k + 1) =
      Function.update (headsWith cur ptrs k) (.bucket cur k) (some []) := by
  funext a
  by_cases ha : a = .bucket cur k
  · subst ha
    rw [Function.update_self]
    exact if_pos ⟨rfl, Nat.lt_succ_self k⟩
  · rw [Function.update_of_ne ha]
    cases a with
    | bucket i j =>
        have hij : ¬(i = cur ∧ j = k) := by
          rintro ⟨rfl, rfl⟩
          exact ha rfl
        have hiff : i = cur ∧ j < k + 1 ↔ i = cur ∧ j < k := by omega
        simp only [headsWith, hiff]
    | null => rfl
    | list p => rfl

theorem headsWith_all (cur : ℕ) (ptrs : Ptrs) :
    headsWith cur ptrs BUCKET_SIZE = heads (cur + 1) (Function.update ptrs cur fun _ => []) := by
  funext a
  cases a with
  | bucket i j =>
      rw [headsWith, heads, heads]
      by_cases hi : i = cur
      · subst hi
        simp
      · have hiff : i < cur + 1 ↔ i < cur := by omega
        simp [hi, hiff]
  | null => rfl
  | list p => rfl

/-- Only objects are nodes. -/
theorem not_node_headsWith (cur : ℕ) (ptrs : Ptrs) (k i j : ℕ) :
    ¬(headsWith cur ptrs k).Node (.bucket i j) := by
  rintro ⟨a, l, ha, hmem⟩
  have hl : l = [] ∨ ∃ L : List ℕ, l = L.map .list := by
    cases a with
    | bucket i' j' =>
        rw [headsWith, heads] at ha
        split at ha
        · exact .inl (Option.some.inj ha).symm
        · split at ha
          · exact .inr ⟨_, (Option.some.inj ha).symm⟩
          · cases ha
    | null => cases ha
    | list p => cases ha
  rcases hl with rfl | ⟨L, rfl⟩
  · cases hmem
  · obtain ⟨p, -, hp⟩ := List.mem_map.mp hmem
    exact bucket_ne_list i j p hp.symm

/-- The first `k` buckets of a new group are made. -/
theorem initBuckets {proc : ℕ → Option TProcObj} {cells : Cells Addr} {cur : ℕ}
    (hsound : Sound (Usable proc) cells (heads cur ptrs)) (hcur : cur < MAX_PROC_GROUP_NUM)
    (hk : k ≤ BUCKET_SIZE) :
    ∃ cells', (List.range k).foldlM
        (fun cells j => initListHead (Usable proc) cells (.bucket cur j)) cells = some cells' ∧
      Sound (Usable proc) cells' (headsWith cur ptrs k) := by
  induction k with
  | zero => exact ⟨cells, rfl, by rwa [headsWith_zero]⟩
  | succ k ih =>
      obtain ⟨cells', hcells', hsound'⟩ := ih (by omega)
      have husable : Usable proc (.bucket cur k) := ⟨hcur, by omega⟩
      obtain ⟨cells'', hcells'', hinit⟩ :=
        hsound'.init husable (not_node_headsWith cur ptrs k cur k)
      refine ⟨cells'', ?_, by rwa [headsWith_succ]⟩
      rw [List.range_succ, List.foldlM_append, hcells']
      simpa using hcells''

namespace Refines

theorem addGroup (hr : Refines ptrs h v) (groupinfo : TGroupInfo) :
    ∃ h' ptrs', h.addGroup groupinfo = some h' ∧
      Refines ptrs' h' { v with srv := v.srv.addGroup groupinfo } := by
  rw [Heap.addGroup, MonSrv.addGroup, hr.curGroup]
  by_cases hassert : h.curGroup < MAX_PROC_GROUP_NUM ∧ h.curGroup = groupinfo.groupid
  · rw [if_pos hassert, if_pos hassert]
    obtain ⟨cells, hcells, hsound⟩ := initBuckets hr.sound hassert.1 le_rfl
    rw [headsWith_all] at hsound
    simp only [hcells, Option.bind_eq_bind, Option.bind_some]
    refine ⟨_, Function.update ptrs h.curGroup fun _ => [], rfl, ?_⟩
    have hold : ∀ i < h.curGroup + 1, i ≠ h.curGroup → i < h.curGroup := by omega
    refine ⟨rfl, hassert.1, ?_, hsound, fun i hi j hj => ?_, fun {i j k} hwalk => ?_⟩
    · exact fixed_setGroup (fun k hk hne => hr.group k (hold k hk hne)) rfl
    · by_cases heq : i = h.curGroup
      · subst heq
        rw [Function.update_self]
        simp
      · rw [Function.update_of_ne heq]
        refine (hr.procs i (hold i hi heq) j hj).trans ?_
        rw [← MonSrv.setGroup_of_ne v.srv _ heq]
    · obtain ⟨hi, hj, hhead, A, B, hptrs, hlen, hpos⟩ := hr.walk hwalk
      refine ⟨Nat.lt_succ_of_lt hi, hj, hhead, A, B, ?_, hlen, hpos⟩
      rwa [Function.update_of_ne (Nat.ne_of_lt hi)]
  · rw [if_neg hassert, if_neg hassert]
    exact ⟨h, ptrs, rfl, hr⟩

/-! ## Walks -/

/-- A walk at a place that still has `k` objects to visit shows the first of them. -/
theorem current_eq (hr : Refines ptrs h v) (hwalk : AtWalk h ptrs i j k) :
    h.current = some (v.rest i j k).head? := by
  obtain ⟨hi, hj, hhead, A, B, hptrs, rfl, hpos⟩ := hwalk
  have hprocs := hr.procs i hi j hj
  have hlen := hr.length_eq hi hj
  rw [hptrs, List.length_append] at hlen
  have hdrop : B.map h.proc = (v.rest i j B.length).map some := by
    have hA : ((v.srv.procGroups i).bucket j).length - B.length = A.length := by omega
    rw [View.rest, hA, List.map_drop, ← hprocs, hptrs, List.map_append]
    simp
  rw [Heap.current, hpos, hhead]
  cases B with
  | nil =>
      have hrest : v.rest i j 0 = [] := by simpa using hdrop.symm
      simp [hrest]
  | cons p B =>
      cases hrest : v.rest i j (p :: B).length with
      | nil =>
          rw [hrest] at hdrop
          cases hdrop
      | cons o l =>
          rw [hrest] at hdrop
          have hp : h.proc p = some o := (List.cons_eq_cons.mp hdrop).1
          simp [hp, (bucket_ne_list i j p).symm]

theorem goto (hr : Refines ptrs h v) {h' : Heap} (hsame : h'.curGroup = h.curGroup)
    (hsame' : h'.proc = h.proc) (hcells : h'.cells = h.cells) (hgroup : h'.group = h.group)
    (hwalk : AtWalk h' ptrs i j k) :
    walking (some h') = (some h', (v.goto i j k).2) ∧ Refines ptrs h' (v.goto i j k).1 := by
  have hr' : Refines ptrs h' (v.goto i j k).1 := by
    refine ⟨hsame ▸ hr.curGroup, hsame ▸ hr.le, ?_, ?_, ?_, ?_⟩
    · rw [hsame, hgroup]
      exact hr.group
    · rw [hsame, hsame', hcells]
      exact hr.sound
    · rw [hsame, hsame']
      exact hr.procs
    · rintro i' j' k' heq
      obtain ⟨rfl, rfl, rfl⟩ : i = i' ∧ j = j' ∧ k = k' := by simpa [View.goto] using heq
      exact hwalk
  refine ⟨?_, hr'⟩
  have hcurrent := hr'.current_eq hwalk
  rw [walking, Option.bind_some, hcurrent]
  rfl

theorem first (hr : Refines ptrs h v) (hi : i < h.curGroup) (hj : j < BUCKET_SIZE) :
    ∃ h', h.first i j = some h' ∧
      walking (some h') =
        (some h', (v.goto i j ((v.srv.procGroups i).bucket j).length).2) ∧
      Refines ptrs h' (v.goto i j ((v.srv.procGroups i).bucket j).length).1 := by
  rw [Heap.first, hr.getNext_bucket hi hj]
  refine ⟨_, rfl, hr.goto rfl rfl rfl rfl ⟨hi, hj, rfl, [], ptrs i j, rfl, ?_, rfl⟩⟩
  exact hr.length_eq hi hj

theorem advance (hr : Refines ptrs h v) (hwalk : v.walk = some (i, j, k + 1)) :
    ∃ h', h.advance = some h' ∧ walking (some h') = (some h', (v.goto i j k).2) ∧
      Refines ptrs h' (v.goto i j k).1 := by
  obtain ⟨hi, hj, hhead, A, B, hptrs, hlen, hpos⟩ := hr.walk hwalk
  cases B with
  | nil => cases hlen
  | cons p B =>
      have hpos : h.pos = .list p := hpos
      rw [Heap.advance, hpos, hr.getNext_list hi hj hptrs]
      refine ⟨_, rfl, hr.goto rfl rfl rfl rfl ⟨hi, hj, hhead, A ++ [p], B, ?_, ?_, rfl⟩⟩
      · rw [hptrs, List.append_assoc, List.singleton_append]
      · simpa using hlen

end Refines

/-! ## Runs -/

theorem length_setGroup_le (s : MonSrv) {g : TProcGroupObj} {l : List TProcObj}
    (hg : g.bucket = Function.update (s.procGroups i).bucket j l)
    (hl : l.length ≤ ((s.procGroups i).bucket j).length + 1) (i' j' : ℕ) :
    (((s.setGroup i g).procGroups i').bucket j').length ≤
      ((s.procGroups i').bucket j').length + 1 := by
  rw [bucket_setGroup s hg]
  split
  next heq => rwa [heq.1, heq.2]
  next => exact Nat.le_succ _

theorem length_modProc_le (s : MonSrv) (groupid procid : ℕ) (f : TProcObj → TProcObj) (i j : ℕ) :
    (((s.modProc groupid procid f).procGroups i).bucket j).length ≤
      ((s.procGroups i).bucket j).length + 1 :=
  length_setGroup_le s rfl (by rw [Buckets.length_modifyFirst]; exact Nat.le_succ _) i j

theorem length_recvMsg_le (s : MonSrv) (m : TProcMonMsg) (i j : ℕ) :
    (((s.recvMsg m).procGroups i).bucket j).length ≤
      ((s.procGroups i).bucket j).length + 1 := by
  rw [MonSrv.recvMsg]
  split
  · split
    · exact length_modProc_le s _ _ _ i j
    · rw [MonSrv.addProc]
      split
      · exact Nat.le_succ _
      · exact length_setGroup_le s rfl le_rfl i j
  · exact Nat.le_succ _

theorem length_delProc_le (s : MonSrv) (groupid procid i j : ℕ) :
    (((s.delProc groupid procid).procGroups i).bucket j).length ≤
      ((s.procGroups i).bucket j).length + 1 := by
  rw [MonSrv.delProc]
  split
  · exact Nat.le_succ _
  · exact length_setGroup_le s rfl (Nat.le_succ_of_le List.length_eraseP_le) i j

theorem length_goto (v : View) (i' j' k i j : ℕ) :
    (((v.goto i' j' k).1.srv.procGroups i).bucket j).length ≤
      ((v.srv.procGroups i).bucket j).length + 1 := Nat.le_succ _

/-- A call puts at most one process into a bucket. -/
theorem length_step_le (v : View) (op : Op) (i j : ℕ) :
    (((v.step op).1.srv.procGroups i).bucket j).length ≤
      ((v.srv.procGroups i).bucket j).length + 1 := by
  cases op with
  | addGroup groupinfo =>
      rw [View.step, MonSrv.addGroup]
      split
      · by_cases hi : i = v.srv.curGroup
        · subst hi
          simp
        · have hsame := MonSrv.setGroup_of_ne v.srv ⟨groupinfo, fun _ => [], 0, 0, 0⟩ hi
          exact (congrArg (fun g => (g.bucket j).length) hsame).trans_le (Nat.le_succ _)
      · exact Nat.le_succ _
  | modGroup groupid groupinfo =>
      rw [View.step, MonSrv.modGroup]
      split
      · refine length_setGroup_le (j := j) (l := (v.srv.procGroups groupid).bucket j) v.srv ?_
          (Nat.le_succ _) i j
        exact (Function.update_eq_self j (v.srv.procGroups groupid).bucket).symm
      · exact Nat.le_succ _
  | recv m p => exact length_recvMsg_le v.srv m i j
  | find groupid procid => exact Nat.le_succ _
  | del groupid procid => exact length_delProc_le v.srv groupid procid i j
  | write groupid procid f => exact length_modProc_le v.srv groupid procid f i j
  | first groupid j' => exact length_goto v groupid j' _ i j
  | advance =>
      rw [View.step]
      split
      · exact length_goto v _ _ _ i j
      · exact Nat.le_succ _

/-- A group that a call makes has no processes. -/
theorem bucket_step_of_not_lt (v : View) (op : Op) {i : ℕ} (j : ℕ)
    (hi : i < (v.step op).1.srv.curGroup) (hnew : ¬i < v.srv.curGroup) :
    ((v.step op).1.srv.procGroups i).bucket j = [] := by
  cases op with
  | addGroup groupinfo =>
      rw [View.step, MonSrv.addGroup] at hi ⊢
      split at hi
      next hassert =>
        have hi : i < v.srv.curGroup + 1 := hi
        obtain rfl : i = v.srv.curGroup := by omega
        rw [if_pos hassert]
        exact congrArg (fun g => g.bucket j) (MonSrv.setGroup_self v.srv v.srv.curGroup _)
      next => exact absurd hi hnew
  | modGroup groupid groupinfo =>
      rw [View.step, MonSrv.modGroup] at hi
      split at hi <;> exact absurd hi hnew
  | recv m p =>
      have hcur := (MonSrv.Grows.doRecv v.srv [m]).curGroup
      exact absurd (hcur ▸ hi) hnew
  | find groupid procid => exact absurd hi hnew
  | del groupid procid =>
      rw [View.step, MonSrv.delProc] at hi
      split at hi <;> exact absurd hi hnew
  | write groupid procid f => exact absurd hi hnew
  | first groupid j' => exact absurd hi hnew
  | advance =>
      rw [View.step] at hi
      split at hi <;> exact absurd hi hnew

theorem Refines.exec (hr : Refines ptrs h v) {op : Op} (hfresh : Fresh (some h) op)
    (hop : op.Legal v) (hn : ∀ i < h.curGroup, ∀ j, ((v.srv.procGroups i).bucket j).length < n) :
    (exec n h op).2 = (v.step op).2 ∧
      ∃ h' ptrs', (exec n h op).1 = some h' ∧ Refines ptrs' h' (v.step op).1 := by
  have hchanging : ∀ {a : Option Heap} {v' : View},
      (∃ h' ptrs', a = some h' ∧ Refines ptrs' h' v') →
      (changing a).2 = .done ∧ ∃ h' ptrs', (changing a).1 = some h' ∧ Refines ptrs' h' v' := by
    rintro a v' ⟨h', ptrs', rfl, hr'⟩
    exact ⟨rfl, h', ptrs', rfl, hr'⟩
  cases op with
  | addGroup groupinfo => exact hchanging (hr.addGroup groupinfo)
  | modGroup groupid groupinfo => exact hchanging ⟨_, ptrs, rfl, hr.modGroup groupid groupinfo⟩
  | recv m p => exact hchanging (hr.recvMsg m (hfresh h rfl) hn)
  | find groupid procid =>
      rcases hr.findProc_cases groupid procid hn with ⟨hfind, hfind'⟩ |
        ⟨p, o, hfind, hfind', hp, -, -⟩
      · rw [ProcTable.exec, View.step, hfind, hfind']
        exact ⟨rfl, h, ptrs, rfl, hr⟩
      · rw [ProcTable.exec, View.step, hfind, hfind', ← hp]
        exact ⟨rfl, h, ptrs, rfl, hr⟩
  | del groupid procid => exact hchanging (hr.delProc groupid procid hn)
  | write groupid procid f =>
      have hi : groupid < v.srv.curGroup := hop
      obtain ⟨h', hh', hr'⟩ := hr.modProc (hr.curGroup ▸ hi) procid f hn
      exact hchanging ⟨h', ptrs, hh', hr'⟩
  | first groupid j =>
      obtain ⟨h', hh', hanswer, hr'⟩ := hr.first (hr.curGroup ▸ hop.1) hop.2
      rw [ProcTable.exec, View.step, hh', hanswer]
      exact ⟨rfl, h', ptrs, rfl, hr'⟩
  | advance =>
      obtain ⟨groupid, j, k, hwalk⟩ := hop
      obtain ⟨h', hh', hanswer, hr'⟩ := hr.advance hwalk
      rw [ProcTable.exec, View.step, hh', hanswer, hwalk]
      exact ⟨rfl, h', ptrs, rfl, hr'⟩

theorem Refines.trace_eq (hr : Refines ptrs h v) {ops : List Op}
    (hn : ∀ i < h.curGroup, ∀ j, ((v.srv.procGroups i).bucket j).length + ops.length < n)
    (hpos : ops.length < n) (hfresh : Run.Always (step n) Fresh (some h) ops)
    (hlegal : Run.Always View.step Op.Legal v ops) :
    Run.trace (step n) (some h) ops = Run.trace View.step v ops := by
  induction ops generalizing ptrs h v with
  | nil => rfl
  | cons op ops ih =>
      rw [List.length_cons] at hn hpos
      have hshort : ∀ i < h.curGroup, ∀ j, ((v.srv.procGroups i).bucket j).length < n := by
        intro i hi j
        have hlen := hn i hi j
        omega
      obtain ⟨hanswer, h', ptrs', hh', hr'⟩ := hr.exec hfresh.1 hlegal.1 hshort
      rw [Run.trace_cons, Run.trace_cons]
      have hstep : step n (some h) op = (some h', (v.step op).2) := by
        rw [← hanswer, ← hh']
        rfl
      have hfresh' := hfresh.2
      rw [hstep] at hfresh' ⊢
      rw [ih hr' (fun i hi j => ?_) (by omega) hfresh' hlegal.2]
      have hi' := hr'.curGroup ▸ hi
      by_cases hold : i < v.srv.curGroup
      · have hlen := length_step_le v op i j
        have hbefore := hn i (hr.curGroup ▸ hold) j
        omega
      · rw [bucket_step_of_not_lt v op j hi' hold, List.length_nil]
        omega

/-- The memory when a monitor has been made; it has no groups. -/
def Heap.start (cells : Cells Addr) (group : ℕ → GroupObj) : Heap where
  cells := cells
  proc _ := none
  group := group
  curGroup := 0
  head := 0
  pos := 0

/-- In every run that uses the table as the monitor does, the memory answers as the monitor's
lists do: the loops end, nothing is touched that has been deleted, and a walk goes on over what
its body has changed. -/
theorem trace_eq_view (s : MonSrv) (hs : s.curGroup = 0) (cells : Cells Addr)
    (group : ℕ → GroupObj) (ops : List Op) (hn : ops.length < n)
    (hfresh : Run.Always (step n) Fresh (some (.start cells group)) ops)
    (hlegal : Run.Always View.step Op.Legal ⟨s, none⟩ ops) :
    Run.trace (step n) (some (.start cells group)) ops = Run.trace View.step ⟨s, none⟩ ops := by
  have hheads : heads 0 (fun _ _ => []) = fun _ => none := by
    funext a
    cases a with
    | bucket i j => simp [heads]
    | null => rfl
    | list p => rfl
  have hr : Refines (fun _ _ => []) (.start cells group) ⟨s, none⟩ := by
    refine ⟨hs, Nat.zero_le _, nofun, ?_, nofun, nofun⟩
    have hsound : Sound (Usable fun _ => none) cells (heads 0 fun _ _ => []) := by
      rw [hheads]
      exact ⟨.none cells, nofun⟩
    exact hsound
  exact hr.trace_eq nofun hn hfresh hlegal

/-- A group of two processes. -/
def pairGroup : TGroupInfo where
  groupid := 0
  adjustProcTime := 0
  exitsignal := 9
  maxprocnum := 2
  minprocnum := 2
  heartbeat := 60
  maxwatermark := 0
  minsrate := 0
  maxdelay := 0
  maxmemused := 0
  le := UInt32.le_refl 2

/-- A heartbeat. -/
def beat (procid : ℕ) (h : procid < 2 ^ 31) (now : ℤ) : TProcMonMsg :=
  ⟨1, ⟨0, procid, now, 0, 0, 0, 0, h⟩, now⟩

/-- A process comes in front of a walk over its bucket, and another one is taken out later. -/
theorem trace_eq_view_walk :
    (Run.trace (step 11) (some (.start ⟨fun _ => 0, fun _ => 0⟩ fun _ => ⟨pairGroup, 0, 0, 0⟩))
        [.addGroup pairGroup, .recv (beat 7 (by decide) 1) 100,
          .recv (beat 17 (by decide) 2) 200, .first 0 7, .recv (beat 27 (by decide) 3) 300,
          .advance, .advance, .del 0 17, .find 0 17, .find 0 7]).map
        Prod.snd =
      [.done, .done, .done, .proc (some ⟨(beat 17 (by decide) 2).procinfo, 0, 2⟩), .done,
        .proc (some ⟨(beat 7 (by decide) 1).procinfo, 0, 1⟩), .proc none, .done, .proc none,
        .proc (some ⟨(beat 7 (by decide) 1).procinfo, 0, 1⟩)] := by
  refine (congrArg (List.map Prod.snd) (trace_eq_view
    ⟨180, fun _ => ⟨pairGroup, fun _ => [], 0, 0, 0⟩, 0, false, []⟩ rfl _ _ _ (by decide)
    ?_ ?_)).trans rfl
  · refine ⟨trivial, ?_, ?_, trivial, ?_, trivial, trivial, trivial, trivial, trivial, trivial⟩ <;>
      · rintro _ ⟨⟩
        rfl
  · exact ⟨trivial, trivial, trivial, ⟨Nat.zero_lt_one, by decide⟩, trivial, ⟨0, 7, 1, rfl⟩,
      ⟨0, 7, 0, rfl⟩, trivial, trivial, trivial, trivial⟩

end Spp.ProcTable
