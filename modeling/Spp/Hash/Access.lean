import Spp.Hash.Keys
import Spp.Hash.Refine
import Mathlib.Data.Set.Card

/-!
# The order of access

The access list holds the used nodes in the order of their last access, the latest one in
front.  What an access is, is said without the list: a log notes for each used node its key
and the time of its last access, where time counts the accesses.  A new node and every
lookup that finds a node are accesses, also the lookups inside `SetValue` and `Delete`.

This holds for any data lengths.

## Main definitions

* `AccessLog`, `AccessStep` — the log, and what a call adds to it.
* `visitBack` — the walk of a visitor from `end` with `prev`.
* `AccessOrder` — both walks visit the used nodes in the order of the log.
-/

namespace Spp

open Links

/-- When each node was last accessed, and under which key it is used.  The time of a node
that is not used is 0. -/
structure AccessLog (K : Type) where
  now : ℕ
  last : ℕ → ℕ
  key : ℕ → K

namespace AccessLog

variable {K : Type}

/-- Nothing has been accessed yet. -/
def new (key : ℕ → K) : AccessLog K := ⟨0, fun _ => 0, key⟩

/-- The node is accessed under the key. -/
def access (s : AccessLog K) (i : ℕ) (k : K) : AccessLog K where
  now := s.now + 1
  last := Function.update s.last i (s.now + 1)
  key := Function.update s.key i k

/-- The node is removed. -/
def remove (s : AccessLog K) (i : ℕ) : AccessLog K :=
  { s with last := Function.update s.last i 0 }

/-- The node is used for the key. -/
def Holds (s : AccessLog K) (i : ℕ) (k : K) : Prop := 0 < s.last i ∧ s.key i = k

/-- The used nodes. -/
def used (s : AccessLog K) : Set ℕ := { i | 0 < s.last i }

/-- The nodes whose last access is later. -/
def later (s : AccessLog K) (i : ℕ) : Set ℕ := { j | s.last i < s.last j }

@[simp] theorem now_access (s : AccessLog K) (i : ℕ) (k : K) :
    (s.access i k).now = s.now + 1 := rfl

theorem last_access (s : AccessLog K) (i j : ℕ) (k : K) :
    (s.access i k).last j = if j = i then s.now + 1 else s.last j :=
  Function.update_apply _ _ _ _

theorem key_access (s : AccessLog K) (i j : ℕ) (k : K) :
    (s.access i k).key j = if j = i then k else s.key j := Function.update_apply _ _ _ _

theorem last_remove (s : AccessLog K) (i j : ℕ) :
    (s.remove i).last j = if j = i then 0 else s.last j := Function.update_apply _ _ _ _

end AccessLog

/-- What a call adds to the log.  The visitor's `erase n` removes the node with `n` later
ones. -/
inductive AccessStep {K : Type} : AccessLog K → HashMap.Op K → HashMap.Out → AccessLog K → Prop
  | insert {s i k data len} : s.last i = 0 →
      AccessStep s (.insert k data len) (.ret 0) (s.access i k)
  | insertFails {s k data len} : AccessStep s (.insert k data len) (.ret (-1)) s
  | setNew {s i k data len} : (∀ j, ¬ s.Holds j k) → s.last i = 0 →
      AccessStep s (.setValue k data len) (.ret 0) (s.access i k)
  | setFails {s k data len} : (∀ j, ¬ s.Holds j k) →
      AccessStep s (.setValue k data len) (.ret (-1)) s
  | setOld {s i k data len code} : s.Holds i k →
      AccessStep s (.setValue k data len) (.ret code) (s.access i k)
  | findHit {s i k} : s.Holds i k → AccessStep s (.find k) (.found true) (s.access i k)
  | findMiss {s k} : (∀ j, ¬ s.Holds j k) → AccessStep s (.find k) (.found false) s
  | bufHit {s i k buf len out} : s.Holds i k →
      AccessStep s (.findBuf k buf len) out (s.access i k)
  | bufMiss {s k buf len} : (∀ j, ¬ s.Holds j k) →
      AccessStep s (.findBuf k buf len) (.buf (-1) buf len) s
  | delete {s i k} : s.Holds i k →
      AccessStep s (.delete k) (.ret 0) ((s.access i k).remove i)
  | deleteMiss {s k} : (∀ j, ¬ s.Holds j k) → AccessStep s (.delete k) (.ret (-1)) s
  | updateData {s n data len ok} : AccessStep s (.updateData n data len) (.node ok) s
  | erase {s i n} : i ∈ s.used → (s.later i).ncard = n →
      AccessStep s (.erase n) (.ret 0) (s.remove i)
  | eraseMiss {s n} : s.used.ncard ≤ n → AccessStep s (.erase n) (.ret (-1)) s
  | getCount {s} : AccessStep s .getCount (.ret s.used.ncard) s

namespace HashMap

variable {K : Type} {hash : K → ℕ} {m m' : HashMap K} {N : NodeLists} {i : ℕ}

/-- `end`, then `prev` so many times. -/
def visitBack (m : HashMap K) : ℕ → Option ℕ
  | 0 => m.addTail
  | n + 1 => (m.visitBack n).bind m.addPrev

/-- The node is in the free list. -/
def Free (m : HashMap K) (i : ℕ) : Prop := ∃ l, Chain m.nodeNext m.freeList l ∧ i ∈ l

/-- The visitor's walks, which end with `NULL`, visit the nodes `l`: each used node once and
no free one, in the order of the log, and the other way round. -/
structure AccessOrder (m : HashMap K) (s : AccessLog K) (l : List ℕ) : Prop where
  forward : ∀ n, m.visit n = l[n]?
  backward : ∀ n, m.visitBack n = l.reverse[n]?
  nodup : l.Nodup
  used : ∀ i, i ∈ l ↔ m.Used i
  logged : ∀ i, m.Used i ↔ i ∈ s.used
  recent : l.Pairwise fun i j => s.last j < s.last i
  free : ∀ i ∈ l, ¬ m.Free i

/-! ## The log of a pool -/

/-- The log goes with the lists of nodes. -/
structure Logged (hash : K → ℕ) (m : HashMap K) (s : AccessLog K) (N : NodeLists) : Prop where
  placed : Placed hash m N
  used : ∀ i, i ∈ N.add ↔ 0 < s.last i
  key : ∀ i ∈ N.add, s.key i = m.key i
  recent : N.add.Pairwise fun i j => s.last j < s.last i
  past : ∀ i, s.last i ≤ s.now

namespace Logged

variable {s : AccessLog K} {k : K} {N' : NodeLists}

theorem holds_iff (h : Logged hash m s N) : s.Holds i k ↔ i ∈ N.add ∧ m.key i = k := by
  rw [AccessLog.Holds, ← h.used i]
  constructor
  · rintro ⟨hi, hk⟩
    exact ⟨hi, (h.key i hi).symm.trans hk⟩
  · rintro ⟨hi, hk⟩
    exact ⟨hi, (h.key i hi).trans hk⟩

theorem not_holds (h : Logged hash m s N) (habsent : ∀ i ∈ N.add, m.key i ≠ k) (j : ℕ) :
    ¬ s.Holds j k := by
  rw [h.holds_iff]
  exact fun ⟨hj, hk⟩ => habsent j hj hk

/-- An access puts the node in front of the others, whose order stays. -/
theorem access {l : List ℕ} (h : Logged hash m s N) (hplaced : Placed hash m' N')
    (hadd : N'.add = i :: l) (hsub : l.Sublist N.add) (hrest : ∀ j, j ∈ l ↔ j ∈ N.add ∧ j ≠ i)
    (hkey : m'.key = Function.update m.key i k) : Logged hash m' (s.access i k) N' := by
  have hne : ∀ j ∈ l, j ≠ i := fun j hj => ((hrest j).mp hj).2
  refine ⟨hplaced, fun j => ?_, fun j hj => ?_, ?_, fun j => ?_⟩
  · rw [hadd, List.mem_cons, hrest, AccessLog.last_access]
    by_cases hj : j = i
    · simp [hj]
    · simp [hj, h.used j]
  · rw [hadd, List.mem_cons] at hj
    rw [hkey, AccessLog.key_access, Function.update_apply]
    by_cases hji : j = i
    · rw [if_pos hji, if_pos hji]
    · rw [if_neg hji, if_neg hji]
      exact h.key j ((hrest j).mp (hj.resolve_left hji)).1
  · rw [hadd, List.pairwise_cons]
    refine ⟨fun j hj => ?_, (h.recent.sublist hsub).imp_of_mem fun {a b} ha hb hab => ?_⟩
    · have hpast := h.past j
      rw [AccessLog.last_access, AccessLog.last_access, if_pos rfl, if_neg (hne j hj)]
      omega
    · rw [AccessLog.last_access, AccessLog.last_access, if_neg (hne a ha), if_neg (hne b hb)]
      exact hab
  · have hpast := h.past j
    rw [AccessLog.last_access, AccessLog.now_access]
    split_ifs <;> omega

/-- A lookup that finds a node. -/
theorem touch (h : Logged hash m s N) (hk : m.key i = k)
    (hplaced : Placed hash m' { N with add := i :: N.add.erase i }) (hkey : m'.key = m.key) :
    Logged hash m' (s.access i k) { N with add := i :: N.add.erase i } := by
  refine h.access hplaced rfl List.erase_sublist (fun j => ?_) ?_
  · rw [h.placed.nodes.add_nodup.mem_erase_iff, and_comm]
  · rw [hkey, ← hk, Function.update_eq_self]

/-- A new node. -/
theorem use {fr : List ℕ} (h : Logged hash m s N) (hfree : N.free = i :: fr)
    (hplaced : Placed hash m' (usedLists hash m N i k))
    (hkey : m'.key = Function.update m.key i k) :
    s.last i = 0 ∧ Logged hash m' (s.access i k) (usedLists hash m N i k) := by
  have hia : i ∉ N.add := fun hia => h.placed.nodes.not_mem_free hia (by simp [hfree])
  refine ⟨?_, h.access hplaced rfl (List.Sublist.refl _) (fun j => ?_) hkey⟩
  · rw [h.used i] at hia
    omega
  · refine ⟨fun hj => ⟨hj, ?_⟩, And.left⟩
    rintro rfl
    exact hia hj

/-- A removed node. -/
theorem remove (h : Logged hash m s N) (hplaced : Placed hash m' (freedLists hash m N i))
    (hkey : m'.key = m.key) : Logged hash m' (s.remove i) (freedLists hash m N i) := by
  have hnd := h.placed.nodes.add_nodup
  refine ⟨hplaced, fun j => ?_, fun j hj => ?_, ?_, fun j => ?_⟩
  · change j ∈ N.add.erase i ↔ _
    rw [hnd.mem_erase_iff, AccessLog.last_remove, h.used j]
    by_cases hj : j = i
    · simp [hj]
    · simp [hj]
  · rw [hkey]
    exact h.key j (List.mem_of_mem_erase hj)
  · refine (h.recent.sublist List.erase_sublist).imp_of_mem fun {a b} ha hb hab => ?_
    rw [AccessLog.last_remove, AccessLog.last_remove, if_neg (hnd.mem_erase_iff.mp ha).1,
      if_neg (hnd.mem_erase_iff.mp hb).1]
    exact hab
  · have hpast := h.past j
    rw [AccessLog.last_remove]
    split_ifs
    · exact Nat.zero_le _
    · exact hpast

/-- The value of a node is no part of the log. -/
theorem store (h : Logged hash m s N) (hplaced : Placed hash m' N) (hkey : m'.key = m.key) :
    Logged hash m' s N :=
  ⟨hplaced, h.used, fun j hj => by rw [hkey]; exact h.key j hj, h.recent, h.past⟩

theorem used_eq (h : Logged hash m s N) : s.used = { j | j ∈ N.add } :=
  Set.ext fun j => (h.used j).symm

theorem ncard_mem {l : List ℕ} (hnd : l.Nodup) : { j | j ∈ l }.ncard = l.length := by
  have hset : { j | j ∈ l } = (l.toFinset : Set ℕ) := by
    ext j
    simp
  rw [hset, Set.ncard_coe_finset, List.toFinset_card_of_nodup hnd]

theorem ncard_used (h : Logged hash m s N) : s.used.ncard = N.add.length := by
  rw [h.used_eq, ncard_mem h.placed.nodes.add_nodup]

/-- The nodes before the one at the place `n` are the ones with a later access. -/
theorem ncard_later {n : ℕ} (h : Logged hash m s N) (hi : N.add[n]? = some i) :
    (s.later i).ncard = n := by
  obtain ⟨hn, rfl⟩ := List.getElem?_eq_some_iff.mp hi
  have hset : s.later N.add[n] = { j | j ∈ N.add.take n } := by
    ext j
    change s.last N.add[n] < s.last j ↔ j ∈ N.add.take n
    rw [List.mem_take_iff_getElem]
    constructor
    · intro hlt
      obtain ⟨a, ha, rfl⟩ := List.getElem_of_mem ((h.used j).mpr (by omega))
      have hpair := List.pairwise_iff_getElem.mp h.recent
      rcases Nat.lt_trichotomy a n with han | rfl | hna
      · exact ⟨a, by omega, rfl⟩
      · omega
      · have := hpair n a hn ha hna
        omega
    · rintro ⟨a, ha, rfl⟩
      exact List.pairwise_iff_getElem.mp h.recent a n (by omega) hn (by omega)
  rw [hset, ncard_mem (h.placed.nodes.add_nodup.sublist (List.take_sublist _ _)),
    List.length_take]
  omega

/-! ## A call -/

section
variable [DecidableEq K]

theorem findNode_some (h : Logged hash m s N) (hret : m.findNode hash k = some (some i, m')) :
    s.Holds i k ∧ Logged hash m' (s.access i k) { N with add := i :: N.add.erase i } := by
  rcases h.placed.findNode hret with ⟨hnone, -⟩ | ⟨j, hj, hr, hk, h', hkey⟩
  · exact absurd hnone (by simp)
  · obtain rfl := Option.some.inj hr
    exact ⟨h.holds_iff.mpr ⟨hj, hk⟩, h.touch hk h' hkey⟩

theorem findNode_none (h : Logged hash m s N) (hret : m.findNode hash k = some (none, m')) :
    m' = m ∧ ∀ j, ¬ s.Holds j k := by
  obtain ⟨hsame, habsent⟩ := h.placed.findNode_none hret
  exact ⟨hsame, h.not_holds habsent⟩

omit [DecidableEq K] in
theorem deleteNode (h : Logged hash m s N) (hi : i ∈ N.add) {code : ℤ}
    {data : Option (ℕ → UInt8)} {len : Option ℤ}
    (hret : m.deleteNode hash i none none = some (code, m', data, len)) :
    code = 0 ∧ Logged hash m' (s.remove i) (freedLists hash m N i) := by
  obtain ⟨hcode, h', hkey⟩ := h.placed.deleteNode hi hret
  exact ⟨hcode, h.remove h' hkey⟩

/-- Each call that returns makes a step of the log. -/
theorem call (h : Logged hash m s N) {op : Op K} {out : Out}
    (hret : m.call hash op = some (out, m')) :
    ∃ s' N', AccessStep s op out s' ∧ Logged hash m' s' N' := by
  cases call_parts hret with
  | insert hnode =>
      rcases h.placed.insertNode hnode with ⟨rfl, -, hsame, -⟩ | ⟨i, fr, rfl, hfree, -, h', hkey⟩
      · rw [hsame]
        exact ⟨s, N, .insertFails, h.store (h.placed.setAllocator _) rfl⟩
      · obtain ⟨hunused, h'⟩ := h.use hfree h' hkey
        exact ⟨_, _, .insert hunused, h'⟩
  | setNew hfind hnode =>
      obtain ⟨rfl, habsent⟩ := h.findNode_none hfind
      rcases h.placed.insertNode hnode with ⟨rfl, -, hsame, -⟩ | ⟨i, fr, rfl, hfree, -, h', hkey⟩
      · rw [hsame]
        exact ⟨s, N, .setFails habsent, h.store (h.placed.setAllocator _) rfl⟩
      · obtain ⟨hunused, h'⟩ := h.use hfree h' hkey
        exact ⟨_, _, .setNew habsent hunused, h'⟩
  | setOld hfind hstore =>
      obtain ⟨hold, h₁⟩ := h.findNode_some hfind
      obtain ⟨h', hkey⟩ := h₁.placed.storeNode hstore
      exact ⟨_, _, .setOld hold, h₁.store h' hkey⟩
  | @find k node m₁ hfind =>
      cases node with
      | none =>
          obtain ⟨rfl, habsent⟩ := h.findNode_none hfind
          exact ⟨s, N, .findMiss habsent, h⟩
      | some i =>
          obtain ⟨hold, h₁⟩ := h.findNode_some hfind
          exact ⟨_, _, .findHit hold, h₁⟩
  | bufOld hfind _ =>
      obtain ⟨hold, h₁⟩ := h.findNode_some hfind
      exact ⟨_, _, .bufHit hold, h₁⟩
  | bufNew hfind =>
      obtain ⟨rfl, habsent⟩ := h.findNode_none hfind
      exact ⟨s, N, .bufMiss habsent, h⟩
  | deleteOld hfind hdelete =>
      obtain ⟨hold, h₁⟩ := h.findNode_some hfind
      obtain ⟨rfl, h'⟩ := h₁.deleteNode List.mem_cons_self hdelete
      exact ⟨_, _, .delete hold, h'⟩
  | deleteNew hfind =>
      obtain ⟨rfl, habsent⟩ := h.findNode_none hfind
      exact ⟨s, N, .deleteMiss habsent, h⟩
  | updateOld _ hstore =>
      obtain ⟨h', hkey⟩ := h.placed.storeNode hstore
      exact ⟨s, N, .updateData, h.store h' hkey⟩
  | updateNew _ => exact ⟨s, N, .updateData, h⟩
  | eraseOld hvisit hdelete =>
      rw [h.placed.nodes.visit] at hvisit
      have hi := List.mem_of_getElem? hvisit
      obtain ⟨rfl, h'⟩ := h.deleteNode hi hdelete
      exact ⟨_, _, .erase ((h.used _).mp hi) (h.ncard_later hvisit), h'⟩
  | eraseNew hvisit =>
      rw [h.placed.nodes.visit, List.getElem?_eq_none_iff, ← h.ncard_used] at hvisit
      exact ⟨s, N, .eraseMiss hvisit, h⟩
  | getCount =>
      refine ⟨s, N, ?_, h⟩
      rw [HashMap.getCount, h.placed.nodes.usedNodeNum, ← h.ncard_used]
      exact .getCount

end

/-! ## The walks -/

/-- `end` and `prev` walk up the access list. -/
theorem visitBack (h : NodesHold hash m N) (n : ℕ) : m.visitBack n = N.add.reverse[n]? := by
  have hchain := h.access.linked.back.reverse
  rw [← h.access.tail] at hchain
  induction n with
  | zero => rw [HashMap.visitBack, hchain.head, List.head?_eq_getElem?]
  | succ n ih => rw [HashMap.visitBack, ih, hchain.bind_getElem?]

theorem accessOrder (h : Logged hash m s N) : AccessOrder m s N.add where
  forward := h.placed.nodes.visit
  backward := visitBack h.placed.nodes
  nodup := h.placed.nodes.add_nodup
  used i := (h.placed.nodes.used_iff h.placed.buckets).symm
  logged i := (h.placed.nodes.used_iff h.placed.buckets).trans (h.used i)
  recent := h.recent
  free i hi := by
    rintro ⟨l, hl, hil⟩
    rw [hl.unique h.placed.nodes.free] at hil
    exact h.placed.nodes.not_mem_free hi hil

end Logged

/-! ## Runs -/

variable (hash) (pool : HashMap K) (nodeTotal bucketSize nChunks chunkSize : ℕ)

theorem logged_openInit :
    Logged hash (pool.openInit nodeTotal bucketSize nChunks chunkSize)
      (.new (pool.openInit nodeTotal bucketSize nChunks chunkSize).key)
      ⟨[], (List.range nodeTotal).reverse, fun _ => [], []⟩ :=
  ⟨placed_openInit pool nodeTotal bucketSize nChunks chunkSize, by simp [AccessLog.new], by simp,
    .nil, fun _ => Nat.le_refl _⟩

/-- All calls with lengths that are not negative make a run. -/
theorem Ready.run [DecidableEq K] {m : HashMap K} (h : Ready hash m) {ops : List (Op K)}
    (hops : ∀ op ∈ ops, op.NonNeg) :
    ∃ tr m', tr.map Prod.fst = ops ∧ Run.Allows (Returns hash) m tr m' := by
  induction ops generalizing m with
  | nil => exact ⟨[], m, rfl, .nil m⟩
  | cons op ops ih =>
      obtain ⟨out, m₁, hcall, h₁⟩ := h.call hash ⟨op, hops op List.mem_cons_self⟩
      obtain ⟨tr, m', htr, hrun⟩ := ih h₁ fun op' hop' => hops op' (.tail _ hop')
      exact ⟨(op, out) :: tr, m', by rw [List.map_cons, htr], .cons hcall hrun⟩

/-- After every run of calls on a freshly opened pool, the walks of a visitor visit the used
nodes in the order of their last access, as the log of the run has it; and with buckets and
chunks of some size, all calls with lengths that are not negative make a run. -/
theorem accessOrder_run [DecidableEq K] :
    (∀ tr m', Run.Allows (Returns hash)
        (pool.openInit nodeTotal bucketSize nChunks chunkSize) tr m' →
      ∃ s l, Run.Allows AccessStep
          (.new (pool.openInit nodeTotal bucketSize nChunks chunkSize).key) tr s ∧
        AccessOrder m' s l) ∧
    (0 < bucketSize → 0 < chunkSize → ∀ ops : List (Op K), (∀ op ∈ ops, op.NonNeg) →
      ∃ tr m', tr.map Prod.fst = ops ∧ Run.Allows (Returns hash)
        (pool.openInit nodeTotal bucketSize nChunks chunkSize) tr m') := by
  refine ⟨fun tr m' hrun => ?_, fun hB hsize ops hops => ?_⟩
  · have hstep : ∀ m s (op : Op K) out m', (∃ N, Logged hash m s N) →
        Returns hash m op out m' → ∃ s', AccessStep s op out s' ∧ ∃ N, Logged hash m' s' N := by
      rintro m s op out m' ⟨N, h⟩ hret
      obtain ⟨s', N', hlog, h'⟩ := h.call hret
      exact ⟨s', hlog, N', h'⟩
    obtain ⟨s, hlog, N, h⟩ := Run.Allows.simulates hstep
      ⟨_, logged_openInit hash pool nodeTotal bucketSize nChunks chunkSize⟩ hrun
    exact ⟨s, N.add, hlog, h.accessOrder⟩
  · exact (ready_openInit hash pool nodeTotal bucketSize nChunks chunkSize hB hsize).run hash hops

end HashMap
end Spp
