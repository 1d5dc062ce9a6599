import Spp.Hash.HashMap
import Mathlib.Data.Finset.Card
import Mathlib.Data.List.Perm.Subperm

/-!
# The nodes of the hash map

Which lists the links of the nodes spell, and how each operation changes them.  The
lists are the free list, one list for each bucket, and the access list, which holds
every used node, the one that was accessed last in front.

Nothing here depends on the lengths that the callers pass or on the chunks.

## Main definitions

* `NodeLists` — the lists of nodes.
* `AddOk` — the links of the access list.
* `NodesHold` — the links of all nodes spell the given lists.
-/

namespace Spp

open Links

/-- The lists that the links of the nodes spell, and the nodes that an operation has
taken out of all of them. -/
structure NodeLists where
  out : List ℕ
  free : List ℕ
  bucket : ℕ → List ℕ
  add : List ℕ

namespace NodeLists

/-- The lists after the node `i` has been put in front of the bucket `b`. -/
def use (L : NodeLists) (b i : ℕ) : NodeLists where
  out := L.out.tail
  free := L.free
  bucket := Function.update L.bucket b (i :: L.bucket b)
  add := i :: L.add

/-- The lists after the node `i` has been taken out of the bucket `b`. -/
def unuse (L : NodeLists) (b i : ℕ) : NodeLists where
  out := i :: L.out
  free := L.free
  bucket := Function.update L.bucket b ((L.bucket b).erase i)
  add := L.add.erase i

end NodeLists

namespace HashMap

/-- The buckets whose list is not empty. -/
def usedBuckets (bucketSize : ℕ) (bucket : ℕ → List ℕ) : Finset ℕ :=
  (Finset.range bucketSize).filter fun b => bucket b ≠ []

/-- The access list: its links, and no links in a node that is not on it. -/
structure AddOk (nodeTotal : ℕ) (next prev : ℕ → Option ℕ) (head tail : Option ℕ)
    (add : List ℕ) : Prop where
  linked : Linked next prev head add
  tail : tail = add.getLast?
  idle : ∀ i, i < nodeTotal → i ∉ add → next i = none ∧ prev i = none

variable {K : Type} (hash : K → ℕ)

/-- The bucket of a node's key. -/
def bucketOf (m : HashMap K) (i : ℕ) : ℕ := u32 (hash (m.key i)) % m.bucketSize

/-- The links spell the lists `L`.  A node is taken out, free or used; a used one is in
the list of the bucket of its key. -/
structure NodesHold (m : HashMap K) (L : NodeLists) : Prop where
  free : Chain m.nodeNext m.freeList L.free
  bucket : ∀ b, b < m.bucketSize → Linked m.nodeNext m.nodePrev (m.bucket b) (L.bucket b)
  mem_bucket : ∀ b i, i ∈ L.bucket b ↔ i ∈ L.add ∧ m.bucketOf hash i = b
  bucket_nodup : ∀ b, (L.bucket b).Nodup
  access : AddOk m.nodeTotal m.addNext m.addPrev m.addHead m.addTail L.add
  nodes : (L.out ++ (L.free ++ L.add)).Perm (List.range m.nodeTotal)
  usedNodeNum : m.usedNodeNum = L.add.length
  usedBucketNum : m.usedBucketNum = (usedBuckets m.bucketSize L.bucket).card

variable {m : HashMap K} {L : NodeLists} {hash} {i : ℕ}

namespace NodesHold

theorem nodup (h : NodesHold hash m L) : (L.out ++ (L.free ++ L.add)).Nodup :=
  h.nodes.nodup_iff.mpr List.nodup_range

theorem add_nodup (h : NodesHold hash m L) : L.add.Nodup :=
  (List.nodup_append.mp (List.nodup_append.mp h.nodup).2.1).2.1

theorem lt_of_mem_add (h : NodesHold hash m L) (hi : i ∈ L.add) : i < m.nodeTotal :=
  List.mem_range.mp (h.nodes.mem_iff.mp (by simp [hi]))

theorem not_mem_free (h : NodesHold hash m L) (hi : i ∈ L.add) : i ∉ L.free := fun hfree =>
  (List.nodup_append.mp (List.nodup_append.mp h.nodup).2.1).2.2 i hfree i hi rfl

theorem mem_add_of_bucket (h : NodesHold hash m L) {b : ℕ} (hi : i ∈ L.bucket b) : i ∈ L.add :=
  ((h.mem_bucket b i).mp hi).1

theorem length_bucket_le (h : NodesHold hash m L) (b : ℕ) :
    (L.bucket b).length ≤ m.nodeTotal := by
  have hsub : (L.bucket b).Subperm (List.range m.nodeTotal) :=
    List.subperm_of_subset (h.bucket_nodup b) fun j hj =>
      List.mem_range.mpr (h.lt_of_mem_add (h.mem_add_of_bucket hj))
  simpa using hsub.length_le

/-- The value of a node is no part of the links. -/
theorem setValue (h : NodesHold hash m L) (a : ChunkAllocator) (len : ℕ → ℤ)
    (head : ℕ → Option ℕ) :
    NodesHold hash { m with allocator := a, chunkLen := len, chunkHead := head } L :=
  ⟨h.free, h.bucket, h.mem_bucket, h.bucket_nodup, h.access, h.nodes, h.usedNodeNum,
    h.usedBucketNum⟩

end NodesHold

/-! ## The access list -/

section
variable {n : ℕ} {next prev : ℕ → Option ℕ} {head tail : Option ℕ} {add : List ℕ}

/-- `delete_from_add_list` takes the node out, or leaves the list alone. -/
theorem deleteFromAddList_spec (m : HashMap K)
    (h : AddOk m.nodeTotal m.addNext m.addPrev m.addHead m.addTail add)
    (hnd : add.Nodup) (hi : i < m.nodeTotal) :
    ∃ next prev head tail,
      m.deleteFromAddList i =
        { m with addNext := next, addPrev := prev, addHead := head, addTail := tail } ∧
      AddOk m.nodeTotal next prev head tail (add.erase i) := by
  have hhead := h.linked.chain.head
  have htail := h.tail
  by_cases hmem : i ∈ add
  · -- the node is on the list: it is its only element, or it has a neighbour
    obtain ⟨a, b, rfl⟩ := List.append_of_mem hmem
    obtain ⟨hnext, hprev⟩ := h.linked.neighbours
    have hia : i ∉ a := fun hia => (List.nodup_append.mp hnd).2.2 i hia i List.mem_cons_self rfl
    have hib : i ∉ b := (List.nodup_cons.mp (List.nodup_append.mp hnd).2.1).1
    have herase : (a ++ i :: b).erase i = a ++ b := by
      rw [List.erase_append_right _ hia, List.erase_cons_head]
    have hon : ¬ (m.addNext i = none ∧ m.addPrev i = none ∧ m.addHead ≠ some i ∧
        m.addTail ≠ some i) := by
      rintro ⟨hnone, hnone', hne, -⟩
      rw [hprev, List.getLast?_eq_none_iff] at hnone'
      subst hnone'
      exact hne hhead
    unfold deleteFromAddList
    rw [if_neg hon, herase]
    refine ⟨_, _, _, _, rfl, ?_, ?_, ?_⟩
    · have hout := h.linked.unlink hnd
      have hiab : i ∉ a ++ b := by simp [hia, hib]
      exact ⟨hout.chain.update hiab, hout.back.update hiab⟩
    · rw [htail, hprev]
      exact (getLast?_unlink hnd).symm
    · intro j hj hjab
      by_cases hji : j = i
      · rw [hji, Function.update_self, Function.update_self]
        exact ⟨rfl, rfl⟩
      · rw [List.mem_append, not_or] at hjab
        have hidle := h.idle j hj (by simp [hji, hjab])
        rw [Function.update_of_ne hji, Function.update_of_ne hji, unlinkNext_of_ne,
          unlinkPrev_of_ne]
        · exact hidle
        · rw [hnext]
          exact fun heq => hjab.2 (List.mem_of_mem_head? heq)
        · rw [hprev]
          exact fun heq => hjab.1 (List.mem_of_getLast? heq)
  · -- the node is not on the list
    have hidle := h.idle i hi hmem
    have hne : m.addHead ≠ some i := by
      rw [hhead]
      exact fun heq => hmem (List.mem_of_mem_head? heq)
    have hne' : m.addTail ≠ some i := by
      rw [htail]
      exact fun heq => hmem (List.mem_of_getLast? heq)
    rw [deleteFromAddList, if_pos ⟨hidle.1, hidle.2, hne, hne'⟩, List.erase_of_not_mem hmem]
    exact ⟨_, _, _, _, rfl, h⟩

/-- `insert_add_list_head` moves the node to the front. -/
theorem insertAddListHead_spec (m : HashMap K)
    (h : AddOk m.nodeTotal m.addNext m.addPrev m.addHead m.addTail add)
    (hnd : add.Nodup) (hi : i < m.nodeTotal) :
    ∃ next prev head tail,
      m.insertAddListHead i =
        { m with addNext := next, addPrev := prev, addHead := head, addTail := tail } ∧
      AddOk m.nodeTotal next prev head tail (i :: add.erase i) := by
  obtain ⟨next, prev, head, tail, heq, hok⟩ := deleteFromAddList_spec m h hnd hi
  have hmem : i ∉ add.erase i := List.Nodup.not_mem_erase hnd
  have hhead := hok.linked.chain.head
  unfold insertAddListHead
  rw [heq]
  refine ⟨_, _, _, _, rfl, ?_, ?_, ?_⟩
  · exact hok.linked.push (List.nodup_cons.mpr ⟨hmem, hnd.erase i⟩)
  · rw [hok.tail]
    cases hadd : add.erase i with
    | nil => rfl
    | cons j l => simp [List.getLast?_cons]
  · intro j hj hjadd
    rw [List.mem_cons, not_or] at hjadd
    have hidle := hok.idle j hj hjadd.2
    refine ⟨(Function.update_of_ne hjadd.1 _ _).trans hidle.1, ?_⟩
    refine (pushPrev_of_ne hjadd.1 ?_).trans hidle.2
    rw [hhead]
    exact fun hj => hjadd.2 (List.mem_of_mem_head? hj)

end

/-- An access moves a used node to the front of the access list. -/
theorem NodesHold.touch (h : NodesHold hash m L) (hi : i ∈ L.add) :
    ∃ next prev head tail,
      m.insertAddListHead i =
        { m with addNext := next, addPrev := prev, addHead := head, addTail := tail } ∧
      NodesHold hash (m.insertAddListHead i) { L with add := i :: L.add.erase i } := by
  obtain ⟨next, prev, head, tail, heq, hok⟩ :=
    insertAddListHead_spec m h.access h.add_nodup (h.lt_of_mem_add hi)
  have hperm : (i :: L.add.erase i).Perm L.add := (List.perm_cons_erase hi).symm
  refine ⟨next, prev, head, tail, heq, ?_⟩
  rw [heq]
  refine ⟨h.free, h.bucket, fun b j => ?_, h.bucket_nodup, hok, ?_, ?_, h.usedBucketNum⟩
  · rw [hperm.mem_iff]
    exact h.mem_bucket b j
  · exact ((hperm.append_left _).append_left _).trans h.nodes
  · rw [hperm.length_eq]
    exact h.usedNodeNum

/-! ## The walks -/

theorem findLoop_spec [DecidableEq K] {k : K} {l : List ℕ} {head : Option ℕ} {fuel : ℕ}
    (hl : Chain m.nodeNext head l) (hfuel : l.length ≤ fuel) :
    m.findLoop k fuel head = some (l.find? fun i => m.key i = k) := by
  induction l generalizing head fuel with
  | nil =>
      have hnone : head = none := hl
      rw [hnone, findLoop]
      rfl
  | cons i l ih =>
      obtain ⟨rfl, hl⟩ := hl
      rw [List.length_cons] at hfuel
      obtain ⟨fuel, rfl⟩ : ∃ f, fuel = f + 1 := ⟨fuel - 1, by omega⟩
      rw [findLoop, List.find?_cons]
      by_cases hk : m.key i = k
      · simp [hk]
      · simpa [hk] using ih hl (by omega)

theorem bucketListLenLoop_spec {l : List ℕ} {head : Option ℕ} {fuel num : ℕ}
    (hl : Chain m.nodeNext head l) (hfuel : l.length ≤ fuel) :
    m.bucketListLenLoop fuel head num = some (num + l.length) := by
  induction l generalizing head fuel num with
  | nil =>
      have hnone : head = none := hl
      rw [hnone, bucketListLenLoop]
      rfl
  | cons i l ih =>
      obtain ⟨rfl, hl⟩ := hl
      rw [List.length_cons] at hfuel
      obtain ⟨fuel, rfl⟩ : ∃ f, fuel = f + 1 := ⟨fuel - 1, by omega⟩
      rw [bucketListLenLoop, ih hl (by omega), List.length_cons]
      congr 1
      omega

/-! ## The number of used buckets -/

section
variable {B b : ℕ} {f : ℕ → List ℕ} {l : List ℕ}

theorem mem_usedBuckets {c : ℕ} : c ∈ usedBuckets B f ↔ c < B ∧ f c ≠ [] := by
  simp [usedBuckets]

/-- A list that gets its first node makes one more bucket used. -/
theorem card_usedBuckets_cons (hb : b < B) :
    ((usedBuckets B (Function.update f b (i :: l))).card : ℤ) =
      if f b = [] then ((usedBuckets B f).card : ℤ) + 1 else (usedBuckets B f).card := by
  have hset : usedBuckets B (Function.update f b (i :: l)) = Insert.insert b (usedBuckets B f) := by
    ext c
    by_cases hc : c = b
    · simp [mem_usedBuckets, hc, hb]
    · simp [mem_usedBuckets, hc]
  rw [hset]
  by_cases hempty : f b = []
  · rw [if_pos hempty, Finset.card_insert_of_notMem (by simp [mem_usedBuckets, hempty])]
    push_cast
    rfl
  · rw [if_neg hempty, Finset.insert_eq_of_mem (mem_usedBuckets.mpr ⟨hb, hempty⟩)]

/-- A list that loses its last node makes one bucket less used. -/
theorem card_usedBuckets_erase (hb : b < B) (hf : f b ≠ []) :
    ((usedBuckets B (Function.update f b l)).card : ℤ) =
      if l = [] then ((usedBuckets B f).card : ℤ) - 1 else (usedBuckets B f).card := by
  have hmem : b ∈ usedBuckets B f := mem_usedBuckets.mpr ⟨hb, hf⟩
  by_cases hl : l = []
  · have hset : usedBuckets B (Function.update f b l) = (usedBuckets B f).erase b := by
      ext c
      by_cases hc : c = b
      · simp [mem_usedBuckets, hc, hl]
      · simp [mem_usedBuckets, hc]
    rw [if_pos hl, hset, ← Finset.card_erase_add_one hmem]
    push_cast
    omega
  · have hset : usedBuckets B (Function.update f b l) = usedBuckets B f := by
      ext c
      by_cases hc : c = b
      · simp [mem_usedBuckets, hc, hl, hf]
      · simp [mem_usedBuckets, hc]
    rw [if_neg hl, hset]

end

/-! ## Nodes in and out of the free list -/

/-- `free_list_remove` takes the first free node. -/
theorem NodesHold.take {fr : List ℕ} (h : NodesHold hash m L) (hfree : L.free = i :: fr) :
    m.freeListRemove = some (i, { m with
      freeList := m.nodeNext i, nodeNext := Function.update m.nodeNext i none }) ∧
    NodesHold hash { m with
      freeList := m.nodeNext i, nodeNext := Function.update m.nodeNext i none }
      { L with out := i :: L.out, free := fr } := by
  have hchain := h.free
  have hnd := (List.nodup_append.mp h.nodup).2.1
  rw [hfree] at hchain hnd
  rw [List.cons_append, List.nodup_cons, List.mem_append, not_or] at hnd
  obtain ⟨hhead, hchain⟩ := hchain
  refine ⟨by rw [freeListRemove, hhead], Chain.update hchain hnd.1.1, fun b hb => ?_,
    h.mem_bucket, h.bucket_nodup, h.access, ?_, h.usedNodeNum, h.usedBucketNum⟩
  · have hib : i ∉ L.bucket b := fun hib => hnd.1.2 (h.mem_add_of_bucket hib)
    exact ⟨(h.bucket b hb).chain.update hib, (h.bucket b hb).back⟩
  · have hnodes := h.nodes
    rw [hfree] at hnodes
    exact List.perm_middle.symm.trans hnodes

/-- Without a free node `free_list_remove` returns `NULL`. -/
theorem NodesHold.freeListRemove_nil (h : NodesHold hash m L) (hfree : L.free = []) :
    m.freeListRemove = none := by
  have hchain := h.free
  rw [hfree, chain_nil] at hchain
  rw [freeListRemove, hchain]

/-- `free_list_insert` puts a node that was taken out before the free ones. -/
theorem NodesHold.put {out : List ℕ} (h : NodesHold hash m L) (hout : L.out = i :: out) :
    NodesHold hash (m.freeListInsert i) { L with out := out, free := i :: L.free } := by
  have hnd := h.nodup
  rw [hout, List.cons_append, List.nodup_cons, List.mem_append, List.mem_append, not_or,
    not_or] at hnd
  refine ⟨h.free.push hnd.1.2.1, fun b hb => ?_, h.mem_bucket, h.bucket_nodup, h.access, ?_,
    h.usedNodeNum, h.usedBucketNum⟩
  · have hib : i ∉ L.bucket b := fun hib => hnd.1.2.2 (h.mem_add_of_bucket hib)
    exact ⟨(h.bucket b hb).chain.update hib, (h.bucket b hb).back⟩
  · have hnodes := h.nodes
    rw [hout] at hnodes
    exact List.perm_middle.trans hnodes

/-- A node that is taken and put back leaves no trace. -/
theorem freeListInsert_remove (hi : m.freeList = some i) (a : ChunkAllocator) :
    freeListInsert { m with
      freeList := m.nodeNext i, nodeNext := Function.update m.nodeNext i none, allocator := a } i =
      { m with allocator := a } := by
  unfold freeListInsert
  rw [Function.update_idem, Function.update_eq_self, ← hi]

/-! ## A new node -/

theorem getBucketId_eq (hB : 0 < m.bucketSize) (k : K) :
    m.getBucketId hash k = some (u32 (hash k) % m.bucketSize) := by
  rw [getBucketId, if_neg (by omega)]

theorem getBucketListLen_eq {b : ℕ} {l : List ℕ} (hl : Chain m.nodeNext (m.bucket b) l)
    (hlen : l.length ≤ m.nodeTotal) : m.getBucketListLen b = some l.length := by
  rw [getBucketListLen, bucketListLenLoop_spec hl hlen, Nat.zero_add]

theorem insertNodeList_eq (m : HashMap K) (hB : 0 < m.bucketSize) :
    m.insertNodeList hash i = some { m with
      nodeNext := Function.update m.nodeNext i (m.bucket (m.bucketOf hash i))
      nodePrev := pushPrev m.nodePrev (m.bucket (m.bucketOf hash i)) i
      bucket := Function.update m.bucket (m.bucketOf hash i) (some i)
      usedNodeNum := m.usedNodeNum + 1 } := by
  rw [insertNodeList, getBucketId_eq hB]
  rfl

/-- `use_node`, for a bucket whose list is `l`. -/
theorem useNode_eq {l : List ℕ} (k : K) (len : ℤ) (head : Option ℕ) (hB : 0 < m.bucketSize)
    (hl : Chain m.nodeNext (m.bucket (u32 (hash k) % m.bucketSize)) l)
    (hlen : l.length ≤ m.nodeTotal) :
    m.useNode hash i k len head = some { m with
      key := Function.update m.key i k
      chunkLen := Function.update m.chunkLen i len
      chunkHead := Function.update m.chunkHead i head
      usedBucketNum := if l = [] then m.usedBucketNum + 1 else m.usedBucketNum
      nodeNext := Function.update m.nodeNext i (m.bucket (u32 (hash k) % m.bucketSize))
      nodePrev := pushPrev m.nodePrev (m.bucket (u32 (hash k) % m.bucketSize)) i
      bucket := Function.update m.bucket (u32 (hash k) % m.bucketSize) (some i)
      usedNodeNum := m.usedNodeNum + 1 } := by
  obtain ⟨m₁, hm₁⟩ : ∃ m₁, m₁ = { m with
      key := Function.update m.key i k
      chunkLen := Function.update m.chunkLen i len
      chunkHead := Function.update m.chunkHead i head } := ⟨_, rfl⟩
  have hb : m₁.bucketOf hash i = u32 (hash k) % m.bucketSize := by
    subst hm₁
    change u32 (hash (Function.update m.key i k i)) % m.bucketSize = _
    rw [Function.update_self]
  have hB₁ : 0 < m₁.bucketSize := by rw [hm₁]; exact hB
  have hwalk : m₁.getBucketListLen (m₁.bucketOf hash i) = some l.length := by
    rw [hb]
    subst hm₁
    exact getBucketListLen_eq hl hlen
  have huse : m.useNode hash i k len head =
      (m₁.getBucketId hash (m₁.key i)).bind fun b => (m₁.getBucketListLen b).bind fun n =>
        (if n = 0 then { m₁ with usedBucketNum := m₁.usedBucketNum + 1 } else m₁).insertNodeList
          hash i := by
    rw [hm₁]
    rfl
  rw [huse, getBucketId_eq hB₁, Option.bind_some]
  change (m₁.getBucketListLen (m₁.bucketOf hash i)).bind _ = _
  rw [hwalk, Option.bind_some]
  by_cases hnil : l = []
  · have hb₁ : bucketOf hash { m₁ with usedBucketNum := m₁.usedBucketNum + 1 } i =
      u32 (hash k) % m.bucketSize := hb
    rw [if_pos (by rw [hnil]; rfl), if_pos hnil,
      insertNodeList_eq { m₁ with usedBucketNum := m₁.usedBucketNum + 1 } hB₁, hb₁, hm₁]
  · rw [if_neg (by simpa using hnil), if_neg hnil, insertNodeList_eq _ hB₁, hb, hm₁]

/-- `use_node` and `insert_add_list_head` on a node that was taken out. -/
theorem NodesHold.use {out : List ℕ} (h : NodesHold hash m L) (hout : L.out = i :: out)
    (hB : 0 < m.bucketSize) (k : K) (len : ℤ) (head : Option ℕ) :
    ∃ m', m.useNode hash i k len head = some m' ∧
      NodesHold hash (m'.insertAddListHead i) (L.use (u32 (hash k) % m.bucketSize) i) ∧
      ∃ next prev head' tail' nodeNext nodePrev bucket num num',
        m'.insertAddListHead i = { m with
          key := Function.update m.key i k
          chunkLen := Function.update m.chunkLen i len
          chunkHead := Function.update m.chunkHead i head
          addNext := next, addPrev := prev, addHead := head', addTail := tail'
          nodeNext := nodeNext, nodePrev := nodePrev, bucket := bucket
          usedNodeNum := num, usedBucketNum := num' } := by
  have hnd := h.nodup
  rw [hout, List.cons_append, List.nodup_cons, List.mem_append, List.mem_append, not_or,
    not_or] at hnd
  obtain ⟨⟨-, hif, hia⟩, hnd⟩ := hnd
  have hnodes := h.nodes
  rw [hout] at hnodes
  have hlt : i < m.nodeTotal := List.mem_range.mp (hnodes.mem_iff.mp List.mem_cons_self)
  have hb : u32 (hash k) % m.bucketSize < m.bucketSize := Nat.mod_lt _ hB
  have hib : ∀ c, i ∉ L.bucket c := fun c hic => hia (h.mem_add_of_bucket hic)
  have huse : m.useNode hash i k len head = _ :=
    useNode_eq k len head hB (h.bucket _ hb).chain (h.length_bucket_le _)
  obtain ⟨b, hbdef⟩ : ∃ b, b = u32 (hash k) % m.bucketSize := ⟨_, rfl⟩
  rw [← hbdef] at huse hb ⊢
  obtain ⟨m₂, hm₂⟩ : ∃ m₂, m₂ = { m with
      key := Function.update m.key i k
      chunkLen := Function.update m.chunkLen i len
      chunkHead := Function.update m.chunkHead i head
      usedBucketNum := if L.bucket b = [] then m.usedBucketNum + 1 else m.usedBucketNum
      nodeNext := Function.update m.nodeNext i (m.bucket b)
      nodePrev := pushPrev m.nodePrev (m.bucket b) i
      bucket := Function.update m.bucket b (some i)
      usedNodeNum := m.usedNodeNum + 1 } := ⟨_, rfl⟩
  rw [← hm₂] at huse
  obtain ⟨next, prev, head', tail', heq, hok⟩ := insertAddListHead_spec (i := i) m₂
    (by subst hm₂; exact h.access) h.add_nodup (by subst hm₂; exact hlt)
  rw [List.erase_of_not_mem hia] at hok
  refine ⟨m₂, huse, ?_, by rw [heq, hm₂]; exact ⟨_, _, _, _, _, _, _, _, _, rfl⟩⟩
  rw [heq]
  subst hm₂
  refine ⟨h.free.update hif, fun c hc => ?_, fun c j => ?_, fun c => ?_, hok, ?_, ?_, ?_⟩
  · -- the lists of the buckets
    have hhead := (h.bucket b hb).chain.head
    by_cases hcb : c = b
    · have hpush := (h.bucket b hb).push (List.nodup_cons.mpr ⟨hib b, h.bucket_nodup b⟩)
      simpa [NodeLists.use, hcb] using hpush
    · have hne : ∀ j ∈ L.bucket c, j ≠ i := by
        rintro j hj rfl
        exact hib c hj
      have hother : ∀ j ∈ L.bucket c, m.bucket b ≠ some j := by
        intro j hj hjb
        rw [hhead] at hjb
        have hjb' := (h.mem_bucket b j).mp (List.mem_of_mem_head? hjb)
        exact hcb (((h.mem_bucket c j).mp hj).2.symm.trans hjb'.2)
      have hkeep := (h.bucket c hc).congr
        (update_apply_of_notMem (f := m.nodeNext) (v := m.bucket b) (hib c))
        fun j hj => pushPrev_of_ne (hne j hj) (hother j hj)
      simpa [NodeLists.use, hcb] using hkeep
  · -- the bucket of each key
    have hbucket : ∀ j, j ≠ i → (bucketOf hash { m with
        key := Function.update m.key i k } j = m.bucketOf hash j) := by
      intro j hj
      change u32 (hash (Function.update m.key i k j)) % _ = _
      rw [Function.update_of_ne hj]
      rfl
    have hself : bucketOf hash { m with key := Function.update m.key i k } i = b := by
      change u32 (hash (Function.update m.key i k i)) % _ = _
      rw [Function.update_self, hbdef]
    change j ∈ Function.update L.bucket b (i :: L.bucket b) c ↔
      j ∈ i :: L.add ∧ bucketOf hash { m with key := Function.update m.key i k } j = c
    by_cases hji : j = i
    · subst hji
      rw [hself]
      by_cases hcb : c = b
      · simp [hcb]
      · simp [hcb, hib c, Ne.symm hcb]
    · rw [hbucket j hji]
      have hold := h.mem_bucket c j
      by_cases hcb : c = b
      · subst hcb
        simpa [hji] using hold
      · simpa [hji, hcb] using hold
  · by_cases hcb : c = b
    · have hnew := List.nodup_cons.mpr ⟨hib b, h.bucket_nodup b⟩
      simpa [NodeLists.use, hcb] using hnew
    · simpa [NodeLists.use, hcb] using h.bucket_nodup c
  · have hmove : (out ++ (L.free ++ i :: L.add)).Perm (i :: out ++ (L.free ++ L.add)) := by
      rw [← List.append_assoc, List.cons_append, ← List.append_assoc]
      exact List.perm_middle
    simpa [NodeLists.use, hout] using hmove.trans hnodes
  · simp [NodeLists.use, h.usedNodeNum]
  · have hcard := card_usedBuckets_cons (i := i) (f := L.bucket) (l := L.bucket b) hb
    simp only [NodeLists.use]
    rw [hcard, h.usedBucketNum]

/-! ## A node that is no longer used -/

theorem deleteFromNodeList_eq (m : HashMap K) (hB : 0 < m.bucketSize) :
    m.deleteFromNodeList hash i = some { m with
      nodeNext := Function.update (unlinkNext m.nodeNext m.nodePrev i) i none
      nodePrev := Function.update (unlinkPrev m.nodeNext m.nodePrev i) i none
      bucket := if m.bucket (m.bucketOf hash i) = some i then
        Function.update m.bucket (m.bucketOf hash i) (m.nodeNext i) else m.bucket
      usedNodeNum := m.usedNodeNum - 1 } := by
  rw [deleteFromNodeList, getBucketId_eq hB]
  rfl

/-- `free_node`, where `l` is the list of the bucket without the node. -/
theorem freeNode_eq {l : List ℕ} {a : ChunkAllocator} (hB : 0 < m.bucketSize)
    (hfree : m.allocator.free (m.chunkHead i) = some a)
    (hl : Chain (Function.update (unlinkNext m.nodeNext m.nodePrev i) i none)
      (if m.bucket (m.bucketOf hash i) = some i then m.nodeNext i
        else m.bucket (m.bucketOf hash i)) l)
    (hlen : l.length ≤ m.nodeTotal) :
    m.freeNode hash i = some (initNode { m with
      allocator := a
      usedBucketNum := if l = [] then m.usedBucketNum - 1 else m.usedBucketNum
      nodeNext := Function.update (unlinkNext m.nodeNext m.nodePrev i) i none
      nodePrev := Function.update (unlinkPrev m.nodeNext m.nodePrev i) i none
      bucket := if m.bucket (m.bucketOf hash i) = some i then
        Function.update m.bucket (m.bucketOf hash i) (m.nodeNext i) else m.bucket
      usedNodeNum := m.usedNodeNum - 1 } i) := by
  obtain ⟨m₁, hm₁⟩ : ∃ m₁, m₁ = { m with
      nodeNext := Function.update (unlinkNext m.nodeNext m.nodePrev i) i none
      nodePrev := Function.update (unlinkPrev m.nodeNext m.nodePrev i) i none
      bucket := if m.bucket (m.bucketOf hash i) = some i then
        Function.update m.bucket (m.bucketOf hash i) (m.nodeNext i) else m.bucket
      usedNodeNum := m.usedNodeNum - 1 } := ⟨_, rfl⟩
  have hfree₁ : m₁.allocator.free (m₁.chunkHead i) = some a := by
    subst hm₁
    exact hfree
  have hB₁ : 0 < m₁.bucketSize := by rw [hm₁]; exact hB
  have hwalk : getBucketListLen { m₁ with allocator := a } (m₁.bucketOf hash i) =
      some l.length := by
    subst hm₁
    refine getBucketListLen_eq ?_ hlen
    change Chain _ ((if m.bucket (m.bucketOf hash i) = some i then
      Function.update m.bucket (m.bucketOf hash i) (m.nodeNext i) else m.bucket)
        (m.bucketOf hash i)) l
    rw [ite_apply, Function.update_self]
    exact hl
  have hnode : m.freeNode hash i =
      (m.deleteFromNodeList hash i).bind fun m => (m.allocator.free (m.chunkHead i)).bind fun a =>
        (getBucketId hash { m with allocator := a } (m.key i)).bind fun b =>
        (getBucketListLen { m with allocator := a } b).bind fun n =>
          some ((if n = 0 then { m with
            allocator := a, usedBucketNum := m.usedBucketNum - 1 }
            else { m with allocator := a }).initNode i) := rfl
  rw [hnode, deleteFromNodeList_eq m hB, ← hm₁, Option.bind_some, hfree₁, Option.bind_some,
    getBucketId_eq (m := { m₁ with allocator := a }) hB₁, Option.bind_some]
  change (getBucketListLen { m₁ with allocator := a } (m₁.bucketOf hash i)).bind _ = _
  rw [hwalk, Option.bind_some]
  by_cases hnil : l = []
  · rw [if_pos (by rw [hnil]; rfl), if_pos hnil, hm₁]
  · rw [if_neg (by simpa using hnil), if_neg hnil, hm₁]

/-- `free_node` does not return when the walk over the chunks does not. -/
theorem freeNode_none (hfree : m.allocator.free (m.chunkHead i) = none) :
    m.freeNode hash i = none := by
  by_cases hB : 0 < m.bucketSize
  · have hnode : m.freeNode hash i =
        (m.deleteFromNodeList hash i).bind fun m => (m.allocator.free (m.chunkHead i)).bind fun a =>
          (getBucketId hash { m with allocator := a } (m.key i)).bind fun b =>
          (getBucketListLen { m with allocator := a } b).bind fun n =>
            some ((if n = 0 then { m with
              allocator := a, usedBucketNum := m.usedBucketNum - 1 }
              else { m with allocator := a }).initNode i) := rfl
    rw [hnode, deleteFromNodeList_eq m hB, Option.bind_some]
    change (m.allocator.free (m.chunkHead i)).bind _ = _
    rw [hfree]
    rfl
  · rw [freeNode, deleteFromNodeList, getBucketId, if_pos (by omega)]
    rfl

/-- `delete_from_add_list` and `free_node` on a used node. -/
theorem NodesHold.unuse (h : NodesHold hash m L) (hi : i ∈ L.add) {a : ChunkAllocator}
    (hB : 0 < m.bucketSize) (hfree : m.allocator.free (m.chunkHead i) = some a) :
    ∃ m', (m.deleteFromAddList i).freeNode hash i = some m' ∧
      NodesHold hash m' (L.unuse (m.bucketOf hash i) i) ∧
      ∃ next prev head' tail' nodeNext nodePrev bucket num num',
        m' = { m with
          allocator := a
          chunkLen := Function.update m.chunkLen i 0
          chunkHead := Function.update m.chunkHead i none
          addNext := next, addPrev := prev, addHead := head', addTail := tail'
          nodeNext := nodeNext, nodePrev := nodePrev, bucket := bucket
          usedNodeNum := num, usedBucketNum := num' } := by
  obtain ⟨next, prev, head', tail', heq, hok⟩ :=
    deleteFromAddList_spec m h.access h.add_nodup (h.lt_of_mem_add hi)
  obtain ⟨b, hbdef⟩ : ∃ b, b = m.bucketOf hash i := ⟨_, rfl⟩
  have hb : b < m.bucketSize := by
    rw [hbdef]
    exact Nat.mod_lt _ hB
  have hib : i ∈ L.bucket b := (h.mem_bucket b i).mpr ⟨hi, hbdef.symm⟩
  -- the bucket's list, split at the node
  obtain ⟨l₁, l₂, hsplit⟩ := List.append_of_mem hib
  have hndb := h.bucket_nodup b
  rw [hsplit] at hndb
  have hil₁ : i ∉ l₁ := fun hil => (List.nodup_append.mp hndb).2.2 i hil i List.mem_cons_self rfl
  have hil₂ : i ∉ l₂ := (List.nodup_cons.mp (List.nodup_append.mp hndb).2.1).1
  have herase : (L.bucket b).erase i = l₁ ++ l₂ := by
    rw [hsplit, List.erase_append_right _ hil₁, List.erase_cons_head]
  have hlinked := h.bucket b hb
  rw [hsplit] at hlinked
  obtain ⟨hnext, hprev⟩ := hlinked.neighbours
  have hil : i ∉ l₁ ++ l₂ := by simp [hil₁, hil₂]
  have hout := hlinked.unlink hndb
  have hout' : Linked (Function.update (unlinkNext m.nodeNext m.nodePrev i) i none)
      (Function.update (unlinkPrev m.nodeNext m.nodePrev i) i none)
      (if m.bucket b = some i then m.nodeNext i else m.bucket b) (l₁ ++ l₂) :=
    ⟨hout.chain.update hil, hout.back.update hil⟩
  have hfew : (l₁ ++ l₂).length ≤ m.nodeTotal := by
    have hle := h.length_bucket_le b
    rw [hsplit] at hle
    simp at hle ⊢
    omega
  obtain ⟨m₁, hm₁⟩ : ∃ m₁, m₁ = { m with
      addNext := next, addPrev := prev, addHead := head', addTail := tail' } := ⟨_, rfl⟩
  have hnode : m₁.freeNode hash i = _ := freeNode_eq (l := l₁ ++ l₂) (a := a)
    (by subst hm₁; exact hB) (by subst hm₁; exact hfree)
    (by subst hm₁; subst hbdef; exact hout'.chain) (by subst hm₁; exact hfew)
  rw [heq, ← hm₁]
  refine ⟨_, hnode, ?_, by rw [hm₁]; exact ⟨_, _, _, _, _, _, _, _, _, rfl⟩⟩
  subst hm₁
  -- nodes outside of the bucket keep their links
  have hnext_ne : ∀ j, j ∉ L.bucket b → m.nodePrev i ≠ some j := by
    intro j hj hji
    rw [hprev] at hji
    exact hj (by rw [hsplit]; exact List.mem_append_left _ (List.mem_of_getLast? hji))
  have hprev_ne : ∀ j, j ∉ L.bucket b → m.nodeNext i ≠ some j := by
    intro j hj hji
    rw [hnext] at hji
    rw [hsplit] at hj
    exact hj (by simp [List.mem_of_mem_head? hji])
  have hia : i ∉ L.add.erase i := List.Nodup.not_mem_erase h.add_nodup
  rw [← hbdef]
  refine ⟨?_, fun c hc => ?_, fun c j => ?_, fun c => ?_, ?_, ?_, ?_, ?_⟩
  · -- the free list
    refine Chain.update (Chain.update (h.free.congr fun j hj => ?_) (h.not_mem_free hi))
      (h.not_mem_free hi)
    exact unlinkNext_of_ne (hnext_ne j fun hjb => h.not_mem_free (h.mem_add_of_bucket hjb) hj)
  · -- the lists of the buckets
    subst hbdef
    by_cases hcb : c = m.bucketOf hash i
    · subst hcb
      have hlist : (L.unuse (m.bucketOf hash i) i).bucket (m.bucketOf hash i) = l₁ ++ l₂ :=
        (Function.update_self _ _ _).trans herase
      have hhead : (if m.bucket (m.bucketOf hash i) = some i then
          Function.update m.bucket (m.bucketOf hash i) (m.nodeNext i) else m.bucket)
            (m.bucketOf hash i) = if m.bucket (m.bucketOf hash i) = some i then m.nodeNext i
              else m.bucket (m.bucketOf hash i) := by
        rw [ite_apply, Function.update_self]
      rw [hlist]
      refine ⟨?_, hout'.back.update hil⟩
      change Chain _ ((if m.bucket (m.bucketOf hash i) = some i then
          Function.update m.bucket (m.bucketOf hash i) (m.nodeNext i) else m.bucket)
            (m.bucketOf hash i)) (l₁ ++ l₂)
      rw [hhead]
      exact hout'.chain.update hil
    · have hic : i ∉ L.bucket c := fun hic => hcb ((h.mem_bucket c i).mp hic).2.symm
      have hdisj : ∀ j ∈ L.bucket c, j ∉ L.bucket (m.bucketOf hash i) := fun j hj hjb =>
        hcb (((h.mem_bucket c j).mp hj).2.symm.trans ((h.mem_bucket _ j).mp hjb).2)
      have hlist : (L.unuse (m.bucketOf hash i) i).bucket c = L.bucket c :=
        Function.update_of_ne hcb _ _
      have hnext : ∀ j ∈ L.bucket c, unlinkNext m.nodeNext m.nodePrev i j = m.nodeNext j :=
        fun j hj => unlinkNext_of_ne (hnext_ne j (hdisj j hj))
      have hprev : ∀ j ∈ L.bucket c, unlinkPrev m.nodeNext m.nodePrev i j = m.nodePrev j :=
        fun j hj => unlinkPrev_of_ne (hprev_ne j (hdisj j hj))
      have hkeep := (h.bucket c hc).congr hnext hprev
      rw [hlist]
      refine ⟨?_, (hkeep.back.update hic).update hic⟩
      change Chain _ ((if m.bucket (m.bucketOf hash i) = some i then
          Function.update m.bucket (m.bucketOf hash i) (m.nodeNext i) else m.bucket) c) _
      rw [ite_apply, Function.update_of_ne hcb, ite_self]
      exact (hkeep.chain.update hic).update hic
  · have hold := h.mem_bucket c j
    change j ∈ Function.update L.bucket b ((L.bucket b).erase i) c ↔
      j ∈ L.add.erase i ∧ m.bucketOf hash j = c
    rw [h.add_nodup.mem_erase_iff, and_assoc, ← hold]
    by_cases hcb : c = b
    · subst hcb
      rw [Function.update_self, (h.bucket_nodup c).mem_erase_iff]
    · rw [Function.update_of_ne hcb]
      refine ⟨fun hj => ⟨?_, hj⟩, And.right⟩
      rintro rfl
      exact hcb ((hold.mp hj).2.symm.trans hbdef.symm)
  · change (Function.update L.bucket b ((L.bucket b).erase i) c).Nodup
    by_cases hcb : c = b
    · subst hcb
      rw [Function.update_self]
      exact (h.bucket_nodup c).erase i
    · rw [Function.update_of_ne hcb]
      exact h.bucket_nodup c
  · refine ⟨⟨hok.linked.chain.update hia, hok.linked.back.update hia⟩, hok.tail, ?_⟩
    intro j hj hja
    by_cases hji : j = i
    · subst hji
      exact ⟨Function.update_self _ _ _, Function.update_self _ _ _⟩
    · have hidle := hok.idle j hj hja
      exact ⟨(Function.update_of_ne hji _ _).trans hidle.1,
        (Function.update_of_ne hji _ _).trans hidle.2⟩
  · have hmove : (i :: L.out ++ (L.free ++ L.add.erase i)).Perm
        (L.out ++ (L.free ++ i :: L.add.erase i)) := by
      rw [← List.append_assoc L.out, List.cons_append, ← List.append_assoc]
      exact List.perm_middle.symm
    refine hmove.trans (List.Perm.trans ?_ h.nodes)
    exact ((List.perm_cons_erase hi).symm.append_left _).append_left _
  · have hlen := (List.perm_cons_erase hi).length_eq
    have hnum := h.usedNodeNum
    change m.usedNodeNum - 1 = ((L.add.erase i).length : ℤ)
    rw [hnum, hlen, List.length_cons]
    push_cast
    omega
  · have hne : L.bucket b ≠ [] := List.ne_nil_of_mem hib
    have hcard := card_usedBuckets_erase (l := l₁ ++ l₂) hb hne
    change (if l₁ ++ l₂ = [] then m.usedBucketNum - 1 else m.usedBucketNum) =
      ((usedBuckets m.bucketSize
        (Function.update L.bucket b ((L.bucket b).erase i))).card : ℤ)
    rw [herase, hcard, h.usedBucketNum]

end HashMap
end Spp
