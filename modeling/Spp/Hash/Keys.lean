import Spp.Hash.Parts
import Spp.Lib.Run

/-!
# Keys that occur once

`Insert` does not look for its key, although it is documented to fail when the key
exists.  The keys of the used nodes are all different exactly as long as no such
insert finds a free node and enough free chunks.  This holds for any data lengths.

## Main definitions

* `Used`, `Present`, `KeysUnique` — the used nodes and their keys.
* `DuplicateInsert` — an insert of a present key that has what it needs.
* `InsertRefused` — an insert of a present key fails and changes nothing.
-/

namespace Spp

open Links ChunkAllocator

namespace HashMap

variable {K : Type} {hash : K → ℕ} {m m' : HashMap K} {N : NodeLists} {i : ℕ}

/-- The node is in the list of a bucket. -/
def Used (m : HashMap K) (i : ℕ) : Prop :=
  ∃ b l, b < m.bucketSize ∧ Chain m.nodeNext (m.bucket b) l ∧ i ∈ l

/-- A used node has the key. -/
def Present (m : HashMap K) (k : K) : Prop := ∃ i, m.Used i ∧ m.key i = k

/-- At most one used node carries any given key. -/
def KeysUnique (m : HashMap K) : Prop :=
  ∀ i j, m.Used i → m.Used j → m.key i = m.key j → i = j

/-- What an insert needs to succeed: a free node, some data and enough free chunks. -/
def CanInsert (m : HashMap K) (dataLen : ℤ) : Prop :=
  m.freeList ≠ none ∧
    ∃ c, m.allocator.getChunkNum dataLen = some c ∧ 0 < c ∧ c ≤ m.allocator.freeTotal

/-- An insert of a key that is present, with what it needs. -/
def DuplicateInsert (m : HashMap K) : Op K → Prop
  | .insert k _ dataLen => m.Present k ∧ CanInsert m dataLen
  | _ => False

/-- Nothing but the number of free chunks, and that only for a negative length, differs. -/
def Unchanged (m m' : HashMap K) (dataLen : ℤ) : Prop :=
  m' = { m with allocator := { m.allocator with freeTotal := m'.allocator.freeTotal } } ∧
    (0 ≤ dataLen → m' = m)

/-- An insert of a key that is present fails and changes nothing. -/
def InsertRefused (m : HashMap K) (op : Op K) (out : Out) (m' : HashMap K) : Prop :=
  ∀ k data dataLen, op = .insert k data dataLen → m.Present k →
    out = .ret (-1) ∧ Unchanged m m' dataLen

/-! ## Used nodes -/

theorem NodesHold.used_iff (h : NodesHold hash m N) (hB : 0 < m.bucketSize ∨ N.add = []) :
    m.Used i ↔ i ∈ N.add := by
  constructor
  · rintro ⟨b, l, hb, hl, hi⟩
    rw [hl.unique (h.bucket b hb).chain] at hi
    exact h.mem_add_of_bucket hi
  · intro hi
    rcases hB with hB | hnil
    · have hb : m.bucketOf hash i < m.bucketSize := Nat.mod_lt _ hB
      exact ⟨_, _, hb, (h.bucket _ hb).chain, (h.mem_bucket _ i).mpr ⟨hi, rfl⟩⟩
    · rw [hnil] at hi
      simp at hi

theorem NodesHold.present_iff (h : NodesHold hash m N) (hB : 0 < m.bucketSize ∨ N.add = [])
    {k : K} : m.Present k ↔ k ∈ N.add.map m.key := by
  simp only [Present, h.used_iff hB, List.mem_map]

theorem NodesHold.keys_nodup_iff (h : NodesHold hash m N) (hB : 0 < m.bucketSize ∨ N.add = []) :
    KeysUnique m ↔ (N.add.map m.key).Nodup := by
  rw [List.nodup_map_iff_inj_on h.add_nodup]
  simp only [KeysUnique, h.used_iff hB]
  exact ⟨fun hu i hi j hj => hu i j hi hj, fun hu i j hi hj => hu i hi j hj⟩

/-! ## The parts of a call, for any length -/

theorem storeNode_frame {newData : ℕ → UInt8} {newLen : ℤ} {ok : Bool}
    (hret : m.storeNode i newData newLen = some (ok, m')) :
    ∃ a len head, m' = { m with allocator := a, chunkLen := len, chunkHead := head } := by
  obtain ⟨c, -, hret⟩ := Option.bind_eq_some_iff.mp hret
  obtain ⟨c', -, hret⟩ := Option.bind_eq_some_iff.mp hret
  by_cases hne : c ≠ c'
  · rw [if_pos hne] at hret
    split at hret
    · obtain ⟨-, rfl⟩ := Prod.mk.inj (Option.some.inj hret)
      exact ⟨_, _, _, rfl⟩
    · obtain ⟨a, -, hret⟩ := Option.bind_eq_some_iff.mp hret
      obtain ⟨r, -, hret⟩ := Option.bind_eq_some_iff.mp hret
      obtain ⟨a', -, hret⟩ := Option.bind_eq_some_iff.mp hret
      obtain ⟨-, rfl⟩ := Prod.mk.inj (Option.some.inj hret)
      exact ⟨_, _, _, rfl⟩
  · rw [if_neg hne] at hret
    obtain ⟨a, -, hret⟩ := Option.bind_eq_some_iff.mp hret
    obtain ⟨-, rfl⟩ := Prod.mk.inj (Option.some.inj hret)
    exact ⟨_, _, _, rfl⟩

/-- The nodes are in their lists, whatever the chunks are. -/
structure Placed (hash : K → ℕ) (m : HashMap K) (N : NodeLists) : Prop where
  nodes : NodesHold hash m N
  out : N.out = []
  buckets : 0 < m.bucketSize ∨ N.add = []

/-- The keys of the used nodes. -/
def nodeKeys (m : HashMap K) (N : NodeLists) : List K := N.add.map m.key

theorem Placed.setAllocator (h : Placed hash m N) (a : ChunkAllocator) :
    Placed hash { m with allocator := a } N :=
  ⟨h.nodes.setValue a m.chunkLen m.chunkHead, h.out, h.buckets⟩

theorem Placed.storeNode (h : Placed hash m N) {newData : ℕ → UInt8} {newLen : ℤ} {ok : Bool}
    (hret : m.storeNode i newData newLen = some (ok, m')) :
    Placed hash m' N ∧ m'.key = m.key := by
  obtain ⟨a, len, head, rfl⟩ := storeNode_frame hret
  exact ⟨⟨h.nodes.setValue a len head, h.out, h.buckets⟩, rfl⟩

theorem Placed.bucketSize_pos (h : Placed hash m N) (hi : i ∈ N.add) : 0 < m.bucketSize := by
  refine h.buckets.resolve_right fun hnil => ?_
  rw [hnil] at hi
  simp at hi

/-- `delete_node` moves the node from its bucket to the free list. -/
theorem Placed.deleteNode (h : Placed hash m N) (hi : i ∈ N.add) {code : ℤ}
    {data : Option (ℕ → UInt8)} {len : Option ℤ}
    (hret : m.deleteNode hash i none none = some (code, m', data, len)) :
    code = 0 ∧ Placed hash m' (freedLists hash m N i) ∧ m'.key = m.key := by
  have hB := h.bucketSize_pos hi
  cases hfree : m.allocator.free (m.chunkHead i) with
  | none =>
      have hdelete : m.deleteNode hash i none none =
          ((m.deleteFromAddList i).freeNode hash i).bind fun m' =>
            some (0, m'.freeListInsert i, none, none) := rfl
      have hsame : (m.deleteFromAddList i).allocator.free ((m.deleteFromAddList i).chunkHead i) =
          none := by
        rw [deleteFromAddList]
        split <;> exact hfree
      rw [hdelete, freeNode_none hsame] at hret
      exact absurd hret (by simp)
  | some a =>
      obtain ⟨m₁, hdelete, hnodes, next, prev, head, tail, nodeNext, nodePrev, bucket, num, num',
        freeList, heq⟩ := h.nodes.deleteNode hi hB hfree
      rw [hdelete] at hret
      simp only [Option.some.injEq, Prod.mk.injEq] at hret
      obtain ⟨hcode, rfl, -⟩ := hret
      exact ⟨hcode.symm, ⟨hnodes, h.out, .inl (by rw [heq]; exact hB)⟩, by rw [heq]⟩

/-- `insert_node` fails exactly without what it needs, and then changes nothing but the
number of free chunks; otherwise it uses the first free node for the key. -/
theorem Placed.insertNode (h : Placed hash m N) {k : K} {newData : ℕ → UInt8} {newLen : ℤ}
    {r : Option ℕ} (hret : m.insertNode hash k newData newLen = some (r, m')) :
    r = none ∧ ¬ CanInsert m newLen ∧ Unchanged m m' newLen ∨
      ∃ i fr, r = some i ∧ N.free = i :: fr ∧ CanInsert m newLen ∧
        Placed hash m' (usedLists hash m N i k) ∧ m'.key = Function.update m.key i k := by
  have hhead := h.nodes.free.head
  cases hfree : N.free with
  | nil =>
      rw [h.nodes.insertNode_nil hfree] at hret
      obtain ⟨rfl, rfl⟩ := Prod.mk.inj (Option.some.inj hret)
      rw [hfree] at hhead
      exact .inl ⟨rfl, fun hcan => hcan.1 hhead, rfl, fun _ => rfl⟩
  | cons i fr =>
      rw [hfree] at hhead
      rw [h.nodes.insertNode_cons hfree] at hret
      obtain ⟨c, hnum, hret⟩ := Option.bind_eq_some_iff.mp hret
      obtain ⟨⟨hd, a⟩, hmalloc, hret⟩ := Option.bind_eq_some_iff.mp hret
      obtain ⟨hiff, hsame⟩ := malloc_head hmalloc
      have hcan : CanInsert m newLen ↔ hd ≠ none := by
        rw [hiff]
        constructor
        · rintro ⟨-, c', hnum', hc⟩
          rw [hnum] at hnum'
          obtain rfl := Option.some.inj hnum'
          exact hc
        · intro hc
          exact ⟨by rw [hhead]; simp, c, hnum, hc⟩
      cases hd with
      | none =>
          obtain ⟨rfl, rfl⟩ := Prod.mk.inj (Option.some.inj hret)
          obtain ⟨ha, hnonneg⟩ := hsame rfl
          refine .inl ⟨rfl, fun h => hcan.mp h rfl,
            congrArg (fun a => { m with allocator := a }) ha,
            fun hlen => ?_⟩
          obtain ⟨n, rfl⟩ := Int.eq_ofNat_of_zero_le hlen
          rw [hnonneg (getChunkNum_room hnum).2.1]
      | some hd =>
          obtain ⟨a', -, hret⟩ := Option.bind_eq_some_iff.mp hret
          have hB : 0 < m.bucketSize := by
            by_contra hzero
            rw [useNode_of_zero (by change m.bucketSize = 0; omega)] at hret
            exact absurd hret (by simp)
          obtain ⟨m₁, huse, hnodes, next, prev, head, tail, nodeNext, nodePrev, bucket, num, num',
            heq⟩ := h.nodes.insertNode_use hfree hB k newLen (some hd) a'
          rw [huse, Option.bind_some] at hret
          obtain ⟨rfl, rfl⟩ := Prod.mk.inj (Option.some.inj hret)
          exact .inr ⟨i, fr, rfl, rfl, hcan.mpr (by simp),
            ⟨hnodes, h.out, .inl (by rw [heq]; exact hB)⟩, by rw [heq]⟩

/-- The keys after a free node has been used. -/
theorem Placed.nodeKeys_used (h : Placed hash m N) {k : K} {fr : List ℕ}
    (hfree : N.free = i :: fr) (hkey : m'.key = Function.update m.key i k) :
    nodeKeys m' (usedLists hash m N i k) = k :: nodeKeys m N := by
  have hia : i ∉ N.add := fun hia => h.nodes.not_mem_free hia (by simp [hfree])
  rw [nodeKeys, hkey]
  refine List.cons_eq_cons.mpr ⟨Function.update_self _ _ _, List.map_congr_left ?_⟩
  intro j hj
  refine Function.update_of_ne ?_ _ _
  rintro rfl
  exact hia hj

section
variable [DecidableEq K]

/-- `find_node` moves a node with the key to the front, or there is none. -/
theorem Placed.findNode (h : Placed hash m N) {k : K} {r : Option ℕ}
    (hret : m.findNode hash k = some (r, m')) :
    r = none ∧ m' = m ∧ (∀ i ∈ N.add, m.key i ≠ k) ∨
      ∃ i ∈ N.add, r = some i ∧ m.key i = k ∧
        Placed hash m' { N with add := i :: N.add.erase i } ∧ m'.key = m.key := by
  have hB : 0 < m.bucketSize := by
    by_contra hzero
    rw [findNode_of_zero (by omega)] at hret
    exact absurd hret (by simp)
  rcases h.nodes.findNode hB k with ⟨hmiss, habsent⟩ | ⟨i, hi, hk, hhit⟩
  · rw [hmiss] at hret
    obtain ⟨rfl, rfl⟩ := Prod.mk.inj (Option.some.inj hret)
    exact .inl ⟨rfl, rfl, habsent⟩
  · rw [hhit] at hret
    obtain ⟨rfl, rfl⟩ := Prod.mk.inj (Option.some.inj hret)
    obtain ⟨next, prev, head, tail, heq, hnodes⟩ := h.nodes.touch hi
    exact .inr ⟨i, hi, rfl, hk, ⟨hnodes, h.out, .inl (by rw [heq]; exact hB)⟩, by rw [heq]⟩

omit [DecidableEq K] in
/-- The keys after an access, and after a node has become free. -/
theorem nodeKeys_cons_erase (hi : i ∈ N.add) (hkey : m'.key = m.key) :
    (m.key i :: (N.add.erase i).map m'.key).Perm (nodeKeys m N) := by
  rw [hkey]
  exact ((List.perm_cons_erase hi).map _).symm

/-! ## A call -/

/-- How a call changes the keys: not at all, or one less, or one more.  The new one was
there before only after a duplicate insert. -/
inductive KeyChange (m : HashMap K) (op : Op K) (ks : List K) : List K → Prop
  | same {ks'} : ks'.Perm ks → KeyChange m op ks ks'
  | removed {ks' k} : ks.Perm (k :: ks') → KeyChange m op ks ks'
  | added {k} : (k ∈ ks → DuplicateInsert m op) → KeyChange m op ks (k :: ks)

/-- A lookup that finds a node keeps the keys. -/
theorem Placed.findNode_keys (h : Placed hash m N) {k : K}
    (hret : m.findNode hash k = some (some i, m')) :
    ∃ N', Placed hash m' N' ∧ i ∈ N'.add ∧ (nodeKeys m' N').Perm (nodeKeys m N) := by
  rcases h.findNode hret with ⟨hnone, -⟩ | ⟨j, hj, hr, -, h', hkey⟩
  · exact absurd hnone (by simp)
  · obtain rfl := Option.some.inj hr
    refine ⟨_, h', List.mem_cons_self, ?_⟩
    have hperm := nodeKeys_cons_erase hj hkey
    rw [← hkey] at hperm
    exact hperm

theorem Placed.findNode_none (h : Placed hash m N) {k : K}
    (hret : m.findNode hash k = some (none, m')) : m' = m ∧ ∀ i ∈ N.add, m.key i ≠ k := by
  rcases h.findNode hret with ⟨-, hsame, habsent⟩ | ⟨j, -, hr, -⟩
  · exact ⟨hsame, habsent⟩
  · exact absurd hr (by simp)

omit [DecidableEq K] in
/-- A removed node takes its key away. -/
theorem Placed.deleteNode_keys (h : Placed hash m N) (hi : i ∈ N.add) {code : ℤ}
    {data : Option (ℕ → UInt8)} {len : Option ℤ}
    (hret : m.deleteNode hash i none none = some (code, m', data, len)) :
    ∃ N', Placed hash m' N' ∧ (nodeKeys m N).Perm (m.key i :: nodeKeys m' N') := by
  obtain ⟨-, h', hkey⟩ := h.deleteNode hi hret
  exact ⟨_, h', (nodeKeys_cons_erase hi hkey).symm⟩

theorem Placed.call (h : Placed hash m N) {op : Op K} {out : Out}
    (hret : m.call hash op = some (out, m')) :
    ∃ N', Placed hash m' N' ∧ KeyChange m op (nodeKeys m N) (nodeKeys m' N') := by
  cases call_parts hret with
  | insert hnode =>
      rcases h.insertNode hnode with ⟨-, -, hsame, -⟩ | ⟨i, fr, -, hfree, hcan, h', hkey⟩
      · rw [hsame]
        exact ⟨N, h.setAllocator _, .same (.refl _)⟩
      · refine ⟨_, h', ?_⟩
        rw [h.nodeKeys_used hfree hkey]
        exact .added fun hk => ⟨(h.nodes.present_iff h.buckets).mpr hk, hcan⟩
  | setNew hfind hnode =>
      obtain ⟨rfl, habsent⟩ := h.findNode_none hfind
      rcases h.insertNode hnode with ⟨-, -, hsame, -⟩ | ⟨i, fr, -, hfree, -, h', hkey⟩
      · rw [hsame]
        exact ⟨N, h.setAllocator _, .same (.refl _)⟩
      · refine ⟨_, h', ?_⟩
        rw [h.nodeKeys_used hfree hkey]
        refine .added fun hk => ?_
        obtain ⟨i, hi, hk⟩ := List.mem_map.mp hk
        exact absurd hk (habsent i hi)
  | setOld hfind hstore =>
      obtain ⟨N₁, h₁, -, hperm⟩ := h.findNode_keys hfind
      obtain ⟨h', hkey⟩ := h₁.storeNode hstore
      refine ⟨N₁, h', .same ?_⟩
      rw [nodeKeys, hkey]
      exact hperm
  | @find k node m₁ hfind =>
      cases node with
      | none =>
          obtain ⟨rfl, -⟩ := h.findNode_none hfind
          exact ⟨N, h, .same (.refl _)⟩
      | some i =>
          obtain ⟨N₁, h₁, -, hperm⟩ := h.findNode_keys hfind
          exact ⟨N₁, h₁, .same hperm⟩
  | bufOld hfind _ =>
      obtain ⟨N₁, h₁, -, hperm⟩ := h.findNode_keys hfind
      exact ⟨N₁, h₁, .same hperm⟩
  | bufNew hfind =>
      obtain ⟨rfl, -⟩ := h.findNode_none hfind
      exact ⟨N, h, .same (.refl _)⟩
  | deleteOld hfind hdelete =>
      obtain ⟨N₁, h₁, hi, hperm⟩ := h.findNode_keys hfind
      obtain ⟨N', h', hkeys⟩ := h₁.deleteNode_keys hi hdelete
      exact ⟨N', h', .removed (hperm.symm.trans hkeys)⟩
  | deleteNew hfind =>
      obtain ⟨rfl, -⟩ := h.findNode_none hfind
      exact ⟨N, h, .same (.refl _)⟩
  | updateOld _ hstore =>
      obtain ⟨h', hkey⟩ := h.storeNode hstore
      refine ⟨N, h', .same (.of_eq ?_)⟩
      rw [nodeKeys, hkey, nodeKeys]
  | updateNew _ => exact ⟨N, h, .same (.refl _)⟩
  | eraseOld hvisit hdelete =>
      rw [h.nodes.visit] at hvisit
      obtain ⟨N', h', hkeys⟩ := h.deleteNode_keys (List.mem_of_getElem? hvisit) hdelete
      exact ⟨N', h', .removed hkeys⟩
  | eraseNew _ => exact ⟨N, h, .same (.refl _)⟩
  | getCount => exact ⟨N, h, .same (.refl _)⟩

omit [DecidableEq K] in
theorem KeyChange.nodup {op : Op K} {ks ks' : List K} (h : KeyChange m op ks ks')
    (hks : ks.Nodup) (hdup : ¬ DuplicateInsert m op) : ks'.Nodup := by
  cases h with
  | same hperm => exact hperm.nodup_iff.mpr hks
  | removed hperm => exact (List.nodup_cons.mp (hperm.nodup_iff.mp hks)).2
  | added hnew => exact List.nodup_cons.mpr ⟨fun hk => hdup (hnew hk), hks⟩

/-- An insert of a key that is present is refused exactly without what it needs. -/
theorem Placed.insertRefused_iff (h : Placed hash m N) {op : Op K} {out : Out}
    (hret : m.call hash op = some (out, m')) :
    InsertRefused m op out m' ↔ ¬ DuplicateInsert m op := by
  constructor
  · intro hrefused hdup
    cases call_parts hret with
    | insert hnode =>
        rcases h.insertNode hnode with ⟨-, hcannot, -⟩ | ⟨i, fr, rfl, -⟩
        · exact hcannot hdup.2
        · have hcode := Out.ret.inj (hrefused _ _ _ rfl hdup.1).1
          simp [writeCode] at hcode
    | _ => exact hdup
  · rintro hdup k data dataLen rfl hk
    cases call_parts hret with
    | insert hnode =>
        rcases h.insertNode hnode with ⟨rfl, -, hsame⟩ | ⟨i, fr, -, -, hcan, -⟩
        · exact ⟨rfl, hsame⟩
        · exact absurd ⟨hk, hcan⟩ hdup

omit [DecidableEq K] in
/-- An insert that returns 0 has added a node with its key. -/
theorem Placed.insert (h : Placed hash m N) {k : K} {data : ℕ → UInt8} {len : ℤ}
    (hret : m.insert hash k data len = some (0, m')) :
    ∃ N', Placed hash m' N' ∧ nodeKeys m' N' = k :: nodeKeys m N := by
  obtain ⟨⟨node, m₁⟩, hnode, hr⟩ := Option.bind_eq_some_iff.mp hret
  obtain ⟨hcode, rfl⟩ := Prod.mk.inj (Option.some.inj hr)
  rcases h.insertNode hnode with ⟨rfl, -⟩ | ⟨i, fr, -, hfree, -, h', hkey⟩
  · exact absurd hcode (by decide)
  · exact ⟨_, h', h.nodeKeys_used hfree hkey⟩

/-! ## Runs -/

/-- One call that returns. -/
def Returns (hash : K → ℕ) (m : HashMap K) (op : Op K) (out : Out) (m' : HashMap K) : Prop :=
  m.call hash op = some (out, m')

omit [DecidableEq K] in
theorem placed_openInit (pool : HashMap K) (nodeTotal bucketSize nChunks chunkSize : ℕ) :
    Placed hash (pool.openInit nodeTotal bucketSize nChunks chunkSize)
      ⟨[], (List.range nodeTotal).reverse, fun _ => [], []⟩ :=
  ⟨(holds_openInit pool nodeTotal bucketSize nChunks chunkSize).nodes, rfl, .inr rfl⟩

/-- The nodes are in their lists, and no key occurs twice. -/
def Distinct (hash : K → ℕ) (m : HashMap K) : Prop :=
  ∃ N, Placed hash m N ∧ (nodeKeys m N).Nodup

omit [DecidableEq K] in
theorem Distinct.keysUnique (h : Distinct hash m) : KeysUnique m := by
  obtain ⟨N, h, hnd⟩ := h
  exact (h.nodes.keys_nodup_iff h.buckets).mpr hnd

/-- In every run of calls on a freshly opened pool, all steps leave the keys unique and
refuse an insert of a present key, if and only if no step is a duplicate insert. -/
theorem keysUnique_iff (hash : K → ℕ) (pool : HashMap K)
    (nodeTotal bucketSize nChunks chunkSize : ℕ) (tr : List (Op K × Out)) (m' : HashMap K) :
    Run.Allows (Run.Within (Returns hash) fun m op out m' =>
        KeysUnique m ∧ KeysUnique m' ∧ InsertRefused m op out m')
      (pool.openInit nodeTotal bucketSize nChunks chunkSize) tr m' ↔
    Run.Allows (Run.Within (Returns hash) fun m op _ _ => ¬ DuplicateInsert m op)
      (pool.openInit nodeTotal bucketSize nChunks chunkSize) tr m' := by
  have hdistinct : Distinct hash (pool.openInit nodeTotal bucketSize nChunks chunkSize) :=
    ⟨_, placed_openInit pool nodeTotal bucketSize nChunks chunkSize, List.nodup_nil⟩
  have hcall : ∀ m op out m', Distinct hash m → Returns hash m op out m' →
      (InsertRefused m op out m' ↔ ¬ DuplicateInsert m op) ∧
        (¬ DuplicateInsert m op → Distinct hash m') := by
    rintro m op out m' ⟨N, h, hnd⟩ hret
    obtain ⟨N', h', hchange⟩ := h.call hret
    exact ⟨h.insertRefused_iff hret, fun hdup => ⟨N', h', hchange.nodup hnd hdup⟩⟩
  constructor
  · refine fun hrun => Run.Allows.within ?_ hdistinct hrun
    rintro m op out m' h hret ⟨-, -, hrefused⟩
    obtain ⟨hiff, hnext⟩ := hcall m op out m' h hret
    exact ⟨hiff.mp hrefused, hnext (hiff.mp hrefused)⟩
  · refine fun hrun => Run.Allows.within ?_ hdistinct hrun
    intro m op out m' h hret hdup
    obtain ⟨hiff, hnext⟩ := hcall m op out m' h hret
    exact ⟨⟨h.keysUnique, (hnext hdup).keysUnique, hiff.mpr hdup⟩, hnext hdup⟩

/-- Two inserts of one key into a new pool both succeed, and two used nodes have the key. -/
theorem not_keysUnique_insert_twice :
    ∃ m', Run.Allows (Returns id) ((default : HashMap ℕ).openInit 2 1 2 1)
        [(.insert 7 (fun _ => 1) 1, .ret 0), (.insert 7 (fun _ => 2) 1, .ret 0)] m' ∧
      ¬ KeysUnique m' := by
  have hcodes : (((default : HashMap ℕ).openInit 2 1 2 1).insert id 7 (fun _ => 1) 1).bind
      (fun r => (r.2.insert id 7 (fun _ => 2) 1).map fun r' => (r.1, r'.1)) = some (0, 0) := by
    decide +kernel
  obtain ⟨⟨c₁, m₁⟩, h₁, hcodes⟩ := Option.bind_eq_some_iff.mp hcodes
  obtain ⟨⟨c₂, m₂⟩, h₂, hcodes⟩ := Option.map_eq_some_iff.mp hcodes
  obtain ⟨rfl, rfl⟩ := Prod.mk.inj hcodes
  obtain ⟨N₁, hN₁, hkeys₁⟩ := (placed_openInit default 2 1 2 1).insert h₁
  obtain ⟨N₂, hN₂, hkeys₂⟩ := hN₁.insert h₂
  refine ⟨m₂, .cons (by rw [Returns, call, h₁]; rfl) (.cons (by rw [Returns, call, h₂]; rfl)
    (.nil _)), fun hunique => ?_⟩
  have hnd := (hN₂.nodes.keys_nodup_iff hN₂.buckets).mp hunique
  rw [← nodeKeys, hkeys₂, hkeys₁] at hnd
  exact absurd hnd (by simp)

end

end HashMap
end Spp
