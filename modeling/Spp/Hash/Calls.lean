import Spp.Hash.Structure

/-!
# What a call does to the entries

Each call returns, keeps the structure, and changes the list of entries in a way that
speaks of keys and values only.  The list may hold a key twice, because `Insert` does
not look for the key.

## Main definitions

* `Op.NonNeg` — no negative data length.
* `Effect` — the entries before and after a call.
-/

namespace Spp

open Links ChunkAllocator

namespace HashMap

variable {K : Type} {hash : K → ℕ} {m : HashMap K} {L : Lists} {i : ℕ}

/-- The caller passes no negative data length. -/
def Op.NonNeg : Op K → Prop
  | .insert _ _ dataLen => 0 ≤ dataLen
  | .setValue _ _ dataLen => 0 ≤ dataLen
  | .updateData _ _ dataLen => 0 ≤ dataLen
  | _ => True

/-- What `Find` with a buffer returns for a stored value. -/
def bufOut (v : List UInt8) : Option (ℕ → UInt8) → Option ℤ → Out
  | some buf, some len =>
      if len < v.length then .buf chunkAllocatorErrorInvalidParam (some buf) (some v.length)
      else .buf 0 (some (Mem.write buf 0 v)) (some v.length)
  | buf, some _ => .buf (-1) buf (some v.length)
  | buf, none => .buf (-1) buf none

/-- The entries before a call, what it returns, and the entries after it, up to their
order. -/
inductive Effect : List (K × List UInt8) → Op K → Out → List (K × List UInt8) → Prop
  | insert {es es' k data n} : es'.Perm ((k, Mem.read data 0 n) :: es) →
      Effect es (.insert k data (n : ℕ)) (.ret 0) es'
  | insertFails {es k data len} : Effect es (.insert k data len) (.ret (-1)) es
  | setNew {es es' k data n} : (∀ e ∈ es, e.1 ≠ k) → es'.Perm ((k, Mem.read data 0 n) :: es) →
      Effect es (.setValue k data (n : ℕ)) (.ret 0) es'
  | setOld {es es' rest k v data n} : es.Perm ((k, v) :: rest) →
      es'.Perm ((k, Mem.read data 0 n) :: rest) → Effect es (.setValue k data (n : ℕ)) (.ret 0) es'
  | setFails {es es' k data len} : es'.Perm es → Effect es (.setValue k data len) (.ret (-1)) es'
  | findHit {es es' k v} : (k, v) ∈ es → es'.Perm es → Effect es (.find k) (.found true) es'
  | findMiss {es k} : (∀ e ∈ es, e.1 ≠ k) → Effect es (.find k) (.found false) es
  | bufHit {es es' k v buf len} : (k, v) ∈ es → es'.Perm es →
      Effect es (.findBuf k buf len) (bufOut v buf len) es'
  | bufMiss {es k buf len} : (∀ e ∈ es, e.1 ≠ k) →
      Effect es (.findBuf k buf len) (.buf (-1) buf len) es
  | delete {es es' k v} : es.Perm ((k, v) :: es') → Effect es (.delete k) (.ret 0) es'
  | deleteMiss {es k} : (∀ e ∈ es, e.1 ≠ k) → Effect es (.delete k) (.ret (-1)) es
  | updateData {es es' rest i k v data n} : es.Perm ((k, v) :: rest) →
      es'.Perm ((k, Mem.read data 0 n) :: rest) →
      Effect es (.updateData i data (n : ℕ)) (.node true) es'
  | updateFails {es i data len} : Effect es (.updateData i data len) (.node false) es
  | erase {es es' i k v} : es.Perm ((k, v) :: es') → Effect es (.erase i) (.ret 0) es'
  | eraseMiss {es i} : Effect es (.erase i) (.ret (-1)) es
  | count {es} : Effect es .getCount (.ret es.length) es

/-! ## The parts of a call -/

theorem absent_iff {k : K} : (∀ e ∈ m.entries L, e.1 ≠ k) ↔ ∀ i ∈ L.add, m.key i ≠ k := by
  simp [entries, entry]

theorem mem_entries (hi : i ∈ L.add) :
    (m.key i, m.allocator.value m.chunkLen L.chunks i) ∈ m.entries L :=
  List.mem_map_of_mem hi

/-- A used node's value is as long as the node says. -/
theorem Holds.length_value (h : Holds hash m L) (hi : i ∈ L.add) :
    ((m.allocator.value m.chunkLen L.chunks i).length : ℤ) = m.chunkLen i := by
  rw [value, length_content _ (h.chunks.room hi)]
  exact Int.toNat_of_nonneg (h.chunks.sized i hi).1

/-- `merge_node_data` returns the stored value. -/
theorem Holds.mergeNodeData (h : Holds hash m L) (hi : i ∈ L.add) (buf : Option (ℕ → UInt8))
    (len : Option ℤ) :
    ∃ code buf' len', m.mergeNodeData i buf len = some (code, buf', len') ∧
      bufOut (m.allocator.value m.chunkLen L.chunks i) buf len = .buf code buf' len' := by
  have hlen := h.length_value hi
  obtain ⟨-, htotal, -⟩ := (h.chunks_cons hi).split_cons
  have hmerge : ∀ buf len, m.allocator.merge (m.chunkHead i) (m.chunkLen i) buf len =
      if len < m.chunkLen i then some (chunkAllocatorErrorInvalidParam, buf, m.chunkLen i)
      else some (0, Mem.write buf 0 (m.allocator.value m.chunkLen L.chunks i), m.chunkLen i) := by
    intro buf len
    have hcast : ((m.chunkLen i).toNat : ℤ) = m.chunkLen i :=
      Int.toNat_of_nonneg (h.chunks.sized i hi).1
    have hspec := merge_spec buf len (h.chunks.chain i hi) htotal (h.chunks.room hi)
    rw [hcast] at hspec
    exact hspec
  unfold HashMap.mergeNodeData bufOut
  rw [hlen]
  cases buf with
  | none =>
      cases len with
      | none => exact ⟨_, _, _, rfl, rfl⟩
      | some len => exact ⟨_, _, _, rfl, rfl⟩
  | some buf =>
      cases len with
      | none => exact ⟨_, _, _, rfl, rfl⟩
      | some len =>
          simp only [oldValue, Option.bind_eq_bind, hmerge]
          by_cases hlt : len < m.chunkLen i
          · rw [if_pos hlt, if_pos hlt]
            exact ⟨_, _, _, rfl, rfl⟩
          · rw [if_neg hlt, if_neg hlt]
            exact ⟨_, _, _, rfl, rfl⟩

/-- Without a buffer for the old value `update_node` only stores. -/
theorem updateNode_none (m : HashMap K) (newData : ℕ → UInt8) (newLen : ℤ) :
    m.updateNode i newData newLen none none =
      (m.storeNode i newData newLen).bind fun r => some (r.1, r.2, none, none) := by
  rw [HashMap.updateNode, oldValue]
  rfl

/-- `update_node` on a used node, without a buffer for the old value. -/
theorem Holds.updateNode (h : Holds hash m L) (hi : i ∈ L.add)
    (hsize : 0 < m.allocator.chunkSize) (newData : ℕ → UInt8) (n : ℕ) :
    ∃ ok m' L', m.updateNode i newData n none none = some (ok, m', none, none) ∧
      Holds hash m' L' ∧ SameSizes m m' ∧
      (ok = false ∧ m' = m ∧ L' = L ∨ ok = true ∧ (m'.entries L').Perm
        ((m.key i, Mem.read newData 0 n) :: (L.add.erase i).map (m.entry L))) := by
  rcases h.storeNode hi hsize newData n with hfail | ⟨a, len, head, L', hok, hholds, hadd, hsize',
    hvalue, hothers⟩
  · rw [updateNode_none, hfail]
    exact ⟨false, m, L, rfl, h, ⟨rfl, rfl⟩, .inl ⟨rfl, rfl, rfl⟩⟩
  · rw [updateNode_none, hok]
    refine ⟨true, _, L', rfl, hholds, ⟨rfl, hsize'⟩, .inr ⟨rfl, ?_⟩⟩
    refine (entries_perm (by rw [hadd]; exact hi)).trans ?_
    rw [hadd]
    have hnew : entry { m with allocator := a, chunkLen := len, chunkHead := head } L' i =
        (m.key i, Mem.read newData 0 n) := Prod.ext rfl hvalue
    have hrest : (L.add.erase i).map
        (entry { m with allocator := a, chunkLen := len, chunkHead := head } L') =
        (L.add.erase i).map (m.entry L) :=
      List.map_congr_left fun j hj => Prod.ext rfl (hothers j hj)
    rw [hnew, hrest]

/-- `begin` and `next` walk down the access list. -/
theorem NodesHold.visit {N : NodeLists} (h : NodesHold hash m N) (n : ℕ) :
    m.visit n = N.add[n]? := by
  have hchain := h.access.linked.chain
  induction n with
  | zero => rw [HashMap.visit, hchain.head, List.head?_eq_getElem?]
  | succ n ih => rw [HashMap.visit, ih, hchain.bind_getElem?]

theorem SameSizes.trans {m m' m'' : HashMap K} (h : SameSizes m m') (h' : SameSizes m' m'') :
    SameSizes m m'' :=
  ⟨h'.bucketSize.trans h.bucketSize, h'.chunkSize.trans h.chunkSize⟩

theorem useNode_of_zero (hB : m.bucketSize = 0) (k : K) (len : ℤ) (head : Option ℕ) :
    m.useNode hash i k len head = none := by
  rw [useNode, getBucketId, if_pos (by exact hB)]
  rfl

/-- With no bucket, or with chunks of no size, nothing can be inserted. -/
theorem Holds.insert_of_zero (h : Holds hash m L)
    (hzero : m.bucketSize = 0 ∨ m.allocator.chunkSize = 0) {k : K} {data : ℕ → UInt8} {n : ℕ}
    {r : Option ℕ × HashMap K} (hret : m.insertNode hash k data n = some r) : r = (none, m) := by
  cases hfree : L.free with
  | nil =>
      rw [h.nodes.insertNode_nil hfree] at hret
      exact (Option.some.inj hret).symm
  | cons i fr =>
      rw [h.nodes.insertNode_cons hfree] at hret
      obtain ⟨c, hnum, hret⟩ := Option.bind_eq_some_iff.mp hret
      obtain ⟨hsize, hc, -⟩ := getChunkNum_room hnum
      have hB : m.bucketSize = 0 := by omega
      obtain ⟨⟨hd, a⟩, hmalloc, hret⟩ := Option.bind_eq_some_iff.mp hret
      cases hd with
      | none =>
          rw [((malloc_head hmalloc).2 rfl).2 hc] at hret
          exact (Option.some.inj hret).symm
      | some hd =>
          obtain ⟨a', -, hret⟩ := Option.bind_eq_some_iff.mp hret
          rw [useNode_of_zero (by exact hB)] at hret
          exact absurd hret (by simp)

/-! ## Calls with lengths that are not negative -/

variable [DecidableEq K]

/-- `SetValue` updates the node of the key, or inserts one. -/
theorem setValue_eq (m : HashMap K) (k : K) (data : ℕ → UInt8) (len : ℤ) :
    m.setValue hash k data len = (m.findNode hash k).bind fun r =>
      match r with
      | (some i, m) => (m.updateNode i data len none none).bind fun r =>
          some (if r.1 = false then -1 else 0, r.2.1)
      | (none, m) => (m.insertNode hash k data len).bind fun r =>
          some (if r.1.isSome = false then -1 else 0, r.2) := by
  rw [HashMap.setValue, replaceNode]
  simp only [Option.bind_eq_bind, Option.bind_assoc]
  congr 1
  funext r
  obtain ⟨node, m'⟩ := r
  cases node with
  | none => simp only [Option.bind_assoc, Option.bind_some]
  | some i => rfl

theorem Holds.findNode (h : Holds hash m L) (hB : 0 < m.bucketSize) (k : K) :
    (m.findNode hash k = some (none, m) ∧ ∀ e ∈ m.entries L, e.1 ≠ k) ∨
      ∃ i m' L', m.findNode hash k = some (some i, m') ∧ Holds hash m' L' ∧ SameSizes m m' ∧
        i ∈ L'.add ∧ m'.key i = k ∧ (m'.entries L').Perm (m.entries L) := by
  rcases h.nodes.findNode hB k with ⟨hmiss, habsent⟩ | ⟨i, hi, hk, hhit⟩
  · exact .inl ⟨hmiss, absent_iff.mpr habsent⟩
  · obtain ⟨next, prev, head, tail, heq, htouch⟩ := h.touch hi
    refine .inr ⟨i, _, _, hhit, htouch, ?_, List.mem_cons_self, ?_, ?_⟩
    · rw [heq]
      exact ⟨rfl, rfl⟩
    · rw [heq]
      exact hk
    · rw [heq]
      exact entries_touch hi

/-- Each call returns, keeps the structure and has its effect on the entries. -/
theorem Holds.call (h : Holds hash m L) (hB : 0 < m.bucketSize)
    (hsize : 0 < m.allocator.chunkSize) (op : Op K) (hop : op.NonNeg) :
    ∃ out m' L', m.call hash op = some (out, m') ∧ Holds hash m' L' ∧ SameSizes m m' ∧
      Effect (m.entries L) op out (m'.entries L') := by
  cases op with
  | insert k data len =>
      obtain ⟨n, rfl⟩ := Int.eq_ofNat_of_zero_le hop
      rcases h.insertNode hB hsize k data n with hfail | ⟨i, m', L', hok, h', hentries, hsame⟩
      · refine ⟨.ret (-1), m, L, ?_, h, ⟨rfl, rfl⟩, .insertFails⟩
        rw [HashMap.call, HashMap.insert, hfail]
        rfl
      · refine ⟨.ret 0, m', L', ?_, h', hsame, .insert (by rw [hentries])⟩
        rw [HashMap.call, HashMap.insert, hok]
        rfl
  | setValue k data len =>
      obtain ⟨n, rfl⟩ := Int.eq_ofNat_of_zero_le hop
      rcases h.findNode hB k with ⟨hmiss, habsent⟩ | ⟨i, m₁, L₁, hhit, h₁, hsame, hi, hk, hperm⟩
      · rcases h.insertNode hB hsize k data n with hfail | ⟨i, m', L', hok, h', hentries, hsame⟩
        · refine ⟨.ret (-1), m, L, ?_, h, ⟨rfl, rfl⟩, .setFails (.refl _)⟩
          rw [HashMap.call, setValue_eq, hmiss, Option.bind_some]
          simp only [hfail]
          rfl
        · refine ⟨.ret 0, m', L', ?_, h', hsame, .setNew habsent (by rw [hentries])⟩
          rw [HashMap.call, setValue_eq, hmiss, Option.bind_some]
          simp only [hok]
          rfl
      · obtain ⟨ok, m', L', hupdate, h', hsame', heffect⟩ :=
          h₁.updateNode hi (by rw [hsame.chunkSize]; exact hsize) data n
        rcases heffect with ⟨rfl, rfl, rfl⟩ | ⟨rfl, heffect⟩
        · refine ⟨.ret (-1), _, _, ?_, h', hsame, .setFails hperm⟩
          rw [HashMap.call, setValue_eq, hhit, Option.bind_some]
          simp only [hupdate]
          rfl
        · rw [hk] at heffect
          have hold := hperm.symm.trans (entries_perm hi)
          rw [entry, hk] at hold
          refine ⟨.ret 0, _, _, ?_, h', hsame.trans hsame', .setOld hold heffect⟩
          rw [HashMap.call, setValue_eq, hhit, Option.bind_some]
          simp only [hupdate]
          rfl
  | find k =>
      rcases h.findNode hB k with ⟨hmiss, habsent⟩ | ⟨i, m₁, L₁, hhit, h₁, hsame, hi, hk, hperm⟩
      · refine ⟨.found false, m, L, ?_, h, ⟨rfl, rfl⟩, .findMiss habsent⟩
        rw [HashMap.call, HashMap.find, hmiss]
        rfl
      · have hmem := hperm.mem_iff.mp (mem_entries hi)
        rw [hk] at hmem
        refine ⟨.found true, _, _, ?_, h₁, hsame, .findHit hmem hperm⟩
        rw [HashMap.call, HashMap.find, hhit]
        rfl
  | findBuf k buf len =>
      rcases h.findNode hB k with ⟨hmiss, habsent⟩ | ⟨i, m₁, L₁, hhit, h₁, hsame, hi, hk, hperm⟩
      · refine ⟨_, m, L, ?_, h, ⟨rfl, rfl⟩, .bufMiss habsent⟩
        rw [HashMap.call, findBuf, hmiss]
        rfl
      · obtain ⟨code, buf', len', hmerge, hout⟩ := h₁.mergeNodeData hi buf len
        have hmem := hperm.mem_iff.mp (mem_entries hi)
        rw [hk] at hmem
        refine ⟨_, _, _, ?_, h₁, hsame, .bufHit hmem hperm⟩
        rw [HashMap.call, findBuf, hhit, hout]
        simp only [Option.bind_eq_bind, Option.bind_some, hmerge]
        rfl
  | delete k =>
      rcases h.findNode hB k with ⟨hmiss, habsent⟩ | ⟨i, m₁, L₁, hhit, h₁, hsame, hi, hk, hperm⟩
      · refine ⟨.ret (-1), m, L, ?_, h, ⟨rfl, rfl⟩, .deleteMiss habsent⟩
        rw [HashMap.call, HashMap.delete, hmiss]
        rfl
      · obtain ⟨m', L', hdelete, h', hentries, hsame'⟩ :=
          h₁.deleteNode hi (by rw [hsame.bucketSize]; exact hB)
        have hold := hperm.symm.trans (entries_perm hi)
        rw [entry, hk, ← hentries] at hold
        refine ⟨.ret 0, m', L', ?_, h', hsame.trans hsame', .delete hold⟩
        rw [HashMap.call, HashMap.delete, hhit]
        simp only [Option.bind_eq_bind, Option.bind_some, hdelete]
        rfl
  | updateData n data len =>
      obtain ⟨len, rfl⟩ := Int.eq_ofNat_of_zero_le hop
      rw [HashMap.call, h.nodes.visit]
      cases hi : L.add[n]? with
      | none => exact ⟨_, m, L, rfl, h, ⟨rfl, rfl⟩, .updateFails⟩
      | some i =>
          have hmem := List.mem_of_getElem? hi
          obtain ⟨ok, m', L', hupdate, h', hsame, heffect⟩ := h.updateNode hmem hsize data len
          simp only [hupdate]
          rcases heffect with ⟨rfl, rfl, rfl⟩ | ⟨rfl, heffect⟩
          · exact ⟨_, _, _, rfl, h', hsame, .updateFails⟩
          · exact ⟨_, _, _, rfl, h', hsame, .updateData (entries_perm hmem) heffect⟩
  | erase n =>
      rw [HashMap.call, h.nodes.visit]
      cases hi : L.add[n]? with
      | none => exact ⟨_, m, L, rfl, h, ⟨rfl, rfl⟩, .eraseMiss⟩
      | some i =>
          have hmem := List.mem_of_getElem? hi
          obtain ⟨m', L', hdelete, h', hentries, hsame⟩ := h.deleteNode hmem hB
          simp only [hdelete]
          have hold := entries_perm (m := m) hmem
          rw [entry, ← hentries] at hold
          exact ⟨_, _, _, rfl, h', hsame, .erase hold⟩
  | getCount =>
      refine ⟨_, m, L, rfl, h, ⟨rfl, rfl⟩, ?_⟩
      have hcount : m.getCount = ((m.entries L).length : ℤ) := by
        rw [entries, List.length_map]
        exact h.nodes.usedNodeNum
      rw [hcount]
      exact .count

/-! ## A size of zero -/

theorem findNode_of_zero (hB : m.bucketSize = 0) (k : K) : m.findNode hash k = none := by
  rw [HashMap.findNode, getBucketId, if_pos hB]
  rfl

theorem Holds.findNode_of_empty (h : Holds hash m L) (hnil : L.add = []) {k : K}
    {r : Option ℕ × HashMap K} (hret : m.findNode hash k = some r) : r = (none, m) := by
  by_cases hB : m.bucketSize = 0
  · rw [findNode_of_zero hB] at hret
    exact absurd hret (by simp)
  · rcases h.nodes.findNode (by omega) k with ⟨hmiss, -⟩ | ⟨i, hi, -⟩
    · rw [hmiss] at hret
      exact (Option.some.inj hret).symm
    · rw [hnil] at hi
      simp at hi

/-- With no bucket, or with chunks of no size, an empty map stays empty: what returns
changes nothing. -/
theorem Holds.call_of_zero (h : Holds hash m L) (hnil : L.add = [])
    (hzero : m.bucketSize = 0 ∨ m.allocator.chunkSize = 0) {op : Op K} (hop : op.NonNeg)
    {out : Out} {m' : HashMap K} (hret : m.call hash op = some (out, m')) :
    m' = m ∧ Effect [] op out [] := by
  have hvisit : ∀ n, m.visit n = none := fun n => by rw [h.nodes.visit, hnil]; rfl
  cases op with
  | insert k data len =>
      obtain ⟨n, rfl⟩ := Int.eq_ofNat_of_zero_le hop
      obtain ⟨r, hins, heq⟩ := Option.map_eq_some_iff.mp hret
      obtain ⟨r', hins, hr⟩ := Option.bind_eq_some_iff.mp hins
      rw [h.insert_of_zero hzero hins] at hr
      obtain rfl := Option.some.inj hr
      obtain ⟨rfl, rfl⟩ := Prod.mk.inj heq
      exact ⟨rfl, .insertFails⟩
  | setValue k data len =>
      obtain ⟨n, rfl⟩ := Int.eq_ofNat_of_zero_le hop
      obtain ⟨r, hset, heq⟩ := Option.map_eq_some_iff.mp hret
      obtain ⟨r', hset, hr⟩ := Option.bind_eq_some_iff.mp hset
      obtain ⟨r'', hfind, hset⟩ := Option.bind_eq_some_iff.mp hset
      rw [h.findNode_of_empty hnil hfind] at hset
      obtain ⟨inserted, hins, hset⟩ := Option.bind_eq_some_iff.mp hset
      rw [h.insert_of_zero hzero hins] at hset
      obtain rfl := Option.some.inj hset
      obtain rfl := Option.some.inj hr
      obtain ⟨rfl, rfl⟩ := Prod.mk.inj heq
      exact ⟨rfl, .setFails (.refl _)⟩
  | find k =>
      obtain ⟨r, hf, heq⟩ := Option.map_eq_some_iff.mp hret
      obtain ⟨r', hfind, hr⟩ := Option.bind_eq_some_iff.mp hf
      rw [h.findNode_of_empty hnil hfind] at hr
      obtain rfl := Option.some.inj hr
      obtain ⟨rfl, rfl⟩ := Prod.mk.inj heq
      exact ⟨rfl, .findMiss (by simp)⟩
  | findBuf k buf len =>
      obtain ⟨r, hf, heq⟩ := Option.map_eq_some_iff.mp hret
      obtain ⟨r', hfind, hr⟩ := Option.bind_eq_some_iff.mp hf
      rw [h.findNode_of_empty hnil hfind] at hr
      obtain rfl := Option.some.inj hr
      obtain ⟨rfl, rfl⟩ := Prod.mk.inj heq
      exact ⟨rfl, .bufMiss (by simp)⟩
  | delete k =>
      obtain ⟨r, hf, heq⟩ := Option.map_eq_some_iff.mp hret
      obtain ⟨r', hfind, hr⟩ := Option.bind_eq_some_iff.mp hf
      rw [h.findNode_of_empty hnil hfind] at hr
      obtain rfl := Option.some.inj hr
      obtain ⟨rfl, rfl⟩ := Prod.mk.inj heq
      exact ⟨rfl, .deleteMiss (by simp)⟩
  | updateData n data len =>
      rw [HashMap.call, hvisit] at hret
      obtain ⟨rfl, rfl⟩ := Prod.mk.inj (Option.some.inj hret)
      exact ⟨rfl, .updateFails⟩
  | erase n =>
      rw [HashMap.call, hvisit] at hret
      obtain ⟨rfl, rfl⟩ := Prod.mk.inj (Option.some.inj hret)
      exact ⟨rfl, .eraseMiss⟩
  | getCount =>
      obtain ⟨rfl, rfl⟩ := Prod.mk.inj (Option.some.inj hret)
      have hcount : m.getCount = (([] : List (K × List UInt8)).length : ℤ) := by
        have hnum := h.nodes.usedNodeNum
        rw [hnil] at hnum
        exact hnum
      rw [hcount]
      exact ⟨rfl, .count⟩

/-! ## Runs -/

/-- One call that returns, with a length that is not negative. -/
def Calls (hash : K → ℕ) (m : HashMap K) (op : { op : Op K // op.NonNeg }) (out : Out)
    (m' : HashMap K) : Prop :=
  m.call hash op.1 = some (out, m')

/-- The pool stores the entries `es`.  A map with no bucket or with chunks of no size is
empty. -/
def Stores (hash : K → ℕ) (m : HashMap K) (es : List (K × List UInt8)) : Prop :=
  ∃ L, Holds hash m L ∧ m.entries L = es ∧
    (0 < m.bucketSize ∧ 0 < m.allocator.chunkSize ∨ L.add = [])

omit [DecidableEq K] in
theorem stores_openInit (pool : HashMap K) (nodeTotal bucketSize nChunks chunkSize : ℕ) :
    Stores hash (pool.openInit nodeTotal bucketSize nChunks chunkSize) [] :=
  ⟨_, holds_openInit pool nodeTotal bucketSize nChunks chunkSize, rfl, .inr rfl⟩

theorem Stores.call {es : List (K × List UInt8)} (h : Stores hash m es) {op : Op K}
    (hop : op.NonNeg) {out : Out} {m' : HashMap K} (hret : m.call hash op = some (out, m')) :
    ∃ es', Effect es op out es' ∧ Stores hash m' es' := by
  obtain ⟨L, h, rfl, hsizes⟩ := h
  by_cases hpos : 0 < m.bucketSize ∧ 0 < m.allocator.chunkSize
  · obtain ⟨out', m'', L', hcall, h', hsame, heffect⟩ := h.call hpos.1 hpos.2 op hop
    rw [hcall] at hret
    obtain ⟨rfl, rfl⟩ := Prod.mk.inj (Option.some.inj hret)
    refine ⟨_, heffect, L', h', rfl, .inl ?_⟩
    rw [hsame.bucketSize, hsame.chunkSize]
    exact hpos
  · have hnil : L.add = [] := hsizes.resolve_left hpos
    obtain ⟨rfl, heffect⟩ := h.call_of_zero hnil (by omega) hop hret
    have hes : m'.entries L = [] := by rw [entries, hnil]; rfl
    rw [hes]
    exact ⟨[], heffect, L, h, hes, .inr hnil⟩

/-- With buckets and chunks of some size, every call returns. -/
theorem Stores.call_returns {es : List (K × List UInt8)} (h : Stores hash m es)
    (hB : 0 < m.bucketSize) (hsize : 0 < m.allocator.chunkSize) {op : Op K} (hop : op.NonNeg) :
    ∃ out m', m.call hash op = some (out, m') ∧ SameSizes m m' := by
  obtain ⟨L, h, -, -⟩ := h
  obtain ⟨out, m', L', hcall, -, hsame, -⟩ := h.call hB hsize op hop
  exact ⟨out, m', hcall, hsame⟩

end HashMap
end Spp
