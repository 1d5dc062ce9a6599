import Spp.Hash.Reopen

/-!
# Attaching to a hash map that exists

`CShmHashMap::Init` opens or creates the semaphore and the segment of its keys, and then opens
the pool in the segment.  Whether the pool is made new is decided by a local variable that is
assigned on one of two paths only; its value on the other is a parameter here.

A system call that is given what it asks for succeeds: there is room for what is created, and
every process may use what exists.  No key is `IPC_PRIVATE`, and the sizes of a map are not
negative.

## Main definitions

* `Ipc` — the segments and semaphores of the system.
* `forceOpenAndAttach` — `CSVShm`.
* `Ipc.init` — `CShmHashMap::Init`.
* `HashMap.contents` — the keys with their values.
-/

namespace Spp

/-- A segment and the map in it. -/
structure Segment (K : Type) where
  size : ℕ
  pool : HashMap K

/-- The segments and the values of the semaphores, by their keys. -/
structure Ipc (K : Type) where
  segs : ℤ → Option (Segment K)
  sems : ℤ → Option ℕ

/-- `errno` after a call that fails. -/
inductive Errno
  | eexist
  | enoent
  | einval
  deriving DecidableEq

/-- A `THashInfo`. -/
structure HashInfo where
  bucketSize : ℕ
  nodeTotal : ℕ
  chunkTotal : ℕ
  chunkSize : ℕ
  shmKey : ℤ
  semKey : ℤ

/-- `get_total_pool_size`, for nodes of `nodeSize` bytes. -/
def HashInfo.totalPoolSize (info : HashInfo) (nodeSize : ℕ) : ℕ :=
  (40 + info.bucketSize * 8 + info.nodeTotal * nodeSize) +
    (20 + info.chunkTotal * (8 + info.chunkSize))

namespace Ipc

variable {K : Type}

/-! ## System calls -/

/-- `shmget`: with `create` the segment must be new.  A new one has the content `blank`. -/
def shmget (blank : HashMap K) (ipc : Ipc K) (key : ℤ) (sz : ℕ) (create : Bool) :
    Except Errno (Ipc K) :=
  match ipc.segs key with
  | some seg =>
      if create then .error .eexist else if seg.size < sz then .error .einval else .ok ipc
  | none =>
      if ¬create then .error .enoent
      else if sz = 0 then .error .einval
      else .ok { ipc with segs := Function.update ipc.segs key (some ⟨sz, blank⟩) }

/-- `shmctl` with `IPC_RMID`. -/
def shmRemove (ipc : Ipc K) (key : ℤ) : Ipc K :=
  { ipc with segs := Function.update ipc.segs key none }

/-- `semget` with `IPC_CREAT | IPC_EXCL`. -/
def semCreate (ipc : Ipc K) (key : ℤ) : Except Errno (Ipc K) :=
  match ipc.sems key with
  | some _ => .error .eexist
  | none => .ok { ipc with sems := Function.update ipc.sems key (some 0) }

/-- `semctl` with `SETALL` and 1. -/
def semSetAll (ipc : Ipc K) (key : ℤ) : Ipc K :=
  { ipc with sems := Function.update ipc.sems key (some 1) }

/-! ## The code -/

/-- `force_open_and_attach`: the returned code and `init`. -/
def forceOpenAndAttach (blank : HashMap K) (ipc : Ipc K) (key : ℤ) (sz : ℕ) : ℤ × ℤ × Ipc K :=
  match ipc.shmget blank key sz true with
  | .ok ipc => (0, 1, ipc)
  | .error err =>
      if err ≠ .eexist then (-1, 1, ipc)
      else
        match ipc.shmget blank key sz false with
        | .ok ipc => (0, 0, ipc)
        | .error _ =>
            -- the old segment may be too small
            match ipc.shmget blank key 0 false with
            | .error _ => (-1, 1, ipc)
            | .ok ipc =>
                let ipc := ipc.shmRemove key
                match ipc.shmget blank key sz true with
                | .error _ => (-1, 1, ipc)
                | .ok ipc => (0, 1, ipc)

/-- The semaphore of `Init`: opened, or created with the value 1. -/
def openSem (ipc : Ipc K) (key : ℤ) : Option (Ipc K) :=
  match ipc.semCreate key with
  | .ok ipc => some (ipc.semSetAll key)
  | .error .eexist => if (ipc.sems key).isSome then some ipc else none
  | .error _ => none

/-- `Init` under the lock: the returned code.  The variable `init` holds `garbage` until it is
assigned. -/
def initShm (blank : HashMap K) (ipc : Ipc K) (info : HashInfo) (nodeSize : ℕ) (garbage : ℤ) :
    Option (ℤ × Ipc K) :=
  let (ret, tmpInit, ipc) :=
    ipc.forceOpenAndAttach blank info.shmKey (info.totalPoolSize nodeSize)
  if ret < 0 then some (-1, ipc)
  else
    let init := if tmpInit ≠ 0 then tmpInit else garbage
    match ipc.segs info.shmKey with
    | none => some (-1, ipc)
    | some seg => do
        let (ret, pool) ← seg.pool.openMap (init ≠ 0) info.nodeTotal info.bucketSize
          info.chunkTotal info.chunkSize
        let ipc := { ipc with
          segs := Function.update ipc.segs info.shmKey (some { seg with pool := pool }) }
        if ret < 0 then some (-1, ipc) else some (0, ipc)

/-- `Init`. -/
def init (blank : HashMap K) (ipc : Ipc K) (info : HashInfo) (nodeSize : ℕ) (garbage : ℤ) :
    Option (ℤ × Ipc K) :=
  match ipc.openSem info.semKey with
  | none => some (-1, ipc)
  | some ipc => ipc.initShm blank info nodeSize garbage

end Ipc

namespace HashMap

variable {K : Type} {hash : K → ℕ} {m : HashMap K} {es : List (K × List UInt8)}

/-- The keys with their values. -/
def contents (hash : K → ℕ) (m : HashMap K) : Set (K × List UInt8) :=
  { p | ∃ es, Stores hash m es ∧ p ∈ es }

/-- The count of a map is the length of what it stores. -/
theorem Stores.usedNodeNum (h : Stores hash m es) : m.usedNodeNum = es.length := by
  cases h with
  | intro L h =>
      rw [h.1.nodes.usedNodeNum, ← h.2.1, entries, List.length_map]

/-- A map without a key has the count 0. -/
theorem Stores.contents_eq_empty_iff (h : Stores hash m es) :
    contents hash m = ∅ ↔ m.usedNodeNum = 0 := by
  constructor
  · intro hempty
    rw [h.usedNodeNum]
    cases es with
    | nil => rfl
    | cons p es =>
        have hp : p ∈ contents hash m := ⟨_, h, List.mem_cons_self⟩
        rw [hempty] at hp
        exact absurd hp (Set.notMem_empty p)
  · intro hzero
    apply Set.eq_empty_of_forall_notMem
    intro p hp
    cases hp with
    | intro es' hp =>
        have hlen := hp.1.usedNodeNum
        rw [hzero] at hlen
        have hnil : es' = [] := List.length_eq_zero_iff.mp (by omega)
        rw [hnil] at hp
        exact absurd hp.2 List.not_mem_nil

theorem contents_openInit (hash : K → ℕ) (pool : HashMap K) (nodeTotal bucketSize nChunks chunkSize : ℕ) :
    contents hash (pool.openInit nodeTotal bucketSize nChunks chunkSize) = ∅ := by
  have h : Stores hash (pool.openInit nodeTotal bucketSize nChunks chunkSize) [] :=
    stores_openInit pool nodeTotal bucketSize nChunks chunkSize
  exact h.contents_eq_empty_iff.mpr h.usedNodeNum

end HashMap

namespace Ipc

open HashMap

variable {K : Type} {blank : HashMap K} {ipc : Ipc K} {info : HashInfo} {nodeSize : ℕ}
  {seg : Segment K} {garbage : ℤ}

/-! ## Attaching -/

/-- A segment that exists and is large enough is opened as it is. -/
theorem forceOpenAndAttach_of_exists {key : ℤ} {sz : ℕ} (hseg : ipc.segs key = some seg)
    (hsize : sz ≤ seg.size) : ipc.forceOpenAndAttach blank key sz = (0, 0, ipc) := by
  have hcreate : ipc.shmget blank key sz true = .error .eexist := by
    simp [shmget, hseg]
  have hopen : ipc.shmget blank key sz false = .ok ipc := by
    simp [shmget, hseg, Nat.not_lt.mpr hsize]
  simp [forceOpenAndAttach, hcreate, hopen]

/-- The semaphore is there afterwards, and no segment is touched. -/
theorem openSem_segs (ipc : Ipc K) (key : ℤ) :
    ∃ ipc', ipc.openSem key = some ipc' ∧ ipc'.segs = ipc.segs := by
  cases hsem : ipc.sems key with
  | none =>
      refine ⟨({ ipc with sems := Function.update ipc.sems key (some 0) } : Ipc K).semSetAll key,
        ?_, rfl⟩
      simp [openSem, semCreate, hsem]
  | some v => exact ⟨ipc, by simp [openSem, semCreate, hsem], rfl⟩

/-- On a segment that exists, `Init` opens the pool with what is in the variable. -/
theorem init_of_exists (blank : HashMap K) (hseg : ipc.segs info.shmKey = some seg)
    (hsize : info.totalPoolSize nodeSize ≤ seg.size) {pool : HashMap K}
    (hopen : seg.pool.openMap (garbage ≠ 0) info.nodeTotal info.bucketSize info.chunkTotal
      info.chunkSize = some (0, pool)) :
    ∃ ipc', ipc.init blank info nodeSize garbage = some (0, ipc') ∧
      ipc'.segs info.shmKey = some { seg with pool := pool } := by
  obtain ⟨ipc₁, hsem, hsegs⟩ := openSem_segs ipc info.semKey
  rw [← hsegs] at hseg
  have hforce : ipc₁.forceOpenAndAttach blank info.shmKey (info.totalPoolSize nodeSize) =
      (0, 0, ipc₁) := forceOpenAndAttach_of_exists hseg hsize
  refine ⟨{ ipc₁ with
    segs := Function.update ipc₁.segs info.shmKey (some { seg with pool := pool }) }, ?_, ?_⟩
  · simp only [ne_eq, decide_not] at hopen
    simp [init, initShm, hsem, hforce, hseg, hopen]
  · simp

variable [DecidableEq K] {hash : K → ℕ} {pool : HashMap K}
  {tr : List ({ op : Op K // op.NonNeg } × Out)}

/-- `Init` returns 0 and keeps every key with its value. -/
def Attaches (hash : K → ℕ) (blank : HashMap K) (ipc : Ipc K) (info : HashInfo) (nodeSize : ℕ)
    (garbage : ℤ) (seg : Segment K) : Prop :=
  ∃ ipc' seg', ipc.init blank info nodeSize garbage = some (0, ipc') ∧
    ipc'.segs info.shmKey = some seg' ∧ contents hash seg'.pool = contents hash seg.pool

/-- With the variable at 0 the pool is verified, and kept. -/
theorem attaches_zero (blank : HashMap K)
    (hrun : Run.Allows (Calls hash)
      (pool.openInit info.nodeTotal info.bucketSize info.chunkTotal info.chunkSize) tr seg.pool)
    (hseg : ipc.segs info.shmKey = some seg) (hsize : info.totalPoolSize nodeSize ≤ seg.size) :
    Attaches hash blank ipc info nodeSize 0 seg := by
  have hopen : seg.pool.openMap ((0 : ℤ) ≠ 0) info.nodeTotal info.bucketSize info.chunkTotal
      info.chunkSize = some (0, seg.pool) := by
    simpa using openMap_of_run hrun
  obtain ⟨ipc', hinit, hsegs⟩ := init_of_exists blank hseg hsize hopen
  exact ⟨ipc', seg, hinit, hsegs, rfl⟩

omit [DecidableEq K] in
/-- With any other value the pool is made new, whatever it holds. -/
theorem attaches_of_ne (hne : garbage ≠ 0) (hseg : ipc.segs info.shmKey = some seg)
    (hsize : info.totalPoolSize nodeSize ≤ seg.size) :
    Attaches hash blank ipc info nodeSize garbage seg ↔ contents hash seg.pool = ∅ := by
  have hopen : seg.pool.openMap (garbage ≠ 0) info.nodeTotal info.bucketSize info.chunkTotal
      info.chunkSize = some (0, seg.pool.openInit info.nodeTotal info.bucketSize
        info.chunkTotal info.chunkSize) := by
    simp [HashMap.openMap, hne]
  obtain ⟨ipc', hinit, hsegs⟩ := init_of_exists blank hseg hsize hopen
  have hempty := contents_openInit hash seg.pool info.nodeTotal info.bucketSize
    info.chunkTotal info.chunkSize
  constructor
  · intro h
    obtain ⟨ipc₂, seg₂, hinit₂, hsegs₂, hsame⟩ := h
    rw [hinit₂, Option.some.injEq, Prod.mk.injEq] at hinit
    rw [hinit.2, hsegs, Option.some.injEq] at hsegs₂
    rw [← hsame, ← hsegs₂]
    exact hempty
  · intro h
    refine ⟨ipc', _, hinit, hsegs, ?_⟩
    rw [h]
    exact hempty

/-- Attaching keeps the map if and only if the variable happens to be 0 or there is nothing to
lose. -/
theorem attaches_iff (blank : HashMap K) (ipc : Ipc K) (info : HashInfo) (nodeSize : ℕ)
    (garbage : ℤ)
    (hrun : Run.Allows (Calls hash)
      (pool.openInit info.nodeTotal info.bucketSize info.chunkTotal info.chunkSize) tr seg.pool)
    (hseg : ipc.segs info.shmKey = some seg) (hsize : info.totalPoolSize nodeSize ≤ seg.size) :
    Attaches hash blank ipc info nodeSize garbage seg ↔
      garbage = 0 ∨ contents hash seg.pool = ∅ := by
  by_cases hzero : garbage = 0
  · rw [hzero]
    simp [attaches_zero blank hrun hseg hsize]
  · rw [attaches_of_ne hzero hseg hsize]
    simp [hzero]

/-! ## One key -/

/-- A map with one bucket, one node and one chunk of 8 bytes. -/
def oneKey : HashInfo := ⟨1, 1, 1, 8, 100, 200⟩

/-- The system after the segment of `oneKey` has been created. -/
def oneSegment (m : HashMap ℕ) : Ipc ℕ :=
  ⟨fun key => if key = 100 then some ⟨156, m⟩ else none,
    fun key => if key = 200 then some 1 else none⟩

/-- A new map is kept where the variable is 0. -/
theorem attaches_new :
    Attaches id default (oneSegment (openInit default 1 1 1 8)) oneKey 64 0
      ⟨156, openInit default 1 1 1 8⟩ :=
  (attaches_iff default _ oneKey 64 0 (.nil _) rfl (by decide)).mpr (.inl rfl)

/-- After an insert, another process that attaches with the variable at 1 loses the key. -/
theorem not_attaches :
    ∃ tr m, Run.Allows (Calls id) (openInit (default : HashMap ℕ) 1 1 1 8) tr m ∧
      ¬Attaches id default (oneSegment m) oneKey 64 1 ⟨156, m⟩ := by
  have hcount : ((openInit (default : HashMap ℕ) 1 1 1 8).call id
      (.insert 7 (fun _ => 65) 3)).map (fun r => r.2.usedNodeNum) = some 1 := by
    decide +kernel
  obtain ⟨⟨out, m⟩, hcall, hnum⟩ := Option.map_eq_some_iff.mp hcount
  have hrun : Run.Allows (Calls id) (openInit (default : HashMap ℕ) 1 1 1 8)
      [(⟨.insert 7 (fun _ => 65) 3, Int.natCast_nonneg 3⟩, out)] m := .cons hcall (.nil m)
  obtain ⟨⟨es, hes⟩, -⟩ := stores_of_run hrun
  refine ⟨_, m, hrun, fun h => ?_⟩
  have hsome : contents id m ≠ ∅ := by
    intro hempty
    have hzero := hes.contents_eq_empty_iff.mp hempty
    simp only at hnum
    omega
  have hsize : oneKey.totalPoolSize 64 ≤ 156 := by decide
  exact hsome ((attaches_of_ne (by decide) rfl hsize).mp h)

end Ipc

end Spp
