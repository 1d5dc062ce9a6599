import Spp.Ctrl.Procmon

/-!
# Heartbeats with any ids

The ids in a heartbeat are an `int` each, from another process.  `find_proc` and `add_proc` only
ask whether the group id is too large.  So the group and the bucket that they look at may have
a negative number: the table is written here as memory that has something at every index, and
an operation says which places it looked at.

## Main definitions

* `RawSrv`, `RawMsg`, `Access` — the table as memory, a message, and a place in the table.
* `RawSrv.findProc`, `RawSrv.addProc`, `RawSrv.recvMsg` — `do_recv` and what it calls.
* `Confined` — a message stays within the table, and one for no group changes nothing.
* `Embeds` — the table of a `MonSrv` within the memory.
-/

namespace Spp.Heartbeat

/-! ## The operations -/

/-- `TProcInfo` as it is in a message. -/
structure RawProcInfo where
  groupid : ℤ
  procid : ℤ
  timestamp : ℤ
  watermark : UInt32
  srate : UInt16
  delay : UInt16
  memused : UInt32

/-- `TProcObj`. -/
structure RawProcObj where
  procinfo : RawProcInfo
  status : ℕ
  notifytime : ℤ

/-- An element of `proc_groups_`, or what is taken for one. -/
structure RawGroup where
  bucket : ℤ → List RawProcObj
  curprocnum : ℤ

/-- A message, and the clock when it is handled. -/
structure RawMsg where
  srctype : ℤ
  procinfo : RawProcInfo
  now : ℤ

/-- `proc_groups_[groupid].bucket_[bucket]` and `proc_groups_[groupid].curprocnum_`. -/
inductive Access
  | bucket (groupid bucket : ℤ)
  | curprocnum (groupid : ℤ)

/-- `CTProcMonSrv`, as far as `do_recv` looks at it. -/
structure RawSrv where
  procGroups : ℤ → RawGroup
  curGroup : ℕ

namespace RawSrv

def setGroup (s : RawSrv) (groupid : ℤ) (g : RawGroup) : RawSrv :=
  { s with procGroups := Function.update s.procGroups groupid g }

@[simp] theorem setGroup_self (s : RawSrv) (i : ℤ) (g : RawGroup) :
    (s.setGroup i g).procGroups i = g := by simp [setGroup]

theorem setGroup_of_ne (s : RawSrv) {i k : ℤ} (g : RawGroup) (h : k ≠ i) :
    (s.setGroup i g).procGroups k = s.procGroups k := by simp [setGroup, h]

/-- `find_proc`; the remainder has the sign of `procid`. -/
def findProc (s : RawSrv) (groupid procid : ℤ) : Option RawProcObj × List Access :=
  if groupid ≥ s.curGroup then (none, [])
  else
    let bucket := procid.tmod BUCKET_SIZE
    (((s.procGroups groupid).bucket bucket).find? fun o => o.procinfo.procid = procid,
      [.bucket groupid bucket])

/-- `add_proc`. -/
def addProc (s : RawSrv) (groupid : ℤ) (procinfo : RawProcInfo) (now : ℤ) :
    RawSrv × List Access :=
  if groupid ≥ s.curGroup then (s, [])
  else
    let g := s.procGroups groupid
    let bucket := procinfo.procid.tmod BUCKET_SIZE
    (s.setGroup groupid
        ⟨Function.update g.bucket bucket (⟨procinfo, 0, now⟩ :: g.bucket bucket),
          g.curprocnum + 1⟩,
      [.bucket groupid bucket, .curprocnum groupid])

/-- `memcpy` over the process that `find_proc` returned. -/
def modProc (s : RawSrv) (groupid : ℤ) (procinfo : RawProcInfo) : RawSrv :=
  let g := s.procGroups groupid
  let bucket := procinfo.procid.tmod BUCKET_SIZE
  s.setGroup groupid
    { g with
      bucket := Function.update g.bucket bucket
        (Buckets.modifyFirst (fun o => o.procinfo.procid = procinfo.procid)
          (fun o => { o with procinfo }) (g.bucket bucket)) }

/-- What `do_recv` does with one message, and where it looks. -/
def recvMsg (s : RawSrv) (m : RawMsg) : RawSrv × List Access :=
  if m.srctype % 2 = 1 then
    let (proc, as) := s.findProc m.procinfo.groupid m.procinfo.procid
    match proc with
    | some _ => (s.modProc m.procinfo.groupid m.procinfo, as)
    | none =>
        let (s, as') := s.addProc m.procinfo.groupid m.procinfo m.now
        (s, as ++ as')
  else (s, [])

end RawSrv

/-! ## Staying within the table -/

/-- The place is one of the `curGroup` groups, and one of its buckets. -/
def Access.Within (curGroup : ℕ) : Access → Prop
  | .bucket groupid j => 0 ≤ groupid ∧ groupid < curGroup ∧ 0 ≤ j ∧ j < BUCKET_SIZE
  | .curprocnum groupid => 0 ≤ groupid ∧ groupid < curGroup

/-- `do_recv` looks for the message at places of the table only, and it changes nothing for a
message that names no group. -/
def Confined (s : RawSrv) (m : RawMsg) : Prop :=
  (∀ a ∈ (s.recvMsg m).2, a.Within s.curGroup) ∧
    (¬(0 ≤ m.procinfo.groupid ∧ m.procinfo.groupid < s.curGroup) → (s.recvMsg m).1 = s)

/-- The message is discarded, or its group id is too large, or its ids are not negative; of the
negative process ids, those divisible by `BUCKET_SIZE` do no harm. -/
def RawMsg.Plain (curGroup : ℕ) (m : RawMsg) : Prop :=
  m.srctype % 2 ≠ 1 ∨ m.procinfo.groupid ≥ curGroup ∨
    0 ≤ m.procinfo.groupid ∧ (0 ≤ m.procinfo.procid ∨ (BUCKET_SIZE : ℤ) ∣ m.procinfo.procid)

variable {s : RawSrv} {m : RawMsg}

theorem tmod_within_iff (procid : ℤ) :
    0 ≤ procid.tmod BUCKET_SIZE ∧ procid.tmod BUCKET_SIZE < BUCKET_SIZE ↔
      0 ≤ procid ∨ (BUCKET_SIZE : ℤ) ∣ procid := by
  rw [BUCKET_SIZE, Int.tmod_eq_emod]
  split <;> omega

/-- The places for a message of a client whose group id is not too large. -/
theorem recvMsg_accesses (hclient : m.srctype % 2 = 1) (hlt : ¬m.procinfo.groupid ≥ s.curGroup) :
    .bucket m.procinfo.groupid (m.procinfo.procid.tmod BUCKET_SIZE) ∈ (s.recvMsg m).2 ∧
      ∀ a ∈ (s.recvMsg m).2,
        a = .bucket m.procinfo.groupid (m.procinfo.procid.tmod BUCKET_SIZE) ∨
          a = .curprocnum m.procinfo.groupid := by
  rw [RawSrv.recvMsg, if_pos hclient, RawSrv.findProc, if_neg hlt]
  dsimp only
  split
  · simp
  · rw [RawSrv.addProc, if_neg hlt]
    simp

theorem recvMsg_of_ge (hge : m.procinfo.groupid ≥ s.curGroup) : s.recvMsg m = (s, []) := by
  simp [RawSrv.recvMsg, RawSrv.findProc, RawSrv.addProc, hge]

theorem confined_iff (s : RawSrv) (m : RawMsg) : Confined s m ↔ m.Plain s.curGroup := by
  rw [Confined, RawMsg.Plain]
  by_cases hclient : m.srctype % 2 = 1
  · by_cases hge : m.procinfo.groupid ≥ s.curGroup
    · simp [recvMsg_of_ge hge, hge]
    · obtain ⟨hbucket, hall⟩ := recvMsg_accesses hclient hge
      have hiff := tmod_within_iff m.procinfo.procid
      simp only [hclient, hge, ne_eq, not_true_eq_false, false_or]
      constructor
      · rintro ⟨hwithin, -⟩
        have hplace := hwithin _ hbucket
        exact ⟨hplace.1, hiff.mp hplace.2.2⟩
      · rintro ⟨hpos, hproc⟩
        refine ⟨?_, ?_⟩
        · intro a ha
          rcases hall a ha with rfl | rfl
          · exact ⟨hpos, by omega, hiff.mpr hproc⟩
          · exact ⟨hpos, by omega⟩
        · intro hnone
          exact absurd ⟨hpos, by omega⟩ hnone
  · simp [RawSrv.recvMsg, hclient]

@[simp] theorem curGroup_recvMsg (s : RawSrv) (m : RawMsg) :
    (s.recvMsg m).1.curGroup = s.curGroup := by
  rw [RawSrv.recvMsg]
  split
  · dsimp only
    split
    · rfl
    · rw [RawSrv.addProc]
      split <;> rfl
  · rfl

/-- **Every message that `do_recv` gets out of the queue stays within the table exactly if each
of them is discarded, has a group id that is too large, or has ids that are not negative**, up
to the process ids that are divisible by `BUCKET_SIZE`. -/
theorem always_confined_iff (s : RawSrv) (ms : List RawMsg) :
    Run.Always RawSrv.recvMsg Confined s ms ↔ ∀ m ∈ ms, m.Plain s.curGroup := by
  induction ms generalizing s with
  | nil => simp
  | cons m ms ih =>
      rw [Run.always_cons, confined_iff, ih, curGroup_recvMsg, List.forall_mem_cons]

/-- A table with one group and no processes. -/
def emptySrv : RawSrv := ⟨fun _ => ⟨fun _ => [], 0⟩, 1⟩

/-- The group id -1 is not too large, and neither is the process id -1. -/
theorem not_confined :
    ¬ Confined emptySrv ⟨3, ⟨-1, 7, 1000, 0, 100, 0, 0⟩, 1000⟩ ∧
      ¬ Confined emptySrv ⟨3, ⟨0, -1, 1000, 0, 100, 0, 0⟩, 1000⟩ := by
  constructor
  · rintro ⟨hwithin, -⟩
    exact absurd (hwithin (.curprocnum (-1)) (by simp [RawSrv.recvMsg, RawSrv.findProc,
      RawSrv.addProc, emptySrv])).1 (by decide)
  · rintro ⟨hwithin, -⟩
    exact absurd (hwithin (.bucket 0 (-1)) (by simp [RawSrv.recvMsg, RawSrv.findProc,
      RawSrv.addProc, emptySrv, BUCKET_SIZE])).2.2.1 (by decide)

end Spp.Heartbeat

/-! ## The table of the monitor -/

namespace Spp

open Heartbeat

/-- The ids as numbers with a sign. -/
def TProcInfo.raw (p : TProcInfo) : RawProcInfo :=
  ⟨p.groupid, p.procid, p.timestamp, p.watermark, p.srate, p.delay, p.memused⟩

def TProcObj.raw (o : TProcObj) : RawProcObj := ⟨o.procinfo.raw, o.status, o.notifytime⟩

def TProcMonMsg.raw (m : TProcMonMsg) : RawMsg := ⟨m.srctype, m.procinfo.raw, m.now⟩

namespace Heartbeat

/-- The table of the monitor is what the memory has at the indices of its groups and buckets. -/
structure Embeds (s : MonSrv) (r : RawSrv) : Prop where
  curGroup : r.curGroup = s.curGroup
  curprocnum : ∀ i < s.curGroup, (r.procGroups i).curprocnum = (s.procGroups i).curprocnum
  bucket : ∀ i < s.curGroup, ∀ j < BUCKET_SIZE,
    (r.procGroups i).bucket j = ((s.procGroups i).bucket j).map TProcObj.raw

variable {s : MonSrv} {r : RawSrv}

theorem procid_raw_iff (o : TProcObj) (procid : ℕ) :
    o.raw.procinfo.procid = procid ↔ o.procid = procid :=
  Int.ofNat_inj

theorem tmod_natCast (procid : ℕ) :
    (procid : ℤ).tmod BUCKET_SIZE = ((procid % BUCKET_SIZE : ℕ) : ℤ) :=
  rfl

theorem Embeds.findProc (h : Embeds s r) (groupid procid : ℕ) :
    (r.findProc groupid procid).1 = (s.findProc groupid procid).map TProcObj.raw := by
  rw [RawSrv.findProc, MonSrv.findProc, h.curGroup]
  by_cases hge : groupid ≥ s.curGroup
  · rw [if_pos hge, if_pos (by omega)]
    rfl
  · rw [if_neg hge, if_neg (by omega)]
    have hbucket := h.bucket groupid (by omega) (procid % BUCKET_SIZE) (Nat.mod_lt _ (by decide))
    have hkey : ((fun o : RawProcObj => decide (o.procinfo.procid = procid)) ∘ TProcObj.raw) =
        fun o => decide (o.procid = procid) := by
      funext o
      exact decide_eq_decide.mpr (procid_raw_iff o procid)
    simp only [tmod_natCast, hbucket, List.find?_map, hkey, Buckets.find?]

/-- One group changes on both sides. -/
theorem Embeds.setGroup (h : Embeds s r) {i : ℕ} {g : TProcGroupObj} {g' : RawGroup}
    (hcur : g'.curprocnum = g.curprocnum)
    (hbucket : ∀ j < BUCKET_SIZE, g'.bucket j = (g.bucket j).map TProcObj.raw) :
    Embeds (s.setGroup i g) (r.setGroup i g') where
  curGroup := h.curGroup
  curprocnum k hk := by
    by_cases hki : k = i
    · subst hki
      simpa using hcur
    · have hne : (k : ℤ) ≠ i := by omega
      rw [RawSrv.setGroup_of_ne r g' hne, MonSrv.setGroup_of_ne s g hki]
      exact h.curprocnum k hk
  bucket k hk := by
    by_cases hki : k = i
    · subst hki
      simpa using hbucket
    · have hne : (k : ℤ) ≠ i := by omega
      rw [RawSrv.setGroup_of_ne r g' hne, MonSrv.setGroup_of_ne s g hki]
      exact h.bucket k hk

/-- One bucket changes on both sides. -/
theorem bucket_update {b : ℕ → List TProcObj} {b' : ℤ → List RawProcObj}
    (h : ∀ j < BUCKET_SIZE, b' j = (b j).map TProcObj.raw) {l : List TProcObj} (i : ℕ) :
    ∀ j < BUCKET_SIZE, Function.update b' (i : ℤ) (l.map TProcObj.raw) j =
      (Function.update b i l j).map TProcObj.raw := by
  intro j hj
  by_cases hji : j = i
  · subst hji
    simp
  · have hne : (j : ℤ) ≠ i := by omega
    rw [Function.update_of_ne hne, Function.update_of_ne hji, h j hj]

theorem Embeds.addProc (h : Embeds s r) (procinfo : TProcInfo) (now : ℤ) :
    Embeds (s.addProc procinfo.groupid procinfo now)
      (r.addProc procinfo.raw.groupid procinfo.raw now).1 := by
  rw [RawSrv.addProc, MonSrv.addProc, h.curGroup]
  by_cases hge : procinfo.groupid ≥ s.curGroup
  · rw [if_pos hge, if_pos (by simpa [TProcInfo.raw] using hge)]
    exact h
  · rw [if_neg hge, if_neg (by simpa [TProcInfo.raw] using hge)]
    have hbucket := h.bucket procinfo.groupid (by omega)
    refine h.setGroup ?_ ?_
    · simp [TProcInfo.raw, h.curprocnum procinfo.groupid (by omega)]
    · have hhead := hbucket (procinfo.procid % BUCKET_SIZE) (Nat.mod_lt _ (by decide))
      have hnew := bucket_update hbucket (procinfo.procid % BUCKET_SIZE)
        (l := ⟨procinfo, 0, now⟩ ::
          (s.procGroups procinfo.groupid).bucket (procinfo.procid % BUCKET_SIZE))
      rw [List.map_cons, ← hhead] at hnew
      exact hnew

theorem Embeds.modProc (h : Embeds s r) {procinfo : TProcInfo}
    (hlt : procinfo.groupid < s.curGroup) :
    Embeds (s.modProc procinfo.groupid procinfo.procid fun o => { o with procinfo })
      (r.modProc procinfo.raw.groupid procinfo.raw) := by
  have hbucket := h.bucket procinfo.groupid hlt
  refine h.setGroup (h.curprocnum procinfo.groupid hlt) ?_
  have hlist := hbucket (procinfo.procid % BUCKET_SIZE) (Nat.mod_lt _ (by decide))
  have hkey : ∀ o : TProcObj, decide (o.raw.procinfo.procid = procinfo.raw.procid) =
      decide (o.procid = procinfo.procid) := by
    intro o
    exact decide_eq_decide.mpr (procid_raw_iff o procinfo.procid)
  have hmap := @Buckets.modifyFirst_map _ (fun o => { o with procinfo }) _ TProcObj.raw
    (fun o => o.procid = procinfo.procid) (fun o => o.procinfo.procid = procinfo.raw.procid)
    (fun o => { o with procinfo := procinfo.raw }) hkey (fun _ => rfl)
    ((s.procGroups procinfo.groupid).bucket (procinfo.procid % BUCKET_SIZE))
  have hnew := bucket_update hbucket (procinfo.procid % BUCKET_SIZE)
    (l := Buckets.modifyFirst (fun o => o.procid = procinfo.procid)
      (fun o => { o with procinfo })
      ((s.procGroups procinfo.groupid).bucket (procinfo.procid % BUCKET_SIZE)))
  rw [← hmap, ← hlist] at hnew
  exact hnew

/-- A message with ids that are not negative does to the memory what it does to the monitor. -/
theorem Embeds.recvMsg (h : Embeds s r) (m : TProcMonMsg) :
    Embeds (s.recvMsg m) (r.recvMsg m.raw).1 := by
  have hclient : m.raw.srctype % 2 = 1 ↔ m.srctype % 2 = 1 := by
    have hsrc : m.raw.srctype = m.srctype := rfl
    omega
  have hfind : (r.findProc m.raw.procinfo.groupid m.raw.procinfo.procid).1 =
      (s.findProc m.procinfo.groupid m.procinfo.procid).map TProcObj.raw := h.findProc _ _
  rw [MonSrv.recvMsg, RawSrv.recvMsg]
  by_cases hsrc : m.srctype % 2 = 1
  · rw [if_pos hsrc, if_pos (hclient.mpr hsrc)]
    dsimp only
    rw [hfind]
    cases hproc : s.findProc m.procinfo.groupid m.procinfo.procid with
    | none => exact h.addProc m.procinfo m.now
    | some o =>
        have hlt : m.procinfo.groupid < s.curGroup := by
          by_contra hge
          rw [MonSrv.findProc, if_pos (by omega)] at hproc
          exact absurd hproc (by simp)
        exact h.modProc hlt
  · rw [if_neg hsrc, if_neg (mt hclient.mp hsrc)]
    exact h

/-- What is in the queue is handled alike, message by message. -/
theorem Embeds.doRecv (h : Embeds s r) (ms : List TProcMonMsg) :
    Embeds (s.doRecv ms) (Run.final RawSrv.recvMsg r (ms.map TProcMonMsg.raw)) := by
  induction ms generalizing s r with
  | nil => exact h
  | cons m ms ih => exact ih (h.recvMsg m)

end Heartbeat

end Spp
