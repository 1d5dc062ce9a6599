import Spp.Lib.Buckets
import Spp.Lib.Run
import Spp.Lib.Word

/-!
# The process monitor

The controller keeps a table of the processes of every group.  Heartbeats register processes
and refresh them, and a check pass trims groups that are too large, takes out processes that are
dead, and asks for new ones.

## Main definitions

* `TGroupInfo`, `TProcInfo`, `TProcObj`, `TProcGroupObj`, `MonSrv` — the table.
* `MonSrv.doRecv`, `MonSrv.checkGroup`, `MonSrv.checkProc`, `MonSrv.doEvent` — the operations.
* `Pass`, `Pass.step` — `do_check`, one turn of its loops at a time.
* `MonSrv.Registry` — every process is registered once, in its place, and counted.
-/

namespace Spp

/-- `TGroupInfo`.  The controller asserts `le` of what it reads from the configuration. -/
structure TGroupInfo where
  groupid : ℕ
  adjustProcTime : ℤ
  exitsignal : ℤ
  maxprocnum : UInt32
  minprocnum : UInt32
  heartbeat : UInt32
  maxwatermark : UInt32
  minsrate : UInt16
  maxdelay : UInt16
  maxmemused : UInt32
  le : minprocnum ≤ maxprocnum

/-- `TProcInfo`; group and process ids are not negative, and a process id is an `int`. -/
structure TProcInfo where
  groupid : ℕ
  procid : ℕ
  timestamp : ℤ
  watermark : UInt32
  srate : UInt16
  delay : UInt16
  memused : UInt32
  procid_lt : procid < 2 ^ 31

/-- `TProcObj`, a registered process. -/
structure TProcObj where
  procinfo : TProcInfo
  status : ℕ
  notifytime : ℤ

/-- `TProcGroupObj`. -/
structure TProcGroupObj where
  groupinfo : TGroupInfo
  bucket : ℕ → List TProcObj
  curprocnum : ℤ
  errprocnum : ℤ
  lastCheckGroupTime : ℤ

/-- A message that `recv` gives, and the clock when it is handled. -/
structure TProcMonMsg where
  srctype : ℕ
  procinfo : TProcInfo
  now : ℤ

/-- The events of a process, the bits of an `int` in the source. -/
structure ProcEvent where
  procdead : Bool
  overload : Bool
  lowsrate : Bool
  latency : Bool
  otfmem : Bool

/-- What the monitor does.  `del` stands for a process that leaves the table. -/
inductive Effect
  | fork (groupid : ℕ) (maxProcnum : UInt32) (num : ℤ)
  | kill (procid : ℕ) (signo : ℤ)
  | order (groupid procid eventno : ℕ) (arg : UInt32)
  | notify (groupid : ℕ) (procid : Option ℕ)
  | del (groupid procid : ℕ)

def BUCKET_SIZE : ℕ := 10
def MAX_PROC_GROUP_NUM : ℕ := 128
def GROUP_UNUSED : ℤ := -1
def ADJUST_PROC_DELAY : ℤ := 120
def MIN_NOTIFY_TIME_CYCLE : ℤ := 30
def SIGUSR1 : ℤ := 10

/-- The key of a registered process. -/
def TProcObj.procid (o : TProcObj) : ℕ := o.procinfo.procid

/-- `CTProcMonSrv`, and what it did so far. -/
structure MonSrv where
  checkGroupInterval : UInt32
  procGroups : ℕ → TProcGroupObj
  curGroup : ℕ
  notify : Bool
  effects : List Effect

/-- What the system answers in one turn of a check: three readings of the clock, whether
`/proc/<pid>` is missing, and the messages that each `do_recv` finds. -/
structure PassAnswer where
  now : ℤ
  again : ℤ
  adjust : ℤ
  gone : Bool
  drained : List (List TProcMonMsg)

/-- The load is above the watermark. -/
def TProcInfo.overloaded (proc : TProcInfo) (group : TGroupInfo) : Bool :=
  group.maxwatermark ≠ 0 ∧ proc.watermark > group.maxwatermark

/-- The clock minus the heartbeat is computed without a sign. -/
def TProcInfo.heartbeatMissed (proc : TProcInfo) (group : TGroupInfo) (now : ℤ) : Bool :=
  proc.timestamp < (now - group.heartbeat.toNat) % 2 ^ 32

/-- The events that `check_proc` finds. -/
def TProcInfo.event (proc : TProcInfo) (group : TGroupInfo) (a : PassAnswer) : ProcEvent where
  procdead := proc.heartbeatMissed group a.now && a.gone
  overload := proc.overloaded group
  lowsrate := group.minsrate ≠ 0 ∧ proc.srate < group.minsrate
  latency := group.maxdelay ≠ 0 ∧ proc.delay > group.maxdelay
  otfmem := group.maxmemused ≠ 0 ∧ proc.memused > group.maxmemused

def ProcEvent.any (e : ProcEvent) : Bool :=
  e.procdead || e.overload || e.lowsrate || e.latency || e.otfmem

namespace MonSrv

/-! ## The table -/

def emit (s : MonSrv) (e : Effect) : MonSrv := { s with effects := s.effects ++ [e] }

def setGroup (s : MonSrv) (groupid : ℕ) (g : TProcGroupObj) : MonSrv :=
  { s with procGroups := Function.update s.procGroups groupid g }

/-- `add_group`; where its assertion fails there is no monitor. -/
def addGroup (s : MonSrv) (groupinfo : TGroupInfo) : MonSrv :=
  if s.curGroup < MAX_PROC_GROUP_NUM ∧ s.curGroup = groupinfo.groupid then
    { s.setGroup s.curGroup ⟨groupinfo, fun _ => [], 0, 0, 0⟩ with curGroup := s.curGroup + 1 }
  else s

/-- `mod_group`. -/
def modGroup (s : MonSrv) (groupid : ℕ) (groupinfo : TGroupInfo) : MonSrv :=
  if groupid < s.curGroup ∧ groupid = groupinfo.groupid then
    s.setGroup groupid { s.procGroups groupid with groupinfo := groupinfo }
  else s

/-- `find_proc`. -/
def findProc (s : MonSrv) (groupid procid : ℕ) : Option TProcObj :=
  if groupid ≥ s.curGroup then none
  else Buckets.find? TProcObj.procid BUCKET_SIZE (s.procGroups groupid).bucket procid

/-- `add_proc`. -/
def addProc (s : MonSrv) (groupid : ℕ) (procinfo : TProcInfo) (now : ℤ) : MonSrv :=
  if groupid ≥ s.curGroup then s
  else
    let g := s.procGroups groupid
    s.setGroup groupid
      { g with
        bucket := Buckets.insert TProcObj.procid BUCKET_SIZE g.bucket ⟨procinfo, 0, now⟩
        curprocnum := g.curprocnum + 1 }

/-- `del_proc`. -/
def delProc (s : MonSrv) (groupid procid : ℕ) : MonSrv :=
  if groupid ≥ s.curGroup then s
  else
    let g := s.procGroups groupid
    (s.setGroup groupid
      { g with
        bucket := Buckets.erase TProcObj.procid BUCKET_SIZE g.bucket procid
        curprocnum := g.curprocnum - 1 }).emit (.del groupid procid)

/-- A write through the pointer to a registered process. -/
def modProc (s : MonSrv) (groupid procid : ℕ) (f : TProcObj → TProcObj) : MonSrv :=
  let g := s.procGroups groupid
  s.setGroup groupid
    { g with bucket := Buckets.modify TProcObj.procid BUCKET_SIZE g.bucket procid f }

/-- What `do_recv` does with one message. -/
def recvMsg (s : MonSrv) (m : TProcMonMsg) : MonSrv :=
  if m.srctype % 2 = 1 then
    match s.findProc m.procinfo.groupid m.procinfo.procid with
    | some _ => s.modProc m.procinfo.groupid m.procinfo.procid fun o =>
        { o with procinfo := m.procinfo }
    | none => s.addProc m.procinfo.groupid m.procinfo m.now
  else s

/-- `do_recv`, with the messages that it finds. -/
def doRecv (s : MonSrv) : List TProcMonMsg → MonSrv
  | [] => s
  | m :: ms => (s.recvMsg m).doRecv ms

/-- `do_fork` for a group. -/
def doFork (s : MonSrv) (groupinfo : TGroupInfo) (num : ℤ) : MonSrv :=
  s.emit (.fork groupinfo.groupid groupinfo.maxprocnum num)

/-! ## Group events -/

/-- `check_groupbusy`. -/
def checkGroupbusy (s : MonSrv) (groupid : ℕ) : Bool :=
  let g := s.procGroups groupid
  (List.range BUCKET_SIZE).any fun j =>
    (g.bucket j).any fun o => o.procinfo.overloaded g.groupinfo

def setAdjust (s : MonSrv) (groupid : ℕ) (now : ℤ) : MonSrv :=
  let g := s.procGroups groupid
  s.setGroup groupid { g with groupinfo := { g.groupinfo with adjustProcTime := now } }

def setLastCheck (s : MonSrv) (groupid : ℕ) (now : ℤ) : MonSrv :=
  s.setGroup groupid { s.procGroups groupid with lastCheckGroupTime := now }

/-- The part of `do_event` for `PROCMON_EVENT_PROCDOWN`. -/
def procdown (s : MonSrv) (i : ℕ) (diff now : ℤ) : MonSrv :=
  (s.doFork (s.procGroups i).groupinfo diff).setAdjust i now

/-- The loop of `do_event` for `PROCMON_EVENT_PROCUP`: `k` buckets are left and `left` processes
are still to be killed. -/
def procupLoop (i : ℕ) : ℕ → ℕ → List (List TProcMonMsg) → MonSrv → MonSrv
  | 0, _, _, s => s
  | k + 1, left, drained, s =>
      let g := s.procGroups i
      match g.bucket (BUCKET_SIZE - (k + 1)) with
      | [] => if left = 0 then s else procupLoop i k left drained s
      | o :: _ =>
          let s := s.emit (.kill o.procid SIGUSR1)
          let s := s.doRecv (drained.headD [])
          let s := s.delProc g.groupinfo.groupid o.procid
          if left - 1 = 0 then s else procupLoop i (k + 1) (left - 1) drained.tail s
termination_by k left => k + left

/-- The part of `do_event` for `PROCMON_EVENT_PROCUP`. -/
def procup (s : MonSrv) (i : ℕ) (diff : ℤ) (drained : List (List TProcMonMsg)) (now : ℤ) :
    MonSrv :=
  (procupLoop i BUCKET_SIZE diff.toNat drained s).setAdjust i now

/-- `notify_` for a group. -/
def notifyGroup (s : MonSrv) (i : ℕ) : MonSrv :=
  if s.notify then s.emit (.notify (s.procGroups i).groupinfo.groupid none) else s

/-- `(int)minprocnum_ - curprocnum`; the built code takes the difference as an `int`. -/
def diffMin (s : MonSrv) (i : ℕ) : ℤ :=
  let g := s.procGroups i
  s32 (s32 g.groupinfo.minprocnum.toNat - g.curprocnum)

/-- `curprocnum - (int)maxprocnum_`. -/
def diffMax (s : MonSrv) (i : ℕ) : ℤ :=
  let g := s.procGroups i
  s32 (g.curprocnum - s32 g.groupinfo.maxprocnum.toNat)

/-- `check_group` for group `i`. -/
def checkGroup (s : MonSrv) (i : ℕ) (a : PassAnswer) : MonSrv :=
  let g := s.procGroups i
  if s.diffMin i > 0 then (s.notifyGroup i).procdown i (s.diffMin i) a.adjust
  else if s.diffMax i > 0 then (s.notifyGroup i).procup i (s.diffMax i) a.drained a.adjust
  else if s32 g.groupinfo.minprocnum.toNat < g.curprocnum ∧
      g.groupinfo.adjustProcTime + ADJUST_PROC_DELAY < a.again ∧
        ¬ s.checkGroupbusy g.groupinfo.groupid then
    (s.notifyGroup i).procup i 1 a.drained a.adjust
  else s

/-- `check_group` decides on `PROCMON_EVENT_PROCUP`. -/
def Procup (s : MonSrv) (i : ℕ) (a : PassAnswer) : Prop :=
  let g := s.procGroups i
  ¬s.diffMin i > 0 ∧
    (s.diffMax i > 0 ∨
      s32 g.groupinfo.minprocnum.toNat < g.curprocnum ∧
        g.groupinfo.adjustProcTime + ADJUST_PROC_DELAY < a.again ∧
          ¬ s.checkGroupbusy g.groupinfo.groupid)

instance (s : MonSrv) (i : ℕ) (a : PassAnswer) : Decidable (s.Procup i a) :=
  inferInstanceAs (Decidable (_ ∧ _))

/-- `procdiff` for `PROCMON_EVENT_PROCUP`. -/
def surplus (s : MonSrv) (i : ℕ) : ℤ := if s.diffMax i > 0 then s.diffMax i else 1

/-- What the decision of `check_group` comes to for the number of processes. -/
def change (s : MonSrv) (i : ℕ) (a : PassAnswer) : ℤ :=
  if s.diffMin i > 0 then s.diffMin i else if s.Procup i a then -s.surplus i else 0

/-! ## Process events -/

/-- A status bit is set and the process gets an order. -/
def order (s : MonSrv) (proc : TProcInfo) (event status : ℕ) : MonSrv :=
  (s.modProc proc.groupid proc.procid fun o => { o with status := o.status ||| status }).emit
    (.order proc.groupid proc.procid event (s.procGroups proc.groupid).groupinfo.maxwatermark)

/-- The part of `do_event` for `PROCMON_EVENT_PROCDEAD`. -/
def procdead (s : MonSrv) (proc : TProcInfo) (drained : List TProcMonMsg) : MonSrv :=
  let s := s.emit (.kill proc.procid (s.procGroups proc.groupid).groupinfo.exitsignal)
  let s := s.doRecv drained
  let s := s.delProc proc.groupid proc.procid
  let s := s.doFork (s.procGroups proc.groupid).groupinfo 1
  let g := s.procGroups proc.groupid
  s.setGroup proc.groupid { g with errprocnum := g.errprocnum + 1 }

/-- `curprocnum_ < (int)maxprocnum_`: the group can be given another process. -/
def Open (s : MonSrv) (i : ℕ) : Prop :=
  (s.procGroups i).curprocnum < s32 (s.procGroups i).groupinfo.maxprocnum.toNat

instance (s : MonSrv) (i : ℕ) : Decidable (s.Open i) :=
  inferInstanceAs (Decidable (_ < _))

/-- The part of `do_event` for `PROCMON_EVENT_OVERLOAD`. -/
def overload (s : MonSrv) (proc : TProcInfo) (now : ℤ) : MonSrv :=
  let s := s.order proc 2 1
  if s.Open proc.groupid then
    (s.doFork (s.procGroups proc.groupid).groupinfo 1).setAdjust proc.groupid now
  else s

/-- `do_event` for a process; the result says whether the table has changed. -/
def doEvent (s : MonSrv) (e : ProcEvent) (proc : TProcInfo) (a : PassAnswer) : Bool × MonSrv :=
  let s := s.modProc proc.groupid proc.procid fun o => { o with status := 0 }
  if e.procdead then (true, s.procdead proc (a.drained.headD []))
  else
    let s := if e.overload then s.overload proc a.adjust else s
    let s := if e.lowsrate then s.order proc 4 2 else s
    let s := if e.latency then s.order proc 8 4 else s
    let s := if e.otfmem then s.order proc 16 8 else s
    (false, s)

/-- `notify_` for a process, at most once in 30 seconds. -/
def notifyProc (s : MonSrv) (i : ℕ) (o : TProcObj) (t : ℤ) : MonSrv :=
  if s.notify ∧ o.notifytime + MIN_NOTIFY_TIME_CYCLE < t then
    (s.emit (.notify (s.procGroups i).groupinfo.groupid (some o.procid))).modProc i o.procid
      fun o => { o with notifytime := t }
  else s

/-- `check_proc` for a process of group `i`. -/
def checkProc (s : MonSrv) (i : ℕ) (o : TProcObj) (a : PassAnswer) : Bool × MonSrv :=
  let e := o.procinfo.event (s.procGroups i).groupinfo a
  let s := s.modProc i o.procid fun o => { o with status := 0 }
  if e.any then (s.notifyProc i o a.again).doEvent e o.procinfo a else (false, s)

end MonSrv

/-! ## A check pass -/

/-- Where `do_check` is: at group `i`, and when that is checked, at the processes `todo` of
bucket `j`. -/
structure Pass where
  srv : MonSrv
  i : ℕ
  checked : Bool
  j : ℕ
  todo : List TProcObj

namespace Pass

def start (s : MonSrv) : Pass := ⟨{ s with effects := [] }, 0, false, 0, []⟩

/-- The group was never checked, or long enough ago; the clock is an `unsigned int`. -/
def Elapsed (p : Pass) (a : PassAnswer) : Prop :=
  let g := p.srv.procGroups p.i
  g.lastCheckGroupTime = 0 ∨
    a.now % 2 ^ 32 ≥ (g.lastCheckGroupTime + p.srv.checkGroupInterval.toNat) % 2 ^ 32

instance (p : Pass) (a : PassAnswer) : Decidable (p.Elapsed a) :=
  inferInstanceAs (Decidable (_ ∨ _))

/-- The part of the loop before the buckets. -/
def enter (p : Pass) (a : PassAnswer) : MonSrv :=
  if p.Elapsed a then (p.srv.checkGroup p.i a).setLastCheck p.i (s32 (a.now % 2 ^ 32))
  else p.srv

/-- One turn of the loops of `do_check`. -/
def step (p : Pass) (a : PassAnswer) : Pass :=
  if p.i ≥ p.srv.curGroup then p
  else if ¬ p.checked then
    if (p.srv.procGroups p.i).curprocnum = GROUP_UNUSED then { p with i := p.i + 1 }
    else
      let s := p.enter a
      { p with srv := s, checked := true, j := 0, todo := (s.procGroups p.i).bucket 0 }
  else
    match p.todo with
    | [] =>
        if p.j + 1 < BUCKET_SIZE then
          { p with j := p.j + 1, todo := (p.srv.procGroups p.i).bucket (p.j + 1) }
        else { p with i := p.i + 1, checked := false }
    | o :: todo =>
        match p.srv.checkProc p.i o a with
        -- a process is gone: the bucket is walked again from its head
        | (true, s) => { p with srv := s, todo := (s.procGroups p.i).bucket p.j }
        | (false, s) => { p with srv := s, todo := todo }

end Pass

/-! ## The invariant -/

/-- The table of group `i`: every process is in its place, there once, and counted. -/
structure TProcGroupObj.Ok (i : ℕ) (g : TProcGroupObj) : Prop where
  groupid : g.groupinfo.groupid = i
  buckets : Buckets.Ok TProcObj.procid BUCKET_SIZE g.bucket
  group : ∀ j, ∀ o ∈ g.bucket j, o.procinfo.groupid = i
  count : g.curprocnum = Buckets.total BUCKET_SIZE g.bucket

/-- The processes that an effect asks for, for group `k`. -/
def Effect.asked (k : ℕ) : Effect → ℕ
  | .fork groupid _ num => if groupid = k then num.toNat else 0
  | _ => 0

/-- The processes that an effect takes out of group `k`. -/
def Effect.removed (k : ℕ) : Effect → ℕ
  | .del groupid _ => if groupid = k then 1 else 0
  | _ => 0

namespace MonSrv

/-- The table of every group that is configured is in order. -/
def Ok (s : MonSrv) : Prop := ∀ i < s.curGroup, (s.procGroups i).Ok i

def Registered (s : MonSrv) (groupid procid : ℕ) : Prop :=
  procid ∈ ((s.procGroups groupid).bucket (procid % BUCKET_SIZE)).map TProcObj.procid

def asked (s : MonSrv) (k : ℕ) : ℕ := (s.effects.map (Effect.asked k)).sum

def removed (s : MonSrv) (k : ℕ) : ℕ := (s.effects.map (Effect.removed k)).sum

@[simp] theorem asked_emit (s : MonSrv) (e : Effect) (k : ℕ) :
    (s.emit e).asked k = s.asked k + e.asked k := by simp [asked, emit]

@[simp] theorem removed_emit (s : MonSrv) (e : Effect) (k : ℕ) :
    (s.emit e).removed k = s.removed k + e.removed k := by simp [removed, emit]

@[simp] theorem asked_setGroup (s : MonSrv) (i : ℕ) (g : TProcGroupObj) (k : ℕ) :
    (s.setGroup i g).asked k = s.asked k := rfl

@[simp] theorem removed_setGroup (s : MonSrv) (i : ℕ) (g : TProcGroupObj) (k : ℕ) :
    (s.setGroup i g).removed k = s.removed k := rfl

variable {s : MonSrv} {i groupid procid : ℕ} {g : TProcGroupObj} {f : TProcObj → TProcObj}

@[simp] theorem emit_procGroups (s : MonSrv) (e : Effect) : (s.emit e).procGroups = s.procGroups :=
  rfl

@[simp] theorem emit_curGroup (s : MonSrv) (e : Effect) : (s.emit e).curGroup = s.curGroup := rfl

@[simp] theorem setGroup_curGroup (s : MonSrv) (i : ℕ) (g : TProcGroupObj) :
    (s.setGroup i g).curGroup = s.curGroup := rfl

@[simp] theorem setGroup_effects (s : MonSrv) (i : ℕ) (g : TProcGroupObj) :
    (s.setGroup i g).effects = s.effects := rfl

@[simp] theorem setGroup_self (s : MonSrv) (i : ℕ) (g : TProcGroupObj) :
    (s.setGroup i g).procGroups i = g := by simp [setGroup]

theorem setGroup_of_ne (s : MonSrv) (g : TProcGroupObj) {k : ℕ} (h : k ≠ i) :
    (s.setGroup i g).procGroups k = s.procGroups k := by simp [setGroup, h]

theorem Ok.emit (h : s.Ok) (e : Effect) : (s.emit e).Ok := h

/-- The ids of the processes are different `int`s. -/
theorem Ok.curprocnum_bounds (h : s.Ok) (hi : i < s.curGroup) :
    0 ≤ (s.procGroups i).curprocnum ∧ (s.procGroups i).curprocnum ≤ 2 ^ 31 := by
  have hgroup := h i hi
  have hle := hgroup.buckets.total_le fun _ o _ => o.procinfo.procid_lt
  rw [hgroup.count]
  exact ⟨Int.natCast_nonneg _, by exact_mod_cast hle⟩

theorem Ok.setGroup (h : s.Ok) (hg : i < s.curGroup → g.Ok i) : (s.setGroup i g).Ok := by
  intro k hk
  by_cases hki : k = i
  · subst hki
    simpa using hg hk
  · rw [setGroup_of_ne s g hki]
    exact h k hk

theorem Ok.addGroup (h : s.Ok) (groupinfo : TGroupInfo) : (s.addGroup groupinfo).Ok := by
  rw [MonSrv.addGroup]
  split
  next hassert =>
    intro k hk
    by_cases hki : k = s.curGroup
    · subst hki
      rw [show ∀ s' : MonSrv, ({ s' with curGroup := s.curGroup + 1 } : MonSrv).procGroups =
        s'.procGroups from fun _ => rfl, setGroup_self]
      exact ⟨hassert.2.symm, Buckets.ok_empty, by simp, by simp⟩
    · have hlt : k < s.curGroup + 1 := hk
      have hold := h k (by omega)
      rwa [← setGroup_of_ne s _ hki] at hold
  next => exact h

theorem Ok.modGroup (h : s.Ok) (groupid : ℕ) (groupinfo : TGroupInfo) :
    (s.modGroup groupid groupinfo).Ok := by
  rw [MonSrv.modGroup]
  split
  next hassert =>
    refine h.setGroup fun hi => ?_
    have hold := h groupid hi
    exact ⟨hassert.2.symm, hold.buckets, hold.group, hold.count⟩
  next => exact h

theorem Ok.modProc (h : s.Ok)
    (hf : ∀ o : TProcObj, o.procid = procid →
      (f o).procid = procid ∧ (o.procinfo.groupid = groupid → (f o).procinfo.groupid = groupid)) :
    (s.modProc groupid procid f).Ok := by
  refine h.setGroup fun hi => ?_
  have hold := h groupid hi
  constructor
  · exact hold.groupid
  · exact hold.buckets.modify fun o ho => (hf o ho).1
  · exact Buckets.forall_modify hold.group fun _ o ho => (hf o ho).2
  · rw [Buckets.total_modify]
    exact hold.count

theorem Ok.addProc (h : s.Ok) {procinfo : TProcInfo}
    (hnone : s.findProc procinfo.groupid procinfo.procid = none) (now : ℤ) :
    (s.addProc procinfo.groupid procinfo now).Ok := by
  rw [MonSrv.addProc]
  split
  next => exact h
  next hlt =>
    rw [findProc, if_neg hlt] at hnone
    refine h.setGroup fun hi => ?_
    have hold := h procinfo.groupid hi
    constructor
    · exact hold.groupid
    · exact hold.buckets.insert hnone
    · exact Buckets.forall_insert hold.group rfl
    · rw [Buckets.total_insert (by decide)]
      simp [hold.count]

/-- A process that is there is taken out, and the count is right again. -/
theorem Ok.delProc (h : s.Ok) (hmem : s.Registered groupid procid) :
    (s.delProc groupid procid).Ok := by
  rw [MonSrv.delProc]
  split
  next => exact h
  next hlt =>
    refine Ok.emit (h.setGroup fun hi => ?_) _
    have hold := h groupid hi
    have htotal := Buckets.total_erase (by decide) hmem
    constructor
    · exact hold.groupid
    · exact hold.buckets.erase procid
    · exact Buckets.forall_erase hold.group procid
    · have hcount := hold.count
      dsimp only
      omega

theorem Ok.setAdjust (h : s.Ok) (groupid : ℕ) (now : ℤ) : (s.setAdjust groupid now).Ok := by
  refine h.setGroup fun hi => ?_
  have hold := h groupid hi
  exact ⟨hold.groupid, hold.buckets, hold.group, hold.count⟩

theorem Ok.setLastCheck (h : s.Ok) (groupid : ℕ) (now : ℤ) :
    (s.setLastCheck groupid now).Ok := by
  refine h.setGroup fun hi => ?_
  have hold := h groupid hi
  exact ⟨hold.groupid, hold.buckets, hold.group, hold.count⟩

/-! ## Steps that take nobody out -/

/-- Nobody leaves the table, and nobody is asked for. -/
structure Grows (s s' : MonSrv) : Prop where
  curGroup : s'.curGroup = s.curGroup
  ok : s.Ok → s'.Ok
  registered : ∀ {groupid procid}, s.Registered groupid procid → s'.Registered groupid procid
  maxprocnum : ∀ k, (s'.procGroups k).groupinfo.maxprocnum = (s.procGroups k).groupinfo.maxprocnum
  curprocnum : ∀ k, (s.procGroups k).curprocnum ≤ (s'.procGroups k).curprocnum
  asked : ∀ k, s'.asked k = s.asked k
  removed : ∀ k, s'.removed k = s.removed k

theorem Grows.refl (s : MonSrv) : Grows s s :=
  ⟨rfl, id, id, fun _ => rfl, fun _ => le_rfl, fun _ => rfl, fun _ => rfl⟩

theorem Grows.trans {s s' s'' : MonSrv} (h : Grows s s') (h' : Grows s' s'') : Grows s s'' where
  curGroup := h'.curGroup.trans h.curGroup
  ok hs := h'.ok (h.ok hs)
  registered hr := h'.registered (h.registered hr)
  maxprocnum k := (h'.maxprocnum k).trans (h.maxprocnum k)
  curprocnum k := (h.curprocnum k).trans (h'.curprocnum k)
  asked k := (h'.asked k).trans (h.asked k)
  removed k := (h'.removed k).trans (h.removed k)

theorem Grows.emit (s : MonSrv) {e : Effect} (hask : ∀ k, e.asked k = 0)
    (hrem : ∀ k, e.removed k = 0) : Grows s (s.emit e) :=
  ⟨rfl, id, id, fun _ => rfl, fun _ => le_rfl, by simp [hask], by simp [hrem]⟩

/-- One group is changed, and what there was in it stays. -/
theorem Grows.setGroup (hok : s.Ok → (s.setGroup i g).Ok)
    (hkeys : ∀ procid j, procid ∈ ((s.procGroups i).bucket j).map TProcObj.procid →
      procid ∈ (g.bucket j).map TProcObj.procid)
    (hmax : g.groupinfo.maxprocnum = (s.procGroups i).groupinfo.maxprocnum)
    (hcur : (s.procGroups i).curprocnum ≤ g.curprocnum) : Grows s (s.setGroup i g) where
  curGroup := rfl
  ok := hok
  registered {groupid procid} hr := by
    rw [Registered] at hr ⊢
    by_cases hk : groupid = i
    · subst hk
      rw [setGroup_self]
      exact hkeys procid _ hr
    · rwa [setGroup_of_ne s g hk]
  maxprocnum k := by
    by_cases hk : k = i
    · subst hk
      rw [setGroup_self, hmax]
    · rw [setGroup_of_ne s g hk]
  curprocnum k := by
    by_cases hk : k = i
    · subst hk
      rwa [setGroup_self]
    · rw [setGroup_of_ne s g hk]
  asked _ := rfl
  removed _ := rfl

theorem Grows.modProc (s : MonSrv)
    (hf : ∀ o : TProcObj, o.procid = procid →
      (f o).procid = procid ∧ (o.procinfo.groupid = groupid → (f o).procinfo.groupid = groupid)) :
    Grows s (s.modProc groupid procid f) :=
  .setGroup (fun h => h.modProc hf)
    (fun _ _ h => Buckets.mem_keys_modify h fun o ho => (hf o ho).1) rfl le_rfl

theorem Grows.modProc_info (s : MonSrv) (groupid procid : ℕ)
    (hf : ∀ o, (f o).procinfo = o.procinfo) : Grows s (s.modProc groupid procid f) := by
  refine .modProc s fun o ho => ?_
  rw [TProcObj.procid, hf]
  exact ⟨ho, id⟩

theorem Grows.setAdjust (s : MonSrv) (groupid : ℕ) (now : ℤ) : Grows s (s.setAdjust groupid now) :=
  .setGroup (fun h => h.setAdjust groupid now) (fun _ _ h => h) rfl le_rfl

theorem Grows.setLastCheck (s : MonSrv) (groupid : ℕ) (now : ℤ) :
    Grows s (s.setLastCheck groupid now) :=
  .setGroup (fun h => h.setLastCheck groupid now) (fun _ _ h => h) rfl le_rfl

theorem Grows.addProc {procinfo : TProcInfo}
    (hnone : s.findProc procinfo.groupid procinfo.procid = none) (now : ℤ) :
    Grows s (s.addProc procinfo.groupid procinfo now) := by
  have hok : s.Ok → (s.addProc procinfo.groupid procinfo now).Ok := fun h => h.addProc hnone now
  rw [MonSrv.addProc] at hok ⊢
  split
  next => exact .refl s
  next hlt =>
    rw [if_neg hlt] at hok
    refine .setGroup hok (fun _ _ h => Buckets.mem_keys_insert h _) rfl ?_
    dsimp only
    omega

theorem Grows.doRecv (s : MonSrv) (ms : List TProcMonMsg) : Grows s (s.doRecv ms) := by
  induction ms generalizing s with
  | nil => exact .refl s
  | cons m ms ih =>
      refine Grows.trans ?_ (ih (s.recvMsg m))
      rw [recvMsg]
      split
      · split
        next => exact .modProc s fun o _ => ⟨rfl, fun _ => rfl⟩
        next hnone => exact .addProc hnone m.now
      · exact .refl s

theorem Grows.order (s : MonSrv) (proc : TProcInfo) (event status : ℕ) :
    Grows s (s.order proc event status) := by
  refine .trans ?_ (.emit _ (fun _ => rfl) fun _ => rfl)
  exact .modProc_info s _ _ fun _ => rfl

theorem Grows.notifyGroup (s : MonSrv) (i : ℕ) : Grows s (s.notifyGroup i) := by
  rw [MonSrv.notifyGroup]
  split
  · exact .emit s (fun _ => rfl) fun _ => rfl
  · exact .refl s

theorem Grows.notifyProc (s : MonSrv) (i : ℕ) (o : TProcObj) (t : ℤ) :
    Grows s (s.notifyProc i o t) := by
  rw [MonSrv.notifyProc]
  split
  · exact (Grows.emit s (fun _ => rfl) fun _ => rfl).trans
      (.modProc_info _ i o.procid fun _ => rfl)
  · exact .refl s

/-! ## Steps of a pass -/

theorem registered_of_mem (h : s.Ok) (hi : i < s.curGroup) {j : ℕ} {o : TProcObj}
    (ho : o ∈ (s.procGroups i).bucket j) : s.Registered i o.procid := by
  rw [Registered, (h i hi).buckets.placed j o ho]
  exact List.mem_map_of_mem ho

/-- `n` processes are asked for in group `i`, and `m` leave it. -/
structure Moves (i n m : ℕ) (s s' : MonSrv) : Prop where
  curGroup : s'.curGroup = s.curGroup
  ok : s'.Ok
  maxprocnum : ∀ k, (s'.procGroups k).groupinfo.maxprocnum = (s.procGroups k).groupinfo.maxprocnum
  asked : s'.asked i = s.asked i + n
  removed : s'.removed i = s.removed i + m
  asked_of_ne : ∀ k, k ≠ i → s'.asked k = s.asked k
  removed_of_ne : ∀ k, k ≠ i → s'.removed k = s.removed k
  curprocnum_of_ne : ∀ k, k ≠ i → (s.procGroups k).curprocnum ≤ (s'.procGroups k).curprocnum
  registered : m = 0 → ∀ {groupid procid}, s.Registered groupid procid →
    s'.Registered groupid procid

variable {n m n' m' : ℕ}

theorem Moves.trans {s s' s'' : MonSrv} (h : Moves i n m s s') (h' : Moves i n' m' s' s'') :
    Moves i (n + n') (m + m') s s'' where
  curGroup := h'.curGroup.trans h.curGroup
  ok := h'.ok
  maxprocnum k := (h'.maxprocnum k).trans (h.maxprocnum k)
  asked := by rw [h'.asked, h.asked, Nat.add_assoc]
  removed := by rw [h'.removed, h.removed, Nat.add_assoc]
  asked_of_ne k hk := (h'.asked_of_ne k hk).trans (h.asked_of_ne k hk)
  removed_of_ne k hk := (h'.removed_of_ne k hk).trans (h.removed_of_ne k hk)
  curprocnum_of_ne k hk := (h.curprocnum_of_ne k hk).trans (h'.curprocnum_of_ne k hk)
  registered hm _ _ hr := h'.registered (by omega) (h.registered (by omega) hr)

theorem Grows.moves {s s' : MonSrv} (h : Grows s s') (hs : s.Ok) : Moves i 0 0 s s' where
  curGroup := h.curGroup
  ok := h.ok hs
  maxprocnum := h.maxprocnum
  asked := h.asked i
  removed := h.removed i
  asked_of_ne k _ := h.asked k
  removed_of_ne k _ := h.removed k
  curprocnum_of_ne k _ := h.curprocnum k
  registered _ := h.registered

theorem Moves.grows {s s' s'' : MonSrv} (h : Moves i n m s s') (h' : Grows s' s'') :
    Moves i n m s s'' := h.trans (h'.moves h.ok)

theorem Grows.then_moves {s s' s'' : MonSrv} (hs : s.Ok) (h : Grows s s')
    (h' : Moves i n m s' s'') : Moves i n m s s'' := by
  simpa using (h.moves hs).trans h'

theorem Moves.doFork (hs : s.Ok) {groupinfo : TGroupInfo} (hi : groupinfo.groupid = i) (num : ℤ) :
    Moves i num.toNat 0 s (s.doFork groupinfo num) where
  curGroup := rfl
  ok := hs
  maxprocnum _ := rfl
  asked := by simp [MonSrv.doFork, Effect.asked, hi]
  removed := by simp [MonSrv.doFork, Effect.removed]
  asked_of_ne k hk := by simp [MonSrv.doFork, Effect.asked, hi, hk.symm]
  removed_of_ne k _ := by simp [MonSrv.doFork, Effect.removed]
  curprocnum_of_ne _ _ := le_rfl
  registered _ _ _ hr := hr

/-- The process that leaves is one of the group. -/
theorem Moves.delProc (hs : s.Ok) (hi : i < s.curGroup) (hr : s.Registered i procid) :
    Moves i 0 1 s (s.delProc i procid) := by
  have hok := hs.delProc hr
  rw [MonSrv.delProc, if_neg (by omega)] at hok ⊢
  constructor
  · rfl
  · exact hok
  · intro k
    by_cases hk : k = i
    · subst hk
      simp
    · simp [setGroup_of_ne s _ hk]
  · simp [Effect.asked]
  · simp [Effect.removed]
  · simp [Effect.asked]
  · intro k hk
    simp [Effect.removed, Ne.symm hk]
  · intro k hk
    simp [setGroup_of_ne s _ hk]
  · intro hm
    cases hm

/-- A process is killed, its messages are drained, and it is taken out. -/
theorem Moves.kill (hs : s.Ok) (hi : i < s.curGroup) (hr : s.Registered i procid)
    (hg : groupid = i) (signo : ℤ) (ms : List TProcMonMsg) :
    Moves i 0 1 s (((s.emit (.kill procid signo)).doRecv ms).delProc groupid procid) := by
  subst hg
  have hgrows : Grows s ((s.emit (.kill procid signo)).doRecv ms) :=
    (Grows.emit s (fun _ => rfl) fun _ => rfl).trans (.doRecv _ ms)
  refine hgrows.then_moves hs (.delProc (hgrows.ok hs) ?_ (hgrows.registered hr))
  rwa [hgrows.curGroup]

/-- The others stay when a process is killed. -/
theorem registered_kill (hs : s.Ok) (hg : groupid = i) {p : ℕ} (hp : s.Registered i p)
    (hne : p ≠ procid) (signo : ℤ) (ms : List TProcMonMsg) :
    (((s.emit (.kill procid signo)).doRecv ms).delProc groupid procid).Registered i p := by
  subst hg
  have hgrows : Grows s ((s.emit (.kill procid signo)).doRecv ms) :=
    (Grows.emit s (fun _ => rfl) fun _ => rfl).trans (.doRecv _ ms)
  have hok := hgrows.ok hs
  have hp' := hgrows.registered hp
  generalize (s.emit (.kill procid signo)).doRecv ms = s₁ at *
  rw [delProc]
  split
  next => exact hp'
  next hlt =>
    rw [Registered, emit_procGroups, setGroup_self]
    exact (Buckets.mem_keys_erase_iff (hok groupid (by omega)).buckets procid p).mpr ⟨hp', hne⟩

/-- Processes of group `i` that the loop, with `k` buckets left, still comes to. -/
structure Ahead (s : MonSrv) (i k : ℕ) (pids : List ℕ) : Prop where
  nodup : pids.Nodup
  registered : ∀ p ∈ pids, s.Registered i p
  ahead : ∀ p ∈ pids, BUCKET_SIZE - k ≤ p % BUCKET_SIZE

theorem Ahead.eq_nil {pids : List ℕ} (h : s.Ahead i 0 pids) : pids = [] := by
  apply List.eq_nil_iff_forall_not_mem.mpr
  intro p hp
  have hle := h.ahead p hp
  have hlt := Nat.mod_lt p (show 0 < BUCKET_SIZE by decide)
  omega

/-- Nobody is in an empty bucket. -/
theorem Ahead.next {k : ℕ} {pids : List ℕ} (h : s.Ahead i (k + 1) pids)
    (hbucket : (s.procGroups i).bucket (BUCKET_SIZE - (k + 1)) = []) : s.Ahead i k pids where
  nodup := h.nodup
  registered := h.registered
  ahead p hp := by
    have hle := h.ahead p hp
    have hne : p % BUCKET_SIZE ≠ BUCKET_SIZE - (k + 1) := by
      intro heq
      have hmem := h.registered p hp
      rw [Registered, heq, hbucket] at hmem
      simp at hmem
    omega

theorem Ahead.kill {k : ℕ} {pids : List ℕ} (h : s.Ahead i k pids) (hs : s.Ok) (hg : groupid = i)
    (signo : ℤ) (ms : List TProcMonMsg) :
    (((s.emit (.kill procid signo)).doRecv ms).delProc groupid procid).Ahead i k
      (pids.erase procid) where
  nodup := h.nodup.erase procid
  registered p hp := by
    have hp := h.nodup.mem_erase_iff.mp hp
    exact registered_kill hs hg (h.registered p hp.2) hp.1 signo ms
  ahead p hp := h.ahead p (List.mem_of_mem_erase hp)

/-- All that are registered in the group are ahead when the loop starts. -/
theorem Ok.exists_ahead (hs : s.Ok) (hi : i < s.curGroup) :
    ∃ pids, s.Ahead i BUCKET_SIZE pids ∧ pids.length = (s.procGroups i).curprocnum := by
  have hgroup := hs i hi
  refine ⟨((List.range BUCKET_SIZE).flatMap (s.procGroups i).bucket).map TProcObj.procid,
    ⟨hgroup.buckets.nodup_flatMap, ?_, by simp⟩, ?_⟩
  · intro p hp
    simp only [List.mem_map, List.mem_flatMap] at hp
    obtain ⟨o, ⟨j, -, ho⟩, rfl⟩ := hp
    exact registered_of_mem hs hi ho
  · rw [List.length_map, Buckets.length_flatMap, hgroup.count]

/-- The loop takes processes out, and as many as it is to take out where there are so many. -/
theorem Moves.procupLoop (hs : s.Ok) (hi : i < s.curGroup) (k left : ℕ)
    (drained : List (List TProcMonMsg)) :
    ∃ m, Moves i 0 m s (procupLoop i k left drained s) ∧
      ∀ pids, s.Ahead i k pids → 0 < left → left ≤ pids.length → m = left := by
  fun_induction MonSrv.procupLoop i k left drained s with
  | case1 left drained s =>
      refine ⟨0, (Grows.refl _).moves hs, ?_⟩
      rintro pids hahead hpos hle
      simp [hahead.eq_nil] at hle
      omega
  | case2 => exact ⟨0, (Grows.refl _).moves hs, fun _ _ hpos _ => absurd hpos (by simp)⟩
  | case3 k left drained s g hbucket hleft ih =>
      obtain ⟨m, hmoves, hm⟩ := ih hs hi
      exact ⟨m, hmoves, fun pids hahead => hm pids (hahead.next hbucket)⟩
  | case4 k left drained s g o os hbucket s₁ s₂ s₃ hlast =>
      have ho : o ∈ g.bucket (BUCKET_SIZE - (k + 1)) := by simp [hbucket]
      refine ⟨1, .kill hs hi (registered_of_mem hs hi ho) (hs i hi).groupid _ _, ?_⟩
      intro pids _ hpos _
      omega
  | case5 k left drained s g o os hbucket s₁ s₂ s₃ hlast ih =>
      have ho : o ∈ g.bucket (BUCKET_SIZE - (k + 1)) := by simp [hbucket]
      have hkill : Moves i 0 1 s s₃ :=
        .kill hs hi (registered_of_mem hs hi ho) (hs i hi).groupid _ _
      obtain ⟨m, hrest, hm⟩ := ih hkill.ok (hkill.curGroup ▸ hi)
      refine ⟨1 + m, hkill.trans hrest, ?_⟩
      intro pids hahead hpos hle
      have herase : pids.length - 1 ≤ (pids.erase o.procid).length := by
        rw [List.length_erase]
        split <;> omega
      have hrest := hm _ (hahead.kill hs (hs i hi).groupid SIGUSR1 _) (by omega) (by omega)
      omega

/-- As many go as are to go, where there are so many. -/
theorem Moves.procup (hs : s.Ok) (hi : i < s.curGroup) {diff : ℤ} (hdiff : 0 < diff)
    (drained : List (List TProcMonMsg)) (now : ℤ) :
    ∃ m : ℕ, Moves i 0 m s (s.procup i diff drained now) ∧
      (diff ≤ (s.procGroups i).curprocnum → m = diff) := by
  obtain ⟨m, hloop, hm⟩ := Moves.procupLoop hs hi BUCKET_SIZE diff.toNat drained
  obtain ⟨pids, hahead, hlen⟩ := hs.exists_ahead hi
  refine ⟨m, hloop.grows (.setAdjust _ i now), fun hle => ?_⟩
  have hall := hm pids hahead (by omega) (by omega)
  omega

theorem Moves.procdown (hs : s.Ok) (hi : i < s.curGroup) (diff now : ℤ) :
    Moves i diff.toNat 0 s (s.procdown i diff now) :=
  (Moves.doFork hs (hs i hi).groupid diff).grows (.setAdjust _ i now)

@[simp] theorem curprocnum_notifyGroup (s : MonSrv) (i k : ℕ) :
    ((s.notifyGroup i).procGroups k).curprocnum = (s.procGroups k).curprocnum := by
  rw [notifyGroup]
  split <;> rfl

theorem surplus_pos (s : MonSrv) (i : ℕ) : 0 < s.surplus i := by
  rw [surplus]
  split <;> omega

theorem checkGroup_of_procup {a : PassAnswer} (h : s.Procup i a) :
    s.checkGroup i a = (s.notifyGroup i).procup i (s.surplus i) a.drained a.adjust := by
  obtain ⟨hdown, hup⟩ := h
  rw [checkGroup, if_neg hdown, surplus]
  by_cases hover : s.diffMax i > 0
  · rw [if_pos hover, if_pos hover]
  · rw [if_neg hover, if_neg hover, if_pos (hup.resolve_left hover)]

theorem checkGroup_of_not {a : PassAnswer} (hdown : ¬s.diffMin i > 0) (h : ¬s.Procup i a) :
    s.checkGroup i a = s := by
  have hup := fun hup => h ⟨hdown, hup⟩
  rw [checkGroup, if_neg hdown, if_neg fun hover => hup (.inl hover),
    if_neg fun hidle => hup (.inr hidle)]

/-- `check_group` asks for what is missing, and its surplus leaves the group. -/
theorem Moves.checkGroup (hs : s.Ok) (hi : i < s.curGroup) (a : PassAnswer) :
    ∃ n m : ℕ, Moves i n m s (s.checkGroup i a) ∧ n = (s.diffMin i).toNat ∧
      ((s.Procup i a → s.surplus i ≤ (s.procGroups i).curprocnum) →
        (n : ℤ) - m = s.change i a) := by
  have hnotify := Grows.notifyGroup s i
  have hs' := hnotify.ok hs
  have hi' : i < (s.notifyGroup i).curGroup := hnotify.curGroup ▸ hi
  rw [change]
  by_cases hdown : s.diffMin i > 0
  · rw [MonSrv.checkGroup, if_pos hdown, if_pos hdown]
    refine ⟨_, 0, hnotify.then_moves hs (.procdown hs' hi' _ _), rfl, fun _ => ?_⟩
    omega
  · rw [if_neg hdown]
    by_cases hprocup : s.Procup i a
    · obtain ⟨m, hup, hm⟩ := Moves.procup hs' hi' (surplus_pos s i) a.drained a.adjust
      rw [checkGroup_of_procup hprocup, if_pos hprocup]
      refine ⟨0, m, hnotify.then_moves hs hup, by omega, fun hle => ?_⟩
      have hall := hm (by simpa using hle hprocup)
      omega
    · rw [checkGroup_of_not hdown hprocup, if_neg hprocup]
      exact ⟨0, 0, (Grows.refl s).moves hs, by omega, fun _ => by simp⟩

/-- The dead process leaves, and another one is asked for. -/
theorem Moves.procdead (hs : s.Ok) (hi : i < s.curGroup) {proc : TProcInfo}
    (hg : proc.groupid = i) (hr : s.Registered i proc.procid) (ms : List TProcMonMsg) :
    Moves i 1 1 s (s.procdead proc ms) := by
  subst hg
  have hkill := Moves.kill hs hi hr rfl (s.procGroups proc.groupid).groupinfo.exitsignal ms
  have hi' := hkill.curGroup ▸ hi
  have hfork := hkill.trans (.doFork hkill.ok (hkill.ok proc.groupid hi').groupid 1)
  refine hfork.grows (.setGroup (fun h => h.setGroup fun hlt => ?_) (fun _ _ h => h) rfl le_rfl)
  have hold := h proc.groupid hlt
  exact ⟨hold.groupid, hold.buckets, hold.group, hold.count⟩

@[simp] theorem curprocnum_modProc (s : MonSrv) (groupid procid : ℕ) (f : TProcObj → TProcObj)
    (k : ℕ) : ((s.modProc groupid procid f).procGroups k).curprocnum =
      (s.procGroups k).curprocnum := by
  by_cases hk : k = groupid
  · subst hk
    simp [modProc]
  · rw [modProc, setGroup_of_ne s _ hk]

@[simp] theorem curprocnum_notifyProc (s : MonSrv) (i : ℕ) (o : TProcObj) (t : ℤ) (k : ℕ) :
    ((s.notifyProc i o t).procGroups k).curprocnum = (s.procGroups k).curprocnum := by
  rw [notifyProc]
  split
  · simp
  · rfl

theorem open_congr {s s' : MonSrv} (h : Grows s s')
    (hcur : (s'.procGroups i).curprocnum = (s.procGroups i).curprocnum) :
    s'.Open i ↔ s.Open i := by
  rw [Open, Open, hcur, h.maxprocnum]

theorem Moves.overload (hs : s.Ok) (hi : i < s.curGroup) {proc : TProcInfo}
    (hg : proc.groupid = i) (now : ℤ) :
    Moves i (if s.Open i then 1 else 0) 0 s (s.overload proc now) := by
  subst hg
  have horder := Grows.order s proc 2 1
  have hopen := open_congr horder (i := proc.groupid) (by simp [order])
  have hok := horder.ok hs
  have hfork := Moves.doFork hok (hok proc.groupid (horder.curGroup ▸ hi)).groupid 1
  rw [MonSrv.overload]
  by_cases hroom : s.Open proc.groupid
  · rw [if_pos hroom, if_pos (hopen.mpr hroom)]
    exact horder.then_moves hs (hfork.grows (.setAdjust _ _ now))
  · rw [if_neg hroom, if_neg (mt hopen.mp hroom)]
    exact horder.moves hs

/-- `do_event` for a process of the group: a dead one is replaced, and for one that is
overloaded another one is asked for while the group is open. -/
theorem Moves.doEvent (hs : s.Ok) (hi : i < s.curGroup) {proc : TProcInfo}
    (hg : proc.groupid = i) (hr : s.Registered i proc.procid) (e : ProcEvent) (a : PassAnswer) :
    (s.doEvent e proc a).1 = e.procdead ∧
      if e.procdead then Moves i 1 1 s (s.doEvent e proc a).2
      else Moves i (if e.overload ∧ s.Open i then 1 else 0) 0 s (s.doEvent e proc a).2 := by
  have hmod : Grows s (s.modProc proc.groupid proc.procid fun o => { o with status := 0 }) :=
    .modProc_info s _ _ fun _ => rfl
  have hopen := open_congr hmod (i := i) (by simp)
  have hok := hmod.ok hs
  have hi' : i < (s.modProc proc.groupid proc.procid fun o => { o with status := 0 }).curGroup :=
    hi
  have hr' := hmod.registered hr
  rw [MonSrv.doEvent]
  generalize (s.modProc proc.groupid proc.procid fun o => { o with status := 0 }) = s₁ at *
  cases hdead : e.procdead with
  | true =>
      refine ⟨rfl, ?_⟩
      exact hmod.then_moves hs (.procdead hok hi' hg hr' _)
  | false =>
      refine ⟨rfl, ?_⟩
      have horder : ∀ (s : MonSrv) (c : Bool) (event status : ℕ),
          Grows s (if c then s.order proc event status else s) := by
        intro s c event status
        cases c with
        | true => exact .order s proc event status
        | false => exact .refl s
      refine hmod.then_moves hs (.grows ?_ ((horder _ _ 4 2).trans
        ((horder _ _ 8 4).trans (horder _ _ 16 8))))
      cases hover : e.overload with
      | true => simpa [hover, ← hopen] using Moves.overload hok hi' hg a.adjust
      | false => simpa [hover] using (Grows.refl s₁).moves hok

/-- `check_proc` is `do_event` for the events that it finds. -/
theorem Moves.checkProc (hs : s.Ok) (hi : i < s.curGroup) {o : TProcObj}
    (hg : o.procinfo.groupid = i) (hr : s.Registered i o.procid) (a : PassAnswer) :
    (s.checkProc i o a).1 = (o.procinfo.event (s.procGroups i).groupinfo a).procdead ∧
      if (o.procinfo.event (s.procGroups i).groupinfo a).procdead then
        Moves i 1 1 s (s.checkProc i o a).2
      else Moves i (if (o.procinfo.event (s.procGroups i).groupinfo a).overload ∧ s.Open i
        then 1 else 0) 0 s (s.checkProc i o a).2 := by
  rw [MonSrv.checkProc]
  generalize o.procinfo.event (s.procGroups i).groupinfo a = e
  have hmod : Grows s (s.modProc i o.procid fun o => { o with status := 0 }) :=
    .modProc_info s _ _ fun _ => rfl
  have hnotify := hmod.trans (.notifyProc _ i o a.again)
  have hopen := open_congr hnotify (i := i) (by simp)
  have hevent := Moves.doEvent (hnotify.ok hs) (hnotify.curGroup ▸ hi) hg
    (hnotify.registered hr) e a
  split
  next =>
    refine ⟨hevent.1, ?_⟩
    simp only [hopen] at hevent
    split
    next hdead => exact hnotify.then_moves hs (by simpa [hdead] using hevent.2)
    next hdead => exact hnotify.then_moves hs (by simpa [hdead] using hevent.2)
  next hnone =>
    simp only [ProcEvent.any, Bool.or_eq_true, not_or, Bool.not_eq_true] at hnone
    simpa [hnone] using hmod.moves hs

end MonSrv

/-! ## The pass keeps the table -/

namespace Pass

open MonSrv

variable {p : Pass}

/-- Where a pass is: the processes still to be visited are registered in the group. -/
structure Inv (p : Pass) : Prop where
  ok : p.srv.Ok
  todo : p.checked → ∀ o ∈ p.todo, o.procinfo.groupid = p.i ∧ p.srv.Registered p.i o.procid

theorem Inv.start {s : MonSrv} (hs : s.Ok) : (start s).Inv where
  ok := hs
  todo h := absurd h (by simp [Pass.start])

/-- The processes of a bucket are processes to be visited. -/
theorem todo_of_bucket {s : MonSrv} {i : ℕ} (hs : s.Ok) (hi : i < s.curGroup) (j : ℕ) :
    ∀ o ∈ (s.procGroups i).bucket j, o.procinfo.groupid = i ∧ s.Registered i o.procid := by
  intro o ho
  exact ⟨(hs i hi).group j o ho, registered_of_mem hs hi ho⟩

/-- The group check moves processes of the group. -/
theorem moves_enter (hp : p.srv.Ok) (hi : p.i < p.srv.curGroup) (a : PassAnswer) :
    ∃ n m : ℕ, Moves p.i n m p.srv (p.enter a) ∧
      if p.Elapsed a then
        n = (p.srv.diffMin p.i).toNat ∧
          ((p.srv.Procup p.i a → p.srv.surplus p.i ≤ (p.srv.procGroups p.i).curprocnum) →
            (n : ℤ) - m = p.srv.change p.i a)
      else n = 0 ∧ m = 0 := by
  rw [enter]
  by_cases helapsed : p.Elapsed a
  · obtain ⟨n, m, hcheck, hn⟩ := Moves.checkGroup hp hi a
    simp only [helapsed, if_true]
    exact ⟨n, m, hcheck.grows (.setLastCheck _ p.i _), hn⟩
  · simp only [helapsed, if_false]
    exact ⟨0, 0, (Grows.refl _).moves hp, rfl, rfl⟩

theorem Inv.step (hp : p.Inv) (a : PassAnswer) : (p.step a).Inv := by
  rw [Pass.step]
  split
  next => exact hp
  next hlt =>
    have hi : p.i < p.srv.curGroup := by omega
    split
    next hunchecked =>
      split
      next => exact ⟨hp.ok, fun h => absurd h hunchecked⟩
      next =>
        obtain ⟨n, m, henter, -⟩ := moves_enter hp.ok hi a
        exact ⟨henter.ok, fun _ => todo_of_bucket henter.ok (henter.curGroup ▸ hi) 0⟩
    next hchecked =>
      have htodo := hp.todo (by simpa using hchecked)
      split
      next =>
        split
        next => exact ⟨hp.ok, fun _ => todo_of_bucket hp.ok hi _⟩
        next => exact ⟨hp.ok, fun h => by cases h⟩
      next o todo hcons =>
        have ho := htodo o (by simp [hcons])
        have hcheck := Moves.checkProc hp.ok hi ho.1 ho.2 a
        split
        next s hres =>
          rw [hres] at hcheck
          rw [← hcheck.1, if_pos rfl] at hcheck
          exact ⟨hcheck.2.ok, fun _ => todo_of_bucket hcheck.2.ok (hcheck.2.curGroup ▸ hi) _⟩
        next s hres =>
          rw [hres] at hcheck
          rw [← hcheck.1, if_neg (by simp)] at hcheck
          refine ⟨hcheck.2.ok, fun _ o' ho' => ?_⟩
          have hold := htodo o' (by simp [hcons, ho'])
          exact ⟨hold.1, hcheck.2.registered rfl hold.2⟩

/-- One turn, for runs. -/
def turn (p : Pass) (a : PassAnswer) : Pass × Unit := (p.step a, ())

theorem Inv.final (hp : p.Inv) (as : List PassAnswer) : (Run.final turn p as).Inv :=
  Run.invariant (fun _ a h _ => h.step a) hp (Run.always_true p as)

end Pass

/-! ## The registry -/

namespace MonSrv

variable {s : MonSrv}

/-- What the constructor leaves: no groups. -/
def new (checkGroupInterval : UInt32) (notify : Bool) (group : TProcGroupObj) : MonSrv :=
  ⟨checkGroupInterval, fun _ => { group with curprocnum := GROUP_UNUSED }, 0, notify, []⟩

/-- What the controller does with its monitor; a check pass may be looked at after any of its
turns. -/
inductive Op
  | addGroup (groupinfo : TGroupInfo)
  | modGroup (groupid : ℕ) (groupinfo : TGroupInfo)
  | recv (ms : List TProcMonMsg)
  | check (as : List PassAnswer)

def step (s : MonSrv) : Op → MonSrv × Unit
  | .addGroup groupinfo => (s.addGroup groupinfo, ())
  | .modGroup groupid groupinfo => (s.modGroup groupid groupinfo, ())
  | .recv ms => (s.doRecv ms, ())
  | .check as => ((Run.final Pass.turn (.start s) as).srv, ())

/-- The registry of processes: each is registered once in a group, in its bucket, under the
group's id, and `curprocnum` is their number. -/
structure Registry (s : MonSrv) : Prop where
  once : ∀ i < s.curGroup,
    (((List.range BUCKET_SIZE).flatMap (s.procGroups i).bucket).map TProcObj.procid).Nodup
  bucket : ∀ i < s.curGroup, ∀ j, ∀ o ∈ (s.procGroups i).bucket j, o.procid % BUCKET_SIZE = j
  group : ∀ i < s.curGroup, ∀ j, ∀ o ∈ (s.procGroups i).bucket j, o.procinfo.groupid = i
  count : ∀ i < s.curGroup, (s.procGroups i).curprocnum =
    (∑ j ∈ Finset.range BUCKET_SIZE, ((s.procGroups i).bucket j).length : ℕ)

theorem Ok.registry (h : s.Ok) : s.Registry where
  once i hi := (h i hi).buckets.nodup_flatMap
  bucket i hi := (h i hi).buckets.placed
  group i hi := (h i hi).group
  count i hi := (h i hi).count

theorem Ok.step (h : s.Ok) (op : Op) : (s.step op).1.Ok := by
  cases op with
  | addGroup groupinfo => exact h.addGroup groupinfo
  | modGroup groupid groupinfo => exact h.modGroup groupid groupinfo
  | recv ms => exact (Grows.doRecv s ms).ok h
  | check as => exact ((Pass.Inv.start h).final as).ok

theorem ok_run (checkGroupInterval : UInt32) (notify : Bool) (group : TProcGroupObj)
    (ops : List Op) : (Run.final step (new checkGroupInterval notify group) ops).Ok := by
  have hnew : (new checkGroupInterval notify group).Ok := fun i hi => absurd hi (Nat.not_lt_zero i)
  exact Run.invariant (fun _ op h _ => h.step op) hnew (Run.always_true _ ops)

/-- **The registry is in order after every run of the monitor.** -/
theorem registry_run (checkGroupInterval : UInt32) (notify : Bool) (group : TProcGroupObj)
    (ops : List Op) :
    (Run.final step (new checkGroupInterval notify group) ops).Registry :=
  (ok_run checkGroupInterval notify group ops).registry

end MonSrv

end Spp
