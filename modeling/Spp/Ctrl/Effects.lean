import Spp.Ctrl.Procmon

/-!
# What the monitor does, as effects on its table

The table of the monitor says for every process what its last heartbeat held.  Heartbeats put
into it, and a check changes it only by the processes that it takes out; the rest of what a
check does are calls of the system.  So a turn of `do_check` is the list of its effects.

## Main definitions

* `Table` — group id and process id to what the process said last; `MonSrv.table` reads it off.
* `Table.put`, `Table.remove` — a heartbeat, and the processes that effects take out.
* `MonSrv.Acts` — the effects of an operation, and that it did nothing else to the table.
-/

namespace Spp

/-- What every registered process said last. -/
abbrev Table : Type := ℕ → ℕ → Option TProcInfo

namespace Table

/-- A process says something. -/
def put (t : Table) (info : TProcInfo) : Table :=
  Function.update t info.groupid (Function.update (t info.groupid) info.procid (some info))

/-- A process leaves. -/
def erase (t : Table) (groupid procid : ℕ) : Table :=
  Function.update t groupid (Function.update (t groupid) procid none)

/-- The processes leave that an effect takes out. -/
def apply (t : Table) : Effect → Table
  | .del groupid procid => t.erase groupid procid
  | _ => t

def remove (t : Table) (es : List Effect) : Table := es.foldl apply t

@[simp] theorem remove_nil (t : Table) : t.remove [] = t := rfl

theorem remove_append (t : Table) (es es' : List Effect) :
    t.remove (es ++ es') = (t.remove es).remove es' := List.foldl_append

theorem put_apply (t : Table) (info : TProcInfo) (groupid procid : ℕ) :
    t.put info groupid procid =
      if groupid = info.groupid ∧ procid = info.procid then some info else t groupid procid := by
  by_cases hg : groupid = info.groupid
  · subst hg
    by_cases hp : procid = info.procid
    · simp [put, hp]
    · simp [put, hp]
  · simp [put, hg]

theorem erase_apply (t : Table) (groupid procid groupid' procid' : ℕ) :
    t.erase groupid procid groupid' procid' =
      if groupid' = groupid ∧ procid' = procid then none else t groupid' procid' := by
  by_cases hg : groupid' = groupid
  · subst hg
    by_cases hp : procid' = procid
    · simp [erase, hp]
    · simp [erase, hp]
  · simp [erase, hg]

/-- Nobody comes in by an effect. -/
theorem isSome_of_remove {t : Table} {es : List Effect} {groupid procid : ℕ}
    (h : (t.remove es groupid procid).isSome) : (t groupid procid).isSome := by
  induction es generalizing t with
  | nil => exact h
  | cons e es ih =>
      have hrest : (t.apply e groupid procid).isSome := ih h
      cases e with
      | del groupid' procid' =>
          rw [apply, erase_apply] at hrest
          split at hrest
          · cases hrest
          · exact hrest
      | fork _ _ _ => exact hrest
      | kill _ _ => exact hrest
      | order _ _ _ _ => exact hrest
      | notify _ _ => exact hrest

end Table

namespace MonSrv

/-- What the table holds of a process. -/
def table (s : MonSrv) : Table := fun groupid procid =>
  (s.findProc groupid procid).map TProcObj.procinfo

variable {s s' : MonSrv} {i groupid procid : ℕ} {g : TProcGroupObj} {es : List Effect}

/-! ## Heartbeats -/

theorem table_of_ge (h : groupid ≥ s.curGroup) : s.table groupid procid = none := by
  rw [table, findProc, if_pos h, Option.map_none]

theorem table_of_lt (h : groupid < s.curGroup) : s.table groupid procid =
    (Buckets.find? TProcObj.procid BUCKET_SIZE (s.procGroups groupid).bucket procid).map
      TProcObj.procinfo := by
  rw [table, findProc, if_neg (by omega)]

@[simp] theorem table_emit (s : MonSrv) (e : Effect) : (s.emit e).table = s.table := rfl

/-- One group is changed. -/
theorem table_setGroup (s : MonSrv) (i : ℕ) (g : TProcGroupObj) :
    (s.setGroup i g).table = if i < s.curGroup then Function.update s.table i fun procid =>
      (Buckets.find? TProcObj.procid BUCKET_SIZE g.bucket procid).map TProcObj.procinfo
      else s.table := by
  funext groupid procid
  by_cases hlt : groupid < s.curGroup
  · rw [table_of_lt (s := s.setGroup i g) hlt]
    by_cases hi : groupid = i
    · subst hi
      simp [hlt]
    · rw [setGroup_of_ne s g hi, ← table_of_lt hlt]
      split
      · rw [Function.update_of_ne hi]
      · rfl
  · rw [table_of_ge (s := s.setGroup i g) (by simpa using hlt)]
    have hnone : s.table groupid procid = none := table_of_ge (by omega)
    split
    next hi =>
      have hne : groupid ≠ i := by omega
      rw [Function.update_of_ne hne, hnone]
    next => exact hnone.symm

/-- A group keeps its processes. -/
theorem table_setGroup_of_bucket (hb : g.bucket = (s.procGroups i).bucket) :
    (s.setGroup i g).table = s.table := by
  rw [table_setGroup, hb]
  split
  next hi =>
    rw [Function.update_eq_self_iff]
    funext procid
    rw [table_of_lt hi]
  next => rfl

/-- A process changes, but not what it said. -/
theorem table_modProc {f : TProcObj → TProcObj} (hf : ∀ o, (f o).procinfo = o.procinfo) :
    (s.modProc groupid procid f).table = s.table := by
  have hkey : ∀ o : TProcObj, o.procid = procid → (f o).procid = procid := by
    intro o ho
    rw [TProcObj.procid, hf]
    exact ho
  rw [modProc, table_setGroup]
  split
  next hi =>
    rw [Function.update_eq_self_iff]
    funext procid'
    rw [Buckets.find?_modify hkey, table_of_lt hi]
    split
    · rw [Option.map_map]
      congr 1
      funext o
      exact hf o
    · rfl
  next => rfl

/-- A heartbeat for a group that there is puts into the table, and nothing else does. -/
theorem table_recvMsg (s : MonSrv) (m : TProcMonMsg) :
    (s.recvMsg m).table = if m.srctype % 2 = 1 ∧ m.procinfo.groupid < s.curGroup
      then s.table.put m.procinfo else s.table := by
  rw [recvMsg]
  by_cases hclient : m.srctype % 2 = 1
  · rw [if_pos hclient]
    by_cases hlt : m.procinfo.groupid < s.curGroup
    · rw [if_pos ⟨hclient, hlt⟩, Table.put]
      split
      next o hfound =>
        rw [modProc, table_setGroup, if_pos hlt]
        congr 1
        funext procid
        have hfind : Buckets.find? TProcObj.procid BUCKET_SIZE
            (s.procGroups m.procinfo.groupid).bucket m.procinfo.procid = some o := by
          rwa [findProc, if_neg (by omega)] at hfound
        have hkey : ∀ o : TProcObj, o.procid = m.procinfo.procid →
            TProcObj.procid { o with procinfo := m.procinfo } = m.procinfo.procid := fun _ _ => rfl
        rw [Buckets.find?_modify hkey]
        by_cases hp : procid = m.procinfo.procid
        · subst hp
          simp [hfind]
        · rw [if_neg hp, Function.update_of_ne hp, table_of_lt hlt]
      next =>
        rw [addProc, if_neg (by omega), table_setGroup, if_pos hlt]
        congr 1
        funext procid
        rw [Buckets.find?_insert]
        by_cases hp : procid = m.procinfo.procid
        · subst hp
          simp [TProcObj.procid]
        · have hne : m.procinfo.procid ≠ procid := Ne.symm hp
          rw [Function.update_of_ne hp, table_of_lt hlt]
          simp [TProcObj.procid, hne]
    · rw [if_neg fun h => hlt h.2]
      have hnone : s.findProc m.procinfo.groupid m.procinfo.procid = none := by
        rw [findProc, if_pos (by omega)]
      rw [hnone, addProc, if_pos (by omega)]
  · rw [if_neg hclient, if_neg fun h => hclient h.1]

/-- The monitor's own messages change nothing. -/
theorem doRecv_of_server {ms : List TProcMonMsg} (h : ∀ m ∈ ms, m.srctype % 2 ≠ 1) :
    s.doRecv ms = s := by
  induction ms with
  | nil => rfl
  | cons m ms ih =>
      simp only [List.forall_mem_cons] at h
      rw [doRecv, recvMsg, if_neg h.1, ih h.2]

/-! ## Effects -/

/-- `e` is an order for a process that the table has. -/
def Addresses (t : Table) : Effect → Prop
  | .order groupid procid _ _ => (t groupid procid).isSome
  | _ => True

/-- What an operation did is `es`, and the table has lost those that `es` takes out. -/
structure Acts (s : MonSrv) (es : List Effect) (s' : MonSrv) : Prop where
  curGroup : s'.curGroup = s.curGroup
  ok : s'.Ok
  effects : s'.effects = s.effects ++ es
  table : s'.table = s.table.remove es
  orders : ∀ e ∈ es, Addresses s.table e

variable {es' : List Effect} {s'' : MonSrv}

theorem Acts.refl (hs : s.Ok) : Acts s [] s := ⟨rfl, hs, by simp, rfl, by simp⟩

theorem Acts.trans (h : Acts s es s') (h' : Acts s' es' s'') : Acts s (es ++ es') s'' where
  curGroup := h'.curGroup.trans h.curGroup
  ok := h'.ok
  effects := by rw [h'.effects, h.effects, List.append_assoc]
  table := by rw [h'.table, h.table, Table.remove_append]
  orders e he := by
    rcases List.mem_append.mp he with he | he
    · exact h.orders e he
    · have haddr := h'.orders e he
      rw [h.table] at haddr
      cases e with
      | order _ _ _ _ => exact Table.isSome_of_remove haddr
      | fork _ _ _ => trivial
      | kill _ _ => trivial
      | notify _ _ => trivial
      | del _ _ => trivial

theorem Acts.emit (hs : s.Ok) {e : Effect} (hdel : ∀ t : Table, t.apply e = t)
    (haddr : Addresses s.table e) : Acts s [e] (s.emit e) where
  curGroup := rfl
  ok := hs
  effects := rfl
  table := (hdel s.table).symm
  orders := by simpa using haddr

theorem Acts.setGroup (hok : (s.setGroup i g).Ok) (hb : g.bucket = (s.procGroups i).bucket) :
    Acts s [] (s.setGroup i g) where
  curGroup := rfl
  ok := hok
  effects := by simp
  table := table_setGroup_of_bucket hb
  orders := by simp

theorem Acts.modProc (hs : s.Ok) (groupid procid : ℕ) {f : TProcObj → TProcObj}
    (hf : ∀ o, (f o).procinfo = o.procinfo) : Acts s [] (s.modProc groupid procid f) where
  curGroup := rfl
  ok := (Grows.modProc_info s groupid procid hf).ok hs
  effects := by simp [MonSrv.modProc]
  table := table_modProc hf
  orders := by simp

theorem Acts.setAdjust (hs : s.Ok) (groupid : ℕ) (now : ℤ) : Acts s [] (s.setAdjust groupid now) :=
  .setGroup (hs.setAdjust groupid now) rfl

theorem Acts.setLastCheck (hs : s.Ok) (groupid : ℕ) (now : ℤ) :
    Acts s [] (s.setLastCheck groupid now) := .setGroup (hs.setLastCheck groupid now) rfl

theorem Acts.doFork (hs : s.Ok) (groupinfo : TGroupInfo) (num : ℤ) :
    ∃ es, Acts s es (s.doFork groupinfo num) := ⟨_, .emit hs (fun _ => rfl) trivial⟩

theorem Acts.delProc (hs : s.Ok) (hi : i < s.curGroup) (hr : s.Registered i procid) :
    Acts s [.del i procid] (s.delProc i procid) := by
  have hok := hs.delProc hr
  rw [MonSrv.delProc, if_neg (by omega)] at hok ⊢
  refine ⟨rfl, hok, rfl, ?_, by simp [Addresses]⟩
  rw [table_emit, table_setGroup, if_pos hi]
  change _ = s.table.erase i procid
  rw [Table.erase]
  congr 1
  funext procid'
  rw [Buckets.find?_erase (hs i hi).buckets]
  by_cases hp : procid' = procid
  · simp [hp]
  · rw [if_neg hp, Function.update_of_ne hp, table_of_lt hi]

/-- A registered process is in the table. -/
theorem isSome_table (hi : i < s.curGroup) (hr : s.Registered i procid) :
    (s.table i procid).isSome := by
  rw [table_of_lt hi, Option.isSome_map, Option.isSome_iff_ne_none]
  intro hnone
  obtain ⟨o, ho, hkey⟩ := List.mem_map.mp hr
  exact Buckets.find?_eq_none_iff.mp hnone o ho hkey

/-! ## Group events -/

theorem Acts.kill (hs : s.Ok) (hi : i < s.curGroup) (hr : s.Registered i procid)
    (hg : groupid = i) (signo : ℤ) :
    Acts s [.kill procid signo, .del i procid]
      ((s.emit (.kill procid signo)).delProc groupid procid) := by
  subst hg
  have hkill : Acts s [.kill procid signo] (s.emit (.kill procid signo)) :=
    .emit hs (fun _ => rfl) trivial
  exact hkill.trans (.delProc hkill.ok hi hr)

theorem Acts.procupLoop (hs : s.Ok) (hi : i < s.curGroup) (k left : ℕ) :
    ∃ es, Acts s es (procupLoop i k left [] s) := by
  generalize hdrained : ([] : List (List TProcMonMsg)) = drained
  fun_induction MonSrv.procupLoop i k left drained s with
  | case1 => exact ⟨[], .refl hs⟩
  | case2 => exact ⟨[], .refl hs⟩
  | case3 k left drained s g hbucket hleft ih => exact ih hs hi hdrained
  | case4 k left drained s g o os hbucket s₁ s₂ s₃ hlast =>
      subst hdrained
      have ho : o ∈ g.bucket (BUCKET_SIZE - (k + 1)) := by simp [hbucket]
      exact ⟨_, .kill hs hi (registered_of_mem hs hi ho) (hs i hi).groupid _⟩
  | case5 k left drained s g o os hbucket s₁ s₂ s₃ hlast ih =>
      subst hdrained
      have ho : o ∈ g.bucket (BUCKET_SIZE - (k + 1)) := by simp [hbucket]
      have hkill : Acts s _ s₃ :=
        .kill hs hi (registered_of_mem hs hi ho) (hs i hi).groupid SIGUSR1
      obtain ⟨es, hrest⟩ := ih hkill.ok (hkill.curGroup ▸ hi) rfl
      exact ⟨_, hkill.trans hrest⟩

theorem Acts.procup (hs : s.Ok) (hi : i < s.curGroup) (diff now : ℤ) :
    ∃ es, Acts s es (s.procup i diff [] now) := by
  obtain ⟨es, hloop⟩ := Acts.procupLoop hs hi BUCKET_SIZE diff.toNat
  exact ⟨_, hloop.trans (.setAdjust hloop.ok i now)⟩

theorem Acts.procdown (hs : s.Ok) (i : ℕ) (diff now : ℤ) :
    ∃ es, Acts s es (s.procdown i diff now) := by
  obtain ⟨es, hfork⟩ := Acts.doFork hs (s.procGroups i).groupinfo diff
  exact ⟨_, hfork.trans (.setAdjust hfork.ok i now)⟩

theorem Acts.notifyGroup (hs : s.Ok) (i : ℕ) : ∃ es, Acts s es (s.notifyGroup i) := by
  rw [MonSrv.notifyGroup]
  split
  · exact ⟨_, .emit hs (fun _ => rfl) trivial⟩
  · exact ⟨_, .refl hs⟩

theorem Acts.checkGroup (hs : s.Ok) (hi : i < s.curGroup) {a : PassAnswer} (ha : a.drained = []) :
    ∃ es, Acts s es (s.checkGroup i a) := by
  obtain ⟨es, hnotify⟩ := Acts.notifyGroup hs i
  have hi' : i < (s.notifyGroup i).curGroup := hnotify.curGroup ▸ hi
  rw [MonSrv.checkGroup, ha]
  split
  next =>
    obtain ⟨es', hdown⟩ := Acts.procdown hnotify.ok i _ _
    exact ⟨_, hnotify.trans hdown⟩
  next =>
    split
    next =>
      obtain ⟨es', hup⟩ := Acts.procup hnotify.ok hi' _ _
      exact ⟨_, hnotify.trans hup⟩
    next =>
      split
      next =>
        obtain ⟨es', hup⟩ := Acts.procup hnotify.ok hi' 1 a.adjust
        exact ⟨_, hnotify.trans hup⟩
      next => exact ⟨_, .refl hs⟩

/-! ## Process events -/

theorem Acts.order (hs : s.Ok) {proc : TProcInfo} (hi : proc.groupid < s.curGroup)
    (hr : s.Registered proc.groupid proc.procid) (event status : ℕ) :
    ∃ es, Acts s es (s.order proc event status) := by
  have hmod : Acts s [] (s.modProc proc.groupid proc.procid
      fun o => { o with status := o.status ||| status }) := .modProc hs _ _ fun _ => rfl
  refine ⟨_, hmod.trans (.emit hmod.ok (fun _ => rfl) ?_)⟩
  rw [hmod.table]
  exact isSome_table hi hr

theorem Acts.procdead (hs : s.Ok) {proc : TProcInfo} (hi : proc.groupid < s.curGroup)
    (hr : s.Registered proc.groupid proc.procid) : ∃ es, Acts s es (s.procdead proc []) := by
  have hkill := Acts.kill hs hi hr rfl (s.procGroups proc.groupid).groupinfo.exitsignal
  obtain ⟨es, hfork⟩ := Acts.doFork hkill.ok _ 1
  refine ⟨_, (hkill.trans hfork).trans (.setGroup ?_ rfl)⟩
  refine hfork.ok.setGroup fun hlt => ?_
  have hold := hfork.ok proc.groupid hlt
  exact ⟨hold.groupid, hold.buckets, hold.group, hold.count⟩

/-- An overloaded process gets an order, and its group another process where it is open. -/
theorem Acts.overload (hs : s.Ok) {proc : TProcInfo} (hi : proc.groupid < s.curGroup)
    (hr : s.Registered proc.groupid proc.procid) (now : ℤ) :
    ∃ es, Acts s es (s.overload proc now) := by
  obtain ⟨es, horder⟩ := Acts.order hs hi hr 2 1
  rw [MonSrv.overload]
  split
  · obtain ⟨es', hfork⟩ := Acts.doFork horder.ok _ 1
    exact ⟨_, (horder.trans hfork).trans (.setAdjust hfork.ok _ now)⟩
  · exact ⟨_, horder⟩

theorem Acts.order_if (hs : s.Ok) {proc : TProcInfo} (hi : proc.groupid < s.curGroup)
    (hr : s.Registered proc.groupid proc.procid) (c : Bool) (event status : ℕ) :
    ∃ es, Acts s es (if c then s.order proc event status else s) ∧
      (if c then s.order proc event status else s).Registered proc.groupid proc.procid := by
  cases c with
  | true =>
      obtain ⟨es, horder⟩ := Acts.order hs hi hr event status
      exact ⟨es, horder, (Grows.order s proc event status).registered hr⟩
  | false => exact ⟨[], .refl hs, hr⟩

theorem Acts.overload_if (hs : s.Ok) {proc : TProcInfo} (hi : proc.groupid < s.curGroup)
    (hr : s.Registered proc.groupid proc.procid) (c : Bool) (now : ℤ) :
    ∃ es, Acts s es (if c then s.overload proc now else s) ∧
      (if c then s.overload proc now else s).Registered proc.groupid proc.procid := by
  cases c with
  | true =>
      obtain ⟨es, hover⟩ := Acts.overload hs hi hr now
      rw [if_pos rfl]
      exact ⟨es, hover, (Moves.overload hs hi rfl now).registered rfl hr⟩
  | false => exact ⟨[], .refl hs, hr⟩

theorem Acts.doEvent (hs : s.Ok) {proc : TProcInfo} (hi : proc.groupid < s.curGroup)
    (hr : s.Registered proc.groupid proc.procid) (e : ProcEvent) {a : PassAnswer}
    (ha : a.drained = []) : ∃ es, Acts s es (s.doEvent e proc a).2 := by
  have hmod : Acts s [] (s.modProc proc.groupid proc.procid fun o => { o with status := 0 }) :=
    .modProc hs _ _ fun _ => rfl
  have hgrows : Grows s (s.modProc proc.groupid proc.procid fun o => { o with status := 0 }) :=
    .modProc_info s _ _ fun _ => rfl
  have hr' := hgrows.registered hr
  rw [MonSrv.doEvent, ha]
  generalize (s.modProc proc.groupid proc.procid fun o => { o with status := 0 }) = s₁ at *
  have hi₁ : proc.groupid < s₁.curGroup := hmod.curGroup ▸ hi
  cases e.procdead with
  | true =>
      obtain ⟨es, hdead⟩ := Acts.procdead hmod.ok hi₁ hr'
      exact ⟨_, hmod.trans hdead⟩
  | false =>
      obtain ⟨es₁, hover, hr₁⟩ := Acts.overload_if hmod.ok hi₁ hr' e.overload a.adjust
      have hi₂ := hover.curGroup ▸ hi₁
      obtain ⟨es₂, hsrate, hr₂⟩ := Acts.order_if hover.ok hi₂ hr₁ e.lowsrate 4 2
      have hi₃ := hsrate.curGroup ▸ hi₂
      obtain ⟨es₃, hlatency, hr₃⟩ := Acts.order_if hsrate.ok hi₃ hr₂ e.latency 8 4
      have hi₄ := hlatency.curGroup ▸ hi₃
      obtain ⟨es₄, hmem, -⟩ := Acts.order_if hlatency.ok hi₄ hr₃ e.otfmem 16 8
      exact ⟨_, hmod.trans (hover.trans (hsrate.trans (hlatency.trans hmem)))⟩

theorem Acts.notifyProc (hs : s.Ok) (i : ℕ) (o : TProcObj) (t : ℤ) :
    ∃ es, Acts s es (s.notifyProc i o t) := by
  rw [MonSrv.notifyProc]
  split
  · have hnotify : Acts s [.notify (s.procGroups i).groupinfo.groupid (some o.procid)] _ :=
      .emit hs (fun _ => rfl) trivial
    exact ⟨_, hnotify.trans (.modProc hnotify.ok i o.procid fun _ => rfl)⟩
  · exact ⟨_, .refl hs⟩

theorem Acts.checkProc (hs : s.Ok) (hi : i < s.curGroup) {o : TProcObj}
    (hg : o.procinfo.groupid = i) (hr : s.Registered i o.procid) {a : PassAnswer}
    (ha : a.drained = []) : ∃ es, Acts s es (s.checkProc i o a).2 := by
  subst hg
  have hmod : Acts s [] (s.modProc o.procinfo.groupid o.procid fun o => { o with status := 0 }) :=
    .modProc hs _ _ fun _ => rfl
  have hgrows : Grows s (s.modProc o.procinfo.groupid o.procid fun o => { o with status := 0 }) :=
    .modProc_info s _ _ fun _ => rfl
  rw [MonSrv.checkProc]
  split
  next =>
    obtain ⟨es, hnotify⟩ := Acts.notifyProc hmod.ok o.procinfo.groupid o a.again
    have hreg := (hgrows.trans (.notifyProc _ o.procinfo.groupid o a.again)).registered hr
    obtain ⟨es', hevent⟩ := Acts.doEvent hnotify.ok (hnotify.curGroup ▸ hmod.curGroup ▸ hi) hreg
      (o.procinfo.event (s.procGroups o.procinfo.groupid).groupinfo a) ha
    exact ⟨_, hmod.trans (hnotify.trans hevent)⟩
  next => exact ⟨_, hmod⟩

/-! ## What `do_recv` finds in a check -/

theorem doRecv_headD {drained : List (List TProcMonMsg)}
    (h : ∀ ms ∈ drained, ∀ m ∈ ms, m.srctype % 2 ≠ 1) (s : MonSrv) :
    s.doRecv (drained.headD []) = s := by
  cases drained with
  | nil => rfl
  | cons ms _ => exact doRecv_of_server (h ms List.mem_cons_self)

/-- The killed processes' messages do not matter to who is killed next. -/
theorem procupLoop_of_server {drained : List (List TProcMonMsg)}
    (h : ∀ ms ∈ drained, ∀ m ∈ ms, m.srctype % 2 ≠ 1) (i k left : ℕ) (s : MonSrv) :
    procupLoop i k left drained s = procupLoop i k left [] s := by
  fun_induction MonSrv.procupLoop i k left drained s with
  | case1 => rw [MonSrv.procupLoop]
  | case2 k drained s g hbucket =>
      rw [MonSrv.procupLoop, hbucket]
      rfl
  | case3 k left drained s g hbucket hleft ih =>
      rw [ih h]
      conv_rhs => rw [MonSrv.procupLoop, hbucket]
      exact (if_neg hleft).symm
  | case4 k left drained s g o os hbucket s₁ s₂ s₃ hlast =>
      have hs₃ : s₃ = s₁.delProc g.groupinfo.groupid o.procid :=
        congrArg (fun s : MonSrv => s.delProc _ _) (doRecv_headD h s₁)
      conv_rhs => rw [MonSrv.procupLoop, hbucket]
      exact hs₃.trans (if_pos hlast).symm
  | case5 k left drained s g o os hbucket s₁ s₂ s₃ hlast ih =>
      have hs₃ : s₃ = s₁.delProc g.groupinfo.groupid o.procid :=
        congrArg (fun s : MonSrv => s.delProc _ _) (doRecv_headD h s₁)
      rw [ih fun ms hms => h ms (List.mem_of_mem_tail hms), hs₃]
      conv_rhs => rw [MonSrv.procupLoop, hbucket]
      exact (if_neg hlast).symm

variable {a : PassAnswer}

theorem checkGroup_of_server (h : ∀ ms ∈ a.drained, ∀ m ∈ ms, m.srctype % 2 ≠ 1) (s : MonSrv)
    (i : ℕ) : s.checkGroup i a = s.checkGroup i { a with drained := [] } := by
  simp only [checkGroup, procup, procupLoop_of_server h]

theorem doEvent_of_server (h : ∀ ms ∈ a.drained, ∀ m ∈ ms, m.srctype % 2 ≠ 1) (s : MonSrv)
    (e : ProcEvent) (proc : TProcInfo) :
    s.doEvent e proc a = s.doEvent e proc { a with drained := [] } := by
  simp only [doEvent, procdead, doRecv_headD h, List.headD_nil, doRecv]

theorem checkProc_of_server (h : ∀ ms ∈ a.drained, ∀ m ∈ ms, m.srctype % 2 ≠ 1) (s : MonSrv)
    (i : ℕ) (o : TProcObj) : s.checkProc i o a = s.checkProc i o { a with drained := [] } := by
  simp only [checkProc, doEvent_of_server h]
  rfl

end MonSrv

/-! ## A turn of a check -/

namespace Pass

open MonSrv

variable {p : Pass} {a : PassAnswer}

theorem acts_enter (hp : p.srv.Ok) (hi : p.i < p.srv.curGroup) (ha : a.drained = []) :
    ∃ es, Acts p.srv es (p.enter a) := by
  rw [enter]
  split
  next =>
    obtain ⟨es, hcheck⟩ := Acts.checkGroup hp hi ha
    exact ⟨_, hcheck.trans (.setLastCheck hcheck.ok p.i _)⟩
  next => exact ⟨_, .refl hp⟩

/-- A turn of `do_check` changes the table by its effects only. -/
theorem acts_step (hp : p.Inv) (ha : a.drained = []) :
    ∃ es, Acts p.srv es (p.step a).srv := by
  rw [Pass.step]
  split
  next => exact ⟨_, .refl hp.ok⟩
  next hlt =>
    have hi : p.i < p.srv.curGroup := by omega
    split
    next =>
      split
      next => exact ⟨_, .refl hp.ok⟩
      next => exact acts_enter hp.ok hi ha
    next hchecked =>
      have htodo := hp.todo (by simpa using hchecked)
      split
      next =>
        split
        next => exact ⟨_, .refl hp.ok⟩
        next => exact ⟨_, .refl hp.ok⟩
      next o todo hcons =>
        have ho := htodo o (by simp [hcons])
        obtain ⟨es, hcheck⟩ := Acts.checkProc hp.ok hi ho.1 ho.2 ha
        split
        next s hres =>
          rw [hres] at hcheck
          exact ⟨es, hcheck⟩
        next s hres =>
          rw [hres] at hcheck
          exact ⟨es, hcheck⟩

theorem enter_of_server (h : ∀ ms ∈ a.drained, ∀ m ∈ ms, m.srctype % 2 ≠ 1) :
    p.enter a = p.enter { a with drained := [] } := by
  rw [enter, MonSrv.checkGroup_of_server h]
  rfl

/-- The orders that `do_recv` throws away in a turn do not matter to it. -/
theorem step_of_server (h : ∀ ms ∈ a.drained, ∀ m ∈ ms, m.srctype % 2 ≠ 1) :
    p.step a = p.step { a with drained := [] } := by
  simp only [step, enter_of_server h, MonSrv.checkProc_of_server h]

end Pass

end Spp
