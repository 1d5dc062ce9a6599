import Spp.Lib.Run
import Spp.Proxy.Events

/-!
# Every event once, and in order

What the proxy puts into the queue of a group, the worker of the group presents poll by poll: an
event to the handler for its kind, a packet to `spp_handle_process`.  This fails for an overload,
whose handler is never called; behind a packet that is too long for the receiver's buffer; and
where a message that is a head only is taken at the end of the block.

## Main definitions

* `Item` — what the proxy forwards, and what the worker has to make of it.
* `FrontStep` — the queues of what is forwarded.
* `forwarded`, `invoked` — what a run has put in for a group, and what its worker has called.
* `FrontEnd.Faithful` — each item has been presented once, in order, or is pending.
* `FrontEnd.Sound` — a step that reaches none of the faults.
-/

namespace Spp

/-- What the proxy forwards to a group. -/
inductive Item
  | event (et : EventType) (flow : UInt32) (data : { bs : List UInt8 // bs.length ≤ readBufferSize })
  | packet (flow : UInt32) (pkg : { b : Blob // 0 < b.len })

/-- The type under which an event travels. -/
def EventType.extType : EventType → UInt8
  | .connected => extTypeConnected
  | .disconnect => extTypeDisconnect
  | .overload => extTypeOverload
  | .timeout => extTypeTimeout

namespace Item

def flow : Item → UInt32
  | .event _ flow _ => flow
  | .packet flow _ => flow

def blob : Item → BlobType
  | .event et _ data => ⟨⟨data.1, [], readBuffer_lt data, Blob.nil_lt⟩, et.extType⟩
  | .packet _ pkg => ⟨pkg.1, extTypeConnextinfo⟩

def msg (item : Item) (tval : Timeval) : Msg := item.blob.msg item.flow tval

/-- What the worker has to call. -/
def presented (worker : DefaultWorker) : Item → List Invocation
  | .event et flow data => if worker.eventFuncList et then [.event et flow data.1] else []
  | .packet flow pkg =>
      [.process flow pkg.1.data extTypeConnextinfo pkg.1.extdata]

/-- The worker gets the item right: it is no overload that has a handler, and no packet that is
too long for the receiver's buffer. -/
def Safe (worker : DefaultWorker) : Item → Prop
  | .event et _ _ => et = .overload → worker.eventFuncList .overload = false
  | .packet _ pkg => pkg.1.len ≤ maxBlobDataLen

end Item

variable {n : ℕ}

/-- What a step of the proxy forwards. -/
def FrontOp.item? : FrontOp n → Option Item
  | .event et ev => some (.event et ev.flow ev.data)
  | .packet _ flow pkg _ => some (.packet flow pkg)
  | .poll _ => none

namespace FrontEnd

variable (fe : FrontEnd n)

/-- The groups that the step resolves to. -/
def Routed : FrontOp n → Fin n → Prop
  | .event et ev, g => fe.proxy.sppHandleEventRoute = true ∧
      (ev.routeNo = 0 ∨ ev.routeNo = g + 1) ∧
      (et = .connected → ¬ fe.proxy.Limited ev.remoteip)
  | .packet routeNo _ _ _, g => routeNo = g + 1
  | .poll _, _ => False

/-- The queues of what is forwarded.  A group that the step resolves to takes the item, if it has
room; a poll takes the oldest item of its group, and the worker presents it. -/
inductive FrontStep : (Fin n → List Item) → FrontOp n → FrontOut n → (Fin n → List Item) → Prop
  | forward (ps) (op) (item) (rets) (hitem : op.item? = some item)
      (hrouted : ∀ g, fe.Routed op g → rets g = some 0 ∨ rets g = some commuErrMqFull)
      (hother : ∀ g, ¬ fe.Routed op g → rets g = none) :
      FrontStep ps op (.sent rets) fun g => if rets g = some 0 then ps g ++ [item] else ps g
  | deliver (ps) (g) (item) (rest) (hps : ps g = item :: rest) :
      FrontStep ps (.poll g) (.polled (some 0) (item.presented (fe.worker g)))
        (Function.update ps g rest)
  | empty (ps) (g) (hps : ps g = []) :
      FrontStep ps (.poll g) (.polled (some commuErrMqEmpty) []) ps

end FrontEnd

/-- The items that a run has put into the queue of a group. -/
def forwarded (g : Fin n) (tr : List (FrontOp n × FrontOut n)) : List Item :=
  tr.flatMap fun
    | (op, .sent rets) => if rets g = some 0 then op.item?.toList else []
    | _ => []

/-- What the worker of a group has called. -/
def invoked (g : Fin n) (tr : List (FrontOp n × FrontOut n)) : List Invocation :=
  tr.flatMap fun
    | (.poll g', .polled _ calls) => if g' = g then calls else []
    | _ => []

namespace FrontEnd

variable (fe : FrontEnd n)

/-- Fresh queues. -/
def start (shmsize : Fin n → ShmSize) (block : Fin n → ℕ → UInt8) : Fin n → ShmMQ :=
  fun g => .init (shmsize g) (block g)

/-- A run is one of the queues of items, and for each group what the worker has called is what it
has to call for the items that have been put in, but for those that are still pending. -/
def Faithful (shmsize : Fin n → ShmSize) (block : Fin n → ℕ → UInt8) (ops : List (FrontOp n)) :
    Prop :=
  ∃ pending, Run.Allows fe.FrontStep (fun _ => []) (Run.trace fe.step (start shmsize block) ops)
      pending ∧
    ∀ g, (forwarded g (Run.trace fe.step (start shmsize block) ops)).flatMap
        (·.presented (fe.worker g)) =
      invoked g (Run.trace fe.step (start shmsize block) ops) ++
        (pending g).flatMap (·.presented (fe.worker g))

/-- The worker gets right what is put in, and no poll is made at the end of the block. -/
def Sound (ctor : Fin n → ShmMQ) : FrontOp n → Prop
  | .poll g => ¬ (ctor g).AtBlockEnd
  | op => ∀ item, op.item? = some item → ∀ g, fe.Routed op g →
      item.Safe (fe.worker g) ∨ (ctor g).NoRoom item.blob

/-! ## What is in the queues -/

end FrontEnd

/-- The queue stores the items, which the worker gets right. -/
def Carries (worker : DefaultWorker) (q : ShmMQ) (items : List Item) : Prop :=
  ∃ ms : List (Item × Timeval), ShmMQ.Stores q (ms.map fun e => e.1.msg e.2) ∧
    items = ms.map Prod.fst ∧ ∀ e ∈ ms, e.1.Safe worker

variable {worker : DefaultWorker} {q : ShmMQ} {items : List Item} {item : Item} {tval : Timeval}

theorem carries_init (worker : DefaultWorker) (shmsize : ShmSize) (block : ℕ → UInt8) :
    Carries worker (.init shmsize block) [] :=
  ⟨[], ⟨0, 0, ShmMQ.holds_init shmsize block⟩, rfl, by simp⟩

/-- The receiver's buffer takes what the worker gets right. -/
theorem Item.Safe.len_le (h : item.Safe worker) : item.blob.blob.len ≤ maxBlobDataLen := by
  cases item with
  | event et flow data => exact data.2.trans (by decide)
  | packet flow pkg => exact h

/-- The callback of `poll` calls what has to be called. -/
theorem Item.Safe.ator (h : item.Safe worker) (tval : Timeval) :
    worker.ator ⟨cbOf (item.msg tval).msgtype, (item.msg tval).flow, (item.msg tval).blob.data,
      (item.msg tval).msgtype, (item.msg tval).blob.extdata⟩ = item.presented worker := by
  cases item with
  | event et flow data =>
      cases et with
      | connected => rfl
      | disconnect => rfl
      | timeout => rfl
      | overload =>
          -- there is no handler, so that none is missed
          have hnone : worker.eventFuncList .overload = false := h rfl
          change worker.atorOverload _ = _
          simp [DefaultWorker.atorOverload, presented, hnone]
  | packet flow pkg =>
      have hlen : 0 < pkg.1.data.length := pkg.2
      change DefaultWorker.atorRecvdata _ = _
      simp [DefaultWorker.atorRecvdata, presented, msg, blob, BlobType.msg, Item.flow, hlen]

/-- A group that has room takes the item behind the others. -/
theorem Carries.sendto (h : Carries worker q items) (tval : Timeval) (hsafe : item.Safe worker)
    (hroom : ¬ q.NoRoom item.blob) :
    (q.sendto item.flow item.blob tval).2 = 0 ∧
      Carries worker (q.sendto item.flow item.blob tval).1 (items ++ [item]) := by
  obtain ⟨ms, hms, rfl, hall⟩ := h
  obtain ⟨hret, hstores⟩ := hms.sendto item.flow tval hroom hsafe.len_le
  refine ⟨hret, ms ++ [(item, tval)], ?_, by simp, ?_⟩
  · simpa [Item.msg] using hstores
  · intro e he
    cases List.mem_append.mp he with
    | inl hold => exact hall e hold
    | inr hlast =>
        rw [List.mem_singleton.mp hlast]
        exact hsafe

theorem Carries.poll_nil (h : Carries worker q []) : q.poll = (q, ⟨some commuErrMqEmpty, none⟩) := by
  obtain ⟨ms, hms, hnil, -⟩ := h
  rw [List.nil_eq, List.map_eq_nil_iff] at hnil
  subst hnil
  exact hms.poll_nil

/-- A poll takes the oldest item, and the worker presents it. -/
theorem Carries.poll_cons (h : Carries worker q (item :: items)) (hend : ¬ q.AtBlockEnd) :
    (∃ c, q.poll.2 = ⟨some 0, some c⟩ ∧ worker.ator c = item.presented worker) ∧
      Carries worker q.poll.1 items := by
  obtain ⟨ms, hms, hitems, hall⟩ := h
  cases ms with
  | nil => cases hitems
  | cons e ms =>
      rw [List.map_cons, List.cons.injEq] at hitems
      obtain ⟨rfl, rfl⟩ := hitems
      obtain ⟨hpolled, hrest⟩ := hms.poll_cons hend
      refine ⟨⟨_, hpolled, (hall e List.mem_cons_self).ator e.2⟩, ms, hrest, rfl, ?_⟩
      intro e' he'
      exact hall e' (List.mem_cons_of_mem e he')

namespace FrontEnd

variable {fe : FrontEnd n} {ctor : Fin n → ShmMQ} {ps : Fin n → List Item}

/-- Every queue stores its items. -/
def Stores (fe : FrontEnd n) (ctor : Fin n → ShmMQ) (ps : Fin n → List Item) : Prop :=
  ∀ g, Carries (fe.worker g) (ctor g) (ps g)

/-! ## One step -/

/-- The blob has been sent to the groups that are reached, and to no other. -/
structure SentTo (ctor : Fin n → ShmMQ) (reached : Fin n → Prop) (flow : UInt32) (b : BlobType)
    (tval : Fin n → Timeval) (sent : Sent n) : Prop where
  queue : ∀ g, reached g → sent.1 g = ((ctor g).sendto flow b (tval g)).1
  ret : ∀ g, reached g → sent.2 g = some ((ctor g).sendto flow b (tval g)).2
  kept : ∀ g, ¬ reached g → sent.1 g = ctor g
  none : ∀ g, ¬ reached g → sent.2 g = none

theorem sentTo_sendtoAll {reached reached' : Fin n → Prop} [DecidablePred reached]
    (h : ∀ g, reached g ↔ reached' g) (flow : UInt32) (b : BlobType) (tval : Fin n → Timeval) :
    SentTo ctor reached' flow b tval (DefaultProxy.sendtoAll ctor reached flow b tval) := by
  constructor
  all_goals
    intro g hg
    simp [DefaultProxy.sendtoAll, h, hg]

/-- Where no group is reached nothing happens. -/
theorem sentTo_nobody {reached : Fin n → Prop} (h : ∀ g, ¬ reached g) (flow : UInt32)
    (b : BlobType) (tval : Fin n → Timeval) : SentTo ctor reached flow b tval (ctor, fun _ => none) where
  queue g hg := absurd hg (h g)
  ret g hg := absurd hg (h g)
  kept _ _ := rfl
  none _ _ := rfl

/-- A callback sends its blob to the groups that the event resolves to. -/
theorem sentTo_atorEvent (et : EventType) (ev : FrontEvent n) :
    SentTo ctor (fe.Routed (.event et ev)) ev.flow (ev.blob et.extType) ev.tval
      (atorEvent fe.proxy ctor et ev) := by
  have hgroup : ∀ g : Fin n, DefaultProxy.EventGroup ev.routeNo g ↔
      ev.routeNo = 0 ∨ ev.routeNo = g + 1 := by
    intro g
    have hg := g.2
    simp only [DefaultProxy.EventGroup]
    omega
  have hevent : (et = .connected → ¬ fe.proxy.Limited ev.remoteip) →
      SentTo ctor (fe.Routed (.event et ev)) ev.flow (ev.blob et.extType) ev.tval
        (fe.proxy.atorEvent ctor et.extType ev) := by
    intro hlimit
    by_cases hroute : fe.proxy.sppHandleEventRoute = true
    · rw [DefaultProxy.atorEvent, if_pos hroute]
      refine sentTo_sendtoAll ?_ ev.flow _ ev.tval
      intro g
      rw [hgroup]
      exact ⟨fun h => ⟨hroute, h, hlimit⟩, fun h => h.2.1⟩
    · rw [DefaultProxy.atorEvent, if_neg hroute]
      exact sentTo_nobody (fun g hg => hroute hg.1) _ _ _
  cases et with
  | connected =>
      by_cases hlimit : fe.proxy.Limited ev.remoteip
      · have hdenied : atorEvent fe.proxy ctor .connected ev = (ctor, fun _ => none) :=
          if_pos hlimit
        rw [hdenied]
        exact sentTo_nobody (fun g hg => hg.2.2 rfl hlimit) _ _ _
      · have hallowed : atorEvent fe.proxy ctor .connected ev =
            fe.proxy.atorEvent ctor extTypeConnected ev := if_neg hlimit
        rw [hallowed]
        exact hevent fun _ => hlimit
  | disconnect => exact hevent nofun
  | overload => exact hevent nofun
  | timeout => exact hevent nofun

/-- A step that sends an item to the groups that it resolves to is a step of the queues. -/
theorem Stores.forward (h : fe.Stores ctor ps) {op : FrontOp n} (item : Item)
    (hitem : op.item? = some item) {tval : Fin n → Timeval} {sent : Sent n}
    (hsound : ∀ g, fe.Routed op g → item.Safe (fe.worker g) ∨ (ctor g).NoRoom item.blob)
    (hsent : SentTo ctor (fe.Routed op) item.flow item.blob tval sent) :
    ∃ ps', fe.FrontStep ps op (.sent sent.2) ps' ∧ fe.Stores sent.1 ps' := by
  have hgroup : ∀ g, fe.Routed op g →
      sent.2 g = some 0 ∧ Carries (fe.worker g) (sent.1 g) (ps g ++ [item]) ∨
        sent.2 g = some commuErrMqFull ∧ sent.1 g = ctor g := by
    intro g hg
    rw [hsent.queue g hg, hsent.ret g hg]
    by_cases hroom : (ctor g).NoRoom item.blob
    · right
      rw [ShmMQ.sendto_of_noRoom hroom]
      exact ⟨rfl, rfl⟩
    · left
      have hsafe := (hsound g hg).resolve_right hroom
      have hstored := (h g).sendto (tval g) hsafe hroom
      rw [hstored.1]
      exact ⟨rfl, hstored.2⟩
  refine ⟨_, .forward ps op item sent.2 hitem ?_ hsent.none, ?_⟩
  · intro g hg
    exact (hgroup g hg).imp And.left And.left
  · intro g
    dsimp only
    by_cases hg : fe.Routed op g
    · cases hgroup g hg with
      | inl hstored =>
          rw [if_pos hstored.1]
          exact hstored.2
      | inr hfull =>
          rw [if_neg (by rw [hfull.1]; decide), hfull.2]
          exact h g
    · rw [if_neg (by rw [hsent.none g hg]; decide), hsent.kept g hg]
      exact h g

theorem step_refines (ctor : Fin n → ShmMQ) (ps : Fin n → List Item) (op : FrontOp n)
    (h : fe.Stores ctor ps) (hsound : fe.Sound ctor op) :
    ∃ ps', fe.FrontStep ps op (fe.step ctor op).2 ps' ∧ fe.Stores (fe.step ctor op).1 ps' := by
  cases op with
  | event et ev =>
      exact h.forward (.event et ev.flow ev.data) rfl (hsound _ rfl)
        (sentTo_atorEvent et ev)
  | packet routeNo flow pkg tval =>
      refine h.forward (.packet flow pkg) rfl (hsound _ rfl) (sentTo_sendtoAll ?_ _ _ _)
      intro g
      exact eq_comm
  | poll g =>
      cases hps : ps g with
      | nil =>
          have hpoll := (hps ▸ h g).poll_nil
          have hstep : fe.step ctor (.poll g) = (ctor, .polled (some commuErrMqEmpty) []) := by
            simp [step, hpoll]
          rw [hstep]
          exact ⟨ps, .empty ps g hps, h⟩
      | cons item rest =>
          obtain ⟨⟨c, hpolled, hcalls⟩, hrest⟩ := (hps ▸ h g).poll_cons hsound
          have hout : (fe.step ctor (.poll g)).2 =
              .polled (some 0) (item.presented (fe.worker g)) := by
            simp [step, hpolled, hcalls]
          rw [hout]
          refine ⟨_, .deliver ps g item rest hps, ?_⟩
          intro g'
          change Carries _ (Function.update ctor g (ctor g).poll.1 g') _
          by_cases hg : g' = g
          · rw [hg, Function.update_self, Function.update_self]
            exact hrest
          · rw [Function.update_of_ne hg, Function.update_of_ne hg]
            exact h g'

/-! ## Runs -/

/-- What has been called and what is pending is what was pending and what has been put in. -/
theorem FrontStep.conserved {ps' : Fin n → List Item} {tr : List (FrontOp n × FrontOut n)}
    (h : Run.Allows fe.FrontStep ps tr ps') (g : Fin n) :
    (ps g ++ forwarded g tr).flatMap (·.presented (fe.worker g)) =
      invoked g tr ++ (ps' g).flatMap (·.presented (fe.worker g)) := by
  induction h with
  | nil => simp [forwarded, invoked]
  | @cons _ _ _ op _ _ hstep _ ih =>
      cases hstep with
      | forward _ item rets hitem hrouted hother =>
          have hrest : ∀ tr, invoked g ((op, .sent rets) :: tr) = invoked g tr := by
            intro tr
            cases op <;> rfl
          rw [hrest, ← ih]
          by_cases hzero : rets g = some 0
          · simp [forwarded, hzero, hitem]
          · simp [forwarded, hzero]
      | deliver g' item rest hps =>
          by_cases hg : g' = g
          · subst hg
            simpa [forwarded, invoked, hps] using ih
          · simpa [forwarded, invoked, hg, Ne.symm hg] using ih
      | empty g' hps => simpa [forwarded, invoked] using ih

theorem stores_start (fe : FrontEnd n) (shmsize : Fin n → ShmSize) (block : Fin n → ℕ → UInt8) :
    fe.Stores (start shmsize block) fun _ => [] :=
  fun g => carries_init (fe.worker g) (shmsize g) (block g)

/-- In a run that reaches none of the faults, every event and every packet that the proxy puts
into the queue of a group is presented by the worker once, as what it is, and in order. -/
theorem faithful_run (fe : FrontEnd n) (shmsize : Fin n → ShmSize) (block : Fin n → ℕ → UInt8)
    (ops : List (FrontOp n)) (hsound : Run.Always fe.step fe.Sound (start shmsize block) ops) :
    fe.Faithful shmsize block ops := by
  obtain ⟨pending, hallows, -⟩ := Run.simulates step_refines (fe.stores_start shmsize block) hsound
  exact ⟨pending, hallows, fun g => FrontStep.conserved hallows g⟩

/-- One group, whose worker has a handler for every event. -/
def oneGroup : FrontEnd 1 := ⟨⟨true, .disable, []⟩, fun _ => ⟨fun _ => true⟩⟩

/-- An event for every group. -/
def announce (et : EventType) (flow : UInt32) : FrontOp 1 :=
  .event et ⟨flow, ⟨[], by decide⟩, 0, 0, fun _ => ⟨0, 0⟩⟩

/-- A connection is opened, sends a packet, and is lost. -/
theorem faithful_connection : oneGroup.Faithful (fun _ => ⟨200, by decide⟩) (fun _ _ => 0)
    [announce .connected 5, .packet 1 5 ⟨⟨[1], [2], by decide, by decide⟩, by decide⟩ ⟨0, 0⟩,
      .poll 0, announce .disconnect 5, .poll 0, .poll 0, .poll 0] := by
  refine faithful_run oneGroup _ _ _ ⟨?_, ?_, ?_, ?_, ?_, ?_, ?_, trivial⟩
  · rintro item ⟨⟩ g -
    exact .inl nofun
  · rintro item ⟨⟩ g -
    exact .inl (by change 1 ≤ maxBlobDataLen; decide)
  · change ¬ _
    decide +kernel
  · rintro item ⟨⟩ g -
    exact .inl nofun
  all_goals
    change ¬ _
    decide +kernel

/-- An overload is taken out of the queue, and no handler is called. -/
theorem not_faithful_overload :
    ¬ oneGroup.Faithful (fun _ => ⟨200, by decide⟩) (fun _ _ => 0) [announce .overload 0, .poll 0] := by
  rintro ⟨pending, hallows, -⟩
  have hsent : (oneGroup.step (start (fun _ => ⟨200, by decide⟩) fun _ _ => 0)
      (announce .overload 0)).2 = .sent fun _ => some 0 := by
    apply congrArg FrontOut.sent
    funext g
    rw [Subsingleton.elim g 0]
    decide +kernel
  have hpolled : (oneGroup.step (oneGroup.step (start (fun _ => ⟨200, by decide⟩) fun _ _ => 0)
      (announce .overload 0)).1 (.poll 0)).2 = .polled (some 0) [] := rfl
  cases hallows with
  | cons hforward hrest =>
    rw [hsent] at hforward
    cases hforward with
    | forward _ item _ hitem =>
      cases hitem
      cases hrest with
      | cons hpoll _ =>
        rw [hpolled] at hpoll
        generalize hcalls : ([] : List Invocation) = calls at hpoll
        cases hpoll with
        | deliver _ item rest hps =>
            rw [if_pos rfl, List.nil_append, List.cons.injEq] at hps
            rw [← hps.1] at hcalls
            cases hcalls

end FrontEnd

end Spp
