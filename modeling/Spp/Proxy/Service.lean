import Spp.Proxy.Once
import Spp.Sock.Stream

/-!
# Requests and answers

The whole of a service: the proxy puts events and packets into the queue of a group, the workers
of the group take them from there, one each time, and what the plugin of a worker sends while it
works on one goes through the group's second queue back to the proxy, which sends it on by flow.
The steps of all processes come in any order.  A worker that has been told to by its plugin
closes the connection with a blob of length 0.

The proxy registers `CB_RECVDATA` only with its connectors.  A poll of the proxy goes on until
the queue is empty, so that it is as many steps here.  The callbacks of its acceptor close
connections at most; what the plugin does in the proxy is left out, and so are the statistics
and the log.

## Main definitions

* `Plugin`, `atWork` — what a worker sends when it has taken a message.
* `Service`, `ServiceOp`, `Service.step` — the processes, the queues and one step.
* `Accounted` — what has become of everything that has been put in.
-/

namespace Spp

/-- What a plugin sends for an invocation, and what it returns. -/
structure Work where
  sends : List (UInt32 × BlobType)
  ret : ℤ

/-- The functions of the plugin in a worker, which share a state. -/
abbrev Plugin (υ : Type) := υ → Invocation → υ × Work

/-- The blob that asks for a connection to be closed. -/
def rspblob : BlobType := ⟨⟨[], [], Payload.nil_lt, Blob.nil_lt⟩, extTypeNone⟩

/-- What is sent for one invocation. -/
def atWork {υ : Type} (plugin : Plugin υ) (u : υ) (inv : Invocation) :
    υ × List (UInt32 × BlobType) :=
  match inv, plugin u inv with
  | .process flow _ _ _, (u, work) =>
      (u, if work.ret = 0 then work.sends else work.sends ++ [(flow, rspblob)])
  | .event _ _ _, (u, work) => (u, work.sends)

/-- What is sent for the invocations of a poll. -/
def workAll {υ : Type} (plugin : Plugin υ) (u : υ) :
    List Invocation → υ × List (UInt32 × BlobType)
  | [] => (u, [])
  | inv :: invs =>
      let (u, sends) := atWork plugin u inv
      let (u, rest) := workAll plugin u invs
      (u, sends ++ rest)

/-- A worker: the state of its plugin, and the calls of `sendto` that are still to be made. -/
structure Hand (υ : Type) where
  user : υ
  sends : List (UInt32 × BlobType)

/-- The proxy's acceptor with the state of its callbacks, the two queues of each group, and the
workers. -/
structure Service (n m : ℕ) (σ υ : Type) where
  sock : SockCommu
  user : σ
  req : Fin n → ShmMQ
  rsp : Fin n → ShmMQ
  hand : Fin n → Fin m → Hand υ

/-- A step: of the acceptor, of the proxy that puts something into the queues of the groups, of
a worker that takes a message or sends one, and of the proxy that takes an answer. -/
inductive ServiceOp (n m : ℕ)
  | front (ev : Event)
  | request (op : FrontOp n)
  | take (g : Fin n) (w : Fin m)
  | reply (g : Fin n) (w : Fin m) (tval : Timeval)
  | deliver (g : Fin n) (k k' : KSend) (alloc : Alloc) (now : ℤ)

/-- What a step shows. -/
inductive ServiceOut (n : ℕ)
  | nothing
  | sent (rets : Fin n → Option ℤ)
  | taken (calls : List Invocation) (sends : List (UInt32 × BlobType))
  | replied (flow : UInt32) (b : BlobType) (ret : ℤ)
  | delivered (c : Callback) (ret : Option ℤ)

/-- The parts that do not change: the plugin's side of the proxy and of the workers, the
callbacks of the acceptor. -/
structure Setup (n : ℕ) (σ υ : Type) where
  fe : FrontEnd n
  h : Handler σ
  plugin : Plugin υ

namespace Service

variable {n m : ℕ} {σ υ : Type}

/-- The proxy's `ctor_recvdata`, for the type that it is registered for; the code is what the
acceptor's `sendto` returns. -/
def ctorRecvdata (sock : SockCommu) (c : Callback) (k k' : KSend) (alloc : Alloc) (now : ℤ) :
    SockCommu × Option ℤ :=
  if c.cb = .recvdata then
    -- a length that has been received is an `int`
    if hlen : c.data.length < 2 ^ 31 then
      let (sock, ret) := sock.sendto ⟨c.flow.toNat, ⟨c.data, hlen⟩, k, k', alloc, now, []⟩
      (sock, some ret)
    else (sock, none)
  else (sock, none)

/-- One step. -/
def step (su : Setup n σ υ) (s : Service n m σ υ) :
    ServiceOp n m → Service n m σ υ × ServiceOut n
  | .front ev =>
      let (sock, user) := (SockCommu.step su.h (s.sock, s.user) ev).1
      ({ s with sock, user }, .nothing)
  | .request op =>
      match su.fe.step s.req op with
      | (req, .sent rets) => ({ s with req }, .sent rets)
      -- the polls are those of the workers
      | (_, .polled _ _) => (s, .nothing)
  | .take g w =>
      let hand := s.hand g w
      if hand.sends ≠ [] then (s, .nothing)
      else
        let (q, polled) := (s.req g).poll
        let calls := match polled.call with
          | some c => (su.fe.worker g).ator c
          | none => []
        let (user, sends) := workAll su.plugin hand.user calls
        ({ s with
          req := Function.update s.req g q
          hand := Function.update s.hand g (Function.update (s.hand g) w ⟨user, sends⟩) },
          .taken calls sends)
  | .reply g w tval =>
      match (s.hand g w).sends with
      | [] => (s, .nothing)
      | (flow, b) :: sends =>
          let (q, ret) := (s.rsp g).sendto flow b tval
          ({ s with
            rsp := Function.update s.rsp g q
            hand := Function.update s.hand g
              (Function.update (s.hand g) w { s.hand g w with sends }) },
            .replied flow b ret)
  | .deliver g k k' alloc now =>
      let (q, polled) := (s.rsp g).poll
      let s := { s with rsp := Function.update s.rsp g q }
      match polled.call with
      | some c =>
          let (sock, ret) := ctorRecvdata s.sock c k k' alloc now
          ({ s with sock }, .delivered c ret)
      | none => (s, .nothing)

/-- The start: nothing is open but the listening descriptors, the queues are fresh. -/
def start (sock : SockCommu) (user : σ) (req rsp : Fin n → ShmSize) (block : Fin n → ℕ → UInt8)
    (u : Fin n → Fin m → υ) : Service n m σ υ where
  sock := sock
  user := user
  req := fun g => .init (req g) (block g)
  rsp := fun g => .init (rsp g) (block g)
  hand := fun g w => ⟨u g w, []⟩

end Service

/-! ## The accounts -/

section
variable {n m : ℕ}

/-- What has been put into the queue of a group for its workers. -/
def requested (g : Fin n) (tr : List (ServiceOp n m × ServiceOut n)) : List Item :=
  tr.flatMap fun
    | (.request op, .sent rets) => if rets g = some 0 then op.item?.toList else []
    | _ => []

/-- What the workers of a group have called. -/
def worked (g : Fin n) (tr : List (ServiceOp n m × ServiceOut n)) : List Invocation :=
  tr.flatMap fun
    | (.take g' _, .taken calls _) => if g' = g then calls else []
    | _ => []

/-- What the plugin of a worker wanted to be sent. -/
def wanted (g : Fin n) (w : Fin m) (tr : List (ServiceOp n m × ServiceOut n)) :
    List (UInt32 × BlobType) :=
  tr.flatMap fun
    | (.take g' w', .taken _ sends) => if g' = g ∧ w' = w then sends else []
    | _ => []

/-- What the worker has called `sendto` with. -/
def repliedBy (g : Fin n) (w : Fin m) (tr : List (ServiceOp n m × ServiceOut n)) :
    List (UInt32 × BlobType) :=
  tr.flatMap fun
    | (.reply g' w' _, .replied flow b _) => if g' = g ∧ w' = w then [(flow, b)] else []
    | _ => []

/-- The answers that the second queue of a group has taken, from all workers. -/
def answered (g : Fin n) (tr : List (ServiceOp n m × ServiceOut n)) : List (UInt32 × BlobType) :=
  tr.flatMap fun
    | (.reply g' _ _, .replied flow b ret) => if g' = g ∧ ret = 0 then [(flow, b)] else []
    | _ => []

/-- The callback that an answer makes in the proxy. -/
def answerCall (e : UInt32 × BlobType) : Callback :=
  ⟨cbOf e.2.extType, e.1, e.2.blob.data, e.2.extType, e.2.blob.extdata⟩

/-- The answers that the proxy has taken from the queue of a group. -/
def deliveredFrom (g : Fin n) (tr : List (ServiceOp n m × ServiceOut n)) : List Callback :=
  tr.flatMap fun
    | (.deliver g' _ _ _ _, .delivered c _) => if g' = g then [c] else []
    | _ => []

/-- What the proxy has sent on a flow that found its connection: answers from all groups. -/
def passedOn (f : ℕ) (tr : List (ServiceOp n m × ServiceOut n)) : List UInt8 :=
  tr.flatMap fun
    | (_, .delivered c (some ret)) =>
        if c.flow.toNat = f ∧ ret ≠ -eNotFindfd then c.data else []
    | _ => []

end

namespace Service

variable {n m : ℕ} {σ υ : Type} {su : Setup n σ υ} {c₀ : ConnSet} {s : Service n m σ υ}
  {tr : List (ServiceOp n m × ServiceOut n)}

/-- The faults that a step may not meet: the flow counter does not wrap, nothing is sent on the
acceptor from outside, the workers get right what is put in, the receiver's buffer takes an
answer, and no poll is made at the end of a block. -/
def Sound (su : Setup n σ υ) (s : Service n m σ υ) : ServiceOp n m → Prop
  | .front ev => (∀ c, ev ≠ .sendto c) ∧ NoWrap su.h (s.sock, s.user) ev
  | .request op => su.fe.Sound s.req op
  | .take g _ => ¬ (s.req g).AtBlockEnd
  | .reply g w _ => ∀ e ∈ (s.hand g w).sends.head?,
      e.2.blob.len ≤ maxBlobDataLen ∨ (s.rsp g).NoRoom e.2
  | .deliver g _ _ _ _ => ¬ (s.rsp g).AtBlockEnd

/-- The queue stores the answers. -/
def Queues (q : ShmMQ) (es : List (UInt32 × BlobType)) : Prop :=
  ∃ ms : List ((UInt32 × BlobType) × Timeval),
    ShmMQ.Stores q (ms.map fun e => e.1.2.msg e.1.1 e.2) ∧ es = ms.map Prod.fst

/-- The accounts of a run so far. -/
structure Ledger (su : Setup n σ υ) (c₀ : ConnSet) (s : Service n m σ υ)
    (tr : List (ServiceOp n m × ServiceOut n)) : Prop where
  req : ∃ pending, su.fe.Stores s.req pending ∧ ∀ g,
    (requested g tr).flatMap (·.presented (su.fe.worker g)) =
      worked g tr ++ (pending g).flatMap (·.presented (su.fe.worker g))
  work : ∀ g w, wanted g w tr = repliedBy g w tr ++ (s.hand g w).sends
  rsp : ∃ pending : Fin n → List (UInt32 × BlobType), ∀ g, Queues (s.rsp g) (pending g) ∧
    (answered g tr).map answerCall = deliveredFrom g tr ++ (pending g).map answerCall
  history : History c₀ s.sock.flow s.sock
  counter : s.sock.flow < 2 ^ 32
  said : ∀ f, said f s.sock.calls = passedOn f tr

/-! ### The accounts of a step more -/

theorem requested_snoc (g : Fin n) (tr : List (ServiceOp n m × ServiceOut n)) (x) :
    requested g (tr ++ [x]) = requested g tr ++ requested g [x] := List.flatMap_append

theorem worked_snoc (g : Fin n) (tr : List (ServiceOp n m × ServiceOut n)) (x) :
    worked g (tr ++ [x]) = worked g tr ++ worked g [x] := List.flatMap_append

theorem wanted_snoc (g : Fin n) (w : Fin m) (tr : List (ServiceOp n m × ServiceOut n)) (x) :
    wanted g w (tr ++ [x]) = wanted g w tr ++ wanted g w [x] := List.flatMap_append

theorem repliedBy_snoc (g : Fin n) (w : Fin m) (tr : List (ServiceOp n m × ServiceOut n)) (x) :
    repliedBy g w (tr ++ [x]) = repliedBy g w tr ++ repliedBy g w [x] := List.flatMap_append

theorem answered_snoc (g : Fin n) (tr : List (ServiceOp n m × ServiceOut n)) (x) :
    answered g (tr ++ [x]) = answered g tr ++ answered g [x] := List.flatMap_append

theorem deliveredFrom_snoc (g : Fin n) (tr : List (ServiceOp n m × ServiceOut n)) (x) :
    deliveredFrom g (tr ++ [x]) = deliveredFrom g tr ++ deliveredFrom g [x] := List.flatMap_append

theorem passedOn_snoc (f : ℕ) (tr : List (ServiceOp n m × ServiceOut n)) (x) :
    passedOn f (tr ++ [x]) = passedOn f tr ++ passedOn f [x] := List.flatMap_append

/-- A step that shows nothing in an account leaves it. -/
structure Silent (x : ServiceOp n m × ServiceOut n) : Prop where
  requested : ∀ g, requested g [x] = []
  worked : ∀ g, worked g [x] = []
  wanted : ∀ g w, wanted g w [x] = []
  repliedBy : ∀ g w, repliedBy g w [x] = []
  answered : ∀ g, answered g [x] = []
  deliveredFrom : ∀ g, deliveredFrom g [x] = []
  passedOn : ∀ f, passedOn f [x] = []

theorem silent_nothing (op : ServiceOp n m) : Silent (op, .nothing) := by
  constructor <;> intros <;> cases op <;> rfl

/-- A step that shows nothing, and changes the acceptor only. -/
theorem Ledger.quiet (h : Ledger su c₀ s tr) {x : ServiceOp n m × ServiceOut n} (hx : Silent x)
    {sock : SockCommu} {user : σ} (hhistory : History c₀ sock.flow sock)
    (hcounter : sock.flow < 2 ^ 32) (hsaid : ∀ f, Spp.said f sock.calls = Spp.said f s.sock.calls) :
    Ledger su c₀ { s with sock, user } (tr ++ [x]) := by
  obtain ⟨pending, hstores, hreq⟩ := h.req
  obtain ⟨answers, hrsp⟩ := h.rsp
  refine ⟨⟨pending, hstores, ?_⟩, ?_, ⟨answers, ?_⟩, hhistory, hcounter, ?_⟩
  · intro g
    rw [requested_snoc, worked_snoc, hx.requested, hx.worked, List.append_nil, List.append_nil]
    exact hreq g
  · intro g w
    rw [wanted_snoc, repliedBy_snoc, hx.wanted, hx.repliedBy, List.append_nil, List.append_nil]
    exact h.work g w
  · intro g
    rw [answered_snoc, deliveredFrom_snoc, hx.answered, hx.deliveredFrom, List.append_nil,
      List.append_nil]
    exact hrsp g
  · intro f
    rw [passedOn_snoc, hx.passedOn, List.append_nil, hsaid]
    exact h.said f

theorem Ledger.idle (h : Ledger su c₀ s tr) (op : ServiceOp n m) :
    Ledger su c₀ s (tr ++ [(op, .nothing)]) :=
  h.quiet (silent_nothing op) h.history h.counter fun _ => rfl

/-! ### The queue to the workers -/

theorem Ledger.front (h : Ledger su c₀ s tr) (hmute : su.h.Mute) (ev : Event)
    (hsound : Sound su s (.front ev)) :
    Ledger su c₀ (s.step su (.front ev)).1 (tr ++ [(.front ev, (s.step su (.front ev)).2)]) := by
  obtain ⟨hword, hnext⟩ := Before.step (h := su.h) ⟨h.history, rfl⟩ h.counter s.user ev
  have hsaid : Says (fun f => Spp.said f s.sock.calls)
      (SockCommu.step su.h (s.sock, s.user) ev).1.1 :=
    Says.step (fun _ => rfl) hmute s.user hsound.1
  exact h.quiet (silent_nothing _) (hnext hsound.2) hword hsaid

theorem Ledger.request (h : Ledger su c₀ s tr) (op : FrontOp n)
    (hsound : Sound su s (.request op)) :
    Ledger su c₀ (s.step su (.request op)).1
      (tr ++ [(.request op, (s.step su (.request op)).2)]) := by
  obtain ⟨pending, hstores, hreq⟩ := h.req
  obtain ⟨pending', hstep, hstores'⟩ := FrontEnd.step_refines s.req pending op hstores hsound
  obtain ⟨req', hreq'⟩ : ∃ req', req' = (su.fe.step s.req op).1 := ⟨_, rfl⟩
  generalize hout : (su.fe.step s.req op).2 = out at hstep
  have hres : su.fe.step s.req op = (req', out) := by rw [hreq', ← hout]
  rw [← hreq'] at hstores'
  cases hstep with
  | forward _ item rets hitem hrouted hother =>
      have hserve : s.step su (.request op) = ({ s with req := req' }, .sent rets) := by
        simp only [step, hres]
      rw [hserve]
      obtain ⟨answers, hrsp⟩ := h.rsp
      refine ⟨⟨_, hstores', ?_⟩, ?_, ⟨answers, ?_⟩, h.history, h.counter, ?_⟩
      · intro g
        have hnew : requested g [((.request op : ServiceOp n m), .sent rets)] =
            if rets g = some 0 then [item] else [] := by
          simp [requested, hitem]
        have hworked : worked g [((.request op : ServiceOp n m), ServiceOut.sent rets)] = [] := rfl
        rw [requested_snoc, worked_snoc, hnew, hworked, List.append_nil, List.flatMap_append, hreq g]
        split
        · rw [List.flatMap_append, List.append_assoc]
        · rw [List.flatMap_nil, List.append_nil]
      · intro g w
        rw [wanted_snoc, repliedBy_snoc]
        exact (List.append_nil _).trans ((h.work g w).trans (by simp [repliedBy]))
      · intro g
        rw [answered_snoc, deliveredFrom_snoc]
        exact ⟨(hrsp g).1, by simpa [answered, deliveredFrom] using (hrsp g).2⟩
      · intro f
        rw [passedOn_snoc]
        exact (h.said f).trans (List.append_nil _).symm
  | deliver g item rest hps =>
      have hserve : s.step su (.request (.poll g)) = (s, .nothing) := by
        simp only [step, hres]
      rw [hserve]
      exact h.idle _
  | empty g hps =>
      have hserve : s.step su (.request (.poll g)) = (s, .nothing) := by
        simp only [step, hres]
      rw [hserve]
      exact h.idle _

/-! ### The workers -/

/-- A worker at rest takes the oldest item, and its plugin is called for what that presents. -/
theorem Ledger.take (h : Ledger su c₀ s tr) (g : Fin n) (w : Fin m)
    (hsound : Sound su s (.take g w)) :
    Ledger su c₀ (s.step su (.take g w)).1 (tr ++ [(.take g w, (s.step su (.take g w)).2)]) := by
  by_cases hbusy : (s.hand g w).sends ≠ []
  · have hserve : s.step su (.take g w) = (s, .nothing) := by
      simp only [step, if_pos hbusy]
    rw [hserve]
    exact h.idle _
  obtain ⟨pending, hstores, hreq⟩ := h.req
  -- what is called and what is left, for an empty queue too
  obtain ⟨rest, hcalls, hrest⟩ : ∃ rest,
      (pending g).flatMap (·.presented (su.fe.worker g)) = (match (s.req g).poll.2.call with
          | some c => (su.fe.worker g).ator c
          | none => []) ++ rest.flatMap (·.presented (su.fe.worker g)) ∧
        Carries (su.fe.worker g) (s.req g).poll.1 rest := by
    cases hps : pending g with
    | nil =>
        have hg := hps ▸ hstores g
        rw [hg.poll_nil]
        exact ⟨[], rfl, hg⟩
    | cons item rest =>
        obtain ⟨⟨c, hpolled, hpresented⟩, hcarries⟩ := (hps ▸ hstores g).poll_cons hsound
        rw [hpolled]
        refine ⟨rest, ?_, hcarries⟩
        rw [List.flatMap_cons, ← hpresented]
  obtain ⟨calls, hcalls'⟩ : ∃ calls, calls = (match (s.req g).poll.2.call with
    | some c => (su.fe.worker g).ator c
    | none => []) := ⟨_, rfl⟩
  rw [← hcalls'] at hcalls
  have hserve : s.step su (.take g w) = ({ s with
      req := Function.update s.req g (s.req g).poll.1
      hand := Function.update s.hand g (Function.update (s.hand g) w
        ⟨(workAll su.plugin (s.hand g w).user calls).1,
          (workAll su.plugin (s.hand g w).user calls).2⟩) },
      .taken calls (workAll su.plugin (s.hand g w).user calls).2) := by
    simp only [step, if_neg hbusy, ← hcalls']
  rw [hserve]
  dsimp only
  generalize workAll su.plugin (s.hand g w).user calls = work
  obtain ⟨answers, hrsp⟩ := h.rsp
  refine ⟨⟨Function.update pending g rest, ?_, ?_⟩, ?_, ⟨answers, ?_⟩, h.history, h.counter, ?_⟩
  · intro g'
    dsimp only
    by_cases hg : g' = g
    · rw [hg, Function.update_self, Function.update_self]
      exact hrest
    · rw [Function.update_of_ne hg, Function.update_of_ne hg]
      exact hstores g'
  · intro g'
    have hnone : requested g' [((.take g w : ServiceOp n m), ServiceOut.taken calls work.2)] = [] :=
      rfl
    rw [requested_snoc, worked_snoc, hnone, List.append_nil, hreq g']
    by_cases hg : g' = g
    · subst hg
      have hnew : worked g' [((.take g' w : ServiceOp n m), ServiceOut.taken calls work.2)] =
          calls := by simp [worked]
      rw [hnew, Function.update_self, hcalls, List.append_assoc]
    · have hnew : worked g' [((.take g w : ServiceOp n m), ServiceOut.taken calls work.2)] = [] := by
        simp [worked, Ne.symm hg]
      rw [hnew, Function.update_of_ne hg, List.append_nil]
  · intro g' w'
    dsimp only
    have hnone : repliedBy g' w' [((.take g w : ServiceOp n m), ServiceOut.taken calls work.2)] =
        [] := rfl
    rw [wanted_snoc, repliedBy_snoc, hnone, List.append_nil, h.work g' w']
    by_cases hg : g = g' ∧ w = w'
    · obtain ⟨rfl, rfl⟩ := hg
      rw [Function.update_self, Function.update_self, not_not.mp hbusy]
      simp [wanted]
    · have hnew : wanted g' w' [((.take g w : ServiceOp n m), ServiceOut.taken calls work.2)] =
          [] := by simp [wanted, hg]
      rw [hnew, List.append_nil]
      by_cases hg' : g' = g
      · subst hg'
        rw [Function.update_self, Function.update_of_ne fun hw => hg ⟨rfl, hw.symm⟩]
      · rw [Function.update_of_ne hg']
  · intro g'
    rw [answered_snoc, deliveredFrom_snoc]
    exact ⟨(hrsp g').1, by simpa [answered, deliveredFrom] using (hrsp g').2⟩
  · intro f
    rw [passedOn_snoc]
    exact (h.said f).trans (List.append_nil _).symm

/-- A worker sends what its plugin wanted first. -/
theorem Ledger.reply (h : Ledger su c₀ s tr) (g : Fin n) (w : Fin m) (tval : Timeval)
    (hsound : Sound su s (.reply g w tval)) :
    Ledger su c₀ (s.step su (.reply g w tval)).1
      (tr ++ [(.reply g w tval, (s.step su (.reply g w tval)).2)]) := by
  cases hsends : (s.hand g w).sends with
  | nil =>
      have hserve : s.step su (.reply g w tval) = (s, .nothing) := by
        simp only [step, hsends]
      rw [hserve]
      exact h.idle _
  | cons e sends =>
  obtain ⟨flow, b⟩ := e
  obtain ⟨answers, hrsp⟩ := h.rsp
  obtain ⟨pending, hstores, hreq⟩ := h.req
  obtain ⟨q, hq⟩ : ∃ q, q = ((s.rsp g).sendto flow b tval).1 := ⟨_, rfl⟩
  obtain ⟨ret, hret⟩ : ∃ ret, ret = ((s.rsp g).sendto flow b tval).2 := ⟨_, rfl⟩
  have hserve : s.step su (.reply g w tval) = ({ s with
      rsp := Function.update s.rsp g q
      hand := Function.update s.hand g
        (Function.update (s.hand g) w { s.hand g w with sends }) }, .replied flow b ret) := by
    simp only [step, hsends, hq, hret]
  rw [hserve]
  dsimp only
  -- the queue takes the answer, or has no room
  have hqueue : Queues q (if ret = 0 then answers g ++ [(flow, b)] else answers g) := by
    obtain ⟨ms, hms, hanswers⟩ := (hrsp g).1
    by_cases hroom : (s.rsp g).NoRoom b
    · rw [ShmMQ.sendto_of_noRoom hroom] at hq hret
      have hfull : ret ≠ 0 := by
        rw [hret]
        exact (by decide : commuErrMqFull ≠ 0)
      rw [hq, if_neg hfull]
      exact (hrsp g).1
    · have hlen : b.blob.len ≤ maxBlobDataLen :=
        (hsound (flow, b) (by rw [hsends]; rfl)).resolve_right hroom
      obtain ⟨hzero, hstored⟩ := hms.sendto flow tval hroom hlen
      rw [hq, hret, if_pos hzero, hanswers]
      exact ⟨ms ++ [((flow, b), tval)], by simpa using hstored, by simp⟩
  refine ⟨⟨pending, hstores, ?_⟩, ?_,
    ⟨Function.update answers g (if ret = 0 then answers g ++ [(flow, b)] else answers g), ?_⟩,
    h.history, h.counter, ?_⟩
  · intro g'
    rw [requested_snoc, worked_snoc]
    simpa [requested, worked] using hreq g'
  · intro g' w'
    dsimp only
    have hnone : wanted g' w' [((.reply g w tval : ServiceOp n m), ServiceOut.replied flow b ret)] =
        [] := rfl
    rw [wanted_snoc, repliedBy_snoc, hnone, List.append_nil, h.work g' w', List.append_assoc]
    congr 1
    by_cases hg : g = g' ∧ w = w'
    · obtain ⟨rfl, rfl⟩ := hg
      rw [Function.update_self, Function.update_self, hsends]
      simp [repliedBy]
    · have hnew : repliedBy g' w'
          [((.reply g w tval : ServiceOp n m), ServiceOut.replied flow b ret)] = [] := by
        simp [repliedBy, hg]
      rw [hnew, List.nil_append]
      by_cases hg' : g' = g
      · subst hg'
        rw [Function.update_self, Function.update_of_ne fun hw => hg ⟨rfl, hw.symm⟩]
      · rw [Function.update_of_ne hg']
  · intro g'
    dsimp only
    have hnone : deliveredFrom g'
        [((.reply g w tval : ServiceOp n m), ServiceOut.replied flow b ret)] = [] := rfl
    rw [answered_snoc, deliveredFrom_snoc, hnone, List.append_nil, List.map_append, (hrsp g').2]
    by_cases hg : g' = g
    · subst hg
      rw [Function.update_self, Function.update_self]
      refine ⟨hqueue, ?_⟩
      by_cases hzero : ret = 0
      · simp [answered, hzero]
      · simp [answered, hzero]
    · rw [Function.update_of_ne hg, Function.update_of_ne hg]
      exact ⟨(hrsp g').1, by simp [answered, Ne.symm hg]⟩
  · intro f
    rw [passedOn_snoc]
    exact (h.said f).trans (List.append_nil _).symm

/-! ### The way back -/

theorem history_sendto {sock : SockCommu} (h : History c₀ sock.flow sock) (c : SendCall) :
    History c₀ (sock.sendto c).1.flow (sock.sendto c).1 ∧ (sock.sendto c).1.flow = sock.flow := by
  have hnext : Before c₀ sock.flow sock.flow (sock.sendto c).1 :=
    (before_stable c₀ sock.flow sock.flow).sendto sock ⟨h, rfl⟩ c
  rw [hnext.2]
  exact ⟨hnext.1, rfl⟩

/-- The proxy takes the oldest answer, and sends it on. -/
theorem Ledger.deliver (h : Ledger su c₀ s tr) (g : Fin n) (k k' : KSend) (alloc : Alloc) (now : ℤ)
    (hsound : Sound su s (.deliver g k k' alloc now)) :
    Ledger su c₀ (s.step su (.deliver g k k' alloc now)).1
      (tr ++ [(.deliver g k k' alloc now, (s.step su (.deliver g k k' alloc now)).2)]) := by
  obtain ⟨answers, hrsp⟩ := h.rsp
  obtain ⟨ms, hms, hanswers⟩ := (hrsp g).1
  cases ms with
  | nil =>
      have hserve : s.step su (.deliver g k k' alloc now) = (s, .nothing) := by
        have hpoll : (s.rsp g).poll = _ := hms.poll_nil
        simp only [step, hpoll, Function.update_eq_self]
      rw [hserve]
      exact h.idle _
  | cons e ms =>
  obtain ⟨⟨⟨flow, b⟩, tval⟩, he⟩ : ∃ e', e = e' := ⟨e, rfl⟩
  subst he
  obtain ⟨hpolled, hrest⟩ := hms.poll_cons hsound
  obtain ⟨pending, hstores, hreq⟩ := h.req
  obtain ⟨c, hc⟩ : ∃ c, c = answerCall (flow, b) := ⟨_, rfl⟩
  have hcall : (s.rsp g).poll.2.call = some c := by
    rw [hpolled, hc]
    rfl
  have hserve : s.step su (.deliver g k k' alloc now) = ({ s with
      rsp := Function.update s.rsp g (s.rsp g).poll.1
      sock := (ctorRecvdata s.sock c k k' alloc now).1 },
      .delivered c (ctorRecvdata s.sock c k k' alloc now).2) := by
    simp only [step, hcall]
  rw [hserve]
  dsimp only
  have hsock : History c₀ (ctorRecvdata s.sock c k k' alloc now).1.flow
        (ctorRecvdata s.sock c k k' alloc now).1 ∧
      (ctorRecvdata s.sock c k k' alloc now).1.flow < 2 ^ 32 := by
    unfold ctorRecvdata
    split
    · split
      · obtain ⟨hhistory, hflow⟩ := history_sendto h.history _
        exact ⟨hhistory, hflow ▸ h.counter⟩
      · exact ⟨h.history, h.counter⟩
    · exact ⟨h.history, h.counter⟩
  refine ⟨⟨pending, hstores, ?_⟩, ?_, ⟨Function.update answers g (ms.map Prod.fst), ?_⟩, hsock.1,
    hsock.2, ?_⟩
  · intro g'
    rw [requested_snoc, worked_snoc]
    simpa [requested, worked] using hreq g'
  · intro g' w'
    rw [wanted_snoc, repliedBy_snoc]
    exact (List.append_nil _).trans ((h.work g' w').trans (by simp [repliedBy]))
  · intro g'
    dsimp only
    generalize (ctorRecvdata s.sock c k k' alloc now).2 = ret
    have hnone : answered g' [((.deliver g k k' alloc now : ServiceOp n m),
        ServiceOut.delivered c ret)] = [] := rfl
    rw [answered_snoc, deliveredFrom_snoc, hnone, List.append_nil, (hrsp g').2]
    by_cases hg : g' = g
    · subst hg
      rw [Function.update_self, Function.update_self, hanswers]
      exact ⟨⟨ms, hrest, rfl⟩, by simp [deliveredFrom, hc]⟩
    · rw [Function.update_of_ne hg, Function.update_of_ne hg]
      exact ⟨(hrsp g').1, by simp [deliveredFrom, Ne.symm hg]⟩
  · intro f
    rw [passedOn_snoc, ← h.said f]
    unfold ctorRecvdata
    split
    · split
      · next hlen =>
          rw [said_sendto]
          simp [passedOn]
      · next hlong =>
          rw [hc] at hlong
          exact absurd b.blob.data_lt hlong
    · simp [passedOn]

/-- Every step keeps the accounts. -/
theorem Ledger.step (h : Ledger su c₀ s tr) (hmute : su.h.Mute) (op : ServiceOp n m)
    (hsound : Sound su s op) :
    Ledger su c₀ (s.step su op).1 (tr ++ [(op, (s.step su op).2)]) := by
  cases op with
  | front ev => exact h.front hmute ev hsound
  | request op => exact h.request op hsound
  | take g w => exact h.take g w hsound
  | reply g w tval => exact h.reply g w tval hsound
  | deliver g k k' alloc now => exact h.deliver g k k' alloc now hsound

/-! ## Runs -/

/-- What has become of everything that has been put in.  For each group, what its workers have
called is what was put into its queue, but for what is still there, in order; each worker has
sent what its plugin wanted, but for what it has still to send, in order; what the proxy has
taken is what the workers' answers that the second queue took, but for what is still there, in
order.  For each flow, unless a call wanted its connection closed, the bytes that the kernel
took are the first of the answers for this flow that found the connection, and while it lives
its write cache is all the rest; and each call acted on the connection that was stored under its
flow, or was refused. -/
structure Accounted (su : Setup n σ υ) (c₀ : ConnSet) (s : Service n m σ υ)
    (tr : List (ServiceOp n m × ServiceOut n)) : Prop where
  requests : ∀ g, ∃ items : List Item, (requested g tr).flatMap (·.presented (su.fe.worker g)) =
    worked g tr ++ items.flatMap (·.presented (su.fe.worker g))
  workers : ∀ g w, wanted g w tr = repliedBy g w tr ++ (s.hand g w).sends
  answers : ∀ g, ∃ es : List (UInt32 × BlobType),
    (answered g tr).map answerCall = deliveredFrom g tr ++ es.map answerCall
  flows : ∀ f, f ∉ asked s.sock.calls → ∃ rest, written f s.sock.calls ++ rest = passedOn f tr ∧
    (s.sock.connset.Live f → (s.sock.connset.getcc f).w.content = rest)
  isolated : Replays c₀ s.sock.connset s.sock.calls

theorem Ledger.accounted {maxconn : ℕ} {pos : 0 < maxconn} {bound : maxconn < 2 ^ 31}
    (h : Ledger su (.new maxconn pos bound) s tr) :
    Accounted su (.new maxconn pos bound) s tr := by
  obtain ⟨pending, -, hreq⟩ := h.req
  obtain ⟨answers, hrsp⟩ := h.rsp
  refine ⟨fun g => ⟨pending g, hreq g⟩, h.work, fun g => ⟨answers g, (hrsp g).2⟩, ?_,
    h.history.replays⟩
  intro f hasked
  obtain ⟨rest, hrest, hcontent⟩ := h.history.streams.balance f hasked
  exact ⟨rest, hrest.trans (h.said f), hcontent⟩

variable (su) in
theorem ledger_start {maxconn : ℕ} (pos : 0 < maxconn) (bound : maxconn < 2 ^ 31)
    (sockbind : ℕ → ℕ) (maxbindfd : ℕ) (expiretime interval now : ℤ) (user : σ)
    (req rsp : Fin n → ShmSize) (block : Fin n → ℕ → UInt8) (u : Fin n → Fin m → υ) :
    Ledger su (.new maxconn pos bound)
      (start (.init maxconn pos bound sockbind maxbindfd expiretime interval now) user req rsp
        block u) [] := by
  refine ⟨⟨fun _ => [], su.fe.stores_start req block, fun _ => rfl⟩, fun _ _ => rfl,
    ⟨fun _ => [], fun g => ⟨⟨[], ⟨0, 0, ShmMQ.holds_init (rsp g) (block g)⟩, rfl⟩, rfl⟩⟩, ?_,
    Nat.two_pow_pos 32, fun _ => rfl⟩
  refine ⟨⟨List.nodup_nil, by simp [start, SockCommu.init, stored],
    by simp [start, SockCommu.init, stored], by simp [start, SockCommu.init, stored],
    fun f hf => ?_, by simp [start, SockCommu.init, closed]⟩,
    ⟨rfl, rfl, by simp [start, SockCommu.init]⟩⟩
  exact absurd hf.1.symm hf.2

/-- In every run of the service that meets none of the faults, whatever the order of the steps,
nothing is lost, doubled or turned round, and no answer reaches another connection. -/
theorem accounted_run (su : Setup n σ υ) (hmute : su.h.Mute) (maxconn : ℕ) (pos : 0 < maxconn)
    (bound : maxconn < 2 ^ 31) (sockbind : ℕ → ℕ) (maxbindfd : ℕ) (expiretime interval now : ℤ)
    (user : σ) (req rsp : Fin n → ShmSize) (block : Fin n → ℕ → UInt8) (u : Fin n → Fin m → υ)
    (ops : List (ServiceOp n m))
    (hsound : Run.Always (step su) (Sound su) (start
      (.init maxconn pos bound sockbind maxbindfd expiretime interval now) user req rsp block u)
      ops) :
    let s₀ := start (.init maxconn pos bound sockbind maxbindfd expiretime interval now) user req
      rsp block u
    Accounted su (.new maxconn pos bound) (Run.final (step su) s₀ ops)
      (Run.trace (step su) s₀ ops) := by
  intro s₀
  refine Ledger.accounted ?_
  have hstart : Ledger su (.new maxconn pos bound) s₀ [] :=
    ledger_start su pos bound sockbind maxbindfd expiretime interval now user req rsp block u
  induction ops using List.reverseRecOn with
  | nil => exact hstart
  | append_singleton ops op ih =>
      obtain ⟨hfirst, hlast⟩ := Run.always_append.mp hsound
      rw [Run.trace_append, Run.final_append]
      exact (ih hfirst).step hmute op hlast.1

/-- One group and one worker, whose plugin answers each packet with one byte. -/
def echo : Setup 1 Unit Unit where
  fe := FrontEnd.oneGroup
  h _ _ := ((), ⟨[], 0⟩)
  plugin _ inv := ((), match inv with
    | .process flow _ _ _ => ⟨[(flow, ⟨⟨[7], [], by decide, Blob.nil_lt⟩, extTypeNone⟩)], 0⟩
    | .event _ _ _ => ⟨[], 0⟩)

/-- A connection is accepted, a packet comes in on it, and its answer goes back. -/
def echoOps : List (ServiceOp 1 1) :=
  [.front (.ready {
      fd := 3, flow := 0, epollin := true, epollout := false
      accept := ⟨some 5, true, true, 0⟩, recv := ⟨.fail 11, .exact, 0⟩
      flush := .fail 11, recvs := [], now := 0 }),
    .request (.packet 1 1 ⟨⟨[1, 2], [], by decide, Blob.nil_lt⟩, by decide⟩ ⟨0, 0⟩),
    .take 0 0, .reply 0 0 ⟨0, 0⟩, .deliver 0 (.fail 11) (.sent 9) .exact 0]

theorem echoSize : 8 ≤ 200 ∧ 200 < 2 ^ 31 := by decide

def echoStart : Service 1 1 Unit Unit :=
  start (.init 1 (by decide) (by decide) (fun fd => if fd = 3 then 1 else 0) 3 60 60 0) ()
    (fun _ => ⟨200, echoSize⟩) (fun _ => ⟨200, echoSize⟩) (fun _ _ => 0) fun _ _ => ()

theorem accounted_echo :
    Accounted echo (.new 1 (by decide) (by decide)) (Run.final (step echo) echoStart echoOps)
        (Run.trace (step echo) echoStart echoOps) ∧
      written 1 (Run.final (step echo) echoStart echoOps).sock.calls = [7] := by
  refine ⟨accounted_run echo ?_ 1 (by decide) (by decide) (fun fd => if fd = 3 then 1 else 0) 3
    60 60 0 () _ _ _ _ echoOps ?_, by decide +kernel⟩
  · intro u n c hc
    exact absurd hc List.not_mem_nil
  · refine ⟨⟨nofun, ?_⟩, ?_, ?_, ?_, ?_, trivial⟩
    · unfold NoWrap
      decide +kernel
    · rintro item ⟨⟩ g -
      exact .inl (by change 2 ≤ maxBlobDataLen; decide)
    · change ¬ _
      decide +kernel
    · intro e he
      have hhead : ((Run.final (step echo) echoStart (echoOps.take 3)).hand 0 0).sends.head?.map
          (fun e => e.2.blob.len) = some 1 := by decide +kernel
      have hlen : e.2.blob.len = 1 := by
        have hsame := hhead.symm.trans (congrArg (Option.map fun e => e.2.blob.len) he)
        exact (Option.some.inj hsame).symm
      rw [hlen]
      exact .inl (by decide)
    · change ¬ _
      decide +kernel

end Service

end Spp
