import Spp.Shm.Commu
import Spp.Sock.ConnSet

/-!
# The events of the front end

The proxy tells the workers when a connection is opened, lost, refused or too old.  Each of its
four callbacks asks the plugin for a group and sends a blob whose type says what has happened;
the packets of the connections go through the same queues.  The worker's four callbacks hand the
event to the handler that is registered for it.

The plugin's functions leave the blob alone.  The handlers in the proxy, the statistics and the
log are left out.

## Main definitions

* `EventType`, `DefaultProxy`, `DefaultWorker` — the two sides.
* `atorOverload`, `atorConnected`, `atorTimeout`, `atorDisconn` — the callbacks of each side.
* `FrontOp`, `FrontEnd.step` — one step of the whole, for runs.
-/

namespace Spp

/-! ## The proxy -/

/-- An `event_type`. -/
inductive EventType
  | connected
  | disconnect
  | overload
  | timeout
  deriving DecidableEq

def EventType.code : EventType → ℕ
  | .connected => 0
  | .disconnect => 1
  | .overload => 2
  | .timeout => 3

/-- `IPLIMIT_DISABLE`, `IPLIMIT_WHITE_LIST` and `IPLIMIT_BLACK_LIST`. -/
inductive IpLimit
  | disable
  | whiteList
  | blackList
  deriving DecidableEq

/-- The proxy: whether the plugin has `spp_handle_event_route`, and the limit on addresses. -/
structure DefaultProxy where
  sppHandleEventRoute : Bool
  iplimit : IpLimit
  iptable : List UInt32

/-- An event of the acceptor: the flow, the data in `buff_blob_` and the remote address, the group
that the plugin answers, and the clock at each `sendto`.  There are data for a new UDP connection
only, whose first datagram they are. -/
structure FrontEvent (n : ℕ) where
  flow : UInt32
  data : { bs : List UInt8 // bs.length ≤ readBufferSize }
  remoteip : UInt32
  routeNo : ℤ
  tval : Fin n → Timeval

/-- What fits the read buffer fits a blob. -/
theorem readBuffer_lt (data : { bs : List UInt8 // bs.length ≤ readBufferSize }) :
    data.1.length < 2 ^ 31 :=
  data.2.trans_lt (by decide)

/-- The blob that the callbacks make of `buff_blob_`. -/
def FrontEvent.blob {n : ℕ} (ev : FrontEvent n) (extType : UInt8) : BlobType where
  blob := ⟨ev.data.1, [], readBuffer_lt ev.data, Blob.nil_lt⟩
  extType := extType

/-- The queues to the worker groups, and what each `sendto` has returned. -/
abbrev Sent (n : ℕ) := (Fin n → ShmMQ) × (Fin n → Option ℤ)

namespace DefaultProxy

variable {n : ℕ} (p : DefaultProxy) (ctor : Fin n → ShmMQ)

/-- `sendto` to some groups. -/
def sendtoAll (reached : Fin n → Prop) [DecidablePred reached] (flow : UInt32) (b : BlobType)
    (tval : Fin n → Timeval) : Sent n :=
  (fun g => if reached g then ((ctor g).sendto flow b (tval g)).1 else ctor g,
    fun g => if reached g then some ((ctor g).sendto flow b (tval g)).2 else none)

/-- The group that the plugin has answered; 0 is every group. -/
def EventGroup (routeNo : ℤ) (g : Fin n) : Prop :=
  routeNo > 0 ∧ routeNo ≤ n ∧ (g : ℤ) = routeNo - 1 ∨ routeNo = 0

instance (routeNo : ℤ) : DecidablePred (EventGroup (n := n) routeNo) := fun _ =>
  inferInstanceAs (Decidable (_ ∨ _))

/-- What the four callbacks have in common. -/
def atorEvent (extType : UInt8) (ev : FrontEvent n) : Sent n :=
  if p.sppHandleEventRoute then
    sendtoAll ctor (EventGroup ev.routeNo) ev.flow (ev.blob extType) ev.tval
  else (ctor, fun _ => none)

def atorOverload (ev : FrontEvent n) : Sent n := p.atorEvent ctor extTypeOverload ev

/-- The limit refuses the address. -/
def Limited (remoteip : UInt32) : Prop :=
  p.iplimit = .whiteList ∧ remoteip ∉ p.iptable ∨ p.iplimit = .blackList ∧ remoteip ∈ p.iptable

instance (remoteip : UInt32) : Decidable (p.Limited remoteip) := inferInstanceAs (Decidable (_ ∨ _))

/-- A connection from a refused address is closed, and not announced. -/
def atorConnected (ev : FrontEvent n) : Sent n :=
  if p.Limited ev.remoteip then (ctor, fun _ => none) else p.atorEvent ctor extTypeConnected ev

def atorTimeout (ev : FrontEvent n) : Sent n := p.atorEvent ctor extTypeTimeout ev

def atorDisconn (ev : FrontEvent n) : Sent n := p.atorEvent ctor extTypeDisconnect ev

/-- The `sendto` of `ator_recvdata`, for a packet of a connection. -/
def forwardPacket (routeNo : ℕ) (flow : UInt32) (pkg : { b : Blob // 0 < b.len })
    (tval : Timeval) : Sent n :=
  sendtoAll ctor (fun g => g.1 + 1 = routeNo) flow ⟨pkg.1, extTypeConnextinfo⟩ fun _ => tval

end DefaultProxy

/-! ## The worker -/

/-- What the worker calls: the handler of an event, or `spp_handle_process`. -/
inductive Invocation
  | event (et : EventType) (flow : UInt32) (data : List UInt8)
  | process (flow : UInt32) (data : List UInt8) (extType : UInt8) (extdata : List UInt8)
  deriving DecidableEq

/-- The worker: for which events a handler is registered. -/
structure DefaultWorker where
  eventFuncList : EventType → Bool

namespace DefaultWorker

variable (worker : DefaultWorker)

/-- What three of the callbacks have in common. -/
def atorEvent (et : EventType) (c : Callback) : List Invocation :=
  if worker.eventFuncList et then [.event et c.flow c.data] else []

/-- The type is compared after it has been reset. -/
def atorOverload (c : Callback) : List Invocation :=
  let c := { c with extdata := [], extType := extTypeNone }
  if c.data.length = 0 ∧ c.extType.toNat = EventType.overload.code ∧
      worker.eventFuncList .overload then [.event .overload c.flow c.data]
  else []

def atorConnected (c : Callback) : List Invocation := worker.atorEvent .connected c
def atorTimeout (c : Callback) : List Invocation := worker.atorEvent .timeout c
def atorDisconn (c : Callback) : List Invocation := worker.atorEvent .disconnect c

def atorRecvdata (c : Callback) : List Invocation :=
  if c.data.length > 0 then [.process c.flow c.data c.extType c.extdata] else []

/-- The registered callbacks. -/
def ator (c : Callback) : List Invocation :=
  match c.cb with
  | .connected => worker.atorConnected c
  | .overload => worker.atorOverload c
  | .timeout => worker.atorTimeout c
  | .disconnect => worker.atorDisconn c
  | .recvdata => atorRecvdata c

end DefaultWorker

/-! ## Both -/

/-- The proxy, and a worker for each group. -/
structure FrontEnd (n : ℕ) where
  proxy : DefaultProxy
  worker : Fin n → DefaultWorker

/-- An event of the acceptor, a packet of a connection, or the poll of a worker. -/
inductive FrontOp (n : ℕ)
  | event (et : EventType) (ev : FrontEvent n)
  | packet (routeNo : ℕ) (flow : UInt32) (pkg : { b : Blob // 0 < b.len }) (tval : Timeval)
  | poll (g : Fin n)

/-- What a step shows: the codes of `sendto`, or the code of `poll` and what the worker calls. -/
inductive FrontOut (n : ℕ)
  | sent (rets : Fin n → Option ℤ)
  | polled (ret : Option ℤ) (calls : List Invocation)

namespace FrontEnd

variable {n : ℕ}

/-- The callback of the proxy. -/
def atorEvent (p : DefaultProxy) (ctor : Fin n → ShmMQ) : EventType → FrontEvent n → Sent n
  | .connected => p.atorConnected ctor
  | .disconnect => p.atorDisconn ctor
  | .overload => p.atorOverload ctor
  | .timeout => p.atorTimeout ctor

/-- One step; the state is the queues. -/
def step (fe : FrontEnd n) (ctor : Fin n → ShmMQ) : FrontOp n → (Fin n → ShmMQ) × FrontOut n
  | .event et ev =>
      let (ctor, rets) := atorEvent fe.proxy ctor et ev
      (ctor, .sent rets)
  | .packet routeNo flow pkg tval =>
      let (ctor, rets) := DefaultProxy.forwardPacket ctor routeNo flow pkg tval
      (ctor, .sent rets)
  | .poll g =>
      let (q, polled) := (ctor g).poll
      let calls := match polled.call with
        | some c => (fe.worker g).ator c
        | none => []
      (Function.update ctor g q, .polled polled.ret calls)

end FrontEnd

end Spp
