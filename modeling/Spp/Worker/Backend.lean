import Spp.Sock.Announce
import Spp.Worker.CommuMng

/-!
# The backends of a worker

`spp_sendto` looks up the node for a key in the route table, finds the connection to the node in
the connection manager and sends; where there is none, or where it turns out to be gone, it
connects first.  The connection is registered by the callback for `CB_CONNECT`.

A callback may send by flow, and may overwrite the caller's buffer.  What the worker's own
callbacks leave to the user, and whether a callback refuses the connection, is in `user`.
`CB_SENDDONE`, `CB_SENDERROR` and `CB_RECVDONE` have no callback, and nothing listens.  The logs
and the blobs that the callbacks get are left out.

## Main definitions

* `RouteTable`, `RouteConfig` — the routes.
* `Backend` — the worker's side of the backend connections.
* `ctorHandler` — the callbacks.
* `Backend.sppSendto` — the call, with the sends that it makes.
* `BackendOp`, `Backend.step` — one event, for runs.
-/

namespace Spp

/-! ## Routes -/

/-- `SOCK_TYPE_TCP`, `SOCK_TYPE_UDP` and `SOCK_TYPE_UNIX`. -/
inductive SockType
  | tcp
  | udp
  | unix
  deriving DecidableEq

def SockType.code : SockType → ℕ
  | .tcp => 1
  | .udp => 2
  | .unix => 4

/-- A `TNodeInfo`. -/
structure NodeInfo (α : Type) where
  servType : ℕ
  nodeId : ℕ
  begin_ : ℕ
  end_ : ℕ
  type : SockType
  addr : α

/-- The operator in `route_`. -/
inductive RouteOp
  | mod
  | div
  | other

/-- A `TRouteTable` that `InitRouteTable` has filled. -/
structure RouteTable (α : Type) where
  servType : ℕ
  route : RouteOp
  routeVal : ℤ
  mapNode : StdMap ℕ (NodeInfo α)
  node_key : ∀ n info, mapNode.find? n = some info → info.nodeId = n ∧ info.servType = servType

/-- The tables of a `TRouteConfig` that `InitRouteConfig` has filled. -/
structure RouteConfig (α : Type) where
  mapRouteTable : StdMap ℕ (RouteTable α)
  table_key : ∀ t tbl, mapRouteTable.find? t = some tbl → tbl.servType = t

namespace RouteTable

variable {α : Type}

/-- The key that the route makes of `route_key`; a division by zero is `none`. -/
def nodeKey (tbl : RouteTable α) (routeKey : ℕ) : Option ℕ :=
  let val := (tbl.routeVal % 2 ^ 32).toNat
  match tbl.route with
  | .mod => if val = 0 then none else some (routeKey % val)
  | .div => if val = 0 then none else some (routeKey / val)
  | .other => some 0

/-- `GetNodeID`. -/
def getNodeId (tbl : RouteTable α) (nodeKey : ℕ) : ℕ :=
  match tbl.mapNode.entries.find? fun e => e.2.begin_ ≤ nodeKey ∧ nodeKey ≤ e.2.end_ with
  | some e => e.2.nodeId
  | none => 0

/-- `GetNodeInfo`. -/
def getNodeInfo (tbl : RouteTable α) (nodeId : ℕ) : Option (NodeInfo α) := tbl.mapNode.find? nodeId

end RouteTable

/-- The node of a server type. -/
def nodeOf {α : Type} (config : Option (RouteConfig α)) (servType nodeId : ℕ) :
    Option (NodeInfo α) :=
  config.bind fun config => (config.mapRouteTable.find? servType).bind fun tbl =>
    tbl.getNodeInfo nodeId

/-- The node that the route table of the server type chooses for the key. -/
def chosenNode {α : Type} (config : Option (RouteConfig α)) (servType routeKey : ℕ) :
    Option (NodeInfo α) :=
  config.bind fun config => (config.mapRouteTable.find? servType).bind fun tbl =>
    (tbl.nodeKey routeKey).bind fun nodeKey => tbl.getNodeInfo (tbl.getNodeId nodeKey)

/-! ## The worker's side -/

/-- What the callbacks can change.  `extdata` is the node that `connect` leaves in the static
buffer, and `blob` the caller's buffer. -/
structure CtorState (α υ : Type) where
  commuMng : CommuMng
  extdata : Option (NodeInfo α)
  blob : Payload
  user : υ

variable {α υ : Type}

/-- `ctor_connect` -/
def CtorState.ctorConnect (b : CtorState α υ) (flow : ℕ) : CtorState α υ :=
  match b.extdata with
  | some node => { b with commuMng := b.commuMng.addConn node.servType node.nodeId flow }
  | none => b

/-- The registered callbacks.  `ctor_disconn` takes the flow out of the manager. -/
def ctorHandler (user : Handler (Payload × υ)) : Handler (CtorState α υ) := fun b n =>
  let reply := fun b : CtorState α υ =>
    let ((blob, u), r) := user (b.blob, b.user) n
    ({ b with blob := blob, user := u }, r)
  match n with
  | .connect flow => reply (b.ctorConnect flow)
  | .disconnect flow => reply { b with commuMng := (b.commuMng.rmConn flow).2 }
  | .recvdone _ _ | .senderror _ _ => (b, ⟨[], 0⟩)
  | _ => reply b

/-- The socket component, the address that each descriptor has been connected to, and the
worker.  `peer` is what the kernel knows. -/
structure Backend (α υ : Type) where
  sock : SockCommu
  peer : ℕ → Option α
  ctor : CtorState α υ

/-- The answers for one `sendto`. -/
structure SendAnswer where
  k : KSend
  k' : KSend
  alloc : Alloc
  now : ℤ

/-- The answers for one `spp_sendto`: for the first send, for `connect`, with whether the system
call `connect` succeeds or is under way, and for the second send. -/
structure SppAnswer where
  first : SendAnswer
  connect : ConnectAnswer
  linked : Bool
  second : SendAnswer

/-- A send of `spp_sendto`: the states around it, what the kernel took, and its code. -/
structure Try (α υ : Type) where
  before : Backend α υ
  flow : ℕ
  wire : List UInt8
  ret : ℤ
  after : Backend α υ

/-- What `spp_sendto` returns, and the sends that it has made. -/
structure Outcome (α υ : Type) where
  ret : ℤ
  toFlow : ℕ
  tries : List (Try α υ)
  after : Backend α υ

namespace Backend

/-- After `InitExt`. -/
def init (maxconn : ℕ) (pos : 0 < maxconn) (bound : maxconn < 2 ^ 31)
    (expiretime checkExpireInterval now : ℤ) (blob : Payload) (user : υ) : Backend α υ where
  sock := .init maxconn pos bound (fun _ => 0) 0 expiretime checkExpireInterval now
  peer := fun _ => none
  ctor := ⟨.new, none, blob, user⟩

/-- A descriptor that is closed, or not connected, takes nothing: `EBADF`, `ENOTCONN`. -/
def answer (w : Backend α υ) (flow : ℕ) (k : KSend) : KSend :=
  let fd := (w.sock.connset.getcc flow).fd
  if w.sock.kernel.opened fd = false then .fail 9
  else if w.peer fd = none then .fail 107
  else k

/-- `ctor_->sendto` with the caller's blob. -/
def trySend (w : Backend α υ) (flow : ℕ) (ans : SendAnswer) : Try α υ :=
  let k := w.answer flow ans.k
  let k' := w.answer flow ans.k'
  let (sock, ret) := w.sock.sendto ⟨flow, w.ctor.blob, k, k', ans.alloc, ans.now, []⟩
  { before := w
    flow := flow
    wire := (w.sock.call (.send flow w.ctor.blob k k' ans.alloc ans.now)).2.wire
    ret := ret
    after := { w with sock := sock } }

variable (user : Handler (Payload × υ))

/-- `connect` to a node.  For a UNIX socket it hands the path to the system as an IP address,
which no such socket takes. -/
def connect (w : Backend α υ) (node : NodeInfo α) (ans : ConnectAnswer) (linked : Bool) :
    ℤ × Backend α υ :=
  let peer :=
    if w.sock.kernel.opened ans.fd then w.peer
    else Function.update w.peer ans.fd
      (if linked ∧ node.type ≠ .unix then some node.addr else none)
  let (ret, sock, ctor) := SockCommu.connect (ctorHandler user) w.sock
    { w.ctor with extdata := some node } node.type.code ans
  (ret, { sock := sock, peer := peer, ctor := ctor })

/-- The reconnect in both branches of `spp_sendto`: save the blob, connect, restore it and send.
`ret` is returned where `connect` fails. -/
def reconnect (w : Backend α υ) (node : NodeInfo α) (servType nodeId : ℕ) (ans : SppAnswer)
    (ret : ℤ) (toFlow : ℕ) (tries : List (Try α υ)) : Outcome α υ :=
  let strSendData := w.ctor.blob
  let (retVal, w) := w.connect user node ans.connect ans.linked
  if retVal = 0 then
    let toFlow := w.ctor.commuMng.getFlow servType nodeId
    if toFlow > 0 then
      let w := { w with ctor := { w.ctor with blob := strSendData } }
      let t := w.trySend toFlow ans.second
      ⟨t.ret, toFlow, tries ++ [t], t.after⟩
    else ⟨-5, toFlow, tries, w⟩
  else ⟨ret, toFlow, tries, w⟩

/-- `spp_sendto` with the blob in the caller's buffer; a division by zero is `none`. -/
def sppSendto (w : Backend α υ) (config : Option (RouteConfig α)) (servType routeKey : ℕ)
    (ans : SppAnswer) : Option (Outcome α υ) :=
  match config with
  | none => some ⟨-1, 0, [], w⟩
  | some config =>
      match config.mapRouteTable.find? servType with
      | none => some ⟨-2, 0, [], w⟩
      | some tbl =>
          match tbl.nodeKey routeKey with
          | none => none
          | some nodeKey =>
              let nodeId := tbl.getNodeId nodeKey
              if nodeId = 0 then some ⟨-3, 0, [], w⟩
              else
                let toFlow := w.ctor.commuMng.getFlow servType nodeId
                if toFlow > 0 then
                  let t := w.trySend toFlow ans.first
                  if t.ret = -eNotFindfd ∨ t.ret = -eNeedClose then
                    match tbl.getNodeInfo nodeId with
                    | some node =>
                        some (t.after.reconnect user node servType nodeId ans t.ret toFlow [t])
                    | none => some ⟨t.ret, toFlow, [t], t.after⟩
                  else some ⟨t.ret, toFlow, [t], t.after⟩
                else
                  match tbl.getNodeInfo nodeId with
                  | none => some ⟨-6, toFlow, [], w⟩
                  -- `ret` is still what `GetRouteTable` has returned
                  | some node => some (w.reconnect user node servType nodeId ans 0 toFlow [])

/-- The caller fills its buffer. -/
def withBlob (w : Backend α υ) (blob : Payload) : Backend α υ :=
  { w with ctor := { w.ctor with blob := blob } }

end Backend

/-- What can happen to the backend connections. -/
inductive BackendOp
  | ready (ev : Ready)
  | checkExpire (now : ℤ)
  | sppSendbyflow (c : SendCall)
  | sppSendto (servType routeKey : ℕ) (blob : Payload) (ans : SppAnswer)

/-- One of these; only `spp_sendto` has an outcome. -/
def Backend.step (user : Handler (Payload × υ)) (config : Option (RouteConfig α))
    (w : Backend α υ) : BackendOp → Backend α υ × Option (Outcome α υ)
  | .ready ev =>
      let (sock, ctor) := SockCommu.handleReady (ctorHandler user) w.sock w.ctor ev
      ({ w with sock := sock, ctor := ctor }, none)
  | .checkExpire now =>
      let (sock, ctor) := SockCommu.checkExpire (ctorHandler user) w.sock w.ctor now
      ({ w with sock := sock, ctor := ctor }, none)
  | .sppSendbyflow c => ({ w with sock := (w.sock.sendto c).1 }, none)
  | .sppSendto servType routeKey blob ans =>
      match (w.withBlob blob).sppSendto user config servType routeKey ans with
      | some o => (o.after, some o)
      | none => (w, none)

end Spp
