import Spp.Sock.ConnSet

/-!
# The socket component

`CTSockCommu` ties the connection set to epoll: it accepts and opens connections under
growing flows, moves bytes when a descriptor is ready, sends by flow, and closes expired
connections.  Its user sees all this through callbacks, and a callback may send again.

One element of an epoll result is one event here, and so is a call from outside.  The
answers of the kernel, the memory pool and the clock come with the event.  A callback is a
function of the user's state; an unregistered one makes no call and returns 0.  What the
callback for `CB_SENDDONE` sends again comes with the `sendto` it answers.  The extended
information in the blobs, the load check and the printing are left out.

## Main definitions

* `Kernel` — the open descriptors and the epoll registrations.
* `SockCommu` — the component, with the history of its calls on the connection set.
* `sendto`, `handleAccept`, `handleAcceptUdp`, `pollOut`, `recvLoop`, `connect`,
  `checkExpire` — what it does.
* `Event`, `step` — one event, for runs.
-/

namespace Spp

/-! ## The kernel -/

/-- The events of an epoll registration. -/
structure EpollMask where
  epollin : Bool
  epollout : Bool
  epollet : Bool
  deriving DecidableEq

/-- `EPOLLIN | EPOLLET` -/
def maskIn : EpollMask := ⟨true, false, true⟩

/-- `EPOLLIN | EPOLLOUT | EPOLLET` -/
def maskInOut : EpollMask := ⟨true, true, true⟩

/-- The data and the events that a descriptor is registered with. -/
structure Registration where
  flow : ℕ
  mask : EpollMask
  deriving DecidableEq

/-- The open descriptors, and the registrations in the epoll set. -/
structure Kernel where
  opened : ℕ → Bool
  epoll : ℕ → Option Registration

namespace Kernel

def «open» (k : Kernel) (fd : ℕ) : Kernel := { k with opened := Function.update k.opened fd true }

/-- A closed descriptor leaves the epoll set. -/
def close (k : Kernel) (fd : ℕ) : Kernel :=
  { opened := Function.update k.opened fd false, epoll := Function.update k.epoll fd none }

def add (k : Kernel) (fd flow : ℕ) (mask : EpollMask) : Kernel :=
  { k with epoll := Function.update k.epoll fd (some ⟨flow, mask⟩) }

/-- `modify` fails for a descriptor that is not registered. -/
def modify (k : Kernel) (fd flow : ℕ) (mask : EpollMask) : Kernel :=
  { k with epoll := Function.update k.epoll fd ((k.epoll fd).map fun _ => ⟨flow, mask⟩) }

end Kernel

/-! ## The component -/

/-- A `CTSockCommu`.  `calls` and `stalls` are history, which nothing reads: the calls on
the connection set, and the number of callbacks for `CB_SENDDONE` that came back with
bytes waiting on the stream they were called for. -/
structure SockCommu where
  connset : ConnSet
  kernel : Kernel
  /-- The type of a listening descriptor, 0 for any other. -/
  sockbind : ℕ → ℕ
  maxbindfd : ℕ
  flow : ℕ
  expiretime : ℤ
  checkExpireInterval : ℤ
  lastchecktime : ℤ
  calls : List (ConnOp × ConnOut)
  stalls : ℕ

/-- A `sendto` with the answers it gets: `k` for the bytes in the cache, `k'` for the new
data, and the calls that the callback for `CB_SENDDONE` makes. -/
inductive SendCall
  | mk (flow : ℕ) (data : Payload) (k k' : KSend) (alloc : Alloc) (now : ℤ)
      (senddone : List SendCall)

namespace SockCommu

/-- After `init`: the listening descriptors are registered for input. -/
def init (maxconn : ℕ) (pos : 0 < maxconn) (bound : maxconn < 2 ^ 31) (sockbind : ℕ → ℕ)
    (maxbindfd : ℕ) (expiretime checkExpireInterval now : ℤ) : SockCommu where
  connset := .new maxconn pos bound
  kernel := {
    opened := fun fd => fd ≤ maxbindfd ∧ sockbind fd ≠ 0
    epoll := fun fd =>
      if fd ≤ maxbindfd ∧ sockbind fd ≠ 0 then some ⟨0, ⟨true, false, false⟩⟩ else none }
  sockbind := sockbind
  maxbindfd := maxbindfd
  flow := 0
  expiretime := expiretime
  checkExpireInterval := checkExpireInterval
  lastchecktime := now
  calls := []
  stalls := 0

/-- A call on the connection set. -/
def call (s : SockCommu) (op : ConnOp) : SockCommu × ConnOut :=
  let (connset, out) := s.connset.exec op
  ({ s with connset := connset, calls := s.calls ++ [(op, out)] }, out)

def openFd (s : SockCommu) (fd : ℕ) : SockCommu := { s with kernel := s.kernel.open fd }

def closeFd (s : SockCommu) (fd : ℕ) : SockCommu := { s with kernel := s.kernel.close fd }

def add (s : SockCommu) (fd flow : ℕ) (mask : EpollMask) : SockCommu :=
  { s with kernel := s.kernel.add fd flow mask }

def modify (s : SockCommu) (fd flow : ℕ) (mask : EpollMask) : SockCommu :=
  { s with kernel := s.kernel.modify fd flow mask }

/-- `closeconn` of the connection set, with the `close` of a stream's descriptor. -/
def closeconn (s : SockCommu) (flow : ℕ) : SockCommu :=
  let cc := s.connset.getcc flow
  let s := (s.call (.closeconn flow)).1
  if cc.flow = flow ∧ flow ≠ 0 ∧ cc.type ≠ udpSocket then s.closeFd cc.fd else s

/-- The flow counter grows; 0 is left out. -/
def bumpFlow (s : SockCommu) : SockCommu :=
  let flow := u32 (s.flow + 1)
  { s with flow := if flow = 0 then 1 else flow }

/-- `addconn` of the connection set, which also moves the flow counter. -/
def addconn (s : SockCommu) (fd type : ℕ) (now : ℤ) : SockCommu × ConnOut :=
  let (s, out) := s.call (.addconn s.flow fd type now)
  ({ s with flow := out.flow }, out)

/-- `addconn` leaves the set as it is, or stores the entry in a free slot; the flow moves
ahead by `maxconn_` at most. -/
theorem addconn_cases (s : SockCommu) (fd type : ℕ) (now : ℤ) :
    ∃ g, (g = s.flow ∨ ∃ k ≤ s.connset.maxconn, g = u32 (s.flow + k)) ∧
      ((s.connset.exec (.addconn s.flow fd type now) = (s.connset, ⟨some (-1), g, []⟩) ∧
        s.addconn fd type now = ({ s with
          flow := g
          calls := s.calls ++ [(.addconn s.flow fd type now, ⟨some (-1), g, []⟩)] },
          ⟨some (-1), g, []⟩)) ∨
      ((s.connset.getcc g).flow = 0 ∧ s.connset.exec (.addconn s.flow fd type now) =
          ((s.connset.store g fd type now).1, ⟨some 0, g, []⟩) ∧
        s.addconn fd type now = ({ s with
          connset := (s.connset.store g fd type now).1
          flow := g
          calls := s.calls ++ [(.addconn s.flow fd type now, ⟨some 0, g, []⟩)] },
          ⟨some 0, g, []⟩))) := by
  obtain ⟨g, hg, hfail | ⟨hstore, hfree⟩⟩ :=
    ConnSet.addconn_spec s.connset s.flow fd type now
  · have hexec : s.connset.exec (.addconn s.flow fd type now) =
        (s.connset, ⟨some (-1), g, []⟩) := hfail
    refine ⟨g, hg, .inl ⟨hexec, ?_⟩⟩
    rw [SockCommu.addconn, SockCommu.call, hexec]
  · have hexec : s.connset.exec (.addconn s.flow fd type now) =
        ((s.connset.store g fd type now).1, ⟨some 0, g, []⟩) := hstore
    refine ⟨g, hg, .inr ⟨hfree, hexec, ?_⟩⟩
    rw [SockCommu.addconn, SockCommu.call, hexec]

/-! ### Sending -/

/-- The history of callbacks for `CB_SENDDONE`. -/
def noteStall (s : SockCommu) (flow : ℕ) : SockCommu :=
  let cc := s.connset.getcc flow
  if cc.flow = flow ∧ cc.type ≠ udpSocket ∧ cc.w.dataLen ≠ 0 then { s with stalls := s.stalls + 1 }
  else s

mutual

/-- `sendto`, with its code.  The blob of length 0 closes the connection. -/
def sendto (s : SockCommu) : SendCall → SockCommu × ℤ
  | ⟨flow, data, k, k', alloc, now, senddone⟩ =>
      if data.1.length = 0 ∧ flow > 0 then (s.closeconn flow, 0)
      else
        let (s, out) := s.call (.send flow data k k' alloc now)
        -- no memory
        let ret := out.ret.getD (-eNeedClose)
        if ret ≥ 0 then
          if ret < data.1.length then
            let cc := s.connset.getcc flow
            if cc.type ≠ udpSocket then (s.modify cc.fd flow maskInOut, ret)
            else (s.closeconn flow, ret)
          else
            -- everything is sent: the callback may send again
            let s := (s.sendtoAll senddone).noteStall flow
            let cc := s.connset.getcc flow
            if cc.type ≠ udpSocket then (s.modify cc.fd flow maskIn, ret)
            else (s.closeconn flow, ret)
        else if ret = -eNeedClose then (s.closeconn flow, ret)
        else (s, ret)

/-- The calls of a callback. -/
def sendtoAll (s : SockCommu) : List SendCall → SockCommu
  | [] => s
  | c :: cs => (s.sendto c).1.sendtoAll cs

end

end SockCommu

/-! ## Callbacks -/

/-- What a callback is called for. -/
inductive Notice
  | connect (flow : ℕ)
  | connected (flow : ℕ) (data : List UInt8)
  | recvdata (flow : ℕ) (data : List UInt8)
  | recvdone (flow : ℕ) (len : ℤ)
  | senderror (flow : ℕ) (data : List UInt8)
  | disconnect (flow : ℕ)
  | overload
  | timeout (flow : ℕ)

/-- The `sendto` calls that a callback makes, and what it returns. -/
structure Reply where
  sends : List SendCall
  ret : ℤ

/-- The user's callbacks, which share a state. -/
abbrev Handler (σ : Type) := σ → Notice → σ × Reply

/-- The answers for an accepted connection: the descriptor, `none` for an error, and
whether `set_nonblock` and the epoll `add` succeed. -/
structure AcceptAnswer where
  fd : Option ℕ
  nonblock : Bool
  added : Bool
  now : ℤ

/-- The answers for one call of `recv`. -/
structure RecvAnswer where
  k : KRecv
  alloc : Alloc
  now : ℤ

/-- One element of an epoll result.  The answers are those that its descriptor needs. -/
structure Ready where
  fd : ℕ
  flow : ℕ
  epollin : Bool
  epollout : Bool
  accept : AcceptAnswer
  recv : RecvAnswer
  flush : KSend
  recvs : List RecvAnswer
  now : ℤ

/-- The answers for an opened connection. -/
structure ConnectAnswer where
  fd : ℕ
  added : Bool
  now : ℤ

/-- An event. -/
inductive Event
  | ready (ev : Ready)
  | sendto (c : SendCall)
  | connect (type : ℕ) (ans : ConnectAnswer)
  | checkExpire (now : ℤ)

namespace SockCommu

variable {σ : Type} (h : Handler σ)

/-- Call a callback: what it returns, and the state after the calls it makes. -/
def callback (s : SockCommu) (u : σ) (n : Notice) : ℤ × SockCommu × σ :=
  ((h u n).2.ret, s.sendtoAll (h u n).2.sends, (h u n).1)

/-! ### Connections -/

def handleAccept (s : SockCommu) (u : σ) (fd : ℕ) (ans : AcceptAnswer) : SockCommu × σ :=
  match ans.fd with
  | none => (s, u)
  | some clifd =>
      -- the kernel does not hand out a descriptor that is open
      if s.kernel.opened clifd then (s, u)
      else
        let s := (s.openFd clifd).bumpFlow
        let (ret, s, u) := callback h s u (.connected s.flow [])
        if ret ≠ 0 then (s.closeFd clifd, u)
        else if ans.nonblock = false then (s.closeFd clifd, u)
        else
          let (s, out) := s.addconn clifd (s.sockbind fd) ans.now
          if out.ret ≠ some 0 then (callback h (s.closeFd clifd) u .overload).2
          else if ans.added = false then (s.closeFd clifd, u)
          else (s.add clifd s.flow maskIn, u)

def handleAcceptUdp (s : SockCommu) (u : σ) (fd : ℕ) (ans : RecvAnswer) : SockCommu × σ :=
  let (s, out) := s.bumpFlow.addconn fd udpSocket ans.now
  if out.ret ≠ some 0 then (callback h s u .overload).2
  else
    let flow := s.flow
    let (s, out) := s.call (.recv flow ans.k ans.alloc ans.now)
    match out.ret with
    -- the exception leaves `poll`
    | none => (s, u)
    | some ret =>
        if ret > 0 then
          let data := (s.connset.getcc flow).r.content
          let (ret, s, u) := callback h s u (.connected flow data)
          if ret ≠ 0 then (s.closeconn flow, u)
          else (callback h s u (.recvdata flow data)).2
        else (s.closeconn flow, u)

/-- `connect`, with its code. -/
def connect (s : SockCommu) (u : σ) (type : ℕ) (ans : ConnectAnswer) : ℤ × SockCommu × σ :=
  if type = 0 then (-1, s, u)
  -- the kernel does not hand out a descriptor that is open
  else if s.kernel.opened ans.fd then (-1, s, u)
  else
    let (s, out) := (s.openFd ans.fd).bumpFlow.addconn ans.fd type ans.now
    if out.ret ≠ some 0 then (-1, (callback h (s.closeFd ans.fd) u .overload).2)
    else if ans.added = false then (-2, s.closeFd ans.fd, u)
    else
      let s := s.add ans.fd s.flow maskIn
      let (ret, s, u) := callback h s u (.connect s.flow)
      if ret ≠ 0 then (-3, s.closeFd ans.fd, u)
      else
        let (ret, s, u) := callback h s u (.connected s.flow [])
        if ret ≠ 0 then (-3, s.closeFd ans.fd, u)
        else (0, s, u)

/-! ### Ready descriptors -/

/-- The branch of `poll` for `EPOLLOUT`. -/
def pollOut (s : SockCommu) (u : σ) (ev : Ready) : SockCommu × σ :=
  let (s, out) := s.call (.sendfromcache ev.flow ev.flush ev.now)
  if out.ret = some 0 then (s.modify ev.fd ev.flow maskIn, u)
  else if out.ret = some (-eNeedClose) then
    let data := (s.connset.getcc ev.flow).w.content
    let (_, s, u) := callback h s u (.senderror ev.flow data)
    (s.closeconn ev.flow, u)
  else (s, u)

/-- The loop of `poll` for `EPOLLIN`.  After the last answer the kernel says `EAGAIN`. -/
def recvLoop (flow : ℕ) (now : ℤ) : SockCommu → σ → List RecvAnswer → SockCommu × σ
  | s, u, [] => ((s.call (.recv flow (.fail 11) .exact now)).1, u)
  | s, u, ans :: rest =>
      let (s, out) := s.call (.recv flow ans.k ans.alloc ans.now)
      -- no memory
      let ret := out.ret.getD (-eNeedClose)
      if ret > 0 then
        let data := (s.connset.getcc flow).r.content
        let (ret, s, u) := callback h s u (.recvdata flow data)
        if ret = 0 then recvLoop flow now s u rest
        else if ret > 0 then
          let (_, s, u) := callback h s u (.recvdone flow ret)
          recvLoop flow now (s.call (.skipRead flow ret.toNat)).1 u rest
        else (s.closeconn flow, u)
      else if ret = -eNeedClose then
        let (_, s, u) := callback h s u (.disconnect flow)
        (s.closeconn flow, u)
      else (s, u)

/-- What `poll` does for one element of the epoll result. -/
def handleReady (s : SockCommu) (u : σ) (ev : Ready) : SockCommu × σ :=
  if ev.fd ≤ s.maxbindfd ∧ s.sockbind ev.fd ≠ 0 then
    if ev.epollin then
      if s.sockbind ev.fd ≠ udpSocket then handleAccept h s u ev.fd ev.accept
      else handleAcceptUdp h s u ev.fd ev.recv
    else (s, u)
  else if ev.epollin = false ∧ ev.epollout = false then
    (callback h (s.closeconn ev.flow) u (.disconnect ev.flow)).2
  else
    let (s, u) := if ev.epollout then pollOut h s u ev else (s, u)
    if ev.epollin then recvLoop h ev.flow ev.now s u ev.recvs else (s, u)

/-! ### Expired connections -/

/-- Close the flows of a list. -/
def closeExpired : SockCommu → σ → List ℕ → SockCommu × σ
  | s, u, [] => (s, u)
  | s, u, flow :: flows =>
      let (_, s, u) := callback h (s.closeconn flow) u (.timeout flow)
      closeExpired s u flows

def checkExpire (s : SockCommu) (u : σ) (now : ℤ) : SockCommu × σ :=
  if s.checkExpireInterval = 0 then (s, u)
  else if now - s.lastchecktime > s.checkExpireInterval then
    let (s, u) := closeExpired h s u (s.connset.checkExpire (now - s.expiretime))
    ({ s with lastchecktime := now }, u)
  else (s, u)

/-- One event, with the code that a call from outside gets. -/
def step (p : SockCommu × σ) : Event → (SockCommu × σ) × ℤ
  | .ready ev => (handleReady h p.1 p.2 ev, 0)
  | .sendto c => (((p.1.sendto c).1, p.2), (p.1.sendto c).2)
  | .connect type ans => ((connect h p.1 p.2 type ans).2, (connect h p.1 p.2 type ans).1)
  | .checkExpire now => (checkExpire h p.1 p.2 now, 0)

/-! ## Properties that an event keeps -/

/-- The steps that make up a `sendto` keep the property. -/
structure Sending (J : SockCommu → Prop) : Prop where
  send : ∀ s flow data k k' alloc now, J s → J (s.call (.send flow data k k' alloc now)).1
  closeconn : ∀ s flow, J s → J (s.closeconn flow)
  modify : ∀ s fd flow mask, J s → J (s.modify fd flow mask)
  stall : ∀ s, J s → J { s with stalls := s.stalls + 1 }

namespace Sending

variable {J : SockCommu → Prop} {s : SockCommu} {u : σ} {h}

theorem noteStall (hJ : Sending J) (hs : J s) (flow : ℕ) : J (s.noteStall flow) := by
  unfold SockCommu.noteStall
  dsimp only
  split
  · exact hJ.stall s hs
  · exact hs

mutual

theorem sendto (hJ : Sending J) (s : SockCommu) (hs : J s) : ∀ c, J (s.sendto c).1
  | ⟨flow, data, k, k', alloc, now, senddone⟩ => by
      have hcall := hJ.send s flow data k k' alloc now hs
      have hall := hJ.noteStall (sendtoAll hJ _ hcall senddone) flow
      rw [SockCommu.sendto]
      dsimp only
      split
      · exact hJ.closeconn _ _ hs
      · split
        · split
          · split
            · exact hJ.modify _ _ _ _ hcall
            · exact hJ.closeconn _ _ hcall
          · split
            · exact hJ.modify _ _ _ _ hall
            · exact hJ.closeconn _ _ hall
        · split
          · exact hJ.closeconn _ _ hcall
          · exact hcall

theorem sendtoAll (hJ : Sending J) (s : SockCommu) (hs : J s) : ∀ cs, J (s.sendtoAll cs)
  | [] => hs
  | c :: cs => by
      rw [SockCommu.sendtoAll]
      exact sendtoAll hJ _ (sendto hJ s hs c) cs

end

theorem callback (hJ : Sending J) (hs : J s) (u : σ) (n : Notice) : J (callback h s u n).2.1 :=
  hJ.sendtoAll s hs _

end Sending

/-- The steps that make up the work on connections that are there keep the property. -/
structure Stable (J : SockCommu → Prop) : Prop where
  byFlow : ∀ s op, op.ByFlow → op ≠ .closeconn op.flow → J s → J (s.call op).1
  skipRead : ∀ s flow length, J s → J (s.call (.skipRead flow length)).1
  closeconn : ∀ s flow, J s → J (s.closeconn flow)
  modify : ∀ s fd flow mask, J s → J (s.modify fd flow mask)
  history : ∀ s last stalls, s.stalls ≤ stalls → J s →
    J { s with lastchecktime := last, stalls := stalls }

namespace Stable

variable {J : SockCommu → Prop} {s : SockCommu} {u : σ} {h}

theorem sending (hJ : Stable J) : Sending J where
  send s _ _ _ _ _ _ hs := hJ.byFlow s (.send ..) trivial nofun hs
  closeconn := hJ.closeconn
  modify := hJ.modify
  stall s hs := hJ.history s s.lastchecktime _ (Nat.le_succ _) hs

theorem sendto (hJ : Stable J) (s : SockCommu) (hs : J s) (c : SendCall) : J (s.sendto c).1 :=
  hJ.sending.sendto s hs c

theorem sendtoAll (hJ : Stable J) (s : SockCommu) (hs : J s) (cs : List SendCall) :
    J (s.sendtoAll cs) := hJ.sending.sendtoAll s hs cs

theorem callback (hJ : Stable J) (hs : J s) (u : σ) (n : Notice) : J (callback h s u n).2.1 :=
  hJ.sending.callback hs u n

theorem pollOut (hJ : Stable J) (hs : J s) (u : σ) (ev : Ready) : J (pollOut h s u ev).1 := by
  have hcall := hJ.byFlow s (.sendfromcache ev.flow ev.flush ev.now) trivial nofun hs
  unfold SockCommu.pollOut
  dsimp only
  split
  · exact hJ.modify _ _ _ _ hcall
  · split
    · exact hJ.closeconn _ _ (hJ.callback hcall _ _)
    · exact hcall

theorem recvLoop (hJ : Stable J) (flow : ℕ) (now : ℤ) (answers : List RecvAnswer) :
    ∀ s u, J s → J (recvLoop h flow now s u answers).1 := by
  induction answers with
  | nil => exact fun s u hs => hJ.byFlow s (.recv flow (.fail 11) .exact now) trivial nofun hs
  | cons ans rest ih =>
      intro s u hs
      have hcall := hJ.byFlow s (.recv flow ans.k ans.alloc ans.now) trivial nofun hs
      unfold SockCommu.recvLoop
      dsimp only
      split
      · split
        · exact ih _ _ (hJ.callback hcall _ _)
        · split
          · exact ih _ _ (hJ.skipRead _ _ _ (hJ.callback (hJ.callback hcall _ _) _ _))
          · exact hJ.closeconn _ _ (hJ.callback hcall _ _)
      · split
        · exact hJ.closeconn _ _ (hJ.callback hcall _ _)
        · exact hcall

theorem closeExpired (hJ : Stable J) (flows : List ℕ) :
    ∀ s u, J s → J (closeExpired h s u flows).1 := by
  induction flows with
  | nil => exact fun s u hs => hs
  | cons flow flows ih =>
      intro s u hs
      exact ih _ _ (hJ.callback (hJ.closeconn _ _ hs) _ _)

theorem checkExpire (hJ : Stable J) (hs : J s) (u : σ) (now : ℤ) : J (checkExpire h s u now).1 := by
  unfold SockCommu.checkExpire
  dsimp only
  split
  · exact hs
  · split
    · exact hJ.history _ _ _ (Nat.le_refl _) (hJ.closeExpired _ _ _ hs)
    · exact hs

end Stable
end SockCommu
end Spp
