import Spp.Sock.Cache
import Spp.Lib.Word
import Spp.Lib.Run

/-!
# The connection set

`CConnSet` keeps one `ConnCache` for each slot; a connection is found by its flow, at
slot `flow % maxconn_`, and a call with a flow that the slot does not carry is refused.
`send` and `sendfromcache` hand bytes to the kernel and keep what it does not take.

The kernel's answers, the memory pool and the clock are arguments.  The peer address of
a UDP connection is left out: only the kernel reads it.

## Main definitions

* `KSend`, `KRecv` — what the kernel answers.
* `ConnCache`, `ConnSet` — a connection and the set.
* `addconn`, `recv`, `send`, `sendfromcache`, `closeconn`, `checkExpire`.
* `ConnOp`, `ConnOut`, `exec` — one call, for runs.
-/

namespace Spp

/-- The largest `recv` fills `RecvBuffer`. -/
def readBufferSize : ℕ := 64 * 1024

def eNeedClose : ℤ := 10000
def eNotFindfd : ℤ := 20000
def cNeedSend : ℤ := 30000
def eintr : ℤ := 4
def eagain : ℤ := 11
def einprogress : ℤ := 115

/-- `UDP_SOCKET`; any other type is a stream. -/
def udpSocket : ℕ := 2

/-! ## The kernel -/

/-- The kernel takes some bytes from the front of the buffer, or sets `errno`. -/
inductive KSend
  | sent (n : ℕ)
  | fail (errno : ℕ)

/-- The kernel fills the buffer with some bytes, none at the end of the stream, or sets
`errno`. -/
inductive KRecv
  | data (bs : { bs : List UInt8 // bs.length ≤ readBufferSize })
  | fail (errno : ℕ)

/-- The code for a failed call. -/
def errorCode (errno : ℕ) : ℤ := if errno = 0 then -1 else -errno

/-- `CSocket::send`: the code and `sent_len`, which stays 0 on an error. -/
def KSend.answer (k : KSend) (buf : List UInt8) : ℤ × ℕ :=
  match k with
  | .sent n => (0, min n buf.length)
  | .fail errno => (errorCode errno, 0)

/-! ## A connection -/

/-- A `ConnCache`.  A slot is free when its flow is 0. -/
structure ConnCache where
  flow : ℕ
  fd : ℕ
  access : ℤ
  type : ℕ
  r : RawCache
  w : RawCache

def ConnCache.new : ConnCache := ⟨0, 0, 0, 0, .new, .new⟩

/-- What a call does to a connection, what it returns (`none` is an exception) and the
bytes that the kernel took. -/
structure ConnResult where
  cc : ConnCache
  ret : Option ℤ
  wire : List UInt8

namespace ConnCache

/-- `recv`, from the socket on. -/
def recv (cc : ConnCache) (k : KRecv) (alloc : Alloc) (now : ℤ) : ConnResult :=
  let cc := { cc with access := now }
  match k with
  | .data bs =>
      if bs.1.length > 0 then
        match cc.r.append ⟨bs.1, lt_of_le_of_lt bs.2 (by decide)⟩ alloc with
        | none => ⟨cc, none, []⟩
        | some r => ⟨{ cc with r := r }, some bs.1.length, []⟩
      else ⟨cc, some (-eNeedClose), []⟩
  | .fail errno =>
      if cc.type ≠ udpSocket ∧ errorCode errno = -eagain then ⟨cc, some (-eagain), []⟩
      else ⟨cc, some (-eNeedClose), []⟩

/-- `send`, from the new data on: the cache has been sent, which gave `wire`. -/
def sendData (cc : ConnCache) (data : Payload) (k : KSend) (alloc : Alloc) (wire : List UInt8) :
    ConnResult :=
  let cc := { cc with w := cc.w.skip cc.w.dataLen }
  let (ret, sentLen) := k.answer data.1
  if ret < 0 ∧ ret ≠ -eagain ∧ ret ≠ -einprogress ∧ ret ≠ -eintr then
    ⟨cc, some (-eNeedClose), wire⟩
  else
    let wire := wire ++ data.1.take sentLen
    if sentLen < data.1.length then
      match cc.w.append (data.drop sentLen) alloc with
      | none => ⟨cc, none, wire⟩
      | some w => ⟨{ cc with w := w }, some sentLen, wire⟩
    else ⟨cc, some sentLen, wire⟩

/-- `send`: `k` answers for the bytes in the cache, `k'` for the new data. -/
def send (cc : ConnCache) (data : Payload) (k k' : KSend) (alloc : Alloc) (now : ℤ) :
    ConnResult :=
  let cc := { cc with access := now }
  if cc.w.dataLen ≠ 0 then
    let (ret, sentLen) := k.answer cc.w.content
    let wire := cc.w.content.take sentLen
    if ret = -eagain ∨ ret = -einprogress ∨ ret = -eintr ∨
        (ret = 0 ∧ sentLen < cc.w.dataLen) then
      let w := cc.w.skip sentLen
      match w.append data alloc with
      | none => ⟨{ cc with w := w }, none, wire⟩
      | some w => ⟨{ cc with w := w }, some 0, wire⟩
    else if ret < 0 then ⟨cc, some (-eNeedClose), wire⟩
    else cc.sendData data k' alloc wire
  else cc.sendData data k' alloc []

def sendfromcache (cc : ConnCache) (k : KSend) (now : ℤ) : ConnResult :=
  let cc := { cc with access := now }
  if cc.w.dataLen = 0 then ⟨cc, some 0, []⟩
  else
    let (ret, sentLen) := k.answer cc.w.content
    let wire := cc.w.content.take sentLen
    if ret = 0 then
      if sentLen = 0 then ⟨cc, some cNeedSend, wire⟩
      else if sentLen = cc.w.dataLen then ⟨{ cc with w := cc.w.skip sentLen }, some 0, wire⟩
      else ⟨{ cc with w := cc.w.skip sentLen }, some sentLen, wire⟩
    else if ret = -eagain then ⟨cc, some cNeedSend, wire⟩
    else ⟨cc, some (-eNeedClose), wire⟩

/-- What `closeconn` leaves of a connection. -/
def close (cc : ConnCache) : ConnCache :=
  { cc with
    flow := 0, access := 0, type := 0
    r := cc.r.skip cc.r.dataLen, w := cc.w.skip cc.w.dataLen }

/-! ### What a call does -/

variable {cc : ConnCache} {now : ℤ}

/-- The connection is the same one: its flow, descriptor and type. -/
structure Same (cc cc' : ConnCache) : Prop where
  flow : cc'.flow = cc.flow
  fd : cc'.fd = cc.fd
  type : cc'.type = cc.type

theorem Same.trans {cc' cc'' : ConnCache} (h : cc.Same cc') (h' : cc'.Same cc'') : cc.Same cc'' :=
  ⟨h'.flow.trans h.flow, h'.fd.trans h.fd, h'.type.trans h.type⟩

theorem Same.of_eq {cc' : ConnCache} {r w : RawCache}
    (h : cc' = { cc with access := now, r := r, w := w }) : cc.Same cc' := by
  rw [h]
  exact ⟨rfl, rfl, rfl⟩

/-- The kernel takes no more than it is given, and nothing when it fails. -/
theorem answer_spec (k : KSend) (buf : List UInt8) :
    (k.answer buf).2 ≤ buf.length ∧ ((k.answer buf).1 < 0 ∧ (k.answer buf).2 = 0 ∨
      (k.answer buf).1 = 0) := by
  cases k with
  | sent n => exact ⟨Nat.min_le_right _ _, .inr rfl⟩
  | fail errno =>
      refine ⟨Nat.zero_le _, .inl ⟨?_, rfl⟩⟩
      change errorCode errno < 0
      unfold errorCode
      split <;> omega

/-- `recv` touches the read cache only, and sends nothing. -/
structure RecvSpec (cc : ConnCache) (now : ℤ) (res : ConnResult) : Prop where
  same : res.cc = { cc with access := now, r := res.cc.r }
  wire : res.wire = []
  ret : res.ret ≠ some (-eNotFindfd)

theorem recv_spec (cc : ConnCache) (k : KRecv) (alloc : Alloc) (now : ℤ) :
    RecvSpec cc now (cc.recv k alloc now) := by
  unfold recv
  dsimp only
  repeat' split
  all_goals refine ⟨rfl, rfl, ?_⟩
  all_goals simp [eNeedClose, eNotFindfd, eagain]

/-- What `send` can do to the write cache: it throws, it asks for a close, or it keeps
the bytes that the kernel has not taken, and has bytes left when it returns less than the
length of the new data. -/
structure SendSpec (cc : ConnCache) (data : Payload) (now : ℤ) (res : ConnResult) : Prop where
  same : res.cc = { cc with access := now, w := res.cc.w }
  ret : res.ret = none ∨ res.ret = some (-eNeedClose) ∨ ∃ n : ℕ, n ≤ data.1.length ∧
    res.ret = some (n : ℤ) ∧ res.wire ++ res.cc.w.content = cc.w.content ++ data.1 ∧
    (0 < data.1.length → (n < data.1.length ↔ res.cc.w.content ≠ []))

theorem sendData_spec (cc : ConnCache) (data : Payload) (k : KSend) (alloc : Alloc) (now : ℤ)
    (wire : List UInt8) (hwire : wire = cc.w.content) :
    SendSpec cc data now ({ cc with access := now }.sendData data k alloc wire) := by
  obtain ⟨hle, -⟩ := answer_spec k data.1
  have hempty := RawCache.content_skip_all cc.w
  unfold sendData
  dsimp only
  split
  · exact ⟨rfl, .inr (.inl rfl)⟩
  · split
    · next hlt =>
      split
      · exact ⟨rfl, .inl rfl⟩
      · next w hw =>
        have hcontent := RawCache.content_append hw
        rw [hempty, List.nil_append] at hcontent
        refine ⟨rfl, .inr (.inr ⟨_, hle, rfl, ?_, fun _ => ⟨fun _ => ?_, fun _ => hlt⟩⟩)⟩
        · change _ ++ w.content = _
          rw [hcontent, hwire, List.append_assoc]
          exact congrArg _ (List.take_append_drop _ _)
        · change w.content ≠ []
          rw [hcontent]
          intro hnil
          have hzero := congrArg List.length hnil
          rw [Payload.drop, List.length_drop, List.length_nil] at hzero
          omega
    · next hge =>
      refine ⟨rfl, .inr (.inr ⟨_, hle, rfl, ?_, fun _ => ⟨fun hlt => absurd hlt hge, ?_⟩⟩)⟩
      · rw [hempty, List.append_nil, hwire, List.take_of_length_le (by omega)]
      · exact fun hne => absurd hempty hne

theorem send_spec (cc : ConnCache) (data : Payload) (k k' : KSend) (alloc : Alloc) (now : ℤ) :
    SendSpec cc data now (cc.send data k k' alloc now) := by
  obtain ⟨hle, hcode⟩ := answer_spec k cc.w.content
  rw [RawCache.length_content] at hle
  unfold send
  dsimp only
  split
  · next hne =>
    split
    · next hpart =>
      split
      · exact ⟨rfl, .inl rfl⟩
      · next w hw =>
        have hcontent := RawCache.content_append hw
        rw [RawCache.content_skip] at hcontent
        refine ⟨rfl, .inr (.inr ⟨0, Nat.zero_le _, rfl, ?_, fun hpos => ⟨fun _ => ?_, fun _ => hpos⟩⟩)⟩
        · change _ ++ w.content = _
          rw [hcontent, ← List.append_assoc, List.take_append_drop]
        · change w.content ≠ []
          rw [hcontent]
          intro hnil
          rw [(List.append_eq_nil_iff.mp hnil).2] at hpos
          exact absurd hpos (by simp)
    · next hpart =>
      split
      · exact ⟨rfl, .inr (.inl rfl)⟩
      · next hneg =>
        -- the cache has been sent completely
        have hall : (k.answer cc.w.content).2 = cc.w.dataLen := by
          rcases hcode with ⟨hlt, -⟩ | hzero
          · exact absurd hlt hneg
          · by_contra hpartial
            exact hpart (.inr (.inr (.inr ⟨hzero, by omega⟩)))
        refine sendData_spec cc data k' alloc now _ ?_
        exact List.take_of_length_le (by rw [hall, RawCache.length_content])
  · next hzero =>
    refine sendData_spec cc data k' alloc now [] ?_
    exact (RawCache.dataLen_eq_zero_iff.mp (not_not.mp hzero)).symm

/-- What `sendfromcache` can do to the write cache: it keeps the bytes that the kernel has
not taken, and it returns 0 exactly when none is left. -/
structure FlushSpec (cc : ConnCache) (now : ℤ) (res : ConnResult) : Prop where
  same : res.cc = { cc with access := now, w := res.cc.w }
  wire : res.wire ++ res.cc.w.content = cc.w.content
  ret : res.ret = some (-eNeedClose) ∨ res.ret = some 0 ∧ res.cc.w.content = [] ∨
    ∃ n, res.ret = some n ∧ 0 < n ∧ res.cc.w.content ≠ []

theorem sendfromcache_spec (cc : ConnCache) (k : KSend) (now : ℤ) :
    FlushSpec cc now (cc.sendfromcache k now) := by
  obtain ⟨hle, hcode⟩ := answer_spec k cc.w.content
  rw [RawCache.length_content] at hle
  unfold sendfromcache
  dsimp only
  split
  · next hzero =>
    exact ⟨rfl, rfl, .inr (.inl ⟨rfl, RawCache.dataLen_eq_zero_iff.mp hzero⟩)⟩
  · next hne =>
    have hcontent : cc.w.content ≠ [] := fun hnil => hne (RawCache.dataLen_eq_zero_iff.mpr hnil)
    have hskip := RawCache.content_skip cc.w (k.answer cc.w.content).2
    split
    · split
      · next hnone =>
        refine ⟨rfl, ?_, .inr (.inr ⟨_, rfl, by decide, hcontent⟩)⟩
        rw [hnone]
        rfl
      · next hsome =>
        have hwire : cc.w.content.take (k.answer cc.w.content).2 ++
            (cc.w.skip (k.answer cc.w.content).2).content = cc.w.content := by
          rw [hskip, List.take_append_drop]
        split
        · next hall =>
          refine ⟨rfl, hwire, .inr (.inl ⟨rfl, ?_⟩)⟩
          rw [hskip]
          exact List.drop_eq_nil_of_le (by rw [RawCache.length_content]; omega)
        · next hpart =>
          refine ⟨rfl, hwire, .inr (.inr ⟨_, rfl, by omega, ?_⟩)⟩
          rw [hskip]
          intro hnil
          have hlen := List.drop_eq_nil_iff.mp hnil
          rw [RawCache.length_content] at hlen
          omega
    · next hfail =>
      have hnone : (k.answer cc.w.content).2 = 0 := by
        rcases hcode with ⟨-, hnone⟩ | hzero
        · exact hnone
        · exact absurd hzero hfail
      split
      · refine ⟨rfl, ?_, .inr (.inr ⟨_, rfl, by decide, hcontent⟩)⟩
        rw [hnone]
        rfl
      · refine ⟨rfl, ?_, .inl rfl⟩
        rw [hnone]
        rfl

end ConnCache

/-! ## The set -/

/-- A `CConnSet`. -/
structure ConnSet where
  maxconn : ℕ
  ccs : ℕ → ConnCache
  curconn : ℤ
  pos : 0 < maxconn
  bound : maxconn < 2 ^ 31

/-- What a call returns: the code, the flow that `addconn` leaves in its argument, and
the bytes that the kernel took. -/
structure ConnOut where
  ret : Option ℤ
  flow : ℕ
  wire : List UInt8

namespace ConnSet

/-- A new set. -/
def new (maxconn : ℕ) (pos : 0 < maxconn) (bound : maxconn < 2 ^ 31) : ConnSet :=
  ⟨maxconn, fun _ => .new, 0, pos, bound⟩

def getcc (s : ConnSet) (flow : ℕ) : ConnCache := s.ccs (flow % s.maxconn)

def setcc (s : ConnSet) (flow : ℕ) (cc : ConnCache) : ConnSet :=
  { s with ccs := Function.update s.ccs (flow % s.maxconn) cc }

/-- The loop of `addconn`: the flow of the next free slot, or `endflow`. -/
def probe (s : ConnSet) (endflow : ℕ) : ℕ → ℕ → ℕ
  | 0, flow => flow
  | fuel + 1, flow =>
      let flow := u32 (flow + 1)
      if flow = endflow then flow
      else if (s.getcc flow).flow = 0 then flow
      else s.probe endflow fuel flow

/-- The entry is stored under `flow`. -/
def store (s : ConnSet) (flow fd type : ℕ) (now : ℤ) : ConnSet × ConnOut :=
  ({ s.setcc flow { s.getcc flow with flow := flow, fd := fd, access := now, type := type } with
      curconn := s.curconn + 1 }, ⟨some 0, flow, []⟩)

/-- `addconn`, whose argument `flow` is a reference. -/
def addconn (s : ConnSet) (flow fd type : ℕ) (now : ℤ) : ConnSet × ConnOut :=
  if (s.getcc flow).flow > 0 then
    let endflow := u32 (flow + s.maxconn)
    let flow := s.probe endflow s.maxconn flow
    if flow = endflow then (s, ⟨some (-1), flow, []⟩)
    else s.store flow fd type now
  else s.store flow fd type now

/-- Find the connection first, for `recv`, `send` and `sendfromcache`. -/
def on (s : ConnSet) (flow : ℕ) (f : ConnCache → ConnResult) : ConnSet × ConnOut :=
  let cc := s.getcc flow
  if cc.flow ≠ flow ∨ flow = 0 then (s, ⟨some (-eNotFindfd), flow, []⟩)
  else
    let res := f cc
    (s.setcc flow res.cc, ⟨res.ret, flow, res.wire⟩)

def recv (s : ConnSet) (flow : ℕ) (k : KRecv) (alloc : Alloc) (now : ℤ) : ConnSet × ConnOut :=
  s.on flow fun cc => cc.recv k alloc now

def send (s : ConnSet) (flow : ℕ) (data : Payload) (k k' : KSend) (alloc : Alloc) (now : ℤ) :
    ConnSet × ConnOut :=
  s.on flow fun cc => cc.send data k k' alloc now

def sendfromcache (s : ConnSet) (flow : ℕ) (k : KSend) (now : ℤ) : ConnSet × ConnOut :=
  s.on flow fun cc => cc.sendfromcache k now

/-- `closeconn`.  What the `close` of a stream's descriptor does to the kernel's tables is
modelled with these. -/
def closeconn (s : ConnSet) (flow : ℕ) : ConnSet × ConnOut :=
  let cc := s.getcc flow
  if cc.flow = flow ∧ flow ≠ 0 then
    ({ s.setcc flow cc.close with curconn := s.curconn - 1 }, ⟨some 0, flow, []⟩)
  else (s, ⟨some (-eNotFindfd), flow, []⟩)

/-- The skip of read bytes through `getcc`, which `poll` does without a look at the flow. -/
def skipRead (s : ConnSet) (flow length : ℕ) : ConnSet :=
  s.setcc flow { s.getcc flow with r := (s.getcc flow).r.skip length }

/-- `check_expire`: the flows whose last access is before the deadline. -/
def checkExpire (s : ConnSet) (deadline : ℤ) : List ℕ :=
  ((List.range s.maxconn).filter fun i =>
    (s.ccs i).flow > 0 ∧ (s.ccs i).access < deadline).map fun i => (s.ccs i).flow

end ConnSet

/-! ## Calls -/

/-- A call on the set. -/
inductive ConnOp
  | addconn (flow fd type : ℕ) (now : ℤ)
  | recv (flow : ℕ) (k : KRecv) (alloc : Alloc) (now : ℤ)
  | send (flow : ℕ) (data : Payload) (k k' : KSend) (alloc : Alloc) (now : ℤ)
  | sendfromcache (flow : ℕ) (k : KSend) (now : ℤ)
  | closeconn (flow : ℕ)
  | skipRead (flow length : ℕ)

/-- The call looks its connection up by the flow. -/
def ConnOp.ByFlow : ConnOp → Prop
  | .addconn .. | .skipRead .. => False
  | _ => True

/-- The flow that a call is made with. -/
def ConnOp.flow : ConnOp → ℕ
  | .addconn flow _ _ _ | .recv flow _ _ _ | .send flow _ _ _ _ _ | .sendfromcache flow _ _
  | .closeconn flow | .skipRead flow _ => flow

/-- One call. -/
def ConnSet.exec (s : ConnSet) : ConnOp → ConnSet × ConnOut
  | .addconn flow fd type now => s.addconn flow fd type now
  | .recv flow k alloc now => s.recv flow k alloc now
  | .send flow data k k' alloc now => s.send flow data k k' alloc now
  | .sendfromcache flow k now => s.sendfromcache flow k now
  | .closeconn flow => s.closeconn flow
  | .skipRead flow length => (s.skipRead flow length, ⟨some 0, flow, []⟩)

namespace ConnSet

/-! ### What a call does -/

variable {s : ConnSet} {f g : ℕ}

/-- The slot of the flow carries it. -/
def Live (s : ConnSet) (f : ℕ) : Prop := (s.getcc f).flow = f ∧ f ≠ 0

@[simp] theorem getcc_setcc (s : ConnSet) (f : ℕ) (cc : ConnCache) :
    (s.setcc f cc).getcc f = cc := Function.update_self _ _ _

theorem getcc_setcc_of_ne {cc : ConnCache} (h : f % s.maxconn ≠ g % s.maxconn) :
    (s.setcc g cc).getcc f = s.getcc f := Function.update_of_ne h _ _

theorem getcc_setcc_of_eq {cc : ConnCache} (h : f % s.maxconn = g % s.maxconn) :
    (s.setcc g cc).getcc f = cc := by
  rw [getcc, setcc, h]
  exact Function.update_self _ _ _

/-- Storing the same connection again leaves every connection the same one. -/
theorem same_setcc {cc : ConnCache} (h : (s.getcc g).Same cc) (f : ℕ) :
    (s.getcc f).Same ((s.setcc g cc).getcc f) := by
  by_cases hslot : f % s.maxconn = g % s.maxconn
  · have hsame : s.getcc f = s.getcc g := congrArg s.ccs hslot
    rw [getcc_setcc_of_eq hslot, hsame]
    exact h
  · rw [getcc_setcc_of_ne hslot]
    exact ⟨rfl, rfl, rfl⟩

/-- Two live flows have different slots. -/
theorem Live.slot_ne (hf : s.Live f) (hg : (s.getcc g).flow ≠ f) :
    f % s.maxconn ≠ g % s.maxconn := by
  intro hslot
  have hsame : s.getcc f = s.getcc g := congrArg s.ccs hslot
  rw [← hsame] at hg
  exact hg hf.1

theorem on_of_live (h : s.Live f) (act : ConnCache → ConnResult) :
    s.on f act = (s.setcc f (act (s.getcc f)).cc,
      ⟨(act (s.getcc f)).ret, f, (act (s.getcc f)).wire⟩) := by
  have hfound : ¬ ((s.getcc f).flow ≠ f ∨ f = 0) := by
    rintro (hne | hzero)
    · exact hne h.1
    · exact h.2 hzero
  rw [on, if_neg hfound]

theorem on_of_not_live (h : ¬ s.Live f) (act : ConnCache → ConnResult) :
    s.on f act = (s, ⟨some (-eNotFindfd), f, []⟩) := by
  have hmiss : (s.getcc f).flow ≠ f ∨ f = 0 := by
    by_contra hfound
    obtain ⟨hflow, hne⟩ := not_or.mp hfound
    exact h ⟨not_not.mp hflow, hne⟩
  rw [on, if_pos hmiss]

theorem closeconn_of_live (h : s.Live f) :
    s.closeconn f = ({ s.setcc f (s.getcc f).close with curconn := s.curconn - 1 },
      ⟨some 0, f, []⟩) := by
  rw [closeconn]
  exact if_pos h

theorem closeconn_of_not_live (h : ¬ s.Live f) :
    s.closeconn f = (s, ⟨some (-eNotFindfd), f, []⟩) := by
  rw [closeconn]
  exact if_neg h

/-- The loop of `addconn` ends at `endflow` or at a flow whose slot is free. -/
theorem probe_spec (s : ConnSet) (flow : ℕ) :
    ∀ fuel n start, fuel + 1 + n = s.maxconn → u32 start = u32 (flow + n) →
      ∃ k ≤ s.maxconn, s.probe (u32 (flow + s.maxconn)) (fuel + 1) start = u32 (flow + k) ∧
        (u32 (flow + k) ≠ u32 (flow + s.maxconn) → (s.getcc (u32 (flow + k))).flow = 0) := by
  intro fuel
  induction fuel with
  | zero =>
      intro n start hn hstart
      have hend : u32 (start + 1) = u32 (flow + s.maxconn) := by
        simp only [u32] at hstart ⊢
        omega
      refine ⟨s.maxconn, Nat.le_refl _, ?_, fun hne => absurd rfl hne⟩
      rw [probe, if_pos hend, hend]
  | succ fuel ih =>
      intro n start hn hstart
      have hnext : u32 (start + 1) = u32 (flow + (n + 1)) := by
        simp only [u32] at hstart ⊢
        omega
      rw [probe, hnext]
      by_cases hend : u32 (flow + (n + 1)) = u32 (flow + s.maxconn)
      · rw [if_pos hend]
        exact ⟨n + 1, by omega, rfl, fun hne => absurd hend hne⟩
      · rw [if_neg hend]
        by_cases hfree : (s.getcc (u32 (flow + (n + 1)))).flow = 0
        · rw [if_pos hfree]
          exact ⟨n + 1, by omega, rfl, fun _ => hfree⟩
        · rw [if_neg hfree]
          exact ih (n + 1) _ (by omega) (u32_of_lt (u32_lt _))

/-- `addconn` fails, or stores the entry in a free slot; the flow is the given one or at
most `maxconn_` ahead of it. -/
theorem addconn_spec (s : ConnSet) (flow fd type : ℕ) (now : ℤ) :
    ∃ g, (g = flow ∨ ∃ k ≤ s.maxconn, g = u32 (flow + k)) ∧
      (s.addconn flow fd type now = (s, ⟨some (-1), g, []⟩) ∨
        s.addconn flow fd type now = s.store g fd type now ∧ (s.getcc g).flow = 0) := by
  unfold addconn
  by_cases hused : (s.getcc flow).flow > 0
  · have hpos := s.pos
    obtain ⟨fuel, hfuel⟩ : ∃ fuel, s.maxconn = fuel + 1 := ⟨s.maxconn - 1, by omega⟩
    obtain ⟨k, hk, hprobe, hfree⟩ := probe_spec s flow fuel 0 flow (by omega) rfl
    rw [← hfuel] at hprobe
    rw [if_pos hused]
    simp only [hprobe]
    refine ⟨_, .inr ⟨k, hk, rfl⟩, ?_⟩
    by_cases hend : u32 (flow + k) = u32 (flow + s.maxconn)
    · rw [if_pos hend]
      exact .inl rfl
    · rw [if_neg hend]
      exact .inr ⟨rfl, hfree hend⟩
  · rw [if_neg hused]
    exact ⟨flow, .inl rfl, .inr ⟨rfl, by omega⟩⟩

/-! ### Calls by flow -/

theorem exec_of_not_live {op : ConnOp} (hop : op.ByFlow) (h : ¬ s.Live op.flow) :
    s.exec op = (s, ⟨some (-eNotFindfd), op.flow, []⟩) := by
  cases op with
  | addconn => exact hop.elim
  | skipRead => exact hop.elim
  | recv flow k alloc now => exact on_of_not_live h fun cc => cc.recv k alloc now
  | send flow data k k' alloc now => exact on_of_not_live h fun cc => cc.send data k k' alloc now
  | sendfromcache flow k now => exact on_of_not_live h fun cc => cc.sendfromcache k now
  | closeconn flow => exact closeconn_of_not_live h

/-- A call that finds its connection changes this entry only; it frees the slot or leaves
the connection the same one. -/
structure FoundSpec (s : ConnSet) (op : ConnOp) (cc : ConnCache) (n : ℤ) (ret : Option ℤ)
    (wire : List UInt8) : Prop where
  exec : s.exec op = ({ s.setcc op.flow cc with curconn := n }, ⟨ret, op.flow, wire⟩)
  found : ret ≠ some (-eNotFindfd)
  entry : op = .closeconn op.flow ∧ ret = some 0 ∧ cc.flow = 0 ∨
    op ≠ .closeconn op.flow ∧ (s.getcc op.flow).Same cc

theorem exec_of_live {op : ConnOp} (hop : op.ByFlow) (h : s.Live op.flow) :
    ∃ cc n ret wire, FoundSpec s op cc n ret wire := by
  have hneg : -eNotFindfd < 0 := by decide
  cases op with
  | addconn => exact hop.elim
  | skipRead => exact hop.elim
  | recv flow k alloc now =>
      have hspec := ConnCache.recv_spec (s.getcc flow) k alloc now
      refine ⟨_, _, _, _, on_of_live h fun cc => cc.recv k alloc now, hspec.ret, .inr ?_⟩
      exact ⟨by simp, .of_eq hspec.same⟩
  | send flow data k k' alloc now =>
      have hspec := ConnCache.send_spec (s.getcc flow) data k k' alloc now
      refine ⟨_, _, _, _, on_of_live h fun cc => cc.send data k k' alloc now, ?_, .inr ?_⟩
      · change ((s.getcc flow).send data k k' alloc now).ret ≠ _
        rcases hspec.ret with hret | hret | ⟨n, -, hret, -, -⟩
        · rw [hret]
          simp
        · rw [hret]
          decide
        · rw [hret]
          intro heq
          have hn := Option.some.inj heq
          omega
      · exact ⟨by simp, .of_eq hspec.same⟩
  | sendfromcache flow k now =>
      have hspec := ConnCache.sendfromcache_spec (s.getcc flow) k now
      refine ⟨_, _, _, _, on_of_live h fun cc => cc.sendfromcache k now, ?_, .inr ?_⟩
      · change ((s.getcc flow).sendfromcache k now).ret ≠ _
        rcases hspec.ret with hret | ⟨hret, -⟩ | ⟨n, hret, hn, -⟩
        · rw [hret]
          decide
        · rw [hret]
          decide
        · rw [hret]
          intro heq
          have hn := Option.some.inj heq
          omega
      · exact ⟨by simp, .of_eq hspec.same⟩
  | closeconn flow =>
      exact ⟨_, _, _, _, closeconn_of_live h, by decide, .inl ⟨rfl, rfl, rfl⟩⟩

end ConnSet
end Spp
