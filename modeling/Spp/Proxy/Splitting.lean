import Spp.Proxy.Recvdata
import Spp.Sock.Flow

/-!
# Packets and chunks

With a plugin that frames by prefixes, routes that resolve and queues with room, the packets
that the proxy forwards for a connection are those of the bytes received on it, and the
receive cache holds the rest.  So neither depends on how the bytes were cut into chunks, or
on what happened to other connections between them.

## Main definitions

* `Forwards` — the assumptions on the plugin and the queues.
* `atorHandler` — the callbacks of the proxy, with the history of forwarded packets.
* `receivedOn`, `forwardedOn` — what came in and went out for a flow.
* `Tidy` — the invariant of a run.
-/

namespace Spp

namespace SppDll

variable {σ : Type} {dll : SppDll σ} {frame : List UInt8 → ℕ}

/-- The plugin frames by prefixes, every route resolves, and no queue is full. -/
structure Forwards (dll : SppDll σ) (frame : List UInt8 → ℕ) : Prop where
  framing : Framing frame
  input : ∀ u flow data, (dll.sppHandleInput u flow data).2 = frame data
  route : ∀ u flow packet, ¬ dll.RouteError (dll.routeNo u flow packet).2
  room : ∀ u group flow packet, (dll.ctorSendto u group flow packet).2 = 0
  remote : dll.localHandle = none

theorem Forwards.handlePacket (h : dll.Forwards frame) (u : σ) (flow : ℕ) (packet : List UInt8) :
    ∃ u', dll.handlePacket u flow packet = ⟨u', [], true, .forwarded⟩ := by
  unfold SppDll.handlePacket
  rw [h.remote]
  simp only [if_neg (h.route u flow packet), h.room, if_true]
  exact ⟨_, rfl⟩

/-- The loop forwards the packets of the bytes and counts them. -/
theorem Forwards.recvdataLoop (h : dll.Forwards frame) (flow totalLen : ℕ) :
    ∀ fuel u data processedLen protoLen, data.length ≤ fuel → ∃ u' ps rest proto,
      Splits frame data ps rest ∧ (data ≠ [] ∨ 0 ≤ protoLen → 0 ≤ proto) ∧
      dll.recvdataLoop flow totalLen fuel u data processedLen protoLen =
        ⟨u', [], ps.map (·, .forwarded), processedLen + ps.flatten.length, proto⟩ := by
  intro fuel
  induction fuel with
  | zero =>
    intro u data processedLen protoLen hfuel
    obtain rfl : data = [] := List.length_eq_zero_iff.mp (by omega)
    refine ⟨u, [], [], protoLen, .nil h.framing, ?_, by simp [SppDll.recvdataLoop]⟩
    simp
  | succ fuel ih =>
    intro u data processedLen protoLen hfuel
    obtain ⟨u₁, hu₁⟩ : ∃ u₁, u₁ = (dll.sppHandleInput u flow data).1 := ⟨_, rfl⟩
    have hinput : dll.sppHandleInput u flow data = (u₁, (frame data : ℤ)) := by
      rw [hu₁, ← h.input u flow data]
    have hle := h.framing.le data
    by_cases hzero : frame data = 0
    · by_cases hdata : data.length > 0
      · refine ⟨u₁, [], data, 0, .rest hzero, by simp, ?_⟩
        rw [SppDll.recvdataLoop, if_pos hdata, hinput]
        simp [hzero]
      · obtain rfl : data = [] := List.length_eq_zero_iff.mp (by omega)
        refine ⟨u, [], [], protoLen, .rest hzero, by simp, ?_⟩
        rw [SppDll.recvdataLoop, if_neg hdata]
        simp
    · have hpos : 0 < frame data := by omega
      obtain ⟨u₂, hhandle⟩ := h.handlePacket u₁ flow (data.take (frame data))
      have hshort : (data.drop (frame data)).length ≤ fuel := by
        rw [List.length_drop]
        omega
      obtain ⟨u', ps, rest, proto, hsplit, hproto, hloop⟩ :=
        ih u₂ (data.drop (frame data)) (processedLen + frame data) (frame data) hshort
      refine ⟨u', data.take (frame data) :: ps, rest, proto, .packet hpos hsplit, ?_, ?_⟩
      · intro _
        exact hproto (.inr (by omega))
      · rw [recvdataLoop_packet hinput hpos hle, hhandle]
        simp only [if_true, hloop]
        simp [List.length_take, Nat.min_eq_left hle, add_assoc]

/-- What `ator_recvdata` does with the bytes of a cache that is not empty. -/
theorem Forwards.received (h : dll.Forwards frame) (u : σ) (flow : ℕ) {data : List UInt8}
    (hdata : data ≠ []) : ∃ u' ps rest, Splits frame data ps rest ∧
      (dll.received u flow data).u = u' ∧ (dll.received u flow data).sends = [] ∧
      (dll.received u flow data).packets = ps.map (·, .forwarded) ∧
      Received.ret (dll.received u flow data) = ps.flatten.length := by
  obtain ⟨u', ps, rest, proto, hsplit, hproto, hloop⟩ :=
    h.recvdataLoop flow data.length data.length u data 0 (-1) le_rfl
  refine ⟨u', ps, rest, hsplit, ?_⟩
  have hpos := hproto (.inl hdata)
  unfold SppDll.received Received.ret
  rw [hloop]
  simp [Int.not_lt.mpr hpos]

/-! ## The histories -/

/-- The packets of a call that are in a queue. -/
def Received.forwarded (r : Received σ) : List (List UInt8) :=
  (r.packets.filter fun p => p.2 = .forwarded).map Prod.fst

/-- The callbacks of the proxy.  That for received data is `ator_recvdata`; the others are
given.  The history holds the packets that went into a queue, with their flows. -/
def atorHandler (dll : SppDll σ) (others : Handler σ) : Handler (σ × List (ℕ × List UInt8))
  | (u, log), .recvdata flow data =>
      let r := dll.received u flow data
      ((r.u, log ++ (Received.forwarded r).map (flow, ·)), ⟨r.sends, Received.ret r⟩)
  | (u, log), n =>
      let (u, reply) := others u n
      ((u, log), reply)

end SppDll

/-- The packets of the history that belong to the flow. -/
def forwardedOn (f : ℕ) (log : List (ℕ × List UInt8)) : List (List UInt8) :=
  (log.filter fun e => e.1 = f).map Prod.snd

/-- The bytes that a call received on the flow. -/
def receivedBy (f : ℕ) : ConnOp × ConnOut → List UInt8
  | (.recv flow (.data bs) _ _, out) =>
      if flow = f ∧ out.ret = some (bs.1.length : ℤ) then bs.1 else []
  | _ => []

def receivedOn (f : ℕ) (calls : List (ConnOp × ConnOut)) : List UInt8 :=
  calls.flatMap (receivedBy f)

/-- The connections that were stored under the flow. -/
def connsOf (f : ℕ) (calls : List (ConnOp × ConnOut)) : List (ℕ × ℕ × ℕ) :=
  (stored calls).filter fun e => e.1 = f

/-- The flow was given to one connection only, and to a stream. -/
def OneStream (f : ℕ) (calls : List (ConnOp × ConnOut)) : Prop :=
  f ≠ 0 ∧ ∃ fd type, connsOf f calls = [(f, fd, type)] ∧ type ≠ udpSocket

namespace SockCommu

open ConnSet SppDll

variable {frame : List UInt8 → ℕ} {f g : ℕ} {log : List (ℕ × List UInt8)} {s s' : SockCommu}

/-- The histories agree with the receive caches: what was forwarded on a flow and what its
cache holds is what was received on it.  The flow `g` is left out, which is 0 for no flow. -/
structure Tidy (frame : List UInt8 → ℕ) (g : ℕ) (log : List (ℕ × List UInt8))
    (s : SockCommu) : Prop where
  free : ∀ i, (s.connset.ccs i).flow = 0 → (s.connset.ccs i).r.content = []
  fresh : ∀ f, f ≠ 0 → connsOf f s.calls = [] →
    ¬ s.connset.Live f ∧ receivedOn f s.calls = [] ∧ forwardedOn f log = []
  framed : ∀ f, f ≠ g → OneStream f s.calls → ∃ rest,
    Splits frame (receivedOn f s.calls) (forwardedOn f log) rest ∧
      (s.connset.Live f → (s.connset.getcc f).r.content = rest)

/-! ## Steps that receive nothing -/

/-- Nothing is stored or received, and each slot keeps its flow and its receive cache or
becomes free. -/
structure Quiet (s s' : SockCommu) : Prop where
  maxconn : s'.connset.maxconn = s.connset.maxconn
  history : stored s'.calls = stored s.calls
  input : ∀ f, receivedOn f s'.calls = receivedOn f s.calls
  slot : ∀ i, (s'.connset.ccs i).flow = (s.connset.ccs i).flow ∧
      (s'.connset.ccs i).r.content = (s.connset.ccs i).r.content ∨
    (s'.connset.ccs i).flow = 0 ∧ (s'.connset.ccs i).r.content = []

theorem Quiet.kernel (s : SockCommu) (k : Kernel) (flow : ℕ) (last : ℤ) (stalls : ℕ) :
    Quiet s { s with kernel := k, flow := flow, lastchecktime := last, stalls := stalls } :=
  ⟨rfl, rfl, fun _ => rfl, fun _ => .inl ⟨rfl, rfl⟩⟩

theorem Quiet.getcc (h : Quiet s s') (hf : s'.connset.Live f) : s.connset.Live f ∧
    (s'.connset.getcc f).r.content = (s.connset.getcc f).r.content := by
  have hold : s.connset.ccs (f % s'.connset.maxconn) = s.connset.getcc f := by
    rw [h.maxconn]
    rfl
  have hslot := h.slot (f % s'.connset.maxconn)
  rw [hold] at hslot
  rcases hslot with ⟨hflow, hcontent⟩ | ⟨hzero, -⟩
  · exact ⟨⟨hflow.symm.trans hf.1, hf.2⟩, hcontent⟩
  · exact absurd (hf.1.symm.trans hzero) hf.2

theorem Quiet.oneStream (h : Quiet s s') : OneStream f s'.calls ↔ OneStream f s.calls := by
  simp only [OneStream, connsOf, h.history]

theorem Tidy.quiet (h : Tidy frame g log s) (hq : Quiet s s') : Tidy frame g log s' := by
  refine ⟨fun i hi => ?_, fun f hf hconns => ?_, fun f hfg hone => ?_⟩
  · rcases hq.slot i with ⟨hflow, hcontent⟩ | ⟨-, hcontent⟩
    · rw [hcontent]
      exact h.free i (hflow.symm.trans hi)
    · exact hcontent
  · rw [connsOf, hq.history] at hconns
    obtain ⟨hdead, hreceived, hforwarded⟩ := h.fresh f hf hconns
    refine ⟨fun hlive => hdead (hq.getcc hlive).1, ?_, hforwarded⟩
    rw [hq.input]
    exact hreceived
  · obtain ⟨rest, hsplit, hcontent⟩ := h.framed f hfg (hq.oneStream.mp hone)
    refine ⟨rest, ?_, fun hlive => ?_⟩
    · rw [hq.input]
      exact hsplit
    · obtain ⟨hlive', heq⟩ := hq.getcc hlive
      rw [heq]
      exact hcontent hlive'

theorem receivedOn_snoc (f : ℕ) (calls : List (ConnOp × ConnOut)) (call : ConnOp × ConnOut) :
    receivedOn f (calls ++ [call]) = receivedOn f calls ++ receivedBy f call := by
  simp [receivedOn]

theorem connsOf_snoc (f : ℕ) (calls : List (ConnOp × ConnOut)) (call : ConnOp × ConnOut) :
    connsOf f (calls ++ [call]) =
      connsOf f calls ++ (storedBy call).toList.filter fun e => e.1 = f := by
  rw [connsOf, stored_snoc, List.filter_append]
  rfl

/-- A call that works on one entry and leaves its receive cache. -/
theorem Quiet.on {op : ConnOp} (act : ConnCache → ConnResult)
    (hexec : s.connset.exec op = s.connset.on op.flow act)
    (hkept : s.connset.Live op.flow →
      (s.connset.getcc op.flow).Same (act (s.connset.getcc op.flow)).cc ∧
        (act (s.connset.getcc op.flow)).cc.r = (s.connset.getcc op.flow).r)
    (hstored : ∀ out, storedBy (op, out) = none)
    (hreceived : ∀ f, receivedBy f (op, (s.connset.exec op).2) = []) : Quiet s (s.call op).1 := by
  refine ⟨?_, ?_, fun f => ?_, fun i => .inl ?_⟩
  · change (s.connset.exec op).1.maxconn = _
    rw [hexec, ConnSet.on]
    dsimp only
    split <;> rfl
  · change stored (s.calls ++ [(op, (s.connset.exec op).2)]) = _
    rw [stored_snoc, hstored]
    simp
  · change receivedOn f (s.calls ++ [(op, (s.connset.exec op).2)]) = _
    rw [receivedOn_snoc, hreceived]
    simp
  · change ((s.connset.exec op).1.ccs i).flow = _ ∧ ((s.connset.exec op).1.ccs i).r.content = _
    rw [hexec]
    by_cases hlive : s.connset.Live op.flow
    · obtain ⟨hsame, hcache⟩ := hkept hlive
      rw [on_of_live hlive]
      by_cases hi : i = op.flow % s.connset.maxconn
      · have hnew : (s.connset.setcc op.flow (act (s.connset.getcc op.flow)).cc).ccs i =
            (act (s.connset.getcc op.flow)).cc := by
          rw [hi]
          exact Function.update_self _ _ _
        have hold : s.connset.ccs i = s.connset.getcc op.flow := by rw [hi]; rfl
        dsimp only
        rw [hnew, hold, hcache]
        exact ⟨hsame.flow, rfl⟩
      · have hother : (s.connset.setcc op.flow (act (s.connset.getcc op.flow)).cc).ccs i =
            s.connset.ccs i := Function.update_of_ne hi _ _
        dsimp only
        rw [hother]
        exact ⟨rfl, rfl⟩
    · rw [on_of_not_live hlive]
      exact ⟨rfl, rfl⟩

theorem Quiet.send (s : SockCommu) (f : ℕ) (data : Payload) (k k' : KSend) (alloc : Alloc)
    (now : ℤ) : Quiet s (s.call (.send f data k k' alloc now)).1 := by
  have hspec := ConnCache.send_spec (s.connset.getcc f) data k k' alloc now
  refine .on (fun cc => cc.send data k k' alloc now) rfl (fun _ => ⟨.of_eq hspec.same, ?_⟩)
    (fun _ => rfl) fun _ => rfl
  change ((s.connset.getcc f).send data k k' alloc now).cc.r = _
  rw [hspec.same]
  rfl

theorem Quiet.sendfromcache (s : SockCommu) (f : ℕ) (k : KSend) (now : ℤ) :
    Quiet s (s.call (.sendfromcache f k now)).1 := by
  have hspec := ConnCache.sendfromcache_spec (s.connset.getcc f) k now
  refine .on (fun cc => cc.sendfromcache k now) rfl (fun _ => ⟨.of_eq hspec.same, ?_⟩)
    (fun _ => rfl) fun _ => rfl
  change ((s.connset.getcc f).sendfromcache k now).cc.r = _
  rw [hspec.same]
  rfl

theorem Quiet.closeconn (s : SockCommu) (f : ℕ) : Quiet s (s.closeconn f) := by
  have hcall : Quiet s (s.call (.closeconn f)).1 := by
    have hcalls : ∀ out, stored (s.calls ++ [(.closeconn f, out)]) = stored s.calls ∧
        ∀ g, receivedOn g (s.calls ++ [(.closeconn f, out)]) = receivedOn g s.calls := by
      intro out
      refine ⟨?_, fun g => ?_⟩
      · rw [stored_snoc]
        simp [storedBy]
      · rw [receivedOn_snoc]
        simp [receivedBy]
    refine ⟨?_, (hcalls _).1, (hcalls _).2, fun i => ?_⟩
    · change (s.connset.closeconn f).1.maxconn = _
      unfold ConnSet.closeconn
      dsimp only
      split <;> rfl
    · change ((s.connset.closeconn f).1.ccs i).flow = _ ∧
          ((s.connset.closeconn f).1.ccs i).r.content = _ ∨
        ((s.connset.closeconn f).1.ccs i).flow = 0 ∧
          ((s.connset.closeconn f).1.ccs i).r.content = []
      by_cases hlive : s.connset.Live f
      · rw [closeconn_of_live hlive]
        by_cases hi : i = f % s.connset.maxconn
        · right
          have hnew : (s.connset.setcc f (s.connset.getcc f).close).ccs i =
              (s.connset.getcc f).close := by
            rw [hi]
            exact Function.update_self _ _ _
          dsimp only
          rw [hnew]
          exact ⟨rfl, RawCache.content_skip_all _⟩
        · left
          have hother : (s.connset.setcc f (s.connset.getcc f).close).ccs i = s.connset.ccs i :=
            Function.update_of_ne hi _ _
          dsimp only
          exact ⟨congrArg _ hother, congrArg (fun cc => cc.r.content) hother⟩
      · rw [ConnSet.closeconn_of_not_live hlive]
        exact .inl ⟨rfl, rfl⟩
  unfold SockCommu.closeconn
  dsimp only
  split
  · exact ⟨hcall.maxconn, hcall.history, hcall.input, hcall.slot⟩
  · exact hcall

theorem Quiet.recv_fail (s : SockCommu) (f errno : ℕ) (alloc : Alloc) (now : ℤ) :
    Quiet s (s.call (.recv f (.fail errno) alloc now)).1 := by
  have hspec := ConnCache.recv_spec (s.connset.getcc f) (.fail errno) alloc now
  refine .on (fun cc => cc.recv (.fail errno) alloc now) rfl (fun _ => ⟨.of_eq hspec.same, ?_⟩)
    (fun _ => rfl) fun _ => rfl
  simp only [ConnCache.recv]
  split <;> rfl

/-- A property that quiet steps keep is kept by the calls of a callback. -/
theorem sending_of_quiet {J : SockCommu → Prop} (hJ : ∀ s s', Quiet s s' → J s → J s') :
    Sending J where
  send s flow data k k' alloc now := hJ _ _ (.send s flow data k k' alloc now)
  closeconn s flow := hJ _ _ (.closeconn s flow)
  modify s _ _ _ := hJ _ _ (.kernel s _ s.flow s.lastchecktime s.stalls)
  stall s := hJ _ _ (.kernel s s.kernel s.flow s.lastchecktime _)

theorem tidy_sending (frame : List UInt8 → ℕ) (g : ℕ) (log : List (ℕ × List UInt8)) :
    Sending (Tidy frame g log) := sending_of_quiet fun _ _ hq h => h.quiet hq

/-! ## Receiving -/

/-- `recv` gets bytes and appends them to the cache, or leaves the cache. -/
theorem recv_cases (cc : ConnCache) (k : KRecv) (alloc : Alloc) (now : ℤ) :
    (∃ bs, k = .data bs ∧ bs.1 ≠ [] ∧ (cc.recv k alloc now).ret = some (bs.1.length : ℤ) ∧
      (cc.recv k alloc now).cc.r.content = cc.r.content ++ bs.1) ∨
    ((cc.recv k alloc now).cc.r = cc.r ∧ (cc.recv k alloc now).ret.getD (-eNeedClose) ≤ 0 ∧
      ∀ bs, k = .data bs → (cc.recv k alloc now).ret ≠ some (bs.1.length : ℤ)) := by
  cases k with
  | fail errno =>
    right
    simp only [ConnCache.recv]
    split <;> simp [eNeedClose, eagain]
  | data bs =>
    by_cases hlen : bs.1.length > 0
    · cases happend : cc.r.append ⟨bs.1, lt_of_le_of_lt bs.2 (by decide)⟩ alloc with
      | none =>
        right
        simp [ConnCache.recv, hlen, happend, eNeedClose]
      | some r =>
        left
        refine ⟨bs, rfl, List.length_pos_iff.mp hlen, ?_⟩
        have hcontent := RawCache.content_append happend
        simpa [ConnCache.recv, hlen, happend] using hcontent
    · right
      simp only [ConnCache.recv, if_neg hlen]
      refine ⟨trivial, by simp [eNeedClose], ?_⟩
      rintro bs' ⟨⟩ heq
      have hret := Option.some.inj heq
      simp only [eNeedClose] at hret
      omega

/-- Bytes come in on a flow: until the callback has been called, what is received is ahead of
what is forwarded by the packets in the cache. -/
structure Incoming (frame : List UInt8 → ℕ) (g : ℕ) (log : List (ℕ × List UInt8))
    (s : SockCommu) : Prop where
  tidy : Tidy frame g log s
  live : s.connset.Live g
  known : connsOf g s.calls ≠ []
  bytes : (s.connset.getcc g).r.content ≠ []
  ahead : OneStream g s.calls → ∀ qs rest, Splits frame (s.connset.getcc g).r.content qs rest →
    Splits frame (receivedOn g s.calls) (forwardedOn g log ++ qs) rest

/-- `recv` brings bytes, or is a quiet step. -/
theorem Tidy.recv (hframe : Framing frame) (h : Tidy frame 0 log s) (g : ℕ) (k : KRecv)
    (alloc : Alloc) (now : ℤ) :
    (Tidy frame 0 log (s.call (.recv g k alloc now)).1 ∧
      (s.call (.recv g k alloc now)).2.ret.getD (-eNeedClose) ≤ 0) ∨
    (Incoming frame g log (s.call (.recv g k alloc now)).1 ∧
      0 < (s.call (.recv g k alloc now)).2.ret.getD (-eNeedClose)) := by
  have hspec := ConnCache.recv_spec (s.connset.getcc g) k alloc now
  have hsame := ConnCache.Same.of_eq hspec.same
  by_cases hlive : s.connset.Live g
  · have hexec : s.connset.exec (.recv g k alloc now) = _ :=
      on_of_live hlive fun cc => cc.recv k alloc now
    rcases recv_cases (s.connset.getcc g) k alloc now with
      ⟨bs, rfl, hbs, hret, hcontent⟩ | ⟨hcache, hret, hnone⟩
    · right
      obtain ⟨s', hs'⟩ : ∃ s', s' = (s.call (.recv g (.data bs) alloc now)).1 := ⟨_, rfl⟩
      have hcc : s'.connset.getcc g = ((s.connset.getcc g).recv (.data bs) alloc now).cc := by
        rw [hs']
        change (s.connset.exec (.recv g (.data bs) alloc now)).1.getcc g = _
        rw [hexec]
        exact getcc_setcc _ _ _
      have hother : ∀ i, i ≠ g % s.connset.maxconn → s'.connset.ccs i = s.connset.ccs i := by
        intro i hi
        rw [hs']
        change (s.connset.exec (.recv g (.data bs) alloc now)).1.ccs i = _
        rw [hexec]
        exact Function.update_of_ne hi _ _
      have hmax : s'.connset.maxconn = s.connset.maxconn := by
        rw [hs']
        change (s.connset.exec (.recv g (.data bs) alloc now)).1.maxconn = _
        rw [hexec]
        rfl
      have hcalls : s'.calls = s.calls ++ [(.recv g (.data bs) alloc now,
          ⟨some (bs.1.length : ℤ), g, ((s.connset.getcc g).recv (.data bs) alloc now).wire⟩)] := by
        rw [hs', ← hret]
        change s.calls ++ [(_, (s.connset.exec (.recv g (.data bs) alloc now)).2)] = _
        rw [hexec]
      have hconns : ∀ f, connsOf f s'.calls = connsOf f s.calls := by
        intro f
        rw [hcalls, connsOf_snoc]
        simp [storedBy]
      have hone : ∀ f, OneStream f s'.calls ↔ OneStream f s.calls := by
        intro f
        simp only [OneStream, hconns]
      have hreceived : ∀ f, receivedOn f s'.calls =
          receivedOn f s.calls ++ if g = f then bs.1 else [] := by
        intro f
        rw [hcalls, receivedOn_snoc]
        simp [receivedBy]
      have hlive' : s'.connset.Live g := by
        rw [Live, hcc, hsame.flow]
        exact hlive
      -- the other connections are in other slots
      have hlives : ∀ f, f ≠ g → s'.connset.Live f → s.connset.Live f ∧
          s'.connset.getcc f = s.connset.getcc f := by
        intro f hfg hf
        have hslot : f % s.connset.maxconn ≠ g % s.connset.maxconn := by
          rw [← hmax]
          refine hf.slot_ne ?_
          rw [hlive'.1]
          exact hfg.symm
        have heq : s'.connset.getcc f = s.connset.getcc f := by
          rw [ConnSet.getcc, hmax]
          exact hother _ hslot
        refine ⟨?_, heq⟩
        rw [Live, ← heq]
        exact hf
      have hknown : connsOf g s.calls ≠ [] := by
        intro hnil
        exact (h.fresh g hlive.2 hnil).1 hlive
      have hpos : 0 < (s.call (.recv g (.data bs) alloc now)).2.ret.getD (-eNeedClose) := by
        change 0 < (s.connset.exec (.recv g (.data bs) alloc now)).2.ret.getD (-eNeedClose)
        rw [hexec]
        dsimp only
        rw [hret]
        exact Int.natCast_pos.mpr (List.length_pos_iff.mpr hbs)
      rw [← hs']
      refine ⟨⟨⟨fun i hi => ?_, fun f hf hnil => ?_, fun f hfg hf => ?_⟩, hlive', ?_, ?_, ?_⟩, hpos⟩
      · by_cases hslot : i = g % s.connset.maxconn
        · rw [hslot, ← hmax] at hi
          exact absurd (hlive'.1.symm.trans hi) hlive'.2
        · rw [hother i hslot] at hi ⊢
          exact h.free i hi
      · rw [hconns] at hnil
        have hfg : f ≠ g := by
          rintro rfl
          exact hknown hnil
        obtain ⟨hdead, hnothing, hnone⟩ := h.fresh f hf hnil
        refine ⟨fun hf' => hdead (hlives f hfg hf').1, ?_, hnone⟩
        rw [hreceived, hnothing, if_neg hfg.symm]
        rfl
      · obtain ⟨rest, hsplit, hrest⟩ := h.framed f ((hone f).mp hf).1 ((hone f).mp hf)
        refine ⟨rest, ?_, fun hf' => ?_⟩
        · rw [hreceived, if_neg hfg.symm, List.append_nil]
          exact hsplit
        · obtain ⟨hold, heq⟩ := hlives f hfg hf'
          rw [heq]
          exact hrest hold
      · rw [hconns]
        exact hknown
      · rw [hcc, hcontent]
        simp [hbs]
      · intro hg qs rest hsplit
        obtain ⟨old, hold, hcache⟩ := h.framed g hlive.2 ((hone g).mp hg)
        rw [hcc, hcontent, hcache hlive] at hsplit
        rw [hreceived, if_pos rfl]
        exact hold.append hframe hsplit
    · left
      refine ⟨h.quiet (.on (fun cc => cc.recv k alloc now) rfl (fun _ => ⟨hsame, hcache⟩)
        (fun _ => rfl) ?_), ?_⟩
      · intro f
        rw [hexec]
        cases k with
        | fail _ => rfl
        | data bs =>
          refine if_neg fun hreceived => ?_
          exact hnone bs rfl hreceived.2
      · change (s.connset.exec (.recv g k alloc now)).2.ret.getD (-eNeedClose) ≤ 0
        rw [hexec]
        exact hret
  · left
    have hexec : s.connset.exec (.recv g k alloc now) = _ :=
      on_of_not_live hlive fun cc => cc.recv k alloc now
    have hnothing : ∀ f, receivedBy f
        (.recv g k alloc now, (s.connset.exec (.recv g k alloc now)).2) = [] := by
      intro f
      rw [hexec]
      cases k with
      | fail _ => rfl
      | data bs =>
        refine if_neg fun hreceived => ?_
        have hneg := Option.some.inj hreceived.2
        simp only [eNotFindfd] at hneg
        omega
    have hquiet : Quiet s (s.call (.recv g k alloc now)).1 :=
      .on (fun cc => cc.recv k alloc now) rfl (fun hf => absurd hf hlive) (fun _ => rfl) hnothing
    refine ⟨h.quiet hquiet, ?_⟩
    change (s.connset.exec (.recv g k alloc now)).2.ret.getD (-eNeedClose) ≤ 0
    rw [hexec]
    simp [eNotFindfd]

/-! ## Forwarding -/

/-- After the callback: the packets in the cache are forwarded, and the rest is what `poll`
is about to leave in it. -/
structure Holding (frame : List UInt8 → ℕ) (g : ℕ) (data rest : List UInt8)
    (log : List (ℕ × List UInt8)) (s : SockCommu) : Prop where
  tidy : Tidy frame g log s
  owner : (s.connset.getcc g).flow = g ∨ (s.connset.getcc g).flow = 0
  cache : s.connset.Live g → (s.connset.getcc g).r.content = data
  split : OneStream g s.calls → Splits frame (receivedOn g s.calls) (forwardedOn g log) rest

theorem Holding.quiet {data rest : List UInt8} (h : Holding frame g data rest log s)
    (hq : Quiet s s') : Holding frame g data rest log s' := by
  refine ⟨h.tidy.quiet hq, ?_, fun hlive => ?_, fun hone => ?_⟩
  · have hold : s.connset.ccs (g % s'.connset.maxconn) = s.connset.getcc g := by
      rw [hq.maxconn]
      rfl
    have hslot := hq.slot (g % s'.connset.maxconn)
    rw [hold] at hslot
    rcases hslot with ⟨hflow, -⟩ | ⟨hzero, -⟩
    · rcases h.owner with hg | hg
      · exact .inl (hflow.trans hg)
      · exact .inr (hflow.trans hg)
    · exact .inr hzero
  · obtain ⟨hold, hcontent⟩ := hq.getcc hlive
    rw [hcontent]
    exact h.cache hold
  · rw [hq.input]
    exact h.split (hq.oneStream.mp hone)

theorem holding_sending (frame : List UInt8 → ℕ) (g : ℕ) (data rest : List UInt8)
    (log : List (ℕ × List UInt8)) : Sending (Holding frame g data rest log) :=
  sending_of_quiet fun _ _ hq h => h.quiet hq

/-- When only the rest is in the cache, all is in order again. -/
theorem Holding.done {rest : List UInt8} (h : Holding frame g rest rest log s) :
    Tidy frame 0 log s := by
  refine ⟨h.tidy.free, h.tidy.fresh, fun f _ hone => ?_⟩
  by_cases hfg : f = g
  · subst hfg
    exact ⟨rest, h.split hone, h.cache⟩
  · exact h.tidy.framed f hfg hone

/-- The skip in `poll`, after which only the rest is in the cache. -/
theorem Holding.skipRead {data : List UInt8} {n : ℕ}
    (h : Holding frame g data (data.drop n) log s) :
    Holding frame g (data.drop n) (data.drop n) log (s.call (.skipRead g n)).1 := by
  obtain ⟨s', hs'⟩ : ∃ s', s' = (s.call (.skipRead g n)).1 := ⟨_, rfl⟩
  have hcc : s'.connset.getcc g =
      { s.connset.getcc g with r := (s.connset.getcc g).r.skip n } := by
    rw [hs']
    exact getcc_setcc _ _ _
  have hmax : s'.connset.maxconn = s.connset.maxconn := by
    rw [hs']
    rfl
  have hother : ∀ i, i ≠ g % s.connset.maxconn → s'.connset.ccs i = s.connset.ccs i := by
    intro i hi
    rw [hs']
    exact Function.update_of_ne hi _ _
  have hstored : stored s'.calls = stored s.calls := by
    rw [hs']
    exact (stored_snoc _ _).trans (List.append_nil _)
  have hreceived : ∀ f, receivedOn f s'.calls = receivedOn f s.calls := by
    intro f
    rw [hs']
    exact (receivedOn_snoc f _ _).trans (List.append_nil _)
  have hone : ∀ f, OneStream f s'.calls ↔ OneStream f s.calls := by
    intro f
    simp only [OneStream, connsOf, hstored]
  -- a live flow other than `g` is in another slot, for that of `g` is free or belongs to `g`
  have hlives : ∀ f, s'.connset.Live f → s.connset.Live f ∧
      (f ≠ g → s'.connset.getcc f = s.connset.getcc f) := by
    intro f hf
    by_cases hslot : f % s.connset.maxconn = g % s.connset.maxconn
    · have heq : s'.connset.getcc f = s'.connset.getcc g := by
        rw [ConnSet.getcc, hmax, hslot, ← hmax]
        rfl
      have hold : s.connset.getcc f = s.connset.getcc g := congrArg s.connset.ccs hslot
      have hflow : (s.connset.getcc g).flow = f := by
        have hlive := hf.1
        rw [heq, hcc] at hlive
        exact hlive
      refine ⟨⟨by rw [hold, hflow], hf.2⟩, fun hfg => ?_⟩
      rcases h.owner with hg | hg
      · exact absurd (hflow.symm.trans hg) hfg
      · exact absurd (hflow.symm.trans hg) hf.2
    · have heq : s'.connset.getcc f = s.connset.getcc f := by
        rw [ConnSet.getcc, hmax]
        exact hother _ hslot
      refine ⟨?_, fun _ => heq⟩
      rw [Live, ← heq]
      exact hf
  rw [← hs']
  refine ⟨⟨fun i hi => ?_, fun f hf hnil => ?_, fun f hfg hf => ?_⟩, ?_, fun hlive => ?_,
    fun hg => ?_⟩
  · by_cases hslot : i = g % s.connset.maxconn
    · have hnew : s'.connset.ccs i = s'.connset.getcc g := by
        rw [hslot, ← hmax]
        rfl
      rw [hnew, hcc] at hi ⊢
      have hempty := h.tidy.free (g % s.connset.maxconn) hi
      refine (RawCache.content_skip _ _).trans ?_
      rw [ConnSet.getcc, hempty, List.drop_nil]
    · rw [hother i hslot] at hi ⊢
      exact h.tidy.free i hi
  · rw [connsOf, hstored] at hnil
    obtain ⟨hdead, hnothing, hnone⟩ := h.tidy.fresh f hf hnil
    refine ⟨fun hlive => hdead (hlives f hlive).1, ?_, hnone⟩
    rw [hreceived]
    exact hnothing
  · obtain ⟨rest, hsplit, hrest⟩ := h.tidy.framed f hfg ((hone f).mp hf)
    refine ⟨rest, ?_, fun hlive => ?_⟩
    · rw [hreceived]
      exact hsplit
    · obtain ⟨hold, heq⟩ := hlives f hlive
      rw [heq hfg]
      exact hrest hold
  · rw [hcc]
    exact h.owner
  · rw [hcc]
    change ((s.connset.getcc g).r.skip n).content = _
    rw [RawCache.content_skip, h.cache (hlives g hlive).1]
  · rw [hreceived]
    exact h.split ((hone g).mp hg)

theorem forwardedOn_append (f : ℕ) (log log' : List (ℕ × List UInt8)) :
    forwardedOn f (log ++ log') = forwardedOn f log ++ forwardedOn f log' := by
  simp [forwardedOn]

theorem forwardedOn_map (f g : ℕ) (ps : List (List UInt8)) :
    forwardedOn f (ps.map (g, ·)) = if g = f then ps else [] := by
  by_cases hfg : g = f
  · simp [forwardedOn, hfg, List.filter_map, Function.comp_def]
  · simp [forwardedOn, hfg, List.filter_map, Function.comp_def]

/-- Packets of a flow that is known go to the history. -/
theorem Tidy.forwards (h : Tidy frame g log s) (hknown : connsOf g s.calls ≠ [])
    (ps : List (List UInt8)) : Tidy frame g (log ++ ps.map (g, ·)) s := by
  refine ⟨h.free, fun f hf hnil => ?_, fun f hfg hone => ?_⟩
  · have hgf : g ≠ f := by
      rintro rfl
      exact hknown hnil
    obtain ⟨hdead, hnothing, hnone⟩ := h.fresh f hf hnil
    refine ⟨hdead, hnothing, ?_⟩
    rw [forwardedOn_append, forwardedOn_map, if_neg hgf, hnone]
    rfl
  · rw [forwardedOn_append, forwardedOn_map, if_neg hfg.symm, List.append_nil]
    exact h.framed f hfg hone

section
variable {σ : Type} {dll : SppDll σ} {others : Handler σ}

/-- The packets of a call of `ator_recvdata` are forwarded. -/
theorem forwarded_eq {u : σ} {flow : ℕ} {data : List UInt8} {ps : List (List UInt8)}
    (h : (dll.received u flow data).packets = ps.map (·, .forwarded)) :
    Received.forwarded (dll.received u flow data) = ps := by
  simp [Received.forwarded, h, List.filter_map, Function.comp_def]

/-- `ator_recvdata` forwards the packets in the cache, and returns how many bytes they are. -/
theorem Incoming.callback (others : Handler σ) (hdll : dll.Forwards frame) (h : Incoming frame g log s) (u : σ) :
    ∃ (n : ℕ) (u' : σ) (log' : List (ℕ × List UInt8)),
      SockCommu.callback (atorHandler dll others) s (u, log)
        (.recvdata g (s.connset.getcc g).r.content) = ((n : ℤ), s, (u', log')) ∧
      Holding frame g (s.connset.getcc g).r.content ((s.connset.getcc g).r.content.drop n) log'
        s := by
  obtain ⟨u', ps, rest, hsplit, hu, hsends, hpackets, hret⟩ := hdll.received u g h.bytes
  have hrest : (s.connset.getcc g).r.content.drop ps.flatten.length = rest := by
    rw [← hsplit.flatten, List.drop_left]
  refine ⟨ps.flatten.length, u', log ++ ps.map (g, ·), ?_, ?_⟩
  · simp only [SockCommu.callback, atorHandler, hu, hsends, hret, forwarded_eq hpackets]
    rfl
  · rw [hrest]
    refine ⟨h.tidy.forwards h.known ps, .inl h.live.1, fun _ => rfl, fun hone => ?_⟩
    rw [forwardedOn_append, forwardedOn_map, if_pos rfl]
    exact h.ahead hone ps rest hsplit

/-- The other callbacks forward no packet. -/
theorem callback_other (dll : SppDll σ) (others : Handler σ) {J : SockCommu → Prop} (hJ : Sending J) (hs : J s) (u : σ) {n : Notice}
    (hn : ∀ flow data, n ≠ .recvdata flow data) :
    ∃ ret s' u', SockCommu.callback (atorHandler dll others) s (u, log) n = (ret, s', (u', log)) ∧
      J s' := by
  have hsends := hJ.sendtoAll s hs (others u n).2.sends
  cases n with
  | recvdata flow data => exact absurd rfl (hn flow data)
  | _ => exact ⟨_, _, _, rfl, hsends⟩

theorem Tidy.recvLoop (hdll : dll.Forwards frame) (flow : ℕ) (now : ℤ)
    (answers : List RecvAnswer) :
    ∀ s (p : σ × List (ℕ × List UInt8)), Tidy frame 0 p.2 s →
      Tidy frame 0 (recvLoop (atorHandler dll others) flow now s p answers).2.2
        (recvLoop (atorHandler dll others) flow now s p answers).1 := by
  induction answers with
  | nil => exact fun s p h => h.quiet (.recv_fail s flow 11 .exact now)
  | cons ans rest ih =>
    rintro s ⟨u, log⟩ h
    rw [SockCommu.recvLoop]
    dsimp only
    rcases h.recv hdll.framing flow ans.k ans.alloc ans.now with
      ⟨hquiet, hret⟩ | ⟨hincoming, hret⟩
    · rw [if_neg (by omega)]
      split
      · obtain ⟨ret, s', u', hcall, h'⟩ := callback_other dll others
          (tidy_sending frame 0 log) hquiet u (n := .disconnect flow) nofun
        rw [hcall]
        exact h'.quiet (.closeconn s' flow)
      · exact hquiet
    · obtain ⟨n, u', log', hcall, hhold⟩ := hincoming.callback others hdll u
      rw [if_pos hret, hcall]
      dsimp only
      by_cases hzero : n = 0
      · subst hzero
        exact ih _ (u', log') hhold.done
      · rw [if_neg (by omega), if_pos (by omega)]
        obtain ⟨ret, s', u'', hdone, h'⟩ := callback_other dll others
          (holding_sending frame flow _ _ log') hhold u' (n := .recvdone flow n) nofun
        rw [hdone, Int.toNat_natCast]
        exact ih _ (u'', log') h'.skipRead.done

/-- A call by a flow that only UDP connections have had. -/
theorem Tidy.udp {fd : ℕ} (h : Tidy frame g log s) (hudp : (g, fd, udpSocket) ∈ stored s.calls) :
    Tidy frame 0 log s := by
  refine ⟨h.free, h.fresh, fun f _ hone => ?_⟩
  by_cases hfg : f = g
  · obtain ⟨-, fd', type, hconns, htype⟩ := hone
    have hmem : (g, fd, udpSocket) ∈ connsOf f s.calls := by
      rw [connsOf, List.mem_filter]
      exact ⟨hudp, by simp [hfg]⟩
    rw [hconns, List.mem_singleton] at hmem
    have heq : udpSocket = type := congrArg (fun e => e.2.2) hmem
    exact absurd heq.symm htype
  · exact h.framed f hfg hone

/-- A new connection: its slot was free, and its receive cache is empty. -/
theorem Tidy.store (hframe : Framing frame) {fd type : ℕ} (h : Tidy frame 0 log s)
    (hfree : (s.connset.getcc g).flow = 0) (now : ℤ) (op : ConnOp) (out : ConnOut)
    (hstored : storedBy (op, out) = some (g, fd, type))
    (hreceived : ∀ f, receivedBy f (op, out) = []) :
    Tidy frame 0 log { s with
      connset := (s.connset.store g fd type now).1, flow := g, calls := s.calls ++ [(op, out)] } := by
  obtain ⟨c, hc⟩ : ∃ c, c = (s.connset.store g fd type now).1 := ⟨_, rfl⟩
  have hmax : c.maxconn = s.connset.maxconn := by rw [hc]; rfl
  have hself : c.ccs (g % s.connset.maxconn) = { s.connset.getcc g with
      flow := g, fd := fd, access := now, type := type } := by
    rw [hc]
    exact Function.update_self _ _ _
  have hother : ∀ i, i ≠ g % s.connset.maxconn → c.ccs i = s.connset.ccs i := by
    intro i hi
    rw [hc]
    exact Function.update_of_ne hi _ _
  have hempty : (s.connset.getcc g).r.content = [] := h.free (g % s.connset.maxconn) hfree
  have hin : ∀ f, receivedOn f (s.calls ++ [(op, out)]) = receivedOn f s.calls := by
    intro f
    rw [receivedOn_snoc, hreceived, List.append_nil]
  have hconns : ∀ f, connsOf f (s.calls ++ [(op, out)]) =
      connsOf f s.calls ++ if g = f then [(g, fd, type)] else [] := by
    intro f
    rw [connsOf_snoc, hstored]
    by_cases hgf : g = f <;> simp [hgf]
  have hlives : ∀ f, f ≠ g → c.Live f → s.connset.Live f ∧ c.getcc f = s.connset.getcc f := by
    intro f hfg hf
    have hslot : f % s.connset.maxconn ≠ g % s.connset.maxconn := by
      intro hslot
      have hflow := hf.1
      rw [ConnSet.getcc, hmax, hslot, hself] at hflow
      exact hfg hflow.symm
    have heq : c.getcc f = s.connset.getcc f := by
      rw [ConnSet.getcc, hmax]
      exact hother _ hslot
    refine ⟨?_, heq⟩
    rw [Live, ← heq]
    exact hf
  rw [← hc]
  refine ⟨fun i hi => ?_, fun f hf hnil => ?_, fun f hf hone => ?_⟩
  · change (c.ccs i).r.content = []
    change (c.ccs i).flow = 0 at hi
    by_cases hslot : i = g % s.connset.maxconn
    · rw [hslot, hself]
      exact hempty
    · rw [hother i hslot] at hi ⊢
      exact h.free i hi
  · change connsOf f (s.calls ++ [(op, out)]) = [] at hnil
    change ¬ c.Live f ∧ receivedOn f (s.calls ++ [(op, out)]) = [] ∧ _
    rw [hconns] at hnil
    obtain ⟨hold, hnew⟩ := List.append_eq_nil_iff.mp hnil
    have hfg : f ≠ g := by
      rintro rfl
      simp at hnew
    obtain ⟨hdead, hnothing, hnone⟩ := h.fresh f hf hold
    refine ⟨fun hlive => hdead (hlives f hfg hlive).1, ?_, hnone⟩
    rw [hin]
    exact hnothing
  · change ∃ rest, Splits frame (receivedOn f (s.calls ++ [(op, out)])) _ rest ∧
      (c.Live f → (c.getcc f).r.content = rest)
    change OneStream f (s.calls ++ [(op, out)]) at hone
    rw [OneStream, hconns] at hone
    rw [hin]
    by_cases hgf : g = f
    · -- the flow is new, for it has one connection
      subst hgf
      obtain ⟨-, fd', type', hconn, -⟩ := hone
      rw [if_pos rfl] at hconn
      have hnew : connsOf g s.calls = [] := by
        have hlen := congrArg List.length hconn
        rw [List.length_append] at hlen
        simpa using hlen
      obtain ⟨-, hnothing, hnone⟩ := h.fresh g hf hnew
      rw [hnothing, hnone]
      refine ⟨[], .nil hframe, fun _ => ?_⟩
      rw [ConnSet.getcc, hmax, hself]
      exact hempty
    · rw [if_neg hgf, List.append_nil] at hone
      obtain ⟨rest, hsplit, hrest⟩ := h.framed f hf hone
      refine ⟨rest, hsplit, fun hlive => ?_⟩
      obtain ⟨hold, heq⟩ := hlives f (fun hfg => hgf hfg.symm) hlive
      rw [heq]
      exact hrest hold

theorem Tidy.addconn (hframe : Framing frame) (h : Tidy frame 0 log s) (fd type : ℕ) (now : ℤ) :
    Tidy frame 0 log (s.addconn fd type now).1 ∧
      ((s.addconn fd type now).2.ret = some 0 →
        ((s.addconn fd type now).1.flow, fd, type) ∈ stored (s.addconn fd type now).1.calls) := by
  obtain ⟨g, -, ⟨-, heq⟩ | ⟨hfree, -, heq⟩⟩ := s.addconn_cases fd type now
  · rw [heq]
    refine ⟨h.quiet ⟨rfl, ?_, fun f => ?_, fun _ => .inl ⟨rfl, rfl⟩⟩, fun hret => by simp at hret⟩
    · exact (stored_snoc _ _).trans (List.append_nil _)
    · exact (receivedOn_snoc f _ _).trans (List.append_nil _)
  · rw [heq]
    refine ⟨h.store hframe hfree now _ _ rfl fun _ => rfl, fun _ => ?_⟩
    rw [stored_snoc]
    simp [storedBy]

theorem Tidy.pollOut (h : Tidy frame 0 log s) (u : σ) (ev : Ready) :
    Tidy frame 0 (pollOut (atorHandler dll others) s (u, log) ev).2.2
      (pollOut (atorHandler dll others) s (u, log) ev).1 := by
  have hcall := h.quiet (.sendfromcache s ev.flow ev.flush ev.now)
  unfold SockCommu.pollOut
  dsimp only
  split
  · exact hcall.quiet (.kernel _ _ _ _ _)
  · split
    · obtain ⟨ret, s', u', heq, h'⟩ := callback_other dll others (tidy_sending frame 0 log) hcall u
        (n := .senderror ev.flow _) nofun
      rw [heq]
      exact h'.quiet (.closeconn s' ev.flow)
    · exact hcall

theorem Tidy.closeExpired (dll : SppDll σ) (others : Handler σ) (flows : List ℕ) :
    ∀ s (p : σ × List (ℕ × List UInt8)), Tidy frame 0 p.2 s →
      Tidy frame 0 (closeExpired (atorHandler dll others) s p flows).2.2
        (closeExpired (atorHandler dll others) s p flows).1 := by
  induction flows with
  | nil => exact fun s p h => h
  | cons flow flows ih =>
    rintro s ⟨u, log⟩ h
    obtain ⟨ret, s', u', heq, h'⟩ := callback_other dll others (tidy_sending frame 0 log)
      (h.quiet (.closeconn s flow)) u (n := .timeout flow) nofun
    rw [SockCommu.closeExpired, heq]
    exact ih s' (u', log) h'

theorem Tidy.checkExpire (h : Tidy frame 0 log s) (u : σ) (now : ℤ) :
    Tidy frame 0 (checkExpire (atorHandler dll others) s (u, log) now).2.2
      (checkExpire (atorHandler dll others) s (u, log) now).1 := by
  have hclosed := Tidy.closeExpired dll others
    (s.connset.checkExpire (now - s.expiretime)) s (u, log) h
  unfold SockCommu.checkExpire
  dsimp only
  split
  · exact h
  · split
    · exact hclosed.quiet (.kernel _ _ _ _ _)
    · exact h

theorem Tidy.handleAccept (hframe : Framing frame) (h : Tidy frame 0 log s) (u : σ) (fd : ℕ)
    (ans : AcceptAnswer) :
    Tidy frame 0 (handleAccept (atorHandler dll others) s (u, log) fd ans).2.2
      (handleAccept (atorHandler dll others) s (u, log) fd ans).1 := by
  unfold SockCommu.handleAccept
  split
  · exact h
  · next clifd _ =>
    split
    · exact h
    · have hopen : Tidy frame 0 log (s.openFd clifd).bumpFlow := h.quiet (.kernel _ _ _ _ _)
      obtain ⟨ret, s', u', heq, h'⟩ := callback_other dll others (tidy_sending frame 0 log) hopen u
        (n := .connected (s.openFd clifd).bumpFlow.flow []) nofun
      dsimp only
      rw [heq]
      dsimp only
      split
      · exact h'.quiet (.kernel _ _ _ _ _)
      · split
        · exact h'.quiet (.kernel _ _ _ _ _)
        · obtain ⟨hadd, -⟩ := h'.addconn hframe clifd (s'.sockbind fd) ans.now
          split
          · obtain ⟨ret', s'', u'', hfull, h''⟩ := callback_other dll others
              (tidy_sending frame 0 log) (hadd.quiet (.kernel _ _ _ _ _)) u' (n := .overload) nofun
            rw [SockCommu.closeFd, hfull]
            exact h''
          · split
            · exact hadd.quiet (.kernel _ _ _ _ _)
            · exact hadd.quiet (.kernel _ _ _ _ _)

/-- What comes in with the first datagram belongs to a UDP connection. -/
theorem Tidy.handleAcceptUdp (hdll : dll.Forwards frame) (h : Tidy frame 0 log s) (u : σ)
    (fd : ℕ) (ans : RecvAnswer) :
    Tidy frame 0 (handleAcceptUdp (atorHandler dll others) s (u, log) fd ans).2.2
      (handleAcceptUdp (atorHandler dll others) s (u, log) fd ans).1 := by
  have hbump : Tidy frame 0 log s.bumpFlow := h.quiet (.kernel _ _ _ _ _)
  obtain ⟨hadd, hmem⟩ := hbump.addconn hdll.framing fd udpSocket ans.now
  unfold SockCommu.handleAcceptUdp
  dsimp only
  split
  · obtain ⟨ret, s', u', heq, h'⟩ := callback_other dll others (tidy_sending frame 0 log) hadd u
      (n := .overload) nofun
    rw [heq]
    exact h'
  · next hret =>
    have hudp := hmem (not_not.mp hret)
    obtain ⟨s₁, hs₁⟩ : ∃ s₁, s₁ = (s.bumpFlow.addconn fd udpSocket ans.now).1 := ⟨_, rfl⟩
    rw [← hs₁] at hadd hudp ⊢
    have hudp₂ : (s₁.flow, fd, udpSocket) ∈
        stored (s₁.call (.recv s₁.flow ans.k ans.alloc ans.now)).1.calls := by
      have hcalls : stored (s₁.call (.recv s₁.flow ans.k ans.alloc ans.now)).1.calls =
          stored s₁.calls := (stored_snoc _ _).trans (List.append_nil _)
      rw [hcalls]
      exact hudp
    rcases hadd.recv hdll.framing s₁.flow ans.k ans.alloc ans.now with
      ⟨hquiet, hle⟩ | ⟨hincoming, -⟩
    · split
      · exact hquiet
      · next ret hsome =>
        rw [hsome] at hle
        have hnone : ¬ ret > 0 := Int.not_lt.mpr hle
        rw [if_neg hnone]
        exact hquiet.quiet (.closeconn _ _)
    · split
      · exact hincoming.tidy.udp hudp₂
      · split
        · -- callbacks that send keep this, and the packets are those of the UDP connection
          have hsending : Sending fun s => Tidy frame s₁.flow log s ∧
              (s₁.flow, fd, udpSocket) ∈ stored s.calls :=
            sending_of_quiet fun _ _ hq hJ => ⟨hJ.1.quiet hq, by rw [hq.history]; exact hJ.2⟩
          obtain ⟨ret', s', u', heq, h', hudp'⟩ := callback_other dll others hsending
            ⟨hincoming.tidy, hudp₂⟩ u (n := .connected s₁.flow _) nofun
          rw [heq]
          dsimp only
          split
          · exact (h'.udp hudp').quiet (.closeconn _ _)
          · obtain ⟨u'', ps, rest, -, hu, hsends, hpackets, -⟩ :=
              hdll.received u' s₁.flow hincoming.bytes
            have hknown : connsOf s₁.flow s'.calls ≠ [] := by
              refine List.ne_nil_of_mem (a := (s₁.flow, fd, udpSocket)) ?_
              rw [connsOf, List.mem_filter]
              exact ⟨hudp', by simp⟩
            simp only [SockCommu.callback, atorHandler, hsends, forwarded_eq hpackets]
            exact (h'.forwards hknown ps).udp hudp'
        · exact (hincoming.tidy.udp hudp₂).quiet (.closeconn _ _)

theorem Tidy.connect (hframe : Framing frame) (h : Tidy frame 0 log s) (u : σ) (type : ℕ)
    (ans : ConnectAnswer) :
    Tidy frame 0 (connect (atorHandler dll others) s (u, log) type ans).2.2.2
      (connect (atorHandler dll others) s (u, log) type ans).2.1 := by
  have hopen : Tidy frame 0 log (s.openFd ans.fd).bumpFlow := h.quiet (.kernel _ _ _ _ _)
  obtain ⟨hadd, -⟩ := hopen.addconn hframe ans.fd type ans.now
  have hsending := tidy_sending frame 0 log
  unfold SockCommu.connect
  split
  · exact h
  · split
    · exact h
    · dsimp only
      split
      · obtain ⟨ret, s', u', heq, h'⟩ := callback_other dll others hsending
          (hadd.quiet (.kernel _ _ _ _ _)) u (n := .overload) nofun
        rw [SockCommu.closeFd, heq]
        exact h'
      · split
        · exact hadd.quiet (.kernel _ _ _ _ _)
        · obtain ⟨s₁, hs₁⟩ : ∃ s₁, s₁ = ((s.openFd ans.fd).bumpFlow.addconn ans.fd type
            ans.now).1.add ans.fd ((s.openFd ans.fd).bumpFlow.addconn ans.fd type
              ans.now).1.flow maskIn := ⟨_, rfl⟩
          have hreg : Tidy frame 0 log s₁ := by
            rw [hs₁]
            exact hadd.quiet (.kernel _ _ _ _ _)
          rw [← hs₁]
          obtain ⟨ret, s₂, u₂, heq, h₂⟩ := callback_other dll others hsending hreg u
            (n := .connect s₁.flow) nofun
          rw [heq]
          dsimp only
          split
          · exact h₂.quiet (.kernel _ _ _ _ _)
          · obtain ⟨ret', s₃, u₃, heq', h₃⟩ := callback_other dll others hsending h₂ u₂
              (n := .connected s₂.flow []) nofun
            rw [heq']
            dsimp only
            split
            · exact h₃.quiet (.kernel _ _ _ _ _)
            · exact h₃

theorem Tidy.handleReady (hdll : dll.Forwards frame) (h : Tidy frame 0 log s) (u : σ)
    (ev : Ready) :
    Tidy frame 0 (handleReady (atorHandler dll others) s (u, log) ev).2.2
      (handleReady (atorHandler dll others) s (u, log) ev).1 := by
  unfold SockCommu.handleReady
  split
  · split
    · split
      · exact h.handleAccept hdll.framing u ev.fd ev.accept
      · exact h.handleAcceptUdp hdll u ev.fd ev.recv
    · exact h
  · split
    · obtain ⟨ret, s', u', heq, h'⟩ := callback_other dll others (tidy_sending frame 0 log)
        (h.quiet (.closeconn s ev.flow)) u (n := .disconnect ev.flow) nofun
      rw [heq]
      exact h'
    · have hin : ∀ p : SockCommu × σ × List (ℕ × List UInt8), Tidy frame 0 p.2.2 p.1 →
          Tidy frame 0 (if ev.epollin then SockCommu.recvLoop (atorHandler dll others) ev.flow
            ev.now p.1 p.2 ev.recvs else p).2.2
          (if ev.epollin then SockCommu.recvLoop (atorHandler dll others) ev.flow
            ev.now p.1 p.2 ev.recvs else p).1 := by
        intro p hp
        split
        · exact Tidy.recvLoop hdll ev.flow ev.now ev.recvs p.1 p.2 hp
        · exact hp
      refine hin (if ev.epollout then SockCommu.pollOut (atorHandler dll others) s (u, log) ev
        else (s, (u, log))) ?_
      split
      · exact h.pollOut u ev
      · exact h

theorem Tidy.step (hdll : dll.Forwards frame)
    {p : SockCommu × σ × List (ℕ × List UInt8)} (h : Tidy frame 0 p.2.2 p.1) (ev : Event) :
    Tidy frame 0 (step (atorHandler dll others) p ev).1.2.2
      (step (atorHandler dll others) p ev).1.1 := by
  cases ev with
  | ready ev => exact h.handleReady hdll p.2.1 ev
  | sendto c => exact (tidy_sending frame 0 p.2.2).sendto p.1 h c
  | connect type ans => exact h.connect hdll.framing p.2.1 type ans
  | checkExpire now => exact h.checkExpire p.2.1 now

/-- A run of the proxy. -/
def reached (dll : SppDll σ) (others : Handler σ) (u : σ) (s : SockCommu) (events : List Event) :
    SockCommu × σ × List (ℕ × List UInt8) :=
  Run.final (step (atorHandler dll others)) (s, u, []) events

theorem tidy_reached (hdll : dll.Forwards frame) (others : Handler σ) (u : σ) (maxconn : ℕ)
    (pos : 0 < maxconn) (bound : maxconn < 2 ^ 31) (sockbind : ℕ → ℕ) (maxbindfd : ℕ)
    (expiretime interval now : ℤ) (events : List Event) :
    let p := reached dll others u
      (init maxconn pos bound sockbind maxbindfd expiretime interval now) events
    Tidy frame 0 p.2.2 p.1 := by
  have hinit : Tidy frame 0 [] (init maxconn pos bound sockbind maxbindfd expiretime interval now) := by
    refine ⟨fun _ _ => rfl, fun f hf _ => ⟨fun hlive => hf hlive.1.symm, rfl, rfl⟩, ?_⟩
    rintro f - ⟨-, fd, type, hconns, -⟩
    exact absurd hconns (by simp [init, connsOf, stored])
  have hstep : ∀ (p : SockCommu × σ × List (ℕ × List UInt8)) ev, Tidy frame 0 p.2.2 p.1 → True →
      Tidy frame 0 (SockCommu.step (atorHandler dll others) p ev).1.2.2
        (SockCommu.step (atorHandler dll others) p ev).1.1 := fun p ev h _ => h.step hdll ev
  exact Run.invariant hstep hinit (Run.always_true _ _)

/-- In two runs of the proxy in which two streams have received the same bytes, in whatever
chunks and with whatever events between them, the same packets have been forwarded, and while
the connections live, the same bytes are left in their receive caches. -/
theorem packets_of_stream (hdll : dll.Forwards frame) (others : Handler σ) (u : σ) (maxconn : ℕ)
    (pos : 0 < maxconn) (bound : maxconn < 2 ^ 31) (sockbind : ℕ → ℕ) (maxbindfd : ℕ)
    (expiretime interval now : ℤ) (events events' : List Event) (f f' : ℕ) :
    let s := init maxconn pos bound sockbind maxbindfd expiretime interval now
    let p := reached dll others u s events
    let p' := reached dll others u s events'
    OneStream f p.1.calls → OneStream f' p'.1.calls →
    receivedOn f p.1.calls = receivedOn f' p'.1.calls →
    forwardedOn f p.2.2 = forwardedOn f' p'.2.2 ∧
      (p.1.connset.Live f → p'.1.connset.Live f' →
        (p.1.connset.getcc f).r.content = (p'.1.connset.getcc f').r.content) := by
  intro s p p' hone hone' hbytes
  have htidy := tidy_reached hdll others u maxconn pos bound sockbind maxbindfd expiretime
    interval now
  obtain ⟨rest, hsplit, hrest⟩ := (htidy events).framed f hone.1 hone
  obtain ⟨rest', hsplit', hrest'⟩ := (htidy events').framed f' hone'.1 hone'
  rw [← hbytes] at hsplit'
  obtain ⟨hpackets, heq⟩ := hsplit.unique hsplit'
  refine ⟨hpackets, fun hlive hlive' => ?_⟩
  rw [hrest hlive, hrest' hlive', heq]

end

/-- A plugin with packets of two bytes. -/
def pairs : SppDll Unit where
  sppHandleInput u _ data := (u, if 2 ≤ data.length then 2 else 0)
  sppHandleRoute := none
  sppHandleQueueFull u _ _ _ := (u, ⟨0, []⟩)
  localHandle := none
  ctorSize := 1
  ctorSendto u _ _ _ := (u, 0)

theorem pairs_forwards : pairs.Forwards fun data => if 2 ≤ data.length then 2 else 0 where
  framing := by
    refine ⟨fun bs => ?_, fun as bs hpos => ?_⟩
    · split <;> omega
    · have hlen : 2 ≤ as.length := by
        by_contra hshort
        rw [if_neg hshort] at hpos
        omega
      rw [if_pos hlen, if_pos (by rw [List.length_append]; omega)]
  input _ _ data := by
    change (if 2 ≤ data.length then (2 : ℤ) else 0) = _
    split <;> rfl
  route _ _ _ := by simp [SppDll.RouteError, pairs]
  room _ _ _ _ := rfl
  remote := rfl

/-- Three bytes come in one chunk, or in two that cut the first packet. -/
theorem packets_of_stream_cut :
    let ready := fun fd flow recvs => Event.ready {
      fd := fd, flow := flow, epollin := true, epollout := false
      accept := ⟨some 5, true, true, 0⟩, recv := ⟨.fail 11, .exact, 0⟩
      flush := .fail 11, recvs := recvs, now := 0 }
    let s := init 1 (by decide) (by decide) (fun fd => if fd = 3 then 1 else 0) 3 60 60 0
    let others := fun u _ => (u, Reply.mk [] 0)
    let events := [ready 3 0 [], ready 5 1 [⟨.data ⟨[1, 2, 3], by decide⟩, .exact, 0⟩]]
    let events' := [ready 3 0 [], ready 5 1 [⟨.data ⟨[1], by decide⟩, .exact, 0⟩],
      ready 5 1 [⟨.data ⟨[2, 3], by decide⟩, .exact, 0⟩]]
    let p := reached pairs others () s events
    let p' := reached pairs others () s events'
    forwardedOn 1 p'.2.2 = [[1, 2]] ∧ forwardedOn 1 p.2.2 = forwardedOn 1 p'.2.2 ∧
      (p.1.connset.getcc 1).r.content = (p'.1.connset.getcc 1).r.content := by
  intro ready s others events events' p p'
  obtain ⟨hpackets, hrest⟩ := packets_of_stream pairs_forwards others () 1 (by decide) (by decide)
    (fun fd => if fd = 3 then 1 else 0) 3 60 60 0 events events' 1 1
    ⟨by decide, 5, 1, by decide +kernel, by decide⟩ ⟨by decide, 5, 1, by decide +kernel, by decide⟩
    (by decide +kernel)
  exact ⟨by decide +kernel, hpackets, hrest ⟨by decide +kernel, by decide⟩ ⟨by decide +kernel, by decide⟩⟩

end SockCommu

end Spp
