import Spp.Lib.Framing
import Spp.Shm.MQ
import Spp.Sock.SockCommu

/-!
# What the proxy does with received bytes

`ator_recvdata` gets the receive cache of a connection.  It asks the plugin for the length
of the first packet, forwards the packet to a worker queue, and goes on behind it; what it
returns is the length that `poll` then skips in the cache.

The plugin and the queues are functions of a state of their own.  What a function of the
plugin sends to clients comes with its answer.  The static buffer that a locally handled
packet is copied to, the statistics and the log are left out.

## Main definitions

* `SppDll` — the functions of the plugin, and the queues.
* `handlePacket`, `recvdataLoop`, `atorRecvdata` — the callback.
* `Fate` — what becomes of a packet.
* `KeptAt` — a packet that meets a full queue and that the plugin keeps.
-/

namespace Spp

/-- What a function of the plugin returns, and the calls of `sendto` that it makes. -/
structure Answer where
  ret : ℤ
  sends : List SendCall

/-- The functions of the plugin, some of which it may leave out, and the queues to the
worker groups.  Their state is `σ`. -/
structure SppDll (σ : Type) where
  sppHandleInput : σ → ℕ → List UInt8 → σ × ℤ
  sppHandleRoute : Option (σ → ℕ → List UInt8 → σ × ℕ)
  sppHandleQueueFull : σ → ℕ → ℕ → List UInt8 → σ × Answer
  localHandle : Option (σ → ℕ → List UInt8 → σ × Answer)
  ctorSize : ℕ
  ctorSendto : σ → ℕ → ℕ → List UInt8 → σ × ℤ

/-- What becomes of a packet. -/
inductive Fate
  /-- `local_handle` has processed it. -/
  | handled
  /-- There is no group for it. -/
  | unrouted
  /-- It is in a queue. -/
  | forwarded
  /-- The queue is full, and the plugin keeps the packet. -/
  | kept
  /-- The queue is full, and the plugin gives the packet up. -/
  | dropped
  /-- The queue has failed otherwise. -/
  | failed
  deriving DecidableEq

/-- What the loop does with one packet; without `goOn` it breaks. -/
structure Handled (σ : Type) where
  u : σ
  sends : List SendCall
  goOn : Bool
  fate : Fate

/-- `sendto` of a blob of length 0, which closes the connection. -/
def closeCall (flow : ℕ) : SendCall := ⟨flow, ⟨[], Payload.nil_lt⟩, .fail 0, .fail 0, .exact, 0, []⟩

/-- What the loop leaves: the state, the calls it made, `processed_len` and `proto_len`,
and as history the packets with their fates. -/
structure Received (σ : Type) where
  u : σ
  sends : List SendCall
  packets : List (List UInt8 × Fate)
  processedLen : ℤ
  protoLen : ℤ

namespace SppDll

variable {σ : Type} (dll : SppDll σ)

/-- `spp_handle_route`; without it every packet goes to group 1. -/
def routeNo (u : σ) (flow : ℕ) (packet : List UInt8) : σ × ℕ :=
  match dll.sppHandleRoute with
  | none => (u, 1)
  | some route => route u flow packet

/-- The group of a packet is out of range, which is looked at only with a plugin's route. -/
def RouteError (routeNo : ℕ) : Prop :=
  dll.sppHandleRoute.isSome ∧ (routeNo > dll.ctorSize ∨ routeNo = 0)

instance (routeNo : ℕ) : Decidable (dll.RouteError routeNo) := inferInstanceAs (Decidable (_ ∧ _))

/-- The body of the loop, from the packet on. -/
def handlePacket (u : σ) (flow : ℕ) (packet : List UInt8) : Handled σ :=
  match dll.localHandle with
  | some localHandle =>
      let (u, ans) := localHandle u flow packet
      if ans.ret = 0 then ⟨u, ans.sends, true, .handled⟩
      else ⟨u, ans.sends ++ [closeCall flow], false, .handled⟩
  | none =>
      let (u, routeNo) := dll.routeNo u flow packet
      if dll.RouteError routeNo then ⟨u, [], false, .unrouted⟩
      else
        let (u, ret) := dll.ctorSendto u (routeNo - 1) flow packet
        if ret = 0 then ⟨u, [], true, .forwarded⟩
        else if ret = commuErrMqFull then
          let (u, ans) := dll.sppHandleQueueFull u flow (routeNo - 1) packet
          -- the source's comment: the data stays in memory
          if ans.ret = 0 then ⟨u, ans.sends, false, .kept⟩
          else if ans.ret < 0 then ⟨u, ans.sends ++ [closeCall flow], false, .dropped⟩
          else ⟨u, ans.sends, true, .dropped⟩
        else ⟨u, [], true, .failed⟩

/-- The loop of `ator_recvdata`, which runs at most once for each byte. -/
def recvdataLoop (flow totalLen : ℕ) : ℕ → σ → List UInt8 → ℤ → ℤ → Received σ
  | 0, u, _, processedLen, protoLen => ⟨u, [], [], processedLen, protoLen⟩
  | fuel + 1, u, data, processedLen, protoLen =>
      if data.length > 0 then
        let (u, protoLen) := dll.sppHandleInput u flow data
        if protoLen > 0 then
          if protoLen > data.length then ⟨u, [], [], totalLen, protoLen⟩
          else
            let packet := data.take protoLen.toNat
            let processedLen := processedLen + protoLen
            let r := dll.handlePacket u flow packet
            if r.goOn then
              let next := recvdataLoop flow totalLen fuel r.u (data.drop protoLen.toNat)
                processedLen protoLen
              { next with sends := r.sends ++ next.sends, packets := (packet, r.fate) :: next.packets }
            else ⟨r.u, r.sends, [(packet, r.fate)], processedLen, protoLen⟩
        else ⟨u, [], [], processedLen, protoLen⟩
      else ⟨u, [], [], processedLen, protoLen⟩

/-- The loop as `ator_recvdata` starts it. -/
def received (u : σ) (flow : ℕ) (data : List UInt8) : Received σ :=
  dll.recvdataLoop flow data.length data.length u data 0 (-1)

/-- The code that `ator_recvdata` returns. -/
def Received.ret (r : Received σ) : ℤ := if r.protoLen < 0 then r.protoLen else r.processedLen

/-- `ator_recvdata`: the code and the calls it makes. -/
def atorRecvdata (u : σ) (flow : ℕ) (data : List UInt8) : σ × Reply :=
  let r := dll.received u flow data
  (r.u, ⟨r.sends, Received.ret r⟩)

/-! ## A packet that the plugin keeps -/

/-- In a call with these bytes, the packet at the offset meets a full queue, and the plugin
answers that it stays. -/
inductive KeptAt (flow : ℕ) : σ → List UInt8 → ℕ → Prop
  | here {u u' : σ} {data : List UInt8} {n : ℕ} :
      dll.sppHandleInput u flow data = (u', (n : ℤ)) → 0 < n → n ≤ data.length →
      (dll.handlePacket u' flow (data.take n)).fate = .kept → KeptAt flow u data 0
  | next {u u' : σ} {data : List UInt8} {n offset : ℕ} :
      dll.sppHandleInput u flow data = (u', (n : ℤ)) → 0 < n → n ≤ data.length →
      (dll.handlePacket u' flow (data.take n)).goOn = true →
      KeptAt flow (dll.handlePacket u' flow (data.take n)).u (data.drop n) offset →
      KeptAt flow u data (n + offset)

variable {dll} {flow : ℕ} {u : σ} {data : List UInt8}

/-- The loop breaks at a packet that the plugin keeps. -/
theorem not_goOn_of_kept {packet : List UInt8} (h : (dll.handlePacket u flow packet).fate = .kept) :
    (dll.handlePacket u flow packet).goOn = false := by
  unfold handlePacket at h ⊢
  dsimp only at h ⊢
  repeat' split at h
  all_goals simp_all

/-- The loop at a whole packet. -/
theorem recvdataLoop_packet {u' : σ} {n : ℕ} (hinput : dll.sppHandleInput u flow data = (u', (n : ℤ)))
    (hpos : 0 < n) (hle : n ≤ data.length) (totalLen fuel : ℕ) (processedLen protoLen : ℤ) :
    dll.recvdataLoop flow totalLen (fuel + 1) u data processedLen protoLen =
      let r := dll.handlePacket u' flow (data.take n)
      if r.goOn then
        let next := dll.recvdataLoop flow totalLen fuel r.u (data.drop n) (processedLen + n) n
        { next with
          sends := r.sends ++ next.sends, packets := (data.take n, r.fate) :: next.packets }
      else ⟨r.u, r.sends, [(data.take n, r.fate)], processedLen + n, n⟩ := by
  have hdata : data.length > 0 := by omega
  have hfound : (n : ℤ) > 0 := by omega
  have hwhole : ¬ (n : ℤ) > data.length := by omega
  rw [recvdataLoop, if_pos hdata, hinput]
  simp only [if_pos hfound, if_neg hwhole, Int.toNat_natCast]

/-- The loop counts a packet that the plugin keeps. -/
theorem KeptAt.recvdataLoop {offset : ℕ} (h : dll.KeptAt flow u data offset) (totalLen : ℕ) :
    ∀ fuel processedLen protoLen, data.length ≤ fuel → ∃ n : ℕ, 0 < n ∧
      (dll.recvdataLoop flow totalLen fuel u data processedLen protoLen).protoLen = n ∧
      (dll.recvdataLoop flow totalLen fuel u data processedLen protoLen).processedLen =
        processedLen + offset + n := by
  induction h with
  | @here u u' data n hinput hpos hle hkept =>
    intro fuel processedLen protoLen hfuel
    obtain ⟨fuel, rfl⟩ : ∃ k, fuel = k + 1 := ⟨fuel - 1, by omega⟩
    refine ⟨n, hpos, ?_⟩
    rw [recvdataLoop_packet hinput hpos hle]
    simp [not_goOn_of_kept hkept]
  | @next u u' data n offset hinput hpos hle hgoOn hrest ih =>
    intro fuel processedLen protoLen hfuel
    obtain ⟨fuel, rfl⟩ : ∃ k, fuel = k + 1 := ⟨fuel - 1, by omega⟩
    have hshort : (data.drop n).length ≤ fuel := by
      rw [List.length_drop]
      omega
    obtain ⟨m, hm, hproto, hprocessed⟩ := ih fuel (processedLen + n) n hshort
    refine ⟨m, hm, ?_⟩
    rw [recvdataLoop_packet hinput hpos hle]
    simp only [hgoOn, if_true]
    refine ⟨hproto, ?_⟩
    rw [hprocessed]
    push_cast
    omega

/-- What `ator_recvdata` returns counts the bytes of a packet that the plugin keeps. -/
theorem KeptAt.ret {offset : ℕ} (h : dll.KeptAt flow u data offset) :
    ∃ n : ℕ, 0 < n ∧ (dll.atorRecvdata u flow data).2.ret = (offset + n : ℕ) := by
  obtain ⟨n, hpos, hproto, hprocessed⟩ := h.recvdataLoop data.length data.length 0 (-1) le_rfl
  refine ⟨n, hpos, ?_⟩
  change Received.ret (dll.received u flow data) = _
  unfold Received.ret received
  rw [hproto, hprocessed, if_neg (by omega)]
  push_cast
  omega

/-- A packet that the plugin keeps stays in the receive cache, and so does every byte behind
it: what `ator_recvdata` returns, and `poll` skips, counts the packets before it only. -/
def KeepsPackets (dll : SppDll σ) (u : σ) (flow : ℕ) (r : RawCache) : Prop :=
  ∀ offset, dll.KeptAt flow u r.content offset →
    (dll.atorRecvdata u flow r.content).2.ret = offset ∧
      (r.skip (dll.atorRecvdata u flow r.content).2.ret.toNat).content = r.content.drop offset

/-- The call leaves in the cache what the plugin keeps exactly when it keeps nothing: a
packet that meets a full queue has been counted before. -/
theorem keepsPackets_iff (dll : SppDll σ) (u : σ) (flow : ℕ) (r : RawCache) :
    dll.KeepsPackets u flow r ↔ ∀ offset, ¬ dll.KeptAt flow u r.content offset := by
  constructor
  · intro h offset hkept
    obtain ⟨n, hpos, hret⟩ := hkept.ret
    have hclaim := (h offset hkept).1
    rw [hret] at hclaim
    omega
  · intro h offset hkept
    exact absurd hkept (h offset)

/-- Packets of one byte and a queue that is full: the first of two packets is skipped. -/
theorem not_keepsPackets_full :
    ¬ SppDll.KeepsPackets
      { sppHandleInput := fun u _ _ => (u, 1), sppHandleRoute := none
        sppHandleQueueFull := fun u _ _ _ => (u, ⟨0, []⟩), localHandle := none, ctorSize := 1
        ctorSendto := fun u _ _ _ => (u, commuErrMqFull) } () 1
      ((RawCache.new.append ⟨[1, 2], by decide⟩ .exact).getD .new) := by
  intro h
  have hkept := (h 0 (.here rfl Nat.one_pos (by decide +kernel) rfl)).1
  exact absurd hkept (by decide +kernel)

end SppDll
end Spp
