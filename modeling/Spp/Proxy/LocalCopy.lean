import Spp.Proxy.Recvdata

/-!
# Packets that are processed where they are received

`ator_recvdata` of the proxy, when it handles packets itself, and `ctor_recvdata` of the worker
copy each packet to a static buffer of 16 MB before they hand it on.  The two loops are the same:
they compare the length that the plugin returns with the bytes that are in the receive cache, and
with nothing else.  The cache grows with what the peer sends, so that a packet can be larger than
the buffer.

## Main definitions

* `Copy` — a copy to the static buffer.
* `Body`, `copyLoop` — the loop, with the copies that it makes.
* `SppDll.copied`, `WorkerDll.copied` — the two callbacks.
* `FramedAt` — a length that the plugin returns for a packet of the cache.
* `FitsStatic` — the claim on a call.
* `appendAll` — the cache after several chunks.
-/

namespace Spp

/-- A `memcpy` to `SBUFFER`, from an offset behind the first byte of the cache. -/
structure Copy where
  src : ℕ
  len : ℕ
  deriving DecidableEq

/-- What the body of the loop does with a packet; `copied` if it goes through `SBUFFER`. -/
structure Body (σ : Type) where
  u : σ
  sends : List SendCall
  copied : Bool
  goOn : Bool

/-- What the loop leaves: the state, the calls of `sendto`, the copies, `processed_len` and
`proto_len`. -/
structure Copied (σ : Type) where
  u : σ
  sends : List SendCall
  copies : List Copy
  processedLen : ℤ
  protoLen : ℤ

section
variable {σ : Type} (input : σ → List UInt8 → σ × ℤ) (body : σ → List UInt8 → Body σ)

/-- The loop on the bytes from an offset in the cache; `len` is `blob->len`. -/
def copyLoop (totalLen : ℤ) : ℕ → σ → ℕ → List UInt8 → ℤ → ℤ → ℤ → Copied σ
  | 0, u, _, _, _, processedLen, protoLen => ⟨u, [], [], processedLen, protoLen⟩
  | fuel + 1, u, src, data, len, processedLen, protoLen =>
      if len > 0 then
        let (u, protoLen) := input u data
        if protoLen > 0 then
          if protoLen > len then ⟨u, [], [], totalLen, protoLen⟩
          else
            let n := protoLen.toNat
            let r := body u (data.take n)
            let copies := if r.copied then [⟨src, n⟩] else []
            if r.goOn then
              let next := copyLoop totalLen fuel r.u (src + n) (data.drop n) (len - protoLen)
                (processedLen + protoLen) protoLen
              { next with sends := r.sends ++ next.sends, copies := copies ++ next.copies }
            else ⟨r.u, r.sends, copies, processedLen + protoLen, protoLen⟩
        else ⟨u, [], [], processedLen, protoLen⟩
      else ⟨u, [], [], processedLen, protoLen⟩

/-- The loop as the callbacks start it on the bytes of the cache, whose number becomes an
`int`. -/
def copied (u : σ) (data : List UInt8) : Copied σ :=
  copyLoop input body (s32 data.length) data.length u 0 data (s32 data.length) 0 (-1)

/-- With these bytes in the cache, the plugin returns the length `n` for a packet that is whole,
the first one or one behind packets after which the loop goes on. -/
inductive FramedAt : σ → List UInt8 → ℤ → ℕ → Prop
  | here {u u' : σ} {data : List UInt8} {len : ℤ} {n : ℕ} :
      input u data = (u', (n : ℤ)) → 0 < n → n ≤ len → FramedAt u data len n
  | next {u u' : σ} {data : List UInt8} {len : ℤ} {n m : ℕ} :
      input u data = (u', (n : ℤ)) → 0 < n → n ≤ len → (body u' (data.take n)).goOn = true →
      FramedAt (body u' (data.take n)).u (data.drop n) (len - n) m → FramedAt u data len m

end

/-- The claim on the copies of a call: they write inside `SBUFFER` and read inside the cache. -/
structure FitsStatic (copies : List Copy) (dataLen : ℕ) : Prop where
  write : ∀ c ∈ copies, c.len ≤ maxBlobDataLen
  read : ∀ c ∈ copies, c.src + c.len ≤ dataLen

namespace SppDll

variable {σ : Type} (dll : SppDll σ)

/-- The body of the loop of `ator_recvdata`. -/
def localBody (flow : ℕ) (u : σ) (packet : List UInt8) : Body σ :=
  let r := dll.handlePacket u flow packet
  ⟨r.u, r.sends, dll.localHandle.isSome, r.goOn⟩

/-- `ator_recvdata` with its copies. -/
def copied (u : σ) (flow : ℕ) (data : List UInt8) : Copied σ :=
  Spp.copied (fun u data => dll.sppHandleInput u flow data) (dll.localBody flow) u data

/-- The lengths of the packets of a call. -/
def Framed (u : σ) (flow : ℕ) (data : List UInt8) (n : ℕ) : Prop :=
  FramedAt (fun u data => dll.sppHandleInput u flow data) (dll.localBody flow) u data
    (s32 data.length) n

end SppDll

/-- The functions of a worker's plugin. -/
structure WorkerDll (σ : Type) where
  sppHandleInput : σ → ℕ → List UInt8 → σ × ℤ
  sppHandleProcess : Option (σ → ℕ → List UInt8 → σ × Answer)

namespace WorkerDll

variable {σ : Type} (dll : WorkerDll σ)

/-- The body of the loop of `ctor_recvdata`; without `spp_handle_process` the packet is thrown
away. -/
def processBody (flow : ℕ) (u : σ) (packet : List UInt8) : Body σ :=
  match dll.sppHandleProcess with
  | some process =>
      let (u, ans) := process u flow packet
      if ans.ret = 0 then ⟨u, ans.sends, true, true⟩
      else ⟨u, ans.sends ++ [closeCall flow], true, false⟩
  | none => ⟨u, [], false, true⟩

/-- `ctor_recvdata` with its copies. -/
def copied (u : σ) (flow : ℕ) (data : List UInt8) : Copied σ :=
  Spp.copied (fun u data => dll.sppHandleInput u flow data) (dll.processBody flow) u data

/-- `ctor_recvdata`: the code and the calls it makes. -/
def ctorRecvdata (u : σ) (flow : ℕ) (data : List UInt8) : σ × Reply :=
  let r := dll.copied u flow data
  (r.u, ⟨r.sends, if r.protoLen < 0 then r.protoLen else r.processedLen⟩)

/-- The lengths of the packets of a call. -/
def Framed (u : σ) (flow : ℕ) (data : List UInt8) (n : ℕ) : Prop :=
  FramedAt (fun u data => dll.sppHandleInput u flow data) (dll.processBody flow) u data
    (s32 data.length) n

end WorkerDll

/-! ## The copies of the loop -/

section
variable {σ : Type} {input : σ → List UInt8 → σ × ℤ} {body : σ → List UInt8 → Body σ}
variable {u u' : σ} {data : List UInt8} {len : ℤ} {n : ℕ}

theorem FramedAt.pos_le (h : FramedAt input body u data len n) : 0 < n ∧ n ≤ len := by
  induction h with
  | here _ hpos hle => exact ⟨hpos, hle⟩
  | next _ _ _ _ _ ih => exact ⟨ih.1, by omega⟩

/-- The loop at a whole packet. -/
theorem copyLoop_packet (hinput : input u data = (u', (n : ℤ))) (hpos : 0 < n) (hle : n ≤ len)
    (totalLen : ℤ) (fuel src : ℕ) (processedLen protoLen : ℤ) :
    copyLoop input body totalLen (fuel + 1) u src data len processedLen protoLen =
      let r := body u' (data.take n)
      let copies := if r.copied then [⟨src, n⟩] else []
      if r.goOn then
        let next := copyLoop input body totalLen fuel r.u (src + n) (data.drop n) (len - n)
          (processedLen + n) n
        { next with sends := r.sends ++ next.sends, copies := copies ++ next.copies }
      else ⟨r.u, r.sends, copies, processedLen + n, n⟩ := by
  have hlen : len > 0 := by omega
  have hfound : (n : ℤ) > 0 := by omega
  have hwhole : ¬ (n : ℤ) > len := by omega
  rw [copyLoop, if_pos hlen, hinput]
  simp only [if_pos hfound, if_neg hwhole, Int.toNat_natCast]

/-- The loop where it ends without a packet. -/
theorem copyLoop_end (h : len ≤ 0 ∨ (input u data).2 ≤ 0 ∨ (input u data).2 > len) (totalLen : ℤ)
    (fuel src : ℕ) (processedLen protoLen : ℤ) :
    (copyLoop input body totalLen fuel u src data len processedLen protoLen).copies = [] := by
  cases fuel with
  | zero => rfl
  | succ fuel =>
      rw [copyLoop]
      dsimp only
      split
      · split
        · split
          · rfl
          · omega
        · rfl
      · rfl

/-- The next bytes begin with a whole packet, or the loop ends. -/
theorem packet_or_end (input : σ → List UInt8 → σ × ℤ) (u : σ) (data : List UInt8) (len : ℤ) :
    (∃ (u' : σ) (n : ℕ), input u data = (u', (n : ℤ)) ∧ 0 < n ∧ (n : ℤ) ≤ len) ∨
      (len ≤ 0 ∨ (input u data).2 ≤ 0 ∨ (input u data).2 > len) := by
  by_cases hend : len ≤ 0 ∨ (input u data).2 ≤ 0 ∨ (input u data).2 > len
  · exact .inr hend
  · have hcast : ((input u data).2.toNat : ℤ) = (input u data).2 := Int.toNat_of_nonneg (by omega)
    refine .inl ⟨(input u data).1, (input u data).2.toNat, ?_, by omega, by omega⟩
    rw [hcast]

/-- Every copy is of a packet, and lies in the bytes of the cache. -/
theorem copyLoop_mem (totalLen : ℤ) :
    ∀ (fuel : ℕ) (u : σ) (src : ℕ) (data : List UInt8) (len processedLen protoLen : ℤ),
      ∀ c ∈ (copyLoop input body totalLen fuel u src data len processedLen protoLen).copies,
        FramedAt input body u data len c.len ∧ (c.src + c.len : ℕ) ≤ src + len := by
  intro fuel
  induction fuel with
  | zero =>
      intro u src data len processedLen protoLen c hc
      simp [copyLoop] at hc
  | succ fuel ih =>
      intro u src data len processedLen protoLen c hc
      rcases packet_or_end input u data len with ⟨u', n, hinput, hpos, hle⟩ | hend
      · have hfirst : ∀ c ∈ (if (body u' (data.take n)).copied then [Copy.mk src n] else []),
            FramedAt input body u data len c.len ∧ (c.src + c.len : ℕ) ≤ src + len := by
          intro c hc
          split at hc
          · obtain rfl := List.mem_singleton.mp hc
            exact ⟨.here hinput hpos hle, by push_cast; omega⟩
          · simp at hc
        rw [copyLoop_packet hinput hpos hle] at hc
        dsimp only at hc
        split at hc
        · next hgoOn =>
          rcases List.mem_append.mp hc with hc | hc
          · exact hfirst c hc
          · obtain ⟨hframed, hread⟩ := ih _ _ _ _ _ _ c hc
            exact ⟨.next hinput hpos hle hgoOn hframed, by push_cast at hread ⊢; omega⟩
        · exact hfirst c hc
      · rw [copyLoop_end hend] at hc
        simp at hc

/-- Where every packet is copied, each length is the length of a copy. -/
theorem FramedAt.exists_copy (hcopied : ∀ u packet, (body u packet).copied = true)
    (h : FramedAt input body u data len n) (totalLen : ℤ) :
    ∀ (fuel src : ℕ) (processedLen protoLen : ℤ), len ≤ fuel →
      ∃ c ∈ (copyLoop input body totalLen fuel u src data len processedLen protoLen).copies,
        c.len = n := by
  induction h with
  | @here u u' data len n hinput hpos hle =>
      intro fuel src processedLen protoLen hfuel
      obtain ⟨fuel, rfl⟩ : ∃ k, fuel = k + 1 := ⟨fuel - 1, by omega⟩
      refine ⟨⟨src, n⟩, ?_, rfl⟩
      rw [copyLoop_packet hinput hpos hle]
      dsimp only
      rw [if_pos (hcopied _ _)]
      split <;> simp
  | @next u u' data len n m hinput hpos hle hgoOn hrest ih =>
      intro fuel src processedLen protoLen hfuel
      obtain ⟨fuel, rfl⟩ : ∃ k, fuel = k + 1 := ⟨fuel - 1, by omega⟩
      obtain ⟨c, hc, hlen⟩ := ih fuel (src + n) (processedLen + n) n (by push_cast at hfuel; omega)
      refine ⟨c, ?_, hlen⟩
      rw [copyLoop_packet hinput hpos hle]
      dsimp only
      rw [if_pos hgoOn]
      exact List.mem_append_right _ hc

theorem copyLoop_not_copied (hcopied : ∀ u packet, (body u packet).copied = false)
    (totalLen : ℤ) :
    ∀ (fuel : ℕ) (u : σ) (src : ℕ) (data : List UInt8) (len processedLen protoLen : ℤ),
      (copyLoop input body totalLen fuel u src data len processedLen protoLen).copies = [] := by
  intro fuel
  induction fuel with
  | zero =>
      intro u src data len processedLen protoLen
      rfl
  | succ fuel ih =>
      intro u src data len processedLen protoLen
      rcases packet_or_end input u data len with ⟨u', n, hinput, hpos, hle⟩ | hend
      · rw [copyLoop_packet hinput hpos hle]
        simp only [hcopied, Bool.false_eq_true, if_false, List.nil_append]
        split
        · exact ih _ _ _ _ _ _
        · rfl
      · exact copyLoop_end hend _ _ _ _ _

/-- The copies of a call fit exactly when the packets do, if packets are copied at all. -/
theorem fitsStatic_copied_iff {isCopied : Bool}
    (hcopied : ∀ u packet, (body u packet).copied = isCopied) (u : σ) (data : List UInt8) :
    FitsStatic (copied input body u data).copies data.length ↔
      (isCopied = true → ∀ n, FramedAt input body u data (s32 data.length) n →
        n ≤ maxBlobDataLen) := by
  have hshort := s32_le data.length
  have hmem : ∀ c ∈ (copied input body u data).copies,
      FramedAt input body u data (s32 data.length) c.len ∧
        (c.src + c.len : ℕ) ≤ ((0 : ℕ) : ℤ) + s32 data.length :=
    copyLoop_mem (s32 data.length) data.length u 0 data (s32 data.length) 0 (-1)
  constructor
  · rintro h rfl n hframed
    obtain ⟨c, hc, rfl⟩ := hframed.exists_copy hcopied (s32 data.length) data.length 0 0 (-1) hshort
    exact h.write c hc
  · intro h
    cases isCopied with
    | false =>
        have hnone : (copied input body u data).copies = [] :=
          copyLoop_not_copied hcopied _ _ _ _ _ _ _ _
        rw [hnone]
        exact ⟨by simp, by simp⟩
    | true =>
        refine ⟨fun c hc => h rfl c.len (hmem c hc).1, fun c hc => ?_⟩
        have hread := (hmem c hc).2
        omega

end

/-! ## The two callbacks -/

section
variable {σ τ : Type}

theorem SppDll.copied_localBody (dll : SppDll σ) (flow : ℕ) (u : σ) (packet : List UInt8) :
    (dll.localBody flow u packet).copied = dll.localHandle.isSome := rfl

theorem WorkerDll.copied_processBody (dll : WorkerDll τ) (flow : ℕ) (u : τ)
    (packet : List UInt8) :
    (dll.processBody flow u packet).copied = dll.sppHandleProcess.isSome := by
  rw [processBody]
  cases dll.sppHandleProcess with
  | none => rfl
  | some process =>
      dsimp only
      split <;> rfl

/-- In both callbacks the copies fit exactly when the plugin returns no length above that of the
buffer for a packet that is whole, or packets are not handled locally. -/
theorem fitsStatic_iff (proxy : SppDll σ) (worker : WorkerDll τ) (u : σ) (v : τ) (flow : ℕ)
    (data : List UInt8) :
    (FitsStatic (proxy.copied u flow data).copies data.length ↔
      (proxy.localHandle.isSome → ∀ n, proxy.Framed u flow data n → n ≤ maxBlobDataLen)) ∧
    (FitsStatic (worker.copied v flow data).copies data.length ↔
      (worker.sppHandleProcess.isSome → ∀ n, worker.Framed v flow data n →
        n ≤ maxBlobDataLen)) :=
  ⟨fitsStatic_copied_iff (proxy.copied_localBody flow) u data,
    fitsStatic_copied_iff (worker.copied_processBody flow) v data⟩

/-- A cache that is not larger than the buffer is enough. -/
theorem fitsStatic_of_le (proxy : SppDll σ) (worker : WorkerDll τ) (u : σ) (v : τ) (flow : ℕ)
    (data : List UInt8) (h : data.length ≤ maxBlobDataLen) :
    FitsStatic (proxy.copied u flow data).copies data.length ∧
      FitsStatic (worker.copied v flow data).copies data.length := by
  have hshort := s32_le data.length
  obtain ⟨hproxy, hworker⟩ := fitsStatic_iff proxy worker u v flow data
  refine ⟨hproxy.mpr fun _ n hn => ?_, hworker.mpr fun _ n hn => ?_⟩
  · have hle := hn.pos_le.2
    omega
  · have hle := hn.pos_le.2
    omega

/-! ## The copies and the packets of the proxy -/

theorem SppDll.handled_iff (dll : SppDll σ) (u : σ) (flow : ℕ) (packet : List UInt8) :
    (dll.handlePacket u flow packet).fate = .handled ↔ dll.localHandle.isSome := by
  rw [SppDll.handlePacket]
  cases dll.localHandle with
  | some process =>
      dsimp only
      split <;> simp
  | none =>
      dsimp only
      repeat' split
      all_goals simp

/-- The copies are the packets that are handled locally, and all else is the same. -/
structure Agree (c : Copied σ) (r : Received σ) : Prop where
  u : c.u = r.u
  sends : c.sends = r.sends
  processedLen : c.processedLen = r.processedLen
  protoLen : c.protoLen = r.protoLen
  copies : c.copies.map Copy.len = (r.packets.filter (·.2 = .handled)).map fun p => p.1.length

/-- The copy of a packet that has met its fate. -/
theorem SppDll.agree_packet (dll : SppDll σ) (flow : ℕ) (u : σ) (src : ℕ) {packet : List UInt8}
    {n : ℕ} (hn : packet.length = n) (copies : List Copy) (packets : List (List UInt8 × Fate))
    (h : copies.map Copy.len = (packets.filter (·.2 = .handled)).map fun p => p.1.length) :
    ((if dll.localHandle.isSome then [Copy.mk src n] else []) ++ copies).map Copy.len =
      (((packet, (dll.handlePacket u flow packet).fate) :: packets).filter
        (·.2 = .handled)).map fun p => p.1.length := by
  have hfate := dll.handled_iff u flow packet
  by_cases hlocal : dll.localHandle.isSome
  · rw [if_pos hlocal, List.filter_cons_of_pos]
    · simp [h, hn]
    · simp [hfate.mpr hlocal]
  · rw [if_neg hlocal, List.filter_cons_of_neg]
    · simp [h]
    · simpa using fun heq => hlocal (hfate.mp heq)

/-- Where no packet is whole, neither loop goes on. -/
theorem SppDll.agree_end (dll : SppDll σ) (flow totalLen fuel : ℕ) {u : σ} {data : List UInt8}
    (hend : (data.length : ℤ) ≤ 0 ∨ (dll.sppHandleInput u flow data).2 ≤ 0 ∨
      (dll.sppHandleInput u flow data).2 > data.length) (src : ℕ) (processedLen protoLen : ℤ) :
    Agree (copyLoop (fun u data => dll.sppHandleInput u flow data) (dll.localBody flow) totalLen
        (fuel + 1) u src data data.length processedLen protoLen)
      (dll.recvdataLoop flow totalLen (fuel + 1) u data processedLen protoLen) := by
  rw [copyLoop, SppDll.recvdataLoop]
  by_cases hdata : data.length > 0
  · have hdata' : (data.length : ℤ) > 0 := by omega
    rw [if_pos hdata, if_pos hdata']
    cases hinput : dll.sppHandleInput u flow data with
    | mk u' n =>
        rw [hinput] at hend
        dsimp only at hend ⊢
        by_cases hfound : n > 0
        · have hlong : n > data.length := by omega
          rw [if_pos hfound, if_pos hfound, if_pos hlong, if_pos hlong]
          exact ⟨rfl, rfl, rfl, rfl, rfl⟩
        · rw [if_neg hfound, if_neg hfound]
          exact ⟨rfl, rfl, rfl, rfl, rfl⟩
  · have hdata' : ¬ (data.length : ℤ) > 0 := by omega
    rw [if_neg hdata, if_neg hdata']
    exact ⟨rfl, rfl, rfl, rfl, rfl⟩

/-- The loop with its copies is the loop of the callback. -/
theorem SppDll.agree_loop (dll : SppDll σ) (flow totalLen : ℕ) :
    ∀ (fuel : ℕ) (u : σ) (src : ℕ) (data : List UInt8) (processedLen protoLen : ℤ),
      Agree (copyLoop (fun u data => dll.sppHandleInput u flow data) (dll.localBody flow) totalLen
          fuel u src data data.length processedLen protoLen)
        (dll.recvdataLoop flow totalLen fuel u data processedLen protoLen) := by
  intro fuel
  induction fuel with
  | zero =>
      intro u src data processedLen protoLen
      exact ⟨rfl, rfl, rfl, rfl, rfl⟩
  | succ fuel ih =>
      intro u src data processedLen protoLen
      rcases packet_or_end (fun u data => dll.sppHandleInput u flow data) u data data.length with
        ⟨u', n, hinput, hpos, hle⟩ | hend
      · have hle' : n ≤ data.length := by omega
        have hrest : ((data.drop n).length : ℤ) = data.length - n := by
          rw [List.length_drop]
          omega
        have htake : (data.take n).length = n := by simp [hle']
        have hnext := ih (dll.handlePacket u' flow (data.take n)).u (src + n) (data.drop n)
          (processedLen + n) n
        rw [hrest] at hnext
        rw [copyLoop_packet hinput hpos hle, recvdataLoop_packet hinput hpos hle']
        dsimp only [SppDll.localBody]
        by_cases hgoOn : (dll.handlePacket u' flow (data.take n)).goOn = true
        · rw [if_pos hgoOn, if_pos hgoOn]
          exact ⟨hnext.u, congrArg _ hnext.sends, hnext.processedLen, hnext.protoLen,
            dll.agree_packet flow u' src htake _ _ hnext.copies⟩
        · rw [if_neg hgoOn, if_neg hgoOn]
          have hcopies := dll.agree_packet flow u' src htake [] [] rfl
          rw [List.append_nil] at hcopies
          exact ⟨rfl, rfl, rfl, rfl, hcopies⟩
      · exact dll.agree_end flow totalLen fuel hend src processedLen protoLen

/-- On a cache below 2 GB, `ator_recvdata` with its copies is `ator_recvdata`. -/
theorem SppDll.agree_copied (dll : SppDll σ) (u : σ) (flow : ℕ) (data : List UInt8)
    (h : data.length < 2 ^ 31) : Agree (dll.copied u flow data) (dll.received u flow data) := by
  have hint : s32 (data.length : ℤ) = data.length := s32_of_lt h
  rw [SppDll.copied, Spp.copied, hint]
  exact dll.agree_loop flow data.length data.length u 0 data 0 (-1)

end

/-! ## How large a cache becomes -/

namespace RawCache

/-- The cache after several chunks. -/
def appendAll (c : RawCache) (chunks : List Payload) : Option RawCache :=
  chunks.foldlM (fun c data => c.append data .exact) c

/-- With a pool that gives what it is asked for, an `append` below 2 GB in all succeeds. -/
theorem append_exact (c : RawCache) (data : Payload) (h : c.dataLen + data.1.length < 2 ^ 31) :
    ∃ c', c.append data .exact = some c' := by
  rw [append]
  split
  · rw [Alloc.exact, dif_pos data.2]
    exact ⟨_, rfl⟩
  · split
    · exact ⟨_, rfl⟩
    · split
      · rw [Alloc.exact, dif_pos (by omega)]
        exact ⟨_, rfl⟩
      · exact ⟨_, rfl⟩

/-- Chunks of less than 2 GB in all are in the cache, one behind the other. -/
theorem appendAll_content (chunks : List Payload) :
    ∀ c : RawCache, (c.content ++ (chunks.map Subtype.val).flatten).length < 2 ^ 31 →
      ∃ c', c.appendAll chunks = some c' ∧
        c'.content = c.content ++ (chunks.map Subtype.val).flatten := by
  induction chunks with
  | nil =>
      intro c _
      exact ⟨c, rfl, by simp⟩
  | cons data chunks ih =>
      intro c h
      rw [List.map_cons, List.flatten_cons, ← List.append_assoc] at h ⊢
      have hfirst : c.dataLen + data.1.length < 2 ^ 31 := by
        rw [List.length_append, List.length_append, length_content] at h
        omega
      obtain ⟨c₁, hc₁⟩ := c.append_exact data hfirst
      rw [← content_append hc₁] at h ⊢
      obtain ⟨c', hc', hcontent⟩ := ih c₁ h
      refine ⟨c', ?_, hcontent⟩
      rw [appendAll, List.foldlM_cons, hc₁]
      exact hc'

end RawCache

/-- What a full read buffer brings. -/
def fullRead : Payload := ⟨List.replicate 65536 0, by rw [List.length_replicate]; omega⟩

/-- 257 chunks of 64 KB. -/
def chunks : List Payload := List.replicate 257 fullRead

/-- A plugin of the proxy for which the bytes of a cache are one packet. -/
def wholeProxy : SppDll Unit where
  sppHandleInput u _ data := (u, data.length)
  sppHandleRoute := none
  sppHandleQueueFull u _ _ _ := (u, ⟨0, []⟩)
  localHandle := some fun u _ _ => (u, ⟨0, []⟩)
  ctorSize := 1
  ctorSendto u _ _ _ := (u, 0)

/-- The same for a worker. -/
def wholeWorker : WorkerDll Unit where
  sppHandleInput u _ data := (u, data.length)
  sppHandleProcess := some fun u _ _ => (u, ⟨0, []⟩)

theorem length_fullRead : fullRead.1.length = 65536 := List.length_replicate

theorem length_chunks : (chunks.map Subtype.val).flatten.length = 16842752 := by
  rw [chunks, List.map_replicate, List.length_flatten, List.map_replicate, length_fullRead,
    List.sum_replicate_nat]

/-- They are more than 16 MB, and both callbacks copy them to the buffer. -/
theorem not_fitsStatic_chunks :
    ∃ c, RawCache.new.appendAll chunks = some c ∧
      ¬ FitsStatic (wholeProxy.copied () 1 c.content).copies c.content.length ∧
      ¬ FitsStatic (wholeWorker.copied () 1 c.content).copies c.content.length := by
  have hlen := length_chunks
  obtain ⟨c, hc, hcontent⟩ := RawCache.appendAll_content chunks .new (by
    rw [RawCache.content_new, List.nil_append, hlen]
    decide)
  rw [RawCache.content_new, List.nil_append] at hcontent
  rw [← hcontent] at hlen
  have hint : s32 (c.content.length : ℤ) = c.content.length := s32_of_lt (by omega)
  have hle : (c.content.length : ℤ) ≤ s32 c.content.length := by omega
  refine ⟨c, hc, fun h => ?_, fun h => ?_⟩
  · have hframed : wholeProxy.Framed () 1 c.content c.content.length :=
      .here rfl (by omega) hle
    have hfits :=
      (fitsStatic_copied_iff (wholeProxy.copied_localBody 1) () c.content).mp h rfl _ hframed
    rw [hlen] at hfits
    exact absurd hfits (by decide)
  · have hframed : wholeWorker.Framed () 1 c.content c.content.length :=
      .here rfl (by omega) hle
    have hfits :=
      (fitsStatic_copied_iff (wholeWorker.copied_processBody 1) () c.content).mp h rfl _ hframed
    rw [hlen] at hfits
    exact absurd hfits (by decide)

end Spp
