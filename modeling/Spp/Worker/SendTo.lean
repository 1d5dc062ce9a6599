import Spp.Worker.Owned

/-!
# What a successful send to a backend means

`spp_sendto` sends at most twice.  A send that succeeds has handed the message to a connection
that was opened to the right backend, if the manager knows its connections; one that fails
leaves the message on no connection.  What `spp_sendto` returns says which of the two happened,
but for one exit: where there is no connection and none can be opened it returns the 0 of an
earlier step.

## Main definitions

* `Try.Handed`, `Try.Dropped` — the message is on the connection, or on none.
* `Outcome.Truthful` — the code of `spp_sendto` says where the message is.
* `Backend.Sound` — an event that reaches none of the faults.
* `Backend.Reports` — the event is no `spp_sendto`, or its outcome is truthful.
-/

namespace Spp

open ConnSet SockCommu

/-! ## One send -/

/-- The kernel takes nothing, and not because the socket is busy. -/
def KSend.Refuses (k : KSend) : Prop :=
  ∃ e, k = .fail e ∧ errorCode e ≠ -eagain ∧ errorCode e ≠ -einprogress ∧ errorCode e ≠ -eintr

theorem errorCode_neg (e : ℕ) : errorCode e < 0 := by
  unfold errorCode
  split <;> omega

/-- The kernel takes all of `len` bytes, or refuses them. -/
def KSend.Atomic (k : KSend) (len : ℕ) : Prop := k.Refuses ∨ ∃ n, k = .sent n ∧ len ≤ n

theorem KSend.Refuses.answer {k : KSend} (hk : k.Refuses) (buf : List UInt8) :
    (k.answer buf).1 < 0 ∧ (k.answer buf).1 ≠ -eagain ∧ (k.answer buf).1 ≠ -einprogress ∧
      (k.answer buf).1 ≠ -eintr := by
  obtain ⟨e, rfl, hne⟩ := hk
  exact ⟨errorCode_neg e, hne⟩

theorem KSend.answer_of_le {n : ℕ} {buf : List UInt8} (h : buf.length ≤ n) :
    (KSend.sent n).answer buf = (0, buf.length) := by
  simp [KSend.answer, h]

theorem ConnCache.sendData_of_refuses (cc : ConnCache) (data : Payload) {k : KSend}
    (hk : k.Refuses) (alloc : Alloc) (wire : List UInt8) :
    (cc.sendData data k alloc wire).ret = some (-eNeedClose) := by
  have hanswer := hk.answer data.1
  simp [ConnCache.sendData, hanswer]

/-- A send that is refused asks for a close. -/
theorem ConnCache.send_of_refuses (cc : ConnCache) (data : Payload) {k k' : KSend} (hk : k.Refuses)
    (hk' : k'.Refuses) (alloc : Alloc) (now : ℤ) :
    (cc.send data k k' alloc now).ret = some (-eNeedClose) := by
  have hanswer := hk.answer cc.w.content
  have hne : (k.answer cc.w.content).1 ≠ 0 := hanswer.1.ne
  by_cases hempty : cc.w.dataLen = 0
  · simp [ConnCache.send, hempty, sendData_of_refuses _ _ hk']
  · simp [ConnCache.send, hempty, hanswer, hne]

/-- A send through a socket that takes all or nothing. -/
theorem ConnCache.send_of_atomic (cc : ConnCache) (data : Payload) {k k' : KSend}
    (hk : k.Atomic (2 ^ 31)) (hk' : k'.Atomic data.1.length) (alloc : Alloc) (now : ℤ) :
    (cc.send data k k' alloc now).ret = some (-eNeedClose) ∨
      (cc.send data k k' alloc now).ret = some (data.1.length : ℤ) := by
  have hdata : ∀ (cc : ConnCache) (wire : List UInt8),
      (cc.sendData data k' alloc wire).ret = some (-eNeedClose) ∨
        (cc.sendData data k' alloc wire).ret = some (data.1.length : ℤ) := by
    intro cc wire
    cases hk' with
    | inl hk' => exact .inl (cc.sendData_of_refuses data hk' alloc wire)
    | inr hk' =>
        obtain ⟨n, rfl, hn⟩ := hk'
        right
        simp [ConnCache.sendData, KSend.answer_of_le hn]
  by_cases hempty : cc.w.dataLen = 0
  · simp only [ConnCache.send, hempty, ne_eq, not_true_eq_false, if_false]
    exact hdata _ _
  cases hk with
  | inl hk =>
      left
      have hanswer := hk.answer cc.w.content
      have hne : (k.answer cc.w.content).1 ≠ 0 := hanswer.1.ne
      simp [ConnCache.send, hempty, hanswer, hne]
  | inr hk =>
      obtain ⟨n, rfl, hn⟩ := hk
      have hlen : cc.w.content.length ≤ n := by
        have hroom := cc.w.room
        have hbound := cc.w.bound
        rw [RawCache.length_content]
        omega
      have hrest := hdata { cc with access := now } (cc.w.content.take cc.w.dataLen)
      simpa [ConnCache.send, hempty, KSend.answer_of_le hlen, RawCache.length_content, eagain,
        einprogress, eintr] using hrest

variable {α υ : Type} {user : Handler (Payload × υ)} {config : Option (RouteConfig α)}
  {w : Backend α υ} {node : NodeInfo α} {flow : ℕ}

/-- The message is sent on a live connection to `addr`, or what is left of it is queued there
behind what was queued. -/
structure Try.Handed (t : Try α υ) (data : Payload) (addr : α) : Prop where
  ret : 0 ≤ t.ret
  live : t.before.sock.connset.Live t.flow
  opened : t.before.sock.kernel.opened (t.before.sock.connset.getcc t.flow).fd = true
  peer : t.before.peer (t.before.sock.connset.getcc t.flow).fd = some addr
  bytes : ∃ queued, t.wire ++ queued =
      (t.before.sock.connset.getcc t.flow).w.content ++ data.1 ∧
    (queued = [] ∨ t.after.sock.connset.Live t.flow ∧
      (t.after.sock.connset.getcc t.flow).fd = (t.before.sock.connset.getcc t.flow).fd ∧
      (t.after.sock.connset.getcc t.flow).w.content = queued)

/-- The message is on no connection: that of the send is gone, the others are as they were. -/
structure Try.Dropped (t : Try α υ) : Prop where
  ret : t.ret < 0
  gone : ¬ t.after.sock.connset.Live t.flow
  rest : ∀ f, t.after.sock.connset.Live f → t.before.sock.connset.Live f ∧
    t.after.sock.connset.getcc f = t.before.sock.connset.getcc f

/-- The kernel takes nothing through a descriptor that is closed or not connected. -/
theorem Backend.answer_cases (w : Backend α υ) (flow : ℕ) :
    (∀ k, (w.answer flow k).Refuses) ∨
      w.sock.kernel.opened (w.sock.connset.getcc flow).fd = true ∧
      (∃ a, w.peer (w.sock.connset.getcc flow).fd = some a) ∧ ∀ k, w.answer flow k = k := by
  by_cases hopened : w.sock.kernel.opened (w.sock.connset.getcc flow).fd = false
  · left
    intro k
    exact ⟨9, by simp [answer, hopened], by decide, by decide, by decide⟩
  rw [Bool.not_eq_false] at hopened
  cases hpeer : w.peer (w.sock.connset.getcc flow).fd with
  | none =>
      left
      intro k
      exact ⟨107, by simp [answer, hopened, hpeer], by decide, by decide, by decide⟩
  | some a =>
      right
      refine ⟨hopened, ⟨a, rfl⟩, ?_⟩
      intro k
      simp [answer, hopened, hpeer]

theorem closeconn_connset (s : SockCommu) (f : ℕ) :
    (s.closeconn f).connset = (s.connset.closeconn f).1 := by
  unfold SockCommu.closeconn
  dsimp only
  split <;> rfl

/-- After a close the connection is gone, and the others are as they were. -/
theorem closeconn_spec {c : ConnSet} (hlive : c.Live flow) (f : ℕ) :
    ¬ (c.closeconn flow).1.Live flow ∧ ((c.closeconn flow).1.Live f →
      f % c.maxconn ≠ flow % c.maxconn ∧ (c.closeconn flow).1.getcc f = c.getcc f) := by
  have hclosed : ∀ f, f % c.maxconn = flow % c.maxconn →
      ((c.closeconn flow).1.getcc f).flow = 0 := by
    intro f hslot
    rw [closeconn_of_live hlive]
    exact congrArg ConnCache.flow (getcc_setcc_of_eq hslot)
  constructor
  · intro h
    exact h.2 (h.1.symm.trans (hclosed flow rfl))
  · intro h
    by_cases hslot : f % c.maxconn = flow % c.maxconn
    · exact absurd (h.1.symm.trans (hclosed f hslot)) h.2
    · refine ⟨hslot, ?_⟩
      rw [closeconn_of_live hlive]
      exact getcc_setcc_of_ne hslot

theorem noteStall_connset (s : SockCommu) (f : ℕ) : (s.noteStall f).connset = s.connset := by
  unfold SockCommu.noteStall
  dsimp only
  split <;> rfl

/-- `sendto` by a flow that is not live. -/
theorem sendto_of_not_live {s : SockCommu} (hlive : ¬ s.connset.Live flow) {data : Payload}
    (hdata : 0 < data.1.length) (k k' : KSend) (alloc : Alloc) (now : ℤ) :
    (s.sendto ⟨flow, data, k, k', alloc, now, []⟩).2 = -eNotFindfd ∧
      (s.sendto ⟨flow, data, k, k', alloc, now, []⟩).1.connset = s.connset := by
  have hexec : s.connset.exec (.send flow data k k' alloc now) =
      (s.connset, ⟨some (-eNotFindfd), flow, []⟩) := exec_of_not_live trivial hlive
  have hlen : data.1 ≠ [] := List.ne_nil_of_length_pos hdata
  simp [SockCommu.sendto, SockCommu.call, hexec, eNotFindfd, eNeedClose, hlen]

/-- `sendto` by a live flow, for a send that ends in an exception or asks for a close. -/
theorem sendto_of_close {s : SockCommu} (hlive : s.connset.Live flow) {data : Payload}
    (hdata : 0 < data.1.length) {k k' : KSend} {alloc : Alloc} {now : ℤ}
    (hret : ((s.connset.getcc flow).send data k k' alloc now).ret.getD (-eNeedClose) =
      -eNeedClose) :
    (s.sendto ⟨flow, data, k, k', alloc, now, []⟩).2 = -eNeedClose ∧
      (s.sendto ⟨flow, data, k, k', alloc, now, []⟩).1.connset =
        ((s.connset.setcc flow ((s.connset.getcc flow).send data k k' alloc now).cc).closeconn
          flow).1 := by
  have hexec : s.connset.exec (.send flow data k k' alloc now) = _ :=
    on_of_live hlive fun cc => cc.send data k k' alloc now
  have hlen : data.1 ≠ [] := List.ne_nil_of_length_pos hdata
  rw [SockCommu.sendto, SockCommu.call, hexec]
  simp only [hret]
  simp [hlen, eNeedClose, closeconn_connset]

/-- `sendto` by a live flow that is not of type UDP, for a send that succeeds. -/
theorem sendto_of_sent {s : SockCommu} (hlive : s.connset.Live flow) {data : Payload}
    (hdata : 0 < data.1.length) {k k' : KSend} {alloc : Alloc} {now : ℤ} {n : ℕ}
    (hret : ((s.connset.getcc flow).send data k k' alloc now).ret = some (n : ℤ))
    (htype : ((s.connset.getcc flow).send data k k' alloc now).cc.type ≠ udpSocket) :
    (s.sendto ⟨flow, data, k, k', alloc, now, []⟩).2 = n ∧
      (s.sendto ⟨flow, data, k, k', alloc, now, []⟩).1.connset =
        s.connset.setcc flow ((s.connset.getcc flow).send data k k' alloc now).cc := by
  have hexec : s.connset.exec (.send flow data k k' alloc now) = _ :=
    on_of_live hlive fun cc => cc.send data k k' alloc now
  have hlen : data.1 ≠ [] := List.ne_nil_of_length_pos hdata
  rw [SockCommu.sendto, SockCommu.call, hexec]
  simp only [hret, Option.getD_some]
  by_cases hpart : n < data.1.length
  · simp [hlen, hpart, htype, SockCommu.modify]
  · simp [hlen, hpart, htype, SockCommu.modify, SockCommu.sendtoAll, noteStall_connset]

/-- `sendto` by a live flow, for a send that takes everything. -/
theorem sendto_of_sent_all {s : SockCommu} (hlive : s.connset.Live flow) {data : Payload}
    (hdata : 0 < data.1.length) {k k' : KSend} {alloc : Alloc} {now : ℤ}
    (hret : ((s.connset.getcc flow).send data k k' alloc now).ret = some (data.1.length : ℤ)) :
    (s.sendto ⟨flow, data, k, k', alloc, now, []⟩).2 = data.1.length := by
  have hexec : s.connset.exec (.send flow data k k' alloc now) = _ :=
    on_of_live hlive fun cc => cc.send data k k' alloc now
  have hlen : data.1 ≠ [] := List.ne_nil_of_length_pos hdata
  rw [SockCommu.sendto, SockCommu.call, hexec]
  simp only [hret, Option.getD_some]
  simp only [List.length_eq_zero_iff, hlen, false_and, if_false, lt_irrefl, Int.natCast_nonneg,
    ge_iff_le, if_true]
  split <;> rfl

theorem Backend.trySend_sock (w : Backend α υ) (flow : ℕ) (ans : SendAnswer) :
    (w.trySend flow ans).after.sock = (w.sock.sendto ⟨flow, w.ctor.blob, w.answer flow ans.k,
      w.answer flow ans.k', ans.alloc, ans.now, []⟩).1 := rfl

theorem Backend.trySend_wire (w : Backend α υ) (flow : ℕ) (ans : SendAnswer) :
    (w.trySend flow ans).wire = (w.sock.call (.send flow w.ctor.blob (w.answer flow ans.k)
      (w.answer flow ans.k') ans.alloc ans.now)).2.wire := rfl

/-- A send fails and leaves the message on no connection, or hands it over, where a socket of
type UDP takes all or nothing. -/
theorem Backend.trySend_cases (w : Backend α υ) (flow : ℕ) (ans : SendAnswer)
    (hdata : 0 < w.ctor.blob.1.length)
    (hudp : w.sock.connset.Live flow → (w.sock.connset.getcc flow).type = udpSocket →
      ans.k.Atomic (2 ^ 31) ∧ ans.k'.Atomic w.ctor.blob.1.length) :
    ((w.trySend flow ans).Dropped ∧
      ((w.trySend flow ans).ret = -eNotFindfd ∨ (w.trySend flow ans).ret = -eNeedClose)) ∨
    0 ≤ (w.trySend flow ans).ret ∧ ∃ a, (w.trySend flow ans).Handed w.ctor.blob a := by
  by_cases hlive : w.sock.connset.Live flow
  · obtain ⟨res, hres⟩ : ∃ res, res = (w.sock.connset.getcc flow).send w.ctor.blob
        (w.answer flow ans.k) (w.answer flow ans.k') ans.alloc ans.now := ⟨_, rfl⟩
    have hspec : ConnCache.SendSpec _ _ _ res :=
      hres ▸ ConnCache.send_spec _ w.ctor.blob _ _ ans.alloc ans.now
    have hsame : (w.sock.connset.getcc flow).Same res.cc := .of_eq hspec.same
    by_cases hclose : res.ret.getD (-eNeedClose) = -eNeedClose
    · -- the connection is closed
      left
      obtain ⟨hret, htable⟩ := sendto_of_close hlive hdata (hres ▸ hclose)
      rw [← hres] at htable
      have hlive' : (w.sock.connset.setcc flow res.cc).Live flow := by
        rw [Live, getcc_setcc, hsame.flow]
        exact hlive
      have hafter : (w.trySend flow ans).after.sock.connset =
          ((w.sock.connset.setcc flow res.cc).closeconn flow).1 := htable
      refine ⟨⟨?_, ?_, ?_⟩, .inr hret⟩
      · rw [show (w.trySend flow ans).ret = -eNeedClose from hret]
        decide
      · rw [hafter]
        exact (closeconn_spec hlive' flow).1
      · intro f hf
        rw [hafter] at hf ⊢
        obtain ⟨hslot, heq⟩ := (closeconn_spec hlive' f).2 hf
        have hother : (w.sock.connset.setcc flow res.cc).getcc f = w.sock.connset.getcc f :=
          getcc_setcc_of_ne hslot
        rw [hother] at heq
        refine ⟨?_, heq⟩
        rw [Live, heq] at hf
        exact hf
    · -- the bytes are sent or queued
      right
      have hrefused : (w.answer flow ans.k).Refuses → ¬ (w.answer flow ans.k').Refuses := by
        intro hk hk'
        refine hclose ?_
        rw [hres, ConnCache.send_of_refuses _ _ hk hk']
        rfl
      cases w.answer_cases flow with
      | inl hall => exact absurd (hall _) (hrefused (hall _))
      | inr hopen =>
        obtain ⟨hopened, ⟨a, hpeer⟩, hanswer⟩ := hopen
        have hwire : (w.trySend flow ans).wire = res.wire := by
          have hexec : w.sock.connset.exec (.send flow w.ctor.blob (w.answer flow ans.k)
              (w.answer flow ans.k') ans.alloc ans.now) = _ :=
            on_of_live hlive fun cc => cc.send w.ctor.blob _ _ ans.alloc ans.now
          rw [trySend_wire, SockCommu.call, hexec, hres]
        rcases hspec.ret with hnone | hneed | ⟨n, hn, hsent, hbytes, hleft⟩
        · exact absurd (by rw [hnone]; rfl) hclose
        · exact absurd (by rw [hneed]; rfl) hclose
        by_cases htype : (w.sock.connset.getcc flow).type = udpSocket
        · -- a datagram is sent as a whole
          obtain ⟨hk, hk'⟩ := hudp hlive htype
          have hall : res.ret = some (w.ctor.blob.1.length : ℤ) := by
            rw [hanswer, hanswer] at hres
            have hatomic := ConnCache.send_of_atomic (w.sock.connset.getcc flow) w.ctor.blob
              hk hk' ans.alloc ans.now
            rw [← hres] at hatomic
            cases hatomic with
            | inl hneed => exact absurd (by rw [hneed]; rfl) hclose
            | inr hall => exact hall
          have hret : (w.trySend flow ans).ret = w.ctor.blob.1.length :=
            sendto_of_sent_all hlive hdata (hres ▸ hall)
          have hnil : res.cc.w.content = [] := by
            by_contra hne
            have hlt := (hleft hdata).mpr hne
            have hnat : (n : ℤ) = w.ctor.blob.1.length := Option.some.inj (hsent.symm.trans hall)
            omega
          refine ⟨by omega, a, by omega, hlive, hopened, hpeer, [], ?_, .inl rfl⟩
          rw [hwire, ← hnil]
          exact hbytes
        · obtain ⟨hret, htable⟩ := sendto_of_sent hlive hdata (hres ▸ hsent)
            (by rw [← hres, hsame.type]; exact htype)
          rw [← hres] at htable
          have hafter : (w.trySend flow ans).after.sock.connset.getcc flow = res.cc := by
            rw [trySend_sock, htable, getcc_setcc]
          have hcode : (w.trySend flow ans).ret = n := hret
          refine ⟨by omega, a, by omega, hlive, hopened, hpeer, res.cc.w.content, ?_, .inr
            ⟨?_, ?_, ?_⟩⟩
          · rw [hwire]
            exact hbytes
          · change (w.trySend flow ans).after.sock.connset.Live flow
            rw [Live, hafter, hsame.flow]
            exact hlive
          · exact (congrArg ConnCache.fd hafter).trans hsame.fd
          · exact congrArg (fun cc => cc.w.content) hafter
  · left
    obtain ⟨hret, htable⟩ := sendto_of_not_live hlive hdata (w.answer flow ans.k)
      (w.answer flow ans.k') ans.alloc ans.now
    have hafter : (w.trySend flow ans).after.sock.connset = w.sock.connset := htable
    refine ⟨⟨?_, ?_, ?_⟩, .inl hret⟩
    · rw [show (w.trySend flow ans).ret = -eNotFindfd from hret]
      decide
    · rw [hafter]
      exact hlive
    · intro f hf
      rw [hafter] at hf ⊢
      exact ⟨hf, rfl⟩

/-! ## The whole call -/

/-- A code that is not negative says that the last send has handed the message to the node, and
a negative one that no send has. -/
def Outcome.Truthful (o : Outcome α υ) (node : Option (NodeInfo α)) (data : Payload) : Prop :=
  (0 ≤ o.ret → ∃ n pre t, node = some n ∧ o.tries = pre ++ [t] ∧ (∀ t' ∈ pre, t'.Dropped) ∧
    t.Handed data n.addr ∧ o.after = t.after) ∧
  (o.ret < 0 → ∀ t ∈ o.tries, t.Dropped)

/-- The kernel takes what is queued and a message of `len` bytes, or refuses the one or the
other. -/
def SendAnswer.Atomic (ans : SendAnswer) (len : ℕ) : Prop :=
  ans.k.Atomic (2 ^ 31) ∧ ans.k'.Atomic len

theorem Backend.trySend_fades (w : Backend α υ) (flow : ℕ) (ans : SendAnswer) :
    Fades w.sock (w.trySend flow ans).after.sock := by
  rw [trySend_sock]
  exact (fades_stable w.sock).sendto _ (.of_eq rfl rfl) _

theorem Backend.Owned.trySend (h : w.Owned config) (flow : ℕ) (ans : SendAnswer) :
    (w.trySend flow ans).after.Owned config :=
  h.fades (w.trySend_fades flow ans) rfl fun _ _ _ hat => hat

theorem Backend.Owned.withBlob (h : w.Owned config) (blob : Payload) :
    (w.withBlob blob).Owned config :=
  h.fades (.of_eq rfl rfl) rfl fun _ _ _ hat => hat

/-- A send by the flow that is registered for a node. -/
theorem Backend.Owned.send_cases (h : w.Owned config) {servType nodeId : ℕ}
    (hnode : nodeOf config servType nodeId = some node)
    (hflow : w.ctor.commuMng.at? servType nodeId = some flow) (ans : SendAnswer)
    (hdata : 0 < w.ctor.blob.1.length)
    (hudp : node.type = .udp → ans.Atomic w.ctor.blob.1.length) :
    ((w.trySend flow ans).Dropped ∧
      ((w.trySend flow ans).ret = -eNotFindfd ∨ (w.trySend flow ans).ret = -eNeedClose)) ∨
    0 ≤ (w.trySend flow ans).ret ∧ (w.trySend flow ans).Handed w.ctor.blob node.addr := by
  have hown : w.sock.connset.Live flow →
      (w.sock.connset.getcc flow).type = node.type.code ∧
      ∀ a, w.peer (w.sock.connset.getcc flow).fd = some a → a = node.addr := by
    intro hlive
    obtain ⟨node', hnode', hnode''⟩ := h _ _ _ hflow hlive
    rw [hnode, Option.some.injEq] at hnode'
    rw [hnode']
    exact hnode''
  have hatomic : w.sock.connset.Live flow → (w.sock.connset.getcc flow).type = udpSocket →
      ans.Atomic w.ctor.blob.1.length := by
    intro hlive hcode
    apply hudp
    rw [(hown hlive).1] at hcode
    cases htype : node.type with
    | udp => rfl
    | tcp => simp [htype, SockType.code, udpSocket] at hcode
    | unix => simp [htype, SockType.code, udpSocket] at hcode
  cases w.trySend_cases flow ans hdata hatomic with
  | inl hdropped => exact .inl hdropped
  | inr hhanded =>
      obtain ⟨hret, a, hhanded⟩ := hhanded
      have haddr := (hown hhanded.live).2 a hhanded.peer
      rw [haddr] at hhanded
      exact .inr ⟨hret, hhanded⟩

theorem Outcome.Truthful.of_neg {o : Outcome α υ} {n : Option (NodeInfo α)} {data : Payload}
    (hret : o.ret < 0) (hdropped : ∀ t ∈ o.tries, t.Dropped) : o.Truthful n data := by
  constructor
  · intro hnonneg
    omega
  · intro _
    exact hdropped

/-! ### The reconnect -/

variable {ret : ℤ} {toFlow : ℕ} {tries : List (Try α υ)}

/-- What holds in every state of a run. -/
structure Backend.Inv (config : Option (RouteConfig α)) (w : Backend α υ) : Prop where
  owned : w.Owned config
  deaf : w.sock.Deaf

theorem Backend.Inv.trySend (h : w.Inv config) (flow : ℕ) (ans : SendAnswer) :
    (w.trySend flow ans).after.Inv config := by
  constructor
  · exact h.owned.trySend flow ans
  · rw [trySend_sock]
    exact deaf_stable.sendto _ h.deaf _

theorem Backend.Inv.withBlob (h : w.Inv config) (blob : Payload) : (w.withBlob blob).Inv config :=
  ⟨h.owned.withBlob blob, h.deaf⟩

theorem Backend.Inv.connect (h : w.Inv config) {ans : ConnectAnswer} (linked : Bool)
    (hnode : nodeOf config node.servType node.nodeId = some node) (hfresh : w.Fresh node ans) :
    (w.connect user node ans linked).2.Inv config :=
  ⟨h.owned.connect linked hnode hfresh, h.deaf.connect _ _ _⟩

/-- The reconnect ends without a send, or sends through the flow that is then registered. -/
theorem Backend.reconnect_cases (w : Backend α υ) (node : NodeInfo α) (ans : SppAnswer) :
    (∃ toFlow', w.reconnect user node node.servType node.nodeId ans ret toFlow tries =
      ⟨if (w.connect user node ans.connect ans.linked).1 = 0 then -5 else ret, toFlow', tries,
        (w.connect user node ans.connect ans.linked).2⟩) ∨
    ∃ flow t, (w.connect user node ans.connect ans.linked).2.ctor.commuMng.at? node.servType
        node.nodeId = some flow ∧
      t = ((w.connect user node ans.connect ans.linked).2.withBlob w.ctor.blob).trySend flow
        ans.second ∧
      w.reconnect user node node.servType node.nodeId ans ret toFlow tries =
        ⟨t.ret, flow, tries ++ [t], t.after⟩ := by
  obtain ⟨c, hc⟩ : ∃ c, c = w.connect user node ans.connect ans.linked := ⟨_, rfl⟩
  rw [← hc]
  simp only [Backend.reconnect, ← hc]
  by_cases hzero : c.1 = 0
  · cases hat : c.2.ctor.commuMng.at? node.servType node.nodeId with
    | none =>
        left
        simp [hzero, CommuMng.getFlow_eq, hat]
    | some flow =>
        by_cases hpos : flow > 0
        · right
          refine ⟨flow, _, rfl, rfl, ?_⟩
          simp [hzero, CommuMng.getFlow_eq, hat, hpos, Backend.withBlob]
        · left
          simp [hzero, CommuMng.getFlow_eq, hat, hpos]
  · left
    simp [hzero]

theorem Backend.Inv.reconnect (h : w.Inv config) {ans : SppAnswer}
    (hnode : nodeOf config node.servType node.nodeId = some node)
    (hfresh : w.Fresh node ans.connect) :
    (w.reconnect user node node.servType node.nodeId ans ret toFlow tries).after.Inv config := by
  have hconnect : (w.connect user node ans.connect ans.linked).2.Inv config :=
    h.connect ans.linked hnode hfresh
  cases w.reconnect_cases node ans with
  | inl hend =>
      obtain ⟨toFlow', heq⟩ := hend
      rw [heq]
      exact hconnect
  | inr hsend =>
      obtain ⟨flow, t, -, rfl, heq⟩ := hsend
      rw [heq]
      exact (hconnect.withBlob _).trySend flow ans.second

/-- The reconnect, after sends that have left the message on no connection: only where `connect`
fails is the code not its own. -/
theorem Backend.Inv.reconnect_truthful (h : w.Inv config) {ans : SppAnswer}
    (hnode : nodeOf config node.servType node.nodeId = some node)
    (hfresh : w.Fresh node ans.connect) (hdata : 0 < w.ctor.blob.1.length)
    (hudp : node.type = .udp → ans.second.Atomic w.ctor.blob.1.length)
    (hret : ret < 0 ∨ (w.connect user node ans.connect ans.linked).1 = 0)
    (hdropped : ∀ t ∈ tries, t.Dropped) :
    (w.reconnect user node node.servType node.nodeId ans ret toFlow tries).Truthful (some node)
      w.ctor.blob := by
  have hconnect : (w.connect user node ans.connect ans.linked).2.Inv config :=
    h.connect ans.linked hnode hfresh
  cases w.reconnect_cases node ans with
  | inl hend =>
      obtain ⟨toFlow', heq⟩ := hend
      rw [heq]
      apply Outcome.Truthful.of_neg
      · dsimp only
        split
        next => exact Int.negSucc_lt_zero 4
        next hne => exact hret.resolve_right hne
      · exact hdropped
  | inr hsend =>
      obtain ⟨flow, t, hat, rfl, heq⟩ := hsend
      rw [heq]
      cases (hconnect.withBlob w.ctor.blob).owned.send_cases hnode hat ans.second hdata hudp with
      | inl hfail =>
          apply Outcome.Truthful.of_neg
          · exact hfail.1.ret
          · intro t ht
            cases List.mem_append.mp ht with
            | inl hold => exact hdropped t hold
            | inr hlast =>
                rw [List.mem_singleton.mp hlast]
                exact hfail.1
      | inr hsent =>
          constructor
          · intro _
            exact ⟨node, tries, _, rfl, rfl, hdropped, hsent.2, rfl⟩
          · intro hneg
            exact absurd hneg (Int.not_lt.mpr hsent.1)

/-! ### From the route on -/

/-- The node that is found by its key range is found by its id, and its range has the key. -/
theorem RouteTable.getNodeInfo_getNodeId {tbl : RouteTable α} {nodeKey : ℕ}
    (h : tbl.getNodeId nodeKey ≠ 0) :
    ∃ node, tbl.getNodeInfo (tbl.getNodeId nodeKey) = some node ∧
      node.nodeId = tbl.getNodeId nodeKey ∧ node.servType = tbl.servType ∧
      node.begin_ ≤ nodeKey ∧ nodeKey ≤ node.end_ := by
  cases hfind : tbl.mapNode.entries.find? fun e => e.2.begin_ ≤ nodeKey ∧ nodeKey ≤ e.2.end_ with
  | none =>
      rw [getNodeId, hfind] at h
      exact absurd rfl h
  | some e =>
      have hmem : tbl.mapNode.find? e.1 = some e.2 :=
        StdMap.find?_eq_some_iff.mpr (List.mem_of_find?_eq_some hfind)
      obtain ⟨hid, hserv⟩ := tbl.node_key _ _ hmem
      have hnodeId : tbl.getNodeId nodeKey = e.1 := by
        rw [getNodeId, hfind]
        exact hid
      have hrange := List.find?_some hfind
      simp only [decide_eq_true_eq] at hrange
      rw [hnodeId]
      exact ⟨e.2, hmem, hid, hserv, hrange⟩

/-- `spp_sendto` from the flow on. -/
def Backend.sendNode (user : Handler (Payload × υ)) (w : Backend α υ) (node : NodeInfo α)
    (ans : SppAnswer) : Outcome α υ :=
  match w.ctor.commuMng.getFlow node.servType node.nodeId with
  | 0 => w.reconnect user node node.servType node.nodeId ans 0 0 []
  | flow + 1 =>
      let t := w.trySend (flow + 1) ans.first
      if t.ret = -eNotFindfd ∨ t.ret = -eNeedClose then
        t.after.reconnect user node node.servType node.nodeId ans t.ret (flow + 1) [t]
      else ⟨t.ret, flow + 1, [t], t.after⟩

/-- The route does not divide by zero. -/
def Divides (config : Option (RouteConfig α)) (servType routeKey : ℕ) : Prop :=
  ∀ cfg tbl, config = some cfg → cfg.mapRouteTable.find? servType = some tbl →
    tbl.nodeKey routeKey ≠ none

/-- The call goes on with the node that it finds. -/
theorem Backend.sppSendto_of_node (user : Handler (Payload × υ)) (w : Backend α υ)
    {cfg : RouteConfig α} {tbl : RouteTable α} {servType routeKey nodeKey : ℕ} (ans : SppAnswer)
    (htable : cfg.mapRouteTable.find? servType = some tbl)
    (hkey : tbl.nodeKey routeKey = some nodeKey) (hid : tbl.getNodeId nodeKey ≠ 0)
    (hinfo : tbl.getNodeInfo (tbl.getNodeId nodeKey) = some node) :
    w.sppSendto user (some cfg) servType routeKey ans = some (w.sendNode user node ans) := by
  obtain ⟨node', hinfo', hnodeId, hserv, -⟩ := tbl.getNodeInfo_getNodeId hid
  rw [hinfo', Option.some.injEq] at hinfo
  subst hinfo
  rw [cfg.table_key _ _ htable] at hserv
  subst hserv
  simp only [Backend.sppSendto, Backend.sendNode, htable, hkey, if_neg hid, hinfo', hnodeId]
  rw [← hnodeId]
  cases w.ctor.commuMng.getFlow node'.servType node'.nodeId with
  | zero => rfl
  | succ flow =>
      simp only [Nat.zero_lt_succ, gt_iff_lt, if_true]
      split <;> rfl

/-- No node is found, or the call goes on with it. -/
theorem Backend.sppSendto_cases (user : Handler (Payload × υ)) (w : Backend α υ)
    {servType routeKey : ℕ} (ans : SppAnswer) (hdivides : Divides config servType routeKey) :
    (∃ ret < 0, w.sppSendto user config servType routeKey ans = some ⟨ret, 0, [], w⟩) ∨
    ∃ node, chosenNode config servType routeKey = some node ∧
      nodeOf config node.servType node.nodeId = some node ∧
      w.sppSendto user config servType routeKey ans = some (w.sendNode user node ans) := by
  cases config with
  | none => exact .inl ⟨-1, by decide, rfl⟩
  | some cfg =>
  cases htable : cfg.mapRouteTable.find? servType with
  | none => exact .inl ⟨-2, by decide, by simp [Backend.sppSendto, htable]⟩
  | some tbl =>
  cases hkey : tbl.nodeKey routeKey with
  | none => exact absurd hkey (hdivides cfg tbl rfl htable)
  | some nodeKey =>
  by_cases hid : tbl.getNodeId nodeKey = 0
  · exact .inl ⟨-3, by decide, by simp [Backend.sppSendto, htable, hkey, hid]⟩
  right
  obtain ⟨node, hinfo, hnodeId, hserv, -⟩ := tbl.getNodeInfo_getNodeId hid
  refine ⟨node, ?_, ?_, w.sppSendto_of_node user ans htable hkey hid hinfo⟩
  · simp [chosenNode, htable, hkey, hinfo]
  · rw [cfg.table_key _ _ htable] at hserv
    simp [nodeOf, hserv, hnodeId, htable, hinfo]

/-! ## Runs -/

/-- The state in which `spp_sendto` connects. -/
def Backend.atConnect (w : Backend α υ) (flow : ℕ) (ans : SppAnswer) : Backend α υ :=
  if flow = 0 then w else (w.trySend flow ans.first).after

/-- A `spp_sendto` to a node that reaches none of the faults: a UDP socket takes all or nothing;
where no flow is registered for the node, `connect` succeeds; and where `connect` is called, it
gets a descriptor and takes a flow of its own. -/
structure SoundSend (user : Handler (Payload × υ)) (w : Backend α υ) (node : NodeInfo α)
    (ans : SppAnswer) : Prop where
  whole : node.type = .udp →
    ans.first.Atomic w.ctor.blob.1.length ∧ ans.second.Atomic w.ctor.blob.1.length
  connects : w.ctor.commuMng.getFlow node.servType node.nodeId = 0 →
    Connects (ctorHandler user) w.sock { w.ctor with extdata := some node } node.type.code
      ans.connect
  fresh : ∀ flow, flow = w.ctor.commuMng.getFlow node.servType node.nodeId →
    (flow = 0 ∨ (w.trySend flow ans.first).ret < 0) → (w.atConnect flow ans).Fresh node ans.connect

/-- The call keeps what holds in every state. -/
theorem Backend.Inv.sendNode (h : w.Inv config) {ans : SppAnswer}
    (hnode : nodeOf config node.servType node.nodeId = some node)
    (hsound : SoundSend user w node ans) : (w.sendNode user node ans).after.Inv config := by
  have hfresh := hsound.fresh _ rfl
  unfold Backend.sendNode
  split
  next hflow =>
    rw [hflow] at hfresh
    exact h.reconnect hnode (hfresh (.inl rfl))
  next flow hflow =>
    rw [hflow] at hfresh
    dsimp only
    split
    next hlost =>
      have hneg : (w.trySend (flow + 1) ans.first).ret < 0 := by
        simp only [eNotFindfd, eNeedClose] at hlost
        omega
      have hfresh := hfresh (.inr hneg)
      simp only [Backend.atConnect, Nat.add_one_ne_zero, if_false] at hfresh
      exact (h.trySend (flow + 1) ans.first).reconnect hnode hfresh
    next => exact h.trySend (flow + 1) ans.first

/-- A call with a message that reaches none of the faults says where the message is. -/
theorem Backend.Inv.sendNode_truthful (h : w.Inv config) {ans : SppAnswer}
    (hnode : nodeOf config node.servType node.nodeId = some node)
    (hdata : 0 < w.ctor.blob.1.length) (hsound : SoundSend user w node ans) :
    (w.sendNode user node ans).Truthful (some node) w.ctor.blob := by
  have hfresh := hsound.fresh _ rfl
  have hconnects := hsound.connects
  unfold Backend.sendNode
  split
  next hflow =>
    -- no flow is registered
    rw [hflow] at hfresh
    exact h.reconnect_truthful hnode (hfresh (.inl rfl)) hdata (fun hu => (hsound.whole hu).2)
      (.inr (hconnects hflow).connect) (by simp)
  next flow hflow =>
    rw [hflow] at hfresh
    have hat : w.ctor.commuMng.at? node.servType node.nodeId = some (flow + 1) := by
      rw [CommuMng.getFlow_eq] at hflow
      cases hat : w.ctor.commuMng.at? node.servType node.nodeId with
      | none => simp [hat] at hflow
      | some f =>
          rw [hat, Option.getD_some] at hflow
          rw [hflow]
    have hsend := h.owned.send_cases hnode hat ans.first hdata fun hu => (hsound.whole hu).1
    dsimp only
    cases hsend with
    | inl hfail =>
        have hfresh := hfresh (.inr hfail.1.ret)
        simp only [Backend.atConnect, Nat.add_one_ne_zero, if_false] at hfresh
        rw [if_pos hfail.2]
        refine (h.trySend (flow + 1) ans.first).reconnect_truthful hnode hfresh hdata
          (fun hu => (hsound.whole hu).2) (.inl hfail.1.ret) ?_
        intro t ht
        rw [List.mem_singleton.mp ht]
        exact hfail.1
    | inr hsent =>
        have hkept : ¬ ((w.trySend (flow + 1) ans.first).ret = -eNotFindfd ∨
            (w.trySend (flow + 1) ans.first).ret = -eNeedClose) := by
          have hnonneg := hsent.1
          simp only [eNotFindfd, eNeedClose]
          omega
        rw [if_neg hkept]
        constructor
        · intro _
          exact ⟨node, [], _, rfl, rfl, by simp, hsent.2, rfl⟩
        · intro hneg
          exact absurd hneg (Int.not_lt.mpr hsent.1)

/-- The event is no `spp_sendto`, or one that reaches none of the faults. -/
def Backend.Sound (user : Handler (Payload × υ)) (config : Option (RouteConfig α))
    (w : Backend α υ) : BackendOp → Prop
  | .sppSendto servType routeKey blob ans => Divides config servType routeKey ∧
      ∀ node, chosenNode config servType routeKey = some node →
        SoundSend user (w.withBlob blob) node ans
  | _ => True

/-- The event is no `spp_sendto` of a message, or one that returns, and truthfully. -/
def Backend.Reports (user : Handler (Payload × υ)) (config : Option (RouteConfig α))
    (w : Backend α υ) : BackendOp → Prop
  | .sppSendto servType routeKey blob ans => 0 < blob.1.length →
      ∃ o, (Backend.step user config w (.sppSendto servType routeKey blob ans)).2 = some o ∧
        o.Truthful (chosenNode config servType routeKey) blob
  | _ => True

theorem Backend.Inv.step (h : w.Inv config) (op : BackendOp) (hsound : w.Sound user config op) :
    (w.step user config op).1.Inv config := by
  cases op with
  | ready ev =>
      have hbound := h.deaf.not_bound ev.fd
      constructor
      · exact h.owned.fades ((fades_stable w.sock).handleReady (.of_eq rfl rfl) _ ev hbound) rfl
          ((ctorHandler_steady user w.ctor.commuMng).handleReady (fun _ _ _ hat => hat) ev hbound)
      · exact deaf_stable.handleReady h.deaf _ ev hbound
  | checkExpire now =>
      constructor
      · exact h.owned.fades ((fades_stable w.sock).checkExpire (.of_eq rfl rfl) _ now) rfl
          ((ctorHandler_steady user w.ctor.commuMng).checkExpire _ (fun _ _ _ hat => hat) now)
      · exact deaf_stable.checkExpire h.deaf _ now
  | sppSendbyflow c =>
      constructor
      · exact h.owned.fades ((fades_stable w.sock).sendto _ (.of_eq rfl rfl) c) rfl
          fun _ _ _ hat => hat
      · exact deaf_stable.sendto _ h.deaf c
  | sppSendto servType routeKey blob ans =>
      have hblob := h.withBlob blob
      simp only [Backend.step]
      cases (w.withBlob blob).sppSendto_cases user ans hsound.1 with
      | inl hfail =>
          obtain ⟨ret, -, heq⟩ := hfail
          rw [heq]
          exact hblob
      | inr hnode =>
          obtain ⟨node, hchosen, hnode, heq⟩ := hnode
          rw [heq]
          exact hblob.sendNode hnode (hsound.2 node hchosen)

theorem Backend.Inv.reports (h : w.Inv config) (op : BackendOp) (hsound : w.Sound user config op) :
    w.Reports user config op := by
  cases op with
  | ready ev => trivial
  | checkExpire now => trivial
  | sppSendbyflow c => trivial
  | sppSendto servType routeKey blob ans =>
      intro hdata
      have hblob := h.withBlob blob
      simp only [Backend.step]
      cases (w.withBlob blob).sppSendto_cases user ans hsound.1 with
      | inl hfail =>
          obtain ⟨ret, hneg, heq⟩ := hfail
          rw [heq]
          exact ⟨_, rfl, .of_neg hneg (by simp)⟩
      | inr hnode =>
          obtain ⟨node, hchosen, hnode, heq⟩ := hnode
          rw [heq, hchosen]
          exact ⟨_, rfl, hblob.sendNode_truthful hnode hdata (hsound.2 node hchosen)⟩

theorem Backend.inv_init (maxconn : ℕ) (pos : 0 < maxconn) (bound : maxconn < 2 ^ 31)
    (expiretime checkExpireInterval now : ℤ) (blob : Payload) (u : υ) :
    (Backend.init maxconn pos bound expiretime checkExpireInterval now blob u).Inv config := by
  constructor
  · intro t n f hf
    cases hf
  · rfl

variable (maxconn : ℕ) (pos : 0 < maxconn) (bound : maxconn < 2 ^ 31)
  (expiretime checkExpireInterval now : ℤ) (blob : Payload) (u : υ)

/-- In a run that reaches none of the faults, what `spp_sendto` returns says where the message
is. -/
theorem Backend.reports_run (ops : List BackendOp)
    (hsound : Run.Always (Backend.step user config) (Backend.Sound user config)
      (.init maxconn pos bound expiretime checkExpireInterval now blob u) ops) :
    Run.Always (Backend.step user config) (Backend.Reports user config)
      (.init maxconn pos bound expiretime checkExpireInterval now blob u) ops := by
  have hstep : ∀ w op, Backend.Inv config w → w.Sound user config op →
      (w.step user config op).1.Inv config := fun w op hw hop => hw.step op hop
  have hreports : ∀ w op, Backend.Inv config w → w.Sound user config op →
      w.Reports user config op := fun w op hw hop => hw.reports op hop
  exact Run.always_of_invariant hstep hreports (inv_init ..) hsound

/-- Server type 7, over two backends by the last bit of the key. -/
def twoBackends : RouteConfig ℕ where
  mapRouteTable := ⟨[(7, {
    servType := 7
    route := .mod
    routeVal := 2
    mapNode := ⟨[(1, ⟨7, 1, 0, 0, .tcp, 100⟩), (2, ⟨7, 2, 1, 1, .tcp, 200⟩)], by decide⟩
    node_key := by
      intro n info hinfo
      have hmem := StdMap.find?_eq_some_iff.mp hinfo
      simp only [List.mem_cons, Prod.mk.injEq, List.not_mem_nil, or_false] at hmem
      rcases hmem with ⟨rfl, rfl⟩ | ⟨rfl, rfl⟩ <;> exact ⟨rfl, rfl⟩ })], by decide⟩
  table_key := by
    intro t tbl htbl
    have hmem := StdMap.find?_eq_some_iff.mp htbl
    simp only [List.mem_cons, Prod.mk.injEq, List.not_mem_nil, or_false] at hmem
    rw [hmem.1, hmem.2]

/-- The first message to a backend opens the connection. -/
theorem Backend.reports_first :
    let send := SendAnswer.mk (.sent 2) (.sent 2) .exact 0
    let op := BackendOp.sppSendto 7 4 ⟨[1, 2], by decide⟩ ⟨send, ⟨5, true, 0⟩, true, send⟩
    Run.Always (Backend.step (fun b _ => (b, ⟨[], 0⟩)) (some twoBackends))
      (Backend.Reports (fun b _ => (b, ⟨[], 0⟩)) (some twoBackends))
      (.init 1 (by decide) (by decide) 60 60 0 ⟨[], by decide⟩ ()) [op] := by
  intro send op
  refine reports_run 1 _ _ 60 60 0 _ () [op] ⟨⟨?_, ?_⟩, trivial⟩
  · rintro cfg tbl ⟨⟩ ⟨⟩
    decide
  · rintro node ⟨⟩
    refine ⟨nofun, fun _ => ⟨by decide, rfl, 1, ?_, rfl, rfl, rfl⟩, ?_⟩
    · exact ⟨0, by decide, rfl, rfl, nofun⟩
    · rintro flow rfl -
      constructor
      · intro f hlive
        exact absurd hlive.1.symm hlive.2
      · intro g _ t n hat
        cases hat

/-- The table is full: the message to the second backend goes nowhere, and the code is 0. -/
theorem Backend.not_reports_run :
    let send := SendAnswer.mk (.sent 2) (.sent 2) .exact 0
    let first := BackendOp.sppSendto 7 4 ⟨[1, 2], by decide⟩ ⟨send, ⟨5, true, 0⟩, true, send⟩
    let second := BackendOp.sppSendto 7 5 ⟨[3, 4], by decide⟩ ⟨send, ⟨6, true, 0⟩, true, send⟩
    ¬ Run.Always (Backend.step (fun b _ => (b, ⟨[], 0⟩)) (some twoBackends))
      (Backend.Reports (fun b _ => (b, ⟨[], 0⟩)) (some twoBackends))
      (.init 1 (by decide) (by decide) 60 60 0 ⟨[], by decide⟩ ()) [first, second] := by
  intro send first second hrun
  obtain ⟨o, hstep, htruth⟩ := hrun.2.1 (by decide)
  have hret : o.ret = 0 ∧ o.tries.length = 0 := by
    have hcode := congrArg (Option.map fun o => (o.ret, o.tries.length)) hstep
    have heval : Option.map (fun o : Outcome ℕ Unit => (o.ret, o.tries.length))
        (Backend.step (fun b _ => (b, ⟨[], 0⟩)) (some twoBackends)
          (Backend.step (fun b _ => (b, ⟨[], 0⟩)) (some twoBackends)
            (.init 1 (by decide) (by decide) 60 60 0 ⟨[], by decide⟩ ()) first).1 second).2 =
        some (0, 0) := by decide +kernel
    rw [heval] at hcode
    simpa using hcode.symm
  obtain ⟨n, pre, t, -, htries, -⟩ := htruth.1 hret.1.ge
  simp [htries] at hret

end Spp
