import Spp.Sock.Leak

/-!
# The flow that is announced

`handle_accept` calls `CB_CONNECTED` with the new flow before `addconn`, which moves the flow
on when its slot is taken.  The connection then lives under another flow than the one that
was announced.  `connect` and `handle_accept_udp` call `addconn` first.

## Main definitions

* `recorded` — the callbacks, with the calls they get.
* `LivesAsAnnounced` — an accepted connection is stored and registered under the flow that
  was announced.
* `nameStep` — one event, with the flow that each slot's connection was announced with.
* `Direct` — the slot of the new flow is free when the callback comes back.
-/

namespace Spp

/-- The flow that a callback is called with. -/
def Notice.flow? : Notice → Option ℕ
  | .connect flow | .connected flow _ | .recvdata flow _ | .recvdone flow _
  | .senderror flow _ | .disconnect flow | .timeout flow => some flow
  | .overload => none

/-- The flow that a new connection is announced with. -/
def Notice.announces : Notice → Option ℕ
  | .connect flow | .connected flow _ => some flow
  | _ => none

/-- The flow that a list of calls announces. -/
def announced (notices : List Notice) : Option ℕ := notices.findSome? Notice.announces

@[simp] theorem announced_nil : announced [] = none := rfl

@[simp] theorem announced_connect (flow : ℕ) (ns : List Notice) :
    announced (.connect flow :: ns) = some flow := rfl

@[simp] theorem announced_connected (flow : ℕ) (data : List UInt8) (ns : List Notice) :
    announced (.connected flow data :: ns) = some flow := rfl

namespace SockCommu

open ConnSet

variable {σ : Type} (h : Handler σ)

/-- The callbacks of `h`, with the list of the calls they get. -/
def recorded : Handler (σ × List Notice) := fun u n => (((h u.1 n).1, u.2 ++ [n]), (h u.1 n).2)

/-- The connection on `clifd` is stored and registered under the flow that `CB_CONNECTED` has
been called with. -/
def LivesAsAnnounced (s : SockCommu) (u : σ × List Notice) (fd : ℕ) (ans : AcceptAnswer)
    (clifd : ℕ) : Prop :=
  let p := handleAccept (recorded h) s u fd ans
  ∃ flow, p.2.2 = u.2 ++ [.connected flow []] ∧ p.1.kernel.epoll clifd = some ⟨flow, maskIn⟩ ∧
    p.1.connset.Live flow ∧ (p.1.connset.getcc flow).fd = clifd

/-- The slot of the new flow is free when the callback for `CB_CONNECTED` comes back. -/
def SlotFree (s : SockCommu) (u : σ) (clifd : ℕ) : Prop :=
  ((callback h (s.openFd clifd).bumpFlow u (.connected (bump s.flow) [])).2.1.connset.getcc
    (bump s.flow)).flow = 0

variable {h} {s s' s'' : SockCommu} {u : σ × List Notice} {flow : ℕ}

/-! ## What an event does to the table -/

/-- Every connection is the same one or has been closed, and none has been stored. -/
structure Fades (s s' : SockCommu) : Prop where
  maxconn : s'.connset.maxconn = s.connset.maxconn
  slot : ∀ i, (s.connset.ccs i).Same (s'.connset.ccs i) ∨ (s'.connset.ccs i).flow = 0
  calls : stored s'.calls = stored s.calls

theorem Fades.of_eq (htable : s'.connset = s.connset) (hcalls : s'.calls = s.calls) :
    Fades s s' := by
  constructor
  · rw [htable]
  · intro i
    rw [htable]
    exact .inl ⟨rfl, rfl, rfl⟩
  · rw [hcalls]

theorem Fades.trans (h : Fades s s') (h' : Fades s' s'') : Fades s s'' := by
  constructor
  · exact h'.maxconn.trans h.maxconn
  · intro i
    rcases h'.slot i with hsame' | hzero
    · rcases h.slot i with hsame | hzero
      · exact .inl (hsame.trans hsame')
      · exact .inr (hsame'.flow.trans hzero)
    · exact .inr hzero
  · exact h'.calls.trans h.calls

theorem Fades.of_shrinks (h : Shrinks s s') (hcalls : stored s'.calls = stored s.calls) :
    Fades s s' :=
  ⟨h.maxconn, fun i => (h.slot i).imp_right And.left, hcalls⟩

theorem stored_call {op : ConnOp} (s : SockCommu) (hop : op.ByFlow) :
    stored (s.call op).1.calls = stored s.calls := by
  have hnone : storedBy (op, (s.connset.exec op).2) = none := by
    cases op <;> first | rfl | exact hop.elim
  rw [(call_eq s op).1, stored_snoc, hnone]
  simp

theorem fades_stable (s₀ : SockCommu) : Stable (Fades s₀) where
  byFlow s op hop hne hs := hs.trans (.of_shrinks (.call hop hne) (stored_call s hop))
  skipRead s f length hs := by
    refine hs.trans (.of_shrinks (.skipRead s f length) ?_)
    rw [(call_eq s _).1, stored_snoc]
    simp [storedBy]
  closeconn s f hs := by
    refine hs.trans (.of_shrinks (.closeconn s f) ?_)
    have hcall := stored_call s (show (ConnOp.closeconn f).ByFlow from trivial)
    unfold SockCommu.closeconn
    dsimp only
    split <;> exact hcall
  modify s fd flow mask hs := hs.trans (.of_eq rfl rfl)
  history s last stalls _ hs := hs.trans (.of_eq rfl rfl)

/-- A connection has been stored under `g`, and may have been closed again. -/
structure Joins (s s' : SockCommu) (g fd type : ℕ) : Prop where
  maxconn : s'.connset.maxconn = s.connset.maxconn
  slot : ∀ i, i ≠ g % s.connset.maxconn →
    (s.connset.ccs i).Same (s'.connset.ccs i) ∨ (s'.connset.ccs i).flow = 0
  own : (s'.connset.getcc g).flow = g ∧ (s'.connset.getcc g).fd = fd ∧
    (s'.connset.getcc g).type = type ∨ (s'.connset.getcc g).flow = 0
  calls : stored s'.calls = stored s.calls ++ [(g, fd, type)]

theorem Joins.of_store {g fd type : ℕ} {now : ℤ}
    (htable : s'.connset = (s.connset.store g fd type now).1)
    (hcalls : s'.calls = s.calls ++ [(.addconn s.flow fd type now, ⟨some 0, g, []⟩)]) :
    Joins s s' g fd type := by
  constructor
  · rw [htable]
    rfl
  · intro i hi
    have hother : s'.connset.ccs i = s.connset.ccs i := by
      rw [htable]
      exact Function.update_of_ne hi _ _
    rw [hother]
    exact .inl ⟨rfl, rfl, rfl⟩
  · left
    have hown : s'.connset.getcc g =
        { s.connset.getcc g with flow := g, fd := fd, access := now, type := type } := by
      rw [htable]
      exact Function.update_self _ _ _
    rw [hown]
    exact ⟨rfl, rfl, rfl⟩
  · rw [hcalls, stored_snoc]
    rfl

/-- A call of `addconn` that finds no slot stores nothing. -/
theorem Fades.of_full {g fd type : ℕ} {now : ℤ} (htable : s'.connset = s.connset)
    (hcalls : s'.calls = s.calls ++ [(.addconn s.flow fd type now, ⟨some (-1), g, []⟩)]) :
    Fades s s' := by
  constructor
  · rw [htable]
  · intro i
    rw [htable]
    exact .inl ⟨rfl, rfl, rfl⟩
  · rw [hcalls, stored_snoc]
    simp [storedBy]

theorem Joins.fades {g fd type : ℕ} (h : Joins s s' g fd type) (h' : Fades s' s'') :
    Joins s s'' g fd type := by
  constructor
  · exact h'.maxconn.trans h.maxconn
  · intro i hi
    rcases h'.slot i with hsame | hzero
    · rcases h.slot i hi with hsame' | hzero
      · exact .inl (hsame'.trans hsame)
      · exact .inr (hsame.flow.trans hzero)
    · exact .inr hzero
  · have hslot := h'.slot (g % s'.connset.maxconn)
    rw [← h'.maxconn] at hslot
    rcases hslot with hsame | hzero
    · have hold : s'.connset.ccs (g % s''.connset.maxconn) = s'.connset.getcc g := by
        rw [h'.maxconn]
        rfl
      rw [hold] at hsame
      change (s'.connset.getcc g).Same (s''.connset.getcc g) at hsame
      rw [hsame.flow, hsame.fd, hsame.type]
      exact h.own
    · exact .inr hzero
  · exact h'.calls.trans h.calls

theorem Fades.joins {g fd type : ℕ} (h : Fades s s') (h' : Joins s' s'' g fd type) :
    Joins s s'' g fd type := by
  constructor
  · exact h'.maxconn.trans h.maxconn
  · intro i hi
    rcases h'.slot i (by rw [h.maxconn]; exact hi) with hsame' | hzero
    · rcases h.slot i with hsame | hzero
      · exact .inl (hsame.trans hsame')
      · exact .inr (hsame'.flow.trans hzero)
    · exact .inr hzero
  · exact h'.own
  · rw [h'.calls, h.calls]

/-! ## One accept -/

@[simp] theorem recorded_reply (u : σ × List Notice) (n : Notice) :
    (recorded h u n).2 = (h u.1 n).2 := rfl

@[simp] theorem recorded_user (u : σ × List Notice) (n : Notice) :
    (recorded h u n).1.1 = (h u.1 n).1 := rfl

@[simp] theorem recorded_notices (u : σ × List Notice) (n : Notice) :
    (recorded h u n).1.2 = u.2 ++ [n] := rfl

/-- `handle_accept` stores nothing and registers nothing, or it stores the connection where the
search ends, after one call of `CB_CONNECTED`. -/
theorem handleAccept_joins (s : SockCommu) (u : σ × List Notice) (fd : ℕ) (ans : AcceptAnswer) :
    (Fades s (handleAccept (recorded h) s u fd ans).1 ∧
      (∃ notices, (handleAccept (recorded h) s u fd ans).2.2 = u.2 ++ notices) ∧
      ∀ clifd, ans.fd = some clifd → s.kernel.opened clifd = false →
        (handleAccept (recorded h) s u fd ans).1.kernel.epoll clifd = none) ∨
    ∃ clifd g type, ans.fd = some clifd ∧ s.kernel.opened clifd = false ∧
      (callback (recorded h) (s.openFd clifd).bumpFlow u
        (.connected (bump s.flow) [])).2.1.connset.FirstFree (bump s.flow) g ∧
      Joins s (handleAccept (recorded h) s u fd ans).1 g clifd type ∧
      (handleAccept (recorded h) s u fd ans).2.2 = u.2 ++ [.connected (bump s.flow) []] ∧
      ((handleAccept (recorded h) s u fd ans).1.connset.getcc g).flow = g ∧
      ((handleAccept (recorded h) s u fd ans).1.connset.getcc g).fd = clifd ∧
      (handleAccept (recorded h) s u fd ans).1.kernel.epoll clifd =
        if ans.added then some ⟨g, maskIn⟩ else none := by
  cases hfd : ans.fd with
  | none => simp [handleAccept, hfd, Fades.of_eq rfl rfl]
  | some clifd =>
    cases hopened : s.kernel.opened clifd with
    | true => simp [handleAccept, hfd, hopened, Fades.of_eq rfl rfl]
    | false =>
      obtain ⟨s₁, hs₁⟩ : ∃ s₁, s₁ = (callback (recorded h) (s.openFd clifd).bumpFlow u
        (.connected (bump s.flow) [])).2.1 := ⟨_, rfl⟩
      have hfades : Fades s s₁ := by
        have hopen : Fades s (s.openFd clifd).bumpFlow := .of_eq rfl rfl
        rw [hs₁]
        exact (fades_stable s).callback hopen u _
      rcases handleAccept_cases fd hfd hopened hs₁ with
        ⟨-, heq⟩ | ⟨-, -, ⟨-, ⟨g, hsame, hcalls⟩, heq⟩ | ⟨g, hfirst, hstore, hcalls, heq⟩⟩
      · left
        refine ⟨?_, ⟨[.connected (bump s.flow) []], ?_⟩, ?_⟩
        · rw [heq]
          exact hfades.trans (.of_eq rfl rfl)
        · rw [heq]
          rfl
        · rintro _ ⟨⟩ -
          rw [heq]
          exact closeFd_epoll _ _
      · left
        have hfull : Fades s ((s₁.addconn clifd (s₁.sockbind fd) ans.now).1.closeFd clifd) :=
          (hfades.trans (.of_full hsame hcalls)).trans (.of_eq (closeFd_connset _ _) rfl)
        rw [heq]
        refine ⟨(fades_stable s).callback hfull _ _, ⟨[.connected (bump s.flow) [], .overload], ?_⟩,
          ?_⟩
        · simp
        · rintro _ ⟨⟩ -
          have hgone := (shrinks_stable _).callback (h := recorded h) (.refl
            ((s₁.addconn clifd (s₁.sockbind fd) ans.now).1.closeFd clifd))
            (recorded h u (.connected (bump s.flow) [])).1 .overload
          exact hgone.gone clifd (closeFd_epoll _ _)
      · right
        have hjoins : Joins s (s₁.addconn clifd (s₁.sockbind fd) ans.now).1 g clifd
            (s₁.sockbind fd) := hfades.joins (.of_store hstore hcalls)
        have hown : (s₁.addconn clifd (s₁.sockbind fd) ans.now).1.connset.getcc g =
            { s₁.connset.getcc g with
              flow := g, fd := clifd, access := ans.now, type := s₁.sockbind fd } := by
          rw [hstore]
          exact Function.update_self _ _ _
        have hafter : Fades (s₁.addconn clifd (s₁.sockbind fd) ans.now).1
            (handleAccept (recorded h) s u fd ans).1 ∧
            (handleAccept (recorded h) s u fd ans).1.connset =
              (s₁.addconn clifd (s₁.sockbind fd) ans.now).1.connset := by
          rw [heq]
          cases ans.added <;> exact ⟨.of_eq rfl rfl, rfl⟩
        refine ⟨clifd, g, s₁.sockbind fd, rfl, hopened, ?_, hjoins.fades hafter.1, ?_, ?_, ?_, ?_⟩
        · rw [← hs₁]
          exact hfirst
        · rw [heq]
          rfl
        · rw [hafter.2, hown]
        · rw [hafter.2, hown]
        · rw [heq]
          cases ans.added
          · exact closeFd_epoll _ _
          · exact add_epoll _ _ _ _

/-- A connection that an accept has registered lives as announced exactly when the slot of the
new flow is free when the callback comes back. -/
theorem livesAsAnnounced_iff {fd clifd : ℕ} {ans : AcceptAnswer} (hfd : ans.fd = some clifd)
    (hopened : s.kernel.opened clifd = false)
    (hreg : (handleAccept (recorded h) s u fd ans).1.kernel.epoll clifd ≠ none) :
    LivesAsAnnounced h s u fd ans clifd ↔ SlotFree (recorded h) s u clifd := by
  rcases handleAccept_joins s u fd ans with ⟨-, -, hnone⟩ |
    ⟨clifd', g, type, hfd', -, hfirst, -, hlog, hflow, hown, hepoll⟩
  · exact absurd (hnone clifd hfd hopened) hreg
  · obtain rfl : clifd = clifd' := Option.some.inj (hfd.symm.trans hfd')
    have hadded : ans.added = true := by
      by_contra hadded
      simp [hadded] at hepoll
      exact hreg hepoll
    rw [if_pos hadded] at hepoll
    have hbump := bump_lt_pow s.flow
    constructor
    · rintro ⟨flow, hlog', hepoll', hlive, -⟩
      rw [hlog] at hlog'
      rw [hepoll] at hepoll'
      obtain ⟨k, hk, hg, hfree, -⟩ := hfirst
      simp at hlog' hepoll'
      rw [hepoll', ← hlog'] at hfree
      exact hfree
    · intro hfree
      have hself : g = bump s.flow := by
        obtain ⟨k, hk, rfl, -, htaken⟩ := hfirst
        rcases Nat.eq_zero_or_pos k with rfl | hpos
        · exact u32_of_lt hbump
        · have hbusy := htaken 0 hpos
          rw [Nat.add_zero, u32_of_lt hbump] at hbusy
          exact absurd hfree hbusy
      rw [hself] at hepoll hflow hown
      exact ⟨bump s.flow, hlog, hepoll, ⟨hflow, bump_ne_zero _⟩, hown⟩

/-! ## One event -/

/-- `handle_accept_udp` stores nothing, or it stores a datagram connection and announces it
under its own flow, if at all. -/
theorem handleAcceptUdp_joins (s : SockCommu) (u : σ × List Notice) (fd : ℕ) (ans : RecvAnswer) :
    ∃ notices, (handleAcceptUdp (recorded h) s u fd ans).2.2 = u.2 ++ notices ∧
      (Fades s (handleAcceptUdp (recorded h) s u fd ans).1 ∨
        ∃ g, Joins s (handleAcceptUdp (recorded h) s u fd ans).1 g fd udpSocket ∧
          ∀ flow ∈ announced notices, flow = g) := by
  obtain ⟨s₀, hs₀⟩ : ∃ s₀, s₀ = s.bumpFlow := ⟨_, rfl⟩
  have hflow₀ : s₀.flow = bump s.flow := by rw [hs₀]; rfl
  have hfades₀ : Fades s s₀ := by rw [hs₀]; exact .of_eq rfl rfl
  have hsearch := addconn_firstFree s₀ (hflow₀.trans_lt (bump_lt_pow s.flow)) fd udpSocket ans.now
  unfold handleAcceptUdp
  simp only [← hs₀]
  obtain ⟨s₁, hs₁⟩ : ∃ s₁, s₁ = (s₀.addconn fd udpSocket ans.now).1 := ⟨_, rfl⟩
  rw [← hs₁] at hsearch ⊢
  rcases hsearch with ⟨g, -, hstored, hg, hstore, hcalls⟩ | ⟨-, hfull, hsame, g, hcalls⟩
  · have hjoins : Joins s s₁ g fd udpSocket := hfades₀.joins (.of_store hstore hcalls)
    have hstable := fades_stable s₁
    have hrecv := hstable.byFlow s₁ (.recv g ans.k ans.alloc ans.now) trivial nofun (.of_eq rfl rfl)
    obtain ⟨data, hdata⟩ : ∃ data, data = ((s₁.call (.recv g ans.k ans.alloc ans.now)).1.connset.getcc
      g).r.content := ⟨_, rfl⟩
    rw [if_neg (not_not.mpr hstored), hg]
    simp only [← hdata]
    split
    · exact ⟨[], by simp, .inr ⟨g, hjoins.fades hrecv, by simp⟩⟩
    · split
      · split
        · have hclosed := hstable.closeconn _ g (hstable.callback (h := recorded h) hrecv u
            (.connected g data))
          exact ⟨[.connected g data], rfl, .inr ⟨g, hjoins.fades hclosed, by simp⟩⟩
        · have hreported := hstable.callback (h := recorded h) (hstable.callback (h := recorded h)
            hrecv u (.connected g data)) (recorded h u (.connected g data)).1 (.recvdata g data)
          exact ⟨[.connected g data, .recvdata g data], by simp,
            .inr ⟨g, hjoins.fades hreported, by simp⟩⟩
      · exact ⟨[], by simp, .inr ⟨g, hjoins.fades (hstable.closeconn _ _ hrecv), by simp⟩⟩
  · rw [if_pos hfull]
    have hfades : Fades s s₁ := hfades₀.trans (.of_full hsame hcalls)
    exact ⟨[.overload], rfl, .inl ((fades_stable s).callback hfades _ _)⟩

/-- `connect` stores nothing, or it stores its connection and announces it under its own
flow, unless it leaks. -/
theorem connect_joins {type : ℕ} {ans : ConnectAnswer}
    (hkept : ¬ ConnectLeaks (recorded h) s u type ans) :
    Fades s (connect (recorded h) s u type ans).2.1 ∨
      ∃ g notices, Joins s (connect (recorded h) s u type ans).2.1 g ans.fd type ∧
        (connect (recorded h) s u type ans).2.2.2 = u.2 ++ notices ∧
        announced notices = some g := by
  unfold connect
  split
  · exact .inl (.of_eq rfl rfl)
  next htype =>
  split
  · exact .inl (.of_eq rfl rfl)
  next hopened =>
  obtain ⟨s₀, hs₀⟩ : ∃ s₀, s₀ = (s.openFd ans.fd).bumpFlow := ⟨_, rfl⟩
  have hflow₀ : s₀.flow = bump s.flow := by rw [hs₀]; rfl
  have hfades₀ : Fades s s₀ := by rw [hs₀]; exact .of_eq rfl rfl
  have htable₀ : s₀.connset = s.connset := by rw [hs₀]; rfl
  have hsearch := addconn_firstFree s₀ (hflow₀.trans_lt (bump_lt_pow s.flow)) ans.fd type ans.now
  rw [Bool.not_eq_true] at hopened
  simp only [← hs₀]
  obtain ⟨s₁, hs₁⟩ : ∃ s₁, s₁ = (s₀.addconn ans.fd type ans.now).1 := ⟨_, rfl⟩
  rw [← hs₁] at hsearch ⊢
  rcases hsearch with ⟨g, hfirst, hstored, hg, hstore, hcalls⟩ | ⟨-, hfull, hsame, g, hcalls⟩
  · right
    have hfine : ans.added ≠ false ∧ (h u.1 (.connect g)).2.ret = 0 ∧
        (h (h u.1 (.connect g)).1 (.connected g [])).2.ret = 0 := by
      by_contra hbad
      rw [htable₀, hflow₀] at hfirst
      refine hkept ⟨htype, hopened, g, hfirst, ?_⟩
      rw [not_and_or, not_and_or, not_not] at hbad
      exact hbad
    have hjoins : Joins s (s₁.add ans.fd g maskIn) g ans.fd type :=
      (hfades₀.joins (.of_store hstore hcalls)).fades (.of_eq rfl rfl)
    have hstable := fades_stable (s₁.add ans.fd g maskIn)
    have hcallbacks := hstable.callback (h := recorded h) (hstable.callback (h := recorded h)
      (.of_eq rfl rfl) u (.connect g)) (recorded h u (.connect g)).1 (.connected g [])
    refine ⟨g, [.connect g, .connected g []], ?_, ?_, rfl⟩
    · simpa [hstored, hfine.1, hfine.2.1, hfine.2.2, hg] using hjoins.fades hcallbacks
    · simp [hstored, hfine.1, hfine.2.1, hfine.2.2, hg]
  · left
    have hfades : Fades s (s₁.closeFd ans.fd) :=
      (hfades₀.trans (.of_full hsame hcalls)).trans (.of_eq (closeFd_connset _ _) rfl)
    rw [if_pos hfull]
    exact (fades_stable s).callback hfades u .overload

/-- The calls that come after `log` are for the flow. -/
def OnlyFor (flow : ℕ) (log : List Notice) (log' : List Notice) : Prop :=
  ∃ notices, log' = log ++ notices ∧ ∀ n ∈ notices, n.flow? = some flow

theorem OnlyFor.refl (flow : ℕ) (log : List Notice) : OnlyFor flow log log := ⟨[], by simp⟩

theorem OnlyFor.snoc {log log' : List Notice} {n : Notice} (h : OnlyFor flow log log')
    (hn : n.flow? = some flow) : OnlyFor flow log (log' ++ [n]) := by
  obtain ⟨notices, rfl, hall⟩ := h
  refine ⟨notices ++ [n], by simp, ?_⟩
  intro n' hn'
  rcases List.mem_append.mp hn' with hold | hlast
  · exact hall n' hold
  · rw [List.mem_singleton.mp hlast]
    exact hn

theorem recvLoop_onlyFor (now : ℤ) (answers : List RecvAnswer) {log : List Notice} :
    ∀ (s : SockCommu) (u : σ × List Notice), OnlyFor flow log u.2 →
      OnlyFor flow log (recvLoop (recorded h) flow now s u answers).2.2 := by
  induction answers with
  | nil => exact fun s u hu => hu
  | cons ans rest ih =>
    intro s u hu
    unfold recvLoop
    dsimp only
    split
    · have hdata : OnlyFor flow log (u.2 ++ [.recvdata flow
          ((s.call (.recv flow ans.k ans.alloc ans.now)).1.connset.getcc flow).r.content]) :=
        hu.snoc rfl
      split
      · exact ih _ _ hdata
      · split
        · exact ih _ _ (hdata.snoc rfl)
        · exact hdata
    · split
      · exact hu.snoc rfl
      · exact hu

/-- Every call that an element of an epoll result leads to is for the flow that it is
reported with. -/
theorem handleReady_onlyFor (s : SockCommu) (u : σ × List Notice) (r : Ready)
    (hbound : ¬ s.Bound r.fd) :
    OnlyFor r.flow u.2 (handleReady (recorded h) s u r).2.2 := by
  have hout : OnlyFor r.flow u.2 (if r.epollout then pollOut (recorded h) s u r else (s, u)).2.2 := by
    split
    · unfold pollOut
      dsimp only
      split
      · exact .refl _ _
      · split
        · exact (OnlyFor.refl _ _).snoc rfl
        · exact .refl _ _
    · exact .refl _ _
  rw [Bound] at hbound
  unfold handleReady
  rw [if_neg hbound]
  split
  · exact (OnlyFor.refl _ _).snoc rfl
  · dsimp only
    split
    · exact recvLoop_onlyFor _ _ _ _ hout
    · exact hout

/-! ## Runs -/

/-- The accept of an event finds the slot of its new flow free when `CB_CONNECTED` comes
back. -/
def Direct (h : Handler σ) (p : SockCommu × σ) (ev : Event) : Prop :=
  ∀ r, ev = .ready r → p.1.Bound r.fd → r.epollin = true → p.1.sockbind r.fd ≠ udpSocket →
    ∀ clifd, r.accept.fd = some clifd → p.1.kernel.opened clifd = false →
      SlotFree h p.1 p.2 clifd

/-- One event, which also gives each slot the flow that its connection is announced with. -/
def nameStep (h : Handler σ) (q : (SockCommu × σ × List Notice) × (ℕ → Option ℕ)) (ev : Event) :
    ((SockCommu × σ × List Notice) × (ℕ → Option ℕ)) × ℤ :=
  let (p, code) := step (recorded h) q.1 ev
  let names := match (stored p.1.calls).drop (stored q.1.1.calls).length with
    | (g, _, _) :: _ => Function.update q.2 (g % p.1.connset.maxconn)
        (announced (p.2.2.drop q.1.2.2.length))
    | [] => q.2
  ((p, names), code)

/-- A connection is in the slot of its flow and has been announced under its flow, or is a
datagram that has not been announced. -/
def Named (q : (SockCommu × σ × List Notice) × (ℕ → Option ℕ)) : Prop :=
  ∀ i, (q.1.1.connset.ccs i).flow ≠ 0 →
    (q.1.1.connset.ccs i).flow % q.1.1.connset.maxconn = i ∧
      (q.2 i = some (q.1.1.connset.ccs i).flow ∨
        q.2 i = none ∧ (q.1.1.connset.ccs i).type = udpSocket)

/-- An event stores nothing, or it stores a connection that it announces under its own flow;
a datagram may go without. -/
theorem step_joins {p : SockCommu × σ × List Notice} {ev : Event}
    (hdirect : Direct (recorded h) p ev) (hlodged : Lodged (recorded h) p ev) :
    Fades p.1 (step (recorded h) p ev).1.1 ∨
      ∃ g fd type notices, Joins p.1 (step (recorded h) p ev).1.1 g fd type ∧
        (step (recorded h) p ev).1.2.2 = p.2.2 ++ notices ∧
        (announced notices = some g ∨ announced notices = none ∧ type = udpSocket) := by
  have hstable := fades_stable p.1
  cases ev with
  | ready r =>
    rw [step]
    dsimp only
    by_cases hbound : p.1.Bound r.fd
    · unfold Bound at hbound
      unfold handleReady
      rw [if_pos hbound]
      split
      · next hin =>
        split
        · next htype =>
          rcases handleAccept_joins p.1 p.2 r.fd r.accept with ⟨hfades, -, -⟩ |
            ⟨clifd, g, type, hfd, hopened, hfirst, hjoins, hlog, -⟩
          · exact .inl hfades
          · right
            have hfree : SlotFree (recorded h) p.1 p.2 clifd :=
              hdirect r rfl hbound hin htype clifd hfd hopened
            have hbump := u32_of_lt (bump_lt_pow p.1.flow)
            obtain rfl : bump p.1.flow = g := by
              refine FirstFree.unique ⟨0, ConnSet.pos _, hbump.symm, hfree, by simp⟩ hfirst
            exact ⟨_, clifd, type, _, hjoins, hlog, .inl rfl⟩
        · obtain ⟨notices, hlog, hfades | ⟨g, hjoins, hname⟩⟩ :=
            handleAcceptUdp_joins (h := h) p.1 p.2 r.fd r.recv
          · exact .inl hfades
          · right
            refine ⟨g, r.fd, udpSocket, notices, hjoins, hlog, ?_⟩
            cases hannounced : announced notices with
            | none => exact .inr ⟨rfl, rfl⟩
            | some flow =>
              rw [hname flow (by simp [hannounced])]
              exact .inl rfl
      · exact .inl (.of_eq rfl rfl)
    · left
      unfold Bound at hbound
      unfold handleReady
      rw [if_neg hbound]
      split
      · exact hstable.callback (hstable.closeconn _ _ (.of_eq rfl rfl)) _ _
      · have hout : Fades p.1
            (if r.epollout then pollOut (recorded h) p.1 p.2 r else (p.1, p.2)).1 := by
          split
          · exact hstable.pollOut (.of_eq rfl rfl) p.2 r
          · exact .of_eq rfl rfl
        dsimp only
        split
        · exact hstable.recvLoop _ _ _ _ _ hout
        · exact hout
  | sendto c => exact .inl (hstable.sendto _ (.of_eq rfl rfl) c)
  | connect type ans =>
    rcases connect_joins (hlodged.connected type ans rfl) with hfades | ⟨g, notices, hjoins, hlog, hname⟩
    · exact .inl hfades
    · exact .inr ⟨g, ans.fd, type, notices, hjoins, hlog, .inl hname⟩
  | checkExpire now => exact .inl (hstable.checkExpire (.of_eq rfl rfl) p.2 now)

theorem Named.step {q : (SockCommu × σ × List Notice) × (ℕ → Option ℕ)} (hq : Named q)
    {ev : Event} (hdirect : Direct (recorded h) q.1 ev) (hlodged : Lodged (recorded h) q.1 ev) :
    Named (nameStep h q ev).1 := by
  obtain ⟨p, names⟩ := q
  obtain ⟨p', hp'⟩ : ∃ p', p' = (SockCommu.step (recorded h) p ev).1 := ⟨_, rfl⟩
  have hnames : (nameStep h (p, names) ev).1 =
      (p', match (stored p'.1.calls).drop (stored p.1.calls).length with
        | (g, _, _) :: _ => Function.update names (g % p'.1.connset.maxconn)
            (announced (p'.2.2.drop p.2.2.length))
        | [] => names) := by
    rw [hp']
    rfl
  rw [hnames]
  rcases step_joins hdirect hlodged with hfades | ⟨g, fd, type, notices, hjoins, hlog, hname⟩
  · rw [← hp'] at hfades
    have hnone : (stored p'.1.calls).drop (stored p.1.calls).length = [] := by
      rw [hfades.calls, List.drop_length]
    rw [hnone]
    intro i hi
    rcases hfades.slot i with hsame | hzero
    · change (p'.1.connset.ccs i).flow % p'.1.connset.maxconn = i ∧
        (names i = some (p'.1.connset.ccs i).flow ∨
          names i = none ∧ (p'.1.connset.ccs i).type = udpSocket)
      rw [hfades.maxconn, hsame.flow, hsame.type]
      refine hq i ?_
      change (p.1.connset.ccs i).flow ≠ 0
      rw [← hsame.flow]
      exact hi
    · exact absurd hzero hi
  · rw [← hp'] at hjoins hlog
    have hnew : (stored p'.1.calls).drop (stored p.1.calls).length = [(g, fd, type)] := by
      rw [hjoins.calls, List.drop_left]
    have hlast : p'.2.2.drop p.2.2.length = notices := by rw [hlog, List.drop_left]
    rw [hnew, hlast]
    intro i hi
    change (p'.1.connset.ccs i).flow ≠ 0 at hi
    change (p'.1.connset.ccs i).flow % p'.1.connset.maxconn = i ∧
      (Function.update names (g % p'.1.connset.maxconn) (announced notices) i =
          some (p'.1.connset.ccs i).flow ∨
        Function.update names (g % p'.1.connset.maxconn) (announced notices) i = none ∧
          (p'.1.connset.ccs i).type = udpSocket)
    by_cases hslot : i = g % p'.1.connset.maxconn
    · subst hslot
      have hself : p'.1.connset.ccs (g % p'.1.connset.maxconn) = p'.1.connset.getcc g := rfl
      rw [hself] at hi ⊢
      obtain ⟨hflow, -, htype⟩ := hjoins.own.resolve_right hi
      rw [Function.update_self, hflow, htype]
      exact ⟨rfl, hname⟩
    · rw [Function.update_of_ne hslot]
      rcases hjoins.slot i (by rw [← hjoins.maxconn]; exact hslot) with hsame | hzero
      · rw [hjoins.maxconn, hsame.flow, hsame.type]
        refine hq i ?_
        change (p.1.connset.ccs i).flow ≠ 0
        rw [← hsame.flow]
        exact hi
      · exact absurd hzero hi

/-- The connection of every stream has been announced under the flow that it is stored and
registered with, no two connections were announced alike, and what epoll reports for a
stream leads to calls for its announced flow only. -/
structure Truthful (h : Handler σ) (q : (SockCommu × σ × List Notice) × (ℕ → Option ℕ)) : Prop where
  lives : ∀ i, Stream (q.1.1.connset.ccs i) → q.2 i = some (q.1.1.connset.ccs i).flow ∧
    ∃ mask, q.1.1.kernel.epoll (q.1.1.connset.ccs i).fd =
      some ⟨(q.1.1.connset.ccs i).flow, mask⟩
  once : ∀ i j flow, (q.1.1.connset.ccs i).flow ≠ 0 → (q.1.1.connset.ccs j).flow ≠ 0 →
    q.2 i = some flow → q.2 j = some flow → i = j
  reported : ∀ r i, ¬ q.1.1.Bound r.fd → Stream (q.1.1.connset.ccs i) →
    (q.1.1.connset.ccs i).fd = r.fd →
    (∃ mask, q.1.1.kernel.epoll r.fd = some ⟨r.flow, mask⟩) →
    ∃ flow, q.2 i = some flow ∧
      OnlyFor flow q.1.2.2 (step (recorded h) q.1 (.ready r)).1.2.2

theorem Named.truthful {q : (SockCommu × σ × List Notice) × (ℕ → Option ℕ)} (hq : Named q)
    {e : ℕ → Prop} (hw : Wired e q.1.1) : Truthful h q := by
  have hlives : ∀ i, Stream (q.1.1.connset.ccs i) → q.2 i = some (q.1.1.connset.ccs i).flow ∧
      ∃ mask, q.1.1.kernel.epoll (q.1.1.connset.ccs i).fd =
        some ⟨(q.1.1.connset.ccs i).flow, mask⟩ := by
    intro i hi
    obtain ⟨mask, hreg, -⟩ := hw.registered i hi
    rcases (hq i hi.1).2 with hname | ⟨-, htype⟩
    · exact ⟨hname, mask, hreg⟩
    · exact absurd htype hi.2
  refine ⟨hlives, ?_, ?_⟩
  · intro i j flow hi hj hnamei hnamej
    have hown : ∀ k, (q.1.1.connset.ccs k).flow ≠ 0 → q.2 k = some flow →
        flow % q.1.1.connset.maxconn = k := by
      intro k hk hname
      obtain ⟨hslot, hsome | ⟨hnone, -⟩⟩ := hq k hk
      · rw [hname] at hsome
        rw [Option.some.inj hsome]
        exact hslot
      · rw [hname] at hnone
        cases hnone
    rw [← hown i hi hnamei, hown j hj hnamej]
  · rintro r i hbound hi hfd ⟨mask, hreported⟩
    obtain ⟨hname, mask', hreg⟩ := hlives i hi
    rw [hfd, hreported] at hreg
    have hflow : r.flow = (q.1.1.connset.ccs i).flow :=
      congrArg Registration.flow (Option.some.inj hreg)
    refine ⟨_, hname, ?_⟩
    rw [← hflow]
    exact handleReady_onlyFor q.1.1 q.1.2 r hbound

/-- An accepted connection lives under the flow that was announced exactly when the slot of
that flow is free when the callback comes back; and in every run in which this is so, and
which leaks no connection, the announced flows are those of the connections throughout. -/
theorem announced_flow (h : Handler σ) :
    (∀ s u fd ans clifd, ans.fd = some clifd → s.kernel.opened clifd = false →
      (handleAccept (recorded h) s u fd ans).1.kernel.epoll clifd ≠ none →
      (LivesAsAnnounced h s u fd ans clifd ↔ SlotFree (recorded h) s u clifd)) ∧
    ∀ (u : σ) (maxconn : ℕ) (pos : 0 < maxconn) (bound : maxconn < 2 ^ 31) (sockbind : ℕ → ℕ)
      (maxbindfd : ℕ) (expiretime interval now : ℤ) (events : List Event),
      Run.Always (nameStep h) (fun q ev => Direct (recorded h) q.1 ev ∧ Lodged (recorded h) q.1 ev)
        ((init maxconn pos bound sockbind maxbindfd expiretime interval now, u, []),
          fun _ => none) events →
      ∀ pre, pre <+: events → Truthful h (Run.final (nameStep h)
        ((init maxconn pos bound sockbind maxbindfd expiretime interval now, u, []),
          fun _ => none) pre) := by
  refine ⟨fun s u fd ans clifd hfd hopened hreg => livesAsAnnounced_iff hfd hopened hreg, ?_⟩
  intro u maxconn pos bound sockbind maxbindfd expiretime interval now events hrun pre hpre
  have hinit := Wired.init (e := fun _ => True) maxconn pos bound sockbind maxbindfd expiretime
    interval now
  have hstep : ∀ (q : (SockCommu × σ × List Notice) × (ℕ → Option ℕ)) ev,
      Named q ∧ Wired (fun _ => True) q.1.1 →
      Direct (recorded h) q.1 ev ∧ Lodged (recorded h) q.1 ev →
      Named (nameStep h q ev).1 ∧ Wired (fun _ => True) (nameStep h q ev).1.1.1 := by
    rintro q ev ⟨hq, hw⟩ ⟨hdirect, hlodged⟩
    exact ⟨hq.step hdirect hlodged, (hw.lodgedStep ev hlodged).wired (.inl fun _ => trivial)⟩
  obtain ⟨hq, hw⟩ := Run.invariant hstep ⟨fun i hi => absurd rfl hi, hinit⟩ (hrun.of_prefix hpre)
  exact hq.truthful hw

/-- A stream is accepted on descriptor 5, and lives under flow 1. -/
theorem announced_flow_first :
    let s := init 2 (by decide) (by decide) (fun fd => if fd = 3 then 1 else 0) 3 60 60 0
    LivesAsAnnounced (fun _ _ => ((), ⟨[], 0⟩)) s ((), []) 3 ⟨some 5, true, true, 0⟩ 5 := by
  intro s
  have hiff := (announced_flow fun (_ : Unit) _ => ((), ⟨[], 0⟩)).1 s ((), [])
  have hopened : s.kernel.opened 5 = false := by decide +kernel
  have hreg : (handleAccept (recorded fun (_ : Unit) _ => ((), ⟨[], 0⟩)) s ((), []) 3
      ⟨some 5, true, true, 0⟩).1.kernel.epoll 5 ≠ none := by decide +kernel
  have hfree : SlotFree (recorded fun (_ : Unit) _ => ((), ⟨[], 0⟩)) s ((), []) 5 := by
    unfold SlotFree
    decide +kernel
  exact (hiff 3 ⟨some 5, true, true, 0⟩ 5 rfl hopened hreg).mpr hfree

/-- Two streams are accepted, and the second is closed.  The next is announced under flow 3,
whose slot is taken by the first, and lives under flow 4. -/
theorem not_livesAsAnnounced_moved :
    let h : Handler Unit := fun _ _ => ((), ⟨[], 0⟩)
    let accept := fun clifd => Event.ready {
      fd := 3, flow := 0, epollin := true, epollout := false
      accept := ⟨some clifd, true, true, 0⟩, recv := ⟨.fail 11, .exact, 0⟩
      flush := .fail 11, recvs := [], now := 0 }
    let s := (Run.final (step h)
      (init 2 (by decide) (by decide) (fun fd => if fd = 3 then 1 else 0) 3 60 60 0, ())
      [accept 5, accept 6, .sendto ⟨2, ⟨[], by decide⟩, .sent 0, .sent 0, .exact, 0, []⟩]).1
    let p := handleAccept (recorded h) s ((), []) 3 ⟨some 6, true, true, 0⟩
    p.1.kernel.epoll 6 = some ⟨4, maskIn⟩ ∧ (p.1.connset.getcc 4).fd = 6 ∧
      announced p.2.2 = some 3 ∧
      ¬ LivesAsAnnounced h s ((), []) 3 ⟨some 6, true, true, 0⟩ 6 := by
  intro h accept s p
  have hepoll : p.1.kernel.epoll 6 = some ⟨4, maskIn⟩ := by decide +kernel
  have hannounced : announced p.2.2 = some 3 := by decide +kernel
  have hown : (p.1.connset.getcc 4).fd = 6 := by decide +kernel
  have hopened : s.kernel.opened 6 = false := by decide +kernel
  have hreg : (handleAccept (recorded h) s ((), []) 3 ⟨some 6, true, true, 0⟩).1.kernel.epoll 6 ≠
      none := by decide +kernel
  have hbusy : ¬ SlotFree (recorded h) s ((), []) 6 := by
    unfold SlotFree
    decide +kernel
  have hiff : LivesAsAnnounced h s ((), []) 3 ⟨some 6, true, true, 0⟩ 6 ↔
      SlotFree (recorded h) s ((), []) 6 := livesAsAnnounced_iff rfl hopened hreg
  exact ⟨hepoll, hown, hannounced, fun hlives => hbusy (hiff.mp hlives)⟩

end SockCommu
end Spp
