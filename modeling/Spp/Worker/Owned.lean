import Spp.Worker.Backend

/-!
# What the connection manager knows

A connection that the manager knows for a node has the node's type, and its descriptor has been
connected to the node's address or to nothing.  Every event keeps this, as long as no descriptor
is handed out that a connection in the table still has, and no flow is used again that is still
registered.

## Main definitions

* `Steady` — every callback but that for `CB_CONNECT` keeps a property.
* `Connects` — `connect` succeeds.
* `Backend.Owned` — what the manager knows is right.
* `Backend.Fresh` — the descriptor and the flow of a new connection are its own.
-/

namespace Spp

open ConnSet SockCommu

/-! ## The component -/

namespace SockCommu

variable {σ : Type} {h : Handler σ} {s s' : SockCommu} {u : σ} {f : ℕ}

/-- A live connection of a table that has faded has been there before. -/
theorem Fades.live (hfades : Fades s s') (hlive : s'.connset.Live f) :
    s.connset.Live f ∧ (s'.connset.getcc f).fd = (s.connset.getcc f).fd ∧
      (s'.connset.getcc f).type = (s.connset.getcc f).type := by
  have hslot := hfades.slot (f % s.connset.maxconn)
  have hcc : s'.connset.getcc f = s'.connset.ccs (f % s.connset.maxconn) := by
    rw [getcc, hfades.maxconn]
  rw [Live, hcc] at hlive
  rw [hcc]
  cases hslot with
  | inl hsame => exact ⟨⟨hsame.flow.symm.trans hlive.1, hlive.2⟩, hsame.fd, hsame.type⟩
  | inr hzero => exact absurd (hlive.1.symm.trans hzero) hlive.2

/-- So has one of a table that another connection has joined, but for that one. -/
theorem Joins.live {g fd type : ℕ} (hjoins : Joins s s' g fd type) (hlive : s'.connset.Live f) :
    f = g ∧ (s'.connset.getcc f).fd = fd ∧ (s'.connset.getcc f).type = type ∨
      s.connset.Live f ∧ (s'.connset.getcc f).fd = (s.connset.getcc f).fd ∧
        (s'.connset.getcc f).type = (s.connset.getcc f).type := by
  have hcc : ∀ f, s'.connset.getcc f = s'.connset.ccs (f % s.connset.maxconn) := by
    intro f
    rw [getcc, hjoins.maxconn]
  by_cases hslot : f % s.connset.maxconn = g % s.connset.maxconn
  · left
    have hown : s'.connset.getcc f = s'.connset.getcc g := by
      rw [hcc, hcc, hslot]
    rw [Live, hown] at hlive
    rw [hown]
    cases hjoins.own with
    | inl hg => exact ⟨hlive.1.symm.trans hg.1, hg.2⟩
    | inr hzero => exact absurd (hlive.1.symm.trans hzero) hlive.2
  · right
    rw [Live, hcc] at hlive
    rw [hcc]
    cases hjoins.slot _ hslot with
    | inl hsame => exact ⟨⟨hsame.flow.symm.trans hlive.1, hlive.2⟩, hsame.fd, hsame.type⟩
    | inr hzero => exact absurd (hlive.1.symm.trans hzero) hlive.2

/-- No descriptor listens, and no event changes that. -/
def Deaf (s : SockCommu) : Prop := s.sockbind = fun _ => 0

theorem deaf_stable : Stable Deaf where
  byFlow _ _ _ _ hs := hs
  skipRead _ _ _ hs := hs
  closeconn s f hs := by
    unfold SockCommu.closeconn
    dsimp only
    split <;> exact hs
  modify _ _ _ _ hs := hs
  history _ _ _ _ hs := hs

theorem Deaf.not_bound (hs : s.Deaf) (fd : ℕ) : ¬ s.Bound fd := by
  intro hbound
  have hzero : s.sockbind = fun _ => 0 := hs
  exact hbound.2 (by rw [hzero])

/-- An element of an epoll result of a descriptor that does not listen. -/
theorem Stable.handleReady {J : SockCommu → Prop} (hJ : Stable J) (hs : J s) (u : σ) (ev : Ready)
    (hbound : ¬ s.Bound ev.fd) : J (handleReady h s u ev).1 := by
  unfold SockCommu.handleReady
  split
  next hb => exact absurd hb hbound
  split
  · exact hJ.callback (hJ.closeconn _ _ hs) _ _
  · have hout : J (if ev.epollout then SockCommu.pollOut h s u ev else (s, u)).1 := by
      split
      · exact hJ.pollOut hs u ev
      · exact hs
    dsimp only
    split
    · exact hJ.recvLoop _ _ _ _ _ hout
    · exact hout

/-! ### The user's state -/

/-- Every callback but that for `CB_CONNECT` keeps the property. -/
def Steady (h : Handler σ) (Q : σ → Prop) : Prop :=
  ∀ u n, (∀ f, n ≠ .connect f) → Q u → Q (h u n).1

namespace Steady

variable {Q : σ → Prop}

theorem pollOut (hQ : Steady h Q) (s : SockCommu) (hu : Q u) (ev : Ready) :
    Q (SockCommu.pollOut h s u ev).2 := by
  unfold SockCommu.pollOut
  dsimp only
  split
  · exact hu
  · split
    · exact hQ _ _ nofun hu
    · exact hu

theorem recvLoop (hQ : Steady h Q) (flow : ℕ) (now : ℤ) (answers : List RecvAnswer) :
    ∀ s u, Q u → Q (SockCommu.recvLoop h flow now s u answers).2 := by
  induction answers with
  | nil =>
      intro s u hu
      exact hu
  | cons ans rest ih =>
      intro s u hu
      have hdata := hQ u (.recvdata flow
        ((s.call (.recv flow ans.k ans.alloc ans.now)).1.connset.getcc flow).r.content) (by simp) hu
      unfold SockCommu.recvLoop
      dsimp only
      split
      · split
        · exact ih _ _ hdata
        · split
          · exact ih _ _ (hQ _ _ (by simp) hdata)
          · exact hdata
      · split
        · exact hQ _ _ (by simp) hu
        · exact hu

theorem handleReady (hQ : Steady h Q) (hu : Q u) (ev : Ready) (hbound : ¬ s.Bound ev.fd) :
    Q (SockCommu.handleReady h s u ev).2 := by
  unfold SockCommu.handleReady
  split
  next hb => exact absurd hb hbound
  split
  · exact hQ _ _ nofun hu
  · have hout : Q (if ev.epollout then SockCommu.pollOut h s u ev else (s, u)).2 := by
      split
      · exact hQ.pollOut s hu ev
      · exact hu
    dsimp only
    split
    · exact hQ.recvLoop _ _ _ _ _ hout
    · exact hout

theorem closeExpired (hQ : Steady h Q) (flows : List ℕ) :
    ∀ s u, Q u → Q (SockCommu.closeExpired h s u flows).2 := by
  induction flows with
  | nil =>
      intro s u hu
      exact hu
  | cons flow flows ih =>
      intro s u hu
      exact ih _ _ (hQ _ _ nofun hu)

theorem checkExpire (hQ : Steady h Q) (s : SockCommu) (hu : Q u) (now : ℤ) :
    Q (SockCommu.checkExpire h s u now).2 := by
  unfold SockCommu.checkExpire
  dsimp only
  split
  · exact hu
  · split
    · exact hQ.closeExpired _ _ _ hu
    · exact hu

end Steady

/-! ### Connecting -/

/-- The state of the user after `connect`, which has stored its connection under `g` or not. -/
inductive Called (h : Handler σ) (u : σ) : Option ℕ → σ → Prop
  | none : Called h u none u
  | overload : Called h u none (h u .overload).1
  | unregistered (g : ℕ) : Called h u (some g) u
  | connect (g : ℕ) : Called h u (some g) (h u (.connect g)).1
  | connected (g : ℕ) : Called h u (some g) (h (h u (.connect g)).1 (.connected g [])).1

/-- `connect` fails before its connection is stored, or stores it under the flow where the
search ends. -/
theorem connect_cases (s : SockCommu) (u : σ) (type : ℕ) (ans : ConnectAnswer) :
    (Fades s (connect h s u type ans).2.1 ∧ Called h u none (connect h s u type ans).2.2) ∨
      ∃ g, s.kernel.opened ans.fd = false ∧ s.connset.FirstFree (bump s.flow) g ∧
        Joins s (connect h s u type ans).2.1 g ans.fd type ∧
        Called h u (some g) (connect h s u type ans).2.2 := by
  unfold connect
  split
  · exact .inl ⟨.of_eq rfl rfl, .none⟩
  split
  · exact .inl ⟨.of_eq rfl rfl, .none⟩
  next hopened =>
  obtain ⟨s₀, hs₀⟩ : ∃ s₀, s₀ = (s.openFd ans.fd).bumpFlow := ⟨_, rfl⟩
  have hflow₀ : s₀.flow = bump s.flow := by rw [hs₀]; rfl
  have hfades₀ : Fades s s₀ := by rw [hs₀]; exact .of_eq rfl rfl
  have htable₀ : s₀.connset = s.connset := by rw [hs₀]; rfl
  have hsearch := addconn_firstFree s₀ (hflow₀.trans_lt (bump_lt_pow s.flow)) ans.fd type ans.now
  obtain ⟨s₁, hs₁⟩ : ∃ s₁, s₁ = (s₀.addconn ans.fd type ans.now).1 := ⟨_, rfl⟩
  simp only [← hs₀, ← hs₁]
  rw [← hs₁] at hsearch
  rcases hsearch with ⟨g, hfirst, hstored, hg, hstore, hcalls⟩ | ⟨-, hfull, hsame, g, hcalls⟩
  · right
    rw [htable₀, hflow₀] at hfirst
    have hjoins : Joins s s₁ g ans.fd type := hfades₀.joins (.of_store hstore hcalls)
    have hstable := fades_stable (s₁.add ans.fd g maskIn)
    have hadd : Joins s (s₁.add ans.fd g maskIn) g ans.fd type := hjoins.fades (.of_eq rfl rfl)
    have hconnect := hstable.callback (h := h) (.of_eq rfl rfl) u (.connect g)
    have hconnected := hstable.callback (h := h) hconnect (h u (.connect g)).1 (.connected g [])
    refine ⟨g, by simpa using hopened, hfirst, ?_⟩
    rw [if_neg (by simpa using hstored)]
    simp only [add_flow, callback_flow, callback_ret, callback_user, hg]
    split
    · exact ⟨hjoins.fades (.of_eq rfl rfl), .unregistered g⟩
    split
    · exact ⟨(hadd.fades hconnect).fades (.of_eq rfl rfl), .connect g⟩
    split
    · exact ⟨(hadd.fades hconnected).fades (.of_eq rfl rfl), .connected g⟩
    · exact ⟨hadd.fades hconnected, .connected g⟩
  · left
    have hfades : Fades s (s₁.closeFd ans.fd) :=
      (hfades₀.trans (.of_full hsame hcalls)).trans (.of_eq (closeFd_connset _ _) rfl)
    rw [if_pos hfull]
    exact ⟨(fades_stable s).callback hfades u .overload, .overload⟩

/-- The search finds a slot, the epoll `add` succeeds, and no callback refuses. -/
def Connects (h : Handler σ) (s : SockCommu) (u : σ) (type : ℕ) (ans : ConnectAnswer) : Prop :=
  type ≠ 0 ∧ s.kernel.opened ans.fd = false ∧ ∃ g, s.connset.FirstFree (bump s.flow) g ∧
    ans.added = true ∧ (h u (.connect g)).2.ret = 0 ∧
    (h (h u (.connect g)).1 (.connected g [])).2.ret = 0

/-- Then `connect` succeeds. -/
theorem Connects.connect {type : ℕ} {ans : ConnectAnswer} (hc : Connects h s u type ans) :
    (connect h s u type ans).1 = 0 := by
  obtain ⟨htype, hopened, g', hfirst', hadded, hconnect, hconnected⟩ := hc
  unfold SockCommu.connect
  rw [if_neg htype, if_neg (by simpa using hopened)]
  obtain ⟨s₀, hs₀⟩ : ∃ s₀, s₀ = (s.openFd ans.fd).bumpFlow := ⟨_, rfl⟩
  have hflow₀ : s₀.flow = bump s.flow := by rw [hs₀]; rfl
  have htable₀ : s₀.connset = s.connset := by rw [hs₀]; rfl
  have hsearch := addconn_firstFree s₀ (hflow₀.trans_lt (bump_lt_pow s.flow)) ans.fd type ans.now
  rw [htable₀, hflow₀] at hsearch
  simp only [← hs₀]
  rcases hsearch with ⟨g, hfirst, hstored, hg, -⟩ | ⟨hnone, -⟩
  · rw [hfirst'.unique hfirst] at hconnect hconnected
    simp [hstored, hg, hadded, hconnect, hconnected]
  · exact absurd hfirst' (hnone g')

/-- `connect` lets no descriptor listen. -/
theorem Deaf.connect (hs : s.Deaf) (u : σ) (type : ℕ) (ans : ConnectAnswer) :
    (SockCommu.connect h s u type ans).2.1.Deaf := by
  have hadd : ((s.openFd ans.fd).bumpFlow.addconn ans.fd type ans.now).1.Deaf := by
    obtain ⟨g, -, hcases⟩ := addconn_cases (s.openFd ans.fd).bumpFlow ans.fd type ans.now
    cases hcases with
    | inl hfail =>
        rw [hfail.2]
        exact hs
    | inr hstore =>
        rw [hstore.2.2]
        exact hs
  unfold SockCommu.connect
  split
  · exact hs
  split
  · exact hs
  dsimp only
  split
  · apply deaf_stable.callback
    exact hadd
  split
  · exact hadd
  split
  · apply deaf_stable.callback
    exact hadd
  split
  all_goals
    apply deaf_stable.callback
    apply deaf_stable.callback
    exact hadd

end SockCommu

/-! ## The worker -/

namespace CommuMng

/-- `RMConn` registers nothing. -/
theorem at?_of_rmConn {m : CommuMng} {t n f g : ℕ} (h : (m.rmConn f).2.at? t n = some g) :
    m.at? t n = some g := by
  cases hfind : m.findFlow f with
  | none =>
      rw [rmConn, hfind] at h
      exact h
  | some p =>
      rw [at?_erase hfind] at h
      split at h
      · cases h
      · exact h

end CommuMng

variable {α υ : Type} {user : Handler (Payload × υ)} {config : Option (RouteConfig α)}
  {w w' : Backend α υ} {node : NodeInfo α}

/-- Only `CB_CONNECT` registers a flow. -/
theorem ctorHandler_steady (user : Handler (Payload × υ)) (m : CommuMng) :
    Steady (ctorHandler (α := α) user) fun b => ∀ t n f, b.commuMng.at? t n = some f →
      m.at? t n = some f := by
  intro b notice hne hb
  cases notice with
  | connect flow => exact absurd rfl (hne flow)
  | disconnect flow => exact fun t n f h => hb t n f (CommuMng.at?_of_rmConn h)
  | connected => exact hb
  | recvdata => exact hb
  | recvdone => exact hb
  | senderror => exact hb
  | overload => exact hb
  | timeout => exact hb

/-- What is registered after `connect`: the new flow, or what was there. -/
theorem SockCommu.Called.at? {b b' : CtorState α υ} {g : Option ℕ} (hb : b.extdata = some node)
    (hcalled : Called (ctorHandler user) b g b') {t n f : ℕ}
    (h : b'.commuMng.at? t n = some f) :
    g = some f ∧ t = node.servType ∧ n = node.nodeId ∨ b.commuMng.at? t n = some f := by
  have hadd : ∀ g, ((b.ctorConnect g).commuMng.at? t n = some f) →
      some g = some f ∧ t = node.servType ∧ n = node.nodeId ∨ b.commuMng.at? t n = some f := by
    intro g h
    simp only [CtorState.ctorConnect, hb, CommuMng.at?_addConn] at h
    split at h
    next heq => exact .inl ⟨h, heq⟩
    next => exact .inr h
  cases hcalled with
  | none => exact .inr h
  | overload => exact .inr h
  | unregistered => exact .inr h
  | connect g => exact hadd g h
  | connected g => exact hadd g h

/-! ## What the manager knows -/

/-- A live connection that is registered for a node has the node's type, and its descriptor has
been connected to the node or to nothing. -/
def Backend.Owned (config : Option (RouteConfig α)) (w : Backend α υ) : Prop :=
  ∀ t n f, w.ctor.commuMng.at? t n = some f → w.sock.connset.Live f →
    ∃ node, nodeOf config t n = some node ∧
      (w.sock.connset.getcc f).type = node.type.code ∧
      ∀ a, w.peer (w.sock.connset.getcc f).fd = some a → a = node.addr

theorem Backend.Owned.fades (h : w.Owned config) (hfades : Fades w.sock w'.sock)
    (hpeer : w'.peer = w.peer)
    (hat : ∀ t n f, w'.ctor.commuMng.at? t n = some f → w.ctor.commuMng.at? t n = some f) :
    w'.Owned config := by
  intro t n f hf hlive
  obtain ⟨hlive', hfd, htype⟩ := hfades.live hlive
  obtain ⟨node, hnode, htype', hpeer'⟩ := h t n f (hat t n f hf) hlive'
  refine ⟨node, hnode, htype.trans htype', ?_⟩
  rw [hpeer, hfd]
  exact hpeer'

/-- No live connection has the descriptor that `connect` gets, and no other node is registered
with the flow that it takes. -/
structure Backend.Fresh (w : Backend α υ) (node : NodeInfo α) (ans : ConnectAnswer) : Prop where
  fd : ∀ f, w.sock.connset.Live f → (w.sock.connset.getcc f).fd ≠ ans.fd
  flow : ∀ g, w.sock.connset.FirstFree (bump w.sock.flow) g →
    ∀ t n, w.ctor.commuMng.at? t n = some g → t = node.servType ∧ n = node.nodeId

theorem Backend.Owned.connect (h : w.Owned config) {ans : ConnectAnswer} (linked : Bool)
    (hnode : nodeOf config node.servType node.nodeId = some node) (hfresh : w.Fresh node ans) :
    (w.connect user node ans linked).2.Owned config := by
  have hcases := connect_cases (h := ctorHandler user) w.sock
    { w.ctor with extdata := some node } node.type.code ans
  -- an older connection has another descriptor
  have hkept : ∀ fd, fd ≠ ans.fd → (w.connect user node ans linked).2.peer fd = w.peer fd := by
    intro fd hne
    simp only [Backend.connect]
    split
    · rfl
    · exact Function.update_of_ne hne _ _
  have hold : ∀ t n f, w.ctor.commuMng.at? t n = some f → w.sock.connset.Live f →
      ((w.connect user node ans linked).2.sock.connset.getcc f).fd =
        (w.sock.connset.getcc f).fd →
      ((w.connect user node ans linked).2.sock.connset.getcc f).type =
        (w.sock.connset.getcc f).type →
      ∃ node', nodeOf config t n = some node' ∧
        ((w.connect user node ans linked).2.sock.connset.getcc f).type = node'.type.code ∧
        ∀ a, (w.connect user node ans linked).2.peer
          ((w.connect user node ans linked).2.sock.connset.getcc f).fd = some a →
            a = node'.addr := by
    intro t n f hf hlive hfd htype
    rw [hfd, htype, hkept _ (hfresh.fd f hlive)]
    exact h t n f hf hlive
  intro t n f hf hlive
  cases hcases with
  | inl hfades =>
      obtain ⟨hlive', hfd, htype⟩ := hfades.1.live hlive
      cases hfades.2.at? rfl hf with
      | inl hnew => cases hnew.1
      | inr hf => exact hold t n f hf hlive' hfd htype
  | inr hjoins =>
      obtain ⟨g, hopened, hfirst, hjoins, hcalled⟩ := hjoins
      have hfree : ¬ w.sock.connset.Live g := by
        obtain ⟨k, -, -, hzero, -⟩ := hfirst
        intro hg
        exact hg.2 (hg.1.symm.trans hzero)
      cases hjoins.live hlive with
      | inl hown =>
          obtain ⟨rfl, hfd, htype⟩ := hown
          have hkey : t = node.servType ∧ n = node.nodeId := by
            cases hcalled.at? rfl hf with
            | inl hnew => exact hnew.2
            | inr hf => exact hfresh.flow f hfirst t n hf
          refine ⟨node, by rw [hkey.1, hkey.2]; exact hnode, htype, ?_⟩
          intro a ha
          have hpeer : (w.connect user node ans linked).2.peer ans.fd =
              if linked = true ∧ node.type ≠ .unix then some node.addr else none := by
            simp [Backend.connect, hopened]
          change (w.connect user node ans linked).2.peer
            ((w.connect user node ans linked).2.sock.connset.getcc f).fd = some a at ha
          have hfd' : ((w.connect user node ans linked).2.sock.connset.getcc f).fd = ans.fd := hfd
          rw [hfd', hpeer] at ha
          split at ha
          · exact (Option.some.inj ha).symm
          · cases ha
      | inr hlive' =>
          cases hcalled.at? rfl hf with
          | inl hnew =>
              rw [Option.some.injEq] at hnew
              exact absurd (hnew.1 ▸ hlive'.1) hfree
          | inr hf => exact hold t n f hf hlive'.1 hlive'.2.1 hlive'.2.2

end Spp
