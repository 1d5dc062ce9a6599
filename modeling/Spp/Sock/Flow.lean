import Spp.Sock.SockCommu

/-!
# Flow numbers

As long as the flow counter has not wrapped, a flow is stored at most once in a run, and
a later call with it finds the entry that was stored under it or, after that entry has
been closed, finds nothing and changes nothing.  So a late answer for a closed connection
does not reach the one that has taken its slot.

The statement is about the history of calls on the connection set, which holds every
call that the component makes, also those inside callbacks.

## Main definitions

* `stored`, `closed` — the connections that a history stored and closed.
* `Isolated` — what a call by flow finds.
* `History` — what the history says about the connection set.
-/

namespace Spp

open ConnSet

/-- The connection that a call stored: its flow, descriptor and type. -/
def storedBy : ConnOp × ConnOut → Option (ℕ × ℕ × ℕ)
  | (.addconn _ fd type _, out) => if out.ret = some 0 then some (out.flow, fd, type) else none
  | _ => none

/-- The flow that a call closed. -/
def closedBy : ConnOp × ConnOut → Option ℕ
  | (.closeconn flow, out) => if out.ret = some 0 then some flow else none
  | _ => none

def stored (calls : List (ConnOp × ConnOut)) : List (ℕ × ℕ × ℕ) := calls.filterMap storedBy

def closed (calls : List (ConnOp × ConnOut)) : List ℕ := calls.filterMap closedBy

/-- A call by flow on the connection set `c` after the history `calls`: it acts on the
entry that was stored under its flow, and on no other; or that entry does not exist or has
been closed, and the call is refused and changes nothing. -/
structure Isolated (c : ConnSet) (calls : List (ConnOp × ConnOut)) (op : ConnOp)
    (out : ConnOut) : Prop where
  found : ∀ fd type, (op.flow, fd, type) ∈ stored calls → op.flow ∉ closed calls →
    c.Live op.flow ∧ (c.getcc op.flow).fd = fd ∧ (c.getcc op.flow).type = type ∧
      out.ret ≠ some (-eNotFindfd) ∧
      ∀ i, i ≠ op.flow % c.maxconn → (c.exec op).1.ccs i = c.ccs i
  refused : (∀ fd type, (op.flow, fd, type) ∉ stored calls) ∨ op.flow ∈ closed calls →
    out.ret = some (-eNotFindfd) ∧ (c.exec op).1 = c

/-- The history stored each flow once and none above `flow`, and what is live is what was
stored and not closed. -/
structure Tracks (c : ConnSet) (flow : ℕ) (calls : List (ConnOp × ConnOut)) : Prop where
  nodup : ((stored calls).map Prod.fst).Nodup
  pos : ∀ e ∈ stored calls, e.1 ≠ 0
  le : ∀ e ∈ stored calls, e.1 ≤ flow
  entry : ∀ f fd type, (f, fd, type) ∈ stored calls → f ∉ closed calls →
    c.Live f ∧ (c.getcc f).fd = fd ∧ (c.getcc f).type = type
  live : ∀ f, c.Live f → (∃ fd type, (f, fd, type) ∈ stored calls) ∧ f ∉ closed calls
  was : ∀ f ∈ closed calls, ∃ fd type, (f, fd, type) ∈ stored calls

/-- The connection set `c` has come from `c₀` by the calls of the history, and every call
by flow was isolated. -/
structure Replays (c₀ c : ConnSet) (calls : List (ConnOp × ConnOut)) : Prop where
  trace : Run.trace exec c₀ (calls.map Prod.fst) = calls
  final : Run.final exec c₀ (calls.map Prod.fst) = c
  isolated : ∀ pre op out post, calls = pre ++ (op, out) :: post → op.ByFlow →
    Isolated (Run.final exec c₀ (pre.map Prod.fst)) pre op out

theorem stored_snoc (calls : List (ConnOp × ConnOut)) (call : ConnOp × ConnOut) :
    stored (calls ++ [call]) = stored calls ++ (storedBy call).toList := by
  rw [stored, List.filterMap_append]
  cases hcall : storedBy call <;> simp [stored, hcall]

theorem closed_snoc (calls : List (ConnOp × ConnOut)) (call : ConnOp × ConnOut) :
    closed (calls ++ [call]) = closed calls ++ (closedBy call).toList := by
  rw [closed, List.filterMap_append]
  cases hcall : closedBy call <;> simp [closed, hcall]

variable {c₀ c c' : ConnSet} {flow flow' : ℕ} {calls calls' : List (ConnOp × ConnOut)}

/-! ## A call more -/

/-- What a call by flow finds, from what is live. -/
theorem Tracks.isolated (h : Tracks c flow calls) {op : ConnOp} (hop : op.ByFlow) :
    Isolated c calls op (c.exec op).2 := by
  refine ⟨fun fd type hmem hopen => ?_, fun hgone => ?_⟩
  · obtain ⟨hlive, hfd, htype⟩ := h.entry _ fd type hmem hopen
    obtain ⟨cc, n, ret, wire, hspec⟩ := exec_of_live hop hlive
    rw [hspec.exec]
    exact ⟨hlive, hfd, htype, hspec.found, fun i hi => Function.update_of_ne hi _ _⟩
  · have hdead : ¬ c.Live op.flow := by
      intro hlive
      obtain ⟨⟨fd, type, hmem⟩, hopen⟩ := h.live _ hlive
      rcases hgone with hnever | hclosed
      · exact hnever fd type hmem
      · exact hopen hclosed
    rw [exec_of_not_live hop hdead]
    exact ⟨rfl, rfl⟩

/-- Nothing is stored or closed, and every connection stays the same one. -/
theorem Tracks.same (h : Tracks c flow calls) (hsame : ∀ f, (c.getcc f).Same (c'.getcc f))
    (hstored : stored calls' = stored calls) (hclosed : closed calls' = closed calls) :
    Tracks c' flow calls' := by
  have hlive : ∀ f, c'.Live f ↔ c.Live f := fun f => by
    rw [Live, Live, (hsame f).flow]
  refine ⟨?_, ?_, ?_, ?_, ?_, ?_⟩
  · rw [hstored]
    exact h.nodup
  · rw [hstored]
    exact h.pos
  · rw [hstored]
    exact h.le
  · intro f fd type
    rw [hstored, hclosed, hlive, (hsame f).fd, (hsame f).type]
    exact h.entry f fd type
  · intro f
    rw [hstored, hclosed, hlive]
    exact h.live f
  · rw [hstored, hclosed]
    exact h.was

/-- A live connection is closed: its slot is free, and the others stay what they are. -/
theorem Tracks.close {g : ℕ} (h : Tracks c flow calls) (hg : c.Live g)
    (hfree : ∀ f, f % c.maxconn = g % c.maxconn → (c'.getcc f).flow = 0)
    (hother : ∀ f, f % c.maxconn ≠ g % c.maxconn → c'.getcc f = c.getcc f)
    (hstored : stored calls' = stored calls) (hclosed : closed calls' = closed calls ++ [g]) :
    Tracks c' flow calls' := by
  refine ⟨?_, ?_, ?_, ?_, ?_, ?_⟩
  · rw [hstored]
    exact h.nodup
  · rw [hstored]
    exact h.pos
  · rw [hstored]
    exact h.le
  · intro f fd type
    rw [hstored, hclosed, List.mem_append, not_or, List.mem_singleton]
    rintro hmem ⟨hopen, hne⟩
    obtain ⟨hf, hfd, htype⟩ := h.entry f fd type hmem hopen
    have hslot : f % c.maxconn ≠ g % c.maxconn := by
      refine hf.slot_ne ?_
      rw [hg.1]
      exact fun heq => hne heq.symm
    rw [Live, hother f hslot]
    exact ⟨hf, hfd, htype⟩
  · intro f hf
    have hslot : f % c.maxconn ≠ g % c.maxconn := fun hslot => hf.2 (hf.1.symm.trans (hfree f hslot))
    rw [Live, hother f hslot] at hf
    obtain ⟨hmem, hopen⟩ := h.live f hf
    rw [hstored, hclosed, List.mem_append, not_or, List.mem_singleton]
    refine ⟨hmem, hopen, ?_⟩
    rintro rfl
    exact hslot rfl
  · intro f
    rw [hstored, hclosed, List.mem_append, List.mem_singleton]
    rintro (hf | rfl)
    · exact h.was f hf
    · exact (h.live _ hg).1

/-- A new connection is stored in a free slot, under a flow above all before. -/
theorem Tracks.store {g fd type : ℕ} (h : Tracks c flow calls) (hnew : flow < g)
    (hfree : (c.getcc g).flow = 0) (now : ℤ)
    (hstored : stored calls' = stored calls ++ [(g, fd, type)]) (hclosed : closed calls' = closed calls) :
    Tracks (c.store g fd type now).1 g calls' := by
  have hself : ∀ f, f % c.maxconn = g % c.maxconn → (c.store g fd type now).1.getcc f =
      { c.getcc g with flow := g, fd := fd, access := now, type := type } :=
    fun f hslot => getcc_setcc_of_eq hslot
  have hother : ∀ f, f % c.maxconn ≠ g % c.maxconn →
      (c.store g fd type now).1.getcc f = c.getcc f := fun f hslot => getcc_setcc_of_ne hslot
  have hfresh : ∀ e ∈ stored calls, e.1 ≠ g := by
    intro e he heq
    have hle := h.le e he
    omega
  refine ⟨?_, ?_, ?_, ?_, ?_, ?_⟩
  · rw [hstored, List.map_append]
    refine List.nodup_append.mpr ⟨h.nodup, by simp, ?_⟩
    intro f hf g' hg'
    obtain ⟨e, he, rfl⟩ := List.mem_map.mp hf
    rw [List.mem_singleton.mp hg']
    exact hfresh e he
  · intro e he
    rw [hstored, List.mem_append, List.mem_singleton] at he
    rcases he with he | rfl
    · exact h.pos e he
    · change g ≠ 0
      omega
  · intro e he
    rw [hstored, List.mem_append, List.mem_singleton] at he
    rcases he with he | rfl
    · exact (h.le e he).trans hnew.le
    · exact Nat.le_refl g
  · intro f fd' type'
    rw [hstored, hclosed, List.mem_append, List.mem_singleton]
    rintro (hmem | heq) hopen
    · obtain ⟨hf, hfd, htype⟩ := h.entry f fd' type' hmem hopen
      have hslot : f % c.maxconn ≠ g % c.maxconn := by
        refine hf.slot_ne ?_
        rw [hfree]
        exact hf.2.symm
      rw [Live, hother f hslot]
      exact ⟨hf, hfd, htype⟩
    · obtain ⟨rfl, rfl, rfl⟩ := by simpa using heq
      rw [Live, hself _ rfl]
      exact ⟨⟨rfl, by omega⟩, rfl, rfl⟩
  · intro f hf
    rw [hstored, hclosed]
    by_cases hslot : f % c.maxconn = g % c.maxconn
    · rw [Live, hself f hslot] at hf
      obtain rfl : g = f := hf.1
      refine ⟨⟨fd, type, by simp⟩, fun hmem => ?_⟩
      obtain ⟨fd', type', hwas⟩ := h.was _ hmem
      exact hfresh _ hwas rfl
    · rw [Live, hother f hslot] at hf
      obtain ⟨⟨fd', type', hmem⟩, hopen⟩ := h.live f hf
      exact ⟨⟨fd', type', List.mem_append_left _ hmem⟩, hopen⟩
  · intro f hf
    rw [hclosed] at hf
    obtain ⟨fd', type', hmem⟩ := h.was f hf
    rw [hstored]
    exact ⟨fd', type', List.mem_append_left _ hmem⟩

theorem Tracks.mono (h : Tracks c flow calls) (hle : flow ≤ flow') : Tracks c flow' calls :=
  { h with le := fun e he => (h.le e he).trans hle }

theorem Tracks.skipRead (h : Tracks c flow calls) (f length : ℕ) (out : ConnOut) :
    Tracks (c.skipRead f length) flow (calls ++ [(.skipRead f length, out)]) := by
  refine h.same (same_setcc ⟨rfl, rfl, rfl⟩) ?_ ?_
  · rw [stored_snoc]
    exact List.append_nil _
  · rw [closed_snoc]
    exact List.append_nil _

theorem Tracks.byFlow (h : Tracks c flow calls) {op : ConnOp} (hop : op.ByFlow) :
    Tracks (c.exec op).1 flow (calls ++ [(op, (c.exec op).2)]) := by
  have hstored : ∀ out, stored (calls ++ [(op, out)]) = stored calls := by
    intro out
    have hnone : storedBy (op, out) = none := by
      cases op with
      | addconn => exact hop.elim
      | _ => rfl
    rw [stored_snoc, hnone]
    exact List.append_nil _
  have hkept : ∀ out, (op = .closeconn op.flow → out.ret ≠ some 0) →
      closed (calls ++ [(op, out)]) = closed calls := by
    intro out hret
    have hnone : closedBy (op, out) = none := by
      cases op with
      | closeconn f => exact if_neg (hret rfl)
      | _ => rfl
    rw [closed_snoc, hnone]
    exact List.append_nil _
  by_cases hlive : c.Live op.flow
  · obtain ⟨cc, n, ret, wire, hspec⟩ := exec_of_live hop hlive
    rw [hspec.exec]
    rcases hspec.entry with ⟨hclose, hret, hzero⟩ | ⟨hnot, hsame⟩
    · have hclosed : closed (calls ++ [(op, ⟨ret, op.flow, wire⟩)]) =
          closed calls ++ [op.flow] := by
        rw [closed_snoc, hclose]
        simp [closedBy, hret, ConnOp.flow]
      refine h.close hlive (fun f hslot => ?_) (fun f hslot => getcc_setcc_of_ne hslot)
        (hstored _) hclosed
      exact (congrArg ConnCache.flow (getcc_setcc_of_eq hslot)).trans hzero
    · exact h.same (same_setcc hsame) (hstored _) (hkept _ fun heq => absurd heq hnot)
  · rw [exec_of_not_live hop hlive]
    exact h.same (fun _ => ⟨rfl, rfl, rfl⟩) (hstored _) (hkept _ fun _ => by simp [eNotFindfd])

/-- The history with one call more replays, and its earlier calls stay isolated. -/
theorem Replays.snoc (h : Replays c₀ c calls) (op : ConnOp)
    (hisolated : op.ByFlow → Isolated c calls op (c.exec op).2) :
    Replays c₀ (c.exec op).1 (calls ++ [(op, (c.exec op).2)]) := by
  refine ⟨?_, ?_, ?_⟩
  · rw [List.map_append, Run.trace_append, h.trace, h.final]
    rfl
  · rw [List.map_append, Run.final_append, h.final]
    rfl
  · intro pre op' out post heq hop
    rcases List.eq_nil_or_concat' post with rfl | ⟨post', last, rfl⟩
    · obtain ⟨rfl, hlast⟩ := List.append_inj' heq rfl
      obtain ⟨rfl, rfl⟩ := Prod.mk.inj (List.cons.inj hlast).1
      rw [h.final]
      exact hisolated hop
    · have hcut : calls ++ [(op, (c.exec op).2)] = (pre ++ (op', out) :: post') ++ [last] := by
        rw [heq]
        simp
      obtain ⟨hcalls, -⟩ := List.append_inj' hcut rfl
      exact h.isolated pre op' out post' hcalls hop

/-! ## An event -/

/-- The component's connection set has come from `c₀`, and its history is in order for the
given flow. -/
structure History (c₀ : ConnSet) (flow : ℕ) (s : SockCommu) : Prop where
  tracks : Tracks s.connset flow s.calls
  replays : Replays c₀ s.connset s.calls

/-- Inside an event that began with the counter at `φ`: nothing is stored yet. -/
def Before (c₀ : ConnSet) (φ b : ℕ) (s : SockCommu) : Prop := History c₀ φ s ∧ s.flow = b

/-- Later in that event: unless the counter has wrapped, the history is in order. -/
def After (c₀ : ConnSet) (φ : ℕ) (s : SockCommu) : Prop :=
  s.flow < 2 ^ 32 ∧ (φ ≤ s.flow → History c₀ s.flow s)

theorem History.byFlow {s : SockCommu} (h : History c₀ flow s) {op : ConnOp} (hop : op.ByFlow) :
    History c₀ flow (s.call op).1 :=
  ⟨h.tracks.byFlow hop, h.replays.snoc op fun hop => h.tracks.isolated hop⟩

theorem History.skipRead {s : SockCommu} (h : History c₀ flow s) (f length : ℕ) :
    History c₀ flow (s.call (.skipRead f length)).1 :=
  ⟨h.tracks.skipRead f length _, h.replays.snoc (.skipRead f length) fun hop => hop.elim⟩

theorem History.kernel {s : SockCommu} (h : History c₀ flow s) (k : Kernel) :
    History c₀ flow { s with kernel := k } := ⟨h.tracks, h.replays⟩

theorem History.closeconn {s : SockCommu} (h : History c₀ flow s) (f : ℕ) :
    History c₀ flow (s.closeconn f) := by
  have hcall : History c₀ flow (s.call (.closeconn f)).1 := h.byFlow trivial
  unfold SockCommu.closeconn
  dsimp only
  split
  · exact hcall.kernel _
  · exact hcall

theorem closeconn_flow (s : SockCommu) (f : ℕ) : (s.closeconn f).flow = s.flow := by
  unfold SockCommu.closeconn
  dsimp only
  split <;> rfl

theorem before_stable (c₀ : ConnSet) (φ b : ℕ) : SockCommu.Stable (Before c₀ φ b) where
  byFlow _ _ hop _ hs := ⟨hs.1.byFlow hop, hs.2⟩
  skipRead _ f length hs := ⟨hs.1.skipRead f length, hs.2⟩
  closeconn s f hs := ⟨hs.1.closeconn f, (closeconn_flow s f).trans hs.2⟩
  modify _ _ _ _ hs := ⟨hs.1.kernel _, hs.2⟩
  history _ _ _ _ hs := ⟨⟨hs.1.tracks, hs.1.replays⟩, hs.2⟩

theorem after_stable (c₀ : ConnSet) (φ : ℕ) : SockCommu.Stable (After c₀ φ) where
  byFlow _ _ hop _ hs := ⟨hs.1, fun hle => (hs.2 hle).byFlow hop⟩
  skipRead _ f length hs := ⟨hs.1, fun hle => (hs.2 hle).skipRead f length⟩
  closeconn s f hs := by
    rw [After, closeconn_flow]
    exact ⟨hs.1, fun hle => (hs.2 hle).closeconn f⟩
  modify _ _ _ _ hs := ⟨hs.1, fun hle => (hs.2 hle).kernel _⟩
  history _ _ _ _ hs := ⟨hs.1, fun hle => ⟨(hs.2 hle).tracks, (hs.2 hle).replays⟩⟩

variable {φ b : ℕ} {s : SockCommu}

theorem Before.after (h : Before c₀ φ b s) (hb : b < 2 ^ 32) : After c₀ φ s :=
  ⟨by rw [h.2]; exact hb, fun hle => ⟨h.1.tracks.mono hle, h.1.replays⟩⟩

/-- What `++flow_` gives. -/
def bump (φ : ℕ) : ℕ := if u32 (φ + 1) = 0 then 1 else u32 (φ + 1)

theorem bump_eq (hφ : φ < 2 ^ 32) :
    bump φ = φ + 1 ∧ φ + 1 < 2 ^ 32 ∨ bump φ = 1 ∧ φ + 1 = 2 ^ 32 := by
  by_cases hmax : φ + 1 < 2 ^ 32
  · rw [bump, u32_of_lt hmax, if_neg (by omega)]
    exact .inl ⟨rfl, hmax⟩
  · have hend : φ + 1 = 2 ^ 32 := by omega
    rw [bump, hend]
    exact .inr ⟨rfl, rfl⟩

theorem Before.bumpFlow (h : Before c₀ φ φ s) : Before c₀ φ (bump φ) s.bumpFlow := by
  obtain ⟨h, rfl⟩ := h
  exact ⟨⟨h.tracks, h.replays⟩, rfl⟩

theorem Before.kernel (h : Before c₀ φ b s) (k : Kernel) : Before c₀ φ b { s with kernel := k } :=
  ⟨h.1.kernel k, h.2⟩

theorem After.kernel (h : After c₀ φ s) (k : Kernel) : After c₀ φ { s with kernel := k } :=
  ⟨h.1, fun hle => (h.2 hle).kernel k⟩

/-- `addconn` after the counter has been moved once: the flow that it stores is new. -/
theorem Before.addconn (h : Before c₀ φ (bump φ) s) (hφ : φ < 2 ^ 32) (fd type : ℕ) (now : ℤ) :
    After c₀ φ (s.addconn fd type now).1 := by
  obtain ⟨h, hflow⟩ := h
  have hbound := s.connset.bound
  obtain ⟨g, hg, hres⟩ := s.addconn_cases fd type now
  -- the search adds at most `maxconn_`, so a smaller flow means that the counter has wrapped
  have hnew : g < 2 ^ 32 ∧ (φ ≤ g → φ < g) := by
    rw [hflow] at hg
    simp only [u32] at hg
    rcases bump_eq hφ with ⟨hb, hlt⟩ | ⟨hb, hmax⟩
    · rw [hb] at hg
      rcases hg with rfl | ⟨k, hk, rfl⟩ <;> omega
    · rw [hb] at hg
      rcases hg with rfl | ⟨k, hk, rfl⟩ <;> omega
  have hreplays := h.replays.snoc (.addconn s.flow fd type now) fun hop => hop.elim
  rcases hres with ⟨hexec, hsame⟩ | ⟨hfree, hexec, hsame⟩
  · rw [hexec] at hreplays
    rw [hsame]
    refine ⟨hnew.1, fun hle => ⟨(h.tracks.mono hle).same (fun _ => ⟨rfl, rfl, rfl⟩) ?_ ?_,
      hreplays⟩⟩
    · rw [stored_snoc]
      exact List.append_nil _
    · rw [closed_snoc]
      exact List.append_nil _
  · rw [hexec] at hreplays
    rw [hsame]
    refine ⟨hnew.1, fun hle => ⟨h.tracks.store (hnew.2 hle) hfree now ?_ ?_, hreplays⟩⟩
    · exact stored_snoc _ _
    · rw [closed_snoc]
      exact List.append_nil _

section
variable {σ : Type} {h : Handler σ}

theorem bump_lt (hφ : φ < 2 ^ 32) : bump φ < 2 ^ 32 := by
  rcases bump_eq hφ with ⟨hb, hlt⟩ | ⟨hb, hmax⟩ <;> omega

theorem Before.handleAccept (hs : Before c₀ φ φ s) (hφ : φ < 2 ^ 32) (u : σ) (fd : ℕ)
    (ans : AcceptAnswer) : After c₀ φ (SockCommu.handleAccept h s u fd ans).1 := by
  have hbefore := before_stable c₀ φ (bump φ)
  have hafter := after_stable c₀ φ
  unfold SockCommu.handleAccept
  split
  · exact hs.after hφ
  · next clifd _ =>
    split
    · exact hs.after hφ
    · have hcall := hbefore.callback (h := h) (hs.kernel (s.kernel.open clifd)).bumpFlow u
        (.connected ((s.openFd clifd).bumpFlow).flow [])
      dsimp only
      split
      · exact (hcall.kernel _).after (bump_lt hφ)
      · split
        · exact (hcall.kernel _).after (bump_lt hφ)
        · have hadd := hcall.addconn hφ clifd
          split
          · exact hafter.callback ((hadd _ _).kernel _) _ _
          · split
            · exact (hadd _ _).kernel _
            · exact (hadd _ _).kernel _

theorem Before.handleAcceptUdp (hs : Before c₀ φ φ s) (hφ : φ < 2 ^ 32) (u : σ) (fd : ℕ)
    (ans : RecvAnswer) : After c₀ φ (SockCommu.handleAcceptUdp h s u fd ans).1 := by
  have hafter := after_stable c₀ φ
  have hadd := hs.bumpFlow.addconn hφ fd udpSocket ans.now
  unfold SockCommu.handleAcceptUdp
  dsimp only
  split
  · exact hafter.callback hadd _ _
  · have hrecv := fun flow =>
      hafter.byFlow _ (.recv flow ans.k ans.alloc ans.now) trivial nofun hadd
    split
    · exact hrecv _
    · split
      · split
        · exact hafter.closeconn _ _ (hafter.callback (hrecv _) _ _)
        · exact hafter.callback (hafter.callback (hrecv _) _ _) _ _
      · exact hafter.closeconn _ _ (hrecv _)

theorem Before.connect (hs : Before c₀ φ φ s) (hφ : φ < 2 ^ 32) (u : σ) (type : ℕ)
    (ans : ConnectAnswer) : After c₀ φ (SockCommu.connect h s u type ans).2.1 := by
  have hafter := after_stable c₀ φ
  have hadd := (hs.kernel (s.kernel.open ans.fd)).bumpFlow.addconn hφ ans.fd type ans.now
  unfold SockCommu.connect
  split
  · exact hs.after hφ
  · split
    · exact hs.after hφ
    · dsimp only
      split
      · exact hafter.callback (hadd.kernel _) _ _
      · split
        · exact hadd.kernel _
        · have hreg := fun k => hadd.kernel k
          split
          · exact (hafter.callback (hreg _) _ _).kernel _
          · split
            · exact (hafter.callback (hafter.callback (hreg _) _ _) _ _).kernel _
            · exact hafter.callback (hafter.callback (hreg _) _ _) _ _

/-- An event keeps the history in order, unless the counter wraps. -/
theorem Before.step (hs : Before c₀ φ φ s) (hφ : φ < 2 ^ 32) (u : σ) (e : Event) :
    After c₀ φ (SockCommu.step h (s, u) e).1.1 := by
  have hbefore := before_stable c₀ φ φ
  cases e with
  | sendto c => exact (hbefore.sendto s hs c).after hφ
  | connect type ans => exact hs.connect hφ u type ans
  | checkExpire now => exact (hbefore.checkExpire hs u now).after hφ
  | ready ev =>
      change After c₀ φ (SockCommu.handleReady h s u ev).1
      unfold SockCommu.handleReady
      split
      · split
        · split
          · exact hs.handleAccept hφ u _ _
          · exact hs.handleAcceptUdp hφ u _ _
        · exact hs.after hφ
      · split
        · exact (hbefore.callback (hbefore.closeconn _ _ hs) _ _).after hφ
        · have hout : ∀ p : SockCommu × σ, Before c₀ φ φ p.1 → After c₀ φ
              (if ev.epollin then SockCommu.recvLoop h ev.flow ev.now p.1 p.2 ev.recvs else p).1 := by
            intro p hp
            split
            · exact (hbefore.recvLoop _ _ _ _ _ hp).after hφ
            · exact hp.after hφ
          refine hout (if ev.epollout then SockCommu.pollOut h s u ev else (s, u)) ?_
          split
          · exact hbefore.pollOut hs _ _
          · exact hs

/-- The counter does not wrap in the event. -/
def NoWrap (h : Handler σ) (p : SockCommu × σ) (e : Event) : Prop :=
  p.1.flow ≤ (SockCommu.step h p e).1.1.flow

/-- In every run of the component in which the flow counter does not wrap, each flow is
stored at most once and none is 0; and each call by flow, at its place in the history,
acts on the entry stored under its flow, or is refused and changes nothing. -/
theorem flows_isolate (h : Handler σ) (u : σ) (maxconn : ℕ) (pos : 0 < maxconn)
    (bound : maxconn < 2 ^ 31) (sockbind : ℕ → ℕ) (maxbindfd : ℕ) (expiretime interval now : ℤ)
    (events : List Event)
    (hwrap : Run.Always (SockCommu.step h) (NoWrap h)
      (.init maxconn pos bound sockbind maxbindfd expiretime interval now, u) events) :
    let s := (Run.final (SockCommu.step h)
      (.init maxconn pos bound sockbind maxbindfd expiretime interval now, u) events).1
    ((stored s.calls).map Prod.fst).Nodup ∧ (∀ e ∈ stored s.calls, e.1 ≠ 0) ∧
      Replays (.new maxconn pos bound) s.connset s.calls := by
  have hinit : History (.new maxconn pos bound) 0
      (.init maxconn pos bound sockbind maxbindfd expiretime interval now) := by
    refine ⟨⟨List.nodup_nil, by simp [SockCommu.init, stored], by simp [SockCommu.init, stored],
      by simp [SockCommu.init, stored], fun f hf => ?_, by simp [SockCommu.init, closed]⟩,
      ⟨rfl, rfl, by simp [SockCommu.init]⟩⟩
    exact absurd hf.1.symm hf.2
  have hstep : ∀ (p : SockCommu × σ) e, (History (.new maxconn pos bound) p.1.flow p.1 ∧
      p.1.flow < 2 ^ 32) → NoWrap h p e → History (.new maxconn pos bound)
        (SockCommu.step h p e).1.1.flow (SockCommu.step h p e).1.1 ∧
      (SockCommu.step h p e).1.1.flow < 2 ^ 32 := by
    rintro ⟨s, u⟩ e ⟨hs, hword⟩ hle
    obtain ⟨hword', hnext⟩ := Before.step (h := h) ⟨hs, rfl⟩ hword u e
    exact ⟨hnext hle, hword'⟩
  obtain ⟨hfinal, -⟩ := Run.invariant hstep ⟨hinit, Nat.two_pow_pos 32⟩ hwrap
  exact ⟨hfinal.tracks.nodup, hfinal.tracks.pos, hfinal.replays⟩

/-- With one slot: a connection is accepted and closed, the next one takes its slot, and a
late answer still comes for the first. -/
theorem flows_isolate_late_answer :
    let events := [5, 6].map fun clifd => Event.ready {
      fd := 3, flow := 0, epollin := true, epollout := false
      accept := ⟨some clifd, true, true, 0⟩, recv := ⟨.fail 11, .exact, 0⟩
      flush := .fail 11, recvs := [], now := 0 }
    let answer := fun bs => Event.sendto ⟨1, bs, .fail 11, .fail 11, .exact, 0, []⟩
    let s := (Run.final (SockCommu.step fun _ _ => ((), ⟨[], 0⟩))
      (.init 1 (by decide) (by decide) (fun fd => if fd = 3 then 1 else 0) 3 60 60 0, ())
      (events.take 1 ++ [answer ⟨[], by decide⟩] ++ events.drop 1 ++
        [answer ⟨[1], by decide⟩])).1
    stored s.calls = [(1, 5, 1), (2, 6, 1)] ∧ closed s.calls = [1] ∧
      Replays (.new 1 (by decide) (by decide)) s.connset s.calls := by
  refine ⟨by decide, by decide, ?_⟩
  refine (flows_isolate (fun _ _ => ((), ⟨[], 0⟩)) () 1 (by decide) (by decide)
    (fun fd => if fd = 3 then 1 else 0) 3 60 60 0 _ ?_).2.2
  exact ⟨by unfold NoWrap; decide, by unfold NoWrap; decide, by unfold NoWrap; decide,
    by unfold NoWrap; decide, trivial⟩

end
end Spp
