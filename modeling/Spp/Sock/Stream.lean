import Mathlib.Data.List.Induction
import Spp.Sock.Flow
import Spp.Sock.Wire

/-!
# What each flow was sent

Over the whole history of a connection set in which no flow is stored twice, the bytes that the
kernel took on a flow are a first part of the data that was sent on it, without the calls that
found no connection.  While the connection lives, its write cache is the rest.  This ends with
a call that asks for the connection to be closed.

## Main definitions

* `asked` — the flows whose connection some call wanted closed.
* `written`, `said` — what the kernel took on a flow, and what was sent on it.
* `Streams` — the balance of every flow.
-/

namespace Spp

/-- The flow of a call that wants its connection closed: the kernel failed, or there was no
memory for the cache. -/
def askedBy : ConnOp × ConnOut → Option ℕ
  | (.send flow .., out) | (.sendfromcache flow .., out) =>
      if out.ret = none ∨ out.ret = some (-eNeedClose) then some flow else none
  | _ => none

def asked (calls : List (ConnOp × ConnOut)) : List ℕ := calls.filterMap askedBy

/-- The bytes that the kernel took on the flow. -/
def written (f : ℕ) (calls : List (ConnOp × ConnOut)) : List UInt8 := calls.flatMap (wireOn f)

/-- The data that a call sends on the flow, if it finds the connection. -/
def saidOn (f : ℕ) (call : ConnOp × ConnOut) : List UInt8 :=
  if call.2.ret = some (-eNotFindfd) then [] else call.1.sentOn f

def said (f : ℕ) (calls : List (ConnOp × ConnOut)) : List UInt8 := calls.flatMap (saidOn f)

/-- The flows of the connections that were stored. -/
def storedFlows (calls : List (ConnOp × ConnOut)) : List ℕ := (stored calls).map Prod.fst

open ConnSet

/-- A free slot has no bytes to send, a live flow was stored, nothing is sent on a flow before,
and the bytes of every other flow are in balance. -/
structure Streams (c : ConnSet) (calls : List (ConnOp × ConnOut)) : Prop where
  free : ∀ f, (c.getcc f).flow = 0 → (c.getcc f).w.content = []
  known : ∀ f, c.Live f → f ∈ storedFlows calls
  before : ∀ f, f ∉ storedFlows calls → written f calls = [] ∧ said f calls = []
  balance : ∀ f, f ∉ asked calls →
    ∃ rest, written f calls ++ rest = said f calls ∧ (c.Live f → (c.getcc f).w.content = rest)

variable {c c' : ConnSet} {calls : List (ConnOp × ConnOut)} {f g : ℕ} {op : ConnOp} {out : ConnOut}

theorem written_snoc (f : ℕ) (calls : List (ConnOp × ConnOut)) (call : ConnOp × ConnOut) :
    written f (calls ++ [call]) = written f calls ++ wireOn f call := by
  simp [written]

theorem said_snoc (f : ℕ) (calls : List (ConnOp × ConnOut)) (call : ConnOp × ConnOut) :
    said f (calls ++ [call]) = said f calls ++ saidOn f call := by
  simp [said]

theorem asked_snoc (calls : List (ConnOp × ConnOut)) (call : ConnOp × ConnOut) :
    asked (calls ++ [call]) = asked calls ++ (askedBy call).toList := by
  rw [asked, List.filterMap_append]
  cases hcall : askedBy call <;> simp [asked, hcall]

theorem storedFlows_snoc (calls : List (ConnOp × ConnOut)) (call : ConnOp × ConnOut) :
    storedFlows (calls ++ [call]) = storedFlows calls ++ ((storedBy call).map Prod.fst).toList := by
  rw [storedFlows, stored_snoc, List.map_append]
  cases storedBy call <;> rfl

/-- Nothing is sent by a call for another flow. -/
theorem sentOn_of_ne (h : op.flow ≠ f) : op.sentOn f = [] := by
  cases op with
  | send flow data k k' alloc now => exact if_neg h
  | _ => rfl

theorem saidOn_of_ne (h : op.flow ≠ f) : saidOn f (op, out) = [] := by
  rw [saidOn, sentOn_of_ne h, ite_self]

/-- A call that leaves the write caches alone, takes nothing and says nothing. -/
theorem Streams.same (h : Streams c calls) {call : ConnOp × ConnOut}
    (hflow : ∀ f, (c'.getcc f).flow = (c.getcc f).flow) (hw : ∀ f, (c'.getcc f).w = (c.getcc f).w)
    (hstored : storedBy call = none) (hwire : ∀ f, wireOn f call = [])
    (hsaid : ∀ f, saidOn f call = []) : Streams c' (calls ++ [call]) := by
  have hlive : ∀ f, c'.Live f ↔ c.Live f := fun f => by rw [Live, Live, hflow]
  have hkept : storedFlows (calls ++ [call]) = storedFlows calls := by
    rw [storedFlows_snoc, hstored]
    exact List.append_nil _
  refine ⟨?_, ?_, ?_, ?_⟩
  · intro f
    rw [hflow, hw]
    exact h.free f
  · intro f
    rw [hlive, hkept]
    exact h.known f
  · intro f
    rw [hkept, written_snoc, said_snoc, hwire, hsaid, List.append_nil, List.append_nil]
    exact h.before f
  · intro f hasked
    rw [written_snoc, said_snoc, hwire, hsaid, List.append_nil, List.append_nil, hlive, hw]
    refine h.balance f fun hmem => hasked ?_
    rw [asked_snoc]
    exact List.mem_append_left _ hmem

/-- A new connection is stored under a flow that has not been there. -/
theorem Streams.store (h : Streams c calls) {fd type flow : ℕ} {now : ℤ}
    (hnew : g ∉ storedFlows calls) (hfree : (c.getcc g).flow = 0) :
    Streams (c.store g fd type now).1
      (calls ++ [(.addconn flow fd type now, (c.store g fd type now).2)]) := by
  have hstored : storedFlows (calls ++ [(.addconn flow fd type now, (c.store g fd type now).2)]) =
      storedFlows calls ++ [g] := storedFlows_snoc _ _
  have hwire : ∀ f, wireOn f (.addconn flow fd type now, (c.store g fd type now).2) = [] :=
    fun f => wireOn_nil rfl
  have hsaid : ∀ f, saidOn f (.addconn flow fd type now, (c.store g fd type now).2) = [] :=
    fun f => ite_self _
  have hself : ∀ f, f % c.maxconn = g % c.maxconn → (c.store g fd type now).1.getcc f =
      { c.getcc g with flow := g, fd := fd, access := now, type := type } :=
    fun f hslot => getcc_setcc_of_eq hslot
  have hother : ∀ f, f % c.maxconn ≠ g % c.maxconn →
      (c.store g fd type now).1.getcc f = c.getcc f := fun f hslot => getcc_setcc_of_ne hslot
  refine ⟨?_, ?_, ?_, ?_⟩
  · intro f hzero
    by_cases hslot : f % c.maxconn = g % c.maxconn
    · rw [hself f hslot]
      exact h.free g hfree
    · rw [hother f hslot] at hzero ⊢
      exact h.free f hzero
  · intro f hf
    rw [hstored, List.mem_append, List.mem_singleton]
    by_cases hslot : f % c.maxconn = g % c.maxconn
    · rw [Live, hself f hslot] at hf
      exact .inr hf.1.symm
    · rw [Live, hother f hslot] at hf
      exact .inl (h.known f hf)
  · intro f hf
    rw [hstored, List.mem_append, not_or] at hf
    rw [written_snoc, said_snoc, hwire, hsaid, List.append_nil, List.append_nil]
    exact h.before f hf.1
  · intro f hasked
    rw [written_snoc, said_snoc, hwire, hsaid, List.append_nil, List.append_nil]
    rw [asked_snoc] at hasked
    by_cases hslot : f % c.maxconn = g % c.maxconn
    · by_cases hf : f = g
      · -- nothing was sent before
        subst hf
        obtain ⟨hwritten, hsaid⟩ := h.before f hnew
        refine ⟨[], by rw [hwritten, hsaid]; rfl, fun _ => ?_⟩
        rw [hself f rfl]
        exact h.free f hfree
      · obtain ⟨rest, hrest, -⟩ := h.balance f fun hmem => hasked (List.mem_append_left _ hmem)
        refine ⟨rest, hrest, fun hlive => ?_⟩
        rw [Live, hself f hslot] at hlive
        exact absurd hlive.1.symm hf
    · rw [Live, hother f hslot]
      exact h.balance f fun hmem => hasked (List.mem_append_left _ hmem)

/-- A call that finds its connection. -/
theorem Streams.found (h : Streams c calls) (hop : op.ByFlow) (hlive : c.Live op.flow) :
    Streams (c.exec op).1 (calls ++ [(op, (c.exec op).2)]) := by
  obtain ⟨cc, n, ret, wire, hspec⟩ := exec_of_live hop hlive
  have hself : ∀ f, f % c.maxconn = op.flow % c.maxconn → (c.exec op).1.getcc f = cc := by
    intro f hslot
    rw [hspec.exec]
    exact getcc_setcc_of_eq hslot
  have hother : ∀ f, f % c.maxconn ≠ op.flow % c.maxconn → (c.exec op).1.getcc f = c.getcc f := by
    intro f hslot
    rw [hspec.exec]
    exact getcc_setcc_of_ne hslot
  have hstored : storedFlows (calls ++ [(op, (c.exec op).2)]) = storedFlows calls := by
    have hnone : storedBy (op, (c.exec op).2) = none := by
      cases op with
      | addconn => exact hop.elim
      | _ => rfl
    rw [storedFlows_snoc, hnone]
    exact List.append_nil _
  have hslotOf : ∀ f, f % c.maxconn = op.flow % c.maxconn → c.Live f → f = op.flow := by
    intro f hslot hf
    exact hf.1.symm.trans ((congrArg (fun i => (c.ccs i).flow) hslot).trans hlive.1)
  refine ⟨?_, ?_, ?_, ?_⟩
  · intro f hzero
    by_cases hslot : f % c.maxconn = op.flow % c.maxconn
    · rcases hspec.entry with ⟨hclose, -, -⟩ | ⟨-, hsame⟩
      · have hcc : (c.exec op).1.getcc f = (c.getcc op.flow).close := by
          rw [hclose, exec, closeconn_of_live hlive]
          exact getcc_setcc_of_eq hslot
        rw [hcc, ConnCache.close, RawCache.content_skip]
        exact List.drop_eq_nil_of_le (RawCache.length_content _).le
      · rw [hself f hslot, hsame.flow, hlive.1] at hzero
        exact absurd hzero hlive.2
    · rw [hother f hslot] at hzero ⊢
      exact h.free f hzero
  · intro f hf
    rw [hstored]
    by_cases hslot : f % c.maxconn = op.flow % c.maxconn
    · rw [Live, hself f hslot] at hf
      rcases hspec.entry with ⟨-, -, hzero⟩ | ⟨-, hsame⟩
      · exact absurd (hf.1.symm.trans hzero) hf.2
      · rw [hsame.flow, hlive.1] at hf
        rw [← hf.1]
        exact h.known _ hlive
    · rw [Live, hother f hslot] at hf
      exact h.known f hf
  · intro f hf
    rw [hstored] at hf
    have hne : op.flow ≠ f := by
      rintro rfl
      exact hf (h.known _ hlive)
    rw [written_snoc, said_snoc, wireOn, if_neg hne, saidOn_of_ne hne, List.append_nil,
      List.append_nil]
    exact h.before f hf
  · intro f hasked
    rw [asked_snoc, List.mem_append, not_or] at hasked
    obtain ⟨rest, hrest, hcontent⟩ := h.balance f hasked.1
    rw [written_snoc, said_snoc]
    by_cases hf : op.flow = f
    · subst hf
      by_cases hclose : op = .closeconn op.flow
      · -- the cache is dropped
        have hwire : wireOn op.flow (op, (c.exec op).2) = [] := by
          refine wireOn_nil ?_
          rw [hclose, exec, closeconn_of_live hlive]
        have hsaid : saidOn op.flow (op, (c.exec op).2) = [] := by
          generalize op.flow = g at hclose
          rw [hclose]
          exact ite_self _
        rw [hwire, hsaid, List.append_nil, List.append_nil]
        refine ⟨rest, hrest, fun hf => ?_⟩
        rcases hspec.entry with ⟨-, -, hzero⟩ | ⟨hnot, -⟩
        · rw [Live, hself _ rfl, hzero] at hf
          exact absurd hf.1.symm hf.2
        · exact absurd hclose hnot
      · have hopen : StaysOpen op.flow c op := by
          intro _
          cases op with
          | send flow data k k' alloc now =>
              have hnone : ¬ ((c.exec (.send flow data k k' alloc now)).2.ret = none ∨
                  (c.exec (.send flow data k k' alloc now)).2.ret = some (-eNeedClose)) := by
                intro hask
                exact hasked.2 (by simp [askedBy, hask, ConnOp.flow])
              exact not_or.mp hnone
          | sendfromcache flow k now =>
              have hnone : ¬ ((c.exec (.sendfromcache flow k now)).2.ret = none ∨
                  (c.exec (.sendfromcache flow k now)).2.ret = some (-eNeedClose)) := by
                intro hask
                exact hasked.2 (by simp [askedBy, hask, ConnOp.flow])
              exact not_or.mp hnone
          | closeconn flow => exact hclose rfl
          | _ => trivial
        have hcarries := hlive.exec op hopen
        have hfound : saidOn op.flow (op, (c.exec op).2) = op.sentOn op.flow := by
          rw [saidOn, if_neg]
          rw [hspec.exec]
          exact hspec.found
        refine ⟨((c.exec op).1.getcc op.flow).w.content, ?_, fun _ => rfl⟩
        rw [hfound, List.append_assoc, hcarries.bytes, hcontent hlive, ← List.append_assoc, hrest]
    · rw [wireOn, if_neg hf, saidOn_of_ne hf, List.append_nil, List.append_nil]
      refine ⟨rest, hrest, fun hf' => ?_⟩
      by_cases hslot : f % c.maxconn = op.flow % c.maxconn
      · rw [Live, hself f hslot] at hf'
        rcases hspec.entry with ⟨-, -, hzero⟩ | ⟨-, hsame⟩
        · exact absurd (hf'.1.symm.trans hzero) hf'.2
        · exact absurd (hlive.1.symm.trans (hsame.flow.symm.trans hf'.1)) hf
      · rw [Live, hother f hslot] at hf'
        rw [hother f hslot]
        exact hcontent hf'

/-- One call, which stores no flow again. -/
theorem Streams.exec (h : Streams c calls) (op : ConnOp)
    (hnodup : (storedFlows (calls ++ [(op, (c.exec op).2)])).Nodup) :
    Streams (c.exec op).1 (calls ++ [(op, (c.exec op).2)]) := by
  by_cases hop : op.ByFlow
  · by_cases hlive : c.Live op.flow
    · exact h.found hop hlive
    · have hnone : storedBy (op, (c.exec op).2) = none := by
        cases op with
        | addconn => exact hop.elim
        | _ => rfl
      rw [exec_of_not_live hop hlive] at hnone ⊢
      exact h.same (fun _ => rfl) (fun _ => rfl) hnone (fun _ => wireOn_nil rfl)
        fun _ => if_pos rfl
  · cases op with
    | addconn flow fd type now =>
        obtain ⟨g, -, hfail | ⟨hstore, hfree⟩⟩ := addconn_spec c flow fd type now
        · rw [ConnSet.exec, hfail]
          exact h.same (fun _ => rfl) (fun _ => rfl) rfl (fun _ => wireOn_nil rfl)
            fun _ => ite_self _
        · rw [ConnSet.exec, hstore, storedFlows_snoc] at hnodup
          have hlast : (storedBy (.addconn flow fd type now, (c.store g fd type now).2)).map
              Prod.fst = some g := rfl
          rw [hlast, Option.toList_some] at hnodup
          have hnew : g ∉ storedFlows calls := fun hmem =>
            (List.nodup_append.mp hnodup).2.2 g hmem g (List.mem_singleton_self g) rfl
          rw [ConnSet.exec, hstore]
          exact h.store hnew hfree
    | skipRead flow length =>
        have hskip : ∀ f, ((c.skipRead flow length).getcc f).flow = (c.getcc f).flow ∧
            ((c.skipRead flow length).getcc f).w = (c.getcc f).w := by
          intro f
          by_cases hslot : f % c.maxconn = flow % c.maxconn
          · have hsame : c.getcc flow = c.getcc f := (congrArg c.ccs hslot).symm
            rw [ConnSet.skipRead, getcc_setcc_of_eq hslot, hsame]
            exact ⟨rfl, rfl⟩
          · rw [ConnSet.skipRead, getcc_setcc_of_ne hslot]
            exact ⟨rfl, rfl⟩
        exact h.same (fun f => (hskip f).1) (fun f => (hskip f).2) rfl (fun _ => wireOn_nil rfl)
          fun _ => ite_self _
    | _ => exact absurd trivial hop

theorem streams_new (maxconn : ℕ) (pos : 0 < maxconn) (bound : maxconn < 2 ^ 31) :
    Streams (.new maxconn pos bound) [] where
  free _ _ := rfl
  known _ hf := absurd hf.1.symm hf.2
  before _ _ := ⟨rfl, rfl⟩
  balance _ _ := ⟨[], rfl, fun _ => rfl⟩

/-- Every history of a new set in which no flow is stored twice. -/
theorem streams_run (maxconn : ℕ) (pos : 0 < maxconn) (bound : maxconn < 2 ^ 31)
    (ops : List ConnOp)
    (hnodup : (storedFlows (Run.trace ConnSet.exec (.new maxconn pos bound) ops)).Nodup) :
    Streams (Run.final ConnSet.exec (.new maxconn pos bound) ops)
      (Run.trace ConnSet.exec (.new maxconn pos bound) ops) := by
  induction ops using List.reverseRecOn with
  | nil => exact streams_new maxconn pos bound
  | append_singleton ops op ih =>
      rw [Run.trace_append] at hnodup
      rw [Run.trace_append, Run.final_append]
      refine (ih ?_).exec op hnodup
      rw [Run.trace_cons, Run.trace_nil, storedFlows_snoc] at hnodup
      exact (List.nodup_append.mp hnodup).1

/-- The same for a component's history that is in order. -/
theorem History.streams {maxconn flow : ℕ} {pos : 0 < maxconn} {bound : maxconn < 2 ^ 31}
    {s : SockCommu} (h : History (.new maxconn pos bound) flow s) : Streams s.connset s.calls := by
  have hrun := streams_run maxconn pos bound (s.calls.map Prod.fst)
  rw [h.replays.trace, h.replays.final] at hrun
  exact hrun h.tracks.nodup

/-! ## Events whose callbacks send nothing -/

/-- The callbacks do not send: they close connections at most. -/
def Handler.Mute {σ : Type} (h : Handler σ) : Prop :=
  ∀ u n, ∀ c ∈ (h u n).2.sends, ∃ flow k k' alloc now senddone, 0 < flow ∧
    c = .mk flow ⟨[], Payload.nil_lt⟩ k k' alloc now senddone

/-- What has been sent on the flows is `said`. -/
def Says (L : ℕ → List UInt8) (s : SockCommu) : Prop := ∀ f, said f s.calls = L f

namespace Says

open SockCommu

variable {L : ℕ → List UInt8} {s : SockCommu} {σ : Type} {h : Handler σ}

/-- A call that sends nothing. -/
theorem call (hs : Says L s) (op : ConnOp) (hop : ∀ f, op.sentOn f = []) :
    Says L (s.call op).1 := by
  intro f
  have hcalls : (s.call op).1.calls = s.calls ++ [(op, (s.connset.exec op).2)] := rfl
  rw [hcalls, said_snoc, saidOn, hop, ite_self, List.append_nil]
  exact hs f

theorem closeconn (hs : Says L s) (f : ℕ) : Says L (s.closeconn f) := by
  have hcall : Says L (s.call (.closeconn f)).1 := hs.call _ fun _ => rfl
  unfold SockCommu.closeconn
  dsimp only
  split
  · exact hcall
  · exact hcall

theorem kernel (hs : Says L s) (k : Kernel) : Says L { s with kernel := k } := hs

/-- The blob of length 0 closes. -/
theorem closing (hs : Says L s) {flow : ℕ} (hflow : 0 < flow) (k k' : KSend) (alloc : Alloc)
    (now : ℤ) (senddone : List SendCall) :
    Says L (s.sendto ⟨flow, ⟨[], Payload.nil_lt⟩, k, k', alloc, now, senddone⟩).1 := by
  rw [SockCommu.sendto, if_pos ⟨rfl, hflow⟩]
  exact hs.closeconn flow

theorem callback (hs : Says L s) (hmute : h.Mute) (u : σ) (n : Notice) :
    Says L (callback h s u n).2.1 := by
  have hall : ∀ (cs : List SendCall) (s : SockCommu), (∀ c ∈ cs, c ∈ (h u n).2.sends) →
      Says L s → Says L (s.sendtoAll cs) := by
    intro cs
    induction cs with
    | nil => intro s _ hs; exact hs
    | cons c cs ih =>
        intro s hcs hs
        obtain ⟨flow, k, k', alloc, now, senddone, hflow, rfl⟩ := hmute u n c (hcs c (by simp))
        exact ih _ (fun c hc => hcs c (List.mem_cons_of_mem _ hc))
          (hs.closing hflow k k' alloc now senddone)
  exact hall _ s (fun c hc => hc) hs

theorem pollOut (hs : Says L s) (hmute : h.Mute) (u : σ) (ev : Ready) :
    Says L (pollOut h s u ev).1 := by
  have hcall : Says L (s.call (.sendfromcache ev.flow ev.flush ev.now)).1 := hs.call _ fun _ => rfl
  unfold SockCommu.pollOut
  dsimp only
  split
  · exact hcall
  · split
    · exact (hcall.callback hmute _ _).closeconn _
    · exact hcall

theorem recvLoop (hmute : h.Mute) (flow : ℕ) (now : ℤ) (answers : List RecvAnswer) :
    ∀ s u, Says L s → Says L (recvLoop h flow now s u answers).1 := by
  induction answers with
  | nil => exact fun s u hs => hs.call _ fun _ => rfl
  | cons ans rest ih =>
      intro s u hs
      have hcall : Says L (s.call (.recv flow ans.k ans.alloc ans.now)).1 := hs.call _ fun _ => rfl
      unfold SockCommu.recvLoop
      dsimp only
      split
      · have hdata := hcall.callback hmute u (.recvdata flow
          ((s.call (.recv flow ans.k ans.alloc ans.now)).1.connset.getcc flow).r.content)
        split
        · exact ih _ _ hdata
        · split
          · exact ih _ _ ((hdata.callback hmute _ _).call _ fun _ => rfl)
          · exact hdata.closeconn _
      · split
        · exact (hcall.callback hmute _ _).closeconn _
        · exact hcall

theorem closeExpired (hmute : h.Mute) (flows : List ℕ) :
    ∀ s u, Says L s → Says L (closeExpired h s u flows).1 := by
  induction flows with
  | nil => exact fun s u hs => hs
  | cons flow flows ih =>
      intro s u hs
      exact ih _ _ ((hs.closeconn flow).callback hmute u (.timeout flow))

theorem checkExpire (hs : Says L s) (hmute : h.Mute) (u : σ) (now : ℤ) :
    Says L (checkExpire h s u now).1 := by
  unfold SockCommu.checkExpire
  split
  · exact hs
  · split
    · exact closeExpired hmute _ _ _ hs
    · exact hs

theorem addconn (hs : Says L s) (fd type : ℕ) (now : ℤ) : Says L (s.addconn fd type now).1 :=
  hs.call (.addconn s.flow fd type now) fun _ => rfl

theorem handleAccept (hs : Says L s) (hmute : h.Mute) (u : σ) (fd : ℕ) (ans : AcceptAnswer) :
    Says L (handleAccept h s u fd ans).1 := by
  unfold SockCommu.handleAccept
  split
  · exact hs
  · next clifd _ =>
    split
    · exact hs
    · have hcall : Says L (SockCommu.callback h (s.openFd clifd).bumpFlow u
          (.connected (s.openFd clifd).bumpFlow.flow [])).2.1 :=
        Says.callback (s := (s.openFd clifd).bumpFlow) hs hmute u _
      dsimp only
      split
      · exact hcall
      · split
        · exact hcall
        · have hadd := fun type => hcall.addconn clifd type ans.now
          split
          · exact ((hadd _).kernel _).callback hmute _ _
          · split
            · exact hadd _
            · exact hadd _

theorem handleAcceptUdp (hs : Says L s) (hmute : h.Mute) (u : σ) (fd : ℕ) (ans : RecvAnswer) :
    Says L (handleAcceptUdp h s u fd ans).1 := by
  have hadd : Says L (s.bumpFlow.addconn fd udpSocket ans.now).1 :=
    Says.addconn (s := s.bumpFlow) hs fd udpSocket ans.now
  unfold SockCommu.handleAcceptUdp
  dsimp only
  split
  · exact hadd.callback hmute _ _
  · have hrecv := fun flow =>
      hadd.call (.recv flow ans.k ans.alloc ans.now) fun _ => rfl
    split
    · exact hrecv _
    · split
      · split
        · exact ((hrecv _).callback hmute _ _).closeconn _
        · exact ((hrecv _).callback hmute _ _).callback hmute _ _
      · exact (hrecv _).closeconn _

theorem connect (hs : Says L s) (hmute : h.Mute) (u : σ) (type : ℕ) (ans : ConnectAnswer) :
    Says L (connect h s u type ans).2.1 := by
  have hadd : Says L ((s.openFd ans.fd).bumpFlow.addconn ans.fd type ans.now).1 :=
    Says.addconn (s := (s.openFd ans.fd).bumpFlow) hs ans.fd type ans.now
  unfold SockCommu.connect
  split
  · exact hs
  · split
    · exact hs
    · dsimp only
      split
      · exact (hadd.kernel _).callback hmute _ _
      · split
        · exact hadd
        · have hreg := fun k flow => (hadd.kernel k).callback hmute u (.connect flow)
          split
          · exact hreg _ _
          · split
            · exact ((hreg _ _).callback hmute _ _).kernel _
            · exact (hreg _ _).callback hmute _ _

theorem stall (hs : Says L s) (flow : ℕ) : Says L (s.noteStall flow) := by
  unfold SockCommu.noteStall
  dsimp only
  split
  · exact hs
  · exact hs

/-- An event that is no `sendto`. -/
theorem step (hs : Says L s) (hmute : h.Mute) (u : σ) {ev : Event}
    (hev : ∀ c, ev ≠ .sendto c) : Says L (step h (s, u) ev).1.1 := by
  cases ev with
  | sendto c => exact absurd rfl (hev c)
  | connect type ans => exact hs.connect hmute u type ans
  | checkExpire now => exact hs.checkExpire hmute u now
  | ready ev =>
      change Says L (SockCommu.handleReady h s u ev).1
      unfold SockCommu.handleReady
      split
      · split
        · split
          · exact hs.handleAccept hmute u _ _
          · exact hs.handleAcceptUdp hmute u _ _
        · exact hs
      · split
        · exact (hs.closeconn _).callback hmute _ _
        · have hin : ∀ p : SockCommu × σ, Says L p.1 → Says L
              (if ev.epollin then SockCommu.recvLoop h ev.flow ev.now p.1 p.2 ev.recvs else p).1 := by
            intro p hp
            split
            · exact recvLoop hmute _ _ _ _ _ hp
            · exact hp
          refine hin (if ev.epollout then SockCommu.pollOut h s u ev else (s, u)) ?_
          split
          · exact hs.pollOut hmute _ _
          · exact hs

end Says

/-- A `sendto` whose callback sends nothing says its data, if the flow is found. -/
theorem said_sendto (s : SockCommu) (flow : ℕ) (data : Payload) (k k' : KSend) (alloc : Alloc)
    (now : ℤ) (f : ℕ) :
    said f (s.sendto ⟨flow, data, k, k', alloc, now, []⟩).1.calls = said f s.calls ++
      if flow = f ∧ (s.sendto ⟨flow, data, k, k', alloc, now, []⟩).2 ≠ -eNotFindfd then data.1
      else [] := by
  have hstart : Says (fun f => said f s.calls) s := fun _ => rfl
  by_cases hclose : data.1.length = 0 ∧ flow > 0
  · obtain ⟨data, hdata⟩ := data
    obtain rfl : data = [] := List.length_eq_zero_iff.mp hclose.1
    rw [ite_self, List.append_nil]
    exact hstart.closing hclose.2 k k' alloc now [] f
  · obtain ⟨out, hout⟩ : ∃ out, out = (s.connset.exec (.send flow data k k' alloc now)).2 :=
      ⟨_, rfl⟩
    have hcall : Says (fun f => said f s.calls ++ saidOn f (.send flow data k k' alloc now, out))
        (s.call (.send flow data k k' alloc now)).1 := by
      intro f
      have hcalls : (s.call (.send flow data k k' alloc now)).1.calls =
          s.calls ++ [(.send flow data k k' alloc now, out)] := by rw [hout]; rfl
      rw [hcalls, said_snoc]
    have hret : (s.sendto ⟨flow, data, k, k', alloc, now, []⟩).2 = out.ret.getD (-eNeedClose) := by
      rw [SockCommu.sendto, if_neg hclose, hout]
      dsimp only
      split_ifs <;> rfl
    have hsaid : saidOn f (.send flow data k k' alloc now, out) =
        if flow = f ∧ out.ret.getD (-eNeedClose) ≠ -eNotFindfd then data.1 else [] := by
      have hcode : out.ret = some (-eNotFindfd) ↔ out.ret.getD (-eNeedClose) = -eNotFindfd := by
        cases out.ret with
        | none => simp [eNeedClose, eNotFindfd]
        | some n => simp
      simp only [saidOn, hcode, ConnOp.sentOn]
      split_ifs <;> simp_all
    rw [hret, ← hsaid]
    suffices hend : Says (fun f => said f s.calls ++
        saidOn f (.send flow data k k' alloc now, out))
        (s.sendto ⟨flow, data, k, k', alloc, now, []⟩).1 from hend f
    have hstalled := fun g => (hcall.stall g)
    rw [SockCommu.sendto, if_neg hclose]
    dsimp only
    split
    · split
      · split
        · exact hcall
        · exact hcall.closeconn _
      · split
        · exact hstalled _
        · exact (hstalled _).closeconn _
    · split
      · exact hcall.closeconn _
      · exact hcall

end Spp
