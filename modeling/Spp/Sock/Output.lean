import Spp.Sock.SockCommu

/-!
# Pending output

A live stream should be registered for `EPOLLOUT` exactly while bytes wait in its write
cache.  `sendto` sets the events after the callback for `CB_SENDDONE`, from what the send
before it has returned; a callback that sends again and leaves bytes waiting is forgotten.
A connection whose epoll `add` fails stays in the table with a descriptor that is closed.
In every run without these the registrations and the caches agree.

## Main definitions

* `Armed` — the registrations and the caches agree.
* `Wired` — the invariant that a run keeps, with slots whose events are still to be set.
* `Shrinks` — what `sendto` can do to the table.
* `Served` — an event without the two faults.
-/

namespace Spp

namespace SockCommu

open ConnSet

/-- The entry is a live connection of a type other than UDP. -/
def Stream (cc : ConnCache) : Prop := cc.flow ≠ 0 ∧ cc.type ≠ udpSocket

/-- Every live stream has `EPOLLOUT` in its registered events if and only if its write
cache is not empty. -/
def Armed (s : SockCommu) : Prop :=
  ∀ i, Stream (s.connset.ccs i) →
    ((∃ r, s.kernel.epoll (s.connset.ccs i).fd = some r ∧ r.mask.epollout = true) ↔
      (s.connset.ccs i).w.content ≠ [])

/-- The events that the write cache asks for. -/
def wantedMask (cc : ConnCache) : EpollMask := if cc.w.content = [] then maskIn else maskInOut

/-- The descriptor listens. -/
def Bound (s : SockCommu) (fd : ℕ) : Prop := fd ≤ s.maxbindfd ∧ s.sockbind fd ≠ 0

/-- The descriptors of live connections are open, those of streams are their own and are
registered with the flow, and with the events that the write cache asks for except at the
slots `e`. -/
structure Wired (e : ℕ → Prop) (s : SockCommu) : Prop where
  slot : ∀ i, (s.connset.ccs i).flow ≠ 0 → (s.connset.ccs i).flow % s.connset.maxconn = i
  free : ∀ i, (s.connset.ccs i).flow = 0 → (s.connset.ccs i).w.content = []
  bound : ∀ fd, s.Bound fd → s.kernel.opened fd = true
  opened : ∀ i, (s.connset.ccs i).flow ≠ 0 → s.kernel.opened (s.connset.ccs i).fd = true
  distinct : ∀ i j, i ≠ j → Stream (s.connset.ccs i) → (s.connset.ccs j).flow ≠ 0 →
    (s.connset.ccs i).fd ≠ (s.connset.ccs j).fd
  unbound : ∀ i, Stream (s.connset.ccs i) → ¬ s.Bound (s.connset.ccs i).fd
  registered : ∀ i, Stream (s.connset.ccs i) → ∃ mask,
    s.kernel.epoll (s.connset.ccs i).fd = some ⟨(s.connset.ccs i).flow, mask⟩ ∧
      (¬ e i → mask = wantedMask (s.connset.ccs i))

/-- The slots whose events are still to be set, and that of the flow. -/
def AndSlot (e : ℕ → Prop) (s : SockCommu) (f : ℕ) (i : ℕ) : Prop :=
  e i ∨ i = f % s.connset.maxconn

variable {e : ℕ → Prop} {s s' : SockCommu} {f : ℕ}

theorem Wired.armed (h : Wired (fun _ => False) s) : Armed s := by
  intro i hi
  obtain ⟨mask, hreg, hmask⟩ := h.registered i hi
  rw [hreg, hmask not_false, wantedMask]
  by_cases hempty : (s.connset.ccs i).w.content = []
  · rw [if_pos hempty]
    simp [maskIn, hempty]
  · rw [if_neg hempty]
    simp [maskInOut, hempty]

/-- Where no stream is, there are no events to set. -/
theorem Wired.weaken (h : Wired (AndSlot e s f) s)
    (hf : ¬ Stream (s.connset.getcc f)) : Wired e s := by
  refine { h with registered := fun i hi => ?_ }
  obtain ⟨mask, hreg, hmask⟩ := h.registered i hi
  refine ⟨mask, hreg, fun he => hmask ?_⟩
  rintro (hei | rfl)
  · exact he hei
  · exact hf hi

theorem Wired.mono {e' : ℕ → Prop} (h : Wired e s) (he : ∀ i, e i → e' i) : Wired e' s := by
  refine { h with registered := fun i hi => ?_ }
  obtain ⟨mask, hreg, hmask⟩ := h.registered i hi
  exact ⟨mask, hreg, fun hei => hmask fun hi => hei (he i hi)⟩

/-! ## The steps -/

/-- Every connection stays the same one, and the kernel is left alone. -/
theorem Wired.same {e' : ℕ → Prop} (h : Wired e s) (hkernel : s'.kernel = s.kernel)
    (hmax : s'.connset.maxconn = s.connset.maxconn) (hbound : ∀ fd, s'.Bound fd ↔ s.Bound fd)
    (hsame : ∀ i, (s.connset.ccs i).Same (s'.connset.ccs i))
    (hfree : ∀ i, (s'.connset.ccs i).flow = 0 → (s'.connset.ccs i).w.content = [])
    (hw : ∀ i, ¬ e' i → ¬ e i ∧
      ((s'.connset.ccs i).w.content = [] ↔ (s.connset.ccs i).w.content = [])) :
    Wired e' s' := by
  have hstream : ∀ i, Stream (s'.connset.ccs i) ↔ Stream (s.connset.ccs i) := by
    intro i
    rw [Stream, Stream, (hsame i).flow, (hsame i).type]
  refine ⟨fun i hi => ?_, hfree, fun fd hfd => ?_, fun i hi => ?_, fun i j hij hi hj => ?_,
    fun i hi => ?_, fun i hi => ?_⟩
  · rw [(hsame i).flow] at hi ⊢
    rw [hmax]
    exact h.slot i hi
  · rw [hkernel]
    exact h.bound fd ((hbound fd).mp hfd)
  · rw [(hsame i).flow] at hi
    rw [hkernel, (hsame i).fd]
    exact h.opened i hi
  · rw [(hsame j).flow] at hj
    rw [(hsame i).fd, (hsame j).fd]
    exact h.distinct i j hij ((hstream i).mp hi) hj
  · rw [hbound, (hsame i).fd]
    exact h.unbound i ((hstream i).mp hi)
  · obtain ⟨mask, hreg, hmask⟩ := h.registered i ((hstream i).mp hi)
    refine ⟨mask, ?_, fun hei => ?_⟩
    · rw [hkernel, (hsame i).fd, (hsame i).flow]
      exact hreg
    · obtain ⟨he, hiff⟩ := hw i hei
      rw [hmask he]
      unfold wantedMask
      simp only [hiff]

/-- A call that changes one entry and leaves it the same connection. -/
theorem Wired.setcc {e' : ℕ → Prop} (h : Wired e s) {cc : ConnCache}
    (hsame : (s.connset.getcc f).Same cc) (hfree : cc.flow = 0 → cc.w.content = [])
    (he : ∀ i, e i → e' i)
    (hw : ¬ e' (f % s.connset.maxconn) → (cc.w.content = [] ↔ (s.connset.getcc f).w.content = []))
    (n : ℤ) (calls : List (ConnOp × ConnOut)) :
    Wired e' { s with connset := { s.connset.setcc f cc with curconn := n }, calls := calls } := by
  have hslot : ∀ i, (i = f % s.connset.maxconn ∧ (s.connset.setcc f cc).ccs i = cc ∧
      s.connset.ccs i = s.connset.getcc f) ∨ (s.connset.setcc f cc).ccs i = s.connset.ccs i := by
    intro i
    by_cases hi : i = f % s.connset.maxconn
    · exact .inl ⟨hi, by rw [hi]; exact Function.update_self _ _ _, by rw [hi]; rfl⟩
    · exact .inr (Function.update_of_ne hi _ _)
  refine h.same rfl rfl (fun _ => Iff.rfl) (fun i => ?_) (fun i => ?_) fun i hei => ?_
  · change (s.connset.ccs i).Same ((s.connset.setcc f cc).ccs i)
    rcases hslot i with ⟨-, hnew, hold⟩ | hother
    · rw [hnew, hold]
      exact hsame
    · rw [hother]
      exact ⟨rfl, rfl, rfl⟩
  · change ((s.connset.setcc f cc).ccs i).flow = 0 → ((s.connset.setcc f cc).ccs i).w.content = []
    rcases hslot i with ⟨-, hnew, -⟩ | hother
    · rw [hnew]
      exact hfree
    · rw [hother]
      exact h.free i
  · refine ⟨fun hi => hei (he i hi), ?_⟩
    change ((s.connset.setcc f cc).ccs i).w.content = [] ↔ _
    rcases hslot i with ⟨rfl, hnew, hold⟩ | hother
    · rw [hnew, hold]
      exact hw hei
    · rw [hother]

/-- The slot of a live connection becomes free, and a stream's descriptor is closed. -/
theorem Wired.closeSlot (h : Wired (AndSlot e s f) s) {k : Kernel}
    (hk : k = s.kernel ∨ Stream (s.connset.getcc f) ∧ k = s.kernel.close (s.connset.getcc f).fd)
    (n : ℤ) (calls : List (ConnOp × ConnOut)) :
    Wired e { s with
      connset := { s.connset.setcc f (s.connset.getcc f).close with curconn := n }
      kernel := k, calls := calls } := by
  obtain ⟨c, hc⟩ : ∃ c, c = s.connset.setcc f (s.connset.getcc f).close := ⟨_, rfl⟩
  rw [← hc]
  have hself : c.ccs (f % s.connset.maxconn) = (s.connset.getcc f).close := by
    rw [hc]
    exact Function.update_self _ _ _
  have hrest : ∀ i, i ≠ f % s.connset.maxconn → c.ccs i = s.connset.ccs i := by
    intro i hne
    rw [hc]
    exact Function.update_of_ne hne _ _
  have hslot : ∀ i, (c.ccs i).flow ≠ 0 → i ≠ f % s.connset.maxconn ∧ c.ccs i = s.connset.ccs i := by
    intro i hi
    have hne : i ≠ f % s.connset.maxconn := by
      rintro rfl
      rw [hself] at hi
      exact hi rfl
    exact ⟨hne, hrest i hne⟩
  -- the descriptor that has been closed is no other connection's
  have hkept : ∀ fd, (Stream (s.connset.getcc f) → (s.connset.getcc f).fd ≠ fd) →
      k.opened fd = s.kernel.opened fd ∧ k.epoll fd = s.kernel.epoll fd := by
    intro fd hne
    rcases hk with rfl | ⟨hstream, rfl⟩
    · exact ⟨rfl, rfl⟩
    · have hfd := (hne hstream).symm
      exact ⟨Function.update_of_ne hfd _ _, Function.update_of_ne hfd _ _⟩
  have hother : ∀ i, (c.ccs i).flow ≠ 0 → k.opened (s.connset.ccs i).fd =
      s.kernel.opened (s.connset.ccs i).fd ∧
      k.epoll (s.connset.ccs i).fd = s.kernel.epoll (s.connset.ccs i).fd := by
    intro i hi
    obtain ⟨hne, heq⟩ := hslot i hi
    refine hkept _ fun hstream => h.distinct _ i hne.symm hstream ?_
    rw [← heq]
    exact hi
  refine ⟨fun i hi => ?_, fun i hi => ?_, fun fd hfd => ?_, fun i hi => ?_,
    fun i j hij hi hj => ?_, fun i hi => ?_, fun i hi => ?_⟩
  · change (c.ccs i).flow % c.maxconn = i
    have hmax : c.maxconn = s.connset.maxconn := by rw [hc]; rfl
    obtain ⟨-, heq⟩ := hslot i hi
    change (c.ccs i).flow ≠ 0 at hi
    rw [heq] at hi ⊢
    rw [hmax]
    exact h.slot i hi
  · change (c.ccs i).w.content = []
    change (c.ccs i).flow = 0 at hi
    by_cases hne : i = f % s.connset.maxconn
    · rw [hne, hself]
      exact RawCache.content_skip_all _
    · rw [hrest i hne] at hi ⊢
      exact h.free i hi
  · refine (hkept fd fun hstream heq => ?_).1.trans (h.bound fd hfd)
    exact h.unbound (f % s.connset.maxconn) hstream (by rw [← heq] at hfd; exact hfd)
  · change k.opened (c.ccs i).fd = true
    have hkeep := (hother i hi).1
    obtain ⟨-, heq⟩ := hslot i hi
    change (c.ccs i).flow ≠ 0 at hi
    rw [heq] at hi ⊢
    exact hkeep.trans (h.opened i hi)
  · change (c.ccs i).fd ≠ (c.ccs j).fd
    change Stream (c.ccs i) at hi
    change (c.ccs j).flow ≠ 0 at hj
    obtain ⟨-, heqi⟩ := hslot i hi.1
    obtain ⟨-, heqj⟩ := hslot j hj
    rw [heqi] at hi ⊢
    rw [heqj] at hj ⊢
    exact h.distinct i j hij hi hj
  · change ¬ s.Bound (c.ccs i).fd
    change Stream (c.ccs i) at hi
    obtain ⟨-, heq⟩ := hslot i hi.1
    rw [heq] at hi ⊢
    exact h.unbound i hi
  · change ∃ mask, k.epoll (c.ccs i).fd = some ⟨(c.ccs i).flow, mask⟩ ∧
      (¬ e i → mask = wantedMask (c.ccs i))
    change Stream (c.ccs i) at hi
    have hkeep := (hother i hi.1).2
    obtain ⟨hne, heq⟩ := hslot i hi.1
    rw [heq] at hi ⊢
    obtain ⟨mask, hreg, hmask⟩ := h.registered i hi
    exact ⟨mask, hkeep.trans hreg, fun hei => hmask fun hi => hi.elim hei hne⟩

theorem call_eq (s : SockCommu) (op : ConnOp) :
    (s.call op).1 = { s with
      connset := (s.connset.exec op).1, calls := s.calls ++ [(op, (s.connset.exec op).2)] } ∧
      (s.call op).2 = (s.connset.exec op).2 := ⟨rfl, rfl⟩

/-- The history has no part in it. -/
theorem Wired.log (h : Wired e s) (last : ℤ) (calls : List (ConnOp × ConnOut)) (stalls flow : ℕ) :
    Wired e { s with lastchecktime := last, calls := calls, stalls := stalls, flow := flow } :=
  ⟨h.slot, h.free, h.bound, h.opened, h.distinct, h.unbound, h.registered⟩

/-- Closing a live connection. -/
theorem Wired.closeLive (h : Wired (AndSlot e s f) s) (hf : s.connset.Live f) :
    Wired e (s.closeconn f) := by
  have hexec : s.connset.exec (.closeconn f) = _ := closeconn_of_live hf
  by_cases htype : (s.connset.getcc f).type = udpSocket
  · have heq : s.closeconn f = (s.call (.closeconn f)).1 := if_neg fun hc => hc.2.2 htype
    rw [heq, (call_eq s _).1, hexec]
    exact h.closeSlot (.inl rfl) _ _
  · have heq : s.closeconn f = (s.call (.closeconn f)).1.closeFd (s.connset.getcc f).fd :=
      if_pos ⟨hf.1, hf.2, htype⟩
    rw [heq, (call_eq s _).1, hexec]
    exact h.closeSlot (.inr ⟨⟨by rw [hf.1]; exact hf.2, htype⟩, rfl⟩) _ _

theorem closeconn_of_not_live (hf : ¬ s.connset.Live f) :
    s.closeconn f = { s with calls :=
      s.calls ++ [(.closeconn f, ⟨some (-eNotFindfd), f, []⟩)] } := by
  have hexec : s.connset.exec (.closeconn f) = _ := ConnSet.closeconn_of_not_live hf
  have heq : s.closeconn f = (s.call (.closeconn f)).1 := if_neg fun hc => hf ⟨hc.1, hc.2.1⟩
  rw [heq, (call_eq s _).1, hexec]

theorem Wired.closeconn (h : Wired e s) (f : ℕ) : Wired e (s.closeconn f) := by
  by_cases hf : s.connset.Live f
  · exact (h.mono fun _ => .inl).closeLive hf
  · rw [closeconn_of_not_live hf]
    exact h.log _ _ _ _

/-- `modify` of a descriptor that no live stream has. -/
theorem Wired.modifyOther (h : Wired e s) {fd : ℕ} (g : ℕ) (mask : EpollMask)
    (hfd : ∀ i, Stream (s.connset.ccs i) → (s.connset.ccs i).fd ≠ fd) :
    Wired e (s.modify fd g mask) := by
  refine ⟨h.slot, h.free, h.bound, h.opened, h.distinct, h.unbound, fun i hi => ?_⟩
  obtain ⟨mask', hreg, hmask⟩ := h.registered i hi
  refine ⟨mask', ?_, hmask⟩
  exact (Function.update_of_ne (hfd i hi) _ _).trans hreg

/-- `modify` for a live stream sets the events of its slot. -/
theorem Wired.modifySlot (h : Wired (AndSlot e s f) s) (hf : s.connset.Live f)
    (hstream : Stream (s.connset.getcc f)) {mask : EpollMask}
    (hwanted : e (f % s.connset.maxconn) ∨ mask = wantedMask (s.connset.getcc f)) :
    Wired e (s.modify (s.connset.getcc f).fd f mask) := by
  refine ⟨h.slot, h.free, h.bound, h.opened, h.distinct, h.unbound, fun i hi => ?_⟩
  by_cases hslot : i = f % s.connset.maxconn
  · obtain ⟨mask', hreg, -⟩ := h.registered i hi
    subst hslot
    refine ⟨mask, ?_, hwanted.resolve_left⟩
    have hold : s.kernel.epoll (s.connset.getcc f).fd =
        some ⟨(s.connset.getcc f).flow, mask'⟩ := hreg
    change Function.update s.kernel.epoll _ _ (s.connset.getcc f).fd =
      some ⟨(s.connset.getcc f).flow, _⟩
    rw [Function.update_self, hold, hf.1]
  · obtain ⟨mask', hreg, hmask⟩ := h.registered i hi
    refine ⟨mask', ?_, fun hei => hmask fun hi => hi.elim hei hslot⟩
    have hne := h.distinct i (f % s.connset.maxconn) hslot hi hstream.1
    exact (Function.update_of_ne hne _ _).trans hreg

/-! ## What sending can do to the table -/

/-- Connections stay the same ones or are closed, and no descriptor is registered anew. -/
structure Shrinks (s s' : SockCommu) : Prop where
  maxconn : s'.connset.maxconn = s.connset.maxconn
  bound : ∀ fd, s'.Bound fd ↔ s.Bound fd
  slot : ∀ i, (s.connset.ccs i).Same (s'.connset.ccs i) ∨
    (s'.connset.ccs i).flow = 0 ∧ (s'.connset.ccs i).fd = (s.connset.ccs i).fd
  gone : ∀ fd, s.kernel.epoll fd = none → s'.kernel.epoll fd = none
  closed : ∀ i, Stream (s.connset.ccs i) → (s'.connset.ccs i).flow = 0 →
    s'.kernel.epoll (s.connset.ccs i).fd = none

theorem Shrinks.refl (s : SockCommu) : Shrinks s s :=
  ⟨rfl, fun _ => Iff.rfl, fun _ => .inl ⟨rfl, rfl, rfl⟩, fun _ h => h,
    fun _ hi hzero => absurd hzero hi.1⟩

theorem Shrinks.trans {s'' : SockCommu} (h : Shrinks s s') (h' : Shrinks s' s'') :
    Shrinks s s'' := by
  refine ⟨h'.maxconn.trans h.maxconn, fun fd => (h'.bound fd).trans (h.bound fd), fun i => ?_,
    fun fd hfd => h'.gone fd (h.gone fd hfd), fun i hi hzero => ?_⟩
  · rcases h'.slot i with hsame' | ⟨hzero, hfd'⟩
    · rcases h.slot i with hsame | ⟨hzero, hfd⟩
      · exact .inl (hsame.trans hsame')
      · exact .inr ⟨hsame'.flow.trans hzero, hsame'.fd.trans hfd⟩
    · rcases h.slot i with hsame | ⟨-, hfd⟩
      · exact .inr ⟨hzero, hfd'.trans hsame.fd⟩
      · exact .inr ⟨hzero, hfd'.trans hfd⟩
  · rcases h.slot i with hsame | ⟨hzero', -⟩
    · rw [← hsame.fd]
      refine h'.closed i ⟨?_, ?_⟩ hzero
      · rw [hsame.flow]
        exact hi.1
      · rw [hsame.type]
        exact hi.2
    · exact h'.gone _ (h.closed i hi hzero')

/-- A step that changes the slot of a live flow at most. -/
theorem Shrinks.of_setcc {cc : ConnCache} (hsame : (s.connset.getcc f).Same cc) (n : ℤ)
    (calls : List (ConnOp × ConnOut)) :
    Shrinks s { s with connset := { s.connset.setcc f cc with curconn := n }, calls := calls } := by
  have hccs : ∀ i, (s.connset.ccs i).Same ((s.connset.setcc f cc).ccs i) := by
    intro i
    by_cases hi : i = f % s.connset.maxconn
    · rw [hi]
      change (s.connset.getcc f).Same ((s.connset.setcc f cc).getcc f)
      rw [getcc_setcc]
      exact hsame
    · have heq : (s.connset.setcc f cc).ccs i = s.connset.ccs i := Function.update_of_ne hi _ _
      rw [heq]
      exact ⟨rfl, rfl, rfl⟩
  refine ⟨rfl, fun _ => Iff.rfl, fun i => .inl (hccs i), fun _ h => h, fun i hi hzero => ?_⟩
  exact absurd ((hccs i).flow.symm.trans hzero) hi.1

theorem Shrinks.log (s : SockCommu) (last : ℤ) (calls : List (ConnOp × ConnOut))
    (stalls : ℕ) : Shrinks s { s with lastchecktime := last, calls := calls, stalls := stalls } :=
  ⟨rfl, fun _ => Iff.rfl, fun _ => .inl ⟨rfl, rfl, rfl⟩, fun _ h => h,
    fun _ hi hzero => absurd hzero hi.1⟩

theorem Shrinks.call {op : ConnOp} (hop : op.ByFlow) (hne : op ≠ .closeconn op.flow) :
    Shrinks s (s.call op).1 := by
  rw [(call_eq s op).1]
  by_cases hf : s.connset.Live op.flow
  · obtain ⟨cc, n, ret, wire, hspec⟩ := exec_of_live hop hf
    rw [hspec.exec]
    rcases hspec.entry with ⟨hclose, -⟩ | ⟨-, hsame⟩
    · exact absurd hclose hne
    · exact .of_setcc hsame _ _
  · rw [exec_of_not_live hop hf]
    exact .log s _ _ _

theorem Shrinks.closeconn (s : SockCommu) (f : ℕ) : Shrinks s (s.closeconn f) := by
  by_cases hf : s.connset.Live f
  · have hself : (s.connset.setcc f (s.connset.getcc f).close).ccs (f % s.connset.maxconn) =
        (s.connset.getcc f).close := Function.update_self _ _ _
    have hother : ∀ i, i ≠ f % s.connset.maxconn →
        (s.connset.setcc f (s.connset.getcc f).close).ccs i = s.connset.ccs i :=
      fun i hi => Function.update_of_ne hi _ _
    have hslot : ∀ i, (s.connset.ccs i).Same
          ((s.connset.setcc f (s.connset.getcc f).close).ccs i) ∨
        ((s.connset.setcc f (s.connset.getcc f).close).ccs i).flow = 0 ∧
          ((s.connset.setcc f (s.connset.getcc f).close).ccs i).fd = (s.connset.ccs i).fd := by
      intro i
      by_cases hi : i = f % s.connset.maxconn
      · rw [hi, hself]
        exact .inr ⟨rfl, rfl⟩
      · rw [hother i hi]
        exact .inl ⟨rfl, rfl, rfl⟩
    have honly : ∀ i, Stream (s.connset.ccs i) →
        ((s.connset.setcc f (s.connset.getcc f).close).ccs i).flow = 0 →
        i = f % s.connset.maxconn := by
      intro i hi hzero
      by_contra hne
      rw [hother i hne] at hzero
      exact hi.1 hzero
    have hexec : s.connset.exec (.closeconn f) = _ := closeconn_of_live hf
    by_cases htype : (s.connset.getcc f).type = udpSocket
    · have heq : s.closeconn f = (s.call (.closeconn f)).1 := if_neg fun hc => hc.2.2 htype
      rw [heq, (call_eq s _).1, hexec]
      refine ⟨rfl, fun _ => Iff.rfl, hslot, fun _ h => h, fun i hi hzero => ?_⟩
      obtain rfl := honly i hi hzero
      exact absurd htype hi.2
    · have heq : s.closeconn f = (s.call (.closeconn f)).1.closeFd (s.connset.getcc f).fd :=
        if_pos ⟨hf.1, hf.2, htype⟩
      rw [heq, (call_eq s _).1, hexec]
      refine ⟨rfl, fun _ => Iff.rfl, hslot, fun fd h => ?_, fun i hi hzero => ?_⟩
      · change Function.update s.kernel.epoll _ none fd = none
        by_cases hfd : fd = (s.connset.getcc f).fd
        · rw [hfd, Function.update_self]
        · rw [Function.update_of_ne hfd]
          exact h
      · obtain rfl := honly i hi hzero
        exact Function.update_self _ _ _
  · rw [closeconn_of_not_live hf]
    exact .log s _ _ _

theorem Shrinks.skipRead (s : SockCommu) (f length : ℕ) :
    Shrinks s (s.call (.skipRead f length)).1 := by
  have hsame : (s.connset.getcc f).Same
      { s.connset.getcc f with r := (s.connset.getcc f).r.skip length } := ⟨rfl, rfl, rfl⟩
  exact .of_setcc hsame s.connset.curconn _

theorem Shrinks.modify (s : SockCommu) (fd g : ℕ) (mask : EpollMask) :
    Shrinks s (s.modify fd g mask) := by
  refine ⟨rfl, fun _ => Iff.rfl, fun _ => .inl ⟨rfl, rfl, rfl⟩, fun fd' h => ?_,
    fun _ hi hzero => absurd hzero hi.1⟩
  change Function.update s.kernel.epoll fd _ fd' = none
  by_cases hfd : fd' = fd
  · rw [hfd, Function.update_self]
    rw [hfd] at h
    rw [h]
    rfl
  · rw [Function.update_of_ne hfd]
    exact h

theorem shrinks_stable (s₀ : SockCommu) : Stable (Shrinks s₀) where
  byFlow _ _ hop hne h := h.trans (.call hop hne)
  skipRead s f length h := h.trans (.skipRead s f length)
  closeconn s f h := h.trans (.closeconn s f)
  modify s fd flow mask h := h.trans (.modify s fd flow mask)
  history s last stalls _ h := h.trans (.log s last s.calls stalls)

theorem stalls_stable (n : ℕ) : Stable fun s => n ≤ s.stalls where
  byFlow _ _ _ _ h := h
  skipRead _ _ _ h := h
  closeconn s f h := by
    unfold SockCommu.closeconn
    dsimp only
    split <;> exact h
  modify _ _ _ _ h := h
  history _ _ _ hle h := Nat.le_trans h hle

/-! ## Sending -/

theorem Shrinks.andSlot (h : Shrinks s s') : AndSlot e s' f = AndSlot e s f := by
  funext i
  rw [AndSlot, AndSlot, h.maxconn]

theorem Shrinks.getcc (h : Shrinks s s') (f : ℕ) : (s.connset.getcc f).Same (s'.connset.getcc f) ∨
    (s'.connset.getcc f).flow = 0 ∧ (s'.connset.getcc f).fd = (s.connset.getcc f).fd := by
  have hslot := h.slot (f % s.connset.maxconn)
  rw [← h.maxconn] at hslot
  have hold : s.connset.ccs (f % s'.connset.maxconn) = s.connset.getcc f := by rw [h.maxconn]; rfl
  rw [hold] at hslot
  exact hslot

/-- After the callback for `CB_SENDDONE`: the events of the slot are set, unless bytes wait
on the stream.  Where no slot's events are watched, it may stall. -/
theorem Wired.afterSenddone (h : Wired (AndSlot e s f) s) (hf : s.connset.Live f)
    (hshrink : Shrinks s s') (h' : Wired (AndSlot e s' f) s')
    (hquiet : (∀ i, e i) ∨ ¬ ((s'.connset.getcc f).flow = f ∧
      (s'.connset.getcc f).type ≠ udpSocket ∧ (s'.connset.getcc f).w.dataLen ≠ 0)) :
    Wired e (if (s'.connset.getcc f).type ≠ udpSocket then
      s'.modify (s'.connset.getcc f).fd f maskIn else s'.closeconn f) := by
  rcases hshrink.getcc f with hsame | ⟨hzero, hfd⟩
  · -- the connection is still there
    have hlive : s'.connset.Live f := ⟨hsame.flow.trans hf.1, hf.2⟩
    split
    · next htype =>
      refine h'.modifySlot hlive ⟨by rw [hlive.1]; exact hf.2, htype⟩ ?_
      rcases hquiet with hany | hquiet
      · exact .inl (hany _)
      · have hempty : (s'.connset.getcc f).w.content = [] := by
          by_contra hcontent
          refine hquiet ⟨hlive.1, htype, fun hlen => hcontent ?_⟩
          exact RawCache.dataLen_eq_zero_iff.mp hlen
        exact .inr (if_pos hempty).symm
    · exact h'.closeLive hlive
  · -- the callback has closed it, and `modify` comes for a descriptor that it had
    have hkept : Wired e s' := h'.weaken fun hstream => hstream.1 hzero
    split
    · refine hkept.modifyOther f maskIn fun i hi heq => ?_
      rw [hfd] at heq
      by_cases htype : (s.connset.getcc f).type = udpSocket
      · have hslot : i ≠ f % s.connset.maxconn := by
          rintro rfl
          rw [← hshrink.maxconn] at hi
          exact hi.1 hzero
        rcases hshrink.slot i with hsame | ⟨hgone, -⟩
        · have hold : Stream (s.connset.ccs i) := by
            rw [Stream, ← hsame.flow, ← hsame.type]
            exact hi
          refine h.distinct i (f % s.connset.maxconn) hslot hold ?_ ?_
          · exact hf.1.trans_ne hf.2
          · rw [← hsame.fd]
            exact heq
        · exact hi.1 hgone
      · have hstream : Stream (s.connset.getcc f) := ⟨hf.1.trans_ne hf.2, htype⟩
        have hgone : s'.kernel.epoll (s.connset.getcc f).fd = none := by
          refine hshrink.closed (f % s.connset.maxconn) hstream ?_
          rw [← hshrink.maxconn]
          exact hzero
        obtain ⟨mask, hreg, -⟩ := hkept.registered i hi
        rw [heq, hgone] at hreg
        exact absurd hreg (by simp)
    · exact hkept.closeconn f

theorem closeconn_stalls (s : SockCommu) (f : ℕ) : (s.closeconn f).stalls = s.stalls := by
  unfold SockCommu.closeconn
  dsimp only
  split <;> rfl

theorem Shrinks.noteStall (s : SockCommu) (f : ℕ) : Shrinks s (s.noteStall f) :=
  (shrinks_stable s).sending.noteStall (.refl s) f

theorem Wired.noteStall (h : Wired e s) (f : ℕ) : Wired e (s.noteStall f) := by
  unfold SockCommu.noteStall
  dsimp only
  split
  · exact h.log _ _ _ _
  · exact h

/-- A callback that is not counted has left no bytes waiting on the stream. -/
theorem noteStall_eq {n : ℕ} (hle : n ≤ s.stalls) (h : (s.noteStall f).stalls = n) :
    s.noteStall f = s ∧ s.stalls = n ∧ ¬ ((s.connset.getcc f).flow = f ∧
      (s.connset.getcc f).type ≠ udpSocket ∧ (s.connset.getcc f).w.dataLen ≠ 0) := by
  unfold noteStall at h ⊢
  dsimp only at h ⊢
  split at h
  · have hmore : s.stalls + 1 = n := h
    omega
  · next hquiet =>
    rw [if_neg hquiet]
    exact ⟨rfl, h, hquiet⟩

/-- The call of `send`: the flow is not live, or the call has touched its slot only. -/
theorem Wired.send (h : Wired e s) (f : ℕ) (data : Payload) (k k' : KSend) (alloc : Alloc) (now : ℤ) :
    (Wired e (s.call (.send f data k k' alloc now)).1 ∧
      (s.call (.send f data k k' alloc now)).2.ret = some (-eNotFindfd)) ∨
    ((s.call (.send f data k k' alloc now)).1.connset.Live f ∧
      Wired (AndSlot e (s.call (.send f data k k' alloc now)).1 f)
        (s.call (.send f data k k' alloc now)).1 ∧
      ((s.call (.send f data k k' alloc now)).2.ret.getD (-eNeedClose) = -eNeedClose ∨
        ∃ n : ℕ, n ≤ data.1.length ∧
          (s.call (.send f data k k' alloc now)).2.ret = some (n : ℤ) ∧
          (0 < data.1.length → (n < data.1.length ↔
            ((s.call (.send f data k k' alloc now)).1.connset.getcc f).w.content ≠ [])))) := by
  by_cases hf : s.connset.Live f
  · right
    have hspec := ConnCache.send_spec (s.connset.getcc f) data k k' alloc now
    have hexec : s.connset.exec (.send f data k k' alloc now) = _ :=
      on_of_live hf fun cc => cc.send data k k' alloc now
    rw [(call_eq s _).1, (call_eq s _).2, hexec]
    have hsame := ConnCache.Same.of_eq hspec.same
    have hne : ((s.connset.getcc f).send data k k' alloc now).cc.flow ≠ 0 := by
      rw [hsame.flow]
      exact hf.1.trans_ne hf.2
    refine ⟨?_, h.setcc hsame (fun hzero => absurd hzero hne) (fun _ => .inl)
      (fun hnot => absurd (.inr rfl) hnot) s.connset.curconn _, ?_⟩
    · rw [Live, getcc_setcc, hsame.flow]
      exact hf
    · change Option.getD (ConnResult.ret _) _ = _ ∨ _
      rcases hspec.ret with hret | hret | ⟨n, hn, hret, -, hiff⟩
      · rw [hret]
        exact .inl rfl
      · rw [hret]
        exact .inl rfl
      · refine .inr ⟨n, hn, hret, ?_⟩
        rw [getcc_setcc]
        exact hiff
  · left
    have hexec : s.connset.exec (.send f data k k' alloc now) = _ :=
      on_of_not_live hf fun cc => cc.send data k k' alloc now
    rw [(call_eq s _).1, (call_eq s _).2, hexec]
    exact ⟨h.log _ _ _ _, rfl⟩

mutual

/-- `sendto` sets the events of the flow that it sends on, unless a callback stalls. -/
theorem Wired.sendto (e : ℕ → Prop) (s : SockCommu) (h : Wired e s) :
    ∀ c, (∀ i, e i) ∨ (s.sendto c).1.stalls = s.stalls → Wired e (s.sendto c).1
  | ⟨flow, data, k, k', alloc, now, senddone⟩, hstalls => by
      have hcall := h.send flow data k k' alloc now
      obtain ⟨s₁, hs₁⟩ : ∃ s₁, s₁ = (s.call (.send flow data k k' alloc now)).1 := ⟨_, rfl⟩
      obtain ⟨out, hout⟩ : ∃ out, out = (s.call (.send flow data k k' alloc now)).2 := ⟨_, rfl⟩
      have hall := fun e h => Wired.sendtoAll e s₁ h senddone
      rw [SockCommu.sendto] at hstalls ⊢
      dsimp only at hstalls ⊢
      rw [← hs₁, ← hout] at hstalls hcall ⊢
      by_cases hempty : data.1.length = 0 ∧ flow > 0
      · rw [if_pos hempty]
        exact h.closeconn flow
      rw [if_neg hempty] at hstalls ⊢
      rcases hcall with ⟨hw, hret⟩ | ⟨hlive, hw, hclose | ⟨n, hn, hret, hiff⟩⟩
      · rw [hret]
        exact hw
      · rw [hclose]
        exact hw.closeLive hlive
      rw [hret] at hstalls ⊢
      have hpos : (some (n : ℤ)).getD (-eNeedClose) ≥ 0 := Int.natCast_nonneg n
      rw [if_pos hpos] at hstalls ⊢
      by_cases hpart : (some (n : ℤ)).getD (-eNeedClose) < data.1.length
      · -- bytes wait: ask for `EPOLLOUT`
        rw [if_pos hpart]
        have hlt : n < data.1.length := Int.ofNat_lt.mp hpart
        have hmask : maskInOut = wantedMask (s₁.connset.getcc flow) :=
          (if_neg ((hiff (by omega)).mp hlt)).symm
        split
        · next htype => exact hw.modifySlot hlive ⟨hlive.1.trans_ne hlive.2, htype⟩ (.inr hmask)
        · exact hw.closeLive hlive
      · rw [if_neg hpart] at hstalls ⊢
        have hmore := (stalls_stable s.stalls).sendtoAll s₁ (by rw [hs₁]; exact Nat.le_refl _) senddone
        have hshrink := ((shrinks_stable s₁).sendtoAll s₁ (.refl s₁) senddone).trans
          (.noteStall _ flow)
        have hfinal : (∀ i, e i) ∨
            ((s₁.sendtoAll senddone).noteStall flow).stalls = s.stalls := by
          refine hstalls.imp_right fun hstalls => ?_
          split at hstalls
          · exact hstalls
          · rw [← hstalls]
            exact (closeconn_stalls _ _).symm
        have hquiet := hfinal.imp_right (noteStall_eq hmore)
        have hafter := (hall _ hw (hquiet.imp (fun hany i => .inl (hany i)) fun hquiet => by
          rw [hquiet.2.1, hs₁]; rfl)).noteStall flow
        rw [← hshrink.andSlot] at hafter
        have hset := hw.afterSenddone hlive hshrink hafter (hquiet.imp_right fun hquiet => by
          rw [hquiet.1]
          exact hquiet.2.2)
        split
        · next htype =>
          rw [if_pos htype] at hset
          exact hset
        · next htype =>
          rw [if_neg htype] at hset
          exact hset

theorem Wired.sendtoAll (e : ℕ → Prop) (s : SockCommu) (h : Wired e s) :
    ∀ cs, (∀ i, e i) ∨ (s.sendtoAll cs).stalls = s.stalls → Wired e (s.sendtoAll cs)
  | [], _ => h
  | c :: cs, hstalls => by
      rw [SockCommu.sendtoAll] at hstalls ⊢
      have hfirst := (stalls_stable s.stalls).sendto s (Nat.le_refl _) c
      have hrest := (stalls_stable _).sendtoAll (s.sendto c).1 (Nat.le_refl _) cs
      have hnone : (∀ i, e i) ∨ (s.sendto c).1.stalls = s.stalls :=
        hstalls.imp_right fun hstalls => by omega
      exact Wired.sendtoAll e _ (Wired.sendto e s h c hnone) cs
        (hstalls.imp_right fun hstalls => by omega)

end

/-! ## Events -/

/-- Inside an event that began with `n` callbacks counted: the invariant holds, unless one
more has been counted and some slot's events are watched. -/
structure Kept (n : ℕ) (e : ℕ → Prop) (s : SockCommu) : Prop where
  le : n ≤ s.stalls
  wired : (∀ i, e i) ∨ s.stalls = n → Wired e s

variable {n : ℕ}

theorem Wired.kept (h : Wired e s) : Kept s.stalls e s := ⟨Nat.le_refl _, fun _ => h⟩

/-- A step that counts no callback, and may set the events of a slot. -/
theorem Kept.settle {e' : ℕ → Prop} (h : Kept n e s) (hstalls : s'.stalls = s.stalls)
    (he : ∀ i, e' i → e i) (hstep : Wired e s → Wired e' s') : Kept n e' s' := by
  refine ⟨by rw [hstalls]; exact h.le, fun hn => hstep (h.wired ?_)⟩
  refine hn.imp (fun hany i => he i (hany i)) fun hn => ?_
  rw [← hstalls]
  exact hn

theorem Kept.step (h : Kept n e s) (hstalls : s'.stalls = s.stalls)
    (hstep : Wired e s → Wired e s') : Kept n e s' := h.settle hstalls (fun _ => id) hstep

theorem Kept.sendto (h : Kept n e s) (c : SendCall) : Kept n e (s.sendto c).1 := by
  have hmore := (stalls_stable s.stalls).sendto s (Nat.le_refl _) c
  have hle := h.le
  refine ⟨Nat.le_trans hle hmore, fun hn => ?_⟩
  have hsame := hn.imp_right fun hn => show s.stalls = n ∧ (s.sendto c).1.stalls = s.stalls by omega
  exact Wired.sendto e s (h.wired (hsame.imp_right And.left)) c (hsame.imp_right And.right)

theorem Kept.sendtoAll (h : Kept n e s) (cs : List SendCall) : Kept n e (s.sendtoAll cs) := by
  have hmore := (stalls_stable s.stalls).sendtoAll s (Nat.le_refl _) cs
  have hle := h.le
  refine ⟨Nat.le_trans hle hmore, fun hn => ?_⟩
  have hsame := hn.imp_right fun hn => show s.stalls = n ∧ (s.sendtoAll cs).stalls = s.stalls by omega
  exact Wired.sendtoAll e s (h.wired (hsame.imp_right And.left)) cs (hsame.imp_right And.right)

theorem Kept.closeconn (h : Kept n e s) (f : ℕ) : Kept n e (s.closeconn f) :=
  h.step (closeconn_stalls s f) fun hw => hw.closeconn f

theorem Kept.skipRead (h : Kept n e s) (f length : ℕ) :
    Kept n e (s.call (.skipRead f length)).1 := by
  have hsame : (s.connset.getcc f).Same
      { s.connset.getcc f with r := (s.connset.getcc f).r.skip length } := ⟨rfl, rfl, rfl⟩
  refine h.step rfl fun hw => ?_
  exact hw.setcc hsame (hw.free (f % s.connset.maxconn)) (fun _ => id) (fun _ => Iff.rfl)
    s.connset.curconn _

theorem Kept.recv (h : Kept n e s) (f : ℕ) (k : KRecv) (alloc : Alloc) (now : ℤ) :
    Kept n e (s.call (.recv f k alloc now)).1 := by
  refine h.step rfl fun hw => ?_
  rw [(call_eq s _).1]
  by_cases hf : s.connset.Live f
  · have hspec := ConnCache.recv_spec (s.connset.getcc f) k alloc now
    have hexec : s.connset.exec (.recv f k alloc now) = _ :=
      on_of_live hf fun cc => cc.recv k alloc now
    have hwrite : ((s.connset.getcc f).recv k alloc now).cc.w = (s.connset.getcc f).w := by
      rw [hspec.same]
    rw [hexec]
    refine hw.setcc (.of_eq hspec.same) (fun hzero => ?_) (fun _ => id) (fun _ => ?_)
      s.connset.curconn _
    · rw [(ConnCache.Same.of_eq hspec.same).flow, hf.1] at hzero
      exact absurd hzero hf.2
    · rw [hwrite]
  · have hexec : s.connset.exec (.recv f k alloc now) = _ :=
      on_of_not_live hf fun cc => cc.recv k alloc now
    rw [hexec]
    exact hw.log _ _ _ _

section
variable {σ : Type} {h : Handler σ}

theorem Kept.callback (hs : Kept n e s) (u : σ) (k : Notice) :
    Kept n e (callback h s u k).2.1 := hs.sendtoAll _

/-- The call of `sendfromcache`: the flow is not live, or what it returns says whether bytes
are left. -/
theorem Wired.sendfromcache (hw : Wired e s) (f : ℕ) (k : KSend) (now : ℤ) :
    (Wired e (s.call (.sendfromcache f k now)).1 ∧
      (s.call (.sendfromcache f k now)).2.ret = some (-eNotFindfd)) ∨
    ((s.connset.getcc f).Same ((s.call (.sendfromcache f k now)).1.connset.getcc f) ∧
      (s.call (.sendfromcache f k now)).1.connset.Live f ∧
      Wired (AndSlot e (s.call (.sendfromcache f k now)).1 f)
        (s.call (.sendfromcache f k now)).1 ∧
      ((s.call (.sendfromcache f k now)).2.ret = some (-eNeedClose) ∨
        (s.call (.sendfromcache f k now)).2.ret = some 0 ∧
          ((s.call (.sendfromcache f k now)).1.connset.getcc f).w.content = [] ∨
        ∃ m, (s.call (.sendfromcache f k now)).2.ret = some m ∧ 0 < m ∧
          Wired e (s.call (.sendfromcache f k now)).1)) := by
  rw [(call_eq s _).1, (call_eq s _).2]
  by_cases hf : s.connset.Live f
  · right
    have hspec := ConnCache.sendfromcache_spec (s.connset.getcc f) k now
    have hexec : s.connset.exec (.sendfromcache f k now) = _ :=
      on_of_live hf fun cc => cc.sendfromcache k now
    rw [hexec]
    have hsame := ConnCache.Same.of_eq hspec.same
    have hne : ((s.connset.getcc f).sendfromcache k now).cc.flow ≠ 0 := by
      rw [hsame.flow]
      exact hf.1.trans_ne hf.2
    refine ⟨?_, ?_, hw.setcc hsame (fun hzero => absurd hzero hne) (fun _ => .inl)
      (fun hnot => absurd (.inr rfl) hnot) s.connset.curconn _, ?_⟩
    · rw [getcc_setcc]
      exact hsame
    · rw [Live, getcc_setcc, hsame.flow]
      exact hf
    · rcases hspec.ret with hret | ⟨hret, hempty⟩ | ⟨m, hret, hm, hleft⟩
      · exact .inl hret
      · refine .inr (.inl ⟨hret, ?_⟩)
        rw [getcc_setcc]
        exact hempty
      · refine .inr (.inr ⟨m, hret, hm, ?_⟩)
        refine hw.setcc hsame (fun hzero => absurd hzero hne) (fun _ => id) (fun _ => ?_)
          s.connset.curconn _
        have hold : (s.connset.getcc f).w.content ≠ [] := by
          rw [← hspec.wire]
          exact fun hnil => hleft (List.append_eq_nil_iff.mp hnil).2
        exact iff_of_false hleft hold
  · left
    have hexec : s.connset.exec (.sendfromcache f k now) = _ :=
      on_of_not_live hf fun cc => cc.sendfromcache k now
    rw [hexec]
    exact ⟨hw.log _ _ _ _, rfl⟩

/-- After everything in the cache has been sent, `modify` comes for the descriptor of the
flow. -/
theorem Wired.disarm (hw : Wired (AndSlot e s f) s) (hf : s.connset.Live f)
    (hempty : (s.connset.getcc f).w.content = []) :
    Wired e (s.modify (s.connset.getcc f).fd f maskIn) := by
  have hflow := hf.1.trans_ne hf.2
  by_cases htype : (s.connset.getcc f).type = udpSocket
  · have hudp : ¬ Stream (s.connset.getcc f) := fun hstream => hstream.2 htype
    refine (hw.weaken hudp).modifyOther f maskIn fun i hi => ?_
    refine hw.distinct i (f % s.connset.maxconn) ?_ hi hflow
    rintro rfl
    exact hudp hi
  · exact hw.modifySlot hf ⟨hflow, htype⟩ (.inr (if_pos hempty).symm)

/-- The connection is closed after a callback that came for its flow. -/
theorem Wired.closeAfter (hf : s.connset.Live f) (hshrink : Shrinks s s')
    (h' : Wired (AndSlot e s f) s') : Wired e (s'.closeconn f) := by
  rw [← hshrink.andSlot] at h'
  rcases hshrink.getcc f with hsame | ⟨hzero, -⟩
  · exact h'.closeLive ⟨hsame.flow.trans hf.1, hf.2⟩
  · exact (h'.weaken fun hstream => hstream.1 hzero).closeconn f

theorem Wired.pollOut (hw : Wired e s) (u : σ) (ev : Ready)
    (hfd : s.connset.Live ev.flow → (s.connset.getcc ev.flow).fd = ev.fd) :
    Kept s.stalls e (pollOut h s u ev).1 := by
  have hcall := hw.sendfromcache ev.flow ev.flush ev.now
  unfold SockCommu.pollOut
  dsimp only
  obtain ⟨s₁, hs₁⟩ : ∃ s₁, s₁ = (s.call (.sendfromcache ev.flow ev.flush ev.now)).1 := ⟨_, rfl⟩
  have hstalls : s.stalls = s₁.stalls := by rw [hs₁]; rfl
  rw [← hs₁] at hcall ⊢
  rw [hstalls]
  rcases hcall with ⟨hkept, hret⟩ | ⟨hsame, hlive, hkept, hret | ⟨hret, hempty⟩ | ⟨m, hret, hm, hleft⟩⟩
  · rw [hret, if_neg (by decide), if_neg (by decide)]
    exact hkept.kept
  · rw [hret, if_neg (by decide), if_pos rfl]
    have hnotice := hkept.kept.callback (h := h) u (.senderror ev.flow
      (s₁.connset.getcc ev.flow).w.content)
    have hshrink := (shrinks_stable s₁).callback (h := h) (.refl s₁) u (.senderror ev.flow
      (s₁.connset.getcc ev.flow).w.content)
    exact hnotice.settle (closeconn_stalls _ _) (fun _ => .inl) fun hw' =>
      Wired.closeAfter hlive hshrink hw'
  · have hown : s.connset.Live ev.flow := ⟨hsame.flow.symm.trans hlive.1, hlive.2⟩
    have hset := hkept.disarm hlive hempty
    rw [hsame.fd, hfd hown] at hset
    rw [hret, if_pos rfl]
    exact hset.kept
  · have hne : some m ≠ some (0 : ℤ) := fun heq => hm.ne' (Option.some.inj heq)
    have hpos : some m ≠ some (-eNeedClose) := by
      intro heq
      rw [Option.some.inj heq] at hm
      exact absurd hm (by decide)
    rw [hret, if_neg hne, if_neg hpos]
    exact hleft.kept

theorem Kept.recvLoop (flow : ℕ) (now : ℤ) (answers : List RecvAnswer) :
    ∀ s u, Kept n e s → Kept n e (recvLoop h flow now s u answers).1 := by
  induction answers with
  | nil => exact fun s u hs => hs.recv flow (.fail 11) .exact now
  | cons ans rest ih =>
      intro s u hs
      have hcall := hs.recv flow ans.k ans.alloc ans.now
      unfold SockCommu.recvLoop
      dsimp only
      split
      · split
        · exact ih _ _ (hcall.callback _ _)
        · split
          · exact ih _ _ (((hcall.callback _ _).callback _ _).skipRead _ _)
          · exact (hcall.callback _ _).closeconn _
      · split
        · exact (hcall.callback _ _).closeconn _
        · exact hcall

theorem Kept.closeExpired (flows : List ℕ) :
    ∀ s u, Kept n e s → Kept n e (closeExpired h s u flows).1 := by
  induction flows with
  | nil => exact fun s u hs => hs
  | cons flow flows ih => exact fun s u hs => ih _ _ ((hs.closeconn _).callback _ _)

theorem Kept.checkExpire (hs : Kept n e s) (u : σ) (now : ℤ) :
    Kept n e (checkExpire h s u now).1 := by
  unfold SockCommu.checkExpire
  dsimp only
  split
  · exact hs
  · split
    · have hclosed := Kept.closeExpired (h := h)
        (s.connset.checkExpire (now - s.expiretime)) s u hs
      exact hclosed.step rfl fun hw => hw.log _ _ _ _
    · exact hs

/-! ### New connections -/

/-- The descriptor is open, and neither listens nor belongs to a live connection. -/
structure Fresh (fd : ℕ) (s : SockCommu) : Prop where
  opened : s.kernel.opened fd = true
  unbound : ¬ s.Bound fd
  unused : ∀ i, (s.connset.ccs i).flow ≠ 0 → (s.connset.ccs i).fd ≠ fd

/-- Calls on the connections that are there leave a descriptor fresh. -/
theorem Fresh.shrinks {fd : ℕ} (hs : Fresh fd s) (hshrink : Shrinks s s')
    (hopened : s'.kernel.opened fd = s.kernel.opened fd) : Fresh fd s' := by
  refine ⟨hopened.trans hs.opened, fun hbound => hs.unbound ((hshrink.bound fd).mp hbound),
    fun i hi => ?_⟩
  rcases hshrink.slot i with hsame | ⟨hzero, -⟩
  · rw [hsame.fd]
    refine hs.unused i ?_
    rw [← hsame.flow]
    exact hi
  · exact absurd hzero hi

theorem Fresh.closeconn {fd : ℕ} (hs : Fresh fd s) (f : ℕ) : Fresh fd (s.closeconn f) := by
  refine hs.shrinks (.closeconn s f) ?_
  by_cases hclose : (s.connset.getcc f).flow = f ∧ f ≠ 0 ∧ (s.connset.getcc f).type ≠ udpSocket
  · have heq : s.closeconn f = (s.call (.closeconn f)).1.closeFd (s.connset.getcc f).fd :=
      if_pos hclose
    have hne := hs.unused (f % s.connset.maxconn) (hclose.1.trans_ne hclose.2.1)
    rw [heq]
    exact Function.update_of_ne hne.symm _ _
  · have heq : s.closeconn f = (s.call (.closeconn f)).1 := if_neg hclose
    rw [heq]
    rfl

theorem fresh_stable (fd : ℕ) : Stable (Fresh fd) where
  byFlow _ _ hop hne hs := hs.shrinks (.call hop hne) rfl
  skipRead s f length hs := hs.shrinks (.skipRead s f length) rfl
  closeconn _ f hs := hs.closeconn f
  modify s fd' flow mask hs := hs.shrinks (.modify s fd' flow mask) rfl
  history s last stalls _ hs := hs.shrinks (.log s last s.calls stalls) rfl

/-- `accept` and `socket` hand out a fresh descriptor. -/
theorem Wired.openFd (hw : Wired e s) {fd : ℕ} (hfd : s.kernel.opened fd = false) :
    Wired e (s.openFd fd) ∧ Fresh fd (s.openFd fd) := by
  have hopen : ∀ fd', s.kernel.opened fd' = true → (s.openFd fd).kernel.opened fd' = true := by
    intro fd' hfd'
    have hne : fd' ≠ fd := by
      rintro rfl
      rw [hfd] at hfd'
      exact absurd hfd' (by decide)
    exact (Function.update_of_ne hne _ _).trans hfd'
  refine ⟨⟨hw.slot, hw.free, fun fd' h => hopen fd' (hw.bound fd' h),
    fun i hi => hopen _ (hw.opened i hi), hw.distinct, hw.unbound, hw.registered⟩, ?_⟩
  refine ⟨Function.update_self _ _ _, fun hbound => ?_, fun i hi heq => ?_⟩
  · have hopened := hw.bound fd hbound
    rw [hfd] at hopened
    exact absurd hopened (by decide)
  · have hopened := hw.opened i hi
    have heq' : (s.connset.ccs i).fd = fd := heq
    rw [heq', hfd] at hopened
    exact absurd hopened (by decide)

/-- A fresh descriptor can be closed again. -/
theorem Wired.closeFresh (hw : Wired e s) {fd : ℕ} (hfd : Fresh fd s) : Wired e (s.closeFd fd) := by
  refine ⟨hw.slot, hw.free, fun fd' hbound => ?_, fun i hi => ?_, hw.distinct, hw.unbound,
    fun i hi => ?_⟩
  · have hne : fd' ≠ fd := fun heq => hfd.unbound (by rw [← heq]; exact hbound)
    exact (Function.update_of_ne hne _ _).trans (hw.bound fd' hbound)
  · exact (Function.update_of_ne (hfd.unused i hi) _ _).trans (hw.opened i hi)
  · obtain ⟨mask, hreg, hmask⟩ := hw.registered i hi
    exact ⟨mask, (Function.update_of_ne (hfd.unused i hi.1) _ _).trans hreg, hmask⟩

/-- A connection is stored in a free slot.  A stream's descriptor is registered for input. -/
theorem Wired.store {fd type g : ℕ} {k : Kernel} (hw : Wired e s)
    (hfree : (s.connset.getcc g).flow = 0) (hopened : k.opened fd = true)
    (hkept : ∀ fd', fd' ≠ fd → k.opened fd' = s.kernel.opened fd' ∧
      k.epoll fd' = s.kernel.epoll fd')
    (hother : ∀ i, Stream (s.connset.ccs i) → (s.connset.ccs i).fd ≠ fd)
    (hnew : type ≠ udpSocket → ¬ s.Bound fd ∧ k.epoll fd = some ⟨g, maskIn⟩ ∧
      ∀ i, (s.connset.ccs i).flow ≠ 0 → (s.connset.ccs i).fd ≠ fd)
    (now : ℤ) (calls : List (ConnOp × ConnOut)) :
    Wired e { s with
      connset := (s.connset.store g fd type now).1, kernel := k, flow := g, calls := calls } := by
  obtain ⟨c, hc⟩ : ∃ c, c = (s.connset.store g fd type now).1 := ⟨_, rfl⟩
  obtain ⟨entry, hentry⟩ : ∃ entry, entry = { s.connset.getcc g with
    flow := g, fd := fd, access := now, type := type } := ⟨_, rfl⟩
  have hmax : c.maxconn = s.connset.maxconn := by rw [hc]; rfl
  have hslot : ∀ i, i = g % s.connset.maxconn ∧ c.ccs i = entry ∨
      i ≠ g % s.connset.maxconn ∧ c.ccs i = s.connset.ccs i := by
    intro i
    rw [hc, hentry]
    by_cases hi : i = g % s.connset.maxconn
    · exact .inl ⟨hi, by rw [hi]; exact Function.update_self _ _ _⟩
    · exact .inr ⟨hi, Function.update_of_ne hi _ _⟩
  have hempty : entry.w.content = [] := by
    rw [hentry]
    exact hw.free (g % s.connset.maxconn) hfree
  have hentryFd : entry.fd = fd := by rw [hentry]
  have hentryFlow : entry.flow = g := by rw [hentry]
  have hentryType : entry.type = type := by rw [hentry]
  have hopen : ∀ fd', s.kernel.opened fd' = true → k.opened fd' = true := by
    intro fd' hfd'
    by_cases heq : fd' = fd
    · rw [heq]
      exact hopened
    · rw [(hkept fd' heq).1]
      exact hfd'
  rw [← hc]
  refine ⟨fun i hi => ?_, fun i hi => ?_, fun fd' hfd' => hopen fd' (hw.bound fd' hfd'),
    fun i hi => ?_, fun i j hij hi hj => ?_, fun i hi => ?_, fun i hi => ?_⟩
  · change (c.ccs i).flow % c.maxconn = i
    change (c.ccs i).flow ≠ 0 at hi
    rw [hmax]
    rcases hslot i with ⟨heq, hccs⟩ | ⟨-, hccs⟩
    · rw [hccs, hentryFlow, heq]
    · rw [hccs] at hi ⊢
      exact hw.slot i hi
  · change (c.ccs i).w.content = []
    change (c.ccs i).flow = 0 at hi
    rcases hslot i with ⟨-, hccs⟩ | ⟨-, hccs⟩
    · rw [hccs]
      exact hempty
    · rw [hccs] at hi ⊢
      exact hw.free i hi
  · change k.opened (c.ccs i).fd = true
    change (c.ccs i).flow ≠ 0 at hi
    rcases hslot i with ⟨-, hccs⟩ | ⟨-, hccs⟩
    · rw [hccs, hentryFd]
      exact hopened
    · rw [hccs] at hi ⊢
      exact hopen _ (hw.opened i hi)
  · change (c.ccs i).fd ≠ (c.ccs j).fd
    change Stream (c.ccs i) at hi
    change (c.ccs j).flow ≠ 0 at hj
    rcases hslot i with ⟨heqi, hccsi⟩ | ⟨-, hccsi⟩
    · rcases hslot j with ⟨heqj, -⟩ | ⟨-, hccsj⟩
      · exact absurd (heqi.trans heqj.symm) hij
      · have htype := hi.2
        rw [hccsi, hentryType] at htype
        rw [hccsj] at hj
        rw [hccsi, hccsj, hentryFd]
        exact ((hnew htype).2.2 j hj).symm
    · rw [hccsi] at hi ⊢
      rcases hslot j with ⟨-, hccsj⟩ | ⟨-, hccsj⟩
      · rw [hccsj, hentryFd]
        exact hother i hi
      · rw [hccsj] at hj ⊢
        exact hw.distinct i j hij hi hj
  · change ¬ s.Bound (c.ccs i).fd
    change Stream (c.ccs i) at hi
    rcases hslot i with ⟨-, hccs⟩ | ⟨-, hccs⟩
    · have htype := hi.2
      rw [hccs, hentryType] at htype
      rw [hccs, hentryFd]
      exact (hnew htype).1
    · rw [hccs] at hi ⊢
      exact hw.unbound i hi
  · change ∃ mask, k.epoll (c.ccs i).fd = some ⟨(c.ccs i).flow, mask⟩ ∧
      (¬ e i → mask = wantedMask (c.ccs i))
    change Stream (c.ccs i) at hi
    rcases hslot i with ⟨-, hccs⟩ | ⟨-, hccs⟩
    · have htype := hi.2
      rw [hccs, hentryType] at htype
      rw [hccs, hentryFd, hentryFlow]
      exact ⟨maskIn, (hnew htype).2.1, fun _ => (if_pos hempty).symm⟩
    · rw [hccs] at hi ⊢
      obtain ⟨mask, hreg, hmask⟩ := hw.registered i hi
      exact ⟨mask, (hkept _ (hother i hi)).2.trans hreg, hmask⟩

/-- A stream is stored under a fresh descriptor, which is registered. -/
theorem Wired.addFresh {fd type g : ℕ} (hw : Wired e s) (hfd : Fresh fd s)
    (hfree : (s.connset.getcc g).flow = 0) (now : ℤ) (calls : List (ConnOp × ConnOut)) :
    Wired e { s with
      connset := (s.connset.store g fd type now).1, kernel := s.kernel.add fd g maskIn
      flow := g, calls := calls } := by
  have hopened : (s.kernel.add fd g maskIn).opened fd = true := hfd.opened
  exact hw.store hfree hopened (fun fd' hne => ⟨rfl, Function.update_of_ne hne _ _⟩)
    (fun i hi => hfd.unused i hi.1)
    (fun _ => ⟨hfd.unbound, Function.update_self _ _ _, hfd.unused⟩) now calls

theorem Wired.handleAccept (hw : Wired e s) (u : σ) (fd : ℕ) (ans : AcceptAnswer)
    (hadded : ans.added = true) : Kept s.stalls e (handleAccept h s u fd ans).1 := by
  unfold SockCommu.handleAccept
  split
  · exact hw.kept
  · next clifd _ =>
    split
    · exact hw.kept
    · next hclosed =>
      obtain ⟨hopen, hfresh⟩ := hw.openFd (Bool.eq_false_of_not_eq_true hclosed)
      obtain ⟨s₁, hs₁⟩ : ∃ s₁, s₁ = (s.openFd clifd).bumpFlow := ⟨_, rfl⟩
      have hopen₁ : Kept s.stalls e s₁ := by
        rw [hs₁]
        exact (hopen.log _ _ _ _).kept
      have hfresh₁ : Fresh clifd s₁ := by
        rw [hs₁]
        exact ⟨hfresh.opened, hfresh.unbound, hfresh.unused⟩
      have hcall := hopen₁.callback (h := h) u (.connected s₁.flow [])
      have hown := (fresh_stable clifd).callback (h := h) hfresh₁ u (.connected s₁.flow [])
      dsimp only
      rw [← hs₁]
      obtain ⟨s₂, hs₂⟩ : ∃ s₂, s₂ = (callback h s₁ u (.connected s₁.flow [])).2.1 := ⟨_, rfl⟩
      rw [← hs₂] at hcall hown ⊢
      have hfail : Kept s.stalls e (s₂.closeFd clifd) := hcall.step rfl fun hw₂ => hw₂.closeFresh hown
      split
      · exact hfail
      · split
        · exact hfail
        · obtain ⟨g, -, ⟨-, heq⟩ | ⟨hfree, -, heq⟩⟩ :=
            addconn_cases s₂ clifd (s₂.sockbind fd) ans.now
          · have hfull : Kept s.stalls e ((s₂.addconn clifd (s₂.sockbind fd) ans.now).1.closeFd clifd) := by
              rw [heq]
              exact hfail.step rfl fun hw₂ => hw₂.log _ _ _ _
            rw [if_pos (by rw [heq]; simp)]
            exact hfull.callback _ _
          · rw [if_neg (by rw [heq]; simp), if_neg (by rw [hadded]; simp), heq]
            exact hcall.step rfl fun hw₂ => hw₂.addFresh hown hfree _ _

theorem Wired.handleAcceptUdp (hw : Wired e s) (u : σ) (fd : ℕ) (ans : RecvAnswer)
    (hbound : s.Bound fd) : Kept s.stalls e (handleAcceptUdp h s u fd ans).1 := by
  have hadd : Kept s.stalls e (s.bumpFlow.addconn fd udpSocket ans.now).1 := by
    obtain ⟨g, -, ⟨-, heq⟩ | ⟨hfree, -, heq⟩⟩ := addconn_cases s.bumpFlow fd udpSocket ans.now
    · rw [heq]
      exact hw.kept.step rfl fun hw' => hw'.log _ _ _ _
    · have hother : ∀ i, Stream (s.connset.ccs i) → (s.connset.ccs i).fd ≠ fd := by
        intro i hi hfd
        refine hw.unbound i hi ?_
        rw [hfd]
        exact hbound
      rw [heq]
      refine hw.kept.step rfl fun hw' => ?_
      exact hw'.store hfree (hw.bound fd hbound) (fun _ _ => ⟨rfl, rfl⟩) hother
        (fun hne => absurd rfl hne) _ _
  unfold SockCommu.handleAcceptUdp
  dsimp only
  split
  · exact hadd.callback _ _
  · have hrecv := fun flow => hadd.recv flow ans.k ans.alloc ans.now
    split
    · exact hrecv _
    · split
      · split
        · exact ((hrecv _).callback _ _).closeconn _
        · exact ((hrecv _).callback _ _).callback _ _
      · exact (hrecv _).closeconn _

/-- `connect` that does not fail after its connection has been stored. -/
theorem Wired.connect (hw : Wired e s) (u : σ) (type : ℕ) (ans : ConnectAnswer)
    (hcode : -1 ≤ (connect h s u type ans).1) : Kept s.stalls e (connect h s u type ans).2.1 := by
  unfold SockCommu.connect at hcode ⊢
  split
  · exact hw.kept
  next htype =>
  rw [if_neg htype] at hcode
  split
  · exact hw.kept
  next hclosed =>
  rw [if_neg hclosed] at hcode
  obtain ⟨hopen, hfresh⟩ := hw.openFd (Bool.eq_false_of_not_eq_true hclosed)
  obtain ⟨s₁, hs₁⟩ : ∃ s₁, s₁ = (s.openFd ans.fd).bumpFlow := ⟨_, rfl⟩
  have hopen₁ : Kept s.stalls e s₁ := by
    rw [hs₁]
    exact (hopen.log _ _ _ _).kept
  have hfresh₁ : Fresh ans.fd s₁ := by
    rw [hs₁]
    exact ⟨hfresh.opened, hfresh.unbound, hfresh.unused⟩
  dsimp only at hcode ⊢
  rw [← hs₁] at hcode ⊢
  obtain ⟨g, -, ⟨-, heq⟩ | ⟨hfree, -, heq⟩⟩ := addconn_cases s₁ ans.fd type ans.now
  · have hfull : Kept s.stalls e ((s₁.addconn ans.fd type ans.now).1.closeFd ans.fd) := by
      rw [heq]
      exact hopen₁.step rfl fun hw₁ => (hw₁.closeFresh hfresh₁).log _ _ _ _
    rw [if_pos (by rw [heq]; simp)]
    exact hfull.callback _ _
  · have hstored : Kept s.stalls e ((s₁.addconn ans.fd type ans.now).1.add ans.fd
        (s₁.addconn ans.fd type ans.now).1.flow maskIn) := by
      rw [heq]
      exact hopen₁.step rfl fun hw₁ => hw₁.addFresh hfresh₁ hfree _ _
    have hret : ¬ (s₁.addconn ans.fd type ans.now).2.ret ≠ some 0 := by
      rw [heq]
      simp
    rw [if_neg hret] at hcode ⊢
    split at hcode
    · simp at hcode
    next hadded =>
    rw [if_neg hadded]
    split at hcode
    · simp at hcode
    next hconnect =>
    rw [if_neg hconnect]
    split at hcode
    · simp at hcode
    next hconnected =>
    rw [if_neg hconnected]
    exact (hstored.callback _ _).callback _ _

theorem Wired.handleReady (hw : Wired e s) (u : σ) (ev : Ready)
    (hadded : s.Bound ev.fd → ev.accept.added = true)
    (hfd : s.connset.Live ev.flow → (s.connset.getcc ev.flow).fd = ev.fd) :
    Kept s.stalls e (handleReady h s u ev).1 := by
  unfold SockCommu.handleReady
  split
  · next hbound =>
    split
    · split
      · exact hw.handleAccept u ev.fd ev.accept (hadded hbound)
      · exact hw.handleAcceptUdp u ev.fd ev.recv hbound
    · exact hw.kept
  · split
    · exact (hw.kept.closeconn _).callback _ _
    · have hout : Kept s.stalls e
          (if ev.epollout then SockCommu.pollOut h s u ev else (s, u)).1 := by
        split
        · exact hw.pollOut u ev hfd
        · exact hw.kept
      dsimp only
      split
      · exact Kept.recvLoop _ _ _ _ _ hout
      · exact hout

/-! ## Runs -/

/-- An event that leaves the registrations in order: epoll reports a descriptor with the
flow of its connection; no connection is stored whose epoll `add` fails, or whose callbacks
in `connect` refuse it; and no callback for `CB_SENDDONE` comes back with bytes waiting on
the stream that it was called for. -/
structure Served (h : Handler σ) (p : SockCommu × σ) (ev : Event) : Prop where
  reported : ∀ r, ev = .ready r → p.1.connset.Live r.flow →
    (p.1.connset.getcc r.flow).fd = r.fd
  added : ∀ r, ev = .ready r → p.1.Bound r.fd → r.accept.added = true
  connected : ∀ type ans, ev = .connect type ans → -1 ≤ (SockCommu.connect h p.1 p.2 type ans).1
  drained : (step h p ev).1.1.stalls = p.1.stalls

theorem Wired.step {p : SockCommu × σ} (hw : Wired e p.1) (ev : Event) (hev : Served h p ev) :
    Wired e (step h p ev).1.1 := by
  have hkept : Kept p.1.stalls e (SockCommu.step h p ev).1.1 := by
    cases ev with
    | ready r => exact hw.handleReady p.2 r (hev.added r rfl) (hev.reported r rfl)
    | sendto c => exact hw.kept.sendto c
    | connect type ans => exact hw.connect p.2 type ans (hev.connected type ans rfl)
    | checkExpire now => exact hw.kept.checkExpire p.2 now
  exact hkept.wired (.inr hev.drained)

theorem Wired.init (maxconn : ℕ) (pos : 0 < maxconn) (bound : maxconn < 2 ^ 31)
    (sockbind : ℕ → ℕ) (maxbindfd : ℕ) (expiretime interval now : ℤ) :
    Wired e (init maxconn pos bound sockbind maxbindfd expiretime interval now) := by
  refine ⟨fun i hi => absurd rfl hi, fun _ _ => rfl, fun fd hfd => ?_, fun i hi => absurd rfl hi,
    fun i _ _ hi => absurd rfl hi.1, fun i hi => absurd rfl hi.1, fun i hi => absurd rfl hi.1⟩
  exact decide_eq_true hfd

/-- In every run of events that leave the registrations in order, every live stream has
`EPOLLOUT` registered exactly while bytes wait in its write cache, after each event. -/
theorem armed_run (h : Handler σ) (u : σ) (maxconn : ℕ) (pos : 0 < maxconn)
    (bound : maxconn < 2 ^ 31) (sockbind : ℕ → ℕ) (maxbindfd : ℕ) (expiretime interval now : ℤ)
    (events : List Event)
    (hserved : Run.Always (step h) (Served h)
      (init maxconn pos bound sockbind maxbindfd expiretime interval now, u) events) :
    ∀ pre, pre <+: events → Armed (Run.final (step h)
      (init maxconn pos bound sockbind maxbindfd expiretime interval now, u) pre).1 := by
  intro pre hpre
  have hinit := Wired.init (e := fun _ => False) maxconn pos bound sockbind maxbindfd expiretime
    interval now
  have hstep : ∀ (p : SockCommu × σ) ev, Wired (fun _ => False) p.1 → Served h p ev →
      Wired (fun _ => False) (step h p ev).1.1 := fun p ev hw hev => hw.step ev hev
  exact (Run.invariant hstep hinit (hserved.of_prefix hpre)).armed

end

/-- A stream is accepted on descriptor 5; three bytes are sent, of which the kernel takes
one, and the rest when the descriptor is ready. -/
theorem armed_run_partial :
    let ready := fun fd flow => Event.ready {
      fd := fd, flow := flow, epollin := fd = 3, epollout := fd = 5
      accept := ⟨some 5, true, true, 0⟩, recv := ⟨.fail 11, .exact, 0⟩
      flush := .sent 2, recvs := [], now := 0 }
    let events := [ready 3 0,
      .sendto ⟨1, ⟨[1, 2, 3], by decide⟩, .sent 1, .sent 1, .exact, 0, []⟩, ready 5 1]
    let reached := fun n => (Run.final (step fun _ _ => ((), ⟨[], 0⟩))
      (init 1 (by decide) (by decide) (fun fd => if fd = 3 then 1 else 0) 3 60 60 0, ())
      (events.take n)).1
    ((reached 2).connset.getcc 1).w.content = [2, 3] ∧ Armed (reached 2) ∧
      ((reached 3).connset.getcc 1).w.content = [] ∧ Armed (reached 3) := by
  intro ready events reached
  have hserved : Run.Always (step fun _ _ => ((), ⟨[], 0⟩)) (Served fun _ _ => ((), ⟨[], 0⟩))
      (init 1 (by decide) (by decide) (fun fd => if fd = 3 then 1 else 0) 3 60 60 0, ())
      events := by
    refine ⟨⟨?_, ?_, fun _ _ hev => Event.noConfusion hev, by decide +kernel⟩,
      ⟨fun _ hev => Event.noConfusion hev, fun _ hev => Event.noConfusion hev, fun _ _ hev => Event.noConfusion hev,
        by decide +kernel⟩,
      ⟨?_, ?_, fun _ _ hev => Event.noConfusion hev, by decide +kernel⟩, trivial⟩
    · rintro r ⟨⟩ hlive
      exact absurd rfl hlive.2
    · rintro r ⟨⟩ -
      rfl
    · rintro r ⟨⟩ -
      decide +kernel
    · rintro r ⟨⟩ -
      rfl
  have harmed := armed_run (fun _ _ => ((), ⟨[], 0⟩)) () 1 (by decide) (by decide)
    (fun fd => if fd = 3 then 1 else 0) 3 60 60 0 events hserved
  exact ⟨by decide +kernel, harmed _ (List.take_prefix 2 events), by decide +kernel,
    harmed _ (List.take_prefix 3 events)⟩

/-- A stream is accepted on descriptor 5, and one byte is sent to it at once.  The callback
sends two more, of which the kernel takes one: a byte waits, and no `EPOLLOUT` is set. -/
theorem not_armed_resend :
    let accept := Event.ready {
      fd := 3, flow := 0, epollin := true, epollout := false
      accept := ⟨some 5, true, true, 0⟩, recv := ⟨.fail 11, .exact, 0⟩
      flush := .fail 11, recvs := [], now := 0 }
    let more := SendCall.mk 1 ⟨[2, 3], by decide⟩ (.sent 1) (.sent 1) .exact 0 []
    let send := SendCall.mk 1 ⟨[1], by decide⟩ (.sent 1) (.sent 1) .exact 0 [more]
    ¬ Armed (Run.final (step fun _ _ => ((), ⟨[], 0⟩))
      (init 1 (by decide) (by decide) (fun fd => if fd = 3 then 1 else 0) 3 60 60 0, ())
      [accept, .sendto send]).1 := by
  intro accept more send harmed
  have hwaits := (harmed 0 (by unfold Stream; decide +kernel)).mpr (by decide +kernel)
  obtain ⟨r, hreg, hout⟩ := hwaits
  have hmask : some r = some ⟨1, maskIn⟩ := hreg.symm.trans (by decide +kernel)
  rw [Option.some.inj hmask] at hout
  exact absurd hout (by decide)

end SockCommu
end Spp
