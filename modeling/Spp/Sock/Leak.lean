import Spp.Sock.Output
import Spp.Sock.Table

/-!
# Failed accepts and connects

`handle_accept` and `connect` close the descriptor on every path that fails.  The paths
before `addconn`, and a full table, leave the table as it was.  When the epoll `add` fails
the connection has been stored already and nobody takes it out again; `connect` does the same
when its callbacks refuse the connection.  The slot then keeps a descriptor that is closed.

## Main definitions

* `FirstFree` — where the search of `addconn` ends.
* `codes` — the callbacks without the calls they make.
* `AcceptKeeps`, `ConnectKeeps` — a call that fails leaves the table as it was.
* `AcceptLeaks`, `ConnectLeaks` — the connection is stored before the call fails.
-/

namespace Spp

namespace ConnSet

/-- The search from the flow ends at `g`, the first flow whose slot is free. -/
def FirstFree (c : ConnSet) (flow g : ℕ) : Prop :=
  ∃ k < c.maxconn, g = u32 (flow + k) ∧ (c.getcc g).flow = 0 ∧
    ∀ j < k, (c.getcc (u32 (flow + j))).flow ≠ 0

variable {c : ConnSet} {flow : ℕ}

theorem FirstFree.unique {g g' : ℕ} (h : c.FirstFree flow g) (h' : c.FirstFree flow g') :
    g = g' := by
  obtain ⟨k, -, rfl, hfree, htaken⟩ := h
  obtain ⟨k', -, rfl, hfree', htaken'⟩ := h'
  rcases Nat.lt_trichotomy k k' with hlt | rfl | hlt
  · exact absurd hfree (htaken' k hlt)
  · rfl
  · exact absurd hfree' (htaken k' hlt)

/-- `addconn` stores the connection where the search ends, or fails when there is no free
slot on its way. -/
theorem addconn_firstFree (c : ConnSet) (hlt : flow < 2 ^ 32) (fd type : ℕ) (now : ℤ) :
    (∃ g, c.FirstFree flow g ∧ c.addconn flow fd type now = c.store g fd type now) ∨
      (∀ g, ¬ c.FirstFree flow g) ∧
        c.addconn flow fd type now = (c, ⟨some (-1), u32 (flow + c.maxconn), []⟩) := by
  by_cases hfree : (c.getcc flow).flow = 0
  · left
    refine ⟨flow, ⟨0, c.pos, (u32_of_lt hlt).symm, hfree, by simp⟩, ?_⟩
    exact addconn_of_free hfree fd type now
  · have hfirst : (c.getcc (u32 (flow + 0))).flow ≠ 0 := by
      rw [Nat.add_zero, u32_of_lt hlt]
      exact hfree
    obtain ⟨k, hk, htaken, ⟨rfl, heq⟩ | ⟨hk', hfound, heq⟩⟩ := addconn_of_taken hfree fd type now
    · right
      refine ⟨?_, heq⟩
      rintro g ⟨j, hj, rfl, hjfree, -⟩
      rcases Nat.eq_zero_or_pos j with rfl | hpos
      · exact hfirst hjfree
      · exact htaken j hpos hj hjfree
    · left
      refine ⟨u32 (flow + k), ⟨k, hk', rfl, hfound, fun j hj => ?_⟩, heq⟩
      rcases Nat.eq_zero_or_pos j with rfl | hpos
      · exact hfirst
      · exact htaken j hpos hj

/-- Every slot carries the same flow, and `curconn_` is the same. -/
structure SameTable (c c' : ConnSet) : Prop where
  slot : ∀ i, (c'.ccs i).flow = (c.ccs i).flow
  count : c'.curconn = c.curconn

theorem SameTable.refl (c : ConnSet) : SameTable c c := ⟨fun _ => rfl, rfl⟩

/-- A connection that has been stored is counted. -/
theorem not_sameTable_store (c : ConnSet) (g fd type : ℕ) (now : ℤ) :
    ¬ SameTable c (c.store g fd type now).1 := by
  intro h
  have hcount : c.curconn + 1 = c.curconn := h.count
  omega

end ConnSet

namespace SockCommu

open ConnSet

variable {σ : Type} (h : Handler σ) (s : SockCommu) (u : σ)

/-- The callbacks without the calls they make. -/
def codes : Handler σ := fun u n => ((h u n).1, ⟨[], (h u n).2.ret⟩)

/-- An accept whose descriptor is not registered afterwards leaves the table as it was. -/
def AcceptKeeps (fd : ℕ) (ans : AcceptAnswer) : Prop :=
  (∀ clifd, ans.fd = some clifd → s.kernel.opened clifd = false →
    (handleAccept h s u fd ans).1.kernel.epoll clifd = none) →
  SameTable s.connset (handleAccept h s u fd ans).1.connset

/-- A `connect` that fails leaves the table as it was. -/
def ConnectKeeps (type : ℕ) (ans : ConnectAnswer) : Prop :=
  (connect h s u type ans).1 ≠ 0 →
  SameTable s.connset (connect h s u type ans).2.1.connset

/-- The callback takes the accepted connection, `addconn` finds a slot for it, and the epoll
`add` fails. -/
def AcceptLeaks (ans : AcceptAnswer) : Prop :=
  ∃ clifd, ans.fd = some clifd ∧ s.kernel.opened clifd = false ∧
    (h u (.connected (bump s.flow) [])).2.ret = 0 ∧ ans.nonblock = true ∧
    (∃ g, (callback h (s.openFd clifd).bumpFlow u (.connected (bump s.flow) [])).2.1.connset.FirstFree
      (bump s.flow) g) ∧
    ans.added = false

/-- `addconn` finds a slot for the opened connection, and the epoll `add` fails or a callback
refuses it. -/
def ConnectLeaks (type : ℕ) (ans : ConnectAnswer) : Prop :=
  type ≠ 0 ∧ s.kernel.opened ans.fd = false ∧ ∃ g, s.connset.FirstFree (bump s.flow) g ∧
    (ans.added = false ∨ (h u (.connect g)).2.ret ≠ 0 ∨
      (h (h u (.connect g)).1 (.connected g [])).2.ret ≠ 0)

variable {h s u}

@[simp] theorem closeFd_connset (s : SockCommu) (fd : ℕ) : (s.closeFd fd).connset = s.connset := rfl

@[simp] theorem codes_ret (u : σ) (n : Notice) : (codes h u n).2.ret = (h u n).2.ret := rfl

@[simp] theorem codes_user (u : σ) (n : Notice) : (codes h u n).1 = (h u n).1 := rfl

@[simp] theorem callback_codes (s : SockCommu) (u : σ) (n : Notice) :
    callback (codes h) s u n = ((h u n).2.ret, s, (h u n).1) := rfl

/-- Sending leaves the flow counter alone. -/
theorem flow_sending (flow : ℕ) : Sending fun s : SockCommu => s.flow = flow where
  send _ _ _ _ _ _ _ hs := hs
  closeconn s f hs := (closeconn_flow s f).trans hs
  modify _ _ _ _ hs := hs
  stall _ hs := hs

@[simp] theorem callback_flow (s : SockCommu) (u : σ) (n : Notice) :
    (callback h s u n).2.1.flow = s.flow := (flow_sending s.flow).callback rfl u n

@[simp] theorem callback_ret (s : SockCommu) (u : σ) (n : Notice) :
    (callback h s u n).1 = (h u n).2.ret := rfl

@[simp] theorem callback_user (s : SockCommu) (u : σ) (n : Notice) :
    (callback h s u n).2.2 = (h u n).1 := rfl

@[simp] theorem add_flow (s : SockCommu) (fd flow : ℕ) (mask : EpollMask) :
    (s.add fd flow mask).flow = s.flow := rfl

/-- `addconn` for the component: the table, the counter and the history. -/
theorem addconn_firstFree (s : SockCommu) (hlt : s.flow < 2 ^ 32) (fd type : ℕ) (now : ℤ) :
    (∃ g, s.connset.FirstFree s.flow g ∧ (s.addconn fd type now).2.ret = some 0 ∧
      (s.addconn fd type now).1.flow = g ∧
      (s.addconn fd type now).1.connset = (s.connset.store g fd type now).1 ∧
      (s.addconn fd type now).1.calls =
        s.calls ++ [(.addconn s.flow fd type now, ⟨some 0, g, []⟩)]) ∨
    (∀ g, ¬ s.connset.FirstFree s.flow g) ∧ (s.addconn fd type now).2.ret ≠ some 0 ∧
      (s.addconn fd type now).1.connset = s.connset ∧ ∃ g,
      (s.addconn fd type now).1.calls =
        s.calls ++ [(.addconn s.flow fd type now, ⟨some (-1), g, []⟩)] := by
  have hcall : s.addconn fd type now =
      ({ s with
        connset := (s.connset.addconn s.flow fd type now).1
        flow := (s.connset.addconn s.flow fd type now).2.flow
        calls := s.calls ++ [(.addconn s.flow fd type now,
          (s.connset.addconn s.flow fd type now).2)] },
        (s.connset.addconn s.flow fd type now).2) := rfl
  rcases s.connset.addconn_firstFree hlt fd type now with ⟨g, hfirst, heq⟩ | ⟨hnone, heq⟩
  · left
    refine ⟨g, hfirst, ?_⟩
    simp [hcall, heq, ConnSet.store]
  · right
    refine ⟨hnone, ?_⟩
    simp [hcall, heq]

/-! ## One call -/

/-- What `handle_accept` does with a descriptor that it gets, from the state `s₁` in which
`CB_CONNECTED` comes back. -/
theorem handleAccept_cases {s₁ : SockCommu} (fd : ℕ) {clifd : ℕ} {ans : AcceptAnswer}
    (hfd : ans.fd = some clifd) (hopened : s.kernel.opened clifd = false)
    (hs₁ : s₁ = (callback h (s.openFd clifd).bumpFlow u (.connected (bump s.flow) [])).2.1) :
    (((h u (.connected (bump s.flow) [])).2.ret ≠ 0 ∨ ans.nonblock = false) ∧
      handleAccept h s u fd ans =
        (s₁.closeFd clifd, (h u (.connected (bump s.flow) [])).1)) ∨
    (h u (.connected (bump s.flow) [])).2.ret = 0 ∧ ans.nonblock = true ∧
      ((∀ g, ¬ s₁.connset.FirstFree (bump s.flow) g) ∧ (∃ g,
        (s₁.addconn clifd (s₁.sockbind fd) ans.now).1.connset = s₁.connset ∧
        (s₁.addconn clifd (s₁.sockbind fd) ans.now).1.calls =
          s₁.calls ++ [(.addconn s₁.flow clifd (s₁.sockbind fd) ans.now, ⟨some (-1), g, []⟩)]) ∧
        handleAccept h s u fd ans =
          (callback h ((s₁.addconn clifd (s₁.sockbind fd) ans.now).1.closeFd clifd)
            (h u (.connected (bump s.flow) [])).1 .overload).2 ∨
      ∃ g, s₁.connset.FirstFree (bump s.flow) g ∧
        (s₁.addconn clifd (s₁.sockbind fd) ans.now).1.connset =
          (s₁.connset.store g clifd (s₁.sockbind fd) ans.now).1 ∧
        (s₁.addconn clifd (s₁.sockbind fd) ans.now).1.calls =
          s₁.calls ++ [(.addconn s₁.flow clifd (s₁.sockbind fd) ans.now, ⟨some 0, g, []⟩)] ∧
        handleAccept h s u fd ans =
          (if ans.added then (s₁.addconn clifd (s₁.sockbind fd) ans.now).1.add clifd g maskIn
            else (s₁.addconn clifd (s₁.sockbind fd) ans.now).1.closeFd clifd,
            (h u (.connected (bump s.flow) [])).1)) := by
  obtain ⟨s₀, hs₀⟩ : ∃ s₀, s₀ = (s.openFd clifd).bumpFlow := ⟨_, rfl⟩
  have hflow₀ : s₀.flow = bump s.flow := by rw [hs₀]; rfl
  rw [← hs₀] at hs₁
  have hflow : s₁.flow = bump s.flow := by simp [hs₁, hflow₀]
  have hsearch := addconn_firstFree s₁ (hflow.trans_lt (bump_lt_pow s.flow)) clifd
    (s₁.sockbind fd) ans.now
  rw [hflow] at hsearch
  unfold handleAccept
  simp only [hfd, hopened, ← hs₀, hflow₀, callback_ret, callback_user, ← hs₁]
  by_cases hret : (h u (.connected (bump s.flow) [])).2.ret = 0
  · cases hnonblock : ans.nonblock
    · simp [hret]
    · right
      rcases hsearch with ⟨g, hfirst, hstored, hg, hstore, hcalls⟩ | ⟨hnone, hfull, hsame, hcalls⟩
      · refine ⟨hret, rfl, .inr ⟨g, hfirst, hstore, hflow ▸ hcalls, ?_⟩⟩
        cases hadded : ans.added <;> simp [hret, hstored, hg]
      · obtain ⟨g, hcalls⟩ := hcalls
        refine ⟨hret, rfl, .inl ⟨hnone, ⟨g, hsame, hflow ▸ hcalls⟩, ?_⟩⟩
        simp [hret, hfull]
  · simp [hret]

theorem closeFd_epoll (s : SockCommu) (fd : ℕ) : (s.closeFd fd).kernel.epoll fd = none :=
  Function.update_self _ _ _

theorem add_epoll (s : SockCommu) (fd flow : ℕ) (mask : EpollMask) :
    (s.add fd flow mask).kernel.epoll fd = some ⟨flow, mask⟩ := Function.update_self _ _ _

theorem acceptKeeps_iff (h : Handler σ) (s : SockCommu) (u : σ) (fd : ℕ) (ans : AcceptAnswer) :
    AcceptKeeps (codes h) s u fd ans ↔ ¬ AcceptLeaks (codes h) s u ans := by
  cases hfd : ans.fd with
  | none => simp [AcceptKeeps, AcceptLeaks, handleAccept, hfd, SameTable.refl]
  | some clifd =>
    cases hopened : s.kernel.opened clifd with
    | true => simp [AcceptKeeps, AcceptLeaks, handleAccept, hfd, hopened, SameTable.refl]
    | false =>
      obtain ⟨s₁, hs₁⟩ : ∃ s₁, s₁ = (callback (codes h) (s.openFd clifd).bumpFlow u
        (.connected (bump s.flow) [])).2.1 := ⟨_, rfl⟩
      have htable : s₁.connset = s.connset := by rw [hs₁]; rfl
      have hleaks : AcceptLeaks (codes h) s u ans ↔
          (h u (.connected (bump s.flow) [])).2.ret = 0 ∧ ans.nonblock = true ∧
            (∃ g, s.connset.FirstFree (bump s.flow) g) ∧ ans.added = false := by
        simp [AcceptLeaks, hfd, hopened, ← htable, hs₁]
      rw [hleaks]
      rcases handleAccept_cases fd hfd hopened hs₁ with
        ⟨hrefused, heq⟩ | ⟨hret, hnonblock, ⟨hnone, ⟨-, hsame, -⟩, heq⟩ | ⟨g, hfirst, hstore, -, heq⟩⟩
      · refine iff_of_true (fun _ => ?_) ?_
        · rw [heq]
          simp [htable, SameTable.refl]
        · rintro ⟨hret, hnonblock, -⟩
          simp [hret, hnonblock] at hrefused
      · rw [htable] at hnone hsame
        refine iff_of_true (fun _ => ?_) ?_
        · rw [heq]
          simp [hsame, SameTable.refl]
        · rintro ⟨-, -, ⟨g, hfirst⟩, -⟩
          exact hnone g hfirst
      · rw [htable] at hfirst
        have hsome : ∃ g, s.connset.FirstFree (bump s.flow) g := ⟨g, hfirst⟩
        simp only [codes_ret] at hret
        cases hadded : ans.added
        · have hleft : ¬ SameTable s.connset (s₁.addconn clifd (s₁.sockbind fd) ans.now).1.connset := by
            rw [hstore, htable]
            exact not_sameTable_store _ _ _ _ _
          simpa [AcceptKeeps, heq, hadded, hfd, closeFd_epoll, hret, hnonblock, hsome] using hleft
        · simp [AcceptKeeps, heq, hadded, hfd, hopened, add_epoll]

theorem connectKeeps_iff (h : Handler σ) (s : SockCommu) (u : σ) (type : ℕ) (ans : ConnectAnswer) :
    ConnectKeeps (codes h) s u type ans ↔ ¬ ConnectLeaks (codes h) s u type ans := by
  by_cases htype : type = 0
  · simp [ConnectKeeps, ConnectLeaks, connect, htype, SameTable.refl]
  by_cases hopened : s.kernel.opened ans.fd = true
  · simp [ConnectKeeps, ConnectLeaks, connect, hopened, htype, SameTable.refl]
  obtain ⟨s₁, hs₁⟩ : ∃ s₁, s₁ = (s.openFd ans.fd).bumpFlow := ⟨_, rfl⟩
  have hflow : s₁.flow = bump s.flow := by rw [hs₁]; rfl
  have htable : s₁.connset = s.connset := by rw [hs₁]; rfl
  have hsearch := addconn_firstFree s₁ (hflow ▸ bump_lt_pow s.flow) ans.fd type ans.now
  rw [htable, hflow] at hsearch
  unfold ConnectKeeps ConnectLeaks connect
  simp only [hopened, htype, ← hs₁, callback_codes, ne_eq]
  rcases hsearch with ⟨g, hfirst, hstored, hg, hstore, -⟩ | ⟨hnone, hfull, hsame, -⟩
  · have hleft : ¬ SameTable s.connset (s₁.addconn ans.fd type ans.now).1.connset := by
      rw [hstore]
      exact not_sameTable_store _ _ _ _ _
    have honly : ∀ P : ℕ → Prop, (∃ g, s.connset.FirstFree (bump s.flow) g ∧ P g) ↔ P g := by
      intro P
      constructor
      · rintro ⟨g', hfirst', hP⟩
        exact hfirst.unique hfirst' ▸ hP
      · exact fun hP => ⟨g, hfirst, hP⟩
    rw [honly]
    by_cases hadded : ans.added = false
    · simpa [hstored, hadded] using hleft
    by_cases hconnect : (h u (.connect g)).2.ret = 0
    · by_cases hconnected : (h (h u (.connect g)).1 (.connected g [])).2.ret = 0
      · simp [hstored, hadded, add, hg, hconnect, hconnected]
      · simpa [hstored, hadded, add, hg, hconnect, hconnected] using hleft
    · simpa [hstored, hadded, add, hg, hconnect] using hleft
  · simp [hfull, hnone, hsame, SameTable.refl]

/-! ## Runs -/

/-- The answer for the epoll `add` is read only where the connection has been stored. -/
theorem handleAccept_added {ans : AcceptAnswer} (hkept : ¬ AcceptLeaks h s u ans) (fd : ℕ) :
    handleAccept h s u fd ans = handleAccept h s u fd { ans with added := true } := by
  cases hadded : ans.added with
  | true => rw [← hadded]
  | false =>
    obtain ⟨ans', hans'⟩ : ∃ ans', ans' = { ans with added := true } := ⟨_, rfl⟩
    rw [← hans']
    cases hfd : ans.fd with
    | none => simp [handleAccept, hans', hfd]
    | some clifd =>
      cases hopened : s.kernel.opened clifd with
      | true => simp [handleAccept, hans', hfd, hopened]
      | false =>
        obtain ⟨s₁, hs₁⟩ : ∃ s₁, s₁ = (callback h (s.openFd clifd).bumpFlow u
          (.connected (bump s.flow) [])).2.1 := ⟨_, rfl⟩
        have hfd' : ans'.fd = some clifd := by rw [hans']; exact hfd
        have hnonblock' : ans'.nonblock = ans.nonblock := by rw [hans']
        have hnow' : ans'.now = ans.now := by rw [hans']
        have hroom : (h u (.connected (bump s.flow) [])).2.ret = 0 → ans.nonblock = true →
            ∀ g, ¬ s₁.connset.FirstFree (bump s.flow) g := by
          intro hret hnonblock g hfirst
          refine hkept ⟨clifd, hfd, hopened, hret, hnonblock, ⟨g, ?_⟩, hadded⟩
          rw [← hs₁]
          exact hfirst
        have hcases' := handleAccept_cases fd hfd' hopened hs₁
        rw [hnonblock', hnow'] at hcases'
        rcases handleAccept_cases fd hfd hopened hs₁ with
          ⟨hrefused, heq⟩ | ⟨hret, hnonblock, ⟨-, -, heq⟩ | ⟨g, hfirst, -⟩⟩
        · rcases hcases' with ⟨-, heq'⟩ | ⟨hret, hnonblock, -⟩
          · rw [heq, heq']
          · simp [hret, hnonblock] at hrefused
        · rcases hcases' with ⟨hrefused, -⟩ | ⟨-, -, ⟨-, -, heq'⟩ | ⟨g, hfirst, -⟩⟩
          · simp [hret, hnonblock] at hrefused
          · rw [heq, heq']
          · exact absurd hfirst (hroom hret hnonblock g)
        · exact absurd hfirst (hroom hret hnonblock g)

/-- A `connect` that does not leak fails before it stores its connection, or not at all. -/
theorem connect_code {type : ℕ} {ans : ConnectAnswer} (hkept : ¬ ConnectLeaks h s u type ans) :
    -1 ≤ (connect h s u type ans).1 := by
  unfold connect
  split
  · simp
  next htype =>
  split
  · simp
  next hopened =>
  obtain ⟨s₁, hs₁⟩ : ∃ s₁, s₁ = (s.openFd ans.fd).bumpFlow := ⟨_, rfl⟩
  have hflow : s₁.flow = bump s.flow := by rw [hs₁]; rfl
  have htable : s₁.connset = s.connset := by rw [hs₁]; rfl
  have hsearch := addconn_firstFree s₁ (hflow ▸ bump_lt_pow s.flow) ans.fd type ans.now
  rw [htable, hflow] at hsearch
  rw [Bool.not_eq_true] at hopened
  simp only [← hs₁]
  rcases hsearch with ⟨g, hfirst, hstored, hg, -⟩ | ⟨-, hfull, -⟩
  · have hfine : ans.added ≠ false ∧ (h u (.connect g)).2.ret = 0 ∧
        (h (h u (.connect g)).1 (.connected g [])).2.ret = 0 := by
      by_contra hbad
      refine hkept ⟨htype, hopened, g, hfirst, ?_⟩
      rw [not_and_or, not_and_or, not_not] at hbad
      exact hbad
    simp [hstored, hfine, hg]
  · simp [hfull]

/-- An event that epoll reports in order and that stores no connection only to fail. -/
structure Lodged (h : Handler σ) (p : SockCommu × σ) (ev : Event) : Prop where
  reported : ∀ r, ev = .ready r → p.1.connset.Live r.flow →
    (p.1.connset.getcc r.flow).fd = r.fd
  accepted : ∀ r, ev = .ready r → p.1.Bound r.fd → r.epollin = true →
    p.1.sockbind r.fd ≠ udpSocket → ¬ AcceptLeaks h p.1 p.2 r.accept
  connected : ∀ type ans, ev = .connect type ans → ¬ ConnectLeaks h p.1 p.2 type ans

theorem Wired.lodgedStep {e : ℕ → Prop} {p : SockCommu × σ} (hw : Wired e p.1) (ev : Event)
    (hev : Lodged h p ev) : Kept p.1.stalls e (SockCommu.step h p ev).1.1 := by
  cases ev with
  | ready r =>
    -- where the answer for the epoll `add` is not read, it might as well be the good one
    obtain ⟨r', hr'⟩ : ∃ r', r' = { r with accept := { r.accept with added := true } } := ⟨_, rfl⟩
    have hsame : SockCommu.handleReady h p.1 p.2 r = SockCommu.handleReady h p.1 p.2 r' := by
      rw [hr']
      unfold SockCommu.handleReady
      refine ite_congr rfl (fun hbound => ?_) fun _ => rfl
      refine ite_congr rfl (fun hin => ?_) fun _ => rfl
      refine ite_congr rfl (fun hudp => ?_) fun _ => rfl
      exact handleAccept_added (hev.accepted r rfl hbound hin hudp) r.fd
    rw [SockCommu.step, hsame]
    refine hw.handleReady p.2 r' (fun _ => ?_) ?_
    · rw [hr']
    · rw [hr']
      exact hev.reported r rfl
  | sendto c => exact hw.kept.sendto c
  | connect type ans => exact hw.connect p.2 type ans (connect_code (hev.connected type ans rfl))
  | checkExpire now => exact hw.kept.checkExpire p.2 now

/-- A call that fails leaves the table as it was, but for what its callbacks do to it, exactly
when it has not stored its connection before it fails; and in every run without such calls
every slot with a connection has a descriptor that is open. -/
theorem failed_keeps_table (h : Handler σ) :
    (∀ s u fd ans, AcceptKeeps (codes h) s u fd ans ↔ ¬ AcceptLeaks (codes h) s u ans) ∧
    (∀ s u type ans, ConnectKeeps (codes h) s u type ans ↔ ¬ ConnectLeaks (codes h) s u type ans) ∧
    ∀ (u : σ) (maxconn : ℕ) (pos : 0 < maxconn) (bound : maxconn < 2 ^ 31) (sockbind : ℕ → ℕ)
      (maxbindfd : ℕ) (expiretime interval now : ℤ) (events : List Event),
      Run.Always (step h) (Lodged h)
        (init maxconn pos bound sockbind maxbindfd expiretime interval now, u) events →
      ∀ pre, pre <+: events →
        let s := (Run.final (step h)
          (init maxconn pos bound sockbind maxbindfd expiretime interval now, u) pre).1
        ∀ i, (s.connset.ccs i).flow ≠ 0 → s.kernel.opened (s.connset.ccs i).fd = true := by
  refine ⟨acceptKeeps_iff h, connectKeeps_iff h, ?_⟩
  intro u maxconn pos bound sockbind maxbindfd expiretime interval now events hlodged pre hpre
  have hinit := Wired.init (e := fun _ => True) maxconn pos bound sockbind maxbindfd expiretime
    interval now
  have hstep : ∀ (p : SockCommu × σ) ev, Wired (fun _ => True) p.1 → Lodged h p ev →
      Wired (fun _ => True) (step h p ev).1.1 := fun p ev hw hev =>
    (hw.lodgedStep ev hev).wired (.inl fun _ => trivial)
  exact (Run.invariant hstep hinit (hlodged.of_prefix hpre)).opened

/-- One stream is accepted on descriptor 5, and the next is refused because the table is
full. -/
theorem failed_keeps_table_full :
    let accept := fun clifd => Event.ready {
      fd := 3, flow := 0, epollin := true, epollout := false
      accept := ⟨some clifd, true, true, 0⟩, recv := ⟨.fail 11, .exact, 0⟩
      flush := .fail 11, recvs := [], now := 0 }
    let s := (Run.final (step fun _ _ => ((), ⟨[], 0⟩))
      (init 1 (by decide) (by decide) (fun fd => if fd = 3 then 1 else 0) 3 60 60 0, ())
      [accept 5, accept 6]).1
    (s.connset.ccs 0).flow = 1 ∧ s.kernel.opened (s.connset.ccs 0).fd = true := by
  intro accept s
  have hlodged : Run.Always (step fun _ _ => ((), ⟨[], 0⟩)) (Lodged fun _ _ => ((), ⟨[], 0⟩))
      (init 1 (by decide) (by decide) (fun fd => if fd = 3 then 1 else 0) 3 60 60 0, ())
      [accept 5, accept 6] := by
    refine ⟨⟨?_, ?_, fun _ _ hev => Event.noConfusion hev⟩,
      ⟨?_, ?_, fun _ _ hev => Event.noConfusion hev⟩, trivial⟩
    all_goals rintro r ⟨⟩
    · exact fun hlive => absurd rfl hlive.2
    · rintro - - - ⟨_, -, -, -, -, -, hadded⟩
      cases hadded
    · exact fun hlive => absurd rfl hlive.2
    · rintro - - - ⟨_, -, -, -, -, -, hadded⟩
      cases hadded
  have hfree : (s.connset.ccs 0).flow = 1 := by decide +kernel
  refine ⟨hfree, ?_⟩
  have hopened := (failed_keeps_table fun (_ : Unit) _ => ((), ⟨[], 0⟩)).2.2 () 1 (by decide) (by decide)
    (fun fd => if fd = 3 then 1 else 0) 3 60 60 0 [accept 5, accept 6] hlodged _ (List.prefix_refl _)
  exact hopened 0 (by rw [hfree]; decide)

/-- The epoll `add` fails for the stream that is accepted on descriptor 5: its slot stays
occupied, with the descriptor closed. -/
theorem not_acceptKeeps_added :
    let s := init 1 (by decide) (by decide) (fun fd => if fd = 3 then 1 else 0) 3 60 60 0
    let h : Handler Unit := codes fun _ _ => ((), ⟨[], 0⟩)
    let s' := (handleAccept h s () 3 ⟨some 5, true, false, 0⟩).1
    ¬ AcceptKeeps h s () 3 ⟨some 5, true, false, 0⟩ ∧
      (s'.connset.ccs 0).flow = 1 ∧ s'.kernel.opened (s'.connset.ccs 0).fd = false := by
  intro s h s'
  refine ⟨fun hkeeps => ?_, by decide +kernel, by decide +kernel⟩
  have hsame := hkeeps fun clifd hfd _ => by
    cases hfd
    decide +kernel
  exact absurd (hsame.slot 0) (by decide +kernel)

end SockCommu
end Spp
