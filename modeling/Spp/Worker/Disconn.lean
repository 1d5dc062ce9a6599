import Spp.Worker.CommuMng

/-!
# Lost backend connections

When the poll reports that a backend connection is gone, `ctor_disconn` takes the flow out of
the connection manager and then asks the manager for the server type of that flow.  By then
there is none, so the handler is not called for a flow that was registered.

## Main definitions

* `Worker` — the connections, and whether a handler for `EVENT_DISCONNECT` is installed.
* `Worker.ctorDisconn` — the callback.
* `BackOp`, `Worker.step` — what may happen to the connections.
* `Worker.Reported` — a lost connection is reported and removed; `Worker.Loses` — the poll
  reports one that is registered, and somebody wants to hear of it.
-/

namespace Spp

/-- A call of the handler for `EVENT_DISCONNECT`, with the lengths in the blob it gets. -/
structure BackEvent where
  servType : ℕ
  flow : ℕ
  len : ℕ
  extLen : ℕ
  deriving DecidableEq

/-- The part of `CDefaultWorker` that `ctor_disconn` uses. -/
structure Worker where
  commuMng : CommuMng
  disconnEvent : Bool

namespace Worker

/-- `ctor_disconn`, and the calls of the handler.  The blob is emptied for the handler. -/
def ctorDisconn (w : Worker) (flow : ℕ) : Worker × List BackEvent :=
  let w := { w with commuMng := (w.commuMng.rmConn flow).2 }
  if w.disconnEvent then
    let servType := w.commuMng.getServerTypeByFlow flow
    if servType > 0 then (w, [⟨servType, flow, 0, 0⟩]) else (w, [])
  else (w, [])

/-- What may happen to the backend connections. -/
inductive BackOp
  | addConn (servType nodeId flow : ℕ)
  | rmConn (flow : ℕ)
  | regBackEventProc (installed : Bool)
  | disconn (flow : ℕ)

/-- One of these; only a disconnect calls the handler. -/
def step (w : Worker) : BackOp → Worker × List BackEvent
  | .addConn servType nodeId flow =>
      ({ w with commuMng := w.commuMng.addConn servType nodeId flow }, [])
  | .rmConn flow => ({ w with commuMng := (w.commuMng.rmConn flow).2 }, [])
  | .regBackEventProc installed => ({ w with disconnEvent := installed }, [])
  | .disconn flow => w.ctorDisconn flow

/-- Connections are registered under a server type other than 0, each with a flow that no
other one has. -/
def Valid (w : Worker) : BackOp → Prop
  | .addConn servType _ flow => servType ≠ 0 ∧ ∀ t n, w.commuMng.at? t n ≠ some flow
  | _ => True

/-- A disconnect of a registered flow is reported with its server type where a handler is
installed, and the flow is the one that is no longer registered. -/
def Reported (w : Worker) : BackOp → Prop
  | .disconn flow => ∀ t, w.commuMng.Registered flow t → w.disconnEvent →
      (w.step (.disconn flow)).2 = [⟨t, flow, 0, 0⟩] ∧
      ∀ t' n', (w.step (.disconn flow)).1.commuMng.at? t' n' =
        if w.commuMng.at? t' n' = some flow then none else w.commuMng.at? t' n'
  | _ => True

/-- A disconnect is reported for a registered flow while a handler is installed. -/
def Loses (w : Worker) : BackOp → Prop
  | .disconn flow => w.disconnEvent ∧ ∃ t, w.commuMng.Registered flow t
  | _ => False

variable {w : Worker} {flow t : ℕ} {op : BackOp}

/-- The manager no longer knows the flow when it is asked. -/
theorem ctorDisconn_calls (hw : w.commuMng.Unshared) (flow : ℕ) :
    (w.ctorDisconn flow).2 = [] := by
  have hnone := CommuMng.findFlow_rmConn (f := flow) hw
  simp [ctorDisconn, CommuMng.getServerTypeByFlow, hnone]

theorem ctorDisconn_commuMng (w : Worker) (flow : ℕ) :
    (w.ctorDisconn flow).1.commuMng = (w.commuMng.rmConn flow).2 := by
  unfold ctorDisconn
  dsimp only
  split
  · split <;> rfl
  · rfl

theorem unshared_step (hw : w.commuMng.Unshared) (hop : w.Valid op) :
    (w.step op).1.commuMng.Unshared := by
  cases op with
  | addConn servType nodeId flow => exact hw.addConn hop.2
  | rmConn flow => exact hw.rmConn
  | regBackEventProc installed => exact hw
  | disconn flow =>
      rw [step, ctorDisconn_commuMng]
      exact hw.rmConn

theorem reported_iff (hw : w.commuMng.Unshared) : w.Reported op ↔ ¬ w.Loses op := by
  cases op with
  | disconn flow =>
      constructor
      · rintro hreported ⟨hevent, t, ht⟩
        have hcalls := (hreported t ht hevent).1
        rw [step, ctorDisconn_calls hw] at hcalls
        cases hcalls
      · intro hkept t ht hevent
        exact absurd ⟨hevent, t, ht⟩ hkept
  | addConn servType nodeId flow => simp [Reported, Loses]
  | rmConn flow => simp [Reported, Loses]
  | regBackEventProc installed => simp [Reported, Loses]

/-- Every lost connection of a run is reported exactly if none is lost while somebody wants to
hear of it. -/
theorem always_reported_iff (installed : Bool) (ops : List BackOp)
    (hvalid : Run.Always step Valid ⟨CommuMng.new, installed⟩ ops) :
    Run.Always step Reported ⟨CommuMng.new, installed⟩ ops ↔
      Run.Always step (fun w op => ¬ w.Loses op) ⟨CommuMng.new, installed⟩ ops := by
  have hrun : ∀ w : Worker, w.commuMng.Unshared → Run.Always step Valid w ops →
      (Run.Always step Reported w ops ↔ Run.Always step (fun w op => ¬ w.Loses op) w ops) := by
    clear hvalid
    induction ops with
    | nil => simp
    | cons op ops ih =>
        intro w hw hvalid
        have hrest := ih _ (unshared_step hw hvalid.1) hvalid.2
        simp only [Run.always_cons, reported_iff hw, hrest]
  exact hrun _ CommuMng.unshared_new hvalid

/-- A connection is registered and lost before a handler is installed. -/
theorem always_reported_early :
    Run.Always step Reported ⟨CommuMng.new, false⟩ [.addConn 7 1 5, .disconn 5] := by
  refine (always_reported_iff false _ ?_).mpr ?_
  · exact ⟨⟨by decide, by simp⟩, trivial, trivial⟩
  · exact ⟨not_false, fun h => absurd h.1 (by decide), trivial⟩

/-- A connection is lost with a handler installed, and nothing is reported. -/
theorem not_always_reported : ¬ ∀ (installed : Bool) (ops : List BackOp),
    Run.Always step Valid ⟨CommuMng.new, installed⟩ ops →
      Run.Always step Reported ⟨CommuMng.new, installed⟩ ops := by
  intro h
  have hrun := h true [.addConn 7 1 5, .disconn 5] ⟨⟨by decide, by simp⟩, trivial, trivial⟩
  have hcalls := (hrun.2.1 7 ⟨1, by decide⟩ rfl).1
  exact absurd hcalls (by decide)

end Worker

end Spp
