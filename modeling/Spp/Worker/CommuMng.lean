import Spp.Lib.StdMap
import Spp.Lib.Run

/-!
# Backend connections of a worker

`CCommuMng` keeps the connections to other servers by server type and node.  A lookup by
flow walks through both levels in the order of their keys.

## Main definitions

* `CommuMng` — the groups, each with its nodes and their flows.
* `CommuMng.addConn`, `CommuMng.getFlow`, `CommuMng.rmConn`, `CommuMng.getServerTypeByFlow`.
* `CommuMng.at?` — the flow of a node.
* `CommuMng.Unshared` — no two nodes have the same flow.
-/

namespace Spp

/-- `NodeList`: node id to flow. -/
abbrev NodeList := StdMap ℕ ℕ

/-- `CCommuMng`.  A group is made with its node list, so none is `NULL`. -/
structure CommuMng where
  grpList : StdMap ℕ NodeList

namespace CommuMng

/-- The constructor. -/
def new : CommuMng := ⟨StdMap.empty⟩

/-- `AddConn`; it returns 0. -/
def addConn (m : CommuMng) (servType nodeId flow : ℕ) : CommuMng :=
  match m.grpList.find? servType with
  | some _ => ⟨m.grpList.modify servType fun nodes => nodes.put nodeId flow⟩
  | none => ⟨m.grpList.put servType (StdMap.empty.put nodeId flow)⟩

/-- `GetFlow`. -/
def getFlow (m : CommuMng) (servType nodeId : ℕ) : ℕ :=
  match m.grpList.find? servType with
  | some nodes => (nodes.find? nodeId).getD 0
  | none => 0

/-- The two loops of `RMConn` and of `GetServerTypeByFlow`: server type and node of the first
connection with this flow. -/
def findFlow (m : CommuMng) (flow : ℕ) : Option (ℕ × ℕ) :=
  m.grpList.entries.findSome? fun g =>
    (g.2.entries.find? fun n => n.2 = flow).map fun n => (g.1, n.1)

/-- `RMConn`. -/
def rmConn (m : CommuMng) (flow : ℕ) : ℤ × CommuMng :=
  match m.findFlow flow with
  | some (servType, nodeId) =>
      (0, ⟨m.grpList.modify servType fun nodes => nodes.erase nodeId⟩)
  | none => (-1, m)

/-- `GetServerTypeByFlow`. -/
def getServerTypeByFlow (m : CommuMng) (flow : ℕ) : ℕ :=
  match m.findFlow flow with
  | some (servType, _) => servType
  | none => 0

/-! ## What is registered -/

/-- The flow that is registered for a node. -/
def at? (m : CommuMng) (servType nodeId : ℕ) : Option ℕ :=
  (m.grpList.find? servType).bind fun nodes => nodes.find? nodeId

/-- No flow is registered twice. -/
def Unshared (m : CommuMng) : Prop :=
  ∀ t n t' n' f, m.at? t n = some f → m.at? t' n' = some f → t = t' ∧ n = n'

/-- The flow is registered under the server type. -/
def Registered (m : CommuMng) (flow servType : ℕ) : Prop := ∃ n, m.at? servType n = some flow

variable {m : CommuMng} {t n f t' n' f' : ℕ}

theorem getFlow_eq : m.getFlow t n = (m.at? t n).getD 0 := by
  rw [getFlow, at?]
  cases m.grpList.find? t <;> rfl

@[simp] theorem at?_new : new.at? t n = none := rfl

theorem at?_addConn :
    (m.addConn t n f).at? t' n' = if t' = t ∧ n' = n then some f else m.at? t' n' := by
  rw [addConn]
  cases hgroup : m.grpList.find? t with
  | some nodes =>
      by_cases ht : t' = t
      · subst ht
        simp [at?, StdMap.find?_modify, hgroup, StdMap.find?_put]
      · simp [at?, StdMap.find?_modify, ht]
  | none =>
      by_cases ht : t' = t
      · subst ht
        by_cases hn : n' = n <;> simp [at?, StdMap.find?_put, hgroup, hn]
      · simp [at?, StdMap.find?_put, ht]

/-- The loops find a connection that has the flow, if there is one. -/
theorem findFlow_eq_some (h : m.findFlow f = some (t, n)) : m.at? t n = some f := by
  rw [findFlow, List.findSome?_eq_some_iff] at h
  obtain ⟨_, ⟨t', nodes⟩, _, hgroups, hfind, -⟩ := h
  simp only [Option.map_eq_some_iff, Prod.mk.injEq, Prod.exists] at hfind
  obtain ⟨n', f', hfind, rfl, rfl⟩ := hfind
  have hgroup : m.grpList.find? t' = some nodes := by
    rw [StdMap.find?_eq_some_iff, hgroups]
    simp
  have hnode : nodes.find? n' = some f' := StdMap.find?_eq_some_iff.mpr (List.mem_of_find?_eq_some hfind)
  have hflow : f' = f := by simpa using List.find?_some hfind
  simp [at?, hgroup, hnode, hflow]

theorem findFlow_eq_none : m.findFlow f = none ↔ ∀ t n, m.at? t n ≠ some f := by
  constructor
  · intro h t n hat
    rw [findFlow, List.findSome?_eq_none_iff] at h
    simp only [at?, Option.bind_eq_some_iff, StdMap.find?_eq_some_iff] at hat
    obtain ⟨nodes, hgroup, hnode⟩ := hat
    have hnone := h (t, nodes) hgroup
    simp only [Option.map_eq_none_iff, List.find?_eq_none] at hnone
    exact hnone (n, f) hnode (by simp)
  · intro h
    cases hfind : m.findFlow f with
    | none => rfl
    | some p => exact absurd (findFlow_eq_some hfind) (h p.1 p.2)

theorem at?_erase (h : m.findFlow f = some (t, n)) :
    (m.rmConn f).2.at? t' n' = if t' = t ∧ n' = n then none else m.at? t' n' := by
  rw [rmConn, h]
  by_cases ht : t' = t
  · subst ht
    by_cases hn : n' = n
    · subst hn
      cases m.grpList.find? t' <;> simp [at?, StdMap.find?_modify, StdMap.find?_erase, *]
    · cases hgroup : m.grpList.find? t' <;>
        simp [at?, StdMap.find?_modify, StdMap.find?_erase, hgroup, hn]
  · simp [at?, StdMap.find?_modify, ht]

/-- `RMConn` removes the flow and nothing else. -/
theorem at?_rmConn (hm : m.Unshared) :
    (m.rmConn f).2.at? t n = if m.at? t n = some f then none else m.at? t n := by
  cases hfind : m.findFlow f with
  | none =>
      rw [if_neg (findFlow_eq_none.mp hfind t n), rmConn, hfind]
  | some p =>
      have hat := findFlow_eq_some hfind
      rw [at?_erase hfind]
      by_cases heq : m.at? t n = some f
      · rw [if_pos (hm _ _ _ _ _ heq hat), if_pos heq]
      · have hne : ¬ (t = p.1 ∧ n = p.2) := by
          rintro ⟨rfl, rfl⟩
          exact heq hat
        rw [if_neg hne, if_neg heq]

theorem findFlow_rmConn (hm : m.Unshared) : (m.rmConn f).2.findFlow f = none := by
  rw [findFlow_eq_none]
  intro t n
  rw [at?_rmConn hm]
  split
  next => simp
  next hne => exact hne

/-! ## Flows stay unshared -/

theorem unshared_new : new.Unshared := by
  intro t n t' n' f h
  simp at h

theorem Unshared.addConn (hm : m.Unshared) (hfresh : ∀ t n, m.at? t n ≠ some f) :
    (m.addConn t n f).Unshared := by
  intro t₁ n₁ t₂ n₂ g h₁ h₂
  rw [at?_addConn] at h₁ h₂
  split at h₁ <;> split at h₂
  next heq₁ heq₂ => exact ⟨heq₁.1.trans heq₂.1.symm, heq₁.2.trans heq₂.2.symm⟩
  next =>
    simp only [Option.some.injEq] at h₁
    exact absurd (h₁ ▸ h₂) (hfresh _ _)
  next =>
    simp only [Option.some.injEq] at h₂
    exact absurd (h₂ ▸ h₁) (hfresh _ _)
  next => exact hm _ _ _ _ _ h₁ h₂

theorem Unshared.rmConn (hm : m.Unshared) : (m.rmConn f).2.Unshared := by
  intro t₁ n₁ t₂ n₂ g h₁ h₂
  rw [at?_rmConn hm] at h₁ h₂
  split at h₁ <;> split at h₂ <;> try simp_all
  exact hm _ _ _ _ _ h₁ h₂

end CommuMng

end Spp
