import Spp.Hash.Calls

/-!
# The parts of a call

Every call of the map is a lookup, a new node, a new value or a removed node, one behind
the other.  This is said once, from the definitions alone and for any lengths; what a call
keeps then follows from what its parts keep.

## Main definitions

* `CallParts` — the parts of a call that returns.
-/

namespace Spp

namespace HashMap

variable {K : Type} {hash : K → ℕ} {m m' : HashMap K}

/-- The code of `Insert` and of `SetValue`. -/
def writeCode (ok : Bool) : ℤ := if ok = false then -1 else 0

/-- The parts of a call that returns: the state after a lookup is `m₁`. -/
inductive CallParts [DecidableEq K] (hash : K → ℕ) (m : HashMap K) :
    Op K → Out → HashMap K → Prop
  | insert {k data len node m'} : m.insertNode hash k data len = some (node, m') →
      CallParts hash m (.insert k data len) (.ret (writeCode node.isSome)) m'
  | setNew {k data len m₁ node m'} : m.findNode hash k = some (none, m₁) →
      m₁.insertNode hash k data len = some (node, m') →
      CallParts hash m (.setValue k data len) (.ret (writeCode node.isSome)) m'
  | setOld {k data len i m₁ ok m'} : m.findNode hash k = some (some i, m₁) →
      m₁.storeNode i data len = some (ok, m') →
      CallParts hash m (.setValue k data len) (.ret (writeCode ok)) m'
  | find {k node m₁} : m.findNode hash k = some (node, m₁) →
      CallParts hash m (.find k) (.found node.isSome) m₁
  | bufOld {k buf len i m₁ code buf' len'} : m.findNode hash k = some (some i, m₁) →
      m₁.mergeNodeData i buf len = some (code, buf', len') →
      CallParts hash m (.findBuf k buf len) (.buf code buf' len') m₁
  | bufNew {k buf len m₁} : m.findNode hash k = some (none, m₁) →
      CallParts hash m (.findBuf k buf len) (.buf (-1) buf len) m₁
  | deleteOld {k i m₁ code m' data len} : m.findNode hash k = some (some i, m₁) →
      m₁.deleteNode hash i none none = some (code, m', data, len) →
      CallParts hash m (.delete k) (.ret code) m'
  | deleteNew {k m₁} : m.findNode hash k = some (none, m₁) →
      CallParts hash m (.delete k) (.ret (-1)) m₁
  | updateOld {n data len i ok m'} : m.visit n = some i →
      m.storeNode i data len = some (ok, m') →
      CallParts hash m (.updateData n data len) (.node ok) m'
  | updateNew {n data len} : m.visit n = none →
      CallParts hash m (.updateData n data len) (.node false) m
  | eraseOld {n i code m' data len} : m.visit n = some i →
      m.deleteNode hash i none none = some (code, m', data, len) →
      CallParts hash m (.erase n) (.ret code) m'
  | eraseNew {n} : m.visit n = none → CallParts hash m (.erase n) (.ret (-1)) m
  | getCount : CallParts hash m .getCount (.ret m.getCount) m

theorem updateNode_some {i : ℕ} {newData : ℕ → UInt8} {newLen : ℤ}
    {r : Bool × HashMap K × Option (ℕ → UInt8) × Option ℤ}
    (hret : m.updateNode i newData newLen none none = some r) :
    m.storeNode i newData newLen = some (r.1, r.2.1) := by
  rw [updateNode_none] at hret
  obtain ⟨s, hstore, hs⟩ := Option.bind_eq_some_iff.mp hret
  obtain rfl := Option.some.inj hs
  exact hstore

/-- Each call that returns has its parts. -/
theorem call_parts [DecidableEq K] {op : Op K} {out : Out}
    (hret : m.call hash op = some (out, m')) : CallParts hash m op out m' := by
  cases op with
  | insert k data len =>
      obtain ⟨r, hinsert, hout⟩ := Option.map_eq_some_iff.mp hret
      obtain ⟨⟨node, m₁⟩, hnode, hr⟩ := Option.bind_eq_some_iff.mp hinsert
      obtain rfl := Option.some.inj hr
      obtain ⟨rfl, rfl⟩ := Prod.mk.inj hout
      cases node with
      | none => exact .insert hnode
      | some i => exact .insert hnode
  | setValue k data len =>
      obtain ⟨r, hset, hout⟩ := Option.map_eq_some_iff.mp hret
      rw [setValue_eq] at hset
      obtain ⟨⟨node, m₁⟩, hfind, hrest⟩ := Option.bind_eq_some_iff.mp hset
      cases node with
      | none =>
          obtain ⟨⟨node, m₂⟩, hnode, hr⟩ := Option.bind_eq_some_iff.mp hrest
          obtain rfl := Option.some.inj hr
          obtain ⟨rfl, rfl⟩ := Prod.mk.inj hout
          exact .setNew hfind hnode
      | some i =>
          obtain ⟨r', hupdate, hr⟩ := Option.bind_eq_some_iff.mp hrest
          obtain rfl := Option.some.inj hr
          obtain ⟨rfl, rfl⟩ := Prod.mk.inj hout
          exact .setOld hfind (updateNode_some hupdate)
  | find k =>
      obtain ⟨r, hfind, hout⟩ := Option.map_eq_some_iff.mp hret
      obtain ⟨⟨node, m₁⟩, hnode, hr⟩ := Option.bind_eq_some_iff.mp hfind
      obtain rfl := Option.some.inj hr
      obtain ⟨rfl, rfl⟩ := Prod.mk.inj hout
      exact .find hnode
  | findBuf k buf len =>
      obtain ⟨r, hfind, hout⟩ := Option.map_eq_some_iff.mp hret
      obtain ⟨rfl, rfl⟩ := Prod.mk.inj hout
      obtain ⟨⟨node, m₁⟩, hnode, hrest⟩ := Option.bind_eq_some_iff.mp hfind
      cases node with
      | none =>
          obtain rfl := Option.some.inj hrest
          exact .bufNew hnode
      | some i =>
          obtain ⟨r', hmerge, hr⟩ := Option.bind_eq_some_iff.mp hrest
          obtain rfl := Option.some.inj hr
          exact .bufOld hnode hmerge
  | delete k =>
      obtain ⟨r, hdelete, hout⟩ := Option.map_eq_some_iff.mp hret
      obtain ⟨rfl, rfl⟩ := Prod.mk.inj hout
      obtain ⟨⟨node, m₁⟩, hnode, hrest⟩ := Option.bind_eq_some_iff.mp hdelete
      cases node with
      | none =>
          obtain rfl := Option.some.inj hrest
          exact .deleteNew hnode
      | some i =>
          obtain ⟨r', hnode', hr⟩ := Option.bind_eq_some_iff.mp hrest
          obtain rfl := Option.some.inj hr
          exact .deleteOld hnode hnode'
  | updateData n data len =>
      rw [HashMap.call] at hret
      cases hi : m.visit n with
      | none =>
          rw [hi] at hret
          obtain ⟨rfl, rfl⟩ := Prod.mk.inj (Option.some.inj hret)
          exact .updateNew hi
      | some i =>
          rw [hi] at hret
          obtain ⟨r, hupdate, hout⟩ := Option.map_eq_some_iff.mp hret
          obtain ⟨rfl, rfl⟩ := Prod.mk.inj hout
          exact .updateOld hi (updateNode_some hupdate)
  | erase n =>
      rw [HashMap.call] at hret
      cases hi : m.visit n with
      | none =>
          rw [hi] at hret
          obtain ⟨rfl, rfl⟩ := Prod.mk.inj (Option.some.inj hret)
          exact .eraseNew hi
      | some i =>
          rw [hi] at hret
          obtain ⟨r, hdelete, hout⟩ := Option.map_eq_some_iff.mp hret
          obtain ⟨rfl, rfl⟩ := Prod.mk.inj hout
          exact .eraseOld hi hdelete
  | getCount =>
      obtain ⟨rfl, rfl⟩ := Prod.mk.inj (Option.some.inj hret)
      exact .getCount

end HashMap
end Spp
