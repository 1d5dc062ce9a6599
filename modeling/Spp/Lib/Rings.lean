import Mathlib.Data.List.Chain
import Mathlib.Data.List.Nodup
import Mathlib.Logic.Function.Basic

/-!
# Rings of cells

A ring is a doubly linked list that closes at its head: from the head the links lead through
the nodes back to the head, and the links back lead the other way.  All rings lie in one store
of cells.  The only write is `join a b`, which makes `b` the cell behind `a`; inserting,
taking out and splicing are two joins, one join and two joins.

## Main definitions

* `Cells`, `Cells.join`, `Cells.Joined` — the store.
* `Ring m h l` — the ring of `h` holds the nodes `l`.
* `Holds m b` — `b` says which cells are heads, and of which rings; no two rings meet.
-/

namespace Spp.Rings

/-- A store of cells with two links each. -/
structure Cells (ι : Type*) where
  next : ι → ι
  prev : ι → ι

variable {ι : Type*} {m : Cells ι} {a b e h k x y : ι} {A B L l : List ι}

namespace Cells

/-- `b` lies behind `a`. -/
def Joined (m : Cells ι) (a b : ι) : Prop := m.next a = b ∧ m.prev b = a

variable [DecidableEq ι]

/-- `b` is put behind `a`. -/
def join (m : Cells ι) (a b : ι) : Cells ι where
  next := Function.update m.next a b
  prev := Function.update m.prev b a

theorem joined_join (m : Cells ι) (a b : ι) : (m.join a b).Joined a b :=
  ⟨Function.update_self _ _ _, Function.update_self _ _ _⟩

theorem Joined.join (hm : m.Joined a b) (ha : a ≠ x) (hb : b ≠ y) : (m.join x y).Joined a b :=
  ⟨(Function.update_of_ne ha _ _).trans hm.1, (Function.update_of_ne hb _ _).trans hm.2⟩

end Cells

/-! ## One ring -/

/-- The ring of `h` holds the nodes `l`. -/
structure Ring (m : Cells ι) (h : ι) (l : List ι) : Prop where
  chain : (h :: (l ++ [h])).IsChain m.Joined
  nodup : (h :: l).Nodup

theorem Ring.next_head (hr : Ring m h l) : m.next h = l.headD h := by
  have hchain := hr.chain
  cases l with
  | nil => exact (List.isChain_cons_cons.mp hchain).1.1
  | cons i l => exact (List.isChain_cons_cons.mp hchain).1.1

theorem Ring.chain_append (hr : Ring m h (A ++ B)) :
    (h :: A).IsChain m.Joined ∧ (B ++ [h]).IsChain m.Joined ∧
      m.Joined (A.getLastD h) (B.headD h) := by
  have hsplit : h :: (A ++ B ++ [h]) = h :: A ++ (B ++ [h]) := by simp
  have hchain := hr.chain
  rw [hsplit, List.isChain_append] at hchain
  refine ⟨hchain.1, hchain.2.1, hchain.2.2 _ ?_ _ ?_⟩
  · rw [List.getLast?_cons]
    simp
  · cases B with
    | nil => rfl
    | cons i B => rfl

theorem Ring.prev_head (hr : Ring m h l) : m.prev h = l.getLastD h := by
  have hr' : Ring m h (l ++ []) := by rwa [List.append_nil]
  exact hr'.chain_append.2.2.2

/-- The neighbours of a node. -/
theorem Ring.neighbours (hr : Ring m h (A ++ e :: B)) :
    m.next e = B.headD h ∧ m.prev e = A.getLastD h := by
  have hlast : (A ++ [e]).getLastD h = e := by simp
  have hr' : Ring m h (A ++ [e] ++ B) := by simpa using hr
  have hnext := hr'.chain_append.2.2.1
  rw [hlast] at hnext
  exact ⟨hnext, hr.chain_append.2.2.2⟩

theorem getLastD_mem (A : List ι) (a : ι) : A.getLastD a ∈ a :: A := by
  induction A using List.reverseRecOn with
  | nil => exact List.mem_cons_self
  | append_singleton A b ih => simp

theorem headD_mem (B : List ι) (b : ι) : B.headD b ∈ B ++ [b] := by
  cases B with
  | nil => exact List.mem_cons_self
  | cons i B => exact List.mem_cons_self

theorem headD_mem_ring (A B : List ι) (h : ι) : B.headD h ∈ h :: (A ++ B) := by
  have hmem := headD_mem B h
  rw [List.mem_append, List.mem_singleton] at hmem
  rcases hmem with hmem | heq
  · exact .tail _ (List.mem_append_right A hmem)
  · exact List.mem_cons.mpr (.inl heq)

theorem getLastD_mem_ring (A B : List ι) (h : ι) : A.getLastD h ∈ h :: (A ++ B) :=
  List.mem_append_left B (getLastD_mem A h)

/-- Cells outside a ring do not matter. -/
theorem Ring.congr {m' : Cells ι} (hr : Ring m h l)
    (heq : ∀ i ∈ h :: l, m'.next i = m.next i ∧ m'.prev i = m.prev i) : Ring m' h l := by
  refine ⟨hr.chain.imp_of_mem_imp fun i j hi hj hij => ?_, hr.nodup⟩
  have hmem : ∀ i ∈ h :: (l ++ [h]), i ∈ h :: l := by
    intro i hi
    simpa [or_comm] using hi
  exact ⟨(heq i (hmem i hi)).1.trans hij.1, (heq j (hmem j hj)).2.trans hij.2⟩

theorem nodup_rotate (hnodup : (h :: (A ++ B)).Nodup) : (A ++ (B ++ [h])).Nodup := by
  rwa [← List.append_assoc, List.nodup_append_comm]

section
variable [DecidableEq ι]

/-- Links of other cells do not matter. -/
theorem chain_join (hL : L.IsChain m.Joined) (hx : x ∉ L.dropLast) (hy : y ∉ L.tail) :
    L.IsChain (m.join x y).Joined := by
  induction L with
  | nil => exact .nil
  | cons a L ih =>
      cases L with
      | nil => exact .singleton a
      | cons b L =>
          obtain ⟨hab, hL⟩ := List.isChain_cons_cons.mp hL
          rw [List.dropLast_cons_cons, List.mem_cons, not_or] at hx
          rw [List.tail_cons, List.mem_cons, not_or] at hy
          exact List.isChain_cons_cons.mpr
            ⟨hab.join (Ne.symm hx.1) (Ne.symm hy.1), ih hL hx.2 hy.2⟩

/-- Two pieces are put together by joining the last cell of the one to the first cell of the
other.  The ends `a` and `b` may be one cell. -/
theorem chain_join_append (hA : (a :: A).IsChain m.Joined) (hB : (B ++ [b]).IsChain m.Joined)
    (ha : (a :: (A ++ B)).Nodup) (hb : (A ++ (B ++ [b])).Nodup) :
    (a :: A ++ (B ++ [b])).IsChain (m.join (A.getLastD a) (B.headD b)).Joined := by
  have hsplit : a :: (A ++ B) = a :: A ++ B := rfl
  rw [hsplit, List.nodup_append'] at ha
  rw [List.nodup_append'] at hb
  have hlast : A.getLastD a ∉ (a :: A).dropLast := by
    have hnodup := ha.1
    clear ha hb hA
    induction A using List.reverseRecOn with
    | nil => simp
    | append_singleton A c ih =>
        rw [← List.cons_append] at hnodup ⊢
        rw [List.dropLast_concat, List.getLastD_concat]
        have hdisj := (List.nodup_append'.mp hnodup).2.2
        exact fun hc => hdisj hc (List.mem_singleton_self c)
  have hhead : B.headD b ∉ (B ++ [b]).tail := by
    cases B with
    | nil => simp
    | cons c B => exact (List.nodup_cons.mp hb.2.1).1
  refine List.isChain_append.mpr ⟨?_, ?_, ?_⟩
  · exact chain_join hA hlast fun hmem => hb.2.2 hmem (headD_mem B b)
  · refine chain_join hB ?_ hhead
    rw [List.dropLast_concat]
    exact fun hmem => ha.2.2 (getLastD_mem A a) hmem
  · intro c hc d hd
    rw [List.getLast?_cons, Option.mem_some_iff] at hc
    have hc : A.getLastD a = c := by simpa using hc
    have hd : B.headD b = d := by
      cases B with
      | nil => exact Option.some.inj hd
      | cons i B => exact Option.some.inj hd
    rw [hc, hd]
    exact m.joined_join c d

theorem ring_init (m : Cells ι) (h : ι) : Ring (m.join h h) h [] :=
  ⟨List.isChain_cons_cons.mpr ⟨m.joined_join h h, .singleton h⟩, List.nodup_singleton h⟩

/-- A ring that `x` and `y` are not in stays. -/
theorem Ring.join (hr : Ring m h l) (hx : x ∉ h :: l) (hy : y ∉ h :: l) :
    Ring (m.join x y) h l :=
  hr.congr fun _ hi => ⟨Function.update_of_ne (ne_of_mem_of_not_mem hi hx) _ _,
    Function.update_of_ne (ne_of_mem_of_not_mem hi hy) _ _⟩

/-- A node is taken out. -/
theorem Ring.delete (hr : Ring m h (A ++ e :: B)) :
    Ring (m.join (A.getLastD h) (B.headD h)) h (A ++ B) := by
  have hr' : Ring m h (A ++ [e] ++ B) := by simpa using hr
  have hsub : (A ++ B).Sublist (A ++ e :: B) := (List.sublist_cons_self e B).append_left A
  have hnodup : (h :: (A ++ B)).Nodup := hr.nodup.sublist (hsub.cons_cons h)
  refine ⟨?_, hnodup⟩
  have hA := hr.chain_append.1
  have hB := hr'.chain_append.2.1
  have hchain := chain_join_append hA hB hnodup (nodup_rotate hnodup)
  simpa using hchain

/-- A node is put between two nodes. -/
theorem Ring.insert (hr : Ring m h (A ++ B)) (he : e ∉ h :: (A ++ B)) :
    Ring ((m.join e (B.headD h)).join (A.getLastD h) e) h (A ++ e :: B) := by
  have hnodup : (h :: (A ++ e :: B)).Nodup := by
    have hperm : (h :: (A ++ e :: B)).Perm (e :: h :: (A ++ B)) :=
      (List.perm_middle.cons h).trans (.swap e h _)
    exact hperm.nodup_iff.mpr (List.nodup_cons.mpr ⟨he, hr.nodup⟩)
  obtain ⟨hA, hB, -⟩ := hr.chain_append
  simp only [List.mem_cons, List.mem_append, not_or] at he
  obtain ⟨heh, heA, heB⟩ := he
  have hBnodup : (B ++ [h]).Nodup := (List.nodup_append'.mp (nodup_rotate hr.nodup)).2.1
  -- the second piece gets `e` in front of it
  have hpiece : (e :: (B ++ [h])).IsChain (m.join e (B.headD h)).Joined :=
    chain_join_append (List.IsChain.singleton e) hB
      (List.nodup_cons.mpr ⟨heB, hBnodup.of_append_left⟩) hBnodup
  -- and the first one is left alone
  have hfirst : (h :: A).IsChain (m.join e (B.headD h)).Joined := by
    refine chain_join hA (fun hmem => ?_) fun hmem => ?_
    · rcases List.mem_cons.mp (List.dropLast_subset _ hmem) with heq | hmem
      · exact heh heq
      · exact heA hmem
    · exact (List.nodup_append'.mp (nodup_rotate hr.nodup)).2.2 hmem (headD_mem B h)
  have hchain := chain_join_append hfirst hpiece hnodup (nodup_rotate hnodup)
  exact ⟨by simpa using hchain, hnodup⟩

/-- The nodes of one ring are put behind the head of another. -/
theorem Ring.splice (hk : Ring m k A) (hh : Ring m h B) (hne : A ≠ [])
    (hdisj : ∀ i ∈ k :: A, i ∉ h :: B) :
    Ring ((m.join h (A.headD k)).join (A.getLastD k) (B.headD h)) h (A ++ B) := by
  have hnodup : (h :: (A ++ B)).Nodup := by
    rw [List.nodup_cons, List.mem_append, not_or, List.nodup_append']
    obtain ⟨hhB, hB⟩ := List.nodup_cons.mp hh.nodup
    refine ⟨⟨?_, hhB⟩, (List.nodup_cons.mp hk.nodup).2, hB, ?_⟩
    · exact fun hmem => hdisj h (.tail _ hmem) List.mem_cons_self
    · exact fun i hi hi' => hdisj i (.tail _ hi) (.tail _ hi')
  have hAB : ∀ i ∈ A, i ∉ B ++ [h] := by
    intro i hi hmem
    refine hdisj i (.tail _ hi) ?_
    simpa [or_comm] using hmem
  obtain ⟨A, z, rfl⟩ := (List.eq_nil_or_concat A).resolve_left hne
  rw [List.concat_eq_append] at *
  have hfirst : (A ++ [z]).headD k = A.headD z := by cases A <;> rfl
  have hlast : (A ++ [z]).getLastD h = z := List.getLastD_concat
  have hA : (A ++ [z]).Nodup := (List.nodup_cons.mp hk.nodup).2
  have hB : (B ++ [h]).IsChain m.Joined := hh.chain.tail
  have hchainA : (A ++ [z]).IsChain m.Joined := (List.isChain_append.mp hk.chain.tail).1
  have hpiece : (h :: (A ++ [z])).IsChain (m.join h (A.headD z)).Joined := by
    refine chain_join_append (.singleton h) hchainA ?_ hA
    exact List.nodup_cons.mpr ⟨fun hmem => hdisj h (by simp_all) List.mem_cons_self,
      hA.of_append_left⟩
  have hrest : (B ++ [h]).IsChain (m.join h (A.headD z)).Joined := by
    refine chain_join hB ?_ fun hmem => ?_
    · rw [List.dropLast_concat]
      exact (List.nodup_cons.mp hh.nodup).1
    · exact hAB _ (headD_mem A z) (List.mem_of_mem_tail hmem)
  have hchain := chain_join_append hpiece hrest hnodup (nodup_rotate hnodup)
  rw [hlast] at hchain
  rw [hfirst, List.getLastD_concat]
  exact ⟨by simpa using hchain, hnodup⟩

end

/-! ## All rings -/

/-- Which cells are heads, and the nodes of their rings.  A cell that is no head is a node of
one ring, or free. -/
abbrev Heads (ι : Type*) := ι → Option (List ι)

/-- The cell is a node of a ring. -/
def Heads.Node (b : Heads ι) (e : ι) : Prop := ∃ h l, b h = some l ∧ e ∈ l

/-- The store holds the rings, and no cell is in two of them. -/
structure Holds (m : Cells ι) (b : Heads ι) : Prop where
  ring : ∀ {h l}, b h = some l → Ring m h l
  disjoint : ∀ {h l k l'}, b h = some l → b k = some l' → h ≠ k → ∀ i ∈ h :: l, i ∉ k :: l'

variable {b : Heads ι}

theorem Holds.none (m : Cells ι) : Holds m fun _ => none :=
  ⟨nofun, nofun⟩

/-- A head is no node. -/
theorem Holds.not_node (hm : Holds m b) (hh : b h = some l) : ¬b.Node h := by
  rintro ⟨k, l', hk, hmem⟩
  by_cases heq : h = k
  · subst heq
    exact (List.nodup_cons.mp (hm.ring hk).nodup).1 hmem
  · exact hm.disjoint hh hk heq h List.mem_cons_self (.tail _ hmem)

theorem Holds.congr {m' : Cells ι} (hm : Holds m b)
    (heq : ∀ h l, b h = some l → ∀ i ∈ h :: l, m'.next i = m.next i ∧ m'.prev i = m.prev i) :
    Holds m' b :=
  ⟨fun hh => (hm.ring hh).congr (heq _ _ hh), hm.disjoint⟩

/-- A node is in one ring only. -/
theorem Holds.notMem_of_ne (hm : Holds m b) (hh : b h = some l) (he : e ∈ l) (hne : k ≠ h)
    {l' : List ι} (hk : b k = some l') : e ∉ k :: l' :=
  hm.disjoint hh hk (Ne.symm hne) e (.tail _ he)

/-- A cell that is neither a head nor a node is in no ring. -/
theorem Heads.notMem (hnode : ¬b.Node e) (hne : e ≠ h) (hh : b h = some l) : e ∉ h :: l := by
  intro hmem
  rcases List.mem_cons.mp hmem with heq | hmem
  · exact hne heq
  · exact hnode ⟨h, l, hh, hmem⟩

section
variable [DecidableEq ι]

/-- The ring of `h` is given up or replaced, and all others stay. -/
theorem Holds.update {m' : Cells ι} (hm : Holds m b) (h : ι) (v : Option (List ι))
    (hring : ∀ l, v = some l → Ring m' h l)
    (hothers : ∀ k l', k ≠ h → b k = some l' → Ring m' k l')
    (hdisj : ∀ l, v = some l → ∀ k l', k ≠ h → b k = some l' → ∀ i ∈ h :: l, i ∉ k :: l') :
    Holds m' (Function.update b h v) where
  ring {k l} hk := by
    by_cases heq : k = h
    · subst heq
      rw [Function.update_self] at hk
      exact hring l hk
    · rw [Function.update_of_ne heq] at hk
      exact hothers k l heq hk
  disjoint {k l k' l'} hk hk' hne := by
    by_cases heq : k = h
    · subst heq
      rw [Function.update_self] at hk
      rw [Function.update_of_ne hne.symm] at hk'
      exact hdisj l hk k' l' hne.symm hk'
    · rw [Function.update_of_ne heq] at hk
      by_cases heq' : k' = h
      · subst heq'
        rw [Function.update_self] at hk'
        exact fun i hi hi' => hdisj l' hk' k l heq hk i hi' hi
      · rw [Function.update_of_ne heq'] at hk'
        exact hm.disjoint hk hk' hne

theorem Holds.forget (hm : Holds m b) (h : ι) : Holds m (Function.update b h Option.none) :=
  hm.update h _ nofun (fun _ _ _ hk => hm.ring hk) nofun

/-- A cell that is no node becomes the head of an empty ring. -/
theorem Holds.init (hm : Holds m b) (he : ¬b.Node e) :
    Holds (m.join e e) (Function.update b e (some [])) := by
  have hfree : ∀ k l', k ≠ e → b k = some l' → e ∉ k :: l' :=
    fun k l' hne hk => Heads.notMem he hne.symm hk
  refine hm.update e _ (fun l hl => ?_) (fun k l' hne hk => ?_) fun l hl k l' hne hk i hi => ?_
  · obtain rfl := Option.some.inj hl
    exact ring_init m e
  · exact (hm.ring hk).join (hfree k l' hne hk) (hfree k l' hne hk)
  · obtain rfl := Option.some.inj hl
    obtain rfl := List.mem_singleton.mp hi
    exact hfree k l' hne hk

/-- A free cell is put between two nodes. -/
theorem Holds.insert (hm : Holds m b) (hh : b h = some (A ++ B))
    (hnone : b e = Option.none) (he : ¬b.Node e) :
    Holds ((m.join e (B.headD h)).join (A.getLastD h) e)
      (Function.update b h (some (A ++ e :: B))) := by
  have hfree : ∀ k l', b k = some l' → e ∉ k :: l' := by
    intro k l' hk
    refine Heads.notMem he ?_ hk
    rintro rfl
    rw [hnone] at hk
    cases hk
  have hold : ∀ i ∈ h :: (A ++ e :: B), i ≠ e → i ∈ h :: (A ++ B) := by
    intro i hi hie
    simpa [hie] using hi
  refine hm.update h _ (fun l hl => ?_) (fun k l' hkh hk => ?_) fun l hl k l' hkh hk i hi => ?_
  · obtain rfl := Option.some.inj hl
    exact (hm.ring hh).insert (hfree h _ hh)
  · have hdisj := hm.disjoint hh hk hkh.symm
    exact ((hm.ring hk).join (hfree k l' hk) (hdisj _ (headD_mem_ring A B h))).join
      (hdisj _ (getLastD_mem_ring A B h)) (hfree k l' hk)
  · obtain rfl := Option.some.inj hl
    by_cases hie : i = e
    · rw [hie]
      exact hfree k l' hk
    · exact hm.disjoint hh hk hkh.symm i (hold i hi hie)

/-- A node is taken out. -/
theorem Holds.delete (hm : Holds m b) (hh : b h = some (A ++ e :: B)) :
    Holds (m.join (A.getLastD h) (B.headD h)) (Function.update b h (some (A ++ B))) := by
  have hsub : ∀ i ∈ h :: (A ++ B), i ∈ h :: (A ++ e :: B) := by
    intro i hi
    exact ((List.sublist_cons_self e B).append_left A).cons_cons h |>.subset hi
  refine hm.update h _ (fun l hl => ?_) (fun k l' hkh hk => ?_) fun l hl k l' hkh hk i hi => ?_
  · obtain rfl := Option.some.inj hl
    exact (hm.ring hh).delete
  · have hdisj := hm.disjoint hh hk hkh.symm
    exact (hm.ring hk).join (hdisj _ (hsub _ (getLastD_mem_ring A B h)))
      (hdisj _ (hsub _ (headD_mem_ring A B h)))
  · obtain rfl := Option.some.inj hl
    exact hm.disjoint hh hk hkh.symm i (hsub i hi)

/-- The nodes of one ring are put behind the head of another, and the first head is free. -/
theorem Holds.splice (hm : Holds m b) (hk : b k = some A) (hh : b h = some B) (hkh : k ≠ h)
    (hne : A ≠ []) :
    Holds ((m.join h (A.headD k)).join (A.getLastD k) (B.headD h))
      (Function.update (Function.update b k Option.none) h (some (A ++ B))) := by
  have hsub : ∀ i ∈ h :: (A ++ B), i ∈ k :: A ∨ i ∈ h :: B := by
    intro i hi
    simp only [List.mem_cons, List.mem_append] at hi ⊢
    tauto
  refine (hm.forget k).update h _ (fun l hl => ?_) (fun j l' hjh hj => ?_)
    fun l hl j l' hjh hj i hi => ?_
  · obtain rfl := Option.some.inj hl
    exact (hm.ring hk).splice (hm.ring hh) hne (hm.disjoint hk hh hkh)
  · have hjk : j ≠ k := by
      rintro rfl
      rw [Function.update_self] at hj
      cases hj
    rw [Function.update_of_ne hjk] at hj
    have hdisjk := hm.disjoint hk hj hjk.symm
    have hdisjh := hm.disjoint hh hj hjh.symm
    exact ((hm.ring hj).join (hdisjh _ List.mem_cons_self) (hdisjk _ (headD_mem_ring [] A k))).join
      (hdisjk _ (getLastD_mem A k)) (hdisjh _ (headD_mem_ring [] B h))
  · obtain rfl := Option.some.inj hl
    have hjk : j ≠ k := by
      rintro rfl
      rw [Function.update_self] at hj
      cases hj
    rw [Function.update_of_ne hjk] at hj
    rcases hsub i hi with hmem | hmem
    · exact hm.disjoint hk hj hjk.symm i hmem
    · exact hm.disjoint hh hj hjh.symm i hmem

end

end Spp.Rings
