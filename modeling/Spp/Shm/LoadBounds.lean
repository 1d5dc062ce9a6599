import Spp.Lib.Run
import Spp.Shm.LoadAgree

/-!
# What the calls on a load table reach

After any calls, by any processes and with any keys and lengths, the segment is a chain of blocks,
and what a process remembers is a block of the chain.  A `write` stays in the block of its key.
A `read` copies the whole block, whatever the length of the caller's buffer is.

A key that fills `key_` may be made twice, and a block without bytes is never found again.  Both
leave the chain as it is described here.

## Main definitions

* `LoadTable.Chained`, `Placed` — the blocks of the segment, and one of them.
* `TableCall`, `LoadTables.callStep` — the calls that change the table.
* `LoadTables.Respects` — a `read` stays in the buffer, and a `write` in the block.
* `LoadTables.Fits` — the buffer takes the block, or the block is too old to be read.
-/

namespace Spp

/-! ## Chains of blocks -/

/-- The room that blocks of these lengths take. -/
def span (lens : List UInt16) : ℕ := (lens.map fun l => blockHeadLen + l.toNat).sum

@[simp] theorem span_nil : span [] = 0 := rfl

@[simp] theorem span_cons (l : UInt16) (lens : List UInt16) :
    span (l :: lens) = blockHeadLen + l.toNat + span lens := by
  simp [span]

@[simp] theorem span_append (lens lens' : List UInt16) :
    span (lens ++ lens') = span lens + span lens' := by
  simp [span]

/-- The item is one of the blocks. -/
def Placed (lens : List UInt16) (info : ItemInfo) : Prop :=
  ∃ pre l suf, lens = pre ++ l :: suf ∧ info = ⟨l.toNat, span pre + blockHeadLen⟩

/-- The blocks stand one after another in the segment. -/
structure LoadTable.Chained (t : LoadTable) (lens : List UInt16) : Prop where
  tail : t.tail = span lens
  len : ∀ pre l suf, lens = pre ++ l :: suf → (t.header (span pre)).len = l
  le_size : t.tail ≤ t.blocksize
  size_lt : t.blocksize < 2 ^ 31

variable {t : LoadTable} {lens : List UInt16} {info info' : ItemInfo} {key : Key}

theorem Placed.snoc (h : Placed lens info) (l : UInt16) : Placed (lens ++ [l]) info := by
  obtain ⟨pre, l', suf, rfl, rfl⟩ := h
  exact ⟨pre, l', suf ++ [l], by simp, rfl⟩

theorem placed_last (lens : List UInt16) (l : UInt16) :
    Placed (lens ++ [l]) ⟨l.toNat, span lens + blockHeadLen⟩ := ⟨lens, l, [], rfl, rfl⟩

theorem Placed.bounds (h : Placed lens info) :
    blockHeadLen ≤ info.pos ∧ info.pos + info.len ≤ span lens := by
  obtain ⟨pre, l, suf, rfl, rfl⟩ := h
  simp only [span_append, span_cons]
  omega

/-- Two places in a list are the same, or one of them is before the other. -/
theorem eq_or_before_of_append_eq {α : Type*} {pre pre' suf suf' : List α} {a a' : α}
    (h : pre ++ a :: suf = pre' ++ a' :: suf') :
    (pre = pre' ∧ a = a') ∨ (∃ mid, pre' = pre ++ a :: mid) ∨ ∃ mid, pre = pre' ++ a' :: mid := by
  rcases List.append_eq_append_iff.mp h with ⟨mid, hpre, hsuf⟩ | ⟨mid, hpre, hsuf⟩
  · cases mid with
    | nil =>
        rw [List.nil_append, List.cons.injEq] at hsuf
        rw [List.append_nil] at hpre
        exact .inl ⟨hpre.symm, hsuf.1⟩
    | cons m mid =>
        rw [List.cons_append, List.cons.injEq] at hsuf
        rw [← hsuf.1] at hpre
        exact .inr (.inl ⟨mid, hpre⟩)
  · cases mid with
    | nil =>
        rw [List.nil_append, List.cons.injEq] at hsuf
        rw [List.append_nil] at hpre
        exact .inl ⟨hpre, hsuf.1.symm⟩
    | cons m mid =>
        rw [List.cons_append, List.cons.injEq] at hsuf
        rw [← hsuf.1] at hpre
        exact .inr (.inr ⟨mid, hpre⟩)

/-- Two blocks are the same, or one of them ends before the other begins. -/
theorem Placed.apart (h : Placed lens info) (h' : Placed lens info') :
    info = info' ∨ info.pos + info.len + blockHeadLen ≤ info'.pos ∨
      info'.pos + info'.len + blockHeadLen ≤ info.pos := by
  obtain ⟨pre, l, suf, rfl, rfl⟩ := h
  obtain ⟨pre', l', suf', heq, rfl⟩ := h'
  rcases eq_or_before_of_append_eq heq with ⟨rfl, rfl⟩ | ⟨mid, rfl⟩ | ⟨mid, rfl⟩
  · exact .inl rfl
  · right
    left
    simp only [span_append, span_cons]
    omega
  · right
    right
    simp only [span_append, span_cons]
    omega

namespace LoadTable

/-- The scan goes from block to block. -/
theorem findLoop_placed {fuel : ℕ} {pre suf : List UInt16} (h : t.Chained (pre ++ suf))
    (hfound : t.findLoop key fuel (span pre) = some info) : Placed (pre ++ suf) info := by
  induction suf generalizing pre fuel with
  | nil =>
      have hend : ¬ span pre < t.tail := by
        rw [h.tail]
        simp
      cases fuel with
      | zero => cases hfound
      | succ fuel => simp [findLoop, hend] at hfound
  | cons l suf ih =>
      have hlen := h.len pre l suf rfl
      cases fuel with
      | zero => cases hfound
      | succ fuel =>
          simp only [findLoop, hlen] at hfound
          split at hfound
          · split at hfound
            · cases hfound
              exact ⟨pre, l, suf, rfl, rfl⟩
            · have hrest : t.Chained ((pre ++ [l]) ++ suf) := by simpa using h
              have hnext : t.findLoop key fuel (span (pre ++ [l])) = some info := by
                simpa using hfound
              simpa using ih hrest hnext
          · cases hfound

theorem Chained.findblock (h : t.Chained lens) (hfound : t.findblock key = some info) :
    Placed lens info := by
  rw [LoadTable.findblock] at hfound
  split at hfound
  · cases hfound
  · rw [← span_nil] at hfound
    exact findLoop_placed h hfound

/-- A header that is read has a `key_` of 32 bytes. -/
theorem length_header_key (t : LoadTable) (pos : ℕ) : (t.header pos).key.length = maxKeyLen := by
  simp [header, BlockHeader.parse, maxKeyLen, blockHeadLen]

/-- A header is read where it was written, if what is written then is not in its place. -/
theorem parse_read_write (m : ℕ → UInt8) {h : BlockHeader} {pos pos' : ℕ} {bs : List UInt8}
    (hkey : h.key.length = maxKeyLen) (hpos : pos + blockHeadLen ≤ pos') :
    BlockHeader.parse (Mem.read (Mem.write (Mem.write m pos h.bytes) pos' bs) pos blockHeadLen) =
      h := by
  have hlen := h.length_bytes hkey
  rw [Mem.read_write_of_disjoint _ _ (.inl hpos), ← hlen, Mem.read_write_self, h.parse_bytes hkey]

/-- The new block stands behind the others. -/
theorem Chained.snoc (h : t.Chained lens) (key : Key) (len : UInt16)
    (hroom : t.tail + blockHeadLen + len.toNat ≤ t.blocksize) :
    ({ t with
        tail := t.tail + blockHeadLen + len.toNat
        block := Mem.write
          (Mem.write t.block t.tail (BlockHeader.mk (strncpy maxKeyLen key.1) 0 0 len).bytes)
          (t.tail + blockHeadLen) (List.replicate len.toNat 0) } : LoadTable).Chained
      (lens ++ [len]) where
  tail := by
    simp [h.tail]
    omega
  len := by
    intro pre l suf heq
    have hkey := length_strncpy maxKeyLen key.1
    rcases eq_or_before_of_append_eq heq with ⟨rfl, rfl⟩ | ⟨mid, rfl⟩ | ⟨mid, rfl⟩
    · rw [header, h.tail, parse_read_write _ hkey le_rfl]
    · have hlength := congrArg List.length heq
      simp at hlength
    · have hbefore : span pre + blockHeadLen ≤ t.tail := by
        rw [h.tail, span_append, span_cons]
        omega
      rw [header, Mem.read_write_of_disjoint _ _ (.inl (by omega)),
        Mem.read_write_of_disjoint _ _ (.inl hbefore)]
      exact h.len pre l mid rfl
  le_size := hroom
  size_lt := h.size_lt

/-- A `write` to a block of the table. -/
theorem write_known {items : Items} (hinfo : items key = some info)
    (hbound : info.pos + info.len ≤ t.tail) (buf : { bs : List UInt8 // bs.length < 2 ^ 16 })
    (now : UInt32) :
    t.write items key buf now =
      ({ t with
          block := Mem.write
            (Mem.write t.block (info.pos - blockHeadLen)
              { t.header (info.pos - blockHeadLen) with timestamp := now }.bytes)
            info.pos (buf.1.take (min info.len buf.1.length)) },
        ↑(min info.len buf.1.length)) := by
  simp [LoadTable.write, hinfo, Nat.not_lt.mpr hbound]

/-- A `write` changes the bytes of one block. -/
theorem write_outside (hinfo : Placed lens info) {m : ℕ → UInt8} {h : BlockHeader}
    (hkey : h.key.length = maxKeyLen) {buf : List UInt8} {i : ℕ}
    (hi : i < info.pos - blockHeadLen ∨ info.pos + info.len ≤ i) :
    Mem.write (Mem.write m (info.pos - blockHeadLen) h.bytes) info.pos
      (buf.take (min info.len buf.length)) i = m i := by
  have hbounds := hinfo.bounds
  have hlen := h.length_bytes hkey
  have htake : (buf.take (min info.len buf.length)).length ≤ info.len := by
    rw [List.length_take]
    omega
  rcases hi with hi | hi
  · rw [Mem.write_of_lt _ _ (by omega), Mem.write_of_lt _ _ hi]
  · rw [Mem.write_of_ge _ _ (by omega), Mem.write_of_ge _ _ (by omega)]

theorem read_write_apart (hinfo : Placed lens info) (m : ℕ → UInt8) {h : BlockHeader}
    (hkey : h.key.length = maxKeyLen) (buf : List UInt8) {src n : ℕ}
    (hapart : src + n ≤ info.pos - blockHeadLen ∨ info.pos + info.len ≤ src) :
    Mem.read (Mem.write (Mem.write m (info.pos - blockHeadLen) h.bytes) info.pos
      (buf.take (min info.len buf.length))) src n = Mem.read m src n := by
  apply Mem.read_congr
  intro i hi
  exact write_outside hinfo hkey (by omega)

/-- A `write` leaves the chain as it is. -/
theorem Chained.write {items : Items} (h : t.Chained lens)
    (hitems : ∀ key info, items key = some info → Placed lens info) (key : Key)
    (buf : { bs : List UInt8 // bs.length < 2 ^ 16 }) (now : UInt32) :
    (t.write items key buf now).1.Chained lens := by
  cases hinfo : items key with
  | none => simpa [LoadTable.write, hinfo] using h
  | some info =>
      have hplaced := hitems key info hinfo
      have hbounds := hplaced.bounds
      have hkey : ({ t.header (info.pos - blockHeadLen) with timestamp := now } :
          BlockHeader).key.length = maxKeyLen := length_header_key t _
      rw [write_known hinfo (by rw [h.tail]; exact hbounds.2)]
      refine ⟨h.tail, ?_, h.le_size, h.size_lt⟩
      intro pre l suf heq
      have hother : Placed lens ⟨l.toNat, span pre + blockHeadLen⟩ := ⟨pre, l, suf, heq, rfl⟩
      rcases hplaced.apart hother with hsame | hapart
      · -- the header of the block is written with its length
        have hpos : info.pos - blockHeadLen = span pre := by
          rw [hsame]
          exact Nat.add_sub_cancel _ _
        rw [header, ← hpos, parse_read_write _ hkey (by omega), hpos]
        exact h.len pre l suf heq
      · have hbefore : span pre + blockHeadLen ≤ info.pos - blockHeadLen ∨
            info.pos + info.len ≤ span pre := by
          dsimp only at hapart
          omega
        rw [header, read_write_apart hplaced _ hkey _ hbefore]
        exact h.len pre l suf heq

/-- `Init_LoadItem` changes nothing, remembers a block that is there, or makes one. -/
theorem initLoadItem_cases (t : LoadTable) (items : Items) (key : Key) (len : UInt16) :
    ((t.initLoadItem items key len).1 = t ∧ (t.initLoadItem items key len).2.1 = items) ∨
    (∃ info, t.findblock key = some info ∧ (t.initLoadItem items key len).1 = t ∧
      (t.initLoadItem items key len).2.1 = Function.update items key (some info)) ∨
    (u32 (t.tail + blockHeadLen + len.toNat) ≤ t.blocksize ∧
      (t.initLoadItem items key len).1 =
        { t with
          tail := u32 (t.tail + blockHeadLen + len.toNat)
          block := Mem.write
            (Mem.write t.block t.tail (BlockHeader.mk (strncpy maxKeyLen key.1) 0 0 len).bytes)
            (t.tail + blockHeadLen) (List.replicate len.toNat 0) } ∧
      (t.initLoadItem items key len).2.1 =
        Function.update items key (some ⟨len.toNat, t.tail + blockHeadLen⟩)) := by
  unfold LoadTable.initLoadItem
  split
  · exact .inl ⟨rfl, rfl⟩
  · split
    · next info hfound =>
        exact .inr (.inl ⟨info, (Option.filter_eq_some_iff.mp hfound).1, rfl, rfl⟩)
    · split
      · exact .inl ⟨rfl, rfl⟩
      · next hroom => exact .inr (.inr ⟨Nat.le_of_not_lt hroom, rfl, rfl⟩)

theorem placed_update {items : Items} (hitems : ∀ key info, items key = some info → Placed lens info)
    (hnew : Placed lens info) (key : Key) (key' : Key) (info' : ItemInfo)
    (h : Function.update items key (some info) key' = some info') : Placed lens info' := by
  by_cases hkey : key' = key
  · rw [hkey, Function.update_self, Option.some.injEq] at h
    exact h ▸ hnew
  · rw [Function.update_of_ne hkey] at h
    exact hitems key' info' h

/-- `Init_LoadItem` leaves the chain as it is, or makes a block behind it; what the process
remembers then is in the chain. -/
theorem Chained.initLoadItem {items : Items} (h : t.Chained lens)
    (hitems : ∀ key info, items key = some info → Placed lens info) (key : Key) (len : UInt16) :
    ∃ lens', (t.initLoadItem items key len).1.Chained lens' ∧
      (∀ info, Placed lens info → Placed lens' info) ∧
      ∀ key' info, (t.initLoadItem items key len).2.1 key' = some info → Placed lens' info := by
  rcases t.initLoadItem_cases items key len with
    ⟨htable, hmap⟩ | ⟨info, hfound, htable, hmap⟩ | ⟨hroom, htable, hmap⟩
  · rw [htable, hmap]
    exact ⟨lens, h, fun _ hinfo => hinfo, hitems⟩
  · rw [htable, hmap]
    exact ⟨lens, h, fun _ hinfo => hinfo, placed_update hitems (h.findblock hfound) key⟩
  · have hsize := h.size_lt
    have hle := h.le_size
    have hlen := len.toNat_lt
    have hnowrap : u32 (t.tail + blockHeadLen + len.toNat) = t.tail + blockHeadLen + len.toNat := by
      refine u32_of_lt ?_
      simp only [blockHeadLen]
      omega
    rw [hnowrap] at hroom htable
    rw [htable, hmap]
    refine ⟨lens ++ [len], h.snoc key len hroom, fun _ hinfo => hinfo.snoc len, ?_⟩
    apply placed_update
    · intro key' info hinfo
      exact (hitems key' info hinfo).snoc len
    · rw [h.tail]
      exact placed_last lens len

end LoadTable

/-! ## The calls -/

/-- A call of a process that may change the table; the key may be a null pointer. -/
inductive TableCall (ι : Type)
  | initLoadItem (p : ι) (key : Option Key) (len : UInt16)
  | write (p : ι) (key : Option Key) (buf : { bs : List UInt8 // bs.length < 2 ^ 16 })
      (now : UInt32)

namespace LoadTables

variable {ι : Type} {s : LoadTables ι} {p : ι}

/-- `read` by a process. -/
def read (s : LoadTables ι) (p : ι) (key : Option Key) (bufLen : UInt16) (nowtime : UInt32)
    (timeout : Int32) : LoadTable.LoadRead :=
  match key with
  | none => ⟨0, []⟩
  | some key => s.table.read (s.items p) key bufLen nowtime timeout

/-- `write` by a process. -/
def write (s : LoadTables ι) (p : ι) (key : Option Key)
    (buf : { bs : List UInt8 // bs.length < 2 ^ 16 }) (now : UInt32) : LoadTable × ℤ :=
  match key with
  | none => (s.table, 0)
  | some key => s.table.write (s.items p) key buf now

def callStep [DecidableEq ι] (s : LoadTables ι) : TableCall ι → LoadTables ι × ℤ
  | .initLoadItem _ none _ => (s, 0)
  | .initLoadItem p (some key) len =>
      let (table, items, ret) := s.table.initLoadItem (s.items p) key len
      (⟨table, Function.update s.items p items⟩, ret)
  | .write p key buf now =>
      let (table, ret) := s.write p key buf now
      (⟨table, s.items⟩, ret)

/-- The item that a process remembers for a key. -/
def item (s : LoadTables ι) (p : ι) (key : Option Key) : Option ItemInfo := key.bind (s.items p)

/-- A table that has changed in the block of the key only: not in another byte, and not in a block
that a process remembers for another key. -/
structure WritesOwn (s : LoadTables ι) (p : ι) (key : Option Key) (table' : LoadTable) :
    Prop where
  tail : table'.tail = s.table.tail
  own : ∀ i, table'.block i ≠ s.table.block i → ∃ info, s.item p key = some info ∧
    info.pos - blockHeadLen ≤ i ∧ i < info.pos + info.len
  others : ∀ q key' info, s.items q key' = some info → s.item p key ≠ some info →
    Mem.read table'.block (info.pos - blockHeadLen) (blockHeadLen + info.len) =
      Mem.read s.table.block (info.pos - blockHeadLen) (blockHeadLen + info.len)

/-- A `read` stays in the buffer, and a `write` in the block. -/
structure Respects (s : LoadTables ι) (p : ι) (key : Option Key) (bufLen : UInt16)
    (nowtime : UInt32) (timeout : Int32) : Prop where
  reads : (s.read p key bufLen nowtime timeout).copied.length ≤ bufLen.toNat
  writes : ∀ buf now, s.WritesOwn p key (s.write p key buf now).1

/-- The buffer takes the whole block of the key, or the block is too old to be read. -/
def Fits (s : LoadTables ι) (p : ι) (key : Option Key) (bufLen : UInt16) (nowtime : UInt32)
    (timeout : Int32) : Prop :=
  ∀ info, s.item p key = some info → info.len ≤ bufLen.toNat ∨
    nowtime - (s.table.header (info.pos - blockHeadLen)).timestamp > timeout.toUInt32

/-- What the processes remember are blocks of the chain. -/
structure Chained (s : LoadTables ι) (lens : List UInt16) : Prop where
  table : s.table.Chained lens
  items : ∀ p key info, s.items p key = some info → Placed lens info

theorem chained_init (shmsize : ShmSize) (block : ℕ → UInt8) :
    (init shmsize block : LoadTables ι).Chained [] where
  table := by
    have hsize := shmsize.2
    have hsub := u32sub_of_le hsize.1 (by omega)
    refine ⟨rfl, ?_, Nat.zero_le _, ?_⟩
    · intro pre l suf heq
      simp at heq
    · simp only [init, LoadTable.init, hsub]
      omega
  items := by simp [init]

/-- Every call leaves a chain. -/
theorem Chained.callStep [DecidableEq ι] (h : s.Chained lens) (call : TableCall ι) :
    ∃ lens', (s.callStep call).1.Chained lens' := by
  cases call with
  | initLoadItem p key len =>
      cases key with
      | none => exact ⟨lens, h⟩
      | some key =>
          obtain ⟨lens', htable, hkept, hitems⟩ := h.table.initLoadItem (h.items p) key len
          refine ⟨lens', htable, ?_⟩
          intro q key' info hinfo
          by_cases hq : q = p
          · subst hq
            refine hitems key' info ?_
            simpa [LoadTables.callStep] using hinfo
          · refine hkept info (h.items q key' info ?_)
            simpa [LoadTables.callStep, Function.update_of_ne hq] using hinfo
  | write p key buf now =>
      cases key with
      | none => exact ⟨lens, h⟩
      | some key => exact ⟨lens, h.table.write (h.items p) key buf now, h.items⟩

theorem WritesOwn.refl (s : LoadTables ι) (p : ι) (key : Option Key) :
    s.WritesOwn p key s.table where
  tail := rfl
  own := by
    intro i hi
    exact absurd rfl hi
  others := by
    intro q key' info _ _
    rfl

theorem Chained.writesOwn (h : s.Chained lens) (p : ι) (key : Option Key)
    (buf : { bs : List UInt8 // bs.length < 2 ^ 16 }) (now : UInt32) :
    s.WritesOwn p key (s.write p key buf now).1 := by
  cases key with
  | none => exact .refl s p none
  | some key =>
      cases hinfo : s.items p key with
      | none =>
          have hsame : (s.write p (some key) buf now).1 = s.table := by
            simp [LoadTables.write, LoadTable.write, hinfo]
          rw [hsame]
          exact .refl s p (some key)
      | some info =>
          have hplaced := h.items p key info hinfo
          have hbounds := hplaced.bounds
          have hkey : ({ s.table.header (info.pos - blockHeadLen) with timestamp := now } :
              BlockHeader).key.length = maxKeyLen := LoadTable.length_header_key _ _
          have hitem : s.item p (some key) = some info := hinfo
          rw [LoadTables.write, LoadTable.write_known hinfo (by rw [h.table.tail]; exact hbounds.2)]
          refine ⟨rfl, ?_, ?_⟩
          · intro i hi
            refine ⟨info, hitem, ?_⟩
            by_contra hout
            exact hi (LoadTable.write_outside hplaced hkey (by omega))
          · intro q key' info' hinfo' hne
            -- another block is before or behind this one
            have hother := h.items q key' info' hinfo'
            have hbounds' := hother.bounds
            rcases hplaced.apart hother with rfl | hapart
            · exact absurd hitem hne
            · exact LoadTable.read_write_apart hplaced _ hkey _ (by omega)

theorem Chained.reads_iff (h : s.Chained lens) (p : ι) (key : Option Key) (bufLen : UInt16)
    (nowtime : UInt32) (timeout : Int32) :
    (s.read p key bufLen nowtime timeout).copied.length ≤ bufLen.toNat ↔
      s.Fits p key bufLen nowtime timeout := by
  cases key with
  | none => simp [read, Fits, LoadTables.item]
  | some key =>
      cases hinfo : s.items p key with
      | none => simp [read, LoadTable.read, Fits, LoadTables.item, hinfo]
      | some info =>
          have hbounds := (h.items p key info hinfo).bounds
          have hin : ¬ info.pos + info.len > s.table.tail := by
            rw [h.table.tail]
            omega
          by_cases hold : nowtime - (s.table.header (info.pos - blockHeadLen)).timestamp >
              timeout.toUInt32
          · simp [read, LoadTable.read, Fits, LoadTables.item, hinfo, hin, hold]
          · simp [read, LoadTable.read, Fits, LoadTables.item, hinfo, hin, hold]

/-- After any calls: the next call stays in the buffer and in the block if and only if the buffer
takes the block, or the block is too old to be read. -/
theorem respects_iff [DecidableEq ι] (shmsize : ShmSize) (block : ℕ → UInt8)
    (calls : List (TableCall ι)) (p : ι) (key : Option Key) (bufLen : UInt16) (nowtime : UInt32)
    (timeout : Int32) :
    (Run.final callStep (init shmsize block) calls).Respects p key bufLen nowtime timeout ↔
      (Run.final callStep (init shmsize block) calls).Fits p key bufLen nowtime timeout := by
  have hstep : ∀ (s : LoadTables ι) call, (∃ lens, s.Chained lens) → True →
      ∃ lens, (s.callStep call).1.Chained lens := by
    intro s call ⟨lens, h⟩ _
    exact h.callStep call
  obtain ⟨lens, h⟩ := Run.invariant hstep ⟨[], chained_init shmsize block⟩
    (Run.always_true _ calls)
  constructor
  · intro hrespects
    exact (h.reads_iff p key bufLen nowtime timeout).mp hrespects.reads
  · intro hfits
    exact ⟨(h.reads_iff p key bufLen nowtime timeout).mpr hfits, h.writesOwn p key⟩

/-- A block of two bytes, and a buffer of one. -/
theorem not_respects : ¬ ∀ (shmsize : ShmSize) (block : ℕ → UInt8) (calls : List (TableCall Unit))
    (p : Unit) (key : Option Key) (bufLen : UInt16) (nowtime : UInt32) (timeout : Int32),
    (Run.final callStep (init shmsize block) calls).Respects p key bufLen nowtime timeout := by
  intro hall
  have hreads := (hall ⟨72, by decide⟩ (fun _ => 0)
    [.initLoadItem () (some ⟨[99], by decide⟩) 2] () (some ⟨[99], by decide⟩) 1 0 60).reads
  revert hreads
  decide +kernel

end LoadTables

end Spp
