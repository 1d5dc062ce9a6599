import Spp.Lib.Run
import Spp.Shm.LoadTable

/-!
# Agreement on the load table

The processes that share a `CLoadTable` should see one table: a key stands for one block, and
the value of the block is what was written last.  The segment is compared with such a table.

A key that fills `key_` is stored without a zero, so that it is not read back as it was; and
`findblock` takes a table whose tail has reached the end for a broken one and finds nothing in
it, so that a process that comes late gets no block.

## Main definitions

* `Entry`, `SharedTable` — the table of blocks, of which no two overlap.
* `TableStep` — what a call may do to it and return.
* `LoadTables.InTime` — a call with a key that fits, not made late on a full table.
* `LoadTables.Agrees` — what the processes remember is in the table.
-/

namespace Spp

/-! ## The shared table -/

/-- The block of a key: where its value is, the value, and when it was written. -/
structure Entry where
  pos : ℕ
  value : List UInt8
  stamp : UInt32

namespace Entry

def info (e : Entry) : ItemInfo := ⟨e.value.length, e.pos⟩

/-- A write of `buf`, of which no more is kept than the block has room for. -/
def store (e : Entry) (buf : List UInt8) (now : UInt32) : Entry :=
  ⟨e.pos, buf.take e.value.length ++ e.value.drop buf.length, now⟩

/-- One block with its header ends where the other begins, or before. -/
def Apart (e e' : Entry) : Prop :=
  e.pos + e.value.length + blockHeadLen ≤ e'.pos ∨ e'.pos + e'.value.length + blockHeadLen ≤ e.pos

theorem Apart.symm {e e' : Entry} (h : e.Apart e') : e'.Apart e := Or.symm h

@[simp] theorem length_store (e : Entry) (buf : List UInt8) (now : UInt32) :
    (e.store buf now).value.length = e.value.length := by
  simp only [store, List.length_append, List.length_take, List.length_drop]
  omega

@[simp] theorem info_store (e : Entry) (buf : List UInt8) (now : UInt32) :
    (e.store buf now).info = e.info := by
  simp only [info, length_store]
  rfl

@[simp] theorem pos_store (e : Entry) (buf : List UInt8) (now : UInt32) :
    (e.store buf now).pos = e.pos := rfl

theorem Apart.store_left {e e' : Entry} (h : e.Apart e') (buf : List UInt8) (now : UInt32) :
    (e.store buf now).Apart e' := by
  simpa [Apart] using h

end Entry

/-- The table that the processes share: `used` of its `size` bytes are taken by blocks. -/
structure SharedTable (ι : Type) where
  size : ℕ
  used : ℕ
  entries : Key → Option Entry
  known : ι → Key → Prop
  apart : ∀ key key' e e', key ≠ key' → entries key = some e → entries key' = some e' → e.Apart e'

namespace SharedTable

variable {ι : Type}

/-- A table without a block. -/
def new (size : ℕ) : SharedTable ι where
  size := size
  used := 0
  entries := fun _ => none
  known := fun _ _ => False
  apart := by simp

/-- The process `p` has found the key. -/
def learn (T : SharedTable ι) (p : ι) (key : Key) : SharedTable ι :=
  { T with known := fun q k => (q = p ∧ k = key) ∨ T.known q k }

/-- A block for another key, apart from those that are there. -/
def make (T : SharedTable ι) (key : Key) (e : Entry)
    (hnew : ∀ key' e', T.entries key' = some e' → e.Apart e') : SharedTable ι where
  size := T.size
  used := T.used + blockHeadLen + e.value.length
  entries := Function.update T.entries key (some e)
  known := T.known
  apart := by
    intro k k' e₁ e₂ hne h₁ h₂
    by_cases hk : k = key
    · subst hk
      rw [Function.update_self] at h₁
      rw [Function.update_of_ne hne.symm] at h₂
      cases h₁
      exact hnew k' e₂ h₂
    · rw [Function.update_of_ne hk] at h₁
      by_cases hk' : k' = key
      · subst hk'
        rw [Function.update_self] at h₂
        cases h₂
        exact (hnew k e₁ h₁).symm
      · rw [Function.update_of_ne hk'] at h₂
        exact T.apart k k' e₁ e₂ hne h₁ h₂

/-- A write under a key. -/
def store (T : SharedTable ι) (key : Key) (buf : List UInt8) (now : UInt32) : SharedTable ι where
  size := T.size
  used := T.used
  entries := Function.update T.entries key ((T.entries key).map fun e => e.store buf now)
  known := T.known
  apart := by
    have hstored : ∀ k k' e₁ e₂, k ≠ k' → Function.update T.entries key
        ((T.entries key).map fun e => e.store buf now) k = some e₁ →
        T.entries k' = some e₂ → e₁.Apart e₂ := by
      intro k k' e₁ e₂ hne h₁ h₂
      by_cases hk : k = key
      · subst hk
        rw [Function.update_self, Option.map_eq_some_iff] at h₁
        obtain ⟨e, he, rfl⟩ := h₁
        exact (T.apart k k' e e₂ hne he h₂).store_left buf now
      · rw [Function.update_of_ne hk] at h₁
        exact T.apart k k' e₁ e₂ hne h₁ h₂
    intro k k' e₁ e₂ hne h₁ h₂
    by_cases hk' : k' = key
    · subst hk'
      rw [Function.update_of_ne hne] at h₁
      exact (hstored k' k e₂ e₁ hne.symm h₂ h₁).symm
    · rw [Function.update_of_ne hk'] at h₂
      exact hstored k k' e₁ e₂ hne h₁ h₂

end SharedTable

/-- The calls on the shared table. -/
inductive TableStep {ι : Type} : SharedTable ι → LoadOp ι → LoadOut → SharedTable ι → Prop
  /-- The key has a block: every process gets this one. -/
  | found (T : SharedTable ι) (p : ι) (key : Key) (len) (e : Entry) (he : T.entries key = some e) :
      TableStep T (.initLoadItem p key len) (.inited e.value.length (some e.info)) (T.learn p key)
  /-- The key has no block: it gets one, of zeros and apart from all others. -/
  | made (T : SharedTable ι) (p : ι) (key : Key) (len : { len : UInt16 // len ≠ 0 }) (e : Entry)
      (hnone : T.entries key = none) (hroom : T.used + blockHeadLen + len.1.toNat ≤ T.size)
      (hvalue : e.value = List.replicate len.1.toNat 0) (hstamp : e.stamp = 0)
      (hnew : ∀ key' e', T.entries key' = some e' → e.Apart e') :
      TableStep T (.initLoadItem p key len) (.inited len.1.toNat (some e.info))
        ((T.make key e hnew).learn p key)
  /-- There is no room for the block. -/
  | full (T : SharedTable ι) (p : ι) (key : Key) (len : { len : UInt16 // len ≠ 0 })
      (hnone : T.entries key = none) (hroom : T.size < T.used + blockHeadLen + len.1.toNat) :
      TableStep T (.initLoadItem p key len) (.inited 0 none) T
  | readUnknown (T : SharedTable ι) (p : ι) (key : Key) (bufLen : UInt16) (nowtime : UInt32)
      (timeout : Int32) (hunknown : ¬ T.known p key) :
      TableStep T (.read p key bufLen nowtime timeout) (.read ⟨-1, []⟩) T
  | expired (T : SharedTable ι) (p : ι) (key : Key) (bufLen : UInt16) (nowtime : UInt32)
      (timeout : Int32) (e : Entry) (hknown : T.known p key) (he : T.entries key = some e)
      (hold : nowtime - e.stamp > timeout.toUInt32) :
      TableStep T (.read p key bufLen nowtime timeout) (.read ⟨0, []⟩) T
  /-- The value that was written last is read. -/
  | read (T : SharedTable ι) (p : ι) (key : Key) (bufLen : UInt16) (nowtime : UInt32)
      (timeout : Int32) (e : Entry) (hknown : T.known p key) (he : T.entries key = some e)
      (hfresh : ¬ nowtime - e.stamp > timeout.toUInt32) :
      TableStep T (.read p key bufLen nowtime timeout)
        (.read ⟨min e.value.length bufLen.toNat, e.value⟩) T
  | writeUnknown (T : SharedTable ι) (p : ι) (key : Key) (buf) (now : UInt32)
      (hunknown : ¬ T.known p key) :
      TableStep T (.write p key buf now) (.wrote (-1)) T
  | write (T : SharedTable ι) (p : ι) (key : Key) (buf : { bs : List UInt8 // bs.length < 2 ^ 16 })
      (now : UInt32) (e : Entry) (hknown : T.known p key) (he : T.entries key = some e) :
      TableStep T (.write p key buf now) (.wrote ↑(min e.value.length buf.1.length))
        (T.store key buf.1 now)

section
variable {ι : Type} {T T' : SharedTable ι} {p : ι} {key : Key} {len : { len : UInt16 // len ≠ 0 }}
  {ret : ℤ} {info : ItemInfo}

/-- Where `Init_LoadItem` gives a block, it is in the table. -/
theorem TableStep.some (h : TableStep T (.initLoadItem p key len) (.inited ret (some info)) T') :
    (T'.entries key).map Entry.info = Option.some info := by
  cases h with
  | found _ _ _ e he => simp [SharedTable.learn, he]
  | made => simp [SharedTable.learn, SharedTable.make]

/-- Where it gives none, there is none. -/
theorem TableStep.none (h : TableStep T (.initLoadItem p key len) (.inited ret none) T') :
    T.entries key = Option.none := by
  cases h with
  | full _ _ _ hnone _ => exact hnone

end

/-! ## The header of a block -/

theorem length_strncpy (n : ℕ) (s : List UInt8) : (strncpy n s).length = n := by
  simp only [strncpy, List.length_append, List.length_take, List.length_replicate]
  omega

namespace BlockHeader

variable (h : BlockHeader)

theorem length_bytes (hkey : h.key.length = maxKeyLen) : h.bytes.length = blockHeadLen := by
  simp [bytes, hkey, maxKeyLen, blockHeadLen]

/-- A header is read back as it was written. -/
theorem parse_bytes (hkey : h.key.length = maxKeyLen) : parse h.bytes = h := by
  have htake : h.bytes.take maxKeyLen = h.key := List.take_left' hkey
  have h32 : h.bytes.drop maxKeyLen = le 4 h.timestamp.toNat ++ (h.flag :: 0 :: le 2 h.len.toNat) :=
    List.drop_left' hkey
  have h36 : h.bytes.drop (maxKeyLen + 4) = h.flag :: 0 :: le 2 h.len.toNat := by
    rw [← List.drop_drop, h32]
    exact List.drop_left' (length_le 4 _)
  have h38 : h.bytes.drop (maxKeyLen + 6) = le 2 h.len.toNat := by
    rw [show maxKeyLen + 6 = maxKeyLen + 4 + 2 from rfl, ← List.drop_drop, h36]
    rfl
  have hstamp : h.timestamp.toNat < 256 ^ 4 := h.timestamp.toNat_lt
  have hlen : h.len.toNat < 256 ^ 2 := h.len.toNat_lt
  unfold parse
  rw [htake, h32, h36, h38, List.take_left' (length_le 4 _),
    List.take_of_length_le (length_le 2 _).le, ofLe_le_of_lt hstamp, ofLe_le_of_lt hlen]
  simp

end BlockHeader

/-! ## The blocks of a segment -/

/-- A block as it stands in the segment, its key shorter than `key_`. -/
structure LoadBlock where
  key : Key
  value : { bs : List UInt8 // 0 < bs.length ∧ bs.length < 2 ^ 16 }
  stamp : UInt32
  fits : key.1.length < maxKeyLen

namespace LoadBlock

variable (b : LoadBlock)

def len : ℕ := b.value.1.length

def header : BlockHeader := ⟨strncpy maxKeyLen b.key.1, b.stamp, 0, .ofNat b.len⟩

def bytes : List UInt8 := b.header.bytes ++ b.value.1

/-- The bytes of a block, with its header. -/
def size : ℕ := blockHeadLen + b.len

@[simp] theorem toNat_header_len : b.header.len.toNat = b.len :=
  UInt16.toNat_ofNat_of_lt' b.value.2.2

theorem length_header : b.header.bytes.length = blockHeadLen :=
  b.header.length_bytes (length_strncpy _ _)

theorem parse_header : BlockHeader.parse b.header.bytes = b.header :=
  b.header.parse_bytes (length_strncpy _ _)

@[simp] theorem length_bytes : b.bytes.length = b.size := by
  rw [bytes, List.length_append, b.length_header]
  rfl

/-- A key that leaves room for a zero is the string at `key_`. -/
theorem keyString_header : b.header.keyString = b.key.1 := by
  have hzero : List.replicate (maxKeyLen - b.key.1.length) (0 : UInt8) =
      0 :: List.replicate (maxKeyLen - b.key.1.length - 1) 0 := by
    rw [← List.replicate_succ]
    congr 1
    have hfits := b.fits
    omega
  have hkey : ∀ c ∈ b.key.1, (decide (c ≠ 0)) = true := by
    intro c hc
    simp only [decide_eq_true_eq]
    intro h0
    exact b.key.2 (h0 ▸ hc)
  have hbytes : b.header.bytes = b.key.1 ++ (0 :: (List.replicate (maxKeyLen - b.key.1.length - 1) 0
      ++ (le 4 b.stamp.toNat ++ (0 :: 0 :: le 2 b.header.len.toNat)))) := by
    simp only [header, BlockHeader.bytes, strncpy, List.take_of_length_le b.fits.le, hzero]
    simp
  rw [BlockHeader.keyString, hbytes, List.takeWhile_append_of_pos hkey]
  simp

/-- A write into a block. -/
def store (buf : List UInt8) (now : UInt32) : LoadBlock where
  key := b.key
  value := ⟨buf.take b.value.1.length ++ b.value.1.drop buf.length, by
    have hvalue := b.value.2
    simp only [List.length_append, List.length_take, List.length_drop]
    omega⟩
  stamp := now
  fits := b.fits

@[simp] theorem key_store (buf : List UInt8) (now : UInt32) : (b.store buf now).key = b.key := rfl

@[simp] theorem len_store (buf : List UInt8) (now : UInt32) : (b.store buf now).len = b.len := by
  simp only [len, store, List.length_append, List.length_take, List.length_drop]
  omega

theorem header_store (buf : List UInt8) (now : UInt32) :
    (b.store buf now).header = { b.header with timestamp := now } := by
  simp [header, show (b.store buf now).stamp = now from rfl]

/-- What a write of no more bytes than the block has leaves of its value. -/
theorem value_store (buf : List UInt8) (now : UInt32) :
    buf.take (min b.len buf.length) ++ b.value.1.drop (min b.len buf.length) =
      (b.store buf now).value.1 := by
  rcases le_total b.len buf.length with hle | hle
  · have hdrop : b.value.1.drop buf.length = [] := List.drop_eq_nil_of_le hle
    rw [min_eq_left hle]
    simp [store, hdrop, len]
  · have htake : buf.take b.value.1.length = buf := List.take_of_length_le hle
    rw [min_eq_right hle]
    simp [store, htake]

@[simp] theorem size_store (buf : List UInt8) (now : UInt32) : (b.store buf now).size = b.size := by
  simp [size]

end LoadBlock

/-- The bytes of a list of blocks. -/
def blocksSize (bs : List LoadBlock) : ℕ := (bs.map LoadBlock.size).sum

@[simp] theorem blocksSize_nil : blocksSize [] = 0 := rfl

@[simp] theorem blocksSize_cons (b : LoadBlock) (bs : List LoadBlock) :
    blocksSize (b :: bs) = b.size + blocksSize bs := by
  simp [blocksSize]

@[simp] theorem blocksSize_append (bs cs : List LoadBlock) :
    blocksSize (bs ++ cs) = blocksSize bs + blocksSize cs := by
  simp [blocksSize]

theorem length_flatMap_block (bs : List LoadBlock) :
    (bs.flatMap LoadBlock.bytes).length = blocksSize bs := by
  induction bs with
  | nil => rfl
  | cons b bs ih => rw [List.flatMap_cons, List.length_append, ih, b.length_bytes, blocksSize_cons]

/-- The first block of a key in a list that begins at the offset `pos`. -/
def lookup (key : Key) : ℕ → List LoadBlock → Option Entry
  | _, [] => none
  | pos, b :: bs =>
      if b.key = key then some ⟨pos + blockHeadLen, b.value.1, b.stamp⟩
      else lookup key (pos + b.size) bs

@[simp] theorem lookup_nil (key : Key) (pos : ℕ) : lookup key pos [] = none := rfl

@[simp] theorem lookup_cons (key : Key) (pos : ℕ) (b : LoadBlock) (bs : List LoadBlock) :
    lookup key pos (b :: bs) = if b.key = key then some ⟨pos + blockHeadLen, b.value.1, b.stamp⟩
      else lookup key (pos + b.size) bs := rfl

section lookup
variable {key key' : Key} {pos : ℕ} {bs cs : List LoadBlock} {b : LoadBlock} {e e' : Entry}

/-- What is looked up is the first block of the key. -/
theorem lookup_eq_some (h : lookup key pos bs = some e) :
    ∃ pre b suf, bs = pre ++ b :: suf ∧ b.key = key ∧ lookup key pos pre = none ∧
      e = ⟨pos + blocksSize pre + blockHeadLen, b.value.1, b.stamp⟩ := by
  induction bs generalizing pos with
  | nil => simp at h
  | cons b bs ih =>
      rw [lookup_cons] at h
      split at h
      · next hkey => exact ⟨[], b, bs, rfl, hkey, rfl, by simpa using h.symm⟩
      · next hne =>
          obtain ⟨pre, c, suf, hbs, hkey, hpre, he⟩ := ih h
          refine ⟨b :: pre, c, suf, by rw [hbs]; rfl, hkey, ?_, ?_⟩
          · rw [lookup_cons, if_neg hne, hpre]
          · rw [he, blocksSize_cons, Nat.add_assoc pos]

/-- A block lies behind the list's start and before its end. -/
theorem lookup_bounds (h : lookup key pos bs = some e) :
    pos + blockHeadLen ≤ e.pos ∧ e.pos + e.value.length ≤ pos + blocksSize bs := by
  obtain ⟨pre, b, suf, rfl, -, -, rfl⟩ := lookup_eq_some h
  simp only [blocksSize_append, blocksSize_cons, LoadBlock.size, LoadBlock.len]
  omega

theorem lookup_value_pos (h : lookup key pos bs = some e) : 0 < e.value.length := by
  obtain ⟨pre, b, suf, -, -, -, rfl⟩ := lookup_eq_some h
  exact b.value.2.1

/-- A list is looked through before what stands behind it. -/
theorem lookup_append : lookup key pos (bs ++ cs) =
    (lookup key pos bs).or (lookup key (pos + blocksSize bs) cs) := by
  induction bs generalizing pos with
  | nil => simp
  | cons b bs ih =>
      rw [List.cons_append, lookup_cons, lookup_cons, ih, blocksSize_cons]
      split
      · simp
      · rw [Nat.add_assoc]

/-- A write into the first block of a key is one to its entry. -/
theorem lookup_store (hpre : lookup b.key pos bs = none) (buf : List UInt8) (now : UInt32) :
    (fun k => lookup k pos (bs ++ b.store buf now :: cs)) =
      Function.update (fun k => lookup k pos (bs ++ b :: cs)) b.key
        ((lookup b.key pos (bs ++ b :: cs)).map fun e => e.store buf now) := by
  funext k
  by_cases hk : k = b.key
  · subst hk
    simp [lookup_append, hpre]
    rfl
  · have hk' : ¬ b.key = k := fun h => hk h.symm
    simp [lookup_append, hk, hk']

end lookup

/-! ## A segment of blocks -/

/-- The blocks stand one after another in the segment. -/
structure LoadTable.Lays (t : LoadTable) (bs : List LoadBlock) : Prop where
  tail : t.tail = blocksSize bs
  block : Mem.read t.block 0 (blocksSize bs) = bs.flatMap LoadBlock.bytes
  le_size : t.tail ≤ t.blocksize
  size_lt : t.blocksize < 2 ^ 31

namespace LoadTable

variable {t : LoadTable} {bs pre suf : List LoadBlock} {b : LoadBlock} {key : Key}

/-- The blocks are read when those before a block are, its header, its value, and those
behind it. -/
theorem read_blocks_iff {m : ℕ → UInt8} :
    Mem.read m 0 (blocksSize (pre ++ b :: suf)) = (pre ++ b :: suf).flatMap LoadBlock.bytes ↔
      Mem.read m 0 (blocksSize pre) = pre.flatMap LoadBlock.bytes ∧
      Mem.read m (blocksSize pre) blockHeadLen = b.header.bytes ∧
      Mem.read m (blocksSize pre + blockHeadLen) b.len = b.value.1 ∧
      Mem.read m (blocksSize pre + blockHeadLen + b.len) (blocksSize suf) =
        suf.flatMap LoadBlock.bytes := by
  have hbytes : (pre ++ b :: suf).flatMap LoadBlock.bytes = pre.flatMap LoadBlock.bytes ++
      (b.header.bytes ++ (b.value.1 ++ suf.flatMap LoadBlock.bytes)) := by
    rw [List.flatMap_append, List.flatMap_cons, LoadBlock.bytes, List.append_assoc]
  rw [← length_flatMap_block, hbytes, Mem.read_append_iff, Mem.read_append_iff,
    Mem.read_append_iff, length_flatMap_block, length_flatMap_block, b.length_header, Nat.zero_add]
  rfl

/-- A block is read where the ones before it end. -/
theorem Lays.at (h : t.Lays (pre ++ b :: suf)) :
    t.header (blocksSize pre) = b.header ∧
      Mem.read t.block (blocksSize pre + blockHeadLen) b.len = b.value.1 ∧
      blocksSize pre + blockHeadLen + b.len ≤ t.tail := by
  obtain ⟨-, hheader, hvalue, -⟩ := read_blocks_iff.mp h.block
  refine ⟨?_, hvalue, ?_⟩
  · rw [LoadTable.header, hheader, b.parse_header]
  · rw [h.tail, blocksSize_append, blocksSize_cons, LoadBlock.size]
    omega

/-- The scan from a block on finds what is looked up from there. -/
theorem findLoop_eq {fuel : ℕ} (key : Key) (h : t.Lays (pre ++ suf))
    (hfuel : blocksSize suf ≤ fuel) :
    t.findLoop key fuel (blocksSize pre) = (lookup key (blocksSize pre) suf).map Entry.info := by
  induction suf generalizing pre fuel with
  | nil =>
      have hend : ¬ blocksSize pre < t.tail := by
        rw [h.tail]
        simp
      cases fuel with
      | zero => rfl
      | succ fuel => simp [findLoop, hend]
  | cons b suf ih =>
      obtain ⟨hheader, -, hbound⟩ := h.at
      have hhead : 0 < blockHeadLen := by decide
      rw [blocksSize_cons, LoadBlock.size] at hfuel
      cases fuel with
      | zero => omega
      | succ fuel =>
          simp only [findLoop, hheader, b.keyString_header, b.toNat_header_len, lookup_cons]
          rw [if_pos (by omega)]
          by_cases hkey : b.key = key
          · rw [if_pos ⟨by rw [hkey], hbound⟩, if_pos hkey]
            rfl
          · rw [if_neg (fun hfound => hkey (Subtype.ext hfound.1)), if_neg hkey]
            have hrest : t.Lays ((pre ++ [b]) ++ suf) := by simpa using h
            have hnext : t.findLoop key fuel (blocksSize (pre ++ [b])) = _ := ih hrest (by omega)
            simpa [LoadBlock.size] using hnext

/-- As long as the table is not full, a block that is there is found. -/
theorem Lays.findblock (h : t.Lays bs) (key : Key) (hroom : t.tail < t.blocksize) :
    t.findblock key = (lookup key 0 bs).map Entry.info := by
  have hscan : t.findLoop key t.tail (blocksSize []) =
      (lookup key (blocksSize []) bs).map Entry.info :=
    findLoop_eq key h h.tail.ge
  rw [blocksSize_nil] at hscan
  rw [LoadTable.findblock]
  by_cases hempty : t.tail = 0
  · rw [hempty] at hscan
    simpa [hempty, findLoop] using hscan
  · simpa [hempty, Nat.not_le.mpr hroom] using hscan

theorem initLoadItem_known {items : Items} {info : ItemInfo} (len : UInt16)
    (hinfo : items key = some info) : t.initLoadItem items key len = (t, items, ↑info.len) := by
  simp [initLoadItem, hinfo]

theorem initLoadItem_found {items : Items} {info : ItemInfo} (len : UInt16)
    (hnone : items key = none) (hfind : t.findblock key = some info) (hpos : 0 < info.pos)
    (hlen : 0 < info.len) : t.initLoadItem items key len =
      (t, Function.update items key (some info), ↑info.len) := by
  simp [initLoadItem, hnone, hfind, Option.filter, hpos, hlen]

theorem initLoadItem_full {items : Items} (len : UInt16) (hnone : items key = none)
    (hfind : t.findblock key = none)
    (hfull : u32 (t.tail + blockHeadLen + len.toNat) > t.blocksize) :
    t.initLoadItem items key len = (t, items, 0) := by
  simp [initLoadItem, hnone, hfind, hfull]

theorem initLoadItem_made {items : Items} (len : UInt16) (hnone : items key = none)
    (hfind : t.findblock key = none)
    (hroom : ¬ u32 (t.tail + blockHeadLen + len.toNat) > t.blocksize) :
    t.initLoadItem items key len =
      ({ t with
          tail := u32 (t.tail + blockHeadLen + len.toNat)
          block := Mem.write
            (Mem.write t.block t.tail (BlockHeader.mk (strncpy maxKeyLen key.1) 0 0 len).bytes)
            (t.tail + blockHeadLen) (List.replicate len.toNat 0) },
        Function.update items key (some ⟨len.toNat, t.tail + blockHeadLen⟩), ↑len.toNat) := by
  simp [initLoadItem, hnone, hfind, hroom]

/-- A new block stands behind the others. -/
theorem Lays.snoc (h : t.Lays bs) (b : LoadBlock) (hroom : t.tail + b.size ≤ t.blocksize) :
    ({ t with
        tail := t.tail + b.size
        block := Mem.write (Mem.write t.block t.tail b.header.bytes) (t.tail + blockHeadLen)
          b.value.1 } : LoadTable).Lays (bs ++ [b]) where
  tail := by simp [h.tail]
  block := by
    have hheader := b.length_header
    have htail := h.tail
    rw [read_blocks_iff, ← htail]
    refine ⟨?_, ?_, ?_, rfl⟩
    · rw [Mem.read_write_of_disjoint _ _ (by omega), Mem.read_write_of_disjoint _ _ (by omega),
        htail, h.block]
    · rw [Mem.read_write_of_disjoint _ _ (by omega), ← hheader, Mem.read_write_self]
    · exact Mem.read_write_self _ _ _
  le_size := hroom
  size_lt := h.size_lt

/-- A write changes its block alone. -/
theorem Lays.store (h : t.Lays (pre ++ b :: suf)) (buf : List UInt8) (now : UInt32) :
    ({ t with
        block := Mem.write (Mem.write t.block (blocksSize pre) (b.store buf now).header.bytes)
          (blocksSize pre + blockHeadLen) (buf.take (min b.len buf.length)) } : LoadTable).Lays
      (pre ++ b.store buf now :: suf) where
  tail := by
    rw [h.tail]
    simp
  block := by
    obtain ⟨hpre, -, hvalue, hsuf⟩ := read_blocks_iff.mp h.block
    have hheader := (b.store buf now).length_header
    have htake : (buf.take (min b.len buf.length)).length = min b.len buf.length := by
      rw [List.length_take]
      omega
    rw [read_blocks_iff, b.len_store]
    refine ⟨?_, ?_, ?_, ?_⟩
    · rw [Mem.read_write_of_disjoint _ _ (by omega), Mem.read_write_of_disjoint _ _ (by omega),
        hpre]
    · rw [Mem.read_write_of_disjoint _ _ (by omega), ← hheader, Mem.read_write_self]
    · rw [Mem.read_write_of_le _ _ (by omega), Mem.read_write_of_disjoint _ _ (by omega), hvalue,
        htake]
      exact b.value_store buf now
    · rw [Mem.read_write_of_disjoint _ _ (by omega), Mem.read_write_of_disjoint _ _ (by omega),
        hsuf]
  le_size := h.le_size
  size_lt := h.size_lt

end LoadTable

/-! ## The processes -/

namespace LoadTables

variable {ι : Type}

/-- What the processes remember is in the table, and the table is not longer than its
blocks. -/
structure Agrees (s : LoadTables ι) (T : SharedTable ι) : Prop where
  size : s.table.blocksize = T.size
  used : s.table.tail = T.used
  known : ∀ p key, T.known p key ↔ (s.items p key).isSome
  remembers : ∀ p key info, s.items p key = some info → (T.entries key).map Entry.info = some info

/-- The segment holds the blocks of the table. -/
structure Refines (s : LoadTables ι) (T : SharedTable ι) (bs : List LoadBlock) : Prop extends
    Agrees s T where
  lays : s.table.Lays bs
  entries : T.entries = fun key => lookup key 0 bs

/-- Each block is known to the process that made it. -/
def Owned (T : SharedTable ι) : Prop := ∀ key e, T.entries key = some e → ∃ p, T.known p key

/-- The key leaves room for its zero; and where the table is full, the process knows the key, or
no process does. -/
def InTime (s : LoadTables ι) : LoadOp ι → Prop
  | .initLoadItem p key _ => key.1.length < maxKeyLen ∧
      (s.table.tail < s.table.blocksize ∨ (s.items p key).isSome ∨ ∀ q, s.items q key = none)
  | .read _ _ _ _ _ => True
  | .write _ _ _ _ => True

variable {s : LoadTables ι} {T : SharedTable ι} {bs : List LoadBlock} {p : ι} {key : Key}

/-- A process that does not know a key does not know its block. -/
theorem Agrees.unknown (h : Agrees s T) (hnone : s.items p key = none) : ¬ T.known p key := by
  rw [h.known, hnone]
  simp

theorem Refines.lookup (h : Refines s T bs) (key : Key) : T.entries key = Spp.lookup key 0 bs :=
  congrFun h.entries key

/-- What a process remembers is a block of the segment. -/
theorem Refines.block (h : Refines s T bs) {info : ItemInfo} (hinfo : s.items p key = some info) :
    T.known p key ∧ ∃ pre b suf, bs = pre ++ b :: suf ∧ b.key = key ∧
      Spp.lookup key 0 pre = none ∧ info = ⟨b.len, blocksSize pre + blockHeadLen⟩ ∧
      T.entries key = some ⟨blocksSize pre + blockHeadLen, b.value.1, b.stamp⟩ := by
  have hknown : T.known p key := by
    rw [h.known, hinfo]
    rfl
  obtain ⟨e, he, hpos⟩ := Option.map_eq_some_iff.mp (h.remembers p key info hinfo)
  rw [h.lookup] at he
  obtain ⟨pre, b, suf, hbs, hkey, hpre, heq⟩ := lookup_eq_some he
  rw [Nat.zero_add] at heq
  subst heq
  exact ⟨hknown, pre, b, suf, hbs, hkey, hpre, hpos.symm, by rw [h.lookup, he]⟩

theorem Owned.learn (h : Owned T) (p : ι) (key : Key) : Owned (T.learn p key) := by
  intro k e he
  obtain ⟨q, hq⟩ := h k e he
  exact ⟨q, .inr hq⟩

theorem Owned.store (h : Owned T) (key : Key) (buf : List UInt8) (now : UInt32) :
    Owned (T.store key buf now) := by
  intro k e he
  by_cases hk : k = key
  · subst hk
    simp only [SharedTable.store, Function.update_self, Option.map_eq_some_iff] at he
    obtain ⟨e', he', -⟩ := he
    exact h k e' he'
  · simp only [SharedTable.store, Function.update_of_ne hk] at he
    exact h k e he

variable [DecidableEq ι]

/-! ### Reading and writing -/

/-- A process reads the value that stands in the table. -/
theorem Refines.read (h : Refines s T bs) (p : ι) (key : Key) (bufLen : UInt16) (nowtime : UInt32)
    (timeout : Int32) :
    TableStep T (.read p key bufLen nowtime timeout)
      (step s (.read p key bufLen nowtime timeout)).2 T := by
  rw [step, LoadTable.read]
  cases hinfo : s.items p key with
  | none => exact .readUnknown T p key bufLen nowtime timeout (h.unknown hinfo)
  | some info =>
      obtain ⟨hknown, pre, b, suf, rfl, -, -, rfl, he⟩ := h.block hinfo
      obtain ⟨hheader, hvalue, hbound⟩ := h.lays.at
      simp only [Nat.not_lt.mpr hbound, if_false, Nat.add_sub_cancel, hheader, hvalue, gt_iff_lt]
      by_cases hold : nowtime - b.stamp > timeout.toUInt32
      · rw [show b.header.timestamp = b.stamp from rfl, if_pos hold]
        exact .expired T p key bufLen nowtime timeout _ hknown he hold
      · rw [show b.header.timestamp = b.stamp from rfl, if_neg hold]
        exact .read T p key bufLen nowtime timeout _ hknown he hold

/-- A write is one to the block that stands in the table. -/
theorem Refines.write (h : Refines s T bs) (hown : Owned T) (p : ι) (key : Key)
    (buf : { bs : List UInt8 // bs.length < 2 ^ 16 }) (now : UInt32) :
    ∃ T', TableStep T (.write p key buf now) (step s (.write p key buf now)).2 T' ∧
      Owned T' ∧ ∃ bs', Refines (step s (.write p key buf now)).1 T' bs' := by
  rw [step, LoadTable.write]
  cases hinfo : s.items p key with
  | none => exact ⟨T, .writeUnknown T p key buf now (h.unknown hinfo), hown, bs, h⟩
  | some info =>
      obtain ⟨hknown, pre, b, suf, rfl, rfl, hpre, rfl, he⟩ := h.block hinfo
      obtain ⟨hheader, hvalue, hbound⟩ := h.lays.at
      simp only [gt_iff_lt, Nat.not_lt.mpr hbound, if_false, Nat.add_sub_cancel, hheader]
      refine ⟨T.store b.key buf.1 now, .write T p b.key buf now _ hknown he,
        hown.store b.key buf.1 now, pre ++ b.store buf.1 now :: suf, ?_⟩
      have hlays := h.lays.store buf.1 now
      rw [b.header_store] at hlays
      have hentries : (T.store b.key buf.1 now).entries =
          fun key => Spp.lookup key 0 (pre ++ b.store buf.1 now :: suf) := by
        rw [lookup_store hpre]
        simp only [SharedTable.store, h.entries]
      have hmap : ∀ key, ((T.store b.key buf.1 now).entries key).map Entry.info =
          (T.entries key).map Entry.info := by
        intro key
        by_cases hkey : key = b.key
        · subst hkey
          simp [SharedTable.store, he]
        · simp [SharedTable.store, hkey]
      refine ⟨⟨h.size, h.used, h.known, ?_⟩, hlays, hentries⟩
      intro q key info hq
      rw [hmap]
      exact h.remembers q key info hq

/-! ### Looking up a key -/

/-- What the processes remember after one has learned a key. -/
theorem update_items (items : ι → Items) (p q : ι) (key k : Key) (info : ItemInfo) :
    Function.update items p (Function.update (items p) key (some info)) q k =
      if q = p ∧ k = key then some info else items q k := by
  by_cases hq : q = p
  · subst hq
    by_cases hk : k = key
    · subst hk
      simp
    · simp [hk]
  · simp [hq]

/-- What a process learns is in the table. -/
theorem Refines.learn (h : Refines s T bs) {info : ItemInfo}
    (hinfo : (T.entries key).map Entry.info = some info) :
    Refines ⟨s.table, Function.update s.items p (Function.update (s.items p) key (some info))⟩
      (T.learn p key) bs where
  size := h.size
  used := h.used
  known := by
    intro q k
    simp only [update_items]
    by_cases hqk : q = p ∧ k = key
    · simp [SharedTable.learn, hqk]
    · rw [if_neg hqk, ← h.known]
      simp [SharedTable.learn, hqk]
  remembers := by
    intro q k info' hq
    simp only [update_items] at hq
    split at hq
    · next hqk =>
        rw [← hq, hqk.2]
        exact hinfo
    · exact h.remembers q k info' hq
  lays := h.lays
  entries := h.entries

omit [DecidableEq ι] in
/-- A new block stands behind those of the table. -/
theorem Refines.make (h : Refines s T bs) (b : LoadBlock) (hnone : T.entries b.key = none)
    (hroom : s.table.tail + b.size ≤ s.table.blocksize) :
    ∃ hnew, Refines
      ⟨{ s.table with
          tail := s.table.tail + b.size
          block := Mem.write (Mem.write s.table.block s.table.tail b.header.bytes)
            (s.table.tail + blockHeadLen) b.value.1 }, s.items⟩
      (T.make b.key ⟨s.table.tail + blockHeadLen, b.value.1, b.stamp⟩ hnew) (bs ++ [b]) := by
  have hbehind : ∀ key e, T.entries key = some e → e.pos + e.value.length ≤ s.table.tail := by
    intro key e he
    rw [h.lookup] at he
    have hbounds := lookup_bounds he
    rw [h.lays.tail]
    omega
  have hnew : ∀ key e, T.entries key = some e →
      (Entry.mk (s.table.tail + blockHeadLen) b.value.1 b.stamp).Apart e := by
    intro key e he
    have hend := hbehind key e he
    right
    simp only
    omega
  refine ⟨hnew, ⟨h.size, ?_, h.known, ?_⟩, h.lays.snoc b hroom, ?_⟩
  · have hused := h.used
    simp only [SharedTable.make, LoadBlock.size, LoadBlock.len]
    omega
  · intro q key info hq
    have hinfo := h.remembers q key info hq
    have hne : key ≠ b.key := by
      intro hkey
      simp [hkey, hnone] at hinfo
    simp only [SharedTable.make, Function.update_of_ne hne, hinfo]
  · funext key
    have htail := h.lays.tail
    by_cases hkey : key = b.key
    · subst hkey
      rw [h.lookup] at hnone
      simp [SharedTable.make, lookup_append, hnone, htail]
    · have hkey' : ¬ b.key = key := fun heq => hkey heq.symm
      simp [SharedTable.make, lookup_append, hkey, hkey', h.lookup]

/-- A key without a block gets one. -/
theorem Refines.made (h : Refines s T bs) (hown : Owned T) (p : ι) (key : Key)
    (len : { len : UInt16 // len ≠ 0 }) (hfits : key.1.length < maxKeyLen)
    (hnone : T.entries key = none)
    (hroom : s.table.tail + blockHeadLen + len.1.toNat ≤ s.table.blocksize) :
    ∃ T', TableStep T (.initLoadItem p key len)
        (.inited len.1.toNat (some ⟨len.1.toNat, s.table.tail + blockHeadLen⟩)) T' ∧
      Owned T' ∧ ∃ bs', Refines
        ⟨{ s.table with
            tail := s.table.tail + blockHeadLen + len.1.toNat
            block := Mem.write
              (Mem.write s.table.block s.table.tail
                (BlockHeader.mk (strncpy maxKeyLen key.1) 0 0 len.1).bytes)
              (s.table.tail + blockHeadLen) (List.replicate len.1.toNat 0) },
          Function.update s.items p (Function.update (s.items p) key
            (some ⟨len.1.toNat, s.table.tail + blockHeadLen⟩))⟩ T' bs' := by
  have hpos : 0 < len.1.toNat := by
    rw [Nat.pos_iff_ne_zero]
    intro hzero
    exact len.2 (UInt16.toNat_inj.mp hzero)
  let b : LoadBlock :=
    ⟨key, ⟨List.replicate len.1.toNat 0, by simpa using ⟨hpos, len.1.toNat_lt⟩⟩, 0, hfits⟩
  have hsize : b.size = blockHeadLen + len.1.toNat := by
    simp [b, LoadBlock.size, LoadBlock.len]
  have hheader : b.header = ⟨strncpy maxKeyLen key.1, 0, 0, len.1⟩ := by
    simp [b, LoadBlock.header, LoadBlock.len]
  have hinfo : Entry.info ⟨s.table.tail + blockHeadLen, b.value.1, 0⟩ =
      ⟨len.1.toNat, s.table.tail + blockHeadLen⟩ := by
    simp [b, Entry.info]
  obtain ⟨hnew, hmake⟩ := h.make b hnone (by rw [hsize]; omega)
  have hentry : (T.make key ⟨s.table.tail + blockHeadLen, b.value.1, 0⟩ hnew).entries key =
      some ⟨s.table.tail + blockHeadLen, b.value.1, 0⟩ := Function.update_self ..
  have hlearn := hmake.learn (p := p) (congrArg (Option.map Entry.info) hentry)
  rw [hinfo, hheader, hsize, ← Nat.add_assoc] at hlearn
  rw [← hinfo]
  refine ⟨_, .made T p key len _ hnone ?_ rfl rfl hnew, ?_, bs ++ [b], ?_⟩
  · rw [← h.used, ← h.size]
    exact hroom
  · intro k e he
    by_cases hk : k = key
    · exact ⟨p, .inl ⟨rfl, hk⟩⟩
    · have hold : T.entries k = some e := by
        rw [← he]
        exact (Function.update_of_ne hk _ _).symm
      obtain ⟨q, hq⟩ := hown k e hold
      exact ⟨q, .inr hq⟩
  · rw [hinfo]
    exact hlearn

/-- `Init_LoadItem` finds the block of the table, or adds one, or has no room. -/
theorem Refines.initLoadItem (h : Refines s T bs) (hown : Owned T) (p : ι) (key : Key)
    (len : { len : UInt16 // len ≠ 0 }) (hin : s.InTime (.initLoadItem p key len)) :
    ∃ T', TableStep T (.initLoadItem p key len) (step s (.initLoadItem p key len)).2 T' ∧
      Owned T' ∧ ∃ bs', Refines (step s (.initLoadItem p key len)).1 T' bs' := by
  obtain ⟨hfits, htime⟩ := hin
  rw [step]
  cases hinfo : s.items p key with
  | some info =>
      -- the process has looked it up before
      obtain ⟨-, pre, b, suf, -, -, -, rfl, he⟩ := h.block hinfo
      have hsame := Function.update_eq_self key (s.items p)
      rw [hinfo] at hsame
      have hlearn := h.learn (p := p) (h.remembers p key _ hinfo)
      rw [hsame] at hlearn
      simp only [LoadTable.initLoadItem_known _ hinfo, hinfo]
      exact ⟨_, .found T p key len _ he, hown.learn p key, bs, hlearn⟩
  | none =>
      cases he : T.entries key with
      | some e =>
          -- another process has made the block, and the table is not full
          obtain ⟨q, hq⟩ := hown key e he
          have hroom : s.table.tail < s.table.blocksize := by
            rcases htime with hroom | hsome | hall
            · exact hroom
            · simp [hinfo] at hsome
            · simp [h.known, hall q] at hq
          have hfind := h.lays.findblock key hroom
          rw [← h.lookup, he] at hfind
          have hlookup := he
          rw [h.lookup] at hlookup
          have hpos := (lookup_bounds hlookup).1
          have hinit := LoadTable.initLoadItem_found len.1 hinfo hfind
            (by simp only [Entry.info, blockHeadLen] at hpos ⊢; omega)
            (lookup_value_pos hlookup)
          simp only [hinit, Function.update_self]
          exact ⟨_, .found T p key len e he, hown.learn p key, bs, h.learn (by rw [he]; rfl)⟩
      | none =>
          have hfind : s.table.findblock key = none := by
            rcases Nat.lt_or_ge s.table.tail s.table.blocksize with hroom | hfull
            · rw [h.lays.findblock key hroom, ← h.lookup, he]
              rfl
            · rw [LoadTable.findblock, if_pos (.inr hfull)]
          have hlen := len.1.toNat_lt
          have hle := h.lays.le_size
          have hlt := h.lays.size_lt
          have hu32 : u32 (s.table.tail + blockHeadLen + len.1.toNat) =
              s.table.tail + blockHeadLen + len.1.toNat :=
            u32_of_lt (by simp only [blockHeadLen]; omega)
          by_cases hfull : s.table.tail + blockHeadLen + len.1.toNat > s.table.blocksize
          · have hinit := LoadTable.initLoadItem_full len.1 hinfo hfind (by rw [hu32]; exact hfull)
            have hsame := Function.update_eq_self p s.items
            simp only [hinit, hinfo, hsame]
            rw [h.used, h.size] at hfull
            exact ⟨T, .full T p key len he hfull, hown, bs, h⟩
          · have hinit := LoadTable.initLoadItem_made len.1 hinfo hfind (by rw [hu32]; exact hfull)
            simp only [hinit, Function.update_self, hu32]
            exact h.made hown p key len hfits he (Nat.not_lt.mp hfull)

/-! ### Runs -/

omit [DecidableEq ι] in
/-- A fresh segment has no block. -/
theorem refines_init (shmsize : ShmSize) (block : ℕ → UInt8) :
    Refines (init shmsize block : LoadTables ι) (.new (u32sub shmsize.1 8)) [] where
  size := rfl
  used := rfl
  known := by simp [SharedTable.new, init]
  remembers := by simp [init]
  lays := by
    have hsize := shmsize.2
    have hsub := u32sub_of_le hsize.1 (by omega)
    refine ⟨rfl, rfl, Nat.zero_le _, ?_⟩
    simp only [init, LoadTable.init, hsub]
    omega
  entries := rfl

/-- Every call in time is one on the shared table. -/
theorem Refines.step (h : Refines s T bs) (hown : Owned T) (op : LoadOp ι) (hin : s.InTime op) :
    ∃ T', TableStep T op (LoadTables.step s op).2 T' ∧
      Owned T' ∧ ∃ bs', Refines (LoadTables.step s op).1 T' bs' := by
  cases op with
  | initLoadItem p key len => exact h.initLoadItem hown p key len hin
  | read p key bufLen nowtime timeout =>
      exact ⟨T, h.read p key bufLen nowtime timeout, hown, bs, h⟩
  | write p key buf now => exact h.write hown p key buf now

/-- The calls of any number of processes are calls on one table, whose blocks are apart, as long as
each is made in time; and what a process remembers is in that table. -/
theorem shared_run (shmsize : ShmSize) (block : ℕ → UInt8) (ops : List (LoadOp ι))
    (hrun : Run.Always step InTime (init shmsize block) ops) :
    ∃ T, Run.Allows TableStep (.new (u32sub shmsize.1 8))
        (Run.trace step (init shmsize block) ops) T ∧
      Agrees (Run.final step (init shmsize block) ops) T := by
  obtain ⟨T, hallows, -, bs, hrefines⟩ := Run.simulates
    (R := fun s T => Owned T ∧ ∃ bs, Refines s T bs)
    (fun s T op ⟨hown, bs, h⟩ hin => h.step hown op hin)
    ⟨by simp [Owned, SharedTable.new], [], refines_init shmsize block⟩ hrun
  exact ⟨T, hallows, hrefines.toAgrees⟩

/-- One process makes a block and writes it, another one finds it and reads it. -/
theorem shared_two :
    let key : Key := ⟨[99], by decide⟩
    let ops : List (LoadOp (Fin 2)) := [.initLoadItem 0 key ⟨2, by decide⟩,
      .initLoadItem 1 key ⟨2, by decide⟩, .write 0 key ⟨[7, 8], by decide⟩ 5, .read 1 key 2 6 60]
    let trace := Run.trace step (init ⟨72, by decide⟩ fun _ => 0) ops
    (∃ T, Run.Allows TableStep (.new (u32sub 72 8)) trace T ∧
      Agrees (Run.final step (init ⟨72, by decide⟩ fun _ => 0) ops) T) ∧
    trace.map Prod.snd = [.inited 2 (some ⟨2, 40⟩), .inited 2 (some ⟨2, 40⟩), .wrote 2,
      .read ⟨2, [7, 8]⟩] := by
  intro key ops trace
  constructor
  · have hrun : Run.Always step InTime (init ⟨72, by decide⟩ fun _ => 0) ops :=
      ⟨⟨by decide, .inl (by decide)⟩, ⟨by decide, .inl (by decide)⟩, trivial, trivial, trivial⟩
    exact shared_run ⟨72, by decide⟩ (fun _ => 0) ops hrun
  · decide +kernel

/-- A block that ends with the table is not found by another process. -/
theorem not_shared_full :
    let key : Key := ⟨[99], by decide⟩
    let ops : List (LoadOp (Fin 2)) :=
      [.initLoadItem 0 key ⟨2, by decide⟩, .initLoadItem 1 key ⟨2, by decide⟩]
    ¬ ∃ T, Run.Allows TableStep (.new 42)
      (Run.trace step (init ⟨50, by decide⟩ fun _ => 0) ops) T := by
  intro key ops
  have htrace : Run.trace step (init ⟨50, by decide⟩ fun _ => 0) ops =
      [(.initLoadItem 0 key ⟨2, by decide⟩, .inited 2 (some ⟨2, 40⟩)),
        (.initLoadItem 1 key ⟨2, by decide⟩, .inited 0 none)] := rfl
  rw [htrace]
  intro ⟨T, hallows⟩
  cases hallows with
  | cons hmade hrest =>
      cases hrest with
      | cons hfull _ =>
          have hsome := hmade.some
          rw [hfull.none] at hsome
          simp at hsome

end LoadTables

end Spp
