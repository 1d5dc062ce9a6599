import Spp.Sock.Cache
import Spp.Lib.Run
import Spp.Lib.Word

/-!
# The raw cache as a queue of bytes

`CRawCache` with the fields that the source has: a block of the pool and three `unsigned`
numbers, whose sums may wrap.  For every sequence of calls that append less than 2 GB none
does, and the cache is a queue: `append` adds at the end or throws without an effect, and
`skip` removes from the front.

## Main definitions

* `CRawCache`, `append`, `skip`, `data` — the cache.
* `FifoStep` — the queue.
* `Denotes` — what `data` and `data_len` return for a queue.
* `RawCache.fields` — the cache of a connection, as such a cache.
-/

namespace Spp

/-- A block of the pool. -/
structure PoolBlock where
  size : ℕ
  bytes : ℕ → UInt8

/-- The answers of the pool: `NULL`, or a block of at least the size asked for, whose size is
`unsigned`. -/
structure PoolAnswers where
  allocate : ℕ → Option PoolBlock
  fits : ∀ n b, allocate n = some b → n ≤ b.size ∧ b.size < 2 ^ 32

/-- The answers of a connection's pool. -/
def Alloc.answers (alloc : Alloc) : PoolAnswers where
  allocate n := (alloc n).map fun b => ⟨b.size, b.content⟩
  fits n b h := by
    obtain ⟨b', -, rfl⟩ := Option.map_eq_some_iff.mp h
    have hbound := b'.bound
    exact ⟨b'.fits, by simp only; omega⟩

/-- The fields of a `CRawCache`; `none` is a `_mem` that is `NULL`. -/
structure CRawCache where
  mem : Option PoolBlock
  blockSize : ℕ
  dataHead : ℕ
  dataLen : ℕ

namespace CRawCache

def new : CRawCache := ⟨none, 0, 0, 0⟩

/-- `data`: `NULL` or an offset in the block; `none` if the assertion fails. -/
def data (c : CRawCache) : Option (Option ℕ) :=
  if c.dataLen = 0 then some none
  else if c.dataHead < c.blockSize then some (some c.dataHead)
  else none

/-- `append`: false is the exception. -/
def append (c : CRawCache) (data : List UInt8) (mp : PoolAnswers) :
    CRawCache × Bool :=
  match c.mem with
  | none =>
      match mp.allocate data.length with
      | none => (c, false)
      | some b =>
          ({ mem := some ⟨b.size, Mem.write b.bytes 0 data⟩
             blockSize := b.size, dataHead := 0, dataLen := data.length }, true)
  | some m =>
      if u32 (data.length + c.dataHead + c.dataLen) ≤ c.blockSize then
        ({ c with
           mem := some ⟨m.size, Mem.write m.bytes (c.dataHead + c.dataLen) data⟩
           dataLen := u32 (c.dataLen + data.length) }, true)
      else if u32 (data.length + c.dataLen) > c.blockSize then
        -- a larger block, with the old bytes in front
        match mp.allocate (u32 (data.length + c.dataLen)) with
        | none => (c, false)
        | some b =>
            ({ mem := some ⟨b.size, Mem.write (Mem.write b.bytes 0
                 (Mem.read m.bytes c.dataHead c.dataLen)) c.dataLen data⟩
               blockSize := b.size, dataHead := 0
               dataLen := u32 (c.dataLen + data.length) }, true)
      else
        -- the old bytes move to the head of the block
        ({ c with
           mem := some ⟨m.size, Mem.write (Mem.write m.bytes 0
             (Mem.read m.bytes c.dataHead c.dataLen)) c.dataLen data⟩
           dataHead := 0, dataLen := u32 (c.dataLen + data.length) }, true)

def skip (c : CRawCache) (length : ℕ) : CRawCache :=
  match c.mem with
  | none => c
  | some _ =>
      if length ≥ c.dataLen then ⟨none, 0, 0, 0⟩
      else { c with
        dataHead := u32 (c.dataHead + length), dataLen := u32sub c.dataLen length }

/-! ## Calls -/

/-- A call on the cache, with the answers of the pool. -/
inductive Call
  | append (data : List UInt8) (mp : PoolAnswers)
  | skip (length : ℕ)

/-- The bytes that a call appends, if it does not throw. -/
def Call.appended : Call → ℕ
  | .append data _ => data.length
  | .skip _ => 0

/-- One call: false is the exception. -/
def call (c : CRawCache) : Call → CRawCache × Bool
  | .append data mp => c.append data mp
  | .skip length => (c.skip length, true)

/-- The queue: `append` adds at the end, or throws when the pool has refused a request. -/
inductive FifoStep : List UInt8 → Call → Bool → List UInt8 → Prop
  | append {q data mp} : FifoStep q (.append data mp) true (q ++ data)
  | throws {q data mp n} : mp.allocate n = none → FifoStep q (.append data mp) false q
  | skip {q n} : FifoStep q (.skip n) true (q.drop n)

/-- `data` and `data_len` denote the queue: its bytes lie inside the block, from the offset
that `data` returns on. -/
structure Denotes (c : CRawCache) (q : List UInt8) : Prop where
  dataLen : c.dataLen = q.length
  data : c.data = some (if q = [] then none else some c.dataHead)
  region : q ≠ [] → ∃ b, c.mem = some b ∧ c.dataHead + q.length ≤ b.size ∧
    Mem.read b.bytes c.dataHead q.length = q

/-- The cache holds the queue, after at most `total` bytes have been appended. -/
structure Holds (c : CRawCache) (q : List UInt8) (total : ℕ) : Prop where
  dataLen : c.dataLen = q.length
  empty : c.mem = none → q = []
  block : ∀ b, c.mem = some b → c.blockSize = b.size ∧ c.dataHead + q.length ≤ b.size ∧
    Mem.read b.bytes c.dataHead q.length = q
  total : c.dataHead + q.length ≤ total

variable {c : CRawCache} {q : List UInt8} {total : ℕ}

theorem holds_new : Holds new [] 0 := ⟨rfl, fun _ => rfl, by simp [new], Nat.le_refl 0⟩

theorem Holds.denotes (h : Holds c q total) : Denotes c q := by
  have hlen := h.dataLen
  refine ⟨hlen, ?_, fun hq => ?_⟩
  · by_cases hq : q = []
    · rw [if_pos hq, data, if_pos (by rw [hlen, hq]; rfl)]
    · have hpos : 0 < q.length := List.length_pos_iff.mpr hq
      rw [if_neg hq, data, if_neg (by omega)]
      cases hm : c.mem with
      | none => exact absurd (h.empty hm) hq
      | some b =>
          obtain ⟨hsize, hroom, -⟩ := h.block b hm
          rw [if_pos (by omega)]
  · cases hm : c.mem with
    | none => exact absurd (h.empty hm) hq
    | some b => exact ⟨b, rfl, (h.block b hm).2⟩

/-- The old bytes in front of a block, and the new ones behind them. -/
theorem holds_moved {b : PoolBlock} {data : List UInt8} {len : ℕ} (hlen : len = q.length)
    (m : ℕ → UInt8) (hroom : q.length + data.length ≤ b.size)
    (htotal : q.length + data.length ≤ total) :
    Holds ⟨some ⟨b.size, Mem.write (Mem.write m 0 q) len data⟩, b.size, 0,
      q.length + data.length⟩ (q ++ data) total := by
  have happend := RawCache.read_write_append m 0 q data
  rw [Nat.zero_add, ← hlen] at happend
  rw [← hlen] at hroom htotal ⊢
  refine ⟨by simp [hlen], by simp, ?_, by simpa [hlen] using htotal⟩
  rintro b' hb
  obtain rfl := Option.some.inj hb
  rw [List.length_append, Nat.zero_add, ← hlen]
  exact ⟨rfl, hroom, happend⟩

/-- `append` adds the bytes at the end, or throws and changes nothing. -/
theorem Holds.append (h : Holds c q total) (data : List UInt8) (mp : PoolAnswers)
    (htotal : total + data.length < 2 ^ 31) :
    ((c.append data mp).2 = true ∧
      Holds (c.append data mp).1 (q ++ data) (total + data.length)) ∨
    (∃ n, mp.allocate n = none) ∧ c.append data mp = (c, false) := by
  have hlen := h.dataLen
  have hbound := h.total
  cases hm : c.mem with
  | none =>
      obtain rfl := h.empty hm
      rw [CRawCache.append, hm]
      cases ha : mp.allocate data.length with
      | none => exact .inr ⟨⟨_, ha⟩, rfl⟩
      | some b =>
          left
          refine ⟨rfl, ?_⟩
          have hmoved : Holds ⟨some ⟨b.size, Mem.write (Mem.write b.bytes 0 []) 0 data⟩, b.size, 0,
              0 + data.length⟩ ([] ++ data) (total + data.length) :=
            holds_moved rfl b.bytes (by simpa using (mp.fits _ b ha).1) (by simp)
          simpa [ha] using hmoved
  | some m =>
      obtain ⟨hsize, hroom, hread⟩ := h.block m hm
      have hsum : u32 (data.length + c.dataHead + c.dataLen) =
          data.length + c.dataHead + c.dataLen := u32_of_lt (by omega)
      have hneed : u32 (data.length + c.dataLen) = data.length + c.dataLen := u32_of_lt (by omega)
      have hnew : u32 (c.dataLen + data.length) = q.length + data.length := by
        rw [hlen]
        exact u32_of_lt (by omega)
      rw [← hlen] at hread
      rw [CRawCache.append, hm]
      simp only [hsum, hneed, hnew, hread]
      by_cases hfits : data.length + c.dataHead + c.dataLen ≤ c.blockSize
      · -- behind the old bytes
        left
        rw [if_pos hfits]
        refine ⟨rfl, by simp, by simp, ?_, by rw [List.length_append]; simp only; omega⟩
        rintro b hb
        obtain rfl := Option.some.inj hb
        rw [List.length_append]
        refine ⟨hsize, by simp only; omega, ?_⟩
        simp only
        rw [Mem.read_add, ← hlen, Mem.read_write_self,
          Mem.read_write_of_disjoint _ _ (.inl (Nat.le_refl _)), hread]
      · rw [if_neg hfits]
        by_cases hlarger : data.length + c.dataLen > c.blockSize
        · rw [if_pos hlarger]
          cases ha : mp.allocate (data.length + c.dataLen) with
          | none => exact .inr ⟨⟨_, ha⟩, rfl⟩
          | some b =>
              left
              have hfit := (mp.fits _ b ha).1
              exact ⟨rfl, holds_moved hlen b.bytes (by omega) (by omega)⟩
        · -- the block is large enough without the skipped bytes
          left
          rw [if_neg hlarger]
          rw [hsize]
          exact ⟨rfl, holds_moved hlen m.bytes (by omega) (by omega)⟩

/-- `skip` removes bytes from the front. -/
theorem Holds.skip (h : Holds c q total) (n : ℕ) (htotal : total < 2 ^ 31) :
    Holds (c.skip n) (q.drop n) total := by
  have hlen := h.dataLen
  have hbound := h.total
  rw [CRawCache.skip]
  cases hm : c.mem with
  | none =>
      obtain rfl := h.empty hm
      rw [List.drop_nil]
      exact h
  | some m =>
      obtain ⟨hsize, hroom, hread⟩ := h.block m hm
      by_cases hall : n ≥ c.dataLen
      · simp only [if_pos hall]
        rw [List.drop_eq_nil_of_le (by omega)]
        exact ⟨rfl, fun _ => rfl, by simp, by simp⟩
      · simp only [if_neg hall]
        have hhead : u32 (c.dataHead + n) = c.dataHead + n := u32_of_lt (by omega)
        have hrest : u32sub c.dataLen n = q.length - n := by
          rw [hlen]
          exact u32sub_of_le (by omega) (by omega)
        rw [hhead, hrest]
        refine ⟨by simp, by simp, fun b hb => ?_, by simp only [List.length_drop]; omega⟩
        obtain rfl := Option.some.inj hb
        simp only [List.length_drop]
        refine ⟨hsize, by omega, ?_⟩
        have hparts : q.length = n + (q.length - n) := by omega
        rw [hparts, Mem.read_add] at hread
        have hdrop := congrArg (List.drop n) hread
        rwa [List.drop_left' (Mem.length_read _ _ _)] at hdrop

/-- One call is one step of the queue. -/
theorem Holds.call (h : Holds c q total) (op : Call) (htotal : total + op.appended < 2 ^ 31) :
    ∃ q', FifoStep q op (c.call op).2 q' ∧ Holds (c.call op).1 q' (total + op.appended) := by
  cases op with
  | append data mp =>
      rcases h.append data mp htotal with ⟨hok, h'⟩ | ⟨⟨n, hnull⟩, hthrow⟩
      · refine ⟨q ++ data, ?_, h'⟩
        rw [CRawCache.call, hok]
        exact .append
      · rw [CRawCache.call, hthrow]
        exact ⟨q, .throws hnull, h.dataLen, h.empty, h.block,
          h.total.trans (Nat.le_add_right _ _)⟩
  | skip n => exact ⟨q.drop n, .skip, h.skip n htotal⟩

/-- A sequence of calls is a run of the queue. -/
theorem Holds.run (h : Holds c q total) (ops : List Call)
    (htotal : total + (ops.map Call.appended).sum < 2 ^ 31) :
    ∃ q' total', Run.Allows FifoStep q (Run.trace CRawCache.call c ops) q' ∧
      Holds (Run.final CRawCache.call c ops) q' total' := by
  induction ops generalizing c q total with
  | nil => exact ⟨q, total, .nil q, h⟩
  | cons op ops ih =>
      rw [List.map_cons, List.sum_cons] at htotal
      obtain ⟨q₁, hstep, h₁⟩ := h.call op (by omega)
      obtain ⟨q', total', hrun, h'⟩ := ih h₁ (by omega)
      exact ⟨q', total', .cons hstep hrun, h'⟩

/-- After every sequence of calls that append less than 2 GB, `data` and `data_len` denote
what the same calls leave in a queue of bytes. -/
theorem denotes_fifo (ops : List Call) (htotal : (ops.map Call.appended).sum < 2 ^ 31) :
    ∃ q, Run.Allows FifoStep [] (Run.trace call new ops) q ∧
      Denotes (Run.final call new ops) q := by
  obtain ⟨q, total, hrun, h⟩ := holds_new.run ops (by omega)
  exact ⟨q, hrun, h.denotes⟩

/-- Three bytes, of which two are skipped before two more arrive. -/
theorem denotes_fifo_five :
    ∃ q, Run.Allows FifoStep []
        (Run.trace call new [.append [1, 2, 3] Alloc.exact.answers, .skip 2,
          .append [4, 5] Alloc.exact.answers]) q ∧
      Denotes (Run.final call new [.append [1, 2, 3] Alloc.exact.answers, .skip 2,
          .append [4, 5] Alloc.exact.answers]) q :=
  denotes_fifo _ (by decide)

end CRawCache

/-! ## The cache of a connection -/

namespace RawCache

/-- The fields of the cache of a connection. -/
def fields (c : RawCache) : CRawCache :=
  ⟨c.mem.map fun m => ⟨c.blockSize, m⟩, c.blockSize, c.dataHead, c.dataLen⟩

/-- The cache of a connection is such a cache: its `append` and its `skip` are these. -/
theorem fields_append (c : RawCache) (data : Payload) (alloc : Alloc) :
    c.fields.append data.1 alloc.answers =
      match c.append data alloc with
      | none => (c.fields, false)
      | some c' => (c'.fields, true) := by
  obtain ⟨mem, blockSize, dataHead, dataLen, hempty, hroom, hbound⟩ := c
  have hdata := data.2
  cases mem with
  | none =>
      simp only [RawCache.append, CRawCache.append, fields, Option.map_none, Alloc.answers]
      cases alloc data.1.length <;> rfl
  | some m =>
      have hsum : u32 (data.1.length + dataHead + dataLen) = data.1.length + dataHead + dataLen :=
        u32_of_lt (by omega)
      have hneed : u32 (data.1.length + dataLen) = data.1.length + dataLen := u32_of_lt (by omega)
      have hnew : u32 (dataLen + data.1.length) = dataLen + data.1.length := u32_of_lt (by omega)
      simp only [RawCache.append, CRawCache.append, fields, Option.map_some, Alloc.answers, hsum,
        hneed, hnew]
      by_cases hfits : data.1.length + dataHead + dataLen ≤ blockSize
      · rw [if_pos hfits, dif_pos hfits]
        rfl
      · rw [if_neg hfits, dif_neg hfits]
        by_cases hlarger : data.1.length + dataLen > blockSize
        · rw [if_pos hlarger, dif_pos hlarger]
          cases alloc (data.1.length + dataLen) <;> rfl
        · rw [if_neg hlarger, dif_neg hlarger]
          rfl

theorem fields_skip (c : RawCache) (n : ℕ) : c.fields.skip n = (c.skip n).fields := by
  obtain ⟨mem, blockSize, dataHead, dataLen, hempty, hroom, hbound⟩ := c
  cases mem with
  | none => rfl
  | some m =>
      simp only [RawCache.skip, CRawCache.skip, fields, Option.map_some]
      by_cases hall : n ≥ dataLen
      · rw [dif_pos hall]
        exact if_pos hall
      · rw [dif_neg hall, u32_of_lt (by omega), u32sub_of_le (by omega) (by omega)]
        exact if_neg hall

end RawCache
end Spp
