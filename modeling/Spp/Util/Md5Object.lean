import Spp.Lib.Hex
import Spp.Lib.Run
import Spp.Util.Md5

/-!
# The MD5 object

An `MD5Sum_test` takes bytes in pieces and gives the digest of what came in, and then begins
anew.  It keeps the last digest, and a flag that it has one; the flag goes when the first
block of the next message is full and not before.

## Main definitions

* `MD5Sum` — the object, with `put`, `commit` and what is read from it.
* `digest` — the digest of a message, as the object computes it.
* `Hasher` — the bytes that came in, and the digest that is shown.
-/

namespace Spp.Md5

/-- The members; the bytes of `m_buf` from `m_bpos` on are left over. -/
structure MD5Sum where
  state : Reg → BitVec 64
  count0 : BitVec 64
  count1 : BitVec 64
  buf : List UInt8
  bpos : ℕ
  committed : Bool
  md5 : List UInt8

namespace MD5Sum

def init (s : MD5Sum) : MD5Sum :=
  { s with count0 := 0, count1 := 0, state := initState, bpos := 0 }

/-- The constructor, in memory that holds `m`. -/
def new (m : MD5Sum) : MD5Sum := { m.init with committed := false }

def update (s : MD5Sum) : MD5Sum :=
  if s.bpos = 0 then s
  else
    let buf := s.buf.take s.bpos ++ List.replicate (64 - s.bpos) 0
    let count0 := s.count0 + 512
    let count1 := if count0 < 512 then s.count1 + 1 else s.count1
    { s with
      state := compress s.state buf, count0, count1, buf, bpos := 0, committed := false }

/-- A round of the loop in `put`. -/
def putByte (s : MD5Sum) (b : UInt8) : MD5Sum :=
  let s := { s with buf := s.buf.set s.bpos b, bpos := s.bpos + 1 }
  if 64 ≤ s.bpos then s.update else s

def put (s : MD5Sum) (bytes : List UInt8) : MD5Sum := bytes.foldl putByte s

/-- The array `pad`. -/
def pad : List UInt8 := 0x80 :: List.replicate 63 0

/-- `m_count` with the bits of the last block. -/
def addBits (s : MD5Sum) : MD5Sum :=
  let bits : BitVec 64 := .ofNat 64 (s.bpos * 8)
  let count0 := s.count0 + bits
  let count1 := if count0 < bits then s.count1 + 1 else s.count1
  { s with count0, count1 }

/-- The calls of `put` in `commit`. -/
def finish (s : MD5Sum) : MD5Sum :=
  let cbuf := lowBytes s.count0 ++ lowBytes s.count1
  let i := (s.count0 >>> 3 &&& 0x3f).toNat
  let len := if i < 56 then 56 - i else 120 - i
  (s.put (pad.take len)).put cbuf

def commit (s : MD5Sum) : MD5Sum :=
  if s.committed then s
  else
    let s := s.addBits.finish
    let md5 := lowBytes (s.state .a) ++ lowBytes (s.state .b) ++ lowBytes (s.state .c) ++
      lowBytes (s.state .d)
    { s.init with md5, committed := true }

end MD5Sum

/-- `toString` of a digest. -/
def text (md5 : List UInt8) : List Char := md5.flatMap fun b => hexPadded 2 b.toNat

/-! ## The whole of a message -/

/-- The bytes that `commit` puts behind a message of `n` bytes: the second word of the length
is what the first one, which has 64 bits, has carried. -/
def padding (n : ℕ) : List UInt8 :=
  0x80 :: List.replicate ((119 - n % 64) % 64) 0 ++ (le 4 (8 * n) ++ le 4 (8 * n / 2 ^ 64))

/-- The digest of a message. -/
def digest (msg : List UInt8) : List UInt8 :=
  let state := Blocks.whole 64 compress initState (msg ++ padding msg.length)
  lowBytes (state .a) ++ lowBytes (state .b) ++ lowBytes (state .c) ++ lowBytes (state .d)

theorem agrees_whole (msg : List UInt8) :
    Agrees (Blocks.whole 64 compress initState msg)
      (Blocks.whole 64 Rfc.compress Rfc.initState msg) :=
  Blocks.whole_rel (fun _ _ block h => h.compress block) agrees_initState msg

/-- The length is the one that the RFC has as long as the bits are less than 2^32. -/
theorem padding_eq {n : ℕ} (hn : n < 2 ^ 29) : padding n = Rfc.padding n := by
  have hcarry : 8 * n / 2 ^ 64 = 0 := by omega
  have hhigh : 8 * n / 256 ^ 4 = 0 := by omega
  have hsplit : le 8 (8 * n) = le 4 (8 * n) ++ le 4 (8 * n / 256 ^ 4) := le_add 4 4 (8 * n)
  rw [padding, Rfc.padding, hsplit, hcarry, hhigh]

theorem digest_eq {msg : List UInt8} (h : msg.length < 2 ^ 29) : digest msg = Rfc.md5 msg := by
  have hstate := agrees_whole (msg ++ Rfc.padding msg.length)
  rw [digest, padding_eq h, Rfc.md5, Rfc.encode]
  rw [lowBytes_eq, lowBytes_eq, lowBytes_eq, lowBytes_eq, hstate.a, hstate.b, hstate.c, hstate.d]

theorem length_digest (msg : List UInt8) : (digest msg).length = 16 := rfl

/-! ## What the object holds -/

/-- The bytes of a message are in the state and in the buffer. -/
structure Holds (s : MD5Sum) (msg : List UInt8) : Prop where
  state : s.state = Blocks.whole 64 compress initState msg
  size : s.buf.length = 64
  bpos : s.bpos = msg.length % 64
  buf : s.buf.take s.bpos = Blocks.rest 64 msg

/-- `m_count` is the number of bits in the whole blocks. -/
def Counted (s : MD5Sum) (msg : List UInt8) : Prop :=
  s.count0.toNat + 2 ^ 64 * s.count1.toNat = 512 * (msg.length / 64) % 2 ^ 128

variable {s : MD5Sum} {msg : List UInt8}

/-- A carry from the first word to the second. -/
theorem toNat_carry (x y z : BitVec 64) :
    (x + y).toNat + 2 ^ 64 * (if x + y < y then z + 1 else z).toNat =
      (x.toNat + 2 ^ 64 * z.toNat + y.toNat) % 2 ^ 128 := by
  have hx := x.isLt
  have hy := y.isLt
  have hz := z.isLt
  have hone : (1 : BitVec 64).toNat = 1 := rfl
  have hsum : (x + y).toNat = (x.toNat + y.toNat) % 2 ^ 64 := BitVec.toNat_add x y
  split
  · next hlt =>
      rw [BitVec.lt_def, hsum] at hlt
      rw [hsum, BitVec.toNat_add, hone]
      omega
  · next hge =>
      rw [BitVec.lt_def, hsum] at hge
      rw [hsum]
      omega

theorem take_set_succ {buf : List UInt8} {n : ℕ} (hn : n < buf.length) (b : UInt8) :
    (buf.set n b).take (n + 1) = buf.take n ++ [b] := by
  rw [List.take_add_one, List.take_set_of_le (le_refl n), List.getElem?_set_self hn]
  rfl

theorem Holds.whole_rest (h : Holds s msg) (b : UInt8) :
    (Blocks.whole 64 compress initState (msg ++ [b]), Blocks.rest 64 (msg ++ [b])) =
      Blocks.feed 64 compress (s.state, s.buf.take s.bpos) b := by
  have hfeed := Blocks.foldl_feed (n := 64) (f := compress) (by decide) initState msg
  have hfeed' := Blocks.foldl_feed (n := 64) (f := compress) (by decide) initState (msg ++ [b])
  rw [← hfeed', List.foldl_append, hfeed, h.state, h.buf]
  rfl

/-- A byte more: the buffer is full with every 64th. -/
theorem Holds.putByte (h : Holds s msg) (b : UInt8) : Holds (s.putByte b) (msg ++ [b]) := by
  have hlt : s.bpos < 64 := by
    rw [h.bpos]
    exact Nat.mod_lt _ (by decide)
  have hset := take_set_succ (h.size ▸ hlt) b
  have hlen : (s.buf.take s.bpos).length = s.bpos := List.length_take_of_le (h.size ▸ hlt.le)
  have hnext := h.whole_rest b
  have hmod := h.bpos
  rw [Blocks.feed, hlen] at hnext
  rw [MD5Sum.putByte]
  by_cases hfull : s.bpos + 1 = 64
  · rw [if_pos hfull, Prod.mk.injEq] at hnext
    rw [if_pos hfull.ge, MD5Sum.update, if_neg (Nat.succ_ne_zero _)]
    have hblock : (s.buf.set s.bpos b).take (s.bpos + 1) ++
        List.replicate (64 - (s.bpos + 1)) 0 = s.buf.take s.bpos ++ [b] := by
      rw [hset, hfull, Nat.sub_self, List.replicate_zero, List.append_nil]
    constructor
    · dsimp only
      rw [hblock, hnext.1]
    · dsimp only
      rw [hblock, List.length_append, hlen]
      exact hfull
    · rw [List.length_append, List.length_singleton]
      dsimp only
      omega
    · rw [hnext.2]
      rfl
  · rw [if_neg hfull, Prod.mk.injEq] at hnext
    rw [if_neg (by dsimp only; omega)]
    constructor
    · exact hnext.1.symm
    · rw [List.length_set]
      exact h.size
    · rw [List.length_append, List.length_singleton]
      dsimp only
      omega
    · rw [hnext.2]
      exact hset

theorem Holds.count_putByte (h : Holds s msg) (hcount : Counted s msg) (b : UInt8) :
    Counted (s.putByte b) (msg ++ [b]) := by
  have hmod := h.bpos
  rw [Counted] at hcount
  rw [Counted, List.length_append, List.length_singleton, MD5Sum.putByte]
  by_cases hfull : 64 ≤ s.bpos + 1
  · rw [if_pos hfull, MD5Sum.update, if_neg (Nat.succ_ne_zero _)]
    have hcarry := toNat_carry s.count0 512 s.count1
    have hbits : (512 : BitVec 64).toNat = 512 := rfl
    dsimp only
    rw [hcarry, hbits]
    omega
  · rw [if_neg hfull]
    dsimp only
    omega

/-- The flag goes with a full block. -/
theorem committed_putByte (h : Holds s msg) (b : UInt8) :
    (s.putByte b).committed = (s.committed && decide ((msg.length + 1) % 64 ≠ 0)) := by
  have hmod := h.bpos
  rw [MD5Sum.putByte]
  by_cases hfull : 64 ≤ s.bpos + 1
  · rw [if_pos hfull, MD5Sum.update, if_neg (Nat.succ_ne_zero _)]
    have hzero : (msg.length + 1) % 64 = 0 := by omega
    simp [hzero]
  · rw [if_neg hfull]
    have hne : (msg.length + 1) % 64 ≠ 0 := by omega
    simp [hne]

theorem md5_putByte (s : MD5Sum) (b : UInt8) : (s.putByte b).md5 = s.md5 := by
  rw [MD5Sum.putByte, MD5Sum.update]
  split
  · split <;> rfl
  · rfl

theorem Holds.put (h : Holds s msg) (bytes : List UInt8) :
    Holds (s.put bytes) (msg ++ bytes) := by
  induction bytes generalizing s msg with
  | nil => simpa [MD5Sum.put] using h
  | cons b bytes ih =>
      have hnext := ih (h.putByte b)
      rwa [List.append_assoc] at hnext

/-! ## Committing -/

theorem Holds.addBits (h : Holds s msg) : Holds s.addBits msg := ⟨h.state, h.size, h.bpos, h.buf⟩

/-- After the bits of the last block `m_count` is the length in bits. -/
theorem count_addBits (h : Holds s msg) (hcount : Counted s msg) :
    s.addBits.count0.toNat = 8 * msg.length % 2 ^ 64 ∧
      s.addBits.count1.toNat = 8 * msg.length / 2 ^ 64 % 2 ^ 64 := by
  have hcarry := toNat_carry s.count0 (.ofNat 64 (s.bpos * 8)) s.count1
  have hbits : (BitVec.ofNat 64 (s.bpos * 8)).toNat = s.bpos * 8 := by
    rw [BitVec.toNat_ofNat, h.bpos]
    omega
  have hmod := h.bpos
  have hlow := s.addBits.count0.isLt
  have hhigh := s.addBits.count1.isLt
  rw [Counted] at hcount
  rw [hbits] at hcarry
  have hall : s.addBits.count0.toNat + 2 ^ 64 * s.addBits.count1.toNat =
      8 * msg.length % 2 ^ 128 := by
    rw [MD5Sum.addBits]
    dsimp only
    rw [hcarry]
    omega
  omega

/-- The calls of `put` bring in the padding. -/
theorem Holds.finish (h : Holds s msg) (hlow : s.count0.toNat = 8 * msg.length % 2 ^ 64)
    (hhigh : s.count1.toNat = 8 * msg.length / 2 ^ 64 % 2 ^ 64) :
    Holds s.finish (msg ++ padding msg.length) := by
  have hindex : (s.count0 >>> 3 &&& 0x3f).toNat = msg.length % 64 := by
    have hmask : (0x3f : BitVec 64).toNat = 2 ^ 6 - 1 := by decide
    rw [BitVec.toNat_and, hmask, Nat.and_two_pow_sub_one_eq_mod, BitVec.toNat_ushiftRight,
      Nat.shiftRight_eq_div_pow, hlow]
    omega
  have hpad : MD5Sum.pad.take (if msg.length % 64 < 56 then 56 - msg.length % 64
      else 120 - msg.length % 64) = 0x80 :: List.replicate ((119 - msg.length % 64) % 64) 0 := by
    have hlt : msg.length % 64 < 64 := Nat.mod_lt _ (by decide)
    generalize msg.length % 64 = r at hlt ⊢
    have hlen : (if r < 56 then 56 - r else 120 - r) = (119 - r) % 64 + 1 := by
      split <;> omega
    rw [hlen, MD5Sum.pad, List.take_succ_cons, List.take_replicate, Nat.min_eq_left (by omega)]
  have hlength₀ : lowBytes s.count0 = le 4 (8 * msg.length) := by
    rw [lowBytes_eq_le, hlow, ← le_mod 4 (8 * msg.length), ← le_mod]
    congr 1
    omega
  have hlength₁ : lowBytes s.count1 = le 4 (8 * msg.length / 2 ^ 64) := by
    rw [lowBytes_eq_le, hhigh, ← le_mod 4 (8 * msg.length / 2 ^ 64), ← le_mod]
    congr 1
    omega
  have hput := (h.put (MD5Sum.pad.take (if msg.length % 64 < 56 then 56 - msg.length % 64
    else 120 - msg.length % 64))).put (lowBytes s.count0 ++ lowBytes s.count1)
  rw [MD5Sum.finish, hindex, padding, ← hpad, ← hlength₀, ← hlength₁, ← List.append_assoc]
  exact hput

theorem commit_of_committed (h : s.committed = true) : s.commit = s := by
  rw [MD5Sum.commit, if_pos h]

theorem md5_commit (h : Holds s msg) (hcount : Counted s msg) (hnot : s.committed = false) :
    s.commit.md5 = digest msg := by
  obtain ⟨hlow, hhigh⟩ := count_addBits h hcount
  have hend := h.addBits.finish hlow hhigh
  rw [MD5Sum.commit, hnot, if_neg Bool.false_ne_true, digest, ← hend.state]

theorem holds_init (hsize : s.buf.length = 64) (md5 : List UInt8) (committed : Bool) :
    Holds { s.init with md5, committed } [] ∧ Counted { s.init with md5, committed } [] :=
  ⟨⟨rfl, hsize, rfl, rfl⟩, rfl⟩

/-- After a digest nothing is held. -/
theorem holds_commit (h : Holds s msg) (hcount : Counted s msg) (hnot : s.committed = false) :
    Holds s.commit [] ∧ Counted s.commit [] ∧ s.commit.committed = true := by
  obtain ⟨hlow, hhigh⟩ := count_addBits h hcount
  have hsize := (h.addBits.finish hlow hhigh).size
  rw [MD5Sum.commit, hnot, if_neg Bool.false_ne_true]
  generalize s.addBits.finish = t at hsize
  obtain ⟨hholds, hcounted⟩ := holds_init hsize (lowBytes (t.state .a) ++ lowBytes (t.state .b) ++
    lowBytes (t.state .c) ++ lowBytes (t.state .d)) true
  exact ⟨hholds, hcounted, rfl⟩

/-! ## Runs -/

/-- What is done with an object. -/
inductive Op
  | put (bytes : List UInt8)
  | bytes
  | toString
  | toTempString
  | equals (md5 : List UInt8)
  deriving DecidableEq

/-- What is given back. -/
inductive Answer
  | none
  | bytes (md5 : List UInt8)
  | text (cs : List Char)
  | truth (b : Bool)
  deriving DecidableEq

def MD5Sum.step (s : MD5Sum) : Op → MD5Sum × Answer
  | .put bytes => (s.put bytes, .none)
  | .bytes => (s.commit, .bytes s.commit.md5)
  | .toString => (s.commit, .text (text s.commit.md5))
  -- the members are copied back
  | .toTempString => (s, .text (text s.commit.md5))
  | .equals md5 => (s.commit, .truth (decide (s.commit.md5 = md5)))

/-- The bytes since the last digest was computed, and that digest. -/
structure Hasher where
  pending : List UInt8
  last : Option (List UInt8)

namespace Hasher

variable (hash : List UInt8 → List UInt8)

/-- The last digest is shown again as long as the bytes behind it are less than a block. -/
def shown (h : Hasher) : Option (List UInt8) := h.last.filter fun _ => h.pending.length < 64

def read (h : Hasher) : List UInt8 := h.shown.getD (hash h.pending)

def commit (h : Hasher) : Hasher := if h.shown.isSome then h else ⟨[], some (hash h.pending)⟩

def step (h : Hasher) : Op → Hasher × Answer
  | .put bytes => ({ h with pending := h.pending ++ bytes }, .none)
  | .bytes => (h.commit hash, .bytes (h.read hash))
  | .toString => (h.commit hash, .text (text (h.read hash)))
  | .toTempString => (h, .text (text (h.read hash)))
  | .equals md5 => (h.commit hash, .truth (decide (h.read hash = md5)))

end Hasher

/-- The object holds what the hasher has. -/
structure Stands (s : MD5Sum) (h : Hasher) : Prop where
  holds : Holds s h.pending
  counted : Counted s h.pending
  committed : s.committed = h.shown.isSome
  last : ∀ md5, h.shown = some md5 → s.md5 = md5

theorem Stands.putByte {h : Hasher} (hs : Stands s h) (b : UInt8) :
    Stands (s.putByte b) { h with pending := h.pending ++ [b] } := by
  have hfilter : ∀ n : ℕ, (n + 1 < 64) = (n < 64 ∧ n + 1 ≠ 64) := fun n => by
    rw [eq_iff_iff]
    omega
  refine ⟨hs.holds.putByte b, hs.holds.count_putByte hs.counted b, ?_, ?_⟩
  · rw [committed_putByte hs.holds, hs.committed, Hasher.shown, Hasher.shown]
    cases h.last with
    | none => rfl
    | some md5 =>
        rw [List.length_append, List.length_singleton]
        by_cases hlt : h.pending.length + 1 < 64
        · have hne : (h.pending.length + 1) % 64 ≠ 0 := by omega
          have hlt' : h.pending.length < 64 := by omega
          simp [Option.filter, hlt, hlt', hne]
        · by_cases hlast : h.pending.length < 64
          · have hzero : (h.pending.length + 1) % 64 = 0 := by omega
            simp [Option.filter, hlt, hzero]
          · simp [Option.filter, hlt, hlast]
  · intro md5 hmd5
    rw [md5_putByte]
    apply hs.last
    rw [Hasher.shown, Option.filter_eq_some_iff] at hmd5 ⊢
    refine ⟨hmd5.1, ?_⟩
    have hlt := of_decide_eq_true hmd5.2
    rw [List.length_append, List.length_singleton] at hlt
    exact decide_eq_true (by omega)

theorem Stands.put {h : Hasher} (hs : Stands s h) (bytes : List UInt8) :
    Stands (s.put bytes) { h with pending := h.pending ++ bytes } := by
  induction bytes generalizing s h with
  | nil => simpa [MD5Sum.put] using hs
  | cons b bytes ih =>
      have hnext := ih (hs.putByte b)
      rwa [List.append_assoc] at hnext

theorem Stands.commit {h : Hasher} (hs : Stands s h) :
    Stands s.commit (h.commit digest) ∧ s.commit.md5 = h.read digest := by
  rw [Hasher.commit, Hasher.read]
  cases hshown : h.shown with
  | some md5 =>
      have hcommitted : s.committed = true := by
        rw [hs.committed, hshown]
        rfl
      rw [commit_of_committed hcommitted]
      exact ⟨hs, hs.last md5 hshown⟩
  | none =>
      have hnot : s.committed = false := by
        rw [hs.committed, hshown]
        rfl
      obtain ⟨hholds, hcounted, hcommitted⟩ := holds_commit hs.holds hs.counted hnot
      have hmd5 := md5_commit hs.holds hs.counted hnot
      refine ⟨⟨hholds, hcounted, hcommitted, ?_⟩, hmd5⟩
      rintro md5 ⟨⟩
      exact hmd5

theorem Stands.step {h : Hasher} (hs : Stands s h) (op : Op) :
    (s.step op).2 = (h.step digest op).2 ∧ Stands (s.step op).1 (h.step digest op).1 := by
  obtain ⟨hnext, hmd5⟩ := hs.commit
  cases op with
  | put bytes => exact ⟨rfl, hs.put bytes⟩
  | bytes => exact ⟨congrArg Answer.bytes hmd5, hnext⟩
  | toString => exact ⟨congrArg (Answer.text ∘ text) hmd5, hnext⟩
  | toTempString => exact ⟨congrArg (Answer.text ∘ text) hmd5, hs⟩
  | equals md5 => exact ⟨congrArg (fun x => Answer.truth (decide (x = md5))) hmd5, hnext⟩

theorem stands_new {m : MD5Sum} (hm : m.buf.length = 64) : Stands m.new ⟨[], none⟩ :=
  ⟨(holds_init hm m.md5 false).1, (holds_init hm m.md5 false).2, rfl, by simp [Hasher.shown]⟩

/-- What an object answers over a run is what the hasher answers. -/
theorem trace_eq_hasher {m : MD5Sum} (hm : m.buf.length = 64) (ops : List Op) :
    Run.trace MD5Sum.step m.new ops = Run.trace (Hasher.step digest) ⟨[], none⟩ ops :=
  Run.trace_eq (fun _ _ op h => h.step op) (stands_new hm) ops

/-! ## Messages of less than 2^29 bytes -/

/-- The bytes that come in. -/
def Op.size : Op → ℕ
  | .put bs => bs.length
  | _ => 0

theorem Hasher.step_congr {hash hash' : List UInt8 → List UInt8} {h : Hasher}
    (heq : hash h.pending = hash' h.pending) (op : Op) : h.step hash op = h.step hash' op := by
  have hcommit : h.commit hash = h.commit hash' := by rw [Hasher.commit, heq, Hasher.commit]
  have hread : h.read hash = h.read hash' := by rw [read, heq, read]
  cases op with
  | equals md5 => exact congrArg₂ (fun h x => (h, Answer.truth (decide (x = md5)))) hcommit hread
  | _ => simp only [step, hcommit, hread]

theorem Hasher.length_pending_step (hash : List UInt8 → List UInt8) (h : Hasher) (op : Op) :
    (h.step hash op).1.pending.length ≤ h.pending.length + op.size := by
  have hcommit : (h.commit hash).pending.length ≤ h.pending.length := by
    rw [Hasher.commit]
    split
    · exact le_rfl
    · exact Nat.zero_le _
  cases op with
  | put bytes => exact List.length_append.le
  | bytes => exact hcommit
  | toString => exact hcommit
  | toTempString => exact le_rfl
  | equals md5 => exact hcommit

theorem trace_hasher_eq (h : Hasher) (ops : List Op)
    (hsize : h.pending.length + (ops.map Op.size).sum < 2 ^ 29) :
    Run.trace (Hasher.step digest) h ops = Run.trace (Hasher.step Rfc.md5) h ops := by
  induction ops generalizing h with
  | nil => rfl
  | cons op ops ih =>
      rw [List.map_cons, List.sum_cons] at hsize
      have hpending : h.pending.length < 2 ^ 29 := by omega
      have hstep := Hasher.step_congr (digest_eq hpending) op
      have hlen := Hasher.length_pending_step Rfc.md5 h op
      rw [Run.trace_cons, Run.trace_cons, hstep, ih _ (by omega)]

/-- Where less than 2^29 bytes come in, every digest that an object gives is the one of
RFC 1321, of the bytes since the last one was computed or, while these are less than a block,
that last one again. -/
theorem trace_eq_rfc {m : MD5Sum} (hm : m.buf.length = 64) {ops : List Op}
    (hsize : (ops.map Op.size).sum < 2 ^ 29) :
    Run.trace MD5Sum.step m.new ops = Run.trace (Hasher.step Rfc.md5) ⟨[], none⟩ ops := by
  rw [trace_eq_hasher hm, trace_hasher_eq _ _ (by simpa using hsize)]

/-- An object in memory that has been cleared. -/
def cleared : MD5Sum := ⟨fun _ => 0, 0, 0, List.replicate 64 0, 0, false, []⟩

theorem trace_eq_rfc_cleared :
    Run.trace MD5Sum.step cleared.new [.put [1], .bytes, .put [2], .toString] =
      Run.trace (Hasher.step Rfc.md5) ⟨[], none⟩ [.put [1], .bytes, .put [2], .toString] :=
  trace_eq_rfc (by decide) (by decide)

/-! ## The functions -/

/-- `Md5Sum`, with its object in memory that holds `m`. -/
def md5Sum (m : MD5Sum) (input : List UInt8) (len : ℕ) : List UInt8 :=
  (m.new.put (input.take len)).commit.md5.take 16

/-- `getStringMD5Value`; the length of the string is converted to `unsigned int`. -/
def getStringMD5Value (m : MD5Sum) (str : List UInt8) : List Char :=
  text (m.new.put (str.take (u32 str.length))).commit.md5

/-- The pieces that a message comes in do not matter. -/
theorem md5_put_pieces {m : MD5Sum} (hm : m.buf.length = 64) (pieces : List (List UInt8)) :
    (pieces.foldl MD5Sum.put m.new).commit.md5 = digest pieces.flatten := by
  have hput : ∀ (s : MD5Sum) (h : Hasher), Stands s h →
      Stands (pieces.foldl MD5Sum.put s) { h with pending := h.pending ++ pieces.flatten } := by
    induction pieces with
    | nil => intro s h hs; simpa using hs
    | cons p pieces ih =>
        intro s h hs
        have hnext := ih _ _ (hs.put p)
        rwa [List.append_assoc] at hnext
  exact (hput _ _ (stands_new hm)).commit.2

theorem md5Sum_eq {m : MD5Sum} (hm : m.buf.length = 64) (input : List UInt8) {len : ℕ}
    (hlen : len < 2 ^ 29) : md5Sum m input len = Rfc.md5 (input.take len) := by
  have hdigest : (m.new.put (input.take len)).commit.md5 = digest [input.take len].flatten :=
    md5_put_pieces hm [input.take len]
  rw [List.flatten_singleton] at hdigest
  rw [md5Sum, hdigest, List.take_of_length_le (length_digest _).le, digest_eq]
  rw [List.length_take]
  omega

theorem getStringMD5Value_eq {m : MD5Sum} (hm : m.buf.length = 64) {str : List UInt8}
    (hstr : str.length < 2 ^ 29) : getStringMD5Value m str = text (Rfc.md5 str) := by
  have hdigest : (m.new.put str).commit.md5 = digest [str].flatten := md5_put_pieces hm [str]
  rw [List.flatten_singleton] at hdigest
  rw [getStringMD5Value, u32_of_lt (by omega), List.take_length, hdigest, digest_eq hstr]

end Spp.Md5
