import Spp.Lib.Blocks
import Spp.Lib.Word

/-!
# The rounds of MD5

`MD5Sum_test::update` computes in variables of type `unsigned long`, which have 64 bits here,
where RFC 1321 has words of 32.  What comes above the 32 bits is never cleared: additions carry
into it, `~` sets it, and a byte that is shifted to the sign of an `int` fills it.  None of it
comes back, for a rotation masks what it shifts down.

## Main definitions

* `rotate_left`, `F`, `G`, `H`, `I` — the functions of the rounds.
* `calls` — the calls of `FF`, `GG`, `HH` and `II`, in their order.
* `compress` — a block is added to `m_state`.
* `Rfc.compress` — the same by RFC 1321, on words of 32 bits.
-/

namespace Spp.Md5

variable {w : ℕ}

local instance neZero_words : NeZero 16 := ⟨by decide⟩

/-! ## The functions -/

abbrev S11 : ℕ := 7
abbrev S12 : ℕ := 12
abbrev S13 : ℕ := 17
abbrev S14 : ℕ := 22
abbrev S21 : ℕ := 5
abbrev S22 : ℕ := 9
abbrev S23 : ℕ := 14
abbrev S24 : ℕ := 20
abbrev S31 : ℕ := 4
abbrev S32 : ℕ := 11
abbrev S33 : ℕ := 16
abbrev S34 : ℕ := 23
abbrev S41 : ℕ := 6
abbrev S42 : ℕ := 10
abbrev S43 : ℕ := 15
abbrev S44 : ℕ := 21

/-- `rotate_left` where `unsigned long` has more than 32 bits. -/
def rotate_left (x : BitVec 64) (n : ℕ) : BitVec 64 :=
  (x <<< n) ||| ((x &&& 0xffffffff) >>> (32 - n))

def F (x y z : BitVec w) : BitVec w := (x &&& y) ||| (~~~x &&& z)
def G (x y z : BitVec w) : BitVec w := (x &&& z) ||| (y &&& ~~~z)
def H (x y z : BitVec w) : BitVec w := x ^^^ y ^^^ z
def I (x y z : BitVec w) : BitVec w := y ^^^ (x ||| ~~~z)

/-- The function of a round. -/
inductive Round
  | F | G | H | I
  deriving DecidableEq

def Round.eval : Round → BitVec w → BitVec w → BitVec w → BitVec w
  | .F => Md5.F
  | .G => Md5.G
  | .H => Md5.H
  | .I => Md5.I

/-- The variables `a` to `d`, and the elements of `m_state`. -/
inductive Reg
  | a | b | c | d
  deriving DecidableEq

/-- A call of `FF`, `GG`, `HH` or `II`: its function, the variables in the order of the
arguments, the index of `x`, the shift and the constant. -/
structure Call where
  round : Round
  a : Reg
  b : Reg
  c : Reg
  d : Reg
  k : Fin 16
  s : ℕ
  ac : BitVec 32
  deriving DecidableEq

def FF : Reg → Reg → Reg → Reg → Fin 16 → ℕ → BitVec 32 → Call := .mk .F
def GG : Reg → Reg → Reg → Reg → Fin 16 → ℕ → BitVec 32 → Call := .mk .G
def HH : Reg → Reg → Reg → Reg → Fin 16 → ℕ → BitVec 32 → Call := .mk .H
def II : Reg → Reg → Reg → Reg → Fin 16 → ℕ → BitVec 32 → Call := .mk .I

open Reg in
/-- The calls in `update`. -/
def calls : List Call :=
  [FF a b c d 0 S11 0xd76aa478, FF d a b c 1 S12 0xe8c7b756,
   FF c d a b 2 S13 0x242070db, FF b c d a 3 S14 0xc1bdceee,
   FF a b c d 4 S11 0xf57c0faf, FF d a b c 5 S12 0x4787c62a,
   FF c d a b 6 S13 0xa8304613, FF b c d a 7 S14 0xfd469501,
   FF a b c d 8 S11 0x698098d8, FF d a b c 9 S12 0x8b44f7af,
   FF c d a b 10 S13 0xffff5bb1, FF b c d a 11 S14 0x895cd7be,
   FF a b c d 12 S11 0x6b901122, FF d a b c 13 S12 0xfd987193,
   FF c d a b 14 S13 0xa679438e, FF b c d a 15 S14 0x49b40821,
   GG a b c d 1 S21 0xf61e2562, GG d a b c 6 S22 0xc040b340,
   GG c d a b 11 S23 0x265e5a51, GG b c d a 0 S24 0xe9b6c7aa,
   GG a b c d 5 S21 0xd62f105d, GG d a b c 10 S22 0x2441453,
   GG c d a b 15 S23 0xd8a1e681, GG b c d a 4 S24 0xe7d3fbc8,
   GG a b c d 9 S21 0x21e1cde6, GG d a b c 14 S22 0xc33707d6,
   GG c d a b 3 S23 0xf4d50d87, GG b c d a 8 S24 0x455a14ed,
   GG a b c d 13 S21 0xa9e3e905, GG d a b c 2 S22 0xfcefa3f8,
   GG c d a b 7 S23 0x676f02d9, GG b c d a 12 S24 0x8d2a4c8a,
   HH a b c d 5 S31 0xfffa3942, HH d a b c 8 S32 0x8771f681,
   HH c d a b 11 S33 0x6d9d6122, HH b c d a 14 S34 0xfde5380c,
   HH a b c d 1 S31 0xa4beea44, HH d a b c 4 S32 0x4bdecfa9,
   HH c d a b 7 S33 0xf6bb4b60, HH b c d a 10 S34 0xbebfbc70,
   HH a b c d 13 S31 0x289b7ec6, HH d a b c 0 S32 0xeaa127fa,
   HH c d a b 3 S33 0xd4ef3085, HH b c d a 6 S34 0x4881d05,
   HH a b c d 9 S31 0xd9d4d039, HH d a b c 12 S32 0xe6db99e5,
   HH c d a b 15 S33 0x1fa27cf8, HH b c d a 2 S34 0xc4ac5665,
   II a b c d 0 S41 0xf4292244, II d a b c 7 S42 0x432aff97,
   II c d a b 14 S43 0xab9423a7, II b c d a 5 S44 0xfc93a039,
   II a b c d 12 S41 0x655b59c3, II d a b c 3 S42 0x8f0ccc92,
   II c d a b 10 S43 0xffeff47d, II b c d a 1 S44 0x85845dd1,
   II a b c d 8 S41 0x6fa87e4f, II d a b c 15 S42 0xfe2ce6e0,
   II c d a b 6 S43 0xa3014314, II b c d a 13 S44 0x4e0811a1,
   II a b c d 4 S41 0xf7537e82, II d a b c 11 S42 0xbd3af235,
   II c d a b 2 S43 0x2ad7d2bb, II b c d a 9 S44 0xeb86d391]

/-- What a call does to the variables. -/
def Call.run (x : Fin 16 → BitVec 64) (v : Reg → BitVec 64) (f : Call) : Reg → BitVec 64 :=
  let a := v f.a + (f.round.eval (v f.b) (v f.c) (v f.d) + x f.k + f.ac.setWidth 64)
  Function.update v f.a (rotate_left a f.s + v f.b)

/-- A byte of `m_buf`. -/
def byteAt (buf : List UInt8) (i : ℕ) : BitVec 8 := (buf.getD i 0).toBitVec

/-- The `int` that a byte of `m_buf` is shifted as, converted to `unsigned long`. -/
def shifted (b : BitVec 8) (n : ℕ) : BitVec 64 := (b.setWidth 32 <<< n).signExtend 64

/-- `x[i]` of a full `m_buf`. -/
def word (buf : List UInt8) (i : Fin 16) : BitVec 64 :=
  (byteAt buf (i * 4)).setWidth 64 ||| shifted (byteAt buf (i * 4 + 1)) 8 |||
    shifted (byteAt buf (i * 4 + 2)) 16 ||| shifted (byteAt buf (i * 4 + 3)) 24

/-- What `update` adds to `m_state`. -/
def compress (state : Reg → BitVec 64) (buf : List UInt8) : Reg → BitVec 64 :=
  fun r => state r + calls.foldl (Call.run (word buf)) state r

/-- `m_state` after `init`. -/
def initState : Reg → BitVec 64
  | .a => 0x67452301
  | .b => 0xefcdab89
  | .c => 0x98badcfe
  | .d => 0x10325476

/-- The bytes that `commit` takes from a word. -/
def lowBytes (x : BitVec 64) : List UInt8 :=
  [.ofBitVec ((x &&& 0xff).setWidth 8), .ofBitVec ((x >>> 8 &&& 0xff).setWidth 8),
    .ofBitVec ((x >>> 16 &&& 0xff).setWidth 8), .ofBitVec ((x >>> 24 &&& 0xff).setWidth 8)]

/-! ## RFC 1321 -/

namespace Rfc

/-- The four words. -/
structure State where
  a : BitVec 32
  b : BitVec 32
  c : BitVec 32
  d : BitVec 32
  deriving DecidableEq

/-- The table of sines. -/
def T : List (BitVec 32) :=
  [0xd76aa478, 0xe8c7b756, 0x242070db, 0xc1bdceee, 0xf57c0faf, 0x4787c62a,
   0xa8304613, 0xfd469501, 0x698098d8, 0x8b44f7af, 0xffff5bb1, 0x895cd7be,
   0x6b901122, 0xfd987193, 0xa679438e, 0x49b40821, 0xf61e2562, 0xc040b340,
   0x265e5a51, 0xe9b6c7aa, 0xd62f105d, 0x2441453, 0xd8a1e681, 0xe7d3fbc8,
   0x21e1cde6, 0xc33707d6, 0xf4d50d87, 0x455a14ed, 0xa9e3e905, 0xfcefa3f8,
   0x676f02d9, 0x8d2a4c8a, 0xfffa3942, 0x8771f681, 0x6d9d6122, 0xfde5380c,
   0xa4beea44, 0x4bdecfa9, 0xf6bb4b60, 0xbebfbc70, 0x289b7ec6, 0xeaa127fa,
   0xd4ef3085, 0x4881d05, 0xd9d4d039, 0xe6db99e5, 0x1fa27cf8, 0xc4ac5665,
   0xf4292244, 0x432aff97, 0xab9423a7, 0xfc93a039, 0x655b59c3, 0x8f0ccc92,
   0xffeff47d, 0x85845dd1, 0x6fa87e4f, 0xfe2ce6e0, 0xa3014314, 0x4e0811a1,
   0xf7537e82, 0xbd3af235, 0x2ad7d2bb, 0xeb86d391]

/-- The function of a step, the word of the block and the rotation. -/
def round (i : ℕ) : Round := [.F, .G, .H, .I].getD (i / 16) .F

def index (i : ℕ) : Fin 16 :=
  .ofNat 16 ([i, 5 * i + 1, 3 * i + 5, 7 * i].getD (i / 16) 0)

def shift (i : ℕ) : ℕ :=
  ([[7, 12, 17, 22], [5, 9, 14, 20], [4, 11, 16, 23], [6, 10, 15, 21]].getD (i / 16) []).getD
    (i % 4) 0

/-- Step `i`: the words change their places, one of them is new. -/
def step (x : Fin 16 → BitVec 32) (s : State) (i : ℕ) : State where
  a := s.d
  b := s.b + (s.a + (round i).eval s.b s.c s.d + x (index i) + T.getD i 0).rotateLeft (shift i)
  c := s.b
  d := s.c

/-- The words of a block of 64 bytes, least significant byte first. -/
def word (block : List UInt8) (i : Fin 16) : BitVec 32 :=
  byteAt block (i * 4 + 3) ++ byteAt block (i * 4 + 2) ++ byteAt block (i * 4 + 1) ++
    byteAt block (i * 4)

/-- The steps for one block. -/
def compress (s : State) (block : List UInt8) : State :=
  let t := (List.range 64).foldl (step (word block)) s
  ⟨s.a + t.a, s.b + t.b, s.c + t.c, s.d + t.d⟩

def initState : State := ⟨0x67452301, 0xefcdab89, 0x98badcfe, 0x10325476⟩

def encode (s : State) : List UInt8 :=
  le 4 s.a.toNat ++ le 4 s.b.toNat ++ le 4 s.c.toNat ++ le 4 s.d.toNat

/-- One bit that is set, zeros up to 56 bytes, and the number of bits in 64 bits. -/
def padding (n : ℕ) : List UInt8 :=
  0x80 :: List.replicate ((119 - n % 64) % 64) 0 ++ le 8 (8 * n)

/-- The digest of a message. -/
def md5 (msg : List UInt8) : List UInt8 :=
  encode (Blocks.whole 64 compress initState (msg ++ padding msg.length))

end Rfc

/-! ## The low 32 bits -/

/-- The low bits of a variable. -/
def low (x : BitVec 64) : BitVec 32 := x.setWidth 32

theorem low_add (x y : BitVec 64) : low (x + y) = low x + low y :=
  BitVec.setWidth_add x y (by decide)

@[simp] theorem low_setWidth (x : BitVec 32) : low (x.setWidth 64) = x := by
  simp [low]

theorem low_eval (f : Round) (x y z : BitVec 64) :
    low (f.eval x y z) = f.eval (low x) (low y) (low z) := by
  cases f <;> simp [Round.eval, low, F, G, H, I]

/-- What is above the 32 bits is masked before it is shifted down. -/
theorem low_rotate_left (x : BitVec 64) {n : ℕ} (hn : n < 32) :
    low (rotate_left x n) = (low x).rotateLeft n := by
  apply BitVec.eq_of_getLsbD_eq
  intro i hi
  have hmask : (0xffffffff : BitVec 64) = (BitVec.allOnes 32).setWidth 64 := by decide
  rw [BitVec.getLsbD_rotateLeft_of_le hn, low, low, rotate_left, hmask]
  simp only [BitVec.getLsbD_setWidth, BitVec.getLsbD_or, BitVec.getLsbD_shiftLeft,
    BitVec.getLsbD_ushiftRight, BitVec.getLsbD_and, BitVec.getLsbD_allOnes]
  by_cases hin : i < n
  · have hshifted : 32 - n + i < 32 := by omega
    simp [hi, hin, hshifted, show 32 - n + i < 64 by omega]
  · have hout : ¬32 - n + i < 32 := by omega
    simp [hi, hin, hout, show i < 64 by omega, show i - n < 32 by omega]

theorem getLsbD_shifted (b : BitVec 8) {n i : ℕ} (hi : i < 32) :
    (shifted b n).getLsbD i = (!decide (i < n) && b.getLsbD (i - n)) := by
  rw [shifted, BitVec.getLsbD_signExtend, BitVec.getLsbD_shiftLeft, BitVec.getLsbD_setWidth]
  simp [hi, show i < 64 by omega, show i - n < 32 by omega]

theorem low_word (buf : List UInt8) (i : Fin 16) : low (word buf i) = Rfc.word buf i := by
  apply BitVec.eq_of_getLsbD_eq
  intro j hj
  simp only [low, word, Rfc.word, BitVec.getLsbD_setWidth, BitVec.getLsbD_or,
    getLsbD_shifted _ hj, BitVec.getLsbD_append]
  generalize byteAt buf (i * 4) = b₀
  generalize byteAt buf (i * 4 + 1) = b₁
  generalize byteAt buf (i * 4 + 2) = b₂
  generalize byteAt buf (i * 4 + 3) = b₃
  have hout : ∀ (b : BitVec 8) k, 8 ≤ k → b.getLsbD k = false :=
    fun b k hk => BitVec.getLsbD_of_ge b k hk
  -- which byte bit `j` is in
  rcases Nat.lt_or_ge j 8 with h₁ | h₁
  · simp [hj, h₁, show j < 16 by omega, show j < 24 by omega, show j < 64 by omega]
  rcases Nat.lt_or_ge j 16 with h₂ | h₂
  · simp [hj, h₁, h₂, show j < 24 by omega, show j < 64 by omega,
      show ¬j < 8 by omega, show j - 8 < 8 by omega]
  rcases Nat.lt_or_ge j 24 with h₃ | h₃
  · simp [hj, h₃, hout b₀ j h₁, hout b₁ (j - 8) (by omega), show j < 64 by omega,
      show ¬j < 8 by omega, show ¬j < 16 by omega, show ¬j - 8 < 8 by omega,
      show j - 8 - 8 = j - 16 by omega, show j - 16 < 8 by omega]
  · simp [hj, hout b₀ j h₁, hout b₁ (j - 8) (by omega), hout b₂ (j - 16) (by omega),
      show j < 64 by omega, show ¬j < 8 by omega, show ¬j < 16 by omega, show ¬j < 24 by omega,
      show ¬j - 8 < 8 by omega, show ¬j - 16 < 8 by omega, show j - 8 - 8 = j - 16 by omega,
      show j - 16 - 8 = j - 24 by omega]

/-! ## The steps -/

/-- The variable that has place `i` among the words, counted on from step to step. -/
def reg (i : ℕ) : Reg := [.a, .b, .c, .d].getD (i % 4) .a

theorem reg_add_four (i : ℕ) : reg (i + 4) = reg i := by
  rw [reg, reg, Nat.add_mod_right]

theorem reg_ne {i j : ℕ} (hj : 0 < j) (hlt : j < 4) : reg (i + j) ≠ reg i := by
  have h : ∀ r < 4, ∀ k < 4, 0 < k →
      [Reg.a, .b, .c, .d].getD ((r + k) % 4) .a ≠ [Reg.a, .b, .c, .d].getD r .a := by decide
  have hr := h (i % 4) (Nat.mod_lt i (by decide)) j hlt hj
  rwa [Nat.mod_add_mod] at hr

/-- The calls are the steps, with the variables instead of the words that change places. -/
theorem calls_eq : calls = (List.range 64).map fun i =>
    ⟨Rfc.round i, reg (3 * i), reg (3 * i + 1), reg (3 * i + 2), reg (3 * i + 3), Rfc.index i,
      Rfc.shift i, Rfc.T.getD i 0⟩ := by
  decide

theorem shift_lt : ∀ i < 64, Rfc.shift i < 32 := by decide

/-- The variables before step `i` hold the words in their low bits. -/
structure Follows (v : Reg → BitVec 64) (s : Rfc.State) (i : ℕ) : Prop where
  a : low (v (reg (3 * i))) = s.a
  b : low (v (reg (3 * i + 1))) = s.b
  c : low (v (reg (3 * i + 2))) = s.c
  d : low (v (reg (3 * i + 3))) = s.d

theorem Follows.step {v : Reg → BitVec 64} {s : Rfc.State} {i : ℕ} (h : Follows v s i)
    (hi : i < 64) (buf : List UInt8) :
    Follows (Call.run (word buf) v ⟨Rfc.round i, reg (3 * i), reg (3 * i + 1), reg (3 * i + 2),
        reg (3 * i + 3), Rfc.index i, Rfc.shift i, Rfc.T.getD i 0⟩)
      (Rfc.step (Rfc.word buf) s i) (i + 1) := by
  have hnext : 3 * (i + 1) = 3 * i + 3 := by ring
  have hnew : reg (3 * i + 3 + 1) = reg (3 * i) := reg_add_four (3 * i)
  have hb : reg (3 * i + 3 + 2) = reg (3 * i + 1) := reg_add_four (3 * i + 1)
  have hc : reg (3 * i + 3 + 3) = reg (3 * i + 2) := reg_add_four (3 * i + 2)
  have hne₁ : reg (3 * i + 1) ≠ reg (3 * i) := reg_ne (by decide) (by decide)
  have hne₂ : reg (3 * i + 2) ≠ reg (3 * i) := reg_ne (by decide) (by decide)
  have hne₃ : reg (3 * i + 3) ≠ reg (3 * i) := reg_ne (by decide) (by decide)
  constructor
  · rw [hnext, Call.run, Function.update_of_ne hne₃]
    exact h.d
  · rw [hnext, hnew, Call.run, Function.update_self]
    dsimp only
    rw [low_add, low_rotate_left _ (shift_lt i hi), low_add, low_add, low_add, low_eval, h.a, h.b,
      h.c, h.d, low_word, low_setWidth, Rfc.step, ← BitVec.add_assoc, ← BitVec.add_assoc,
      BitVec.add_comm]
  · rw [hnext, hb, Call.run, Function.update_of_ne hne₁]
    exact h.b
  · rw [hnext, hc, Call.run, Function.update_of_ne hne₂]
    exact h.c

/-- The low bits of the variables after the calls are the words after the steps. -/
theorem follows_calls {v : Reg → BitVec 64} {s : Rfc.State} (h : Follows v s 0)
    (buf : List UInt8) :
    Follows (calls.foldl (Call.run (word buf)) v)
      ((List.range 64).foldl (Rfc.step (Rfc.word buf)) s) 64 := by
  have hall : ∀ n ≤ 64, Follows (((List.range n).map fun i =>
      (⟨Rfc.round i, reg (3 * i), reg (3 * i + 1), reg (3 * i + 2), reg (3 * i + 3), Rfc.index i,
        Rfc.shift i, Rfc.T.getD i 0⟩ : Call)).foldl (Call.run (word buf)) v)
      ((List.range n).foldl (Rfc.step (Rfc.word buf)) s) n := by
    intro n hn
    induction n with
    | zero => exact h
    | succ n ih =>
        simp only [List.range_succ, List.map_append, List.foldl_append, List.map_cons,
          List.map_nil, List.foldl_cons, List.foldl_nil]
        exact (ih (by omega)).step (by omega) buf
  rw [calls_eq]
  exact hall 64 le_rfl

/-- `m_state` holds the words in its low bits. -/
structure Agrees (state : Reg → BitVec 64) (s : Rfc.State) : Prop where
  a : low (state .a) = s.a
  b : low (state .b) = s.b
  c : low (state .c) = s.c
  d : low (state .d) = s.d

theorem agrees_initState : Agrees initState Rfc.initState := by
  constructor <;> decide

/-- A block does the same to `m_state` as to the words. -/
theorem Agrees.compress {state : Reg → BitVec 64} {s : Rfc.State} (h : Agrees state s)
    (block : List UInt8) : Agrees (Md5.compress state block) (Rfc.compress s block) := by
  have hstart : Follows state s 0 := ⟨h.a, h.b, h.c, h.d⟩
  have hend := follows_calls hstart block
  constructor
  · rw [Md5.compress, low_add, h.a]
    exact congrArg (s.a + ·) hend.a
  · rw [Md5.compress, low_add, h.b]
    exact congrArg (s.b + ·) hend.b
  · rw [Md5.compress, low_add, h.c]
    exact congrArg (s.c + ·) hend.c
  · rw [Md5.compress, low_add, h.d]
    exact congrArg (s.d + ·) hend.d

/-! ## The bytes of a word -/

theorem ofBitVec_shift (x : BitVec 64) (n : ℕ) :
    UInt8.ofBitVec ((x >>> n &&& 0xff).setWidth 8) = .ofNat (x.toNat / 2 ^ n) := by
  apply UInt8.toNat_inj.mp
  have hmask : (0xff : BitVec 64).toNat = 2 ^ 8 - 1 := by decide
  rw [UInt8.toNat_ofBitVec, BitVec.toNat_setWidth, BitVec.toNat_and, hmask,
    Nat.and_two_pow_sub_one_eq_mod, BitVec.toNat_ushiftRight, Nat.shiftRight_eq_div_pow,
    UInt8.toNat_ofNat']
  omega

theorem lowBytes_eq_le (x : BitVec 64) : lowBytes x = le 4 x.toNat := by
  have hzero := ofBitVec_shift x 0
  rw [BitVec.ushiftRight_zero, Nat.pow_zero, Nat.div_one] at hzero
  have hmod : ∀ n : ℕ, UInt8.ofNat (n % 256) = .ofNat n := by
    intro n
    apply UInt8.toNat_inj.mp
    rw [UInt8.toNat_ofNat', UInt8.toNat_ofNat']
    omega
  rw [lowBytes, hzero, ofBitVec_shift, ofBitVec_shift, ofBitVec_shift]
  simp only [le, hmod, Nat.div_div_eq_div_mul, Nat.reducePow, Nat.reduceMul]

theorem lowBytes_eq (x : BitVec 64) : lowBytes x = le 4 (low x).toNat := by
  rw [lowBytes_eq_le, low, BitVec.toNat_setWidth]
  exact (le_mod 4 x.toNat).symm

end Spp.Md5
