import Mathlib.Logic.Function.Iterate
import Spp.Lib.Word

/-!
# TEA

`tea_encrypt` changes the two words of a block in turn, each by a mix of the other one, and
`tea_decrypt` goes back step by step.  For a longer buffer they do so with each block of 8 bytes;
what is left over stays as it is.

## Main definitions

* `encryptRound`, `decryptRound` — a round of the loops.
* `encryptBlock`, `decryptBlock` — the functions on two words.
* `teaEncrypt`, `teaDecrypt` — those on a buffer.
-/

namespace Spp.Tea

/-- `delta` -/
def delta : UInt32 := 0x9e3779b9

structure Key where
  k0 : UInt32
  k1 : UInt32
  k2 : UInt32
  k3 : UInt32

/-- The variables of the loops. -/
structure State where
  v0 : UInt32
  v1 : UInt32
  sum : UInt32

/-- What is added to a word, where `v` is the other one. -/
def mix (v sum k k' : UInt32) : UInt32 := ((v <<< 4) + k) ^^^ (v + sum) ^^^ ((v >>> 5) + k')

def encryptRound (key : Key) (s : State) : State :=
  let sum := s.sum + delta
  let v0 := s.v0 + mix s.v1 sum key.k0 key.k1
  let v1 := s.v1 + mix v0 sum key.k2 key.k3
  ⟨v0, v1, sum⟩

def decryptRound (key : Key) (s : State) : State :=
  let v1 := s.v1 - mix s.v0 s.sum key.k2 key.k3
  let v0 := s.v0 - mix v1 s.sum key.k0 key.k1
  ⟨v0, v1, s.sum - delta⟩

/-- `tea_encrypt` of two words. -/
def encryptBlock (key : Key) (v0 v1 : UInt32) : UInt32 × UInt32 :=
  let s := (encryptRound key)^[32] ⟨v0, v1, 0⟩
  (s.v0, s.v1)

/-- `tea_decrypt` of two words. -/
def decryptBlock (key : Key) (v0 v1 : UInt32) : UInt32 × UInt32 :=
  let s := (decryptRound key)^[32] ⟨v0, v1, 0xC6EF3720⟩
  (s.v0, s.v1)

/-- The loop `while( len >= 8 )` over a buffer of `len` bytes. -/
def eachBlock (f : UInt32 → UInt32 → UInt32 × UInt32) : List UInt8 → List UInt8
  | a :: b :: c :: d :: a' :: b' :: c' :: d' :: v =>
      let v01 := f (.ofNat (ofLe [a, b, c, d])) (.ofNat (ofLe [a', b', c', d']))
      le 4 v01.1.toNat ++ le 4 v01.2.toNat ++ eachBlock f v
  | v => v

/-- `tea_encrypt` of a buffer. -/
def teaEncrypt (key : Key) (v : List UInt8) : List UInt8 := eachBlock (encryptBlock key) v

/-- `tea_decrypt` of a buffer. -/
def teaDecrypt (key : Key) (v : List UInt8) : List UInt8 := eachBlock (decryptBlock key) v

/-! ## Two words -/

theorem leftInverse_decryptRound (key : Key) :
    Function.LeftInverse (decryptRound key) (encryptRound key) := by
  intro s
  simp [decryptRound, encryptRound]

/-- The sum that decryption starts with is the one that encryption ends with. -/
theorem sum_iterate_encryptRound (key : Key) (s : State) (n : ℕ) :
    ((encryptRound key)^[n] s).sum = s.sum + .ofNat n * delta := by
  induction n with
  | zero => simp
  | succ n ih =>
      rw [Function.iterate_succ_apply', encryptRound, ih, UInt32.ofNat_add, UInt32.add_mul,
        UInt32.add_assoc]
      simp

/-- A block is decrypted to what has been encrypted. -/
theorem decryptBlock_encryptBlock (key : Key) (v0 v1 : UInt32) :
    decryptBlock key (encryptBlock key v0 v1).1 (encryptBlock key v0 v1).2 = (v0, v1) := by
  have hdelta : (0 : UInt32) + .ofNat 32 * delta = 0xC6EF3720 := by decide
  have hsum : ((encryptRound key)^[32] ⟨v0, v1, 0⟩).sum = 0xC6EF3720 :=
    (sum_iterate_encryptRound key _ 32).trans hdelta
  have hstate : (encryptRound key)^[32] ⟨v0, v1, 0⟩ =
      ⟨(encryptBlock key v0 v1).1, (encryptBlock key v0 v1).2, 0xC6EF3720⟩ := by
    rw [← hsum]
    rfl
  rw [decryptBlock, ← hstate, (leftInverse_decryptRound key).iterate 32]

/-! ## A buffer -/

section Blocks

variable {f g : UInt32 → UInt32 → UInt32 × UInt32}

/-- The first block of a buffer. -/
theorem eachBlock_append {w w' : List UInt8} (hw : w.length = 4) (hw' : w'.length = 4)
    (v : List UInt8) : eachBlock f (w ++ w' ++ v) =
      le 4 (f (.ofNat (ofLe w)) (.ofNat (ofLe w'))).1.toNat ++
        le 4 (f (.ofNat (ofLe w)) (.ofNat (ofLe w'))).2.toNat ++ eachBlock f v := by
  match w, w', hw, hw' with
  | [a, b, c, d], [a', b', c', d'], _, _ => rfl

theorem uint32_ofLe_le (x : UInt32) : UInt32.ofNat (ofLe (le 4 x.toNat)) = x := by
  rw [ofLe_le_of_lt x.toNat_lt, UInt32.ofNat_toNat]

theorem le_uint32 {w : List UInt8} (h : w.length = 4) : le 4 (UInt32.ofNat (ofLe w)).toNat = w := by
  have hlt : ofLe w < 2 ^ 32 := by simpa [h] using ofLe_lt w
  rw [UInt32.toNat_ofNat_of_lt' hlt, ← h, le_ofLe]

/-- Where each block comes back, the buffer does. -/
theorem eachBlock_eachBlock (h : ∀ x y, g (f x y).1 (f x y).2 = (x, y)) (v : List UInt8) :
    eachBlock g (eachBlock f v) = v := by
  induction v using eachBlock.induct f with
  | case1 a b c d a' b' c' d' v ih =>
      rw [eachBlock, eachBlock_append (length_le _ _) (length_le _ _), uint32_ofLe_le,
        uint32_ofLe_le, h, ih, le_uint32 rfl, le_uint32 rfl]
      rfl
  | case2 v hshort =>
      rw [eachBlock.eq_2 f v hshort, eachBlock.eq_2 g v hshort]

/-- What is left over stays as it is. -/
theorem drop_eachBlock (f : UInt32 → UInt32 → UInt32 × UInt32) (v : List UInt8) :
    (eachBlock f v).drop (v.length - v.length % 8) = v.drop (v.length - v.length % 8) := by
  induction v using eachBlock.induct f with
  | case1 a b c d a' b' c' d' v ih =>
      have hlength : (a :: b :: c :: d :: a' :: b' :: c' :: d' :: v).length -
          (a :: b :: c :: d :: a' :: b' :: c' :: d' :: v).length % 8 =
          v.length - v.length % 8 + 8 := by
        simp only [List.length_cons]
        omega
      rw [hlength, eachBlock, Nat.add_comm, ← List.drop_drop, ← List.drop_drop,
        List.drop_left' (by simp)]
      exact ih
  | case2 v hshort => rw [eachBlock.eq_2 f v hshort]

end Blocks

/-- Decryption undoes encryption for buffers of every length, and neither changes the bytes that
are not in a block. -/
theorem teaDecrypt_teaEncrypt (key : Key) (v : List UInt8) :
    teaDecrypt key (teaEncrypt key v) = v ∧
    (teaEncrypt key v).drop (v.length - v.length % 8) = v.drop (v.length - v.length % 8) ∧
    (teaDecrypt key v).drop (v.length - v.length % 8) = v.drop (v.length - v.length % 8) :=
  ⟨eachBlock_eachBlock (decryptBlock_encryptBlock key) v, drop_eachBlock _ v, drop_eachBlock _ v⟩

end Spp.Tea
