import Spp.Proto.Xxtea
import Spp.Proto.Packer

/-!
# Packets that are encrypted

`EncryptPack` and `DecryptPack` run the block cipher over the body of a packet, in place.
Decryption gives the buffer back, after as many turns of its loop as encryption took, and
neither touches a byte behind the last whole word.

## Main definitions

* `decryptFor` — the loop of `xxtea_long_decrypt`, cut off after so many turns.
* `encryptPack`, `decryptPack` — the same in place on a packet.
-/

namespace Spp

/-! ## Termination -/

/-- The loop `while(sum != 0)`, cut off after so many turns. -/
def decryptFor (k : ℕ → UInt32) (n : ℕ) :
    ℕ → UInt32 → (ℕ → UInt32) → UInt32 → Option (ℕ → UInt32)
  | 0, sum, v, _ => if sum = 0 then some v else none
  | turns + 1, sum, v, y =>
      if sum = 0 then some v
      else
        let e := sum >>> 2 &&& 3
        let (v, y) := decryptPass k sum e n v y
        let z := v n
        let v := Function.update v 0 (v 0 - xxteaMx k z y sum (.ofNat 0) e)
        decryptFor k n turns (sum - xxteaDelta) v (v 0)

/-- `xxtea_long_decrypt`, with its loop cut off. -/
def xxteaLongDecryptFor (turns : ℕ) (v : ℕ → UInt32) (len : ℕ) (k : ℕ → UInt32) :
    Option (ℕ → UInt32) :=
  let n := u32sub len 1
  let q := 6 + 52 / (n + 1)
  if n < 1 then some v else decryptFor k n turns (.ofNat q * xxteaDelta) v (v 0)

variable {k : ℕ → UInt32} {n : ℕ}

/-- The loop ends after as many turns as there were rounds, and not before. -/
theorem decryptFor_rounds {turns q : ℕ} (hq : q ≤ 32) (v : ℕ → UInt32) (y : UInt32) :
    decryptFor k n turns (.ofNat q * xxteaDelta) v y =
      if q ≤ turns then some (decryptLoop k n (.ofNat q * xxteaDelta) v y) else none := by
  induction q generalizing turns v y with
  | zero =>
      have hzero : UInt32.ofNat 0 * xxteaDelta = 0 := by decide
      rw [if_pos (Nat.zero_le _), hzero, decryptLoop, if_pos rfl]
      cases turns <;> exact if_pos rfl
  | succ q ih =>
      have hne := rounds_ne_zero (i := q) (by omega)
      have hback : UInt32.ofNat (q + 1) * xxteaDelta - xxteaDelta = .ofNat q * xxteaDelta := by
        rw [ofNat_succ_mul, UInt32.add_sub_cancel]
      cases turns with
      | zero => rw [decryptFor, if_neg hne, if_neg (by omega)]
      | succ turns =>
          rw [decryptFor, if_neg hne, decryptLoop, if_neg hne, hback]
          simp only [ih (by omega), Nat.add_le_add_iff_right]

/-- Decryption takes at most 32 turns. -/
theorem xxteaLongDecryptFor_eq (v : ℕ → UInt32) (len : ℕ) :
    xxteaLongDecryptFor 32 v len k = some (xxteaLongDecrypt v len k) := by
  rw [xxteaLongDecryptFor, xxteaLongDecrypt]
  by_cases hn : u32sub len 1 < 1
  · simp only [if_pos hn]
  · have hq : 52 / (u32sub len 1 + 1) ≤ 26 := by
      apply Nat.div_le_of_le_mul
      omega
    simp only [if_neg hn]
    rw [decryptFor_rounds (by omega), if_pos (by omega)]

/-! ## What the cipher touches -/

section
variable {m : ℕ → UInt8} {a len c : ℕ}

/-- A single word has no neighbour. -/
theorem xxteaLong_one (v : ℕ → UInt32) :
    xxteaLongEncrypt v 1 k = v ∧ xxteaLongDecrypt v 1 k = v := by
  have hn : u32sub 1 1 < 1 := by decide
  simp only [xxteaLongEncrypt, xxteaLongDecrypt, if_pos hn, and_self]

/-- A buffer of less than two words is left alone. -/
theorem xxtea_short (h : len < 8) :
    xxteaEncrypt m a len k = m ∧ xxteaDecrypt m a len k = m := by
  by_cases hword : len < 4
  · simp only [xxteaEncrypt, xxteaDecrypt, if_pos hword, and_self]
  · have hone : len / 4 = 1 := by omega
    obtain ⟨henc, hdec⟩ := xxteaLong_one (k := k) (loadWords m a)
    simp only [xxteaEncrypt, xxteaDecrypt, if_neg hword, hone, henc, hdec, storeWords_loadWords,
      and_self]

/-- The bytes outside the whole words of the buffer. -/
theorem xxtea_of_outside (h : c < a ∨ a + 4 * (len / 4) ≤ c) :
    xxteaEncrypt m a len k c = m c ∧ xxteaDecrypt m a len k c = m c := by
  rw [xxteaEncrypt, xxteaDecrypt]
  split
  · exact ⟨rfl, rfl⟩
  · exact ⟨storeWords_of_outside h, storeWords_of_outside h⟩

/-- Where two buffers have the same number of whole words, and the same bytes, they are
decrypted to the same bytes. -/
theorem xxteaDecrypt_congr {m' : ℕ → UInt8} {a' len' n : ℕ} (hlen : len < 2 ^ 32)
    (hwords : len / 4 = len' / 4) (hn : len / 4 * 4 ≤ n)
    (hbytes : ∀ i, i < n → m (a + i) = m' (a' + i)) :
    ∀ i, i < n → xxteaDecrypt m a len k (a + i) = xxteaDecrypt m' a' len' k (a' + i) := by
  intro i hi
  rw [xxteaDecrypt, xxteaDecrypt]
  by_cases hshort : len < 4
  · rw [if_pos hshort, if_pos (by omega), hbytes i hi]
  · have hload : ∀ j, j < len / 4 → loadWords m a j = loadWords m' a' j := by
      intro j hj
      rw [loadWords, loadWords]
      refine congrArg (fun bs => UInt32.ofNat (ofLe bs)) (Mem.read_congr ?_)
      intro c hc
      rw [Nat.add_assoc, Nat.add_assoc]
      exact hbytes _ (by omega)
    rw [if_neg hshort, if_neg (by omega), ← hwords]
    by_cases hword : i < 4 * (len / 4)
    · have hsame := xxteaLongDecrypt_congr (k := k) (by omega) (by omega) hload (i / 4) (by omega)
      rw [storeWords, storeWords, if_pos (by omega), if_pos (by omega), Nat.add_sub_cancel_left,
        Nat.add_sub_cancel_left, hsame]
    · rw [storeWords_of_outside (by omega), storeWords_of_outside (by omega), hbytes i hi]

end

/-- Decryption of any buffer of less than 4 GB undoes encryption; its loop ends, after at most
32 turns; and both leave alone the bytes outside the whole words, and buffers of less than
two words. -/
theorem xxtea_roundTrip (m : ℕ → UInt8) (a : ℕ) (len : UInt32) (key : TeaKey) :
    xxteaDecrypt (xxteaEncrypt m a len.toNat key.words) a len.toNat key.words = m ∧
    (∀ v n, xxteaLongDecryptFor 32 v n key.words = some (xxteaLongDecrypt v n key.words)) ∧
    (∀ c, c < a ∨ a + 4 * (len.toNat / 4) ≤ c →
      xxteaEncrypt m a len.toNat key.words c = m c ∧
      xxteaDecrypt m a len.toNat key.words c = m c) ∧
    (len.toNat < 8 → xxteaEncrypt m a len.toNat key.words = m ∧
      xxteaDecrypt m a len.toNat key.words = m) :=
  ⟨xxteaDecrypt_xxteaEncrypt len.toNat_lt, xxteaLongDecryptFor_eq, fun _ => xxtea_of_outside,
    xxtea_short⟩

/-! ## Packets -/

/-- `EncryptPack`, at the beginning of the packet. -/
def encryptPack (p : ℕ → UInt8) (len : ℕ) (key : TeaKey) : ℕ → UInt8 :=
  if len ≤ msgHeaderLen + 1 then p
  else if p msgEncTypePos ≠ encTypeTea then p
  else xxteaEncrypt p msgHeaderLen (len - msgHeaderLen - 1) key.words

/-- `DecryptPack`. -/
def decryptPack (p : ℕ → UInt8) (len : ℕ) (key : TeaKey) : ℕ → UInt8 :=
  if len ≤ msgHeaderLen + 1 then p
  else if p msgEncTypePos ≠ encTypeTea then p
  else xxteaDecrypt p msgHeaderLen (len - msgHeaderLen - 1) key.words

/-- `DecryptPack` gives the packet back, whose header and last byte were left alone. -/
theorem decryptPack_encryptPack (p : ℕ → UInt8) (len : UInt32) (key : TeaKey) :
    decryptPack (encryptPack p len.toNat key) len.toNat key = p ∧
      ∀ c, c < msgHeaderLen ∨ len.toNat - 1 ≤ c → encryptPack p len.toNat key c = p c := by
  have hlen := len.toNat_lt
  by_cases hshort : len.toNat ≤ msgHeaderLen + 1
  · simp only [encryptPack, decryptPack, if_pos hshort, implies_true, and_self]
  · by_cases htype : p msgEncTypePos ≠ encTypeTea
    · simp only [encryptPack, decryptPack, if_neg hshort, if_pos htype, implies_true, and_self]
    · have hheader : ∀ c, c < msgHeaderLen ∨ len.toNat - 1 ≤ c →
          xxteaEncrypt p msgHeaderLen (len.toNat - msgHeaderLen - 1) key.words c = p c :=
        fun c hc => (xxtea_of_outside (by omega)).1
      have hsame := hheader msgEncTypePos (.inl (by decide))
      simp only [encryptPack, decryptPack, if_neg hshort, if_neg htype, hsame]
      exact ⟨xxteaDecrypt_xxteaEncrypt (by omega), hheader⟩

end Spp
