import Spp.Lib.Mem
import Spp.Lib.Word
import Mathlib.Logic.Function.Basic

/-!
# The block cipher of the packets

`xxtea_encrypt` and `xxtea_decrypt` view a buffer as an array of 32-bit words and mix
every word with its two neighbours, in a number of rounds that depends on the length.
Encryption goes through the array upwards and decryption downwards; each step of
decryption undoes one step of encryption, since a word is no neighbour of itself.

## Main definitions

* `xxteaMx` — the mixing term `XXTEA_MX`.
* `xxteaLongEncrypt`, `xxteaLongDecrypt` — the two loops, on an array of words.
* `xxteaEncrypt`, `xxteaDecrypt` — the same in place on a buffer.
* `mixAt`, `unmixAt` — one step, with the neighbours taken from the array.
-/

namespace Spp

/-- `XXTEA_DELTA`. -/
def xxteaDelta : UInt32 := 0x9e3779b9

/-- `XXTEA_MX`. -/
def xxteaMx (k : ℕ → UInt32) (z y sum p e : UInt32) : UInt32 :=
  ((z >>> 5 ^^^ y <<< 2) + (y >>> 3 ^^^ z <<< 4)) ^^^
    ((sum ^^^ y) + (k (p &&& 3 ^^^ e).toNat ^^^ z))

/-! ## Encryption -/

/-- The loop `for(p = 0; p < n; p++)`, from `p` on with `todo` words to go. -/
def encryptPass (k : ℕ → UInt32) (sum e : UInt32) :
    ℕ → ℕ → (ℕ → UInt32) → UInt32 → (ℕ → UInt32) × UInt32
  | 0, _, v, z => (v, z)
  | todo + 1, p, v, z =>
      let y := v (p + 1)
      let v := Function.update v p (v p + xxteaMx k z y sum (.ofNat p) e)
      encryptPass k sum e todo (p + 1) v (v p)

/-- The loop `while(0 < q--)`. -/
def encryptLoop (k : ℕ → UInt32) (n : ℕ) : ℕ → UInt32 → (ℕ → UInt32) → UInt32 → ℕ → UInt32
  | 0, _, v, _ => v
  | q + 1, sum, v, z =>
      let sum := sum + xxteaDelta
      let e := sum >>> 2 &&& 3
      let (v, z) := encryptPass k sum e n 0 v z
      let y := v 0
      let v := Function.update v n (v n + xxteaMx k z y sum (.ofNat n) e)
      encryptLoop k n q sum v (v n)

/-- `xxtea_long_encrypt`. -/
def xxteaLongEncrypt (v : ℕ → UInt32) (len : ℕ) (k : ℕ → UInt32) : ℕ → UInt32 :=
  let n := u32sub len 1
  let q := 6 + 52 / (n + 1)
  if n < 1 then v else encryptLoop k n q 0 v (v n)

/-! ## Decryption -/

/-- The loop `for(p = n; p > 0; p--)`, from `p` on. -/
def decryptPass (k : ℕ → UInt32) (sum e : UInt32) :
    ℕ → (ℕ → UInt32) → UInt32 → (ℕ → UInt32) × UInt32
  | 0, v, y => (v, y)
  | p + 1, v, y =>
      let z := v p
      let v := Function.update v (p + 1) (v (p + 1) - xxteaMx k z y sum (.ofNat (p + 1)) e)
      decryptPass k sum e p v (v (p + 1))

/-- The inverse of `xxteaDelta`: times it, `sum` counts the rounds that are left. -/
def deltaInv : UInt32 := 0x144cbc89

theorem rounds_sub_one {sum : UInt32} (h : sum ≠ 0) :
    ((sum - xxteaDelta) * deltaInv).toNat < (sum * deltaInv).toNat := by
  have hone : xxteaDelta * deltaInv = 1 := by decide
  have hsub : (sum - xxteaDelta) * deltaInv = sum * deltaInv - 1 := by grind
  have hne : sum * deltaInv ≠ 0 := by
    intro hzero
    apply h
    calc sum = sum * deltaInv * xxteaDelta := by grind
      _ = 0 := by rw [hzero, UInt32.zero_mul]
  have hpos : (sum * deltaInv).toNat ≠ 0 := fun h0 => hne (UInt32.toNat_inj.mp h0)
  have hle : (1 : UInt32) ≤ sum * deltaInv := by
    rw [UInt32.le_iff_toNat_le]
    simpa [Nat.one_le_iff_ne_zero] using hpos
  rw [hsub, UInt32.toNat_sub_of_le _ _ hle]
  simpa using Nat.sub_one_lt hpos

/-- The loop `while(sum != 0)`. -/
def decryptLoop (k : ℕ → UInt32) (n : ℕ) (sum : UInt32) (v : ℕ → UInt32) (y : UInt32) :
    ℕ → UInt32 :=
  if sum = 0 then v
  else
    let e := sum >>> 2 &&& 3
    let (v, y) := decryptPass k sum e n v y
    let z := v n
    let v := Function.update v 0 (v 0 - xxteaMx k z y sum (.ofNat 0) e)
    decryptLoop k n (sum - xxteaDelta) v (v 0)
termination_by (sum * deltaInv).toNat
decreasing_by exact rounds_sub_one ‹_›

/-- `xxtea_long_decrypt`. -/
def xxteaLongDecrypt (v : ℕ → UInt32) (len : ℕ) (k : ℕ → UInt32) : ℕ → UInt32 :=
  let n := u32sub len 1
  let q := 6 + 52 / (n + 1)
  if n < 1 then v else decryptLoop k n (.ofNat q * xxteaDelta) v (v 0)

/-! ## Buffers -/

/-- The array that `(unsigned int *)(m + a)` points to. -/
def loadWords (m : ℕ → UInt8) (a : ℕ) : ℕ → UInt32 := fun i =>
  UInt32.ofNat (ofLe (Mem.read m (a + 4 * i) 4))

/-- The 16 bytes of a key. -/
abbrev TeaKey := Fin 16 → UInt8

/-- The key as the cipher sees it; only the words 0 to 3 are looked at. -/
def TeaKey.words (key : TeaKey) : ℕ → UInt32 := loadWords (fun i => key (Fin.ofNat 16 i)) 0

/-- The buffer after its first `n` words are those of `v`. -/
def storeWords (m : ℕ → UInt8) (a n : ℕ) (v : ℕ → UInt32) : ℕ → UInt8 := fun c =>
  if a ≤ c ∧ c < a + 4 * n then (le 4 (v ((c - a) / 4)).toNat).getD ((c - a) % 4) 0 else m c

/-- `xxtea_encrypt`. -/
def xxteaEncrypt (m : ℕ → UInt8) (a len : ℕ) (k : ℕ → UInt32) : ℕ → UInt8 :=
  if len < 4 then m
  else storeWords m a (len / 4) (xxteaLongEncrypt (loadWords m a) (len / 4) k)

/-- `xxtea_decrypt`. -/
def xxteaDecrypt (m : ℕ → UInt8) (a len : ℕ) (k : ℕ → UInt32) : ℕ → UInt8 :=
  if len < 4 then m
  else storeWords m a (len / 4) (xxteaLongDecrypt (loadWords m a) (len / 4) k)

/-! ## The steps undo each other -/

section Steps

variable (k : ℕ → UInt32) (n : ℕ) (sum : UInt32)

/-- What is added to the word at `p`, whose neighbours are taken around the array. -/
def mixTerm (p : ℕ) (v : ℕ → UInt32) : UInt32 :=
  xxteaMx k (v (if p = 0 then n else p - 1)) (v (if p = n then 0 else p + 1)) sum (.ofNat p)
    (sum >>> 2 &&& 3)

/-- One step of encryption. -/
def mixAt (p : ℕ) (v : ℕ → UInt32) : ℕ → UInt32 :=
  Function.update v p (v p + mixTerm k n sum p v)

/-- One step of decryption. -/
def unmixAt (p : ℕ) (v : ℕ → UInt32) : ℕ → UInt32 :=
  Function.update v p (v p - mixTerm k n sum p v)

/-- One round of encryption, on the words from `p` on. -/
def mixFrom (p todo : ℕ) (v : ℕ → UInt32) : ℕ → UInt32 :=
  match todo with
  | 0 => v
  | todo + 1 => mixFrom (p + 1) todo (mixAt k n sum p v)

/-- One round of decryption, on the words up to `p`. -/
def unmixTo : ℕ → (ℕ → UInt32) → ℕ → UInt32
  | 0, v => unmixAt k n sum 0 v
  | p + 1, v => unmixTo p (unmixAt k n sum (p + 1) v)

variable {n} {p q todo : ℕ} {v : ℕ → UInt32}

theorem mixAt_of_ne (h : q ≠ p) : mixAt k n sum p v q = v q := by simp [mixAt, h]

/-- A word is no neighbour of itself. -/
theorem mixTerm_update (hn : 1 ≤ n) (w : UInt32) :
    mixTerm k n sum p (Function.update v p w) = mixTerm k n sum p v := by
  have hbefore : (if p = 0 then n else p - 1) ≠ p := by split <;> omega
  have hafter : (if p = n then 0 else p + 1) ≠ p := by split <;> omega
  simp [mixTerm, hbefore, hafter]

theorem unmixAt_mixAt (hn : 1 ≤ n) : unmixAt k n sum p (mixAt k n sum p v) = v := by
  funext i
  by_cases hi : i = p
  · subst hi
    simp [unmixAt, mixAt, mixTerm_update k sum hn]
  · simp [unmixAt, hi, mixAt]

theorem mixFrom_succ (p todo : ℕ) (v : ℕ → UInt32) :
    mixFrom k n sum p (todo + 1) v = mixAt k n sum (p + todo) (mixFrom k n sum p todo v) := by
  induction todo generalizing p v with
  | zero => rfl
  | succ todo ih =>
      have hidx : p + 1 + todo = p + (todo + 1) := by omega
      rw [mixFrom, ih, mixFrom, hidx]

/-- Decrypting down to the word 0 undoes encrypting up from it. -/
theorem unmixTo_mixFrom (hn : 1 ≤ n) (v : ℕ → UInt32) :
    unmixTo k n sum p (mixFrom k n sum 0 (p + 1) v) = v := by
  induction p with
  | zero => simpa [unmixTo, mixFrom] using unmixAt_mixAt k sum hn
  | succ p ih => rw [mixFrom_succ, Nat.zero_add, unmixTo, unmixAt_mixAt k sum hn, ih]

theorem mixFrom_of_lt (h : p + todo ≤ q) : mixFrom k n sum p todo v q = v q := by
  induction todo generalizing p v with
  | zero => rfl
  | succ todo ih =>
      have hne : q ≠ p := by omega
      rw [mixFrom, ih (by omega), mixAt_of_ne k sum hne]

/-- A step at one of the words up to `n` looks at these words only. -/
theorem mixTerm_congr {w : ℕ → UInt32} (hp : p ≤ n) (h : ∀ i, i ≤ n → v i = w i) :
    mixTerm k n sum p v = mixTerm k n sum p w := by
  have hbefore : (if p = 0 then n else p - 1) ≤ n := by split <;> omega
  have hafter : (if p = n then 0 else p + 1) ≤ n := by split <;> omega
  rw [mixTerm, mixTerm, h _ hbefore, h _ hafter]

theorem mixAt_congr {w : ℕ → UInt32} (hp : p ≤ n) (h : ∀ i, i ≤ n → v i = w i) :
    ∀ i, i ≤ n → mixAt k n sum p v i = mixAt k n sum p w i := by
  intro i hi
  have hterm := mixTerm_congr k sum hp h
  by_cases hip : i = p
  · subst hip
    simp [mixAt, hterm, h i hi]
  · simp [mixAt, hip, h i hi]

theorem mixFrom_congr {w : ℕ → UInt32} (hp : p + todo ≤ n + 1) (h : ∀ i, i ≤ n → v i = w i) :
    ∀ i, i ≤ n → mixFrom k n sum p todo v i = mixFrom k n sum p todo w i := by
  induction todo generalizing p v w with
  | zero => exact h
  | succ todo ih => exact ih (by omega) (mixAt_congr k sum (by omega) h)

theorem unmixAt_congr {w : ℕ → UInt32} (hp : p ≤ n) (h : ∀ i, i ≤ n → v i = w i) :
    ∀ i, i ≤ n → unmixAt k n sum p v i = unmixAt k n sum p w i := by
  intro i hi
  have hterm := mixTerm_congr k sum hp h
  by_cases hip : i = p
  · subst hip
    simp [unmixAt, hterm, h i hi]
  · simp [unmixAt, hip, h i hi]

theorem unmixTo_congr {w : ℕ → UInt32} (hp : p ≤ n) (h : ∀ i, i ≤ n → v i = w i) :
    ∀ i, i ≤ n → unmixTo k n sum p v i = unmixTo k n sum p w i := by
  induction p generalizing v w with
  | zero => exact unmixAt_congr k sum hp h
  | succ p ih => exact ih (by omega) (unmixAt_congr k sum hp h)

/-! ## The loops are made of these steps -/

/-- `z` is the word before `p` throughout the pass. -/
theorem encryptPass_eq (h : p + todo = n) :
    encryptPass k sum (sum >>> 2 &&& 3) todo p v (v (if p = 0 then n else p - 1)) =
      (mixFrom k n sum p todo v,
        mixFrom k n sum p todo v (if p + todo = 0 then n else p + todo - 1)) := by
  induction todo generalizing p v with
  | zero => rfl
  | succ todo ih =>
      have hne : p ≠ n := by omega
      have hstep : Function.update v p
          (v p + xxteaMx k (v (if p = 0 then n else p - 1)) (v (p + 1)) sum (.ofNat p)
            (sum >>> 2 &&& 3)) = mixAt k n sum p v := by
        simp [mixAt, mixTerm, hne]
      have hrest := ih (p := p + 1) (v := mixAt k n sum p v) (by omega)
      have hidx : p + 1 + todo = p + (todo + 1) := by omega
      simp only [Nat.add_eq_zero_iff, one_ne_zero, and_false, false_and, if_false,
        Nat.add_sub_cancel] at hrest
      simp only [encryptPass, hstep, mixFrom]
      rw [hrest]
      simp [hidx]

/-- One round of `encryptLoop`. -/
theorem encryptLoop_succ (hn : 1 ≤ n) (q : ℕ) (v : ℕ → UInt32) :
    encryptLoop k n (q + 1) sum v (v n) =
      encryptLoop k n q (sum + xxteaDelta) (mixFrom k n (sum + xxteaDelta) 0 (n + 1) v)
        (mixFrom k n (sum + xxteaDelta) 0 (n + 1) v n) := by
  have hpass := encryptPass_eq k (sum + xxteaDelta) (p := 0) (v := v) (Nat.zero_add n)
  have hne : n ≠ 0 := by omega
  simp only [if_true, Nat.zero_add, if_neg hne] at hpass
  rw [encryptLoop]
  simp only [hpass, mixFrom_succ, Nat.zero_add]
  simp [mixAt, mixTerm, hne]

/-- `y` is the word behind `p` throughout the pass; the word 0 comes last. -/
theorem decryptPass_eq (h : p ≤ n) (v : ℕ → UInt32) :
    let r := decryptPass k sum (sum >>> 2 &&& 3) p v (v (if p = n then 0 else p + 1))
    Function.update r.1 0
        (r.1 0 - xxteaMx k (r.1 n) r.2 sum (.ofNat 0) (sum >>> 2 &&& 3)) =
      unmixTo k n sum p v := by
  induction p generalizing v with
  | zero => simp [decryptPass, unmixTo, unmixAt, mixTerm]
  | succ p ih =>
      have hne : p ≠ n := by omega
      have hrest := ih (by omega) (unmixAt k n sum (p + 1) v)
      simp only [if_neg hne] at hrest
      have hstep : Function.update v (p + 1) (v (p + 1) -
          xxteaMx k (v p) (v (if p + 1 = n then 0 else p + 1 + 1)) sum (.ofNat (p + 1))
            (sum >>> 2 &&& 3)) = unmixAt k n sum (p + 1) v := by
        simp [unmixAt, mixTerm]
      simp only [decryptPass, hstep, unmixTo]
      exact hrest

/-- One round of `decryptLoop`. -/
theorem decryptLoop_of_ne (h : sum ≠ 0) (v : ℕ → UInt32) :
    decryptLoop k n sum v (v 0) =
      decryptLoop k n (sum - xxteaDelta) (unmixTo k n sum n v) (unmixTo k n sum n v 0) := by
  have hpass := decryptPass_eq k sum (le_refl n) v
  simp only [if_true] at hpass
  rw [decryptLoop, if_neg h]
  simp only [hpass]

end Steps

/-! ## Decryption undoes encryption -/

variable {k : ℕ → UInt32} {n : ℕ}

/-- Up to 32 rounds, `sum` becomes 0 only where it started. -/
theorem rounds_ne_zero {i : ℕ} (h : i < 32) : UInt32.ofNat (i + 1) * xxteaDelta ≠ 0 := by
  have hall : ∀ j : Fin 32, UInt32.ofNat (j + 1) * xxteaDelta ≠ 0 := by decide
  exact hall ⟨i, h⟩

theorem ofNat_succ_mul (i : ℕ) :
    UInt32.ofNat (i + 1) * xxteaDelta = UInt32.ofNat i * xxteaDelta + xxteaDelta := by
  have hone : UInt32.ofNat 1 * xxteaDelta = xxteaDelta := by decide
  rw [UInt32.ofNat_add, UInt32.add_mul, hone]

/-- Decryption looks at the words up to `n` only. -/
theorem decryptLoop_congr {q : ℕ} (hq : q ≤ 32) {v w : ℕ → UInt32}
    (h : ∀ i, i ≤ n → v i = w i) :
    ∀ i, i ≤ n → decryptLoop k n (.ofNat q * xxteaDelta) v (v 0) i =
      decryptLoop k n (.ofNat q * xxteaDelta) w (w 0) i := by
  induction q generalizing v w with
  | zero =>
      have hzero : UInt32.ofNat 0 * xxteaDelta = 0 := by decide
      intro i hi
      rw [hzero, decryptLoop, decryptLoop, if_pos rfl, if_pos rfl, h i hi]
  | succ q ih =>
      intro i hi
      have hne := rounds_ne_zero (i := q) (by omega)
      rw [decryptLoop_of_ne _ _ hne, decryptLoop_of_ne _ _ hne, ofNat_succ_mul,
        UInt32.add_sub_cancel]
      exact ih (by omega) (unmixTo_congr _ _ le_rfl h) i hi

theorem decryptLoop_encryptLoop (hn : 1 ≤ n) {q i : ℕ} (h : i + q ≤ 32) (v : ℕ → UInt32) :
    let w := encryptLoop k n q (.ofNat i * xxteaDelta) v (v n)
    decryptLoop k n (.ofNat (i + q) * xxteaDelta) w (w 0) =
      decryptLoop k n (.ofNat i * xxteaDelta) v (v 0) := by
  induction q generalizing i v with
  | zero => rfl
  | succ q ih =>
      have hsum := ofNat_succ_mul i
      have hidx : i + 1 + q = i + (q + 1) := by omega
      have hrest := ih (i := i + 1) (by omega)
        (mixFrom k n (.ofNat (i + 1) * xxteaDelta) 0 (n + 1) v)
      rw [hidx] at hrest
      simp only [encryptLoop_succ _ _ hn, ← hsum]
      rw [hrest, decryptLoop_of_ne _ _ (rounds_ne_zero (by omega)), unmixTo_mixFrom _ _ hn]
      have hback : UInt32.ofNat (i + 1) * xxteaDelta - xxteaDelta =
          UInt32.ofNat i * xxteaDelta := by
        rw [hsum, UInt32.add_sub_cancel]
      rw [hback]

theorem encryptLoop_of_lt (hn : 1 ≤ n) {q i : ℕ} (h : n < i) (sum : UInt32) (v : ℕ → UInt32) :
    encryptLoop k n q sum v (v n) i = v i := by
  induction q generalizing sum v with
  | zero => rfl
  | succ q ih => rw [encryptLoop_succ _ _ hn, ih, mixFrom_of_lt _ _ (by omega)]

theorem encryptLoop_congr (hn : 1 ≤ n) {q : ℕ} (sum : UInt32) {v w : ℕ → UInt32}
    (h : ∀ i, i ≤ n → v i = w i) :
    ∀ i, i ≤ n → encryptLoop k n q sum v (v n) i = encryptLoop k n q sum w (w n) i := by
  induction q generalizing sum v w with
  | zero => exact h
  | succ q ih =>
      intro i hi
      rw [encryptLoop_succ _ _ hn, encryptLoop_succ _ _ hn]
      exact ih _ (mixFrom_congr _ _ (by omega) h) i hi

/-- `xxtea_long_decrypt` undoes `xxtea_long_encrypt`. -/
theorem xxteaLongDecrypt_encrypt {len : ℕ} (hpos : 1 ≤ len) (hlen : len < 2 ^ 32)
    (v : ℕ → UInt32) : xxteaLongDecrypt (xxteaLongEncrypt v len k) len k = v := by
  have hn : u32sub len 1 = len - 1 := u32sub_of_le hpos hlen
  simp only [xxteaLongDecrypt, xxteaLongEncrypt, hn]
  by_cases h1 : len - 1 < 1
  · simp [h1]
  · have hq : 0 + (6 + 52 / (len - 1 + 1)) ≤ 32 := by
      have : 52 / (len - 1 + 1) ≤ 26 := by
        apply Nat.div_le_of_le_mul
        omega
      omega
    have hloop := decryptLoop_encryptLoop (k := k) (n := len - 1) (by omega) hq v
    have hzero : UInt32.ofNat 0 * xxteaDelta = 0 := by decide
    simp only [hzero, Nat.zero_add] at hloop
    simp only [if_neg h1]
    rw [hloop, decryptLoop, if_pos rfl]

theorem xxteaLongEncrypt_of_le {len i : ℕ} (hpos : 1 ≤ len) (hlen : len < 2 ^ 32) (hi : len ≤ i)
    (v : ℕ → UInt32) : xxteaLongEncrypt v len k i = v i := by
  have hn : u32sub len 1 = len - 1 := u32sub_of_le hpos hlen
  simp only [xxteaLongEncrypt, hn]
  split
  · rfl
  · exact encryptLoop_of_lt (by omega) (by omega) _ _

theorem xxteaLongEncrypt_congr {len : ℕ} (hpos : 1 ≤ len) (hlen : len < 2 ^ 32)
    {v w : ℕ → UInt32} (h : ∀ i, i < len → v i = w i) :
    ∀ i, i < len → xxteaLongEncrypt v len k i = xxteaLongEncrypt w len k i := by
  intro i hi
  have hn : u32sub len 1 = len - 1 := u32sub_of_le hpos hlen
  simp only [xxteaLongEncrypt, hn]
  split
  · exact h i hi
  · exact encryptLoop_congr (by omega) _ (fun i hi => h i (by omega)) i (by omega)

theorem xxteaLongDecrypt_congr {len : ℕ} (hpos : 1 ≤ len) (hlen : len < 2 ^ 32)
    {v w : ℕ → UInt32} (h : ∀ i, i < len → v i = w i) :
    ∀ i, i < len → xxteaLongDecrypt v len k i = xxteaLongDecrypt w len k i := by
  intro i hi
  have hn : u32sub len 1 = len - 1 := u32sub_of_le hpos hlen
  simp only [xxteaLongDecrypt, hn]
  split
  · exact h i hi
  · have hq : 52 / (len - 1 + 1) ≤ 26 := by
      apply Nat.div_le_of_le_mul
      omega
    exact decryptLoop_congr (by omega) (fun i hi => h i (by omega)) i (by omega)

/-! ## In a buffer -/

variable {m : ℕ → UInt8} {a : ℕ}

theorem storeWords_of_outside {v : ℕ → UInt32} {c : ℕ} (h : c < a ∨ a + 4 * n ≤ c) :
    storeWords m a n v c = m c := by
  apply if_neg
  omega

theorem storeWords_at {v : ℕ → UInt32} {i j : ℕ} (hi : i < n) (hj : j < 4) :
    storeWords m a n v (a + 4 * i + j) = (le 4 (v i).toNat).getD j 0 := by
  have hdiv : (a + 4 * i + j - a) / 4 = i := by omega
  have hmod : (a + 4 * i + j - a) % 4 = j := by omega
  rw [storeWords, if_pos (by omega), hdiv, hmod]

theorem read_storeWords {v : ℕ → UInt32} {i : ℕ} (hi : i < n) :
    Mem.read (storeWords m a n v) (a + 4 * i) 4 = le 4 (v i).toNat := by
  have hread : Mem.read (storeWords m a n v) (a + 4 * i) (le 4 (v i).toNat).length =
      le 4 (v i).toNat :=
    Mem.read_eq (by
      intro j hj
      rw [storeWords_at hi (by simpa using hj)]
      simp [List.getElem?_eq_getElem hj])
  simpa using hread

/-- What was stored is loaded again, when `v` is the array itself behind the `n` words. -/
theorem loadWords_storeWords {v : ℕ → UInt32} (h : ∀ i, n ≤ i → v i = loadWords m a i) :
    loadWords (storeWords m a n v) a = v := by
  funext i
  by_cases hi : i < n
  · rw [loadWords, read_storeWords hi, ofLe_le_of_lt (by simpa using (v i).toNat_lt)]
    simp
  · rw [h i (by omega), loadWords, loadWords]
    congr 2
    apply Mem.read_congr
    intro j _
    exact storeWords_of_outside (by omega)

/-- Storing over what was stored. -/
theorem storeWords_storeWords (v w : ℕ → UInt32) :
    storeWords (storeWords m a n v) a n w = storeWords m a n w := by
  funext c
  by_cases hc : a ≤ c ∧ c < a + 4 * n
  · simp [storeWords, hc]
  · simp [storeWords, hc]

theorem storeWords_loadWords : storeWords m a n (loadWords m a) = m := by
  funext c
  by_cases hc : a ≤ c ∧ c < a + 4 * n
  · obtain ⟨i, j, hj, rfl⟩ : ∃ i j, j < 4 ∧ c = a + 4 * i + j :=
      ⟨(c - a) / 4, (c - a) % 4, Nat.mod_lt _ (by norm_num), by omega⟩
    have hword : le 4 (loadWords m a i).toNat = Mem.read m (a + 4 * i) 4 := by
      have hlt : ofLe (Mem.read m (a + 4 * i) 4) < 2 ^ 32 := by
        simpa using ofLe_lt (Mem.read m (a + 4 * i) 4)
      have hle := le_ofLe (Mem.read m (a + 4 * i) 4)
      simp only [Mem.length_read] at hle
      simp [loadWords, UInt32.toNat_ofNat_of_lt' hlt, hle]
    rw [storeWords_at (by omega) hj, hword]
    simp [Mem.read, hj]
  · exact if_neg hc

/-- `xxtea_decrypt` undoes `xxtea_encrypt`, and neither touches a byte outside the whole
words of the buffer. -/
theorem xxteaDecrypt_xxteaEncrypt {len : ℕ} (hlen : len < 2 ^ 32) :
    xxteaDecrypt (xxteaEncrypt m a len k) a len k = m := by
  by_cases hshort : len < 4
  · simp [xxteaDecrypt, xxteaEncrypt, hshort]
  · have hpos : 1 ≤ len / 4 := by omega
    have hwords : len / 4 < 2 ^ 32 := by omega
    have hload := loadWords_storeWords (m := m) (a := a)
      fun i hi => xxteaLongEncrypt_of_le (k := k) hpos hwords hi (loadWords m a)
    simp only [xxteaDecrypt, xxteaEncrypt, if_neg hshort]
    rw [hload, xxteaLongDecrypt_encrypt hpos hwords, storeWords_storeWords, storeWords_loadWords]

theorem xxteaEncrypt_of_outside {len c : ℕ} (h : c < a ∨ a + len ≤ c) :
    xxteaEncrypt m a len k c = m c := by
  rw [xxteaEncrypt]
  split
  · rfl
  · exact storeWords_of_outside (by omega)

/-- The cipher looks at the bytes of the buffer only. -/
theorem xxteaEncrypt_congr {m' : ℕ → UInt8} {len c : ℕ} (hlen : len < 2 ^ 32)
    (h : ∀ c, a ≤ c → c < a + len → m c = m' c) (hlo : a ≤ c) (hhi : c < a + len) :
    xxteaEncrypt m a len k c = xxteaEncrypt m' a len k c := by
  rw [xxteaEncrypt, xxteaEncrypt]
  split
  next => exact h c hlo hhi
  next hshort =>
    have hload : ∀ i, i < len / 4 → loadWords m a i = loadWords m' a i := by
      intro i hi
      rw [loadWords, loadWords]
      congr 2
      apply Mem.read_congr
      intro j hj
      exact h _ (by omega) (by omega)
    rw [storeWords, storeWords]
    split
    next hc =>
      have hword := xxteaLongEncrypt_congr (k := k) (by omega) (by omega) hload ((c - a) / 4)
        (by omega)
      rw [hword]
    next => exact h c hlo hhi

end Spp
