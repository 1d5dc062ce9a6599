import Spp.Proto.Accepted
import Spp.Proto.Bounds
import Spp.Proto.Cipher
import Spp.Proto.FixedPacker

/-!
# Bytes behind a packet

A header carries the length of its packet, but `Init` takes the end of the body, and with it
the range of `Decrypt`, from the length of the buffer.  What a caller reads from a packet may
depend on the bytes that follow it.

## Main definitions

* `UnPacker.dumpDecrypt` — `DumpDecrypt`.
* `Read`, `UnPacker.answer` — an accessor or a decryption, and what the caller gets to see.
* `UnPacker.Longer u v` — `v` is `u` with more bytes behind the body.
* `UnPacker.Alike` — the bytes behind the body do not matter for the next read.
-/

namespace Spp

/-- `DumpDecrypt`.  `m_Body` is a copy of the body, which is laid behind the packet with the
NUL of a `std::string`. -/
def UnPacker.dumpDecrypt (u : UnPacker) (key : TeaKey) : ℕ × UnPacker :=
  let encType := u.mem msgEncTypePos
  if encType = encTypeNone then (retOk, u)
  else if encType ≠ encTypeTea then (errEncType, u)
  else
    let body := Mem.read u.mem u.pBody u.bodyLen
    let u := { u with mem := Mem.write u.mem u.len (body ++ [0]), pBody := u.len }
    (retOk, { u with mem := xxteaDecrypt u.mem u.pBody u.bodyLen key.words })

/-- What a caller does with a packet. -/
inductive Read
  | call (c : Call)
  | real
  | decrypt (key : TeaKey)
  | dumpDecrypt (key : TeaKey)

/-- What a caller gets to see. -/
inductive ReadResult (R : Type)
  | value (v : Value)
  | real (v : R)
  | ret (n : ℕ)
  deriving DecidableEq

namespace UnPacker

variable {R : Type} [CDouble R]

/-- The answer to a read, with what `GetErr` returns afterwards. -/
def answer (u : UnPacker) : Read → UnPacker × (ReadResult R × ℕ)
  | .call c => let (u, v) := u.call c; (u, .value v, u.getErr)
  | .real => let (v, u) : R × UnPacker := u.unPackReal; (u, .real v, u.getErr)
  | .decrypt key => let (n, u) := u.decrypt key; (u, .ret n, u.getErr)
  | .dumpDecrypt key => let (n, u) := u.dumpDecrypt key; (u, .ret n, u.getErr)

/-- The body of `v` starts with that of `u`, and nothing else tells them apart. -/
structure Longer (u v : UnPacker) : Prop where
  offset : v.offset = u.offset
  err : v.err = u.err
  encType : v.mem msgEncTypePos = u.mem msgEncTypePos
  bytes : ∀ i, i < u.bodyLen → u.mem (u.pBody + i) = v.mem (v.pBody + i)
  offset_le : u.offset ≤ u.bodyLen
  bodyLen_le : u.bodyLen ≤ v.bodyLen
  bodyLen_lt : v.bodyLen + 30 < 2 ^ 32
  places : msgEncTypePos < u.pBody ∧ msgEncTypePos < v.pBody ∧ msgEncTypePos < u.len ∧
    msgEncTypePos < v.len

/-- A read of `n` bytes finds them in both bodies, or in neither. -/
def Same (u v : UnPacker) (n : ℕ) : Prop :=
  u.offset + n ≤ u.bodyLen ∨ v.bodyLen < u.offset + n

/-- The next read finds all it asks for in the body of `u`, or misses it in that of `v` too; a
decryption has as many whole words to work on. -/
def Alike (s : UnPacker × UnPacker) : Read → Prop
  | .call .byte => s.1.offset < s.1.bodyLen
  | .call .word => Same s.1 s.2 2
  | .call .dword => Same s.1 s.2 4
  | .call .qword => Same s.1 s.2 8
  | .call (.binary _ len) | .call (.binaryPtr len) | .call (.binaryStr _ len) =>
      Same s.1 s.2 len.toNat ∧ s.1.offset + len.toNat < 2 ^ 32
  | .call .string | .call .stringLen | .real => 0 ∈ s.1.rest ∨ 0 ∉ s.2.rest
  | .decrypt _ | .dumpDecrypt _ =>
      s.1.mem msgEncTypePos = encTypeTea →
        s.1.bodyLen / 4 = s.2.bodyLen / 4 ∨ s.2.bodyLen < 8

variable {u v : UnPacker} {n : ℕ}

/-! ## One read -/

theorem Longer.fail (h : u.Longer v) : u.fail.Longer v.fail :=
  { h with err := rfl }

theorem Longer.touch (h : u.Longer v) (start start' size size' : ℕ) :
    (u.touch start size).Longer (v.touch start' size') :=
  { h with }

theorem Longer.advance (h : u.Longer v) (hfit : u.offset + n ≤ u.bodyLen) :
    (u.advance n).Longer (v.advance n) := by
  have hle := h.bodyLen_le
  have hlt := h.bodyLen_lt
  have hwrap : u32 (u.offset + n) = u.offset + n := u32_of_lt (by omega)
  refine { h with offset := ?_, offset_le := ?_ }
  · simp only [UnPacker.advance, h.offset]
  · simpa only [UnPacker.advance, hwrap] using hfit

theorem Longer.read (h : u.Longer v) (hfit : u.offset + n ≤ u.bodyLen) :
    Mem.read u.mem (u.pBody + u.offset) n = Mem.read v.mem (v.pBody + v.offset) n := by
  refine Mem.read_congr ?_
  intro i hi
  rw [h.offset, Nat.add_assoc, Nat.add_assoc]
  exact h.bytes _ (by omega)

theorem Longer.unPackUint (h : u.Longer v) (hn : n ≤ 8) (hsame : u.Same v n) :
    (u.unPackUint n).1 = (v.unPackUint n).1 ∧ (u.unPackUint n).2.Longer (v.unPackUint n).2 := by
  have hle := h.offset_le
  have hbody := h.bodyLen_le
  have hlt := h.bodyLen_lt
  have hwrap : u32 (u.offset + n) = u.offset + n := u32_of_lt (by omega)
  rw [UnPacker.unPackUint, UnPacker.unPackUint, h.offset, hwrap]
  rcases hsame with hfit | hlack
  · rw [if_neg (by omega), if_neg (by omega)]
    have hoffset : (u.advance n).offset = u.offset + n := hwrap
    have hoffset' : (v.advance n).offset = u.offset + n := by
      rw [UnPacker.advance, h.offset, hwrap]
    have hread := h.read hfit
    rw [h.offset] at hread
    refine ⟨?_, (h.advance hfit).touch _ _ _ _⟩
    simp only [hoffset, hoffset', ← Nat.add_assoc, Nat.add_sub_cancel]
    exact congrArg ofLe hread
  · rw [if_pos (by omega), if_pos (by omega)]
    exact ⟨rfl, h.fail⟩

theorem Longer.unPackByte (h : u.Longer v) (hfit : u.offset < u.bodyLen) :
    u.unPackByte.1 = v.unPackByte.1 ∧ u.unPackByte.2.Longer v.unPackByte.2 := by
  have hbody := h.bodyLen_le
  have hnext := h.advance (n := 1) hfit
  rw [UnPacker.unPackByte, UnPacker.unPackByte, h.offset, if_neg (by omega), if_neg (by omega)]
  exact ⟨h.bytes _ hfit, hnext.touch _ _ _ _⟩

/-- The three accessors for binaries make one test. -/
theorem Longer.binary (h : u.Longer v) (hsame : u.Same v n) (hlt : u.offset + n < 2 ^ 32) :
    u32 (u.offset + n) > u.bodyLen ∧ u32 (v.offset + n) > v.bodyLen ∨
      ¬ u32 (u.offset + n) > u.bodyLen ∧ ¬ u32 (v.offset + n) > v.bodyLen ∧
        Mem.read u.mem (u.pBody + u.offset) n = Mem.read v.mem (v.pBody + v.offset) n ∧
        ((u.touch u.offset n).advance n).Longer ((v.touch v.offset n).advance n) := by
  have hle := h.bodyLen_le
  rw [h.offset, u32_of_lt hlt]
  rcases hsame with hfit | hlack
  · right
    have hread := h.read hfit
    rw [h.offset] at hread
    exact ⟨by omega, by omega, hread, (h.touch _ _ _ _).advance hfit⟩
  · left
    omega

theorem Longer.binaryCall (h : u.Longer v) {c : Call} {len : UInt32}
    (hc : (∃ w, c = .binary w len) ∨ c = .binaryPtr len ∨ ∃ w, c = .binaryStr w len)
    (hsame : u.Same v len.toNat) (hlt : u.offset + len.toNat < 2 ^ 32) :
    (u.call c).2 = (v.call c).2 ∧ (u.call c).1.Longer (v.call c).1 := by
  rcases h.binary hsame hlt with ⟨hu, hv⟩ | ⟨hu, hv, hread, hnext⟩
  · rcases hc with ⟨w, rfl⟩ | rfl | ⟨w, rfl⟩
    · simp only [UnPacker.call, UnPacker.unPackBinary, if_pos hu, if_pos hv, true_and]
      exact h.fail
    · simp only [UnPacker.call, UnPacker.unPackBinaryPtr, if_pos hu, if_pos hv, true_and]
      exact h.fail
    · simp only [UnPacker.call, UnPacker.unPackBinaryStr, if_pos hu, if_pos hv, true_and]
      exact h.fail
  · rcases hc with ⟨w, rfl⟩ | rfl | ⟨w, rfl⟩
    · simp only [UnPacker.call, UnPacker.unPackBinary, if_neg hu, if_neg hv, hread, true_and]
      exact hnext
    · simp only [UnPacker.call, UnPacker.unPackBinaryPtr, if_neg hu, if_neg hv, hread, true_and]
      exact hnext
    · simp only [UnPacker.call, UnPacker.unPackBinaryStr, if_neg hu, if_neg hv, hread]
      split
      · exact ⟨rfl, h⟩
      · exact ⟨rfl, hnext⟩

/-- A search ends at the first NUL, however far it could go. -/
theorem scan_congr {m m' : ℕ → UInt8} {left left' q q' : ℕ} (hle : left ≤ left')
    (hbytes : ∀ i, i < left → m (q + i) = m' (q' + i)) (hzero : 0 ∈ Mem.read m q left) :
    scan m left q = scan m' left' q' := by
  induction left generalizing q q' left' with
  | zero => simp at hzero
  | succ left ih =>
      obtain ⟨left', rfl⟩ := Nat.exists_eq_succ_of_ne_zero (n := left') (by omega)
      have hfirst := hbytes 0 (by omega)
      simp only [Nat.add_zero] at hfirst
      rw [scan, scan, hfirst]
      by_cases h0 : m' q' = 0
      · simp only [if_pos h0]
      · rw [Mem.read_succ, List.mem_cons, hfirst] at hzero
        have hrest := hzero.resolve_left (fun hz => h0 hz.symm)
        rw [if_neg h0, if_neg h0]
        refine congrArg (· + 1) (ih (by omega) ?_ hrest)
        intro i hi
        have hnext := hbytes (i + 1) (by omega)
        rwa [← Nat.add_assoc, ← Nat.add_assoc, Nat.add_right_comm, Nat.add_right_comm q'] at hnext

/-- The two accessors for strings make one search. -/
theorem Longer.string (h : u.Longer v) (hnul : 0 ∈ u.rest ∨ 0 ∉ v.rest) :
    let i := scan u.mem (u.bodyLen - u.offset) (u.pBody + u.offset)
    let j := scan v.mem (v.bodyLen - v.offset) (v.pBody + v.offset)
    u.offset + i ≥ u.bodyLen ∧ v.offset + j ≥ v.bodyLen ∨
      ¬ u.offset + i ≥ u.bodyLen ∧ ¬ v.offset + j ≥ v.bodyLen ∧ i = j ∧
        Mem.read u.mem (u.pBody + u.offset) i = Mem.read v.mem (v.pBody + v.offset) i ∧
        ((u.touch u.offset (i + 1)).advance (i + 1)).Longer
          ((v.touch v.offset (i + 1)).advance (i + 1)) := by
  intro i j
  have hle := h.offset_le
  have hbody := h.bodyLen_le
  have hoffset := h.offset
  have hbytes : ∀ k, k < u.bodyLen - u.offset →
      u.mem (u.pBody + u.offset + k) = v.mem (v.pBody + v.offset + k) := by
    intro k hk
    rw [hoffset, Nat.add_assoc, Nat.add_assoc]
    exact h.bytes _ (by omega)
  have hu := scan_lt_iff u.mem (u.bodyLen - u.offset) (u.pBody + u.offset)
  have hv := scan_lt_iff v.mem (v.bodyLen - v.offset) (v.pBody + v.offset)
  by_cases hin : 0 ∈ u.rest
  · right
    have hsame : i = j := scan_congr (by omega) hbytes hin
    have hlt : i < u.bodyLen - u.offset := hu.mpr hin
    have hnext := h.advance (n := i + 1) (by omega)
    exact ⟨by omega, by omega, hsame, h.read (by omega), hnext.touch _ _ _ _⟩
  · left
    have hout : 0 ∉ v.rest := hnul.resolve_left hin
    have hi : ¬ i < u.bodyLen - u.offset := fun hlt => hin (hu.mp hlt)
    have hj : ¬ j < v.bodyLen - v.offset := fun hlt => hout (hv.mp hlt)
    omega

theorem Longer.unPackStringLen (h : u.Longer v) (hnul : 0 ∈ u.rest ∨ 0 ∉ v.rest) :
    u.unPackStringLen.1 = v.unPackStringLen.1 ∧
      u.unPackStringLen.2.Longer v.unPackStringLen.2 := by
  rw [UnPacker.unPackStringLen, UnPacker.unPackStringLen]
  rcases h.string hnul with ⟨hu, hv⟩ | ⟨hu, hv, hsame, hread, hnext⟩
  · simp only [if_pos hu, if_pos hv, true_and]
    exact h.touch _ _ _ _
  · rw [hsame] at hu hread hnext
    simp only [if_neg hu, if_neg hv, hsame, hread, true_and]
    exact hnext

theorem Longer.call (h : u.Longer v) {c : Call} (halike : Alike (u, v) (.call c)) :
    (u.call c).2 = (v.call c).2 ∧ (u.call c).1.Longer (v.call c).1 := by
  cases c with
  | byte =>
      obtain ⟨hvalue, hnext⟩ := h.unPackByte halike
      exact ⟨congrArg Value.byte hvalue, hnext⟩
  | word =>
      obtain ⟨hvalue, hnext⟩ := h.unPackUint (by omega) halike
      exact ⟨congrArg (fun n => Value.word (.ofNat (htons n))) hvalue, hnext⟩
  | dword =>
      obtain ⟨hvalue, hnext⟩ := h.unPackUint (by omega) halike
      exact ⟨congrArg (fun n => Value.dword (.ofNat (htonl n))) hvalue, hnext⟩
  | qword =>
      obtain ⟨hvalue, hnext⟩ := h.unPackUint (by omega) halike
      exact ⟨congrArg (fun n => Value.qword (.ofNat (myhtonll n))) hvalue, hnext⟩
  | binary w len => exact h.binaryCall (.inl ⟨w, rfl⟩) halike.1 halike.2
  | binaryPtr len => exact h.binaryCall (.inr (.inl rfl)) halike.1 halike.2
  | binaryStr w len => exact h.binaryCall (.inr (.inr ⟨w, rfl⟩)) halike.1 halike.2
  | string =>
      rw [UnPacker.call, UnPacker.call, UnPacker.unPackString, UnPacker.unPackString]
      rcases h.string halike with ⟨hu, hv⟩ | ⟨hu, hv, hsame, hread, hnext⟩
      · simp only [if_pos hu, if_pos hv, true_and]
        exact h.touch _ _ _ _
      · rw [hsame] at hu hread hnext
        simp only [if_neg hu, if_neg hv, hsame, hread, true_and]
        exact hnext
  | stringLen =>
      obtain ⟨hvalue, hnext⟩ := h.unPackStringLen halike
      exact ⟨congrArg Value.pointer hvalue, hnext⟩

theorem Longer.unPackReal (h : u.Longer v) (hnul : 0 ∈ u.rest ∨ 0 ∉ v.rest) :
    (u.unPackReal : R × UnPacker).1 = v.unPackReal.1 ∧
      (u.unPackReal : R × UnPacker).2.Longer (v.unPackReal : R × UnPacker).2 := by
  obtain ⟨hvalue, hnext⟩ := h.unPackStringLen hnul
  rw [UnPacker.unPackReal, UnPacker.unPackReal]
  cases hu : u.unPackStringLen with
  | mk p u' =>
      cases hv : v.unPackStringLen with
      | mk p' v' =>
          rw [hu, hv] at hvalue hnext
          cases hvalue
          cases p <;> exact ⟨rfl, hnext⟩

/-- Both bodies are decrypted where they lie, at `a` and at `a'`. -/
theorem Longer.xxtea (h : u.Longer v) (key : TeaKey)
    (hwords : u.bodyLen / 4 = v.bodyLen / 4 ∨ v.bodyLen < 8) :
    Longer { u with mem := xxteaDecrypt u.mem u.pBody u.bodyLen key.words }
      { v with mem := xxteaDecrypt v.mem v.pBody v.bodyLen key.words } := by
  have hle := h.bodyLen_le
  have hlt := h.bodyLen_lt
  obtain ⟨hpu, hpv, -⟩ := h.places
  refine { h with encType := ?_, bytes := ?_ }
  · exact ((xxtea_of_outside (.inl hpv)).2.trans h.encType).trans
      (xxtea_of_outside (.inl hpu)).2.symm
  · rcases hwords with hwords | hshort
    · exact xxteaDecrypt_congr (by omega) hwords (Nat.div_mul_le_self _ _) h.bytes
    · simp only [(xxtea_short (show u.bodyLen < 8 by omega)).2, (xxtea_short hshort).2]
      exact h.bytes

/-- The copies of the two bodies. -/
theorem Longer.dump (h : u.Longer v) :
    Longer
      { u with
        mem := Mem.write u.mem u.len (Mem.read u.mem u.pBody u.bodyLen ++ [0])
        pBody := u.len }
      { v with
        mem := Mem.write v.mem v.len (Mem.read v.mem v.pBody v.bodyLen ++ [0])
        pBody := v.len } := by
  have hle := h.bodyLen_le
  obtain ⟨-, -, hlu, hlv⟩ := h.places
  refine { h with encType := ?_, bytes := ?_, places := ⟨hlu, hlv, hlu, hlv⟩ }
  · exact ((Mem.write_of_lt _ _ hlv).trans h.encType).trans (Mem.write_of_lt _ _ hlu).symm
  · dsimp only
    intro i hi
    rw [Mem.write_add _ _ _ (by simp; omega), Mem.write_add _ _ _ (by simp; omega)]
    simp [List.getElem_append_left, Mem.read, hi, hi.trans_le hle, h.bytes i hi]

theorem Longer.decrypt (h : u.Longer v) (key : TeaKey)
    (hwords : u.mem msgEncTypePos = encTypeTea →
      u.bodyLen / 4 = v.bodyLen / 4 ∨ v.bodyLen < 8) :
    (u.decrypt key).1 = (v.decrypt key).1 ∧ (u.decrypt key).2.Longer (v.decrypt key).2 := by
  rw [UnPacker.decrypt, UnPacker.decrypt, h.encType]
  split
  · exact ⟨rfl, h⟩
  · split
    · exact ⟨rfl, h⟩
    · next htea => exact ⟨rfl, h.xxtea key (hwords (not_not.mp htea))⟩

theorem Longer.dumpDecrypt (h : u.Longer v) (key : TeaKey)
    (hwords : u.mem msgEncTypePos = encTypeTea →
      u.bodyLen / 4 = v.bodyLen / 4 ∨ v.bodyLen < 8) :
    (u.dumpDecrypt key).1 = (v.dumpDecrypt key).1 ∧
      (u.dumpDecrypt key).2.Longer (v.dumpDecrypt key).2 := by
  rw [UnPacker.dumpDecrypt, UnPacker.dumpDecrypt, h.encType]
  split
  · exact ⟨rfl, h⟩
  · split
    · exact ⟨rfl, h⟩
    · next htea => exact ⟨rfl, h.dump.xxtea key (hwords (not_not.mp htea))⟩

/-- What a read answers and leaves depends on the packet alone, unless it would find more behind
the body. -/
theorem Longer.answer (h : u.Longer v) {r : Read} (halike : Alike (u, v) r) :
    (u.answer r : UnPacker × (ReadResult R × ℕ)).2 = (v.answer r).2 ∧
      (u.answer r : UnPacker × (ReadResult R × ℕ)).1.Longer
        (v.answer r : UnPacker × (ReadResult R × ℕ)).1 := by
  cases r with
  | call c =>
      obtain ⟨hvalue, hnext⟩ := h.call halike
      exact ⟨Prod.ext (congrArg ReadResult.value hvalue) hnext.err.symm, hnext⟩
  | real =>
      obtain ⟨hvalue, hnext⟩ := h.unPackReal (R := R) halike
      exact ⟨Prod.ext (congrArg ReadResult.real hvalue) hnext.err.symm, hnext⟩
  | decrypt key =>
      obtain ⟨hvalue, hnext⟩ := h.decrypt key halike
      exact ⟨Prod.ext (congrArg ReadResult.ret hvalue) hnext.err.symm, hnext⟩
  | dumpDecrypt key =>
      obtain ⟨hvalue, hnext⟩ := h.dumpDecrypt key halike
      exact ⟨Prod.ext (congrArg ReadResult.ret hvalue) hnext.err.symm, hnext⟩

/-! ## Runs -/

variable {m : ℕ → UInt8} {k : ℕ}

/-- Bytes behind a packet do not keep `Init` from accepting it. -/
theorem accepted_behind (hok : (u.init m n).1 = retOk) (k : ℕ) : (u.init m (n + k)).1 = retOk := by
  obtain ⟨hlen, hsoh, hver, hle, heot⟩ := init_ret_iff.mp hok
  exact init_ret_iff.mpr ⟨by omega, hsoh, hver, by omega, heot⟩

/-- `Init` of the `n` bytes of a packet, and with `k` more. -/
theorem longer_init (hok : (u.init m n).1 = retOk) (hlt : n + k < 2 ^ 32) :
    (u.init m n).2.Longer (u.init m (n + k)).2 ∧
      (u.init m (n + k)).2.bodyLen = (u.init m n).2.bodyLen + k := by
  have hheader : msgHeaderLen = 29 := rfl
  have htype : msgEncTypePos = 23 := rfl
  obtain ⟨hn, hbody⟩ := init_bodyLen (by omega) hok
  obtain ⟨-, hbody'⟩ := init_bodyLen hlt (accepted_behind hok k)
  refine ⟨⟨rfl, rfl, rfl, fun _ _ => rfl, Nat.zero_le _, by omega, by omega, ?_⟩, by omega⟩
  simp only [init]
  omega

/-- A read of one byte more than the body has finds it behind the body. -/
theorem trace_ne_of_lt (hlen : u.bodyLen + 1 < 2 ^ 32) (hu : u.offset = 0) (hv : v.offset = 0)
    (hlt : u.bodyLen < v.bodyLen) :
    Run.trace (answer (R := R)) u [.call (.binaryPtr (.ofNat (u.bodyLen + 1)))] ≠
      Run.trace answer v [.call (.binaryPtr (.ofNat (u.bodyLen + 1)))] := by
  have hnat : (UInt32.ofNat (u.bodyLen + 1)).toNat = u.bodyLen + 1 :=
    UInt32.toNat_ofNat_of_lt' hlen
  have hwrap : u32 (0 + (u.bodyLen + 1)) = u.bodyLen + 1 := by
    rw [Nat.zero_add, u32_of_lt hlen]
  simp only [Run.trace_cons, answer, call, unPackBinaryPtr, hu, hv, hnat, hwrap]
  rw [if_pos (by omega), if_neg (by omega)]
  simp

/-- Bytes behind a packet do not keep `Init` from accepting it, and a series of reads gives the
same answers as long as none finds more behind the body; but all series do so only if there are
no bytes behind it. -/
theorem trailing_iff (u : UnPacker) (m : ℕ → UInt8) {n k : ℕ} (hlt : n + k < 2 ^ 32)
    (hok : (u.init m n).1 = retOk) :
    (u.init m (n + k)).1 = retOk ∧
      ((∀ rs, Run.trace (answer (R := R)) (u.init m n).2 rs =
          Run.trace answer (u.init m (n + k)).2 rs) ↔ k = 0) ∧
      ∀ rs, Run.Always (Run.pair (answer (R := R))) Alike
          ((u.init m n).2, (u.init m (n + k)).2) rs →
        Run.trace (answer (R := R)) (u.init m n).2 rs =
          Run.trace answer (u.init m (n + k)).2 rs := by
  obtain ⟨hlonger, hbody⟩ := longer_init hok hlt
  refine ⟨accepted_behind hok k, ?_, ?_⟩
  · constructor
    · intro hall
      by_contra hpos
      have hlen := hlonger.bodyLen_lt
      exact trace_ne_of_lt (by omega) rfl rfl (by omega) (hall _)
    · intro hnone rs
      rw [hnone, Nat.add_zero]
  · intro rs hrun
    exact Run.trace_eq_of_related (fun _ _ _ h halike => h.answer halike) hlonger hrun

/-- A word is missed in an empty body with and without a byte behind it. -/
theorem trailing_iff_word :
    Run.trace (answer (R := Unit)) (fresh.init (headerOf 30) 30).2 [.call .word] =
      Run.trace answer (fresh.init (headerOf 30) (30 + 1)).2 [.call .word] :=
  (trailing_iff fresh (headerOf 30) (by omega) (by decide)).2.2 _ ⟨.inr (by decide), trivial⟩

/-- A binary of one byte is found only where there is a byte behind the empty body. -/
theorem not_trailing :
    (fresh.init (headerOf 30) 30).1 = retOk ∧ getPackLen (headerOf 30) 0 = 30 ∧
      ¬ ∀ rs, Run.trace (answer (R := Unit)) (fresh.init (headerOf 30) 30).2 rs =
        Run.trace answer (fresh.init (headerOf 30) (30 + 1)).2 rs := by
  refine ⟨by decide, by decide, ?_⟩
  intro hall
  have htrace := hall [.call (.binaryPtr 1)]
  simp only [Run.trace_cons, Run.trace_nil, List.cons.injEq, and_true, Prod.mk.injEq,
    true_and] at htrace
  exact absurd htrace (by decide)

end UnPacker

end Spp
