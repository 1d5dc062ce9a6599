import Spp.Proto.UnPacker
import Spp.Lib.Run
import Mathlib.Data.List.TakeWhile

/-!
# Packing and unpacking

What the packer put in a packet, field by field, the unpacker reads back from it, whatever
accessors of the right types are used, and also when the body was enciphered.

## Main definitions

* `Field` — a value that is packed; `Packer.pack`, `Field.bytes` — how.
* `Field.Gives` — a call for a field of this type, and the value it should give.
* `MsgHeader.packet`, `encipher` — the bytes of a packet; a body enciphered.
-/

namespace Spp

/-! ## Fields -/

/-- A packed value.  A binary has a byte at least and a string no NUL. -/
inductive Field
  | byte (v : UInt8)
  | word (v : UInt16)
  | dword (v : UInt32)
  | qword (v : UInt64)
  | binary (v : List UInt8) (hne : v ≠ [])
  | string (v : List UInt8) (hnul : 0 ∉ v)
  /-- A string given as a `const char *`. -/
  | cstring (v : List UInt8) (hnul : 0 ∉ v)

/-- The field is packed. -/
def Packer.pack (pk : Packer) : Field → Packer
  | .byte v => pk.packByte v
  | .word v => pk.packWord v
  | .dword v => pk.packDWord v
  | .qword v => pk.packQWord v
  | .binary v _ => pk.packBinary v v.length
  | .string v _ => pk.packString v
  | .cstring v _ => pk.packCString (some v)

/-- The bytes of a field in the body. -/
def Field.bytes : Field → List UInt8
  | .byte v => [v]
  | .word v => be 2 v.toNat
  | .dword v => be 4 v.toNat
  | .qword v => be 8 v.toNat
  | .binary v _ => v
  | .string v _ | .cstring v _ => v ++ [0]

/-- The call `c` is one for the type of the field, and gives the field's value as `val`. -/
inductive Field.Gives : Field → Call → Value → Prop
  | byte (v) : Gives (.byte v) .byte (.byte v)
  | word (v) : Gives (.word v) .word (.word v)
  | dword (v) : Gives (.dword v) .dword (.dword v)
  | qword (v) : Gives (.qword v) .qword (.qword v)
  | binary (v hne dst) :
      Gives (.binary v hne) (.binary dst (.ofNat v.length)) (.binary retOk v)
  | binaryPtr (v hne) : Gives (.binary v hne) (.binaryPtr (.ofNat v.length)) (.pointer (some v))
  | binaryStr (v hne data) :
      Gives (.binary v hne) (.binaryStr data (.ofNat v.length)) (.binary retOk v)
  | string (v hnul) : Gives (.string v hnul) .string (.string v)
  | stringLen (v hnul) : Gives (.string v hnul) .stringLen (.pointer (some v))
  | cstring (v hnul) : Gives (.cstring v hnul) .string (.string v)
  | cstringLen (v hnul) : Gives (.cstring v hnul) .stringLen (.pointer (some v))

theorem Packer.oss_pack (pk : Packer) (f : Field) : (pk.pack f).oss = pk.oss ++ f.bytes := by
  cases f with
  | cstring v hnul =>
      have hall : v.takeWhile (· ≠ 0) = v := by
        rw [List.takeWhile_eq_self_iff]
        intro b hb
        simpa using ne_of_mem_of_not_mem hb hnul
      simp only [pack, packCString, hall, Field.bytes, List.append_assoc]
  | _ => simp [pack, Field.bytes]

theorem Packer.oss_foldl_pack (fields : List Field) (pk : Packer) :
    (fields.foldl Packer.pack pk).oss = pk.oss ++ fields.flatMap Field.bytes := by
  induction fields generalizing pk with
  | nil => simp
  | cons f fields ih => simp [ih, oss_pack]

/-! ## Reading the fields back -/

namespace UnPacker

variable {u : UnPacker} {bs : List UInt8} {f : Field} {c : Call} {val : Value}

/-- A call for the field that comes next gives its value. -/
theorem At.call (h : u.At (f.bytes ++ bs)) (hg : f.Gives c val) :
    u.call c = (u.next f.bytes.length, val) := by
  have hlen : f.bytes.length < 2 ^ 32 := by
    have hfits := h.fits
    have := h.bodyLen_lt
    omega
  cases hg with
  | byte v =>
      have h' : u.At (v :: bs) := h
      simp [UnPacker.call, Field.bytes, h'.unPackByte]
  | word v =>
      have h' : u.At (be 2 v.toNat ++ bs) := h
      simp [UnPacker.call, Field.bytes, h'.unPackWord]
  | dword v =>
      have h' : u.At (be 4 v.toNat ++ bs) := h
      simp [UnPacker.call, Field.bytes, h'.unPackDWord]
  | qword v =>
      have h' : u.At (be 8 v.toNat ++ bs) := h
      simp [UnPacker.call, Field.bytes, h'.unPackQWord]
  | binary v hne dst =>
      simp only [Field.bytes] at h hlen
      simp [UnPacker.call, Field.bytes, UInt32.toNat_ofNat_of_lt' hlen, h.unPackBinary]
  | binaryPtr v hne =>
      simp only [Field.bytes] at h hlen
      simp [UnPacker.call, Field.bytes, UInt32.toNat_ofNat_of_lt' hlen, h.unPackBinaryPtr]
  | binaryStr v hne data =>
      simp only [Field.bytes] at h hlen
      simp [UnPacker.call, Field.bytes, UInt32.toNat_ofNat_of_lt' hlen, h.unPackBinaryStr hne]
  | string v hnul | cstring v hnul =>
      simp only [Field.bytes, List.append_assoc, List.singleton_append] at h
      simp [UnPacker.call, Field.bytes, h.unPackString hnul]
  | stringLen v hnul | cstringLen v hnul =>
      simp only [Field.bytes, List.append_assoc, List.singleton_append] at h
      simp [UnPacker.call, Field.bytes, h.unPackStringLen hnul]

/-- Calls for all the fields in their order give their values. -/
theorem At.trace {fields : List Field} {reads : List (Call × Value)}
    (h : u.At (fields.flatMap Field.bytes ++ bs))
    (hg : List.Forall₂ (fun f r => f.Gives r.1 r.2) fields reads) :
    Run.trace UnPacker.call u (reads.map Prod.fst) = reads ∧
      (Run.final UnPacker.call u (reads.map Prod.fst)).At bs ∧
      (Run.final UnPacker.call u (reads.map Prod.fst)).err = u.err := by
  induction hg generalizing u with
  | nil => exact ⟨rfl, by simpa using h, rfl⟩
  | @cons f r fields reads hf _ ih =>
      rw [List.flatMap_cons, List.append_assoc] at h
      have hcall := h.call hf
      have hrest := ih h.next
      simp only [List.map_cons, Run.trace_cons, Run.final_cons, hcall]
      rw [hrest.1, hrest.2.2, err_next]
      exact ⟨rfl, hrest.2.1, rfl⟩

end UnPacker

/-! ## Packets in memory -/

section Packets

variable {h : MsgHeader} {m : ℕ → UInt8} {body : List UInt8}

/-- The bytes of a packet. -/
def MsgHeader.packet (h : MsgHeader) (body : List UInt8) : List UInt8 :=
  h.bytes (msgHeaderLen + body.length + 1) ++ body ++ [eot]

@[simp] theorem MsgHeader.length_packet (h : MsgHeader) (body : List UInt8) :
    (h.packet body).length =
    msgHeaderLen + body.length + 1 := by
  simp [packet, Nat.add_assoc]

theorem Packer.getPack_packet {pk : Packer}
    (hlen : msgHeaderLen + pk.oss.length + 1 < 2 ^ 32) :
    pk.getPack h = some (h.packet pk.oss) := getPack_eq hlen

/-- The bytes of a packet in memory. -/
theorem read_packet_iff : Mem.read m 0 (h.packet body).length = h.packet body ↔
    Mem.read m 0 (h.bytes (msgHeaderLen + body.length + 1)).length =
      h.bytes (msgHeaderLen + body.length + 1) ∧
    Mem.read m msgHeaderLen body.length = body ∧ m (msgHeaderLen + body.length) = eot := by
  rw [MsgHeader.packet, Mem.read_append_iff, Mem.read_append_iff, List.length_append,
    MsgHeader.length_bytes, Nat.zero_add, Nat.zero_add, List.length_singleton,
    Mem.read_one_eq_iff, and_assoc]

/-- `Init` accepts a packet with the right marks, and its body is left to be read. -/
theorem UnPacker.init_packet (u₀ : UnPacker) (hsoh : h.soh = soh) (hver : h.mainVer = mainVer)
    (hlen : msgHeaderLen + body.length + 1 < 2 ^ 32)
    (hm : Mem.read m 0 (h.packet body).length = h.packet body) :
    (u₀.init m (h.packet body).length).1 = retOk ∧
      (u₀.init m (h.packet body).length).2.getHeader =
        { h with packLen := .ofNat (h.packet body).length } ∧
      (u₀.init m (h.packet body).length).2.At body ∧
      (u₀.init m (h.packet body).length).2.err = u₀.err := by
  have hread := read_packet_iff.mp hm
  rw [MsgHeader.length_packet]
  have hheader : (u₀.init m (msgHeaderLen + body.length + 1)).2.getHeader =
      { h with packLen := .ofNat (msgHeaderLen + body.length + 1) } :=
    getHeader_of_read hlen hread.1
  have hpackLen : (UInt32.ofNat (msgHeaderLen + body.length + 1)).toNat =
      msgHeaderLen + body.length + 1 := UInt32.toNat_ofNat_of_lt' hlen
  have hend : u32sub (msgHeaderLen + body.length + 1) 1 = msgHeaderLen + body.length :=
    u32sub_of_le (by omega) hlen
  have hbodyLen : (u₀.init m (msgHeaderLen + body.length + 1)).2.bodyLen = body.length := by
    have hbody : u32sub (msgHeaderLen + body.length + 1) msgHeaderLen = body.length + 1 := by
      rw [u32sub_of_le (by omega) hlen]
      omega
    simp only [init, hbody]
    exact u32sub_of_le (by omega) (by omega)
  refine ⟨?_, hheader, ⟨?_, ?_, ?_⟩, rfl⟩
  · have hcheck : (u₀.init m (msgHeaderLen + body.length + 1)).1 =
        (u₀.init m (msgHeaderLen + body.length + 1)).2.checkPack m
          (msgHeaderLen + body.length + 1) := rfl
    rw [hcheck, checkPack, if_neg (by omega), hheader]
    simp only [hsoh, hver, hpackLen, hend, hread.2.2, ne_eq, not_true_eq_false, if_false,
      gt_iff_lt, lt_irrefl]
  · rw [hbodyLen]
    exact Nat.zero_add _
  · rw [hbodyLen]
    rw [msgHeaderLen] at hlen
    omega
  · simpa [init] using hread.2.1

/-! ## Enciphered packets -/

variable {key : TeaKey}

/-- The bytes of the body after `xxtea_encrypt`. -/
def encipher (key : TeaKey) (body : List UInt8) : List UInt8 :=
  Mem.read (xxteaEncrypt (Mem.write (fun _ => 0) msgHeaderLen body) msgHeaderLen body.length
    key.words) msgHeaderLen body.length

@[simp] theorem length_encipher (key : TeaKey) (body : List UInt8) : (encipher key body).length = body.length := by
  simp [encipher]

/-- It does not matter what else is in the memory. -/
theorem read_xxteaEncrypt (key : TeaKey) (hlen : body.length < 2 ^ 32)
    (hm : Mem.read m msgHeaderLen body.length = body) :
    Mem.read (xxteaEncrypt m msgHeaderLen body.length key.words) msgHeaderLen body.length =
      encipher key body := by
  have hagree : ∀ c, msgHeaderLen ≤ c → c < msgHeaderLen + body.length →
      m c = Mem.write (fun _ => 0) msgHeaderLen body c := by
    intro c hlo hhi
    obtain ⟨j, rfl⟩ : ∃ j, c = msgHeaderLen + j := ⟨c - msgHeaderLen, by omega⟩
    have hj : j < (Mem.read m msgHeaderLen body.length).length := by
      rw [Mem.length_read]
      omega
    rw [Mem.write_add _ _ _ (by omega), ← Mem.getElem_read m msgHeaderLen body.length j hj]
    simp only [hm]
  apply Mem.read_congr
  intro i hi
  exact xxteaEncrypt_congr hlen hagree (by omega) (by omega)

/-- Decryption leaves the plain body in the packet's place. -/
theorem xxteaDecrypt_encipher (key : TeaKey) (hlen : body.length < 2 ^ 32)
    (hm : Mem.read m msgHeaderLen body.length = encipher key body) :
    xxteaDecrypt m msgHeaderLen body.length key.words = Mem.write m msgHeaderLen body := by
  have hmem : xxteaEncrypt (Mem.write m msgHeaderLen body) msgHeaderLen body.length key.words =
      m := by
    have hcipher := read_xxteaEncrypt key hlen
      (Mem.read_write_self m msgHeaderLen body)
    rw [← hm] at hcipher
    funext c
    by_cases hc : c < msgHeaderLen ∨ msgHeaderLen + body.length ≤ c
    · rw [xxteaEncrypt_of_outside hc]
      rcases hc with hc | hc
      · exact Mem.write_of_lt m body hc
      · exact Mem.write_of_ge m body hc
    · obtain ⟨j, rfl⟩ : ∃ j, c = msgHeaderLen + j := ⟨c - msgHeaderLen, by omega⟩
      have hj : j < body.length := by omega
      have hcell := congrArg (fun l => l[j]?) hcipher
      simpa [Mem.read, hj] using hcell
  rw [← xxteaDecrypt_xxteaEncrypt (m := Mem.write m msgHeaderLen body) hlen, hmem]

/-- A packet of an enciphered body. -/
theorem Packer.getPackKey_tea {pk : Packer} (henc : h.encType = encTypeTea)
    (hlen : msgHeaderLen + pk.oss.length + 1 < 2 ^ 32) :
    pk.getPackKey h key = some (h.packet (encipher key pk.oss)) := by
  have hbody : u32 pk.oss.length = pk.oss.length := u32_of_lt (by omega)
  have hpack : u32 (msgHeaderLen + pk.oss.length + 1) = msgHeaderLen + pk.oss.length + 1 :=
    u32_of_lt hlen
  have hheader : Mem.read (Mem.write (packHeader (fun _ => 0) h pk.oss.length) msgHeaderLen
      pk.oss) 0 msgHeaderLen = h.bytes (msgHeaderLen + pk.oss.length + 1) := by
    rw [Mem.read_write_of_disjoint _ _ (by simp), packHeader_eq, hpack]
    simpa only [MsgHeader.length_bytes] using Mem.read_write_self (fun _ : ℕ => (0 : UInt8)) 0
      (h.bytes (msgHeaderLen + pk.oss.length + 1))
  simp only [getPackKey, henc, hbody, hpack, ne_eq, not_true_eq_false, if_false, lt_irrefl,
    Nat.add_sub_cancel]
  rw [← length_encipher key, ← MsgHeader.length_packet h]
  rw [Option.some.injEq, read_packet_iff, length_encipher]
  refine ⟨?_, ?_, ?_⟩
  · rw [Mem.read_write_of_disjoint _ _ (by simp), MsgHeader.length_bytes]
    refine Eq.trans (Mem.read_congr ?_) hheader
    intro i hi
    exact xxteaEncrypt_of_outside (by omega)
  · rw [Mem.read_write_of_disjoint _ _ (by simp)]
    exact read_xxteaEncrypt key (by omega) (Mem.read_write_self _ _ _)
  · simpa using Mem.write_add _ [eot] (msgHeaderLen + pk.oss.length) (i := 0) (by simp)

/-- `Decrypt` leaves the plain body to be read. -/
theorem UnPacker.At.decrypt {u : UnPacker} (hat : u.At (encipher key body))
    (hbody : u.pBody = msgHeaderLen) (hoff : u.offset = 0)
    (henc : u.mem msgEncTypePos = encTypeTea) :
    (u.decrypt key).1 = retOk ∧ (u.decrypt key).2.At body ∧ (u.decrypt key).2.err = u.err := by
  have hbodyLen : u.bodyLen = body.length := by
    have := hat.bodyLen
    rw [hoff, length_encipher] at this
    omega
  have hbytes := hat.bytes
  rw [hbody, hoff, length_encipher] at hbytes
  have hmem := xxteaDecrypt_encipher key (by have := hat.bodyLen_lt; omega) hbytes
  have hdec : u.decrypt key = (retOk, { u with mem := Mem.write u.mem msgHeaderLen body }) := by
    simp [UnPacker.decrypt, henc, encTypeTea, encTypeNone, hbody, hbodyLen, hmem]
  rw [hdec]
  refine ⟨rfl, ⟨?_, hat.bodyLen_lt, ?_⟩, rfl⟩
  · simpa using hat.bodyLen
  · simp [hbody, hoff]

/-- The unpacker after `Decrypt` of a packet that is enciphered. -/
def UnPacker.deciphered (u : UnPacker) (h : MsgHeader) (key : TeaKey) : UnPacker :=
  if h.encType = encTypeTea then (u.decrypt key).2 else u

/-- Every packet that the packer makes of fields is accepted, and gives the header and the
fields back, deciphered with the same key where it was enciphered. -/
theorem packet_round_trip (h : MsgHeader) (hsoh : h.soh = soh) (hver : h.mainVer = mainVer)
    (fields : List Field)
    (hsize : msgHeaderLen + (fields.foldl Packer.pack {}).oss.length + 1 < 2 ^ 32)
    (key : TeaKey) (u₀ : UnPacker) (herr : u₀.err = retOk) :
    ∃ pack, (fields.foldl Packer.pack {}).getPackKey h key = some pack ∧
      (h.encType ≠ encTypeTea → (fields.foldl Packer.pack {}).getPack h = some pack) ∧
      ∀ m, Mem.read m 0 pack.length = pack →
        (u₀.init m pack.length).1 = retOk ∧
        (u₀.init m pack.length).2.getHeader = { h with packLen := .ofNat pack.length } ∧
        pack.length < 2 ^ 32 ∧
        (h.encType = encTypeTea → ((u₀.init m pack.length).2.decrypt key).1 = retOk) ∧
        ∀ reads, List.Forall₂ (fun f r => f.Gives r.1 r.2) fields reads →
          Run.trace UnPacker.call ((u₀.init m pack.length).2.deciphered h key)
            (reads.map Prod.fst) = reads ∧
          let u := Run.final UnPacker.call ((u₀.init m pack.length).2.deciphered h key)
            (reads.map Prod.fst)
          u.getErr = retOk ∧ u.offset = u.bodyLen := by
  have hoss : (fields.foldl Packer.pack {}).oss = fields.flatMap Field.bytes ++ [] := by
    simp [Packer.oss_foldl_pack]
  generalize fields.foldl Packer.pack {} = pk at hsize hoss ⊢
  have hrun : ∀ u : UnPacker, u.At pk.oss → u.err = retOk →
      ∀ reads, List.Forall₂ (fun f r => f.Gives r.1 r.2) fields reads →
        Run.trace UnPacker.call u (reads.map Prod.fst) = reads ∧
          (Run.final UnPacker.call u (reads.map Prod.fst)).getErr = retOk ∧
          (Run.final UnPacker.call u (reads.map Prod.fst)).offset =
            (Run.final UnPacker.call u (reads.map Prod.fst)).bodyLen := by
    intro u hat hu reads hreads
    rw [hoss] at hat
    have htrace := hat.trace hreads
    exact ⟨htrace.1, htrace.2.2.trans hu, htrace.2.1.bodyLen⟩
  by_cases henc : h.encType = encTypeTea
  · refine ⟨_, Packer.getPackKey_tea henc hsize, fun hne => absurd henc hne, ?_⟩
    intro m hm
    have hsize' : msgHeaderLen + (encipher key pk.oss).length + 1 < 2 ^ 32 := by simpa using hsize
    obtain ⟨hok, hheader, hat, herr'⟩ := u₀.init_packet hsoh hver hsize' hm
    have hdec := hat.decrypt rfl rfl ((congrArg MsgHeader.encType hheader).trans henc)
    refine ⟨hok, hheader, by simpa using hsize, fun _ => hdec.1, ?_⟩
    rw [UnPacker.deciphered, if_pos henc]
    exact hrun _ hdec.2.1 (by rw [hdec.2.2, herr', herr])
  · have hpack := Packer.getPack_packet (h := h) hsize
    refine ⟨_, ?_, fun _ => hpack, ?_⟩
    · rw [Packer.getPackKey, if_pos henc, hpack]
    · intro m hm
      obtain ⟨hok, hheader, hat, herr'⟩ := u₀.init_packet hsoh hver hsize hm
      refine ⟨hok, hheader, by simpa using hsize, fun h => absurd h henc, ?_⟩
      rw [UnPacker.deciphered, if_neg henc]
      exact hrun _ hat (herr'.trans herr)

/-- A byte and a string, enciphered. -/
theorem packet_round_trip_tea : ∃ pack,
    (Packer.packString (Packer.packByte {} 7) [97, 98]).getPackKey { encType := encTypeTea }
      (fun _ => 5) = some pack ∧
    ∀ m, Mem.read m 0 pack.length = pack →
      Run.trace UnPacker.call
        ((UnPacker.fresh.init m pack.length).2.deciphered { encType := encTypeTea } fun _ => 5)
        [.byte, .string] = [(.byte, .byte 7), (.string, .string [97, 98])] := by
  obtain ⟨pack, hpack, -, hall⟩ := packet_round_trip { encType := encTypeTea } rfl rfl
    [.byte 7, .string [97, 98] (by decide)] (by decide) (fun _ => 5) UnPacker.fresh rfl
  refine ⟨pack, hpack, ?_⟩
  intro m hm
  exact ((hall m hm).2.2.2.2 [(.byte, .byte 7), (.string, .string [97, 98])]
    (.cons (.byte 7) (.cons (.string [97, 98] (by decide)) .nil))).1

end Packets

end Spp
