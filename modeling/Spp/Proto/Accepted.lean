import Spp.Proto.CookieBounds

/-!
# What `Init` of an unpacker accepts

`CheckPack` compares the length field of a header with the length of the string, but not with
the length of a header, before it takes the field for the place of the end mark.

## Main definitions

* `UnPacker.initReads` — the stretches of the string that `Init` reads.
* `WellFormed` — a string that starts with a packet.
* `LengthSound` — the length field is that of no packet cut short.
-/

namespace Spp

/-- Two memories hold the same bytes in every stretch. -/
def AgreeOn (reads : List (ℕ × ℕ)) (m m' : ℕ → UInt8) : Prop :=
  ∀ s ∈ reads, Mem.read m s.1 s.2 = Mem.read m' s.1 s.2

@[simp] theorem agreeOn_nil (m m' : ℕ → UInt8) : AgreeOn [] m m' := by simp [AgreeOn]

@[simp] theorem agreeOn_cons {start size : ℕ} {reads : List (ℕ × ℕ)} {m m' : ℕ → UInt8} :
    AgreeOn ((start, size) :: reads) m m' ↔
      Mem.read m start size = Mem.read m' start size ∧ AgreeOn reads m m' := by
  simp [AgreeOn]

@[simp] theorem agreeOn_append {reads rest : List (ℕ × ℕ)} {m m' : ℕ → UInt8} :
    AgreeOn (reads ++ rest) m m' ↔ AgreeOn reads m m' ∧ AgreeOn rest m m' :=
  List.forall_mem_append

theorem within_append {p len : ℕ} {reads rest : List (ℕ × ℕ)} :
    Within p len (reads ++ rest) ↔ Within p len reads ∧ Within p len rest :=
  List.forall_mem_append

namespace UnPacker

/-- The stretches `GetHeader` reads. -/
def headerReads : List (ℕ × ℕ) :=
  [(0, 1), (1, 1), (2, 1), (3, 4), (7, 2), (9, 2), (11, 4), (15, 4), (19, 4), (23, 1), (24, 1),
    (25, 4)]

/-- The stretches `CheckPack` reads. -/
def checkPackReads (u : UnPacker) (len : ℕ) : List (ℕ × ℕ) :=
  if len < msgHeaderLen + 1 then []
  else
    let h := u.getHeader
    if h.soh ≠ soh then headerReads
    else if h.mainVer ≠ mainVer then headerReads
    else if h.packLen.toNat > len then headerReads
    else headerReads ++ [(u32sub h.packLen.toNat 1, 1)]

/-- The stretches `Init` reads. -/
def initReads (u : UnPacker) (data : ℕ → UInt8) (len : ℕ) : List (ℕ × ℕ) :=
  (u.init data len).2.checkPackReads len

variable {u : UnPacker} {data data' : ℕ → UInt8} {len : ℕ}

/-! ## Nothing else is read -/

theorem getHeader_congr {v : UnPacker} (hagree : AgreeOn headerReads u.mem v.mem) :
    u.getHeader = v.getHeader := by
  have hcell : ∀ {i : ℕ}, Mem.read u.mem i 1 = Mem.read v.mem i 1 → u.mem i = v.mem i :=
    fun hread => Mem.cell_of_read (i := 0) hread Nat.one_pos
  simp only [headerReads, agreeOn_cons, agreeOn_nil, and_true] at hagree
  obtain ⟨h0, h1, h2, h3, h7, h9, h11, h15, h19, h23, h24, h25⟩ := hagree
  simp only [getHeader, hcell h0, hcell h1, hcell h2, h3, h7, h9, h11, h15, h19, hcell h23,
    hcell h24, h25]

/-- What `Init` returns depends on nothing else than what it reads. -/
theorem init_congr {v : UnPacker} (hagree : AgreeOn (u.initReads data len) data data') :
    (u.init data len).1 = (v.init data' len).1 := by
  simp only [initReads, init, checkPackReads, checkPack] at hagree ⊢
  by_cases hshort : len < msgHeaderLen + 1
  · simp only [if_pos hshort]
  · have hheader : AgreeOn headerReads data data' := by
      revert hagree
      simp only [if_neg hshort]
      split_ifs <;> simp +contextual
    have hsame := getHeader_congr (u := (u.init data len).2) (v := (v.init data' len).2) hheader
    simp only [init] at hsame
    simp only [if_neg hshort, ← hsame] at hagree ⊢
    split_ifs at hagree with hsoh hver hlong
    · simp only [if_pos hsoh]
    · simp only [if_neg hsoh, if_pos hver]
    · simp only [if_neg hsoh, if_neg hver, if_pos hlong]
    · -- The place of the end mark is read only here.
      rw [agreeOn_append, agreeOn_cons] at hagree
      have hcell := Mem.cell_of_read (i := 0) hagree.2.1 Nat.one_pos
      rw [Nat.add_zero] at hcell
      rw [hcell]

/-! ## The length field -/

/-- The string starts with a packet: a header, and a length field with the end mark at its
end. -/
def WellFormed (data : ℕ → UInt8) (len : ℕ) : Prop :=
  msgHeaderLen + 1 ≤ len ∧ data 0 = soh ∧ data 1 = mainVer ∧
    msgHeaderLen + 1 ≤ getPackLen data 0 ∧ getPackLen data 0 ≤ len ∧
    data (getPackLen data 0 - 1) = eot

instance (data : ℕ → UInt8) (len : ℕ) : Decidable (WellFormed data len) :=
  inferInstanceAs (Decidable (_ ∧ _))

/-- Behind a header, the length field is not 0, and where it is shorter than a header no end
mark lies at its end. -/
def LengthSound (data : ℕ → UInt8) (len : ℕ) : Prop :=
  msgHeaderLen + 1 ≤ len → data 0 = soh → data 1 = mainVer →
    getPackLen data 0 ≠ 0 ∧
      (getPackLen data 0 ≤ msgHeaderLen → data (getPackLen data 0 - 1) ≠ eot)

instance (data : ℕ → UInt8) (len : ℕ) : Decidable (LengthSound data len) :=
  inferInstanceAs (Decidable (_ → _))

theorem within_headerReads (hlen : msgHeaderLen + 1 ≤ len) : Within 0 len headerReads := by
  intro s hs
  have hall : ∀ s ∈ headerReads, s.1 + s.2 ≤ msgHeaderLen := by decide
  have hle := hall s hs
  omega

/-- The place of the end mark is the only one that may lie outside. -/
theorem within_initReads_iff (hlen : len < 2 ^ 32) : Within 0 len (u.initReads data len) ↔
    (msgHeaderLen + 1 ≤ len → data 0 = soh → data 1 = mainVer → getPackLen data 0 ≠ 0) := by
  have hlength : (u.init data len).2.getHeader.packLen.toNat = getPackLen data 0 :=
    UInt32.toNat_ofNat_of_lt' (getPackLen_lt data 0)
  rw [initReads, checkPackReads]
  by_cases hshort : len < msgHeaderLen + 1
  · rw [if_pos hshort]
    exact iff_of_true (within_nil 0 len) (fun hlong => absurd hlong (by omega))
  · have hheader := within_headerReads (Nat.le_of_not_lt hshort)
    simp only [if_neg hshort, hlength]
    split
    next hsoh => exact iff_of_true hheader (fun _ h _ => absurd h hsoh)
    next hsoh =>
      split
      next hver => exact iff_of_true hheader (fun _ _ h => absurd h hver)
      next hver =>
        split
        next hlong => exact iff_of_true hheader (fun _ _ _ => by omega)
        next hlong =>
          rw [within_append, and_iff_right hheader, within_cons, and_iff_left (within_nil 0 len)]
          by_cases hzero : getPackLen data 0 = 0
          · -- `pack_len - 1` wraps around, behind the end of any string.
            have hwrap : u32sub 0 1 = 2 ^ 32 - 1 := rfl
            rw [hzero, hwrap]
            refine iff_of_false (by omega) ?_
            intro hne
            exact hne (by omega) (not_not.mp hsoh) (not_not.mp hver) rfl
          · rw [u32sub_of_le (by omega) (getPackLen_lt data 0)]
            exact iff_of_true ⟨Nat.zero_le _, by omega⟩ (fun _ _ _ => hzero)

/-- What `Init` returns depends on nothing else than what it reads.  It reads nothing outside
the string, and accepts it exactly if it starts with a packet, unless the length field is 0 or
has an end mark inside the header. -/
theorem init_decides_iff (u : UnPacker) (data : ℕ → UInt8) (len : UInt32) :
    (∀ (v : UnPacker) (data' : ℕ → UInt8), AgreeOn (u.initReads data len.toNat) data data' →
        (u.init data len.toNat).1 = (v.init data' len.toNat).1) ∧
      ((Within 0 len.toNat (u.initReads data len.toNat) ∧
          ((u.init data len.toNat).1 = retOk ↔ WellFormed data len.toNat)) ↔
        LengthSound data len.toNat) := by
  refine ⟨fun v data' hagree => init_congr hagree, ?_⟩
  rw [within_initReads_iff len.toNat_lt, init_ret_iff, WellFormed, LengthSound]
  by_cases hheader : msgHeaderLen + 1 ≤ len.toNat ∧ data 0 = soh ∧ data 1 = mainVer
  · obtain ⟨hlen, hsoh, hver⟩ := hheader
    simp only [hlen, hsoh, hver, true_and, forall_const]
    refine and_congr_right ?_
    intro hne
    rw [u32sub_of_le (by omega) (getPackLen_lt data 0)]
    constructor
    · intro hiff hshort heot
      have hlong := (hiff.mp ⟨by omega, heot⟩).1
      omega
    · intro hshort
      constructor
      · rintro ⟨hle, heot⟩
        refine ⟨?_, hle, heot⟩
        by_contra hlt
        exact hshort (by omega) heot
      · exact fun hwell => hwell.2
  · refine iff_of_true ⟨?_, ?_⟩ ?_
    · exact fun hlen hsoh hver => absurd ⟨hlen, hsoh, hver⟩ hheader
    · exact iff_of_false (fun h => hheader ⟨h.1, h.2.1, h.2.2.1⟩)
        (fun h => hheader ⟨h.1, h.2.1, h.2.2.1⟩)
    · exact fun hlen hsoh hver => absurd ⟨hlen, hsoh, hver⟩ hheader

/-- A header with the length field `n` and an end mark, and an end mark at 9. -/
def headerOf (n : UInt8) : ℕ → UInt8 := fun i =>
  [74, 1, 0, 0, 0, 0, n, 5, 0, 87, 0, 0, 0, 0, 1, 0, 0, 0, 2, 0, 0, 0, 3, 0, 1, 0, 0, 0, 0,
    87].getD i 0

/-- For the end mark of a length of 0, `Init` reads 4 GiB behind the string, and it accepts a
length of 10. -/
theorem not_init_decides :
    ¬ Within 0 30 (fresh.initReads (headerOf 0) 30) ∧
      ¬ ((fresh.init (headerOf 10) 30).1 = retOk ↔ WellFormed (headerOf 10) 30) := by
  decide

end UnPacker

end Spp
