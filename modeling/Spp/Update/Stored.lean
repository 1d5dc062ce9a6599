import Spp.Update.Client

/-!
# Versions and the files they stand for

A response is a list of entries, and each entry of a known server type is one attempt to
write one file.  What the client keeps for a server type after a response follows from
the attempts for that type alone, since no two types share a file.

## Main definitions

* `configEntries`, `attempts` — what a response says, and what is tried for it.
* `Kept` — the recorded version and the file of one server type.
* `contents` — a file after some attempts to write it.
* `RecordsStored` — every version that is recorded is that of the file.
-/

namespace Spp

/-! ## Attempts -/

/-- What the loop of `OnGetConfigInfoRsp` reads. -/
def unPackEntries : ℕ → UnPacker → List ConfigEntry
  | 0, _ => []
  | n + 1, u =>
      let (e, u) := unPackEntry u
      e :: unPackEntries n u

/-- What a response says. -/
def configEntries (data : ℕ → UInt8) (len : ℕ) : List ConfigEntry :=
  let (ret, u) := UnPacker.fresh.init data len
  if ret ≠ retOk then []
  else
    let (serverNum, u) := u.unPackWord
    unPackEntries serverNum.toNat u

/-- An entry, and the outcome of the calls that store it. -/
abbrev Attempt := ConfigEntry × StoreOutcome

/-- The entries with their outcomes. -/
def withOutcomes : List ConfigEntry → (ℕ → StoreOutcome) → List Attempt
  | [], _ => []
  | e :: es, outs => (e, outs 0) :: withOutcomes es fun i => outs (i + 1)

/-- What is tried for a response. -/
def attempts (outs : ℕ → StoreOutcome) (data : ℕ → UInt8) (len : ℕ) : List Attempt :=
  withOutcomes (configEntries data len) outs

/-- The attempts for one server type. -/
def forServer (s : UInt32) (as : List Attempt) : List Attempt :=
  as.filter fun a => a.1.serverType = s

/-- The file `f` after the attempts to write it. -/
def contents (f : Option (List UInt8)) (as : List Attempt) : Option (List UInt8) :=
  as.foldl (fun f a => storeFile f a.1.config a.2) f

/-- A string ends before the first NUL. -/
theorem zero_not_mem_scan (m : ℕ → UInt8) (left q : ℕ) :
    (0 : UInt8) ∉ Mem.read m q (UnPacker.scan m left q) := by
  induction left generalizing q with
  | zero => simp [UnPacker.scan]
  | succ left ih =>
    rw [UnPacker.scan]
    split
    next => simp
    next hcell =>
      rw [Mem.read_succ, List.mem_cons]
      rintro (hzero | hmem)
      · exact hcell hzero.symm
      · exact ih _ hmem

theorem zero_not_mem_unPackString (u : UnPacker) : (0 : UInt8) ∉ u.unPackString.1 := by
  unfold UnPacker.unPackString
  simp only
  split
  · simp
  · exact zero_not_mem_scan _ _ _

theorem zero_not_mem_unPackEntries {n : ℕ} {u : UnPacker} {e : ConfigEntry}
    (he : e ∈ unPackEntries n u) : (0 : UInt8) ∉ e.config := by
  induction n generalizing u with
  | zero => cases he
  | succ n ih =>
    rcases List.mem_cons.mp he with rfl | hmem
    · exact zero_not_mem_unPackString _
    · exact ih hmem

theorem zero_not_mem_configEntries {data : ℕ → UInt8} {len : ℕ} {e : ConfigEntry}
    (he : e ∈ configEntries data len) : (0 : UInt8) ∉ e.config := by
  unfold configEntries at he
  generalize UnPacker.fresh.init data len = p at he
  cases p with
  | mk ret u =>
    by_cases hret : ret = retOk
    · simp only [hret, ne_eq, not_true_eq_false, if_false] at he
      exact zero_not_mem_unPackEntries he
    · simp [hret] at he

theorem map_fst_withOutcomes (es : List ConfigEntry) (outs : ℕ → StoreOutcome) :
    (withOutcomes es outs).map Prod.fst = es := by
  induction es generalizing outs with
  | nil => rfl
  | cons e es ih => rw [withOutcomes, List.map_cons, ih]

theorem map_fst_forServer (s : UInt32) (as : List Attempt) :
    (forServer s as).map Prod.fst = (as.map Prod.fst).filter fun e => e.serverType = s := by
  rw [forServer, List.filter_map]
  rfl

namespace UpdateClient

/-- All attempts, one after the other. -/
def storeAll (c : UpdateClient) (as : List Attempt) : UpdateClient :=
  as.foldl (fun c a => c.storeEntry a.1 a.2) c

theorem getConfigLoop_eq (n : ℕ) (u : UnPacker) (outs : ℕ → StoreOutcome)
    (c : UpdateClient) :
    c.getConfigLoop n u outs = c.storeAll (withOutcomes (unPackEntries n u) outs) := by
  induction n generalizing u outs c with
  | zero => rfl
  | succ n ih => exact ih _ _ _

theorem onGetConfigInfoRsp_snd (c : UpdateClient) (outs : ℕ → StoreOutcome)
    (data : ℕ → UInt8) (len : ℕ) :
    (c.onGetConfigInfoRsp outs data len).2 = c.storeAll (attempts outs data len) := by
  unfold onGetConfigInfoRsp attempts configEntries
  generalize UnPacker.fresh.init data len = p
  cases p with
  | mk ret u =>
    by_cases hret : ret = retOk
    · simp only [hret, ne_eq, not_true_eq_false, if_false]
      exact getConfigLoop_eq ..
    · simp only [ne_eq, hret, not_false_eq_true, if_true]
      rfl

/-! ## One attempt -/

theorem tableName_storeEntry (c : UpdateClient) (e : ConfigEntry) (o : StoreOutcome) :
    (c.storeEntry e o).tableName = c.tableName := by
  unfold storeEntry
  split <;> rfl

@[simp] theorem storedName_storeEntry (c : UpdateClient) (e : ConfigEntry) (o : StoreOutcome)
    (s : UInt32) : (c.storeEntry e o).storedName s = c.storedName s :=
  congrFun (tableName_storeEntry c e o) _

theorem tableName_storeAll (c : UpdateClient) (as : List Attempt) :
    (c.storeAll as).tableName = c.tableName := by
  induction as generalizing c with
  | nil => rfl
  | cons a as ih => exact (ih _).trans (tableName_storeEntry ..)

theorem tableName_inj {c : UpdateClient} {ds es : List Char} :
    c.tableName ds = c.tableName es ↔ ds = es := by
  simp [tableName]

theorem storedName_inj {c : UpdateClient} {s t : UInt32} :
    c.storedName s = c.storedName t ↔ s = t := by
  rw [storedName, storedName, tableName_inj, hexPadded_inj, UInt32.toNat_inj]

/-- The two names of a server type agree when it has eight digits, and only then. -/
theorem loadedName_eq_storedName_iff {c : UpdateClient} {s t : UInt32} :
    c.loadedName s = c.storedName t ↔ s = t ∧ 2 ^ 28 ≤ s.toNat := by
  rw [loadedName, storedName, tableName_inj, hex_eq_hexPadded_iff (by decide),
    UInt32.toNat_inj]
  rfl

end UpdateClient

/-- What is kept for one server type. -/
structure Kept where
  version : Option UInt32
  file : Option (List UInt8)

/-- One attempt for the server type; what is not configured is not stored. -/
def Kept.store (k : Kept) (a : Attempt) : Kept :=
  match k.version with
  | none => k
  | some _ => ⟨some a.1.version, storeFile k.file (cString a.1.config) a.2⟩

namespace UpdateClient

/-- What the client and its host keep for a server type. -/
def kept (c : UpdateClient) (s : UInt32) : Kept :=
  ⟨c.mapConfigVersion.find? s, c.files (c.storedName s)⟩

/-- An attempt for one server type leaves the others alone. -/
theorem kept_storeEntry (c : UpdateClient) (e : ConfigEntry) (o : StoreOutcome)
    (s : UInt32) :
    (c.storeEntry e o).kept s = if e.serverType = s then (c.kept s).store (e, o) else c.kept s := by
  cases hfind : c.mapConfigVersion.find? e.serverType with
  | none =>
    have hsame : c.storeEntry e o = c := by simp [storeEntry, hfind]
    rw [hsame]
    split
    next hs =>
      subst hs
      simp [Kept.store, kept, hfind]
    next => rfl
  | some old =>
    by_cases hs : e.serverType = s
    · subst hs
      simp [Kept.store, kept, storeEntry, hfind, StdMap.find?_put, storedName, tableName]
    · have hname : c.storedName s ≠ c.storedName e.serverType :=
        fun heq => hs (storedName_inj.mp heq).symm
      have hkey : s ≠ e.serverType := fun heq => hs heq.symm
      simp only [kept, storedName_storeEntry, if_neg hs]
      simp [storeEntry, hfind, StdMap.find?_put, hkey, Function.update_of_ne hname]

/-- What is kept for a server type follows from the attempts for it. -/
theorem kept_storeAll (c : UpdateClient) (as : List Attempt) (s : UInt32) :
    (c.storeAll as).kept s = (forServer s as).foldl Kept.store (c.kept s) := by
  induction as generalizing c with
  | nil => rfl
  | cons a as ih =>
    have hrest := ih (c.storeEntry a.1 a.2)
    rw [kept_storeEntry] at hrest
    by_cases hs : a.1.serverType = s
    · simp only [forServer, hs, decide_true, List.filter_cons_of_pos, List.foldl_cons]
      simp only [hs, if_true] at hrest
      exact hrest
    · simp only [forServer, hs, decide_false, List.filter_cons, Bool.false_eq_true, if_false]
      rw [if_neg hs] at hrest
      exact hrest

end UpdateClient

/-! ## What a run of attempts leaves -/

namespace Kept

variable {k : Kept} {as : List Attempt} {a : Attempt}

theorem version_store (h : k.version ≠ none) : (k.store a).version = some a.1.version := by
  unfold store
  split
  next hnone => exact absurd hnone h
  next => rfl

theorem file_store (h : k.version ≠ none) :
    (k.store a).file = storeFile k.file (cString a.1.config) a.2 := by
  unfold store
  split
  next hnone => exact absurd hnone h
  next => rfl

theorem version_foldl_store (h : k.version ≠ none) (as : List Attempt) :
    (as.foldl store k).version ≠ none := by
  induction as generalizing k with
  | nil => exact h
  | cons a as ih =>
    apply ih
    rw [version_store h]
    simp

theorem file_foldl_store (h : k.version ≠ none)
    (has : ∀ a ∈ as, (0 : UInt8) ∉ a.1.config) :
    (as.foldl store k).file = contents k.file as := by
  induction as generalizing k with
  | nil => rfl
  | cons a as ih =>
    have hversion : (k.store a).version ≠ none := by simp [version_store h]
    have hconfig : cString a.1.config = a.1.config := cString_of_not_mem (has a (.head _))
    have hrest := ih hversion fun b hb => has b (.tail _ hb)
    rw [List.foldl_cons, hrest, file_store h, hconfig]
    rfl

end Kept

theorem zero_not_mem_attempts {outs : ℕ → StoreOutcome} {data : ℕ → UInt8} {len : ℕ}
    {s : UInt32} {a : Attempt} (ha : a ∈ forServer s (attempts outs data len)) :
    (0 : UInt8) ∉ a.1.config := by
  have hmem : a.1 ∈ (attempts outs data len).map Prod.fst :=
    List.mem_map_of_mem (List.mem_of_mem_filter ha)
  rw [attempts, map_fst_withOutcomes] at hmem
  exact zero_not_mem_configEntries hmem

/-! ## A version stands for a file -/

/-- For the last entry of every known server type: the version of the response is recorded
only if the file has exactly the configuration of the response, and otherwise the version
is the old one. -/
def RecordsStored (before after : UpdateClient) (es : List ConfigEntry) : Prop :=
  ∀ (s old : UInt32) (earlier : List ConfigEntry) (e : ConfigEntry),
    before.mapConfigVersion.find? s = some old →
    (es.filter fun e => e.serverType = s) = earlier ++ [e] →
      (after.mapConfigVersion.find? s = some e.version →
        after.files (after.storedName s) = some e.config) ∧
      (after.mapConfigVersion.find? s ≠ some e.version →
        after.mapConfigVersion.find? s = some old)

/-- The client records no version that it did not store if and only if the last attempt
for every known server type leaves exactly the configuration in the file: whatever it did
not write was there, in the file as the earlier attempts had left it. -/
theorem recordsStored_iff (c : UpdateClient) (outs : ℕ → StoreOutcome) (data : ℕ → UInt8)
    (len : ℕ) :
    RecordsStored c (c.onGetConfigInfoRsp outs data len).2 (configEntries data len) ↔
      ∀ (s : UInt32) (earlier : List Attempt) (e : ConfigEntry) (o : StoreOutcome),
        c.mapConfigVersion.find? s ≠ none →
        forServer s (attempts outs data len) = earlier ++ [(e, o)] →
          StoresWhole (contents (c.files (c.storedName s)) earlier) e.config o := by
  have hkept (s : UInt32) (earlier : List Attempt) (a : Attempt)
      (hs : c.mapConfigVersion.find? s ≠ none)
      (has : forServer s (attempts outs data len) = earlier ++ [a]) :
      ((c.onGetConfigInfoRsp outs data len).2.kept s).version = some a.1.version ∧
        ((c.onGetConfigInfoRsp outs data len).2.kept s).file =
          storeFile (contents (c.files (c.storedName s)) earlier) a.1.config a.2 := by
    have hzero : ∀ b ∈ earlier ++ [a], (0 : UInt8) ∉ b.1.config := by
      rw [← has]
      exact fun b hb => zero_not_mem_attempts hb
    have hrun := UpdateClient.kept_storeAll c (attempts outs data len) s
    rw [has, List.foldl_append, List.foldl_cons, List.foldl_nil] at hrun
    have hversion := Kept.version_foldl_store (k := c.kept s) hs earlier
    rw [UpdateClient.onGetConfigInfoRsp_snd, hrun, Kept.version_store hversion,
      Kept.file_store hversion, cString_of_not_mem (hzero a (by simp))]
    rw [Kept.file_foldl_store hs fun b hb => hzero b (by simp [hb])]
    exact ⟨rfl, rfl⟩
  constructor
  · intro hrec s earlier e o hs has
    obtain ⟨hversion, hfile⟩ := hkept s earlier (e, o) hs has
    obtain ⟨old, hold⟩ := Option.ne_none_iff_exists'.mp hs
    have hentries := congrArg (List.map Prod.fst) has
    rw [map_fst_forServer, attempts, map_fst_withOutcomes, List.map_append] at hentries
    have hwhole := (hrec s old _ e hold hentries).1 hversion
    exact storeFile_eq_iff.mp (hfile.symm.trans hwhole)
  · intro hstores s old earlier e hold hentries
    have hs : c.mapConfigVersion.find? s ≠ none := by simp [hold]
    have hmap : (forServer s (attempts outs data len)).map Prod.fst = earlier ++ [e] := by
      rw [map_fst_forServer, attempts, map_fst_withOutcomes, hentries]
    obtain ⟨before, last, has, rfl, hlast⟩ := List.map_eq_append_iff.mp hmap
    obtain ⟨a, rfl, rfl⟩ := List.map_eq_singleton_iff.mp hlast
    obtain ⟨hversion, hfile⟩ := hkept s before a hs has
    have hwhole := storeFile_eq_iff.mpr (hstores s before a.1 a.2 hs has)
    exact ⟨fun _ => hfile.trans hwhole, fun hne => absurd hversion hne⟩

/-- The packet of a response with one entry. -/
def oneEntryRsp (e : ConfigEntry) : List UInt8 :=
  let body := be 2 1 ++ be 4 e.serverType.toNat ++ be 4 e.version.toNat ++ e.config ++ [0]
  let h : MsgHeader := { mainCmd := 0x0702 }
  h.bytes (msgHeaderLen + body.length + 1) ++ body ++ [eot]

/-- A client that has version 3 for a server type, on a host without files. -/
def newHost (s : UInt32) : UpdateClient where
  mapConfigVersion := StdMap.empty.put s 3
  routeTableBasePath := ['e']
  routeTablePrefix := ['r']
  files := fun _ => none

/-- The file cannot be opened, and the version is recorded all the same. -/
theorem not_recordsStored_openFail :
    ¬ ∀ (c : UpdateClient) (outs : ℕ → StoreOutcome) (data : ℕ → UInt8) (len : ℕ),
      RecordsStored c (c.onGetConfigInfoRsp outs data len).2 (configEntries data len) := by
  intro hall
  let bytes := oneEntryRsp ⟨1, 5, [60, 47, 62]⟩
  have hrec := hall (newHost 1) (fun _ => .openFail) (fun i => bytes.getD i 0) bytes.length
    1 3 [] ⟨1, 5, [60, 47, 62]⟩ (by decide +kernel) (by decide +kernel)
  have hfile := hrec.1 (by decide +kernel)
  exact absurd hfile (by decide +kernel)

/-! ## What the next poll asks for -/

/-- The server types and versions of the answer to a poll. -/
def unPackVersions : ℕ → UnPacker → List (UInt32 × UInt32)
  | 0, _ => []
  | n + 1, u =>
      let (servType, u) := u.unPackDWord
      let (version, u) := u.unPackDWord
      (servType, version) :: unPackVersions n u

namespace UpdateClient

/-- The answer names a known server type with another version than the recorded one. -/
def differs (c : UpdateClient) (p : UInt32 × UInt32) : Bool :=
  (c.mapConfigVersion.find? p.1).any fun v => p.2 ≠ v

theorem checkVersionLoop_eq (n : ℕ) (u : UnPacker) (c : UpdateClient)
    (serverList : List UInt32) :
    c.checkVersionLoop n u serverList =
      serverList ++ ((unPackVersions n u).filter c.differs).map Prod.fst := by
  induction n generalizing u serverList with
  | zero => simp [checkVersionLoop, unPackVersions]
  | succ n ih =>
    have hdiffers (version : UInt32) : c.differs (u.unPackDWord.1, version) =
      (c.mapConfigVersion.find? u.unPackDWord.1).any fun v => version ≠ v := rfl
    simp only [checkVersionLoop, unPackVersions, List.filter_cons]
    cases hfind : c.mapConfigVersion.find? u.unPackDWord.1 with
    | none => simp [hdiffers, hfind, ih]
    | some v =>
      by_cases hv : u.unPackDWord.2.unPackDWord.1 = v
      · simp [hdiffers, hfind, hv, ih]
      · simp [hdiffers, hfind, hv, ih]

/-- A poll asks for a known server type when the recorded version is not that of the
answer, so nothing asks again for a version that is recorded without its file. -/
theorem mem_checkVersionLoop {n : ℕ} {u : UnPacker} {c : UpdateClient} {s : UInt32} :
    s ∈ c.checkVersionLoop n u [] ↔
      ∃ version old, (s, version) ∈ unPackVersions n u ∧
        c.mapConfigVersion.find? s = some old ∧ version ≠ old := by
  simp only [checkVersionLoop_eq, List.nil_append, List.mem_map, List.mem_filter, differs,
    Option.any_eq_true, Prod.exists]
  constructor
  · rintro ⟨_, version, ⟨hmem, old, hold, hne⟩, rfl⟩
    exact ⟨version, old, hmem, hold, by simpa using hne⟩
  · rintro ⟨version, old, hmem, hold, hne⟩
    exact ⟨s, version, ⟨hmem, old, hold, by simpa using hne⟩, rfl⟩

end UpdateClient
end Spp
