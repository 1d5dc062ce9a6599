import Spp.Update.Stored

/-!
# Route tables after a restart

`OnGetConfigInfoRsp` writes the file of a server type under eight hexadecimal digits, and
`initconf` reads the one under as many digits as the type has.  The two are one file for
the types from `0x10000000` on only.

## Main definitions

* `Response`, `UpdateClient.onResponses` — a run of responses.
* `lastStored`, `storedConfigs` — what the run stores for a server type.
* `overwriteAll` — a file after several configurations were written to it.
* `UpdateClient.FoundAgain` — `initconf` records the versions that were stored.
-/

namespace Spp

/-! ## Runs -/

/-- A response, with the outcomes of the calls it leads to. -/
structure Response where
  outs : ℕ → StoreOutcome
  data : ℕ → UInt8
  len : ℕ

/-- What is tried in a run. -/
def allAttempts (rs : List Response) : List Attempt :=
  rs.flatMap fun r => attempts r.outs r.data r.len

/-- The bytes of a file after whole configurations were written to it. -/
def overwriteAll (old : List UInt8) (configs : List (List UInt8)) : List UInt8 :=
  configs.foldl overwrite old

namespace UpdateClient

/-- The responses are handled one after the other. -/
def onResponses (c : UpdateClient) (rs : List Response) : UpdateClient :=
  rs.foldl (fun c r => (c.onGetConfigInfoRsp r.outs r.data r.len).2) c

/-- The configurations that the run stores for a server type. -/
def storedConfigs (c : UpdateClient) (rs : List Response) (s : UInt32) :
    List (List UInt8) :=
  if c.mapConfigVersion.find? s = none then []
  else ((rs.flatMap fun r => configEntries r.data r.len).filter
    fun e => e.serverType = s).map ConfigEntry.config

/-- Every `open` and every `write` of the run completes. -/
def StoresAll (c : UpdateClient) (rs : List Response) : Prop :=
  ∀ a ∈ allAttempts rs, c.mapConfigVersion.find? a.1.serverType ≠ none →
    ∃ n, a.2 = .wrote n ∧ a.1.config.length ≤ n

/-- The client after `initconf`: it has a map `m`, empty after a restart and the one of the
run on a reload, and the server types `groups` are configured. -/
def restarted (getRouteTableVersion : List UInt8 → Option UInt32) (c : UpdateClient)
    (rs : List Response) (m : StdMap UInt32 UInt32) (groups : List UInt32) : UpdateClient :=
  initconf getRouteTableVersion { c.onResponses rs with mapConfigVersion := m }
    (some ⟨c.routeTableBasePath, c.routeTablePrefix, groups⟩)

/-- For every configured server type the version is that of the configuration stored
last. -/
def FoundAgain (getRouteTableVersion : List UInt8 → Option UInt32) (c : UpdateClient)
    (rs : List Response) (m : StdMap UInt32 UInt32) (groups : List UInt32) : Prop :=
  ∀ s ∈ groups, ∀ (config : List UInt8) (version : UInt32),
    (c.storedConfigs rs s).getLast? = some config →
    getRouteTableVersion config = some version →
      (c.restarted getRouteTableVersion rs m groups).mapConfigVersion.find? s = some version

/-! ## The files after a run -/

variable {c : UpdateClient} {rs : List Response} {s : UInt32}

theorem onResponses_eq (c : UpdateClient) (rs : List Response) :
    c.onResponses rs = c.storeAll (allAttempts rs) := by
  induction rs generalizing c with
  | nil => rfl
  | cons r rs ih =>
    have hrest := ih (c.storeAll (attempts r.outs r.data r.len))
    rw [allAttempts, List.flatMap_cons, storeAll, List.foldl_append]
    rw [onResponses, List.foldl_cons, onGetConfigInfoRsp_snd]
    exact hrest

/-- Attempts touch no other file than those of the server types. -/
theorem files_storeAll {c : UpdateClient} {as : List Attempt} {name : List Char}
    (h : ∀ t, name ≠ c.storedName t) : (c.storeAll as).files name = c.files name := by
  induction as generalizing c with
  | nil => rfl
  | cons a as ih =>
    have hrest := ih (c := c.storeEntry a.1 a.2) (by simpa using h)
    refine hrest.trans ?_
    unfold storeEntry
    split
    · rfl
    · exact Function.update_of_ne (h _) _ _

theorem map_config_forServer (hs : c.mapConfigVersion.find? s ≠ none) :
    (forServer s (allAttempts rs)).map (fun a => a.1.config) = c.storedConfigs rs s := by
  have hentries : (allAttempts rs).map Prod.fst =
      rs.flatMap fun r => configEntries r.data r.len := by
    rw [allAttempts, List.map_flatMap]
    simp only [attempts, map_fst_withOutcomes]
  rw [storedConfigs, if_neg hs, ← hentries, ← map_fst_forServer, List.map_map]
  rfl

theorem storeFile_whole {f : Option (List UInt8)} {bytes : List UInt8} {n : ℕ}
    (h : bytes.length ≤ n) :
    storeFile f bytes (.wrote n) = some (overwrite (f.getD []) bytes) := by
  rw [storeFile, List.take_of_length_le h]

theorem contents_whole {f : Option (List UInt8)} {as : List Attempt} (hne : as ≠ [])
    (has : ∀ a ∈ as, ∃ n, a.2 = .wrote n ∧ a.1.config.length ≤ n) :
    contents f as = some (overwriteAll (f.getD []) (as.map fun a => a.1.config)) := by
  induction as generalizing f with
  | nil => exact absurd rfl hne
  | cons a as ih =>
    obtain ⟨n, hout, hle⟩ := has a (.head _)
    have hfirst := storeFile_whole (f := f) hle
    rw [contents, List.foldl_cons, hout, hfirst]
    cases as with
    | nil => rfl
    | cons b bs => exact ih (by simp) fun a ha => has a (.tail _ ha)

/-- The file of a server type after a run in which every call completes. -/
theorem file_onResponses (hs : c.mapConfigVersion.find? s ≠ none)
    (hall : c.StoresAll rs) (hne : c.storedConfigs rs s ≠ []) :
    (c.onResponses rs).files (c.storedName s) =
      some (overwriteAll ((c.files (c.storedName s)).getD []) (c.storedConfigs rs s)) := by
  have hzero : ∀ a ∈ forServer s (allAttempts rs), (0 : UInt8) ∉ a.1.config := by
    intro a ha
    obtain ⟨hmem, hserver⟩ := List.mem_filter.mp ha
    obtain ⟨r, -, hr⟩ := List.mem_flatMap.mp hmem
    exact zero_not_mem_attempts (s := s) (List.mem_filter.mpr ⟨hr, hserver⟩)
  have hwhole : ∀ a ∈ forServer s (allAttempts rs),
      ∃ n, a.2 = .wrote n ∧ a.1.config.length ≤ n := by
    intro a ha
    obtain ⟨hmem, hserver⟩ := List.mem_filter.mp ha
    rw [decide_eq_true_eq] at hserver
    exact hall a hmem (by rwa [hserver])
  have hattempts : forServer s (allAttempts rs) ≠ [] := by
    intro hnil
    rw [← map_config_forServer hs, hnil] at hne
    exact hne rfl
  have hfile := congrArg Kept.file (kept_storeAll c (allAttempts rs) s)
  rw [Kept.file_foldl_store hs hzero, contents_whole hattempts hwhole,
    map_config_forServer hs] at hfile
  rw [onResponses_eq]
  simpa only [kept, storedName, tableName_storeAll] using hfile

/-! ## The versions after `initconf` -/

variable {getRouteTableVersion : List UInt8 → Option UInt32}

theorem find?_loadGroups (c : UpdateClient) (groups : List UInt32) (s : UInt32) :
    (groups.foldl (loadGroup getRouteTableVersion) c).mapConfigVersion.find? s =
      if s ∈ groups then some (tableVersion getRouteTableVersion (c.files (c.loadedName s)))
      else c.mapConfigVersion.find? s := by
  induction groups generalizing c with
  | nil => simp
  | cons t groups ih =>
    rw [List.foldl_cons, ih]
    by_cases hmem : s ∈ groups
    · rw [if_pos hmem, if_pos (.tail _ hmem)]
      rfl
    · by_cases hst : s = t
      · subst hst
        simp [hmem, loadGroup, StdMap.find?_put]
      · simp [hmem, hst, loadGroup, StdMap.find?_put]

theorem find?_restarted {m : StdMap UInt32 UInt32} {groups : List UInt32} (hs : s ∈ groups) :
    (c.restarted getRouteTableVersion rs m groups).mapConfigVersion.find? s =
      some (tableVersion getRouteTableVersion ((c.onResponses rs).files (c.loadedName s))) := by
  rw [restarted, initconf, find?_loadGroups, if_pos hs]
  rfl

/-! ## What is found again -/

/-- After a run in which every call completes, `initconf` records the versions that were
stored if and only if, for every server type of eight digits, what the older contents of
the file leave behind the configuration does not change its version, and, for every other
one, the file under its shorter name has that version already. -/
theorem foundAgain_iff (getRouteTableVersion : List UInt8 → Option UInt32) (c : UpdateClient)
    (rs : List Response) (m : StdMap UInt32 UInt32) (groups : List UInt32)
    (hall : c.StoresAll rs) :
    c.FoundAgain getRouteTableVersion rs m groups ↔
      ∀ s ∈ groups, ∀ (config : List UInt8) (version : UInt32),
        (c.storedConfigs rs s).getLast? = some config →
        getRouteTableVersion config = some version →
          (2 ^ 28 ≤ s.toNat → tableVersion getRouteTableVersion (some (overwriteAll
            ((c.files (c.storedName s)).getD []) (c.storedConfigs rs s))) = version) ∧
          (s.toNat < 2 ^ 28 →
            tableVersion getRouteTableVersion (c.files (c.loadedName s)) = version) := by
  refine forall₂_congr fun s hs => forall₄_congr fun config version hlast _ => ?_
  rw [find?_restarted hs, Option.some.injEq]
  have hne : c.storedConfigs rs s ≠ [] := by
    intro hnil
    rw [hnil] at hlast
    cases hlast
  have hknown : c.mapConfigVersion.find? s ≠ none := by
    intro hnone
    rw [storedConfigs, if_pos hnone] at hne
    exact hne rfl
  by_cases hlong : 2 ^ 28 ≤ s.toNat
  · have hname : c.loadedName s = c.storedName s :=
      loadedName_eq_storedName_iff.mpr ⟨rfl, hlong⟩
    rw [hname, file_onResponses hknown hall hne]
    constructor
    · intro hversion
      exact ⟨fun _ => hversion, fun hlt => absurd hlt (Nat.not_lt.mpr hlong)⟩
    · intro hcond
      exact hcond.1 hlong
  · have hname (t : UInt32) : c.loadedName s ≠ c.storedName t :=
      fun heq => hlong (loadedName_eq_storedName_iff.mp heq).2
    rw [onResponses_eq, files_storeAll hname]
    constructor
    · intro hversion
      exact ⟨fun hle => absurd hle hlong, fun _ => hversion⟩
    · intro hcond
      exact hcond.2 (Nat.lt_of_not_le hlong)

/-- The configuration that says version 5, and nothing else. -/
def versionFive : List UInt8 :=
  ['<', 'r', 'o', 'u', 't', 'e', 't', 'a', 'b', 'l', 'e', ' ', 'v', 'e', 'r', 's', 'i', 'o',
    'n', '=', '"', '5', '"', '/', '>'].map fun ch => .ofNat ch.toNat

/-- Reads the version where a file begins as `versionFive` does. -/
def firstVersion (f : List UInt8) : Option UInt32 :=
  if f.take 21 = versionFive.take 21 then
    some (.ofNat (((f.drop 21).takeWhile fun b => 48 ≤ b ∧ b ≤ 57).foldl
      (fun n b => 10 * n + (b.toNat - 48)) 0))
  else none

/-- One response for a server type, stored as a whole. -/
def storedRsp (s : UInt32) : Response where
  outs := fun _ => .wrote 25
  data := fun i => (oneEntryRsp ⟨s, 5, versionFive⟩).getD i 0
  len := (oneEntryRsp ⟨s, 5, versionFive⟩).length

theorem storesAll_storedRsp {c : UpdateClient} {s : UInt32}
    (h : allAttempts [storedRsp s] = [(⟨s, 5, versionFive⟩, .wrote 25)]) :
    c.StoresAll [storedRsp s] := by
  intro a ha _
  rw [h, List.mem_singleton] at ha
  subst ha
  exact ⟨25, rfl, (by decide : versionFive.length ≤ 25)⟩

/-- The version of a stored table of server type `0x10000001` is found again. -/
theorem foundAgain_eightDigits :
    (newHost 0x10000001).FoundAgain firstVersion [storedRsp 0x10000001] .empty
      [0x10000001] := by
  refine (foundAgain_iff firstVersion _ _ .empty _
    (storesAll_storedRsp (by decide +kernel))).mpr ?_
  intro s hs config version hlast hversion
  rw [List.mem_singleton] at hs
  subst hs
  have hconfig : config = versionFive :=
    (Option.some.inj ((by decide +kernel : ((newHost 0x10000001).storedConfigs
      [storedRsp 0x10000001] 0x10000001).getLast? = some versionFive).symm.trans hlast)).symm
  subst hconfig
  have hfive : version = 5 :=
    (Option.some.inj ((by decide +kernel : firstVersion versionFive = some 5).symm.trans
      hversion)).symm
  subst hfive
  exact ⟨fun _ => by decide +kernel, fun hlt => absurd hlt (by decide)⟩

/-- The table of server type 1 is stored in `r_00000001.xml` and looked for in `r_1.xml`. -/
theorem not_foundAgain_oneDigit :
    ¬ ∀ (getRouteTableVersion : List UInt8 → Option UInt32) (c : UpdateClient)
      (rs : List Response) (m : StdMap UInt32 UInt32) (groups : List UInt32),
      c.StoresAll rs → c.FoundAgain getRouteTableVersion rs m groups := by
  intro hall
  have hfound := hall firstVersion (newHost 1) [storedRsp 1] .empty [1]
    (storesAll_storedRsp (by decide +kernel)) 1 (by decide) versionFive 5
    (by decide +kernel) (by decide +kernel)
  exact absurd hfound (by decide +kernel)

end UpdateClient
end Spp
