import Mathlib.Data.List.TakeWhile
import Spp.Lib.Hex
import Spp.Lib.StdMap
import Spp.Proto.UnPacker

/-!
# The update client

`CDefaultUpdateClient` keeps the version of every configured server type.  It polls the
config server, asks for the tables whose versions differ, and writes what it gets to one
file for each server type.  `initconf` reads the versions back from the files.

## Main definitions

* `UpdateClient` — the versions, where the files lie, and the files of the host.
* `StoreOutcome`, `storeFile` — what `open` and `write` of one file come to.
* `UpdateClient.onGetConfigInfoRsp`, `UpdateClient.onCheckVersionRsp`,
  `UpdateClient.initconf` — the handlers.
-/

namespace Spp

/-! ## Files -/

/-- What the calls for one file come to.  `wrote n` is a `write` that takes `n` bytes, or
all it is given when that is less. -/
inductive StoreOutcome
  | openFail
  | writeFail
  | wrote (n : ℕ)
  deriving DecidableEq

/-- A file that is opened with `O_WRONLY | O_CREAT` and written from its start. -/
def overwrite (old new : List UInt8) : List UInt8 := new ++ old.drop new.length

/-- What `open` and `write` make of a file, where `none` is a file that is not there. -/
def storeFile (f : Option (List UInt8)) (bytes : List UInt8) :
    StoreOutcome → Option (List UInt8)
  | .openFail => f
  | .writeFail => some (f.getD [])
  | .wrote n => some (overwrite (f.getD []) (bytes.take n))

/-- The file ends up with exactly `bytes`: what was not written was there before. -/
def StoresWhole (f : Option (List UInt8)) (bytes : List UInt8) : StoreOutcome → Prop
  | .openFail => f = some bytes
  | .writeFail => f.getD [] = bytes
  | .wrote n => (f.getD []).drop (min n bytes.length) = bytes.drop n

theorem storeFile_eq_iff {f : Option (List UInt8)} {bytes : List UInt8} {o : StoreOutcome} :
    storeFile f bytes o = some bytes ↔ StoresWhole f bytes o := by
  cases o with
  | openFail => rfl
  | writeFail => simp [storeFile, StoresWhole]
  | wrote n =>
    simp only [storeFile, StoresWhole, overwrite, Option.some.injEq, List.length_take]
    constructor
    · intro heq
      have hsplit := heq.trans (List.take_append_drop n bytes).symm
      exact List.append_cancel_left hsplit
    · intro hrest
      rw [hrest, List.take_append_drop]

/-- What `strlen` and `c_str` make of a string. -/
def cString (s : List UInt8) : List UInt8 := s.takeWhile (· ≠ 0)

theorem cString_of_not_mem {s : List UInt8} (h : (0 : UInt8) ∉ s) : cString s = s := by
  rw [cString, List.takeWhile_eq_self_iff]
  intro b hb
  simp only [ne_eq, decide_eq_true_eq]
  rintro rfl
  exact h hb

/-! ## The state -/

/-- `CDefaultUpdateClient`, with the files of the host it runs on. -/
structure UpdateClient where
  mapConfigVersion : StdMap UInt32 UInt32
  routeTableBasePath : List Char
  routeTablePrefix : List Char
  files : List Char → Option (List UInt8)

/-- What a response says of one server type. -/
structure ConfigEntry where
  serverType : UInt32
  version : UInt32
  config : List UInt8
  deriving DecidableEq

/-- The configuration that `initconf` reads; `groups` are the server types. -/
structure RouteConf where
  basepath : List Char
  tablePrefix : List Char
  groups : List UInt32

namespace UpdateClient

/-- The name of a file; `digits` is the server type as it is printed.  The path and the
prefix are those of the host's own configuration, and the buffers hold the whole name. -/
def tableName (c : UpdateClient) (digits : List Char) : List Char :=
  c.routeTableBasePath ++ '/' :: c.routeTablePrefix ++ '_' :: digits ++ ['.', 'x', 'm', 'l']

/-- The name that `OnGetConfigInfoRsp` builds, with `"%s/%s_%08x.xml"`. -/
def storedName (c : UpdateClient) (serverType : UInt32) : List Char :=
  c.tableName (hexPadded 8 serverType.toNat)

/-- The name that `initconf` builds, with `"%s/%s_%x.xml"`. -/
def loadedName (c : UpdateClient) (servType : UInt32) : List Char :=
  c.tableName (hex servType.toNat)

/-- The body of the loop of `OnGetConfigInfoRsp`: the version first, then the file. -/
def storeEntry (c : UpdateClient) (e : ConfigEntry) (o : StoreOutcome) : UpdateClient :=
  match c.mapConfigVersion.find? e.serverType with
  | none => c
  | some _ =>
      let buf := c.storedName e.serverType
      { c with
        mapConfigVersion := c.mapConfigVersion.put e.serverType e.version
        files := Function.update c.files buf (storeFile (c.files buf) (cString e.config) o) }

end UpdateClient

/-! ## The handlers -/

/-- The three reads for one server type of a response. -/
def unPackEntry (u : UnPacker) : ConfigEntry × UnPacker :=
  let (serverType, u) := u.unPackDWord
  let (version, u) := u.unPackDWord
  let (config, u) := u.unPackString
  (⟨serverType, version, config⟩, u)

namespace UpdateClient

/-- The loop of `OnGetConfigInfoRsp`; `outs` has the outcomes still to come. -/
def getConfigLoop : ℕ → UnPacker → (ℕ → StoreOutcome) → UpdateClient → UpdateClient
  | 0, _, _, c => c
  | n + 1, u, outs, c =>
      let (e, u) := unPackEntry u
      getConfigLoop n u (fun i => outs (i + 1)) (c.storeEntry e (outs 0))

/-- `OnGetConfigInfoRsp`; `outs i` is the outcome for the server type at place `i`. -/
def onGetConfigInfoRsp (c : UpdateClient) (outs : ℕ → StoreOutcome) (data : ℕ → UInt8)
    (len : ℕ) : ℤ × UpdateClient :=
  let (ret, u) := UnPacker.fresh.init data len
  if ret ≠ retOk then (-1, c)
  else
    let (serverNum, u) := u.unPackWord
    (0, c.getConfigLoop serverNum.toNat u outs)

/-- The loop of `OnCheckVersionRsp`, which collects `ServerList`. -/
def checkVersionLoop : ℕ → UnPacker → UpdateClient → List UInt32 → List UInt32
  | 0, _, _, serverList => serverList
  | n + 1, u, c, serverList =>
      let (servType, u) := u.unPackDWord
      let (version, u) := u.unPackDWord
      match c.mapConfigVersion.find? servType with
      | none => checkVersionLoop n u c serverList
      | some v =>
          if version ≠ v then checkVersionLoop n u c (serverList ++ [servType])
          else checkVersionLoop n u c serverList

/-- `OnCheckVersionRsp`: the server types whose configuration it asks for. -/
def onCheckVersionRsp (c : UpdateClient) (data : ℕ → UInt8) (len : ℕ) :
    Option (List UInt32) :=
  let (ret, u) := UnPacker.fresh.init data len
  if ret ≠ retOk then none
  else
    let (serverNum, u) := u.unPackWord
    some (c.checkVersionLoop serverNum.toNat u [])

end UpdateClient

/-- The version of a file for `initconf`, 0 where `GetRouteTableVersion` fails. -/
def tableVersion (getRouteTableVersion : List UInt8 → Option UInt32)
    (f : Option (List UInt8)) : UInt32 :=
  (f.bind getRouteTableVersion).getD 0

namespace UpdateClient

variable (getRouteTableVersion : List UInt8 → Option UInt32)

/-- One turn of the loop over the groups. -/
def loadGroup (c : UpdateClient) (servType : UInt32) : UpdateClient :=
  let version := tableVersion getRouteTableVersion (c.files (c.loadedName servType))
  { c with mapConfigVersion := c.mapConfigVersion.put servType version }

/-- What `initconf` does with the route tables; `none` is a configuration without them. -/
def initconf (c : UpdateClient) : Option RouteConf → UpdateClient
  | none => c
  | some conf =>
      conf.groups.foldl (loadGroup getRouteTableVersion)
        { c with
          routeTableBasePath := conf.basepath
          routeTablePrefix := conf.tablePrefix }

end UpdateClient
end Spp
