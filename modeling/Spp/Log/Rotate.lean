import Spp.Lib.Run
import Spp.Log.Format
import Mathlib.Data.Set.Card
import Mathlib.Order.Interval.Finset.Nat

/-!
# Rotating the log

A full log is renamed to its name with a number behind, and a new one is begun.  With one of the
cyclic types the numbers go from 1 to `max_file_no_` and around; a restart goes on at the first
free number, or at the oldest file when there is none.  A change of the day or hour begins a log
with a new name, without a number for it: `shift_file` goes on with 0, or with the number that
would have followed under the old name when the log is full as well.

One process uses the directory, and it can create, rename and remove files there; the paths have
less than `MAX_PATH_LEN` bytes.  The clock, `localtime_r` and what the kernel gives a file are
parameters.  In the build with `_MP_MODE`, `shift_file` asks the kernel for the size of the log, and
renames it only when the log is the file that it has open.

## Main definitions

* `Config`, `Logger`, `Dir` — the fields of a `CLog`, and the directory.
* `fileName`, `openFile`, `initCurFileNo`, `forceRename`, `statLog`, `shiftFile`, `logOpen` — the
  functions.
* `Event`, `step`, `started` — writes and restarts.
* `Closed`, `Fits` — sets of numbers in use, and the numbers that may follow.
* `InRange`, `OverwritesLast` — the claim on a state and on a step.
* `GoesOn` — the condition on a step.
-/

namespace Spp.Log

open Printf

/-- `LOG_TYPE`. -/
inductive LogType
  | cycle
  | daily
  | hourly
  | cycleDaily
  | cycleHourly
  deriving DecidableEq

def LogType.IsCycle (type : LogType) : Prop :=
  type = .cycle ∨ type = .cycleDaily ∨ type = .cycleHourly

instance (type : LogType) : Decidable type.IsCycle := inferInstanceAs (Decidable (_ ∨ _))

/-- What `log_open` is given, whether the build has `_MP_MODE`, the time zone, and the inode of
descriptor 0, which is open and stands for no file in `log_fd_`. -/
structure Config where
  logType : LogType
  namePrefix : List UInt8
  maxFileSizeArg : ℤ
  maxFileNo : ℤ
  mpMode : Bool
  localtime : ℤ → Tm
  stdin : ℕ

/-- `DEFAULT_MAX_FILE_SIZE`. -/
def defaultMaxFileSize : ℤ := 2 ^ 30

/-- `max_file_size_`, as `log_open` sets it. -/
def Config.maxFileSize (cfg : Config) : ℤ :=
  if cfg.maxFileSizeArg > defaultMaxFileSize then defaultMaxFileSize else cfg.maxFileSizeArg

/-- What the kernel gives a file: the inode of a new one, and `st_mtime`. -/
structure Stamp where
  ino : ℕ
  mtime : ℤ

structure LogFile extends Stamp where
  size : ℕ

/-- The log directory: the files without a number and those with one, up to some number. -/
structure Dir where
  logs : List UInt8 → Option LogFile
  rotated : List UInt8 → ℤ → Option LogFile
  top : ℕ
  le_top : ∀ name n, (rotated name n).isSome → n ≤ top

def Dir.empty : Dir := ⟨fun _ => none, fun _ _ => none, 0, by simp⟩

/-- The fields of a `CLog` that change; `logFd` is the inode of the file that is open, if one
is. -/
structure Logger where
  logFd : Option ℕ
  curFileSize : ℤ
  curFileNo : ℤ
  preTime : ℤ
  filename : List UInt8

/-- A process with its directory. -/
structure State where
  log : Logger
  dir : Dir

namespace Config

variable (cfg : Config)

/-- `timestr`: the digits of the time, up to the day or the hour. -/
def timestr (time : ℤ) : List UInt8 :=
  let tm := cfg.localtime time
  let full := zeroPadded 4 (tm.tmYear + 1900).toInt ++ zeroPadded 2 (tm.tmMon + 1).toInt ++
    zeroPadded 2 tm.tmMday.toInt ++ zeroPadded 2 tm.tmHour.toInt ++ zeroPadded 2 tm.tmMin.toInt ++
    zeroPadded 2 tm.tmSec.toInt
  match cfg.logType with
  | .daily | .cycleDaily => full.take 8 ++ ascii "."
  | .hourly | .cycleHourly => full.take 10 ++ ascii "."
  | .cycle => []

/-- `log_file_name`, without the directory. -/
def fileName (time : ℤ) : List UInt8 :=
  cfg.namePrefix ++ ascii "." ++ cfg.timestr time ++ ascii "log"

/-- `open_file`, with what it returns: a size that is negative as an `int` is an error.  A new
file is stamped. -/
def openFile (s : State) (stamp : Stamp) : State × ℤ :=
  let name := cfg.fileName s.log.preTime
  let file := (s.dir.logs name).getD ⟨stamp, 0⟩
  let dir := { s.dir with logs := Function.update s.dir.logs name (some file) }
  -- the `int` keeps the low 32 bits
  if file.size % 2 ^ 32 < 2 ^ 31 then
    (⟨{ s.log with
      logFd := some file.ino, filename := name, curFileSize := file.size % 2 ^ 32 }, dir⟩, 0)
  else (⟨{ s.log with logFd := none, filename := name, curFileSize := 0 }, dir⟩, -1)

/-- The loop of `init_cur_file_no`, which ends at the first number above all files at the
latest. -/
def initLoop (dir : Dir) (name : List UInt8) : ℕ → ℤ → ℤ → ℤ → ℤ
  | 0, _, fileNo, _ => fileNo
  | fuel + 1, i, fileNo, minModifyTime =>
      match dir.rotated name i with
      | none => i
      | some file =>
          if cfg.logType.IsCycle then
            if i ≥ cfg.maxFileNo then fileNo
            else if minModifyTime = 0 ∨ file.mtime < minModifyTime then
              initLoop dir name fuel (i + 1) i file.mtime
            else initLoop dir name fuel (i + 1) fileNo minModifyTime
          else initLoop dir name fuel (i + 1) fileNo minModifyTime

/-- `init_cur_file_no`. -/
def initCurFileNo (dir : Dir) (name : List UInt8) : ℤ :=
  cfg.initLoop dir name (dir.top + 1) 1 1 0

/-- `force_rename` to the name with a number. -/
def forceRename (dir : Dir) (name : List UInt8) (no : ℤ) : Dir where
  logs := Function.update dir.logs name none
  rotated := Function.update dir.rotated name
    (Function.update (dir.rotated name) no (dir.logs name))
  top := max dir.top no.toNat
  le_top := by
    intro name' n h
    by_cases hname : name' = name
    · subst hname
      rw [Function.update_self] at h
      by_cases hno : n = no
      · omega
      · rw [Function.update_of_ne hno] at h
        have hle := dir.le_top name' n h
        omega
    · rw [Function.update_of_ne hname] at h
      have hle := dir.le_top name' n h
      omega

/-- The time asks for a new log: `new_file_no` where it does. -/
def timeShift (preTime now : ℤ) : Option ℤ :=
  let cur := cfg.localtime now
  let pre := cfg.localtime preTime
  let day := cur.tmYday ≠ pre.tmYday
  let hour := day ∨ cur.tmHour ≠ pre.tmHour
  match cfg.logType with
  | .daily => if day then some 1 else none
  | .hourly => if hour then some 1 else none
  -- the cyclic types leave the number at 0
  | .cycleDaily => if day then some 0 else none
  | .cycleHourly => if hour then some 0 else none
  | .cycle => none

/-- `new_file_no` of a full log. -/
def nextFileNo (curFileNo : ℤ) : ℤ :=
  let newFileNo := s32 (curFileNo + 1)
  if cfg.logType.IsCycle ∧ newFileNo > cfg.maxFileNo then 1 else newFileNo

/-- The size of the log, and `should_rename`: with `_MP_MODE`, what `stat` and `fstat` say. -/
def statLog (s : State) : ℤ × Bool :=
  if cfg.mpMode then
    match s.dir.logs s.log.filename with
    | none => (s.log.curFileSize, false)
    | some file =>
        if file.ino = s.log.logFd.getD cfg.stdin then (s32 file.size, true)
        else (cfg.maxFileSize, false)
  else (s.log.curFileSize, true)

/-- `shift_file`, with what it returns and the number of the file that was renamed. -/
def shiftFile (s : State) (now : ℤ) (stamp : Stamp) : State × ℤ × Option (List UInt8 × ℤ) :=
  let timeShift := cfg.timeShift s.log.preTime now
  let (size, shouldRename) := cfg.statLog s
  if timeShift = none ∧ size < cfg.maxFileSize then
    (⟨{ s.log with curFileSize := size }, s.dir⟩, 0, none)
  else
    let newFileNo :=
      if size ≥ cfg.maxFileSize then cfg.nextFileNo s.log.curFileNo else timeShift.getD 0
    let dir := if shouldRename then forceRename s.dir s.log.filename s.log.curFileNo else s.dir
    let r := cfg.openFile ⟨{ s.log with
      curFileSize := size, preTime := now, curFileNo := newFileNo }, dir⟩ stamp
    (r.1, r.2, if shouldRename then some (s.log.filename, s.log.curFileNo) else none)

/-- `log_open` in a new process. -/
def logOpen (dir : Dir) (now : ℤ) (stamp : Stamp) : State :=
  (cfg.openFile ⟨⟨none, 0, cfg.initCurFileNo dir (cfg.fileName now), now, []⟩, dir⟩ stamp).1

/-- A write counts `len` bytes and gets `written` of them into the file. -/
inductive Event
  | write (now : ℤ) (stamp : Stamp) (len : ℤ) (written : ℕ)
  | restart (now : ℤ) (stamp : Stamp)

/-- The bytes of a `write` in the directory, where the log is the file that is open. -/
def grow (log : Logger) (dir : Dir) (written : ℕ) (stamp : Stamp) : Dir :=
  let file := (dir.logs log.filename).map fun file =>
    if log.logFd = some file.ino then
      { file with size := file.size + written, mtime := stamp.mtime }
    else file
  { dir with logs := Function.update dir.logs log.filename file }

/-- A write or a restart, with the file that was renamed. -/
def step (s : State) : Event → State × Option (List UInt8 × ℤ)
  | .write now stamp len written =>
      let r := cfg.shiftFile s now stamp
      if r.2.1 < 0 then (r.1, r.2.2)
      else
        (⟨{ r.1.log with curFileSize := s32 (r.1.log.curFileSize + len) },
          grow r.1.log r.1.dir written stamp⟩, r.2.2)
  | .restart now stamp => (cfg.logOpen s.dir now stamp, none)

/-- The first process, in an empty directory. -/
def started (now : ℤ) (stamp : Stamp) : State := cfg.logOpen .empty now stamp

end Config

/-- The numbers that are in use for a name. -/
def Dir.inUse (dir : Dir) (name : List UInt8) : Set ℤ := {n | (dir.rotated name n).isSome}

instance (dir : Dir) (name : List UInt8) (n : ℤ) : Decidable (n ∈ dir.inUse name) :=
  inferInstanceAs (Decidable (_ = true))

namespace Config

variable (cfg : Config)

/-- The numbers that a name may use. -/
def numbers : Set ℤ := {n | 1 ≤ n ∧ n ≤ cfg.maxFileNo}

/-- The claim on a state. -/
structure InRange (s : State) : Prop where
  index : s.log.curFileNo ∈ cfg.numbers
  few : ∀ name, (s.dir.inUse name).encard ≤ cfg.maxFileNo.toNat

/-- The claim on a step: a rotation that overwrites a file finds all numbers in use. -/
def OverwritesLast (s : State) (e : Event) : Prop :=
  ∀ name no, (cfg.step s e).2 = some (name, no) → no ∈ s.dir.inUse name →
    cfg.numbers ⊆ s.dir.inUse name

/-! ## Numbers in use -/

/-- The numbers in use are those up to one of them, the last one of all apart. -/
structure Closed (used : Set ℤ) : Prop where
  subset : used ⊆ cfg.numbers
  below : ∀ n ∈ used, n < cfg.maxFileNo → ∀ m, 1 ≤ m → m < n → m ∈ used

/-- A number that may follow: any one when all are in use, else the first free one, or the last
one of all when none is in use. -/
def Fits (used : Set ℤ) (no : ℤ) : Prop :=
  cfg.numbers ⊆ used ∨ no ∉ used ∧
    ((∀ m, 1 ≤ m → m < no → m ∈ used) ∨ no = cfg.maxFileNo ∧ used = ∅)

/-- The condition on a step: a new day or hour finds the log full; a full log has not the number
`2 ^ 31 - 1`, and where the new log has another name or the old one keeps its own, the next number
fits. -/
def GoesOn (s : State) : Event → Prop
  | .write now _ _ _ =>
      (cfg.timeShift s.log.preTime now ≠ none → (cfg.statLog s).1 ≥ cfg.maxFileSize) ∧
        ((cfg.statLog s).1 ≥ cfg.maxFileSize → s.log.curFileNo < 2 ^ 31 - 1 ∧
          (cfg.fileName now ≠ s.log.filename ∨ (cfg.statLog s).2 = false →
            cfg.Fits (s.dir.inUse (cfg.fileName now)) (cfg.nextFileNo s.log.curFileNo)))
  | .restart _ _ => True

section
variable {cfg} {used : Set ℤ} {no : ℤ}

theorem Closed.encard_le (h : cfg.Closed used) : used.encard ≤ cfg.maxFileNo.toNat := by
  have hcast : used ⊆ (fun n : ℕ => (n : ℤ)) '' (Finset.Icc 1 cfg.maxFileNo.toNat : Set ℕ) := by
    intro n hn
    obtain ⟨hge, hle⟩ := h.subset hn
    refine ⟨n.toNat, ?_, Int.toNat_of_nonneg (by omega)⟩
    rw [Finset.mem_coe, Finset.mem_Icc]
    omega
  calc used.encard ≤ (Finset.Icc 1 cfg.maxFileNo.toNat : Set ℕ).encard :=
        (Set.encard_le_encard hcast).trans (Set.encard_image_le _ _)
    _ = cfg.maxFileNo.toNat := by
        rw [Set.encard_coe_eq_coe_finsetCard, Nat.card_Icc, Nat.add_sub_cancel]

theorem closed_empty (cfg : Config) : cfg.Closed ∅ :=
  ⟨Set.empty_subset _, fun _ h => absurd h (Set.notMem_empty _)⟩

/-- A number that fits and is in use finds all numbers in use. -/
theorem Fits.full (h : cfg.Fits used no) (hused : no ∈ used) : cfg.numbers ⊆ used := by
  rcases h with hfull | ⟨hfree, -⟩
  · exact hfull
  · exact absurd hused hfree

theorem Closed.insert (h : cfg.Closed used) (hno : no ∈ cfg.numbers) (hfit : cfg.Fits used no) :
    cfg.Closed (insert no used) := by
  refine ⟨Set.insert_subset hno h.subset, fun n hn hlt m hm hmn => ?_⟩
  rcases hn with rfl | hn
  · rcases hfit with hfull | ⟨-, hbelow | ⟨hlast, -⟩⟩
    · exact .inr (hfull ⟨hm, by omega⟩)
    · exact .inr (hbelow m hm hmn)
    · omega
  · exact .inr (h.below n hn hlt m hm hmn)

theorem mem_of_le (hbelow : ∀ m, 1 ≤ m → m < no → m ∈ used) (hused : no ∈ used) :
    ∀ m, 1 ≤ m → m ≤ no → m ∈ used := by
  intro m hm hle
  rcases hle.lt_or_eq with hlt | rfl
  · exact hbelow m hm hlt
  · exact hused

/-- Behind a free number with all below it in use, the next one is free, unless now all are in
use. -/
theorem next_free (h : cfg.Closed used) (hno : no ∈ cfg.numbers) (hfree : no ∉ used)
    (hbelow : ∀ m, 1 ≤ m → m < no → m ∈ used) (hall : ¬ cfg.numbers ⊆ insert no used) :
    no + 1 ≤ cfg.maxFileNo ∧ no + 1 ∉ insert no used := by
  have hupTo : ∀ m, 1 ≤ m → m ≤ no → m ∈ insert no used :=
    mem_of_le (fun m hm hlt => .inr (hbelow m hm hlt)) (.inl rfl)
  constructor
  · by_contra hend
    refine hall fun m hm => hupTo m hm.1 ?_
    have hle := hm.2
    omega
  · rintro (heq | hused)
    · omega
    · -- the number behind a free one is in use only at the end
      by_cases hend : no + 1 < cfg.maxFileNo
      · exact hfree (h.below _ hused hend no hno.1 (by omega))
      · refine hall fun m hm => ?_
        by_cases hmn : m ≤ no
        · exact hupTo m hm.1 hmn
        · obtain rfl : m = no + 1 := by
            have hle := hm.2
            omega
          exact .inr hused

/-- Behind a number that fits, the next one does, around the end. -/
theorem Fits.next (hfit : cfg.Fits used no) (h : cfg.Closed used) (hno : no ∈ cfg.numbers) :
    cfg.Fits (insert no used) (if no + 1 > cfg.maxFileNo then 1 else no + 1) := by
  rcases hfit with hfull | ⟨hfree, hbelow | ⟨hlast, rfl⟩⟩
  · exact .inl (hfull.trans (Set.subset_insert _ _))
  · by_cases hall : cfg.numbers ⊆ insert no used
    · exact .inl hall
    · obtain ⟨hle, hnext⟩ := next_free h hno hfree hbelow hall
      rw [if_neg (by omega)]
      refine .inr ⟨hnext, .inl fun m hm hlt => ?_⟩
      exact mem_of_le (fun m hm hlt => .inr (hbelow m hm hlt)) (.inl rfl) m hm (by omega)
  · -- the last number of all is followed by the first
    rw [if_pos (by omega)]
    by_cases hone : no = 1
    · refine .inl fun m hm => .inl ?_
      have hle := hm.2
      have hge := hm.1
      omega
    · refine .inr ⟨?_, .inl fun m hm hlt => by omega⟩
      rintro (heq | hused)
      · exact hone heq.symm
      · exact hused

end

/-! ## The directory -/

theorem mem_inUse {dir : Dir} {name : List UInt8} {n : ℤ} :
    n ∈ dir.inUse name ↔ (dir.rotated name n).isSome := Iff.rfl

/-- A file that is renamed takes its number into use. -/
theorem inUse_forceRename_self {dir : Dir} {name : List UInt8} (no : ℤ)
    (h : (dir.logs name).isSome) :
    (forceRename dir name no).inUse name = insert no (dir.inUse name) := by
  ext n
  rw [mem_inUse, forceRename]
  dsimp only
  rw [Function.update_self]
  by_cases hn : n = no
  · subst hn
    rw [Function.update_self]
    exact ⟨fun _ => .inl rfl, fun _ => h⟩
  · rw [Function.update_of_ne hn]
    exact ⟨.inr, fun hmem => hmem.resolve_left hn⟩

theorem inUse_forceRename_of_ne {dir : Dir} {name name' : List UInt8} (no : ℤ)
    (h : name' ≠ name) : (forceRename dir name no).inUse name' = dir.inUse name' := by
  ext n
  rw [mem_inUse, forceRename]
  dsimp only
  rw [Function.update_of_ne h]
  rfl

section
variable {cfg} {s : State}

/-- The log is in the directory, and it is the file that is open, if one is. -/
def Held (s : State) : Prop :=
  ∃ file, s.dir.logs s.log.filename = some file ∧ ∀ ino ∈ s.log.logFd, file.ino = ino

/-- What `open_file` leaves alone, and that the file is there. -/
theorem openFile_spec (cfg : Config) (s : State) (stamp : Stamp) :
    let s' := (cfg.openFile s stamp).1
    s'.log.curFileNo = s.log.curFileNo ∧ s'.log.preTime = s.log.preTime ∧
      s'.log.filename = cfg.fileName s.log.preTime ∧
        (∀ name, s'.dir.inUse name = s.dir.inUse name) ∧ Held s' := by
  intro s'
  have hs' : s' = (cfg.openFile s stamp).1 := rfl
  rw [openFile] at hs'
  split at hs'
  · rw [hs']
    exact ⟨rfl, rfl, rfl, fun _ => rfl, _, Function.update_self .., by simp⟩
  · rw [hs']
    exact ⟨rfl, rfl, rfl, fun _ => rfl, _, Function.update_self .., by simp⟩

/-- A log that is new, or whose size is no negative `int`, is opened. -/
theorem logFd_openFile (stamp : Stamp)
    (h : ∀ file ∈ s.dir.logs (cfg.fileName s.log.preTime), file.size % 2 ^ 32 < 2 ^ 31) :
    (cfg.openFile s stamp).1.log.logFd.isSome := by
  rw [openFile]
  dsimp only
  rw [if_pos]
  · rfl
  · cases hfile : s.dir.logs (cfg.fileName s.log.preTime) with
    | none => exact Nat.two_pow_pos 31
    | some file => exact h file hfile

theorem grow_spec (size : ℤ) (written : ℕ) (stamp : Stamp) (h : Held s) :
    let s' : State := ⟨{ s.log with curFileSize := size }, grow s.log s.dir written stamp⟩
    (∀ name, s'.dir.inUse name = s.dir.inUse name) ∧ Held s' := by
  obtain ⟨file, hfile, hfd⟩ := h
  refine ⟨fun _ => rfl, ?_⟩
  rw [Held, grow]
  dsimp only
  rw [Function.update_self, hfile]
  refine ⟨_, rfl, fun ino hino => ?_⟩
  rw [← hfd ino hino]
  dsimp only
  split
  · rfl
  · rfl

/-- The log is renamed when it is the file that is open. -/
theorem statLog_snd (cfg : Config) (h : Held s)
    (hopen : cfg.mpMode = true → s.log.logFd.isSome) : (cfg.statLog s).2 = true := by
  obtain ⟨file, hfile, hfd⟩ := h
  rw [statLog]
  split
  · next hmp =>
    obtain ⟨ino, hino⟩ := Option.isSome_iff_exists.mp (hopen hmp)
    rw [hfile]
    dsimp only
    rw [hino, Option.getD_some, if_pos (hfd ino hino)]
  · rfl

/-! ## A restart -/

/-- The loop of a restart ends at the first free number, or at some number when all are in
use. -/
theorem initLoop_spec (hcycle : cfg.logType.IsCycle) (dir : Dir) (name : List UInt8) :
    ∀ (fuel : ℕ) (i fileNo minTime : ℤ), i ∈ cfg.numbers → fileNo ∈ cfg.numbers →
      dir.top + 2 ≤ i + fuel → (∀ m, 1 ≤ m → m < i → m ∈ dir.inUse name) →
      let no := cfg.initLoop dir name fuel i fileNo minTime
      no ∈ cfg.numbers ∧ (cfg.numbers ⊆ dir.inUse name ∨
        no ∉ dir.inUse name ∧ ∀ m, 1 ≤ m → m < no → m ∈ dir.inUse name) := by
  intro fuel
  induction fuel with
  | zero =>
      intro i fileNo minTime hi _ hfuel hbelow
      exfalso
      have hlast := dir.le_top name (i - 1) (hbelow (i - 1) (by omega) (by omega))
      omega
  | succ fuel ih =>
      intro i fileNo minTime hi hfileNo hfuel hbelow
      rw [initLoop]
      cases hfile : dir.rotated name i with
      | none =>
          refine ⟨hi, .inr ⟨?_, hbelow⟩⟩
          rw [mem_inUse, hfile]
          simp
      | some file =>
          have hused : i ∈ dir.inUse name := by
            rw [mem_inUse, hfile]
            rfl
          have hupTo : ∀ m, 1 ≤ m → m < i + 1 → m ∈ dir.inUse name := fun m hm hlt =>
            mem_of_le hbelow hused m hm (by omega)
          dsimp only
          rw [if_pos hcycle]
          split
          · next hend =>
            refine ⟨hfileNo, .inl fun m hm => hupTo m hm.1 ?_⟩
            have hle := hm.2
            omega
          · next hmore =>
            have hnext : i + 1 ∈ cfg.numbers := by
              have hge := hi.1
              exact ⟨by omega, by omega⟩
            split
            · exact ih (i + 1) i file.mtime hnext hi (by push_cast at hfuel; omega) hupTo
            · exact ih (i + 1) fileNo minTime hnext hfileNo (by push_cast at hfuel; omega) hupTo

theorem initCurFileNo_spec (hcycle : cfg.logType.IsCycle) (hpos : 1 ≤ cfg.maxFileNo) (dir : Dir)
    (name : List UInt8) :
    cfg.initCurFileNo dir name ∈ cfg.numbers ∧
      cfg.Fits (dir.inUse name) (cfg.initCurFileNo dir name) := by
  have hone : (1 : ℤ) ∈ cfg.numbers := ⟨le_rfl, hpos⟩
  obtain ⟨hno, hfree⟩ := initLoop_spec hcycle dir name (dir.top + 1) 1 1 0 hone hone
    (by push_cast; omega) (fun m hm hlt => by omega)
  exact ⟨hno, hfree.imp_right fun ⟨hnot, hbelow⟩ => ⟨hnot, .inl hbelow⟩⟩

/-! ## Runs -/

variable (cfg) in
/-- The invariant: the log is there, and its number fits the numbers in use. -/
structure Inv (s : State) : Prop where
  closed : ∀ name, cfg.Closed (s.dir.inUse name)
  index : s.log.curFileNo ∈ cfg.numbers
  fits : cfg.Fits (s.dir.inUse s.log.filename) s.log.curFileNo
  held : Held s
  named : s.log.filename = cfg.fileName s.log.preTime

theorem Inv.inRange (h : cfg.Inv s) : cfg.InRange s :=
  ⟨h.index, fun name => (h.closed name).encard_le⟩

/-- Opening a log keeps what holds of the directory and of the number. -/
theorem Inv.of_openFile (hclosed : ∀ name, cfg.Closed (s.dir.inUse name))
    (hindex : s.log.curFileNo ∈ cfg.numbers)
    (hfits : cfg.Fits (s.dir.inUse (cfg.fileName s.log.preTime)) s.log.curFileNo) (stamp : Stamp) :
    cfg.Inv (cfg.openFile s stamp).1 := by
  obtain ⟨hno, htime, hname, hused, hheld⟩ := openFile_spec cfg s stamp
  refine ⟨fun name => ?_, ?_, ?_, hheld, ?_⟩
  · rw [hused]
    exact hclosed name
  · rw [hno]
    exact hindex
  · rw [hno, hname, hused]
    exact hfits
  · rw [hname, htime]

theorem Inv.logOpen (hcycle : cfg.logType.IsCycle) (hpos : 1 ≤ cfg.maxFileNo) {dir : Dir}
    (hclosed : ∀ name, cfg.Closed (dir.inUse name)) (now : ℤ) (stamp : Stamp) :
    cfg.Inv (cfg.logOpen dir now stamp) := by
  obtain ⟨hindex, hfits⟩ := initCurFileNo_spec hcycle hpos dir (cfg.fileName now)
  rw [Config.logOpen]
  exact .of_openFile hclosed hindex hfits stamp

theorem inv_started (hcycle : cfg.logType.IsCycle) (hpos : 1 ≤ cfg.maxFileNo) (now : ℤ)
    (stamp : Stamp) : cfg.Inv (cfg.started now stamp) := by
  refine Inv.logOpen hcycle hpos (fun name => ?_) now stamp
  have hempty : Dir.empty.inUse name = ∅ := by
    ext n
    simp [Dir.inUse, Dir.empty]
  rw [hempty]
  exact closed_empty cfg

theorem nextFileNo_eq (hcycle : cfg.logType.IsCycle) {no : ℤ} (hno : no ∈ cfg.numbers)
    (hlt : no < 2 ^ 31 - 1) :
    cfg.nextFileNo no = if no + 1 > cfg.maxFileNo then 1 else no + 1 := by
  have hge := hno.1
  have hint : s32 (no + 1) = no + 1 := s32_of_bounds (by omega) (by omega)
  rw [nextFileNo, hint]
  simp only [hcycle, true_and]

/-- The next number is one of those that a name may use. -/
theorem nextFileNo_mem (hcycle : cfg.logType.IsCycle) {no : ℤ} (hno : no ∈ cfg.numbers)
    (hlt : no < 2 ^ 31 - 1) : cfg.nextFileNo no ∈ cfg.numbers := by
  obtain ⟨hge, hle⟩ := hno
  rw [nextFileNo_eq hcycle ⟨hge, hle⟩ hlt]
  split
  · exact ⟨le_rfl, by omega⟩
  · exact ⟨by omega, by omega⟩

/-- `shift_file` goes on with the log, or it begins another one. -/
theorem shiftFile_cases (s : State) (now : ℤ) (stamp : Stamp)
    (h : cfg.timeShift s.log.preTime now ≠ none → (cfg.statLog s).1 ≥ cfg.maxFileSize) :
    (∃ size, cfg.shiftFile s now stamp = (⟨{ s.log with curFileSize := size }, s.dir⟩, 0, none)) ∨
      (cfg.statLog s).1 ≥ cfg.maxFileSize ∧ ∃ size,
        (cfg.shiftFile s now stamp).1 = (cfg.openFile ⟨{ s.log with
          curFileSize := size, preTime := now, curFileNo := cfg.nextFileNo s.log.curFileNo },
            if (cfg.statLog s).2 then forceRename s.dir s.log.filename s.log.curFileNo
            else s.dir⟩ stamp).1 ∧
        (cfg.shiftFile s now stamp).2.2 =
          if (cfg.statLog s).2 then some (s.log.filename, s.log.curFileNo) else none := by
  rw [shiftFile]
  dsimp only
  split
  · exact .inl ⟨_, rfl⟩
  · next hshift =>
    have hfull : (cfg.statLog s).1 ≥ cfg.maxFileSize := by
      by_contra hroom
      by_cases hnone : cfg.timeShift s.log.preTime now = none
      · exact hshift ⟨hnone, not_le.mp hroom⟩
      · exact hroom (h hnone)
    rw [if_pos hfull]
    exact .inr ⟨hfull, _, rfl, rfl⟩

/-- Another log begins in the place of a full one. -/
theorem Inv.rotate (hcycle : cfg.logType.IsCycle) (h : cfg.Inv s) (size now : ℤ) (stamp : Stamp)
    (hlt : s.log.curFileNo < 2 ^ 31 - 1)
    (hnext : cfg.fileName now ≠ s.log.filename ∨ (cfg.statLog s).2 = false →
      cfg.Fits (s.dir.inUse (cfg.fileName now)) (cfg.nextFileNo s.log.curFileNo)) :
    cfg.Inv (cfg.openFile ⟨{ s.log with
      curFileSize := size, preTime := now, curFileNo := cfg.nextFileNo s.log.curFileNo },
        if (cfg.statLog s).2 then forceRename s.dir s.log.filename s.log.curFileNo
        else s.dir⟩ stamp).1 := by
  obtain ⟨file, hfile, -⟩ := h.held
  have hself := inUse_forceRename_self s.log.curFileNo (Option.isSome_of_eq_some hfile)
  have hindex := nextFileNo_mem hcycle h.index hlt
  split
  · refine .of_openFile (fun name => ?_) hindex ?_ stamp
    · by_cases heq : name = s.log.filename
      · subst heq
        rw [hself]
        exact (h.closed _).insert h.index h.fits
      · rw [inUse_forceRename_of_ne _ heq]
        exact h.closed name
    · by_cases heq : cfg.fileName now = s.log.filename
      · rw [heq, hself, nextFileNo_eq hcycle h.index hlt]
        exact h.fits.next (h.closed _) h.index
      · rw [inUse_forceRename_of_ne _ heq]
        exact hnext (.inl heq)
  · next hkept =>
    refine .of_openFile ?_ hindex ?_ stamp
    · exact h.closed
    · exact hnext (.inr (by simpa using hkept))

/-- The bytes of a write keep the invariant. -/
theorem Inv.grow (h : cfg.Inv s) (size : ℤ) (written : ℕ) (stamp : Stamp) :
    cfg.Inv ⟨{ s.log with curFileSize := size }, grow s.log s.dir written stamp⟩ := by
  obtain ⟨hused, hheld⟩ := grow_spec size written stamp h.held
  refine ⟨fun name => ?_, h.index, ?_, hheld, h.named⟩
  · rw [hused]
    exact h.closed name
  · rw [hused]
    exact h.fits

theorem Inv.step (hcycle : cfg.logType.IsCycle) (hpos : 1 ≤ cfg.maxFileNo) (h : cfg.Inv s)
    (e : Event) (hgoes : cfg.GoesOn s e) : cfg.Inv (cfg.step s e).1 := by
  cases e with
  | write now stamp len written =>
      have hshift : cfg.Inv (cfg.shiftFile s now stamp).1 := by
        rcases shiftFile_cases s now stamp hgoes.1 with ⟨size, heq⟩ | ⟨hfull, size, heq, -⟩
        · rw [heq]
          exact ⟨h.closed, h.index, h.fits, h.held, h.named⟩
        · obtain ⟨hlt, hnext⟩ := hgoes.2 hfull
          rw [heq]
          exact h.rotate hcycle size now stamp hlt hnext
      rw [Config.step]
      dsimp only
      split
      · exact hshift
      · exact hshift.grow _ written stamp
  | restart now stamp => exact .logOpen hcycle hpos h.closed now stamp

theorem Inv.overwritesLast (h : cfg.Inv s) (e : Event) (hgoes : cfg.GoesOn s e) :
    cfg.OverwritesLast s e := by
  intro name no hrenamed hused
  cases e with
  | write now stamp len written =>
      have hout : (cfg.shiftFile s now stamp).2.2 = some (name, no) := by
        rw [← hrenamed, Config.step]
        dsimp only
        split <;> rfl
      rcases shiftFile_cases s now stamp hgoes.1 with ⟨size, heq⟩ | ⟨-, size, -, heq⟩
      · rw [heq] at hout
        exact absurd hout (by simp)
      · rw [heq] at hout
        split at hout
        · obtain ⟨rfl, rfl⟩ := Prod.mk.inj (Option.some.inj hout)
          exact h.fits.full hused
        · exact absurd hout (by simp)
  | restart now stamp => exact absurd hrenamed (by simp [Config.step])

end

/-- In every run whose steps go on with a number that fits, the number stays in range and a
rotation overwrites a file only when all numbers are in use. -/
theorem inRange_of_goesOn (cfg : Config) (hcycle : cfg.logType.IsCycle)
    (hpos : 1 ≤ cfg.maxFileNo) (now : ℤ) (stamp : Stamp) (events : List Event)
    (hrun : Run.Always cfg.step cfg.GoesOn (cfg.started now stamp) events) :
    cfg.InRange (Run.final cfg.step (cfg.started now stamp) events) ∧
      Run.Always cfg.step cfg.OverwritesLast (cfg.started now stamp) events := by
  have hstart := inv_started hcycle hpos now stamp
  have hstep : ∀ s e, cfg.Inv s → cfg.GoesOn s e → cfg.Inv (cfg.step s e).1 :=
    fun s e h hgoes => h.step hcycle hpos e hgoes
  constructor
  · exact (Run.invariant hstep hstart hrun).inRange
  · exact Run.always_of_invariant hstep (fun s e h hgoes => h.overwritesLast e hgoes) hstart hrun

/-! ## One name -/

/-- With `_MP_MODE`, a restart finds a log whose size is no negative `int`. -/
def Opens (s : State) : Event → Prop
  | .write _ _ _ _ => True
  | .restart now _ => cfg.mpMode = true →
      ∀ file ∈ s.dir.logs (cfg.fileName now), file.size % 2 ^ 32 < 2 ^ 31

section
variable {cfg} {s : State}

theorem goesOn_of_cycle (hcycle : cfg.logType = .cycle) (hint : cfg.maxFileNo < 2 ^ 31 - 1)
    (h : cfg.Inv s) (hopen : cfg.mpMode = true → s.log.logFd.isSome) (e : Event) :
    cfg.GoesOn s e := by
  cases e with
  | write now stamp len written =>
      have hshift : cfg.timeShift s.log.preTime now = none := by
        rw [timeShift, hcycle]
      have hname : cfg.fileName now = s.log.filename := by
        rw [h.named, fileName, fileName, timestr, timestr, hcycle]
      have hrename := statLog_snd cfg h.held hopen
      have hle := h.index.2
      refine ⟨fun hsome => absurd hshift hsome, fun _ => ⟨by omega, ?_⟩⟩
      rintro (hne | hkept)
      · exact absurd hname hne
      · exact absurd (hrename.symm.trans hkept) (by decide)
  | restart now stamp => trivial

/-- The log stays open: a rotation begins with an empty one. -/
theorem logFd_step (hcycle : cfg.logType = .cycle) (h : cfg.Inv s)
    (hopen : cfg.mpMode = true → s.log.logFd.isSome) (e : Event) (hopens : cfg.Opens s e)
    (hmp : cfg.mpMode = true) : (cfg.step s e).1.log.logFd.isSome := by
  cases e with
  | write now stamp len written =>
      have hshift : (cfg.shiftFile s now stamp).1.log.logFd.isSome := by
        have hnone : cfg.timeShift s.log.preTime now = none := by
          rw [timeShift, hcycle]
        have hname : cfg.fileName now = s.log.filename := by
          rw [h.named, fileName, fileName, timestr, timestr, hcycle]
        rcases shiftFile_cases s now stamp (absurd hnone) with ⟨size, heq⟩ | ⟨-, size, heq, -⟩
        · rw [heq]
          exact hopen hmp
        · rw [heq, if_pos (statLog_snd cfg h.held hopen)]
          refine logFd_openFile stamp fun file hfile => ?_
          dsimp only at hfile
          rw [forceRename, hname] at hfile
          dsimp only at hfile
          rw [Function.update_self] at hfile
          exact absurd hfile (by simp)
      rw [step]
      dsimp only
      split
      · exact hshift
      · exact hshift
  | restart now stamp =>
      rw [step, logOpen]
      exact logFd_openFile stamp (hopens hmp)

end

/-- With the type that does not look at the time, every run does whose restarts can open the
log. -/
theorem inRange_of_cycle (cfg : Config) (hcycle : cfg.logType = .cycle)
    (hpos : 1 ≤ cfg.maxFileNo) (hint : cfg.maxFileNo < 2 ^ 31 - 1) (now : ℤ) (stamp : Stamp)
    (events : List Event)
    (hrun : Run.Always cfg.step cfg.Opens (cfg.started now stamp) events) :
    cfg.InRange (Run.final cfg.step (cfg.started now stamp) events) ∧
      Run.Always cfg.step cfg.OverwritesLast (cfg.started now stamp) events := by
  have hstart : cfg.Inv (cfg.started now stamp) ∧
      (cfg.mpMode = true → (cfg.started now stamp).log.logFd.isSome) :=
    ⟨inv_started (.inl hcycle) hpos now stamp,
      fun _ => logFd_openFile stamp fun file hfile => absurd hfile (by simp [Dir.empty])⟩
  have hstep : ∀ s e, cfg.Inv s ∧ (cfg.mpMode = true → s.log.logFd.isSome) → cfg.Opens s e →
      cfg.Inv (cfg.step s e).1 ∧ (cfg.mpMode = true → (cfg.step s e).1.log.logFd.isSome) :=
    fun s e h hopens => ⟨h.1.step (.inl hcycle) hpos e (goesOn_of_cycle hcycle hint h.1 h.2 e),
      logFd_step hcycle h.1 h.2 e hopens⟩
  exact inRange_of_goesOn cfg (.inl hcycle) hpos now stamp events
    (Run.always_of_invariant hstep (fun s e h _ => goesOn_of_cycle hcycle hint h.1 h.2 e)
      hstart hrun)

/-- With a cyclic type, a new day or hour that finds the log not full sets the number to 0. -/
theorem curFileNo_of_timeShift (cfg : Config) (hcycle : cfg.logType.IsCycle) (s : State)
    (now : ℤ) (stamp : Stamp) (len : ℤ) (written : ℕ)
    (htime : cfg.timeShift s.log.preTime now ≠ none)
    (hroom : (cfg.statLog s).1 < cfg.maxFileSize) :
    (cfg.step s (.write now stamp len written)).1.log.curFileNo = 0 := by
  have hzero : (cfg.timeShift s.log.preTime now).getD 0 = 0 := by
    rw [timeShift]
    rcases hcycle with h | h | h
    · simp [h]
    · simp only [h]
      split <;> rfl
    · simp only [h]
      split <;> rfl
  have hshift : (cfg.shiftFile s now stamp).1.log.curFileNo = 0 := by
    rw [shiftFile]
    dsimp only
    rw [if_neg (fun h => htime h.1), if_neg (not_le.mpr hroom), hzero]
    exact (openFile_spec cfg _ stamp).1
  rw [step]
  dsimp only
  split
  · exact hshift
  · exact hshift

/-- January 1970, in UTC. -/
def january (time : ℤ) : Tm where
  tmYear := 70
  tmMon := 0
  tmMday := .ofInt (time / 86400 + 1)
  tmHour := .ofInt (time % 86400 / 3600)
  tmMin := .ofInt (time % 3600 / 60)
  tmSec := .ofInt (time % 60)
  tmYday := .ofInt (time / 86400)

/-- Logs of 10 bytes, one for each day, in the build with `_MP_MODE`. -/
def tenBytes (maxFileNo : ℤ) : Config := ⟨.cycleDaily, ascii "spp", 10, maxFileNo, true, january, 0⟩

/-- With one number, a day may end with a full log. -/
theorem inRange_tenBytes :
    let events := [.write 0 ⟨1, 0⟩ 10 10, .write 86400 ⟨2, 86400⟩ 10 10]
    (tenBytes 1).InRange (Run.final (tenBytes 1).step ((tenBytes 1).started 0 ⟨1, 0⟩) events) ∧
      Run.Always (tenBytes 1).step (tenBytes 1).OverwritesLast ((tenBytes 1).started 0 ⟨1, 0⟩)
        events := by
  refine inRange_of_goesOn (tenBytes 1) (by decide) (by decide) 0 ⟨1, 0⟩ _
    ⟨⟨?_, ?_⟩, ⟨?_, ?_⟩, trivial⟩
  · exact fun h => absurd (by decide +kernel) h
  · exact fun h => absurd h (by decide +kernel)
  · exact fun _ => by decide +kernel
  · refine fun _ => ⟨by decide +kernel, fun _ => .inr ⟨by decide +kernel, .inl fun m hm hlt => ?_⟩⟩
    have hnext : (tenBytes 1).nextFileNo 1 = 1 := by decide +kernel
    have hlt' : m < (tenBytes 1).nextFileNo 1 := hlt
    omega

/-- A day that begins with room in the log sets the number to 0, also where a write that failed has
left the room.  One that begins with a full log goes on with number 2; a restart then begins with
number 1, and the second log after it overwrites a file with number 3 free. -/
theorem not_inRange_tenBytes :
    ¬ (tenBytes 3).InRange (Run.final (tenBytes 3).step ((tenBytes 3).started 0 ⟨1, 0⟩)
        [.write 86400 ⟨2, 0⟩ 5 5]) ∧
      ¬ (tenBytes 1).InRange (Run.final (tenBytes 1).step ((tenBytes 1).started 0 ⟨1, 0⟩)
        [.write 0 ⟨1, 0⟩ 10 0, .write 86400 ⟨2, 0⟩ 10 10]) ∧
      ¬ Run.Always (tenBytes 3).step (tenBytes 3).OverwritesLast ((tenBytes 3).started 0 ⟨1, 0⟩)
        [.write 0 ⟨1, 0⟩ 10 10, .write 86400 ⟨2, 0⟩ 10 10, .write 86400 ⟨3, 0⟩ 10 10,
          .restart 86400 ⟨4, 0⟩, .write 86400 ⟨4, 0⟩ 10 10, .write 86400 ⟨5, 0⟩ 10 10] := by
  refine ⟨fun h => ?_, fun h => ?_, ?_⟩
  · exact absurd h.index.1 (by decide +kernel)
  · exact absurd h.index.1 (by decide +kernel)
  · rintro ⟨-, -, -, -, -, h, -⟩
    have hall := h ((tenBytes 3).fileName 86400) 2 (by decide +kernel) (by decide +kernel)
    have hthree := hall (show (3 : ℤ) ∈ (tenBytes 3).numbers from ⟨by decide, by decide⟩)
    exact absurd hthree (by decide +kernel)

end Config
end Spp.Log
