import Spp.Lib.Word
import Spp.Stat.Policy

/-!
# The pool of statistics

`CTStat` keeps its objects in an array.  Those that are free are linked to a list, the others to
chains, one for each value of a hash of the id.  One id may have an object for each policy.  An
object has a part of the array of values.

The pool is one that `newpool` has made, in a file or not.  Texts are strings of C, without their
zero.  A pool whose process has ended, by an assertion that failed, is `none`.

## Main definitions

* `StatObj`, `StatPool` — `TStatObj` and `TStatPool`.
* `StatPool.findStatobj`, `StatPool.allocStatobj`, `StatPool.insertStatobj` — the parts.
* `StatPool.initStatobj`, `StatPool.step`, `StatPool.query`, `StatPool.reset`,
  `StatPool.results` — the calls.
-/

namespace Spp

/-- `BUCKET_NUM` -/
def bucketNum : ℕ := 100

/-- `DEFAULT_STATOBJ_NUM` -/
def defaultStatobjNum : ℕ := 100

/-- `DEFAULT_STATVAL_NUM` -/
def defaultStatvalNum : ℕ := defaultStatobjNum * 1

/-- `STAT_MAX_VALSIZE` -/
def statMaxValsize : ℕ := 10

/-- `STAT_ID_MAX_LEN` -/
def statIdMaxLen : ℕ := 64

def errStatExist : ℤ := -2000

def errStatNone : ℤ := -2001

def errStatFull : ℤ := -2010

/-- A string of C, without its zero. -/
abbrev StatId := { id : List UInt8 // 0 ∉ id }

/-- A `TStatObj`; an invalid handle is `none`. -/
structure StatObj where
  id : List UInt8
  desc : List UInt8
  type : UInt32
  valSize : ℕ
  count : Int64
  valOffset : ℕ
  next : Option ℕ

/-- A `TStatPool`. -/
structure StatPool where
  freelist : Option ℕ
  bucket : ℕ → Option ℕ
  statobjsUsed : ℕ
  statobjs : ℕ → StatObj
  statvalsUsed : ℕ
  statvals : ℕ → Int64

/-- A turn of the loop of `hashid`; a `char` is signed. -/
def hashStep (hash : UInt32) (c : UInt8) : UInt32 :=
  hash ^^^ ((hash <<< 5) + ⟨c.toBitVec.signExtend 32⟩ + (hash >>> 2))

def hashid (id : List UInt8) : ℕ := (id.foldl hashStep 1315423911).toNat % bucketNum

namespace StatPool

/-- What `memset` leaves. -/
def zeroObj : StatObj := ⟨[], [], 0, 0, 0, 0, some 0⟩

def newpool : StatPool where
  freelist := some 0
  bucket := fun _ => none
  statobjsUsed := 0
  statobjs := fun i => { zeroObj with next := if i + 1 < defaultStatobjNum then some (i + 1) else none }
  statvalsUsed := 0
  statvals := fun _ => 0

/-- The loop of `find_statobj`, which visits no object twice. -/
def findLoop (pool : StatPool) (id : List UInt8) : ℕ → Option ℕ → Option ℕ
  | _, none => none
  | 0, some _ => none
  | fuel + 1, some i =>
      if (pool.statobjs i).id = id then some i else findLoop pool id fuel (pool.statobjs i).next

/-- `find_statobj`, for all types. -/
def findStatobj (pool : StatPool) (id : List UInt8) : Option ℕ :=
  pool.findLoop id defaultStatobjNum (pool.bucket (hashid id))

/-- `alloc_statobj`; with an invalid handle there is no object to change. -/
def allocStatobj (pool : StatPool) (valSize : ℤ) : Option (Option ℕ × StatPool) :=
  if valSize ≥ 1 ∧ pool.statobjsUsed < defaultStatobjNum ∧
      (pool.statvalsUsed : ℤ) < defaultStatvalNum - valSize then
    match pool.freelist with
    | none => some (none, pool)
    | some choice =>
        let obj := pool.statobjs choice
        some (some choice,
          { pool with
            freelist := obj.next
            statobjsUsed := pool.statobjsUsed + 1
            statobjs := Function.update pool.statobjs choice
              { obj with valSize := valSize.toNat, valOffset := pool.statvalsUsed }
            statvalsUsed := pool.statvalsUsed + valSize.toNat })
  else none

/-- `OBJ_INIT` -/
def objInit (pool : StatPool) (choice : ℕ) (id : List UInt8) (type : UInt32)
    (desc : Option StatId) : StatPool :=
  { pool with
    statobjs := Function.update pool.statobjs choice
      { pool.statobjs choice with
        id := id.take (statIdMaxLen - 1)
        desc := (desc.elim [] Subtype.val).take (statIdMaxLen * 2 - 1)
        type := type
        next := none } }

/-- `insert_statobj` -/
def insertStatobj (pool : StatPool) (choice : ℕ) : StatPool :=
  let bucketid := hashid (pool.statobjs choice).id
  { pool with
    statobjs := Function.update pool.statobjs choice
      { pool.statobjs choice with next := pool.bucket bucketid }
    bucket := Function.update pool.bucket bucketid (some choice) }

/-- The loop of `init_statobj` over the policies that are in the type. -/
def initLoop (id : List UInt8) (desc : Option StatId) (valSize : ℤ) :
    List StatPolicy → StatPool → Option (StatPool × ℤ)
  | [], pool => some (pool, 0)
  | p :: ps, pool =>
      match pool.allocStatobj valSize with
      | none => none
      | some (none, pool) => some (pool, errStatFull)
      | some (some choice, pool) =>
          initLoop id desc valSize ps ((pool.objInit choice id p.no desc).insertStatobj choice)

/-- `init_statobj` -/
def initStatobj (pool : StatPool) (id : StatId) (type : UInt32) (desc : Option StatId)
    (valSize : ℤ) : Option (StatPool × ℤ) :=
  if pool.findStatobj id.1 ≠ none then some (pool, errStatExist)
  else initLoop id.1 desc valSize (StatPolicy.selected type) pool

/-- `OBJ_WRAPPER` -/
def target (pool : StatPool) (i : ℕ) : StatTarget where
  valSize := (pool.statobjs i).valSize
  count := (pool.statobjs i).count
  value := fun j => pool.statvals ((pool.statobjs i).valOffset + j)

/-- The policy of an object. -/
def policy (pool : StatPool) (i : ℕ) : StatPolicy := .ofType (pool.statobjs i).type

/-- What a policy has changed through the wrapper of an object. -/
def putTarget (pool : StatPool) (i : ℕ) (t : StatTarget) : StatPool :=
  let obj := pool.statobjs i
  { pool with
    statobjs := Function.update pool.statobjs i { obj with count := t.count }
    statvals := fun j =>
      if obj.valOffset ≤ j then t.value (j - obj.valOffset) else pool.statvals j }

/-- `__step__` of an object. -/
def stepObj (pool : StatPool) (i : ℕ) (val : Int64) (valIdx : ℕ) : StatPool :=
  pool.putTarget i ((pool.policy i).step (pool.target i) val valIdx)

/-- The inner loop of `step`, with the objects whose `__step__` it calls. -/
def stepLoop (id : List UInt8) (val : Int64) (valIdx : ℕ) :
    ℕ → Option ℕ → StatPool → StatPool × List ℕ
  | _, none, pool => (pool, [])
  | 0, some _, pool => (pool, [])
  | fuel + 1, some i, pool =>
      if (pool.statobjs i).id = id then
        let pool := pool.stepObj i val valIdx
        let (pool, applied) := stepLoop id val valIdx fuel (pool.statobjs i).next pool
        (pool, i :: applied)
      else (pool, [])

/-- `step` of one id. -/
def step0 (pool : StatPool) (id : StatId) (val : Int64) (valIdx : ℕ) : StatPool × List ℕ :=
  stepLoop id.1 val valIdx defaultStatobjNum (pool.findStatobj id.1) pool

/-- `step` -/
def step (pool : StatPool) : List StatId → Int64 → ℕ → StatPool × List ℕ
  | [], _, _ => (pool, [])
  | id :: ids, val, valIdx =>
      let (pool, applied) := pool.step0 id val valIdx
      let (pool, applied') := step pool ids val valIdx
      (pool, applied ++ applied')

/-- `query`, with the object that it finds. -/
def query (pool : StatPool) (id : StatId) : ℤ × Option ℕ :=
  match pool.findStatobj id.1 with
  | some i => (1, some i)
  | none => (errStatNone, none)

/-- The objects that the inner loop of `travel` visits. -/
def travelLoop (pool : StatPool) : ℕ → Option ℕ → List ℕ
  | _, none => []
  | 0, some _ => []
  | fuel + 1, some i => i :: travelLoop pool fuel (pool.statobjs i).next

/-- The objects that `travel` visits; no visitor changes a link. -/
def travel (pool : StatPool) : List ℕ :=
  (List.range bucketNum).flatMap fun b => pool.travelLoop defaultStatobjNum (pool.bucket b)

/-- `do_reset` -/
def resetObj (pool : StatPool) (i : ℕ) : StatPool := pool.putTarget i (pool.target i).reset

/-- `reset` -/
def reset (pool : StatPool) : StatPool := pool.travel.foldl resetObj pool

/-- What `do_result` gets from the policy of an object. -/
def resultObj (pool : StatPool) (i : ℕ) : StatPolicy.StatResult :=
  (pool.policy i).result (pool.target i)

/-- What `result` and `moni_result` print of the objects. -/
def results (pool : StatPool) : List StatPolicy.StatResult := pool.travel.map pool.resultObj

end StatPool

end Spp
