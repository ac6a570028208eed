import PgRetrofit.Spec.Backend

/-! The hash table generated from `lib/simplehash.h`. -/

namespace Pg

/-- What a file that includes the header defines: `SH_HASH_KEY` and the size of
`SH_ELEMENT_TYPE` (`SH_EQUAL` is equality of keys). -/
structure SimpleHashType (κ : Type*) where
  hashKey : κ → UInt32
  elementSize : ℕ
  elementSize_lt : elementSize < 2 ^ 31

/-- `SH_TYPE`. A bucket in use holds a key and the other fields of its element. -/
structure SimpleHash (κ ν : Type*) where
  size : ℕ
  members : ℕ
  sizemask : ℕ
  growThreshold : ℕ
  data : ℕ → Option (κ × ν)

namespace SimpleHash

variable {κ ν : Type*}

def shMaxSize : ℕ := 2 ^ 32

def shGrowMaxDib : ℕ := 25

def shGrowMaxMove : ℕ := 150

def maxAllocHugeSize : ℕ := (2 ^ 64 - 1) / 2

def shPow2 (num : ℕ) : ℕ := 2 ^ Nat.clog 2 num

/-- The argument is a uint32: callers reduce it. The fill factors are 0.9 and 0.98. -/
def shComputeParameters (ty : SimpleHashType κ) (tb : SimpleHash κ ν) (newsize : ℕ) :
    Except Fault (SimpleHash κ ν) :=
  let size := shPow2 (max newsize 2)
  if ty.elementSize * size ≥ maxAllocHugeSize then .error (.elog "hash table too large")
  else .ok { tb with
    size := size
    sizemask := if size = shMaxSize then 0 else size - 1
    growThreshold := if size = shMaxSize then size * 98 / 100 else size * 9 / 10 }

def shInitialBucket (tb : SimpleHash κ ν) (hash : UInt32) : ℕ := hash.toNat &&& tb.sizemask

def shNext (tb : SimpleHash κ ν) (curelem : ℕ) : ℕ := ((curelem + 1) % 2 ^ 32) &&& tb.sizemask

def shPrev (tb : SimpleHash κ ν) (curelem : ℕ) : ℕ := ((curelem + (2 ^ 32 - 1)) % 2 ^ 32) &&& tb.sizemask

def shDistanceFromOptimal (tb : SimpleHash κ ν) (optimal bucket : ℕ) : ℕ :=
  if optimal ≤ bucket then bucket - optimal else tb.size + bucket - optimal

def optimal (ty : SimpleHashType κ) (tb : SimpleHash κ ν) (e : κ × ν) :
    ℕ := tb.shInitialBucket (ty.hashKey e.1)

/-- at least `SH_GROW_MIN_FILLFACTOR` (0.1) of the buckets are in use -/
def filled (tb : SimpleHash κ ν) : Bool := tb.members * 10 ≥ tb.size

def shCreate (ty : SimpleHashType κ) (nelements : UInt32) : Except Fault (SimpleHash κ ν) :=
  let size := min shMaxSize (nelements.toNat * 10 / 9)
  shComputeParameters ty ⟨0, 0, 0, 0, fun _ => none⟩ (size % 2 ^ 32)

/-- The search for the first element that is not wrapped around, over the remaining
buckets from `i` on. `tb` has the new size. -/
def growStart (ty : SimpleHashType κ) (tb : SimpleHash κ ν) (olddata : ℕ → Option (κ × ν)) : ℕ → ℕ → ℕ
  | 0, _ => 0
  | n + 1, i =>
    match olddata i with
    | none => i
    | some e => if optimal ty tb e = i then i else growStart ty tb olddata n (i + 1)

def growPlace (tb : SimpleHash κ ν) (newdata : ℕ → Option (κ × ν)) : ℕ → ℕ → Except Fault ℕ
  | 0, _ => .error .diverges
  | fuel + 1, curelem =>
    match newdata curelem with
    | none => .ok curelem
    | some _ => growPlace tb newdata fuel (tb.shNext curelem)

def growCopy (ty : SimpleHashType κ) (fuel : ℕ) (tb : SimpleHash κ ν) (oldsize : ℕ)
    (olddata : ℕ → Option (κ × ν)) : ℕ → ℕ → (ℕ → Option (κ × ν)) → Except Fault (ℕ → Option (κ × ν))
  | 0, _, newdata => .ok newdata
  | n + 1, copyelem, newdata =>
    let next := if copyelem + 1 ≥ oldsize then 0 else copyelem + 1
    match olddata copyelem with
    | none => growCopy ty fuel tb oldsize olddata n next newdata
    | some e =>
      (growPlace tb newdata fuel (optimal ty tb e)).bind fun curelem =>
        growCopy ty fuel tb oldsize olddata n next (Function.update newdata curelem (some e))

def shGrow (ty : SimpleHashType κ) (fuel : ℕ) (tb : SimpleHash κ ν) (newsize : ℕ) :
    Except Fault (SimpleHash κ ν) :=
  (shComputeParameters ty tb newsize).bind fun new =>
    let startelem := growStart ty new tb.data tb.size 0
    (growCopy ty fuel new tb.size tb.data tb.size startelem fun _ => none).map fun data =>
      { new with data := data }

/-- How the bucket search of `SH_INSERT` ends. -/
inductive Place
  | empty (curelem : ℕ)
  | found (curelem : ℕ)
  /-- the entries from `curelem` up to the empty bucket `emptyelem` have to move -/
  | shift (curelem emptyelem : ℕ)
  /-- too far from the optimal bucket, or too many entries to move: `goto restart` -/
  | grow

/-- find next empty bucket; `none` if too many entries would have to move -/
def findEmpty (tb : SimpleHash κ ν) : ℕ → ℕ → ℕ → Except Fault (Option ℕ)
  | 0, _, _ => .error .diverges
  | fuel + 1, emptyelem, emptydist =>
    let emptyelem := tb.shNext emptyelem
    match tb.data emptyelem with
    | none => .ok (some emptyelem)
    | some _ =>
      if emptydist + 1 > shGrowMaxMove && tb.filled then .ok none
        else findEmpty tb fuel emptyelem (emptydist + 1)

def shiftForward (tb : SimpleHash κ ν) (curelem : ℕ) :
    ℕ → ℕ → (ℕ → Option (κ × ν)) → Except Fault (ℕ → Option (κ × ν))
  | 0, moveelem, data => if moveelem = curelem then .ok data else .error .diverges
  | fuel + 1, moveelem, data =>
    if moveelem = curelem then .ok data
    else
      let prev := tb.shPrev moveelem
      shiftForward tb curelem fuel prev (Function.update data moveelem (data prev))

variable [DecidableEq κ]

def insertLoop (ty : SimpleHashType κ) (tb : SimpleHash κ ν) (key : κ) : ℕ → ℕ → ℕ → Except Fault Place
  | 0, _, _ => .error .diverges
  | fuel + 1, curelem, insertdist =>
    match tb.data curelem with
    | none => .ok (.empty curelem)
    | some entry =>
      if entry.1 = key then .ok (.found curelem)
      else if insertdist > tb.shDistanceFromOptimal (optimal ty tb entry) curelem then
        (findEmpty tb fuel curelem 0).map fun
          | some emptyelem => .shift curelem emptyelem
          | none => .grow
      else if insertdist + 1 > shGrowMaxDib && tb.filled then .ok .grow
      else insertLoop ty tb key fuel (tb.shNext curelem) (insertdist + 1)

def findPlace (ty : SimpleHashType κ) (fuel : ℕ) (tb : SimpleHash κ ν) (key : κ) : Except Fault Place :=
  insertLoop ty tb key fuel (tb.shInitialBucket (ty.hashKey key)) 0

def growCheck (ty : SimpleHashType κ) (fuel : ℕ) (tb : SimpleHash κ ν) : Except Fault (SimpleHash κ ν) :=
  if tb.members ≥ tb.growThreshold then
    if tb.size = shMaxSize then .error (.elog "hash table size exceeded")
    else shGrow ty fuel tb (tb.size * 2 % 2 ^ 32)
  else .ok tb

/-- `SH_INSERT` from `restart` on, with the bucket it returns and `*found`. `v` is what the
caller writes into the other fields of a new element. -/
def insertFrom (ty : SimpleHashType κ) (fuel : ℕ) :
    ℕ → SimpleHash κ ν → κ → ν → Except Fault (SimpleHash κ ν × ℕ × Bool)
  | 0, _, _, _ => .error .diverges
  | restarts + 1, tb, key, v =>
    (growCheck ty fuel tb).bind fun tb =>
      (findPlace ty fuel tb key).bind fun
        | .empty curelem =>
          .ok ({ tb with
            members := (tb.members + 1) % 2 ^ 32
            data := Function.update tb.data curelem (some (key, v)) }, curelem, false)
        | .found curelem => .ok (tb, curelem, true)
        | .shift curelem emptyelem =>
          (shiftForward tb curelem fuel emptyelem tb.data).map fun data =>
            ({ tb with
              members := (tb.members + 1) % 2 ^ 32
              data := Function.update data curelem (some (key, v)) }, curelem, false)
        | .grow => insertFrom ty fuel restarts { tb with growThreshold := 0 } key v

def shInsert (ty : SimpleHashType κ) (fuel : ℕ) (tb : SimpleHash κ ν) (key : κ) (v : ν) :
    Except Fault (SimpleHash κ ν × ℕ × Bool) :=
  insertFrom ty fuel fuel tb key v

/-- The search of `SH_LOOKUP` and `SH_DELETE`: the bucket of `key`, if there is one. -/
def search (tb : SimpleHash κ ν) (key : κ) : ℕ → ℕ → Except Fault (Option ℕ)
  | 0, _ => .error .diverges
  | fuel + 1, curelem =>
    match tb.data curelem with
    | none => .ok none
    | some entry => if entry.1 = key then .ok (some curelem) else search tb key fuel (tb.shNext curelem)

def shLookup (ty : SimpleHashType κ) (fuel : ℕ) (tb : SimpleHash κ ν) (key : κ) :
    Except Fault (Option (κ × ν)) :=
  (tb.search key fuel (tb.shInitialBucket (ty.hashKey key))).map fun r => r.bind tb.data

def shiftBack (ty : SimpleHashType κ) (tb : SimpleHash κ ν) :
    ℕ → ℕ → (ℕ → Option (κ × ν)) → Except Fault (ℕ → Option (κ × ν))
  | 0, _, _ => .error .diverges
  | fuel + 1, last, data =>
    let curelem := tb.shNext last
    match data curelem with
    | none => .ok (Function.update data last none)
    | some e =>
      if optimal ty tb e = curelem then .ok (Function.update data last none)
      else shiftBack ty tb fuel curelem (Function.update data last (some e))

def shDelete (ty : SimpleHashType κ) (fuel : ℕ) (tb : SimpleHash κ ν) (key : κ) :
    Except Fault (SimpleHash κ ν × Bool) :=
  (tb.search key fuel (tb.shInitialBucket (ty.hashKey key))).bind fun
    | none => .ok (tb, false)
    | some curelem =>
      (shiftBack ty tb fuel curelem tb.data).map fun data =>
        ({ tb with members := (tb.members + (2 ^ 32 - 1)) % 2 ^ 32, data := data }, true)

/-- `SH_ITERATOR`; `stop` is its field `end`. -/
structure ShIterator where
  cur : ℕ
  stop : ℕ
  done : Bool

/-- The search for the first empty element, over the remaining buckets from `i` on. -/
def firstEmpty (tb : SimpleHash κ ν) : ℕ → ℕ → ℕ
  | 0, _ => 2 ^ 64 - 1
  | n + 1, i =>
    match tb.data i with
    | none => i
    | some _ => firstEmpty tb n (i + 1)

def shStartIterate (tb : SimpleHash κ ν) : ShIterator :=
  let startelem := firstEmpty tb tb.size 0
  ⟨startelem % 2 ^ 32, startelem % 2 ^ 32, false⟩

def shStartIterateAt (tb : SimpleHash κ ν) (start : ℕ) : ShIterator :=
  ⟨start % 2 ^ 32 &&& tb.sizemask, start % 2 ^ 32 &&& tb.sizemask, false⟩

/-- `SH_ITERATE`: the buckets in backward direction, up to one in use -/
def shIterate (tb : SimpleHash κ ν) : ℕ → ShIterator → Except Fault (Option (κ × ν) × ShIterator)
  | 0, _ => .error .diverges
  | fuel + 1, iter =>
    if iter.done then .ok (none, iter)
    else
      let cur := tb.shPrev iter.cur
      let next : ShIterator :=
        { iter with cur := cur, done := cur &&& tb.sizemask = iter.stop &&& tb.sizemask }
      match tb.data iter.cur with
      | some elem => .ok (some elem, next)
      | none => shIterate tb fuel next

inductive Op (κ ν : Type*)
  | insert (key : κ) (v : ν)
  | delete (key : κ)
  | lookup (key : κ)

/-- What a call returns: `*found` or the Boolean result, and the entry. -/
structure Answer (κ ν : Type*) where
  flag : Bool
  entry : Option (κ × ν)

def step (ty : SimpleHashType κ) (fuel : ℕ) (tb : SimpleHash κ ν) :
    Op κ ν → Except Fault (SimpleHash κ ν × Answer κ ν)
  | .insert key v => (shInsert ty fuel tb key v).map fun (tb, i, found) => (tb, ⟨found, tb.data i⟩)
  | .delete key => (shDelete ty fuel tb key).map fun (tb, present) => (tb, ⟨present, none⟩)
  | .lookup key => (shLookup ty fuel tb key).map fun e => (tb, ⟨e.isSome, e⟩)

def run (ty : SimpleHashType κ) (fuel : ℕ) :
    SimpleHash κ ν → List (Op κ ν) → Except Fault (SimpleHash κ ν × List (Answer κ ν))
  | tb, [] => .ok (tb, [])
  | tb, op :: ops =>
    (step ty fuel tb op).bind fun (tb, a) => (run ty fuel tb ops).map fun (tb, as) => (tb, a :: as)

end SimpleHash

end Pg
