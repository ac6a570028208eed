import PgRetrofit.Spec.HashTable

/-! Probing one side's hash table with a tuple of the other side, and the join that
inserts and probes with every tuple as it arrives. -/

namespace Pg

/-- the tuples an expression is evaluated on -/
structure ExprContext (α : Type*) where
  outertuple : Option (MinimalTuple α)
  innertuple : Option (MinimalTuple α)

/-- The fields of `HashJoinState` that probing reads or writes. -/
structure HashJoinState (α : Type*) where
  /-- the join clauses, on the outer and the inner tuple -/
  hashclauses : α → α → Bool
  hashTableInner : HashTable α
  hashTableOuter : HashTable α
  curHashValueInner : UInt32
  curHashValueOuter : UInt32
  curBucketNoOuter : ℕ
  curBucketNoInner : ℕ
  curTupleInner : Option Loc
  curTupleOuter : Option Loc

/-- Which table is probed: 0, the inner one with an outer tuple; 1, the outer one with an
inner tuple. -/
inductive Direction
  | probeInner | probeOuter
deriving DecidableEq

namespace HashJoin

variable {α : Type*}

/-- `ExecQualAndReset` -/
def execQual (clauses : α → α → Bool) (econtext : ExprContext α) : Except Fault Bool :=
  match econtext.outertuple, econtext.innertuple with
  | some o, some i => .ok (clauses o.body i.body)
  | _, _ => .error .unwritten

/-- the stored tuple in the place of its side, for the clauses to see -/
def storeTuple (direction : Direction) (econtext : ExprContext α) (tuple : MinimalTuple α) :
    ExprContext α :=
  match direction with
  | .probeInner => { econtext with innertuple := some tuple }
  | .probeOuter => { econtext with outertuple := some tuple }

/-- The loop of `ExecProbeHashBucket`: the first tuple from `p` on with the right hash
value that passes the clauses. -/
def probeLoop (clauses : α → α → Bool) (direction : Direction) (T : HashTable α) (hashvalue : UInt32) :
    ℕ → Option Loc → ExprContext α → Except Fault (Option Loc × ExprContext α)
  | _, none, econtext => .ok (none, econtext)
  | 0, some _, _ => .error .diverges
  | fuel + 1, some loc, econtext =>
    match T.data.lookup loc with
    | none => .error .unwritten
    | some h =>
      if h.hashvalue = hashvalue then
        let econtext := storeTuple direction econtext h.tuple
        (execQual clauses econtext).bind fun pass =>
          if pass then .ok (some loc, econtext)
            else probeLoop clauses direction T hashvalue fuel h.next econtext
      else probeLoop clauses direction T hashvalue fuel h.next econtext

/-- where the search starts: behind the tuple returned last, or at the bucket's head -/
def probeStart (T : HashTable α) (cur : Option Loc) (bucketNo : ℕ) : Except Fault (Option Loc) :=
  match cur with
  | some loc =>
    match T.data.lookup loc with
    | none => .error .unwritten
    | some h => .ok h.next
  | none =>
    match T.buckets[bucketNo]? with
    | none => .error .outOfBounds
    | some p => .ok p

/-- What the direction selects: the table probed, its cursor, and the hash value and
bucket number of the tuple it is probed with. -/
def selected (hj : HashJoinState α) : Direction → HashTable α × Option Loc × UInt32 × ℕ
  | .probeInner => (hj.hashTableInner, hj.curTupleInner, hj.curHashValueOuter, hj.curBucketNoOuter)
  | .probeOuter => (hj.hashTableOuter, hj.curTupleOuter, hj.curHashValueInner, hj.curBucketNoInner)

def setCur (hj : HashJoinState α) (loc : Loc) : Direction → HashJoinState α
  | .probeInner => { hj with curTupleInner := some loc }
  | .probeOuter => { hj with curTupleOuter := some loc }

def execProbeHashBucket (hj : HashJoinState α) (econtext : ExprContext α) (direction : Direction) :
    Except Fault (Bool × HashJoinState α × ExprContext α) :=
  let (hashtable, cur, hashvalue, curBucketNo) := selected hj direction
  (probeStart hashtable cur curBucketNo).bind fun p =>
    (probeLoop hj.hashclauses direction hashtable hashvalue hashtable.data.keys.length p econtext).bind
      fun (found, econtext) =>
        match found with
        | some loc => .ok (true, setCur hj loc direction, econtext)
        | none => .ok (false, hj, econtext)

def execProbeInnerHashBucketWithOuterTuple (hj : HashJoinState α) (econtext : ExprContext α) :
    Except Fault (Bool × HashJoinState α × ExprContext α) := execProbeHashBucket hj econtext .probeInner

def execProbeOuterHashBucketWithInnerTuple (hj : HashJoinState α) (econtext : ExprContext α) :
    Except Fault (Bool × HashJoinState α × ExprContext α) := execProbeHashBucket hj econtext .probeOuter

structure Arrival (α : Type*) where
  outer : Bool
  hashvalue : UInt32
  tuple : MinimalTuple α

def returnedPair (econtext : ExprContext α) : Except Fault (α × α) :=
  match econtext.outertuple, econtext.innertuple with
  | some o, some i => .ok (o.body, i.body)
  | _, _ => .error .unwritten

/-- Call a probe until it returns false, collecting the pairs; `calls` bounds the number
of calls. -/
def probeAll
    (probe : HashJoinState α → ExprContext α → Except Fault (Bool × HashJoinState α × ExprContext α)) :
    ℕ → HashJoinState α → ExprContext α → Except Fault (HashJoinState α × List (α × α))
  | 0, _, _ => .error .diverges
  | calls + 1, hj, econtext =>
    (probe hj econtext).bind fun (found, hj, econtext) =>
      if found then
        (returnedPair econtext).bind fun pair =>
          (probeAll probe calls hj econtext).map fun (hj, pairs) => (hj, pair :: pairs)
      else .ok (hj, [])

def startProbeInner (hj : HashJoinState α) (T : HashTable α) (hashvalue : UInt32) : HashJoinState α :=
  { hj with
    hashTableOuter := T
    curHashValueOuter := hashvalue
    curBucketNoOuter := (hj.hashTableInner.execHashGetBucketAndBatch hashvalue).1
    curTupleInner := none }

def startProbeOuter (hj : HashJoinState α) (T : HashTable α) (hashvalue : UInt32) : HashJoinState α :=
  { hj with
    hashTableInner := T
    curHashValueInner := hashvalue
    curBucketNoInner := (hj.hashTableOuter.execHashGetBucketAndBatch hashvalue).1
    curTupleOuter := none }

/-- One arrival: the tuple is inserted into the table of its own side, then the other
table is probed with it. -/
def arrive (hj : HashJoinState α) (a : Arrival α) : Except Fault (HashJoinState α × List (α × α)) :=
  if a.outer then
    (hj.hashTableOuter.execHashTableInsert a.tuple a.hashvalue).bind fun (T, _) =>
      probeAll execProbeInnerHashBucketWithOuterTuple (hj.hashTableInner.data.keys.length + 1)
        (startProbeInner hj T a.hashvalue) ⟨some a.tuple, none⟩
  else
    (hj.hashTableInner.execHashTableInsert a.tuple a.hashvalue).bind fun (T, _) =>
      probeAll execProbeOuterHashBucketWithInnerTuple (hj.hashTableOuter.data.keys.length + 1)
        (startProbeOuter hj T a.hashvalue) ⟨none, some a.tuple⟩

/-- All arrivals in order, with all pairs returned. -/
def join : HashJoinState α → List (Arrival α) → Except Fault (HashJoinState α × List (α × α))
  | hj, [] => .ok (hj, [])
  | hj, a :: as =>
    (arrive hj a).bind fun (hj, pairs) => (join hj as).map fun (hj, rest) => (hj, pairs ++ rest)

end HashJoin

end Pg
