import PgRetrofit.Spec.Backend
import Mathlib.Data.List.AList

/-! The in-memory hash table of the hash join: tuples packed into chunks of dense
storage and linked into bucket chains. -/

namespace Pg

/-- `MinimalTuple`: its length `t_len`, the match flag of its header, and the rest.
A minimal tuple is one palloc'd object. -/
structure MinimalTuple (α : Type*) where
  tLen : ℕ
  tLen_le : tLen ≤ maxAllocSize
  matched : Bool
  body : α

/-- The address of a tuple: its chunk, and the offset in the chunk's buffer. -/
structure Loc where
  chunk : ℕ
  off : ℕ
deriving DecidableEq

/-- `HashJoinTupleData` with the minimal tuple that follows it -/
structure HashTuple (α : Type*) where
  next : Option Loc
  hashvalue : UInt32
  tuple : MinimalTuple α

/-- `sizeof(HashJoinTuple)`, a pointer -/
def sizeofPointer : ℕ := 8

def hjtupleOverhead : ℕ := 16

def HashTuple.size {α : Type*} (h : HashTuple α) : ℕ := maxalign (hjtupleOverhead + h.tuple.tLen)

/-- the header `HashMemoryChunkData` of a chunk -/
structure Chunk where
  ntuples : ℕ
  maxlen : ℕ
  used : ℕ
  next : Option ℕ
deriving DecidableEq

/-- `get_op_hash_functions` of the hash operators, one entry for each: the hash
function of the left type, that of the right type, and whether the operator is strict. -/
structure HashFunctions where
  outer : List (UInt64 → UInt32)
  inner : List (UInt64 → UInt32)
  strict : List Bool

/-- `HashJoinTableData`. The chunks allocated so far are numbered in order of
allocation; `data` is what their buffers hold. -/
structure HashTable (α : Type*) where
  nbuckets : ℕ
  log2Nbuckets : ℕ
  nbucketsOptimal : ℕ
  log2NbucketsOptimal : ℕ
  buckets : List (Option Loc)
  keepNulls : Bool
  nbatch : ℕ
  totalTuples : ℕ
  partialTuples : ℕ
  functions : HashFunctions
  spaceUsed : ℕ
  spaceAllowed : ℕ
  spacePeak : ℕ
  chunks : Option ℕ
  headers : List Chunk
  data : AList fun _ : Loc => HashTuple α

namespace HashTable

variable {α : Type*}

def hashChunkSize : ℕ := 32 * 1024
def hashChunkHeaderSize : ℕ := 32
def hashChunkThreshold : ℕ := hashChunkSize / 4

def empty (log2Nbuckets nbatch spaceAllowed : ℕ) (keepNulls : Bool) (functions : HashFunctions) :
    HashTable α where
  nbuckets := 2 ^ log2Nbuckets
  log2Nbuckets := log2Nbuckets
  nbucketsOptimal := 2 ^ log2Nbuckets
  log2NbucketsOptimal := log2Nbuckets
  buckets := List.replicate (2 ^ log2Nbuckets) none
  keepNulls := keepNulls
  nbatch := nbatch
  totalTuples := 0
  partialTuples := 0
  functions := functions
  spaceUsed := 0
  spaceAllowed := spaceAllowed
  spacePeak := 0
  chunks := none
  headers := []
  data := ∅

/-- `ExecHashTableCreate`, with the sizes `ExecChooseHashTableSize` has chosen -/
def execHashTableCreate (log2Nbuckets nbatch spaceAllowed : ℕ) (keepNulls : Bool)
    (functions : HashFunctions) :
    Except Fault (HashTable α) :=
  (palloc (2 ^ log2Nbuckets * sizeofPointer)).bind fun _ =>
    .ok (empty log2Nbuckets nbatch spaceAllowed keepNulls functions)

def pgRotateRight32 (word : UInt32) (n : ℕ) : UInt32 :=
  (word >>> n.toUInt32) ||| (word <<< (32 - n).toUInt32)

/-- `(bucketno, batchno)` -/
def execHashGetBucketAndBatch (T : HashTable α) (hashvalue : UInt32) : ℕ × ℕ :=
  let nbuckets := T.nbuckets.toUInt32
  let nbatch := T.nbatch.toUInt32
  if nbatch > 1 then
    ((hashvalue &&& (nbuckets - 1)).toNat,
      (pgRotateRight32 hashvalue T.log2Nbuckets &&& (nbatch - 1)).toNat)
  else ((hashvalue &&& (nbuckets - 1)).toNat, 0)

/-- A fresh chunk holding one tuple, at the beginning of the list. -/
def pushChunk (T : HashTable α) (maxlen size : ℕ) : HashTable α × Loc :=
  ({ T with headers := T.headers ++ [⟨1, maxlen, size, T.chunks⟩], chunks := some T.headers.length },
    ⟨T.headers.length, 0⟩)

/-- A chunk of its own for one tuple behind the first chunk, so that the remaining
space of that one is not lost. -/
def spliceChunk (T : HashTable α) (first : ℕ) (hd : Chunk) (size : ℕ) : HashTable α × Loc :=
  let firstHd := { hd with next := some T.headers.length }
  ({ T with headers := T.headers.set first firstHd ++ [⟨1, size, size, hd.next⟩] },
    ⟨T.headers.length, 0⟩)

def takeRoom (T : HashTable α) (first : ℕ) (hd : Chunk) (size : ℕ) : HashTable α × Loc :=
  let firstHd := { hd with used := hd.used + size, ntuples := hd.ntuples + 1 }
  ({ T with headers := T.headers.set first firstHd }, ⟨first, hd.used⟩)

def denseAlloc (T : HashTable α) (size : ℕ) : Except Fault (HashTable α × Loc) :=
  let size := maxalign size
  if size > hashChunkThreshold then
    (palloc (hashChunkHeaderSize + size)).bind fun _ =>
      match T.chunks with
      | none => .ok (T.pushChunk size size)
      | some first =>
        match T.headers[first]? with
        | none => .error .outOfBounds
        | some hd => .ok (T.spliceChunk first hd size)
  else
    let fresh :=
      (palloc (hashChunkHeaderSize + hashChunkSize)).bind fun _ => .ok (T.pushChunk hashChunkSize size)
    match T.chunks with
    | none => fresh
    | some first =>
      match T.headers[first]? with
      | none => .error .outOfBounds
      | some hd => if hd.maxlen - hd.used < size then fresh else .ok (T.takeRoom first hd size)

/-- Write a tuple at `loc`: its hash value, its minimal tuple with the match flag
cleared, and the head of its bucket's list as the next one. -/
def writeTuple (T : HashTable α) (loc : Loc) (h : HashTuple α) : Except Fault (HashTable α) :=
  match T.headers[loc.chunk]? with
  | none => .error .outOfBounds
  | some hd =>
    if loc.off + (hjtupleOverhead + h.tuple.tLen) ≤ hd.maxlen then
      .ok { T with data := T.data.insert loc h }
    else .error .outOfBounds

def execHashIncreaseNumBatches : Fault :=
  .elog "hash join: could not increase numBatch since batching is disabled for ass2"

def execHashTableInsert (T : HashTable α) (tuple : MinimalTuple α) (hashvalue : UInt32) :
    Except Fault (HashTable α × Loc) :=
  let bucketno := (T.execHashGetBucketAndBatch hashvalue).1
  let hashTupleSize := hjtupleOverhead + tuple.tLen
  (T.denseAlloc hashTupleSize).bind fun (T, loc) =>
    match T.buckets[bucketno]? with
    | none => .error .outOfBounds
    | some head =>
      (T.writeTuple loc ⟨head, hashvalue, { tuple with matched := false }⟩).bind fun T =>
        let T := { T with
          buckets := T.buckets.set bucketno (some loc)
          spaceUsed := T.spaceUsed + hashTupleSize
          spacePeak := max T.spacePeak (T.spaceUsed + hashTupleSize) }
        if T.spaceUsed + T.nbucketsOptimal * sizeofPointer > T.spaceAllowed then
          .error execHashIncreaseNumBatches
        else .ok (T, loc)

def relink (T : HashTable α) (loc : Loc) (h : HashTuple α) : Except Fault (HashTable α) :=
  let bucketno := (T.execHashGetBucketAndBatch h.hashvalue).1
  match T.buckets[bucketno]? with
  | none => .error .outOfBounds
  | some head =>
    .ok { T with
      data := T.data.insert loc { h with next := head }
      buckets := T.buckets.set bucketno (some loc) }

/-- The inner loop: all tuples of one chunk from `idx` on. -/
def relinkChunk (chunk used : ℕ) : ℕ → HashTable α → ℕ → Except Fault (HashTable α)
  | 0, T, idx => if idx < used then .error .diverges else .ok T
  | fuel + 1, T, idx =>
    if idx < used then
      match T.data.lookup ⟨chunk, idx⟩ with
      | none => .error .unwritten
      | some h => (T.relink ⟨chunk, idx⟩ h).bind fun T => relinkChunk chunk used fuel T (idx + h.size)
    else .ok T

/-- The outer loop: all chunks from `p` on. -/
def relinkChunks : ℕ → HashTable α → Option ℕ → Except Fault (HashTable α)
  | _, T, none => .ok T
  | 0, _, some _ => .error .diverges
  | fuel + 1, T, some chunk =>
    match T.headers[chunk]? with
    | none => .error .outOfBounds
    | some hd => (relinkChunk chunk hd.used hd.used T 0).bind fun T => relinkChunks fuel T hd.next

def execHashIncreaseNumBuckets (T : HashTable α) : Except Fault (HashTable α) :=
  if T.nbuckets ≥ T.nbucketsOptimal then .ok T
  else
    (palloc (T.nbucketsOptimal * sizeofPointer)).bind fun _ =>
      let T := { T with
        nbuckets := T.nbucketsOptimal
        log2Nbuckets := T.log2NbucketsOptimal
        buckets := List.replicate T.nbucketsOptimal none }
      relinkChunks T.headers.length T T.chunks

inductive Op (α : Type*)
  | insert (hashvalue : UInt32) (tuple : MinimalTuple α)
  /-- `ExecHashIncreaseNumBuckets` after `nbuckets_optimal` has been set to `2 ^ log2` -/
  | grow (log2 : ℕ)

def step (T : HashTable α) : Op α → Except Fault (HashTable α)
  | .insert hashvalue tuple => (T.execHashTableInsert tuple hashvalue).map Prod.fst
  | .grow log2 =>
    execHashIncreaseNumBuckets { T with nbucketsOptimal := 2 ^ log2, log2NbucketsOptimal := log2 }

def run (T : HashTable α) (ops : List (Op α)) : Except Fault (HashTable α) := ops.foldlM step T

def inserted (ops : List (Op α)) : List (UInt32 × MinimalTuple α) :=
  ops.filterMap fun
    | .insert hashvalue tuple => some (hashvalue, { tuple with matched := false })
    | .grow _ => none

/-- The walk through one chunk: the tuples met from `idx` on, and where it stops. -/
def walkChunk (T : HashTable α) (chunk used : ℕ) : ℕ → ℕ → Except Fault (List Loc × ℕ)
  | 0, idx => if idx < used then .error .diverges else .ok ([], idx)
  | fuel + 1, idx =>
    if idx < used then
      match T.data.lookup ⟨chunk, idx⟩ with
      | none => .error .unwritten
      | some h => (walkChunk T chunk used fuel (idx + h.size)).map fun r => (⟨chunk, idx⟩ :: r.1, r.2)
    else .ok ([], idx)

/-- The walk through all chunks from `p` on: each header with what the walk met. -/
def walkChunks (T : HashTable α) : ℕ → Option ℕ → Except Fault (List (Chunk × List Loc × ℕ))
  | _, none => .ok []
  | 0, some _ => .error .diverges
  | fuel + 1, some chunk =>
    match T.headers[chunk]? with
    | none => .error .outOfBounds
    | some hd =>
      (T.walkChunk chunk hd.used hd.used 0).bind fun r =>
        (walkChunks T fuel hd.next).map fun rest => (hd, r) :: rest

end HashTable

end Pg
