import PgRetrofit.Spec.HashTable

/-! The Hash node: hash values from hash keys, and the call that moves one tuple of the
child into the hash table. -/

namespace Pg

/-- A hash join operator: whether it holds, and what `get_op_hash_functions` and
`op_strict` say about it. -/
structure HashOperator where
  op : UInt64 → UInt64 → Bool
  leftHash : UInt64 → UInt32
  rightHash : UInt64 → UInt32
  strict : Bool

/-- The hash functions of an operator agree on values that it relates. -/
def HashOperator.Lawful (o : HashOperator) : Prop := ∀ x y, o.op x y → o.leftHash x = o.rightHash y

/-- The loop of `ExecHashTableCreate` over the hash operators. -/
def HashFunctions.ofOperators (ops : List HashOperator) : HashFunctions where
  outer := ops.map HashOperator.leftHash
  inner := ops.map HashOperator.rightHash
  strict := ops.map HashOperator.strict

/-- The fields of a Hash node's state that a call uses. A hash key is an expression over
the child's tuples, `none` for null. -/
structure HashState (α : Type*) where
  hashtable : HashTable α
  hashkeys : List (α → Option UInt64)
  lastInsert : Option Loc

namespace PrivateHash

variable {α : Type*}

def rotate (hashkey : UInt32) : UInt32 :=
  (hashkey <<< 1) ||| (if hashkey &&& 0x80000000 ≠ 0 then 1 else 0)

/-- The loop of `ExecHashGetHashValue` over the values of the hash keys. The answer
`none` is the return value false. -/
def hashLoop (hashfunctions : List (UInt64 → UInt32)) (hashStrict : List Bool) (keepNulls : Bool) :
    List (Option UInt64) → ℕ → UInt32 → Except Fault (Option UInt32)
  | [], _, hashkey => .ok (some hashkey)
  | none :: keyvals, i, hashkey =>
    match hashStrict[i]? with
    | none => .error .outOfBounds
    | some strict =>
      if strict && !keepNulls then .ok none
      else hashLoop hashfunctions hashStrict keepNulls keyvals (i + 1) (rotate hashkey)
  | some keyval :: keyvals, i, hashkey =>
    match hashfunctions[i]? with
    | none => .error .outOfBounds
    | some f => hashLoop hashfunctions hashStrict keepNulls keyvals (i + 1) (rotate hashkey ^^^ f keyval)

def execHashGetHashValue (T : HashTable α) (hashkeys : List (α → Option UInt64)) (slot : MinimalTuple α)
    (outerTuple keepNulls : Bool) : Except Fault (Option UInt32) :=
  let hashfunctions := if outerTuple then T.functions.outer else T.functions.inner
  hashLoop hashfunctions T.functions.strict keepNulls (hashkeys.map fun key => key slot.body) 0 0

/-- the hash value `ExecPrivateHash` asks for -/
def privateHashValue (node : HashState α) (slot : MinimalTuple α) : Except Fault (Option UInt32) :=
  execHashGetHashValue node.hashtable node.hashkeys slot false node.hashtable.keepNulls

/-- One call, with the child's remaining tuples and what the variable `hashvalue` holds
before it is assigned. -/
def execPrivateHash (uninitialised : UInt32) (node : HashState α) (child : List (MinimalTuple α)) :
    Except Fault (Option (MinimalTuple α) × HashState α × List (MinimalTuple α)) :=
  match child with
  | [] => .ok (none, node, [])
  | slot :: child =>
    (privateHashValue node slot).bind fun value =>
      let T := node.hashtable
      let T := if value.isSome then { T with totalTuples := T.totalTuples + 1 } else T
      (T.execHashTableInsert slot (value.getD uninitialised)).bind fun (T, loc) =>
        let totalTuples := T.totalTuples + 1
        let spaceUsed := T.spaceUsed + T.nbuckets * sizeofPointer
        let T := { T with
          totalTuples := totalTuples
          spaceUsed := spaceUsed
          spacePeak := max T.spacePeak spaceUsed
          partialTuples := totalTuples }
        .ok (some slot, { node with hashtable := T, lastInsert := some loc }, child)

/-- One call after the other, one for each value of the uninitialised variable. -/
def calls : List UInt32 → HashState α → List (MinimalTuple α) →
    Except Fault (HashState α × List (MinimalTuple α))
  | [], node, child => .ok (node, child)
  | u :: us, node, child =>
    (execPrivateHash u node child).bind fun (_, node, child) => calls us node child

end PrivateHash

end Pg
