import PgRetrofit.Spec.Simple8b

/-! The integer sets of `lib/integerset.c`: a buffer of new values in front of a B-tree
that grows along its right edge only. -/

namespace Pg

open Simple8b

def maxInternalItems : ℕ := 64

def maxLeafItems : ℕ := 64

def maxTreeLevels : ℕ := 11

def maxValuesPerLeafItem : ℕ := 1 + simple8bMaxValuesPerCodeword

def maxBufferedValues : ℕ := maxValuesPerLeafItem * 2

structure LeafItem where
  first : UInt64
  codeword : UInt64

structure LeafNode where
  items : List LeafItem
  /-- right sibling, if any -/
  next : Option ℕ

/-- A pointer to a node: its level and its number among the nodes of that level. -/
structure NodePtr where
  level : ℕ
  index : ℕ
deriving DecidableEq

/-- The `values` and `downlinks` of an internal node. -/
structure InternalNode where
  items : List (UInt64 × NodePtr)

inductive IterValues
  | null
  | iterValuesBuf
  | bufferedValues
deriving DecidableEq

/-- The set, with the nodes it has allocated. -/
structure IntegerSet where
  numEntries : UInt64
  highestValue : UInt64
  numLevels : ℕ
  root : Option NodePtr
  rightmostNodes : ℕ → Option NodePtr
  leftmostLeaf : Option ℕ
  bufferedValues : List UInt64
  iterActive : Bool
  iterValues : IterValues
  iterNumValues : ℕ
  iterValueno : ℕ
  iterNode : Option ℕ
  iterItemno : ℕ
  iterValuesBuf : List UInt64
  leaves : List LeafNode
  internals : ℕ → List InternalNode

namespace IntegerSet

/-- How a call on a set ends, and the set it leaves, also on an error. -/
abbrev Outcome := EStateM.Result Fault IntegerSet Unit

def intsetCreate : IntegerSet where
  numEntries := 0
  highestValue := 0
  numLevels := 0
  root := none
  rightmostNodes := fun _ => none
  leftmostLeaf := none
  bufferedValues := []
  iterActive := false
  iterValues := .null
  iterNumValues := 0
  iterValueno := 0
  iterNode := none
  iterItemno := 0
  iterValuesBuf := []
  leaves := []
  internals := fun _ => []

/-- the first value on a node, to be used as the downlink -/
def firstValue (intset : IntegerSet) (node : NodePtr) : Option UInt64 :=
  match node.level with
  | 0 => intset.leaves[node.index]?.bind fun leaf => leaf.items.head?.map LeafItem.first
  | level + 1 => (intset.internals (level + 1))[node.index]?.bind fun n => n.items.head?.map Prod.fst

/-- A new internal node on a level, rightmost on it, with one downlink. -/
def newInternalNode (intset : IntegerSet) (level : ℕ) (key : UInt64) (child : NodePtr) :
    IntegerSet × NodePtr :=
  let parent : NodePtr := ⟨level, (intset.internals level).length⟩
  ({ intset with
    internals := Function.update intset.internals level (intset.internals level ++ [⟨[(key, child)]⟩])
    rightmostNodes := Function.update intset.rightmostNodes level (some parent) }, parent)

def newRoot (intset : IntegerSet) (level : ℕ) : Outcome :=
  match intset.root with
  | none => .error .outOfBounds intset
  | some oldroot =>
    if intset.numLevels = maxTreeLevels then
      .error (.elog "could not expand integer set, maximum number of levels reached") intset
    else
      match intset.firstValue oldroot with
      | none => .error .outOfBounds intset
      | some downlinkKey =>
        let (new, parent) := intset.newInternalNode level downlinkKey oldroot
        .ok () { new with numLevels := intset.numLevels + 1, root := some parent }

def addDownlink (intset : IntegerSet) (parent : NodePtr) (n : InternalNode) (key : UInt64)
    (child : NodePtr) : IntegerSet :=
  { intset with
    internals := Function.update intset.internals parent.level
      ((intset.internals parent.level).set parent.index ⟨n.items ++ [(key, child)]⟩) }

def intsetUpdateUpper : ℕ → IntegerSet → ℕ → NodePtr → UInt64 → Outcome
  | 0, intset, _, _, _ => .error .diverges intset
  | fuel + 1, intset, level, child, childKey =>
    match if level ≥ intset.numLevels then intset.newRoot level else .ok () intset with
    | .error e intset => .error e intset
    | .ok _ intset =>
      match intset.rightmostNodes level with
      | none => .error .outOfBounds intset
      | some parent =>
        match (intset.internals parent.level)[parent.index]? with
        | none => .error .outOfBounds intset
        | some n =>
          if n.items.length < maxInternalItems then .ok () (intset.addDownlink parent n childKey child)
          else
            -- doesn't fit: a new parent, whose downlink goes to the grandparent
            let (intset, parent) := intset.newInternalNode level childKey child
            intsetUpdateUpper fuel intset (level + 1) parent childKey

/-- Link a new leaf behind `old` and into the tree. -/
def newLeaf (intset : IntegerSet) (old : ℕ) (oldLeaf : LeafNode) (item : LeafItem) : Outcome :=
  let leaf := intset.leaves.length
  intsetUpdateUpper maxTreeLevels { intset with
    leaves := intset.leaves.set old { oldLeaf with next := some leaf } ++ [⟨[], none⟩]
    rightmostNodes := Function.update intset.rightmostNodes 0 (some ⟨0, leaf⟩) } 1 ⟨0, leaf⟩ item.first

def addItem (intset : IntegerSet) (leaf : ℕ) (item : LeafItem) : Outcome :=
  match intset.leaves[leaf]? with
  | none => .error .outOfBounds intset
  | some n =>
    .ok () { intset with leaves := intset.leaves.set leaf { n with items := n.items ++ [item] } }

/-- The packing loop of `intset_flush_buffered_values`, with `num_packed` and the current leaf. -/
def flushLoop (values : List UInt64) : ℕ → IntegerSet → ℕ → ℕ → EStateM.Result Fault IntegerSet ℕ
  | 0, intset, _, _ => .error .diverges intset
  | fuel + 1, intset, numPacked, leaf =>
    if values.length - numPacked ≥ maxValuesPerLeafItem then
      match values[numPacked]?, simple8bEncode (values.drop (numPacked + 1)) (values.getD numPacked 0),
        intset.leaves[leaf]? with
      | some first, .ok (codeword, numEncoded), some n =>
        let item : LeafItem := ⟨first, codeword⟩
        if n.items.length ≥ maxLeafItems then
          match intset.newLeaf leaf n item with
          | .error e intset => .error e intset
          | .ok _ new =>
            match new.addItem intset.leaves.length item with
            | .error e intset => .error e intset
            | .ok _ new => flushLoop values fuel new (numPacked + (1 + numEncoded)) intset.leaves.length
        else
          match intset.addItem leaf item with
          | .error e intset => .error e intset
          | .ok _ new => flushLoop values fuel new (numPacked + (1 + numEncoded)) leaf
      | _, .error e, _ => .error e intset
      | _, _, _ => .error .outOfBounds intset
    else .ok numPacked intset

def firstLeaf (intset : IntegerSet) : IntegerSet :=
  { intset with
    leaves := intset.leaves ++ [⟨[], none⟩]
    root := some ⟨0, intset.leaves.length⟩
    leftmostLeaf := some intset.leaves.length
    rightmostNodes := Function.update intset.rightmostNodes 0 (some ⟨0, intset.leaves.length⟩)
    numLevels := 1 }

def intsetFlushBufferedValues (intset : IntegerSet) : Outcome :=
  let values := intset.bufferedValues
  let start := match intset.rightmostNodes 0 with
    | none => (intset.firstLeaf, intset.leaves.length)
    | some leaf => (intset, leaf.index)
  match flushLoop values (values.length + 1) start.1 0 start.2 with
  | .error e intset => .error e intset
  | .ok numPacked intset => .ok () { intset with bufferedValues := values.drop numPacked }

def intsetAddMember (intset : IntegerSet) (x : UInt64) : Outcome :=
  if intset.iterActive then
    .error (.elog "cannot add new values to integer set while iteration is in progress") intset
  else if x ≤ intset.highestValue && intset.numEntries > 0 then
    .error (.elog "cannot add value to integer set out of order") intset
  else
    match if intset.bufferedValues.length ≥ maxBufferedValues then intset.intsetFlushBufferedValues
      else .ok () intset with
    | .error e intset => .error e intset
    | .ok _ intset =>
      .ok () { intset with
        bufferedValues := intset.bufferedValues ++ [x]
        numEntries := intset.numEntries + 1
        highestValue := x }

/-- One value after the other, up to an error. -/
def addMembers : IntegerSet → List UInt64 → Outcome
  | intset, [] => .ok () intset
  | intset, x :: xs =>
    match intset.intsetAddMember x with
    | .error e intset => .error e intset
    | .ok _ intset => addMembers intset xs

/-- whether the search goes on behind a key -/
def isBehind (item : UInt64) (nextkey : Bool) (v : UInt64) : Bool :=
  if nextkey then item ≥ v else item > v

/-- The loop of the two binary searches. -/
def binsrch (item : UInt64) (arr : List UInt64) (nextkey : Bool) : ℕ → ℕ → ℕ → Except Fault ℕ
  | 0, low, high => if high > low then .error .diverges else .ok low
  | fuel + 1, low, high =>
    if high > low then
      let mid := low + (high - low) / 2
      match arr[mid]? with
      | none => .error .outOfBounds
      | some v =>
        if isBehind item nextkey v then binsrch item arr nextkey fuel (mid + 1) high
        else binsrch item arr nextkey fuel low mid
    else .ok low

def intsetBinsrchUint64 (item : UInt64) (arr : List UInt64) (nextkey : Bool) : Except Fault ℕ :=
  binsrch item arr nextkey arr.length 0 arr.length

def intsetBinsrchLeaf (item : UInt64) (arr : List LeafItem) (nextkey : Bool) : Except Fault ℕ :=
  binsrch item (arr.map LeafItem.first) nextkey arr.length 0 arr.length

/-- Walk down from a node of the given level to the leaf for `x`; `none` if there is none. -/
def walkDown (intset : IntegerSet) (x : UInt64) : ℕ → NodePtr → Except Fault (Option NodePtr)
  | 0, node => .ok (some node)
  | level + 1, node =>
    match (intset.internals node.level)[node.index]? with
    | none => .error .outOfBounds
    | some n =>
      (intsetBinsrchUint64 x (n.items.map Prod.fst) true).bind fun itemno =>
        if itemno = 0 then .ok none
        else
          match n.items[itemno - 1]? with
          | none => .error .outOfBounds
          | some (_, child) => walkDown intset x level child

def leafContains (intset : IntegerSet) (x : UInt64) (node : NodePtr) : Except Fault Bool :=
  match intset.leaves[node.index]? with
  | none => .error .outOfBounds
  | some leaf =>
    (intsetBinsrchLeaf x leaf.items true).bind fun itemno =>
      if itemno = 0 then .ok false
      else
        match leaf.items[itemno - 1]? with
        | none => .error .outOfBounds
        | some item => .ok (item.first = x || simple8bContains item.codeword x item.first)

def intsetIsMember (intset : IntegerSet) (x : UInt64) : Except Fault Bool :=
  if intset.bufferedValues.length > 0 && x ≥ intset.bufferedValues.getD 0 0 then
    (intsetBinsrchUint64 x intset.bufferedValues false).bind fun itemno =>
      if itemno ≥ intset.bufferedValues.length then .ok false
      else
        match intset.bufferedValues[itemno]? with
        | none => .error .outOfBounds
        | some v => .ok (v = x)
  else
    match intset.root with
    | none => .ok false
    | some root =>
      (intset.walkDown x (intset.numLevels - 1) root).bind fun
        | none => .ok false
        | some node => intset.leafContains x node

def intsetBeginIterate (intset : IntegerSet) : IntegerSet :=
  { intset with
    iterActive := true
    iterNode := intset.leftmostLeaf
    iterItemno := 0
    iterValueno := 0
    iterNumValues := 0
    iterValues := .iterValuesBuf }

def iterArray (intset : IntegerSet) : List UInt64 :=
  match intset.iterValues with
  | .null => []
  | .iterValuesBuf => intset.iterValuesBuf
  | .bufferedValues => intset.bufferedValues

def intsetIterateNext : ℕ → IntegerSet → Except Fault (Option UInt64 × IntegerSet)
  | 0, _ => .error .diverges
  | fuel + 1, intset =>
    if intset.iterValueno < intset.iterNumValues then
      match intset.iterArray[intset.iterValueno]? with
      | none => .error .outOfBounds
      | some v => .ok (some v, { intset with iterValueno := intset.iterValueno + 1 })
    else
      match intset.iterNode with
      | some node =>
        match intset.leaves[node]? with
        | none => .error .outOfBounds
        | some leaf =>
          match leaf.items[intset.iterItemno]? with
          | some item =>
            -- decode next item in current leaf node
            let decoded := item.first :: simple8bDecode item.codeword item.first
            intsetIterateNext fuel { intset with
              iterItemno := intset.iterItemno + 1
              iterValuesBuf := decoded
              iterNumValues := decoded.length
              iterValueno := 0 }
          | none => intsetIterateNext fuel { intset with iterNode := leaf.next, iterItemno := 0 }
      | none =>
        if intset.iterValues = .iterValuesBuf then
          intsetIterateNext fuel { intset with
            iterValues := .bufferedValues
            iterNumValues := intset.bufferedValues.length
            iterValueno := 0 }
        else .ok (none, { intset with iterActive := false })

def iterateAll (fuel : ℕ) : ℕ → IntegerSet → Except Fault (List UInt64 × IntegerSet)
  | 0, _ => .error .diverges
  | calls + 1, intset =>
    (intsetIterateNext fuel intset).bind fun
      | (none, intset) => .ok ([], intset)
      | (some v, intset) => (iterateAll fuel calls intset).map fun (vs, intset) => (v :: vs, intset)

end IntegerSet

end Pg
