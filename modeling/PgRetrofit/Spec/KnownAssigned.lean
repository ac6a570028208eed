import PgRetrofit.Spec.Backend
import PgRetrofit.Spec.Transam

/-! The xids that a standby takes to be running, `storage/ipc/procarray.c`: a sorted array
with gaps, filled at its head and emptied at its tail. -/

namespace Pg

/-- The fields of `ProcArrayStruct` for the array, and the two arrays themselves, of which
`maxKnownAssignedXids` entries are allocated. -/
structure KnownAssigned where
  maxKnownAssignedXids : ℕ
  maxProcs : ℕ
  numKnownAssignedXids : ℤ
  tailKnownAssignedXids : ℕ
  headKnownAssignedXids : ℕ
  knownAssignedXids : ℕ → TransactionId
  knownAssignedXidsValid : ℕ → Bool

namespace KnownAssigned

/-- How a call ends, and what it leaves, also on an error. -/
abbrev Outcome (α : Type) := EStateM.Result Fault KnownAssigned α

def create (maxKnownAssignedXids maxProcs : ℕ) : KnownAssigned where
  maxKnownAssignedXids := maxKnownAssignedXids
  maxProcs := maxProcs
  numKnownAssignedXids := 0
  tailKnownAssignedXids := 0
  headKnownAssignedXids := 0
  knownAssignedXids := fun _ => 0
  knownAssignedXidsValid := fun _ => false

/-- a value stored in an `int` -/
def toInt (n : ℤ) : ℤ := n.bmod (2 ^ 32)

def store (s : KnownAssigned) (i : ℕ) (xid : TransactionId) (valid : Bool) : KnownAssigned :=
  { s with
    knownAssignedXids := Function.update s.knownAssignedXids i xid
    knownAssignedXidsValid := Function.update s.knownAssignedXidsValid i valid }

/-- The loop of `KnownAssignedXidsCompress`, over `count` entries from `i` on. -/
def compressLoop : ℕ → KnownAssigned → ℕ → ℕ → Outcome ℕ
  | 0, s, _, compressIndex => .ok compressIndex s
  | count + 1, s, i, compressIndex =>
    if i < s.maxKnownAssignedXids then
      if s.knownAssignedXidsValid i then
        compressLoop count (s.store compressIndex (s.knownAssignedXids i) true)
          (i + 1) (compressIndex + 1)
      else compressLoop count s (i + 1) compressIndex
    else .error .outOfBounds s

def knownAssignedXidsCompress (s : KnownAssigned) (force : Bool) : Outcome Unit :=
  let head := s.headKnownAssignedXids
  let tail := s.tailKnownAssignedXids
  let nelements : ℤ := head - tail
  if !force && (nelements < 4 * s.maxProcs || nelements < 2 * s.numKnownAssignedXids) then .ok () s
  else
    match compressLoop (head - tail) s tail 0 with
    | .error e s => .error e s
    | .ok compressIndex s =>
      .ok () { s with tailKnownAssignedXids := 0, headKnownAssignedXids := compressIndex }

def countXids (toXid : TransactionId) : ℕ → ℤ → TransactionId → Except Fault ℤ
  | 0, _, _ => .error .diverges
  | fuel + 1, nxids, nextXid =>
    if transactionIdPrecedes nextXid toXid then
      countXids toXid fuel (toInt (nxids + 1)) (transactionIdAdvance nextXid)
    else .ok nxids

def slotsNeeded (fuel : ℕ) (fromXid toXid : TransactionId) : Except Fault ℤ :=
  if toXid ≥ fromXid then .ok (toInt (toXid - fromXid + 1).toNat) else countXids toXid fuel 1 fromXid

def insertLoop : ℕ → KnownAssigned → ℕ → TransactionId → Outcome ℕ
  | 0, s, head, _ => .ok head s
  | count + 1, s, head, nextXid =>
    if head < s.maxKnownAssignedXids then
      insertLoop count (s.store head nextXid true) (head + 1) (transactionIdAdvance nextXid)
    else .error .outOfBounds s

def makeRoom (s : KnownAssigned) (nxids : ℤ) : Outcome Unit :=
  if toInt (s.headKnownAssignedXids + nxids) > s.maxKnownAssignedXids then
    match s.knownAssignedXidsCompress true with
    | .error e s => .error e s
    | .ok _ s =>
      if toInt (s.headKnownAssignedXids + nxids) > s.maxKnownAssignedXids then
        .error (.elog "too many KnownAssignedXids") s
      else .ok () s
  else .ok () s

/-- Add the xids from `fromXid` to `toXid`; the fuel is for counting them. -/
def knownAssignedXidsAdd (fuel : ℕ) (s : KnownAssigned) (fromXid toXid : TransactionId) : Outcome Unit :=
  match slotsNeeded fuel fromXid toXid with
  | .error e => .error e s
  | .ok nxids =>
    let head := s.headKnownAssignedXids
    let tail := s.tailKnownAssignedXids
    if head > tail && transactionIdFollowsOrEquals (s.knownAssignedXids (head - 1)) fromXid then
      .error (.elog "out-of-order XID insertion in KnownAssignedXids") s
    else
      match s.makeRoom nxids with
      | .error e s => .error e s
      | .ok _ s =>
        match insertLoop nxids.toNat s s.headKnownAssignedXids fromXid with
        | .error e s => .error e s
        | .ok head s => .ok () { s with
            numKnownAssignedXids := toInt (s.numKnownAssignedXids + nxids)
            headKnownAssignedXids := head }

/-- The binary search between `first` and `last`, and the index it finds. -/
def searchLoop (s : KnownAssigned) (xid : TransactionId) : ℕ → ℤ → ℤ → Except Fault (Option ℕ)
  | 0, first, last => if first ≤ last then .error .diverges else .ok none
  | fuel + 1, first, last =>
    if first ≤ last then
      let midIndex := (first + last) / 2
      if 0 ≤ midIndex ∧ midIndex < s.maxKnownAssignedXids then
        let midXid := s.knownAssignedXids midIndex.toNat
        if xid = midXid then .ok (some midIndex.toNat)
        else if transactionIdPrecedes xid midXid then searchLoop s xid fuel first (midIndex - 1)
        else searchLoop s xid fuel (midIndex + 1) last
      else .error .outOfBounds
    else .ok none

def skipInvalid (s : KnownAssigned) : ℕ → ℕ → ℕ
  | 0, i => i
  | count + 1, i => if s.knownAssignedXidsValid i then i else skipInvalid s count (i + 1)

/-- Set the tail pointer, or both pointers to zero if the array is empty. -/
def setTail (s : KnownAssigned) (tail : ℕ) : KnownAssigned :=
  if tail ≥ s.headKnownAssignedXids then
    { s with headKnownAssignedXids := 0, tailKnownAssignedXids := 0 }
  else { s with tailKnownAssignedXids := tail }

/-- Search for an xid and optionally remove it; `true` if it was found. -/
def knownAssignedXidsSearch (s : KnownAssigned) (xid : TransactionId) (remove : Bool) : Outcome Bool :=
  let tail := s.tailKnownAssignedXids
  let head := s.headKnownAssignedXids
  match searchLoop s xid s.maxKnownAssignedXids tail (head - 1) with
  | .error e => .error e s
  | .ok none => .ok false s
  | .ok (some resultIndex) =>
    if !s.knownAssignedXidsValid resultIndex then .ok false s
    else if remove then
      let s := { s with
        knownAssignedXidsValid := Function.update s.knownAssignedXidsValid resultIndex false
        numKnownAssignedXids := s.numKnownAssignedXids - 1 }
      -- removing the tail element: advance the tail pointer
      if resultIndex = tail then .ok true (s.setTail (s.skipInvalid (head - (tail + 1)) (tail + 1)))
      else .ok true s
    else .ok true s

def knownAssignedXidExists (s : KnownAssigned) (xid : TransactionId) : Outcome Bool :=
  s.knownAssignedXidsSearch xid false

def knownAssignedXidsRemove (s : KnownAssigned) (xid : TransactionId) : Outcome Unit :=
  match s.knownAssignedXidsSearch xid true with
  | .error e s => .error e s
  | .ok _ s => .ok () s

def removeAll : KnownAssigned → List TransactionId → Outcome Unit
  | s, [] => .ok () s
  | s, xid :: xids =>
    match s.knownAssignedXidsRemove xid with
    | .error e s => .error e s
    | .ok _ s => removeAll s xids

def knownAssignedXidsRemoveTree (s : KnownAssigned) (xid : TransactionId)
    (subxids : List TransactionId) : Outcome Unit :=
  match removeAll s (if transactionIdIsValid xid then xid :: subxids else subxids) with
  | .error e s => .error e s
  | .ok _ s => s.knownAssignedXidsCompress false

/-- Mark entries before `removeXid` invalid, except prepared transactions; counts them. -/
def pruneLoop (isPrepared : TransactionId → Bool) (removeXid : TransactionId) :
    ℕ → KnownAssigned → ℕ → ℤ → Outcome ℤ
  | 0, s, _, pruned => .ok pruned s
  | count + 1, s, i, pruned =>
    if i < s.maxKnownAssignedXids then
      if s.knownAssignedXidsValid i then
        if transactionIdFollowsOrEquals (s.knownAssignedXids i) removeXid then .ok pruned s
        else if !isPrepared (s.knownAssignedXids i) then
          pruneLoop isPrepared removeXid count
            { s with knownAssignedXidsValid := Function.update s.knownAssignedXidsValid i false }
            (i + 1) (pruned + 1)
        else pruneLoop isPrepared removeXid count s (i + 1) pruned
      else pruneLoop isPrepared removeXid count s (i + 1) pruned
    else .error .outOfBounds s

/-- Prune up to, but not including `removeXid`, or everything if it is invalid. `isPrepared` is
`StandbyTransactionIdIsPrepared`. -/
def knownAssignedXidsRemovePreceding (s : KnownAssigned) (isPrepared : TransactionId → Bool)
    (removeXid : TransactionId) :
    Outcome Unit :=
  if !transactionIdIsValid removeXid then
    .ok () { s with numKnownAssignedXids := 0, headKnownAssignedXids := 0, tailKnownAssignedXids := 0 }
  else
    let tail := s.tailKnownAssignedXids
    let head := s.headKnownAssignedXids
    match pruneLoop isPrepared removeXid (head - tail) s tail 0 with
    | .error e s => .error e s
    | .ok pruned s =>
      let s := { s with numKnownAssignedXids := s.numKnownAssignedXids - pruned }
      (s.setTail (s.skipInvalid (head - tail) tail)).knownAssignedXidsCompress false

/-- The loop of `KnownAssignedXidsGetAndSetXmin`; `first` while nothing has been copied. -/
def getLoop (s : KnownAssigned) (xmax : TransactionId) :
    ℕ → ℕ → Bool → TransactionId → Except Fault (List TransactionId × TransactionId)
  | 0, _, _, xmin => .ok ([], xmin)
  | count + 1, i, first, xmin =>
    if i < s.maxKnownAssignedXids then
      if s.knownAssignedXidsValid i then
        let knownXid := s.knownAssignedXids i
        let xmin := if first && transactionIdPrecedes knownXid xmin then knownXid else xmin
        if transactionIdIsValid xmax && transactionIdFollowsOrEquals knownXid xmax then .ok ([], xmin)
        else (getLoop s xmax count (i + 1) false xmin).map fun (xarray, xmin) =>
          (knownXid :: xarray, xmin)
      else getLoop s xmax count (i + 1) first xmin
    else .error .outOfBounds

/-- The xids before `xmax`, and `xmin` reduced to the lowest one if that is lower. -/
def knownAssignedXidsGetAndSetXmin (s : KnownAssigned) (xmin xmax : TransactionId) :
    Except Fault (List TransactionId × TransactionId) :=
  getLoop s xmax (s.headKnownAssignedXids - s.tailKnownAssignedXids) s.tailKnownAssignedXids true xmin

/-- The calls on the array. Ranges to add are given by their full transaction ids. -/
inductive Call
  | add (fromXid toXid : ℕ)
  | remove (xid : TransactionId)
  | removeTree (xid : TransactionId) (subxids : List TransactionId)
  | removePreceding (isPrepared : TransactionId → Bool) (removeXid : TransactionId)
  | compress (force : Bool)

def Call.exec (fuel : ℕ) (s : KnownAssigned) : Call → Outcome Unit
  | .add fromXid toXid => s.knownAssignedXidsAdd fuel (xidFromFull fromXid) (xidFromFull toXid)
  | .remove xid => s.knownAssignedXidsRemove xid
  | .removeTree xid subxids => s.knownAssignedXidsRemoveTree xid subxids
  | .removePreceding isPrepared removeXid => s.knownAssignedXidsRemovePreceding isPrepared removeXid
  | .compress force => s.knownAssignedXidsCompress force

end KnownAssigned

end Pg
