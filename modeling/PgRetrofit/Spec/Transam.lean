import PgRetrofit.Lib.SerialOrder

/-! Transaction ids and their order, `access/transam.h` and `access/transam/transam.c`; the members
of a multixact, `access/multixact.h`; snapshots, `utils/snapshot.h` and `XidInMVCCSnapshot` of
`utils/time/snapmgr.c`. -/

namespace Pg

abbrev TransactionId := UInt32

def invalidTransactionId : TransactionId := 0
def firstNormalTransactionId : TransactionId := 3

def transactionIdIsValid (xid : TransactionId) : Bool := xid != invalidTransactionId

def transactionIdIsNormal (xid : TransactionId) : Bool := xid ≥ firstNormalTransactionId

def transactionIdAdvance (xid : TransactionId) : TransactionId :=
  if xid + 1 < firstNormalTransactionId then firstNormalTransactionId else xid + 1

/-- The four comparisons: unsigned if one of the ids is special, else by the sign of
`(int32) (id1 - id2)`. -/
def transactionIdCompare (unsigned : UInt32 → UInt32 → Bool) (modulo : ℤ → Bool)
    (id1 id2 : TransactionId) : Bool :=
  if !transactionIdIsNormal id1 || !transactionIdIsNormal id2 then unsigned id1 id2
  else modulo (SerialOrder.signed (id1 - id2))

def transactionIdPrecedes : TransactionId → TransactionId → Bool :=
  transactionIdCompare (fun a b => a < b) fun diff => diff < 0

def transactionIdPrecedesOrEquals : TransactionId → TransactionId → Bool :=
  transactionIdCompare (fun a b => a ≤ b) fun diff => diff ≤ 0

def transactionIdFollowsOrEquals : TransactionId → TransactionId → Bool :=
  transactionIdCompare (fun a b => a ≥ b) fun diff => diff ≥ 0

def xidFromFull (fxid : ℕ) : TransactionId := UInt32.ofNat fxid

/-- a full id whose id is not special -/
def IsNormal (fxid : ℕ) : Prop := 3 ≤ fxid % 2 ^ 32

instance (fxid : ℕ) : Decidable (IsNormal fxid) := inferInstanceAs (Decidable (3 ≤ fxid % 2 ^ 32))

def fullTransactionIdAdvance (fxid : ℕ) : ℕ :=
  if (fxid + 1) % 2 ^ 32 < 3 then fxid + 1 + (3 - (fxid + 1) % 2 ^ 32) else fxid + 1

inductive MultiXactStatus
  | forKeyShare
  | forShare
  | forNoKeyUpdate
  | forUpdate
  | noKeyUpdate
  | update
deriving DecidableEq, Repr

def MultiXactStatus.code : MultiXactStatus → UInt32
  | forKeyShare => 0
  | forShare => 1
  | forNoKeyUpdate => 2
  | forUpdate => 3
  | noKeyUpdate => 4
  | update => 5

def isUpdateFromMxstatus (status : MultiXactStatus) : Bool :=
  status.code > MultiXactStatus.forUpdate.code

structure MultiXactMember where
  xid : TransactionId
  status : MultiXactStatus
deriving DecidableEq

abbrev CommandId := UInt32

structure Snapshot where
  xmin : TransactionId
  xmax : TransactionId
  xip : List TransactionId
  subxip : List TransactionId
  suboverflowed : Bool
  takenDuringRecovery : Bool
  curcid : CommandId

/-- Is the xid still in progress according to the snapshot? The first argument is
`SubTransGetTopmostTransaction`. -/
def xidInMVCCSnapshot (subTransGetTopmostTransaction : TransactionId → TransactionId)
    (xid : TransactionId) (snapshot : Snapshot) : Bool :=
  if transactionIdPrecedes xid snapshot.xmin then false
  else if transactionIdFollowsOrEquals xid snapshot.xmax then true
  else if !snapshot.takenDuringRecovery then
    if !snapshot.suboverflowed then snapshot.subxip.contains xid || snapshot.xip.contains xid
    else
      let xid := subTransGetTopmostTransaction xid
      if transactionIdPrecedes xid snapshot.xmin then false else snapshot.xip.contains xid
  else if snapshot.suboverflowed then
    let xid := subTransGetTopmostTransaction xid
    if transactionIdPrecedes xid snapshot.xmin then false else snapshot.subxip.contains xid
  else snapshot.subxip.contains xid

end Pg
