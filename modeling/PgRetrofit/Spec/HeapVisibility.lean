import PgRetrofit.Lib.Flags
import PgRetrofit.Spec.Transam

/-! Whether a heap tuple is visible, `access/heap/heapam_visibility.c`, by the part of its header
that says who inserted and who deleted or locked it, `access/htup_details.h`. -/

namespace Pg

open Flags

/-- `t_field3` is `t_cid`, or `t_xvac` of an old-style `VACUUM FULL`. -/
structure HeapTupleHeader where
  tXmin : TransactionId
  tXmax : TransactionId
  tField3 : UInt32
  tInfomask : UInt16
deriving DecidableEq

def heapXmaxKeyshrLock : UInt16 := mask 4 -- 0x0010
def heapCombocid : UInt16 := mask 5 -- 0x0020
def heapXmaxExclLock : UInt16 := mask 6 -- 0x0040
def heapXmaxLockOnly : UInt16 := mask 7 -- 0x0080
def heapXminCommitted : UInt16 := mask 8 -- 0x0100
def heapXminInvalid : UInt16 := mask 9 -- 0x0200
def heapXmaxCommitted : UInt16 := mask 10 -- 0x0400
def heapXmaxInvalid : UInt16 := mask 11 -- 0x0800
def heapXmaxIsMulti : UInt16 := mask 12 -- 0x1000
def heapMovedOff : UInt16 := mask 14 -- 0x4000
def heapMovedIn : UInt16 := mask 15 -- 0x8000

def heapXminFrozen : UInt16 := heapXminCommitted ||| heapXminInvalid
def heapMoved : UInt16 := heapMovedOff ||| heapMovedIn
def heapXmaxShrLock : UInt16 := heapXmaxExclLock ||| heapXmaxKeyshrLock
def heapLockMask : UInt16 := heapXmaxShrLock ||| heapXmaxExclLock ||| heapXmaxKeyshrLock

def heapXmaxIsLockedOnly (infomask : UInt16) : Bool :=
  infomask &&& heapXmaxLockOnly ≠ 0 ||
    infomask &&& (heapXmaxIsMulti ||| heapLockMask) == heapXmaxExclLock

def heapLockedUpgraded (infomask : UInt16) : Bool :=
  infomask &&& heapXmaxIsMulti ≠ 0 && infomask &&& heapXmaxLockOnly ≠ 0 &&
    infomask &&& (heapXmaxExclLock ||| heapXmaxKeyshrLock) == 0

namespace HeapTupleHeader

variable (tup : HeapTupleHeader)

/-- `tup->t_infomask & bits` as a condition -/
def has (bits : UInt16) : Bool := tup.tInfomask &&& bits ≠ 0

def xminCommitted : Bool := tup.has heapXminCommitted

def xminInvalid : Bool := tup.tInfomask &&& (heapXminCommitted ||| heapXminInvalid) == heapXminInvalid

def xminFrozen : Bool := tup.tInfomask &&& heapXminFrozen == heapXminFrozen

def lockedOnly : Bool := heapXmaxIsLockedOnly tup.tInfomask

def getRawXmin : TransactionId := tup.tXmin

def getRawXmax : TransactionId := tup.tXmax

def getRawCommandId : CommandId := tup.tField3

def getXvac : TransactionId := if tup.has heapMoved then tup.tField3 else invalidTransactionId

end HeapTupleHeader

/-- What is reported of transactions in the course of time. Both reports are final: that a
transaction committed, and that it is no longer in progress. -/
structure Xacts where
  isInProgress : ℕ → TransactionId → Bool
  didCommit : ℕ → TransactionId → Bool
  committed_forever : ∀ {t t' xid}, t ≤ t' → didCommit t xid = true → didCommit t' xid = true
  ended_forever : ∀ {t t' xid}, t ≤ t' → isInProgress t xid = false →
    isInProgress t' xid = false ∧ didCommit t' xid = didCommit t xid

/-- What a backend looks at during a call that starts at time `now`: the first question about
a transaction is asked at `now`, the next one at `now + 1`, and so on. -/
structure Backend where
  xacts : Xacts
  now : ℕ
  /-- `TransactionIdIsCurrentTransactionId` -/
  isCurrent : TransactionId → Bool
  /-- the own transaction outlives the call -/
  current_running : ∀ {t xid}, t ≤ now + 4 → isCurrent xid = true → xacts.isInProgress t xid = true
  /-- `GetMultiXactIdMembers` -/
  members : TransactionId → List MultiXactMember
  /-- `comboCids[combocid].cmin` and `.cmax` -/
  comboCids : CommandId → CommandId × CommandId
  subTransGetTopmostTransaction : TransactionId → TransactionId
  bufferIsPermanent : Bool
  bufferLSN : UInt64
  commitLSN : TransactionId → UInt64
  xlogNeedsFlush : UInt64 → Bool

namespace Backend

variable (b : Backend)

/-- `TransactionIdIsInProgress`, at step `k` of the call -/
def inProgress (k : ℕ) (xid : TransactionId) : Bool := b.xacts.isInProgress (b.now + k) xid

/-- `TransactionIdDidCommit`, at step `k` of the call -/
def didCommit (k : ℕ) (xid : TransactionId) : Bool := b.xacts.didCommit (b.now + k) xid

def inSnapshot (xid : TransactionId) (snapshot : Snapshot) : Bool :=
  xidInMVCCSnapshot b.subTransGetTopmostTransaction xid snapshot

def multiXactIdGetUpdateXid (multi : TransactionId) : TransactionId :=
  match (b.members multi).find? fun member => isUpdateFromMxstatus member.status with
  | some member => member.xid
  | none => invalidTransactionId

/-- `MultiXactIdIsRunning`, at step `k` -/
def multiXactIdIsRunning (k : ℕ) (multi : TransactionId) : Bool :=
  (b.members multi).any (fun member => b.isCurrent member.xid) ||
    (b.members multi).any fun member => b.inProgress k member.xid

def getUpdateXid (tuple : HeapTupleHeader) : TransactionId := b.multiXactIdGetUpdateXid tuple.getRawXmax

def headerGetUpdateXid (tuple : HeapTupleHeader) : TransactionId :=
  if !tuple.has heapXmaxInvalid && tuple.has heapXmaxIsMulti && !tuple.has heapXmaxLockOnly then
    b.getUpdateXid tuple
  else tuple.getRawXmax

def getCmin (tup : HeapTupleHeader) : CommandId :=
  let cid := tup.getRawCommandId
  if tup.has heapCombocid then (b.comboCids cid).1 else cid

def getCmax (tup : HeapTupleHeader) : CommandId :=
  let cid := tup.getRawCommandId
  if tup.has heapCombocid then (b.comboCids cid).2 else cid

/-- Set hint bits, unless they say that `xid` committed and its commit record may not be
flushed before the buffer is written. -/
def setHintBits (tuple : HeapTupleHeader) (infomask : UInt16) (xid : TransactionId) : HeapTupleHeader :=
  if transactionIdIsValid xid && b.bufferIsPermanent && b.xlogNeedsFlush (b.commitLSN xid) &&
      b.bufferLSN < b.commitLSN xid then
    tuple
  else { tuple with tInfomask := tuple.tInfomask ||| infomask }

/-- The first part of `HeapTupleSatisfiesMVCC`, about the inserting transaction: the result if
there is one already, and the tuple. -/
def mvccXmin (tuple : HeapTupleHeader) (snapshot : Snapshot) : Option Bool × HeapTupleHeader :=
  if !tuple.xminCommitted then
    if tuple.xminInvalid then (some false, tuple)
    else if tuple.has heapMovedOff then
      let xvac := tuple.getXvac
      if b.isCurrent xvac then (some false, tuple)
      else if !b.inSnapshot xvac snapshot then
        if b.didCommit 0 xvac then (some false, b.setHintBits tuple heapXminInvalid invalidTransactionId)
        else (none, b.setHintBits tuple heapXminCommitted invalidTransactionId)
      else (none, tuple)
    else if tuple.has heapMovedIn then
      let xvac := tuple.getXvac
      if !b.isCurrent xvac then
        if b.inSnapshot xvac snapshot then (some false, tuple)
        else if b.didCommit 0 xvac then
          (none, b.setHintBits tuple heapXminCommitted invalidTransactionId)
        else (some false, b.setHintBits tuple heapXminInvalid invalidTransactionId)
      else (none, tuple)
    else if b.isCurrent tuple.getRawXmin then
      if b.getCmin tuple ≥ snapshot.curcid then (some false, tuple)
      else if tuple.has heapXmaxInvalid then (some true, tuple)
      else if tuple.lockedOnly then (some true, tuple)
      else if tuple.has heapXmaxIsMulti then
        let xmax := b.getUpdateXid tuple
        if !b.isCurrent xmax then (some true, tuple)
        else if b.getCmax tuple ≥ snapshot.curcid then (some true, tuple)
        else (some false, tuple)
      else if !b.isCurrent tuple.getRawXmax then
        (some true, b.setHintBits tuple heapXmaxInvalid invalidTransactionId)
      else if b.getCmax tuple ≥ snapshot.curcid then (some true, tuple)
      else (some false, tuple)
    else if b.inSnapshot tuple.getRawXmin snapshot then (some false, tuple)
    else if b.didCommit 0 tuple.getRawXmin then
      (none, b.setHintBits tuple heapXminCommitted tuple.getRawXmin)
    else (some false, b.setHintBits tuple heapXminInvalid invalidTransactionId)
  else if !tuple.xminFrozen && b.inSnapshot tuple.getRawXmin snapshot then (some false, tuple)
  else (none, tuple)

def mvccXmax (tuple : HeapTupleHeader) (snapshot : Snapshot) : Bool × HeapTupleHeader :=
  if tuple.has heapXmaxInvalid then (true, tuple)
  else if tuple.lockedOnly then (true, tuple)
  else if tuple.has heapXmaxIsMulti then
    let xmax := b.getUpdateXid tuple
    if b.isCurrent xmax then (b.getCmax tuple ≥ snapshot.curcid, tuple)
    else if b.inSnapshot xmax snapshot then (true, tuple)
    else if b.didCommit 1 xmax then (false, tuple)
    else (true, tuple)
  else if !tuple.has heapXmaxCommitted then
    if b.isCurrent tuple.getRawXmax then (b.getCmax tuple ≥ snapshot.curcid, tuple)
    else if b.inSnapshot tuple.getRawXmax snapshot then (true, tuple)
    else if !b.didCommit 1 tuple.getRawXmax then
      (true, b.setHintBits tuple heapXmaxInvalid invalidTransactionId)
    else (false, b.setHintBits tuple heapXmaxCommitted tuple.getRawXmax)
  else if b.inSnapshot tuple.getRawXmax snapshot then (true, tuple)
  else (false, tuple)

/-- The result, and the tuple with the hint bits that were set. -/
def heapTupleSatisfiesMVCC (tuple : HeapTupleHeader) (snapshot : Snapshot) : Bool × HeapTupleHeader :=
  match b.mvccXmin tuple snapshot with
  | (some result, tuple) => (result, tuple)
  | (none, tuple) => b.mvccXmax tuple snapshot

inductive HTSVResult
  | dead
  | live
  | recentlyDead
  | insertInProgress
  | deleteInProgress
deriving DecidableEq

/-- At step `k`, for its questions about a multixact's updater. -/
def heapTupleHeaderIsOnlyLocked (k : ℕ) (tuple : HeapTupleHeader) : Bool :=
  if tuple.has heapXmaxInvalid then true
  else if tuple.has heapXmaxLockOnly then true
  else if !transactionIdIsValid tuple.getRawXmax then true
  else if !tuple.has heapXmaxIsMulti then false
  else
    let xmax := b.getUpdateXid tuple
    if b.isCurrent xmax then false
    else if b.inProgress k xmax then false
    else if b.didCommit (k + 1) xmax then false
    else true

/-- The first part of `HeapTupleSatisfiesVacuum`, about the inserting transaction. -/
def vacuumXmin (tuple : HeapTupleHeader) : Option HTSVResult × HeapTupleHeader :=
  if !tuple.xminCommitted then
    if tuple.xminInvalid then (some .dead, tuple)
    else if tuple.has heapMovedOff then
      let xvac := tuple.getXvac
      if b.isCurrent xvac then (some .deleteInProgress, tuple)
      else if b.inProgress 0 xvac then (some .deleteInProgress, tuple)
      else if b.didCommit 1 xvac then
        (some .dead, b.setHintBits tuple heapXminInvalid invalidTransactionId)
      else (none, b.setHintBits tuple heapXminCommitted invalidTransactionId)
    else if tuple.has heapMovedIn then
      let xvac := tuple.getXvac
      if b.isCurrent xvac then (some .insertInProgress, tuple)
      else if b.inProgress 0 xvac then (some .insertInProgress, tuple)
      else if b.didCommit 1 xvac then (none, b.setHintBits tuple heapXminCommitted invalidTransactionId)
      else (some .dead, b.setHintBits tuple heapXminInvalid invalidTransactionId)
    else if b.isCurrent tuple.getRawXmin then
      if tuple.has heapXmaxInvalid then (some .insertInProgress, tuple)
      else if tuple.lockedOnly || b.heapTupleHeaderIsOnlyLocked 0 tuple then
        (some .insertInProgress, tuple)
      else if b.isCurrent (b.headerGetUpdateXid tuple) then (some .deleteInProgress, tuple)
      else (some .insertInProgress, tuple)
    else if b.inProgress 0 tuple.getRawXmin then (some .insertInProgress, tuple)
    else if b.didCommit 1 tuple.getRawXmin then
      (none, b.setHintBits tuple heapXminCommitted tuple.getRawXmin)
    else (some .dead, b.setHintBits tuple heapXminInvalid invalidTransactionId)
  else (none, tuple)

def vacuumXmax (tuple : HeapTupleHeader) (oldestXmin : TransactionId) : HTSVResult × HeapTupleHeader :=
  if tuple.has heapXmaxInvalid then (.live, tuple)
  else if tuple.lockedOnly then
    if !tuple.has heapXmaxCommitted then
      if tuple.has heapXmaxIsMulti then
        if !heapLockedUpgraded tuple.tInfomask && b.multiXactIdIsRunning 2 tuple.getRawXmax then
          (.live, tuple)
        else (.live, b.setHintBits tuple heapXmaxInvalid invalidTransactionId)
      else if b.inProgress 2 tuple.getRawXmax then (.live, tuple)
      else (.live, b.setHintBits tuple heapXmaxInvalid invalidTransactionId)
    else (.live, tuple)
  else if tuple.has heapXmaxIsMulti then
    let xmax := b.getUpdateXid tuple
    if b.inProgress 2 xmax then (.deleteInProgress, tuple)
    else if b.didCommit 3 xmax then
      if !transactionIdPrecedes xmax oldestXmin then (.recentlyDead, tuple) else (.dead, tuple)
    else if !b.multiXactIdIsRunning 4 tuple.getRawXmax then
      (.live, b.setHintBits tuple heapXmaxInvalid invalidTransactionId)
    else (.live, tuple)
  else if !tuple.has heapXmaxCommitted then
    if b.inProgress 2 tuple.getRawXmax then (.deleteInProgress, tuple)
    else if b.didCommit 3 tuple.getRawXmax then
      let tuple := b.setHintBits tuple heapXmaxCommitted tuple.getRawXmax
      if !transactionIdPrecedes tuple.getRawXmax oldestXmin then (.recentlyDead, tuple)
        else (.dead, tuple)
    else (.live, b.setHintBits tuple heapXmaxInvalid invalidTransactionId)
  else if !transactionIdPrecedes tuple.getRawXmax oldestXmin then (.recentlyDead, tuple)
  else (.dead, tuple)

/-- The result, and the tuple with the hint bits that were set. -/
def heapTupleSatisfiesVacuum (tuple : HeapTupleHeader) (oldestXmin : TransactionId) :
    HTSVResult × HeapTupleHeader :=
  match b.vacuumXmin tuple with
  | (some result, tuple) => (result, tuple)
  | (none, tuple) => b.vacuumXmax tuple oldestXmin

end Backend

def heapTupleIsSurelyDead (tuple : HeapTupleHeader) (oldestXmin : TransactionId) : Bool :=
  if !tuple.xminCommitted then tuple.xminInvalid
  else if tuple.has heapXmaxInvalid then false
  else if tuple.lockedOnly then false
  else if tuple.has heapXmaxIsMulti then false
  else if !tuple.has heapXmaxCommitted then false
  else transactionIdPrecedes tuple.getRawXmax oldestXmin

end Pg
