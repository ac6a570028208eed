import PgRetrofit.Spec.KnownAssigned

/-! The array of backends and the snapshots taken from it, `GetSnapshotData` of
`storage/ipc/procarray.c`. -/

namespace Pg

/-- `NormalTransactionIdPrecedes`, for normal ids only -/
def normalTransactionIdPrecedes (id1 id2 : TransactionId) : Bool := SerialOrder.signed (id1 - id2) < 0

def procInVacuum : UInt8 := 0x02
def procInLogicalDecoding : UInt8 := 0x10

/-- A backend: its `PGXACT`, and the `nxids` cached xids of its `PGPROC`. -/
structure PgXact where
  xid : TransactionId
  xmin : TransactionId
  vacuumFlags : UInt8
  overflowed : Bool
  subxids : List TransactionId

/-- What `GetSnapshotData` reads. The backends are in the order of `pgprocnos`; the one at
`myPgXact` is the caller's. -/
structure ProcArray where
  procs : List PgXact
  myPgXact : ℕ
  latestCompletedXid : TransactionId
  recoveryInProgress : Bool
  knownAssigned : KnownAssigned
  lastOverflowedXid : TransactionId
  replicationSlotXmin : TransactionId
  replicationSlotCatalogXmin : TransactionId
  vacuumDeferCleanupAge : UInt32
  currentCommandId : CommandId

namespace ProcArray

structure Scan where
  globalxmin : TransactionId
  xmin : TransactionId
  xip : List TransactionId
  subxip : List TransactionId
  suboverflowed : Bool

/-- backends doing logical decoding or lazy vacuum are skipped -/
def skipped (pgxact : PgXact) : Bool :=
  pgxact.vacuumFlags &&& (procInLogicalDecoding ||| procInVacuum) ≠ 0

def scanProc (xmax : TransactionId) (mine : Bool) (s : Scan) (pgxact : PgXact) : Scan :=
  if skipped pgxact then s
  else
    let s :=
      if transactionIdIsNormal pgxact.xmin && normalTransactionIdPrecedes pgxact.xmin s.globalxmin then
        { s with globalxmin := pgxact.xmin }
      else s
    let xid := pgxact.xid
    if !transactionIdIsNormal xid || !normalTransactionIdPrecedes xid xmax then s
    else
      let s := if normalTransactionIdPrecedes xid s.xmin then { s with xmin := xid } else s
      if mine then s
      else
        let s := { s with xip := s.xip ++ [xid] }
        if !s.suboverflowed then
          if pgxact.overflowed then { s with suboverflowed := true }
          else { s with subxip := s.subxip ++ pgxact.subxids }
        else s

def scanProcs (xmax : TransactionId) (myPgXact : ℕ) : ℕ → List PgXact → Scan → Scan
  | _, [], s => s
  | index, pgxact :: procs, s =>
    scanProcs xmax myPgXact (index + 1) procs (scanProc xmax (index = myPgXact) s pgxact)

/-- A snapshot, and the variables that are set with it. `myXmin` is `MyPgXact->xmin`. -/
structure SnapshotData where
  snapshot : Snapshot
  myXmin : TransactionId
  recentXmin : TransactionId
  recentGlobalXmin : TransactionId
  recentGlobalDataXmin : TransactionId

/-- Collect the running xids: from the backends, or in recovery from the known assigned ones. -/
def runningXids (a : ProcArray) (xmax : TransactionId) : Except Fault Scan :=
  if !a.recoveryInProgress then
    .ok (scanProcs xmax a.myPgXact 0 a.procs ⟨xmax, xmax, [], [], false⟩)
  else do
    let (subxip, xmin) ← a.knownAssigned.knownAssignedXidsGetAndSetXmin xmax xmax
    .ok ⟨xmax, xmin, [], subxip, transactionIdPrecedesOrEquals xmin a.lastOverflowedXid⟩

/-- `RecentGlobalXmin` before the replication slots are looked at -/
def globalXmin (a : ProcArray) (s : Scan) : TransactionId :=
  let globalxmin := if transactionIdPrecedes s.xmin s.globalxmin then s.xmin else s.globalxmin
  let recent := globalxmin - a.vacuumDeferCleanupAge
  if !transactionIdIsNormal recent then firstNormalTransactionId else recent

def getSnapshotData (a : ProcArray) : Except Fault SnapshotData := do
  let xmax := transactionIdAdvance a.latestCompletedXid
  let s ← a.runningXids xmax
  let myXmin := match a.procs[a.myPgXact]? with
    | some my => if !transactionIdIsValid my.xmin then s.xmin else my.xmin
    | none => s.xmin
  let recent := a.globalXmin s
  let recentData :=
    if transactionIdIsValid a.replicationSlotXmin &&
        normalTransactionIdPrecedes a.replicationSlotXmin recent then
      a.replicationSlotXmin
    else recent
  let recentCatalog :=
    if transactionIdIsNormal a.replicationSlotCatalogXmin &&
        normalTransactionIdPrecedes a.replicationSlotCatalogXmin recentData then
      a.replicationSlotCatalogXmin
    else recentData
  .ok {
    snapshot :=
      { xmin := s.xmin
        xmax := xmax
        xip := s.xip
        subxip := s.subxip
        suboverflowed := s.suboverflowed
        takenDuringRecovery := a.recoveryInProgress
        curcid := a.currentCommandId }
    myXmin := myXmin
    recentXmin := s.xmin
    recentGlobalXmin := recentCatalog
    recentGlobalDataXmin := recentData }

end ProcArray

end Pg
