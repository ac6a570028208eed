import PgRetrofit.Spec.Backend

/-! Lock modes and their conflict table, `storage/lockdefs.h` and `lmgr/lock.c`, one lock object of
the lock manager, `lmgr/lock.c` and `lmgr/proc.c`, and the processes that hold it or wait for it. A
process is named by a number; a pointer to a `PROCLOCK` of the lock is the process it belongs to.
Each call runs under the partition lock. -/

namespace Pg

inductive LockMode
  | accessShare
  | rowShare
  | rowExclusive
  | shareUpdateExclusive
  | share
  | shareRowExclusive
  | exclusive
  | accessExclusive
deriving DecidableEq, Repr

namespace LockMode

def toNat : LockMode → ℕ
  | accessShare => 1
  | rowShare => 2
  | rowExclusive => 3
  | shareUpdateExclusive => 4
  | share => 5
  | shareRowExclusive => 6
  | exclusive => 7
  | accessExclusive => 8

/-- `for (i = 1; i <= numLockModes; i++)` -/
def all : List LockMode :=
  [accessShare, rowShare, rowExclusive, shareUpdateExclusive, share, shareRowExclusive,
    exclusive, accessExclusive]

end LockMode

/-- `LOCKMASK`, an int -/
abbrev LockMask := BitVec 32

def lockBitOn (lockmode : LockMode) : LockMask := 1#32 <<< lockmode.toNat

def lockBitOff (lockmode : LockMode) : LockMask := ~~~ lockBitOn lockmode

def hasMode (mask : LockMask) (lockmode : LockMode) : Bool := mask.getLsbD lockmode.toNat

/-- `LockConflicts`, the table of both lock methods -/
def conflictTab : LockMode → LockMask
  | .accessShare => lockBitOn .accessExclusive
  | .rowShare => lockBitOn .exclusive ||| lockBitOn .accessExclusive
  | .rowExclusive => lockBitOn .share ||| lockBitOn .shareRowExclusive ||| lockBitOn .exclusive |||
      lockBitOn .accessExclusive
  | .shareUpdateExclusive =>
    lockBitOn .shareUpdateExclusive ||| lockBitOn .share ||| lockBitOn .shareRowExclusive |||
      lockBitOn .exclusive ||| lockBitOn .accessExclusive
  | .share =>
    lockBitOn .rowExclusive ||| lockBitOn .shareUpdateExclusive ||| lockBitOn .shareRowExclusive |||
      lockBitOn .exclusive ||| lockBitOn .accessExclusive
  | .shareRowExclusive =>
    lockBitOn .rowExclusive ||| lockBitOn .shareUpdateExclusive ||| lockBitOn .share |||
      lockBitOn .shareRowExclusive ||| lockBitOn .exclusive ||| lockBitOn .accessExclusive
  | .exclusive =>
    lockBitOn .rowShare ||| lockBitOn .rowExclusive ||| lockBitOn .shareUpdateExclusive |||
      lockBitOn .share ||| lockBitOn .shareRowExclusive |||
      lockBitOn .exclusive ||| lockBitOn .accessExclusive
  | .accessExclusive =>
    lockBitOn .accessShare ||| lockBitOn .rowShare ||| lockBitOn .rowExclusive |||
      lockBitOn .shareUpdateExclusive ||| lockBitOn .share |||
      lockBitOn .shareRowExclusive ||| lockBitOn .exclusive ||| lockBitOn .accessExclusive

namespace LockMgr

/-- The field `lockGroupLeader` of the processes. A leader is its own leader. -/
structure LockGroups where
  lockGroupLeader : ℕ → Option ℕ
  leader_leads : ∀ {p l}, lockGroupLeader p = some l → lockGroupLeader l = some l

/-- `proc->lockGroupLeader != NULL ? proc->lockGroupLeader : proc` -/
def LockGroups.leaderOf (groups : LockGroups) (p : ℕ) : ℕ := (groups.lockGroupLeader p).getD p

structure ProcLock where
  myProc : ℕ
  groupLeader : ℕ
  holdMask : LockMask

structure Lock where
  grantMask : LockMask
  waitMask : LockMask
  procLocks : List ProcLock
  waitProcs : List ℕ
  nRequested : ℤ
  requested : LockMode → ℤ
  nGranted : ℤ
  granted : LockMode → ℤ

inductive WaitStatus
  | ok
  | waiting
  | error
deriving DecidableEq

/-- The fields of a `PGPROC`, and of its backend: `lockAwaited`, by its mode, and `nLocks` of its
`LOCALLOCK`s for the lock. -/
structure PgProc where
  waitStatus : WaitStatus
  waitLockMode : LockMode
  heldLocks : LockMask
  lockAwaited : Option LockMode
  nLocks : LockMode → ℕ

structure State where
  lock : Option Lock
  procs : ℕ → PgProc

def idleProc : PgProc := ⟨.ok, .accessShare, 0, none, fun _ => 0⟩

def init : State := ⟨none, fun _ => idleProc⟩

def newLock : Lock := ⟨0, 0, [], [], 0, fun _ => 0, 0, fun _ => 0⟩

def findProcLock (lock : Lock) (p : ℕ) : Option ProcLock :=
  lock.procLocks.find? fun proclock => proclock.myProc = p

def procLockOf (lock : Lock) (p : ℕ) : Except Fault ProcLock :=
  match findProcLock lock p with
  | some proclock => .ok proclock
  | none => .error .outOfBounds

def setHoldMask (procLocks : List ProcLock) (p : ℕ) (f : LockMask → LockMask) : List ProcLock :=
  procLocks.map fun proclock => if proclock.myProc = p then
    { proclock with holdMask := f proclock.holdMask } else proclock

inductive Status
  | ok
  | found
deriving DecidableEq

/-- `conflictsRemaining[i]` after my own locks are subtracted -/
def ownSubtracted (lockmode : LockMode) (lock : Lock) (proclock : ProcLock) (i : LockMode) : ℤ :=
  if conflictTab lockmode &&& lockBitOn i = 0 then 0
  else if proclock.holdMask &&& lockBitOn i ≠ 0 then lock.granted i - 1
  else lock.granted i

/-- Subtract the locks of another member of the group, mode by mode. -/
def subtractModes (intersectMask : LockMask) :
    List LockMode → (LockMode → ℤ) → ℤ → Except Fault ((LockMode → ℤ) × ℤ)
  | [], conflictsRemaining, total => .ok (conflictsRemaining, total)
  | i :: modes, conflictsRemaining, total =>
    if intersectMask &&& lockBitOn i ≠ 0 then
      if conflictsRemaining i ≤ 0 then .error (.elog "proclocks held do not match lock")
      else subtractModes intersectMask modes
        (Function.update conflictsRemaining i (conflictsRemaining i - 1)) (total - 1)
    else subtractModes intersectMask modes conflictsRemaining total

def groupLoop (conflictMask : LockMask) (proclock : ProcLock) :
    List ProcLock → (LockMode → ℤ) → ℤ → Except Fault Status
  | [], _, _ => .ok .found
  | other :: procLocks, conflictsRemaining, total =>
    if proclock.myProc ≠ other.myProc ∧ proclock.groupLeader = other.groupLeader ∧
        other.holdMask &&& conflictMask ≠ 0 then do
      let (conflictsRemaining, total) ← subtractModes (other.holdMask &&& conflictMask) LockMode.all
        conflictsRemaining total
      if total = 0 then .ok .ok else groupLoop conflictMask proclock procLocks conflictsRemaining total
    else groupLoop conflictMask proclock procLocks conflictsRemaining total

/-- `LockCheckConflicts`, called by `myProc` -/
def lockCheckConflicts (groups : LockGroups) (myProc : ℕ) (lockmode : LockMode) (lock : Lock)
    (proclock : ProcLock) : Except Fault Status :=
  let conflictMask := conflictTab lockmode
  if conflictMask &&& lock.grantMask = 0 then .ok .ok
  else
    let conflictsRemaining := ownSubtracted lockmode lock proclock
    let total := (LockMode.all.map conflictsRemaining).sum
    if total = 0 then .ok .ok
    else if proclock.groupLeader = myProc ∧ groups.lockGroupLeader myProc = none then .ok .found
    else groupLoop conflictMask proclock lock.procLocks conflictsRemaining total

def grantLock (lock : Lock) (p : ℕ) (lockmode : LockMode) : Lock :=
  let granted := lock.granted lockmode + 1
  { lock with
    nGranted := lock.nGranted + 1
    granted := Function.update lock.granted lockmode granted
    grantMask := lock.grantMask ||| lockBitOn lockmode
    waitMask := if granted = lock.requested lockmode then lock.waitMask &&& lockBitOff lockmode
      else lock.waitMask
    procLocks := setHoldMask lock.procLocks p (· ||| lockBitOn lockmode) }

/-- `UnGrantLock`, with `wakeupNeeded` -/
def unGrantLock (lock : Lock) (p : ℕ) (lockmode : LockMode) : Lock × Bool :=
  let granted := lock.granted lockmode - 1
  let lock := { lock with
    nRequested := lock.nRequested - 1
    requested := Function.update lock.requested lockmode (lock.requested lockmode - 1)
    nGranted := lock.nGranted - 1
    granted := Function.update lock.granted lockmode granted
    grantMask := if granted = 0 then lock.grantMask &&& lockBitOff lockmode else lock.grantMask
    procLocks := setHoldMask lock.procLocks p (· &&& lockBitOff lockmode) }
  (lock, conflictTab lockmode &&& lock.waitMask ≠ 0)

/-- `ProcWakeup(proc, STATUS_OK)` -/
def procWakeup (lock : Lock) (procs : ℕ → PgProc) (proc : ℕ) : Lock × (ℕ → PgProc) :=
  ({ lock with waitProcs := lock.waitProcs.erase proc },
    Function.update procs proc { procs proc with waitStatus := .ok })

def wakeupLoop (groups : LockGroups) (myProc : ℕ) : List ℕ → LockMask → Lock → (ℕ → PgProc) →
    Except Fault (Lock × (ℕ → PgProc))
  | [], _, lock, procs => .ok (lock, procs)
  | proc :: rest, aheadRequests, lock, procs =>
    let lockmode := (procs proc).waitLockMode
    if conflictTab lockmode &&& aheadRequests = 0 then do
      let proclock ← procLockOf lock proc
      match ← lockCheckConflicts groups myProc lockmode lock proclock with
      | .ok =>
        let (lock, procs) := procWakeup (grantLock lock proc lockmode) procs proc
        wakeupLoop groups myProc rest aheadRequests lock procs
      | .found => wakeupLoop groups myProc rest (aheadRequests ||| lockBitOn lockmode) lock procs
    else wakeupLoop groups myProc rest (aheadRequests ||| lockBitOn lockmode) lock procs

def procLockWakeup (groups : LockGroups) (myProc : ℕ) (lock : Lock) (procs : ℕ → PgProc) :
    Except Fault (Lock × (ℕ → PgProc)) :=
  wakeupLoop groups myProc lock.waitProcs 0 lock procs

def removeProcLock (lock : Lock) (p : ℕ) : Lock :=
  { lock with procLocks := lock.procLocks.filter fun proclock => proclock.myProc ≠ p }

/-- "If this was my last hold on this lock, delete my entry in the proclock table." -/
def dropProcLock (lock : Lock) (p : ℕ) : Except Fault Lock := do
  let proclock ← procLockOf lock p
  .ok (if proclock.holdMask = 0 then removeProcLock lock p else lock)

/-- `CleanUpLock` for the proclock of `p`, called by `myProc` -/
def cleanUpLock (groups : LockGroups) (myProc : ℕ) (lock : Lock) (procs : ℕ → PgProc) (p : ℕ)
    (wakeupNeeded : Bool) : Except Fault State := do
  let lock ← dropProcLock lock p
  if lock.nRequested = 0 then .ok ⟨none, procs⟩
  else if wakeupNeeded then do
    let (lock, procs) ← procLockWakeup groups myProc lock procs
    .ok ⟨some lock, procs⟩
  else .ok ⟨some lock, procs⟩

/-- `RemoveFromWaitQueue`, called by `p` for itself -/
def removeFromWaitQueue (groups : LockGroups) (lock : Lock) (procs : ℕ → PgProc) (p : ℕ) :
    Except Fault State :=
  let lockmode := (procs p).waitLockMode
  let requested := lock.requested lockmode - 1
  let lock := { lock with
    waitProcs := lock.waitProcs.erase p
    nRequested := lock.nRequested - 1
    requested := Function.update lock.requested lockmode requested
    waitMask := if lock.granted lockmode = requested then lock.waitMask &&& lockBitOff lockmode
      else lock.waitMask }
  cleanUpLock groups p lock (Function.update procs p { procs p with waitStatus := .error }) p true

/-- How the search for a place in the wait queue ends. -/
inductive Place
  | before (i : ℕ)
  | deadlock (i : ℕ)
  | grant

def groupHeldLocks (groups : LockGroups) (lock : Lock) (p : ℕ) (heldLocks : LockMask) : LockMask :=
  match groups.lockGroupLeader p with
  | none => heldLocks
  | some leader =>
    lock.procLocks.foldl (fun mask other => if other.groupLeader = leader then mask ||| other.holdMask
      else mask) heldLocks

def sleepLoop (groups : LockGroups) (p : ℕ) (lockmode : LockMode) (lock : Lock) (proclock : ProcLock)
    (procs : ℕ → PgProc) (myHeldLocks : LockMask) :
    List ℕ → ℕ → LockMask → Except Fault Place
  | [], i, _ => .ok (.before i)
  | proc :: rest, i, aheadRequests =>
    if groups.lockGroupLeader p ≠ none ∧ groups.lockGroupLeader p = groups.lockGroupLeader proc then
      sleepLoop groups p lockmode lock proclock procs myHeldLocks rest (i + 1) aheadRequests
    else if conflictTab (procs proc).waitLockMode &&& myHeldLocks ≠ 0 then
      if conflictTab lockmode &&& (procs proc).heldLocks ≠ 0 then .ok (.deadlock i)
      else if conflictTab lockmode &&& aheadRequests = 0 then do
        match ← lockCheckConflicts groups p lockmode lock proclock with
        | .ok => .ok .grant
        | .found => .ok (.before i)
      else .ok (.before i)
    else sleepLoop groups p lockmode lock proclock procs myHeldLocks rest (i + 1)
      (aheadRequests ||| lockBitOn (procs proc).waitLockMode)

def sleepPlace (groups : LockGroups) (p : ℕ) (lockmode : LockMode) (lock : Lock) (proclock : ProcLock)
    (procs : ℕ → PgProc) : Except Fault Place :=
  let myHeldLocks := groupHeldLocks groups lock p (procs p).heldLocks
  if myHeldLocks ≠ 0 then sleepLoop groups p lockmode lock proclock procs myHeldLocks lock.waitProcs 0 0
  else .ok (.before lock.waitProcs.length)

def enqueue (lock : Lock) (procs : ℕ → PgProc) (p : ℕ) (lockmode : LockMode) (i : ℕ) :
    Lock × (ℕ → PgProc) :=
  ({ lock with
      waitProcs := lock.waitProcs.insertIdx i p
      waitMask := lock.waitMask ||| lockBitOn lockmode },
    Function.update procs p { procs p with waitLockMode := lockmode, waitStatus := .waiting })

def grantLockLocal (procs : ℕ → PgProc) (p : ℕ) (lockmode : LockMode) : ℕ → PgProc :=
  Function.update procs p
    { procs p with nLocks := Function.update (procs p).nLocks lockmode ((procs p).nLocks lockmode + 1) }

/-- `ProcSleep`, up to the release of the partition lock -/
def procSleep (groups : LockGroups) (lock : Lock) (procs : ℕ → PgProc) (p : ℕ) (lockmode : LockMode) :
    Except Fault State := do
  let proclock ← procLockOf lock p
  match ← sleepPlace groups p lockmode lock proclock procs with
  | .grant => .ok ⟨some (grantLock lock p lockmode), grantLockLocal procs p lockmode⟩
  | .before i =>
    let (lock, procs) := enqueue lock procs p lockmode i
    .ok ⟨some lock, Function.update procs p { procs p with lockAwaited := some lockmode }⟩
  | .deadlock i =>
    let (lock, procs) := enqueue lock procs p lockmode i
    removeFromWaitQueue groups lock procs p

/-- What `SetupLockInTable` leaves behind: without shared memory the table as it was, or the lock with a
proclock for the request. -/
inductive Setup
  | outOfMemory (lock : Option Lock)
  | ready (lock : Lock)

/-- `SetupLockInTable`; `lockFits` and `procLockFits` say whether a new entry fits into shared
memory. -/
def setupLockInTable (groups : LockGroups) (found : Option Lock) (p : ℕ) (lockmode : LockMode)
    (lockFits procLockFits : Bool) : Except Fault Setup :=
  if found.isNone && !lockFits then .ok (.outOfMemory found)
  else
    let lock := found.getD newLock
    if (findProcLock lock p).isNone && !procLockFits then
      .ok (.outOfMemory (if lock.nRequested = 0 then none else some lock))
    else do
      let lock :=
        if (findProcLock lock p).isNone then
          { lock with procLocks := lock.procLocks ++ [⟨p, groups.leaderOf p, 0⟩] } else lock
      let lock := { lock with
        nRequested := lock.nRequested + 1
        requested := Function.update lock.requested lockmode (lock.requested lockmode + 1) }
      let proclock ← procLockOf lock p
      if proclock.holdMask &&& lockBitOn lockmode ≠ 0 then
        .error (.elog "lock %s on object %u/%u/%u is already held")
      else .ok (.ready lock)

/-- "If lock requested conflicts with locks requested by waiters, must join wait queue. Otherwise,
check for conflict with already-held locks." -/
def acquireStatus (groups : LockGroups) (p : ℕ) (lockmode : LockMode) (lock : Lock) :
    Except Fault Status :=
  if conflictTab lockmode &&& lock.waitMask ≠ 0 then .ok .found
  else do lockCheckConflicts groups p lockmode lock (← procLockOf lock p)

/-- A conditional acquisition that fails removes useless table entries. -/
def giveUp (lock : Lock) (p : ℕ) (lockmode : LockMode) : Except Fault Lock := do
  let lock ← dropProcLock lock p
  .ok { lock with
    nRequested := lock.nRequested - 1
    requested := Function.update lock.requested lockmode (lock.requested lockmode - 1) }

/-- `LockAcquireExtended` of a lock that is not taken by the fast path -/
def lockAcquire (groups : LockGroups) (s : State) (p : ℕ) (lockmode : LockMode)
    (dontWait lockFits procLockFits : Bool) : Except Fault State :=
  if (s.procs p).nLocks lockmode > 0 then .ok { s with procs := grantLockLocal s.procs p lockmode }
  else do
    match ← setupLockInTable groups s.lock p lockmode lockFits procLockFits with
    | .outOfMemory lock => .ok { s with lock := lock }
    | .ready lock =>
      match ← acquireStatus groups p lockmode lock with
      | .ok => .ok ⟨some (grantLock lock p lockmode), grantLockLocal s.procs p lockmode⟩
      | .found =>
        if dontWait then do .ok { s with lock := some (← giveUp lock p lockmode) }
        else do
          let proclock ← procLockOf lock p
          procSleep groups lock
            (Function.update s.procs p { s.procs p with heldLocks := proclock.holdMask }) p lockmode

/-- `LockRelease` of a lock that is not held by the fast path -/
def lockRelease (groups : LockGroups) (s : State) (p : ℕ) (lockmode : LockMode) : Except Fault State :=
  if (s.procs p).nLocks lockmode = 0 then .ok s
  else
    let nLocks := (s.procs p).nLocks lockmode - 1
    let procs := Function.update s.procs p
      { s.procs p with nLocks := Function.update (s.procs p).nLocks lockmode nLocks }
    if nLocks > 0 then .ok { s with procs := procs }
    else
      match s.lock with
      | none => .error (.elog "failed to re-find shared lock object")
      | some lock => do
        let proclock ← procLockOf lock p
        if proclock.holdMask &&& lockBitOn lockmode = 0 then .ok { s with procs := procs }
        else
          let (lock, wakeupNeeded) := unGrantLock lock p lockmode
          cleanUpLock groups p lock procs p wakeupNeeded

/-- The wait of `p` is over, or is given up: `lockAwaited = NULL`, and a lock that has been granted
is remembered in the local table. -/
def endWait (procs : ℕ → PgProc) (p : ℕ) : ℕ → PgProc :=
  let procs := match (procs p).lockAwaited, (procs p).waitStatus with
    | some lockmode, .ok => grantLockLocal procs p lockmode
    | _, _ => procs
  Function.update procs p { procs p with lockAwaited := none }

/-- `LockErrorCleanup`: the wait is cancelled -/
def lockErrorCleanup (groups : LockGroups) (s : State) (p : ℕ) : Except Fault State :=
  match (s.procs p).lockAwaited with
  | none => .ok s
  | some _ =>
    match s.lock with
    | none => .ok { s with procs := endWait s.procs p }
    | some lock =>
      if p ∈ lock.waitProcs then do
        let s ← removeFromWaitQueue groups lock s.procs p
        .ok { s with procs := endWait s.procs p }
      else .ok { s with procs := endWait s.procs p }

/-- A step under the partition lock. -/
inductive Op
  | acquire (p : ℕ) (lockmode : LockMode) (dontWait lockFits procLockFits : Bool)
  | release (p : ℕ) (lockmode : LockMode)
  /-- `ProcSleep` goes on after the process has been woken up -/
  | resume (p : ℕ)
  | cancel (p : ℕ)
  /-- `CheckDeadLock` has found a hard deadlock -/
  | deadlock (p : ℕ)
  /-- `ProcLockWakeup`, called by `p` -/
  | wakeup (p : ℕ)

/-- A process that sleeps does nothing but wake up, be cancelled, or check for deadlock. -/
def Enabled (s : State) : Op → Prop
  | .acquire p _ _ _ _ => (s.procs p).lockAwaited = none
  | .release p _ => (s.procs p).lockAwaited = none
  | .resume p => (s.procs p).lockAwaited ≠ none ∧ (s.procs p).waitStatus ≠ .waiting
  | .cancel _ => True
  | .deadlock p => (s.procs p).lockAwaited ≠ none ∧ (s.procs p).waitStatus = .waiting
  | .wakeup _ => True

def call (groups : LockGroups) (s : State) : Op → Except Fault State
  | .acquire p lockmode dontWait lockFits procLockFits =>
    lockAcquire groups s p lockmode dontWait lockFits procLockFits
  | .release p lockmode => lockRelease groups s p lockmode
  | .resume p => .ok { s with procs := endWait s.procs p }
  | .cancel p => lockErrorCleanup groups s p
  | .deadlock p =>
    match s.lock with
    | none => .error .outOfBounds
    | some lock => removeFromWaitQueue groups lock s.procs p
  | .wakeup p =>
    match s.lock with
    | none => .ok s
    | some lock => do
      let (lock, procs) ← procLockWakeup groups p lock s.procs
      .ok ⟨some lock, procs⟩

inductive Reachable (groups : LockGroups) : State → Prop
  | init : Reachable groups init
  | step {s s' : State} {op : Op} : Reachable groups s → Enabled s op → call groups s op = .ok s' →
      Reachable groups s'

end LockMgr

end Pg
