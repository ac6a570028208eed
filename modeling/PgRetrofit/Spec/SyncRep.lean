import PgRetrofit.Spec.Backend
import PgRetrofit.Spec.Qsort

/-! `syncrep.c`: the standbys that count as synchronous, and the release of backends that wait
for them. -/

namespace Pg.SyncRep

/-- `InvalidXLogRecPtr`. An `XLogRecPtr` is a number; positions are compared only. -/
def invalidXLogRecPtr : ℕ := 0

/-- `SYNC_REP_WAIT_WRITE`, `_FLUSH`, `_APPLY` -/
inductive WaitMode
  | write
  | flush
  | apply
deriving DecidableEq

/-- what a standby has reported -/
structure Positions where
  write : ℕ
  flush : ℕ
  apply : ℕ

def Positions.get (ptrs : Positions) : WaitMode → ℕ
  | .write => ptrs.write
  | .flush => ptrs.flush
  | .apply => ptrs.apply

inductive WalSndState
  | startup
  | backup
  | catchup
  | streaming
  | stopping
deriving DecidableEq

structure WalSnd where
  pid : ℕ
  state : WalSndState
  ptrs : Positions
  syncStandbyPriority : ℕ

structure SyncRepStandbyData where
  ptrs : Positions
  syncStandbyPriority : ℕ
  walsndIndex : ℕ
  isMe : Bool

inductive SyncRepMethod
  | priority
  | quorum
deriving DecidableEq

/-- A parsed `synchronous_standby_names`; the parser refuses the number 0. -/
structure SyncRepConfigData where
  numSync : ℕ
  syncrepMethod : SyncRepMethod
  numSync_pos : 0 < numSync

def sorted {α : Type} (cmp : α → α → ℤ) : List α → Except Fault (List α)
  | [] => .ok []
  | first :: rest =>
    match Qsort.pgQsort cmp ⟨fun i => (first :: rest).getD i first⟩ 0 (first :: rest).length with
    | some mem => .ok (Shuffle.window mem 0 (first :: rest).length)
    | none => .error .diverges

def standbyPriorityComparator (sa sb : SyncRepStandbyData) : ℤ :=
  if sa.syncStandbyPriority ≠ sb.syncStandbyPriority then
    (sa.syncStandbyPriority : ℤ) - sb.syncStandbyPriority
  else (sa.walsndIndex : ℤ) - sb.walsndIndex

/-- The loop over the array, from index `i`; `me` is the index of `MyWalSnd`. -/
def collectStandbys (me : ℕ) : ℕ → List WalSnd → List SyncRepStandbyData
  | _, [] => []
  | i, walsnd :: rest =>
    if walsnd.pid = 0 then collectStandbys me (i + 1) rest
    else if walsnd.state ≠ .streaming ∧ walsnd.state ≠ .stopping then collectStandbys me (i + 1) rest
    else if walsnd.syncStandbyPriority = 0 then collectStandbys me (i + 1) rest
    else if walsnd.ptrs.flush = invalidXLogRecPtr then collectStandbys me (i + 1) rest
    else ⟨walsnd.ptrs, walsnd.syncStandbyPriority, i, i == me⟩ :: collectStandbys me (i + 1) rest

def syncRepGetCandidateStandbys (config : Option SyncRepConfigData) (me : ℕ) (walsnds : List WalSnd) :
    Except Fault (List SyncRepStandbyData) :=
  match config with
  | none => .ok []
  | some config =>
    let standbys := collectStandbys me 0 walsnds
    if config.syncrepMethod = .priority ∧ standbys.length > config.numSync then do
      return (← sorted standbyPriorityComparator standbys).take config.numSync
    else .ok standbys

/-- one position of the loop in `SyncRepGetOldestSyncRecPtr` -/
def older (acc ptr : ℕ) : ℕ := if acc = invalidXLogRecPtr ∨ acc > ptr then ptr else acc

def syncRepGetOldestSyncRecPtr (standbys : List SyncRepStandbyData) : Positions :=
  standbys.foldl
    (fun acc stby => ⟨older acc.write stby.ptrs.write, older acc.flush stby.ptrs.flush,
      older acc.apply stby.ptrs.apply⟩)
    ⟨invalidXLogRecPtr, invalidXLogRecPtr, invalidXLogRecPtr⟩

/-- descending -/
def cmpLsn (lsn1 lsn2 : ℕ) : ℤ := if lsn1 > lsn2 then -1 else if lsn1 = lsn2 then 0 else 1

/-- `array[nth - 1]` of the sorted array -/
def nthLatest (nth : UInt8) (array : List ℕ) : Except Fault ℕ := do
  let array ← sorted cmpLsn array
  if nth = 0 then throw .outOfBounds
  match array[nth.toNat - 1]? with
  | some ptr => return ptr
  | none => throw .outOfBounds

def syncRepGetNthLatestSyncRecPtr (standbys : List SyncRepStandbyData) (nth : UInt8) :
    Except Fault Positions := do
  let write ← nthLatest nth (standbys.map fun stby => stby.ptrs.write)
  let flush ← nthLatest nth (standbys.map fun stby => stby.ptrs.flush)
  let apply ← nthLatest nth (standbys.map fun stby => stby.ptrs.apply)
  return ⟨write, flush, apply⟩

/-- What it returns, the positions and `*am_sync`. The number of standbys is passed on in a byte. -/
def syncRepGetSyncRecPtr (config : Option SyncRepConfigData) (me : ℕ) (walsnds : List WalSnd) :
    Except Fault (Bool × Positions × Bool) :=
  let invalid : Positions := ⟨invalidXLogRecPtr, invalidXLogRecPtr, invalidXLogRecPtr⟩
  match config with
  | none => .ok (false, invalid, false)
  | some config => do
    let standbys ← syncRepGetCandidateStandbys (some config) me walsnds
    let amSync := standbys.any fun stby => stby.isMe
    if !amSync || standbys.length < config.numSync then return (false, invalid, amSync)
    match config.syncrepMethod with
    | .priority => return (true, syncRepGetOldestSyncRecPtr standbys, amSync)
    | .quorum =>
      return (true, ← syncRepGetNthLatestSyncRecPtr standbys (UInt8.ofNat config.numSync), amSync)

inductive SyncRepState
  | notWaiting
  | waiting
  | waitComplete
deriving DecidableEq

structure PgProc where
  waitLSN : ℕ
  syncRepState : SyncRepState

structure State where
  config : Option SyncRepConfigData
  walsnds : List WalSnd
  /-- the index of `MyWalSnd` -/
  me : ℕ
  announceNextTakeover : Bool
  lsn : WaitMode → ℕ
  syncRepQueue : WaitMode → List ℕ
  procs : ℕ → PgProc

/-- Walk a queue from its head: what remains of it, and the processes. -/
def wakeLoop (all : Bool) (lsn : ℕ) : List ℕ → (ℕ → PgProc) → List ℕ × (ℕ → PgProc)
  | [], procs => ([], procs)
  | proc :: rest, procs =>
    if !all && lsn < (procs proc).waitLSN then (proc :: rest, procs)
    else wakeLoop all lsn rest
      (Function.update procs proc { procs proc with syncRepState := .waitComplete })

def syncRepWakeQueue (all : Bool) (mode : WaitMode) (s : State) : State :=
  let (queue, procs) := wakeLoop all (s.lsn mode) (s.syncRepQueue mode) s.procs
  { s with syncRepQueue := Function.update s.syncRepQueue mode queue, procs := procs }

/-- Raise the position of a mode and wake its queue. -/
def raise (mode : WaitMode) (ptr : ℕ) (s : State) : State :=
  if s.lsn mode < ptr then syncRepWakeQueue false mode { s with lsn := Function.update s.lsn mode ptr }
    else s

def syncRepReleaseWaiters (s : State) : Except Fault State :=
  match s.walsnds[s.me]? with
  | none => .error .outOfBounds
  | some my =>
    if my.syncStandbyPriority = 0 ∨ (my.state ≠ .streaming ∧ my.state ≠ .stopping) ∨
        my.ptrs.flush = invalidXLogRecPtr then
      .ok { s with announceNextTakeover := true }
    else do
      let (gotRecptr, ptrs, amSync) ← syncRepGetSyncRecPtr s.config s.me s.walsnds
      if !gotRecptr || !amSync then return { s with announceNextTakeover := !amSync }
      let s := { s with announceNextTakeover := false }
      return raise .apply ptrs.apply (raise .flush ptrs.flush (raise .write ptrs.write s))

end Pg.SyncRep
