import PgRetrofit.Proofs.LockWakeup

/-! Every run of the lock manager on one lock: the counts and masks are exact, no two groups hold
modes that conflict, no call fails, and no request in the queue could be granted. -/

namespace Pg.LockMgr

open WaitQueue Result List Function Option

variable {groups : LockGroups} {lock lock' found : Lock} {procs procs' : ℕ → PgProc} {s s' : State}
  {p q : ℕ} {m k : LockMode}

/-- What a process knows of its locks agrees with the lock table. -/
structure LocalAt (lock : Lock) (procs : ℕ → PgProc) (q : ℕ) : Prop where
  queued : q ∈ lock.waitProcs ↔ (procs q).lockAwaited ≠ none ∧ (procs q).waitStatus = .waiting
  awaited : ∀ k, (procs q).lockAwaited = some k →
    (procs q).nLocks k = 0 ∧ ((procs q).waitStatus = .waiting → (procs q).waitLockMode = k) ∧
    (Hold lock q k ↔ (procs q).waitStatus = .ok)
  held : ∀ m, (procs q).lockAwaited ≠ some m → (0 < (procs q).nLocks m ↔ Hold lock q m)

structure Valid (groups : LockGroups) (s : State) : Prop where
  counts : Counts groups none s.theLock s.procs
  settled : Settled groups s.theLock s.procs
  known : ∀ q, LocalAt s.theLock s.procs q

theorem LocalAt.woken (h : LocalAt lock procs q) (hw : Woken lock procs lock' procs' q) :
    LocalAt lock' procs' q := by
  cases hw with
  | same hproc hqueue hhold =>
    refine ⟨?_, fun k hk => ?_, fun m hm => ?_⟩
    · rw [hqueue, hproc]
      exact h.queued
    · rw [hproc] at hk ⊢
      rw [hhold]
      exact h.awaited k hk
    · rw [hproc] at hm ⊢
      rw [hhold]
      exact h.held m hm
  | woken hproc hwas hnow hhold => ?_
  obtain ⟨hsome, hwaiting⟩ := h.queued.1 hwas
  refine ⟨?_, fun k hk => ?_, fun m hm => ?_⟩
  · simp [hproc, hnow]
  · rw [hproc] at hk ⊢
    obtain ⟨hzero, hmode, -⟩ := h.awaited k hk
    refine ⟨hzero, fun hw => absurd hw (by simp), ?_⟩
    simp [hhold, hmode hwaiting]
  rw [hproc] at hm ⊢
  have hne : m ≠ (procs q).waitLockMode := by
    obtain ⟨k, hk⟩ := ne_none_iff_exists'.1 hsome
    rw [(h.awaited k hk).2.1 hwaiting]
    exact fun he => hm (he ▸ hk)
  rw [hhold, or_iff_left hne]
  exact h.held m hm

/-- A call of `p`: the other processes are as they were, or have been woken up. -/
theorem Valid.step (h : Valid groups s) (hcounts : Counts groups none s'.theLock s'.procs)
    (hsettled : Settled groups s'.theLock s'.procs)
    (hothers : ∀ q, q ≠ p → Woken s.theLock s.procs s'.theLock s'.procs q)
    (hself : LocalAt s'.theLock s'.procs p) : Valid groups s' := by
  refine ⟨hcounts, hsettled, fun q => ?_⟩
  by_cases hq : q = p
  · rwa [hq]
  · exact (h.known q).woken (hothers q hq)

theorem init_valid (groups : LockGroups) : Valid groups init where
  counts := newLock_counts groups _
  settled := trivial
  known := fun q =>
    ⟨by simp [State.theLock, init, newLock, idleProc], fun k hk => absurd hk (by simp [init, idleProc]),
      fun m _ => by simp [State.theLock, init, newLock, idleProc, Hold]⟩

theorem Valid.update (h : Valid groups s) {proc : PgProc}
    (hmode : proc.waitLockMode = (s.procs p).waitLockMode)
    (hself : LocalAt s.theLock (update s.procs p proc) p) :
    Valid groups { s with procs := update s.procs p proc } := by
  have hsame : ∀ q ∈ s.theLock.waitProcs, (Function.update s.procs p proc q).waitLockMode =
      (s.procs q).waitLockMode :=
    fun q _ => update_waitLockMode s.procs hmode q
  have hlock : Same s.theLock s.theLock := ⟨rfl, fun _ _ => Iff.rfl⟩
  exact h.step (h.counts.congr hsame) (h.settled.congr hlock hsame)
    (fun q hq => hlock.woken (update_of_ne hq ..)) hself

theorem grantLockLocal_known (hnone : (procs p).lockAwaited = none) (hqueue : p ∉ lock.waitProcs)
    (hhold : Hold lock p m) (hheld : ∀ k, k ≠ m → (0 < (procs p).nLocks k ↔ Hold lock p k)) :
    LocalAt lock (grantLockLocal procs p m) p := by
  refine ⟨?_, fun k hk => ?_, fun k _ => ?_⟩
  · simp [grantLockLocal, hnone, hqueue]
  · simp [grantLockLocal, hnone] at hk
  by_cases hk : k = m
  · subst hk
    simp [grantLockLocal, hhold]
  · simp [grantLockLocal, hk, hheld k hk]

variable (h : Valid groups s)
include h

theorem endWait_valid (hawaited : (s.procs p).lockAwaited = some k) (hqueue : p ∉ s.theLock.waitProcs) :
    Valid groups { s with procs := endWait s.procs p } := by
  have hlocal := h.known p
  obtain ⟨hzero, -, hhold⟩ := hlocal.awaited k hawaited
  have hothers : ∀ m, m ≠ k → (0 < (s.procs p).nLocks m ↔ Hold s.theLock p m) := by
    intro m hm
    exact hlocal.held m fun he => hm (mem_unique hawaited he).symm
  cases hstatus : (s.procs p).waitStatus with
  | ok =>
    simp only [endWait, hawaited, hstatus, grantLockLocal, update_idem, update_self]
    refine h.update rfl ⟨?_, fun j hj => ?_, fun m _ => ?_⟩
    · simp [hqueue]
    · simp at hj
    by_cases hm : m = k
    · subst hm
      simp [hhold.2 hstatus]
    · simp [hm, hothers m hm]
  | waiting => exact absurd (hlocal.queued.2 ⟨by simp [hawaited], hstatus⟩) hqueue
  | error => ?_
  simp only [endWait, hawaited, hstatus]
  refine h.update rfl ⟨?_, fun j hj => ?_, fun m _ => ?_⟩
  · simp [hqueue]
  · simp at hj
  by_cases hm : m = k
  · subst hm
    simp [hhold, hstatus, hzero]
  · simp [hothers m hm]

theorem removeFromWaitQueue_valid (hlock : s.lock = some lock) (hp : p ∈ lock.waitProcs) :
    ∃ s', removeFromWaitQueue groups lock s.procs p = .ok s' ∧ Valid groups s' ∧
      p ∉ s'.theLock.waitProcs ∧ s'.procs p = { s.procs p with waitStatus := .error } := by
  have hthe : s.theLock = lock := by rw [State.theLock, hlock, getD_some]
  have hcounts := h.counts
  have hlocal := h.known p
  rw [hthe] at hcounts hlocal
  obtain ⟨s', hrun, hc, hs, hw, hproc, hnot, hhold⟩ := removeFromWaitQueue_spec hcounts hp
  refine ⟨s', hrun, h.step hc hs (by rwa [hthe]) ⟨?_, fun k hk => ?_, fun m hm => ?_⟩, hnot, hproc⟩
  · simp [hproc, hnot]
  · rw [hproc] at hk ⊢
    obtain ⟨hzero, -, hiff⟩ := hlocal.awaited k hk
    refine ⟨hzero, fun hw => absurd hw (by simp), ?_⟩
    rw [hhold, hiff, (hlocal.queued.1 hp).2]
    simp
  · rw [hproc] at hm ⊢
    rw [hhold]
    exact hlocal.held m hm

theorem lockErrorCleanup_valid (p : ℕ) :
    ∃ s', lockErrorCleanup groups s p = .ok s' ∧ Valid groups s' := by
  rw [lockErrorCleanup]
  cases hawaited : (s.procs p).lockAwaited with
  | none => exact ⟨s, rfl, h⟩
  | some k => ?_
  cases hlock : s.lock with
  | none =>
    have hend := endWait_valid h hawaited (by rw [State.theLock, hlock]; exact not_mem_nil)
    rw [hlock] at hend
    exact ⟨_, rfl, hend⟩
  | some lock => ?_
  dsimp only
  by_cases hp : p ∈ lock.waitProcs
  · obtain ⟨s', hrun, hv, hnot, hproc⟩ := removeFromWaitQueue_valid h hlock hp
    rw [if_pos hp, hrun]
    exact ⟨_, rfl, endWait_valid hv (by rw [hproc]; exact hawaited) hnot⟩
  rw [if_neg hp]
  have hend := endWait_valid h hawaited (by rwa [State.theLock, hlock])
  rw [hlock] at hend
  exact ⟨_, rfl, hend⟩

omit h

theorem Counts.same_newLock (h : Counts groups none lock procs) (hzero : lock.nRequested = 0) :
    Same lock newLock := by
  obtain ⟨hempty, hnone⟩ := h.nothing hzero
  exact ⟨hempty.symm,
    fun q k => ⟨fun ⟨_, hin, _⟩ => absurd hin not_mem_nil, fun hh => absurd hh (hnone q k)⟩⟩

/-- The lock after `SetupLockInTable`: the request is pending. -/
structure Prepared (groups : LockGroups) (found : Lock) (procs : ℕ → PgProc) (p : ℕ) (m : LockMode)
    (lock : Lock) : Prop where
  counts : Counts groups (some m) lock procs
  same : Same found lock
  waitMask : ∀ k, hasMode lock.waitMask k = true ↔ 0 < waiters lock procs k
  procLock : HasProcLock lock p

theorem setupLockInTable_spec {found : Option Lock} {old : Lock} (hold : found.getD newLock = old)
    (h : Counts groups none old procs) (hno : ¬ Hold old p m) (lockFits procLockFits : Bool) :
    ∃ setup, setupLockInTable groups found p m lockFits procLockFits = .ok setup ∧ match setup with
      | .outOfMemory lock => Counts groups none (lock.getD newLock) procs ∧ Same old (lock.getD newLock)
      | .ready lock => Prepared groups old procs p m lock := by
  have hrefl : Same old old := ⟨rfl, fun _ _ => Iff.rfl⟩
  simp only [setupLockInTable, hold]
  by_cases hfits : (found.isNone && !lockFits) = true
  · rw [if_pos hfits]
    subst hold
    exact ⟨_, rfl, h, hrefl⟩
  rw [if_neg hfits]
  by_cases hproc : ((findProcLock old p).isNone && !procLockFits) = true
  · rw [if_pos hproc]
    refine ⟨_, rfl, ?_⟩
    split_ifs with hzero
    · exact ⟨newLock_counts groups procs, h.same_newLock hzero⟩
    · exact ⟨h, hrefl⟩
  rw [if_neg hproc]
  -- the proclock is found or made
  obtain ⟨lock, hlock, hcounts, hsame, hwait, hhas⟩ :
    ∃ lock : Lock, (if (findProcLock old p).isNone = true then
        { old with procLocks := old.procLocks ++ [⟨p, groups.leaderOf p, 0⟩] } else old) = lock ∧
      Counts groups none lock procs ∧ Same old lock ∧ lock.waitMask = old.waitMask ∧
          HasProcLock lock p := by
    cases hfind : findProcLock old p with
    | none =>
      have hnot : ¬ HasProcLock old p := by
        rintro ⟨proclock, hin, hp⟩
        rw [(findProcLock_eq h.holds.nodup).2 ⟨hin, hp⟩] at hfind
        cases hfind
      obtain ⟨hcounted, hhold, hhas⟩ :
          HoldsCounted groups { old with procLocks := old.procLocks ++ [⟨p, groups.leaderOf p, 0⟩] } ∧
          _ ∧ _ :=
        addProcLock_holds h.holds hnot rfl rfl rfl
      refine ⟨_, if_pos rfl, ⟨hcounted, h.nodup, h.requested, h.waitMask, h.total, fun q hin => ?_,
        h.exclusive.mono fun q k => (hhold q k).1⟩, ⟨rfl, hhold⟩, rfl, (hhas p).2 (.inr rfl)⟩
      obtain ⟨hproc, hnot⟩ := h.waiter q hin
      exact ⟨(hhas q).2 (.inl hproc), fun hh => hnot ((hhold _ _).1 hh)⟩
    | some proclock =>
      obtain ⟨hin, hp⟩ := (findProcLock_eq h.holds.nodup).1 hfind
      exact ⟨_, if_neg (by simp), h, hrefl, rfl, proclock, hin, hp⟩
  rw [hlock]
  have hpending := hcounts.request m
  obtain ⟨proclock, heq, hin, hp⟩ := procLockOf_eq hpending.holds.nodup (show HasProcLock _ p from hhas)
  rw [heq, ok_bind, if_neg]
  · refine ⟨_, rfl, hpending, ⟨hsame.waitProcs, hsame.hold⟩, fun k => ?_, hhas⟩
    have hmask := hcounts.waitMask k
    exact ⟨hmask.2, hmask.1⟩
  · rw [and_lockBitOn]
    exact fun hbit => hno ((hsame.hold p m).1 ⟨proclock, hin, hp, hbit⟩)

theorem acquireStatus_spec (h : Prepared groups found procs p m lock) :
    ∃ st, acquireStatus groups p m lock = .ok st ∧ (st = .ok → ¬ Clashes groups lock p m) ∧
      (st = .found → (∃ q ∈ lock.waitProcs, Conflicts m (procs q).waitLockMode) ∨
        Clashes groups lock p m) := by
  rw [acquireStatus]
  by_cases hwait : conflictTab m &&& lock.waitMask ≠ 0
  · rw [if_pos hwait]
    refine ⟨_, rfl, fun he => absurd he (by simp), fun _ => .inl ?_⟩
    obtain ⟨k, hc, hbit⟩ := conflictTab_and.1 hwait
    obtain ⟨q, hin, hq⟩ := countP_pos_iff.1 ((h.waitMask k).1 hbit)
    exact ⟨q, hin, by rwa [of_decide_eq_true hq]⟩
  rw [if_neg hwait]
  obtain ⟨proclock, heq, hcheck⟩ := lockCheckConflicts_clash h.counts.holds h.procLock m
  obtain ⟨st, hst, hfound⟩ := hcheck p
  rw [heq]
  refine ⟨st, hst, ?_, fun he => .inr (hfound.1 he)⟩
  rintro rfl hc
  exact absurd (hfound.2 hc) (by simp)

theorem giveUp_spec (h : Prepared groups found procs p m lock) (hq : p ∉ lock.waitProcs) :
    ∃ lock', giveUp lock p m = .ok lock' ∧ Counts groups none lock' procs ∧ Same found lock' := by
  obtain ⟨lock', hdrop, hcounts, hhold, hwait, hn, hreq, hmask⟩ :=
    dropProcLock_counts h.counts h.procLock hq
  rw [giveUp, hdrop]
  refine ⟨_, rfl, hcounts.withdraw lock'.waitMask fun k => ?_, hwait.trans h.same.waitProcs,
    fun q k => (hhold q k).trans (h.same.hold q k)⟩
  rw [hmask, waiters, hwait]
  exact h.waitMask k

/-- The state of a process that does not wait, after a call that did not change what it holds. -/
theorem LocalAt.unchanged (h : LocalAt lock procs p) (hnone : (procs p).lockAwaited = none)
    (hnone' : (procs' p).lockAwaited = none) (hlocks : (procs' p).nLocks = (procs p).nLocks)
    (hqueue : p ∉ lock'.waitProcs) (hhold : ∀ k, Hold lock' p k ↔ Hold lock p k) :
    LocalAt lock' procs' p := by
  refine ⟨by simp [hnone', hqueue], fun k hk => ?_, fun m _ => ?_⟩
  · rw [hnone'] at hk
    cases hk
  · rw [hlocks, hhold]
    exact h.held m (by simp [hnone])

variable (h : Valid groups s)
include h

theorem Valid.congr (found : Option Lock) (hcounts : Counts groups none (found.getD newLock) s.procs)
    (hsame : Same s.theLock (found.getD newLock)) :
    Valid groups { s with lock := found } :=
  h.step (p := 0) hcounts (h.settled.congr hsame fun _ _ => rfl) (fun _ _ => hsame.woken rfl)
    ((h.known 0).woken (hsame.woken rfl))

variable (hnone : (s.procs p).lockAwaited = none)
include hnone

theorem Valid.not_queued : p ∉ s.theLock.waitProcs := fun hin => ((h.known p).queued.1 hin).1 hnone

variable (hprep : Prepared groups s.theLock s.procs p m lock) (hno : ¬ Hold s.theLock p m)
include hprep hno

theorem prepared_free : p ∉ lock.waitProcs ∧ ¬ Hold lock p m := by
  rw [hprep.same.waitProcs, hprep.same.hold]
  exact ⟨h.not_queued hnone, hno⟩

theorem grant_valid
    (hclash : ¬ Clashes groups lock p m) :
    Valid groups ⟨some (grantLock lock p m), grantLockLocal s.procs p m⟩ := by
  obtain ⟨hnot, hno'⟩ := prepared_free h hnone hprep hno
  have hhold := (grantLock_holds hprep.counts.holds hprep.procLock hno').2
  have hmodes :
      ∀ q ∈ lock.waitProcs, (grantLockLocal s.procs p m q).waitLockMode = (s.procs q).waitLockMode := by
    intro q hin
    have hne : q ≠ p := fun he => hnot (he ▸ hin)
    rw [grantLockLocal, update_of_ne hne]
  refine h.step (p := p) ((hprep.counts.grant hprep.procLock hno' hnot hclash).congr hmodes) ?_
    (fun q hq => ?_) ?_
  · have hsettled := h.settled.congr hprep.same fun _ _ => rfl
    rw [Settled, show (State.theLock ⟨some (grantLock lock p m), grantLockLocal s.procs p m⟩).waitProcs =
      lock.waitProcs from rfl, requests_congr hmodes]
    exact hsettled.mono (fun _ hk => hk) fun q k hh => (hhold q k).2 (.inl hh)
  · refine (hprep.same.woken rfl).trans
      (.same (update_of_ne hq ..) Iff.rfl fun k => (hhold q k).trans ?_)
    simp [Granted, hq]
  refine grantLockLocal_known hnone hnot ((hhold p m).2 (.inr ⟨rfl, rfl⟩)) fun k hk => ?_
  rw [(h.known p).held k (by simp [hnone]), ← hprep.same.hold p k]
  refine ((hhold p k).trans ?_).symm
  simp [Granted, hk]

theorem procSleep_valid
    (hblocked : (∃ q ∈ lock.waitProcs, Conflicts m (s.procs q).waitLockMode) ∨ Clashes groups lock p m) :
    ∃ s', procSleep groups lock s.procs p m = .ok s' ∧ Valid groups s' := by
  have hlocal := h.known p
  obtain ⟨hnot, hno'⟩ := prepared_free h hnone hprep hno
  obtain ⟨proclock, heq, hcheck⟩ := lockCheckConflicts_clash hprep.counts.holds hprep.procLock m
  obtain ⟨place, hplace, hfits⟩ := sleepPlace_spec s.procs (hcheck p)
  rw [procSleep, heq, ok_bind, hplace]
  -- what the others see of the queue
  have hothers :
      ∀ i ≤ lock.waitProcs.length, ∀ q, q ≠ p →
      Woken s.theLock s.procs (enqueue lock s.procs p m i).1 (enqueue lock s.procs p m i).2 q := by
    intro i hi q hq
    refine (hprep.same.woken rfl).trans (.same (update_of_ne hq ..) ?_ fun _ => Iff.rfl)
    rw [show (enqueue lock s.procs p m i).1.waitProcs = lock.waitProcs.insertIdx i p from rfl,
      mem_insertIdx hi, or_iff_right hq]
  cases place with
  | grant => exact ⟨_, rfl, grant_valid h hnone hprep hno hfits⟩
  | before i =>
    have hcounts := hprep.counts.enqueue hprep.procLock hno' hnot hfits.1
    have hsettled := enqueue_settled (h.settled.congr hprep.same fun _ _ => rfl) hnot hfits hblocked
    have hmodes := update_waitLockMode (enqueue lock s.procs p m i).2
      (show ({ (enqueue lock s.procs p m i).2 p with lockAwaited := some m } : PgProc).waitLockMode =
        ((enqueue lock s.procs p m i).2 p).waitLockMode from rfl)
    refine ⟨_, rfl, h.step (p := p) (hcounts.congr fun q _ => hmodes q)
      (hsettled.congr ⟨rfl, fun _ _ => Iff.rfl⟩ fun q _ => hmodes q) (fun q hq => ?_) ?_⟩
    · exact (hothers i hfits.1 q hq).trans (.same (update_of_ne hq ..) Iff.rfl fun _ => Iff.rfl)
    have hin : p ∈ (enqueue lock s.procs p m i).1.waitProcs := (mem_insertIdx hfits.1).2 (.inl rfl)
    have hzero : (s.procs p).nLocks m = 0 :=
      Nat.eq_zero_of_not_pos fun hpos => hno ((hlocal.held m (by simp [hnone])).1 hpos)
    have hhold : ∀ k, Hold (enqueue lock s.procs p m i).1 p k ↔ Hold s.theLock p k :=
      fun k => hprep.same.hold p k
    refine ⟨iff_of_true hin ?_, fun k hk => ?_, fun k hk => ?_⟩
    · simp
    · simp only [update_self, some.injEq] at hk ⊢
      subst hk
      exact ⟨hzero, fun _ => rfl, iff_of_false hno' (by simp)⟩
    · simp only [update_self] at hk ⊢
      exact (hlocal.held k (by simp [hnone])).trans (hhold k).symm
  | deadlock i => ?_
  have hcounts := hprep.counts.enqueue hprep.procLock hno' hnot hfits
  have hin : p ∈ (enqueue lock s.procs p m i).1.waitProcs := (mem_insertIdx hfits).2 (.inl rfl)
  obtain ⟨s', hrun, hc, hs, hw, hproc, hgone, hhold⟩ := removeFromWaitQueue_spec hcounts hin
  refine ⟨s', hrun, h.step hc hs (fun q hq => (hothers i hfits q hq).trans (hw q hq)) ?_⟩
  refine hlocal.unchanged hnone ?_ ?_ hgone fun k => (hhold k).trans (hprep.same.hold p k)
  · simp [hproc, enqueue, hnone]
  · simp [hproc, enqueue]

omit hprep hno

theorem lockAcquire_valid (m : LockMode) (dontWait lockFits procLockFits : Bool) :
    ∃ s', lockAcquire groups s p m dontWait lockFits procLockFits = .ok s' ∧ Valid groups s' := by
  have hlocal := h.known p
  have hqueue := h.not_queued hnone
  have hheld := fun k => hlocal.held k (by simp [hnone])
  rw [lockAcquire]
  by_cases hlocks : (s.procs p).nLocks m > 0
  · rw [if_pos hlocks]
    exact ⟨_, rfl,
      h.update rfl (grantLockLocal_known hnone hqueue ((hheld m).1 hlocks) fun k _ => hheld k)⟩
  have hno : ¬ Hold s.theLock p m := fun hh => hlocks ((hheld m).2 hh)
  obtain ⟨setup, hsetup, hspec⟩ := setupLockInTable_spec rfl h.counts hno lockFits procLockFits
  rw [if_neg hlocks, hsetup, ok_bind]
  cases setup with
  | outOfMemory lock =>
    obtain ⟨hcounts, hsame⟩ := hspec
    exact ⟨_, rfl, h.congr lock hcounts hsame⟩
  | ready lock => ?_
  have hprep : Prepared groups s.theLock s.procs p m lock := hspec
  have hnot : p ∉ lock.waitProcs := by rwa [hprep.same.waitProcs]
  obtain ⟨st, hst, hok, hfound⟩ := acquireStatus_spec hprep
  dsimp only
  rw [hst]
  cases st with
  | ok => exact ⟨_, rfl, grant_valid h hnone hprep hno (hok rfl)⟩
  | found => ?_
  cases dontWait with
  | true =>
    obtain ⟨lock', hgive, hcounts, hsame⟩ := giveUp_spec hprep hnot
    simp only [if_true, hgive, ok_bind]
    exact ⟨_, rfl, h.congr (some lock') hcounts hsame⟩
  | false => ?_
  obtain ⟨proclock, heq, -⟩ := procLockOf_eq hprep.counts.holds.nodup hprep.procLock
  simp only [Bool.false_eq_true, if_false, heq, ok_bind]
  have hmodes := update_waitLockMode s.procs
    (show ({ s.procs p with heldLocks := proclock.holdMask } : PgProc).waitLockMode =
      (s.procs p).waitLockMode from rfl)
  have hself :
      LocalAt s.theLock (update s.procs p { s.procs p with heldLocks := proclock.holdMask }) p :=
    hlocal.unchanged hnone (by simp [hnone]) (by simp) hqueue fun _ => Iff.rfl
  have hprep' : Prepared groups s.theLock
      (update s.procs p { s.procs p with heldLocks := proclock.holdMask }) p m lock :=
    ⟨hprep.counts.congr fun q _ => hmodes q, hprep.same,
      fun k => by rw [waiters_congr fun q _ => hmodes q]; exact hprep.waitMask k, hprep.procLock⟩
  refine procSleep_valid
    (s := { s with procs := update s.procs p { s.procs p with heldLocks := proclock.holdMask } })
    (h.update rfl hself) (by simp [hnone]) hprep' hno ?_
  simpa [hmodes] using hfound rfl

omit hnone

omit h

/-- If no request waits for a mode that conflicts with the one released, nobody can be woken up. -/
theorem unGrantLock_settled (h : Counts groups none lock procs) (hhold : Hold lock p m)
    (hsettled : Settled groups lock procs) (hneeded : (unGrantLock lock p m).2 = false) :
    Settled groups (unGrantLock lock p m).1 procs := by
  obtain ⟨-, hrest⟩ := unGrantLock_holds h.holds (hhold.imp fun proclock hh => ⟨hh.1, hh.2.1⟩) hhold
  have hnone : ∀ k, Conflicts m k → waiters lock procs k = 0 := by
    intro k hc
    refine Nat.eq_zero_of_not_pos fun hpos => of_decide_eq_false hneeded ?_
    exact conflictTab_and.2 ⟨k, hc, (h.waitMask k).1 hpos⟩
  apply Stuck.release hsettled
  · intro q k hh
    by_cases hself : q = p ∧ k = m
    · exact .inl hself
    · exact .inr ((hrest q k).2 ⟨hh, hself⟩)
  · intro e he hc
    obtain ⟨q, hin, rfl⟩ := mem_map.1 he
    have hpos : 0 < waiters lock procs (procs q).waitLockMode := countP_pos_iff.2 ⟨q, hin, by simp⟩
    exact absurd (hnone _ hc.symm) (Nat.ne_of_gt hpos)

theorem lockRelease_valid (h : Valid groups s) (hnone : (s.procs p).lockAwaited = none) (m : LockMode) :
    ∃ s', lockRelease groups s p m = .ok s' ∧ Valid groups s' := by
  have hlocal := h.known p
  have hqueue := h.not_queued hnone
  have hheld := fun k => hlocal.held k (by simp [hnone])
  rw [lockRelease]
  by_cases hzero : (s.procs p).nLocks m = 0
  · rw [if_pos hzero]
    exact ⟨s, rfl, h⟩
  have hhold : Hold s.theLock p m := (hheld m).1 (Nat.pos_of_ne_zero hzero)
  rw [if_neg hzero]
  by_cases hmore : (s.procs p).nLocks m - 1 > 0
  · rw [if_pos hmore]
    refine ⟨_, rfl, h.update rfl ⟨by simp [hnone, hqueue], fun k hk => ?_, fun k _ => ?_⟩⟩
    · simp [hnone] at hk
    by_cases hk : k = m
    · subst hk
      simp [hhold, hmore]
    · simp [hk, hheld k]
  rw [if_neg hmore]
  cases hlock : s.lock with
  | none =>
    rw [State.theLock, hlock] at hhold
    exact absurd hhold fun ⟨_, hin, _⟩ => not_mem_nil hin
  | some lock => ?_
  have hthe : s.theLock = lock := by rw [State.theLock, hlock, getD_some]
  have hcounts := h.counts
  have hsettled := h.settled
  rw [hthe] at hcounts hsettled hhold hqueue
  have hhas : HasProcLock lock p := hhold.imp fun proclock hh => ⟨hh.1, hh.2.1⟩
  obtain ⟨proclock, heq, hin, hp⟩ := procLockOf_eq hcounts.holds.nodup hhas
  have hbit := (hold_iff hcounts.holds.nodup hin hp).1 hhold
  obtain ⟨-, hrest⟩ := unGrantLock_holds hcounts.holds hhas hhold
  set procs := update s.procs p
    { s.procs p with nLocks := update (s.procs p).nLocks m ((s.procs p).nLocks m - 1) } with hprocs
  have hmodes : ∀ q, (procs q).waitLockMode = (s.procs q).waitLockMode := update_waitLockMode s.procs rfl
  dsimp only
  rw [heq, ok_bind, if_neg (and_lockBitOn.2 hbit)]
  obtain ⟨s', hrun, hc, hs, hw⟩ := cleanUpLock_spec ((hcounts.unGrant hhold).congr fun q _ => hmodes q)
    (hasProcLock_unGrantLock.2 hhas) hqueue p _
    fun hneeded => (unGrantLock_settled hcounts hhold hsettled hneeded).congr ⟨rfl,
      fun _ _ => Iff.rfl⟩ fun q _ => hmodes q
  refine ⟨s', hrun, h.step (p := p) hc hs (fun q hq => ?_) ?_⟩
  · refine Woken.trans ?_ (hw q)
    rw [hthe]
    refine .same (update_of_ne hq ..) Iff.rfl fun k => (hrest q k).trans ?_
    simp [hq]
  obtain ⟨hproc, hnot, hhold'⟩ := (hw p).idle hqueue
  refine ⟨?_, fun k hk => ?_, fun k hk => ?_⟩
  · simp [hproc, hprocs, hnot, hnone]
  · simp [hproc, hprocs, hnone] at hk
  rw [hproc, hhold' k, hrest p k, ← hthe, ← hheld k]
  by_cases hkm : k = m
  · subst hkm
    simp [hprocs]
    omega
  · simp [hprocs, hkm]

theorem call_valid (h : Valid groups s) {op : Op} (henabled : Enabled s op) :
    ∃ s', call groups s op = .ok s' ∧ Valid groups s' := by
  cases op with
  | acquire p m dontWait lockFits procLockFits =>
    exact lockAcquire_valid h henabled m dontWait lockFits procLockFits
  | release p m => exact lockRelease_valid h henabled m
  | resume p =>
    obtain ⟨k, hk⟩ := ne_none_iff_exists'.1 henabled.1
    exact ⟨_, rfl, endWait_valid h hk fun hin => henabled.2 ((h.known p).queued.1 hin).2⟩
  | cancel p => exact lockErrorCleanup_valid h p
  | deadlock p =>
    have hin : p ∈ s.theLock.waitProcs := (h.known p).queued.2 henabled
    rw [call]
    cases hlock : s.lock with
    | none =>
      rw [State.theLock, hlock] at hin
      exact absurd hin not_mem_nil
    | some lock =>
      rw [State.theLock, hlock] at hin
      obtain ⟨s', hrun, hv, -⟩ := removeFromWaitQueue_valid h hlock hin
      exact ⟨s', hrun, hv⟩
  | wakeup p => ?_
  rw [call]
  cases hlock : s.lock with
  | none => exact ⟨s, rfl, h⟩
  | some lock => ?_
  have hthe : s.theLock = lock := by rw [State.theLock, hlock, getD_some]
  have hcounts := h.counts
  rw [hthe] at hcounts
  obtain ⟨lock', procs', hrun, hc, hs, hw⟩ := procLockWakeup_spec hcounts p
  refine ⟨⟨some lock', procs'⟩, by simp only [hrun, ok_bind], hc, hs, fun q => ?_⟩
  exact (h.known q).woken (by rw [hthe]; exact hw q)

theorem Reachable.valid (h : Reachable groups s) : Valid groups s := by
  induction h with
  | init => exact init_valid groups
  | step _ henabled hcall ih =>
    obtain ⟨s', hrun, hv⟩ := call_valid ih henabled
    rw [hrun] at hcall
    cases hcall
    exact hv

/-- The counts and masks of the lock are exact, and no two groups hold modes that conflict. -/
structure Exact (groups : LockGroups) (lock : Lock) (procs : ℕ → PgProc) : Prop where
  exclusive : ∀ p q k l, groups.leaderOf p ≠ groups.leaderOf q → Hold lock p k →
    Hold lock q l → ¬ Conflicts k l
  granted : ∀ m, lock.granted m = lock.procLocks.countP fun proclock => hasMode proclock.holdMask m
  grantMask : ∀ m, hasMode lock.grantMask m = true ↔ 0 < lock.granted m
  requested :
    ∀ m, lock.requested m - lock.granted m = lock.waitProcs.countP fun p => (procs p).waitLockMode = m
  waitMask : ∀ m, hasMode lock.waitMask m = true ↔ 0 < lock.requested m - lock.granted m

/-- In every state of a run the counts are exact and the groups are apart, and every call that a
process can make there returns. -/
theorem reachable_exact (groups : LockGroups) (s : State) (h : Reachable groups s) :
    (∀ lock, s.lock = some lock → Exact groups lock s.procs) ∧
      ∀ op, Enabled s op → ∃ s', call groups s op = .ok s' := by
  have hvalid := h.valid
  constructor
  · intro lock hlock
    have hcounts := hvalid.counts
    rw [State.theLock, hlock, getD_some] at hcounts
    have hrequested : ∀ m, lock.requested m - lock.granted m = waiters lock s.procs m := by
      intro m
      rw [hcounts.requested m]
      exact Int.add_zero _
    refine ⟨hcounts.exclusive, hcounts.holds.granted, hcounts.holds.grantMask, hrequested, fun m => ?_⟩
    rw [hrequested m, Int.natCast_pos]
    exact ⟨(hcounts.waitMask m).2, (hcounts.waitMask m).1⟩
  · intro op henabled
    obtain ⟨s', hrun, -⟩ := call_valid hvalid henabled
    exact ⟨s', hrun⟩

def noGroups : LockGroups := ⟨fun _ => none, fun h => absurd h (by simp)⟩

/-- Process 1 holds the lock in exclusive mode, and process 2 waits for it. -/
def exclusiveThenShare : Except Fault State := do
  let s ← call noGroups init (.acquire 1 .exclusive false true true)
  call noGroups s (.acquire 2 .share false true true)

theorem exclusiveThenShare_reachable : ∃ s lock, exclusiveThenShare = .ok s ∧ Reachable noGroups s ∧
    s.lock = some lock ∧ lock.waitProcs = [2] ∧ (s.procs 2).waitLockMode = .share := by
  have hfirst : Enabled init (.acquire 1 .exclusive false true true) := rfl
  have hstep : Reachable noGroups _ := .step .init hfirst rfl
  exact ⟨_, _, rfl, hstep.step (show Enabled _ (.acquire 2 .share false true true) from rfl) rfl,
    rfl, rfl, rfl⟩

theorem reachable_exact_two : ∃ s lock, exclusiveThenShare = .ok s ∧ s.lock = some lock ∧
    lock.waitProcs = [2] ∧ Exact noGroups lock s.procs ∧
    ∃ s', call noGroups s (.release 1 .exclusive) = .ok s' := by
  obtain ⟨s, lock, hs, hreach, hlock, hwait, -⟩ := exclusiveThenShare_reachable
  have hexact := reachable_exact noGroups s hreach
  refine ⟨s, lock, hs, hlock, hwait, hexact.1 lock hlock, hexact.2 _ ?_⟩
  cases hs
  rfl

/-- In every state of a run, each request in the queue conflicts with one ahead of it, or fails
`LockCheckConflicts`. -/
theorem reachable_no_lost_wakeup (groups : LockGroups) (s : State) (h : Reachable groups s) (lock : Lock)
    (hlock : s.lock = some lock) (front back : List ℕ) (p : ℕ)
    (hqueue : lock.waitProcs = front ++ p :: back) :
    (∃ q ∈ front, Conflicts (s.procs p).waitLockMode (s.procs q).waitLockMode) ∨
      ∃ proclock, procLockOf lock p = .ok proclock ∧ ∀ myProc,
        lockCheckConflicts groups myProc (s.procs p).waitLockMode lock proclock = .ok .found := by
  have hvalid := h.valid
  have hcounts := hvalid.counts
  have hsettled := hvalid.settled
  rw [State.theLock, hlock, getD_some] at hcounts hsettled
  have hrequests : requests s.procs lock.waitProcs =
      requests s.procs front ++ (p, (s.procs p).waitLockMode) :: requests s.procs back := by
    rw [hqueue, requests_append]
    rfl
  rcases hsettled.blocked hrequests with ⟨e, he, hc⟩ | hclash
  · obtain ⟨q, hin, rfl⟩ := mem_map.1 he
    exact .inl ⟨q, hin, hc⟩
  right
  have hin : p ∈ lock.waitProcs := hqueue ▸ mem_append_right _ mem_cons_self
  obtain ⟨proclock, heq, hcheck⟩ :=
    lockCheckConflicts_clash hcounts.holds (hcounts.waiter p hin).1 (s.procs p).waitLockMode
  refine ⟨proclock, heq, fun myProc => ?_⟩
  obtain ⟨st, hst, hfound⟩ := hcheck myProc
  rw [hst, hfound.2 hclash]

/-- Process 3 waits for the exclusive mode behind process 2, and process 1 releases the lock. -/
def exclusiveReleased : Except Fault State := do
  let s ← exclusiveThenShare
  let s ← call noGroups s (.acquire 3 .exclusive false true true)
  call noGroups s (.release 1 .exclusive)

theorem exclusiveReleased_reachable : ∃ s lock, exclusiveReleased = .ok s ∧ Reachable noGroups s ∧
    s.lock = some lock ∧ (s.procs 2).waitStatus = .ok ∧ Hold lock 2 .share ∧ lock.waitProcs = [3] ∧
      (s.procs 3).waitLockMode = .exclusive := by
  obtain ⟨s, lock, hs, hreach, -⟩ := exclusiveThenShare_reachable
  cases hs
  have hqueued : Reachable noGroups _ :=
    hreach.step (show Enabled _ (.acquire 3 .exclusive false true true) from rfl) rfl
  have hreleased := hqueued.step (show Enabled _ (.release 1 .exclusive) from rfl) rfl
  exact ⟨_, _, rfl, hreleased, rfl, rfl, ⟨_, mem_cons_self, rfl, rfl⟩, rfl, rfl⟩

/-- The release wakes process 2 and grants it the lock; process 3 sleeps on, since it conflicts with
what process 2 now holds. -/
theorem reachable_no_lost_wakeup_released : ∃ s lock, exclusiveReleased = .ok s ∧ s.lock = some lock ∧
    (s.procs 2).waitStatus = .ok ∧ Hold lock 2 .share ∧ lock.waitProcs = [3] ∧
      ∃ proclock, procLockOf lock 3 = .ok proclock ∧
        ∀ myProc, lockCheckConflicts noGroups myProc .exclusive lock proclock = .ok .found := by
  obtain ⟨s, lock, hs, hreach, hlock, hwoken, hhold, hwait, hmode⟩ := exclusiveReleased_reachable
  refine ⟨s, lock, hs, hlock, hwoken, hhold, hwait, ?_⟩
  rcases reachable_no_lost_wakeup noGroups s hreach lock hlock [] [] 3 hwait with ⟨q, hq, -⟩ | hfound
  · exact absurd hq not_mem_nil
  · rwa [hmode] at hfound

end Pg.LockMgr
