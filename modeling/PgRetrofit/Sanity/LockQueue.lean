import PgRetrofit.Sanity.LockCounts

/-! The counts of one lock and its wait queue together, and what each change of the lock does to
them. A request is counted before it is granted or queued: it is pending in between. -/

namespace Pg.LockMgr

open WaitQueue Result List Function

variable {groups : LockGroups} {lock lock' : Lock} {procs procs' : ℕ → PgProc} {p q : ℕ} {m k : LockMode}
  {pending : Option LockMode}

def waiters (lock : Lock) (procs : ℕ → PgProc) (m : LockMode) :
    ℕ := lock.waitProcs.countP fun p => (procs p).waitLockMode = m

def owed (pending : Option LockMode) (m : LockMode) : ℕ := if pending = some m then 1 else 0

@[simp] theorem owed_none (m : LockMode) : owed none m = 0 := rfl

@[simp] theorem owed_self (m : LockMode) : owed (some m) m = 1 := if_pos rfl

theorem owed_ne (h : k ≠ m) : owed (some m) k = 0 := if_neg fun he => h (Option.some.inj he).symm

structure Counts (groups : LockGroups) (pending : Option LockMode) (lock : Lock)
    (procs : ℕ → PgProc) : Prop where
  holds : HoldsCounted groups lock
  nodup : lock.waitProcs.Nodup
  requested : ∀ m, lock.requested m - lock.granted m = waiters lock procs m + owed pending m
  waitMask : ∀ m, (0 < waiters lock procs m → hasMode lock.waitMask m = true) ∧
    (hasMode lock.waitMask m = true → 0 < waiters lock procs m + owed pending m)
  total : lock.nRequested = (LockMode.all.map lock.requested).sum
  waiter : ∀ p ∈ lock.waitProcs, HasProcLock lock p ∧ ¬ Hold lock p (procs p).waitLockMode
  exclusive : Exclusive groups.leaderOf Conflicts (Hold lock)

theorem newLock_counts (groups : LockGroups) (procs : ℕ → PgProc) :
    Counts groups none newLock procs where
  holds := ⟨nodup_nil, fun _ h => absurd h not_mem_nil, fun _ => rfl,
    fun m => by simp [newLock], fun _ h => absurd h not_mem_nil⟩
  nodup := nodup_nil
  requested := fun _ => rfl
  waitMask := fun m => by simp [newLock, waiters]
  total := rfl
  waiter := fun _ h => absurd h not_mem_nil
  exclusive := fun _ _ _ _ _ ⟨_, h, _⟩ => absurd h not_mem_nil

/-- The request conflicts with what another group holds. -/
abbrev Clashes (groups : LockGroups) (lock : Lock) (p : ℕ) (m : LockMode) : Prop :=
  Clash groups.leaderOf Conflicts (Hold lock) p m

theorem clash_iff_foreign {proclock : ProcLock} (h : HoldsCounted groups lock)
    (hin : proclock ∈ lock.procLocks) :
    (∃ other ∈ lock.procLocks, Foreign m proclock other) ↔ Clashes groups lock proclock.myProc m := by
  constructor
  · rintro ⟨other, hother, hne, k, hk, hc⟩
    rw [h.leader other hother, h.leader proclock hin] at hne
    exact ⟨other.myProc, k, hne, ⟨other, hother, rfl, hk⟩, hc⟩
  · rintro ⟨q, k, hne, ⟨other, hother, rfl, hk⟩, hc⟩
    refine ⟨other, hother, ?_, k, hk, hc⟩
    rwa [h.leader other hother, h.leader proclock hin]

theorem lockCheckConflicts_clash (h : HoldsCounted groups lock)
    (hp : HasProcLock lock p) (m : LockMode) :
    ∃ proclock, procLockOf lock p = .ok proclock ∧
      ∀ myProc, ∃ st, lockCheckConflicts groups myProc m lock proclock = .ok st ∧
      (st = .found ↔ Clashes groups lock p m) := by
  obtain ⟨proclock, heq, hin, rfl⟩ := procLockOf_eq h.nodup hp
  refine ⟨proclock, heq, fun myProc => ?_⟩
  obtain ⟨st, hst, hfound⟩ := lockCheckConflicts_spec h hin myProc m
  exact ⟨st, hst, hfound.trans (clash_iff_foreign h hin)⟩

theorem sum_requested (f : LockMode → ℤ) (i : LockMode) (x : ℤ) :
    (LockMode.all.map (update f i (f i + x))).sum = (LockMode.all.map f).sum + x := by
  cases i <;> simp [LockMode.all] <;> omega

theorem Counts.nothing (h : Counts groups none lock procs) (hzero : lock.nRequested = 0) :
    lock.waitProcs = [] ∧ ∀ q k, ¬ Hold lock q k := by
  have hnonneg := h.holds.granted_nonneg
  have hrequested : ∀ m, lock.requested m = ((lock.granted m).toNat + waiters lock procs m : ℕ) := by
    intro m
    have hreq := h.requested m
    have := hnonneg m
    rw [owed_none] at hreq
    omega
  have hsum :
      (LockMode.all.map fun m => (((lock.granted m).toNat + waiters lock procs m : ℕ) : ℤ)).sum = 0 := by
    rw [← hzero, h.total]
    exact congrArg List.sum (map_congr_left fun m _ => (hrequested m).symm)
  have hall := sum_eq_zero.1 hsum
  constructor
  · refine eq_nil_iff_forall_not_mem.2 fun p hp => ?_
    have hpos : 0 < waiters lock procs (procs p).waitLockMode := countP_pos_iff.2 ⟨p, hp, by simp⟩
    have := hall (procs p).waitLockMode
    omega
  rintro q k ⟨proclock, hin, -, hbit⟩
  have hpos : 0 < lock.granted k := by
    rw [h.holds.granted k]
    exact Int.natCast_pos.2 (countP_pos_iff.2 ⟨proclock, hin, hbit⟩)
  have := hall k
  omega

theorem Counts.request (h : Counts groups none lock procs) (m : LockMode) :
    Counts groups (some m) { lock with
      nRequested := lock.nRequested + 1
      requested := update lock.requested m (lock.requested m + 1) } procs where
  holds := { h.holds with }
  nodup := h.nodup
  requested := by
    intro k
    have hreq := h.requested k
    change update lock.requested m (lock.requested m + 1) k - lock.granted k =
      waiters lock procs k + owed (some m) k
    by_cases hk : k = m
    · subst hk
      rw [update_self, owed_self]
      rw [owed_none] at hreq
      omega
    · rw [update_of_ne hk, owed_ne hk]
      exact hreq
  waitMask := fun k => ⟨(h.waitMask k).1, fun hbit => Nat.add_pos_left ((h.waitMask k).2 hbit) _⟩
  total := by
    rw [sum_requested, h.total]
  waiter := h.waiter
  exclusive := h.exclusive

variable (h : Counts groups (some m) lock procs)
include h

theorem Counts.withdraw (waitMask : LockMask)
    (hmask : ∀ k, hasMode waitMask k = true ↔ 0 < waiters lock procs k) :
    Counts groups none { lock with
      nRequested := lock.nRequested - 1
      requested := update lock.requested m (lock.requested m - 1)
      waitMask := waitMask } procs where
  holds := { h.holds with }
  nodup := h.nodup
  requested := by
    intro k
    have hreq := h.requested k
    change update lock.requested m (lock.requested m - 1) k - lock.granted k =
      waiters lock procs k + owed none k
    by_cases hk : k = m
    · subst hk
      rw [update_self, owed_none]
      rw [owed_self] at hreq
      omega
    · rw [update_of_ne hk]
      rwa [owed_ne hk] at hreq
  waitMask := fun k => ⟨(hmask k).2, (hmask k).1⟩
  total := by
    have hsum := sum_requested lock.requested m (-1)
    rw [← sub_eq_add_neg, ← sub_eq_add_neg] at hsum
    rw [hsum, h.total]
  waiter := h.waiter
  exclusive := h.exclusive

/-- `RemoveFromWaitQueue` clears the bit of the mode if no other request waits for it. -/
theorem Counts.withdrawn_waitMask (k : LockMode) :
    hasMode (if lock.granted m = lock.requested m - 1 then lock.waitMask &&& lockBitOff m
      else lock.waitMask) k = true ↔ 0 < waiters lock procs k := by
  have hmask := h.waitMask k
  have hreq := h.requested m
  rw [owed_self] at hreq
  by_cases hk : k = m
  · subst hk
    split_ifs with hlast
    · simp
      omega
    · exact ⟨fun _ => by omega, hmask.1⟩
  · rw [owed_ne hk] at hmask
    split_ifs with hlast
    · simpa [hk] using Iff.intro hmask.2 hmask.1
    · exact ⟨hmask.2, hmask.1⟩

variable (hp : HasProcLock lock p) (hno : ¬ Hold lock p m) (hq : p ∉ lock.waitProcs)
include hp hno hq

theorem Counts.grant
    (hclash : ¬ Clashes groups lock p m) : Counts groups none (grantLock lock p m) procs := by
  obtain ⟨hcounted, hhold⟩ := grantLock_holds h.holds hp hno
  have hreq := h.requested
  refine ⟨hcounted, h.nodup, fun k => ?_, fun k => ?_, h.total, fun q hin => ?_, ?_⟩
  · have hk := hreq k
    by_cases hkm : k = m
    · subst hkm
      rw [owed_self] at hk
      simp only [grantLock, update_self, owed_none]
      change _ = ((waiters lock procs k + 0 : ℕ) : ℤ)
      omega
    · rw [owed_ne hkm] at hk
      simp only [grantLock, update_of_ne hkm, owed_none]
      exact hk
  · have hmask := h.waitMask k
    have hk := hreq m
    rw [owed_self] at hk
    change (0 < waiters lock procs k → _) ∧ (_ → 0 < waiters lock procs k + 0)
    by_cases hlast : lock.granted m + 1 = lock.requested m
    · -- nobody else waits for this mode
      have hnone : waiters lock procs m = 0 := by omega
      simp only [grantLock, hlast, if_true, hasMode_and, hasMode_lockBitOff]
      by_cases hkm : k = m
      · subst hkm
        simp [hnone]
      · rw [owed_ne hkm] at hmask
        simpa [hkm] using hmask
    · have hsome : 0 < waiters lock procs m := by omega
      simp only [grantLock, hlast, if_false]
      refine ⟨hmask.1, fun hbit => ?_⟩
      by_cases hkm : k = m
      · rwa [hkm]
      · rw [owed_ne hkm] at hmask
        exact hmask.2 hbit
  · obtain ⟨hproc, hnot⟩ := h.waiter q hin
    refine ⟨hasProcLock_grantLock.2 hproc, fun hh => ?_⟩
    rcases (hhold _ _).1 hh with hh | ⟨rfl, -⟩
    · exact hnot hh
    · exact hq hin
  · refine (h.exclusive.grant (fun _ _ => Conflicts.symm) hclash).mono fun q k hh => (hhold q k).1 hh

theorem Counts.enqueue {i : ℕ}
    (hi : i ≤ lock.waitProcs.length) :
    Counts groups none (enqueue lock procs p m i).1 (enqueue lock procs p m i).2 := by
  have hperm : (lock.waitProcs.insertIdx i p).Perm (p :: lock.waitProcs) := perm_insertIdx p _ hi
  have hsame : ∀ q ∈ lock.waitProcs, ((LockMgr.enqueue lock procs p m i).2 q).waitLockMode =
      (procs q).waitLockMode := by
    intro q hin
    have hne : q ≠ p := fun he => hq (he ▸ hin)
    simp only [LockMgr.enqueue, update_of_ne hne]
  have hself : ((LockMgr.enqueue lock procs p m i).2 p).waitLockMode = m := by
    simp only [LockMgr.enqueue, update_self]
  have hwaiters :
      ∀ k, waiters (LockMgr.enqueue lock procs p m i).1 (LockMgr.enqueue lock procs p m i).2 k =
        waiters lock procs k + owed (some m) k := by
    intro k
    rw [waiters, show (LockMgr.enqueue lock procs p m i).1.waitProcs = lock.waitProcs.insertIdx i p
      from rfl, hperm.countP_eq, countP_cons, hself]
    congr 1
    · apply countP_congr
      intro q hin
      rw [hsame q hin]
    · simp [owed]
  refine ⟨{ h.holds with }, ?_, fun k => ?_, fun k => ?_, h.total, fun q hin => ?_, h.exclusive⟩
  · exact hperm.nodup_iff.2 (nodup_cons.2 ⟨hq, h.nodup⟩)
  · rw [hwaiters, owed_none]
    have hreq := h.requested k
    change lock.requested k - lock.granted k = _
    omega
  · rw [hwaiters]
    have hmask := h.waitMask k
    simp only [LockMgr.enqueue, hasMode_or, hasMode_lockBitOn, Bool.or_eq_true, decide_eq_true_iff]
    constructor
    · intro hpos
      by_cases hkm : k = m
      · exact .inr hkm
      · rw [owed_ne hkm] at hpos
        exact .inl (hmask.1 hpos)
    · rintro (hbit | rfl)
      · exact hmask.2 hbit
      · simp
  · rcases mem_cons.1 (hperm.mem_iff.1 hin) with rfl | hin
    · rw [hself]
      exact ⟨hp, hno⟩
    · rw [hsame q hin]
      exact h.waiter q hin

omit hp hno hq

omit h

theorem Counts.dequeue (h : Counts groups none lock procs) (hp : p ∈ lock.waitProcs)
    (hsame : ∀ q, (procs' q).waitLockMode = (procs q).waitLockMode) :
    Counts groups (some (procs p).waitLockMode)
      { lock with waitProcs := lock.waitProcs.erase p } procs' := by
  have hwaiters :
      ∀ k, waiters lock procs k = waiters { lock with waitProcs := lock.waitProcs.erase p } procs' k +
        owed (some (procs p).waitLockMode) k := by
    simp only [waiters, (perm_cons_erase hp).countP_eq, countP_cons, hsame, owed]
    simp
  refine ⟨{ h.holds with }, h.nodup.erase p, fun k => ?_, fun k => ?_, h.total,
    fun q hin => ?_, h.exclusive⟩
  · have hreq := h.requested k
    rw [hwaiters] at hreq
    exact_mod_cast hreq
  · have hmask := h.waitMask k
    rw [hwaiters] at hmask
    exact ⟨fun hpos => hmask.1 (Nat.add_pos_left hpos _), hmask.2⟩
  · rw [hsame]
    exact h.waiter q (mem_of_mem_erase hin)

theorem Counts.unGrant (h : Counts groups none lock procs) (hyes : Hold lock p m) :
    Counts groups none (unGrantLock lock p m).1 procs := by
  have hp : HasProcLock lock p := hyes.imp fun proclock hh => ⟨hh.1, hh.2.1⟩
  obtain ⟨hcounted, hhold⟩ := unGrantLock_holds h.holds hp hyes
  refine ⟨hcounted, h.nodup, fun k => ?_, h.waitMask, ?_, fun q hin => ?_,
    h.exclusive.mono fun q k hh => ((hhold q k).1 hh).1⟩
  · have hreq := h.requested k
    by_cases hkm : k = m
    · subst hkm
      simp only [unGrantLock, update_self]
      change _ = ((waiters lock procs k : ℕ) : ℤ) + _
      omega
    · simp only [unGrantLock, update_of_ne hkm]
      exact hreq
  · change lock.nRequested - 1 = _
    have hsum := sum_requested lock.requested m (-1)
    rw [← sub_eq_add_neg, ← sub_eq_add_neg] at hsum
    rw [show (unGrantLock lock p m).1.requested = update lock.requested m (lock.requested m - 1)
      from rfl, hsum, h.total]
  · obtain ⟨hproc, hnot⟩ := h.waiter q hin
    exact ⟨hasProcLock_unGrantLock.2 hproc, fun hh => hnot ((hhold _ _).1 hh).1⟩

theorem dropProcLock_counts (h : Counts groups pending lock procs) (hp : HasProcLock lock p)
    (hq : p ∉ lock.waitProcs) :
    ∃ lock', dropProcLock lock p = .ok lock' ∧ Counts groups pending lock' procs ∧
      (∀ q k, Hold lock' q k ↔ Hold lock q k) ∧
      lock'.waitProcs = lock.waitProcs ∧ lock'.nRequested = lock.nRequested ∧
      lock'.requested = lock.requested ∧ lock'.waitMask = lock.waitMask := by
  obtain ⟨proclock, heq, hin, hproc⟩ := procLockOf_eq h.holds.nodup hp
  rw [dropProcLock, heq, ok_bind]
  by_cases hzero : proclock.holdMask = 0
  · rw [if_pos hzero]
    obtain ⟨hcounted, hhold, hhas⟩ := removeProcLock_holds h.holds hin hproc hzero
    refine ⟨_, rfl, ⟨hcounted, h.nodup, h.requested, h.waitMask, h.total, fun q hin => ?_,
      h.exclusive.mono fun q k => (hhold q k).1⟩, hhold, rfl, rfl, rfl, rfl⟩
    obtain ⟨hproc, hnot⟩ := h.waiter q hin
    have hne : q ≠ p := fun he => hq (he ▸ hin)
    exact ⟨(hhas q hne).2 hproc, fun hh => hnot ((hhold _ _).1 hh)⟩
  · rw [if_neg hzero]
    exact ⟨lock, rfl, h, fun _ _ => Iff.rfl, rfl, rfl, rfl, rfl⟩

end Pg.LockMgr
