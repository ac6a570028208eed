import PgRetrofit.Sanity.LockQueue

/-! What the functions that grant queued requests or add to the queue do: afterwards no request in
the queue can be granted, and each process is as it was or has been woken up. -/

namespace Pg.LockMgr

open WaitQueue Result List Function

variable {groups : LockGroups} {lock lock' lock'' : Lock} {procs procs' procs'' : ℕ → PgProc} {p q i : ℕ}
  {m k : LockMode} {pending : Option LockMode} {proclock : ProcLock} {ahead : LockMask}

def State.theLock (s : State) : Lock := s.lock.getD newLock

def requests (procs : ℕ → PgProc) (waitProcs : List ℕ) : List (ℕ × LockMode) :=
  waitProcs.map fun p => (p, (procs p).waitLockMode)

/-- No request in the queue can be granted. -/
def Settled (groups : LockGroups) (lock : Lock) (procs : ℕ → PgProc) : Prop :=
  Stuck groups.leaderOf Conflicts (Hold lock) [] (requests procs lock.waitProcs)

structure Same (lock lock' : Lock) : Prop where
  waitProcs : lock'.waitProcs = lock.waitProcs
  hold : ∀ q k, Hold lock' q k ↔ Hold lock q k

/-- A process is as it was, or it has been taken off the queue with its request granted. -/
inductive Woken (lock : Lock) (procs : ℕ → PgProc) (lock' : Lock) (procs' : ℕ → PgProc) (q : ℕ) : Prop
  | same (hproc : procs' q = procs q) (hqueue : q ∈ lock'.waitProcs ↔
      q ∈ lock.waitProcs) (hhold : ∀ k, Hold lock' q k ↔ Hold lock q k)
  | woken (hproc : procs' q = { procs q with waitStatus := .ok }) (hwas : q ∈ lock.waitProcs)
      (hnow : q ∉ lock'.waitProcs)
      (hhold : ∀ k, Hold lock' q k ↔ Hold lock q k ∨ k = (procs q).waitLockMode)

theorem Same.woken (h : Same lock lock') (hproc : procs' q = procs q) :
    Woken lock procs lock' procs' q :=
  .same hproc (by rw [h.waitProcs]) (h.hold q)

theorem Woken.trans (h : Woken lock procs lock' procs' q) (h' : Woken lock' procs' lock'' procs'' q) :
    Woken lock procs lock'' procs'' q := by
  cases h with
  | same hproc hqueue hhold =>
    cases h' with
    | same hproc' hqueue' hhold' =>
      exact .same (hproc'.trans hproc) (hqueue'.trans hqueue) fun k => (hhold' k).trans (hhold k)
    | woken hproc' hwas hnow hhold' =>
      refine .woken (by rw [hproc', hproc]) (hqueue.1 hwas) hnow fun k => ?_
      rw [hhold' k, hhold k, hproc]
  | woken hproc hwas hnow hhold =>
    cases h' with
    | same hproc' hqueue' hhold' =>
      exact .woken (hproc'.trans hproc) hwas (fun hin => hnow (hqueue'.1 hin)) fun k =>
        (hhold' k).trans (hhold k)
    | woken hproc' hwas' hnow' hhold' => exact absurd hwas' hnow

theorem Woken.idle (h : Woken lock procs lock' procs' q) (hq : q ∉ lock.waitProcs) :
    procs' q = procs q ∧ q ∉ lock'.waitProcs ∧ ∀ k, Hold lock' q k ↔ Hold lock q k := by
  cases h with
  | same hproc hqueue hhold => exact ⟨hproc, fun hin => hq (hqueue.1 hin), hhold⟩
  | woken hproc hwas hnow hhold => exact absurd hwas hq

theorem requests_append (procs : ℕ → PgProc) (front back : List ℕ) :
    requests procs (front ++ back) = requests procs front ++ requests procs back := map_append

theorem requests_congr {waitProcs : List ℕ}
    (hsame : ∀ q ∈ waitProcs, (procs' q).waitLockMode = (procs q).waitLockMode) :
    requests procs' waitProcs = requests procs waitProcs := by
  apply map_congr_left
  intro q hin
  rw [hsame q hin]

theorem Settled.congr (h : Settled groups lock procs) (hlock : Same lock lock')
    (hsame : ∀ q ∈ lock.waitProcs, (procs' q).waitLockMode = (procs q).waitLockMode) :
    Settled groups lock' procs' := by
  rw [Settled, hlock.waitProcs, requests_congr hsame]
  exact h.mono (fun _ hk => hk) fun q k => (hlock.hold q k).2

theorem update_waitLockMode (procs : ℕ → PgProc) {proc : PgProc}
    (hmode : proc.waitLockMode = (procs p).waitLockMode) (q : ℕ) :
    (update procs p proc q).waitLockMode = (procs q).waitLockMode := by
  by_cases hq : q = p
  · subst hq
    rw [update_self, hmode]
  · rw [update_of_ne hq]

theorem waiters_congr (hsame : ∀ q ∈ lock.waitProcs, (procs' q).waitLockMode = (procs q).waitLockMode)
    (k : LockMode) :
    waiters lock procs' k = waiters lock procs k := by
  apply countP_congr
  intro q hin
  rw [hsame q hin]

theorem Counts.congr (h : Counts groups pending lock procs)
    (hsame : ∀ q ∈ lock.waitProcs, (procs' q).waitLockMode = (procs q).waitLockMode) :
    Counts groups pending lock procs' := by
  have hwaiters := waiters_congr hsame
  refine ⟨h.holds, h.nodup, fun k => ?_, fun k => ?_, h.total, fun q hin => ?_, h.exclusive⟩
  · rw [hwaiters]
    exact h.requested k
  · rw [hwaiters]
    exact h.waitMask k
  · rw [hsame q hin]
    exact h.waiter q hin

theorem procWakeup_spec (h : Counts groups none lock procs) (hp : p ∈ lock.waitProcs)
    (hclash : ¬ Clashes groups lock p (procs p).waitLockMode) :
    let (lock', procs') := procWakeup (grantLock lock p (procs p).waitLockMode) procs p
    Counts groups none lock' procs' ∧ lock'.waitProcs = lock.waitProcs.erase p ∧
    (∀ q, (procs' q).waitLockMode = (procs q).waitLockMode) ∧
      (∀ q k, Hold lock q k → Hold lock' q k) ∧ ∀ q, Woken lock procs lock' procs' q := by
  obtain ⟨hhas, hno⟩ := h.waiter p hp
  have hmodes := update_waitLockMode procs
    (show ({ procs p with waitStatus := .ok } : PgProc).waitLockMode = (procs p).waitLockMode from rfl)
  have hcounts := (h.dequeue hp hmodes).grant hhas hno h.nodup.not_mem_erase hclash
  have hhold := (grantLock_holds h.holds hhas hno).2
  refine ⟨hcounts, rfl, hmodes, fun q k hh => (hhold q k).2 (.inl hh), fun q => ?_⟩
  by_cases hq : q = p
  · subst hq
    refine .woken (update_self ..) hp h.nodup.not_mem_erase fun k => (hhold q k).trans ?_
    simp [Granted]
  · refine .same (update_of_ne hq ..) (mem_erase_of_ne hq) fun k => (hhold q k).trans ?_
    simp [Granted, hq]

/-- What is left of the queue is stuck. -/
def WakesUp (groups : LockGroups) (lock : Lock) (procs : ℕ → PgProc)
    (out : Except Fault (Lock × (ℕ → PgProc))) : Prop :=
  ∃ lock' procs', out = .ok (lock', procs') ∧ Counts groups none lock' procs' ∧
    Settled groups lock' procs' ∧ ∀ q, Woken lock procs lock' procs' q

theorem wakeupLoop_spec (groups : LockGroups) (myProc : ℕ) (kept rest : List ℕ)
    (h : Counts groups none lock procs) (hqueue : lock.waitProcs = kept ++ rest)
    (hahead : ∀ k, hasMode ahead k = true ↔ k ∈ (requests procs kept).map Prod.snd)
    (hstuck : Stuck groups.leaderOf Conflicts (Hold lock) [] (requests procs kept)) :
    WakesUp groups lock procs (wakeupLoop groups myProc rest ahead lock procs) := by
  induction rest generalizing kept ahead lock procs with
  | nil =>
    refine ⟨lock, procs, rfl, h, ?_, fun q => .same rfl Iff.rfl fun _ => Iff.rfl⟩
    rwa [Settled, hqueue, append_nil]
  | cons proc rest ih => ?_
  have hin : proc ∈ lock.waitProcs := hqueue ▸ mem_append_right _ mem_cons_self
  -- a request that stays is one of those that are ahead of the next
  have hkeep : (∃ k ∈ (requests procs kept).map Prod.snd, Conflicts (procs proc).waitLockMode k) ∨
    Clashes groups lock proc (procs proc).waitLockMode →
      WakesUp groups lock procs
      (wakeupLoop groups myProc rest (ahead ||| lockBitOn (procs proc).waitLockMode) lock procs) := by
    intro hblocked
    apply ih (kept ++ [proc]) h
    · rw [hqueue, append_assoc, singleton_append]
    · intro k
      rw [requests_append, map_append, mem_append, ← hahead k]
      simp [requests]
    · rw [requests_append, stuck_append]
      exact ⟨hstuck, hblocked, trivial⟩
  rw [wakeupLoop]
  by_cases hfree : conflictTab (procs proc).waitLockMode &&& ahead = 0
  · rw [if_pos hfree]
    obtain ⟨proclock, heq, hcheck⟩ :=
      lockCheckConflicts_clash h.holds (h.waiter proc hin).1 (procs proc).waitLockMode
    obtain ⟨st, hst, hfound⟩ := hcheck myProc
    rw [heq, ok_bind, hst]
    cases st with
    | found => exact hkeep (.inr (hfound.1 rfl))
    | ok => ?_
    have hclash : ¬ Clashes groups lock proc (procs proc).waitLockMode :=
      fun hc => absurd (hfound.2 hc) (by simp)
    obtain ⟨hcounts, hwait, hmodes, hmono, hwoken⟩ := procWakeup_spec h hin hclash
    have hnodup := h.nodup
    rw [hqueue] at hnodup
    have hnot : proc ∉ kept := fun hk => (disjoint_of_nodup_append hnodup) hk mem_cons_self
    obtain ⟨lock', procs', hrun, hc', hs', hw'⟩ := ih kept hcounts
      (by rw [hwait, hqueue, erase_append_right _ hnot, erase_cons_head])
      (by rwa [requests_congr fun q _ => hmodes q])
      (by
        rw [requests_congr fun q _ => hmodes q]
        exact hstuck.mono (fun _ hk => hk) hmono)
    exact ⟨lock', procs', hrun, hc', hs', fun q => (hwoken q).trans (hw' q)⟩
  · rw [if_neg hfree]
    obtain ⟨k, hc, hbit⟩ := conflictTab_and.1 hfree
    exact hkeep (.inl ⟨k, (hahead k).1 hbit, hc⟩)

variable (h : Counts groups none lock procs)
include h

theorem procLockWakeup_spec (myProc : ℕ) :
    WakesUp groups lock procs (procLockWakeup groups myProc lock procs) :=
  wakeupLoop_spec groups myProc [] lock.waitProcs h rfl (fun k => by simp [requests]) trivial

theorem cleanUpLock_spec (hp : HasProcLock lock p) (hq : p ∉ lock.waitProcs)
    (myProc : ℕ) (wakeupNeeded : Bool) (hsettled : wakeupNeeded = false → Settled groups lock procs) :
    ∃ s, cleanUpLock groups myProc lock procs p wakeupNeeded = .ok s ∧
      Counts groups none s.theLock s.procs ∧ Settled groups s.theLock s.procs ∧
      ∀ q, Woken lock procs s.theLock s.procs q := by
  obtain ⟨lock', hdrop, hcounts, hhold, hwait, -⟩ := dropProcLock_counts h hp hq
  have hsame : Same lock lock' := ⟨hwait, hhold⟩
  rw [cleanUpLock, hdrop, ok_bind]
  by_cases hzero : lock'.nRequested = 0
  · -- the last request: the lock object goes
    rw [if_pos hzero]
    obtain ⟨hempty, hnone⟩ := hcounts.nothing hzero
    have hnew : Same lock' newLock := ⟨hempty.symm,
      fun q k => ⟨fun ⟨_, hin, _⟩ => absurd hin not_mem_nil, fun hh => absurd hh (hnone q k)⟩⟩
    exact ⟨_, rfl, newLock_counts groups procs, trivial,
      fun q => (hsame.woken rfl).trans (hnew.woken rfl)⟩
  rw [if_neg hzero]
  cases wakeupNeeded with
  | false => exact ⟨_, rfl, hcounts, (hsettled rfl).congr hsame fun _ _ => rfl, fun q => hsame.woken rfl⟩
  | true =>
    obtain ⟨lock'', procs'', hrun, hc, hs, hw⟩ := procLockWakeup_spec hcounts myProc
    refine ⟨⟨some lock'', procs''⟩, ?_, hc, hs, fun q => (hsame.woken rfl).trans (hw q)⟩
    rw [if_pos rfl, hrun, ok_bind]

theorem removeFromWaitQueue_spec (hp : p ∈ lock.waitProcs) :
    ∃ s, removeFromWaitQueue groups lock procs p = .ok s ∧ Counts groups none s.theLock s.procs ∧
      Settled groups s.theLock s.procs ∧
      (∀ q, q ≠ p → Woken lock procs s.theLock s.procs q) ∧
      s.procs p = { procs p with waitStatus := .error } ∧ p ∉ s.theLock.waitProcs ∧
      ∀ k, Hold s.theLock p k ↔ Hold lock p k := by
  have hmodes := update_waitLockMode procs
    (show ({ procs p with waitStatus := .error } : PgProc).waitLockMode = (procs p).waitLockMode
      from rfl)
  have hpending := h.dequeue hp hmodes
  have hcounts := hpending.withdraw _ hpending.withdrawn_waitMask
  obtain ⟨s, hrun, hc, hs, hw⟩ :=
    cleanUpLock_spec hcounts (h.waiter p hp).1 h.nodup.not_mem_erase p true (by simp)
  refine ⟨s, hrun, hc, hs, fun q hq => ?_, ?_⟩
  · apply Woken.trans _ (hw q)
    exact .same (update_of_ne hq ..) (mem_erase_of_ne hq) fun _ => Iff.rfl
  · obtain ⟨hproc, hnot, hhold⟩ := (hw p).idle h.nodup.not_mem_erase
    exact ⟨hproc.trans (update_self ..), hnot, hhold⟩

omit h

/-- The request is blocked at this place of the queue, unless that is the end. -/
def Place.Fits (groups : LockGroups) (p : ℕ) (m : LockMode) (lock : Lock)
    (procs : ℕ → PgProc) : Place → Prop
  | .grant => ¬ Clash groups.leaderOf Conflicts (Hold lock) p m
  | .deadlock i => i ≤ lock.waitProcs.length
  | .before i => i ≤ lock.waitProcs.length ∧
      (i = lock.waitProcs.length ∨ (∃ q ∈ lock.waitProcs.take i, Conflicts m (procs q).waitLockMode) ∨
        Clash groups.leaderOf Conflicts (Hold lock) p m)

theorem sleepLoop_spec
    (hcheck : ∃ st, lockCheckConflicts groups p m lock proclock = .ok st ∧
      (st = .found ↔ Clashes groups lock p m)) (myHeldLocks : LockMask) (front rest : List ℕ) (hqueue :
        lock.waitProcs = front ++ rest)
    (hahead : ∀ k, hasMode ahead k = true → ∃ q ∈ front, (procs q).waitLockMode = k) :
    ∃ place, sleepLoop groups p m lock proclock procs myHeldLocks rest front.length ahead = .ok place ∧
      place.Fits groups p m lock procs := by
  induction rest generalizing front ahead with
  | nil =>
    exact ⟨.before front.length, rfl, by simp [Place.Fits, hqueue]⟩
  | cons proc rest ih => ?_
  have hlen : front.length ≤ lock.waitProcs.length := by simp [hqueue]
  have htake : lock.waitProcs.take front.length = front := by rw [hqueue, take_left]
  have hnext :
    ∀ ahead', (∀ k, hasMode ahead' k = true → ∃ q ∈ front ++ [proc], (procs q).waitLockMode = k) →
      ∃ place, sleepLoop groups p m lock proclock procs myHeldLocks rest (front.length + 1) ahead' =
        .ok place ∧ place.Fits groups p m lock procs := by
    intro ahead' hahead'
    have := ih (front ++ [proc]) (by rw [hqueue, append_assoc, singleton_append]) hahead'
    rwa [length_append] at this
  rw [sleepLoop]
  split_ifs with hgroup hwants hdead hfree
  · exact hnext ahead fun k hk => (hahead k hk).imp fun q hq => ⟨mem_append_left _ hq.1, hq.2⟩
  · exact ⟨_, rfl, hlen⟩
  · obtain ⟨st, hst, hfound⟩ := hcheck
    rw [hst]
    cases st with
    | ok => exact ⟨.grant, rfl, fun hc => absurd (hfound.2 hc) (by simp)⟩
    | found => exact ⟨.before front.length, rfl, hlen, .inr (.inr (hfound.1 rfl))⟩
  · obtain ⟨k, hc, hbit⟩ := conflictTab_and.1 hfree
    obtain ⟨q, hq, rfl⟩ := hahead k hbit
    exact ⟨.before front.length, rfl, hlen, .inr (.inl ⟨q, by rwa [htake], hc⟩)⟩
  · apply hnext
    intro k hk
    rw [hasMode_or, hasMode_lockBitOn, Bool.or_eq_true, decide_eq_true_iff] at hk
    rcases hk with hk | rfl
    · exact (hahead k hk).imp fun q hq => ⟨mem_append_left _ hq.1, hq.2⟩
    · exact ⟨proc, by simp, rfl⟩

theorem sleepPlace_spec (procs : ℕ → PgProc)
    (hcheck : ∃ st, lockCheckConflicts groups p m lock proclock = .ok st ∧
      (st = .found ↔ Clashes groups lock p m)) :
    ∃ place, sleepPlace groups p m lock proclock procs = .ok place ∧
      place.Fits groups p m lock procs := by
  rw [sleepPlace]
  split_ifs
  · exact sleepLoop_spec hcheck _ [] lock.waitProcs rfl fun k hk => by simp at hk
  · exact ⟨_, rfl, le_rfl, .inl rfl⟩

theorem insertIdx_eq {queue : List ℕ} (hi : i ≤ queue.length) :
    queue.insertIdx i p = queue.take i ++ p :: queue.drop i := by
  obtain ⟨front, back, rfl, rfl, heq⟩ := exists_of_modifyTailIdx (cons p) hi
  rw [insertIdx, heq, take_left, drop_left]

/-- A request that cannot be granted leaves the queue settled where `ProcSleep` puts it. -/
theorem enqueue_settled (h : Settled groups lock procs) (hq : p ∉ lock.waitProcs)
    (hplace : (Place.before i).Fits groups p m lock procs)
    (hblocked : (∃ q ∈ lock.waitProcs, Conflicts m (procs q).waitLockMode) ∨ Clashes groups lock p m) :
    Settled groups (enqueue lock procs p m i).1 (enqueue lock procs p m i).2 := by
  obtain ⟨hi, hplace⟩ := hplace
  have hhere : (∃ q ∈ lock.waitProcs.take i, Conflicts m (procs q).waitLockMode) ∨
      Clashes groups lock p m := by
    rcases hplace with rfl | hplace
    · rwa [take_length]
    · exact hplace
  have hsame :
      ∀ q ∈ lock.waitProcs, ((enqueue lock procs p m i).2 q).waitLockMode = (procs q).waitLockMode := by
    intro q hin
    have hne : q ≠ p := fun he => hq (he ▸ hin)
    simp only [enqueue, update_of_ne hne]
  have hself : requests (enqueue lock procs p m i).2 (p :: lock.waitProcs.drop i) =
      (p, m) :: requests procs (lock.waitProcs.drop i) := by
    rw [requests, map_cons]
    congr 1
    · simp only [enqueue, update_self]
    · exact requests_congr fun q hin => hsame q (mem_of_mem_drop hin)
  rw [Settled, show (enqueue lock procs p m i).1.waitProcs = lock.waitProcs.insertIdx i p from rfl,
    insertIdx_eq hi, requests_append, requests_congr fun q hin => hsame q (mem_of_mem_take hin), hself]
  apply Stuck.insert
  · rw [← requests_append, take_append_drop]
    exact h
  · refine hhere.imp_left ?_
    rintro ⟨q, hin, hc⟩
    refine ⟨_, ?_, hc⟩
    rw [requests, map_map]
    exact mem_map_of_mem hin

end Pg.LockMgr
