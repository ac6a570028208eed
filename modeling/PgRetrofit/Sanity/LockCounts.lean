import PgRetrofit.Lib.WaitQueue
import PgRetrofit.Sanity.LockConflicts

/-! What the functions do to the locks that are held, and that they keep the counts and masks. -/

namespace Pg.LockMgr

open WaitQueue List

variable {groups : LockGroups} {lock lock' : Lock} {procLocks : List ProcLock}
  {proclock other : ProcLock} {p q : ℕ} {m k : LockMode}

def Hold (lock : Lock) (p : ℕ) (m : LockMode) : Prop :=
  ∃ proclock ∈ lock.procLocks, proclock.myProc = p ∧ hasMode proclock.holdMask m = true

def HasProcLock (lock : Lock) (p : ℕ) : Prop := ∃ proclock ∈ lock.procLocks, proclock.myProc = p

theorem unique_procLock (hnodup : (procLocks.map ProcLock.myProc).Nodup) (h : proclock ∈ procLocks)
    (h' : other ∈ procLocks) (hsame : proclock.myProc = other.myProc) : proclock = other :=
  inj_on_of_nodup_map hnodup h h' hsame

variable (hnodup : (lock.procLocks.map ProcLock.myProc).Nodup)
include hnodup

theorem findProcLock_eq :
    findProcLock lock p = some proclock ↔ proclock ∈ lock.procLocks ∧ proclock.myProc = p := by
  rw [findProcLock]
  constructor
  · intro h
    exact ⟨mem_of_find?_eq_some h, by simpa using find?_some h⟩
  rintro ⟨hin, rfl⟩
  cases hfind : lock.procLocks.find? fun pl => pl.myProc = proclock.myProc with
  | none => simpa using find?_eq_none.1 hfind proclock hin
  | some other =>
    have hsame : other.myProc = proclock.myProc := by simpa using find?_some hfind
    rw [unique_procLock hnodup (mem_of_find?_eq_some hfind) hin hsame]

theorem procLockOf_eq (h : HasProcLock lock p) :
    ∃ proclock, procLockOf lock p = .ok proclock ∧ proclock ∈ lock.procLocks ∧ proclock.myProc = p := by
  obtain ⟨proclock, hin, hp⟩ := h
  exact ⟨proclock, by rw [procLockOf, (findProcLock_eq hnodup).2 ⟨hin, hp⟩], hin, hp⟩

theorem hold_iff (hin : proclock ∈ lock.procLocks) (hp : proclock.myProc = p) :
    Hold lock p m ↔ hasMode proclock.holdMask m = true := by
  constructor
  · rintro ⟨other, hother, hsame, hhas⟩
    rwa [unique_procLock hnodup hin hother (hp.trans hsame.symm)]
  · exact fun h => ⟨proclock, hin, hp, h⟩

omit hnodup

variable {f : LockMask → LockMask}

theorem mem_setHoldMask :
    other ∈ setHoldMask procLocks p f ↔
      ∃ proclock ∈ procLocks,
        (if proclock.myProc = p then { proclock with holdMask := f proclock.holdMask }
          else proclock) = other :=
  mem_map

theorem map_myProc_setHoldMask (procLocks : List ProcLock) (p : ℕ) (f : LockMask → LockMask) :
    (setHoldMask procLocks p f).map ProcLock.myProc = procLocks.map ProcLock.myProc := by
  rw [setHoldMask, map_map]
  apply map_congr_left
  intro pl _
  simp only [Function.comp_apply]
  split_ifs <;> rfl

theorem countP_setHoldMask (hnodup : (procLocks.map ProcLock.myProc).Nodup) (hin : proclock ∈ procLocks)
    (hp : proclock.myProc = p) (m : LockMode) :
    (setHoldMask procLocks p f).countP (fun pl => hasMode pl.holdMask m) +
      (hasMode proclock.holdMask m).toNat =
      procLocks.countP (fun pl => hasMode pl.holdMask m) + (hasMode (f proclock.holdMask) m).toNat := by
  induction procLocks with
  | nil => exact absurd hin not_mem_nil
  | cons pl procLocks ih => ?_
  rw [map_cons, nodup_cons] at hnodup
  rw [setHoldMask, map_cons]
  rcases mem_cons.1 hin with rfl | hin
  · have hrest : procLocks.map (fun pl => if pl.myProc = p then { pl with holdMask := f pl.holdMask }
        else pl) = procLocks := by
      refine (map_congr_left fun other hother => ?_).trans (map_id _)
      have hne : other.myProc ≠ p := fun h => hnodup.1 (by rw [hp, ← h]; exact mem_map_of_mem hother)
      rw [if_neg hne, id]
    rw [hrest, countP_cons, countP_cons, if_pos hp]
    cases hasMode proclock.holdMask m <;> cases hasMode (f proclock.holdMask) m <;> simp
  · have hne : pl.myProc ≠ p := fun h => hnodup.1 (h ▸ hp ▸ mem_map_of_mem hin)
    have := ih hnodup.2 hin
    rw [if_neg hne, countP_cons, countP_cons]
    rw [setHoldMask] at this
    omega

theorem hold_setHoldMask (hnodup : (lock.procLocks.map ProcLock.myProc).Nodup)
    (hin : proclock ∈ lock.procLocks) (hp : proclock.myProc = p)
    (hset : lock'.procLocks = setHoldMask lock.procLocks p f) :
    Hold lock' q m ↔ if q = p then hasMode (f proclock.holdMask) m = true else Hold lock q m := by
  unfold Hold
  rw [hset]
  split_ifs with hq
  · constructor
    · rintro ⟨other, hother, hsame, hhas⟩
      obtain ⟨pl, hpl, rfl⟩ := mem_setHoldMask.1 hother
      split_ifs at hsame hhas with hplp
      · rwa [unique_procLock hnodup hin hpl (hp.trans hplp.symm)]
      · exact absurd (hsame.trans hq) hplp
    · intro hhas
      refine ⟨{ proclock with holdMask := f proclock.holdMask },
        mem_setHoldMask.2 ⟨proclock, hin, if_pos hp⟩, hp.trans hq.symm, hhas⟩
  constructor
  · rintro ⟨other, hother, hsame, hhas⟩
    obtain ⟨pl, hpl, rfl⟩ := mem_setHoldMask.1 hother
    split_ifs at hsame hhas with hplp
    · exact absurd (hsame.symm.trans hplp) hq
    · exact ⟨pl, hpl, hsame, hhas⟩
  · rintro ⟨pl, hpl, hsame, hhas⟩
    refine ⟨pl, mem_setHoldMask.2 ⟨pl, hpl, if_neg ?_⟩, hsame, hhas⟩
    rwa [hsame]

theorem hasProcLock_setHoldMask (hset : lock'.procLocks = setHoldMask lock.procLocks p f) :
    HasProcLock lock' q ↔ HasProcLock lock q := by
  have hiff : ∀ lock : Lock, HasProcLock lock q ↔ q ∈ lock.procLocks.map ProcLock.myProc :=
    fun lock => mem_map.symm
  rw [hiff, hiff, hset, map_myProc_setHoldMask]

variable (h : HoldsCounted groups lock)
include h

theorem HoldsCounted.set (hin : proclock ∈ lock.procLocks) (hp : proclock.myProc = p)
    (hset : lock'.procLocks = setHoldMask lock.procLocks p f) (hmodes : ModesOnly (f proclock.holdMask))
    (hgranted : ∀ m, lock'.granted m + (hasMode proclock.holdMask m).toNat =
      lock.granted m + (hasMode (f proclock.holdMask) m).toNat)
    (hmask : ∀ m, hasMode lock'.grantMask m = true ↔ 0 < lock'.granted m) :
    HoldsCounted groups lock' where
  nodup := by
    rw [hset, map_myProc_setHoldMask]
    exact h.nodup
  leader := by
    rw [hset]
    intro other hother
    obtain ⟨pl, hpl, rfl⟩ := mem_setHoldMask.1 hother
    split_ifs
    · exact h.leader pl hpl
    · exact h.leader pl hpl
  granted := by
    intro m
    have hcount := countP_setHoldMask (f := f) h.nodup hin hp m
    have hg := hgranted m
    rw [h.granted m] at hg
    rw [hset]
    omega
  grantMask := hmask
  modes := by
    rw [hset]
    intro other hother
    obtain ⟨pl, hpl, rfl⟩ := mem_setHoldMask.1 hother
    split_ifs with hplp
    · rw [← unique_procLock h.nodup hin hpl (hp.trans hplp.symm)]
      exact hmodes
    · exact h.modes pl hpl

theorem HoldsCounted.granted_nonneg (m : LockMode) : 0 ≤ lock.granted m := by
  rw [h.granted m]
  exact Int.natCast_nonneg _

theorem grantLock_holds (hp : HasProcLock lock p) (hno : ¬ Hold lock p m) :
    HoldsCounted groups (grantLock lock p m) ∧ ∀ q k, Hold (grantLock lock p m) q k ↔
      Granted (Hold lock) p m q k := by
  obtain ⟨proclock, hin, hproc⟩ := hp
  have hbit : hasMode proclock.holdMask m = false :=
    Bool.eq_false_iff.2 fun hh => hno ((hold_iff h.nodup hin hproc).2 hh)
  have hnonneg := h.granted_nonneg
  have hset : (grantLock lock p m).procLocks = setHoldMask lock.procLocks p (· ||| lockBitOn m) := rfl
  constructor
  · refine h.set hin hproc hset ((h.modes proclock hin).or (modesOnly_lockBitOn m))
      (fun k => ?_) fun k => ?_
    · by_cases hk : k = m
      · subst hk
        simp [grantLock, hbit]
      · simp [grantLock, hk]
    by_cases hk : k = m
    · subst hk
      have hpos := hnonneg k
      simp [grantLock]
      omega
    · simp [grantLock, hk, h.grantMask k]
  · intro q k
    rw [hold_setHoldMask h.nodup hin hproc hset, Granted]
    split_ifs with hq
    · subst hq
      simp [hold_iff h.nodup hin hproc]
    · simp [hq]

omit h

theorem hasProcLock_grantLock : HasProcLock (grantLock lock p m) q ↔ HasProcLock lock q :=
  hasProcLock_setHoldMask (f := (· ||| lockBitOn m)) rfl

theorem unGrantLock_holds (h : HoldsCounted groups lock) (hp : HasProcLock lock p)
    (hyes : Hold lock p m) :
    HoldsCounted groups (unGrantLock lock p m).1 ∧ ∀ q k, Hold (unGrantLock lock p m).1 q k ↔
      Hold lock q k ∧ ¬ (q = p ∧ k = m) := by
  obtain ⟨proclock, hin, hproc⟩ := hp
  have hbit := (hold_iff h.nodup hin hproc).1 hyes
  have hpos : 0 < lock.granted m := by
    rw [h.granted m]
    exact Int.natCast_pos.2 (countP_pos_iff.2 ⟨proclock, hin, hbit⟩)
  have hset : (unGrantLock lock p m).1.procLocks = setHoldMask lock.procLocks p (· &&& lockBitOff m) :=
    rfl
  constructor
  · refine h.set hin hproc hset ((h.modes proclock hin).and _) (fun k => ?_) fun k => ?_
    · by_cases hk : k = m
      · subst hk
        simp [unGrantLock, hbit]
      · simp [unGrantLock, hk]
    by_cases hk : k = m
    · subst hk
      have hmask := (h.grantMask k).2 hpos
      by_cases hzero : lock.granted k - 1 = 0
      · simp [unGrantLock, hzero]
      · simp [unGrantLock, hzero, hmask]
        omega
    · by_cases hzero : lock.granted m - 1 = 0
      all_goals simp [unGrantLock, hk, hzero, h.grantMask k]
  · intro q k
    rw [hold_setHoldMask h.nodup hin hproc hset]
    split_ifs with hq
    · subst hq
      simp [hold_iff h.nodup hin hproc]
    · simp [hq]

theorem hasProcLock_unGrantLock : HasProcLock (unGrantLock lock p m).1 q ↔ HasProcLock lock q :=
  hasProcLock_setHoldMask (f := (· &&& lockBitOff m)) rfl

variable (h : HoldsCounted groups lock)
include h

theorem removeProcLock_holds (hin : proclock ∈ lock.procLocks) (hp : proclock.myProc = p)
    (hzero : proclock.holdMask = 0) :
    HoldsCounted groups (removeProcLock lock p) ∧
      (∀ q k, Hold (removeProcLock lock p) q k ↔ Hold lock q k) ∧
      ∀ q, q ≠ p → (HasProcLock (removeProcLock lock p) q ↔ HasProcLock lock q) := by
  have hmem : ∀ other, other ∈ (removeProcLock lock p).procLocks ↔
      other ∈ lock.procLocks ∧ other.myProc ≠ p := by
    simp [removeProcLock, mem_filter]
  have hnot : ∀ other ∈ lock.procLocks, ∀ k, hasMode other.holdMask k = true → other.myProc ≠ p := by
    intro other hother k hk hsame
    rw [unique_procLock h.nodup hother hin (hsame.trans hp.symm), hzero, hasMode_zero] at hk
    cases hk
  refine ⟨⟨?_, ?_, fun m => ?_, h.grantMask, ?_⟩, fun q k => ?_, fun q hq => ?_⟩
  · exact h.nodup.sublist (filter_sublist.map _)
  · exact fun other hother => h.leader other ((hmem other).1 hother).1
  · rw [show (removeProcLock lock p).granted m = lock.granted m from rfl, h.granted m,
      removeProcLock, countP_filter]
    congr 1
    apply countP_congr
    intro other hother
    have hne := hnot other hother m
    simp only [Bool.and_eq_true, decide_eq_true_iff]
    exact ⟨fun hh => ⟨hh, hne hh⟩, fun hh => hh.1⟩
  · exact fun other hother => h.modes other ((hmem other).1 hother).1
  · constructor
    · rintro ⟨other, hother, hsame, hh⟩
      exact ⟨other, ((hmem other).1 hother).1, hsame, hh⟩
    · rintro ⟨other, hother, hsame, hh⟩
      exact ⟨other, (hmem other).2 ⟨hother, hnot other hother k hh⟩, hsame, hh⟩
  · constructor
    · rintro ⟨other, hother, hsame⟩
      exact ⟨other, ((hmem other).1 hother).1, hsame⟩
    · rintro ⟨other, hother, rfl⟩
      exact ⟨other, (hmem other).2 ⟨hother, hq⟩, rfl⟩

theorem addProcLock_holds (hp : ¬ HasProcLock lock p)
    (hset : lock'.procLocks = lock.procLocks ++ [⟨p, groups.leaderOf p, 0⟩])
    (hgranted : lock'.granted = lock.granted) (hmask : lock'.grantMask = lock.grantMask) :
    HoldsCounted groups lock' ∧ (∀ q k, Hold lock' q k ↔ Hold lock q k) ∧ ∀ q, HasProcLock lock' q ↔
      HasProcLock lock q ∨ q = p := by
  have hmem : ∀ other, other ∈ lock'.procLocks ↔
      other ∈ lock.procLocks ∨ other = ⟨p, groups.leaderOf p, 0⟩ := by
    intro other
    rw [hset, mem_append, mem_singleton]
  refine ⟨⟨?_, ?_, fun m => ?_, fun m => ?_, ?_⟩, fun q k => ?_, fun q => ?_⟩
  · rw [hset, map_append, nodup_append]
    refine ⟨h.nodup, nodup_singleton _, ?_⟩
    intro a ha b hb hab
    obtain ⟨other, hother, rfl⟩ := mem_map.1 ha
    exact hp ⟨other, hother, hab.trans (mem_singleton.1 hb)⟩
  · intro other hother
    rcases (hmem other).1 hother with hother | rfl
    · exact h.leader other hother
    · rfl
  · rw [hgranted, h.granted m, hset, countP_append, countP_singleton]
    simp
  · rw [hgranted, hmask]
    exact h.grantMask m
  · intro other hother
    rcases (hmem other).1 hother with hother | rfl
    · exact h.modes other hother
    · exact modesOnly_zero
  · constructor
    · rintro ⟨other, hother, hsame, hh⟩
      rcases (hmem other).1 hother with hother | rfl
      · exact ⟨other, hother, hsame, hh⟩
      · rw [hasMode_zero] at hh
        cases hh
    · rintro ⟨other, hother, hsame, hh⟩
      exact ⟨other, (hmem other).2 (.inl hother), hsame, hh⟩
  · constructor
    · rintro ⟨other, hother, hsame⟩
      rcases (hmem other).1 hother with hother | rfl
      · exact .inl ⟨other, hother, hsame⟩
      · exact .inr hsame.symm
    · rintro (⟨other, hother, hsame⟩ | rfl)
      · exact ⟨other, (hmem other).2 (.inl hother), hsame⟩
      · exact ⟨_, (hmem _).2 (.inr rfl), rfl⟩

end Pg.LockMgr
