import PgRetrofit.Lib.Result
import PgRetrofit.Lib.WordSet
import PgRetrofit.Spec.LockManager

/-! Masks of lock modes as sets of modes, and `LockCheckConflicts` on a lock whose counts are right:
it finds a conflict exactly if another lock group holds a mode that conflicts. -/

namespace Pg

open LockMode

variable {mask mask' : LockMask} {m k : LockMode}

theorem LockMode.toNat_lt (m : LockMode) : m.toNat < 32 := by cases m <;> decide

theorem LockMode.toNat_inj : m.toNat = k.toNat ↔ m = k := by
  constructor
  · intro h
    cases m <;> cases k <;> first | rfl | (exact absurd h (by decide))
  · rintro rfl
    rfl

variable (m)

theorem LockMode.mem_all : m ∈ all := by cases m <;> decide

theorem LockMode.all_nodup : all.Nodup := by decide

theorem hasMode_zero : hasMode 0 m = false := BitVec.getLsbD_zero

@[simp] theorem hasMode_zeroWord : hasMode 0#32 m = false := BitVec.getLsbD_zero

variable {m}

@[simp] theorem hasMode_lockBitOn : hasMode (lockBitOn m) k = decide (k = m) := by
  rw [hasMode, lockBitOn, Words.getLsbD_bit m.toNat_lt]
  simp only [toNat_inj]

@[simp] theorem hasMode_or : hasMode (mask ||| mask') m = (hasMode mask m || hasMode mask' m) :=
  BitVec.getLsbD_or

@[simp] theorem hasMode_and : hasMode (mask &&& mask') m = (hasMode mask m && hasMode mask' m) :=
  BitVec.getLsbD_and

@[simp] theorem hasMode_lockBitOff : hasMode (lockBitOff m) k = !decide (k = m) := by
  have hbit : hasMode (lockBitOn m) k = decide (k = m) := hasMode_lockBitOn
  rw [hasMode, lockBitOff, BitVec.getLsbD_not, decide_eq_true k.toNat_lt, Bool.true_and]
  rw [hasMode] at hbit
  rw [hbit]

theorem and_lockBitOn : mask &&& lockBitOn m ≠ 0 ↔ hasMode mask m = true :=
  Words.and_bit_ne_zero m.toNat_lt

def Conflicts (m k : LockMode) : Prop := hasMode (conflictTab m) k = true

instance : DecidableRel Conflicts := fun _ _ => inferInstanceAs (Decidable (_ = true))

theorem Conflicts.symm (h : Conflicts m k) : Conflicts k m := by
  revert h
  cases m <;> cases k <;> decide

def ModesOnly (mask : LockMask) : Prop := ∀ i < 32, mask.getLsbD i = true → ∃ m : LockMode, m.toNat = i

theorem ModesOnly.eq_zero (h : ModesOnly mask) : mask = 0 ↔ ∀ m, hasMode mask m = false := by
  constructor
  · rintro rfl m
    exact hasMode_zero m
  intro hnone
  refine BitVec.eq_of_getLsbD_eq fun i hi => ?_
  rw [show (0 : BitVec 32).getLsbD i = false from BitVec.getLsbD_zero]
  refine Bool.eq_false_iff.2 fun hbit => ?_
  obtain ⟨m, rfl⟩ := h i hi hbit
  rw [show mask.getLsbD m.toNat = false from hnone m] at hbit
  cases hbit

theorem modesOnly_lockBitOn (m : LockMode) : ModesOnly (lockBitOn m) := by
  intro i hi h
  rw [lockBitOn, Words.getLsbD_bit m.toNat_lt, decide_eq_true_iff] at h
  exact ⟨m, h.symm⟩

theorem ModesOnly.or (h : ModesOnly mask) (h' : ModesOnly mask') : ModesOnly (mask ||| mask') := by
  intro i hi hbit
  rw [BitVec.getLsbD_or, Bool.or_eq_true] at hbit
  exact hbit.elim (h i hi) (h' i hi)

theorem ModesOnly.and (h : ModesOnly mask) (mask' : LockMask) : ModesOnly (mask &&& mask') := by
  intro i hi hbit
  rw [BitVec.getLsbD_and, Bool.and_eq_true] at hbit
  exact h i hi hbit.1

theorem modesOnly_zero : ModesOnly 0 := by
  intro i hi h
  rw [show (0 : BitVec 32).getLsbD i = false from BitVec.getLsbD_zero] at h
  cases h

theorem modesOnly_conflictTab (m : LockMode) : ModesOnly (conflictTab m) := by
  have hmodes : ModesOnly 0x1FE#32 := by
    have hall : ∀ i < 32, (0x1FE#32).getLsbD i = true → ∃ m ∈ all, m.toNat = i := by decide
    intro i hi hbit
    obtain ⟨m, -, hm⟩ := hall i hi hbit
    exact ⟨m, hm⟩
  have hsub : 0x1FE#32 &&& conflictTab m = conflictTab m := by cases m <;> decide
  rw [← hsub]
  exact hmodes.and _

theorem conflictTab_and : conflictTab m &&& mask ≠ 0 ↔ ∃ k, Conflicts m k ∧ hasMode mask k = true := by
  rw [ne_eq, ((modesOnly_conflictTab m).and mask).eq_zero]
  simp [Conflicts]

namespace LockMgr

variable {groups : LockGroups} {lock : Lock} {proclock other : ProcLock} {procLocks : List ProcLock}
  {mode : LockMode} {p : ℕ} {found : LockMode → ℕ}

def otherHolds (proclock : ProcLock) (i : LockMode) (other : ProcLock) : Bool :=
  proclock.myProc ≠ other.myProc && hasMode other.holdMask i

/-- The conflicts that remain: those found to be real, and those of the proclocks still to be looked
at. -/
def remaining (mode : LockMode) (proclock : ProcLock) (found : LockMode → ℕ) (procLocks : List ProcLock)
    (i : LockMode) : ℕ :=
  if Conflicts mode i then found i + procLocks.countP (otherHolds proclock i) else 0

/-- The proclock belongs to another group and holds a mode that conflicts. -/
def Foreign (mode : LockMode) (proclock other : ProcLock) : Prop :=
  other.groupLeader ≠ proclock.groupLeader ∧ ∃ k, hasMode other.holdMask k = true ∧ Conflicts mode k

theorem sum_update (f : LockMode → ℤ) (i : LockMode) :
    (all.map (Function.update f i (f i - 1))).sum = (all.map f).sum - 1 := by
  cases i <;> simp [all] <;> omega

theorem sum_eq_zero {r : LockMode → ℕ} : (all.map fun i => (r i : ℤ)).sum = 0 ↔ ∀ i, r i = 0 := by
  constructor
  · intro h i
    simp only [all, List.map_cons, List.map_nil, List.sum_cons, List.sum_nil] at h
    cases i <;> omega
  · intro h
    simp [all, h]

theorem subtractModes_spec (mask : LockMask) (modes : List LockMode) (hnodup : modes.Nodup)
    {rem : LockMode → ℤ} (hpos : ∀ i ∈ modes, hasMode mask i = true → 0 < rem i) :
    ∃ rem', subtractModes mask modes rem (all.map rem).sum = .ok (rem', (all.map rem').sum) ∧
      ∀ i, rem' i = if i ∈ modes ∧ hasMode mask i = true then rem i - 1 else rem i := by
  induction modes generalizing rem with
  | nil => exact ⟨rem, rfl, fun i => by simp⟩
  | cons k modes ih => ?_
  obtain ⟨hk, hnodup⟩ := List.nodup_cons.1 hnodup
  rw [subtractModes]
  by_cases hhas : hasMode mask k = true
  · have hpos' : ∀ i ∈ modes, hasMode mask i = true → 0 < Function.update rem k (rem k - 1) i := by
      intro i hi hm
      have hne : i ≠ k := fun h => hk (h ▸ hi)
      rw [Function.update_of_ne hne]
      exact hpos i (List.mem_cons_of_mem _ hi) hm
    have hk0 := hpos k List.mem_cons_self hhas
    rw [if_pos (and_lockBitOn.2 hhas), if_neg (by omega), ← sum_update]
    obtain ⟨rem', hrun, hrem'⟩ := ih hnodup hpos'
    refine ⟨rem', hrun, fun i => ?_⟩
    rw [hrem' i]
    by_cases hi : i = k
    · subst hi
      simp [hk, hhas]
    · simp [hi]
  rw [if_neg fun h => hhas (and_lockBitOn.1 h)]
  obtain ⟨rem', hrun, hrem'⟩ := ih hnodup fun i hi => hpos i (List.mem_cons_of_mem _ hi)
  refine ⟨rem', hrun, fun i => ?_⟩
  rw [hrem' i]
  by_cases hi : i = k
  · subst hi
    simp [hhas]
  · simp [hi]

def conflicting (mode : LockMode) (other : ProcLock) (i : LockMode) :
    ℕ := (hasMode (other.holdMask &&& conflictTab mode) i).toNat

theorem remaining_add (i : LockMode) :
    remaining mode proclock (fun i => found i + conflicting mode other i) procLocks i =
    remaining mode proclock found procLocks i + conflicting mode other i := by
  unfold remaining
  split_ifs with hc
  · exact Nat.add_right_comm ..
  · simp [conflicting, show hasMode (conflictTab mode) i = false from Bool.eq_false_iff.2 hc]

theorem remaining_cons (hne : proclock.myProc ≠ other.myProc) (i : LockMode) :
    remaining mode proclock found (other :: procLocks) i = remaining mode proclock found procLocks i +
      conflicting mode other i := by
  rw [← remaining_add]
  unfold remaining
  split_ifs with hc
  · cases hh : hasMode other.holdMask i <;>
      simp [conflicting, otherHolds, hne, hh, show hasMode (conflictTab mode) i = true from hc]
    omega
  · rfl

/-- A process of another group that holds a conflicting mode is counted. -/
theorem remaining_ne_zero
    (hleader : ∀ other ∈ procLocks, other.myProc = proclock.myProc →
      other.groupLeader = proclock.groupLeader)
    (found : LockMode → ℕ) (h : ∃ other ∈ procLocks, Foreign mode proclock other) :
    ∃ i, remaining mode proclock found procLocks i ≠ 0 := by
  obtain ⟨other, hin, hgroup, k, hhold, hc⟩ := h
  have hcount : 0 < procLocks.countP (otherHolds proclock k) := by
    apply List.countP_pos_iff.2
    refine ⟨other, hin, ?_⟩
    have hne : proclock.myProc ≠ other.myProc := fun h => hgroup (hleader other hin h.symm)
    simp [otherHolds, hne, hhold]
  refine ⟨k, ?_⟩
  rw [remaining, if_pos hc]
  omega

theorem groupLoop_spec (procLocks : List ProcLock)
    (hleader : ∀ other ∈ procLocks, other.myProc = proclock.myProc →
      other.groupLeader = proclock.groupLeader)
    (found : LockMode → ℕ) (htotal : ∃ i, remaining mode proclock found procLocks i ≠ 0) :
    ∃ st, groupLoop (conflictTab mode) proclock procLocks
      (fun i => (remaining mode proclock found procLocks i : ℤ))
        (all.map fun i => (remaining mode proclock found procLocks i : ℤ)).sum = .ok st ∧
      (st = .found ↔ (∃ i, Conflicts mode i ∧ found i ≠ 0) ∨
        ∃ other ∈ procLocks, Foreign mode proclock other) := by
  induction procLocks generalizing found with
  | nil =>
    obtain ⟨i, hi⟩ := htotal
    have hfound : Conflicts mode i ∧ found i ≠ 0 := by
      unfold remaining at hi
      split_ifs at hi with hc
      · exact ⟨hc, by simpa using hi⟩
      · exact absurd rfl hi
    exact ⟨.found, rfl, iff_of_true rfl (.inl ⟨i, hfound⟩)⟩
  | cons other procLocks ih =>
    obtain ⟨hother, hleader⟩ := List.forall_mem_cons.1 hleader
    rw [groupLoop, List.exists_mem_cons_iff]
    by_cases hmatch : proclock.myProc ≠ other.myProc ∧ proclock.groupLeader = other.groupLeader ∧
      other.holdMask &&& conflictTab mode ≠ 0
    · -- a member of the group: its locks are no conflicts
      have ⟨hne, hsame, _⟩ := hmatch
      have hpos : ∀ i ∈ all, hasMode (other.holdMask &&& conflictTab mode) i = true →
          0 < (remaining mode proclock found (other :: procLocks) i : ℤ) := by
        intro i _ hi
        rw [remaining_cons hne, conflicting, hi]
        exact Int.natCast_pos.2 (Nat.succ_pos _)
      obtain ⟨rem', hrun, hrem'⟩ := subtractModes_spec _ all all_nodup hpos
      have hrest : rem' = fun i => (remaining mode proclock found procLocks i : ℤ) := by
        funext i
        rw [hrem' i, remaining_cons hne, conflicting]
        cases hasMode (other.holdMask &&& conflictTab mode) i <;> simp [mem_all]
      rw [hrun, Result.ok_bind, hrest, or_iff_right (a := Foreign ..) fun h => h.1 hsame.symm]
      dsimp only
      split_ifs with hzero
      · have hnone := sum_eq_zero.1 hzero
        refine ⟨.ok, rfl, iff_of_false (by simp) ?_⟩
        rintro (⟨i, hc, hi⟩ | h)
        · have hi' := hnone i
          rw [remaining, if_pos hc] at hi'
          omega
        · obtain ⟨i, hi⟩ := remaining_ne_zero hleader found h
          exact hi (hnone i)
      · apply ih hleader
        by_contra hnone
        exact hzero (sum_eq_zero.2 fun i => by_contra fun hi => hnone ⟨i, hi⟩)
    · rw [if_neg hmatch]
      by_cases hgroup : other.groupLeader = proclock.groupLeader
      · -- my own proclock, or one of the group without a conflicting mode
        have hsame : ∀ i, remaining mode proclock found (other :: procLocks) i =
            remaining mode proclock found procLocks i := by
          intro i
          by_cases hown : proclock.myProc = other.myProc
          · simp [remaining, otherHolds, hown]
          · have hzero : other.holdMask &&& conflictTab mode = 0 :=
              by_contra fun h => hmatch ⟨hown, hgroup.symm, h⟩
            rw [remaining_cons hown, conflicting, hzero, hasMode_zero]
            rfl
        simp only [hsame] at htotal ⊢
        rw [or_iff_right (a := Foreign ..) fun h => h.1 hgroup]
        exact ih hleader found htotal
      -- another group: its locks are real conflicts
      have hne : proclock.myProc ≠ other.myProc := fun h => hgroup (hother h.symm)
      simp only [remaining_cons hne, ← remaining_add] at htotal ⊢
      obtain ⟨st, hrun, hst⟩ := ih hleader _ htotal
      refine ⟨st, hrun, hst.trans ?_⟩
      rw [← or_assoc]
      refine or_congr_left ⟨fun ⟨i, hc, hi⟩ => ?_, fun h => ?_⟩
      · cases hh : hasMode other.holdMask i with
        | true => exact .inr ⟨hgroup, i, hh, hc⟩
        | false => exact .inl ⟨i, hc, by simpa [conflicting, hh] using hi⟩
      · rcases h with ⟨i, hc, hi⟩ | ⟨-, k, hh, hc⟩
        · exact ⟨i, hc, by omega⟩
        · exact ⟨k, hc, by simp [conflicting, hh, show hasMode (conflictTab mode) k = true from hc]⟩

theorem LockGroups.eq_of_leaderOf (groups : LockGroups) {q : ℕ} (hq : groups.lockGroupLeader q = none)
    (h : groups.leaderOf p = q) : p = q := by
  rw [LockGroups.leaderOf] at h
  cases hp : groups.lockGroupLeader p with
  | none => simpa [hp] using h
  | some l =>
    obtain rfl : l = q := by simpa [hp] using h
    rw [groups.leader_leads hp] at hq
    cases hq

/-- The counts and masks of what is held are right, and each process has one proclock. -/
structure HoldsCounted (groups : LockGroups) (lock : Lock) : Prop where
  nodup : (lock.procLocks.map ProcLock.myProc).Nodup
  leader : ∀ proclock ∈ lock.procLocks, proclock.groupLeader = groups.leaderOf proclock.myProc
  granted : ∀ m, lock.granted m = lock.procLocks.countP fun proclock => hasMode proclock.holdMask m
  grantMask : ∀ m, hasMode lock.grantMask m = true ↔ 0 < lock.granted m
  modes : ∀ proclock ∈ lock.procLocks, ModesOnly proclock.holdMask

theorem countP_others (hnodup : (procLocks.map ProcLock.myProc).Nodup)
    (hin : proclock ∈ procLocks) (i : LockMode) :
    procLocks.countP (fun pl => hasMode pl.holdMask i) = procLocks.countP (otherHolds proclock i) +
      (hasMode proclock.holdMask i).toNat := by
  induction procLocks with
  | nil => exact absurd hin List.not_mem_nil
  | cons pl procLocks ih => ?_
  rw [List.map_cons, List.nodup_cons] at hnodup
  rcases List.mem_cons.1 hin with rfl | hin
  · have hall : procLocks.countP (otherHolds proclock i) =
        procLocks.countP fun pl => hasMode pl.holdMask i := by
      apply List.countP_congr
      intro pl hpl
      have hne : proclock.myProc ≠ pl.myProc := fun h => hnodup.1 (h ▸ List.mem_map_of_mem hpl)
      simp [otherHolds, hne]
    rw [List.countP_cons, List.countP_cons, hall]
    cases hasMode proclock.holdMask i <;> simp [otherHolds]
  · have hne : proclock.myProc ≠ pl.myProc := fun h => hnodup.1 (h ▸ List.mem_map_of_mem hin)
    rw [List.countP_cons, ih hnodup.2 hin]
    cases hh : hasMode pl.holdMask i <;> simp [otherHolds, hne, hh]
    omega

variable (h : HoldsCounted groups lock)
include h

variable (hin : proclock ∈ lock.procLocks)
include hin

theorem ownSubtracted_eq :
    ownSubtracted mode lock proclock =
      fun i => (remaining mode proclock (fun _ => 0) lock.procLocks i : ℤ) := by
  funext i
  have hcount := countP_others h.nodup hin i
  rw [ownSubtracted, remaining, h.granted i, hcount]
  by_cases hc : Conflicts mode i
  · rw [if_neg (and_lockBitOn.2 hc), if_pos hc]
    cases hh : hasMode proclock.holdMask i with
    | true =>
      rw [if_pos (and_lockBitOn.2 hh)]
      simp
    | false =>
      rw [if_neg fun h => Bool.false_ne_true (hh.symm.trans (and_lockBitOn.1 h))]
      simp
  · rw [if_pos (by_contra fun h => hc (and_lockBitOn.1 h)), if_neg hc]
    rfl

theorem lockCheckConflicts_spec (myProc : ℕ) (mode : LockMode) :
    ∃ st, lockCheckConflicts groups myProc mode lock proclock = .ok st ∧
      (st = .found ↔ ∃ other ∈ lock.procLocks, Foreign mode proclock other) := by
  have hleader : ∀ other ∈ lock.procLocks, other.myProc = proclock.myProc →
      other.groupLeader = proclock.groupLeader := by
    intro other hother hsame
    rw [h.leader other hother, h.leader proclock hin, hsame]
  rw [lockCheckConflicts]
  dsimp only
  rw [ownSubtracted_eq h hin]
  split_ifs with hmask htotal hsingle
  · refine ⟨.ok, rfl, iff_of_false (by simp) ?_⟩
    rintro ⟨other, hother, -, k, hhold, hc⟩
    refine conflictTab_and.2 ⟨k, hc, (h.grantMask k).2 ?_⟩ hmask
    rw [h.granted k]
    exact Int.natCast_pos.2 (List.countP_pos_iff.2 ⟨other, hother, hhold⟩)
  · refine ⟨.ok, rfl, iff_of_false (by simp) fun hforeign => ?_⟩
    obtain ⟨i, hi⟩ := remaining_ne_zero hleader (fun _ => 0) hforeign
    exact hi (sum_eq_zero.1 htotal i)
  · -- I am in no group: every other process is in another one
    refine ⟨.found, rfl, iff_of_true rfl ?_⟩
    obtain ⟨hme, hnone⟩ := hsingle
    obtain ⟨i, hi⟩ : ∃ i, remaining mode proclock (fun _ => 0) lock.procLocks i ≠ 0 := by
      by_contra hall
      exact htotal (sum_eq_zero.2 fun i => by_contra fun hi => hall ⟨i, hi⟩)
    have hc : Conflicts mode i := by_contra fun hc => hi (if_neg hc)
    rw [remaining, if_pos hc] at hi
    obtain ⟨other, hother, hholds⟩ :=
      List.countP_pos_iff.1 (show 0 < lock.procLocks.countP (otherHolds proclock i) by omega)
    simp only [otherHolds, Bool.and_eq_true, decide_eq_true_iff] at hholds
    refine ⟨other, hother, fun hsame => hholds.1 ?_, i, hholds.2, hc⟩
    rw [h.leader proclock hin] at hme hsame
    rw [h.leader other hother] at hsame
    exact (groups.eq_of_leaderOf hnone hme).trans (groups.eq_of_leaderOf hnone (hsame.trans hme)).symm
  · obtain ⟨st, hrun, hst⟩ := groupLoop_spec lock.procLocks hleader (fun _ => 0) (by_contra fun hnone =>
      htotal (sum_eq_zero.2 fun i => by_contra fun hi => hnone ⟨i, hi⟩))
    refine ⟨st, hrun, hst.trans ?_⟩
    simp

end LockMgr

end Pg
