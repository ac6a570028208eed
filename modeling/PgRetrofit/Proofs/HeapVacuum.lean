import PgRetrofit.Proofs.HeapVisibility
import PgRetrofit.Sanity.TransamOrder

/-! A tuple that `HeapTupleSatisfiesVacuum` finds dead is invisible from then on to every
snapshot that is not older than its `OldestXmin`. -/

namespace Pg.Backend

open List HeapTupleHeader

variable {b b' : Backend} {tup tup' : HeapTupleHeader} {oldestXmin : TransactionId} {snapshot : Snapshot}

def deleter (b : Backend) (tup : HeapTupleHeader) : TransactionId :=
  if tup.bit 12 then b.getUpdateXid tup else tup.getRawXmax

def EndedCommitted (b : Backend) (xid : TransactionId) : Prop :=
  b.inProgress 4 xid = false ∧ b.didCommit 4 xid = true

def EndedAborted (b : Backend) (xid : TransactionId) : Prop :=
  b.inProgress 4 xid = false ∧ b.didCommit 4 xid = false

/-- The inserting transaction counts as committed. -/
def XminDone (b : Backend) (tup : HeapTupleHeader) : Prop :=
  tup.bit 8 = true ∨
    (tup.bit 9 = false ∧ tup.bit 14 = false ∧ tup.bit 15 = false ∧ b.EndedCommitted tup.getRawXmin)

inductive Dead (b : Backend) (oldestXmin : TransactionId) (tup : HeapTupleHeader) : Prop
  /-- the inserting transaction is marked as aborted -/
  | invalid (h8 : tup.bit 8 = false) (h9 : tup.bit 9 = true)
  /-- the inserting transaction aborted -/
  | aborted (h8 : tup.bit 8 = false) (h9 : tup.bit 9 = false) (h14 : tup.bit 14 = false)
      (h15 : tup.bit 15 = false)
      (h : b.EndedAborted tup.getRawXmin)
  /-- the deleting transaction committed before `oldestXmin` -/
  | deleted (hxmin : b.XminDone tup) (h11 : tup.bit 11 = false) (hlock : tup.lockedOnly = false)
      (hxmax : (tup.bit 12 = false ∧ tup.bit 10 = true) ∨ b.EndedCommitted (b.deleter tup))
      (hold : transactionIdPrecedes (b.deleter tup) oldestXmin = true)

variable {xid : TransactionId} {i : ℕ}

theorem endedCommitted_of {k l : ℕ} (hk : k ≤ 4) (hl : l ≤ 4) (h : b.inProgress k xid = false)
    (hcom : b.didCommit l xid = true) : b.EndedCommitted xid :=
  ⟨(b.xacts.ended_forever (Nat.add_le_add_left hk b.now) h).1,
    b.xacts.committed_forever (Nat.add_le_add_left hl b.now) hcom⟩

theorem endedAborted_of {k l : ℕ} (hkl : k ≤ l) (hl : l ≤ 4) (h : b.inProgress k xid = false)
    (hcom : b.didCommit l xid = false) : b.EndedAborted xid := by
  have hl' := b.xacts.ended_forever (Nat.add_le_add_left hkl b.now) h
  have h4 := b.xacts.ended_forever (Nat.add_le_add_left hl b.now) hl'.1
  exact ⟨h4.1, h4.2.trans hcom⟩

/-- Hint bit `i` may have been set, nothing else. -/
structure Marked (i : ℕ) (tup tup' : HeapTupleHeader) : Prop where
  xmin : tup'.tXmin = tup.tXmin
  xmax : tup'.tXmax = tup.tXmax
  bit : ∀ j, i ≠ j → tup'.bit j = tup.bit j
  mono : tup.bit i = true → tup'.bit i = true

theorem Marked.refl (i : ℕ) (tup : HeapTupleHeader) : Marked i tup tup := ⟨rfl, rfl, fun _ _ => rfl, id⟩

theorem Hinted.marked (h : Hinted i tup tup') : Marked i tup tup' := by
  refine ⟨h.xmin, h.xmax, fun j hj => ?_, fun hi => ?_⟩
  · rw [h.bits, decide_eq_false hj, Bool.or_false]
  · rw [h.bits, hi, Bool.true_or]

theorem Hinted.set (h : Hinted i tup tup') : tup'.bit i = true := by
  rw [h.bits, decide_eq_true rfl, Bool.or_true]

theorem marked_of_cases (h : tup' = tup ∨ Hinted i tup tup') : Marked i tup tup' := by
  rcases h with rfl | h
  · exact .refl i _
  · exact h.marked

variable {i : ℕ} (h : Marked i tup tup')
include h

theorem Marked.getUpdateXid : b.getUpdateXid tup' = b.getUpdateXid tup := by
  rw [Backend.getUpdateXid, Backend.getUpdateXid, getRawXmax, getRawXmax, h.xmax]

theorem Marked.lockedOnly (hi : 8 ≤ i ∧ i ≤ 11) : tup'.lockedOnly = tup.lockedOnly := by
  rw [lockedOnly_eq, lockedOnly_eq, h.bit 7 (by omega), h.bit 12 (by omega), h.bit 6 (by omega),
    h.bit 4 (by omega)]

theorem Marked.deleter (hi : i ≤ 11) : b.deleter tup' = b.deleter tup := by
  rw [Backend.deleter, Backend.deleter, h.bit 12 (by omega), h.getUpdateXid, getRawXmax, getRawXmax,
    h.xmax]

theorem Marked.xminDone (hi : i = 8 ∨ i = 10) (hdone : b.XminDone tup) : b.XminDone tup' := by
  rcases hdone with h8 | ⟨h9, h14, h15, hended⟩
  · refine .inl ?_
    rcases hi with rfl | rfl
    · exact h.mono h8
    · rw [h.bit 8 (by decide), h8]
  refine .inr ⟨?_, ?_, ?_, ?_⟩
  · rw [h.bit 9 (by omega), h9]
  · rw [h.bit 14 (by omega), h14]
  · rw [h.bit 15 (by omega), h15]
  · rw [getRawXmin, h.xmin]
    exact hended

omit h

/-- The tuple was deleted before `oldestXmin`. -/
structure Deleted (b : Backend) (oldestXmin : TransactionId) (tup : HeapTupleHeader) : Prop where
  valid : tup.bit 11 = false
  notLocked : tup.lockedOnly = false
  ended : (tup.bit 12 = false ∧ tup.bit 10 = true) ∨ b.EndedCommitted (b.deleter tup)
  old : transactionIdPrecedes (b.deleter tup) oldestXmin = true

theorem Deleted.dead (h : b.Deleted oldestXmin tup) (hxmin : b.XminDone tup) : b.Dead oldestXmin tup :=
  .deleted hxmin h.valid h.notLocked h.ended h.old

/-- A hint about the inserting transaction is not about the deleting one. -/
theorem Marked.deleted_iff (h : Marked 8 tup tup') : b.Deleted oldestXmin tup' ↔
    b.Deleted oldestXmin tup := by
  have hbit := h.bit
  have hlock := h.lockedOnly (by decide)
  have hdel : b.deleter tup' = b.deleter tup := h.deleter (by decide)
  constructor
  · rintro ⟨h11, hlocked, hended, hold⟩
    rw [hbit 12 (by decide), hbit 10 (by decide), hdel] at hended
    exact ⟨hbit 11 (by decide) ▸ h11, hlock ▸ hlocked, hended, hdel ▸ hold⟩
  rintro ⟨h11, hlocked, hended, hold⟩
  refine ⟨(hbit 11 (by decide)).trans h11, hlock.trans hlocked, ?_, hdel ▸ hold⟩
  rw [hbit 12 (by decide), hbit 10 (by decide), hdel]
  exact hended

theorem Marked.deleted (h : Marked 10 tup tup') (hd : b.Deleted oldestXmin tup) :
    b.Deleted oldestXmin tup' := by
  have hdel : b.deleter tup' = b.deleter tup := h.deleter (by decide)
  refine ⟨(h.bit 11 (by decide)).trans hd.valid, (h.lockedOnly (by decide)).trans hd.notLocked,
    ?_, hdel ▸ hd.old⟩
  rw [hdel, h.bit 12 (by decide)]
  exact hd.ended.imp_left fun h' => ⟨h'.1, h.mono h'.2⟩

/-- The second part of the check finds a tuple dead only if it was deleted before `oldestXmin`. -/
theorem vacuumXmax_dead (h : (b.vacuumXmax tup oldestXmin).1 = .dead) :
    b.Deleted oldestXmin tup ∧ Marked 10 tup (b.vacuumXmax tup oldestXmin).2 := by
  have hmark : Marked 10 tup (b.setHintBits tup heapXmaxCommitted tup.getRawXmax) :=
    marked_of_cases (setHintBits_cases tup b (by decide) _)
  have hraw : (b.setHintBits tup heapXmaxCommitted tup.getRawXmax).getRawXmax = tup.getRawXmax :=
    hmark.xmax
  rw [vacuumXmax, has_xmaxInvalid, has_isMulti, has_xmaxCommitted] at h ⊢
  dsimp only at h ⊢
  rw [hraw] at h ⊢
  split_ifs at h ⊢ with h11 hlock _ _ _ _ h12 hrun hcom hold _ h10 hrun hcom hold hold
  all_goals try cases h
  all_goals rw [Bool.not_eq_true] at h11 hlock
  · -- the updater of a multixact committed
    have hdel : b.deleter tup = b.getUpdateXid tup := by rw [deleter, if_pos h12]
    rw [← hdel] at hrun hcom hold
    exact ⟨⟨h11, hlock, .inr (endedCommitted_of (by decide) (by decide) (Bool.eq_false_iff.2 hrun) hcom),
      by simpa using hold⟩, .refl 10 tup⟩
  · have hdel : b.deleter tup = tup.getRawXmax := by rw [deleter, if_neg h12]
    rw [← hdel] at hrun hcom hold
    exact ⟨⟨h11, hlock, .inr (endedCommitted_of (by decide) (by decide) (Bool.eq_false_iff.2 hrun) hcom),
      by simpa using hold⟩, hmark⟩
  · -- a committed deletion, by its hint bit
    have hdel : b.deleter tup = tup.getRawXmax := by rw [deleter, if_neg h12]
    rw [← hdel] at hold
    exact ⟨⟨h11, hlock, .inl ⟨Bool.eq_false_iff.2 h12, by simpa using h10⟩, by simpa using hold⟩,
      .refl 10 tup⟩

theorem dead_marked (b' : Backend) (oldestXmin : TransactionId) (h8 : tup.bit 8 = false) :
    b.Dead oldestXmin (b'.setHintBits tup heapXminInvalid invalidTransactionId) ∧
      b.deleter (b'.setHintBits tup heapXminInvalid invalidTransactionId) = b.deleter tup := by
  have hinted : Hinted 9 tup (b'.setHintBits tup heapXminInvalid invalidTransactionId) :=
    setHintBits_invalid tup b' (by decide)
  exact ⟨.invalid ((hinted.marked.bit 8 (by decide)).trans h8) hinted.set,
    hinted.marked.deleter (by decide)⟩

def VacuumXminSpec (b : Backend) (oldestXmin : TransactionId) (tup : HeapTupleHeader)
    (r : Option HTSVResult × HeapTupleHeader) : Prop :=
  (r.1 = some .dead → b.Dead oldestXmin r.2 ∧ b.deleter r.2 = b.deleter tup ∧
    (tup.bit 14 = false ∧ tup.bit 15 = false → b.Dead oldestXmin tup)) ∧
    (r.1 = none → b.XminDone r.2 ∧ (tup.bit 14 = false ∧ tup.bit 15 = false → b.XminDone tup) ∧
      (r.2 = tup ∨ Hinted 8 tup r.2))

theorem vacuumXminSpec_other {r : HTSVResult} (h : r ≠ .dead) :
    b.VacuumXminSpec oldestXmin tup (some r, tup') :=
  ⟨fun hr => absurd (Option.some.inj hr) h, fun hr => (by cases hr)⟩

theorem vacuumXminSpec_dead (h8 : tup.bit 8 = false)
    (hdead : tup.bit 14 = false ∧ tup.bit 15 = false → b.Dead oldestXmin tup) :
    b.VacuumXminSpec oldestXmin tup (some .dead,
      b.setHintBits tup heapXminInvalid invalidTransactionId) :=
  ⟨fun _ => ⟨(dead_marked b oldestXmin h8).1, (dead_marked b oldestXmin h8).2, hdead⟩,
    fun hr => (by cases hr)⟩

theorem vacuumXminSpec_moved (hmoved : ¬ (tup.bit 14 = false ∧ tup.bit 15 = false)) :
    b.VacuumXminSpec oldestXmin tup (none,
      b.setHintBits tup heapXminCommitted invalidTransactionId) := by
  have hinted : Hinted 8 tup (b.setHintBits tup heapXminCommitted invalidTransactionId) :=
    setHintBits_invalid tup b (by decide)
  exact ⟨fun hr => (by cases hr), fun _ => ⟨.inl hinted.set, fun h => absurd h hmoved, .inr hinted⟩⟩

theorem vacuumXminSpec_inserted (hdone : b.XminDone tup) :
    b.VacuumXminSpec oldestXmin tup (none, b.setHintBits tup heapXminCommitted tup.getRawXmin) := by
  have hcases : b.setHintBits tup heapXminCommitted tup.getRawXmin = tup ∨
      Hinted 8 tup (b.setHintBits tup heapXminCommitted tup.getRawXmin) :=
    setHintBits_cases tup b (by decide) _
  exact ⟨fun hr => (by cases hr),
    fun _ => ⟨(marked_of_cases hcases).xminDone (.inl rfl) hdone, fun _ => hdone, hcases⟩⟩

theorem vacuumXmin_spec (b : Backend) (oldestXmin : TransactionId) (tup : HeapTupleHeader) :
    b.VacuumXminSpec oldestXmin tup (b.vacuumXmin tup) := by
  rw [vacuumXmin, has_xminCommitted, xminInvalid_eq, has_movedOff, has_movedIn]
  dsimp only
  cases h8 : tup.bit 8 with
  | true => exact ⟨fun hr => (by cases hr), fun _ => ⟨.inl h8, fun _ => .inl h8, .inl rfl⟩⟩
  | false => ?_
  rw [if_pos (by rfl), Bool.not_false, Bool.true_and]
  split_ifs with h9 h14 _ _ _ h15 _ _ _ hcur _ _ _ hrun hcom
  all_goals try exact vacuumXminSpec_other (by decide)
  · exact ⟨fun _ => ⟨.invalid h8 h9, rfl, fun _ => .invalid h8 h9⟩, fun hr => (by cases hr)⟩
  · exact vacuumXminSpec_dead h8 fun h => absurd h.1 (by simp [h14])
  · exact vacuumXminSpec_moved fun h => by simp [h14] at h
  · exact vacuumXminSpec_moved fun h => by simp [h15] at h
  · exact vacuumXminSpec_dead h8 fun h => absurd h.2 (by simp [h15])
  all_goals rw [Bool.not_eq_true] at h9 h14 h15 hrun
  · exact vacuumXminSpec_inserted
      (.inr ⟨h9, h14, h15, endedCommitted_of (by decide) (by decide) hrun hcom⟩)
  · exact vacuumXminSpec_dead h8 fun _ =>
      .aborted h8 h9 h14 h15 (endedAborted_of (by decide) (by decide) hrun (Bool.eq_false_iff.2 hcom))

/-- A tuple that is found dead is dead, also before its hint bits are set unless it was moved. -/
theorem vacuum_dead (h : (b.heapTupleSatisfiesVacuum tup oldestXmin).1 = .dead) :
    b.Dead oldestXmin (b.heapTupleSatisfiesVacuum tup oldestXmin).2 ∧
      b.deleter (b.heapTupleSatisfiesVacuum tup oldestXmin).2 = b.deleter tup ∧
      (tup.bit 14 = false ∧ tup.bit 15 = false → b.Dead oldestXmin tup) := by
  have hspec := vacuumXmin_spec b oldestXmin tup
  rw [heapTupleSatisfiesVacuum] at h ⊢
  rcases hr : b.vacuumXmin tup with ⟨result, tup1⟩
  rw [hr] at h hspec
  cases result with
  | some result =>
    obtain rfl : result = .dead := h
    exact hspec.1 rfl
  | none => ?_
  obtain ⟨hdone, hdone', hcases⟩ := hspec.2 rfl
  have hmark : Marked 8 tup tup1 := marked_of_cases hcases
  obtain ⟨hdel, hmark'⟩ := vacuumXmax_dead h
  refine ⟨(hmark'.deleted hdel).dead (hmark'.xminDone (.inr rfl) hdone), ?_,
    fun hmoved => (hmark.deleted_iff.1 hdel).dead (hdone' hmoved)⟩
  exact (hmark'.deleter (by decide)).trans (hmark.deleter (by decide))

/-- `b'` looks at the same transactions after the call of `b`. -/
structure After (b b' : Backend) : Prop where
  xacts : b'.xacts = b.xacts
  members : b'.members = b.members
  now : b.now + 4 ≤ b'.now

theorem After.ended (h : After b b') (hend : b.inProgress 4 xid = false) (k : ℕ) :
    b'.inProgress k xid = false ∧ b'.didCommit k xid = b.didCommit 4 xid := by
  rw [inProgress, didCommit, h.xacts]
  exact b.xacts.ended_forever (h.now.trans (Nat.le_add_right _ _)) hend

theorem After.not_current (h : After b b') (hend : b.inProgress 4 xid = false) :
    b'.isCurrent xid = false := by
  by_contra hcur
  rw [Bool.not_eq_false] at hcur
  have hrun := inProgress_of_current hcur
  rw [(h.ended hend 0).1] at hrun
  exact Bool.noConfusion hrun

theorem After.getUpdateXid (h : After b b') (tup : HeapTupleHeader) :
    b'.getUpdateXid tup = b.getUpdateXid tup := by
  rw [Backend.getUpdateXid, Backend.getUpdateXid, multiXactIdGetUpdateXid,
    multiXactIdGetUpdateXid, h.members]

theorem mvccXmax_dead (hafter : After b b') (h : b.Deleted oldestXmin tup)
    (hsnap : transactionIdPrecedes (b.deleter tup) snapshot.xmin = true) :
    (b'.mvccXmax tup snapshot).1 = false ∧ Marked 10 tup (b'.mvccXmax tup snapshot).2 := by
  have hin : b'.inSnapshot (b.deleter tup) snapshot = false := by
    rw [inSnapshot, xidInMVCCSnapshot, hsnap, if_pos rfl]
  have hended := h.ended
  rw [mvccXmax, has_xmaxInvalid, has_isMulti, has_xmaxCommitted, h.valid, h.notLocked,
    hafter.getUpdateXid]
  cases h12 : tup.bit 12 with
  | true =>
    rw [deleter, h12, if_pos rfl] at hin hended
    have hended := hended.resolve_left (by simp)
    dsimp only
    rw [hafter.not_current hended.1, hin, (hafter.ended hended.1 1).2, hended.2]
    exact ⟨rfl, .refl 10 tup⟩
  | false => ?_
  rw [deleter, h12, if_neg Bool.false_ne_true] at hin hended
  rw [hin]
  cases h10 : tup.bit 10 with
  | true => exact ⟨rfl, .refl 10 tup⟩
  | false =>
    have hended := hended.resolve_left (by simp [h10])
    rw [hafter.not_current hended.1, (hafter.ended hended.1 1).2, hended.2]
    exact ⟨rfl, marked_of_cases (setHintBits_cases tup b' (by decide) _)⟩

def NotOlder (b : Backend) (tup : HeapTupleHeader) (oldestXmin : TransactionId)
    (snapshot : Snapshot) : Prop :=
  transactionIdPrecedesOrEquals oldestXmin snapshot.xmin = true ∧
    InOneWindow [b.deleter tup, oldestXmin, snapshot.xmin]

theorem mvccXmin_deleted (snapshot : Snapshot) (hafter : After b b') (hxmin : b.XminDone tup) :
    ((b'.mvccXmin tup snapshot).1 = some false ∨ (b'.mvccXmin tup snapshot).1 = none) ∧
      Marked 8 tup (b'.mvccXmin tup snapshot).2 := by
  rw [mvccXmin, has_xminCommitted, xminInvalid_eq, has_movedOff, has_movedIn]
  cases h8 : tup.bit 8 with
  | true =>
    rw [if_neg (by simp)]
    split_ifs
    · exact ⟨.inl rfl, .refl 8 tup⟩
    · exact ⟨.inr rfl, .refl 8 tup⟩
  | false => ?_
  obtain ⟨h9, h14, h15, hended⟩ := hxmin.resolve_left (by simp [h8])
  rw [h9, h14, h15, hafter.not_current hended.1, (hafter.ended hended.1 0).2, hended.2]
  cases b'.inSnapshot tup.getRawXmin snapshot with
  | true => exact ⟨.inl rfl, .refl 8 tup⟩
  | false => exact ⟨.inr rfl, marked_of_cases (setHintBits_cases tup b' (by decide) _)⟩

/-- A dead tuple is invisible, and stays dead. -/
theorem Dead.mvcc (h : b.Dead oldestXmin tup) (hafter : After b b')
    (hsnap : b.NotOlder tup oldestXmin snapshot) :
    (b'.heapTupleSatisfiesMVCC tup snapshot).1 = false ∧
      b.Dead oldestXmin (b'.heapTupleSatisfiesMVCC tup snapshot).2 ∧
      b.deleter (b'.heapTupleSatisfiesMVCC tup snapshot).2 = b.deleter tup := by
  cases h with
  | invalid h8 h9 =>
    have hx : b'.mvccXmin tup snapshot = (some false, tup) := by
      rw [mvccXmin, has_xminCommitted, xminInvalid_eq, h8, h9]
      rfl
    rw [heapTupleSatisfiesMVCC, hx]
    exact ⟨rfl, .invalid h8 h9, rfl⟩
  | aborted h8 h9 h14 h15 hended =>
    have hx : b'.mvccXmin tup snapshot = (some false, tup) ∨
        b'.mvccXmin tup snapshot =
          (some false, b'.setHintBits tup heapXminInvalid invalidTransactionId) := by
      rw [mvccXmin, has_xminCommitted, xminInvalid_eq, has_movedOff,
        has_movedIn, h8, h9, h14, h15, hafter.not_current hended.1,
          (hafter.ended hended.1 0).2, hended.2]
      cases b'.inSnapshot tup.getRawXmin snapshot with
      | true => exact .inl rfl
      | false => exact .inr rfl
    rcases hx with hx | hx <;> rw [heapTupleSatisfiesMVCC, hx]
    · exact ⟨rfl, .aborted h8 h9 h14 h15 hended, rfl⟩
    · exact ⟨rfl, dead_marked b' oldestXmin h8⟩
  | deleted hxmin h11 hlock hxmax hold => ?_
  have hbefore := precedes_trans hsnap.2 hold hsnap.1
  obtain ⟨hresult, hmark⟩ := mvccXmin_deleted snapshot hafter hxmin
  rw [heapTupleSatisfiesMVCC]
  rcases hr : b'.mvccXmin tup snapshot with ⟨result, tup1⟩
  rw [hr] at hresult hmark
  -- with the hint about the inserting transaction, if it was set
  have hdel : b.deleter tup1 = b.deleter tup := hmark.deleter (by decide)
  have hdone := hmark.xminDone (.inl rfl) hxmin
  have hdeleted := hmark.deleted_iff.2 (⟨h11, hlock, hxmax, hold⟩ : b.Deleted oldestXmin tup)
  rcases hresult with rfl | rfl
  · exact ⟨rfl, hdeleted.dead hdone, hdel⟩
  · obtain ⟨hfalse, hmark'⟩ := mvccXmax_dead hafter hdeleted (hdel.symm ▸ hbefore)
    exact ⟨hfalse, (hmark'.deleted hdeleted).dead (hmark'.xminDone (.inr rfl) hdone),
      (hmark'.deleter (by decide)).trans hdel⟩

/-- Checks of one tuple by several backends, one after the other. -/
def checks (tup : HeapTupleHeader) : List (Backend × Snapshot) → List Bool
  | [] => []
  | (b, snapshot) :: rest =>
    (b.heapTupleSatisfiesMVCC tup snapshot).1 :: checks (b.heapTupleSatisfiesMVCC tup snapshot).2 rest

/-- No check ever finds a dead tuple visible. -/
theorem Dead.checks (h : b.Dead oldestXmin tup) (cs : List (Backend × Snapshot))
    (hcs : ∀ c ∈ cs, After b c.1 ∧ b.NotOlder tup oldestXmin c.2) : ∀ r ∈ checks tup cs, r = false := by
  induction cs generalizing tup with
  | nil => exact fun r hr => absurd hr not_mem_nil
  | cons c cs ih => ?_
  obtain ⟨hafter, hsnap⟩ := hcs _ mem_cons_self
  obtain ⟨hfalse, hdead, hdel⟩ := h.mvcc hafter hsnap
  intro r hr
  rcases mem_cons.1 hr with rfl | hr
  · exact hfalse
  · refine ih hdead (fun c hc => ?_) r hr
    rw [NotOlder, hdel]
    exact hcs c (mem_cons_of_mem _ hc)

theorem surelyDead_dead (b : Backend) (h : heapTupleIsSurelyDead tup oldestXmin = true) :
    (b.heapTupleSatisfiesVacuum tup oldestXmin).1 = .dead := by
  rw [heapTupleIsSurelyDead] at h
  rw [heapTupleSatisfiesVacuum, vacuumXmin]
  cases hcom : tup.xminCommitted with
  | false =>
    rw [hcom, if_pos (by rfl)] at h
    rw [h]
    rfl
  | true => ?_
  rw [hcom, if_neg (by simp)] at h
  rw [if_neg (by simp)]
  dsimp only
  rw [vacuumXmax]
  split_ifs at h with h11 hlock h12 h10
  rw [if_neg h11, if_neg hlock, if_neg h12, if_neg h10, h]
  rfl

/-- A tuple that vacuum finds dead is invisible to every snapshot that is not older than
`oldestXmin`, whatever becomes of other transactions and whichever hint bits the checks set;
also as it was before the call, unless it is one that was moved. What looks surely dead is
found dead. -/
theorem heapTupleSatisfiesVacuum_dead (b : Backend) (tup : HeapTupleHeader)
    (oldestXmin : TransactionId) :
    ((b.heapTupleSatisfiesVacuum tup oldestXmin).1 = .dead → ∀ cs : List (Backend × Snapshot),
      (∀ c ∈ cs, After b c.1 ∧ b.NotOlder tup oldestXmin c.2) →
        (∀ r ∈ checks (b.heapTupleSatisfiesVacuum tup oldestXmin).2 cs, r = false) ∧
          (tup.has heapMoved = false → ∀ r ∈ checks tup cs, r = false)) ∧
      (heapTupleIsSurelyDead tup oldestXmin = true →
        (b.heapTupleSatisfiesVacuum tup oldestXmin).1 = .dead) := by
  refine ⟨fun hdead cs hcs => ?_, surelyDead_dead b⟩
  obtain ⟨hafter, hdel, hbefore⟩ := vacuum_dead hdead
  refine ⟨hafter.checks cs fun c hc => ?_, fun hmoved => (hbefore (not_moved hmoved)).checks cs hcs⟩
  rw [NotOlder, hdel]
  exact hcs c hc

/-- A tuple that transaction 50 deleted, and a snapshot of the own transaction 100. -/
theorem heapTupleSatisfiesVacuum_dead_sample :
    (sample.heapTupleSatisfiesVacuum ⟨60, 50, 0, 0⟩ 70).1 = .dead ∧
      checks (sample.heapTupleSatisfiesVacuum ⟨60, 50, 0, 0⟩ 70).2
      [({ sample with now := 9, current_running := fun _ h => h }, sampleSnapshot)] = [false] := by
  have hdead : (sample.heapTupleSatisfiesVacuum ⟨60, 50, 0, 0⟩ 70).1 = .dead := by decide
  have hall := ((heapTupleSatisfiesVacuum_dead sample ⟨60, 50, 0, 0⟩ 70).1 hdead
    [({ sample with now := 9, current_running := fun _ h => h }, sampleSnapshot)] (by
      intro c hc
      obtain rfl := mem_singleton.1 hc
      refine ⟨⟨rfl, rfl, by decide⟩, by decide, 50, ?_⟩
      intro x hx _
      have hmem : x ∈ ([50, 70, 90] : List TransactionId) := hx
      simp only [mem_cons, not_mem_nil, or_false] at hmem
      rcases hmem with rfl | rfl | rfl
      · exact ⟨50, rfl, by decide, by decide⟩
      · exact ⟨70, rfl, by decide, by decide⟩
      · exact ⟨90, rfl, by decide, by decide⟩)).1
  exact ⟨hdead, by rw [checks, hall _ mem_cons_self, checks]⟩

/-- Outside a window the order is not transitive: xid 3 is before `oldestXmin`, this is before
the snapshot, and 3 is after it. -/
theorem heapTupleSatisfiesVacuum_wraparound :
    (sample.heapTupleSatisfiesVacuum ⟨50, 3, 0, heapXminCommitted ||| heapXmaxCommitted⟩ 2147483650).1 =
      .dead ∧ transactionIdPrecedesOrEquals 2147483650 2147483660 = true ∧
      (sample.heapTupleSatisfiesMVCC
        (sample.heapTupleSatisfiesVacuum ⟨50, 3, 0,
          heapXminCommitted ||| heapXmaxCommitted⟩ 2147483650).2
        ⟨2147483660, 2147483660, [], [], false, false, 5⟩).1 = true := by
  decide

end Pg.Backend
