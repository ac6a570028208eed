import PgRetrofit.Sanity.HeapTupleBits

/-! `HeapTupleSatisfiesMVCC` decides whether a tuple is visible to a snapshot, and sets hint
bits that are true. -/

namespace Pg

open HeapTupleHeader Bool

/-- The tuples differ in hint bits only. That xmin is frozen is not a hint. -/
structure SameButHints (tup tup' : HeapTupleHeader) : Prop where
  xmin : tup'.tXmin = tup.tXmin
  xmax : tup'.tXmax = tup.tXmax
  field3 : tup'.tField3 = tup.tField3
  bits : ∀ i, i < 8 ∨ 12 ≤ i → tup'.bit i = tup.bit i
  frozen : tup'.xminFrozen = tup.xminFrozen

theorem SameButHints.refl (tup : HeapTupleHeader) : SameButHints tup tup :=
  ⟨rfl, rfl, rfl, fun _ _ => rfl, rfl⟩

theorem SameButHints.trans {t1 t2 t3 : HeapTupleHeader} (h : SameButHints t1 t2)
    (h' : SameButHints t2 t3) :
    SameButHints t1 t3 :=
  ⟨h'.xmin.trans h.xmin, h'.xmax.trans h.xmax, h'.field3.trans h.field3,
    fun i hi => (h'.bits i hi).trans (h.bits i hi), h'.frozen.trans h.frozen⟩

namespace Backend

variable (b : Backend) (tup : HeapTupleHeader) (snapshot : Snapshot)

def Aborted (xid : TransactionId) : Prop := b.inProgress 0 xid = false ∧ b.didCommit 0 xid = false

/-- The transaction that updated or deleted the tuple, if any did: of a multixact only its
updating member, and none if xmax is only a lock. -/
def updater : Option TransactionId :=
  if tup.lockedOnly then none
    else some (if tup.has heapXmaxIsMulti then b.getUpdateXid tup else tup.getRawXmax)

def InsertVisible : Prop :=
  tup.xminFrozen = true ∨ (b.isCurrent tup.getRawXmin = true ∧ b.getCmin tup < snapshot.curcid) ∨
    (b.didCommit 0 tup.getRawXmin = true ∧ b.inSnapshot tup.getRawXmin snapshot = false)

def NotDeleted : Prop :=
  ∀ x, b.updater tup = some x → (b.isCurrent x = true ∧ snapshot.curcid ≤ b.getCmax tup) ∨
      (b.isCurrent x = false ∧ (b.Aborted x ∨ b.inSnapshot x snapshot = true))

/-- The hint bits tell the truth. -/
structure Truthful : Prop where
  xminCommitted : tup.bit 8 = true → tup.bit 9 = false → b.didCommit 0 tup.getRawXmin = true
  xminInvalid : tup.bit 8 = false → tup.bit 9 = true → b.Aborted tup.getRawXmin
  xmaxCommitted : tup.bit 10 = true → tup.lockedOnly = false → tup.bit 12 = false →
    b.didCommit 0 tup.getRawXmax = true
  xmaxInvalid : tup.bit 11 = true → ∀ x, b.updater tup = some x → b.Aborted x

/-- Whatever another transaction did that is not in progress for the snapshot is done. -/
def Consistent : Prop :=
  ∀ xid, b.isCurrent xid = false → b.inSnapshot xid snapshot = false → b.inProgress 0 xid = false

/-- No transaction that is in progress is reported committed. -/
def RunningNotCommitted : Prop :=
  ∀ t xid, b.xacts.isInProgress t xid = true → b.xacts.didCommit t xid = false

/-- Nobody else updated a tuple that the own transaction inserted: if its updater is not the own
transaction, it is an aborted subtransaction of it. -/
def OwnInsertKept : Prop :=
  tup.xminFrozen = false → b.isCurrent tup.getRawXmin = true →
    ∀ x, b.updater tup = some x → b.isCurrent x = true ∨ b.Aborted x

variable {b tup snapshot} {tup' : HeapTupleHeader} {xid : TransactionId} {i : ℕ}

theorem inProgress_of_current (h : b.isCurrent xid = true) : b.inProgress 0 xid = true :=
  b.current_running (Nat.le_add_right _ _) h

theorem not_current_of_aborted (h : b.Aborted xid) : b.isCurrent xid = false := by
  by_contra hcur
  rw [not_eq_false] at hcur
  rw [Aborted, inProgress_of_current hcur] at h
  exact Bool.noConfusion h.1

theorem not_current_of_committed (hrun : b.RunningNotCommitted) (h : b.didCommit 0 xid = true) :
    b.isCurrent xid = false := by
  by_contra hcur
  rw [not_eq_false] at hcur
  rw [didCommit, hrun _ _ (inProgress_of_current hcur)] at h
  exact Bool.noConfusion h

/-- The answer about a transaction that has ended does not depend on when it is asked. -/
theorem didCommit_of_ended (h : b.inProgress 0 xid = false) (k : ℕ) :
    b.didCommit k xid = b.didCommit 0 xid :=
  (b.xacts.ended_forever (Nat.add_le_add_left (Nat.zero_le k) b.now) h).2

variable (h : SameButHints tup tup')
include h

theorem lockedOnly_congr : tup'.lockedOnly = tup.lockedOnly := by
  rw [lockedOnly_eq, lockedOnly_eq, h.bits 7 (by decide), h.bits 12 (by decide),
    h.bits 6 (by decide), h.bits 4 (by decide)]

theorem updater_congr : b.updater tup' = b.updater tup := by
  rw [updater, updater, lockedOnly_congr h, has_isMulti, has_isMulti, h.bits 12 (by decide),
    getUpdateXid, getUpdateXid, getRawXmax, getRawXmax, h.xmax]

theorem insertVisible_congr : b.InsertVisible tup' snapshot ↔ b.InsertVisible tup snapshot := by
  rw [InsertVisible, InsertVisible, h.frozen, getCmin, getCmin, has_combocid, has_combocid,
    h.bits 5 (by decide), getRawCommandId, getRawCommandId, h.field3,
    getRawXmin, getRawXmin, h.xmin]

theorem notDeleted_congr : b.NotDeleted tup' snapshot ↔ b.NotDeleted tup snapshot := by
  rw [NotDeleted, NotDeleted, updater_congr h, getCmax, getCmax, has_combocid, has_combocid,
    h.bits 5 (by decide), getRawCommandId, getRawCommandId, h.field3]

theorem ownInsertKept_congr (hown : b.OwnInsertKept tup) : b.OwnInsertKept tup' := by
  rw [OwnInsertKept, h.frozen, updater_congr h, getRawXmin, h.xmin]
  exact hown

omit h

theorem Hinted.same (h : Hinted i tup tup')
    (hi : i = 10 ∨ i = 11 ∨ (i = 8 ∧ tup.bit 9 = false) ∨ (i = 9 ∧ tup.bit 8 = false)) :
    SameButHints tup tup' := by
  refine ⟨h.xmin, h.xmax, h.field3, fun j hj => ?_, ?_⟩
  · rw [h.bits, decide_eq_false (by omega), Bool.or_false]
  rw [xminFrozen_eq, h.bits, h.bits]
  rcases hi with rfl | rfl | ⟨rfl, h9⟩ | ⟨rfl, h8⟩
  · simp
  · simp
  · simp [h9]
  · simp [h8]

/-- What a call leaves of the tuple: the same, with hint bits that are true. -/
def LeavesTrue (b : Backend) (tup tup' : HeapTupleHeader) : Prop :=
  SameButHints tup tup' ∧ (∀ i, tup.bit i = true → tup'.bit i = true) ∧ b.Truthful tup'

theorem Truthful.leaves (h : b.Truthful tup) : b.LeavesTrue tup tup := ⟨.refl tup, fun _ hi => hi, h⟩

theorem LeavesTrue.trans {tup'' : HeapTupleHeader} (h : b.LeavesTrue tup tup')
    (h' : b.LeavesTrue tup' tup'') :
    b.LeavesTrue tup tup'' :=
  ⟨h.1.trans h'.1, fun i hi => h'.2.1 i (h.2.1 i hi), h'.2.2⟩

theorem Truthful.set (h : b.Truthful tup) (xid : TransactionId)
    (hi : (i = 8 ∧ tup.bit 9 = false ∧ b.didCommit 0 tup.getRawXmin = true) ∨
      (i = 9 ∧ tup.bit 8 = false ∧ b.Aborted tup.getRawXmin) ∨
      (i = 10 ∧ b.didCommit 0 tup.getRawXmax = true) ∨
      (i = 11 ∧ ∀ x, b.updater tup = some x → b.Aborted x)) :
    b.LeavesTrue tup (b.setHintBits tup (Flags.mask i) xid) := by
  rcases setHintBits_cases tup b (show i < 16 by omega) xid with hsame | hinted
  · rw [hsame]
    exact h.leaves
  generalize b.setHintBits tup (Flags.mask i) xid = tup' at hinted
  obtain ⟨hxmin, hxmax, -, hbits⟩ := id hinted
  have hsame : SameButHints tup tup' := by
    apply Hinted.same hinted
    rcases hi with ⟨rfl, h9, -⟩ | ⟨rfl, h8, -⟩ | ⟨rfl, -⟩ | ⟨rfl, -⟩
    · exact .inr (.inr (.inl ⟨rfl, h9⟩))
    · exact .inr (.inr (.inr ⟨rfl, h8⟩))
    · exact .inl rfl
    · exact .inr (.inl rfl)
  have hset : ∀ {j}, tup'.bit j = true → tup.bit j = true ∨ i = j := by
    intro j hj
    rwa [hbits, or_eq_true, decide_eq_true_iff] at hj
  have hclear : ∀ {j}, tup'.bit j = false → tup.bit j = false := by
    intro j hj
    rw [hbits, or_eq_false_iff] at hj
    exact hj.1
  refine ⟨hsame,
    fun j hj =>
      by
        rw [hbits, hj, Bool.true_or], fun h8 h9 => ?_, fun h8 h9 => ?_,
          fun h10 hlock hmulti => ?_, fun h11 => ?_⟩
  · rw [getRawXmin, hxmin]
    rcases hset h8 with h8 | rfl
    · exact h.xminCommitted h8 (hclear h9)
    · have hi : tup.bit 9 = false ∧ b.didCommit 0 tup.getRawXmin = true := by simpa using hi
      exact hi.2
  · rw [getRawXmin, hxmin]
    rcases hset h9 with h9 | rfl
    · exact h.xminInvalid (hclear h8) h9
    · have hi : tup.bit 8 = false ∧ b.Aborted tup.getRawXmin := by simpa using hi
      exact hi.2
  · rw [lockedOnly_congr hsame] at hlock
    rw [getRawXmax, hxmax]
    rcases hset h10 with h10 | rfl
    · exact h.xmaxCommitted h10 hlock (hclear hmulti)
    · have hi : b.didCommit 0 tup.getRawXmax = true := by simpa using hi
      exact hi
  · rw [updater_congr hsame]
    rcases hset h11 with h11 | rfl
    · exact h.xmaxInvalid h11
    · simpa using hi

theorem notDeleted_of_none (h : b.updater tup = none) : b.NotDeleted tup snapshot := by
  intro x hx
  rw [h] at hx
  cases hx

variable {x : TransactionId}

theorem notDeleted_iff (h : b.updater tup = some x) : b.NotDeleted tup snapshot ↔
    (b.isCurrent x = true ∧ snapshot.curcid ≤ b.getCmax tup) ∨
      (b.isCurrent x = false ∧ (b.Aborted x ∨ b.inSnapshot x snapshot = true)) := by
  rw [NotDeleted, h]
  exact ⟨fun hall => hall x rfl, fun hx y hy => Option.some.inj hy ▸ hx⟩

theorem notDeleted_current (h : b.updater tup = some x) (hcur : b.isCurrent x = true) :
    b.NotDeleted tup snapshot ↔ snapshot.curcid ≤ b.getCmax tup := by
  rw [notDeleted_iff h]
  simp [hcur]

theorem notDeleted_other (hcons : b.Consistent snapshot) (h : b.updater tup = some x)
    (hcur : b.isCurrent x = false) :
    b.NotDeleted tup snapshot ↔ b.inSnapshot x snapshot = true ∨ b.didCommit 0 x = false := by
  rw [notDeleted_iff h, hcur]
  constructor
  · rintro (⟨hc, -⟩ | ⟨-, hab | hin⟩)
    · exact Bool.noConfusion hc
    · exact .inr hab.2
    · exact .inl hin
  intro hor
  refine .inr ⟨rfl, ?_⟩
  cases hin : b.inSnapshot x snapshot with
  | true => exact .inr rfl
  | false =>
    rw [hin] at hor
    exact .inl ⟨hcons x hcur hin, hor.resolve_left false_ne_true⟩

theorem notDeleted_of_aborted (h : ∀ x, b.updater tup = some x → b.Aborted x) :
    b.NotDeleted tup snapshot :=
  fun x hx => .inr ⟨not_current_of_aborted (h x hx), .inl (h x hx)⟩

theorem updater_of_lockedOnly (h : tup.lockedOnly = true) : b.updater tup = none := by
  rw [updater, h, if_pos rfl]

theorem updater_of_multi (h : tup.lockedOnly = false) (h12 : tup.bit 12 = true) :
    b.updater tup = some (b.getUpdateXid tup) := by
  rw [updater, h, if_neg Bool.false_ne_true, has_isMulti, h12, if_pos rfl]

theorem updater_of_single (h : tup.lockedOnly = false) (h12 : tup.bit 12 = false) :
    b.updater tup = some tup.getRawXmax := by
  rw [updater, h, if_neg Bool.false_ne_true, has_isMulti, h12, if_neg Bool.false_ne_true]

theorem mvccXmax_spec (hcons : b.Consistent snapshot) (hrun : b.RunningNotCommitted)
    (h : b.Truthful tup) :
    ((b.mvccXmax tup snapshot).1 = true ↔ b.NotDeleted tup snapshot) ∧
      b.LeavesTrue tup (b.mvccXmax tup snapshot).2 := by
  rw [mvccXmax, has_xmaxInvalid]
  cases h11 : tup.bit 11 with
  | true => exact ⟨⟨fun _ => notDeleted_of_aborted (h.xmaxInvalid h11), fun _ => rfl⟩, h.leaves⟩
  | false => ?_
  cases hlock : tup.lockedOnly with
  | true => exact ⟨⟨fun _ => notDeleted_of_none (updater_of_lockedOnly hlock), fun _ => rfl⟩, h.leaves⟩
  | false => ?_
  rw [has_isMulti]
  cases h12 : tup.bit 12 with
  | true =>
    have hup := updater_of_multi (b := b) hlock h12
    dsimp only
    cases hcur : b.isCurrent (b.getUpdateXid tup) with
    | true =>
      rw [notDeleted_current hup hcur]
      exact ⟨decide_eq_true_iff, h.leaves⟩
    | false => ?_
    rw [notDeleted_other hcons hup hcur]
    cases hin : b.inSnapshot (b.getUpdateXid tup) snapshot with
    | true => exact ⟨⟨fun _ => .inl rfl, fun _ => rfl⟩, h.leaves⟩
    | false =>
      rw [didCommit_of_ended (hcons _ hcur hin)]
      cases b.didCommit 0 (b.getUpdateXid tup) <;> exact ⟨by simp, h.leaves⟩
  | false => ?_
  have hup := updater_of_single (b := b) hlock h12
  rw [has_xmaxCommitted]
  cases h10 : tup.bit 10 with
  | true =>
    have hcom := h.xmaxCommitted h10 hlock h12
    rw [notDeleted_other hcons hup (not_current_of_committed hrun hcom), hcom]
    cases b.inSnapshot tup.getRawXmax snapshot <;> exact ⟨by simp, h.leaves⟩
  | false => ?_
  cases hcur : b.isCurrent tup.getRawXmax with
  | true =>
    rw [notDeleted_current hup hcur]
    exact ⟨decide_eq_true_iff, h.leaves⟩
  | false => ?_
  rw [notDeleted_other hcons hup hcur]
  cases hin : b.inSnapshot tup.getRawXmax snapshot with
  | true => exact ⟨by simp, h.leaves⟩
  | false => ?_
  have hended := hcons _ hcur hin
  rw [didCommit_of_ended hended]
  cases hcom : b.didCommit 0 tup.getRawXmax with
  | true =>
    refine ⟨by simp, ?_⟩
    exact h.set _ (.inr (.inr (.inl ⟨rfl, hcom⟩)))
  | false => ?_
  have hab : ∀ x, b.updater tup = some x → b.Aborted x := by
    intro x hx
    rw [hup] at hx
    exact Option.some.inj hx ▸ ⟨hended, hcom⟩
  exact ⟨by simp, h.set invalidTransactionId (.inr (.inr (.inr ⟨rfl, hab⟩)))⟩

theorem insertVisible_current (snapshot : Snapshot) (hrun : b.RunningNotCommitted)
    (hfrozen : tup.xminFrozen = false) (hcur : b.isCurrent tup.getRawXmin = true) :
    b.InsertVisible tup snapshot ↔ b.getCmin tup < snapshot.curcid := by
  have hnot : ¬ b.didCommit 0 tup.getRawXmin = true := fun hcom => by
    rw [not_current_of_committed hrun hcom] at hcur
    exact Bool.noConfusion hcur
  rw [InsertVisible, hfrozen, hcur]
  simp [hnot]

theorem insertVisible_other (snapshot : Snapshot) (hfrozen : tup.xminFrozen = false)
    (hcur : b.isCurrent tup.getRawXmin = false) :
    b.InsertVisible tup snapshot ↔ b.didCommit 0 tup.getRawXmin = true ∧
      b.inSnapshot tup.getRawXmin snapshot = false := by
  rw [InsertVisible, hfrozen, hcur]
  simp

/-- What the first part of the check answers: all there is to know, or that the tuple has been
inserted and the second part decides. -/
def XminSpec (b : Backend) (tup : HeapTupleHeader) (snapshot : Snapshot)
    (r : Option Bool × HeapTupleHeader) : Prop :=
  b.LeavesTrue tup r.2 ∧ match r.1 with
    | some result => result = true ↔ b.InsertVisible tup snapshot ∧ b.NotDeleted tup snapshot
    | none => b.InsertVisible tup snapshot

theorem xminSpec_invisible (h : b.LeavesTrue tup tup') (hnot : ¬ b.InsertVisible tup snapshot) :
    b.XminSpec tup snapshot (some false, tup') := ⟨h, by simp [hnot]⟩

theorem xminSpec_decided (h : b.LeavesTrue tup tup')
    (hins : b.InsertVisible tup snapshot) {result : Bool}
    (hdel : result = true ↔ b.NotDeleted tup snapshot) : b.XminSpec tup snapshot (some result, tup') :=
  ⟨h, by simp [hins, hdel]⟩

theorem mvccXmin_own (hown : b.OwnInsertKept tup) (hfrozen : tup.xminFrozen = false) (h : b.Truthful tup)
    (hcur : b.isCurrent tup.getRawXmin = true) (hins : b.InsertVisible tup snapshot) :
    b.XminSpec tup snapshot (if tup.has heapXmaxInvalid then (some true, tup)
      else if tup.lockedOnly then (some true, tup)
      else if tup.has heapXmaxIsMulti then
        let xmax := b.getUpdateXid tup
        if !b.isCurrent xmax then (some true, tup)
        else if b.getCmax tup ≥ snapshot.curcid then (some true, tup)
        else (some false, tup)
      else if !b.isCurrent tup.getRawXmax then
        (some true, b.setHintBits tup heapXmaxInvalid invalidTransactionId)
      else if b.getCmax tup ≥ snapshot.curcid then (some true, tup)
      else (some false, tup)) := by
  rw [has_xmaxInvalid, has_isMulti]
  cases h11 : tup.bit 11 with
  | true =>
    exact xminSpec_decided h.leaves hins
      ⟨fun _ => notDeleted_of_aborted (h.xmaxInvalid h11), fun _ => rfl⟩
  | false => ?_
  cases hlock : tup.lockedOnly with
  | true =>
    exact xminSpec_decided h.leaves hins ⟨fun _ => notDeleted_of_none (updater_of_lockedOnly hlock),
      fun _ => rfl⟩
  | false => ?_
  -- an updater that is not the own transaction is an aborted part of it
  have hother : ∀ {x}, b.updater tup = some x → b.isCurrent x = false →
      ∀ y, b.updater tup = some y → b.Aborted y := by
    intro x hx hxcur y hy
    obtain rfl : x = y := Option.mem_unique hx hy
    exact (hown hfrozen hcur x hx).resolve_left (by simp [hxcur])
  -- the own transaction's update
  have hself : ∀ {x}, b.updater tup = some x → b.isCurrent x = true → b.XminSpec tup snapshot
      (if b.getCmax tup ≥ snapshot.curcid then (some true, tup) else (some false, tup)) := by
    intro x hx hxcur
    by_cases hcmax : b.getCmax tup ≥ snapshot.curcid
    · rw [if_pos hcmax]
      exact xminSpec_decided h.leaves hins
        (by rw [notDeleted_current hx hxcur]; exact ⟨fun _ => hcmax, fun _ => rfl⟩)
    · rw [if_neg hcmax]
      exact xminSpec_decided h.leaves hins (by rw [notDeleted_current hx hxcur]; simpa using hcmax)
  cases h12 : tup.bit 12 with
  | true =>
    have hup := updater_of_multi (b := b) hlock h12
    dsimp only
    cases hx : b.isCurrent (b.getUpdateXid tup) with
    | false =>
      exact xminSpec_decided h.leaves hins ⟨fun _ => notDeleted_of_aborted (hother hup hx), fun _ => rfl⟩
    | true => exact hself hup hx
  | false => ?_
  have hup := updater_of_single (b := b) hlock h12
  cases hx : b.isCurrent tup.getRawXmax with
  | false =>
    apply xminSpec_decided _ hins ⟨fun _ => notDeleted_of_aborted (hother hup hx), fun _ => rfl⟩
    exact h.set _ (.inr (.inr (.inr ⟨rfl, hother hup hx⟩)))
  | true => exact hself hup hx

variable (hmoved : tup.bit 14 = false ∧ tup.bit 15 = false)
include hmoved

variable (hcons : b.Consistent snapshot) (hrun : b.RunningNotCommitted) (hown : b.OwnInsertKept tup)
include hcons hrun hown

theorem mvccXmin_spec (h : b.Truthful tup) : b.XminSpec tup snapshot (b.mvccXmin tup snapshot) := by
  rw [mvccXmin, has_xminCommitted, xminInvalid_eq, has_movedOff, has_movedIn, hmoved.1, hmoved.2]
  have hfrozenEq := xminFrozen_eq tup
  cases h8 : tup.bit 8 with
  | false =>
    rw [h8] at hfrozenEq
    cases h9 : tup.bit 9 with
    | true =>
      -- marked invalid
      have hab := h.xminInvalid h8 h9
      apply xminSpec_invisible h.leaves
      rw [insertVisible_other snapshot hfrozenEq (not_current_of_aborted hab), hab.2]
      simp
    | false => ?_
    cases hcur : b.isCurrent tup.getRawXmin with
    | true =>
      have hins := insertVisible_current snapshot hrun hfrozenEq hcur
      by_cases hcmin : b.getCmin tup ≥ snapshot.curcid
      · rw [if_pos hcmin]
        apply xminSpec_invisible h.leaves
        rw [hins]
        exact UInt32.not_lt.2 hcmin
      · rw [if_neg hcmin]
        exact mvccXmin_own hown hfrozenEq h hcur (hins.2 (UInt32.not_le.1 hcmin))
    | false => ?_
    have hins := insertVisible_other snapshot hfrozenEq hcur
    cases hin : b.inSnapshot tup.getRawXmin snapshot with
    | true =>
      apply xminSpec_invisible h.leaves
      rw [hins, hin]
      simp
    | false => ?_
    cases hcom : b.didCommit 0 tup.getRawXmin with
    | true =>
      refine ⟨h.set _ (.inl ⟨rfl, h9, hcom⟩), ?_⟩
      exact hins.2 ⟨hcom, hin⟩
    | false =>
      apply xminSpec_invisible (h.set _ (.inr (.inl ⟨rfl, h8, hcons _ hcur hin, hcom⟩)))
      rw [hins, hcom]
      simp
  | true =>
    rw [hfrozenEq, h8]
    cases h9 : tup.bit 9 with
    | true =>
      exact ⟨h.leaves, .inl (by rw [hfrozenEq, h8, h9]; rfl)⟩
    | false => ?_
    have hcom := h.xminCommitted h8 h9
    have hins := insertVisible_other snapshot (by rw [hfrozenEq, h9, Bool.and_false])
      (not_current_of_committed hrun hcom)
    cases hin : b.inSnapshot tup.getRawXmin snapshot with
    | true =>
      apply xminSpec_invisible h.leaves
      rw [hins, hin]
      simp
    | false => exact ⟨h.leaves, hins.2 ⟨hcom, hin⟩⟩

theorem mvcc_spec (h : b.Truthful tup) :
    ((b.heapTupleSatisfiesMVCC tup snapshot).1 = true ↔ b.InsertVisible tup snapshot ∧
      b.NotDeleted tup snapshot) ∧ b.LeavesTrue tup (b.heapTupleSatisfiesMVCC tup snapshot).2 := by
  have hxmin := mvccXmin_spec hmoved hcons hrun hown h
  rw [heapTupleSatisfiesMVCC]
  rcases hr : b.mvccXmin tup snapshot with ⟨result, tup'⟩
  rw [hr] at hxmin
  obtain ⟨hleaves, hspec⟩ := hxmin
  cases result with
  | some result => exact ⟨hspec, hleaves⟩
  | none =>
    obtain ⟨hdel, hleaves'⟩ := mvccXmax_spec hcons hrun hleaves.2.2
    refine ⟨?_, hleaves.trans hleaves'⟩
    rw [hdel, notDeleted_congr hleaves.1]
    exact ⟨fun hd => ⟨hspec, hd⟩, fun hd => hd.2⟩

omit hcons hrun hown

omit hmoved

/-- A tuple is visible to a snapshot exactly if its insertion is and its deletion is not,
whichever true hint bits it has, and the hint bits that are set are true. -/
theorem heapTupleSatisfiesMVCC_visible (b : Backend) (tup : HeapTupleHeader) (snapshot : Snapshot)
    (hmoved : tup.has heapMoved = false) (hcons : b.Consistent snapshot) (hrun : b.RunningNotCommitted)
    (hown : b.OwnInsertKept tup) (htrue : b.Truthful tup) :
    ((b.heapTupleSatisfiesMVCC tup snapshot).1 = true ↔ b.InsertVisible tup snapshot ∧
      b.NotDeleted tup snapshot) ∧ (∀ tup', SameButHints tup tup' → b.Truthful tup' →
        (b.heapTupleSatisfiesMVCC tup' snapshot).1 = (b.heapTupleSatisfiesMVCC tup snapshot).1) ∧
      b.LeavesTrue tup (b.heapTupleSatisfiesMVCC tup snapshot).2 := by
  have hbits := not_moved hmoved
  obtain ⟨hresult, hleaves⟩ := mvcc_spec hbits hcons hrun hown htrue
  refine ⟨hresult, fun tup' hsame htrue' => ?_, hleaves⟩
  have hbits' : tup'.bit 14 = false ∧ tup'.bit 15 = false := by
    rw [hsame.bits 14 (by decide), hsame.bits 15 (by decide)]
    exact hbits
  obtain ⟨hresult', -⟩ := mvcc_spec hbits' hcons hrun (ownInsertKept_congr hsame hown) htrue'
  rw [insertVisible_congr hsame, notDeleted_congr hsame] at hresult'
  rw [Bool.eq_iff_iff, hresult, hresult']

/-- The own transaction 100 is in progress; 50 and 60 committed, all others aborted. -/
def sample : Backend where
  xacts :=
    { isInProgress := fun _ xid => xid == 100
      didCommit := fun _ xid => xid == 50 || xid == 60
      committed_forever := fun _ h => h
      ended_forever := fun _ h => ⟨h, rfl⟩ }
  now := 0
  isCurrent := fun xid => xid == 100
  current_running := fun _ h => h
  members := fun _ => []
  comboCids := fun cid => (cid, cid)
  subTransGetTopmostTransaction := id
  bufferIsPermanent := true
  bufferLSN := 0
  commitLSN := fun _ => 0
  xlogNeedsFlush := fun _ => false

/-- a snapshot before which every other transaction had ended -/
def sampleSnapshot : Snapshot := ⟨90, 90, [], [], false, false, 5⟩

theorem sample_consistent : sample.Consistent sampleSnapshot := fun _ h _ => h

theorem sample_running : sample.RunningNotCommitted := by
  intro t xid h
  obtain rfl : xid = 100 := beq_iff_eq.1 h
  rfl

/-- A committed tuple that the own transaction deletes in the command of the scan. -/
theorem heapTupleSatisfiesMVCC_visible_deleting :
    (sample.heapTupleSatisfiesMVCC ⟨50, 100, 5, 0⟩ sampleSnapshot).1 = true ∧
      sample.InsertVisible ⟨50, 100, 5, 0⟩ sampleSnapshot ∧
      sample.NotDeleted ⟨50, 100, 5, 0⟩ sampleSnapshot := by
  have htrue : sample.Truthful ⟨50, 100, 5, 0⟩ :=
    ⟨fun h => absurd h (by decide), fun _ h => absurd h (by decide), fun h => absurd h (by decide),
      fun h => absurd h (by decide)⟩
  have hown : sample.OwnInsertKept ⟨50, 100, 5, 0⟩ := fun _ h => absurd h (by decide)
  have hvisible := heapTupleSatisfiesMVCC_visible sample ⟨50, 100, 5, 0⟩ sampleSnapshot
    (by decide) sample_consistent sample_running
    hown htrue
  have hresult : (sample.heapTupleSatisfiesMVCC ⟨50, 100, 5, 0⟩ sampleSnapshot).1 = true := by decide
  exact ⟨hresult, hvisible.1.1 hresult⟩

/-- A tuple of the own transaction with the xmax of another one that committed: it counts as not
deleted, and is marked so. -/
theorem heapTupleSatisfiesMVCC_own_insert :
    HeapTupleHeader.has ⟨100, 50, 1, 0⟩ heapMoved = false ∧ sample.Consistent sampleSnapshot ∧
      sample.RunningNotCommitted ∧ sample.Truthful ⟨100, 50, 1, 0⟩ ∧
      (sample.heapTupleSatisfiesMVCC ⟨100, 50, 1, 0⟩ sampleSnapshot).1 = true ∧
      ¬ sample.NotDeleted ⟨100, 50, 1, 0⟩ sampleSnapshot ∧
      ¬ sample.Truthful (sample.heapTupleSatisfiesMVCC ⟨100, 50, 1, 0⟩ sampleSnapshot).2 := by
  have htrue : sample.Truthful ⟨100, 50, 1, 0⟩ :=
    ⟨fun h => absurd h (by decide), fun _ h => absurd h (by decide), fun h => absurd h (by decide),
      fun h => absurd h (by decide)⟩
  refine ⟨by decide, sample_consistent, sample_running, htrue, by decide,
    fun hdel => ?_, fun htrue' => ?_⟩
  · rcases hdel 50 (by decide) with ⟨hcur, -⟩ | ⟨-, hab | hin⟩
    · exact absurd hcur (by decide)
    · exact absurd hab.2 (by decide)
    · exact absurd hin (by decide)
  · have hab := htrue'.xmaxInvalid (by decide) 50 (by decide)
    exact absurd hab.2 (by decide)

end Backend

end Pg
