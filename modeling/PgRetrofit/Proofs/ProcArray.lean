import PgRetrofit.Sanity.TransamOrder
import PgRetrofit.Spec.ProcArray

/-! A snapshot taken from the array of backends says which transactions were running. -/

namespace Pg.ProcArray

open SerialOrder List Nat

/-- the full id of `x` that is not below `base` -/
def fullOf (base : ℕ) (x : TransactionId) : ℕ := base + (x.toNat + 2 ^ 32 - base % 2 ^ 32) % 2 ^ 32

/-- The id is normal and less than `2 ^ 31` after `base`. -/
def Within (base : ℕ) (x : TransactionId) : Prop :=
  transactionIdIsNormal x = true ∧ fullOf base x < base + 2 ^ 31

instance (base : ℕ) (x : TransactionId) : Decidable (Within base x) :=
  inferInstanceAs (Decidable (_ ∧ _))

variable {base : ℕ} {x y : TransactionId}

theorem xidFromFull_fullOf (base : ℕ) (x : TransactionId) : xidFromFull (fullOf base x) = x := by
  have hx := x.toNat_lt
  apply UInt32.toNat_inj.1
  rw [xidFromFull, UInt32.toNat_ofNat', fullOf]
  omega

theorem Within.isNormal (h : Within base x) : IsNormal (fullOf base x) := by
  rw [← normal_iff, xidFromFull_fullOf]
  exact h.1

variable (hx : Within base x)
include hx

variable (hy : Within base y)
include hy

theorem Within.near : Near (fullOf base x) (fullOf base y) := by
  have h1 : base ≤ fullOf base x := le_add_right _ _
  have h2 : base ≤ fullOf base y := le_add_right _ _
  have h3 := hx.2
  have h4 := hy.2
  exact ⟨by omega, by omega⟩

theorem Within.precedes : transactionIdPrecedes x y = decide (fullOf base x < fullOf base y) := by
  have h := precedes_eq hx.isNormal hy.isNormal (hx.near hy)
  rwa [xidFromFull_fullOf, xidFromFull_fullOf] at h

theorem Within.followsOrEquals :
    transactionIdFollowsOrEquals x y = decide (fullOf base y ≤ fullOf base x) := by
  have h := followsOrEquals_eq hx.isNormal hy.isNormal (hx.near hy)
  rwa [xidFromFull_fullOf, xidFromFull_fullOf] at h

omit hy

omit hx

theorem normalPrecedes_eq (hx : transactionIdIsNormal x = true) (hy : transactionIdIsNormal y = true) :
    normalTransactionIdPrecedes x y = transactionIdPrecedes x y := by
  rw [transactionIdPrecedes, transactionIdCompare, if_neg (by simp [hx, hy]),
    normalTransactionIdPrecedes]

def Running (procs : List PgXact) (xid : TransactionId) : Prop :=
  ∃ p ∈ procs, skipped p = false ∧ transactionIdIsNormal p.xid = true ∧ p.xid = xid

/-- The xids of the backends are in one window, with `top` giving the topmost transaction of
each: subtransactions come after it, and are cached unless the backend's cache overflowed. -/
structure Valid (procs : List PgXact) (base : ℕ) (top : TransactionId → TransactionId) : Prop where
  proc_within : ∀ p ∈ procs, transactionIdIsNormal p.xid = true → Within base p.xid
  top_within : ∀ x, Within base x → Within base (top x) ∧ fullOf base (top x) ≤ fullOf base x
  top_special : ∀ x, transactionIdIsNormal x = false → top x = x
  top_proc : ∀ p ∈ procs, transactionIdIsNormal p.xid = true → top p.xid = p.xid
  cached : ∀ p ∈ procs, transactionIdIsNormal p.xid = true → ∀ x ∈ p.subxids, top x = p.xid
  complete : ∀ p ∈ procs, transactionIdIsNormal p.xid = true → p.overflowed = false →
    ∀ x, top x = p.xid → x = p.xid ∨ x ∈ p.subxids

variable {procs : List PgXact} {top : TransactionId → TransactionId} {xmax : TransactionId}
  {my : ℕ} {s : Scan}

/-- The backend is in the snapshot: it counts, is not the caller's, and its xid is before `xmax`. -/
def Counted (xmax : TransactionId) (mine : Bool) (p : PgXact) : Prop :=
  skipped p = false ∧ transactionIdIsNormal p.xid = true ∧
    transactionIdPrecedes p.xid xmax = true ∧ mine = false

/-- What the loop has collected, in terms of the backends that are in the snapshot so far. -/
structure Collected (base : ℕ) (xmax : TransactionId) (counted : PgXact → Prop) (s : Scan) : Prop where
  xmin_within : Within base s.xmin
  xmin_le : fullOf base s.xmin ≤ fullOf base xmax
  xip : ∀ x, x ∈ s.xip ↔ ∃ p, counted p ∧ p.xid = x
  xmin_le_counted : ∀ p, counted p → fullOf base s.xmin ≤ fullOf base p.xid
  overflowed : s.suboverflowed = true ↔ ∃ p, counted p ∧ p.overflowed = true
  subxip : s.suboverflowed = false → ∀ x, x ∈ s.subxip ↔ ∃ p, counted p ∧ x ∈ p.subxids

theorem Collected.congr {counted counted' : PgXact → Prop} (h : Collected base xmax counted s)
    (hc : ∀ p, counted' p ↔ counted p) :
    Collected base xmax counted' s := by
  obtain rfl : counted' = counted := funext fun p => propext (hc p)
  exact h

variable {counted : PgXact → Prop}

/-- The xmin may be lower still, and `globalxmin` does not matter. -/
theorem Collected.lower (h : Collected base xmax counted s) (globalxmin : TransactionId)
    {xmin : TransactionId} (hw : Within base xmin) (hle : fullOf base xmin ≤ fullOf base s.xmin) :
    Collected base xmax counted { s with globalxmin := globalxmin, xmin := xmin } :=
  ⟨hw, hle.trans h.xmin_le, h.xip, fun p hp => hle.trans (h.xmin_le_counted p hp),
    h.overflowed, h.subxip⟩

/-- A backend in the snapshot whose xid is not below the xmin. -/
theorem Collected.add (h : Collected base xmax counted s) {p : PgXact}
    (hle : fullOf base s.xmin ≤ fullOf base p.xid) :
    Collected base xmax (fun q => counted q ∨ q = p) (if !s.suboverflowed then
        if p.overflowed then { s with xip := s.xip ++ [p.xid], suboverflowed := true }
        else { s with xip := s.xip ++ [p.xid], subxip := s.subxip ++ p.subxids }
      else { s with xip := s.xip ++ [p.xid] }) := by
  have hor : ∀ {P : PgXact → Prop}, (∃ q, (counted q ∨ q = p) ∧ P q) ↔ (∃ q, counted q ∧ P q) ∨ P p := by
    intro P
    constructor
    · rintro ⟨q, hq | rfl, hP⟩
      · exact .inl ⟨q, hq, hP⟩
      · exact .inr hP
    · rintro (⟨q, hq, hP⟩ | hP)
      · exact ⟨q, .inl hq, hP⟩
      · exact ⟨p, .inr rfl, hP⟩
  have hxip : ∀ x, x ∈ s.xip ++ [p.xid] ↔ ∃ q, (counted q ∨ q = p) ∧ q.xid = x := by
    intro x
    rw [hor, mem_append, h.xip, mem_singleton, eq_comm (a := x)]
  have hxmin : ∀ q, counted q ∨ q = p → fullOf base s.xmin ≤ fullOf base q.xid := by
    rintro q (hq | rfl)
    · exact h.xmin_le_counted q hq
    · exact hle
  cases hs : s.suboverflowed with
  | true =>
    refine ⟨h.xmin_within, h.xmin_le, hxip, hxmin, ?_, fun hf => ?_⟩
    · rw [hor, ← h.overflowed]
      exact ⟨fun _ => .inl hs, fun _ => rfl⟩
    · cases hf
  | false => ?_
  have hnone := h.overflowed.not.1 (by simp [hs])
  cases ho : p.overflowed with
  | true =>
    refine ⟨h.xmin_within, h.xmin_le, hxip, hxmin, ?_, fun hf => ?_⟩
    · rw [hor]
      exact ⟨fun _ => .inr ho, fun _ => rfl⟩
    · cases hf
  | false => ?_
  refine ⟨h.xmin_within, h.xmin_le, hxip, hxmin, ?_, fun _ x => ?_⟩
  · rw [hor, ho]
    exact ⟨fun hf => absurd hf (by simp), fun hf => absurd hf (by simp [hnone])⟩
  · rw [hor, ← h.subxip hs]
    exact mem_append

theorem scanProc_collected (hmax : Within base xmax) (h : Collected base xmax counted s) (p : PgXact)
    (hp : transactionIdIsNormal p.xid = true → Within base p.xid) (mine : Bool) :
    Collected base xmax (fun q => counted q ∨ (q = p ∧ Counted xmax mine p))
      (scanProc xmax mine s p) := by
  -- a backend that is not in the snapshot
  have hnot : ∀ {s' : Scan}, ¬ Counted xmax mine p → Collected base xmax counted s' →
      Collected base xmax (fun q => counted q ∨ (q = p ∧ Counted xmax mine p)) s' := fun hc hs' =>
    hs'.congr fun q => by simp [hc]
  rw [scanProc]
  cases hskip : skipped p with
  | true => exact hnot (fun hc => by simp [hc.1] at hskip) h
  | false => ?_
  dsimp only
  obtain ⟨s1, hs1, heq⟩ : ∃ s1, Collected base xmax counted s1 ∧
      (if transactionIdIsNormal p.xmin && normalTransactionIdPrecedes p.xmin s.globalxmin then
        { s with globalxmin := p.xmin } else s) = s1 := by
    refine ⟨_, ?_, rfl⟩
    split
    · exact h.lower p.xmin h.xmin_within le_rfl
    · exact h
  rw [heq]
  cases hnormal : transactionIdIsNormal p.xid with
  | false => exact hnot (fun hc => by simp [hc.2.1] at hnormal) hs1
  | true => ?_
  have hw := hp hnormal
  rw [normalPrecedes_eq hnormal hmax.1]
  cases hprec : transactionIdPrecedes p.xid xmax with
  | false => exact hnot (fun hc => by simp [hc.2.2.1] at hprec) hs1
  | true => ?_
  -- the xmin is lowered to the backend's xid if that is lower
  obtain ⟨s2, hs2, hle, heq2⟩ :
    ∃ s2, Collected base xmax counted s2 ∧ fullOf base s2.xmin ≤ fullOf base p.xid ∧
      (if normalTransactionIdPrecedes p.xid s1.xmin then { s1 with xmin := p.xid } else s1) = s2 := by
    rw [normalPrecedes_eq hw.1 hs1.xmin_within.1, hw.precedes hs1.xmin_within]
    by_cases hlt : fullOf base p.xid < fullOf base s1.xmin
    · exact ⟨_, hs1.lower s1.globalxmin hw hlt.le, le_rfl, if_pos (decide_eq_true hlt)⟩
    · exact ⟨s1, hs1, Nat.le_of_not_lt hlt, if_neg (by simpa using hlt)⟩
  rw [heq2]
  cases mine with
  | true => exact hnot (fun hc => by cases hc.2.2.2) hs2
  | false =>
    exact (hs2.add hle).congr fun q => by simp [Counted, hskip, hnormal, hprec]

theorem scanProcs_collected (hmax : Within base xmax) (my : ℕ) (procs : List PgXact)
    (index : ℕ) (s : Scan) (h : Collected base xmax counted s)
    (hp : ∀ p ∈ procs, transactionIdIsNormal p.xid = true → Within base p.xid) :
    Collected base xmax (fun q => counted q ∨ ∃ j, procs[j]? = some q ∧ Counted xmax (index + j = my) q)
      (scanProcs xmax my index procs s) := by
  induction procs generalizing index s counted with
  | nil => exact h.congr fun q => by simp
  | cons p procs ih => ?_
  have hstep := scanProc_collected hmax h p (hp p mem_cons_self) (decide (index = my))
  refine (ih (index + 1) _ hstep fun q hq => hp q (mem_cons_of_mem _ hq)).congr fun q => ?_
  constructor
  · rintro (hq | ⟨j, hj, hc⟩)
    · exact .inl (.inl hq)
    cases j with
    | zero =>
      obtain rfl := Option.some.inj hj
      exact .inl (.inr ⟨rfl, hc⟩)
    | succ j =>
      refine .inr ⟨j, hj, ?_⟩
      rwa [add_assoc, add_comm 1]
  · rintro ((hq | ⟨rfl, hc⟩) | ⟨j, hj, hc⟩)
    · exact .inl hq
    · exact .inr ⟨0, rfl, hc⟩
    · refine .inr ⟨j + 1, hj, ?_⟩
      rwa [add_assoc, add_comm 1] at hc

def Own (a : ProcArray) (top : TransactionId → TransactionId) (x : TransactionId) : Prop :=
  ∃ p, a.procs[a.myPgXact]? = some p ∧ transactionIdIsNormal p.xid = true ∧ top x = p.xid

variable {a a' : ProcArray} {counted : PgXact → Prop}

theorem getSnapshotData_collected (hrec : a.recoveryInProgress = false)
    (heq : transactionIdAdvance a.latestCompletedXid = xmax) (hmax : Within base xmax)
    (hp : ∀ p ∈ a.procs, transactionIdIsNormal p.xid = true → Within base p.xid) :
    ∃ d s, a.getSnapshotData = .ok d ∧
      Collected base xmax (fun q => ∃ j, a.procs[j]? = some q ∧ Counted xmax (j = a.myPgXact) q) s ∧
      d.snapshot = ⟨s.xmin, xmax, s.xip, s.subxip, s.suboverflowed, false, a.currentCommandId⟩ := by
  have hstart : Collected base xmax (fun _ => False) ⟨xmax, xmax, [], [], false⟩ :=
    ⟨hmax, le_rfl, by simp, by simp, by simp, by simp⟩
  have hall := scanProcs_collected hmax a.myPgXact a.procs 0 _ hstart hp
  rw [getSnapshotData, runningXids, hrec, heq]
  exact ⟨_, _, rfl, hall.congr fun q => by simp, rfl⟩

theorem inSnapshot_iff (h : Collected base xmax counted s) (hv : Valid procs base top)
    (hcounted : ∀ p, counted p → p ∈ procs ∧ Counted xmax false p) (hmax : Within base xmax)
    (hx : Within base x) (hlt : fullOf base x < fullOf base xmax) (curcid : CommandId) :
    xidInMVCCSnapshot top x ⟨s.xmin, xmax, s.xip, s.subxip, s.suboverflowed, false, curcid⟩ = true ↔
      ∃ p, counted p ∧ p.xid = top x := by
  obtain ⟨htop, htople⟩ := hv.top_within x hx
  rw [xidInMVCCSnapshot]
  dsimp only
  rw [hx.precedes h.xmin_within, hx.followsOrEquals hmax]
  have hbelow : fullOf base (top x) < fullOf base s.xmin →
      (false = true ↔ ∃ p, counted p ∧ p.xid = top x) := by
    refine fun hlow => ⟨fun hf => absurd hf Bool.false_ne_true, fun ⟨p, hp, hpx⟩ => ?_⟩
    have hle := h.xmin_le_counted p hp
    rw [hpx] at hle
    omega
  by_cases hmin : fullOf base x < fullOf base s.xmin
  · -- below the xmin: so is the topmost transaction
    rw [if_pos (decide_eq_true hmin)]
    exact hbelow (by omega)
  rw [if_neg (by simpa using hmin), if_neg (by simpa using hlt), if_pos (by rfl)]
  cases hover : s.suboverflowed with
  | false =>
    rw [if_pos (by rfl), Bool.or_eq_true, contains_iff_mem, contains_iff_mem, h.subxip hover, h.xip]
    have hnone := h.overflowed.not.1 (by simp [hover])
    constructor
    · rintro (⟨p, hp, hsub⟩ | ⟨p, hp, rfl⟩)
      · obtain ⟨hmem, hc⟩ := hcounted p hp
        exact ⟨p, hp, (hv.cached p hmem hc.2.1 x hsub).symm⟩
      · obtain ⟨hmem, hc⟩ := hcounted p hp
        exact ⟨p, hp, (hv.top_proc p hmem hc.2.1).symm⟩
    rintro ⟨p, hp, hpx⟩
    obtain ⟨hmem, hc⟩ := hcounted p hp
    have hnot : p.overflowed = false := by
      by_contra ho
      exact hnone ⟨p, hp, by simpa using ho⟩
    rcases hv.complete p hmem hc.2.1 hnot x hpx.symm with rfl | hsub
    · exact .inr ⟨p, hp, rfl⟩
    · exact .inl ⟨p, hp, hsub⟩
  | true => ?_
  rw [if_neg (by simp), htop.precedes h.xmin_within]
  by_cases hmin' : fullOf base (top x) < fullOf base s.xmin
  · rw [if_pos (decide_eq_true hmin')]
    exact hbelow hmin'
  · rw [if_neg (by simpa using hmin'), contains_iff_mem, h.xip]

theorem special_precedes {y : TransactionId} (hx : transactionIdIsNormal x = false)
    (hy : transactionIdIsNormal y = true) :
    transactionIdPrecedes x y = true := by
  rw [precedes_of_special (fun h => by simp [hx] at h), decide_eq_true_iff]
  rw [transactionIdIsNormal, decide_eq_false_iff_not] at hx
  rw [transactionIdIsNormal, decide_eq_true_iff] at hy
  exact UInt32.lt_of_lt_of_le (UInt32.not_le.1 hx) hy

theorem getSnapshotData_answers (hrec : a.recoveryInProgress = false)
    (heq : transactionIdAdvance a.latestCompletedXid = xmax) (hmax : Within base xmax)
    (hv : Valid a.procs base top) :
    ∃ d, a.getSnapshotData = .ok d ∧ d.snapshot.xmax = xmax ∧
      ∀ x, Within base x ∨ transactionIdIsNormal x = false → ¬ a.Own top x →
        (xidInMVCCSnapshot top x d.snapshot = true ↔
          transactionIdFollowsOrEquals x d.snapshot.xmax = true ∨ Running a.procs (top x)) := by
  obtain ⟨d, s, hd, hcol, hsnap⟩ := getSnapshotData_collected hrec heq hmax hv.proc_within
  refine ⟨d, hd, by rw [hsnap], fun x hx hown => ?_⟩
  rw [hsnap]
  rcases hx with hx | hspecial
  · by_cases hlt : fullOf base x < fullOf base xmax
    · have hcounted : ∀ p, (∃ j, a.procs[j]? = some p ∧ Counted xmax (j = a.myPgXact) p) →
          p ∈ a.procs ∧ Counted xmax false p := by
        rintro p ⟨j, hj, h1, h2, h3, -⟩
        exact ⟨mem_of_getElem? hj, h1, h2, h3, rfl⟩
      rw [inSnapshot_iff hcol hv hcounted hmax hx hlt]
      rw [hx.followsOrEquals hmax, decide_eq_false (not_le.2 hlt)]
      constructor
      · rintro ⟨p, ⟨j, hj, h1, h2, -, -⟩, hpx⟩
        exact .inr ⟨p, mem_of_getElem? hj, h1, h2, hpx⟩
      rintro (hf | ⟨p, hp, h1, h2, hpx⟩)
      · exact absurd hf Bool.false_ne_true
      obtain ⟨j, hj⟩ := mem_iff_getElem?.1 hp
      refine ⟨p, ⟨j, hj, h1, h2, ?_, ?_⟩, hpx⟩
      · obtain ⟨-, hle⟩ := hv.top_within x hx
        rw [(hv.proc_within p hp h2).precedes hmax, decide_eq_true_iff, hpx]
        omega
      · rw [decide_eq_false_iff_not]
        rintro rfl
        exact hown ⟨p, hj, h2, hpx.symm⟩
    · have hge := Nat.le_of_not_lt hlt
      have htrue : transactionIdFollowsOrEquals x xmax = true := by
        rw [hx.followsOrEquals hmax, decide_eq_true_iff]
        exact hge
      refine ⟨fun _ => .inl htrue, fun _ => ?_⟩
      rw [xidInMVCCSnapshot]
      rw [hx.precedes hcol.xmin_within, if_neg (by simpa using hcol.xmin_le.trans hge),
        htrue, if_pos rfl]
  · have hnorun : ¬ Running a.procs (top x) := by
      rintro ⟨p, -, -, hn, hpx⟩
      rw [hv.top_special x hspecial] at hpx
      rw [hpx, hspecial] at hn
      exact Bool.false_ne_true hn
    rw [xidInMVCCSnapshot, if_pos (special_precedes hspecial hcol.xmin_within.1), followsOrEquals_not,
      special_precedes hspecial hmax.1]
    simp [hnorun]

def SameRunning (a a' : ProcArray) : Prop :=
  a'.latestCompletedXid = a.latestCompletedXid ∧ a'.myPgXact = a.myPgXact ∧
    a'.procs.map (fun p => (p.xid, p.vacuumFlags)) = a.procs.map fun p => (p.xid, p.vacuumFlags)

theorem SameRunning.running (h : SameRunning a a') (xid : TransactionId) :
    Running a'.procs xid ↔ Running a.procs xid := by
  have hof : ∀ procs : List PgXact, Running procs xid ↔
    ∃ q ∈ procs.map (fun p => (p.xid, p.vacuumFlags)),
      (q.2 &&& (procInLogicalDecoding ||| procInVacuum) ≠ 0 : Bool) = false ∧
      transactionIdIsNormal q.1 = true ∧ q.1 = xid := by
    simp [Running, skipped]
  rw [hof, hof, h.2.2]

theorem SameRunning.own (h : SameRunning a a') (x : TransactionId) : a'.Own top x ↔ a.Own top x := by
  have hof : ∀ a : ProcArray, a.Own top x ↔
    ∃ q, (a.procs.map fun p => (p.xid, p.vacuumFlags))[a.myPgXact]? = some q ∧
      transactionIdIsNormal q.1 = true ∧ top x = q.1 := by
    intro a
    constructor
    · rintro ⟨p, hp, hn, htop⟩
      exact ⟨(p.xid, p.vacuumFlags), by rw [getElem?_map, hp]; rfl, hn, htop⟩
    rintro ⟨q, hq, hn, htop⟩
    rw [getElem?_map, Option.map_eq_some_iff] at hq
    obtain ⟨p, hp, rfl⟩ := hq
    exact ⟨p, hp, hn, htop⟩
  rw [hof, hof, h.2.2, h.2.1]

/-- A snapshot has an xid in progress exactly if it is at or after the xmax or its topmost
transaction was running in a backend that counts. The answer is the same whatever the backends
have in their caches of subtransactions, and an xid below the xmin is not in progress. -/
theorem xidInMVCCSnapshot_getSnapshotData (a : ProcArray) (base : ℕ)
    (top : TransactionId → TransactionId) (hrec : a.recoveryInProgress = false)
    (hmax : Within base (transactionIdAdvance a.latestCompletedXid)) (hv : Valid a.procs base top) :
    ∃ d, a.getSnapshotData = .ok d ∧
      ∀ x, Within base x ∨ transactionIdIsNormal x = false → ¬ a.Own top x →
      (xidInMVCCSnapshot top x d.snapshot = true ↔
        transactionIdFollowsOrEquals x d.snapshot.xmax = true ∨ Running a.procs (top x)) ∧
      (∀ a' : ProcArray, a'.recoveryInProgress = false → SameRunning a a' → Valid a'.procs base top →
        ∃ d', a'.getSnapshotData = .ok d' ∧
          xidInMVCCSnapshot top x d'.snapshot = xidInMVCCSnapshot top x d.snapshot) ∧
      (transactionIdPrecedes x d.snapshot.xmin = true → xidInMVCCSnapshot top x d.snapshot = false) := by
  obtain ⟨d, hd, hxmax, hanswer⟩ := getSnapshotData_answers hrec rfl hmax hv
  refine ⟨d, hd, fun x hx hown => ⟨hanswer x hx hown, fun a' hrec' hsame hv' => ?_, fun hprec => ?_⟩⟩
  · obtain ⟨d', hd', hxmax', hanswer'⟩ :=
      getSnapshotData_answers hrec' rfl (by rw [hsame.1]; exact hmax) hv'
    refine ⟨d', hd', ?_⟩
    rw [Bool.eq_iff_iff, hanswer x hx hown, hanswer' x hx (mt (hsame.own x).1 hown), hsame.running,
      hxmax, hxmax', hsame.1]
  · rw [xidInMVCCSnapshot, if_pos hprec]

def snapshotSample : ProcArray where
  procs := [⟨100, 100, 0, false, [102]⟩, ⟨103, 103, procInVacuum, false, []⟩, ⟨105, 0, 0, true, []⟩]
  myPgXact := 2
  latestCompletedXid := 104
  recoveryInProgress := false
  knownAssigned := ⟨0, 3, 0, 0, 0, fun _ => 0, fun _ => false⟩
  lastOverflowedXid := 0
  replicationSlotXmin := 0
  replicationSlotCatalogXmin := 0
  vacuumDeferCleanupAge := 0
  currentCommandId := 0

def snapshotSampleTop (x : TransactionId) : TransactionId := if x = 102 then 100 else x

theorem snapshotSample_valid : Valid snapshotSample.procs 3 snapshotSampleTop where
  proc_within := by decide
  top_within := by
    intro x hx
    by_cases h : x = 102
    · subst h
      decide
    · rw [snapshotSampleTop, if_neg h]
      exact ⟨hx, le_rfl⟩
  top_special := by
    intro x hx
    apply if_neg
    rintro rfl
    exact absurd hx (by decide)
  top_proc := by decide
  cached := by simp [snapshotSample, snapshotSampleTop]
  complete := by
    intro p hp hnormal hall x hx
    by_cases h : x = 102
    · subst h
      revert p
      decide
    · rw [snapshotSampleTop, if_neg h] at hx
      exact .inl hx

theorem xidInMVCCSnapshot_getSnapshotData_subxid :
    ∃ d, snapshotSample.getSnapshotData = .ok d ∧
      xidInMVCCSnapshot snapshotSampleTop 102 d.snapshot = true ∧
      xidInMVCCSnapshot snapshotSampleTop 103 d.snapshot = false := by
  obtain ⟨d, hd, h⟩ := xidInMVCCSnapshot_getSnapshotData snapshotSample 3 snapshotSampleTop rfl
    (by decide) snapshotSample_valid
  refine ⟨d, hd, (h 102 (.inl (by decide)) ?_).1.2 (.inr ?_), ?_⟩
  · rintro ⟨p, hp, -, htop⟩
    obtain rfl := Option.some.inj hp
    exact absurd htop (by decide)
  · exact ⟨_, mem_cons_self, rfl, rfl, rfl⟩
  · -- the vacuum is not counted
    obtain rfl := Except.ok.inj hd
    decide

end Pg.ProcArray
