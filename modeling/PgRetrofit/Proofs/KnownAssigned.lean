import PgRetrofit.Sanity.KnownAssignedSlots

/-! The array of known assigned xids over whole runs: it holds, in order, the xids that have
been added and not been removed since. -/

namespace Pg.KnownAssigned

open SerialOrder List

/-- What the array is for: the full xids that are taken to be running, in order, and the
latest one that was added. -/
structure Tracked where
  latest : ℕ
  live : List ℕ

namespace Tracked

def empty : Tracked := ⟨0, []⟩

/-- What a call does to them when there is place for `max`, and how it fails. -/
def exec (max : ℕ) (m : Tracked) : Call → Option Fault × Tracked
  | .add fromXid toXid =>
    if m.live.length + (normalXids fromXid toXid).length ≤ max then
      (none, ⟨toXid, m.live ++ normalXids fromXid toXid⟩)
    else (some (.elog "too many KnownAssignedXids"), m)
  | .remove xid => (none, { m with live := m.live.filter fun t => xidFromFull t ≠ xid })
  | .removeTree xid subxids =>
    (none, { m with live := m.live.filter fun t => xidFromFull t ∉ xid :: subxids })
  | .removePreceding isPrepared removeXid =>
    (none, { m with live := if transactionIdIsValid removeXid then
        m.live.filter fun t => !transactionIdPrecedes (xidFromFull t) removeXid ||
          isPrepared (xidFromFull t)
      else [] })
  | .compress _ => (none, m)

/-- How the calls end, and what is left. -/
def run (max : ℕ) : Tracked → List Call → List (Option Fault) × Tracked
  | m, [] => ([], m)
  | m, c :: calls =>
    let (fault, m) := m.exec max c
    let (faults, m) := run max m calls
    (fault :: faults, m)

/-- Ranges are added in increasing order, and what is tracked or compared stays inside a window
of `2 ^ 31` xids. -/
def InWindow (m : Tracked) : Call → Prop
  | .add fromXid toXid => IsNormal fromXid ∧ IsNormal toXid ∧ m.latest < fromXid ∧ fromXid ≤ toXid ∧
      WindowTo toXid (fromXid :: m.live)
  | .removePreceding _ removeXid => Comparable removeXid m.live
  | _ => True

def RunInWindow (max : ℕ) : Tracked → List Call → Prop
  | _, [] => True
  | m, c :: calls => m.InWindow c ∧ RunInWindow max (m.exec max c).2 calls

end Tracked

/-- An added range and the array together have fewer than `2 ^ 31` entries. -/
def Fits (max : ℕ) : Call → Prop
  | .add fromXid toXid => (normalXids fromXid toXid).length + max < 2 ^ 31
  | _ => True

def Outcome.split : Outcome Unit → Option Fault × KnownAssigned
  | .ok _ s => (none, s)
  | .error e s => (some e, s)

/-- The calls one after the other, also after an error. -/
def run (fuel : ℕ) : KnownAssigned → List Call → List (Option Fault) × KnownAssigned
  | s, [] => ([], s)
  | s, c :: calls =>
    let (fault, s) := (c.exec fuel s).split
    let (faults, s) := run fuel s calls
    (fault :: faults, s)

def Holds (max : ℕ) (s : KnownAssigned) (m : Tracked) : Prop :=
  s.maxKnownAssignedXids = max ∧ ∃ L, Inv s L m.latest ∧ live L = m.live

theorem create_holds (max maxProcs : ℕ) : Holds max (create max maxProcs) .empty :=
  ⟨rfl, [], create_inv max maxProcs 0, rfl⟩

variable {max fuel latest : ℕ} {s : KnownAssigned} {m : Tracked} {L : List (ℕ × Bool)}

theorem Leaves.holds {s' : KnownAssigned} {T : List ℕ} (hmax : s.maxKnownAssignedXids = max)
    (h : Leaves s s' T m.latest) : Holds max s' { m with live := T } :=
  ⟨h.1.trans hmax, h.2⟩

theorem exec_holds (hfuel : 2 ^ 31 ≤ fuel) (h : Holds max s m) (c : Call) (hc : m.InWindow c)
    (hfits : Fits max c) :
    ∃ s', (c.exec fuel s).split = ((m.exec max c).1, s') ∧ Holds max s' (m.exec max c).2 := by
  obtain ⟨hmax, L, hinv, hlive⟩ := h
  cases c with
  | add a b =>
    obtain ⟨hna, hnb, ha, hab, hwin⟩ := hc
    obtain ⟨s', L', hmax', hadd⟩ := hinv.add hfuel hna hnb ha hab (hlive.symm ▸ hwin) (hmax.symm ▸ hfits)
    rw [hlive, hmax] at hadd
    rw [Tracked.exec, Call.exec]
    by_cases hroom : m.live.length + (normalXids a b).length ≤ max
    · rw [if_pos hroom] at hadd ⊢
      exact ⟨s', by rw [hadd.1]; rfl, hmax'.trans hmax, L', hadd.2⟩
    · rw [if_neg hroom] at hadd ⊢
      exact ⟨s', by rw [hadd.1]; rfl, hmax'.trans hmax, L', hadd.2⟩
  | remove x =>
    obtain ⟨s', hrun, hleaves⟩ := hinv.remove x
    exact ⟨s', by rw [Call.exec, hrun]; rfl, (hlive ▸ hleaves).holds hmax⟩
  | removeTree x subxids =>
    obtain ⟨s', hrun, hleaves⟩ := hinv.removeTree x subxids
    exact ⟨s', by rw [Call.exec, hrun]; rfl, (hlive ▸ hleaves).holds hmax⟩
  | removePreceding isPrepared x =>
    have hx : Comparable x (live L) := hlive.symm ▸ (hc : Comparable x m.live)
    obtain ⟨s', hrun, hleaves⟩ := hinv.removePreceding isPrepared hx
    exact ⟨s', by rw [Call.exec, hrun]; rfl, (hlive ▸ hleaves).holds hmax⟩
  | compress force =>
    obtain ⟨s', L', hrun, hinv', hlive', hmax'⟩ := hinv.compress force
    exact ⟨s', by rw [Call.exec, hrun]; rfl, hmax'.trans hmax, L', hinv', hlive'.trans hlive⟩

theorem run_holds (hfuel : 2 ^ 31 ≤ fuel) (calls : List Call) (s : KnownAssigned)
    (m : Tracked) (h : Holds max s m) (hc : m.RunInWindow max calls) (hfits : ∀ c ∈ calls, Fits max c) :
    (run fuel s calls).1 = (m.run max calls).1 ∧ Holds max (run fuel s calls).2 (m.run max calls).2 := by
  induction calls generalizing s m with
  | nil => exact ⟨rfl, h⟩
  | cons c calls ih =>
    obtain ⟨s', hexec, hholds⟩ := exec_holds hfuel h c hc.1 (hfits c mem_cons_self)
    obtain ⟨hfaults, hholds'⟩ := ih s' _ hholds hc.2 fun d hd => hfits d (mem_cons_of_mem _ hd)
    rw [run, hexec]
    exact ⟨congrArg _ hfaults, hholds'⟩

/-- The slots between tail and head, invalid ones included, are in order. -/
def Sorted (s : KnownAssigned) : Prop :=
  ∀ i j, s.tailKnownAssignedXids ≤ i → i < j → j < s.headKnownAssignedXids →
    transactionIdPrecedes (s.knownAssignedXids i) (s.knownAssignedXids j) = true

theorem Inv.sorted_slots (h : Inv s L latest) : Sorted s := by
  intro i j hi hij hj
  obtain ⟨k, rfl⟩ := Nat.exists_eq_add_of_le hi
  obtain ⟨l, rfl⟩ := Nat.exists_eq_add_of_le (hi.trans hij.le)
  rw [h.head_eq] at hj
  obtain ⟨p, hp⟩ : ∃ p, L[k]? = some p := ⟨_, getElem?_eq_getElem (by omega)⟩
  obtain ⟨q, hq⟩ : ∃ q, L[l]? = some q := ⟨_, getElem?_eq_getElem (by omega)⟩
  have hpm := mem_of_getElem? hp
  have hqm := mem_of_getElem? hq
  rw [(h.entries k p hp).1, (h.entries l q hq).1,
    precedes_eq (h.normal p hpm) (h.normal q hqm) (h.near p hpm q hqm), decide_eq_true_iff]
  exact (index_lt_iff h.sorted hp hq).2 (by omega)

def validSlots (s : KnownAssigned) : Finset ℕ :=
  (Finset.Ico s.tailKnownAssignedXids s.headKnownAssignedXids).filter fun i =>
    s.knownAssignedXidsValid i = true

theorem card_valid (L : List (ℕ × Bool)) (i : ℕ) (h : Entries s i L) :
    ((Finset.Ico i (i + L.length)).filter fun j => s.knownAssignedXidsValid j = true).card =
      L.countP Prod.snd := by
  induction L generalizing i with
  | nil => simp
  | cons p L ih => ?_
  obtain ⟨⟨-, hvalid⟩, hrest⟩ := entries_cons.1 h
  rw [length_cons, ← Nat.add_assoc, Nat.add_right_comm, Finset.Ico_eq_cons_Ioo (by omega), countP_cons,
    ← ih (i + 1) hrest]
  rw [Finset.filter_cons]
  have hIoo : Finset.Ioo i (i + 1 + L.length) = Finset.Ico (i + 1) (i + 1 + L.length) := by
    ext j
    simp only [Finset.mem_Ioo, Finset.mem_Ico]
    omega
  cases hp : p.2 with
  | true => simp [hvalid, hp, hIoo]
  | false => simp [hvalid, hp, hIoo]

theorem Inv.num_eq (h : Inv s L latest) : s.numKnownAssignedXids = (validSlots s).card := by
  rw [validSlots, h.head_eq, card_valid L _ h.entries, h.count]

/-- Over every run of calls the array does what it is for: a call fails only for want of place,
the slots are in order, the count is that of the valid ones, the xids that are found are those
that have been added and not been removed since, and a snapshot gets those before its `xmax`. -/
theorem knownAssignedXids_run (max maxProcs fuel : ℕ) (hfuel : 2 ^ 31 ≤ fuel) (calls : List Call)
    (hc : Tracked.empty.RunInWindow max calls) (hfits : ∀ c ∈ calls, Fits max c) :
    let s := (run fuel (create max maxProcs) calls).2
    let m := (Tracked.empty.run max calls).2
    (run fuel (create max maxProcs) calls).1 = (Tracked.empty.run max calls).1 ∧ Sorted s ∧
      s.numKnownAssignedXids = (validSlots s).card ∧
      (∀ x, s.knownAssignedXidExists x = .ok (decide (x ∈ m.live.map xidFromFull)) s) ∧
      ∀ xmin xmax, Comparable xmax m.live → s.knownAssignedXidsGetAndSetXmin xmin xmax =
        .ok ((m.live.map xidFromFull).filter fun y => !transactionIdIsValid xmax ||
          transactionIdPrecedes y xmax, lowerXmin xmin (m.live.map xidFromFull)) := by
  obtain ⟨hfaults, -, L, hinv, hlive⟩ := run_holds hfuel calls _ _ (create_holds max maxProcs) hc hfits
  refine ⟨hfaults, hinv.sorted_slots, hinv.num_eq, fun x => ?_, fun xmin xmax hx => ?_⟩
  · rw [hinv.exists_eq x, hlive]
  · rw [hinv.get (hlive.symm ▸ hx) xmin, hlive]

/-- A range across the wraparound point, one xid of it removed, then all before another one. -/
def wrapCalls : List Call :=
  [.add 4294967294 4294967301, .remove 4, .compress true, .removePreceding (fun _ => false) 4294967295]

theorem knownAssignedXids_run_wrap :
    let s := (run (2 ^ 31) (create 8 1) wrapCalls).2
    s.knownAssignedXidExists 5 = .ok true s ∧ s.knownAssignedXidExists 4 = .ok false s ∧
      s.knownAssignedXidsGetAndSetXmin 100 5 = .ok ([4294967295, 3], 4294967295) := by
  have hwindow : Tracked.empty.RunInWindow 8 wrapCalls := by
    refine ⟨⟨by decide, by decide, by decide, by decide, ?_⟩, trivial, trivial,
      .inr ⟨4294967295, rfl, ?_⟩, trivial⟩
    · intro t ht
      obtain rfl := mem_singleton.1 ht
      decide
    change ∀ t ∈ [4294967294, 4294967295, 4294967299, 4294967301], Near t 4294967295
    intro t ht
    simp only [mem_cons, not_mem_nil, or_false] at ht
    unfold Near
    omega
  have hfits : ∀ c ∈ wrapCalls, Fits 8 c := by
    intro c hc
    simp only [wrapCalls, mem_cons, not_mem_nil, or_false] at hc
    rcases hc with rfl | rfl | rfl | rfl
    · change 5 + 8 < 2 ^ 31
      decide
    all_goals trivial
  obtain ⟨-, -, -, hexists, hget⟩ := knownAssignedXids_run 8 1 (2 ^ 31) le_rfl wrapCalls hwindow hfits
  refine ⟨hexists 5, hexists 4, (hget 100 5 (.inr ⟨4294967301, rfl, ?_⟩)).trans rfl⟩
  change ∀ t ∈ [4294967295, 4294967299, 4294967301], Near t 4294967301
  intro t ht
  simp only [mem_cons, not_mem_nil, or_false] at ht
  unfold Near
  omega

/-- Five xids, and then all others of the window at once. -/
def overflowCalls : List Call := [.add 3 7, .add 8 (2 ^ 31 + 2)]

/-- `head + nxids` overflows, the xids seem to fit, and the inserts leave the array. -/
theorem knownAssignedXidsAdd_overflow :
    Tracked.empty.RunInWindow 10 overflowCalls ∧
      (run (2 ^ 31) (create 10 1) overflowCalls).1 = [none, some .outOfBounds] := by
  have hwindow : Tracked.empty.RunInWindow 10 overflowCalls := by
    refine ⟨⟨by decide, by decide, by decide, by decide, ?_⟩,
      ⟨by decide, by decide, by decide, by decide, ?_⟩, trivial⟩
    · intro t ht
      obtain rfl := mem_singleton.1 ht
      decide
    · change ∀ t ∈ [8, 3, 4, 5, 6, 7], 2 ^ 31 + 2 < t + 2 ^ 31
      decide
  refine ⟨hwindow, ?_⟩
  rfl

end Pg.KnownAssigned
