import PgRetrofit.Sanity.TransamOrder
import PgRetrofit.Spec.KnownAssigned

/-! The loops over the array of known assigned xids, on the list of its slots: the full xid of
each and whether it is valid. -/

namespace Pg.KnownAssigned

open SerialOrder List Function Bool Nat UInt32 Prod

variable {s s' : KnownAssigned} {i k : ℕ} {L : List (ℕ × Bool)} {p : ℕ × Bool}

def Entries (s : KnownAssigned) (i : ℕ) (L : List (ℕ × Bool)) : Prop :=
  ∀ j p, L[j]? = some p → s.knownAssignedXids (i + j) = xidFromFull p.1 ∧
    s.knownAssignedXidsValid (i + j) = p.2

theorem entries_nil (s : KnownAssigned) (i : ℕ) : Entries s i [] := fun _ _ h => by cases h

theorem entries_cons : Entries s i (p :: L) ↔
    (s.knownAssignedXids i = xidFromFull p.1 ∧ s.knownAssignedXidsValid i = p.2) ∧
      Entries s (i + 1) L := by
  refine ⟨fun h => ⟨h 0 p rfl, fun j q hq => ?_⟩, fun h j q hq => ?_⟩
  · rw [add_assoc, add_comm 1 j]
    exact h (j + 1) q hq
  cases j with
  | zero =>
    obtain rfl := Option.some.inj hq
    exact h.1
  | succ j =>
    have := h.2 j q hq
    rwa [add_assoc, add_comm 1 j] at this

theorem entries_append {M : List (ℕ × Bool)} :
    Entries s i (L ++ M) ↔ Entries s i L ∧ Entries s (i + L.length) M := by
  induction L generalizing i with
  | nil => exact ⟨fun h => ⟨entries_nil s i, h⟩, fun h => h.2⟩
  | cons p L ih =>
    rw [cons_append, entries_cons, entries_cons, ih, add_assoc, add_comm 1]
    exact and_assoc.symm

theorem Entries.congr (h : Entries s i L) (hsame : ∀ k, i ≤ k → k < i + L.length →
      s'.knownAssignedXids k = s.knownAssignedXids k ∧
      s'.knownAssignedXidsValid k = s.knownAssignedXidsValid k) :
    Entries s' i L := by
  intro j p hp
  obtain ⟨hlt, -⟩ := List.getElem?_eq_some_iff.1 hp
  obtain ⟨h1, h2⟩ := hsame (i + j) (Nat.le_add_right i j) (Nat.add_lt_add_left hlt i)
  rw [h1, h2]
  exact h j p hp

/-- `s'` differs from `s` in its two arrays only. -/
def ArraysOnly (s s' : KnownAssigned) : Prop :=
  s' = { s with
    knownAssignedXids := s'.knownAssignedXids, knownAssignedXidsValid := s'.knownAssignedXidsValid }

theorem ArraysOnly.trans {s1 s2 s3 : KnownAssigned} (h : ArraysOnly s1 s2) (h' : ArraysOnly s2 s3) :
    ArraysOnly s1 s3 := by
  unfold ArraysOnly at *
  rw [h', h]

def AgreeBelow (i : ℕ) (s s' : KnownAssigned) : Prop :=
  ∀ k < i, s'.knownAssignedXids k = s.knownAssignedXids k ∧
    s'.knownAssignedXidsValid k = s.knownAssignedXidsValid k

theorem store_ne (hk : k ≠ i) (xid : TransactionId) (valid : Bool) :
    (s.store i xid valid).knownAssignedXids k = s.knownAssignedXids k ∧
      (s.store i xid valid).knownAssignedXidsValid k = s.knownAssignedXidsValid k :=
  ⟨update_of_ne hk .., update_of_ne hk ..⟩

theorem store_self (xid : TransactionId) (valid : Bool) :
    (s.store i xid valid).knownAssignedXids i = xid ∧
      (s.store i xid valid).knownAssignedXidsValid i = valid :=
  ⟨update_self .., update_self ..⟩

theorem compressLoop_spec (L : List (ℕ × Bool)) (s : KnownAssigned) (i compressIndex : ℕ)
    (hle : compressIndex ≤ i) (hbound : i + L.length ≤ s.maxKnownAssignedXids) (h : Entries s i L) :
    ∃ s', compressLoop L.length s i compressIndex = .ok (compressIndex + (L.filter snd).length) s' ∧
      Entries s' compressIndex (L.filter snd) ∧ AgreeBelow compressIndex s s' ∧ ArraysOnly s s' := by
  induction L generalizing s i compressIndex with
  | nil => exact ⟨s, rfl, entries_nil s _, fun _ _ => ⟨rfl, rfl⟩, rfl⟩
  | cons p L ih => ?_
  obtain ⟨⟨hxid, hvalid⟩, hrest⟩ := entries_cons.1 h
  rw [length_cons] at hbound
  rw [length_cons, compressLoop, if_pos (by omega), hvalid]
  cases hp : p.2 with
  | false =>
    rw [filter_cons_of_neg (by simp [hp])]
    exact ih s (i + 1) compressIndex (by omega) (by omega) hrest
  | true => ?_
  rw [filter_cons_of_pos hp, if_pos rfl]
  have hrest' : Entries (s.store compressIndex (s.knownAssignedXids i) true) (i + 1) L :=
    hrest.congr fun k hk _ => store_ne (by omega) _ _
  obtain ⟨s', hrun, hentries, hbelow, honly⟩ := ih _ (i + 1) (compressIndex + 1) (by omega) (by
    change _ ≤ s.maxKnownAssignedXids
    omega) hrest'
  refine ⟨s', ?_, entries_cons.2 ⟨?_, hentries⟩, fun k hk => ?_, ArraysOnly.trans ?_ honly⟩
  · rw [hrun, length_cons, add_assoc, add_comm 1]
  · obtain ⟨h1, h2⟩ := hbelow compressIndex (lt_succ_self _)
    rw [h1, h2, (store_self _ _).1, (store_self _ _).2, hp]
    exact ⟨hxid, rfl⟩
  · obtain ⟨h1, h2⟩ := hbelow k (lt_succ_of_lt hk)
    rw [h1, h2]
    exact store_ne (by omega) _ _
  · rfl

theorem toInt_eq {n : ℤ} (h0 : 0 ≤ n) (h : n < 2 ^ 31) : toInt n = n :=
  Int.bmod_eq_of_le (by omega) (by omega)

theorem countXids_spec {a b : ℕ} (ha : IsNormal a) (hb : IsNormal b) (hab : a ≤ b)
    (hnear : b < a + 2 ^ 31) (fuel : ℕ) (n : ℕ) (hn : n + (normalXids a b).length < 2 ^ 31)
    (hfuel : (normalXids a b).length ≤ fuel) :
    countXids (xidFromFull b) fuel (n + 1) (xidFromFull a) = .ok (n + (normalXids a b).length) := by
  induction fuel generalizing a n with
  | zero =>
    rw [normalXids_cons ha hab] at hfuel
    simp at hfuel
  | succ fuel ih => ?_
  rw [countXids, precedes_eq ha hb ⟨by omega, by omega⟩]
  obtain ⟨hlt, hnormal, hleast⟩ := fullTransactionIdAdvance_spec a
  rw [normalXids_cons ha hab, length_cons] at hn hfuel ⊢
  rcases eq_or_lt_of_le hab with rfl | hab
  · rw [if_neg (by simp), normalXids_empty hlt]
    rfl
  have hadv : fullTransactionIdAdvance a ≤ b := hleast b hab hb
  have hpos : 0 < (normalXids (fullTransactionIdAdvance a) b).length := by
    rw [normalXids_cons hnormal hadv]
    exact succ_pos _
  rw [if_pos (by simpa using hab), toInt_eq (by omega) (by omega), transactionIdAdvance_eq]
  have := ih hnormal hadv (by omega) (n + 1) (by omega) (by omega)
  push_cast at this ⊢
  rw [this]
  congr 1
  omega

theorem slotsNeeded_spec {a b : ℕ} (ha : IsNormal a) (hb : IsNormal b) (hab : a ≤ b)
    (hnear : b < a + 2 ^ 31) (fuel : ℕ) (hfuel : 2 ^ 31 ≤ fuel)
    (hlen : (normalXids a b).length < 2 ^ 31) :
    slotsNeeded fuel (xidFromFull a) (xidFromFull b) = .ok (normalXids a b).length := by
  rw [slotsNeeded]
  have hge : xidFromFull b ≥ xidFromFull a ↔ a % 2 ^ 32 ≤ b % 2 ^ 32 := by
    rw [ge_iff_le, le_iff_toNat_le, xidFromFull, xidFromFull, toNat_ofNat', toNat_ofNat']
  by_cases hcross : a % 2 ^ 32 ≤ b % 2 ^ 32
  · rw [if_pos (hge.2 hcross)]
    -- without a wrap every xid of the range is normal
    have hcount : (normalXids a b).length = b - a + 1 := by
      unfold IsNormal at ha hb
      rw [normalXids, filter_eq_self.2, length_range']
      · omega
      intro c hc
      rw [mem_range'_1] at hc
      rw [decide_eq_true_iff, IsNormal]
      omega
    have hsub : (xidFromFull b - xidFromFull a + 1).toNat = b - a + 1 := by
      rw [UInt32.toNat_add, UInt32.toNat_sub, xidFromFull, xidFromFull, UInt32.toNat_ofNat',
        UInt32.toNat_ofNat']
      change (_ % 2 ^ 32 + 1) % 2 ^ 32 = _
      omega
    rw [hsub, hcount, toInt_eq (by omega) (by omega)]
  · rw [if_neg (mt hge.1 hcross)]
    have := countXids_spec ha hb hab hnear fuel 0 (by omega) (by omega)
    simpa using this

theorem insertLoop_spec (n : ℕ) {a b : ℕ} (ha : IsNormal a) (hn : (normalXids a b).length = n)
    (s : KnownAssigned) (head : ℕ) (hbound : head + n ≤ s.maxKnownAssignedXids) :
    ∃ s', insertLoop n s head (xidFromFull a) = .ok (head + n) s' ∧
      Entries s' head ((normalXids a b).map fun c => (c, true)) ∧ AgreeBelow head s s' ∧
      ArraysOnly s s' := by
  induction n generalizing a s head with
  | zero =>
    rw [length_eq_zero_iff.1 hn]
    exact ⟨s, rfl, entries_nil s _, fun _ _ => ⟨rfl, rfl⟩, rfl⟩
  | succ n ih => ?_
  have hab : a ≤ b := by
    by_contra hlt
    rw [normalXids_empty (Nat.lt_of_not_le hlt)] at hn
    cases hn
  obtain ⟨-, hnormal, -⟩ := fullTransactionIdAdvance_spec a
  rw [normalXids_cons ha hab] at hn
  rw [insertLoop, if_pos (by omega), transactionIdAdvance_eq]
  obtain ⟨s', hrun, hentries, hbelow, honly⟩ :=
    ih hnormal (succ.inj hn) (s.store head (xidFromFull a) true)
    (head + 1) (by
      change _ ≤ s.maxKnownAssignedXids
      omega)
  refine ⟨s', ?_, ?_, fun k hk => ?_, ArraysOnly.trans ?_ honly⟩
  · rw [hrun, add_assoc, add_comm 1]
  · obtain ⟨h1, h2⟩ := hbelow head (lt_succ_self _)
    rw [normalXids_cons ha hab]
    refine entries_cons.2 ⟨?_, hentries⟩
    rw [h1, h2]
    exact store_self _ _
  · obtain ⟨h1, h2⟩ := hbelow k (lt_succ_of_lt hk)
    rw [h1, h2]
    exact store_ne (by omega) _ _
  · rfl

section Search

variable {tail : ℕ} {x : TransactionId} (h : Entries s tail L) (hnormal : ∀ p ∈ L, IsNormal p.1)
  (hsorted : (L.map Prod.fst).Pairwise (· < ·)) (hnear : ∀ p ∈ L, ∀ q ∈ L, Near p.1 q.1)

omit h hnormal hnear in
theorem index_lt_iff {j k : ℕ} {p q : ℕ × Bool} (hsorted : (L.map fst).Pairwise (· < ·))
    (hj : L[j]? = some p) (hk : L[k]? = some q) : p.1 < q.1 ↔ j < k := by
  obtain ⟨hjl, rfl⟩ := List.getElem?_eq_some_iff.1 hj
  obtain ⟨hkl, rfl⟩ := List.getElem?_eq_some_iff.1 hk
  rw [pairwise_map] at hsorted
  have hmono := pairwise_iff_getElem.1 hsorted
  rcases lt_trichotomy j k with hlt | rfl | hgt
  · exact ⟨fun _ => hlt, fun _ => hmono j k hjl hkl hlt⟩
  · exact ⟨fun h => absurd h (lt_irrefl _), fun h => absurd h (lt_irrefl _)⟩
  · exact ⟨fun h => absurd h (lt_asymm (hmono k j hkl hjl hgt)), fun h => absurd h (lt_asymm hgt)⟩

include h hnormal hsorted hnear

/-- The binary search finds a slot with the xid, valid or not, if there is one. -/
theorem searchLoop_spec (hbound : tail + L.length ≤ s.maxKnownAssignedXids)
    (fuel lo hi : ℕ) (hlo : lo ≤ hi) (hhi : hi ≤ L.length) (hfuel : hi - lo ≤ fuel) :
    ∃ r, searchLoop s x fuel (tail + lo : ℕ) ((tail + hi : ℕ) - 1) = .ok r ∧
      (∀ j ∈ r, ∃ k p, j = tail + k ∧ L[k]? = some p ∧ xidFromFull p.1 = x) ∧
      ∀ k p, lo ≤ k → k < hi → L[k]? = some p → xidFromFull p.1 = x → r = some (tail + k) := by
  induction fuel generalizing lo hi with
  | zero =>
    rw [searchLoop, if_neg (by omega)]
    exact ⟨none, rfl, fun j hj => (by cases hj), fun k p h1 h2 => by omega⟩
  | succ fuel ih => ?_
  rw [searchLoop]
  by_cases hlt : lo < hi
  swap
  · rw [if_neg (by omega)]
    exact ⟨none, rfl, fun j hj => (by cases hj), fun k p h1 h2 => by omega⟩
  obtain ⟨m, hm, hlom, hmhi⟩ :
    ∃ m : ℕ, (((tail + lo : ℕ) : ℤ) + (((tail + hi : ℕ) : ℤ) - 1)) / 2 = (tail + m : ℕ) ∧
      lo ≤ m ∧ m < hi := ⟨(lo + hi - 1) / 2, by omega, by omega, by omega⟩
  obtain ⟨q, hq⟩ : ∃ q, L[m]? = some q := ⟨_, getElem?_eq_getElem (by omega)⟩
  obtain ⟨hxid, -⟩ := h m q hq
  have hqmem := mem_of_getElem? hq
  rw [if_pos (by omega)]
  rw [hm, if_pos (by omega), Int.toNat_natCast, hxid]
  by_cases heq : x = xidFromFull q.1
  · rw [if_pos heq]
    refine ⟨some (tail + m), rfl, fun j hj => ⟨m, q, (Option.some.inj hj).symm, hq, heq.symm⟩,
      fun k p _ _ hp hpx => ?_⟩
    have hfull : p.1 = q.1 := ofNat_inj (hnear p (mem_of_getElem? hp) q hqmem) (hpx.trans heq)
    have h1 := (index_lt_iff hsorted hp hq).not.1 (by omega)
    have h2 := (index_lt_iff hsorted hq hp).not.1 (by omega)
    congr 1
    omega
  rw [if_neg heq]
  -- the half that is given up does not have `x`
  have hside : ∀ k p, L[k]? = some p → xidFromFull p.1 = x →
      transactionIdPrecedes x (xidFromFull q.1) = decide (k < m) ∧ k ≠ m := by
    intro k p hp hpx
    have hpmem := mem_of_getElem? hp
    refine ⟨?_, ?_⟩
    · rw [← hpx, precedes_eq (hnormal p hpmem) (hnormal q hqmem) (hnear p hpmem q hqmem)]
      exact decide_eq_decide.2 (index_lt_iff hsorted hp hq)
    rintro rfl
    rw [hp] at hq
    obtain rfl := Option.some.inj hq
    exact heq hpx.symm
  cases hprec : transactionIdPrecedes x (xidFromFull q.1) with
  | true =>
    obtain ⟨r, hrun, hfound, hall⟩ := ih lo m (by omega) (by omega) (by omega)
    refine ⟨r, by rw [if_pos rfl, hrun], hfound, fun k p hk hk' hp hpx => ?_⟩
    have hkm := hside k p hp hpx
    rw [hprec] at hkm
    exact hall k p hk (by simpa using hkm.1.symm) hp hpx
  | false => ?_
  obtain ⟨r, hrun, hfound, hall⟩ := ih (m + 1) hi (by omega) hhi (by omega)
  refine ⟨r, ?_, hfound, fun k p hk hk' hp hpx => ?_⟩
  · rw [← hrun]
    rfl
  have hkm := hside k p hp hpx
  rw [hprec] at hkm
  have : ¬ k < m := by simpa using hkm.1.symm
  exact hall k p (by omega) hk' hp hpx

end Search

theorem skipInvalid_spec (L : List (ℕ × Bool)) (i : ℕ) (h : Entries s i L) :
    s.skipInvalid L.length i = i + (L.takeWhile fun p => !p.2).length := by
  induction L generalizing i with
  | nil => rfl
  | cons p L ih => ?_
  obtain ⟨⟨-, hvalid⟩, hrest⟩ := entries_cons.1 h
  rw [length_cons, skipInvalid, hvalid]
  cases hp : p.2 with
  | true =>
    rw [takeWhile_cons_of_neg (by simp [hp])]
    rfl
  | false =>
    rw [if_neg (by simp), ih (i + 1) hrest, takeWhile_cons_of_pos (by simp [hp]), length_cons, add_assoc,
      add_comm 1]

/-- Behind a valid slot that does not precede `x` no valid slot does. -/
def SplitAt (x : TransactionId) (L : List (ℕ × Bool)) : Prop :=
  L.Pairwise fun p q => p.2 = true → transactionIdPrecedes (xidFromFull p.1) x = false → q.2 = true →
    transactionIdPrecedes (xidFromFull q.1) x = false

def isPruned (isPrepared : TransactionId → Bool) (x : TransactionId) (p : ℕ × Bool) : Bool :=
  p.2 && transactionIdPrecedes (xidFromFull p.1) x && !isPrepared (xidFromFull p.1)

def prune (isPrepared : TransactionId → Bool) (x : TransactionId) (p : ℕ × Bool) : ℕ × Bool :=
  (p.1, p.2 && !isPruned isPrepared x p)

theorem prune_eq_self {isPrepared : TransactionId → Bool} {x : TransactionId}
    (h : isPruned isPrepared x p = false) : prune isPrepared x p = p := by
  rw [prune, h, Bool.not_false, Bool.and_true]

theorem invalidate_ne (hk : k ≠ i) :
    ({ s with knownAssignedXidsValid := update s.knownAssignedXidsValid i false } :
      KnownAssigned).knownAssignedXidsValid k = s.knownAssignedXidsValid k := update_of_ne hk ..

theorem pruneLoop_spec (isPrepared : TransactionId → Bool) (x : TransactionId)
    (L : List (ℕ × Bool)) (s : KnownAssigned) (i : ℕ) (n : ℤ)
    (hbound : i + L.length ≤ s.maxKnownAssignedXids) (h : Entries s i L) (hsplit : SplitAt x L) :
    ∃ s', pruneLoop isPrepared x L.length s i n = .ok (n + L.countP (isPruned isPrepared x)) s' ∧
      Entries s' i (L.map (prune isPrepared x)) ∧ AgreeBelow i s s' ∧ ArraysOnly s s' := by
  induction L generalizing s i n with
  | nil => exact ⟨s, by simp [pruneLoop], entries_nil s _, fun _ _ => ⟨rfl, rfl⟩, rfl⟩
  | cons p L ih => ?_
  obtain ⟨⟨hxid, hvalid⟩, hrest⟩ := entries_cons.1 h
  obtain ⟨hhead, hsplit'⟩ := pairwise_cons.1 hsplit
  rw [length_cons] at hbound
  rw [length_cons, pruneLoop, if_pos (by omega), hvalid, hxid, followsOrEquals_not]
  -- a slot that stays as it is
  have hkeep : isPruned isPrepared x p = false → ∃ s', pruneLoop isPrepared x L.length s (i + 1) n =
      .ok (n + (p :: L).countP (isPruned isPrepared x)) s' ∧
      Entries s' i ((p :: L).map (prune isPrepared x)) ∧ AgreeBelow i s s' ∧ ArraysOnly s s' := by
    intro hp
    obtain ⟨s', hrun, hentries, hbelow, honly⟩ := ih s (i + 1) n (by omega) hrest hsplit'
    refine ⟨s',
      by rw [hrun, countP_cons_of_neg (by simp [hp])], ?_, fun k hk => hbelow k (by omega), honly⟩
    obtain ⟨h1, h2⟩ := hbelow i (lt_succ_self i)
    rw [map_cons, prune_eq_self hp]
    exact entries_cons.2 ⟨⟨h1.trans hxid, h2.trans hvalid⟩, hentries⟩
  cases hv : p.2 with
  | false =>
    exact hkeep (by simp [isPruned, hv])
  | true => ?_
  rw [if_pos rfl]
  cases hprec : transactionIdPrecedes (xidFromFull p.1) x with
  | false =>
    -- here the loop stops; nothing behind would be pruned
    have hnone : ∀ q ∈ p :: L, isPruned isPrepared x q = false := by
      intro q hq
      rcases mem_cons.1 hq with rfl | hq
      · simp [isPruned, hprec]
      · cases hqv : q.2 with
        | false => simp [isPruned, hqv]
        | true => simp [isPruned, hhead q hq hv hprec hqv]
    have hsame : (p :: L).map (prune isPrepared x) = p :: L := by
      conv_rhs => rw [← map_id (p :: L)]
      exact map_congr_left fun q hq => prune_eq_self (hnone q hq)
    refine ⟨s, ?_, hsame.symm ▸ h, fun _ _ => ⟨rfl, rfl⟩, rfl⟩
    rw [countP_eq_zero.2 fun q hq => by simp [hnone q hq]]
    simp
  | true => ?_
  rw [if_neg (by simp)]
  cases hprep : isPrepared (xidFromFull p.1) with
  | true =>
    exact hkeep (by simp [isPruned, hprep])
  | false => ?_
  have hp : isPruned isPrepared x p = true := by simp [isPruned, hv, hprec, hprep]
  rw [if_pos (by simp)]
  obtain ⟨s', hrun, hentries, hbelow, honly⟩ := ih
    { s with knownAssignedXidsValid := update s.knownAssignedXidsValid i false } (i + 1) (n + 1)
    (by change _ ≤ s.maxKnownAssignedXids; omega)
    (hrest.congr fun k hk _ => ⟨rfl, invalidate_ne (by omega)⟩) hsplit'
  refine ⟨s', ?_, ?_, fun k hk => ?_, ArraysOnly.trans ?_ honly⟩
  · rw [hrun, countP_cons_of_pos hp]
    congr 1
    omega
  · obtain ⟨h1, h2⟩ := hbelow i (lt_succ_self i)
    refine entries_cons.2 ⟨⟨h1.trans hxid, h2.trans ?_⟩, hentries⟩
    rw [prune, hp, Bool.not_true, Bool.and_false]
    exact update_self ..
  · obtain ⟨h1, h2⟩ := hbelow k (lt_succ_of_lt hk)
    exact ⟨h1, h2.trans (invalidate_ne (by omega))⟩
  · rfl

/-- whether the slot is copied for a snapshot with this `xmax` -/
def isBefore (xmax : TransactionId) (p : ℕ × Bool) : Bool :=
  !transactionIdIsValid xmax || transactionIdPrecedes (xidFromFull p.1) xmax

def lowerXmin (xmin : TransactionId) : List TransactionId → TransactionId
  | [] => xmin
  | knownXid :: _ => if transactionIdPrecedes knownXid xmin then knownXid else xmin

theorem getLoop_spec (xmax : TransactionId) (L : List (ℕ × Bool)) (i : ℕ) (first : Bool)
    (xmin : TransactionId) (hbound : i + L.length ≤ s.maxKnownAssignedXids) (h : Entries s i L)
    (hsplit : SplitAt xmax L) :
    getLoop s xmax L.length i first xmin =
      .ok (((L.filter snd).filter (isBefore xmax)).map fun p => xidFromFull p.1,
        if first then lowerXmin xmin ((L.filter snd).map fun p => xidFromFull p.1) else xmin) := by
  induction L generalizing i first xmin with
  | nil => simp [getLoop, lowerXmin]
  | cons p L ih => ?_
  obtain ⟨⟨hxid, hvalid⟩, hrest⟩ := entries_cons.1 h
  obtain ⟨hhead, hsplit'⟩ := pairwise_cons.1 hsplit
  rw [length_cons] at hbound
  rw [length_cons, getLoop, if_pos (by omega), hvalid]
  cases hv : p.2 with
  | false =>
    rw [filter_cons_of_neg (by simp [hv])]
    exact ih (i + 1) first xmin (by omega) hrest hsplit'
  | true => ?_
  rw [if_pos rfl, filter_cons_of_pos hv, hxid]
  have hxmin :
    (if first && transactionIdPrecedes (xidFromFull p.1) xmin then xidFromFull p.1 else xmin) =
      if first then lowerXmin xmin ((p :: L.filter snd).map fun p => xidFromFull p.1) else xmin := by
    cases first <;> simp [lowerXmin]
  simp only [hxmin, followsOrEquals_not]
  cases hbefore : isBefore xmax p with
  | true =>
    rw [isBefore, or_eq_true, not_eq_true'] at hbefore
    rw [if_neg (by rcases hbefore with hb | hb <;> simp [hb]),
      ih (i + 1) false _ (by omega) hrest hsplit',
        filter_cons_of_pos (by simpa [isBefore] using hbefore)]
    rfl
  | false => ?_
  rw [isBefore, or_eq_false_iff, not_eq_false'] at hbefore
  rw [if_pos (by simp [hbefore])]
  have hnone : ∀ q ∈ p :: L.filter snd, ¬ isBefore xmax q = true := by
    intro q hq
    rcases mem_cons.1 hq with rfl | hq
    · simp [isBefore, hbefore]
    · obtain ⟨hq, hqv⟩ := mem_filter.1 hq
      simp [isBefore, hbefore.1, hhead q hq hv hbefore.2 hqv]
  rw [filter_eq_nil_iff.2 hnone]
  rfl

end Pg.KnownAssigned
