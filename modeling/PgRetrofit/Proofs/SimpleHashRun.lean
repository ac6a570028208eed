import PgRetrofit.Proofs.SimpleHash

/-! Runs of calls on a simplehash table against the finite map they stand for. -/

namespace Pg.SimpleHash

open RobinHood Function Multiset Nat

variable {κ ν : Type*} {ty : SimpleHashType κ} {tb : SimpleHash κ ν} {m : κ → Option ν}
  {fuel : ℕ} {key : κ}

/-- The table is in order and its entries are those of the map. -/
structure Represents (ty : SimpleHashType κ) (tb : SimpleHash κ ν) (m : κ → Option ν) : Prop where
  inv : Inv ty tb
  entries_iff : ∀ key v, (key, v) ∈ tb.entries ↔ m key = some v

theorem Represents.absent (h : Represents ty tb m) (hnot : ∀ v, (key, v) ∉ tb.entries) : m key = none :=
  Option.eq_none_iff_forall_not_mem.2 fun v hv => hnot v ((h.entries_iff key v).2 hv)

/-- The sizes of new tables: all but those between `2 ^ 31` and `2 ^ 32` elements. -/
theorem shCreate_represents (ty : SimpleHashType κ) {nelements : UInt32}
    (hn : nelements.toNat * 10 / 9 ≤ 2 ^ 31 ∨ 2 ^ 32 ≤ nelements.toNat * 10 / 9) :
    ∃ tb : SimpleHash κ ν, shCreate ty nelements = .ok tb ∧ Represents ty tb fun _ => none := by
  obtain ⟨k, h1, h31, hk⟩ : ∃ k, 1 ≤ k ∧ k ≤ 31 ∧
      shPow2 (max (min shMaxSize (nelements.toNat * 10 / 9) % 2 ^ 32) 2) = 2 ^ k := by
    refine ⟨_, ?_, ?_, rfl⟩
    · exact clog_pos (by decide) (lt_of_lt_of_le (by decide) (le_max_right _ _))
    refine clog_le_of_le_pow (max_le ?_ (by decide))
    unfold shMaxSize
    rcases hn with hle | hge
    · rwa [min_eq_right (hle.trans (by decide)), mod_eq_of_lt (lt_of_le_of_lt hle (by decide))]
    · rw [min_eq_left hge]
      exact zero_le _
  refine ⟨_, shComputeParameters_eq ty _ h31 hk,
    ⟨⟨⟨k, h1, h31, rfl⟩, rfl⟩, rfl, ?_, zero_le _, ?_, fun i => ?_⟩, fun key v => ?_⟩
  all_goals have hempty : contents (2 ^ k) (fun _ : ℕ => (none : Option (κ × ν))) = 0 :=
    Finset.sum_eq_zero fun _ _ => rfl
  · exact (congrArg card hempty).symm
  · rw [entries, hempty]
    exact nodup_zero
  · exact zero_le _
  · rw [entries, hempty]
    simp

variable [DecidableEq κ] {tb' : SimpleHash κ ν} {v : ν}

/-- What a call does to the map of keys to the other fields of their entries. -/
def mapStep (m : κ → Option ν) : Op κ ν → (κ → Option ν) × Answer κ ν
  | .insert key v =>
    match m key with
    | some w => (m, ⟨true, some (key, w)⟩)
    | none => (Function.update m key (some v), ⟨false, some (key, v)⟩)
  | .delete key => (Function.update m key none, ⟨(m key).isSome, none⟩)
  | .lookup key => (m, ⟨(m key).isSome, (m key).map fun v => (key, v)⟩)

def mapRun : (κ → Option ν) → List (Op κ ν) → (κ → Option ν) × List (Answer κ ν)
  | m, [] => (m, [])
  | m, op :: ops =>
    let r := mapRun (mapStep m op).1 ops
    (r.1, (mapStep m op).2 :: r.2)

/-- The condition under which a call is safe: an insertion finds fewer entries than a
tenth of `2 ^ 31`, the number from which a table of that many buckets may have to grow. -/
def Fits (tb : SimpleHash κ ν) : Op κ ν → Prop
  | .insert _ _ => tb.members * 10 < 2 ^ 31
  | .delete _ => True
  | .lookup _ => True

variable (h : Represents ty tb m)
include h

theorem Represents.shLookup (hfuel : 2 ^ 32 ≤ fuel) (key : κ) :
    shLookup ty fuel tb key = .ok ((m key).map fun v => (key, v)) := by
  have hle := h.inv.shaped.le
  rcases shLookup_spec h.inv (by omega : tb.size ≤ fuel) key with ⟨v, hmem, hrun⟩ | ⟨hnot, hrun⟩
  · rw [hrun, (h.entries_iff key v).1 hmem]
    rfl
  · rw [hrun, h.absent hnot]
    rfl

theorem Represents.insert (hinv : Inv ty tb')
    (hm : m key = none) (hent : tb'.entries = (key, v) ::ₘ tb.entries) :
    Represents ty tb' (update m key (some v)) := by
  refine ⟨hinv, fun k w => ?_⟩
  rw [hent, mem_cons, h.entries_iff]
  by_cases hk : k = key
  · subst hk
    simp [hm, eq_comm]
  · simp [hk]

theorem Represents.delete (hinv : Inv ty tb')
    (hent : tb.entries = (key, v) ::ₘ tb'.entries) : Represents ty tb' (update m key none) := by
  have hkeys := h.inv.keys
  rw [hent, map_cons, nodup_cons] at hkeys
  refine ⟨hinv, fun k w => ?_⟩
  rw [update_apply]
  by_cases hk : k = key
  · subst hk
    have hnot : (k, w) ∉ tb'.entries := fun hmem => hkeys.1 (mem_map.2 ⟨_, hmem, rfl⟩)
    simp [hnot]
  · rw [if_neg hk, ← h.entries_iff, hent, mem_cons]
    simp [hk]

omit h

/-- One call on the table answers as the map does and leaves a table for the next map. -/
theorem step_represents (hfuel : 2 ^ 32 ≤ fuel) (h : Represents ty tb m) {op : Op κ ν}
    (hfits : Fits tb op) :
    ∃ tb', step ty fuel tb op = .ok (tb', (mapStep m op).2) ∧ Represents ty tb' (mapStep m op).1 := by
  have hle := h.inv.shaped.le
  cases op with
  | insert key v =>
    obtain ⟨tb', i, found, hrun, hinv, heff, -⟩ :=
      shInsert_spec hfuel h.inv (h.inv.settles hfuel hfits key) v
    refine ⟨tb', ?_⟩
    cases heff with
    | @found w hentry hmem hent =>
      have hm : m key = some w := (h.entries_iff key w).1 hmem
      simp only [step, hrun, Except.map, mapStep, hm, hentry, true_and]
      exact ⟨hinv, fun k w => by rw [hent, h.entries_iff]⟩
    | new hentry habsent hent =>
      have hm : m key = none := h.absent habsent
      simp only [step, hrun, Except.map, mapStep, hm, hentry, true_and]
      exact h.insert hinv hm hent
  | delete key =>
    rcases shDelete_spec h.inv (by omega : tb.size ≤ fuel) key
      with ⟨tb', v, hrun, hinv, hent⟩ | ⟨hrun, hnot⟩
    · have hm : m key = some v := (h.entries_iff key v).1 (by rw [hent]; exact mem_cons_self ..)
      exact ⟨tb', by rw [step, hrun, mapStep, hm]; rfl, h.delete hinv hent⟩
    have hm : m key = none := h.absent hnot
    refine ⟨tb, by rw [step, hrun, mapStep, hm]; rfl, ?_⟩
    rw [mapStep, ← hm, update_eq_self]
    exact h
  | lookup key =>
    refine ⟨tb, ?_, h⟩
    rw [step, h.shLookup hfuel, mapStep]
    cases m key <;> rfl

/-- Every call of the run is safe in the state before it. -/
def FitsAll (ty : SimpleHashType κ) (fuel : ℕ) : SimpleHash κ ν → List (Op κ ν) → Prop
  | _, [] => True
  | tb, op :: ops =>
    Fits tb op ∧
      match step ty fuel tb op with
      | .ok (tb', _) => FitsAll ty fuel tb' ops
      | .error _ => True

theorem run_represents_map (hfuel : 2 ^ 32 ≤ fuel) (ops : List (Op κ ν)) (h : Represents ty tb m)
    (hfits : FitsAll ty fuel tb ops) :
    ∃ tb', run ty fuel tb ops = .ok (tb', (mapRun m ops).2) ∧ Represents ty tb' (mapRun m ops).1 := by
  induction ops generalizing tb m with
  | nil => exact ⟨tb, rfl, h⟩
  | cons op ops ih => ?_
  obtain ⟨hop, hrest⟩ := hfits
  obtain ⟨tb1, hstep, h₁⟩ := step_represents hfuel h hop
  rw [hstep] at hrest
  obtain ⟨tb2, hrun, h2⟩ := ih h₁ hrest
  refine ⟨tb2, ?_, h2⟩
  rw [run, hstep]
  simp only [Except.bind, hrun]
  rfl

structure FiniteMap (ty : SimpleHashType κ) (fuel : ℕ) (tb : SimpleHash κ ν)
    (m : κ → Option ν) : Prop where
  lookup : ∀ key, shLookup ty fuel tb key = .ok ((m key).map fun v => (key, v))
  stored : ∀ key v, (∃ p < tb.size, tb.data p = some (key, v)) ↔ m key = some v
  distinct :
    ∀ p < tb.size, ∀ q < tb.size, ∀ e e', tb.data p = some e → tb.data q = some e' → e.1 = e'.1 → p = q
  members_eq : tb.members = ((Finset.range tb.size).filter fun p => (tb.data p).isSome).card
  grow : tb.size < 2 ^ 31 → ∃ tb', shGrow ty fuel tb (tb.size * 2) = .ok tb' ∧ tb'.entries = tb.entries ∧
    tb'.members = tb.members

theorem Represents.finiteMap (h : Represents ty tb m) (hfuel : 2 ^ 32 ≤ fuel) :
    FiniteMap ty fuel tb m where
  lookup := h.shLookup hfuel
  stored key v := mem_contents.symm.trans (h.entries_iff key v)
  distinct p hp q hq _ _ he he' := slot_unique h.inv.keys hp hq he he'
  members_eq := h.inv.members_eq.trans card_contents
  grow hsize := by
    obtain ⟨tb', hgrow, hinv, hent, -⟩ := shGrow_spec h.inv hsize (by omega : tb.size < fuel)
    exact ⟨tb', hgrow, hent, by rw [hinv.members_eq, hent, ← h.inv.members_eq]⟩

/-- A table created with at most `2 ^ 31` buckets, to which nothing is added once it has a
tenth as many entries, answers every run of calls as the finite map does, and is that map
after it, whatever the hash function. -/
theorem run_finiteMap (hfuel : 2 ^ 32 ≤ fuel) (ty : SimpleHashType κ) (nelements : UInt32)
    (hn : nelements.toNat * 10 / 9 ≤ 2 ^ 31 ∨ 2 ^ 32 ≤ nelements.toNat * 10 / 9) :
    ∃ tb : SimpleHash κ ν, shCreate ty nelements = .ok tb ∧ ∀ ops, FitsAll ty fuel tb ops →
      ∃ tb', run ty fuel tb ops = .ok (tb', (mapRun (fun _ => none) ops).2) ∧
        FiniteMap ty fuel tb' (mapRun (fun _ => none) ops).1 := by
  obtain ⟨tb, hcreate, h⟩ := shCreate_represents ty hn
  refine ⟨tb, hcreate, fun ops hfits => ?_⟩
  obtain ⟨tb', hrun, h'⟩ := run_represents_map hfuel ops h hfits
  exact ⟨tb', hrun, h'.finiteMap hfuel⟩

/-- keys that are their own hash values -/
def sampleType : SimpleHashType ℕ := ⟨fun key => key.toUInt32, 16, by decide⟩

/-- The second insertion doubles the two buckets, the third finds its bucket taken, and
the deletion moves it there. -/
def sampleOps : List (Op ℕ ℕ) := [.insert 0 7, .insert 2 8, .insert 4 9, .delete 0, .lookup 4, .lookup 0]

theorem run_finiteMap_sample :
    ∃ tb tb₃ tb' : SimpleHash ℕ ℕ, shCreate sampleType 0 = .ok tb ∧ tb.size = 2 ∧
      run sampleType (2 ^ 32) tb (sampleOps.take 3) =
        .ok (tb₃, [⟨false, some (0, 7)⟩, ⟨false, some (2, 8)⟩, ⟨false, some (4, 9)⟩]) ∧
      tb₃.size = 4 ∧ tb₃.data 0 = some (0, 7) ∧ tb₃.data 1 = some (4, 9) ∧
      run sampleType (2 ^ 32) tb sampleOps = .ok (tb', (mapRun (fun _ => none) sampleOps).2) ∧
      FiniteMap sampleType (2 ^ 32) tb' (mapRun (fun _ => none) sampleOps).1 := by
  have hn : (0 : UInt32).toNat * 10 / 9 ≤ 2 ^ 31 ∨ 2 ^ 32 ≤ (0 : UInt32).toNat * 10 / 9 :=
    Or.inl (by decide)
  obtain ⟨tb, hcreate, hall⟩ := run_finiteMap (ν := ℕ) (le_refl (2 ^ 32)) sampleType 0 hn
  obtain rfl : tb = ⟨2, 0, 1, 1, fun _ => none⟩ := (Except.ok.inj hcreate).symm
  obtain ⟨tb', hrun, hmap⟩ := hall sampleOps
    ⟨le_of_ble_eq_true rfl, le_of_ble_eq_true rfl, le_of_ble_eq_true rfl, trivial,
      trivial, trivial, trivial⟩
  exact ⟨_, _, tb', hcreate, rfl, rfl, rfl, rfl, rfl, hrun, hmap⟩

/-- the table for `2 ^ 31` elements: `2 ^ 32` buckets, and a mask of 0 -/
def maxTable (members : ℕ) (data : ℕ → Option (ℕ × ℕ)) : SimpleHash ℕ ℕ :=
  ⟨shMaxSize, members, 0, shMaxSize * 98 / 100, data⟩

theorem shCreate_maxTable : shCreate sampleType 2147483648 = .ok (maxTable 0 fun _ => none) := by
  have hsize : shPow2 (max (min shMaxSize ((2147483648 : UInt32).toNat * 10 / 9) % 2 ^ 32) 2) =
    shMaxSize := rfl
  rw [shCreate, shComputeParameters]
  simp only [hsize]
  rw [if_neg (by decide), if_pos trivial, if_pos trivial]
  rfl

/-- With a mask of 0 there is one bucket to go to: once it is taken, a search for another
key never ends. -/
theorem search_maxTable {data : ℕ → Option (ℕ × ℕ)} {key v : ℕ} (h : data 0 = some (key, v)) {key' : ℕ}
    (hne : key ≠ key') (fuel : ℕ) : (maxTable 1 data).search key' fuel 0 = .error .diverges := by
  induction fuel with
  | zero => rfl
  | succ fuel ih =>
    have hnext : (maxTable 1 data).shNext 0 = 0 := and_zero _
    rw [search, show (maxTable 1 data).data 0 = some (key, v) from h]
    simp only
    rw [if_neg hne, hnext]
    exact ih

theorem shLookup_diverges :
    ∃ tb tb' : SimpleHash ℕ ℕ, shCreate sampleType 2147483648 = .ok tb ∧
      (∀ fuel, shInsert sampleType (fuel + 1) tb 0 7 = .ok (tb', 0, false)) ∧
      ∀ fuel, shLookup sampleType fuel tb' 1 = .error .diverges := by
  refine ⟨_, maxTable 1 (update (fun _ => none) 0 (some (0, 7))), shCreate_maxTable, fun fuel => rfl,
    fun fuel => ?_⟩
  have hstart : ∀ data, (maxTable 1 data).shInitialBucket (sampleType.hashKey 1) = 0 :=
    fun _ => and_zero _
  rw [shLookup, hstart, search_maxTable (update_self ..) (by decide)]
  rfl

end Pg.SimpleHash
