import PgRetrofit.Sanity.MultiXactLayout

/-! What `GetNewMultiXactId` does to the pages: the ones it zeroes hold nothing of the positions
just before the ones it hands out. -/

namespace Pg.MultiXact

open List UInt32

variable {p q n g : ℕ} {pg : ℕ}

theorem ofNat_eq_zero : UInt32.ofNat p = 0 ↔ p % 2 ^ 32 = 0 := by
  rw [← UInt32.toNat_inj]
  rfl

theorem ofNat_succ (p : ℕ) : UInt32.ofNat p + 1 = UInt32.ofNat (p + 1) := by simp [ofNat_add]

theorem page_start {o : MultiXactOffset} (hf : mxOffsetToFlagsOffset o = 0)
    (hb : mxOffsetToFlagsBitShift o = 0) :
    o.toNat = mxOffsetToMemberPage o * 1636 := by
  have hshift := bitShift_toNat o
  rw [hb, UInt32.toNat_zero] at hshift
  have hplace : o.toNat % 4 = 0 := by omega
  have hslot := slot_eq o
  rw [hf, hplace, Nat.add_zero] at hslot
  exact hslot

/-- A page is zeroed only when its first slot is handed out. -/
theorem mem_extendLoop (fuel : ℕ) (q : ℕ) (n : ℤ) (h : pg ∈ extendLoop fuel (.ofNat q) n) :
    ∃ q', q ≤ q' ∧ (q' : ℤ) < q + n ∧ q' % 2 ^ 32 = pg * 1636 := by
  induction fuel generalizing q n with
  | zero => cases h
  | succ fuel ih => ?_
  rw [extendLoop] at h
  split at h
  next hn =>
    have hrest : pg ∈ extendLoop fuel (.ofNat q + membersLeftInPage (.ofNat q))
      (n - (membersLeftInPage (.ofNat q)).toNat) →
        ∃ q', q ≤ q' ∧ (q' : ℤ) < q + n ∧ q' % 2 ^ 32 = pg * 1636 := by
      intro hmem
      have hnext : ofNat q + membersLeftInPage (.ofNat q) =
          .ofNat (q + (membersLeftInPage (.ofNat q)).toNat) := by
        rw [UInt32.ofNat_add, UInt32.ofNat_toNat]
      rw [hnext] at hmem
      obtain ⟨q', hle, hlt, hq'⟩ := ih _ _ hmem
      exact ⟨q', by omega, by omega, hq'⟩
    split at h
    next hfirst =>
      rcases mem_cons.1 h with rfl | hmem
      · refine ⟨q, le_rfl, by omega, ?_⟩
        exact page_start hfirst.1 hfirst.2
      · exact hrest hmem
    next => exact hrest h
  next => cases h

/-- The slot before the positions handed out is on none of the pages zeroed for them, unless it
is a whole round of the ring away. -/
theorem memberPage_not_mem (hp : p < q) (hwindow : q + n + 1636 ≤ p + 2 ^ 32) :
    mxOffsetToMemberPage (.ofNat p) ∉ extendMultiXactMember (.ofNat q) n := by
  intro hmem
  obtain ⟨q', hle, hlt, hq'⟩ := mem_extendLoop _ _ _ hmem
  have hpage : mxOffsetToMemberPage (.ofNat p) = p % 2 ^ 32 / 1636 := by
    rfl
  omega

theorem zero_mem_extend (hq : q % 2 ^ 32 = 0) (hn : 0 < n) : 0 ∈ extendMultiXactMember (.ofNat q) n := by
  obtain ⟨n, rfl⟩ : ∃ k, n = k + 1 := ⟨n - 1, by omega⟩
  rw [ofNat_eq_zero.2 hq, extendMultiXactMember, extendLoop, if_pos (by omega)]
  exact mem_cons_self

theorem offsetPage_not_mem (hp : p < g) (hp0 : p % 2 ^ 32 ≠ 0) (hwindow : g ≤ p + 2 ^ 31) :
    multiXactIdToOffsetPage (.ofNat p) ∉ extendMultiXactOffset (.ofNat g) := by
  have hpage (r : ℕ) : multiXactIdToOffsetPage (.ofNat r) = r % 2 ^ 32 / 2048 := by
    rfl
  have hentry : multiXactIdToOffsetEntry (.ofNat g) = g % 2 ^ 32 % 2048 := by
    rfl
  rw [extendMultiXactOffset]
  split
  · exact not_mem_nil
  next hfirst =>
  rw [mem_singleton, hpage, hpage]
  have hfirst' : g % 2 ^ 32 % 2048 = 0 ∨ g % 2 ^ 32 = 1 := by
    rcases Classical.not_and_iff_not_or_not.1 hfirst with h | h
    · exact .inl (by omega)
    · right
      rw [← toNat_ofNat', not_not.1 h]
      rfl
  omega

/-- What the second half leaves. An error leaves the counters alone. -/
structure ReserveSpec (store : Store) (n : ℕ) (out : Assigned) : Prop where
  offsets : out.store.offsets = store.offsets
  members : ∃ pages, pages ⊆ extendMultiXactMember store.state.nextOffset out.extended ∧
    out.store.members = store.members.zeroPages pages ∧
    ∀ o, out.offset = .ok o → pages = extendMultiXactMember store.state.nextOffset out.extended
  failed : ∀ e, out.offset = .error e → out.store.state = store.state
  done : ∀ o, out.offset = .ok o → o = startOffset store.state.nextOffset ∧
    out.extended = slotsTaken store.state.nextOffset n ∧
    out.store.state = { store.state with
      nextMXact := store.state.nextMXact + 1
      nextOffset := store.state.nextOffset + UInt32.ofNat (slotsTaken store.state.nextOffset n) }
  guarded : store.state.oldestOffsetKnown = true → out.extended ≠ 0 →
    out.extended = slotsTaken store.state.nextOffset n ∧
      multiXactOffsetWouldWrap store.state.offsetStopLimit store.state.nextOffset
      (UInt32.ofNat out.extended) = false

theorem reserveMembers_spec (io : IoFailure) (store : Store) (n : ℕ) :
    ReserveSpec store n (reserveMembers io store n) := by
  unfold reserveMembers
  dsimp only
  split
  next =>
    refine ⟨rfl, ⟨[], nil_subset _, rfl, ?_⟩, fun _ _ => rfl, ?_, fun _ h => absurd rfl h⟩
    all_goals exact fun o ho => nomatch ho
  rename_i hwrap
  have hguard : store.state.oldestOffsetKnown = true →
    multiXactOffsetWouldWrap store.state.offsetStopLimit
      store.state.nextOffset (ofNat (slotsTaken store.state.nextOffset n)) = false := by
    intro hknown
    rwa [hknown, Bool.not_eq_true] at hwrap
  split
  next zeroed page pages hpages =>
    rw [← hpages]
    refine ⟨rfl, ⟨_, take_subset _ _, rfl, ?_⟩, fun _ _ => rfl, ?_, fun hknown _ => ⟨rfl, hguard hknown⟩⟩
    all_goals exact fun o ho => nomatch ho
  next =>
    refine ⟨rfl, ⟨_, fun _ h => h, rfl, fun _ _ => rfl⟩, ?_, ?_, fun hknown _ => ⟨rfl, hguard hknown⟩⟩
    · exact fun e he => nomatch he
    · intro o ho
      exact ⟨(Except.ok.inj ho).symm, rfl, rfl⟩

theorem assign_spec (io : IoFailure) (store : Store) (result : MultiXactId) (n : ℕ) :
    ∃ pages, pages ⊆ extendMultiXactOffset result ∧
      ReserveSpec { store with offsets := store.offsets.zeroPages pages } n
      (assign io store result n) := by
  unfold assign
  split
  next zeroed page pages hpages =>
    rw [← hpages]
    refine ⟨if zeroed then extendMultiXactOffset result else [], ?_, ?_⟩
    · cases zeroed
      · exact nil_subset _
      · exact fun _ h => h
    refine ⟨?_, ⟨[], nil_subset _, rfl, ?_⟩, fun _ _ => rfl, ?_, fun _ h => absurd rfl h⟩
    · cases zeroed <;> rfl
    · exact fun o ho => nomatch ho
    · exact fun o ho => nomatch ho
  next => exact ⟨_, fun _ h => h, reserveMembers_spec ..⟩

/-- The boundary lies ahead, at most a round of the ring away: what is not refused stops before it. -/
theorem wouldWrap_false {stop : ℕ} (hq : q < stop) (hstop : stop ≤ q + 2 ^ 32) (hn : n < 2 ^ 31)
    (h : multiXactOffsetWouldWrap (.ofNat stop) (.ofNat q) (.ofNat n) = false) : q + n < stop := by
  have hB : (ofNat stop).toNat = _ := toNat_ofNat'
  have hS : (ofNat q).toNat = _ := toNat_ofNat'
  rw [multiXactOffsetWouldWrap] at h
  simp only [lt_iff_toNat_lt, ge_iff_le, le_iff_toNat_le] at h
  split at h <;> split at h <;> simp at h <;> omega

end Pg.MultiXact
