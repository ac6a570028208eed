import PgRetrofit.Sanity.AclChanges

/-! The cascade comes to an end: each round takes at least one bit away from the list, provided no
two entries have the same grantee and grantor. -/

namespace Pg.AccessControl

open List Finset BitVec Bool Option Except

variable {acl : Acl} {modAip item : AclItem} {rights m : AclMode} {ownerId grantee : Oid}

def weight (m : AclMode) : ℕ := ((Finset.range 32).filter fun k => m.getLsbD k = true).card

def aclWeight (acl : Acl) : ℕ := (acl.map fun item => weight item.aiPrivs).sum

theorem aclWeight_cons (item : AclItem) (rest : Acl) :
    aclWeight (item :: rest) = weight item.aiPrivs + aclWeight rest := by
  rw [aclWeight, List.map_cons, List.sum_cons, aclWeight]

theorem weight_zero : weight 0 = 0 := by
  rw [weight, card_eq_zero, filter_eq_empty_iff]
  intro k _
  rw [zero_getLsbD]
  exact false_ne_true

theorem weight_le (m : AclMode) : weight m ≤ 32 := (card_filter_le _ _).trans (card_range 32).le

theorem aclWeight_le (acl : Acl) : aclWeight acl ≤ 32 * acl.length := by
  induction acl with
  | nil => exact le_rfl
  | cons item rest ih =>
    have := weight_le item.aiPrivs
    rw [aclWeight_cons, length_cons]
    omega

theorem exists_bit_of_ne_zero (h : m ≠ 0) : ∃ k, m.getLsbD k = true := by
  by_contra hnone
  apply h
  apply eq_of_getLsbD_eq
  intro i hi
  rw [zero_getLsbD]
  exact eq_false_iff.2 fun hbit => hnone ⟨i, hbit⟩

theorem weight_and_not_lt {old : AclMode} (h : old &&& m ≠ 0) : weight (old &&& ~~~m) < weight old := by
  obtain ⟨k, hk⟩ := exists_bit_of_ne_zero h
  have hk32 := lt_of_getLsbD hk
  rw [getLsbD_and, and_eq_true] at hk
  apply card_lt_card
  rw [Finset.ssubset_iff_of_subset (Finset.monotone_filter_right _ ?_)]
  · refine ⟨k, Finset.mem_filter.2 ⟨Finset.mem_range.2 hk32, hk.1⟩, fun hmem => ?_⟩
    simp [hk.2] at hmem
  · intro k _ hbit
    rw [getLsbD_and, and_eq_true] at hbit
    exact hbit.1

theorem aclWeight_setRights (acl : Acl) (modAip : AclItem) (rights : AclMode) :
    aclWeight (setRights modAip rights acl) + weight (rightsOf acl modAip) =
      aclWeight acl + weight rights := by
  induction acl with
  | nil =>
    rw [setRights, rightsOf, find?_nil, map_none, getD_none, weight_zero]
    split
    next hzero => rw [hzero, weight_zero]
    next => simp [aclWeight]
  | cons item rest ih => ?_
  unfold setRights rightsOf
  cases hmatch : aclitemMatch modAip item with
  | true =>
    rw [if_pos rfl, find?_cons_of_pos hmatch, map_some, getD_some]
    split
    next hzero =>
      rw [hzero, weight_zero, aclWeight_cons, Nat.add_comm, Nat.add_zero]
    next =>
      rw [aclWeight_cons, aclWeight_cons]
      simp only
      omega
  | false =>
    rw [if_neg Bool.false_ne_true, find?_cons_of_neg (by rw [hmatch]; exact Bool.false_ne_true),
      aclWeight_cons, aclWeight_cons]
    unfold rightsOf at ih
    omega

def Distinct (acl : Acl) : Prop := acl.Pairwise fun a b => aclitemMatch a b = false

theorem aclitemMatch_congr {a b c : AclItem} (h : aclitemMatch a b = true) :
    aclitemMatch a c = aclitemMatch b c := by
  obtain ⟨hgrantee, hgrantor⟩ := aclitemMatch_iff.1 h
  rw [aclitemMatch, aclitemMatch, hgrantee, hgrantor]

theorem aclitemMatch_comm (a b : AclItem) : aclitemMatch a b = aclitemMatch b a := by
  simp only [aclitemMatch, eq_comm]

theorem Distinct.setRights (h : Distinct acl) : Distinct (setRights modAip rights acl) := by
  induction acl with
  | nil =>
    unfold AccessControl.setRights
    split
    next => exact List.Pairwise.nil
    next => exact pairwise_singleton _ _
  | cons head rest ih => ?_
  obtain ⟨hhead, hrest⟩ := pairwise_cons.1 h
  unfold AccessControl.setRights
  cases hmatch : aclitemMatch modAip head with
  | true =>
    rw [if_pos rfl]
    split
    next => exact hrest
    next => exact pairwise_cons.2 ⟨hhead, hrest⟩
  | false =>
    refine pairwise_cons.2 ⟨fun item hmem => ?_, ih hrest⟩
    rcases mem_setRights hmem with hold | rfl
    · exact hhead item hold
    · exact (aclitemMatch_comm _ _).trans hmatch

theorem Distinct.rightsOf (h : Distinct acl) (hmem : item ∈ acl)
    (hmatch : aclitemMatch modAip item = true) :
    rightsOf acl modAip = item.aiPrivs := by
  induction acl with
  | nil => exact absurd hmem not_mem_nil
  | cons head rest ih => ?_
  obtain ⟨hhead, hrest⟩ := pairwise_cons.1 h
  unfold AccessControl.rightsOf
  rcases mem_cons.1 hmem with rfl | hin
  · rw [find?_cons_of_pos hmatch]
    rfl
  have hne : aclitemMatch modAip head = false := by
    rw [aclitemMatch_congr hmatch, aclitemMatch_comm]
    exact hhead item hin
  rw [find?_cons_of_neg (by rw [hne]; exact false_ne_true)]
  exact ih hrest hin

theorem aclWeight_del_lt (h : Distinct acl) (hmem : item ∈ acl)
    (hmatch : aclitemMatch modAip item = true) (hrights : item.aiPrivs &&& modAip.aiPrivs ≠ 0) :
    aclWeight (applyChange acl modAip .del).1 < aclWeight acl := by
  have hset := aclWeight_setRights acl modAip (item.aiPrivs &&& ~~~modAip.aiPrivs)
  have hlt := weight_and_not_lt hrights
  rw [applyChange, h.rightsOf hmem hmatch] at *
  change aclWeight (setRights modAip (item.aiPrivs &&& ~~~modAip.aiPrivs) acl) < _
  omega

/-- a call that returns, with a list that is no heavier -/
def Ends (acl : Acl) (call : Except Fault Acl) : Prop :=
  ∃ acl', call = .ok acl' ∧ Distinct acl' ∧ aclWeight acl' ≤ aclWeight acl

theorem Ends.trans {acl' : Acl} {call : Except Fault Acl} (h : Ends acl' call)
    (hle : aclWeight acl' ≤ aclWeight acl) : Ends acl call := by
  obtain ⟨result, hok, hdistinct, hweight⟩ := h
  exact ⟨result, hok, hdistinct, hweight.trans hle⟩

/-- Three units of fuel for each bit are enough. -/
theorem cascade_ends (ownerId : Oid) (fuel : ℕ) :
    (∀ acl modAip, Distinct acl → 3 * aclWeight (applyChange acl modAip .del).1 + 3 ≤ fuel →
      Ends (applyChange acl modAip .del).1 (aclupdateDel ownerId .cascade fuel acl modAip)) ∧
    (∀ acl grantee revokePrivs, Distinct acl → 3 * aclWeight acl + 2 ≤ fuel →
      Ends acl (recursiveRevoke ownerId .cascade fuel acl grantee revokePrivs)) ∧
    ∀ acl grantee revokePrivs, Distinct acl → 3 * aclWeight acl + 1 ≤ fuel →
      Ends acl (revokeLoop ownerId .cascade fuel acl grantee revokePrivs) := by
  induction fuel with
  | zero => refine ⟨?_, ?_, ?_⟩ <;> intros <;> omega
  | succ fuel ih => ?_
  obtain ⟨ihDel, ihRevoke, ihLoop⟩ := ih
  refine ⟨?_, ?_, ?_⟩
  · intro acl modAip hdistinct hfuel
    have hchanged : Distinct (applyChange acl modAip .del).1 := hdistinct.setRights
    rw [aclupdateDel]
    split
    next => exact ihRevoke _ _ _ hchanged (by omega)
    next => exact ⟨_, rfl, hchanged, le_rfl⟩
  · intro acl grantee revokePrivs hdistinct hfuel
    rw [recursiveRevoke]
    split
    next => exact ⟨acl, rfl, hdistinct, le_rfl⟩
    next =>
      simp only
      split
      next => exact ⟨acl, rfl, hdistinct, le_rfl⟩
      next => exact ihLoop _ _ _ hdistinct (by omega)
  intro acl grantee revokePrivs hdistinct hfuel
  rw [revokeLoop]
  split
  next => exact ⟨acl, rfl, hdistinct, le_rfl⟩
  rename_i aip hfind
  have hfound := find?_some hfind
  simp only [and_eq_true, decide_eq_true_eq] at hfound
  generalize hmod : (⟨aip.aiGrantee, grantee, privsGoptions revokePrivs revokePrivs⟩ : AclItem) = modAcl
  -- the entry found has a privilege to lose
  have hlt : aclWeight (applyChange acl modAcl .del).1 < aclWeight acl := by
    subst hmod
    refine aclWeight_del_lt hdistinct (mem_of_find?_eq_some hfind)
      (aclitemMatch_iff.2 ⟨rfl, hfound.1.symm⟩) ?_
    obtain ⟨k, hk⟩ := exists_bit_of_ne_zero hfound.2
    rw [aclitemGetPrivs, getLsbD_and, getLsbD_and, allPrivBits_getLsbD] at hk
    simp only [and_eq_true, decide_eq_true_eq] at hk
    intro hzero
    have hbit := congrArg (fun m : AclMode => m.getLsbD k) hzero
    simp only [getLsbD_and, privsGoptions_low _ _ hk.1.2, hk.1.1, hk.2, zero_getLsbD] at hbit
    exact absurd hbit.symm false_ne_true
  obtain ⟨newAcl, hok, hnew, hweight⟩ := ihDel acl modAcl hdistinct (by omega)
  simp only [hok]
  exact (ihLoop _ _ _ hnew (by omega)).trans (by omega)

theorem zapLoop_ends (ownerId grantee : Oid) {fuel : ℕ} (rounds : ℕ) (hdistinct : Distinct acl)
    (hrounds : aclWeight acl + 1 ≤ rounds) (hfuel : 3 * aclWeight acl + 3 ≤ fuel) :
    ∃ acl', zapLoop ownerId grantee fuel rounds acl = .ok acl' := by
  induction rounds generalizing acl with
  | zero => omega
  | succ rounds ih => ?_
  rw [zapLoop]
  split
  next => exact ⟨acl, rfl⟩
  rename_i aip hfind
  have hfound := find?_some hfind
  simp only [and_eq_true, decide_eq_true_eq] at hfound
  have hlt : aclWeight (applyChange acl aip .del).1 < aclWeight acl := by
    apply aclWeight_del_lt hdistinct (mem_of_find?_eq_some hfind) (aclitemMatch_iff.2 ⟨rfl, rfl⟩)
    rw [BitVec.and_self]
    rintro hzero
    apply hfound.2
    rw [aclitemGetGoptions, hzero]
    decide
  obtain ⟨newAcl, hok, hnew, hweight⟩ := (cascade_ends ownerId fuel).1 acl aip hdistinct (by omega)
  rw [hok]
  exact ih hnew (by omega) (by omega)

/-- The length of the list bounds its weight before and after the change of one entry. -/
theorem aclWeight_change_le (acl : Acl) (modAip : AclItem) (modechg : ModeChg) :
    aclWeight (applyChange acl modAip modechg).1 ≤ 32 * acl.length + 32 := by
  unfold applyChange
  dsimp only
  generalize changeRights modechg (rightsOf acl modAip) modAip.aiPrivs = rights
  have hset := aclWeight_setRights acl modAip rights
  have hacl := aclWeight_le acl
  have hnew := weight_le rights
  omega

theorem checkCircularity_ends (hdistinct : Distinct acl) (modAip : AclItem) :
    checkCircularity ownerId (aclFuel acl) acl modAip ≠ .error .diverges := by
  have hweight := aclWeight_le acl
  unfold checkCircularity
  split
  next => exact nofun
  obtain ⟨acl', hok⟩ := zapLoop_ends ownerId modAip.aiGrantee (aclFuel acl) hdistinct
    (by unfold aclFuel; omega) (show 3 * aclWeight acl + 3 ≤ aclFuel acl by unfold aclFuel; omega)
  simp only [hok]
  split
  next => exact nofun
  next => exact nofun

/-- No call of `aclupdate` runs forever, and the entries stay distinct. -/
theorem aclupdate_ends (ownerId : Oid) (hdistinct : Distinct acl) (modAip : AclItem)
    (modechg : ModeChg) :
    aclupdate acl modAip modechg ownerId .cascade ≠ .error .diverges ∧
      ∀ acl', aclupdate acl modAip modechg ownerId .cascade = .ok acl' → Distinct acl' := by
  have hchanged : Distinct (applyChange acl modAip modechg).1 := hdistinct.setRights
  have hweight := aclWeight_change_le acl modAip modechg
  unfold aclupdate
  generalize applyChange acl modAip modechg = changed at *
  have hchange :
    ∃ acl',
    (if changed.2 ≠ 0 then
      recursiveRevoke ownerId .cascade (aclFuel acl) changed.1 modAip.aiGrantee changed.2
      else .ok changed.1) = .ok acl' ∧ Distinct acl' := by
    split
    next =>
      obtain ⟨acl', hok, hnew, -⟩ := (cascade_ends ownerId (aclFuel acl)).2.1 _ modAip.aiGrantee
        changed.2 hchanged (by unfold aclFuel; omega)
      exact ⟨acl', hok, hnew⟩
    next => exact ⟨_, rfl, hchanged⟩
  obtain ⟨result, hok, hresult⟩ := hchange
  simp only [hok]
  split
  next =>
    cases hcheck : checkCircularity ownerId (aclFuel acl) acl modAip with
    | error e =>
      exact ⟨fun h =>
        checkCircularity_ends hdistinct modAip (hcheck.trans (congrArg error (error.inj h))), nofun⟩
    | ok _ => exact ⟨nofun, fun acl' h => ok.inj h ▸ hresult⟩
  next => exact ⟨nofun, fun acl' h => ok.inj h ▸ hresult⟩

end Pg.AccessControl
