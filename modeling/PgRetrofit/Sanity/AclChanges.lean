import PgRetrofit.Lib.Rooted
import PgRetrofit.Spec.Acl

/-! What the pieces of `aclupdate` do to the bits of an access control list: the change of one entry,
the question who holds what, and the cascade that follows when grant options are lost. -/

namespace Pg.AccessControl

open List
open BitVec (getLsbD_and getLsbD_or)

variable {acl : Acl} {modAip item : AclItem} {rights m mask : AclMode} {x y ownerId roleid : Oid}
  {b k : ℕ} {how : AclMaskHow}

theorem zero_getLsbD (k : ℕ) : (0 : AclMode).getLsbD k = false := BitVec.getLsbD_zero

theorem not_zero_getLsbD {k : ℕ} : ¬ (0 : AclMode).getLsbD k = true := by simp

theorem allPrivBits_getLsbD (k : ℕ) : aclitemAllPrivBits.getLsbD k = decide (k < 16) := by
  by_cases hk : k < 32
  · revert k
    decide
  · rw [BitVec.getLsbD_of_ge _ _ (by omega)]
    exact (decide_eq_false (by omega)).symm

variable (m)

theorem aclOptionToPrivs_getLsbD (hb : b < 16) :
    (aclOptionToPrivs m).getLsbD b = m.getLsbD (b + 16) := by
  rw [aclOptionToPrivs, getLsbD_and, allPrivBits_getLsbD, decide_eq_true hb, Bool.and_true,
    BitVec.getLsbD_ushiftRight, Nat.add_comm]

theorem aclOptionToPrivs_high (hk : ¬ k < 16) : (aclOptionToPrivs m).getLsbD k = false := by
  rw [aclOptionToPrivs, getLsbD_and, allPrivBits_getLsbD, decide_eq_false hk, Bool.and_false]

theorem aclitemGetPrivs_getLsbD (item : AclItem) (hb : b < 16) :
    (aclitemGetPrivs item).getLsbD b = item.aiPrivs.getLsbD b := by
  rw [aclitemGetPrivs, getLsbD_and, allPrivBits_getLsbD, decide_eq_true hb, Bool.and_true]

theorem aclGrantOptionFor_getLsbD (hb : b < 16) :
    (aclGrantOptionFor m).getLsbD (b + 16) = m.getLsbD b := by
  rw [aclGrantOptionFor, BitVec.getLsbD_shiftLeft, getLsbD_and, allPrivBits_getLsbD]
  simp [hb]
  omega

theorem privsGoptions_low (p g : AclMode) (hb : b < 16) :
    (privsGoptions p g).getLsbD b = p.getLsbD b := by
  rw [privsGoptions, getLsbD_or, getLsbD_and, allPrivBits_getLsbD]
  simp [hb]

theorem privsGoptions_high (p g : AclMode) (hb : b < 16) :
    (privsGoptions p g).getLsbD (b + 16) = g.getLsbD b := by
  rw [privsGoptions, getLsbD_or, getLsbD_and, allPrivBits_getLsbD, BitVec.getLsbD_shiftLeft,
    getLsbD_and, allPrivBits_getLsbD]
  have h32 : b + 16 < 32 := by omega
  have h16 : ¬ b + 16 < 16 := by omega
  simp [hb, h32, h16]

theorem aclitemMatch_iff {a1 a2 : AclItem} : aclitemMatch a1 a2 = true ↔ a1.aiGrantee = a2.aiGrantee ∧
    a1.aiGrantor = a2.aiGrantor := by
  simp [aclitemMatch]

theorem rightsOf_cases (acl : Acl) (modAip : AclItem) : rightsOf acl modAip = 0 ∨
      ∃ item ∈ acl, item.aiGrantor = modAip.aiGrantor ∧ item.aiGrantee = modAip.aiGrantee ∧
        item.aiPrivs = rightsOf acl modAip := by
  unfold rightsOf
  cases hfind : acl.find? (aclitemMatch modAip) with
  | none => exact .inl rfl
  | some item =>
    obtain ⟨hgrantee, hgrantor⟩ := aclitemMatch_iff.1 (find?_some hfind)
    exact .inr ⟨item, mem_of_find?_eq_some hfind, hgrantor.symm, hgrantee.symm, rfl⟩

theorem carries_of_rightsOf (h : (rightsOf acl modAip).getLsbD k = true) :
    Carries acl modAip.aiGrantor modAip.aiGrantee k := by
  rcases rightsOf_cases acl modAip with hzero | ⟨item, hmem, hgrantor, hgrantee, hrights⟩
  · rw [hzero, zero_getLsbD] at h
    exact absurd h Bool.false_ne_true
  · exact ⟨item, hmem, hgrantor, hgrantee, hrights ▸ h⟩

theorem mem_setRights (h : item ∈ setRights modAip rights acl) :
    item ∈ acl ∨ item = { modAip with aiPrivs := rights } := by
  induction acl with
  | nil =>
    unfold setRights at h
    split at h
    next => exact .inl h
    next => exact .inr (mem_singleton.1 h)
  | cons head rest ih => ?_
  unfold setRights at h
  split at h
  next hmatch =>
    obtain ⟨hgrantee, hgrantor⟩ := aclitemMatch_iff.1 hmatch
    split at h
    next => exact .inl (mem_cons_of_mem _ h)
    next =>
      rcases mem_cons.1 h with rfl | hrest
      · right
        rw [hgrantee, hgrantor]
      · exact .inl (mem_cons_of_mem _ hrest)
  next =>
    rcases mem_cons.1 h with rfl | hrest
    · exact .inl mem_cons_self
    · exact (ih hrest).imp_left (mem_cons_of_mem _)

theorem mem_setRights_of_mem (modAip : AclItem) (rights : AclMode) (h : item ∈ acl) :
    item ∈ setRights modAip rights acl ∨
      (item.aiGrantor = modAip.aiGrantor ∧ item.aiGrantee = modAip.aiGrantee ∧
        item.aiPrivs = rightsOf acl modAip) := by
  induction acl with
  | nil => exact absurd h not_mem_nil
  | cons head rest ih => ?_
  unfold setRights rightsOf
  cases hmatch : aclitemMatch modAip head with
  | true =>
    obtain ⟨hgrantee, hgrantor⟩ := aclitemMatch_iff.1 hmatch
    rw [if_pos rfl, find?_cons_of_pos hmatch]
    rcases mem_cons.1 h with rfl | hrest
    · exact .inr ⟨hgrantor.symm, hgrantee.symm, rfl⟩
    left
    split
    next => exact hrest
    next => exact mem_cons_of_mem _ hrest
  | false =>
    rw [find?_cons_of_neg (by rw [hmatch]; exact Bool.false_ne_true)]
    rcases mem_cons.1 h with rfl | hrest
    · exact .inl mem_cons_self
    · exact (ih hrest).imp_left (mem_cons_of_mem _)

theorem mem_setRights_self (h : rights ≠ 0) :
    { modAip with aiPrivs := rights } ∈ setRights modAip rights acl := by
  induction acl with
  | nil =>
    rw [setRights, if_neg h]
    exact mem_singleton.2 rfl
  | cons head rest ih => ?_
  rw [setRights]
  split
  next hmatch =>
    obtain ⟨hgrantee, hgrantor⟩ := aclitemMatch_iff.1 hmatch
    rw [hgrantee, hgrantor]
    exact mem_cons_self
  next => exact mem_cons_of_mem _ ih

theorem carries_setRights_self (h : rights.getLsbD k = true) :
    Carries (setRights modAip rights acl) modAip.aiGrantor modAip.aiGrantee k := by
  have hne : rights ≠ 0 := by
    rintro rfl
    exact not_zero_getLsbD h
  exact ⟨_, mem_setRights_self hne, rfl, rfl, h⟩

theorem carries_of_setRights (h : Carries (setRights modAip rights acl) x y k) :
    Carries acl x y k ∨ (x = modAip.aiGrantor ∧ y = modAip.aiGrantee ∧ rights.getLsbD k = true) := by
  obtain ⟨item, hmem, hx, hy, hbit⟩ := h
  rcases mem_setRights hmem with hold | rfl
  · exact .inl ⟨item, hold, hx, hy, hbit⟩
  · exact .inr ⟨hx.symm, hy.symm, hbit⟩

theorem carries_setRights (modAip : AclItem) (rights : AclMode) (h : Carries acl x y k) :
    Carries (setRights modAip rights acl) x y k ∨
      (x = modAip.aiGrantor ∧ y = modAip.aiGrantee ∧ (rightsOf acl modAip).getLsbD k = true ∧
        rights.getLsbD k = false) := by
  obtain ⟨item, hmem, hx, hy, hbit⟩ := h
  rcases mem_setRights_of_mem modAip rights hmem with hnew | ⟨hgrantor, hgrantee, hrights⟩
  · exact .inl ⟨item, hnew, hx, hy, hbit⟩
  rw [← hx, ← hy, hgrantor, hgrantee]
  cases hk : rights.getLsbD k with
  | true => exact .inl (carries_setRights_self hk)
  | false => exact .inr ⟨rfl, rfl, hrights ▸ hbit, rfl⟩

theorem applyChange_add_carries : Carries (applyChange acl modAip .add).1 x y k ↔
      Carries acl x y k ∨
      (x = modAip.aiGrantor ∧ y = modAip.aiGrantee ∧ modAip.aiPrivs.getLsbD k = true) := by
  have hbit : (rightsOf acl modAip ||| modAip.aiPrivs).getLsbD k =
      ((rightsOf acl modAip).getLsbD k || modAip.aiPrivs.getLsbD k) :=
    getLsbD_or
  constructor
  · intro h
    rcases carries_of_setRights h with hold | ⟨rfl, rfl, hnew⟩
    · exact .inl hold
    · rcases Bool.or_eq_true_iff.1 (hbit.symm.trans hnew) with hr | hm
      · exact .inl (carries_of_rightsOf hr)
      · exact .inr ⟨rfl, rfl, hm⟩
  · rintro (hold | ⟨rfl, rfl, hm⟩)
    · rcases carries_setRights modAip (rightsOf acl modAip ||| modAip.aiPrivs) hold
        with hnew | ⟨-, -, hr, hlost⟩
      · exact hnew
      · rw [hbit, hr] at hlost
        exact absurd hlost.symm Bool.false_ne_true
    · exact carries_setRights_self (hbit.trans (by rw [hm, Bool.or_true]))

theorem applyChange_add_lost : (applyChange acl modAip .add).2 = 0 := by
  apply BitVec.eq_of_getLsbD_eq
  intro k hk
  change (aclOptionToPrivs _ &&& ~~~aclOptionToPrivs (_ ||| _)).getLsbD k = _
  rw [getLsbD_and, BitVec.getLsbD_not, zero_getLsbD]
  by_cases hlow : k < 16
  · rw [aclOptionToPrivs_getLsbD _ hlow, aclOptionToPrivs_getLsbD _ hlow, getLsbD_or]
    cases (rightsOf acl modAip).getLsbD (k + 16) <;> simp
  · rw [aclOptionToPrivs_high _ hlow, Bool.false_and]

theorem applyChange_del_carries (h : Carries (applyChange acl modAip .del).1 x y k) :
    Carries acl x y k := by
  rcases carries_of_setRights h with hold | ⟨rfl, rfl, hnew⟩
  · exact hold
  · change (rightsOf acl modAip &&& ~~~modAip.aiPrivs).getLsbD k = true at hnew
    rw [getLsbD_and, Bool.and_eq_true] at hnew
    exact carries_of_rightsOf hnew.1

theorem applyChange_del_passes (modAip : AclItem) (hb : b < 16) (h : Passes acl b x y) :
    Passes (applyChange acl modAip .del).1 b x y ∨
      (y = modAip.aiGrantee ∧ (applyChange acl modAip .del).2.getLsbD b = true) := by
  rcases carries_setRights modAip (changeRights .del (rightsOf acl modAip) modAip.aiPrivs) h
    with hnew | ⟨-, rfl, hold, hlost⟩
  · exact .inl hnew
  refine .inr ⟨rfl, ?_⟩
  change (aclOptionToPrivs _ &&& ~~~aclOptionToPrivs _).getLsbD b = true
  rw [getLsbD_and, BitVec.getLsbD_not, aclOptionToPrivs_getLsbD _ hb,
    aclOptionToPrivs_getLsbD _ hb, hold, hlost]
  simp
  omega

theorem maskLoop_bit {counts : Oid → Bool} {result : AclMode}
    (h : (maskLoop counts mask how acl result).1.getLsbD k = true) :
    result.getLsbD k = true ∨ ∃ z y, counts y = true ∧ Carries acl z y k := by
  induction acl generalizing result with
  | nil => exact .inl h
  | cons aidata rest ih => ?_
  have hlift : (∃ z y, counts y = true ∧ Carries rest z y k) →
      ∃ z y, counts y = true ∧ Carries (aidata :: rest) z y k := by
    rintro ⟨z, y, hy, item, hmem, hitem⟩
    exact ⟨z, y, hy, item, mem_cons_of_mem _ hmem, hitem⟩
  unfold maskLoop at h
  split at h
  next hcounts =>
    have hadded : (result ||| (aidata.aiPrivs &&& mask)).getLsbD k = true →
        result.getLsbD k = true ∨ ∃ z y, counts y = true ∧ Carries (aidata :: rest) z y k := by
      intro hbit
      rw [getLsbD_or, getLsbD_and, Bool.or_eq_true, Bool.and_eq_true] at hbit
      exact hbit.imp_right fun hhere => ⟨_, _, hcounts, aidata, mem_cons_self, rfl, rfl, hhere.1⟩
    simp only at h
    split at h
    next => exact hadded h
    next => exact (ih h).elim hadded fun hrest => .inr (hlift hrest)
  next => exact (ih h).imp_right hlift

theorem maskIndirectLoop_eq {result remaining : AclMode} :
    maskIndirectLoop roleid mask how acl result remaining = result := by
  induction acl generalizing result remaining with
  | nil => rfl
  | cons aidata rest ih => ?_
  unfold maskIndirectLoop
  split
  next => exact ih
  next hto =>
    have hrole : hasPrivsOfRole roleid aidata.aiGrantee = false := by
      simp only [Bool.or_eq_true, decide_eq_true_eq, not_or] at hto
      exact decide_eq_false fun heq => hto.2 heq.symm
    rw [hrole, Bool.and_false]
    exact ih

/-- What `aclmask` reports for a role other than the owner stands in an entry for it or for public. -/
theorem aclmask_bit (hrole : roleid ≠ ownerId)
    (h : (aclmask acl roleid ownerId mask how).getLsbD k = true) :
    ∃ z y, (y = aclIdPublic ∨ y = roleid) ∧ Carries acl z y k := by
  have howner : hasPrivsOfRole roleid ownerId = false := decide_eq_false hrole
  unfold aclmask at h
  split at h
  next =>
    exact absurd h not_zero_getLsbD
  next =>
    simp only [howner, Bool.and_false, Bool.false_and, if_neg Bool.false_ne_true,
      maskIndirectLoop_eq, ite_self] at h
    rcases maskLoop_bit h with hzero | ⟨z, y, hy, hcarried⟩
    · exact absurd hzero not_zero_getLsbD
    · exact ⟨z, y, by simpa using hy, hcarried⟩

/-- An entitled grantor other than the owner holds the grant options itself. -/
theorem Grant.Entitled.holds {g : Grant} (h : g.Entitled ownerId acl)
    (hrole : g.grantorId ≠ ownerId) (hb : b < 16) (hbit : g.privileges.getLsbD b = true) :
    ∃ z, Passes acl b z g.grantorId := by
  have hmask : (aclmaskDirect acl g.grantorId ownerId (aclGrantOptionFor g.privileges) .all).getLsbD
      (b + 16) = true := by
    rw [h, aclGrantOptionFor_getLsbD _ hb, hbit]
  unfold aclmaskDirect at hmask
  split at hmask
  next =>
    exact absurd hmask not_zero_getLsbD
  next =>
    simp only [decide_eq_false hrole, Bool.and_false, Bool.false_and, if_neg Bool.false_ne_true] at hmask
    rcases maskLoop_bit hmask with hzero | ⟨z, y, hy, hcarried⟩
    · exact absurd hzero not_zero_getLsbD
    · exact ⟨z, of_decide_eq_true hy ▸ hcarried⟩

end Pg.AccessControl
