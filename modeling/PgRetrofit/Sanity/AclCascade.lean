import PgRetrofit.Sanity.AclChanges

/-! The cascading revoke restores support: while it runs, the only entries that may lack the grant
option they rest on are those by a grantor that a pending call is about to deal with. -/

namespace Pg.AccessControl

open BitVec Bool

variable {acl acl' acl'' : Acl} {modAip : AclItem} {ownerId grantee : Oid} {revokePrivs rights : AclMode}
  {behavior : DropBehavior}

/-- A non-owner's grant option comes with the privilege, and public has no grant options. -/
structure ItemOk (ownerId : Oid) (item : AclItem) : Prop where
  option_privilege : item.aiGrantor ≠ ownerId →
    ∀ b < 16, item.aiPrivs.getLsbD (b + 16) = true → item.aiPrivs.getLsbD b = true
  public_options : item.aiGrantee = aclIdPublic → ∀ b < 16, item.aiPrivs.getLsbD (b + 16) = false

/-- Each grantor is the owner or holds the grant option, but for the pairs in `pending`. -/
def LocalSupport (ownerId : Oid) (acl : Acl) (pending : Oid → ℕ → Prop) : Prop :=
  ∀ x y, ∀ b < 16, Carries acl x y b ∨ Passes acl b x y → x = ownerId ∨
    (∃ z, Passes acl b z x) ∨ pending x b

/-- `acl'` is what is left of `acl` after some revoking. -/
structure Left (ownerId : Oid) (pending : Oid → ℕ → Prop) (acl acl' : Acl) : Prop where
  items : ∀ item ∈ acl', ItemOk ownerId item
  support : LocalSupport ownerId acl' pending
  shrinks : ∀ x y k, Carries acl' x y k → Carries acl x y k

variable {pending : Oid → ℕ → Prop}

theorem Left.trans {pending' : Oid → ℕ → Prop} (h : Left ownerId pending' acl acl')
    (h' : Left ownerId pending acl' acl'') :
    Left ownerId pending acl acl'' :=
  ⟨h'.items, h'.support, fun x y k hc => h.shrinks x y k (h'.shrinks x y k hc)⟩

/-- the entries of a grantor that has lost some grant options -/
def orLost (pending : Oid → ℕ → Prop) (grantee : Oid) (lost : AclMode) (x : Oid) (b : ℕ) : Prop :=
  pending x b ∨ (x = grantee ∧ lost.getLsbD b = true)

variable (hitems : ∀ item ∈ acl, ItemOk ownerId item)
include hitems

theorem items_setRights (hnew : ItemOk ownerId { modAip with aiPrivs := rights }) :
    ∀ item ∈ setRights modAip rights acl, ItemOk ownerId item := by
  intro item hmem
  rcases mem_setRights hmem with hold | rfl
  · exact hitems item hold
  · exact hnew

theorem itemOk_rightsOf (modAip : AclItem) :
    ItemOk ownerId { modAip with aiPrivs := rightsOf acl modAip } := by
  rcases rightsOf_cases acl modAip with hzero | ⟨item, hmem, hgrantor, hgrantee, hrights⟩
  · rw [hzero]
    constructor
    · intro _ b _ hbit
      exact absurd hbit not_zero_getLsbD
    · intro _ b _
      exact zero_getLsbD _
  · have hok := hitems item hmem
    rw [← hrights, ← hgrantor, ← hgrantee]
    exact ⟨hok.option_privilege, hok.public_options⟩

/-- Revoking a privilege together with its grant option keeps the entries in order. -/
theorem items_applyChange_del
    (hmod : ∀ b < 16, modAip.aiPrivs.getLsbD b = true → modAip.aiPrivs.getLsbD (b + 16) = true) :
    ∀ item ∈ (applyChange acl modAip .del).1, ItemOk ownerId item := by
  have hold := itemOk_rightsOf hitems modAip
  apply items_setRights hitems
  constructor
  · intro hgrantor b hb hbit
    change (rightsOf acl modAip &&& ~~~modAip.aiPrivs).getLsbD (b + 16) = true at hbit
    change (rightsOf acl modAip &&& ~~~modAip.aiPrivs).getLsbD b = true
    rw [getLsbD_and, getLsbD_not, and_eq_true, and_eq_true, not_eq_true'] at hbit
    have hpriv := hold.option_privilege hgrantor b hb hbit.1
    have hkept : modAip.aiPrivs.getLsbD b = false :=
      eq_false_iff.2 fun hgone => false_ne_true (hbit.2.2.symm.trans (hmod b hb hgone))
    rw [getLsbD_and, getLsbD_not, hpriv, hkept]
    simp
    omega
  · intro hgrantee b hb
    change (rightsOf acl modAip &&& ~~~modAip.aiPrivs).getLsbD (b + 16) = false
    rw [getLsbD_and, hold.public_options hgrantee b hb, Bool.false_and]

/-- The change itself leaves unsupported only what rests on the options it took away. -/
theorem applyChange_del_left (hsupport : LocalSupport ownerId acl pending)
    (hmod : ∀ b < 16, modAip.aiPrivs.getLsbD b = true → modAip.aiPrivs.getLsbD (b + 16) = true) :
    Left ownerId (orLost pending modAip.aiGrantee (applyChange acl modAip .del).2) acl
      (applyChange acl modAip .del).1 := by
  refine ⟨items_applyChange_del hitems hmod, ?_, fun x y k => applyChange_del_carries⟩
  intro x y b hb hcarried
  have hbefore := hcarried.imp applyChange_del_carries applyChange_del_carries
  rcases hsupport x y b hb hbefore with howner | ⟨z, hz⟩ | hpending
  · exact .inl howner
  · rcases applyChange_del_passes modAip hb hz with hkept | hlost
    · exact .inr (.inl ⟨z, hkept⟩)
    · exact .inr (.inr (.inr hlost))
  · exact .inr (.inr (.inl hpending))

/-- What the role still holds from another grantor needs no revoking. -/
theorem LocalSupport.still (hgrantee : grantee ≠ ownerId)
    (h : LocalSupport ownerId acl (orLost pending grantee revokePrivs)) :
    LocalSupport ownerId acl
      (orLost pending grantee (revokePrivs &&&
        ~~~aclOptionToPrivs (aclmask acl grantee ownerId (aclGrantOptionFor revokePrivs) .all))) := by
  intro x y b hb hcarried
  rcases h x y b hb hcarried with howner | hz | hpending | ⟨rfl, hrevoke⟩
  · exact .inl howner
  · exact .inr (.inl hz)
  · exact .inr (.inr (.inl hpending))
  · cases hmask : (aclmask acl x ownerId (aclGrantOptionFor revokePrivs) .all).getLsbD (b + 16) with
    | false =>
      refine .inr (.inr (.inr ⟨rfl, ?_⟩))
      rw [getLsbD_and, getLsbD_not, aclOptionToPrivs_getLsbD _ hb, hmask, hrevoke]
      simp
      omega
    | true =>
      obtain ⟨z, y', hy' | hy', item, hmem, hgrantor, hto, hbit⟩ := aclmask_bit hgrantee hmask
      · have hnone := (hitems item hmem).public_options (hto.trans hy') b hb
        exact absurd (hnone.symm.trans hbit) false_ne_true
      · exact .inr (.inl ⟨z, item, hmem, hgrantor, hto.trans hy', hbit⟩)

omit hitems

/-- Nothing hangs on the owner's losses, or on no losses. -/
theorem LocalSupport.resolve (h : LocalSupport ownerId acl (orLost pending grantee revokePrivs))
    (hnone : grantee = ownerId ∨ revokePrivs = 0) :
    LocalSupport ownerId acl pending := by
  intro x y b hb hcarried
  rcases h x y b hb hcarried with howner | hz | hpending | ⟨rfl, hbit⟩
  · exact .inl howner
  · exact .inr (.inl hz)
  · exact .inr (.inr hpending)
  · rcases hnone with howner | hzero
    · exact .inl howner
    · rw [hzero, zero_getLsbD] at hbit
      exact absurd hbit false_ne_true

/-- When nothing granted by the role is left to revoke, it is no longer pending. -/
theorem LocalSupport.done (hitems : ∀ item ∈ acl, ItemOk ownerId item)
    (h : LocalSupport ownerId acl (orLost pending grantee revokePrivs))
    (hnone : acl.find? (fun aip => aip.aiGrantor = grantee && aclitemGetPrivs aip &&& revokePrivs ≠ 0) =
      none) :
    LocalSupport ownerId acl pending := by
  intro x y b hb hcarried
  rcases h x y b hb hcarried with howner | hz | hpending | ⟨rfl, hrevoke⟩
  · exact .inl howner
  · exact .inr (.inl hz)
  · exact .inr (.inr hpending)
  · by_cases howner : x = ownerId
    · exact .inl howner
    -- the entry would have been found: its option comes with the privilege
    have hentry : ∃ item ∈ acl, item.aiGrantor = x ∧ item.aiPrivs.getLsbD b = true := by
      rcases hcarried with ⟨item, hmem, hx, -, hbit⟩ | ⟨item, hmem, hx, -, hbit⟩
      · exact ⟨item, hmem, hx, hbit⟩
      · exact ⟨item, hmem, hx, (hitems item hmem).option_privilege (hx ▸ howner) b hb hbit⟩
    obtain ⟨item, hmem, hx, hbit⟩ := hentry
    have hnot := List.find?_eq_none.1 hnone item hmem
    refine absurd ?_ hnot
    simp only [and_eq_true, decide_eq_true_eq]
    refine ⟨hx, fun hzero => ?_⟩
    have := congrArg (fun m : AclMode => m.getLsbD b) hzero
    simp only [getLsbD_and, aclitemGetPrivs_getLsbD item hb, hbit, hrevoke, zero_getLsbD] at this
    exact absurd this.symm false_ne_true

theorem cascade_left (fuel : ℕ) :
    (∀ acl modAip acl' pending, (∀ item ∈ acl, ItemOk ownerId item) → LocalSupport ownerId acl pending →
      (∀ b < 16, modAip.aiPrivs.getLsbD b = true → modAip.aiPrivs.getLsbD (b + 16) = true) →
      aclupdateDel ownerId behavior fuel acl modAip = .ok acl' → Left ownerId pending acl acl') ∧
    (∀ acl grantee revokePrivs acl' pending, (∀ item ∈ acl, ItemOk ownerId item) →
      LocalSupport ownerId acl (orLost pending grantee revokePrivs) →
      recursiveRevoke ownerId behavior fuel acl grantee revokePrivs = .ok acl' →
        Left ownerId pending acl acl') ∧
    ∀ acl grantee revokePrivs acl' pending, (∀ item ∈ acl, ItemOk ownerId item) →
      LocalSupport ownerId acl (orLost pending grantee revokePrivs) →
      revokeLoop ownerId behavior fuel acl grantee revokePrivs = .ok acl' →
      Left ownerId pending acl acl' := by
  induction fuel with
  | zero => refine ⟨?_, ?_, ?_⟩ <;> intros <;> contradiction
  | succ fuel ih => ?_
  obtain ⟨ihDel, ihRevoke, ihLoop⟩ := ih
  refine ⟨?_, ?_, ?_⟩
  · intro acl modAip acl' pending hitems hsupport hmod h
    rw [aclupdateDel] at h
    have hchange := applyChange_del_left hitems hsupport hmod
    split at h
    next => exact hchange.trans (ihRevoke _ _ _ _ _ hchange.items hchange.support h)
    next hlost =>
      cases h
      exact ⟨hchange.items, hchange.support.resolve (.inr (not_not.1 hlost)), hchange.shrinks⟩
  · intro acl grantee revokePrivs acl' pending hitems hsupport h
    rw [recursiveRevoke] at h
    split at h
    next howner =>
      cases h
      exact ⟨hitems, hsupport.resolve (.inl howner), fun _ _ _ hc => hc⟩
    rename_i howner
    have hstill := hsupport.still hitems howner
    simp only at h
    split at h
    next hzero =>
      cases h
      exact ⟨hitems, hstill.resolve (.inr hzero), fun _ _ _ hc => hc⟩
    next => exact ihLoop _ _ _ _ _ hitems hstill h
  intro acl grantee revokePrivs acl' pending hitems hsupport h
  rw [revokeLoop] at h
  split at h
  next hnone =>
    cases h
    exact ⟨hitems, hsupport.done hitems hnone, fun _ _ _ hc => hc⟩
  rename_i aip hfind
  split at h
  next => exact nomatch h
  simp only at h
  split at h
  next => exact nomatch h
  next newAcl hnew =>
    have hstep := ihDel _ _ _ _ hitems hsupport (fun b hb hbit => by
      rw [privsGoptions_high _ _ hb]
      rwa [privsGoptions_low _ _ hb] at hbit) hnew
    exact hstep.trans (ihLoop _ _ _ _ _ hstep.items hstep.support h)

end Pg.AccessControl
