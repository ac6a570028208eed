import PgRetrofit.Sanity.AclCascade
import PgRetrofit.Sanity.AclEnds

/-! Runs of `GRANT` and `REVOKE … CASCADE`: as long as no grant option is passed back along a chain
it came by, every privilege rests on a chain that starts at the owner. A change of owner merges the
entries that become one. -/

namespace Pg.AccessControl

open Relation

variable {acl acl' : Acl} {ownerId : Oid} {g : Grant} {steps : List Grant}

instance : Finite Oid := Finite.of_injective UInt32.toFin fun _ _ h => UInt32.toFin_inj.1 h

/-- chains of grant options among roles other than the owner -/
def PassesOn (ownerId : Oid) (acl : Acl) (b : ℕ) : Oid → Oid → Prop :=
  Rooted.OffRoot (Passes acl b) ownerId

structure Inv (ownerId : Oid) (acl : Acl) : Prop where
  items : ∀ item ∈ acl, ItemOk ownerId item
  support : LocalSupport ownerId acl fun _ _ => False
  acyclic : ∀ b < 16, Rooted.Acyclic (PassesOn ownerId acl b)

theorem Inv.supported (h : Inv ownerId acl) : Supported ownerId acl := by
  intro x y b hb hcarried
  apply Rooted.reaches (P := fun x => ∃ y, Carries acl x y b ∨ Passes acl b x y) (h.acyclic b hb)
  · rintro x ⟨y, hxy⟩
    rcases h.support x y b hb hxy with howner | ⟨z, hz⟩ | hfalse
    · exact .inl howner
    · exact .inr ⟨z, hz, x, .inr hz⟩
    · exact hfalse.elim
  · exact ⟨y, hcarried⟩

/-- The owner is the only grantor, and has given public no grant options. -/
structure Start (ownerId : Oid) (acl : Acl) : Prop where
  grantors : ∀ item ∈ acl, item.aiGrantor = ownerId
  public_options : ∀ item ∈ acl, item.aiGrantee = aclIdPublic → aclitemGetGoptions item = 0

theorem Start.inv (h : Start ownerId acl) : Inv ownerId acl where
  items item hmem := by
    refine ⟨fun hne => absurd (h.grantors item hmem) hne, fun hpublic b hb => ?_⟩
    rw [← aclOptionToPrivs_getLsbD _ hb]
    exact (congrArg (fun m : AclMode => m.getLsbD b) (h.public_options item hmem hpublic)).trans
      (zero_getLsbD b)
  support := by
    rintro x y b _ (⟨item, hmem, hx, -⟩ | ⟨item, hmem, hx, -⟩)
    all_goals exact .inl (hx ▸ h.grantors item hmem)
  acyclic b _ x hx := by
    obtain ⟨y, ⟨⟨item, hmem, hgrantor, -⟩, hne, -⟩, -⟩ := TransGen.head'_iff.1 hx
    exact hne (hgrantor ▸ h.grantors item hmem)

theorem Inv.left (h : Inv ownerId acl) (hleft : Left ownerId (fun _ _ => False) acl acl') :
    Inv ownerId acl' where
  items := hleft.items
  support := hleft.support
  acyclic b hb := (h.acyclic b hb).mono fun x y hxy => ⟨hleft.shrinks x y _ hxy.1, hxy.2⟩

theorem Inv.revoke (h : Inv ownerId acl) (hrevoke : g.isGrant = false)
    (hok : mergeGrantee acl .cascade ownerId g = .ok acl') : Inv ownerId acl' := by
  have hmod : ∀ b < 16, g.aclitem.aiPrivs.getLsbD b = true →
      g.aclitem.aiPrivs.getLsbD (b + 16) = true := by
    intro b hb hbit
    simp only [Grant.aclitem, privsGoptions_low _ _ hb, privsGoptions_high _ _ hb, hrevoke] at hbit ⊢
    cases hoption : g.grantOption with
    | false => simpa [hoption] using hbit
    | true => simp [hoption] at hbit
  have hupdate : aclupdate acl g.aclitem .del ownerId .cascade = .ok acl' := by
    simpa [mergeGrantee, hrevoke] using hok
  have hchange := applyChange_del_left h.items h.support hmod
  have hcall : (if (applyChange acl g.aclitem .del).2 ≠ 0 then
      recursiveRevoke ownerId .cascade (aclFuel acl)
        (applyChange acl g.aclitem .del).1 g.aclitem.aiGrantee (applyChange acl g.aclitem .del).2
      else .ok (applyChange acl g.aclitem .del).1) = .ok acl' := by
    simpa [aclupdate] using hupdate
  split at hcall
  next =>
    exact h.left (hchange.trans ((cascade_left _).2.1 _ _ _ _ _ hchange.items hchange.support hcall))
  next hlost =>
    cases hcall
    exact h.left ⟨hchange.items, hchange.support.resolve (.inr (not_not.1 hlost)), hchange.shrinks⟩

theorem mergeGrantee_grant (hgrant : g.isGrant = true)
    (hok : mergeGrantee acl .cascade ownerId g = .ok acl') :
    acl' = (applyChange acl g.aclitem .add).1 ∧ ¬ (g.grantOption = true ∧ g.grantee = aclIdPublic) := by
  unfold mergeGrantee at hok
  rw [hgrant] at hok
  split at hok
  next => exact nomatch hok
  rename_i hpublic
  refine ⟨?_, fun hboth => hpublic (by simp [hboth.1, hboth.2])⟩
  rw [if_pos rfl, aclupdate] at hok
  simp only [applyChange_add_lost, ne_eq, not_true_eq_false, if_false] at hok
  split at hok
  next =>
    cases hcheck : checkCircularity ownerId (aclFuel acl) acl g.aclitem with
    | error e => rw [hcheck] at hok; exact nomatch hok
    | ok _ => rw [hcheck] at hok; exact (Except.ok.inj hok).symm
  next => exact (Except.ok.inj hok).symm

/-- The grantee already leads to the grantor by a chain of grant options for one of the privileges. -/
def Grant.Circular (ownerId : Oid) (acl : Acl) (g : Grant) : Prop :=
  g.isGrant = true ∧ g.grantOption = true ∧ g.grantorId ≠ ownerId ∧
    ∃ b < 16, g.privileges.getLsbD b = true ∧ ReflTransGen (PassesOn ownerId acl b) g.grantee g.grantorId

theorem Inv.grant (h : Inv ownerId acl) (hgrant : g.isGrant = true)
    (hok : mergeGrantee acl .cascade ownerId g = .ok acl') (hentitled : g.Entitled ownerId acl)
    (hcircular : ¬ g.Circular ownerId acl) : Inv ownerId acl' := by
  obtain ⟨rfl, hpublic⟩ := mergeGrantee_grant hgrant hok
  have hlow : ∀ b < 16, g.aclitem.aiPrivs.getLsbD b = g.privileges.getLsbD b := by
    intro b hb
    simp [Grant.aclitem, privsGoptions_low _ _ hb, hgrant]
  have hhigh :
      ∀ b < 16, g.aclitem.aiPrivs.getLsbD (b + 16) = (g.grantOption && g.privileges.getLsbD b) := by
    intro b hb
    simp only [Grant.aclitem, privsGoptions_high _ _ hb, hgrant, Bool.not_true, Bool.false_or]
    cases g.grantOption with
    | true => rfl
    | false => exact zero_getLsbD b
  constructor
  · have hold := itemOk_rightsOf h.items g.aclitem
    apply items_setRights h.items
    constructor
    · intro hgrantor b hb hbit
      change (rightsOf acl g.aclitem ||| g.aclitem.aiPrivs).getLsbD (b + 16) = true at hbit
      change (rightsOf acl g.aclitem ||| g.aclitem.aiPrivs).getLsbD b = true
      rw [BitVec.getLsbD_or, Bool.or_eq_true, hhigh b hb] at hbit
      rw [BitVec.getLsbD_or, Bool.or_eq_true, hlow b hb]
      exact hbit.imp (hold.option_privilege hgrantor b hb) fun hnew => (Bool.and_eq_true_iff.1 hnew).2
    · intro hgrantee b hb
      change (rightsOf acl g.aclitem ||| g.aclitem.aiPrivs).getLsbD (b + 16) = false
      have hoption : g.grantOption = false := Bool.eq_false_iff.2 fun hopt => hpublic ⟨hopt, hgrantee⟩
      rw [BitVec.getLsbD_or, hold.public_options hgrantee b hb, hhigh b hb, hoption,
        Bool.false_and, Bool.false_or]
  · intro x y b hb hcarried
    have hbefore : (Carries acl x y b ∨ Passes acl b x y) ∨
        (x = g.grantorId ∧ g.privileges.getLsbD b = true) := by
      rcases hcarried with hcarried | hcarried
      · rcases applyChange_add_carries.1 hcarried with hold | ⟨hx, -, hbit⟩
        · exact .inl (.inl hold)
        · exact .inr ⟨hx, hlow b hb ▸ hbit⟩
      rcases applyChange_add_carries.1 hcarried with hold | ⟨hx, -, hbit⟩
      · exact .inl (.inr hold)
      · rw [hhigh b hb] at hbit
        exact .inr ⟨hx, (Bool.and_eq_true_iff.1 hbit).2⟩
    rcases hbefore with hold | ⟨hx, hbit⟩
    · exact (h.support x y b hb hold).imp_right
        (Or.imp_left fun ⟨z, hz⟩ => ⟨z, applyChange_add_carries.2 (.inl hz)⟩)
    by_cases howner : x = ownerId
    · exact .inl howner
    · obtain ⟨z, hz⟩ := hentitled.holds (hx ▸ howner) hb hbit
      exact .inr (.inl ⟨z, applyChange_add_carries.2 (.inl (hx ▸ hz))⟩)
  intro b hb
  by_cases hnew : g.grantOption = true ∧ g.grantorId ≠ ownerId ∧ g.privileges.getLsbD b = true
  · obtain ⟨hoption, howner, hbit⟩ := hnew
    apply (h.acyclic b hb).insert fun hpath => hcircular ⟨hgrant, hoption, howner, b, hb, hbit, hpath⟩
    rintro x y ⟨hxy, hx, hy⟩
    exact (applyChange_add_carries.1 hxy).imp (fun hold => ⟨hold, hx, hy⟩) fun hadded =>
      ⟨hadded.1, hadded.2.1⟩
  apply (h.acyclic b hb).mono
  rintro x y ⟨hxy, hx, hy⟩
  refine ⟨(applyChange_add_carries.1 hxy).resolve_right ?_, hx, hy⟩
  rintro ⟨rfl, -, hbit⟩
  rw [hhigh b hb, Bool.and_eq_true] at hbit
  exact hnew ⟨hbit.1, hx, hbit.2⟩

/-- A grantee that has granted nothing closes no circle. -/
theorem not_circular (hne : g.grantee ≠ g.grantorId) (hnone : ∀ item ∈ acl, item.aiGrantor ≠ g.grantee) :
    ¬ g.Circular ownerId acl := by
  rintro ⟨-, -, -, b, -, -, hpath⟩
  rcases hpath.cases_head with heq | ⟨z, ⟨⟨item, hmem, hgrantor, -⟩, -⟩, -⟩
  · exact hne heq
  · exact hnone item hmem hgrantor

/-- No step that succeeds passes a grant option back along a chain it came by. -/
def CircleFree (ownerId : Oid) : Acl → List Grant → Prop
  | _, [] => True
  | acl, g :: rest =>
    ((∃ acl', mergeGrantee acl .cascade ownerId g = .ok acl') → ¬ g.Circular ownerId acl) ∧
      CircleFree ownerId (stepAcl ownerId acl g) rest

theorem Inv.step (h : Inv ownerId acl) (hentitled : g.Entitled ownerId acl)
    (hcircular : (∃ acl', mergeGrantee acl .cascade ownerId g = .ok acl') → ¬ g.Circular ownerId acl) :
    Inv ownerId (stepAcl ownerId acl g) := by
  unfold stepAcl
  split
  next acl' hok =>
    cases hgrant : g.isGrant with
    | true => exact h.grant hgrant hok hentitled (hcircular ⟨acl', hok⟩)
    | false => exact h.revoke hgrant hok
  next => exact h

theorem Inv.run (h : Inv ownerId acl) (hentitled : EntitledRun ownerId acl steps)
    (hcircle : CircleFree ownerId acl steps) :
    Inv ownerId (steps.foldl (stepAcl ownerId) acl) := by
  induction steps generalizing acl with
  | nil => exact h
  | cons g rest ih => exact ih (h.step hentitled.1 hcircle.1) hentitled.2 hcircle.2

/-- In a run that starts without duplicate entries, no statement hangs. -/
theorem run_ends (hdistinct : Distinct acl) (g : Grant) :
    mergeGrantee (steps.foldl (stepAcl ownerId) acl) .cascade ownerId g ≠ .error .diverges := by
  have hone : ∀ (acl : Acl) (g : Grant), Distinct acl →
      mergeGrantee acl .cascade ownerId g ≠ .error .diverges ∧ Distinct (stepAcl ownerId acl g) := by
    intro acl g hacl
    have hends := aclupdate_ends ownerId hacl g.aclitem (if g.isGrant then .add else .del)
    unfold stepAcl mergeGrantee
    split
    next => exact ⟨nofun, hacl⟩
    next =>
      refine ⟨hends.1, ?_⟩
      split
      next acl' hok => exact hends.2 acl' hok
      next => exact hacl
  induction steps generalizing acl with
  | nil => exact (hone acl g hdistinct).1
  | cons step rest ih => exact ih (hone acl step hdistinct).2

/-- In every list reached, each privilege rests on a chain of grant options that starts at the owner. -/
theorem run_supported {steps : List Grant} (hstart : Start ownerId acl)
    (hentitled : EntitledRun ownerId acl steps) (hcircle : CircleFree ownerId acl steps) :
    Supported ownerId (steps.foldl (stepAcl ownerId) acl) :=
  (hstart.inv.run hentitled hcircle).supported

/-- The owner, role 10, lets 11 pass `SELECT` on, and 11 lets 12, which grants it to 13; then 11 takes
the option back. -/
theorem run_supported_chain :
    Supported 10
      (List.foldl (stepAcl 10) [⟨10, 10, 0x7f#32⟩]
        [⟨true, true, 11, 2#32, 10⟩, ⟨true, true, 12, 2#32, 11⟩, ⟨true, false, 13, 2#32, 12⟩,
          ⟨false, false, 12, 2#32, 11⟩]) := by
  apply run_supported
  · constructor <;> decide
  · decide +kernel
  · refine ⟨fun _ h => h.2.2.1 rfl, fun _ => not_circular (by decide) (by decide +kernel), fun _ h => ?_,
      fun _ h => ?_, trivial⟩
    · exact Bool.false_ne_true h.2.1
    · exact Bool.false_ne_true h.1

/-- Role 10 owns the object. Roles 11 and 12 both get the option for `SELECT` from the owner and from
each other, and the owner then takes back what it granted. -/
def ringSteps : List Grant :=
  [⟨true, true, 11, 2#32, 10⟩, ⟨true, true, 12, 2#32, 11⟩, ⟨true, true, 12, 2#32, 10⟩,
    ⟨true, true, 11, 2#32, 12⟩, ⟨false, false, 12, 2#32, 10⟩, ⟨false, false, 11, 2#32, 10⟩]

/-- what is left: 11 and 12 hold the option from each other only -/
def ringAcl : Acl := [⟨10, 10, 0x7f#32⟩, ⟨12, 11, 0x20002#32⟩, ⟨11, 12, 0x20002#32⟩]

theorem ringAcl_passes {x y : Oid} (h : Passes ringAcl 1 x y) : x ≠ 10 := by
  obtain ⟨item, hmem, rfl, -, hbit⟩ := h
  simp only [ringAcl, List.mem_cons, List.not_mem_nil, or_false] at hmem
  rcases hmem with rfl | rfl | rfl
  · exact absurd hbit (by decide)
  · decide
  · decide

theorem ring_survives :
    Start 10 [⟨10, 10, 0x7f#32⟩] ∧ EntitledRun 10 [⟨10, 10, 0x7f#32⟩] ringSteps ∧
      ringSteps.foldl (stepAcl 10) [⟨10, 10, 0x7f#32⟩] = ringAcl ∧ ¬ Supported 10 ringAcl := by
  refine ⟨by constructor <;> decide, by decide +kernel, by decide +kernel, fun hsupported => ?_⟩
  have hchain :=
    hsupported 11 12 1 (by decide) (.inr ⟨⟨12, 11, 0x20002#32⟩, by decide, rfl, rfl, by decide⟩)
  rcases hchain.cases_head with heq | ⟨z, hz, -⟩
  · exact absurd heq (by decide)
  · exact ringAcl_passes hz rfl

open List

/-- On every list reached a `GRANT` or `REVOKE … CASCADE` comes to an end, whoever the grantees are. -/
theorem mergeAclWithGrant_ends (hdistinct : Distinct acl) (isGrant grantOption : Bool)
    (grantees : List Oid) (privileges : AclMode) (grantorId : Oid) :
    mergeAclWithGrant (steps.foldl (stepAcl ownerId) acl) isGrant grantOption .cascade
      grantees privileges grantorId
      ownerId ≠ .error .diverges := by
  induction grantees generalizing steps with
  | nil => rintro ⟨⟩
  | cons grantee grantees ih =>
    -- the other grantees find the list of a run with one more step
    have hrest := @ih (steps ++ [⟨isGrant, grantOption, grantee, privileges, grantorId⟩])
    rw [foldl_append, foldl_cons, foldl_nil, stepAcl] at hrest
    rw [mergeAclWithGrant, foldlM_cons]
    split at hrest
    next acl' hok => rwa [hok]
    next e herror =>
      rw [herror]
      exact fun h => run_ends hdistinct _ (herror.trans h)

/-- The owner revokes once more from the two roles that hold the option from each other. -/
theorem mergeAclWithGrant_ends_ring :
    mergeAclWithGrant (ringSteps.foldl (stepAcl 10) [⟨10, 10, 0x7f#32⟩]) false false .cascade
      [11, 12] 2#32 10 10 ≠ .error .diverges :=
  mergeAclWithGrant_ends (pairwise_singleton _ _) false false [11, 12] 2#32 10

variable {targ item : AclItem} {x y : Oid} {k : ℕ}

theorem carries_cons :
    Carries (item :: acl) x y k ↔ item.aiGrantor = x ∧ item.aiGrantee = y ∧
      item.aiPrivs.getLsbD k = true ∨ Carries acl x y k := by
  simp [Carries]

variable (targ acl)

theorem mergeRights_bit (rights : AclMode) :
    (mergeRights targ acl rights).getLsbD k = true ↔ rights.getLsbD k = true ∨
      Carries acl targ.aiGrantor targ.aiGrantee k := by
  induction acl generalizing rights with
  | nil => simp [mergeRights, Carries]
  | cons src rest ih =>
    rw [mergeRights, ih, carries_cons, ← or_assoc]
    grind [aclitemMatch, zero_getLsbD]

theorem carries_markDuplicates :
    Carries (markDuplicates targ acl) x y k ↔
      Carries acl x y k ∧ ¬ (targ.aiGrantee = y ∧ targ.aiGrantor = x) := by
  induction acl with
  | nil => simp [markDuplicates, Carries]
  | cons src rest ih =>
    rw [markDuplicates, map_cons, carries_cons, carries_cons, ← markDuplicates, ih]
    grind [aclitemMatch, zero_getLsbD]

theorem carries_emitMerged : Carries (emitMerged acl) x y k ↔ Carries acl x y k := by
  fun_induction emitMerged acl with
  | case1 => rfl
  | case2 targ rest hzero ih => simp [carries_cons, ih, hzero]
  | case3 targ rest hne ih =>
    rw [carries_cons, carries_cons, ih, mergeRights_bit, carries_markDuplicates]
    grind

theorem emitMerged_bit : ∀ item ∈ emitMerged acl, ∃ k, item.aiPrivs.getLsbD k = true := by
  fun_induction emitMerged acl with
  | case1 => nofun
  | case2 targ rest hzero ih => exact ih
  | case3 targ rest hne ih =>
    refine forall_mem_cons.2 ⟨(exists_bit_of_ne_zero hne).imp fun k hk => ?_, ih⟩
    exact (mergeRights_bit rest targ targ.aiPrivs).2 (.inl hk)

theorem emitMerged_distinct : Distinct (emitMerged acl) := by
  fun_induction emitMerged acl with
  | case1 => exact .nil
  | case2 targ rest hzero ih => exact ih
  | case3 targ rest hne ih =>
    -- what is emitted later has rights, and no entry of this pair has any left
    refine .cons (fun b hb => Bool.not_eq_true _ ▸ fun hmatch => ?_) ih
    obtain ⟨k, hk⟩ := emitMerged_bit _ b hb
    have hcarries := (carries_emitMerged _).1 ⟨b, hb, rfl, rfl, hk⟩
    exact ((carries_markDuplicates rest targ).1 hcarries).2 (aclitemMatch_iff.1 hmatch)

/-- There is one entry a pair, with what the entries that become this pair carried. -/
theorem aclnewowner_rights (oldOwnerId newOwnerId : Oid) (hdistinct : Distinct acl)
    (hrights : ∀ item ∈ acl, item.aiPrivs ≠ 0) :
    let new := newOwner oldOwnerId newOwnerId
    let newAcl := aclnewowner acl oldOwnerId newOwnerId
    Distinct newAcl ∧ (∀ e r k, (rightsOf newAcl ⟨e, r, 0⟩).getLsbD k = true ↔
        ∃ item ∈ acl, new item.aiGrantor = r ∧ new item.aiGrantee = e ∧ item.aiPrivs.getLsbD k = true) ∧
      ∀ entry ∈ newAcl, ∃ item ∈ acl, new item.aiGrantor = entry.aiGrantor ∧
      new item.aiGrantee = entry.aiGrantee := by
  intro new newAcl
  obtain ⟨hnew, hcarries, hbit⟩ : Distinct newAcl ∧
      (∀ r e k, Carries newAcl r e k ↔
        ∃ item ∈ acl, new item.aiGrantor = r ∧ new item.aiGrantee = e ∧ item.aiPrivs.getLsbD k = true) ∧
      ∀ entry ∈ newAcl, ∃ k, entry.aiPrivs.getLsbD k = true := by
    unfold newAcl aclnewowner
    dsimp only
    split
    next =>
      refine ⟨emitMerged_distinct _, fun r e k => ?_, emitMerged_bit _⟩
      rw [carries_emitMerged]
      simp [Carries, new]
    next habsent =>
      -- without the new owner among the ids no two pairs become one
      refine ⟨pairwise_map.2 (hdistinct.imp_of_mem ?_), by simp [Carries, new], ?_⟩
      · simp only [any_eq_true, not_exists] at habsent
        grind [aclitemMatch, newOwner]
      · exact forall_mem_map.2 fun item hitem => exists_bit_of_ne_zero (hrights item hitem)
  refine ⟨hnew, fun e r k => ?_, fun entry hentry => ?_⟩
  · rw [← hcarries]
    refine ⟨carries_of_rightsOf, ?_⟩
    rintro ⟨item, hitem, rfl, rfl, hk⟩
    have hof : rightsOf newAcl ⟨item.aiGrantee, item.aiGrantor, 0⟩ = item.aiPrivs :=
      hnew.rightsOf hitem (aclitemMatch_iff.2 ⟨rfl, rfl⟩)
    rwa [hof]
  · obtain ⟨k, hk⟩ := hbit entry hentry
    obtain ⟨item, hitem, hr, he, -⟩ := (hcarries _ _ k).1 ⟨entry, hentry, rfl, rfl, hk⟩
    exact ⟨item, hitem, hr, he⟩

/-- Role 11 becomes the owner in place of 10 and has an entry of its own from 10: the rights of both
come together in one entry. -/
theorem aclnewowner_rights_merged :
    aclnewowner [⟨10, 10, 0x75#32⟩, ⟨11, 10, 0x2#32⟩] 10 11 = [⟨11, 11, 0x77#32⟩] ∧
      Distinct (aclnewowner [⟨10, 10, 0x75#32⟩, ⟨11, 10, 0x2#32⟩] 10 11) ∧
      ∀ k, (0x77#32).getLsbD k = true ↔ (0x75#32).getLsbD k = true ∨ (0x2#32).getLsbD k = true := by
  have hmerged : aclnewowner [⟨10, 10, 0x75#32⟩, ⟨11, 10, 0x2#32⟩] 10 11 = [⟨11, 11, 0x77#32⟩] := by
    decide +kernel
  obtain ⟨hdistinct, hrights, -⟩ :=
    @aclnewowner_rights [⟨10, 10, 0x75#32⟩, ⟨11, 10, 0x2#32⟩] 10 11
    (by simp [Distinct, aclitemMatch]) (by decide)
  refine ⟨hmerged, hdistinct, fun k => ?_⟩
  have hk := hrights 11 11 k
  rw [hmerged] at hk
  simpa [rightsOf, aclitemMatch, newOwner] using hk

end Pg.AccessControl
