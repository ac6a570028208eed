import PgRetrofit.Spec.Backend

/-! Access control lists: `aclupdate` and what it calls, and `aclnewowner`, in `utils/adt/acl.c`, and
the loop over grantees in `catalog/aclchk.c` that issues the calls. No role is a member of another. -/

namespace Pg.AccessControl

abbrev Oid := UInt32

/-- the low 16 bits are privileges, the high 16 bits the grant options for them -/
abbrev AclMode := BitVec 32

structure AclItem where
  aiGrantee : Oid
  aiGrantor : Oid
  aiPrivs : AclMode
deriving DecidableEq

abbrev Acl := List AclItem

def aclIdPublic : Oid := 0

def aclitemAllPrivBits : AclMode := 0xFFFF#32

def aclitemAllGoptionBits : AclMode := aclitemAllPrivBits <<< 16

def aclitemGetPrivs (item : AclItem) : AclMode := item.aiPrivs &&& aclitemAllPrivBits
def aclitemGetGoptions (item : AclItem) : AclMode := (item.aiPrivs >>> 16) &&& aclitemAllPrivBits
def aclGrantOptionFor (privs : AclMode) : AclMode := (privs &&& aclitemAllPrivBits) <<< 16
def aclOptionToPrivs (privs : AclMode) : AclMode := (privs >>> 16) &&& aclitemAllPrivBits

def privsGoptions (privs goptions : AclMode) : AclMode :=
  (privs &&& aclitemAllPrivBits) ||| ((goptions &&& aclitemAllPrivBits) <<< 16)

inductive ModeChg
  | add
  | del
  | eql
deriving DecidableEq

inductive DropBehavior
  | restrict
  | cascade
deriving DecidableEq

inductive AclMaskHow
  | all
  | any
deriving DecidableEq

/-- `has_privs_of_role` when no role is a member of another -/
def hasPrivsOfRole (member role : Oid) : Bool := member = role

def aclitemMatch (a1 a2 : AclItem) : Bool := a1.aiGrantee = a2.aiGrantee && a1.aiGrantor = a2.aiGrantor

/-- the test that lets `aclmask` return early -/
def maskDone (how : AclMaskHow) (result mask : AclMode) : Bool :=
  match how with
  | .all => result = mask
  | .any => result ≠ 0

/-- privileges granted to those who count; the second component says that the caller returns early -/
def maskLoop (counts : Oid → Bool) (mask : AclMode) (how : AclMaskHow) : Acl → AclMode → AclMode × Bool
  | [], result => (result, false)
  | aidata :: rest, result =>
    if counts aidata.aiGrantee then
      let result := result ||| (aidata.aiPrivs &&& mask)
      if maskDone how result mask then (result, true) else maskLoop counts mask how rest result
    else maskLoop counts mask how rest result

/-- privileges granted by way of role memberships -/
def maskIndirectLoop (roleid : Oid) (mask : AclMode) (how : AclMaskHow) :
    Acl → AclMode → AclMode → AclMode
  | [], result, _ => result
  | aidata :: rest, result, remaining =>
    if aidata.aiGrantee = aclIdPublic || aidata.aiGrantee = roleid then
      maskIndirectLoop roleid mask how rest result remaining
    else if aidata.aiPrivs &&& remaining ≠ 0 && hasPrivsOfRole roleid aidata.aiGrantee then
      let result := result ||| (aidata.aiPrivs &&& mask)
      if maskDone how result mask then result
        else maskIndirectLoop roleid mask how rest result (mask &&& ~~~result)
    else maskIndirectLoop roleid mask how rest result remaining

def aclmask (acl : Acl) (roleid ownerId : Oid) (mask : AclMode) (how : AclMaskHow) : AclMode :=
  if mask = 0 then 0
  else
    let implicit := mask &&& aclitemAllGoptionBits ≠ 0 && hasPrivsOfRole roleid ownerId
    let result := if implicit then mask &&& aclitemAllGoptionBits else 0
    if implicit && maskDone how result mask then result
    else
      let direct :=
        maskLoop (fun grantee => grantee = aclIdPublic || grantee = roleid) mask how acl result
      if direct.2 then direct.1 else maskIndirectLoop roleid mask how acl direct.1 (mask &&& ~~~direct.1)

/-- `aclmask_direct`: neither memberships nor what public has -/
def aclmaskDirect (acl : Acl) (roleid ownerId : Oid) (mask : AclMode) (how : AclMaskHow) : AclMode :=
  if mask = 0 then 0
  else
    let implicit := mask &&& aclitemAllGoptionBits ≠ 0 && roleid = ownerId
    let result := if implicit then mask &&& aclitemAllGoptionBits else 0
    if implicit && maskDone how result mask then result
    else (maskLoop (fun grantee => grantee = roleid) mask how acl result).1

def changeRights (modechg : ModeChg) (old mod : AclMode) : AclMode :=
  match modechg with
  | .add => old ||| mod
  | .del => old &&& ~~~mod
  | .eql => mod

/-- the rights of the entry for this grantee and grantor, none if there is no entry -/
def rightsOf (acl : Acl) (modAip : AclItem) : AclMode :=
  ((acl.find? (aclitemMatch modAip)).map AclItem.aiPrivs).getD 0

/-- the list with that entry's rights replaced; an entry without rights is dropped, and a missing one
is appended -/
def setRights (modAip : AclItem) (rights : AclMode) : Acl → Acl
  | [] => if rights = 0 then [] else [{ modAip with aiPrivs := rights }]
  | item :: rest =>
    if aclitemMatch modAip item then if rights = 0 then rest else { item with aiPrivs := rights } :: rest
    else item :: setRights modAip rights rest

/-- the change `aclupdate` makes itself, and the grant options lost by it -/
def applyChange (acl : Acl) (modAip : AclItem) (modechg : ModeChg) : Acl × AclMode :=
  let oldRights := rightsOf acl modAip
  let newRights := changeRights modechg oldRights modAip.aiPrivs
  (setRights modAip newRights acl, aclOptionToPrivs oldRights &&& ~~~aclOptionToPrivs newRights)

mutual

/-- `aclupdate` with `ACL_MODECHG_DEL` -/
def aclupdateDel (ownerId : Oid) (behavior : DropBehavior) : ℕ → Acl → AclItem → Except Fault Acl
  | 0, _, _ => .error .diverges
  | fuel + 1, acl, modAip =>
    let changed := applyChange acl modAip .del
    if changed.2 ≠ 0 then recursiveRevoke ownerId behavior fuel changed.1 modAip.aiGrantee changed.2
      else .ok changed.1

def recursiveRevoke (ownerId : Oid) (behavior : DropBehavior) :
    ℕ → Acl → Oid → AclMode → Except Fault Acl
  | 0, _, _, _ => .error .diverges
  | fuel + 1, acl, grantee, revokePrivs =>
    if grantee = ownerId then .ok acl
    else
      let stillHas := aclmask acl grantee ownerId (aclGrantOptionFor revokePrivs) .all
      let revokePrivs := revokePrivs &&& ~~~aclOptionToPrivs stillHas
      if revokePrivs = 0 then .ok acl else revokeLoop ownerId behavior fuel acl grantee revokePrivs

/-- from the label `restart` on -/
def revokeLoop (ownerId : Oid) (behavior : DropBehavior) : ℕ → Acl → Oid → AclMode → Except Fault Acl
  | 0, _, _, _ => .error .diverges
  | fuel + 1, acl, grantee, revokePrivs =>
    match acl.find? fun aip => aip.aiGrantor = grantee && aclitemGetPrivs aip &&& revokePrivs ≠ 0 with
    | none => .ok acl
    | some aip =>
      if behavior = .restrict then .error (.elog "dependent privileges exist")
      else
        let modAcl : AclItem :=
          { aiGrantor := grantee, aiGrantee := aip.aiGrantee,
            aiPrivs := privsGoptions revokePrivs revokePrivs }
        match aclupdateDel ownerId behavior fuel acl modAcl with
        | .error e => .error e
        | .ok newAcl => revokeLoop ownerId behavior fuel newAcl grantee revokePrivs

end

/-- from the label `cc_restart` on: take away all grant options of the grantee -/
def zapLoop (ownerId grantee : Oid) (fuel : ℕ) : ℕ → Acl → Except Fault Acl
  | 0, _ => .error .diverges
  | rounds + 1, acl =>
    match acl.find? fun aip => aip.aiGrantee = grantee && aclitemGetGoptions aip ≠ 0 with
    | none => .ok acl
    | some aip =>
      match aclupdateDel ownerId .cascade fuel acl aip with
      | .error e => .error e
      | .ok newAcl => zapLoop ownerId grantee fuel rounds newAcl

def checkCircularity (ownerId : Oid) (fuel : ℕ) (oldAcl : Acl) (modAip : AclItem) : Except Fault Unit :=
  if modAip.aiGrantor = ownerId then .ok ()
  else
    match zapLoop ownerId modAip.aiGrantee fuel fuel oldAcl with
    | .error e => .error e
    | .ok acl =>
      let ownPrivs := aclOptionToPrivs
        (aclmask acl modAip.aiGrantor ownerId (aclGrantOptionFor (aclitemGetGoptions modAip)) .all)
      if aclitemGetGoptions modAip &&& ~~~ownPrivs ≠ 0 then
        .error (.elog "grant options cannot be granted back to your own grantor")
      else .ok ()

/-- steps enough for any cascade that starts from this list -/
def aclFuel (acl : Acl) : ℕ := 96 * (acl.length + 1) + 3

def aclupdate (oldAcl : Acl) (modAip : AclItem) (modechg : ModeChg) (ownerId : Oid)
    (behavior : DropBehavior) : Except Fault Acl := do
  if modechg ≠ .del ∧ aclitemGetGoptions modAip ≠ 0 then
    checkCircularity ownerId (aclFuel oldAcl) oldAcl modAip
  let changed := applyChange oldAcl modAip modechg
  if changed.2 ≠ 0 then
    recursiveRevoke ownerId behavior (aclFuel oldAcl) changed.1 modAip.aiGrantee changed.2
  else .ok changed.1

/-- one `GRANT` or `REVOKE` for one grantee -/
structure Grant where
  isGrant : Bool
  grantOption : Bool
  grantee : Oid
  privileges : AclMode
  grantorId : Oid

/-- `REVOKE` takes the grant option with the privilege, `GRANT` gives it only when told to. -/
def Grant.aclitem (g : Grant) : AclItem where
  aiGrantee := g.grantee
  aiGrantor := g.grantorId
  aiPrivs :=
    privsGoptions (if g.isGrant || !g.grantOption then g.privileges else 0)
      (if !g.isGrant || g.grantOption then g.privileges else 0)

/-- the body of the loop of `merge_acl_with_grant` -/
def mergeGrantee (acl : Acl) (behavior : DropBehavior) (ownerId : Oid) (g : Grant) : Except Fault Acl :=
  if g.isGrant && g.grantOption && g.grantee = aclIdPublic then
    .error (.elog "grant options can only be granted to roles")
  else aclupdate acl g.aclitem (if g.isGrant then .add else .del) ownerId behavior

def mergeAclWithGrant (oldAcl : Acl) (isGrant grantOption : Bool) (behavior : DropBehavior)
    (grantees : List Oid) (privileges : AclMode) (grantorId ownerId : Oid) : Except Fault Acl :=
  grantees.foldlM
    (fun acl grantee => mergeGrantee acl behavior ownerId ⟨isGrant, grantOption, grantee,
      privileges, grantorId⟩) oldAcl

/-- What a `CASCADE` step makes of the list; a step that fails leaves it as it is. -/
def stepAcl (ownerId : Oid) (acl : Acl) (g : Grant) : Acl :=
  match mergeGrantee acl .cascade ownerId g with
  | .ok newAcl => newAcl
  | .error _ => acl

/-- an id of the copy: the new owner's where the old one's stood -/
def newOwner (oldOwnerId newOwnerId id : Oid) : Oid := if id = oldOwnerId then newOwnerId else id

/-- the rights of `targ` after the scan with `src` -/
def mergeRights (targ : AclItem) : Acl → AclMode → AclMode
  | [], rights => rights
  | src :: rest, rights =>
    mergeRights targ rest (if src.aiPrivs ≠ 0 && aclitemMatch targ src then
      rights ||| src.aiPrivs else rights)

/-- the entries that scan leaves after `targ`, the duplicates marked deleted -/
def markDuplicates (targ : AclItem) (acl : Acl) : Acl :=
  acl.map fun src => if src.aiPrivs ≠ 0 && aclitemMatch targ src then { src with aiPrivs := 0 } else src

/-- the loop over `targ`: what it emits to `dst` -/
def emitMerged : Acl → Acl
  | [] => []
  | targ :: rest =>
    if targ.aiPrivs = 0 then emitMerged rest
    else { targ with aiPrivs := mergeRights targ rest targ.aiPrivs } :: emitMerged
      (markDuplicates targ rest)
termination_by acl => acl.length
decreasing_by all_goals simp [markDuplicates]

def aclnewowner (oldAcl : Acl) (oldOwnerId newOwnerId : Oid) : Acl :=
  let new := newOwner oldOwnerId newOwnerId
  let present (id : Oid) : Bool := id ≠ oldOwnerId && id = newOwnerId
  let newAcl :=
    oldAcl.map fun item => { item with aiGrantor := new item.aiGrantor, aiGrantee := new item.aiGrantee }
  if oldAcl.any fun item => present item.aiGrantor || present item.aiGrantee then
    emitMerged newAcl else newAcl

/-- some entry by `x` for `y` carries bit `k` -/
def Carries (acl : Acl) (x y : Oid) (k : ℕ) : Prop :=
  ∃ item ∈ acl, item.aiGrantor = x ∧ item.aiGrantee = y ∧ item.aiPrivs.getLsbD k = true

/-- `x` has passed the grant option for privilege `b` on to `y` -/
def Passes (acl : Acl) (b : ℕ) (x y : Oid) : Prop := Carries acl x y (b + 16)

/-- Every privilege and every grant option rests on a chain of grant options that starts at the owner
and ends at the one who granted it. -/
def Supported (ownerId : Oid) (acl : Acl) : Prop :=
  ∀ x y, ∀ b < 16, Carries acl x y b ∨ Passes acl b x y → Relation.ReflTransGen (Passes acl b) ownerId x

/-- The grantor is the owner, or holds the grant option itself for all the privileges concerned. -/
def Grant.Entitled (ownerId : Oid) (acl : Acl) (g : Grant) : Prop :=
  aclmaskDirect acl g.grantorId ownerId (aclGrantOptionFor g.privileges) .all =
    aclGrantOptionFor g.privileges

instance (ownerId : Oid) (acl : Acl) (g : Grant) : Decidable (g.Entitled ownerId acl) :=
  inferInstanceAs (Decidable (_ = _))

/-- Every step of a run has an entitled grantor. -/
def EntitledRun (ownerId : Oid) : Acl → List Grant → Prop
  | _, [] => True
  | acl, g :: rest => g.Entitled ownerId acl ∧ EntitledRun ownerId (stepAcl ownerId acl g) rest

instance decidableEntitledRun (ownerId : Oid) :
    (acl : Acl) → (steps : List Grant) → Decidable (EntitledRun ownerId acl steps)
  | _, [] => isTrue trivial
  | acl, g :: rest =>
    have := decidableEntitledRun ownerId (stepAcl ownerId acl g) rest
    inferInstanceAs (Decidable (_ ∧ _))

end Pg.AccessControl
