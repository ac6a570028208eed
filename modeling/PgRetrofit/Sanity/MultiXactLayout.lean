import PgRetrofit.Lib.WordBytes
import PgRetrofit.Spec.MultiXact

/-! Where ids and members lie in their pages: every id and every member slot has storage of its
own, and each write is found again where it is read. -/

namespace Pg.MultiXact

open WordBytes List UInt32

variable {slru : Slru} {o o' : MultiXactOffset} {m : StoredMember} {multi multi' : MultiXactId}

theorem word_write (slru : Slru) (page index page' index' : ℕ) (v : UInt32) :
    (slru.write page index v).word page' index' = if page' = page ∧ index' = index then v
      else slru.word page' index' := rfl

theorem word_zeroPages (slru : Slru) (pages : List ℕ) (page index : ℕ) :
    (slru.zeroPages pages).word page index = if page ∈ pages then 0 else slru.word page index := by
  induction pages generalizing slru with
  | nil => simp [Slru.zeroPages]
  | cons p rest ih =>
    have hstep : slru.zeroPages (p :: rest) = (slru.zeroPage p).zeroPages rest := rfl
    rw [hstep, ih, Slru.zeroPage]
    by_cases hr : page ∈ rest
    · simp [hr]
    · simp [hr]

theorem offsetSlot_inj (hp : multiXactIdToOffsetPage multi = multiXactIdToOffsetPage multi')
    (he : multiXactIdToOffsetEntry multi = multiXactIdToOffsetEntry multi') : multi = multi' := by
  apply UInt32.toNat_inj.1
  rw [multiXactIdToOffsetPage, multiXactIdToOffsetPage] at hp
  rw [multiXactIdToOffsetEntry, multiXactIdToOffsetEntry] at he
  rw [← Nat.div_add_mod multi.toNat multixactOffsetsPerPage,
    ← Nat.div_add_mod multi'.toNat multixactOffsetsPerPage, hp, he]

theorem readOffset_recordOffset (offsets : Slru) (multi multi' : MultiXactId) (o : MultiXactOffset) :
    readOffset (recordOffset offsets multi o) multi' = if multi' = multi then o
      else readOffset offsets multi' := by
  rw [readOffset, recordOffset, word_write]
  by_cases h : multi' = multi
  · simp [h]
  · rw [if_neg h, if_neg fun hslot => h (offsetSlot_inj hslot.1 hslot.2)]
    rfl

/-- what the loop of `GetMultiXactIdMembers` finds in a slot -/
def memberAt (slru : Slru) (o : MultiXactOffset) : Option StoredMember :=
  let xid := slru.word (mxOffsetToMemberPage o) (mxOffsetToMemberOffset o)
  if !transactionIdIsValid xid then none
  else some ⟨xid,
    getByte (slru.word (mxOffsetToMemberPage o) (mxOffsetToFlagsOffset o)) (mxOffsetToFlagsBitShift o)⟩

variable (slru)

variable (o)

theorem readMembers_eq (n : ℕ) :
    readMembers slru o n = (List.range n).filterMap fun i => memberAt slru (o + UInt32.ofNat i) := by
  induction n generalizing o with
  | zero => rfl
  | succ n ih => ?_
  rw [readMembers, ih, range_succ_eq_map, filterMap_cons, filterMap_map]
  have hshift : ((fun i => memberAt slru (o + UInt32.ofNat i)) ∘ Nat.succ) =
      fun i => memberAt slru (o + 1 + UInt32.ofNat i) := by
    funext i
    simp [UInt32.ofNat_add, UInt32.add_assoc, UInt32.add_comm 1]
  have hzero : o + UInt32.ofNat 0 = o := by simp
  rw [hshift, hzero, memberAt]
  split
  · rfl
  · rfl

theorem slot_eq : o.toNat =
    mxOffsetToMemberPage o * 1636 + mxOffsetToFlagsOffset o / 20 * 4 + o.toNat % 4 := by
  have hpage : mxOffsetToMemberPage o = o.toNat / 1636 := rfl
  have hflags : mxOffsetToFlagsOffset o = o.toNat / 4 % 409 * 20 := rfl
  omega

theorem flagsOffset_mod : mxOffsetToFlagsOffset o % 20 = 0 := by
  have hflags : mxOffsetToFlagsOffset o = o.toNat / 4 % 409 * 20 := rfl
  omega

theorem memberOffset_eq : mxOffsetToMemberOffset o = mxOffsetToFlagsOffset o + 4 + o.toNat % 4 * 4 := rfl

variable {o}

/-- A transaction id and a flag word never share storage. -/
theorem memberOffset_ne_flagsOffset (o o' : MultiXactOffset) :
    mxOffsetToMemberOffset o ≠ mxOffsetToFlagsOffset o' := by
  have h := flagsOffset_mod o
  have h' := flagsOffset_mod o'
  rw [memberOffset_eq]
  omega

theorem memberSlot_inj (hp : mxOffsetToMemberPage o = mxOffsetToMemberPage o')
    (ho : mxOffsetToMemberOffset o = mxOffsetToMemberOffset o') : o = o' := by
  apply UInt32.toNat_inj.1
  have h := slot_eq o
  have h' := slot_eq o'
  have hm := flagsOffset_mod o
  have hm' := flagsOffset_mod o'
  rw [memberOffset_eq, memberOffset_eq] at ho
  omega

theorem bitShift_toNat (o : MultiXactOffset) : (mxOffsetToFlagsBitShift o).toNat = o.toNat % 4 * 8 := by
  rw [mxOffsetToFlagsBitShift, UInt32.toNat_mul, UInt32.toNat_mod]
  have h4 : (UInt32.ofNat multixactMembersPerMembergroup).toNat = 4 := rfl
  have h8 : mxactMemberBitsPerXact.toNat = 8 := rfl
  rw [h4, h8]
  omega

/-- Members of one group use different bytes of the flag word. -/
theorem bitShift_apart (hne : o ≠ o') (hp : mxOffsetToMemberPage o = mxOffsetToMemberPage o')
    (hf : mxOffsetToFlagsOffset o = mxOffsetToFlagsOffset o') :
    (mxOffsetToFlagsBitShift o).toNat + 8 ≤ (mxOffsetToFlagsBitShift o').toNat ∨
      (mxOffsetToFlagsBitShift o').toNat + 8 ≤ (mxOffsetToFlagsBitShift o).toNat := by
  have hmod : o.toNat % 4 ≠ o'.toNat % 4 := by
    intro heq
    refine hne (memberSlot_inj hp ?_)
    rw [memberOffset_eq, memberOffset_eq, hf, heq]
  rw [bitShift_toNat, bitShift_toNat]
  omega

theorem recordMember_eq (o : MultiXactOffset) (m : StoredMember) : recordMember slru o m =
      (slru.write (mxOffsetToMemberPage o) (mxOffsetToMemberOffset o) m.xid).write
      (mxOffsetToMemberPage o) (mxOffsetToFlagsOffset o)
        (setByte (slru.word (mxOffsetToMemberPage o) (mxOffsetToFlagsOffset o))
          (mxOffsetToFlagsBitShift o) m.status) := by
  rw [recordMember]
  have hflags :=
    word_write slru (mxOffsetToMemberPage o) (mxOffsetToMemberOffset o) (mxOffsetToMemberPage o)
    (mxOffsetToFlagsOffset o) m.xid
  rw [if_neg fun h => memberOffset_ne_flagsOffset o o h.2.symm] at hflags
  rw [hflags]
  rfl

theorem xid_recordMember (o o' : MultiXactOffset) (m : StoredMember) :
    (recordMember slru o m).word (mxOffsetToMemberPage o') (mxOffsetToMemberOffset o') =
      if o' = o then m.xid else slru.word (mxOffsetToMemberPage o') (mxOffsetToMemberOffset o') := by
  rw [recordMember_eq, word_write, if_neg fun h => memberOffset_ne_flagsOffset o' o h.2, word_write]
  by_cases h : o' = o
  · simp [h]
  · rw [if_neg h, if_neg fun hslot => h (memberSlot_inj hslot.1 hslot.2)]

theorem status_recordMember (o o' : MultiXactOffset) (hm : m.status.toNat < 256) :
    getByte ((recordMember slru o m).word (mxOffsetToMemberPage o') (mxOffsetToFlagsOffset o'))
      (mxOffsetToFlagsBitShift o') = if o' = o then m.status
      else getByte (slru.word (mxOffsetToMemberPage o') (mxOffsetToFlagsOffset o'))
      (mxOffsetToFlagsBitShift o') := by
  have hs := bitShift_toNat o
  have ht := bitShift_toNat o'
  rw [recordMember_eq, word_write]
  by_cases h : o' = o
  · subst h
    rw [if_pos ⟨rfl, rfl⟩, if_pos rfl, getByte_setByte_self (by omega) hm]
  split
  next hword =>
    rw [hword.1, hword.2, getByte_setByte_ne (by omega) (by omega) hm]
    exact bitShift_apart (Ne.symm h) hword.1.symm hword.2.symm
  next =>
    rw [word_write, if_neg fun hslot => memberOffset_ne_flagsOffset o o' hslot.2.symm]

theorem memberAt_recordMember (o o' : MultiXactOffset) (hvalid : transactionIdIsValid m.xid = true)
    (hm : m.status.toNat < 256) : memberAt (recordMember slru o m) o' = if o' = o then some m
      else memberAt slru o' := by
  rw [memberAt, xid_recordMember, status_recordMember slru o o' hm]
  by_cases h : o' = o
  · simp [h, hvalid]
  · rw [if_neg h, if_neg h, if_neg h]
    rfl

theorem memberAt_zeroPages (pages : List ℕ) (o : MultiXactOffset) :
    memberAt (slru.zeroPages pages) o = if mxOffsetToMemberPage o ∈ pages then none
      else memberAt slru o := by
  rw [memberAt, word_zeroPages, word_zeroPages]
  by_cases h : mxOffsetToMemberPage o ∈ pages
  · simp only [if_pos h]
    rfl
  · simp only [if_neg h]
    rfl

variable {slru}

def Storable (m : StoredMember) : Prop := transactionIdIsValid m.xid = true ∧ m.status.toNat < 256

theorem storable_stored (m : Member) : Storable m.stored := by
  obtain ⟨⟨xid, status⟩, hvalid⟩ := m
  refine ⟨hvalid, ?_⟩
  change status.code.toNat < 256
  cases status <;> decide

theorem memberAt_recordMembers {ms : List StoredMember} (hms : ∀ m ∈ ms, Storable m)
    (hlen : ms.length < 2 ^ 32) (slru : Slru) (p : ℕ) :
    (∀ i m, ms[i]? = some m → memberAt (recordMembers slru (.ofNat p) ms) (.ofNat (p + i)) = some m) ∧
      ∀ o, (∀ i < ms.length, o ≠ ofNat (p + i)) →
        memberAt (recordMembers slru (.ofNat p) ms) o = memberAt slru o := by
  induction ms generalizing slru p with
  | nil => simp [recordMembers]
  | cons m rest ih => ?_
  have hsucc : ofNat p + 1 = ofNat (p + 1) := by simp [ofNat_add]
  obtain ⟨hin, hout⟩ := ih (fun m hm => hms m (mem_cons_of_mem _ hm)) (by simp at hlen; omega)
    (recordMember slru (.ofNat p) m) (p + 1)
  obtain ⟨hvalid, hstatus⟩ := hms m mem_cons_self
  rw [recordMembers, hsucc]
  constructor
  · intro i m' hi
    cases i with
    | zero =>
      obtain rfl : m = m' := by simpa using hi
      rw [Nat.add_zero p]
      rw [hout (.ofNat p), memberAt_recordMember _ _ _ hvalid hstatus, if_pos rfl]
      intro j hj heq
      have hmod := congrArg toNat heq
      rw [toNat_ofNat', toNat_ofNat'] at hmod
      simp at hlen
      omega
    | succ i =>
      rw [show p + (i + 1) = p + 1 + i by omega]
      exact hin i m' (by simpa using hi)
  · intro o ho
    rw [hout, memberAt_recordMember _ _ _ hvalid hstatus, if_neg]
    · exact ho 0 (by simp)
    · intro i hi
      have := ho (i + 1) (by simpa using hi)
      rwa [show p + 1 + i = p + (i + 1) by omega]

end Pg.MultiXact
