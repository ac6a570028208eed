import PgRetrofit.Lib.Ring
import PgRetrofit.Sanity.MultiXactAlloc

/-! A multixact that has been created is read back with its members. Ids and member slots are
handed out one after the other; numbered without wrapping around, each creation has positions of
its own, and the two SLRU areas are rings that keep the last of them. -/

namespace Pg.MultiXact

open Ring List UInt32 Option Member

/-- The next position that may be used: zero modulo `2 ^ 32` is not. -/
def skip (p : ℕ) : ℕ := if p % 2 ^ 32 = 0 then p + 1 else p

theorem skip_ge (p : ℕ) : p ≤ skip p := by
  rw [skip]
  split <;> omega

variable {p : ℕ}

theorem skip_of_ne (h : p % 2 ^ 32 ≠ 0) : skip p = p := if_neg h

theorem skip_of_eq (h : p % 2 ^ 32 = 0) : skip p = p + 1 := if_pos h

theorem skip_mod_ne (p : ℕ) : skip p % 2 ^ 32 ≠ 0 := by
  rw [skip]
  split <;> omega

namespace Creation

def endPos (c : Creation) : ℕ := c.slotPos + c.members.length

/-- Id, offset and size of a creation are what its positions say. -/
structure Fits (c : Creation) : Prop where
  multi : c.multi = .ofNat c.idPos
  id_pos : c.idPos % 2 ^ 32 ≠ 0
  offset : c.offset = .ofNat c.slotPos
  slot_pos : c.slotPos % 2 ^ 32 ≠ 0
  size : c.members.length * sizeOfMember ≤ maxAllocSize

theorem Fits.length {c : Creation} (h : c.Fits) : c.members.length < 2 ^ 27 := by
  have hsize := h.size
  rw [sizeOfMember, maxAllocSize] at hsize
  omega

structure Follows (d c : Creation) : Prop where
  id_pos : d.idPos = skip (c.idPos + 1)
  slot_pos : d.slotPos = skip c.endPos

structure After (d c : Creation) : Prop where
  id_pos : c.idPos < d.idPos
  slot_pos : c.endPos ≤ d.slotPos

theorem Follows.after {d c : Creation} (h : d.Follows c) : d.After c := by
  have hid := skip_ge (c.idPos + 1)
  have hslot := skip_ge c.endPos
  refine ⟨?_, ?_⟩
  · rw [h.id_pos]
    omega
  · rw [h.slot_pos]
    exact hslot

theorem slotPos_le_endPos (c : Creation) : c.slotPos ≤ c.endPos := Nat.le_add_right ..

theorem After.trans {e d c : Creation} (h : e.After d) (h' : d.After c) : e.After c :=
  ⟨h'.id_pos.trans h.id_pos, (h'.slot_pos.trans d.slotPos_le_endPos).trans h.slot_pos⟩

instance : IsTrans Creation After := ⟨fun _ _ _ h h' => h.trans h'⟩

end Creation

open Creation

theorem after_of_chain {log : List Creation} (h : log.IsChain Follows) : log.Pairwise After :=
  (h.imp fun _ _ hfollows => hfollows.after).pairwise

def Phase.creation? : Phase → Option Creation
  | .assigned c => some c
  | .offsetRecorded c => some c
  | _ => none

section

variable (sys : System)

def OffsetMeant (p : ℕ) (o : MultiXactOffset) : Prop :=
  ∃ c, (c ∈ sys.history.created ∨ ∃ b, sys.phase b = .offsetRecorded c) ∧ p = c.idPos ∧ o = c.offset

/-- slot 0 was left out between two creations -/
def Gap (log : List Creation) (p : ℕ) : Prop := ∃ d c, [d, c] <:+: log ∧ p = c.endPos ∧ p % 2 ^ 32 = 0

def MemberMeant (p : ℕ) (v : Option StoredMember) : Prop :=
  (∃ c ∈ sys.history.created, ∃ i m, c.members[i]? = some m ∧ p = c.slotPos + i ∧ v = some m.stored) ∨
    Gap sys.history.log p ∧ v = none

def firstId : ℕ := sys.history.idPos - 2 ^ 31

/-- the first position that the members area can be relied on to hold: pages are zeroed as a whole -/
def firstSlot : ℕ := sys.history.extendedPos + 1636 - 2 ^ 32

structure Inv : Prop where
  nextMXact : sys.store.state.nextMXact = .ofNat sys.history.idPos
  nextOffset : sys.store.state.nextOffset = .ofNat sys.history.slotPos
  extended : sys.history.slotPos ≤ sys.history.extendedPos
  fits : ∀ c ∈ sys.history.log, c.Fits
  chain : sys.history.log.IsChain Follows
  last : ∀ c ∈ sys.history.log.head?,
    (sys.history.idPos = c.idPos + 1 ∨ sys.history.idPos = skip (c.idPos + 1)) ∧
    sys.history.slotPos = c.endPos
  pending : ∀ b c, (sys.phase b).creation? = some c → c ∈ sys.history.log
  signalling : ∀ b ms, sys.phase b = .signalling ms → ms.length * sizeOfMember ≤ maxAllocSize
  created : ∀ c ∈ sys.history.created, c ∈ sys.history.log
  logged : ∀ c ∈ sys.history.log, c ∈ sys.history.created ∨ ∃ b, (sys.phase b).creation? = some c
  offsets :
    Keeps (2 ^ 32) (OffsetMeant sys) (fun s => readOffset sys.store.offsets (.ofNat s)) (firstId sys)
  members :
    Keeps (2 ^ 32) (MemberMeant sys) (fun s => memberAt sys.store.members (.ofNat s)) (firstSlot sys)

end

variable {sys : System} {b : ℕ} {c d : Creation}

namespace Inv

variable (h : Inv sys)
include h

theorem before_next (hc : c ∈ sys.history.log) :
    c.idPos < sys.history.idPos ∧ c.endPos ≤ sys.history.slotPos := by
  have hafter := after_of_chain h.chain
  have hlast := h.last
  cases hlog : sys.history.log with
  | nil =>
    rw [hlog] at hc
    cases hc
  | cons d rest => ?_
  rw [hlog] at hafter hlast hc
  obtain ⟨hid, hslot⟩ := hlast d rfl
  have hd : d.idPos < sys.history.idPos := by
    have := skip_ge (d.idPos + 1)
    omega
  rcases mem_cons.1 hc with rfl | hmem
  · exact ⟨hd, hslot.ge⟩
  · have hdc := (pairwise_cons.1 hafter).1 c hmem
    exact ⟨hdc.id_pos.trans hd, hslot ▸ hdc.slot_pos.trans d.slotPos_le_endPos⟩

theorem after_or (hc : c ∈ sys.history.log) (hd : d ∈ sys.history.log) :
    c = d ∨ c.After d ∨ d.After c := by
  have hsym : Std.Symm fun c d : Creation => c.After d ∨ d.After c := ⟨fun _ _ h => h.symm⟩
  have hpair : sys.history.log.Pairwise fun c d => c.After d ∨ d.After c :=
    (after_of_chain h.chain).imp fun h => .inl h
  by_cases heq : c = d
  · exact .inl heq
  · exact .inr (hpair.forall hc hd heq)

theorem follows (hdc : [d, c] <:+: sys.history.log) : d.Follows c := by
  have := h.chain.infix hdc
  simpa using this

theorem gap_lt (hp : Gap sys.history.log p) : p < sys.history.slotPos := by
  obtain ⟨d, c, hinfix, rfl, hzero⟩ := hp
  have hd : d ∈ sys.history.log := hinfix.subset (by simp)
  have hstart := (h.follows hinfix).slot_pos
  rw [skip_of_eq hzero] at hstart
  have hend := (h.before_next hd).2
  have := d.slotPos_le_endPos
  omega

theorem gap_outside (hp : Gap sys.history.log p) (he : c ∈ sys.history.log) :
    p < c.slotPos ∨ c.endPos ≤ p := by
  obtain ⟨d, a, hinfix, rfl, hzero⟩ := hp
  have hstart := (h.follows hinfix).slot_pos
  rw [skip_of_eq hzero] at hstart
  obtain ⟨newer, older, hlog⟩ := hinfix
  have hafter := after_of_chain h.chain
  rw [← hlog, append_assoc, pairwise_append] at hafter
  rw [← hlog] at he
  simp only [append_assoc, cons_append, nil_append, mem_append, mem_cons] at he
  obtain ⟨-, hsuffix, hnewer⟩ := hafter
  simp only [cons_append, nil_append, pairwise_cons] at hsuffix
  rcases he with he | rfl | rfl | he
  · have := (hnewer c he d (by simp)).slot_pos
    have := d.slotPos_le_endPos
    omega
  · omega
  · exact .inr le_rfl
  · have := (hsuffix.2.1 c he).slot_pos
    have := a.slotPos_le_endPos
    omega

theorem memberMeant_lt {v : Option StoredMember} (hp : MemberMeant sys p v) :
    p < sys.history.slotPos := by
  rcases hp with ⟨c, hc, i, m, hi, rfl, -⟩ | ⟨hgap, -⟩
  · have hlt : i < c.members.length := (List.getElem?_eq_some_iff.1 hi).1
    have hend := (h.before_next (h.created c hc)).2
    rw [endPos] at hend
    omega
  · exact h.gap_lt hgap

theorem offsetMeant_log {o : MultiXactOffset} (hp : OffsetMeant sys p o) :
    ∃ c ∈ sys.history.log, p = c.idPos ∧ o = c.offset := by
  obtain ⟨c, hc | ⟨b, hb⟩, hp, ho⟩ := hp
  · exact ⟨c, h.created c hc, hp, ho⟩
  · exact ⟨c, h.pending b c (by rw [hb]; rfl), hp, ho⟩

end Inv

theorem inv_start (store : Store) (underPostmaster : Bool) :
    Inv (System.start store underPostmaster) where
  nextMXact := UInt32.ofNat_toNat.symm
  nextOffset := UInt32.ofNat_toNat.symm
  extended := le_rfl
  fits _ hc := nomatch hc
  chain := .nil
  last _ hc := nomatch hc
  pending _ _ hb := nomatch hb
  signalling _ _ hb := nomatch hb
  created _ hc := nomatch hc
  logged _ hc := nomatch hc
  offsets := by
    rintro p o - ⟨c, hc | ⟨b, hb⟩, -⟩
    · cases hc
    · cases hb
  members := by
    rintro p v - (⟨c, hc, -⟩ | ⟨⟨d, c, hinfix, -⟩, -⟩)
    · cases hc
    · have := hinfix.length_le
      simp [System.start] at this

theorem phase_setPhase (sys : System) (b b' : ℕ) (ph : Phase) :
    (sys.setPhase b ph).phase b' = if b' = b then ph else sys.phase b' := Function.update_apply ..

theorem eq_of_update {phase : ℕ → Phase} {ph x : Phase} {b' : ℕ} (h : Function.update phase b ph b' = x)
    (hne : ph ≠ x) : phase b' = x := by
  rw [Function.update_apply] at h
  split at h
  · exact absurd h hne
  · exact h

theorem Inv.setPhase (h : Inv sys) (hb : (sys.phase b).creation? = none) {ph : Phase}
    (hph : ph.creation? = none)
    (hsig : ∀ ms, ph = .signalling ms → ms.length * sizeOfMember ≤ maxAllocSize) :
    Inv (sys.setPhase b ph) :=
  { h with
    pending := fun b' c hc => by
      rw [phase_setPhase] at hc
      split at hc
      · rw [hph] at hc
        cases hc
      · exact h.pending b' c hc
    signalling := fun b' ms hms => by
      rw [phase_setPhase] at hms
      split at hms
      · exact hsig ms hms
      · exact h.signalling b' ms hms
    logged := fun c hc => by
      rcases h.logged c hc with hcreated | ⟨b', hb'⟩
      · exact .inl hcreated
      refine .inr ⟨b', ?_⟩
      rw [phase_setPhase, if_neg]
      · exact hb'
      · rintro rfl
        rw [hb] at hb'
        cases hb'
    offsets := by
      refine h.offsets.mono le_rfl ?_
      rintro p o - ⟨c, hc | ⟨b', hb'⟩, hp, ho⟩
      · exact ⟨c, .inl hc, hp, ho⟩
      refine ⟨c, .inr ⟨b', eq_of_update hb' ?_⟩, hp, ho⟩
      rintro rfl
      cases hph
    members := h.members }

theorem Inv.setState (h : Inv sys) {state : MultiXactState}
    (hid : state.nextMXact = sys.store.state.nextMXact)
    (hoffset : state.nextOffset = sys.store.state.nextOffset) :
    Inv { sys with store := { sys.store with state := state } } :=
  { h with
    nextMXact := hid.trans h.nextMXact, nextOffset := hoffset.trans h.nextOffset
    offsets := h.offsets, members := h.members }

theorem setStore_self (sys : System) : sys.setStore sys.store = sys := by
  rw [System.setStore, UInt32.sub_self, UInt32.sub_self]
  rfl

/-- the counter of ids at zero moves on to `FirstMultiXactId` -/
theorem Inv.normalise (h : Inv sys) (hzero : sys.store.state.nextMXact = 0) :
    Inv (sys.setStore { sys.store with
      state := { sys.store.state with nextMXact := firstMultiXactId } }) := by
  have hmod : sys.history.idPos % 2 ^ 32 = 0 := ofNat_eq_zero.1 (h.nextMXact.symm.trans hzero)
  have hstep : (firstMultiXactId - sys.store.state.nextMXact).toNat = 1 := by
    rw [hzero]
    rfl
  rw [System.setStore, UInt32.sub_self]
  rw [hstep]
  refine { h with
    nextMXact := ?_, last := ?_, offsets := ?_, members := h.members, nextOffset := h.nextOffset }
  · rw [← ofNat_succ, ← h.nextMXact, hzero]
    rfl
  · intro c hc
    obtain ⟨hid, hslot⟩ := h.last c hc
    refine ⟨.inr ?_, hslot⟩
    rcases hid with hid | hid
    · rw [← hid, skip_of_eq hmod]
    · have := skip_mod_ne (c.idPos + 1)
      rw [← hid] at this
      exact absurd hmod this
  · refine h.offsets.mono ?_ fun p o _ hmeant => hmeant
    exact Nat.sub_le_sub_right (Nat.le_succ _) _

theorem Inv.zero (h : Inv sys) {offsetPages memberPages : List ℕ} {n : ℕ}
    (hoffset : offsetPages ⊆ extendMultiXactOffset sys.store.state.nextMXact)
    (hmember : memberPages ⊆ extendMultiXactMember sys.store.state.nextOffset n) :
    Inv { sys with
      store := { sys.store with
        offsets := sys.store.offsets.zeroPages offsetPages
        members := sys.store.members.zeroPages memberPages }
      history :=
        { sys.history with extendedPos := max sys.history.extendedPos (sys.history.slotPos + n) } } := by
  rw [h.nextMXact] at hoffset
  rw [h.nextOffset] at hmember
  refine { h with extended := h.extended.trans (le_max_left _ _), offsets := ?_, members := ?_ }
  · refine h.offsets.of_agree le_rfl (fun p o _ hmeant => hmeant) fun p o hp hmeant => ?_
    obtain ⟨c, hc, rfl, -⟩ := h.offsetMeant_log hmeant
    have hlt := (h.before_next hc).1
    have hwindow : sys.history.idPos - 2 ^ 31 ≤ c.idPos := hp
    rw [ofNat_mod_size]
    refine (word_zeroPages ..).trans (if_neg ?_)
    exact fun hmem => offsetPage_not_mem hlt (h.fits c hc).id_pos (by omega) (hoffset hmem)
  have hmax := le_max_left sys.history.extendedPos (sys.history.slotPos + n)
  have hfirst : firstSlot sys ≤ max sys.history.extendedPos (sys.history.slotPos + n) + 1636 - 2 ^ 32 :=
    Nat.sub_le_sub_right (Nat.add_le_add_right hmax _) _
  refine h.members.of_agree hfirst (fun p v _ hmeant => hmeant) fun p v hp hmeant => ?_
  have hlt := h.memberMeant_lt hmeant
  have hwindow : max sys.history.extendedPos (sys.history.slotPos + n) + 1636 - 2 ^ 32 ≤ p := hp
  rw [ofNat_mod_size, memberAt_zeroPages, if_neg]
  exact fun hmem => memberPage_not_mem hlt (by omega) (hmember hmem)

def System.nextCreation (sys : System) (members : List Member) : Creation where
  multi := sys.store.state.nextMXact
  offset := startOffset sys.store.state.nextOffset
  members := members
  idPos := sys.history.idPos
  slotPos := skip sys.history.slotPos

variable {members : List Member}

theorem Inv.fits_next (h : Inv sys) (hid : sys.history.idPos % 2 ^ 32 ≠ 0)
    (hsize : members.length * sizeOfMember ≤ maxAllocSize) : (sys.nextCreation members).Fits where
  multi := h.nextMXact
  id_pos := hid
  offset := by
    rw [System.nextCreation, startOffset, h.nextOffset, skip]
    by_cases hzero : sys.history.slotPos % 2 ^ 32 = 0
    · rw [if_pos hzero, ← ofNat_succ, ofNat_eq_zero.2 hzero]
      rfl
    · rw [if_neg fun heq => hzero (ofNat_eq_zero.1 heq), if_neg hzero]
  slot_pos := skip_mod_ne _
  size := hsize

theorem Inv.follows_next (h : Inv sys) (hid : sys.history.idPos % 2 ^ 32 ≠ 0) (members : List Member)
    (hc : c ∈ sys.history.log.head?) : (sys.nextCreation members).Follows c := by
  obtain ⟨hnext, hslot⟩ := h.last c hc
  refine ⟨?_, ?_⟩
  · rcases hnext with hnext | hnext
    · rw [← hnext, skip_of_ne hid]
      rfl
    · exact hnext
  · rw [← hslot]
    rfl

theorem slotsTaken_eq (h : Inv sys) (members : List Member) :
    sys.history.slotPos + slotsTaken sys.store.state.nextOffset members.length =
      (sys.nextCreation members).endPos := by
  rw [slotsTaken, h.nextOffset, endPos, System.nextCreation, skip]
  dsimp only
  by_cases hzero : sys.history.slotPos % 2 ^ 32 = 0
  · rw [if_pos (ofNat_eq_zero.2 hzero), if_pos hzero]
    omega
  · rw [if_neg fun heq => hzero (ofNat_eq_zero.1 heq), if_neg hzero]

/-- The counters advance, and the creation is entered in the log. -/
def System.grant (sys : System) (b : ℕ) (members : List Member) : System where
  store := { sys.store with
    state := { sys.store.state with
      nextMXact := sys.store.state.nextMXact + 1
      nextOffset := sys.store.state.nextOffset + UInt32.ofNat
        (slotsTaken sys.store.state.nextOffset members.length) } }
  underPostmaster := sys.underPostmaster
  phase := Function.update sys.phase b (.assigned (sys.nextCreation members))
  history := { sys.history with
    idPos := sys.history.idPos + 1
    slotPos := (sys.nextCreation members).endPos
    log := sys.nextCreation members :: sys.history.log }

theorem phase_grant (sys : System) (b b' : ℕ) (members : List Member) :
    (sys.grant b members).phase b' = if b' = b then .assigned (sys.nextCreation members)
      else sys.phase b' :=
  Function.update_apply ..

theorem gap_cons {log : List Creation} (h : Gap (d :: log) p) :
    Gap log p ∨ ∃ c ∈ log.head?, p = c.endPos ∧ p % 2 ^ 32 = 0 := by
  obtain ⟨e, c, hinfix, hp, hzero⟩ := h
  rcases infix_cons_iff.1 hinfix with hleading | hinfix
  · right
    obtain ⟨-, hleading⟩ := cons_prefix_cons.1 hleading
    cases log with
    | nil => simp at hleading
    | cons a rest =>
      obtain ⟨rfl, -⟩ := cons_prefix_cons.1 hleading
      exact ⟨c, rfl, hp, hzero⟩
  · exact .inl ⟨e, c, hinfix, hp, hzero⟩

theorem Inv.grant (h : Inv sys) (hid : sys.history.idPos % 2 ^ 32 ≠ 0)
    (hb : (sys.phase b).creation? = none) (hsize : members.length * sizeOfMember ≤ maxAllocSize)
    (hextended : (sys.nextCreation members).endPos ≤ sys.history.extendedPos)
    (hgap : sys.history.slotPos % 2 ^ 32 = 0 → memberAt sys.store.members 0 = none) :
    Inv (sys.grant b members) where
  nextMXact := by
    change sys.store.state.nextMXact + 1 = _
    rw [h.nextMXact, ofNat_succ]
    rfl
  nextOffset := by
    change sys.store.state.nextOffset + ofNat (slotsTaken sys.store.state.nextOffset members.length) =
      ofNat (sys.nextCreation members).endPos
    rw [← slotsTaken_eq h, ofNat_add, ← h.nextOffset]
  extended := hextended
  fits c hc := by
    rcases mem_cons.1 hc with rfl | hc
    · exact h.fits_next hid hsize
    · exact h.fits c hc
  chain := by
    refine List.IsChain.cons h.chain fun c hc => ?_
    exact h.follows_next hid members hc
  last c hc := by
    obtain rfl : sys.nextCreation members = c := some.inj hc
    exact ⟨.inl rfl, rfl⟩
  pending b' c hc := by
    rw [phase_grant] at hc
    split at hc
    · rw [← some.inj hc]
      exact mem_cons_self
    · exact mem_cons_of_mem _ (h.pending b' c hc)
  signalling b' ms hms := h.signalling b' ms (eq_of_update hms nofun)
  created c hc := mem_cons_of_mem _ (h.created c hc)
  logged c hc := by
    rcases mem_cons.1 hc with rfl | hc
    · refine .inr ⟨b, ?_⟩
      rw [phase_grant, if_pos rfl]
      rfl
    rcases h.logged c hc with hcreated | ⟨b', hb'⟩
    · exact .inl hcreated
    refine .inr ⟨b', ?_⟩
    rw [phase_grant, if_neg]
    · exact hb'
    · rintro rfl
      rw [hb] at hb'
      cases hb'
  offsets := by
    refine h.offsets.mono (Nat.sub_le_sub_right (Nat.le_succ _) _) ?_
    rintro p o - ⟨c, hc | ⟨b', hb'⟩, hp⟩
    · exact ⟨c, .inl hc, hp⟩
    exact ⟨c, .inr ⟨b', eq_of_update hb' nofun⟩, hp⟩
  members := by
    rintro p v hp (hcreated | ⟨hnew, rfl⟩)
    · exact h.members p v hp (.inl hcreated)
    rcases gap_cons hnew with hold | ⟨c, hc, rfl, hzero⟩
    · exact h.members p none hp (.inr ⟨hold, rfl⟩)
    rw [hzero]
    refine hgap ?_
    rw [(h.last c hc).2]
    exact hzero

theorem toNat_add_sub_self (x y : UInt32) : (x + y - x).toNat = y.toNat := by
  rw [UInt32.add_comm, UInt32.add_sub_cancel]

theorem toNat_startOffset_sub (h : Inv sys) :
    sys.history.slotPos + (startOffset sys.store.state.nextOffset - sys.store.state.nextOffset).toNat =
      skip sys.history.slotPos := by
  rw [startOffset, skip, h.nextOffset]
  by_cases hzero : sys.history.slotPos % 2 ^ 32 = 0
  · rw [if_pos hzero, ofNat_eq_zero.2 hzero]
    rfl
  · rw [if_neg fun heq => hzero (ofNat_eq_zero.1 heq), if_neg hzero, UInt32.sub_self]
    rfl

/-- One call of `GetNewMultiXactId` under the lock, with a counter that is not zero. -/
theorem Inv.assign (h : Inv sys) (hne : sys.store.state.nextMXact ≠ 0)
    (hb : (sys.phase b).creation? = none) (hsize : members.length * sizeOfMember ≤ maxAllocSize)
    (io : IoFailure) :
    Inv (sys.assign b io sys.store.state.nextMXact members).1 := by
  have hid : sys.history.idPos % 2 ^ 32 ≠ 0 :=
    fun hzero => hne (h.nextMXact.trans (ofNat_eq_zero.2 hzero))
  obtain ⟨offsetPages, hoffsetPages, hspec⟩ := assign_spec io sys.store
    sys.store.state.nextMXact members.length
  obtain ⟨memberPages, hmemberPages, hmembers, hall⟩ := hspec.members
  have hzeroed := h.zero hoffsetPages hmemberPages
  rw [System.assign]
  generalize hout : MultiXact.assign io sys.store sys.store.state.nextMXact members.length = out at *
  obtain ⟨⟨state, offsets, slru⟩, extended, result⟩ := out
  have hoffsets := hspec.offsets
  subst hoffsets hmembers
  cases result with
  | error e =>
    have hstate := hspec.failed e rfl
    subst hstate
    rw [System.setStore, UInt32.sub_self, UInt32.sub_self]
    exact hzeroed.setPhase hb rfl fun ms hms => nomatch hms
  | ok offset => ?_
  obtain ⟨rfl, hext, hstate⟩ := hspec.done offset rfl
  subst hstate hext
  have hidStep : (sys.store.state.nextMXact + 1 - sys.store.state.nextMXact).toNat = 1 :=
    toNat_add_sub_self _ 1
  have hslots : slotsTaken sys.store.state.nextOffset members.length < 2 ^ 32 := by
    rw [sizeOfMember, maxAllocSize] at hsize
    rw [slotsTaken]
    split <;> omega
  have hslotStep : sys.history.slotPos + (sys.store.state.nextOffset +
      ofNat (slotsTaken sys.store.state.nextOffset members.length) - sys.store.state.nextOffset).toNat =
        (sys.nextCreation members).endPos := by
    rw [toNat_add_sub_self, toNat_ofNat', Nat.mod_eq_of_lt hslots, slotsTaken_eq h]
  have hcreation : Creation.mk sys.store.state.nextMXact (startOffset sys.store.state.nextOffset) members
      (sys.history.idPos + (sys.store.state.nextMXact - sys.store.state.nextMXact).toNat)
      (sys.history.slotPos +
        (startOffset sys.store.state.nextOffset - sys.store.state.nextOffset).toNat) =
        sys.nextCreation members := by
    rw [UInt32.sub_self, toNat_startOffset_sub h]
    rfl
  rw [System.setStore]
  dsimp only
  rw [hcreation, hidStep, hslotStep]
  refine hzeroed.grant hid hb hsize ?_ ?_
  · refine le_trans (le_of_eq ?_) (le_max_right _ _)
    exact (slotsTaken_eq h members).symm
  intro hzero
  have hpage : 0 ∈ memberPages := by
    rw [hall _ rfl, h.nextOffset]
    refine zero_mem_extend hzero ?_
    rw [slotsTaken, if_pos (ofNat_eq_zero.2 hzero)]
    exact Nat.succ_pos _
  exact (memberAt_zeroPages ..).trans (if_pos hpage)

theorem lt_first {multi : MultiXactId} : multi < firstMultiXactId ↔ multi = 0 := by
  rw [UInt32.lt_iff_toNat_lt, ← UInt32.toNat_inj]
  have hone : firstMultiXactId.toNat = 1 := rfl
  have hzero : (0 : UInt32).toNat = 0 := rfl
  omega

theorem handleWraparound_ne (state : MultiXactState) : (handleWraparound state).nextMXact ≠ 0 := by
  rw [handleWraparound]
  split
  · exact (by decide : (1 : UInt32) ≠ 0)
  · next hlt => exact fun hzero => hlt (lt_first.2 hzero)

/-- The counter is normalised whatever the outcome, and is the id if there is one. -/
theorem checkLimits_spec (underPostmaster : Bool) (state : MultiXactState) :
    (checkLimits underPostmaster state).1 = handleWraparound state ∧
      ∀ result, (checkLimits underPostmaster state).2 = .ok (some result) →
        result = (handleWraparound state).nextMXact := by
  rw [checkLimits]
  split
  · split
    all_goals exact ⟨rfl, fun _ hresult => nomatch hresult⟩
  · exact ⟨rfl, fun _ hresult => (some.inj (Except.ok.inj hresult)).symm⟩

theorem Inv.normalised (h : Inv sys) :
    Inv (sys.setStore { sys.store with state := handleWraparound sys.store.state }) := by
  rw [handleWraparound]
  split
  next hlt => exact h.normalise (lt_first.1 hlt)
  next =>
    have hself := setStore_self sys
    rwa [hself]

theorem ofNat_inj {p q : ℕ} (hp : p < 2 ^ 32) (h : ofNat p = .ofNat q) : p = q % 2 ^ 32 := by
  rw [← toNat_ofNat', ← h, toNat_ofNat', Nat.mod_eq_of_lt hp]

theorem creation_setPhase (ph : Phase) (hb : (sys.phase b).creation? = some c)
    (hph : ph.creation? = some c) (b' : ℕ) :
    ((sys.setPhase b ph).phase b').creation? = (sys.phase b').creation? := by
  rw [phase_setPhase]
  split
  next heq => rw [heq, hb, hph]
  next => rfl

theorem Inv.recordOffset (h : Inv sys) (hb : sys.phase b = .assigned c)
    (hwindow : sys.history.idPos ≤ c.idPos + 2 ^ 31) :
    Inv ({ sys with store := { sys.store with
      offsets := MultiXact.recordOffset sys.store.offsets c.multi c.offset } }.setPhase b
      (.offsetRecorded c)) := by
  have hcreation : (sys.phase b).creation? = some c := by
    rw [hb]
    rfl
  have hc : c ∈ sys.history.log := h.pending b c hcreation
  have hsame := creation_setPhase (.offsetRecorded c) hcreation rfl
  refine { h with pending := ?_, signalling := ?_, logged := ?_, offsets := ?_, members := h.members }
  · intro b' e he
    exact h.pending b' e ((hsame b').symm.trans he)
  · intro b' ms hms
    exact h.signalling b' ms (eq_of_update hms nofun)
  · intro e he
    rcases h.logged e he with hcreated | ⟨b', hb'⟩
    · exact .inl hcreated
    · exact .inr ⟨b', (hsame b').trans hb'⟩
  · have hnext := (h.before_next hc).1
    refine h.offsets.fill c.idPos [c.offset] ?_ ?_ ?_ ?_ ?_ ?_
    · change sys.history.idPos - 2 ^ 31 ≤ c.idPos
      omega
    · change c.idPos + 1 ≤ sys.history.idPos - 2 ^ 31 + 2 ^ 32
      omega
    · intro q o hq hmeant
      obtain ⟨e, he, rfl, -⟩ := h.offsetMeant_log hmeant
      have hbefore := (h.before_next he).1
      change e.idPos < sys.history.idPos - 2 ^ 31 + 2 ^ 32
      omega
    · intro q o hmeant
      have hor : OffsetMeant sys q o ∨ q = c.idPos ∧ o = c.offset := by
        obtain ⟨e, he | ⟨b', hb'⟩, hq⟩ := hmeant
        · exact .inl ⟨e, .inl he, hq⟩
        rw [phase_setPhase] at hb'
        split at hb'
        · exact .inr (Phase.offsetRecorded.inj hb' ▸ hq)
        · exact .inl ⟨e, .inr ⟨b', hb'⟩, hq⟩
      rcases hor with hold | ⟨rfl, rfl⟩
      · obtain ⟨e, he, rfl, rfl⟩ := h.offsetMeant_log hold
        rcases h.after_or he hc with rfl | hafter | hafter
        · exact .inr ⟨0, rfl, rfl⟩
        · exact .inl ⟨hold, .inr hafter.id_pos⟩
        · exact .inl ⟨hold, .inl hafter.id_pos⟩
      · exact .inr ⟨0, rfl, rfl⟩
    · intro i o hi
      obtain ⟨rfl, rfl⟩ : i = 0 ∧ c.offset = o := by
        cases i with
        | zero => exact ⟨rfl, some.inj hi⟩
        | succ i => simp at hi
      change readOffset (MultiXact.recordOffset sys.store.offsets c.multi c.offset)
        (.ofNat ((c.idPos + 0) % 2 ^ 32)) = c.offset
      rw [ofNat_mod_size, readOffset_recordOffset, (h.fits c hc).multi]
      exact if_pos rfl
    · intro s hs hne
      change readOffset (MultiXact.recordOffset sys.store.offsets c.multi c.offset) (.ofNat s) =
        readOffset sys.store.offsets (.ofNat s)
      rw [readOffset_recordOffset, if_neg]
      intro heq
      rw [(h.fits c hc).multi] at heq
      exact hne 0 Nat.one_pos (ofNat_inj hs heq)

theorem Inv.recordMembers (h : Inv sys) (hb : sys.phase b = .offsetRecorded c)
    (hwindow : sys.history.extendedPos + 1636 ≤ c.slotPos + 2 ^ 32) :
    Inv ({ sys with
      store := { sys.store with
        members := MultiXact.recordMembers sys.store.members c.offset (c.members.map stored) }
      history := { sys.history with created := c :: sys.history.created } }.setPhase b .idle) := by
  have hc : c ∈ sys.history.log := by
    apply h.pending b
    rw [hb]
    rfl
  have hend := (h.before_next hc).2
  have hextended := h.extended
  refine { h with
    pending := ?_, signalling := ?_, created := ?_, logged := ?_, offsets := ?_, members := ?_ }
  · intro b' e he
    rw [phase_setPhase] at he
    split at he
    · cases he
    · exact h.pending b' e he
  · intro b' ms hms
    exact h.signalling b' ms (eq_of_update hms nofun)
  · intro e he
    rcases mem_cons.1 he with rfl | he
    · exact hc
    · exact h.created e he
  · intro e he
    rcases h.logged e he with hcreated | ⟨b', hb'⟩
    · exact .inl (mem_cons_of_mem _ hcreated)
    by_cases heq : b' = b
    · rw [heq, hb] at hb'
      rw [← some.inj hb']
      exact .inl mem_cons_self
    · refine .inr ⟨b', ?_⟩
      rw [phase_setPhase, if_neg heq]
      exact hb'
  · refine h.offsets.mono le_rfl ?_
    rintro p o - ⟨e, he | ⟨b', hb'⟩, hp⟩
    · rcases mem_cons.1 he with rfl | he
      · exact ⟨e, .inr ⟨b, hb⟩, hp⟩
      · exact ⟨e, .inl he, hp⟩
    exact ⟨e, .inr ⟨b', eq_of_update hb' nofun⟩, hp⟩
  · have hstorable : ∀ m ∈ c.members.map stored, Storable m := by
      intro m hm
      obtain ⟨m', -, rfl⟩ := mem_map.1 hm
      exact storable_stored m'
    have hlength : (c.members.map stored).length < 2 ^ 32 := by
      have := (h.fits c hc).length
      rw [length_map]
      omega
    obtain ⟨hin, hout⟩ := memberAt_recordMembers hstorable hlength sys.store.members c.slotPos
    rw [← (h.fits c hc).offset] at hin hout
    refine h.members.fill c.slotPos (c.members.map fun m => some m.stored) ?_ ?_ ?_ ?_ ?_ ?_
    · change sys.history.extendedPos + 1636 - 2 ^ 32 ≤ c.slotPos
      omega
    · rw [endPos] at hend
      change c.slotPos + (c.members.map _).length ≤ sys.history.extendedPos + 1636 - 2 ^ 32 + 2 ^ 32
      rw [length_map]
      omega
    · intro q v _ hmeant
      have hlt := h.memberMeant_lt hmeant
      change q < sys.history.extendedPos + 1636 - 2 ^ 32 + 2 ^ 32
      omega
    · rw [length_map]
      rintro q v (⟨e, he, i, m, hi, rfl, rfl⟩ | ⟨hgap, rfl⟩)
      · rcases mem_cons.1 he with rfl | he
        · exact .inr ⟨i, rfl, by rw [getElem?_map, hi]; rfl⟩
        have hlt : i < e.members.length := (List.getElem?_eq_some_iff.1 hi).1
        rcases h.after_or (h.created e he) hc with rfl | hafter | hafter
        · exact .inr ⟨i, rfl, by rw [getElem?_map, hi]; rfl⟩
        · refine .inl ⟨.inl ⟨e, he, i, m, hi, rfl, rfl⟩, .inr ?_⟩
          have := hafter.slot_pos
          rw [endPos] at this
          omega
        · refine .inl ⟨.inl ⟨e, he, i, m, hi, rfl, rfl⟩, .inl ?_⟩
          have := hafter.slot_pos
          rw [endPos] at this
          omega
      · exact .inl ⟨.inr ⟨hgap, rfl⟩, h.gap_outside hgap hc⟩
    · intro i v hi
      rw [getElem?_map, map_eq_some_iff] at hi
      obtain ⟨m, hm, rfl⟩ := hi
      rw [ofNat_mod_size]
      exact hin i m.stored (by rw [getElem?_map, hm]; rfl)
    · intro s hs hne
      refine hout (.ofNat s) fun i hi heq => ?_
      rw [length_map] at hi hne
      exact hne i hi (ofNat_inj hs heq)

end Pg.MultiXact
