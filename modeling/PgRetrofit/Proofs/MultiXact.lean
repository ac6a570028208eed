import PgRetrofit.Lib.Result
import PgRetrofit.Proofs.Qsort
import PgRetrofit.Sanity.MultiXactSteps

/-! A multixact that has been created is read back with its members, as long as its storage has
not been handed out again and the counter of ids is not in the one state that the reader takes
for a creation in progress. -/

namespace Pg.MultiXact

open SerialOrder Creation List Nat UInt32 Member

variable {sys : System} {b : ℕ} {c d : Creation} {st : Step}

/-- What is expected of a step. A creation that has given up the lock does not find the counter
wrapped around to zero when it takes it again; and a creation records its offset and members
while they are its own, before the counters have gone all the way round. -/
def Regular (sys : System) : Step → Prop
  | .resume b _ => ∀ members, sys.phase b = .signalling members → sys.store.state.nextMXact ≠ 0
  | .recordOffset b => ∀ c, sys.phase b = .assigned c → sys.history.idPos ≤ c.idPos + 2 ^ 31
  | .recordMembers b =>
    ∀ c, sys.phase b = .offsetRecorded c → sys.history.extendedPos + 1636 ≤ c.slotPos + 2 ^ 32
  | _ => True

def RegularRun : System → List Step → Prop
  | _, [] => True
  | sys, st :: rest => Regular sys st ∧ RegularRun (step sys st).1 rest

theorem mxactMemberComparator_order : CmpOrder mxactMemberComparator fun _ => True := by
  refine .ofKey (fun m => (m.xid.toNat * 2 ^ 32 + m.status.code.toNat : ℕ)) fun x y _ _ => ?_
  have hx := x.status.code.toNat_lt
  have hy := y.status.code.toNat_lt
  rw [mxactMemberComparator]
  simp only [gt_iff_lt, lt_iff_toNat_lt]
  split
  · omega
  split
  · omega
  · split
    · omega
    · split <;> omega

theorem sortMembers_spec (members : List Member) :
    ∃ sorted, sortMembers members = some sorted ∧ sorted.Perm members ∧
    sorted.Pairwise fun m m' => mxactMemberComparator m m' ≤ 0 := by
  cases members with
  | nil => exact ⟨[], rfl, .nil, .nil⟩
  | cons first rest =>
    obtain ⟨mem, hrun, hperm, hsorted⟩ :=
      Qsort.pgQsort_list mxactMemberComparator_order (first :: rest) first
    refine ⟨_, ?_, hperm, hsorted⟩
    rw [sortMembers, hrun]
    rfl

def System.normalise (sys : System) : System :=
  sys.setStore { sys.store with state := handleWraparound sys.store.state }

inductive Moves (sys : System) : Step → System → Prop
  | stay (st : Step) : Moves sys st sys
  | refused (b : ℕ) (given : List Member) (r : Bool) (io : IoFailure) :
      Moves sys (.create b given r io) sys.normalise
  | signalled {b : ℕ} {given sorted : List Member} (r : Bool) (io : IoFailure)
      (hidle : sys.phase b = .idle)
      (hsize : given.length * sizeOfMember ≤ maxAllocSize) (hsort : sortMembers given = some sorted) :
      Moves sys (.create b given r io) (sys.normalise.setPhase b (.signalling sorted))
  | assigned {b : ℕ} {given sorted : List Member} (r : Bool) (io : IoFailure)
      (hidle : sys.phase b = .idle)
      (hsize : given.length * sizeOfMember ≤ maxAllocSize) (hsort : sortMembers given = some sorted) :
      Moves sys (.create b given r io)
      (sys.normalise.assign b io sys.normalise.store.state.nextMXact sorted).1
  | resumed {b : ℕ} {members : List Member} (io : IoFailure)
      (hphase : sys.phase b = .signalling members) :
      Moves sys (.resume b io) (sys.assign b io (chooseAgain sys.store.state) members).1
  | gaveUp {b : ℕ} {members : List Member} (fault : Fault) (hphase : sys.phase b = .signalling members) :
      Moves sys (.giveUp b fault) (sys.setPhase b .idle)
  | offset {b : ℕ} {c : Creation} (hphase : sys.phase b = .assigned c) : Moves sys (.recordOffset b)
        ({ sys with
          store := { sys.store with
            offsets := recordOffset sys.store.offsets c.multi c.offset } }.setPhase b
          (.offsetRecorded c))
  | members {b : ℕ} {c : Creation} (hphase : sys.phase b = .offsetRecorded c) :
      Moves sys (.recordMembers b) ({ sys with
          store := { sys.store with
            members := recordMembers sys.store.members c.offset (c.members.map Member.stored) }
          history := { sys.history with created := c :: sys.history.created } }.setPhase b .idle)
  | limits (oldestMultiXactId multiVacLimit multiStopLimit : MultiXactId) (oldestOffsetKnown : Bool)
      (offsetStopLimit : MultiXactOffset) :
      Moves sys
        (.setLimits oldestMultiXactId multiVacLimit multiStopLimit oldestOffsetKnown offsetStopLimit)
        { sys with store := { sys.store with state := { sys.store.state with
          oldestMultiXactId := oldestMultiXactId
          multiVacLimit := multiVacLimit
          multiStopLimit := multiStopLimit
          oldestOffsetKnown := oldestOffsetKnown
          offsetStopLimit := offsetStopLimit } } }

theorem getNewMultiXactId_moves {given sorted : List Member} (hidle : sys.phase b = .idle)
    (hsize : given.length * sizeOfMember ≤ maxAllocSize) (hsort : sortMembers given = some sorted)
    (r : Bool) (io : IoFailure) :
    Moves sys (.create b given r io) (sys.getNewMultiXactId b sorted r io).1 := by
  rw [System.getNewMultiXactId]
  split
  · exact .stay _
  obtain ⟨hstate, hchoice⟩ := checkLimits_spec sys.underPostmaster sys.store.state
  generalize checkLimits sys.underPostmaster sys.store.state = out at hstate hchoice
  obtain ⟨state, choice⟩ := out
  subst hstate
  cases choice with
  | error e => exact .refused b given r io
  | ok choice => ?_
  cases choice with
  | none => exact .signalled r io hidle hsize hsort
  | some result =>
    obtain rfl := hchoice result rfl
    exact .assigned r io hidle hsize hsort

theorem step_moves (sys : System) (st : Step) : Moves sys st (step sys st).1 := by
  cases st with
  | create b given r io =>
    rw [step]
    split
    next hidle =>
      split
      next hsize =>
        split
        · exact .stay _
        next sorted hsort =>
          split
          · exact .stay _
          · exact getNewMultiXactId_moves hidle hsize hsort r io
      next => exact .stay _
    next => exact .stay _
  | resume b io =>
    rw [step]
    split
    next members hphase => exact .resumed io hphase
    next => exact .stay _
  | giveUp b fault =>
    rw [step]
    split
    next members hphase => exact .gaveUp fault hphase
    next => exact .stay _
  | recordOffset b =>
    rw [step]
    split
    next c hphase => exact .offset hphase
    next => exact .stay _
  | recordMembers b =>
    rw [step]
    split
    next c hphase => exact .members hphase
    next => exact .stay _
  | setLimits => exact .limits ..

theorem sorted_size {given sorted : List Member} (hsort : sortMembers given = some sorted)
    (hsize : given.length * sizeOfMember ≤ maxAllocSize) :
    sorted.length * sizeOfMember ≤ maxAllocSize := by
  obtain ⟨l, hl, hperm, -⟩ := sortMembers_spec given
  obtain rfl : l = sorted := Option.mem_unique hl hsort
  rwa [hperm.length_eq]

theorem moves_inv {next : System} (hmove : Moves sys st next) (h : Inv sys)
    (hregular : Regular sys st) : Inv next := by
  cases hmove with
  | stay => exact h
  | refused => exact h.normalised
  | signalled r io hidle hsize hsort =>
    refine h.normalised.setPhase (congrArg Phase.creation? hidle) rfl fun ms hms => ?_
    rw [← Phase.signalling.inj hms]
    exact sorted_size hsort hsize
  | assigned r io hidle hsize hsort =>
    exact h.normalised.assign (handleWraparound_ne _) (congrArg Phase.creation? hidle)
      (sorted_size hsort hsize) io
  | resumed io hphase =>
    have hne := hregular _ hphase
    have hchoice : chooseAgain sys.store.state = sys.store.state.nextMXact :=
      if_neg fun hlt => hne (lt_first.1 hlt)
    rw [hchoice]
    exact h.assign hne (congrArg Phase.creation? hphase) (h.signalling _ _ hphase) io
  | gaveUp fault hphase =>
    exact h.setPhase (congrArg Phase.creation? hphase) rfl fun ms hms => nomatch hms
  | offset hphase => exact h.recordOffset hphase (hregular _ hphase)
  | members hphase => exact h.recordMembers hphase (hregular _ hphase)
  | limits => exact h.setState rfl rfl

theorem step_inv (h : Inv sys) (st : Step) (hregular : Regular sys st) : Inv (step sys st).1 :=
  moves_inv (step_moves sys st) h hregular

theorem run_inv (steps : List Step) (h : Inv sys) (hregular : RegularRun sys steps) :
    Inv (run sys steps) := by
  induction steps generalizing sys with
  | nil => exact h
  | cons st rest ih => exact ih (step_inv h st hregular.1) hregular.2

/-- These are the members of a creation in the run, as its call has left the array. -/
def Given (steps : List Step) (members : List Member) : Prop :=
  ∃ b given recoveryInProgress io, Step.create b given recoveryInProgress io ∈ steps ∧
    sortMembers given = some members

/-- Every array on its way into the store is one of these. -/
structure Among (P : List Member → Prop) (sys : System) : Prop where
  log : ∀ c ∈ sys.history.log, P c.members
  signalling : ∀ b ms, sys.phase b = .signalling ms → P ms

section Among

variable {P : List Member → Prop} {members : List Member} (h : Among P sys)
include h

theorem Among.setPhase {ph : Phase} (hph : ∀ ms, ph = .signalling ms → P ms) :
    Among P (sys.setPhase b ph) := by
  refine ⟨h.log, fun b' ms hms => ?_⟩
  rw [phase_setPhase] at hms
  split at hms
  · exact hph ms hms
  · exact h.signalling b' ms hms

theorem Among.assign (hP : P members) (io : IoFailure) (result : MultiXactId) :
    Among P (sys.assign b io result members).1 := by
  rw [System.assign]
  split
  · apply Among.setPhase
    · exact ⟨h.log, h.signalling⟩
    · rintro ms ⟨⟩
  apply Among.setPhase
  · refine ⟨fun c hc => ?_, h.signalling⟩
    rcases mem_cons.1 hc with rfl | hc
    · exact hP
    · exact h.log c hc
  · rintro ms ⟨⟩

theorem Among.step (hst : ∀ b given r io sorted, st = .create b given r io →
      sortMembers given = some sorted → P sorted) :
    Among P (step sys st).1 := by
  have hmove := step_moves sys st
  generalize (MultiXact.step sys st).1 = next at hmove ⊢
  cases hmove with
  | stay => exact h
  | refused => exact ⟨h.log, h.signalling⟩
  | signalled r io hidle hsize hsort =>
    apply Among.setPhase
    · exact ⟨h.log, h.signalling⟩
    · intro ms hms
      rw [← Phase.signalling.inj hms]
      exact hst _ _ _ _ _ rfl hsort
  | assigned r io hidle hsize hsort =>
    apply Among.assign
    · exact ⟨h.log, h.signalling⟩
    · exact hst _ _ _ _ _ rfl hsort
  | resumed io hphase => exact h.assign (h.signalling _ _ hphase) io _
  | gaveUp => exact h.setPhase fun ms hms => nomatch hms
  | offset | members =>
    apply Among.setPhase
    · exact ⟨h.log, h.signalling⟩
    · exact fun ms hms => nomatch hms
  | limits => exact ⟨h.log, h.signalling⟩

theorem Among.run (steps : List Step)
    (hsteps : ∀ b given recoveryInProgress io sorted, Step.create b given recoveryInProgress io ∈ steps →
      sortMembers given = some sorted → P sorted) : Among P (run sys steps) := by
  induction steps generalizing sys with
  | nil => exact h
  | cons st rest ih =>
    refine ih (h.step ?_) ?_
    · rintro b given recoveryInProgress io sorted rfl
      exact hsteps b given recoveryInProgress io sorted mem_cons_self
    · intro b given recoveryInProgress io sorted hmem
      exact hsteps b given recoveryInProgress io sorted (mem_cons_of_mem _ hmem)

end Among

theorem run_given (store : Store) (underPostmaster : Bool) (steps : List Step)
    (hc : c ∈ (run (System.start store underPostmaster) steps).history.log) : Given steps c.members := by
  have hstart : Among (Given steps) (System.start store underPostmaster) :=
    { log := fun c hc => nomatch hc
      signalling := fun b ms hms => nomatch hms }
  refine (hstart.run steps ?_).log c hc
  exact fun b given recoveryInProgress io sorted hmem hsort =>
    ⟨b, given, recoveryInProgress, io, hmem, hsort⟩

/-- The storage of a creation has not been given to others, nor been truncated. -/
structure Retained (sys : System) (c : Creation) : Prop where
  id : sys.history.idPos ≤ c.idPos + 2 ^ 31
  slots : sys.history.extendedPos + 1636 ≤ c.slotPos + 2 ^ 32
  oldest : multiXactIdPrecedes c.multi sys.store.state.oldestMultiXactId = false

/-- Nobody has been given an id without having recorded its members. -/
def NonePending (sys : System) : Prop := ∀ b, (sys.phase b).creation? = none

theorem Inv.readOffset (h : Inv sys) (hc : c ∈ sys.history.created)
    (hid : sys.history.idPos ≤ c.idPos + 2 ^ 31) :
    readOffset sys.store.offsets c.multi = c.offset := by
  have hfirst : sys.history.idPos - 2 ^ 31 ≤ c.idPos := by omega
  have hkept := h.offsets c.idPos c.offset hfirst ⟨c, .inl hc, rfl, rfl⟩
  dsimp only at hkept
  rwa [ofNat_mod_size, ← (h.fits c (h.created c hc)).multi] at hkept

theorem precedes_next {p q : ℕ} (hpq : p < q) (hq : q ≤ p + 2 ^ 31) :
    multiXactIdPrecedes (.ofNat p) (.ofNat q) = true := by
  rw [multiXactIdPrecedes, decide_eq_true_eq, signed_eq, UInt32.toNat_sub, toNat_ofNat', toNat_ofNat']
  split <;> omega

theorem head_or_followed {log : List Creation} (hc : c ∈ log) :
    c ∈ log.head? ∨ ∃ d, [d, c] <:+: log := by
  obtain ⟨newer, older, rfl⟩ := append_of_mem hc
  rcases eq_nil_or_concat newer with rfl | ⟨newer, d, rfl⟩
  · exact .inl rfl
  · refine .inr ⟨d, newer, older, ?_⟩
    simp

/-- The range ends with the last member, or with the empty slot 0 behind it. -/
theorem Inv.findRange (h : Inv sys) (hpending : NonePending sys) (hc : c ∈ sys.history.created)
    (hid : sys.history.idPos ≤ c.idPos + 2 ^ 31)
    (hwrap : ¬ (c.multi = maxMultiXactId ∧ sys.store.state.nextMXact = firstMultiXactId)) (fuel : ℕ) :
    ∃ len, findRange sys.store sys.store.state.nextMXact sys.store.state.nextOffset c.multi (fuel + 1) =
      .ok (c.offset, .ofNat len) ∧
      (len = c.members.length ∨ len = c.members.length + 1 ∧ Gap sys.history.log c.endPos) := by
  have hlog := h.created c hc
  have hfits := h.fits c hlog
  have htmp : c.multi + 1 = .ofNat (c.idPos + 1) := by rw [hfits.multi, ofNat_succ]
  have hsub (p : ℕ) (hp : c.slotPos ≤ p) : UInt32.ofNat p - c.offset = .ofNat (p - c.slotPos) := by
    rw [hfits.offset, ← ofNat_sub hp]
  rw [MultiXact.findRange]
  dsimp only
  rw [h.readOffset hc hid]
  rcases head_or_followed hlog with hhead | ⟨d, hinfix⟩
  · obtain ⟨hnext, hslot⟩ := h.last c hhead
    have hlatest : sys.store.state.nextMXact = c.multi + 1 := by
      rw [h.nextMXact, htmp]
      rcases hnext with hnext | hnext
      · rw [hnext]
      by_cases hzero : (c.idPos + 1) % 2 ^ 32 = 0
      · refine absurd ⟨?_, ?_⟩ hwrap
        · apply UInt32.toNat_inj.1
          rw [hfits.multi, toNat_ofNat']
          change _ = 2 ^ 32 - 1
          omega
        · rw [h.nextMXact, hnext, skip_of_eq hzero, ← ofNat_succ, ofNat_eq_zero.2 hzero]
          rfl
      · rw [hnext, skip_of_ne hzero]
    rw [if_pos hlatest, h.nextOffset, hslot, hsub _ c.slotPos_le_endPos]
    refine ⟨c.members.length, ?_, .inl rfl⟩
    rw [endPos, Nat.add_sub_cancel_left]
  have hdlog : d ∈ sys.history.log := hinfix.subset (by simp)
  have hfollows := h.follows hinfix
  have hdcreated : d ∈ sys.history.created := by
    rcases h.logged d hdlog with hcreated | ⟨b, hb⟩
    · exact hcreated
    · rw [hpending b] at hb
      cases hb
  have hdid := hfollows.id_pos
  have hdnext := (h.before_next hdlog).1
  have hskip := skip_ge (c.idPos + 1)
  have hother : sys.store.state.nextMXact ≠ c.multi + 1 := by
    rw [h.nextMXact, htmp]
    intro heq
    have hmod := congrArg UInt32.toNat heq
    rw [toNat_ofNat', toNat_ofNat'] at hmod
    omega
  have hnextMulti : (if c.multi + 1 < firstMultiXactId then firstMultiXactId
      else c.multi + 1) = d.multi := by
    rw [(h.fits d hdlog).multi, hdid, htmp]
    by_cases hzero : (c.idPos + 1) % 2 ^ 32 = 0
    · rw [if_pos (lt_first.2 (ofNat_eq_zero.2 hzero)), skip_of_eq hzero, ← ofNat_succ,
        ofNat_eq_zero.2 hzero]
      rfl
    · rw [if_neg fun hlt => hzero (ofNat_eq_zero.1 (lt_first.1 hlt)), skip_of_ne hzero]
  have hdoffset : d.offset ≠ 0 := by
    rw [(h.fits d hdlog).offset]
    exact fun hzero => (h.fits d hdlog).slot_pos (ofNat_eq_zero.1 hzero)
  rw [if_neg hother, hnextMulti, h.readOffset hdcreated (by omega), if_neg hdoffset,
    (h.fits d hdlog).offset, hfollows.slot_pos]
  have hge := skip_ge c.endPos
  refine ⟨skip c.endPos - c.slotPos, ?_, ?_⟩
  · rw [hsub _ (c.slotPos_le_endPos.trans hge)]
  by_cases hzero : c.endPos % 2 ^ 32 = 0
  · right
    refine ⟨?_, d, c, hinfix, rfl, hzero⟩
    rw [skip_of_eq hzero, endPos]
    omega
  · left
    rw [skip_of_ne hzero, endPos, Nat.add_sub_cancel_left]

theorem filterMap_range_eq {α : Type} {l : List α} {f : ℕ → Option α}
    (h : ∀ i a, l[i]? = some a → f i = some a) :
    (List.range l.length).filterMap f = l := by
  induction l using reverseRecOn with
  | nil => rfl
  | append_singleton l a ih =>
    rw [length_append, length_singleton, range_succ, filterMap_append]
    rw [ih fun i b hi => h i b ?_]
    · have hlast : f l.length = some a := h _ _ (by simp)
      simp [hlast]
    · rwa [List.getElem?_append_left (List.getElem?_eq_some_iff.1 hi).1]

theorem Inv.readMembers (h : Inv sys) (hc : c ∈ sys.history.created)
    (hslots : sys.history.extendedPos + 1636 ≤ c.slotPos + 2 ^ 32) {len : ℕ}
    (hlen : len = c.members.length ∨ len = c.members.length + 1 ∧ Gap sys.history.log c.endPos) :
    readMembers sys.store.members c.offset len = c.members.map stored := by
  have hfits := h.fits c (h.created c hc)
  have hkept (i : ℕ) (v : Option StoredMember) (hv : MemberMeant sys (c.slotPos + i) v) :
      memberAt sys.store.members (c.offset + .ofNat i) = v := by
    have hfirst : sys.history.extendedPos + 1636 - 2 ^ 32 ≤ c.slotPos + i := by omega
    have hcell := h.members (c.slotPos + i) v hfirst hv
    dsimp only at hcell
    rwa [ofNat_mod_size, ofNat_add, ← hfits.offset] at hcell
  have hmembers :
    (range c.members.length).filterMap (fun i => memberAt sys.store.members (c.offset + .ofNat i)) =
      c.members.map stored := by
    rw [← length_map]
    refine filterMap_range_eq fun i m hi => ?_
    rw [getElem?_map, Option.map_eq_some_iff] at hi
    obtain ⟨m', hm', rfl⟩ := hi
    exact hkept i _ (.inl ⟨c, hc, i, m', hm', rfl, rfl⟩)
  rw [readMembers_eq]
  rcases hlen with rfl | ⟨rfl, hgap⟩
  · exact hmembers
  · have hempty := hkept c.members.length none (.inr ⟨hgap, rfl⟩)
    rw [range_succ, filterMap_append, hmembers]
    simp [hempty]

theorem memberArraySize_ofNat (len : ℕ) (hlen : len < 2 ^ 31) :
    memberArraySize (.ofNat len) = len * sizeOfMember ∧ (signed (.ofNat len)).toNat = len := by
  have hsigned : signed (.ofNat len) = len := by
    rw [signed_eq, toNat_ofNat']
    split <;> omega
  rw [memberArraySize, sizeOfMember]
  omega

theorem Inv.getMultiXactIdMembers (h : Inv sys) (hpending : NonePending sys)
    (hc : c ∈ sys.history.created) (hretained : Retained sys c)
    (hwrap : ¬ (c.multi = maxMultiXactId ∧ sys.store.state.nextMXact = firstMultiXactId))
    (hsize : (c.members.length + 1) * sizeOfMember ≤ maxAllocSize) {onlyLock : Bool}
    {oldestVisibleMXactId : MultiXactId}
    (hlock : (onlyLock && multiXactIdPrecedes c.multi oldestVisibleMXactId) = false) (fuel : ℕ) :
    getMultiXactIdMembers (fuel + 1) sys.store c.multi false onlyLock oldestVisibleMXactId =
      .ok (some (c.members.map stored)) := by
  have hfits := h.fits c (h.created c hc)
  have hvalid : (!multiXactIdIsValid c.multi || false) = false := by
    have hne : c.multi ≠ 0 := by
      rw [hfits.multi]
      exact fun hzero => hfits.id_pos (ofNat_eq_zero.1 hzero)
    simp [multiXactIdIsValid, invalidMultiXactId, hne]
  have hnext : multiXactIdPrecedes c.multi sys.store.state.nextMXact = true := by
    rw [hfits.multi, h.nextMXact]
    exact precedes_next (h.before_next (h.created c hc)).1 hretained.id
  obtain ⟨len, hrange, hlen⟩ := h.findRange hpending hc hretained.id hwrap fuel
  rw [sizeOfMember, maxAllocSize] at hsize
  obtain ⟨hbytes, hcount⟩ := memberArraySize_ofNat len (by omega)
  rw [MultiXact.getMultiXactIdMembers, hvalid, hlock, hretained.oldest, hnext, hrange]
  simp only [Bool.false_eq_true, if_false, Bool.not_true, Result.ok_bind]
  rw [hbytes, hcount, palloc_ok, h.readMembers hc hretained.slots hlen]
  · rfl
  · rw [sizeOfMember, maxAllocSize]
    omega

/-- Whatever has been created, interrupted or refused before: a creation of the run whose storage
is retained is read back by the first attempt, with the members of its call as sorted there. -/
theorem run_read_back (store : Store) (underPostmaster : Bool) (steps : List Step)
    (hregular : RegularRun (System.start store underPostmaster) steps)
    (hc : c ∈ (run (System.start store underPostmaster) steps).history.created)
    (hpending : NonePending (run (System.start store underPostmaster) steps))
    (hretained : Retained (run (System.start store underPostmaster) steps) c)
    (hwrap : ¬ (c.multi = maxMultiXactId ∧
      (run (System.start store underPostmaster) steps).store.state.nextMXact = firstMultiXactId))
    (hsize : (c.members.length + 1) * sizeOfMember ≤ maxAllocSize) :
    (∃ b given recoveryInProgress io, Step.create b given recoveryInProgress io ∈ steps ∧
      c.members.Perm given ∧ c.members.Pairwise fun m m' => mxactMemberComparator m m' ≤ 0) ∧
    ∀ fuel onlyLock oldestVisibleMXactId,
      (onlyLock && multiXactIdPrecedes c.multi oldestVisibleMXactId) = false →
      getMultiXactIdMembers (fuel + 1) (run (System.start store underPostmaster) steps).store
      c.multi false onlyLock
        oldestVisibleMXactId = .ok (some (c.members.map Member.stored)) := by
  have hinv := run_inv steps (inv_start store underPostmaster) hregular
  constructor
  · obtain ⟨b, given, recoveryInProgress, io, hmem, hsort⟩ :=
      run_given store underPostmaster steps (hinv.created c hc)
    obtain ⟨sorted, hsorted, hperm, hpairwise⟩ := sortMembers_spec given
    obtain rfl : sorted = c.members := Option.mem_unique hsorted hsort
    exact ⟨b, given, recoveryInProgress, io, hmem, hperm, hpairwise⟩
  · intro fuel onlyLock oldestVisibleMXactId hlock
    exact hinv.getMultiXactIdMembers hpending hc hretained hwrap hsize hlock fuel

/-- The last id is next; five of the member slots before the stop limit are free, and the oldest
multixact lies a segment behind it. -/
def lastIdStore : Store where
  state :=
    { nextMXact := 0xFFFFFFFF
      nextOffset := 104699
      oldestMultiXactId := 0xFFF00000
      multiVacLimit := 0xFFF00000 + 200000000
      multiStopLimit := 0xFFF00000 + 0x7FFFFFFF - 100
      oldestOffsetKnown := true
      offsetStopLimit := 104704 }
  offsets := ⟨fun _ _ => 0⟩
  members := ⟨fun _ _ => 0⟩

def keyShare (xid : TransactionId) (h : transactionIdIsValid xid = true) : Member :=
  ⟨⟨xid, .forKeyShare⟩, h⟩

def twoLockers : List Member := [keyShare 701 rfl, keyShare 700 rfl]

def threeLockers : List Member := [keyShare 700 rfl, keyShare 701 rfl, keyShare 702 rfl]

def lastIdSteps : List Step := [.create 0 twoLockers false .none, .recordOffset 0, .recordMembers 0]

def lastCreation : Creation :=
  ⟨0xFFFFFFFF, 104699, [keyShare 700 rfl, keyShare 701 rfl], 0xFFFFFFFF, 104699⟩

/-- While nobody has asked for another id, the counter is zero and the last id is read back. -/
theorem run_read_back_last_id :
    (run (System.start lastIdStore true) lastIdSteps).store.state.nextMXact = 0 ∧
    getMultiXactIdMembers 1 (run (System.start lastIdStore true) lastIdSteps).store
      0xFFFFFFFF false false 0 = .ok (some [⟨700, 0⟩, ⟨701, 0⟩]) := by
  have hregular : RegularRun (System.start lastIdStore true) lastIdSteps := by
    refine ⟨trivial, fun c hc => ?_, fun c hc => ?_, trivial⟩
    · have hphase : (step (System.start lastIdStore true) (.create 0 twoLockers false .none)).1.phase 0 =
          .assigned lastCreation := by
        decide +kernel
      obtain rfl := Phase.assigned.inj (hphase.symm.trans hc)
      decide +kernel
    · have hphase :
        (run (System.start lastIdStore true) [.create 0 twoLockers false .none,
          .recordOffset 0]).phase 0 = .offsetRecorded lastCreation := by
        decide +kernel
      obtain rfl := Phase.offsetRecorded.inj (hphase.symm.trans hc)
      decide +kernel
  have hpending : NonePending (run (System.start lastIdStore true) lastIdSteps) := by
    intro b
    cases b with
    | zero => rfl
    | succ b => rfl
  have hnext : (run (System.start lastIdStore true) lastIdSteps).store.state.nextMXact = 0 := by
    decide +kernel
  refine ⟨hnext, ?_⟩
  have hread :=
    (run_read_back lastIdStore true lastIdSteps hregular (c := lastCreation) (by decide +kernel) hpending
      ⟨by decide +kernel, by decide +kernel, by decide +kernel⟩ (by decide) (by decide)).2
  exact hread 0 false 0 rfl

theorem findRange_diverges (store : Store) (nextMXact : MultiXactId) (nextOffset : MultiXactOffset)
    (multi : MultiXactId) (hnext : nextMXact ≠ multi + 1)
    (hzero : readOffset store.offsets (if multi + 1 < firstMultiXactId then firstMultiXactId
      else multi + 1) = 0) (fuel : ℕ) :
    findRange store nextMXact nextOffset multi fuel = .error .diverges := by
  induction fuel with
  | zero => rfl
  | succ fuel ih =>
    rw [findRange]
    rw [if_neg hnext, if_pos hzero]
    exact ih

/-- After the last id, a creation with three members has been refused. -/
def refusedSystem : System :=
  run (System.start lastIdStore true) (lastIdSteps ++ [.create 1 threeLockers false .none])

/-- The creation after the last id is refused for want of member slots, but only after the counter
has been moved from zero to `FirstMultiXactId`. The reader then takes that id for the next
multixact and waits for its offset, which nobody is going to write. -/
theorem read_last_id_diverges :
    lastCreation ∈ refusedSystem.history.created ∧ NonePending refusedSystem ∧
    Retained refusedSystem lastCreation ∧
      ¬ ∃ fuel result,
      getMultiXactIdMembers fuel refusedSystem.store lastCreation.multi false false 0 = .ok result := by
  refine ⟨by decide +kernel, ?_, ⟨by decide +kernel, by decide +kernel, by decide +kernel⟩, ?_⟩
  · intro b
    rcases b with _ | _ | b
    · rfl
    · rfl
    · rfl
  · rintro ⟨fuel, result, hread⟩
    have hrange := findRange_diverges refusedSystem.store refusedSystem.store.state.nextMXact
      refusedSystem.store.state.nextOffset lastCreation.multi (by decide +kernel)
      (by decide +kernel) fuel
    rw [getMultiXactIdMembers, hrange] at hread
    cases hread

variable {members : List Member}

/-- A creation that has given up the lock and finds the counter at zero is given `FirstMultiXactId`
and leaves the counter there: the next creation is given the same id. -/
theorem resume_at_zero (io : IoFailure) (hzero : sys.store.state.nextMXact = 0)
    (hphase : sys.phase b = .signalling members)
    (hc : (step sys (.resume b io)).1.phase b = .assigned c) :
    c.multi = firstMultiXactId ∧
      (step sys (.resume b io)).1.store.state.nextMXact = firstMultiXactId := by
  have hchoice : chooseAgain sys.store.state = firstMultiXactId := if_pos (lt_first.2 hzero)
  obtain ⟨pages, -, hspec⟩ := assign_spec io sys.store firstMultiXactId members.length
  rw [step, hphase] at hc ⊢
  dsimp only at hc ⊢
  rw [hchoice, System.assign] at hc ⊢
  split at hc
  next e he =>
    rw [phase_setPhase, if_pos rfl] at hc
    cases hc
  rename_i o ho
  rw [phase_setPhase, if_pos rfl] at hc
  have hstate := (hspec.done o ho).2.2
  refine ⟨?_, ?_⟩
  · rw [← Phase.assigned.inj hc]
  change (assign io sys.store firstMultiXactId members.length).store.state.nextMXact = _
  rw [hstate]
  rw [hzero]
  rfl

/-- The member slots of the run start at `first`, and `stop` is the position of the stop limit. -/
structure Guarded (first stop : ℕ) (sys : System) : Prop where
  known : sys.store.state.oldestOffsetKnown = true
  limit : sys.store.state.offsetStopLimit = .ofNat stop
  next : sys.store.state.nextOffset = .ofNat sys.history.slotPos
  first_le : first ≤ sys.history.slotPos
  extended : sys.history.slotPos ≤ sys.history.extendedPos
  extended_lt : sys.history.extendedPos < stop
  log : ∀ c ∈ sys.history.log, first ≤ c.slotPos
  among : Among (fun ms => ms.length * sizeOfMember ≤ maxAllocSize) sys

section Guarded

variable {first stop : ℕ} (h : Guarded first stop sys)
include h

/-- The counter and its position go on together. -/
theorem Guarded.next_eq (next : MultiXactOffset) :
    next = .ofNat (sys.history.slotPos + (next - sys.store.state.nextOffset).toNat) := by
  rw [ofNat_add, UInt32.ofNat_toNat, ← h.next, UInt32.add_comm, UInt32.sub_add_cancel]

theorem Guarded.extended_same :
    sys.history.slotPos + (sys.store.state.nextOffset - sys.store.state.nextOffset).toNat ≤
      sys.history.extendedPos := by
  rw [UInt32.sub_self]
  exact h.extended

theorem Guarded.assign (hstop : stop ≤ first + 2 ^ 32)
    (hsize : members.length * sizeOfMember ≤ maxAllocSize) (io : IoFailure) (result : MultiXactId) :
    Guarded first stop (sys.assign b io result members).1 := by
  obtain ⟨pages, -, hspec⟩ := assign_spec io sys.store result members.length
  have hamong := h.among.assign (b := b) hsize io result
  have hfirst := h.first_le
  have hslot := h.extended
  have hext := h.extended_lt
  rw [System.assign] at hamong ⊢
  generalize MultiXact.assign io sys.store result members.length = out at *
  -- what is asked of `ExtendMultiXactMember` stops before the limit
  have hreach : sys.history.slotPos + out.extended < stop := by
    by_cases hzero : out.extended = 0
    · omega
    obtain ⟨htaken, hwrap⟩ := hspec.guarded h.known hzero
    rw [h.limit, h.next] at hwrap
    refine wouldWrap_false (by omega) (by omega) ?_ hwrap
    rw [htaken, slotsTaken]
    rw [sizeOfMember, maxAllocSize] at hsize
    split <;> omega
  obtain ⟨⟨state, offsets, slru⟩, extended, outcome⟩ := out
  cases outcome with
  | error e =>
    obtain rfl := hspec.failed e rfl
    exact ⟨h.known, h.limit, h.next_eq _, hfirst.trans (le_add_right _ _),
      le_max_of_le_left h.extended_same, max_lt hext hreach, h.log, hamong⟩
  | ok offset => ?_
  obtain ⟨-, htaken, rfl⟩ := hspec.done offset rfl
  refine ⟨h.known, h.limit, h.next_eq _, hfirst.trans (le_add_right _ _), le_max_of_le_right ?_,
    max_lt hext hreach, ?_, hamong⟩
  · refine htaken ▸ Nat.add_le_add_left ?_ _
    change toNat (_ + _ - _) ≤ _
    rw [UInt32.add_comm, UInt32.add_sub_cancel]
    exact mod_le _ _
  intro c hc
  rcases mem_cons.1 hc with rfl | hc
  · exact hfirst.trans (le_add_right _ _)
  · exact h.log c hc

theorem Guarded.normalise : Guarded first stop sys.normalise := by
  rw [System.normalise, handleWraparound]
  split <;> exact ⟨h.known, h.limit, h.next_eq _, h.first_le.trans (le_add_right _ _),
    h.extended_same, h.extended_lt, h.log, h.among.log, h.among.signalling⟩

theorem Guarded.step (hstop : stop ≤ first + 2 ^ 32) (hst : ∀ a b c d e, st ≠ .setLimits a b c d e) :
    Guarded first stop (step sys st).1 := by
  have hmove := step_moves sys st
  generalize (MultiXact.step sys st).1 = next at hmove ⊢
  cases hmove with
  | stay => exact h
  | refused => exact h.normalise
  | signalled r io hidle hsize hsort =>
    refine { h.normalise with among := h.normalise.among.setPhase fun ms hms => ?_ }
    rw [← Phase.signalling.inj hms]
    exact sorted_size hsort hsize
  | assigned r io hidle hsize hsort => exact h.normalise.assign hstop (sorted_size hsort hsize) io _
  | resumed io hphase => exact h.assign hstop (h.among.signalling _ _ hphase) io _
  | gaveUp | offset | members =>
    refine { h with among := ?_ }
    apply Among.setPhase
    · exact ⟨h.among.log, h.among.signalling⟩
    · rintro _ ⟨⟩
  | limits a b c d e => exact absurd rfl (hst a b c d e)

theorem Guarded.run (hstop : stop ≤ first + 2 ^ 32) (steps : List Step)
    (hsteps : ∀ st ∈ steps, ∀ a b c d e, st ≠ .setLimits a b c d e) :
    Guarded first stop (run sys steps) := by
  induction steps generalizing sys with
  | nil => exact h
  | cons st rest ih =>
    refine ih (h.step hstop (hsteps st mem_cons_self)) ?_
    exact fun st hst => hsteps st (mem_cons_of_mem _ hst)

/-- While a known stop limit a page behind the first slot of the run stays in force, no slot given to
a creation is handed out again, in whatever order the backends run. -/
theorem member_slots_kept (hstop : stop + 1636 ≤ first + 2 ^ 32) (steps : List Step)
    (hsteps : ∀ st ∈ steps, ∀ a b c d e, st ≠ .setLimits a b c d e)
    (hc : c ∈ (run sys steps).history.log) :
    (run sys steps).history.extendedPos + 1636 ≤ c.slotPos + 2 ^ 32 := by
  have hrun := h.run (by omega) steps hsteps
  have hfirst := hrun.log c hc
  have hext := hrun.extended_lt
  omega

end Guarded

/-- Two creations take four of the five slots before the stop limit, and a third one is refused. -/
def limitSteps : List Step :=
  [.create 0 twoLockers false .none, .create 1 twoLockers false .none,
    .create 2 threeLockers false .none]

theorem member_slots_kept_limit :
    (run (.start lastIdStore true) limitSteps).history.log.map Creation.slotPos = [104701, 104699] ∧
      (run (.start lastIdStore true) limitSteps).history.extendedPos = 104703 ∧
      (run (.start lastIdStore true) limitSteps).history.extendedPos + 1636 ≤
        lastCreation.slotPos + 2 ^ 32 := by
  have hstart : Guarded 104699 104704 (.start lastIdStore true) :=
    ⟨rfl, rfl, rfl, le_rfl, le_rfl, by decide, by rintro _ ⟨⟩, by rintro _ ⟨⟩, by rintro _ _ ⟨⟩⟩
  refine ⟨by decide +kernel, by decide +kernel, ?_⟩
  exact member_slots_kept hstart (by decide) limitSteps (by simp [limitSteps]) (by decide +kernel)

end Pg.MultiXact
