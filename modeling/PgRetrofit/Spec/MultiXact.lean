import PgRetrofit.Spec.Backend
import PgRetrofit.Spec.Qsort
import PgRetrofit.Spec.Transam

/-! Multixacts, `access/transam/multixact.c`: how an id and a range of member slots are handed
out, where the members are written, and how they are read back. A creation is split at its
locks: `GetNewMultiXactId` holds `MultiXactGenLock`, once or twice, and `RecordNewMultiXact`
holds `MultiXactOffsetControlLock` and then `MultiXactMemberControlLock`. The local cache is
left out: a set of members found there needs no creation. -/

namespace Pg.MultiXact

abbrev MultiXactId := UInt32
abbrev MultiXactOffset := UInt32

def invalidMultiXactId : MultiXactId := 0
def firstMultiXactId : MultiXactId := 1
def maxMultiXactId : MultiXactId := 0xFFFFFFFF
def maxMultiXactOffset : MultiXactOffset := 0xFFFFFFFF

def multiXactIdIsValid (multi : MultiXactId) : Bool := multi != invalidMultiXactId

/-- `(int32) (multi1 - multi2) < 0` -/
def multiXactIdPrecedes (multi1 multi2 : MultiXactId) : Bool := SerialOrder.signed (multi1 - multi2) < 0

/-- A member as it is given to a creation. Zero is not a transaction id. -/
structure Member extends MultiXactMember where
  xid_valid : transactionIdIsValid xid = true
deriving DecidableEq

/-- A member as it is read back: the status is whatever byte is found. -/
structure StoredMember where
  xid : TransactionId
  status : UInt32
deriving DecidableEq, Repr

def Member.stored (m : Member) : StoredMember := ⟨m.xid, m.status.code⟩

def mxactMemberComparator (member1 member2 : Member) : ℤ :=
  if member1.xid > member2.xid then 1
  else if member1.xid < member2.xid then -1
  else if member1.status.code > member2.status.code then 1
  else if member1.status.code < member2.status.code then -1
  else 0

def sizeOfMember : ℕ := 8

def multixactOffsetsPerPage : ℕ := blcksz / 4

def multiXactIdToOffsetPage (multi : MultiXactId) : ℕ := multi.toNat / multixactOffsetsPerPage
def multiXactIdToOffsetEntry (multi : MultiXactId) : ℕ := multi.toNat % multixactOffsetsPerPage

def mxactMemberBitsPerXact : UInt32 := 8

def mxactMemberXactBitmask : UInt32 := (1 <<< mxactMemberBitsPerXact) - 1

/-- `MULTIXACT_FLAGBYTES_PER_GROUP`, also `MULTIXACT_MEMBERS_PER_MEMBERGROUP` -/
def multixactFlagbytesPerGroup : ℕ := 4
def multixactMembersPerMembergroup : ℕ := multixactFlagbytesPerGroup

def multixactMembergroupSize : ℕ := 4 * multixactMembersPerMembergroup + multixactFlagbytesPerGroup

def multixactMembergroupsPerPage : ℕ := blcksz / multixactMembergroupSize

def multixactMembersPerPage : ℕ := multixactMembergroupsPerPage * multixactMembersPerMembergroup

def maxMembersInLastMembersPage : UInt32 := UInt32.ofNat (0xFFFFFFFF % multixactMembersPerPage + 1)

def mxOffsetToMemberPage (offset : MultiXactOffset) : ℕ := offset.toNat / multixactMembersPerPage

/-- the byte in the page where the flag word of a member's group starts -/
def mxOffsetToFlagsOffset (offset : MultiXactOffset) : ℕ :=
  offset.toNat / multixactMembersPerMembergroup % multixactMembergroupsPerPage * multixactMembergroupSize

def mxOffsetToFlagsBitShift (offset : MultiXactOffset) : UInt32 :=
  offset % UInt32.ofNat multixactMembersPerMembergroup * mxactMemberBitsPerXact

/-- the byte in the page where a member's transaction id starts -/
def mxOffsetToMemberOffset (offset : MultiXactOffset) : ℕ :=
  mxOffsetToFlagsOffset offset + multixactFlagbytesPerGroup + offset.toNat %
    multixactMembersPerMembergroup * 4

/-- The pages of an SLRU area, each a map to its 32-bit words. Words of the offsets area are
numbered, those of the members area are found at their byte in the page. -/
structure Slru where
  word : ℕ → ℕ → UInt32

def Slru.write (slru : Slru) (pageno index : ℕ) (value : UInt32) : Slru :=
  ⟨fun p w => if p = pageno ∧ w = index then value else slru.word p w⟩

/-- `ZeroMultiXactOffsetPage`, `ZeroMultiXactMemberPage` -/
def Slru.zeroPage (slru : Slru) (pageno : ℕ) : Slru :=
  ⟨fun p w => if p = pageno then 0 else slru.word p w⟩

def Slru.zeroPages (slru : Slru) (pages : List ℕ) : Slru := pages.foldl Slru.zeroPage slru

/-- `MultiXactStateData`, what the modelled functions read of it -/
structure MultiXactState where
  nextMXact : MultiXactId
  nextOffset : MultiXactOffset
  oldestMultiXactId : MultiXactId
  multiVacLimit : MultiXactId
  multiStopLimit : MultiXactId
  oldestOffsetKnown : Bool
  offsetStopLimit : MultiXactOffset

structure Store where
  state : MultiXactState
  offsets : Slru
  members : Slru

/-- The pages that `ExtendMultiXactOffset` zeroes: none except at the first id of a page, which
is `FirstMultiXactId` on page zero. -/
def extendMultiXactOffset (multi : MultiXactId) : List ℕ :=
  if multiXactIdToOffsetEntry multi ≠ 0 ∧ multi ≠ firstMultiXactId then []
    else [multiXactIdToOffsetPage multi]

def membersLeftInPage (offset : MultiXactOffset) : UInt32 :=
  if offset + maxMembersInLastMembersPage < offset then maxMultiXactOffset - offset + 1
  else UInt32.ofNat (multixactMembersPerPage - offset.toNat % multixactMembersPerPage)

/-- The pages that `ExtendMultiXactMember` zeroes, in order. A round of its loop goes on to the
next page, so that there are at most `nmembers` of them. -/
def extendLoop : ℕ → MultiXactOffset → ℤ → List ℕ
  | 0, _, _ => []
  | fuel + 1, offset, nmembers =>
    if nmembers > 0 then
      let difference := membersLeftInPage offset
      let rest := extendLoop fuel (offset + difference) (nmembers - difference.toNat)
      if mxOffsetToFlagsOffset offset = 0 ∧ mxOffsetToFlagsBitShift offset = 0 then
        mxOffsetToMemberPage offset :: rest
      else rest
    else []

def extendMultiXactMember (offset : MultiXactOffset) (nmembers : ℕ) : List ℕ :=
  extendLoop nmembers offset nmembers

def multiXactOffsetWouldWrap (boundary start : MultiXactOffset) (distance : UInt32) : Bool :=
  let finish := if start + distance < start then start + distance + 1 else start + distance
  if start < boundary then finish ≥ boundary || finish < start
  else finish ≥ boundary && finish < start

/-- Where an input or output error strikes: in `ExtendMultiXactOffset`, before or after its page
is zeroed, or in `ExtendMultiXactMember` with some of its pages zeroed. -/
inductive IoFailure
  | none
  | extendOffset (zeroed : Bool)
  | extendMember (zeroed : ℕ)
deriving DecidableEq

def ioError : Fault := .elog "could not access status of transaction 0"
def membersLimitExceeded : Fault := .elog "multixact \"members\" limit exceeded"
def stopLimitReached : Fault :=
  .elog
    "database is not accepting commands that generate new MultiXactIds to avoid wraparound data loss in database"

def handleWraparound (state : MultiXactState) : MultiXactState :=
  if state.nextMXact < firstMultiXactId then { state with nextMXact := firstMultiXactId } else state

/-- The first section under `MultiXactGenLock`, up to the point where the lock is given up if
the vacuum limit has been passed. Then the result is `none`: the id will be chosen again. -/
def checkLimits (underPostmaster : Bool) (state : MultiXactState) :
    MultiXactState × Except Fault (Option MultiXactId) :=
  let state := handleWraparound state
  let result := state.nextMXact
  if !multiXactIdPrecedes result state.multiVacLimit then
    if underPostmaster && !multiXactIdPrecedes result state.multiStopLimit then
      (state, .error stopLimitReached)
    else (state, .ok none)
  else (state, .ok (some result))

def chooseAgain (state : MultiXactState) : MultiXactId :=
  if state.nextMXact < firstMultiXactId then firstMultiXactId else state.nextMXact

/-- What `GetNewMultiXactId` leaves: the shared data, the slots it asked `ExtendMultiXactMember`
for (none if it did not come that far), and the start offset unless there was an error. -/
structure Assigned where
  store : Store
  extended : ℕ
  offset : Except Fault MultiXactOffset

/-- the number of slots a request takes: slot 0 is allocated too when it comes next -/
def slotsTaken (nextOffset : MultiXactOffset) (nmembers : ℕ) :
    ℕ := if nextOffset = 0 then nmembers + 1 else nmembers

/-- the start offset; no multixact starts at slot 0 -/
def startOffset (nextOffset : MultiXactOffset) : MultiXactOffset :=
  if nextOffset = 0 then 1 else nextOffset

/-- `GetNewMultiXactId` from the reservation of the members space on -/
def reserveMembers (io : IoFailure) (store : Store) (nmembers : ℕ) : Assigned :=
  let nextOffset := store.state.nextOffset
  let nmembers := slotsTaken nextOffset nmembers
  if store.state.oldestOffsetKnown &&
      multiXactOffsetWouldWrap store.state.offsetStopLimit nextOffset (UInt32.ofNat nmembers) then
    ⟨store, 0, .error membersLimitExceeded⟩
  else
    match io, extendMultiXactMember nextOffset nmembers with
    | .extendMember zeroed, page :: pages =>
      ⟨{ store with members := store.members.zeroPages ((page :: pages).take zeroed) },
        nmembers, .error ioError⟩
    | _, pages =>
      ⟨{ store with
          members := store.members.zeroPages pages
          state :=
            { store.state with
              nextMXact := store.state.nextMXact + 1
              nextOffset := nextOffset + UInt32.ofNat nmembers } },
        nmembers, .ok (startOffset nextOffset)⟩

/-- `ExtendMultiXactOffset` and everything after it, under one `MultiXactGenLock` -/
def assign (io : IoFailure) (store : Store) (result : MultiXactId) (nmembers : ℕ) : Assigned :=
  match io, extendMultiXactOffset result with
  | .extendOffset zeroed, page :: pages =>
    ⟨{ store with offsets := if zeroed then store.offsets.zeroPages (page :: pages) else store.offsets },
      0, .error ioError⟩
  | _, pages => reserveMembers io { store with offsets := store.offsets.zeroPages pages } nmembers

def recordOffset (offsets : Slru) (multi : MultiXactId) (offset : MultiXactOffset) : Slru :=
  offsets.write (multiXactIdToOffsetPage multi) (multiXactIdToOffsetEntry multi) offset

/-- one round of the loop: the transaction id, and the member's byte of the flag word -/
def recordMember (slru : Slru) (offset : MultiXactOffset) (member : StoredMember) : Slru :=
  let pageno := mxOffsetToMemberPage offset
  let bshift := mxOffsetToFlagsBitShift offset
  let slru := slru.write pageno (mxOffsetToMemberOffset offset) member.xid
  let flagsval := slru.word pageno (mxOffsetToFlagsOffset offset)
  let flagsval := flagsval &&& ~~~(((1 <<< mxactMemberBitsPerXact) - 1) <<< bshift)
  let flagsval := flagsval ||| (member.status <<< bshift)
  slru.write pageno (mxOffsetToFlagsOffset offset) flagsval

def recordMembers (slru : Slru) : MultiXactOffset → List StoredMember → Slru
  | _, [] => slru
  | offset, member :: rest => recordMembers (recordMember slru offset member) (offset + 1) rest

def readMembers (slru : Slru) : MultiXactOffset → ℕ → List StoredMember
  | _, 0 => []
  | offset, length + 1 =>
    let pageno := mxOffsetToMemberPage offset
    let xid := slru.word pageno (mxOffsetToMemberOffset offset)
    let rest := readMembers slru (offset + 1) length
    if !transactionIdIsValid xid then rest
    else
      let flags := slru.word pageno (mxOffsetToFlagsOffset offset)
      ⟨xid, (flags >>> mxOffsetToFlagsBitShift offset) &&& mxactMemberXactBitmask⟩ :: rest

def readOffset (offsets : Slru) (multi : MultiXactId) : MultiXactOffset :=
  offsets.word (multiXactIdToOffsetPage multi) (multiXactIdToOffsetEntry multi)

/-- From the label `retry` on: the start offset and the length, at most `fuel` rounds. The
counters are those read at the start of the call. -/
def findRange (store : Store) (nextMXact : MultiXactId) (nextOffset : MultiXactOffset)
    (multi : MultiXactId) :
    ℕ → Except Fault (MultiXactOffset × UInt32)
  | 0 => .error .diverges
  | fuel + 1 =>
    let offset := readOffset store.offsets multi
    let tmpMXact := multi + 1
    -- corner case 1: there is no next multixact
    if nextMXact = tmpMXact then .ok (offset, nextOffset - offset)
    else
      let tmpMXact := if tmpMXact < firstMultiXactId then firstMultiXactId else tmpMXact
      let nextMXOffset := readOffset store.offsets tmpMXact
      -- corner case 2: the next multixact is still being filled in
      if nextMXOffset = 0 then findRange store nextMXact nextOffset multi fuel
      else .ok (offset, nextMXOffset - offset)

/-- `length * sizeof(MultiXactMember)`, an `int` times a `Size` -/
def memberArraySize (length : UInt32) : ℕ := (SerialOrder.signed length * sizeOfMember % 2 ^ 64).toNat

/-- `none` is the result -1. Nothing else happens while the function sleeps before a retry. -/
def getMultiXactIdMembers (fuel : ℕ) (store : Store) (multi : MultiXactId)
    (fromPgupgrade onlyLock : Bool) (oldestVisibleMXactId : MultiXactId) :
    Except Fault (Option (List StoredMember)) :=
  if !multiXactIdIsValid multi || fromPgupgrade then .ok none
  else if onlyLock && multiXactIdPrecedes multi oldestVisibleMXactId then .ok none
  else if multiXactIdPrecedes multi store.state.oldestMultiXactId then
    .error (.elog s!"MultiXactId {multi} does no longer exist -- apparent wraparound")
  else if !multiXactIdPrecedes multi store.state.nextMXact then
    .error (.elog s!"MultiXactId {multi} has not been created yet -- apparent wraparound")
  else do
    let (offset, length) ← findRange store store.state.nextMXact store.state.nextOffset multi fuel
    palloc (memberArraySize length)
    pure (some (readMembers store.members offset (SerialOrder.signed length).toNat))

/-- A creation that has been given its id and slots. `idPos` and `slotPos` number them without
wrapping around; the code has no such counters. -/
structure Creation where
  multi : MultiXactId
  offset : MultiXactOffset
  members : List Member
  idPos : ℕ
  slotPos : ℕ
deriving DecidableEq

/-- Where a backend is in `MultiXactIdCreateFromMembers`. -/
inductive Phase
  | idle
  /-- it has released `MultiXactGenLock` to send a signal -/
  | signalling (members : List Member)
  /-- it is in the critical section and has written nothing -/
  | assigned (creation : Creation)
  /-- it has written the offset but not the members -/
  | offsetRecorded (creation : Creation)
deriving DecidableEq

/-- What has happened so far: how far the two counters have gone without wrapping around, the
slots whose pages `ExtendMultiXactMember` has been asked for, all creations that got an id,
the newest first, and those that have been completed. -/
structure History where
  idPos : ℕ
  slotPos : ℕ
  extendedPos : ℕ
  log : List Creation
  created : List Creation

structure System where
  store : Store
  underPostmaster : Bool
  phase : ℕ → Phase
  history : History

def System.start (store : Store) (underPostmaster : Bool) : System where
  store := store
  underPostmaster := underPostmaster
  phase _ := .idle
  history :=
    ⟨store.state.nextMXact.toNat, store.state.nextOffset.toNat, store.state.nextOffset.toNat, [], []⟩

/-- the shared data and, with them, the positions of the two counters -/
def System.setStore (sys : System) (store : Store) : System :=
  { sys with
    store := store
    history :=
      { sys.history with
        idPos := sys.history.idPos + (store.state.nextMXact - sys.store.state.nextMXact).toNat
        slotPos := sys.history.slotPos + (store.state.nextOffset - sys.store.state.nextOffset).toNat } }

def System.setPhase (sys : System) (b : ℕ) (phase : Phase) : System :=
  { sys with phase := Function.update sys.phase b phase }

def sortMembers (members : List Member) : Option (List Member) :=
  match members with
  | [] => some []
  | first :: _ =>
    (Qsort.pgQsort mxactMemberComparator ⟨fun i => members.getD i first⟩ 0 members.length).map fun mem =>
      Shuffle.window mem 0 members.length

inductive Step
  /-- `MultiXactIdCreateFromMembers` up to the release of `MultiXactGenLock` -/
  | create (b : ℕ) (members : List Member) (recoveryInProgress : Bool) (io : IoFailure)
  /-- the lock has been taken again after the signal -/
  | resume (b : ℕ) (io : IoFailure)
  /-- an error while the lock was released, in `get_database_name` -/
  | giveUp (b : ℕ) (fault : Fault)
  | recordOffset (b : ℕ)
  | recordMembers (b : ℕ)
  /-- vacuum changes the limits -/
  | setLimits (oldestMultiXactId multiVacLimit multiStopLimit : MultiXactId) (oldestOffsetKnown : Bool)
      (offsetStopLimit : MultiXactOffset)

/-- `assign` by backend `b`, which goes on to `RecordNewMultiXact` or is idle after an error -/
def System.assign (sys : System) (b : ℕ) (io : IoFailure) (result : MultiXactId)
    (members : List Member) :
    System × Option Fault :=
  let out := MultiXact.assign io sys.store result members.length
  let next := sys.setStore out.store
  let next :=
    { next with
      history :=
        { next.history with
          extendedPos := max sys.history.extendedPos (sys.history.slotPos + out.extended) } }
  match out.offset with
  | .error e => (next.setPhase b .idle, some e)
  | .ok offset =>
    let creation : Creation :=
      { multi := result, offset := offset, members := members
        idPos := sys.history.idPos + (result - sys.store.state.nextMXact).toNat
        slotPos := sys.history.slotPos + (offset - sys.store.state.nextOffset).toNat }
    ({ next with history := { next.history with log := creation :: next.history.log } }.setPhase b
      (.assigned creation), none)

def System.getNewMultiXactId (sys : System) (b : ℕ) (members : List Member) (recoveryInProgress : Bool)
    (io : IoFailure) : System × Option Fault :=
  if recoveryInProgress then (sys, some (.elog "cannot assign MultiXactIds during recovery"))
  else
    let (state, choice) := checkLimits sys.underPostmaster sys.store.state
    let sys := sys.setStore { sys.store with state := state }
    match choice with
    | .error e => (sys, some e)
    | .ok none => (sys.setPhase b (.signalling members), none)
    | .ok (some result) => sys.assign b io result members

/-- The new state and the error, if one was raised. A step that is not the backend's next one does
nothing. -/
def step (sys : System) : Step → System × Option Fault
  | .create b members recoveryInProgress io =>
    match sys.phase b with
    | .idle =>
      -- the caller has allocated the array
      if members.length * sizeOfMember ≤ maxAllocSize then
        match sortMembers members with
        | none => (sys, some .diverges)
        | some members =>
          if (members.filter fun m => isUpdateFromMxstatus m.status).length > 1 then
            (sys, some (.elog "new multixact has more than one updating member"))
          else sys.getNewMultiXactId b members recoveryInProgress io
      else (sys, none)
    | _ => (sys, none)
  | .resume b io =>
    match sys.phase b with
    | .signalling members => sys.assign b io (chooseAgain sys.store.state) members
    | _ => (sys, none)
  | .giveUp b fault =>
    match sys.phase b with
    | .signalling _ => (sys.setPhase b .idle, some fault)
    | _ => (sys, none)
  | .recordOffset b =>
    match sys.phase b with
    | .assigned c =>
      ({ sys with
          store := { sys.store with
            offsets := recordOffset sys.store.offsets c.multi c.offset } }.setPhase b
        (.offsetRecorded c), none)
    | _ => (sys, none)
  | .recordMembers b =>
    match sys.phase b with
    | .offsetRecorded c =>
      ({ sys with
          store :=
            { sys.store with
              members := recordMembers sys.store.members c.offset (c.members.map Member.stored) }
          history := { sys.history with created := c :: sys.history.created } }.setPhase b .idle, none)
    | _ => (sys, none)
  | .setLimits oldestMultiXactId multiVacLimit multiStopLimit oldestOffsetKnown offsetStopLimit =>
    ({ sys with
        store :=
          { sys.store with
            state :=
              { sys.store.state with
                oldestMultiXactId := oldestMultiXactId
                multiVacLimit := multiVacLimit
                multiStopLimit := multiStopLimit
                oldestOffsetKnown := oldestOffsetKnown
                offsetStopLimit := offsetStopLimit } } }, none)

def run (sys : System) (steps : List Step) : System := steps.foldl (fun sys st => (step sys st).1) sys

end Pg.MultiXact
