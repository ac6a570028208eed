import PgRetrofit.Lib.Binary64
import PgRetrofit.Spec.Backend
import PgRetrofit.Spec.Qsort

/-! The choice of a split point for a B-tree page, `nbtree/nbtsplitloc.c`. Offset numbers are
natural numbers; `int16` counters are integers that must stay in range. -/

namespace Pg.BtSplit

open Shuffle

variable {τ : Type}

/-- The index, as far as the strategy code looks at it: which attributes two tuples share is up to
the tuples. -/
structure Relation (τ : Type) where
  nKeyAtts : ℕ
  fillFactor : ℕ
  fillFactor_range : 10 ≤ fillFactor ∧ fillFactor ≤ 100
  /-- `_bt_keep_natts_fast` -/
  keepNattsFast : τ → τ → ℤ
  tid : τ → ItemPointerData

/-- A line pointer: `ItemIdGetLength`, and the tuple it points to. -/
structure Item (τ : Type) where
  length : ℕ
  tuple : τ

structure Page (τ : Type) where
  pageSize : ℕ
  isLeaf : Bool
  isRightmost : Bool
  linp : List (Item τ)
  /-- `PageGetExactFreeSpace` -/
  exactFreeSpace : ℕ

def sizeOfItemId : ℕ := 4
def sizeOfItemPointer : ℕ := 6
def sizeOfIndexTuple : ℕ := 8
def sizeOfBtPageOpaque : ℕ := 16

def maxalignDown (n : ℕ) : ℕ := n / 8 * 8

def btMaxItemSize (pageSize : ℕ) : ℕ :=
  maxalignDown
    ((pageSize - maxalign (sizeOfPageHeaderData + 3 * sizeOfItemId + 3 * sizeOfItemPointer) -
      maxalign sizeOfBtPageOpaque) / 3)

def btMaxItemSizeNoHeapTid (pageSize : ℕ) : ℕ :=
  maxalignDown
    ((pageSize - maxalign (sizeOfPageHeaderData + 3 * sizeOfItemId) - maxalign sizeOfBtPageOpaque) / 3)

namespace Page

def maxoff (page : Page τ) : ℕ := page.linp.length

/-- `P_FIRSTDATAKEY`; the high key is item 1 -/
def firstDataKey (page : Page τ) : ℕ := if page.isRightmost then 1 else 2

def getItem (page : Page τ) (offnum : ℕ) : Except Fault (Item τ) :=
  match offnum with
  | 0 => .error .outOfBounds
  | i + 1 =>
    match page.linp[i]? with
    | some item => .ok item
    | none => .error .outOfBounds

end Page

def Item.itemsz (item : Item τ) : ℕ := maxalign item.length + sizeOfItemId

/-- A conversion to `int16`, which must not lose anything. -/
def int16 (x : ℤ) : Except Fault ℤ := if -32768 ≤ x ∧ x ≤ 32767 then .ok x else .error .outOfBounds

structure SplitPoint where
  curdelta : ℤ
  leftfree : ℤ
  rightfree : ℤ
  firstoldonright : ℕ
  newitemonleft : Bool
deriving DecidableEq, Inhabited

inductive FindSplitStrat
  | default
  | manyDuplicates
  | singleValue
deriving DecidableEq

structure FindSplitData (τ : Type) where
  rel : Relation τ
  page : Page τ
  newitem : τ
  newitemsz : ℕ
  newitemoff : ℕ
  leftspace : ℤ
  rightspace : ℤ
  olddataitemstotal : ℤ
  minfirstrightsz : ℕ
  maxsplits : ℕ
  splits : List SplitPoint
  interval : ℕ

def FindSplitData.nsplits (state : FindSplitData τ) : ℕ := state.splits.length

def firstRightItemSz (state : FindSplitData τ) (firstoldonright : ℕ) (newitemonleft : Bool)
    (firstoldonrightsz : ℕ) : ℕ :=
  if firstoldonright = state.newitemoff ∧ !newitemonleft then state.newitemsz else firstoldonrightsz

def freeSpace (state : FindSplitData τ) (firstrightitemsz : ℕ) (newitemonleft : Bool)
    (olddataitemstoleft : ℤ) : Except Fault (ℤ × ℤ) := do
  let leftfree ← int16 (state.leftspace - olddataitemstoleft)
  let rightfree ← int16 (state.rightspace - (state.olddataitemstotal - olddataitemstoleft))
  let hikeysz ← int16 (if state.page.isLeaf then firstrightitemsz + maxalign sizeOfItemPointer
    else firstrightitemsz)
  let leftfree ← int16 (leftfree - hikeysz)
  let newitemsz ← int16 state.newitemsz
  let leftfree ← int16 (if newitemonleft then leftfree - newitemsz else leftfree)
  let rightfree ← int16 (if newitemonleft then rightfree else rightfree - newitemsz)
  let discarded ← int16 (if state.page.isLeaf then 0 else firstrightitemsz)
  let kept ← int16 (if state.page.isLeaf then 0 else maxalign sizeOfIndexTuple + sizeOfItemId)
  let rightfree ← int16 (rightfree + (discarded - kept))
  .ok (leftfree, rightfree)

def recSplitLoc (state : FindSplitData τ) (firstoldonright : ℕ) (newitemonleft : Bool)
    (olddataitemstoleft : ℤ) (firstoldonrightsz : ℕ) :
    Except Fault (FindSplitData τ) := do
  let firstrightitemsz := firstRightItemSz state firstoldonright newitemonleft firstoldonrightsz
  let (leftfree, rightfree) ← freeSpace state firstrightitemsz newitemonleft olddataitemstoleft
  if leftfree ≥ 0 ∧ rightfree ≥ 0 then
    if state.nsplits < state.maxsplits then
      .ok { state with
        minfirstrightsz := min state.minfirstrightsz firstrightitemsz
        splits := state.splits ++ [⟨0, leftfree, rightfree, firstoldonright, newitemonleft⟩] }
    else .error .outOfBounds
  else .ok state

def recItem (newitemoff : ℕ) (state : FindSplitData τ) (offnum : ℕ) (olddataitemstoleft : ℤ)
    (itemsz : ℕ) : Except Fault (FindSplitData τ) :=
  if offnum < newitemoff then recSplitLoc state offnum false olddataitemstoleft itemsz
  else if offnum > newitemoff then recSplitLoc state offnum true olddataitemstoleft itemsz
  else do
    let state ← recSplitLoc state offnum false olddataitemstoleft itemsz
    recSplitLoc state offnum true olddataitemstoleft itemsz

def scanItems (newitemoff : ℕ) : List (Item τ) → ℕ → ℤ → FindSplitData τ → Except Fault (FindSplitData τ)
  | [], _, _, state => .ok state
  | item :: items, offnum, olddataitemstoleft, state => do
    let state ← recItem newitemoff state offnum olddataitemstoleft item.itemsz
    scanItems newitemoff items (offnum + 1) (olddataitemstoleft + item.itemsz) state

def deltaOf (fillfactormult : ℚ) (usemult : Bool) (split : SplitPoint) : ℤ :=
  if usemult then
    Binary64.truncate (Binary64.sub (Binary64.mul fillfactormult split.leftfree)
      (Binary64.mul (Binary64.sub 1 fillfactormult) split.rightfree))
  else split.leftfree - split.rightfree

def setDelta (fillfactormult : ℚ) (usemult : Bool) (split : SplitPoint) : Except Fault SplitPoint := do
  let delta ← int16 (deltaOf fillfactormult usemult split)
  let delta ← int16 (if delta < 0 then -delta else delta)
  .ok { split with curdelta := delta }

def splitCmp (split1 split2 : SplitPoint) : ℤ :=
  if split1.curdelta > split2.curdelta then 1 else if split1.curdelta < split2.curdelta then -1 else 0

def qsortSplits (splits : List SplitPoint) : Except Fault (List SplitPoint) :=
  match Qsort.pgQsort splitCmp ⟨fun i => splits.getD i default⟩ 0 splits.length with
  | some m => .ok (window m 0 splits.length)
  | none => .error .diverges

def deltaSortSplits (state : FindSplitData τ) (fillfactormult : ℚ) (usemult : Bool) :
    Except Fault (FindSplitData τ) := do
  let splits ← state.splits.mapM (setDelta fillfactormult usemult)
  let splits ← qsortSplits splits
  .ok { state with splits := splits }

def splitLastLeft (state : FindSplitData τ) (split : SplitPoint) : Except Fault τ :=
  if split.newitemonleft ∧ split.firstoldonright = state.newitemoff then .ok state.newitem
  else do
    let item ← state.page.getItem (split.firstoldonright - 1)
    .ok item.tuple

def splitFirstRight (state : FindSplitData τ) (split : SplitPoint) : Except Fault τ :=
  if !split.newitemonleft ∧ split.firstoldonright = state.newitemoff then .ok state.newitem
  else do
    let item ← state.page.getItem split.firstoldonright
    .ok item.tuple

def splitPenalty (state : FindSplitData τ) (split : SplitPoint) : Except Fault ℤ :=
  if !state.page.isLeaf then
    if !split.newitemonleft ∧ split.firstoldonright = state.newitemoff then .ok state.newitemsz
    else do
      let item ← state.page.getItem split.firstoldonright
      .ok item.itemsz
  else do
    let lastleft ← splitLastLeft state split
    let firstright ← splitFirstRight state split
    .ok (state.rel.keepNattsFast lastleft firstright)

def adjacentHtid (lowhtid highhtid : ItemPointerData) : Bool :=
  lowhtid.ipBlkid == highhtid.ipBlkid ||
    (lowhtid.ipBlkid + 1 == highhtid.ipBlkid && highhtid.ipPosid == 1)

/-- `_bt_afternewitemoff`: `none` for false, and `usemult` -/
def afterNewItemOff (state : FindSplitData τ) (maxoff leaffillfactor : ℕ) : Except Fault (Option Bool) :=
  let nkeyatts := state.rel.nKeyAtts
  if nkeyatts = 1 then .ok none
  else if state.newitemoff = 2 then .ok none
  else if state.newitemsz ≠ state.minfirstrightsz then .ok none
  else if (state.newitemsz * (maxoff - 1) : ℕ) ≠ state.olddataitemstotal then .ok none
  else if state.newitemsz > maxalign (sizeOfIndexTuple + 8 * 2) + sizeOfItemId then .ok none
  else if state.newitemoff > maxoff then do
    let item ← state.page.getItem maxoff
    let keepnatts := state.rel.keepNattsFast item.tuple state.newitem
    .ok (if keepnatts > 1 ∧ keepnatts ≤ nkeyatts then some true else none)
  else do
    let item ← state.page.getItem (state.newitemoff - 1)
    if !adjacentHtid (state.rel.tid item.tuple) (state.rel.tid state.newitem) then .ok none
    else
      let keepnatts := state.rel.keepNattsFast item.tuple state.newitem
      .ok (if keepnatts > 1 ∧ keepnatts ≤ nkeyatts then
        some (decide (Binary64.div state.newitemoff (maxoff + 1) > Binary64.div leaffillfactor 100))
          else none)

/-- The loop of `_bt_interval_edges`, from the end of the interval to its start. -/
def edgesLoop (deltaoptimal : SplitPoint) : List SplitPoint → Option SplitPoint → Option SplitPoint →
    Except Fault (SplitPoint × SplitPoint)
  | [], _, _ => .error .outOfBounds
  | distant :: rest, leftinterval, rightinterval =>
    let toLeft := distant.firstoldonright < deltaoptimal.firstoldonright ∨
      (distant.firstoldonright = deltaoptimal.firstoldonright ∧ !distant.newitemonleft ∧
        deltaoptimal.newitemonleft)
    let toRight := distant.firstoldonright > deltaoptimal.firstoldonright ∨
      (distant.firstoldonright = deltaoptimal.firstoldonright ∧ distant.newitemonleft ∧
        !deltaoptimal.newitemonleft)
    let leftinterval := if toRight then leftinterval else leftinterval.or (some distant)
    let rightinterval := if toLeft then rightinterval else rightinterval.or (some distant)
    match leftinterval, rightinterval with
    | some left, some right => .ok (left, right)
    | _, _ => edgesLoop deltaoptimal rest leftinterval rightinterval

def intervalEdges (state : FindSplitData τ) : Except Fault (SplitPoint × SplitPoint) :=
  edgesLoop (state.splits.getD 0 default)
    (state.splits.take (min state.interval state.nsplits)).reverse none none

/-- `_bt_strategy`: the perfect penalty and the strategy -/
def strategy (state : FindSplitData τ) (leftpage rightpage : SplitPoint) :
    Except Fault (ℤ × FindSplitStrat) :=
  let indnkeyatts := state.rel.nKeyAtts
  if !state.page.isLeaf then .ok (state.minfirstrightsz, .default)
  else do
    let (leftinterval, rightinterval) ← intervalEdges state
    let leftmost ← splitLastLeft state leftinterval
    let rightmost ← splitFirstRight state rightinterval
    let perfectpenalty := state.rel.keepNattsFast leftmost rightmost
    if perfectpenalty ≤ indnkeyatts then .ok (perfectpenalty, .default)
    else do
      let leftmost ← splitLastLeft state leftpage
      let rightmost ← splitFirstRight state rightpage
      let perfectpenalty := state.rel.keepNattsFast leftmost rightmost
      if perfectpenalty ≤ indnkeyatts then .ok (indnkeyatts, .manyDuplicates)
      else if state.page.isRightmost then .ok (perfectpenalty, .singleValue)
      else do
        let hikey ← state.page.getItem 1
        let perfectpenalty := state.rel.keepNattsFast hikey.tuple state.newitem
        .ok (perfectpenalty, if perfectpenalty ≤ indnkeyatts then .singleValue else .default)

/-- The loop of `_bt_bestsplitloc`; the result is `lowsplit`. -/
def bestLoop (penalty : SplitPoint → Except Fault ℤ) (perfectpenalty : ℤ) :
    List SplitPoint → ℕ → ℤ → ℕ → Except Fault ℕ
  | [], _, _, lowsplit => .ok lowsplit
  | split :: rest, i, bestpenalty, lowsplit => do
    let p ← penalty split
    if p ≤ perfectpenalty then .ok i
    else if p < bestpenalty then bestLoop penalty perfectpenalty rest (i + 1) p i
    else bestLoop penalty perfectpenalty rest (i + 1) bestpenalty lowsplit

def bestSplitLoc (state : FindSplitData τ) (perfectpenalty : ℤ) (strat : FindSplitStrat) :
    Except Fault (ℕ × Bool) := do
  let lowsplit ← bestLoop (splitPenalty state) perfectpenalty
    (state.splits.take (min state.interval state.nsplits)) 0 2147483647 0
  match state.splits[lowsplit]?, state.splits[0]? with
  | some final, some first =>
    if strat = .manyDuplicates ∧ !state.page.isRightmost ∧ !final.newitemonleft ∧
        final.firstoldonright ≥ state.newitemoff ∧
        final.firstoldonright < state.newitemoff + 9 then
      .ok (first.firstoldonright, first.newitemonleft)
    else .ok (final.firstoldonright, final.newitemonleft)
  | _, _ => .error .outOfBounds

/-- `Min(Max(1, nsplits * 0.05), is_leaf ? MAX_LEAF_INTERVAL : MAX_INTERNAL_INTERVAL)` -/
def initialInterval (isLeaf : Bool) (nsplits : ℕ) : ℕ :=
  (Binary64.truncate
    (min (max 1 (Binary64.mul nsplits (Binary64.div 5 100))) (if isLeaf then 9 else 18))).toNat

/-- The search with a fill factor: default strategy first, then perhaps another one. -/
def searchSplits (state : FindSplitData τ) (fillfactormult : ℚ) (usemult : Bool) :
    Except Fault (ℕ × Bool) := do
  let state := { state with interval := initialInterval state.page.isLeaf state.nsplits }
  let leftpage := state.splits.getD 0 default
  let rightpage := state.splits.getD (state.nsplits - 1) default
  let state ← deltaSortSplits state fillfactormult usemult
  let (perfectpenalty, strat) ← strategy state leftpage rightpage
  match strat with
  | .default => bestSplitLoc state perfectpenalty strat
  | .manyDuplicates => bestSplitLoc { state with interval := state.nsplits } perfectpenalty strat
  | .singleValue => do
    let state ← deltaSortSplits state (Binary64.div 96 100) true
    bestSplitLoc { state with interval := 1 } perfectpenalty strat

/-- The choice of a fill factor, and the split right after the new item. -/
def chooseSplit (state : FindSplitData τ) (maxoff leaffillfactor : ℕ) : Except Fault (ℕ × Bool) :=
  if !state.page.isLeaf then searchSplits state (Binary64.div 70 100) state.page.isRightmost
  else if state.page.isRightmost then searchSplits state (Binary64.div leaffillfactor 100) true
  else do
    match ← afterNewItemOff state maxoff leaffillfactor with
    | some true => searchSplits state (Binary64.div leaffillfactor 100) true
    | some false =>
      if state.splits.any (fun split => split.newitemonleft && state.newitemoff == split.firstoldonright)
        then .ok (state.newitemoff, true)
      else searchSplits state (Binary64.div 50 100) false
    | none => searchSplits state (Binary64.div 50 100) false

def initialState (rel : Relation τ) (page : Page τ) (newitemoff newitemsz : ℕ) (newitem : τ)
    (rightspace : ℤ) : FindSplitData τ where
  rel := rel
  page := page
  newitem := newitem
  newitemsz := newitemsz + sizeOfItemId
  newitemoff := newitemoff
  leftspace := page.pageSize - sizeOfPageHeaderData - maxalign sizeOfBtPageOpaque
  rightspace := rightspace
  olddataitemstotal := rightspace - page.exactFreeSpace
  minfirstrightsz := 2 ^ 64 - 1
  maxsplits := page.maxoff
  splits := []
  interval := 0

def rightSpace (page : Page τ) : Except Fault ℤ :=
  if page.isRightmost then .ok (page.pageSize - sizeOfPageHeaderData - maxalign sizeOfBtPageOpaque)
  else do
    let hikey ← page.getItem 1
    .ok (page.pageSize - sizeOfPageHeaderData - maxalign sizeOfBtPageOpaque - hikey.itemsz)

def scanPage (state : FindSplitData τ) : Except Fault (FindSplitData τ) := do
  let page := state.page
  let scanned ← scanItems state.newitemoff (page.linp.drop (page.firstDataKey - 1))
    page.firstDataKey 0 state
  if state.newitemoff > page.maxoff then
    recSplitLoc scanned state.newitemoff false state.olddataitemstotal 0 else .ok scanned

/-- `_bt_findsplitloc`, with `*newitemonleft` -/
def findSplitLoc (rel : Relation τ) (page : Page τ) (newitemoff newitemsz : ℕ) (newitem : τ) :
    Except Fault (ℕ × Bool) := do
  let rightspace ← rightSpace page
  let state ← scanPage (initialState rel page newitemoff newitemsz newitem rightspace)
  if state.nsplits = 0 then .error (.elog "could not find a feasible split point for index \"%s\"")
  else chooseSplit state page.maxoff rel.fillFactor

end Pg.BtSplit
