import PgRetrofit.Spec.Backend

/-! The pages of the free space map, `storage/freespace/fsmpage.c`: a binary tree over
slots with the maximum of each part in its upper nodes. -/

namespace Pg.Fsm

def nodesPerPage : ℕ := blcksz - maxalign sizeOfPageHeaderData - 4

def nonLeafNodesPerPage : ℕ := blcksz / 2 - 1

def leafNodesPerPage : ℕ := nodesPerPage - nonLeafNodesPerPage

/-- `FSMPageData`; of `fp_nodes` the first `nodesPerPage` entries are on the page. -/
structure FSMPage where
  fpNextSlot : ℤ
  fpNodes : ℕ → Fin 256

def FSMPage.zeroed : FSMPage := ⟨0, fun _ => 0⟩

instance byteBot : OrderBot (Fin 256) where
  bot := 0
  bot_le := Fin.zero_le

def leftchild (x : ℕ) : ℕ := 2 * x + 1

def parentof (x : ℕ) : ℕ := (x - 1) / 2

/-- Find right neighbor of `x`, wrapping around within the level. -/
def rightneighbor (x : ℕ) : ℕ :=
  let x := x + 1
  if (x + 1) &&& x = 0 then parentof x else x

def FSMPage.get (page : FSMPage) (nodeno : ℕ) : Except Fault (Fin 256) :=
  if nodeno < nodesPerPage then .ok (page.fpNodes nodeno) else .error .outOfBounds

def FSMPage.set (page : FSMPage) (nodeno : ℕ) (value : Fin 256) : Except Fault FSMPage :=
  if nodeno < nodesPerPage then .ok { page with fpNodes := Function.update page.fpNodes nodeno value }
  else .error .outOfBounds

/-- The loop of `fsm_rebuild_page`, over the nodes below `nodeno`, from the last one down. -/
def rebuildBelow : ℕ → FSMPage → Bool → Except Fault (Bool × FSMPage)
  | 0, page, changed => .ok (changed, page)
  | nodeno + 1, page, changed =>
    let lchild := leftchild nodeno
    let rchild := lchild + 1
    (if lchild < nodesPerPage then page.get lchild else .ok 0).bind fun newvalue =>
      (if rchild < nodesPerPage then (page.get rchild).map (max newvalue)
          else .ok newvalue).bind fun newvalue =>
        (page.get nodeno).bind fun oldvalue =>
          if oldvalue ≠ newvalue then
            (page.set nodeno newvalue).bind fun page => rebuildBelow nodeno page true
          else rebuildBelow nodeno page changed

/-- Reconstructs the upper levels of a page; `true` if the page was modified. -/
def fsmRebuildPage (page : FSMPage) : Except Fault (Bool × FSMPage) :=
  rebuildBelow nonLeafNodesPerPage page false

def propagateUp : ℕ → FSMPage → ℕ → Except Fault FSMPage
  | 0, _, _ => .error .diverges
  | fuel + 1, page, nodeno =>
    let nodeno := parentof nodeno
    let lchild := leftchild nodeno
    let rchild := lchild + 1
    (page.get lchild).bind fun newvalue =>
      (if rchild < nodesPerPage then (page.get rchild).map (max newvalue)
          else .ok newvalue).bind fun newvalue =>
        (page.get nodeno).bind fun oldvalue =>
          if oldvalue = newvalue then .ok page
          else (page.set nodeno newvalue).bind fun page =>
            if nodeno > 0 then propagateUp fuel page nodeno else .ok page

/-- Sets the value of a slot; `true` if the page was modified. -/
def fsmSetAvail (page : FSMPage) (slot : ℕ) (value : Fin 256) : Except Fault (Bool × FSMPage) :=
  let nodeno := nonLeafNodesPerPage + slot
  (page.get nodeno).bind fun oldvalue =>
    (page.get 0).bind fun root =>
      if oldvalue = value ∧ value ≤ root then .ok (false, page)
      else
        (page.set nodeno value).bind fun page =>
          (propagateUp nodesPerPage page nodeno).bind fun page =>
            (page.get 0).bind fun root =>
              -- still higher than the top: the tree is corrupt
              if value > root then (fsmRebuildPage page).map fun (_, page) => (true, page)
                else .ok (true, page)

def fsmGetAvail (page : FSMPage) (slot : ℕ) : Except Fault (Fin 256) :=
  page.get (nonLeafNodesPerPage + slot)

def fsmGetMaxAvail (page : FSMPage) : Except Fault (Fin 256) := page.get 0

/-- The clearing loop of `fsm_truncate_avail`, over `count` nodes from `nodeno` on. -/
def clearFrom : ℕ → FSMPage → ℕ → Bool → Except Fault (Bool × FSMPage)
  | 0, page, _, changed => .ok (changed, page)
  | count + 1, page, nodeno, changed =>
    (page.get nodeno).bind fun value =>
      (page.set nodeno 0).bind fun page => clearFrom count page (nodeno + 1) (changed || value ≠ 0)

/-- Sets all slots numbered at least `nslots` to zero; `true` if the page was modified. -/
def fsmTruncateAvail (page : FSMPage) (nslots : ℕ) : Except Fault (Bool × FSMPage) :=
  (clearFrom (nodesPerPage - (nonLeafNodesPerPage + nslots)) page
    (nonLeafNodesPerPage + nslots) false).bind
    fun (changed, page) =>
      if changed then (fsmRebuildPage page).map fun (_, page) => (changed, page) else .ok (changed, page)

/-- Right and up until a node has enough space, or to the root. -/
def climb (page : FSMPage) (minvalue : Fin 256) : ℕ → ℕ → Except Fault ℕ
  | 0, _ => .error .diverges
  | fuel + 1, nodeno =>
    if nodeno > 0 then
      (page.get nodeno).bind fun value =>
        if value ≥ minvalue then .ok nodeno
        else climb page minvalue fuel (parentof (rightneighbor nodeno))
    else .ok nodeno

/-- whether a child is there and has enough space -/
def hasSpace (page : FSMPage) (minvalue : Fin 256) (childnodeno : ℕ) : Except Fault Bool :=
  if childnodeno < nodesPerPage then
    (page.get childnodeno).map fun value => value ≥ minvalue else .ok false

/-- Down to the bottom, to the left if there is a choice; `none` if neither child has the
space their parent promises. -/
def descend (page : FSMPage) (minvalue : Fin 256) : ℕ → ℕ → Except Fault (Option ℕ)
  | 0, _ => .error .diverges
  | fuel + 1, nodeno =>
    if nodeno < nonLeafNodesPerPage then
      let childnodeno := leftchild nodeno
      (hasSpace page minvalue childnodeno).bind fun left =>
        if left then descend page minvalue fuel childnodeno
        else
          let childnodeno := childnodeno + 1
          (hasSpace page minvalue childnodeno).bind fun right =>
            if right then descend page minvalue fuel childnodeno else .ok none
    else .ok (some nodeno)

def startNode (page : FSMPage) : ℕ :=
  let target := page.fpNextSlot
  let target := if target < 0 ∨ target ≥ leafNodesPerPage then 0 else target
  target.toNat + nonLeafNodesPerPage

/-- The slot of a node with at least `minvalue`, or -1. The first argument bounds how often
the search starts, so there is one rebuild less. -/
def fsmSearchAvail : ℕ → FSMPage → Fin 256 → Bool → Except Fault (ℤ × FSMPage)
  | 0, _, _, _ => .error .diverges
  | starts + 1, page, minvalue, advancenext =>
    (page.get 0).bind fun root =>
      if root < minvalue then .ok (-1, page)
      else
        (climb page minvalue nodesPerPage (startNode page)).bind fun nodeno =>
          (descend page minvalue nodesPerPage nodeno).bind fun
            | none =>
              (fsmRebuildPage page).bind fun (_, page) => fsmSearchAvail starts page minvalue advancenext
            | some nodeno =>
              let slot : ℕ := (nodeno - nonLeafNodesPerPage) % 2 ^ 16
              .ok (slot, { page with fpNextSlot := slot + if advancenext then 1 else 0 })

/-- The calls on a page; the slots are those that the assertions of the source let pass. -/
inductive FsmCall
  | setAvail (slot : Fin leafNodesPerPage) (value : Fin 256)
  | truncateAvail (nslots : Fin leafNodesPerPage)
  | searchAvail (minvalue : Fin 256) (advancenext : Bool)

def FsmCall.exec (starts : ℕ) (page : FSMPage) : FsmCall → Except Fault FSMPage
  | .setAvail slot value => (fsmSetAvail page slot value).map Prod.snd
  | .truncateAvail nslots => (fsmTruncateAvail page nslots).map Prod.snd
  | .searchAvail minvalue advancenext => (fsmSearchAvail starts page minvalue advancenext).map Prod.snd

def run (starts : ℕ) (calls : List FsmCall) (page : FSMPage) : Except Fault FSMPage :=
  calls.foldlM (FsmCall.exec starts) page

/-- What a call does to the slots. -/
def FsmCall.apply (slots : ℕ → Fin 256) : FsmCall → ℕ → Fin 256
  | .setAvail slot value => Function.update slots slot value
  | .truncateAvail nslots => fun slot => if nslots ≤ slot then 0 else slots slot
  | .searchAvail _ _ => slots

end Pg.Fsm
