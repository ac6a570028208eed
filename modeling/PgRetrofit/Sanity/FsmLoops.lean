import PgRetrofit.Lib.MaxTree
import PgRetrofit.Spec.FsmPage

/-! The loops on a page of the free space map: what each one does to the tree. -/

namespace Pg.Fsm

open MaxTree Function Nat

variable {page page' : FSMPage} {i : ℕ} {minvalue value : Fin 256}

theorem nodesPerPage_eq : nodesPerPage = 8164 := rfl
theorem nonLeafNodesPerPage_eq : nonLeafNodesPerPage = 4095 := rfl
theorem leafNodesPerPage_eq : leafNodesPerPage = 4069 := rfl

theorem parentof_eq : parentof = parent := rfl

theorem get_ok (h : i < nodesPerPage) : page.get i = .ok (page.fpNodes i) := if_pos h

theorem set_ok (h : i < nodesPerPage) :
    page.set i value = .ok { page with fpNodes := update page.fpNodes i value } := if_pos h

def Correct (page : FSMPage) : Prop := Valid nonLeafNodesPerPage nodesPerPage page.fpNodes

def FSMPage.slots (page : FSMPage) (slot : ℕ) : Fin 256 := page.fpNodes (nonLeafNodesPerPage + slot)

structure SameLeaves (page page' : FSMPage) : Prop where
  next : page'.fpNextSlot = page.fpNextSlot
  leaf : ∀ i, nonLeafNodesPerPage ≤ i → page'.fpNodes i = page.fpNodes i

theorem SameLeaves.refl (page : FSMPage) : SameLeaves page page := ⟨rfl, fun _ _ => rfl⟩

theorem SameLeaves.trans {p q r : FSMPage} (h : SameLeaves p q) (h' : SameLeaves q r) : SameLeaves p r :=
  ⟨h'.next.trans h.next, fun i hi => (h'.leaf i hi).trans (h.leaf i hi)⟩

theorem sameLeaves_update (hi : i < nonLeafNodesPerPage) :
    SameLeaves page { page with fpNodes := update page.fpNodes i value } :=
  ⟨rfl, fun _ hj => update_of_ne (ne_of_gt (hi.trans_le hj)) ..⟩

theorem SameLeaves.slots_eq (h : SameLeaves page page') : page'.slots = page.slots :=
  funext fun slot => h.leaf _ (le_add_right _ slot)

theorem readMax_eq {β : Type*} (page : FSMPage) (p : ℕ) (k : Fin 256 → Except Fault β) :
    ((if leftchild p < nodesPerPage then page.get (leftchild p) else .ok 0).bind fun newvalue =>
      (if leftchild p + 1 < nodesPerPage then (page.get (leftchild p + 1)).map (max newvalue)
        else .ok newvalue).bind k) =
    k (childMax nodesPerPage page.fpNodes p) := by
  have hbot : (0 : Fin 256) = ⊥ := rfl
  rw [childMax, valueAt, valueAt, leftchild]
  by_cases hl : 2 * p + 1 < nodesPerPage
  · by_cases hr : 2 * p + 2 < nodesPerPage
    · simp only [if_pos hl, if_pos hr, get_ok hl, get_ok hr, Except.bind, Except.map]
    · simp only [if_pos hl, if_neg hr, get_ok hl, Except.bind, max_bot_right]
  · have hr : ¬ 2 * p + 2 < nodesPerPage := by omega
    simp only [if_neg hl, if_neg hr, Except.bind, hbot, max_self]

theorem rebuildBelow_spec (k : ℕ) (hk : k ≤ nonLeafNodesPerPage) (page : FSMPage) (changed : Bool)
    (h : ∀ p, k ≤ p → p < nonLeafNodesPerPage → MaxAt nodesPerPage page.fpNodes p) :
    ∃ changed' page', rebuildBelow k page changed = .ok (changed', page') ∧ Correct page' ∧
      SameLeaves page page' := by
  induction k generalizing page changed with
  | zero => exact ⟨changed, page, rfl, fun p hp => h p (zero_le p) hp, SameLeaves.refl page⟩
  | succ k ih => ?_
  have hlt : k < nodesPerPage := lt_of_lt_of_le hk (by decide)
  rw [rebuildBelow, readMax_eq, get_ok hlt, Except.bind]
  by_cases hsame : page.fpNodes k = childMax nodesPerPage page.fpNodes k
  · rw [if_neg (not_not.2 hsame)]
    refine ih (le_of_succ_le hk) page changed fun p hp hlast => ?_
    rcases eq_or_lt_of_le hp with rfl | hp
    · exact hsame
    · exact h p hp hlast
  rw [if_pos hsame, set_ok hlt]
  obtain ⟨changed', page', hrun, hcorrect, hleaves⟩ := ih (le_of_succ_le hk)
    { page with fpNodes := update page.fpNodes k (childMax nodesPerPage page.fpNodes k) } true
    fun p hp hlast => by
      rcases eq_or_lt_of_le hp with rfl | hp
      · exact maxAt_update_childMax
      · refine (h p hp hlast).update (ne_of_gt hp) fun hchild => ?_
        unfold IsChild at hchild
        omega
  exact ⟨changed', page', hrun, hcorrect, (sameLeaves_update hk).trans hleaves⟩

theorem fsmRebuildPage_spec (page : FSMPage) :
    ∃ changed page', fsmRebuildPage page = .ok (changed, page') ∧ Correct page' ∧
      SameLeaves page page' :=
  rebuildBelow_spec _ le_rfl page false fun _ hp hlast => absurd hlast (not_lt.2 hp)

/-- With one node in doubt, the parent of the last one changed, the loop makes the page right. -/
theorem propagateUp_spec (fuel : ℕ) (page : FSMPage) (nodeno : ℕ) (hpos : 0 < nodeno)
    (hlt : nodeno < nodesPerPage) (hfuel : nodeno ≤ fuel)
    (h : ∀ p < nonLeafNodesPerPage, p ≠ parent nodeno → MaxAt nodesPerPage page.fpNodes p) :
    ∃ page', propagateUp fuel page nodeno = .ok page' ∧ Correct page' ∧ SameLeaves page page' := by
  induction fuel generalizing page nodeno with
  | zero => omega
  | succ fuel ih => ?_
  have hup : parent nodeno < nodeno := parent_lt hpos
  have hchild : IsChild nodeno (parent nodeno) := isChild_parent hpos
  have hupper : parent nodeno < nonLeafNodesPerPage := by
    rw [parent, nonLeafNodesPerPage_eq]
    rw [nodesPerPage_eq] at hlt
    omega
  have hleft : leftchild (parent nodeno) < nodesPerPage := by
    unfold IsChild at hchild
    unfold leftchild
    omega
  have hread := fun k => readMax_eq (β := FSMPage) page (parent nodeno) k
  rw [if_pos hleft] at hread
  rw [propagateUp, parentof_eq, hread, get_ok (hup.trans hlt), Except.bind]
  by_cases hsame : page.fpNodes (parent nodeno) = childMax nodesPerPage page.fpNodes (parent nodeno)
  · rw [if_pos hsame]
    refine ⟨page, rfl, fun p hp => ?_, SameLeaves.refl page⟩
    rcases eq_or_ne p (parent nodeno) with rfl | hne
    · exact hsame
    · exact h p hp hne
  rw [if_neg hsame, set_ok (hup.trans hlt), Except.bind]
  -- now the next parent up is in doubt
  have hrest : ∀ p < nonLeafNodesPerPage, ¬ IsChild (parent nodeno) p → MaxAt nodesPerPage
      (update page.fpNodes (parent nodeno) (childMax nodesPerPage page.fpNodes (parent nodeno))) p := by
    intro p hp hnot
    rcases eq_or_ne p (parent nodeno) with rfl | hne
    · exact maxAt_update_childMax
    · exact (h p hp hne).update hne hnot
  by_cases htop : parent nodeno > 0
  · rw [if_pos htop]
    obtain ⟨page', hrun, hcorrect, hleaves⟩ := ih
      { page with fpNodes := update page.fpNodes (parent nodeno) (childMax nodesPerPage page.fpNodes _) }
      (parent nodeno) htop (hup.trans hlt) (by omega) fun p hp hne =>
        hrest p hp fun hc => hne hc.parent_eq.symm
    exact ⟨page', hrun, hcorrect, (sameLeaves_update hupper).trans hleaves⟩
  · rw [if_neg htop]
    refine ⟨_, rfl, fun p hp => hrest p hp fun hc => ?_, sameLeaves_update hupper⟩
    unfold IsChild at hc
    omega

theorem clearFrom_spec (count : ℕ) (page : FSMPage) (nodeno : ℕ) (changed : Bool)
    (hle : nodeno + count ≤ nodesPerPage) :
    ∃ changed' page', clearFrom count page nodeno changed = .ok (changed', page') ∧
      (∀ i, page'.fpNodes i = if nodeno ≤ i ∧ i < nodeno + count then 0 else page.fpNodes i) ∧
      (changed' = false → changed = false ∧ page' = page) := by
  induction count generalizing page nodeno changed with
  | zero => exact ⟨changed, page, rfl, fun i => (if_neg (by omega)).symm, fun h => ⟨h, rfl⟩⟩
  | succ count ih => ?_
  have hlt : nodeno < nodesPerPage := by omega
  rw [clearFrom, get_ok hlt, set_ok hlt]
  obtain ⟨changed', page', hrun, hnodes, hsame⟩ := ih
    { page with fpNodes := update page.fpNodes nodeno 0 } (nodeno + 1)
    (changed || page.fpNodes nodeno ≠ 0) (by omega)
  refine ⟨changed', page', hrun, fun i => ?_, fun hfalse => ?_⟩
  · rw [hnodes i]
    dsimp only
    rcases eq_or_ne i nodeno with rfl | hne
    · rw [if_neg (by omega), if_pos (by omega), update_self]
    · rw [update_of_ne hne]
      exact if_congr (by omega) rfl rfl
  · obtain ⟨hchanged, rfl⟩ := hsame hfalse
    simp only [ne_eq, Bool.or_eq_false_iff, decide_eq_false_iff_not, not_not] at hchanged
    refine ⟨hchanged.1, ?_⟩
    rw [← hchanged.2, update_eq_self]

theorem rightneighbor_inLevel {l x : ℕ} (h : InLevel l x) : InLevel l (rightneighbor x) := by
  obtain ⟨hlow, hhigh⟩ := h
  rw [rightneighbor]
  by_cases hlast : x + 2 = 2 ^ (l + 1)
  · -- one past the end of the level is the first node of the next
    have hand : (x + 1 + 1) &&& (x + 1) = 0 := by
      have hx : x + 1 = 2 ^ (l + 1) - 1 := by omega
      rw [show x + 1 + 1 = 2 ^ (l + 1) from hlast, hx, and_two_pow_sub_one_eq_mod, mod_self]
    rw [if_pos hand, parentof]
    refine ⟨?_, ?_⟩
    · omega
    · omega
  have hand : ¬ (x + 1 + 1) &&& (x + 1) = 0 := by
    intro hzero
    have hbit := congrArg (fun n => n.testBit l) hzero
    simp only [testBit_and, zero_testBit] at hbit
    rw [testBit_of_two_pow_le_and_two_pow_add_one_gt (by omega) (by omega),
      testBit_of_two_pow_le_and_two_pow_add_one_gt hlow hhigh] at hbit
    cases hbit
  rw [if_neg hand]
  exact ⟨by omega, by omega⟩

theorem inLevel_lt {l x : ℕ} (h : InLevel l x) (hl : l < 12) : x < nonLeafNodesPerPage := by
  have hle : 2 ^ (l + 1) ≤ 2 ^ 12 := Nat.pow_le_pow_right (by decide) hl
  have := h.2
  rw [nonLeafNodesPerPage_eq]
  omega

theorem climb_spec (fuel l nodeno : ℕ) (hroot : minvalue ≤ page.fpNodes 0) (hlevel : InLevel l nodeno)
    (hlt : nodeno < nodesPerPage) (hl : l ≤ 12) (hfuel : l < fuel) :
    ∃ n, climb page minvalue fuel nodeno = .ok n ∧ n < nodesPerPage ∧ minvalue ≤ page.fpNodes n ∧
      (minvalue ≤ page.fpNodes nodeno → n = nodeno) := by
  induction fuel generalizing l nodeno with
  | zero => omega
  | succ fuel ih => ?_
  rw [climb]
  cases l with
  | zero =>
    obtain rfl := inLevel_zero.1 hlevel
    exact ⟨0, rfl, by decide, hroot, fun _ => rfl⟩
  | succ l => ?_
  rw [if_pos hlevel.pos, get_ok hlt, Except.bind]
  by_cases henough : minvalue ≤ page.fpNodes nodeno
  · rw [if_pos henough]
    exact ⟨nodeno, rfl, hlt, henough, fun _ => rfl⟩
  rw [if_neg henough]
  have hup : InLevel l (parentof (rightneighbor nodeno)) := (rightneighbor_inLevel hlevel).parent
  have hupper := inLevel_lt hup (by omega)
  obtain ⟨n, hrun, hn, hspace, -⟩ := ih l _ hup (hupper.trans (by decide)) (by omega) (by omega)
  exact ⟨n, hrun, hn, hspace, fun h => absurd h henough⟩

theorem hasSpace_eq (page : FSMPage) (minvalue : Fin 256) (i : ℕ) :
    hasSpace page minvalue i = .ok (decide (i < nodesPerPage ∧ minvalue ≤ page.fpNodes i)) := by
  rw [hasSpace]
  by_cases hi : i < nodesPerPage
  · rw [get_ok hi, Except.map]
    simp [hi]
  · simp [hi]

/-- The descent ends, at a leaf with enough space if it ends at one at all; on a correct page
it does. -/
def Descent (page : FSMPage) (minvalue : Fin 256) (nodeno : ℕ) (out : Except Fault (Option ℕ)) : Prop :=
  ∃ r, out = .ok r ∧ (∀ n ∈ r, nonLeafNodesPerPage ≤ n ∧ n < nodesPerPage ∧ minvalue ≤ page.fpNodes n) ∧
    (Correct page → ⊥ < minvalue → r ≠ none) ∧ (nonLeafNodesPerPage ≤ nodeno → r = some nodeno)

theorem descend_spec (fuel nodeno : ℕ) (hlt : nodeno < nodesPerPage)
    (hspace : minvalue ≤ page.fpNodes nodeno) (hfuel : nonLeafNodesPerPage - nodeno < fuel) :
    Descent page minvalue nodeno (descend page minvalue fuel nodeno) := by
  induction fuel generalizing nodeno with
  | zero => omega
  | succ fuel ih => ?_
  rw [descend]
  by_cases hupper : nodeno < nonLeafNodesPerPage
  swap
  · rw [if_neg hupper]
    refine ⟨some nodeno, rfl, fun n hn => ?_, fun _ _ => Option.some_ne_none _, fun _ => rfl⟩
    obtain rfl := Option.some.inj hn
    exact ⟨Nat.le_of_not_lt hupper, hlt, hspace⟩
  rw [if_pos hupper]
  dsimp only
  rw [hasSpace_eq, Except.bind]
  have hgoal : ∀ child, IsChild child nodeno → child < nodesPerPage ∧ minvalue ≤ page.fpNodes child →
      Descent page minvalue nodeno (descend page minvalue fuel child) := by
    intro child hchild hok
    have hgt : nodeno < child := by
      unfold IsChild at hchild
      omega
    obtain ⟨r, hrun, hfound, hsome, -⟩ := ih child hok.1 hok.2 (by omega)
    exact ⟨r, hrun, hfound, hsome, fun h => absurd hupper (not_lt.2 h)⟩
  by_cases hl : leftchild nodeno < nodesPerPage ∧ minvalue ≤ page.fpNodes (leftchild nodeno)
  · rw [if_pos (decide_eq_true hl)]
    exact hgoal _ (.inl rfl) hl
  rw [if_neg (by simpa using hl), hasSpace_eq, Except.bind]
  by_cases hr : leftchild nodeno + 1 < nodesPerPage ∧ minvalue ≤ page.fpNodes (leftchild nodeno + 1)
  · rw [if_pos (decide_eq_true hr)]
    exact hgoal _ (.inr rfl) hr
  rw [if_neg (by simpa using hr)]
  refine ⟨none, rfl, fun n hn => (by cases hn), fun hcorrect hmin => ?_,
    fun h => absurd hupper (not_lt.2 h)⟩
  obtain ⟨child, hchild, hok⟩ := (hcorrect nodeno hupper).exists_child hmin hspace
  rcases hchild with rfl | rfl
  · exact absurd hok hl
  · exact absurd hok hr

end Pg.Fsm
