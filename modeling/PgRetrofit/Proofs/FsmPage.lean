import PgRetrofit.Lib.Result
import PgRetrofit.Sanity.FsmLoops

/-! Pages of the free space map over whole runs: the upper nodes stay right, and a search
finds a slot with enough space if there is one. -/

namespace Pg.Fsm

open MaxTree Function

variable {page page' : FSMPage} {minvalue value : Fin 256} {slots : ℕ → Fin 256} {slot : ℕ}

theorem leaf_lt (h : slot < leafNodesPerPage) : nonLeafNodesPerPage + slot < nodesPerPage := by
  rw [leafNodesPerPage_eq] at h
  rw [nonLeafNodesPerPage_eq, nodesPerPage_eq]
  omega

theorem fsmSetAvail_spec (h : Correct page) (hslot : slot < leafNodesPerPage) (value : Fin 256) :
    ∃ changed page', fsmSetAvail page slot value = .ok (changed, page') ∧ Correct page' ∧
      page'.slots = update page.slots slot value := by
  have hlt := leaf_lt hslot
  have hzero : 0 < nodesPerPage := by decide
  rw [fsmSetAvail]
  rw [get_ok hlt, Except.bind, get_ok hzero, Except.bind]
  by_cases hsame : page.fpNodes (nonLeafNodesPerPage + slot) = value ∧ value ≤ page.fpNodes 0
  · rw [if_pos hsame, ← hsame.1]
    exact ⟨false, page, rfl, h, (update_eq_self slot page.slots).symm⟩
  rw [if_neg hsame, set_ok hlt, Except.bind]
  obtain ⟨page1, hrun, hcorrect, hleaves⟩ := propagateUp_spec nodesPerPage
    { page with fpNodes := update page.fpNodes (nonLeafNodesPerPage + slot) value }
    (nonLeafNodesPerPage + slot) (Nat.lt_add_right slot (by decide)) hlt hlt.le
    fun p hp hne => (h p hp).update (by omega) fun hc => hne hc.parent_eq.symm
  have hslots : page1.slots = update page.slots slot value := by
    rw [hleaves.slots_eq]
    funext i
    rcases eq_or_ne i slot with rfl | hne
    · rw [update_self]
      exact update_self ..
    · rw [update_of_ne hne]
      exact update_of_ne (by omega) ..
  rw [hrun, Except.bind, get_ok hzero, Except.bind]
  by_cases htop : value > page1.fpNodes 0
  · obtain ⟨changed, page2, hrebuild, hcorrect2, hleaves2⟩ := fsmRebuildPage_spec page1
    rw [if_pos htop, hrebuild]
    exact ⟨true, page2, rfl, hcorrect2, hleaves2.slots_eq.trans hslots⟩
  · rw [if_neg htop]
    exact ⟨true, page1, rfl, hcorrect, hslots⟩

theorem fsmTruncateAvail_spec (h : Correct page) {nslots : ℕ} (hslot : nslots < leafNodesPerPage) :
    ∃ changed page', fsmTruncateAvail page nslots = .ok (changed, page') ∧ Correct page' ∧
      ∀ slot < leafNodesPerPage, page'.slots slot = if nslots ≤ slot then 0 else page.slots slot := by
  have hlt := leaf_lt hslot
  obtain ⟨changed, page1, hrun, hnodes, hsame⟩ := clearFrom_spec
    (nodesPerPage - (nonLeafNodesPerPage + nslots)) page (nonLeafNodesPerPage + nslots) false (by omega)
  have hslots : ∀ slot < leafNodesPerPage, page1.slots slot = if nslots ≤ slot then 0
      else page.slots slot := by
    intro slot hslot
    have := leaf_lt hslot
    rw [FSMPage.slots, hnodes]
    exact if_congr (by omega) rfl rfl
  rw [fsmTruncateAvail, hrun, Except.bind]
  cases changed with
  | true =>
    obtain ⟨_, page2, hrebuild, hcorrect, hleaves⟩ := fsmRebuildPage_spec page1
    dsimp only
    rw [hrebuild]
    exact ⟨true, page2, rfl, hcorrect, by rw [hleaves.slots_eq]; exact hslots⟩
  | false =>
    obtain rfl := (hsame rfl).2
    exact ⟨false, page1, rfl, h, hslots⟩

theorem startNode_spec (page : FSMPage) :
    nonLeafNodesPerPage ≤ startNode page ∧ startNode page < nodesPerPage := by
  have hleaf := leafNodesPerPage_eq
  have hnodes := nodesPerPage_eq
  have hupper := nonLeafNodesPerPage_eq
  rw [startNode]
  split <;> omega

theorem search_start (page : FSMPage) (minvalue : Fin 256) (hroot : minvalue ≤ page.fpNodes 0) :
    ∃ n r, climb page minvalue nodesPerPage (startNode page) = .ok n ∧
      descend page minvalue nodesPerPage n = .ok r ∧
      (∀ n ∈ r, nonLeafNodesPerPage ≤ n ∧ n < nodesPerPage ∧ minvalue ≤ page.fpNodes n) ∧
      (Correct page → r ≠ none) := by
  obtain ⟨hleaf, hlt⟩ := startNode_spec page
  have hnodes := nodesPerPage_eq
  have hupper := nonLeafNodesPerPage_eq
  have hlevel : InLevel 12 (startNode page) := ⟨by omega, by omega⟩
  obtain ⟨n, hclimb, hn, hspace, hfirst⟩ :=
    climb_spec nodesPerPage 12 _ hroot hlevel hlt le_rfl (by omega)
  obtain ⟨r, hdescend, hfound, hsome, hstay⟩ := descend_spec nodesPerPage n hn hspace (by omega)
  refine ⟨n, r, hclimb, hdescend, hfound, fun hcorrect => ?_⟩
  rcases eq_or_ne minvalue 0 with rfl | hne
  · -- for 0 the first leaf is good enough, even where a childless upper node would not be
    have hn0 : n = startNode page := hfirst (Fin.zero_le _)
    rw [hstay (hn0 ▸ hleaf)]
    exact Option.some_ne_none _
  · exact hsome hcorrect (Fin.pos_iff_ne_zero.2 hne)

/-- The answer is a slot with enough space, or -1 where the root has too little. -/
structure Answer (page : FSMPage) (minvalue : Fin 256) (answer : ℤ) (page' : FSMPage) : Prop where
  nodes_eq : page'.fpNodes = page.fpNodes
  found : answer = -1 ∧ page.fpNodes 0 < minvalue ∨
    ∃ slot : ℕ, answer = slot ∧ slot < leafNodesPerPage ∧ minvalue ≤ page.slots slot

theorem fsmSearchAvail_correct (h : Correct page) (starts : ℕ) (minvalue : Fin 256)
    (advancenext : Bool) :
    ∃ answer page', fsmSearchAvail (starts + 1) page minvalue advancenext = .ok (answer, page') ∧
      Answer page minvalue answer page' := by
  rw [fsmSearchAvail, get_ok (by decide), Except.bind]
  by_cases hroot : page.fpNodes 0 < minvalue
  · rw [if_pos hroot]
    exact ⟨-1, page, rfl, rfl, .inl ⟨rfl, hroot⟩⟩
  rw [if_neg hroot]
  obtain ⟨n, r, hclimb, hdescend, hfound, hsome⟩ := search_start page minvalue (not_lt.1 hroot)
  obtain ⟨leaf, rfl⟩ := Option.ne_none_iff_exists'.1 (hsome h)
  obtain ⟨hleaf, hlt, hspace⟩ := hfound leaf rfl
  rw [hclimb, Except.bind, hdescend]
  rw [nodesPerPage_eq] at hlt
  have hslot : (leaf - nonLeafNodesPerPage) % 2 ^ 16 = leaf - nonLeafNodesPerPage :=
    Nat.mod_eq_of_lt (by omega)
  refine ⟨_, _, rfl, rfl, .inr ⟨_, rfl, ?_, ?_⟩⟩
  · rw [leafNodesPerPage_eq, nonLeafNodesPerPage_eq]
    omega
  · rw [hslot, FSMPage.slots, Nat.add_sub_cancel' (by exact hleaf)]
    exact hspace

theorem fsmSearchAvail_any (page : FSMPage) (starts : ℕ) (minvalue : Fin 256) (advancenext : Bool) :
    ∃ answer page', fsmSearchAvail (starts + 2) page minvalue advancenext = .ok (answer, page') := by
  rw [fsmSearchAvail, get_ok (by decide), Except.bind]
  by_cases hroot : page.fpNodes 0 < minvalue
  · rw [if_pos hroot]
    exact ⟨-1, page, rfl⟩
  rw [if_neg hroot]
  obtain ⟨n, r, hclimb, hdescend, -⟩ := search_start page minvalue (not_lt.1 hroot)
  rw [hclimb, Except.bind, hdescend]
  cases r with
  | some leaf => exact ⟨_, _, rfl⟩
  | none =>
    obtain ⟨changed, page1, hrebuild, hcorrect, -⟩ := fsmRebuildPage_spec page
    obtain ⟨answer, page', hrun, -⟩ := fsmSearchAvail_correct hcorrect starts minvalue advancenext
    rw [hrebuild]
    exact ⟨answer, page', hrun⟩

structure Represents (page : FSMPage) (slots : ℕ → Fin 256) : Prop where
  correct : Correct page
  slots_eq : ∀ slot < leafNodesPerPage, page.slots slot = slots slot

theorem zeroed_represents : Represents FSMPage.zeroed fun _ => 0 := by
  refine ⟨fun p _ => ?_, fun _ _ => rfl⟩
  have hvalue : ∀ i, valueAt nodesPerPage FSMPage.zeroed.fpNodes i = 0 := fun i => ite_self _
  rw [MaxAt, childMax, hvalue, hvalue]
  rfl

theorem exec_represents (h : Represents page slots) (starts : ℕ) (call : FsmCall) :
    ∃ page', call.exec (starts + 1) page = .ok page' ∧ Represents page' (call.apply slots) := by
  cases call with
  | setAvail slot value =>
    obtain ⟨changed, page', hrun, hcorrect, hslots⟩ := fsmSetAvail_spec h.correct slot.isLt value
    refine ⟨page', by rw [FsmCall.exec, hrun]; rfl, hcorrect, fun i hi => ?_⟩
    rw [hslots, FsmCall.apply, update_apply, update_apply, h.slots_eq i hi]
  | truncateAvail nslots =>
    obtain ⟨changed, page', hrun, hcorrect, hslots⟩ := fsmTruncateAvail_spec h.correct nslots.isLt
    refine ⟨page', by rw [FsmCall.exec, hrun]; rfl, hcorrect, fun i hi => ?_⟩
    rw [hslots i hi, FsmCall.apply, h.slots_eq i hi]
  | searchAvail minvalue advancenext => ?_
  obtain ⟨answer, page', hrun, hanswer⟩ := fsmSearchAvail_correct h.correct starts minvalue advancenext
  refine ⟨page', by rw [FsmCall.exec, hrun]; rfl, ?_, fun i hi => ?_⟩
  · rw [Correct, hanswer.nodes_eq]
    exact h.correct
  · rw [FSMPage.slots, hanswer.nodes_eq]
    exact h.slots_eq i hi

theorem run_represents_slots (h : Represents page slots) (starts : ℕ) (calls : List FsmCall) :
    ∃ page', run (starts + 1) calls page = .ok page' ∧
      Represents page' (calls.foldl FsmCall.apply slots) := by
  induction calls generalizing page slots with
  | nil => exact ⟨page, rfl, h⟩
  | cons call calls ih =>
    obtain ⟨page1, hexec, h1⟩ := exec_represents h starts call
    obtain ⟨page', hrun, h'⟩ := ih h1
    exact ⟨page', Result.foldlM_cons_ok.2 ⟨page1, hexec, hrun⟩, h'⟩

/-- On a correct page a search finds enough space exactly if there is some. -/
theorem Answer.exact {answer : ℤ} (h : Answer page minvalue answer page') (hcorrect : Correct page) :
    (∃ slot : ℕ, answer = slot ∧ slot < leafNodesPerPage ∧ minvalue ≤ page.slots slot) ∨
      answer = -1 ∧ ∀ slot < leafNodesPerPage, page.slots slot < minvalue := by
  rcases h.found with ⟨hanswer, hroot⟩ | hfound
  · refine .inr ⟨hanswer, fun slot hslot => ?_⟩
    have hle : page.fpNodes (nonLeafNodesPerPage + slot) ≤ page.fpNodes 0 :=
      hcorrect.le_root (fun i hi hlt => ?_) (leaf_lt hslot)
    · exact lt_of_le_of_lt hle hroot
    · rw [parent, nonLeafNodesPerPage_eq]
      rw [nodesPerPage_eq] at hlt
      omega
  · exact .inl hfound

/-- After any calls on a zeroed page every upper node holds the maximum of its children, the
slots are those the calls have set, and a search answers with a slot that has enough space,
or with -1 if there is none. On an arbitrary page a search rebuilds at most once. -/
theorem fsmSearchAvail_after_run (starts : ℕ) (calls : List FsmCall) :
    (∃ page, run (starts + 1) calls FSMPage.zeroed = .ok page ∧
      (∀ p < nonLeafNodesPerPage, page.fpNodes p = childMax nodesPerPage page.fpNodes p) ∧
      (∀ slot < leafNodesPerPage, page.slots slot = calls.foldl FsmCall.apply (fun _ => 0) slot) ∧
      ∀ minvalue advancenext, ∃ answer page',
        fsmSearchAvail (starts + 1) page minvalue advancenext = .ok (answer, page') ∧
        ((∃ slot : ℕ, answer = slot ∧ slot < leafNodesPerPage ∧ minvalue ≤ page.slots slot) ∨
          answer = -1 ∧ ∀ slot < leafNodesPerPage, page.slots slot < minvalue)) ∧
    ∀ page minvalue advancenext, ∃ answer page',
      fsmSearchAvail (starts + 2) page minvalue advancenext = .ok (answer, page') := by
  refine ⟨?_, fun page minvalue advancenext => fsmSearchAvail_any page starts minvalue advancenext⟩
  obtain ⟨page, hrun, h⟩ := run_represents_slots zeroed_represents starts calls
  refine ⟨page, hrun, h.correct, h.slots_eq, fun minvalue advancenext => ?_⟩
  obtain ⟨answer, page', hsearch, hanswer⟩ :=
    fsmSearchAvail_correct h.correct starts minvalue advancenext
  exact ⟨answer, page', hsearch, hanswer.exact h.correct⟩

/-- After any calls on a zeroed page `fsm_get_avail` returns the space last recorded for a slot,
and `fsm_get_max_avail` the largest space of them all. -/
theorem fsmGetAvail_after_run (starts : ℕ) (calls : List FsmCall) :
    ∃ page root, run (starts + 1) calls FSMPage.zeroed = .ok page ∧
      (∀ slot < leafNodesPerPage,
        fsmGetAvail page slot = .ok (calls.foldl FsmCall.apply (fun _ => 0) slot)) ∧
      fsmGetMaxAvail page = .ok root ∧
        IsGreatest (calls.foldl FsmCall.apply (fun _ => 0) '' Set.Iio leafNodesPerPage) root := by
  obtain ⟨page, hrun, h⟩ := run_represents_slots zeroed_represents starts calls
  have hle : ∀ slot < leafNodesPerPage, page.slots slot ≤ page.fpNodes 0 := by
    refine fun slot hslot => h.correct.le_root (fun i hi hlt => ?_) (leaf_lt hslot)
    rw [parent, nonLeafNodesPerPage_eq]
    rw [nodesPerPage_eq] at hlt
    omega
  refine ⟨page, page.fpNodes 0, hrun, fun slot hslot => ?_, get_ok (by decide), ?_, ?_⟩
  · rw [← h.slots_eq slot hslot]
    exact get_ok (leaf_lt hslot)
  · -- the root's value is that of the slot a search for it finds
    obtain ⟨answer, page', -, hanswer⟩ := fsmSearchAvail_correct h.correct 0 (page.fpNodes 0) false
    rcases hanswer.found with ⟨-, hroot⟩ | ⟨slot, -, hslot, hspace⟩
    · exact absurd hroot (lt_irrefl _)
    · exact ⟨slot, hslot, (h.slots_eq slot hslot).symm.trans ((hle slot hslot).antisymm hspace)⟩
  · rintro _ ⟨slot, hslot, rfl⟩
    exact (h.slots_eq slot hslot).symm.trans_le (hle slot hslot)

end Pg.Fsm
