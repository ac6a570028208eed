import PgRetrofit.Proofs.Qsort
import PgRetrofit.Spec.SyncRep
import PgRetrofit.Lib.Result

/-! A wait position that is released has been reported by as many synchronous standbys as are
asked for. -/

namespace Pg.SyncRep

open List Result Nat Function

variable {s s' : State} {config : SyncRepConfigData} {cs stbys : List SyncRepStandbyData}
  {c : SyncRepStandbyData} {mode : WaitMode} {n L w : ℕ}

def candidates (s : State) : List SyncRepStandbyData := collectStandbys s.me 0 s.walsnds

/-- One of the `n` candidates of highest priority: fewer than `n` come before it. -/
def Top (n : ℕ) (cs : List SyncRepStandbyData) (c : SyncRepStandbyData) : Prop :=
  c ∈ cs ∧ cs.countP (fun c' => standbyPriorityComparator c' c < 0) < n

/-- Enough candidates reported this position of the mode, with `FIRST` those of highest priority. -/
structure Reported (config : SyncRepConfigData) (cs : List SyncRepStandbyData)
    (mode : WaitMode) (L : ℕ) : Prop where
  enough : config.numSync ≤ cs.countP fun c => L ≤ c.ptrs.get mode
  first : config.syncrepMethod = .priority → ∀ c, Top config.numSync cs c → L ≤ c.ptrs.get mode

/-- The call gets as far as the positions: its own standby is a synchronous one, and there are enough. -/
structure Decides (s : State) (config : SyncRepConfigData) (stbys : List SyncRepStandbyData) : Prop where
  suits : ∀ my, s.walsnds[s.me]? = some my → ¬ (my.syncStandbyPriority = 0 ∨
    (my.state ≠ .streaming ∧ my.state ≠ .stopping) ∨ my.ptrs.flush = invalidXLogRecPtr)
  sync : stbys.any (fun stby => stby.isMe) = true
  many : config.numSync ≤ stbys.length

/-- With `FIRST` a position 0 is not followed by valid ones that are all above the released one. With
`ANY n`, where a byte keeps `n % 256`, that many report a new position only if `n` do. -/
def Usual (s : State) (config : SyncRepConfigData) (stbys : List SyncRepStandbyData)
    (mode : WaitMode) : Prop :=
  match config.syncrepMethod with
  | .priority =>
    ∀ later, invalidXLogRecPtr :: later <:+ stbys.map (fun c => c.ptrs.get mode) → later ≠ [] →
      ∃ ptr ∈ later, ptr ≤ s.lsn mode
  | .quorum => config.numSync % 256 ≠ 0 ∧ ∀ L, s.lsn mode < L →
      config.numSync % 256 ≤ stbys.countP (fun c => L ≤ c.ptrs.get mode) →
      config.numSync ≤ stbys.countP fun c => L ≤ c.ptrs.get mode

theorem Reported.mono (h : Reported config cs mode L) (hw : w ≤ L) : Reported config cs mode w := by
  refine ⟨h.enough.trans (countP_mono_left fun c _ hc => ?_), fun hm c hc => hw.trans (h.first hm c hc)⟩
  simp only [decide_eq_true_eq] at hc ⊢
  exact hw.trans hc

theorem sorted_spec {α : Type} {cmp : α → α → ℤ} (hcmp : CmpOrder cmp fun _ => True) (l : List α) :
    ∃ l', sorted cmp l = .ok l' ∧ l'.Perm l ∧ l'.Pairwise fun x y => cmp x y ≤ 0 := by
  cases l with
  | nil => exact ⟨[], rfl, .refl _, .nil⟩
  | cons x xs =>
    obtain ⟨m, hrun, hperm, hsorted⟩ := Qsort.pgQsort_list hcmp (x :: xs) x
    refine ⟨_, ?_, hperm, hsorted⟩
    rw [sorted, hrun]

theorem cmpLsn_order : CmpOrder cmpLsn fun _ => True :=
  .ofKey (fun lsn => -(lsn : ℤ)) fun x y _ _ => by
    dsimp only [cmpLsn]
    split_ifs <;> omega

theorem standbyPriorityComparator_order : CmpOrder standbyPriorityComparator fun _ => True := by
  constructor
  · intro x y _ _
    unfold standbyPriorityComparator
    split_ifs <;> omega
  · intro x y z _ _ _
    unfold standbyPriorityComparator
    split_ifs <;> omega

theorem collectStandbys_spec {me i : ℕ} {walsnds : List WalSnd} :
    (∀ c ∈ collectStandbys me i walsnds, i ≤ c.walsndIndex ∧ c.ptrs.flush ≠ invalidXLogRecPtr) ∧
      (collectStandbys me i walsnds).Pairwise fun c c' => c.walsndIndex < c'.walsndIndex := by
  induction walsnds generalizing i with
  | nil => exact ⟨fun c hc => absurd hc not_mem_nil, .nil⟩
  | cons walsnd rest ih => ?_
  obtain ⟨hmem, hsorted⟩ := @ih (i + 1)
  have hskip := fun c hc => (hmem c hc).imp_left (le_of_succ_le)
  rw [collectStandbys]
  split_ifs with _ _ _ hflush
  all_goals try exact ⟨hskip, hsorted⟩
  exact ⟨forall_mem_cons.2 ⟨⟨le_rfl, hflush⟩, hskip⟩,
    pairwise_cons.2 ⟨fun c hc => (hmem c hc).1, hsorted⟩⟩

/-- In a list without ties, as many come before an element as the comparison says. -/
theorem countP_before {l1 l2 : List SyncRepStandbyData}
    (h : (l1 ++ c :: l2).Pairwise fun c c' => standbyPriorityComparator c c' < 0) :
    (l1 ++ c :: l2).countP (fun c' => standbyPriorityComparator c' c < 0) = l1.length := by
  have hself := standbyPriorityComparator_order.self (x := c) trivial
  obtain ⟨-, hcons, hcross⟩ := pairwise_append.1 h
  have hbefore : l1.countP (fun c' => standbyPriorityComparator c' c < 0) = l1.length :=
    countP_eq_length.2 fun c' hc' => decide_eq_true (hcross c' hc' c mem_cons_self)
  have hafter : l2.countP (fun c' => standbyPriorityComparator c' c < 0) = 0 := by
    refine countP_eq_zero.2 fun c' hc' => ?_
    have hlt := (pairwise_cons.1 hcons).1 c' hc'
    have := standbyPriorityComparator_order.flip_pos (x := c') (y := c) trivial trivial
    simp only [decide_eq_true_eq]
    omega
  rw [countP_append, countP_cons, if_neg (by simp [hself])]
  omega

/-- The standbys that are looked at: all candidates, or with `FIRST n` the top `n` of them. -/
theorem candidateStandbys_spec (s : State) (config : SyncRepConfigData) :
    ∃ stbys, syncRepGetCandidateStandbys (some config) s.me s.walsnds = .ok stbys ∧
      stbys.Subperm (candidates s) ∧ (config.syncrepMethod = .quorum → stbys = candidates s) ∧
      (config.syncrepMethod = .priority → config.numSync ≤ stbys.length →
        ∀ c, c ∈ stbys ↔ Top config.numSync (candidates s) c) := by
  obtain ⟨-, hindex⟩ : _ ∧ (candidates s).Pairwise fun c c' => c.walsndIndex < c'.walsndIndex :=
    collectStandbys_spec
  rw [syncRepGetCandidateStandbys]
  change ∃ stbys, (if _ ∧ (candidates s).length > _ then (sorted _ (candidates s) >>= _)
    else .ok (candidates s)) = _ ∧ _
  split_ifs with hmany
  · obtain ⟨all, hsort, hperm, hsorted⟩ := sorted_spec standbyPriorityComparator_order (candidates s)
    -- sorted without ties, since the indexes differ
    have hne : all.Pairwise fun c c' => c.walsndIndex ≠ c'.walsndIndex :=
      (hperm.pairwise_iff fun h => h.symm).2 (hindex.imp ne_of_lt)
    have hstrict : all.Pairwise fun c c' => standbyPriorityComparator c c' < 0 := by
      refine hsorted.imp₂ (fun c c' hle hne => ?_) hne
      unfold standbyPriorityComparator at *
      split_ifs at * <;> omega
    refine ⟨all.take config.numSync, by rw [hsort]; rfl, (take_sublist _ _).subperm.trans hperm.subperm,
      fun hq => absurd (hmany.1.symm.trans hq) (by decide), fun _ _ c => ?_⟩
    rw [Top, ← hperm.mem_iff, ← hperm.countP_eq]
    constructor
    · intro hc
      obtain ⟨l1, l2, htake⟩ := append_of_mem hc
      have hlen := congrArg length htake
      have hall : all = l1 ++ c :: (l2 ++ all.drop config.numSync) := by
        rw [← cons_append, ← append_assoc, ← htake, take_append_drop]
      refine ⟨mem_of_mem_take hc, ?_⟩
      rw [hall] at hstrict ⊢
      rw [countP_before hstrict]
      simp only [length_take, length_append, length_cons] at hlen
      omega
    · rintro ⟨hc, hcount⟩
      obtain ⟨l1, l2, rfl⟩ := append_of_mem hc
      rw [countP_before hstrict] at hcount
      obtain ⟨k, hk⟩ := Nat.exists_eq_add_of_lt hcount
      rw [take_append, show config.numSync - l1.length = k + 1 by omega]
      simp
  · refine ⟨_, rfl, .refl _, fun _ => rfl, fun hm hle c => ⟨fun hc => ⟨hc, ?_⟩, fun hc => hc.1⟩⟩
    have hlen : (candidates s).length = config.numSync :=
      le_antisymm (not_lt.1 fun hlt => hmany ⟨hm, hlt⟩) hle
    rw [← hlen]
    refine lt_of_le_of_ne countP_le_length fun he => ?_
    have hself := countP_eq_length.1 he c hc
    rw [standbyPriorityComparator_order.self trivial] at hself
    exact absurd hself (by decide)

theorem foldl_older (lsn : ℕ) (ptrs : List ℕ) (acc : ℕ) (h : lsn < ptrs.foldl older acc) :
    (∃ later, invalidXLogRecPtr :: later <:+ ptrs ∧ later ≠ [] ∧ ∀ ptr ∈ later, lsn < ptr) ∨
      (acc ≠ invalidXLogRecPtr → ptrs.foldl older acc ≤ acc) ∧
      ∀ ptr ∈ ptrs, ptrs.foldl older acc ≤ ptr := by
  induction ptrs generalizing acc with
  | nil => exact .inr ⟨fun _ => le_rfl, fun ptr hptr => absurd hptr not_mem_nil⟩
  | cons ptr ptrs ih => ?_
  rcases ih (older acc ptr) h with ⟨later, hsuffix, hbad⟩ | ⟨hacc, hall⟩
  · exact .inl ⟨later, hsuffix.trans (suffix_cons ..), hbad⟩
  by_cases hptr : ptr = invalidXLogRecPtr
  · subst hptr
    refine .inl ⟨ptrs, suffix_rfl, ?_, fun ptr hmem => lt_of_lt_of_le h (hall ptr hmem)⟩
    rintro rfl
    rw [foldl_cons, foldl_nil] at h
    unfold older invalidXLogRecPtr at h
    split_ifs at h <;> omega
  have hstep : older acc ptr ≠ invalidXLogRecPtr ∧ older acc ptr ≤ ptr ∧
      (acc ≠ invalidXLogRecPtr → older acc ptr ≤ acc) := by
    unfold older invalidXLogRecPtr at *
    split_ifs <;> omega
  exact .inr ⟨fun ha => (hacc hstep.1).trans (hstep.2.2 ha),
    forall_mem_cons.2 ⟨(hacc hstep.1).trans hstep.2.1, hall⟩⟩

theorem foldl_older_mem (acc : ℕ) (ptrs : List ℕ) : ptrs.foldl older acc ∈ acc :: ptrs := by
  induction ptrs generalizing acc with
  | nil => exact mem_cons_self
  | cons ptr ptrs ih =>
    have hstep : older acc ptr = ptr ∨ older acc ptr = acc := by
      unfold older
      split_ifs <;> simp
    grind

/-- The position 0 of a standby is taken for "not set yet": what follows it decides. -/
theorem oldest_iff (lsn : ℕ) (ptrs : List ℕ) :
    (lsn < ptrs.foldl older invalidXLogRecPtr → ∀ ptr ∈ ptrs, ptrs.foldl older invalidXLogRecPtr ≤ ptr) ↔
      ∀ later, invalidXLogRecPtr :: later <:+ ptrs → later ≠ [] → ∃ ptr ∈ later, ptr ≤ lsn := by
  constructor
  · rintro h later ⟨before, rfl⟩ hne
    by_contra! hlater
    obtain ⟨ptr, later, rfl⟩ := exists_cons_of_ne_nil hne
    have hfold : (before ++ invalidXLogRecPtr :: ptr :: later).foldl older invalidXLogRecPtr =
        later.foldl older ptr := by
      simp [older, invalidXLogRecPtr, Nat.pos_iff_ne_zero, em]
    have hlt := hlater _ (foldl_older_mem ptr later)
    rw [hfold] at h
    exact absurd (h hlt _ (mem_append_right _ mem_cons_self)) (not_le.2 (lt_of_le_of_lt (zero_le _) hlt))
  · intro h hlt
    rcases foldl_older lsn ptrs _ hlt with ⟨later, hsuffix, hne, hlater⟩ | hle
    · obtain ⟨ptr, hptr, hle⟩ := h later hsuffix hne
      exact absurd hle (not_le.2 (hlater ptr hptr))
    · exact hle.2

theorem oldest_get (mode : WaitMode) (cs : List SyncRepStandbyData) :
    (syncRepGetOldestSyncRecPtr cs).get mode =
      (cs.map fun c => c.ptrs.get mode).foldl older invalidXLogRecPtr := by
  have hfold : ∀ acc : Positions, (cs.foldl (fun acc stby => ⟨older acc.write stby.ptrs.write,
      older acc.flush stby.ptrs.flush, older acc.apply stby.ptrs.apply⟩) acc).get mode =
      (cs.map fun c => c.ptrs.get mode).foldl older (acc.get mode) := by
    induction cs with
    | nil => exact fun acc => rfl
    | cons c cs ih =>
      intro acc
      rw [foldl_cons, ih, map_cons]
      cases mode <;> rfl
  rw [syncRepGetOldestSyncRecPtr, hfold]
  cases mode <;> rfl

theorem nthLatest_spec (array : List ℕ) {nth : UInt8} (hpos : nth ≠ 0) (hle : nth.toNat ≤ array.length) :
    ∃ ptr, nthLatest nth array = .ok ptr ∧
      ∀ L, L ≤ ptr ↔ nth.toNat ≤ array.countP fun ptr' => L ≤ ptr' := by
  obtain ⟨l, hsort, hperm, hsorted⟩ := sorted_spec cmpLsn_order array
  have hnth : nth.toNat ≠ 0 := fun he => hpos (UInt8.toNat_inj.1 he)
  obtain ⟨k, hk⟩ := exists_eq_succ_of_ne_zero hnth
  have hlen : k < l.length := by
    have := hperm.length_eq
    omega
  refine ⟨l[k], ?_, fun L => ?_⟩
  · rw [nthLatest, hsort, ok_bind, if_neg hpos, hk, succ_sub_one, getElem?_eq_getElem hlen]
    rfl
  have hl : l.take k ++ l[k] :: l.drop (k + 1) = l := by rw [getElem_cons_drop, take_append_drop]
  have hdesc : (l.take k ++ l[k] :: l.drop (k + 1)).Pairwise fun x y => y ≤ x := by
    rw [hl]
    refine hsorted.imp fun {x y} h => ?_
    unfold cmpLsn at h
    split_ifs at h <;> omega
  obtain ⟨-, hcons, hcross⟩ := pairwise_append.1 hdesc
  have hbefore : (l.take k).countP (fun ptr => L ≤ ptr) ≤ k := countP_le_length.trans (length_take_le ..)
  have hcount := congrArg (countP fun ptr => decide (L ≤ ptr)) hl
  rw [countP_append, countP_cons] at hcount
  rw [← hperm.countP_eq, ← hcount, hk]
  by_cases hL : L ≤ l[k]
  · have htake : (l.take k).countP (fun ptr => L ≤ ptr) = k := by
      rw [countP_eq_length.2 fun ptr hptr => decide_eq_true (hL.trans (hcross ptr hptr _ mem_cons_self)),
        length_take_of_le hlen.le]
    simp [hL, htake]
  · have hafter : (l.drop (k + 1)).countP (fun ptr => L ≤ ptr) = 0 := by
      refine countP_eq_zero.2 fun ptr hptr h =>
        hL ((of_decide_eq_true h).trans ((pairwise_cons.1 hcons).1 ptr hptr))
    simp only [hL, hafter, decide_false, Bool.false_eq_true, if_false, false_iff]
    omega

theorem nthLatestPositions_spec {nth : UInt8} (hpos : nth ≠ 0) (hle : nth.toNat ≤ cs.length) :
    ∃ ptrs, syncRepGetNthLatestSyncRecPtr cs nth = .ok ptrs ∧
      ∀ mode L, L ≤ ptrs.get mode ↔ nth.toNat ≤ cs.countP fun c => L ≤ c.ptrs.get mode := by
  have hnth := fun pos : SyncRepStandbyData → ℕ => nthLatest_spec (cs.map pos) hpos (by rwa [length_map])
  obtain ⟨write, hwrite, hw⟩ := hnth fun c => c.ptrs.write
  obtain ⟨flush, hflush, hf⟩ := hnth fun c => c.ptrs.flush
  obtain ⟨apply, happly, ha⟩ := hnth fun c => c.ptrs.apply
  refine ⟨⟨write, flush, apply⟩, ?_, fun mode L => ?_⟩
  · rw [syncRepGetNthLatestSyncRecPtr, hwrite, hflush, happly]
    rfl
  simp only [countP_map] at hw hf ha
  cases mode with
  | write => exact hw L
  | flush => exact hf L
  | apply => exact ha L

/-- The positions are new and reported in every mode, exactly if all is as usual. -/
theorem getSyncRecPtr_spec
    (hstbys : syncRepGetCandidateStandbys (some config) s.me s.walsnds = .ok stbys)
    (h : Decides s config stbys) :
    (∃ ptrs, syncRepGetSyncRecPtr (some config) s.me s.walsnds = .ok (true, ptrs, true) ∧
      ∀ mode, (s.lsn mode < ptrs.get mode → Reported config (candidates s) mode (ptrs.get mode)) ↔
        Usual s config stbys mode) ∨
      syncRepGetSyncRecPtr (some config) s.me s.walsnds = .error .outOfBounds ∧
        ∀ mode, ¬ Usual s config stbys mode := by
  obtain ⟨stbys', hstbys', hsub, hquorum, hpriority⟩ := candidateStandbys_spec s config
  obtain rfl := Except.ok.inj (hstbys.symm.trans hstbys')
  have hfew : (!true || decide (stbys.length < config.numSync)) = false := by simpa using h.many
  simp only [syncRepGetSyncRecPtr, hstbys, ok_bind, h.sync, hfew, Bool.false_eq_true, if_false, Usual]
  cases hm : config.syncrepMethod with
  | quorum =>
    have hbyte : (UInt8.ofNat config.numSync).toNat = config.numSync % 256 := UInt8.toNat_ofNat'
    by_cases hzero : config.numSync % 256 = 0
    · obtain ⟨l, hsort, -⟩ := sorted_spec cmpLsn_order (stbys.map fun c => c.ptrs.write)
      refine .inr ⟨?_, fun mode hu => hu.1 hzero⟩
      have hnth : UInt8.ofNat config.numSync = 0 := UInt8.toNat_inj.1 (by rw [hbyte, hzero]; rfl)
      rw [syncRepGetNthLatestSyncRecPtr, nthLatest, hsort, ok_bind, if_pos hnth]
      rfl
    obtain rfl := hquorum hm
    obtain ⟨ptrs, hptrs, hcount⟩ := nthLatestPositions_spec (fun he => hzero (by rw [← hbyte, he]; rfl))
      (hbyte.trans_le ((mod_le ..).trans h.many))
    refine .inl ⟨ptrs, by rw [hptrs]; rfl, fun mode =>
      ⟨fun hrep => ⟨hzero, fun L hL hk => ?_⟩, fun hu hlt => ?_⟩⟩
    · have hLptr := (hcount mode L).2 (hbyte.trans_le hk)
      exact ((hrep (hL.trans_le hLptr)).mono hLptr).enough
    · exact ⟨hu.2 _ hlt (hbyte.symm.trans_le ((hcount mode _).1 le_rfl)),
        fun hp => absurd (hm.symm.trans hp) (by decide)⟩
  | priority =>
    refine .inl ⟨_, rfl, fun mode => ?_⟩
    rw [← oldest_iff, ← oldest_get]
    refine imp_congr_right fun _ => ?_
    rw [forall_mem_map]
    refine ⟨fun hrep c hc => hrep.first hm c ((hpriority hm h.many c).1 hc), fun hle =>
      ⟨h.many.trans ?_, fun _ c hc => hle c ((hpriority hm h.many c).2 hc)⟩⟩
    calc stbys.length = stbys.countP _ := (countP_eq_length.2 fun c hc => decide_eq_true (hle c hc)).symm
      _ ≤ _ := hsub.countP_le _

/-- What may be done to the positions and the waiters, if `P` says which positions may be released. -/
structure Released (P : WaitMode → ℕ → Prop) (s s' : State) : Prop where
  lsn : ∀ mode, s'.lsn mode = s.lsn mode ∨ P mode (s'.lsn mode)
  waitLSN : ∀ p, (s'.procs p).waitLSN = (s.procs p).waitLSN
  queue : ∀ mode, s'.syncRepQueue mode ⊆ s.syncRepQueue mode
  woken : ∀ p, (s'.procs p).syncRepState = (s.procs p).syncRepState ∨
    ∃ mode, p ∈ s.syncRepQueue mode ∧ P mode (s.procs p).waitLSN

variable {P : WaitMode → ℕ → Prop}

theorem Released.trans {s'' : State} (h : Released P s s') (h' : Released P s' s'') :
    Released P s s'' := by
  refine ⟨fun mode => ?_, fun p => (h'.waitLSN p).trans (h.waitLSN p),
    fun mode p hp => h.queue mode (h'.queue mode hp), fun p => ?_⟩
  · rcases h'.lsn mode with he | hP
    · rw [he]
      exact h.lsn mode
    · exact .inr hP
  · rcases h'.woken p with he | ⟨mode, hp, hP⟩
    · rw [he]
      exact h.woken p
    · exact .inr ⟨mode, h.queue mode hp, h.waitLSN p ▸ hP⟩

theorem wakeLoop_spec (lsn : ℕ) (queue : List ℕ) (procs : ℕ → PgProc) :
    (wakeLoop false lsn queue procs).1 ⊆ queue ∧
      ∀ p, ((wakeLoop false lsn queue procs).2 p).waitLSN = (procs p).waitLSN ∧
      (((wakeLoop false lsn queue procs).2 p).syncRepState = (procs p).syncRepState ∨ p ∈ queue ∧
        (procs p).waitLSN ≤ lsn) := by
  induction queue generalizing procs with
  | nil => exact ⟨Subset.refl _, fun p => ⟨rfl, .inl rfl⟩⟩
  | cons proc rest ih => ?_
  rw [wakeLoop]
  split_ifs with hlsn
  · exact ⟨Subset.refl _, fun p => ⟨rfl, .inl rfl⟩⟩
  obtain ⟨hrest, hprocs⟩ := ih (update procs proc { procs proc with syncRepState := .waitComplete })
  refine ⟨subset_cons_of_subset _ hrest, fun p => ?_⟩
  obtain ⟨hwait, hstate⟩ := hprocs p
  by_cases hp : p = proc
  · subst hp
    rw [update_self] at hwait
    exact ⟨hwait, .inr ⟨mem_cons_self, by simpa using hlsn⟩⟩
  · rw [update_of_ne hp] at hwait hstate
    exact ⟨hwait, hstate.imp_right fun hq => ⟨mem_cons_of_mem _ hq.1, hq.2⟩⟩

theorem raise_lsn (mode mode' : WaitMode) (ptr : ℕ) (s : State) :
    (raise mode ptr s).lsn mode' = if mode' = mode then max (s.lsn mode) ptr else s.lsn mode' := by
  unfold raise
  split_ifs with hlt heq
  · simp [syncRepWakeQueue, heq, hlt.le]
  · simp [syncRepWakeQueue, heq]
  · simp_all
  · rfl

theorem raise_released {ptr : ℕ} (h : s.lsn mode < ptr → ∀ w ≤ ptr, P mode w) :
    Released P s (raise mode ptr s) := by
  rw [raise]
  split_ifs with hlt
  · obtain ⟨hrest, hprocs⟩ := wakeLoop_spec ptr (s.syncRepQueue mode) s.procs
    rw [syncRepWakeQueue]
    simp only [update_self]
    refine ⟨fun mode' => ?_, fun p => (hprocs p).1, fun mode' => ?_,
      fun p => (hprocs p).2.imp_right fun hp => ⟨mode, hp.1, h hlt _ hp.2⟩⟩
    · dsimp only
      rcases eq_or_ne mode' mode with rfl | hne
      · rw [update_self]
        exact .inr (h hlt ptr le_rfl)
      · exact .inl (update_of_ne hne ..)
    dsimp only
    rcases eq_or_ne mode' mode with rfl | hne
    · rw [update_self]
      exact hrest
    · rw [update_of_ne hne]
      exact Subset.refl _
  · exact ⟨fun _ => .inl rfl, fun _ => rfl, fun _ => Subset.refl _, fun _ => .inl rfl⟩

def raiseAll (ptrs : Positions) (s : State) : State :=
  raise .apply ptrs.apply
    (raise .flush ptrs.flush (raise .write ptrs.write { s with announceNextTakeover := false }))

theorem raiseAll_lsn (ptrs : Positions) (s : State) (mode : WaitMode) :
    (raiseAll ptrs s).lsn mode = max (s.lsn mode) (ptrs.get mode) := by
  cases mode <;> simp [raiseAll, raise_lsn, Positions.get]

theorem Released.announce (b : Bool) : Released P s { s with announceNextTakeover := b } :=
  ⟨fun _ => .inl rfl, fun _ => rfl, fun _ => Subset.refl _, fun _ => .inl rfl⟩

theorem raiseAll_released {ptrs : Positions}
    (h : ∀ mode, s.lsn mode < ptrs.get mode → ∀ w ≤ ptrs.get mode, P mode w) :
    Released P s (raiseAll ptrs s) := by
  have hwrite := (Released.announce false).trans (raise_released (h .write))
  have hflush : Released P s (raise .flush ptrs.flush _) :=
    hwrite.trans (raise_released (by simpa [raise_lsn, Positions.get] using h .flush))
  exact hflush.trans (raise_released (by simpa [raise_lsn, Positions.get] using h .apply))

section Run

variable (hconfig : s.config = some config) (hme : s.me < s.walsnds.length)
  (hstbys : syncRepGetCandidateStandbys (some config) s.me s.walsnds = .ok stbys)
include hme

theorem releaseWaiters_decides (h : Decides s config stbys) : syncRepReleaseWaiters s =
    syncRepGetSyncRecPtr s.config s.me s.walsnds >>= fun r =>
      if !r.1 || !r.2.2 then .ok { s with announceNextTakeover := !r.2.2 }
      else .ok (raiseAll r.2.1 s) := by
  rw [syncRepReleaseWaiters, getElem?_eq_getElem hme]
  dsimp only
  rw [if_neg (h.suits _ (getElem?_eq_getElem hme))]
  rfl

include hconfig hstbys

theorem releaseWaiters_idle (h : ¬ Decides s config stbys) :
    ∃ b, syncRepReleaseWaiters s = .ok { s with announceNextTakeover := b } := by
  rw [syncRepReleaseWaiters, getElem?_eq_getElem hme]
  dsimp only
  split_ifs with hsuits
  · exact ⟨true, rfl⟩
  rw [hconfig]
  simp only [syncRepGetSyncRecPtr, hstbys, ok_bind]
  split_ifs with hfew
  · exact ⟨_, rfl⟩
  · rw [Bool.or_eq_true, not_or, decide_eq_true_iff, not_lt, Bool.not_eq_true, Bool.not_eq_false']
      at hfew
    refine absurd ⟨fun my hmy => ?_, hfew.1, hfew.2⟩ h
    rw [getElem?_eq_getElem hme] at hmy
    exact Option.some_inj.1 hmy ▸ hsuits

/-- A position that is released has been reported by enough standbys, and a backend is woken only if
they reported the position it waits for, exactly if the call decides nothing or all is as usual. -/
theorem syncRepReleaseWaiters_reported :
    (∃ s', syncRepReleaseWaiters s = .ok s' ∧
      (∀ mode, s.lsn mode < s'.lsn mode → Reported config (candidates s) mode (s'.lsn mode)) ∧
      ∀ p, (s.procs p).syncRepState ≠ .waitComplete → (s'.procs p).syncRepState = .waitComplete →
        ∃ mode, p ∈ s.syncRepQueue mode ∧ Reported config (candidates s) mode (s.procs p).waitLSN) ↔
      (Decides s config stbys → ∀ mode, Usual s config stbys mode) := by
  constructor
  · rintro ⟨s', hrun, hlsn, -⟩ hd mode
    rw [releaseWaiters_decides hme hd, hconfig] at hrun
    rcases getSyncRecPtr_spec hstbys hd with ⟨ptrs, hget, hiff⟩ | ⟨hget, -⟩
    · rw [hget] at hrun
      obtain rfl := Except.ok.inj hrun
      refine (hiff mode).1 fun hlt => ?_
      have hreported := hlsn mode
      rw [raiseAll_lsn, max_eq_right hlt.le] at hreported
      exact hreported hlt
    · rw [hget] at hrun
      cases hrun
  intro husual
  suffices hrun : ∃ s', syncRepReleaseWaiters s = .ok s' ∧
      Released (Reported config (candidates s)) s s' by
    obtain ⟨s', hs', hreleased⟩ := hrun
    refine ⟨s', hs', fun mode hlt => (hreleased.lsn mode).resolve_left hlt.ne', fun p hp hp' => ?_⟩
    exact (hreleased.woken p).resolve_left fun he => hp (he.symm.trans hp')
  by_cases hd : Decides s config stbys
  · rw [releaseWaiters_decides hme hd, hconfig]
    rcases getSyncRecPtr_spec hstbys hd with ⟨ptrs, hget, hiff⟩ | ⟨-, hno⟩
    · rw [hget]
      exact ⟨_, rfl, raiseAll_released fun mode hlt w hw => ((hiff mode).2 (husual hd mode) hlt).mono hw⟩
    · exact absurd (husual hd .write) (hno .write)
  · obtain ⟨b, hrun⟩ := releaseWaiters_idle hconfig hme hstbys hd
    exact ⟨_, hrun, .announce b⟩

end Run

def firstTwo : SyncRepConfigData := ⟨2, .priority, by decide⟩

/-- Backend 7 waits for position 50 to be applied; the first standby has applied up to `applied`. -/
def twoStandbys (applied : ℕ) : State where
  config := some firstTwo
  walsnds := [⟨11, .streaming, ⟨200, 200, applied⟩, 1⟩, ⟨12, .streaming, ⟨200, 200, 100⟩, 2⟩]
  me := 1
  announceNextTakeover := false
  lsn := fun _ => 0
  syncRepQueue := fun mode => if mode = .apply then [7] else []
  procs := fun _ => ⟨50, .waiting⟩

/-- Both have applied position 60: the backend that waits for 50 is released. -/
theorem syncRepReleaseWaiters_reported_sixty : ∃ s', syncRepReleaseWaiters (twoStandbys 60) = .ok s' ∧
    s'.lsn .apply = 60 ∧ Reported firstTwo (candidates (twoStandbys 60)) .apply 60 ∧
    (s'.procs 7).syncRepState = .waitComplete := by
  have hvalid :
      ∀ mode, invalidXLogRecPtr ∉ (candidates (twoStandbys 60)).map fun c => c.ptrs.get mode := by
    intro mode
    cases mode <;> decide
  have hreported := @syncRepReleaseWaiters_reported (twoStandbys 60) firstTwo _ rfl (by decide) rfl
  obtain ⟨s', hs', hlsn, -⟩ := hreported.2 fun _ mode later hlater =>
    absurd (hlater.subset mem_cons_self) (hvalid mode)
  obtain rfl := Except.ok.inj hs'
  exact ⟨_, rfl, rfl, hlsn .apply (by decide), rfl⟩

/-- The first standby reports that it has applied nothing: the position of the second one is
released, and the backend is told that both have applied its commit. -/
theorem syncRepReleaseWaiters_unreported : ∃ s', syncRepReleaseWaiters (twoStandbys 0) = .ok s' ∧
    s'.lsn .apply = 100 ∧ ¬ Reported firstTwo (candidates (twoStandbys 0)) .apply 100 ∧
    (s'.procs 7).syncRepState = .waitComplete ∧
      ¬ Reported firstTwo (candidates (twoStandbys 0)) .apply 50 := by
  refine ⟨_, rfl, by decide, fun h => ?_, by decide, fun h => ?_⟩
  · exact absurd h.enough (by decide)
  · exact absurd h.enough (by decide)

end Pg.SyncRep
