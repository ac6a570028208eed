import PgRetrofit.Sanity.KnownAssignedLoops

/-! What each call on the array of known assigned xids does to the list of its slots. -/

namespace Pg.KnownAssigned

open SerialOrder List Nat Function
open Prod (snd fst)

variable {s s' : KnownAssigned} {L : List (ℕ × Bool)} {latest t : ℕ} {x : TransactionId} {p : ℕ × Bool}

def live (L : List (ℕ × Bool)) : List ℕ := (L.filter Prod.snd).map Prod.fst

theorem mem_live : t ∈ live L ↔ (t, true) ∈ L := by
  simp [live]

/-- Between tail and head are these slots, none later than `latest`. -/
structure Slots (s : KnownAssigned) (L : List (ℕ × Bool)) (latest : ℕ) : Prop where
  head_eq : s.headKnownAssignedXids = s.tailKnownAssignedXids + L.length
  bound : s.headKnownAssignedXids ≤ s.maxKnownAssignedXids
  entries : Entries s s.tailKnownAssignedXids L
  normal : ∀ p ∈ L, IsNormal p.1
  sorted : (L.map Prod.fst).Pairwise (· < ·)
  near : ∀ p ∈ L, ∀ q ∈ L, Near p.1 q.1
  count : s.numKnownAssignedXids = L.countP Prod.snd
  le_latest : ∀ p ∈ L, p.1 ≤ latest

def FirstValid (L : List (ℕ × Bool)) : Prop := ∀ p ∈ L.head?, p.2 = true

structure Inv (s : KnownAssigned) (L : List (ℕ × Bool)) (latest : ℕ) :
    Prop extends Slots s L latest where
  first : FirstValid L

theorem create_inv (max maxProcs latest : ℕ) : Inv (create max maxProcs) [] latest where
  head_eq := rfl
  bound := zero_le _
  entries := entries_nil _ _
  normal := fun _ h => absurd h not_mem_nil
  sorted := List.Pairwise.nil
  near := fun _ h => absurd h not_mem_nil
  count := rfl
  le_latest := fun _ h => absurd h not_mem_nil
  first := fun _ h => by cases h

theorem Slots.length_eq (h : Slots s L latest) :
    s.headKnownAssignedXids - s.tailKnownAssignedXids = L.length := by
  rw [h.head_eq, Nat.add_sub_cancel_left]

theorem Slots.sublist (h : Slots s L latest) {M : List (ℕ × Bool)} (hsub : M.Sublist L)
    (hhead : s'.headKnownAssignedXids = s'.tailKnownAssignedXids + M.length)
    (hbound : s'.headKnownAssignedXids ≤ s'.maxKnownAssignedXids)
    (hentries : Entries s' s'.tailKnownAssignedXids M)
    (hcount : s'.numKnownAssignedXids = M.countP snd) : Slots s' M latest where
  head_eq := hhead
  bound := hbound
  entries := hentries
  normal := fun p hp => h.normal p (hsub.subset hp)
  sorted := h.sorted.sublist (hsub.map _)
  near := fun p hp q hq => h.near p (hsub.subset hp) q (hsub.subset hq)
  count := hcount
  le_latest := fun p hp => h.le_latest p (hsub.subset hp)

variable (L)

theorem live_filter_snd : live (L.filter snd) = live L := by
  simp [live]

theorem live_dropWhile : live (L.dropWhile fun p => !p.2) = live L := by
  induction L with
  | nil => rfl
  | cons p L ih =>
    cases hp : p.2 with
    | true => rw [dropWhile_cons_of_neg (by simp [hp])]
    | false =>
      rw [dropWhile_cons_of_pos (by simp [hp]), ih, live, live, filter_cons_of_neg (by simp [hp])]

theorem countP_eq_length_live : L.countP snd = (live L).length := by
  rw [live, length_map, countP_eq_length_filter]

variable {L}

/-- Forced, the compression keeps the valid slots only. -/
theorem Slots.compress (h : Slots s L latest) :
    ∃ s', s.knownAssignedXidsCompress true = .ok () s' ∧ Inv s' (L.filter snd) latest ∧
      s'.maxKnownAssignedXids = s.maxKnownAssignedXids ∧ s'.headKnownAssignedXids = (live L).length := by
  have hbound := h.bound
  rw [h.head_eq] at hbound
  obtain ⟨s1, hrun, hentries, -, honly⟩ :=
    compressLoop_spec L s s.tailKnownAssignedXids 0 (zero_le _) hbound h.entries
  rw [zero_add] at hrun
  have hmax : s1.maxKnownAssignedXids = s.maxKnownAssignedXids := by rw [honly]
  have hnum : s1.numKnownAssignedXids = s.numKnownAssignedXids := by rw [honly]
  refine ⟨{ s1 with tailKnownAssignedXids := 0, headKnownAssignedXids := (L.filter snd).length },
    ?_, ⟨?_, ?_⟩, hmax, ?_⟩
  · rw [knownAssignedXidsCompress]
    rw [if_neg (by simp), h.length_eq, hrun]
  · refine h.sublist filter_sublist (zero_add _).symm ?_ hentries ?_
    · change (L.filter snd).length ≤ s1.maxKnownAssignedXids
      have := length_filter_le snd L
      omega
    · rw [hnum, h.count, countP_eq_length_live, countP_eq_length_live, live_filter_snd]
  · intro p hp
    exact (mem_filter.1 (mem_of_mem_head? hp)).2
  · rw [live, length_map]

theorem Inv.compress (h : Inv s L latest) (force : Bool) :
    ∃ s' L', s.knownAssignedXidsCompress force = .ok () s' ∧ Inv s' L' latest ∧ live L' = live L ∧
      s'.maxKnownAssignedXids = s.maxKnownAssignedXids := by
  obtain ⟨s', hrun, hinv, hmax, -⟩ := h.toSlots.compress
  have hforced : s.knownAssignedXidsCompress force = .ok () s ∨
      s.knownAssignedXidsCompress force = s.knownAssignedXidsCompress true := by
    unfold knownAssignedXidsCompress
    dsimp only
    rw [Bool.not_true, Bool.false_and, if_neg Bool.false_ne_true]
    exact ite_eq_or_eq ..
  rcases hforced with hidle | hforced
  · exact ⟨s, L, hidle, h, rfl, rfl⟩
  · exact ⟨s', _, hforced.trans hrun, hinv, live_filter_snd L, hmax⟩

theorem Slots.setTail (h : Slots s L latest) {count tail : ℕ} (hlength : count = L.length)
    (htail : tail = s.tailKnownAssignedXids) :
    Inv (s.setTail (s.skipInvalid count tail)) (L.dropWhile fun p => !p.2) latest ∧
      (s.setTail (s.skipInvalid count tail)).maxKnownAssignedXids = s.maxKnownAssignedXids := by
  subst hlength htail
  have hskip := skipInvalid_spec L s.tailKnownAssignedXids h.entries
  have hsplit := takeWhile_append_dropWhile (p := fun p : ℕ × Bool => !p.2) (l := L)
  have hlen := congrArg length hsplit
  rw [length_append] at hlen
  have hentries := h.entries
  rw [← hsplit, entries_append] at hentries
  have hcount : s.numKnownAssignedXids = (L.dropWhile fun p => !p.2).countP snd := by
    rw [h.count, countP_eq_length_live, countP_eq_length_live, live_dropWhile]
  have hfirst : FirstValid (L.dropWhile fun p => !p.2) := by
    intro p hp
    have := head?_dropWhile_not (fun p : ℕ × Bool => !p.2) L
    rw [Option.mem_def.1 hp] at this
    simpa using this
  rw [hskip, KnownAssigned.setTail]
  by_cases hend : s.tailKnownAssignedXids + (L.takeWhile fun p => !p.2).length ≥ s.headKnownAssignedXids
  · rw [if_pos hend]
    have hnil : (L.dropWhile fun p => !p.2) = [] := by
      rw [h.head_eq] at hend
      exact length_eq_zero_iff.1 (by omega)
    rw [hnil] at hcount hfirst ⊢
    exact ⟨⟨h.sublist (nil_sublist L) rfl (zero_le _) (entries_nil _ _) hcount, hfirst⟩, rfl⟩
  · rw [if_neg hend]
    refine ⟨⟨h.sublist (dropWhile_sublist _) ?_ h.bound hentries.2 hcount, hfirst⟩, rfl⟩
    change s.headKnownAssignedXids = s.tailKnownAssignedXids + (L.takeWhile fun p => !p.2).length + _
    rw [h.head_eq]
    omega

theorem Inv.first_mem_live (h : Inv s L latest) (hp : p ∈ L) : ∃ t ∈ live L, t ≤ p.1 := by
  cases L with
  | nil => cases hp
  | cons q L => ?_
  have hq : q.2 = true := h.first q rfl
  refine ⟨q.1, mem_live.2 (hq ▸ mem_cons_self), ?_⟩
  rcases mem_cons.1 hp with rfl | hp
  · exact le_rfl
  · exact (pairwise_cons.1 (pairwise_map.1 h.sorted)).1 p hp |>.le

/-- All xids from the lowest live one to `b` are within the window. -/
def WindowTo (b : ℕ) (T : List ℕ) : Prop := ∀ t ∈ T, b < t + 2 ^ 31

theorem Inv.window (h : Inv s L latest) {b : ℕ} (hb : WindowTo b (live L)) (hp : p ∈ L) :
    b < p.1 + 2 ^ 31 := by
  obtain ⟨t, ht, hle⟩ := h.first_mem_live hp
  have := hb t ht
  omega

/-- Room for the xids is found exactly if the live ones leave it. -/
theorem Inv.makeRoom (h : Inv s L latest) {n : ℕ} (hn : n + s.maxKnownAssignedXids < 2 ^ 31) :
    ∃ s' L', s.makeRoom n = (if (live L).length + n ≤ s.maxKnownAssignedXids then .ok () s'
        else .error (.elog "too many KnownAssignedXids") s') ∧
      Inv s' L' latest ∧ live L' = live L ∧ s'.maxKnownAssignedXids = s.maxKnownAssignedXids ∧
      ((live L).length + n ≤ s.maxKnownAssignedXids →
        s'.headKnownAssignedXids + n ≤ s.maxKnownAssignedXids) := by
  have hbound := h.bound
  have hlive : (live L).length ≤ s.headKnownAssignedXids := by
    rw [live, length_map, h.head_eq]
    exact (length_filter_le _ _).trans (le_add_left _ _)
  obtain ⟨s', hrun, hinv, hmax, hhead⟩ := h.toSlots.compress
  rw [KnownAssigned.makeRoom, toInt_eq (by omega) (by omega)]
  by_cases hfits : s.headKnownAssignedXids + n ≤ s.maxKnownAssignedXids
  · rw [if_neg (by omega)]
    exact ⟨s, L, (if_pos (by omega)).symm, h, rfl, rfl, fun _ => hfits⟩
  rw [if_pos (by omega), hrun]
  refine ⟨s', L.filter snd, ?_, hinv, live_filter_snd L, hmax, fun hle => by omega⟩
  dsimp only
  rw [toInt_eq (by omega) (by omega)]
  by_cases hle : (live L).length + n ≤ s.maxKnownAssignedXids
  · rw [if_neg (by omega), if_pos hle]
  · rw [if_pos (by omega), if_neg hle]

theorem live_append_new (L : List (ℕ × Bool)) (new : List ℕ) :
    live (L ++ new.map fun c => (c, true)) = live L ++ new := by
  have hnew : (new.map fun c => (c, true)).filter snd = new.map fun c => (c, true) := by
    rw [filter_eq_self]
    intro p hp
    obtain ⟨c, -, rfl⟩ := mem_map.1 hp
    rfl
  rw [live, filter_append, map_append, hnew, map_map]
  congr 1
  exact map_id _

variable (h : Inv s L latest)
include h

theorem Inv.append {a b : ℕ} (ha : latest < a) (hb : WindowTo b (a :: live L))
    (hhead : s'.headKnownAssignedXids = s.headKnownAssignedXids + (normalXids a b).length)
    (htail : s'.tailKnownAssignedXids = s.tailKnownAssignedXids)
    (hbound : s'.headKnownAssignedXids ≤ s'.maxKnownAssignedXids)
    (hentries : Entries s' s.headKnownAssignedXids ((normalXids a b).map fun c => (c, true)))
    (hbelow : AgreeBelow s.headKnownAssignedXids s s')
    (hcount : s'.numKnownAssignedXids = s.numKnownAssignedXids + (normalXids a b).length) (hab : a ≤ b) :
    Inv s' (L ++ (normalXids a b).map fun c => (c, true)) b := by
  have hwindow : ∀ p ∈ L, b < p.1 + 2 ^ 31 :=
    fun p hp => h.window (fun t ht => hb t (mem_cons_of_mem _ ht)) hp
  have hba : b < a + 2 ^ 31 := hb a mem_cons_self
  have hfst : (L ++ (normalXids a b).map fun c => (c, true)).map fst = L.map fst ++ normalXids a b := by
    rw [map_append, map_map]
    congr 1
    exact map_id _
  -- where a slot of the new list lies
  have hmem : ∀ p ∈ L ++ (normalXids a b).map fun c => (c, true), p ∈ L ∨
      (a ≤ p.1 ∧ p.1 ≤ b ∧ IsNormal p.1) := by
    intro p hp
    rcases mem_append.1 hp with hp | hp
    · exact .inl hp
    · obtain ⟨c, hc, rfl⟩ := mem_map.1 hp
      exact .inr (mem_normalXids.1 hc)
  refine ⟨⟨?_, hbound, ?_, ?_, ?_, ?_, ?_, ?_⟩, ?_⟩
  · rw [hhead, htail, h.head_eq, length_append, length_map, add_assoc]
  · rw [htail, entries_append, ← h.head_eq]
    exact ⟨h.entries.congr fun k _ hk => hbelow k (by rwa [h.head_eq]), hentries⟩
  · intro p hp
    rcases hmem p hp with hp | hp
    · exact h.normal p hp
    · exact hp.2.2
  · rw [hfst, pairwise_append]
    refine ⟨h.sorted, Pairwise.filter _ pairwise_lt_range', fun c hc d hd => ?_⟩
    obtain ⟨p, hp, rfl⟩ := mem_map.1 hc
    have := h.le_latest p hp
    have := (mem_normalXids.1 hd).1
    omega
  · intro p hp q hq
    unfold Near
    rcases hmem p hp with hp | hp <;> rcases hmem q hq with hq | hq
    · exact h.near p hp q hq
    · have := hwindow p hp
      have := h.le_latest p hp
      omega
    · have := hwindow q hq
      have := h.le_latest q hq
      omega
    · omega
  · rw [hcount, h.count, countP_eq_length_live, countP_eq_length_live, live_append_new, length_append]
    rfl
  · intro p hp
    rcases hmem p hp with hp | hp
    · have := h.le_latest p hp
      omega
    · exact hp.2.1
  · intro p hp
    cases L with
    | nil =>
      obtain ⟨c, -, rfl⟩ := mem_map.1 (mem_of_mem_head? hp)
      rfl
    | cons q L => exact h.first p hp

theorem Inv.in_order {a b : ℕ} (hnormal : IsNormal a) (ha : latest < a) (hab : a ≤ b)
    (hb : WindowTo b (live L)) :
    (decide (s.headKnownAssignedXids > s.tailKnownAssignedXids) &&
      transactionIdFollowsOrEquals (s.knownAssignedXids (s.headKnownAssignedXids - 1)) (xidFromFull a)) =
        false := by
  rw [h.head_eq]
  cases hlen : L.length with
  | zero => simp
  | succ n => ?_
  obtain ⟨p, hp⟩ : ∃ p, L[n]? = some p := ⟨_, getElem?_eq_getElem (by omega)⟩
  have hmem := mem_of_getElem? hp
  have hwindow := h.window hb hmem
  have hle := h.le_latest p hmem
  have hlt : p.1 < a := by omega
  rw [add_succ_sub_one, (h.entries n p hp).1,
    followsOrEquals_eq (h.normal p hmem) hnormal ⟨by omega, by omega⟩]
  simp [hlt]

/-- Adding a range either adds all its xids or fails with the array as it was. -/
theorem Inv.add {a b fuel : ℕ} (hfuel : 2 ^ 31 ≤ fuel) (hna : IsNormal a) (hnb : IsNormal b)
    (ha : latest < a) (hab : a ≤ b) (hb : WindowTo b (a :: live L))
    (hn : (normalXids a b).length + s.maxKnownAssignedXids < 2 ^ 31) :
    ∃ s' L', s'.maxKnownAssignedXids = s.maxKnownAssignedXids ∧
      if (live L).length + (normalXids a b).length ≤ s.maxKnownAssignedXids then
        s.knownAssignedXidsAdd fuel (xidFromFull a) (xidFromFull b) = .ok () s' ∧ Inv s' L' b ∧
          live L' = live L ++ normalXids a b
      else s.knownAssignedXidsAdd fuel (xidFromFull a) (xidFromFull b) =
          .error (.elog "too many KnownAssignedXids") s' ∧ Inv s' L' latest ∧ live L' = live L := by
  have hb' : WindowTo b (live L) := fun t ht => hb t (mem_cons_of_mem _ ht)
  have horder := h.in_order hna ha hab hb'
  obtain ⟨s1, L1, hroom, hinv, hlive, hmax, hhead⟩ := h.makeRoom hn
  rw [knownAssignedXidsAdd, slotsNeeded_spec hna hnb hab (hb a mem_cons_self) fuel hfuel (by omega)]
  dsimp only
  rw [horder, hroom]
  by_cases hfits : (live L).length + (normalXids a b).length ≤ s.maxKnownAssignedXids
  · obtain ⟨s2, hrun, hentries, hbelow, honly⟩ := insertLoop_spec (normalXids a b).length hna rfl s1
      s1.headKnownAssignedXids (by omega)
    simp only [if_pos hfits, Int.toNat_natCast, hrun]
    have hmax2 : s2.maxKnownAssignedXids = s1.maxKnownAssignedXids := by rw [honly]
    have htail2 : s2.tailKnownAssignedXids = s1.tailKnownAssignedXids := by rw [honly]
    have hnum2 : s2.numKnownAssignedXids = s1.numKnownAssignedXids := by rw [honly]
    have hnum : s1.numKnownAssignedXids = (live L).length := by
      rw [hinv.count, countP_eq_length_live, hlive]
    have hcount : toInt (s2.numKnownAssignedXids + (normalXids a b).length) =
        s1.numKnownAssignedXids + (normalXids a b).length := by
      rw [hnum2, toInt_eq (by omega) (by omega)]
    have hinv3 : Inv { s2 with
        numKnownAssignedXids := toInt (s2.numKnownAssignedXids + (normalXids a b).length)
        headKnownAssignedXids := s1.headKnownAssignedXids + (normalXids a b).length } _ b :=
      hinv.append ha (hlive.symm ▸ hb) rfl htail2 (by
        dsimp only
        omega) hentries hbelow hcount hab
    refine ⟨_, _, ?_, rfl, hinv3, by rw [live_append_new, hlive]⟩
    exact hmax2.trans hmax
  · simp only [if_neg hfits]
    exact ⟨s1, L1, hmax, rfl, hinv, hlive⟩

variable (x)

theorem Inv.searchLoop_found :
    ∃ r, searchLoop s x s.maxKnownAssignedXids s.tailKnownAssignedXids
      (s.headKnownAssignedXids - 1) = .ok r ∧
      (∀ j ∈ r, ∃ k p, j = s.tailKnownAssignedXids + k ∧ L[k]? = some p ∧ xidFromFull p.1 = x) ∧
      ∀ k p, L[k]? = some p → xidFromFull p.1 = x → r = some (s.tailKnownAssignedXids + k) := by
  have hbound := h.bound
  rw [h.head_eq] at hbound
  obtain ⟨r, hrun, hfound, hall⟩ := searchLoop_spec h.entries h.normal h.sorted h.near hbound
    s.maxKnownAssignedXids 0 L.length (zero_le _) le_rfl (by omega)
  refine ⟨r, ?_, hfound, fun k p hp => ?_⟩
  · rw [h.head_eq]
    exact hrun
  · obtain ⟨hlt, -⟩ := List.getElem?_eq_some_iff.1 hp
    exact hall k p (zero_le k) hlt hp

/-- The search ends at the one valid slot with the xid, or there is none. -/
theorem Inv.search_cases (remove : Bool) :
    (s.knownAssignedXidsSearch x remove = .ok false s ∧ ∀ t ∈ live L, xidFromFull t ≠ x) ∨
      ∃ k t, L[k]? = some (t, true) ∧ xidFromFull t = x ∧
        (∀ j p, L[j]? = some p → xidFromFull p.1 = x → j = k) ∧
        searchLoop s x s.maxKnownAssignedXids s.tailKnownAssignedXids (s.headKnownAssignedXids - 1) =
          .ok (some (s.tailKnownAssignedXids + k)) := by
  obtain ⟨r, hrun, hfound, hall⟩ := h.searchLoop_found x
  cases r with
  | none =>
    refine .inl ⟨by rw [knownAssignedXidsSearch, hrun], fun t ht htx => ?_⟩
    obtain ⟨k, hk⟩ := mem_iff_getElem?.1 (mem_live.1 ht)
    cases hall k _ hk htx
  | some j => ?_
  obtain ⟨k, ⟨t, valid⟩, rfl, hk, htx⟩ := hfound j rfl
  have honly : ∀ j p, L[j]? = some p → xidFromFull p.1 = x → j = k := fun j p hp hpx =>
    (add_left_cancel (Option.some.inj (hall j p hp hpx))).symm
  cases valid with
  | true => exact .inr ⟨k, t, hk, htx, honly, hrun⟩
  | false => ?_
  refine .inl ⟨?_, fun u hu hux => ?_⟩
  · rw [knownAssignedXidsSearch, hrun]
    simp only [(h.entries k _ hk).2, Bool.not_false, if_true]
  obtain ⟨i, hi⟩ := mem_iff_getElem?.1 (mem_live.1 hu)
  obtain rfl := honly i _ hi hux
  rw [hk] at hi
  cases hi

theorem Inv.exists_eq :
    s.knownAssignedXidExists x = .ok (decide (x ∈ (live L).map xidFromFull)) s := by
  rw [knownAssignedXidExists]
  rcases h.search_cases x false with ⟨hrun, hnone⟩ | ⟨k, t, hk, htx, -, hrun⟩
  · rw [hrun, decide_eq_false]
    intro hmem
    obtain ⟨t, ht, htx⟩ := mem_map.1 hmem
    exact hnone t ht htx
  · have hmem : x ∈ (live L).map xidFromFull := mem_map.2 ⟨t, mem_live.2 (mem_of_getElem? hk), htx⟩
    rw [knownAssignedXidsSearch, hrun]
    simp only [(h.entries k _ hk).2, Bool.not_true, if_false, Bool.false_eq_true, decide_eq_true hmem]

variable {x}

omit h

def mark (f : ℕ → Bool) (p : ℕ × Bool) : ℕ × Bool := (p.1, p.2 && !f p.1)

theorem live_map_mark (f : ℕ → Bool) (L : List (ℕ × Bool)) :
    live (L.map (mark f)) = (live L).filter fun t => !f t := by
  induction L with
  | nil => rfl
  | cons p L ih =>
    unfold live at ih ⊢
    obtain ⟨t, valid⟩ := p
    cases valid <;> cases hf : f t <;> simp [mark, hf, ih]

theorem Slots.map_mark (h : Slots s L latest) (f : ℕ → Bool)
    (hends : s'.headKnownAssignedXids = s.headKnownAssignedXids ∧
      s'.tailKnownAssignedXids = s.tailKnownAssignedXids ∧
        s'.maxKnownAssignedXids = s.maxKnownAssignedXids)
    (hentries : Entries s' s.tailKnownAssignedXids (L.map (mark f)))
    (hcount : s'.numKnownAssignedXids = (L.map (mark f)).countP snd) :
    Slots s' (L.map (mark f)) latest := by
  obtain ⟨hhead, htail, hmax⟩ := hends
  have hfst : (L.map (mark f)).map fst = L.map fst := by
    rw [map_map]
    rfl
  have hmem : ∀ p ∈ L.map (mark f), ∃ q ∈ L, q.1 = p.1 := by
    intro p hp
    obtain ⟨q, hq, rfl⟩ := mem_map.1 hp
    exact ⟨q, hq, rfl⟩
  refine ⟨by rw [hhead, htail, h.head_eq, length_map],
    by rw [hhead, hmax]; exact h.bound, htail ▸ hentries,
    fun p hp => ?_, hfst ▸ h.sorted, fun p hp q hq => ?_, hcount, fun p hp => ?_⟩
  · obtain ⟨p', hp', heq⟩ := hmem p hp
    exact heq ▸ h.normal p' hp'
  · obtain ⟨p', hp', heq⟩ := hmem p hp
    obtain ⟨q', hq', heq'⟩ := hmem q hq
    exact heq ▸ heq' ▸ h.near p' hp' q' hq'
  · obtain ⟨p', hp', heq⟩ := hmem p hp
    exact heq ▸ h.le_latest p' hp'

theorem Slots.invalidate (h : Slots s L latest) {k : ℕ} (hk : L[k]? = some (t, true))
    (htx : xidFromFull t = x) (honly : ∀ j p, L[j]? = some p → xidFromFull p.1 = x → j = k) :
    Slots { s with
        knownAssignedXidsValid := update s.knownAssignedXidsValid (s.tailKnownAssignedXids + k) false
        numKnownAssignedXids := s.numKnownAssignedXids - 1 }
          (L.map (mark fun u => xidFromFull u = x)) latest := by
  have hlt := (List.getElem?_eq_some_iff.1 hk).1
  have hget := (List.getElem?_eq_some_iff.1 hk).2
  have hset : L.map (mark fun u => xidFromFull u = x) = L.set k (t, false) := by
    refine ext_getElem? fun j => ?_
    rw [List.getElem?_map, List.getElem?_set]
    by_cases hjk : k = j
    · subst hjk
      rw [if_pos hlt, hk]
      simp [mark, htx]
    rw [if_neg hjk]
    cases hj : L[j]? with
    | none => rfl
    | some p =>
      have hne : xidFromFull p.1 ≠ x := fun hpx => hjk (honly j p hj hpx).symm
      simp [mark, hne]
  refine h.map_mark _ ⟨rfl, rfl, rfl⟩ ?_ ?_
  · rw [hset]
    intro j p hp
    rw [List.getElem?_set] at hp
    by_cases hjk : k = j
    · subst hjk
      rw [if_pos rfl, if_pos hlt] at hp
      obtain rfl := Option.some.inj hp
      exact ⟨(h.entries k _ hk).1, update_self ..⟩
    · rw [if_neg hjk] at hp
      obtain ⟨h1, h2⟩ := h.entries j p hp
      exact ⟨h1, (update_of_ne (by omega) ..).trans h2⟩
  · have hpos : 0 < L.countP snd := countP_pos_iff.2 ⟨_, mem_of_getElem? hk, rfl⟩
    rw [h.count, hset, countP_set hlt, hget]
    simp only [if_true, Bool.false_eq_true, if_false]
    omega

/-- `s'` has these xids left, with the capacity of `s`. -/
def Leaves (s s' : KnownAssigned) (T : List ℕ) (latest : ℕ) : Prop :=
  s'.maxKnownAssignedXids = s.maxKnownAssignedXids ∧ ∃ L', Inv s' L' latest ∧ live L' = T

theorem Inv.remove (h : Inv s L latest) (x : TransactionId) :
    ∃ s', s.knownAssignedXidsRemove x = .ok () s' ∧
      Leaves s s' ((live L).filter fun t => xidFromFull t ≠ x) latest := by
  rw [knownAssignedXidsRemove]
  rcases h.search_cases x true with ⟨hrun, hnone⟩ | ⟨k, t, hk, htx, honly, hrun⟩
  · rw [hrun]
    exact ⟨s, rfl, rfl, L, h, (filter_eq_self.2 fun t ht => by simpa using hnone t ht).symm⟩
  have hslots := h.toSlots.invalidate hk htx honly
  have hlive : live (L.map (mark fun u => xidFromFull u = x)) =
      (live L).filter fun t => xidFromFull t ≠ x := by
    rw [live_map_mark]
    simp
  rw [knownAssignedXidsSearch, hrun]
  simp only [(h.entries k _ hk).2, Bool.not_true, if_false, Bool.false_eq_true, if_true]
  by_cases hzero : k = 0
  · subst hzero
    rw [if_pos (add_zero _)]
    obtain ⟨hinv, hmax⟩ := hslots.setTail rfl rfl
    refine ⟨_, rfl, ?_⟩
    -- the slot at the tail is invalid now
    have hskip : ∀ u : KnownAssigned, u.knownAssignedXidsValid s.tailKnownAssignedXids = false →
        u.skipInvalid (L.map (mark fun u => xidFromFull u = x)).length s.tailKnownAssignedXids =
          u.skipInvalid (s.headKnownAssignedXids - (s.tailKnownAssignedXids + 1))
          (s.tailKnownAssignedXids + 1) := by
      intro u hu
      have hpos := (List.getElem?_eq_some_iff.1 hk).1
      have hlen : (L.map (mark fun u => xidFromFull u = x)).length =
          s.headKnownAssignedXids - (s.tailKnownAssignedXids + 1) + 1 := by
        rw [length_map, h.head_eq]
        omega
      rw [hlen, skipInvalid, hu, if_neg Bool.false_ne_true]
    rw [hskip _ (update_self ..)] at hinv hmax
    exact ⟨hmax, _, hinv, (live_dropWhile _).trans hlive⟩
  rw [if_neg (by omega)]
  refine ⟨_, rfl, rfl, _, ⟨hslots, ?_⟩, hlive⟩
  intro p hp
  cases hL : L with
  | nil =>
    rw [hL] at hk
    cases hk
  | cons q M => ?_
  rw [hL, map_cons] at hp
  obtain rfl := Option.some.inj hp
  have hq : L[0]? = some q := by rw [hL]; rfl
  have hne : xidFromFull q.1 ≠ x := fun hqx => hzero (honly 0 q hq hqx).symm
  simp [mark, hne, h.first q (by rw [hL]; rfl)]

theorem removeAll_spec (xids : List TransactionId) (s : KnownAssigned) {L : List (ℕ × Bool)}
    (h : Inv s L latest) :
    ∃ s', removeAll s xids = .ok () s' ∧
      Leaves s s' ((live L).filter fun t => xidFromFull t ∉ xids) latest := by
  induction xids generalizing s L with
  | nil => exact ⟨s, rfl, rfl, L, h, by simp⟩
  | cons x xids ih => ?_
  obtain ⟨s1, hrun, hmax, L1, hinv, hlive⟩ := h.remove x
  obtain ⟨s2, hrun2, hmax2, L2, hinv2, hlive2⟩ := ih s1 hinv
  refine ⟨s2, ?_, hmax2.trans hmax, L2, hinv2, ?_⟩
  · rw [removeAll, hrun]
    exact hrun2
  rw [hlive2, hlive, filter_filter]
  refine filter_congr fun t _ => ?_
  rw [← Bool.decide_and]
  exact decide_eq_decide.2 (by rw [mem_cons, not_or, and_comm])

theorem Leaves.compress {T : List ℕ} (h : Leaves s s' T latest) (force : Bool) :
    ∃ s'', s'.knownAssignedXidsCompress force = .ok () s'' ∧ Leaves s s'' T latest := by
  obtain ⟨hmax, L, hinv, hlive⟩ := h
  obtain ⟨s'', L', hrun, hinv', hlive', hmax'⟩ := hinv.compress force
  exact ⟨s'', hrun, hmax'.trans hmax, L', hinv', hlive'.trans hlive⟩

theorem Inv.removeTree (h : Inv s L latest) (x : TransactionId) (subxids : List TransactionId) :
    ∃ s', s.knownAssignedXidsRemoveTree x subxids = .ok () s' ∧
      Leaves s s' ((live L).filter fun t => xidFromFull t ∉ x :: subxids) latest := by
  obtain ⟨s1, hrun, hleaves⟩ :=
    removeAll_spec (if transactionIdIsValid x then x :: subxids else subxids) s h
  have heq :
    ((live L).filter fun t => xidFromFull t ∉ if transactionIdIsValid x then x :: subxids else subxids) =
      (live L).filter fun t => xidFromFull t ∉ x :: subxids := by
    refine filter_congr fun t ht => decide_eq_decide.2 ?_
    cases hx : transactionIdIsValid x with
    | true => rw [if_pos rfl]
    | false => ?_
    -- no live xid is the invalid one
    have hne : xidFromFull t ≠ x := by
      rintro rfl
      have hnormal := normal_iff.2 (h.normal _ (mem_live.1 ht))
      rw [transactionIdIsValid, bne_eq_false_iff_eq] at hx
      rw [hx] at hnormal
      exact absurd hnormal (by decide)
    rw [mem_cons, not_or]
    exact ⟨fun hmem => ⟨hne, hmem⟩, fun hmem => hmem.2⟩
  rw [heq] at hleaves
  obtain ⟨s2, hrun2, hleaves2⟩ := hleaves.compress false
  exact ⟨s2, by rw [knownAssignedXidsRemoveTree, hrun]; exact hrun2, hleaves2⟩

/-- `x` can be compared with the xids: it is a special one, or in a window with them. -/
def Comparable (x : TransactionId) (T : List ℕ) : Prop :=
  transactionIdIsNormal x = false ∨ ∃ full, xidFromFull full = x ∧ ∀ t ∈ T, Near t full

theorem Slots.splitAt (h : Slots s L latest) (hx : Comparable x (live L)) : SplitAt x L := by
  refine (pairwise_map.1 h.sorted).imp_of_mem ?_
  intro p q hp hq hlt hpv hpx hqv
  rcases hx with hspecial | ⟨full, rfl, hnear⟩
  · exact not_precedes_special (h.normal q hq) (by simp [hspecial])
  by_cases hfull : IsNormal full
  · have hp' : p.1 ∈ live L := mem_live.2 (by rw [← hpv]; exact hp)
    have hq' : q.1 ∈ live L := mem_live.2 (by rw [← hqv]; exact hq)
    rw [precedes_eq (h.normal p hp) hfull (hnear _ hp'), decide_eq_false_iff_not] at hpx
    rw [precedes_eq (h.normal q hq) hfull (hnear _ hq'), decide_eq_false_iff_not]
    omega
  · exact not_precedes_special (h.normal q hq) (mt normal_iff.1 hfull)

variable (isPrepared : TransactionId → Bool)

theorem prune_eq_mark (x : TransactionId) (p : ℕ × Bool) : prune isPrepared x p =
      mark (fun t => transactionIdPrecedes (xidFromFull t) x && !isPrepared (xidFromFull t)) p := by
  obtain ⟨t, valid⟩ := p
  cases valid <;> simp [prune, isPruned, mark]

theorem countP_prune (x : TransactionId) (L : List (ℕ × Bool)) :
    (L.countP snd : ℤ) - L.countP (isPruned isPrepared x) = (L.map (prune isPrepared x)).countP snd := by
  induction L with
  | nil => rfl
  | cons p L ih =>
    obtain ⟨t, valid⟩ := p
    rw [map_cons, countP_cons, countP_cons, prune]
    cases valid <;> cases hp : isPruned isPrepared x (t, true) <;> simp [isPruned] at * <;> omega

theorem Inv.removePreceding (h : Inv s L latest) (isPrepared : TransactionId → Bool)
    (hx : Comparable x (live L)) :
    ∃ s', s.knownAssignedXidsRemovePreceding isPrepared x = .ok () s' ∧
      Leaves s s' (if transactionIdIsValid x then
        (live L).filter fun t => !transactionIdPrecedes (xidFromFull t) x || isPrepared (xidFromFull t)
          else []) latest := by
  rw [knownAssignedXidsRemovePreceding]
  cases hvalid : transactionIdIsValid x with
  | false => exact ⟨_, rfl, rfl, [], ⟨h.sublist (nil_sublist L) rfl (zero_le _) (entries_nil _ _) rfl,
      fun _ hp => by cases hp⟩, rfl⟩
  | true => ?_
  have hbound := h.bound
  rw [h.head_eq] at hbound
  obtain ⟨s1, hrun, hentries, -, honly⟩ :=
    pruneLoop_spec isPrepared x L s s.tailKnownAssignedXids 0 hbound h.entries
    (h.toSlots.splitAt hx)
  rw [← h.length_eq] at hrun
  simp only [Bool.not_true, Bool.false_eq_true, if_false, hrun, if_true, Int.zero_add]
  have hmark := map_congr_left fun p (_ : p ∈ L) => prune_eq_mark isPrepared x p
  have hslots :
    Slots { s1 with numKnownAssignedXids := s1.numKnownAssignedXids - L.countP (isPruned isPrepared x) }
      (L.map (prune isPrepared x)) latest := by
    rw [hmark] at hentries ⊢
    refine h.map_mark _ ⟨by rw [honly], by rw [honly], by rw [honly]⟩ hentries ?_
    have hnum : s1.numKnownAssignedXids = s.numKnownAssignedXids := by rw [honly]
    rw [← hmark, ← countP_prune, ← h.count, ← hnum]
  have htail : s.tailKnownAssignedXids = s1.tailKnownAssignedXids := by rw [honly]
  obtain ⟨hinv, hmax⟩ := hslots.setTail (h.length_eq.trans (length_map _).symm) htail
  have hlive : live (L.map (prune isPrepared x)) =
      (live L).filter fun t => !transactionIdPrecedes (xidFromFull t) x ||
      isPrepared (xidFromFull t) := by
    rw [hmark, live_map_mark]
    simp [Bool.not_and]
  have hmax1 : s1.maxKnownAssignedXids = s.maxKnownAssignedXids := by rw [honly]
  have hleaves : Leaves s _ _ latest := ⟨hmax.trans hmax1, _, hinv, (live_dropWhile _).trans hlive⟩
  exact hleaves.compress false

theorem Inv.get (h : Inv s L latest) {xmax : TransactionId} (hx : Comparable xmax (live L))
    (xmin : TransactionId) :
    s.knownAssignedXidsGetAndSetXmin xmin xmax =
      .ok (((live L).map xidFromFull).filter fun y => !transactionIdIsValid xmax ||
        transactionIdPrecedes y xmax, lowerXmin xmin ((live L).map xidFromFull)) := by
  have hbound := h.bound
  rw [h.head_eq] at hbound
  rw [knownAssignedXidsGetAndSetXmin, h.length_eq,
    getLoop_spec xmax L s.tailKnownAssignedXids true xmin hbound h.entries (h.toSlots.splitAt hx),
    live, map_map, filter_map]
  rfl

end Pg.KnownAssigned
