import PgRetrofit.Sanity.SimpleHashLoops

/-! A simplehash table is a finite map, as long as it does not have to grow beyond
`2 ^ 31` buckets. -/

namespace Pg.SimpleHash

open RobinHood Multiset Nat

variable {κ ν : Type*} {ty : SimpleHashType κ} {tb : SimpleHash κ ν}

def entries (tb : SimpleHash κ ν) : Multiset (κ × ν) := contents tb.size tb.data

structure Inv (ty : SimpleHashType κ) (tb : SimpleHash κ ν) : Prop where
  shaped : Shaped tb
  threshold_eq : tb.growThreshold = tb.size * 9 / 10
  members_eq : tb.members = tb.entries.card
  room : tb.members ≤ tb.size * 9 / 10
  keys : (tb.entries.map Prod.fst).Nodup
  ordered : Ordered tb.size (optimal ty tb) tb.data

namespace Inv

variable (h : Inv ty tb)
include h

theorem exists_empty : ∃ e < tb.size, tb.data e = none := by
  by_contra hall
  have hcard : tb.entries.card = tb.size := by
    rw [entries, card_contents, Finset.filter_true_of_mem, Finset.card_range]
    intro p hp
    exact Option.isSome_iff_ne_none.2 fun hnone => hall ⟨p, Finset.mem_range.1 hp, hnone⟩
  have hroom := h.room
  have hsize := h.shaped.one_lt
  rw [h.members_eq] at hroom
  omega

variable {v : ν}

/-- An entry is passed neither by a search that looks at keys only nor by one that also
looks at distances. -/
theorem not_passed {key : κ} (hmem : (key, v) ∈ tb.entries) {d : ℕ}
    (hpass : ∀ j < d, Other tb key (home ty tb key + j)) :
    d + 1 ≤ level tb.size (optimal ty tb) tb.data (home ty tb key + d) := by
  obtain ⟨p, hp, hdata⟩ := mem_contents.1 hmem
  have hopt : optimal ty tb (key, v) < tb.size := h.shaped.optimal_lt (key, v)
  have hat := add_offset hopt hp
  refine h.ordered.reach (fun e => h.shaped.optimal_lt e) hp hdata (Nat.le_of_not_lt fun hlt => ?_)
  obtain ⟨e, he, hne⟩ := hpass _ hlt
  rw [show home ty tb key = optimal ty tb (key, v) from rfl, hat, hdata] at he
  exact hne (congrArg Prod.fst (Option.some.inj he)).symm

end Inv

/-- The backward shift from a bucket in use ends before the ring is closed. -/
theorem exists_stop (h : Inv ty tb) {c : ℕ} {e : κ × ν} (hdata : tb.data (c % tb.size) = some e) :
    ∃ m, m + 1 < tb.size ∧ (∀ j < m, ¬ Stops ty tb tb.data (c + j + 1)) ∧
      Stops ty tb tb.data (c + m + 1) := by
  classical
  obtain ⟨x, hx, hnone⟩ := h.exists_empty
  obtain ⟨m, hm, -, hfree⟩ := first_empty hx hnone c
  have hm0 : m ≠ 0 := by
    rintro rfl
    rw [add_zero, hdata] at hfree
    cases hfree
  have hat : Stops ty tb tb.data (c + (m - 1) + 1) := by
    intro y hy
    rw [Nat.add_assoc, Nat.sub_add_cancel (by omega), hfree] at hy
    cases hy
  have hex : ∃ m, Stops ty tb tb.data (c + m + 1) := ⟨_, hat⟩
  have hle : Nat.find hex ≤ m - 1 := Nat.find_min' hex hat
  exact ⟨Nat.find hex, by omega, fun j hj => Nat.find_min hex hj, Nat.find_spec hex⟩

theorem stops_iff (hs : Shaped tb) {i : ℕ} :
    Stops ty tb tb.data i ↔ level tb.size (optimal ty tb) tb.data i ≤ 1 := by
  unfold Stops
  cases hd : tb.data (i % tb.size) with
  | none => simp [level_none hd]
  | some e => ?_
  rw [level_some hd]
  have hi : i % tb.size < tb.size := mod_lt _ (by have := hs.one_lt; omega)
  have hopt : optimal ty tb e < tb.size := hs.optimal_lt e
  constructor
  · intro hstop
    rw [hstop e rfl, offset, if_pos le_rfl, Nat.sub_self]
  intro hle x hx
  obtain rfl := Option.some.inj hx
  have := add_offset hopt hi
  rwa [le_zero.1 (le_of_succ_le_succ hle), add_zero, mod_eq_of_lt hopt] at this

section Search

variable [DecidableEq κ] {key : κ} {v : ν} {fuel : ℕ} (h : Inv ty tb) (hfuel : tb.size ≤ fuel)
include h hfuel

theorem search_spec (key : κ) : (∃ p v, p < tb.size ∧ tb.data p = some (key, v) ∧
      tb.search key fuel (home ty tb key) = .ok (some p)) ∨
    (∀ v, (key, v) ∉ tb.entries) ∧ tb.search key fuel (home ty tb key) = .ok none := by
  classical
  obtain ⟨e, he, hnone⟩ := h.exists_empty
  obtain ⟨m, hm, -, hfree⟩ := first_empty he hnone (home ty tb key)
  have hex : ∃ d, ¬ Other tb key (home ty tb key + d) :=
    ⟨m, fun ⟨e, hsome, _⟩ => by rw [hfree] at hsome; cases hsome⟩
  have hle : Nat.find hex ≤ m :=
    Nat.find_min' hex fun ⟨e, hsome, _⟩ => by rw [hfree] at hsome; cases hsome
  have hpass : ∀ j < Nat.find hex, Other tb key (home ty tb key + j) :=
    fun j hj => not_not.1 (Nat.find_min hex hj)
  have hstop := Nat.find_spec hex
  generalize Nat.find hex = d at *
  obtain ⟨f, rfl⟩ : ∃ f, fuel = (f + 1) + d := ⟨fuel - d - 1, by omega⟩
  have hrun : tb.search key (f + 1 + d) _ = tb.search key (f + 1) _ := search_pass h.shaped _ hpass
  rw [mod_eq_of_lt (h.shaped.shInitialBucket_lt _)] at hrun
  rw [hrun, search]
  cases hdata : tb.data ((home ty tb key + d) % tb.size) with
  | none =>
    refine Or.inr ⟨fun v hv => ?_, rfl⟩
    have := h.not_passed hv hpass
    rw [level_none hdata] at this
    omega
  | some x => ?_
  have hkey : x.1 = key := by
    by_contra hne
    exact hstop ⟨x, hdata, hne⟩
  refine Or.inl ⟨_, x.2, mod_lt _ (by omega), by rw [hdata, ← hkey], ?_⟩
  simp only
  rw [if_pos hkey]

theorem shLookup_spec (key : κ) :
    (∃ v, (key, v) ∈ tb.entries ∧ shLookup ty fuel tb key = .ok (some (key, v))) ∨
    (∀ v, (key, v) ∉ tb.entries) ∧ shLookup ty fuel tb key = .ok none := by
  unfold shLookup
  rcases search_spec h hfuel key with ⟨p, v, hp, hdata, hrun⟩ | ⟨hnot, hrun⟩
  · refine Or.inl ⟨v, mem_contents.2 ⟨p, hp, hdata⟩, ?_⟩
    rw [hrun, ← hdata]
    rfl
  · exact Or.inr ⟨hnot, by rw [hrun]; rfl⟩

/-- The bucket that a deletion empties, and the entries after it that are shifted. -/
theorem shDelete_removed {c : ℕ} (hc : c < tb.size) (hdata : tb.data c = some (key, v))
    (hrun : tb.search key fuel (home ty tb key) = .ok (some c)) :
    ∃ m data', shDelete ty fuel tb key =
      .ok ({ tb with members := (tb.members + (2 ^ 32 - 1)) % 2 ^ 32, data := data' }, true) ∧
      Removed tb.size tb.data data' c m (key, v) ∧ (∀ j < m, ¬ Stops ty tb tb.data (c + j + 1)) ∧
      Stops ty tb tb.data (c + m + 1) := by
  have hcmod : c % tb.size = c := mod_eq_of_lt hc
  obtain ⟨m, hm, haway, hstop⟩ := exists_stop h (by rw [hcmod, hdata])
  obtain ⟨data', hshift, hmoved, hhole, hkept⟩ :=
    shiftBack_spec h.shaped c hm (by omega : m < fuel) tb.data haway
    hstop
  rw [hcmod] at hshift
  refine ⟨m, data', ?_, ⟨hc, hm, hdata, hmoved, hhole, hkept⟩, haway, hstop⟩
  rw [shDelete, hrun]
  simp only [Except.bind, hshift]
  rfl

theorem shDelete_spec (key : κ) :
    (∃ tb' v, shDelete ty fuel tb key = .ok (tb', true) ∧ Inv ty tb' ∧
      tb.entries = (key, v) ::ₘ tb'.entries) ∨
    shDelete ty fuel tb key = .ok (tb, false) ∧ ∀ v, (key, v) ∉ tb.entries := by
  rcases search_spec h hfuel key with ⟨c, v, hc, hdata, hrun⟩ | ⟨hnot, hrun⟩
  swap
  · exact Or.inr ⟨by rw [shDelete, hrun]; rfl, hnot⟩
  left
  obtain ⟨m, data', hdelete, hrem, haway, hstop⟩ := shDelete_removed h hfuel hc hdata hrun
  have hent : tb.entries = (key, v) ::ₘ contents tb.size data' := hrem.contents_eq
  have hcard : tb.members = (contents tb.size data').card + 1 := by
    rw [h.members_eq, hent, card_cons]
  have hmembers : (tb.members + (2 ^ 32 - 1)) % 2 ^ 32 = (contents tb.size data').card := by
    have := h.room
    have := h.shaped.le
    omega
  rw [hmembers] at hdelete
  refine ⟨_, v, hdelete, ⟨⟨h.shaped.pow, h.shaped.mask⟩, h.threshold_eq, rfl, ?_, ?_, ?_⟩, hent⟩
  · have := h.room
    simp only
    omega
  · have := h.keys
    rw [hent, map_cons, nodup_cons] at this
    exact this.2
  · refine h.ordered.removed (fun e => h.shaped.optimal_lt e) hrem (fun j hj => ?_)
      ((stops_iff h.shaped).1 hstop)
    exact Nat.lt_of_not_le fun hle => haway j hj ((stops_iff h.shaped).2 hle)

end Search

theorem shGrow_spec (h : Inv ty tb) (hsize : tb.size < 2 ^ 31) {fuel : ℕ} (hfuel : tb.size < fuel) :
    ∃ tb', shGrow ty fuel tb (tb.size * 2) = .ok tb' ∧ Inv ty tb' ∧ tb'.entries = tb.entries ∧
      tb'.size = tb.size * 2 ∧ tb'.members < tb'.growThreshold := by
  obtain ⟨k, h1, -, hk⟩ := h.shaped.pow
  have hk31 : k < 31 := by
    rw [hk] at hsize
    exact (Nat.pow_lt_pow_iff_right (by decide)).1 hsize
  have hsize2 : tb.size * 2 = 2 ^ (k + 1) := by rw [hk, pow_succ]
  have hparams := shComputeParameters_eq ty tb (by omega : k + 1 ≤ 31) (shPow2_pow (by omega))
  set new : SimpleHash κ ν := { tb with
    size := 2 ^ (k + 1), sizemask := 2 ^ (k + 1) - 1, growThreshold := 2 ^ (k + 1) * 9 / 10 } with hnew
  have hdbl : Doubled tb new := ⟨⟨⟨k + 1, by omega, by omega, rfl⟩, rfl⟩, by rw [mul_comm, hsize2]⟩
  obtain ⟨e, he, hnone⟩ := h.exists_empty
  obtain ⟨hstart, hopt⟩ : growStart ty new tb.data tb.size 0 < 0 + tb.size ∧ _ :=
    growStart_spec hnone tb.size 0 (zero_le e) (by omega)
  rw [zero_add] at hstart
  have hfirst : level tb.size (optimal ty tb) tb.data (growStart ty new tb.data tb.size 0) ≤ 1 := by
    refine (stops_iff h.shaped).1 fun x hx => ?_
    rw [mod_eq_of_lt hstart] at hx ⊢
    rw [← hdbl.optimal_mod h.shaped, hopt x hx, mod_eq_of_lt hstart]
  obtain ⟨data, hcopy, hcopied⟩ :=
    growCopy_spec h.shaped hdbl h.ordered hstart hfirst hfuel tb.size 0 (zero_add _)
    (fun _ => none) copied_empty
  rw [add_zero, mod_eq_of_lt hstart] at hcopy
  have hent : contents new.size data = tb.entries := by
    rw [hdbl.size_eq, hcopied.contents_eq, entries, contents_from hstart]
  have hroom := h.room
  refine ⟨{ new with data := data }, ?_, ⟨⟨hdbl.shaped.pow, rfl⟩, rfl, ?_, ?_, ?_, ?_⟩, hent, ?_, ?_⟩
  · rw [shGrow, hsize2, hparams]
    simp only [Except.bind]
    rw [hcopy]
    rfl
  · exact h.members_eq.trans (congrArg card hent.symm)
  · change tb.members ≤ new.size * 9 / 10
    rw [hdbl.size_eq]
    omega
  · rw [entries, hent]
    exact h.keys
  · have := hcopied.ordered
    rwa [← hdbl.size_eq] at this
  · exact hsize2.symm
  · change tb.members < 2 ^ (k + 1) * 9 / 10
    omega

section Insert

variable {key : κ} {v : ν} {fuel : ℕ}

theorem Inv.insert (h : Inv ty tb) (hroom : tb.members < tb.growThreshold) {d m : ℕ} (hd : d < tb.size)
    (hpass : Passed ty tb key d)
    (hnear : level tb.size (optimal ty tb) tb.data (home ty tb key + d) ≤ d)
    {data' : ℕ → Option (κ × ν)}
    (hins : Inserted tb.size tb.data data' ((home ty tb key + d) % tb.size) m (key, v)) :
    (∀ w, (key, w) ∉ tb.entries) ∧ contents tb.size data' = (key, v) ::ₘ tb.entries ∧
      Inv ty { tb with members := (tb.members + 1) % 2 ^ 32, data := data' } := by
  have habsent : ∀ w, (key, w) ∉ tb.entries := fun w hw =>
    absurd (h.not_passed hw fun j hj => (hpass j hj).1) (by omega)
  have hent : contents tb.size data' = (key, v) ::ₘ tb.entries := hins.contents_eq
  have hthr := h.threshold_eq
  have hmod : (tb.members + 1) % 2 ^ 32 = tb.members + 1 := mod_eq_of_lt (by have := h.shaped.le; omega)
  refine ⟨habsent, hent, ?_⟩
  rw [hmod]
  refine ⟨⟨h.shaped.pow, h.shaped.mask⟩, hthr, ?_, ?_, ?_, ?_⟩
  · rw [entries, hent, card_cons, h.members_eq]
  · simp only
    omega
  · rw [entries, hent, map_cons, nodup_cons]
    refine ⟨fun hmem => ?_, h.keys⟩
    obtain ⟨⟨k, w⟩, hw, rfl⟩ := mem_map.1 hmem
    exact habsent w hw
  · exact h.ordered.inserted (fun e => h.shaped.optimal_lt e) (b := (key, v)) hd hins
      (fun j hj => (hpass j hj).2)
      (Or.inr hnear)

theorem growCheck_keep (hroom : tb.members < tb.growThreshold) : growCheck ty fuel tb = .ok tb :=
  if_neg (Nat.not_le_of_lt hroom)

theorem growCheck_grow (hfull : tb.members ≥ tb.growThreshold) (hsize : tb.size < 2 ^ 31) :
    growCheck ty fuel tb = shGrow ty fuel tb (tb.size * 2) := by
  have hmod : tb.size * 2 % 2 ^ 32 = tb.size * 2 := mod_eq_of_lt (by omega)
  have hne : tb.size ≠ shMaxSize := by
    unfold shMaxSize
    omega
  rw [growCheck, if_pos hfull, if_neg hne, hmod]

inductive Effect (key : κ) (v : ν) (tb tb' : SimpleHash κ ν) (i : ℕ) : Bool → Prop
  | found {w : ν} (hentry : tb'.data i = some (key, w)) (hmem : (key, w) ∈ tb.entries)
      (hent : tb'.entries = tb.entries) : Effect key v tb tb' i true
  | new (hentry : tb'.data i = some (key, v)) (habsent : ∀ w, (key, w) ∉ tb.entries)
      (hent : tb'.entries = (key, v) ::ₘ tb.entries) : Effect key v tb tb' i false

theorem Effect.of_entries_eq {tb1 tb' : SimpleHash κ ν} {i : ℕ} {found : Bool}
    (he : tb1.entries = tb.entries) (h : Effect key v tb1 tb' i found) :
    Effect key v tb tb' i found := by
  cases h with
  | found hentry hmem hent => exact .found hentry (he ▸ hmem) (hent.trans he)
  | new hentry habsent hent => exact .new hentry (he ▸ habsent) (he ▸ hent)

variable [DecidableEq κ]

theorem findPlace_spec (h : Inv ty tb) (hfuel : 2 ^ 32 ≤ fuel) (key : κ) :
    ∃ pl, findPlace ty fuel tb key = .ok pl ∧ Placed ty tb key pl := by
  obtain ⟨e, he, hnone⟩ := h.exists_empty
  obtain ⟨m, hm, -, hfree⟩ := first_empty he hnone (home ty tb key)
  have hle := h.shaped.le
  have :=
    insertLoop_spec h.shaped he hnone hm hfree m 0 (zero_add m) (fun j hj => absurd hj (not_lt_zero j))
    (by omega : m + tb.size < fuel)
  rwa [add_zero, mod_eq_of_lt (h.shaped.shInitialBucket_lt _)] at this

/-- The insertion of `key` comes to rest: the table, or one of those it grows into with at
most `2 ^ 31` buckets, takes the key without asking for more. -/
inductive Settles (ty : SimpleHashType κ) (fuel : ℕ) (key : κ) : SimpleHash κ ν → Prop
  | stay {tb : SimpleHash κ ν} (hroom : tb.members < tb.growThreshold)
      (hplace : findPlace ty fuel tb key ≠ .ok .grow) : Settles ty fuel key tb
  | grow {tb tb' : SimpleHash κ ν} (hwants : tb.members ≥ tb.growThreshold ∨
      findPlace ty fuel tb key = .ok .grow)
      (hsize : tb.size < 2 ^ 31) (hgrow : shGrow ty fuel tb (tb.size * 2) = .ok tb')
      (hrest : Settles ty fuel key tb') : Settles ty fuel key tb

theorem insertFrom_stay (h : Inv ty tb) (hfuel : 2 ^ 32 ≤ fuel) (hroom : tb.members < tb.growThreshold)
    (hplace : findPlace ty fuel tb key ≠ .ok .grow) (restarts : ℕ) (v : ν) :
    ∃ tb' i found, insertFrom ty fuel (restarts + 1) tb key v = .ok (tb', i, found) ∧ Inv ty tb' ∧
      Effect key v tb tb' i found ∧ tb.size ≤ tb'.size := by
  obtain ⟨pl, hpl, hplaced⟩ := findPlace_spec h hfuel key
  rw [insertFrom, growCheck_keep hroom]
  simp only [Except.bind]
  rw [hpl] at hplace ⊢
  cases hplaced with
  | @empty d hd hpass hfree =>
    have hp := mod_lt (home ty tb key + d) (zero_lt_of_lt hd)
    obtain ⟨habsent, hent, hinv⟩ := h.insert hroom hd hpass (by rw [level_none hfree]; exact zero_le _)
      (inserted_update hp hfree (key, v))
    exact ⟨_, _, _, rfl, hinv, .new (Function.update_self ..) habsent hent, le_rfl⟩
  | found hc hfound =>
    exact ⟨_, _, _, rfl, h, .found hfound (mem_contents.2 ⟨_, hc, hfound⟩) rfl, le_rfl⟩
  | @shift d m hd hm hpass hnear hfull hfree =>
    have hc := mod_lt (home ty tb key + d) (zero_lt_of_lt hd)
    obtain ⟨data, hrun, hins⟩ :=
      shiftForward_inserted h.shaped hc hm (by have := h.shaped.le; omega : m ≤ fuel)
      (fun j hj => by rw [mod_add_mod]; exact hfull j hj) (by rw [mod_add_mod]; exact hfree) (key, v)
    obtain ⟨habsent, hent, hinv⟩ := h.insert hroom hd hpass hnear hins
    rw [mod_add_mod] at hrun
    simp only [hrun, Except.map]
    exact ⟨_, _, _, rfl, hinv, .new (Function.update_self ..) habsent hent, le_rfl⟩
  | grow => exact absurd rfl hplace

/-- A call whose grow check ends with a table that has room goes on as a call on that table. -/
theorem insertFrom_growCheck {tb' : SimpleHash κ ν} (hcheck : growCheck ty fuel tb = .ok tb')
    (hroom : tb'.members < tb'.growThreshold) (restarts : ℕ) (v : ν) :
    insertFrom ty fuel (restarts + 1) tb key v = insertFrom ty fuel (restarts + 1) tb' key v := by
  rw [insertFrom, insertFrom, hcheck, growCheck_keep hroom]

variable (hfuel : 2 ^ 32 ≤ fuel)
include hfuel

theorem insertFrom_spec (hset : Settles ty fuel key tb) (h : Inv ty tb) (restarts : ℕ)
    (hrestarts : 2 ^ 32 ≤ tb.size * 2 ^ restarts) (v : ν) :
    ∃ tb' i found, insertFrom ty fuel restarts tb key v = .ok (tb', i, found) ∧ Inv ty tb' ∧
      Effect key v tb tb' i found ∧ tb.size ≤ tb'.size := by
  induction hset generalizing restarts with
  | @stay tb hroom hplace =>
    have hle := h.shaped.le
    cases restarts with
    | zero => omega
    | succ restarts => exact insertFrom_stay h hfuel hroom hplace restarts v
  | @grow tb tb1 hwants hsize hgrow hrest ih => ?_
  obtain ⟨tb2, hgrow2, hinv, hent, hsize₂, hroom⟩ := shGrow_spec h hsize (by omega : tb.size < fuel)
  obtain rfl := Except.ok.inj (hgrow.symm.trans hgrow2)
  by_cases hfull : tb.members ≥ tb.growThreshold
  · cases restarts with
    | zero => omega
    | succ restarts =>
      obtain ⟨tb', i, found, hrun, hinv', heff, hgrown⟩ := ih hinv (restarts + 1)
        (hrestarts.trans (mul_le_mul_right _ (by omega)))
      rw [insertFrom_growCheck ((growCheck_grow hfull hsize).trans hgrow) hroom]
      exact ⟨tb', i, found, hrun, hinv', heff.of_entries_eq hent, by omega⟩
  -- the search asks for growth: the threshold is set to 0 and the next grow check acts on it
  have hplace := hwants.resolve_left hfull
  have hstep : ∀ r, insertFrom ty fuel (r + 1) tb key v =
      insertFrom ty fuel r { tb with growThreshold := 0 } key v := by
    intro r
    rw [insertFrom, growCheck_keep (Nat.lt_of_not_le hfull)]
    simp only [Except.bind, hplace]
  rcases restarts with _ | _ | restarts
  · omega
  · omega
  have hcheck : growCheck ty fuel { tb with growThreshold := 0 } =
      shGrow ty fuel { tb with growThreshold := 0 } (tb.size * 2) := growCheck_grow (zero_le _) hsize
  obtain ⟨tb', i, found, hrun, hinv', heff, hgrown⟩ := ih hinv (restarts + 1)
    (by rw [hsize₂, Nat.mul_assoc, ← pow_succ']; exact hrestarts)
  rw [hstep, insertFrom_growCheck (hcheck.trans hgrow) hroom]
  exact ⟨tb', i, found, hrun, hinv', heff.of_entries_eq hent, by omega⟩

theorem shInsert_spec (h : Inv ty tb) (hset : Settles ty fuel key tb) (v : ν) :
    ∃ tb' i found, shInsert ty fuel tb key v = .ok (tb', i, found) ∧ Inv ty tb' ∧
      Effect key v tb tb' i found ∧ tb.size ≤ tb'.size := by
  refine insertFrom_spec hfuel hset h fuel ?_ v
  calc 2 ^ 32 ≤ 2 ^ fuel := Nat.pow_le_pow_right (by decide) (le_trans (by decide) hfuel)
    _ ≤ tb.size * 2 ^ fuel := Nat.le_mul_of_pos_left _ (by have := h.shaped.one_lt; omega)

/-- Below a tenth of `2 ^ 31` entries every insertion comes to rest, whatever the hash
function. -/
theorem settles_of_few (key : κ) (left : ℕ) (h : Inv ty tb) (hleft : 2 ^ 31 < tb.size * 2 ^ left)
    (hfew : tb.members * 10 < 2 ^ 31) : Settles ty fuel key tb := by
  induction left generalizing tb with
  | zero => have := h.shaped.le; omega
  | succ left ih => ?_
  by_cases hwants : tb.members ≥ tb.growThreshold ∨ findPlace ty fuel tb key = .ok .grow
  swap
  · exact .stay (Nat.lt_of_not_le fun hge => hwants (Or.inl hge)) fun hg => hwants (Or.inr hg)
  have hsize : tb.size < 2 ^ 31 := by
    rcases hwants with hfull | hplace
    · rw [h.threshold_eq] at hfull
      omega
    obtain ⟨pl, hpl, hplaced⟩ := findPlace_spec h hfuel key
    rw [hplace] at hpl
    obtain rfl := Except.ok.inj hpl
    cases hplaced with
    | grow hfilled =>
      have : tb.members * 10 ≥ tb.size := of_decide_eq_true hfilled
      omega
  obtain ⟨tb', hgrow, hinv, hent, hsize', -⟩ := shGrow_spec h hsize (by omega : tb.size < fuel)
  refine .grow hwants hsize hgrow (ih hinv ?_ ?_)
  · rwa [hsize', Nat.mul_assoc, ← pow_succ']
  · rwa [hinv.members_eq, hent, ← h.members_eq]

theorem Inv.settles (h : Inv ty tb) (hfew : tb.members * 10 < 2 ^ 31) (key : κ) :
    Settles ty fuel key tb :=
  settles_of_few hfuel key 31 h ((lt_mul_iff_one_lt_left (by decide)).2 h.shaped.one_lt) hfew

end Insert

end Pg.SimpleHash
