import PgRetrofit.Sanity.HashJoinProbe

/-! The join that probes the opposite table with every arriving tuple: over any order
of arrival it returns every matching pair once. -/

namespace Pg.HashJoin

open HashTable List Multiset

variable {α : Type*} {hj : HashJoinState α}

def bodies (T : HashTable α) : Multiset (UInt32 × α) := T.contents.map fun p => (p.1, p.2.body)

/-- The pairs a join of two inputs owes: those with equal hash value that satisfy the
clauses, as often as they occur. -/
def matching (clauses : α → α → Bool) (outers inners : Multiset (UInt32 × α)) : Multiset (α × α) :=
  ((outers ×ˢ inners).filter fun p => p.1.1 = p.2.1 ∧ clauses p.1.2 p.2.2 = true).map
    fun p => (p.1.2, p.2.2)

variable (clauses : α → α → Bool)

theorem matching_outer (o : UInt32 × α) (O I : Multiset (UInt32 × α)) :
    matching clauses (o ::ₘ O) I =
      (I.filter fun i => o.1 = i.1 ∧ clauses o.2 i.2 = true).map (fun i => (o.2, i.2)) +
        matching clauses O I := by
  rw [matching, Multiset.cons_product, Multiset.filter_add, Multiset.map_add,
    Multiset.filter_map, Multiset.map_map]
  rfl

theorem matching_inner (i : UInt32 × α) (O I : Multiset (UInt32 × α)) :
    matching clauses O (i ::ₘ I) =
      (O.filter fun o => o.1 = i.1 ∧ clauses o.2 i.2 = true).map (fun o => (o.2, i.2)) +
        matching clauses O I := by
  rw [matching, Multiset.product_cons, Multiset.filter_add, Multiset.map_add,
    Multiset.filter_map, Multiset.map_map]
  rfl

/-- The hits of the whole chain of a bucket are those of the whole table: no tuple with
the right hash value is elsewhere. -/
theorem hits_chain {T : HashTable α} (hT : Inv T) (clauses : α → α → Bool)
    (d : Direction) (hashvalue : UInt32) (a : α) {p : Option Loc} {ks : List Loc}
    (hp : T.buckets[T.bucketOf hashvalue]? = some p) (hchain : Chain T.link p ks) :
    (hits clauses d T hashvalue a ks : Multiset α) =
      ((bodies T).filter fun b => b.1 = hashvalue ∧ test clauses a b.2 d = true).map Prod.snd := by
  obtain ⟨ks', hchain', hks⟩ := hT.linked.chains _ p hp
  obtain rfl := hchain.unique hchain'
  set g : Loc → Option α :=
    fun l => ((T.data.lookup l).map payload).bind (hit clauses d hashvalue a) with hg
  have hsome : ∀ l, (g l).isSome → l ∈ ks ∧ l ∈ T.data.keys := by
    intro l hl
    obtain ⟨b, hb⟩ := Option.isSome_iff_exists.1 hl
    simp only [hg, Option.bind_eq_some_iff, Option.map_eq_some_iff] at hb
    obtain ⟨-, ⟨h, hlook, rfl⟩, hhit⟩ := hb
    have hmem : l ∈ T.data := AList.lookup_isSome.1 (by rw [hlook]; rfl)
    unfold hit at hhit
    split_ifs at hhit with hcond
    exact ⟨(hks l).2 ⟨hmem, h, hlook, by rw [show h.hashvalue = hashvalue from hcond.1]⟩,
      AList.mem_keys.1 hmem⟩
  have hperm : (ks.filter fun l => (g l).isSome).Perm (T.data.keys.filter fun l => (g l).isSome) := by
    refine (perm_ext_iff_of_nodup (hchain.nodup.filter _) (T.data.keys_nodup.filter _)).2 fun l => ?_
    rw [mem_filter, mem_filter]
    exact ⟨fun h => ⟨(hsome l h.2).2, h.2⟩, fun h => ⟨(hsome l h.2).1, h.2⟩⟩
  have hfm : ∀ ls : List Loc, ls.filterMap g = (ls.filter fun l => (g l).isSome).filterMap g := by
    intro ls
    rw [List.filterMap_filter]
    refine filterMap_congr fun l _ => ?_
    cases g l <;> rfl
  have hleft : (hits clauses d T hashvalue a ks : Multiset α) = (T.data.keys.filterMap g : List α) := by
    rw [hfm T.data.keys]
    change ((ks.filterMap g : List α) : Multiset α) = _
    rw [hfm ks]
    exact coe_eq_coe.2 (hperm.filterMap g)
  rw [hleft, bodies, contents, map_coe, filter_coe]
  congr 1
  generalize T.data.keys = ls
  induction ls with
  | nil => rfl
  | cons l ls ih => ?_
  rw [List.filterMap_cons, List.filterMap_cons]
  simp only [hg] at ih ⊢
  cases (T.data.lookup l).map payload with
  | none => exact ih
  | some q => ?_
  simp only [Option.bind_some, hit, List.map_cons, List.filter_cons, decide_eq_true_eq]
  split_ifs with hcond
  · rw [ih]
    rfl
  · exact ih

theorem bodies_insert {T T' : HashTable α} {hashvalue : UInt32} {tuple : MinimalTuple α}
    (h : T'.contents = (hashvalue, { tuple with matched := false }) ::ₘ T.contents) :
    bodies T' = (hashvalue, tuple.body) ::ₘ bodies T := by
  rw [bodies, h]
  rfl

structure Tables (hj : HashJoinState α) : Prop where
  inner : Inv hj.hashTableInner
  outer : Inv hj.hashTableOuter

theorem probeAll_bucket (d : Direction) (hj : HashJoinState α) (hT : Inv (selected hj d).1)
    (hcur : (selected hj d).2.1 = none)
    (hbucket : (selected hj d).2.2.2 = (selected hj d).1.bucketOf (selected hj d).2.2.1)
    {own : MinimalTuple α} (econtext : ExprContext α) (hown : ownSlot econtext d = some own) :
    ∃ hj' pairs,
      probeAll (fun hj ec => execProbeHashBucket hj ec d) ((selected hj d).1.data.keys.length + 1)
        hj econtext = .ok (hj', pairs) ∧ SameTables hj hj' ∧
      (pairs : Multiset (α × α)) = ((bodies (selected hj d).1).filter fun b =>
        b.1 = (selected hj d).2.2.1 ∧ test hj.hashclauses own.body b.2 d = true).map
          fun b => pairOf own.body b.2 d := by
  obtain ⟨p, hp⟩ := hT.linked.head (selected hj d).2.2.1
  obtain ⟨ks, hchain, hks⟩ := hT.linked.chains _ p hp
  have hstored : ∀ l ∈ ks, l ∈ (selected hj d).1.data := fun l hl => ((hks l).1 hl).1
  have hbefore : Before hj d ks := by
    refine ⟨p, ?_, hchain, hstored⟩
    rw [hcur, hbucket, probeStart]
    simp only [hp]
  have hlen : ks.length ≤ (selected hj d).1.data.keys.length :=
    hchain.length_le fun l hl => AList.mem_keys.1 (hstored l hl)
  obtain ⟨hj', hall, hsame⟩ := probeAll_spec d _ (Nat.lt_succ_of_le hlen) hj hbefore econtext hown
  refine ⟨hj', _, hall, hsame, ?_⟩
  rw [← Multiset.map_coe, hits_chain hT hj.hashclauses d _ own.body hp hchain, Multiset.map_map]
  rfl

/-- One arrival ends for lack of space, or adds its tuple to its own table and returns
exactly the pairs that become possible with it. -/
theorem arrive_spec (hT : Tables hj) (a : Arrival α) :
    (∃ e, arrive hj a = .error e ∧ OutOfSpace e) ∨
    ∃ hj' pairs, arrive hj a = .ok (hj', pairs) ∧ Tables hj' ∧ hj'.hashclauses = hj.hashclauses ∧
      bodies hj'.hashTableOuter =
        (if a.outer then {(a.hashvalue, a.tuple.body)} else 0) + bodies hj.hashTableOuter ∧
      bodies hj'.hashTableInner =
        (if a.outer then 0 else {(a.hashvalue, a.tuple.body)}) + bodies hj.hashTableInner ∧
      matching hj.hashclauses (bodies hj'.hashTableOuter) (bodies hj'.hashTableInner) =
        (pairs : Multiset (α × α)) +
          matching hj.hashclauses (bodies hj.hashTableOuter) (bodies hj.hashTableInner) := by
  unfold arrive
  cases ha : a.outer with
  | true =>
    rcases execHashTableInsert_spec hT.outer a.tuple a.hashvalue
      with ⟨e, he, hs⟩ | ⟨T', loc, he, hinv, hc, -⟩
    · exact Or.inl ⟨e, by rw [he]; rfl, hs⟩
    right
    rw [he]
    obtain ⟨hj', pairs, hall, hsame, hpairs⟩ :=
      probeAll_bucket .probeInner (startProbeInner hj T' a.hashvalue)
      hT.inner rfl rfl ⟨some a.tuple, none⟩ rfl
    have houter : hj'.hashTableOuter = T' := hsame.outer
    have hinner : hj'.hashTableInner = hj.hashTableInner := hsame.inner
    refine ⟨hj', pairs, hall, ⟨hinner ▸ hT.inner, houter ▸ hinv⟩, hsame.clauses, ?_, ?_, ?_⟩
    · rw [houter, bodies_insert hc]
      rfl
    · rw [hinner]
      exact (zero_add _).symm
    · rw [houter, hinner, bodies_insert hc, matching_outer, hpairs]
      congr 2
      exact filter_congr fun i _ => and_congr_left' eq_comm
  | false => ?_
  rcases execHashTableInsert_spec hT.inner a.tuple a.hashvalue
    with ⟨e, he, hs⟩ | ⟨T', loc, he, hinv, hc, -⟩
  · exact Or.inl ⟨e, by rw [he]; rfl, hs⟩
  right
  rw [he]
  obtain ⟨hj', pairs, hall, hsame, hpairs⟩ :=
    probeAll_bucket .probeOuter (startProbeOuter hj T' a.hashvalue)
    hT.outer rfl rfl ⟨none, some a.tuple⟩ rfl
  have houter : hj'.hashTableOuter = hj.hashTableOuter := hsame.outer
  have hinner : hj'.hashTableInner = T' := hsame.inner
  refine ⟨hj', pairs, hall, ⟨hinner ▸ hinv, houter ▸ hT.outer⟩, hsame.clauses, ?_, ?_, ?_⟩
  · rw [houter]
    exact (zero_add _).symm
  · rw [hinner, bodies_insert hc]
    rfl
  · rw [houter, hinner, bodies_insert hc, matching_inner, hpairs]
    rfl

def side (outer : Bool) (as : List (Arrival α)) : Multiset (UInt32 × α) :=
  ((as.filter fun a => a.outer == outer).map fun a => (a.hashvalue, a.tuple.body) : List _)

theorem side_cons (outer : Bool) (a : Arrival α) (as : List (Arrival α)) :
    side outer (a :: as) = side outer as + if a.outer = outer then
      {(a.hashvalue, a.tuple.body)} else 0 := by
  unfold side
  rw [filter_cons]
  by_cases h : a.outer = outer
  · rw [if_pos (beq_iff_eq.2 h), if_pos h, List.map_cons, ← cons_coe, ← singleton_add, add_comm]
  · rw [if_neg (by rwa [beq_iff_eq]), if_neg h, add_zero]

theorem join_spec (as : List (Arrival α)) (hT : Tables hj) :
    (∃ e, join hj as = .error e ∧ OutOfSpace e) ∨
    ∃ hj' pairs, join hj as = .ok (hj', pairs) ∧
      matching hj.hashclauses (side true as + bodies hj.hashTableOuter)
      (side false as + bodies hj.hashTableInner) = (pairs : Multiset (α × α)) +
          matching hj.hashclauses (bodies hj.hashTableOuter) (bodies hj.hashTableInner) := by
  induction as generalizing hj with
  | nil => exact Or.inr ⟨hj, [], rfl, by simp [side]⟩
  | cons a as ih => ?_
  have hjoin : join hj (a :: as) = (arrive hj a).bind fun r =>
    (join r.1 as).map fun s => (s.1, r.2 ++ s.2) := rfl
  rw [hjoin]
  rcases arrive_spec hT a with ⟨e, he, hs⟩ | ⟨hj1, pairs1, h1, hT1, hcl, hout, hin, hm1⟩
  · exact Or.inl ⟨e, by rw [he]; rfl, hs⟩
  rw [h1]
  simp only [Except.bind]
  rcases ih hT1 with ⟨e, he, hs⟩ | ⟨hj2, pairs2, h2, hm2⟩
  · exact Or.inl ⟨e, by rw [he]; rfl, hs⟩
  refine Or.inr ⟨hj2, pairs1 ++ pairs2, by rw [h2]; rfl, ?_⟩
  have hsides : side true (a :: as) + bodies hj.hashTableOuter =
    side true as + bodies hj1.hashTableOuter ∧
      side false (a :: as) + bodies hj.hashTableInner = side false as + bodies hj1.hashTableInner := by
    rw [hout, hin, side_cons, side_cons, add_assoc, add_assoc]
    cases a.outer <;> simp
  rw [hsides.1, hsides.2, ← hcl, hm2, hcl, hm1, ← coe_add, add_assoc]
  exact add_left_comm _ _ _

/-- For any arrivals on two new tables, the join ends for lack of space or returns
every pair of an outer and an inner tuple with equal hash value that satisfies the
clauses, each once, and no other. -/
theorem join_matching {log2 nbatch spaceAllowed log2' nbatch' spaceAllowed' : ℕ}
    {keepNulls keepNulls' : Bool} {functions functions' : HashFunctions} {hj : HashJoinState α}
    (hinner : execHashTableCreate log2 nbatch spaceAllowed keepNulls functions = .ok hj.hashTableInner)
    (houter : execHashTableCreate log2' nbatch' spaceAllowed' keepNulls' functions' =
      .ok hj.hashTableOuter)
    (as : List (Arrival α)) :
    (∃ e, join hj as = .error e ∧ OutOfSpace e) ∨
    ∃ hj' pairs, join hj as = .ok (hj', pairs) ∧
      (pairs : Multiset (α × α)) = matching hj.hashclauses (side true as) (side false as) := by
  obtain ⟨hinv, hempty⟩ := inv_create hinner
  obtain ⟨hinv', hempty'⟩ := inv_create houter
  rcases join_spec as ⟨hinv, hinv'⟩ with he | ⟨hj', pairs, hrun, hm⟩
  · exact Or.inl he
  refine Or.inr ⟨hj', pairs, hrun, ?_⟩
  rw [bodies, bodies, hempty, hempty', map_zero, add_zero, add_zero] at hm
  rw [hm]
  exact (add_zero _).symm

/-- a join on empty tables of two buckets, on equality of the tuples -/
def sampleJoin : HashJoinState ℕ where
  hashclauses o i := o == i
  hashTableInner := empty 1 1 100000 false ⟨[], [], []⟩
  hashTableOuter := empty 1 1 100000 false ⟨[], [], []⟩
  curHashValueInner := 0
  curHashValueOuter := 0
  curBucketNoOuter := 0
  curBucketNoInner := 0
  curTupleInner := none
  curTupleOuter := none

/-- hash values that agree without equal tuples, and a repeated tuple -/
def sampleArrivals : List (Arrival ℕ) :=
  [⟨true, 3, 24, sample_le, false, 7⟩, ⟨false, 3, 24, sample_le, false, 8⟩,
    ⟨false, 3, 24, sample_le, false, 7⟩, ⟨true, 3, 24, sample_le, false, 7⟩]

theorem join_matching_sample :
    ∃ hj' pairs, join sampleJoin sampleArrivals = .ok (hj', pairs) ∧
      (pairs : Multiset (ℕ × ℕ)) = matching (fun o i => o == i) {(3, 7), (3, 7)} {(3, 8), (3, 7)} := by
  have hinner : execHashTableCreate 1 1 100000 false ⟨[], [], []⟩ = .ok sampleJoin.hashTableInner := rfl
  have houter : execHashTableCreate 1 1 100000 false ⟨[], [], []⟩ = .ok sampleJoin.hashTableOuter := rfl
  rcases join_matching hinner houter sampleArrivals with ⟨e, he, -⟩ | h
  · cases he
  · exact h

end Pg.HashJoin
