import PgRetrofit.Sanity.HashTableChains

/-! Insertion and growth keep the bucket chains and the dense storage of a hash table
in step, over any run. -/

namespace Pg.HashTable

open AList

variable {α : Type*}

/-- Storage and chains hold the same tuples. -/
structure Inv (T : HashTable α) : Prop where
  stored : Stored T
  linked : Linked T (· ∈ T.data)

def contents (T : HashTable α) : Multiset (UInt32 × MinimalTuple α) :=
  (T.data.keys.filterMap fun l => (T.data.lookup l).map payload : List _)

theorem Relinked.contents_eq {T T' : HashTable α} (h : Relinked T T') : T'.contents = T.contents := by
  have hperm : T'.data.keys.Perm T.data.keys := by
    refine (List.perm_ext_iff_of_nodup T'.data.keys_nodup T.data.keys_nodup).2 fun l => ?_
    rw [← mem_keys, ← mem_keys, h.mem_iff]
  unfold contents
  rw [funext h.tuples]
  exact Multiset.coe_eq_coe.2 (hperm.filterMap _)

variable {T : HashTable α} {P : Loc → Prop} {p : Option ℕ} {ids : List ℕ} {ls : List Loc}

theorem contents_put {l : Loc} {h : HashTuple α} (hl : l ∉ T.data) :
    (T.put l h).contents = payload h ::ₘ T.contents := by
  have hkeys : (T.put l h).data.keys = l :: T.data.keys := by
    rw [put, keys_insert, List.erase_of_not_mem (by rwa [← mem_keys])]
  have hrest : T.data.keys.filterMap (fun k => ((T.put l h).data.lookup k).map payload) =
      T.data.keys.filterMap fun k => (T.data.lookup k).map payload := by
    refine List.filterMap_congr fun k hk => ?_
    have hne : k ≠ l := by
      rintro rfl
      exact hl (mem_keys.2 hk)
    rw [lookup_put, if_neg hne]
  unfold contents
  rw [hkeys, List.filterMap_cons_some (by rw [lookup_put, if_pos rfl]; rfl), hrest]
  rfl

theorem relinkChunk_spec {size : Loc → Option ℕ} {chunk used idx : ℕ}
    (hlaid : Laid size chunk used idx ls) (T : HashTable α) (fuel : ℕ)
    (hsize : ∀ l, T.sizeAt l = size l) (hT : Linked T P) (hls : ∀ l ∈ ls, ¬ P l)
    (hfuel : used - idx ≤ fuel) :
    ∃ T', relinkChunk chunk used fuel T idx = .ok T' ∧ Relinked T T' ∧
      Linked T' fun k => k ∈ ls ∨ P k := by
  induction hlaid generalizing T P fuel with
  | done =>
    refine ⟨T, ?_, Relinked.refl T, hT.imp fun l => by simp⟩
    cases fuel <;> simp [relinkChunk]
  | @step idx n ls hsz hn htail ih => ?_
  have hlt : idx < used := by
    have := htail.le
    omega
  obtain _ | fuel := fuel
  · omega
  obtain ⟨h, hlook, rfl⟩ : ∃ h, T.data.lookup ⟨chunk, idx⟩ = some h ∧ h.size = n := by
    have := (hsize ⟨chunk, idx⟩).trans hsz
    simpa [sizeAt] using this
  obtain ⟨T1, h1, hrel1, hlink1⟩ := relink_spec hT (hls _ (List.mem_cons_self ..)) hlook
  have hnot : ∀ l ∈ ls, ¬ (l = ⟨chunk, idx⟩ ∨ P l) := by
    rintro l hl (rfl | hP)
    · have := (htail.mem hl).2.1
      simp only at this
      omega
    · exact hls l (List.mem_cons_of_mem _ hl) hP
  obtain ⟨T2, h2, hrel2, hlink2⟩ := ih T1 fuel (fun l => (hrel1.sizeAt_eq l).trans (hsize l)) hlink1 hnot
    (by omega)
  refine ⟨T2, ?_, hrel1.trans hrel2, hlink2.imp fun l => by simp only [List.mem_cons]; tauto⟩
  rw [relinkChunk, if_pos hlt, hlook]
  simp only [h1, Except.bind]
  exact h2

theorem relinkChunks_spec {T0 : HashTable α} (hst : Stored T0)
    (hchain : Chain T0.chunkNext p ids) (hids : ∀ c ∈ ids, c < T0.headers.length) (T : HashTable α)
    (fuel : ℕ) (hrel : Relinked T0 T) (hT : Linked T P)
    (hP : ∀ l ∈ T0.data, l.chunk ∈ ids → ¬ P l) (hfuel : ids.length ≤ fuel) :
    ∃ T', relinkChunks fuel T p = .ok T' ∧ Relinked T0 T' ∧
      Linked T' fun k => k ∈ T0.data ∧ k.chunk ∈ ids ∨ P k := by
  induction hchain generalizing T P fuel with
  | nil =>
    refine ⟨T, ?_, hrel, hT.imp fun l => by simp⟩
    cases fuel <;> rfl
  | @cons c ids htail ih => ?_
  obtain ⟨fuel, rfl⟩ : ∃ f, fuel = f + 1 := ⟨fuel - 1, by simp only [List.length_cons] at hfuel; omega⟩
  obtain ⟨hd, hhd⟩ : ∃ hd, T0.headers[c]? = some hd :=
    ⟨_, List.getElem?_eq_getElem (hids c (List.mem_cons_self ..))⟩
  obtain ⟨ls, hlaid, -, hmem⟩ := hst.layout_iff hhd
  obtain ⟨T1, h1, hrel1, hlink1⟩ := relinkChunk_spec hlaid T hd.used hrel.sizeAt_eq hT
    (fun l hl => hP l ((hmem l).1 hl).1 (by rw [((hmem l).1 hl).2]; exact List.mem_cons_self ..))
    (by omega)
  have hnd := (Chain.cons htail).nodup
  have hnext : T0.chunkNext c = hd.next := by rw [chunkNext, hhd]; rfl
  obtain ⟨T2, h2, hrel2, hlink2⟩ :=
    ih (fun d hd => hids d (List.mem_cons_of_mem _ hd)) T1 fuel (hrel.trans hrel1) hlink1
    (fun l hl hlc => by
      rintro (hlls | hPl)
      · exact (List.nodup_cons.1 hnd).1 (((hmem l).1 hlls).2 ▸ hlc)
      · exact hP l hl (List.mem_cons_of_mem _ hlc) hPl)
    (Nat.le_of_succ_le_succ hfuel)
  refine ⟨T2, ?_, hrel2, hlink2.imp fun l => by rw [hmem, List.mem_cons]; tauto⟩
  rw [relinkChunks, hrel.headers_eq, hhd]
  simp only [h1, Except.bind]
  rw [← hnext]
  exact h2

def OutOfSpace (e : Fault) : Prop := e = execHashIncreaseNumBatches ∨ ∃ n, e = .allocSize n

theorem execHashIncreaseNumBuckets_spec (hT : Inv T) {k : ℕ} (hopt : T.nbucketsOptimal = 2 ^ k) :
    (∃ e, T.execHashIncreaseNumBuckets = .error e ∧ OutOfSpace e) ∨
    ∃ T', T.execHashIncreaseNumBuckets = .ok T' ∧ Inv T' ∧ T'.contents = T.contents := by
  unfold execHashIncreaseNumBuckets
  by_cases hge : T.nbuckets ≥ T.nbucketsOptimal
  · rw [if_pos hge]
    exact Or.inr ⟨T, rfl, hT, rfl⟩
  rw [if_neg hge]
  by_cases hp : T.nbucketsOptimal * sizeofPointer ≤ maxAllocSize
  swap
  · exact Or.inl ⟨_, by rw [palloc_error hp]; rfl, Or.inr ⟨_, rfl⟩⟩
  rw [palloc_ok hp]
  right
  set T0 : HashTable α := { T with
    nbuckets := T.nbucketsOptimal
    log2Nbuckets := T.log2NbucketsOptimal
    buckets := List.replicate T.nbucketsOptimal none } with hT0
  have hst : Stored T0 := { hT.stored with }
  have hk : k < 32 := by
    by_contra hk
    have : 2 ^ 32 ≤ 2 ^ k := Nat.pow_le_pow_right (by decide) (by omega)
    unfold sizeofPointer maxAllocSize at hp
    omega
  have hlinked : Linked T0 fun _ => False := by
    refine ⟨⟨k, hk, hopt⟩, List.length_replicate, fun i p hp => ?_⟩
    obtain ⟨-, rfl⟩ : i < T.nbucketsOptimal ∧ none = p := by
      simpa [T0, List.getElem?_replicate] using hp
    exact ⟨[], .nil, by simp⟩
  obtain ⟨ids, hchain, hperm⟩ := hst.chunk_list
  have hids : ∀ c, c ∈ ids ↔ c < T0.headers.length := fun c => by rw [hperm.mem_iff, List.mem_range]
  obtain ⟨T', hrun, hrel, hlink⟩ :=
    relinkChunks_spec hst hchain (fun c hc => (hids c).1 hc) T0 T0.headers.length
    (Relinked.refl T0) hlinked (fun _ _ _ h => h) (by rw [hperm.length_eq, List.length_range])
  refine ⟨T', hrun, ⟨hst.relinked hrel, hlink.imp fun l => ?_⟩, hrel.contents_eq⟩
  rw [hrel.mem_iff, hids]
  exact ⟨fun h => (h.resolve_right id).1, fun h => Or.inl ⟨h, hst.in_chunk l h⟩⟩

theorem execHashTableInsert_spec (hT : Inv T) (tuple : MinimalTuple α) (hashvalue : UInt32) :
    (∃ e, T.execHashTableInsert tuple hashvalue = .error e ∧ OutOfSpace e) ∨
    ∃ T' loc, T.execHashTableInsert tuple hashvalue = .ok (T', loc) ∧ Inv T' ∧
      T'.contents = (hashvalue, { tuple with matched := false }) ::ₘ T.contents ∧
      T' = { T with
        headers := T'.headers, chunks := T'.chunks, data := T'.data, buckets := T'.buckets
        spaceUsed := T.spaceUsed + (hjtupleOverhead + tuple.tLen), spacePeak := T'.spacePeak } := by
  obtain ⟨head, hhead⟩ := hT.linked.head hashvalue
  set h : HashTuple α := ⟨head, hashvalue, { tuple with matched := false }⟩ with hh
  have hsize : h.size = maxalign (hjtupleOverhead + tuple.tLen) := rfl
  unfold execHashTableInsert
  simp only
  rcases denseAlloc_spec hT.stored hsize with ⟨n, he⟩ | ⟨T1, loc, hd, he, hT1, hnot, hhd, hroom, hst⟩
  · exact Or.inl ⟨_, by rw [he]; rfl, Or.inr ⟨n, rfl⟩⟩
  have hbuckets : T1.buckets = T.buckets := by rw [hT1]
  have hdata : T1.data = T.data := by rw [hT1]
  have hwrite : T1.writeTuple loc h = .ok (T1.put loc h) := by
    have := le_maxalign (hjtupleOverhead + tuple.tLen)
    rw [writeTuple, hhd]
    simp only
    rw [if_pos (by change loc.off + (hjtupleOverhead + tuple.tLen) ≤ hd.maxlen; omega)]
    rfl
  rw [he]
  simp only [Except.bind]
  rw [hbuckets]
  unfold bucketOf at hhead
  rw [hhead]
  simp only
  rw [hwrite]
  simp only
  split_ifs with hspace
  · exact Or.inl ⟨_, rfl, Or.inl rfl⟩
  right
  have hlook : ∀ k, (T1.put loc h).data.lookup k = if k = loc then some h else T.data.lookup k := by
    intro k
    rw [lookup_put, hdata]
  refine ⟨_, loc, rfl, ⟨{ hst with }, ?_⟩, ?_, ?_⟩
  · refine Linked.imp (hT.linked.push (h := h) hnot hhead ?_ (by rw [← hbuckets]; rfl) hlook) fun k => ?_
    · rw [hT1]
      rfl
    · rw [← hdata]
      exact mem_put.symm
  · have hcontents : T1.contents = T.contents := by rw [contents, hdata]; rfl
    rw [← hcontents]
    exact contents_put (hdata ▸ hnot)
  · rw [hT1]
    rfl

theorem walkChunk_spec {chunk used idx : ℕ}
    (hlaid : Laid T.sizeAt chunk used idx ls) (fuel : ℕ) (hfuel : used - idx ≤ fuel) :
    T.walkChunk chunk used fuel idx = .ok (ls, used) := by
  induction hlaid generalizing fuel with
  | done => cases fuel <;> simp [walkChunk]
  | @step idx n ls hsz hn htail ih => ?_
  have hle := htail.le
  obtain _ | fuel := fuel
  · omega
  obtain ⟨h, hlook, rfl⟩ : ∃ h, T.data.lookup ⟨chunk, idx⟩ = some h ∧ h.size = n := by
    simpa [sizeAt] using hsz
  rw [walkChunk, if_pos (by omega), hlook]
  simp only [ih fuel (by omega)]
  rfl

theorem walkChunks_spec (hst : Stored T)
    (hchain : Chain T.chunkNext p ids) (hids : ∀ c ∈ ids, c < T.headers.length) (fuel : ℕ)
    (hfuel : ids.length ≤ fuel) :
    ∃ w, T.walkChunks fuel p = .ok w ∧ (∀ e ∈ w, e.2.2 = e.1.used ∧ e.2.1.length = e.1.ntuples) ∧
      (w.flatMap fun e => e.2.1).Nodup ∧
      ∀ l, l ∈ (w.flatMap fun e => e.2.1) ↔ l ∈ T.data ∧ l.chunk ∈ ids := by
  induction hchain generalizing fuel with
  | nil => exact ⟨[], by cases fuel <;> rfl, by simp, by simp, by simp⟩
  | @cons c ids htail ih => ?_
  obtain ⟨fuel, rfl⟩ : ∃ f, fuel = f + 1 := ⟨fuel - 1, by simp only [List.length_cons] at hfuel; omega⟩
  obtain ⟨hd, hhd⟩ : ∃ hd, T.headers[c]? = some hd :=
    ⟨_, List.getElem?_eq_getElem (hids c (List.mem_cons_self ..))⟩
  obtain ⟨ls, hlaid, hcount, hls⟩ := hst.layout_iff hhd
  obtain ⟨w, hw, hends, hnd, hmem⟩ := ih (fun d hd => hids d (List.mem_cons_of_mem _ hd)) fuel
    (Nat.le_of_succ_le_succ hfuel)
  have hnext : T.chunkNext c = hd.next := by rw [chunkNext, hhd]; rfl
  refine ⟨(hd, ls, hd.used) :: w, ?_, ?_, ?_, fun l => ?_⟩
  · rw [walkChunks, hhd]
    simp only [walkChunk_spec hlaid hd.used (by omega), Except.bind]
    rw [← hnext, hw]
    rfl
  · exact List.forall_mem_cons.2 ⟨⟨rfl, hcount⟩, hends⟩
  · rw [List.flatMap_cons, List.nodup_append]
    refine ⟨hlaid.nodup, hnd, fun a ha b hb hab => ?_⟩
    subst hab
    have hc := ((hmem a).1 hb).2
    rw [((hls a).1 ha).2] at hc
    exact (List.nodup_cons.1 (Chain.cons htail).nodup).1 hc
  · rw [List.flatMap_cons, List.mem_append, hls, hmem, List.mem_cons]
    tauto

/-- The table holds the given tuples, as chains and as packed chunks. -/
structure Represents (T : HashTable α) (tuples : Multiset (UInt32 × MinimalTuple α)) : Prop where
  contents_eq : T.contents = tuples
  /-- a chain holds stored tuples of its bucket, each once -/
  chain_sound : ∀ i p, T.buckets[i]? = some p → ∃ ks, Chain T.link p ks ∧ ks.Nodup ∧
    ∀ l ∈ ks, ∃ h, T.data.lookup l = some h ∧ (h.hashvalue &&& (T.nbuckets.toUInt32 - 1)).toNat = i
  /-- every stored tuple is on the chain of its bucket -/
  chain_complete : ∀ l h, T.data.lookup l = some h → ∃ p ks,
    T.buckets[(h.hashvalue &&& (T.nbuckets.toUInt32 - 1)).toNat]? = some p ∧ Chain T.link p ks ∧ l ∈ ks
  /-- the walk meets every stored tuple once and stops in each chunk at its `used` -/
  walk : ∃ w, T.walkChunks T.headers.length T.chunks = .ok w ∧ (∀ e ∈ w, e.2.2 = e.1.used) ∧
    (w.flatMap fun e => e.2.1).Perm T.data.keys

theorem Inv.represents (hT : Inv T) : Represents T T.contents where
  contents_eq := rfl
  chain_sound i p hp := by
    obtain ⟨ks, hchain, hks⟩ := hT.linked.chains i p hp
    refine ⟨ks, hchain, hchain.nodup, fun l hl => ?_⟩
    obtain ⟨-, h, hlook, hb⟩ := (hks l).1 hl
    exact ⟨h, hlook, by rw [← bucketOf_eq, hb]⟩
  chain_complete l h hlook := by
    obtain ⟨p, hp⟩ := hT.linked.head h.hashvalue
    obtain ⟨ks, hchain, hks⟩ := hT.linked.chains _ p hp
    rw [← bucketOf_eq]
    exact ⟨p, ks, hp, hchain, (hks l).2 ⟨lookup_isSome.1 (by rw [hlook]; rfl), h, hlook, rfl⟩⟩
  walk := by
    obtain ⟨ids, hchain, hperm⟩ := hT.stored.chunk_list
    have hids : ∀ c, c ∈ ids ↔ c < T.headers.length := fun c => by rw [hperm.mem_iff, List.mem_range]
    obtain ⟨w, hw, hends, hnd, hmem⟩ := walkChunks_spec hT.stored hchain (fun c hc => (hids c).1 hc)
      T.headers.length (by rw [hperm.length_eq, List.length_range])
    refine ⟨w, hw, fun e he => (hends e he).1, ?_⟩
    refine (List.perm_ext_iff_of_nodup hnd T.data.keys_nodup).2 fun l => ?_
    rw [hmem, hids]
    exact ⟨fun h => h.1, fun h => ⟨h, hT.stored.in_chunk l h⟩⟩

theorem inv_empty {log2 : ℕ} (hlog : log2 < 32) (nbatch spaceAllowed : ℕ) (keepNulls : Bool)
    (functions : HashFunctions) :
    Inv (empty log2 nbatch spaceAllowed keepNulls functions : HashTable α) := by
  refine ⟨⟨⟨[], .nil, by simp [empty]⟩, fun c hd hc => ?_, fun l hl => ?_⟩,
    ⟨⟨log2, hlog, rfl⟩, List.length_replicate, fun i p hp => ?_⟩⟩
  · simp [empty] at hc
  · exact absurd hl (notMem_empty l)
  · obtain ⟨-, rfl⟩ : i < 2 ^ log2 ∧ none = p := by simpa [empty, List.getElem?_replicate] using hp
    exact ⟨[], .nil, fun l => by simp [empty]⟩

theorem inv_create {log2 nbatch spaceAllowed : ℕ} {keepNulls : Bool} {functions : HashFunctions}
    (h : execHashTableCreate log2 nbatch spaceAllowed keepNulls functions = .ok T) :
    Inv T ∧ T.contents = 0 := by
  obtain ⟨_, hp, he⟩ := Result.bind_eq_ok.1 h
  obtain rfl := Except.ok.inj he
  have hlog : log2 < 32 := by
    unfold palloc at hp
    split_ifs at hp with hle
    by_contra hge
    have : 2 ^ 32 ≤ 2 ^ log2 := Nat.pow_le_pow_right (by decide) (by omega)
    unfold sizeofPointer maxAllocSize at hle
    omega
  exact ⟨inv_empty hlog .., rfl⟩

theorem step_spec (hT : Inv T) (op : Op α) : (∃ e, T.step op = .error e ∧ OutOfSpace e) ∨
    ∃ T', T.step op = .ok T' ∧ Inv T' ∧ T'.contents = (inserted [op] : Multiset _) + T.contents := by
  cases op with
  | insert hashvalue tuple =>
    rcases execHashTableInsert_spec hT tuple hashvalue with ⟨e, he, hs⟩ | ⟨T', loc, he, hinv, hc, -⟩
    · exact Or.inl ⟨e, by rw [step, he]; rfl, hs⟩
    · exact Or.inr ⟨T', by rw [step, he]; rfl, hinv, by rw [hc]; rfl⟩
  | grow log2 => ?_
  have hT0 : Inv { T with nbucketsOptimal := 2 ^ log2, log2NbucketsOptimal := log2 } :=
    ⟨{ hT.stored with }, { hT.linked with }⟩
  rcases execHashIncreaseNumBuckets_spec hT0 rfl with ⟨e, he, hs⟩ | ⟨T', he, hinv, hc⟩
  · exact Or.inl ⟨e, he, hs⟩
  · exact Or.inr ⟨T', he, hinv, by rw [hc]; exact (zero_add _).symm⟩

theorem inserted_cons (op : Op α) (ops : List (Op α)) :
    inserted (op :: ops) = inserted [op] ++ inserted ops := by
  rw [inserted, ← List.singleton_append, List.filterMap_append]
  rfl

/-- Over any run from an `Inv` table: it stops for lack of space only, and until then
nothing is lost. -/
theorem run_spec (ops : List (Op α)) (hT : Inv T) : (∃ e, T.run ops = .error e ∧ OutOfSpace e) ∨
    ∃ T', T.run ops = .ok T' ∧ Inv T' ∧ T'.contents = (inserted ops : Multiset _) + T.contents := by
  induction ops generalizing T with
  | nil => exact Or.inr ⟨T, rfl, hT, (zero_add _).symm⟩
  | cons op ops ih => ?_
  have hrun : T.run (op :: ops) = (T.step op).bind fun T => T.run ops := rfl
  rw [hrun]
  rcases step_spec hT op with ⟨e, he, hs⟩ | ⟨T1, h1, hinv1, hc1⟩
  · exact Or.inl ⟨e, by rw [he]; rfl, hs⟩
  rw [h1]
  rcases ih hinv1 with ⟨e, he, hs⟩ | ⟨T2, h2, hinv2, hc2⟩
  · exact Or.inl ⟨e, he, hs⟩
  · refine Or.inr ⟨T2, h2, hinv2, ?_⟩
    rw [hc2, hc1, inserted_cons op ops, ← Multiset.coe_add, ← add_assoc,
      add_comm (inserted ops : Multiset (UInt32 × MinimalTuple α))]

/-- Every run of insertions and growths on a new table ends for lack of space or leaves
a table that represents exactly the inserted tuples. -/
theorem run_represents {log2 nbatch spaceAllowed : ℕ} {keepNulls : Bool} {functions : HashFunctions}
    {T : HashTable α} (h : execHashTableCreate log2 nbatch spaceAllowed keepNulls functions = .ok T)
    (ops : List (Op α)) :
    (∃ e, T.run ops = .error e ∧ OutOfSpace e) ∨
    ∃ T', T.run ops = .ok T' ∧ Represents T' (inserted ops : Multiset _) := by
  obtain ⟨hinv, h0⟩ := inv_create h
  rcases run_spec ops hinv with he | ⟨T', hT', hinv', hc⟩
  · exact Or.inl he
  · rw [h0, add_zero] at hc
    exact Or.inr ⟨T', hT', hc ▸ hinv'.represents⟩

theorem sample_le : 24 ≤ maxAllocSize := by decide

/-- a run with a small tuple, a growth and a tuple that gets a chunk of its own -/
def sampleOps : List (Op ℕ) :=
  [.insert 5 ⟨24, sample_le, true, 0⟩, .grow 2, .insert 7 ⟨9000, by decide, false, 1⟩]

theorem run_represents_sample :
    ∃ T', (empty 1 1 100000 false ⟨[], [], []⟩ : HashTable ℕ).run sampleOps = .ok T' ∧
      Represents T' (inserted sampleOps : Multiset _) := by
  have hcreate : execHashTableCreate 1 1 100000 false ⟨[], [], []⟩ =
      .ok (empty 1 1 100000 false ⟨[], [], []⟩ : HashTable ℕ) := rfl
  rcases run_represents hcreate sampleOps with ⟨e, he, -⟩ | h
  · cases he
  · exact h

end Pg.HashTable
