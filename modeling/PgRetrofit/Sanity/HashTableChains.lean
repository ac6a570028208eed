import PgRetrofit.Sanity.HashTableStore

/-! The bucket chains of a hash table, while tuples are added to them one at a time. -/

namespace Pg.HashTable

variable {α : Type*} {k : ℕ}

def bucketOf (T : HashTable α) (hashvalue : UInt32) : ℕ := (T.execHashGetBucketAndBatch hashvalue).1

theorem bucketOf_eq (T : HashTable α) (hashvalue : UInt32) :
    T.bucketOf hashvalue = (hashvalue &&& (T.nbuckets.toUInt32 - 1)).toNat := by
  unfold bucketOf execHashGetBucketAndBatch
  simp only
  split_ifs <;> rfl

theorem bucketOf_congr {T T' : HashTable α} (h : T'.nbuckets = T.nbuckets) (hashvalue : UInt32) :
    T'.bucketOf hashvalue = T.bucketOf hashvalue := by
  rw [bucketOf_eq, bucketOf_eq, h]

theorem and_pow_mask (hk : k < 32) (word : UInt32) :
    (word &&& ((2 ^ k : ℕ).toUInt32 - 1)).toNat = word.toNat % 2 ^ k := by
  have hlt : 2 ^ k < 2 ^ 32 := Nat.pow_lt_pow_right (by decide) hk
  have hpos : 1 ≤ 2 ^ k := Nat.one_le_two_pow
  have hmask : ((2 ^ k : ℕ).toUInt32 - 1).toNat = 2 ^ k - 1 := by
    rw [UInt32.toNat_sub, UInt32.toNat_ofNat', Nat.mod_eq_of_lt hlt]
    change (2 ^ 32 - 1 + 2 ^ k) % 2 ^ 32 = _
    omega
  rw [UInt32.toNat_and, hmask, Nat.and_two_pow_sub_one_eq_mod]

variable {T : HashTable α}

theorem bucketOf_pow (hk : k < 32) (h : T.nbuckets = 2 ^ k) (hashvalue : UInt32) :
    T.bucketOf hashvalue = hashvalue.toNat % 2 ^ k := by
  rw [bucketOf_eq, h, and_pow_mask hk]

theorem batchOf_pow (hk : k < 32) (h : T.nbatch = 2 ^ k) (hashvalue : UInt32) :
    (T.execHashGetBucketAndBatch hashvalue).2 =
      (pgRotateRight32 hashvalue T.log2Nbuckets).toNat % 2 ^ k := by
  rw [execHashGetBucketAndBatch, ← and_pow_mask hk, h]
  split_ifs with hbatch
  · rfl
  cases k with
  | zero => exact congrArg UInt32.toNat UInt32.and_zero.symm
  | succ k =>
    refine absurd (UInt32.lt_iff_toNat_lt.2 ?_) hbatch
    rw [UInt32.toNat_ofNat', Nat.mod_eq_of_lt (Nat.pow_lt_pow_right (by decide) hk)]
    exact Nat.one_lt_two_pow k.succ_ne_zero

/-- Doubling the batches moves no tuple to another bucket or to an earlier batch. -/
theorem execHashGetBucketAndBatch_doubled {k : ℕ} (hbuckets : T.nbuckets = 2 ^ T.log2Nbuckets)
    (hlog2 : T.log2Nbuckets < 31) (hbatch : T.nbatch = 2 ^ k) (hk : k < 31) {hashvalue : UInt32}
    {bucketno batchno bucketno' batchno' : ℕ}
    (h : T.execHashGetBucketAndBatch hashvalue = (bucketno, batchno))
    (h' : { T with nbatch := 2 * T.nbatch }.execHashGetBucketAndBatch hashvalue =
      (bucketno', batchno')) :
    bucketno < T.nbuckets ∧ batchno < T.nbatch ∧ bucketno' = bucketno ∧
      (batchno' = batchno ∨ batchno' = batchno + T.nbatch) := by
  have hbucket : T.bucketOf hashvalue = bucketno := congrArg Prod.fst h
  have hbucket' : { T with nbatch := 2 * T.nbatch }.bucketOf hashvalue = bucketno' :=
    congrArg Prod.fst h'
  have hold : batchno = _ := (congrArg Prod.snd h).symm.trans (batchOf_pow (by omega) hbatch hashvalue)
  have hnew : batchno' = _ := (congrArg Prod.snd h').symm.trans
    (batchOf_pow (k := k + 1) (by omega) (by rw [Nat.pow_succ', hbatch]) hashvalue)
  rw [Nat.pow_succ, Nat.mod_mul, ← hold, ← hbatch] at hnew
  refine ⟨?_, ?_, by rw [← hbucket', ← hbucket, bucketOf_eq, bucketOf_eq], ?_⟩
  · rw [← hbucket, bucketOf_pow (by omega) hbuckets, hbuckets]
    exact Nat.mod_lt _ (Nat.two_pow_pos _)
  · rw [hold, hbatch]
    exact Nat.mod_lt _ (Nat.two_pow_pos _)
  rw [hnew]
  rcases Nat.mod_two_eq_zero_or_one ((pgRotateRight32 hashvalue T.log2Nbuckets).toNat / T.nbatch)
    with hbit | hbit
  · exact Or.inl (by rw [hbit, Nat.mul_zero, Nat.add_zero])
  · exact Or.inr (by rw [hbit, Nat.mul_one])

theorem execHashGetBucketAndBatch_doubled_large : ∃ T : HashTable ℕ, T.nbatch = 2 ^ 20 ∧
    (T.execHashGetBucketAndBatch 3735928559).2 < T.nbatch :=
  ⟨empty 20 (2 ^ 20) 0 false ⟨[], [], []⟩, rfl, (execHashGetBucketAndBatch_doubled
    rfl (by decide) rfl (by decide) (Prod.eta _).symm (Prod.eta _).symm).2.1⟩

/-- The tuples satisfying `P` are on the chains, each on that of its bucket and no other. -/
structure Linked (T : HashTable α) (P : Loc → Prop) : Prop where
  pow : ∃ k < 32, T.nbuckets = 2 ^ k
  buckets_length : T.buckets.length = T.nbuckets
  chains : ∀ i p, T.buckets[i]? = some p → ∃ ks, Chain T.link p ks ∧
    ∀ l, l ∈ ks ↔ P l ∧ ∃ h, T.data.lookup l = some h ∧ T.bucketOf h.hashvalue = i

variable {P : Loc → Prop} {l : Loc} {h : HashTuple α}

theorem Linked.head (hT : Linked T P) (hashvalue : UInt32) :
    ∃ p, T.buckets[T.bucketOf hashvalue]? = some p := by
  obtain ⟨k, hk, hn⟩ := hT.pow
  have hlt : T.bucketOf hashvalue < T.buckets.length := by
    rw [hT.buckets_length, bucketOf_pow hk hn, hn]
    exact Nat.mod_lt _ (Nat.two_pow_pos k)
  exact ⟨_, List.getElem?_eq_getElem hlt⟩

theorem Linked.imp {P Q : Loc → Prop} (hT : Linked T P) (h : ∀ l, (P l ↔ Q l)) : Linked T Q := by
  obtain rfl : P = Q := funext fun l => propext (h l)
  exact hT

theorem Linked.push {T T' : HashTable α} (hT : Linked T P)
    (hl : ¬ P l) (hhead : T.buckets[T.bucketOf h.hashvalue]? = some h.next)
    (hn : T'.nbuckets = T.nbuckets)
    (hbuckets : T'.buckets = T.buckets.set (T.bucketOf h.hashvalue) (some l))
    (hlook : ∀ k, T'.data.lookup k = if k = l then some h else T.data.lookup k) :
    Linked T' fun k => k = l ∨ P k := by
  have hlink : ∀ k, k ≠ l → T'.link k = T.link k := fun k hk => by rw [link, link, hlook, if_neg hk]
  refine ⟨by rw [hn]; exact hT.pow, by rw [hbuckets, List.length_set, hn]; exact hT.buckets_length, ?_⟩
  intro i p hp
  rw [hbuckets, List.getElem?_set] at hp
  by_cases hi : T.bucketOf h.hashvalue = i
  · subst hi
    obtain ⟨ks, hchain, hks⟩ := hT.chains _ _ hhead
    have hlks : l ∉ ks := fun hmem => hl ((hks l).1 hmem).1
    rw [if_pos rfl, if_pos (List.getElem?_eq_some_iff.1 hhead).1] at hp
    obtain rfl := Option.some.inj hp
    refine ⟨l :: ks, hchain.push (by rw [link, hlook, if_pos rfl]; rfl) fun k hk => ?_, fun k => ?_⟩
    · exact hlink k fun he => hlks (he ▸ hk)
    rw [List.mem_cons, hks, hlook]
    by_cases hk : k = l
    · simp [hk, bucketOf_congr hn]
    · simp [hk, bucketOf_congr hn]
  rw [if_neg hi] at hp
  obtain ⟨ks, hchain, hks⟩ := hT.chains i p hp
  have hlks : l ∉ ks := fun hmem => hl ((hks l).1 hmem).1
  refine ⟨ks, hchain.congr fun k hk => hlink k fun he => hlks (he ▸ hk), fun k => ?_⟩
  rw [hks, hlook]
  by_cases hk : k = l
  · simp [hk, bucketOf_congr hn, hi, hl]
  · simp [hk, bucketOf_congr hn]

/-- what stays with a tuple when it is moved between chains -/
def payload (h : HashTuple α) : UInt32 × MinimalTuple α := (h.hashvalue, h.tuple)

/-- `T'` is `T` with other bucket heads and other links. -/
structure Relinked (T T' : HashTable α) : Prop where
  eq : T' = { T with data := T'.data, buckets := T'.buckets }
  tuples : ∀ l, (T'.data.lookup l).map payload = (T.data.lookup l).map payload

section Relinked

variable {T T' T'' : HashTable α}

theorem Relinked.refl (T : HashTable α) : Relinked T T := ⟨rfl, fun _ => rfl⟩

theorem Relinked.trans (h : Relinked T T') (h' : Relinked T' T'') : Relinked T T'' := by
  refine ⟨?_, fun l => (h'.tuples l).trans (h.tuples l)⟩
  rw [h'.eq, h.eq]

theorem Relinked.sizeAt_eq (h : Relinked T T') (l : Loc) : T'.sizeAt l = T.sizeAt l := by
  have key : ∀ o : Option (HashTuple α), o.map HashTuple.size =
      (o.map payload).map fun p => maxalign (hjtupleOverhead + p.2.tLen) := by
    intro o
    cases o <;> rfl
  rw [sizeAt, sizeAt, key, key, h.tuples]

theorem Relinked.mem_iff (h : Relinked T T') : l ∈ T'.data ↔ l ∈ T.data := by
  rw [← AList.lookup_isSome, ← AList.lookup_isSome]
  have := congrArg Option.isSome (h.tuples l)
  rw [Option.isSome_map, Option.isSome_map] at this
  rw [this]

theorem Relinked.headers_eq (h : Relinked T T') : T'.headers = T.headers := by rw [h.eq]
theorem Relinked.chunks_eq (h : Relinked T T') : T'.chunks = T.chunks := by rw [h.eq]

theorem Stored.relinked (hT : Stored T) (h : Relinked T T') : Stored T' := by
  have hnext : T'.chunkNext = T.chunkNext := by
    funext c
    rw [chunkNext, chunkNext, h.headers_eq]
  refine ⟨?_, fun c hd hc => ?_, fun l hl => ?_⟩
  · rw [hnext, h.chunks_eq, h.headers_eq]
    exact hT.chunk_list
  · rw [h.headers_eq] at hc
    obtain ⟨hle, ls, hlaid, hcount, hall⟩ := hT.layout c hd hc
    exact ⟨hle, ls, hlaid.congr fun l _ => h.sizeAt_eq l, hcount, fun l hl => hall l (h.mem_iff.1 hl)⟩
  · rw [h.headers_eq]
    exact hT.in_chunk l (h.mem_iff.1 hl)

end Relinked

theorem relink_spec (hT : Linked T P) (hl : ¬ P l) (hlook : T.data.lookup l = some h) :
    ∃ T', T.relink l h = .ok T' ∧ Relinked T T' ∧ Linked T' fun k => k = l ∨ P k := by
  obtain ⟨p, hp⟩ := hT.head h.hashvalue
  have hlook' : ∀ k, (T.data.insert l { h with next := p }).lookup k =
      if k = l then some { h with next := p } else T.data.lookup k := fun k => lookup_put T l _ k
  refine ⟨{ T with data := T.data.insert l { h with next := p },
                   buckets := T.buckets.set (T.bucketOf h.hashvalue) (some l) },
                     ?_, ⟨rfl, fun k => ?_⟩, ?_⟩
  · unfold bucketOf at hp
    rw [relink]
    simp only [hp]
    rfl
  · simp only [hlook']
    split_ifs with hk
    · rw [hk, hlook]
      rfl
    · rfl
  · exact hT.push (h := { h with next := p }) hl hp rfl rfl hlook'

end Pg.HashTable
