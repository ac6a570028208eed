import PgRetrofit.Spec.PrivateHash
import PgRetrofit.Proofs.HashTable

/-! The bookkeeping of the Hash node's calls, and the hash values they use on the two
sides of a join. -/

namespace Pg.PrivateHash

open HashTable List Multiset Except

variable {α : Type*}

def tupleSize (p : UInt32 × MinimalTuple α) : ℕ := hjtupleOverhead + p.2.tLen

/-- What a call should leave: the number of tuples, their space with one bucket array,
and every stored tuple under the hash value of its own keys. -/
structure Accounted (node : HashState α) : Prop where
  total : node.hashtable.totalTuples = node.hashtable.contents.card
  space : node.hashtable.spaceUsed =
    (node.hashtable.contents.map tupleSize).sum + node.hashtable.nbuckets * sizeofPointer
  hashed : ∀ p ∈ node.hashtable.contents, privateHashValue node p.2 = .ok (some p.1)

/-- What the calls do leave, after storing tuples with a hash value (`hashed`) and
without one (`rejected`). -/
structure Counted (hashed rejected : ℕ) (node : HashState α) : Prop where
  inv : Inv node.hashtable
  card : node.hashtable.contents.card = hashed + rejected
  total : node.hashtable.totalTuples = 2 * hashed + rejected
  space : node.hashtable.spaceUsed = (node.hashtable.contents.map tupleSize).sum +
    (hashed + rejected) * (node.hashtable.nbuckets * sizeofPointer)
  rejected_stored : rejected ≠ 0 → ∃ p ∈ node.hashtable.contents, privateHashValue node p.2 = .ok none

variable {node node' : HashState α} {child child' : List (MinimalTuple α)}
  {ret : Option (MinimalTuple α)} {slot : MinimalTuple α} {u : UInt32}

/-- Everything a call that returns a tuple has done to the node. -/
theorem execPrivateHash_cons (hinv : Inv node.hashtable)
    (h : execPrivateHash u node (slot :: child) = .ok (ret, node', child')) :
    ∃ value T loc, privateHashValue node slot = .ok value ∧ Inv T ∧
      T.contents = (value.getD u, { slot with matched := false }) ::ₘ node.hashtable.contents ∧
      node' = { node with hashtable := T, lastInsert := some loc } ∧
      T.functions = node.hashtable.functions ∧ T.keepNulls = node.hashtable.keepNulls ∧
      T.nbuckets = node.hashtable.nbuckets ∧
      T.totalTuples = node.hashtable.totalTuples + (if value.isSome then 2 else 1) ∧
      T.spaceUsed = node.hashtable.spaceUsed + (hjtupleOverhead + slot.tLen) +
        T.nbuckets * sizeofPointer := by
  obtain ⟨value, hvalue, h⟩ := Result.bind_eq_ok.1 h
  obtain ⟨⟨T, loc⟩, hinsert, h⟩ := Result.bind_eq_ok.1 h
  obtain ⟨-, rfl, -⟩ := Prod.mk.injEq .. ▸ Prod.mk.injEq .. ▸ ok.inj h
  set T0 : HashTable α :=
    if value.isSome then { node.hashtable with totalTuples := node.hashtable.totalTuples + 1 }
    else node.hashtable with hT0
  have hsame : T0 = { node.hashtable with totalTuples := T0.totalTuples } := by
    rw [hT0]
    split_ifs <;> rfl
  have hinv0 : Inv T0 := by
    rw [hsame]
    exact ⟨{ hinv.stored with }, { hinv.linked with }⟩
  rcases execHashTableInsert_spec hinv0 slot (value.getD u)
    with ⟨e, he, -⟩ | ⟨T', loc', he, hT, hcont, heq⟩
  · rw [hinsert] at he
    cases he
  obtain ⟨rfl, rfl⟩ := Prod.mk.inj (ok.inj (hinsert.symm.trans he))
  refine ⟨value, _, loc, hvalue, ?_, ?_, rfl, ?_, ?_, ?_, ?_, ?_⟩
  · exact ⟨{ hT.stored with }, { hT.linked with }⟩
  · have : T0.contents = node.hashtable.contents := by
      rw [hsame]
      rfl
    rw [← this]
    exact hcont
  · rw [heq, hsame]
  · rw [heq, hsame]
  · rw [heq, hsame]
  · rw [heq]
    simp only [hT0]
    split_ifs <;> rfl
  · rw [heq, hsame]

variable {hashed rejected : ℕ}

/-- One call keeps the counts: a tuple counts twice when it has a hash value and once
when it has none, and is stored and charged a bucket array either way. -/
theorem Counted.execPrivateHash (hc : Counted hashed rejected node)
    (h : execPrivateHash u node child = .ok (ret, node', child')) :
    ∃ hashed rejected, Counted hashed rejected node' := by
  cases child with
  | nil =>
    obtain ⟨-, rfl, -⟩ := Prod.mk.injEq .. ▸ Prod.mk.injEq .. ▸ ok.inj h
    exact ⟨hashed, rejected, hc⟩
  | cons slot child => ?_
  obtain ⟨value, T, loc, hvalue, hT, hcont, rfl, hf, hk, hn, htotal, hspace⟩ :=
    execPrivateHash_cons hc.inv h
  have hhash : ∀ t, privateHashValue { node with hashtable := T, lastInsert := some loc } t =
      privateHashValue node t := by
    intro t
    simp only [privateHashValue, execHashGetHashValue, hf, hk]
  have hsum : T.spaceUsed = (T.contents.map tupleSize).sum +
      (hashed + rejected + 1) * (T.nbuckets * sizeofPointer) := by
    rw [hspace, hc.space, hcont, Multiset.map_cons, Multiset.sum_cons, tupleSize, hn]
    ring
  cases value with
  | some v =>
    refine ⟨hashed + 1, rejected, hT, ?_, ?_, ?_, fun hr => ?_⟩
    · rw [hcont, card_cons, hc.card]
      ring
    · rw [htotal, hc.total, if_pos (Option.isSome_some)]
      ring
    · rw [hsum]
      ring
    · obtain ⟨p, hp, hnone⟩ := hc.rejected_stored hr
      exact ⟨p, by rw [hcont]; exact mem_cons_of_mem hp, (hhash p.2).trans hnone⟩
  | none => ?_
  refine ⟨hashed, rejected + 1, hT, ?_, ?_, hsum, fun _ => ?_⟩
  · rw [hcont, card_cons, hc.card]
    ring
  · rw [htotal, hc.total, if_neg (by simp)]
    ring
  · exact ⟨_, by rw [hcont]; exact Multiset.mem_cons_self .., (hhash _).trans hvalue⟩

theorem Counted.calls (us : List UInt32) (hc : Counted hashed rejected node)
    (h : calls us node child = .ok (node', child')) :
    ∃ hashed rejected, Counted hashed rejected node' := by
  induction us generalizing hashed rejected node child with
  | nil =>
    obtain ⟨rfl, -⟩ := Prod.mk.inj (ok.inj h)
    exact ⟨hashed, rejected, hc⟩
  | cons u us ih =>
    obtain ⟨⟨ret, node1, child1⟩, h1, h2⟩ := Result.bind_eq_ok.1 h
    obtain ⟨m, z, hc1⟩ := hc.execPrivateHash h1
    exact ih hc1 h2

theorem Counted.not_accounted (hc : Counted hashed rejected node) : ¬ Accounted node := by
  intro ha
  -- the number of tuples leaves none with a hash value, the space leaves exactly one without
  have htotal := ha.total
  rw [hc.total, hc.card] at htotal
  obtain rfl : hashed = 0 := by omega
  have hspace := ha.space
  rw [hc.space, zero_add] at hspace
  have hpos : 0 < node.hashtable.nbuckets * sizeofPointer := by
    obtain ⟨k, -, hk⟩ := hc.inv.linked.pow
    rw [hk]
    exact Nat.mul_pos (Nat.two_pow_pos k) (by decide)
  obtain rfl : rejected = 1 := by
    have := Nat.add_left_cancel hspace
    exact Nat.eq_of_mul_eq_mul_right hpos (by rw [this, one_mul])
  obtain ⟨p, hp, hnone⟩ := hc.rejected_stored one_ne_zero
  rw [ha.hashed p hp] at hnone
  cases hnone

theorem counted_create {log2 nbatch spaceAllowed : ℕ} {keepNulls : Bool} {functions : HashFunctions}
    {T : HashTable α} (h : execHashTableCreate log2 nbatch spaceAllowed keepNulls functions = .ok T)
    (hashkeys : List (α → Option UInt64)) : Counted 0 0 (⟨T, hashkeys, none⟩ : HashState α) := by
  obtain ⟨hinv, h0⟩ := inv_create h
  obtain ⟨_, -, he⟩ := Result.bind_eq_ok.1 h
  obtain rfl := ok.inj he
  refine ⟨hinv, ?_, rfl, ?_, fun hr => absurd rfl hr⟩
  · rfl
  · rw [h0, map_zero, sum_zero, zero_add, zero_add, zero_mul]
    rfl

/-- On a new table no number of calls leaves the node accounted for, whatever the child
returns. -/
theorem calls_not_accounted {log2 nbatch spaceAllowed : ℕ} {keepNulls : Bool} {functions : HashFunctions}
    {T : HashTable α}
    (hcreate : execHashTableCreate log2 nbatch spaceAllowed keepNulls functions = .ok T)
    (hashkeys : List (α → Option UInt64)) (us : List UInt32) {node' : HashState α}
    (child : List (MinimalTuple α)) {child' : List (MinimalTuple α)}
    (h : calls us ⟨T, hashkeys, none⟩ child = .ok (node', child')) : ¬ Accounted node' := by
  obtain ⟨_, _, hc⟩ := (counted_create hcreate hashkeys).calls us h
  exact hc.not_accounted

/-- a 24-byte tuple with one key -/
def sampleTuple (key : Option UInt64) : MinimalTuple (Option UInt64) := ⟨24, sample_le, false, key⟩

/-- integer equality, hashed to the low word on both sides -/
def sampleOperator : HashOperator := ⟨fun x y => x == y, UInt64.toUInt32, UInt64.toUInt32, true⟩

/-- a Hash node with one key and a new table of two buckets -/
def sampleNode (o : HashOperator) : HashState (Option UInt64) :=
  ⟨empty 1 1 100000 false (.ofOperators [o]), [id], none⟩

theorem calls_not_accounted_sample :
    ∃ node, calls [0] (sampleNode sampleOperator) [sampleTuple (some 5)] = .ok (node, []) ∧
      ¬ Accounted node := by
  have hcreate : execHashTableCreate 1 1 100000 false (.ofOperators [sampleOperator]) =
      .ok (sampleNode sampleOperator).hashtable := rfl
  exact ⟨_, rfl, calls_not_accounted hcreate [id] [0] [sampleTuple (some 5)] rfl⟩

/-- A tuple with key 5 and a tuple with a null key: both are stored, the second under the
value 7 left in the variable; three tuples and two bucket arrays are counted. -/
theorem calls_null_key :
    ∃ node, calls [0, 7] (sampleNode sampleOperator) [sampleTuple (some 5), sampleTuple none] =
      .ok (node, []) ∧ node.hashtable.totalTuples = 3 ∧ node.hashtable.contents.card = 2 ∧
      node.hashtable.spaceUsed = 2 * (16 + 24) + 2 * (2 * 8) ∧
      privateHashValue node (sampleTuple none) = .ok none ∧
      (7, sampleTuple none) ∈ node.hashtable.contents := by
  refine ⟨_, rfl, rfl, rfl, rfl, rfl, ?_⟩
  exact mem_coe.2 (mem_cons_self ..)

theorem and_topBit (h : UInt32) :
    h &&& 0x80000000 = if h.toBitVec.getLsbD 31 then 0x80000000 else 0 := by
  rw [← UInt32.toBitVec_inj]
  exact (BitVec.and_twoPow h.toBitVec 31).trans (by split_ifs <;> rfl)

theorem rotate_bit (h : UInt32) {i : ℕ} (hi : i < 32) :
    (rotate h).toBitVec.getLsbD i = if i = 0 then h.toBitVec.getLsbD 31
      else h.toBitVec.getLsbD (i - 1) := by
  unfold rotate
  rw [and_topBit]
  rcases Nat.eq_zero_or_pos i with rfl | hpos
  · cases hb : h.toBitVec.getLsbD 31 <;> simp
  · rw [BitVec.getLsbD_eq_getElem (show i - 1 < 32 by omega)]
    cases hb : h.toBitVec.getLsbD 31 <;> simp [hi, hpos.ne']

theorem rotate_injective : Function.Injective rotate := by
  intro a b h
  rw [← UInt32.toBitVec_inj]
  refine BitVec.eq_of_getLsbD_eq fun i hi => ?_
  rcases (by omega : i = 31 ∨ i + 1 < 32) with rfl | hlt
  · have h0 := congrArg (fun x : UInt32 => x.toBitVec.getLsbD 0) h
    simpa only [rotate_bit _ (by decide : 0 < 32), if_pos] using h0
  · have hnext := congrArg (fun x : UInt32 => x.toBitVec.getLsbD (i + 1)) h
    simpa [rotate_bit _ hlt] using hnext

/-- the hash value of a list of key hashes, none null, after others -/
def combineFrom (hkeys : List UInt32) (hashkey : UInt32) : UInt32 :=
  hkeys.foldl (fun hashkey hkey => rotate hashkey ^^^ hkey) hashkey

theorem combineFrom_injective (hkeys : List UInt32) : Function.Injective (combineFrom hkeys) := by
  induction hkeys with
  | nil => exact fun _ _ h => h
  | cons v hkeys ih =>
    intro a b h
    exact rotate_injective ((UInt32.xor_left_inj v).1 (ih h))

variable {ι : Type*}

/-- One differing key gives another value: a rotation drops no bit. -/
theorem combineFrom_differs {f g : ι → UInt32} {l r : List ι} {k : ι} (hl : ∀ x ∈ l, f x = g x)
    (hr : ∀ x ∈ r, f x = g x)
    (h : combineFrom ((l ++ k :: r).map f) 0 = combineFrom ((l ++ k :: r).map g) 0) : f k = g k := by
  rw [map_append, map_append, List.map_cons, List.map_cons, map_congr_left hl, map_congr_left hr] at h
  unfold combineFrom at h
  rw [foldl_append, foldl_append] at h
  exact (UInt32.xor_right_inj _).1 (combineFrom_injective _ h)

theorem hashLoop_some (hash : ι → UInt64 → UInt32) (key : ι → UInt64) (strict : List Bool)
    (keepNulls : Bool) (l done : List ι) (hashkey : UInt32) :
    hashLoop ((done ++ l).map hash) strict keepNulls (l.map fun k => some (key k)) done.length hashkey =
      .ok (some (combineFrom (l.map fun k => hash k (key k)) hashkey)) := by
  induction l generalizing done hashkey with
  | nil => rfl
  | cons k l ih =>
    have hget : ((done ++ k :: l).map hash)[done.length]? = some (hash k) := by simp
    rw [List.map_cons, hashLoop, hget]
    have := ih (done ++ [k]) (rotate hashkey ^^^ hash k (key k))
    rw [append_assoc, length_append] at this
    exact this

structure JoinKey where
  operator : HashOperator
  outerKey : UInt64
  innerKey : UInt64

/-- Both hash functions of the operator say the same of the outer key. -/
def JoinKey.Agrees (k : JoinKey) : Prop :=
  k.operator.rightHash k.outerKey = k.operator.leftHash k.outerKey

variable {keys : List JoinKey}

/-- A Hash node of the join on `keys`, at a tuple whose hash keys are not null and given by `value`. -/
structure NodeAt (node : HashState α) (slot : MinimalTuple α) (keys : List JoinKey)
    (value : JoinKey → UInt64) :
    Prop where
  functions_eq : node.hashtable.functions = .ofOperators (keys.map JoinKey.operator)
  hashkeys_eq : (node.hashkeys.map fun key => key slot.body) = keys.map fun k => some (value k)

/-- On either side the node combines the right-hand hash functions. -/
theorem NodeAt.privateHashValue_eq {value : JoinKey → UInt64} (h : NodeAt node slot keys value) :
    privateHashValue node slot =
      .ok (some (combineFrom (keys.map fun k => k.operator.rightHash (value k)) 0)) := by
  have :=
    hashLoop_some (fun k : JoinKey => k.operator.rightHash) value (keys.map fun k => k.operator.strict)
    node.hashtable.keepNulls keys [] 0
  rw [privateHashValue, execHashGetHashValue, h.functions_eq, h.hashkeys_eq]
  simpa [HashFunctions.ofOperators, Function.comp_def] using this

/-- The two sides of a matching pair get one hash value if on every outer key the two
hash functions of its operator agree, and two if they agree on all but one. -/
theorem privateHashValue_sides {β : Type*} {outer : HashState α} {inner : HashState β}
    {o : MinimalTuple α} {i : MinimalTuple β} {keys : List JoinKey}
    (hlaw : ∀ k ∈ keys, k.operator.Lawful) (hop : ∀ k ∈ keys, k.operator.op k.outerKey k.innerKey)
    (ho : NodeAt outer o keys JoinKey.outerKey) (hi : NodeAt inner i keys JoinKey.innerKey) :
    ∃ h h', privateHashValue outer o = .ok (some h) ∧ privateHashValue inner i = .ok (some h') ∧
      ((∀ k ∈ keys, k.Agrees) → h = h') ∧
      ∀ l k r, keys = l ++ k :: r → (∀ x ∈ l ++ r, x.Agrees) → h = h' → k.Agrees := by
  refine ⟨_, _, ho.privateHashValue_eq, hi.privateHashValue_eq, ?_⟩
  have hinner : (keys.map fun k => k.operator.rightHash k.innerKey) =
      keys.map fun k => k.operator.leftHash k.outerKey :=
    map_congr_left fun k hk => (hlaw k hk _ _ (hop k hk)).symm
  rw [hinner]
  constructor
  · intro hall
    rw [map_congr_left hall]
  · rintro l k r rfl hothers heq
    exact combineFrom_differs (f := fun k : JoinKey => k.operator.rightHash k.outerKey)
      (fun x hx => hothers x (mem_append_left r hx)) (fun x hx => hothers x (mem_append_right l hx)) heq

/-- Values of two types that hold the number `n` as `n` and as `n + 1`, hashed to `n + 1`. -/
def shiftedOperator : HashOperator :=
  ⟨fun x y => y == x + 1, fun x => x.toUInt32 + 1, UInt64.toUInt32, true⟩

theorem shiftedOperator_lawful : shiftedOperator.Lawful := by
  intro x y h
  obtain rfl : y = x + 1 := by simpa [shiftedOperator] using h
  exact (UInt64.toUInt32_add x 1).symm

/-- A non-negative number, `int4` on the left and `int8` on the right; the function for
`int8` folds in the high word. -/
def wideningOperator : HashOperator :=
  ⟨fun x y => x.toNat < 2147483648 && y == x, UInt64.toUInt32, fun y => y.toUInt32 ^^^ (y >>> 32).toUInt32, true⟩

theorem wideningOperator_lawful : wideningOperator.Lawful := by
  intro x y h
  obtain ⟨hx, rfl⟩ : x.toNat < 2147483648 ∧ y = x := by simpa [wideningOperator] using h
  have hhigh : y >>> 32 = 0 := UInt64.toNat_inj.1
    ((UInt64.toNat_shiftRight y 32).trans (Nat.shiftRight_eq_zero _ 32 (by omega)))
  simp [wideningOperator, hhigh]

/-- a Hash node with two keys and a new table -/
def pairNode (key key' : UInt64 × UInt64 → UInt64) : HashState (UInt64 × UInt64) :=
  ⟨empty 1 1 100000 false (.ofOperators [wideningOperator, wideningOperator]),
    [fun t => some (key t), fun t => some (key' t)], none⟩

def pairTuple (x y : UInt64) : MinimalTuple (UInt64 × UInt64) := ⟨24, sample_le, false, (x, y)⟩

/-- The outer tuple joins by its first and second attribute, the inner one the other way round. -/
theorem privateHashValue_sides_widening :
    ∃ h, privateHashValue (pairNode Prod.fst Prod.snd) (pairTuple 5 9) = .ok (some h) ∧
      privateHashValue (pairNode Prod.snd Prod.fst) (pairTuple 9 5) = .ok (some h) := by
  have hlaw := wideningOperator_lawful
  have houter : NodeAt (pairNode Prod.fst Prod.snd) (pairTuple 5 9)
      [⟨wideningOperator, 5, 5⟩, ⟨wideningOperator, 9, 9⟩] JoinKey.outerKey := ⟨rfl, rfl⟩
  have hinner : NodeAt (pairNode Prod.snd Prod.fst) (pairTuple 9 5)
      [⟨wideningOperator, 5, 5⟩, ⟨wideningOperator, 9, 9⟩] JoinKey.innerKey := ⟨rfl, rfl⟩
  obtain ⟨h, h', ho, hi, hsame, -⟩ := privateHashValue_sides (by simpa using hlaw)
    (by simp only [List.forall_mem_cons]; decide) houter hinner
  obtain rfl := hsame (by simp only [List.forall_mem_cons, JoinKey.Agrees]; decide)
  exact ⟨h, ho, hi⟩

/-- The outer value 5 and the inner value 6 are equal as numbers; the outer node hashes
the outer one as if it were of the inner type. -/
theorem privateHashValue_crossType :
    shiftedOperator.Lawful ∧ shiftedOperator.op 5 6 = true ∧
    privateHashValue (sampleNode shiftedOperator) (sampleTuple (some 5)) = .ok (some 5) ∧
    privateHashValue (sampleNode shiftedOperator) (sampleTuple (some 6)) = .ok (some 6) :=
  ⟨shiftedOperator_lawful, rfl, rfl, rfl⟩

end Pg.PrivateHash
