import PgRetrofit.Lib.FiniteMap
import PgRetrofit.Lib.Result

/-! Tables that are scanned with an iterator. A scan from the start returns every entry once, even
if entries are changed on the way, or removed when they have just been returned; a scan from
anywhere, during which entries are added and removed, returns entries that are there. -/

/-- The operations. `room` bounds what an iterator can still return, and `store` changes the value of
an entry in place. -/
structure ScanTable (ε κ ν τ ι : Type) where
  create : Except ε τ
  insert : τ → κ → ν → Except ε (τ × Bool)
  lookup : τ → κ → Option ν
  store : τ → κ → ν → τ
  delete : τ → κ → τ × Bool
  start : τ → ι
  startAt : τ → ℕ → ι
  cur : ι → ℕ
  room : τ → ι → ℕ
  iterate : τ → ι → Option (κ × ν × ι)

namespace ScanTable

open List

variable {ε κ ν τ ι : Type}

/-- The entries that an iterator still returns, if nothing is changed. -/
def entriesFrom (T : ScanTable ε κ ν τ ι) (t : τ) : ℕ → ι → List (κ × ν)
  | 0, _ => []
  | fuel + 1, i =>
    match T.iterate t i with
    | none => []
    | some (k, v, i) => (k, v) :: entriesFrom T t fuel i

/-- The entries of the map `m` with keys in `S`, each once. -/
def Lists (es : List (κ × ν)) (S : Set κ) (m : κ → Option ν) : Prop :=
  (es.map Prod.fst).Nodup ∧ ∀ k v, (k, v) ∈ es ↔ k ∈ S ∧ m k = some v

theorem lists_nil (m : κ → Option ν) : Lists [] ∅ m :=
  ⟨nodup_nil, fun k _ => ⟨fun h => absurd h not_mem_nil, fun h => absurd h.1 (Set.notMem_empty k)⟩⟩

theorem Lists.cons {es : List (κ × ν)} {S : Set κ} {m m' : κ → Option ν} {k0 : κ} {v0 : ν}
    (h : Lists es (S \ {k0}) m') (hk0 : k0 ∈ S) (hv0 : m k0 = some v0) (hm : ∀ k ≠ k0, m' k = m k) :
    Lists ((k0, v0) :: es) S m := by
  obtain ⟨hnodup, hmem⟩ := h
  refine ⟨?_, fun k v => ?_⟩
  · rw [map_cons, nodup_cons]
    refine ⟨fun hin => ?_, hnodup⟩
    obtain ⟨⟨k, v⟩, hkv, rfl⟩ := mem_map.1 hin
    exact ((hmem k v).1 hkv).1.2 rfl
  · rw [mem_cons, hmem, Set.mem_sdiff, Set.mem_singleton_iff]
    by_cases hk : k = k0
    · subst hk
      simp [hk0, hv0, eq_comm]
    · simp [hk, hm k hk]

/-- `while ((entry = iterate(...)) != NULL)` -/
def entries (T : ScanTable ε κ ν τ ι) (t : τ) : List (κ × ν) :=
  T.entriesFrom t (T.room t (T.start t) + 1) (T.start t)

/-- What is asked of the operations. A table with fewer than `capacity` entries has room for one more.
`Pending t i S` says that the scan is going to return the entries of `S`, and `Last t i k` that the
entry of `k` is the one it returned last. -/
structure Lawful [DecidableEq κ] (T : ScanTable ε κ ν τ ι) where
  Valid : τ → Prop
  Usable : τ → ι → Prop
  Pending : τ → ι → Set κ → Prop
  Last : τ → ι → κ → Prop
  capacity : ℕ
  create_ok : ∃ t, T.create = .ok t ∧ Valid t ∧ T.lookup t = fun _ => none
  insert_room : ∀ {t n} k v, Valid t → FiniteMap.Counts (T.lookup t) (fun _ => true) n → n < capacity →
    ∃ r, T.insert t k v = .ok r
  insert_ok : ∀ {t k v t' found}, Valid t → T.insert t k v = .ok (t', found) → Valid t' ∧
    found = (T.lookup t k).isSome ∧
    T.lookup t' = if found then T.lookup t else Function.update (T.lookup t) k (some v)
  store_ok : ∀ {t k v}, Valid t → (T.lookup t k).isSome → Valid (T.store t k v) ∧
    T.lookup (T.store t k v) = Function.update (T.lookup t) k (some v)
  delete_ok : ∀ {t k}, Valid t → Valid (T.delete t k).1 ∧ (T.delete t k).2 = (T.lookup t k).isSome ∧
    T.lookup (T.delete t k).1 = Function.update (T.lookup t) k none
  usable_start : ∀ {t}, Valid t → Usable t (T.start t)
  usable_startAt : ∀ {t n}, Valid t → Usable t (T.startAt t n)
  usable_insert : ∀ {t k v t' found i}, Valid t → Usable t i →
    T.insert t k v = .ok (t', found) → Usable t' i
  usable_store : ∀ {t k v i}, Valid t → Usable t i → Usable (T.store t k v) i
  usable_delete : ∀ {t k i}, Valid t → Usable t i → Usable (T.delete t k).1 i
  iterate_ok : ∀ {t i k v i'}, Valid t → Usable t i → T.iterate t i = some (k, v, i') →
    T.lookup t k = some v ∧ Usable t i' ∧ T.room t i' < T.room t i
  room_store : ∀ {t k v i}, T.room (T.store t k v) i = T.room t i
  room_delete : ∀ {t k i}, Valid t → T.room (T.delete t k).1 i = T.room t i
  pending_start : ∀ {t}, Valid t → Pending t (T.start t) {k | (T.lookup t k).isSome}
  pending_none : ∀ {t i S}, Valid t → Pending t i S → T.iterate t i = none → S = ∅
  pending_some : ∀ {t i S k v i'}, Valid t → Pending t i S → T.iterate t i = some (k, v, i') →
    k ∈ S ∧ Pending t i' (S \ {k}) ∧ Last t i' k
  pending_store : ∀ {t i S k v}, Valid t → Pending t i S → (T.lookup t k).isSome →
    Pending (T.store t k v) i S
  last_store : ∀ {t i k k' v}, Valid t → Last t i k → (T.lookup t k').isSome → Last (T.store t k' v) i k
  pending_delete : ∀ {t i S k}, Valid t → Pending t i S → Last t i k → Pending (T.delete t k).1 i S

namespace Lawful

variable [DecidableEq κ] {T : ScanTable ε κ ν τ ι} (L : T.Lawful) {t : τ} {i : ι} {S : Set κ}
  {k : κ} {v : ν} {fuel : ℕ}

variable (ht : L.Valid t)
include ht

theorem insert_ends {n : ℕ} (hcount : FiniteMap.Counts (T.lookup t) (fun _ => true) n) (k : κ) (v : ν) :
    Result.Ends (fun _ => L.capacity ≤ n) (fun r => L.Valid r.1 ∧ r.2 = (T.lookup t k).isSome ∧
      (T.lookup r.1 = if r.2 then T.lookup t else Function.update (T.lookup t) k (some v)) ∧
        ∀ i, L.Usable t i → L.Usable r.1 i)
      (T.insert t k v) := by
  cases hrun : T.insert t k v with
  | ok r =>
    obtain ⟨hvalid, hfound, hlookup⟩ := L.insert_ok ht hrun
    exact ⟨hvalid, hfound, hlookup, fun i hi => L.usable_insert ht hi hrun⟩
  | error e =>
    by_contra hroom
    obtain ⟨r, hok⟩ := L.insert_room k v ht hcount (not_le.1 hroom)
    cases hrun.symm.trans hok

theorem entriesFrom_spec (hi : L.Usable t i) (hp : L.Pending t i S) (hfuel : T.room t i < fuel) :
    Lists (T.entriesFrom t fuel i) S (T.lookup t) := by
  induction fuel generalizing i S with
  | zero => omega
  | succ fuel ih => ?_
  rw [entriesFrom]
  cases hnext : T.iterate t i with
  | none =>
    obtain rfl := L.pending_none ht hp hnext
    exact lists_nil _
  | some r =>
    obtain ⟨hv0, hi', hroom⟩ := L.iterate_ok ht hi hnext
    obtain ⟨hk0, hp', -⟩ := L.pending_some ht hp hnext
    exact (ih hi' hp' (by omega)).cons hk0 hv0 fun _ _ => rfl

theorem entries_nodup : ((T.entries t).map Prod.fst).Nodup :=
  (L.entriesFrom_spec ht (L.usable_start ht) (L.pending_start ht) (Nat.lt_succ_self _)).1

theorem mem_entries : (k, v) ∈ T.entries t ↔ T.lookup t k = some v := by
  rw [entries, (L.entriesFrom_spec ht (L.usable_start ht) (L.pending_start ht) (Nat.lt_succ_self _)).2]
  exact ⟨fun h => h.2, fun h => ⟨Option.isSome_iff_exists.2 ⟨v, h⟩, h⟩⟩

end Lawful

end ScanTable
