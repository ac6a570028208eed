import Mathlib.Tactic

/-! How many entries of a map have a property. -/

namespace FiniteMap

open List Finset

variable {κ ν : Type*} {m : κ → Option ν} {P : ν → Bool} {n n' : ℕ} {k : κ} {o : Option ν}

/-- There are `n` entries with the property. -/
def Counts (m : κ → Option ν) (P : ν → Bool) (n : ℕ) : Prop :=
  ∃ keys : Finset κ, keys.card = n ∧ ∀ k, k ∈ keys ↔ (m k).any P = true

theorem counts_none (P : ν → Bool) : Counts (fun _ : κ => none) P 0 := ⟨∅, rfl, fun k => by simp⟩

theorem Counts.unique (h : Counts m P n) (h' : Counts m P n') : n = n' := by
  obtain ⟨keys, rfl, hkeys⟩ := h
  obtain ⟨keys', rfl, hkeys'⟩ := h'
  congr 1
  ext k
  rw [hkeys, hkeys']

theorem Counts.eq_zero (h : Counts m P 0) (k : κ) : (m k).any P = false := by
  obtain ⟨keys, hcard, hkeys⟩ := h
  have hk : k ∉ keys := by
    rw [card_eq_zero.1 hcard]
    exact notMem_empty k
  rw [hkeys] at hk
  exact Bool.eq_false_iff.2 hk

/-- Entries have lost the property, and none has got it. -/
theorem Counts.lt {m' : κ → Option ν} (h : Counts m P n) (h' : Counts m' P n')
    (hsub : ∀ k, (m' k).any P = true → (m k).any P = true) (hk : (m k).any P = true)
    (hk' : (m' k).any P = false) : n' < n := by
  obtain ⟨keys, rfl, hkeys⟩ := h
  obtain ⟨keys', rfl, hkeys'⟩ := h'
  refine card_lt_card ⟨fun x hx => (hkeys x).2 (hsub x ((hkeys' x).1 hx)), fun hall => ?_⟩
  have hin := (hkeys' k).1 (hall ((hkeys k).2 hk))
  rw [hk'] at hin
  cases hin

variable [DecidableEq κ]

section New

variable {m' : κ → Option ν} (h : Counts m P n) (h' : Counts m' P n')
  (hnew : ∀ k', (m' k').any P = true → k' = k ∨ (m k').any P = true)
include h h' hnew

/-- Only one entry can be new. -/
theorem Counts.le_succ : n' ≤ n + 1 := by
  obtain ⟨keys, rfl, hkeys⟩ := h
  obtain ⟨keys', rfl, hkeys'⟩ := h'
  refine le_trans (card_le_card fun x hx => ?_) (card_insert_le k keys)
  rw [mem_insert, hkeys]
  exact hnew x ((hkeys' x).1 hx)

/-- It was there before, or one is gone. -/
theorem Counts.le_of_old {old : κ} (hold : (m old).any P = true)
    (hgone : old = k ∨ (m' old).any P = false) :
    n' ≤ n := by
  obtain ⟨keys, rfl, hkeys⟩ := h
  obtain ⟨keys', rfl, hkeys'⟩ := h'
  have hsub : keys' ⊆ insert k (keys.erase old) := fun x hx => by
    have hx' := (hkeys' x).1 hx
    rw [mem_insert, mem_erase, hkeys]
    grind
  calc keys'.card ≤ (insert k (keys.erase old)).card := card_le_card hsub
    _ ≤ (keys.erase old).card + 1 := card_insert_le ..
    _ = keys.card := card_erase_add_one ((hkeys old).2 hold)

end New

theorem Counts.update (h : Counts m P n) (k : κ) (o : Option ν) :
    ∃ n', Counts (Function.update m k o) P n' ∧ n' + ((m k).any P).toNat = n + (o.any P).toNat := by
  obtain ⟨keys, rfl, hkeys⟩ := h
  have hother : ∀ k', k' ≠ k → (k' ∈ keys ↔ ((Function.update m k o) k').any P = true) := by
    intro k' hk'
    rw [Function.update_of_ne hk', hkeys]
  cases hnew : o.any P with
  | true =>
    refine ⟨_, ⟨insert k keys, rfl, fun k' => ?_⟩, ?_⟩
    · by_cases hk' : k' = k
      · subst hk'
        simp [hnew]
      · rw [mem_insert, hother k' hk']
        simp [hk']
    · cases hold : (m k).any P with
      | true => rw [insert_eq_of_mem ((hkeys k).2 hold)]
      | false => rw [card_insert_of_notMem (fun hk => by rw [hkeys, hold] at hk; cases hk)]; rfl
  | false => ?_
  refine ⟨_, ⟨keys.erase k, rfl, fun k' => ?_⟩, ?_⟩
  · by_cases hk' : k' = k
    · subst hk'
      simp [hnew]
    · rw [mem_erase, hother k' hk']
      simp [hk']
  · cases hold : (m k).any P with
    | true => exact card_erase_add_one ((hkeys k).2 hold)
    | false => rw [erase_eq_of_notMem (fun hk => by rw [hkeys, hold] at hk; cases hk)]

/-- A list of all entries has as many with the property. -/
theorem Counts.length_filter (h : Counts m P n) {l : List (κ × ν)} (hnodup : (l.map Prod.fst).Nodup)
    (hl : ∀ k v, (k, v) ∈ l ↔ m k = some v) : (l.filter fun e => P e.2).length = n := by
  have hsub : ((l.filter fun e => P e.2).map Prod.fst).Nodup := hnodup.sublist (filter_sublist.map _)
  refine Counts.unique (m := m) (P := P) ⟨((l.filter fun e => P e.2).map Prod.fst).toFinset,
    ?_, fun k => ?_⟩ h
  · rw [toFinset_card_of_nodup hsub, length_map]
  rw [List.mem_toFinset, List.mem_map, Option.any_eq_true]
  constructor
  · rintro ⟨⟨k, v⟩, hmem, rfl⟩
    obtain ⟨hkv, hP⟩ := mem_filter.1 hmem
    exact ⟨v, (hl k v).1 hkv, hP⟩
  · rintro ⟨v, hv, hP⟩
    exact ⟨(k, v), mem_filter.2 ⟨(hl k v).2 hv, hP⟩, rfl⟩

end FiniteMap
