import Mathlib.Tactic

/-! Singly linked lists in a memory. The memory is seen through the function `next`
that reads the link of a cell; `none` is the null pointer. -/

variable {κ : Type*}

/-- Following the links from `p` passes through the given cells and then ends. -/
inductive Chain (next : κ → Option κ) : Option κ → List κ → Prop
  | nil : Chain next none []
  | cons {k : κ} {ks : List κ} : Chain next (next k) ks → Chain next (some k) (k :: ks)

namespace Chain

variable {next next' : κ → Option κ} {p : Option κ} {k : κ} {ks ls : List κ} (h : Chain next p ks)
include h

theorem unique (h' : Chain next p ls) : ks = ls := by
  induction h generalizing ls with
  | nil => cases h'; rfl
  | cons _ ih =>
    cases h' with
    | cons h' => rw [ih h']

theorem tail_at (hk : k ∈ ks) : ∃ rest, Chain next (some k) (k :: rest) ∧ rest.length < ks.length := by
  induction h with
  | nil => cases hk
  | @cons j js hjs ih =>
    rcases List.mem_cons.1 hk with rfl | hk
    · exact ⟨js, cons hjs, Nat.lt_succ_self _⟩
    · obtain ⟨rest, hrest, hlt⟩ := ih hk
      exact ⟨rest, hrest, Nat.lt_succ_of_lt hlt⟩

/-- A list that ends does not meet a cell twice. -/
theorem nodup : ks.Nodup := by
  induction h with
  | nil => exact List.nodup_nil
  | @cons j js hjs ih =>
    refine List.nodup_cons.2 ⟨fun hmem => ?_, ih⟩
    obtain ⟨rest, hrest, hlt⟩ := hjs.tail_at hmem
    obtain rfl := (List.cons.inj (hrest.unique (cons hjs))).2
    exact Nat.lt_irrefl _ hlt

/-- Only the links of the list's own cells matter. -/
theorem congr (heq : ∀ k ∈ ks, next' k = next k) : Chain next' p ks := by
  induction h with
  | nil => exact nil
  | @cons j js _ ih =>
    refine cons ?_
    rw [heq j (List.mem_cons_self ..)]
    exact ih fun k hk => heq k (List.mem_cons_of_mem _ hk)

theorem push (hnew : next' k = p) (heq : ∀ j ∈ ks, next' j = next j) :
    Chain next' (some k) (k :: ks) := by
  refine cons ?_
  rw [hnew]
  exact h.congr heq

omit h

theorem splice {new : κ} (h : Chain next (some k) (k :: ks)) (hfirst : next' k = some new)
    (hnew : next' new = next k) (heq : ∀ j ∈ ks, next' j = next j) :
    Chain next' (some k) (k :: new :: ks) := by
  cases h with
  | cons h =>
    refine cons ?_
    rw [hfirst]
    exact push h hnew heq

theorem length_le (h : Chain next p ks) (hsub : ∀ k ∈ ks, k ∈ ls) : ks.length ≤ ls.length :=
  (h.nodup.subperm hsub).length_le

end Chain
