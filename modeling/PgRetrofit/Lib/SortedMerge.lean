import Mathlib.Tactic

/-! Merging two strictly increasing lists while keeping a chosen part of the three
regions of their Venn diagram. -/

namespace SortedMerge

open List

variable {α : Type*} {xs : List α} {x : α} {p : Bool}

def keepIf (p : Bool) (xs : List α) : List α := if p then xs else []

theorem mem_keepIf : x ∈ keepIf p xs ↔ p = true ∧ x ∈ xs := by
  cases p <;> simp [keepIf]

theorem keepIf_sublist (p : Bool) (xs : List α) : (keepIf p xs).Sublist xs := by
  cases p <;> simp [keepIf]

section
variable [LT α] [DecidableRel (α := α) (· < ·)]

/-- Keep the elements of the left list only (`l`), of the right list only (`r`)
and of both (`c`). -/
def merge (l r c : Bool) : List α → List α → List α
  | [], bs => keepIf r bs
  | as, [] => keepIf l as
  | a :: as, b :: bs =>
    if b < a then keepIf r [b] ++ merge l r c (a :: as) bs
    else if a < b then keepIf l [a] ++ merge l r c as (b :: bs)
    else keepIf c [a] ++ merge l r c as bs
termination_by as bs => as.length + bs.length

theorem merge_nil_right (l r c : Bool) (as : List α) : merge l r c as [] = keepIf l as := by
  cases as <;> simp [merge, keepIf]

theorem length_merge_le {l r c : Bool} (as bs : List α) :
    (merge l r c as bs).length ≤ as.length + bs.length := by
  have hk : ∀ (p : Bool) (x : α), (keepIf p [x]).length ≤ 1 :=
    fun p x => (keepIf_sublist p [x]).length_le
  induction as, bs using merge.induct with
  | case1 bs => rw [merge]; simpa using (keepIf_sublist r bs).length_le
  | case2 as hne => rw [merge_nil_right]; simpa using (keepIf_sublist l as).length_le
  | case3 a as b bs hlt ih =>
    rw [merge, if_pos hlt, length_append]
    have := hk r b
    simp only [length_cons] at ih ⊢; omega
  | case4 a as b bs hnlt hlt ih =>
    rw [merge, if_neg hnlt, if_pos hlt, length_append]
    have := hk l a
    simp only [length_cons] at ih ⊢; omega
  | case5 a as b bs hn1 hn2 ih =>
    rw [merge, if_neg hn1, if_neg hn2, length_append]
    have := hk c a
    simp only [length_cons] at ih ⊢; omega

end

/-- What `x` must be to survive the merge. -/
def Kept (l r c : Bool) (as bs : List α) (x : α) : Prop :=
  (l = true ∧ x ∈ as ∧ x ∉ bs) ∨ (r = true ∧ x ∈ bs ∧ x ∉ as) ∨ (c = true ∧ x ∈ as ∧ x ∈ bs)

variable [LT α] {a : α}

theorem cons_sorted (h : xs.Pairwise (· < ·)) (ha : ∀ x ∈ xs, a < x) :
    (keepIf p [a] ++ xs).Pairwise (· < ·) := by
  cases p
  · exact h
  · exact pairwise_cons.2 ⟨ha, h⟩

variable [IsStrictTotalOrder α (· < ·)] {as : List α}

theorem eq_of_not_lt {b : α} (h1 : ¬ b < a) (h2 : ¬ a < b) : a = b := by
  rcases trichotomous_of (· < ·) a b with h | h | h
  · exact absurd h h2
  · exact h
  · exact absurd h h1

theorem not_mem_of_lt_head (h : (a :: as).Pairwise (· < ·)) (hx : x < a) : x ∉ a :: as := by
  rw [pairwise_cons] at h
  intro hm
  rcases mem_cons.1 hm with rfl | hm
  · exact irrefl_of (· < ·) x hx
  · exact asymm_of (· < ·) hx (h.1 x hm)

theorem head_not_mem (h : (a :: as).Pairwise (· < ·)) : a ∉ as :=
  fun hm => irrefl_of (· < ·) a ((pairwise_cons.1 h).1 a hm)

variable [DecidableRel (α := α) (· < ·)] {l r c : Bool} {bs : List α} (ha : as.Pairwise (· < ·))
  (hb : bs.Pairwise (· < ·))
include ha hb

theorem mem_merge (x : α) : x ∈ merge l r c as bs ↔ Kept l r c as bs x := by
  induction as, bs using merge.induct with
  | case1 bs => simp [merge, Kept, mem_keepIf]
  | case2 as hne => simp [merge_nil_right, Kept, mem_keepIf]
  | case3 a as b bs hlt ih =>
    have hna := not_mem_of_lt_head ha hlt
    have hnb := head_not_mem hb
    rw [merge, if_pos hlt, mem_append, mem_keepIf, mem_singleton, ih ha hb.of_cons]
    rcases eq_or_ne x b with rfl | hne
    · simp only [Kept, hna, hnb, mem_cons]; tauto
    · simp only [Kept, mem_cons, hne, false_or, and_false]
  | case4 a as b bs hnlt hlt ih =>
    have hnb := not_mem_of_lt_head hb hlt
    have hna := head_not_mem ha
    rw [merge, if_neg hnlt, if_pos hlt, mem_append, mem_keepIf, mem_singleton, ih ha.of_cons hb]
    rcases eq_or_ne x a with rfl | hne
    · simp only [Kept, hna, hnb, mem_cons]; tauto
    · simp only [Kept, mem_cons, hne, false_or, and_false]
  | case5 a as b bs hn1 hn2 ih =>
    obtain rfl : a = b := eq_of_not_lt hn1 hn2
    have hna := head_not_mem ha
    have hnb := head_not_mem hb
    rw [merge, if_neg hn1, if_neg hn2, mem_append, mem_keepIf, mem_singleton,
      ih ha.of_cons hb.of_cons]
    rcases eq_or_ne x a with rfl | hne
    · simp only [Kept, hna, hnb, mem_cons]; tauto
    · simp only [Kept, mem_cons, hne, false_or, and_false]

theorem mem_of_mem_merge (hx : x ∈ merge l r c as bs) : x ∈ as ∨ x ∈ bs := by
  rcases (mem_merge ha hb x).1 hx with h | h | h
  · exact Or.inl h.2.1
  · exact Or.inr h.2.1
  · exact Or.inl h.2.1

theorem merge_sorted : (merge l r c as bs).Pairwise (· < ·) := by
  induction as, bs using merge.induct with
  | case1 bs => rw [merge]; exact hb.sublist (keepIf_sublist _ _)
  | case2 as hne => rw [merge_nil_right]; exact ha.sublist (keepIf_sublist _ _)
  | case3 a as b bs hlt ih =>
    rw [merge, if_pos hlt]
    refine cons_sorted (ih ha hb.of_cons) fun x hx => ?_
    rcases mem_of_mem_merge ha hb.of_cons hx with h | h
    · rcases mem_cons.1 h with rfl | h
      · exact hlt
      · exact trans_of (· < ·) hlt ((pairwise_cons.1 ha).1 x h)
    · exact (pairwise_cons.1 hb).1 x h
  | case4 a as b bs hnlt hlt ih =>
    rw [merge, if_neg hnlt, if_pos hlt]
    refine cons_sorted (ih ha.of_cons hb) fun x hx => ?_
    rcases mem_of_mem_merge ha.of_cons hb hx with h | h
    · exact (pairwise_cons.1 ha).1 x h
    · rcases mem_cons.1 h with rfl | h
      · exact hlt
      · exact trans_of (· < ·) hlt ((pairwise_cons.1 hb).1 x h)
  | case5 a as b bs hn1 hn2 ih =>
    obtain rfl : a = b := eq_of_not_lt hn1 hn2
    rw [merge, if_neg hn1, if_neg hn2]
    refine cons_sorted (ih ha.of_cons hb.of_cons) fun x hx => ?_
    rcases mem_of_mem_merge ha.of_cons hb.of_cons hx with h | h
    · exact (pairwise_cons.1 ha).1 x h
    · exact (pairwise_cons.1 hb).1 x h

end SortedMerge
