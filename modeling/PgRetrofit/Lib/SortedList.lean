import PgRetrofit.Lib.Comparator

/-! Lists in strictly ascending order of a comparison function, as finite maps: a key is
compared with the entries, and an entry equal to an inserted one is combined with it. -/

namespace SortedList

open List

variable {α : Type*} {cmp : α → α → ℤ} {combine : α → α → α} {v e x y z : α} {l l₁ l₂ : List α}

abbrev Total (cmp : α → α → ℤ) : Prop := CmpOrder cmp fun _ => True

variable (h : Total cmp)
include h

theorem Total.le_lt (hxy : cmp x y ≤ 0) (hyz : cmp y z < 0) : cmp x z < 0 := by
  by_contra hxz
  have hzx := (h.flip trivial trivial).2 (not_lt.1 hxz)
  have hzy := h.trans trivial trivial trivial hzx hxy
  exact absurd ((h.flip trivial trivial).1 hzy) (not_le.2 hyz)

theorem Total.lt_le (hxy : cmp x y < 0) (hyz : cmp y z ≤ 0) : cmp x z < 0 := by
  by_contra hxz
  have hzx := (h.flip trivial trivial).2 (not_lt.1 hxz)
  have hyx := h.trans trivial trivial trivial hyz hzx
  exact absurd ((h.flip trivial trivial).1 hyx) (not_le.2 hxy)

theorem Total.gt_iff : 0 < cmp x y ↔ cmp y x < 0 := h.flip_pos trivial trivial

theorem Total.eq_symm (hxy : cmp x y = 0) : cmp y x = 0 := by
  have h1 : 0 ≤ cmp y x := (h.flip trivial trivial).1 hxy.le
  have h2 : cmp y x ≤ 0 := (h.flip trivial trivial).2 hxy.ge
  exact le_antisymm h2 h1

omit h

abbrev Sorted (cmp : α → α → ℤ) (l : List α) : Prop := l.Pairwise fun x y => cmp x y < 0

def insert (cmp : α → α → ℤ) (combine : α → α → α) (v : α) : List α → List α
  | [] => [v]
  | e :: l => if cmp v e < 0 then v :: e :: l else if cmp v e = 0 then combine e v :: l
      else e :: insert cmp combine v l

def remove (cmp : α → α → ℤ) (v : α) (l : List α) : List α := l.filter fun e => cmp v e ≠ 0

/-- `v` comes after the first part and before the second. -/
def Between (cmp : α → α → ℤ) (v : α) (l₁ l₂ : List α) : Prop :=
  (∀ a ∈ l₁, 0 < cmp v a) ∧ ∀ b ∈ l₂, cmp v b < 0

theorem insert_append (h : ∀ a ∈ l₁, 0 < cmp v a) (l₂ : List α) :
    insert cmp combine v (l₁ ++ l₂) = l₁ ++ insert cmp combine v l₂ := by
  induction l₁ with
  | nil => rfl
  | cons a l₁ ih =>
    have ha := h a mem_cons_self
    rw [cons_append, insert, if_neg (not_lt.2 ha.le), if_neg ha.ne',
      ih fun b hb => h b (mem_cons_of_mem _ hb)]
    rfl

theorem insert_new (h : Between cmp v l₁ l₂) : insert cmp combine v (l₁ ++ l₂) = l₁ ++ v :: l₂ := by
  rw [insert_append h.1]
  cases l₂ with
  | nil => rfl
  | cons b l₂ => rw [insert, if_pos (h.2 b mem_cons_self)]

theorem insert_found (h : ∀ a ∈ l₁, 0 < cmp v a) (he : cmp v e = 0) :
    insert cmp combine v (l₁ ++ e :: l₂) = l₁ ++ combine e v :: l₂ := by
  rw [insert_append h, insert, if_neg he.not_lt, if_pos he]

theorem Between.cmp_ne (h : Between cmp v l₁ l₂) : ∀ e ∈ l₁ ++ l₂, cmp v e ≠ 0 := by
  intro e he
  rcases mem_append.1 he with he | he
  · exact (h.1 e he).ne'
  · exact (h.2 e he).ne

theorem remove_absent (h : ∀ e ∈ l, cmp v e ≠ 0) : remove cmp v l = l :=
  filter_eq_self.2 fun e he => decide_eq_true (h e he)

theorem remove_found (h : Between cmp v l₁ l₂) (he : cmp v e = 0) :
    remove cmp v (l₁ ++ e :: l₂) = l₁ ++ l₂ := by
  have h₁ := remove_absent fun a ha => (h.1 a ha).ne'
  have h₂ := remove_absent fun b hb => (h.2 b hb).ne
  unfold remove at h₁ h₂ ⊢
  rw [filter_append, filter_cons_of_neg (by simp [he]), h₁, h₂]

/-- An entry equal to `v` leaves `v` between the others. -/
theorem Sorted.between (ho : Total cmp) (h : Sorted cmp (l₁ ++ e :: l₂)) (he : cmp v e = 0) :
    Between cmp v l₁ l₂ := by
  obtain ⟨-, h₂, hcross⟩ := pairwise_append.1 h
  refine ⟨fun a ha => ?_, fun b hb => ?_⟩
  · exact ho.gt_iff.2 (ho.lt_le (hcross a ha e mem_cons_self) (ho.eq_symm he).le)
  · exact ho.le_lt he.le ((pairwise_cons.1 h₂).1 b hb)

theorem sorted_new (ho : Total cmp) (h : Sorted cmp (l₁ ++ l₂)) (hv : Between cmp v l₁ l₂) :
    Sorted cmp (l₁ ++ v :: l₂) := by
  obtain ⟨h₁, h₂, hcross⟩ := pairwise_append.1 h
  refine pairwise_append.2 ⟨h₁, pairwise_cons.2 ⟨hv.2, h₂⟩, fun a ha b hb => ?_⟩
  rcases mem_cons.1 hb with rfl | hb
  · exact ho.gt_iff.1 (hv.1 a ha)
  · exact hcross a ha b hb

theorem sorted_without (h : Sorted cmp (l₁ ++ e :: l₂)) : Sorted cmp (l₁ ++ l₂) :=
  List.Pairwise.sublist ((sublist_cons_self e l₂).append_left l₁) h

end SortedList
