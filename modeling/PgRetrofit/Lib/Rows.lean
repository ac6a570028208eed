import Mathlib.Tactic

/-! A list cut into rows of at most `cap` entries, all but the last full: how it grows at
its end, and how a search by key finds its row first. -/

open List

variable {α κ : Type*} {cap : ℕ}

structure Rows (cap : ℕ) (rows : List (List α)) : Prop where
  ne_nil : ∀ r ∈ rows, r ≠ []
  le : ∀ r ∈ rows, r.length ≤ cap
  full : ∀ r ∈ rows.dropLast, r.length = cap

namespace Rows

variable {rows pre post : List (List α)} {r : List α} {x : α} {j : ℕ}

theorem init (h : Rows cap (pre ++ [r])) : ∀ s ∈ pre, s ≠ [] ∧ s.length = cap :=
  fun s hs => ⟨h.ne_nil s (mem_append_left _ hs), h.full s (by rwa [dropLast_concat])⟩

theorem concat (hpre : ∀ s ∈ pre, s ≠ [] ∧ s.length = cap) (hne : r ≠ []) (hle : r.length ≤ cap) :
    Rows cap (pre ++ [r]) := by
  refine ⟨forall_mem_append.2 ⟨fun s hs => (hpre s hs).1, forall_mem_singleton.2 hne⟩,
    forall_mem_append.2 ⟨fun s hs => (hpre s hs).2.le, forall_mem_singleton.2 hle⟩, ?_⟩
  rw [dropLast_concat]
  exact fun s hs => (hpre s hs).2

theorem single (hcap : 0 < cap) (x : α) : Rows cap [[x]] :=
  concat (fun _ hs => absurd hs not_mem_nil) (cons_ne_nil _ _) hcap

theorem addLast (h : Rows cap (pre ++ [r])) (hroom : r.length < cap) (x : α) :
    Rows cap (pre ++ [r ++ [x]]) :=
  concat h.init (concat_ne_nil x r) (by rwa [length_append])

theorem newRow (h : Rows cap (pre ++ [r])) (hcap : 0 < cap) (hfull : ¬ r.length < cap) (x : α) :
    Rows cap (pre ++ [r] ++ [[x]]) := by
  have hr : r ∈ pre ++ [r] := mem_append_right _ (mem_singleton_self r)
  refine concat (forall_mem_append.2 ⟨h.init, forall_mem_singleton.2 ⟨h.ne_nil r hr, ?_⟩⟩)
    (cons_ne_nil _ _) hcap
  exact le_antisymm (h.le r hr) (Nat.le_of_not_lt hfull)

theorem length_flatten_before (h : Rows cap (pre ++ r :: post)) :
    pre.flatten.length = cap * pre.length := by
  have hfull : ∀ s ∈ pre, s.length = cap := by
    intro s hs
    refine h.full s ?_
    rw [dropLast_append_cons]
    exact mem_append_left _ hs
  rw [length_flatten, map_congr_left hfull, map_const', sum_replicate, Nat.nsmul_eq_mul, Nat.mul_comm]

theorem getElem_flatten (h : Rows cap rows) (hj : rows[j]? = some r) {i : ℕ} (hi : i < r.length) :
    rows.flatten[cap * j + i]? = r[i]? := by
  obtain ⟨hlt, rfl⟩ := List.getElem?_eq_some_iff.1 hj
  have hsplit : rows = rows.take j ++ rows[j] :: rows.drop (j + 1) := by
    rw [← drop_eq_getElem_cons hlt, take_append_drop]
  have hlen : (rows.take j).flatten.length = cap * j := by
    have := (hsplit ▸ h).length_flatten_before
    rwa [length_take, min_eq_left hlt.le] at this
  conv_lhs => rw [hsplit]
  rw [flatten_append, flatten_cons, getElem?_append_right (by omega), hlen, Nat.add_sub_cancel_left,
    getElem?_append_left hi]

theorem length_lt (h : Rows cap rows) (hne : rows ≠ []) :
    cap * (rows.length - 1) < rows.flatten.length := by
  obtain ⟨pre, r, rfl⟩ : ∃ pre r, rows = pre ++ [r] := ⟨_, _, (dropLast_append_getLast hne).symm⟩
  have hr := length_pos_of_ne_nil (h.ne_nil r (mem_append_right _ (mem_singleton_self r)))
  have hpre := h.length_flatten_before
  have hlen : (pre ++ [r]).length - 1 = pre.length := by
    rw [length_append, length_singleton, Nat.add_sub_cancel]
  rw [hlen, flatten_append, length_append, flatten_singleton]
  omega

end Rows

/-- the first keys of the rows -/
def heads (key : α → κ) (rows : List (List α)) : List κ := rows.filterMap fun r => r.head?.map key

variable (key : α → κ)
include key

theorem heads_append (rows rows' : List (List α)) :
    heads key (rows ++ rows') = heads key rows ++ heads key rows' := filterMap_append ..

theorem heads_addLast (pre : List (List α)) {r : List α} (hr : r ≠ []) (x : α) :
    heads key (pre ++ [r ++ [x]]) = heads key (pre ++ [r]) := by
  obtain ⟨a, rest, rfl⟩ := exists_cons_of_ne_nil hr
  rw [heads_append, heads_append]
  rfl

theorem heads_sublist (rows : List (List α)) : (heads key rows).Sublist (rows.flatten.map key) := by
  induction rows with
  | nil => exact List.Sublist.refl _
  | cons r rows ih =>
    rw [flatten_cons, map_append]
    cases r with
    | nil => exact ih
    | cons a r => exact (ih.trans (sublist_append_right ..)).cons_cons (key a)

theorem length_heads {rows : List (List α)} (h : ∀ r ∈ rows, r ≠ []) :
    (heads key rows).length = rows.length := by
  induction rows with
  | nil => rfl
  | cons r rows ih =>
    obtain ⟨a, r', rfl⟩ := exists_cons_of_ne_nil (h r (mem_cons_self ..))
    exact congrArg (· + 1) (ih fun s hs => h s (mem_cons_of_mem _ hs))

omit key

theorem heads_map {μ : Type*} (f : κ → μ) (key : α → κ) (rows : List (List α)) :
    heads (fun a => f (key a)) rows = (heads key rows).map f := by
  rw [heads, heads, map_filterMap]
  congr 1
  funext r
  cases r <;> rfl

/-- If `p` holds up to some entry only, the entries with `p` come first. -/
theorem countP_split {p : α → Bool} {l : List α} (hl : l.Pairwise fun a b => p b → p a) :
    (∀ v ∈ l.take (l.countP p), p v) ∧ ∀ v ∈ l.drop (l.countP p), p v = false := by
  induction l with
  | nil => simp
  | cons a l ih => ?_
  obtain ⟨ha, hl'⟩ := pairwise_cons.1 hl
  cases hp : p a with
  | true =>
    rw [countP_cons_of_pos hp, take_succ_cons]
    exact ⟨forall_mem_cons.2 ⟨hp, (ih hl').1⟩, (ih hl').2⟩
  | false => ?_
  have hnone : ∀ v ∈ a :: l, p v = false := by
    refine forall_mem_cons.2 ⟨hp, fun v hv => ?_⟩
    by_contra hv'
    rw [ha v hv (by simpa using hv')] at hp
    cases hp
  rw [countP_eq_zero.2 fun v hv => by simp [hnone v hv], take_zero]
  exact ⟨fun v hv => absurd hv not_mem_nil, hnone⟩

section Search

variable [LinearOrder κ] {key : α → κ} {rows : List (List α)} {l : List κ} {x : κ} {j : ℕ}

theorem countP_le_split (hl : l.Pairwise (· < ·)) (x : κ) :
    (∀ v ∈ l.take (l.countP (· ≤ x)), v ≤ x) ∧ ∀ v ∈ l.drop (l.countP (· ≤ x)), x < v := by
  have := countP_split (p := fun v => decide (v ≤ x)) (hl.imp fun hab => by simpa using hab.le.trans)
  simpa using this

theorem countP_le_all (h : ∀ v ∈ l, v ≤ x) : l.countP (· ≤ x) = l.length :=
  countP_eq_length.2 fun v hv => by simpa using h v hv

theorem countP_le_none (h : ∀ v ∈ l, x < v) : l.countP (· ≤ x) = 0 :=
  countP_eq_zero.2 fun v hv => by simpa using h v hv

theorem exists_head_le (hs : (rows.flatten.map key).Pairwise (· < ·)) {v : κ}
    (hv : v ∈ rows.flatten.map key) :
    ∃ w ∈ heads key rows, w ≤ v := by
  induction rows with
  | nil => exact absurd hv not_mem_nil
  | cons r rows ih => ?_
  cases r with
  | nil => exact ih hs hv
  | cons a r =>
    refine ⟨key a, mem_cons_self .., ?_⟩
    rcases mem_cons.1 hv with rfl | hv
    · exact le_rfl
    · exact ((pairwise_cons.1 hs).1 v hv).le

/-- The row of an entry starts with a key up to its own; the order is that of `f`. -/
theorem exists_head_image_le {μ : Type*} (key : α → μ) (f : μ → κ)
    (hs : (rows.flatten.map fun a => f (key a)).Pairwise (· < ·)) {a : α} (ha : a ∈ rows.flatten) :
    ∃ w ∈ heads key rows, f w ≤ f (key a) := by
  obtain ⟨v, hv, hle⟩ := exists_head_le hs (mem_map_of_mem ha)
  rw [heads_map f key] at hv
  obtain ⟨w, hw, rfl⟩ := mem_map.1 hv
  exact ⟨w, hw, hle⟩

/-- The entries up to `x` end in the last row whose first key is not beyond `x`. -/
theorem Rows.count_eq (h : Rows cap rows) (hs : (rows.flatten.map key).Pairwise (· < ·))
    (hj : (heads key rows).countP (· ≤ x) = j + 1) :
    ∃ r, rows[j]? = some r ∧ 0 < (r.map key).countP (· ≤ x) ∧
      (rows.flatten.map key).countP (· ≤ x) = cap * j + (r.map key).countP (· ≤ x) := by
  have hlen : j < rows.length := by
    have := countP_le_length (p := fun v => decide (v ≤ x)) (l := heads key rows)
    rw [hj, length_heads key h.ne_nil] at this
    exact this
  obtain ⟨pre, r, post, rfl, rfl⟩ : ∃ pre r post, rows = pre ++ r :: post ∧ pre.length = j :=
    ⟨rows.take j, rows[j], rows.drop (j + 1), by rw [← drop_eq_getElem_cons hlen, take_append_drop],
      by rw [length_take]; omega⟩
  obtain ⟨a, r, rfl⟩ := exists_cons_of_ne_nil (h.ne_nil r (mem_append_right _ (mem_cons_self ..)))
  have hpre : (heads key pre).length = pre.length :=
    length_heads key fun s hs => h.ne_nil s (mem_append_left _ hs)
  have hheads : heads key (pre ++ (a :: r) :: post) = heads key pre ++ key a :: heads key post :=
    heads_append ..
  -- the first key of the row is not beyond `x`, those of later rows are
  obtain ⟨hle, hgt⟩ := countP_le_split (hs.sublist (heads_sublist key _)) x
  rw [hj, hheads, ← hpre] at hle hgt
  have hax : key a ≤ x := hle _ (by rw [take_append]; simp)
  have hpost : ∀ v ∈ heads key post, x < v := fun v hv => hgt v (by simp [hv])
  rw [flatten_append, flatten_cons, map_append, map_append] at hs
  obtain ⟨-, hrest, hbefore⟩ := pairwise_append.1 hs
  obtain ⟨-, hafter, -⟩ := pairwise_append.1 hrest
  refine ⟨a :: r, by simp, ?_, ?_⟩
  · rw [map_cons, countP_cons_of_pos (by simpa using hax)]
    exact Nat.succ_pos _
  have hall : ∀ v ∈ pre.flatten.map key, v ≤ x := fun v hv =>
    (hbefore v hv (key a) (mem_append_left _ (mem_cons_self ..))).le.trans hax
  have hnone : ∀ v ∈ post.flatten.map key, x < v := by
    intro v hv
    obtain ⟨w, hw, hwv⟩ := exists_head_le hafter hv
    exact (hpost w hw).trans_le hwv
  rw [flatten_append, flatten_cons, map_append, map_append, countP_append, countP_append,
    countP_le_all hall, countP_le_none hnone, length_map, h.length_flatten_before, Nat.add_zero]

/-- The last entry up to `x`, in its row and in the whole list. -/
theorem Rows.search (h : Rows cap rows) (key : α → κ) (hs : (rows.flatten.map key).Pairwise (· < ·))
    (hj : (heads key rows).countP (· ≤ x) = j + 1) :
    ∃ r c a, rows[j]? = some r ∧ (r.map key).countP (· ≤ x) = c + 1 ∧ r[c]? = some a ∧
      rows.flatten[cap * j + c]? = some a ∧ (rows.flatten.map key).countP (· ≤ x) = cap * j + c + 1 := by
  obtain ⟨r, hr, hpos, hcount⟩ := h.count_eq hs hj
  obtain ⟨c, hc⟩ : ∃ c, (r.map key).countP (· ≤ x) = c + 1 := ⟨_, (Nat.succ_pred_eq_of_pos hpos).symm⟩
  have hlt : c < r.length := by
    have := countP_le_length (p := fun v => decide (v ≤ x)) (l := r.map key)
    rwa [hc, length_map] at this
  have hget := getElem?_eq_getElem hlt
  exact ⟨r, c, r[c], hr, hc, hget, (h.getElem_flatten hr hlt).trans hget, by rw [hcount, hc]; rfl⟩

end Search
