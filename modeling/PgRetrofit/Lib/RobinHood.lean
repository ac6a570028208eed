import Mathlib.Tactic

/-! Open addressing on a ring of `n` slots. Every entry has a home slot; a table is
ordered if going one slot on never moves more than one further from home. Inserting and
removing by shifting a run keep the order, and so does copying a table in ring order
into one of twice the size. -/

namespace RobinHood

open Function Finset Multiset Nat

variable {β : Type*} {n p c j h i e : ℕ} {home : β → ℕ} {data data' : ℕ → Option β}

/-- how far slot `p` is behind slot `h` -/
def offset (n h p : ℕ) : ℕ := if h ≤ p then p - h else n + p - h

variable (hh : h < n)
include hh

theorem offset_lt (hp : p < n) : offset n h p < n := by
  unfold offset
  split_ifs <;> omega

theorem add_offset (hp : p < n) : (h + offset n h p) % n = p := by
  unfold offset
  split_ifs with hle
  · rw [Nat.add_sub_cancel' hle, Nat.mod_eq_of_lt hp]
  · rw [Nat.add_sub_cancel' (by omega), Nat.add_mod_left, Nat.mod_eq_of_lt hp]

theorem offset_add (hj : j < n) : offset n h ((h + j) % n) = j := by
  rcases lt_or_ge (h + j) n with hlt | hge
  · rw [mod_eq_of_lt hlt, offset, if_pos (by omega)]
    omega
  · rw [mod_eq_sub_mod hge, mod_eq_of_lt (by omega), offset, if_neg (by omega)]
    omega

theorem offset_succ : offset n h ((i + 1) % n) = (offset n h (i % n) + 1) % n := by
  have hi : i % n < n := mod_lt _ (by omega)
  have hj : (offset n h (i % n) + 1) % n < n := mod_lt _ (by omega)
  have : (i + 1) % n = (h + (offset n h (i % n) + 1) % n) % n := by
    conv_lhs => rw [add_mod, ← add_offset hh hi]
    rw [← add_mod, add_assoc, add_mod h, add_mod h ((offset n h (i % n) + 1) % n), mod_mod]
  rw [this, offset_add hh hj]

omit hh

theorem slot_ne (hij : i < j) (hj : j < n) : (c + i) % n ≠ (c + j) % n := by
  intro h
  have := Nat.ModEq.add_left_cancel' c h
  rw [Nat.ModEq, mod_eq_of_lt (hij.trans hj), mod_eq_of_lt hj] at this
  omega

theorem slot_ne_start (hc : c < n) (h0 : 0 < j) (hj : j < n) : (c + j) % n ≠ c := by
  have := slot_ne (c := c) h0 hj
  rw [add_zero, mod_eq_of_lt hc] at this
  exact this.symm

theorem first_empty (he : e < n) (hnone : data e = none) (c : ℕ) :
    ∃ m < n, (∀ j < m, data ((c + j) % n) ≠ none) ∧ data ((c + m) % n) = none := by
  classical
  have hat : (c + offset n (c % n) e) % n = e := by
    rw [← mod_add_mod, add_offset (mod_lt _ (by omega)) he]
  have hex : ∃ m, data ((c + m) % n) = none := ⟨offset n (c % n) e, by rw [hat, hnone]⟩
  refine ⟨Nat.find hex, ?_, fun j hj => Nat.find_min hex hj, Nat.find_spec hex⟩
  exact (Nat.find_min' hex (by rw [hat, hnone])).trans_lt (offset_lt (Nat.mod_lt _ (by omega)) he)

variable (n home) in
/-- 0 for an empty slot, else one more than the distance of its entry from home -/
def level (data : ℕ → Option β) (i : ℕ) : ℕ :=
  match data (i % n) with
  | none => 0
  | some b => offset n (home b) (i % n) + 1

variable (n home) in
def Ordered (data : ℕ → Option β) : Prop := ∀ i, level n home data (i + 1) ≤ level n home data i + 1

variable {i : ℕ}

theorem level_none (h : data (i % n) = none) : level n home data i = 0 := by
  rw [level, h]

variable {b : β}

theorem level_some (h : data (i % n) = some b) :
    level n home data i = offset n (home b) (i % n) + 1 := by
  rw [level, h]

theorem level_pos (h : 0 < level n home data i) : ∃ b, data (i % n) = some b := by
  cases hd : data (i % n) with
  | none => rw [level_none hd] at h; exact absurd h (lt_irrefl 0)
  | some b => exact ⟨b, rfl⟩

theorem level_congr (h : data' (i % n) = data (j % n)) (hij : i % n = j % n) :
    level n home data' i = level n home data j := by
  unfold level
  rw [h, hij]

theorem Ordered.le_add (h : Ordered n home data) (i j : ℕ) :
    level n home data (i + j) ≤ level n home data i + j := by
  induction j with
  | zero => exact le_rfl
  | succ j ih => exact (h (i + j)).trans (succ_le_succ ih)

/-- It is enough to look at each slot once, from any slot on. -/
theorem Ordered.of_from (hc : c < n)
    (h : ∀ j < n, level n home data (c + j + 1) ≤ level n home data (c + j) + 1) :
    Ordered n home data := by
  intro i
  have hi : i % n < n := mod_lt _ (by omega)
  have hmod : (c + offset n c (i % n)) % n = i % n := add_offset hc hi
  have hsucc : (c + offset n c (i % n) + 1) % n = (i + 1) % n := by rw [add_mod, hmod, ← add_mod]
  have := h _ (offset_lt hc hi)
  rwa [level_congr (congrArg data hsucc) hsucc, level_congr (congrArg data hmod) hmod] at this

theorem Ordered.level_lt (h : Ordered n home data) (he : e < n) (hnone : data e = none) (i : ℕ) :
    level n home data i < n := by
  have hi : i % n < n := mod_lt _ (by omega)
  have hmod : (e + offset n e (i % n)) % n = i % n := add_offset he hi
  have h0 : level n home data e = 0 := level_none (by rw [mod_eq_of_lt he, hnone])
  have hle := h.le_add e (offset n e (i % n))
  rw [level_congr (congrArg data hmod) hmod, h0, zero_add] at hle
  exact hle.trans_lt (offset_lt he hi)

/-- `data'` is `data` with `b` put into slot `c` and the `m` entries from there on moved
one slot on, the last into an empty slot. -/
structure Inserted (n : ℕ) (data data' : ℕ → Option β) (c m : ℕ) (b : β) : Prop where
  c_lt : c < n
  m_lt : m < n
  full : ∀ j < m, data ((c + j) % n) ≠ none
  free : data ((c + m) % n) = none
  head : data' c = some b
  moved : ∀ j < m, data' ((c + j + 1) % n) = data ((c + j) % n)
  kept : ∀ j, m < j → j < n → data' ((c + j) % n) = data ((c + j) % n)

theorem inserted_update (hp : p < n) (hnone : data p = none) (b : β) :
    Inserted n data (update data p (some b)) p 0 b where
  c_lt := hp
  m_lt := zero_lt_of_lt hp
  full j hj := absurd hj (not_lt_zero j)
  free := by rw [add_zero, mod_eq_of_lt hp, hnone]
  head := update_self ..
  moved j hj := absurd hj (not_lt_zero j)
  kept j hj0 hj := update_of_ne (slot_ne_start hp hj0 hj) ..

/-- `data'` is `data` without the entry in slot `c`, the `m` entries after it moved one
slot back. -/
structure Removed (n : ℕ) (data data' : ℕ → Option β) (c m : ℕ) (b : β) : Prop where
  c_lt : c < n
  m_lt : m + 1 < n
  head : data c = some b
  moved : ∀ j < m, data' ((c + j) % n) = data ((c + j + 1) % n)
  hole : data' ((c + m) % n) = none
  kept : ∀ j, m < j → j < n → data' ((c + j) % n) = data ((c + j) % n)

section Homes

variable (hhome : ∀ b, home b < n)
include hhome

/-- From its home up to its slot an entry has only slots in use, each with an entry at
least as far from home. -/
theorem Ordered.reach (h : Ordered n home data) (hp : p < n) (hb : data p = some b)
    (hj : j ≤ offset n (home b) p) : j + 1 ≤ level n home data (home b + j) := by
  have hmod : (home b + offset n (home b) p) % n = p := add_offset (hhome b) hp
  have hlev : level n home data (home b + offset n (home b) p) = offset n (home b) p + 1 := by
    rw [level_some (by rw [hmod, hb]), hmod]
  have := h.le_add (home b + j) (offset n (home b) p - j)
  rw [Nat.add_assoc, Nat.add_sub_cancel' hj] at this
  omega

theorem level_moved_on (hmove : data' ((i + 1) % n) = data (i % n)) (hin : 0 < level n home data i)
    (hlt : level n home data i < n) : level n home data' (i + 1) = level n home data i + 1 := by
  obtain ⟨b, hb⟩ := level_pos hin
  rw [level_some hb] at hlt ⊢
  rw [level_some (hmove.trans hb), offset_succ (hhome b), mod_eq_of_lt hlt]

/-- An entry away from home that is moved one slot back is one closer. -/
theorem level_moved_back (hmove : data' (i % n) = data ((i + 1) % n))
    (hin : 1 < level n home data (i + 1)) : level n home data' i + 1 = level n home data (i + 1) := by
  obtain ⟨b, hb⟩ := level_pos (by omega : 0 < level n home data (i + 1))
  have hlt : offset n (home b) (i % n) < n :=
    offset_lt (hhome b) (mod_lt _ ((hhome b).trans_le' (zero_le _)))
  rw [level_some hb, offset_succ (hhome b)] at hin ⊢
  rw [level_some (hmove.trans hb)]
  rcases lt_or_ge (offset n (home b) (i % n) + 1) n with hs | hs
  · rw [mod_eq_of_lt hs]
  · rw [show offset n (home b) (i % n) + 1 = n by omega, mod_self] at hin
    omega

variable {m : ℕ}

/-- The order is kept if the entries passed on the way from home are at least as far from
theirs, and the entry that gives way is not further. -/
theorem Ordered.inserted (h : Ordered n home data) {d : ℕ} (hd : d < n)
    (hins : Inserted n data data' ((home b + d) % n) m b)
    (hprobe : ∀ j < d, j + 1 ≤ level n home data (home b + j))
    (hfront : m = 0 ∨ level n home data (home b + d) ≤ d) : Ordered n home data' := by
  have hoff : offset n (home b) ((home b + d) % n) = d := offset_add (hhome b) hd
  have hback : ∀ i, (i + 1) % n = (home b + d) % n → d ≤ level n home data i := by
    intro i hi
    cases d with
    | zero => exact zero_le _
    | succ d =>
      have hi' : i % n = (home b + d) % n := Nat.ModEq.add_right_cancel' 1 hi
      rw [level_congr (congrArg data hi') hi']
      exact hprobe d (lt_succ_self d)
  have hlev : level n home data (home b + d) = level n home data ((home b + d) % n) :=
    level_congr (by rw [mod_mod]) (mod_mod _ _).symm
  rw [hlev] at hfront
  generalize (home b + d) % n = c at *
  have hc := hins.c_lt
  have hcmod : c % n = c := mod_eq_of_lt hc
  have hhead : level n home data' c = d + 1 := by
    rw [level_some (by rw [hcmod, hins.head]), hcmod, hoff]
  have hfree : level n home data (c + m) = 0 := level_none hins.free
  have hmoved : ∀ j < m, level n home data' (c + j + 1) = level n home data (c + j) + 1 := by
    intro j hj
    refine level_moved_on hhome (hins.moved j hj) ?_ (h.level_lt (mod_lt _ (by omega)) hins.free _)
    obtain ⟨e, he⟩ := Option.ne_none_iff_exists'.1 (hins.full j hj)
    rw [level_some he]
    exact succ_pos _
  have hkept : ∀ j, m < j → j < n → level n home data' (c + j) = level n home data (c + j) :=
    fun j hm hj => level_congr (hins.kept j hm hj) rfl
  have hround : level n home data' (c + n) = level n home data' c :=
    level_congr (by rw [add_mod_right]) (add_mod_right c n)
  refine .of_from hc fun j hj => ?_
  rcases lt_or_ge (j + 1) n with hj1 | hj1
  · rcases lt_trichotomy j m with hlt | rfl | hgt
    · rw [hmoved j hlt]
      cases j with
      | zero =>
        change level n home data c + 1 ≤ level n home data' c + 1
        rw [hhead]
        exact succ_le_succ ((hfront.resolve_left (by omega)).trans (le_succ _))
      | succ j =>
        rw [← add_assoc, hmoved j (by omega)]
        exact succ_le_succ (h (c + j))
    · rw [add_assoc, hkept (j + 1) (by omega) hj1]
      exact (h (c + j)).trans (by rw [hfree]; exact succ_le_succ (zero_le _))
    · rw [hkept j hgt hj, add_assoc, hkept (j + 1) (by omega) hj1]
      exact h (c + j)
  -- round the ring, from the slot before `c`
  obtain rfl : j = n - 1 := by omega
  have hlast : c + (n - 1) + 1 = c + n := by omega
  have hprev := hback (c + (n - 1)) (by rw [hlast, add_mod_right, hcmod])
  rw [hlast, hround, hhead]
  rcases lt_or_ge m (n - 1) with hm | hm
  · rw [hkept (n - 1) hm hj]
    exact succ_le_succ hprev
  · obtain rfl : m = n - 1 := by have := hins.m_lt; omega
    rw [hfree] at hprev
    exact succ_le_succ (hprev.trans (zero_le _))

/-- The order is kept if the moved entries are away from home and the next one is not. -/
theorem Ordered.removed (h : Ordered n home data) (hrem : Removed n data data' c m b)
    (haway : ∀ j < m, 1 < level n home data (c + j + 1)) (hstop : level n home data (c + m + 1) ≤ 1) :
    Ordered n home data' := by
  have hc := hrem.c_lt
  have hmoved : ∀ j < m, level n home data' (c + j) + 1 = level n home data (c + j + 1) :=
    fun j hj => level_moved_back hhome (hrem.moved j hj) (haway j hj)
  have hhole : level n home data' (c + m) = 0 := level_none hrem.hole
  have hkept : ∀ j, m < j → j < n → level n home data' (c + j) = level n home data (c + j) :=
    fun j hm hj => level_congr (hrem.kept j hm hj) rfl
  refine .of_from hc fun j hj => ?_
  rcases lt_or_ge (j + 1) n with hj1 | hj1
  · rcases lt_trichotomy j m with hlt | rfl | hgt
    · rcases lt_or_ge (j + 1) m with hlt' | hge
      · have h1 := hmoved j hlt
        have h2 := hmoved (j + 1) hlt'
        have h3 := h (c + j + 1)
        rw [← add_assoc] at h2
        omega
      · obtain rfl : m = j + 1 := by omega
        rw [add_assoc, hhole]
        exact zero_le _
    · rw [hhole, add_assoc, hkept (j + 1) (by omega) hj1]
      exact hstop
    · rw [hkept j hgt hj, add_assoc, hkept (j + 1) (by omega) hj1]
      exact h (c + j)
  -- round the ring: the slot before `c` is not touched
  obtain rfl : j = n - 1 := by omega
  have hround : ∀ d : ℕ → Option β, level n home d (c + n) = level n home d c :=
    fun d => level_congr (by rw [add_mod_right]) (add_mod_right c n)
  have hlast : c + (n - 1) + 1 = c + n := by omega
  have hprev := h (c + (n - 1))
  rw [hlast, hround] at hprev ⊢
  rw [hkept (n - 1) (by have := hrem.m_lt; omega) hj]
  rcases Nat.eq_zero_or_pos m with rfl | hm
  · rw [add_zero] at hhole
    rw [hhole]
    exact zero_le _
  · have h1 : level n home data' c + 1 = level n home data (c + 1) := hmoved 0 hm
    have h2 := h c
    omega

end Homes

def cell (o : Option β) : Multiset β := o.elim 0 fun b => {b}

def contents (n : ℕ) (data : ℕ → Option β) : Multiset β := ∑ p ∈ Finset.range n, cell (data p)

theorem mem_cell {o : Option β} : b ∈ cell o ↔ o = some b := by
  cases o <;> simp [cell, eq_comm]

theorem mem_contents : b ∈ contents n data ↔ ∃ p < n, data p = some b := by
  rw [contents, mem_sum]
  simp only [Finset.mem_range, mem_cell]

theorem card_contents :
    (contents n data).card = ((Finset.range n).filter fun p => (data p).isSome).card := by
  rw [contents, card_sum, card_filter]
  refine sum_congr rfl fun p _ => ?_
  cases data p <;> simp [cell]

variable {q m : ℕ}

/-- Slots with the same key are the same slot, if no key is there twice. -/
theorem slot_unique {κ : Type*} {key : β → κ} (hkeys : ((contents n data).map key).Nodup) (hp : p < n)
    (hq : q < n) {b c : β} (hb : data p = some b) (hc : data q = some c)
    (hkey : key b = key c) : p = q := by
  by_contra hne
  have hle : ({b} + {c} : Multiset β) ≤ contents n data := by
    have hsub : ({p, q} : Finset ℕ) ⊆ range n := by
      intro x hx
      rcases mem_insert.1 hx with rfl | hx
      · exact Finset.mem_range.2 hp
      · exact Finset.mem_range.2 (Finset.mem_singleton.1 hx ▸ hq)
    have := sum_le_sum_of_subset (f := fun p => cell (data p)) hsub
    rwa [Finset.sum_pair hne, hb, hc] at this
  have := nodup_of_le (map_le_map hle) hkeys
  simp [hkey] at this

theorem contents_from (hc : c < n) :
    contents n data = ∑ j ∈ Finset.range n, cell (data ((c + j) % n)) := by
  refine sum_nbij' (fun p => offset n c p) (fun j => (c + j) % n) ?_ ?_ ?_ ?_ ?_
  · intro p hp
    exact Finset.mem_range.2 (offset_lt hc (Finset.mem_range.1 hp))
  · intro j _
    exact Finset.mem_range.2 (Nat.mod_lt _ (by omega))
  · intro p hp
    exact add_offset hc (Finset.mem_range.1 hp)
  · intro j hj
    exact offset_add hc (Finset.mem_range.1 hj)
  · intro p hp
    rw [add_offset hc (Finset.mem_range.1 hp)]

/-- The sum over a row does not change when its first `m` terms move one place on, over
a zero, but for the term that enters. -/
theorem sum_range_shift {M : Type*} [AddCommMonoid M] {f g : ℕ → M} (hm : m < n)
    (hmoved : ∀ j < m, g (j + 1) = f j) (hzero : f m = 0) (hkept : ∀ j, m < j → j < n → g j = f j) :
    ∑ j ∈ Finset.range n, g j = g 0 + ∑ j ∈ Finset.range n, f j := by
  obtain ⟨k, rfl⟩ : ∃ k, n = m + 1 + k := ⟨n - (m + 1), by omega⟩
  have hrest : ∑ j ∈ range k, g (m + 1 + j) = ∑ j ∈ range k, f (m + 1 + j) :=
    Finset.sum_congr rfl fun j hj => hkept _ (by omega) (by have := Finset.mem_range.1 hj; omega)
  have hrun : ∑ j ∈ range m, g (j + 1) = ∑ j ∈ range m, f j :=
    Finset.sum_congr rfl fun j hj => hmoved j (Finset.mem_range.1 hj)
  rw [sum_range_add g (m + 1) k, sum_range_add f (m + 1) k, sum_range_succ' g m,
    sum_range_succ f m, hzero, add_zero, hrest, hrun, add_comm _ (g 0), add_assoc]

theorem Inserted.contents_eq (h : Inserted n data data' c m b) :
    contents n data' = b ::ₘ contents n data := by
  have hhead : cell (data' ((c + 0) % n)) = {b} := by
    rw [add_zero, mod_eq_of_lt h.c_lt, h.head]
    rfl
  rw [contents_from h.c_lt, contents_from h.c_lt, ← singleton_add, ← hhead]
  refine sum_range_shift h.m_lt (fun j hj => ?_) ?_ fun j hm hj => ?_
  · rw [← add_assoc, h.moved j hj]
  · rw [h.free]
    rfl
  · rw [h.kept j hm hj]

theorem Removed.contents_eq (h : Removed n data data' c m b) :
    contents n data = b ::ₘ contents n data' := by
  have hhead : cell (data ((c + 0) % n)) = {b} := by
    rw [add_zero, mod_eq_of_lt h.c_lt, h.head]
    rfl
  rw [contents_from h.c_lt, contents_from h.c_lt, ← singleton_add, ← hhead]
  refine sum_range_shift (m := m) (by have := h.m_lt; omega) (fun j hj => ?_) ?_ fun j hm hj => ?_
  · rw [← add_assoc, h.moved j hj]
  · rw [h.hole]
    rfl
  · rw [h.kept j hm hj]

/-- `new` holds the entries of the first `t` slots of `old`, from slot `start` on. -/
structure Copied (n : ℕ) (home' : β → ℕ) (old new : ℕ → Option β) (start t : ℕ) : Prop where
  ordered : Ordered (2 * n) home' new
  source : ∀ p < 2 * n, ∀ b, new p = some b → ∃ q < t, old ((start + q) % n) = some b
  /-- what lies ahead in either half of the new ring is empty -/
  ahead : ∀ q, t ≤ q → q < n → ∀ half < 2, new ((start + q + half * n) % (2 * n)) = none
  contents_eq : contents (2 * n) new = ∑ q ∈ Finset.range t, cell (old ((start + q) % n))

variable {home' : β → ℕ} {old new : ℕ → Option β} {start t : ℕ}

theorem copied_empty : Copied n home' old (fun _ => none) start 0 where
  ordered i := zero_le _
  source p _ b h := by cases h
  ahead _ _ _ _ _ := rfl
  contents_eq := sum_eq_zero fun _ _ => rfl

theorem Copied.skip (h : Copied n home' old new start t) (hnone : old ((start + t) % n) = none) :
    Copied n home' old new start (t + 1) where
  ordered := h.ordered
  source p hp b hb := by
    obtain ⟨q, hq, ho⟩ := h.source p hp b hb
    exact ⟨q, lt_succ_of_lt hq, ho⟩
  ahead q hq := h.ahead q (le_of_succ_le hq)
  contents_eq := by
    rw [sum_range_succ, hnone, h.contents_eq]
    exact (add_zero _).symm

theorem mod_of_lt_two {a : ℕ} (ha : a < 2 * n) : a % n = if a < n then a else a - n := by
  split_ifs with h
  · exact mod_eq_of_lt h
  · rw [Nat.mod_eq_sub_mod (Nat.le_of_not_lt h), Nat.mod_eq_of_lt (by omega)]

theorem exists_half {a s : ℕ} (ha : a < 2 * n) (hs : s < 2 * n) (h : a % n = s % n) :
    ∃ half < 2, a = (s + half * n) % (2 * n) := by
  rw [mod_of_lt_two ha, mod_of_lt_two hs] at h
  by_cases has : a = s
  · exact ⟨0, by omega, by rw [zero_mul, add_zero, mod_eq_of_lt hs, has]⟩
  refine ⟨1, by omega, ?_⟩
  rcases lt_or_ge s n with hlt | hge
  · rw [mod_eq_of_lt (by omega)]
    split_ifs at h <;> omega
  · rw [mod_eq_sub_mod (by omega), mod_eq_of_lt (by omega)]
    split_ifs at h <;> omega

theorem half_injective {s q' half half' : ℕ} (hq : q < n) (hq' : q' < n)
    (h : (s + q + half * n) % (2 * n) = (s + q' + half' * n) % (2 * n)) : q = q' := by
  have hmod : (s + q) % n = (s + q') % n := by
    have := congrArg (· % n) h
    simpa only [mod_mul_left_mod, add_mul_mod_self_right] using this
  have := Nat.ModEq.add_left_cancel' s hmod
  rwa [Nat.ModEq, mod_eq_of_lt hq, mod_eq_of_lt hq'] at this

/-- Seen from a slot, the homes come in the order of the slots. -/
theorem Ordered.home_mono (h : Ordered n home old) (hqt : q ≤ t)
    {b x : β} (hb : old ((start + q) % n) = some b) (hx : old ((start + t) % n) = some x) :
    q - offset n (home b) ((start + q) % n) ≤ t - offset n (home x) ((start + t) % n) := by
  have hle := h.le_add (start + q) (t - q)
  rw [Nat.add_assoc, Nat.add_sub_cancel' hqt, level_some hb, level_some hx] at hle
  omega

section Copy

variable (hhome : ∀ b, home b < n) (hhome' : ∀ b, home' b < 2 * n) (hmod : ∀ b, home' b % n = home b)
include hhome

/-- Seen from a slot where no run crosses, the home of the entry in slot `q` is not
behind slot `q`. -/
theorem Ordered.home_from (h : Ordered n home old) (hstart : level n home old start ≤ 1)
    (hb : old ((start + q) % n) = some b) :
    offset n (home b) ((start + q) % n) ≤ q ∧
      home b = (start + (q - offset n (home b) ((start + q) % n))) % n := by
  have hle := h.le_add start q
  rw [level_some hb] at hle
  have hd : offset n (home b) ((start + q) % n) ≤ q := by omega
  refine ⟨hd, ?_⟩
  have hround := add_offset (hhome b) (mod_lt (start + q) (by have := hhome b; omega))
  set d := offset n (home b) ((start + q) % n)
  have : home b + d ≡ start + (q - d) + d [MOD n] := by
    rw [Nat.add_assoc, Nat.sub_add_cancel hd]
    exact hround
  exact (mod_eq_of_lt (hhome b)).symm.trans (Nat.ModEq.add_right_cancel' d this)

include hmod

/-- The entries copied so far leave the homes just after the next entry's free. -/
theorem Copied.home_ne (hold : Ordered n home old) (hstart : level n home old start ≤ 1)
    (h : Copied n home' old new start t) {x y : β} (hx : old ((start + t) % n) = some x) (hp : p < 2 * n)
    (hy : new p = some y) (hj : 0 < j)
    (hjt : t - offset n (home x) ((start + t) % n) + j < n) : home' y ≠ (home' x + j) % (2 * n) := by
  intro heq
  obtain ⟨q, hq, hyo⟩ := h.source p hp y hy
  have hmono := hold.home_mono hq.le hyo hx
  obtain ⟨-, hhx⟩ := hold.home_from hhome hstart hx
  obtain ⟨-, hhy⟩ := hold.home_from hhome hstart hyo
  set r := t - offset n (home x) ((start + t) % n)
  set r' := q - offset n (home y) ((start + q) % n)
  have hmods : (start + r') % n = (start + (r + j)) % n := by
    rw [← hhy, ← hmod y, heq, mod_mul_left_mod, add_mod, hmod x, hhx, ← add_mod, ← add_assoc]
  have := Nat.ModEq.add_left_cancel' start hmods
  rw [Nat.ModEq, mod_eq_of_lt (by omega), mod_eq_of_lt hjt] at this
  omega

include hhome'

/-- Copying the entry of slot `t` to the first free slot from its new home. -/
theorem Copied.copy (hold : Ordered n home old) (hs : start < n) (hstart : level n home old start ≤ 1)
    (ht : t < n) (h : Copied n home' old new start t) {x : β} (hx : old ((start + t) % n) = some x) :
    ∃ d ≤ t, (∀ j < d, new ((home' x + j) % (2 * n)) ≠ none) ∧ new ((home' x + d) % (2 * n)) = none ∧
      Copied n home' old (update new ((home' x + d) % (2 * n)) (some x)) start (t + 1) := by
  have hx' := hhome' x
  obtain ⟨hdt, hhx⟩ := hold.home_from hhome hstart hx
  have hne := fun p hp y hy j => h.home_ne (y := y) (p := p) (j := j) hhome hmod hold hstart hx hp hy
  set r := t - offset n (home x) ((start + t) % n) with hr
  -- the new home is slot `r` of one of the halves
  obtain ⟨half, hhalf, hnew⟩ := exists_half hx' (by omega) ((hmod x).trans hhx)
  have hslot : ∀ j, (home' x + j) % (2 * n) = (start + (r + j) + half * n) % (2 * n) := by
    intro j
    rw [hnew, mod_add_mod]
    congr 1
    ring
  -- slot `t` of that half is still free, so the probe ends there at the latest
  have hend : new ((home' x + (t - r)) % (2 * n)) = none := by
    rw [hslot, Nat.add_sub_cancel' (by omega)]
    exact h.ahead t le_rfl ht half hhalf
  classical
  have hex : ∃ d, new ((home' x + d) % (2 * n)) = none := ⟨_, hend⟩
  obtain ⟨d, hd, hfree, hfull⟩ : ∃ d ≤ t - r, new ((home' x + d) % (2 * n)) = none ∧
      ∀ j < d, new ((home' x + j) % (2 * n)) ≠ none :=
    ⟨Nat.find hex, Nat.find_min' hex hend, Nat.find_spec hex, fun j hj => Nat.find_min hex hj⟩
  have hp : (home' x + d) % (2 * n) < 2 * n := mod_lt _ (by omega)
  have hins := inserted_update hp hfree x
  refine ⟨d, by omega, hfull, hfree, ?_, ?_, ?_, ?_⟩
  · refine h.ordered.inserted hhome' (by omega) hins (fun j hj => ?_) (Or.inl rfl)
    obtain ⟨y, hy⟩ := Option.ne_none_iff_exists'.1 (hfull j hj)
    have hj' : (home' x + j) % (2 * n) < 2 * n := mod_lt _ (by omega)
    rw [level_some hy]
    refine Nat.succ_le_succ (Nat.le_of_not_lt fun hlt => ?_)
    -- else the home of `y` would be one of those just after that of `x`
    have hround := add_offset (hhome' y) hj'
    set e := offset (2 * n) (home' y) ((home' x + j) % (2 * n))
    refine hne _ hj' y hy (j - e) (by omega) (by omega) ?_
    have : home' y + e ≡ home' x + (j - e) + e [MOD 2 * n] := by
      rw [Nat.add_assoc, Nat.sub_add_cancel hlt.le]
      exact hround
    exact (mod_eq_of_lt (hhome' y)).symm.trans (Nat.ModEq.add_right_cancel' e this)
  · intro p' hp' b hb
    rw [update_apply] at hb
    split_ifs at hb with heq
    · obtain rfl := Option.some.inj hb
      exact ⟨t, lt_succ_self t, hx⟩
    · obtain ⟨q, hq, ho⟩ := h.source p' hp' b hb
      exact ⟨q, lt_succ_of_lt hq, ho⟩
  · intro q hq hqn half' hhalf'
    rw [update_of_ne]
    · exact h.ahead q (le_of_succ_le hq) hqn half' hhalf'
    rw [hslot]
    intro heq
    have := half_injective hqn (by omega) heq
    omega
  · rw [hins.contents_eq, h.contents_eq, sum_range_succ, hx, add_comm]
    exact (singleton_add ..).symm

end Copy

end RobinHood
