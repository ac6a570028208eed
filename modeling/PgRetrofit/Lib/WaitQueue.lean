import Mathlib.Tactic

/-! Locks with modes that conflict, held by parties that belong to groups, and a queue of requests.
A party does not conflict with its own group. A queue is stuck if no request in it can be granted:
each conflicts with a request ahead of it, or with what another group holds. -/

namespace WaitQueue

open List

variable {P G M : Type*} (group : P → G) (conflict : M → M → Prop)

/-- A request conflicts with what another group holds. -/
def Clash (hold : P → M → Prop) (p : P) (m : M) : Prop :=
  ∃ q k, group q ≠ group p ∧ hold q k ∧ conflict m k

/-- No two groups hold modes that conflict. -/
def Exclusive (hold : P → M → Prop) : Prop :=
  ∀ p q k l, group p ≠ group q → hold p k → hold q l → ¬ conflict k l

/-- No request of the queue can be granted, behind the requests in `ahead`. -/
def Stuck (hold : P → M → Prop) : List M → List (P × M) → Prop
  | _, [] => True
  | ahead, (p, m) :: queue => ((∃ k ∈ ahead, conflict m k) ∨ Clash group conflict hold p m) ∧
      Stuck hold (ahead ++ [m]) queue

/-- What is held after a grant. -/
def Granted (hold : P → M → Prop) (p : P) (m : M) (q : P) (k : M) : Prop := hold q k ∨ q = p ∧ k = m

variable {group conflict} {hold hold' : P → M → Prop} {ahead ahead' : List M}
  {queue queue' : List (P × M)} {p : P} {m : M}

theorem Clash.mono (hsub : ∀ q k, hold q k → hold' q k) (h : Clash group conflict hold p m) :
    Clash group conflict hold' p m := by
  obtain ⟨q, k, hq, hk, hc⟩ := h
  exact ⟨q, k, hq, hsub q k hk, hc⟩

/-- A grant that clashes with nothing keeps the groups apart. -/
theorem Exclusive.grant (hsymm : ∀ k l, conflict k l → conflict l k) (h : Exclusive group conflict hold)
    (hp : ¬ Clash group conflict hold p m) :
    Exclusive group conflict (Granted hold p m) := by
  intro q r k l hne hk hl hc
  rcases hk with hk | ⟨rfl, rfl⟩
  · rcases hl with hl | ⟨rfl, rfl⟩
    · exact h q r k l hne hk hl hc
    · exact hp ⟨q, k, hne, hk, hsymm _ _ hc⟩
  · rcases hl with hl | ⟨rfl, rfl⟩
    · exact hp ⟨r, l, hne.symm, hl, hc⟩
    · exact hne rfl

theorem Exclusive.mono (hsub : ∀ q k, hold' q k → hold q k) (h : Exclusive group conflict hold) :
    Exclusive group conflict hold' :=
  fun p q k l hne hk hl => h p q k l hne (hsub p k hk) (hsub q l hl)

theorem Stuck.mono (hahead : ∀ k ∈ ahead, k ∈ ahead') (hsub : ∀ q k, hold q k → hold' q k)
    (h : Stuck group conflict hold ahead queue) :
    Stuck group conflict hold' ahead' queue := by
  induction queue generalizing ahead ahead' with
  | nil => trivial
  | cons e queue ih =>
    obtain ⟨hblocked, hrest⟩ := h
    refine ⟨hblocked.imp (fun ⟨k, hk, hc⟩ => ⟨k, hahead k hk, hc⟩) (Clash.mono hsub),
      ih (fun k hk => ?_) hrest⟩
    simp only [mem_append, mem_singleton] at hk ⊢
    exact hk.imp_left (hahead k)

theorem stuck_append : Stuck group conflict hold ahead (queue ++ queue') ↔
    Stuck group conflict hold ahead queue ∧
      Stuck group conflict hold (ahead ++ queue.map Prod.snd) queue' := by
  induction queue generalizing ahead with
  | nil => simp [Stuck]
  | cons e queue ih => simp [Stuck, ih, and_assoc, append_assoc]

/-- A request that is blocked where it joins the queue leaves the queue stuck. -/
theorem Stuck.insert (h : Stuck group conflict hold ahead (queue ++ queue'))
    (hp : (∃ k ∈ ahead ++ queue.map Prod.snd, conflict m k) ∨ Clash group conflict hold p m) :
    Stuck group conflict hold ahead (queue ++ (p, m) :: queue') := by
  rw [stuck_append] at h ⊢
  refine ⟨h.1, hp, h.2.mono (fun k hk => ?_) fun q k hk => hk⟩
  simp only [mem_append] at hk ⊢
  exact .inl hk

/-- A release of a mode that no request conflicts with unblocks nobody. -/
theorem Stuck.release (h : Stuck group conflict hold ahead queue)
    (hkeep : ∀ q k, hold q k → q = p ∧ k = m ∨ hold' q k) (hnone : ∀ e ∈ queue, ¬ conflict e.2 m) :
    Stuck group conflict hold' ahead queue := by
  induction queue generalizing ahead with
  | nil => trivial
  | cons e queue ih =>
    obtain ⟨hblocked, hrest⟩ := h
    refine ⟨hblocked.imp_right fun ⟨q, k, hq, hk, hc⟩ => ?_,
      ih hrest fun e he => hnone e (mem_cons_of_mem _ he)⟩
    rcases hkeep q k hk with ⟨-, rfl⟩ | hk
    · exact absurd hc (hnone e mem_cons_self)
    · exact ⟨q, k, hq, hk, hc⟩

/-- Each request of a stuck queue, with those ahead of it. -/
theorem Stuck.blocked (h : Stuck group conflict hold [] queue) {front back : List (P × M)}
    (hq : queue = front ++ (p, m) :: back) :
    (∃ e ∈ front, conflict m e.2) ∨ Clash group conflict hold p m := by
  subst hq
  obtain ⟨-, hblocked, -⟩ := stuck_append.1 h
  refine hblocked.imp_left fun ⟨k, hk, hc⟩ => ?_
  obtain ⟨e, he, rfl⟩ := mem_map.1 hk
  exact ⟨e, he, hc⟩

end WaitQueue
