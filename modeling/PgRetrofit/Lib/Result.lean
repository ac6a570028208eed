import Mathlib.Tactic

/-! Computations that may stop with an error: what a successful one has been through. -/

namespace Result

open List

variable {ε α β σ : Type*} {bs : List β} {b : β}

theorem ok_bind {α β : Type} (a : α) (f : α → Except ε β) : (Except.ok a >>= f) = f a := rfl

theorem bind_eq_ok {x : Except ε α} {f : α → Except ε β} :
    x.bind f = .ok b ↔ ∃ a, x = .ok a ∧ f a = .ok b := by
  cases x with
  | error e => simp [Except.bind]
  | ok a => simp [Except.bind]

theorem map_eq_ok {x : Except ε α} {f : α → β} : x.map f = .ok b ↔ ∃ a, x = .ok a ∧ f a = b := by
  cases x with
  | error e => simp [Except.map]
  | ok a => simp [Except.map]

theorem foldlM_cons_ok {step : σ → β → Except ε σ} {c : β} {s s' : σ} :
    (c :: bs).foldlM step s = .ok s' ↔ ∃ t, step s c = .ok t ∧ bs.foldlM step t = .ok s' :=
  bind_eq_ok

theorem foldlM_nil_ok {step : σ → β → Except ε σ} {s s' : σ} :
    ([] : List β).foldlM step s = .ok s' ↔ s = s' :=
  ⟨Except.ok.inj, congrArg _⟩

/-- A loop that stops with an error stops in one of its rounds. -/
theorem foldlM_error {step : σ → β → Except ε σ} {s : σ} {e : ε} (h : bs.foldlM step s = .error e) :
    ∃ p c rest t, bs = p ++ c :: rest ∧ p.foldlM step s = .ok t ∧ step t c = .error e := by
  induction bs generalizing s with
  | nil => cases h
  | cons c bs ih => ?_
  rw [foldlM_cons] at h
  cases hc : step s c with
  | error e' =>
    rw [hc] at h
    obtain rfl := Except.error.inj h
    exact ⟨[], c, bs, s, rfl, rfl, hc⟩
  | ok t =>
    rw [hc] at h
    obtain ⟨p, c', rest, t', rfl, hp, hc'⟩ := ih h
    exact ⟨c :: p, c', rest, t', rfl, foldlM_cons_ok.2 ⟨t, hc, hp⟩, hc'⟩

/-- The invariant rule: what every step carries over to a longer prefix holds of the whole. -/
theorem foldlM_inv {step : σ → β → Except ε σ} {P : List β → σ → Prop}
    (hstep : ∀ {p s c s'}, P p s → step s c = .ok s' → P (p ++ [c]) s') (bs : List β) {p : List β}
    {s s' : σ} (hp : P p s) (h : bs.foldlM step s = .ok s') : P (p ++ bs) s' := by
  induction bs generalizing p s with
  | nil =>
    obtain rfl := foldlM_nil_ok.1 h
    rwa [append_nil]
  | cons c bs ih =>
    obtain ⟨t, ht, hbs⟩ := foldlM_cons_ok.1 h
    rw [append_cons]
    exact ih (hstep hp ht) hbs

/-- The computation ends in `post`, or stops with an allowed error. -/
def Ends (allowed : ε → Prop) (post : α → Prop) : Except ε α → Prop
  | .ok a => post a
  | .error e => allowed e

variable {allowed allowed' : ε → Prop} {post post' : α → Prop}

theorem Ends.mono {x : Except ε α} (h : Ends allowed post x) (hallowed : ∀ e, allowed e → allowed' e)
    (hpost : ∀ a, post a → post' a) : Ends allowed' post' x := by
  cases x with
  | ok a => exact hpost a h
  | error e => exact hallowed e h

theorem Ends.imp {x : Except ε α} (h : Ends allowed post x) (hpost : ∀ a, post a → post' a) :
    Ends allowed post' x :=
  h.mono (fun _ he => he) hpost

theorem Ends.bind {α β : Type} {post : α → Prop} {post' : β → Prop} {x : Except ε α} {f : α → Except ε β}
    (h : Ends allowed post x) (hf : ∀ a, post a → Ends allowed post' (f a)) :
    Ends allowed post' (x >>= f) := by
  cases x with
  | ok a => exact hf a h
  | error e => exact h

theorem Ends.foldlM {σ β : Type} {step : σ → β → Except ε σ} {P : List β → σ → Prop} {bs : List β}
    (hstep : ∀ p c rest s, bs = p ++ c :: rest → P p s → Ends allowed (P (p ++ [c])) (step s c)) {s : σ}
    (hp : P [] s) : Ends allowed (P bs) (bs.foldlM step s) := by
  suffices hrest : ∀ rest p s, bs = p ++ rest → P p s → Ends allowed (P bs) (rest.foldlM step s) from
    hrest bs [] s rfl hp
  intro rest
  induction rest with
  | nil =>
    intro p s hbs hp
    rwa [hbs, append_nil]
  | cons c rest ih =>
    intro p s hbs hp
    refine (hstep p c rest s hbs hp).bind fun t ht => ih (p ++ [c]) t ?_ ht
    rw [hbs, append_cons]

end Result
