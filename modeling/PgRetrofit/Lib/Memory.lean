import Mathlib.Tactic

/-! Memory as a list of cells, and what lies at an offset of it. -/

namespace Memory

open List

variable {α : Type*} {mem xs ys : List α} {p : ℕ} {c : α}

/-- From `p` on `mem` holds `xs`. -/
def At (mem : List α) (p : ℕ) (xs : List α) : Prop := xs <+: mem.drop p

theorem at_zero (xs rest : List α) : At (xs ++ rest) 0 xs := prefix_append xs rest

theorem at_nil (mem : List α) (p : ℕ) : At mem p [] := nil_prefix

theorem at_cons : At mem p (c :: xs) ↔ mem[p]? = some c ∧ At mem (p + 1) xs := by
  have hhead : mem[p]? = (mem.drop p)[0]? := by rw [getElem?_drop, Nat.add_zero]
  have htail : mem.drop (p + 1) = (mem.drop p).tail := by rw [tail_drop]
  rw [At, At, hhead, htail]
  cases mem.drop p with
  | nil => simp
  | cons d rest => simp [cons_prefix_cons, eq_comm]

theorem at_append : At mem p (xs ++ ys) ↔ At mem p xs ∧ At mem (p + xs.length) ys := by
  induction xs generalizing p with
  | nil => exact ⟨fun h => ⟨at_nil mem p, h⟩, fun h => h.2⟩
  | cons c xs ih =>
    rw [cons_append, at_cons, at_cons, ih, and_assoc, length_cons, Nat.add_assoc, Nat.add_comm 1]

theorem At.getElem? (h : At mem p (c :: xs)) : mem[p]? = some c := (at_cons.1 h).1

theorem At.set {i : ℕ} (h : At mem p xs) (hi : i < p ∨ p + xs.length ≤ i) (c : α) :
    At (mem.set i c) p xs := by
  induction xs generalizing p with
  | nil => exact at_nil _ p
  | cons d xs ih =>
    obtain ⟨hd, hxs⟩ := at_cons.1 h
    rw [length_cons] at hi
    exact at_cons.2 ⟨(getElem?_set_ne (by omega)).trans hd, ih hxs (by omega)⟩

end Memory
