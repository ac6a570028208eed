import Mathlib.Tactic

/-! Graphs with a root: when every node that counts has a predecessor that counts, and there is no
cycle off the root, every node that counts can be reached from the root. -/

namespace Rooted

open Relation

variable {α : Type*} {r r' : α → α → Prop} {root a b x y : α}

/-- the edges between nodes other than the root -/
def OffRoot (r : α → α → Prop) (root : α) (x y : α) : Prop := r x y ∧ x ≠ root ∧ y ≠ root

def Acyclic (r : α → α → Prop) : Prop := ∀ x, ¬ TransGen r x x

theorem Acyclic.mono (h : Acyclic r) (hle : ∀ x y, r' x y → r x y) : Acyclic r' :=
  fun x hx => h x (TransGen.mono hle x x hx)

/-- A path that may use one more edge, up to its first use and from its last use on. -/
theorem transGen_insert (hle : ∀ x y, r' x y → r x y ∨ (x = a ∧ y = b)) (h : TransGen r' x y) :
    TransGen r x y ∨ (ReflTransGen r x a ∧ ReflTransGen r b y) := by
  induction h with
  | single hxy =>
    rcases hle _ _ hxy with hr | ⟨rfl, rfl⟩
    · exact .inl (.single hr)
    · exact .inr ⟨.refl, .refl⟩
  | tail _ hyz ih => ?_
  rcases hle _ _ hyz with hr | ⟨rfl, rfl⟩
  · rcases ih with hxy | ⟨hxa, hby⟩
    · exact .inl (hxy.tail hr)
    · exact .inr ⟨hxa, hby.tail hr⟩
  · rcases ih with hxy | ⟨hxa, -⟩
    · exact .inr ⟨hxy.to_reflTransGen, .refl⟩
    · exact .inr ⟨hxa, .refl⟩

/-- A new edge closes no cycle when its end does not lead back to its start. -/
theorem Acyclic.insert (h : Acyclic r) (hab : ¬ ReflTransGen r b a)
    (hle : ∀ x y, r' x y → r x y ∨ (x = a ∧ y = b)) : Acyclic r' := by
  intro x hx
  rcases transGen_insert hle hx with hxx | ⟨hxa, hbx⟩
  · exact h x hxx
  · exact hab (hbx.trans hxa)

theorem reaches [Finite α] {P : α → Prop} (hacyclic : Acyclic (OffRoot r root))
    (hpred : ∀ x, P x → x = root ∨ ∃ z, r z x ∧ P z) :
    ∀ x, P x → ReflTransGen r root x := by
  have : Std.Irrefl (TransGen (OffRoot r root)) := ⟨hacyclic⟩
  have hwf : WellFounded (TransGen (OffRoot r root)) := Finite.wellFounded_of_trans_of_irrefl _
  intro x
  induction x using hwf.induction with
  | h x ih =>
    intro hx
    by_cases hroot : x = root
    · rw [hroot]
    obtain ⟨z, hzx, hz⟩ := (hpred x hx).resolve_left hroot
    by_cases hzroot : z = root
    · exact .single (hzroot ▸ hzx)
    · exact (ih z (.single ⟨hzx, hzroot, hroot⟩) hz).tail hzx

end Rooted
