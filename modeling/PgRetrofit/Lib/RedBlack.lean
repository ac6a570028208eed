import Mathlib.Tactic

/-! Red-black trees and the paths to their nodes. Every tree and path has a mirror image; a
lemma about both is stated once, for a side `d` and its opposite. -/

namespace RedBlack

open List

inductive Color
  | red
  | black
deriving DecidableEq, Repr

inductive Side
  | left
  | right
deriving DecidableEq, Repr

def Side.other : Side → Side
  | .left => .right
  | .right => .left

theorem Side.other_ne (d : Side) : d.other ≠ d := by cases d <;> decide

theorem Side.eq_other {d e : Side} (h : e ≠ d) : e = d.other := by
  cases d <;> cases e
  · exact absurd rfl h
  · rfl
  · rfl
  · exact absurd rfl h

inductive ColorTree (α : Type*)
  | nil
  | node (color : Color) (value : α) (left right : ColorTree α)

namespace ColorTree

variable {α : Type*} {c c1 c2 c3 c4 : Color} {d : Side} {u v : α} {x y z t : ColorTree α} {n : ℕ}

/-- A node with one subtree on the side `d` and one on the other. -/
def mk (d : Side) (c : Color) (v : α) (near far : ColorTree α) : ColorTree α :=
  match d with
  | .left => .node c v near far
  | .right => .node c v far near

theorem mk_other : mk d.other c v x y = mk d c v y x := by cases d <;> rfl

theorem exists_mk (d : Side) (h : t ≠ nil) : ∃ c v x y, t = mk d c v x y := by
  cases t with
  | nil => exact absurd rfl h
  | node c v l r =>
    cases d with
    | left => exact ⟨c, v, l, r, rfl⟩
    | right => exact ⟨c, v, r, l, rfl⟩

theorem mk_ne_nil : mk d c v x y ≠ nil := by cases d <;> exact fun h => by cases h

/-- leaves are black -/
def color : ColorTree α → Color
  | nil => .black
  | node c _ _ _ => c

@[simp] theorem color_mk : (mk d c v x y).color = c := by cases d <;> rfl

theorem ne_nil_of_red (h : t.color = .red) : t ≠ nil := by
  rintro rfl
  cases h

def blacken : ColorTree α → ColorTree α
  | nil => nil
  | node _ v l r => node .black v l r

@[simp] theorem blacken_mk : (mk d c v x y).blacken = mk d .black v x y := by cases d <;> rfl

@[simp] theorem color_blacken : t.blacken.color = .black := by cases t <;> rfl

theorem blacken_of_black (h : t.color = .black) : t.blacken = t := by
  cases t with
  | nil => rfl
  | node c v l r =>
    obtain rfl : c = .black := h
    rfl

/-- The values, beginning on the side `d`. -/
def walk (d : Side) : ColorTree α → List α
  | nil => []
  | node _ v l r =>
    match d with
    | .left => walk d l ++ v :: walk d r
    | .right => walk d r ++ v :: walk d l

def toList (t : ColorTree α) : List α := t.walk .left

theorem walk_mk : (mk d c v x y).walk d = x.walk d ++ v :: y.walk d := by cases d <;> rfl

theorem walk_other (d : Side) (t : ColorTree α) : t.walk d.other = (t.walk d).reverse := by
  induction t with
  | nil => rfl
  | node c v l r ihl ihr => cases d <;> simp_all [walk, Side.other]

theorem walk_eq (d : Side) (t : ColorTree α) : t.walk d = match d with
    | .left => t.toList
    | .right => t.toList.reverse := by
  cases d with
  | left => rfl
  | right => exact walk_other .left t

@[simp] theorem toList_blacken : t.blacken.toList = t.toList := by cases t <;> rfl

theorem toList_mk_color : (mk d c1 v x y).toList = (mk d c2 v x y).toList := by cases d <;> rfl

theorem toList_rotate : (mk d c1 u x (mk d c2 v y z)).toList = (mk d c3 v (mk d c4 u x y) z).toList := by
  cases d <;> simp [mk, toList, walk]

theorem toList_mk_congr {x' y' : ColorTree α} (hx : x.toList = x'.toList) (hy : y.toList = y'.toList) :
    (mk d c1 v x y).toList = (mk d c2 v x' y').toList := by
  unfold toList at hx hy
  cases d <;> simp [mk, toList, walk, hx, hy]

theorem length_toList_mk : (mk d c v x y).toList.length = x.toList.length + y.toList.length + 1 := by
  cases d
  · rw [mk, toList, walk, length_append]
    rfl
  · rw [mk, toList, walk, length_append, Nat.add_comm x.toList.length]
    rfl

/-- No red node has a red child, and every path to a leaf has `n` black nodes. -/
inductive Balanced : ColorTree α → ℕ → Prop
  | nil : Balanced nil 0
  | red {n v l r} : Balanced l n → Balanced r n → l.color = .black → r.color = .black →
      Balanced (node .red v l r) n
  | black {n v l r} : Balanced l n → Balanced r n → Balanced (node .black v l r) (n + 1)

theorem balanced_red : Balanced (mk d .red v x y) n ↔ Balanced x n ∧ Balanced y n ∧ x.color = .black ∧
    y.color = .black := by
  cases d with
  | left =>
    refine ⟨fun h => ?_, fun ⟨h1, h2, h3, h4⟩ => .red h1 h2 h3 h4⟩
    cases h with
    | red h1 h2 h3 h4 => exact ⟨h1, h2, h3, h4⟩
  | right =>
    refine ⟨fun h => ?_, fun ⟨h1, h2, h3, h4⟩ => .red h2 h1 h4 h3⟩
    cases h with
    | red h1 h2 h3 h4 => exact ⟨h2, h1, h4, h3⟩

theorem balanced_black : Balanced (mk d .black v x y) n ↔
    ∃ m, n = m + 1 ∧ Balanced x m ∧ Balanced y m := by
  cases d with
  | left =>
    constructor
    · intro h
      cases h with
      | black h1 h2 => exact ⟨_, rfl, h1, h2⟩
    · rintro ⟨m, rfl, h1, h2⟩
      exact .black h1 h2
  | right => ?_
  constructor
  · intro h
    cases h with
    | black h1 h2 => exact ⟨_, rfl, h2, h1⟩
  · rintro ⟨m, rfl, h1, h2⟩
    exact .black h2 h1

theorem balanced_black_succ : Balanced (mk d .black v x y) (n + 1) ↔ Balanced x n ∧ Balanced y n := by
  simp [balanced_black]

theorem Balanced.mk_black (d : Side) (v : α) (hx : Balanced x n) (hy : Balanced y n) :
    Balanced (mk d .black v x y) (n + 1) :=
  balanced_black_succ.2 ⟨hx, hy⟩

theorem Balanced.setValue (u : α) (h : Balanced (mk d c v x y) n) : Balanced (mk d c u x y) n := by
  cases c with
  | red => exact balanced_red.2 (balanced_red.1 h)
  | black => exact balanced_black.2 (balanced_black.1 h)

theorem Balanced.exists_red (h : Balanced t n) (hc : t.color = .red) (d : Side) :
    ∃ v x y, t = mk d .red v x y ∧ Balanced x n ∧ Balanced y n ∧ x.color = .black ∧
      y.color = .black := by
  obtain ⟨c, v, x, y, rfl⟩ := exists_mk d (ne_nil_of_red hc)
  obtain rfl : c = .red := by rwa [color_mk] at hc
  exact ⟨v, x, y, rfl, balanced_red.1 h⟩

theorem Balanced.exists_black (h : Balanced t (n + 1)) (hc : t.color = .black) (d : Side) :
    ∃ v x y, t = mk d .black v x y := by
  have hne : t ≠ ColorTree.nil := by
    rintro rfl
    cases h
  obtain ⟨c, v, x, y, rfl⟩ := exists_mk d hne
  obtain rfl : c = .black := by rwa [color_mk] at hc
  exact ⟨v, x, y, rfl⟩

theorem Balanced.blacken_red (h : Balanced t n) (hc : t.color = .red) : Balanced t.blacken (n + 1) := by
  obtain ⟨v, x, y, rfl, hx, hy, -, -⟩ := h.exists_red hc .left
  rw [blacken_mk]
  exact Balanced.mk_black _ _ hx hy

theorem Balanced.blacken (h : Balanced t n) : ∃ m, Balanced t.blacken m := by
  cases hc : t.color with
  | red => exact ⟨_, h.blacken_red hc⟩
  | black => exact ⟨n, by rwa [blacken_of_black hc]⟩

end ColorTree

/-- A node on the path to a hole, which is in its subtree on one side. -/
structure Frame (α : Type*) where
  side : Side
  color : Color
  value : α
  sibling : ColorTree α

/-- From the hole up to the root. -/
abbrev TreePath (α : Type*) := List (Frame α)

variable {α : Type*} {d : Side} {v : α} {t t' : ColorTree α} {n : ℕ} {k : TreePath α}

def Frame.fill (f : Frame α) (t : ColorTree α) : ColorTree α := .mk f.side f.color f.value t f.sibling

namespace TreePath

def fill : TreePath α → ColorTree α → ColorTree α
  | [], t => t
  | f :: k, t => fill k (f.fill t)

theorem fill_ne_nil (k : TreePath α) (ht : t ≠ .nil) : k.fill t ≠ .nil := by
  induction k generalizing t with
  | nil => exact ht
  | cons f k ih => exact ih ColorTree.mk_ne_nil

/-- the values before the hole, beginning on the side `d` -/
def before (d : Side) : TreePath α → List α
  | [] => []
  | f :: k => if f.side = d then before d k else before d k ++ (f.sibling.walk d ++ [f.value])

def after (d : Side) : TreePath α → List α
  | [] => []
  | f :: k => if f.side = d then f.value :: f.sibling.walk d ++ after d k else after d k

theorem walk_fill (d : Side) (k : TreePath α) (t : ColorTree α) :
    (k.fill t).walk d = k.before d ++ (t.walk d ++ k.after d) := by
  induction k generalizing t with
  | nil => simp [fill, before, after]
  | cons f k ih => ?_
  obtain ⟨e, c, v, s⟩ := f
  rw [fill, ih, before, after]
  by_cases he : e = d
  · subst he
    rw [Frame.fill, ColorTree.walk_mk]
    simp
  · obtain rfl := Side.eq_other he
    rw [if_neg he, if_neg he, Frame.fill, ColorTree.mk_other, ColorTree.walk_mk]
    simp

theorem toList_fill (k : TreePath α) (t : ColorTree α) :
    (k.fill t).toList = k.before .left ++ (t.toList ++ k.after .left) :=
  walk_fill .left k t

theorem toList_fill_congr (h : t.toList = t'.toList) (k : TreePath α) :
    (k.fill t).toList = (k.fill t').toList := by
  rw [toList_fill, toList_fill, h]

theorem fill_append (k1 k2 : TreePath α) (t : ColorTree α) :
    fill (k1 ++ k2) t = k2.fill (k1.fill t) := by
  induction k1 generalizing t with
  | nil => rfl
  | cons f k1 ih => exact ih (f.fill t)

theorem before_append (d : Side) (k1 k2 : TreePath α) :
    before d (k1 ++ k2) = k2.before d ++ k1.before d := by
  induction k1 with
  | nil => exact (append_nil _).symm
  | cons f k1 ih =>
    rw [cons_append, before, before, ih]
    split_ifs
    · rfl
    · rw [append_assoc]

theorem after_append (d : Side) (k1 k2 : TreePath α) :
    after d (k1 ++ k2) = k1.after d ++ k2.after d := by
  induction k1 with
  | nil => rfl
  | cons f k1 ih =>
    rw [cons_append, after, after, ih]
    split_ifs
    · rw [append_assoc]
    · rfl

theorem length_le_fill (k : TreePath α) (t : ColorTree α) :
    k.length + t.toList.length ≤ (k.fill t).toList.length := by
  induction k generalizing t with
  | nil => exact Nat.le_of_eq (Nat.zero_add _)
  | cons f k ih =>
    have h := ih (f.fill t)
    rw [Frame.fill, ColorTree.length_toList_mk] at h
    rw [length_cons, fill, Frame.fill]
    omega

/-- The colour above the hole; above the root there is no red node. -/
def color : TreePath α → Color
  | [] => .black
  | f :: _ => f.color

/-- Around the hole the tree is balanced, if the hole counts for `n` black nodes. -/
inductive Fits : TreePath α → ℕ → Prop
  | nil (m : ℕ) : Fits [] m
  | black {e w s l m} : s.Balanced m → Fits l (m + 1) → Fits (⟨e, .black, w, s⟩ :: l) m
  | red {e w s e' w' s' l m} : s.Balanced m → s.color = .black → Fits (⟨e', .black, w', s'⟩ :: l) m →
      Fits (⟨e, .red, w, s⟩ :: ⟨e', .black, w', s'⟩ :: l) m

/-- What fits can be filled in; where a red node is above the hole, with a black root only. -/
theorem Fits.balanced_fill (h : k.Fits n) (ht : t.Balanced n) (hc : k.color = .red → t.color = .black) :
    ∃ m, (k.fill t).Balanced m ∧ (k ≠ [] → (k.fill t).color = .black) := by
  induction h generalizing t with
  | nil m => exact ⟨m, ht, fun h => absurd rfl h⟩
  | @black d v s k n hs hk ih =>
    obtain ⟨m, hm, hcol⟩ := ih (ht.mk_black d v hs) fun _ => ColorTree.color_mk
    refine ⟨m, hm, fun _ => ?_⟩
    cases k with
    | nil => exact ColorTree.color_mk
    | cons f k => exact hcol (cons_ne_nil _ _)
  | red hs hsc hk ih =>
    obtain ⟨m, hm, hcol⟩ := ih (ColorTree.balanced_red.2 ⟨ht, hs, hc rfl, hsc⟩) fun h => by cases h
    exact ⟨m, hm, fun _ => hcol (cons_ne_nil _ _)⟩

/-- In a balanced tree with a black root the path to every subtree fits. -/
theorem fits_of_fill {m : ℕ} (k : TreePath α) (h : (k.fill t).Balanced m)
    (hroot : (k.fill t).color = .black) :
    ∃ n, t.Balanced n ∧ k.Fits n ∧ (k.color = .red → t.color = .black) := by
  induction k generalizing t with
  | nil => exact ⟨m, h, .nil m, fun hc => by cases hc⟩
  | cons f k ih => ?_
  obtain ⟨d, c, v, s⟩ := f
  obtain ⟨n, hb, hk, hcol⟩ := ih h hroot
  cases c with
  | black =>
    obtain ⟨n, rfl, ht, hs⟩ := ColorTree.balanced_black.1 hb
    exact ⟨n, ht, .black hs hk, fun hc => by cases hc⟩
  | red => ?_
  obtain ⟨ht, hs, htc, hsc⟩ := ColorTree.balanced_red.1 hb
  refine ⟨n, ht, ?_, fun _ => htc⟩
  cases k with
  | nil =>
    rw [fill, fill, Frame.fill, ColorTree.color_mk] at hroot
    cases hroot
  | cons f k => ?_
  obtain ⟨e, ce, w, s'⟩ := f
  cases ce with
  | red =>
    rw [Frame.fill, ColorTree.color_mk] at hcol
    cases hcol rfl
  | black => exact .red hs hsc hk

end TreePath

end RedBlack
