import PgRetrofit.Spec.RbTree

/-! A red-black tree in memory, and what the elementary steps of the code do to it. A tree is
labelled with the addresses and the data of its nodes. -/

namespace Pg.Rbt

open RedBlack List RBTNode ColorTree Function

variable {α β γ : Type} {s s' : Mem α} {p q : Ptr} {n : RBTNode} {c c1 c2 : Color} {d : Side}
  {x : Exec α β} {b : β}

theorem bind_ok (h : x s = .ok (b, s')) (f : β → Exec α γ) : (x >>= f) s = f b s' := by
  show StateT.bind x f s = _
  rw [StateT.bind, h]
  rfl

theorem map_ok (h : x s = .ok (b, s')) (f : β → γ) : (f <$> x) s = .ok (f b, s') := by
  show StateT.map f x s = _
  rw [StateT.map, h]
  rfl

theorem pure_ok (b : β) : (pure b : Exec α β) s = .ok (b, s) := rfl

theorem getRoot_ok : (getRoot : Exec α Ptr) s = .ok (s.root, s) := rfl

variable (h : s.node p = some n)
include h

theorem getNode_ok : getNode p s = .ok (n, s) := by
  rw [getNode, h]

theorem getColor_ok : getColor p s = .ok (n.color, s) :=
  map_ok (getNode_ok h) _

theorem getParent_ok : getParent p s = .ok (n.parent, s) :=
  map_ok (getNode_ok h) _

theorem getChild_ok : getChild d p s = .ok (n.child d, s) :=
  map_ok (getNode_ok h) _

theorem setColor_ok : setColor p c s = .ok ((), s.setNode p { n with color := c }) := by
  rw [setColor, modifyNode, h]

theorem setParent_ok : setParent p q s = .ok ((), s.setNode p { n with parent := q }) := by
  rw [setParent, modifyNode, h]

theorem setChild_ok : setChild d p q s = .ok ((), s.setNode p (n.setChild d q)) := by
  rw [setChild, modifyNode, h]

omit h

theorem getData_ok {v : α} (h : s.data p = some v) : getData p s = .ok (v, s) := by
  rw [getData, h]

theorem setData_ok {v w : α} (h : s.data p = some v) : setData p w s = .ok ((), s.setData p w) := by
  rw [setData, h]

theorem setNode_self (s : Mem α) (p : Ptr) (n : RBTNode) :
    (s.setNode p n).node p = some n := update_self ..

theorem setNode_of_ne (h : q ≠ p) : (s.setNode p n).node q = s.node q := update_of_ne h ..

/-- A node with one child on the side `d` and one on the other. -/
def RBTNode.of (d : Side) (c : Color) (near far parent : Ptr) : RBTNode :=
  match d with
  | .left => ⟨c, near, far, parent⟩
  | .right => ⟨c, far, near, parent⟩

section
variable {near far parent : Ptr}

@[simp] theorem of_color : (of d c near far parent).color = c := by cases d <;> rfl
@[simp] theorem of_parent : (of d c near far parent).parent = parent := by cases d <;> rfl
@[simp] theorem of_child : (of d c near far parent).child d = near := by cases d <;> rfl
@[simp] theorem of_child_other : (of d c near far parent).child d.other = far := by cases d <;> rfl
@[simp] theorem of_setColor : { of d c near far parent with color := c1 } = of d c1 near far parent := by
  cases d <;> rfl
@[simp] theorem of_setParent : { of d c near far parent with parent := q } = of d c near far q := by
  cases d <;> rfl
@[simp] theorem of_setChild : (of d c near far parent).setChild d q = of d c q far parent := by
  cases d <;> rfl
@[simp] theorem of_setChild_other :
    (of d c near far parent).setChild d.other q = of d c near q parent := by
  cases d <;> rfl

theorem of_other : of d.other c near far parent = of d c far near parent := by cases d <;> rfl

end

/-- a tree with the address and the data of each node -/
abbrev Shape (α : Type) := ColorTree (Ptr × α)

abbrev Around (α : Type) := TreePath (Ptr × α)

variable {t x y a b e : Shape α} {k : Around α} {u v w : Ptr × α} {f : Frame (Ptr × α)}
  {l : List Ptr} {p : Ptr}

def ptr : Shape α → Ptr
  | .nil => rbtnil
  | .node _ v _ _ => v.1

@[simp] theorem ptr_mk : ptr (.mk d c v x y) = v.1 := by cases d <;> rfl

def addrs : Shape α → List Ptr
  | .nil => []
  | .node _ v l r => v.1 :: (addrs l ++ addrs r)

theorem addrs_mk : (addrs (.mk d c v x y)).Perm (v.1 :: (addrs x ++ addrs y)) := by
  cases d with
  | left => exact .refl _
  | right => exact perm_append_comm.cons _

theorem mem_addrs_mk : p ∈ addrs (.mk d c v x y) ↔ p = v.1 ∨ p ∈ addrs x ∨ p ∈ addrs y := by
  rw [addrs_mk.mem_iff, mem_cons, mem_append]

theorem mem_addrs_iff : p ∈ addrs t ↔ p ∈ t.toList.map Prod.fst := by
  induction t with
  | nil => rfl
  | node c v l r ihl ihr =>
    have hlist : (node c v l r).toList = l.toList ++ v :: r.toList := rfl
    rw [addrs, mem_cons, mem_append, ihl, ihr, hlist, map_append, map_cons, mem_append, mem_cons]
    exact or_left_comm

/-- The tree is in memory, with this pointer to the parent in its root. -/
def Holds (s : Mem α) : Ptr → Shape α → Prop
  | _, .nil => True
  | parent, .node c v l r => s.node v.1 = some ⟨c, ptr l, ptr r, parent⟩ ∧ s.data v.1 = some v.2 ∧
      Holds s v.1 l ∧ Holds s v.1 r

theorem holds_mk : Holds s q (.mk d c v x y) ↔
    s.node v.1 = some (.of d c (ptr x) (ptr y) q) ∧ s.data v.1 = some v.2 ∧
      Holds s v.1 x ∧ Holds s v.1 y := by
  cases d with
  | left => rfl
  | right =>
    show _ ∧ _ ∧ _ ∧ _ ↔ _
    rw [and_comm (a := Holds s v.1 y)]
    rfl

def above : Around α → Ptr
  | [] => null
  | f :: _ => f.value.1

def addrsAround : Around α → List Ptr
  | [] => []
  | f :: k => f.value.1 :: (addrs f.sibling ++ addrsAround k)

theorem addrsAround_append (k1 k2 : Around α) :
    addrsAround (k1 ++ k2) = addrsAround k1 ++ addrsAround k2 := by
  induction k1 with
  | nil => rfl
  | cons f k1 ih => rw [cons_append, addrsAround, ih, addrsAround, cons_append, append_assoc]

/-- The nodes around a hole are in memory, with this pointer in the hole. -/
def HoldsAround (s : Mem α) : Around α → Ptr → Prop
  | [], p => s.root = p
  | f :: k, p => s.node f.value.1 = some (.of f.side f.color p (ptr f.sibling) (above k)) ∧
      s.data f.value.1 = some f.value.2 ∧ Holds s f.value.1 f.sibling ∧ HoldsAround s k f.value.1

def Agree (s s' : Mem α) (l : List Ptr) : Prop := ∀ p ∈ l, s'.node p = s.node p ∧ s'.data p = s.data p

theorem Holds.congr (h : Holds s q t) (hs : Agree s s' (addrs t)) : Holds s' q t := by
  induction t generalizing q with
  | nil => trivial
  | node c v l r ihl ihr =>
    obtain ⟨h1, h2, h3, h4⟩ := h
    obtain ⟨hn, hd⟩ := hs v.1 mem_cons_self
    refine ⟨hn.trans h1, hd.trans h2, ihl h3 fun p hp => hs p ?_, ihr h4 fun p hp => hs p ?_⟩
    · exact mem_cons_of_mem _ (mem_append_left _ hp)
    · exact mem_cons_of_mem _ (mem_append_right _ hp)

theorem HoldsAround.congr (h : HoldsAround s k p) (hs : Agree s s' (addrsAround k))
    (hroot : s'.root = s.root) :
    HoldsAround s' k p := by
  induction k generalizing p with
  | nil => exact hroot.trans h
  | cons f k ih =>
    obtain ⟨h1, h2, h3, h4⟩ := h
    obtain ⟨hn, hd⟩ := hs f.value.1 mem_cons_self
    refine ⟨hn.trans h1, hd.trans h2, h3.congr fun p hp => hs p ?_, ih h4 fun p hp => hs p ?_⟩
    · exact mem_cons_of_mem _ (mem_append_left _ hp)
    · exact mem_cons_of_mem _ (mem_append_right _ hp)

/-- A tree in memory, with one of its subtrees in focus. The nodes have different addresses, and
the sentinel is black. -/
structure At (s : Mem α) (k : Around α) (t : Shape α) : Prop where
  tree : Holds s (above k) t
  around : HoldsAround s k (ptr t)
  nodup : (addrs t ++ addrsAround k).Nodup
  proper : ∀ p ∈ addrs t ++ addrsAround k, p ≠ null ∧ p ≠ rbtnil
  sentinel : ∃ n, s.node rbtnil = some n ∧ n.color = .black

theorem addrs_fill : (addrs (f.fill t) ++ addrsAround k).Perm (addrs t ++ addrsAround (f :: k)) := by
  refine (addrs_mk.append_right _).trans ?_
  rw [cons_append, append_assoc]
  exact perm_middle.symm

theorem at_cons : At s (f :: k) t ↔ At s k (f.fill t) := by
  obtain ⟨d, c, v, y⟩ := f
  have hperm : (addrs (Frame.fill ⟨d, c, v, y⟩ t) ++ addrsAround k).Perm
    (addrs t ++ addrsAround (⟨d, c, v, y⟩ :: k)) := addrs_fill
  constructor
  · rintro ⟨ht, ⟨h1, h2, h3, h4⟩, hnodup, hproper, hnil⟩
    refine ⟨holds_mk.2 ⟨h1, h2, ht, h3⟩, ?_, hperm.nodup_iff.2 hnodup,
      fun p hp => hproper p (hperm.mem_iff.1 hp), hnil⟩
    rw [Frame.fill, ptr_mk]
    exact h4
  · rintro ⟨ht, hk, hnodup, hproper, hnil⟩
    obtain ⟨h1, h2, h3, h4⟩ := holds_mk.1 ht
    rw [Frame.fill, ptr_mk] at hk
    exact ⟨h3, ⟨h1, h2, h4, hk⟩, hperm.nodup_iff.1 hnodup,
      fun p hp => hproper p (hperm.mem_iff.2 hp), hnil⟩

theorem at_near : At s k (.mk d c v x y) ↔ At s (⟨d, c, v, y⟩ :: k) x := by
  rw [at_cons, Frame.fill]

theorem at_far : At s k (.mk d c v x y) ↔ At s (⟨d.other, c, v, x⟩ :: k) y := by
  rw [at_cons, Frame.fill, mk_other]

theorem at_append {k1 k2 : Around α} : At s (k1 ++ k2) t ↔ At s k2 (k1.fill t) := by
  induction k1 generalizing t with
  | nil => rfl
  | cons f k1 ih =>
    rw [cons_append, at_cons]
    exact ih

theorem at_fill : At s k t ↔ At s [] (k.fill t) := by
  rw [← at_append, append_nil]

theorem addrs_path_fill (k : Around α) (t : Shape α) :
    (addrs (k.fill t)).Perm (addrs t ++ addrsAround k) := by
  induction k generalizing t with
  | nil => rw [addrsAround, append_nil]; rfl
  | cons f k ih => exact (ih (f.fill t)).trans addrs_fill

theorem At.node (h : At s k (.mk d c v x y)) : s.node v.1 = some (.of d c (ptr x) (ptr y) (above k)) :=
  (holds_mk.1 h.tree).1

theorem At.data (h : At s k (.mk d c v x y)) : s.data v.1 = some v.2 := (holds_mk.1 h.tree).2.1

theorem At.node_proper (h : At s k (.mk d c v x y)) : v.1 ≠ null ∧ v.1 ≠ rbtnil :=
  h.proper _ (mem_append_left _ (mem_addrs_mk.2 (.inl rfl)))

/-- The root of the focus has its colour in memory, also if it is the sentinel. -/
theorem At.color (h : At s k t) : getColor (ptr t) s = .ok (t.color, s) := by
  cases t with
  | nil =>
    obtain ⟨n, hn, hc⟩ := h.sentinel
    rw [ptr, getColor_ok hn, hc]
    rfl
  | node c v l r => exact getColor_ok h.tree.1

theorem At.parent (h : At s k t) (ht : t ≠ .nil) : getParent (ptr t) s = .ok (above k, s) := by
  obtain ⟨c, v, x, y, rfl⟩ := exists_mk .left ht
  rw [ptr_mk, getParent_ok h.node, of_parent]

theorem At.near (h : At s k (.mk d c v x y)) : getChild d v.1 s = .ok (ptr x, s) := by
  rw [getChild_ok h.node, of_child]

theorem At.far (h : At s k (.mk d c v x y)) : getChild d.other v.1 s = .ok (ptr y, s) := by
  rw [getChild_ok h.node, of_child_other]

theorem ptr_eq_nil (h : At s k t) : ptr t = rbtnil ↔ t = .nil := by
  refine ⟨fun hp => ?_, fun ht => by rw [ht]; rfl⟩
  cases t with
  | nil => rfl
  | node c v l r => exact absurd hp (h.proper _ (mem_append_left _ mem_cons_self)).2

theorem At.ptr_ne (h : At s k (.mk d c v x y)) (hx : x ≠ .nil) : ptr x ≠ ptr y := by
  obtain ⟨c', w, a, b, rfl⟩ := exists_mk .left hx
  have hmem : w.1 ∈ addrs (.mk .left c' w a b) := mem_addrs_mk.2 (.inl rfl)
  cases y with
  | nil => exact (h.proper _ (mem_append_left _ (mem_addrs_mk.2 (.inr (.inl hmem))))).2
  | node c'' u l r =>
    rintro he
    have hnodup := (addrs_mk.nodup_iff.1 (nodup_append.1 h.nodup).1)
    rw [nodup_cons, nodup_append] at hnodup
    exact hnodup.2.2.2 _ hmem _ mem_cons_self he

theorem HoldsAround.root_mem (h : HoldsAround s k p) (hk : k ≠ []) : s.root ∈ addrsAround k := by
  induction k generalizing p with
  | nil => exact absurd rfl hk
  | cons f k ih => ?_
  obtain ⟨-, -, -, h4⟩ := h
  by_cases hk : k = []
  · subst hk
    rw [show s.root = f.value.1 from h4]
    exact mem_cons_self
  · exact mem_cons_of_mem _ (mem_append_right _ (ih h4 hk))

theorem ptr_eq_root (h : At s k t) : ptr t = s.root ↔ k = [] := by
  refine ⟨fun hp => ?_, fun hk => by subst hk; exact h.around.symm⟩
  by_contra hk
  have hmem := h.around.root_mem hk
  rw [← hp] at hmem
  cases t with
  | nil => exact (h.proper _ (mem_append_right _ hmem)).2 rfl
  | node c v l r => exact (nodup_append.1 h.nodup).2.2 _ mem_cons_self _ hmem rfl

theorem At.not_root {f : Frame (Ptr × α)} (h : At s (f :: k) t) : ptr t ≠ s.root :=
  mt (ptr_eq_root h).1 (cons_ne_nil _ _)

theorem Holds.allocated (h : Holds s q t) : ∀ p ∈ addrs t, s.node p ≠ none := by
  induction t generalizing q with
  | nil => exact fun p hp => absurd hp not_mem_nil
  | node c v l r ihl ihr => ?_
  obtain ⟨h1, -, h3, h4⟩ := h
  intro p hp
  rcases mem_cons.1 hp with rfl | hp
  · rw [h1]
    exact Option.some_ne_none _
  · rcases mem_append.1 hp with hp | hp
    · exact ihl h3 p hp
    · exact ihr h4 p hp

theorem HoldsAround.allocated (h : HoldsAround s k q) : ∀ p ∈ addrsAround k, s.node p ≠ none := by
  induction k generalizing q with
  | nil => exact fun p hp => absurd hp not_mem_nil
  | cons f k ih => ?_
  obtain ⟨h1, -, h3, h4⟩ := h
  intro p hp
  rcases mem_cons.1 hp with rfl | hp
  · rw [h1]
    exact Option.some_ne_none _
  · rcases mem_append.1 hp with hp | hp
    · exact h3.allocated p hp
    · exact ih h4 p hp

theorem agree_setNode (h : p ∉ l) : Agree s (s.setNode p n) l := fun _ hq =>
  ⟨setNode_of_ne fun e => h (e ▸ hq), rfl⟩

theorem Agree.trans {s'' : Mem α} (h : Agree s s' l) (h' : Agree s' s'' l) : Agree s s'' l := fun p hp =>
  ⟨(h' p hp).1.trans (h p hp).1, (h' p hp).2.trans (h p hp).2⟩

theorem addrs_mk_color : addrs (.mk d c1 v x y) = addrs (.mk d c2 v x y) := by cases d <;> rfl

theorem nodup_mk (h : (addrs (.mk d c v x y) ++ l).Nodup) :
    v.1 ∉ addrs x ∧ v.1 ∉ addrs y ∧ v.1 ∉ l ∧ (addrs x ++ (addrs y ++ l)).Nodup := by
  have h' := ((addrs_mk).append_right l).nodup_iff.1 h
  rw [cons_append, nodup_cons, append_assoc] at h'
  simp only [mem_append, not_or] at h'
  tauto

theorem At.setColor (h : At s k (.mk d c v x y)) (c' : Color) :
    ∃ s', setColor v.1 c' s = .ok ((), s') ∧ At s' k (.mk d c' v x y) ∧
      s'.node rbtnil = s.node rbtnil := by
  obtain ⟨hx, hy, hk, -⟩ := nodup_mk h.nodup
  obtain ⟨h1, h2, h3, h4⟩ := holds_mk.1 h.tree
  refine ⟨_, setColor_ok h1, ?_, setNode_of_ne h.node_proper.2.symm⟩
  rw [of_setColor]
  refine ⟨holds_mk.2 ⟨setNode_self .., h2, h3.congr (agree_setNode hx), h4.congr (agree_setNode hy)⟩,
    ?_, ?_, ?_, ?_⟩
  · have haround := h.around
    rw [ptr_mk] at haround ⊢
    exact haround.congr (agree_setNode hk) rfl
  · rw [addrs_mk_color]
    exact h.nodup
  · rw [addrs_mk_color]
    exact h.proper
  · rw [setNode_of_ne h.node_proper.2.symm]
    exact h.sentinel

theorem At.setData {w : α} (h : At s k (.mk d c v x y)) :
    setData v.1 w s = .ok ((), s.setData v.1 w) ∧ At (s.setData v.1 w) k (.mk d c (v.1, w) x y) := by
  obtain ⟨hx, hy, hk, -⟩ := nodup_mk h.nodup
  obtain ⟨h1, h2, h3, h4⟩ := holds_mk.1 h.tree
  have hagree : ∀ l : List Ptr, v.1 ∉ l → Agree s (s.setData v.1 w) l := fun l hl p hp =>
    ⟨rfl, update_of_ne (fun e : p = v.1 => hl (e ▸ hp)) ..⟩
  have haddrs : addrs (.mk d c (v.1, w) x y) = addrs (.mk d c v x y) := by cases d <;> rfl
  refine ⟨setData_ok h2, holds_mk.2 ⟨h1, update_self .., h3.congr (hagree _ hx), h4.congr (hagree _ hy)⟩,
    ?_, ?_, ?_, h.sentinel⟩
  · have haround := h.around
    rw [ptr_mk] at haround ⊢
    exact haround.congr (hagree _ hk) rfl
  · rw [haddrs]
    exact h.nodup
  · rw [haddrs]
    exact h.proper

/-- Only nodes at these addresses are written. -/
structure Only (l : List Ptr) (s s' : Mem α) : Prop where
  node : ∀ p ∉ l, s'.node p = s.node p
  data : s'.data = s.data

theorem only_setNode : Only [p] s (s.setNode p n) :=
  ⟨fun _ h => setNode_of_ne fun e => h (e ▸ mem_singleton_self _), rfl⟩

theorem Only.agree {l' : List Ptr} (h : Only l s s') (hl : ∀ p ∈ l', p ∉ l) :
    Agree s s' l' := fun p hp =>
  ⟨h.node p (hl p hp), congrFun h.data p⟩

theorem setParentUnlessNil_holds (h : Holds s p t) (hnodup : (addrs t).Nodup)
    (hproper : ∀ p ∈ addrs t, p ≠ rbtnil) (q : Ptr) :
    ∃ s', setParentUnlessNil (ptr t) q s = .ok ((), s') ∧ Holds s' q t ∧ Only (addrs t) s s' ∧
      s'.root = s.root := by
  cases t with
  | nil =>
    exact ⟨s, rfl, trivial, ⟨fun _ _ => rfl, rfl⟩, rfl⟩
  | node c v l r => ?_
  obtain ⟨h1, h2, h3, h4⟩ := h
  rw [addrs, nodup_cons, mem_append, not_or] at hnodup
  rw [ptr, setParentUnlessNil, if_pos (hproper _ mem_cons_self), setParent_ok h1]
  refine ⟨_, rfl, ⟨setNode_self .., h2, h3.congr (agree_setNode hnodup.1.1),
    h4.congr (agree_setNode hnodup.1.2)⟩, ⟨fun p hp => ?_, rfl⟩, rfl⟩
  apply setNode_of_ne
  rintro rfl
  exact hp mem_cons_self

theorem HoldsAround.setChild (h : HoldsAround s (f :: k) p)
    (hnodup : (addrsAround (f :: k)).Nodup) (q : Ptr) :
    ∃ s', setChild f.side f.value.1 q s = .ok ((), s') ∧ HoldsAround s' (f :: k) q ∧
      Only (addrsAround (f :: k)) s s' := by
  obtain ⟨h1, h2, h3, h4⟩ := h
  rw [addrsAround, nodup_cons, mem_append, not_or] at hnodup
  rw [setChild_ok h1, of_setChild]
  refine ⟨_, rfl, ⟨setNode_self .., h2, h3.congr (agree_setNode hnodup.1.1),
    h4.congr (agree_setNode hnodup.1.2) rfl⟩, fun r hr => ?_, rfl⟩
  apply setNode_of_ne
  rintro rfl
  exact hr mem_cons_self

theorem replaceChild_around (h : HoldsAround s k p) (hnodup : (addrsAround k).Nodup)
    (hproper : ∀ r ∈ addrsAround k, r ≠ null) (hp : s.node p = some n) (hparent : n.parent = above k)
    (hk : p ∉ addrsAround k) (hnil : p ≠ rbtnil) (d : Side) (q : Ptr) :
    ∃ s', replaceChild d p q s = .ok ((), s') ∧ HoldsAround s' k q ∧ Only (addrsAround k) s s' := by
  rw [replaceChild, bind_ok (getParent_ok hp), hparent]
  cases k with
  | nil =>
    exact ⟨_, rfl, rfl, fun _ _ => rfl, rfl⟩
  | cons f k => ?_
  obtain ⟨e, c, v, y⟩ := f
  have hset := h.setChild hnodup q
  rw [above, if_pos (hproper _ mem_cons_self), bind_ok (getChild_ok h.1)]
  by_cases hd : e = d
  · subst hd
    rw [of_child, if_pos rfl]
    exact hset
  obtain rfl := Side.eq_other hd
  have hne : p ≠ ptr y := by
    rintro rfl
    cases y with
    | nil => exact hnil rfl
    | node c' w l r => exact hk (mem_cons_of_mem _ (mem_append_left _ mem_cons_self))
  rw [of_other, of_child, if_neg hne]
  exact hset

theorem At.rotate (h : At s k (.mk d c1 u a (.mk d c2 v b e))) :
    ∃ s', rotate d u.1 s = .ok ((), s') ∧ At s' k (.mk d c2 v (.mk d c1 u a b) e) ∧
      s'.node rbtnil = s.node rbtnil := by
  obtain ⟨hu, hdu, ha, hinner⟩ := holds_mk.1 h.tree
  obtain ⟨hv, hdv, hb, he⟩ := holds_mk.1 hinner
  have hperm : (addrs (.mk d c2 v (.mk d c1 u a b) e) ++ addrsAround k).Perm
      (addrs (.mk d c1 u a (.mk d c2 v b e)) ++ addrsAround k) := by
    refine List.Perm.append_right _ ((addrs_mk.trans ((addrs_mk.append_right _).cons _)).trans ?_)
    refine .trans ?_ (addrs_mk.trans ((addrs_mk.append_left _).cons _)).symm
    rw [cons_append, append_assoc]
    exact (List.Perm.swap ..).trans (perm_middle.symm.cons _)
  -- the parts do not share addresses
  obtain ⟨hua, hue, huk, hrest⟩ := nodup_mk h.nodup
  rw [mem_addrs_mk, not_or, not_or] at hue
  obtain ⟨huv, hub, hue⟩ := hue
  obtain ⟨-, hrest, hdis⟩ := nodup_append.1 hrest
  obtain ⟨hvb, hve, hvk, hbek⟩ := nodup_mk hrest
  obtain ⟨hbn, hek, hbe⟩ := nodup_append.1 hbek
  obtain ⟨-, hkn, hek⟩ := nodup_append.1 hek
  have hav : v.1 ∉ addrs a := fun hm => hdis _ hm _ (mem_append_left _ (mem_addrs_mk.2 (.inl rfl))) rfl
  have hab : ∀ p ∈ addrs a, p ∉ addrs b := fun p hp hm =>
    hdis _ hp _ (mem_append_left _ (mem_addrs_mk.2 (.inr (.inl hm)))) rfl
  have hak : ∀ p ∈ addrs a, p ∉ addrsAround k := fun p hp hm => hdis _ hp _ (mem_append_right _ hm) rfl
  have heb : ∀ p ∈ addrs e, p ∉ addrs b := fun p hp hm => hbe _ hm _ (mem_append_left _ hp) rfl
  have hkb : ∀ p ∈ addrsAround k, p ∉ addrs b := fun p hp hm => hbe _ hm _ (mem_append_right _ hp) rfl
  have hek : ∀ p ∈ addrs e, p ∉ addrsAround k := fun p hp hm => hek _ hp _ hm rfl
  have hmemb : ∀ p ∈ addrs b, p ∈ addrs (.mk d c1 u a (.mk d c2 v b e)) ++ addrsAround k := fun p hp =>
    mem_append_left _ (mem_addrs_mk.2 (.inr (.inr (mem_addrs_mk.2 (.inr (.inl hp))))))
  have hpv : v.1 ≠ rbtnil :=
    (h.proper _ (mem_append_left _ (mem_addrs_mk.2 (.inr (.inr (mem_addrs_mk.2 (.inl rfl))))))).2
  have hpu : u.1 ≠ rbtnil := h.node_proper.2
  -- `b` goes to `u`
  rw [Rbt.rotate, bind_ok (getChild_ok hu), of_child_other, ptr_mk, bind_ok (getChild_ok hv), of_child,
    bind_ok (setChild_ok hu), of_setChild_other]
  generalize hs1 : s.setNode u.1 (.of d c1 (ptr a) (ptr b) (above k)) = s1
  have ho1 : Only [u.1] s s1 := hs1 ▸ only_setNode
  have hv1 : s1.node v.1 = some (.of d c2 (ptr b) (ptr e) u.1) :=
    (ho1.node _ (by simpa using Ne.symm huv)).trans hv
  obtain ⟨s2, hs2, hb2, ho2, hr2⟩ :=
    setParentUnlessNil_holds (hb.congr (ho1.agree fun p hp hm => hub (mem_singleton.1 hm ▸ hp))) hbn
    (fun r hr => (h.proper r (hmemb r hr)).2) u.1
  rw [bind_ok (getChild_ok hv1), of_child, bind_ok hs2]
  have hu2 : s2.node u.1 = some (.of d c1 (ptr a) (ptr b) (above k)) := by
    rw [ho2.node _ hub, ← hs1, setNode_self]
  have hv2 : s2.node v.1 = some (.of d c2 (ptr b) (ptr e) u.1) := (ho2.node _ hvb).trans hv1
  -- the link to `u` becomes one to `v`
  rw [bind_ok (getParent_ok hu2), of_parent, setParentUnlessNil, if_pos hpv,
    bind_ok (setParent_ok hv2), of_setParent]
  generalize hs3 : s2.setNode v.1 (.of d c2 (ptr b) (ptr e) (above k)) = s3
  have ho3 : Only [v.1] s2 s3 := hs3 ▸ only_setNode
  have hu3 : s3.node u.1 = some (.of d c1 (ptr a) (ptr b) (above k)) :=
    (ho3.node _ (by simpa using huv)).trans hu2
  have hagree : Agree s s3 (addrsAround k) :=
    ((ho1.agree fun p hp hm => huk (mem_singleton.1 hm ▸ hp)).trans (ho2.agree hkb)).trans
      (ho3.agree fun p hp hm => hvk (mem_singleton.1 hm ▸ hp))
  have hroot3 : s3.root = s.root := by rw [← hs3, ← hs1] at *; exact hr2
  have haround := h.around
  rw [ptr_mk] at haround
  obtain ⟨s4, hs4, hk4, ho4⟩ := replaceChild_around (haround.congr hagree hroot3) hkn
    (fun r hr => (h.proper r (mem_append_right _ hr)).1) hu3 of_parent huk hpu d v.1
  have hu4 : s4.node u.1 = some (.of d c1 (ptr a) (ptr b) (above k)) := (ho4.node _ huk).trans hu3
  have hv4 : s4.node v.1 = some (.of d c2 (ptr b) (ptr e) (above k)) := by
    rw [ho4.node _ hvk, ← hs3, setNode_self]
  -- and `u` becomes a child of `v`
  rw [bind_ok hs4, bind_ok (setChild_ok hv4), of_setChild, setParentUnlessNil, if_pos hpu,
    setParent_ok ((setNode_of_ne huv).trans hu4), of_setParent]
  refine ⟨_, rfl, ?_⟩
  generalize hs6 :
    (s4.setNode v.1 (.of d c2 u.1 (ptr e) (above k))).setNode u.1 (.of d c1 (ptr a) (ptr b) v.1) = s6
  have ho6 : Only [u.1, v.1] s4 s6 := by
    subst hs6
    refine ⟨fun p hp => ?_, rfl⟩
    rw [mem_cons, mem_singleton, not_or] at hp
    rw [setNode_of_ne hp.1, setNode_of_ne hp.2]
  have hsame : ∀ p, p ≠ u.1 → p ≠ v.1 → p ∉ addrs b → p ∉ addrsAround k → s6.node p = s.node p := by
    intro p h1 h2 h3 h4
    rw [ho6.node p (by simp [h1, h2]), ho4.node p h4, ho3.node p (by simpa using h2), ho2.node p h3,
      ho1.node p (by simpa using h1)]
  have hdata : s6.data = s.data := by rw [ho6.data, ho4.data, ho3.data, ho2.data, ho1.data]
  have hnil : s6.node rbtnil = s.node rbtnil := by
    refine hsame _ hpu.symm hpv.symm (fun hm => (h.proper _ (hmemb _ hm)).2 rfl) fun hm => ?_
    exact (h.proper _ (mem_append_right _ hm)).2 rfl
  refine ⟨⟨holds_mk.2 ⟨?_, ?_, holds_mk.2 ⟨?_, ?_, ?_, ?_⟩, ?_⟩, ?_, hperm.nodup_iff.2 h.nodup,
    fun p hp => h.proper p (hperm.mem_iff.1 hp), ?_⟩, hnil⟩
  · rw [← hs6, setNode_of_ne (Ne.symm huv), setNode_self, ptr_mk]
  · rw [hdata, hdv]
  · rw [← hs6, setNode_self]
  · rw [hdata, hdu]
  · refine ha.congr fun p hp => ⟨hsame p ?_ ?_ (hab p hp) (hak p hp), congrFun hdata p⟩
    · exact fun hm => hua (hm ▸ hp)
    · exact fun hm => hav (hm ▸ hp)
  · refine hb2.congr fun p hp => ⟨?_, ?_⟩
    · have h1 : p ≠ u.1 := fun hm => hub (hm ▸ hp)
      have h2 : p ≠ v.1 := fun hm => hvb (hm ▸ hp)
      rw [ho6.node p (by simp [h1, h2]), ho4.node p (fun hm => hkb p hm hp),
        ho3.node p (by simpa using h2)]
    · rw [ho6.data, ho4.data, ho3.data]
  · refine he.congr fun p hp => ⟨hsame p ?_ ?_ (heb p hp) (hek p hp), congrFun hdata p⟩
    · exact fun hm => hue (hm ▸ hp)
    · exact fun hm => hve (hm ▸ hp)
  · rw [ptr_mk]
    refine hk4.congr (ho6.agree fun p hp hm => ?_) (by rw [← hs6]; rfl)
    rw [mem_cons, mem_singleton] at hm
    rcases hm with rfl | rfl
    · exact huk hp
    · exact hvk hp
  · rw [hnil]
    exact h.sentinel

end Pg.Rbt
