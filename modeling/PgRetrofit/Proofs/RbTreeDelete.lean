import PgRetrofit.Sanity.RbTreeSearch

/-! Deletion keeps a red-black tree balanced. -/

namespace Pg.Rbt

open RedBlack SortedList List ColorTree TreePath Function

variable {α : Type} {s s' : Mem α} {c : Color} {d e : Side} {p q u v : Ptr × α} {w a b x t : Shape α}
  {k : Around α} {n fuel : ℕ} {y : Ptr}

/-- The parent of the focus can be read: for an empty one the sentinel points to it. -/
def ParentKnown (s : Mem α) (k : Around α) (t : Shape α) : Prop :=
  t = .nil → ∃ n, s.node rbtnil = some n ∧ n.parent = above k

theorem ParentKnown.parent (hp : ParentKnown s k t) (h : At s k t) :
    getParent (ptr t) s = .ok (above k, s) := by
  by_cases ht : t = .nil
  · obtain ⟨n, hn, hparent⟩ := hp ht
    rw [ht, ptr, getParent_ok hn, hparent]
  · exact h.parent ht

theorem ParentKnown.congr (hp : ParentKnown s k t) (hs : s'.node rbtnil = s.node rbtnil) (k' : Around α)
    (hk : above k' = above k) :
    ParentKnown s' k' t := by
  intro ht
  rw [hs, hk]
  exact hp ht

/-- A red sibling: after a rotation the sibling is black. -/
theorem deleteFixupSibling_red (h : At s (⟨d, c, p, .mk d .red q a b⟩ :: k) t)
    (hp : ParentKnown s (⟨d, c, p, .mk d .red q a b⟩ :: k) t) :
    ∃ s', deleteFixupSibling d (ptr t) q.1 s = .ok (ptr a, s') ∧
      At s' (⟨d, .red, p, a⟩ :: ⟨d, .black, q, b⟩ :: k) t ∧ s'.node rbtnil = s.node rbtnil := by
  have hq := at_far.1 (at_near.2 h)
  have hcolor := hq.color
  rw [ptr_mk, color_mk] at hcolor
  obtain ⟨s1, hs1, h1, hnil1⟩ := hq.setColor .black
  have ht1 := at_near.1 (at_far.2 h1)
  have hp1 : ParentKnown s1 _ t := hp.congr hnil1 (⟨d, c, p, .mk d .black q a b⟩ :: k) rfl
  obtain ⟨s2, hs2, h2, hnil2⟩ := (at_far.2 h1).setColor .red
  have ht2 := at_near.1 h2
  have hp2 : ParentKnown s2 _ t := hp1.congr hnil2 (⟨d, .red, p, .mk d .black q a b⟩ :: k) rfl
  obtain ⟨s3, hs3, h3, hnil3⟩ := h2.rotate
  have hfar := (at_near.1 h3).far
  have ht3 := at_near.1 (at_near.1 h3)
  have hp3 : ParentKnown s3 _ t := hp2.congr hnil3 (⟨d, .red, p, a⟩ :: ⟨d, .black, q, b⟩ :: k) rfl
  rw [deleteFixupSibling, bind_ok hcolor, if_pos rfl, bind_ok hs1, bind_ok (hp1.parent ht1),
    above, bind_ok hs2, bind_ok (hp2.parent ht2), above, bind_ok hs3,
      bind_ok (hp3.parent ht3), above, hfar]
  exact ⟨s3, rfl, ht3, by rw [hnil3, hnil2, hnil1]⟩

theorem deleteFixupSibling_black (h : At s (⟨d, c, p, w⟩ :: k) t) (hw : w.color = .black) :
    deleteFixupSibling d (ptr t) (ptr w) s = .ok (ptr w, s) := by
  rw [deleteFixupSibling, bind_ok (at_far.1 (at_near.2 h)).color, hw]
  rfl

theorem bothBlack_eq (h : At s k (.mk d c q a b)) :
    bothBlack d q.1 s = .ok (decide (a.color = .black ∧ b.color = .black), s) := by
  rw [bothBlack, bind_ok h.near, bind_ok (at_near.1 h).color]
  by_cases ha : a.color = .black
  · rw [if_pos ha, bind_ok h.far, bind_ok (at_far.1 h).color]
    simp [ha, pure_ok]
  · simp [ha, pure_ok]

/-- The near child of the sibling is red and the far one black: after a rotation the far one is red. -/
theorem deleteFixupNephew_near (h : At s (⟨d, c, p, .mk d .black q (.mk d .red u a b) x⟩ :: k) t)
    (hp : ParentKnown s (⟨d, c, p, .mk d .black q (.mk d .red u a b) x⟩ :: k) t)
    (hx : x.color = .black) :
    ∃ s', deleteFixupNephew d (ptr t) q.1 s = .ok (u.1, s') ∧
      At s' (⟨d, c, p, .mk d .black u a (.mk d .red q b x)⟩ :: k) t ∧
      s'.node rbtnil = s.node rbtnil := by
  have hq := at_far.1 (at_near.2 h)
  have hnear := hq.near
  rw [ptr_mk] at hnear
  obtain ⟨s1, hs1, h1, hnil1⟩ := (at_near.1 hq).setColor .black
  obtain ⟨s2, hs2, h2, hnil2⟩ := (at_near.2 h1).setColor .red
  have hrot : At s2 (⟨d.other, c, p, t⟩ :: k) (.mk d.other .red q x (.mk d.other .black u b a)) := by
    rw [mk_other, mk_other]
    exact h2
  obtain ⟨s3, hs3, h3, hnil3⟩ := hrot.rotate
  rw [mk_other, mk_other] at h3
  have hnil : s3.node rbtnil = s.node rbtnil := by rw [hnil3, hnil2, hnil1]
  have ht3 := at_near.1 (at_far.2 h3)
  have hp3 : ParentKnown s3 _ t :=
    hp.congr hnil (⟨d, c, p, .mk d .black u a (.mk d .red q b x)⟩ :: k) rfl
  have hfar := (at_far.2 h3).far
  rw [ptr_mk] at hfar
  rw [deleteFixupNephew, bind_ok hq.far, bind_ok (at_far.1 hq).color, hx, if_pos rfl, bind_ok hnear,
    bind_ok hs1, bind_ok hs2, bind_ok hs3, bind_ok (hp3.parent ht3), above, hfar]
  exact ⟨s3, rfl, ht3, hnil⟩

variable (h : At s (⟨d, c, p, .mk d .black q a b⟩ :: k) t)
include h

theorem deleteFixupNephew_far (hb : b.color = .red) :
    deleteFixupNephew d (ptr t) q.1 s = .ok (q.1, s) := by
  have hq := at_far.1 (at_near.2 h)
  rw [deleteFixupNephew, bind_ok hq.far, bind_ok (at_far.1 hq).color, hb]
  rfl

theorem deleteFixupRotate_spec (hp : ParentKnown s (⟨d, c, p, .mk d .black q a b⟩ :: k) t)
    (hb : b ≠ .nil) :
    ∃ s', deleteFixupRotate d (ptr t) q.1 s = .ok (s'.root, s') ∧
      At s' k (.mk d c q (.mk d .black p t a) b.blacken) := by
  obtain ⟨cb, r, b1, b2, rfl⟩ := exists_mk .left hb
  have hcolor := (at_near.2 h).color
  rw [ptr_mk, color_mk] at hcolor
  obtain ⟨s1, hs1, h1, hnil1⟩ := (at_far.1 (at_near.2 h)).setColor c
  have ht1 := at_near.1 (at_far.2 h1)
  have hp1 : ParentKnown s1 _ t :=
    hp.congr hnil1 (⟨d, c, p, .mk d c q a (.mk .left cb r b1 b2)⟩ :: k) rfl
  obtain ⟨s2, hs2, h2, hnil2⟩ := (at_far.2 h1).setColor .black
  have hq2 := at_far.1 h2
  have hfar := hq2.far
  rw [ptr_mk] at hfar
  obtain ⟨s3, hs3, h3, hnil3⟩ := (at_far.1 hq2).setColor .black
  have hp3' := at_far.2 (at_far.2 h3)
  have ht3 := at_near.1 hp3'
  have hp3 : ParentKnown s3 _ t :=
    hp1.congr (hnil3.trans hnil2) (⟨d, .black, p, .mk d c q a (.mk .left .black r b1 b2)⟩ :: k) rfl
  obtain ⟨s4, hs4, h4, -⟩ := hp3'.rotate
  rw [deleteFixupRotate, bind_ok (hp.parent h), above, bind_ok hcolor, bind_ok hs1,
    bind_ok (hp1.parent ht1), above, bind_ok hs2, bind_ok hfar, bind_ok hs3,
    bind_ok (hp3.parent ht3), above, bind_ok hs4, getRoot_ok]
  exact ⟨s4, rfl, h4⟩

omit h

/-- One black node is missing on the way to the focus. A red root of the focus may have red
children, it will be made black. -/
def OneShort (k : Around α) (t : Shape α) : Prop :=
  ∃ n, k.Fits (n + 1) ∧ (t.color = .black ∧ t.Balanced n ∨ t.color = .red ∧ t.blacken.Balanced (n + 1))

variable (h : At s (⟨d, c, p, .mk d .black q a b⟩ :: k) t)
  (hp : ParentKnown s (⟨d, c, p, .mk d .black q a b⟩ :: k) t)
include h hp

variable (hk : TreePath.Fits (⟨d, c, p, .mk d .black q a b⟩ :: k) (n + 1))
include hk

theorem deleteFixupRotate_done (ht : t.Balanced n) (hb : b.color = .red) :
    ∃ s' t', deleteFixupRotate d (ptr t) q.1 s = .ok (ptr t', s') ∧ At s' [] t' ∧
      t' ≠ .nil ∧ OneShort [] t' ∧ t'.toList = (k.fill (.mk d c p t (.mk d .black q a b))).toList := by
  obtain ⟨s', hs', h'⟩ := deleteFixupRotate_spec h hp (ne_nil_of_red hb)
  generalize ht' : mk d c q (.mk d .black p t a) b.blacken = t' at h'
  have hroot := at_fill.1 h'
  have hlist : t'.toList = (mk d c p t (.mk d .black q a b)).toList := by
    rw [← ht']
    calc _ = (mk d c q (.mk d .black p t a) b).toList := toList_mk_congr rfl toList_blacken
      _ = _ := toList_rotate.symm
  have hbal : ∃ m, (k.fill t').Balanced m ∧ (k.fill t').color = .black := by
    cases hk with
    | black hw hk =>
      obtain ⟨ha, hbn⟩ := balanced_black_succ.1 hw
      have hbal := (ht.mk_black d p ha).mk_black d q (hbn.blacken_red hb)
      rw [ht'] at hbal
      have hc : t'.color = .black := by rw [← ht', color_mk]
      obtain ⟨m, hm, hblack⟩ := hk.balanced_fill hbal fun _ => hc
      refine ⟨m, hm, ?_⟩
      cases k with
      | nil => exact hc
      | cons f k => exact hblack (cons_ne_nil _ _)
    | red hw _ hk => ?_
    obtain ⟨ha, hbn⟩ := balanced_black_succ.1 hw
    have hbal : (mk d .red q (.mk d .black p t a) b.blacken).Balanced (n + 1) :=
      balanced_red.2 ⟨ht.mk_black d p ha, hbn.blacken_red hb, color_mk, color_blacken⟩
    rw [ht'] at hbal
    obtain ⟨m, hm, hblack⟩ := hk.balanced_fill hbal fun hf => by cases hf
    exact ⟨m, hm, hblack (cons_ne_nil _ _)⟩
  obtain ⟨m, hm, hblack⟩ := hbal
  rw [hs', ← (ptr_eq_root hroot).2 rfl]
  exact ⟨s', k.fill t', rfl, hroot, fill_ne_nil k (ht' ▸ mk_ne_nil), ⟨m, .nil _, .inl ⟨hblack, hm⟩⟩,
    toList_fill_congr hlist k⟩

/-- A round with a black sibling. The focus moves to the parent, or to the root when it is done. -/
theorem deleteFixupBlack_spec (ht : t.Balanced n) :
    ∃ s' k' t', deleteFixupBlack d (ptr t) q.1 s = .ok (ptr t', s') ∧ At s' k' t' ∧
      t' ≠ .nil ∧ OneShort k' t' ∧ (k'.fill t').toList =
        (k.fill (.mk d c p t (.mk d .black q a b))).toList ∧ (k' = k ∧ t'.color = c ∨ k' = []) := by
  have hq := at_far.1 (at_near.2 h)
  rw [deleteFixupBlack, bind_ok (bothBlack_eq hq)]
  by_cases hboth : a.color = .black ∧ b.color = .black
  · -- the sibling becomes red
    rw [decide_eq_true hboth, if_pos rfl]
    obtain ⟨s', hs', h', hnil⟩ := hq.setColor .red
    have hparent := at_far.2 h'
    have hp' : ParentKnown s' _ t := hp.congr hnil (⟨d, c, p, .mk d .red q a b⟩ :: k) rfl
    rw [bind_ok hs', hp'.parent (at_near.1 hparent)]
    refine ⟨s', k, .mk d c p t (.mk d .red q a b),
      by rw [ptr_mk]; rfl, hparent, mk_ne_nil, ?_, ?_, .inl ⟨rfl, color_mk⟩⟩
    · cases hk with
      | black hw hk =>
        obtain ⟨ha, hbn⟩ := balanced_black_succ.1 hw
        exact ⟨n + 1, hk, .inl ⟨color_mk, ht.mk_black d p (balanced_red.2 ⟨ha, hbn, hboth⟩)⟩⟩
      | red hw _ hk =>
        obtain ⟨ha, hbn⟩ := balanced_black_succ.1 hw
        refine ⟨n, hk, .inr ⟨color_mk, ?_⟩⟩
        rw [blacken_mk]
        exact ht.mk_black d p (balanced_red.2 ⟨ha, hbn, hboth⟩)
    · exact toList_fill_congr (toList_mk_congr rfl toList_mk_color) k
  rw [decide_eq_false hboth, if_neg Bool.false_ne_true]
  cases hb : b.color with
  | red =>
    rw [bind_ok (deleteFixupNephew_far h hb)]
    obtain ⟨s', t', hs', h', hne, hshort, hlist⟩ := deleteFixupRotate_done h hp hk ht hb
    exact ⟨s', [], t', hs', h', hne, hshort, hlist, .inr rfl⟩
  | black => ?_
  -- the near child of the sibling is red
  have hac : a.color = .red := by
    cases hac : a.color with
    | red => rfl
    | black => exact absurd ⟨hac, hb⟩ hboth
  have hw : (mk d .black q a b).Balanced (n + 1) := by cases hk <;> assumption
  obtain ⟨ha, hbn⟩ := balanced_black_succ.1 hw
  obtain ⟨u, a1, a2, rfl, ha1, ha2, hc1, hc2⟩ := ha.exists_red hac d
  obtain ⟨s1, hs1, h1, hnil1⟩ := deleteFixupNephew_near h hp hb
  have hp1 : ParentKnown s1 _ t :=
    hp.congr hnil1 (⟨d, c, p, .mk d .black u a1 (.mk d .red q a2 b)⟩ :: k) rfl
  have hw1 := ha1.mk_black d u (balanced_red.2 ⟨ha2, hbn, hc2, hb⟩ : (mk d .red q a2 b).Balanced n)
  have hk1 : TreePath.Fits (⟨d, c, p, .mk d .black u a1 (.mk d .red q a2 b)⟩ :: k) (n + 1) := by
    cases hk with
    | black _ hk => exact .black hw1 hk
    | red _ _ hk => exact .red hw1 color_mk hk
  obtain ⟨s', t', hs', h', hne, hshort, hlist⟩ := deleteFixupRotate_done h1 hp1 hk1 ht color_mk
  rw [bind_ok hs1]
  refine ⟨s', [], t', hs', h', hne, hshort, hlist.trans ?_, .inr rfl⟩
  exact toList_fill_congr (toList_mk_congr rfl toList_rotate) k

omit hk

omit hp h

theorem deleteFixupSide_spec (h : At s (⟨d, c, p, w⟩ :: k) t) (hp : ParentKnown s (⟨d, c, p, w⟩ :: k) t)
    (hk : TreePath.Fits (⟨d, c, p, w⟩ :: k) (n + 1)) (ht : t.Balanced n) :
    ∃ s' k' t', deleteFixupSide d (ptr t) s = .ok (ptr t', s') ∧ At s' k' t' ∧
      t' ≠ .nil ∧ OneShort k' t' ∧ (k'.fill t').toList = (k.fill (.mk d c p t w)).toList ∧
      (k'.length ≤ k.length ∨ k'.length = k.length + 1 ∧ t'.color = .red) := by
  rw [deleteFixupSide, bind_ok (hp.parent h), above, bind_ok (at_near.2 h).far]
  have hw : w.Balanced (n + 1) := by cases hk <;> assumption
  cases hwc : w.color with
  | black =>
    obtain ⟨q, a, b, rfl⟩ := hw.exists_black hwc d
    obtain ⟨s', k', t', hs', h', hne, hshort, hlist, hcases⟩ := deleteFixupBlack_spec h hp hk ht
    rw [bind_ok (deleteFixupSibling_black h hwc), ptr_mk]
    refine ⟨s', k', t', hs', h', hne, hshort, hlist, .inl ?_⟩
    rcases hcases with ⟨rfl, -⟩ | rfl
    · exact le_rfl
    · exact Nat.zero_le _
  | red => ?_
  -- the parent is black, and red after the rotation
  obtain ⟨q, a, b, rfl, ha, hb, hac, hbc⟩ := hw.exists_red hwc d
  obtain ⟨s1, hs1, h1, hnil1⟩ := deleteFixupSibling_red h hp
  have hp1 : ParentKnown s1 _ t := hp.congr hnil1 (⟨d, .red, p, a⟩ :: ⟨d, .black, q, b⟩ :: k) rfl
  rw [ptr_mk, bind_ok hs1]
  obtain ⟨r, a1, a2, rfl⟩ := ha.exists_black hac d
  cases hk with
  | red _ hred _ => exact absurd (hred.symm.trans hwc) (by decide)
  | black _ hk => ?_
  obtain ⟨s', k', t', hs', h', hne, hshort, hlist, hcases⟩ :=
    deleteFixupBlack_spec h1 hp1 (.red ha hac (.black hb hk)) ht
  rw [ptr_mk]
  refine ⟨s', k', t', hs', h', hne, hshort, hlist.trans ?_, ?_⟩
  · exact toList_fill_congr toList_rotate.symm k
  · rcases hcases with ⟨rfl, hc⟩ | rfl
    · exact .inr ⟨rfl, hc⟩
    · exact .inl (Nat.zero_le _)

theorem deleteFixupLoop_side (h : At s (⟨d, c, p, w⟩ :: k) t) (hp : ParentKnown s (⟨d, c, p, w⟩ :: k) t)
    (hw : w ≠ .nil) (htc : t.color = .black) :
    deleteFixupLoop (fuel + 1) (ptr t) s = (deleteFixupSide d (ptr t) >>= deleteFixupLoop fuel) s := by
  have hg := at_near.2 h
  rw [deleteFixupLoop, bind_ok getRoot_ok, if_neg h.not_root, bind_ok h.color, htc,
    if_neg (not_not_intro rfl), bind_ok (hp.parent h), above]
  cases d with
  | left => rw [bind_ok hg.near, if_pos rfl]
  | right => ?_
  have hleft : getChild .left p.1 s = .ok (ptr w, s) := hg.far
  have hne : ptr t ≠ ptr w := by
    have hg' : At s k (.mk .left c p w t) := hg
    exact (hg'.ptr_ne hw).symm
  rw [bind_ok hleft, if_neg hne]

/-- How many more rounds there can be. -/
def rounds (k : Around α) (t : Shape α) : ℕ := k.length + if t.color = .black then 1 else 0

theorem deleteFixupLoop_spec (h : At s k t) (hp : ParentKnown s k t) (hshort : OneShort k t)
    (hfuel : rounds k t < fuel) :
    ∃ s' k' t', deleteFixupLoop fuel (ptr t) s = .ok (ptr t', s') ∧ At s' k' t' ∧ OneShort k' t' ∧
      (k'.fill t').toList = (k.fill t).toList ∧ (k' = [] ∨ t'.color = .red) := by
  induction fuel generalizing s k t with
  | zero => omega
  | succ fuel ih => ?_
  cases k with
  | nil =>
    rw [deleteFixupLoop, bind_ok getRoot_ok, if_pos ((ptr_eq_root h).2 rfl)]
    exact ⟨s, [], t, rfl, h, hshort, rfl, .inl rfl⟩
  | cons f k => ?_
  obtain ⟨d, c, p, w⟩ := f
  obtain ⟨n, hk, ⟨htc, ht⟩ | ⟨htc, ht⟩⟩ := hshort
  · have hw : w ≠ .nil := by
      rintro rfl
      cases hk with
      | black hw _ => cases hw
      | red hw _ _ => cases hw
    rw [deleteFixupLoop_side h hp hw htc]
    obtain ⟨s1, k1, t1, hs1, h1, hne1, hshort1, hlist1, hlen1⟩ := deleteFixupSide_spec h hp hk ht
    rw [bind_ok hs1]
    have hrounds : rounds k1 t1 < fuel := by
      rw [rounds, htc, if_pos rfl, length_cons] at hfuel
      rw [rounds]
      rcases hlen1 with hlen | ⟨hlen, hred⟩
      · split_ifs <;> omega
      · rw [hred, if_neg (by decide)]
        omega
    obtain ⟨s', k', t', hs', h', hshort', hlist', hend⟩ :=
      ih h1 (fun hn => absurd hn hne1) hshort1 hrounds
    exact ⟨s', k', t', hs', h', hshort', hlist'.trans hlist1, hend⟩
  · rw [deleteFixupLoop, bind_ok getRoot_ok, if_neg h.not_root, bind_ok h.color, htc]
    exact ⟨s, _, t, rfl, h, ⟨n, hk, .inr ⟨htc, ht⟩⟩, rfl, .inr htc⟩

/-- The root of the focus is made black, also if it is the sentinel. -/
theorem At.blacken (h : At s k t) :
    ∃ s', Rbt.setColor (ptr t) .black s = .ok ((), s') ∧ At s' k t.blacken := by
  cases t with
  | node c v l r =>
    have hmk : At s k (.mk .left c v l r) := h
    obtain ⟨s', hs', h', -⟩ := hmk.setColor .black
    exact ⟨s', hs', h'⟩
  | nil =>
    obtain ⟨n, hn, -⟩ := h.sentinel
    refine ⟨_, setColor_ok hn, trivial, ?_, h.nodup, h.proper, ⟨_, setNode_self .., rfl⟩⟩
    refine h.around.congr (agree_setNode fun hm => ?_) rfl
    exact (h.proper _ (mem_append_right _ hm)).2 rfl

/-- The run ended with a red-black tree of these nodes. -/
abbrev Leaves (run : Except Fault (Unit × Mem α)) (nodes : List (Ptr × α)) : Prop :=
  ∃ s' t', run = .ok ((), s') ∧ At s' [] t' ∧ t'.toList = nodes ∧
    (∃ m, t'.Balanced m) ∧ t'.color = .black

theorem rbtDeleteFixup_spec (h : At s k t) (hp : ParentKnown s k t) (hshort : OneShort k t)
    (hfuel : rounds k t < fuel) :
    Leaves (rbtDeleteFixup fuel (ptr t) s) (k.fill t).toList := by
  obtain ⟨s1, k1, t1, hs1, h1, ⟨n, hk, hcases⟩, hlist, hend⟩ := deleteFixupLoop_spec h hp hshort hfuel
  obtain ⟨s2, hs2, h2⟩ := h1.blacken
  have hroot := at_fill.1 h2
  have hlist' : (k1.fill t1.blacken).toList = (k.fill t).toList :=
    (toList_fill_congr toList_blacken k1).trans hlist
  rw [rbtDeleteFixup, bind_ok hs1, hs2]
  rcases hend with rfl | hred
  · have hbal : ∃ m, t1.blacken.Balanced m := by
      rcases hcases with ⟨hc, hb⟩ | ⟨-, hb⟩
      · exact ⟨n, by rwa [blacken_of_black hc]⟩
      · exact ⟨_, hb⟩
    exact ⟨s2, _, rfl, hroot, hlist', hbal, color_blacken⟩
  · rcases hcases with ⟨hc, -⟩ | ⟨-, hb⟩
    · exact absurd (hc.symm.trans hred) (by decide)
    obtain ⟨m, hm, hblack⟩ := hk.balanced_fill hb fun _ => color_blacken
    refine ⟨s2, _, rfl, hroot, hlist', ⟨m, hm⟩, ?_⟩
    cases k1 with
    | nil => exact color_blacken
    | cons f k1 => exact hblack (cons_ne_nil _ _)

theorem onlyChild_eq (h : At s k (.mk d c u .nil x)) : onlyChild u.1 s = .ok (ptr x, s) := by
  have hnear := h.near
  cases d with
  | left =>
    have hright : getChild .right u.1 s = .ok (ptr x, s) := h.far
    rw [onlyChild, bind_ok hnear, ptr, if_neg (not_not_intro rfl), hright]
  | right => ?_
  have hleft : getChild .left u.1 s = .ok (ptr x, s) := h.far
  rw [onlyChild, bind_ok hleft]
  split_ifs with hx
  · exact hleft
  · rw [hnear, not_not.1 hx]
    rfl

theorem setParent_holds {r : Ptr} (h : Holds s r x) (hnodup : (addrs x).Nodup)
    (hnil : ∃ n, s.node rbtnil = some n ∧ n.color = .black) (hproper : ∀ p ∈ addrs x, p ≠ rbtnil)
    (k : Around α) :
    ∃ s', setParent (ptr x) (above k) s = .ok ((), s') ∧ Holds s' (above k) x ∧ ParentKnown s' k x ∧
      Only (rbtnil :: addrs x) s s' ∧
      s'.root = s.root ∧ ∃ n, s'.node rbtnil = some n ∧ n.color = .black := by
  cases x with
  | nil =>
    obtain ⟨n, hn, hc⟩ := hnil
    refine ⟨_, setParent_ok hn, trivial, fun _ => ⟨_, setNode_self .., rfl⟩,
      ⟨fun p hp => setNode_of_ne ?_, rfl⟩, rfl, _, setNode_self .., hc⟩
    rintro rfl
    exact hp mem_cons_self
  | node c v l r => ?_
  obtain ⟨s', hs', hx, honly, hroot⟩ := setParentUnlessNil_holds h hnodup hproper (above k)
  have hne : ptr (node c v l r) ≠ rbtnil := hproper _ mem_cons_self
  rw [setParentUnlessNil, if_pos hne] at hs'
  refine ⟨s', hs', hx, (fun hn => by cases hn),
    ⟨fun p hp => honly.node p fun hm => hp (mem_cons_of_mem _ hm), honly.data⟩, hroot, ?_⟩
  rwa [honly.node _ fun hm => hproper _ hm rfl]

theorem unlink_spec (h : At s k (.mk d c u .nil x)) :
    ∃ s1 s', setParent (ptr x) (above k) s = .ok ((), s1) ∧
      replaceChild .left u.1 (ptr x) s1 = .ok ((), s') ∧ At s' k x ∧ ParentKnown s' k x ∧
      s'.data = s.data ∧ s'.node u.1 = s.node u.1 ∧ u.1 ∉ addrs x ++ addrsAround k := by
  obtain ⟨hu, -, -, hx⟩ := holds_mk.1 h.tree
  obtain ⟨-, hux, huk, hnodup⟩ := nodup_mk h.nodup
  obtain ⟨hxn, hkn, hdis⟩ := nodup_append.1 (show (addrs x ++ addrsAround k).Nodup from hnodup)
  have hproper : ∀ p ∈ addrs x ++ addrsAround k, p ≠ null ∧ p ≠ rbtnil := by
    intro p hp
    refine h.proper p ?_
    rcases mem_append.1 hp with hp | hp
    · exact mem_append_left _ (mem_addrs_mk.2 (.inr (.inr hp)))
    · exact mem_append_right _ hp
  have hunil := h.node_proper.2
  obtain ⟨s1, hs1, hx1, hparent1, honly1, hroot1, hnil1⟩ :=
    setParent_holds hx hxn h.sentinel (fun p hp => (hproper p (mem_append_left _ hp)).2) k
  have hkx : ∀ p ∈ addrsAround k, p ∉ rbtnil :: addrs x := by
    intro p hp hm
    rcases mem_cons.1 hm with rfl | hm
    · exact (hproper _ (mem_append_right _ hp)).2 rfl
    · exact hdis p hm p hp rfl
  have hu1 : s1.node u.1 = s.node u.1 := honly1.node _ fun hm => by
    rcases mem_cons.1 hm with he | hm
    · exact hunil he
    · exact hux hm
  have haround := h.around
  rw [ptr_mk] at haround
  obtain ⟨s', hs', haround', honly'⟩ := replaceChild_around (haround.congr (honly1.agree hkx) hroot1) hkn
    (fun p hp => (hproper p (mem_append_right _ hp)).1) (hu1.trans hu) of_parent huk hunil .left (ptr x)
  have hnil' : s'.node rbtnil = s1.node rbtnil := honly'.node _ fun hm => hkx _ hm mem_cons_self
  refine ⟨s1, s', hs1, hs', ⟨?_, haround', hnodup, hproper, by rwa [hnil']⟩,
    hparent1.congr hnil' k rfl, ?_, ?_, ?_⟩
  · exact hx1.congr (honly'.agree fun p hp hm => hdis p hp p hm rfl)
  · rw [honly'.data, honly1.data]
  · rw [honly'.node _ huk, hu1]
  · rw [mem_append, not_or]
    exact ⟨hux, huk⟩

theorem At.recycle (rbt : RBTree α) (h : At s k t) (hy : y ∉ addrs t ++ addrsAround k)
    (hnil : y ≠ rbtnil) :
    ∃ s', recycle rbt y s = .ok ((), s') ∧ At s' k t := by
  rw [Rbt.recycle]
  split_ifs
  · refine ⟨_, rfl, ?_⟩
    have hagree : ∀ l : List Ptr, y ∉ l →
        Agree s { s with node := update s.node y none, data := update s.data y none } l :=
      fun l hl p hp => by
        have hne : p ≠ y := fun e => hl (e ▸ hp)
        exact ⟨update_of_ne hne .., update_of_ne hne ..⟩
    rw [mem_append, not_or] at hy
    refine ⟨h.tree.congr (hagree _ hy.1), h.around.congr (hagree _ hy.2) rfl, h.nodup, h.proper, ?_⟩
    obtain ⟨n, hn, hc⟩ := h.sentinel
    exact ⟨n, (update_of_ne hnil.symm ..).trans hn, hc⟩
  · exact ⟨s, rfl, h⟩

variable {rbt : RBTree α}

/-- After the node has been taken out: the fixup if it was black, and its memory is freed. -/
theorem finish_spec {ny : RBTNode} (h : At s k x) (hp : ParentKnown s k x) (hy : s.node y = some ny)
    (hcy : ny.color = c) (hout : y ∉ addrs x ++ addrsAround k) (hnil : y ≠ rbtnil)
    (hbal : (mk d c u .nil x).Balanced n) (hk : k.Fits n) (hred : c = .red → k ≠ [])
    (hfuel : k.length + 1 < fuel) :
    Leaves ((fixupIfBlack fuel y (ptr x) >>= fun _ => recycle rbt y) s) (k.fill x).toList := by
  have hfix : Leaves (fixupIfBlack fuel y (ptr x) s) (k.fill x).toList := by
    rw [fixupIfBlack, bind_ok (getColor_ok hy), hcy]
    cases c with
    | black =>
      obtain ⟨m, rfl, -, hx⟩ := balanced_black.1 hbal
      have hshort : OneShort k x := by
        refine ⟨m, hk, ?_⟩
        cases hxc : x.color with
        | black => exact .inl ⟨rfl, hx⟩
        | red => exact .inr ⟨rfl, hx.blacken_red hxc⟩
      refine rbtDeleteFixup_spec h hp hshort ?_
      rw [rounds]
      split_ifs <;> omega
    | red =>
      obtain ⟨-, hx, -, hxc⟩ := balanced_red.1 hbal
      obtain ⟨m, hm, hblack⟩ := hk.balanced_fill hx fun _ => hxc
      exact ⟨s, k.fill x, rfl, at_fill.1 h, rfl, ⟨m, hm⟩, hblack (hred rfl)⟩
  obtain ⟨s1, t', hs1, h1, hlist, hrest⟩ := hfix
  have hout' : y ∉ addrs t' ++ addrsAround ([] : Around α) := by
    rwa [addrsAround, append_nil, mem_addrs_iff, hlist, ← mem_addrs_iff, (addrs_path_fill k x).mem_iff]
  obtain ⟨s2, hs2, h2⟩ := h1.recycle rbt hout' hnil
  rw [bind_ok hs1]
  exact ⟨s2, t', hs2, h2, hlist, hrest⟩

theorem removeNode_eq {z : Ptr} {s' : Mem α} (h : At s k (.mk d c u .nil x)) {s1 s2 : Mem α}
    (hs1 : setParent (ptr x) (above k) s = .ok ((), s1))
    (hs2 : replaceChild .left u.1 (ptr x) s1 = .ok ((), s2))
    (hcopy : copyUnlessSame z u.1 s2 = .ok ((), s')) :
    removeNode rbt fuel z u.1 s = (fixupIfBlack fuel u.1 (ptr x) >>= fun _ => recycle rbt u.1) s' := by
  have hparent := h.parent mk_ne_nil
  rw [ptr_mk] at hparent
  rw [removeNode, bind_ok (onlyChild_eq h), bind_ok hparent, bind_ok hs1, bind_ok hs2, bind_ok hcopy]

theorem removedNode_self {y : Shape α} (h : At s k (.mk d c v .nil y)) :
    removedNode fuel v.1 s = .ok (v.1, s) := by
  cases d with
  | left =>
    rw [removedNode, bind_ok h.near, ptr]
    rfl
  | right => ?_
  have hleft : getChild .left v.1 s = .ok (ptr y, s) := h.far
  have hright : getChild .right v.1 s = .ok (rbtnil, s) := h.near
  rw [removedNode, bind_ok hleft]
  split_ifs
  · rfl
  · rw [bind_ok hright]
    rfl

theorem removeNode_self (rbt : RBTree α) (h : At s k (.mk d c u .nil x))
    (hbal : (k.fill (.mk d c u .nil x)).Balanced n) (hblack : (k.fill (.mk d c u .nil x)).color = .black)
    (hfuel : (k.fill (.mk d c u .nil x)).toList.length < fuel) :
    Leaves ((removedNode fuel u.1 >>= removeNode rbt fuel u.1) s) (k.fill x).toList := by
  obtain ⟨m, hm, hk, -⟩ := fits_of_fill k hbal hblack
  obtain ⟨s1, s2, hs1, hs2, h2, hp2, hdata, hnode, hout⟩ := unlink_spec h
  have hcopy : copyUnlessSame u.1 u.1 s2 = .ok ((), s2) := by
    rw [copyUnlessSame, if_neg (not_not_intro rfl)]
    rfl
  have hlen := length_le_fill k (.mk d c u .nil x)
  rw [length_toList_mk] at hlen
  rw [bind_ok (removedNode_self h), removeNode_eq h hs1 hs2 hcopy]
  refine finish_spec h2 hp2 (hnode.trans h.node) of_color hout h.node_proper.2 hm hk ?_ (by omega)
  rintro rfl rfl
  rw [fill, color_mk] at hblack
  cases hblack

/-- The successor of `v` is taken out, and its data go to the node of `v`. -/
theorem removeNode_successor (rbt : RBTree α) {cz : Color} {l : Shape α} {spine : Around α}
    (h : At s (spine ++ ⟨.right, cz, v, l⟩ :: k) (.mk .left c u .nil x))
    (hbal : (k.fill (.mk .right cz v (fill spine (.mk .left c u .nil x)) l)).Balanced n)
    (hblack : (k.fill (.mk .right cz v (fill spine (.mk .left c u .nil x)) l)).color = .black)
    (hfuel : (k.fill (.mk .right cz v (fill spine (.mk .left c u .nil x)) l)).toList.length < fuel) :
    Leaves (removeNode rbt fuel v.1 u.1 s)
      (k.fill (.mk .right cz (v.1, u.2) (fill spine x) l)).toList := by
  obtain ⟨s1, s2, hs1, hs2, h2, hp2, hdata, hnode, hout⟩ := unlink_spec h
  -- the copy
  rw [at_append, at_cons] at h2
  have h2' : At s2 k (.mk .right cz v (fill spine x) l) := h2
  obtain ⟨hset, h3⟩ := h2'.setData
  generalize hs3 : s2.setData v.1 u.2 = s3 at hset h3
  have hmem : v.1 ∈ addrsAround (spine ++ ⟨.right, cz, v, l⟩ :: k) := by
    rw [addrsAround_append]
    exact mem_append_right _ mem_cons_self
  have hne : u.1 ≠ v.1 := fun he => hout (he ▸ mem_append_right _ hmem)
  have hcopy : copyUnlessSame v.1 u.1 s2 = .ok ((), s3) := by
    have hu : s2.data u.1 = some u.2 := by rw [hdata, h.data]
    rw [copyUnlessSame, if_pos hne, bind_ok (getData_ok hu), hset]
  have hnode3 : s3.node = s2.node := by rw [← hs3]; rfl
  -- the path with the new data
  generalize hk' : spine ++ ⟨.right, cz, (v.1, u.2), l⟩ :: k = k'
  have h4 : At s3 k' x := by
    rw [← hk', at_append, at_cons]
    exact h3
  have habove : above k' = above (spine ++ ⟨.right, cz, v, l⟩ :: k) := by
    rw [← hk']
    cases spine <;> rfl
  have haddrs : addrsAround k' = addrsAround (spine ++ ⟨.right, cz, v, l⟩ :: k) := by
    rw [← hk', addrsAround_append, addrsAround_append]
    rfl
  have hfill : ∀ t : Shape α, fill k' t = k.fill (.mk .right cz (v.1, u.2) (fill spine t) l) := by
    intro t
    rw [← hk', fill_append]
    rfl
  -- which does not matter for the balance
  have hbal' : ∃ m, (k'.fill (.mk .left c u .nil x)).Balanced m ∧
      (k'.fill (.mk .left c u .nil x)).color = .black := by
    obtain ⟨m, hm, hk, hc⟩ := fits_of_fill k hbal hblack
    rw [color_mk] at hc
    obtain ⟨m, hm, hroot⟩ := hk.balanced_fill (hm.setValue (v.1, u.2)) fun hr => by rw [color_mk, hc hr]
    rw [hfill]
    refine ⟨m, hm, ?_⟩
    cases k with
    | nil =>
      exact hblack
    | cons f k => exact hroot (cons_ne_nil _ _)
  obtain ⟨m, hm, hroot⟩ := hbal'
  obtain ⟨m, hm, hk, -⟩ := fits_of_fill k' hm hroot
  have hlen := length_le_fill (spine ++ ⟨.right, cz, v, l⟩ :: k) (.mk .left c u .nil x)
  rw [fill_append, length_toList_mk] at hlen
  have hlen' : k'.length + 1 < fuel := by
    refine lt_of_le_of_lt (le_trans ?_ hlen) hfuel
    rw [← hk', length_append, length_append, length_cons, length_cons]
    omega
  rw [removeNode_eq h hs1 hs2 hcopy, ← hfill]
  have hu := (congrFun hnode3 u.1).trans (hnode.trans h.node)
  refine finish_spec h4 (hp2.congr (congrFun hnode3 _) k' habove) hu of_color ?_
    h.node_proper.2 hm hk ?_ hlen'
  · rwa [haddrs]
  · rintro - hnil
    rw [← hk'] at hnil
    exact append_ne_nil_of_right_ne_nil _ (cons_ne_nil _ _) hnil

theorem rbtDelete_spec {t l r : Shape α} (hv : Valid rbt s t) (ht : t = k.fill (.node c v l r))
    (hfuel : (entries t).length < fuel) :
    ∃ s' t', rbtDelete rbt fuel v.1 s = .ok ((), s') ∧ Valid rbt s' t' ∧
      entries t' = (entriesBefore k ++ entries l) ++ (entries r ++ entriesAfter k) := by
  subst ht
  obtain ⟨n, hbal⟩ := hv.balanced
  have hblack := hv.black
  have hsize : (k.fill (.node c v l r)).toList.length < fuel := by rwa [entries, length_map] at hfuel
  have hat : At s k (.mk .left c v l r) := at_fill.2 hv.mem
  have hsorted := hv.sorted
  rw [entries_fill_node] at hsorted
  -- it is enough to say what is left
  suffices hremove :
    ∃ s' t', (removedNode fuel v.1 >>= removeNode rbt fuel v.1) s = .ok ((), s') ∧ At s' [] t' ∧
      entries t' = (entriesBefore k ++ entries l) ++ (entries r ++ entriesAfter k) ∧
      (∃ m, t'.Balanced m) ∧ t'.color = .black by
    obtain ⟨s', t', hs', h', hlist, hm, hc⟩ := hremove
    refine ⟨s', t', ?_, ⟨h', hc, hm, ?_⟩, hlist⟩
    · rw [rbtDelete, rbtDeleteNode, if_neg (by simp [hat.node_proper])]
      exact hs'
    · rw [hlist]
      exact sorted_without hsorted
  by_cases hl : l = .nil
  · subst hl
    obtain ⟨s', t', hs', h', hlist, hrest⟩ := removeNode_self rbt hat hbal hblack hsize
    refine ⟨s', t', hs', h', ?_, hrest⟩
    have hentries : entries t' = entries (k.fill r) := congrArg (map Prod.snd) hlist
    rw [hentries, entries_fill]
    simp [entries, toList, walk]
  by_cases hr : r = .nil
  · subst hr
    have hat' : At s k (.mk .right c v .nil l) := hat
    obtain ⟨s', t', hs', h', hlist, hrest⟩ := removeNode_self rbt hat' hbal hblack hsize
    refine ⟨s', t', hs', h', ?_, hrest⟩
    have hentries : entries t' = entries (k.fill l) := congrArg (map Prod.snd) hlist
    rw [hentries, entries_fill]
    simp [entries, toList, walk]
  -- the successor is the first node of the right subtree
  have hlen := length_le_fill k (.mk .left c v l r)
  rw [length_toList_mk] at hlen
  have hrfuel : r.toList.length ≤ fuel := by
    have : (k.fill (.mk .left c v l r)).toList.length < fuel := hsize
    omega
  obtain ⟨spine, cy, u, x, hs, hat', hfill, hbefore⟩ :=
    descend_spec (d := .left) (at_far.1 hat) hr hrfuel
  subst hfill
  have hright : getChild .right v.1 s = .ok (ptr (fill spine (.mk .left cy u .nil x)), s) := hat.far
  obtain ⟨s', t', hs', h', hlist, hrest⟩ := removeNode_successor rbt hat' hbal hblack hsize
  have hremoved : removedNode fuel v.1 s = .ok (u.1, s) := by
    rw [removedNode, bind_ok hat.near, if_neg (mt (ptr_eq_nil (at_near.1 hat)).1 hl), bind_ok hright,
      if_neg (mt (ptr_eq_nil (at_far.1 hat)).1 hr), bind_ok hright, hs]
  rw [bind_ok hremoved]
  refine ⟨s', t', hs', h', ?_, hrest⟩
  have hentries : entries t' = entries (k.fill (.node c (v.1, u.2) l (fill spine x))) :=
    congrArg (map Prod.snd) hlist
  have hspine : entriesBefore spine = [] := by rw [entriesBefore, hbefore, map_nil]
  have hnode : entries (.mk .left cy u .nil x) = u.2 :: entries x := entries_node ..
  rw [hentries, entries_fill_node, entries_fill spine, entries_fill spine, hspine, hnode]
  simp

end Pg.Rbt
