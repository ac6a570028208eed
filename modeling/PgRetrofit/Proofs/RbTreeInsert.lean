import PgRetrofit.Sanity.RbTreeSearch

/-! Insertion keeps a red-black tree balanced. -/

namespace Pg.Rbt

open RedBlack SortedList List ColorTree TreePath

variable {α : Type} {s : Mem α} {c : Color} {d e : Side} {g p v : Ptr × α} {sp un a b t : Shape α}
  {k : Around α} {n fuel : ℕ} {x : Ptr}

theorem insertFixupSide_red (h : At s (⟨e, .red, p, sp⟩ :: ⟨d, .black, g, un⟩ :: k) t) (ht : t ≠ .nil)
    (hun : un.color = .red) :
    ∃ s', insertFixupSide d (ptr t) s = .ok (g.1, s') ∧
      At s' k (.mk d .red g (.mk e .black p t sp) un.blacken) := by
  obtain ⟨c, v, a, b, rfl⟩ := exists_mk d (ne_nil_of_red hun)
  obtain rfl : c = .red := by rwa [color_mk] at hun
  have hp : At s (⟨d, .black, g, .mk d .red v a b⟩ :: k) (.mk e .red p t sp) := at_near.2 h
  have hg : At s k (.mk d .black g (.mk e .red p t sp) (.mk d .red v a b)) := at_near.2 hp
  have hparent := hp.parent mk_ne_nil
  rw [ptr_mk] at hparent
  rw [insertFixupSide, bind_ok (h.parent ht), above, bind_ok hparent, above, bind_ok hg.far,
    bind_ok (at_far.1 hg).color, color_mk, if_pos rfl, bind_ok (h.parent ht)]
  -- the three changes of colour
  obtain ⟨s1, hs1, h1, -⟩ := hp.setColor .black
  rw [above, bind_ok hs1, ptr_mk]
  obtain ⟨s2, hs2, h2, -⟩ := (at_far.1 (at_near.2 h1)).setColor .black
  have hg2 := at_far.2 h2
  have hx2 := at_near.1 (at_near.1 hg2)
  have hparent2 := (at_near.1 hg2).parent mk_ne_nil
  rw [ptr_mk] at hparent2
  rw [bind_ok hs2, bind_ok (hx2.parent ht), above, bind_ok hparent2]
  obtain ⟨s3, hs3, h3, -⟩ := hg2.setColor .red
  have hx3 := at_near.1 (at_near.1 h3)
  have hparent3 := (at_near.1 h3).parent mk_ne_nil
  rw [ptr_mk] at hparent3
  rw [above, bind_ok hs3, bind_ok (hx3.parent ht), above, hparent3, blacken_mk]
  exact ⟨s3, rfl, h3⟩

theorem insertFixupOuter_inner (h : At s (⟨d.other, .red, p, sp⟩ :: k) (.mk d c v a b)) :
    ∃ s', insertFixupOuter d v.1 s = .ok (p.1, s') ∧ At s' (⟨d, c, v, b⟩ :: k) (.mk d .red p sp a) := by
  have hp : At s k (.mk d .red p sp (.mk d c v a b)) := at_far.2 h
  have hfar := hp.far
  have hparent := h.parent mk_ne_nil
  rw [ptr_mk] at hfar hparent
  obtain ⟨s', hs', h', -⟩ := hp.rotate
  rw [insertFixupOuter, bind_ok hparent, above, bind_ok hfar, if_pos rfl,
    bind_ok hparent, above, bind_ok hs']
  exact ⟨s', rfl, at_near.1 h'⟩

theorem insertFixupOuter_outer (h : At s (⟨d, .red, p, sp⟩ :: k) t) (ht : t ≠ .nil) :
    insertFixupOuter d (ptr t) s = .ok (ptr t, s) := by
  have hp := at_near.2 h
  rw [insertFixupOuter, bind_ok (h.parent ht), above, bind_ok hp.far, if_neg (hp.ptr_ne ht)]
  rfl

theorem insertFixupRotate_spec (h : At s (⟨d, .red, p, sp⟩ :: ⟨d, .black, g, un⟩ :: k) t)
    (ht : t ≠ .nil) :
    ∃ s', insertFixupRotate d (ptr t) s = .ok (ptr t, s') ∧
      At s' (⟨d, .black, p, .mk d .red g sp un⟩ :: k) t := by
  obtain ⟨s1, hs1, h1, -⟩ := (at_near.2 h).setColor .black
  have hx1 := at_near.1 h1
  have hparent1 := h1.parent mk_ne_nil
  rw [ptr_mk] at hparent1
  obtain ⟨s2, hs2, h2, -⟩ := (at_near.2 h1).setColor .red
  have hp2 := at_near.1 h2
  have hx2 := at_near.1 hp2
  have hparent2 := hp2.parent mk_ne_nil
  rw [ptr_mk] at hparent2
  have hrot : At s2 k (.mk d.other .red g un (.mk d.other .black p sp t)) := by
    rw [mk_other, mk_other]
    exact h2
  obtain ⟨s3, hs3, h3, -⟩ := hrot.rotate
  rw [insertFixupRotate, bind_ok (h.parent ht), above, bind_ok hs1, bind_ok (hx1.parent ht), above,
    bind_ok hparent1, above, bind_ok hs2,
    bind_ok (hx2.parent ht), above, bind_ok hparent2, above, bind_ok hs3]
  refine ⟨s3, rfl, at_near.1 ?_⟩
  rw [mk_other, mk_other] at h3
  exact h3

variable (h : At s (⟨e, .red, p, sp⟩ :: ⟨d, .black, g, un⟩ :: k) t)
include h

theorem insertFixupSide_black (ht : t.color = .red) (hun : un.color = .black)
    (htn : t.Balanced n) (hsp : sp.Balanced n) (hspc : sp.color = .black) (hunn : un.Balanced n) :
    ∃ s' q b t', insertFixupSide d (ptr t) s = .ok (ptr t', s') ∧ At s' (⟨d, .black, q, b⟩ :: k) t' ∧
      t'.color = .red ∧ t'.Balanced n ∧ b.Balanced n ∧
      (mk d .black q t' b).toList = (mk d .black g (.mk e .red p t sp) un).toList := by
  have hp : At s (⟨d, .black, g, un⟩ :: k) (.mk e .red p t sp) := at_near.2 h
  have hg : At s k (.mk d .black g (.mk e .red p t sp) un) := at_near.2 hp
  have hparent := hp.parent mk_ne_nil
  have hne := ne_nil_of_red ht
  rw [ptr_mk] at hparent
  rw [insertFixupSide, bind_ok (h.parent hne), above, bind_ok hparent, above, bind_ok hg.far,
    bind_ok (at_far.1 hg).color, hun, if_neg (by decide)]
  by_cases he : e = d
  · subst he
    obtain ⟨s', hs', h'⟩ := insertFixupRotate_spec h hne
    rw [bind_ok (insertFixupOuter_outer h hne)]
    exact ⟨s', p, _, t, hs', h', ht, htn, balanced_red.2 ⟨hsp, hunn, hspc, hun⟩, toList_rotate⟩
  obtain rfl := Side.eq_other he
  obtain ⟨v, a, b, rfl, han, hbn, hac, hbc⟩ := htn.exists_red ht d
  obtain ⟨s1, hs1, h1⟩ := insertFixupOuter_inner h
  obtain ⟨s', hs', h'⟩ := insertFixupRotate_spec h1 mk_ne_nil
  rw [ptr_mk] at hs' ⊢
  rw [bind_ok hs1]
  refine ⟨s', v, _, _, ?_, h', color_mk, balanced_red.2 ⟨hsp, han, hspc, hac⟩,
    balanced_red.2 ⟨hbn, hunn, hbc, hun⟩, ?_⟩
  · rw [ptr_mk]
    exact hs'
  have hrot : (mk d .red p sp (.mk d .red v a b)).toList = (mk d .red v (.mk d .red p sp a) b).toList :=
    toList_rotate
  rw [mk_other]
  calc _ = (mk d .black g (.mk d .red v (.mk d .red p sp a) b) un).toList := toList_rotate
    _ = _ := toList_mk_congr hrot.symm rfl

theorem insertFixupLoop_side (ht : t ≠ .nil) :
    insertFixupLoop (fuel + 1) (ptr t) s = (insertFixupSide d (ptr t) >>= insertFixupLoop fuel) s := by
  have hp : At s (⟨d, .black, g, un⟩ :: k) (.mk e .red p t sp) := at_near.2 h
  have hg : At s k (.mk d .black g (.mk e .red p t sp) un) := at_near.2 hp
  have hparent := hp.parent mk_ne_nil
  have hcolor := hp.color
  have hne := hg.ptr_ne mk_ne_nil
  rw [ptr_mk] at hparent hcolor hne
  rw [insertFixupLoop, bind_ok getRoot_ok, if_neg h.not_root, bind_ok (h.parent ht), above,
    bind_ok hcolor, color_mk, if_neg (not_not_intro rfl), bind_ok (h.parent ht), bind_ok (h.parent ht),
      above, bind_ok hparent, above]
  cases d with
  | left =>
    have hleft := hg.near
    rw [ptr_mk] at hleft
    rw [bind_ok hleft, if_pos rfl]
  | right =>
    have hleft : getChild .left g.1 s = .ok (ptr un, s) := hg.far
    rw [bind_ok hleft, if_neg hne]

omit h

theorem insertFixupLoop_spec (h : At s k t) (ht : t.color = .red) (htn : t.Balanced n) (hk : k.Fits n)
    (hfuel : k.length < fuel) :
    ∃ s' t' m, insertFixupLoop fuel (ptr t) s = .ok ((), s') ∧ At s' [] t' ∧ t' ≠ .nil ∧
      t'.toList = (k.fill t).toList ∧ t'.Balanced m := by
  induction fuel generalizing s k t n with
  | zero => omega
  | succ fuel ih => ?_
  have hne := ne_nil_of_red ht
  cases hk with
  | nil =>
    rw [insertFixupLoop, bind_ok getRoot_ok, if_pos ((ptr_eq_root h).2 rfl)]
    exact ⟨s, t, n, rfl, h, hne, rfl, htn⟩
  | @black d q y k m hy hk =>
    -- the parent is black
    have hp := at_near.2 h
    have hcolor := hp.color
    rw [ptr_mk] at hcolor
    rw [insertFixupLoop, bind_ok getRoot_ok, if_neg h.not_root, bind_ok (h.parent hne), above,
      bind_ok hcolor, color_mk]
    obtain ⟨m, hm, -⟩ := hk.balanced_fill (htn.mk_black d q hy) fun _ => color_mk
    refine ⟨s, k.fill (.mk d .black q t y), m, rfl, ?_, ?_, rfl, hm⟩
    · exact at_fill.1 hp
    · exact fill_ne_nil k mk_ne_nil
  | @red e p sp d g un k m hsp hspc hk => ?_
  rw [insertFixupLoop_side h hne]
  cases hk with
  | black hun hk =>
    rw [length_cons, length_cons] at hfuel
    cases huc : un.color with
    | red =>
      obtain ⟨s1, hs1, h1⟩ := insertFixupSide_red h hne huc
      rw [bind_ok hs1]
      have hp := htn.mk_black e p hsp
      obtain ⟨s', t', m, hs', h', hne', hlist, hm⟩ := ih h1 color_mk
        (balanced_red.2 ⟨hp, hun.blacken_red huc, color_mk, color_blacken⟩) hk (by omega)
      rw [ptr_mk] at hs'
      refine ⟨s', t', m, hs', h', hne', hlist.trans (toList_fill_congr ?_ k), hm⟩
      exact toList_mk_congr toList_mk_color toList_blacken
    | black =>
      obtain ⟨s1, q, b, t1, hs1, h1, hc1, hn1, hb, hlist1⟩ :=
        insertFixupSide_black h ht huc htn hsp hspc hun
      rw [bind_ok hs1]
      obtain ⟨s', t', m, hs', h', hne', hlist, hm⟩ :=
        ih h1 hc1 hn1 (.black hb hk) (by rw [length_cons]; omega)
      exact ⟨s', t', m, hs', h', hne', hlist.trans (toList_fill_congr hlist1 k), hm⟩

theorem rbtInsertFixup_spec (h : At s k t) (ht : t.color = .red) (htn : t.Balanced n) (hk : k.Fits n)
    (hfuel : k.length < fuel) :
    ∃ s' t' m, rbtInsertFixup fuel (ptr t) s = .ok ((), s') ∧ At s' [] t' ∧
      t'.toList = (k.fill t).toList ∧ t'.Balanced m ∧ t'.color = .black := by
  obtain ⟨s1, t1, m1, hs1, h1, hne, hlist, hm1⟩ := insertFixupLoop_spec h ht htn hk hfuel
  obtain ⟨c, v, a, b, rfl⟩ := exists_mk .left hne
  obtain ⟨s2, hs2, h2, -⟩ := h1.setColor .black
  obtain ⟨m, hm⟩ := hm1.blacken
  have hroot := h1.around
  rw [rbtInsertFixup, bind_ok hs1, bind_ok getRoot_ok, show s1.root = v.1 from hroot, hs2]
  exact ⟨s2, _, m, rfl, h2, toList_mk_color.trans hlist, hm, color_mk⟩

def Fresh (s : Mem α) (x : Ptr) : Prop := x ≠ null ∧ x ≠ rbtnil ∧ s.node x = none

instance (s : Mem α) (x : Ptr) : Decidable (Fresh s x) := inferInstanceAs (Decidable (_ ∧ _ ∧ _))

theorem insertNode_spec {last : ℤ} {v : α} (h : At s k .nil) (hlast : LastCmp last k) (hx : Fresh s x) :
    ∃ s', insertNode x (above k) last v s = .ok ((), s') ∧ At s' k (.node .red (x, v) .nil .nil) := by
  obtain ⟨hnull, hnil, hfree⟩ := hx
  have hxk : x ∉ addrsAround k := fun hm => h.around.allocated x hm hfree
  have hkn : (addrsAround k).Nodup := h.nodup
  generalize hs1 : (s.setNode x ⟨.red, rbtnil, rbtnil, above k⟩).setData x v = s1
  have hmod : (modify fun s => (s.setNode x ⟨.red, rbtnil, rbtnil, above k⟩).setData x v : Exec α Unit)
      s = .ok ((), s1) := by
    rw [← hs1]
    rfl
  have hagree : Agree s s1 (addrsAround k) := by
    intro p hp
    have hne : p ≠ x := fun he => hxk (he ▸ hp)
    rw [← hs1]
    exact ⟨setNode_of_ne hne, Function.update_of_ne hne ..⟩
  have haround : HoldsAround s1 k rbtnil := h.around.congr hagree (by rw [← hs1]; rfl)
  have hnode : s1.node x = some ⟨.red, rbtnil, rbtnil, above k⟩ := by rw [← hs1]; exact setNode_self ..
  have hdata : s1.data x = some v := by rw [← hs1]; exact Function.update_self ..
  have hsent : s1.node rbtnil = s.node rbtnil := by rw [← hs1]; exact setNode_of_ne hnil.symm
  -- the link to the new node
  have hlink : ∃ s', (if above k ≠ null then if last < 0 then setChild .left (above k) x
    else setChild .right (above k) x
      else setRoot x : Exec α Unit) s1 = .ok ((), s') ∧ HoldsAround s' k x ∧
        Only (addrsAround k) s1 s' := by
    cases k with
    | nil =>
      exact ⟨_, rfl, rfl, fun _ _ => rfl, rfl⟩
    | cons f k => ?_
    have hset := haround.setChild hkn x
    have hside : f.side = if last < 0 then .left else .right := hlast
    rw [hside] at hset
    rw [above, if_pos (h.proper _ mem_cons_self).1]
    split_ifs at hset ⊢ <;> exact hset
  obtain ⟨s', hs', haround', honly⟩ := hlink
  rw [insertNode, bind_ok hmod]
  refine ⟨s', hs', ⟨⟨?_, ?_, trivial, trivial⟩, haround', nodup_cons.2 ⟨hxk, hkn⟩, ?_, ?_⟩⟩
  · rw [honly.node x hxk, hnode]
    rfl
  · rw [honly.data, hdata]
  · intro p hp
    rcases mem_cons.1 hp with rfl | hp
    · exact ⟨hnull, hnil⟩
    · exact h.proper p hp
  · rw [honly.node rbtnil fun hm => (h.proper _ hm).2 rfl, hsent]
    exact h.sentinel

variable {rbt : RBTree α}

def KeepsKey (rbt : RBTree α) : Prop :=
  ∀ old new, rbt.comparator new old = 0 → rbt.comparator (rbt.combiner old new) old = 0

theorem rbtInsert_spec {v : α} (ho : Total rbt.comparator) (hkeep : KeepsKey rbt)
    (h : Valid rbt s t) (hx : Fresh s x) (hfuel : (entries t).length < fuel) :
    ∃ s' t' p isNew, rbtInsert rbt fuel x v s = .ok ((p, isNew), s') ∧ Valid rbt s' t' ∧
      entries t' = SortedList.insert rbt.comparator rbt.combiner v (entries t) ∧
      (isNew = true ↔ ∀ e ∈ entries t, rbt.comparator v e ≠ 0) := by
  have hsize : t.toList.length < fuel := by rwa [entries, length_map] at hfuel
  have hfill : TreePath.fill (seek rbt.comparator v [] t).1 (seek rbt.comparator v [] t).2 = t :=
    seek_fill _ v [] t
  have hat := seek_at h.mem rbt.comparator v
  have hsorted := h.sorted
  have hroot : s.root = ptr t := h.mem.around
  rw [rbtInsert, bind_ok getRoot_ok, hroot]
  rcases insertSearch_eq rbt v h.mem (show LastCmp 0 [] from trivial) hsize
    with ⟨c, u, l, r, hfound, hs⟩ | ⟨last, hfound, hlast, hs⟩
  · -- the key is there
    rw [show above [] = null from rfl] at hs
    have hcmp := seek_found hfound
    rw [hfound] at hfill hat
    generalize (seek rbt.comparator v [] t).1 = k at hfill hat
    have hmk : At s k (.mk .left c u l r) := hat
    obtain ⟨hset, hat'⟩ := hmk.setData
    rw [bind_ok hs]
    dsimp only
    rw [bind_ok (getData_ok hmk.data), bind_ok hset]
    subst hfill
    rw [entries_fill_node] at hsorted ⊢
    have hbetween := Sorted.between ho hsorted hcmp
    obtain ⟨n, hn⟩ := h.balanced
    obtain ⟨n, hn, hfits, hcolor⟩ := fits_of_fill k hn h.black
    have hn' : (mk .left c (u.1, rbt.combiner u.2 v) l r).Balanced n :=
      ColorTree.Balanced.setValue _ (show (mk .left c u l r).Balanced n from hn)
    obtain ⟨m, hm, hblack⟩ := hfits.balanced_fill hn' hcolor
    have hentries : entries (k.fill (.node c (u.1, rbt.combiner u.2 v) l r)) = _ := entries_fill_node ..
    refine ⟨_, k.fill (.node c (u.1, rbt.combiner u.2 v) l r), u.1, false, rfl,
      ⟨?_, ?_, ⟨m, hm⟩, ?_⟩, ?_, ?_⟩
    · exact at_fill.1 hat'
    · cases k with
      | nil => exact h.black
      | cons f k => exact hblack (cons_ne_nil _ _)
    · rw [hentries]
      exact sorted_new ho (sorted_without hsorted) (Sorted.between ho hsorted (hkeep _ _ hcmp))
    · rw [hentries, insert_found hbetween.1 hcmp]
    · refine ⟨fun hf => absurd hf Bool.false_ne_true, fun hall => absurd hcmp (hall _ ?_)⟩
      exact mem_append_right _ mem_cons_self
  · -- a new node in the hole
    rw [show above [] = null from rfl] at hs
    have hbetween := seek_between ho hsorted ⟨fun _ ha => absurd ha not_mem_nil,
      fun _ ha => absurd ha not_mem_nil⟩ hfound
    rw [hfound] at hfill hat
    generalize (seek rbt.comparator v [] t).1 = k at hfill hat hbetween hlast hs
    obtain ⟨s1, hs1, hat1⟩ := insertNode_spec (v := v) hat hlast hx
    subst hfill
    obtain ⟨n, hn⟩ := h.balanced
    obtain ⟨n, hn, hfits, -⟩ := fits_of_fill k hn h.black
    obtain rfl : n = 0 := by cases hn; rfl
    have hlen := length_le_fill k (.nil : Shape α)
    have hklen : k.length < fuel := by omega
    obtain ⟨s', t', m, hs', hat', hlist, hm, hblack⟩ :=
      rbtInsertFixup_spec hat1 rfl (.red .nil .nil rfl rfl) hfits hklen
    rw [bind_ok hs]
    dsimp only
    rw [bind_ok hs1]
    have hs' : rbtInsertFixup fuel x s1 = .ok ((), s') := hs'
    have hentries : entries t' = entriesBefore k ++ v :: entriesAfter k := by
      rw [entries, hlist]
      exact entries_fill k _
    have hold : entries (k.fill .nil) = entriesBefore k ++ entriesAfter k := entries_fill k .nil
    rw [hold] at hsorted ⊢
    rw [bind_ok hs']
    refine ⟨s', t', x, true, rfl, ⟨hat', hblack, ⟨m, hm⟩, ?_⟩, ?_, ?_⟩
    · rw [hentries]
      exact sorted_new ho hsorted hbetween
    · rw [hentries, insert_new hbetween]
    · exact ⟨fun _ => hbetween.cmp_ne, fun _ => rfl⟩

end Pg.Rbt
