import PgRetrofit.Spec.HashJoin
import PgRetrofit.Proofs.HashTable

/-! Probing: the calls with one tuple return the matching tuples of its bucket's chain,
each once. -/

namespace Pg.HashJoin

open HashTable List

variable {α : Type*}

/-- the clauses, with the probing tuple's side first -/
def test (clauses : α → α → Bool) (a b : α) : Direction → Bool
  | .probeInner => clauses a b
  | .probeOuter => clauses b a

def pairOf (a b : α) : Direction → α × α
  | .probeInner => (a, b)
  | .probeOuter => (b, a)

def ownSlot (econtext : ExprContext α) : Direction → Option (MinimalTuple α)
  | .probeInner => econtext.outertuple
  | .probeOuter => econtext.innertuple

def hit (clauses : α → α → Bool) (d : Direction) (hashvalue : UInt32) (a : α)
    (p : UInt32 × MinimalTuple α) :
    Option α :=
  if p.1 = hashvalue ∧ test clauses a p.2.body d = true then some p.2.body else none

def hits (clauses : α → α → Bool) (d : Direction) (T : HashTable α) (hashvalue : UInt32)
    (a : α) (ks : List Loc) :
    List α :=
  ks.filterMap fun l => ((T.data.lookup l).map payload).bind (hit clauses d hashvalue a)

section Probe

variable {clauses : α → α → Bool} {d : Direction} {T : HashTable α} {hashvalue : UInt32} {ks : List Loc}
  {econtext : ExprContext α} {h : HashTuple α} {l : Loc}

theorem hits_cons (hl : T.data.lookup l = some h) (a : α) (ks : List Loc) :
    hits clauses d T hashvalue a (l :: ks) =
      (hit clauses d hashvalue a (payload h)).toList ++ hits clauses d T hashvalue a ks := by
  unfold hits
  rw [filterMap_cons, hl, Option.map_some, Option.bind_some]
  cases hit clauses d hashvalue a (payload h) <;> rfl

theorem ownSlot_storeTuple (econtext : ExprContext α) (t : MinimalTuple α) :
    ownSlot (storeTuple d econtext t) d = ownSlot econtext d := by
  cases d <;> rfl

theorem execQual_storeTuple {own : MinimalTuple α} (hown : ownSlot econtext d = some own)
    (t : MinimalTuple α) :
    execQual clauses (storeTuple d econtext t) = .ok (test clauses own.body t.body d) := by
  cases d <;> simp only [ownSlot] at hown <;> simp [execQual, storeTuple, hown, test]

theorem returnedPair_storeTuple {own : MinimalTuple α}
    (hown : ownSlot econtext d = some own) (t : MinimalTuple α) :
    returnedPair (storeTuple d econtext t) = .ok (pairOf own.body t.body d) := by
  cases d <;> simp only [ownSlot] at hown <;> simp [returnedPair, storeTuple, hown, pairOf]

/-- What a probe that still has the chain `ks` before it comes to: nothing, if the chain
has no hit, or the first hit, with the rest of the chain behind it. -/
def Found (clauses : α → α → Bool) (d : Direction) (T : HashTable α) (hashvalue : UInt32)
    (own : MinimalTuple α) (ks : List Loc) (r : Except Fault (Option Loc × ExprContext α)) : Prop :=
  (∃ ec, r = .ok (none, ec) ∧ hits clauses d T hashvalue own.body ks = []) ∨
  ∃ l b post ec, r = .ok (some l, ec) ∧ ownSlot ec d = some own ∧
    returnedPair ec = .ok (pairOf own.body b d) ∧
    (∃ h, T.data.lookup l = some h ∧ Chain T.link h.next post) ∧ (∀ k ∈ post, k ∈ ks) ∧
    post.length < ks.length ∧
    hits clauses d T hashvalue own.body ks = b :: hits clauses d T hashvalue own.body post

theorem Found.skip {own : MinimalTuple α}
    {r : Except Fault (Option Loc × ExprContext α)} (hr : Found clauses d T hashvalue own ks r)
    (hl : T.data.lookup l = some h) (hmiss : hit clauses d hashvalue own.body (payload h) = none) :
    Found clauses d T hashvalue own (l :: ks) r := by
  rw [Found, hits_cons hl, hmiss, Option.toList_none]
  refine hr.imp_right ?_
  rintro ⟨l', b, post, ec, h1, h2, h3, h4, h5, h6, h7⟩
  exact ⟨l', b, post, ec, h1, h2, h3, h4, fun k hk => mem_cons_of_mem _ (h5 k hk),
    Nat.lt_succ_of_lt h6, h7⟩

theorem probeLoop_spec {p : Option Loc} (hchain : Chain T.link p ks)
    (hstored : ∀ l ∈ ks, l ∈ T.data) {own : MinimalTuple α} (fuel : ℕ) (hfuel : ks.length ≤ fuel)
    (econtext : ExprContext α) (hown : ownSlot econtext d = some own) :
    Found clauses d T hashvalue own ks (probeLoop clauses d T hashvalue fuel p econtext) := by
  induction hchain generalizing fuel econtext with
  | nil => exact Or.inl ⟨econtext, by cases fuel <;> rfl, rfl⟩
  | @cons l ks htail ih => ?_
  obtain ⟨fuel, rfl⟩ : ∃ f, fuel = f + 1 := ⟨fuel - 1, by simp only [length_cons] at hfuel; omega⟩
  obtain ⟨h, hl⟩ : ∃ h, T.data.lookup l = some h :=
    Option.isSome_iff_exists.1 (AList.lookup_isSome.2 (hstored l (mem_cons_self ..)))
  have hnext : T.link l = h.next := by rw [link, hl]; rfl
  rw [hnext] at ih htail
  have hrest := fun ec hec => ih (fun k hk => hstored k (mem_cons_of_mem _ hk)) fuel
    (Nat.le_of_succ_le_succ hfuel) ec hec
  rw [probeLoop, hl]
  simp only
  by_cases hh : h.hashvalue = hashvalue
  · rw [if_pos hh, execQual_storeTuple hown]
    simp only [Except.bind]
    by_cases hpass : test clauses own.body h.tuple.body d = true
    · have hhit : hit clauses d hashvalue own.body (payload h) = some h.tuple.body := if_pos ⟨hh, hpass⟩
      rw [if_pos hpass]
      refine Or.inr ⟨l, h.tuple.body, ks, _, rfl, by rw [ownSlot_storeTuple, hown],
        returnedPair_storeTuple hown h.tuple, ⟨h, hl, htail⟩, fun k hk => mem_cons_of_mem _ hk,
        Nat.lt_succ_self _, ?_⟩
      rw [hits_cons hl, hhit]
      rfl
    · rw [if_neg hpass]
      exact (hrest _ (by rw [ownSlot_storeTuple, hown])).skip hl (if_neg fun h' => hpass h'.2)
  · rw [if_neg hh]
    exact (hrest econtext hown).skip hl (if_neg fun h' => hh h'.1)

/-- The cursor stands where the chain `ks` is still to be searched. -/
def Before (hj : HashJoinState α) (d : Direction) (ks : List Loc) : Prop :=
  ∃ p, probeStart (selected hj d).1 (selected hj d).2.1 (selected hj d).2.2.2 = .ok p ∧
    Chain (selected hj d).1.link p ks ∧ ∀ l ∈ ks, l ∈ (selected hj d).1.data

structure SameTables (hj hj' : HashJoinState α) : Prop where
  inner : hj'.hashTableInner = hj.hashTableInner
  outer : hj'.hashTableOuter = hj.hashTableOuter
  clauses : hj'.hashclauses = hj.hashclauses

theorem selected_setCur (hj : HashJoinState α) (l : Loc) : selected (setCur hj l d) d =
    ((selected hj d).1, some l, (selected hj d).2.2) := by
  cases d <;> rfl

/-- Calling until false returns the hits of the chain, in the chain's order. -/
theorem probeAll_spec (d : Direction) (calls : ℕ) (hcalls : ks.length < calls)
    (hj : HashJoinState α) (hbefore : Before hj d ks) {own : MinimalTuple α} (econtext : ExprContext α)
    (hown : ownSlot econtext d = some own) :
    ∃ hj', probeAll (fun hj ec => execProbeHashBucket hj ec d) calls hj econtext =
        .ok (hj', (hits hj.hashclauses d (selected hj d).1 (selected hj d).2.2.1 own.body ks).map
          fun b => pairOf own.body b d) ∧ SameTables hj hj' := by
  induction calls generalizing hj ks econtext with
  | zero => omega
  | succ calls ih => ?_
  obtain ⟨p, hp, hchain, hstored⟩ := hbefore
  have hfuel : ks.length ≤ (selected hj d).1.data.keys.length :=
    hchain.length_le fun l hl => AList.mem_keys.1 (hstored l hl)
  have hfound := @probeLoop_spec _ hj.hashclauses d _ (selected hj d).2.2.1 _ _ hchain hstored
    own _ hfuel econtext hown
  rw [probeAll, execProbeHashBucket]
  simp only [hp, Except.bind]
  rcases hfound
    with ⟨ec, hloop, hnone⟩ | ⟨l, b, post, ec, hloop, hown', hpair, ⟨h, hl, hpost⟩, hsub, hlt, hhits⟩
  · rw [hloop, hnone]
    exact ⟨hj, rfl, rfl, rfl, rfl⟩
  have hbefore' : Before (setCur hj l d) d post := by
    refine ⟨h.next, ?_, ?_, ?_⟩
    · rw [selected_setCur, probeStart]
      simp only [hl]
    · rw [selected_setCur]
      exact hpost
    · rw [selected_setCur]
      exact fun k hk => hstored k (hsub k hk)
  obtain ⟨hj', hrec, hsame⟩ := ih (by omega) (setCur hj l d) hbefore' ec hown'
  have hset : SameTables hj (setCur hj l d) := by cases d <;> exact ⟨rfl, rfl, rfl⟩
  rw [selected_setCur, hset.clauses] at hrec
  refine ⟨hj', ?_, hsame.inner.trans hset.inner, hsame.outer.trans hset.outer,
    hsame.clauses.trans hset.clauses⟩
  rw [hloop, hhits]
  simp only [if_pos, hpair, hrec]
  rfl

end Probe

end Pg.HashJoin
