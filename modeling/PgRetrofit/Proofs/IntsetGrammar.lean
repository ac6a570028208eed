import PgRetrofit.Sanity.IntsetScan

/-! The texts the scanner accepts are those of the grammar, and it refuses a text at the first byte
with which no text of the grammar goes on: each of its states has a language of what may follow. -/

namespace Pg.Intset

open Language Computability Result List

def afterNum : Language UInt8 := ws∗ * (more * (byte rbrace * ws∗))

def afterComma : Language UInt8 := ws∗ * (num * afterNum)

def opened : Language UInt8 := ws∗ * (num * afterNum + byte rbrace * ws∗)

/-- what may follow in each state; `buf` is empty until the first comma -/
def follow (s : Scan) : Language UInt8 :=
  match s.bracket, s.number with
  | .none, _ => grammar
  | .left, .expectingNum => if s.buf = [] then opened else afterComma
  | .left, .insideNum => (oneByte isDigit)∗ * afterNum
  | .left, .notExpectingNum => afterNum
  | .leftAndRight, _ => ws∗

variable {p : UInt8 → Bool} {M : Language UInt8} {c : UInt8} {w : List UInt8}

theorem kstar_mul_eq (X M : Language UInt8) : X∗ * M = M + X * (X∗ * M) := by
  conv_lhs => rw [← one_add_self_mul_kstar_eq_kstar, add_mul, one_mul, mul_assoc]

theorem cons_mem_oneByte_mul : c :: w ∈ oneByte p * M ↔ p c = true ∧ w ∈ M := by
  constructor
  · rintro ⟨_, ⟨d, hd, rfl⟩, v, hv, heq⟩
    obtain ⟨rfl, rfl⟩ := cons.inj heq
    exact ⟨hd, hv⟩
  · exact fun ⟨hc, hw⟩ => ⟨[c], ⟨c, hc, rfl⟩, w, hw, rfl⟩

theorem cons_mem_kstar_mul : c :: w ∈ (oneByte p)∗ * M ↔
    c :: w ∈ M ∨ p c = true ∧ w ∈ (oneByte p)∗ * M := by
  rw [kstar_mul_eq, mem_add, cons_mem_oneByte_mul, ← kstar_mul_eq]

theorem cons_mem_ws : c :: w ∈ ws∗ ↔ isWhitespace c = true ∧ w ∈ ws∗ := by
  rw [← mul_one ws∗, cons_mem_kstar_mul, or_iff_right (by exact cons_ne_nil c w)]

theorem grammar_eq : grammar = ws∗ * (byte lbrace * opened) := by
  simp only [grammar, opened, afterNum, mul_assoc, add_mul, one_mul]

theorem mem_num_mul : c :: w ∈ num * M ↔ isDigit c = true ∧ w ∈ (oneByte isDigit)∗ * M := by
  rw [num, mul_assoc, cons_mem_oneByte_mul]

theorem cons_mem_afterNum : c :: w ∈ afterNum ↔ isWhitespace c = true ∧ w ∈ afterNum ∨
    c = comma ∧ w ∈ afterComma ∨ c = rbrace ∧ w ∈ ws∗ := by
  have hmore : c :: w ∈ more * (byte rbrace * ws∗) ↔
      c = rbrace ∧ w ∈ ws∗ ∨ c = comma ∧ w ∈ afterComma := by
    rw [more, kstar_mul_eq, ← more, mem_add]
    simp only [mul_assoc, cons_mem_oneByte_mul, beq_iff_eq, afterComma, afterNum]
  rw [afterNum, cons_mem_kstar_mul, hmore, or_comm, or_comm (a := c = rbrace ∧ _)]

/-- the states the scanner comes to -/
def Reached (s : Scan) : Prop :=
  match s.bracket with
  | .none => s.number = .notExpectingNum ∧ s.buf = []
  | .left => True
  | .leftAndRight => s.number = .notExpectingNum

variable {str : CString} {slots : ℕ} {s : Scan}

/-- A byte is refused in a state if no text that may follow begins with it. -/
theorem scanStep_follow (hs : Reached s) (hroom : s.buf.length < slots) (w : List UInt8) :
    Ends (fun _ => c :: w ∉ follow s) (fun s' => Reached s' ∧ s'.buf.length ≤ s.buf.length + 1 ∧
      (c :: w ∈ follow s ↔ w ∈ follow s')) (scanStep str slots s c) := by
  -- no byte belongs to two of the scanner's cases
  have h1 : isWhitespace comma = false ∧ isWhitespace lbrace = false ∧
    isWhitespace rbrace = false := by decide
  have h2 : isDigit comma = false ∧ isDigit lbrace = false ∧ isDigit rbrace = false := by decide
  have h3 : lbrace ≠ comma ∧ rbrace ≠ comma ∧ lbrace ≠ rbrace := by decide
  have h4 := @digit_spec c
  obtain ⟨br, nu, ln, buf⟩ := s
  cases br with
  | none =>
    obtain ⟨rfl, rfl⟩ : nu = .notExpectingNum ∧ buf = [] := hs
    unfold scanStep
    simp only [follow, grammar_eq, cons_mem_kstar_mul, cons_mem_oneByte_mul, beq_iff_eq]
    split_ifs <;> simp_all [Ends, Reached]
    all_goals grind
  | leftAndRight =>
    obtain rfl : nu = .notExpectingNum := hs
    unfold scanStep
    split_ifs <;> simp_all [Ends, Reached, follow, cons_mem_ws]
  | left => ?_
  unfold scanStep Scan.push
  cases nu with
  | notExpectingNum =>
    simp only [if_pos hroom, Except.bind, follow, cons_mem_afterNum]
    split_ifs <;> simp_all [Ends, Reached]
    all_goals grind
  | insideNum =>
    simp only [if_pos hroom, Except.bind, follow, cons_mem_kstar_mul, cons_mem_afterNum]
    split_ifs <;> simp_all [Ends, Reached]
    all_goals grind
  | expectingNum => ?_
  by_cases hbuf : buf = []
  · simp only [Except.bind, follow, if_pos hbuf, opened, cons_mem_kstar_mul, mem_add, mem_num_mul,
      cons_mem_oneByte_mul, beq_iff_eq]
    split_ifs <;> simp_all [Ends, Reached]
    all_goals grind
  · simp only [Except.bind, follow, if_neg hbuf, afterComma, cons_mem_kstar_mul, mem_num_mul]
    split_ifs <;> simp_all [Ends, Reached]

theorem nil_mem_mul {L M : Language UInt8} : [] ∈ L * M ↔ [] ∈ L ∧ [] ∈ M := by
  simp only [mem_mul, append_eq_nil_iff]
  exact ⟨fun ⟨_, ha, _, hb, h⟩ => ⟨h.1 ▸ ha, h.2 ▸ hb⟩, fun h => ⟨[], h.1, [], h.2, rfl, rfl⟩⟩

theorem nil_mem_follow (hs : Reached s) :
    [] ∈ follow s ↔ s.bracket = .leftAndRight ∧ s.number = .notExpectingNum := by
  have hbyte : ∀ p, [] ∉ oneByte p := fun p ⟨_, _, h⟩ => cons_ne_nil _ _ h.symm
  have hafter : [] ∉ afterNum := by
    simp only [afterNum, nil_mem_mul, hbyte, false_and, and_false, not_false_eq_true]
  obtain ⟨br, nu, ln, buf⟩ := s
  cases br with
  | none => simp [follow, grammar_eq, nil_mem_mul, hbyte]
  | leftAndRight => exact iff_of_true (nil_mem_kstar _) ⟨rfl, hs⟩
  | left => ?_
  refine iff_of_false ?_ fun h => nomatch h.1
  cases nu with
  | notExpectingNum => exact hafter
  | insideNum => exact fun h => hafter (nil_mem_mul.1 h).2
  | expectingNum =>
    simp only [follow]
    split_ifs <;> simp only [opened, afterComma, nil_mem_mul, mem_add, hbyte, hafter, false_and,
      and_false, or_self, not_false_eq_true]

theorem scanFold_follow (w : List UInt8) (hs : Reached s) (hroom : s.buf.length + w.length ≤ slots) :
    (∃ t, w.foldlM (scanStep str slots) s = .ok t ∧
      ¬ (t.bracket ≠ .leftAndRight ∨ t.number ≠ .notExpectingNum)) ↔ w ∈ follow s := by
  induction w generalizing s with
  | nil =>
    rw [nil_mem_follow hs, ← not_not (a := _ ∧ _), not_and_or]
    exact ⟨fun ⟨t, ht, h⟩ => foldlM_nil_ok.1 ht ▸ h, fun h => ⟨s, rfl, h⟩⟩
  | cons c w ih => ?_
  rw [length_cons] at hroom
  have hstep : Ends _ _ (scanStep str slots s c) := scanStep_follow hs (by omega) w
  rw [foldlM_cons]
  cases hc : scanStep str slots s c with
  | error e =>
    rw [hc] at hstep
    exact iff_of_false (fun ⟨_, h, _⟩ => nomatch h) hstep
  | ok s' =>
    rw [hc] at hstep
    obtain ⟨hs', hlen, hiff⟩ := hstep
    rw [hiff, ← ih hs' (by omega)]
    rfl

/-- In every state some text may follow. -/
theorem follow_nonempty (hs : Reached s) : ∃ w, w ∈ follow s := by
  have hclose : [rbrace] ∈ byte rbrace * ws∗ := cons_mem_oneByte_mul.2 ⟨rfl, nil_mem_kstar _⟩
  have hafter : [rbrace] ∈ afterNum := cons_mem_afterNum.2 (.inr (.inr ⟨rfl, nil_mem_kstar _⟩))
  have hinside : [rbrace] ∈ (oneByte isDigit)∗ * afterNum := cons_mem_kstar_mul.2 (.inl hafter)
  have hopened : [rbrace] ∈ opened := cons_mem_kstar_mul.2 (.inl (.inr hclose))
  obtain ⟨br, nu, ln, buf⟩ := s
  cases br with
  | none =>
    refine ⟨[lbrace, rbrace], ?_⟩
    rw [follow, grammar_eq]
    exact cons_mem_kstar_mul.2 (.inl (cons_mem_oneByte_mul.2 ⟨rfl, hopened⟩))
  | leftAndRight => exact ⟨[], nil_mem_kstar _⟩
  | left => ?_
  cases nu with
  | notExpectingNum => exact ⟨_, hafter⟩
  | insideNum => exact ⟨_, hinside⟩
  | expectingNum =>
    by_cases hbuf : buf = []
    · exact ⟨[rbrace], by rwa [follow, if_pos hbuf]⟩
    · refine ⟨[48, rbrace], ?_⟩
      rw [follow, if_neg hbuf]
      exact cons_mem_kstar_mul.2 (.inl (mem_num_mul.2 ⟨rfl, hinside⟩))

/-- The scanner gets through `p` if some text that may follow begins with it. -/
theorem scanFold_ok_iff (p : List UInt8) (hs : Reached s) (hroom : s.buf.length + p.length ≤ slots) :
    (∃ t, p.foldlM (scanStep str slots) s = .ok t) ↔ ∃ w, p ++ w ∈ follow s := by
  induction p generalizing s with
  | nil => exact iff_of_true ⟨s, rfl⟩ (follow_nonempty hs)
  | cons c p ih => ?_
  rw [length_cons] at hroom
  have hstep : ∀ w, Ends _ _ (scanStep str slots s c) := scanStep_follow hs (by omega)
  rw [foldlM_cons]
  cases hc : scanStep str slots s c with
  | error e =>
    rw [hc] at hstep
    exact iff_of_false (fun ⟨_, h⟩ => nomatch h) fun ⟨w, hw⟩ => hstep (p ++ w) hw
  | ok s' =>
    rw [hc] at hstep
    obtain ⟨hs', hlen, -⟩ := hstep []
    refine (ih hs' (by omega)).trans (exists_congr fun w => ?_)
    exact (hstep (p ++ w)).2.2.symm

/-- The stores run over the buffer at a place up to which the text may be one of the grammar. -/
theorem scan_ne_outOfBounds_iff (str : CString) :
    scan str (nreserveSlot str) ≠ .error .outOfBounds ↔ HasRoom str := by
  rw [scan_stays_iff]
  refine forall_congr' fun p => forall_congr' fun hp => ?_
  have hfold : (∃ s, p.foldlM (scanStep str str.strlen) Scan.init = .ok s) ↔
      ∃ w, p ++ w ∈ follow Scan.init :=
    scanFold_ok_iff p ⟨rfl, rfl⟩ ((Nat.zero_add _).trans_le hp.length_le)
  exact ⟨fun h hopens => (hfold.2 hopens).elim h, fun h s hs => h (hfold.1 ⟨s, hs⟩)⟩

/-- The scanner accepts the texts of the grammar and no others. -/
theorem syntaxOk_iff (str : CString) : SyntaxOk str ↔ str.bytes ∈ grammar := by
  rw [← show follow Scan.init = grammar from rfl,
    ← scanFold_follow (s := Scan.init) str.bytes ⟨rfl, rfl⟩ (Nat.zero_add _).le]
  constructor
  · rintro ⟨s, hs⟩
    obtain ⟨t, ht, hend⟩ := bind_eq_ok.1 hs
    refine ⟨t, ht, fun h => ?_⟩
    rw [if_pos h] at hend
    cases hend
  · rintro ⟨t, ht, hend⟩
    exact ⟨t, bind_eq_ok.2 ⟨t, ht, if_neg hend⟩⟩

end Pg.Intset
