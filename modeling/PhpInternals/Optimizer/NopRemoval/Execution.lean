import PhpInternals.Optimizer.NopRemoval.Relocation

/-!
# The same instructions are executed
-/

namespace PhpInternals.Optimizer.NopRemoval

open Function List Found

variable {D : Type}

/-! ## Executing an op array -/

/-- Which way an instruction goes on. -/
inductive Branch where
  | fallThrough
  /-- To one of the jump targets of the instruction. -/
  | jump (k : ℕ)
deriving DecidableEq

/-- The position, and the return addresses that `ZEND_FAST_CALL` has left in variables. -/
structure Machine where
  pc : ℕ
  lineno : ℕ → Option ℕ

/-- Where an instruction that may branch leads. -/
def OpArray.branch (A : OpArray D) (m : Machine) : Branch → Option Machine
  | .fallThrough => some { m with pc := m.pc + 1 }
  | .jump k => (((A.opcodes m.pc).targets m.pc)[k]?).map fun t => { m with pc := t.toNat }

/-- Where the instruction at the position of the machine leads. Only what branches looks at the
outcome. `ZEND_FAST_RET` without a return address raises an exception. -/
def OpArray.next (A : OpArray D) (m : Machine) (b : Branch) : Option Machine :=
  let op := A.opcodes m.pc
  match op.opcode with
  | .nop => some { m with pc := m.pc + 1 }
  | .jmp => some { m with pc := (offsetToOplineNum m.pc op.op1).toNat }
  | .fastCall =>
    some ⟨(offsetToOplineNum m.pc op.op1).toNat, update m.lineno op.result (some m.pc)⟩
  | .fastRet => (m.lineno op.op1.toNat).map fun l => { m with pc := l + 1 }
  | .leave _ => none
  | _ => A.branch m b

/-- The instructions that are executed from a position, for a sequence of branch outcomes. Silent
instructions use no outcome and are not listed. The last instruction is listed whether it leads on
or not. -/
inductive Trace (A : OpArray D) (silent : ℕ → Prop) : Machine → List Branch → List ℕ → Prop where
  | out {m : Machine} {bs : List Branch} : A.last ≤ m.pc → Trace A silent m bs []
  | skip {m m' : Machine} {bs : List Branch} {is : List ℕ} : m.pc < A.last → silent m.pc →
      A.next m .fallThrough = some m' → Trace A silent m' bs is → Trace A silent m bs is
  | pause {m : Machine} : m.pc < A.last → ¬ silent m.pc → Trace A silent m [] [m.pc]
  | stop {m : Machine} {b : Branch} {bs : List Branch} : m.pc < A.last → ¬ silent m.pc →
      A.next m b = none → Trace A silent m (b :: bs) [m.pc]
  | visit {m m' : Machine} {b : Branch} {bs : List Branch} {is : List ℕ} : m.pc < A.last →
      ¬ silent m.pc → A.next m b = some m' → Trace A silent m' bs is →
      Trace A silent m (b :: bs) (m.pc :: is)

variable {m : Machine}

lemma Trace.unique {A : OpArray D} {silent : ℕ → Prop} {bs : List Branch} {is is' : List ℕ}
    (h : Trace A silent m bs is) (h' : Trace A silent m bs is') : is = is' := by
  induction h generalizing is' with
  | out ho =>
    cases h' with
    | out => rfl
    | skip hin | pause hin | stop hin | visit hin => omega
  | skip hin hs hnx _ ih =>
    cases h' with
    | out ho => omega
    | skip _ _ hn' h' =>
      obtain rfl := Option.some.inj (hnx.symm.trans hn')
      exact ih h'
    | pause _ hnt | stop _ hnt | visit _ hnt => exact absurd hs hnt
  | pause hin hnt =>
    cases h' with
    | out ho => omega
    | skip _ hs => exact absurd hs hnt
    | pause => rfl
  | stop hin hnt hn =>
    cases h' with
    | out ho => omega
    | skip _ hs => exact absurd hs hnt
    | stop => rfl
    | visit _ _ hsm =>
      rw [hn] at hsm
      cases hsm
  | visit hin hnt hsm _ ih =>
    cases h' with
    | out ho => omega
    | skip _ hs => exact absurd hs hnt
    | stop _ _ hn =>
      rw [hn] at hsm
      cases hsm
    | visit _ _ hs' h' =>
      obtain rfl := Option.some.inj (hsm.symm.trans hs')
      rw [ih h']

/-! ## Before and after the pass -/

variable {A B : OpArray D} {bindings : List ℕ}

/-- The machine on the array after the pass stands where the other one does. -/
structure Follows (A : OpArray D) (m m' : Machine) : Prop where
  inside : m.pc ≤ A.last
  pc : m'.pc = A.image m.pc
  lineno : ∀ v, m'.lineno v = (m.lineno v).map A.image
  kept : ∀ v l, m.lineno v = some l → l < A.last ∧ ¬ A.Removed l

variable {m' : Machine}

lemma Follows.goto (hF : Follows A m m') {t : ℕ} (ht : t ≤ A.last) :
    Follows A { m with pc := t } { m' with pc := A.image t } :=
  ⟨ht, rfl, hF.lineno, hF.kept⟩

/-- **What is removed leads to the same place.** -/
theorem Follows.skip (hA : A.Valid bindings) (hF : Follows A m m') (hin : m.pc < A.last)
    (hr : A.Removed m.pc) :
    ∃ t, A.next m .fallThrough = some { m with pc := t } ∧ m.pc < t ∧
      Follows A { m with pc := t } m' := by
  have hg : ∀ t, m.pc < t → t ≤ A.last → A.image m.pc = A.image t →
      Follows A { m with pc := t } m' := fun t _ ht hi =>
    ⟨ht, hF.pc.trans hi, hF.lineno, hF.kept⟩
  rcases hr with hn | ⟨hjm, hp, hgp⟩
  · refine ⟨m.pc + 1, by simp [OpArray.next, hn], Nat.lt_succ_self _, ?_⟩
    exact hg _ (Nat.lt_succ_self _) hin (image_succ_of_removed (.inl hn)).symm
  have hmm : offsetToOplineNum m.pc (A.opcodes m.pc).op1 ∈ (A.opcodes m.pc).targets m.pc := by
    simp [Op.targets, hjm]
  obtain ⟨-, hlt⟩ := hA.targets m.pc hin _ hmm
  refine ⟨(offsetToOplineNum m.pc (A.opcodes m.pc).op1).toNat, by simp [OpArray.next, hjm], ?_⟩
  rw [offsetToOplineNum] at hlt ⊢
  refine ⟨by omega, ?_⟩
  refine hg _ (by omega) (by omega) (image_eq_of_gap (by omega) fun k hk hkt => ?_)
  rcases Nat.eq_or_lt_of_le hk with rfl | hk
  · exact .inr ⟨hjm, hp, hgp⟩
  · obtain ⟨j, rfl⟩ : ∃ j, k = m.pc + 1 + j := ⟨k - (m.pc + 1), by omega⟩
    exact .inl (hgp j (by omega))

lemma Relocated.opcode (hB : Relocated A B bindings) {i : ℕ} (hi : i < A.last)
    (hr : ¬ A.Removed i) : (B.opcodes (A.image i)).opcode = (A.opcodes i).opcode := by
  have hf : ∀ op : Op D, op.frame.opcode = op.opcode := fun op => by
    obtain ⟨opcode⟩ := op
    cases opcode <;> rfl
  by_cases hmm : i ∈ bindings
  · rw [← hB.bound i hmm]
  · rw [← hf, hB.frame i hi hr hmm, hf]

lemma Relocated.variables (hA : A.Valid bindings) (hB : Relocated A B bindings) {i : ℕ}
    (hi : i < A.last) (hr : ¬ A.Removed i) :
    ((A.opcodes i).opcode = .fastCall → (B.opcodes (A.image i)).result = (A.opcodes i).result) ∧
      ((A.opcodes i).opcode = .fastRet → (B.opcodes (A.image i)).op1 = (A.opcodes i).op1) := by
  have ho := hB.opcode hi hr
  have hf := hB.frame i hi hr
  have hn : (A.opcodes i).opcode ≠ .declareInheritedClassDelayed → i ∉ bindings :=
    fun hne hmm => hne (hA.declared i hmm).2
  constructor
  · intro hop
    have := congrArg Op.result (hf (hn (by rw [hop]; decide)))
    simpa [Op.frame, ho, hop] using this
  · intro hop
    have := congrArg Op.op1 (hf (hn (by rw [hop]; decide)))
    simpa [Op.frame, ho, hop] using this

/-- Both machines lead on to corresponding positions, or neither leads on. -/
def LeadOn (A : OpArray D) (next next' : Option Machine) : Prop :=
  next = none ∧ next' = none ∨
    ∃ m m', next = some m ∧ next' = some m' ∧ Follows A m m'

lemma Follows.branch (hA : A.Valid bindings) (hB : Relocated A B bindings) (hF : Follows A m m')
    (hin : m.pc < A.last) (hr : ¬ A.Removed m.pc) (b : Branch) :
    LeadOn A (A.branch m b) (B.branch m' b) := by
  cases b with
  | fallThrough =>
    refine .inr ⟨_, _, rfl, rfl, ?_⟩
    rw [hF.pc, ← image_succ_of_kept hr]
    exact hF.goto hin
  | jump k =>
    have htr := hB.targets m.pc hin hr
    simp only [OpArray.branch]
    rw [hF.pc, htr, getElem?_map]
    cases hk : ((A.opcodes m.pc).targets m.pc)[k]? with
    | none => exact .inl ⟨rfl, rfl⟩
    | some t =>
      obtain ⟨h0, hlt⟩ := hA.targets m.pc hin t (mem_of_getElem? hk)
      refine .inr ⟨_, _, rfl, rfl, ?_⟩
      exact hF.goto (by omega)

/-- **What stays leads to the image of where it led.** -/
theorem Follows.visit (hA : A.Valid bindings) (hB : Relocated A B bindings) (hF : Follows A m m')
    (hin : m.pc < A.last) (hrm : ¬ A.Removed m.pc) (b : Branch) :
    LeadOn A (A.next m b) (B.next m' b) := by
  have ho := hB.opcode hin hrm
  have htr := hB.targets m.pc hin hrm
  obtain ⟨hr, hop1⟩ := hB.variables hA hin hrm
  have hb := hF.branch hA hB hin hrm b
  rw [← hF.pc] at ho htr hr hop1
  have hj : (A.opcodes m.pc).opcode = .jmp ∨ (A.opcodes m.pc).opcode = .fastCall →
      (offsetToOplineNum m.pc (A.opcodes m.pc).op1).toNat ≤ A.last ∧
        (offsetToOplineNum m'.pc (B.opcodes m'.pc).op1).toNat =
          A.image (offsetToOplineNum m.pc (A.opcodes m.pc).op1).toNat := by
    intro hop
    have hon : ∀ (q : ℤ) (op : Op D), op.opcode = .jmp ∨ op.opcode = .fastCall →
        op.targets q = [offsetToOplineNum q op.op1] := by
      rintro q op (h | h) <;> simp [Op.targets, h]
    have hA' := hA.targets m.pc hin
    rw [hon _ _ hop] at htr hA'
    rw [hon _ _ (ho ▸ hop), map_singleton, singleton_inj] at htr
    obtain ⟨-, hlt⟩ := hA' _ (mem_singleton_self _)
    exact ⟨by omega, by rw [htr, Int.toNat_natCast]⟩
  simp only [OpArray.next, ho]
  cases hop : (A.opcodes m.pc).opcode
  case nop => exact absurd (.inl hop) hrm
  case jmp =>
    obtain ⟨hle, heq⟩ := hj (.inl hop)
    refine .inr ⟨_, _, rfl, rfl, ?_⟩
    rw [heq]
    exact hF.goto hle
  case fastCall =>
    obtain ⟨hle, heq⟩ := hj (.inr hop)
    refine .inr ⟨_, _, rfl, rfl, hle, heq, fun v => ?_, fun v l hl => ?_⟩
    · simp only [hr hop]
      by_cases hv : v = (A.opcodes m.pc).result
      · simp [hv, hF.pc]
      · rw [update_of_ne hv, update_of_ne hv]
        exact hF.lineno v
    · by_cases hv : v = (A.opcodes m.pc).result
      · simp only [hv, update_self, Option.some.injEq] at hl
        exact hl ▸ ⟨hin, hrm⟩
      · exact hF.kept v l (by simpa [hv] using hl)
  case fastRet =>
    simp only [hop1 hop, hF.lineno]
    cases hl : m.lineno (A.opcodes m.pc).op1.toNat with
    | none => exact .inl ⟨rfl, rfl⟩
    | some l =>
      obtain ⟨hls, hk⟩ := hF.kept _ l hl
      have hg := hF.goto hls
      rw [image_succ_of_kept hk] at hg
      exact .inr ⟨_, _, rfl, rfl, hg⟩
  case leave => exact .inl ⟨rfl, rfl⟩
  all_goals exact hb

lemma Follows.lt_last (hB : Relocated A B bindings) (hF : Follows A m m') (hin : m.pc < A.last)
    (hr : ¬ A.Removed m.pc) : m'.pc < B.last := by
  rw [hF.pc, hB.last]
  exact image_lt hr hin

/-- What is silent comes to an end, outside the array or at an instruction that stays. -/
lemma Follows.settle (hA : A.Valid bindings) : ∀ (k : ℕ) (m : Machine),
    A.last - m.pc ≤ k → Follows A m m' → ∃ m1, Follows A m1 m' ∧
      (m1.pc = A.last ∨ m1.pc < A.last ∧ ¬ A.Removed m1.pc) ∧
      ∀ bs is, Trace A A.Removed m1 bs is → Trace A A.Removed m bs is := by
  intro k
  induction k with
  | zero =>
    intro m hk hF
    have := hF.inside
    exact ⟨m, hF, .inl (by omega), fun _ _ => id⟩
  | succ k ih =>
    intro m hk hF
    rcases hF.inside.eq_or_lt with ho | hin
    · exact ⟨m, hF, .inl ho, fun _ _ => id⟩
    · by_cases hr : A.Removed m.pc
      · obtain ⟨t, hn, hlt, hF'⟩ := hF.skip hA hin hr
        obtain ⟨m1, hF1, hen, htr⟩ := ih { m with pc := t } (by simp only; omega) hF'
        exact ⟨m1, hF1, hen, fun bs is h => .skip hin hr hn (htr bs is h)⟩
      · exact ⟨m, hF, .inr ⟨hin, hr⟩, fun _ _ => id⟩

/-- **Both arrays execute the same instructions**, from corresponding positions. -/
theorem Follows.trace (hA : A.Valid bindings) (hB : Relocated A B bindings) :
    ∀ (bs : List Branch) (m m' : Machine), Follows A m m' →
      ∃ is, Trace A A.Removed m bs is ∧ Trace B (fun _ => False) m' bs (is.map A.image) := by
  intro bs
  induction bs
  all_goals
    intro m m' hF
    obtain ⟨m1, hF1, hen, htr⟩ := Follows.settle hA _ m le_rfl hF
    rcases hen with ho | ⟨hin, hr⟩
    · exact ⟨[], htr _ _ (.out ho.ge), .out (by rw [hF1.pc, hB.last, ho])⟩
    have hi' := hF1.lt_last hB hin hr
  case nil =>
    refine ⟨[m1.pc], htr _ _ (.pause hin hr), ?_⟩
    rw [map_singleton, ← hF1.pc]
    exact .pause hi' id
  case cons b bs ih =>
    rcases hF1.visit hA hB hin hr b with ⟨hn, hn'⟩ | ⟨m2, m2', hs, hs', hF2⟩
    · refine ⟨[m1.pc], htr _ _ (.stop hin hr hn), ?_⟩
      rw [map_singleton, ← hF1.pc]
      exact .stop hi' id hn'
    · obtain ⟨is, h, h'⟩ := ih m2 m2' hF2
      refine ⟨m1.pc :: is, htr _ _ (.visit hin hr hs h), ?_⟩
      rw [map_cons, ← hF1.pc]
      exact .visit hi' id hs' h'

lemma exists_image_eq {n k : ℕ} (hk : k < A.image n) : ∃ i < n, ¬ A.Removed i ∧ A.image i = k := by
  induction n with
  | zero =>
    have h0 : A.image 0 = 0 := Nat.count_zero _
    omega
  | succ n ih =>
    by_cases hr : A.Removed n
    · rw [image_succ_of_removed hr] at hk
      obtain ⟨i, hi, h⟩ := ih hk
      exact ⟨i, hi.trans (Nat.lt_succ_self n), h⟩
    · rw [image_succ_of_kept hr] at hk
      rcases Nat.lt_succ_iff_lt_or_eq.mp hk with hk | rfl
      · obtain ⟨i, hi, h⟩ := ih hk
        exact ⟨i, hi.trans (Nat.lt_succ_self n), h⟩
      · exact ⟨n, Nat.lt_succ_self n, hr, rfl⟩

/-- **Removing `NOP`s preserves control flow.** The instructions after the pass are those that stay,
in their order; what they, the live ranges, the exception table and the early binding list designate
are the images of what was designated, a position having the image of the first instruction at or
after it that stays; and from every position both arrays execute the same instructions, whichever
way the branches go. The offsets must reach the old targets from the new places. -/
theorem nopRemoval_preserves_control_flow (garbage : ℤ → ℤ) (hA : A.Valid bindings) (hN : A.Near) :
    let B := zendOptimizerNopRemoval garbage A
    Relocated A B bindings ∧
      (∀ k < B.last, ∃ i < A.last, ¬ A.Removed i ∧ A.image i = k) ∧
      (∀ i j, ¬ A.Removed i → i < j → A.image i < A.image j) ∧
      (∀ t j, t ≤ j → ¬ A.Removed j → (∀ k, t ≤ k → k < j → A.Removed k) →
        A.image t = A.image j) ∧
      ∀ pc ≤ A.last, ∀ bs, ∃ is,
        (∀ is', Trace A A.Removed ⟨pc, fun _ => none⟩ bs is' ↔ is' = is) ∧
        ∀ is', Trace B (fun _ => False) ⟨A.image pc, fun _ => none⟩ bs is' ↔
          is' = is.map A.image := by
  intro B
  have hB : Relocated A B bindings := nopRemoval_relocated garbage hA hN
  refine ⟨hB, fun k hk => exists_image_eq (hB.last ▸ hk), fun i j hi hij => image_lt hi hij,
    fun t j htj _ hg => image_eq_of_gap htj hg, fun pc hpc bs => ?_⟩
  have hF : Follows A ⟨pc, fun _ => none⟩ ⟨A.image pc, fun _ => none⟩ :=
    ⟨hpc, rfl, fun _ => rfl, nofun⟩
  obtain ⟨is, h, h'⟩ := Follows.trace hA hB bs _ _ hF
  exact ⟨is, fun is' => ⟨fun h₁ => h₁.unique h, fun he => he ▸ h⟩,
    fun is' => ⟨fun h₁ => h₁.unique h', fun he => he ▸ h'⟩⟩

/-- A jump over a `NOP`, and a conditional jump over another one. -/
theorem nopRemoval_preserves_control_flow_short :
    ∃ A B : OpArray Unit, A.last = 5 ∧ (A.opcodes 0).opcode = .jmp ∧ A.Valid [] ∧
      B = zendOptimizerNopRemoval (fun _ => 7) A ∧ B.last = 2 ∧ Relocated A B [] ∧
      ∀ pc ≤ A.last, ∀ bs, ∃ is,
        (∀ is', Trace A A.Removed ⟨pc, fun _ => none⟩ bs is' ↔ is' = is) ∧
        ∀ is', Trace B (fun _ => False) ⟨A.image pc, fun _ => none⟩ bs is' ↔
          is' = is.map A.image := by
  let op : Opcode → ℤ → ℤ → Op Unit := fun o a b => ⟨o, a, b, 0, 0, [], ()⟩
  let A : OpArray Unit :=
    ⟨fun i => ([op .jmp 64 0, op .nop 0 0, op .jmpz 0 64, op .nop 0 0].getD i (op (.leave 62) 0 0)),
      5,
      [⟨0, 1, 3⟩], [⟨0, 2, 0, 0⟩], noOpline⟩
  have hA : A.Valid [] := by
    refine ⟨?_, ?_, ?_, rfl, nofun, by decide⟩ <;> decide
  obtain ⟨hB, -, -, -, htr⟩ := nopRemoval_preserves_control_flow (fun _ => 7) hA
    (hA.near (by decide))
  exact ⟨A, _, rfl, rfl, hA, rfl, by decide, hB, htr⟩

/-! ## Jumps that do not reach -/

/-- `2 ^ 26` instructions, `2 ^ 26 - 1` `NOP`s, and a jump to the next instruction. -/
def farJump : OpArray Unit where
  opcodes i :=
    if i < 2 ^ 26 then ⟨.other 0, 0, 0, 0, 0, [], ()⟩
    else if i < 2 ^ 27 - 1 then ⟨.nop, 0, 0, 0, 0, [], ()⟩
    else if i = 2 ^ 27 - 1 then ⟨.jmpz, 0, 32, 0, 0, [], ()⟩
    else ⟨.leave 62, 0, 0, 0, 0, [], ()⟩
  last := 2 ^ 27 + 1
  liveRange := []
  tryCatchArray := []
  earlyBinding := noOpline

lemma farJump_removed_iff {i : ℕ} : farJump.Removed i ↔ 2 ^ 26 ≤ i ∧ i < 2 ^ 27 - 1 := by
  simp only [OpArray.Removed, farJump]
  split_ifs with h h' h'' <;> simp <;> omega

lemma farJump_image :
    farJump.image (2 ^ 27 - 1) = 2 ^ 26 ∧ farJump.image (2 ^ 27) = 2 ^ 26 + 1 := by
  have hk : farJump.image (2 ^ 26) = 2 ^ 26 := Nat.count_of_forall fun i hi => by
    rw [farJump_removed_iff]
    omega
  have hi : farJump.image (2 ^ 27 - 1) = 2 ^ 26 :=
    (image_eq_of_gap (by decide) fun k hk hlt => farJump_removed_iff.mpr ⟨hk, hlt⟩).symm.trans hk
  refine ⟨hi, ?_⟩
  have hs := image_succ_of_kept (A := farJump) (i := 2 ^ 27 - 1)
    (by rw [farJump_removed_iff]; omega)
  rw [hi] at hs
  exact hs

lemma farJump_valid : farJump.Valid [] := by
  refine ⟨fun i hi t ht => ?_, nofun, nofun, rfl, nofun, by decide⟩
  simp only [farJump] at hi ht ⊢
  split_ifs at ht with h h' he <;> simp [Op.targets, offsetToOplineNum, distance] at ht
  subst he ht
  decide

lemma reread_far : reread (2 ^ 26) (2 ^ 27) = 0 ∧ reread (2 ^ 26) 0 = 0 := by
  norm_num [reread, offsetToOplineNum, distance, oplineNumToOffset, Int.bmod]

/-- **A jump that does not reach its target** from the new place of its instruction leads to the
first instruction after the pass, not to the next one. -/
theorem nopRemoval_far_jump : farJump.Valid [] ∧ ¬ farJump.Removed (2 ^ 27 - 1) ∧
    (farJump.opcodes (2 ^ 27 - 1)).targets ↑(2 ^ 27 - 1 : ℕ) = [2 ^ 27] ∧
    farJump.image (2 ^ 27 - 1) = 2 ^ 26 ∧ farJump.image (2 ^ 27) = 2 ^ 26 + 1 ∧ ∀ garbage,
      ((zendOptimizerNopRemoval garbage farJump).opcodes (2 ^ 26)).targets (2 ^ 26) = [0] := by
  obtain ⟨hi, ht⟩ := farJump_image
  have hk : ¬ farJump.Removed (2 ^ 27 - 1) := by
    rw [farJump_removed_iff]
    omega
  have htg : (farJump.opcodes (2 ^ 27 - 1)).targets ↑(2 ^ 27 - 1 : ℕ) = [2 ^ 27] := by
    norm_num [farJump, Op.targets, offsetToOplineNum, distance, Int.bmod]
  refine ⟨farJump_valid, hk, htg, hi, ht, fun garbage => ?_⟩
  have hR := removeLoop_removing garbage farJump farJump.last
  rw [zendOptimizerNopRemoval]
  generalize removeLoop garbage farJump.opcodes farJump.last = st at hR ⊢
  have hlt : 2 ^ 27 - 1 < farJump.last := by decide
  have hc := hR.newCount
  have hz : st.shift ≠ 0 := by
    have hle := (image_sub_le (A := farJump) hlt.le).2
    have hsf := hR.shift
    omega
  have hin : 2 ^ 26 < st.newCount := by
    rw [hc, ← hi]
    exact image_lt hk hlt
  have hcp := hR.copied _ hlt hk
  rw [hi, Op.copyTo, if_neg (by decide)] at hcp
  have hsl := hR.shiftlist_zero (Nat.zero_lt_of_lt hlt)
  have hnn : ¬ farJump.earlyBinding ≠ noOpline := not_not.mpr rfl
  have hb : ((2 ^ 26 : ℕ) : ℤ) = 2 ^ 26 := by norm_num
  simp only [if_pos hz, if_neg hnn, if_pos hin, hcp, hb]
  rw [targets_shiftJump, targets_migrateJump, htg]
  simp only [map_cons, map_nil, reread_far.1, hsl, sub_zero, reread_far.2]

end PhpInternals.Optimizer.NopRemoval
