import Mathlib.Order.Interval.Finset.Nat
import Mathlib.Data.Nat.Count
import PhpInternals.Found.Ring
import PhpInternals.Optimizer.NopRemoval.Basic

/-!
# Where everything goes

An instruction that stays goes to the number of instructions before it that stay, and all references
follow.
-/

namespace PhpInternals.Optimizer.NopRemoval

open Function Nat Found List

variable {D : Type}

/-! ## What is removed -/

/-- A `NOP`, or a jump forward over nothing but `NOP`s. -/
def OpArray.Removed (A : OpArray D) (i : ℕ) : Prop :=
  (A.opcodes i).opcode = .nop ∨ (A.opcodes i).opcode = .jmp ∧ 0 < distance (A.opcodes i).op1 ∧
    ∀ j < (distance (A.opcodes i).op1 - 1).toNat, (A.opcodes (i + 1 + j)).opcode = .nop

instance (A : OpArray D) : DecidablePred A.Removed := fun i =>
  inferInstanceAs (Decidable ((A.opcodes i).opcode = .nop ∨ (A.opcodes i).opcode = .jmp ∧
    0 < distance (A.opcodes i).op1 ∧
    ∀ j < (distance (A.opcodes i).op1 - 1).toNat, (A.opcodes (i + 1 + j)).opcode = .nop))

/-- The number of instructions before a position that stay. -/
def OpArray.image (A : OpArray D) (t : ℕ) : ℕ := count (fun i => ¬ A.Removed i) t

variable {A : OpArray D}

variable {i : ℕ}

/-- What follows a removed instruction takes its place. -/
lemma image_succ_of_removed (hi : A.Removed i) : A.image (i + 1) = A.image i := by
  rw [OpArray.image, count_succ, if_neg (not_not.mpr hi)]
  rfl

/-- What follows a kept one comes right behind it. -/
lemma image_succ_of_kept (hi : ¬ A.Removed i) : A.image (i + 1) = A.image i + 1 := by
  rw [OpArray.image, count_succ, if_pos hi]
  rfl

variable {j : ℕ}

lemma image_lt (hi : ¬ A.Removed i) (hij : i < j) : A.image i < A.image j :=
  count_strict_mono hi hij

/-- No two kept instructions share a place. -/
lemma image_inj (hi : ¬ A.Removed i) (hj : ¬ A.Removed j) (hij : A.image i = A.image j) : i = j :=
  count_injective hi hj hij

lemma image_le (i : ℕ) : A.image i ≤ i := count_le _

/-- **A position goes where the first instruction at or after it that stays goes.** -/
theorem image_eq_of_gap {t : ℕ} (htj : t ≤ j) (hg : ∀ k, t ≤ k → k < j → A.Removed k) :
    A.image t = A.image j := by
  induction j, htj using le_induction with
  | base => rfl
  | succ j htj ih =>
    rw [image_succ_of_removed (hg j htj (lt_succ_self j))]
    exact ih fun k hk hkj => hg k hk (hkj.trans (lt_succ_self j))

variable {n : ℕ}

/-- Positions do not move apart. -/
lemma image_sub_le (hi : i ≤ n) : A.image i ≤ A.image n ∧ A.image n + i ≤ A.image i + n := by
  have hs : A.image n = A.image i + count (fun k => ¬ A.Removed (i + k)) (n - i) := by
    rw [OpArray.image, OpArray.image, ← Nat.count_add, Nat.add_sub_cancel' hi]
  have hle : Nat.count (fun k => ¬ A.Removed (i + k)) (n - i) ≤ n - i := Nat.count_le _
  omega

/-- Before the first removed instruction nothing moves. -/
lemma image_eq_self (hn : A.image n = n) (hi : i ≤ n) : A.image i = i := by
  have hs := image_sub_le (A := A) hi
  have hl' := image_le (A := A) i
  omega

/-! ## The parts of an instruction -/

/-- The jump targets of the instruction at a position. -/
def Op.targets (opline : ℤ) (op : Op D) : List ℤ :=
  match op.opcode with
  | .jmp | .fastCall => [offsetToOplineNum opline op.op1]
  | .jmpznz => [offsetToOplineNum opline op.op2, offsetToOplineNum opline op.extendedValue]
  | .jmpz | .jmpnz | .jmpzEx | .jmpnzEx | .feResetR | .feResetRw | .jmpSet | .coalesce
  | .assertCheck => [offsetToOplineNum opline op.op2]
  | .catch_ => if op.result = 0 then [offsetToOplineNum opline op.extendedValue] else []
  | .declareAnonClass | .declareAnonInheritedClass | .feFetchR | .feFetchRw =>
    [offsetToOplineNum opline op.extendedValue]
  | .switchLong | .switchString =>
    op.jumptable.map (offsetToOplineNum opline) ++ [offsetToOplineNum opline op.extendedValue]
  | _ => []

/-- The instruction without its jump offsets. A last `ZEND_CATCH` does not use `extended_value`. -/
def Op.frame (op : Op D) : Op D :=
  match op.opcode with
  | .jmp | .fastCall => { op with op1 := 0 }
  | .jmpznz => { op with op2 := 0, extendedValue := 0 }
  | .jmpz | .jmpnz | .jmpzEx | .jmpnzEx | .feResetR | .feResetRw | .jmpSet | .coalesce
  | .assertCheck => { op with op2 := 0 }
  | .catch_ | .declareAnonClass | .declareAnonInheritedClass | .feFetchR | .feFetchRw =>
    { op with extendedValue := 0 }
  | .switchLong | .switchString => { op with jumptable := [], extendedValue := 0 }
  | _ => op

/-- How far an offset reaches. -/
def maxDistance : ℤ := 2 ^ 26

/-- The target that is read where an offset to `t` was stored. -/
def reread (p t : ℤ) : ℤ := offsetToOplineNum p (oplineNumToOffset p t)

/-- Storing an offset in 32 bits loses nothing that is read back in 32 bits. -/
@[simp] lemma offsetToOplineNum_stored (p x : ℤ) :
    offsetToOplineNum p (stored x) = offsetToOplineNum p x := by
  have hb : Int.bmod (x % 2 ^ 32) (2 ^ 32) = Int.bmod x (2 ^ 32) := Int.emod_bmod ..
  rw [offsetToOplineNum, distance, stored, hb]
  rfl

@[simp] lemma offsetToOplineNum_rebase (p q x : ℤ) :
    offsetToOplineNum p (rebase p q x) = reread p (offsetToOplineNum q x) := rfl

@[simp] lemma offsetToOplineNum_shifted (shiftlist : ℤ → ℤ) (p x : ℤ) :
    offsetToOplineNum p (shifted shiftlist p x) =
      reread p (offsetToOplineNum p x - shiftlist (offsetToOplineNum p x)) := rfl

/-- A target at a distance that fits is read back as it is. -/
lemma reread_of_near {p t : ℤ} (hl : -maxDistance ≤ t - p) (hu : t - p < maxDistance) :
    reread p t = t := by
  rw [maxDistance] at hl hu
  rw [reread, offsetToOplineNum, distance, oplineNumToOffset,
    Int.bmod_eq_of_le (by omega) (by omega)]
  omega

/-- Every offset that is stored names a near target. -/
lemma distance_near (x : ℤ) : -maxDistance ≤ distance x ∧ distance x < maxDistance := by
  have hl := Int.le_bmod (x := x) (m := 2 ^ 32) (by decide)
  have hu := Int.bmod_lt (x := x) (m := 2 ^ 32) (by decide)
  rw [maxDistance, distance]
  omega

/-- The targets of an instruction are near it. -/
lemma targets_near {q t : ℤ} {op : Op D} (ht : t ∈ op.targets q) :
    -maxDistance ≤ t - q ∧ t - q < maxDistance := by
  have hx : ∃ x, t = offsetToOplineNum q x := by
    obtain ⟨opcode⟩ := op
    cases opcode <;>
      simp only [Op.targets, mem_cons, mem_append, mem_map, not_mem_nil, or_false] at ht
    case jmpznz => rcases ht with ht | ht <;> exact ⟨_, ht⟩
    case catch_ =>
      split_ifs at ht
      · exact ⟨_, mem_singleton.mp ht⟩
      · cases ht
    case switchLong | switchString =>
      rcases ht with ⟨x, -, ht⟩ | ht
      · exact ⟨x, ht.symm⟩
      · exact ⟨_, ht⟩
    all_goals exact ⟨_, ht⟩
  obtain ⟨x, rfl⟩ := hx
  have := distance_near x
  rw [offsetToOplineNum]
  omega

lemma targets_migrateJump (p q : ℤ) (op : Op D) :
    (op.migrateJump p q).targets p = (op.targets q).map (reread p) := by
  obtain ⟨opcode⟩ := op
  cases opcode <;> simp [Op.migrateJump, Op.targets]
  case catch_ => split_ifs <;> simp_all

lemma frame_migrateJump (p q : ℤ) (op : Op D) : (op.migrateJump p q).frame = op.frame := by
  obtain ⟨opcode⟩ := op
  cases opcode <;> simp [Op.migrateJump, Op.frame]
  case catch_ => split_ifs <;> simp

/-- The copy of an instruction. One that keeps its place is not copied. -/
def Op.copyTo (newOpline opline : ℕ) (op : Op D) : Op D :=
  if newOpline = opline then op else op.migrateJump newOpline opline

lemma frame_copyTo (p q : ℕ) (op : Op D) : (op.copyTo p q).frame = op.frame := by
  rw [Op.copyTo]
  split_ifs
  · rfl
  · exact frame_migrateJump ..

/-- Copying towards the front keeps a target that stays near. -/
lemma targets_copyTo {p q : ℕ} {op : Op D} (hpq : p ≤ q)
    (hn : ∀ t ∈ op.targets q, t - p < maxDistance) : (op.copyTo p q).targets p = op.targets q := by
  rw [Op.copyTo]
  split_ifs with he
  · rw [he]
  rw [targets_migrateJump]
  conv_rhs => rw [← map_id (op.targets q)]
  refine map_congr_left fun t ht => ?_
  have hl := (targets_near ht).1
  exact reread_of_near (by omega) (hn t ht)

/-- The second pass moves each target by its own shift. -/
lemma targets_shiftJump (shiftlist : ℤ → ℤ) (p : ℤ) (op : Op D) :
    (op.shiftJump shiftlist p).targets p =
      (op.targets p).map fun t => reread p (t - shiftlist t) := by
  obtain ⟨opcode⟩ := op
  cases opcode <;> simp [Op.shiftJump, Op.targets]
  case catch_ => split_ifs <;> simp

lemma frame_shiftJump (shiftlist : ℤ → ℤ) (p : ℤ) (op : Op D) :
    (op.shiftJump shiftlist p).frame = op.frame := by
  obtain ⟨opcode⟩ := op
  cases opcode <;> rfl

/-! ## The loop over the instructions -/

/-- Going back over NOPs ends at an instruction whose successors are all NOPs. -/
lemma skipNops_eq_iff {opcodes : ℕ → Op D} (hi : (opcodes i).opcode ≠ .nop) (n : ℕ) :
    skipNops opcodes (i + n) = i ↔ ∀ j < n, (opcodes (i + 1 + j)).opcode = .nop := by
  induction n with
  | zero =>
    refine ⟨fun _ j hj => absurd hj (not_lt_zero j), fun _ => ?_⟩
    cases i with
    | zero => rfl
    | succ i => rw [skipNops, if_neg hi]
  | succ n ih =>
    have hp : i + 1 + n = i + n + 1 := by omega
    rw [← add_assoc, skipNops]
    split_ifs with hnp
    · rw [ih]
      refine ⟨fun h j hj => ?_, fun h j hj => h j (hj.trans (lt_succ_self n))⟩
      rcases Nat.lt_succ_iff_lt_or_eq.mp hj with hj | rfl
      · exact h j hj
      · rw [hp]
        exact hnp
    · refine ⟨fun h => by omega, fun h => absurd ?_ hnp⟩
      rw [← hp]
      exact h n (lt_succ_self n)

/-- **A jump is killed exactly when it is over nothing but `NOP`s.** The array may already be
changed before the instruction. -/
theorem killJmp_spec {opcodes : ℕ → Op D} (hs : ∀ j, i ≤ j → opcodes j = A.opcodes j) :
    (((killJmp opcodes i) i).opcode = .nop ↔ A.Removed i) ∧
      (∀ j, j ≠ i → killJmp opcodes i j = opcodes j) ∧
      (¬ A.Removed i → killJmp opcodes i = opcodes) := by
  have hi := hs i le_rfl
  rw [killJmp]
  simp only [hi]
  by_cases hjm : (A.opcodes i).opcode = .jmp ∧ offsetToOplineNum i (A.opcodes i).op1 > i
  · obtain ⟨hop, hf⟩ := id hjm
    rw [offsetToOplineNum] at hf
    have hp : 0 < distance (A.opcodes i).op1 := by omega
    have htr : (offsetToOplineNum i (A.opcodes i).op1 - 1).toNat =
        i + (distance (A.opcodes i).op1 - 1).toNat := by
      rw [offsetToOplineNum]
      omega
    have hnt : (opcodes i).opcode ≠ .nop := by rw [hi, hop]; decide
    have hif : skipNops opcodes (i + (distance (A.opcodes i).op1 - 1).toNat) = i ↔ A.Removed i := by
      rw [skipNops_eq_iff hnt]
      have hnp : ∀ j, (opcodes (i + 1 + j)).opcode = (A.opcodes (i + 1 + j)).opcode := fun j => by
        rw [hs _ (by omega)]
      simp [hnp, OpArray.Removed, hop, hp, true_and, false_or]
    rw [if_pos hjm, htr]
    by_cases hr : A.Removed i
    · rw [if_pos (hif.mpr hr)]
      refine ⟨by simp [hr], fun j hj => update_of_ne hj _ _, fun h => absurd hr h⟩
    · rw [if_neg fun h => hr (hif.mp h)]
      refine ⟨?_, fun _ _ => rfl, fun _ => rfl⟩
      rw [hi, hop]
      simp [hr]
  · rw [if_neg hjm]
    refine ⟨?_, fun _ _ => rfl, fun _ => rfl⟩
    rw [hi]
    refine ⟨Or.inl, fun h => h.resolve_right ?_⟩
    rintro ⟨hop, hp, -⟩
    refine hjm ⟨hop, ?_⟩
    rw [offsetToOplineNum]
    omega

/-- What the loop over the instructions has done when it comes to `n`. -/
structure Removing (A : OpArray D) (n : ℕ) (st : NopState D) : Prop where
  newCount : st.newCount = A.image n
  shift : st.newCount + st.shift = n
  ahead : ∀ j, n ≤ j → st.opcodes j = A.opcodes j
  shiftlist : ∀ j < n, st.shiftlist j = (j : ℤ) - A.image j
  copied : ∀ j < n, ¬ A.Removed j →
    st.opcodes (A.image j) = (A.opcodes j).copyTo (A.image j) j

variable {st : NopState D}

/-- The shift of an instruction is the number of those removed before it. -/
lemma Removing.shiftlist_succ (hR : Removing A n st) (hj : j < n + 1) :
    update st.shiftlist (n : ℤ) (st.shift : ℤ) j = (j : ℤ) - A.image j := by
  have hs := hR.shift
  rw [hR.newCount] at hs
  rcases Nat.lt_succ_iff_lt_or_eq.mp hj with hj | rfl
  · rw [update_of_ne (by omega)]
    exact hR.shiftlist j hj
  · rw [update_self]
    omega

lemma Removing.shiftlist_zero (hR : Removing A n st) (hn : 0 < n) : st.shiftlist 0 = 0 := by
  have h0 : A.image 0 = 0 := count_zero _
  simpa [h0] using hR.shiftlist 0 hn

lemma Removing.step (hR : Removing A n st) : Removing A (n + 1) (removeStep st n) := by
  obtain ⟨hnp, ho, hsm⟩ := killJmp_spec hR.ahead
  have hs := hR.shift
  have hc := hR.newCount
  simp only [removeStep]
  by_cases hr : A.Removed n
  · rw [if_pos (hnp.mpr hr)]
    refine ⟨?_, ?_, fun j hj => ?_, fun j hj => hR.shiftlist_succ hj, fun j hj hk => ?_⟩
    · rw [image_succ_of_removed hr]
      exact hc
    · simp only
      omega
    · exact (ho j (by omega)).trans (hR.ahead j (by omega))
    have hjn : j < n := by
      rcases Nat.lt_succ_iff_lt_or_eq.mp hj with hj | rfl
      · exact hj
      · exact absurd hr hk
    have hne : A.image j ≠ n := ((image_le j).trans_lt hjn).ne
    exact (ho _ hne).trans (hR.copied j hjn hk)
  rw [if_neg fun h => hr (hnp.mp h), hsm hr]
  have hcp : ∀ j < n, ¬ A.Removed j → A.image j ≠ st.newCount := fun j hj hk => by
    rw [hc]
    exact (image_lt hk hj).ne
  split_ifs with hz
  · refine ⟨?_, ?_, fun j hj => ?_, fun j hj => hR.shiftlist_succ hj, fun j hj hk => ?_⟩
    · rw [image_succ_of_kept hr, hc]
    · simp only
      omega
    · simp only
      rw [update_of_ne (by omega)]
      exact hR.ahead j (by omega)
    · simp only
      rcases Nat.lt_succ_iff_lt_or_eq.mp hj with hj | rfl
      · rw [update_of_ne (hcp j hj hk)]
        exact hR.copied j hj hk
      · rw [← hc, update_self, hR.ahead j le_rfl, Op.copyTo, if_neg (by omega)]
  · have hid : A.image n = n := by omega
    refine ⟨?_, ?_, fun j hj => hR.ahead j (by omega), fun j hj => hR.shiftlist_succ hj,
      fun j hj hk => ?_⟩
    · rw [image_succ_of_kept hr, hc]
    · simp only
      omega
    · rcases Nat.lt_succ_iff_lt_or_eq.mp hj with hj | rfl
      · exact hR.copied j hj hk
      · rw [hid, Op.copyTo, if_pos rfl]
        exact hR.ahead j le_rfl

/-- The first loop, for every content of the uninitialised shift list. -/
lemma removeLoop_removing (garbage : ℤ → ℤ) (A : OpArray D) :
    ∀ n, Removing A n (removeLoop garbage A.opcodes n)
  | 0 => ⟨rfl, rfl, fun _ _ => rfl, fun _ hj => absurd hj (not_lt_zero _),
      fun _ hj => absurd hj (not_lt_zero _)⟩
  | n + 1 => (removeLoop_removing garbage A n).step

/-! ## The whole pass -/

/-- Targets and bounds are inside the array, and the early binding list is a list of delayed
declarations. -/
structure OpArray.Valid (A : OpArray D) (bindings : List ℕ) : Prop where
  targets : ∀ i < A.last, ∀ t ∈ (A.opcodes i).targets i, 0 ≤ t ∧ t < A.last
  liveRange : ∀ r ∈ A.liveRange, r.start < A.last ∧ r.endOp < A.last
  tryCatch : ∀ t ∈ A.tryCatchArray, t.tryOp < A.last ∧ t.catchOp < A.last ∧
    t.finallyOp < A.last ∧ t.finallyEnd < A.last ∧ (t.finallyOp = 0 → t.finallyEnd = 0)
  binding : NullList noOpline (fun i => (A.opcodes i).result) A.earlyBinding bindings
  declared : ∀ i ∈ bindings, i < A.last ∧
    (A.opcodes i).opcode = .declareInheritedClassDelayed
  small : A.last ≤ noOpline

/-- The offsets to the old targets reach them from the new place of an instruction. -/
def OpArray.Near (A : OpArray D) : Prop :=
  ∀ i < A.last, ¬ A.Removed i → ∀ t ∈ (A.opcodes i).targets i, t - A.image i < maxDistance

/-- In particular where there are at most `2 ^ 26` instructions. -/
lemma OpArray.Valid.near {bindings : List ℕ} (hA : A.Valid bindings) (hl : A.last ≤ maxDistance) :
    A.Near := by
  intro i hi _ t ht
  have := (hA.targets i hi t ht).2
  omega

/-- **What the pass leaves**: `B` has the instructions of `A` that stay, and everything that
designates a position of `A` designates its image. -/
structure Relocated (A B : OpArray D) (bindings : List ℕ) : Prop where
  last : B.last = A.image A.last
  frame : ∀ i < A.last, ¬ A.Removed i → i ∉ bindings →
    (B.opcodes (A.image i)).frame = (A.opcodes i).frame
  bound : ∀ i ∈ bindings,
    { B.opcodes (A.image i) with result := (A.opcodes i).result } = A.opcodes i
  targets : ∀ i < A.last, ¬ A.Removed i → (B.opcodes (A.image i)).targets (A.image i) =
    ((A.opcodes i).targets i).map fun t => (A.image t.toNat : ℤ)
  liveRange : B.liveRange = A.liveRange.map fun r =>
    { r with start := A.image r.start, endOp := A.image r.endOp }
  tryCatch : B.tryCatchArray = A.tryCatchArray.map fun t =>
    ⟨A.image t.tryOp, A.image t.catchOp, A.image t.finallyOp, A.image t.finallyEnd⟩
  binding : NullList noOpline (fun i => (B.opcodes i).result) B.earlyBinding (bindings.map A.image)

/-- Positions in the try table move with their instruction. -/
lemma Removing.moved_eq (hR : Removing A n st) {x : ℕ} (hx : x < n) :
    moved st.shiftlist x = A.image x := by
  rw [moved, hR.shiftlist x hx]
  omega

variable {bindings : List ℕ}

/-- The try table is moved as a whole. -/
lemma Removing.tryCatch_shift (hR : Removing A A.last st) (hA : A.Valid bindings)
    {t : TryCatchElement} (ht : t ∈ A.tryCatchArray) :
    t.shift st.shiftlist =
      ⟨A.image t.tryOp, A.image t.catchOp, A.image t.finallyOp, A.image t.finallyEnd⟩ := by
  obtain ⟨htr, hc, hf, hen, hz⟩ := hA.tryCatch t ht
  simp only [TryCatchElement.shift, hR.moved_eq htr, hR.moved_eq hc, hR.moved_eq hf,
    hR.moved_eq hen]
  split_ifs with hop
  · rfl
  · rw [not_not] at hop
    have h0 : A.image 0 = 0 := count_zero _
    rw [hop, hz hop, h0]

lemma reread_image {k : ℕ} (hk : (k : ℤ) ∈ (A.opcodes i).targets i) :
    reread (A.image i) (A.image k) = A.image k := by
  have hn := targets_near hk
  rcases le_total i k with hik | hki
  · have := image_sub_le (A := A) hik
    exact reread_of_near (by omega) (by omega)
  · have := image_sub_le (A := A) hki
    exact reread_of_near (by omega) (by rw [maxDistance]; omega)

/-- After both passes a kept instruction has its old targets, moved. -/
lemma Removing.shiftJump_spec (hR : Removing A A.last st) (hA : A.Valid bindings) (hN : A.Near)
    (hi : i < A.last) (hkp : ¬ A.Removed i) :
    let op := (st.opcodes (A.image i)).shiftJump st.shiftlist (A.image i)
    op.frame = (A.opcodes i).frame ∧
      op.targets (A.image i) = ((A.opcodes i).targets i).map fun t => (A.image t.toNat : ℤ) := by
  simp only [hR.copied i hi hkp]
  refine ⟨by rw [frame_shiftJump, frame_copyTo], ?_⟩
  rw [targets_shiftJump, targets_copyTo (image_le i) (hN i hi hkp)]
  refine map_congr_left fun t ht => ?_
  obtain ⟨h0, hlt⟩ := hA.targets i hi t ht
  obtain ⟨k, rfl⟩ := Int.eq_ofNat_of_zero_le h0
  rw [hR.shiftlist k (by omega), sub_sub_cancel, reread_image ht, Int.toNat_natCast]

/-- **The early binding list** behind an entry `i` that has been updated. -/
theorem shiftBindings_spec (hR : Removing A A.last st) (hs : A.last ≤ noOpline) :
    ∀ (ks : List ℕ) (i steps : ℕ) (o : ℕ → Op D),
      (i :: ks).Nodup → (∀ k ∈ i :: ks, k < A.last ∧ ¬ A.Removed k) →
      NullList noOpline (fun j => (A.opcodes j).result) (A.opcodes i).result ks →
      (∀ k ∈ i :: ks, (o (A.image k)).result = (A.opcodes k).result) → ks.length < steps →
      let o' := shiftBindings st.shiftlist steps (A.image i) o
      (∀ j, (∀ k ∈ i :: ks, j ≠ A.image k) → o' j = o j) ∧
        (∀ j, { o' j with result := (o j).result } = o j) ∧
        NullList noOpline (fun j => (o' j).result) (o' (A.image i)).result (ks.map A.image)
  | _, _, 0, _, _, _, _, _, hlt => absurd hlt (not_lt_zero _)
  | [], i, steps + 1, o, _, _, hnl, hrs, _ => by
    have hl : (o (A.image i)).result = noOpline := by
      rw [hrs i (mem_cons_self ..)]
      exact hnl
    simp only [shiftBindings, if_pos hl]
    exact ⟨fun _ _ => trivial, fun _ => trivial, hl⟩
  | k :: ks, i, steps + 1, o, hnd, hkp, ⟨hik, hne, hnl⟩, hrs, hlt => by
    obtain ⟨hi, hnd'⟩ := nodup_cons.mp hnd
    have hl : (o (A.image i)).result = k := by rw [hrs i (mem_cons_self ..), hik]
    have hk' : ∀ m ∈ k :: ks, m < A.last ∧ ¬ A.Removed m := fun m hm =>
      hkp m (mem_cons_of_mem _ hm)
    have him : ∀ m ∈ k :: ks, A.image m ≠ A.image i := fun m hm he => by
      have := image_inj (hk' m hm).2 (hkp i (mem_cons_self ..)).2 he
      exact hi (this ▸ hm)
    have hk := (hk' k (mem_cons_self ..)).1
    simp only [shiftBindings, hl, if_neg hne, hR.moved_eq hk]
    obtain ⟨hfr, hr, hls⟩ := shiftBindings_spec hR hs ks k steps
      (update o (A.image i) { o (A.image i) with result := A.image k }) hnd' hk' hnl
      (fun m hm => by
        rw [update_of_ne (him m hm)]
        exact hrs m (mem_cons_of_mem _ hm))
      (lt_of_succ_lt_succ hlt)
    have hf := hfr (A.image i) fun m hm => (him m hm).symm
    rw [update_self] at hf
    refine ⟨fun j hj => ?_, fun j => ?_, ?_⟩
    · rw [hfr j fun m hm => hj m (mem_cons_of_mem _ hm), update_of_ne (hj i (mem_cons_self ..))]
    · by_cases hji : j = A.image i
      · subst hji
        rw [hf]
      · have := hr j
        rwa [update_of_ne hji] at this
    · rw [hf]
      refine ⟨rfl, ?_, hls⟩
      have := image_le (A := A) k
      omega

lemma OpArray.Valid.kept (hA : A.Valid bindings) (hi : i ∈ bindings) :
    i < A.last ∧ ¬ A.Removed i :=
  ⟨(hA.declared i hi).1, by simp [OpArray.Removed, (hA.declared i hi).2]⟩

/-- An early binding has no jump target, so that its `result` is left alone. -/
lemma targets_of_declared {op : Op D} (hop : op.opcode = .declareInheritedClassDelayed) (p : ℤ) :
    op.targets p = [] := by
  simp [Op.targets, hop]

lemma jumps_of_declared {op : Op D} (hop : op.opcode = .declareInheritedClassDelayed) (p q : ℕ)
    (shiftlist : ℤ → ℤ) : (op.copyTo p q).shiftJump shiftlist p = op := by
  have hm : op.copyTo p q = op := by simp [Op.copyTo, Op.migrateJump, hop]
  rw [hm]
  simp [Op.shiftJump, hop]

/-- The instructions and the early binding list after the pass, from the instructions before the
list is updated. -/
structure Bound (A : OpArray D) (bindings : List ℕ) (o o' : ℕ → Op D) (first : ℕ) : Prop where
  other : ∀ j, (∀ k ∈ bindings, j ≠ A.image k) → o' j = o j
  same : ∀ j, { o' j with result := (o j).result } = o j
  list : NullList noOpline (fun j => (o' j).result) first (bindings.map A.image)

/-- What comes of a relocated array when its early binding list is updated. -/
lemma Bound.relocated (hA : A.Valid bindings) {o : ℕ → Op D} {B : OpArray D}
    (hl : B.last = A.image A.last)
    (hf : ∀ i < A.last, ¬ A.Removed i → (o (A.image i)).frame = (A.opcodes i).frame ∧
      (o (A.image i)).targets (A.image i) =
        ((A.opcodes i).targets i).map fun t => (A.image t.toNat : ℤ))
    (hdc : ∀ i ∈ bindings, o (A.image i) = A.opcodes i)
    (hlv : B.liveRange = A.liveRange.map fun r =>
      { r with start := A.image r.start, endOp := A.image r.endOp })
    (htr : B.tryCatchArray = A.tryCatchArray.map fun t =>
      ⟨A.image t.tryOp, A.image t.catchOp, A.image t.finallyOp, A.image t.finallyEnd⟩)
    (hB : Bound A bindings o B.opcodes B.earlyBinding) : Relocated A B bindings := by
  have hkp : ∀ i ∈ bindings, ¬ A.Removed i := fun i hi => (hA.kept hi).2
  have ho : ∀ i, ¬ A.Removed i → i ∉ bindings → B.opcodes (A.image i) = o (A.image i) :=
    fun i hi hm => hB.other _ fun k hk he => hm (image_inj hi (hkp k hk) he ▸ hk)
  have hb : ∀ i ∈ bindings,
      { B.opcodes (A.image i) with result := (A.opcodes i).result } = A.opcodes i := by
    intro i hi
    have := hB.same (A.image i)
    rwa [hdc i hi] at this
  refine ⟨hl, fun i hi hrm hm => ?_, hb, fun i hi hrm => ?_, hlv, htr, hB.list⟩
  · rw [ho i hrm hm]
    exact (hf i hi hrm).1
  by_cases hm : i ∈ bindings
  · have hop := (hA.declared i hm).2
    have hop' : (B.opcodes (A.image i)).opcode = .declareInheritedClassDelayed :=
      (congrArg Op.opcode (hb i hm)).trans hop
    rw [targets_of_declared hop', targets_of_declared hop]
    rfl
  · rw [ho i hrm hm]
    exact (hf i hi hrm).2

/-- The early binding list after the pass, where it has to be updated. -/
lemma Removing.bound (hR : Removing A A.last st) (hA : A.Valid bindings) {o : ℕ → Op D}
    (hdc : ∀ i ∈ bindings, o (A.image i) = A.opcodes i) :
    let bound :=
      if A.earlyBinding ≠ noOpline then
        let first := moved st.shiftlist A.earlyBinding
        (first, shiftBindings st.shiftlist A.last first o)
      else (A.earlyBinding, o)
    Bound A bindings o bound.2 bound.1 := by
  have hb := hA.binding
  have hnd := hb.nodup
  have hkp : ∀ i ∈ bindings, i < A.last ∧ ¬ A.Removed i := fun i hi => hA.kept hi
  have hsm := hA.small
  cases bindings with
  | nil =>
    have hnn : A.earlyBinding = noOpline := hb
    simp only [hnn, ne_eq]
    exact ⟨fun _ _ => rfl, fun _ => rfl, rfl⟩
  | cons i ks =>
    obtain ⟨hfr, hne, hrs⟩ := hb
    have hln : ks.length < A.last := by
      have hsb : (i :: ks) ⊆ range A.last := fun k hk =>
        mem_range.mpr (hkp k hk).1
      have := (subperm_of_subset hnd hsb).length_le
      simpa using this
    obtain ⟨hlt, -⟩ := hkp i (mem_cons_self ..)
    simp only [hfr, if_pos hne, hR.moved_eq hlt]
    obtain ⟨hfm, hsm, hnl⟩ := shiftBindings_spec hR hA.small ks i A.last o hnd hkp hrs
      (fun k hk => by rw [hdc k hk]) hln
    refine ⟨hfm, hsm, rfl, ?_, hnl⟩
    have hle := image_le (A := A) i
    omega

/-- Nothing is removed. -/
lemma Removing.relocated_of_shift (hR : Removing A A.last st) (hA : A.Valid bindings)
    (hz : st.shift = 0) : Relocated A { A with opcodes := st.opcodes } bindings := by
  have hsf := hR.shift
  rw [hR.newCount] at hsf
  have hid : ∀ i ≤ A.last, A.image i = i := fun i hi => image_eq_self (by omega) hi
  have ho : ∀ i < A.last, ¬ A.Removed i → st.opcodes (A.image i) = A.opcodes i :=
    fun i hi hrm => by rw [hR.copied i hi hrm, Op.copyTo, if_pos (hid i hi.le)]
  have hdc : ∀ i ∈ bindings, st.opcodes (A.image i) = A.opcodes i := fun i hi =>
    ho i (hA.kept hi).1 (hA.kept hi).2
  refine Bound.relocated hA (hid _ le_rfl).symm (fun i hi hrm => ?_) hdc ?_ ?_
    ⟨fun _ _ => rfl, fun _ => rfl, ?_⟩
  · rw [ho i hi hrm, hid i hi.le]
    refine ⟨rfl, ?_⟩
    conv_lhs => rw [← map_id ((A.opcodes i).targets i)]
    refine map_congr_left fun t ht => ?_
    obtain ⟨h0, hlt⟩ := hA.targets i hi t ht
    rw [hid t.toNat (by omega), Int.toNat_of_nonneg h0]
    rfl
  · conv_lhs => rw [← map_id A.liveRange]
    refine map_congr_left fun r hr => ?_
    obtain ⟨hs, hen⟩ := hA.liveRange r hr
    rw [hid _ hs.le, hid _ hen.le]
    rfl
  · conv_lhs => rw [← map_id A.tryCatchArray]
    refine map_congr_left fun t ht => ?_
    obtain ⟨htr, hct, hf, hen, -⟩ := hA.tryCatch t ht
    rw [hid _ htr.le, hid _ hct.le, hid _ hf.le, hid _ hen.le]
    rfl
  have hmp : bindings.map A.image = bindings := by
    conv_rhs => rw [← map_id bindings]
    exact map_congr_left fun i hi => hid i (hA.kept hi).1.le
  rw [hmp]
  refine hA.binding.congr fun i hi => ?_
  have := hdc i hi
  rw [hid i (hA.kept hi).1.le] at this
  exact congrArg Op.result this

/-- **What the two passes do**: every kept instruction moves to its place and keeps its targets. -/
lemma nopRemoval_relocated (garbage : ℤ → ℤ) (hA : A.Valid bindings) (hN : A.Near) :
    Relocated A (zendOptimizerNopRemoval garbage A) bindings := by
  have hR := removeLoop_removing garbage A A.last
  have hc := hR.newCount
  rw [zendOptimizerNopRemoval]
  generalize removeLoop garbage A.opcodes A.last = st at hR hc ⊢
  by_cases hz : st.shift ≠ 0
  · simp only [if_pos hz]
    let o := fun i : ℕ =>
      if i < st.newCount then (st.opcodes i).shiftJump st.shiftlist i else st.opcodes i
    have ho : ∀ i < A.last, ¬ A.Removed i →
        o (A.image i) = (st.opcodes (A.image i)).shiftJump st.shiftlist (A.image i) :=
      fun i hi hrm => if_pos (hc ▸ image_lt hrm hi)
    have hdc : ∀ i ∈ bindings, o (A.image i) = A.opcodes i := fun i hi => by
      obtain ⟨hlt, hrm⟩ := hA.kept hi
      rw [ho i hlt hrm, hR.copied i hlt hrm]
      exact jumps_of_declared (hA.declared i hi).2 ..
    refine Bound.relocated hA hc (fun i hi hrm => ?_) hdc ?_ ?_ (hR.bound hA hdc)
    · rw [ho i hi hrm]
      exact hR.shiftJump_spec hA hN hi hrm
    · refine map_congr_left fun r hr => ?_
      obtain ⟨hs, hen⟩ := hA.liveRange r hr
      rw [LiveRange.shift, hR.moved_eq hs, hR.moved_eq hen]
    · exact map_congr_left fun t ht => hR.tryCatch_shift hA ht
  · rw [if_neg hz]
    exact hR.relocated_of_shift hA (not_not.mp hz)

end PhpInternals.Optimizer.NopRemoval
