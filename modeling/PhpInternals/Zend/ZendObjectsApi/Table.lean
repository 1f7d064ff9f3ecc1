import PhpInternals.Zend.ZendObjectsApi.Basic

/-!
# The table of the object store

Its entries are objects, objects whose `free_obj` is running, and the free list.
-/

namespace PhpInternals.Zend.ZendObjectsApi

open Function List Found
open BitVec (eq_of_getLsbD_eq getLsbD_one ofInt)

/-! ## Entries -/

section
variable {o a b : Ptr}

lemma isObjValid_iff : isObjValid o ↔ o.getLsbD 0 = false := by
  constructor
  · intro h
    have hbt := congrArg (fun w : Ptr => w.getLsbD 0) h
    simpa using hbt
  intro h
  refine eq_of_getLsbD_eq fun i hi => ?_
  rcases Nat.eq_zero_or_pos i with rfl | hp
  · rw [BitVec.getLsbD_and, h]
    rfl
  · simp [hp.ne']

lemma not_isObjValid_setObjInvalid (o : Ptr) : ¬ isObjValid (setObjInvalid o) := by
  rw [isObjValid_iff, setObjInvalid]
  simp

lemma not_isObjValid_setObjBucketNumber (n : ℤ) : ¬ isObjValid (setObjBucketNumber n) :=
  not_isObjValid_setObjInvalid _

lemma setObjInvalid_inj (ha : isObjValid a) (hb : isObjValid b)
    (h : setObjInvalid a = setObjInvalid b) :
    a = b := by
  rw [isObjValid_iff] at ha hb
  refine eq_of_getLsbD_eq fun i hi => ?_
  rcases Nat.eq_zero_or_pos i with rfl | hp
  · rw [ha, hb]
  · have hbt := congrArg (fun w : Ptr => w.getLsbD i) h
    simpa [setObjInvalid, hp.ne'] using hbt

/-- **A number is read back**, also the -1 at the end of the free list. -/
theorem getObjBucketNumber_setObjBucketNumber {n : ℤ} (hl : -1 ≤ n) (hhg : n < 2 ^ 31) :
    getObjBucketNumber (setObjBucketNumber n) = n := by
  have hor : (ofInt 64 n <<< 1) ||| 1#64 = (ofInt 64 n <<< 1) + 1#64 := by
    rw [BitVec.add_eq_or_of_and_eq_zero]
    refine eq_of_getLsbD_eq fun i hi => ?_
    rcases Nat.eq_zero_or_pos i with rfl | hp
    · simp
    · simp [hp.ne']
  have htw : BitVec.twoPow 64 1 = ofInt 64 2 := by decide
  have hon : 1#64 = ofInt 64 1 := by decide
  have hw : setObjBucketNumber n = ofInt 64 (2 * n + 1) := by
    rw [setObjBucketNumber, hor, BitVec.shiftLeft_eq_mul_twoPow, htw, ← BitVec.ofInt_mul, hon,
      ← BitVec.ofInt_add, mul_comm]
  rw [getObjBucketNumber, hw, BitVec.toInt_sshiftRight, BitVec.toInt_ofInt,
    Int.bmod_eq_of_le (by omega) (by omega), Int.shiftRight_eq_div_pow]
  omega

end

/-! ## The table -/

/-- **The entries of the table.** `free` are the handles on the free list, and `F` the objects whose
entry is tagged. -/
structure TableOk (s : Store) (free : List ℕ) (F : List Ptr) : Prop where
  top_pos : 0 < s.top
  top_le : s.top ≤ s.size
  top_le_limit : s.top ≤ handleLimit
  valid : ∀ a o, s.obj a = some o → isObjValid a
  handle : ∀ a o, s.obj a = some o → 0 < o.handle ∧ o.handle < s.top ∧ o.handle ∉ free
  entry : ∀ a o, s.obj a = some o →
    s.objectBuckets o.handle = if a ∈ F then setObjInvalid a else a
  chain : NullList (-1) (fun h : ℤ => getObjBucketNumber (s.objectBuckets h.toNat)) s.freeListHead
    (free.map (↑))
  tagged : ∀ h ∈ free, 0 < h ∧ h < s.top ∧ ¬ isObjValid (s.objectBuckets h)
  cover : ∀ h, 0 < h → h < s.top → h ∈ free ∨ ∃ a o, s.obj a = some o ∧ o.handle = h

section
variable {s s' : Store} {free : List ℕ} {F F' : List Ptr} {a b : Ptr} {o o' : Obj}

@[simp] lemma Store.setObj_obj (s : Store) (a : Ptr) (o : Obj) :
    (s.setObj a o).obj = update s.obj a (some o) := rfl

lemma Store.setObj_some {x : Obj} (h : (s.setObj a o').obj b = some x) :
    (b = a ∧ x = o') ∨ (b ≠ a ∧ s.obj b = some x) := by
  by_cases heq : b = a
  · rw [heq, Store.setObj_obj, update_self] at h
    exact .inl ⟨heq, (Option.some.inj h).symm⟩
  · rw [Store.setObj_obj, update_of_ne heq] at h
    exact .inr ⟨heq, h⟩

lemma delFinish_some {x : Obj} {k : ℕ} (h : (delFinish s a k).obj b = some x) :
    b ≠ a ∧ s.obj b = some x := by
  have hne : b ≠ a := by
    rintro rfl
    have hn : (delFinish s b k).obj b = none := update_self ..
    rw [hn] at h
    cases h
  exact ⟨hne, (update_of_ne hne _ _).symm.trans h⟩

namespace TableOk

section

variable (h : TableOk s free F)
include h

/-- **A handle belongs to one object.** -/
theorem handle_inj (ha : s.obj a = some o) (hb : s.obj b = some o')
    (heq : o.handle = o'.handle) : a = b := by
  have hva := h.valid a o ha
  have hvb := h.valid b o' hb
  have hen := (h.entry a o ha).symm.trans ((congrArg s.objectBuckets heq).trans (h.entry b o' hb))
  split_ifs at hen with haF hbF hbF
  · exact setObjInvalid_inj hva hvb hen
  · exact absurd (hen ▸ hvb) (not_isObjValid_setObjInvalid a)
  · exact absurd (hen ▸ hva) (not_isObjValid_setObjInvalid b)
  · exact hen

/-- A handle on the free list fits into an `int`, and so does the end of the list. -/
lemma head_range : -1 ≤ s.freeListHead ∧ s.freeListHead < 2 ^ 31 := by
  have hc := h.chain
  cases free with
  | nil =>
    have hhd : s.freeListHead = -1 := hc
    omega
  | cons k free =>
    have hhd : s.freeListHead = k := hc.1
    have hk := (h.tagged k mem_cons_self).2.1
    have hle := hk.trans_le h.top_le_limit
    rw [handleLimit] at hle
    omega

lemma setObj (ho : s.obj a = some o) (hh : o'.handle = o.handle) :
    TableOk (s.setObj a o') free F := by
  have hbc : ∀ b x, (s.setObj a o').obj b = some x → ∃ y, s.obj b = some y ∧
    x.handle = y.handle := by
    intro b x hx
    rcases Store.setObj_some hx with ⟨rfl, rfl⟩ | ⟨-, hx⟩
    · exact ⟨o, ho, hh⟩
    · exact ⟨x, hx, rfl⟩
  refine { h with
    valid := fun b x hx => ?_
    handle := fun b x hx => ?_
    entry := fun b x hx => ?_
    cover := fun k hp hlt => ?_ }
  · obtain ⟨y, hy, -⟩ := hbc b x hx
    exact h.valid b y hy
  · obtain ⟨y, hy, heq⟩ := hbc b x hx
    rw [heq]
    exact h.handle b y hy
  · obtain ⟨y, hy, heq⟩ := hbc b x hx
    rw [heq]
    exact h.entry b y hy
  refine (h.cover k hp hlt).imp_right ?_
  rintro ⟨b, x, hx, rfl⟩
  by_cases heq : b = a
  · rw [heq, ho] at hx
    rw [← Option.some.inj hx]
    exact ⟨a, o', update_self .., hh⟩
  · exact ⟨b, x, (update_of_ne heq _ _).trans hx, rfl⟩

lemma setStack (stack : List Frame) : TableOk { s with stack := stack } free F := { h with }

lemma chain_update {k : ℕ} (hk : k ∉ free) (w : Ptr) :
    NullList (-1) (fun i : ℤ => getObjBucketNumber (update s.objectBuckets k w i.toNat))
      s.freeListHead (free.map (↑)) := by
  refine h.chain.congr fun i hi => ?_
  obtain ⟨j, hj, rfl⟩ := mem_map.mp hi
  have hne : j ≠ k := ne_of_mem_of_not_mem hj hk
  simp [update_of_ne hne]

lemma invalidate (ho : s.obj a = some o) :
    TableOk (s.setBucket o.handle (setObjInvalid a)) free (a :: F) := by
  have hn := (h.handle a o ho).2.2
  refine { h with
    entry := fun b x hx => ?_
    chain := h.chain_update hn _
    tagged := fun k hk => ?_ }
  · by_cases heq : b = a
    · have hsm : x = o := Option.some.inj ((heq ▸ hx).symm.trans ho)
      rw [hsm, heq, if_pos mem_cons_self]
      exact update_self ..
    · have hne : x.handle ≠ o.handle := fun hh => heq (h.handle_inj hx ho hh)
      simp only [mem_cons, heq, false_or]
      exact (update_of_ne hne _ _).trans (h.entry b x hx)
  · have hne : k ≠ o.handle := ne_of_mem_of_not_mem hk hn
    simp only [Store.setBucket, update_of_ne hne]
    exact h.tagged k hk

/-- **The handle of an object goes to the free list.** -/
theorem finish (ho : s.obj a = some o) (hF : ∀ b, b ≠ a → (b ∈ F' ↔ b ∈ F)) :
    TableOk (delFinish s a o.handle) (o.handle :: free) F' := by
  obtain ⟨hp, hlt, hn⟩ := h.handle a o ho
  have hot : ∀ b x, (delFinish s a o.handle).obj b = some x → x.handle ≠ o.handle := by
    intro b x hx heq
    obtain ⟨hne, hx⟩ := delFinish_some hx
    exact hne (h.handle_inj hx ho heq)
  refine ⟨h.top_pos, h.top_le, h.top_le_limit, fun b x hx => h.valid b x (delFinish_some hx).2,
    fun b x hx => ?_, fun b x hx => ?_, ⟨rfl, by omega, ?_⟩, fun k hk => ?_, fun k hkp hkl => ?_⟩
  · obtain ⟨hxp, hxl, hxf⟩ := h.handle b x (delFinish_some hx).2
    refine ⟨hxp, hxl, ?_⟩
    rw [mem_cons, not_or]
    exact ⟨hot b x hx, hxf⟩
  · obtain ⟨hne, hx'⟩ := delFinish_some hx
    simp only [hF b hne]
    exact (update_of_ne (hot b x hx) _ _).trans (h.entry b x hx')
  · -- the entry leads to the old head
    obtain ⟨hl, hhg⟩ := h.head_range
    have hnx : getObjBucketNumber ((delFinish s a o.handle).objectBuckets (o.handle : ℤ).toNat) =
        s.freeListHead := by
      simp only [delFinish, Int.toNat_natCast, update_self]
      exact getObjBucketNumber_setObjBucketNumber hl hhg
    dsimp only
    rw [hnx]
    exact h.chain_update hn _
  · rcases mem_cons.mp hk with rfl | hk
    · refine ⟨hp, hlt, ?_⟩
      simp only [delFinish, update_self]
      exact not_isObjValid_setObjBucketNumber _
    · have hne : k ≠ o.handle := ne_of_mem_of_not_mem hk hn
      simp only [delFinish, update_of_ne hne]
      exact h.tagged k hk
  rw [mem_cons, or_assoc]
  by_cases heq : k = o.handle
  · exact .inl heq
  refine .inr ((h.cover k hkp hkl).imp_right ?_)
  rintro ⟨b, x, hx, rfl⟩
  have hne : b ≠ a := by
    rintro rfl
    exact heq (congrArg Obj.handle (Option.some.inj (hx.symm.trans ho)))
  exact ⟨b, x, (update_of_ne hne _ _).trans hx, rfl⟩

lemma obj_of_valid {i : ℕ} (hp : 0 < i) (hlt : i < s.top) (hv : isObjValid (s.objectBuckets i)) :
    ∃ o, s.obj (s.objectBuckets i) = some o ∧ o.handle = i ∧ s.objectBuckets i ∉ F := by
  rcases h.cover i hp hlt with hf | ⟨a, o, ho, rfl⟩
  · exact absurd hv (h.tagged i hf).2.2
  have hen := h.entry a o ho
  split_ifs at hen with hF
  · rw [hen] at hv
    exact absurd hv (not_isObjValid_setObjInvalid a)
  · rw [hen]
    exact ⟨o, ho, rfl, hF⟩

end

end TableOk

/-! ## Creating objects -/

lemma TableOk.place {k : ℕ} (free' : List ℕ) (h : TableOk s free F) (hn : s.obj a = none)
    (hv : isObjValid a) (hF : a ∉ F) {t : Store}
    (hob : t.obj = update s.obj a (some o))
    (hb : t.objectBuckets = update s.objectBuckets k a) (hh : o.handle = k)
    (hp : 0 < k) (hlt : k < t.top) (hsz : t.top ≤ t.size) (hmx : t.top ≤ handleLimit)
    (hol : ∀ b x, s.obj b = some x → x.handle ≠ k)
    (htp : s.top ≤ t.top) (hf : ∀ j, j ∈ free' ↔ j ∈ free ∧ j ≠ k)
    (hc : NullList (-1) (fun i : ℤ => getObjBucketNumber (s.objectBuckets i.toNat)) t.freeListHead
      (free'.map (↑)))
    (hcv : ∀ j, 0 < j → j < t.top → j = k ∨ j < s.top) : TableOk t free' F := by
  have hbc : ∀ b x, t.obj b = some x → (b = a ∧ x = o) ∨ (b ≠ a ∧ s.obj b = some x) := by
    intro b x hx
    rw [hob] at hx
    exact Store.setObj_some hx
  refine ⟨hp.trans hlt, hsz, hmx, fun b x hx => ?_, fun b x hx => ?_, fun b x hx => ?_, ?_,
    fun j hj => ?_, fun j hjp hjl => ?_⟩
  · rcases hbc b x hx with ⟨rfl, -⟩ | ⟨-, hx⟩
    · exact hv
    · exact h.valid b x hx
  · rcases hbc b x hx with ⟨-, rfl⟩ | ⟨-, hx⟩
    · rw [hh, hf]
      exact ⟨hp, hlt, fun hm => hm.2 rfl⟩
    · obtain ⟨hxp, hxl, hxf⟩ := h.handle b x hx
      rw [hf]
      exact ⟨hxp, hxl.trans_le htp, fun hm => hxf hm.1⟩
  · rw [hb]
    rcases hbc b x hx with ⟨rfl, rfl⟩ | ⟨-, hx⟩
    · rw [hh, update_self, if_neg hF]
    · rw [update_of_ne (hol b x hx)]
      exact h.entry b x hx
  · rw [hb]
    refine hc.congr fun i hi => ?_
    obtain ⟨j, hj, rfl⟩ := mem_map.mp hi
    simp [update_of_ne ((hf j).mp hj).2]
  · obtain ⟨hjf, hne⟩ := (hf j).mp hj
    obtain ⟨hjp, hjl, htg⟩ := h.tagged j hjf
    rw [hb, update_of_ne hne]
    exact ⟨hjp, hjl.trans_le htp, htg⟩
  by_cases heq : j = k
  · exact .inr ⟨a, o, by rw [hob, update_self], hh.trans heq.symm⟩
  have hjs := (hcv j hjp hjl).resolve_left heq
  rcases h.cover j hjp hjs with hjf | ⟨b, x, hx, hxj⟩
  · exact .inl ((hf j).mpr ⟨hjf, heq⟩)
  · have hne : b ≠ a := fun hba => by
      rw [hba, hn] at hx
      cases hx
    exact .inr ⟨b, x, by rw [hob, update_of_ne hne, hx], hxj⟩

end

end PhpInternals.Zend.ZendObjectsApi
