import PhpInternals.Zend.ZendGc.Graph

/-!
# The root buffer

The slots of `GC_G(buf)` and of the additional buffers are threaded through the rings `roots` and
`to_free` and the list `unused`.
-/

namespace PhpInternals.Zend.ZendGc

open RootPtr Function Found List

variable {N : Type}

/-! ## The invariant -/

/-- What `GC_ADDRESS` says of a value in a slot. -/
def RootPtr.address : RootPtr → ℕ
  | .buf i => i
  | .additional _ i => gcRootBufferMaxEntries + i
  | _ => 0

namespace BufferView

/-- `used` of an additional buffer. -/
def used (v : BufferView N) (b : ℕ) : ℕ := v.additionalBuffer.reverse.getD b 0

/-- The slots that have been handed out. -/
def IsSlot (v : BufferView N) : RootPtr → Prop
  | .buf i => 1 ≤ i ∧ i < v.firstUnused
  | .additional b i => b < v.additionalBuffer.length ∧ i < v.used b
  | _ => False

/-- **The invariant of the root buffer.** `R` and `T` are the slots on the rings, `U` those on the
unused list, `H` slots on no list. -/
structure Wf (v : BufferView N) (R T U H : List RootPtr) : Prop where
  roots : v.links.Ring .roots R
  toFree : v.links.Ring .toFree T
  unused : NullList .null v.links.prev v.unused U
  nodup : (R ++ (T ++ (U ++ H))).Nodup
  slot : ∀ p ∈ R ++ (T ++ (U ++ H)), v.IsSlot p
  buf_mem : ∀ i, v.IsSlot (.buf i) → .buf i ∈ R ++ (T ++ (U ++ H))
  unused_buf : ∀ p ∈ U, ∃ i, p = .buf i
  /-- Slots are taken from the newest additional buffer. -/
  held_newest : ∀ b i, .additional b i ∈ H → b + 1 = v.additionalBuffer.length
  linked : ∀ p ∈ R ++ T, ∃ n, v.ref p = some n ∧ v.address n = p.address
  ref_inj : ∀ p ∈ R ++ T, ∀ q ∈ R ++ T, v.ref p = v.ref q → p = q
  buffered : ∀ n, v.address n ≠ 0 → ∃ p ∈ R ++ T, v.ref p = some n
  /-- A newer buffer does not have the value of a linked slot. -/
  newest : ∀ b i, .additional b i ∈ R ++ T → ∀ b' j, b < b' → v.IsSlot (.additional b' j) →
    .additional b' j ∉ H → v.ref (.additional b' j) ≠ v.ref (.additional b i)
  first_pos : v.firstUnused ≠ v.lastUnused → 1 ≤ v.firstUnused
  first_le : v.firstUnused ≤ v.lastUnused
  last_le : v.lastUnused ≤ gcRootBufferMaxEntries
  used_le : ∀ u ∈ v.additionalBuffer, u ≤ gcNumAdditionalEntries

/-- Store a value in a slot and link the slot in. -/
def addRoot [DecidableEq N] (v : BufferView N) (p : RootPtr) (n : N) (address : ℕ) :
    BufferView N :=
  { v with
    address := update v.address n address
    ref := update v.ref p (some n)
    links := v.links.insertAfter .roots p }

/-- Take a slot off its ring and reset the value's address. -/
def unlink [DecidableEq N] (v : BufferView N) (p : RootPtr) (n : N) : BufferView N :=
  { v with address := update v.address n 0, links := v.links.unlink p }

/-- Put a slot on the unused list. Source: `zend_gc.c` `gc_remove_from_roots`. -/
def pushUnused (v : BufferView N) (p : RootPtr) : BufferView N :=
  { v with links := v.links.setPrev p v.unused, unused := p }

namespace Wf

variable {v : BufferView N} {R T U H : List RootPtr} {p : RootPtr} {n : N}

section

variable (hw : v.Wf R T U H)
include hw

lemma notMem_of_not_slot (hp : ¬ v.IsSlot p) :
    p ∉ R ++ (T ++ (U ++ H)) := fun hm => hp (hw.slot p hm)

lemma ne_head (hp : p ∈ R ++ (T ++ (U ++ H))) : p ≠ .roots ∧ p ≠ .toFree ∧ p ≠ .null := by
  have hsl := hw.slot p hp
  refine ⟨?_, ?_, ?_⟩ <;> (rintro rfl; exact hsl)

lemma notMem_rootsRing (hp : p ∈ .toFree :: (T ++ (U ++ H))) : p ∉ .roots :: R := by
  intro hm
  rcases mem_cons.mp hp with rfl | hp
  · have : RootPtr.toFree ∈ R := by simpa using hm
    exact hw.notMem_of_not_slot id (mem_append_left _ this)
  · rcases mem_cons.mp hm with rfl | hm
    · exact hw.notMem_of_not_slot id (mem_append_right _ hp)
    · exact disjoint_of_nodup_append hw.nodup hm hp

lemma notMem_toFreeRing (hp : p ∈ .roots :: (R ++ (U ++ H))) : p ∉ .toFree :: T := by
  intro hm
  rcases mem_cons.mp hm with rfl | hm
  · have : RootPtr.toFree ∈ R ++ (U ++ H) := by simpa using hp
    refine hw.notMem_of_not_slot (p := .toFree) id ?_
    simp only [mem_append] at this ⊢
    tauto
  rcases mem_cons.mp hp with rfl | hp
  · exact hw.notMem_of_not_slot id (mem_append_right _ (mem_append_left _ hm))
  · have hnd := nodup_append'.mp hw.nodup
    rcases mem_append.mp hp with hp | hp
    · exact hnd.2.2 hp (mem_append_left _ hm)
    · exact disjoint_of_nodup_append hnd.2.1 hm hp

lemma address_ne_zero (hp : p ∈ R ++ (T ++ (U ++ H))) : p.address ≠ 0 := by
  have hsl := hw.slot p hp
  cases p with
  | buf i =>
    simp only [IsSlot] at hsl
    simp only [RootPtr.address]
    omega
  | additional b i => simp [RootPtr.address, gcRootBufferMaxEntries]
  | null | roots | toFree => exact hsl.elim

end

lemma mem_slots (hp : p ∈ R ++ T) : p ∈ R ++ (T ++ (U ++ H)) :=
  append_assoc R T _ ▸ mem_append_left _ hp

lemma perm_tail {U' H' : List RootPtr} (hpr : (U ++ H).Perm (U' ++ H')) :
    (R ++ (T ++ (U ++ H))).Perm (R ++ (T ++ (U' ++ H'))) :=
  (hpr.append_left T).append_left R

lemma popUnused (hw : v.Wf R T (p :: U) []) : Wf { v with unused := v.links.prev p } R T U [p] := by
  have hpr : (R ++ (T ++ ((p :: U) ++ []))).Perm (R ++ (T ++ (U ++ [p]))) :=
    perm_tail (by rw [append_nil]; exact (perm_append_singleton p U).symm)
  refine { hw with
    unused := hw.unused.2.2
    nodup := hpr.nodup_iff.mp hw.nodup
    slot := fun q hq => hw.slot q (hpr.mem_iff.mpr hq)
    buf_mem := fun i hi => hpr.mem_iff.mp (hw.buf_mem i hi)
    unused_buf := fun q hq => hw.unused_buf q (mem_cons_of_mem _ hq)
    held_newest := fun b i hm => ?_
    newest := fun b i hm b' j hlt hsl _ => hw.newest b i hm b' j hlt hsl (by simp) }
  obtain ⟨k, hk⟩ := hw.unused_buf p (mem_cons_self ..)
  rw [mem_singleton, hk] at hm
  cases hm

/-- **One slot more**, in hand. -/
theorem newSlot {v' : BufferView N} (hw : v.Wf R T U [])
    (hsl : ∀ q, v'.IsSlot q ↔ v.IsSlot q ∨ q = p) (hp : ¬ v.IsSlot p) :
    (R ++ (T ++ (U ++ [p]))).Nodup ∧ (∀ q ∈ R ++ (T ++ (U ++ [p])), v'.IsSlot q) ∧
      ∀ i, v'.IsSlot (.buf i) → .buf i ∈ R ++ (T ++ (U ++ [p])) := by
  have hpr : (R ++ (T ++ (U ++ [p]))).Perm (p :: (R ++ (T ++ (U ++ [])))) := by
    simp only [← append_assoc, append_nil]
    exact perm_append_singleton _ _
  refine ⟨hpr.nodup_iff.mpr (nodup_cons.mpr ⟨hw.notMem_of_not_slot hp, hw.nodup⟩),
    fun q hq => (hsl q).mpr ?_, fun i hi => hpr.mem_iff.mpr ?_⟩
  · exact (mem_cons.mp (hpr.mem_iff.mp hq)).symm.imp_left (hw.slot q)
  · exact mem_cons.mpr (((hsl _).mp hi).symm.imp_right (hw.buf_mem i))

lemma bump (hw : v.Wf R T U []) (hne : v.firstUnused ≠ v.lastUnused) :
    Wf { v with firstUnused := v.firstUnused + 1 } R T U [.buf v.firstUnused] := by
  have hps := hw.first_pos hne
  have hf := hw.first_le
  have hslo : ∀ q, IsSlot { v with firstUnused := v.firstUnused + 1 } q ↔
      v.IsSlot q ∨ q = .buf v.firstUnused := by
    intro q
    cases q with
    | buf i =>
      simp only [IsSlot, buf.injEq]
      omega
    | _ => simp [IsSlot, used]
  obtain ⟨hn, hsl, hbf⟩ := hw.newSlot hslo (by simp [IsSlot])
  refine { hw with
    nodup := hn
    slot := hsl
    buf_mem := hbf
    held_newest := fun b i hb => by simp at hb
    newest := fun b i hb b' j hlt hs _ => hw.newest b i hb b' j hlt hs (by simp)
    first_pos := fun _ => by simp
    first_le := ?_ }
  simp only
  omega

omit v R T U H p n in
/-- `used` of the buffer that an element of the list of buffers stands for. -/
lemma used_eq {v : BufferView N} (newer : List ℕ) {rest : List ℕ} {u : ℕ}
    (hv : v.additionalBuffer = newer ++ u :: rest) : v.used rest.length = u := by
  rw [used, hv]
  simp

lemma newAdditional (hw : v.Wf R T U []) {u : ℕ} {rest : List ℕ}
    (hc : v.additionalBuffer = u :: rest ∧ u ≠ gcNumAdditionalEntries ∨
      v.additionalBuffer = rest ∧ u = 0) :
    Wf { v with additionalBuffer := (u + 1) :: rest } R T U [.additional rest.length u] := by
  have ho : v.used rest.length = u := by
    rcases hc with ⟨hv, -⟩ | ⟨hv, rfl⟩
    · exact used_eq [] hv
    · simp [used, hv]
  have hl : rest.length ≤ v.additionalBuffer.length ∧ v.additionalBuffer.length ≤ rest.length + 1 ∧
      (0 < u → v.additionalBuffer.length = rest.length + 1) := by
    rcases hc with ⟨hv, -⟩ | ⟨hv, rfl⟩ <;> simp [hv]
  have hsm : ∀ b < rest.length,
      used { v with additionalBuffer := (u + 1) :: rest } b = v.used b := by
    intro b hb
    have hb' : b < rest.reverse.length := by simpa using hb
    rcases hc with ⟨hv, -⟩ | ⟨hv, -⟩ <;>
      simp [used, hv, getElem?_append_left hb']
  have hnw : used { v with additionalBuffer := (u + 1) :: rest } rest.length = u + 1 :=
    used_eq [] rfl
  have hslo : ∀ q, IsSlot { v with additionalBuffer := (u + 1) :: rest } q ↔
      v.IsSlot q ∨ q = .additional rest.length u := by
    intro q
    cases q with
    | additional b i =>
      simp only [IsSlot, length_cons, additional.injEq]
      rcases lt_trichotomy b rest.length with hb | hb | hb
      · rw [hsm b hb]
        omega
      · subst hb
        omega
      · omega
    | _ => simp [IsSlot]
  have hnt : ¬ v.IsSlot (.additional rest.length u) := by
    simp only [IsSlot]
    omega
  obtain ⟨hn, hsl, hbf⟩ := hw.newSlot hslo hnt
  refine { hw with
    nodup := hn
    slot := hsl
    buf_mem := hbf
    held_newest := fun b i hb => ?_
    newest := fun b i hb b' j hlt hs hj => ?_
    used_le := fun w hw' => ?_ }
  · simp only [mem_singleton, additional.injEq] at hb
    simp [hb.1]
  · refine hw.newest b i hb b' j hlt (((hslo _).mp hs).resolve_right fun he => hj ?_) (by simp)
    simp [he]
  rcases hc with ⟨hv, hu⟩ | ⟨hv, rfl⟩
  · rcases mem_cons.mp hw' with rfl | hw'
    · have := hw.used_le u (by simp [hv])
      omega
    · exact hw.used_le w (by simp [hv, hw'])
  · rcases mem_cons.mp hw' with rfl | hw'
    · simp [gcNumAdditionalEntries]
    · exact hw.used_le w (hv ▸ hw')

lemma perm_addRoot : (R ++ (T ++ (U ++ [p]))).Perm (p :: R ++ (T ++ (U ++ []))) := by
  simp only [← append_assoc, append_nil]
  exact perm_append_singleton _ _

section addRoot

variable (hw : v.Wf R T U [p]) (hn : v.address n = 0)
include hw

lemma notMem_of_held : p ∉ R ++ (T ++ (U ++ [])) :=
  (nodup_cons.mp (perm_addRoot.nodup_iff.mp hw.nodup)).1

/-- The other ring and the list of unused slots are not touched. -/
lemma addRoot_frame {q : RootPtr} (hq : q ∈ .toFree :: (T ++ (U ++ []))) :
    (v.links.insertAfter .roots p).next q = v.links.next q ∧
      (v.links.insertAfter .roots p).prev q = v.links.prev q := by
  refine hw.roots.insertAfter_frame ?_ (hw.notMem_rootsRing ?_)
  · rintro rfl
    rcases mem_cons.mp hq with rfl | hq
    · exact (hw.ne_head (p := .toFree) (by simp)).2.1 rfl
    · exact hw.notMem_of_held (mem_append_right _ hq)
  · simp only [mem_cons, mem_append] at hq ⊢
    tauto

lemma addRoot_ref [DecidableEq N] {q : RootPtr} (hq : q ∈ R ++ T) :
    (v.addRoot p n p.address).ref q = v.ref q := by
  refine update_of_ne ?_ _ _
  rintro rfl
  exact hw.notMem_of_held (mem_slots hq)

include hn

/-- What is in the buffer already is not the new root. -/
lemma linked_ne {q : RootPtr} (hq : q ∈ R ++ T) :
    ∃ m, m ≠ n ∧ v.ref q = some m ∧ v.address m = q.address := by
  obtain ⟨m, hm, ha⟩ := hw.linked q hq
  refine ⟨m, fun he => ?_, hm, ha⟩
  have := hw.address_ne_zero (mem_slots hq)
  rw [← ha, he, hn] at this
  exact this rfl

variable [DecidableEq N]

lemma addRoot_ref_ne {q : RootPtr} (hq : q ∈ R ++ T) :
    (v.addRoot p n p.address).ref q ≠ some n := by
  obtain ⟨m, hmn, hm, -⟩ := hw.linked_ne hn hq
  rw [hw.addRoot_ref hq, hm]
  simpa using hmn

lemma addRoot_ref_inj {q q' : RootPtr} (hq : q ∈ p :: R ++ T) (hq' : q' ∈ p :: R ++ T)
    (he : (v.addRoot p n p.address).ref q = (v.addRoot p n p.address).ref q') : q = q' := by
  have hr : (v.addRoot p n p.address).ref p = some n := update_self ..
  rcases mem_cons.mp hq with rfl | hqL
  · rcases mem_cons.mp hq' with rfl | hqL'
    · rfl
    · exact absurd (he.symm.trans hr) (hw.addRoot_ref_ne hn hqL')
  · rcases mem_cons.mp hq' with rfl | hqL'
    · exact absurd (he.trans hr) (hw.addRoot_ref_ne hn hqL)
    · rw [hw.addRoot_ref hqL, hw.addRoot_ref hqL'] at he
      exact hw.ref_inj q hqL q' hqL' he

/-- The new slot is in the newest buffer. -/
lemma addRoot_newest {b i b' j : ℕ} (hbi : .additional b i ∈ p :: R ++ T) (hlt : b < b')
    (hs : v.IsSlot (.additional b' j)) :
    (v.addRoot p n p.address).ref (.additional b' j) ≠
      (v.addRoot p n p.address).ref (.additional b i) := by
  rcases mem_cons.mp hbi with hbi | hbi
  · have hb := hw.held_newest b i (by simp [hbi])
    have hs' : b' < v.additionalBuffer.length := hs.1
    omega
  rw [hw.addRoot_ref hbi]
  by_cases hj : additional b' j = p
  · rw [hj, show (v.addRoot p n p.address).ref p = some n from update_self ..]
    obtain ⟨m, hmn, hm, -⟩ := hw.linked_ne hn hbi
    rw [hm]
    simpa using hmn.symm
  · rw [show (v.addRoot p n p.address).ref (additional b' j) = v.ref _ from update_of_ne hj _ _]
    exact hw.newest b i hbi b' j hlt hs (by simpa using hj)

/-- **A slot in hand becomes a root.** -/
theorem addRoot : (v.addRoot p n p.address).Wf (p :: R) T U [] := by
  have hnd := perm_addRoot.nodup_iff.mp hw.nodup
  have hh := hw.ne_head (p := p) (by simp)
  refine ⟨hw.roots.insertAfter ?_, hw.toFree.frame fun q hq => hw.addRoot_frame ?_,
    hw.unused.congr fun q hq => (hw.addRoot_frame (by simp [hq])).2, hnd,
    fun q hq => hw.slot q (perm_addRoot.mem_iff.mpr hq),
    fun i hi => perm_addRoot.mem_iff.mp (hw.buf_mem i hi), hw.unused_buf, nofun,
    fun q hq => ?_, fun q hq q' hq' => hw.addRoot_ref_inj hn hq hq', fun m hm => ?_,
    fun b i hbi b' j hlt hs _ => hw.addRoot_newest hn hbi hlt hs, hw.first_pos, hw.first_le,
    hw.last_le, hw.used_le⟩
  · simp only [mem_cons, not_or]
    exact ⟨hh.1, fun hpR => hw.notMem_of_held (mem_append_left _ hpR)⟩
  · exact cons_subset_cons _ (subset_append_left ..) hq
  · rcases mem_cons.mp hq with rfl | hq
    · exact ⟨n, update_self .., update_self ..⟩
    · obtain ⟨m, hmn, hm, ha⟩ := hw.linked_ne hn hq
      refine ⟨m, (hw.addRoot_ref hq).trans hm, ?_⟩
      rw [← ha]
      exact update_of_ne hmn _ _
  · by_cases hmn : m = n
    · exact ⟨p, by simp, hmn ▸ update_self ..⟩
    · have hm' : v.address m ≠ 0 := by
        rw [BufferView.addRoot] at hm
        simpa [update_of_ne hmn] using hm
      obtain ⟨q, hq, hqm⟩ := hw.buffered m hm'
      exact ⟨q, mem_cons_of_mem _ hq, (hw.addRoot_ref hq).trans hqm⟩

end addRoot

/-- The slot in hand after a slot has been taken off a ring: slots of additional buffers are not
used again. Source: `zend_gc.c` `gc_remove_from_additional_roots`. -/
def handBack : RootPtr → List RootPtr
  | .buf i => [.buf i]
  | _ => []

/-- What `gc_remove_from_roots` and its two callers have in common. -/
lemma remove_aux [DecidableEq N] (hw : v.Wf R T U []) (hrf : v.ref p = some n)
    {R' T' : List RootPtr} (hpr : (R ++ T).Perm (p :: (R' ++ T')))
    (hr : (v.links.unlink p).Ring .roots R') (htF : (v.links.unlink p).Ring .toFree T')
    (hu : ∀ q ∈ U, (v.links.unlink p).prev q = v.links.prev q) :
    (v.unlink p n).Wf R' T' U (handBack p) := by
  have hbc : ∀ q ∈ handBack p, q = p := by
    intro q hq
    cases p <;> simp_all [handBack]
  have hn := hw.nodup
  rw [append_nil, ← append_assoc, nodup_append'] at hn
  obtain ⟨hRT, hU, hRTU⟩ := hn
  obtain ⟨hpn, hnd⟩ := nodup_cons.mp (hpr.nodup_iff.mp hRT)
  have hp : p ∈ R ++ T := hpr.mem_iff.mpr mem_cons_self
  have hsb : ∀ q ∈ R' ++ T', q ∈ R ++ T := fun q hq => hpr.mem_iff.mpr (mem_cons_of_mem _ hq)
  have hsl : ∀ q ∈ R' ++ (T' ++ (U ++ handBack p)), q ∈ R ++ (T ++ (U ++ [])) := by
    intro q hq
    rw [← append_assoc] at hq
    rcases mem_append.mp hq with hq | hq
    · exact mem_slots (hsb q hq)
    rcases mem_append.mp hq with hq | hq
    · simp [hq]
    · exact mem_slots (hbc q hq ▸ hp)
  have hne : ∀ q ∈ R ++ T, q ≠ p → ∃ m, m ≠ n ∧ v.ref q = some m ∧ v.address m = q.address := by
    intro q hq hqp
    obtain ⟨m, hm, ha⟩ := hw.linked q hq
    refine ⟨m, fun he => hqp (hw.ref_inj q hq p hp ?_), hm, ha⟩
    rw [hm, hrf, he]
  refine ⟨hr, htF, hw.unused.congr hu, ?_, fun q hq => hw.slot q (hsl q hq), ?_,
    hw.unused_buf, ?_, ?_, ?_, ?_, ?_, hw.first_pos, hw.first_le, hw.last_le, hw.used_le⟩
  · have hH : (handBack p).Nodup := by cases p <;> simp [handBack]
    rw [← append_assoc]
    refine nodup_append'.mpr
      ⟨hnd, nodup_append'.mpr ⟨hU, hH, fun q hqU hq => ?_⟩, fun q hq hq' => ?_⟩
    · exact hRTU hp (hbc q hq ▸ hqU)
    · rcases mem_append.mp hq' with hq' | hq'
      · exact hRTU (hsb q hq) hq'
      · exact hpn (hbc q hq' ▸ hq)
  · intro i hi
    have hbf := hw.buf_mem i hi
    rw [append_nil, ← append_assoc, mem_append, hpr.mem_iff, mem_cons] at hbf
    rcases hbf with (hip | hi') | hi'
    · simp [← hip, handBack]
    · exact mem_slots hi'
    · simp [hi']
  · intro b i hbi
    have := hbc _ hbi
    subst this
    simp [handBack] at hbi
  · intro q hq
    obtain ⟨m, hmn, hm, ha⟩ := hne q (hsb q hq) fun he => hpn (he ▸ hq)
    exact ⟨m, hm, (update_of_ne hmn _ _).trans ha⟩
  · exact fun q hq q' hq' he => hw.ref_inj q (hsb q hq) q' (hsb q' hq') he
  · intro m hm
    have hmn : m ≠ n := fun he => hm (he ▸ update_self ..)
    have hm' : v.address m ≠ 0 := by
      rw [BufferView.unlink] at hm
      simpa [update_of_ne hmn] using hm
    obtain ⟨q, hq, hqm⟩ := hw.buffered m hm'
    refine ⟨q, (mem_cons.mp (hpr.mem_iff.mp hq)).resolve_left fun he => ?_, hqm⟩
    rw [he, hrf] at hqm
    exact hmn (Option.some.inj hqm).symm
  · intro b i hbi b' j hlt hs _
    exact hw.newest b i (hsb _ hbi) b' j hlt hs (by simp)

/-- **Take a slot off the ring of the roots.** -/
theorem unlinkRoots [DecidableEq N] {R1 R2 : List RootPtr} (hw : v.Wf (R1 ++ p :: R2) T U [])
    (hr : v.ref p = some n) : (v.unlink p n).Wf (R1 ++ R2) T U (handBack p) := by
  have hf : ∀ q ∈ .toFree :: (T ++ (U ++ [])), (v.links.unlink p).next q = v.links.next q ∧
      (v.links.unlink p).prev q = v.links.prev q := fun q hq =>
    hw.roots.unlink_frame fun hm => hw.notMem_rootsRing hq (by
      simp only [mem_cons, mem_append] at hm ⊢
      tauto)
  refine hw.remove_aux hr (perm_middle.append_right T) hw.roots.unlink (hw.toFree.frame ?_) ?_
  · exact fun q hq => hf q (cons_subset_cons _ (subset_append_left ..) hq)
  · exact fun q hq => (hf q (by simp [hq])).2

/-- **Take a slot off the ring of the values to free.** -/
theorem unlinkToFree [DecidableEq N] {T1 T2 : List RootPtr} (hw : v.Wf R (T1 ++ p :: T2) U [])
    (hr : v.ref p = some n) : (v.unlink p n).Wf R (T1 ++ T2) U (handBack p) := by
  have hpr : (R ++ (T1 ++ p :: T2)).Perm (p :: (R ++ (T1 ++ T2))) := by
    rw [← append_assoc, ← append_assoc]
    exact perm_middle
  have hf : ∀ q ∈ .roots :: (R ++ (U ++ [])), (v.links.unlink p).next q = v.links.next q ∧
      (v.links.unlink p).prev q = v.links.prev q := fun q hq =>
    hw.toFree.unlink_frame fun hm => hw.notMem_toFreeRing hq (by
      simp only [mem_cons, mem_append] at hm ⊢
      tauto)
  refine hw.remove_aux hr hpr (hw.roots.frame ?_) hw.toFree.unlink ?_
  · exact fun q hq => hf q (cons_subset_cons _ (subset_append_left ..) hq)
  · exact fun q hq => (hf q (by simp [hq])).2

lemma pushUnused {i : ℕ} (hw : v.Wf R T U [.buf i]) :
    (v.pushUnused (.buf i)).Wf R T (.buf i :: U) [] := by
  have hpr : (R ++ (T ++ (U ++ [buf i]))).Perm (R ++ (T ++ ((.buf i :: U) ++ []))) :=
    perm_tail (by rw [append_nil]; exact perm_append_singleton _ U)
  have hn : ∀ q, q ∈ .roots :: R ∨ q ∈ .toFree :: T ∨ q ∈ U → q ≠ .buf i := by
    rintro q (hq | hq | hq) rfl
    · exact hw.notMem_rootsRing (by simp) hq
    · exact hw.notMem_toFreeRing (by simp) hq
    · have hnd := (nodup_append'.mp (nodup_append'.mp hw.nodup).2.1).2.1
      exact disjoint_of_nodup_append hnd hq (by simp)
  have hpv : ∀ q, q ≠ .buf i → (v.links.setPrev (.buf i) v.unused).prev q = v.links.prev q :=
    fun q hq => update_of_ne hq _ _
  refine { hw with
    roots := hw.roots.congr (fun _ _ => rfl) fun q hq => hpv q (hn q (.inl hq))
    toFree := hw.toFree.congr (fun _ _ => rfl) fun q hq => hpv q (hn q (.inr (.inl hq)))
    unused := ⟨rfl, by simp, ?_⟩
    nodup := hpr.nodup_iff.mp hw.nodup
    slot := fun q hq => hw.slot q (hpr.mem_iff.mpr hq)
    buf_mem := fun j hj => hpr.mem_iff.mp (hw.buf_mem j hj)
    unused_buf := fun q hq => ?_
    held_newest := nofun
    newest := fun b j hb b' k hlt hs _ => hw.newest b j hb b' k hlt hs (by simp) }
  · have hsr : (v.pushUnused (.buf i)).links.prev (.buf i) = v.unused := by
      simp [BufferView.pushUnused]
    rw [hsr]
    exact hw.unused.congr fun q hq => hpv q (hn q (.inr (.inr hq)))
  · rcases mem_cons.mp hq with rfl | hq
    · exact ⟨i, rfl⟩
    · exact hw.unused_buf q hq

lemma relinkRoots_transferred {L : Links RootPtr} (hR : L.Ring .roots R) (hT : L.Ring .toFree T)
    (hds : List.Disjoint (.roots :: R) (.toFree :: T)) (hne : R ≠ []) :
    Links.Ring.Transferred L (relinkRoots L) .roots .toFree := by
  have hf : L.next .roots ∈ R := by
    rw [hR.next_head]
    cases R with
    | nil => exact absurd rfl hne
    | cons x R => simp
  have hls : L.prev .roots ∈ R := by
    cases R with
    | nil => exact absurd rfl hne
    | cons x R => exact hR.path.2.prev_mem
  have hen : L.prev .toFree ∈ .toFree :: T := hT.path.prev_mem
  have hnr : L.next .roots ≠ .roots := fun he => hR.head_notMem (he ▸ hf)
  have hnt : L.next .roots ≠ .toFree := fun he =>
    hds (mem_cons_of_mem _ hf) (he ▸ mem_cons_self ..)
  have hpr : L.prev .roots ≠ .roots := fun he => hR.head_notMem (he ▸ hls)
  have hpt : L.prev .roots ≠ .toFree := fun he =>
    hds (mem_cons_of_mem _ hls) (he ▸ mem_cons_self ..)
  have her : L.prev .toFree ≠ .roots := fun he => hds (mem_cons_self ..) (he ▸ hen)
  have hel : L.prev .toFree ≠ L.prev .roots := fun he =>
    hds (mem_cons_of_mem _ hls) (he ▸ hen)
  -- both branches of the source come to the same links
  have hl : (relinkRoots L).next = update (update (update L.next
        (L.prev .toFree) (L.next .roots)) (L.prev .roots) .toFree) .roots .roots ∧
      (relinkRoots L).prev = update (update (update L.prev
        (L.next .roots) (L.prev .toFree)) .toFree (L.prev .roots)) .roots .roots := by
    rw [relinkRoots, if_pos hnr]
    by_cases hem : L.next .toFree = .toFree
    · obtain rfl := hT.next_head_eq_iff.mp hem
      have hsl : L.prev .toFree = .toFree := hT.path.2
      simp [hem, hsl, update_comm hnt, update_of_ne hnt.symm]
    · simp [hem, update_of_ne her.symm, update_of_ne hnr.symm]
  refine ⟨?_, ?_, ?_, ?_, ?_, ?_, ?_, ?_⟩
  · rw [hl.1, update_self]
  · rw [hl.2, update_self]
  · rw [hl.1, update_of_ne her, update_of_ne hel, update_self]
  · rw [hl.2, update_of_ne hnr, update_of_ne hnt, update_self]
  · rw [hl.1, update_of_ne hpr, update_self]
  · rw [hl.2, update_of_ne (by simp), update_self]
  · intro p hp hpl hpe
    rw [hl.1, update_of_ne hp, update_of_ne hpl, update_of_ne hpe]
  · intro p hp hpf hpt
    rw [hl.2, update_of_ne hp, update_of_ne hpt, update_of_ne hpf]

/-- The roots are moved to the list of what is freed. -/
lemma relink (hw : v.Wf R T U []) :
    Wf { v with links := relinkRoots v.links } [] (T ++ R) U [] := by
  by_cases hne : R = []
  · subst hne
    have hsm : relinkRoots v.links = v.links := by
      rw [relinkRoots, if_neg (by rw [hw.roots.next_head]; simp)]
    rw [hsm, append_nil]
    exact hw
  have hds : List.Disjoint (.roots :: R) (.toFree :: T) := fun q hq hq' => by
    refine hw.notMem_rootsRing ?_ hq
    simp only [mem_cons, mem_append] at hq' ⊢
    tauto
  have ht := relinkRoots_transferred hw.roots hw.toFree hds hne
  obtain ⟨htF, hr⟩ := Links.Ring.transfer hw.roots hw.toFree hne hds ht
  have hpr : ([] ++ ((T ++ R) ++ (U ++ []))).Perm (R ++ (T ++ (U ++ []))) := by
    rw [← append_assoc R]
    exact perm_append_comm.append_right _
  have hm : ∀ q, q ∈ [] ++ (T ++ R) ↔ q ∈ R ++ T := fun q => by
    simp only [mem_append]
    tauto
  refine { hw with
    roots := hr
    toFree := htF
    unused := hw.unused.congr fun q hq => ?_
    nodup := hpr.nodup_iff.mpr hw.nodup
    slot := fun q hq => hw.slot q (hpr.mem_iff.mp hq)
    buf_mem := fun i hi => hpr.mem_iff.mpr (hw.buf_mem i hi)
    linked := fun q hq => hw.linked q ((hm q).mp hq)
    ref_inj := fun q hq q' hq' => hw.ref_inj q ((hm q).mp hq) q' ((hm q').mp hq')
    buffered := fun n hn => ?_
    newest := fun b i hb => hw.newest b i ((hm _).mp hb) }
  · have hqR : q ∉ .roots :: R := hw.notMem_rootsRing (by simp [hq])
    have hqT : q ∉ .toFree :: T := hw.notMem_toFreeRing (by simp [hq])
    refine ht.prev_other q (fun he => hqR (he ▸ by simp)) (fun he => hqR ?_) fun he =>
      hqT (he ▸ by simp)
    rw [he, hw.roots.next_head]
    cases R <;> simp
  · obtain ⟨q, hq, hqn⟩ := hw.buffered n hn
    exact ⟨q, (hm q).mpr hq, hqn⟩

end Wf

end BufferView

/-! ## Finding a slot -/

section Find

variable [DecidableEq N] {s : GcState N} {R T U : List RootPtr} {b i : ℕ} {n : N}

/-- The loop over the additional buffers, from any of them that is not older than the slot's. -/
lemma gcFindAdditionalBuffer_suffix (hw : s.view.Wf R T U [])
    (hmm : .additional b i ∈ R ++ T) (hr : s.ref (.additional b i) = some n) :
    ∀ older newer, s.additionalBuffer = newer ++ older → b < older.length →
      gcFindAdditionalBuffer n s older = .ok (.additional b i)
  | [], _, _, hb => absurd hb (Nat.not_lt_zero _)
  | used :: rest, newer, hbf, hb => by
    obtain ⟨m, hm, ha⟩ := hw.linked _ hmm
    obtain rfl : n = m := Option.some.inj (hr.symm.trans hm)
    have hid : (s.info n).address - gcRootBufferMaxEntries = i := by
      have : (s.info n).address = gcRootBufferMaxEntries + i := ha
      omega
    have hu : s.view.used rest.length = used := BufferView.Wf.used_eq newer hbf
    rw [gcFindAdditionalBuffer, hid]
    by_cases hl : b = rest.length
    · subst hl
      have hsl := hw.slot _ (BufferView.Wf.mem_slots hmm)
      simp only [BufferView.IsSlot, hu] at hsl
      rw [if_pos ⟨hsl.2, hr⟩]
    have hlt : b < rest.length := by
      rw [length_cons] at hb
      omega
    have hln : rest.length < s.additionalBuffer.length := by simp [hbf]; omega
    rw [if_neg, gcFindAdditionalBuffer_suffix hw hmm hr rest (newer ++ [used]) (by simp [hbf]) hlt]
    rintro ⟨hi, hn⟩
    refine hw.newest b i hmm rest.length i hlt ⟨hln, ?_⟩ (by simp) ?_
    · rwa [hu]
    · exact hn.trans hr.symm

/-- The buffer of an additional slot is found by its contents. -/
lemma gcFindAdditionalBuffer_eq (hw : s.view.Wf R T U [])
    (hm : .additional b i ∈ R ++ T) (hr : s.ref (.additional b i) = some n) :
    gcFindAdditionalBuffer n s s.additionalBuffer = .ok (.additional b i) := by
  have hsl := hw.slot _ (BufferView.Wf.mem_slots hm)
  exact gcFindAdditionalBuffer_suffix hw hm hr s.additionalBuffer [] rfl hsl.1

end Find

end PhpInternals.Zend.ZendGc
