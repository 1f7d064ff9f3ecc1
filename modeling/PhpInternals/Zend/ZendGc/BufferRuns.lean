import PhpInternals.Zend.ZendGc.CollectRoots

/-!
# The root buffer over whole runs
-/

namespace PhpInternals.Zend.ZendGc

open Except List Found

variable {N : Type} [DecidableEq N]

/-- Runs of the functions that change the root buffer. `gc_possible_root` and
`gc_remove_from_buffer` are called as their `ZEND_ASSERT`s demand. `gc_collect_cycles` is a function
pointer: a call of it is a run as well. The slots of freed values are given back as
`gc_remove_from_buffer` does it, and additional buffers are freed once nothing in them is linked. -/
inductive Reaches : GcState N → GcState N → Prop where
  | refl (s : GcState N) : Reaches s s
  /-- The rest of the engine changes reference counts, colours and flags. -/
  | mutate {s s₁ s₂ : GcState N} : Reaches s s₁ → s₂.view = s₁.view → Reaches s s₂
  | possibleRoot {s s₁ s₂ : GcState N} (gcCollectCycles : GcState N → Except GcError (GcState N))
      (ref : N) : Reaches s s₁ →
      ((s₁.uncleanShutdown || s₁.gcActive) = false → (s₁.info ref).address = 0) →
      (∀ z z', gcCollectCycles z = .ok z' → Reaches z z') →
      gcPossibleRoot gcCollectCycles ref s₁ = .ok s₂ → Reaches s s₂
  | removeFromBuffer {s s₁ s₂ : GcState N} (ref : N) : Reaches s s₁ →
      (s₁.info ref).address ≠ 0 → gcRemoveFromBuffer ref s₁ = .ok s₂ → Reaches s s₂
  | addGarbage {s s₁ : GcState N} (ref : N) : Reaches s s₁ → (s₁.info ref).address = 0 →
      Reaches s (gcAddGarbage ref s₁)
  | collectRoots {s s₁ : GcState N} (h : Heap N) (depth steps : ℕ) (flags : Bool)
      {r : (GcState N × Bool) × ℕ} : Reaches s s₁ →
      gcCollectRoots h depth steps s₁ flags = .ok r → Reaches s r.1.1
  | freeAdditional {s s₁ : GcState N} {used : ℕ} {rest : List ℕ} : Reaches s s₁ →
      s₁.additionalBuffer = used :: rest →
      (∀ i n, s₁.ref (.additional rest.length i) = some n →
        (s₁.info n).address ≠ gcRootBufferMaxEntries + i) →
      Reaches s { s₁ with additionalBuffer := rest }

variable {s s' : GcState N} {R T U : List RootPtr} {n : N}

/-! ## One call -/

lemma popAdd_wf (hw : s.view.Wf R T U []) (hn : (s.info n).address = 0)
    (hne : s.unused ≠ .null) (c : Color) :
    ∃ U', ({ s with unused := s.links.prev s.unused }.addRoot s.unused n
      ⟨s.unused.index, c⟩).view.Wf (s.unused :: R) T U' [] := by
  obtain ⟨i, U', rfl, hi⟩ := hw.unused_cons hne
  rw [hi]
  exact ⟨U', addRoot_wf (z := { s with unused := s.links.prev (.buf i) })
    hw.popUnused hn⟩

lemma gcPossibleRoot_wf {gcCollectCycles : GcState N → Except GcError (GcState N)}
    (hw : s.view.Wf R T U [])
    (hn : (s.uncleanShutdown || s.gcActive) = false → (s.info n).address = 0)
    (hc : ∀ z z', gcCollectCycles z = .ok z' →
      (∃ R T U, z.view.Wf R T U []) → ∃ R T U, z'.view.Wf R T U [])
    (hok : gcPossibleRoot gcCollectCycles n s = .ok s') : ∃ R T U, s'.view.Wf R T U [] := by
  rw [gcPossibleRoot] at hok
  split_ifs at hok with ho hu hf hen
  · exact ⟨R, T, U, ok.inj hok ▸ hw⟩
  · obtain ⟨U', hw'⟩ := popAdd_wf hw (hn (by simpa using ho)) hu .purple
    exact ⟨_, T, U', ok.inj hok ▸ hw'⟩
  · rw [← ok.inj hok]
    exact ⟨_, T, U, addRoot_wf (z := { s with firstUnused := s.firstUnused + 1 })
      (hw.bump hf) (hn (by simpa using ho))⟩
  · exact ⟨R, T, U, ok.inj hok ▸ hw⟩
  -- the buffer is full: a collection, and then a slot of the unused list if there is one
  obtain ⟨s1, hr, hok⟩ := bind_eq_ok_iff.mp hok
  obtain ⟨s2, hdc, hok⟩ := bind_eq_ok_iff.mp hok
  obtain ⟨R1, T1, U1, hw1⟩ := hc _ s1 hr ⟨R, T, U, hw⟩
  have hw2 : s2.view.Wf R1 T1 U1 [] := by
    rw [GcState.decRef] at hdc
    split_ifs at hdc
    exact ok.inj hdc ▸ hw1
  split_ifs at hok with _ hi hnl
  iterate 3 exact ⟨R1, T1, U1, ok.inj hok ▸ hw2⟩
  rw [not_not] at hi
  obtain ⟨U', hw'⟩ := popAdd_wf hw2 (by rw [hi]) hnl .purple
  exact ⟨_, T1, U', ok.inj hok ▸ hw'⟩

omit [DecidableEq N] in
/-- **An additional buffer without linked slots is freed.** -/
theorem freeAdditional_wf (hw : s.view.Wf R T U []) {used : ℕ} {rest : List ℕ}
    (hbf : s.additionalBuffer = used :: rest)
    (hf : ∀ i n, s.ref (.additional rest.length i) = some n →
      (s.info n).address ≠ gcRootBufferMaxEntries + i) :
    ({ s with additionalBuffer := rest } : GcState N).view.Wf R T U [] := by
  have hbf' : s.view.additionalBuffer = used :: rest := hbf
  have hnt : ∀ i, .additional rest.length i ∉ R ++ (T ++ (U ++ [])) := by
    intro i hm
    rw [append_nil, ← append_assoc] at hm
    rcases mem_append.mp hm with hm | hm
    · obtain ⟨n, hn, ha⟩ := hw.linked _ hm
      exact hf i n hn ha
    · obtain ⟨j, hj⟩ := hw.unused_buf _ hm
      cases hj
  have hus : ∀ b < rest.length,
      ({ s with additionalBuffer := rest } : GcState N).view.used b = s.view.used b := by
    intro b hb
    have hb' : b < rest.reverse.length := by simpa using hb
    simp [BufferView.used, GcState.view, hbf, getElem?_append_left hb']
  have hsl : ∀ q, ({ s with additionalBuffer := rest } : GcState N).view.IsSlot q →
      s.view.IsSlot q := by
    intro q hq
    cases q with
    | buf i => exact hq
    | additional b i =>
      obtain ⟨hb, hi⟩ := hq
      have hb : b < rest.length := hb
      exact ⟨by simp [hbf']; omega, hus b hb ▸ hi⟩
    | null | roots | toFree => exact hq
  refine { hw with
    slot := fun q hq => ?_
    buf_mem := fun i hi => hw.buf_mem i hi
    held_newest := by simp
    newest := fun b i hb b' j hlt hs hj => hw.newest b i hb b' j hlt (hsl _ hs) hj
    used_le := fun u hu => hw.used_le u (by simp [hbf', show u ∈ rest from hu]) }
  have ho := hw.slot q hq
  cases q with
  | buf i => exact ho
  | additional b i =>
    obtain ⟨hb, hi⟩ := ho
    simp only [hbf', length_cons] at hb
    have hlt : b < rest.length := by
      have hne : b ≠ rest.length := fun he => hnt i (he ▸ hq)
      omega
    exact ⟨hlt, (hus b hlt).symm ▸ hi⟩
  | null | roots | toFree => exact ho

/-! ## Runs -/

lemma Reaches.wf (hr : Reaches s s') (hw : ∃ R T U, s.view.Wf R T U []) :
    ∃ R T U, s'.view.Wf R T U [] := by
  induction hr with
  | refl s => exact hw
  | mutate _ hv ih => rw [hv]; exact ih hw
  | possibleRoot cycles ref _ hn _ hok ih ihcycles =>
    obtain ⟨R, T, U, hw1⟩ := ih hw
    exact gcPossibleRoot_wf hw1 hn ihcycles hok
  | removeFromBuffer ref _ hn hok ih =>
    obtain ⟨R, T, U, hw1⟩ := ih hw
    obtain ⟨s2, hok2, hw2⟩ := gcRemoveFromBuffer_wf hw1 hn
    obtain rfl := ok.inj (hok.symm.trans hok2)
    exact hw2
  | addGarbage ref _ hn ih =>
    obtain ⟨R, T, U, hw1⟩ := ih hw
    obtain ⟨p, U', hw2, -⟩ := gcAddGarbage_wf hw1 hn
    exact ⟨p :: R, T, U', hw2⟩
  | collectRoots h depth steps flags _ hok ih =>
    obtain ⟨R, T, U, hw1⟩ := ih hw
    exact gcCollectRoots_wf hw1 hok
  | freeAdditional _ hb hf ih =>
    obtain ⟨R, T, U, hw1⟩ := ih hw
    exact ⟨R, T, U, freeAdditional_wf hw1 hb hf⟩

/-- **The integrity of the root buffer.** In every state that a run reaches, the rings and the
unused list have no slot in common and none twice, together they have the slots of the buffer from
`1` to `first_unused`, and a value has an address if and only if exactly one slot on a ring holds
it; the address names that slot. -/
theorem rootBuffer_integrity {refcount : N → ℕ} (hr : Reaches (gcInit refcount) s) :
    ∃ R T U : List RootPtr, s.links.Ring .roots R ∧ s.links.Ring .toFree T ∧
      NullList .null s.links.prev s.unused U ∧ (R ++ (T ++ U)).Nodup ∧
      (∀ i, .buf i ∈ R ++ (T ++ U) ↔ 1 ≤ i ∧ i < s.firstUnused) ∧
      (∀ n, (s.info n).address ≠ 0 ↔ ∃! p, p ∈ R ++ T ∧ s.ref p = some n) ∧
      ∀ n p, p ∈ R ++ T → s.ref p = some n → s.named n = .ok p := by
  obtain ⟨R, T, U, hw⟩ := hr.wf ⟨[], [], [], gcInit_wf refcount⟩
  have hnp := hw.nodup
  have hsl := hw.slot
  have hb := hw.buf_mem
  rw [append_nil] at hnp hsl hb
  refine ⟨R, T, U, hw.roots, hw.toFree, hw.unused, hnp, fun i => ⟨hsl _, hb i⟩, fun n => ?_,
    fun n p hp hrf => named_eq hw hp hrf⟩
  constructor
  · intro hn
    obtain ⟨p, hp, hrf⟩ := hw.buffered n hn
    exact ⟨p, ⟨hp, hrf⟩, fun q hq => hw.ref_inj q hq.1 p hp (hq.2.trans hrf.symm)⟩
  rintro ⟨p, ⟨hp, hrf⟩, -⟩
  obtain ⟨m, hm, ha⟩ := hw.linked p hp
  obtain rfl : n = m := Option.some.inj (hrf.symm.trans hm)
  have hne := hw.address_ne_zero (BufferView.Wf.mem_slots hp)
  rw [← ha] at hne
  exact hne

/-- Two values are buffered, the first is removed, and its slot is used for a third. -/
theorem rootBuffer_integrity_reuse :
    ∃ s₁ s₂ s₃ s : GcState (Fin 3), gcPossibleRoot .ok 0 (gcInit fun _ => 1) = .ok s₁ ∧
      gcPossibleRoot .ok 1 s₁ = .ok s₂ ∧ gcRemoveFromBuffer 0 s₂ = .ok s₃ ∧
      s = gcAddGarbage 2 s₃ ∧ Reaches (gcInit fun _ => 1) s ∧
      ∃ R T U : List RootPtr, s.links.Ring .roots R ∧ s.links.Ring .toFree T ∧
        NullList .null s.links.prev s.unused U ∧ (R ++ (T ++ U)).Nodup ∧
        (∀ i, .buf i ∈ R ++ (T ++ U) ↔ 1 ≤ i ∧ i < s.firstUnused) ∧
        (∀ n, (s.info n).address ≠ 0 ↔ ∃! p, p ∈ R ++ T ∧ s.ref p = some n) ∧
        ∀ n p, p ∈ R ++ T → s.ref p = some n → s.named n = .ok p := by
  have hid : ∀ z z' : GcState (Fin 3), (ok z : Except GcError _) = .ok z' → Reaches z z' :=
    fun z z' h => ok.inj h ▸ .refl z
  have hr := Reaches.addGarbage 2 (.removeFromBuffer 0 (.possibleRoot .ok 1
    (.possibleRoot .ok 0 (.refl (gcInit fun _ : Fin 3 => 1)) (fun _ => rfl) hid rfl)
    (fun _ => rfl) hid rfl) (by decide) rfl) rfl
  exact ⟨_, _, _, _, rfl, rfl, rfl, rfl, hr, rootBuffer_integrity hr⟩

end PhpInternals.Zend.ZendGc
