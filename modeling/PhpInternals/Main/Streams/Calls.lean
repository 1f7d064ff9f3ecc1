import PhpInternals.Main.Streams.Refinement

/-!
# Buffered streams refine files accessed directly

A write that drops a buffer while `eof` is set is the exception: `_php_stream_get_line` then finds
nothing although the file goes on.
-/

namespace PhpInternals.Main.Streams

open Streams.Stream Option Nat Found List

variable {σ : Type} {F : FileOps σ} {s s' : Stream σ} {p : ℕ}

/-- A stream that can seek, whose end of line is settled and whose chunks `_php_stream_write_buffer`
can count in an `int`. -/
structure Stream.Ready (s : Stream σ) : Prop where
  chunk_pos : 0 < s.chunkSize
  chunk_lt : s.chunkSize < 2 ^ 31
  seekable : s.noSeek = false
  settled : s.detectEol = false

lemma Stream.Ready.of_setup (h : s.Ready) (hs : s'.setup = s.setup) : s'.Ready := by
  simp only [setup, Prod.mk.injEq] at hs
  obtain ⟨hcs, -, hns, hde, -⟩ := hs
  exact ⟨hcs ▸ h.chunk_pos, hcs ▸ h.chunk_lt, hns.trans h.seekable, hde.trans h.settled⟩

lemma eol_of_setup (hs : s'.setup = s.setup) : s'.eol = s.eol := by
  simp only [setup, Prod.mk.injEq] at hs
  simp [eol, hs.2.2.2.2.1]

/-- A stream between two calls. -/
structure InStep (F : FileOps σ) (s : Stream σ) : Prop where
  ready : s.Ready
  nonneg : 0 ≤ s.position
  buffered : Buffered F s s.position.toNat

/-- The file as it is accessed at `stream->position`. -/
def file (F : FileOps σ) (s : Stream σ) : File :=
  ⟨F.contents s.backend, s.position.toNat⟩

lemma InStep.intro (hs : s.Ready) (hsp : s'.setup = s.setup) (hps : s'.position = p)
    (hbf : Buffered F s' p) : InStep F s' ∧ file F s' = ⟨F.contents s'.backend, p⟩ := by
  have hp : s'.position.toNat = p := by rw [hps, Int.toNat_natCast]
  refine ⟨⟨hs.of_setup hsp, hps ▸ Int.natCast_nonneg p, hp.symm ▸ hbf⟩, ?_⟩
  rw [file, hp]

/-- Direct access to the file of a stream. -/
abbrev DirectTo (F : FileOps σ) (s : Stream σ) : File → File → Call → Outcome → Prop :=
  Direct (F.Refuses s.chunkSize) s.eol

lemma directTo_of_setup (hs : s'.setup = s.setup) : DirectTo F s' = DirectTo F s := by
  rw [DirectTo, chunkSize_of_setup hs, eol_of_setup hs]

lemma InStep.position_eq (h : InStep F s) : s.position = s.position.toNat :=
  (Int.toNat_of_nonneg h.nonneg).symm

/-! ## Reading -/

lemma streamRead_direct (h : InStep F s) (size : ℕ) :
    InStep F (streamRead F.toOps s size).2 ∧ (streamRead F.toOps s size).2.setup = s.setup ∧
      DirectTo F s (file F s) (file F (streamRead F.toOps s size).2) (.read size)
        (.bytes (streamRead F.toOps s size).1) := by
  obtain ⟨hg, hpr⟩ := readLoop_got size s _ h.buffered h.ready.chunk_pos
  unfold streamRead
  generalize readLoop F.toOps s size = r at *
  have hbf : Buffered F { r.2 with position := r.2.position + r.1.length }
      (s.position.toNat + r.1.length) :=
    { hg.buffered with }
  have hps : r.2.position + r.1.length = ((s.position.toNat + r.1.length : ℕ) : ℤ) := by
    rw [hg.position, cast_add, ← h.position_eq]
  have hs : { r.2 with position := r.2.position + r.1.length }.setup = s.setup := hg.setup
  obtain ⟨hin, hf⟩ := InStep.intro h.ready hs hps hbf
  refine ⟨hin, hs, hg.data, hg.le, hpr, ?_⟩
  rw [hf]
  simp [file, hg.contents]

lemma getLine_direct (h : InStep F s) (maxlen : Option ℕ) :
    ∃ n, ∀ rounds ≥ n, ∃ data s', getLine F.toOps rounds s maxlen = some (data, s') ∧ InStep F s' ∧
      s'.setup = s.setup ∧ DirectTo F s (file F s) (file F s') (.getLine maxlen) (.line data) := by
  refine ⟨2 * ((F.contents s.backend).length - s.position.toNat) + 2, fun rounds hr => ?_⟩
  rw [getLine]
  split_ifs with hz
  · subst hz
    refine ⟨none, s, rfl, h, rfl, ?_⟩
    simp [DirectTo, Direct, firstLine, lineLength]
  obtain ⟨r, hok, hg, hl⟩ := getLineLoop_got rounds s _ maxlen h.buffered h.ready.chunk_pos
    h.ready.settled (by split_ifs <;> omega)
  have hps : r.2.position = ((s.position.toNat + r.1.length : ℕ) : ℤ) := by
    rw [hg.position, cast_add, ← h.position_eq]
  obtain ⟨hin, hf⟩ := InStep.intro h.ready hg.setup hps hg.buffered
  rw [hok]
  refine ⟨_, r.2, rfl, hin, hg.setup, ?_, ?_⟩
  · simp only [length_eq_zero_iff, hl]
    rfl
  · rw [hf, hg.contents, hl]
    rfl

variable {b : σ}

/-! ## Writing -/

lemma Buffered.moved (h : Buffered F s p) (ha : s.avail = 0) {p' : ℕ} (q : ℤ)
    (ho : F.offset b = p') (hef : s.eof = true → (F.contents b).length ≤ p') :
    Buffered F { s with backend := b, position := q } p' := by
  refine ⟨h.le, h.inside, ?_, ?_, fun he => ho.symm ▸ hef he⟩
  · change (s.readbuf.drop s.readpos).take s.avail = ((F.contents b).drop p').take s.avail
    rw [ha, take_zero, take_zero]
  · change F.offset b = p' + s.avail
    rw [ho, ha, add_zero]

variable {ops : Ops σ} {buf : List UInt8}

lemma writeLoop_wrote {k : ℕ} (hbf : buf.length ≠ 0)
    (hw : ops.write s.backend (buf.take s.chunkSize) = (k, b)) (hk : 0 < toInt k)
    (hsk : s.noSeek = false) :
    writeLoop ops s buf =
      (k + (writeLoop ops { s with backend := b, position := s.position + k } (buf.drop k)).1,
        (writeLoop ops { s with backend := b, position := s.position + k } (buf.drop k)).2) := by
  rw [writeLoop]
  simp only [dif_neg hbf, hw, dif_pos hk]
  rw [if_neg (by simp [hsk])]

lemma writeLoop_stop {k : ℕ} (hbf : buf.length ≠ 0)
    (hw : ops.write s.backend (buf.take s.chunkSize) = (k, b)) (hk : ¬ 0 < toInt k) :
    writeLoop ops s buf = (0, { s with backend := b }) := by
  rw [writeLoop]
  simp only [dif_neg hbf, hw, dif_neg hk]

/-- **The loop of `_php_stream_write_buffer`**, with an empty read buffer. -/
theorem writeLoop_spec : ∀ (n : ℕ) (buf : List UInt8) (s : Stream σ) (p : ℕ), buf.length = n →
    Buffered F s p → s.avail = 0 → s.Ready → s.position = p →
    let r := writeLoop F.toOps s buf
    r.1 ≤ buf.length ∧
      F.contents r.2.backend = overwrite 0 (F.contents s.backend) p (buf.take r.1) ∧
      Buffered F r.2 (p + r.1) ∧ r.2.setup = s.setup ∧ r.2.position = ((p + r.1 : ℕ) : ℤ) ∧
      (r.1 < buf.length → F.Refuses s.chunkSize ⟨F.contents r.2.backend, p + r.1⟩
        (buf.drop r.1)) := by
  intro n
  induction n using Nat.strong_induction_on with
  | h n ih =>
    intro buf s p hn hbf ha hr hps
    by_cases hzr : buf.length = 0
    · rw [writeLoop, dif_pos hzr]
      exact ⟨zero_le _, by simp, hbf, rfl, by simpa using hps, fun hlt => absurd hlt (by omega)⟩
    obtain ⟨k, b', hw, hk, hcn, ho⟩ := F.write_file s.backend (buf.take s.chunkSize)
    have hp : F.offset s.backend = p := by rw [hbf.offset, ha, add_zero]
    have hkc : k ≤ s.chunkSize := hk.trans (length_take_le _ _)
    have hkb : k ≤ buf.length := hk.trans (length_take_le' _ _)
    have htl : (buf.take k).length = k := by rw [length_take, min_eq_left hkb]
    rw [take_take, min_eq_left hkc, hp] at hcn
    rw [hp] at ho
    by_cases hwr : 0 < k
    · have hne : buf.take k ≠ [] := length_pos_iff.mp (htl.symm ▸ hwr)
      have hz := hbf.moved ha (s.position + k) ho (fun he => by
        have hen := hbf.eof he
        rw [hcn, length_overwrite hne]
        omega)
      have hi := (toInt_pos_iff (hkc.trans_lt hr.chunk_lt)).mpr hwr
      rw [writeLoop_wrote hzr hw hi hr.seekable]
      clear hi
      obtain ⟨hle, hc, hb, hs, hq, hre⟩ := ih (buf.length - k) (by omega) (buf.drop k)
        { s with backend := b', position := s.position + k } (p + k) length_drop hz ha
        { hr with }
        (by simp [hps])
      generalize writeLoop F.toOps { s with backend := b', position := s.position + k }
        (buf.drop k) = rest at *
      rw [length_drop, drop_drop] at hre
      rw [length_drop] at hle
      refine ⟨?_, ?_, ?_, hs, ?_, fun hlt => ?_⟩
      · omega
      · have hap : overwrite (0 : UInt8) (overwrite 0 (F.contents s.backend) p (buf.take k))
            (p + (buf.take k).length) ((buf.drop k).take rest.1) =
            overwrite 0 (F.contents s.backend) p (buf.take k ++ (buf.drop k).take rest.1) :=
          overwrite_append
        rw [htl, ← hcn, ← take_add] at hap
        exact hc.trans hap
      · simp only [← add_assoc]
        exact hb
      · simp only [← add_assoc]
        exact hq
      · simp only [← add_assoc]
        exact hre (by omega)
    · obtain rfl : k = 0 := by omega
      rw [take_zero, overwrite_nil] at hcn
      rw [writeLoop_stop hzr hw (by decide)]
      refine ⟨zero_le _, by simpa using hcn, ?_, rfl, by simpa using hps, fun _ => ?_⟩
      swap
      · exact ⟨s.backend, hcn.symm, hp, by rw [drop_zero, hw]⟩
      exact hbf.moved ha s.position ho (fun he => by
        have hen := hbf.eof he
        rw [hcn]
        omega)

/-- The state in which a write does not lose sight of the end of the file: no buffer has to be
dropped while `eof` is set. Source: `streams.c` `_php_stream_write_buffer`. -/
def Clear (s : Stream σ) : Call → Prop
  | .write _ => s.eof = true → s.readpos = s.writepos
  | _ => True

/-- Dropping the read buffer puts the backend at the position of the stream. -/
lemma dropReadBuffer_spec (h : InStep F s) (hc : s.eof = true → s.readpos = s.writepos) :
    let z := dropReadBuffer F.toOps s
    Buffered F z s.position.toNat ∧ z.avail = 0 ∧ z.setup = s.setup ∧ z.position = s.position ∧
      F.contents z.backend = F.contents s.backend := by
  unfold dropReadBuffer
  by_cases hem : s.readpos = s.writepos
  · have ha : s.avail = 0 := by rw [avail, hem, Nat.sub_self]
    rw [if_neg (by simp [hem])]
    exact ⟨h.buffered, ha, rfl, rfl, rfl⟩
  rw [if_pos (by simp [h.ready.seekable, hem])]
  obtain ⟨r, hsk, hcn, hef, htr, hok⟩ := F.seek_file s.backend s.eof s.position .seekSet
  have hin := h.buffered.avail_le
  have hle := h.buffered.le
  have ha : s.avail = s.writepos - s.readpos := rfl
  obtain ⟨hn, ho⟩ := htr (hok rfl h.nonneg (by omega))
  have hn : r.newoffset = s.position := hn
  simp only [hsk]
  refine ⟨⟨le_rfl, zero_le _, rfl, ?_, ?_⟩, rfl, rfl, hn, hcn⟩
  · change F.offset r.backend = s.position.toNat + 0
    omega
  · intro he
    exact absurd (hc (hef he)) hem

lemma streamWrite_direct (h : InStep F s) (hcl : Clear s (.write buf)) :
    InStep F (streamWrite F.toOps s buf).2 ∧ (streamWrite F.toOps s buf).2.setup = s.setup ∧
      DirectTo F s (file F s) (file F (streamWrite F.toOps s buf).2) (.write buf)
        (.wrote (streamWrite F.toOps s buf).1) := by
  unfold streamWrite
  split_ifs with hz
  · refine ⟨h, rfl, zero_le _, ?_, fun hlt => absurd hlt (by omega)⟩
    simp [file]
  obtain ⟨hbf, ha, hs, hps, hcn⟩ := dropReadBuffer_spec h hcl
  have hr := h.ready.of_setup hs
  obtain ⟨hle, hc, hb, hse, hq, hre⟩ :=
    writeLoop_spec _ buf _ _ rfl hbf ha hr (hps.trans h.position_eq)
  obtain ⟨hin, hf⟩ := InStep.intro h.ready (hse.trans hs) hq hb
  refine ⟨hin, hse.trans hs, hle, ?_, ?_⟩
  · rw [hf, hc, hcn]
    rfl
  · rw [hf, ← chunkSize_of_setup hs]
    exact hre

/-! ## Seeking -/

lemma seekInBuffer_spec {offset : ℤ} {whence : Whence} {n : ℕ}
    (hn : seekInBuffer s offset whence = some n) :
    n ≤ s.avail ∧ ∀ cur len : ℕ, s.position = cur →
    ((cur + n : ℕ) : ℤ) = whence.target offset cur len := by
  unfold seekInBuffer at hn
  cases whence with
  | seekEnd => split_ifs at hn
  | _ =>
    simp only at hn
    split_ifs at hn with hbf hin
    have hn' := some.inj hn
    refine ⟨by omega, fun cur len hc => ?_⟩
    simp only [Whence.target]
    omega

lemma streamSeek_direct (h : InStep F s) (offset : ℤ) (whence : Whence)
    (hok : (streamSeek F.toOps s offset whence).1 = 0) :
    InStep F (streamSeek F.toOps s offset whence).2 ∧
      (streamSeek F.toOps s offset whence).2.setup = s.setup ∧
      DirectTo F s (file F s) (file F (streamSeek F.toOps s offset whence).2) (.seek offset whence)
        (.sought (streamSeek F.toOps s offset whence).1) := by
  unfold streamSeek at hok ⊢
  cases hin : seekInBuffer s offset whence with
  | some n =>
    obtain ⟨hn, htr⟩ := seekInBuffer_spec hin
    have ha := h.buffered.advance hn (s.position + n)
    have hl : (s.buffered.take n).length = n := by
      rw [length_take, length_buffered h.buffered.le h.buffered.inside, min_eq_left hn]
    have hb := ha.buffered
    rw [hl] at hb
    have hbf : Buffered F { s with
        readpos := s.readpos + n, position := s.position + n, eof := false }
        (s.position.toNat + n) := { hb with eof := nofun }
    have hs : { s with
        readpos := s.readpos + n, position := s.position + n, eof := false }.setup = s.setup := rfl
    obtain ⟨hsp, hf⟩ := InStep.intro h.ready hs (by rw [cast_add, ← h.position_eq]) hbf
    refine ⟨hsp, rfl, rfl, ?_⟩
    rw [hf]
    exact ⟨rfl, htr _ _ h.position_eq⟩
  | none =>
    have hsk : (!s.noSeek) = true := by simp [h.ready.seekable]
    simp only [hin, if_pos hsk] at hok ⊢
    -- every kind of seek leads to the place the backend is sent to
    have hse : ∃ r, seekBackend F.toOps s offset whence = r ∧
        F.contents r.backend = F.contents s.backend ∧
        (r.ret = 0 → (F.offset r.backend : ℤ) = r.newoffset ∧ r.newoffset =
          whence.target offset s.position.toNat (F.contents s.backend).length) := by
      cases whence with
      | seekCur =>
        obtain ⟨r, hr, hc, -, htr, -⟩ := F.seek_file s.backend s.eof (s.position + offset) .seekSet
        refine ⟨r, hr, hc, fun hrt => ⟨(htr hrt).2, (htr hrt).1.trans ?_⟩⟩
        simp only [Whence.target]
        rw [← h.position_eq]
      | seekSet =>
        obtain ⟨r, hr, hc, -, htr, -⟩ := F.seek_file s.backend s.eof offset .seekSet
        exact ⟨r, hr, hc, fun hrt => ⟨(htr hrt).2, (htr hrt).1⟩⟩
      | seekEnd =>
        obtain ⟨r, hr, hc, -, htr, -⟩ := F.seek_file s.backend s.eof offset .seekEnd
        exact ⟨r, hr, hc, fun hrt => ⟨(htr hrt).2, (htr hrt).1⟩⟩
    obtain ⟨r, hr, hcn, htr⟩ := hse
    simp only [hr] at hok ⊢
    obtain ⟨ho, hnw⟩ := htr hok
    simp only [hok, if_true]
    have hbf : Buffered F { s with
        readpos := 0, writepos := 0, position := r.newoffset, backend := r.backend, eof := false }
        (F.offset r.backend) :=
      ⟨le_rfl, zero_le _, rfl, rfl, nofun⟩
    have hs : { s with
        readpos := 0, writepos := 0, position := r.newoffset, backend := r.backend,
        eof := false }.setup = s.setup := rfl
    obtain ⟨hsp, hf⟩ := InStep.intro h.ready hs ho.symm hbf
    refine ⟨hsp, rfl, rfl, ?_⟩
    rw [hf]
    exact ⟨hcn, ho.trans hnw⟩

/-! ## Runs -/

/-- A call that has done what it was to do. -/
def Outcome.Success : Outcome → Prop
  | .sought ret => ret = 0
  | _ => True

/-- **One call.** It returns, and unless it is a seek that failed it acts as direct access to the
file does. -/
theorem step_direct (h : InStep F s) (call : Call) (hc : Clear s call) :
    ∃ n, ∀ rounds ≥ n, ∃ o s', step F.toOps rounds s call = some (o, s') ∧
      (o.Success → InStep F s' ∧ s'.setup = s.setup ∧
      DirectTo F s (file F s) (file F s') call o) := by
  cases call with
  | read size => exact ⟨0, fun _ _ => ⟨_, _, rfl, fun _ => streamRead_direct h size⟩⟩
  | getLine maxlen =>
    obtain ⟨n, hl⟩ := getLine_direct h maxlen
    refine ⟨n, fun rounds hr => ?_⟩
    obtain ⟨data, s', hok, hsp⟩ := hl rounds hr
    exact ⟨.line data, s', by rw [step, hok]; rfl, fun _ => hsp⟩
  | write buf => exact ⟨0, fun _ _ => ⟨_, _, rfl, fun _ => streamWrite_direct h hc⟩⟩
  | seek offset whence =>
    exact ⟨0, fun _ _ => ⟨_, _, rfl, fun hok => streamSeek_direct h offset whence hok⟩⟩

/-- The streams that a run of calls leads to, no write of which drops a buffer while `eof` is set.
-/
inductive Reaches (ops : Ops σ) (s : Stream σ) : Stream σ → Prop where
  | refl : Reaches ops s s
  | call {s₁ s₂ : Stream σ} {rounds : ℕ} {call : Call} {o : Outcome} : Reaches ops s s₁ →
      step ops rounds s₁ call = some (o, s₂) → Clear s₁ call → o.Success → Reaches ops s s₂

/-- A stream that has just been opened. -/
structure Opened (F : FileOps σ) (s : Stream σ) : Prop where
  ready : s.Ready
  readpos : s.readpos = 0
  writepos : s.writepos = 0
  eof : s.eof = false
  position : s.position = F.offset s.backend

lemma Opened.inStep (h : Opened F s) : InStep F s := by
  have hp : s.position.toNat = F.offset s.backend := by rw [h.position, Int.toNat_natCast]
  have ha : s.avail = 0 := by rw [avail, h.writepos, Nat.zero_sub]
  refine ⟨h.ready, h.position ▸ Int.natCast_nonneg _, ⟨?_, ?_, ?_, ?_, ?_⟩⟩
  · rw [h.readpos]
    exact zero_le _
  · rw [h.writepos]
    exact zero_le _
  · rw [buffered, ha, take_zero, take_zero]
  · rw [hp, ha, add_zero]
  · exact fun he => absurd (h.eof.symm.trans he) (by decide)

lemma getLineLoop_mono : ∀ {n m : ℕ} {s : Stream σ} {maxlen : Option ℕ}
    {r : List UInt8 × Stream σ}, n ≤ m → getLineLoop ops n s maxlen = some r →
    getLineLoop ops m s maxlen = some r := by
  intro n
  induction n with
  | zero => exact fun _ h => nomatch h
  | succ n ih =>
    intro m s maxlen r hnm h
    obtain ⟨m, rfl⟩ : ∃ k, m = k + 1 := ⟨m - 1, by omega⟩
    have hle : n ≤ m := by omega
    unfold getLineLoop at h ⊢
    simp only at h ⊢
    split_ifs at h ⊢ with hc
    · exact h
    · obtain ⟨r', hr', hmp⟩ := map_eq_some_iff.mp h
      rw [ih hle hr']
      exact congrArg some hmp
    · exact h
    · exact h
    · exact ih hle h

lemma step_mono {n m : ℕ} {call : Call} {r : Outcome × Stream σ} (hnm : n ≤ m)
    (h : step ops n s call = some r) : step ops m s call = some r := by
  cases call with
  | getLine maxlen =>
    simp only [step, getLine] at h ⊢
    split_ifs at h ⊢ with hz
    · exact h
    · obtain ⟨r1, hr1, hmap1⟩ := map_eq_some_iff.mp h
      obtain ⟨r2, hr2, hmap2⟩ := map_eq_some_iff.mp hr1
      rw [getLineLoop_mono hnm hr2, map_some, hmap2, map_some, hmap1]
  | _ => exact h

/-- **Along every run the stream is in step with its file.** -/
lemma Reaches.inStep (h : Reaches F.toOps s s') (hs : InStep F s) :
    InStep F s' ∧ s'.setup = s.setup := by
  induction h with
  | refl => exact ⟨hs, rfl⟩
  | call _ hsp hc hsc ih =>
    obtain ⟨hin, hel⟩ := ih
    obtain ⟨n, hn⟩ := step_direct hin _ hc
    rename_i rounds _ _ _
    obtain ⟨o', s2', hs', hdr⟩ := hn (max n rounds) (le_max_left _ _)
    obtain ⟨rfl, rfl⟩ : o' = _ ∧ s2' = _ :=
      Prod.mk.inj (some.inj (hs'.symm.trans (step_mono (le_max_right n rounds) hsp)))
    obtain ⟨hi', hel', -⟩ := hdr hsc
    exact ⟨hi', hel'.trans hel⟩

/-- **Buffered streams refine files accessed directly.** In every run of reads, lines, writes and
successful seeks on an opened stream, with chunks that an `int` counts and no write that drops a
buffer while `eof` is set, the read buffer holds the bytes of the file at `position` and the backend
stands behind them; and every further call returns, with the result and the effect on the file that
direct access at `position` has; a write that is cut short was refused by the backend. -/
theorem bufferedStream_refines_file (F : FileOps σ) {s₀ s : Stream σ} (hopen : Opened F s₀)
    (hrun : Reaches F.toOps s₀ s) :
    (∃ p : ℕ, s.position = p ∧ s.readpos ≤ s.writepos ∧ s.writepos ≤ s.readbuf.length ∧
      (s.readbuf.drop s.readpos).take (s.writepos - s.readpos) =
        ((F.contents s.backend).drop p).take (s.writepos - s.readpos) ∧
      F.offset s.backend = p + (s.writepos - s.readpos)) ∧
    ∀ call, Clear s call → ∃ n, ∀ rounds ≥ n, ∃ o s', step F.toOps rounds s call = some (o, s') ∧
      (o.Success → Direct (F.Refuses s₀.chunkSize) s₀.eol (file F s) (file F s') call o) := by
  obtain ⟨hin, hel⟩ := hrun.inStep hopen.inStep
  refine ⟨⟨s.position.toNat, hin.position_eq, hin.buffered.le, hin.buffered.inside,
    hin.buffered.data, hin.buffered.offset⟩, fun call hc => ?_⟩
  obtain ⟨n, hn⟩ := step_direct hin call hc
  refine ⟨n, fun rounds hr => ?_⟩
  obtain ⟨o, s', hsp, hdr⟩ := hn rounds hr
  refine ⟨o, s', hsp, fun hsc => ?_⟩
  change DirectTo F s₀ _ _ call o
  rw [← directTo_of_setup hel]
  exact (hdr hsc).2.2

/-! ## A backend that reports the end early -/

/-- A file whose reads set `eof` as soon as they reach the end, as `feof` on a `FILE *` and the
usual `stream_eof` of a user wrapper do. Source: `plain_wrapper.c` `php_stdiop_read`, `userspace.c`
`php_userstreamop_read`. -/
def eagerFile : FileOps (List UInt8 × ℕ) where
  read b _ n := ⟨some ((b.1.drop b.2).take n),
    decide (b.1.length ≤ b.2 + ((b.1.drop b.2).take n).length),
    (b.1, b.2 + ((b.1.drop b.2).take n).length)⟩
  write b bs := (bs.length, (overwrite 0 b.1 b.2 bs, b.2 + bs.length))
  seek b eof off whence :=
    if whence.target off b.2 b.1.length < 0 then ⟨-1, b.2, eof, b⟩
    else ⟨0, whence.target off b.2 b.1.length, eof,
      (b.1, (whence.target off b.2 b.1.length).toNat)⟩
  contents b := b.1
  offset b := b.2
  read_file b eof n := by
    refine ⟨_, _, _, rfl, length_take_le _ _, ?_, rfl, rfl, fun hn hnil => ?_, fun _ he =>
      .inr (of_decide_eq_true he)⟩
    · rw [length_take, take_eq_take_iff]
      omega
    · have hlen := congrArg length hnil
      rw [length_take, length_drop, length_nil] at hlen
      omega
  write_file b bs := ⟨bs.length, _, rfl, le_rfl, by simp, rfl⟩
  seek_file b eof off whence := by
    refine ⟨_, rfl, ?_, ?_, ?_, ?_⟩
    · split_ifs <;> rfl
    · split_ifs <;> exact id
    · split_ifs with hneg
      · exact fun h => absurd h (show (-1 : ℤ) ≠ 0 by decide)
      · exact fun _ => ⟨rfl, Int.toNat_of_nonneg (by omega)⟩
    · rintro rfl hoff -
      rw [if_neg (by simpa [Whence.target] using hoff)]

/-- A stream on it, with chunks of 16 bytes. -/
def openEager (contents : List UInt8) : Stream (List UInt8 × ℕ) :=
  ⟨(contents, 0), [], 0, 0, 0, 16, false, false, false, false, false, false⟩

lemma openEager_opened (contents : List UInt8) : Opened eagerFile (openEager contents) :=
  ⟨⟨show 0 < 16 by decide, show 16 < 2 ^ 31 by decide, rfl, rfl⟩, rfl, rfl, rfl, rfl⟩

/-- Three bytes and the rest of their line are read, and then a byte is written over the last one.
-/
theorem bufferedStream_refines_file_line :
    ∃ s₁ s₂ : Stream (List UInt8 × ℕ), Opened eagerFile (openEager [1, 2, 3, 4, 10, 6, 7]) ∧
      step eagerFile.toOps 9 (openEager [1, 2, 3, 4, 10, 6, 7]) (.read 3) =
        some (.bytes [1, 2, 3], s₁) ∧
      step eagerFile.toOps 9 s₁ (.seek 1 .seekCur) = some (.sought 0, s₂) ∧
      Reaches eagerFile.toOps (openEager [1, 2, 3, 4, 10, 6, 7]) s₂ ∧ Clear s₂ (.write [8]) ∧
      ∃ n, ∀ rounds ≥ n, ∃ o s', step eagerFile.toOps rounds s₂ (.write [8]) = some (o, s') ∧
        (o.Success → Direct (eagerFile.Refuses 16) lf (file eagerFile s₂) (file eagerFile s')
          (.write [8]) o) := by
  let s₁ := ((step eagerFile.toOps 9 (openEager [1, 2, 3, 4, 10, 6, 7]) (.read 3)).get
    (by decide +kernel)).2
  let s₂ := ((step eagerFile.toOps 9 s₁ (.seek 1 .seekCur)).get (by decide +kernel)).2
  have h₁ : step eagerFile.toOps 9 (openEager [1, 2, 3, 4, 10, 6, 7]) (.read 3) =
      some (.bytes [1, 2, 3], s₁) := by
    decide +kernel
  have h₂ : step eagerFile.toOps 9 s₁ (.seek 1 .seekCur) = some (.sought 0, s₂) := by decide +kernel
  have hr := (Reaches.refl.call h₁ trivial trivial).call h₂ trivial rfl
  have hc : Clear s₂ (.write [8]) := fun he => absurd he (by decide +kernel)
  exact ⟨_, _, openEager_opened _, h₁, h₂, hr, hc,
    (bufferedStream_refines_file eagerFile (openEager_opened _) hr).2 (.write [8]) hc⟩

/-- **A write that drops a buffer while `eof` is set hides the rest of the file.** After reading
three bytes the buffer holds the other four and `eof` is set. The write drops them and moves the
backend back, but leaves `eof`; so `_php_stream_get_line` returns `NULL` with three bytes still
ahead. -/
theorem write_under_eof_hides_line :
    ∃ s₁ s₂ s₃ : Stream (List UInt8 × ℕ), Opened eagerFile (openEager [1, 2, 3, 4, 5, 6, 7]) ∧
      step eagerFile.toOps 9 (openEager [1, 2, 3, 4, 5, 6, 7]) (.read 3) =
        some (.bytes [1, 2, 3], s₁) ∧
      step eagerFile.toOps 9 s₁ (.write [8]) = some (.wrote 1, s₂) ∧
      (∀ rounds ≥ 9, step eagerFile.toOps rounds s₂ (.getLine none) = some (.line none, s₃)) ∧
      eagerFile.contents s₂.backend = [1, 2, 3, 8, 5, 6, 7] ∧ s₂.position = 4 ∧
      ¬ Direct (eagerFile.Refuses 16) lf (file eagerFile s₂) (file eagerFile s₃) (.getLine none)
        (.line none) := by
  let s₁ := ((step eagerFile.toOps 9 (openEager [1, 2, 3, 4, 5, 6, 7]) (.read 3)).get
    (by decide +kernel)).2
  let s₂ := ((step eagerFile.toOps 9 s₁ (.write [8])).get (by decide +kernel)).2
  have h₁ : step eagerFile.toOps 9 (openEager [1, 2, 3, 4, 5, 6, 7]) (.read 3) =
      some (.bytes [1, 2, 3], s₁) := by
    decide +kernel
  have h₂ : step eagerFile.toOps 9 s₁ (.write [8]) = some (.wrote 1, s₂) := by decide +kernel
  have h₃ : step eagerFile.toOps 9 s₂ (.getLine none) = some (.line none, s₂) := by decide +kernel
  refine ⟨_, _, _, openEager_opened _, h₁, h₂, fun rounds hr => step_mono hr h₃, by decide +kernel,
    by decide +kernel, fun hdr => ?_⟩
  exact absurd hdr.1 (by decide +kernel)

/-! ## Reading to the end -/

/-- Reading until nothing comes; `next` gives the room for the round after. -/
def drainLoop (ops : Ops σ) (next : ℕ → ℕ) : ℕ → Stream σ → ℕ → Option (List UInt8 × Stream σ)
  | 0, _, _ => none
  | rounds + 1, s, room =>
    let r := streamRead ops s room
    if r.1 = [] then some r
    else (drainLoop ops next rounds r.2 (next (room - r.1.length))).map fun q => (r.1 ++ q.1, q.2)

/-- What `_php_stream_passthru` writes out of a stream that cannot be mapped. -/
def streamPassthru (ops : Ops σ) (rounds : ℕ) (s : Stream σ) :=
  drainLoop ops (fun _ => 8192) rounds s 8192

/-- `max_len - len` after a round. -/
def growRoom (left : ℕ) : ℕ := if left ≤ 2048 then left + 8192 else left

/-- `_php_stream_copy_to_mem` with `PHP_STREAM_COPY_ALL`; `stSize` is 0 where it is unknown. -/
def streamCopyToMem (ops : Ops σ) (rounds stSize : ℕ) (s : Stream σ) :
    Option (Option (List UInt8) × Stream σ) :=
  (drainLoop ops growRoom rounds s (stSize + 8192)).map fun r =>
    (if r.1 = [] then none else some r.1, r.2)

/-- The file behind its last byte. -/
def File.atEnd (f : File) : File :=
  ⟨f.contents, f.position + f.rest.length⟩

/-- With room in every round the loop stops at the end of the file only. -/
lemma drainLoop_rest {next : ℕ → ℕ} (hn : ∀ n, 0 < next n) {rounds room : ℕ} (h : InStep F s)
    (hm : 0 < room) (hr : (file F s).rest.length < rounds) : ∃ s',
    drainLoop F.toOps next rounds s room = some ((file F s).rest, s') ∧
      file F s' = (file F s).atEnd := by
  induction rounds generalizing s room with
  | zero => omega
  | succ rounds ih =>
    obtain ⟨hin, -, hd, -, hz, hf⟩ := streamRead_direct h room
    rw [drainLoop]
    generalize streamRead F.toOps s room = r at *
    by_cases he : r.1 = []
    · have hre : (file F s).rest = [] := drop_eq_nil_of_le ((hz he).resolve_left hm.ne')
      refine ⟨r.2, ?_, by simp [hf, he, hre, File.atEnd]⟩
      rw [if_pos he, hre, ← he]
    · have hre : r.1 ++ (file F r.2).rest = (file F s).rest := by
        nth_rewrite 1 [hd, hf]
        rw [File.rest, File.rest, ← drop_drop, take_append_drop]
      have hp := length_pos_iff_ne_nil.mpr he
      rw [← hre, length_append] at hr
      obtain ⟨s', hok, hf'⟩ := ih hin (hn (room - r.1.length)) (by omega)
      refine ⟨s', ?_, ?_⟩
      · rw [if_neg he, hok, ← hre]
        rfl
      · rw [hf', File.atEnd, File.atEnd, ← hre, length_append, ← Nat.add_assoc, hf]

lemma growRoom_pos (left : ℕ) : 0 < growRoom left := by
  unfold growRoom
  split_ifs <;> omega

/-- **Reading to the end.** After any run both functions get the rest of the file, however short the
reads. -/
theorem streamDrain_rest (F : FileOps σ) {s₀ s : Stream σ} (hopen : Opened F s₀)
    (hrun : Reaches F.toOps s₀ s) (stSize : ℕ) : ∃ n, ∀ rounds ≥ n, ∃ a b,
      streamPassthru F.toOps rounds s = some ((file F s).rest, a) ∧
      streamCopyToMem F.toOps rounds stSize s =
        some (if (file F s).rest = [] then none else some (file F s).rest, b) ∧
      file F a = (file F s).atEnd ∧ file F b = (file F s).atEnd := by
  have hin := (hrun.inStep hopen.inStep).1
  refine ⟨(file F s).rest.length + 1, fun rounds hr => ?_⟩
  obtain ⟨a, ha, hfa⟩ := drainLoop_rest (fun _ => succ_pos 8191) hin (succ_pos 8191) hr
  obtain ⟨b, hb, hfb⟩ := drainLoop_rest growRoom_pos hin (succ_pos (stSize + 8191)) hr
  refine ⟨a, b, ha, ?_, hfa, hfb⟩
  rw [streamCopyToMem, hb]
  rfl

/-- What is left after three bytes were read. -/
theorem streamDrain_rest_three :
    ∃ s₁ n s', step eagerFile.toOps 9 (openEager [1, 2, 3, 4, 5]) (.read 3) =
      some (.bytes [1, 2, 3], s₁) ∧ Reaches eagerFile.toOps (openEager [1, 2, 3, 4, 5]) s₁ ∧
    streamCopyToMem eagerFile.toOps n 0 s₁ = some (some [4, 5], s') := by
  let s₁ := ((step eagerFile.toOps 9 (openEager [1, 2, 3, 4, 5]) (.read 3)).get (by
    decide +kernel)).2
  have h₁ : step eagerFile.toOps 9 (openEager [1, 2, 3, 4, 5]) (.read 3) =
      some (.bytes [1, 2, 3], s₁) := by
    decide +kernel
  have hr := Reaches.refl.call h₁ trivial trivial
  obtain ⟨n, hn⟩ := streamDrain_rest eagerFile (openEager_opened [1, 2, 3, 4, 5]) hr 0
  obtain ⟨-, s', -, hc, -⟩ := hn n le_rfl
  have hf : (file eagerFile s₁).rest = [4, 5] := by decide +kernel
  rw [hf] at hc
  exact ⟨s₁, n, s', h₁, hr, hc⟩

end PhpInternals.Main.Streams
