import PhpInternals.Main.Streams.File

/-!
# The loops keep a stream in step with its file
-/

namespace PhpInternals.Main.Streams

open Streams.Stream Option Nat Found List

variable {σ : Type} {F : FileOps σ} {s : Stream σ} {p : ℕ}

/-! ## Filling the buffer -/

/-- Moving and growing the buffer leave what it holds, and make room for a chunk. -/
lemma reduce_grow_spec (hle : s.readpos ≤ s.writepos) (hin : s.writepos ≤ s.readbuf.length) :
    let s' := s.reduce.grow
    s'.readpos ≤ s'.writepos ∧ s'.writepos ≤ s'.readbuf.length ∧ s'.avail = s.avail ∧
      s'.buffered = s.buffered ∧ s.chunkSize ≤ s'.readbuf.length - s'.writepos ∧
      s'.backend = s.backend ∧ s'.eof = s.eof ∧ s'.setup = s.setup ∧ s'.position = s.position := by
  have hr : s.reduce.readpos ≤ s.reduce.writepos ∧ s.reduce.writepos ≤ s.reduce.readbuf.length ∧
      s.reduce.avail = s.avail ∧ s.reduce.buffered = s.buffered ∧ s.reduce.backend = s.backend ∧
      s.reduce.eof = s.eof ∧ s.reduce.setup = s.setup ∧ s.reduce.position = s.position ∧
      s.reduce.chunkSize = s.chunkSize := by
    unfold reduce
    split_ifs
    · refine ⟨zero_le _, ?_, rfl, ?_, rfl, rfl, rfl, rfl, rfl⟩
      · simp only [length_append, length_drop]
        omega
      · simp only [buffered, avail]
        exact take_append_of_le_length (by rw [length_drop]; omega)
    · exact ⟨hle, hin, rfl, rfl, rfl, rfl, rfl, rfl, rfl⟩
  obtain ⟨hl', hi', ha, hbf, hb, hef, hs, hps, hc⟩ := hr
  unfold grow
  split_ifs with hrm
  · refine ⟨hl', ?_, ha, ?_, ?_, hb, hef, hs, hps⟩
    · simp only [length_append]
      omega
    · rw [← hbf]
      simp only [buffered, avail]
      rw [drop_append_of_le_length (hl'.trans hi')]
      exact take_append_of_le_length (by rw [length_drop]; omega)
    · simp only [length_append, length_replicate]
      omega
  · exact ⟨hl', hi', ha, hbf, by omega, hb, hef, hs, hps⟩

/-- **Filling the buffer** keeps the stream in step, and leaves an empty buffer empty only at the
end of the file. -/
theorem fillReadBuffer_spec (h : Buffered F s p) (hc : 0 < s.chunkSize) (size : ℕ) :
    Got F s p 0 s.position ([], fillReadBuffer F.toOps s size) ∧
      ((fillReadBuffer F.toOps s size).avail = 0 → size = 0 ∨
        (F.contents s.backend).length ≤ p) := by
  unfold fillReadBuffer
  split_ifs with hf
  · obtain ⟨hle, hin, ha, hbf, hrm, hb, hef, hs, hps⟩ := reduce_grow_spec h.le h.inside
    generalize s.reduce.grow = z at *
    obtain ⟨bs, eof', b', hr, hbs, hdt, hcn, hof, hpr, hef'⟩ :=
      F.read_file z.backend z.eof (z.readbuf.length - z.writepos)
    rw [hb] at hcn hdt hof hpr hef'
    simp only [hr]
    have hz : z.avail = z.writepos - z.readpos := rfl
    have hn : z.writepos + bs.length - z.readpos = s.avail + bs.length := by omega
    constructor
    · refine ⟨rfl, le_rfl, hcn, ⟨?_, ?_, ?_, ?_, ?_⟩, hs, hps⟩
      · exact hle.trans (le_add_right _ _)
      · rcases eq_or_ne bs [] with rfl | hne
        · simpa using hin
        · simp only [length_overwrite hne]
          omega
      · -- the new bytes continue those that were there
        simp only [buffered, avail]
        rw [take_drop_overwrite hle hin, hcn, hn, take_add, drop_drop]
        rw [length_nil, add_zero, ← h.offset, ← hdt, ← h.data, ← hbf]
        rfl
      · simp only [avail, length_nil]
        rw [hof, h.offset]
        omega
      intro he
      simp only at he ⊢
      rw [hcn]
      rcases hef' (by omega) he with he | hen
      · have := h.eof (hef ▸ he)
        omega
      · exact hen
    · intro hzr
      have hzr : z.writepos + bs.length - z.readpos = 0 := hzr
      have hnl : bs = [] := eq_nil_of_length_eq_zero (by omega)
      have hen := hpr (by omega) hnl
      have ho := h.offset
      omega
  · exact ⟨h.got_nil, fun hzr => .inl (by omega)⟩

/-! ## Reading -/

lemma chunkSize_of_setup {s s' : Stream σ} (h : s'.setup = s.setup) : s'.chunkSize = s.chunkSize :=
  congrArg Prod.fst h

lemma takeBuffered_got (h : Buffered F s p) (size : ℕ) :
    Got F s p (min s.avail size) s.position (s.takeBuffered size) ∧
      (s.takeBuffered size).1.length = min s.avail size := by
  have hg := h.advance (min_le_left s.avail size) s.position
  have hb : s.buffered.take (min s.avail size) = s.buffered.take size := by
    rw [← length_buffered h.le h.inside, take_eq_take_iff]
    omega
  have hl : (s.takeBuffered size).1.length = min s.avail size := by
    rw [← length_buffered h.le h.inside]
    simp only [takeBuffered, length_take]
    exact min_comm _ _
  rw [hb] at hg
  exact ⟨hg, hl⟩

lemma readMore_got (h : Buffered F s p) (hem : s.avail = 0) (hc : 0 < s.chunkSize)
    {size : ℕ} (hsz : 0 < size) :
    Got F s p size s.position (readMore F.toOps s size) ∧
      ((readMore F.toOps s size).1 = [] → (F.contents s.backend).length ≤ p) := by
  unfold readMore
  split_ifs
  · obtain ⟨bs, eof', b', hr, hbs, hdt, hcn, ho, hpr, hef'⟩ := F.read_file s.backend s.eof size
    have hp : F.offset s.backend = p := by rw [h.offset, hem, add_zero]
    simp only [hr, getD_some]
    rw [hp] at hdt ho hpr
    refine ⟨⟨hdt, hbs, hcn, ⟨h.le, h.inside, ?_, ?_, ?_⟩, rfl, rfl⟩, hpr hsz⟩
    · have hb := h.data
      simp only [buffered, avail] at hem hb ⊢
      rw [hem, take_zero, take_zero]
    · simp only [avail] at hem ⊢
      rw [ho, hem, add_zero]
    intro he
    simp only at he ⊢
    rw [hcn]
    rcases hef' hsz he with he | hen
    · have := h.eof he
      omega
    · exact hen
  · obtain ⟨hf, hpr⟩ := fillReadBuffer_spec h hc size
    obtain ⟨hg, hl⟩ := takeBuffered_got hf.buffered size
    have htr := hf.trans hg
    rw [zero_add, hf.position] at htr
    refine ⟨htr.mono (min_le_right _ _), fun hn => ?_⟩
    rw [hn, length_nil] at hl
    rcases hpr (by simp only at hl; omega) with hz | hen
    · omega
    · exact hen

/-- **The loop of `_php_stream_read`.** The induction is on the number of bytes still wanted. -/
theorem readLoop_got : ∀ (size : ℕ) (s : Stream σ) (p : ℕ), Buffered F s p → 0 < s.chunkSize →
    Got F s p size s.position (readLoop F.toOps s size) ∧
      ((readLoop F.toOps s size).1 = [] → size = 0 ∨ (F.contents s.backend).length ≤ p) := by
  intro size
  induction size using Nat.strong_induction_on with
  | h size ih =>
    intro s p h hc
    rw [readLoop]
    split_ifs with hz
    · exact ⟨h.got_nil.mono (zero_le _), fun _ => .inl hz⟩
    obtain ⟨hgo, hl⟩ := takeBuffered_got h size
    by_cases hdn : size - min s.avail size = 0
    · simp only [if_pos hdn]
      refine ⟨hgo.mono (min_le_right _ _), fun hnl => ?_⟩
      rw [hnl, length_nil] at hl
      omega
    simp only [if_neg hdn]
    have hem : (s.takeBuffered size).2.avail = 0 := by
      simp only [takeBuffered, avail] at hdn ⊢
      omega
    have hch := chunkSize_of_setup hgo.setup
    obtain ⟨hm, hpr⟩ := readMore_got hgo.buffered hem (hch ▸ hc) (pos_of_ne_zero hdn)
    have hb := hgo.trans hm
    have hsm : min s.avail size + (size - min s.avail size) ≤ size := by omega
    generalize readMore F.toOps (s.takeBuffered size).2 (size - min s.avail size) = more at *
    split_ifs with hn hg
    · have hnl : more.1 = [] := eq_nil_of_length_eq_zero hn
      rw [hnl, append_nil] at hb
      refine ⟨hb.mono hsm, fun hf => .inr ?_⟩
      have hen := hpr hnl
      rwa [hf, length_nil] at hen
    · have hle := hm.le
      obtain ⟨hr, -⟩ := ih (size - min s.avail size - more.1.length) (by omega) more.2 _
        hb.buffered ((chunkSize_of_setup hb.setup) ▸ hc)
      have ha := hb.trans hr
      have hps : more.2.position = s.position := hb.position
      rw [hps] at ha
      refine ⟨{ ha with le := ?_ }, fun hnl => ?_⟩
      · have h1 := hr.le
        simp only [length_append] at h1 ⊢
        omega
      · simp only [append_eq_nil_iff] at hnl
        exact absurd hn (by rw [hnl.1.2]; simp)
    · refine ⟨hb.mono hsm, fun hnl => ?_⟩
      simp only [append_eq_nil_iff] at hnl
      exact absurd hn (by rw [hnl.2]; simp)

/-! ## Lines -/

/-- The end of line that is looked for. Source: `streams.c` `php_stream_locate_eol`. -/
def Stream.eol (s : Stream σ) : UInt8 :=
  if s.eolMac then cr else lf

lemma locateEol_eq (h : s.detectEol = false) : locateEol s = (s.buffered.idxOf? s.eol, s) := by
  unfold locateEol eol
  cases s.eolMac <;> simp [h]

variable {t l : List UInt8} {eol : UInt8}

lemma lineLength_of_mem (hm : eol ∈ l) (maxlen : Option ℕ) :
    lineLength eol (l ++ t) maxlen = lineLength eol l maxlen := by
  cases maxlen <;> simp only [lineLength, idxOf_append_of_mem hm]

lemma firstLine_append (hmm : eol ∉ l) {maxlen : Option ℕ}
    (hr : ∀ m, maxlen = some m → l.length < m - 1) :
    firstLine eol maxlen (l ++ t) = l ++ firstLine eol (maxlen.map (· - l.length)) t := by
  have hln : lineLength eol (l ++ t) maxlen =
      l.length + lineLength eol t (maxlen.map (· - l.length)) := by
    cases maxlen with
    | none => simp only [lineLength, map_none, idxOf_append_of_notMem hmm]; omega
    | some m =>
      have := hr m rfl
      simp only [lineLength, map_some, idxOf_append_of_notMem hmm]
      omega
  rw [firstLine, hln, take_length_add_append, firstLine]

/-- **One round over a buffer that is not empty.** It copies the line as far as the buffer has it,
and goes on exactly when the line does. -/
theorem cpysz_spec {view : List UInt8} (eol : UInt8) (maxlen : Option ℕ) (hv : view ≠ []) :
    let n := cpysz view.length (view.idxOf? eol) maxlen
    n.1 ≤ view.length ∧ (n.2 = true → view.take n.1 = firstLine eol maxlen (view ++ t)) ∧
      (n.2 = false → n.1 = view.length ∧ eol ∉ view ∧
        ∀ m, maxlen = some m → view.length < m - 1) := by
  have hps := length_pos_iff.mpr hv
  cases hid : view.idxOf? eol with
  | none =>
    have hmm : eol ∉ view := idxOf?_eq_none_iff.mp hid
    cases maxlen with
    | none => simp [cpysz, hmm]
    | some m =>
      simp only [cpysz]
      split_ifs with hm
      · refine ⟨hm, fun _ => ?_, by simp⟩
        have hln : lineLength eol (view ++ t) (some m) = m - 1 := by
          simp only [lineLength, idxOf_append_of_notMem hmm]
          omega
        rw [firstLine, hln, take_append_of_le_length hm]
      · refine ⟨le_rfl, by simp, fun _ => ⟨rfl, hmm, fun m' hm' => ?_⟩⟩
        cases hm'
        omega
  | some i =>
    have hmm : eol ∈ view := by
      by_contra hnt
      rw [idxOf?_eq_none_iff.mpr hnt] at hid
      cases hid
    have hi : view.idxOf eol = i := by
      rw [idxOf_eq_getD_idxOf?, hid, getD_some]
    have hlt : i < view.length := hi ▸ idxOf_lt_length_of_mem hmm
    have hl : ∀ k ≤ view.length, k = lineLength eol view maxlen →
        view.take k = firstLine eol maxlen (view ++ t) := by
      intro k hk hln
      rw [firstLine, lineLength_of_mem hmm, ← hln, take_append_of_le_length hk]
    cases maxlen with
    | none =>
      exact ⟨hlt, fun _ => hl _ hlt (by simp [lineLength, hi, cpysz]), by simp [cpysz]⟩
    | some m =>
      simp only [cpysz]
      split_ifs with hm
      all_goals
        refine ⟨by simp only; omega, fun _ => hl _ (by simp only; omega) ?_, by simp⟩
        simp only [lineLength]
        omega

lemma firstLine_nil (eol : UInt8) (maxlen : Option ℕ) : firstLine eol maxlen [] = [] := take_nil

/-- The bytes from position `p` on up to the end of a line have been returned. -/
structure GotLine (F : FileOps σ) (s : Stream σ) (p : ℕ) (maxlen : Option ℕ)
    (r : List UInt8 × Stream σ) : Prop where
  got : Got F s p r.1.length (s.position + r.1.length) r
  line : r.1 = firstLine s.eol maxlen ((F.contents s.backend).drop p)

lemma firstLine_of_end {p : ℕ} (maxlen : Option ℕ) (hen : (F.contents s.backend).length ≤ p) :
    ([] : List UInt8) = firstLine s.eol maxlen ((F.contents s.backend).drop p) := by
  rw [drop_eq_nil_of_le hen, firstLine_nil]

section copying

variable {p : ℕ} {maxlen : Option ℕ} {n : ℕ × Bool} {r : List UInt8 × Stream σ}
  (h : Buffered F s p) (hle : n.1 ≤ s.avail)
include h

lemma Buffered.drop_eq : (F.contents s.backend).drop p =
    s.buffered ++ (F.contents s.backend).drop (p + s.avail) := by
  rw [h.data, ← drop_drop, take_append_drop]

include hle

lemma Buffered.length_copied : (s.buffered.take n.1).length = n.1 := by
  rw [length_take, length_buffered h.le h.inside, min_eq_left hle]

/-- The line ends among the bytes that are copied. -/
lemma Buffered.gotLine_copied
    (hdn : s.buffered.take n.1 = firstLine s.eol maxlen ((F.contents s.backend).drop p)) :
    GotLine F s p maxlen (s.buffered.take n.1, s.copyOut n.1) := by
  refine ⟨?_, hdn⟩
  simp only [h.length_copied hle]
  exact h.advance hle (s.position + n.1)

/-- All that is buffered is copied, and the rest of the line follows. -/
lemma Buffered.gotLine_append (hal : n.1 = s.avail) (hmm : s.eol ∉ s.buffered)
    (hrm : ∀ m, maxlen = some m → s.avail < m - 1)
    (hr : GotLine F (s.copyOut n.1) (p + n.1) (maxlen.map (· - n.1)) r) :
    GotLine F s p maxlen (s.buffered.take n.1 ++ r.1, r.2) := by
  have hcp := h.length_copied hle
  have hln := length_buffered h.le h.inside
  constructor
  · have had := h.advance hle (s.position + n.1)
    have hg : Got F (s.copyOut n.1) (p + (s.buffered.take n.1).length) r.1.length
        (s.position + n.1 + r.1.length) r := by
      rw [hcp]
      exact hr.got
    have hsu : (s.buffered.take n.1 ++ r.1).length = n.1 + r.1.length := by
      rw [length_append, hcp]
    simp only [hsu, cast_add, ← add_assoc]
    exact had.trans hg
  · have htk : s.buffered.take n.1 = s.buffered := by
      rw [hal, ← hln, take_length]
    simp only [htk]
    rw [h.drop_eq, firstLine_append hmm (fun m hm => hln ▸ hrm m hm), hln, ← hal, hr.line]
    rfl

end copying

/-- The buffer is filled first. -/
lemma GotLine.of_filled {p : ℕ} {maxlen : Option ℕ} {z : Stream σ} {r : List UInt8 × Stream σ}
    (hf : Got F s p 0 s.position ([], z)) (hr : GotLine F z p maxlen r) :
    GotLine F s p maxlen r := by
  have hps := hf.position
  have hcn := hf.contents
  have hs := hf.setup
  simp only [setup, Prod.mk.injEq] at hs
  constructor
  · have htr := hf.trans hr.got
    rw [hps] at htr
    simpa using htr
  · have hsm : z.eol = s.eol := by simp [eol, hs.2.2.2.2.1]
    rw [hr.line, hcn, hsm]

/-- The buffer stays empty: the file has ended, or nothing was asked for because the caller's buffer
has room for the final NUL only. -/
lemma gotLine_nil {p : ℕ} {maxlen : Option ℕ} {z : Stream σ} (hch : 0 < s.chunkSize)
    (hf : Got F s p 0 s.position ([], z))
    (hen : lineChunk s maxlen = 0 ∨ (F.contents s.backend).length ≤ p) :
    GotLine F s p maxlen ([], z) := by
  refine ⟨by simpa using hf, ?_⟩
  rcases hen with hzr | hen
  · cases maxlen with
    | none => exact absurd hzr hch.ne'
    | some m =>
      have hm : m - 1 = 0 := by
        simp only [lineChunk] at hzr
        omega
      simp [firstLine, lineLength, hm]
  · exact firstLine_of_end maxlen hen

/-- **The loop of `_php_stream_get_line`.** Every second round at least copies something, so the
rest of the file bounds the number of rounds. -/
theorem getLineLoop_got : ∀ (rounds : ℕ) (s : Stream σ) (p : ℕ) (maxlen : Option ℕ),
    Buffered F s p → 0 < s.chunkSize → s.detectEol = false →
    2 * ((F.contents s.backend).length - p) + (if s.avail = 0 then 1 else 0) < rounds →
    ∃ r, getLineLoop F.toOps rounds s maxlen = some r ∧ GotLine F s p maxlen r := by
  intro rounds
  induction rounds with
  | zero => exact fun _ _ _ _ _ _ h => absurd h (not_lt_zero _)
  | succ rounds ih =>
    intro s p maxlen h hch hel hr
    unfold getLineLoop
    by_cases ha : 0 < s.avail
    · simp only [locateEol_eq hel]
      have hln := length_buffered h.le h.inside
      have hsc := cpysz_spec (t := (F.contents s.backend).drop (p + s.avail)) s.eol maxlen
        (length_pos_iff.mp (hln ▸ ha))
      rw [hln, ← h.drop_eq] at hsc
      obtain ⟨hle, hdn, hmr⟩ := hsc
      generalize cpysz s.avail (s.buffered.idxOf? s.eol) maxlen = n at hle hdn hmr ⊢
      split_ifs with hn
      · exact ⟨_, rfl, h.gotLine_copied hle (hdn hn)⟩
      obtain ⟨hal, hmm, hrm⟩ := hmr (by simpa using hn)
      have hbf := (h.advance hle (s.position + n.1)).buffered
      rw [h.length_copied hle] at hbf
      obtain ⟨r, hok, hg⟩ := ih (s.copyOut n.1) (p + n.1) (maxlen.map (· - n.1)) hbf hch hel (by
        have hl' := h.avail_le
        have hc : (s.copyOut n.1).backend = s.backend := rfl
        rw [hc]
        split_ifs <;> omega)
      rw [hok]
      exact ⟨_, rfl, h.gotLine_append hle hal hmm hrm hg⟩
    split_ifs with hen
    · refine ⟨_, rfl, by simpa using h.got_nil, firstLine_of_end maxlen ?_⟩
      have := h.eof hen
      have := h.offset
      omega
    obtain ⟨hf, hpr⟩ := fillReadBuffer_spec h hch (lineChunk s maxlen)
    by_cases hnn : (fillReadBuffer F.toOps s (lineChunk s maxlen)).avail = 0
    · simp only [if_pos hnn]
      exact ⟨_, rfl, gotLine_nil hch hf (hpr hnn)⟩
    simp only [if_neg hnn]
    have hcn := hf.contents
    have hs := hf.setup
    have hbf := hf.buffered
    generalize fillReadBuffer F.toOps s (lineChunk s maxlen) = z at hf hnn hcn hs hbf ⊢
    simp only [setup, Prod.mk.injEq] at hs
    obtain ⟨r, hok, hg⟩ := ih z p maxlen hbf (hs.1 ▸ hch) (hs.2.2.2.1.trans hel) (by
      rw [hcn, if_neg hnn]
      rw [if_pos (by omega)] at hr
      omega)
    exact ⟨r, hok, hg.of_filled hf⟩

end PhpInternals.Main.Streams
