import PhpInternals.Main.Streams.Basic

/-!
# Files, and streams that are in step with them

A backend behaves as a file with an offset of its own; a read may return fewer bytes than it was
asked for, and a write may accept fewer. The read buffer of a stream holds the bytes of the file
behind a position.
-/

namespace PhpInternals.Main.Streams

open Streams.Stream List Found

variable {σ : Type}

/-- Where a seek leads. -/
def Whence.target (offset : ℤ) (current length : ℕ) : Whence → ℤ
  | .seekSet => offset
  | .seekCur => current + offset
  | .seekEnd => length + offset

/-- A backend that behaves as a file: it has contents and an offset. A read that is asked for
something returns something unless the offset is at the end, and sets `eof` only there. Seeking to a
place in the file succeeds. -/
structure FileOps (σ : Type) extends Ops σ where
  contents : σ → List UInt8
  offset : σ → ℕ
  read_file : ∀ b eof n, ∃ bs eof' b', read b eof n = ⟨some bs, eof', b'⟩ ∧ bs.length ≤ n ∧
    bs = ((contents b).drop (offset b)).take bs.length ∧
    contents b' = contents b ∧ offset b' = offset b + bs.length ∧
    (0 < n → bs = [] → (contents b).length ≤ offset b) ∧
    (0 < n → eof' = true → eof = true ∨ (contents b).length ≤ offset b')
  write_file : ∀ b bs, ∃ k b', write b bs = (k, b') ∧ k ≤ bs.length ∧
    contents b' = overwrite 0 (contents b) (offset b) (bs.take k) ∧ offset b' = offset b + k
  seek_file : ∀ b eof off whence, ∃ r, seek b eof off whence = r ∧
    contents r.backend = contents b ∧ (r.eof = true → eof = true) ∧
    (r.ret = 0 → r.newoffset = whence.target off (offset b) (contents b).length ∧
      (offset r.backend : ℤ) = r.newoffset) ∧
    (whence = .seekSet → 0 ≤ off → off ≤ (contents b).length → r.ret = 0)

/-! ## A file accessed directly -/

/-- A file and the position at which it is accessed. -/
structure File where
  contents : List UInt8
  position : ℕ

/-- The bytes from the position on. -/
def File.rest (f : File) : List UInt8 :=
  f.contents.drop f.position

/-- The length of the first line: up to and including its end, and no more than a buffer of `maxlen`
bytes with its final `NUL` takes. -/
def lineLength (eol : UInt8) (l : List UInt8) : Option ℕ → ℕ
  | some m => min (l.idxOf eol + 1) (m - 1)
  | none => l.idxOf eol + 1

/-- The first line. -/
def firstLine (eol : UInt8) (maxlen : Option ℕ) (l : List UInt8) : List UInt8 :=
  l.take (lineLength eol l maxlen)

/-- The backend can refuse the next piece of what is to be written to the file as it is: it accepts
none of its bytes. -/
def FileOps.Refuses (F : FileOps σ) (chunkSize : ℕ) (f : File) (buf : List UInt8) : Prop :=
  ∃ b, F.contents b = f.contents ∧ F.offset b = f.position ∧ (F.write b (buf.take chunkSize)).1 = 0

/-- **Direct access.** A read returns bytes from the position on, some of them if there are any; a
line is the whole line; a write puts the bytes it accepts at the position, all of them unless what
comes next is refused; a seek goes where it says. -/
def Direct (refuses : File → List UInt8 → Prop) (eol : UInt8) (f f' : File) : Call → Outcome → Prop
  | .read size, .bytes data =>
    data = f.rest.take data.length ∧ data.length ≤ size ∧
    (data = [] → size = 0 ∨ f.contents.length ≤ f.position) ∧
    f' = ⟨f.contents, f.position + data.length⟩
  | .getLine maxlen, .line data =>
    data = (if firstLine eol maxlen f.rest = [] then none
      else some (firstLine eol maxlen f.rest)) ∧
    f' = ⟨f.contents, f.position + (firstLine eol maxlen f.rest).length⟩
  | .write buf, .wrote n =>
    n ≤ buf.length ∧ f' = ⟨overwrite 0 f.contents f.position (buf.take n), f.position + n⟩ ∧
    (n < buf.length → refuses f' (buf.drop n))
  | .seek offset whence, .sought ret =>
    ret = 0 ∧ f'.contents = f.contents ∧
    (f'.position : ℤ) = whence.target offset f.position f.contents.length
  | _, _ => False

/-! ## The stream in step with its file -/

/-- The settings of a stream, which none of the calls changes. -/
def Stream.setup (s : Stream σ) : ℕ × Bool × Bool × Bool × Bool × Bool :=
  (s.chunkSize, s.noBuffer, s.noSeek, s.detectEol, s.eolMac, s.greedy)

variable (F : FileOps σ)

/-- The read buffer holds the bytes of the file from `p` on, and the backend stands behind them.
Once `eof` is set the backend is at the end of the file. -/
structure Buffered (s : Stream σ) (p : ℕ) : Prop where
  le : s.readpos ≤ s.writepos
  inside : s.writepos ≤ s.readbuf.length
  data : s.buffered = ((F.contents s.backend).drop p).take s.avail
  offset : F.offset s.backend = p + s.avail
  eof : s.eof = true → (F.contents s.backend).length ≤ F.offset s.backend

/-- What is left behind by reading `r.1` at `p`, at most `n` bytes, with `position` at `q`. -/
structure Got (s : Stream σ) (p n : ℕ) (q : ℤ) (r : List UInt8 × Stream σ) : Prop where
  data : r.1 = ((F.contents s.backend).drop p).take r.1.length
  le : r.1.length ≤ n
  contents : F.contents r.2.backend = F.contents s.backend
  buffered : Buffered F r.2 (p + r.1.length)
  setup : r.2.setup = s.setup
  position : r.2.position = q

variable {F} {s : Stream σ} {p n m : ℕ} {q q' : ℤ} {r r' : List UInt8 × Stream σ}

lemma length_buffered (hle : s.readpos ≤ s.writepos) (hin : s.writepos ≤ s.readbuf.length) :
    s.buffered.length = s.avail := by
  simp only [buffered, avail, length_take, length_drop]
  omega

lemma Buffered.avail_le (h : Buffered F s p) : s.avail ≤ (F.contents s.backend).length - p := by
  have hl := length_buffered h.le h.inside
  rw [h.data, length_take, length_drop] at hl
  omega

lemma Buffered.got_nil (h : Buffered F s p) : Got F s p 0 s.position ([], s) :=
  ⟨rfl, le_rfl, rfl, h, rfl, rfl⟩

lemma Got.mono (h : Got F s p n q r) (hnm : n ≤ m) : Got F s p m q r :=
  { h with le := h.le.trans hnm }

lemma Got.trans (h : Got F s p n q r) (h' : Got F r.2 (p + r.1.length) m q' r') :
    Got F s p (n + m) q' (r.1 ++ r'.1, r'.2) where
  data := by
    have h2 := h'.data
    rw [h.contents] at h2
    simp only [length_append]
    rw [take_add, drop_drop, ← h.data, ← h2]
  le := by
    rw [length_append]
    exact Nat.add_le_add h.le h'.le
  contents := h'.contents.trans h.contents
  buffered := by
    simpa only [length_append, Nat.add_assoc] using h'.buffered
  setup := h'.setup.trans h.setup
  position := h'.position

lemma Buffered.advance (h : Buffered F s p) (hn : n ≤ s.avail) (q : ℤ) :
    Got F s p n q (s.buffered.take n, { s with position := q, readpos := s.readpos + n }) := by
  have hl : (s.buffered.take n).length = n := by
    rw [length_take, length_buffered h.le h.inside, min_eq_left hn]
  have ha : s.avail = s.writepos - s.readpos := rfl
  have hle := h.le
  refine ⟨?_, hl.le, rfl, ?_, rfl, rfl⟩
  · rw [hl, h.data, take_take, min_eq_left hn]
  rw [hl]
  refine ⟨?_, h.inside, ?_, ?_, h.eof⟩
  · simp only
    omega
  · have hdt := congrArg (drop n) h.data
    simp only [buffered, drop_take, drop_drop] at hdt
    simp only [buffered, avail, Nat.sub_add_eq]
    exact hdt
  · have ho := h.offset
    simp only [avail] at ho hn ⊢
    omega

end PhpInternals.Main.Streams
