import PhpInternals.Found.Overwrite

/-!
# Buffered streams

The functions of `main/streams/streams.c` that read, write and seek on a stream without filters.
-/

namespace PhpInternals.Main.Streams

open Found

/-- The third argument of a seek. -/
inductive Whence where
  | seekSet
  | seekCur
  | seekEnd
  deriving DecidableEq

/-- What `ops->read` does: the bytes, or nothing for `(size_t)-1`, and `stream->eof` after it.
Source: `php_streams.h` `php_stream_ops`. -/
structure ReadResult (σ : Type) where
  data : Option (List UInt8)
  eof : Bool
  backend : σ

/-- What `ops->seek` does: its result, `*newoffset`, and `stream->eof` after it. Source:
`php_streams.h` `php_stream_ops`. -/
structure SeekResult (σ : Type) where
  ret : ℤ
  newoffset : ℤ
  eof : Bool
  backend : σ

/-- The operations of a backend with `stream->abstract` in `σ`. They get the stream and may change
its `eof`. Source: `php_streams.h` `php_stream_ops`. -/
structure Ops (σ : Type) where
  read : σ → Bool → ℕ → ReadResult σ
  write : σ → List UInt8 → ℕ × σ
  seek : σ → Bool → ℤ → Whence → SeekResult σ

/-- A stream. `readbuf` has `readbuflen` bytes, none of them while it is `NULL`; `greedy` says that
the stream belongs to the plain files wrapper, `php://memory` or `php://temp`. Source:
`php_streams.h` `struct _php_stream`. -/
structure Stream (σ : Type) where
  backend : σ
  readbuf : List UInt8
  readpos : ℕ
  writepos : ℕ
  position : ℤ
  chunkSize : ℕ
  eof : Bool
  noBuffer : Bool
  noSeek : Bool
  detectEol : Bool
  eolMac : Bool
  greedy : Bool
  deriving DecidableEq

variable {σ : Type} (ops : Ops σ)

/-- The number of buffered bytes. Source: `STREAM_BUFFERED_AMOUNT`. -/
def Stream.avail (s : Stream σ) : ℕ :=
  s.writepos - s.readpos

/-- The bytes `readbuf[readpos..writepos)`. -/
def Stream.buffered (s : Stream σ) : List UInt8 :=
  (s.readbuf.drop s.readpos).take s.avail

/-! ## Reading -/

/-- The buffer moved to the front when less than a chunk is left behind it: `memmove` copies
`readbuflen - readpos` bytes and leaves the rest of the buffer. Source:
`_php_stream_fill_read_buffer`. -/
def Stream.reduce (s : Stream σ) : Stream σ :=
  if s.readbuf.length - s.writepos < s.chunkSize then
    { s with
      readbuf := s.readbuf.drop s.readpos ++ s.readbuf.drop (s.readbuf.length - s.readpos)
      writepos := s.writepos - s.readpos
      readpos := 0 }
  else s

/-- The buffer grown by a chunk when there is still too little room. Source:
`_php_stream_fill_read_buffer`. -/
def Stream.grow (s : Stream σ) : Stream σ :=
  if s.readbuf.length - s.writepos < s.chunkSize then
    { s with readbuf := s.readbuf ++ List.replicate s.chunkSize 0 }
  else s

/-- One read of the backend into the buffer, if it holds fewer than `size` bytes. Source:
`_php_stream_fill_read_buffer`. -/
def fillReadBuffer (s : Stream σ) (size : ℕ) : Stream σ :=
  if s.avail < size then
    let s := s.reduce.grow
    let r := ops.read s.backend s.eof (s.readbuf.length - s.writepos)
    match r.data with
    | some justread =>
      { s with
        readbuf := overwrite 0 s.readbuf s.writepos justread
        writepos := s.writepos + justread.length
        eof := r.eof
        backend := r.backend }
    | none => { s with eof := r.eof, backend := r.backend }
  else s

/-- At most `size` bytes of the buffer are handed out. Source: `_php_stream_read`. -/
def Stream.takeBuffered (s : Stream σ) (size : ℕ) : List UInt8 × Stream σ :=
  (s.buffered.take size, { s with readpos := s.readpos + min s.avail size })

/-- What one round of the loop gets beyond the buffer: directly from the backend, or through the
buffer. An error of the backend gives nothing. Source: `_php_stream_read`. -/
def readMore (s : Stream σ) (size : ℕ) : List UInt8 × Stream σ :=
  if s.noBuffer || s.chunkSize == 1 then
    let r := ops.read s.backend s.eof size
    (r.data.getD [], { s with eof := r.eof, backend := r.backend })
  else (fillReadBuffer ops s size).takeBuffered size

/-- The loop of `_php_stream_read`: the bytes that are read; `position` is left to the caller. -/
def readLoop (s : Stream σ) (size : ℕ) : List UInt8 × Stream σ :=
  if size = 0 then ([], s)
  else
    let first := s.takeBuffered size
    let size₁ := size - min s.avail size
    if size₁ = 0 then first
    else
      let more := readMore ops first.2 size₁
      if more.1.length = 0 then (first.1, more.2)
      -- "avoid greedy read" of anything but plain files and memory
      else if more.2.greedy then
        let rest := readLoop more.2 (size₁ - more.1.length)
        (first.1 ++ more.1 ++ rest.1, rest.2)
      else (first.1 ++ more.1, more.2)
  termination_by size
  decreasing_by
    simp +zetaDelta only at *
    omega

/-- `_php_stream_read`. -/
def streamRead (s : Stream σ) (size : ℕ) : List UInt8 × Stream σ :=
  let r := readLoop ops s size
  (r.1, { r.2 with position := r.2.position + r.1.length })

/-! ## Lines -/

/-- `php_stream_locate_eol`. -/
def cr : UInt8 := 13

/-- `php_stream_locate_eol`. -/
def lf : UInt8 := 10

/-- The end of the first line in the buffer, and the line ending it has settled on. Source:
`php_stream_locate_eol`. -/
def locateEol (s : Stream σ) : Option ℕ × Stream σ :=
  if s.detectEol then
    match s.buffered.idxOf? cr, s.buffered.idxOf? lf with
    | some c, some l =>
      if l ≠ c + 1 ∧ ¬ l < c then (some c, { s with detectEol := false, eolMac := true })
      else (some l, { s with detectEol := false })
    | some c, none => (some c, { s with detectEol := false, eolMac := true })
    | none, some l => (some l, { s with detectEol := false })
    | none, none => (none, s)
  else if s.eolMac then (s.buffered.idxOf? cr, s)
  else (s.buffered.idxOf? lf, s)

/-- How much of the buffer is copied, and whether the line ends with it: up to the end of the line,
and no more than a caller's buffer of `maxlen` bytes has room for. Source: `_php_stream_get_line`.
-/
def cpysz (avail : ℕ) (eol maxlen : Option ℕ) : ℕ × Bool :=
  let n := match eol with
    | some i => (i + 1, true)
    | none => (avail, false)
  match maxlen with
  | some m => if m - 1 ≤ n.1 then (m - 1, true) else n
  | none => n

/-- How much is asked for: `maxlen` is the size of the caller's buffer, if there is one. Source:
`_php_stream_get_line`. -/
def lineChunk (s : Stream σ) : Option ℕ → ℕ
  | some m => min (m - 1) s.chunkSize
  | none => s.chunkSize

/-- The bytes of the buffer that are copied in one round. Source: `_php_stream_get_line`. -/
def Stream.copyOut (s : Stream σ) (n : ℕ) : Stream σ :=
  { s with position := s.position + n, readpos := s.readpos + n }

/-- The loop of `_php_stream_get_line`, bounded by the number of its rounds. -/
def getLineLoop : ℕ → Stream σ → Option ℕ → Option (List UInt8 × Stream σ)
  | 0, _, _ => none
  | rounds + 1, s, maxlen =>
    if 0 < s.avail then
      let e := locateEol s
      let n := cpysz s.avail e.1 maxlen
      let data := s.buffered.take n.1
      if n.2 then some (data, e.2.copyOut n.1)
      else (getLineLoop rounds (e.2.copyOut n.1) (maxlen.map (· - n.1))).map
        fun r => (data ++ r.1, r.2)
    else if s.eof then some ([], s)
    else
      let s := fillReadBuffer ops s (lineChunk s maxlen)
      if s.avail = 0 then some ([], s) else getLineLoop rounds s maxlen

/-- A line, or `NULL` if there is none. Without a `maxlen` the caller has no buffer and the line is
as long as it is. Source: `_php_stream_get_line`. -/
def getLine (rounds : ℕ) (s : Stream σ) (maxlen : Option ℕ) :
    Option (Option (List UInt8) × Stream σ) :=
  if maxlen = some 0 then some (none, s)
  else (getLineLoop ops rounds s maxlen).map
    fun r => (if r.1.length = 0 then none else some r.1, r.2)

/-! ## Writing -/

/-- The conversion `(int)` of a `size_t`. Source: `_php_stream_write_buffer`. -/
def toInt (n : ℕ) : ℤ :=
  (n : ℤ).bmod (2 ^ 32)

lemma pos_of_toInt_pos {n : ℕ} (h : 0 < toInt n) : 0 < n := by
  rcases Nat.eq_zero_or_pos n with rfl | hn
  · exact absurd h (by decide)
  · exact hn

lemma toInt_pos_iff {n : ℕ} (h : n < 2 ^ 31) : 0 < toInt n ↔ 0 < n := by
  refine ⟨pos_of_toInt_pos, fun hn => ?_⟩
  unfold toInt
  rw [Int.bmod_eq_of_le] <;> omega

/-- The loop of `_php_stream_write_buffer`. -/
def writeLoop (s : Stream σ) (buf : List UInt8) : ℕ × Stream σ :=
  if _hcount : buf.length = 0 then (0, s)
  else
    let r := ops.write s.backend (buf.take s.chunkSize)
    let s := { s with backend := r.2 }
    if _hwrote : 0 < toInt r.1 then
      let s := if s.noSeek then s else { s with position := s.position + r.1 }
      let rest := writeLoop s (buf.drop r.1)
      (r.1 + rest.1, rest.2)
    else (0, s)
  termination_by buf.length
  decreasing_by
    have := pos_of_toInt_pos _hwrote
    simp +zetaDelta only [List.length_drop] at *
    omega

/-- The read buffer is dropped before a write, and the backend is put where the stream is. Source:
`_php_stream_write_buffer`. -/
def dropReadBuffer (s : Stream σ) : Stream σ :=
  if !s.noSeek && s.readpos != s.writepos then
    let r := ops.seek s.backend s.eof s.position .seekSet
    { s with readpos := 0, writepos := 0, position := r.newoffset, eof := r.eof,
             backend := r.backend }
  else s

/-- `_php_stream_write`, `_php_stream_write_buffer`. -/
def streamWrite (s : Stream σ) (buf : List UInt8) : ℕ × Stream σ :=
  if buf.length = 0 then (0, s) else writeLoop ops (dropReadBuffer ops s) buf

/-! ## Seeking -/

/-- A seek forward by reading, for streams that cannot seek. Source: `_php_stream_seek`. -/
def seekForward (s : Stream σ) (offset : ℕ) : ℤ × Stream σ :=
  if offset = 0 then (0, { s with eof := false })
  else
    let r := streamRead ops s (min offset 1024)
    if r.1.length = 0 then (-1, r.2) else seekForward r.2 (offset - r.1.length)
  termination_by offset
  decreasing_by
    simp +zetaDelta only at *
    omega

/-- A seek that stays inside the buffer: by how much `readpos` moves. Source: `_php_stream_seek`. -/
def seekInBuffer (s : Stream σ) (offset : ℤ) (whence : Whence) : Option ℕ :=
  if s.noBuffer then none
  else match whence with
    | .seekCur => if 0 < offset ∧ offset ≤ s.avail then some offset.toNat else none
    | .seekSet =>
      if s.position < offset ∧ offset ≤ s.position + s.avail then
        some (offset - s.position).toNat
      else none
    | .seekEnd => none

/-- A seek of the backend; one from the current position becomes an absolute one. Source:
`_php_stream_seek`. -/
def seekBackend (s : Stream σ) (offset : ℤ) : Whence → SeekResult σ
  | .seekCur => ops.seek s.backend s.eof (s.position + offset) .seekSet
  | whence => ops.seek s.backend s.eof offset whence

/-- `_php_stream_seek`. -/
def streamSeek (s : Stream σ) (offset : ℤ) (whence : Whence) : ℤ × Stream σ :=
  match seekInBuffer s offset whence with
  | some n => (0, { s with
      readpos := s.readpos + n, position := s.position + n, eof := false })
  | none =>
    if !s.noSeek then
      let r := seekBackend ops s offset whence
      (r.ret, { s with
        readpos := 0, writepos := 0, position := r.newoffset, backend := r.backend
        eof := if r.ret = 0 then false else r.eof })
    else if whence = .seekCur ∧ 0 ≤ offset then seekForward ops s offset.toNat
    else (-1, s)

/-! ## Calls -/

/-- The calls a run is made of. -/
inductive Call where
  | read (size : ℕ)
  | getLine (maxlen : Option ℕ)
  | write (buf : List UInt8)
  | seek (offset : ℤ) (whence : Whence)

/-- What a call returns. -/
inductive Outcome where
  | bytes (data : List UInt8)
  | line (data : Option (List UInt8))
  | wrote (n : ℕ)
  | sought (ret : ℤ)
  deriving DecidableEq

/-- One call; `rounds` bounds the loop of `_php_stream_get_line`. -/
def step (rounds : ℕ) (s : Stream σ) : Call → Option (Outcome × Stream σ)
  | .read size => some ((streamRead ops s size).map .bytes id)
  | .getLine maxlen => (getLine ops rounds s maxlen).map (Prod.map .line id)
  | .write buf => some ((streamWrite ops s buf).map .wrote id)
  | .seek offset whence => some ((streamSeek ops s offset whence).map .sought id)

end PhpInternals.Main.Streams
