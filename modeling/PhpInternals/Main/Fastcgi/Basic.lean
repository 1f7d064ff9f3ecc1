import PhpInternals.Found.Framing
import PhpInternals.Found.StateSpec

/-!
# The output side of a FastCGI connection

The functions of `main/fastcgi.c` that put the output of a request into records and send them.
-/

namespace PhpInternals.Main.Fastcgi

open Found

/-- The types of records. Source: `main/fastcgi.h` `fcgi_request_type`. -/
inductive FcgiRequestType where
  | beginRequest
  | abortRequest
  | endRequest
  | params
  | stdin
  | stdout
  | stderr
  | data
  | getValues
  | getValuesResult
  deriving DecidableEq, Repr

/-- The value of a type. Source: `main/fastcgi.h` `fcgi_request_type`. -/
def FcgiRequestType.code : FcgiRequestType → UInt8
  | .beginRequest => 1
  | .abortRequest => 2
  | .endRequest => 3
  | .params => 4
  | .stdin => 5
  | .stdout => 6
  | .stderr => 7
  | .data => 8
  | .getValues => 9
  | .getValuesResult => 10

/-- `sizeof(fcgi_header)`. Source: `fcgi_header`. -/
def headerSize : ℕ := 8

/-- `sizeof(req->out_buf)`. Source: `struct _fcgi_request`. -/
def outBufSize : ℕ := 1024 * 8

/-- `sizeof(fcgi_end_request_rec)`, the size of `reserved`. Source: `struct _fcgi_request`. -/
def reservedSize : ℕ := 16

/-! ## Records -/

/-- The low byte of a number, `n & 0xff`. Source: `fcgi_make_header`. -/
def byteOf (n : ℕ) : UInt8 := UInt8.ofNat n

/-- `((len + 7) & ~7) - len`: what is missing to the next multiple of eight. Source:
`fcgi_make_header`. -/
def padding (len : ℕ) : ℕ := (len + 7) / 8 * 8 - len

/-- The eight bytes of a header. Source: `fcgi_header`, `fcgi_make_header`. -/
def headerBytes (type : UInt8) (reqId len : ℕ) : List UInt8 :=
  [1, type, byteOf (reqId / 256), byteOf reqId, byteOf (len / 256), byteOf len,
    byteOf (padding len), 0]

/-- A record as its reader sees it. Source: `fcgi_header`. -/
structure Record where
  type : UInt8
  requestId : ℕ
  content : List UInt8
  pad : List UInt8
  deriving DecidableEq, Repr

/-- The record on the wire. Source: `fcgi_header`. -/
def Record.bytes (r : Record) : List UInt8 :=
  headerBytes r.type r.requestId r.content.length ++ r.content ++ r.pad

/-- The fields fit into the header and the record is padded to a multiple of eight bytes. -/
structure Record.WellFormed (r : Record) : Prop where
  requestId_lt : r.requestId < 65536
  content_lt : r.content.length < 65536
  pad_length : r.pad.length = padding r.content.length

/-- One record off the front of the input: the header gives the lengths of what follows it. -/
def readRecord : List UInt8 → Option (Record × List UInt8)
  | version :: type :: id1 :: id0 :: len1 :: len0 :: padLen :: reserved :: rest =>
    let len := len1.toNat * 256 + len0.toNat
    if version = 1 ∧ reserved = 0 ∧ len + padLen.toNat ≤ rest.length then
      some (⟨type, id1.toNat * 256 + id0.toNat, rest.take len, slice rest len padLen.toNat⟩,
        rest.drop (len + padLen.toNat))
    else none
  | _ => none

/-- The records of an input. -/
def readRecords (input : List UInt8) : Option (List Record) :=
  readAll readRecord input.length input

/-! ## The state -/

/-- `out_buf` and the `reserved` bytes that follow it. Source: `struct _fcgi_request`. -/
structure OutBuffer where
  bytes : List UInt8
  length_bytes : bytes.length = outBufSize + reservedSize

/-- Bytes stored at an offset. Source: `memcpy`, `memset`. -/
def OutBuffer.write (b : OutBuffer) (pos : ℕ) (bs : List UInt8)
    (h : pos + bs.length ≤ outBufSize + reservedSize) : OutBuffer where
  bytes := overwrite 0 b.bytes pos bs
  length_bytes := by
    rw [length_overwrite_of_le (by rw [b.length_bytes]; exact h), b.length_bytes]

/-- The connection: what was sent on it, how many calls of `safe_write` there were, and for each
call how many bytes it gets out before an error, if it meets one. Source: `safe_write`. -/
structure Socket where
  sent : List UInt8
  writes : ℕ
  fails : ℕ → Option ℕ

/-- The fields of a request that the output uses. `outHdr` and `outPos` are offsets into `outBuf`.
Source: `struct _fcgi_request`. -/
structure FcgiRequest where
  id : ℕ
  keep : Bool
  ended : Bool
  outHdr : Option ℕ
  outPos : ℕ
  outBuf : OutBuffer
  socket : Socket

/-- What the C code would do outside of its buffer: store a byte behind `reserved`, or move
`out_pos` there. `outOfSteps` is the bound of the loop in `fcgi_write`. Source: `struct
_fcgi_request`. -/
inductive OutFault where
  | passed
  | outOfSteps
  deriving DecidableEq, Repr

/-- The code works on a request and may run into a fault. -/
abbrev Output := StateT FcgiRequest (Except OutFault)

/-- `memcpy`, `memset`. -/
def store (pos : ℕ) (bs : List UInt8) : Output Unit := do
  if h : pos + bs.length ≤ outBufSize + reservedSize then
    modify fun req => { req with outBuf := req.outBuf.write pos bs h }
  else throw .passed

/-- `req->out_pos += n`. -/
def advance (n : ℕ) : Output Unit := do
  let req ← get
  if req.outPos + n ≤ outBufSize + reservedSize then set { req with outPos := req.outPos + n }
  else throw .passed

/-- The number of bytes written, or `-1` after an error; a call that is interrupted is repeated. -/
def safeWrite (bs : List UInt8) : Output ℤ := do
  let req ← get
  match req.socket.fails req.socket.writes with
  | some n =>
    -- with nothing to write the only call of `write` may still report an error
    if n < bs.length ∨ bs = [] then
      set { req with
        socket.sent := req.socket.sent ++ bs.take n
        socket.writes := req.socket.writes + 1 }
      return -1
    else
      set { req with socket.sent := req.socket.sent ++ bs, socket.writes := req.socket.writes + 1 }
      return bs.length
  | none =>
    set { req with socket.sent := req.socket.sent ++ bs, socket.writes := req.socket.writes + 1 }
    return bs.length

/-! ## Packets -/

/-- The zeros behind `len` bytes of content. Source: `fcgi_make_header`. -/
def storePadding (hdr len : ℕ) : Output Unit :=
  if padding len ≠ 0 then store (hdr + headerSize + len)
    (List.replicate (padding len) 0) else pure ()

/-- The header at `hdr` of a record with `len` bytes, and its padding; returns the padding. -/
def fcgiMakeHeader (hdr : ℕ) (type : UInt8) (reqId len : ℕ) : Output ℕ := do
  store hdr (headerBytes type reqId len)
  storePadding hdr len
  return padding len

/-- Source: `open_packet`. -/
def openPacket (type : FcgiRequestType) : Output Unit := do
  let req ← get
  set { req with outHdr := some req.outPos }
  store (req.outPos + 1) [type.code]
  advance headerSize

/-- `out_hdr->type`. Source: `fcgi_header`. -/
def FcgiRequest.typeAt (req : FcgiRequest) (hdr : ℕ) : UInt8 := req.outBuf.bytes.getD (hdr + 1) 0

/-- Source: `close_packet`. -/
def closePacket : Output Unit := do
  let req ← get
  match req.outHdr with
  | none => return
  | some hdr =>
    let pad ← fcgiMakeHeader hdr (req.typeAt hdr) req.id (req.outPos - (hdr + headerSize))
    advance pad
    modify fun req => { req with outHdr := none }

/-- The `FCGI_END_REQUEST` record behind the output, without moving `out_pos`; its size. The last
three bytes of its body are what the buffer held. Source: `fcgi_flush`. -/
def endRecord : Output ℕ := do
  let req ← get
  let _ ← fcgiMakeHeader req.outPos FcgiRequestType.endRequest.code req.id 8
  store (req.outPos + headerSize) [0, 0, 0, 0, 0]
  return reservedSize

/-- What `fcgi_flush` adds to the output: nothing, or the last record. -/
def flushTail (last : Bool) : Output ℕ := if last then endRecord else pure 0

/-- Closes the packet, adds the last record if `last`, and sends the buffer. `1`, or `0` if the
socket does not take it. -/
def fcgiFlush (last : Bool) : Output ℤ := do
  closePacket
  let tail ← flushTail last
  let req ← get
  let len := req.outPos + tail
  let ret ← safeWrite (req.outBuf.bytes.take len)
  if ret ≠ len then
    modify fun req => { req with keep := false, outPos := 0 }
    return 0
  else
    modify fun req => { req with outPos := 0 }
    return 1

/-! ## Writing -/

/-- `memcpy(req->out_pos, ..)` and the move of `out_pos`. Source: `fcgi_write`. -/
def copyOut (bs : List UInt8) : Output Unit := do
  let req ← get
  store req.outPos bs
  advance bs.length

/-- A packet is opened unless one is open already. Source: `fcgi_write`. -/
def openIfClosed (type : FcgiRequestType) : Output Unit := do
  let req ← get
  if req.outHdr = none then openPacket type else pure ()

/-- The data that goes into the open packet before the buffer is sent. Source: `fcgi_write`, the
second branch. -/
def copyUpTo (limit : ℤ) (str : List UInt8) : Output Unit :=
  if 0 < limit then copyOut (str.take limit.toNat) else pure ()

/-- A new packet for the data that is left, if any is. Source: `fcgi_write`, the second and the
third branch. -/
def openWith (left : Prop) [Decidable left] (type : FcgiRequestType) (bs : List UInt8) :
    Output Unit :=
  if left then do
    openPacket type
    copyOut bs
  else pure ()

/-- A packet of another type is closed first. Source: `fcgi_write`. -/
def closeOther (type : FcgiRequestType) : Output Unit := do
  let req ← get
  match req.outHdr with
  | none => pure ()
  | some hdr => if req.typeAt hdr ≠ type.code then closePacket else pure ()

/-- The bytes of data that `out_buf` still takes. Source: `fcgi_write`. -/
def FcgiRequest.limit (req : FcgiRequest) : ℤ :=
  match req.outHdr with
  | some _ => (outBufSize : ℤ) - req.outPos
  | none => max ((outBufSize : ℤ) - req.outPos - headerSize) 0

/-- A record whose content goes from the caller's memory to the socket: its header is sent with what
the buffer holds. Whether the socket took both. Source: `fcgi_write`, the third branch. -/
def sendWhole (type : FcgiRequestType) (content : List UInt8) : Output Bool := do
  let hdr := (← get).outPos
  openPacket type
  let req ← get
  let _ ← fcgiMakeHeader hdr type.code req.id content.length
  modify fun req => { req with outHdr := none }
  if (← fcgiFlush false) = 0 then return false
  else if (← safeWrite content) ≠ content.length then
    modify fun req => { req with keep := false }
    return false
  else return true

/-- A round of the loop over records of `0xfff8` bytes: the next position, or the position where the
loop ends, or nothing after an error. Source: `fcgi_write`, the third branch. -/
def largeRound (type : FcgiRequestType) (str : List UInt8) (pos : ℕ) : Output (ℕ ⊕ Option ℕ) := do
  if 0xffff < str.length - pos then
    if ← sendWhole type (slice str pos 0xfff8) then return .inl (pos + 0xfff8)
    else return .inr none
  else return .inr (some pos)

/-- What is left after the loop: whole multiples of eight bytes are sent at once, the rest opens a
packet. Source: `fcgi_write`, the third branch. -/
def writeTail (type : FcgiRequestType) (str : List UInt8) (pos : ℕ) : Output ℤ := do
  let pad := padding (str.length - pos)
  let rest := if pad = 0 then 0 else 8 - pad
  if ← sendWhole type (slice str pos (str.length - pos - rest)) then
    openWith (pad ≠ 0) type (str.drop (str.length - rest))
    return str.length
  else return -1

/-- More than the buffer takes. Source: `fcgi_write`, the third branch. -/
def writeLarge (type : FcgiRequestType) (str : List UInt8) : Output ℤ := do
  closePacket
  match ← iterate .outOfSteps (largeRound type str) (str.length + 1) 0 with
  | none => return -1
  | some pos => writeTail type str pos

/-- The data fills the buffer, which is sent, and begins the next one. Source: `fcgi_write`, the
second branch. -/
def writeSpill (type : FcgiRequestType) (str : List UInt8) (limit : ℤ) : Output ℤ := do
  openIfClosed type
  copyUpTo limit str
  if (← fcgiFlush false) = 0 then return -1
  else
    openWith (limit < str.length) type (str.drop limit.toNat)
    return str.length

/-- The data fits into the buffer. Source: `fcgi_write`, the first branch. -/
def writeFit (type : FcgiRequestType) (str : List UInt8) : Output ℤ := do
  openIfClosed type
  copyOut str
  return str.length

/-- Source: `fcgi_write`. -/
def fcgiWrite (type : FcgiRequestType) (str : List UInt8) : Output ℤ := do
  if str.length = 0 then return 0
  else
    closeOther type
    let limit := (← get).limit
    if str.length < limit then writeFit type str
    else if str.length - limit < (outBufSize : ℤ) - headerSize then writeSpill type str limit
    else writeLarge type str

/-- Source: `fcgi_end`. -/
def fcgiEnd : Output ℤ := do
  let req ← get
  if req.ended then return 1
  else
    let ret ← fcgiFlush true
    modify fun req => { req with ended := true }
    return ret

/-! ## Runs -/

/-- A call of the output functions before the end of the request. -/
inductive OutputCall where
  | write (type : FcgiRequestType) (str : List UInt8)
  | flush

/-- `fcgi_write`, `fcgi_flush`. -/
def OutputCall.run : OutputCall → Output ℤ
  | .write type str => fcgiWrite type str
  | .flush => fcgiFlush false

/-- The calls, one after the other. -/
def runOutput : List OutputCall → Output Unit
  | [] => pure ()
  | call :: calls => do
    let _ ← call.run
    runOutput calls

/-- A request whose output begins, over a buffer with any content and a socket. Source:
`fcgi_init_request`, `fcgi_read_request`. -/
def FcgiRequest.start (id : ℕ) (keep : Bool) (buf : OutBuffer) (fails : ℕ → Option ℕ) :
    FcgiRequest where
  id := id
  keep := keep
  ended := false
  outHdr := none
  outPos := 0
  outBuf := buf
  socket := ⟨[], 0, fails⟩

end PhpInternals.Main.Fastcgi
