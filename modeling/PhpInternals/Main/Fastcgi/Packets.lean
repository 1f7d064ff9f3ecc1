import PhpInternals.Main.Fastcgi.Basic

/-!
# Packets in the output buffer

The bytes sent and the bytes in the buffer are whole records, and the buffer ends in the packet that
is open, if one is.
-/

namespace PhpInternals.Main.Fastcgi

open OutBuffer FcgiRequestType Nat Found
open List (append_assoc append_nil flatMap_append flatMap_singleton length_append length_replicate
  map_nil mem_append mem_singleton replicate)

/-! ## Records on the wire -/

lemma padding_lt (len : ℕ) : padding len < 8 := by
  unfold padding
  omega

/-- The padding makes the length a multiple of 8. -/
lemma add_padding_mod (len : ℕ) : (len + padding len) % 8 = 0 := by
  unfold padding
  omega

lemma padding_eq_zero_iff {len : ℕ} : padding len = 0 ↔ len % 8 = 0 := by
  unfold padding
  omega

lemma toNat_byteOf (n : ℕ) : (byteOf n).toNat = n % 256 := UInt8.toNat_ofNat'

/-- Only the low eight bits are stored. -/
lemma byteOf_congr {m n : ℕ} (h : m % 256 = n % 256) : byteOf m = byteOf n := by
  rw [← UInt8.toNat_inj, toNat_byteOf, toNat_byteOf, h]

/-- The two length bytes of a header give the length back. -/
lemma high_low {n : ℕ} (h : n < 65536) : n / 256 % 256 * 256 + n % 256 = n := by omega

/-- The request id is stored in 16 bits. -/
lemma headerBytes_mod (type : UInt8) (reqId len : ℕ) :
    headerBytes type (reqId % 65536) len = headerBytes type reqId len := by
  have hhg : byteOf (reqId % 65536 / 256) = byteOf (reqId / 256) := byteOf_congr (by omega)
  have hl : byteOf (reqId % 65536) = byteOf reqId := byteOf_congr (by omega)
  rw [headerBytes, headerBytes, hhg, hl]

@[simp]
lemma length_headerBytes (type : UInt8) (reqId len : ℕ) :
    (headerBytes type reqId len).length = 8 := rfl

lemma Record.length_bytes (r : Record) : r.bytes.length = 8 + r.content.length + r.pad.length := by
  rw [Record.bytes, length_append, length_append, length_headerBytes]

/-- A record that was written is read back. -/
lemma readRecord_bytes {r : Record} (h : r.WellFormed) (rest : List UInt8) :
    readRecord (r.bytes ++ rest) = some (r, rest) := by
  obtain ⟨type, requestId, content, pad⟩ := r
  obtain ⟨hid, hl, hpd⟩ := h
  simp only at hid hl hpd
  have hp := padding_lt content.length
  have hpd' : padding content.length % 256 = pad.length := by
    rw [hpd]
    exact mod_eq_of_lt (by omega)
  simp only [Record.bytes, headerBytes, List.cons_append, List.nil_append, readRecord, toNat_byteOf,
    high_low hid, high_low hl, hpd']
  rw [if_pos ⟨trivial, trivial, by simp only [length_append]; omega⟩]
  have hc : (content ++ pad ++ rest).take content.length = content := by
    rw [append_assoc, List.take_left]
  have hs : slice (content ++ pad ++ rest) content.length pad.length = pad := by
    rw [slice, append_assoc, List.drop_left, List.take_left]
  have hrs : (content ++ pad ++ rest).drop (content.length + pad.length) = rest := by
    rw [← length_append, List.drop_left]
  rw [hc, hs, hrs]

lemma readRecords_flatMap {records : List Record} (h : ∀ r ∈ records, r.WellFormed) :
    readRecords (records.flatMap Record.bytes) = some records :=
  readAll_flatMap (fun r hr => readRecord_bytes (h r hr))
    (fun r _ => List.ne_nil_of_length_pos (by rw [r.length_bytes]; omega)) le_rfl

/-- The bytes of a sequence of records. -/
def size (records : List Record) : ℕ := (records.flatMap Record.bytes).length

@[simp]
lemma size_nil : size [] = 0 := rfl

lemma size_append (as bs : List Record) : size (as ++ bs) = size as + size bs := by
  rw [size, size, size, flatMap_append, length_append]

lemma size_singleton (r : Record) : size [r] = r.bytes.length := by
  rw [size, flatMap_singleton]

lemma size_mod {records : List Record} (h : ∀ r ∈ records, r.WellFormed) :
    size records % 8 = 0 := by
  induction records with
  | nil => rfl
  | cons r records ih =>
    have hr := (h r List.mem_cons_self).pad_length
    have hm := add_padding_mod r.content.length
    have hrs := ih fun r' hr' => h r' (List.mem_cons_of_mem _ hr')
    have hc : size (r :: records) = r.bytes.length + size records := by
      rw [size, size, List.flatMap_cons, length_append]
    rw [hc, r.length_bytes]
    omega

/-! ## The packet that is open -/

/-- A packet: a record whose header is not made yet. Source: `open_packet`. -/
structure Packet where
  type : UInt8
  content : List UInt8

/-- The record of a packet. Source: `close_packet`. -/
def Packet.record (id : ℕ) (p : Packet) : Record :=
  ⟨p.type, id % 65536, p.content, replicate (padding p.content.length) 0⟩

/-- The record of a packet can be read back if its length fits its field. -/
lemma Packet.record_wellFormed (id : ℕ) {p : Packet} (h : p.content.length < 65536) :
    (p.record id).WellFormed :=
  ⟨mod_lt _ (by norm_num), h, length_replicate⟩

/-- What `fcgi_make_header` and the copying leave in the buffer. -/
lemma Packet.bytes_record (id : ℕ) (p : Packet) : (p.record id).bytes =
    headerBytes p.type id p.content.length ++ p.content ++
      replicate (padding p.content.length) 0 := by
  rw [Record.bytes, Packet.record, headerBytes_mod]

lemma Packet.size_record (id : ℕ) (p : Packet) :
    size [p.record id] = 8 + p.content.length + padding p.content.length := by
  rw [size_singleton, Record.length_bytes, Packet.record, length_replicate]

/-- How the buffer goes on behind the records in it, which end at `base`. Source: `open_packet`. -/
def Continues (req : FcgiRequest) (base : ℕ) : Option Packet → Prop
  | none => req.outHdr = none ∧ req.outPos = base
  | some p => req.outHdr = some base ∧ req.outPos = base + 8 + p.content.length ∧
      slice req.outBuf.bytes (base + 1) 1 = [p.type] ∧
      slice req.outBuf.bytes (base + 8) p.content.length = p.content

/-- Whole records were sent, whole records stand in the buffer, and then the open packet. All of
them carry the id of the request, and the socket takes everything. -/
structure Framed (id : ℕ) (req : FcgiRequest) (sent buffered : List Record)
    (current : Option Packet) :
    Prop where
  id_eq : req.id = id
  running : req.ended = false
  takes : ∀ k, req.socket.fails k = none
  sent_eq : req.socket.sent = sent.flatMap Record.bytes
  buffered_eq : slice req.outBuf.bytes 0 (size buffered) = buffered.flatMap Record.bytes
  continues : Continues req (size buffered) current
  wellFormed : ∀ r ∈ sent ++ buffered, r.WellFormed
  requestId : ∀ r ∈ sent ++ buffered, r.requestId = id % 65536

/-- The open packet as the record it will be. -/
def pendingRecords (id : ℕ) (current : Option Packet) : List Record :=
  current.toList.map (Packet.record id)

/-- All records of the output, in order. -/
def allRecords (id : ℕ) (sent buffered : List Record) (current : Option Packet) : List Record :=
  sent ++ buffered ++ pendingRecords id current

/-- Where the buffer ends once the open packet is closed. -/
def closedSize (id : ℕ) (buffered : List Record) (current : Option Packet) : ℕ :=
  size (buffered ++ pendingRecords id current)

/-- With no packet open, closing adds nothing. -/
lemma closedSize_none (id : ℕ) (buffered : List Record) :
    closedSize id buffered none = size buffered := by
  rw [closedSize, pendingRecords, Option.toList_none, map_nil, append_nil]

lemma closedSize_some (id : ℕ) (buffered : List Record) (p : Packet) :
    closedSize id buffered (some p) =
      size buffered + 8 + p.content.length + padding p.content.length := by
  rw [closedSize, pendingRecords, Option.toList_some, List.map_singleton, size_append,
    p.size_record]
  omega

section
variable {id : ℕ} {req : FcgiRequest} {sent buffered : List Record} {current : Option Packet}
  {p : Packet} {bs : List UInt8}

namespace Framed

lemma bufferedWellFormed (h : Framed id req sent buffered current) :
    ∀ r ∈ buffered, r.WellFormed := fun r hr => h.wellFormed r (List.mem_append_right _ hr)

lemma size_mod (h : Framed id req sent buffered current) : size buffered % 8 = 0 :=
  Fastcgi.size_mod h.bufferedWellFormed

lemma typeAt (h : Framed id req sent buffered (some p)) : req.typeAt (size buffered) = p.type := by
  have hs := h.continues.2.2.1
  rw [slice, List.take_one] at hs
  rw [FcgiRequest.typeAt, List.getD_eq_getElem?_getD, ← List.head?_drop]
  cases hd : (req.outBuf.bytes.drop (size buffered + 1)).head? with
  | none => rw [hd] at hs; exact absurd hs (by simp)
  | some t => rw [hd] at hs; simpa using hs

end Framed

/-! ## Stores -/

lemma store_eq {pos : ℕ} (h : pos + bs.length ≤ outBufSize + reservedSize) :
    store pos bs req = .ok ((), { req with outBuf := req.outBuf.write pos bs h }) := by
  rw [store, dif_pos h]
  rfl

/-- The position may be moved up to the end of the reserve. -/
lemma advance_eq {n : ℕ} (h : req.outPos + n ≤ outBufSize + reservedSize) :
    advance n req = .ok ((), { req with outPos := req.outPos + n }) := by
  change (if req.outPos + n ≤ outBufSize + reservedSize then
    (set { req with outPos := req.outPos + n } : Output Unit) else throw .passed) req = _
  rw [if_pos h]
  rfl

/-- A socket that never fails takes everything in one call. -/
lemma safeWrite_eq (h : ∀ k, req.socket.fails k = none) : safeWrite bs req =
    .ok ((bs.length : ℤ), { req with
      socket := ⟨req.socket.sent ++ bs, req.socket.writes + 1, req.socket.fails⟩ }) := by
  simp only [safeWrite, bind, StateT.bind, get, getThe, MonadStateOf.get, StateT.get,
    Except.bind, pure,
    Except.pure, h]
  rfl

namespace OutBuffer

variable {b : OutBuffer} {pos i n : ℕ}

section

variable (h : pos + bs.length ≤ outBufSize + reservedSize)
include h

lemma slice_write_self : slice (b.write pos bs h).bytes pos bs.length = bs :=
  slice_overwrite_self (by rw [b.length_bytes]; exact h)

lemma slice_write_before (hi : i + n ≤ pos) :
    slice (b.write pos bs h).bytes i n = slice b.bytes i n :=
  slice_overwrite_before (by rw [b.length_bytes]; exact h) hi

lemma slice_write_after
    (hi : pos + bs.length ≤ i) : slice (b.write pos bs h).bytes i n = slice b.bytes i n :=
  slice_overwrite_after (by rw [b.length_bytes]; exact h) hi

end

end OutBuffer

/-! ## Headers -/

/-- The buffer after `fcgi_make_header`. -/
structure HeaderMade (old new : OutBuffer) (hdr : ℕ) (type : UInt8) (reqId len : ℕ) : Prop where
  header : slice new.bytes hdr 8 = headerBytes type reqId len
  before : ∀ i n, i + n ≤ hdr → slice new.bytes i n = slice old.bytes i n
  content : slice new.bytes (hdr + 8) len = slice old.bytes (hdr + 8) len
  zeros : slice new.bytes (hdr + 8 + len) (padding len) = replicate (padding len) 0
  after : ∀ i n, hdr + 8 + len + padding len ≤ i → slice new.bytes i n = slice old.bytes i n

/-- `fcgi_make_header` stores a header and zeros as padding, and nothing else. -/
lemma fcgiMakeHeader_ends {hdr reqId len : ℕ} {type : UInt8}
    (hhd : hdr + 8 ≤ outBufSize + reservedSize)
    (hpd : padding len ≠ 0 → hdr + 8 + len + padding len ≤ outBufSize + reservedSize) :
    Ends (fcgiMakeHeader hdr type reqId len) req fun pad req' => pad = padding len ∧
      ∃ buf, req' = { req with outBuf := buf } ∧ HeaderMade req.outBuf buf hdr type reqId len := by
  refine .step (store_eq (by rw [length_headerBytes]; exact hhd)) ?_
  have hh : slice (req.outBuf.write hdr (headerBytes type reqId len) hhd).bytes hdr 8 =
      headerBytes type reqId len := slice_write_self hhd
  have hb : ∀ i n, i + n ≤ hdr →
      slice (req.outBuf.write hdr (headerBytes type reqId len) hhd).bytes i n =
        slice req.outBuf.bytes i n := fun i n hi => slice_write_before hhd hi
  have ha : ∀ i n, hdr + 8 ≤ i →
      slice (req.outBuf.write hdr (headerBytes type reqId len) hhd).bytes i n =
        slice req.outBuf.bytes i n := fun i n hi => slice_write_after hhd hi
  by_cases hz : padding len = 0
  · refine Ends.bind (P := fun _ req' => req' = { req with
      outBuf := req.outBuf.write hdr (headerBytes type reqId len) hhd }) ?_ ?_
    · rw [storePadding, if_neg (not_not.mpr hz)]
      exact .pure rfl
    · rintro _ _ rfl
      refine .pure ⟨rfl, _, rfl, hh, hb, ha _ _ le_rfl, ?_, fun i n hi => ?_⟩
      · rw [hz]
        rfl
      · exact ha i n (by omega)
  have hf : hdr + headerSize + len + (replicate (padding len) (0 : UInt8)).length ≤
      outBufSize + reservedSize := by
    rw [length_replicate]
    exact hpd hz
  refine Ends.bind (P := fun _ req' => req' = { req with
    outBuf := (req.outBuf.write hdr (headerBytes type reqId len) hhd).write
      (hdr + headerSize + len) (replicate (padding len) 0) hf }) ?_ ?_
  · rw [storePadding, if_pos hz]
    exact ⟨_, _, store_eq hf, rfl⟩
  rintro _ _ rfl
  refine .pure ⟨rfl, _, rfl, ?_, fun i n hi => ?_, ?_, ?_, fun i n hi => ?_⟩
  · exact (slice_write_before hf (by simp only [headerSize]; omega)).trans hh
  · exact (slice_write_before hf (by omega)).trans (hb i n hi)
  · exact (slice_write_before hf (by simp only [headerSize]; omega)).trans (ha _ _ le_rfl)
  · have := slice_write_self (b := req.outBuf.write hdr (headerBytes type reqId len) hhd) hf
    rwa [length_replicate] at this
  · refine (slice_write_after hf ?_).trans (ha i n (by omega))
    rw [length_replicate]
    exact hi

/-! ## Opening, filling and closing a packet -/

/-- Opening a packet leaves eight bytes for its header. -/
lemma openPacket_framed (h : Framed id req sent buffered none)
    (hr : size buffered + 8 ≤ outBufSize + reservedSize) (type : FcgiRequestType) :
    Ends (openPacket type) req fun _ req' =>
      Framed id req' sent buffered (some ⟨type.code, []⟩) := by
  obtain ⟨-, hps⟩ := h.continues
  refine .get_bind (.set_bind ?_)
  have hf : req.outPos + 1 + [type.code].length ≤ outBufSize + reservedSize := by
    rw [List.length_singleton]
    omega
  refine .step (store_eq hf) ⟨_, _, advance_eq (by simp only [headerSize]; omega), ?_⟩
  refine { h with buffered_eq := ?_, continues := ⟨?_, ?_, ?_, rfl⟩ }
  · exact (slice_write_before hf (by omega)).trans h.buffered_eq
  · exact congrArg some hps
  · simp [hps, headerSize]
  · rw [← hps]
    exact slice_write_self hf

/-- Bytes copied behind the open packet belong to it. -/
lemma copyOut_framed (h : Framed id req sent buffered (some p))
    (hr : size buffered + 8 + p.content.length + bs.length ≤ outBufSize + reservedSize) :
    Ends (copyOut bs) req fun _ req' =>
      Framed id req' sent buffered (some ⟨p.type, p.content ++ bs⟩) := by
  obtain ⟨hhd, hps, hty, hc⟩ := h.continues
  have hf : req.outPos + bs.length ≤ outBufSize + reservedSize := by
    rw [hps]
    exact hr
  refine .get_bind (.step (store_eq hf) ⟨_, _, advance_eq hf, ?_⟩)
  refine { h with buffered_eq := ?_, continues := ⟨hhd, ?_, ?_, ?_⟩ }
  · exact (slice_write_before hf (by omega)).trans h.buffered_eq
  · simp only [length_append]
    omega
  · refine (slice_write_before hf ?_).trans hty
    omega
  rw [length_append, slice_add]
  refine congrArg₂ (· ++ ·) ?_ ?_
  · exact (slice_write_before hf (by omega)).trans hc
  · rw [← hps]
    exact slice_write_self hf

lemma closePacket_closed (h : req.outHdr = none) : closePacket req = .ok ((), req) := by
  cases req
  cases h
  rfl

/-- Closing turns the open packet into a record of the buffer. -/
lemma closePacket_framed (h : Framed id req sent buffered current)
    (hrm : closedSize id buffered current ≤ outBufSize + reservedSize)
    (hl : ∀ p ∈ current, p.content.length < 65536) :
    Ends closePacket req fun _ req' =>
      Framed id req' sent (buffered ++ pendingRecords id current) none := by
  cases current with
  | none =>
    obtain ⟨hhd, -⟩ := h.continues
    refine ⟨_, _, closePacket_closed hhd, ?_⟩
    rwa [pendingRecords, Option.toList_none, map_nil, append_nil]
  | some p =>
    obtain ⟨hhd, hps, -, hc⟩ := h.continues
    have hty := h.typeAt
    rw [closedSize_some] at hrm
    have hp : p.content.length < 65536 := hl p rfl
    have hdf : req.outPos - (size buffered + headerSize) = p.content.length := by
      rw [hps, headerSize, Nat.add_sub_cancel_left]
    refine .get_bind ?_
    simp only [hhd, hty, hdf]
    refine (fcgiMakeHeader_ends (by omega) fun _ => hrm).bind ?_
    rintro _ _ ⟨rfl, buf, rfl, hm⟩
    refine .step (advance_eq (by simp only [hps]; omega)) ⟨_, _, rfl, ?_⟩
    have hs : size (buffered ++ [p.record id]) =
        size buffered + (8 + p.content.length + padding p.content.length) := by
      rw [size_append, p.size_record]
    have hb : slice buf.bytes 0 (size (buffered ++ [p.record id])) =
        (buffered ++ [p.record id]).flatMap Record.bytes := by
      rw [hs, slice_add, hm.before _ _ (by omega), h.buffered_eq, flatMap_append,
        flatMap_singleton, p.bytes_record, slice_add, slice_add, zero_add, hm.header,
        hm.content, hc, ← add_assoc, hm.zeros, h.id_eq]
    refine ⟨h.id_eq, h.running, h.takes, h.sent_eq, hb, ⟨rfl, ?_⟩, ?_, ?_⟩
    · rw [pendingRecords, Option.toList_some, List.map_singleton]
      simp only [hps]
      omega
    · rw [← append_assoc]
      intro r hr
      rcases mem_append.mp hr with hr | hr
      · exact h.wellFormed r hr
      · rw [mem_singleton.mp hr]
        exact p.record_wellFormed id hp
    rw [← append_assoc]
    intro r hr
    rcases mem_append.mp hr with hr | hr
    · exact h.requestId r hr
    · rw [mem_singleton.mp hr]
      rfl

/-! ## Sending -/

/-- Flushing without an open packet sends the buffer. -/
lemma fcgiFlush_closed (htk : ∀ k, req.socket.fails k = none) (hhd : req.outHdr = none)
    (hps : req.outPos ≤ outBufSize + reservedSize) : Ends (fcgiFlush false) req fun ret req' =>
      ret = 1 ∧ req' = { req with
        outPos := 0
        socket := ⟨req.socket.sent ++ slice req.outBuf.bytes 0 req.outPos, req.socket.writes + 1,
          req.socket.fails⟩ } := by
  refine .step (closePacket_closed hhd) (.step rfl (.get_bind
    (.step (safeWrite_eq htk) ?_)))
  have hl : ((req.outBuf.bytes.take (req.outPos + 0)).length : ℤ) = (req.outPos + 0 : ℕ) := by
    rw [List.length_take, req.outBuf.length_bytes, min_eq_left (by omega)]
  rw [if_neg (not_not.mpr hl)]
  exact .modify_bind (.pure ⟨rfl, by simp [slice]⟩)

/-- A flush closes the packet first, so it may be closed before. -/
lemma fcgiFlush_of_close {last : Bool} {req' : FcgiRequest}
    (h : closePacket req = .ok ((), req')) (h' : req'.outHdr = none) :
    fcgiFlush last req = fcgiFlush last req' := by
  have ha := closePacket_closed h'
  simp [fcgiFlush, bind, StateT.bind, h, ha]

/-- **After a flush every record is sent.** -/
lemma fcgiFlush_framed (h : Framed id req sent buffered current)
    (hr : closedSize id buffered current ≤ outBufSize + reservedSize)
    (hl : ∀ p ∈ current, p.content.length < 65536) : Ends (fcgiFlush false) req fun ret req' =>
      ret = 1 ∧ Framed id req' (allRecords id sent buffered current) [] none := by
  obtain ⟨_, req1, hc, h1⟩ := closePacket_framed h hr hl
  obtain ⟨hhd, hps⟩ := h1.continues
  obtain ⟨ret, req', hf, hrt, hr'⟩ := fcgiFlush_closed h1.takes hhd (by rw [hps]; exact hr)
  refine ⟨ret, req', ?_, hrt, ?_⟩
  · rw [fcgiFlush_of_close hc hhd, hf]
  have ha : allRecords id sent buffered current =
      sent ++ (buffered ++ pendingRecords id current) := append_assoc ..
  rw [hr', ha]
  refine ⟨h1.id_eq, h1.running, h1.takes, ?_, rfl, ⟨hhd, rfl⟩, ?_, ?_⟩
  · simp [h1.sent_eq, hps, h1.buffered_eq]
  · rw [append_nil]
    exact h1.wellFormed
  · rw [append_nil]
    exact h1.requestId

/-- The record that ends a request; `tail` are the reserved bytes of its body. Source:
`fcgi_flush`. -/
def lastRecord (id : ℕ) (tail : List UInt8) : Record :=
  ⟨endRequest.code, id % 65536, [0, 0, 0, 0, 0] ++ tail, []⟩

lemma lastRecord_wellFormed (id : ℕ) {tail : List UInt8} (h : tail.length = 3) :
    (lastRecord id tail).WellFormed := by
  have hl : (lastRecord id tail).content.length = 8 := by
    rw [lastRecord, length_append, h]
    rfl
  exact ⟨mod_lt _ (by norm_num), by rw [hl]; norm_num, by rw [hl]; rfl⟩

/-- The end record takes 16 bytes, of which three are not set. -/
lemma endRecord_ends (hr : req.outPos + 16 ≤ outBufSize + reservedSize) :
    Ends endRecord req fun n req' => n = 16 ∧ ∃ buf tail, req' = { req with outBuf := buf } ∧
      tail.length = 3 ∧ slice buf.bytes 0 (req.outPos + 16) =
        slice req.outBuf.bytes 0 req.outPos ++ (lastRecord req.id tail).bytes := by
  refine .get_bind ((fcgiMakeHeader_ends (by omega) fun hpd => absurd rfl hpd).bind ?_)
  rintro _ _ ⟨rfl, buf, rfl, hm⟩
  have hf : req.outPos + headerSize + [(0 : UInt8), 0, 0, 0, 0].length ≤
      outBufSize + reservedSize := by
    simp only [headerSize, List.length_cons, List.length_nil]
    omega
  have hta : (slice (buf.write _ _ hf).bytes (req.outPos + 13) 3).length = 3 :=
    length_slice (by rw [length_bytes]; omega)
  refine .step (store_eq hf) (.pure ⟨rfl, _, _, rfl, hta, ?_⟩)
  have hbd : slice (buf.write _ _ hf).bytes (req.outPos + 8) 5 = [0, 0, 0, 0, 0] :=
    slice_write_self hf
  have hh : slice (buf.write _ _ hf).bytes req.outPos 8 = headerBytes endRequest.code req.id 8 :=
    (slice_write_before hf (by simp only [headerSize]; omega)).trans hm.header
  have hb : slice (buf.write _ _ hf).bytes 0 req.outPos = slice req.outBuf.bytes 0 req.outPos :=
    (slice_write_before hf (by simp only [headerSize]; omega)).trans (hm.before _ _ (by omega))
  have hby : ∀ tail : List UInt8, tail.length = 3 → (lastRecord req.id tail).bytes =
      headerBytes endRequest.code req.id 8 ++ ([0, 0, 0, 0, 0] ++ tail) := by
    intro tail hta
    rw [Record.bytes, lastRecord, headerBytes_mod, append_nil, length_append, hta]
    rfl
  rw [hby _ hta, show req.outPos + 16 = req.outPos + (8 + (5 + 3)) from rfl, slice_add,
    slice_add, slice_add, zero_add, hb, hh, hbd]

/-- The last flush adds the end record. -/
lemma fcgiFlush_last (h : Framed id req sent buffered current)
    (hrm : closedSize id buffered current ≤ outBufSize)
    (hl : ∀ p ∈ current, p.content.length < 65536) : Ends (fcgiFlush true) req fun ret req' =>
      ret = 1 ∧ ∃ tail, tail.length = 3 ∧ req'.socket.sent =
        (allRecords id sent buffered current ++ [lastRecord id tail]).flatMap Record.bytes := by
  obtain ⟨_, req1, hc, h1⟩ := closePacket_framed h (by omega) hl
  obtain ⟨hhd, hps⟩ := h1.continues
  have hft : req1.outPos + 16 ≤ outBufSize + reservedSize := by
    have hr : reservedSize = 16 := rfl
    rw [hps]
    exact Nat.add_le_add hrm (le_of_eq hr.symm)
  obtain ⟨ret, req', hf, hrt, hs⟩ : Ends (fcgiFlush true) req1 fun ret req' => ret = 1 ∧
      ∃ tail, tail.length = 3 ∧ req'.socket.sent =
        (allRecords id sent buffered current ++ [lastRecord id tail]).flatMap Record.bytes := by
    refine .step (closePacket_closed hhd) ((endRecord_ends hft).bind ?_)
    rintro _ _ ⟨rfl, buf, tail, rfl, hta, hb⟩
    refine .get_bind (.step (safeWrite_eq h1.takes) ?_)
    have hl' : ((buf.bytes.take (req1.outPos + 16)).length : ℤ) = (req1.outPos + 16 : ℕ) := by
      rw [List.length_take, buf.length_bytes, min_eq_left hft]
    rw [if_neg (not_not.mpr hl')]
    refine .modify_bind (.pure ⟨rfl, tail, hta, ?_⟩)
    have ha : allRecords id sent buffered current =
        sent ++ (buffered ++ pendingRecords id current) := append_assoc ..
    have hbf : slice buf.bytes 0 (req1.outPos + 16) =
        (buffered ++ pendingRecords id current ++ [lastRecord id tail]).flatMap Record.bytes := by
      rw [hb, hps, h1.buffered_eq, h1.id_eq]
      simp
    simp [← slice_zero, hbf, h1.sent_eq, ha, append_assoc]
  exact ⟨ret, req', by rw [fcgiFlush_of_close hc hhd, hf], hrt, hs⟩

/-- A part of a large write goes out as a record of its own. -/
lemma sendWhole_framed (h : Framed id req sent buffered none)
    (hrm : size buffered ≤ outBufSize) (hl : bs.length < 65536) (hmd : bs.length % 8 = 0)
    (type : FcgiRequestType) : Ends (sendWhole type bs) req fun ok req' => ok = true ∧
      Framed id req' (sent ++ buffered ++ [Packet.record id ⟨type.code, bs⟩]) [] none := by
  obtain ⟨-, hps⟩ := h.continues
  have hf : size buffered + 8 ≤ outBufSize + reservedSize :=
    Nat.add_le_add hrm (by simp only [reservedSize]; omega)
  have hpd : padding bs.length = 0 := padding_eq_zero_iff.mpr hmd
  refine .get_bind ((openPacket_framed h hf type).bind fun _ req1 h1 => .get_bind ?_)
  obtain ⟨-, hpos1, -, -⟩ := h1.continues
  refine (fcgiMakeHeader_ends (by omega) fun hne => absurd hpd hne).bind ?_
  rintro _ _ ⟨-, buf, rfl, hm⟩
  refine .modify_bind (Ends.bind (fcgiFlush_closed ?_ rfl ?_) ?_)
  · exact h1.takes
  · rw [hpos1]
    exact hf
  rintro _ _ ⟨rfl, rfl⟩
  refine .step (safeWrite_eq h1.takes) ?_
  rw [if_neg (not_not.mpr rfl)]
  refine .pure ⟨rfl, h1.id_eq, h1.running, h1.takes, ?_, rfl, ⟨rfl, rfl⟩, ?_, ?_⟩
  · -- the buffer ended in the header, and the content follows it
    have hb : (Packet.record id ⟨type.code, bs⟩).bytes =
        headerBytes type.code id bs.length ++ bs := by
      rw [Packet.bytes_record, hpd, List.replicate_zero, append_nil]
    have hbf : slice buf.bytes 0 req1.outPos =
        buffered.flatMap Record.bytes ++ headerBytes type.code id bs.length := by
      rw [hpos1, List.length_nil, add_zero, slice_add, zero_add,
        hm.before _ _ (by omega), h1.buffered_eq, ← hps, hm.header, h1.id_eq]
    simp [hbf, h1.sent_eq, hb]
  · rw [append_nil]
    intro r hr
    rcases mem_append.mp hr with hr | hr
    · exact h.wellFormed r hr
    · rw [mem_singleton.mp hr]
      exact Packet.record_wellFormed id hl
  rw [append_nil]
  intro r hr
  rcases mem_append.mp hr with hr | hr
  · exact h.requestId r hr
  · rw [mem_singleton.mp hr]
    rfl

end

end PhpInternals.Main.Fastcgi
