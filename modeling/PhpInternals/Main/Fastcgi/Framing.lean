import PhpInternals.Main.Fastcgi.Packets

/-!
# The output of a request as records
-/

namespace PhpInternals.Main.Fastcgi

open FcgiRequestType Nat Found
open Option (getD_none getD_some map_none map_some toList_none)
open List

/-! ## Data added to the records of one type -/

/-- The contents of the records of a type, one after the other. -/
def contents (type : UInt8) (records : List Record) : List UInt8 :=
  (records.filter fun r => r.type = type).flatMap Record.content

/-- Some record of a type has no content: for its reader that ends the stream. -/
def HasEmpty (type : UInt8) (records : List Record) : Prop :=
  ∃ r ∈ records, r.type = type ∧ r.content = []

/-- `str` was added to the records of `type`; `empty` says whether that added an empty record. -/
structure Extends (type : UInt8) (str : List UInt8) (empty : Prop) (old new : List Record) :
    Prop where
  contents_eq : ∀ u, contents u new = contents u old ++ if u = type then str else []
  types : ∀ r ∈ new, r.type = type ∨ ∃ r' ∈ old, r'.type = r.type
  hasEmpty_iff : ∀ u, HasEmpty u new ↔ HasEmpty u old ∨ u = type ∧ empty

lemma contents_append (u : UInt8) (as bs : List Record) :
    contents u (as ++ bs) = contents u as ++ contents u bs := by
  rw [contents, contents, contents, filter_append, flatMap_append]

/-- A record adds its content to its own type only. -/
lemma contents_record (u : UInt8) (id : ℕ) (p : Packet) :
    contents u [p.record id] = if u = p.type then p.content else [] := by
  by_cases h : u = p.type
  · simp [contents, Packet.record, h]
  · simp [contents, Packet.record, h, Ne.symm h]

lemma hasEmpty_append (u : UInt8) (as bs : List Record) :
    HasEmpty u (as ++ bs) ↔ HasEmpty u as ∨ HasEmpty u bs := by
  simp [HasEmpty, or_and_right, exists_or]

lemma hasEmpty_record (u : UInt8) (id : ℕ) (p : Packet) :
    HasEmpty u [p.record id] ↔ u = p.type ∧ p.content = [] := by
  simp [HasEmpty, Packet.record, eq_comm]

namespace Extends

variable {type : UInt8} {s s' : List UInt8} {e e' : Prop} {as bs cs : List Record} {id : ℕ}

lemma refl : Extends type [] False as as :=
  ⟨fun u => by split_ifs <;> simp, fun r hr => .inr ⟨r, hr, rfl⟩, by simp⟩

/-- Extensions compose: contents are appended, and an empty record stays. -/
lemma trans (h : Extends type s e as bs) (h' : Extends type s' e' bs cs) :
    Extends type (s ++ s') (e ∨ e') as cs := by
  refine ⟨fun u => ?_, fun r hr => ?_, fun u => ?_⟩
  · rw [h'.contents_eq, h.contents_eq]
    split_ifs <;> simp
  · rcases h'.types r hr with hty | ⟨r', hr', hty⟩
    · exact .inl hty
    · rw [← hty]
      exact h.types r' hr'
  · rw [h'.hasEmpty_iff, h.hasEmpty_iff, or_assoc, and_or_left]

lemma congr_empty (h : Extends type s e as bs) (he : e ↔ e') : Extends type s e' as bs :=
  ⟨h.contents_eq, h.types, fun u => by rw [h.hasEmpty_iff, he]⟩

/-- A new record is empty only if nothing was to be written. -/
lemma newRecord : Extends type s (s = []) as (as ++ [Packet.record id ⟨type, s⟩]) := by
  refine ⟨fun u => ?_, fun r hr => ?_, fun u => ?_⟩
  · rw [contents_append, contents_record]
  · rcases mem_append.mp hr with hr | hr
    · exact .inr ⟨r, hr, rfl⟩
    · rw [mem_singleton.mp hr]
      exact .inl rfl
  · rw [hasEmpty_append, hasEmpty_record]

/-- Bytes added to an open packet that has content make no empty record. -/
lemma grow (hs : s ≠ []) : Extends type s' False (as ++ [Packet.record id ⟨type, s⟩])
    (as ++ [Packet.record id ⟨type, s ++ s'⟩]) := by
  refine ⟨fun u => ?_, fun r hr => ?_, fun u => ?_⟩
  · rw [contents_append, contents_append, contents_record, contents_record]
    split_ifs <;> simp
  · rcases mem_append.mp hr with hr | hr
    · exact .inr ⟨r, mem_append_left _ hr, rfl⟩
    · rw [mem_singleton.mp hr]
      exact .inl rfl
  · simp [hasEmpty_append, hasEmpty_record, hs]

end Extends

/-! ## The state between two calls -/

/-- The state between two calls: without an open packet the buffer is empty, and an open packet has
content and ends before `out_buf` does. -/
structure Ready (id : ℕ) (req : FcgiRequest) (sent buffered : List Record)
    (current : Option Packet) :
    Prop where
  framed : Framed id req sent buffered current
  closed : current = none → buffered = []
  filled : ∀ p ∈ current, p.content ≠ []
  inside : ∀ p ∈ current, size buffered + 8 + p.content.length < outBufSize

/-- The state in `fcgi_write` once a packet of another type is closed: the open packet has the type
of the write. -/
structure Prepared (id : ℕ) (type : FcgiRequestType) (req : FcgiRequest)
    (sent buffered : List Record)
    (current : Option Packet) : Prop where
  framed : Framed id req sent buffered current
  type_eq : ∀ p ∈ current, p.type = type.code
  filled : ∀ p ∈ current, p.content ≠ []
  closed : current = none → size buffered ≤ outBufSize
  inside : ∀ p ∈ current, size buffered + 8 + p.content.length < outBufSize

/-- `fcgi_write` has to close a packet of another type and then finds room for a header at most. -/
def NoRoom (req : FcgiRequest) (type : FcgiRequestType) : Prop :=
  ∃ hdr, req.outHdr = some hdr ∧ req.typeAt hdr ≠ type.code ∧ outBufSize < req.outPos + 16

section
variable {id : ℕ} {req : FcgiRequest} {sent buffered : List Record} {current : Option Packet}
  {type : FcgiRequestType} {str : List UInt8}

/-- A packet inside of `out_buf` ends inside of it when it is padded: records begin at multiples of
eight. -/
lemma padded_le {base len : ℕ} (hm : base % 8 = 0) (h : base + 8 + len ≤ outBufSize) :
    base + 8 + len + padding len ≤ outBufSize := by
  simp only [outBufSize, padding] at *
  omega

section

variable (h : Ready id req sent buffered current)
include h

lemma Ready.closedSize_le : closedSize id buffered current ≤ outBufSize := by
  cases current with
  | none =>
    rw [h.closed rfl]
    exact zero_le _
  | some p =>
    rw [closedSize_some]
    exact padded_le h.framed.size_mod (h.inside p rfl).le

lemma Ready.content_lt : ∀ p ∈ current, p.content.length < 65536 := by
  intro p hp
  have := h.inside p hp
  simp only [outBufSize] at this
  omega

/-- Everything sent, buffered or open can be read back. -/
lemma Ready.wellFormed : ∀ r ∈ allRecords id sent buffered current, r.WellFormed := by
  intro r hr
  rcases mem_append.mp hr with hr | hr
  · exact h.framed.wellFormed r hr
  · obtain ⟨p, hp, rfl⟩ := mem_map.mp hr
    exact p.record_wellFormed id (h.content_lt p (Option.mem_toList.mp hp))

lemma Ready.requestId : ∀ r ∈ allRecords id sent buffered current, r.requestId = id % 65536 := by
  intro r hr
  rcases mem_append.mp hr with hr | hr
  · exact h.framed.requestId r hr
  · obtain ⟨p, -, rfl⟩ := mem_map.mp hr
    rfl

/-- A packet of another type is closed first, and the contents stay. -/
lemma closeOther_prepared : Ends (closeOther type) req fun _ req' => ∃ buffered' current',
      Prepared id type req' sent buffered' current' ∧
      allRecords id sent buffered' current' = allRecords id sent buffered current ∧
      (current' = none ∧ outBufSize < size buffered' + 16 ↔ NoRoom req type) := by
  refine .get_bind ?_
  cases current with
  | none =>
    obtain ⟨hhd, -⟩ := h.framed.continues
    simp only [hhd]
    refine .pure ⟨buffered, none, ⟨h.framed, by simp, by simp, ?_, by simp⟩, rfl, ?_⟩
    · intro _
      rw [h.closed rfl]
      exact zero_le _
    · rw [h.closed rfl]
      simp [NoRoom, hhd, outBufSize]
  | some p =>
    obtain ⟨hhd, hps, -, -⟩ := h.framed.continues
    have hty := h.framed.typeAt
    simp only [hhd, hty]
    refine .ite (fun hne => ?_) fun heq => ?_
    · refine (closePacket_framed h.framed (h.closedSize_le.trans (Nat.le_add_right ..))
        h.content_lt).mono fun _ req' h' => ?_
      refine ⟨_, none, ⟨h', by simp, by simp, fun _ => h.closedSize_le, by simp⟩, ?_, ?_⟩
      · simp [allRecords, pendingRecords, map_nil, append_nil]
      have hsz : size (buffered ++ pendingRecords id (some p)) =
          size buffered + 8 + p.content.length + padding p.content.length :=
        closedSize_some id buffered p
      have hm := h.framed.size_mod
      have hr : outBufSize < size (buffered ++ pendingRecords id (some p)) + 16 ↔
          outBufSize < req.outPos + 16 := by
        rw [hsz]
        simp only [outBufSize, padding]
        omega
      simp [hr, NoRoom, hhd, exists_eq_left', hty, hne,
        ne_eq]
    · rw [not_not] at heq
      refine .pure ⟨buffered, some p, ⟨h.framed, ?_, h.filled, by simp, h.inside⟩, rfl, ?_⟩
      · rintro _ ⟨⟩
        exact heq
      · simp [NoRoom, hhd, hty, heq]

end

/-- What the open packet holds already. -/
def heldContent (current : Option Packet) : List UInt8 := (current.map Packet.content).getD []

namespace Prepared

section

variable (h : Prepared id type req sent buffered current)
include h

lemma content_lt : ∀ p ∈ current, p.content.length < 65536 := by
  intro p hp
  have := h.inside p hp
  simp only [outBufSize] at this
  omega

lemma closedSize_le : closedSize id buffered current ≤ outBufSize := by
  cases current with
  | none =>
    rw [closedSize_none]
    exact h.closed rfl
  | some p =>
    rw [closedSize_some]
    exact padded_le h.framed.size_mod (h.inside p rfl).le

/-- The room that `fcgi_write` computes. -/
lemma limit_eq : req.limit =
    ((outBufSize - (size buffered + 8 + (heldContent current).length) : ℕ) : ℤ) := by
  cases current with
  | none =>
    obtain ⟨hhd, hps⟩ := h.framed.continues
    simp only [FcgiRequest.limit, hhd, heldContent, map_none, getD_none,
      length_nil, headerSize]
    omega
  | some p =>
    obtain ⟨hhd, hps, -, -⟩ := h.framed.continues
    have hlt := h.inside p rfl
    simp only [FcgiRequest.limit, hhd, heldContent, map_some, getD_some]
    omega

/-- There is no room only if no packet is open and the buffer is nearly full. -/
lemma limit_eq_zero_iff : req.limit = 0 ↔ current = none ∧ outBufSize < size buffered + 16 := by
  rw [h.limit_eq]
  have hm := h.framed.size_mod
  cases current with
  | none =>
    simp only [heldContent, map_none, getD_none, length_nil, outBufSize, true_and]
    omega
  | some p =>
    have hlt := h.inside p rfl
    simp only [heldContent, map_some, getD_some, reduceCtorEq, false_and, iff_false]
    omega

/-- The bytes written extend the records of their type. -/
lemma added (s : List UInt8) :
    Extends type.code s (current = none ∧ s = []) (allRecords id sent buffered current)
      (allRecords id sent buffered (some ⟨type.code, heldContent current ++ s⟩)) := by
  cases current with
  | none =>
    simp only [allRecords, pendingRecords, toList_none, map_nil, append_nil,
      true_and]
    exact Extends.newRecord
  | some p =>
    have hp : (⟨type.code, p.content⟩ : Packet) = p := by rw [← h.type_eq p rfl]
    have hg : Extends type.code s False
        (sent ++ buffered ++ [Packet.record id ⟨type.code, p.content⟩])
        (sent ++ buffered ++ [Packet.record id ⟨type.code, p.content ++ s⟩]) :=
      Extends.grow (h.filled p rfl)
    rw [hp] at hg
    exact hg.congr_empty (by simp)

end

end Prepared

lemma openIfClosed_framed (h : Prepared id type req sent buffered current) :
    Ends (openIfClosed type) req fun _ req' =>
      Framed id req' sent buffered (some ⟨type.code, heldContent current⟩) := by
  refine .get_bind ?_
  cases current with
  | none =>
    obtain ⟨hhd, -⟩ := h.framed.continues
    rw [if_pos hhd]
    have hf : size buffered + 8 ≤ outBufSize + reservedSize :=
      Nat.add_le_add (h.closed rfl) (by simp only [reservedSize]; omega)
    exact openPacket_framed h.framed hf type
  | some p =>
    obtain ⟨hhd, -⟩ := h.framed.continues
    rw [if_neg (by rw [hhd]; exact Option.some_ne_none _)]
    have hp : (⟨type.code, heldContent (some p)⟩ : Packet) = p := by rw [← h.type_eq p rfl]; rfl
    exact .pure (by rw [hp]; exact h.framed)

/-! ## The three ways to write -/

/-- What a write does: its result, the state after it, and the records of the output. `empty` says
whether it adds an empty record. -/
def Written (id : ℕ) (type : FcgiRequestType) (str : List UInt8) (empty : Prop) (old : List Record)
    (ret : ℤ) (req' : FcgiRequest) : Prop :=
  ret = str.length ∧ ∃ sent' buffered' current', Ready id req' sent' buffered' current' ∧
    Extends type.code str empty old (allRecords id sent' buffered' current')

/-- What fits is copied. -/
lemma writeFit_written (h : Prepared id type req sent buffered current) (hsr : str ≠ [])
    (hl : str.length < req.limit) : Ends (writeFit type str) req
      (Written id type str False (allRecords id sent buffered current)) := by
  rw [h.limit_eq] at hl
  have hr : size buffered + 8 + (heldContent current).length + str.length < outBufSize := by omega
  refine (openIfClosed_framed h).bind fun _ req1 h1 => ?_
  refine (copyOut_framed h1 (hr.le.trans (Nat.le_add_right ..))).bind fun _ req2 h2 => ?_
  refine .pure ⟨rfl, sent, buffered, _, ⟨h2, nofun, ?_, ?_⟩,
    (h.added str).congr_empty (by simp [hsr])⟩
  · rintro _ ⟨⟩
    exact append_ne_nil_of_right_ne_nil _ hsr
  · rintro _ ⟨⟩
    rw [length_append, ← add_assoc]
    exact hr

lemma copyUpTo_framed {p : Packet} {limit : ℕ} (h : Framed id req sent buffered (some p))
    (hr : size buffered + 8 + p.content.length + limit ≤ outBufSize + reservedSize) :
    Ends (copyUpTo limit str) req fun _ req' =>
      Framed id req' sent buffered (some ⟨p.type, p.content ++ str.take limit⟩) := by
  refine .ite (fun _ => ?_) fun hz => .pure ?_
  · refine copyOut_framed h (le_trans (Nat.add_le_add_left ?_ _) hr)
    exact (length_take_le ..)
  · obtain rfl : limit = 0 := by omega
    rwa [take_zero, append_nil]

lemma openWith_ready {left : Prop} [Decidable left] (h : Framed id req sent [] none)
    (hl : left ↔ str ≠ []) (hr : 8 + str.length < outBufSize) :
    Ends (openWith left type str) req fun _ req' => ∃ current', Ready id req' sent [] current' ∧
      Extends type.code str False sent (allRecords id sent [] current') := by
  refine .ite (fun hp => ?_) fun hn => ?_
  · have hsr := hl.mp hp
    have hf : size [] + 8 ≤ outBufSize + reservedSize := by decide
    refine (openPacket_framed h hf type).bind fun _ req1 h1 => ?_
    have hc : size [] + 8 + ([] : List UInt8).length + str.length ≤ outBufSize + reservedSize := by
      exact hr.le.trans (Nat.le_add_right ..)
    refine (copyOut_framed h1 hc).mono fun _ req2 h2 => ?_
    refine ⟨_, ⟨h2, nofun, ?_, ?_⟩, ?_⟩
    · rintro _ ⟨⟩
      exact hsr
    · rintro _ ⟨⟩
      exact hr
    · rw [allRecords, append_nil]
      exact Extends.newRecord.congr_empty (by simp [hsr])
  · obtain rfl : str = [] := not_not.mp (mt hl.mpr hn)
    refine .pure ⟨none, ⟨h, fun _ => rfl, nofun, nofun⟩, ?_⟩
    rw [allRecords, append_nil, pendingRecords, toList_none, map_nil, append_nil]
    exact Extends.refl

/-- What does not fit is cut: the rest starts a new packet in an empty buffer. -/
lemma writeSpill_written (h : Prepared id type req sent buffered current) (hsr : str ≠ [])
    (ho : req.limit ≤ str.length) (hln : str.length - req.limit < (outBufSize : ℤ) - headerSize) :
    Ends (writeSpill type str req.limit) req
      (Written id type str (req.limit = 0) (allRecords id sent buffered current)) := by
  have hz := h.limit_eq_zero_iff
  have hl := h.limit_eq
  generalize req.limit = limit at ho hln hz hl ⊢
  obtain ⟨n, rfl⟩ : ∃ n : ℕ, limit = n := ⟨_, hl⟩
  -- with no room left the packet is empty, otherwise it ends with the buffer
  have hr : size buffered + 8 + (heldContent current).length + n ≤ outBufSize + 8 := by
    by_cases hn0 : n = 0
    · obtain ⟨rfl, -⟩ := hz.mp (by exact_mod_cast hn0)
      have := h.closed rfl
      rw [hn0]
      simpa [heldContent] using this
    · omega
  have hhd : (heldContent current ++ str.take n).length ≤ (heldContent current).length + n := by
    rw [length_append]
    exact Nat.add_le_add_left (length_take_le ..) _
  refine (openIfClosed_framed h).bind fun _ req1 h1 => ?_
  have hf : size buffered + 8 + (heldContent current).length + n ≤ outBufSize + reservedSize :=
    hr.trans (add_le_add_left (by decide) _)
  refine (copyUpTo_framed h1 hf).bind fun _ req2 h2 => ?_
  have hc : closedSize id buffered (some ⟨type.code, heldContent current ++ str.take n⟩) ≤
      outBufSize + reservedSize := by
    rw [closedSize_some]
    simp only [reservedSize, padding] at *
    omega
  have hs : ∀ p ∈ some (⟨type.code, heldContent current ++ str.take n⟩ : Packet),
      p.content.length < 65536 := by
    rintro _ ⟨⟩
    change (heldContent current ++ str.take n).length < 65536
    simp only [outBufSize] at hr
    omega
  refine (fcgiFlush_framed h2 hc hs).bind ?_
  rintro _ req3 ⟨rfl, h3⟩
  have hlf : (n : ℤ) < str.length ↔ str.drop (n : ℤ).toNat ≠ [] := by
    rw [ne_eq, drop_eq_nil_iff]
    omega
  refine (openWith_ready h3 hlf ?_).bind ?_
  · rw [length_drop]
    simp only [headerSize] at hln ⊢
    omega
  rintro _ req4 ⟨current', h4, het⟩
  refine .pure ⟨rfl, _, _, _, h4, ?_⟩
  have ha := (h.added (str.take n)).trans het
  rw [Int.toNat_natCast, take_append_drop] at ha
  refine ha.congr_empty ?_
  rw [or_false, take_eq_nil_iff, or_iff_left hsr]
  constructor
  · rintro ⟨-, rfl⟩
    rfl
  · intro hn0
    exact ⟨(hz.mp hn0).1, by exact_mod_cast hn0⟩

/-- The data up to `pos` is sent or in the buffer, and no packet is open. -/
def SentUpTo (id : ℕ) (type : FcgiRequestType) (str : List UInt8) (old : List Record) (pos : ℕ)
    (req : FcgiRequest) : Prop :=
  ∃ sent buffered, Framed id req sent buffered none ∧ size buffered ≤ outBufSize ∧
    pos + 8 ≤ str.length ∧ Extends type.code (str.take pos) False old (sent ++ buffered)

variable {old : List Record} {pos : ℕ}

section

variable (h : SentUpTo id type str old pos req)
include h

/-- A part sent whole moves the position behind it. -/
lemma sendWhole_sentUpTo {n : ℕ}
    (hn : pos + n ≤ str.length) (hne : n ≠ 0) (hln : n < 65536) (hm : n % 8 = 0) :
    Ends (sendWhole type (slice str pos n)) req fun ok req' => ok = true ∧ ∃ sent',
      Framed id req' sent' [] none ∧ Extends type.code (str.take (pos + n)) False old sent' := by
  obtain ⟨sent, buffered, hf, hsz, -, het⟩ := h
  have hl : (slice str pos n).length = n := length_slice hn
  have hsn := sendWhole_framed hf hsz (hl ▸ hln) (by rw [hl]; exact hm) type
  refine hsn.mono ?_
  rintro _ req' ⟨rfl, h'⟩
  refine ⟨rfl, _, h', ?_⟩
  have hnw : Extends type.code (slice str pos n) (slice str pos n = []) (sent ++ buffered)
      (sent ++ buffered ++ [Packet.record id ⟨type.code, slice str pos n⟩]) := Extends.newRecord
  have ha := het.trans hnw
  rw [← slice_zero, ← zero_add pos, zero_add pos, slice_add, zero_add]
  refine ha.congr_empty ?_
  rw [false_or, iff_false]
  exact ne_nil_of_length_pos (by omega)

/-- A round of the loop for large strings sends 65528 bytes or is the last. -/
lemma largeRound_sentUpTo : Ends (largeRound type str pos) req fun r req' => Sum.elim
      (fun pos' => SentUpTo id type str old pos' req' ∧ str.length - pos' < str.length - pos)
      (fun c => c = some pos ∧ str.length - pos ≤ 0xffff ∧
      SentUpTo id type str old pos req') r := by
  refine .ite (fun hl => ?_) fun hs => .pure ⟨rfl, by omega, h⟩
  refine (sendWhole_sentUpTo h (by omega) (by norm_num) (by norm_num) (by norm_num)).bind ?_
  rintro _ req' ⟨rfl, sent', h', het⟩
  refine .pure ⟨⟨sent', [], h', zero_le _, by omega, ?_⟩, by omega⟩
  rw [append_nil]
  exact het

/-- The part behind the loop is cut at a multiple of 8. -/
lemma writeTail_written (hln : str.length - pos ≤ 0xffff) :
    Ends (writeTail type str pos) req (Written id type str False old) := by
  have hp : pos + 8 ≤ str.length := h.choose_spec.choose_spec.2.2.1
  have hr : (if padding (str.length - pos) = 0 then 0 else 8 - padding (str.length - pos)) =
      (str.length - pos) % 8 := by
    split_ifs with hz
    · exact (padding_eq_zero_iff.mp hz).symm
    · simp only [padding] at hz ⊢
      omega
  have hl : padding (str.length - pos) ≠ 0 ↔
      str.drop (str.length - (str.length - pos) % 8) ≠ [] := by
    rw [ne_eq, ne_eq, padding_eq_zero_iff, drop_eq_nil_iff]
    omega
  simp only [writeTail, hr]
  refine (sendWhole_sentUpTo h (by omega) (by omega) (by omega) (by omega)).bind ?_
  rintro _ req1 ⟨rfl, sent', h1, het⟩
  refine (openWith_ready h1 hl ?_).bind ?_
  · rw [length_drop]
    simp only [outBufSize]
    omega
  rintro _ req2 ⟨current', h2, het'⟩
  refine .pure ⟨rfl, sent', [], current', h2, ?_⟩
  have ha := het.trans het'
  have hc : pos + (str.length - pos - (str.length - pos) % 8) =
      str.length - (str.length - pos) % 8 := by omega
  rw [hc, take_append_drop] at ha
  exact ha.congr_empty (by simp)

end

/-- A string too large for the buffer is sent in parts. -/
lemma writeLarge_written (h : Prepared id type req sent buffered current)
    (hln : 8 ≤ str.length) : Ends (writeLarge type str) req
      (Written id type str False (allRecords id sent buffered current)) := by
  refine (closePacket_framed h.framed (h.closedSize_le.trans (Nat.le_add_right ..))
    h.content_lt).bind fun _ req1 h1 => ?_
  have hs : SentUpTo id type str (allRecords id sent buffered current) 0 req1 := by
    refine ⟨_, _, h1, h.closedSize_le, by omega, ?_⟩
    rw [← append_assoc]
    exact Extends.refl
  have hl : Ends (iterate .outOfSteps (largeRound type str) (str.length + 1) 0) req1 fun c req' =>
      ∃ pos, c = some pos ∧ str.length - pos ≤ 0xffff ∧
        SentUpTo id type str (allRecords id sent buffered current) pos req' := by
    refine Ends.iterate
      (μ := fun pos _ => str.length - pos) (fun pos req' h' => ?_) hs (lt_succ_self _)
    refine (largeRound_sentUpTo h').mono fun r req'' hr => ?_
    cases r with
    | inl pos' => exact hr
    | inr c => exact ⟨pos, hr⟩
  refine hl.bind ?_
  rintro _ req2 ⟨pos, rfl, hsm, h2⟩
  exact writeTail_written h2 hsm

/-! ## Calls -/

/-- The write meets the condition under which it sends an empty record: it closes a packet of
another type, finds room for a header at most, and its data would fit into an empty buffer. -/
def FindsNoRoom (req : FcgiRequest) (type : FcgiRequestType) (str : List UInt8) : Prop :=
  NoRoom req type ∧ str.length < outBufSize - headerSize

/-- **What one `fcgi_write` adds to the records.** -/
lemma fcgiWrite_written (h : Ready id req sent buffered current) (hsr : str ≠ []) :
    Ends (fcgiWrite type str) req
      (Written id type str (FindsNoRoom req type str) (allRecords id sent buffered current)) := by
  have hlen : str.length ≠ 0 := by simpa using hsr
  rw [fcgiWrite, if_neg hlen]
  refine (closeOther_prepared h).bind ?_
  rintro _ req1 ⟨buffered', current', h1, ha, hr⟩
  rw [← h1.limit_eq_zero_iff] at hr
  have hn : 0 ≤ req1.limit := by
    rw [h1.limit_eq]
    exact Int.natCast_nonneg _
  rw [← ha]
  refine .get_bind (.ite (fun hf => ?_) fun ho => .ite (fun hs => ?_) fun hl => ?_)
  · have hno : ¬ FindsNoRoom req type str := by
      rintro ⟨hno, -⟩
      have := hr.mpr hno
      omega
    exact (writeFit_written h1 hsr hf).mono fun ret req' hw => by simpa [hno] using hw
  · have hi : req1.limit = 0 ↔ FindsNoRoom req type str := by
      rw [FindsNoRoom, ← hr, iff_self_and]
      intro hz
      omega
    rw [← hi]
    exact writeSpill_written h1 hsr (by omega) hs
  have hno : ¬ FindsNoRoom req type str := by
    rintro ⟨hno, hsh⟩
    omega
  have hln : 8 ≤ str.length := by
    simp only [outBufSize, headerSize] at hl
    omega
  exact (writeLarge_written h1 hln).mono fun ret req' hw => by simpa [hno] using hw

/-- After a flush the buffer is empty and no packet is open. -/
lemma fcgiFlush_ready (h : Ready id req sent buffered current) :
    Ends (fcgiFlush false) req fun _ req' =>
      Ready id req' (allRecords id sent buffered current) [] none := by
  refine (fcgiFlush_framed h.framed (h.closedSize_le.trans (Nat.le_add_right ..)) h.content_lt).mono
    ?_
  rintro _ req' ⟨-, h'⟩
  exact ⟨h', fun _ => rfl, nofun, nofun⟩

/-! ## Runs -/

/-- The calls of a request: data, for one of the two output streams. Source: `main/fastcgi.c`
`fcgi_write`. -/
def OutputCall.Allowed : OutputCall → Prop
  | .write type str => (type = .stdout ∨ type = .stderr) ∧ str ≠ []
  | .flush => True

/-- The data that a call writes to `type`. Source: `main/fastcgi.c` `fcgi_write`. -/
def OutputCall.dataFor (type : FcgiRequestType) : OutputCall → List UInt8
  | .write type' str => if type' = type then str else []
  | .flush => []

/-- In the run some write to `type` finds no room. -/
def RunsOutOfRoom (type : FcgiRequestType) (req : FcgiRequest) (calls : List OutputCall) : Prop :=
  ∃ before str after req', calls = before ++ .write type str :: after ∧
    runOutput before req = .ok ((), req') ∧ FindsNoRoom req' type str

lemma FcgiRequestType.code_inj {a b : FcgiRequestType} : a.code = b.code ↔ a = b := by
  cases a <;> cases b <;> decide

/-- One call: the records before and after it. -/
structure Called (call : OutputCall) (req : FcgiRequest) (old new : List Record) : Prop where
  contents_eq : ∀ type : FcgiRequestType,
    contents type.code new = contents type.code old ++ call.dataFor type
  types : ∀ r ∈ new, (r.type = stdout.code ∨ r.type = stderr.code) ∨
    ∃ r' ∈ old, r'.type = r.type
  hasEmpty_iff : ∀ type : FcgiRequestType, HasEmpty type.code new ↔ HasEmpty type.code old ∨
    ∃ str, call = .write type str ∧ FindsNoRoom req type str

variable {call : OutputCall}

/-- Each call keeps the buffer in order and adds what it was given. -/
lemma OutputCall.run_called (h : Ready id req sent buffered current)
    (hc : call.Allowed) : Ends call.run req fun _ req' => ∃ sent' buffered' current',
      Ready id req' sent' buffered' current' ∧ Called call req (allRecords id sent buffered current)
        (allRecords id sent' buffered' current') := by
  cases call with
  | write type str =>
    obtain ⟨hty, hsr⟩ := hc
    refine (fcgiWrite_written h hsr).mono ?_
    rintro _ req' ⟨-, sent', buffered', current', h', het⟩
    refine ⟨sent', buffered', current', h', fun u => ?_, fun r hr => ?_, fun u => ?_⟩
    · rw [het.contents_eq, OutputCall.dataFor]
      simp [code_inj, eq_comm]
    · refine (het.types r hr).imp_left fun hr' => ?_
      rw [hr']
      exact hty.imp (congrArg _) (congrArg _)
    rw [het.hasEmpty_iff]
    simp only [code_inj, OutputCall.write.injEq]
    refine or_congr_right ⟨?_, ?_⟩
    · rintro ⟨rfl, hno⟩
      exact ⟨str, ⟨rfl, rfl⟩, hno⟩
    · rintro ⟨_, ⟨rfl, rfl⟩, hno⟩
      exact ⟨rfl, hno⟩
  | flush =>
    refine (fcgiFlush_ready h).mono fun _ req' h' => ⟨_, _, _, h', fun u => ?_, fun r hr => ?_,
      fun u => ?_⟩ <;> simp only [allRecords, pendingRecords, toList_none, map_nil, append_nil] at *
    · exact (append_nil _).symm
    · exact .inr ⟨r, hr, rfl⟩
    · simp

variable {calls : List OutputCall}

/-- Whether a sequence finds no room depends on the first call and the state after it. -/
lemma runsOutOfRoom_cons {ret : ℤ} {req' : FcgiRequest} (hr : call.run req = .ok (ret, req')) :
    RunsOutOfRoom type req (call :: calls) ↔
      (∃ str, call = .write type str ∧ FindsNoRoom req type str) ∨
      RunsOutOfRoom type req' calls := by
  have hc : ∀ before, runOutput (call :: before) req = runOutput before req' := by
    intro before
    simp [runOutput, bind, StateT.bind, hr, Except.bind]
  constructor
  · rintro ⟨before, str, after, req'', heq, hb, hno⟩
    cases before with
    | nil =>
      obtain ⟨rfl, -⟩ := cons.inj heq
      cases hb
      exact .inl ⟨str, rfl, hno⟩
    | cons first before =>
      obtain ⟨rfl, rfl⟩ := cons.inj heq
      rw [hc] at hb
      exact .inr ⟨before, str, after, req'', rfl, hb, hno⟩
  · rintro (⟨str, rfl, hno⟩ | ⟨before, str, after, req'', rfl, hb, hno⟩)
    · exact ⟨[], str, calls, req, rfl, rfl, hno⟩
    · exact ⟨call :: before, str, after, req'', rfl, (hc before).trans hb, hno⟩

/-- **Every sequence of calls adds what it was given, in order.** -/
lemma runOutput_called (h : Ready id req sent buffered current) (hca : ∀ call ∈ calls, call.Allowed)
    (hty : ∀ r ∈ allRecords id sent buffered current, r.type = stdout.code ∨ r.type = stderr.code) :
    Ends (runOutput calls) req fun _ req' => ∃ sent' buffered' current',
      Ready id req' sent' buffered' current' ∧
      (∀ r ∈ allRecords id sent' buffered' current', r.type = stdout.code ∨ r.type = stderr.code) ∧
      ∀ type : FcgiRequestType, contents type.code (allRecords id sent' buffered' current') =
          contents type.code (allRecords id sent buffered current) ++
            calls.flatMap (OutputCall.dataFor type) ∧
        (HasEmpty type.code (allRecords id sent' buffered' current') ↔
          HasEmpty type.code (allRecords id sent buffered current) ∨
          RunsOutOfRoom type req calls) := by
  induction calls generalizing req sent buffered current with
  | nil =>
    refine .pure ⟨sent, buffered, current, h, hty, fun type => ⟨(append_nil _).symm, ?_⟩⟩
    simp [RunsOutOfRoom]
  | cons call calls ih =>
    obtain ⟨ret, req1, hrn, sent1, buffered1, current1, h1, hcl⟩ :=
      OutputCall.run_called h (hca call mem_cons_self)
    refine .step hrn ?_
    have htp : ∀ r ∈ allRecords id sent1 buffered1 current1,
        r.type = stdout.code ∨ r.type = stderr.code := by
      intro r hr
      rcases hcl.types r hr with htype | ⟨r', hr', htype⟩
      · exact htype
      · rw [← htype]
        exact hty r' hr'
    refine (ih h1 (fun c hc => hca c (mem_cons_of_mem _ hc)) htp).mono ?_
    rintro _ req2 ⟨sent2, buffered2, current2, h2, htyp, ha⟩
    refine ⟨sent2, buffered2, current2, h2, htyp, fun type => ⟨?_, ?_⟩⟩
    · rw [(ha type).1, hcl.contents_eq, append_assoc, flatMap_cons]
    · rw [(ha type).2, hcl.hasEmpty_iff, or_assoc, runsOutOfRoom_cons hrn]

lemma start_ready (id : ℕ) (keep : Bool) (buf : OutBuffer) :
    Ready id (.start id keep buf fun _ => none) [] [] none :=
  ⟨⟨rfl, rfl, fun _ => rfl, rfl, rfl, ⟨rfl, rfl⟩, nofun, nofun⟩, fun _ => rfl, nofun, nofun⟩

/-- `fcgi_finish_request` sends what is left and the end record. -/
lemma fcgiEnd_sent (h : Ready id req sent buffered current) : Ends fcgiEnd req fun ret req' =>
    ret = 1 ∧ ∃ tail, tail.length = 3 ∧ readRecords req'.socket.sent =
      some (allRecords id sent buffered current ++ [lastRecord id tail]) := by
  refine .get_bind ?_
  rw [if_neg (by rw [h.framed.running]; exact Bool.false_ne_true)]
  refine (fcgiFlush_last h.framed h.closedSize_le h.content_lt).bind ?_
  rintro _ req' ⟨rfl, tail, hta, hsn⟩
  refine .modify_bind (.pure ⟨rfl, tail, hta, ?_⟩)
  simp only [hsn]
  refine readRecords_flatMap fun r hr => ?_
  rcases mem_append.mp hr with hr | hr
  · exact h.wellFormed r hr
  · rw [mem_singleton.mp hr]
    exact lastRecord_wellFormed id hta

lemma fcgiWrite_first (h : Framed id req sent [] none) (hsr : str ≠ [])
    (hln : str.length < outBufSize - headerSize) : Ends (fcgiWrite type str) req fun _ req' =>
      Framed id req' sent [] (some ⟨type.code, str⟩) := by
  obtain ⟨hhd, hp⟩ := h.continues
  have ho : closeOther type req = .ok ((), req) := by
    cases req
    cases hhd
    rfl
  have hl : req.limit = 8184 := by
    simp [FcgiRequest.limit, hhd, hp, outBufSize, headerSize]
  have hs : (str.length : ℤ) < 8184 := by exact_mod_cast hln
  have hr : 8 + str.length < outBufSize := by
    simp only [headerSize] at hln ⊢
    omega
  rw [fcgiWrite, if_neg (by simpa using hsr)]
  refine .step ho (.get_bind ?_)
  rw [hl, if_pos hs]
  have hop : Ends (openIfClosed type) req fun _ req' =>
      Framed id req' sent [] (some ⟨type.code, []⟩) := by
    refine .get_bind ?_
    rw [if_pos hhd]
    exact openPacket_framed h (by decide) type
  refine hop.bind fun _ req1 h1 => (copyOut_framed h1 ?_).bind fun _ req2 h2 => .pure h2
  exact hr.le.trans (Nat.le_add_right ..)

end

/-- A buffer of zeros. -/
def blankBuffer : OutBuffer := ⟨replicate (outBufSize + reservedSize) 0, length_replicate⟩

/-- **The output of a request.** Whatever is written to the two streams and flushed in between, the
run stays inside of the buffer and the peer reads well-formed records of this request that end with
the one `FCGI_END_REQUEST` record; the contents of the records of a type are the data written to it.
There is an empty record of a type exactly if some write to it found no room for data. -/
theorem fcgiOutput_framed (id : ℕ) (keep : Bool) (buf : OutBuffer) (calls : List OutputCall)
    (hcalls : ∀ call ∈ calls, call.Allowed) :
    ∃ req records tail,
      (runOutput calls >>= fun _ => fcgiEnd) (.start id keep buf fun _ => none) = .ok (1, req) ∧
      readRecords req.socket.sent = some (records ++ [lastRecord id tail]) ∧ tail.length = 3 ∧
      (∀ r ∈ records ++ [lastRecord id tail], r.WellFormed ∧ r.requestId = id % 65536) ∧
      (∀ r ∈ records,
        r.type = stdout.code ∨ r.type = stderr.code) ∧
      ∀ type : FcgiRequestType,
        contents type.code records = calls.flatMap (OutputCall.dataFor type) ∧
        (HasEmpty type.code records ↔
          RunsOutOfRoom type (.start id keep buf fun _ => none) calls) := by
  obtain ⟨_, req₁, hrn, sent, buffered, current, h₁, hty, ha⟩ :=
    runOutput_called (start_ready id keep buf) hcalls nofun
  obtain ⟨_, req, hen, rfl, tail, hta, hrd⟩ := fcgiEnd_sent h₁
  refine ⟨req, _, tail, ?_, hrd, hta, ?_, hty, fun type => ?_⟩
  · rw [← hen]
    change (runOutput calls _ >>= fun q => fcgiEnd q.2) = _
    rw [hrn]
    rfl
  · intro r hr
    rcases mem_append.mp hr with hr | hr
    · exact ⟨h₁.wellFormed r hr, h₁.requestId r hr⟩
    · rw [mem_singleton.mp hr]
      exact ⟨lastRecord_wellFormed id hta, rfl⟩
  · refine (ha type).imp (fun h => ?_) fun h => ?_
    · simpa [allRecords, pendingRecords, contents] using h
    · simpa [allRecords, pendingRecords, HasEmpty] using h

/-- Two writes of different types with a flush between them. -/
theorem fcgiOutput_framed_two : ∃ req records tail,
    (runOutput [.write .stdout [72, 105], .flush, .write .stderr [33]] >>= fun _ => fcgiEnd)
      (.start 1 true blankBuffer fun _ => none) = .ok (1, req) ∧
    readRecords req.socket.sent = some (records ++ [lastRecord 1 tail]) ∧
    contents stdout.code records = [72, 105] ∧
    contents stderr.code records = [33] := by
  obtain ⟨req, records, tail, hrn, hr, -, -, -, ha⟩ := fcgiOutput_framed 1 true blankBuffer
    [.write .stdout [72, 105], .flush, .write .stderr [33]] (by simp [OutputCall.Allowed])
  exact ⟨req, records, tail, hrn, hr, (ha .stdout).1, (ha .stderr).1⟩

/-- 8183 bytes of standard output leave no room behind the padded packet, whatever they are. -/
lemma emptyRecord_of_length {str : List UInt8} (hl : str.length = 8183) : ∃ req records tail,
    (runOutput [.write .stdout str, .write .stderr [66]] >>= fun _ => fcgiEnd)
      (.start 1 true blankBuffer fun _ => none) = .ok (1, req) ∧
    readRecords req.socket.sent = some (records ++ [lastRecord 1 tail]) ∧
    HasEmpty stderr.code records := by
  have hne : str ≠ [] := ne_nil_of_length_pos (by omega)
  obtain ⟨_, req1, hrun1, h1⟩ : Ends (fcgiWrite .stdout str)
      (.start 1 true blankBuffer fun _ => none) fun _ req' =>
        Framed 1 req' [] [] (some ⟨stdout.code, str⟩) :=
    fcgiWrite_first (start_ready 1 true blankBuffer).framed
      hne (by rw [hl]; norm_num [outBufSize, headerSize])
  obtain ⟨hhd, hp, -, -⟩ := h1.continues
  have hr : Ready 1 req1 [] [] (some ⟨stdout.code, str⟩) := by
    refine ⟨h1, by simp, ?_, ?_⟩
    · rintro _ ⟨⟩
      exact hne
    · rintro _ ⟨⟩
      rw [hl]
      norm_num [outBufSize]
  have hno : FindsNoRoom req1 .stderr [66] := by
    refine ⟨⟨_, hhd, ?_, ?_⟩, by norm_num [outBufSize, headerSize]⟩
    · rw [h1.typeAt]
      exact (by decide : stdout.code ≠ stderr.code)
    · rw [hp, hl]
      norm_num [outBufSize]
  obtain ⟨_, req2, hrun2, -, sent, buffered, current, h2, het⟩ : Ends (fcgiWrite .stderr [66]) req1
      (Written 1 .stderr [66] (FindsNoRoom req1 .stderr [66]) _) :=
    fcgiWrite_written hr (cons_ne_nil (66 : UInt8) [])
  obtain ⟨_, req, hen, rfl, tail, -, hrd⟩ := fcgiEnd_sent h2
  refine ⟨req, _, tail, ?_, hrd, (het.hasEmpty_iff _).mpr (.inr ⟨rfl, hno⟩)⟩
  simp only [runOutput, OutputCall.run, bind, StateT.bind, hrun1, hrun2, Except.bind]
  exact hen

/-- **An empty record.** The one byte of standard error after 8183 bytes of standard output is sent
behind an empty record of its type, which ends the stream for the peer. -/
theorem fcgiOutput_emptyRecord : ∃ req records tail,
    (runOutput [.write .stdout (replicate 8183 65), .write .stderr [66]] >>= fun _ => fcgiEnd)
      (.start 1 true blankBuffer fun _ => none) = .ok (1, req) ∧
    readRecords req.socket.sent = some (records ++ [lastRecord 1 tail]) ∧
    HasEmpty stderr.code records :=
  emptyRecord_of_length length_replicate

end PhpInternals.Main.Fastcgi
