import DailyReadCoding.Srs.ChunkSend

/-!
# Messages sent in chunks and received again

The sender repeats an extended timestamp in every chunk of a message, and the receiver compares it
with the one it has: they agree, so that it never takes payload for a timestamp or the other way
round.  The state of a chunk stream depends on the chunks of that stream alone, and so the order in
which chunks of different streams arrive does not matter.
-/

namespace Srs.Rtmp

open List Function SharedPtrMessage Nat

open ByteMemory (Byte)
open BigEndian

/-! ## One chunk read -/

/-- The messages of the round trip. -/
structure SharedPtrMessage.Valid (msg : SharedPtrMessage) : Prop where
  cid : 2 ≤ msg.perferCid ∧ msg.perferCid ≤ 63
  timestamp : msg.timestamp < 2 ^ 31
  nonempty : msg.payload ≠ []
  length : msg.payload.length < 2 ^ 24

instance (msg : SharedPtrMessage) : Decidable msg.Valid :=
  decidable_of_iff ((2 ≤ msg.perferCid ∧ msg.perferCid ≤ 63) ∧ msg.timestamp < 2 ^ 31 ∧
    msg.payload ≠ [] ∧ msg.payload.length < 2 ^ 24)
    ⟨fun ⟨h₁, h₂, h₃, h₄⟩ => ⟨h₁, h₂, h₃, h₄⟩, fun ⟨h₁, h₂, h₃, h₄⟩ => ⟨h₁, h₂, h₃, h₄⟩⟩

/-- The header a message is received with. -/
def SharedPtrMessage.messageHeader (msg : SharedPtrMessage) : MessageHeader where
  timestampDelta := min msg.timestamp RTMP_EXTENDED_TIMESTAMP
  payloadLength := msg.payload.length
  messageType := msg.messageType
  streamId := msg.streamId
  timestamp := msg.timestamp
  perferCid := msg.perferCid

/-- The message that is received. -/
def SharedPtrMessage.received (msg : SharedPtrMessage) : CommonMessage :=
  ⟨msg.messageHeader, some msg.payload.length, msg.payload⟩

/-- A chunk stream with the first `i` chunks of a message, after the header of a chunk. -/
def SharedPtrMessage.stream (size cid n : ℕ) (msg : SharedPtrMessage) (i : ℕ) : ChunkStream where
  cid := cid
  header := msg.messageHeader
  extendedTimestamp := RTMP_EXTENDED_TIMESTAMP ≤ msg.timestamp
  msg := some ⟨msg.messageHeader, if i = 0 then none else some msg.payload.length,
    msg.payload.take (i * size)⟩
  msgCount := n + 1

/-- The first byte of a chunk. -/
def basicHeader (fmt cid : ℕ) : Byte := BitVec.ofNat 8 (fmt <<< 6 ||| (cid &&& 0x3F))

variable {limit fmt cid i n : ℕ}

lemma Consumes.byte {β : Type} {message : Message} {bt : Byte}
    {f : Byte → Exec Io Error β} {cs : List Byte} {b : β} (hlimit : 1 ≤ limit)
    (hf : Consumes limit (f bt) cs b) :
    Consumes limit (Srs.wrapped message (grow 1) >>= fun _ => read1byte >>= f) (bt :: cs) b := by
  have hread : (read1byte >>= f : Exec Io Error β) = readSlice 1 >>= _ := bind_assoc _ _ _
  rw [hread]
  refine (Consumes.slice rfl hlimit ?_ : Consumes limit _ ([bt] ++ cs) b)
  exact hf

lemma basicHeader_fields : ∀ fmt < 4, ∀ cid < 64, (basicHeader fmt cid).toNat &&& 0x3f = cid ∧
      ((basicHeader fmt cid).toNat >>> 6) &&& 0x03 = fmt := by
  decide +kernel

lemma consumes_readBasicHeader (hlimit : 1 ≤ limit) (hfmt : fmt < 4) (hcid : 2 ≤ cid ∧ cid ≤ 63) :
    Consumes limit readBasicHeader [basicHeader fmt cid] (fmt, cid) := by
  obtain ⟨hc, hf⟩ := basicHeader_fields fmt hfmt cid (by omega)
  refine Consumes.byte hlimit ?_
  rw [hc, hf, if_pos (by omega)]
  exact Consumes.pure _

/-- The timestamp as it is in the first header. -/
def SharedPtrMessage.delta (msg : SharedPtrMessage) : List Byte :=
  if msg.timestamp < RTMP_EXTENDED_TIMESTAMP then toBytes 3 msg.timestamp else [0xFF, 0xFF, 0xFF]

variable {chunk : ChunkStream}

section Valid

variable {msg : SharedPtrMessage} (hvalid : msg.Valid)

include hvalid

lemma SharedPtrMessage.Valid.timestamp_mod : msg.timestamp % 2 ^ 32 = msg.timestamp := by
  have := hvalid.timestamp
  exact mod_eq_of_lt (by omega)

lemma SharedPtrMessage.Valid.timestamp_and : msg.timestamp &&& 0x7fffffff = msg.timestamp := by
  have hmask : 0x7fffffff = 2 ^ 31 - 1 := by decide
  rw [hmask, and_two_pow_sub_one_eq_mod, mod_eq_of_lt hvalid.timestamp]

lemma header_first : msg.header true = basicHeader 0 msg.perferCid ::
    (msg.delta ++ toBytes 3 msg.payload.length ++ [msg.messageType]
      ++ (toBytes 4 msg.streamId.toNat).reverse ++ extendedTimestamp msg.timestamp) := by
  conv_rhs => rw [delta, ← hvalid.timestamp_mod]
  rfl

lemma header_next :
    msg.header false = basicHeader 3 msg.perferCid :: extendedTimestamp msg.timestamp := by
  conv_rhs => rw [← hvalid.timestamp_mod]
  rfl

omit hvalid in
lemma length_delta : msg.delta.length = 3 := by
  rw [delta]
  split_ifs <;> simp

omit hvalid in
lemma ofBytes_delta : ofBytes msg.delta = min msg.timestamp RTMP_EXTENDED_TIMESTAMP := by
  have hext : RTMP_EXTENDED_TIMESTAMP = 256 ^ 3 - 1 := by decide
  rw [delta]
  split_ifs with hlt
  · rw [ofBytes_toBytes_of_lt (by omega)]
    omega
  · have hmax : ofBytes [0xFF, 0xFF, 0xFF] = RTMP_EXTENDED_TIMESTAMP := by decide
    omega

lemma parseMessageHeader_first (chunk : ChunkStream) :
    parseMessageHeader 0 true (msg.delta ++ toBytes 3 msg.payload.length ++ [msg.messageType]
        ++ (toBytes 4 msg.streamId.toNat).reverse) chunk = .ok { chunk with
        header := { msg.messageHeader with
          timestamp := if RTMP_EXTENDED_TIMESTAMP ≤ msg.timestamp then chunk.header.timestamp
            else msg.timestamp
          perferCid := chunk.header.perferCid }
        extendedTimestamp := RTMP_EXTENDED_TIMESTAMP ≤ msg.timestamp } := by
  have hlen : ofBytes (toBytes 3 msg.payload.length) = msg.payload.length :=
    ofBytes_toBytes_of_lt hvalid.length
  have hsid : BitVec.ofNat 32 (ofBytes (toBytes 4 msg.streamId.toNat)) = msg.streamId :=
    ofNat_ofBytes_toBytes 4 msg.streamId
  have hext : RTMP_EXTENDED_TIMESTAMP ≤ min msg.timestamp RTMP_EXTENDED_TIMESTAMP ↔
      RTMP_EXTENDED_TIMESTAMP ≤ msg.timestamp := by omega
  simp only [append_assoc]
  rw [parseMessageHeader, take_left' length_delta, drop_left' length_delta,
    take_left' (length_toBytes _ _)]
  have htype : (msg.delta ++ (toBytes 3 msg.payload.length ++ ([msg.messageType] ++
      (toBytes 4 msg.streamId.toNat).reverse))).getD 6 0 = msg.messageType := by
    simp [getD, length_delta]
  have hrest : ((msg.delta ++ (toBytes 3 msg.payload.length ++ ([msg.messageType] ++
      (toBytes 4 msg.streamId.toNat).reverse))).drop 7).take 4 =
        (toBytes 4 msg.streamId.toNat).reverse := by
    have hseven :
      (msg.delta ++ (toBytes 3 msg.payload.length ++ [msg.messageType])).length = 7 := by
      simp [length_delta]
    rw [← append_assoc (toBytes 3 _), ← append_assoc, drop_left' hseven]
    exact take_of_length_le (by simp)
  rw [htype, hrest, reverse_reverse, ofBytes_delta, hlen, hsid]
  by_cases hts : RTMP_EXTENDED_TIMESTAMP ≤ msg.timestamp
  · simp [hts, messageHeader]
  · have hmin : min msg.timestamp RTMP_EXTENDED_TIMESTAMP = msg.timestamp := by omega
    simp [hts, hmin, messageHeader]

/-- The extended timestamp of a chunk is the one of the message, and is never pushed back. -/
lemma consumes_readExtendedTimestamp (hlimit : 4 ≤ limit) {first : Bool}
    (hchunk : first = false → chunk.header.timestamp = msg.timestamp) :
    Consumes limit (readExtendedTimestamp first chunk) (toBytes 4 msg.timestamp)
      { chunk with header := { chunk.header with timestamp := msg.timestamp } } := by
  have hbytes : ofBytes (toBytes 4 msg.timestamp) &&& 0x7fffffff = msg.timestamp := by
    have := hvalid.timestamp
    rw [ofBytes_toBytes_of_lt (by omega), hvalid.timestamp_and]
  have hsame : ¬ (((!first) = true) ∧ chunk.header.timestamp % 2 ^ 32 > 0 ∧
      chunk.header.timestamp % 2 ^ 32 ≠ msg.timestamp) := by
    rintro ⟨hfirst, -, hne⟩
    rw [Bool.not_eq_true'] at hfirst
    exact hne (by rw [hchunk hfirst, hvalid.timestamp_mod])
  refine Consumes.slice (length_toBytes 4 _) hlimit ?_
  rw [hbytes, if_neg hsame]
  exact Consumes.pure _

end Valid

section

variable {msg : SharedPtrMessage}

lemma consumes_timestamp (hvalid : msg.Valid) (hlimit : 4 ≤ limit) {first : Bool}
    (hchunk : first = false → chunk.header.timestamp = msg.timestamp)
    (hext : chunk.extendedTimestamp = decide (RTMP_EXTENDED_TIMESTAMP ≤ msg.timestamp))
    (hshort : ¬ RTMP_EXTENDED_TIMESTAMP ≤ msg.timestamp → chunk.header.timestamp = msg.timestamp) :
    Consumes limit (if chunk.extendedTimestamp then readExtendedTimestamp first chunk
        else pure chunk) (extendedTimestamp msg.timestamp)
      { chunk with header := { chunk.header with timestamp := msg.timestamp } } := by
  by_cases hts : RTMP_EXTENDED_TIMESTAMP ≤ msg.timestamp
  · have hflag : chunk.extendedTimestamp = true := hext.trans (decide_eq_true hts)
    rw [extendedTimestamp, if_pos hts, if_pos hflag]
    exact consumes_readExtendedTimestamp hvalid hlimit hchunk
  · have hflag : ¬ chunk.extendedTimestamp = true := by simpa [hext] using hts
    rw [extendedTimestamp, if_neg hts, if_neg hflag, ← hshort hts]
    exact Consumes.pure chunk

lemma commitHeader_stream (hvalid : msg.Valid) {size : ℕ} {common : CommonMessage}
    (hheader : chunk.header = msg.messageHeader)
    (hext : chunk.extendedTimestamp = decide (RTMP_EXTENDED_TIMESTAMP ≤ msg.timestamp))
    (hcapacity : common.capacity = if i = 0 then none else some msg.payload.length)
    (hpayload : common.payload = msg.payload.take (i * size)) :
    commitHeader common chunk = msg.stream size chunk.cid chunk.msgCount i := by
  have hand : msg.messageHeader.timestamp &&& 0x7fffffff = msg.messageHeader.timestamp :=
    hvalid.timestamp_and
  rw [commitHeader, hheader, hand, hext, hcapacity, hpayload]
  rfl

/-- The fields, the extended timestamp, and the copy for the message. -/
lemma consumes_readMessageHeader {chunk1 chunk2 : ChunkStream}
    {bs cs : List Byte} (hcheck : checkFmt chunk fmt = .ok ())
    (hfields : Consumes limit (readHeaderFields fmt chunk.msg.isNone chunk) bs chunk1)
    (htime : Consumes limit (if chunk1.extendedTimestamp then
      readExtendedTimestamp chunk.msg.isNone chunk1 else pure chunk1) cs chunk2) :
    Consumes limit (readMessageHeader chunk fmt) (bs ++ cs)
      (commitHeader (chunk.msg.getD .new) chunk2) := by
  have hskip : Consumes limit (liftM (Except.ok () : Except Error Unit)) [] () :=
    fun io _ hio => ⟨io, rfl, hio⟩
  rw [readMessageHeader, hcheck, ← append_nil cs]
  refine hskip.bind (hfields.bind ?_)
  split_ifs at htime ⊢
  · exact htime.bind (Consumes.pure _)
  · exact htime.bind (Consumes.pure _)

/-- The header of the first chunk. -/
theorem consumes_readMessageHeader_first (hvalid : msg.Valid)
    (hlimit : 11 ≤ limit) (hidle : chunk.msg = none)
    (hcid : chunk.header.perferCid = msg.perferCid) (size : ℕ) :
    Consumes limit (readMessageHeader chunk 0)
      (msg.delta ++ toBytes 3 msg.payload.length ++ [msg.messageType]
        ++ (toBytes 4 msg.streamId.toNat).reverse ++ extendedTimestamp msg.timestamp)
      (msg.stream size chunk.cid chunk.msgCount 0) := by
  have hcheck : checkFmt chunk 0 = .ok () := by simp [checkFmt, hidle]
  have hfirst : chunk.msg.isNone = true := by rw [hidle]; rfl
  have hlength : (msg.delta ++ toBytes 3 msg.payload.length ++ [msg.messageType]
      ++ (toBytes 4 msg.streamId.toNat).reverse).length = 11 := by
    simp [length_delta]
  -- an extended timestamp is not known before it is read
  set chunk1 : ChunkStream := { chunk with
    header := { msg.messageHeader with
      timestamp := if RTMP_EXTENDED_TIMESTAMP ≤ msg.timestamp then chunk.header.timestamp
        else msg.timestamp
      perferCid := chunk.header.perferCid }
    extendedTimestamp := RTMP_EXTENDED_TIMESTAMP ≤ msg.timestamp } with hchunk1
  have hfields : Consumes limit (readHeaderFields 0 chunk.msg.isNone chunk)
      (msg.delta ++ toBytes 3 msg.payload.length ++ [msg.messageType]
        ++ (toBytes 4 msg.streamId.toNat).reverse) chunk1 := by
    rw [← append_nil (_ ++ (toBytes 4 _).reverse), readHeaderFields, if_pos (by decide), hfirst]
    refine Consumes.slice hlength hlimit ?_
    rw [parseMessageHeader_first hvalid]
    exact Consumes.pure _
  have htime : Consumes limit (if chunk1.extendedTimestamp then
      readExtendedTimestamp chunk.msg.isNone chunk1 else pure chunk1) _ _ :=
    consumes_timestamp hvalid (by omega) (by simp [hfirst]) rfl (fun h => if_neg h)
  have hheader : { chunk1.header with timestamp := msg.timestamp } = msg.messageHeader := by
    dsimp only
    rw [hcid]
    rfl
  have hcommit : commitHeader (chunk.msg.getD .new)
      { chunk1 with header := { chunk1.header with timestamp := msg.timestamp } } =
        msg.stream size chunk.cid chunk.msgCount 0 := by
    rw [hidle]
    exact commitHeader_stream hvalid hheader rfl rfl (by simp [CommonMessage.new])
  rw [← hcommit]
  exact consumes_readMessageHeader hcheck hfields htime

/-- The header of the other chunks. -/
theorem consumes_readMessageHeader_next (hvalid : msg.Valid) {size : ℕ} (hlimit : 4 ≤ limit) :
    Consumes limit (readMessageHeader (msg.stream size cid n i) 3)
      (extendedTimestamp msg.timestamp) (msg.stream size cid (n + 1) i) := by
  have hfields : Consumes limit (readHeaderFields 3 false (msg.stream size cid n i)) []
      (msg.stream size cid n i) := Consumes.pure _
  have htime : Consumes limit (if (msg.stream size cid n i).extendedTimestamp then
      readExtendedTimestamp false (msg.stream size cid n i)
      else pure (msg.stream size cid n i)) _ _ :=
    consumes_timestamp hvalid hlimit (fun _ => rfl) rfl (fun _ => rfl)
  have hcheck : checkFmt (msg.stream size cid n i) 3 = .ok () := by simp [checkFmt, stream]
  have hcommit : commitHeader ((msg.stream size cid n i).msg.getD .new) (msg.stream size cid n i) =
      msg.stream size cid (n + 1) i := commitHeader_stream hvalid rfl rfl rfl rfl
  rw [← hcommit]
  exact consumes_readMessageHeader hcheck hfields htime

/-- The chunk that is expected after one. -/
def Piece.next (size : ℕ) (pc : Piece) : Option Piece :=
  if (pc.index + 1) * size < pc.msg.payload.length then some ⟨pc.msg, pc.index + 1⟩ else none

/-- What is returned for a chunk: the message, if it is the last one. -/
def Piece.outcome (size : ℕ) (pc : Piece) : Option CommonMessage :=
  if (pc.index + 1) * size < pc.msg.payload.length then none else some pc.msg.received

/-- The chunk stream after a chunk. -/
def SharedPtrMessage.streamAfter (size cid n : ℕ) (msg : SharedPtrMessage) (i : ℕ) : ChunkStream :=
  if (i + 1) * size < msg.payload.length then msg.stream size cid n (i + 1)
  else { msg.stream size cid n i with msg := none }

/-- The payload of a chunk. -/
theorem consumes_readMessagePayload {size : ℕ}
    (hlimit : size ≤ limit) (hi : i * size < msg.payload.length) :
    Consumes limit (readMessagePayload size (msg.stream size cid n i)) (Piece.data size ⟨msg, i⟩)
      (Piece.outcome size ⟨msg, i⟩, msg.streamAfter size cid n i) := by
  have hdata : (Piece.data size ⟨msg, i⟩).length = min (msg.payload.length - i * size) size := by
    rw [Piece.data, length_take, length_drop, Nat.min_comm]
  have htaken : (msg.payload.take (i * size)).length = i * size := by
    rw [length_take]
    omega
  have hjoin : msg.payload.take (i * size) ++ Piece.data size ⟨msg, i⟩ =
      msg.payload.take ((i + 1) * size) := by
    rw [succ_mul, take_add]
    rfl
  have hcapacity : (if i = 0 then none else some msg.payload.length).getD msg.payload.length =
      msg.payload.length := by
    split_ifs <;> rfl
  have hmsg : (msg.stream size cid n i).msg = some ⟨msg.messageHeader,
      if i = 0 then none else some msg.payload.length, msg.payload.take (i * size)⟩ := rfl
  have hlen : (msg.stream size cid n i).header.payloadLength = msg.payload.length := rfl
  have hempty : ¬ msg.payload.length ≤ 0 := by omega
  have hfits : ¬ msg.payload.length < i * size + (Piece.data size ⟨msg, i⟩).length := by omega
  rw [← append_nil (Piece.data _ _), readMessagePayload, hmsg]
  dsimp only
  rw [hlen, if_neg hempty, htaken, hcapacity]
  refine Consumes.slice hdata (by omega) ?_
  rw [if_neg hfits, hjoin]
  rw [Piece.outcome, streamAfter]
  by_cases hmore : (i + 1) * size < msg.payload.length
  · have hpart : ¬ msg.payload.length = (msg.payload.take ((i + 1) * size)).length := by
      rw [length_take]
      omega
    rw [if_pos hmore, if_pos hmore, if_neg hpart]
    exact Consumes.pure _
  · rw [if_neg hmore, if_neg hmore, take_of_length_le (Nat.le_of_not_lt hmore), if_pos rfl]
    exact Consumes.pure _

/-! ## Any interleaving -/

/-- A chunk stream that is waiting for a new message, or for a chunk. -/
def Expects (size cid : ℕ) : Option Piece → ChunkStream → Prop
  | none, chunk => chunk.msg = none ∧ chunk.header.perferCid = cid
  | some pc, chunk => 0 < pc.index ∧ pc.index * size < pc.msg.payload.length ∧
      ∃ c n, chunk = pc.msg.stream size c n pc.index

/-- A chunk is the first one of its message, or the one that is expected. -/
def Piece.Follows (pc : Piece) : Option Piece → Prop
  | none => pc.index = 0
  | some pc' => pc = pc'

lemma expects_streamAfter (size cid n : ℕ) (pc : Piece) :
    Expects size pc.msg.perferCid (pc.next size) (pc.msg.streamAfter size cid n pc.index) := by
  rw [Piece.next, streamAfter]
  split_ifs with hmore
  · exact ⟨succ_pos _, hmore, cid, n, rfl⟩
  · exact ⟨rfl, rfl⟩

lemma consumes_header (hvalid : msg.Valid) {size : ℕ} {o : Option Piece}
    (hlimit : 11 ≤ limit) (hchunk : Expects size msg.perferCid o chunk)
    (hfollows : Piece.Follows ⟨msg, i⟩ o) :
    ∃ fmt bs c n, fmt < 4 ∧ msg.header (i = 0) = basicHeader fmt msg.perferCid :: bs ∧
      Consumes limit (readMessageHeader chunk fmt) bs (msg.stream size c n i) := by
  cases o with
  | none =>
    obtain ⟨hidle, hcid⟩ := hchunk
    obtain rfl : i = 0 := hfollows
    exact ⟨0, _, _, _, by decide, header_first hvalid,
      consumes_readMessageHeader_first hvalid hlimit hidle hcid size⟩
  | some pc =>
    obtain rfl : (⟨msg, i⟩ : Piece) = pc := hfollows
    obtain ⟨hpos, -, c, n, rfl⟩ := hchunk
    have hnext : decide (i = 0) = false := decide_eq_false (Nat.ne_of_gt hpos)
    rw [hnext]
    exact ⟨3, _, _, _, by decide, header_next hvalid,
      consumes_readMessageHeader_next hvalid (by omega)⟩

end

/-- **One chunk**, read in the state that the chunks of its stream before it left. -/
theorem consumes_readChunk {size : ℕ} {pc : Piece} {o : Option Piece}
    {chunks : ℕ → ChunkStream} (hvalid : pc.msg.Valid) (hlimit : 11 ≤ limit)
    (hle : size ≤ limit) (hpc : pc.index * size < pc.msg.payload.length)
    (hchunk : Expects size pc.msg.perferCid o (chunks pc.msg.perferCid)) (hfollows : pc.Follows o) :
    ∃ chunk, Consumes limit (readChunk size chunks) (pc.bytes size)
        (pc.outcome size, pc.msg.perferCid, chunk) ∧
      Expects size pc.msg.perferCid (pc.next size) chunk := by
  obtain ⟨fmt, bs, c, n, hfmt, hbytes, hheader⟩ := consumes_header hvalid hlimit hchunk hfollows
  have hbasic : Consumes limit readBasicHeader [basicHeader fmt pc.msg.perferCid]
      (fmt, pc.msg.perferCid) := consumes_readBasicHeader (by omega) hfmt hvalid.cid
  have hpayload : Consumes limit (readMessagePayload size (pc.msg.stream size c n pc.index))
      (pc.data size) (pc.outcome size, pc.msg.streamAfter size c n pc.index) :=
    consumes_readMessagePayload hle hpc
  refine ⟨pc.msg.streamAfter size c n pc.index, ?_, expects_streamAfter size c n pc⟩
  rw [Piece.bytes, hbytes, ← append_nil (pc.data size)]
  exact hbasic.wrapped.bind (hheader.wrapped.bind (hpayload.wrapped.bind (Consumes.pure _)))

@[simp] lemma chunk_setChunk (r : Receiver) (cid cid' : ℕ) (chunk : ChunkStream) :
    (r.setChunk cid chunk).chunk cid' = if cid' = cid then chunk else r.chunk cid' := by
  by_cases hcache : cid < SRS_PERF_CHUNK_STREAM_CACHE
  · by_cases hcid : cid' = cid
    · subst hcid
      simp [Receiver.setChunk, Receiver.chunk, hcache]
    · simp [Receiver.setChunk, Receiver.chunk, hcache, hcid]
  · by_cases hcid : cid' = cid
    · subst hcid
      simp [Receiver.setChunk, Receiver.chunk, hcache]
    · simp [Receiver.setChunk, Receiver.chunk, hcache, hcid]

/-- A receiver whose streams are waiting for the chunks in `pend`, and the bytes to come. -/
structure Receiver.Holds (size : ℕ) (pend : ℕ → Option Piece) (bs : List Byte) (r : Receiver) :
    Prop where
  chunkSize : r.inChunkSize = size
  chunks : ∀ cid, Expects size cid (pend cid) (r.chunk cid)
  unread : r.io.Unread 65536 bs

/-- A new receiver waits for nothing. -/
lemma holds_new (size : ℕ) (skt : Socket) :
    (Receiver.new size skt).Holds size (fun _ => none) skt.incoming := by
  have hlimit : 65536 ≤ SRS_DEFAULT_RECV_BUFFER_SIZE := by decide
  refine ⟨rfl, fun cid => ?_, rfl, Nat.zero_le _, hlimit⟩
  have hnew : (Receiver.new size skt).chunk cid = .new cid := by
    rw [Receiver.chunk]
    split_ifs <;> rfl
  rw [hnew]
  exact ⟨rfl, rfl⟩

variable {size : ℕ}

/-- One call of the receiver; only the stream of the chunk changes. -/
theorem recvInterlacedMessage_spec (hle : size ≤ 65536) {pend : ℕ → Option Piece} {pc : Piece}
    {bs : List Byte} {r : Receiver} (hr : r.Holds size pend (pc.bytes size ++ bs))
    (hvalid : pc.msg.Valid) (hpc : pc.index * size < pc.msg.payload.length)
    (hfollows : pc.Follows (pend pc.msg.perferCid)) :
    ∃ r', recvInterlacedMessage r = .ok (pc.outcome size, r') ∧
      r'.Holds size (update pend pc.msg.perferCid (pc.next size)) bs := by
  obtain ⟨chunk, hread, hchunk⟩ :=
    consumes_readChunk hvalid (by decide) hle hpc (hr.chunks pc.msg.perferCid) hfollows
  obtain ⟨io, hio, hunread⟩ := hread r.io bs hr.unread
  refine ⟨({ r with io := io } : Receiver).setChunk pc.msg.perferCid chunk, ?_, ?_, ?_, ?_⟩
  · rw [recvInterlacedMessage, hr.chunkSize, hio]
    rfl
  · rw [← hr.chunkSize, Receiver.setChunk]
    split_ifs <;> rfl
  · intro cid
    rw [chunk_setChunk]
    by_cases hcid : cid = pc.msg.perferCid
    · subst hcid
      rw [if_pos rfl, update_self]
      exact hchunk
    · rw [if_neg hcid, update_of_ne hcid]
      exact hr.chunks cid
  · rw [Receiver.setChunk]
    split_ifs <;> exact hunread

/-- The chunks that are expected on a stream before the next message. -/
def restOf (size : ℕ) : Option Piece → List Piece
  | none => []
  | some pc => piecesFrom size pc.msg pc.index

/-- On every stream the chunks are those of the messages in `queue`, behind the rest of the one
that is being received. -/
structure InOrder (size : ℕ) (pend : ℕ → Option Piece) (queue : ℕ → List SharedPtrMessage)
    (chunks : List Piece) : Prop where
  pending : ∀ cid pc, pend cid = some pc →
    pc.msg.Valid ∧ pc.index * size < pc.msg.payload.length
  valid : ∀ cid, ∀ msg ∈ queue cid, msg.Valid
  order : ∀ cid, chunks.filter (·.msg.perferCid = cid) =
    restOf size (pend cid) ++ (queue cid).flatMap (pieces size)

lemma restOf_next (hsize : 0 < size) (pc : Piece) :
    restOf size (pc.next size) = piecesFrom size pc.msg (pc.index + 1) := by
  rw [Piece.next]
  split_ifs with hmore
  · rfl
  · exact (piecesFrom_of_le (Nat.le_of_not_lt fun h => hmore ((lt_count_iff hsize).1 h))).symm

section InOrder

variable {pend : ℕ → Option Piece} {queue : ℕ → List SharedPtrMessage} {pc : Piece}
  {chunks : List Piece}

lemma InOrder.tail (hsize : 0 < size) (h : InOrder size pend queue (pc :: chunks))
    (hvalid : pc.msg.Valid) {msgs : List SharedPtrMessage} (hmsgs : ∀ msg ∈ msgs, msg.Valid)
    (hrest : chunks.filter (·.msg.perferCid = pc.msg.perferCid) =
      piecesFrom size pc.msg (pc.index + 1) ++ msgs.flatMap (pieces size)) :
    InOrder size (update pend pc.msg.perferCid (pc.next size))
      (update queue pc.msg.perferCid msgs) chunks := by
  refine ⟨?_, ?_, ?_⟩
  · intro cid pc' hpc'
    by_cases hcid : cid = pc.msg.perferCid
    · subst hcid
      rw [update_self, Piece.next] at hpc'
      split_ifs at hpc' with hmore
      obtain rfl := Option.some.inj hpc'
      exact ⟨hvalid, hmore⟩
    · rw [update_of_ne hcid] at hpc'
      exact h.pending cid pc' hpc'
  · intro cid
    by_cases hcid : cid = pc.msg.perferCid
    · subst hcid
      rwa [update_self]
    · rw [update_of_ne hcid]
      exact h.valid cid
  · intro cid
    by_cases hcid : cid = pc.msg.perferCid
    · subst hcid
      rw [update_self, update_self, restOf_next hsize]
      exact hrest
    · rw [update_of_ne hcid, update_of_ne hcid, ← h.order cid,
        filter_cons_of_neg (by simpa using Ne.symm hcid)]

/-- The first chunk is one that can be received, and the others are in order behind it. -/
lemma InOrder.head (hsize : 0 < size) (h : InOrder size pend queue (pc :: chunks)) :
    pc.msg.Valid ∧ pc.index * size < pc.msg.payload.length ∧ pc.Follows (pend pc.msg.perferCid) ∧
      ∃ queue', InOrder size (update pend pc.msg.perferCid (pc.next size)) queue' chunks := by
  have horder := h.order pc.msg.perferCid
  rw [filter_cons_of_pos (by simp)] at horder
  cases hpend : pend pc.msg.perferCid with
  | some pc' =>
    -- a message is being received: its next chunk
    obtain ⟨hvalid, hlt⟩ := h.pending _ pc' hpend
    rw [hpend, restOf, piecesFrom_of_lt ((lt_count_iff hsize).2 hlt)] at horder
    obtain ⟨rfl, hrest⟩ := cons.inj horder
    exact ⟨hvalid, hlt, rfl, _, h.tail hsize hvalid (h.valid _) hrest⟩
  | none =>
    -- the first chunk of the next message
    rw [hpend] at horder
    cases hqueue : queue pc.msg.perferCid with
    | nil =>
      rw [hqueue] at horder
      cases horder
    | cons msg msgs =>
      have hvalid : ∀ m ∈ msg :: msgs, m.Valid := hqueue ▸ h.valid pc.msg.perferCid
      have hmsg := hvalid msg mem_cons_self
      have hlt : 0 * size < msg.payload.length := by
        rw [Nat.zero_mul]
        exact length_pos_iff.2 hmsg.nonempty
      rw [hqueue, flatMap_cons, pieces, piecesFrom_of_lt ((lt_count_iff hsize).2 hlt)] at horder
      obtain ⟨rfl, hrest⟩ := cons.inj horder
      exact ⟨hmsg, hlt, rfl, _, h.tail hsize hmsg
        (fun m hm => hvalid m (mem_cons_of_mem _ hm)) hrest⟩

end InOrder

/-- **The run of the receiver** on chunks in order. -/
theorem recvMessages_spec (hsize : 0 < size) (hle : size ≤ 65536) (chunks : List Piece) :
    ∀ (pend : ℕ → Option Piece) (queue : ℕ → List SharedPtrMessage) (r : Receiver),
    InOrder size pend queue chunks → r.Holds size pend (chunks.flatMap (Piece.bytes size)) →
    ∃ r', recvMessages chunks.length r = .ok (chunks.map (Piece.outcome size), r') ∧
      r'.io.Unread 65536 [] := by
  induction chunks with
  | nil =>
    intro pend queue r _ hr
    exact ⟨r, rfl, hr.unread⟩
  | cons pc chunks ih =>
    intro pend queue r horder hr
    obtain ⟨hvalid, hpc, hfollows, queue', horder'⟩ := horder.head hsize
    obtain ⟨r1, hrun1, hr1⟩ := recvInterlacedMessage_spec hle hr hvalid hpc hfollows
    obtain ⟨r2, hrun2, hunread⟩ := ih _ queue' r1 horder' hr1
    refine ⟨r2, ?_, hunread⟩
    rw [length_cons, recvMessages, hrun1]
    change (recvMessages chunks.length r1 >>= _) = _
    rw [hrun2]
    rfl

/-! ## The round trip -/

/-- Messages one after the other are an interleaving. -/
lemma filter_pieces (msgs : List SharedPtrMessage) (cid : ℕ) :
    (msgs.flatMap (pieces size)).filter (·.msg.perferCid = cid) =
      (msgs.filter (·.perferCid = cid)).flatMap (pieces size) := by
  induction msgs with
  | nil => rfl
  | cons msg msgs ih =>
    rw [flatMap_cons, filter_append, ih]
    by_cases hcid : msg.perferCid = cid
    · have hall : (pieces size msg).filter (·.msg.perferCid = cid) = pieces size msg :=
        filter_eq_self.2 (by simp [pieces, piecesFrom, hcid])
      rw [hall, filter_cons_of_pos (by simpa using hcid), flatMap_cons]
    · have hnone : (pieces size msg).filter (·.msg.perferCid = cid) = [] :=
        filter_eq_nil_iff.2 (by simp [pieces, piecesFrom, hcid])
      rw [hnone, nil_append, filter_cons_of_neg (by simpa using hcid)]

/-- Only the last chunk gives the message. -/
lemma filterMap_outcome_piecesFrom (hsize : 0 < size) (msg : SharedPtrMessage) :
    ∀ n i, count size msg - i = n → i * size < msg.payload.length →
    ((piecesFrom size msg i).map (Piece.outcome size)).filterMap id = [msg.received] := by
  intro n
  induction n with
  | zero =>
    intro i hn hi
    exact absurd ((lt_count_iff hsize).2 hi) (by omega)
  | succ n ih =>
    intro i hn hi
    rw [piecesFrom_of_lt ((lt_count_iff hsize).2 hi), map_cons, Piece.outcome]
    split_ifs with hmore
    · exact ih (i + 1) (by omega) hmore
    · have hcount : count size msg ≤ i + 1 :=
        Nat.le_of_not_lt fun h => hmore ((lt_count_iff hsize).1 h)
      rw [piecesFrom_of_le hcount]
      rfl

lemma filterMap_outcome_pieces (hsize : 0 < size) (msgs : List SharedPtrMessage)
    (hmsgs : ∀ msg ∈ msgs, msg.Valid) :
    ((msgs.flatMap (pieces size)).map (Piece.outcome size)).filterMap id =
      msgs.map SharedPtrMessage.received := by
  induction msgs with
  | nil => rfl
  | cons msg msgs ih =>
    have hlt : 0 * size < msg.payload.length := by
      rw [Nat.zero_mul]
      exact length_pos_iff.2 (hmsgs msg mem_cons_self).nonempty
    rw [flatMap_cons, map_append, filterMap_append,
      ih fun m hm => hmsgs m (mem_cons_of_mem _ hm), pieces,
      filterMap_outcome_piecesFrom hsize msg _ 0 rfl hlt]
    rfl

/-- A new receiver on chunks that are in order on every stream. -/
lemma recvMessages_interleaving (hsize : 0 < size) (hle : size ≤ 65536)
    {queue : ℕ → List SharedPtrMessage} {chunks : List Piece}
    (hqueue : ∀ cid, ∀ msg ∈ queue cid, msg.Valid)
    (horder : ∀ cid, chunks.filter (·.msg.perferCid = cid) = (queue cid).flatMap (pieces size))
    (plan : List ℕ) :
    ∃ r, recvMessages chunks.length (Receiver.new size ⟨chunks.flatMap (Piece.bytes size), plan⟩) =
          .ok (chunks.map (Piece.outcome size), r) ∧
      r.io.inBuffer.bytes ++ r.io.skt.incoming = [] := by
  have hstart : InOrder size (fun _ => none) queue chunks :=
    ⟨fun _ _ h => (Option.some_ne_none _ h.symm).elim, hqueue, horder⟩
  obtain ⟨r, hrun, hunread⟩ := recvMessages_spec hsize hle chunks _ queue _ hstart
    (holds_new size ⟨chunks.flatMap (Piece.bytes size), plan⟩)
  exact ⟨r, hrun, hunread.bytes⟩

/-- **Messages come back.** Sent in any calls, and received from any segmentation of the bytes, they
are returned in order, with their headers and payloads. When chunks of different streams are
interleaved, each message is returned when its last chunk is read. -/
theorem chunks_roundTrip (hsize : 1 ≤ size) (hle : size ≤ 65536) :
    (∀ (calls : List (List (Option SharedPtrMessage))) (cache : ℕ → Byte),
      (∀ msg ∈ calls.flatten.filterMap id, msg.Valid) →
      ∃ s, sendCalls calls (Sender.new size cache) = .ok s ∧
        ∀ plan, ∃ n msgs r, recvMessages n (Receiver.new size ⟨s.sent, plan⟩) = .ok (msgs, r) ∧
          msgs.filterMap id = (calls.flatten.filterMap id).map SharedPtrMessage.received ∧
          r.io.inBuffer.bytes ++ r.io.skt.incoming = []) ∧
    (∀ (queue : ℕ → List SharedPtrMessage) (chunks : List Piece) (plan : List ℕ),
      (∀ cid, ∀ msg ∈ queue cid, msg.Valid) →
      (∀ cid, chunks.filter (·.msg.perferCid = cid) = (queue cid).flatMap (pieces size)) →
      ∃ r, recvMessages chunks.length
          (Receiver.new size ⟨chunks.flatMap (Piece.bytes size), plan⟩) =
            .ok (chunks.map (Piece.outcome size), r) ∧
        r.io.inBuffer.bytes ++ r.io.skt.incoming = []) := by
  refine ⟨?_, ?_⟩
  · intro calls cache hvalid
    obtain ⟨s, hsend, hsent⟩ := sendCalls_spec hsize calls _ (ready_new size cache)
    refine ⟨s, hsend, fun plan => ?_⟩
    have hqueue : ∀ cid, ∀ msg ∈ (calls.flatten.filterMap id).filter (·.perferCid = cid),
        msg.Valid := fun cid msg hmsg => hvalid msg (mem_of_mem_filter hmsg)
    obtain ⟨r, hrun, hend⟩ := recvMessages_interleaving hsize hle hqueue (filter_pieces _) plan
    have hsent' : s.sent =
        ((calls.flatten.filterMap id).flatMap (pieces size)).flatMap (Piece.bytes size) := hsent
    rw [hsent']
    exact ⟨_, _, r, hrun, filterMap_outcome_pieces hsize _ hvalid, hend⟩
  · intro queue chunks plan hqueue horder
    exact recvMessages_interleaving hsize hle hqueue horder plan

/-- Two messages, one of them with an extended timestamp, in chunks of two bytes, and their chunks
interleaved. -/
theorem chunks_roundTrip_extended :
    (∃ s, sendCalls [[some ⟨3, 9, 0x1000000, 1, [1, 2, 3]⟩, none], [some ⟨5, 8, 40, 1, [7]⟩]]
        (Sender.new 2 fun _ => 0) = .ok s ∧
      ∀ plan, ∃ n msgs r, recvMessages n (Receiver.new 2 ⟨s.sent, plan⟩) = .ok (msgs, r) ∧
        msgs.filterMap id = [⟨⟨0xFFFFFF, 3, 9, 1, 0x1000000, 3⟩, some 3, [1, 2, 3]⟩,
            ⟨⟨40, 1, 8, 1, 40, 5⟩, some 1, [7]⟩] ∧ r.io.inBuffer.bytes ++ r.io.skt.incoming = []) ∧
    (∃ r, recvMessages 3 (Receiver.new 2
        ⟨[⟨⟨3, 9, 0x1000000, 1, [1, 2, 3]⟩, 0⟩, ⟨⟨5, 8, 40, 1, [7]⟩, 0⟩,
          ⟨⟨3, 9, 0x1000000, 1, [1, 2, 3]⟩, 1⟩].flatMap (Piece.bytes 2), [1, 5]⟩) =
          .ok ([none, some ⟨⟨40, 1, 8, 1, 40, 5⟩, some 1, [7]⟩,
            some ⟨⟨0xFFFFFF, 3, 9, 1, 0x1000000, 3⟩, some 3, [1, 2, 3]⟩], r) ∧
        r.io.inBuffer.bytes ++ r.io.skt.incoming = []) := by
  refine ⟨(chunks_roundTrip (by decide) (by decide)).1 _ _ (by decide),
    (chunks_roundTrip (by decide) (by decide)).2
      (fun cid => if cid = 3 then [⟨3, 9, 0x1000000, 1, [1, 2, 3]⟩]
        else if cid = 5 then [⟨5, 8, 40, 1, [7]⟩] else [])
      [⟨⟨3, 9, 0x1000000, 1, [1, 2, 3]⟩, 0⟩, ⟨⟨5, 8, 40, 1, [7]⟩, 0⟩,
        ⟨⟨3, 9, 0x1000000, 1, [1, 2, 3]⟩, 1⟩] [1, 5] ?_ ?_⟩
  · intro cid msg hmsg
    split_ifs at hmsg
    · obtain rfl := mem_singleton.1 hmsg
      decide
    · obtain rfl := mem_singleton.1 hmsg
      decide
    · exact absurd hmsg not_mem_nil
  · intro cid
    by_cases h₃ : cid = 3
    · subst h₃
      rfl
    · by_cases h₅ : cid = 5
      · subst h₅
        rfl
      · simp [h₃, h₅, Ne.symm h₃, Ne.symm h₅]

end Srs.Rtmp
