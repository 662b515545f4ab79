import DailyReadCoding.Srs.FastStream

/-!
# RTMP chunks

Messages go over the wire in chunks, each with a chunk stream id in its header. The first chunk of a
message has a full header, the others only the id, and the timestamp again if it does not fit into
three bytes. The receiver keeps a state for every chunk stream.

`SrsProtocol::do_send_messages` writes the headers into a cache and collects pointers into it; the
cache is sent and started anew when there is no room for another header. Pointers are kept as
pointers here, so that what is sent depends on what the cache holds then. Writing to the socket
succeeds, and an error of the receiver ends the connection.
-/

namespace Srs.Rtmp

open ByteMemory (Byte)
open BigEndian

def RTMP_EXTENDED_TIMESTAMP : ℕ := 0xFFFFFF
def SRS_CONSTS_RTMP_MAX_FMT0_HEADER_SIZE : ℕ := 16
def SRS_CONSTS_RTMP_MAX_FMT3_HEADER_SIZE : ℕ := 5
def SRS_PERF_MW_MSGS : ℕ := 128
def SRS_CONSTS_IOVS_MAX : ℕ := SRS_PERF_MW_MSGS * 2
def SRS_CONSTS_C0C3_HEADERS_MAX : ℕ := SRS_PERF_MW_MSGS * 32
def SRS_PERF_CHUNK_STREAM_CACHE : ℕ := 16
def RTMP_CID_OverConnection : ℕ := 3

/-! ## Headers -/

/-- `SrsSharedPtrMessage`; `create` sets `payload_length` and `size` to the number of bytes. -/
structure SharedPtrMessage where
  perferCid : ℕ
  messageType : BitVec 8
  timestamp : ℕ
  streamId : BitVec 32
  payload : List Byte
  deriving DecidableEq, Repr

/-- The extended timestamp, if there is one. -/
def extendedTimestamp (timestamp : ℕ) : List Byte :=
  if RTMP_EXTENDED_TIMESTAMP ≤ timestamp then toBytes 4 timestamp else []

/-- The bytes that are put into the cache -/
def srsChunkHeaderC0 (perferCid timestamp payloadLength : ℕ) (messageType : BitVec 8)
    (streamId : BitVec 32) (nbCache : ℕ) : List Byte :=
  if nbCache < SRS_CONSTS_RTMP_MAX_FMT0_HEADER_SIZE then []
  else
    [BitVec.ofNat 8 (0x00 ||| (perferCid &&& 0x3F))]
      ++ (if timestamp < RTMP_EXTENDED_TIMESTAMP then toBytes 3 timestamp else [0xFF, 0xFF, 0xFF])
      ++ toBytes 3 payloadLength ++ [messageType] ++ (toBytes 4 streamId.toNat).reverse
      ++ extendedTimestamp timestamp

def srsChunkHeaderC3 (perferCid timestamp nbCache : ℕ) : List Byte :=
  if nbCache < SRS_CONSTS_RTMP_MAX_FMT3_HEADER_SIZE then []
  else [BitVec.ofNat 8 (0xC0 ||| (perferCid &&& 0x3F))] ++ extendedTimestamp timestamp

def SharedPtrMessage.chunkHeader (msg : SharedPtrMessage) (nbCache : ℕ) (c0 : Bool) : List Byte :=
  if c0 then
    srsChunkHeaderC0 msg.perferCid (msg.timestamp % 2 ^ 32) msg.payload.length msg.messageType
      msg.streamId nbCache
  else srsChunkHeaderC3 msg.perferCid (msg.timestamp % 2 ^ 32) nbCache

/-! ## The sender -/

/-- `iovec`: a part of the header cache, or of a payload -/
inductive Iov
  | cache (offset len : ℕ)
  | payload (bytes : List Byte)

/-- The members of `SrsProtocol` for sending, and the bytes that were sent. -/
structure Sender where
  outChunkSize : ℕ
  nbOutIovs : ℕ
  outC0c3Caches : ℕ → Byte
  sent : List Byte

/-- `SrsProtocol::SrsProtocol`, with the chunk size set and the cache as `new` leaves it -/
def Sender.new (outChunkSize : ℕ) (outC0c3Caches : ℕ → Byte) : Sender :=
  ⟨outChunkSize, 8 * SRS_CONSTS_IOVS_MAX, outC0c3Caches, []⟩

/-- The sender within `do_send_messages`. -/
structure Sending where
  sender : Sender
  iovs : List Iov
  c0c3CacheIndex : ℕ

/-- Bytes written into the cache. -/
def writeCache (cache : ℕ → Byte) (offset : ℕ) (bytes : List Byte) : ℕ → Byte := fun i =>
  if offset ≤ i ∧ i < offset + bytes.length then bytes.getD (i - offset) 0 else cache i

/-- The bytes an `iovec` points to. -/
def Iov.bytes (cache : ℕ → Byte) : Iov → List Byte
  | .cache offset len => (List.range len).map fun i => cache (offset + i)
  | .payload bytes => bytes

/-- `do_iovs_send` -/
def Sender.iovsSend (s : Sender) (iovs : List Iov) : Sender :=
  { s with sent := s.sent ++ iovs.flatMap (Iov.bytes s.outC0c3Caches) }

/-- One round of the inner loop of `do_send_messages`, with the rest of the payload from `p` on. -/
def sendChunk (msg : SharedPtrMessage) (p : List Byte) (st : Sending) : Except Error Sending :=
  let s := st.sender
  let nbCache := SRS_CONSTS_C0C3_HEADERS_MAX - st.c0c3CacheIndex
  let header := msg.chunkHeader nbCache (p.length = msg.payload.length)
  if header.length = 0 then .error .assertion
  else if s.nbOutIovs < st.iovs.length + 2 then .error .outOfBounds
  else
    let s := { s with
      outC0c3Caches := writeCache s.outC0c3Caches st.c0c3CacheIndex header
      nbOutIovs := if st.iovs.length ≥ s.nbOutIovs - 2 then 2 * s.nbOutIovs else s.nbOutIovs }
    let iovs := st.iovs ++ [.cache st.c0c3CacheIndex header.length,
      .payload (p.take (min s.outChunkSize p.length))]
    let index := st.c0c3CacheIndex + header.length
    if SRS_CONSTS_C0C3_HEADERS_MAX - index < SRS_CONSTS_RTMP_MAX_FMT0_HEADER_SIZE then
      .ok ⟨s.iovsSend iovs, [], 0⟩
    else .ok ⟨s, iovs, index⟩

/-- The inner loop of `do_send_messages` -/
def sendPayload (msg : SharedPtrMessage) : ℕ → List Byte → Sending → Except Error Sending
  | _, [], st => .ok st
  | 0, _ :: _, _ => .error .fuel
  | fuel + 1, b :: p, st => do
      let st' ← sendChunk msg (b :: p) st
      sendPayload msg fuel ((b :: p).drop (min st.sender.outChunkSize (p.length + 1))) st'

/-- The outer loop of `do_send_messages` -/
def sendMessages : List (Option SharedPtrMessage) → Sending → Except Error Sending
  | [], st => .ok st
  | none :: msgs, st => sendMessages msgs st
  | some msg :: msgs, st => do
      let st' ← sendPayload msg msg.payload.length msg.payload st
      sendMessages msgs st'

def doSendMessages (msgs : List (Option SharedPtrMessage)) (s : Sender) : Except Error Sender := do
  let st ← sendMessages msgs ⟨s, [], 0⟩
  return if st.iovs.length ≤ 0 then st.sender else st.sender.iovsSend st.iovs

/-- Several calls of `do_send_messages`. -/
def sendCalls : List (List (Option SharedPtrMessage)) → Sender → Except Error Sender
  | [], s => .ok s
  | msgs :: calls, s => do
      let s' ← doSendMessages msgs s
      sendCalls calls s'

/-! ## The receiver -/

/-- `SrsMessageHeader` -/
structure MessageHeader where
  timestampDelta : ℕ
  payloadLength : ℕ
  messageType : BitVec 8
  streamId : BitVec 32
  timestamp : ℕ
  perferCid : ℕ
  deriving DecidableEq, Repr

/-- `SrsMessageHeader::SrsMessageHeader` -/
def MessageHeader.new : MessageHeader := ⟨0, 0, 0, 0, 0, RTMP_CID_OverConnection⟩

/-- `SrsCommonMessage`, with the size of the block of its payload and the bytes that are there. -/
structure CommonMessage where
  header : MessageHeader
  capacity : Option ℕ
  payload : List Byte
  deriving DecidableEq, Repr

/-- `SrsCommonMessage::SrsCommonMessage` -/
def CommonMessage.new : CommonMessage := ⟨.new, none, []⟩

/-- `SrsChunkStream` -/
structure ChunkStream where
  cid : ℕ
  header : MessageHeader
  extendedTimestamp : Bool
  msg : Option CommonMessage
  msgCount : ℕ
  deriving DecidableEq, Repr

/-- A new chunk stream, with the id that is copied to its messages. -/
def ChunkStream.new (cid : ℕ) : ChunkStream :=
  ⟨cid, { MessageHeader.new with perferCid := cid }, false, none, 0⟩

def readBasicHeader : Exec Io Error (ℕ × ℕ) := do
  wrapped (.text "basic header requires 1 bytes") (grow 1)
  let b ← read1byte
  let cid := b.toNat &&& 0x3f
  let fmt := (b.toNat >>> 6) &&& 0x03
  if cid > 1 then return (fmt, cid)
  else if cid = 0 then
    wrapped (.text "basic header requires 2 bytes") (grow 1)
    let b₁ ← read1byte
    return (fmt, 64 + b₁.toNat)
  else
    wrapped (.text "basic header requires 3 bytes") (grow 2)
    let b₁ ← read1byte
    let b₂ ← read1byte
    return (fmt, 64 + b₁.toNat + b₂.toNat * 256)

def mhSizes (fmt : ℕ) : ℕ := [11, 7, 3, 0].getD fmt 0

/-- The fields of a message header of 3, 7 or 11 bytes. -/
def parseMessageHeader (fmt : ℕ) (isFirstChunkOfMsg : Bool) (p : List Byte) (chunk : ChunkStream) :
    Except Error ChunkStream :=
  let delta := ofBytes (p.take 3)
  let extended : Bool := RTMP_EXTENDED_TIMESTAMP ≤ delta
  let timestamp :=
    if extended then chunk.header.timestamp
    else if fmt = 0 then delta
    else chunk.header.timestamp + delta
  let header := { chunk.header with timestampDelta := delta, timestamp := timestamp }
  if fmt ≤ 1 then
    let payloadLength := ofBytes ((p.drop 3).take 3)
    if !isFirstChunkOfMsg ∧ header.payloadLength ≠ payloadLength then
      .error (.new .rtmpPacketSize (.values "msg in chunk cache, size=%d cannot change to %d"
        [header.payloadLength, payloadLength]))
    else
      let header := { header with payloadLength := payloadLength, messageType := p.getD 6 0 }
      let header := if fmt = 0 then
          { header with streamId := BitVec.ofNat 32 (ofBytes ((p.drop 7).take 4).reverse) }
        else header
      .ok { chunk with header := header, extendedTimestamp := extended }
  else .ok { chunk with header := header, extendedTimestamp := extended }

/-- The extended timestamp, which is pushed back if it does not look like one. -/
def readExtendedTimestamp (isFirstChunkOfMsg : Bool) (chunk : ChunkStream) :
    Exec Io Error ChunkStream := do
  wrapped (.text "read 4 bytes ext timestamp") (grow 4)
  let p ← readSlice 4
  let timestamp := ofBytes p &&& 0x7fffffff
  let chunkTimestamp := chunk.header.timestamp % 2 ^ 32
  if !isFirstChunkOfMsg ∧ chunkTimestamp > 0 ∧ chunkTimestamp ≠ timestamp then
    skipBack 4
    return chunk
  else return { chunk with header := { chunk.header with timestamp := timestamp } }

/-- The checks at the start of `read_message_header`: a fresh stream starts with `fmt` 0, or 1, and
a message is not interrupted by another one. -/
def checkFmt (chunk : ChunkStream) (fmt : ℕ) : Except Error Unit :=
  if chunk.msgCount = 0 ∧ fmt ≠ 0 ∧ fmt ≠ 1 then
    .error (.new .rtmpChunkStart (.values "fresh chunk expect fmt=0, actual=%d, cid=%d"
      [fmt, chunk.cid]))
  else if chunk.msg.isSome ∧ fmt = 0 then
    .error (.new .rtmpChunkStart (.text "for existed chunk, fmt should not be 0"))
  else .ok ()

/-- The message header proper, which chunks with `fmt` 3 do not have. -/
def readHeaderFields (fmt : ℕ) (isFirstChunkOfMsg : Bool) (chunk : ChunkStream) :
    Exec Io Error ChunkStream :=
  if fmt ≤ 2 then do
    wrapped (.values "read %d bytes message header" [mhSizes fmt]) (grow (mhSizes fmt))
    let p ← readSlice (mhSizes fmt)
    parseMessageHeader fmt isFirstChunkOfMsg p chunk
  else if isFirstChunkOfMsg ∧ !chunk.extendedTimestamp then
    return { chunk with header :=
      { chunk.header with timestamp := chunk.header.timestamp + chunk.header.timestampDelta } }
  else return chunk

/-- The end of `read_message_header`: the header is copied to the message. -/
def commitHeader (msg : CommonMessage) (chunk : ChunkStream) : ChunkStream :=
  let header := { chunk.header with timestamp := chunk.header.timestamp &&& 0x7fffffff }
  { chunk with
    header := header
    msg := some { msg with header := header }
    msgCount := chunk.msgCount + 1 }

def readMessageHeader (chunk : ChunkStream) (fmt : ℕ) : Exec Io Error ChunkStream := do
  let isFirstChunkOfMsg := chunk.msg.isNone
  checkFmt chunk fmt
  let msg := chunk.msg.getD .new
  let chunk ← readHeaderFields fmt isFirstChunkOfMsg chunk
  let chunk ← if chunk.extendedTimestamp then readExtendedTimestamp isFirstChunkOfMsg chunk
    else pure chunk
  return commitHeader msg chunk

/-- The message if it is complete, and the chunk stream -/
def readMessagePayload (inChunkSize : ℕ) (chunk : ChunkStream) :
    Exec Io Error (Option CommonMessage × ChunkStream) := do
  let some msg := chunk.msg | throw .assertion
  if chunk.header.payloadLength ≤ 0 then return (some msg, { chunk with msg := none })
  let payloadSize := min (chunk.header.payloadLength - msg.payload.length) inChunkSize
  let capacity := msg.capacity.getD chunk.header.payloadLength
  wrapped (.values "read %d bytes payload" [payloadSize]) (grow payloadSize)
  let data ← readSlice payloadSize
  if capacity < msg.payload.length + data.length then throw .outOfBounds
  let msg := { msg with capacity := some capacity, payload := msg.payload ++ data }
  if chunk.header.payloadLength = msg.payload.length then
    return (some msg, { chunk with msg := none })
  else return (none, { chunk with msg := some msg })

/-- The members of `SrsProtocol` for receiving. -/
structure Receiver where
  io : Io
  inChunkSize : ℕ
  csCache : ℕ → ChunkStream
  chunkStreams : ℕ → Option ChunkStream

/-- `SrsProtocol::SrsProtocol`, with the chunk size set -/
def Receiver.new (inChunkSize : ℕ) (skt : Socket) : Receiver :=
  ⟨⟨⟨SRS_DEFAULT_RECV_BUFFER_SIZE, [], []⟩, skt⟩, inChunkSize, ChunkStream.new, fun _ => none⟩

/-- The chunk stream of an id, a new one if there is none. -/
def Receiver.chunk (r : Receiver) (cid : ℕ) : ChunkStream :=
  if cid < SRS_PERF_CHUNK_STREAM_CACHE then r.csCache cid
  else (r.chunkStreams cid).getD (.new cid)

/-- The chunk stream of an id changed. -/
def Receiver.setChunk (r : Receiver) (cid : ℕ) (chunk : ChunkStream) : Receiver :=
  if cid < SRS_PERF_CHUNK_STREAM_CACHE then
    { r with csCache := Function.update r.csCache cid chunk }
  else { r with chunkStreams := Function.update r.chunkStreams cid (some chunk) }

/-- One chunk read from the socket. -/
def readChunk (inChunkSize : ℕ) (chunk : ℕ → ChunkStream) :
    Exec Io Error (Option CommonMessage × ℕ × ChunkStream) := do
  let (fmt, cid) ← wrapped (.text "read basic header") readBasicHeader
  let cs ← wrapped (.text "read message header") (readMessageHeader (chunk cid) fmt)
  let (msg, cs) ← wrapped (.text "read message payload") (readMessagePayload inChunkSize cs)
  return (msg, cid, cs)

def recvInterlacedMessage (r : Receiver) : Except Error (Option CommonMessage × Receiver) := do
  let ((msg, cid, cs), io) ← readChunk r.inChunkSize r.chunk r.io
  return (msg, { r with io := io }.setChunk cid cs)

/-- Repeated calls of `recv_interlaced_message`. -/
def recvMessages : ℕ → Receiver → Except Error (List (Option CommonMessage) × Receiver)
  | 0, r => .ok ([], r)
  | n + 1, r => do
      let (msg, r) ← recvInterlacedMessage r
      let (msgs, r) ← recvMessages n r
      return (msg :: msgs, r)

end Srs.Rtmp
