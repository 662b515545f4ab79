import DailyReadCoding.Srs.Chunk
import Mathlib.Data.List.Range

/-!
# What the sender of RTMP chunks sends

`do_send_messages` collects pointers into its header cache, and starts the cache anew when it runs
dry, in the middle of a message if need be.  What arrives on the wire does not depend on when that
happens: it is one chunk after the other.
-/

namespace Srs.Rtmp

open List SharedPtrMessage Nat

open ByteMemory (Byte)
open BigEndian

/-! ## Chunks -/

/-- The header of the first chunk of a message, or of the others. -/
def SharedPtrMessage.header (msg : SharedPtrMessage) (c0 : Bool) : List Byte :=
  msg.chunkHeader SRS_CONSTS_RTMP_MAX_FMT0_HEADER_SIZE c0

/-- A chunk of a message. -/
structure Piece where
  msg : SharedPtrMessage
  index : ℕ

/-- The part of the payload in a chunk. -/
def Piece.data (size : ℕ) (pc : Piece) : List Byte :=
  (pc.msg.payload.drop (pc.index * size)).take size

/-- A chunk on the wire. -/
def Piece.bytes (size : ℕ) (pc : Piece) : List Byte :=
  pc.msg.header (pc.index = 0) ++ pc.data size

/-- The number of chunks of a message. -/
def count (size : ℕ) (msg : SharedPtrMessage) : ℕ := (msg.payload.length + size - 1) / size

/-- The chunks of a message from one of them on. -/
def piecesFrom (size : ℕ) (msg : SharedPtrMessage) (i : ℕ) : List Piece :=
  (List.range' i (count size msg - i)).map (Piece.mk msg)

/-- The chunks of a message. -/
def pieces (size : ℕ) (msg : SharedPtrMessage) : List Piece := piecesFrom size msg 0

section Pieces

variable {size : ℕ} (hsize : 0 < size) {msg : SharedPtrMessage} {i : ℕ}

include hsize in
lemma lt_count_iff : i < count size msg ↔ i * size < msg.payload.length := by
  have hdiv : i < count size msg ↔ (i + 1) * size ≤ msg.payload.length + size - 1 := by
    rw [count, lt_iff_add_one_le, le_div_iff_mul_le hsize]
  rw [hdiv, succ_mul]
  omega

lemma piecesFrom_of_lt (hi : i < count size msg) :
    piecesFrom size msg i = ⟨msg, i⟩ :: piecesFrom size msg (i + 1) := by
  obtain ⟨n, hn⟩ : ∃ n, count size msg - i = n + 1 := ⟨count size msg - i - 1, by omega⟩
  have hn' : count size msg - (i + 1) = n := by omega
  rw [piecesFrom, piecesFrom, hn, hn', range'_succ, map_cons]

lemma piecesFrom_of_le (hi : count size msg ≤ i) : piecesFrom size msg i = [] := by
  rw [piecesFrom, Nat.sub_eq_zero_of_le hi]
  rfl

end Pieces

/-! ## The sender -/

lemma length_extendedTimestamp_le (timestamp : ℕ) : (extendedTimestamp timestamp).length ≤ 4 := by
  rw [extendedTimestamp]
  split_ifs <;> simp

/-- With room for a header it does not matter how much room there is. -/
lemma chunkHeader_eq (msg : SharedPtrMessage) {nbCache : ℕ} (c0 : Bool)
    (hroom : SRS_CONSTS_RTMP_MAX_FMT0_HEADER_SIZE ≤ nbCache) :
    msg.chunkHeader nbCache c0 = msg.header c0 := by
  have hc0 : ¬ nbCache < SRS_CONSTS_RTMP_MAX_FMT0_HEADER_SIZE := not_lt.2 hroom
  have hc3 : ¬ nbCache < SRS_CONSTS_RTMP_MAX_FMT3_HEADER_SIZE := by
    have h : SRS_CONSTS_RTMP_MAX_FMT3_HEADER_SIZE ≤ SRS_CONSTS_RTMP_MAX_FMT0_HEADER_SIZE := by
      decide
    omega
  cases c0
  · simp only [chunkHeader, srsChunkHeaderC3, hc3]
    rfl
  · simp only [chunkHeader, srsChunkHeaderC0, hc0]
    rfl

lemma length_header (msg : SharedPtrMessage) (c0 : Bool) : 0 < (msg.header c0).length ∧
      (msg.header c0).length ≤ SRS_CONSTS_RTMP_MAX_FMT0_HEADER_SIZE := by
  have hext := length_extendedTimestamp_le (msg.timestamp % 2 ^ 32)
  cases c0
  · change 0 < ([_] ++ extendedTimestamp _).length ∧ ([_] ++ extendedTimestamp _).length ≤ 16
    simp only [length_append, length_singleton]
    omega
  · have htime : (if msg.timestamp % 2 ^ 32 < RTMP_EXTENDED_TIMESTAMP then
        toBytes 3 (msg.timestamp % 2 ^ 32) else [0xFF, 0xFF, 0xFF]).length = 3 := by
      split_ifs <;> simp
    change 0 < ([_] ++ (if _ then _ else _) ++ _ ++ [_] ++ _ ++ extendedTimestamp _).length ∧
      ([_] ++ (if _ then _ else _) ++ _ ++ [_] ++ _ ++ extendedTimestamp _).length ≤ 16
    simp only [length_append, length_singleton, length_toBytes, length_reverse]
    omega

/-- The part of the cache an `iovec` points to is in use. -/
def Iov.Below (index : ℕ) : Iov → Prop
  | .cache offset len => offset + len ≤ index
  | .payload _ => True

lemma bytes_writeCache_of_below {iov : Iov} {index : ℕ} (h : iov.Below index) (cache : ℕ → Byte)
    (bs : List Byte) : iov.bytes (writeCache cache index bs) = iov.bytes cache := by
  cases iov with
  | payload bytes => rfl
  | cache offset len =>
    refine map_congr_left fun i hi => ?_
    rw [mem_range] at hi
    have hbelow : offset + len ≤ index := h
    exact if_neg fun hin => by omega

lemma bytes_writeCache (cache : ℕ → Byte) (index : ℕ) (bs : List Byte) :
    (Iov.cache index bs.length).bytes (writeCache cache index bs) = bs := by
  refine ext_getElem (by simp [Iov.bytes]) fun i hi hi' => ?_
  simp [Iov.bytes, writeCache, hi']

/-- What was sent, and what will be. -/
def Sending.out (st : Sending) : List Byte :=
  st.sender.sent ++ st.iovs.flatMap (Iov.bytes st.sender.outC0c3Caches)

/-- There is room for the next header and the next two `iovec`s. -/
structure Sending.Ready (size : ℕ) (st : Sending) : Prop where
  size : st.sender.outChunkSize = size
  room : st.c0c3CacheIndex + SRS_CONSTS_RTMP_MAX_FMT0_HEADER_SIZE ≤ SRS_CONSTS_C0C3_HEADERS_MAX
  iovs : st.iovs.length % 2 = 0
  nbIovs : st.sender.nbOutIovs % 2 = 0
  fits : st.iovs.length + 2 ≤ st.sender.nbOutIovs
  below : ∀ iov ∈ st.iovs, iov.Below st.c0c3CacheIndex

/-- A header and a part of a payload added. -/
def Sending.push (st : Sending) (header data : List Byte) : Sending :=
  ⟨{ st.sender with
      outC0c3Caches := writeCache st.sender.outC0c3Caches st.c0c3CacheIndex header
      nbOutIovs := if st.iovs.length ≥ st.sender.nbOutIovs - 2 then 2 * st.sender.nbOutIovs
        else st.sender.nbOutIovs },
    st.iovs ++ [.cache st.c0c3CacheIndex header.length, .payload data],
    st.c0c3CacheIndex + header.length⟩

/-- All that was collected sent, and the cache started anew. -/
def Sending.flush (st : Sending) : Sending := ⟨st.sender.iovsSend st.iovs, [], 0⟩

section Sending

variable {size : ℕ} {st : Sending}

lemma out_push (hready : st.Ready size) (header data : List Byte) :
    (st.push header data).out = st.out ++ (header ++ data) := by
  have hold : st.iovs.flatMap (Iov.bytes (writeCache st.sender.outC0c3Caches st.c0c3CacheIndex
      header)) = st.iovs.flatMap (Iov.bytes st.sender.outC0c3Caches) :=
    flatMap_congr fun iov hiov => bytes_writeCache_of_below (hready.below iov hiov) _ _
  rw [Sending.out, Sending.push, flatMap_append, hold]
  simp only [flatMap_cons, flatMap_nil, append_nil, bytes_writeCache]
  rw [Iov.bytes, Sending.out, append_assoc]

@[simp] lemma out_flush : st.flush.out = st.out := by
  simp [Sending.out, Sending.flush, Sender.iovsSend]

section

variable (hready : st.Ready size)

include hready

/-- The `iovec`s grow before they are full. -/
lemma fits_push (header data : List Byte) :
    (st.push header data).iovs.length % 2 = 0 ∧ (st.push header data).sender.nbOutIovs % 2 = 0 ∧
      (st.push header data).iovs.length + 2 ≤ (st.push header data).sender.nbOutIovs := by
  have hfits := hready.fits
  have heven := hready.iovs
  have heven' := hready.nbIovs
  simp only [Sending.push, length_append, length_cons, length_nil]
  split_ifs <;> omega

lemma ready_flush (header data : List Byte) : (st.push header data).flush.Ready size := by
  obtain ⟨-, heven, hfits⟩ := fits_push hready header data
  have hroom : 0 + SRS_CONSTS_RTMP_MAX_FMT0_HEADER_SIZE ≤ SRS_CONSTS_C0C3_HEADERS_MAX := by decide
  have hle : 0 + 2 ≤ (st.push header data).sender.nbOutIovs := by omega
  exact ⟨hready.size, hroom, rfl, heven, hle, by simp [Sending.flush]⟩

lemma ready_push {header : List Byte} (data : List Byte)
    (hroom : st.c0c3CacheIndex + header.length + SRS_CONSTS_RTMP_MAX_FMT0_HEADER_SIZE ≤
      SRS_CONSTS_C0C3_HEADERS_MAX) : (st.push header data).Ready size := by
  obtain ⟨hiovs, heven, hfits⟩ := fits_push hready header data
  refine ⟨hready.size, hroom, hiovs, heven, hfits, fun iov hiov => ?_⟩
  rcases mem_append.1 hiov with hiov | hiov
  · have hbelow := hready.below iov hiov
    cases iov with
    | payload bytes => trivial
    | cache offset len => exact le_trans hbelow (le_add_right _ _)
  · simp only [mem_cons, not_mem_nil, or_false] at hiov
    rcases hiov with rfl | rfl
    · exact le_refl _
    · trivial

/-- A sender that is ready neither asserts nor writes beyond its `iovec`s. -/
lemma sendChunk_eq (msg : SharedPtrMessage) (p : List Byte) : sendChunk msg p st =
      .ok (let st' := st.push (msg.header (p.length = msg.payload.length)) (p.take size)
        if SRS_CONSTS_C0C3_HEADERS_MAX - st'.c0c3CacheIndex <
          SRS_CONSTS_RTMP_MAX_FMT0_HEADER_SIZE then st'.flush else st') := by
  obtain ⟨hpos, -⟩ := length_header msg (p.length = msg.payload.length)
  have hroom := hready.room
  have hcache : msg.chunkHeader (SRS_CONSTS_C0C3_HEADERS_MAX - st.c0c3CacheIndex)
      (p.length = msg.payload.length) = msg.header (p.length = msg.payload.length) :=
    chunkHeader_eq msg _ (by omega)
  have htake : p.take (min st.sender.outChunkSize p.length) = p.take size := by
    rw [hready.size, take_eq_take_iff]
    omega
  rw [sendChunk]
  dsimp only
  rw [hcache, if_neg (ne_of_gt hpos), if_neg (not_lt.2 hready.fits), htake, apply_ite Except.ok]
  rfl

/-- One chunk. -/
theorem sendChunk_spec (msg : SharedPtrMessage) (p : List Byte) :
    ∃ st', sendChunk msg p st = .ok st' ∧ st'.Ready size ∧
      st'.out = st.out ++ (msg.header (p.length = msg.payload.length) ++ p.take size) := by
  have hpush := out_push hready (msg.header (p.length = msg.payload.length)) (p.take size)
  refine ⟨_, sendChunk_eq hready msg p, ?_⟩
  dsimp only
  split_ifs with hdry
  · exact ⟨ready_flush hready _ _, out_flush.trans hpush⟩
  · refine ⟨ready_push hready _ ?_, hpush⟩
    have hroom := hready.room
    have hle := (length_header msg (p.length = msg.payload.length)).2
    change ¬ SRS_CONSTS_C0C3_HEADERS_MAX - (st.c0c3CacheIndex + _) < _ at hdry
    omega

end

lemma sendPayload_done (hsize : 0 < size) {msg : SharedPtrMessage} {i : ℕ}
    (hi : ¬ i * size < msg.payload.length) (fuel : ℕ) (st : Sending) :
    sendPayload msg fuel (msg.payload.drop (i * size)) st = .ok st ∧
    piecesFrom size msg i = [] := by
  refine ⟨?_, piecesFrom_of_le (Nat.le_of_not_lt fun h => hi ((lt_count_iff hsize).1 h))⟩
  rw [drop_eq_nil_of_le (Nat.le_of_not_lt hi), sendPayload]

/-- Before it there is a chunk to send, and the loop goes on behind it. -/
lemma sendPayload_step (hsize : 0 < size) (hready : st.Ready size) {msg : SharedPtrMessage} {i : ℕ}
    (hi : i * size < msg.payload.length) (fuel : ℕ) :
    ∃ st', st'.Ready size ∧ st'.out = st.out ++ Piece.bytes size ⟨msg, i⟩ ∧
      sendPayload msg (fuel + 1) (msg.payload.drop (i * size)) st =
        sendPayload msg fuel (msg.payload.drop ((i + 1) * size)) st' := by
  have hlen : (msg.payload.drop (i * size)).length = msg.payload.length - i * size := length_drop
  obtain ⟨st', hchunk, hready', hout⟩ := sendChunk_spec hready msg (msg.payload.drop (i * size))
  have hfirst : (msg.payload.drop (i * size)).length = msg.payload.length ↔ i = 0 := by
    rcases Nat.eq_zero_or_pos i with rfl | hpos
    · simp
    · have := mul_pos hpos hsize
      omega
  have hnext : (msg.payload.drop (i * size)).drop (min size (msg.payload.drop (i * size)).length) =
      msg.payload.drop ((i + 1) * size) := by
    rw [drop_drop, succ_mul, drop_eq_drop_iff]
    omega
  refine ⟨st', hready', ?_, ?_⟩
  · rw [hout, Piece.bytes, Piece.data]
    simp only [hfirst]
  · generalize msg.payload.drop (i * size) = p at hlen hchunk hnext
    cases p with
    | nil => simp at hlen; omega
    | cons b p =>
      rw [sendPayload, hchunk]
      rw [hready.size, ← hnext]
      rfl

/-- The chunks of a message, from one of them on. -/
theorem sendPayload_spec (hsize : 0 < size) (msg : SharedPtrMessage) :
    ∀ (fuel i : ℕ) (st : Sending), st.Ready size → msg.payload.length ≤ fuel + i * size →
    ∃ st', sendPayload msg fuel (msg.payload.drop (i * size)) st = .ok st' ∧ st'.Ready size ∧
      st'.out = st.out ++ (piecesFrom size msg i).flatMap (Piece.bytes size) := by
  intro fuel
  induction fuel with
  | zero =>
    intro i st hready hfuel
    have hi : ¬ i * size < msg.payload.length := by omega
    obtain ⟨hrun, hnil⟩ := sendPayload_done hsize hi 0 st
    exact ⟨st, hrun, hready, by simp [hnil]⟩
  | succ fuel ih =>
    intro i st hready hfuel
    by_cases hi : i * size < msg.payload.length
    · obtain ⟨st1, hready1, hout1, hrun1⟩ := sendPayload_step hsize hready hi fuel
      obtain ⟨st2, hrun2, hready2, hout2⟩ := ih (i + 1) st1 hready1 (by rw [succ_mul]; omega)
      refine ⟨st2, hrun1.trans hrun2, hready2, ?_⟩
      rw [hout2, hout1, piecesFrom_of_lt ((lt_count_iff hsize).2 hi), flatMap_cons, append_assoc]
    · obtain ⟨hrun, hnil⟩ := sendPayload_done hsize hi (fuel + 1) st
      exact ⟨st, hrun, hready, by simp [hnil]⟩

/-- The messages of one call; an empty slot of the array is passed over. -/
theorem sendMessages_spec (hsize : 0 < size) (msgs : List (Option SharedPtrMessage)) :
    ∀ st : Sending, st.Ready size → ∃ st', sendMessages msgs st = .ok st' ∧ st'.Ready size ∧
      st'.out = st.out ++ ((msgs.filterMap id).flatMap (pieces size)).flatMap
      (Piece.bytes size) := by
  induction msgs with
  | nil =>
    intro st hready
    exact ⟨st, rfl, hready, by simp⟩
  | cons msg msgs ih =>
    intro st hready
    cases msg with
    | none => exact ih st hready
    | some msg =>
      obtain ⟨st1, hrun1, hready1, hout1⟩ :=
        sendPayload_spec hsize msg msg.payload.length 0 st hready (le_add_right _ _)
      obtain ⟨st2, hrun2, hready2, hout2⟩ := ih st1 hready1
      rw [Nat.zero_mul, drop_zero] at hrun1
      refine ⟨st2, ?_, hready2, ?_⟩
      · rw [sendMessages, hrun1]
        exact hrun2
      · rw [hout2, hout1]
        simp [pieces, flatMap_append]

end Sending

/-- A sender between two calls. -/
structure Sender.Ready (size : ℕ) (s : Sender) : Prop where
  size : s.outChunkSize = size
  nbIovs : s.nbOutIovs % 2 = 0
  fits : 2 ≤ s.nbOutIovs

/-- One call; what is left in the cache is sent at its end. -/
theorem doSendMessages_spec {size : ℕ} {s : Sender} (hsize : 0 < size) (hready : s.Ready size)
    (msgs : List (Option SharedPtrMessage)) : ∃ s', doSendMessages msgs s = .ok s' ∧ s'.Ready size ∧
      s'.sent = s.sent ++ ((msgs.filterMap id).flatMap (pieces size)).flatMap
      (Piece.bytes size) := by
  have hstart : Sending.Ready size ⟨s, [], 0⟩ :=
    ⟨hready.size, by dsimp only; decide, rfl, hready.nbIovs, by simpa using hready.fits, by simp⟩
  obtain ⟨st, hrun, hst, hout⟩ := sendMessages_spec hsize msgs _ hstart
  have hfits := hst.fits
  have hempty : Sending.out ⟨s, [], 0⟩ = s.sent := by simp [Sending.out]
  rw [hempty] at hout
  rw [doSendMessages, hrun]
  refine ⟨_, rfl, ?_⟩
  split_ifs with hnone
  · have hnil : st.iovs = [] := length_eq_zero_iff.1 (le_zero.1 hnone)
    refine ⟨⟨hst.size, hst.nbIovs, by omega⟩, ?_⟩
    rw [← hout, Sending.out, hnil, flatMap_nil, append_nil]
  · exact ⟨⟨hst.size, hst.nbIovs, by change 2 ≤ st.sender.nbOutIovs; omega⟩, hout⟩

/-- Any number of calls. -/
theorem sendCalls_spec {size : ℕ} (hsize : 0 < size)
    (calls : List (List (Option SharedPtrMessage))) :
    ∀ s : Sender, s.Ready size → ∃ s', sendCalls calls s = .ok s' ∧ s'.sent = s.sent ++
        ((calls.flatten.filterMap id).flatMap (pieces size)).flatMap (Piece.bytes size) := by
  induction calls with
  | nil =>
    intro s _
    exact ⟨s, rfl, by simp⟩
  | cons msgs calls ih =>
    intro s hready
    obtain ⟨s1, hrun1, hready1, hsent1⟩ := doSendMessages_spec hsize hready msgs
    obtain ⟨s2, hrun2, hsent2⟩ := ih s1 hready1
    refine ⟨s2, ?_, ?_⟩
    · rw [sendCalls, hrun1]
      exact hrun2
    · rw [hsent2, hsent1]
      simp [flatMap_append]

lemma ready_new (size : ℕ) (cache : ℕ → Byte) : (Sender.new size cache).Ready size := by
  have hiovs : (Sender.new size cache).nbOutIovs = 2048 := rfl
  exact ⟨rfl, by omega, by omega⟩

end Srs.Rtmp
