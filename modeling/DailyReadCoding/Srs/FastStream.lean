import DailyReadCoding.Srs.Buffer

/-!
# Reading from a socket

`SrsFastStream` keeps the bytes that were received and not yet used in a buffer of bounded size, and
`grow` asks the socket for more until there are as many as needed.  A read of the socket gives at
least one byte, and no more than were asked for; how many is up to a plan that is not known.
-/

namespace Srs.Rtmp

open List

open ByteMemory (Byte)

/-! ## The stream -/

def SRS_DEFAULT_RECV_BUFFER_SIZE : ℕ := 131072

/-- `SrsFastStream`: the buffer has bytes up to `p` that were used, and those from `p` to `end`. -/
structure FastStream where
  nbBuffer : ℕ
  used : List Byte
  bytes : List Byte
  deriving DecidableEq, Repr

/-- `buffer + nb_buffer - end` -/
def FastStream.freeSpace (b : FastStream) : ℕ := b.nbBuffer - (b.used.length + b.bytes.length)

/-- The bytes to come, and how many of them each of the next reads gives. -/
structure Socket where
  incoming : List Byte
  plan : List ℕ
  deriving DecidableEq, Repr

def Socket.read (skt : Socket) (size : ℕ) : Option (List Byte × Socket) :=
  if skt.incoming = [] then none
  else
    let nread := min size (max 1 (min (skt.plan.headD size) skt.incoming.length))
    some (skt.incoming.take nread, ⟨skt.incoming.drop nread, skt.plan.tail⟩)

/-- The stream and the socket it reads from. -/
structure Io where
  inBuffer : FastStream
  skt : Socket
  deriving DecidableEq, Repr

/-- The loop of `grow` -/
def growLoop (requiredSize : ℕ) : ℕ → ℕ → Io → Except Error (Unit × Io)
  | 0, _, io => if io.inBuffer.bytes.length < requiredSize then .error .fuel else .ok ((), io)
  | fuel + 1, nbFreeSpace, io =>
    if io.inBuffer.bytes.length < requiredSize then
      match io.skt.read nbFreeSpace with
      | none => .error (.wrap (.new .socketRead (.text "")) (.text "read bytes"))
      | some (data, skt) =>
        if 0 < data.length then
          growLoop requiredSize fuel (nbFreeSpace - data.length)
            ⟨{ io.inBuffer with bytes := io.inBuffer.bytes ++ data }, skt⟩
        else .error .assertion
    else .ok ((), io)

/-- The left bytes moved to the start of the buffer, or nothing left to move. -/
def FastStream.compact (b : FastStream) : FastStream :=
  if b.bytes.length = 0 then { b with used := [] }
  else if b.bytes.length < b.nbBuffer ∧ 0 < b.used.length then { b with used := [] }
  else b

def grow (requiredSize : ℕ) : Exec Io Error Unit := fun io =>
  let b := io.inBuffer
  if requiredSize ≤ b.bytes.length then .ok ((), io)
  else if b.bytes.length + b.freeSpace < requiredSize then
    let b := b.compact
    if b.bytes.length + b.freeSpace < requiredSize then
      .error (.new .readerBufferOverflow (.values "overflow, required=%d, max=%d, left=%d"
        [requiredSize, b.nbBuffer, b.freeSpace]))
    else growLoop requiredSize requiredSize b.freeSpace ⟨b, io.skt⟩
  else growLoop requiredSize requiredSize b.freeSpace io

def readSlice (size : ℕ) : Exec Io Error (List Byte) := fun io =>
  let b := io.inBuffer
  if size ≤ b.bytes.length then
    .ok (b.bytes.take size,
      { io with inBuffer := ⟨b.nbBuffer, b.used ++ b.bytes.take size, b.bytes.drop size⟩ })
  else .error .assertion

def read1byte : Exec Io Error Byte := do
  match ← readSlice 1 with
  | [b] => return b
  | _ => throw .assertion

/-- `skip`, backwards over the last `size` bytes -/
def skipBack (size : ℕ) : Exec Io Error Unit := fun io =>
  let b := io.inBuffer
  if size ≤ b.used.length then
    .ok ((), { io with inBuffer := ⟨b.nbBuffer, b.used.take (b.used.length - size),
      b.used.drop (b.used.length - size) ++ b.bytes⟩ })
  else .error .assertion

/-! ## What the operations do -/

/-- The bytes that have not been used, in a buffer with room for `limit` bytes. -/
structure Io.Unread (limit : ℕ) (io : Io) (bs : List Byte) : Prop where
  bytes : io.inBuffer.bytes ++ io.skt.incoming = bs
  fits : io.inBuffer.used.length + io.inBuffer.bytes.length ≤ io.inBuffer.nbBuffer
  limit : limit ≤ io.inBuffer.nbBuffer

/-- A read gives some of the bytes to come. -/
lemma Socket.read_eq {skt : Socket} {size : ℕ} (hne : skt.incoming ≠ []) (hsize : 0 < size) :
    ∃ data skt', skt.read size = some (data, skt') ∧ data ++ skt'.incoming = skt.incoming ∧
      0 < data.length ∧ data.length ≤ size := by
  have hpos : 0 < skt.incoming.length := length_pos_iff.2 hne
  refine ⟨_, _, if_neg hne, take_append_drop _ _, ?_, ?_⟩
  · rw [length_take]
    omega
  · rw [length_take]
    omega

variable {limit : ℕ}

/-- The loop ends with the bytes that were asked for, if they are to come and there is room. -/
lemma growLoop_spec {requiredSize fuel nbFreeSpace : ℕ} {io : Io} {bs : List Byte}
    (hio : io.Unread limit bs) (hbs : requiredSize ≤ bs.length)
    (hfree : io.inBuffer.used.length + io.inBuffer.bytes.length + nbFreeSpace =
      io.inBuffer.nbBuffer) (hroom : requiredSize ≤ io.inBuffer.bytes.length + nbFreeSpace)
    (hfuel : requiredSize ≤ io.inBuffer.bytes.length + fuel) :
    ∃ io', growLoop requiredSize fuel nbFreeSpace io = .ok ((), io') ∧ io'.Unread limit bs ∧
      requiredSize ≤ io'.inBuffer.bytes.length := by
  induction fuel generalizing nbFreeSpace io with
  | zero =>
    refine ⟨io, ?_, hio, by omega⟩
    rw [growLoop, if_neg (by omega)]
  | succ fuel ih =>
    rw [growLoop]
    split_ifs with hless
    · have hlength := congrArg length hio.bytes
      rw [length_append] at hlength
      have hne : io.skt.incoming ≠ [] := by
        intro hnil
        rw [hnil, length_nil] at hlength
        omega
      have hspace : 0 < nbFreeSpace := by omega
      obtain ⟨data, skt, hread, hdata, hpos, hle⟩ := Socket.read_eq hne hspace
      rw [hread]
      dsimp only
      rw [if_pos hpos]
      refine ih ⟨?_, ?_, hio.limit⟩ ?_ ?_ ?_
      · rw [append_assoc, hdata, hio.bytes]
      -- the data fills the free space from its start
      all_goals
        simp only [length_append]
        omega
    · exact ⟨io, rfl, hio, by omega⟩

lemma Io.Unread.compact {io : Io} {bs : List Byte} (hio : io.Unread limit bs) :
    Io.Unread limit ⟨io.inBuffer.compact, io.skt⟩ bs ∧
      io.inBuffer.compact.bytes = io.inBuffer.bytes ∧
      io.inBuffer.nbBuffer ≤ io.inBuffer.compact.bytes.length + io.inBuffer.compact.freeSpace := by
  rw [FastStream.compact]
  split_ifs with hempty hmove
  · refine ⟨⟨hio.bytes, ?_, hio.limit⟩, rfl, ?_⟩
    all_goals simp only [FastStream.freeSpace, length_nil]
    all_goals omega
  · refine ⟨⟨hio.bytes, ?_, hio.limit⟩, rfl, ?_⟩
    all_goals simp only [FastStream.freeSpace, length_nil]
    all_goals omega
  · refine ⟨hio, rfl, ?_⟩
    rw [FastStream.freeSpace]
    omega

/-- `grow` gets the bytes that were asked for, and uses none. -/
theorem grow_spec {requiredSize : ℕ} {io : Io} {bs : List Byte} (hio : io.Unread limit bs)
    (hbs : requiredSize ≤ bs.length) (hlimit : requiredSize ≤ limit) :
    ∃ io', grow requiredSize io = .ok ((), io') ∧ io'.Unread limit bs ∧
      requiredSize ≤ io'.inBuffer.bytes.length := by
  have hfits := hio.fits
  have hmax := hio.limit
  rw [grow]
  dsimp only
  split_ifs with hhave hroom hover
  · exact ⟨io, rfl, hio, hhave⟩
  · obtain ⟨-, -, hspace⟩ := hio.compact
    omega
  · obtain ⟨hio', -, -⟩ := hio.compact
    have hfits' := hio'.fits
    dsimp only at hfits'
    refine growLoop_spec hio' hbs ?_ (by dsimp only; omega) (by omega)
    rw [FastStream.freeSpace]
    dsimp only
    omega
  · refine growLoop_spec hio hbs ?_ (by omega) (by omega)
    rw [FastStream.freeSpace]
    omega

lemma readSlice_spec {io : Io} {bs rest : List Byte} (hio : io.Unread limit (bs ++ rest))
    (hbs : bs.length ≤ io.inBuffer.bytes.length) :
    ∃ io', readSlice bs.length io = .ok (bs, io') ∧ io'.Unread limit rest := by
  have htake : io.inBuffer.bytes.take bs.length = bs := by
    have h := congrArg (List.take bs.length) hio.bytes
    rwa [take_append_of_le_length hbs, take_left] at h
  have hsplit : io.inBuffer.bytes = bs ++ io.inBuffer.bytes.drop bs.length := by
    conv_lhs => rw [← take_append_drop bs.length io.inBuffer.bytes, htake]
  have hrest : io.inBuffer.bytes.drop bs.length ++ io.skt.incoming = rest := by
    have h := hio.bytes
    rw [hsplit, append_assoc] at h
    exact append_cancel_left h
  have hfits := hio.fits
  have hlength := congrArg length hsplit
  rw [length_append] at hlength
  rw [readSlice, if_pos hbs, htake]
  refine ⟨_, rfl, hrest, ?_, hio.limit⟩
  simp only [length_append]
  omega

/-! ## Programs that take given bytes -/

/-- The program takes these bytes and gives this value, whatever comes behind them and however they
arrive. -/
def Consumes (limit : ℕ) {α : Type} (x : Exec Io Error α) (bs : List Byte) (a : α) : Prop :=
  ∀ io rest, io.Unread limit (bs ++ rest) → ∃ io', x io = .ok (a, io') ∧ io'.Unread limit rest

section Consumes

variable {α β : Type} {x : Exec Io Error α} {f : α → Exec Io Error β} {a : α} {b : β}
  {bs cs : List Byte}

lemma Consumes.pure (a : α) : Consumes limit (pure a) [] a := fun io _ hio => ⟨io, rfl, hio⟩

lemma Consumes.bind (hx : Consumes limit x bs a) (hf : Consumes limit (f a) cs b) :
    Consumes limit (x >>= f) (bs ++ cs) b := by
  intro io rest hio
  rw [append_assoc] at hio
  obtain ⟨io1, hx1, hio1⟩ := hx io _ hio
  obtain ⟨io2, hf2, hio2⟩ := hf io1 rest hio1
  exact ⟨io2, (Exec.bind_ok hx1).trans hf2, hio2⟩

lemma Consumes.wrapped {message : Message} (hx : Consumes limit x bs a) :
    Consumes limit (wrapped message x) bs a := by
  intro io rest hio
  obtain ⟨io', hok, hio'⟩ := hx io rest hio
  exact ⟨io', wrapped_ok hok, hio'⟩

/-- Bytes asked for and then read. -/
lemma Consumes.slice {message : Message} {n : ℕ} {f : List Byte → Exec Io Error β}
    (hn : bs.length = n) (hlimit : n ≤ limit) (hf : Consumes limit (f bs) cs b) :
    Consumes limit (Srs.wrapped message (grow n) >>= fun _ => readSlice n >>= f) (bs ++ cs) b := by
  intro io rest hio
  subst hn
  have hle : bs.length ≤ (bs ++ cs ++ rest).length := by
    rw [length_append, length_append]
    omega
  obtain ⟨io1, hgrow, hio1, hhave⟩ := grow_spec hio hle hlimit
  rw [append_assoc] at hio1
  obtain ⟨io2, hslice, hio2⟩ := readSlice_spec hio1 hhave
  obtain ⟨io3, hf3, hio3⟩ := hf io2 rest hio2
  refine ⟨io3, ?_, hio3⟩
  rw [Exec.bind_ok (wrapped_ok hgrow), Exec.bind_ok hslice]
  exact hf3

end Consumes

end Srs.Rtmp
