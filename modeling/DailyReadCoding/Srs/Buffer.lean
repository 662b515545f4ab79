import DailyReadCoding.Lib.Exec
import DailyReadCoding.Lib.BigEndian

/-!
# The byte buffer

`SrsBuffer` is a block of bytes with a position in it.  It is kept as the bytes in front of the
position and those behind it, so that the position cannot leave the block.  A failed `srs_assert`
is an error of its own.
-/

namespace Srs

open List Exec

open ByteMemory (Byte)
open BigEndian

/-! ## Errors -/

inductive ErrorCode
  | rtmpAmf0Decode
  | rtmpAmf0Encode
  | rtmpAmf0Invalid
  | rtmpChunkStart
  | rtmpPacketSize
  | readerBufferOverflow
  | socketRead
  deriving DecidableEq, Repr

/-- The text of an error, with the values printed in it. -/
inductive Message
  /-- No values. -/
  | text (what : String)
  /-- `<what>requires %d only %d bytes` -/
  | requires (what : String) (size left : ℤ)
  /-- `<what>marker=%#x` -/
  | marker (what : String) (marker : ℤ)
  /-- `<what>name=%s` -/
  | name (what : String) (name : List Byte)
  /-- The numbers stand where the text has `%d`. -/
  | values (text : String) (values : List ℤ)
  deriving DecidableEq, Repr

/-- `srs_error_t` -/
inductive Error
  /-- `srs_assert` -/
  | assertion
  /-- A loop of the model was cut off. -/
  | fuel
  /-- An access outside of an array. -/
  | outOfBounds
  /-- `srs_error_new` -/
  | new (code : ErrorCode) (message : Message)
  /-- `srs_error_wrap` -/
  | wrap (err : Error) (message : Message)
  deriving DecidableEq, Repr

/-- The error came from the model and not from the source. -/
def Error.IsFuel : Error → Prop
  | .fuel => True
  | .wrap err _ => err.IsFuel
  | _ => False

/-! ## The buffer -/

/-- `SrsBuffer` -/
structure Buffer where
  before : List Byte
  after : List Byte
  deriving DecidableEq, Repr

/-- A program on a buffer. -/
abbrev M : Type → Type := Exec Buffer Error

def Buffer.left (b : Buffer) : ℤ := b.after.length

def Buffer.empty (b : Buffer) : Bool := b.after.isEmpty

def Buffer.require (b : Buffer) (requiredSize : ℤ) : Bool :=
  if requiredSize < 0 then false else requiredSize ≤ b.left

def skip (size : ℤ) : M Unit := fun b =>
  let bytes := b.before ++ b.after
  let pos := b.before.length + size
  if 0 ≤ pos ∧ pos ≤ bytes.length then
    .ok ((), ⟨bytes.take pos.toNat, bytes.drop pos.toNat⟩)
  else .error .assertion

/-- The bytes that a read consumes. -/
def take (n : ℕ) : M (List Byte) := fun b =>
  if b.require n then .ok (b.after.take n, ⟨b.before ++ b.after.take n, b.after.drop n⟩)
  else .error .assertion

/-- Bytes written. -/
def put (bytes : List Byte) : M Unit := fun b =>
  if b.require bytes.length then .ok ((), ⟨b.before ++ bytes, b.after.drop bytes.length⟩)
  else .error .assertion

def read1bytes : M (BitVec 8) := do return BitVec.ofNat 8 (ofBytes (← take 1))

def read2bytes : M (BitVec 16) := do return BitVec.ofNat 16 (ofBytes (← take 2))

def read3bytes : M (BitVec 32) := do return BitVec.ofNat 32 (ofBytes (← take 3))

def read4bytes : M (BitVec 32) := do return BitVec.ofNat 32 (ofBytes (← take 4))

def read8bytes : M (BitVec 64) := do return BitVec.ofNat 64 (ofBytes (← take 8))

def readString (len : ℕ) : M (List Byte) := take len

def write1bytes (value : BitVec 8) : M Unit := put (toBytes 1 value.toNat)

def write2bytes (value : BitVec 16) : M Unit := put (toBytes 2 value.toNat)

def write4bytes (value : BitVec 32) : M Unit := put (toBytes 4 value.toNat)

def write8bytes (value : BitVec 64) : M Unit := put (toBytes 8 value.toNat)

def writeString (value : List Byte) : M Unit := put value

/-- `if (!stream->require(size)) return srs_error_new(code, "<what>requires ..")` -/
def requireOr (code : ErrorCode) (what : String) (size : ℤ) : M Unit := fun b =>
  if b.require size then .ok ((), b) else .error (.new code (.requires what size b.left))

/-- `if ((err = x) != srs_success) return srs_error_wrap(err, message)` -/
def wrapped {σ α : Type} (message : Message) (x : Exec σ Error α) : Exec σ Error α :=
  Exec.rethrow (.wrap · message) x

/-! ## What the operations do -/

variable {code : ErrorCode} {what : String} {message : Message}

section Spec

variable {pre bs rest : List Byte} {b : Buffer} {n : ℕ}

@[simp] lemma require_natCast : b.require n = decide (n ≤ b.after.length) := by
  have h : ¬ (n : ℤ) < 0 := by omega
  simp [Buffer.require, Buffer.left, h]

/-- The bytes are there and are taken. -/
lemma take_append (hn : bs.length = n) :
    take n ⟨pre, bs ++ rest⟩ = .ok (bs, ⟨pre ++ bs, rest⟩) := by
  subst hn
  simp [take]

lemma put_append {room : List Byte} (hn : room.length = bs.length) :
    put bs ⟨pre, room ++ rest⟩ = .ok ((), ⟨pre ++ bs, rest⟩) := by
  simp [put, ← hn]

lemma skip_back (hn : bs.length = n) :
    skip (-n) ⟨pre ++ bs, rest⟩ = .ok ((), ⟨pre, bs ++ rest⟩) := by
  subst hn
  have hpos : (0 : ℤ) ≤ bs.length + rest.length := by omega
  simp [skip, hpos]

lemma requireOr_of_le (h : n ≤ b.after.length) : requireOr code what n b = .ok ((), b) := by
  simp [requireOr, h]

lemma wrapped_ok {σ α : Type} {x : Exec σ Error α} {a : α} {s s' : σ}
    (h : x s = .ok (a, s')) : wrapped message x s = .ok (a, s') := rethrow_ok h

/-- The bytes are there, or it fails. -/
lemma sat_requireOr {size : ℤ} :
    Exec.Sat (requireOr code what size) b (fun _ b' => b' = b ∧ b.require size = true)
      (¬ ·.IsFuel) := by
  rw [Exec.Sat, requireOr]
  split_ifs with h
  · exact ⟨rfl, h⟩
  · exact id

/-- A read consumes what it reads. -/
lemma sat_take : Exec.Sat (take n) b
    (fun bs b' => b.after = bs ++ b'.after ∧ b'.before = b.before ++ bs ∧ bs.length = n)
    (¬ ·.IsFuel) := by
  rw [Exec.Sat, take]
  split_ifs with h
  · rw [require_natCast, decide_eq_true_eq] at h
    exact ⟨(take_append_drop n b.after).symm, rfl, length_take_of_le h⟩
  · exact id

/-- A value made of the bytes that are read. -/
lemma sat_word {α : Type} {g : List Byte → α} : Exec.Sat (take n >>= fun bs => pure (g bs)) b
      (fun v b' => ∃ bs, bs.length = n ∧ b.after = bs ++ b'.after ∧ b'.before = b.before ++ bs ∧
        v = g bs) (¬ ·.IsFuel) := by
  refine sat_take.bind fun bs b' h => ?_
  exact Exec.Sat.pure ⟨bs, h.2.2, h.1, h.2.1, rfl⟩

/-- The bytes are asked for, and a value made of them is used. -/
lemma sat_requireWord {α β : Type} {g : List Byte → α} {f : α → M β} {size : ℤ}
    {Q : β → Buffer → Prop}
    (hf : ∀ bs b', bs.length = n → b.after = bs ++ b'.after →
    Exec.Sat (f (g bs)) b' Q (¬ ·.IsFuel)) :
    Exec.Sat (requireOr code what size >>= fun _ => (take n >>= fun bs => pure (g bs)) >>= f) b Q
      (¬ ·.IsFuel) := by
  refine sat_requireOr.bind fun _ b1 h1 => sat_word.bind fun _ b2 h2 => ?_
  obtain ⟨rfl, -⟩ := h1
  obtain ⟨bs, hbs, hafter, -, rfl⟩ := h2
  exact hf bs b2 hbs hafter

lemma sat_wrapped {α : Type} {x : M α} {Q : α → Buffer → Prop}
    (hx : Exec.Sat x b Q (¬ ·.IsFuel)) : Exec.Sat (wrapped message x) b Q (¬ ·.IsFuel) :=
  hx.rethrow fun _ he => he

end Spec

/-! ## Programs that read or write given bytes -/

/-- The program writes these bytes, wherever there is room for them. -/
def Writes (x : M Unit) (bs : List Byte) : Prop :=
  ∀ pre room rest, room.length = bs.length → x ⟨pre, room ++ rest⟩ = .ok ((), ⟨pre ++ bs, rest⟩)

/-- The program reads these bytes as a value, whatever comes behind them. -/
def Reads {α : Type} (x : M α) (bs : List Byte) (a : α) : Prop :=
  ∀ pre rest, x ⟨pre, bs ++ rest⟩ = .ok (a, ⟨pre ++ bs, rest⟩)

section Codec

variable {α β : Type} {x : M α} {f : α → M β} {a : α} {b : β} {bs cs : List Byte}

lemma Writes.put (bs : List Byte) : Writes (put bs) bs := fun _ _ _ h => put_append h

lemma Writes.skip : Writes (pure ()) [] := by
  intro pre room rest h
  rw [length_nil, length_eq_zero_iff] at h
  rw [h, append_nil]
  rfl

lemma Writes.seq {x y : M Unit} (hx : Writes x bs) (hy : Writes y cs) :
    Writes (x >>= fun _ => y) (bs ++ cs) := by
  intro pre room rest h
  rw [length_append] at h
  have hsplit := take_append_drop bs.length room
  have htake : (room.take bs.length).length = bs.length := length_take_of_le (by omega)
  have hdrop : (room.drop bs.length).length = cs.length := by rw [length_drop]; omega
  rw [← hsplit, append_assoc, bind_ok (hx pre _ _ htake), hy _ _ _ hdrop, append_assoc]

lemma Writes.require {x : M Unit} {n : ℕ} (hx : Writes x bs)
    (hn : n ≤ bs.length) : Writes (requireOr code what n >>= fun _ => x) bs := by
  intro pre room rest h
  have hroom : n ≤ (room ++ rest).length := by rw [length_append]; omega
  rw [bind_ok (requireOr_of_le hroom)]
  exact hx pre room rest h

lemma Writes.wrapped {x : M Unit} (hx : Writes x bs) : Writes (wrapped message x) bs :=
  fun pre room rest h => wrapped_ok (hx pre room rest h)

lemma Reads.take (bs : List Byte) : Reads (take bs.length) bs bs := fun _ _ => take_append rfl

lemma Reads.pure (a : α) : Reads (pure a) [] a := by
  intro pre rest
  rw [append_nil]
  rfl

lemma Reads.bind (hx : Reads x bs a) (hf : Reads (f a) cs b) : Reads (x >>= f) (bs ++ cs) b := by
  intro pre rest
  rw [append_assoc, bind_ok (hx pre _), hf, append_assoc]

lemma Reads.map {g : α → β} (hx : Reads x bs a) : Reads
    (x >>= fun a => Pure.pure (g a)) bs (g a) := by
  have h := hx.bind (f := fun a => Pure.pure (g a)) (Reads.pure (g a))
  rwa [append_nil] at h

lemma Reads.require {n : ℕ} (hx : Reads x bs a)
    (hn : n ≤ bs.length) : Reads (requireOr code what n >>= fun _ => x) bs a := by
  intro pre rest
  have hbytes : n ≤ (bs ++ rest).length := by rw [length_append]; omega
  rw [bind_ok (requireOr_of_le hbytes)]
  exact hx pre rest

lemma Reads.wrapped (hx : Reads x bs a) : Reads (wrapped message x) bs a :=
  fun pre rest => wrapped_ok (hx pre rest)

lemma reads_read1bytes (v : BitVec 8) : Reads read1bytes [v] v := by
  intro pre rest
  have hlength : [v].length = 1 := rfl
  have hbyte : BitVec.ofNat 8 (ofBytes [v]) = v := by simp [ofBytes]
  rw [read1bytes, bind_ok (take_append hlength), hbyte]
  rfl

lemma reads_read2bytes (v : BitVec 16) : Reads read2bytes (toBytes 2 v.toNat) v := by
  intro pre rest
  rw [read2bytes, bind_ok (take_append (length_toBytes _ _)), ofNat_ofBytes_toBytes 2 v]
  rfl

lemma reads_read4bytes (v : BitVec 32) : Reads read4bytes (toBytes 4 v.toNat) v := by
  intro pre rest
  rw [read4bytes, bind_ok (take_append (length_toBytes _ _)), ofNat_ofBytes_toBytes 4 v]
  rfl

lemma reads_read8bytes (v : BitVec 64) : Reads read8bytes (toBytes 8 v.toNat) v := by
  intro pre rest
  rw [read8bytes, bind_ok (take_append (length_toBytes _ _)), ofNat_ofBytes_toBytes 8 v]
  rfl

end Codec

end Srs
