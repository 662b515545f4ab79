import DailyReadCoding.OceanBase.Serialization.VarInt

/-!
# Strings with a length prefix

`encode_vstr` writes the length as a variable length integer, the bytes and a zero byte.
`decode_vstr` gives back where the bytes stand.

**Reading.** The bound check counts the bytes of the string, the new position counts the zero byte
as well. `decodeVstr_inBounds_iff`: a string that ends with the data puts the position behind their
end, and nothing else goes wrong.

**Writing.** The check for room narrows the length of the encoding to an `int32_t`.
`encodeVstr_faithful_iff`: that is harmless as long as the narrowed length does not fit where the
length itself does not.

The null pointers that both functions ask for are left out; a source may be null.
-/

namespace OceanBase.Serialization

open ByteMemory VarInt List Serialization.Field Writer Memory

/-! ## Definitions -/

def encodedLengthVstr (len : ℤ) : ℤ := encodedLengthVi64 (BitVec.ofInt 64 len) + len + 1

/-- `static_cast<int32_t>` -/
def toInt32 (z : ℤ) : ℤ := (BitVec.ofInt 32 z).toInt

/-- The zero byte is written also when the length was not. -/
def encodeVstr (bufLen : ℤ) (out : Writer) (vbuf : Option (List Byte)) (len : ℤ) : Ret × Writer :=
  if 0 ≤ len ∧ bufLen - out.pos ≥ toInt32 (encodedLengthVstr len) then
    let (ret, out) := encodeVi64 bufLen out (BitVec.ofInt 64 len)
    let out :=
      match vbuf with
      | some bytes => if ret = Ret.success ∧ len > 0 then out.putAll (bytes.take len.toNat) else out
      | none => out
    (ret, out.put 0)
  else (.sizeOverflow, out)

/-- The output arguments `pos` and `lenp`. -/
structure VstrReader where
  pos : ℤ
  len : ℤ
  deriving DecidableEq

/-- Where the string stands, once its length is known. -/
def takeVstr (dataLen tmpPos tmpLen : ℤ) (r : VstrReader) : Option ℤ × VstrReader :=
  if tmpLen ≥ 0 then
    if dataLen - tmpPos ≥ tmpLen then (some tmpPos, ⟨tmpPos + (tmpLen + 1), tmpLen⟩)
    else (none, { r with len := -1 })
  else (none, r)

def decodeVstr (wild : Overshift 64) (mem : Memory) (dataLen : ℤ) (r : VstrReader) :
    Option ℤ × VstrReader :=
  if dataLen < 0 ∨ r.pos < 0 then (none, r)
  else
    match decodeVi64 wild mem dataLen ⟨r.pos, 0⟩ with
    | (.success, v) => takeVstr dataLen v.pos v.val.toInt r
    | _ => (none, { r with len := -1 })

/-- The overload with a destination, which takes no string longer than `bufLen`. -/
def decodeVstrInto (wild : Overshift 64) (mem : Memory) (dataLen : ℤ) (dest : Memory) (bufLen : ℤ)
    (r : VstrReader) : Option ℤ × VstrReader × Memory :=
  if dataLen < 0 ∨ r.pos < 0 ∨ bufLen < 0 then (none, r, dest)
  else
    match decodeVi64 wild mem dataLen ⟨r.pos, 0⟩ with
    | (.success, v) =>
      if v.val.toInt > bufLen then (none, { r with len := -1 }, dest)
      else
        match takeVstr dataLen v.pos v.val.toInt r with
        | (some str, r) => (some str, r, dest.write 0 (mem.read str r.len.toNat))
        | (none, r) => (none, r, dest)
    | _ => (none, { r with len := -1 }, dest)

/-! ## Reading -/

section Read

variable {wild : Overshift 64} {mem : Memory} {dataLen : ℤ} {r : VstrReader}

/-- The position is behind at least one byte and not behind the data. -/
lemma decodeViLoop_pos {w left shift : ℕ} {wild : Overshift w} {p q : ℤ} {v u : BitVec w}
    (h : decodeViLoop wild mem left p shift v = some (q, u)) : p < q ∧ q ≤ p + left := by
  induction left generalizing p shift v with
  | zero => simp [decodeViLoop] at h
  | succ left ih =>
    rw [decodeViLoop] at h
    split_ifs at h with hmore
    · have := ih h
      omega
    · simp only [Option.some.injEq, Prod.mk.injEq] at h
      omega

lemma decodeVi64_pos {v v' : ViReader 64} (h : decodeVi64 wild mem dataLen v = (.success, v')) :
    v.pos < v'.pos ∧ v'.pos ≤ dataLen := by
  rw [decodeVi64, decodeVi] at h
  split at h
  · next q u hloop =>
      have hpos := decodeViLoop_pos hloop
      cases h
      dsimp only
      omega
  · simp at h

/-- What the caller may rely on. -/
def InBounds (dataLen : ℤ) (r : VstrReader) (answer : Option ℤ × VstrReader) : Prop :=
  (∀ str, answer.1 = some str →
    0 ≤ answer.2.len ∧ 0 ≤ str ∧ str + answer.2.len ≤ dataLen ∧ answer.2.pos ≤ dataLen) ∧
  (answer.1 = none → answer.2.pos = r.pos)

lemma takeVstr_inBounds_iff {tmpPos tmpLen : ℤ} (hpos : 0 ≤ tmpPos) :
    InBounds dataLen r (takeVstr dataLen tmpPos tmpLen r) ↔
      ¬ (0 ≤ tmpLen ∧ tmpPos + tmpLen = dataLen) := by
  unfold takeVstr InBounds
  split_ifs with hlen hroom
  · simp only [Option.some.injEq, forall_eq', false_implies, and_true]
    omega
  · simp only [false_implies, implies_true, true_and, true_iff]
    omega
  · simp only [false_implies, implies_true, true_and, true_iff]
    omega

/-- A length is decoded, and the string ends with the data. -/
def EndsWithData (wild : Overshift 64) (mem : Memory) (dataLen pos : ℤ) : Prop :=
  ∃ v, decodeVi64 wild mem dataLen ⟨pos, 0⟩ = (.success, v) ∧ 0 ≤ v.val.toInt ∧
    v.pos + v.val.toInt = dataLen

lemma decodeVstr_inBounds (hpos : 0 ≤ r.pos) (hdata : r.pos ≤ dataLen) :
    InBounds dataLen r (decodeVstr wild mem dataLen r) ↔ ¬ EndsWithData wild mem dataLen r.pos := by
  rw [decodeVstr, if_neg (by omega)]
  cases hv : decodeVi64 wild mem dataLen ⟨r.pos, 0⟩ with
  | mk ret v =>
    cases ret with
    | success =>
      have hbound := decodeVi64_pos hv
      simp only [EndsWithData, hv, Prod.mk.injEq, true_and, exists_eq_left']
      exact takeVstr_inBounds_iff (by dsimp only at hbound; omega)
    | sizeOverflow =>
      refine iff_of_true ⟨by simp, fun _ => rfl⟩ ?_
      rintro ⟨v', hv', -⟩
      exact absurd (hv.symm.trans hv') (by simp)
    | deserializeError =>
      refine iff_of_true ⟨by simp, fun _ => rfl⟩ ?_
      rintro ⟨v', hv', -⟩
      exact absurd (hv.symm.trans hv') (by simp)

/-- The overload with a destination refuses more, and is otherwise the same. -/
lemma decodeVstrInto_cases (wild : Overshift 64) (mem : Memory) (dataLen : ℤ) (dest : Memory)
    (bufLen : ℤ) (r : VstrReader) : ((decodeVstrInto wild mem dataLen dest bufLen r).1 = none ∧
      (decodeVstrInto wild mem dataLen dest bufLen r).2.1.pos = r.pos) ∨
    ((decodeVstrInto wild mem dataLen dest bufLen r).1,
      (decodeVstrInto wild mem dataLen dest bufLen r).2.1) = decodeVstr wild mem dataLen r := by
  unfold decodeVstrInto decodeVstr
  by_cases hguard : dataLen < 0 ∨ r.pos < 0 ∨ bufLen < 0
  · rw [if_pos hguard]
    exact .inl ⟨rfl, rfl⟩
  rw [if_neg hguard, if_neg (by omega)]
  cases hv : decodeVi64 wild mem dataLen ⟨r.pos, 0⟩ with
  | mk ret v =>
    cases ret with
    | success =>
      dsimp only
      by_cases hlong : v.val.toInt > bufLen
      · rw [if_pos hlong]
        exact .inl ⟨rfl, rfl⟩
      · rw [if_neg hlong]
        right
        cases htake : takeVstr dataLen v.pos v.val.toInt r with
        | mk str r' => cases str <;> rfl
    | sizeOverflow => exact .inl ⟨rfl, rfl⟩
    | deserializeError => exact .inl ⟨rfl, rfl⟩

end Read

/-- **Reading stays inside.** Both overloads give a string inside of the data with a length that is
not negative, a position that is not behind the data, and on failure the old position, just when no
string ends with the data: its zero byte would be behind them. -/
theorem decodeVstr_inBounds_iff (wild : Overshift 64) (mem : Memory) (dataLen : ℤ) (r : VstrReader)
    (hpos : 0 ≤ r.pos) (hdata : r.pos ≤ dataLen) :
    (InBounds dataLen r (decodeVstr wild mem dataLen r) ∧
      ∀ dest bufLen, InBounds dataLen r ((decodeVstrInto wild mem dataLen dest bufLen r).1,
        (decodeVstrInto wild mem dataLen dest bufLen r).2.1)) ↔
      ¬ EndsWithData wild mem dataLen r.pos := by
  rw [decodeVstr_inBounds hpos hdata]
  refine ⟨And.left, fun h => ⟨h, ?_⟩⟩
  intro dest bufLen
  rcases decodeVstrInto_cases wild mem dataLen dest bufLen r with ⟨hnone, hsame⟩ | hsame
  · exact ⟨fun str hstr => by simp [hnone] at hstr, fun _ => hsame⟩
  · rw [hsame]
    exact (decodeVstr_inBounds hpos hdata).2 h

/-- Two bytes and the zero byte. -/
theorem decodeVstr_inBounds_iff_two :
    InBounds 4 ⟨0, 0⟩ (decodeVstr (fun x _ => x) (fun p => if p = 0 then 2 else 0) 4 ⟨0, 0⟩) := by
  refine ((decodeVstr_inBounds_iff (fun x _ => x) (fun p => if p = 0 then 2 else 0) 4 ⟨0, 0⟩
    (by decide) (by decide)).2 ?_).1
  rintro ⟨v, hv, -, hend⟩
  have hdecode : decodeVi64 (fun x _ => x) (fun p => if p = 0 then 2 else 0) 4 ⟨0, 0⟩
      = (.success, ⟨1, 2⟩) := by decide
  cases hv
  exact absurd hend (by decide)

/-- A single byte of data that says that the string is empty. -/
theorem decodeVstr_behindData :
    decodeVstr (fun x _ => x) (fun _ => 0) 1 ⟨0, 0⟩ = (some 1, ⟨2, 0⟩) := by
  decide

/-! ## Writing -/

section Write

variable {bufLen : ℤ} {out : Writer} {src : List Byte}

lemma toInt32_le {z : ℤ} (hz : 0 ≤ z) : toInt32 z ≤ z := by
  rw [toInt32, BitVec.toInt_ofInt, Int.bmod]
  split_ifs <;> omega

/-- The encoding of a string. -/
def vstrBytes (src : List Byte) : List Byte :=
  (Field.vi64 (BitVec.ofInt 64 src.length)).bytes ++ src ++ [0]

lemma length_vstrBytes (src : List Byte) :
    ((vstrBytes src).length : ℤ) = encodedLengthVstr src.length := by
  rw [vstrBytes, length_append, length_append, Nat.cast_add, Nat.cast_add, length_bytes]
  rfl

lemma encodedLengthVstr_pos (src : List Byte) : 0 < encodedLengthVstr src.length := by
  have := (vi64 (BitVec.ofInt 64 src.length)).encodedLength_pos
  simp only [encodedLength] at this
  unfold encodedLengthVstr
  omega

lemma encodeVi64_eq (bufLen : ℤ) (out : Writer) (v : BitVec 64) : encodeVi64 bufLen out v =
    if encodedLengthVi64 v ≤ bufLen - out.pos then (.success, out.putAll (Field.vi64 v).bytes)
    else (.sizeOverflow, out) :=
  (vi64 v).encode_eq bufLen out

/-- The source: the bytes, or null for no bytes. -/
def Source (vbuf : Option (List Byte)) (src : List Byte) : Prop :=
  vbuf = some src ∨ src = [] ∧ vbuf = none

/-- What is written once the length is, whatever room there is. -/
lemma encodeVstr_success {vbuf : Option (List Byte)} (hsrc : Source vbuf src)
    (hcheck : toInt32 (encodedLengthVstr src.length) ≤ bufLen - out.pos)
    (hhead : encodedLengthVi64 (BitVec.ofInt 64 src.length) ≤ bufLen - out.pos) :
    encodeVstr bufLen out vbuf src.length = (.success, out.putAll (vstrBytes src)) := by
  have hput : ∀ w : Writer, w.put 0 = w.putAll [0] := by
    intro w
    rw [← putAll_nil (w.put 0), put_putAll]
  rw [encodeVstr, if_pos ⟨by omega, hcheck⟩, encodeVi64_eq, if_pos hhead]
  rcases hsrc with rfl | ⟨rfl, rfl⟩
  · by_cases hlen : (src.length : ℤ) > 0
    · simp only [hlen, and_self, if_true, Int.toNat_natCast, take_length]
      rw [hput, putAll_putAll, putAll_putAll, vstrBytes, append_assoc]
    · obtain rfl : src = [] := length_eq_zero_iff.1 (by omega)
      simp only [length_nil, Nat.cast_zero, lt_self_iff_false, and_false, if_false]
      rw [hput, putAll_putAll]
      rfl
  · simp only [length_nil]
    rw [hput, putAll_putAll]
    rfl

/-- The length has no room, and the zero byte is written all the same. -/
lemma encodeVstr_noRoom {vbuf : Option (List Byte)}
    (hcheck : toInt32 (encodedLengthVstr src.length) ≤ bufLen - out.pos)
    (hhead : bufLen - out.pos < encodedLengthVi64 (BitVec.ofInt 64 src.length)) :
    encodeVstr bufLen out vbuf src.length = (.sizeOverflow, out.put 0) := by
  rw [encodeVstr, if_pos ⟨by omega, hcheck⟩, encodeVi64_eq, if_neg (by omega)]
  cases vbuf with
  | none => rfl
  | some bytes => simp

lemma putAll_vstrBytes_last (mem : Memory) (pos : ℤ) (src : List Byte) :
    ((⟨mem, pos⟩ : Writer).putAll (vstrBytes src)).mem
    (pos + encodedLengthVstr src.length - 1) = 0 := by
  have hlen := length_vstrBytes src
  rw [vstrBytes, length_append, length_singleton] at hlen
  have hpos : pos + encodedLengthVstr src.length - 1
      = pos + ((vi64 (BitVec.ofInt 64 src.length)).bytes ++ src).length := by omega
  rw [vstrBytes, ← putAll_putAll, hpos]
  exact put_same _ _ _

lemma decodeVstr_bytes {wild : Overshift 64} {mem : Memory} {dataLen p : ℤ}
    (hlen : (src.length : ℤ) < 2 ^ 63) (hp : 0 ≤ p)
    (hread : mem.read p (vstrBytes src).length = vstrBytes src)
    (hroom : p + encodedLengthVstr src.length ≤ dataLen) (old : ℤ) :
    ∃ str, decodeVstr wild mem dataLen ⟨p, old⟩
        = (some str, ⟨p + encodedLengthVstr src.length, src.length⟩) ∧
      mem.read str src.length = src := by
  have hpos := encodedLengthVstr_pos src
  have hval : (BitVec.ofInt 64 (src.length : ℤ)).toInt = src.length := by
    rw [BitVec.toInt_ofInt, Int.bmod]
    split_ifs <;> omega
  have hhead : mem.read p (vi64 (BitVec.ofInt 64 src.length)).bytes.length
      = (vi64 (BitVec.ofInt 64 src.length)).bytes := by
    have hmiddle := @read_middle mem p [] (vi64 (BitVec.ofInt 64 src.length)).bytes
      (src ++ [0]) (by simpa [vstrBytes] using hread)
    simpa using hmiddle
  have hdecode := @decodeVi64_bytes wild mem dataLen p _ hhead
    (by unfold encodedLengthVstr at hroom; omega) 0
  refine ⟨p + encodedLengthVi64 (BitVec.ofInt 64 src.length), ?_, ?_⟩
  · have hfit : dataLen - (p + encodedLengthVi64 (BitVec.ofInt 64 src.length)) ≥ src.length := by
      unfold encodedLengthVstr at hroom
      omega
    rw [decodeVstr, if_neg (by dsimp only; omega), hdecode]
    dsimp only
    rw [hval, takeVstr, if_pos (by omega), if_pos hfit]
    unfold encodedLengthVstr
    ring_nf
  · have hmiddle := read_middle hread
    rw [length_bytes] at hmiddle
    exact hmiddle

end Write

/-- Whatever the destination held: the call fails and writes nothing, or it writes inside of the
buffer, advances by the length of the encoding, and the string is read back. -/
def Faithful (wild : Overshift 64) (bufLen pos : ℤ) (vbuf : Option (List Byte)) (src : List Byte) :
    Prop :=
  ∀ mem ret out, encodeVstr bufLen ⟨mem, pos⟩ vbuf src.length = (ret, out) →
    (ret ≠ .success ∧ out = ⟨mem, pos⟩) ∨
    (ret = .success ∧ (∀ q, ¬ (pos ≤ q ∧ q < bufLen) → out.mem q = mem q) ∧
      out.pos = pos + encodedLengthVstr src.length ∧
      ∀ dataLen old, out.pos ≤ dataLen → ∃ str,
        decodeVstr wild out.mem dataLen ⟨pos, old⟩ = (some str, ⟨out.pos, src.length⟩) ∧
          out.mem.read str src.length = src)

/-- **Writing is faithful** if there is room for the encoding, or the narrowed length shows that
there is none; and only then. -/
theorem encodeVstr_faithful_iff (wild : Overshift 64) (bufLen pos : ℤ) (vbuf : Option (List Byte))
    (src : List Byte) (hpos : 0 ≤ pos) (hlen : (src.length : ℤ) < 2 ^ 63) (hsrc : Source vbuf src) :
    Faithful wild bufLen pos vbuf src ↔ encodedLengthVstr src.length ≤ bufLen - pos ∨
        bufLen - pos < toInt32 (encodedLengthVstr src.length) := by
  have hlength := length_vstrBytes src
  constructor
  · intro h
    by_contra hnot
    obtain ⟨hshort, hcheck⟩ := not_or.1 hnot
    rw [not_lt] at hcheck
    -- a memory without a zero byte shows the last write
    rcases le_or_gt (encodedLengthVi64 (BitVec.ofInt 64 src.length)) (bufLen - pos) with hfit | hfit
    · rcases h (fun _ => 1) _ _ (encodeVstr_success hsrc hcheck hfit) with ⟨hne, -⟩ | ⟨-, hwrite, -⟩
      · exact hne rfl
      · have hlast := hwrite (pos + encodedLengthVstr src.length - 1) (by omega)
        exact absurd (hlast.symm.trans (putAll_vstrBytes_last _ pos src)) (by decide)
    · rcases h (fun _ => 1) _ _ (encodeVstr_noRoom hcheck hfit) with ⟨-, hsame⟩ | ⟨hret, -⟩
      · have hsame := congrArg Writer.pos hsame
        simp [Writer.put] at hsame
      · simp at hret
  · rintro (hroom | hrefuse) mem ret out hout
    · right
      have hcheck := (toInt32_le (le_of_lt (encodedLengthVstr_pos src))).trans hroom
      have hhead : encodedLengthVi64 (BitVec.ofInt 64 src.length) ≤ bufLen - pos := by
        unfold encodedLengthVstr at hroom
        omega
      rw [encodeVstr_success hsrc hcheck hhead] at hout
      cases hout
      refine ⟨rfl, ?_, by rw [Writer.putAll, hlength], ?_⟩
      · intro q hq
        rcases lt_or_ge q pos with hlt | hge
        · exact write_of_lt _ _ hlt
        · have hend : pos + (vstrBytes src).length ≤ q := by omega
          exact write_of_le _ _ hend
      · intro dataLen old hdata
        rw [Writer.putAll, hlength] at hdata ⊢
        exact decodeVstr_bytes hlen hpos (read_write mem pos _) hdata old
    · left
      rw [encodeVstr, if_neg (by simp only [not_and, not_le, ge_iff_le]; omega)] at hout
      cases hout
      exact ⟨by simp, rfl⟩

/-- Two bytes in a buffer that just holds their encoding. -/
theorem encodeVstr_faithful_iff_two : Faithful (fun x _ => x) 4 0 (some [104, 105]) [104, 105] :=
  (encodeVstr_faithful_iff (fun x _ => x) 4 0 (some [104, 105]) [104, 105] (by decide) (by decide)
    (.inl rfl)).2 (.inl (by decide))

/-- The length of the encoding of `2 ^ 31` bytes is negative as an `int32_t`. -/
lemma encodeVstr_of_length (src : List Byte) (hlen : (src.length : ℤ) = 2 ^ 31) :
    encodeVstr 0 blank (some src) src.length = (.sizeOverflow, ⟨blank.mem.put 0 0, 1⟩) ∧
      ∃ out, encodeVstr 5 blank (some src) src.length = (.success, out) ∧ out.pos = 2 ^ 31 + 6 := by
  have hneg : toInt32 (encodedLengthVstr (2 ^ 31)) = -2147483642 := by decide
  have hfive : encodedLengthVi64 (BitVec.ofInt 64 (2 ^ 31)) = 5 := by decide
  have hzero : blank.pos = 0 := rfl
  constructor
  · exact encodeVstr_noRoom (by rw [hlen, hneg, hzero]; omega) (by rw [hlen, hfive, hzero]; omega)
  · refine ⟨_, encodeVstr_success (.inl rfl) (by rw [hlen, hneg, hzero]; omega)
      (by rw [hlen, hfive, hzero]; omega), ?_⟩
    have htotal : encodedLengthVstr (2 ^ 31) = 2 ^ 31 + 6 := by decide
    rw [Writer.putAll, length_vstrBytes, hlen, hzero, htotal, zero_add]

/-- A string of `2 ^ 31` bytes. Without any room a zero byte is written and the position moves; with
room for the length alone the string is written behind the end of the buffer. -/
theorem encodeVstr_narrowed : ∃ src : List Byte, (src.length : ℤ) = 2 ^ 31 ∧
      encodeVstr 0 blank (some src) src.length = (.sizeOverflow, ⟨blank.mem.put 0 0, 1⟩) ∧
      ∃ out, encodeVstr 5 blank (some src) src.length = (.success, out) ∧ out.pos = 2 ^ 31 + 6 := by
  have hlen : ((replicate (2 ^ 31) (7 : Byte)).length : ℤ) = 2 ^ 31 := by norm_num
  exact ⟨_, hlen, encodeVstr_of_length _ hlen⟩

end OceanBase.Serialization
