import DailyReadCoding.Srs.Amf0

/-!
# Writing AMF0 values and reading them back

The reader takes the bytes `00 00 09` for an end marker before it looks at the marker of a value.  A
number is written as the marker `00` and the bytes of the `double`, so that a number with `00 09` in
front is read as an end marker, and no input at all is read as such a number.  Every other value is
read back.
-/

namespace Srs.Amf0

open List Exec

open ByteMemory (Byte)
open BigEndian

/-! ## The format -/

/-- The bytes of a string: their number, and the bytes themselves. -/
def utf8Bytes (value : List Byte) : List Byte := toBytes 2 value.length ++ value

/-- The end marker. -/
def eofBytes : List Byte := [0x00, 0x00, RTMP_AMF0_ObjectEnd]

mutual

/-- The bytes of a value. -/
def Any.encode : Any → List Byte
  | .str value => [RTMP_AMF0_String] ++ utf8Bytes value
  | .boolean value => [RTMP_AMF0_Boolean] ++ [if value then 0x01 else 0x00]
  | .number value => [RTMP_AMF0_Number] ++ toBytes 8 value.toNat
  | .date dateValue timeZone =>
    [RTMP_AMF0_Date] ++ (toBytes 8 dateValue.toNat ++ toBytes 2 timeZone.toNat)
  | .null => [RTMP_AMF0_Null]
  | .undefined => [RTMP_AMF0_Undefined]
  | .object properties => [RTMP_AMF0_Object] ++ (encodeProperties properties ++ eofBytes)
  | .ecmaArray count properties =>
    [RTMP_AMF0_EcmaArray] ++ (toBytes 4 count.toNat ++ (encodeProperties properties ++ eofBytes))
  | .strictArray count properties =>
    [RTMP_AMF0_StrictArray] ++ (toBytes 4 count.toNat ++ encodeElements properties)
  | .objectEof => eofBytes

def encodeProperties : List (List Byte × Any) → List Byte
  | [] => []
  | (name, value) :: properties =>
    utf8Bytes name ++ (value.encode ++ encodeProperties properties)

def encodeElements : List Any → List Byte
  | [] => []
  | value :: properties => value.encode ++ encodeElements properties

end

@[simp] lemma length_utf8Bytes (value : List Byte) : (utf8Bytes value).length = utf8Size value := by
  simp [utf8Bytes, utf8Size]

mutual

/-- `total_size` is the number of bytes. -/
theorem length_encode : ∀ t : Any, t.encode.length = t.totalSize
  | .str value => by simp [Any.encode, Any.totalSize, add_comm]
  | .boolean _ => rfl
  | .number _ => by simp [Any.encode, Any.totalSize]
  | .date _ _ => by simp [Any.encode, Any.totalSize]
  | .null => rfl
  | .undefined => rfl
  | .object properties => by
    have h := length_encodeProperties properties
    simp [Any.encode, Any.totalSize, objectEofSize, eofBytes, h]
    omega
  | .ecmaArray _ properties => by
    have h := length_encodeProperties properties
    simp [Any.encode, Any.totalSize, objectEofSize, eofBytes, h]
    omega
  | .strictArray _ properties => by
    have h := length_encodeElements properties
    simp [Any.encode, Any.totalSize, h]
    omega
  | .objectEof => rfl

theorem length_encodeProperties : ∀ properties : List (List Byte × Any),
    (encodeProperties properties).length = propertiesSize properties
  | [] => rfl
  | (name, value) :: properties => by
    have hvalue := length_encode value
    have hrest := length_encodeProperties properties
    simp [encodeProperties, propertiesSize, hvalue, hrest, add_assoc]

theorem length_encodeElements : ∀ properties : List Any,
    (encodeElements properties).length = elementsSize properties
  | [] => rfl
  | value :: properties => by
    have hvalue := length_encode value
    have hrest := length_encodeElements properties
    simp [encodeElements, elementsSize, hvalue, hrest]

end

/-- Small numbers are themselves as signed words. -/
lemma toInt_ofNat_of_lt {w n : ℕ} (h : 2 * n < 2 ^ w) : (BitVec.ofNat w n).toInt = n := by
  have hmod : n % 2 ^ w = n := Nat.mod_eq_of_lt (by omega)
  rw [BitVec.toInt_eq_toNat_of_lt (by rwa [BitVec.toNat_ofNat, hmod]), BitVec.toNat_ofNat, hmod]

/-! ## Values -/

mutual

/-- Values as they are built: strings not too long, names distinct, strict arrays with the right
count, and no end marker as a value. -/
def Any.WellFormed : Any → Prop
  | .str value => value.length ≤ 32767
  | .object properties => (properties.map (·.1)).Nodup ∧ PropertiesWellFormed properties
  | .ecmaArray _ properties => (properties.map (·.1)).Nodup ∧ PropertiesWellFormed properties
  | .strictArray count properties =>
    count = BitVec.ofNat 32 properties.length ∧ ElementsWellFormed properties
  | .objectEof => False
  | _ => True

def PropertiesWellFormed : List (List Byte × Any) → Prop
  | [] => True
  | (name, value) :: properties =>
    name.length ≤ 32767 ∧ value.WellFormed ∧ PropertiesWellFormed properties

def ElementsWellFormed : List Any → Prop
  | [] => True
  | value :: properties => value.WellFormed ∧ ElementsWellFormed properties

end

mutual

/-- No number begins with the bytes `00 09`. -/
def Any.NumbersReadable : Any → Prop
  | .number value => value.toNat / 2 ^ 48 ≠ 9
  | .object properties => PropertiesReadable properties
  | .ecmaArray _ properties => PropertiesReadable properties
  | .strictArray _ properties => ElementsReadable properties
  | _ => True

def PropertiesReadable : List (List Byte × Any) → Prop
  | [] => True
  | (_, value) :: properties => value.NumbersReadable ∧ PropertiesReadable properties

def ElementsReadable : List Any → Prop
  | [] => True
  | value :: properties => value.NumbersReadable ∧ ElementsReadable properties

end

/-! ## Writing -/

lemma writes_marker (what : String) (marker : Byte) : Writes (writeMarker what marker)
    [marker] := by
  have hbytes : toBytes 1 marker.toNat = [marker] := by simp [toBytes]
  have h := Writes.put (toBytes 1 marker.toNat)
  rw [hbytes] at h
  refine Writes.require (n := 1) ?_ (le_refl _)
  rw [write1bytes, hbytes]
  exact h

/-- Strings that fit two bytes of length are written. -/
lemma writes_utf8 {value : List Byte} (hlength : value.length ≤ 32767) :
    Writes (writeUtf8 value) (utf8Bytes value) := by
  have hlen16 : (BitVec.ofNat 16 value.length).toNat = value.length := by
    rw [BitVec.toNat_ofNat, Nat.mod_eq_of_lt (by omega)]
  have hlen32 : (BitVec.ofNat 32 value.length).toInt = (value.length : ℤ) :=
    toInt_ofNat_of_lt (by omega)
  refine Writes.require (n := 2) ?_ (by simp [utf8Size])
  have hput := Writes.put (toBytes 2 (BitVec.ofNat 16 value.length).toNat)
  rw [hlen16] at hput
  rw [write2bytes, hlen16]
  refine hput.seq ?_
  split_ifs with hempty
  · rw [length_eq_zero_iff.1 (Nat.le_zero.1 hempty)]
    exact Writes.skip
  · rw [hlen32]
    exact (Writes.put value).require (le_refl _)

lemma writes_objectEof : Writes writeObjectEof eofBytes := by
  have hput : Writes (write2bytes 0x00) [0x00, 0x00] := Writes.put [0x00, 0x00]
  have hmarker := writes_marker "EOF " RTMP_AMF0_ObjectEnd
  exact (hput.seq hmarker).require (n := 2) (by decide)

lemma writes_count (count : BitVec 32) : Writes (writeCount count) (toBytes 4 count.toNat) :=
  (Writes.put _).require (n := 4) (by simp)

mutual

/-- `write` writes the bytes of the value. -/
theorem writes_any : ∀ t : Any, t.WellFormed → Writes t.write t.encode
  | .str value, hwf => (writes_marker _ _).seq (writes_utf8 hwf)
  | .boolean value, _ => by
    refine (writes_marker _ _).seq (Writes.require (n := 1) ?_ (le_refl _))
    cases value
    · exact Writes.put [0x00]
    · exact Writes.put [0x01]
  | .number value, _ =>
    (writes_marker _ _).seq ((Writes.put (toBytes 8 value.toNat)).require (n := 8) (by simp))
  | .date dateValue timeZone, _ => by
    have htail : Writes (do requireOr .rtmpAmf0Encode "" 2; write2bytes timeZone)
        (toBytes 2 timeZone.toNat) := (Writes.put _).require (n := 2) (by simp)
    have hbody := (Writes.put (toBytes 8 dateValue.toNat)).seq htail
    exact (writes_marker _ _).seq (hbody.require (n := 8) (by simp))
  | .null, _ => writes_marker _ _
  | .undefined, _ => writes_marker _ _
  | .object properties, hwf =>
    (writes_marker _ _).seq ((writes_properties properties hwf.2).seq writes_objectEof.wrapped)
  | .ecmaArray count properties, hwf =>
    (writes_marker _ _).seq ((writes_count count).seq
      ((writes_properties properties hwf.2).seq writes_objectEof.wrapped))
  | .strictArray count properties, hwf =>
    (writes_marker _ _).seq ((writes_count count).seq (writes_elements properties hwf.2))

theorem writes_properties : ∀ properties : List (List Byte × Any), PropertiesWellFormed properties →
    Writes (writeProperties properties) (encodeProperties properties)
  | [], _ => Writes.skip
  | (_, value) :: properties, ⟨hname, hvalue, hrest⟩ =>
    (writes_utf8 hname).wrapped.seq
      ((writes_any value hvalue).wrapped.seq (writes_properties properties hrest))

theorem writes_elements : ∀ properties : List Any, ElementsWellFormed properties →
    Writes (writeElements properties) (encodeElements properties)
  | [], _ => Writes.skip
  | value :: properties, ⟨hvalue, hrest⟩ =>
    (writes_any value hvalue).wrapped.seq (writes_elements properties hrest)

end

/-! ## Looking ahead -/

lemma ofBytes_three_eq (x y z : Byte) :
    BitVec.ofNat 32 (ofBytes [x, y, z]) = 0x09 ↔ [x, y, z] = eofBytes := by
  have hsum : ofBytes [x, y, z] = x.toNat * 65536 + y.toNat * 256 + z.toNat := by
    simp [ofBytes, add_assoc]
  rw [← BitVec.toNat_inj, BitVec.toNat_ofNat, eofBytes]
  simp only [cons.injEq, and_true, ← BitVec.toNat_inj]
  change _ = 9 ↔ x.toNat = 0 ∧ y.toNat = 0 ∧ z.toNat = 9
  omega

lemma isObjectEof_def (b : Buffer) : isObjectEof b = if 3 ≤ b.after.length then
      (do let flag ← read3bytes; skip (-3); return decide (flag = 0x09) : M Bool) b
    else .ok (false, b) := by
  have hrequire : b.require 3 = decide (3 ≤ b.after.length) := require_natCast (n := 3)
  change (if b.require 3 then _ else _ : M Bool) b = _
  rw [hrequire]
  by_cases h : 3 ≤ b.after.length
  · simp only [h, decide_true, if_true]
  · simp only [h]
    rfl

/-- The look-ahead tells whether the next bytes are the end marker, and consumes nothing. -/
lemma isObjectEof_eq (pre after : List Byte) :
    isObjectEof ⟨pre, after⟩ = .ok (decide (after.take 3 = eofBytes), ⟨pre, after⟩) := by
  rw [isObjectEof_def]
  by_cases h : 3 ≤ after.length
  · obtain ⟨x, y, z, hxyz⟩ := length_eq_three.1 (length_take_of_le h)
    have hsplit : after = [x, y, z] ++ after.drop 3 := by rw [← hxyz, take_append_drop]
    have hlength : [x, y, z].length = 3 := rfl
    have hread : read3bytes ⟨pre, [x, y, z] ++ after.drop 3⟩ =
        .ok (BitVec.ofNat 32 (ofBytes [x, y, z]), ⟨pre ++ [x, y, z], after.drop 3⟩) := by
      rw [read3bytes, bind_ok (take_append hlength)]
      rfl
    have hskip : skip (-3) ⟨pre ++ [x, y, z], after.drop 3⟩ =
        .ok ((), ⟨pre, [x, y, z] ++ after.drop 3⟩) := skip_back hlength
    rw [if_pos h, hxyz]
    conv_lhs => rw [hsplit]
    rw [bind_ok hread, bind_ok hskip, ← hsplit]
    simp only [ofBytes_three_eq]
    rfl
  · have hne : after.take 3 ≠ eofBytes := by
      intro heq
      have hlength := congrArg length heq
      rw [length_take] at hlength
      change min 3 after.length = 3 at hlength
      omega
    rw [if_neg h, decide_eq_false hne]

/-- The class of a value is found by its marker, unless the end marker is seen. -/
lemma discovery_eq {pre tail : List Byte} {marker : Byte} {kind : Kind}
    (hkind : Kind.ofMarker marker = some kind) (heof : (marker :: tail).take 3 ≠ eofBytes) :
    discovery ⟨pre, marker :: tail⟩ = .ok (kind, ⟨pre, marker :: tail⟩) := by
  have hlook : isObjectEof ⟨pre, marker :: tail⟩ = .ok (false, ⟨pre, marker :: tail⟩) := by
    rw [isObjectEof_eq, decide_eq_false heof]
  have hrequire : requireOr .rtmpAmf0Decode "marker " 1 ⟨pre, marker :: tail⟩ =
      .ok ((), ⟨pre, marker :: tail⟩) := requireOr_of_le (n := 1) (by simp)
  have hread : read1bytes ⟨pre, marker :: tail⟩ = .ok (marker, ⟨pre ++ [marker], tail⟩) :=
    reads_read1bytes marker pre tail
  have hlength : [marker].length = 1 := rfl
  have hskip : skip (-1) ⟨pre ++ [marker], tail⟩ = .ok ((), ⟨pre, marker :: tail⟩) :=
    skip_back hlength
  rw [discovery, bind_ok hlook]
  change (requireOr .rtmpAmf0Decode "marker " 1 >>= _) _ = _
  rw [bind_ok hrequire, bind_ok hread, bind_ok hskip, hkind]
  rfl

/-- The class of a value. -/
def Any.kind : Any → Kind
  | .str _ => .str
  | .boolean _ => .boolean
  | .number _ => .number
  | .date _ _ => .date
  | .null => .null
  | .undefined => .undefined
  | .object _ => .object
  | .ecmaArray _ _ => .ecmaArray
  | .strictArray _ _ => .strictArray
  | .objectEof => .objectEof

lemma take_three_ne {marker : Byte} (hmarker : marker ≠ 0x00) (tail : List Byte) :
    (marker :: tail).take 3 ≠ eofBytes :=
  fun heq => hmarker (cons.inj heq).1

/-- The numbers that look like an end marker. -/
lemma take_three_number (value : BitVec 64) (rest : List Byte) :
    ([RTMP_AMF0_Number] ++ toBytes 8 value.toNat ++ rest).take 3 = eofBytes ↔
      value.toNat / 2 ^ 48 = 9 := by
  change [RTMP_AMF0_Number, BitVec.ofNat 8 (value.toNat / 256 ^ 7),
    BitVec.ofNat 8 (value.toNat / 256 ^ 6)] = eofBytes ↔ _
  have hsecond : BitVec.ofNat 8 (value.toNat / 256 ^ 7) = 0x00 ↔
      value.toNat / 256 ^ 7 % 256 = 0 := by
    rw [← BitVec.toNat_inj]
    rfl
  have hthird : BitVec.ofNat 8 (value.toNat / 256 ^ 6) = RTMP_AMF0_ObjectEnd ↔
      value.toNat / 256 ^ 6 % 256 = 9 := by
    rw [← BitVec.toNat_inj, BitVec.toNat_ofNat]
    rfl
  simp only [eofBytes, RTMP_AMF0_Number, cons.injEq, and_true, true_and, hsecond, hthird]
  omega

variable {value t : Any}

/-- The class of a value is found. -/
lemma discovery_encode (hwf : t.WellFormed) (hnumbers : t.NumbersReadable) (pre rest : List Byte) :
    discovery ⟨pre, t.encode ++ rest⟩ = .ok (t.kind, ⟨pre, t.encode ++ rest⟩) := by
  cases t with
  | number value =>
    have hkind : Kind.ofMarker RTMP_AMF0_Number = some .number := rfl
    exact discovery_eq hkind fun heof => hnumbers ((take_three_number value rest).1 heof)
  | objectEof => exact hwf.elim
  | _ => exact discovery_eq rfl (take_three_ne (by decide) _)

/-! ## Reading -/

lemma reads_marker (what invalid : String) (marker : Byte) :
    Reads (readMarker what invalid marker) [marker] () := by
  have hcheck : Reads (if marker ≠ marker then
      throw (.new .rtmpAmf0Decode (.marker invalid marker.toInt)) else pure () : M Unit) [] () := by
    rw [if_neg (not_not_intro rfl)]
    exact Reads.pure ()
  exact Reads.require (n := 1) ((reads_read1bytes marker).bind hcheck) (le_refl _)

lemma reads_utf8 {value : List Byte} (hlength : value.length ≤ 32767) :
    Reads readUtf8 (utf8Bytes value) value := by
  have hlen : (BitVec.ofNat 16 value.length).toNat = value.length := by
    rw [BitVec.toNat_ofNat, Nat.mod_eq_of_lt (by omega)]
  have hint : (BitVec.ofNat 16 value.length).toInt = (value.length : ℤ) :=
    toInt_ofNat_of_lt (by omega)
  have hread := reads_read2bytes (BitVec.ofNat 16 value.length)
  rw [hlen] at hread
  refine Reads.require (n := 2) (hread.bind ?_) (by simp [utf8Size])
  rw [hint]
  split_ifs with hempty
  · rw [length_eq_zero_iff.1 (by omega : value.length = 0)]
    exact Reads.pure []
  · exact (Reads.take value).require (le_refl _)

lemma reads_objectEof : Reads readObjectEof eofBytes () := by
  have hread : Reads read2bytes [0x00, 0x00] 0x00 := reads_read2bytes 0x00
  have hmarker := reads_marker "EOF " "EOF invalid " RTMP_AMF0_ObjectEnd
  exact Reads.require (n := 2) (hread.bind hmarker) (by decide)

lemma reads_boolean (value : Bool) : Reads readBoolean (Any.boolean value).encode value := by
  have hread := (reads_read1bytes (if value then 0x01 else 0x00)).map
    (g := fun v : BitVec 8 => decide (v ≠ 0))
  have hvalue : decide ((if value then (0x01 : BitVec 8) else 0x00) ≠ 0) = value := by
    cases value <;> decide
  rw [hvalue] at hread
  exact (reads_marker _ _ _).bind (hread.require (n := 1) (le_refl _))

lemma reads_number (value : BitVec 64) : Reads readNumber (Any.number value).encode value :=
  (reads_marker _ _ _).bind ((reads_read8bytes value).require (n := 8) (by simp))

lemma reads_date (dateValue : BitVec 64) (timeZone : BitVec 16) :
    Reads readDate (Any.date dateValue timeZone).encode (.date dateValue timeZone) := by
  have hzone : Reads (do
      requireOr .rtmpAmf0Decode "" 2
      let timeZone ← read2bytes
      return Any.date dateValue timeZone) (toBytes 2 timeZone.toNat) (.date dateValue timeZone) :=
    (reads_read2bytes timeZone).map.require (n := 2) (by simp)
  have hbody := (reads_read8bytes dateValue).bind (f := fun v => do
      requireOr .rtmpAmf0Decode "" 2
      let timeZone ← read2bytes
      return Any.date v timeZone) hzone
  exact (reads_marker _ _ _).bind (hbody.require (n := 8) (by simp))

lemma reads_count (count : BitVec 32) : Reads readCount (toBytes 4 count.toNat) count :=
  (reads_read4bytes count).require (n := 4) (by simp)

lemma reads_any_of_kind {fuel : ℕ} (hwf : t.WellFormed) (hnumbers : t.NumbersReadable)
    (hkind : Reads (readKind fuel t.kind) t.encode t) : Reads (readAny (fuel + 1)) t.encode t := by
  intro pre rest
  rw [readAny, bind_ok (wrapped_ok (discovery_encode hwf hnumbers pre rest))]
  exact hkind.wrapped pre rest

/-- The end marker ends the properties. -/
lemma reads_properties_nil (fuel : ℕ) (acc : List (List Byte × Any)) :
    Reads (readProperties (fuel + 1) acc) eofBytes acc := by
  intro pre rest
  have hlook : isObjectEof ⟨pre, eofBytes ++ rest⟩ = .ok (true, ⟨pre, eofBytes ++ rest⟩) :=
    isObjectEof_eq pre (eofBytes ++ rest)
  have hempty : ¬ Buffer.empty ⟨pre, eofBytes ++ rest⟩ = true := by simp [Buffer.empty, eofBytes]
  rw [readProperties, bind_get, if_neg hempty, bind_ok hlook, if_pos rfl,
    bind_ok (reads_objectEof.wrapped pre rest)]
  rfl

variable {acc properties : List (List Byte × Any)} {name bs cs : List Byte}

/-- One property more. -/
lemma reads_properties_cons {fuel : ℕ} {result : List (List Byte × Any)}
    (hname : name.length ≤ 32767) (hvalue : Reads (readAny fuel) bs value)
    (hlook : ∀ rest, (utf8Bytes name ++ (bs ++ cs) ++ rest).take 3 ≠ eofBytes)
    (hrest : Reads (readProperties fuel (setProperty acc name value)) cs result) :
    Reads (readProperties (fuel + 1) acc) (utf8Bytes name ++ (bs ++ cs)) result := by
  have hbody : Reads (do
      let name ← wrapped (.text "read property name") readUtf8
      let value ← wrapped (.name "read property value, " name) (readAny fuel)
      readProperties fuel (setProperty acc name value)) (utf8Bytes name ++ (bs ++ cs)) result :=
    (reads_utf8 hname).wrapped.bind (hvalue.wrapped.bind hrest)
  intro pre rest
  have hempty : ¬ Buffer.empty ⟨pre, utf8Bytes name ++ (bs ++ cs) ++ rest⟩ = true := by
    simp [Buffer.empty, utf8Bytes, toBytes]
  have hfalse : isObjectEof ⟨pre, utf8Bytes name ++ (bs ++ cs) ++ rest⟩ =
      .ok (false, ⟨pre, utf8Bytes name ++ (bs ++ cs) ++ rest⟩) := by
    rw [isObjectEof_eq, decide_eq_false (hlook rest)]
  rw [readProperties, bind_get, if_neg hempty, bind_ok hfalse]
  exact hbody pre rest

lemma reads_elements_nil (fuel : ℕ) (count : ℤ) (acc : List Any) :
    Reads (readElements (fuel + 1) count count acc) [] acc := by
  intro pre rest
  rw [readElements, bind_get, if_neg fun h => lt_irrefl _ h.1, append_nil]
  rfl

lemma reads_elements_cons {fuel : ℕ} {count i : ℤ} {acc result : List Any}
    (hi : i < count) (hbs : bs ≠ []) (hvalue : Reads (readAny fuel) bs value)
    (hrest : Reads (readElements fuel count (i + 1) (acc ++ [value])) cs result) :
    Reads (readElements (fuel + 1) count i acc) (bs ++ cs) result := by
  have hbody : Reads (do
      let elem ← wrapped (.text "read property") (readAny fuel)
      readElements fuel count (i + 1) (acc ++ [elem])) (bs ++ cs) result :=
    hvalue.wrapped.bind hrest
  intro pre rest
  have hempty : (!Buffer.empty ⟨pre, bs ++ cs ++ rest⟩) = true := by simp [Buffer.empty, hbs]
  rw [readElements, bind_get, if_pos ⟨hi, hempty⟩]
  exact hbody pre rest

lemma encode_eq_cons (hwf : t.WellFormed) :
    ∃ marker tail, t.encode = marker :: tail ∧ marker ≠ RTMP_AMF0_ObjectEnd := by
  cases t with
  | objectEof => exact hwf.elim
  | _ => exact ⟨_, _, rfl, by decide⟩

/-- Every value has a marker. -/
lemma encode_ne_nil (hwf : t.WellFormed) : t.encode ≠ [] := by
  obtain ⟨marker, tail, hcons, -⟩ := encode_eq_cons hwf
  rw [hcons]
  exact cons_ne_nil _ _

/-- A property does not look like the end marker: its name would have to be empty, and its value the
marker. -/
lemma take_three_property (hname : name.length ≤ 32767)
    (hwf : value.WellFormed) (cs rest : List Byte) :
    (utf8Bytes name ++ (value.encode ++ cs) ++ rest).take 3 ≠ eofBytes := by
  obtain ⟨marker, tail, hcons, hmarker⟩ := encode_eq_cons hwf
  have hlength : BitVec.ofNat 8 (name.length / 256 ^ 1) = 0x00 →
      BitVec.ofNat 8 (name.length / 256 ^ 0) = 0x00 → name = [] := by
    rw [← BitVec.toNat_inj, ← BitVec.toNat_inj]
    change name.length / 256 ^ 1 % 256 = 0 → name.length / 256 ^ 0 % 256 = 0 → _
    intro hhigh hlow
    exact length_eq_zero_iff.1 (by omega)
  intro heof
  rw [hcons] at heof
  obtain ⟨hhigh, htail⟩ := cons.inj heof
  obtain ⟨hlow, hthird⟩ := cons.inj htail
  rw [hlength hhigh hlow] at hthird
  exact hmarker (cons.inj hthird).1

/-- A new name goes to the end. -/
lemma setProperty_of_new (hnew : name ∉ acc.map (·.1)) (value : Any) :
    setProperty acc name value = acc ++ [(name, value)] := by
  rw [setProperty, eraseP_of_forall_not]
  intro e he heq
  refine hnew (mem_map.2 ⟨e, he, ?_⟩)
  exact of_decide_eq_true heq

lemma totalSize_pos (hwf : t.WellFormed) : 0 < t.totalSize := by
  rw [← length_encode]
  exact length_pos_iff.2 (encode_ne_nil hwf)

lemma length_le_elementsSize : ∀ {properties : List Any}, ElementsWellFormed properties →
    properties.length ≤ elementsSize properties
  | [], _ => le_refl _
  | value :: properties, ⟨hvalue, hrest⟩ => by
    have hpos := totalSize_pos hvalue
    have hle := length_le_elementsSize hrest
    rw [length_cons, elementsSize]
    omega

mutual

/-- The value is read back by its class. -/
theorem reads_kind : ∀ (t : Any) (fuel : ℕ), t.WellFormed → t.NumbersReadable →
    t.totalSize < 2 ^ 31 → 2 * t.totalSize ≤ fuel + 1 → Reads (readKind fuel t.kind) t.encode t
  | .str value, fuel, hwf, _, _, _ => by
    have h := (reads_marker "" "String invalid " RTMP_AMF0_String).bind
      (f := fun _ => readUtf8 >>= fun v => pure (Any.str v)) (reads_utf8 hwf).map
    cases fuel <;> exact h
  | .boolean value, fuel, _, _, _, _ => by
    have h := (reads_boolean value).map (g := Any.boolean)
    cases fuel <;> exact h
  | .number value, fuel, _, _, _, _ => by
    have h := (reads_number value).map (g := Any.number)
    cases fuel <;> exact h
  | .date dateValue timeZone, fuel, _, _, _, _ => by
    have h := reads_date dateValue timeZone
    cases fuel <;> exact h
  | .null, fuel, _, _, _, _ => by
    have h := (reads_marker "" "Null invalid " RTMP_AMF0_Null).map (g := fun _ => Any.null)
    cases fuel <;> exact h
  | .undefined, fuel, _, _, _, _ => by
    have h := (reads_marker "" "Undefined invalid " RTMP_AMF0_Undefined).map
      (g := fun _ => Any.undefined)
    cases fuel <;> exact h
  | .object properties, fuel, hwf, hnumbers, hsize, hfuel => by
    rw [Any.totalSize, objectEofSize] at hsize hfuel
    obtain _ | fuel := fuel
    · omega
    have hread := reads_properties properties fuel [] hwf.2 hnumbers hwf.1 (by omega) (by omega)
    exact (reads_marker _ _ _).bind hread.map
  | .ecmaArray count properties, fuel, hwf, hnumbers, hsize, hfuel => by
    rw [Any.totalSize] at hsize hfuel
    obtain _ | fuel := fuel
    · omega
    have hread := reads_properties properties fuel [] hwf.2 hnumbers hwf.1 (by omega) (by omega)
    exact (reads_marker _ _ _).bind ((reads_count count).bind hread.map)
  | .strictArray count properties, fuel, hwf, hnumbers, hsize, hfuel => by
    rw [Any.totalSize] at hsize hfuel
    obtain _ | fuel := fuel
    · omega
    have hlength := length_le_elementsSize hwf.2
    have hcount : count.toInt = properties.length := by
      rw [hwf.1]
      exact toInt_ofNat_of_lt (by omega)
    have hread := reads_elements properties fuel count.toInt 0 [] hwf.2 hnumbers
      (by omega) (by omega) (by omega)
    exact (reads_marker _ _ _).bind ((reads_count count).bind hread.map)

/-- The properties of an object are read back. -/
theorem reads_properties : ∀ (properties : List (List Byte × Any)) (fuel : ℕ)
    (acc : List (List Byte × Any)), PropertiesWellFormed properties →
    PropertiesReadable properties →
    ((acc ++ properties).map (·.1)).Nodup → propertiesSize properties < 2 ^ 31 →
    2 * (propertiesSize properties + 3) ≤ fuel →
    Reads (readProperties fuel acc) (encodeProperties properties ++ eofBytes) (acc ++ properties)
  | [], fuel, acc, _, _, _, _, hfuel => by
    obtain _ | fuel := fuel
    · omega
    rw [append_nil]
    exact reads_properties_nil fuel acc
  | (name, value) :: properties, fuel, acc, ⟨hname, hvalue, hrest⟩, ⟨hnumbers, hnumbers'⟩, hnodup,
      hsize, hfuel => by
      rw [propertiesSize] at hsize hfuel
      obtain ⟨fuel, rfl⟩ : ∃ f, fuel = f + 2 := ⟨fuel - 2, by omega⟩
      have hpos := totalSize_pos hvalue
      have hread := reads_any_of_kind hvalue hnumbers
        (reads_kind value fuel hvalue hnumbers (by omega) (by omega))
      have hassoc : acc ++ (name, value) :: properties = acc ++ [(name, value)] ++ properties := by
        simp
      rw [hassoc] at hnodup ⊢
      have hnew : name ∉ acc.map (·.1) := by
        rw [map_append, map_append, append_assoc] at hnodup
        intro hmem
        exact (disjoint_of_nodup_append hnodup) hmem (by simp)
      have hloop := reads_properties properties (fuel + 1) (acc ++ [(name, value)]) hrest hnumbers'
        hnodup (by omega) (by omega)
      rw [encodeProperties, append_assoc, append_assoc]
      refine reads_properties_cons hname hread (take_three_property hname hvalue _) ?_
      rw [setProperty_of_new hnew]
      exact hloop

/-- The elements of a strict array are read back. -/
theorem reads_elements : ∀ (properties : List Any) (fuel : ℕ) (count i : ℤ) (acc : List Any),
    ElementsWellFormed properties → ElementsReadable properties → i + properties.length = count →
    elementsSize properties < 2 ^ 31 → 2 * elementsSize properties + 1 ≤ fuel →
    Reads (readElements fuel count i acc) (encodeElements properties) (acc ++ properties)
  | [], fuel, count, i, acc, _, _, hcount, _, hfuel => by
    obtain _ | fuel := fuel
    · omega
    obtain rfl : i = count := by simpa using hcount
    rw [append_nil]
    exact reads_elements_nil fuel i acc
  | value :: properties, fuel, count, i, acc, ⟨hvalue, hrest⟩, ⟨hnumbers, hnumbers'⟩, hcount, hsize,
      hfuel => by
      rw [elementsSize] at hsize hfuel
      rw [length_cons] at hcount
      have hpos := totalSize_pos hvalue
      obtain ⟨fuel, rfl⟩ : ∃ f, fuel = f + 2 := ⟨fuel - 2, by omega⟩
      have hread := reads_any_of_kind hvalue hnumbers
        (reads_kind value fuel hvalue hnumbers (by omega) (by omega))
      have hloop := reads_elements properties (fuel + 1) count (i + 1) (acc ++ [value]) hrest
        hnumbers' (by omega) (by omega) (by omega)
      rw [append_assoc] at hloop
      exact reads_elements_cons (by omega) (encode_ne_nil hvalue) hread hloop

end

/-! ## Any input -/

lemma propertiesReadable_iff :
    PropertiesReadable properties ↔ ∀ e ∈ properties, e.2.NumbersReadable := by
  induction properties with
  | nil => simp [PropertiesReadable]
  | cons e properties ih => simp [PropertiesReadable, ih]

lemma elementsReadable_iff {properties : List Any} :
    ElementsReadable properties ↔ ∀ t ∈ properties, t.NumbersReadable := by
  induction properties with
  | nil => simp [ElementsReadable]
  | cons t properties ih => simp [ElementsReadable, ih]

lemma PropertiesReadable.set
    (h : PropertiesReadable properties) (hvalue : value.NumbersReadable) (name : List Byte) :
    PropertiesReadable (setProperty properties name value) := by
  rw [propertiesReadable_iff] at h ⊢
  intro e he
  rcases mem_append.1 he with he | he
  · exact h e (mem_of_mem_eraseP he)
  · rw [mem_singleton.1 he]
    exact hvalue

section Input

variable {b : Buffer}

lemma sat_readMarker {what invalid : String} {marker : Byte} :
    Exec.Sat (readMarker what invalid marker) b (fun _ b' => b.after = marker :: b'.after)
      (¬ ·.IsFuel) := by
  refine sat_requireWord fun bs b1 hbs hafter => ?_
  obtain ⟨x, rfl⟩ := length_eq_one_iff.1 hbs
  have hx : BitVec.ofNat 8 (ofBytes [x]) = x := by simp [ofBytes]
  rw [hx]
  split_ifs with hne
  · exact Exec.Sat.throw id
  · rw [hafter, not_not.1 hne]
    rfl

lemma sat_readUtf8 : Exec.Sat readUtf8 b (fun _ b' => b'.after.length + 2 ≤ b.after.length)
    (¬ ·.IsFuel) := by
  refine sat_requireWord fun bs b1 hbs hafter => ?_
  have hlength := congrArg length hafter
  rw [length_append] at hlength
  split_ifs with hlen
  · exact Exec.Sat.pure (by omega)
  · refine sat_requireOr.bind fun _ b2 h2 => ?_
    obtain ⟨rfl, -⟩ := h2
    refine sat_take.mono (fun cs b3 h3 => ?_) fun _ he => he
    have hlength' := congrArg length h3.1
    rw [length_append] at hlength'
    omega

lemma sat_isObjectEof : Exec.Sat isObjectEof b
    (fun e b' => b' = b ∧ e = decide (b.after.take 3 = eofBytes)) (¬ ·.IsFuel) :=
  Exec.Sat.of_ok (isObjectEof_eq b.before b.after) ⟨rfl, rfl⟩

lemma sat_readObjectEof : Exec.Sat readObjectEof b
    (fun _ b' => b'.after.length < b.after.length) (¬ ·.IsFuel) := by
  refine sat_requireWord fun bs b1 hbs hafter => ?_
  have hlength := congrArg length hafter
  rw [length_append] at hlength
  split_ifs with htemp
  · exact Exec.Sat.throw id
  · refine sat_readMarker.mono (fun _ b2 h2 => ?_) fun _ he => he
    have hlength' := congrArg length h2
    rw [length_cons] at hlength'
    omega

/-- A number is discovered only where there is no end marker. -/
lemma sat_discovery : Exec.Sat discovery b
    (fun kind b' => b' = b ∧ (kind = .number → b.after.take 3 ≠ eofBytes)) (¬ ·.IsFuel) := by
  refine sat_isObjectEof.bind fun e b1 h1 => ?_
  obtain ⟨rfl, rfl⟩ := h1
  split_ifs with heof
  · exact Exec.Sat.pure ⟨rfl, fun h => absurd h (by decide)⟩
  · refine sat_requireOr.bind fun _ b2 h2 => ?_
    obtain ⟨rfl, -⟩ := h2
    refine Exec.Sat.bind sat_word fun marker b3 h3 => ?_
    obtain ⟨bs, hbs, hafter, hbefore, -⟩ := h3
    have hskip : skip (-1) b3 = .ok ((), b2) := by
      have h : skip (-1) ⟨b2.before ++ bs, b3.after⟩ = .ok ((), ⟨b2.before, bs ++ b3.after⟩) :=
        skip_back hbs
      rw [← hbefore, ← hafter] at h
      exact h
    refine Exec.Sat.bind (P := fun _ b' => b' = b2) (Exec.Sat.of_ok hskip rfl) fun _ b4 h4 => ?_
    subst h4
    cases Kind.ofMarker marker with
    | none => exact Exec.Sat.throw id
    | some kind => exact Exec.Sat.pure ⟨rfl, fun _ h => heof (decide_eq_true h)⟩

/-- The number that is read has the bytes behind the marker. -/
lemma sat_readNumber : Exec.Sat readNumber b (fun v b' => b'.after.length < b.after.length ∧
      (v.toNat / 2 ^ 48 = 9 → b.after.take 3 = eofBytes)) (¬ ·.IsFuel) := by
  refine sat_readMarker.bind fun _ b1 h1 => ?_
  refine sat_requireOr.bind fun _ b2 h2 => ?_
  refine Exec.Sat.mono sat_word (fun v b3 h3 => ?_) fun _ he => he
  obtain ⟨rfl, -⟩ := h2
  obtain ⟨bs, hbs, hafter, -, rfl⟩ := h3
  have hlength := congrArg length h1
  rw [length_cons, hafter, length_append] at hlength
  refine ⟨by omega, fun hv => ?_⟩
  match bs with
  | [] => simp at hbs
  | [_] => simp at hbs
  | x :: y :: tail =>
    have htail : tail.length = 6 := by simpa using hbs
    have hlt : ofBytes (x :: y :: tail) < 2 ^ 64 := by
      have h := ofBytes_lt (x :: y :: tail)
      rwa [hbs] at h
    have hdiv := ofBytes_append_div [x, y] tail
    rw [htail] at hdiv
    rw [BitVec.toNat_ofNat, Nat.mod_eq_of_lt hlt] at hv
    have hxy : ofBytes [x, y] = 9 := hdiv.symm.trans hv
    have hx : x.toNat = 0 ∧ y.toNat = 9 := by
      simp only [ofBytes, length_cons, length_nil] at hxy
      omega
    rw [h1, hafter,
      BitVec.eq_of_toNat_eq (y := 0x00#8) hx.1, BitVec.eq_of_toNat_eq (y := 0x09#8) hx.2]
    rfl

lemma sat_readCount : Exec.Sat readCount b (fun _ b' => b'.after.length + 4 ≤ b.after.length)
    (¬ ·.IsFuel) := by
  refine sat_requireOr.bind fun _ b1 h1 => ?_
  refine Exec.Sat.mono sat_word (fun _ b2 h2 => ?_) fun _ he => he
  obtain ⟨rfl, -⟩ := h1
  obtain ⟨bs, hbs, hafter, -, -⟩ := h2
  rw [hafter, length_append]
  omega

lemma sat_readBoolean : Exec.Sat readBoolean b (fun _ b' => b'.after.length < b.after.length)
    (¬ ·.IsFuel) := by
  refine sat_readMarker.bind fun _ b1 h1 => ?_
  refine sat_requireWord fun bs b2 _ hafter => Exec.Sat.pure ?_
  rw [h1, hafter, length_cons, length_append]
  omega

lemma sat_readDate : Exec.Sat readDate b
    (fun t b' => t.NumbersReadable ∧ b'.after.length < b.after.length) (¬ ·.IsFuel) := by
  refine sat_readMarker.bind fun _ b1 h1 => ?_
  refine sat_requireWord fun bs b2 _ hafter => ?_
  refine sat_requireWord fun cs b3 _ hafter' => Exec.Sat.pure ⟨trivial, ?_⟩
  rw [h1, hafter, hafter', length_cons, length_append, length_append]
  omega

end Input

mutual

/-- **The reader on any input.**  It ends, and gives no number that looks like an end marker. -/
theorem sat_readAny : ∀ (fuel : ℕ) (b : Buffer), 2 * b.after.length + 2 ≤ fuel →
    Exec.Sat (readAny fuel) b
      (fun t b' => t.NumbersReadable ∧ b'.after.length < b.after.length) (¬ ·.IsFuel)
  | 0, b, hfuel => absurd hfuel (by omega)
  | fuel + 1, b, hfuel => by
    refine (sat_wrapped sat_discovery).bind fun kind b1 h1 => ?_
    obtain ⟨rfl, hnumber⟩ := h1
    exact sat_wrapped (sat_readKind fuel kind b1 hnumber (by omega))

theorem sat_readKind : ∀ (fuel : ℕ) (kind : Kind) (b : Buffer),
    (kind = .number → b.after.take 3 ≠ eofBytes) → 2 * b.after.length + 1 ≤ fuel →
    Exec.Sat (readKind fuel kind) b
      (fun t b' => t.NumbersReadable ∧ b'.after.length < b.after.length) (¬ ·.IsFuel)
  | 0, _, b, _, hfuel => absurd hfuel (by omega)
  | fuel + 1, .str, b, _, _ => by
    refine sat_readMarker.bind fun _ b1 h1 => ?_
    refine sat_readUtf8.bind fun _ b2 h2 => Exec.Sat.pure ⟨trivial, ?_⟩
    rw [h1, length_cons]
    omega
  | fuel + 1, .boolean, b, _, _ => by
    rw [readKind]
    exact sat_readBoolean.bind fun _ b1 h1 => Exec.Sat.pure ⟨trivial, h1⟩
  | fuel + 1, .number, b, hnumber, _ => by
    refine sat_readNumber.bind fun v b1 h1 => Exec.Sat.pure ⟨fun hv => ?_, h1.1⟩
    exact hnumber rfl (h1.2 hv)
  | fuel + 1, .date, b, _, _ => by
    rw [readKind]
    exact sat_readDate
  | fuel + 1, .null, b, _, _ => by
    refine sat_readMarker.bind fun _ b1 h1 => Exec.Sat.pure ⟨trivial, ?_⟩
    simp [h1]
  | fuel + 1, .undefined, b, _, _ => by
    rw [readKind]
    refine sat_readMarker.bind fun _ b1 h1 => Exec.Sat.pure ⟨trivial, ?_⟩
    simp [h1]
  | fuel + 1, .objectEof, b, _, _ => by
    exact sat_readObjectEof.bind fun _ b1 h1 => Exec.Sat.pure ⟨trivial, h1⟩
  | fuel + 1, .object, b, _, hfuel => by
    rw [readKind]
    refine sat_readMarker.bind fun _ b1 h1 => ?_
    have hlength := congrArg length h1
    rw [length_cons] at hlength
    refine (sat_readProperties fuel [] b1 trivial (by omega)).bind fun ps b2 h2 => ?_
    exact Exec.Sat.pure ⟨h2.1, by omega⟩
  | fuel + 1, .ecmaArray, b, _, hfuel => by
    refine sat_readMarker.bind fun _ b1 h1 => ?_
    have hlength := congrArg length h1
    rw [length_cons] at hlength
    refine sat_readCount.bind fun count b2 h2 => ?_
    refine (sat_readProperties fuel [] b2 trivial (by omega)).bind fun ps b3 h3 => ?_
    exact Exec.Sat.pure ⟨h3.1, by omega⟩
  | fuel + 1, .strictArray, b, _, hfuel => by
    rw [readKind]
    refine sat_readMarker.bind fun _ b1 h1 => ?_
    have hlength := congrArg length h1
    rw [length_cons] at hlength
    refine sat_readCount.bind fun count b2 h2 => ?_
    refine (sat_readElements fuel count.toInt 0 [] b2 trivial (by omega)).bind fun ts b3 h3 => ?_
    exact Exec.Sat.pure ⟨h3.1, by omega⟩

theorem sat_readProperties : ∀ (fuel : ℕ) (acc : List (List Byte × Any)) (b : Buffer),
    PropertiesReadable acc → 2 * b.after.length + 2 ≤ fuel →
    Exec.Sat (readProperties fuel acc) b
      (fun ps b' => PropertiesReadable ps ∧ b'.after.length ≤ b.after.length) (¬ ·.IsFuel)
  | 0, _, b, _, hfuel => absurd hfuel (by omega)
  | fuel + 1, acc, b, hacc, hfuel => by
    rw [readProperties, Exec.Sat, bind_get]
    split_ifs with hempty
    · exact ⟨hacc, le_refl _⟩
    · refine sat_isObjectEof.bind fun e b1 h1 => ?_
      obtain ⟨rfl, -⟩ := h1
      split_ifs with heof
      · refine (sat_wrapped sat_readObjectEof).bind fun _ b2 h2 => Exec.Sat.pure ?_
        exact ⟨hacc, le_of_lt h2⟩
      · refine (sat_wrapped sat_readUtf8).bind fun name b2 h2 => ?_
        refine (sat_wrapped (sat_readAny fuel b2 (by omega))).bind fun value b3 h3 => ?_
        refine (sat_readProperties fuel _ b3 (hacc.set h3.1 name) (by omega)).mono ?_ fun _ he => he
        intro ps b4 h4
        exact ⟨h4.1, by omega⟩

theorem sat_readElements : ∀ (fuel : ℕ) (count i : ℤ) (acc : List Any) (b : Buffer),
    ElementsReadable acc → 2 * b.after.length + 3 ≤ fuel →
    Exec.Sat (readElements fuel count i acc) b
      (fun ts b' => ElementsReadable ts ∧ b'.after.length ≤ b.after.length) (¬ ·.IsFuel)
  | 0, _, _, _, b, _, hfuel => absurd hfuel (by omega)
  | fuel + 1, count, i, acc, b, hacc, hfuel => by
    rw [readElements, Exec.Sat, bind_get]
    split_ifs with hmore
    · refine (sat_wrapped (sat_readAny fuel b (by omega))).bind fun elem b1 h1 => ?_
      have hacc' : ElementsReadable (acc ++ [elem]) := by
        rw [elementsReadable_iff] at hacc ⊢
        intro t ht
        rcases mem_append.1 ht with ht | ht
        · exact hacc t ht
        · rw [mem_singleton.1 ht]
          exact h1.1
      refine (sat_readElements fuel count (i + 1) _ b1 hacc' (by omega)).mono ?_ fun _ he => he
      intro ts b2 h2
      exact ⟨h2.1, by omega⟩
    · exact ⟨hacc, le_refl _⟩

end

/-! ## The round trip -/

/-- The value fills a buffer of `total_size` bytes and is read back from them with whatever follows.
-/
def RoundTrip (t : Any) : Prop :=
  ∀ room : List Byte, room.length = t.totalSize → ∃ bytes : List Byte,
    t.write ⟨[], room⟩ = .ok ((), ⟨bytes, []⟩) ∧ bytes.length = t.totalSize ∧
    ∀ rest, srsAmf0ReadAny ⟨[], bytes ++ rest⟩ = .ok (t, ⟨bytes, rest⟩)

/-- **What is written is read back exactly if no number looks like an end marker.** -/
theorem roundTrip_iff (t : Any) (hwf : t.WellFormed) (hsize : t.totalSize < 2 ^ 31) :
    RoundTrip t ↔ t.NumbersReadable := by
  constructor
  · intro htrip
    obtain ⟨bytes, -, -, hread⟩ := htrip (List.replicate t.totalSize 0x00) (by simp)
    exact ((sat_readAny _ _ (le_refl _)).ok (hread [])).1
  · intro hnumbers room hroom
    have hlength := length_encode t
    have hwrite := writes_any t hwf [] room [] (hroom.trans hlength.symm)
    rw [append_nil] at hwrite
    refine ⟨t.encode, hwrite, hlength, fun rest => ?_⟩
    have hfuel : 2 * t.totalSize ≤ 2 * (t.encode ++ rest).length + 1 + 1 := by
      rw [length_append]
      omega
    exact reads_any_of_kind hwf hnumbers (reads_kind t _ hwf hnumbers hsize hfuel) [] rest

/-- An object that holds an array of two numbers comes back. -/
theorem roundTrip_iff_object :
    RoundTrip (.object [([0x61], .strictArray 2 [.number 0x3FF0000000000000, .number 0])]) ↔
      (Any.object [([0x61],
        .strictArray 2 [.number 0x3FF0000000000000, .number 0])]).NumbersReadable :=
  roundTrip_iff _ (by simp [Any.WellFormed, PropertiesWellFormed, ElementsWellFormed]) (by decide)

/-- The number with the bits `0x0009000000000000` is read as an end marker, and six of its bytes are
left. -/
theorem number_read_as_objectEof : (Any.number 0x0009000000000000).WellFormed ∧
      (Any.number 0x0009000000000000).write ⟨[], List.replicate 9 0⟩ =
        .ok ((), ⟨[0, 0, 9, 0, 0, 0, 0, 0, 0], []⟩) ∧
      srsAmf0ReadAny ⟨[], [0, 0, 9, 0, 0, 0, 0, 0, 0]⟩ =
        .ok (.objectEof, ⟨[0, 0, 9], [0, 0, 0, 0, 0, 0]⟩) ∧
      ¬ RoundTrip (.number 0x0009000000000000) := by
  have hwrite : (Any.number 0x0009000000000000).write ⟨[], List.replicate 9 0⟩ =
      .ok ((), ⟨[0, 0, 9, 0, 0, 0, 0, 0, 0], []⟩) := by rfl
  have hread : srsAmf0ReadAny ⟨[], [0, 0, 9, 0, 0, 0, 0, 0, 0]⟩ =
      .ok (.objectEof, ⟨[0, 0, 9], [0, 0, 0, 0, 0, 0]⟩) := by rfl
  refine ⟨trivial, hwrite, hread, fun htrip => ?_⟩
  obtain ⟨bytes, hwrite', -, hread'⟩ := htrip (List.replicate 9 0) rfl
  rw [hwrite] at hwrite'
  obtain rfl : [0, 0, 9, 0, 0, 0, 0, 0, 0] = bytes := by simpa using hwrite'
  have hboth := hread.symm.trans (hread' [])
  simp at hboth

end Srs.Amf0
