import DailyReadCoding.Srs.Buffer

/-!
# AMF0 values

`srs_protocol_amf0.cpp` writes trees of values into a buffer and reads them back.  The first byte of
a value is a marker.  Objects and ECMA arrays end with the three bytes of an end marker, which the
reader looks for before every property, and before every value as well; strict arrays say how many
elements they have.

A `double` is its 64 bits, and strings are bytes.  Sizes are not bounded here: a buffer has at most
`INT_MAX` bytes, and the number of bytes of a value is an `int`.  The readers carry fuel, and
`srsAmf0ReadAny` gives them enough of it for its buffer.
-/

namespace Srs.Amf0

open ByteMemory (Byte)

def RTMP_AMF0_Number : Byte := 0x00
def RTMP_AMF0_Boolean : Byte := 0x01
def RTMP_AMF0_String : Byte := 0x02
def RTMP_AMF0_Object : Byte := 0x03
def RTMP_AMF0_Null : Byte := 0x05
def RTMP_AMF0_Undefined : Byte := 0x06
def RTMP_AMF0_EcmaArray : Byte := 0x08
def RTMP_AMF0_ObjectEnd : Byte := 0x09
def RTMP_AMF0_StrictArray : Byte := 0x0A
def RTMP_AMF0_Date : Byte := 0x0B

/-- `SrsAmf0Any` and its derived classes. The arrays have a `_count` of their own:
`SrsAmf0EcmaArray` changes it only in `read`, `SrsAmf0StrictArray::append` sets it. -/
inductive Any
  | str (value : List Byte)
  | boolean (value : Bool)
  | number (value : BitVec 64)
  | date (dateValue : BitVec 64) (timeZone : BitVec 16)
  | null
  | undefined
  | object (properties : List (List Byte × Any))
  | ecmaArray (count : BitVec 32) (properties : List (List Byte × Any))
  | strictArray (count : BitVec 32) (properties : List Any)
  | objectEof
  deriving Repr

/-- `SrsUnSortedHashtable::set`, with a value that is not `NULL` -/
def setProperty (properties : List (List Byte × Any)) (key : List Byte) (value : Any) :
    List (List Byte × Any) :=
  properties.eraseP (·.1 = key) ++ [(key, value)]

/-! ## Sizes -/

/-- `SrsAmf0Size::utf8` -/
def utf8Size (value : List Byte) : ℕ := 2 + value.length

/-- `SrsAmf0Size::object_eof` -/
def objectEofSize : ℕ := 2 + 1

mutual

def Any.totalSize : Any → ℕ
  | .str value => 1 + utf8Size value
  | .boolean _ => 1 + 1
  | .number _ => 1 + 8
  | .date _ _ => 1 + 8 + 2
  | .null => 1
  | .undefined => 1
  | .object properties => 1 + propertiesSize properties + objectEofSize
  | .ecmaArray _ properties => 1 + 4 + propertiesSize properties + objectEofSize
  | .strictArray _ properties => 1 + 4 + elementsSize properties
  | .objectEof => objectEofSize

/-- The loop over the properties of an object or an ECMA array. -/
def propertiesSize : List (List Byte × Any) → ℕ
  | [] => 0
  | (name, value) :: properties =>
    utf8Size name + value.totalSize + propertiesSize properties

/-- The loop over the elements of a strict array. -/
def elementsSize : List Any → ℕ
  | [] => 0
  | value :: properties => value.totalSize + elementsSize properties

end

/-! ## Writing -/

/-- The marker in front of a value. -/
def writeMarker (what : String) (marker : Byte) : M Unit := do
  requireOr .rtmpAmf0Encode what 1
  write1bytes marker

/-- `srs_amf0_write_utf8` -/
def writeUtf8 (value : List Byte) : M Unit := do
  requireOr .rtmpAmf0Encode "" 2
  write2bytes (BitVec.ofNat 16 value.length)
  if value.length ≤ 0 then return ()
  requireOr .rtmpAmf0Encode "" (BitVec.ofNat 32 value.length).toInt
  writeString value

/-- `SrsAmf0ObjectEOF::write` -/
def writeObjectEof : M Unit := do
  requireOr .rtmpAmf0Encode "EOF " 2
  write2bytes 0x00
  requireOr .rtmpAmf0Encode "EOF " 1
  write1bytes RTMP_AMF0_ObjectEnd

/-- The `_count` of an array. -/
def writeCount (count : BitVec 32) : M Unit := do
  requireOr .rtmpAmf0Encode "" 4
  write4bytes count

mutual

/-- `write`, which `srs_amf0_write_any` calls -/
def Any.write : Any → M Unit
  | .str value => do
      writeMarker "" RTMP_AMF0_String
      writeUtf8 value
  | .boolean value => do
      writeMarker "" RTMP_AMF0_Boolean
      requireOr .rtmpAmf0Encode "" 1
      if value then write1bytes 0x01 else write1bytes 0x00
  | .number value => do
      writeMarker "" RTMP_AMF0_Number
      requireOr .rtmpAmf0Encode "" 8
      write8bytes value
  | .date dateValue timeZone => do
      writeMarker "" RTMP_AMF0_Date
      requireOr .rtmpAmf0Encode "" 8
      write8bytes dateValue
      requireOr .rtmpAmf0Encode "" 2
      write2bytes timeZone
  | .null => writeMarker "" RTMP_AMF0_Null
  | .undefined => writeMarker "" RTMP_AMF0_Undefined
  | .object properties => do
      writeMarker "object " RTMP_AMF0_Object
      writeProperties properties
      wrapped (.text "write EOF") writeObjectEof
  | .ecmaArray count properties => do
      writeMarker "" RTMP_AMF0_EcmaArray
      writeCount count
      writeProperties properties
      wrapped (.text "write EOF") writeObjectEof
  | .strictArray count properties => do
      writeMarker "" RTMP_AMF0_StrictArray
      writeCount count
      writeElements properties
  | .objectEof => writeObjectEof

def writeProperties : List (List Byte × Any) → M Unit
  | [] => return ()
  | (name, value) :: properties => do
      wrapped (.name "write property " name) (writeUtf8 name)
      wrapped (.name "write property value, " name) value.write
      writeProperties properties

def writeElements : List Any → M Unit
  | [] => return ()
  | value :: properties => do
      wrapped (.text "write property") value.write
      writeElements properties

end

/-! ## Reading -/

/-- The marker in front of a value. -/
def readMarker (what invalid : String) (marker : Byte) : M Unit := do
  requireOr .rtmpAmf0Decode what 1
  let read ← read1bytes
  if read ≠ marker then throw (.new .rtmpAmf0Decode (.marker invalid read.toInt))

/-- `srs_amf0_read_utf8` -/
def readUtf8 : M (List Byte) := do
  requireOr .rtmpAmf0Decode "" 2
  let len ← read2bytes
  if len.toInt ≤ 0 then return []
  requireOr .rtmpAmf0Decode "" len.toInt
  readString len.toInt.toNat

/-- `srs_amf0_is_object_eof` -/
def isObjectEof : M Bool := do
  if (← get).require 3 then
    let flag ← read3bytes
    skip (-3)
    return flag = 0x09
  return false

/-- `SrsAmf0ObjectEOF::read` -/
def readObjectEof : M Unit := do
  requireOr .rtmpAmf0Decode "EOF " 2
  let temp ← read2bytes
  if temp ≠ 0x00 then throw (.new .rtmpAmf0Decode (.marker "EOF invalid " temp.toInt))
  readMarker "EOF " "EOF invalid " RTMP_AMF0_ObjectEnd

/-- The class of a value. -/
inductive Kind
  | str | boolean | number | null | undefined | object | ecmaArray | strictArray | date | objectEof
  deriving DecidableEq, Repr

/-- The cases of `SrsAmf0Any::discovery` -/
def Kind.ofMarker (marker : Byte) : Option Kind :=
  if marker = RTMP_AMF0_String then some .str
  else if marker = RTMP_AMF0_Boolean then some .boolean
  else if marker = RTMP_AMF0_Number then some .number
  else if marker = RTMP_AMF0_Null then some .null
  else if marker = RTMP_AMF0_Undefined then some .undefined
  else if marker = RTMP_AMF0_Object then some .object
  else if marker = RTMP_AMF0_EcmaArray then some .ecmaArray
  else if marker = RTMP_AMF0_StrictArray then some .strictArray
  else if marker = RTMP_AMF0_Date then some .date
  else none

def discovery : M Kind := do
  if ← isObjectEof then return .objectEof
  requireOr .rtmpAmf0Decode "marker " 1
  let marker ← read1bytes
  skip (-1)
  match Kind.ofMarker marker with
  | some kind => return kind
  | none => throw (.new .rtmpAmf0Invalid (.marker "invalid amf0 message, " marker.toInt))

/-- `srs_amf0_read_boolean` -/
def readBoolean : M Bool := do
  readMarker "" "Boolean invalid " RTMP_AMF0_Boolean
  requireOr .rtmpAmf0Decode "" 1
  return (← read1bytes) ≠ 0

/-- `srs_amf0_read_number` -/
def readNumber : M (BitVec 64) := do
  readMarker "" "Number invalid " RTMP_AMF0_Number
  requireOr .rtmpAmf0Decode "" 8
  read8bytes

/-- `SrsAmf0Date::read` -/
def readDate : M Any := do
  readMarker "" "Date invalid " RTMP_AMF0_Date
  requireOr .rtmpAmf0Decode "" 8
  let dateValue ← read8bytes
  requireOr .rtmpAmf0Decode "" 2
  let timeZone ← read2bytes
  return .date dateValue timeZone

/-- The `_count` of an array. -/
def readCount : M (BitVec 32) := do
  requireOr .rtmpAmf0Decode "" 4
  read4bytes

mutual

/-- `srs_amf0_read_any` -/
def readAny : ℕ → M Any
  | 0 => throw .fuel
  | fuel + 1 => do
      let kind ← wrapped (.text "discovery") discovery
      wrapped (.text "parse elem") (readKind fuel kind)

/-- `read` of the class -/
def readKind : ℕ → Kind → M Any
  | _, .str => do
      readMarker "" "String invalid " RTMP_AMF0_String
      return .str (← readUtf8)
  | _, .boolean => return .boolean (← readBoolean)
  | _, .number => return .number (← readNumber)
  | _, .date => readDate
  | _, .null => do
      readMarker "" "Null invalid " RTMP_AMF0_Null
      return .null
  | _, .undefined => do
      readMarker "" "Undefined invalid " RTMP_AMF0_Undefined
      return .undefined
  | _, .objectEof => do
      readObjectEof
      return .objectEof
  | 0, _ => throw .fuel
  | fuel + 1, .object => do
      readMarker "object " "object invalid " RTMP_AMF0_Object
      return .object (← readProperties fuel [])
  | fuel + 1, .ecmaArray => do
      readMarker "" "EcmaArray invalid " RTMP_AMF0_EcmaArray
      let count ← readCount
      return .ecmaArray count (← readProperties fuel [])
  | fuel + 1, .strictArray => do
      readMarker "" "StrictArray invalid " RTMP_AMF0_StrictArray
      let count ← readCount
      return .strictArray count (← readElements fuel count.toInt 0 [])

/-- The loop over properties, up to the end marker or the end of the buffer. -/
def readProperties : ℕ → List (List Byte × Any) → M (List (List Byte × Any))
  | 0, _ => throw .fuel
  | fuel + 1, properties => do
      if (← get).empty then return properties
      if ← isObjectEof then
        wrapped (.text "read EOF") readObjectEof
        return properties
      let name ← wrapped (.text "read property name") readUtf8
      let value ← wrapped (.name "read property value, " name) (readAny fuel)
      readProperties fuel (setProperty properties name value)

/-- The loop over elements. -/
def readElements : ℕ → ℤ → ℤ → List Any → M (List Any)
  | 0, _, _, _ => throw .fuel
  | fuel + 1, count, i, properties => do
      if i < count ∧ !(← get).empty then
        let elem ← wrapped (.text "read property") (readAny fuel)
        readElements fuel count (i + 1) (properties ++ [elem])
      else return properties

end

/-- `srs_amf0_read_any`, with enough fuel for the buffer -/
def srsAmf0ReadAny : M Any := fun b => readAny (2 * b.after.length + 2) b

end Srs.Amf0
