import DailyReadCoding.OceanBase.Number.ObNumber

/-!
# `add_v3`, `sub_v3`, `mul_v3` and `round_scale_v3_`

The arithmetic of `ob_number_v2.cpp`, with every loop.  Addition and subtraction align the two
numbers in a window of nine words under the larger exponent and run over it from the lowest word;
multiplication accumulates all products of words in 64 bit cells and resolves the carries in a
second loop.  Each result passes `exp_check_` and is rounded *afterwards*.

The loops write each word of their buffer once and never read it again, so the model keeps the
written words as a list, most significant first.  An allocation answers `Config.alloc`; no path
makes more than one.
-/

namespace OceanBase.Number

def DIGIT_LEN : ℤ := 9
def MAX_VALUED_DIGIT : ℕ := BASE - 1
def MAX_CALC_LEN : ℕ := 32
def OB_MAX_DECIMAL_DIGIT : ℤ := MAX_STORE_LEN
def FLOATING_SCALE : ℤ := 72
def MAX_SCALE : ℤ := 127
def OB_MAX_NUMBER_PRECISION_INNER : ℤ := 40
def OB_MULT_BUFFER_SIZE : ℕ := 21

inductive Err
  | allocateMemoryFailed
  | errorOutOfRange
  | integerPrecisionOverflow
  | decimalPrecisionOverflow
  deriving DecidableEq, Repr

/-- How an arithmetic function is called, and whether the allocator has memory. -/
structure Config where
  oracleMode : Bool
  strictMode : Bool
  doRounding : Bool
  alloc : Bool
  deriving DecidableEq, Repr

/-! ## Descriptors -/

def isLt1 (d : Desc) : Bool :=
  (d.sign == .negative && EXP_ZERO < d.exp)
    || (d.sign == .positive && 0 < d.exp && EXP_ZERO > d.exp)

def isGe1 (d : Desc) : Bool :=
  (d.sign == .negative && EXP_ZERO ≥ d.exp) || (d.sign == .positive && EXP_ZERO ≤ d.exp)

/-- `exp_check_`, as the error it returns. -/
def expCheck (d : Desc) (oracleMode : Bool) : Option Err :=
  let exp : ℤ := |(d.exp : ℤ) - EXP_ZERO|
  if isGe1 d && (if oracleMode then MAX_INTEGER_EXP ≤ exp else MAX_INTEGER_EXP < exp) then
    some .integerPrecisionOverflow
  else if MAX_DECIMAL_EXP < exp && isLt1 d then some .decimalPrecisionOverflow
  else none

/-- The descriptor that `calc_desc_and_check` fills in before it checks it. -/
def calcDesc (sign : Sign) (exp : ℤ) (len : ℕ) : Desc := ⟨len, calcExp sign exp, sign⟩

namespace ObNumber

/-- A number as its constructor leaves it, and after `set_zero`. -/
def zero : ObNumber := ⟨⟨0, 0, .positive⟩, []⟩

def flipSign : Sign → Sign
  | .negative => .positive
  | .positive => .negative

def negate (n : ObNumber) : ObNumber :=
  if n.isZero then n.setZero
  else { n with d := ⟨n.d.len, (flip7 n.d.exp + 1) % 128, flipSign n.d.sign⟩ }

/-- `deep_copy_v3` into a fresh number. -/
def deepCopyV3 (cfg : Config) (other : ObNumber) : Except Err ObNumber :=
  if other.d.len = 0 then .ok zero
  else if other.d.len > MAX_CALC_LEN then .error .errorOutOfRange
  else if cfg.alloc then .ok ⟨other.d, other.words⟩
  else .error .allocateMemoryFailed

def negateV3 (cfg : Config) (n : ObNumber) : Except Err ObNumber :=
  if n.isZero then .ok zero
  else if cfg.alloc then .ok ⟨n.negate.d, n.words⟩
  else .error .allocateMemoryFailed

end ObNumber

/-! ## Rounding -/

/-- The number of decimal digits of a word. -/
def getDigitLenV2 (d : ℕ) : ℤ :=
  if BASE ≤ d then 0
  else if d < 10 then 1
  else if d < 100 then 2
  else if d < 1000 then 3
  else if d < 10000 then 4
  else if d < 100000 then 5
  else if d < 1000000 then 6
  else if d < 10000000 then 7
  else if d < 100000000 then 8
  else 9

/-- The count that `remove_back_zero` returns: the trailing decimal zeros of a word. -/
def removeBackZero (digit : ℕ) : ℤ :=
  if digit ≠ 0 ∧ digit % 10 = 0 then removeBackZero (digit / 10) + 1 else 0
termination_by digit
decreasing_by omega

def roundPows : List ℕ :=
  [1000000000, 100000000, 10000000, 1000000, 100000, 10000, 1000, 100, 10, 1000000000]

/-- The lengths, in words, and counts, in decimal digits, that `round_scale_v3_` works out. -/
structure RoundShape where
  digit0Len : ℤ
  exprValue : ℤ
  integerLength : ℤ
  validIntegerLength : ℤ
  integerCount : ℤ
  validDecimalLength : ℤ
  decimalLength : ℤ
  deriving DecidableEq, Repr

/-- Nothing, `set_zero`, `set_one`, or a cut to `len` words with word `digitId` rounded to a
multiple of `roundPows[powId]`. -/
inductive RoundAction
  | keep
  | zero
  | one
  | at (len digitId powId : ℕ)
  deriving DecidableEq, Repr

namespace ObNumber

def roundShape (n : ObNumber) (usingFloatingScale : Bool) : RoundShape :=
  let digit0Len := getDigitLenV2 (n.digits.getD 0 0)
  let exprValue := getDecodeExp n.d
  let integerLength := if exprValue ≥ 0 then exprValue + 1 else 0
  let validIntegerLength := if n.d.len > integerLength then integerLength else n.d.len
  let integerCount :=
    if validIntegerLength > 0 then digit0Len + (integerLength - 1) * DIGIT_LEN else 0
  let validDecimalLength := if n.d.len > integerLength then n.d.len - integerLength else 0
  let decimalLength := validDecimalLength
    + if integerLength = 0 ∧ usingFloatingScale = false then 0 - exprValue - 1 else 0
  ⟨digit0Len, exprValue, integerLength, validIntegerLength, integerCount, validDecimalLength,
    decimalLength⟩

def isDecimal (n : ObNumber) : Bool :=
  match n.d.sign with
  | .positive => n.d.exp < EXP_ZERO
  | .negative => EXP_ZERO < n.d.exp

/-- The scale to round at in Oracle mode, where the number of significant digits is limited. -/
def oracleScale (n : ObNumber) (s : RoundShape) (scale : ℤ)
    (usingFloatingScale forOracleToChar : Bool) : ℤ :=
  let decimalPrefixZeroCount :=
    if s.integerLength = 0 then 0 - s.exprValue - 1 + DIGIT_LEN - s.digit0Len else 0
  let validPrecision :=
    if forOracleToChar then
      OB_MAX_NUMBER_PRECISION_INNER - 1 - (if n.isDecimal then 1 else 0)
        - (if n.isNegative then 1 else 0)
    else
      OB_MAX_NUMBER_PRECISION_INNER
        - (if s.integerCount = 0 then decimalPrefixZeroCount else s.integerCount) % 2
  let tailDecimalZeroCount :=
    if s.validDecimalLength > 0 then removeBackZero (n.digits.getD (n.d.len - 1) 0) else 0
  let decimalNonZeroCount :=
    if s.validDecimalLength > 0 then
      DIGIT_LEN * s.validDecimalLength
        - (if s.integerLength = 0 then DIGIT_LEN - s.digit0Len else 0) - tailDecimalZeroCount
    else 0
  let decimalCount := s.decimalLength * DIGIT_LEN - tailDecimalZeroCount
  if s.integerCount > 0 then
    if usingFloatingScale then validPrecision - s.integerCount
    else if scale > 0 then min (validPrecision - s.integerCount) scale
    else scale
  else if decimalNonZeroCount > validPrecision then
    min scale (decimalCount - decimalNonZeroCount + validPrecision)
  else scale

def floatingScale (n : ObNumber) (s : RoundShape) (oracleMode : Bool) (scale : ℤ)
    (usingFloatingScale forOracleToChar : Bool) : ℤ :=
  if oracleMode then n.oracleScale s scale usingFloatingScale forOracleToChar
  else if usingFloatingScale ∧ s.validIntegerLength > 0 then scale - s.integerCount
  else scale

/-- A positive scale rounds a decimal word. -/
def roundDecimal (len : ℕ) (s : RoundShape) (floatingScale : ℤ) : RoundAction :=
  let roundLength := floatingScale / DIGIT_LEN
  let round := floatingScale - roundLength * DIGIT_LEN
  if roundLength ≥ s.decimalLength then .keep
  else if s.decimalLength > s.validDecimalLength
      ∧ roundLength < s.decimalLength - s.validDecimalLength then .zero
  else
    let newLen := len - (s.decimalLength - (roundLength + 1))
    .at newLen.toNat (newLen - 1).toNat round.toNat

/-- A negative scale, given by its amount, rounds an integer word. -/
def roundInteger (s : RoundShape) (floatingScale : ℤ) : RoundAction :=
  let roundLength := floatingScale / DIGIT_LEN
  let round := floatingScale - roundLength * DIGIT_LEN
  let roundIntegerLength := if round = 0 then roundLength else roundLength + 1
  if s.integerLength < roundIntegerLength then .zero
  else if s.integerLength > s.validIntegerLength
      ∧ roundIntegerLength ≤ s.integerLength - s.validIntegerLength then .keep
  else
    let newLen := s.integerLength - roundIntegerLength + 1
    .at newLen.toNat (newLen - 1).toNat (9 - round).toNat

/-- Scale zero rounds at the point. -/
def roundPoint (n : ObNumber) (s : RoundShape) : RoundAction :=
  if s.decimalLength = 0 then .keep
  else if s.validIntegerLength > 0 then
    .at s.validIntegerLength.toNat s.validIntegerLength.toNat 0
  else if n.digits.getD 0 0 ≥ BASE / 2 ∧ getDecodeExp n.d = -1 then .one
  else .zero

/-- Where `round_scale_v3_` rounds, by the sign of the scale. -/
def roundAction (n : ObNumber) (s : RoundShape) (floatingScale : ℤ) : RoundAction :=
  if floatingScale > 0 then roundDecimal n.d.len s floatingScale
  else if floatingScale < 0 then roundInteger s (0 - floatingScale)
  else roundPoint n s

def setOne (n : ObNumber) : ObNumber := ⟨⟨1, EXP_ZERO, n.d.sign⟩, n.digits.set 0 1⟩

/-- The length left when the zero words at the end of the first `k` are dropped. -/
def stripLen (digits : List ℕ) : ℕ → ℕ
  | 0 => 0
  | k + 1 => if digits.getD k 0 = 0 then stripLen digits k else k + 1

/-- The last of the first `k` words that can be incremented. -/
def findCarry (digits : List ℕ) : ℕ → Option ℕ
  | 0 => none
  | k + 1 => if digits.getD k 0 = MAX_VALUED_DIGIT then findCarry digits k else some k

/-- The seven bit exponent field one step further from zero: `--exp_` or `++exp_`. -/
def bumpExp (d : Desc) : ℕ :=
  match d.sign with
  | .negative => (d.exp + 127) % 128
  | .positive => (d.exp + 1) % 128

/-- Carries one into the words before `digitId`. If all are full the exponent grows; `exp_check_` is
not asked again. -/
def normalizeCarry (n : ObNumber) (digitId : ℕ) : ObNumber :=
  match findCarry n.digits digitId with
  | some k => ⟨⟨k + 1, n.d.exp, n.d.sign⟩, n.digits.set k (n.digits.getD k 0 + 1)⟩
  | none => ⟨⟨1, bumpExp n.d, n.d.sign⟩, n.digits.set 0 1⟩

def roundAt (n : ObNumber) (len digitId powId : ℕ) : ObNumber :=
  let digitValue := n.digits.getD digitId 0
  let pow := roundPows.getD powId 0
  let residue := digitValue % pow
  if residue ≥ pow / 2 then
    let rounded := digitValue + (pow - residue)
    let m : ObNumber := ⟨⟨len, n.d.exp, n.d.sign⟩, n.digits.set digitId rounded⟩
    if rounded = BASE then m.normalizeCarry digitId else m
  else
    let rounded := digitValue - residue
    let m : ObNumber := ⟨⟨len, n.d.exp, n.d.sign⟩, n.digits.set digitId rounded⟩
    if rounded = 0 then
      match stripLen m.digits len with
      | 0 => m.setZero
      | k + 1 => { m with d := ⟨k + 1, m.d.exp, m.d.sign⟩ }
    else m

def applyRound (n : ObNumber) : RoundAction → ObNumber
  | .keep => n
  | .zero => n.setZero
  | .one => n.setOne
  | .at len digitId powId => n.roundAt len digitId powId

/-- It always returns `OB_SUCCESS`. -/
def roundScaleV3 (n : ObNumber) (oracleMode : Bool) (scale : ℤ)
    (usingFloatingScale forOracleToChar : Bool) : ObNumber :=
  if n.isZero then n
  else
    let s := n.roundShape usingFloatingScale
    n.applyRound <|
      n.roundAction s (n.floatingScale s oracleMode scale usingFloatingScale forOracleToChar)

def minRoundDigitCount (oracleMode : Bool) : ℤ :=
  if oracleMode then OB_MAX_NUMBER_PRECISION_INNER / DIGIT_LEN else FLOATING_SCALE / DIGIT_LEN

/-- The last step of every arithmetic function. -/
def roundAfter (cfg : Config) (res : ObNumber) : ObNumber :=
  if cfg.doRounding ∧ res.d.len ≥ minRoundDigitCount cfg.oracleMode then
    res.roundScaleV3 cfg.oracleMode (if cfg.oracleMode then MAX_SCALE else FLOATING_SCALE)
      true false
  else res

end ObNumber

/-! ## Addition and subtraction -/

/-- The variables of the word loops of `add_v3` and `sub_v3`. `curOtherExp` and `curOtherId` are
those of the addend or subtrahend, `carry` is the carry or the borrow. -/
structure WindowState where
  written : List ℕ
  carry : ℕ
  curExp : ℤ
  curOtherExp : ℤ
  curOtherId : ℤ
  sumLen : ℕ
  checkSumLen : Bool
  deriving DecidableEq, Repr

/-- One word of `add_v3`, in a `uint32_t`: the word and the carry. -/
def addWord (word other carry : ℕ) : ℕ × ℕ :=
  let tmp := (word + carry + other) % 2 ^ 32
  if tmp ≥ BASE then (tmp - BASE, 1) else (tmp, 0)

/-- One word of `sub_v3`, in an `int32_t`: the word and the borrow. -/
def subWord (word other borrow : ℕ) : ℕ × ℕ :=
  let tmp : ℤ := word - borrow - other
  if tmp < 0 then ((tmp + BASE).toNat, 1) else (tmp.toNat, 0)

namespace WindowState

/-- The window starts at the lower of the two last words, but holds at most nine. -/
def init (exp otherExp : ℤ) (len otherLen : ℕ) : WindowState :=
  let curOtherExp := otherExp - (otherLen - 1)
  let curExp := min (exp - (len - 1)) curOtherExp
  let sumLen := exp - curExp + 1
  let movex := if sumLen > OB_MAX_DECIMAL_DIGIT then sumLen - OB_MAX_DECIMAL_DIGIT else 0
  { written := []
    carry := 0
    curExp := curExp + movex
    curOtherExp := curOtherExp + movex
    curOtherId := otherLen - 1 - movex
    sumLen := (sumLen - movex).toNat
    checkSumLen := true }

/-- One round of the loop, at a buffer word that holds `word`. -/
def step (combine : ℕ → ℕ → ℕ → ℕ × ℕ) (other : List ℕ) (minId : ℕ) (word : ℕ)
    (s : WindowState) : WindowState :=
  let aligned := s.curExp = s.curOtherExp ∧ s.curOtherId ≥ minId
  let r := combine word (if aligned then other.getD s.curOtherId.toNat 0 else 0) s.carry
  { written := r.1 :: s.written
    carry := r.2
    curExp := s.curExp + 1
    curOtherExp := if aligned then s.curOtherExp + 1 else s.curOtherExp
    curOtherId := if aligned then s.curOtherId - 1 else s.curOtherId
    sumLen := if s.checkSumLen ∧ r.1 = 0 then s.sumLen - 1 else s.sumLen
    checkSumLen := s.checkSumLen && r.1 == 0 }

/-- The loop over the buffer words `lo + n - 1` down to `lo`. -/
def run (combine : ℕ → ℕ → ℕ → ℕ × ℕ) (other : List ℕ) (minId : ℕ) (buffer : ℕ → ℕ) (lo : ℕ) :
    ℕ → WindowState → WindowState
  | 0, s => s
  | n + 1, s => run combine other minId buffer lo n (s.step combine other minId (buffer (lo + n)))

end WindowState

namespace ObNumber

/-- Writes the descriptor, checks the exponent and hands out the words. Too small a result is zero.
-/
def assignChecked (cfg : Config) (sign : Sign) (exp : ℤ) (len : ℕ) (digits : List ℕ) :
    Except Err ObNumber :=
  match expCheck (calcDesc sign exp len) cfg.oracleMode with
  | some .decimalPrecisionOverflow => .ok zero
  | some err => .error err
  | none =>
    if cfg.strictMode then
      if cfg.alloc then .ok ⟨calcDesc sign exp len, digits.take len⟩
      else .error .allocateMemoryFailed
    else .ok ⟨calcDesc sign exp len, digits⟩

/-- Outside strict mode the buffer of the loops is allocated first. -/
def withBuffer (cfg : Config) (body : Except Err ObNumber) : Except Err ObNumber :=
  if cfg.strictMode = false ∧ cfg.alloc = false then .error .allocateMemoryFailed else body

/-- The loop of `add_v3`. -/
def addWindow (augend addend : ObNumber) : WindowState :=
  let s := WindowState.init (getDecodeExp augend.d)
    (getDecodeExp addend.d) augend.d.len addend.d.len
  s.run addWord addend.words 0 (augend.words.getD · 0) 0 s.sumLen

/-- What follows the loop of `add_v3`: a carry becomes one more word in front. -/
def addFinish (cfg : Config) (sign : Sign) (sumExp : ℤ) (t : WindowState) : Except Err ObNumber :=
  withBuffer cfg <|
    if t.carry ≠ 0 then assignChecked cfg sign (sumExp + 1) (t.sumLen + 1) (1 :: t.written)
    else assignChecked cfg sign sumExp t.sumLen t.written

/-- `add_v3` of numbers of one sign whose exponents are less than nine apart. -/
def addAligned (cfg : Config) (this other : ObNumber) : Except Err ObNumber :=
  let thisExp := getDecodeExp this.d
  let otherExp := getDecodeExp other.d
  if thisExp < otherExp ∨ (thisExp = otherExp ∧ this.d.len < other.d.len) then
    addFinish cfg this.d.sign otherExp (addWindow other this)
  else addFinish cfg this.d.sign thisExp (addWindow this other)

/-- The first words that two arrays have in common, of the first `n`. -/
def commonPrefix (xs ys : List ℕ) : ℕ → ℕ
  | 0 => 0
  | n + 1 => if xs.headD 0 = ys.headD 0 then commonPrefix xs.tail ys.tail n + 1 else 0

/-- The number of zero words before the first other word, or before the end flag. -/
def leadingZeros : List ℕ → ℕ
  | [] => 0
  | d :: ds => if d = 0 then leadingZeros ds + 1 else 0

/-- The loop of `sub_v3`; the words before `startId` are equal and left out. -/
def subWindow (minuend subtrahend : ObNumber) (startId : ℕ) : WindowState :=
  let s := WindowState.init (getDecodeExp minuend.d) (getDecodeExp subtrahend.d) minuend.d.len
    subtrahend.d.len
  s.run subWord subtrahend.words startId (minuend.words.getD · 0) startId (s.sumLen - startId)

/-- What follows the loop of `sub_v3`: zero words in front are skipped. -/
def subFinish (cfg : Config) (sign : Sign) (sumExp : ℤ) (startId : ℕ) (t : WindowState) :
    Except Err ObNumber :=
  let zeros := leadingZeros (t.written.take (t.sumLen - startId))
  let newStartId := startId + zeros
  withBuffer cfg <|
    if t.sumLen ≤ newStartId then .ok zero
    else
      assignChecked cfg sign (sumExp - newStartId) (t.sumLen - newStartId) (t.written.drop zeros)

/-- `sub_v3` of numbers of one sign whose exponents are less than nine apart, the larger as the
minuend. -/
def subAligned (cfg : Config) (this other : ObNumber) : Except Err ObNumber :=
  let thisExp := getDecodeExp this.d
  let otherExp := getDecodeExp other.d
  let minLen := min this.d.len other.d.len
  let startId := if thisExp = otherExp then commonPrefix this.digits other.digits minLen else 0
  if thisExp = otherExp ∧ startId = minLen ∧ this.d.len = other.d.len then .ok zero
  else if thisExp < otherExp ∨ (thisExp = otherExp
      ∧ if startId = minLen then this.d.len < other.d.len
        else this.digits.getD startId 0 < other.digits.getD startId 0) then
    let sign := if other.d.sign = .negative then .positive else .negative
    subFinish cfg sign otherExp startId (subWindow other this startId)
  else
    let sign := if this.d.sign = .negative then .negative else .positive
    subFinish cfg sign thisExp startId (subWindow this other startId)

/-- `add_v3` of non-zero numbers of one sign. -/
def addSameSign (cfg : Config) (this other : ObNumber) : Except Err ObNumber :=
  if getDecodeExp this.d ≥ getDecodeExp other.d + OB_MAX_DECIMAL_DIGIT then deepCopyV3 cfg this
  else if getDecodeExp other.d ≥ getDecodeExp this.d + OB_MAX_DECIMAL_DIGIT then
    deepCopyV3 cfg other
  else addAligned cfg this other

/-- `sub_v3` of non-zero numbers of one sign. -/
def subSameSign (cfg : Config) (this other : ObNumber) : Except Err ObNumber :=
  if getDecodeExp this.d ≥ getDecodeExp other.d + OB_MAX_DECIMAL_DIGIT then deepCopyV3 cfg this
  else if getDecodeExp other.d ≥ getDecodeExp this.d + OB_MAX_DECIMAL_DIGIT then
    negateV3 cfg other
  else subAligned cfg this other

lemma flipSign_of_ne {s t : Sign} (h : s ≠ t) : s = flipSign t := by
  cases s <;> cases t <;> first | rfl | exact absurd rfl h

lemma negate_sign {n : ObNumber} (h : ¬ n.isZero = true) : n.negate.d.sign = flipSign n.d.sign := by
  rw [negate, if_neg h]

mutual

/-- Numbers of opposite sign are subtracted. -/
def addV3 (cfg : Config) (this other : ObNumber) : Except Err ObNumber :=
  let res :=
    if this.isZero then deepCopyV3 cfg other
    else if _h : other.isZero then deepCopyV3 cfg this
    else if this.d.sign = other.d.sign then addSameSign cfg this other
    else subV3 cfg this other.negate
  res.map (roundAfter cfg)
termination_by if this.d.sign = other.d.sign then 0 else 1
decreasing_by
  rename_i hne
  rw [if_neg hne, if_pos (by rw [negate_sign _h]; exact flipSign_of_ne hne)]
  exact Nat.zero_lt_one

/-- Numbers of opposite sign are added. -/
def subV3 (cfg : Config) (this other : ObNumber) : Except Err ObNumber :=
  let res :=
    if this.isZero then negateV3 cfg other
    else if _h : other.isZero then deepCopyV3 cfg this
    else if this.d.sign = other.d.sign then subSameSign cfg this other
    else addV3 cfg this other.negate
  res.map (roundAfter cfg)
termination_by if this.d.sign = other.d.sign then 0 else 1
decreasing_by
  rename_i hne
  rw [if_neg hne, if_pos (by rw [negate_sign _h]; exact flipSign_of_ne hne)]
  exact Nat.zero_lt_one

end

/-! ## Multiplication -/

/-- The inner loop of `mul_v3`: one word times all words of the multiplier, added to 64 bit cells.
-/
def mulRow (word : ℕ) : List ℕ → List ℕ → List ℕ
  | m :: ms, c :: cs => (c + word * m) % 2 ^ 64 :: mulRow word ms cs
  | _, cells => cells

/-- The outer loop: each word of the multiplicand starts one cell further on. -/
def mulRows (multiplier : List ℕ) : List ℕ → List ℕ → List ℕ
  | w :: ws, cells =>
    match mulRow w multiplier cells with
    | c :: cs => c :: mulRows multiplier ws cs
    | [] => []
  | [], cells => cells

/-- The variables of the loop that resolves the carries. -/
structure CarryState where
  written : List ℕ
  carry : ℕ
  sumLen : ℕ
  checkSumLen : Bool
  deriving DecidableEq, Repr

def CarryState.step (cell : ℕ) (s : CarryState) : CarryState :=
  let tmp := (cell + s.carry) % 2 ^ 64
  let carry := if tmp ≥ BASE then tmp / BASE else 0
  let digit := tmp - carry * BASE
  { written := digit :: s.written
    carry := carry
    sumLen := if s.checkSumLen ∧ digit = 0 then s.sumLen - 1 else s.sumLen
    checkSumLen := s.checkSumLen && digit == 0 }

/-- The first `sumLen` of the 64 bit cells behind the loops over the words. -/
def mulCells (multiplicand multiplier : List ℕ) (sumLen : ℕ) : List ℕ :=
  (0 :: mulRows multiplier multiplicand (List.replicate (OB_MULT_BUFFER_SIZE - 1) 0)).take sumLen

/-- Both loops of `mul_v3`; the number of fewer words is the multiplicand. -/
def mulWords (this other : ObNumber) : CarryState :=
  let multiplicand := if this.d.len > other.d.len then other.words else this.words
  let multiplier := if this.d.len > other.d.len then this.words else other.words
  let sumLen := this.d.len + other.d.len
  (mulCells multiplicand multiplier sumLen).foldr CarryState.step ⟨[], 0, sumLen, true⟩

/-- What follows the loops of `mul_v3`: of ten words at most nine are handed out. -/
def mulFinish (cfg : Config) (sign : Sign) (sumExp : ℤ) (t : CarryState) : Except Err ObNumber :=
  let resDigits := t.written.take 10
  withBuffer cfg <|
    if resDigits.getD 0 0 ≠ 0 then
      assignChecked cfg sign (sumExp + 1) (min t.sumLen MAX_STORE_LEN) resDigits
    else assignChecked cfg sign sumExp (min (t.sumLen - 1) MAX_STORE_LEN) (resDigits.drop 1)

def mulV3 (cfg : Config) (this other : ObNumber) : Except Err ObNumber :=
  let res :=
    if this.isZero ∨ other.isZero then .ok zero
    else
      let sign := if this.d.sign = other.d.sign then .positive else .negative
      mulFinish cfg sign (getDecodeExp this.d + getDecodeExp other.d) (mulWords this other)
  res.map (roundAfter cfg)

end ObNumber

end OceanBase.Number
