import DailyReadCoding.Lib.BigEndian
import DailyReadCoding.Bitcoin.Script.Interpreter

/-!
# Strict DER signatures

`IsValidSignatureEncoding` (`script/interpreter.cpp`) reads a vector by the length bytes that the
vector itself holds, which come from whoever made the signature.
-/

namespace Bitcoin.Script

open BigEndian List Option

def readByte (sig : Bytes) (i : ℕ) : Option ℕ := sig[i]?.map BitVec.toNat

/-- The tests of an element: an integer that is not negative and not padded. -/
def readElement (sig : Bytes) (tag start len : ℕ) : Option Bool := do
  if (← readByte sig tag) ≠ 0x02 then some false else
  if len = 0 then some false else do
  if (← readByte sig start) ≥ 0x80 then some false else
  if len > 1 then do
    if (← readByte sig start) = 0 then do
      if (← readByte sig (start + 1)) < 0x80 then some false else some true
    else some true
  else some true

/-- `IsValidSignatureEncoding`, or nothing if it reads outside the vector. -/
def isValidSignatureEncodingRead (sig : Bytes) : Option Bool :=
  if sig.length < 9 then some false else
  if sig.length > 73 then some false else do
  if (← readByte sig 0) ≠ 0x30 then some false else do
  if (← readByte sig 1) ≠ sig.length - 3 then some false else do
  let lenR ← readByte sig 3
  if 5 + lenR ≥ sig.length then some false else do
  let lenS ← readByte sig (5 + lenR)
  if lenR + lenS + 7 ≠ sig.length then some false else do
  if ← readElement sig 2 4 lenR then readElement sig (lenR + 4) (lenR + 6) lenS else some false

/-- An integer with these bytes, and the short form of the length. -/
def derInteger (c : Bytes) : Bytes := 0x02 :: BitVec.ofNat 8 c.length :: c

def encode (c d : Bytes) (hashType : BitVec 8) : Bytes :=
  0x30 :: BitVec.ofNat 8 (derInteger c ++ derInteger d).length ::
  (derInteger c ++ derInteger d ++ [hashType])

def derSignature (R S : ℕ) : BitVec 8 → Bytes := encode (shortest R) (shortest S)

def byteAt (sig : Bytes) (i : ℕ) : ℕ := (sig.getD i 0).toNat

/-- What an encoding says: `R`, `S` and the hash type, where the length bytes place them. -/
def signatureOf (sig : Bytes) : ℕ × ℕ × BitVec 8 :=
  let lenR := byteAt sig 3
  let lenS := byteAt sig (5 + lenR)
  (ofBytes ((sig.drop 4).take lenR), ofBytes ((sig.drop (6 + lenR)).take lenS), sig.getLastD 0)

/-! ## The reads -/

def elementOk (sig : Bytes) (tag start len : ℕ) : Bool :=
  byteAt sig tag == 0x02 && len != 0 && byteAt sig start < 0x80 &&
    !(len > 1 && byteAt sig start == 0 && byteAt sig (start + 1) < 0x80)

lemma isValidSignatureEncoding_eq (sig : Bytes) : isValidSignatureEncoding sig =
      (9 ≤ sig.length && sig.length ≤ 73 && byteAt sig 0 == 0x30
      && byteAt sig 1 == sig.length - 3 &&
        5 + byteAt sig 3 < sig.length && byteAt sig 3 + byteAt sig (5 + byteAt sig 3)
        + 7 == sig.length &&
        elementOk sig 2 4 (byteAt sig 3) &&
        elementOk sig (byteAt sig 3 + 4) (byteAt sig 3 + 6) (byteAt sig (5 + byteAt sig 3))) := by
  simp only [isValidSignatureEncoding, elementOk, Bool.and_assoc]
  rfl

variable {sig : Bytes}

lemma readByte_eq {i : ℕ} (h : i < sig.length) : readByte sig i = some (byteAt sig i) := by
  rw [readByte, byteAt, getD_eq_getElem?_getD, List.getElem?_eq_getElem h, map_some, getD_some]

lemma readElement_eq {tag start len : ℕ} (htag : tag < sig.length)
    (hin : len ≠ 0 → start + 1 < sig.length) :
    readElement sig tag start len = some (elementOk sig tag start len) := by
  rw [readElement, elementOk, readByte_eq htag]
  rcases eq_or_ne len 0 with hlen | hlen
  · simp [hlen]
  simp only [readByte_eq (hin hlen), readByte_eq (Nat.lt_of_succ_lt (hin hlen))]
  split_ifs <;> grind

lemma isValidSignatureEncodingRead_eq (sig : Bytes) :
    isValidSignatureEncodingRead sig = some (isValidSignatureEncoding sig) := by
  rw [isValidSignatureEncodingRead, isValidSignatureEncoding_eq]
  split_ifs with hmin hmax
  · simp [hmin]
  · simp [hmax]
  rw [readByte_eq (show 0 < sig.length by omega), readByte_eq (show 1 < sig.length by omega),
    readByte_eq (show 3 < sig.length by omega)]
  simp only [bind_eq_bind, bind_some]
  split_ifs with h0 h1 hin
  · simp [h0]
  · simp [h1]
  · simp [not_lt.mpr hin]
  rw [readByte_eq (by omega), bind_some]
  split_ifs with hlen
  · simp [hlen]
  rw [readElement_eq (by omega) (by omega), bind_some, readElement_eq (by omega) (by omega)]
  split_ifs with hR
  · simp only [not_not] at h0 h1 hlen
    simp [hR, h0, h1, hlen, lt_of_not_ge hin, Nat.le_of_not_lt hmin, Nat.le_of_not_lt hmax]
  · simp [hR]

/-! ## The elements -/

lemma byteAt_append (p w : Bytes) (i : ℕ) : byteAt (p ++ w) (p.length + i) = byteAt w i := by
  rw [byteAt, byteAt, getD_append_right _ _ _ _ (by omega), Nat.add_sub_cancel_left]

/-- The tests of an element's first bytes say that it is in its shortest form. -/
lemma elementOk_append (p c w : Bytes) (tag : ℕ) :
    elementOk (p ++ (c ++ w)) tag p.length c.length = true ↔ byteAt (p ++ (c ++ w)) tag = 0x02 ∧
    Shortest c := by
  have h0 := byteAt_append p (c ++ w) 0
  rw [elementOk]
  rcases c with _ | ⟨b, _ | ⟨b', c⟩⟩
  · simp [Shortest]
  · simp [Shortest, byteAt]
  · simp [Shortest, byteAt, ← BitVec.toNat_inj, and_assoc, imp_iff_not_or]

lemma byteAt_behind (s₀ s₁ s₂ s₃ : BitVec 8) (c w : Bytes) (i : ℕ) :
    byteAt (s₀ :: s₁ :: s₂ :: s₃ :: (c ++ w)) (c.length + 4 + i) = byteAt w i :=
  byteAt_append (s₀ :: s₁ :: s₂ :: s₃ :: c) w i

lemma encode_eq (c d : Bytes) (hashType : BitVec 8) :
    encode c d hashType = 0x30 :: BitVec.ofNat 8
    (c.length + d.length + 4) :: 0x02 :: BitVec.ofNat 8 c.length ::
      (c ++ 0x02 :: BitVec.ofNat 8 d.length :: (d ++ [hashType])) := by
  have hlen : (derInteger c ++ derInteger d).length = c.length + d.length + 4 := by
    simp [derInteger]
    omega
  rw [encode, hlen]
  simp [derInteger]

lemma length_encode (c d : Bytes) (hashType : BitVec 8) :
    (encode c d hashType).length = c.length + d.length + 7 := by
  simp [encode_eq]
  omega

section Encode

variable {c d : Bytes} (hmax : c.length + d.length ≤ 66) (hashType : BitVec 8)

include hmax

lemma lengths_encode : byteAt (encode c d hashType) 3 = c.length ∧
    byteAt (encode c d hashType) (5 + c.length) = d.length := by
  have hbyte {n : ℕ} (h : n ≤ 66) : (BitVec.ofNat 8 n).toNat = n := by
    rw [BitVec.toNat_ofNat]
    omega
  rw [encode_eq, show 5 + c.length = c.length + 4 + 1 by omega, byteAt_behind]
  exact ⟨hbyte (by omega), hbyte (by omega)⟩

/-- Between elements of these lengths only their first bytes are tested. -/
lemma isValidSignatureEncoding_encode :
    isValidSignatureEncoding (encode c d hashType) = true ↔ Shortest c ∧ Shortest d := by
  obtain ⟨hlenR, hlenS⟩ := lengths_encode hmax hashType
  have h1 : byteAt (encode c d hashType) 1 = c.length + d.length + 4 := by
    rw [encode_eq]
    exact Nat.mod_eq_of_lt (by omega)
  have hR : elementOk (encode c d hashType) 2 4 c.length = true ↔ Shortest c := by
    rw [encode_eq]
    exact (elementOk_append [_, _, _, _] c _ 2).trans (and_iff_right rfl)
  have hS : elementOk (encode c d hashType) (c.length + 4) (c.length + 6) d.length = true ↔
    Shortest d := by
    have h := elementOk_append
      (0x30 :: BitVec.ofNat 8 (c.length + d.length + 4) :: 0x02 :: BitVec.ofNat 8 c.length ::
      (c ++ [0x02, BitVec.ofNat 8 d.length])) d [hashType] (c.length + 4 + 0)
    simp only [cons_append, append_assoc, nil_append, byteAt_behind, length_cons,
      length_append] at h
    rw [encode_eq]
    exact h.trans (and_iff_right rfl)
  rw [isValidSignatureEncoding_eq, hlenR, hlenS, length_encode]
  simp only [Bool.and_eq_true, beq_iff_eq, decide_eq_true_eq, hR, hS]
  constructor
  · rintro ⟨⟨-, hR⟩, hS⟩
    exact ⟨hR, hS⟩
  · rintro ⟨hR, hS⟩
    have hposR := hR.1
    have hposS := hS.1
    exact ⟨⟨⟨⟨⟨⟨⟨by omega, by omega⟩, rfl⟩, by omega⟩, by omega⟩, trivial⟩, hR⟩, hS⟩

lemma signatureOf_encode : signatureOf (encode c d hashType) = (ofBytes c, ofBytes d,
    hashType) := by
  obtain ⟨hlenR, hlenS⟩ := lengths_encode hmax hashType
  simp only [signatureOf, hlenR, hlenS]
  simp [encode_eq, add_comm 6, List.getLast?_cons, List.getLast?_append]

end Encode

/-- The tests of the lengths and the tags leave only the bytes of the elements open. -/
lemma exists_encode (h : isValidSignatureEncoding sig = true) :
    ∃ c d hashType, sig = encode c d hashType ∧ c.length + d.length ≤ 66 := by
  rw [isValidSignatureEncoding_eq] at h
  simp only [elementOk, Bool.and_eq_true, beq_iff_eq, decide_eq_true_eq, and_assoc] at h
  obtain ⟨hmin, hmax, hs₀, hs₁, hin, hlen, hs₂, -, -, -, ht₀, -⟩ := h
  obtain ⟨s₀, s₁, s₂, s₃, u, rfl⟩ : ∃ s₀ s₁ s₂ s₃ u, sig = s₀ :: s₁ :: s₂ :: s₃ :: u := by
    rcases sig with _ | ⟨s₀, _ | ⟨s₁, _ | ⟨s₂, _ | ⟨s₃, u⟩⟩⟩⟩ <;> simp_all
  have hs₃ : byteAt (s₀ :: s₁ :: s₂ :: s₃ :: u) 3 = s₃.toNat := rfl
  rw [hs₃] at hin hlen ht₀
  simp only [length_cons] at hmin hmax hs₁ hin hlen
  obtain ⟨c, w, rfl, hc⟩ : ∃ c w, u = c ++ w ∧ c.length = s₃.toNat :=
    ⟨u.take s₃.toNat, u.drop s₃.toNat, (take_append_drop _ _).symm, length_take_of_le (by omega)⟩
  rw [length_append] at hmin hmax hs₁ hin hlen
  obtain ⟨t₀, t₁, v, rfl⟩ : ∃ t₀ t₁ v, w = t₀ :: t₁ :: v := by
    rcases w with _ | ⟨t₀, _ | ⟨t₁, v⟩⟩ <;> simp at hin ⊢ <;> omega
  rw [← hc, show 5 + c.length = c.length + 4 + 1 by omega, byteAt_behind] at hlen
  rw [← hc, ← add_zero (c.length + 4), byteAt_behind] at ht₀
  change c.length + t₁.toNat + 7 = _ at hlen
  obtain rfl | ⟨d, hashType, rfl⟩ := v.eq_nil_or_concat
  · simp only [length_cons, length_nil] at hlen
    omega
  simp only [length_cons, length_concat] at hlen hmax hs₁
  have hbyte {b : BitVec 8} {n m : ℕ} (h : b.toNat = n) (hnm : n = m) : b = BitVec.ofNat 8 m := by
    rw [← hnm, ← h, BitVec.ofNat_toNat, BitVec.setWidth_eq]
  refine ⟨c, d, hashType, ?_, by omega⟩
  rw [encode_eq, hbyte (b := s₀) hs₀ rfl,
    hbyte (b := s₁) (m := c.length + d.length + 4) hs₁ (by omega),
    hbyte (b := s₂) hs₂ rfl, hbyte hc.symm rfl, hbyte (b := t₀) ht₀ rfl,
    hbyte (b := t₁) rfl (show t₁.toNat = d.length by omega), concat_eq_append]
  rfl

lemma eq_derSignature (h : isValidSignatureEncoding sig = true) : 9 ≤ sig.length ∧ sig.length ≤ 73 ∧
    sig = derSignature (signatureOf sig).1 (signatureOf sig).2.1 (signatureOf sig).2.2 := by
  obtain ⟨c, d, hashType, rfl, hmax⟩ := exists_encode h
  obtain ⟨hR, hS⟩ := (isValidSignatureEncoding_encode hmax hashType).1 h
  have hposR := hR.1
  have hposS := hS.1
  rw [signatureOf_encode hmax, derSignature, ← (shortest_iff c).1 hR, ← (shortest_iff d).1 hS,
    length_encode]
  exact ⟨by omega, by omega, rfl⟩

/-- **Strict DER.** All reads are inside the vector; what is accepted is two numbers in their
shortest form with a hash type; and what is accepted is determined by what it says. -/
theorem isValidSignatureEncoding_iff_derSignature (sig : Bytes) :
    isValidSignatureEncodingRead sig = some (isValidSignatureEncoding sig) ∧
    (isValidSignatureEncoding sig = true ↔
      9 ≤ sig.length ∧ sig.length ≤ 73 ∧ ∃ R S hashType, sig = derSignature R S hashType) ∧
    ∀ sig', isValidSignatureEncoding sig = true → isValidSignatureEncoding sig' = true →
      signatureOf sig = signatureOf sig' → sig = sig' := by
  refine ⟨isValidSignatureEncodingRead_eq sig, ⟨fun h => ?_, ?_⟩, fun sig' h h' hsame => ?_⟩
  · obtain ⟨hmin, hmax, heq⟩ := eq_derSignature h
    exact ⟨hmin, hmax, _, _, _, heq⟩
  · rintro ⟨-, hmax, R, S, hashType, rfl⟩
    rw [derSignature, length_encode] at hmax
    exact (isValidSignatureEncoding_encode (by omega) _).2 ⟨shortest_shortest R,
      shortest_shortest S⟩
  · rw [(eq_derSignature h).2.2, hsame, ← (eq_derSignature h').2.2]

end Bitcoin.Script
