import Mathlib.Data.BitVec

/-!
# The highest sequence number of a stream

`SrsRtpRingBuffer` (`srs_app_rtc_queue.cpp`) follows the 16-bit numbers of the packets of a stream.
It keeps the number behind the highest one and counts how often the numbers started anew, so that
receiver reports can give the highest number without the wrap.
-/

namespace Srs.Rtc

/-! ## The buffer -/

def srsRtpSeqDistance (prevValue value : BitVec 16) : ℤ := (value - prevValue).toInt

/-- `SrsRtpRingBuffer`, without the queue of packets that `update` does not touch -/
structure RtpRingBuffer where
  nnSeqFlipBacks : BitVec 64
  initialized : Bool
  begin_ : BitVec 16
  end_ : BitVec 16
  deriving DecidableEq, Repr

/-- `SrsRtpRingBuffer::SrsRtpRingBuffer` -/
def RtpRingBuffer.new : RtpRingBuffer := ⟨0, false, 0, 0⟩

def RtpRingBuffer.getExtendedHighestSequence (b : RtpRingBuffer) : BitVec 32 :=
  (b.nnSeqFlipBacks * 65536#64 + b.end_.setWidth 64 - 1#64).setWidth 32

/-- `update`, which always returns `true`, with what it writes to `nack_first` and `nack_last` -/
def RtpRingBuffer.update (b : RtpRingBuffer) (seq : BitVec 16) :
    RtpRingBuffer × Option (BitVec 16 × BitVec 16) :=
  if !b.initialized then ({ b with initialized := true, begin_ := seq, end_ := seq + 1#16 }, none)
  else if srsRtpSeqDistance b.end_ seq ≥ 0 then
    ({ b with
        nnSeqFlipBacks := if seq < b.end_ then b.nnSeqFlipBacks + 1#64 else b.nnSeqFlipBacks
        end_ := seq + 1#16 }, some (b.end_, seq))
  else if srsRtpSeqDistance seq b.begin_ > 0 then ({ b with begin_ := seq }, some (seq, b.begin_))
  else (b, none)

/-- The packets of a stream, by their true numbers. -/
def RtpRingBuffer.updates (b : RtpRingBuffer) (packets : List ℤ) : RtpRingBuffer :=
  packets.foldl (fun b seq => (b.update (BitVec.ofInt 16 seq)).1) b

/-! ## The stream -/

/-- The highest true number. -/
def highest (top : ℤ) (packets : List ℤ) : ℤ := packets.foldl max top

/-- Each number is within `2 ^ 15` of the highest one so far. -/
def Within : ℤ → List ℤ → Prop
  | _, [] => True
  | top, seq :: packets => (top - 2 ^ 15 < seq ∧ seq ≤ top + 2 ^ 15) ∧ Within (max top seq) packets

instance instDecidableWithin : ∀ (top : ℤ) (packets : List ℤ), Decidable (Within top packets)
  | _, [] => inferInstanceAs (Decidable True)
  | top, seq :: packets =>
    have := instDecidableWithin (max top seq) packets
    inferInstanceAs (Decidable (_ ∧ _))

/-- A number whose successor starts anew. -/
def isLast (seq : ℤ) : ℤ := if seq % 2 ^ 16 = 65535 then 1 else 0

/-- How often the highest number was such a number. -/
def missed : ℤ → List ℤ → ℤ
  | _, [] => 0
  | top, seq :: packets => (if top < seq then isLast seq else 0) + missed (max top seq) packets

/-! ## What the buffer knows -/

/-- The number behind the highest one, and the restarts up to it but for `n` of them. -/
structure Follows (b : RtpRingBuffer) (top n : ℤ) : Prop where
  initialized : b.initialized = true
  end_eq : b.end_.toNat = (top + 1) % 2 ^ 16
  flips_eq : b.nnSeqFlipBacks.toNat = ((top + 1) / 2 ^ 16 - n) % 2 ^ 64

section Follows

variable {b : RtpRingBuffer} {top n seq : ℤ}

lemma toNat_ofInt (seq : ℤ) : ((BitVec.ofInt 16 seq).toNat : ℤ) = seq % 2 ^ 16 := by
  rw [BitVec.toNat_ofInt]
  omega

lemma toNat_succ (seq : ℤ) : ((BitVec.ofInt 16 seq + 1#16).toNat : ℤ) = (seq + 1) % 2 ^ 16 := by
  have hseq := toNat_ofInt seq
  rw [BitVec.toNat_add, BitVec.toNat_ofNat]
  omega

lemma Follows.distance (h : Follows b top n) (hlow : top - 2 ^ 15 < seq)
    (hhigh : seq ≤ top + 2 ^ 15) :
    srsRtpSeqDistance b.end_ (BitVec.ofInt 16 seq) = seq - (top + 1) := by
  have hseq := toNat_ofInt seq
  have hend := h.end_eq
  rw [srsRtpSeqDistance, BitVec.toInt_eq_toNat_cond, BitVec.toNat_sub]
  split_ifs <;> omega

/-- The restart between two highest numbers is counted, but for one right behind the first of them.
-/
lemma Follows.flips (h : Follows b top n) (hlow : top < seq) (hhigh : seq ≤ top + 2 ^ 15) :
    ((if BitVec.ofInt 16 seq < b.end_ then b.nnSeqFlipBacks + 1#64 else b.nnSeqFlipBacks).toNat : ℤ)
      = ((seq + 1) / 2 ^ 16 - (n + isLast seq)) % 2 ^ 64 := by
  have hseq := toNat_ofInt seq
  have hend := h.end_eq
  have hflips := h.flips_eq
  rw [isLast]
  by_cases hwrap : BitVec.ofInt 16 seq < b.end_
  · rw [if_pos hwrap, BitVec.toNat_add, BitVec.toNat_ofNat]
    rw [BitVec.lt_def] at hwrap
    split_ifs <;> omega
  · rw [if_neg hwrap]
    rw [BitVec.lt_def] at hwrap
    split_ifs <;> omega

lemma Follows.update (h : Follows b top n) (hlow : top - 2 ^ 15 < seq)
    (hhigh : seq ≤ top + 2 ^ 15) :
    Follows (b.update (BitVec.ofInt 16 seq)).1 (max top seq)
    (n + if top < seq then isLast seq else 0) := by
  rw [RtpRingBuffer.update, h.distance hlow hhigh, if_neg (by simp [h.initialized])]
  rcases lt_or_ge top seq with hnew | hold
  · rw [max_eq_right hnew.le, if_pos hnew, if_pos (by omega)]
    exact ⟨h.initialized, toNat_succ seq, h.flips hnew hhigh⟩
  · rw [max_eq_left hold, if_neg hold.not_gt, add_zero, if_neg (by omega)]
    split_ifs
    · exact ⟨h.initialized, h.end_eq, h.flips_eq⟩
    · exact h

/-- A restart is missed whenever the highest number ends with `65535`, since the number behind it
has wrapped already. -/
lemma Follows.updates {packets : List ℤ} (h : Follows b top n) (hw : Within top packets) :
    Follows (b.updates packets) (highest top packets) (n + missed top packets) := by
  induction packets generalizing b top n with
  | nil => rwa [missed, add_zero]
  | cons seq packets ih =>
    rw [missed, ← add_assoc]
    exact ih (h.update hw.1.1 hw.1.2) hw.2

lemma Follows.first (h0 : 0 ≤ seq) (h16 : seq < 2 ^ 16) :
    Follows (RtpRingBuffer.new.update (BitVec.ofInt 16 seq)).1 seq (isLast seq) := by
  refine ⟨rfl, toNat_succ seq, ?_⟩
  change (0 : ℤ) = _
  rw [isLast]
  split_ifs <;> omega

/-- The report is short of the restarts that were missed. -/
lemma Follows.report (h : Follows b top n) :
    (b.getExtendedHighestSequence.toNat : ℤ) = (top - 2 ^ 16 * n) % 2 ^ 32 := by
  have hword : ((b.nnSeqFlipBacks * 65536#64 + b.end_.setWidth 64 - 1#64).toNat : ℤ)
      = (b.nnSeqFlipBacks.toNat * 65536 + b.end_.toNat - 1) % 2 ^ 64 := by
    have hsum : (b.nnSeqFlipBacks * 65536#64 + b.end_.setWidth 64).toNat
        = (b.nnSeqFlipBacks.toNat * 65536 + b.end_.toNat) % 2 ^ 64 := by
      rw [BitVec.toNat_add, BitVec.toNat_mul, BitVec.toNat_setWidth, Nat.mod_add_mod,
        Nat.add_mod_mod]
      rfl
    rw [BitVec.toNat_sub, BitVec.toNat_ofNat]
    omega
  have hend := h.end_eq
  have hflips := h.flips_eq
  rw [RtpRingBuffer.getExtendedHighestSequence, BitVec.toNat_setWidth]
  omega

end Follows

/-- **The report is right** if and only if no restart was missed, up to a multiple of all that it
can tell apart. -/
theorem getExtendedHighestSequence_eq_iff (first : ℤ) (packets : List ℤ) (h0 : 0 ≤ first)
    (h16 : first < 2 ^ 16)
    (hw : Within first packets) :
    ((RtpRingBuffer.new.updates (first :: packets)).getExtendedHighestSequence.toNat : ℤ)
        = highest first packets % 2 ^ 32 ↔ 2 ^ 16 ∣ isLast first + missed first packets := by
  have hreport := ((Follows.first h0 h16).updates hw).report
  rw [RtpRingBuffer.updates, List.foldl_cons, ← RtpRingBuffer.updates]
  omega

/-- Past the wrap without its last number. -/
theorem getExtendedHighestSequence_past_wrap : Within 65534 [65537, 65536] ∧
    ((RtpRingBuffer.new.updates [65534, 65537, 65536]).getExtendedHighestSequence.toNat : ℤ)
      = highest 65534 [65537, 65536] % 2 ^ 32 :=
  ⟨by decide, (getExtendedHighestSequence_eq_iff 65534 [65537, 65536] (by decide) (by decide)
  (by decide)).2 (by decide)⟩

/-- Two packets in order, of which the second is reported as number 0. -/
theorem getExtendedHighestSequence_missed : Within 65535 [65536] ∧ highest 65535 [65536] = 65536 ∧
      (RtpRingBuffer.new.updates [65535, 65536]).getExtendedHighestSequence = 0 := by
  decide

end Srs.Rtc
