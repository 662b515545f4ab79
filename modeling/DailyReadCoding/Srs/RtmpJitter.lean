import Mathlib

/-!
# Correcting the timestamps of a stream

`SrsRtmpJitter` (`srs_app_source.cpp`) adds up the differences of the timestamps of a stream, with
10 ms in place of those of more than 250 ms.
-/

namespace Srs.Rtmp.Jitter

inductive Algorithm
  | full
  | zero
  | off

/-- What `correct` reads and writes of a `SrsSharedPtrMessage` -/
structure Message where
  isAv : Bool
  timestamp : ℤ

structure RtmpJitter where
  lastPktCorrectTime : ℤ
  lastPktTime : ℤ

/-- `SrsRtmpJitter::SrsRtmpJitter` -/
def RtmpJitter.new : RtmpJitter := ⟨-1, 0⟩

def RtmpJitter.correct (j : RtmpJitter) (msg : Message) : Algorithm → RtmpJitter × Message
  | .off => (j, msg)
  | .zero =>
    let first := if j.lastPktCorrectTime = -1 then msg.timestamp else j.lastPktCorrectTime
    ({ j with lastPktCorrectTime := first }, { msg with timestamp := msg.timestamp - first })
  | .full =>
    if !msg.isAv then (j, { msg with timestamp := 0 })
    else
      let delta := msg.timestamp - j.lastPktTime
      let delta := if delta < -250 ∨ delta > 250 then 10 else delta
      let time := max 0 (j.lastPktCorrectTime + delta)
      (⟨time, msg.timestamp⟩, { msg with timestamp := time })

/-- The corrected timestamps of the audio and video messages. -/
def corrected : RtmpJitter → List Message → List ℤ
  | _, [] => []
  | j, msg :: msgs =>
    let r := j.correct msg .full
    if msg.isAv then r.2.timestamp :: corrected r.1 msgs else corrected r.1 msgs

/-- The timestamps that they come with. -/
def raw (msgs : List Message) : List ℤ := (msgs.filter (·.isAv)).map (·.timestamp)

/-- Neither back by at most 250 ms. -/
def Forward (t u : ℤ) : Prop := u < t - 250 ∨ t ≤ u

variable {j : RtmpJitter} {msg : Message} {msgs : List Message}

lemma corrected_cons_meta (h : msg.isAv = false) : corrected j (msg :: msgs)
    = corrected j msgs := by
  simp [corrected, RtmpJitter.correct, h]

/-- What an audio or video message does to the two times. -/
lemma corrected_cons_av (j : RtmpJitter) (msgs : List Message) (h : msg.isAv = true) : ∃ time,
    corrected j (msg :: msgs) = time :: corrected ⟨time, msg.timestamp⟩ msgs ∧ 0 ≤ time ∧
      (0 ≤ j.lastPktCorrectTime → |time - j.lastPktCorrectTime| ≤ 250 ∧
        (Forward j.lastPktTime msg.timestamp → j.lastPktCorrectTime ≤ time)) := by
  simp only [corrected, RtmpJitter.correct, h, Bool.not_true, Bool.false_eq_true, if_true, if_false]
  refine ⟨_, rfl, le_max_left _ _, fun hj => ?_⟩
  rw [abs_le, Forward]
  split_ifs <;> omega

lemma raw_cons_av (h : msg.isAv = true) : raw (msg :: msgs) = msg.timestamp :: raw msgs := by
  simp [raw, h]

/-- The times that follow an audio or video message. -/
lemma isChain_corrected (hj : 0 ≤ j.lastPktCorrectTime) : (∀ t ∈ corrected j msgs, 0 ≤ t) ∧
      (j.lastPktCorrectTime :: corrected j msgs).IsChain (fun t u => |u - t| ≤ 250) ∧
      ((j.lastPktTime :: raw msgs).IsChain Forward →
        (j.lastPktCorrectTime :: corrected j msgs).IsChain (· ≤ ·)) := by
  induction msgs generalizing j with
  | nil => simp [corrected]
  | cons msg msgs ih =>
    cases h : msg.isAv with
    | false => simpa [corrected_cons_meta h, raw, h] using ih hj
    | true =>
      obtain ⟨time, heq, htime, hstep⟩ := corrected_cons_av j msgs h
      obtain ⟨hfar, hforward⟩ := hstep hj
      obtain ⟨hpos, hchain, hmono⟩ := @ih ⟨time, msg.timestamp⟩ htime
      simp only [heq, raw_cons_av h, List.isChain_cons_cons, List.forall_mem_cons]
      exact ⟨⟨htime, hpos⟩, ⟨hfar, hchain⟩, fun hraw => ⟨hforward hraw.1, hmono hraw.2⟩⟩

/-- **The corrected times**: never negative, at most 250 ms apart, and in order unless the
timestamps of two consecutive messages go back by at most 250 ms. -/
theorem corrected_spec (msgs : List Message) :
    (∀ t ∈ corrected .new msgs, 0 ≤ t) ∧ (corrected .new msgs).IsChain (fun t u => |u - t| ≤ 250) ∧
      ((raw msgs).IsChain Forward → (corrected .new msgs).Pairwise (· ≤ ·)) := by
  induction msgs with
  | nil => simp [corrected]
  | cons msg msgs ih =>
    cases h : msg.isAv with
    | false => simpa [corrected_cons_meta h, raw, h] using ih
    | true =>
      obtain ⟨time, heq, htime, -⟩ := corrected_cons_av .new msgs h
      obtain ⟨hpos, hchain, hmono⟩ := @isChain_corrected ⟨time, msg.timestamp⟩ msgs htime
      rw [heq, raw_cons_av h, ← List.isChain_iff_pairwise]
      exact ⟨List.forall_mem_cons.2 ⟨htime, hpos⟩, hchain, hmono⟩

/-- A stream that goes ahead by two minutes and starts again, with a message in between that is
neither audio nor video: the corrected times are in order. -/
theorem corrected_spec_restart :
    (raw [⟨true, 100⟩, ⟨true, 140⟩, ⟨false, 0⟩, ⟨true, 120000⟩, ⟨true, 20⟩]).IsChain Forward ∧
    corrected .new [⟨true, 100⟩, ⟨true, 140⟩, ⟨false, 0⟩, ⟨true, 120000⟩, ⟨true, 20⟩] =
      [99, 139, 149, 159] ∧ (corrected .new [⟨true, 100⟩, ⟨true, 140⟩, ⟨false, 0⟩, ⟨true, 120000⟩,
      ⟨true, 20⟩]).Pairwise (· ≤ ·) := by
  have hforward : (raw [⟨true, 100⟩, ⟨true, 140⟩, ⟨false, 0⟩, ⟨true, 120000⟩,
      ⟨true, 20⟩]).IsChain Forward := by simp [raw, Forward]
  exact ⟨hforward, by decide, (corrected_spec _).2.2 hforward⟩

/-- The second message goes back by 50 ms, and so does its corrected time. -/
theorem corrected_goes_back : corrected .new [⟨true, 100⟩, ⟨true, 50⟩] = [99, 49] := by decide

end Srs.Rtmp.Jitter
