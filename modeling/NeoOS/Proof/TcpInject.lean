import NeoOS.Proof.TcpFrame

/-!
# Segments from outside the window

`tcp_segment` answers a segment that lies outside the receive window with an acknowledgement
and leaves the connection as it is. A RST is the exception: it is taken before the window is
looked at, so anybody who knows the two addresses and ports can end a connection.
-/

namespace NeoOS.Tcp

open Serial (add half size sub)

variable {now : ℕ} {s : Seg} {t : Tcb}

/-- The states in which both ends have agreed on sequence numbers. -/
def State.synchronized : State → Bool
  | .closed | .listen | .synSent | .synReceived => false
  | _ => true

/-- The sequence numbers a segment takes up; SYN and FIN take one each. -/
def Seg.extent (s : Seg) : ℕ := s.data.length + s.flags.syn.toNat + s.flags.fin.toNat

/-- No number of the segment is in the receive window. A segment that takes up no number
stands at its own, and a closed window still has the number that is expected next. -/
def Outside (s : Seg) (t : Tcb) : Prop :=
  ∀ i < max 1 s.extent, max 1 t.rcvWnd ≤ sub (add s.seq i) t.rcvNxt

instance : Decidable (Outside s t) := inferInstanceAs (Decidable (∀ i < max 1 s.extent, _))

/-- Nothing has changed but that an acknowledgement may have been staged. -/
def AtMostAck (t t' : Tcb) : Prop :=
  ∃ q, t' = { t with txq := t.txq ++ q } ∧ (q = [] ∨ ∃ a : Seg, q = [a] ∧ a.flags = { ack := true } ∧ a.data = [])

theorem AtMostAck.refl (t : Tcb) : AtMostAck t t := ⟨[], by simp, .inl rfl⟩

theorem atMostAck_sendAck (t : Tcb) : AtMostAck t (sendAck t) := by
  unfold sendAck sendFlags txQueue
  split
  · exact .refl t
  · exact ⟨_, rfl, .inr ⟨_, rfl, rfl, rfl⟩⟩

theorem AtMostAck.state_eq {t' : Tcb} (h : AtMostAck t t') : t'.state = t.state := by
  obtain ⟨q, rfl, -⟩ := h
  rfl

/-- A number that passes both comparisons of the test is less than a window ahead. -/
theorem sub_lt_of_inside {a b win : ℕ} (h1 : Serial.ge a b) (h2 : Serial.lt a (add b win)) : sub a b < win := by
  simp only [Serial.ge, Serial.lt, decide_eq_true_eq] at h1 h2
  unfold sub add size half at *
  omega

/-- A segment that starts before `b` and ends behind it has `b` among its numbers. -/
theorem covers_of_straddles {a b n : ℕ} (h1 : Serial.lt a b) (h2 : Serial.gt (add a n) b) : ∃ i < n, sub (add a i) b = 0 := by
  simp only [Serial.lt, Serial.gt, Bool.and_eq_true, decide_eq_true_eq, bne_iff_ne, ne_eq] at h1 h2
  refine ⟨n - sub (add a n) b, ?_, ?_⟩ <;> unfold sub add size half at * <;> omega

theorem not_acceptable_of_outside (ho : Outside s t) : acceptable s t = false := by
  have hfirst : max 1 t.rcvWnd ≤ sub s.seq t.rcvNxt := by
    have h := ho 0 (by omega)
    unfold sub add size at *
    omega
  -- the first number of the segment is not in the window
  have hin : (Serial.ge s.seq t.rcvNxt && Serial.lt s.seq (add t.rcvNxt (if t.rcvWnd = 0 then 1 else t.rcvWnd))) = false := by
    by_contra h
    rw [Bool.not_eq_false, Bool.and_eq_true] at h
    have := sub_lt_of_inside h.1 h.2
    split at this <;> omega
  unfold acceptable
  simp only [hin, Bool.false_or]
  split
  · split
    · rw [beq_eq_false_iff_ne]
      intro he
      unfold sub size at hfirst
      omega
    · rfl
  · -- and neither does the segment begin before the window and reach into it
    by_contra h
    rw [Bool.not_eq_false, Bool.and_eq_true] at h
    obtain ⟨i, hi, h0⟩ := covers_of_straddles h.1 h.2
    have := ho i (by unfold Seg.extent; omega)
    omega

/-- **A segment outside the window of a synchronized connection does nothing, unless it is a RST.** -/
theorem segment_outside_iff (now : ℕ) (s : Seg) (t : Tcb) (hsync : t.state.synchronized = true) (ho : Outside s t) :
    AtMostAck t (tcpSegment now s t).1 ∧ (tcpSegment now s t).2 = false ↔ s.flags.rst = false := by
  constructor
  · rintro ⟨h, -⟩
    by_contra hr
    rw [Bool.not_eq_false] at hr
    -- a RST closes the connection
    have hc : t.state = .closed := by
      rw [← h.state_eq]
      simp [tcpSegment, hr, segRst, enterClosed]
    rw [hc] at hsync
    cases hsync
  · intro hr
    have hne : t.state ≠ .synSent ∧ t.state ≠ .listen := by
      constructor <;> intro h <;> rw [h] at hsync <;> cases hsync
    have hstep : tcpSegment now s t = (sendAck t, false) := by
      simp [tcpSegment, hr, hne.1, hne.2, not_acceptable_of_outside ho]
    rw [hstep]
    exact ⟨atMostAck_sendAck t, rfl⟩

/-- A segment a megabyte ahead of what is expected. -/
def farSeg (flags : Flags) : Seg := ⟨1050577, 0, flags, 0, 0, []⟩

/-- A SYN from outside the window is turned down. -/
theorem segment_outside_iff_syn : AtMostAck openTcb (tcpSegment 0 (farSeg { syn := true }) openTcb).1 ∧
      (tcpSegment 0 (farSeg { syn := true }) openTcb).2 = false :=
  (segment_outside_iff 0 (farSeg { syn := true }) openTcb rfl (by decide)).2 rfl

/-- A RST from outside the window closes an established connection. -/
theorem blind_reset : ¬ ∀ (now : ℕ) (s : Seg) (t : Tcb), t.state.synchronized = true → Outside s t →
      AtMostAck t (tcpSegment now s t).1 ∧ (tcpSegment now s t).2 = false := by
  intro h
  have hs := (h 0 (farSeg { rst := true }) openTcb rfl (by decide)).1.state_eq
  cases hs

end NeoOS.Tcp
