import NeoOS.Lib.Run
import NeoOS.Spec.Tcp

/-!
# What the operations on a connection leave alone

Two parts of a block that most operations do not touch. `Tcb.rx` is the receive side: it is
written by the data and the FIN of a segment, by the handshake and by `tcp_recv` only.
`Tcb.ctl` is what decides how a segment is read: the state and the marks beside it.
Output, acknowledgements and window updates keep both.
-/

namespace NeoOS.Tcp

open Serial (add sub)

variable {s : Seg} {t t' u : Tcb}

/-- The receive side of a block. -/
structure Rx where
  rcv : RingBuf UInt8
  rcvNxt : ℕ
  reasm : List (Option Reasm)
  finRcvd : Bool

def Tcb.rx (t : Tcb) : Rx := ⟨t.rcv, t.rcvNxt, t.reasm, t.finRcvd⟩

/-- The state and the marks. -/
structure Ctl where
  state : State
  inUse : Bool
  iss : ℕ
  parent : Option ℕ
  sockGone : Bool
  reclaimed : Bool
  reset : Bool
  shutRd : Bool
  shutWr : Bool
  timewaitDeadline : ℕ
  acceptQ : List ℕ

def Tcb.ctl (t : Tcb) : Ctl :=
  ⟨t.state, t.inUse, t.iss, t.parent, t.sockGone, t.reclaimed, t.reset, t.shutRd, t.shutWr, t.timewaitDeadline, t.acceptQ⟩

/-- The receive side and the control part are the same. -/
def Same (t t' : Tcb) : Prop := t'.rx = t.rx ∧ t'.ctl = t.ctl

@[refl] theorem Same.refl (t : Tcb) : Same t t := ⟨rfl, rfl⟩

theorem Same.trans (h1 : Same t u) (h2 : Same u t') : Same t t' := ⟨h2.1.trans h1.1, h2.2.trans h1.2⟩

theorem Same.state (h : Same t t') : t'.state = t.state := congrArg Ctl.state h.2

/-! ## Output -/

variable (now : ℕ) (s : Seg) (t : Tcb)

theorem txQueue_shape (s : Seg) :
    ∃ q, txQueue t s = { t with txq := t.txq ++ q } ∧ ∀ g ∈ q, g.seq = s.seq ∧ g.data = s.data ∧ g.flags = s.flags := by
  unfold txQueue
  split
  · exact ⟨[], by simp, by simp⟩
  · exact ⟨_, rfl, by simp⟩

theorem same_txQueue (s : Seg) : Same t (txQueue t s) := by
  obtain ⟨q, h, -⟩ := txQueue_shape t s
  rw [h]
  exact ⟨rfl, rfl⟩

theorem same_sendFlags (f : Flags) (seq : ℕ) : Same t (sendFlags t f seq) := same_txQueue _ _

theorem same_sendAck : Same t (sendAck t) := same_txQueue _ _

theorem same_sendSyn (f : Flags) (t : Tcb) : Same t (sendSyn now f t) := same_sendFlags t f t.iss

/-- The segment a round of `tcp_output` stages. -/
def dataSeg (n : ℕ) (t : Tcb) : Seg :=
  ⟨t.sndNxt, t.rcvNxt, { ack := true, psh := true }, advertisedWindow t, 0,
    t.snd.peek sndbufSize (sub t.sndNxt t.sndUna) n⟩

theorem outputData_shape (now n : ℕ) (t : Tcb) :
    ∃ q r d, (∀ g ∈ q, g.seq = t.sndNxt ∧ g.data = (dataSeg n t).data ∧ g.flags = (dataSeg n t).flags) ∧ outputData now n t =
      { t with txq := t.txq ++ q, rtt := r, sndNxt := add t.sndNxt n, rtoDeadline := d, delackDeadline := 0 } := by
  obtain ⟨q, h, hq⟩ := txQueue_shape t (dataSeg n t)
  unfold dataSeg at h
  unfold outputData
  rw [h]
  unfold armRto
  by_cases hp : t.rtt.rttPending <;> by_cases hd : t.rtoDeadline = 0 <;>
    exact ⟨q, _, _, hq, by simp only [hp, hd, if_true, if_false, Bool.false_eq_true]; rfl⟩

theorem same_outputData (now n : ℕ) (t : Tcb) : Same t (outputData now n t) := by
  obtain ⟨q, r, d, -, h⟩ := outputData_shape now n t
  rw [h]
  exact ⟨rfl, rfl⟩

theorem same_outputLoop (now window fuel : ℕ) : ∀ t, Same t (outputLoop now window fuel t) := by
  induction fuel with
  | zero => intro t; exact .refl t
  | succ fuel ih =>
    intro t
    unfold outputLoop
    split
    · exact .refl t
    · exact (same_outputData _ _ t).trans (ih _)

theorem outputFin_shape : outputFin now t = t ∨ ∃ q d, t.finSent = .due ∧ t.sndNxt = add t.sndUna t.snd.len ∧
      (∀ g ∈ q, g.data = []) ∧ outputFin now t =
        { t with txq := t.txq ++ q, sndNxt := add t.sndNxt 1, finSent := .sent, rtoDeadline := d } := by
  unfold outputFin
  split
  · rename_i hc
    obtain ⟨q, h, hq⟩ : ∃ q, sendFlags t { fin := true, ack := true } t.sndNxt = { t with txq := t.txq ++ q } ∧
        ∀ g ∈ q, _ ∧ g.data = [] ∧ _ := txQueue_shape _ _
    have hdata : ∀ g ∈ q, g.data = [] := fun g hg => (hq g hg).2.1
    right
    rw [h]
    unfold armRto
    by_cases hd : t.rtoDeadline = 0
    · exact ⟨q, _, hc.1, hc.2, hdata, by simp only [hd, if_true]; rfl⟩
    · exact ⟨q, t.rtoDeadline, hc.1, hc.2, hdata, by simp only [hd, if_false]⟩
  · exact .inl rfl

theorem same_outputFin : Same t (outputFin now t) := by
  obtain h | ⟨q, d, -, -, -, h⟩ := outputFin_shape now t <;> rw [h]
  exact ⟨rfl, rfl⟩

theorem same_tcpOutput : Same t (tcpOutput now t) := by
  unfold tcpOutput
  split
  · exact (same_outputLoop _ _ _ t).trans (same_outputFin _ _)
  · exact .refl t

theorem same_retransmit : Same t (retransmit t) := by
  unfold retransmit
  split
  · split
    · exact same_sendFlags _ _ _
    · exact .refl t
  · exact same_txQueue { t with rtt := { t.rtt with rttPending := false } } _

/-! ## Parts of a segment -/

theorem same_segAcked : Same t (segAcked now s t) := by
  unfold segAcked
  simp only
  split <;> exact ⟨rfl, rfl⟩

theorem same_segAck : Same t (segAck now s t) := by
  unfold segAck
  simp only
  split
  · exact same_segAcked now s t
  · split
    · split
      · exact same_retransmit { t with cc := _ }
      · exact ⟨rfl, rfl⟩
    · exact .refl t

theorem same_segWindow : Same t (segWindow now s t) := by
  unfold segWindow
  split <;> exact ⟨rfl, rfl⟩

/-- Only the ring, `rcv_nxt` and the queue of early segments have changed. -/
def Takes (t t' : Tcb) : Prop := ∃ b n q, t' = { t with rcv := b, rcvNxt := n, reasm := q }

theorem Takes.refl : Takes t t := ⟨_, _, _, rfl⟩

theorem Takes.trans {t : Tcb} (h1 : Takes t u) (h2 : Takes u t') : Takes t t' := by
  obtain ⟨b, n, q, rfl⟩ := h1
  obtain ⟨b', n', q', rfl⟩ := h2
  exact ⟨b', n', q', rfl⟩

theorem takes_deliver (data : List UInt8) : Takes t (deliver t data) := ⟨_, _, _, rfl⟩

theorem takes_drainSlot (i : ℕ) : Takes t (drainSlot t i).1 := by
  unfold drainSlot
  split
  · exact .refl t
  split
  · exact ⟨_, _, _, rfl⟩
  split
  · exact ⟨_, _, _, rfl⟩
  · exact .refl t

/-! What every slot keeps is kept while the queue is drained. -/

section Drain

variable {R : Tcb → Tcb → Prop} (hrefl : ∀ t, R t t) (htrans : ∀ t u v, R t u → R u v → R t v)
  (hslot : ∀ t i, R t (drainSlot t i).1)

include hrefl htrans hslot

theorem drainPass_rel (t : Tcb) : R t (drainPass t).1 := by
  have h := Run.foldl_rel (r := fun a b : Tcb × Bool => R a.1 b.1) (f := drainRound) (l := List.range reasmSegs)
    (fun _ => hrefl _) (fun _ _ _ => htrans _ _ _) (fun i _ a => hslot a.1 i) (t, false)
  exact h

theorem drainLoop_rel (fuel : ℕ) : ∀ t, R t (drainLoop fuel t) := by
  induction fuel with
  | zero => exact hrefl
  | succ fuel ih =>
    intro t
    have hp := drainPass_rel hrefl htrans hslot t
    unfold drainLoop
    simp only
    split
    · exact htrans _ _ _ hp (ih _)
    · exact hp

end Drain

theorem takes_drainReasm : Takes t (drainReasm t) := drainLoop_rel Takes.refl (fun _ _ _ => .trans) takes_drainSlot _ t

theorem takes_queueReasm (seq : ℕ) (data : List UInt8) : Takes t (queueReasm t seq data) := by
  unfold queueReasm
  split
  · exact .refl t
  split
  · exact .refl t
  · exact ⟨_, _, _, rfl⟩

theorem sendFlags_shape (f : Flags) (seq : ℕ) : ∃ q, sendFlags t f seq = { t with txq := t.txq ++ q } ∧
    ∀ g ∈ q, g.data = [] := by
  obtain ⟨q, h, hq⟩ : ∃ q, sendFlags t f seq = { t with txq := t.txq ++ q } ∧ ∀ g ∈ q, _ ∧ g.data = [] ∧ _ := txQueue_shape _ _
  exact ⟨q, h, fun g hg => (hq g hg).2.1⟩

theorem sendAck_shape : ∃ q, sendAck t = { t with txq := t.txq ++ q } ∧ ∀ g ∈ q, g.data = [] := sendFlags_shape _ _ _

theorem segData_shape : ∃ b n r d q, (∀ g ∈ q, g.data = []) ∧
      segData now s t = { t with rcv := b, rcvNxt := n, reasm := r, delackDeadline := d, txq := t.txq ++ q } := by
  have hkeep : ∀ u : Tcb, Takes t u → ∃ b n r d q, (∀ g ∈ q, g.data = []) ∧
      sendAck u = { t with rcv := b, rcvNxt := n, reasm := r, delackDeadline := d, txq := t.txq ++ q } := by
    rintro u ⟨b, n, r, rfl⟩
    obtain ⟨q, h, hq⟩ := sendAck_shape { t with rcv := b, rcvNxt := n, reasm := r }
    exact ⟨b, n, r, _, q, hq, h⟩
  unfold segData
  split
  · exact ⟨t.rcv, t.rcvNxt, t.reasm, t.delackDeadline, [], by simp, by rw [List.append_nil]⟩
  split
  · obtain ⟨b, n, r, hd⟩ : Takes t (drainReasm (deliver t s.data)) := (takes_deliver t s.data).trans (takes_drainReasm _)
    rw [hd]
    simp only
    split
    · exact ⟨b, n, r, now + delackTicks, [], by simp, by rw [List.append_nil]⟩
    · obtain ⟨q, h, hq⟩ := sendAck_shape { t with rcv := b, rcvNxt := n, reasm := r, delackDeadline := 0 }
      exact ⟨b, n, r, 0, q, hq, h⟩
  split
  · exact hkeep _ (takes_queueReasm t _ _)
  · exact hkeep _ (.refl t)

@[simp] theorem ctl_segData : (segData now s t).ctl = t.ctl := by
  obtain ⟨b, n, r, d, q, -, h⟩ := segData_shape now s t
  rw [h]
  rfl

@[simp] theorem rx_finState : (finState now t).rx = t.rx := by
  unfold finState
  split <;> rfl

theorem segClose_keeps {α : Type*} {g : Tcb → α} (hout : ∀ t, g (tcpOutput now t) = g t)
    (hstate : ∀ (t : Tcb) (a : State) (d : ℕ), g { t with state := a, timewaitDeadline := d } = g t)
    (hclosed : ∀ t, g (enterClosed t none) = g t) : g (segClose now t) = g t := by
  unfold segClose
  split
  · rw [hout]
    split <;> exact hstate t _ _
  split
  · rw [hout]
    exact hstate t _ _
  split
  · exact hclosed t
  · exact hout t

@[simp] theorem rx_segClose : (segClose now t).rx = t.rx :=
  segClose_keeps now t (fun t => (same_tcpOutput now t).1) (fun _ _ _ => rfl) fun _ => rfl

/-- The marks that only opening and closing a socket change. -/
structure Slot where
  inUse : Bool
  sockGone : Bool
  reclaimed : Bool
  parent : Option ℕ
  acceptQ : List ℕ

def Tcb.slot (t : Tcb) : Slot := ⟨t.inUse, t.sockGone, t.reclaimed, t.parent, t.acceptQ⟩

/-- What no segment of an open connection changes. -/
def Ctl.kept (c : Ctl) : Slot × ℕ × Bool := (⟨c.inUse, c.sockGone, c.reclaimed, c.parent, c.acceptQ⟩, c.iss, c.reset)

theorem kept_segFin : (segFin now s t).ctl.kept = t.ctl.kept := by
  unfold segFin
  split
  swap
  · rfl
  have hs := (same_sendAck { t with finRcvd := true, rcvNxt := add t.rcvNxt 1 }).2
  refine Eq.trans ?_ (congrArg Ctl.kept hs)
  unfold finState
  split <;> rfl

theorem kept_segRest : (segRest now s t).ctl.kept = t.ctl.kept := by
  have hclose : ∀ t, (segClose now t).ctl.kept = t.ctl.kept := fun t =>
    segClose_keeps now t (g := fun t => t.ctl.kept) (fun t => congrArg Ctl.kept (same_tcpOutput now t).2)
      (fun _ _ _ => rfl) fun _ => rfl
  unfold segRest
  rw [hclose, kept_segFin, ctl_segData, (same_segWindow now s _).2, (same_segAck now s t).2]

/-- **What a segment can do** to a block; the flag is that of `tcp_segment`. -/
inductive SegmentMove (now : ℕ) (s : Seg) (t : Tcb) : Tcb × Bool → Prop
  | reset (h : s.flags.rst) : SegmentMove now s t (segRst t, false)
  | ignored : SegmentMove now s t (t, false)
  | connected (h : t.state = .synSent) (hsyn : s.flags.syn) (hge : Serial.ge s.ack (add t.iss 1))
      (hgt : ¬ Serial.gt s.ack t.sndNxt) (r : Rtt) (q : List Seg) (hq : ∀ g ∈ q, g.data = []) :
      SegmentMove now s t
        ({ t with irs := s.seq, rcvNxt := add s.seq 1, sndUna := s.ack, sndWnd := s.window, mss := segMss s t,
                  cc := ccInit (segMss s t) t.cc, state := .established, establishDeadline := 0, rtoDeadline := 0,
                  rtt := r, txq := t.txq ++ q }, false)
  | simultaneous (h : t.state = .synSent) (hsyn : s.flags.syn) (q : List Seg) (hq : ∀ g ∈ q, g.data = []) :
      SegmentMove now s t ({ t with irs := s.seq, rcvNxt := add s.seq 1, state := .synReceived, txq := t.txq ++ q }, false)
  /-- an acknowledgement or a RST is staged -/
  | answered (q : List Seg) (hq : ∀ g ∈ q, g.data = []) : SegmentMove now s t ({ t with txq := t.txq ++ q }, false)
  | established (h : t.state = .synReceived) (hacc : acceptable s t) (hack : s.flags.ack)
      (hr : (Serial.ge s.ack t.sndUna && Serial.le s.ack t.sndNxt)) :
      SegmentMove now s t (segRest now s (segEstablished s t), t.parent.isSome)
  | rest (h1 : t.state ≠ .synSent) (h2 : t.state ≠ .synReceived) (hacc : t.state ≠ .listen → acceptable s t)
      (hack : s.flags.ack) : SegmentMove now s t (segRest now s t, false)

theorem segSynSent_move {t : Tcb} (h : t.state = .synSent) : SegmentMove now s t (segSynSent now s t, false) := by
  unfold segSynSent
  split
  · rename_i hf
    split
    · exact .ignored
    · rename_i hack
      rw [not_or, Bool.not_eq_true', Bool.not_eq_false] at hack
      unfold segConnected
      simp only
      split <;> obtain ⟨q, e, hq⟩ := sendAck_shape _ <;> rw [e]
      · exact .connected h hf.1 hack.1 hack.2 _ q hq
      · exact .connected h hf.1 hack.1 hack.2 t.rtt q hq
  split
  · rename_i hf
    obtain ⟨q, e, hq⟩ := sendFlags_shape { t with irs := s.seq, rcvNxt := add s.seq 1, state := .synReceived }
      { syn := true, ack := true } t.iss
    rw [e]
    exact .simultaneous h hf q hq
  · exact .ignored

theorem tcpSegment_move : SegmentMove now s t (tcpSegment now s t) := by
  unfold tcpSegment
  split
  · exact .reset ‹_›
  split
  · exact segSynSent_move now s ‹_›
  rename_i hns
  split
  · obtain ⟨q, e, hq⟩ := sendAck_shape t
    rw [e]
    exact .answered q hq
  rename_i hacc
  rw [not_and, Bool.not_eq_true', Bool.not_eq_false] at hacc
  split
  · exact .ignored
  rename_i hack
  rw [Bool.not_eq_true', Bool.not_eq_false] at hack
  split
  · rename_i hst
    split
    · exact .established hst (hacc (by rw [hst]; decide)) hack ‹_›
    · obtain ⟨q, e, hq⟩ := txQueue_shape t ⟨s.ack, 0, { rst := true }, 0, 0, []⟩
      rw [e]
      exact .answered q fun g hg => (hq g hg).2.1
  · exact .rest hns ‹_› hacc hack

/-- What no segment changes. -/
theorem slot_iss_tcpSegment : (tcpSegment now s t).1.slot = t.slot ∧ (tcpSegment now s t).1.iss = t.iss := by
  have hsame : ∀ {u v : Tcb}, u.ctl.kept = v.ctl.kept → u.slot = v.slot ∧ u.iss = v.iss :=
    fun h => ⟨congrArg Prod.fst h, congrArg (·.2.1) h⟩
  have hm := tcpSegment_move now s t
  generalize tcpSegment now s t = r at hm ⊢
  cases hm with
  | established => exact hsame (kept_segRest now s (segEstablished s t))
  | rest => exact hsame (kept_segRest now s t)
  | _ => exact ⟨rfl, rfl⟩

theorem rx_segRest : ∃ u : Tcb, Same t u ∧ (segRest now s t).rx = (segFin now s (segData now s u)).rx :=
  ⟨segWindow now s (segAck now s t), (same_segAck now s t).trans (same_segWindow now s _), rx_segClose _ _⟩

/-! ## The timer and the calls -/

theorem same_rtoBackoff : Same t (rtoBackoff now t) := ⟨rfl, rfl⟩

theorem same_rtoResend : Same t (rtoResend t) := by
  unfold rtoResend
  split
  · exact same_sendFlags _ _ _
  split
  · exact same_sendFlags _ _ _
  · exact same_retransmit t

/-- The retransmission timer is not due, gives up, or sends again. -/
theorem rtoCheck_cases : rtoCheck now t = (t, false) ∨
      rtoCheck now t = (enterClosed { t with retries := (t.retries + 1) % 256 } (some .etimedout), true) ∨
      rtoCheck now t = (rtoResend (rtoBackoff now { t with retries := (t.retries + 1) % 256 }), false) := by
  unfold rtoCheck
  split
  · unfold rtoFired
    simp only
    split
    · exact .inr (.inl rfl)
    · exact .inr (.inr rfl)
  · exact .inl rfl

theorem same_delackFired : Same t (delackFired now t) := by
  unfold delackFired
  split
  · exact same_sendAck { t with delackDeadline := 0 }
  · exact .refl t

theorem same_persistBackoff : Same t (persistBackoff now t) := ⟨rfl, rfl⟩

theorem same_persistProbe : Same t (persistProbe t) := by
  unfold persistProbe
  simp only
  split
  · exact same_txQueue t _
  · exact same_sendFlags t _ _

theorem same_persistFired : Same t (persistFired now t) := by
  unfold persistFired
  split
  · exact (same_persistBackoff now t).trans (same_persistProbe _)
  · exact .refl t

/-- The timer gives the connection up: the handshake or a retransmission takes too long. -/
def givesUp (now : ℕ) (t : Tcb) : Bool :=
  t.inUse && !(decide (t.timewaitDeadline ≠ 0) && decide (t.timewaitDeadline ≤ now)) &&
    !(t.sockGone && decide (t.state = .closed) && !t.reclaimed) &&
    (decide (t.establishDeadline ≠ 0) && decide (t.establishDeadline ≤ now) || (rtoCheck now t).2)

/-- **What a pass of the timer can do** to a block. -/
inductive TimerMove (now : ℕ) (t : Tcb) : Tcb → Prop
  | idle (h : t.inUse = false) : TimerMove now t t
  | ended (d r : ℕ) (err : Option Err) (h : t.timewaitDeadline ≠ 0 ∨ givesUp now t) :
      TimerMove now t (enterClosed { t with timewaitDeadline := d, retries := r } err)
  | released (hg : t.sockGone) (hst : t.state = .closed) :
      TimerMove now t { t with reclaimed := true, state := .closed, inUse := false }
  /-- the three timers are looked at -/
  | fired (huse : t.inUse) (hrel : ¬ (t.sockGone ∧ t.state = .closed ∧ (!t.reclaimed)))
      (hr : (rtoCheck now t).2 = false) : TimerMove now t (persistFired now (delackFired now (rtoCheck now t).1))

theorem tcpTimer_move : TimerMove now t (tcpTimer now t) := by
  unfold tcpTimer
  split
  · rename_i huse
    exact .idle (by simpa using huse)
  rename_i huse
  have huse : t.inUse := by simpa using huse
  split
  · rename_i h
    exact .ended 0 t.retries none (.inl h.1)
  rename_i htw
  split
  · rename_i h
    unfold tcpRelease
    rw [if_neg (by simpa using h.2.2)]
    exact .released h.1 h.2.1
  rename_i hrel
  have hgu : (t.establishDeadline ≠ 0 ∧ t.establishDeadline ≤ now) ∨ (rtoCheck now t).2 → givesUp now t := by
    intro h
    simp only [givesUp, huse, Bool.true_and, Bool.and_eq_true, Bool.or_eq_true, Bool.not_eq_true', Bool.eq_false_iff, ne_eq,
      decide_eq_true_eq, and_assoc (a := t.sockGone = true)]
    exact ⟨⟨htw, by simpa using hrel⟩, h⟩
  split
  · rename_i h
    exact .ended t.timewaitDeadline t.retries (some .etimedout) (.inr (hgu (.inl h)))
  simp only
  split
  · rename_i hgave
    have hgu := hgu (.inr hgave)
    obtain e | e | e := rtoCheck_cases now t <;> rw [e] at hgave ⊢ <;> cases hgave
    exact .ended t.timewaitDeadline _ _ (.inr hgu)
  · rename_i hr
    exact .fired huse hrel (by simpa using hr)

theorem same_tcpSend (data : List UInt8) (t : Tcb) : Same t (tcpSend now data t).1 := by
  unfold tcpSend
  split
  · exact .refl t
  split
  · exact .refl t
  split
  · exact .refl t
  · exact same_tcpOutput now { t with snd := _ }

theorem tcpRecv_cases (len : ℕ) (t : Tcb) : (tcpRecv len t).1 = t ∨ t.rcv.len ≠ 0 ∧
    ∃ r, (tcpRecv len t).1 = { t with rcv := r } ∨ (tcpRecv len t).1 = sendAck { t with rcv := r } := by
  unfold tcpRecv
  split
  · rename_i hlen
    refine .inr ⟨hlen, t.rcv.skip rcvbufSize (min len t.rcv.len), ?_⟩
    simp only
    split
    · exact .inr rfl
    · exact .inl rfl
  left
  split
  · rfl
  split <;> rfl

theorem ctl_tcpRecv (len : ℕ) (t : Tcb) : (tcpRecv len t).1.ctl = t.ctl := by
  obtain h | ⟨-, r, h | h⟩ := tcpRecv_cases len t <;> rw [h]
  · rfl
  · exact (same_sendAck _).2

/-! ## Blocks for examples -/

/-- A block that `tcp_alloc` has just handed out. -/
def blankTcb : Tcb :=
  Tcb.allocated
    { state := .closed, inUse := false, localN := 0, remoteN := 0, lportN := 0, rportN := 0, sndUna := 0, sndNxt := 0,
      sndWnd := 0, sndWl1 := 0, sndWl2 := 0, iss := 0, rcvNxt := 0, rcvWnd := 0, irs := 0, mss := 0,
      snd := ⟨fun _ => 0, 0, 0⟩, rcv := ⟨fun _ => 0, 0, 0⟩, reasm := [], rtoDeadline := 0, delackDeadline := 0,
      persistDeadline := 0, timewaitDeadline := 0, establishDeadline := 0, rtt := ⟨0, 0, 0, 0, false, 0⟩, retries := 0,
      persistShift := 0, cc := ⟨0, 0, 0, 0, false⟩, backlog := 0, acceptQ := [], parent := none, sockGone := false,
      reclaimed := false, nodelay := false, soError := none, finSent := .no, finRcvd := false, reset := false,
      shutRd := false, shutWr := false, txq := [] }

/-- A connection as it is after the handshake. -/
def openTcb : Tcb :=
  { blankTcb with state := .established, iss := 1000, sndUna := 1001, sndNxt := 1001, sndWnd := 8192, irs := 2000,
                  rcvNxt := 2001, cc := ccInit defaultMss blankTcb.cc }

end NeoOS.Tcp
