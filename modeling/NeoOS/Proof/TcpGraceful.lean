import NeoOS.Proof.TcpInject
import NeoOS.Proof.TcpSendRun

/-!
# Closing in good order

A connection that is closed, and not reset or given up, should reach FIN_WAIT_2, TIME_WAIT or
CLOSED only when the peer has acknowledged everything, the FIN included. The step from
FIN_WAIT_1 asks for that. Those from CLOSING and LAST_ACK only ask that what was sent is
acknowledged, so a FIN that waits behind unsent data is lost with the data.
-/

namespace NeoOS.Tcp

open Serial (add sub Stands Slice half size)

variable {A : List UInt8} {B : ℕ → Prop} {s : Seg} {t t' u : Tcb} {c : Conn} {a b : State} {e : ℕ × Event}

/-- The FIN is out and everything is acknowledged. -/
def Finished (t : Tcb) : Prop := t.finSent = .sent ∧ t.sndUna = t.sndNxt

/-- The states that end a connection on our side. -/
def State.ended : State → Bool
  | .finWait2 | .timeWait | .closed => true
  | _ => false

/-- The connection has ended, or the timer will end it. -/
def Late (t : Tcb) : Prop := t.state.ended = true ∨ t.timewaitDeadline ≠ 0

/-- What is finished stays so, and nothing but what is finished ends. -/
structure Keeps (t t' : Tcb) : Prop where
  fin : Finished t → Finished t'
  late : Late t' → Late t ∨ Finished t'

variable (now : ℕ)

theorem Keeps.trans (h1 : Keeps t u) (h2 : Keeps u t') : Keeps t t' :=
  ⟨fun h => h2.fin (h1.fin h), fun h => (h2.late h).elim (fun h => (h1.late h).imp id h2.fin) .inr⟩

theorem Finished.congr (h : Finished t) (htx : t'.tx = t.tx) : Finished t' := by
  obtain ⟨h1, h2⟩ := h
  exact ⟨(congrArg Tx.finSent htx).trans h1, (congrArg Tx.sndUna htx).trans (h2.trans (congrArg Tx.sndNxt htx).symm)⟩

theorem Late.congr (h : Late t') (hs : t'.state = t.state) (htw : t'.timewaitDeadline = t.timewaitDeadline) : Late t := by
  unfold Late at *
  rwa [hs, htw] at h

theorem Late.ctl (h : Late t') (hc : t'.ctl = t.ctl) : Late t :=
  h.congr (congrArg Ctl.state hc) (congrArg Ctl.timewaitDeadline hc)

theorem Keeps.of_eq (htx : t'.tx = t.tx) (hs : t'.state = t.state) (htw : t'.timewaitDeadline = t.timewaitDeadline) :
    Keeps t t' :=
  ⟨fun h => h.congr htx, fun h => .inl (h.congr hs htw)⟩

theorem Keeps.of_ctl (htx : t'.tx = t.tx) (hc : t'.ctl = t.ctl) : Keeps t t' :=
  ⟨fun h => h.congr htx, fun h => .inl (h.ctl hc)⟩

/-- Where the state does not end, and the timer is not set, nothing is to show. -/
theorem Keeps.of_not_ended (hno : ¬ Finished t) (hs : t'.state.ended = false)
    (htw : t'.timewaitDeadline = t.timewaitDeadline) : Keeps t t' := by
  refine ⟨fun h => absurd h hno, fun h => ?_⟩
  obtain h | h := h
  · exact absurd (hs.symm.trans h) Bool.false_ne_true
  · exact .inl (.inr (htw ▸ h))

/-! ## Segments -/

/-- Once everything is acknowledged there is nothing left to acknowledge. -/
theorem segAck_finished {now : ℕ} (h : Finished t) : segAck now s t = t := by
  unfold segAck
  rw [if_neg, if_neg]
  · rintro ⟨-, -, hne⟩
    exact hne h.2
  · rw [← h.2, Bool.and_eq_true]
    rintro ⟨hgt, hle⟩
    simp only [Serial.gt, Serial.le, Bool.and_eq_true, Bool.or_eq_true, decide_eq_true_eq, bne_iff_ne, beq_iff_eq, ne_eq]
      at hgt hle
    omega

theorem keeps_segAck (s : Seg) (t : Tcb) : Keeps t (segAck now s t) := by
  have hc := (same_segAck now s t).2
  exact ⟨fun h => by rwa [segAck_finished h], fun h => .inl (h.ctl hc)⟩

theorem keeps_segFin (s : Seg) (t : Tcb) : Keeps t (segFin now s t) := by
  refine ⟨fun h => h.congr (quiet_segFin now s t).tx, fun h => .inl ?_⟩
  cases segFin_cases now s t with
  | stay hs htw => exact h.congr hs htw
  | closeWait _ hs htw | closing _ _ hs htw =>
    exact h.imp (fun h => by rw [hs] at h; cases h) fun h => htw ▸ h
  | timeWait h2 => exact .inl (by rw [h2]; rfl)

/-- After a FIN has come, CLOSING was entered from FIN_WAIT_1, and LAST_ACK was there before. -/
theorem segFin_closing {now : ℕ} (h : (segFin now s t).state = .closing ∨ (segFin now s t).state = .lastAck) :
    t.state = .closing ∨ t.state = .lastAck ∨ t.state = .finWait1 ∧ s.flags.fin := by
  cases segFin_cases now s t with
  | stay hs => rw [hs] at h; exact h.imp id .inl
  | closing hf h1 => exact .inr (.inr ⟨h1, hf⟩)
  | closeWait _ hs | timeWait _ hs => rw [hs] at h; obtain h | h := h <;> cases h

theorem tcpOutput_finished (h : PastInv A B t) (hf : Finished t) : tcpOutput now t = t := by
  obtain ⟨-, -, a, k, f, hs, -⟩ := h.past
  have hin : sub t.sndNxt t.sndUna = 0 := by
    rw [hf.2]
    unfold Serial.sub size
    omega
  have hempty : t.snd.len = 0 := by
    have h1 := hs.inFlight
    have h2 := hs.fin hf.1
    have h3 := hs.len
    obtain h5 | ⟨h5, -, h6⟩ := hs.finAcked <;> omega
  have hnone : ∀ w, outputSize w t = none := by
    intro w
    unfold outputSize
    simp only [hin, hempty, le_refl, if_true]
    split
    · rfl
    · split <;> rfl
  have hfin : outputFin now t = t := by
    unfold outputFin
    rw [if_neg]
    rintro ⟨hd, -⟩
    rw [hf.1] at hd
    cases hd
  have hloop : ∀ w, outputLoop now w txqMax t = t := by
    intro w
    unfold txqMax outputLoop
    rw [hnone]
  unfold tcpOutput
  split
  · rw [hloop]
    exact hfin
  · rfl

theorem keeps_tcpOutput (h : PastInv A B t) : Keeps t (tcpOutput now t) := by
  have hc := (same_tcpOutput now t).2
  exact ⟨fun hf => by rwa [tcpOutput_finished now h hf], fun hl => .inl (hl.ctl hc)⟩

/-- `snd_una >= snd_nxt` says that nothing is in flight. -/
theorem Past.una_eq_nxt (h : Past A B t) (hge : Serial.ge t.sndUna t.sndNxt) : t.sndUna = t.sndNxt := by
  obtain ⟨-, -, a, k, f, hse, -⟩ := h
  have h1 := hse.acked_le
  have h2 := hse.spread
  rw [hse.una.ge_iff hse.nxt (by unfold half; omega) (by unfold half; omega)] at hge
  exact (hse.una.eq_iff hse.nxt (by unfold half; omega) (by unfold half; omega)).2 (by omega)

theorem keeps_segClose (h : PastInv A B t)
    (hc : t.state = .closing ∨ t.state = .lastAck → t.finSent = .sent ∨ t.sndUna ≠ t.sndNxt) :
    Keeps t (segClose now t) := by
  have hfin : Serial.ge t.sndUna t.sndNxt → t.state = .closing ∨ t.state = .lastAck → Finished t := by
    intro hge hst
    have he := h.past.una_eq_nxt hge
    exact ⟨(hc hst).resolve_right fun hne => hne he, he⟩
  -- a step to a state without output, once everything is acknowledged
  have hend : ∀ v : Tcb, v.tx = t.tx → v.state.outputs = false → Finished t → Keeps t (tcpOutput now v) := by
    intro v htx hout hf
    have he : tcpOutput now v = v := by
      unfold tcpOutput
      rw [hout]
      rfl
    rw [he]
    exact ⟨fun _ => hf.congr htx, fun _ => .inr (hf.congr htx)⟩
  unfold segClose
  split
  · rename_i hw
    have hf : Finished t := ⟨hw.2.1, h.past.una_eq_nxt hw.2.2⟩
    split <;> exact hend _ rfl rfl hf
  split
  · rename_i hw
    exact hend _ rfl rfl (hfin hw.2 (.inl hw.1))
  split
  · rename_i hw
    have hf := hfin hw.2 (.inr hw.1)
    exact ⟨fun _ => hf.congr rfl, fun _ => .inr (hf.congr rfl)⟩
  · exact keeps_tcpOutput now h

/-- How far the segment acknowledges what was sent. -/
def ackedTo (s : Seg) (t : Tcb) : ℕ :=
  if Serial.gt s.ack t.sndUna && Serial.le s.ack t.sndNxt then s.ack else t.sndUna

/-- No segment that would end the connection acknowledges all that was sent while the FIN still
waits behind unsent data. -/
def FinOut (s : Seg) (t : Tcb) : Prop :=
  acceptable s t = true → s.flags.ack → t.state = .closing ∨ t.state = .lastAck ∨ t.state = .finWait1 ∧ s.flags.fin →
    t.finSent = .sent ∨ ackedTo s t ≠ t.sndNxt

theorem numbers_segAck (s : Seg) (t : Tcb) : (segAck now s t).finSent = t.finSent ∧ (segAck now s t).sndUna = ackedTo s t ∧
      (segAck now s t).sndNxt = t.sndNxt := by
  unfold segAck ackedTo
  split
  · obtain ⟨c, r, d, e⟩ := segAcked_shape now s t
    rw [e]
    exact ⟨rfl, rfl, rfl⟩
  split
  · simp only
    split
    · have htx := tx_retransmit { t with cc := (ccOnDupack t.mss (sub t.sndNxt t.sndUna) t.sndNxt t.cc).1 }
      exact ⟨congrArg Tx.finSent htx, congrArg Tx.sndUna htx, congrArg Tx.sndNxt htx⟩
    · exact ⟨rfl, rfl, rfl⟩
  · exact ⟨rfl, rfl, rfl⟩

theorem keeps_segRest (h : PastInv A B t) (hwf : s.WF) (hg : Grants B s t)
    (hout : t.state = .closing ∨ t.state = .lastAck ∨ t.state = .finWait1 ∧ s.flags.fin →
      t.finSent = .sent ∨ ackedTo s t ≠ t.sndNxt) : Keeps t (segRest now s t) := by
  have h1 := h.segAck now hwf hg
  have hw := quiet_segWindow now s (segAck now s t)
  have h2 := h1.quiet hw (moves_of_same (same_segWindow now s _))
  have hd := quiet_segData now s (segWindow now s (segAck now s t))
  have h3 := h2.quiet hd (by rw [state_segData])
  have hf := quiet_segFin now s (segData now s (segWindow now s (segAck now s t)))
  have h4 := h3.quiet hf (moves_segFin now s _)
  have k2 := Keeps.of_ctl hw.tx (same_segWindow now s _).2
  have k3 := Keeps.of_ctl hd.tx (ctl_segData now s _)
  refine (keeps_segAck now s t).trans (k2.trans (k3.trans ((keeps_segFin now s _).trans (keeps_segClose now h4 ?_))))
  intro hst
  have hst' := segFin_closing hst
  rw [state_segData, (same_segWindow now s _).state, (same_segAck now s t).state] at hst'
  have htx := hf.tx.trans (hd.tx.trans hw.tx)
  obtain ⟨n1, n2, n3⟩ := numbers_segAck now s t
  have e1 := (congrArg Tx.finSent htx).trans n1
  have e2 := (congrArg Tx.sndUna htx).trans n2
  have e3 := (congrArg Tx.sndNxt htx).trans n3
  exact (hout hst').imp e1.trans fun hne he => hne (e2.symm.trans (he.trans e3))

/-- **A segment ends a connection only if everything is acknowledged.** -/
theorem keeps_tcpSegment (h : TxInv A B t) (hd : Late t → Finished t) (hrst : s.flags.rst = false)
    (hwf : s.WF) (hsyn : SynAcked s t) (hB : B 0) (hg : s.flags.ack → Grants B s t) (hout : FinOut s t) :
    Keeps t (tcpSegment now s t).1 := by
  -- in a handshake the FIN is not out
  have hno : Handshake A t → ¬ Finished t := fun hh hf => hh.fin hf.1
  have hm := tcpSegment_move now s t
  generalize tcpSegment now s t = r at hm ⊢
  cases hm with
  | reset hr => rw [hrst] at hr; cases hr
  | ignored | answered => exact .of_eq rfl rfl rfl
  | connected hst | simultaneous hst =>
    exact .of_not_ended (hno (h.phase.resolve_right fun hp => hp.1 hst)) rfl rfl
  | established hst _ hack hrange =>
    have hh : Handshake A t := h.phase.resolve_right fun hp => hp.2.1 hst
    have hu := h.established hst hwf hsyn hB hack hrange
    have h1 : Keeps t (segEstablished s t) := .of_not_ended (hno hh) rfl rfl
    refine h1.trans (keeps_segRest now hu hwf (grants_of_eq rfl) ?_)
    rintro (hs | hs | ⟨hs, -⟩) <;> cases hs
  | rest hns hnr hacc hack =>
    obtain hh | hp := h.phase
    · -- CLOSED with the SYN unacknowledged is not a way to end
      exfalso
      obtain hst | hst | ⟨hst, -⟩ := hh.state
      · exact hns hst
      · exact hnr hst
      · exact hno hh (hd (.inl (by rw [hst]; rfl)))
    · refine keeps_segRest now ⟨hp, h.marks, h.pieces⟩ hwf (hg hack) fun hst => hout (hacc ?_) hack hst
      intro hl
      rw [hl] at hst
      obtain hst | hst | ⟨hst, -⟩ := hst <;> cases hst

/-! ## The timer and the calls -/

theorem tx_rtoResend (t : Tcb) : (rtoResend t).tx = t.tx := by
  unfold rtoResend
  split
  · exact (quiet_sendFlags _ _ _).tx
  split
  · exact (quiet_sendFlags _ _ _).tx
  · exact tx_retransmit t

theorem tx_persistFired (t : Tcb) : (persistFired now t).tx = t.tx := by
  unfold persistFired
  split
  swap
  · rfl
  unfold persistProbe
  simp only
  split
  · exact tx_txQueue _ _
  · exact (quiet_sendFlags _ _ _).tx

theorem keeps_rtoCheck (t : Tcb) (h : (rtoCheck now t).2 = false) : Keeps t (rtoCheck now t).1 := by
  obtain e | e | e := rtoCheck_cases now t <;> rw [e] at h ⊢
  · exact .of_eq rfl rfl rfl
  · cases h
  · have hs := (same_rtoBackoff now { t with retries := (t.retries + 1) % 256 }).trans (same_rtoResend _)
    exact .of_ctl (tx_rtoResend _) hs.2

/-- A timer that does not give up ends only a connection that is late. -/
theorem keeps_tcpTimer (hg : givesUp now t = false) : Keeps t (tcpTimer now t) := by
  have hm := tcpTimer_move now t
  generalize tcpTimer now t = r at hm ⊢
  cases hm with
  | idle => exact .of_eq rfl rfl rfl
  | ended d r err h =>
    have htw := h.resolve_right fun h => Bool.false_ne_true (hg.symm.trans h)
    exact ⟨fun h => h.congr rfl, fun _ => .inl (.inr htw)⟩
  | released _ hst => exact ⟨fun h => h.congr rfl, fun _ => .inl (.inl (by rw [hst]; rfl))⟩
  | fired _ _ hr =>
    refine (keeps_rtoCheck now t hr).trans ((Keeps.of_ctl (quiet_delackFired now _).tx (same_delackFired now _).2).trans ?_)
    exact Keeps.of_ctl (tx_persistFired now _) (same_persistFired now _).2

theorem keeps_tcpSend (data : List UInt8) (hm : Marks t) : Keeps t (tcpSend now data t).1 := by
  refine ⟨fun h => ?_, fun h => .inl (h.ctl (same_tcpSend now data t).2)⟩
  -- the write side is shut
  have hshut : t.shutWr := hm.shut (by rw [h.1]; decide)
  unfold tcpSend
  rw [if_pos hshut]
  split <;> exact h

theorem ended_shutdownState (h : (shutdownState a).ended) : a.ended := by
  cases a <;> first | rfl | cases h

theorem keeps_tcpShutdownWrite (t : Tcb) : Keeps t (tcpShutdownWrite now t) := by
  refine ⟨fun h => ?_, fun h => .inl ?_⟩
  · unfold tcpShutdownWrite
    rw [if_pos (.inr (by rw [h.1]; decide))]
    exact h
  · unfold tcpShutdownWrite at h
    split at h
    · exact h
    have h1 : Late (shuttingDown t) := h.ctl (same_tcpOutput now (shuttingDown t)).2
    exact h1.imp ended_shutdownState id

theorem keeps_tcpClose (h1 : t.state ≠ .synSent) (h2 : t.state ≠ .listen) : Keeps t (tcpClose now t).1 := by
  have hgone : Keeps t { t with sockGone := true } := .of_eq rfl rfl rfl
  unfold tcpClose
  simp only
  split
  · exact hgone.trans (keeps_tcpShutdownWrite now _)
  · exact hgone.trans (keeps_tcpShutdownWrite now _)
  · rename_i h
    exact absurd h h2
  · exact hgone
  · rename_i h
    exact absurd h h1
  · exact hgone

/-! ## Runs -/

/-- The sequence number `n` was in a transmitted segment. -/
def Transmitted (log : List Seg) (n : ℕ) : Prop := ∃ g ∈ log, sub n g.seq < g.extent

/-- The first `m` numbers after our SYN were transmitted. -/
def SentTo (log : List Seg) (iss m : ℕ) : Prop := ∀ p < m, Transmitted log ((iss + 1 + p) % size)

/-- The segment makes `tcp_segment` answer with a RST. -/
def Refused (s : Seg) (t : Tcb) : Prop :=
  t.state = .synReceived ∧ acceptable s t ∧ s.flags.ack ∧ (Serial.ge s.ack t.sndUna && Serial.le s.ack t.sndNxt) = false

/-- Runs of one connection in which no reset is received or sent and no timer gives up. -/
def CloseRun (c : Conn) (e : ℕ × Event) : Prop :=
  match e.2 with
  | .segment s => s.WF ∧ s.flags.rst = false ∧ ¬ Refused s c.t
  | .timer => givesUp e.1 c.t = false
  | .close => c.t.state ≠ .synSent
  | e => e.opens = false

/-- The peer acknowledges nothing that was not transmitted. -/
def Honest (s : Seg) (c : Conn) : Prop :=
  s.flags.ack = true → Serial.gt s.ack c.t.sndUna → Serial.le s.ack c.t.sndNxt →
    ∀ j < sub s.ack c.t.sndUna, Transmitted c.log (add c.t.sndUna j)

instance (log : List Seg) (n : ℕ) : Decidable (Transmitted log n) :=
  inferInstanceAs (Decidable (∃ g ∈ log, sub n g.seq < g.extent))

/-- Each segment acknowledges our SYN first, nothing that was not sent, and not everything that was
sent while the FIN still waits. -/
def CloseOK (c : Conn) (e : ℕ × Event) : Prop :=
  match e.2 with
  | .segment s => SynAcked s c.t ∧ Honest s c ∧ FinOut s c.t
  | _ => True

/-- Our SYN has just been sent, from a block that was not used before. -/
structure SynFresh (c : Conn) : Prop extends SynOut c where
  quiet : c.t.timewaitDeadline = 0
  held : c.releasing = false

/-- Everything accepted and the FIN have been transmitted and are acknowledged. -/
structure Delivered (c : Conn) : Prop where
  fin : c.t.finSent = .sent
  empty : c.t.snd.len = 0
  acked : c.t.sndUna = c.t.sndNxt
  num : Stands c.t.sndUna (c.t.iss + 1 + (c.accepted.length + 1))
  sent : SentTo c.log c.t.iss (c.accepted.length + 1)

/-- The invariant of a run. -/
structure CloseInv (c : Conn) : Prop where
  tx : TxInv c.accepted (SentTo c.log c.t.iss) c.t
  late : Late c.t → Finished c.t
  released : c.releasing → c.t.state = .closed
  state : c.t.state ≠ .listen

theorem SentTo.mono {log log' : List Seg} {iss m : ℕ} (h : SentTo log iss m)
    (hl : ∀ g ∈ log, g ∈ log') : SentTo log' iss m := by
  intro p hp
  obtain ⟨g, hg, hlt⟩ := h p hp
  exact ⟨g, hl g hg, hlt⟩

theorem Honest.grants (h : Honest s c) (hack : s.flags.ack) : Grants (SentTo c.log c.t.iss) s c.t := by
  intro hgt hle m hm hB p hp
  by_cases hpm : p < m
  · exact hB p hpm
  · have ht := h hack hgt hle (p - m) (by omega)
    have he : add c.t.sndUna (p - m) = (c.t.iss + 1 + p) % size := by
      rw [show c.t.iss + 1 + p = c.t.iss + 1 + m + (p - m) by omega]
      exact hm.add (p - m)
    rwa [he] at ht

theorem SynFresh.closeInv (h : SynFresh c) : CloseInv c := by
  have htx : TxInv c.accepted (SentTo c.log c.t.iss) c.t := by
    refine ⟨.inl ?_, h.toSynOut.sendInv.tx.marks, h.toSynOut.sendInv.tx.pieces⟩
    refine h.toSynOut.sendInv.tx.phase.resolve_right fun hp => ?_
    obtain hs | hs := h.state
    · exact hp.1 hs
    · exact hp.2.1 hs
  refine ⟨htx, ?_, ?_, ?_⟩
  · rintro (hl | hl)
    · obtain hs | hs := h.state <;> rw [hs] at hl <;> cases hl
    · exact absurd h.quiet hl
  · intro hr
    exact absurd (h.held.symm.trans hr) Bool.false_ne_true
  · obtain hs | hs := h.state <;> rw [hs] <;> decide

theorem CloseRun.sendRun (h : CloseRun c e) : SendRun c e := by
  obtain ⟨now, e⟩ := e
  cases e with
  | segment s => exact h.1
  | timer | close => rfl
  | _ => exact h

theorem CloseOK.synAcked (h : CloseOK c e) : SynAckedEvent c e := by
  obtain ⟨now, e⟩ := e
  cases e with
  | segment s => exact h.1
  | _ => trivial

theorem CloseInv.keeps (h : CloseInv c) (e : ℕ × Event) (hr : CloseRun c e) (hok : CloseOK c e) : Keeps c.t (step c e).t := by
  have hopens := hr.sendRun.not_opens
  obtain ⟨now, e⟩ := e
  cases e with
  | segment s =>
    exact keeps_tcpSegment now h.tx h.late hr.2.1 hr.1 hok.1 (fun p hp => absurd hp (Nat.not_lt_zero p))
      (fun hack => hok.2.1.grants hack) hok.2.2
  | timer => exact keeps_tcpTimer now hr
  | flush =>
    show Keeps c.t (txFlush c.t).1
    unfold txFlush
    split <;> exact .of_eq rfl rfl rfl
  | connect | listen => cases hopens
  | send data => exact keeps_tcpSend now data h.tx.marks
  | recv len => exact .of_ctl (quiet_tcpRecv len c.t).tx (ctl_tcpRecv len c.t)
  | shutdownWrite => exact keeps_tcpShutdownWrite now c.t
  | shutdownRead | nodelay => exact .of_eq rfl rfl rfl
  | close => exact keeps_tcpClose now hr h.state
  | release =>
    simp only [step]
    split
    · rename_i hrel
      have hst := h.released hrel
      refine .of_eq ?_ ?_ ?_ <;> unfold tcpRelease <;> split <;> first | rfl | exact hst.symm
    · exact .of_eq rfl rfl rfl

/-- CLOSED is left by `connect` and `listen` only. -/
theorem Moves.closed (h : Moves a b) (ha : a = .closed) : b = .closed := by
  induction h with
  | refl => exact ha
  | tail _ hm ih =>
    subst ih
    cases hm with
    | call hm => cases hm; rfl

/-- LISTEN is entered by `listen` only. -/
theorem Moves.ne_listen (h : Moves a b) (ha : a ≠ .listen) : b ≠ .listen := by
  induction h with
  | refl => exact ha
  | tail _ hm _ =>
    cases hm with
    | call hm => cases hm <;> decide
    | _ => decide

/-- A release is due for a CLOSED block only. -/
theorem CloseInv.released_step (h : CloseInv c) (e : ℕ × Event) (hr : CloseRun c e)
    (hrel : (step c e).releasing) : (step c e).t.state = .closed := by
  have hm := moves_step c e hr.sendRun.not_opens
  have hkeep : c.releasing → (step c e).t.state = .closed := fun hc => hm.closed (h.released hc)
  obtain ⟨now, e⟩ := e
  cases e with
  | close =>
    obtain hc | hc := Bool.or_eq_true_iff.1 (hrel : (c.releasing || (tcpClose now c.t).2) = true)
    · exact hkeep hc
    · -- `tcp_close` of a CLOSED block
      refine hm.closed ?_
      unfold tcpClose at hc
      simp only at hc
      split at hc
      · cases hc
      · cases hc
      · rename_i hst
        exact absurd hst h.state
      · rename_i hst
        exact hst
      · rename_i hst
        exact absurd hst hr
      · cases hc
  | release =>
    simp only [step] at hrel
    split at hrel
    · cases hrel
    · rename_i hno
      exact absurd hrel hno
  | _ => exact hkeep hrel

theorem CloseInv.step (h : CloseInv c) (e : ℕ × Event) (hr : CloseRun c e) (hok : CloseOK c e) : CloseInv (Tcp.step c e) := by
  have hk := h.keeps e hr hok
  have hlog : ∀ g ∈ c.log, g ∈ (Tcp.step c e).log := by
    intro g hg
    obtain ⟨now, e⟩ := e
    cases e with
    | flush => exact List.mem_append_left _ hg
    | release =>
      simp only [Tcp.step]
      split <;> exact hg
    | _ => exact hg
  have htx := h.tx.step e hr.sendRun hok.synAcked (fun p hp => absurd hp (Nat.not_lt_zero p)) (by
    rintro s rfl' hack
    obtain ⟨now, e⟩ := e
    subst rfl'
    exact hok.2.1.grants hack)
  refine ⟨?_, ?_, h.released_step e hr, (moves_step c e hr.sendRun.not_opens).ne_listen h.state⟩
  · rw [iss_step c e hr.sendRun.not_opens]
    exact htx.mono fun m hm => hm.mono hlog
  · intro hl
    exact (hk.late hl).elim (fun hl => hk.fin (h.late hl)) id

theorem CloseInv.delivered (h : CloseInv c) (hend : c.t.state.ended) : Delivered c := by
  have hf := h.late (.inl hend)
  obtain hh | ⟨-, -, a, k, f, hs, hB⟩ := h.tx.phase
  · exact absurd hf.1 hh.fin
  have hin := hs.inFlight
  rw [hf.2, show sub c.t.sndNxt c.t.sndNxt = 0 by unfold Serial.sub size; omega] at hin
  have hb : finBit c.t = 1 := by simp [finBit, hf.1]
  have hlen := hs.len
  have hall := hs.fin hf.1
  have hmax : f ≤ 1 ∧ (f = 1 → a = c.accepted.length) := by
    obtain h5 | ⟨h5, h6, h7⟩ := hs.finAcked
    · exact ⟨by omega, by omega⟩
    · exact ⟨by omega, by omega⟩
  have hsum : a + f = c.accepted.length + 1 := by omega
  refine ⟨hf.1, by omega, hf.2, ?_, hsum ▸ hB⟩
  have hu := hs.una
  rwa [add_assoc, hsum] at hu

/-- **A graceful close delivers everything**, in every run whose segments acknowledge our SYN first,
only what was transmitted, and not all that was sent while the FIN waits. -/
theorem graceful_close_run (c : Conn) (es : List (ℕ × Event)) (h0 : SynFresh c)
    (hrun : Run.Valid step (fun c e => CloseRun c e ∧ CloseOK c e) c es)
    (hend : (Run.final step c es).t.state.ended = true) : Delivered (Run.final step c es) := by
  have h : CloseInv (Run.final step c es) := hrun.invariant (fun _ e h hok => h.step e hok.1 hok.2) h0.closeInv
  exact h.delivered hend

/-- Two bytes are sent and acknowledged with the FIN. -/
def closeRun : List (ℕ × Event) :=
  [(0, .flush), (0, .segment ⟨2001, 1001, { ack := true }, 8192, 0, []⟩), (0, .nodelay true), (0, .send [1, 2]), (0, .flush),
    (0, .shutdownWrite), (0, .flush), (0, .segment ⟨2001, 1004, { ack := true }, 8192, 0, []⟩)]

/-- The connection of `closeRun` ends in FIN_WAIT_2, with everything delivered. -/
theorem graceful_close_run_acked : Delivered (Run.final step childConn closeRun) := by
  refine graceful_close_run childConn closeRun ⟨synOut_passiveOpen .., rfl, rfl⟩ ?_ (by decide)
  refine ⟨⟨rfl, trivial⟩, ⟨⟨⟨by decide, by decide⟩, rfl, ?_⟩, ?_, ?_, ?_⟩, ⟨rfl, trivial⟩, ⟨rfl, trivial⟩, ⟨rfl, trivial⟩,
    ⟨rfl, trivial⟩, ⟨rfl, trivial⟩, ⟨⟨⟨by decide, by decide⟩, rfl, ?_⟩, ?_, ?_, ?_⟩, trivial⟩
  · unfold Refused; decide
  · unfold SynAcked; decide
  · unfold Honest; decide
  · unfold FinOut; decide
  · unfold Refused; decide
  · unfold SynAcked; decide
  · unfold Honest; decide
  · unfold FinOut; decide

/-- The peer's window is closed when two bytes are sent; the peer closes, and we do. -/
def zeroWindowRun : List (ℕ × Event) :=
  [(0, .flush), (0, .segment ⟨2001, 1001, { ack := true }, 0, 0, []⟩), (0, .send [1, 2]),
    (0, .segment ⟨2001, 1001, { ack := true, fin := true }, 0, 0, []⟩), (0, .shutdownWrite),
    (0, .segment ⟨2002, 1001, { ack := true }, 8192, 0, []⟩)]

/-- The segment that opens the window again puts the block into CLOSED: the bytes and the FIN are
never sent. -/
theorem window_update_drops_data : ¬ ∀ (c : Conn) (es : List (ℕ × Event)), SynFresh c → Run.Valid step CloseRun c es →
      (Run.final step c es).t.state.ended = true → Delivered (Run.final step c es) := by
  intro h
  have hd := h childConn zeroWindowRun ⟨synOut_passiveOpen .., rfl, rfl⟩
    ⟨rfl, ⟨⟨by decide, by decide⟩, rfl, by unfold Refused; decide⟩, rfl,
      ⟨⟨by decide, by decide⟩, rfl, by unfold Refused; decide⟩, rfl,
      ⟨⟨by decide, by decide⟩, rfl, by unfold Refused; decide⟩, trivial⟩ (by decide)
  have hlen : (Run.final step childConn zeroWindowRun).t.snd.len = 2 := by decide
  rw [hd.empty] at hlen
  cases hlen

end NeoOS.Tcp
