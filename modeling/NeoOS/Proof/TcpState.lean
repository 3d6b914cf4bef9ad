import NeoOS.Proof.TcpFrame

/-!
# State changes

Every operation on a block moves its state along the arrows of the diagram of RFC 793, and
one segment may take several of them: a SYN_RECEIVED block that gets data, an
acknowledgement and a FIN at once ends in CLOSE_WAIT. `Move` has the arrows; a RST, a
timeout or an abort leads to CLOSED from everywhere.
-/

namespace NeoOS.Tcp

open Relation (ReflTransGen)

variable {a b : State}

/-- The calls that open a connection. -/
inductive Opens : State → State → Prop
  | active : Opens .closed .synSent
  | passive : Opens .closed .listen

/-- What a call or the timer does to the state of a connection. -/
inductive CallMove : State → State → Prop
  | shutdown : CallMove .established .finWait1
  | shutdownPassive : CallMove .closeWait .lastAck
  | abort (a : State) : CallMove a .closed

/-- One change of state of a connection. -/
inductive Move : State → State → Prop
  | call {x y : State} (h : CallMove x y) : Move x y
  | simultaneousOpen : Move .synSent .synReceived
  | connected : Move .synSent .established
  | accepted : Move .synReceived .established
  | finRcvd : Move .established .closeWait
  | finAcked : Move .finWait1 .finWait2
  | simultaneousClose : Move .finWait1 .closing
  | finAckedFinRcvd : Move .finWait1 .timeWait
  | closedSecond : Move .finWait2 .timeWait
  | closedBoth : Move .closing .timeWait

/-- Changes of state, one after the other. -/
abbrev Moves : State → State → Prop := ReflTransGen Move

abbrev CallMoves : State → State → Prop := ReflTransGen CallMove

variable (now : ℕ) (s : Seg) (t : Tcb)

theorem CallMoves.moves (h : CallMoves a b) : Moves a b := .mono (fun _ _ => .call) _ _ h

theorem Moves.one (h : Move a b) : Moves a b := .single h

theorem CallMoves.one (h : CallMove a b) : CallMoves a b := .single h

theorem moves_of_same {t t' : Tcb} (h : Same t t') : Moves t.state t'.state := by
  rw [h.state]

/-- What a call or the timer does: the receive side and the initial number stay, and the state moves. -/
structure Called (t u : Tcb) : Prop where
  rx : u.rx = t.rx
  iss : u.iss = t.iss
  moves : CallMoves t.state u.state

section Called

variable {t u v : Tcb}

theorem Called.of_same (h : Same t u) : Called t u := ⟨h.1, congrArg Ctl.iss h.2, by rw [h.state]⟩

theorem Called.trans (h1 : Called t u) (h2 : Called u v) : Called t v :=
  ⟨h2.rx.trans h1.rx, h2.iss.trans h1.iss, h1.moves.trans h2.moves⟩

theorem Called.abort (hrx : u.rx = t.rx) (hiss : u.iss = t.iss) (hs : u.state = .closed) : Called t u :=
  ⟨hrx, hiss, by rw [hs]; exact .one (.abort _)⟩

end Called

theorem state_segData : (segData now s t).state = t.state := congrArg Ctl.state (ctl_segData now s t)

/-- What the FIN of a segment does to the state and to the timer of TIME_WAIT. -/
inductive FinMove (fin : Bool) (t u : Tcb) : Prop
  | stay (hs : u.state = t.state) (htw : u.timewaitDeadline = t.timewaitDeadline)
  | closeWait (h : t.state = .established) (hs : u.state = .closeWait) (htw : u.timewaitDeadline = t.timewaitDeadline)
  | closing (hfin : fin) (h : t.state = .finWait1) (hs : u.state = .closing)
      (htw : u.timewaitDeadline = t.timewaitDeadline)
  | timeWait (h : t.state = .finWait2) (hs : u.state = .timeWait)

theorem segFin_cases : FinMove s.flags.fin t (segFin now s t) := by
  unfold segFin
  split
  swap
  · exact .stay rfl rfl
  rename_i hf
  rw [Bool.and_eq_true, Bool.and_eq_true] at hf
  have hs := same_sendAck { t with finRcvd := true, rcvNxt := Serial.add t.rcvNxt 1 }
  generalize sendAck { t with finRcvd := true, rcvNxt := Serial.add t.rcvNxt 1 } = v at hs
  have hst : v.state = t.state := hs.state
  have htw : v.timewaitDeadline = t.timewaitDeadline := congrArg Ctl.timewaitDeadline hs.2
  unfold finState
  split
  · exact .closeWait (hst ▸ ‹_›) rfl htw
  · exact .closing hf.1.1 (hst ▸ ‹_›) rfl htw
  · exact .timeWait (hst ▸ ‹_›) rfl
  · exact .stay hst htw

theorem moves_segFin : Moves t.state (segFin now s t).state := by
  cases segFin_cases now s t with
  | stay hs => rw [hs]
  | closeWait h hs => rw [h, hs]; exact .one .finRcvd
  | closing _ h hs => rw [h, hs]; exact .one .simultaneousClose
  | timeWait h hs => rw [h, hs]; exact .one .closedSecond

theorem moves_segClose : Moves t.state (segClose now t).state := by
  unfold segClose
  split
  · rename_i h
    rw [(same_tcpOutput _ _).state, h.1]
    split
    · exact .one .finAckedFinRcvd
    · exact .one .finAcked
  split
  · rename_i h
    rw [(same_tcpOutput _ _).state, h.1]
    exact .one .closedBoth
  split
  · exact .one (.call (.abort _))
  · exact moves_of_same (same_tcpOutput _ _)

theorem moves_segRest : Moves t.state (segRest now s t).state := by
  have hu : Same t (segWindow now s (segAck now s t)) := (same_segAck now s t).trans (same_segWindow now s _)
  have hd := moves_segFin now s (segData now s (segWindow now s (segAck now s t)))
  rw [state_segData, hu.state] at hd
  exact hd.trans (moves_segClose now _)

theorem moves_tcpSegment : Moves t.state (tcpSegment now s t).1.state := by
  have hm := tcpSegment_move now s t
  generalize tcpSegment now s t = r at hm ⊢
  cases hm with
  | reset => exact .one (.call (.abort _))
  | ignored | answered => exact .refl
  | connected h => rw [h]; exact .one .connected
  | simultaneous h => rw [h]; exact .one .simultaneousOpen
  | established h =>
    -- the handshake is complete, and the rest of the segment is read as in ESTABLISHED
    rw [h]
    exact (Moves.one .accepted).trans (moves_segRest now s (segEstablished s t))
  | rest => exact moves_segRest now s t

theorem called_tcpRelease : Called t (tcpRelease t) := by
  unfold tcpRelease
  split
  · exact .of_same (.refl t)
  · exact .abort rfl rfl rfl

theorem called_rtoCheck : Called t (rtoCheck now t).1 := by
  obtain e | e | e := rtoCheck_cases now t <;> rw [e]
  · exact .of_same (.refl t)
  · exact .abort rfl rfl rfl
  · exact .of_same ((same_rtoBackoff now { t with retries := (t.retries + 1) % 256 }).trans (same_rtoResend _))

theorem called_tcpTimer : Called t (tcpTimer now t) := by
  have hm := tcpTimer_move now t
  generalize tcpTimer now t = r at hm ⊢
  cases hm with
  | idle => exact .of_same (.refl t)
  | ended | released => exact .abort rfl rfl rfl
  | fired => exact (called_rtoCheck now t).trans (.of_same ((same_delackFired _ _).trans (same_persistFired _ _)))

theorem state_tcpRecv (len : ℕ) (t : Tcb) : (tcpRecv len t).1.state = t.state := congrArg Ctl.state (ctl_tcpRecv len t)

theorem moves_shutdownState (a : State) : CallMoves a (shutdownState a) := by
  cases a with
  | established => exact .one .shutdown
  | closeWait => exact .one .shutdownPassive
  | _ => exact .refl

theorem called_tcpShutdownWrite : Called t (tcpShutdownWrite now t) := by
  unfold tcpShutdownWrite
  split
  · exact .of_same (.refl t)
  · have h : Called t (shuttingDown t) := ⟨rfl, rfl, moves_shutdownState t.state⟩
    exact h.trans (.of_same (same_tcpOutput now _))

theorem called_tcpClose : Called t (tcpClose now t).1 := by
  have hgone : Called t { t with sockGone := true } := ⟨rfl, rfl, .refl⟩
  unfold tcpClose
  simp only
  split
  · exact hgone.trans (called_tcpShutdownWrite now _)
  · exact hgone.trans (called_tcpShutdownWrite now _)
  · exact .abort rfl rfl rfl
  · exact hgone
  · have hs := same_sendFlags { t with sockGone := true } { rst := true } t.sndNxt
    exact .abort hs.1 (congrArg Ctl.iss hs.2) rfl
  · exact hgone

theorem moves_tcpConnect (now rand : ℕ) (route : Option ℕ) (dst dport : ℕ) (t : Tcb) :
    (tcpConnect now rand route dst dport t).1 = t ∨ Opens t.state (tcpConnect now rand route dst dport t).1.state := by
  unfold tcpConnect
  split
  · exact .inl rfl
  split
  · exact .inl rfl
  · rename_i h
    rw [Classical.not_not.1 h, (same_sendSyn now _ _).state]
    exact .inr .active

theorem moves_tcpListen (backlog : ℤ) (t : Tcb) :
    (tcpListen backlog t).1.state = t.state ∨ Opens t.state (tcpListen backlog t).1.state := by
  unfold tcpListen
  split
  · exact .inl rfl
  · rename_i h
    rw [Classical.not_and_iff_not_or_not, Classical.not_not, Classical.not_not] at h
    obtain h | h := h
    · rw [h]; exact .inr .passive
    · rw [h]; exact .inl rfl

theorem called_txFlush : Called t (txFlush t).1 := by
  unfold txFlush
  split <;> exact .of_same ⟨rfl, rfl⟩

/-- The events that open a connection on a block. -/
def Event.opens : Event → Bool
  | .connect .. | .listen _ => true
  | _ => false

/-- The calls and the timer, but for `tcp_recv`. -/
theorem called_step (c : Conn) (e : ℕ × Event) (he : e.2.opens = false) (hs : ∀ s, e.2 ≠ .segment s)
    (hr : ∀ len, e.2 ≠ .recv len) : Called c.t (step c e).t := by
  obtain ⟨now, e⟩ := e
  cases e with
  | segment s => exact absurd rfl (hs s)
  | timer => exact called_tcpTimer now c.t
  | flush => exact called_txFlush c.t
  | connect | listen => cases he
  | send data => exact .of_same (same_tcpSend now data c.t)
  | recv len => exact absurd rfl (hr len)
  | shutdownWrite => exact called_tcpShutdownWrite now c.t
  | shutdownRead | nodelay => exact ⟨rfl, rfl, .refl⟩
  | close => exact called_tcpClose now c.t
  | release =>
    simp only [step]
    split
    · exact called_tcpRelease c.t
    · exact .of_same (.refl _)

theorem callMoves_step (c : Conn) (e : ℕ × Event) (he : e.2.opens = false) (hs : ∀ s, e.2 ≠ .segment s) :
    CallMoves c.t.state (step c e).t.state := by
  by_cases hr : ∃ len, e.2 = .recv len
  · obtain ⟨now, e⟩ := e
    obtain ⟨len, rfl⟩ := hr
    show CallMoves c.t.state (tcpRecv len c.t).1.state
    rw [state_tcpRecv]
  · exact (called_step c e he hs (not_exists.1 hr)).moves

/-- **Every event but `connect` and `listen` moves the state along the diagram.** -/
theorem moves_step (c : Conn) (e : ℕ × Event) (he : e.2.opens = false) : Moves c.t.state (step c e).t.state := by
  by_cases hs : ∃ s, e.2 = .segment s
  · obtain ⟨now, e⟩ := e
    obtain ⟨s, rfl⟩ := hs
    exact moves_tcpSegment now s c.t
  · exact (callMoves_step c e he (not_exists.1 hs)).moves

/-- Only `connect` leads to SYN_SENT. -/
theorem Moves.ne_synSent (h : Moves a b) (ha : a ≠ .synSent) : b ≠ .synSent := by
  induction h with
  | refl => exact ha
  | tail _ hm _ =>
    cases hm with
    | call hm => cases hm <;> decide
    | _ => decide

/-- SYN_RECEIVED is entered from SYN_SENT only. -/
theorem Moves.ne_synReceived (h : Moves a b) (h1 : a ≠ .synSent) (h2 : a ≠ .synReceived) : b ≠ .synReceived := by
  induction h with
  | refl => exact h2
  | tail hab hm _ =>
    cases hm with
    | call hm => cases hm <;> decide
    | simultaneousOpen => exact absurd rfl (Moves.ne_synSent hab h1)
    | _ => decide

/-- The states before the peer's SYN has arrived. -/
def State.unopened : State → Bool
  | .closed | .listen | .synSent => true
  | _ => false

/-- A call does not complete a handshake. -/
theorem CallMoves.unopened (h : CallMoves a b) (ha : a.unopened) : b.unopened := by
  induction h with
  | refl => exact ha
  | tail _ hm ih => cases hm <;> first | rfl | cases ih

end NeoOS.Tcp
