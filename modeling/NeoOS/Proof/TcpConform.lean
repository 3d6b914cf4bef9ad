import NeoOS.Proof.TcpGraceful

/-!
# The state machine of RFC 793

The state of a block and the flags beside it over its whole life, from `tcp_alloc` or a
passive open to its release: each change of state follows the diagram, a FIN is out in the
closing states only, ESTABLISHED means that our SYN is acknowledged and no reset has come,
and CLOSED means silence.

The state machine does not clear a block that is connected again, sends a FIN that was
asked for during the handshake, and reads segments in CLOSED as in ESTABLISHED; the runs
below keep away from these.
-/

namespace NeoOS.Tcp

open Relation (ReflTransGen)
open Serial (add sub size half)
open Run (final)

variable {t t' : Tcb} {c : Conn} {a b : State} {w : Life}

/-! ## The state diagram -/

/-- The arrows of the diagram, and those to CLOSED for a reset or a timeout. -/
def edge : State → State → Bool
  | .closed, .listen | .closed, .synSent => true
  | .listen, .synReceived | .listen, .synSent => true
  | .synSent, .synReceived | .synSent, .established => true
  | .synReceived, .established | .synReceived, .finWait1 | .synReceived, .listen => true
  | .established, .finWait1 | .established, .closeWait => true
  | .finWait1, .finWait2 | .finWait1, .closing => true
  | .finWait2, .timeWait | .closing, .timeWait => true
  | .closeWait, .lastAck => true
  | _, .closed => true
  | _, _ => false

/-- The changes of state of one event: one arrow out of CLOSED, or arrows one after the other. -/
def Follows (a b : State) : Prop :=
  a = .closed ∧ edge a b ∨ ReflTransGen (fun x y => x ≠ .closed ∧ edge x y) a b

/-- The states after a close has begun, on our side. -/
def State.closes : State → Bool
  | .finWait1 | .finWait2 | .closing | .lastAck | .timeWait | .closed => true
  | _ => false

/-- Nothing is accepted and nothing is staged. -/
structure Silent (c c' : Conn) : Prop where
  buffered : c'.t.rcv.len ≤ c.t.rcv.len
  nxt : c'.t.rcvNxt = c.t.rcvNxt
  reasm : c'.t.reasm = c.t.reasm
  accepted : c'.accepted = c.accepted
  staged : c'.t.txq <:+ c.t.txq

/-- A block with its history and with a mark that is set once `snd_una` has left `iss`. -/
structure Life where
  c : Conn
  synAcked : Bool := false

/-- The events of a block, and the close of its listener while it waits to be accepted. -/
inductive LifeEvent
  | own (e : Event)
  | orphan

/-- One event. -/
def lifeConn (c : Conn) (e : ℕ × LifeEvent) : Conn :=
  match e.2 with
  | .own ev => step c (e.1, ev)
  | .orphan => { c with t := closeOrphan c.t, releasing := true }

def lifeStep (w : Life) (e : ℕ × LifeEvent) : Life :=
  let c := lifeConn w.c e
  ⟨c, decide (c.t.state ≠ .synSent) && (w.synAcked || decide (c.t.sndUna ≠ c.t.iss))⟩

/-- The block has just been taken from the table, by `socket` or for a SYN. -/
inductive Born : Life → Prop
  | alloc (t : Tcb) : Born ⟨⟨t.allocated, [], [], [], false⟩, false⟩
  | passive (now rand dst src dport sport listener : ℕ) (s : Seg) (t : Tcb) :
    Born ⟨⟨passiveOpen now rand dst src dport sport listener s t, [], [], [], false⟩, false⟩

/-- What can happen: `tcp_find` returns a block in use that does not listen, and calls come from a
socket that is not closed. -/
def Lives (w : Life) (e : ℕ × LifeEvent) : Prop :=
  match e.2 with
  | .own (.segment s) => s.WF ∧ w.c.t.inUse ∧ w.c.t.state ≠ .listen
  | .own .timer | .own .flush | .own .release => True
  | _ => w.c.t.sockGone = false

/-- The flags agree with the state. -/
structure FlagsAgree (w : Life) : Prop where
  fin : w.c.t.finSent = .sent → w.c.t.state.closes
  reset : w.c.t.state = .established → w.c.t.reset = false
  syn : w.c.t.state = .established → w.synAcked

/-- One event conforms. -/
structure Conforms (w w' : Life) : Prop where
  state : Follows w.c.t.state w'.c.t.state
  closed : w.c.t.state = .closed → w'.c.t.state = .closed → Silent w.c w'.c

/-- What the runs keep away from. -/
def Proper (w : Life) (e : ℕ × LifeEvent) : Prop :=
  match e.2 with
  -- the handshake acknowledges our SYN, and a CLOSED block gets only what it ignores
  | .own (.segment s) =>
    (w.c.t.state = .synReceived → s.flags.ack → s.ack ≠ w.c.t.iss) ∧
      (w.c.t.state = .closed → s.flags.rst ∨ acceptable s w.c.t ∧ s.flags.ack = false)
  -- the block that is connected or listens is not marked by an earlier connection
  | .own (.connect ..) => w.c.t.state = .closed → w.c.t.reset = false ∧ w.c.t.finSent = .no
  | .own (.listen _) => w.c.t.finSent ≠ .sent
  | .own .shutdownWrite => w.c.t.state ≠ .synSent ∧ w.c.t.state ≠ .synReceived
  | .own (.recv _) => w.c.t.state = .closed → w.c.t.rcv.len = 0
  | .orphan => w.c.t.state ≠ .closed
  | _ => True

/-! ## The changes of state -/

variable (now : ℕ) (s : Seg)

theorem Move.follows (h : Move a b) : Follows a b := by
  have one : ∀ x y : State, x ≠ .closed → edge x y → Follows x y := fun _ _ hx he => .inr (.single ⟨hx, he⟩)
  cases h with
  | call h =>
    cases h with
    | shutdown | shutdownPassive => exact one _ _ (by decide) rfl
    | abort =>
      by_cases ha : a = .closed
      · subst ha
        exact .inr ReflTransGen.refl
      · exact one _ _ ha (by cases a <;> rfl)
  | finAckedFinRcvd =>
    -- the FIN was there before: CLOSING is passed
    exact .inr ((.single ⟨by decide, rfl⟩ : ReflTransGen _ State.finWait1 State.closing).tail
      ⟨by decide, rfl⟩)
  | simultaneousOpen | connected | accepted | finRcvd | finAcked | simultaneousClose | closedSecond | closedBoth =>
    exact one _ _ (by decide) rfl

theorem Moves.follows (h : Moves a b) : Follows a b := by
  by_cases ha : a = .closed
  · rw [h.closed ha, ha]
    exact .inr ReflTransGen.refl
  · refine .inr ?_
    induction h using ReflTransGen.head_induction_on with
    | refl => exact .refl
    | head hm hrest ih =>
      have h1 := (Move.follows hm).resolve_left fun h => ha h.1
      rename_i x y
      by_cases hy : y = .closed
      · rw [Moves.closed hrest hy]
        rw [hy] at h1
        exact h1
      · exact h1.trans (ih hy)

theorem Opens.follows (h : Opens a b) : Follows a b := by
  cases h <;> exact .inl ⟨rfl, rfl⟩

/-- **Every event follows the diagram**, whatever the flags say. -/
theorem follows_lifeConn (c : Conn) (e : ℕ × LifeEvent) : Follows c.t.state (lifeConn c e).t.state := by
  obtain ⟨now, e⟩ := e
  cases e with
  | orphan => exact Move.follows (.call (.abort _))
  | own e =>
    by_cases he : e.opens
    · cases e with
      | connect rand route dst dport =>
        obtain h | h := moves_tcpConnect now rand route dst dport c.t
        · exact Moves.follows (by rw [show (lifeConn c (now, .own (.connect rand route dst dport))).t = c.t from h])
        · exact h.follows
      | listen backlog =>
        obtain h | h := moves_tcpListen backlog c.t
        · exact Moves.follows (by rw [show (lifeConn c (now, .own (.listen backlog))).t.state = c.t.state from h])
        · exact h.follows
      | _ => cases he
    · exact (moves_step c (now, e) (by simpa using he)).follows

/-! ## The invariant -/

/-- The states in which no FIN has been asked for. -/
def State.sends : State → Bool
  | .synSent | .synReceived | .established | .closeWait => true
  | _ => false

/-- The timer stages nothing for the block. -/
def Still (t : Tcb) : Prop :=
  t.rtoDeadline = 0 ∧ t.delackDeadline = 0 ∧ t.persistDeadline = 0 ∨ t.inUse = false ∨ t.sockGone ∧ t.reclaimed = false

/-- How the flags of a block agree with its state. -/
structure Agree (t : Tcb) : Prop where
  fin : t.state.sends → t.finSent = .no
  listen : t.state = .listen → t.finSent ≠ .sent
  reset : t.state ≠ .closed → t.state ≠ .listen → t.reset = false
  still : t.state = .closed → Still t
  slot : t.reclaimed → t.inUse = false

theorem Agree.congr (h : Agree t) (hctl : t'.ctl = t.ctl) (hfin : t'.finSent = t.finSent)
    (hstill : t.state = .closed → Still t') : Agree t' := by
  have hst : t'.state = t.state := congrArg Ctl.state hctl
  refine ⟨?_, ?_, ?_, ?_, ?_⟩
  · rw [hst, hfin]
    exact h.fin
  · rw [hst, hfin]
    exact h.listen
  · rw [hst, show t'.reset = t.reset from congrArg Ctl.reset hctl]
    exact h.reset
  · rw [hst]
    exact hstill
  · rw [show t'.reclaimed = t.reclaimed from congrArg Ctl.reclaimed hctl, show t'.inUse = t.inUse from congrArg Ctl.inUse hctl]
    exact h.slot

theorem Agree.closed (hstate : t.state = .closed) (hstill : Still t) (hslot : t.reclaimed → t.inUse = false) : Agree t := by
  refine ⟨?_, ?_, ?_, fun _ => hstill, hslot⟩
  · intro h
    rw [hstate] at h
    cases h
  · intro h
    rw [hstate] at h
    cases h
  · intro h
    exact absurd hstate h

theorem Agree.enterClosed (err : Option Err) (h : t.reclaimed → t.inUse = false) : Agree (enterClosed t err) :=
  Agree.closed rfl (.inl ⟨rfl, rfl, rfl⟩) h

/-- A connection that no FIN has been asked for on. -/
theorem Agree.opened (hfin : t.finSent = .no) (hreset : t.reset = false) (hslot : t.reclaimed → t.inUse = false)
    (hst : t.state ≠ .closed ∧ t.state ≠ .listen) : Agree t :=
  ⟨fun _ => hfin, fun h => absurd h hst.2, fun _ _ => hreset, fun h => absurd h hst.1, hslot⟩

theorem finSent_no_tcpOutput (h : t.finSent = .no) : (tcpOutput now t).finSent = .no := by
  by_contra hne
  exact finSent_tcpOutput now t hne h

/-! ## Segments -/

theorem finSent_no_segClose (h : t.finSent = .no) : (segClose now t).finSent = .no := by
  unfold segClose
  split
  · apply finSent_no_tcpOutput
    split <;> exact h
  split
  · exact finSent_no_tcpOutput now h
  split
  · exact h
  · exact finSent_no_tcpOutput now h

theorem tx_segFin (t : Tcb) : (segFin now s (segData now s (segWindow now s (segAck now s t)))).tx = (segAck now s t).tx :=
  (quiet_segFin now s _).tx.trans ((quiet_segData now s _).tx.trans (quiet_segWindow now s _).tx)

theorem finSent_no_segRest (h : t.finSent = .no) : (segRest now s t).finSent = .no := by
  apply finSent_no_segClose
  exact (congrArg Tx.finSent (tx_segFin now s t)).trans ((numbers_segAck now s t).1.trans h)

theorem sndUna_tcpOutput (t : Tcb) : (tcpOutput now t).sndUna = t.sndUna := by
  unfold tcpOutput
  split
  · obtain e | ⟨q, d, -, -, -, e⟩ := outputFin_shape now (outputLoop now (min t.sndWnd t.cc.cwnd) txqMax t) <;>
      rw [e] <;> exact (outputLoop_keeps _ _ _ t).2
  · rfl

theorem sndUna_segClose (t : Tcb) : (segClose now t).sndUna = t.sndUna :=
  segClose_keeps now t (sndUna_tcpOutput now) (fun _ _ _ => rfl) fun _ => rfl

theorem sndUna_segRest (t : Tcb) : (segRest now s t).sndUna = ackedTo s t :=
  (sndUna_segClose now _).trans ((congrArg Tx.sndUna (tx_segFin now s t)).trans (numbers_segAck now s t).2.1)

theorem Moves.sends (h : Moves a b) (hb : b.sends) : a.sends := by
  induction h with
  | refl => exact hb
  | tail _ hm ih =>
    cases hm with
    | call hm => cases hm <;> cases hb
    | simultaneousOpen | connected | accepted | finRcvd => exact ih rfl
    | _ => cases hb

theorem still_segRest (hne : t.state ≠ .closed) (hc : (segRest now s t).state = .closed) : Still (segRest now s t) := by
  have hfin : ∀ u : Tcb, (segFin now s u).state = .closed → u.state = .closed := by
    intro u hu
    cases segFin_cases now s u with
    | stay hs => exact hs.symm.trans hu
    | closeWait _ hs | closing _ _ hs | timeWait _ hs => rw [hs] at hu; cases hu
  have hu : (segFin now s (segData now s (segWindow now s (segAck now s t)))).state ≠ .closed := by
    intro h
    have h := hfin _ h
    rw [state_segData, (same_segWindow now s _).state, (same_segAck now s t).state] at h
    exact hne h
  unfold segRest at hc ⊢
  generalize segFin now s (segData now s (segWindow now s (segAck now s t))) = u at hc hu
  unfold segClose at hc ⊢
  split at hc
  · rw [(same_tcpOutput _ _).state] at hc
    split at hc <;> cases hc
  rename_i h1
  rw [if_neg h1]
  split at hc
  · rw [(same_tcpOutput _ _).state] at hc
    cases hc
  rename_i h2
  rw [if_neg h2]
  split at hc
  · rename_i h3
    rw [if_pos h3]
    exact .inl ⟨rfl, rfl, rfl⟩
  · rw [(same_tcpOutput _ _).state] at hc
    exact absurd hc hu

theorem Agree.segRest (h : Agree t) (hne : t.state ≠ .closed) (hl : t.state ≠ .listen) : Agree (segRest now s t) := by
  have hm := moves_segRest now s t
  have hslot : (Tcp.segRest now s t).slot = t.slot := congrArg Prod.fst (kept_segRest now s t)
  have hreset : (Tcp.segRest now s t).reset = t.reset := congrArg (·.2.2) (kept_segRest now s t)
  refine ⟨fun hs => ?_, fun hs => ?_, fun _ _ => ?_, still_segRest now s hne, fun hr => ?_⟩
  · exact finSent_no_segRest now s (h.fin (hm.sends hs))
  · exact absurd hs (hm.ne_listen hl)
  · rw [hreset]
    exact h.reset hne hl
  · have huse := h.slot ((congrArg Slot.reclaimed hslot).symm.trans hr)
    exact (congrArg Slot.inUse hslot).trans huse

/-- What a segment to a CLOSED block does, if it is one to be ignored. -/
theorem tcpSegment_closed {s : Seg} (hst : t.state = .closed) (hp : s.flags.rst ∨ acceptable s t ∧ s.flags.ack = false) :
    (tcpSegment now s t).1 = segRst t ∨ (tcpSegment now s t).1 = t := by
  unfold tcpSegment
  split
  · exact .inl rfl
  rename_i hrst
  obtain ⟨h1, h2⟩ := hp.resolve_left hrst
  right
  rw [if_neg (by rw [hst]; decide), if_neg (by simp [h1]), if_pos (by simp [h2])]

theorem Agree.segment {s : Seg} (h : Agree t) (hl : t.state ≠ .listen)
    (hp : t.state = .closed → s.flags.rst ∨ acceptable s t ∧ s.flags.ack = false) :
    Agree (tcpSegment now s t).1 := by
  by_cases hc : t.state = .closed
  · obtain e | e := tcpSegment_closed now hc (hp hc) <;> rw [e]
    · exact .enterClosed _ h.slot
    · exact h
  have hopened : ∀ u : Tcb, u.finSent = t.finSent → u.reset = t.reset → u.slot = t.slot → t.state.sends = true →
      u.state ≠ .closed ∧ u.state ≠ .listen → Agree u := fun u h1 h2 h3 h4 =>
    Agree.opened (h1.trans (h.fin h4)) (h2.trans (h.reset hc hl)) fun hr =>
      (congrArg Slot.inUse h3).trans (h.slot ((congrArg Slot.reclaimed h3).symm.trans hr))
  have hm := tcpSegment_move now s t
  generalize tcpSegment now s t = r at hm ⊢
  cases hm with
  | reset => exact .enterClosed _ h.slot
  | ignored => exact h
  | connected hst | simultaneous hst =>
    exact hopened _ rfl rfl rfl (by rw [hst]; rfl) ⟨State.noConfusion, State.noConfusion⟩
  | answered => exact h.congr rfl rfl fun hx => absurd hx hc
  | established hst =>
    have hu : Agree (segEstablished s t) := hopened _ rfl rfl rfl (by rw [hst]; rfl) ⟨State.noConfusion, State.noConfusion⟩
    exact hu.segRest now s State.noConfusion State.noConfusion
  | rest => exact h.segRest now s hc hl

/-! ## The timer -/

/-- The three timers of a CLOSED block that is not released are off. -/
theorem tcpTimer_rest (hst : t.state = .closed) (h : Still t) (huse : t.inUse)
    (hrel : ¬ (t.sockGone ∧ t.state = .closed ∧ (!t.reclaimed))) :
    persistFired now (delackFired now (rtoCheck now t).1) = t := by
  have h0 : t.rtoDeadline = 0 ∧ t.delackDeadline = 0 ∧ t.persistDeadline = 0 := by
    obtain h | h | ⟨h1, h2⟩ := h
    · exact h
    · exact absurd (huse.symm.trans h) (by decide)
    · exact absurd ⟨h1, hst, by rw [h2]; rfl⟩ hrel
  have e1 : rtoCheck now t = (t, false) := by
    unfold rtoCheck
    rw [if_neg fun hd => hd.1 h0.1]
  have e2 : delackFired now t = t := by
    unfold delackFired
    rw [if_neg fun hd => hd.1 h0.2.1]
  have e3 : persistFired now t = t := by
    unfold persistFired
    rw [if_neg fun hd => hd.1 h0.2.2]
  rw [e1, e2, e3]

/-- **The timer stages nothing for a CLOSED block.** -/
theorem tcpTimer_closed (hst : t.state = .closed) (h : Still t) : (tcpTimer now t).txq = t.txq := by
  have hm := tcpTimer_move now t
  generalize tcpTimer now t = r at hm ⊢
  cases hm with
  | fired huse hrel => rw [tcpTimer_rest now hst h huse hrel]
  | _ => rfl

theorem finSent_rtoCheck (t : Tcb) : (rtoCheck now t).1.finSent = t.finSent := by
  obtain e | e | e := rtoCheck_cases now t <;> rw [e]
  · rfl
  · exact congrArg Tx.finSent (tx_rtoResend _)

theorem slot_tcpRelease (h : t.reclaimed → t.inUse = false) : (tcpRelease t).inUse = false := by
  unfold tcpRelease
  split
  · rename_i hr
    exact h hr
  · rfl

/-- The end of a pass, for a block that is not released or given up. -/
theorem ctl_timers (t : Tcb) (hr : (rtoCheck now t).2 = false) :
    (persistFired now (delackFired now (rtoCheck now t).1)).ctl = t.ctl := by
  have hctl : (rtoCheck now t).1.ctl = t.ctl := by
    obtain e | e | e := rtoCheck_cases now t <;> rw [e] at hr ⊢
    · cases hr
    · exact ((same_rtoBackoff now { t with retries := (t.retries + 1) % 256 }).trans (same_rtoResend _)).2
  exact ((same_delackFired now (rtoCheck now t).1).trans (same_persistFired now _)).2.trans hctl

theorem Agree.timers (h : Agree t) (hne : t.state ≠ .closed) (hr : (rtoCheck now t).2 = false) :
    Agree (persistFired now (delackFired now (rtoCheck now t).1)) := by
  refine h.congr (ctl_timers now t hr) ?_ fun hc => absurd hc hne
  have htx := (tx_persistFired now (delackFired now (rtoCheck now t).1)).trans (quiet_delackFired now _).tx
  exact (congrArg Tx.finSent htx).trans (finSent_rtoCheck now t)

theorem Agree.tcpTimer (h : Agree t) : Agree (tcpTimer now t) := by
  have hm := tcpTimer_move now t
  generalize Tcp.tcpTimer now t = r at hm ⊢
  cases hm with
  | idle => exact h
  | ended => exact .enterClosed _ h.slot
  | released => exact .closed rfl (.inr (.inl rfl)) fun _ => rfl
  | fired huse hrel hr =>
    by_cases hc : t.state = .closed
    · rw [tcpTimer_rest now hc (h.still hc) huse hrel]
      exact h
    · exact h.timers now hc hr

/-! ## The calls -/

theorem Agree.tcpConnect (now rand : ℕ) (route : Option ℕ) (dst dport : ℕ) (h : Agree t)
    (hp : t.state = .closed → t.reset = false ∧ t.finSent = .no) :
    Agree (tcpConnect now rand route dst dport t).1 := by
  unfold Tcp.tcpConnect
  split
  · exact h
  rename_i dev
  split
  · exact h
  · rename_i hst
    obtain ⟨h1, h2⟩ := hp (Classical.not_not.1 hst)
    have hs := same_sendSyn now { syn := true } (connecting now rand dev dst dport t)
    have hst' : (sendSyn now { syn := true } (connecting now rand dev dst dport t)).state = .synSent := hs.state
    refine .opened ?_ ((congrArg Ctl.reset hs.2).trans h1) (fun hr => ?_) ?_
    · exact (congrArg Tx.finSent (quiet_sendFlags (connecting now rand dev dst dport t) { syn := true } _).tx).trans h2
    · exact (congrArg Ctl.inUse hs.2).trans (h.slot ((congrArg Ctl.reclaimed hs.2).symm.trans hr))
    · rw [hst']
      exact ⟨by decide, by decide⟩

theorem Agree.tcpListen (backlog : ℤ) (h : Agree t) (hp : t.finSent ≠ .sent) : Agree (tcpListen backlog t).1 := by
  unfold Tcp.tcpListen
  split
  · exact h
  · refine ⟨?_, fun _ => hp, fun _ hl => absurd rfl hl, ?_, h.slot⟩
    · intro hs
      cases hs
    · intro hs
      cases hs

/-- A call that does not change the state, in CLOSED, does not set a timer. -/
theorem Agree.tcpSend (data : List UInt8) (h : Agree t) : Agree (tcpSend now data t).1 := by
  unfold Tcp.tcpSend
  split
  · exact h
  split
  · exact h
  split
  · exact h
  · rename_i hst
    have hsends : t.state.sends ∧ t.state ≠ .closed := by
      rw [Classical.not_and_iff_not_or_not, Classical.not_not, Classical.not_not] at hst
      obtain hst | hst := hst <;> rw [hst] <;> exact ⟨rfl, by decide⟩
    have hno := h.fin hsends.1
    have hout : ∀ u : Tcb, u.finSent = t.finSent → (tcpOutput now u).finSent = t.finSent :=
      fun u hu => (finSent_no_tcpOutput now (hu.trans hno)).trans hno.symm
    exact h.congr (same_tcpOutput now { t with snd := _ }).2 (hout _ rfl) fun hc => absurd hc hsends.2

theorem Agree.tcpRecv (len : ℕ) (h : Agree t) (hp : t.state = .closed → t.rcv.len = 0) : Agree (tcpRecv len t).1 := by
  obtain he | ⟨hlen, -⟩ := tcpRecv_cases len t
  · rw [he]
    exact h
  · exact h.congr (ctl_tcpRecv len t) (congrArg Tx.finSent (quiet_tcpRecv len t).tx) fun hc => absurd (hp hc) hlen

theorem sends_shutdownState (h1 : a ≠ .synSent) (h2 : a ≠ .synReceived) : (shutdownState a).sends = false := by
  cases a <;> first | rfl | exact absurd rfl h1 | exact absurd rfl h2

theorem Agree.tcpShutdownWrite (h : Agree t) (h1 : t.state ≠ .synSent) (h2 : t.state ≠ .synReceived) :
    Agree (tcpShutdownWrite now t) := by
  unfold Tcp.tcpShutdownWrite
  split
  · exact h
  have hs := same_tcpOutput now (shuttingDown t)
  have hst : (tcpOutput now (shuttingDown t)).state = shutdownState t.state := hs.state
  refine ⟨fun hc => ?_, fun hc => ?_, fun hc hl => ?_, fun hc => ?_, fun hc => ?_⟩
  · rw [hst, sends_shutdownState h1 h2] at hc
    cases hc
  · -- a listener sends nothing
    rw [hst] at hc
    have hl : t.state = .listen := by
      revert hc
      cases t.state <;> intro hc <;> first | rfl | cases hc
    unfold tcpOutput
    rw [show (shuttingDown t).state.outputs = false by show (shutdownState t.state).outputs = false; rw [hl]; rfl]
    exact FinSent.noConfusion
  · rw [hst] at hc hl
    refine (congrArg Ctl.reset hs.2).trans (h.reset ?_ ?_)
    · intro he
      rw [he] at hc
      exact hc rfl
    · intro he
      rw [he] at hl
      exact hl rfl
  · rw [hst] at hc
    have hcl : t.state = .closed := by
      revert hc
      cases t.state <;> intro hc <;> first | rfl | cases hc
    unfold tcpOutput
    rw [show (shuttingDown t).state.outputs = false by show (shutdownState t.state).outputs = false; rw [hcl]; rfl]
    exact h.still hcl
  · exact (congrArg Ctl.inUse hs.2).trans (h.slot ((congrArg Ctl.reclaimed hs.2).symm.trans hc))

theorem Still.sockGone (h : Still t) : Still { t with sockGone := true } := h.imp id (Or.imp id fun h => ⟨rfl, h.2⟩)

theorem Agree.sockGone (h : Agree t) : Agree { t with sockGone := true } := { h with still := fun hc => (h.still hc).sockGone }

theorem Agree.gone (hstate : t.state = .closed) (hgone : t.sockGone) (hslot : t.reclaimed → t.inUse = false) : Agree t := by
  refine .closed hstate ?_ hslot
  cases hr : t.reclaimed with
  | true => exact .inr (.inl (hslot hr))
  | false => exact .inr (.inr ⟨hgone, hr⟩)

theorem Agree.closeOrphan (h : Agree t) : Agree (closeOrphan t) := by
  have hs := same_sendFlags { t with sockGone := true } { rst := true } t.sndNxt
  refine .gone rfl (congrArg Ctl.sockGone hs.2) fun hr => ?_
  exact (congrArg Ctl.inUse hs.2).trans (h.slot ((congrArg Ctl.reclaimed hs.2).symm.trans hr))

theorem Agree.tcpClose (h : Agree t) : Agree (tcpClose now t).1 := by
  unfold Tcp.tcpClose
  simp only
  split
  · rename_i hst
    exact h.sockGone.tcpShutdownWrite now (by rw [hst]; decide) (by rw [hst]; decide)
  · rename_i hst
    exact h.sockGone.tcpShutdownWrite now (by rw [hst]; decide) (by rw [hst]; decide)
  · exact .gone rfl rfl h.slot
  · exact h.sockGone
  · exact h.closeOrphan
  · exact h.sockGone

theorem Agree.tcpRelease (h : Agree t) : Agree (tcpRelease t) := by
  by_cases hr : t.reclaimed
  · unfold Tcp.tcpRelease
    rw [if_pos hr]
    exact h
  · refine .closed ?_ (.inr (.inl (slot_tcpRelease h.slot))) fun _ => slot_tcpRelease h.slot
    unfold Tcp.tcpRelease
    rw [if_neg hr]

/-- **One event keeps the agreement.** -/
theorem Agree.step (h : Agree w.c.t) (e : ℕ × LifeEvent) (hl : Lives w e) (hp : Proper w e) : Agree (lifeConn w.c e).t := by
  obtain ⟨now, e⟩ := e
  cases e with
  | orphan => exact h.closeOrphan
  | own e =>
    cases e with
    | segment s => exact h.segment now hl.2.2 hp.2
    | timer => exact h.tcpTimer now
    | flush =>
      show Agree (txFlush w.c.t).1
      unfold txFlush
      split
      · exact h
      · exact h.congr rfl rfl h.still
    | connect rand route dst dport => exact h.tcpConnect now rand route dst dport hp
    | listen backlog => exact h.tcpListen backlog hp
    | send data => exact h.tcpSend now data
    | recv len => exact h.tcpRecv len hp
    | shutdownRead => exact { h with }
    | shutdownWrite => exact h.tcpShutdownWrite now hp.1 hp.2
    | nodelay on => exact h.congr rfl rfl h.still
    | close => exact h.tcpClose now
    | release =>
      simp only [lifeConn, Tcp.step]
      split
      · exact h.tcpRelease
      · exact h

/-! ## The acknowledgement of our SYN -/

/-- A synchronized state is entered from the handshake only. -/
theorem Moves.synchronized (h : Moves a b) (hb : b.synchronized) : a.synchronized ∨ a = .synSent ∨ a = .synReceived := by
  induction h with
  | refl => exact .inl hb
  | tail hab hm ih =>
    cases hm with
    | call hm =>
      cases hm with
      | shutdown | shutdownPassive => exact ih rfl
      | abort => cases hb
    | simultaneousOpen => cases hb
    | connected =>
      by_cases h1 : a = .synSent
      · exact .inr (.inl h1)
      · exact absurd rfl (Moves.ne_synSent hab h1)
    | accepted =>
      by_cases h1 : a = .synSent
      · exact .inr (.inl h1)
      by_cases h2 : a = .synReceived
      · exact .inr (.inr h2)
      · exact absurd rfl (Moves.ne_synReceived hab h1 h2)
    | _ => exact ih rfl

theorem Opens.not_synchronized (h : Opens a b) : b.synchronized = false := by
  cases h <;> rfl

/-- The segment that ends the handshake acknowledges our SYN. -/
theorem synAcked_segment {s : Seg} (hst : t.state = .synSent ∨ t.state = .synReceived)
    (hp : t.state = .synReceived → s.flags.ack → s.ack ≠ t.iss)
    (hsync : (tcpSegment now s t).1.state.synchronized) :
    (tcpSegment now s t).1.sndUna ≠ (tcpSegment now s t).1.iss := by
  rw [(slot_iss_tcpSegment now s t).2]
  have hno : t.state.synchronized = false := by
    obtain h | h := hst <;> rw [h] <;> rfl
  have hm := tcpSegment_move now s t
  generalize tcpSegment now s t = r at hm hsync ⊢
  cases hm with
  | reset | simultaneous => cases hsync
  | ignored | answered => exact absurd (hno.symm.trans hsync) Bool.false_ne_true
  | connected _ _ hge =>
    intro he
    -- `iss` itself is not past `iss`
    have he : s.ack = t.iss := he
    simp only [Serial.ge, decide_eq_true_eq] at hge
    unfold Serial.sub Serial.add size half at *
    omega
  | established h2 _ hack =>
    have he : ackedTo s (segEstablished s t) = s.ack := by
      unfold ackedTo
      split <;> rfl
    rw [sndUna_segRest, he]
    exact hp h2 hack
  | rest h1 h2 => exact absurd (hst.resolve_left h1) h2

theorem synAcked_step (h : w.c.t.state.synchronized → w.synAcked) (e : ℕ × LifeEvent)
    (hl : Lives w e) (hp : Proper w e) (hsync : (lifeStep w e).c.t.state.synchronized) :
    (lifeStep w e).synAcked := by
  obtain ⟨now, e⟩ := e
  have hne : (lifeConn w.c (now, e)).t.state ≠ .synSent := by
    intro he
    have hs : (lifeConn w.c (now, e)).t.state.synchronized := hsync
    rw [he] at hs
    cases hs
  show (decide ((lifeConn w.c (now, e)).t.state ≠ .synSent) &&
    (w.synAcked || decide ((lifeConn w.c (now, e)).t.sndUna ≠ (lifeConn w.c (now, e)).t.iss))) = true
  rw [Bool.and_eq_true, Bool.or_eq_true, decide_eq_true_eq, decide_eq_true_eq]
  refine ⟨hne, ?_⟩
  cases e with
  | orphan => cases hsync
  | own e =>
    by_cases ho : e.opens
    · -- `connect` and `listen` do not lead here, unless they fail
      have hfail : ∀ {b : State}, b.synchronized → b = w.c.t.state ∨ Opens w.c.t.state b → w.synAcked := by
        intro b hb hab
        obtain rfl | hab := hab
        · exact h hb
        · exact absurd (hab.not_synchronized.symm.trans hb) Bool.false_ne_true
      cases e with
      | connect rand route dst dport =>
        exact .inl (hfail hsync ((moves_tcpConnect now rand route dst dport w.c.t).imp_left (congrArg Tcb.state)))
      | listen backlog => exact .inl (hfail hsync (moves_tcpListen backlog w.c.t))
      | _ => cases ho
    have hm := moves_step w.c (now, e) (by simpa using ho)
    obtain h1 | h1 := Moves.synchronized hm hsync
    · exact .inl (h h1)
    -- the step out of the handshake is a segment
    by_cases hseg : ∃ s, e = .segment s
    · obtain ⟨s, rfl⟩ := hseg
      exact .inr (synAcked_segment now h1 hp.1 hsync)
    · exfalso
      have hcm := callMoves_step w.c (now, e) (by simpa using ho) (not_exists.1 hseg)
      have hkeep : ∀ x y : State, CallMoves x y → x = .synSent ∨ x = .synReceived → y.synchronized = false := by
        intro x y hxy hx
        have : y = x ∨ y = .closed := by
          induction hxy with
          | refl => exact .inl rfl
          | tail _ hm ih =>
            cases hm with
            | abort => exact .inr rfl
            | shutdown | shutdownPassive =>
              obtain ih | ih := ih <;> [(rw [← ih] at hx; obtain hx | hx := hx <;> cases hx); cases ih]
        obtain rfl | rfl := this
        · obtain rfl | rfl := hx <;> rfl
        · rfl
      exact Bool.false_ne_true ((hkeep _ _ hcm h1).symm.trans hsync)

/-! ## CLOSED -/

theorem Opens.ne_closed (h : Opens a b) : b ≠ .closed := by
  cases h <;> decide

theorem Silent.of_eq {c' : Conn} (hrx : c'.t.rx = c.t.rx) (hacc : c'.accepted = c.accepted) (htxq : c'.t.txq <:+ c.t.txq) :
    Silent c c' :=
  ⟨le_of_eq (congrArg (fun r => r.rcv.len) hrx), congrArg Rx.rcvNxt hrx, congrArg Rx.reasm hrx, hacc, htxq⟩

/-- **A CLOSED block accepts nothing and stages nothing.** -/
theorem silent_step (h : Agree w.c.t) (e : ℕ × LifeEvent) (hl : Lives w e) (hp : Proper w e)
    (hst : w.c.t.state = .closed) (hst' : (lifeConn w.c e).t.state = .closed) : Silent w.c (lifeConn w.c e) := by
  have same : ∀ c' : Conn, c'.t.rx = w.c.t.rx → c'.accepted = w.c.accepted → c'.t.txq = w.c.t.txq → Silent w.c c' :=
    fun c' h1 h2 h3 => .of_eq h1 h2 (by rw [h3])
  obtain ⟨now, e⟩ := e
  cases e with
  | orphan => exact absurd hst hp
  | own e =>
    cases e with
    | segment s =>
      obtain he | he := tcpSegment_closed now hst (hp.2 hst)
      · exact same _ ((congrArg Tcb.rx he).trans rfl) rfl ((congrArg Tcb.txq he).trans rfl)
      · exact same _ (congrArg Tcb.rx he) rfl (congrArg Tcb.txq he)
    | timer => exact same _ (called_tcpTimer now _).rx rfl (tcpTimer_closed now hst (h.still hst))
    | flush =>
      refine .of_eq (called_txFlush w.c.t).rx rfl ?_
      show (txFlush w.c.t).1.txq <:+ w.c.t.txq
      unfold txFlush
      split
      · exact List.suffix_refl _
      · rename_i g q hq
        rw [hq]
        exact List.suffix_cons g q
    | connect rand route dst dport =>
      obtain he | he := moves_tcpConnect now rand route dst dport w.c.t
      · exact same _ (congrArg Tcb.rx he) rfl (congrArg Tcb.txq he)
      · have hs : (tcpConnect now rand route dst dport w.c.t).1.state = .closed := hst'
        exact absurd hs he.ne_closed
    | listen backlog =>
      -- it succeeds
      have hs : (tcpListen backlog w.c.t).1.state = .closed := hst'
      unfold tcpListen at hs
      rw [if_neg fun h => h.1 hst] at hs
      cases hs
    | send data =>
      have hno : ∃ e, tcpSend now data w.c.t = (w.c.t, .error e) := by
        unfold tcpSend
        split
        · exact ⟨_, rfl⟩
        split
        · exact ⟨_, rfl⟩
        rw [if_pos ⟨by rw [hst]; decide, by rw [hst]; decide⟩]
        exact ⟨_, rfl⟩
      obtain ⟨e, he⟩ := hno
      simp only [lifeConn, Tcp.step, he]
      exact same _ rfl (List.append_nil _) rfl
    | recv len =>
      have he : (tcpRecv len w.c.t).1 = w.c.t := (tcpRecv_cases len w.c.t).resolve_right fun hc => hc.1 (hp hst)
      exact same _ (congrArg Tcb.rx he) rfl (congrArg Tcb.txq he)
    | shutdownWrite =>
      refine same _ (called_tcpShutdownWrite now _).rx rfl ?_
      show (tcpShutdownWrite now w.c.t).txq = w.c.t.txq
      unfold tcpShutdownWrite tcpOutput
      split
      · rfl
      · rw [show (shuttingDown w.c.t).state.outputs = false by show (shutdownState w.c.t.state).outputs = false; rw [hst]; rfl]
        rfl
    | shutdownRead | nodelay => exact same _ rfl rfl rfl
    | close =>
      have he : (tcpClose now w.c.t).1 = { w.c.t with sockGone := true } := by
        unfold tcpClose
        simp only [hst]
      exact same _ ((congrArg Tcb.rx he).trans rfl) rfl ((congrArg Tcb.txq he).trans rfl)
    | release =>
      simp only [lifeConn, Tcp.step, tcpRelease]
      split
      · split <;> exact same _ rfl rfl rfl
      · exact same _ rfl rfl rfl

/-! ## Runs -/

/-- The invariant of a run. -/
structure LifeInv (w : Life) : Prop where
  agree : Agree w.c.t
  syn : w.c.t.state.synchronized → w.synAcked

theorem Born.lifeInv (h : Born w) : LifeInv w := by
  cases h with
  | alloc t =>
    refine ⟨.closed rfl (.inl ⟨rfl, rfl, rfl⟩) fun h => ?_, fun h => ?_⟩
    · cases h
    · cases h
  | passive now rand dst src dport sport listener s t =>
    have hs : SynOut ⟨passiveOpen now rand dst src dport sport listener s t, [], [], [], false⟩ := synOut_passiveOpen ..
    have hst : (passiveOpen now rand dst src dport sport listener s t).state = .synReceived := (same_sendSyn now _ _).state
    have hr : (passiveOpen now rand dst src dport sport listener s t).reset = false := by
      have hsame : ∀ u : Tcb, (sendSyn now { syn := true, ack := true } u).reset = u.reset :=
        fun u => congrArg Ctl.reset (same_sendSyn now _ u).2
      exact hsame _
    refine ⟨.opened hs.fin hr (fun h => ?_) ?_, fun h => ?_⟩
    · exact absurd (hs.slot.symm.trans h) Bool.false_ne_true
    · rw [show _ = State.synReceived from hst]
      exact ⟨by decide, by decide⟩
    · -- the handshake is not through
      cases h

theorem LifeInv.step (h : LifeInv w) (e : ℕ × LifeEvent) (hl : Lives w e) (hp : Proper w e) : LifeInv (lifeStep w e) :=
  ⟨h.agree.step e hl hp, synAcked_step h.syn e hl hp⟩

theorem LifeInv.flagsAgree (h : LifeInv w) : FlagsAgree w := by
  refine ⟨fun hf => ?_, fun hst => ?_, fun hst => ?_⟩
  · cases hst : w.c.t.state with
    | listen => exact absurd hf (h.agree.listen hst)
    | synSent | synReceived | established | closeWait =>
      exact absurd ((h.agree.fin (by rw [hst]; rfl)).symm.trans hf) (by decide)
    | _ => rfl
  · exact h.agree.reset (by rw [hst]; decide) (by rw [hst]; decide)
  · exact h.syn (by rw [hst]; rfl)

/-- **Conformance**: in every run that keeps away from the cases of `Proper`, the flags agree with the
state, and the next event conforms too. -/
theorem conformance_run (w : Life) (es : List (ℕ × LifeEvent)) (h0 : Born w)
    (hrun : Run.Valid lifeStep (fun w e => Lives w e ∧ Proper w e) w es) :
    FlagsAgree (final lifeStep w es) ∧ ∀ e, Lives (final lifeStep w es) e → Proper (final lifeStep w es) e →
        Conforms (final lifeStep w es) (lifeStep (final lifeStep w es) e) := by
  have h : LifeInv (final lifeStep w es) := hrun.invariant (fun _ e h hok => h.step e hok.1 hok.2) h0.lifeInv
  exact ⟨h.flagsAgree, fun e hl hp => ⟨follows_lifeConn _ e, silent_step h.agree e hl hp⟩⟩

/-- A block of a new socket. -/
def newLife : Life := ⟨⟨blankTcb.allocated, [], [], [], false⟩, false⟩

/-- The socket is connected and the peer answers. -/
def connectRun : List (ℕ × LifeEvent) :=
  [(0, .own (.connect 1000 (some 1) 2 80)), (0, .own .flush),
    (0, .own (.segment ⟨2000, 1001, { syn := true, ack := true }, 8192, 0, []⟩))]

/-- A connection that is made and closed. -/
theorem conformance_run_connected : FlagsAgree (final lifeStep newLife connectRun) ∧
      Conforms (final lifeStep newLife connectRun) (lifeStep (final lifeStep newLife connectRun) (0, .own .close)) := by
  have h := conformance_run newLife connectRun (.alloc blankTcb) ⟨⟨rfl, fun _ => ⟨rfl, rfl⟩⟩, ⟨trivial, trivial⟩,
    ⟨⟨⟨by decide, by decide⟩, by decide, by decide⟩, ?_, ?_⟩, trivial⟩
  · exact ⟨h.1, h.2 _ (show (final lifeStep newLife connectRun).c.t.sockGone = false by decide) trivial⟩
  · decide
  · decide

/-- The peer refuses the connection, and the socket is connected again. -/
def reconnectRun : List (ℕ × LifeEvent) :=
  [(0, .own (.connect 1000 (some 1) 2 80)), (0, .own .flush),
    (1, .own (.segment ⟨0, 1001, { rst := true, ack := true }, 0, 0, []⟩)),
    (2, .own (.connect 3000 (some 1) 2 80)), (2, .own .flush),
    (3, .own (.segment ⟨5000, 3001, { syn := true, ack := true }, 8192, 0, []⟩))]

/-- The second connection is ESTABLISHED with the reset flag of the first. -/
theorem reconnect_keeps_reset : ¬ ∀ (w : Life) (es : List (ℕ × LifeEvent)), Born w → Run.Valid lifeStep Lives w es →
      FlagsAgree (final lifeStep w es) ∧ ∀ e, Lives (final lifeStep w es) e →
          Conforms (final lifeStep w es) (lifeStep (final lifeStep w es) e) := by
  intro h
  have hok := (h newLife reconnectRun (.alloc blankTcb) ⟨rfl, trivial,
    ⟨⟨by decide, by decide⟩, by decide, by decide⟩, by show (_ : Bool) = false; decide, trivial,
    ⟨⟨by decide, by decide⟩, by decide, by decide⟩, trivial⟩).1.reset
  have hst : (final lifeStep newLife reconnectRun).c.t.state = .established ∧
      (final lifeStep newLife reconnectRun).c.t.reset = true := by
    decide
  exact Bool.false_ne_true ((hok hst.1).symm.trans hst.2)

end NeoOS.Tcp
