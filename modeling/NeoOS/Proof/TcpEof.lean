import NeoOS.Proof.TcpRecv

/-!
# End of file

`tcp_recv` returns 0 for a nonzero length when the ring is empty and there was a FIN, the
read side was shut down, or the state is CLOSED. The last is too much: a connection that
timed out is CLOSED as well. Where the state is CLOSED only after a FIN or a RST, an end of
file means that the whole stream has been returned. Here a run begins with a block that was
just allocated, and the handshake is part of it.
-/

namespace NeoOS.Tcp

open List
open Serial (add Stands half size)
open Run (Valid final)

variable {now isn : ℕ} {S : List UInt8} {s : Seg} {c : Conn} {t : Tcb}

/-- Nothing has been received. -/
structure Blank (c : Conn) : Prop where
  got : c.got = []
  empty : c.t.rcv.len = 0
  slots : c.t.reasm = List.replicate reasmSegs none
  nofin : c.t.finRcvd = false

/-- Not even the peer's SYN. -/
structure Unopened (c : Conn) : Prop where
  blank : Blank c
  state : c.t.state.unopened

theorem Blank.congr {c' : Conn} (h : Blank c) (hgot : c'.got = c.got) (hrx : c'.t.rx = c.t.rx) : Blank c' :=
  ⟨hgot.trans h.got, (congrArg (fun r : Rx => r.rcv.len) hrx).trans h.empty, (congrArg Rx.reasm hrx).trans h.slots,
    (congrArg Rx.finRcvd hrx).trans h.nofin⟩

/-- How a block begins: as `tcp_alloc` or as `tcp_input` makes it. -/
def Begun (isn : ℕ) (c : Conn) : Prop := Unopened c ∨ Opened isn c

theorem begun_allocated (isn : ℕ) (t : Tcb) : Begun isn ⟨t.allocated, [], [], [], false⟩ := .inl ⟨⟨rfl, rfl, rfl, rfl⟩, rfl⟩

/-- A run with a peer that sends `S`, from the first call on. `tcp_find` does not hand segments
to a listener, and the peer's SYN has the number before its first byte. -/
def PeerAll (S : List UInt8) (isn : ℕ) (c : Conn) (e : ℕ × Event) : Prop :=
  match e.2 with
  | .segment s =>
    c.t.state ≠ .listen ∧ (s.flags.syn → Stands s.seq isn) ∧ Carries S isn (front c.got c.t.rx) s
  | _ => True

/-- A call of `tcp_recv` finds the state CLOSED only after a FIN or a RST, no FIN overtakes data,
and a block in CLOSED gets no segment and is not connected again once it has received something. -/
def EofOK (c : Conn) (e : ℕ × Event) : Prop :=
  match e.2 with
  | .segment s => FinFits s c.t ∧ c.t.state ≠ .closed
  | .connect .. => c.t.state = .closed → Blank c
  | .recv _ => c.t.state = .closed → c.t.finRcvd ∨ c.t.reset
  | _ => True

/-! ## The handshake -/

/-- The peer's SYN fixes where its stream begins. -/
theorem Blank.opened (h : Blank c) (hrx : t.rx = { c.t.rx with rcvNxt := add s.seq 1 })
    (hsyn : Stands s.seq isn) (hstate : t.state ≠ .synSent) : Opened isn { c with t := t } := by
  refine ⟨h.got, (congrArg (fun r : Rx => r.rcv.len) hrx).trans h.empty, ?_, (congrArg Rx.reasm hrx).trans h.slots,
    (congrArg Rx.finRcvd hrx).trans h.nofin, hstate⟩
  have hnext : t.rcvNxt = add s.seq 1 := congrArg Rx.rcvNxt hrx
  rw [hnext]
  exact hsyn.add 1

/-- A segment in SYN_SENT opens the connection, closes the block or does nothing. -/
theorem Unopened.segment (h : Unopened c) (hs : c.t.state = .synSent) (hsyn : s.flags.syn → Stands s.seq isn) :
    Unopened { c with t := (tcpSegment now s c.t).1 } ∨ Opened isn { c with t := (tcpSegment now s c.t).1 } := by
  have hm := tcpSegment_move now s c.t
  generalize tcpSegment now s c.t = r at hm ⊢
  cases hm with
  | reset => exact .inl ⟨h.blank.congr rfl rfl, rfl⟩
  | ignored => exact .inl h
  | answered => exact .inl ⟨h.blank.congr rfl rfl, h.state⟩
  | connected _ hf | simultaneous _ hf => exact .inr (h.blank.opened rfl (hsyn hf) State.noConfusion)
  | established hr => rw [hs] at hr; cases hr
  | rest hr => exact absurd hs hr

/-! ## Runs -/

/-- The invariant: nothing has been received yet, or the receive side agrees with the stream. -/
def EofInv (S : List UInt8) (isn : ℕ) (c : Conn) : Prop := Unopened c ∨ RecvInv S isn c

theorem Begun.eofInv (h : Begun isn c) (S : List UInt8) : EofInv S isn c := h.imp id fun h => ⟨h.rxInv S, h.state⟩

/-- Before the handshake a call changes nothing on the receive side. -/
theorem Unopened.call (h : Unopened c) (e : ℕ × Event) (he : e.2.opens = false) (hs : ∀ s, e.2 ≠ .segment s) :
    Unopened (step c e) := by
  refine ⟨?_, (callMoves_step c e he hs).unopened h.state⟩
  obtain ⟨now, e⟩ := e
  have hcalled := called_step c (now, e) he
  cases e with
  | segment s => exact absurd rfl (hs s)
  | connect | listen => cases he
  | recv len =>
    -- the ring is empty
    have hr : (tcpRecv len c.t).1 = c.t ∧ received (tcpRecv len c.t).2 = [] := by
      unfold tcpRecv
      rw [if_neg (not_not.2 h.blank.empty)]
      split
      · exact ⟨rfl, rfl⟩
      · split <;> exact ⟨rfl, rfl⟩
    refine h.blank.congr ?_ (congrArg Tcb.rx hr.1)
    simp only [Tcp.step, hr.2, append_nil]
  | release =>
    simp only [Tcp.step]
    split
    · exact h.blank.congr rfl (called_tcpRelease c.t).rx
    · exact h.blank
  | _ => exact h.blank.congr rfl (hcalled (fun _ h => by cases h) (fun _ h => by cases h)).rx

theorem rx_tcpConnect (now rand : ℕ) (route : Option ℕ) (dst dport : ℕ) (t : Tcb) :
    (tcpConnect now rand route dst dport t).1.rx = t.rx := by
  unfold tcpConnect
  split
  · rfl
  split
  · rfl
  · exact (same_sendSyn now _ (connecting now rand _ dst dport t)).1

theorem rx_tcpListen (backlog : ℤ) (t : Tcb) : (tcpListen backlog t).1.rx = t.rx := by
  unfold tcpListen
  split <;> rfl

/-- `connect` starts a handshake if the state is CLOSED, and does nothing otherwise. -/
theorem EofInv.connect (h : EofInv S isn c) (rand : ℕ) (route : Option ℕ) (dst dport : ℕ)
    (hb : c.t.state = .closed → Blank c) :
    EofInv S isn (step c (now, .connect rand route dst dport)) := by
  have hrx := rx_tcpConnect now rand route dst dport c.t
  obtain hsame | hopen := moves_tcpConnect now rand route dst dport c.t
  · have hc : Tcp.step c (now, .connect rand route dst dport) = c := by simp only [Tcp.step, hsame]
    rwa [hc]
  · generalize hb' : (tcpConnect now rand route dst dport c.t).1.state = b at hopen
    generalize ha : c.t.state = a at hopen
    cases hopen with
    | active | passive => exact .inl ⟨(hb ha).congr rfl hrx, by simp only [Tcp.step, hb']; rfl⟩

theorem EofInv.listen (h : EofInv S isn c) (backlog : ℤ) : EofInv S isn (step c (now, .listen backlog)) := by
  have hrx := rx_tcpListen backlog c.t
  have hstate : (tcpListen backlog c.t).1.state = c.t.state ∨ (tcpListen backlog c.t).1.state = .listen := by
    unfold tcpListen
    split
    · exact .inl rfl
    · exact .inr rfl
  obtain h | h := h
  · refine .inl ⟨h.blank.congr rfl hrx, ?_⟩
    show (tcpListen backlog c.t).1.state.unopened
    obtain hs | hs := hstate <;> rw [hs]
    · exact h.state
    · rfl
  · refine .inr ⟨h.1.congr hrx, ?_⟩
    show (tcpListen backlog c.t).1.state ≠ .synSent
    obtain hs | hs := hstate <;> rw [hs]
    · exact h.2
    · decide

theorem EofInv.step (h : EofInv S isn c) (e : ℕ × Event) (hp : PeerAll S isn c e) (hok : EofOK c e) :
    EofInv S isn (step c e) := by
  obtain ⟨now, e⟩ := e
  by_cases hseg : ∃ s, e = .segment s
  · obtain ⟨s, rfl⟩ := hseg
    obtain ⟨hl, hsyn, hcar⟩ := hp
    obtain ⟨hfits, hcl⟩ := hok
    obtain h | h := h
    · -- neither CLOSED nor LISTEN is left but SYN_SENT
      have hs : c.t.state = .synSent := by
        have hu := h.state
        generalize c.t.state = a at hl hcl hu
        cases a <;> first | rfl | exact absurd rfl hl | exact absurd rfl hcl | cases hu
      exact (h.segment hs hsyn).imp id fun h => ⟨h.rxInv S, h.state⟩
    · exact .inr (h.step (now, .segment s) hcar hfits)
  have hs : ∀ s, e ≠ .segment s := not_exists.1 hseg
  by_cases hopens : e.opens
  · cases e with
    | connect rand route dst dport => exact h.connect rand route dst dport hok
    | listen backlog => exact h.listen backlog
    | _ => cases hopens
  rw [Bool.not_eq_true] at hopens
  obtain h | h := h
  · exact .inl (h.call (now, e) hopens hs)
  · refine .inr (h.step (now, e) ?_ ?_)
    · cases e <;> first | exact hopens | exact absurd rfl (hs _)
    · cases e <;> first | trivial | exact absurd rfl (hs _)

theorem EofInv.run (h0 : Begun isn c) {es : List (ℕ × Event)}
    (hrun : Valid Tcp.step (fun c e => PeerAll S isn c e ∧ EofOK c e) c es) :
    EofInv S isn (final Tcp.step c es) :=
  hrun.invariant (fun _ e h hok => h.step e hok.1 hok.2) (h0.eofInv S)

/-- What `tcp_recv` says about the end of the stream `S`: it returns 0 only when the FIN is there
and everything before it has been returned, and it reports an error, once the ring is empty, when
the connection was reset or died without a FIN. -/
def EofSound (S : List UInt8) (len : ℕ) (c : Conn) : Prop :=
  ((tcpRecv len c.t).2 = .ok [] → c.t.shutRd = false → c.t.finRcvd ∧ c.got = S) ∧
    (c.t.rcv.len = 0 → c.t.shutRd = false → c.t.reset ∨ (c.t.state = .closed ∧ c.t.finRcvd = false ∧ c.t.soError ≠ none) →
      ∃ e, (tcpRecv len c.t).2 = .error e)

theorem tcpRecv_eq_nil {len : ℕ} (hlen : len ≠ 0) (h : (tcpRecv len t).2 = .ok []) :
    t.rcv.len = 0 ∧ t.reset = false ∧ (t.finRcvd ∨ t.shutRd ∨ t.state = .closed) := by
  unfold tcpRecv at h
  split at h
  · rename_i hne
    have hl : (t.rcv.peek rcvbufSize 0 (min len t.rcv.len)).length = 0 := by
      rw [Except.ok.inj h]
      rfl
    rw [RingBuf.length_peek] at hl
    omega
  · rename_i hne
    split at h
    · cases h
    · rename_i hr
      split at h
      · rename_i hc
        exact ⟨not_not.1 hne, Bool.eq_false_iff.2 hr, hc⟩
      · cases h

/-- **An end of file is one**, in every run that meets the conditions. -/
theorem recv_eof_run (S : List UInt8) (isn : ℕ) (c : Conn) (es : List (ℕ × Event)) (now len : ℕ) (hlen : len ≠ 0)
    (h0 : Begun isn c)
    (hrun : Valid step (fun c e => PeerAll S isn c e ∧ EofOK c e) c (es ++ [(now, .recv len)])) :
    EofSound S len (final step c es) := by
  rw [Run.valid_append] at hrun
  obtain ⟨hes, ⟨-, hrecv⟩, -⟩ := hrun
  have hinv := EofInv.run h0 hes
  generalize final step c es = f at hinv hrecv
  have hcl : f.t.state = .closed → f.t.finRcvd ∨ f.t.reset := hrecv
  constructor
  · intro heof hsh
    obtain ⟨hempty, hreset, hwhy⟩ := tcpRecv_eq_nil hlen heof
    have hfin : f.t.finRcvd := by
      obtain hf | hs | hc := hwhy
      · exact hf
      · exact absurd (hsh.symm.trans hs) Bool.false_ne_true
      · exact (hcl hc).resolve_right (by rw [hreset]; exact Bool.false_ne_true)
    refine ⟨hfin, ?_⟩
    obtain hu | hr := hinv
    · exact absurd (hu.blank.nofin.symm.trans hfin) Bool.false_ne_true
    · -- the stream has been taken to its end, and the ring is empty
      have hstream := hr.1.ok.stream
      have hfront := hr.1.ok.fin hfin
      have hc : f.t.rx.rcv.contents rcvbufSize = [] := length_eq_zero_iff.1 (by rw [RingBuf.length_contents]; exact hempty)
      rwa [hc, append_nil, hfront, take_length] at hstream
  · intro hempty _ hdied
    have hreset : f.t.reset := by
      obtain hr | ⟨hc, hf, -⟩ := hdied
      · exact hr
      · exact (hcl hc).resolve_left (by rw [hf]; exact Bool.false_ne_true)
    refine ⟨.econnreset, ?_⟩
    unfold tcpRecv
    rw [if_neg (not_not.2 hempty), if_pos hreset]

/-- A connection is opened, gets six bytes with a FIN, and they are read. -/
def readRun : List (ℕ × Event) :=
  [(0, .connect 1000 (some 1) 2 80), (1, .segment ⟨2000, 1001, { syn := true, ack := true }, 8192, 0, []⟩),
    peerSeg 2001 true sixBytes, (2, .recv 10)]

/-- The second `tcp_recv` finds the end of the stream. -/
theorem recv_eof_run_read : (final step ⟨blankTcb, [], [], [], false⟩ readRun).t.finRcvd = true ∧
      (final step ⟨blankTcb, [], [], [], false⟩ readRun).got = sixBytes := by
  refine (recv_eof_run sixBytes 2000 ⟨blankTcb, [], [], [], false⟩ readRun 3 10 (by decide) (begun_allocated _ _)
    ⟨⟨?_, ?_⟩, ⟨?_, ?_⟩, ⟨?_, ?_⟩, ⟨?_, ?_⟩, ⟨?_, ?_⟩, trivial⟩).1 (by decide) (by decide)
  · trivial
  · exact fun _ => ⟨rfl, rfl, rfl, rfl⟩
  · exact ⟨by decide, fun _ => rfl, .inl ⟨rfl, rfl⟩⟩
  · exact ⟨(fun hf => nomatch hf), by decide⟩
  · exact ⟨by decide, (fun hs => nomatch hs), .inr ⟨0, ⟨by decide, by decide, by decide⟩, by decide,
      by decide, by decide⟩⟩
  · exact ⟨fun _ => ⟨fun _ => by decide, by decide⟩, by decide⟩
  · trivial
  · exact fun _ => by decide
  · trivial
  · exact fun _ => by decide

/-- The peer goes silent: a byte is sent and retransmitted until the timer gives up. -/
def silentRun : List (ℕ × Event) :=
  (0, .send [1]) :: (List.range 13).map fun k => (10000 * (k + 1), .timer)

/-- After the timer has given up, `tcp_recv` returns 0 although the peer never sent a FIN. -/
theorem timeout_reads_as_eof :
    ¬ ∀ (S : List UInt8) (isn : ℕ) (c : Conn) (es : List (ℕ × Event)) (now len : ℕ), len ≠ 0 → Begun isn c →
      Valid step (PeerAll S isn) c (es ++ [(now, .recv len)]) → EofSound S len (final step c es) := by
  intro h
  have hrun : Valid step (PeerAll [] 2000) ⟨openTcb, [], [], [], false⟩ (silentRun ++ [(140000, .recv 10)]) := by
    simp only [silentRun, List.range, List.range.loop, List.map, cons_append, nil_append, Valid, PeerAll, and_self]
  have hsound := (h [] 2000 _ silentRun 140000 10 (by decide) (.inr openTcb_opened) hrun).1
    (by decide) (by decide)
  have hfin : (final step ⟨openTcb, [], [], [], false⟩ silentRun).t.finRcvd = false := by decide
  exact absurd (hfin.symm.trans hsound.1) Bool.false_ne_true

end NeoOS.Tcp
