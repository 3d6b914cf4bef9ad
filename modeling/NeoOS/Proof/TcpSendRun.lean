import NeoOS.Proof.TcpSend

/-!
# What is transmitted

Over a whole connection: the bytes at sequence number `n` of every transmitted segment are
byte `n - iss - 1` of what `tcp_send` accepted. The one thing that can go wrong is a
handshake that ends without our SYN being acknowledged: then the SYN counts as the first
byte in flight, and everything is sent one byte off.
-/

namespace NeoOS.Tcp

open List
open Relation (ReflTransGen)
open Serial (add sub Stands Slice half size)
open Run (Valid final)

variable {now : ℕ} {A : List UInt8} {B : ℕ → Prop} {s : Seg} {t : Tcb} {c : Conn}

/-! ## The initial sequence number stays -/

theorem iss_step (c : Conn) (e : ℕ × Event) (he : e.2.opens = false) : (step c e).t.iss = c.t.iss := by
  obtain ⟨now, e⟩ := e
  have hcalled := called_step c (now, e) he
  cases e with
  | segment s => exact (slot_iss_tcpSegment now s c.t).2
  | recv len => exact congrArg Ctl.iss (ctl_tcpRecv len c.t)
  | _ => exact (hcalled (fun _ h => by cases h) (fun _ h => by cases h)).iss

/-! ## Runs -/

/-- `tcp_connect` or a passive open has just sent our SYN. -/
structure SynOut (c : Conn) : Prop where
  accepted : c.accepted = []
  log : c.log = []
  empty : c.t.snd.len = 0
  una : c.t.sndUna = c.t.iss
  num : c.t.iss < size
  nxt : Stands c.t.sndNxt (c.t.iss + 1)
  fin : c.t.finSent = .no
  slot : c.t.reclaimed = false
  state : c.t.state = .synSent ∨ c.t.state = .synReceived
  txq : ∀ g ∈ c.t.txq, g.data = []

theorem synOut_sendSyn (now : ℕ) (f : Flags) (h1 : t.snd.len = 0) (h2 : t.sndUna = t.iss) (h3 : t.sndNxt = t.iss)
    (h4 : t.iss < size) (h5 : t.finSent = .no) (h6 : t.reclaimed = false)
    (h7 : t.state = .synSent ∨ t.state = .synReceived) (h8 : t.txq = []) :
    SynOut ⟨sendSyn now f t, [], [], [], false⟩ := by
  obtain ⟨q, e, hq⟩ : ∃ q, sendFlags t f t.iss = { t with txq := t.txq ++ q } ∧ ∀ g ∈ q, _ ∧ g.data = [] ∧ _ :=
    txQueue_shape _ _
  have hs : sendSyn now f t = { t with txq := t.txq ++ q, sndNxt := add t.sndNxt 1, rtoDeadline := now + t.rtt.rtoTicks } := by
    unfold sendSyn
    rw [e]
  rw [hs]
  refine ⟨rfl, rfl, h1, h2, h4, ?_, h5, h6, h7, ?_⟩
  · show Stands (add t.sndNxt 1) (t.iss + 1)
    rw [h3]
    rfl
  · intro g hg
    have hg' : g ∈ t.txq ++ q := hg
    rw [h8, nil_append] at hg'
    exact (hq g hg').2.1

theorem synOut_passiveOpen (now rand dst src dport sport listener : ℕ) (s : Seg) (t : Tcb) :
    SynOut ⟨passiveOpen now rand dst src dport sport listener s t, [], [], [], false⟩ :=
  synOut_sendSyn now _ rfl rfl rfl (Nat.mod_lt _ (by decide)) rfl rfl (.inr rfl) rfl

/-- The events of one connection; the numbers in a header have 32 bits. -/
def SendRun (_ : Conn) (e : ℕ × Event) : Prop :=
  match e.2 with
  | .segment s => s.WF
  | e => e.opens = false

/-- No segment ends the handshake without acknowledging our SYN. -/
def SynAckedEvent (c : Conn) (e : ℕ × Event) : Prop :=
  match e.2 with
  | .segment s => SynAcked s c.t
  | _ => True

/-- The invariant of a run. -/
structure SendInv (c : Conn) : Prop where
  tx : TxInv c.accepted (fun _ => True) c.t
  log : Pieces c.accepted c.t.iss c.log

theorem SynOut.sendInv (h : SynOut c) : SendInv c := by
  refine ⟨⟨.inl { h with none := h.accepted, fin := ?_, state := h.state.imp id .inl }, ⟨?_, ?_⟩, ?_⟩, ?_⟩
  · rw [h.fin]
    decide
  · intro hf
    exact absurd h.fin hf
  · intro hr
    exact absurd (h.slot.symm.trans hr) Bool.false_ne_true
  · exact fun g hg => .inl (h.txq g hg)
  · rw [h.log]
    exact fun g hg => absurd hg not_mem_nil

theorem SendRun.not_opens {e : ℕ × Event} (h : SendRun c e) : e.2.opens = false := by
  obtain ⟨now, e⟩ := e
  cases e <;> first | rfl | exact h

theorem TxInv.step (h : TxInv c.accepted B c.t) (e : ℕ × Event) (hr : SendRun c e) (hs : SynAckedEvent c e) (hB : B 0)
    (hg : ∀ s, e.2 = .segment s → s.flags.ack → Grants B s c.t) : TxInv (step c e).accepted B (step c e).t := by
  have hopens := hr.not_opens
  obtain ⟨now, e⟩ := e
  cases e with
  | segment s => exact h.segment now hr hs hB (hg s rfl)
  | timer => exact h.tcpTimer now
  | flush =>
    -- the queue gets shorter
    have hx : ∃ q, (txFlush c.t).1 = { c.t with txq := q } ∧ ∀ g ∈ q, g ∈ c.t.txq := by
      unfold txFlush
      split
      · exact ⟨c.t.txq, rfl, fun _ hg => hg⟩
      · rename_i g q hq
        exact ⟨q, rfl, fun g' hg => by rw [hq]; exact mem_cons_of_mem _ hg⟩
    obtain ⟨q, e, hq⟩ := hx
    show TxInv c.accepted B (txFlush c.t).1
    rw [e]
    exact ⟨h.phase.imp (fun hh => hh.congr rfl hh.state) fun hp => hp.congr rfl rfl,
      ⟨h.marks.shut, h.marks.slot⟩, fun g hg => h.pieces g (hq g hg)⟩
  | connect | listen => cases hopens
  | send data => exact h.tcpSend now data
  | recv len => exact h.quiet (quiet_tcpRecv len c.t) (state_tcpRecv len c.t)
  | shutdownWrite => exact h.tcpShutdownWrite now
  | shutdownRead | nodelay => exact h.quiet (.of_eq rfl rfl rfl) rfl
  | close => exact h.tcpClose now
  | release =>
    simp only [Tcp.step]
    split
    · exact h.tcpRelease
    · exact h

/-- The transmitted segments come from the queue, and the accepted bytes only get more. -/
theorem step_history (c : Conn) (e : ℕ × Event) :
    (∃ more, (step c e).accepted = c.accepted ++ more) ∧ ∀ g ∈ (step c e).log, g ∈ c.log ∨ g ∈ c.t.txq := by
  obtain ⟨now, e⟩ := e
  have hsame : ∀ c' : Conn, c'.accepted = c.accepted → c'.log = c.log →
      (∃ more, c'.accepted = c.accepted ++ more) ∧ ∀ g ∈ c'.log, g ∈ c.log ∨ g ∈ c.t.txq := by
    intro c' h1 h2
    exact ⟨⟨[], by rw [h1, append_nil]⟩, fun g hg => .inl (h2 ▸ hg)⟩
  cases e with
  | flush =>
    refine ⟨⟨[], (append_nil _).symm⟩, fun g hg => ?_⟩
    obtain hg | hg := mem_append.1 hg
    · exact .inl hg
    · right
      unfold txFlush at hg
      split at hg
      · cases hg
      · rename_i g' q hq
        rw [hq, mem_singleton.1 hg]
        exact mem_cons_self
  | send data => exact ⟨⟨_, rfl⟩, fun g hg => .inl hg⟩
  | release =>
    simp only [Tcp.step]
    split <;> exact hsame _ rfl rfl
  | _ => exact hsame _ rfl rfl

theorem SendInv.step (h : SendInv c) (e : ℕ × Event) (hr : SendRun c e) (hs : SynAckedEvent c e) : SendInv (step c e) := by
  obtain ⟨⟨more, hA⟩, hlog⟩ := step_history c e
  refine ⟨h.tx.step e hr hs trivial fun _ _ _ _ _ _ _ _ => trivial, ?_⟩
  rw [iss_step c e hr.not_opens, hA]
  intro g hg
  obtain hg | hg := hlog g hg
  · exact h.log.append more g hg
  · exact h.tx.pieces.append more g hg

theorem SendInv.run (h0 : SynOut c) {es : List (ℕ × Event)}
    (hrun : Valid Tcp.step (fun c e => SendRun c e ∧ SynAckedEvent c e) c es) :
    SendInv (final Tcp.step c es) :=
  hrun.invariant (fun _ e h hok => h.step e hok.1 hok.2) h0.sendInv

/-- 1 as long as our SYN is unacknowledged: it takes a number, and nothing has been accepted. -/
def synBit (c : Conn) : ℕ := if c.accepted = [] ∧ c.t.sndUna = c.t.iss then 1 else 0

/-- The send side is sound: the sequence variables are in order, the ring is not overfull, and each
transmitted byte is the accepted byte its number says. -/
structure SendOK (c : Conn) : Prop where
  room : c.t.snd.len ≤ sndbufSize
  sent : Serial.le c.t.sndUna c.t.sndNxt
  bounded : Serial.le c.t.sndNxt (add c.t.sndUna (c.t.snd.len + finBit c.t + synBit c))
  bytes : ∀ g ∈ c.log, ∀ i b, g.data[i]? = some b → ∃ k, Stands (add g.seq i) (c.t.iss + 1 + k) ∧ c.accepted[k]? = some b

theorem Handshake.sendOK (h : Handshake c.accepted c.t) (hlog : Pieces c.accepted c.t.iss c.log) : SendOK c := by
  have hiss : Stands c.t.sndUna c.t.iss := by rw [h.una]; exact (Nat.mod_eq_of_lt h.num).symm
  have hbit : synBit c = 1 := by simp [synBit, h.none, h.una]
  refine ⟨by rw [h.empty]; exact Nat.zero_le _, ?_, ?_, ?_⟩
  · rw [hiss.le_iff h.nxt (by unfold half; omega) (by unfold half; omega)]
    omega
  · rw [h.nxt.le_iff (hiss.add _) (by unfold half; omega)
      (by have := finBit_le c.t; rw [h.empty, hbit]; unfold half; omega), hbit]
    omega
  · intro g hg i b hb
    obtain hd | ⟨off, hs⟩ := hlog g hg
    · rw [hd] at hb
      cases hb
    · -- nothing has been accepted, so there is no piece with a byte in it
      have hw := hs.within
      rw [h.none, length_nil] at hw
      have hi := (List.getElem?_eq_some_iff.1 hb).1
      omega

theorem Sending.sendOK {a k f : ℕ} (h : Sending c.accepted c.t a k f) (hlog : Pieces c.accepted c.t.iss c.log) : SendOK c := by
  have hacked := h.acked_le
  have hsp := h.spread
  have hlen := h.len
  have hwithin := h.within
  have hsyn : synBit c ≤ 1 := by
    unfold synBit
    split <;> omega
  refine ⟨h.room, ?_, ?_, ?_⟩
  · rw [h.una.le_iff h.nxt (by unfold half; omega) (by unfold half; omega)]
    omega
  · have hb := finBit_le c.t
    rw [h.nxt.le_iff (h.una.add _) (by unfold half; omega) (by unfold half; omega)]
    omega
  · intro g hg i b hb
    obtain hd | ⟨off, hs⟩ := hlog g hg
    · rw [hd] at hb
      cases hb
    · refine ⟨off + i, ?_, ?_⟩
      · rw [← add_assoc]
        exact hs.num.add i
      · obtain ⟨rest, hrest⟩ := hs.bytes
        rw [← List.getElem?_drop, ← hrest, List.getElem?_append_left (List.getElem?_eq_some_iff.1 hb).1]
        exact hb

/-- **Send integrity**: in every run in which our SYN is acknowledged before the handshake ends. -/
theorem send_integrity_run (c : Conn) (es : List (ℕ × Event)) (h0 : SynOut c)
    (hrun : Valid step (fun c e => SendRun c e ∧ SynAckedEvent c e) c es) : SendOK (final step c es) := by
  have h := SendInv.run h0 hrun
  obtain hh | ⟨-, -, a, k, f, hs, -⟩ := h.tx.phase
  · exact hh.sendOK h.log
  · exact hs.sendOK h.log

/-- A block for a SYN with the number 2000. -/
def childConn : Conn :=
  ⟨passiveOpen 0 1000 1 2 80 5000 0 ⟨2000, 0, { syn := true }, 8192, 0, []⟩ blankTcb, [], [], [], false⟩

/-- The client's answer acknowledges `ack`, then two bytes are sent without delay. -/
def answerRun (ack : ℕ) : List (ℕ × Event) :=
  [(0, .segment ⟨2001, ack, { ack := true }, 8192, 0, []⟩), (0, .nodelay true), (0, .send [1, 2]), (0, .flush), (0, .flush)]

/-- A handshake that is completed, and two bytes. -/
theorem send_integrity_run_answered : SendOK (final step childConn (answerRun 1001)) := by
  refine send_integrity_run childConn (answerRun 1001) (synOut_passiveOpen ..)
    ⟨⟨?_, ?_⟩, ⟨rfl, trivial⟩, ⟨rfl, trivial⟩, ⟨rfl, trivial⟩, ⟨rfl, trivial⟩, trivial⟩
  · exact ⟨by decide, by decide⟩
  · intro _ _ _
    decide

/-- The client acknowledges `iss` and not the SYN: the second byte goes out with the number of the
first. -/
theorem unacked_syn_shifts_stream :
    ¬ ∀ (c : Conn) (es : List (ℕ × Event)), SynOut c → Valid step SendRun c es → SendOK (final step c es) := by
  intro h
  have hok := h childConn (answerRun 1000) (synOut_passiveOpen ..) ⟨⟨by decide, by decide⟩, rfl, rfl, rfl, rfl, trivial⟩
  have hlog : (final step childConn (answerRun 1000)).log.map (fun g => (g.seq, g.data)) = [(1000, []), (1001, [2])] ∧
      (final step childConn (answerRun 1000)).accepted = [1, 2] ∧
      (final step childConn (answerRun 1000)).t.iss = 1000 := by
    decide
  obtain ⟨hlog, hacc, hiss⟩ := hlog
  obtain ⟨g, hg, he⟩ := mem_map.1 (hlog ▸ mem_cons_of_mem _ mem_cons_self :
    ((1001, [2]) : ℕ × List UInt8) ∈ (final step childConn (answerRun 1000)).log.map fun g => (g.seq, g.data))
  rw [Prod.mk.injEq] at he
  obtain ⟨k, hk, hb⟩ := hok.bytes g hg 0 2 (by rw [he.2]; rfl)
  have hlt : k < 2 := (List.getElem?_eq_some_iff.1 hb).1
  have hk0 : k = 0 := by
    unfold Stands Serial.add size at hk
    omega
  rw [hk0] at hb
  revert hb
  decide

end NeoOS.Tcp
