import NeoOS.Proof.TcpState

/-!
# The send stream

`A` are the bytes `tcp_send` has accepted; byte `k` has the sequence number `iss + 1 + k`, and
the FIN the number behind the last one. Once our SYN is acknowledged, `Sending A t a s f` says
where a block stands: `a` bytes (and the FIN, if `f = 1`) are acknowledged, `s` bytes are sent,
and the ring holds the bytes from `a` on. Before that, `Handshake` holds. Every staged segment
with data is a piece of `A`.
-/

namespace NeoOS.Tcp

open List RingBuf
open Serial (Slice Stands add half size sub)

variable {window fuel n a k f : ℕ} {A data : List UInt8} {B : ℕ → Prop} {q : List Seg} {s : Seg} {t t' u : Tcb}

/-! ## What the send side does not notice -/

/-- What the send stream depends on. -/
structure Tx where
  snd : RingBuf UInt8
  sndUna : ℕ
  sndNxt : ℕ
  finSent : FinSent
  iss : ℕ
  shutWr : Bool

def Tcb.tx (t : Tcb) : Tx := ⟨t.snd, t.sndUna, t.sndNxt, t.finSent, t.iss, t.shutWr⟩

/-- What decides whether the timer looks at a block. -/
structure Care where
  rtoDeadline : ℕ
  inUse : Bool
  sockGone : Bool
  reclaimed : Bool

def Tcb.care (t : Tcb) : Care := ⟨t.rtoDeadline, t.inUse, t.sockGone, t.reclaimed⟩

/-- Nothing but segments without data has been staged. -/
structure Quiet (t t' : Tcb) : Prop where
  tx : t'.tx = t.tx
  care : t'.care = t.care
  txq : ∃ q, t'.txq = t.txq ++ q ∧ ∀ g ∈ q, g.data = []

variable (now : ℕ)

theorem Quiet.of_eq (htx : t'.tx = t.tx) (hcare : t'.care = t.care) (hq : t'.txq = t.txq) : Quiet t t' :=
  ⟨htx, hcare, [], by rw [hq, append_nil], by simp⟩

theorem Quiet.refl (t : Tcb) : Quiet t t := .of_eq rfl rfl rfl

theorem Quiet.trans (h1 : Quiet t u) (h2 : Quiet u t') : Quiet t t' := by
  obtain ⟨q1, e1, hq1⟩ := h1.txq
  obtain ⟨q2, e2, hq2⟩ := h2.txq
  refine ⟨h2.tx.trans h1.tx, h2.care.trans h1.care, q1 ++ q2, by rw [e2, e1, append_assoc], ?_⟩
  intro g hg
  exact (mem_append.1 hg).elim (hq1 g) (hq2 g)

theorem tx_txQueue (t : Tcb) (s : Seg) : (txQueue t s).tx = t.tx := by
  obtain ⟨q, e, -⟩ := txQueue_shape t s
  rw [e]
  rfl

theorem quiet_txQueue (t : Tcb) (hs : s.data = []) : Quiet t (txQueue t s) := by
  obtain ⟨q, h, hq⟩ := txQueue_shape t s
  rw [h]
  exact ⟨rfl, rfl, q, rfl, fun g hg => (hq g hg).2.1.trans hs⟩

theorem quiet_sendFlags (t : Tcb) (fl : Flags) (seq : ℕ) : Quiet t (sendFlags t fl seq) := quiet_txQueue t rfl

theorem quiet_sendAck (t : Tcb) : Quiet t (sendAck t) := quiet_txQueue t rfl

theorem quiet_segWindow (s : Seg) (t : Tcb) : Quiet t (segWindow now s t) := by
  unfold segWindow
  split
  · exact .of_eq rfl rfl rfl
  · exact .refl t

theorem quiet_segData (s : Seg) (t : Tcb) : Quiet t (segData now s t) := by
  obtain ⟨b, m, r, d, q, hq, h⟩ := segData_shape now s t
  rw [h]
  exact ⟨rfl, rfl, q, rfl, hq⟩

theorem quiet_finState (t : Tcb) : Quiet t (finState now t) := by
  unfold finState
  split <;> exact .of_eq rfl rfl rfl

theorem quiet_segFin (s : Seg) (t : Tcb) : Quiet t (segFin now s t) := by
  unfold segFin
  split
  · have h1 : Quiet t { t with finRcvd := true, rcvNxt := add t.rcvNxt 1 } := .of_eq rfl rfl rfl
    exact h1.trans ((quiet_sendAck _).trans (quiet_finState now _))
  · exact .refl t

theorem quiet_delackFired (t : Tcb) : Quiet t (delackFired now t) := by
  unfold delackFired
  split
  · have h1 : Quiet t { t with delackDeadline := 0 } := .of_eq rfl rfl rfl
    exact h1.trans (quiet_sendAck _)
  · exact .refl t

theorem quiet_tcpRecv (len : ℕ) (t : Tcb) : Quiet t (tcpRecv len t).1 := by
  have h1 : ∀ r, Quiet t { t with rcv := r } := fun r => .of_eq rfl rfl rfl
  obtain h | ⟨-, r, h | h⟩ := tcpRecv_cases len t <;> rw [h]
  · exact .refl t
  · exact h1 r
  · exact (h1 r).trans (quiet_sendAck _)

/-! ## The invariant -/

/-- 1 once the FIN is out. -/
def finBit (t : Tcb) : ℕ := if t.finSent = .sent then 1 else 0

/-- The SYN is acknowledged; `a` bytes and the FIN (`f`) are, `k` bytes are sent. -/
structure Sending (A : List UInt8) (t : Tcb) (a k f : ℕ) : Prop where
  order : a ≤ k
  within : k ≤ A.length
  room : t.snd.len ≤ sndbufSize
  len : a + t.snd.len = A.length
  ring : t.snd.contents sndbufSize = A.drop a
  una : Stands t.sndUna (t.iss + 1 + a + f)
  nxt : Stands t.sndNxt (t.iss + 1 + k + finBit t)
  fin : t.finSent = .sent → k = A.length
  finAcked : f = 0 ∨ f = 1 ∧ t.finSent = .sent ∧ a = A.length

/-- The timer does not retransmit on this block. -/
def Mute (t : Tcb) : Prop := t.rtoDeadline = 0 ∨ t.inUse = false ∨ t.sockGone ∧ t.reclaimed = false

/-- The SYN is out and not acknowledged; nothing can have been accepted. -/
structure Handshake (A : List UInt8) (t : Tcb) : Prop where
  none : A = []
  empty : t.snd.len = 0
  una : t.sndUna = t.iss
  num : t.iss < size
  nxt : Stands t.sndNxt (t.iss + 1)
  fin : t.finSent ≠ .sent
  state : t.state = .synSent ∨ t.state = .synReceived ∨ t.state = .closed ∧ Mute t

/-- Segments with data are pieces of the stream. -/
def Pieces (A : List UInt8) (iss : ℕ) (q : List Seg) : Prop :=
  ∀ g ∈ q, g.data = [] ∨ ∃ off, Slice A (iss + 1) off g.seq g.data

/-- The SYN is acknowledged, in one of the states after the handshake; `B` holds of what the peer
has acknowledged. -/
def Past (A : List UInt8) (B : ℕ → Prop) (t : Tcb) : Prop :=
  t.state ≠ .synSent ∧ t.state ≠ .synReceived ∧ ∃ a k f, Sending A t a k f ∧ B (a + f)

/-- Marks that go together: a FIN follows a shutdown, and a block is given back once. -/
structure Marks (t : Tcb) : Prop where
  shut : t.finSent ≠ .no → t.shutWr
  slot : t.reclaimed → t.inUse = false

/-- The invariant of a block. -/
structure TxInv (A : List UInt8) (B : ℕ → Prop) (t : Tcb) : Prop where
  phase : Handshake A t ∨ Past A B t
  marks : Marks t
  pieces : Pieces A t.iss t.txq

/-- The invariant after the handshake. -/
structure PastInv (A : List UInt8) (B : ℕ → Prop) (t : Tcb) : Prop where
  past : Past A B t
  marks : Marks t
  pieces : Pieces A t.iss t.txq

theorem PastInv.txInv (h : PastInv A B t) : TxInv A B t := ⟨.inr h.past, h.marks, h.pieces⟩

theorem Sending.congr (h : Sending A t a k f) (htx : t'.tx = t.tx) : Sending A t' a k f := by
  obtain ⟨hsnd, huna, hnxt, hfin, hiss, -⟩ := Tx.mk.inj htx
  have hbit : finBit t' = finBit t := by unfold finBit; rw [hfin]
  exact ⟨h.order, h.within, hsnd ▸ h.room, hsnd ▸ h.len, hsnd ▸ h.ring, by rw [huna, hiss]; exact h.una,
    by rw [hnxt, hiss, hbit]; exact h.nxt, fun hs => h.fin (hfin ▸ hs), hfin ▸ h.finAcked⟩

theorem Handshake.congr (h : Handshake A t) (htx : t'.tx = t.tx)
    (hstate : t'.state = .synSent ∨ t'.state = .synReceived ∨ t'.state = .closed ∧ Mute t') : Handshake A t' := by
  obtain ⟨hsnd, huna, hnxt, hfin, hiss, -⟩ := Tx.mk.inj htx
  exact ⟨h.none, hsnd ▸ h.empty, by rw [huna, hiss]; exact h.una, hiss ▸ h.num, by rw [hnxt, hiss]; exact h.nxt,
    hfin ▸ h.fin, hstate⟩

theorem Mute.congr (h : Mute t) (hc : t'.care = t.care) : Mute t' := by
  obtain ⟨h1, h2, h3, h4⟩ := Care.mk.inj hc
  unfold Mute at *
  rwa [h1, h2, h3, h4]

theorem Handshake.quiet (h : Handshake A t) (hq : Quiet t t') (hstate : t'.state = t.state) : Handshake A t' :=
  h.congr hq.tx (hstate ▸ h.state.imp id (Or.imp id fun hc => ⟨hc.1, hc.2.congr hq.care⟩))

theorem Pieces.quiet (h : Pieces A t.iss t.txq) (hq : Quiet t t') : Pieces A t'.iss t'.txq := by
  obtain ⟨q, e, hd⟩ := hq.txq
  rw [show t'.iss = t.iss from congrArg Tx.iss hq.tx, e]
  intro g hg
  exact (mem_append.1 hg).elim (h g) fun hg => .inl (hd g hg)

theorem Pieces.txQueue (h : Pieces A t.iss t.txq) (hs : s.data = [] ∨ ∃ off, Slice A (t.iss + 1) off s.seq s.data) :
    Pieces A (txQueue t s).iss (txQueue t s).txq := by
  obtain ⟨q, e, hq⟩ := txQueue_shape t s
  rw [e]
  intro g hg
  obtain hg | hg := mem_append.1 hg
  · exact h g hg
  · obtain ⟨h1, h2, -⟩ := hq g hg
    rwa [h1, h2]

theorem Pieces.append (h : Pieces A n q) (more : List UInt8) : Pieces (A ++ more) n q := by
  intro g hg
  obtain h | ⟨off, h⟩ := h g hg
  · exact .inl h
  · exact .inr ⟨off, h.append more⟩

theorem Past.quiet (h : Past A B t) (hq : Quiet t t') (hm : Moves t.state t'.state) : Past A B t' := by
  obtain ⟨h1, h2, a, k, f, hs, hB⟩ := h
  exact ⟨hm.ne_synSent h1, hm.ne_synReceived h1 h2, a, k, f, hs.congr hq.tx, hB⟩

theorem Past.congr (h : Past A B t) (hs : t'.state = t.state) (htx : t'.tx = t.tx) : Past A B t' := by
  obtain ⟨h1, h2, a, k, f, hse, hB⟩ := h
  exact ⟨hs ▸ h1, hs ▸ h2, a, k, f, hse.congr htx, hB⟩

/-! ## Where a block stands -/

theorem finBit_le (t : Tcb) : finBit t ≤ 1 := by
  unfold finBit
  split <;> omega

section Sends

variable (h : Sending A t a k f)
include h

theorem Sending.acked_le : a + f ≤ k + finBit t := by
  have := h.order
  obtain hf | ⟨hf, hs, -⟩ := h.finAcked
  · omega
  · simp only [finBit, hs, if_true]
    omega

theorem Sending.spread : k + finBit t ≤ a + t.snd.len + 1 ∧ t.snd.len ≤ 32768 := by
  have h1 := h.within
  have h2 := h.len
  have h3 := h.room
  have h4 := finBit_le t
  unfold sndbufSize at h3
  omega

theorem Sending.inFlight : sub t.sndNxt t.sndUna = k + finBit t - (a + f) := by
  have h1 := h.acked_le
  have h2 := h.spread
  rw [h.nxt.sub h.una (by omega) (by unfold size; omega)]
  omega

theorem Sending.beforeFin (hns : t.finSent ≠ .sent) : f = 0 ∧ Stands t.sndNxt (t.iss + 1 + k) := by
  have hnxt := h.nxt
  rw [show finBit t = 0 by simp [finBit, hns]] at hnxt
  exact ⟨h.finAcked.resolve_right fun hf => hns hf.2.1, hnxt⟩

/-- As long as something is unsent, the FIN is not out. -/
theorem Sending.unsent (hlt : sub t.sndNxt t.sndUna < t.snd.len) :
    t.finSent ≠ .sent ∧ f = 0 ∧ sub t.sndNxt t.sndUna = k - a := by
  have hin := h.inFlight
  have hlen := h.len
  have hns : t.finSent ≠ .sent := by
    intro hs
    have hk := h.fin hs
    have hb : finBit t = 1 := by simp [finBit, hs]
    obtain hf | ⟨hf, -, ha⟩ := h.finAcked
    · omega
    · omega
  have hb : finBit t = 0 := by simp [finBit, hns]
  have hf := (h.beforeFin hns).1
  exact ⟨hns, hf, by omega⟩

theorem Sending.slice {seq : ℕ} (off : ℕ) (hn : off + n ≤ t.snd.len)
    (hseq : Stands seq (t.iss + 1 + (a + off))) : Slice A (t.iss + 1) (a + off) seq (t.snd.peek sndbufSize off n) := by
  have hlen := h.len
  refine ⟨hseq, ?_, ?_⟩
  · rw [length_peek]
    omega
  · rw [peek_eq hn, h.ring, drop_drop]
    exact take_prefix _ _

end Sends

/-! ## Output -/

theorem outputSize_le (h : outputSize window t = some n) :
    sub t.sndNxt t.sndUna < t.snd.len ∧ n ≤ t.snd.len - sub t.sndNxt t.sndUna := by
  unfold outputSize at h
  simp only at h
  split at h
  · cases h
  split at h
  · cases h
  split at h
  · cases h
  split at h
  · cases h
  · cases h
    omega

theorem Sending.outputData (h : Sending A t a k f) (hlt : sub t.sndNxt t.sndUna < t.snd.len)
    (hn : n ≤ t.snd.len - sub t.sndNxt t.sndUna) (hp : Pieces A t.iss t.txq) :
    Sending A (outputData now n t) a (k + n) f ∧ Pieces A (outputData now n t).iss (outputData now n t).txq := by
  obtain ⟨hns, hf, hin⟩ := h.unsent hlt
  have hb : finBit t = 0 := by simp [finBit, hns]
  have horder := h.order
  have hlen := h.len
  have hnxt := (h.beforeFin hns).2
  -- the bytes staged are those behind the ones already sent
  have hslice : Slice A (t.iss + 1) k t.sndNxt (dataSeg n t).data := by
    have hoff : a + sub t.sndNxt t.sndUna = k := by omega
    have := h.slice (sub t.sndNxt t.sndUna) (n := n) (by omega) (by rw [hoff]; exact hnxt)
    rwa [hoff] at this
  obtain ⟨q, r, d, hq, e⟩ := outputData_shape now n t
  rw [e]
  constructor
  · refine { h with order := by omega, within := by omega, nxt := ?_, fin := fun hs => absurd hs hns }
    show Stands (add t.sndNxt n) (t.iss + 1 + (k + n) + finBit t)
    rw [hb, add_zero, ← add_assoc]
    exact hnxt.add n
  · intro g hg
    obtain hg | hg := mem_append.1 hg
    · exact hp g hg
    · obtain ⟨h1, h2, -⟩ := hq g hg
      exact .inr ⟨k, by rw [h1, h2]; exact hslice⟩

theorem Sending.outputLoop {now : ℕ} (fuel : ℕ) : ∀ t k, Sending A t a k f → Pieces A t.iss t.txq →
    ∃ k', k ≤ k' ∧ Sending A (outputLoop now window fuel t) a k' f ∧
      Pieces A (outputLoop now window fuel t).iss (outputLoop now window fuel t).txq := by
  induction fuel with
  | zero => intro t k h hp; exact ⟨k, le_refl _, h, hp⟩
  | succ fuel ih =>
    intro t k h hp
    unfold Tcp.outputLoop
    split
    · exact ⟨k, le_refl _, h, hp⟩
    · rename_i m hm
      obtain ⟨hlt, hle⟩ := outputSize_le hm
      obtain ⟨h', hp'⟩ := h.outputData now hlt hle hp
      obtain ⟨k', hk, h2, hp2⟩ := ih _ _ h' hp'
      exact ⟨k', by omega, h2, hp2⟩

section

variable (h : Sending A t a k f)
include h

theorem Sending.outputFin (hp : Pieces A t.iss t.txq) :
    Sending A (outputFin now t) a k f ∧ Pieces A (outputFin now t).iss (outputFin now t).txq := by
  obtain e | ⟨q, d, hdue, hall, hq, e⟩ := outputFin_shape now t
  · rw [e]
    exact ⟨h, hp⟩
  have hns : t.finSent ≠ .sent := by rw [hdue]; decide
  obtain ⟨hf, hnxt⟩ := h.beforeFin hns
  -- everything before the FIN has been sent
  have hk : k = A.length := by
    have hsp := h.spread
    have hlen := h.len
    have horder := h.order
    have hend : Stands (add t.sndUna t.snd.len) (t.iss + 1 + a + f + t.snd.len) := h.una.add _
    have := (hnxt.eq_iff hend (by unfold half; omega) (by unfold half; omega)).1 hall
    omega
  rw [e]
  constructor
  · exact { h with nxt := hnxt.add 1, fin := fun _ => hk, finAcked := .inl hf }
  · intro g hg
    exact (mem_append.1 hg).elim (hp g) fun hg => .inl (hq g hg)

theorem Sending.tcpOutput (hp : Pieces A t.iss t.txq) :
    ∃ k', k ≤ k' ∧ Sending A (tcpOutput now t) a k' f ∧ Pieces A (tcpOutput now t).iss (tcpOutput now t).txq := by
  unfold Tcp.tcpOutput
  split
  · obtain ⟨k', hk, h', hp'⟩ := Sending.outputLoop txqMax t k h hp
    obtain ⟨h2, hp2⟩ := h'.outputFin now hp'
    exact ⟨k', hk, h2, hp2⟩
  · exact ⟨k, le_refl _, h, hp⟩

theorem Sending.outstanding_le : outstanding t ≤ t.snd.len := by
  have hin := h.inFlight
  have hlen := h.len
  have hwithin := h.within
  unfold outstanding
  simp only
  split
  · omega
  · rename_i hc
    by_cases hs : t.finSent = .sent
    · have hk := h.fin hs
      have hb : finBit t = 1 := by simp [finBit, hs]
      have hne : sub t.sndNxt t.sndUna ≠ t.snd.len + 1 := fun he => hc ⟨hs, he⟩
      obtain hf | ⟨hf, -, ha⟩ := h.finAcked <;> omega
    · have hb : finBit t = 0 := by simp [finBit, hs]
      omega

/-- Once the FIN is acknowledged nothing is outstanding. -/
theorem Sending.outstanding_fin (ho : outstanding t ≠ 0) : f = 0 := by
  obtain hf | ⟨hf, hs, ha⟩ := h.finAcked
  · exact hf
  · exfalso
    apply ho
    have hin := h.inFlight
    have hk := h.fin hs
    have hb : finBit t = 1 := by simp [finBit, hs]
    have hz : sub t.sndNxt t.sndUna = 0 := by omega
    unfold outstanding
    simp only [hz]
    split <;> omega

end

theorem tx_retransmit (t : Tcb) : (retransmit t).tx = t.tx := by
  unfold retransmit
  split
  · split
    · exact (quiet_sendFlags _ _ _).tx
    · rfl
  · exact tx_txQueue _ _

theorem Sending.retransmit (h : Sending A t a k f) (hp : Pieces A t.iss t.txq) :
    Pieces A (retransmit t).iss (retransmit t).txq := by
  unfold Tcp.retransmit
  split
  · split
    · exact hp.quiet (quiet_sendFlags _ _ _)
    · exact hp
  · rename_i ho
    apply Pieces.txQueue (t := { t with rtt := { t.rtt with rttPending := false } }) hp
    right
    have hle := h.outstanding_le
    have hf := h.outstanding_fin ho
    refine ⟨a + 0, h.slice 0 (by omega) ?_⟩
    have := h.una
    rwa [hf] at this

/-! ## Acknowledgements -/

theorem Marks.quiet (h : Marks t) (hq : Quiet t t') : Marks t' := by
  obtain ⟨-, -, -, h1, -, h2⟩ := Tx.mk.inj hq.tx
  obtain ⟨-, h4, -, h3⟩ := Care.mk.inj hq.care
  exact ⟨by rw [h1, h2]; exact h.shut, by rw [h3, h4]; exact h.slot⟩

theorem Marks.same (h : Marks t) (hs : Same t t') (hfin : t'.finSent ≠ .no → t.finSent ≠ .no) : Marks t' := by
  have h2 : t'.shutWr = t.shutWr := congrArg Ctl.shutWr hs.2
  have h3 : t'.reclaimed = t.reclaimed := congrArg Ctl.reclaimed hs.2
  have h4 : t'.inUse = t.inUse := congrArg Ctl.inUse hs.2
  exact ⟨fun hf => h2 ▸ h.shut (hfin hf), by rw [h3, h4]; exact h.slot⟩

theorem Marks.resent (h : Marks t) (hs : Same t t') (htx : t'.tx = t.tx) : Marks t' := by
  have hfin : t'.finSent = t.finSent := congrArg Tx.finSent htx
  exact h.same hs (hfin ▸ id)

theorem PastInv.quiet (h : PastInv A B t) (hq : Quiet t t') (hm : Moves t.state t'.state) : PastInv A B t' :=
  ⟨h.past.quiet hq hm, h.marks.quiet hq, h.pieces.quiet hq⟩

theorem TxInv.quiet (h : TxInv A B t) (hq : Quiet t t') (hs : t'.state = t.state) : TxInv A B t' :=
  ⟨h.phase.imp (fun hh => hh.quiet hq hs) fun hp => hp.quiet hq (by rw [hs]), h.marks.quiet hq, h.pieces.quiet hq⟩

theorem outputLoop_keeps (now window fuel : ℕ) : ∀ t, (outputLoop now window fuel t).finSent = t.finSent ∧
    (outputLoop now window fuel t).sndUna = t.sndUna := by
  induction fuel with
  | zero => exact fun _ => ⟨rfl, rfl⟩
  | succ fuel ih =>
    intro t
    unfold outputLoop
    split
    · exact ⟨rfl, rfl⟩
    · rename_i m _
      obtain ⟨q, r, d, -, e⟩ := outputData_shape now m t
      rw [(ih _).1, (ih _).2, e]
      exact ⟨rfl, rfl⟩

theorem finSent_tcpOutput (t : Tcb) (h : (tcpOutput now t).finSent ≠ .no) : t.finSent ≠ .no := by
  unfold tcpOutput at h
  split at h
  · obtain e | ⟨q, d, hdue, -, -, e⟩ := outputFin_shape now (outputLoop now (min t.sndWnd t.cc.cwnd) txqMax t)
    · rwa [e, (outputLoop_keeps _ _ _ t).1] at h
    · rw [(outputLoop_keeps _ _ _ t).1] at hdue
      rw [hdue]
      decide
  · exact h

theorem PastInv.tcpOutput (h : PastInv A B t) : PastInv A B (tcpOutput now t) := by
  obtain ⟨h1, h2, a, k, f, hs, hB⟩ := h.past
  obtain ⟨k', -, hs', hp'⟩ := hs.tcpOutput now h.pieces
  have hsame := same_tcpOutput now t
  exact ⟨⟨by rw [hsame.state]; exact h1, by rw [hsame.state]; exact h2, a, k', f, hs', hB⟩,
    h.marks.same hsame (finSent_tcpOutput now t), hp'⟩

/-- How many bytes an acknowledgement takes out of the ring. -/
def dataAcked (s : Seg) (t : Tcb) : ℕ :=
  if t.finSent = .sent ∧ Serial.ge s.ack (add t.sndUna (t.snd.len + 1)) then t.snd.len else sub s.ack t.sndUna

theorem segAcked_shape (s : Seg) (t : Tcb) : ∃ c r d, segAcked now s t =
      { t with sndUna := s.ack, snd := t.snd.skip sndbufSize (dataAcked s t), retries := 0, persistShift := 0, cc := c,
               rtt := r, rtoDeadline := d } := by
  unfold segAcked
  simp only
  split <;> exact ⟨_, _, _, rfl⟩

theorem Sending.skip {d f' : ℕ} (h : Sending A t a k f) (hd : a + d ≤ k) (hsnd : t'.snd = t.snd.skip sndbufSize d)
    (huna : Stands t'.sndUna (t.iss + 1 + (a + d) + f')) (hnxt : t'.sndNxt = t.sndNxt) (hfin : t'.finSent = t.finSent)
    (hiss : t'.iss = t.iss) (hf' : f' = 0 ∨ f' = 1 ∧ t.finSent = .sent ∧ a + d = A.length) :
    Sending A t' (a + d) k f' := by
  have hlen := h.len
  have hwithin := h.within
  have hroom := h.room
  have hskip : t'.snd.len = t.snd.len - d := by rw [hsnd]; rfl
  have hbit : finBit t' = finBit t := by unfold finBit; rw [hfin]
  refine ⟨hd, hwithin, by omega, by omega, ?_, by rwa [hiss], ?_, by rw [hfin]; exact h.fin, by rwa [hfin]⟩
  · rw [hsnd, contents_skip, h.ring, drop_drop]
  · rw [hnxt, hiss, hbit]
    exact h.nxt

/-- **An acknowledgement** moves the front of the ring by the bytes it covers. -/
theorem Sending.segAcked (h : Sending A t a k f) (hgt : Serial.gt s.ack t.sndUna)
    (hle : Serial.le s.ack t.sndNxt) (hwf : s.ack < size) :
    ∃ a' f', a' + f' = a + f + sub s.ack t.sndUna ∧ Sending A (segAcked now s t) a' k f' := by
  have hpos : Stands s.ack (t.iss + 1 + a + f + sub s.ack t.sndUna) := h.una.of_sub hwf
  have hsp := h.spread
  have hacked := h.acked_le
  have hd : 0 < sub s.ack t.sndUna ∧ sub s.ack t.sndUna < half := by
    simp only [Serial.gt, Bool.and_eq_true, decide_eq_true_eq, bne_iff_ne, ne_eq] at hgt
    omega
  rw [hpos.le_iff h.nxt (by omega) (by unfold half at *; omega)] at hle
  have hlen := h.len
  -- the FIN is not acknowledged yet, or nothing would be left to acknowledge
  have hf : f = 0 := by
    obtain hf | ⟨hf, hs, ha⟩ := h.finAcked
    · exact hf
    · have hb := finBit_le t
      omega
  have hge : Serial.ge s.ack (add t.sndUna (t.snd.len + 1)) ↔ t.snd.len + 1 ≤ sub s.ack t.sndUna := by
    rw [hpos.ge_iff (h.una.add (t.snd.len + 1)) (by unfold half at *; omega) (by unfold half at *; omega)]
    omega
  obtain ⟨c, r, d, e⟩ := segAcked_shape now s t
  by_cases hall : t.finSent = .sent ∧ t.snd.len + 1 ≤ sub s.ack t.sndUna
  · -- all the data and the FIN
    have hb : finBit t = 1 := by simp [finBit, hall.1]
    have hk := h.fin hall.1
    have hda : dataAcked s t = t.snd.len := by
      unfold dataAcked
      rw [if_pos ⟨hall.1, hge.2 hall.2⟩]
    refine ⟨a + t.snd.len, 1, by omega, h.skip (by omega) ?_ ?_ ?_ ?_ ?_ (.inr ⟨rfl, hall.1, hlen⟩)⟩ <;> rw [e]
    · rw [hda]
    · have : t.iss + 1 + (a + t.snd.len) + 1 = t.iss + 1 + a + f + sub s.ack t.sndUna := by omega
      rwa [this]
  · have hda : dataAcked s t = sub s.ack t.sndUna := by
      unfold dataAcked
      rw [if_neg fun hc => hall ⟨hc.1, hge.1 hc.2⟩]
    have hle' : a + sub s.ack t.sndUna ≤ k := by
      by_cases hs : t.finSent = .sent
      · have hk := h.fin hs
        have : ¬ t.snd.len + 1 ≤ sub s.ack t.sndUna := fun hc => hall ⟨hs, hc⟩
        omega
      · have hb : finBit t = 0 := by simp [finBit, hs]
        omega
    refine ⟨a + sub s.ack t.sndUna, 0, by omega, h.skip hle' ?_ ?_ ?_ ?_ ?_ (.inl rfl)⟩ <;> rw [e]
    · rw [hda]
    · have : t.iss + 1 + (a + sub s.ack t.sndUna) + 0 = t.iss + 1 + a + f + sub s.ack t.sndUna := by omega
      rwa [this]

/-- Segments whose numbers have 32 bits. -/
def Seg.WF (s : Seg) : Prop := s.seq < size ∧ s.ack < size

/-- `B` also holds of what the segment newly acknowledges. -/
def Grants (B : ℕ → Prop) (s : Seg) (t : Tcb) : Prop :=
  Serial.gt s.ack t.sndUna = true → Serial.le s.ack t.sndNxt →
    ∀ m, Stands t.sndUna (t.iss + 1 + m) → B m → B (m + sub s.ack t.sndUna)

theorem grants_of_eq (h : s.ack = t.sndUna) : Grants B s t := by
  intro hgt
  simp only [Serial.gt, Bool.and_eq_true, decide_eq_true_eq, bne_iff_ne, ne_eq] at hgt
  unfold sub size half at hgt
  omega

theorem PastInv.segAck (h : PastInv A B t) (hwf : s.WF) (hg : Grants B s t) : PastInv A B (segAck now s t) := by
  have hsame := same_segAck now s t
  obtain ⟨h1, h2, a, k, f, hs, hB⟩ := h.past
  rw [← hsame.state] at h1 h2
  suffices hgoal : (∃ a k f, Sending A (Tcp.segAck now s t) a k f ∧ B (a + f)) ∧
      (Tcp.segAck now s t).finSent = t.finSent ∧ Pieces A (Tcp.segAck now s t).iss (Tcp.segAck now s t).txq from
    ⟨⟨h1, h2, hgoal.1⟩, h.marks.same hsame (fun hf => hgoal.2.1 ▸ hf), hgoal.2.2⟩
  unfold Tcp.segAck
  split
  · rename_i hc
    rw [Bool.and_eq_true] at hc
    obtain ⟨a', f', hsum, hs'⟩ := hs.segAcked now hc.1 hc.2 hwf.2
    have hB' : B (a' + f') := hsum ▸ hg hc.1 hc.2 (a + f) (by rw [← add_assoc]; exact hs.una) hB
    obtain ⟨c, r, d, e⟩ := segAcked_shape now s t
    refine ⟨⟨a', k, f', hs', hB'⟩, ?_, ?_⟩ <;> rw [e]
    exact h.pieces
  split
  · simp only
    split
    · -- the third duplicate
      have hcc : ∀ c, Sending A { t with cc := c } a k f := fun c => hs.congr rfl
      exact ⟨⟨a, k, f, (hcc _).congr (tx_retransmit _), hB⟩, congrArg Tx.finSent (tx_retransmit _),
        (hcc _).retransmit h.pieces⟩
    · exact ⟨⟨a, k, f, hs.congr rfl, hB⟩, rfl, h.pieces⟩
  · exact ⟨⟨a, k, f, hs, hB⟩, rfl, h.pieces⟩

/-! ## Segments -/

theorem PastInv.segClose (h : PastInv A B t) : PastInv A B (segClose now t) := by
  have hstate : ∀ u : Tcb, u.tx = t.tx → u.care = t.care → u.txq = t.txq → Moves t.state u.state → PastInv A B u :=
    fun u h1 h2 h3 hm => h.quiet (.of_eq h1 h2 h3) hm
  unfold Tcp.segClose
  split
  · rename_i hc
    apply PastInv.tcpOutput
    split
    · exact hstate _ rfl rfl rfl (by rw [hc.1]; exact .one .finAckedFinRcvd)
    · exact hstate _ rfl rfl rfl (by rw [hc.1]; exact .one .finAcked)
  split
  · rename_i hc
    apply PastInv.tcpOutput
    exact hstate _ rfl rfl rfl (by rw [hc.1]; exact .one .closedBoth)
  split
  · obtain ⟨-, -, a, k, f, hs, hB⟩ := h.past
    exact ⟨⟨State.noConfusion, State.noConfusion, a, k, f, hs.congr rfl, hB⟩, ⟨h.marks.shut, h.marks.slot⟩, h.pieces⟩
  · exact h.tcpOutput now

theorem PastInv.segTail (s : Seg) (h : PastInv A B t) :
    PastInv A B (Tcp.segClose now (segFin now s (segData now s (segWindow now s t)))) := by
  apply PastInv.segClose
  have h1 := h.quiet (quiet_segWindow now s t) (moves_of_same (same_segWindow now s t))
  have h2 := h1.quiet (quiet_segData now s _) (by rw [state_segData])
  exact h2.quiet (quiet_segFin now s _) (moves_segFin now s _)

theorem PastInv.segRest (h : PastInv A B t) (hwf : s.WF) (hg : Grants B s t) : PastInv A B (segRest now s t) :=
  (h.segAck now hwf hg).segTail now s

theorem Handshake.past (h : Handshake A t) (hsnd : t'.snd.len = 0) (huna : t'.sndUna = add t.iss 1)
    (hnxt : t'.sndNxt = t.sndNxt) (hfin : t'.finSent = t.finSent) (hiss : t'.iss = t.iss)
    (hstate : t'.state ≠ .synSent ∧ t'.state ≠ .synReceived) (hB : B 0) : Past A B t' := by
  have hbit : finBit t' = 0 := by simp [finBit, hfin, h.fin]
  have hstart : Stands (add t.iss 1) (t.iss + 1) := by
    have : Stands t.iss t.iss := (Nat.mod_eq_of_lt h.num).symm
    exact this.add 1
  refine ⟨hstate.1, hstate.2, 0, 0, 0, ?_, hB⟩
  rw [h.none]
  refine ⟨le_refl _, le_refl _, by rw [hsnd]; exact Nat.zero_le _, by rw [hsnd]; rfl, ?_, ?_, ?_, fun _ => rfl, .inl rfl⟩
  · exact length_eq_zero_iff.1 (by rw [length_contents, hsnd])
  · rw [huna, hiss]
    exact hstart
  · rw [hnxt, hiss, hbit]
    exact h.nxt

theorem Handshake.ack_cases (h : Handshake A t) (hwf : s.ack < size) (hge : Serial.ge s.ack t.sndUna)
    (hle : Serial.le s.ack t.sndNxt) : s.ack = t.iss ∨ s.ack = add t.iss 1 := by
  have hiss : Stands t.sndUna t.iss := by rw [h.una]; exact (Nat.mod_eq_of_lt h.num).symm
  have hpos : Stands s.ack (t.iss + sub s.ack t.sndUna) := hiss.of_sub hwf
  simp only [Serial.ge, decide_eq_true_eq] at hge
  rw [hpos.le_iff h.nxt (by unfold half at *; omega) (by unfold half at *; omega)] at hle
  have hcases : sub s.ack t.sndUna = 0 ∨ sub s.ack t.sndUna = 1 := by omega
  obtain hd | hd := hcases <;> rw [hd] at hpos
  · left
    rw [hpos]
    exact Nat.mod_eq_of_lt h.num
  · exact .inr hpos

/-- A segment with an acknowledgement does not leave our SYN unacknowledged. -/
def SynAcked (s : Seg) (t : Tcb) : Prop :=
  t.state = .synReceived ∨ t.state = .closed → t.sndUna = t.iss → s.flags.ack → s.ack ≠ t.iss

section Transmit

variable (h : TxInv A B t)
include h

theorem TxInv.closed (htx : t'.tx = t.tx) (hq : t'.txq = t.txq) (hstate : t'.state = .closed)
    (hmute : Mute t') (hslot : t'.reclaimed → t'.inUse = false) : TxInv A B t' := by
  obtain ⟨-, -, -, hfin, hiss, hshut⟩ := Tx.mk.inj htx
  refine ⟨h.phase.imp (fun hh => hh.congr htx (.inr (.inr ⟨hstate, hmute⟩))) ?_,
    ⟨by rw [hfin, hshut]; exact h.marks.shut, hslot⟩, by rw [hiss, hq]; exact h.pieces⟩
  rintro ⟨-, -, a, k, f, hs, hB⟩
  exact ⟨by rw [hstate]; decide, by rw [hstate]; decide, a, k, f, hs.congr htx, hB⟩

theorem TxInv.segRest_closed (hh : Handshake A t) (hc : t.state = .closed) (hwf : s.WF)
    (hne : s.ack ≠ t.iss) (hB : B 0) : TxInv A B (segRest now s t) := by
  by_cases hack : (Serial.gt s.ack t.sndUna && Serial.le s.ack t.sndNxt)
  · -- the SYN is acknowledged after all
    rw [Bool.and_eq_true] at hack
    have hge : Serial.ge s.ack t.sndUna := by
      have := hack.1
      simp only [Serial.gt, Serial.ge, Bool.and_eq_true, decide_eq_true_eq] at this ⊢
      exact this.1
    have hnum := (hh.ack_cases hwf.2 hge hack.2).resolve_left hne
    have he : segAck now s t = segAcked now s t := by
      unfold segAck
      rw [if_pos (by rw [Bool.and_eq_true]; exact hack)]
    obtain ⟨c, r, d, e⟩ := segAcked_shape now s t
    have hsame := same_segAck now s t
    have hpast : PastInv A B (segAck now s t) := by
      refine ⟨hh.past ?_ ?_ ?_ ?_ ?_ ?_ hB, h.marks.same hsame ?_, ?_⟩
      · rw [he, e]
        show t.snd.len - _ = 0
        rw [hh.empty, Nat.zero_sub]
      · rw [he, e]
        exact hnum
      · rw [he, e]
      · rw [he, e]
      · rw [he, e]
      · rw [hsame.state, hc]
        exact ⟨by decide, by decide⟩
      · rw [he, e]
        exact id
      · rw [he, e]
        exact h.pieces
    exact (hpast.segTail now s).txInv
  · -- nothing is acknowledged
    have he : segAck now s t = t := by
      unfold segAck
      rw [if_neg hack, if_neg]
      rintro ⟨hd, -⟩
      exact hne (hd.trans hh.una)
    have h1 : segRest now s t = segClose now (segFin now s (segData now s (segWindow now s t))) := by
      unfold segRest
      rw [he]
    have hq : Quiet t (segFin now s (segData now s (segWindow now s t))) :=
      (quiet_segWindow now s t).trans ((quiet_segData now s _).trans (quiet_segFin now s _))
    have hs1 : (segData now s (segWindow now s t)).state = .closed := by
      rw [state_segData, (same_segWindow now s t).state, hc]
    have hs2 : (segFin now s (segData now s (segWindow now s t))).state = .closed := by
      generalize segData now s (segWindow now s t) = u at hs1
      cases segFin_cases now s u with
      | stay hs => exact hs.trans hs1
      | closeWait h | closing _ h | timeWait h => rw [hs1] at h; cases h
    have h2 : segClose now (segFin now s (segData now s (segWindow now s t))) =
        segFin now s (segData now s (segWindow now s t)) := by
      generalize segFin now s (segData now s (segWindow now s t)) = u at hs2
      simp [segClose, tcpOutput, hs2, State.outputs]
    rw [h1, h2]
    exact h.quiet hq (hs2.trans hc.symm)

theorem TxInv.mono {B' : ℕ → Prop} (hB : ∀ m, B m → B' m) : TxInv A B' t :=
  ⟨h.phase.imp id fun ⟨h1, h2, a, k, f, hs, hb⟩ => ⟨h1, h2, a, k, f, hs, hB _ hb⟩, h.marks, h.pieces⟩

theorem TxInv.established (hst : t.state = .synReceived) (hwf : s.WF) (hsyn : SynAcked s t) (hB : B 0)
    (hack : s.flags.ack) (hrange : (Serial.ge s.ack t.sndUna && Serial.le s.ack t.sndNxt)) :
    PastInv A B (segEstablished s t) := by
  have hh : Handshake A t := h.phase.resolve_right fun hp => hp.2.1 hst
  rw [Bool.and_eq_true] at hrange
  have hnum := (hh.ack_cases hwf.2 hrange.1 hrange.2).resolve_left (hsyn (.inl hst) hh.una hack)
  exact ⟨hh.past hh.empty hnum rfl rfl rfl ⟨State.noConfusion, State.noConfusion⟩ hB, ⟨h.marks.shut, h.marks.slot⟩, h.pieces⟩

/-- **Any segment keeps the invariant**, if it does not leave our SYN unacknowledged. -/
theorem TxInv.segment (hwf : s.WF) (hsyn : SynAcked s t) (hB : B 0)
    (hg : s.flags.ack → Grants B s t) : TxInv A B (tcpSegment now s t).1 := by
  have hshake : t.state = .synSent → Handshake A t := fun hst => h.phase.resolve_right fun hp => hp.1 hst
  -- a segment without data is staged
  have hstaged : ∀ q : List Seg, (∀ g ∈ q, g.data = []) → TxInv A B { t with txq := t.txq ++ q } :=
    fun q hq => h.quiet ⟨rfl, rfl, q, rfl, hq⟩ rfl
  have hm := tcpSegment_move now s t
  generalize tcpSegment now s t = r at hm ⊢
  cases hm with
  | reset => exact h.closed rfl rfl rfl (.inl rfl) h.marks.slot
  | ignored => exact h
  | connected hst _ hge hgt r q hq =>
    have hh := hshake hst
    have hnum : s.ack = add t.iss 1 := by
      rw [show t.sndNxt = add t.iss 1 from hh.nxt] at hgt
      simp only [Serial.ge, Serial.gt, decide_eq_true_eq, Bool.and_eq_true, bne_iff_ne, ne_eq] at hge hgt
      have hw := hwf.2
      unfold sub add size half at *
      omega
    exact ⟨.inr (hh.past hh.empty hnum rfl rfl rfl ⟨State.noConfusion, State.noConfusion⟩ hB),
      ⟨h.marks.shut, h.marks.slot⟩, (hstaged q hq).pieces⟩
  | simultaneous hst _ q hq =>
    exact ⟨.inl ((hshake hst).congr rfl (.inr (.inl rfl))), ⟨h.marks.shut, h.marks.slot⟩, (hstaged q hq).pieces⟩
  | answered q hq => exact hstaged q hq
  | established hst _ hack hrange =>
    have hu := h.established hst hwf hsyn hB hack hrange
    exact (hu.segRest now hwf (grants_of_eq rfl)).txInv
  | rest hns hnr _ hack =>
    obtain hh | hp := h.phase
    · obtain hst | hst | ⟨hst, -⟩ := hh.state
      · exact absurd hst hns
      · exact absurd hst hnr
      · exact h.segRest_closed now hh hst hwf (hsyn (.inr hst) hh.una hack) hB
    · exact (PastInv.segRest now ⟨hp, h.marks, h.pieces⟩ hwf (hg hack)).txInv

/-! ## The timer -/

theorem TxInv.tcpRelease : TxInv A B (tcpRelease t) := by
  unfold Tcp.tcpRelease
  split
  · exact h
  · exact h.closed rfl rfl rfl (.inr (.inl rfl)) fun _ => rfl

/-- Fields of the timers and of the congestion control do not matter, unless a CLOSED block has
to stay mute. -/
theorem TxInv.retime (htx : t'.tx = t.tx) (hs : Same t t') (hq : t'.txq = t.txq)
    (hc : t.state = .closed → Past A B t) : TxInv A B t' := by
  have hiss : t'.iss = t.iss := congrArg Tx.iss htx
  refine ⟨?_, h.marks.resent hs htx, by rw [hiss, hq]; exact h.pieces⟩
  obtain hh | hp := h.phase
  · by_cases hcl : t.state = .closed
    · exact .inr ((hc hcl).congr hs.state htx)
    · refine .inl (hh.congr htx ?_)
      rw [hs.state]
      exact hh.state.imp id (Or.imp id fun hst => absurd hst.1 hcl)
  · exact .inr (hp.congr hs.state htx)

theorem TxInv.rtoResend (hc : t.state = .closed → Past A B t) : TxInv A B (rtoResend t) := by
  unfold Tcp.rtoResend
  split
  · exact h.quiet (quiet_sendFlags _ _ _) (same_sendFlags _ _ _).state
  split
  · exact h.quiet (quiet_sendFlags _ _ _) (same_sendFlags _ _ _).state
  rename_i hn1 hn2
  have hp : Past A B t := by
    obtain hh | hp := h.phase
    · obtain hst | hst | ⟨hst, -⟩ := hh.state
      · exact absurd hst hn1
      · exact absurd hst hn2
      · exact hc hst
    · exact hp
  have hsame := same_retransmit t
  obtain ⟨-, -, a, k, f, hs, -⟩ := id hp
  exact ⟨.inr (hp.congr hsame.state (tx_retransmit t)), h.marks.resent hsame (tx_retransmit t), hs.retransmit h.pieces⟩

/-- The retransmission timer. A CLOSED block whose SYN is unacknowledged is mute. -/
theorem TxInv.rtoCheck (huse : t.inUse)
    (hgone : ¬ (t.sockGone ∧ t.state = .closed ∧ (!t.reclaimed))) : TxInv A B (rtoCheck now t).1 := by
  unfold Tcp.rtoCheck
  split
  swap
  · exact h
  rename_i hfired
  have hc : t.state = .closed → Past A B t := by
    intro hst
    refine h.phase.resolve_left fun hh => ?_
    obtain hs | hs | ⟨-, hm⟩ := hh.state
    · exact State.noConfusion (hst.symm.trans hs)
    · exact State.noConfusion (hst.symm.trans hs)
    · obtain hm | hm | ⟨hm, hr⟩ := hm
      · exact hfired.1 hm
      · exact Bool.noConfusion (huse.symm.trans hm)
      · exact hgone ⟨hm, hst, by rw [hr]; rfl⟩
  unfold rtoFired
  simp only
  split
  · exact h.closed rfl rfl rfl (.inl rfl) h.marks.slot
  · have hb : TxInv A B (rtoBackoff now { t with retries := (t.retries + 1) % 256 }) := h.retime rfl ⟨rfl, rfl⟩ rfl hc
    exact hb.rtoResend fun hst => (hc hst).congr rfl rfl

/-- The zero-window probe: the next byte, or none. -/
theorem TxInv.persistProbe : TxInv A B (persistProbe t) := by
  have hsame := same_persistProbe t
  unfold Tcp.persistProbe at hsame ⊢
  simp only at hsame ⊢
  split
  swap
  · exact h.quiet (quiet_sendFlags _ _ _) (same_sendFlags _ _ _).state
  rename_i hlt
  rw [if_pos hlt] at hsame
  obtain hh | hpast := h.phase
  · rw [hh.empty] at hlt
    exact absurd hlt (Nat.not_lt_zero _)
  obtain ⟨-, -, a, k, f, hs, -⟩ := id hpast
  obtain ⟨hns, hf, hin⟩ := hs.unsent hlt
  have horder := hs.order
  have hoff : a + sub t.sndNxt t.sndUna = k := by omega
  have hnxt : Stands t.sndNxt (t.iss + 1 + (a + sub t.sndNxt t.sndUna)) := by
    rw [hoff]
    exact (hs.beforeFin hns).2
  have hslice : Slice A (t.iss + 1) _ t.sndNxt (t.snd.peek sndbufSize (sub t.sndNxt t.sndUna) 1) :=
    hs.slice (sub t.sndNxt t.sndUna) (by omega) hnxt
  have hp := h.pieces.txQueue
    (s := ⟨t.sndNxt, t.rcvNxt, { ack := true }, advertisedWindow t, 0, t.snd.peek sndbufSize (sub t.sndNxt t.sndUna) 1⟩)
    (.inr ⟨_, hslice⟩)
  have htx := tx_txQueue t ⟨t.sndNxt, t.rcvNxt, { ack := true }, advertisedWindow t, 0,
    t.snd.peek sndbufSize (sub t.sndNxt t.sndUna) 1⟩
  exact ⟨.inr (hpast.congr hsame.state htx), h.marks.resent hsame htx, hp⟩

theorem TxInv.persistFired : TxInv A B (persistFired now t) := by
  unfold Tcp.persistFired
  split
  · have hb : TxInv A B (persistBackoff now t) := h.quiet (.of_eq rfl rfl rfl) rfl
    exact hb.persistProbe
  · exact h

theorem TxInv.tcpTimer : TxInv A B (tcpTimer now t) := by
  have hm := tcpTimer_move now t
  generalize Tcp.tcpTimer now t = r at hm ⊢
  cases hm with
  | idle => exact h
  | ended => exact h.closed rfl rfl rfl (.inl rfl) h.marks.slot
  | released => exact h.closed rfl rfl rfl (.inr (.inl rfl)) fun _ => rfl
  | fired huse hrel _ =>
    exact ((h.rtoCheck now huse hrel).quiet (quiet_delackFired now _) (same_delackFired now _).state).persistFired now

end Transmit

/-! ## The calls -/

theorem TxInv.tcpSend (data : List UInt8) (h : TxInv A B t) :
    TxInv (A ++ taken data (tcpSend now data t).2) B (tcpSend now data t).1 := by
  unfold Tcp.tcpSend
  split
  · simpa [taken] using h
  rename_i hr
  split
  · simpa [taken] using h
  rename_i hsh
  split
  · simpa [taken] using h
  rename_i hst
  rw [not_and_or, not_not, not_not] at hst
  -- the state is ESTABLISHED or CLOSE_WAIT, and no FIN has been asked for
  have hp : Past A B t := by
    refine h.phase.resolve_left fun hh => ?_
    obtain hs | hs | ⟨hs, -⟩ := hh.state <;> obtain hst | hst := hst <;> exact State.noConfusion (hs.symm.trans hst)
  have hno : t.finSent = .no := by
    by_contra hf
    exact hsh (h.marks.shut hf)
  obtain ⟨p1, p2, a, k, f, hs, hB⟩ := hp
  have hns : t.finSent ≠ .sent := by rw [hno]; decide
  have hroom := hs.room
  have hlen := hs.len
  have hwithin := hs.within
  have hn : t.snd.len + (data.take (min data.length (sndbufSize - t.snd.len))).length ≤ sndbufSize := by
    rw [length_take]
    omega
  apply PastInv.txInv
  apply PastInv.tcpOutput
  refine ⟨⟨p1, p2, a, k, f, ?_, hB⟩, ⟨h.marks.shut, h.marks.slot⟩, h.pieces.append _⟩
  refine ⟨hs.order, ?_, ?_, ?_, ?_, hs.una, hs.nxt, fun hf => absurd hf hns, .inl (hs.beforeFin hns).1⟩
  · rw [length_append]
    omega
  · show (t.snd.push sndbufSize _).len ≤ sndbufSize
    rw [len_push]
    exact hn
  · show a + (t.snd.push sndbufSize _).len = _
    rw [len_push, length_append]
    simp only [taken]
    omega
  · show (t.snd.push sndbufSize _).contents sndbufSize = _
    rw [contents_push hn, hs.ring, drop_append_of_le_length (by omega)]
    rfl

theorem TxInv.tcpShutdownWrite (h : TxInv A B t) : TxInv A B (tcpShutdownWrite now t) := by
  unfold Tcp.tcpShutdownWrite
  split
  · exact h
  rename_i hc
  rw [not_or, not_not] at hc
  have hns : t.finSent ≠ .sent := by rw [hc.2]; decide
  have hmarks : Marks (shuttingDown t) := ⟨fun _ => rfl, h.marks.slot⟩
  obtain hh | ⟨p1, p2, a, k, f, hs, hB⟩ := h.phase
  · -- in a handshake the state stays, and nothing is sent
    have hst : shutdownState t.state = t.state ∧ t.state.outputs = false := by
      obtain hs | hs | ⟨hs, -⟩ := hh.state <;> rw [hs] <;> exact ⟨rfl, rfl⟩
    have hout : Tcp.tcpOutput now (shuttingDown t) = shuttingDown t := by
      unfold Tcp.tcpOutput
      rw [show (shuttingDown t).state = t.state from hst.1, hst.2]
      rfl
    rw [hout]
    refine ⟨.inl { hh with fin := FinSent.noConfusion, state := ?_ }, hmarks, h.pieces⟩
    rw [show (shuttingDown t).state = t.state from hst.1]
    exact hh.state
  · apply PastInv.txInv
    apply PastInv.tcpOutput
    have hm : Moves t.state (shuttingDown t).state := (moves_shutdownState t.state).moves
    obtain ⟨hf, hnxt⟩ := hs.beforeFin hns
    exact ⟨⟨hm.ne_synSent p1, hm.ne_synReceived p1 p2, a, k, f,
      { hs with nxt := hnxt, fin := FinSent.noConfusion, finAcked := .inl hf }, hB⟩, hmarks, h.pieces⟩

/-- A block whose socket is closed is mute, given back or not. -/
theorem Marks.mute (h : Marks t) : Mute { t with sockGone := true } := by
  by_cases hr : t.reclaimed
  · exact .inr (.inl (h.slot hr))
  · exact .inr (.inr ⟨rfl, Bool.eq_false_iff.2 hr⟩)

theorem TxInv.sockGone (h : TxInv A B t) : TxInv A B { t with sockGone := true } :=
  ⟨h.phase.imp (fun hh => hh.congr rfl (hh.state.imp id (Or.imp id fun hc => ⟨hc.1, h.marks.mute⟩)))
    (fun hp => hp.congr rfl rfl), ⟨h.marks.shut, h.marks.slot⟩, h.pieces⟩

theorem TxInv.tcpClose (h : TxInv A B t) : TxInv A B (tcpClose now t).1 := by
  have hg := h.sockGone
  have hm := h.marks.mute
  unfold Tcp.tcpClose
  simp only
  split
  · exact hg.tcpShutdownWrite now
  · exact hg.tcpShutdownWrite now
  · exact hg.closed rfl rfl rfl (hm.congr rfl) h.marks.slot
  · exact hg
  · have hq := quiet_sendFlags { t with sockGone := true } { rst := true } t.sndNxt
    have hs := hg.quiet hq (same_sendFlags _ _ _).state
    exact hs.closed rfl rfl rfl (hm.congr hq.care) hs.marks.slot
  · exact hg

end NeoOS.Tcp
