import Mathlib.Data.List.Nodup
import NeoOS.Proof.TcpConform
import NeoOS.Spec.TcpTable

/-!
# Who keeps a connection block

Every block in use belongs to somebody: a socket, the queue of a listener, a listener whose
handshake it is in, or the timer once its socket is gone. `Place` names the owner, and
`TableInv` says that there is an assignment of places that fits the table. An event changes
the place of one block, or of a listener with its queue.

Some exits of the code forget a block; the runs of `Tidy` keep away from them.
-/

namespace NeoOS.Tcp

open List
open Function (update update_apply update_of_ne update_self)

open Relation (ReflTransGen)

variable {now i j l c : ℕ} {s : Seg} {t t' tl : Tcb} {n n' : Table} {e : Event} {D : ℕ → Prop} {f : Tcb → Tcb} {cs q : List ℕ}

/-! ## Slots and their owners -/

/-- Slot `l` has a listener. -/
def Listening (n : Table) (l : ℕ) (tl : Tcb) : Prop := n.tcbs[l]? = some tl ∧ tl.inUse ∧ tl.state = .listen

/-- The listener has an open socket. -/
def LiveListener (n : Table) (l : ℕ) (tl : Tcb) : Prop := Listening n l tl ∧ l ∈ n.socks

/-- Somebody keeps block `i`. -/
inductive Kept (n : Table) (i : ℕ) (t : Tcb) : Prop
  | socket (h : n.socks.count i = 1)
  | queued (l : ℕ) (tl : Tcb) (hl : LiveListener n l tl) (h : tl.acceptQ.count i = 1)
    (hone : ∀ l' tl', LiveListener n l' tl' → i ∈ tl'.acceptQ → l' = l)
  | handshake (l : ℕ) (tl : Tcb) (hl : LiveListener n l tl) (hs : t.state = .synReceived) (hp : t.parent = some l)
  | gone (hg : t.sockGone) (hs : t.state.closes)

/-- Every block in use is kept, and no other is referred to. -/
structure LifetimeOK (n : Table) : Prop where
  kept : ∀ (i : ℕ) (t : Tcb), n.tcbs[i]? = some t → t.inUse → Kept n i t
  once : n.socks.Nodup
  released : ∀ (i : ℕ) (t : Tcb), n.tcbs[i]? = some t → t.inUse = false → i ∉ n.socks ∧ ∀ l tl, LiveListener n l tl →
    i ∉ tl.acceptQ

/-- No slot is in use and there is no socket. -/
structure Empty (n : Table) : Prop where
  free : ∀ t ∈ n.tcbs, t.inUse = false
  socks : n.socks = []

/-- `tcp_close` puts the block on its way to CLOSED. -/
def Closable (t : Tcb) : Prop :=
  t.state ≠ .synReceived ∧ (t.state = .established ∨ t.state = .closeWait → t.shutWr = false ∧ t.finSent = .no)

/-- The segment completes the handshake of a passive open. -/
def completes (s : Seg) (t : Tcb) : Bool :=
  acceptable s t && s.flags.ack && Serial.ge s.ack t.sndUna && Serial.le s.ack t.sndNxt

/-- No timer is armed that could end the state of a listener. -/
def Idle (t : Tcb) : Prop := t.rtoDeadline = 0 ∧ t.establishDeadline = 0 ∧ t.timewaitDeadline = 0

/-- What the runs keep away from. -/
def Tidy (n : Table) (e : ℕ × TableEvent) : Prop :=
  match e.2 with
  | .socket fd => fd = true ∨ tcpAlloc n = none
  -- an accepted block is not connected anew, and no timer of an earlier connection is left
  | .call j (.connect ..) => ∀ i t, n.socks[j]? = some i → n.tcbs[i]? = some t → t.parent = none
  | .call j (.listen _) => ∀ i t, n.socks[j]? = some i → n.tcbs[i]? = some t → Idle t
  | .accept j res => ∀ l tl c t, n.socks[j]? = some l → n.tcbs[l]? = some tl → tl.acceptQ.head? = some c →
      n.tcbs[c]? = some t → match res with | .ok => True | .noSocket | .noFd => Closable t | .noFile => False
  | .close j => ∀ i t, n.socks[j]? = some i → n.tcbs[i]? = some t → Closable t ∧
      (t.state = .listen → ∀ t' ∈ n.tcbs, t'.inUse → t'.state = .synReceived → t'.parent ≠ some i)
  -- a handshake under a listener is not broken off and finds room in the queue
  | .segment i s => ∀ t l tl, n.tcbs[i]? = some t → t.state = .synReceived → t.parent = some l → n.tcbs[l]? = some tl →
      s.flags.rst = false ∧ (completes s t → tl.acceptQ.length < backlogMax)
  | .tick => ∀ t ∈ n.tcbs, t.state = .synReceived → t.parent.isSome → givesUp e.1 t = false
  | _ => True

/-! ## Places -/

inductive Place
  | owned
  | queued (l : ℕ)
  | opening (l : ℕ)
  | gone

/-- A block fits its place. -/
def Place.Fits (t : Tcb) : Place → Prop
  | .owned => t.sockGone = false ∧ (t.state ≠ .listen → t.acceptQ = []) ∧ (t.state = .listen → Idle t) ∧
      (t.state = .synSent ∨ t.state = .synReceived → t.parent = none)
  | .queued _ => t.sockGone = false ∧ t.acceptQ = [] ∧ t.state ≠ .listen ∧ t.state ≠ .synSent ∧ t.state ≠ .synReceived
  | .opening l => t.sockGone = false ∧ t.acceptQ = [] ∧ t.state = .synReceived ∧ t.parent = some l ∧
      t.timewaitDeadline = 0
  | .gone => t.sockGone = true ∧ t.state.closes

variable {place : ℕ → Place} {pl : Place}

theorem Place.Fits.listen (h : pl.Fits t) (hl : t.state = .listen) : pl = .owned := by
  cases pl <;> simp only [Place.Fits] at h <;> grind [State.closes]

/-! ## Owners

What `TableInv` says about ownership depends on the slots in use, the queues of the listeners and the
sockets only. -/

/-- Every slot in use has the owner its place names. -/
structure Owners (used : ℕ → Prop) (queue : ℕ → Option (List ℕ)) (socks : List ℕ) (place : ℕ → Place) : Prop where
  socket : ∀ i, used i → place i = .owned → i ∈ socks
  queued : ∀ i l, used i → place i = .queued l → ∃ q, queue l = some q ∧ i ∈ q
  opening : ∀ i l, used i → place i = .opening l → ∃ q, queue l = some q
  owned : ∀ i ∈ socks, used i ∧ place i = .owned
  once : socks.Nodup
  nodup : ∀ l q, queue l = some q → q.Nodup
  waits : ∀ l q, queue l = some q → ∀ c ∈ q, used c ∧ place c = .queued l

section Owners

variable {used used' : ℕ → Prop} {queue queue' : ℕ → Option (List ℕ)} {socks socks' q : List ℕ}

section Places

variable (h : Owners used queue socks place)
include h

/-- Slots without an owner go out of use, and listeners start with an empty queue. -/
theorem Owners.mono (hout : ∀ i, used' i → used i) (hin : ∀ i, used i → place i ≠ .gone → used' i)
    (hq : ∀ l, queue' l = queue l ∨ queue l = none ∧ queue' l = some []) : Owners used' queue' socks place := by
  obtain ⟨h1, h2, h3, h4, h5, h6, h7⟩ := h
  constructor <;> grind

theorem Owners.alloc (hi : ¬ used i) (hused : ∀ j, used' j ↔ j = i ∨ used j)
    (hs : pl = .owned ∧ socks' = socks ++ [i] ∨ (∃ l q, pl = .opening l ∧ queue l = some q) ∧ socks' = socks) :
    Owners used' queue socks' (update place i pl) := by
  obtain ⟨h1, h2, h3, h4, h5, h6, h7⟩ := h
  constructor <;> grind [update_apply]

theorem Owners.join (hi : used i) (hp : place i = .opening l) (hl : queue l = some q) :
    Owners used (update queue l (some (q ++ [i]))) socks (update place i (.queued l)) := by
  obtain ⟨h1, h2, h3, h4, h5, h6, h7⟩ := h
  constructor <;> grind [update_apply]

theorem Owners.accept (hl : queue l = some (c :: q)) :
    Owners used (update queue l (some q)) (socks ++ [c]) (update place c .owned) := by
  have hc := h.waits l _ hl c mem_cons_self
  obtain ⟨h1, h2, h3, h4, h5, h6, h7⟩ := h
  constructor <;> grind [update_apply]

/-- The slots `D` lose their owner: a socket that is closed and, if it listens, its queue. -/
theorem Owners.drop [DecidablePred D] (hj : socks[j]? = some i) (hDi : D i)
    (hD : ∀ k, D k → k = i ∨ place k = .queued i) (hout : ∀ k, used' k → D k ∨ used k) (hin : ∀ k, ¬ D k → used k → used' k)
    (hq : ∀ k, queue' k = if D k then none else queue k) (hl : ∀ l q, queue l = some q → place l = .owned)
    (hrest : ∀ k, ¬ D k → used k → place k ≠ .queued i ∧ place k ≠ .opening i) :
    Owners used' queue' (socks.eraseIdx j) fun k => if D k then .gone else place k := by
  have hmem : ∀ k, k ∈ socks.eraseIdx j ↔ k ∈ socks ∧ k ≠ i := by
    intro k
    obtain ⟨hlt, rfl⟩ := List.getElem?_eq_some_iff.1 hj
    rw [← h.once.erase_getElem j hlt, h.once.mem_erase_iff, and_comm]
  obtain ⟨h1, h2, h3, h4, h5, h6, h7⟩ := h
  constructor <;> grind

end Places

end Owners

/-- Slot `i` is in use. -/
def Table.used (n : Table) (i : ℕ) : Prop := ∃ t, n.tcbs[i]? = some t ∧ t.inUse

theorem not_used (hi : n.tcbs[i]? = some t) (hu : t.inUse = false) : ¬ n.used i := by
  rintro ⟨t', hi', hu'⟩
  cases hi.symm.trans hi'
  exact Bool.false_ne_true (hu.symm.trans hu')

/-- The queue of slot `l`, if it listens. -/
def Table.queue (n : Table) (l : ℕ) : Option (List ℕ) :=
  match n.tcbs[l]? with
  | none => none
  | some t => if t.inUse = true ∧ t.state = .listen then some t.acceptQ else none

theorem queue_of_get (h : n.tcbs[l]? = some t) :
    n.queue l = if t.inUse = true ∧ t.state = .listen then some t.acceptQ else none := by
  unfold Table.queue
  rw [h]

theorem Listening.queue (h : Listening n l tl) : n.queue l = some tl.acceptQ := by
  rw [queue_of_get h.1, if_pos h.2]

theorem listening_of_queue (h : n.queue l = some q) : ∃ tl, Listening n l tl ∧ tl.acceptQ = q := by
  unfold Table.queue at h
  grind [Listening]

/-- The places fit the table. -/
structure TableInv (n : Table) (place : ℕ → Place) : Prop extends Owners n.used n.queue n.socks place where
  fits : ∀ (i : ℕ) (t : Tcb), n.tcbs[i]? = some t → t.inUse → (place i).Fits t
  slot : ∀ (i : ℕ) (t : Tcb), n.tcbs[i]? = some t → t.inUse → t.reclaimed = false

theorem Owners.inv (h : Owners n.used n.queue n.socks place)
    (hfit : ∀ (i : ℕ) (t : Tcb), n.tcbs[i]? = some t → t.inUse → (place i).Fits t ∧ t.reclaimed = false) : TableInv n place :=
  ⟨h, fun i t hi hu => (hfit i t hi hu).1, fun i t hi hu => (hfit i t hi hu).2⟩

theorem TableInv.live (h : TableInv n place) (hl : Listening n l tl) : LiveListener n l tl :=
  ⟨hl, h.socket l ⟨tl, hl.1, hl.2.1⟩ ((h.fits l tl hl.1 hl.2.1).listen hl.2.2)⟩

theorem TableInv.lifetimeOK (h : TableInv n place) : LifetimeOK n := by
  refine ⟨fun i t hi hu => ?_, h.once, fun i t hi hu => ⟨fun hm => ?_, fun l tl hl hm => ?_⟩⟩
  · have hf := h.fits i t hi hu
    cases hp : place i with
    | owned => exact .socket (count_eq_one_of_mem h.once (h.socket i ⟨t, hi, hu⟩ hp))
    | queued l =>
      obtain ⟨q, hq, hm⟩ := h.queued i l ⟨t, hi, hu⟩ hp
      obtain ⟨tl, hl, rfl⟩ := listening_of_queue hq
      refine .queued l tl (h.live hl) (count_eq_one_of_mem (h.nodup l _ hq) hm) fun l' tl' hl' hm' => ?_
      exact (Place.queued.inj (hp.symm.trans (h.waits l' _ hl'.1.queue i hm').2)).symm
    | opening l =>
      obtain ⟨q, hq⟩ := h.opening i l ⟨t, hi, hu⟩ hp
      obtain ⟨tl, hl, -⟩ := listening_of_queue hq
      rw [hp] at hf
      exact .handshake l tl (h.live hl) hf.2.2.1 hf.2.2.2.1
    | gone =>
      rw [hp] at hf
      exact .gone hf.1 hf.2
  -- what somebody refers to is in use
  · exact not_used hi hu (h.owned i hm).1
  · exact not_used hi hu (h.waits l _ hl.1.queue i hm).1

theorem Empty.inv (h : Empty n) : TableInv n fun _ => .owned := by
  obtain ⟨hfree, hsocks⟩ := h
  have hnone : ∀ i, ¬ n.used i := fun i ⟨t, hi, hu⟩ => not_used hi (hfree t (mem_of_getElem? hi)) ⟨t, hi, hu⟩
  have hq : ∀ l q, n.queue l ≠ some q := fun l q hq => by
    obtain ⟨tl, hl, -⟩ := listening_of_queue hq
    exact hnone l ⟨tl, hl.1, hl.2.1⟩
  constructor
  · constructor <;> grind
  · exact fun i t hi hu => absurd ⟨t, hi, hu⟩ (hnone i)
  · exact fun i t hi hu => absurd ⟨t, hi, hu⟩ (hnone i)

/-! ## Changes that keep the places -/

/-- A block in use stays in its place. -/
structure Stays (pl : Place) (t t' : Tcb) : Prop where
  inUse : t'.inUse
  reclaimed : t'.reclaimed = false
  acceptQ : t'.acceptQ = t.acceptQ
  listen : t.state = .listen → t'.state = .listen
  listens : t'.state = .listen → t.state = .listen ∨ t.acceptQ = []
  fits : pl.Fits t'

/-- Each block stays in its place or out of use, or is released when its socket is gone. -/
theorem TableInv.pointwise (h : TableInv n place) (hsocks : n'.socks = n.socks)
    (hback : ∀ (i : ℕ) (t' : Tcb), n'.tcbs[i]? = some t' → ∃ t, n.tcbs[i]? = some t)
    (hpt : ∀ (i : ℕ) (t : Tcb), n.tcbs[i]? = some t → ∃ t', n'.tcbs[i]? = some t' ∧
      (t.inUse = false ∧ t'.inUse = false ∨ t.inUse ∧ Stays (place i) t t' ∨
        t.inUse ∧ place i = .gone ∧ t'.inUse = false)) : TableInv n' place := by
  -- a block that is in use after the step was so before, and has stayed
  have hold : ∀ (i : ℕ) (t' : Tcb), n'.tcbs[i]? = some t' → t'.inUse = true →
      ∃ t, n.tcbs[i]? = some t ∧ t.inUse = true ∧ Stays (place i) t t' := by
    intro i t' hi hu
    obtain ⟨t, ht⟩ := hback i t' hi
    obtain ⟨t'', ht'', hc⟩ := hpt i t ht
    grind
  have hlis : ∀ (i : ℕ) (t : Tcb), n.tcbs[i]? = some t → t.inUse → t.state = .listen → place i = .owned :=
    fun i t hi hu hl => (h.fits i t hi hu).listen hl
  refine Owners.inv ?_ fun i t' hi hu => ?_
  · rw [hsocks]
    refine h.toOwners.mono ?_ ?_ fun l => ?_
    · rintro i ⟨t', hi, hu⟩
      obtain ⟨t, ht, hut, -⟩ := hold i t' hi hu
      exact ⟨t, ht, hut⟩
    · rintro i ⟨t, hi, hu⟩ hne
      obtain ⟨t', ht', hc⟩ := hpt i t hi
      exact ⟨t', ht', by grind [Stays]⟩
    · cases hl : n.tcbs[l]? with
      | none =>
        have hl' : n'.tcbs[l]? = none := by grind
        unfold Table.queue
        rw [hl, hl']
        exact .inl rfl
      | some t =>
        obtain ⟨t', ht', hc⟩ := hpt l t hl
        rw [queue_of_get hl, queue_of_get ht']
        grind [Stays]
  · obtain ⟨t, -, -, hs⟩ := hold i t' hi hu
    exact ⟨hs.fits, hs.reclaimed⟩

theorem upd_get (n : Table) (i : ℕ) (f : Tcb → Tcb) (j : ℕ) :
    (n.upd i f).tcbs[j]? = (n.tcbs[j]?).map fun t => if i = j then f t else t := by
  unfold Table.upd
  rw [getElem?_modify]
  cases n.tcbs[j]? with
  | none | some => rfl

theorem upd_get_self (h : n.tcbs[i]? = some t) : (n.upd i f).tcbs[i]? = some (f t) := by
  rw [upd_get, h, Option.map_some, if_pos rfl]

theorem upd_get_ne (h : j ≠ i) : (n.upd i f).tcbs[j]? = n.tcbs[j]? := by
  rw [upd_get]
  cases n.tcbs[j]? <;> simp [h.symm]

theorem TableInv.stays (h : TableInv n place) (hi : n.tcbs[i]? = some t) (hu : t.inUse) : Stays (place i) t t :=
  ⟨hu, h.slot i t hi hu, rfl, id, .inl, h.fits i t hi hu⟩

theorem TableInv.upd (h : TableInv n place) (hout : ∀ t, t.inUse = false → (f t).inUse = false)
    (hi : ∀ t, n.tcbs[i]? = some t → t.inUse → Stays (place i) t (f t)) : TableInv (n.upd i f) place := by
  refine h.pointwise rfl (fun j t' hj => ?_) fun j t hj => ?_
  · rw [upd_get] at hj
    obtain ⟨t, ht, -⟩ := Option.map_eq_some_iff.1 hj
    exact ⟨t, ht⟩
  have hst := h.stays hj
  refine ⟨if i = j then f t else t, by rw [upd_get, hj]; rfl, ?_⟩
  grind

/-! ## What the operations do to the marks of a slot -/

theorem slot_of_ctl (h : t'.ctl = t.ctl) : t'.slot = t.slot := congrArg (·.kept.1) h

/-- The timer releases a block whose socket is gone, and leaves the marks of every other. -/
theorem slot_tcpTimer (now : ℕ) (t : Tcb) : (tcpTimer now t).slot = t.slot ∨ t.sockGone ∧ (tcpTimer now t).inUse = false := by
  have hm := tcpTimer_move now t
  generalize tcpTimer now t = r at hm ⊢
  cases hm with
  | idle | ended => exact .inl rfl
  | released hg => exact .inr ⟨hg, rfl⟩
  | fired _ _ hgave => exact .inl (slot_of_ctl (ctl_timers now t hgave))

theorem slot_tcpShutdownWrite (now : ℕ) (t : Tcb) : (tcpShutdownWrite now t).slot = t.slot := by
  unfold tcpShutdownWrite
  split
  · rfl
  · rw [slot_of_ctl (same_tcpOutput now (shuttingDown t)).2]
    rfl

theorem slot_callTcb (now : ℕ) (t : Tcb) (he : e.isCall) : (callTcb now e t).slot = t.slot := by
  cases e with
  | connect rand route dst dport =>
    show (tcpConnect now rand route dst dport t).1.slot = t.slot
    unfold tcpConnect
    split
    · rfl
    split
    · rfl
    · exact (slot_of_ctl (same_sendSyn now { syn := true } (connecting now rand _ dst dport t)).2).trans rfl
  | listen backlog =>
    show (tcpListen backlog t).1.slot = t.slot
    unfold tcpListen
    split <;> rfl
  | send data => exact slot_of_ctl (same_tcpSend now data t).2
  | recv len => exact slot_of_ctl (ctl_tcpRecv len t)
  | shutdownWrite => exact slot_tcpShutdownWrite now t
  | shutdownRead | nodelay => rfl
  | _ => cases he

theorem slot_txFlush (t : Tcb) : (txFlush t).1.slot = t.slot := by
  unfold txFlush
  split <;> rfl

/-! ## Segments -/

/-- Only the end of a handshake under a listener joins a queue. -/
theorem joins_of_ne (now : ℕ) (s : Seg) (h : t.state = .synReceived → t.parent = none) : (tcpSegment now s t).2 = false := by
  have hm := tcpSegment_move now s t
  generalize tcpSegment now s t = r at hm ⊢
  cases hm with
  | established hst => exact (congrArg Option.isSome (h hst)).trans rfl
  | _ => rfl

theorem segment_opening (now : ℕ) (hst : t.state = .synReceived) (hrst : s.flags.rst = false) :
    (tcpSegment now s t).2 = false ∧ (tcpSegment now s t).1.ctl = t.ctl ∨
      completes s t ∧ (tcpSegment now s t).2 = t.parent.isSome ∧ Moves .established (tcpSegment now s t).1.state := by
  have hm := tcpSegment_move now s t
  generalize tcpSegment now s t = r at hm ⊢
  cases hm with
  | reset hr => rw [hrst] at hr; cases hr
  | ignored | answered => exact .inl ⟨rfl, rfl⟩
  | connected h | simultaneous h => rw [hst] at h; cases h
  | established _ hacc hack hr =>
    refine .inr ⟨?_, rfl, moves_segRest now s (segEstablished s t)⟩
    unfold completes
    rw [hacc, hack, Bool.and_assoc, hr]
    rfl
  | rest _ h => exact absurd hst h

theorem Moves.closes {a b : State} (h : Moves a b) (ha : a.closes) : b.closes := by
  induction h with
  | refl => exact ha
  | tail _ hm ih =>
    cases hm with
    | call hm => cases hm <;> rfl
    | _ => first | rfl | cases ih

/-- A change along the diagram that keeps the marks keeps a block in its place, but for a listener and
a handshake under one. -/
theorem Place.Fits.moves (h : pl.Fits t) (hm : Moves t.state t'.state) (hs : t'.slot = t.slot) (hl : t.state ≠ .listen)
    (ho : ∀ l, pl ≠ .opening l) : pl.Fits t' := by
  obtain ⟨-, hgone, -, hp, hq⟩ := Slot.mk.inj hs
  have h1 := hm.ne_listen hl
  have h2 := hm.ne_synSent
  have h3 := hm.ne_synReceived
  have h4 := hm.closes
  cases pl <;> simp only [Place.Fits] at h ⊢ <;> grind

theorem Stays.moves (h : Stays pl t t) (hm : Moves t.state t'.state) (hs : t'.slot = t.slot) (hl : t.state ≠ .listen)
    (ho : ∀ l, pl ≠ .opening l) : Stays pl t t' := by
  obtain ⟨hu, -, hr, -, hq⟩ := Slot.mk.inj hs
  exact ⟨hu.trans h.inUse, hr.trans h.reclaimed, hq, fun hx => absurd hx hl, fun hx => absurd hx (hm.ne_listen hl),
    h.fits.moves hm hs hl ho⟩

theorem Stays.same (h : Stays pl t t) (hc : t'.ctl = t.ctl) (hi : t.state = .listen → Idle t → Idle t') : Stays pl t t' := by
  have hst : t'.state = t.state := congrArg Ctl.state hc
  have htw : t'.timewaitDeadline = t.timewaitDeadline := congrArg Ctl.timewaitDeadline hc
  obtain ⟨hu, hgone, hr, hp, hq⟩ := Slot.mk.inj (slot_of_ctl hc)
  refine ⟨hu.trans h.inUse, hr.trans h.reclaimed, hq, hst.trans, fun hx => .inl (hst.symm.trans hx), ?_⟩
  have hf := h.fits
  cases pl <;> simp only [Place.Fits, hgone, hst, hq, hp, htw] at hf ⊢
  · exact ⟨hf.1, hf.2.1, fun hl => hi hl (hf.2.2.1 hl), hf.2.2.2⟩
  all_goals exact hf

/-! ## The timer -/

/-- The deadlines that can end the state of a listener. -/
def Tcb.deadlines (t : Tcb) : ℕ × ℕ × ℕ := (t.rtoDeadline, t.establishDeadline, t.timewaitDeadline)

theorem Idle.congr (h : Idle t) (hd : t'.deadlines = t.deadlines) : Idle t' := by
  obtain ⟨h1, h2⟩ := Prod.mk.inj hd
  obtain ⟨h2, h3⟩ := Prod.mk.inj h2
  exact ⟨h1.trans h.1, h2.trans h.2.1, h3.trans h.2.2⟩

@[simp] theorem deadlines_txQueue (t : Tcb) (s : Seg) : (txQueue t s).deadlines = t.deadlines := by
  unfold txQueue
  split <;> rfl

@[simp] theorem deadlines_sendFlags (t : Tcb) (f : Flags) (seq : ℕ) : (sendFlags t f seq).deadlines = t.deadlines :=
  deadlines_txQueue t _

@[simp] theorem deadlines_sendAck (t : Tcb) : (sendAck t).deadlines = t.deadlines := deadlines_txQueue t _

@[simp] theorem deadlines_delackFired (now : ℕ) (t : Tcb) : (delackFired now t).deadlines = t.deadlines := by
  unfold delackFired
  split
  · exact deadlines_sendAck { t with delackDeadline := 0 }
  · rfl

@[simp] theorem deadlines_persistFired (now : ℕ) (t : Tcb) : (persistFired now t).deadlines = t.deadlines := by
  unfold persistFired
  split
  swap
  · rfl
  unfold persistProbe
  simp only
  split
  · exact deadlines_txQueue (persistBackoff now t) _
  · exact deadlines_sendFlags (persistBackoff now t) _ _

theorem timer_quiet (now : ℕ) (hu : t.inUse) (hg : t.sockGone = false) (htw : t.timewaitDeadline = 0)
    (hgu : givesUp now t = false) :
    tcpTimer now t = persistFired now (delackFired now (rtoCheck now t).1) ∧ (rtoCheck now t).2 = false := by
  have hm := tcpTimer_move now t
  generalize tcpTimer now t = r at hm ⊢
  cases hm with
  | idle h => rw [hu] at h; cases h
  | ended d r err h => exact (h.elim (fun h => h htw) fun h => Bool.false_ne_true (hgu.symm.trans h)).elim
  | released h => rw [hg] at h; cases h
  | fired _ _ hr => exact ⟨rfl, hr⟩

theorem Place.Fits.sockGone (h : pl.Fits t) (hg : t.sockGone) : pl = .gone := by
  cases pl with
  | gone => rfl
  | owned | queued | opening => exact absurd (h.1.symm.trans hg) Bool.false_ne_true

theorem Stays.timer (now : ℕ) (h : Stays pl t t) (ho : ∀ l, pl = .opening l → givesUp now t = false) :
    Stays pl t (tcpTimer now t) ∨ pl = .gone ∧ (tcpTimer now t).inUse = false := by
  by_cases hl : t.state = .listen
  · left
    have hp := h.fits.listen hl
    subst hp
    have hi := h.fits.2.2.1 hl
    have hrto : rtoCheck now t = (t, false) := by
      unfold rtoCheck
      rw [if_neg fun hx => hx.1 hi.1]
    have hgu : givesUp now t = false := by simp [givesUp, hi.2.1, hrto]
    obtain ⟨e, hr⟩ := timer_quiet now h.inUse h.fits.1 hi.2.2 hgu
    rw [e]
    refine h.same (ctl_timers now t hr) fun _ hi => hi.congr ?_
    rw [deadlines_persistFired, deadlines_delackFired, hrto]
  by_cases hop : ∃ l, pl = .opening l
  · left
    obtain ⟨l, rfl⟩ := hop
    obtain ⟨e, hr⟩ := timer_quiet now h.inUse h.fits.1 h.fits.2.2.2.2 (ho l rfl)
    rw [e]
    exact h.same (ctl_timers now t hr) fun hx => absurd hx hl
  obtain hs | ⟨hg, hrel⟩ := slot_tcpTimer now t
  · exact .inl (h.moves (called_tcpTimer now t).moves.moves hs hl (not_exists.1 hop))
  · exact .inr ⟨h.fits.sockGone hg, hrel⟩

theorem TableInv.tick (h : TableInv n place) (hok : Tidy n (now, .tick)) :
    TableInv { n with tcbs := n.tcbs.map (tcpTimer now) } place := by
  refine h.pointwise rfl (fun i t' hi => ?_) fun i t hi => ⟨tcpTimer now t, ?_, ?_⟩
  · simp only [getElem?_map, Option.map_eq_some_iff] at hi
    obtain ⟨t, ht, -⟩ := hi
    exact ⟨t, ht⟩
  · rw [getElem?_map, hi]
    rfl
  cases hu : t.inUse with
  | false =>
    left
    refine ⟨rfl, ?_⟩
    unfold tcpTimer
    rw [if_pos (by rw [hu]; rfl), hu]
  | true =>
    right
    have hst := h.stays hi hu
    have ho : ∀ l, place i = .opening l → givesUp now t = false := by
      intro l hl
      have hf := hst.fits
      rw [hl] at hf
      exact hok t (mem_of_getElem? hi) hf.2.2.1 (by rw [hf.2.2.2.1]; rfl)
    obtain hx | ⟨hx, hy⟩ := hst.timer now ho
    · exact .inl ⟨rfl, hx⟩
    · exact .inr ⟨rfl, hx, hy⟩

/-! ## Calls -/

theorem Stays.call (now : ℕ) (h : Stays .owned t t) (he : e.isCall) (hc : ∀ r ro d p, e = .connect r ro d p → t.parent = none)
    (hl : ∀ b, e = .listen b → Idle t) : Stays .owned t (callTcb now e t) := by
  have hs := slot_callTcb now t he
  have hslot : ∀ t' : Tcb, t'.slot = t.slot → (t.state = .listen → t'.state = .listen) →
      (t'.state = .listen → t.state = .listen ∨ t.acceptQ = []) → (t'.state ≠ .listen → t.acceptQ = []) →
      (t'.state = .listen → Idle t') → (t'.state = .synSent ∨ t'.state = .synReceived → t.parent = none) →
        Stays .owned t t' := by
    intro t' hs h1 h2 h3 h4 h5
    obtain ⟨hu, hgone, hr, hp, hq⟩ := Slot.mk.inj hs
    exact ⟨hu.trans h.inUse, hr.trans h.reclaimed, hq, h1, h2, hgone.trans h.fits.1, fun hx => hq.trans (h3 hx), h4,
      fun hx => hp.trans (h5 hx)⟩
  by_cases hopens : e.opens
  · cases e with
    | connect rand route dst dport =>
      have hp := hc rand route dst dport rfl
      show Stays .owned t (tcpConnect now rand route dst dport t).1
      change (tcpConnect now rand route dst dport t).1.slot = t.slot at hs
      unfold tcpConnect at hs ⊢
      split
      · exact h
      split
      · exact h
      rename_i dev hclosed
      have hst : t.state = .closed := not_not.1 hclosed
      simp only [if_neg hclosed] at hs
      have hsyn := (same_sendSyn now { syn := true } (connecting now rand dev dst dport t)).state
      have hq := h.fits.2.1 (by rw [hst]; decide)
      exact hslot _ hs (fun hx => absurd (hst.symm.trans hx) (by decide)) (fun _ => .inr hq) (fun _ => hq)
        (fun hx => absurd (hsyn.symm.trans hx) State.noConfusion) fun _ => hp
    | listen backlog =>
      have hi := hl backlog rfl
      show Stays .owned t (tcpListen backlog t).1
      unfold tcpListen
      split
      · exact h
      · exact hslot _ rfl (fun _ => rfl) (fun _ => (Decidable.em _).imp_right h.fits.2.1) (fun hx => absurd rfl hx)
          (fun _ => hi) nofun
    | _ => cases hopens
  have hopens' : e.opens = false := by simpa using hopens
  have hm : Moves t.state (callTcb now e t).state := moves_step { t := t } (now, e) hopens'
  by_cases hst : t.state = .listen
  swap
  · exact h.moves hm hs hst fun l => Place.noConfusion
  -- a listener: nothing is sent but acknowledgements
  have hi := h.fits.2.2.1 hst
  have hstay : ∀ t' : Tcb, t'.slot = t.slot → t'.state = .listen → t'.deadlines = t.deadlines → Stays .owned t t' :=
    fun t' hs hst' hd => hslot t' hs (fun _ => hst') (fun _ => .inl hst) (fun hx => absurd hst' hx) (fun _ => hi.congr hd)
      fun hx => by rw [hst'] at hx; simp at hx
  cases e with
  | send data =>
    have hsame : (tcpSend now data t).1 = t := by
      unfold tcpSend
      split
      · rfl
      split
      · rfl
      · rw [if_pos (by rw [hst]; exact ⟨by decide, by decide⟩)]
    show Stays .owned t (tcpSend now data t).1
    rw [hsame]
    exact h
  | recv len =>
    refine hstay _ hs ((congrArg Ctl.state (ctl_tcpRecv len t)).trans hst) ?_
    show (tcpRecv len t).1.deadlines = t.deadlines
    obtain h | ⟨-, r, h | h⟩ := tcpRecv_cases len t <;> rw [h]
    · rfl
    · exact deadlines_sendAck _
  | shutdownWrite =>
    have hout : tcpShutdownWrite now t = t ∨ tcpShutdownWrite now t = { t with shutWr := true, finSent := .due } := by
      unfold tcpShutdownWrite
      split
      · exact .inl rfl
      · right
        unfold tcpOutput shuttingDown
        rw [hst]
        rfl
    show Stays .owned t (tcpShutdownWrite now t)
    obtain e | e := hout <;> rw [e]
    · exact h
    · exact hstay _ rfl hst rfl
  | shutdownRead | nodelay => exact hstay _ rfl hst rfl
  | connect | listen => cases hopens'
  | _ => cases he

/-! ## Changes of place -/

/-- The lookups after a change of one slot. -/
def SetAt (n n' : Table) (i : ℕ) (t' : Tcb) : Prop := ∀ j : ℕ, n'.tcbs[j]? = if j = i then some t' else n.tcbs[j]?

theorem setAt_upd (hi : n.tcbs[i]? = some t) : SetAt n (n.upd i f) i (f t) := by
  intro j
  split
  · rename_i hj
    rw [hj, upd_get_self hi]
  · rename_i hj
    exact upd_get_ne hj

section Tables

variable (h : TableInv n place)
include h

theorem TableInv.alloc (hi : n.tcbs[i]? = some t) (hu : t.inUse = false) (hn : SetAt n n' i t')
    (hu' : t'.inUse) (hr : t'.reclaimed = false) (hl : t'.state ≠ .listen) (hfit : pl.Fits t')
    (hs : pl = .owned ∧ n'.socks = n.socks ++ [i] ∨ (∃ l tl, pl = .opening l ∧ Listening n l tl) ∧ n'.socks = n.socks) :
    TableInv n' (update place i pl) := by
  have hq : n'.queue = n.queue := by
    funext l
    unfold Table.queue
    rw [hn l]
    grind
  refine Owners.inv ?_ fun j u hj hju => ?_
  · rw [hq]
    refine h.toOwners.alloc (i := i) ?_ (fun j => ?_) (hs.imp_right fun ⟨⟨l, tl, e, hl⟩, e'⟩ => ⟨⟨l, _, e, hl.queue⟩, e'⟩)
    · grind [Table.used]
    · unfold Table.used
      rw [hn j]
      grind
  · rw [hn j] at hj
    have hf := h.fits j u
    have hsl := h.slot j u
    grind [update_apply]

/-- A listener keeps its place when only its queue changes. -/
theorem TableInv.fits_queue (hl : Listening n l tl) (q : List ℕ) : (place l).Fits { tl with acceptQ := q } := by
  have hf := h.fits l tl hl.1 hl.2.1
  have hp := hf.listen hl.2.2
  rw [hp] at hf ⊢
  obtain ⟨g1, -, g3, g4⟩ := hf
  exact ⟨g1, fun hx => absurd hl.2.2 hx, g3, g4⟩

/-- The queue of a listener changes, and with it the place of a block that does not listen. -/
theorem TableInv.requeue (hi : n.tcbs[i]? = some t) (hu : t.inUse) (hst : t.state ≠ .listen) (hl : Listening n l tl)
    (hn : ∀ j : ℕ, n'.tcbs[j]? = if j = i then some t' else if j = l then some { tl with acceptQ := q } else n.tcbs[j]?)
    (hu' : t'.inUse) (hr : t'.reclaimed = false) (hst' : t'.state ≠ .listen) (hfit : pl.Fits t')
    (ho : Owners n.used (update n.queue l (some q)) n'.socks (update place i pl)) : TableInv n' (update place i pl) := by
  have hused : n'.used = n.used := by
    funext j
    unfold Table.used
    rw [hn j]
    grind [Listening]
  have hq : n'.queue = update n.queue l (some q) := by
    funext k
    unfold Table.queue
    rw [hn k]
    grind [update_apply, Listening]
  refine Owners.inv (by rw [hused, hq]; exact ho) fun j u hj hju => ?_
  have hlis := And.intro (h.fits_queue hl q) (h.slot l tl hl.1 hl.2.1)
  have hothers := fun hj => And.intro (h.fits j u hj hju) (h.slot j u hj hju)
  grind [update_apply]

theorem TableInv.join {tl' : Tcb} (hi : n.tcbs[i]? = some t) (hu : t.inUse) (hp : place i = .opening l) (hl : Listening n l tl)
    (hn : ∀ j : ℕ, n'.tcbs[j]? = if j = i then some t' else if j = l then some tl' else n.tcbs[j]?)
    (hsocks : n'.socks = n.socks) (hs : t'.slot = t.slot) (hm : Moves .established t'.state)
    (htl : tl' = { tl with acceptQ := tl.acceptQ ++ [i] }) : TableInv n' (update place i (.queued l)) := by
  have hf := h.fits i t hi hu
  rw [hp] at hf
  obtain ⟨hu', hgone, hr, -, hq⟩ := Slot.mk.inj hs
  have hst : t.state ≠ .listen := hf.2.2.1 ▸ (by decide)
  have hst' : t'.state ≠ .listen := hm.ne_listen (by decide)
  have hfit : (Place.queued l).Fits t' := ⟨hgone.trans hf.1, hq.trans hf.2.1, hst', hm.ne_synSent (by decide),
    hm.ne_synReceived (by decide) (by decide)⟩
  subst htl
  refine h.requeue hi hu hst hl hn (hu'.trans hu) (hr.trans (h.slot i t hi hu)) hst' hfit ?_
  rw [hsocks]
  exact h.toOwners.join ⟨t, hi, hu⟩ hp hl.queue

theorem TableInv.accept (hl : Listening n l tl) (hq : tl.acceptQ = c :: q)
    (hn : SetAt n n' l { tl with acceptQ := q }) (hsocks : n'.socks = n.socks ++ [c]) :
    TableInv n' (update place c .owned) := by
  obtain ⟨⟨tc, hc, huc⟩, hpc⟩ := h.waits l _ hl.queue c (by rw [hq]; exact mem_cons_self)
  have hfc := h.fits c tc hc huc
  rw [hpc] at hfc
  obtain ⟨g1, g2, g3, g4, g5⟩ := hfc
  have hnew : Place.owned.Fits tc := ⟨g1, fun _ => g2, fun hx => absurd hx g3, fun hx => absurd hx (not_or.2 ⟨g4, g5⟩)⟩
  refine h.requeue (q := q) hc huc g3 hl (fun j => ?_) huc (h.slot c tc hc huc) g3 hnew ?_
  · rw [hn j]
    grind [Listening]
  · rw [hsocks]
    exact h.toOwners.accept (hq ▸ hl.queue)

/-- The slots `D` lose their owner: a socket that is closed and, if it listens, its queue. -/
theorem TableInv.drop [DecidablePred D] (hj : n.socks[j]? = some i)
    (hsocks : n'.socks = n.socks.eraseIdx j) (hDi : D i) (hD : ∀ k, D k → k = i ∨ place k = .queued i)
    (hn : ∀ k : ℕ, ¬ D k → n'.tcbs[k]? = n.tcbs[k]?)
    (hdrop : ∀ (k : ℕ) (u : Tcb), D k → n'.tcbs[k]? = some u → u.inUse → u.reclaimed = false ∧ Place.gone.Fits u)
    (hrest : ∀ (k : ℕ) (u : Tcb), ¬ D k → n.tcbs[k]? = some u → u.inUse → place k ≠ .queued i ∧ place k ≠ .opening i) :
    TableInv n' fun k => if D k then .gone else place k := by
  refine Owners.inv ?_ fun k u hk hu => ?_
  · rw [hsocks]
    refine h.toOwners.drop hj hDi hD ?_ ?_ (fun k => ?_) (fun l q hq => ?_) fun k hDk ⟨u, hk, hu⟩ => hrest k u hDk hk hu
    · rintro k ⟨u, hk, hu⟩
      refine (Decidable.em (D k)).imp_right fun hDk => ⟨u, (hn k hDk).symm.trans hk, hu⟩
    · rintro k hDk ⟨u, hk, hu⟩
      exact ⟨u, (hn k hDk).trans hk, hu⟩
    · by_cases hDk : D k
      · -- a block that is closed does not listen
        rw [if_pos hDk, Option.eq_none_iff_forall_ne_some]
        intro q hq
        obtain ⟨tl, hl, -⟩ := listening_of_queue hq
        have hc := (hdrop k tl hDk hl.1 hl.2.1).2.2
        rw [hl.2.2] at hc
        cases hc
      · rw [if_neg hDk]
        unfold Table.queue
        rw [hn k hDk]
    · obtain ⟨tl, hl, -⟩ := listening_of_queue hq
      exact (h.fits l tl hl.1 hl.2.1).listen hl.2.2
  · by_cases hDk : D k
    · rw [if_pos hDk]
      exact (hdrop k u hDk hk hu).symm
    · rw [if_neg hDk]
      rw [hn k hDk] at hk
      exact ⟨h.fits k u hk hu, h.slot k u hk hu⟩

end Tables

/-! ## Closing -/

/-- A block that `tcp_close` does not release is on its way to CLOSED. -/
theorem close_gone (now : ℕ) (hc : Closable t) (hl : t.state ≠ .listen) (hf : (tcpClose now t).2 = false) :
    Place.gone.Fits (tcpClose now t).1 := by
  have hshut : t.shutWr = false → t.finSent = .no → tcpShutdownWrite now { t with sockGone := true } =
      tcpOutput now (shuttingDown { t with sockGone := true }) := by
    intro h1 h2
    unfold tcpShutdownWrite
    rw [if_neg]
    simp [h1, h2]
  have hs := same_tcpOutput now (shuttingDown { t with sockGone := true })
  have hgone : (tcpOutput now (shuttingDown { t with sockGone := true })).sockGone := congrArg Ctl.sockGone hs.2
  have hstate : (tcpOutput now (shuttingDown { t with sockGone := true })).state = shutdownState t.state := hs.state
  unfold tcpClose at hf ⊢
  simp only at hf ⊢
  split at hf
  · rename_i hst
    obtain ⟨h1, h2⟩ := hc.2 (.inl hst)
    rw [hshut h1 h2]
    exact ⟨hgone, by rw [hstate, hst]; rfl⟩
  · rename_i hst
    obtain ⟨h1, h2⟩ := hc.2 (.inr hst)
    rw [hshut h1 h2]
    exact ⟨hgone, by rw [hstate, hst]; rfl⟩
  · cases hf
  · cases hf
  · cases hf
  · rename_i h1 h2 h3 h4 h5
    refine ⟨rfl, ?_⟩
    cases hst : t.state with
    | closed => exact absurd hst h4
    | listen => exact absurd hst hl
    | synSent => exact absurd hst h5
    | synReceived => exact absurd hst hc.1
    | established => exact absurd hst h1
    | closeWait => exact absurd hst h2
    | _ => rfl

theorem close_reclaimed (now : ℕ) (t : Tcb) : (tcpClose now t).1.reclaimed = t.reclaimed := by
  unfold tcpClose
  simp only
  split
  · exact congrArg Slot.reclaimed (slot_tcpShutdownWrite now { t with sockGone := true })
  · exact congrArg Slot.reclaimed (slot_tcpShutdownWrite now { t with sockGone := true })
  · rfl
  · rfl
  · exact congrArg Ctl.reclaimed (same_sendFlags { t with sockGone := true } { rst := true } t.sndNxt).2
  · rfl

theorem released (h : t.reclaimed = false) : (tcpRelease t).inUse = false := by
  unfold tcpRelease
  rw [h]
  rfl

theorem orphan_socks (n : Table) (cs : List ℕ) : (cs.foldl orphan n).socks = n.socks := by
  induction cs generalizing n with
  | nil => rfl
  | cons c cs ih =>
    rw [foldl_cons, ih]
    rfl

theorem orphan_get_ne (h : j ∉ cs) : (cs.foldl orphan n).tcbs[j]? = n.tcbs[j]? := by
  induction cs generalizing n with
  | nil => rfl
  | cons c cs ih =>
    rw [foldl_cons, ih fun hm => h (mem_cons_of_mem _ hm)]
    exact upd_get_ne fun e => h (e ▸ mem_cons_self)

theorem orphan_get (hnd : cs.Nodup) (hj : j ∈ cs) (ht : n.tcbs[j]? = some t) (hr : t.reclaimed = false) :
    ∃ t', (cs.foldl orphan n).tcbs[j]? = some t' ∧ t'.inUse = false := by
  induction cs generalizing n with
  | nil => cases hj
  | cons c cs ih =>
    obtain ⟨hc, hnd⟩ := nodup_cons.1 hnd
    rw [foldl_cons]
    obtain rfl | hj := mem_cons.1 hj
    · rw [orphan_get_ne hc]
      refine ⟨_, upd_get_self ht, released ?_⟩
      exact (congrArg Ctl.reclaimed (same_sendFlags { t with sockGone := true } { rst := true } t.sndNxt).2).trans hr
    · have hjc : j ≠ c := fun e => hc (e ▸ hj)
      exact ih hnd hj ((upd_get_ne hjc).trans ht)

theorem TableInv.close (now : ℕ) (h : TableInv n place) (hj : n.socks[j]? = some i) (hi : n.tcbs[i]? = some t)
    (hc : Closable t)
    (hk : t.state = .listen → ∀ t' ∈ n.tcbs, t'.inUse → t'.state = .synReceived → t'.parent ≠ some i) :
    ∃ place', TableInv (tableClose now i { n with socks := n.socks.eraseIdx j }) place' := by
  obtain ⟨⟨t0, hi0, hu⟩, hpi⟩ := h.owned i (mem_of_getElem? hj)
  cases hi.symm.trans hi0
  have hr := h.slot i t hi hu
  have hcr := (close_reclaimed now t).trans hr
  have hi' : ({ n with socks := n.socks.eraseIdx j } : Table).tcbs[i]? = some t := hi
  unfold tableClose
  simp only [hi]
  by_cases hl : t.state = .listen
  · -- the listener and its queue are released
    have hlis : Listening n i t := ⟨hi, hu, hl⟩
    have hqueue := h.waits i _ hlis.queue
    have hiq : i ∉ t.acceptQ := by grind
    have hflag : (tcpClose now t).2 := by
      unfold tcpClose
      simp only [hl]
    rw [if_pos hl, if_pos hflag]
    generalize hm : ({ n with socks := n.socks.eraseIdx j } : Table).upd i (fun t => (tcpClose now t).1) = m
    have hmi : m.tcbs[i]? = some (tcpClose now t).1 := by rw [← hm]; exact upd_get_self hi
    have hmk : ∀ k, k ≠ i → m.tcbs[k]? = n.tcbs[k]? := by
      intro k hki
      rw [← hm]
      exact upd_get_ne hki
    have hget : ∀ k, k ≠ i → ((t.acceptQ.foldl orphan m).upd i tcpRelease).tcbs[k]? = (t.acceptQ.foldl orphan m).tcbs[k]? :=
      fun k hki => upd_get_ne hki
    refine ⟨_, h.drop (D := fun k => k = i ∨ k ∈ t.acceptQ) hj ?_ (.inl rfl) ?_ ?_ ?_ ?_⟩
    · show (t.acceptQ.foldl orphan m).socks = _
      rw [orphan_socks, ← hm]
      rfl
    · grind
    · intro k hDk
      rw [hget k fun e => hDk (.inl e), orphan_get_ne fun e => hDk (.inr e)]
      exact hmk k fun e => hDk (.inl e)
    · rintro k u (hki | hkq) hku huu
      · have hself := upd_get_self (f := tcpRelease) ((orphan_get_ne hiq).trans hmi)
        have hrel := released hcr
        grind
      · have hki : k ≠ i := fun e => hiq (e ▸ hkq)
        obtain ⟨⟨tk, h1, h2⟩, -⟩ := hqueue k hkq
        obtain ⟨t', g1, g2⟩ := orphan_get (h.nodup i _ hlis.queue) hkq ((hmk k hki).trans h1) (h.slot k tk h1 h2)
        grind
    · intro k u hDk hku huu
      refine ⟨fun hp => hDk (.inr ?_), fun hp => ?_⟩
      · obtain ⟨q, hq, hm⟩ := h.queued k i ⟨u, hku, huu⟩ hp
        cases hlis.queue.symm.trans hq
        exact hm
      · have hf := h.fits k u hku huu
        rw [hp] at hf
        exact hk hl u (mem_of_getElem? hku) huu hf.2.2.1 hf.2.2.2.1
  · -- only the block itself changes
    rw [if_neg hl]
    have hnone : ∀ (k : ℕ) (u : Tcb), ¬ k = i → n.tcbs[k]? = some u → u.inUse → place k ≠ .queued i ∧
      place k ≠ .opening i := by
      intro k u _ hk hu
      have hno : n.queue i = none := by rw [queue_of_get hi, if_neg fun hx => hl hx.2]
      refine ⟨fun hp => ?_, fun hp => ?_⟩
      · obtain ⟨q, hq, -⟩ := h.queued k i ⟨u, hk, hu⟩ hp
        cases hno.symm.trans hq
      · obtain ⟨q, hq⟩ := h.opening k i ⟨u, hk, hu⟩ hp
        cases hno.symm.trans hq
    have hdrop : ∀ {n' : Table} {t' : Tcb}, n'.socks = n.socks.eraseIdx j → (∀ k, k ≠ i → n'.tcbs[k]? = n.tcbs[k]?) →
        n'.tcbs[i]? = some t' → (t'.inUse = true → t'.reclaimed = false ∧ Place.gone.Fits t') →
          ∃ place', TableInv n' place' := by
      intro n' t' hs hne hself hfit
      exact ⟨_, h.drop (D := fun k => k = i) hj hs rfl (fun k => .inl) hne (by grind) hnone⟩
    cases hf : (tcpClose now t).2 with
    | true =>
      refine hdrop rfl (fun k hki => ?_) (upd_get_self (upd_get_self hi')) fun hx => ?_
      · exact (upd_get_ne hki).trans (upd_get_ne hki)
      · exact absurd ((released hcr).symm.trans hx) Bool.false_ne_true
    | false => exact hdrop rfl (fun k hki => upd_get_ne hki) (upd_get_self hi') fun _ => ⟨hcr, close_gone now hc hl hf⟩

/-! ## Events -/

theorem alloc_free (h : tcpAlloc n = some i) : ∃ t, n.tcbs[i]? = some t ∧ t.inUse = false := by
  obtain ⟨hi, hu, -⟩ := findIdx?_eq_some_iff_getElem.1 h
  exact ⟨n.tcbs[i], getElem?_eq_getElem hi, by simpa using hu⟩

theorem passiveOpen_fits (now rand dst src dport sport l : ℕ) (s : Seg) (old : Tcb) :
    (passiveOpen now rand dst src dport sport l s old).inUse ∧
      (passiveOpen now rand dst src dport sport l s old).reclaimed = false ∧
      (Place.opening l).Fits (passiveOpen now rand dst src dport sport l s old) := by
  have hsyn : ∀ u : Tcb, u.inUse = true → u.reclaimed = false → (Place.opening l).Fits u →
      (sendSyn now { syn := true, ack := true } u).inUse = true ∧
        (sendSyn now { syn := true, ack := true } u).reclaimed = false ∧
        (Place.opening l).Fits (sendSyn now { syn := true, ack := true } u) := by
    intro u h1 h2 h3
    have hc := (same_sendSyn now { syn := true, ack := true } u).2
    obtain ⟨g1, g2, g3, g4, g5⟩ := h3
    exact ⟨(congrArg Ctl.inUse hc).trans h1, (congrArg Ctl.reclaimed hc).trans h2, (congrArg Ctl.sockGone hc).trans g1,
      (congrArg Ctl.acceptQ hc).trans g2, (congrArg Ctl.state hc).trans g3, (congrArg Ctl.parent hc).trans g4,
      (congrArg Ctl.timewaitDeadline hc).trans g5⟩
  exact hsyn _ rfl rfl ⟨rfl, rfl, rfl, rfl, rfl⟩

theorem TableInv.segment (h : TableInv n place) (hok : Tidy n (now, .segment i s)) :
    ∃ place', TableInv (tableSegment now i s n) place' := by
  unfold tableSegment
  cases hi : n.tcbs[i]? with
  | none => exact ⟨place, h⟩
  | some t =>
    simp only
    split
    swap
    · exact ⟨place, h⟩
    rename_i hg
    obtain ⟨hu, hl⟩ := hg
    have hst := h.stays hi hu
    have hf := hst.fits
    have hupd : Stays (place i) t (tcpSegment now s t).1 → TableInv (n.upd i fun t => (tcpSegment now s t).1) place := by
      intro hx
      refine h.upd (fun t ht => (congrArg Slot.inUse (slot_iss_tcpSegment now s t).1).trans ht) fun t0 h0 _ => ?_
      cases hi.symm.trans h0
      exact hx
    by_cases hop : ∃ l, place i = .opening l
    · obtain ⟨l, hp⟩ := hop
      rw [hp] at hf
      obtain ⟨q, hq⟩ := h.opening i l ⟨t, hi, hu⟩ hp
      obtain ⟨tl, hlis, -⟩ := listening_of_queue hq
      obtain ⟨hrst, hroom⟩ := hok t l tl hi hf.2.2.1 hf.2.2.2.1 hlis.1
      obtain ⟨hflag, hctl⟩ | ⟨hcomp, hflag, hm⟩ := segment_opening now hf.2.2.1 hrst
      · rw [hflag]
        exact ⟨place, hupd (hst.same hctl fun hx => absurd hx hl)⟩
      · rw [hflag, hf.2.2.2.1]
        have hli : l ≠ i := by
          intro e
          subst e
          cases hi.symm.trans hlis.1
          exact hl hlis.2.2
        have hn : ∀ j : ℕ, ((n.upd i fun t => (tcpSegment now s t).1).upd l (joinBacklog i)).tcbs[j]? =
            if j = i then some (tcpSegment now s t).1 else if j = l then some (joinBacklog i tl) else n.tcbs[j]? := by
          intro j
          split
          · rename_i hji
            subst hji
            exact (upd_get_ne hli.symm).trans (upd_get_self hi)
          · split
            · rename_i hji hjl
              subst hjl
              exact upd_get_self ((upd_get_ne hli).trans hlis.1)
            · rename_i hji hjl
              exact (upd_get_ne hjl).trans (upd_get_ne hji)
        exact ⟨_, h.join hi hu hp hlis hn rfl (slot_iss_tcpSegment now s t).1 hm (if_pos (hroom hcomp))⟩
    · -- no other block joins a queue
      have hjoin : (tcpSegment now s t).2 = false := by
        refine joins_of_ne now s fun hsr => ?_
        cases hp : place i <;> rw [hp] at hf <;> simp only [Place.Fits] at hf <;> grind [State.closes]
      rw [hjoin]
      exact ⟨place, hupd (hst.moves (moves_tcpSegment now s t) (slot_iss_tcpSegment now s t).1 hl (not_exists.1 hop))⟩

theorem TableInv.acceptStep (res : AcceptRes) (h : TableInv n place) (hj : n.socks[j]? = some l)
    (hok : Tidy n (now, .accept j res)) : ∃ place', TableInv (tableAccept now l res n) place' := by
  unfold tableAccept
  cases hl : n.tcbs[l]? with
  | none => exact ⟨place, h⟩
  | some tl =>
    simp only
    split
    · exact ⟨place, h⟩
    rename_i hst
    obtain ⟨⟨tl', hl', hu⟩, -⟩ := h.owned l (mem_of_getElem? hj)
    cases hl.symm.trans hl'
    have hlis : Listening n l tl := ⟨hl, hu, not_not.1 hst⟩
    cases hq : tl.acceptQ with
    | nil => exact ⟨place, h⟩
    | cons c q =>
      obtain ⟨⟨tc, hc, huc⟩, hpc⟩ := h.waits l _ hlis.queue c (by rw [hq]; exact mem_cons_self)
      have hfc := h.fits c tc hc huc
      rw [hpc] at hfc
      have hcl : c ≠ l := by
        intro e
        subst e
        cases hl.symm.trans hc
        exact hfc.2.2.1 hlis.2.2
      have hn : SetAt n ⟨(n.upd l fun t => { t with acceptQ := q }).tcbs, n.socks ++ [c]⟩ l { tl with acceptQ := q } :=
        setAt_upd hl
      have hacc := h.accept hlis hq hn rfl
      have hok' := hok l tl c tc hj hl (by rw [hq]; rfl) hc
      -- a failure is an accept whose socket is closed at once
      have hclose : Closable tc → ∃ place', TableInv (tableClose now c (n.upd l fun t => { t with acceptQ := q })) place' := by
        intro hcl'
        have hlast : (n.socks ++ [c])[n.socks.length]? = some c := by simp
        obtain ⟨p, hp⟩ := hacc.close now hlast ((upd_get_ne hcl).trans hc) hcl' fun hx => absurd hx hfc.2.2.1
        refine ⟨p, ?_⟩
        rw [eraseIdx_append_of_length_le (le_refl _), Nat.sub_self, eraseIdx_cons_zero, append_nil] at hp
        exact hp
      cases res with
      | ok => exact ⟨_, hacc⟩
      | noSocket | noFd => exact hclose hok'
      | noFile => exact hok'.elim

/-- **Every event keeps the blocks in a place.** -/
theorem TableInv.step (h : TableInv n place) (e : ℕ × TableEvent) (hok : Tidy n e) :
    ∃ place', TableInv (tableStep n e) place' := by
  obtain ⟨now, e⟩ := e
  cases e with
  | socket fd =>
    simp only [tableStep]
    cases ha : tcpAlloc n with
    | none => exact ⟨place, h⟩
    | some i =>
      obtain ⟨t, hi, hu⟩ := alloc_free ha
      have hfd : fd := hok.resolve_right (by rw [ha]; exact Option.some_ne_none i)
      simp only [if_pos hfd]
      have hfit : Place.owned.Fits t.allocated := by
        refine ⟨rfl, fun _ => rfl, fun hx => ?_, fun _ => rfl⟩
        cases hx
      exact ⟨_, h.alloc hi hu (setAt_upd hi) rfl rfl State.noConfusion hfit (.inl ⟨rfl, rfl⟩)⟩
  | call j ev =>
    simp only [tableStep]
    cases hj : n.socks[j]? with
    | none => exact ⟨place, h⟩
    | some i =>
      simp only
      split
      swap
      · exact ⟨place, h⟩
      rename_i hcall
      refine ⟨place, h.upd (fun t ht => (congrArg Slot.inUse (slot_callTcb now t hcall)).trans ht) fun t hi hu => ?_⟩
      have hst := h.stays hi hu
      obtain ⟨-, hp⟩ := h.owned i (mem_of_getElem? hj)
      rw [hp] at hst ⊢
      refine hst.call now hcall ?_ ?_
      · rintro r ro d p rfl
        exact hok i t hj hi
      · rintro b rfl
        exact hok i t hj hi
  | accept j res =>
    simp only [tableStep]
    cases hj : n.socks[j]? with
    | none => exact ⟨place, h⟩
    | some l => exact h.acceptStep res hj hok
  | close j =>
    simp only [tableStep]
    cases hj : n.socks[j]? with
    | none => exact ⟨place, h⟩
    | some i =>
      obtain ⟨⟨t, hi, -⟩, -⟩ := h.owned i (mem_of_getElem? hj)
      obtain ⟨hc, hk⟩ := hok i t hj hi
      exact h.close now hj hi hc hk
  | segment i s => exact h.segment hok
  | syn l rand dst src dport sport s =>
    simp only [tableStep]
    cases hl : n.tcbs[l]? with
    | none => exact ⟨place, h⟩
    | some tl =>
      cases ha : tcpAlloc n with
      | none => exact ⟨place, h⟩
      | some c =>
        simp only
        split
        swap
        · exact ⟨place, h⟩
        rename_i hlis
        obtain ⟨t, hc, hu⟩ := alloc_free ha
        obtain ⟨h1, h2, h3⟩ := passiveOpen_fits now rand dst src dport sport l s t
        refine ⟨_, h.alloc hc hu (setAt_upd hc) h1 h2 ?_ h3 (.inr ⟨⟨l, tl, rfl, hl, hlis.1, hlis.2⟩, rfl⟩)⟩
        rw [h3.2.2.1]
        decide
  | tick => exact ⟨place, h.tick hok⟩
  | flush i =>
    refine ⟨place, h.upd (fun t ht => (congrArg Slot.inUse (slot_txFlush t)).trans ht) fun t hi hu => ?_⟩
    refine (h.stays hi hu).same ?_ fun _ hid => hid.congr ?_
    · unfold txFlush
      split <;> rfl
    · unfold txFlush
      split <;> rfl

/-- **Lifetime of the blocks**: in every run that keeps away from the exits of `Tidy`, every block in
use is kept by somebody, and no block is released that somebody refers to. -/
theorem block_lifetime_run (n : Table) (es : List (ℕ × TableEvent)) (h0 : Empty n)
    (hrun : Run.Valid tableStep Tidy n es) : LifetimeOK (Run.final tableStep n es) := by
  have hinv : ∃ place, TableInv (Run.final tableStep n es) place := by
    refine hrun.invariant (I := fun n => ∃ place, TableInv n place) ?_ ⟨_, h0.inv⟩
    rintro n e ⟨place, h⟩ hok
    exact h.step e hok
  obtain ⟨place, h⟩ := hinv
  exact h.lifetimeOK

/-- Two free slots. -/
def twoSlots : Table := ⟨[{ blankTcb with inUse := false }, { blankTcb with inUse := false }], []⟩

theorem twoSlots_empty : Empty twoSlots := by
  refine ⟨?_, rfl⟩
  intro t ht
  simp only [twoSlots, mem_cons, not_mem_nil, or_false, or_self] at ht
  rw [ht]

/-- A socket listens, a peer connects, and the connection is accepted. -/
def acceptRun : List (ℕ × TableEvent) :=
  [(0, .socket true), (0, .call 0 (.listen 5)), (0, .syn 0 1000 1 2 80 4000 ⟨2000, 0, { syn := true }, 8192, 0, []⟩),
    (0, .segment 1 ⟨2001, 1001, { ack := true }, 8192, 0, []⟩), (0, .accept 0 .ok)]

theorem block_lifetime_run_accepted : LifetimeOK (Run.final tableStep twoSlots acceptRun) := by
  refine block_lifetime_run twoSlots acceptRun twoSlots_empty ⟨.inl rfl, ?_, trivial, ?_, ?_, trivial⟩
  · intro i t hj hi
    have hidle : ∀ t ∈ (Run.final tableStep twoSlots (acceptRun.take 1)).tcbs,
        t.rtoDeadline = 0 ∧ t.establishDeadline = 0 ∧ t.timewaitDeadline = 0 := by
      decide
    exact hidle t (mem_of_getElem? hi)
  · intro t l tl hi hs hp hl
    have hroom : ∀ t ∈ (Run.final tableStep twoSlots (acceptRun.take 3)).tcbs, t.acceptQ.length < backlogMax := by
      decide
    exact ⟨rfl, fun _ => hroom tl (mem_of_getElem? hl)⟩
  · intro l tl c t hj hl hc ht
    trivial

/-- A socket without a descriptor leaves its block in use, and nobody keeps it. -/
theorem socket_without_fd_leaks :
    ¬ ∀ (n : Table) (es : List (ℕ × TableEvent)), Empty n → LifetimeOK (Run.final tableStep n es) := by
  intro h
  have hok := (h twoSlots [(0, .socket false)] twoSlots_empty).kept 0 _ rfl rfl
  cases hok with
  | socket hs => cases hs
  | queued l tl hl hq hone | handshake l tl hl hs hp => cases hl.2
  | gone hg hs => cases hg

end NeoOS.Tcp
