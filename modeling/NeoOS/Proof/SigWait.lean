import NeoOS.Proof.WaitDue
import NeoOS.Spec.SigWait

/-!
# No thread sleeps through a signal

A thread that sleeps with a signal pending that it may take, or that it waits for, is in the hands of a waker,
or the sender that has `p->lock` has still to see to it.
-/

namespace NeoOS.SigWait

open Bool (and_eq_true or_eq_true)
open List
open Function (update update_of_ne update_self)

open Bytes Signal Links
open BitVec (getLsbD_and getLsbD_not getLsbD_or)
open WaitQueue (Moves Due Queued WakeComing)

variable {n sig k : ℕ} {s s' : State n} {t u v : Fin n} {w : Wait} {x : Sender n} {p : Word} {q : List Info}
  {e : WaitQueue.Event n} {pc : Pc} {target : Option (Fin n)}

/-! ## Signals and sleepers -/

/-- What a thread waits for in `rt_sigtimedwait`. -/
def Wait.want : Wait → Word
  | .sigtimedwait want _ _ => want
  | _ => 0

def State.wants (s : State n) (t : Fin n) : Word :=
  match s.pc t with
  | .asleep w => w.want
  | _ => 0

/-- A signal is pending that `t` may take or waits for. -/
def Awaits (s : State n) (t : Fin n) : Prop := (s.pending t ||| s.procPending) &&& (~~~s.blocked t ||| s.wants t) ≠ 0

/-- Once no sender is under way, every thread that sleeps and has a signal to take is about to be woken. -/
def Heard (s : State n) : Prop :=
  s.sender = none → ∀ t, s.wq.state t = .blocked → Awaits s t → WakeComing s.wq t

instance (s : State n) (t : Fin n) : Decidable (Awaits s t) := inferInstanceAs (Decidable (_ ≠ _))

instance (s : State n) : Decidable (Heard s) := inferInstanceAs (Decidable (_ → ∀ _, _ → _ → _))

/-! ## The condition -/

/-- The thread sleeps on a queue other than `sig_waiters`. -/
def Pc.plain : Pc → Bool
  | .asleep (.waitq ..) => true
  | _ => false

/-- What the next step of a thread asks of the state before it. -/
def GoOK (s : State n) (t : Fin n) : Pc → Prop
  | .call w => WaitQueue.StepOK s.wq (.sleep t w.queue w.deadline)
  | .unlist _ => WaitQueue.StepOK s.wq (.unlist t)
  -- no signal has come since the thread looked
  | .enter w false => signalNextDeliverable t s = 0 ∧ signalNextPendingIn t w.want s = 0
  | _ => True

/-- What the next step of the sender asks of the state before it. -/
def ActOK (s : State n) : Sender n → Prop
  -- a signal for the process is not one that a thread sleeps for
  | .add none sig _ _ => ∀ t, s.wq.state t = .blocked → has (s.wants t) (sigmaskOf sig) = false
  -- the loop does not come to a thread that may take the signal when another one sleeps that may take it
  | .walk sig (u :: _) _ => ∀ v, v ≠ u → s.wq.state v = .blocked → (s.pc v).plain →
      has (s.blocked v) (sigmaskOf sig) ∨ has (s.blocked u) (sigmaskOf sig)
  | _ => True

def StepOK (s : State n) : Event n → Prop
  | .wq e => WaitQueue.StepOK s.wq e
  | .go t => GoOK s t (s.pc t)
  | .act => ∀ x ∈ s.sender, ActOK s x
  | _ => True

instance (s : State n) (t : Fin n) (pc : Pc) : Decidable (GoOK s t pc) :=
  match pc with
  | .call w => inferInstanceAs (Decidable (WaitQueue.StepOK s.wq (.sleep t w.queue w.deadline)))
  | .unlist _ => inferInstanceAs (Decidable (WaitQueue.StepOK s.wq (.unlist t)))
  | .enter _ false => inferInstanceAs (Decidable (_ ∧ _))
  | .enter _ true | .run | .suspend _ | .accept .. | .loop _ | .loopProc .. | .check _ | .checkProc _ | .asleep _
  | .recheckProc _ | .resume .. | .back _ | .taking .. | .restore _ => isTrue trivial

instance (s : State n) (x : Sender n) : Decidable (ActOK s x) :=
  match x with
  | .add none _ _ _ => inferInstanceAs (Decidable (∀ _ : Fin n, _ → _))
  | .walk _ (_ :: _) _ => inferInstanceAs (Decidable (∀ _ : Fin n, _ → _ → _ → _))
  | .add (some _) _ _ _ | .walk _ [] _ | .awake .. | .wakeAll _ | .waking .. | .test _ | .read _ | .readProc _
  | .removing _ => isTrue trivial

instance (s : State n) (e : Event n) : Decidable (StepOK s e) :=
  match e with
  | .wq e => inferInstanceAs (Decidable (WaitQueue.StepOK s.wq e))
  | .go t => inferInstanceAs (Decidable (GoOK s t (s.pc t)))
  | .act => inferInstanceAs (Decidable (∀ x ∈ s.sender, ActOK s x))
  | .mask .. | .take .. | .interlock _ | .sleep .. | .sigsuspend .. | .sigtimedwait .. | .send .. => isTrue trivial

/-! ## Sets of signals -/

theorem ne_zero_iff {w : Word} : w ≠ 0 ↔ ∃ k, w.getLsbD k := by
  constructor
  · intro h
    by_contra hc
    apply h
    apply BitVec.eq_of_getLsbD_eq
    intro i _
    have hi : w.getLsbD i ≠ true := fun hi => hc ⟨i, hi⟩
    simpa using hi
  · rintro ⟨k, hk⟩ rfl
    simp at hk

theorem has_sigmaskOf (w : Word) (sig : ℕ) : has w (sigmaskOf sig) = w.getLsbD (sig - 1) := by
  rw [Bool.eq_iff_iff]
  unfold has
  rw [bne_iff_ne, ne_zero_iff]
  constructor
  · rintro ⟨k, hk⟩
    simp [sigmaskOf] at hk
    obtain ⟨hw, h1, h2⟩ := hk
    have : k = sig - 1 := by omega
    exact this ▸ hw
  · intro h
    refine ⟨sig - 1, ?_⟩
    have hlt := BitVec.lt_of_getLsbD h
    simp [sigmaskOf, h, hlt]

theorem lowest_eq_zero {w : Word} : lowest w = 0 ↔ w = 0 := by
  unfold lowest
  cases hf : (List.range 64).find? fun k => w.getLsbD k with
  | none =>
    simp only [true_iff]
    apply BitVec.eq_of_getLsbD_eq
    intro i hi
    have := find?_eq_none.1 hf i (mem_range.2 hi)
    simpa using this
  | some k =>
    simp only [Nat.add_eq_zero_iff, one_ne_zero, and_false, false_iff]
    exact ne_zero_iff.2 ⟨k, by simpa using find?_some hf⟩

/-- A set that meets what the thread reacts to. -/
theorem awaits_iff : Awaits s t ↔ ∃ k, ((s.pending t).getLsbD k ∨ s.procPending.getLsbD k) ∧
    ((s.blocked t).getLsbD k = false ∧ k < 64 ∨ (s.wants t).getLsbD k) := by
  unfold Awaits
  rw [ne_zero_iff]
  simp only [getLsbD_and, getLsbD_or, getLsbD_not, and_eq_true, or_eq_true, decide_eq_true_eq, Bool.not_eq_true']
  refine exists_congr fun k => and_congr_right fun _ => or_congr_left ?_
  exact and_comm

theorem Awaits.mono (h : Awaits s' t) (hp : ∀ k, (s'.pending t).getLsbD k → (s.pending t).getLsbD k)
    (hq : ∀ k, s'.procPending.getLsbD k → s.procPending.getLsbD k) (hb : s'.blocked t = s.blocked t)
    (hpc : s'.pc t = s.pc t) : Awaits s t := by
  rw [awaits_iff] at h ⊢
  obtain ⟨k, hk, ha⟩ := h
  refine ⟨k, hk.imp (hp k) (hq k), ?_⟩
  rw [hb] at ha
  unfold State.wants at ha ⊢
  rw [hpc] at ha
  exact ha

/-- A thread that has looked at the right moment awaits nothing. -/
theorem not_awaits (h : signalNextDeliverable t s = 0) (hw : signalNextPendingIn t w.want s = 0)
    (hp : s'.pending t = s.pending t) (hq : s'.procPending = s.procPending) (hb : s'.blocked t = s.blocked t)
    (hpc : s'.pc t = .asleep w) : ¬Awaits s' t := by
  have hready : s.ready t = 0 ∧ s.readyProc t = 0 := by
    unfold signalNextDeliverable at h
    split at h
    · rename_i hz
      exact ⟨hz, lowest_eq_zero.1 h⟩
    · rename_i hz
      exact absurd (lowest_eq_zero.1 h) hz
  have hwant := lowest_eq_zero.1 hw
  unfold Awaits State.wants
  rw [hp, hq, hb, hpc, ne_zero_iff]
  rintro ⟨k, hk⟩
  have hzero : ∀ {x : Word}, x = 0 → x.getLsbD k = false := by
    rintro x rfl
    simp
  have h1 := hzero hready.1
  have h2 := hzero hready.2
  have h3 := hzero hwant
  unfold State.ready at h1
  unfold State.readyProc at h2
  simp only [getLsbD_and, getLsbD_or, getLsbD_not] at h1 h2 h3 hk
  revert h1 h2 h3 hk
  generalize (s.pending t).getLsbD k = a, s.procPending.getLsbD k = b, (s.blocked t).getLsbD k = c, w.want.getLsbD k = d,
    decide (k < 64) = e
  revert a b c d e
  decide

/-! ## The invariant -/

/-- What the sender will still do for a thread that has a signal to take. -/
def Owes (s : State n) (t : Fin n) : Sender n → Prop
  | .add .. | .removing _ => False
  | .walk sig rest target => has (s.blocked t) (sigmaskOf sig) = false ∧
      (t ∈ rest ∨ target = some t ∨ (s.pc t).plain = false ∧ target ≠ none)
  | .awake sig v _ => has (s.blocked t) (sigmaskOf sig) = false ∧ (t = v ∨ (s.pc t).plain = false)
  | .wakeAll v => t = v ∨ (s.pc t).plain = false
  | .waking v i => (s.pc t).plain = false ∧ s.wq.pc i = .wakeAll sigWaiters ∨ t = v ∧ (s.pc t).plain
  | .test v | .read v => t = v ∧ (s.pc t).plain
  | .readProc v => t = v ∧ (s.pc t).plain ∧ s.ready t = 0

/-- A thread that sleeps is on its queue or somebody wakes it, and somebody does if it has a signal to take. -/
def Tended (s : State n) (t : Fin n) : Prop :=
  s.wq.state t = .blocked → ∃ w, s.pc t = .asleep w ∧ (Queued s.wq w.queue t ∨ Due s.wq t) ∧
    (Awaits s t → Due s.wq t ∨ ∃ x ∈ s.sender, Owes s t x)

/-- The wait queues have the thread in the call that it is in. -/
def Matches : Pc → WaitQueue.Sleep → Prop
  | .check w, x | .checkProc w, x | .enter w _, x => x = .enter w.queue w.deadline.isSome
  | .asleep w, x | .recheckProc w, x | .resume w _, x => x = .asleep w.deadline.isSome
  | .unlist _, x => ∃ rc, x = .finish rc
  | _, x => x = .out

structure Inv (s : State n) : Prop where
  sound : WaitQueue.Sound s.wq
  tended : ∀ t, Tended s t
  call : ∀ t, Matches (s.pc t) (s.wq.sleep t)
  payload : ∀ x ∈ s.procQueued, 32 ≤ x.signo ∧ (x.signo ≤ 64 → s.procPending.getLsbD (x.signo - 1))

/-- **A step that leaves a sleeping thread as it is.** -/
theorem Tended.quiet (h : Tended s t) (hm : Moves s.wq s'.wq)
    (hb : s'.wq.state t = .blocked → s.wq.state t = .blocked ∧ s'.pc t = s.pc t ∧ (Awaits s' t → Awaits s t))
    (ho : s.wq.state t = .blocked → s'.wq.state t = .blocked → Awaits s t → ∀ x ∈ s.sender, Owes s t x →
      Due s'.wq t ∨ ∃ y ∈ s'.sender, Owes s' t y) : Tended s' t := by
  intro hb'
  obtain ⟨hbl, hpc, hmono⟩ := hb hb'
  obtain ⟨w, hw, hq, ha⟩ := h hbl
  refine ⟨w, hpc.trans hw, ?_, ?_⟩
  · rcases hq with hq | hq
    · exact hm.queued t _ hq
    · exact .inr (hm.due t hbl hb' hq)
  · intro haw
    rcases ha (hmono haw) with hd | ⟨x, hx, hox⟩
    · exact .inl (hm.due t hbl hb' hd)
    · exact ho hbl hb' (hmono haw) x hx hox

/-- What the sender owes depends on the thread and, while the queue is drained, on the waker. -/
theorem Owes.congr (h : Owes s t x) (hpc : s'.pc t = s.pc t) (hb : s'.blocked t = s.blocked t)
    (hp : ∀ k, (s'.pending t).getLsbD k → (s.pending t).getLsbD k)
    (hw : ∀ v i, x = .waking v i → s.wq.pc i = .wakeAll sigWaiters → s'.wq.pc i = .wakeAll sigWaiters) : Owes s' t x := by
  cases x with
  | add | removing => exact h
  | walk | awake | wakeAll | test | read =>
    simp only [Owes, hpc, hb] at h ⊢
    exact h
  | waking v i =>
    simp only [Owes, hpc] at h ⊢
    exact h.imp_left fun h => ⟨h.1, hw v i rfl h.2⟩
  | readProc v =>
    simp only [Owes, hpc] at h ⊢
    refine ⟨h.1, h.2.1, ?_⟩
    have hz := h.2.2
    unfold State.ready at hz ⊢
    by_contra hne
    obtain ⟨k, hk⟩ := ne_zero_iff.1 hne
    rw [getLsbD_and, and_eq_true, hb] at hk
    have hk' : (s.pending t &&& ~~~s.blocked t).getLsbD k := by
      rw [getLsbD_and, and_eq_true]
      exact ⟨hp k hk.1, hk.2⟩
    rw [hz] at hk'
    simp at hk'

/-- A thread that a step leaves alone, in which no signal comes. -/
theorem Tended.keep (h : Tended s t) (hm : Moves s.wq s'.wq) (hst : s'.wq.state t = .blocked → s.wq.state t = .blocked)
    (hpc : s'.pc t = s.pc t) (hb : s'.blocked t = s.blocked t) (hact : s'.wq.actors = s.wq.actors)
    (hsend : s'.sender = s.sender)
    (hp : ∀ k, (s'.pending t).getLsbD k → (s.pending t).getLsbD k)
    (hq : ∀ k, s'.procPending.getLsbD k → s.procPending.getLsbD k) : Tended s' t := by
  refine h.quiet hm (fun hbl => ⟨hst hbl, hpc, fun ha => ha.mono hp hq hb hpc⟩) ?_
  intro _ _ _ x hx hox
  rw [hsend]
  refine .inr ⟨x, hx, hox.congr hpc hb hp ?_⟩
  intro _ i _ hi
  unfold WaitQueue.State.pc at hi ⊢
  rw [hact]
  exact hi

theorem not_blocked (hr : s.wq.state u = .running) (hb : s.wq.state t = .blocked) : t ≠ u := by
  rintro rfl
  rw [hr] at hb
  cases hb

theorem matches_left (w : Wait) (rc : ℤ) : Matches w.left (if w.deadline.isSome then .finish rc else .out) := by
  unfold Wait.left
  split
  · exact ⟨rc, rfl⟩
  · rfl

theorem sigmaskOf_getLsbD : (sigmaskOf sig).getLsbD k ↔ k = sig - 1 ∧ k < 64 := by
  simp only [sigmaskOf, BitVec.getLsbD_shiftLeft, BitVec.getLsbD_one, and_eq_true, decide_eq_true_eq, Bool.not_eq_true',
    decide_eq_false_iff_not]
  omega

theorem getLsbD_and_not (hp : p.getLsbD k) (hne : k ≠ sig - 1) : (p &&& ~~~sigmaskOf sig).getLsbD k := by
  have hm : (sigmaskOf sig).getLsbD k = false := by
    rw [Bool.eq_false_iff, ne_eq, sigmaskOf_getLsbD]
    exact fun h => hne h.1
  rw [getLsbD_and, getLsbD_not, hp, hm]
  simpa using BitVec.lt_of_getLsbD hp

/-- A signal that is taken is pending again only if it was. -/
theorem pendingAfter_le {found : Option Info} (h : found.isSome → 32 ≤ sig → sig ≤ 64 → p.getLsbD (sig - 1))
    (hk : (pendingAfter sig p found q).getLsbD k) : p.getLsbD k := by
  unfold pendingAfter at hk
  split at hk
  · rename_i hre
    rw [getLsbD_or, or_eq_true, getLsbD_and, and_eq_true, sigmaskOf_getLsbD] at hk
    rcases hk with hk | ⟨rfl, hlt⟩
    · exact hk.1
    · exact h hre.1 hre.2.1 (by omega)
  · rw [getLsbD_and, and_eq_true] at hk
    exact hk.1

/-- A payload that stays queued has its signal pending. -/
theorem pendingAfter_of_mem {x : Info} (hx : x ∈ (takeQueued sig q).2) (h32 : 32 ≤ x.signo)
    (h64 : x.signo ≤ 64) (hp : p.getLsbD (x.signo - 1)) :
    (pendingAfter sig p (takeQueued sig q).1 (takeQueued sig q).2).getLsbD (x.signo - 1) := by
  have hmem : x ∈ q := mem_of_mem_eraseP hx
  unfold pendingAfter
  by_cases hsig : x.signo = sig
  · rw [if_pos, getLsbD_or, or_eq_true, sigmaskOf_getLsbD]
    · exact .inr ⟨by rw [hsig], by omega⟩
    · refine ⟨?_, by omega, any_eq_true.2 ⟨x, hx, by simpa using hsig⟩⟩
      exact find?_isSome.2 ⟨x, hmem, by simpa using hsig⟩
  · have hout : (p &&& ~~~sigmaskOf sig).getLsbD (x.signo - 1) := getLsbD_and_not hp (by omega)
    split
    · rw [getLsbD_or, hout]
      rfl
    · exact hout

theorem getD_pc (wq : WaitQueue.State n) (i : ℕ) : (wq.actors[i]?.map (·.pc)).getD .idle = wq.pc i := by
  unfold WaitQueue.State.pc
  cases wq.actors[i]? <;> rfl

theorem pc_launch (wq : WaitQueue.State n) (pc : WaitQueue.Pc n) : (wq.launch pc).pc wq.actors.length = pc := by
  unfold WaitQueue.State.pc WaitQueue.State.launch
  simp

/-- A thread that sleeps on another queue waits for no signal. -/
theorem wants_of_plain (h : (s.pc t).plain) : s.wants t = 0 := by
  unfold State.wants
  cases hpc : s.pc t with
  | asleep w =>
    rw [hpc] at h
    cases w with
    | waitq q deadline => rfl
    | sigsuspend | sigtimedwait => cases h
  | _ => rfl

theorem not_awaits_of_plain (h : (s.pc t).plain) (hr : s.ready t = 0) (hp : s.readyProc t = 0) : ¬Awaits s t := by
  intro ha
  obtain ⟨k, hk, hb⟩ := awaits_iff.1 ha
  rw [wants_of_plain h] at hb
  rcases hb with ⟨hb, hlt⟩ | hb
  · have hbit : ∀ {x : Word}, x.getLsbD k → (x &&& ~~~s.blocked t).getLsbD k := by
      intro x hx
      rw [getLsbD_and, getLsbD_not, hx, hb]
      simp [hlt]
    rcases hk with hk | hk
    · exact ne_zero_iff.2 ⟨k, hbit hk⟩ hr
    · exact ne_zero_iff.2 ⟨k, hbit hk⟩ hp
  · simp at hb

theorem queue_of_not_plain (h : (Pc.asleep w).plain = false) : w.queue = sigWaiters := by
  cases w with
  | waitq q deadline => cases h
  | sigsuspend | sigtimedwait => rfl

theorem inCall_of_outside (h : outside e) : e.inCall = false := by
  cases e with
  | sleep | enter | resume | unlist => cases h
  | _ => rfl

theorem Inv.initial : Inv (.initial n) where
  sound := WaitQueue.Sound.initial
  tended := nofun
  call _ := rfl
  payload := nofun

section

variable (h : Inv s)
include h

/-- **A step of one thread that does not sleep after it**, in which no signal comes. -/
theorem Inv.thread (u : Fin n) (hm : Moves s.wq s'.wq) (hst : ∀ t, s'.wq.state t = .blocked → s.wq.state t = .blocked ∧ t ≠ u)
    (hpc : ∀ t, t ≠ u → s'.pc t = s.pc t ∧ s'.blocked t = s.blocked t ∧ s'.wq.sleep t = s.wq.sleep t)
    (hcall : Matches (s'.pc u) (s'.wq.sleep u)) (hact : s'.wq.actors = s.wq.actors) (hsend : s'.sender = s.sender)
    (hp : ∀ t k, (s'.pending t).getLsbD k → (s.pending t).getLsbD k)
    (hq : ∀ k, s'.procPending.getLsbD k → s.procPending.getLsbD k)
    (hpay : ∀ x ∈ s'.procQueued, 32 ≤ x.signo ∧ (x.signo ≤ 64 → s'.procPending.getLsbD (x.signo - 1))) : Inv s' := by
  refine ⟨hm.sound, ?_, ?_, hpay⟩
  · intro t
    by_cases htu : t = u
    · intro hb
      exact absurd htu (hst t hb).2
    · obtain ⟨hpct, hbt, -⟩ := hpc t htu
      exact (h.tended t).keep hm (fun hb => (hst t hb).1) hpct hbt hact hsend (hp t) hq
  · intro t
    by_cases htu : t = u
    · subst htu
      exact hcall
    · rw [(hpc t htu).1, (hpc t htu).2.2]
      exact h.call t

/-! ## The steps of the threads -/

section

variable (hr : s.wq.state u = .running)
include hr

/-- A thread that runs goes on, with its call where the wait queues have it. -/
theorem Inv.goto (hm : Matches pc (s.wq.sleep u)) : Inv (s.goto u pc) := by
  refine h.thread u (.refl h.sound) (fun t hb => ⟨hb, not_blocked hr hb⟩) ?_ ?_ rfl rfl (fun _ _ hk => hk) (fun _ hk => hk)
    h.payload
  · intro t ht
    exact ⟨update_of_ne ht _ _, rfl, rfl⟩
  · show Matches (update s.pc u pc u) (s.wq.sleep u)
    rw [update_self]
    exact hm

theorem Inv.setMask (mask : Word) : Inv (s.setMask u mask) := by
  refine h.thread u (.refl h.sound) (fun t hb => ⟨hb, not_blocked hr hb⟩) ?_ (h.call u) rfl rfl (fun _ _ hk => hk)
    (fun _ hk => hk) h.payload
  intro t ht
  exact ⟨rfl, update_of_ne ht _ _, rfl⟩

/-- A thread goes on in `waitq_sleep` and does not sleep. -/
theorem Inv.goWq (hok : WaitQueue.StepOK s.wq e) (hw : e.waker = false) (hst : (WaitQueue.step s.wq e).state = s.wq.state)
    (hsl : ∀ t, t ≠ u → (WaitQueue.step s.wq e).sleep t = s.wq.sleep t) (hm : Matches pc ((WaitQueue.step s.wq e).sleep u)) :
    Inv ({ s with wq := WaitQueue.step s.wq e }.goto u pc) := by
  refine h.thread u (.step h.sound hok) ?_ ?_ ?_ (WaitQueue.step_thread hw).1 rfl (fun _ _ hk => hk) (fun _ hk => hk) h.payload
  · intro t hb
    have hb' : s.wq.state t = .blocked := hst ▸ hb
    exact ⟨hb', not_blocked hr hb'⟩
  · intro t ht
    exact ⟨update_of_ne ht _ _, rfl, hsl t ht⟩
  · show Matches (update s.pc u pc u) _
    rw [update_self]
    exact hm

/-- **A thread goes to sleep** at a moment at which it has no signal to take. -/
theorem Inv.enter (hpc : s.pc u = .enter w false) (hd : signalNextDeliverable u s = 0)
    (hw : signalNextPendingIn u w.want s = 0) :
    Inv ({ s with wq := WaitQueue.step s.wq (.enter u false false) }.goto u (.asleep w)) := by
  have hcall := h.call u
  rw [hpc] at hcall
  have hstep := WaitQueue.step_enter hr hcall false false
  have hm : Moves s.wq (WaitQueue.step s.wq (.enter u false false)) := .step h.sound trivial
  have hact := (WaitQueue.step_thread (s := s.wq) (e := .enter u false false) rfl).1
  have hst : ∀ t, t ≠ u → (WaitQueue.step s.wq (.enter u false false)).state t = s.wq.state t := by
    intro t ht
    rw [hstep]
    exact update_of_ne ht _ _
  refine ⟨hm.sound, ?_, ?_, h.payload⟩
  · intro t
    by_cases htu : t = u
    · subst htu
      intro _
      refine ⟨w, update_self _ _ _, .inl ?_, ?_⟩
      · show Queued (WaitQueue.step s.wq (.enter t false false)) w.queue t
        rw [hstep]
        exact WaitQueue.queued_enter hr h.sound _ _
      · intro ha
        exact absurd ha (not_awaits hd hw rfl rfl rfl (update_self _ _ _))
    · exact (h.tended t).keep hm (hst t htu).symm.trans (update_of_ne htu _ _) rfl hact rfl (fun _ hk => hk) fun _ hk => hk
  · intro t
    show Matches (update s.pc u (.asleep w) t) ((WaitQueue.step s.wq (.enter u false false)).sleep t)
    rw [hstep]
    by_cases htu : t = u
    · subst htu
      rw [update_self]
      exact update_self _ _ _
    · rw [update_of_ne htu]
      have hsl : (WaitQueue.waitqEnter u w.queue w.deadline.isSome false false s.wq).sleep t = s.wq.sleep t :=
        update_of_ne htu _ _
      rw [hsl]
      exact h.call t

theorem Inv.take (sig : ℕ) : Inv (signalTakePending u sig s) := by
  unfold signalTakePending
  split
  · rename_i hhas
    rw [has_sigmaskOf] at hhas
    refine h.thread u (.refl h.sound) (fun t hb => ⟨hb, not_blocked hr hb⟩) (fun _ _ => ⟨rfl, rfl, rfl⟩) (h.call u) rfl rfl
      ?_ (fun _ hk => hk) h.payload
    intro t k hk
    by_cases htu : t = u
    · subst htu
      simp only [update_self] at hk
      exact pendingAfter_le (fun _ _ _ => hhas) hk
    · simp only [update_of_ne htu] at hk
      exact hk
  · refine h.thread u (.refl h.sound) (fun t hb => ⟨hb, not_blocked hr hb⟩) (fun _ _ => ⟨rfl, rfl, rfl⟩) (h.call u) rfl rfl
      (fun _ _ hk => hk) ?_ ?_
    · intro k hk
      refine pendingAfter_le ?_ hk
      intro hfound h32 h64
      obtain ⟨x, hx, hsig⟩ := find?_isSome.1 hfound
      have hsig' : x.signo = sig := by simpa using hsig
      have hbit := (h.payload x hx).2
      rw [hsig'] at hbit
      exact hbit h64
    · intro x hx
      obtain ⟨h32, hbit⟩ := h.payload x (mem_of_mem_eraseP hx)
      exact ⟨h32, fun h64 => pendingAfter_of_mem hx h32 h64 (hbit h64)⟩

/-- **Every step of a thread.** -/
theorem Inv.go (hok : GoOK s u (s.pc u)) : Inv (go u s) := by
  have hcall := h.call u
  unfold SigWait.go
  cases hpc : s.pc u with
  | run => exact h
  | suspend | accept | restore =>
    rw [hpc] at hcall
    exact (h.setMask hr _).goto hr hcall
  | loop w | loopProc w seen | back w =>
    rw [hpc] at hcall
    cases w <;> apply h.goto hr <;> (try split) <;> exact hcall
  | call w =>
    rw [hpc] at hcall hok
    obtain ⟨hst, hsl, hu⟩ := WaitQueue.step_sleep hr hcall w.queue w.deadline
    apply h.goWq hr hok rfl hst hsl
    rcases hu with hu | hu
    · rw [if_pos hu]
      exact hu
    · rw [if_neg]
      · exact hu
      · rw [hu]
        exact WaitQueue.Sleep.noConfusion
  | check | asleep =>
    rw [hpc] at hcall
    apply h.goto hr
    split <;> exact hcall
  | checkProc | recheckProc =>
    rw [hpc] at hcall
    exact h.goto hr hcall
  | enter w pending =>
    rw [hpc] at hcall hok
    cases pending with
    | false => exact h.enter hr hpc hok.1 hok.2
    | true =>
      have hstep := WaitQueue.step_enter hr hcall true false
      obtain ⟨hst, hsl, hu⟩ := WaitQueue.sleepReturn_call u w.deadline.isSome WaitQueue.eintr s.wq
      apply h.goWq (e := .enter u true false) hr trivial rfl <;> rw [hstep]
      · exact hst
      · exact hsl
      · exact hu.symm ▸ matches_left w _
  | resume w pending =>
    rw [hpc] at hcall
    have hstep := WaitQueue.step_resume hr hcall pending
    obtain ⟨hst, hsl, hu⟩ := WaitQueue.sleepReturn_call u w.deadline.isSome (if pending then WaitQueue.eintr else 0)
      { s.wq with blockedOn := update s.wq.blockedOn u none }
    apply h.goWq (e := .resume u pending) hr trivial rfl <;> rw [hstep]
    · exact hst
    · exact hsl
    · rw [hu]
      exact matches_left w _
  | unlist w =>
    rw [hpc] at hcall hok
    obtain ⟨rc, hrc⟩ := hcall
    obtain ⟨hst, hsl, hu⟩ := WaitQueue.step_unlist hr hrc
    exact h.goWq (e := .unlist u) hr hok rfl hst hsl hu
  | taking saved sig =>
    rw [hpc] at hcall
    simp only
    split
    · exact h
    · have hwq : (signalTakePending u sig s).wq = s.wq := by
        unfold signalTakePending
        split <;> rfl
      exact (h.take hr sig).goto (by rw [hwq]; exact hr) (by rw [hwq]; exact hcall)

end

/-! ## The steps of the sender -/

/-- The sender goes on to `x`, having started a waker or not. -/
theorem Inv.send (wq : WaitQueue.State n) {x : Option (Sender n)} (hm : Moves s.wq wq) (hst : wq.state = s.wq.state)
    (hsl : wq.sleep = s.wq.sleep) (ho : ∀ t, s.wq.state t = .blocked → Awaits s t → ∀ y ∈ s.sender, Owes s t y →
      Due wq t ∨ ∃ z ∈ x, Owes { s with wq := wq, sender := x } t z) : Inv { s with wq := wq, sender := x } := by
  refine ⟨hm.sound, ?_, ?_, h.payload⟩
  · intro t
    refine (h.tended t).quiet hm ?_ fun hb _ ha => ho t hb ha
    intro hb
    exact ⟨(congrFun hst t).symm.trans hb, rfl, fun ha => ha.mono (fun _ hk => hk) (fun _ hk => hk) rfl rfl⟩
  · intro t
    rw [hsl]
    exact h.call t

theorem Inv.sending
    (ho : ∀ t, s.wq.state t = .blocked → Awaits s t → ∀ y ∈ s.sender, Owes s t y → Owes s t x) : Inv (s.sending x) :=
  h.send s.wq (.refl h.sound) rfl rfl fun t hb ha y hy hoy => .inr ⟨x, rfl, ho t hb ha y hy hoy⟩

theorem Inv.unlock (ho : ∀ t, s.wq.state t = .blocked → Awaits s t → ∀ y ∈ s.sender, ¬Owes s t y) : Inv s.unlock :=
  h.send s.wq (.refl h.sound) rfl rfl fun t hb ha y hy hoy => absurd hoy (ho t hb ha y hy)

theorem Inv.remove (ho : ∀ t, ∀ y ∈ s.sender, Owes s t y → t = v) : Inv (s.remove v) := by
  have hm : Moves s.wq (s.wq.launch (.remove v .done)) := .launch h.sound rfl rfl rfl rfl
  refine h.send (s.wq.launch (.remove v .done)) hm rfl rfl ?_
  intro t _ _ y hy hoy
  refine .inl ⟨s.wq.actors.length, .inl ?_⟩
  rw [pc_launch, ho t y hy hoy]
  rfl

/-- **A signal becomes pending.** -/
theorem Inv.add {info : Option (List Word)} {room : Bool}
    (hs : s.sender = some (.add target sig info room)) (hok : ActOK s (.add target sig info room)) :
    Inv (act s (.add target sig info room)) := by
  -- the sender has promised nothing yet
  have hdue : ∀ t, s.wq.state t = .blocked → Awaits s t → Due s.wq t := by
    intro t hb ha
    obtain ⟨w, -, -, hd⟩ := h.tended t hb
    rcases hd ha with hd | ⟨x, hx, hox⟩
    · exact hd
    · rw [hs] at hx
      cases hx
      exact hox.elim
  cases hq : queueAppend sig info room with
  | none =>
    simp only [SigWait.act, hq]
    apply h.unlock
    intro t _ _ y hy
    rw [hs] at hy
    cases hy
    exact id
  | some q =>
    cases target with
    | some v =>
      simp only [SigWait.act, hq]
      refine { h with tended := ?_ }
      intro t hb
      obtain ⟨w, hw, hqd, -⟩ := h.tended t hb
      refine ⟨w, hw, hqd, ?_⟩
      intro ha
      by_cases htv : t = v
      · exact .inr ⟨_, rfl, .inl htv⟩
      · left
        apply hdue t hb
        refine ha.mono ?_ (fun _ hk => hk) rfl rfl
        intro k hk
        simp only [update_of_ne htv] at hk
        exact hk
    | none =>
      simp only [SigWait.act, hq]
      refine ⟨h.sound, ?_, h.call, ?_⟩
      · intro t hb
        obtain ⟨w, hw, hqd, -⟩ := h.tended t hb
        refine ⟨w, hw, hqd, ?_⟩
        intro ha
        by_cases hold : Awaits s t
        · exact .inl (hdue t hb hold)
        -- what is new is the signal itself, and the thread does not sleep for it
        refine .inr ⟨_, rfl, ?_, .inl (mem_finRange t)⟩
        have hwant := hok t hb
        rw [has_sigmaskOf] at hwant ⊢
        obtain ⟨k, hk, hacc⟩ := awaits_iff.1 ha
        simp only [getLsbD_or, or_eq_true, sigmaskOf_getLsbD] at hk
        rcases hk with hk | hk | ⟨rfl, -⟩
        · exact absurd (awaits_iff.2 ⟨k, .inl hk, hacc⟩) hold
        · exact absurd (awaits_iff.2 ⟨k, .inr hk, hacc⟩) hold
        · rcases hacc with ⟨hb', -⟩ | hacc
          · exact hb'
          · have hacc' : (s.wants t).getLsbD (sig - 1) := hacc
            rw [hwant] at hacc'
            cases hacc'
      · intro x hx
        simp only [getLsbD_or, or_eq_true, sigmaskOf_getLsbD]
        rcases mem_append.1 hx with hx | hx
        · exact ⟨(h.payload x hx).1, fun h64 => .inl ((h.payload x hx).2 h64)⟩
        · unfold queueAppend at hq
          split at hq
          · split at hq
            · split at hq
              · rename_i h32 _
                cases hq
                rw [mem_singleton] at hx
                subst hx
                exact ⟨h32, fun h64 => .inr ⟨rfl, by simp only at h64 ⊢; omega⟩⟩
              · cases hq
            · cases hq
              cases hx
          · cases hq
            cases hx

section

variable {y : Sender n} (hs : s.sender = some x)
include hs

omit h in
theorem Owes.current (hy : y ∈ s.sender) (ho : Owes s t y) : Owes s t x := by
  rw [hs] at hy
  cases hy
  exact ho

/-- The sender goes on, and owes what it owed. -/
theorem Inv.pass (ho : ∀ t, s.wq.state t = .blocked → Owes s t x → Owes s t y) : Inv (s.sending y) :=
  h.sending fun t hb _ _ hy hoy => ho t hb (hoy.current hs hy)

/-- The sender is done, and owes nothing. -/
theorem Inv.finish (ho : ∀ t, s.wq.state t = .blocked → Awaits s t → ¬Owes s t x) : Inv s.unlock :=
  h.unlock fun t hb ha _ hy hoy => ho t hb ha (hoy.current hs hy)

end

/-- The loop over the threads of the process. -/
theorem Inv.walk {rest : List (Fin n)} (hs : s.sender = some (.walk sig rest target))
    (hok : ActOK s (.walk sig rest target)) : Inv (act s (.walk sig rest target)) := by
  cases rest with
  | nil =>
    cases target with
    | none =>
      apply h.finish hs
      rintro t - - ⟨-, ho | ho | ho⟩
      · cases ho
      · cases ho
      · exact ho.2 rfl
    | some v =>
      apply h.pass hs
      rintro t - ⟨-, ho | ho | ho⟩
      · cases ho
      · exact .inl (Option.some.inj ho).symm
      · exact .inr ho.1
  | cons v rest =>
    simp only [SigWait.act]
    split
    · rename_i hv
      apply h.pass hs
      rintro t - ⟨hb, ho | ho⟩
      · rcases mem_cons.1 ho with rfl | ho
        · rw [hb] at hv
          cases hv
        · exact ⟨hb, .inl ho⟩
      · exact ⟨hb, .inr ho⟩
    · rename_i hv
      apply h.pass hs
      rintro t hbl ⟨hb, ho⟩
      refine ⟨hb, ?_⟩
      by_cases htv : t = v
      · exact .inl htv
      right
      by_contra hplain
      rcases hok t htv hbl (Bool.eq_true_of_not_eq_false hplain) with hm | hm
      · rw [hb] at hm
        cases hm
      · exact hv hm

/-- `waitq_wake_all` takes the threads of `sig_waiters`; the target may sleep elsewhere. -/
theorem Inv.wakeAll (hs : s.sender = some (.wakeAll v)) : Inv (act s (.wakeAll v)) := by
  have hm : Moves s.wq (s.wq.launch (.wakeAll sigWaiters)) := .launch h.sound rfl rfl rfl rfl
  refine h.send (s.wq.launch (.wakeAll sigWaiters)) hm rfl rfl ?_
  intro t _ _ y hy hoy
  refine .inr ⟨_, rfl, ?_⟩
  have ho := hoy.current hs hy
  cases hp : (s.pc t).plain with
  | false => exact .inl ⟨hp, pc_launch _ _⟩
  | true =>
    rcases ho with ho | ho
    · exact .inr ⟨ho, hp⟩
    · rw [hp] at ho
      cases ho

/-- **Every step of the sender.** -/
theorem Inv.act (hs : s.sender = some x) (hok : ActOK s x) : Inv (act s x) := by
  cases x with
  | add target sig info room => exact h.add hs hok
  | walk sig rest target => exact h.walk hs hok
  | awake sig v rest =>
    simp only [SigWait.act]
    split
    · apply h.pass hs
      rintro t - ⟨hb, ho⟩
      refine ⟨hb, .inr ?_⟩
      rcases ho with rfl | ho
      · exact .inl rfl
      · exact .inr ⟨ho, Option.some_ne_none v⟩
    · exact h.pass hs fun t _ ho => ho.2
  | wakeAll v => exact h.wakeAll hs
  | waking v i =>
    simp only [SigWait.act]
    rw [getD_pc]
    split
    · rename_i hidle
      apply h.pass hs
      rintro t - (ho | ho)
      · rw [hidle] at ho
        cases ho.2
      · exact ho
    · exact h
  | test v =>
    simp only [SigWait.act]
    split
    · exact h.pass hs fun t _ ho => ho
    · rename_i hnb
      apply h.finish hs
      intro t hb _ ho
      apply hnb
      rw [← ho.1]
      exact hb
  | read v =>
    simp only [SigWait.act]
    split
    · rename_i hz
      apply h.pass hs
      rintro t - ⟨rfl, hp⟩
      exact ⟨rfl, hp, hz⟩
    · exact h.remove fun t y hy hoy => (hoy.current hs hy).1
  | readProc v =>
    simp only [SigWait.act]
    split
    · rename_i hz
      apply h.finish hs
      rintro t - ha ⟨rfl, hp, hr⟩
      exact not_awaits_of_plain hp hr hz ha
    · exact h.remove fun t y hy hoy => (hoy.current hs hy).1
  | removing i =>
    simp only [SigWait.act]
    split
    · exact h.finish hs fun t _ _ ho => ho
    · exact h

/-! ## Every step -/

theorem Inv.wq (he : outside e) (hok : WaitQueue.StepOK s.wq e) : Inv { s with wq := WaitQueue.step s.wq e } := by
  have hm : Moves s.wq (WaitQueue.step s.wq e) := .step h.sound hok
  have hcall : ∀ t, (WaitQueue.step s.wq e).sleep = s.wq.sleep ∧
      ((WaitQueue.step s.wq e).state t = .blocked → s.wq.state t = .blocked) :=
    fun t => WaitQueue.step_scheduler (inCall_of_outside he)
  refine ⟨hm.sound, ?_, ?_, h.payload⟩
  · intro t
    refine (h.tended t).quiet hm ?_ ?_
    · intro hb
      exact ⟨(hcall t).2 hb, rfl, fun ha => ha.mono (fun _ hk => hk) (fun _ hk => hk) rfl rfl⟩
    · intro hb hb' _ x hx hox
      by_cases hdrain : ∃ v i, x = .waking v i ∧ s.wq.pc i = .wakeAll sigWaiters ∧
          (WaitQueue.step s.wq e).pc i ≠ .wakeAll sigWaiters
      · -- the sender's waker drains the queue
        obtain ⟨v, i, rfl, hi, hne⟩ := hdrain
        rcases hox with ⟨hplain, -⟩ | hox
        · left
          rcases WaitQueue.wakeAll_step h.sound hok hi with hi' | ⟨c, d, rfl⟩
          · exact absurd hi' hne
          · obtain ⟨w, hw, hq, -⟩ := h.tended t hb
            rw [hw] at hplain
            rw [queue_of_not_plain hplain] at hq
            rcases hq with hq | hq
            · cases ha : s.wq.actors[i]? with
              | none =>
                rw [WaitQueue.State.pc, ha] at hi
                cases hi
              | some a =>
                rw [WaitQueue.pc_of_getElem? ha] at hi
                simp only [WaitQueue.step, ha]
                exact hq.drained ha hi
            · exact hm.due t hb hb' hq
        · exact .inr ⟨_, hx, .inr hox⟩
      · refine .inr ⟨x, hx, hox.congr rfl rfl (fun _ hk => hk) ?_⟩
        intro v i hv hi
        by_contra hne
        exact hdrain ⟨v, i, hv, hi, hne⟩
  · intro t
    rw [(hcall t).1]
    exact h.call t

theorem Inv.interlock (sig : ℕ) : Inv (signalStopContInterlock sig s) := by
  have hle : ∀ {w m : Word} {k : ℕ}, (w &&& m).getLsbD k → w.getLsbD k := by
    intro w m k hk
    rw [getLsbD_and, and_eq_true] at hk
    exact hk.1
  -- the payloads are those of other signals
  have hpay : ∀ m : ℕ, m < 32 → ∀ x ∈ s.procQueued,
      32 ≤ x.signo ∧ (x.signo ≤ 64 → (s.procPending &&& ~~~sigmaskOf m).getLsbD (x.signo - 1) = true) := by
    intro m hm x hx
    obtain ⟨h32, hbit⟩ := h.payload x hx
    exact ⟨h32, fun h64 => getLsbD_and_not (hbit h64) (by omega)⟩
  have hquiet : ∀ {s' : State n}, s'.wq = s.wq → s'.pc = s.pc → s'.blocked = s.blocked → s'.sender = s.sender →
      (∀ t k, (s'.pending t).getLsbD k = true → (s.pending t).getLsbD k = true) →
      (∀ k, s'.procPending.getLsbD k = true → s.procPending.getLsbD k = true) → ∀ t, Tended s' t := by
    intro s' hwq hpc hb hs hp hq t
    exact (h.tended t).keep (by rw [hwq]; exact .refl h.sound) (by rw [hwq]; exact id) (congrFun hpc t) (congrFun hb t)
      (by rw [hwq]) hs (hp t) hq
  unfold signalStopContInterlock
  split
  · exact ⟨h.sound, hquiet rfl rfl rfl rfl (fun _ _ => hle) (fun _ => hle), h.call, hpay 19 (by omega)⟩
  · split
    · exact ⟨h.sound, hquiet rfl rfl rfl rfl (fun _ _ hk => hk) (fun _ => hle), h.call, hpay 18 (by omega)⟩
    · exact h

/-- **Every step keeps the invariant.** -/
theorem Inv.step {e : Event n} (hok : StepOK s e) : Inv (step s e) := by
  -- a thread that begins a call
  have hbegin : ∀ {u : Fin n} {pc : Pc}, s.atLarge u → Matches pc .out → Inv (s.goto u pc) := by
    intro u pc hu hpc
    have hcall := h.call u
    rw [hu.2] at hcall
    apply h.goto hu.1
    rw [show s.wq.sleep u = .out from hcall]
    exact hpc
  cases e with
  | wq e =>
    simp only [SigWait.step]
    split
    · rename_i he
      exact h.wq he hok
    · exact h
  | mask u set =>
    simp only [SigWait.step]
    split
    · rename_i hu
      exact h.setMask hu.1 set
    · exact h
  | take u sig =>
    simp only [SigWait.step]
    split
    · rename_i hu
      exact h.take hu.1.1 sig
    · exact h
  | interlock sig =>
    simp only [SigWait.step]
    split
    · exact h
    · exact h.interlock sig
  | sleep | sigsuspend | sigtimedwait =>
    simp only [SigWait.step]
    split
    · rename_i hu
      exact hbegin hu rfl
    · exact h
  | go u =>
    simp only [SigWait.step]
    split
    · rename_i hr
      exact h.go hr hok
    · exact h
  | send target sig info room =>
    simp only [SigWait.step]
    split
    · rename_i hs
      apply h.sending
      intro t _ _ y hy
      rw [hs.1] at hy
      cases hy
    · exact h
  | act =>
    simp only [SigWait.step]
    cases hs : s.sender with
    | none => exact h
    | some x => exact h.act hs (hok x hs)

theorem Inv.heard : Heard s := by
  intro hs t hb ha
  obtain ⟨w, -, -, hd⟩ := h.tended t hb
  rcases hd ha with hd | ⟨x, hx, -⟩
  · exact hd.coming h.sound hb
  · rw [hs] at hx
    cases hx

end

/-- **No sleep through a signal**: in every run in which a thread goes to sleep only at a moment at which it
has no signal to take, a signal for the process is not one that a thread sleeps for in `rt_sigtimedwait`, and
such a signal finds no second thread that may take it while one sleeps elsewhere that may. -/
theorem no_sleep_through_signal (n : ℕ) (es : List (Event n)) (hv : Run.Valid step StepOK (.initial n) es) :
    Heard (Run.final step (.initial n) es) :=
  (hv.invariant (I := Inv) (fun _ _ h hok => h.step hok) Inv.initial).heard

/-- Thread 0 waits for SIGUSR1 in `rt_sigtimedwait`, gets it by `tkill` and returns with it. -/
def awaited : List (Event 2) :=
  .sigtimedwait 0 (sigmaskOf 10) none :: List.replicate 7 (.go 0) ++
    [.wq (.leave 0 0), .send (some 0) 10 none true, .act, .act] ++
    List.replicate 9 (.wq (.act 0 0 false)) ++ [.act, .act, .wq (.pop 0)] ++ List.replicate 8 (.go 0)

/-- Thread 0 masks SIGTERM, thread 1 sleeps on another queue, and SIGTERM is sent to the process. -/
def interrupted : List (Event 2) :=
  awaited ++ [.mask 0 (sigmaskOf 15), .sleep 1 1 none] ++ List.replicate 4 (.go 1) ++
    [.wq (.leave 1 0), .send none 15 none true] ++
    List.replicate 6 .act ++ List.replicate 2 (.wq (.act 1 0 false)) ++ List.replicate 4 .act ++
    List.replicate 8 (.wq (.act 2 0 false)) ++ [.act]

theorem no_sleep_through_signal_two : Heard (Run.final step (.initial 2) interrupted) ∧
      (Run.final step (.initial 2) awaited).pc 0 = .run ∧ (Run.final step (.initial 2) awaited).pending 0 = 0 ∧
      (Run.final step (.initial 2) (interrupted.take 55)).wq.state 1 = .blocked ∧
      (Run.final step (.initial 2) interrupted).wq.state 1 = .ready ∧
      (Run.final step (.initial 2) interrupted).sender = none :=
  ⟨no_sleep_through_signal 2 interrupted (by decide), by decide, by decide, by decide,
    by decide, by decide⟩

/-- The thread has found no signal pending, SIGUSR1 is sent to it, and it goes to sleep. -/
def overtaken : List (Event 1) :=
  .sleep 0 1 none :: List.replicate 3 (.go 0) ++ [.send (some 0) 10 none true, .act, .act] ++
    List.replicate 2 (.wq (.act 0 0 false)) ++ [.act, .act, .go 0, .wq (.leave 0 0)]

/-- The only thread of a process waits for SIGUSR1 in `rt_sigtimedwait`, and SIGUSR1 is sent to the process. -/
def unanswered : List (Event 1) :=
  .sigtimedwait 0 (sigmaskOf 10) none :: List.replicate 7 (.go 0) ++ [.wq (.leave 0 0), .send none 10 none true, .act,
    .act, .act]

/-- **Signals are slept through**: one that comes between the test and the sleep, and one that the process gets
while its thread waits for it. -/
theorem signals_slept_through :
    ¬Heard (Run.final step (.initial 1) overtaken) ∧ ¬Heard (Run.final step (.initial 1) unanswered) := by
  refine ⟨?_, ?_⟩ <;> decide

end NeoOS.SigWait
