import NeoOS.Lib.Update
import NeoOS.Proof.PollLinks

/-!
# Poll does not miss an event

An event that a descriptor got since its thread scanned it has been flagged before the thread looks at the flag
under the lock of the broadcast queue, or its announcement has not come to that point. Once the thread sleeps,
the announcement has it on its list or a waker has it.
-/

namespace NeoOS.Poll

open List
open Function (update update_apply update_of_ne update_self)

open Links
open WaitQueue (Moves Due Queued WakeComing)
open Run (Valid final)

variable {n i j o k g : ℕ} {head : ℕ → Option ℕ} {s s' : State n} {t u : Fin n} {pc pc' : Pc} {p : PollFd}
  {e : WaitQueue.Event n} {how : How} {a : Announcer n} {stage : Stage n} {got : List Mask} {α : Type*} {l : List α}
  {wq : WaitQueue.State n} {rc : ℤ}

/-! ## No event is missed -/

def Pc.isAsleep : Pc → Bool
  | .asleep _ => true
  | _ => false

/-- A thread that sleeps in `poll` has no event since it scanned, other than one whose announcement is under way
or that a waker is about to wake it for. -/
def NoMiss (s : State n) : Prop :=
  ∀ t, s.wq.state t = .blocked → (s.pc t).isAsleep → ∀ j p o, (s.fds t)[j]? = some p → p.file = .object o →
    s.stale t j → (∃ a ∈ s.announcers, a.obj = o ∧ a.stage ≠ .done) ∨ WakeComing s.wq t

/-! ## The condition -/

/-- An object with a poll head is announced there, and one without by waking its own queue. -/
def Fits (head : ℕ → Option ℕ) (o : ℕ) : How → Prop
  | .notify h => head o = some h
  | .wakeOne q | .wakeAll q => head o = none ∧ q ≠ broadcast

instance (o : ℕ) (how : How) : Decidable (Fits head o how) :=
  match how with
  | .notify _ => inferInstanceAs (Decidable (_ = _))
  | .wakeOne _ => inferInstanceAs (Decidable (_ ∧ _))
  | .wakeAll _ => inferInstanceAs (Decidable (_ ∧ _))

/-- Descriptor `j` has been scanned in this round and the thread is not yet on the queue. -/
def Pc.between : Pc → ℕ → Bool
  | .scan got, j => decide (j < got.length)
  | .wait _, _ | .check _, _ => true
  | _, _ => false

/-- The thread has scanned a descriptor of the object and is not yet on the queue. -/
def Between (s : State n) (t : Fin n) (o : ℕ) : Prop :=
  ∃ j ∈ List.range (s.fds t).length, (s.fds t)[j]?.map (·.file) = some (.object o) ∧ (s.pc t).between j

instance (s : State n) (t : Fin n) (o : ℕ) : Decidable (Between s t o) := inferInstanceAs (Decidable (∃ j ∈ List.range _, _))

def GoOK (s : State n) (t : Fin n) : Pc → Prop
  | .wait _ => WaitQueue.StepOK s.wq (.sleep t broadcast (some (s.deadline t)))
  | .unlist _ => WaitQueue.StepOK s.wq (.unlist t)
  | _ => True

def StepOK (head : ℕ → Option ℕ) (s : State n) : Event n → Prop
  | .wq e => WaitQueue.StepOK s.wq e
  | .go t _ => GoOK s t (s.pc t)
  | .raise o _ how => Fits head o how
  -- the broadcast for an object comes at a moment at which none of its pollers is on the way to the queue
  | .announce k => ∀ a ∈ s.announcers[k]?, a.stage = .cast → ∀ t, ¬Between s t a.obj
  | _ => True

instance (s : State n) (t : Fin n) (pc : Pc) : Decidable (GoOK s t pc) :=
  match pc with
  | .wait _ => inferInstanceAs (Decidable (WaitQueue.StepOK s.wq (.sleep t broadcast (some (s.deadline t)))))
  | .unlist _ => inferInstanceAs (Decidable (WaitQueue.StepOK s.wq (.unlist t)))
  | .out | .register .. | .enter | .clear | .scan _ | .check _ | .asleep _ | .woken _ | .leave .. | .unregister .. =>
    isTrue trivial

instance (s : State n) (e : Event n) : Decidable (StepOK head s e) :=
  match e with
  | .wq e => inferInstanceAs (Decidable (WaitQueue.StepOK s.wq e))
  | .go t _ => inferInstanceAs (Decidable (GoOK s t (s.pc t)))
  | .raise o _ how => inferInstanceAs (Decidable (Fits head o how))
  | .announce k => inferInstanceAs (Decidable (∀ a ∈ s.announcers[k]?, _ → _))
  | .poll .. | .lower .. => isTrue trivial

/-! ## The invariant -/

/-- The wait queues have the thread in the call that it is in. -/
def Matches : Pc → WaitQueue.Sleep → Prop
  | .out, _ => True
  | .check _, x => x = .enter broadcast true
  | .asleep _, x => x = .asleep true
  | .unlist _, x => ∃ rc, x = .finish rc
  | _, x => x = .out

/-- Descriptor `j` is on the list of its poll head. -/
def Pc.registered : Pc → ℕ → Bool
  | .out, _ => false
  | .register i _, j => decide (j < i)
  | .unregister i _ _, j => decide (i ≤ j)
  | _, _ => true

/-- `waitq_poll_active` counts the thread. -/
def Pc.inside : Pc → Bool
  | .out | .register .. | .enter | .unregister .. => false
  | _ => true

/-- What `poll_wants_broadcast` is, or is going to be. -/
def Pc.wants (stored : Bool) : Pc → ℕ → Bool
  | .out, _ => true
  | .register i wants, j => wants || decide (i ≤ j)
  | _, _ => stored

/-- The announcement has not yet come to the flags. -/
def Stage.early : Stage n → Bool
  | .notify _ | .wakeQueue .. | .wakingQueue _ | .active | .cast => true
  | _ => false

/-- The announcement will still wake a registered thread. -/
def Stage.serves (x : Fin n × ℕ) : Stage n → Prop
  | .wake _ rest | .waking _ rest _ => x ∈ rest
  | _ => False

/-- The announcement goes where the pollers of the object wait for it. -/
def Stage.fits (head : ℕ → Option ℕ) (o : ℕ) : Stage n → Prop
  | .notify h => head o = some h
  | .wakeQueue .. | .wakingQueue _ | .active | .cast => head o = none
  | _ => True

/-- What holds of thread `t` at `pc`, whether it sleeps or not. -/
structure AwakeAt (head : ℕ → Option ℕ) (s : State n) (t : Fin n) (pc : Pc) : Prop where
  call : Matches pc (s.wq.sleep t)
  registered : ∀ j p h, (s.fds t)[j]? = some p → p.pollHead head = some h → pc.registered j → (t, j) ∈ s.regs h
  wants : ∀ j p, (s.fds t)[j]? = some p → p.needsBroadcast head → pc.wants (s.wantsBroadcast t) j
  between : ∀ j p o, (s.fds t)[j]? = some p → p.file = .object o → pc.between j → s.stale t j →
    s.notified t ∨ ∃ a ∈ s.announcers, a.obj = o ∧ a.stage.early

structure OkAt (head : ℕ → Option ℕ) (s : State n) (t : Fin n) (pc : Pc) : Prop extends AwakeAt head s t pc where
  parked : s.wq.state t = .blocked → pc.isAsleep → Queued s.wq broadcast t ∨ Due s.wq t
  asleep : s.wq.state t = .blocked → pc.isAsleep → ∀ j p o, (s.fds t)[j]? = some p → p.file = .object o →
    s.stale t j → Due s.wq t ∨ ∃ a ∈ s.announcers, a.obj = o ∧ (a.stage.early ∨ a.stage.serves (t, j))

structure Inv (head : ℕ → Option ℕ) (s : State n) : Prop where
  sound : WaitQueue.Sound s.wq
  threads : ∀ t, OkAt head s t (s.pc t)
  active : s.active = (Finset.univ.filter fun t => (s.pc t).inside = true).card
  fits : ∀ a ∈ s.announcers, a.stage.fits head a.obj

/-- **A step that leaves a thread where it is.** -/
theorem OkAt.frame (h : OkAt head s t pc) (hm : Moves s.wq s'.wq) (hst : s'.wq.state t = .blocked → s.wq.state t = .blocked)
    (hsl : Matches pc (s'.wq.sleep t)) (hfds : s'.fds t = s.fds t) (hstale : s'.stale t = s.stale t)
    (hnot : s.notified t → s'.notified t) (hw : s'.wantsBroadcast t = s.wantsBroadcast t)
    (hregs : ∀ h j, (t, j) ∈ s.regs h → (t, j) ∈ s'.regs h)
    (hb : ∀ j p o, (s.fds t)[j]? = some p → p.file = .object o → pc.between j →
    (∃ a ∈ s.announcers, a.obj = o ∧ a.stage.early) →
      s'.notified t ∨ ∃ a ∈ s'.announcers, a.obj = o ∧ a.stage.early)
    (ha : s.wq.state t = .blocked → s'.wq.state t = .blocked → pc.isAsleep → ∀ j p o, (s.fds t)[j]? = some p →
      p.file = .object o → (∃ a ∈ s.announcers, a.obj = o ∧ (a.stage.early ∨ a.stage.serves (t, j))) →
      Due s'.wq t ∨ ∃ a ∈ s'.announcers, a.obj = o ∧ (a.stage.early ∨ a.stage.serves (t, j))) : OkAt head s' t pc := by
  refine ⟨⟨hsl, ?_, ?_, ?_⟩, ?_, ?_⟩
  · intro j p hd hp hh hreg
    rw [hfds] at hp
    exact hregs hd j (h.registered j p hd hp hh hreg)
  · intro j p hp hneed
    rw [hfds] at hp
    rw [hw]
    exact h.wants j p hp hneed
  · intro j p o hp ho hbt hs
    rw [hfds] at hp
    rw [hstale] at hs
    rcases h.between j p o hp ho hbt hs with hn | he
    · exact .inl (hnot hn)
    · exact hb j p o hp ho hbt he
  · intro hbl hpc
    rcases h.parked (hst hbl) hpc with hq | hd
    · exact hm.queued t _ hq
    · exact .inr (hm.due t (hst hbl) hbl hd)
  · intro hbl hpc j p o hp ho hs
    rw [hfds] at hp
    rw [hstale] at hs
    rcases h.asleep (hst hbl) hpc j p o hp ho hs with hd | he
    · exact .inl (hm.due t (hst hbl) hbl hd)
    · exact ha (hst hbl) hbl hpc j p o hp ho he

/-! ## The steps of a thread -/

theorem AwakeAt.ok (h : AwakeAt head s u pc) (hnb : s.wq.state u ≠ .blocked) : OkAt head s u pc :=
  { h with parked := fun hb => absurd hb hnb, asleep := fun hb => absurd hb hnb }

theorem running_ne (hr : s.wq.state u = .running) : s.wq.state u ≠ .blocked := by
  rw [hr]
  decide

theorem lt_of_getElem?_none {x : α} (hi : l[i]? = none) (hj : l[j]? = some x) : j < i := by
  have h1 := List.getElem?_eq_none_iff.1 hi
  have h2 := (List.getElem?_eq_some_iff.1 hj).1
  omega

/-- A descriptor with a poll head does not need the broadcast. -/
theorem needsBroadcast_of_pollHead {h : ℕ} (hh : p.pollHead head = some h) : p.needsBroadcast head = false := by
  unfold PollFd.pollHead at hh
  unfold PollFd.needsBroadcast
  cases hf : p.file with
  | negative => rfl
  | bad =>
    rw [hf] at hh
    cases hh
  | object o =>
    rw [hf] at hh
    simp only at hh ⊢
    rw [hh]
    rfl

/-- A thread at `pc` may go on at `pc'`: what has to hold there holds already. -/
structure Pc.Follows (stored : Bool) (pc pc' : Pc) : Prop where
  inside : pc'.inside = pc.inside
  registered : ∀ j, pc'.registered j → pc.registered j
  wants : ∀ j, pc.wants stored j → pc'.wants stored j

theorem Pc.registered_of_inside (h : pc.inside) (j : ℕ) : pc.registered j := by
  cases pc <;> first | rfl | cases h

theorem Pc.wants_of_inside (h : pc.inside) (stored : Bool) (j : ℕ) : pc.wants stored j = stored := by
  cases pc <;> first | rfl | cases h

theorem Pc.Follows.within {stored : Bool} (h : pc.inside) (h' : pc'.inside) : pc.Follows stored pc' := by
  refine ⟨h'.trans h.symm, fun j _ => Pc.registered_of_inside h j, fun j hw => ?_⟩
  rwa [Pc.wants_of_inside h', ← Pc.wants_of_inside h stored j]

theorem OkAt.follows (h : OkAt head s u pc) (hf : pc.Follows (s.wantsBroadcast u) pc')
    (hcall : Matches pc' (wq.sleep u)) (hbt : ∀ j p, (s.fds u)[j]? = some p → pc'.between j → pc.between j) :
    AwakeAt head ({ s with wq := wq }.goto u pc') u pc' where
  call := hcall
  registered j p k hp hk hj := h.registered j p k hp hk (hf.registered j hj)
  wants j p hp hn := hf.wants j (h.wants j p hp hn)
  between j p o hp ho hb hs := h.between j p o hp ho (hbt j p hp hb) hs

/-- The loop that registers, at a descriptor of the table. -/
theorem OkAt.registering {wants w : Bool} {q : PollFd} (h : OkAt head s u (.register i wants)) (hi : (s.fds u)[i]? = some p)
    (hw : wants ∨ p.needsBroadcast head → w) (hq : (s.fds u)[j]? = some q) (hneed : q.needsBroadcast head) :
    (Pc.register (i + 1) w).wants (s.wantsBroadcast u) j := by
  have hold : (wants || decide (i ≤ j)) := h.wants j q hq hneed
  show (w || decide (i + 1 ≤ j))
  by_cases hji : j = i
  · subst hji
    cases hi.symm.trans hq
    rw [hw (.inr hneed)]
    rfl
  · rcases Bool.or_eq_true_iff.1 hold with hx | hx
    · rw [hw (.inl hx)]
      rfl
    · have := of_decide_eq_true hx
      rw [decide_eq_true (show i + 1 ≤ j by omega)]
      simp

theorem OkAt.out : OkAt head s t .out := ⟨⟨trivial, nofun, fun _ _ _ _ => rfl, nofun⟩, nofun, nofun⟩

/-- A step of the wait queues puts no thread to sleep but the one whose call it is part of. -/
theorem step_other (wq : WaitQueue.State n) (hne : t ∉ caller e) :
    ((WaitQueue.step wq e).state t = .blocked → wq.state t = .blocked) ∧ (WaitQueue.step wq e).sleep t = wq.sleep t := by
  cases he : e.inCall with
  | false =>
    obtain ⟨hsl, hst⟩ := WaitQueue.step_scheduler (t := t) (s := wq) he
    exact ⟨hst, congrFun hsl t⟩
  | true =>
    -- the caller is the only thread that these steps write
    cases e with
    | sleep u | enter u | resume u | unlist u =>
      have htu : t ≠ u := by
        rintro rfl
        exact hne rfl
      simp only [WaitQueue.step, WaitQueue.waitqSleep, WaitQueue.waitqEnter, WaitQueue.sleepReturn, WaitQueue.timeoutReturn,
        WaitQueue.timeoutAdd, WaitQueue.timeoutRemove]
      repeat' split
      all_goals simp [htu]
    | _ => cases he

theorem stepWq_frame (e : WaitQueue.Event n) :
    (stepWq s e).wq = WaitQueue.step s.wq e ∧ (stepWq s e).pc = s.pc ∧ (stepWq s e).fds = s.fds ∧
    (stepWq s e).stale = s.stale ∧
      (stepWq s e).wantsBroadcast = s.wantsBroadcast ∧ (stepWq s e).regs = s.regs ∧ (stepWq s e).active = s.active ∧
      (stepWq s e).announcers = s.announcers ∧ ∀ t, s.notified t → (stepWq s e).notified t := by
  unfold stepWq
  cases e with
  | act i c d =>
    simp only
    cases castFlag s i with
    | none => exact ⟨rfl, rfl, rfl, rfl, rfl, rfl, rfl, rfl, fun _ h => h⟩
    | some u =>
      refine ⟨rfl, rfl, rfl, rfl, rfl, rfl, rfl, rfl, ?_⟩
      intro t ht
      show update s.notified u true t
      by_cases htu : t = u
      · subst htu
        exact update_self _ _ _
      · rw [update_of_ne htu]
        exact ht
  | _ => exact ⟨rfl, rfl, rfl, rfl, rfl, rfl, rfl, rfl, fun _ h => h⟩

theorem How.start_early (how : How) : (how.start : Stage n).early := by
  cases how <;> rfl

theorem How.start_fits (h : Fits head o how) : (how.start : Stage n).fits head o := by
  cases how with
  | notify k => exact h
  | wakeOne | wakeAll => exact h.1

theorem mem_set_of_mem {x y b : α} (hk : l[k]? = some x) (hy : y ∈ l) : y = x ∨ y ∈ l.set k b := by
  obtain ⟨i, hi, rfl⟩ := getElem_of_mem hy
  by_cases hik : i = k
  · subst hik
    left
    rw [getElem?_eq_getElem hi] at hk
    exact Option.some.inj hk
  · right
    refine mem_of_getElem? (i := i) ?_
    rw [getElem?_set_ne (Ne.symm hik), getElem?_eq_getElem hi]

theorem Pc.inside_of_between (h : pc.between j) : pc.inside := by
  cases pc <;> first | rfl | cases h

theorem Pc.inside_of_isAsleep (h : pc.isAsleep) : pc.inside := by
  cases pc <;> first | rfl | cases h

theorem Inv.initial (head : ℕ → Option ℕ) (n : ℕ) : Inv head (.initial n) := by
  refine ⟨.initial, fun _ => .out, ?_, nofun⟩
  show 0 = (Finset.univ.filter fun _ : Fin n => Pc.inside .out = true).card
  simp [Pc.inside]

section

variable (h : Inv head s)
include h

theorem Inv.at (hpc : s.pc u = pc) : OkAt head s u pc := hpc ▸ h.threads u

/-- **Thread `u` takes a step to `pc`**, in which nothing is announced. -/
theorem Inv.thread (hm : Moves s.wq s'.wq) (hpc : s'.pc = update s.pc u pc)
    (hst : ∀ t, t ≠ u → s'.wq.state t = .blocked → s.wq.state t = .blocked) (hsl : ∀ t, t ≠ u → s'.wq.sleep t = s.wq.sleep t)
    (hother : ∀ t, t ≠ u → s'.fds t = s.fds t ∧ s'.stale t = s.stale t ∧ s'.notified t = s.notified t ∧
      s'.wantsBroadcast t = s.wantsBroadcast t)
    (hregs : ∀ t, t ≠ u → ∀ h j, (t, j) ∈ s.regs h → (t, j) ∈ s'.regs h) (hann : s'.announcers = s.announcers)
    (hself : OkAt head s' u pc) (hact : s'.active + (s.pc u).inside.toNat = s.active + pc.inside.toNat) : Inv head s' := by
  refine ⟨hm.sound, ?_, ?_, hann ▸ h.fits⟩
  · intro t
    rw [hpc]
    by_cases htu : t = u
    · subst htu
      rw [update_self]
      exact hself
    · rw [update_of_ne htu]
      obtain ⟨hf, hs, hn, hw⟩ := hother t htu
      have hcall := (h.threads t).call
      rw [← hsl t htu] at hcall
      refine (h.threads t).frame hm (hst t htu) hcall hf hs (fun hx => hn.trans hx) hw (hregs t htu) ?_ ?_
      · intro j p o _ _ _ he
        rw [hann]
        exact .inr he
      · intro _ _ _ j p o _ _ he
        rw [hann]
        exact .inr he
  · have hcard := Update.card_filter Pc.inside s.pc u pc
    rw [← h.active] at hcard
    rw [hpc]
    omega

/-- `waitq_poll_active` counts every thread that is at a sleep. -/
theorem Inv.active_ne_zero (ht : (s.pc t).inside) : s.active ≠ 0 := by
  rw [h.active]
  exact Finset.card_ne_zero_of_mem (Finset.mem_filter.2 ⟨Finset.mem_univ t, ht⟩)

/-- The clock, the scheduler, the wakers and the threads that do not poll. -/
theorem Inv.stepWq (hok : WaitQueue.StepOK s.wq e) (hc : ∀ t ∈ caller e, s.pc t = .out) : Inv head (stepWq s e) := by
  obtain ⟨hwq, hpc, hfds, hstale, hwants, hregs, hact, hann, hnot⟩ := stepWq_frame (s := s) e
  have hm : Moves s.wq (Poll.stepWq s e).wq := by
    rw [hwq]
    exact .step h.sound hok
  refine ⟨hm.sound, ?_, ?_, ?_⟩
  · intro t
    rw [hpc]
    by_cases ht : t ∈ caller e
    · rw [hc t ht]
      exact .out
    · obtain ⟨hst, hsl⟩ := step_other s.wq ht
      refine (h.threads t).frame hm ?_ ?_ (congrFun hfds t) (congrFun hstale t) (hnot t) (congrFun hwants t) ?_ ?_ ?_
      · rw [hwq]
        exact hst
      · rw [hwq, hsl]
        exact (h.threads t).call
      · rw [hregs]
        exact fun _ _ hj => hj
      · rw [hann]
        exact fun _ _ _ _ _ _ he => .inr he
      · rw [hann]
        exact fun _ _ _ _ _ _ _ _ he => .inr he
  · rw [hact, hpc]
    exact h.active
  · rw [hann]
    exact h.fits

section

variable (hr : s.wq.state u = .running)
include hr

/-- A step of a thread that runs that leaves the wait queues and the lists of the heads alone. -/
theorem Inv.local (hwq : s'.wq = s.wq)
    (hpc : s'.pc = update s.pc u pc) (hregs : s'.regs = s.regs) (hann : s'.announcers = s.announcers)
    (hother : ∀ t, t ≠ u → s'.fds t = s.fds t ∧ s'.stale t = s.stale t ∧ s'.notified t = s.notified t ∧
      s'.wantsBroadcast t = s.wantsBroadcast t)
    (hself : AwakeAt head s' u pc) (hact : s'.active + (s.pc u).inside.toNat = s.active + pc.inside.toNat) : Inv head s' := by
  have hm : Moves s.wq s'.wq := by
    rw [hwq]
    exact .refl h.sound
  refine h.thread hm hpc ?_ ?_ hother ?_ hann ?_ hact
  · exact fun t _ hb => hwq ▸ hb
  · exact fun t _ => by rw [hwq]
  · exact fun t _ k j hj => hregs ▸ hj
  · exact hself.ok (hwq ▸ running_ne hr)

theorem Inv.goto (hpc : s.pc u = pc) (hcall : Matches pc' (s.wq.sleep u))
    (hf : pc.Follows (s.wantsBroadcast u) pc') (hbt : ∀ j p, (s.fds u)[j]? = some p → pc'.between j → pc.between j) :
    Inv head (s.goto u pc') := by
  subst hpc
  exact h.local hr rfl rfl rfl rfl (fun _ _ => ⟨rfl, rfl, rfl, rfl⟩) ((h.threads u).follows hf hcall hbt)
    (by rw [hf.inside]; rfl)

/-- The thread goes on in `waitq_sleep_timeout_unless`, and is not asleep after it. -/
theorem Inv.goWq (hpc : s.pc u = pc) (hok : WaitQueue.StepOK s.wq e) (hst : (WaitQueue.step s.wq e).state = s.wq.state)
    (hsl : ∀ t, t ≠ u → (WaitQueue.step s.wq e).sleep t = s.wq.sleep t) (hcall : Matches pc' ((WaitQueue.step s.wq e).sleep u))
    (hf : pc.Follows (s.wantsBroadcast u) pc') (hbt : ∀ j, pc'.between j → pc.between j) :
    Inv head ({ s with wq := WaitQueue.step s.wq e }.goto u pc') := by
  subst hpc
  refine h.thread (.step h.sound hok) rfl (fun t _ hb => hst ▸ hb) hsl (fun _ _ => ⟨rfl, rfl, rfl, rfl⟩)
    (fun _ _ _ _ hj => hj) rfl ?_
    (by rw [hf.inside]; rfl)
  refine ((h.threads u).follows hf hcall fun j _ _ => hbt j).ok ?_
  show (WaitQueue.step s.wq e).state u ≠ .blocked
  rw [hst]
  exact running_ne hr

/-- The section of `waitq_sleep_unless` is over; `timeout_remove` is next. -/
theorem Inv.goReturn (hpc : s.pc u = pc) (hok : WaitQueue.StepOK s.wq e)
    (hstep : WaitQueue.step s.wq e = WaitQueue.sleepReturn u true rc wq) (hwq : wq.state = s.wq.state)
    (hwq' : wq.sleep = s.wq.sleep) (hin : pc.inside) :
    Inv head ({ s with wq := WaitQueue.step s.wq e }.goto u (.unlist got)) := by
  obtain ⟨hst, hsl, hret⟩ := WaitQueue.sleepReturn_call u true rc wq
  rw [← hstep] at hst hsl hret
  exact h.goWq hr hpc hok (hst.trans hwq) (hwq' ▸ hsl) ⟨rc, hret⟩ (.within hin rfl) nofun

/-- **The thread goes to sleep** with its flag clear. -/
theorem Inv.enterSleep (hpc : s.pc u = .check got) (hn : s.notified u = false) :
    Inv head ({ s with wq := WaitQueue.step s.wq (.enter u false false) }.goto u (.asleep got)) := by
  have hu := h.at hpc
  have hm : Moves s.wq (WaitQueue.step s.wq (.enter u false false)) := .step h.sound trivial
  have hq := WaitQueue.queued_enter hr h.sound broadcast true
  have hstep : WaitQueue.step s.wq (.enter u false false) = WaitQueue.waitqEnter u broadcast true false false s.wq :=
    WaitQueue.step_enter hr hu.call false false
  have hst : ∀ t, t ≠ u → (WaitQueue.step s.wq (.enter u false false)).state t = s.wq.state t ∧
      (WaitQueue.step s.wq (.enter u false false)).sleep t = s.wq.sleep t := by
    intro t htu
    rw [hstep]
    exact ⟨update_of_ne htu _ _, update_of_ne htu _ _⟩
  have hsl : (WaitQueue.step s.wq (.enter u false false)).sleep u = .asleep true := by
    rw [hstep]
    exact update_self _ _ _
  rw [← hstep] at hq
  refine h.thread hm rfl (fun t htu hb => (hst t htu).1 ▸ hb) (fun t htu => (hst t htu).2) (fun _ _ => ⟨rfl, rfl, rfl, rfl⟩)
    (fun _ _ _ _ hj => hj) rfl ⟨⟨hsl, ?_, hu.wants, nofun⟩, fun _ _ => .inl hq, ?_⟩ (by rw [hpc]; rfl)
  · exact fun j p k hp hk _ => hu.registered j p k hp hk rfl
  · intro _ _ j p o hp ho hs
    rcases hu.between j p o hp ho rfl hs with hn' | ⟨a, ha, hao, he⟩
    · rw [hn] at hn'
      cases hn'
    · exact .inr ⟨a, ha, hao, .inl he⟩

theorem Inv.relist {l : List (Fin n × ℕ)} (hother : ∀ x ∈ s.regs k, x.1 ≠ u → x ∈ l) (hin : pc.inside = (s.pc u).inside)
    (hself : AwakeAt head ({ s with regs := update s.regs k l }.goto u pc) u pc) :
    Inv head ({ s with regs := update s.regs k l }.goto u pc) := by
  refine h.thread (.refl h.sound) rfl (fun _ _ hb => hb) (fun _ _ => rfl) (fun _ _ => ⟨rfl, rfl, rfl, rfl⟩) ?_ rfl
    (hself.ok (running_ne (s := s) hr)) (by rw [hin]; rfl)
  intro t htu g j hj
  show (t, j) ∈ update s.regs k l g
  grind [update_apply]

section

variable {pending : Bool}

/-- `poll_head_register` of the next descriptor. -/
theorem Inv.go_register {wants : Bool} (hpc : s.pc u = .register i wants) : Inv head (go head u pending s) := by
  have hu := h.at hpc
  simp only [Poll.go, hpc]
  cases hi : (s.fds u)[i]? with
  | none =>
    refine h.local hr rfl rfl rfl rfl ?_ ⟨hu.call, ?_, ?_, nofun⟩ (by rw [hpc]; rfl)
    · exact fun t htu => ⟨rfl, rfl, rfl, update_of_ne htu _ _⟩
    · exact fun j p k hp hk _ => hu.registered j p k hp hk (decide_eq_true (lt_of_getElem?_none hi hp))
    · intro j p hp hneed
      have hw : (wants || decide (i ≤ j)) := hu.wants j p hp hneed
      have hlt := lt_of_getElem?_none hi hp
      show update s.wantsBroadcast u wants u
      rw [update_self]
      simpa [Nat.not_le.2 hlt] using hw
  | some p =>
    simp only
    cases hh : p.pollHead head with
    | none =>
      refine h.local hr rfl rfl rfl rfl (fun _ _ => ⟨rfl, rfl, rfl, rfl⟩) ⟨hu.call, ?_, ?_, nofun⟩ (by rw [hpc]; rfl)
      · intro j q k hq hk hj
        by_cases hji : j = i
        · subst hji
          cases hi.symm.trans hq
          rw [hh] at hk
          cases hk
        · refine hu.registered j q k hq hk (decide_eq_true ?_)
          have := of_decide_eq_true hj
          omega
      · exact fun j q hq hneed => hu.registering hi (by simp) hq hneed
    | some k =>
      simp only
      split
      · exact h
      · refine h.relist hr ?_ (by rw [hpc]; rfl) ⟨hu.call, ?_, ?_, nofun⟩
        · exact fun x hx _ => mem_cons_of_mem _ hx
        · intro j q g hq hg hj
          have hold := hu.registered j q g hq hg
          have hq : (s.fds u)[j]? = some q := hq
          show (u, j) ∈ update s.regs k ((u, i) :: s.regs k) g
          grind [update_apply, Pc.registered]
        · intro j q hq hneed
          refine hu.registering hi ?_ hq hneed
          rw [needsBroadcast_of_pollHead hh]
          simp

theorem Inv.go_scan (hpc : s.pc u = .scan got) : Inv head (go head u pending s) := by
  have hu := h.at hpc
  simp only [Poll.go, hpc]
  cases hg : (s.fds u)[got.length]? with
  | some p =>
    refine h.local hr rfl rfl rfl rfl ?_ ⟨hu.call, ?_, hu.wants, ?_⟩ (by rw [hpc]; rfl)
    · exact fun t htu => ⟨rfl, update_of_ne htu _ _, rfl, rfl⟩
    · exact fun j p k hp hk _ => hu.registered j p k hp hk rfl
    · intro j q o hq ho hb hs
      have hs' : update s.stale u (update (s.stale u) got.length false) u j := hs
      rw [update_self] at hs'
      have hlt : j < (got ++ [p.revents s.level]).length := of_decide_eq_true hb
      rw [length_append, length_singleton] at hlt
      exact hu.between j q o hq ho (decide_eq_true (by grind [update_apply])) (by grind [update_apply])
  | none =>
    simp only
    split
    · exact h.goto hr hpc hu.call (.within rfl rfl) nofun
    · refine h.goto hr hpc hu.call (.within rfl rfl) fun j q hq _ => ?_
      exact decide_eq_true (lt_of_getElem?_none hg hq)

theorem Inv.go_wait (hpc : s.pc u = .wait got)
    (hok : WaitQueue.StepOK s.wq (.sleep u broadcast (some (s.deadline u)))) : Inv head (go head u pending s) := by
  obtain ⟨hst, hsl, hout⟩ := WaitQueue.step_sleep hr (h.at hpc).call broadcast (some (s.deadline u))
  simp only [Poll.go, hpc]
  rcases hout with hout | hout
  · rw [if_pos hout]
    exact h.goWq hr hpc hok hst hsl hout (.within rfl rfl) nofun
  · have hne : (WaitQueue.step s.wq (.sleep u broadcast (some (s.deadline u)))).sleep u ≠ .out := by
      rw [hout]
      exact WaitQueue.Sleep.noConfusion
    rw [if_neg hne]
    exact h.goWq hr hpc hok hst hsl hout (.within rfl rfl) fun _ _ => rfl

theorem Inv.go_check (hpc : s.pc u = .check got) : Inv head (go head u pending s) := by
  have hcall : s.wq.sleep u = .enter broadcast true := (h.at hpc).call
  simp only [Poll.go, hpc]
  by_cases hx : (pending || s.notified u)
  · rw [if_pos hx]
    -- the call returns without sleep
    have hstep : ∃ rc, WaitQueue.step s.wq (.enter u pending (s.notified u)) = WaitQueue.sleepReturn u true rc s.wq := by
      rw [WaitQueue.step_enter hr hcall]
      cases pending with
      | true => exact ⟨_, rfl⟩
      | false =>
        have hn : s.notified u := hx
        rw [hn]
        exact ⟨_, rfl⟩
    obtain ⟨rc, hstep⟩ := hstep
    exact h.goReturn hr hpc trivial hstep rfl rfl rfl
  · rw [if_neg hx]
    rw [Bool.or_eq_true, not_or, Bool.not_eq_true, Bool.not_eq_true] at hx
    rw [hx.1, hx.2]
    exact h.enterSleep hr hpc hx.2

/-- `poll_head_unregister` of the next descriptor. -/
theorem Inv.go_unregister (hpc : s.pc u = .unregister i rc got) : Inv head (go head u pending s) := by
  have hu := h.at hpc
  simp only [Poll.go, hpc]
  cases hi : (s.fds u)[i]? with
  | none =>
    refine h.local hr rfl rfl rfl rfl ?_ ⟨trivial, nofun, fun _ _ _ _ => rfl, nofun⟩ (by rw [hpc]; rfl)
    exact fun t htu => ⟨rfl, rfl, rfl, update_of_ne htu _ _⟩
  | some p =>
    simp only
    cases hh : p.pollHead head with
    | none =>
      refine h.goto hr hpc hu.call ⟨rfl, fun j hj => ?_, fun _ => id⟩ nofun
      have := of_decide_eq_true hj
      exact decide_eq_true (by omega)
    | some k =>
      simp only
      split
      · exact h
      · refine h.relist hr ?_ (by rw [hpc]; rfl) ⟨hu.call, ?_, hu.wants, nofun⟩
        · intro x hx hne
          refine (mem_erase_of_ne ?_).2 hx
          rintro rfl
          exact hne rfl
        · intro j q g hq hg hj
          have hold := hu.registered j q g hq hg
          have hne : j ≠ i → ((u, j) ∈ (s.regs k).erase (u, i) ↔ (u, j) ∈ s.regs k) := fun hji =>
            mem_erase_of_ne (by simpa using hji)
          show (u, j) ∈ update s.regs k ((s.regs k).erase (u, i)) g
          grind [update_apply, Pc.registered]

/-- **Every step of a thread.** -/
theorem Inv.go (hok : GoOK s u (s.pc u)) : Inv head (go head u pending s) := by
  cases hpc : s.pc u with
  | register i wants => exact h.go_register hr hpc
  | scan got => exact h.go_scan hr hpc
  | wait got =>
    rw [hpc] at hok
    exact h.go_wait hr hpc hok
  | check got => exact h.go_check hr hpc
  | unregister i rc got => exact h.go_unregister hr hpc
  | out =>
    simp only [Poll.go, hpc]
    exact h
  | enter =>
    have hu := h.at hpc
    simp only [Poll.go, hpc]
    refine h.local hr rfl rfl rfl rfl (fun _ _ => ⟨rfl, rfl, rfl, rfl⟩) ⟨hu.call, ?_, hu.wants, nofun⟩ (by rw [hpc]; rfl)
    exact fun j p k hp hk _ => hu.registered j p k hp hk rfl
  | clear =>
    have hu := h.at hpc
    simp only [Poll.go, hpc]
    refine h.local hr rfl rfl rfl rfl ?_ ⟨hu.call, ?_, hu.wants, fun _ _ _ _ _ hb => nomatch hb⟩ (by rw [hpc]; rfl)
    · exact fun t htu => ⟨rfl, rfl, update_of_ne htu _ _, rfl⟩
    · exact fun j p k hp hk _ => hu.registered j p k hp hk rfl
  | asleep got =>
    simp only [Poll.go, hpc]
    exact h.goReturn hr hpc trivial (WaitQueue.step_resume hr (h.at hpc).call pending) rfl rfl rfl
  | unlist got =>
    rw [hpc] at hok
    simp only [Poll.go, hpc]
    obtain ⟨rc, hrc⟩ := (h.at hpc).call
    obtain ⟨hst, hsl, hout⟩ := WaitQueue.step_unlist hr hrc
    exact h.goWq hr hpc hok hst hsl hout (.within rfl rfl) nofun
  | woken got =>
    have hu := h.at hpc
    simp only [Poll.go, hpc]
    split
    · exact h.goto hr hpc hu.call (.within rfl rfl) nofun
    split
    · exact h.goto hr hpc hu.call (.within rfl rfl) nofun
    · exact h.goto hr hpc hu.call (.within rfl rfl) nofun
  | leave rc got =>
    have hu := h.at hpc
    have hne := h.active_ne_zero (t := u) (by rw [hpc]; rfl)
    simp only [Poll.go, hpc]
    refine h.local hr rfl rfl rfl rfl (fun _ _ => ⟨rfl, rfl, rfl, rfl⟩) ⟨hu.call, ?_, hu.wants, nofun⟩ ?_
    · exact fun j p k hp hk _ => hu.registered j p k hp hk rfl
    · rw [hpc]
      show s.active - 1 + 1 = s.active + 0
      omega

end

/-! ## The other steps -/

theorem Inv.poll (ho : s.wq.sleep u = .out) (hpc : s.pc u = .out) (fds : List PollFd) (deadline : ℕ) :
    Inv head ({ s with
      fds := update s.fds u fds
      deadline := update s.deadline u deadline }.goto u (.register 0 false)) := by
  refine h.local hr rfl rfl rfl rfl ?_ ⟨ho, ?_, ?_, nofun⟩ (by rw [hpc]; rfl)
  · exact fun t htu => ⟨update_of_ne htu _ _, rfl, rfl, rfl⟩
  · intro j p k _ _ hj
    exact absurd (of_decide_eq_true (p := j < 0) hj) (Nat.not_lt_zero j)
  · exact fun j p _ _ => decide_eq_true (Nat.zero_le j)

end

/-- **An object becomes ready**: its announcement is at its start. -/
theorem Inv.raise (hfit : Fits head o how) (mask : Mask) : Inv head (step head s (.raise o mask how)) := by
  -- an event is an old one, or the new announcement is for it
  have hnew : ∀ {t : Fin n} {j : ℕ} {p : PollFd} {o' : ℕ}, (s.fds t)[j]? = some p → p.file = .object o' →
      (step head s (.raise o mask how)).stale t j = true → s.stale t j = true ∨ o' = o := by
    intro t j p o' hp ho' hs
    rcases Bool.or_eq_true_iff.1 hs with hs | hs
    · exact .inl hs
    · right
      rw [hp] at hs
      have hfile := of_decide_eq_true (Bool.and_eq_true_iff.1 hs).1
      rw [ho'] at hfile
      exact File.object.inj hfile
  have hlast : (⟨o, how.start⟩ : Announcer n) ∈ (step head s (.raise o mask how)).announcers :=
    mem_append_right _ (mem_singleton.2 rfl)
  refine ⟨h.sound, ?_, h.active, ?_⟩
  · intro t
    have ht := h.threads t
    refine { ht with between := ?_, asleep := ?_ }
    · intro j p o' hp ho' hb hs
      rcases hnew hp ho' hs with hs | rfl
      · rcases ht.between j p o' hp ho' hb hs with hn | ⟨a, ha, hao⟩
        · exact .inl hn
        · exact .inr ⟨a, mem_append_left _ ha, hao⟩
      · exact .inr ⟨_, hlast, rfl, how.start_early⟩
    · intro hbl hpc j p o' hp ho' hs
      rcases hnew hp ho' hs with hs | rfl
      · rcases ht.asleep hbl hpc j p o' hp ho' hs with hd | ⟨a, ha, hao⟩
        · exact .inl hd
        · exact .inr ⟨a, mem_append_left _ ha, hao⟩
      · exact .inr ⟨_, hlast, rfl, .inl how.start_early⟩
  · intro a ha
    rcases mem_append.1 ha with ha | ha
    · exact h.fits a ha
    · rw [mem_singleton] at ha
      subst ha
      exact How.start_fits hfit

theorem Inv.lower (o : ℕ) (mask : Mask) : Inv head (step head s (.lower o mask)) :=
  ⟨h.sound, fun t => { h.threads t with }, h.active, h.fits⟩

/-! ## Announcements -/

/-- A descriptor of an object with a poll head is on the list of that head. -/
theorem Inv.mem_regs (hp : (s.fds t)[j]? = some p) (ho : p.file = .object o)
    (hk : head o = some k) (hreg : (s.pc t).registered j) : (t, j) ∈ s.regs k := by
  refine (h.threads t).registered j p k hp ?_ hreg
  unfold PollFd.pollHead
  rw [ho]
  exact hk

/-- A thread that sleeps on an object without a poll head takes part in the broadcast. -/
theorem Inv.wants_broadcast (hp : (s.fds t)[j]? = some p) (ho : p.file = .object o)
    (hk : head o = none) (hpc : (s.pc t).isAsleep) : s.wantsBroadcast t := by
  rw [← Pc.wants_of_inside (Pc.inside_of_isAsleep hpc) (s.wantsBroadcast t) j]
  refine (h.threads t).wants j p hp ?_
  unfold PollFd.needsBroadcast
  rw [ho]
  simp only [hk]
  rfl

section

variable (hk : s.announcers[k]? = some a)
include hk

/-- **An announcement takes a step**: the threads it was on the way to are flagged, or woken, or still ahead of it. -/
theorem Inv.announced
    (hm : Moves s.wq s'.wq) (hst : ∀ t, s'.wq.state t = .blocked → s.wq.state t = .blocked) (hsl : s'.wq.sleep = s.wq.sleep)
    (hsame : s'.pc = s.pc ∧ s'.fds = s.fds ∧ s'.stale = s.stale ∧ s'.wantsBroadcast = s.wantsBroadcast ∧ s'.regs = s.regs ∧
      s'.active = s.active) (hnot : ∀ t, s.notified t → s'.notified t)
    (hann : s'.announcers = s.announcers.set k { a with stage := stage }) (hfit : stage.fits head a.obj)
    (hearly : ∀ t j p, (s.fds t)[j]? = some p → p.file = .object a.obj → (s.pc t).between j → a.stage.early →
      s'.notified t ∨ stage.early)
    (hserve : ∀ t j p, s.wq.state t = .blocked → s'.wq.state t = .blocked → (s.pc t).isAsleep → (s.fds t)[j]? = some p →
      p.file = .object a.obj → a.stage.early ∨ a.stage.serves (t, j) →
      Due s'.wq t ∨ stage.early ∨ stage.serves (t, j)) : Inv head s' := by
  obtain ⟨hpc, hfds, hstale, hwants, hregs, hact⟩ := hsame
  have hself : ({ a with stage := stage } : Announcer n) ∈ s'.announcers := by
    rw [hann]
    exact List.mem_set (List.getElem?_eq_some_iff.1 hk).1 _
  have hother : ∀ {b}, b ∈ s.announcers → b = a ∨ b ∈ s'.announcers := by
    intro b hb
    rw [hann]
    exact mem_set_of_mem hk hb
  refine ⟨hm.sound, ?_, ?_, ?_⟩
  · intro t
    rw [hpc]
    have hcall := (h.threads t).call
    rw [← hsl] at hcall
    refine (h.threads t).frame hm (hst t) hcall (congrFun hfds t) (congrFun hstale t) (hnot t) (congrFun hwants t) ?_ ?_ ?_
    · rw [hregs]
      exact fun _ _ hj => hj
    · rintro j p o hp ho hb ⟨b, hb', rfl, he⟩
      rcases hother hb' with rfl | hmem
      · rcases hearly t j p hp ho hb he with hn | he'
        · exact .inl hn
        · exact .inr ⟨_, hself, rfl, he'⟩
      · exact .inr ⟨b, hmem, rfl, he⟩
    · rintro hbl hbl' hpc' j p o hp ho ⟨b, hb', rfl, he⟩
      rcases hother hb' with rfl | hmem
      · rcases hserve t j p hbl hbl' hpc' hp ho he with hd | he'
        · exact .inl hd
        · exact .inr ⟨_, hself, rfl, he'⟩
      · exact .inr ⟨b, hmem, rfl, he⟩
  · rw [hact, hpc]
    exact h.active
  · intro b hb
    rw [hann] at hb
    rcases mem_or_eq_of_mem_set hb with hb | rfl
    · exact h.fits b hb
    · exact hfit

theorem Inv.setStage {busy : ℕ → Bool} (hfit : stage.fits head a.obj)
    (hearly : ∀ t j p, (s.fds t)[j]? = some p → p.file = .object a.obj → (s.pc t).between j → a.stage.early → stage.early)
    (hserve : ∀ t j p, (s.pc t).isAsleep → (s.fds t)[j]? = some p → p.file = .object a.obj →
      a.stage.early ∨ a.stage.serves (t, j) → stage.early ∨ stage.serves (t, j)) :
    Inv head ({ s with busy := busy }.setStage k a stage) := by
  refine h.announced hk (.refl h.sound) (fun _ hb => hb) rfl ⟨rfl, rfl, rfl, rfl, rfl, rfl⟩ (fun _ hn => hn) rfl hfit ?_ ?_
  · exact fun t j p hp ho hb he => .inr (hearly t j p hp ho hb he)
  · exact fun t j p _ _ hpc hp ho he => .inr (hserve t j p hpc hp ho he)

/-- `poll_head_notify`: every registered thread gets its flag, and is on the list. -/
theorem Inv.notify (hg : head a.obj = some g) : Inv head ({ s with
      busy := update s.busy g true
      notified := fun t => s.notified t || (s.regs g).any (·.1 = t) }.setStage k a (.wake g (s.regs g))) := by
  refine h.announced hk (.refl h.sound) (fun _ hb => hb) rfl ⟨rfl, rfl, rfl, rfl, rfl, rfl⟩ ?_ rfl trivial ?_ ?_
  · intro t ht
    show (s.notified t || _)
    rw [ht]
    rfl
  · intro t j p hp ho hb _
    left
    have hmem := h.mem_regs hp ho hg (Pc.registered_of_inside (Pc.inside_of_between hb) j)
    show (s.notified t || (s.regs g).any (·.1 = t))
    rw [any_eq_true.2 ⟨_, hmem, decide_eq_true rfl⟩, Bool.or_true]
  · intro t j p _ _ hpc hp ho _
    exact .inr (.inr (h.mem_regs hp ho hg (Pc.registered_of_inside (Pc.inside_of_isAsleep hpc) j)))

/-- `waitq_poll_wake_thread` for the first thread of the list. -/
theorem Inv.wake {r : Fin n × ℕ} {rest : List (Fin n × ℕ)}
    (hs : a.stage = .wake g (r :: rest)) : Inv head (announce k a s) := by
  simp only [Poll.announce, hs]
  cases hw : waitqPollWakeThread r.1 s.wq with
  | some wq =>
    obtain ⟨hm, hd, hst, hsl, -⟩ := moves_pollWakeThread h.sound hw
    refine h.announced hk hm ?_ hsl ⟨rfl, rfl, rfl, rfl, rfl, rfl⟩ (fun _ hn => hn) rfl trivial ?_ ?_
    · intro t hb
      have hb' : wq.state t = .blocked := hb
      rwa [hst] at hb'
    · rw [hs]
      exact fun _ _ _ _ _ _ he => .inr he
    · rw [hs]
      rintro t j p - - - - - (he | he)
      · cases he
      · rcases mem_cons.1 he with rfl | he
        · exact .inl hd
        · exact .inr (.inr he)
  | none =>
    refine h.announced hk (.refl h.sound) (fun _ hb => hb) rfl ⟨rfl, rfl, rfl, rfl, rfl, rfl⟩
      (fun _ hn => hn) rfl trivial ?_ ?_
    · rw [hs]
      exact fun _ _ _ _ _ _ he => .inr he
    · rw [hs]
      rintro t j p hbl - hpc - - (he | he)
      · cases he
      · rcases mem_cons.1 he with rfl | he
        · -- not on the queue, so some other waker has it
          exact .inl (due_of_not_found h.sound hw ((h.threads t).parked hbl hpc))
        · exact .inr (.inr he)

/-- `waitq_poll_notify` while no poller of the object is on the way to the queue. -/
theorem Inv.cast (hnone : head a.obj = none) (hok : ∀ t, ¬Between s t a.obj) :
    Inv head ({ s with wq := waitqPollNotify s.wantsBroadcast s.wq }.setStage k a (.casting s.wq.actors.length)) := by
  have hm := moves_pollNotify h.sound s.wantsBroadcast
  refine h.announced hk hm (fun _ hb => hb) rfl ⟨rfl, rfl, rfl, rfl, rfl, rfl⟩ (fun _ hn => hn) rfl trivial ?_ ?_
  · intro t j p hp ho hb _
    refine absurd ⟨j, ?_, ?_, hb⟩ (hok t)
    · exact List.mem_range.2 (List.getElem?_eq_some_iff.1 hp).1
    · rw [hp, ← ho]
      rfl
  · intro t j p hbl hbl' hpc hp ho _
    left
    rcases (h.threads t).parked hbl hpc with hq | hd
    · exact due_pollNotify hq (h.wants_broadcast hp ho hnone hpc)
    · exact hm.due t hbl hbl' hd

/-- **Every step of an announcement.** -/
theorem Inv.announce (hok : a.stage = .cast → ∀ t, ¬Between s t a.obj) : Inv head (announce k a s) := by
  have hfit := h.fits a (mem_of_getElem? hk)
  cases hs : a.stage with
  | wake g rest =>
    cases rest with
    | nil =>
      simp only [Poll.announce, hs]
      refine h.setStage hk trivial ?_ ?_
      · rw [hs]
        exact fun _ _ _ _ _ _ he => he
      · rw [hs]
        rintro t j p - - - (he | he)
        · cases he
        · cases he
    | cons r rest => exact h.wake hk hs
  | notify g =>
    rw [hs] at hfit
    simp only [Poll.announce, hs]
    split
    · exact h
    · exact h.notify hk hfit
  | wakeQueue q all =>
    rw [hs] at hfit
    simp only [Poll.announce, hs]
    have hm : Moves s.wq (WaitQueue.step s.wq (.call (if all then .wakeAll q else .wakeOne q))) := .step h.sound trivial
    refine h.announced hk hm ?_ ?_ ⟨rfl, rfl, rfl, rfl, rfl, rfl⟩ (fun _ hn => hn) rfl hfit ?_ ?_
    · exact fun t hb => (WaitQueue.step_scheduler rfl).2 hb
    · exact funext fun t => congrFun (WaitQueue.step_scheduler (t := t) rfl).1 t
    · exact fun _ _ _ _ _ _ _ => .inr rfl
    · exact fun _ _ _ _ _ _ _ _ _ => .inr (.inl rfl)
  | wakingQueue i =>
    rw [hs] at hfit
    simp only [Poll.announce, hs]
    split
    · exact h.setStage hk hfit (fun _ _ _ _ _ _ _ => rfl) (fun _ _ _ _ _ _ _ => .inl rfl)
    · exact h
  | active =>
    rw [hs] at hfit
    simp only [Poll.announce, hs]
    by_cases hz : s.active = 0
    · -- nobody polls
      rw [if_pos hz]
      refine h.setStage hk trivial ?_ ?_
      · intro t j p _ _ hb _
        exact absurd hz (h.active_ne_zero (Pc.inside_of_between hb))
      · intro t j p hpc _ _ _
        exact absurd hz (h.active_ne_zero (Pc.inside_of_isAsleep hpc))
    · rw [if_neg hz]
      exact h.setStage hk hfit (fun _ _ _ _ _ _ _ => rfl) (fun _ _ _ _ _ _ _ => .inl rfl)
  | cast =>
    rw [hs] at hfit
    simp only [Poll.announce, hs]
    exact h.cast hk hfit (hok hs)
  | waking | casting =>
    simp only [Poll.announce, hs]
    split
    · refine h.setStage hk trivial ?_ ?_
      · rw [hs]
        exact fun _ _ _ _ _ _ he => he
      · rw [hs]
        exact fun _ _ _ _ _ _ he => he
    · exact h
  | done =>
    simp only [Poll.announce, hs]
    exact h

end

/-! ## Runs -/

/-- **Every step keeps the invariant.** -/
theorem Inv.step {e : Event n} (hok : StepOK head s e) : Inv head (step head s e) := by
  cases e with
  | wq e =>
    simp only [Poll.step]
    split
    · exact h.stepWq hok ‹_›
    · exact h
  | poll u fds deadline =>
    simp only [Poll.step]
    split
    · rename_i hx
      exact h.poll hx.1 hx.2.1 hx.2.2 fds deadline
    · exact h
  | go u pending =>
    simp only [Poll.step]
    split
    · exact h.go ‹_› hok
    · exact h
  | raise o mask how => exact h.raise hok mask
  | lower o mask => exact h.lower o mask
  | announce k =>
    simp only [Poll.step]
    cases hk : s.announcers[k]? with
    | none => exact h
    | some a => exact h.announce hk (hok a hk)

theorem Inv.noMiss : NoMiss s := by
  intro t hbl hpc j p o hp ho hs
  rcases (h.threads t).asleep hbl hpc j p o hp ho hs with hd | ⟨a, ha, hao, he⟩
  · exact .inr (hd.coming h.sound hbl)
  · refine .inl ⟨a, ha, hao, ?_⟩
    intro hdone
    rw [hdone] at he
    rcases he with he | he
    · cases he
    · cases he

end

/-- **Poll does not sleep through an event**: in a run in which every object announces where its pollers wait, and
no broadcast comes while a poller of its object is between its scan and its queue. -/
theorem poll_misses_nothing (n : ℕ) (head : ℕ → Option ℕ) (es : List (Event n))
    (hv : Valid (step head) (StepOK head) (.initial n) es) : NoMiss (final (step head) (.initial n) es) :=
  (Valid.invariant (fun _ _ h hok => h.step hok) hv (Inv.initial head n)).noMiss

/-- Object 0 has the poll head 5, and object 1 has none. -/
def oneHead (o : ℕ) : Option ℕ := if o = 0 then some 5 else none

/-- Thread 0 takes `k` steps. -/
def goes (k : ℕ) : List (Event 1) := List.replicate k (.go 0 false)

/-- Waker `i` takes `k` steps. -/
def wakes (i k : ℕ) : List (Event 1) := List.replicate k (.wq (.act i 0 false))

/-- Announcement `i` takes `k` steps. -/
def announces (i k : ℕ) : List (Event 1) := List.replicate k (.announce i)

/-- Thread 0 polls both objects up to its sleep. -/
def pollBoth : List (Event 1) := [.poll 0 [⟨.object 0, 1⟩, ⟨.object 1, 1⟩] 100] ++ goes 10 ++ [.wq (.leave 0 0)]

/-- Object 0 becomes ready; thread 0 is woken and returns. -/
def answeredByHead : List (Event 1) :=
  pollBoth ++ [.raise 0 1 (.notify 5)] ++ announces 0 2 ++ wakes 0 6 ++ announces 0 2 ++ [.wq (.pop 0)] ++ goes 11

/-- Thread 0 polls again, and object 1 becomes ready. -/
def answeredByBroadcast : List (Event 1) :=
  answeredByHead ++ [.lower 0 0] ++ pollBoth ++ [.raise 1 1 (.wakeAll 7)] ++ announces 1 1 ++
    wakes 1 2 ++ announces 1 3 ++ wakes 2 8 ++
    announces 1 1 ++ [.wq (.pop 0)] ++ goes 11

theorem poll_misses_nothing_both : NoMiss (final (step oneHead) (.initial 1) answeredByBroadcast) ∧
      (final (step oneHead) (.initial 1) pollBoth).wq.state 0 = .blocked ∧
      (final (step oneHead) (.initial 1) answeredByHead).result 0 = (1, [1, 0]) ∧
      (final (step oneHead) (.initial 1) answeredByHead).pc 0 = .out ∧
      (final (step oneHead) (.initial 1) answeredByBroadcast).result 0 = (1, [0, 1]) ∧
      (final (step oneHead) (.initial 1) answeredByBroadcast).pc 0 = .out :=
  ⟨poll_misses_nothing 1 oneHead answeredByBroadcast (by decide), by decide, by decide, by decide,
    by decide, by decide⟩

/-- Thread 0 sleeps in a poll of a stream socket, and a segment for it arrives: `wake` in `tcp.c` calls
`waitq_wake_all`, and thread 0 waits at the head of the socket. -/
def segmentArrives : List (Event 1) :=
  [.poll 0 [⟨.object 0, 1⟩] 100] ++ goes 8 ++ [.wq (.leave 0 0), .raise 0 1 (.wakeAll 7)] ++ announces 0 1 ++ wakes 0 2 ++
    announces 0 3 ++ wakes 1 1 ++ announces 0 1

/-- Thread 0 has scanned an object without a head, the object becomes ready, and thread 0 goes to sleep. -/
def overtakenScan : List (Event 1) :=
  [.poll 0 [⟨.object 1, 1⟩] 100] ++ goes 6 ++ [.raise 1 1 (.wakeAll 7)] ++ announces 0 1 ++
    wakes 0 2 ++ announces 0 3 ++ wakes 1 1 ++
    announces 0 1 ++ goes 2 ++ [.wq (.leave 0 0)]

/-- **Poll sleeps on while a descriptor is ready.** -/
theorem poll_misses_events : ¬NoMiss (final (step oneHead) (.initial 1) segmentArrives) ∧
      ¬NoMiss (final (step oneHead) (.initial 1) overtakenScan) := by
  refine ⟨?_, ?_⟩
  · intro h
    have hmiss := h 0 (by decide) (by decide) 0 ⟨.object 0, 1⟩ 0 (by decide) rfl (by decide)
    revert hmiss
    decide
  · intro h
    have hmiss := h 0 (by decide) (by decide) 0 ⟨.object 1, 1⟩ 1 (by decide) rfl (by decide)
    revert hmiss
    decide

end NeoOS.Poll
