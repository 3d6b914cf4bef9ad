import NeoOS.Proof.WaitQueue

/-!
# Who wakes a sleeping thread

A thread that sleeps is linked on its queue until a waker takes it, and from then on a waker has it until
it is ready. `Moves` says this of one step, so that a model in which wait queues are a part can carry it
through its own steps.
-/

namespace NeoOS.WaitQueue

open Function (update update_eq_self update_of_ne update_self)

open Links

variable {n c : ℕ} {s s' : State n} {t u : Fin n} {i q : ℕ} {a : Actor n} {place : Fin n → Place} {e : Event n}
  {d timed : Bool}

/-- What every run of the wait queues keeps. -/
def Sound (s : State n) : Prop := ∃ place timer, Linking s place ∧ Timing s timer ∧ Counting s

theorem Sound.initial : Sound (.initial n) := ⟨_, _, .initial, .initial, fun _ => rfl, nofun⟩

theorem Sound.step (h : Sound s) (hok : StepOK s e) : Sound (step s e) := by
  obtain ⟨place, timer, hl, ht, hc⟩ := h
  obtain ⟨place', hl', -⟩ := hl.step hok
  obtain ⟨timer', ht', -⟩ := ht.step hok
  exact ⟨place', timer', hl', ht', hc.step hl ht hok⟩

/-- `t` is linked on the wait queue `q`. -/
def Queued (s : State n) (q : ℕ) (t : Fin n) : Prop := t ∈ nodes s.next n (s.queues (.wait q)).head

/-- A waker has `t` in hand, or took it from the queue it sleeps on. -/
def Due (s : State n) (t : Fin n) : Prop := ∃ i, (s.pc i).current = some t ∨ (t, s.sleeps t) ∈ s.took i

/-- What is due has not been forgotten. -/
theorem Due.has (h : Due s t) (hs : Sound s) (hb : s.state t = .blocked) : ∃ i, Has s i t := by
  obtain ⟨-, -, -, -, hc⟩ := hs
  obtain ⟨i, hi | hi⟩ := h
  · exact ⟨i, .inl hi⟩
  · rcases (hc.took i _ hi).2 with hw | hw
    · have hdue := hc.sleeps_eq_succ hb
      simp only at hw
      omega
    · exact ⟨i, hw⟩

/-- A waker has the thread in hand or on its private list. -/
def WakeComing (s : State n) (t : Fin n) : Prop :=
  ∃ a ∈ s.actors, a.pc.current = some t ∨ t ∈ nodes s.next n a.pc.woken ∨ t ∈ nodes s.timeoutNext n a.pc.expired

instance (s : State n) (t : Fin n) : Decidable (WakeComing s t) := inferInstanceAs (Decidable (∃ a ∈ s.actors, _))

theorem Due.coming (h : Due s t) (hs : Sound s) (hb : s.state t = .blocked) : WakeComing s t := by
  obtain ⟨i, hi⟩ := h.has hs hb
  rcases pc_cases s i with hpc | ⟨a, ha, hpc⟩
  · rw [Has, hpc] at hi
    have hnil : ∀ next : Fin n → Option (Fin n), nodes next n none = [] := fun next => nodes_of_linked (l := []) rfl
    rcases hi with hi | hi | hi
    · cases hi
    · have hi' : t ∈ nodes s.next n none := hi
      rw [hnil] at hi'
      cases hi'
    · have hi' : t ∈ nodes s.timeoutNext n none := hi
      rw [hnil] at hi'
      cases hi'
  · rw [Has, hpc] at hi
    exact ⟨a, ha, hi⟩

/-! ## The queue a thread sleeps on -/

theorem Chains.mem_queue {next : Fin n → Option (Fin n)} {queues : QueueId → Fifo (Fin n)}
    {held : ℕ → Option (Fin n) × Option (Fin n)} (h : Chains next queues held place) (f : QueueId) :
    t ∈ nodes next n (queues f).head ↔ place t = .queue f := by
  obtain ⟨l, hl, hmem⟩ := h.queue f
  rw [mem_nodes_iff hl.linked]
  exact hmem t

theorem Queued.drained (hq : Queued s q t) (hi : s.actors[i]? = some a) (ha : a.pc = .wakeAll q) : Due (act i c d a s) t := by
  refine ⟨i, .inr ?_⟩
  unfold WaitQueue.act
  simp only [ha]
  rw [took_set hi rfl, update_self]
  exact List.mem_append_left _ (List.mem_map.2 ⟨t, hq, rfl⟩)

/-- A step of a waker takes a thread off its queue only to wake it. -/
theorem Queued.act (hq : Queued s q t) (h : Linking s place) (hi : s.actors[i]? = some a) (hok : ActOK s a.pc) :
    Queued (act i c d a s) q t ∨ Due (act i c d a s) t := by
  have hpt : place t = .queue (.wait q) := (h.chains.mem_queue _).1 hq
  have hne : ∀ {u x}, place u = x → x ≠ .queue (.wait q) → t ≠ u := by
    rintro u x hu hx rfl
    exact hx (hu.symm.trans hpt)
  -- the places after one thread has moved
  have hmoved : ∀ {u : Fin n} {x : Place}, t ≠ u → update place u x t = .queue (.wait q) := by
    intro u x htu
    rw [update_of_ne htu]
    exact hpt
  by_cases hall : a.pc = .wakeAll q
  · exact .inr (hq.drained hi hall)
  unfold WaitQueue.act
  cases ha : a.pc with
  | wakeOne q' =>
    simp only
    split
    · exact .inl hq
    · rename_i u _ _ hp
      by_cases htu : t = u
      · refine .inr ⟨i, .inl ?_⟩
        rw [pc_set_self hi rfl, htu]
        rfl
      · exact .inl ((((h.chains.pop hp).2 .free (fun _ => Place.noConfusion)
          (fun _ => Place.noConfusion)).mem_queue _).2 (hmoved htu))
  | wakeAll q' =>
    have hnone : (s.pc i).lists = (none, none) := by
      rw [pc_of_getElem? hi, ha]
      rfl
    refine .inl (((h.chains.drain (.wait q') hnone).mem_queue (.wait q)).2 ?_)
    rw [if_neg]
    · exact hpt
    · rw [hpt]
      intro he
      cases he
      exact hall ha
  | unlink u k =>
    cases k with
    | all w =>
      have hheld : (s.pc i).lists = (w, some u) := by
        rw [pc_of_getElem? hi, ha]
        rfl
      have hpu : place u = .priv i := (hheld ▸ h.chains.private i).taken
      exact .inl (((h.chains.clearLink hheld).mem_queue _).2 (hmoved (hne hpu Place.noConfusion)))
    | tick | done => exact .inl hq
  | locked u q' k =>
    rw [ha] at hok
    simp only
    split
    · rename_i hblk
      by_cases hpu : place u = .queue (.wait q')
      · by_cases htu : t = u
        · refine .inr ⟨i, .inl ?_⟩
          rw [pc_set_self hi rfl, htu]
          rfl
        · exact .inl (((h.chains.remove hpu).mem_queue _).2 (hmoved htu))
      · -- the thread is on another list and the last one there
        obtain ⟨l, hl, hmem⟩ := h.chains.queue (.wait q')
        have hul : u ∉ l := fun hu => hpu ((hmem u).1 hu)
        have hlast : s.next u = none := by
          rcases hok hblk with hm | hm
          · exact absurd ((mem_nodes_iff hl.linked).1 hm) hul
          · exact hm
        left
        rw [hl.removeNode_of_not_mem hul]
        rw [← hlast, update_eq_self, update_eq_self]
        exact hq
    · exact .inl hq
  | push u k =>
    have hpu : place u = .pushing i := by
      rw [h.pushing, pc_of_getElem? hi, ha]
      rfl
    have hfree : ∀ x, place u = x → x = .pushing i := fun x hx => hx.symm.trans hpu
    simp only
    split
    · exact .inl hq
    · refine .inl (((h.chains.push (.run c) ?_ ?_).mem_queue _).2 (hmoved (hne hpu Place.noConfusion)))
      · exact fun f hf => Place.noConfusion (hfree _ hf)
      · exact fun j hj => Place.noConfusion (hfree _ hj)
  | remove | waitOffCpu | cas =>
    simp only
    split <;> exact .inl hq
  | loop k =>
    cases k with
    | all w | tick w => cases w <;> exact .inl hq
    | done => exact .inl hq
  | idle | signal | timeoutTick | scan | test | load | clear => exact .inl hq

/-- A thread that runs joins a queue, and the others stay where they are. -/
theorem Queued.push (hq : Queued s q t) (h : Linking s place) (hu : s.state u = .running) {f : QueueId}
    (hn : s'.next = (push s.next (s.queues f) u).1)
    (hqs : s'.queues = update s.queues f (push s.next (s.queues f) u).2) : Queued s' q t := by
  have hpt : place t = .queue (.wait q) := (h.chains.mem_queue _).1 hq
  have hpu := h.free_of_running hu
  have hfree : ∀ x, place u = x → x = .free := fun x hx => hx.symm.trans hpu
  unfold Queued
  rw [hn, hqs]
  refine ((h.chains.push f ?_ ?_).mem_queue (.wait q)).2 ?_
  · exact fun g hg => Place.noConfusion (hfree _ hg)
  · exact fun j hj => Place.noConfusion (hfree _ hj)
  · grind

/-- **No step takes a thread off its queue other than to wake it.** -/
theorem Queued.step (hq : Queued s q t) (hs : Sound s) (hok : StepOK s e) : Queued (step s e) q t ∨ Due (step s e) t := by
  obtain ⟨place, -, h, -, -⟩ := hs
  have hstep := step_spec s e
  generalize WaitQueue.step s e = s' at hstep ⊢
  cases hstep with
  | stay | time | sleep | late | sleepTimed | giveUp | leave | resume | unlist | call => exact .inl hq
  | enter _ hr | preempt hr => exact .inl (hq.push h hr rfl rfl)
  | leavePush hcpu hr =>
    rw [h.offCpu _ hr] at hcpu
    cases hcpu
  | pop hp =>
    obtain ⟨hpu, hch⟩ := h.chains.pop hp
    refine .inl (((hch .free (fun _ => Place.noConfusion) (fun _ => Place.noConfusion)).mem_queue (.wait q)).2 ?_)
    have hpt : place t = .queue (.wait q) := (h.chains.mem_queue _).1 hq
    rw [update_of_ne]
    · exact hpt
    · rintro rfl
      rw [hpu] at hpt
      cases hpt
  | @act i c d a hi =>
    have hok' : ActOK s (s.pc i) := hok
    rw [pc_of_getElem? hi] at hok'
    exact hq.act h hi hok'

/-! ## What is due -/

theorem Due.append {b : Actor n} (h : Due s t) (ha : s'.actors = s.actors ++ [b]) (hsl : s'.sleeps = s.sleeps) : Due s' t := by
  obtain ⟨i, hi⟩ := h
  have hne : i ≠ s.actors.length := by
    -- there was no such waker
    rintro rfl
    rw [pc_length, took_length] at hi
    rcases hi with hi | hi <;> cases hi
  refine ⟨i, ?_⟩
  rw [pc_append ha, took_append ha, update_of_ne hne, update_of_ne hne, hsl]
  exact hi

/-- The steps of the wakers. -/
def Event.waker : Event n → Bool
  | .call _ | .act .. => true
  | _ => false

/-- The other steps leave the wakers alone, and only a thread that runs goes to sleep. -/
theorem step_thread (he : e.waker = false) :
    (step s e).actors = s.actors ∧ ∀ t, s.state t = .blocked → (step s e).sleeps t = s.sleeps t := by
  have hstep := step_spec s e
  generalize step s e = s' at hstep ⊢
  cases hstep with
  | enter _ hr =>
    refine ⟨rfl, fun t hb => update_of_ne ?_ _ _⟩
    rintro rfl
    rw [hb] at hr
    cases hr
  | call | act => cases he
  | _ => exact ⟨rfl, fun _ _ => rfl⟩

theorem Due.act (h : Due s t) (hs : Sound s) (hi : s.actors[i]? = some a) (hok : ActOK s a.pc) (hb : s.state t = .blocked)
    (hb' : (act i c d a s).state t = .blocked) : Due (act i c d a s) t := by
  obtain ⟨place, timer, hl, ht, -⟩ := hs
  obtain ⟨b, new, hset, htook, -⟩ := act_took (c := c) (d := d) hl ht hi hok
  obtain ⟨hsl, hst⟩ := act_state i c d a s
  obtain ⟨j, hj | hj⟩ := h
  · refine ⟨j, .inl ?_⟩
    by_cases hji : j = i
    · subst hji
      rw [pc_of_getElem? hi] at hj
      rcases act_current (c := c) (d := d) hi hj with hcur | hnb | hw
      · exact hcur
      · exact absurd hb hnb
      · -- the thread has been made ready
        rcases hst with ⟨-, hwk⟩ | ⟨u, -, hstu, hwk⟩
        · rw [hwk] at hw
          omega
        · rw [hwk] at hw
          by_cases hut : t = u
          · subst hut
            rw [hstu, update_self] at hb'
            cases hb'
          · rw [update_of_ne hut] at hw
            omega
    · rw [pc_set_ne hi hset hji]
      exact hj
  · refine ⟨j, .inr ?_⟩
    rw [hsl, took_set hi hset]
    by_cases hji : j = i
    · subst hji
      rw [update_self, htook, ← took_of_getElem? hi]
      exact List.mem_append_right _ hj
    · rw [update_of_ne hji]
      exact hj

/-- **What is due stays due** as long as the thread sleeps. -/
theorem Due.step (h : Due s t) (hs : Sound s) (hok : StepOK s e) (hb : s.state t = .blocked)
    (hb' : (step s e).state t = .blocked) : Due (step s e) t := by
  by_cases he : e.waker
  · cases e with
    | call pc =>
      simp only [WaitQueue.step]
      split
      · exact h.append rfl rfl
      · exact h
    | act i c d =>
      simp only [WaitQueue.step] at hb' ⊢
      cases hi : s.actors[i]? with
      | none => exact h
      | some a =>
        have hok' : ActOK s (s.pc i) := hok
        rw [pc_of_getElem? hi] at hok'
        simp only [hi] at hb'
        exact h.act hs hi hok' hb hb'
    | _ => cases he
  · obtain ⟨hact, hsl⟩ := step_thread (s := s) (Bool.eq_false_iff.2 he)
    unfold Due State.pc State.took
    rw [hact, hsl t hb]
    exact h

/-- A `waitq_wake_all` that has not begun begins with its own step. -/
theorem wakeAll_step (hs : Sound s) (hok : StepOK s e) (hi : s.pc i = .wakeAll q) :
    (step s e).pc i = .wakeAll q ∨ ∃ c d, e = .act i c d := by
  by_cases he : e.waker
  · cases e with
    | call pc =>
      left
      simp only [WaitQueue.step]
      split
      · rw [pc_append (s := s) rfl, update_of_ne]
        · exact hi
        · rintro rfl
          rw [pc_length] at hi
          cases hi
      · exact hi
    | act j c d =>
      by_cases hji : j = i
      · subst hji
        exact .inr ⟨c, d, rfl⟩
      left
      simp only [WaitQueue.step]
      cases hj : s.actors[j]? with
      | none => exact hi
      | some a =>
        obtain ⟨place, timer, hl, ht, -⟩ := hs
        have hok' : ActOK s (s.pc j) := hok
        rw [pc_of_getElem? hj] at hok'
        obtain ⟨b, new, hset, -⟩ := act_took (c := c) (d := d) hl ht hj hok'
        rw [pc_set_ne hj hset (Ne.symm hji)]
        exact hi
    | _ => cases he
  · left
    unfold State.pc at hi ⊢
    rw [(step_thread (s := s) (Bool.eq_false_iff.2 he)).1]
    exact hi

theorem act_sleep (i c : ℕ) (d : Bool) (a : Actor n) (s : State n) : (act i c d a s).sleep = s.sleep := by
  unfold act
  cases a.pc with
  | loop k =>
    cases k with
    | done => rfl
    | all w | tick w => cases w <;> rfl
  | unlink t k => cases k <;> rfl
  | wakeOne | remove | locked | waitOffCpu | cas | push =>
    simp only
    split <;> rfl
  | _ => rfl

/-- The steps of a thread in `waitq_sleep`. -/
def Event.inCall : Event n → Bool
  | .sleep .. | .enter .. | .resume .. | .unlist _ => true
  | _ => false

/-- The clock, the scheduler and the wakers put no thread to sleep. -/
theorem step_scheduler (he : e.inCall = false) :
    (step s e).sleep = s.sleep ∧ ((step s e).state t = .blocked → s.state t = .blocked) := by
  -- a thread whose state is changed does not sleep then
  have hset : ∀ {u : Fin n} {x : ThreadState}, x ≠ .blocked → update s.state u x t = .blocked → s.state t = .blocked := by
    grind
  have hstep := step_spec s e
  generalize step s e = s' at hstep ⊢
  cases hstep with
  | stay | time | leave | leavePush | call => exact ⟨rfl, fun h => h⟩
  | pop | preempt => exact ⟨rfl, hset (by decide)⟩
  | @act i c d a hi =>
    refine ⟨act_sleep i c d a s, ?_⟩
    rcases (act_state i c d a s).2 with ⟨hs, -⟩ | ⟨u, -, hs, -⟩
    · rw [hs]
      exact id
    · rw [hs]
      exact hset (by decide)
  | sleep | late | sleepTimed | giveUp | enter | resume | unlist => cases he

/-! ## The steps of a thread in its call -/

theorem sleepReturn_call (u : Fin n) (timed : Bool) (rc : ℤ) (s : State n) :
    (sleepReturn u timed rc s).state = s.state ∧ (∀ t, t ≠ u → (sleepReturn u timed rc s).sleep t = s.sleep t) ∧
      (sleepReturn u timed rc s).sleep u = if timed then .finish rc else .out := by
  cases timed
  · exact ⟨rfl, fun t ht => update_of_ne ht _ _, update_self _ _ _⟩
  · exact ⟨rfl, fun t ht => update_of_ne ht _ _, update_self _ _ _⟩

section

variable (hr : s.state u = .running)
include hr

theorem step_sleep (ho : s.sleep u = .out) (q : ℕ) (deadline : Option ℕ) :
    (step s (.sleep u q deadline)).state = s.state ∧ (∀ t, t ≠ u → (step s (.sleep u q deadline)).sleep t = s.sleep t) ∧
      ((step s (.sleep u q deadline)).sleep u = .out ∨ (step s (.sleep u q deadline)).sleep u = .enter q deadline.isSome) := by
  simp only [step, hr, ho, and_self, if_true]
  cases deadline with
  | none => exact ⟨rfl, fun t ht => update_of_ne ht _ _, .inr (update_self _ _ _)⟩
  | some d =>
    simp only [waitqSleep]
    split
    · exact ⟨rfl, fun _ _ => rfl, .inl ho⟩
    · exact ⟨rfl, fun t ht => update_of_ne ht _ _, .inr (update_self _ _ _)⟩

theorem step_enter {q : ℕ} (he : s.sleep u = .enter q timed)
    (pending abort : Bool) : step s (.enter u pending abort) = waitqEnter u q timed pending abort s := by
  simp only [step, he, hr, if_true]

theorem step_resume (ha : s.sleep u = .asleep timed) (pending : Bool) :
    step s (.resume u pending) = sleepReturn u timed (if pending then eintr else 0)
      { s with blockedOn := update s.blockedOn u none } := by
  simp only [step, ha, hr, if_true]

theorem step_unlist {rc : ℤ} (hf : s.sleep u = .finish rc) :
    (step s (.unlist u)).state = s.state ∧ (∀ t, t ≠ u → (step s (.unlist u)).sleep t = s.sleep t) ∧
      (step s (.unlist u)).sleep u = .out := by
  simp only [step, hf, hr, if_true]
  exact ⟨rfl, fun t ht => update_of_ne ht _ _, update_self _ _ _⟩

theorem queued_enter (hs : Sound s) (q : ℕ) (timed : Bool) : Queued (waitqEnter u q timed false false s) q u := by
  obtain ⟨place, -, h, -, -⟩ := hs
  have hpu := h.free_of_running hr
  have hfree : ∀ x, place u = x → x = .free := fun x hx => hx.symm.trans hpu
  refine ((h.chains.push (.wait q) ?_ ?_).mem_queue (.wait q)).2 (update_self _ _ _)
  · exact fun g hg => Place.noConfusion (hfree _ hg)
  · exact fun j hj => Place.noConfusion (hfree _ hj)

end

/-! ## One step of a model with wait queues -/

/-- What a step keeps of the threads that sleep. -/
structure Moves (s s' : State n) : Prop where
  sound : Sound s'
  due : ∀ t, s.state t = .blocked → s'.state t = .blocked → Due s t → Due s' t
  queued : ∀ t q, Queued s q t → Queued s' q t ∨ Due s' t

theorem Moves.refl (hs : Sound s) : Moves s s := ⟨hs, fun _ _ _ h => h, fun _ _ h => .inl h⟩

theorem Moves.step (hs : Sound s) (hok : StepOK s e) : Moves s (step s e) :=
  ⟨hs.step hok, fun _ hb hb' h => h.step hs hok hb hb', fun _ _ h => h.step hs hok⟩

/-- A waker that has no list and pushes nothing may start anywhere. -/
theorem Moves.launch (hs : Sound s) {pc : Pc n} (hcont : pc.cont = .done) (hu : pc.unlinks = none) (hx : pc.unlists = none)
    (hp : pc.pushes = none) : Moves s (s.launch pc) := by
  obtain ⟨place, timer, hl, ht, hc⟩ := hs
  have hl' := hl.launch hcont hu hp
  have ht' := ht.launch hcont hx
  exact ⟨⟨place, timer, hl', ht', hc.append hl ht rfl hl'.kept ht'.kept rfl rfl rfl nofun⟩,
    fun _ _ _ h => h.append rfl rfl, fun _ _ h => .inl h⟩

end NeoOS.WaitQueue
