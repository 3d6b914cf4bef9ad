import NeoOS.Proof.WaitLinks

/-!
# No wakeup is lost

The list of deadlines and the private lists of the ticks are kept like the queues are. With both kinds
of lists kept, every thread that a waker took is made ready: it stays on the private list until it is the
next one, and it is the next one until it has been made ready.

* `Timing.step`: every step keeps the lists of deadlines.
* `Counting.step`: a waker owes a wakeup to every thread that it took and that still sleeps.
* `wakeups_not_lost`: every run.
-/

namespace NeoOS.WaitQueue

open List
open Function (update update_apply update_of_ne update_self)

open Links
open Run (final)

variable {n j now c : ℕ} {s s' : State n} {t : Fin n} {i : ℕ} {a b : Actor n} {place place' : Fin n → Place} {d : Bool}
  {pc : Pc n} {e : Event n}

/-! ## Queues and wakeups -/

/-- The queues are proper lists whose tail is the last element, with the threads that sleep on the wait
queues and the ones that are ready on the run queues; every thread that is ready is on a run queue or about
to be pushed; and a thread that a waker took has been made ready since, or the waker still has it. -/
structure WakesOK (s : State n) : Prop where
  waiting : ∀ q, ∃ l, IsFifo s.next (s.queues (.wait q)) l ∧ ∀ t ∈ l, s.state t = .blocked
  running : ∀ c, ∃ l, IsFifo s.next (s.queues (.run c)) l ∧ ∀ t ∈ l, s.state t = .ready
  ready : ∀ t, s.state t = .ready → (∃ c, t ∈ nodes s.next n (s.queues (.run c)).head) ∨ ∃ i, (s.pc i).pushes = some t
  woken : ∀ i, ∀ x ∈ s.took i, x.2 ≤ s.wakes x.1 ∨ (s.pc i).current = some x.1 ∨
    x.1 ∈ nodes s.next n (s.pc i).woken ∨ x.1 ∈ nodes s.timeoutNext n (s.pc i).expired

/-! ## The deadlines -/

/-- Where the link of a deadline is. -/
inductive Timer
  | list
  | expired (i : ℕ)
  | off
deriving DecidableEq

/-- The list of deadlines and the private lists of the ticks. -/
structure Timing (s : State n) (timer : Fin n → Timer) : Prop where
  list : ∃ l, Linked s.timeoutNext s.timeoutList l ∧ ∀ t, t ∈ l ↔ timer t = .list
  expired : ∀ i, ∃ l, Linked s.timeoutNext (s.pc i).expired l ∧
    (∀ t, timer t = .expired i ↔ t ∈ l ∨ (s.pc i).unlists = some t) ∧ ∀ t ∈ l, (s.pc i).unlists ≠ some t
  timed : ∀ t, timer t = .list → (s.sleep t).timed

variable {timer timer' : Fin n → Timer}

/-- The conclusion of every step lemma. -/
def KeptTimers (s' : State n) (timer : Fin n → Timer) : Prop :=
  ∃ timer', Timing s' timer' ∧ ∀ j t, timer t = .expired j → timer' t = .expired j ∨ (s'.pc j).current = some t

theorem Timing.kept (h : Timing s' timer) : KeptTimers s' timer := ⟨timer, h, fun _ _ ht => .inl ht⟩

section

variable (h : Timing s timer)
include h

theorem Timing.private (i : ℕ) : Emptying s.timeoutNext ((s.pc i).expired, (s.pc i).unlists) (timer · = .expired i) :=
  h.expired i

theorem Timing.same (hn : s'.timeoutNext = s.timeoutNext) (hl : s'.timeoutList = s.timeoutList)
    (hs : ∀ t, timer t = .list → (s.sleep t).timed → (s'.sleep t).timed)
    (he : ∀ i, (s'.pc i).expired = (s.pc i).expired) (hu : ∀ i, (s'.pc i).unlists = (s.pc i).unlists) : Timing s' timer := by
  refine ⟨?_, ?_, ?_⟩
  · rw [hn, hl]
    exact h.list
  · intro i
    rw [hn, he i, hu i]
    exact h.expired i
  · intro t ht
    exact hs t ht (h.timed t ht)

/-- **A step that touches the list of deadlines or one private list.** -/
theorem Timing.rebuild (touched : Timer → Prop)
    (hn : ∀ t, ¬touched (timer t) → timer t ≠ .off → s'.timeoutNext t = s.timeoutNext t)
    (ht : ∀ t x, ¬touched x → x ≠ .off → (timer' t = x ↔ timer t = x))
    (hl : ¬touched .list → s'.timeoutList = s.timeoutList)
    (hpc : ∀ i, ¬touched (.expired i) → (s'.pc i).expired = (s.pc i).expired ∧ (s'.pc i).unlists = (s.pc i).unlists)
    (hlist : touched .list → ∃ l, Linked s'.timeoutNext s'.timeoutList l ∧ ∀ t, t ∈ l ↔ timer' t = .list)
    (hexp : ∀ i, touched (.expired i) → Emptying s'.timeoutNext ((s'.pc i).expired, (s'.pc i).unlists) (timer' · = .expired i))
    (htimed : ∀ t, timer' t = .list → (s'.sleep t).timed) : Timing s' timer' := by
  refine ⟨?_, ?_, htimed⟩
  · by_cases hx : touched .list
    · exact hlist hx
    obtain ⟨l, hlk, hmem⟩ := h.list
    rw [hl hx]
    refine ⟨l, hlk.congr ?_, fun t => (hmem t).trans (ht t _ hx (by decide)).symm⟩
    intro t htl
    have htt := (hmem t).1 htl
    apply hn t
    · rw [htt]
      exact hx
    · rw [htt]
      decide
  · intro i
    by_cases hx : touched (.expired i)
    · exact hexp i hx
    rw [(hpc i hx).1, (hpc i hx).2]
    refine (h.private i).congr (fun t htt => ?_) fun t => ht t _ hx Timer.noConfusion
    apply hn t
    · rw [htt]
      exact hx
    · rw [htt]
      exact Timer.noConfusion

theorem Timing.mem_expired (ht : t ∈ nodes s.timeoutNext n (s.pc j).expired) :
    timer t = .expired j := (mem_private_iff (h.private j)).2 (.inl ht)

theorem Timing.expired_empty (he : (s.pc i).expired = none) (hu : (s.pc i).unlists = none) (t : Fin n) :
    timer t ≠ .expired i := by
  have hp := h.private i
  rw [he, hu] at hp
  exact hp.empty t

theorem Timing.not_expired
    (ht : ∀ a ∈ s.actors, t ∉ nodes s.timeoutNext n a.pc.expired ∧ a.pc.unlists ≠ some t) (i : ℕ) : timer t ≠ .expired i := by
  rcases pc_cases s i with hpc | ⟨a, ha, hpc⟩
  · exact h.expired_empty (by rw [hpc]; rfl) (by rw [hpc]; rfl) t
  · intro he
    have hta := ht a ha
    rw [← hpc] at hta
    exact not_or.2 hta ((mem_private_iff (h.private i)).1 he)

theorem Timing.add (hout : s.sleep t = .out) {d q : ℕ}
    (hok : ∀ a ∈ s.actors, t ∉ nodes s.timeoutNext n a.pc.expired ∧ a.pc.unlists ≠ some t) :
    KeptTimers (timeoutAdd t d { s with sleep := update s.sleep t (.enter q true) }) timer := by
  have htimed := h.timed
  have hoff : timer t = .off := by
    cases ht : timer t with
    | list =>
      have := htimed t ht
      rw [hout] at this
      cases this
    | expired i => exact absurd ht (h.not_expired hok i)
    | off => rfl
  obtain ⟨l, hl, hmem⟩ := h.list
  refine ⟨update timer t .list, ?_, by grind [update_apply]⟩
  unfold timeoutAdd
  apply h.rebuild (· = .list)
  · grind [update_apply]
  · grind [update_apply]
  · exact fun hne => absurd rfl hne
  · exact fun _ _ => ⟨rfl, rfl⟩
  · intro _
    refine ⟨t :: l, ⟨rfl, ?_⟩, by grind [update_apply]⟩
    show Linked (update s.timeoutNext t s.timeoutList) (update s.timeoutNext t s.timeoutList t) l
    rw [update_self]
    exact hl.congr (by grind [update_apply])
  · nofun
  · grind [update_apply, Sleep.timed]

theorem Timing.remove {rc : ℤ} (hok : ∀ a ∈ s.actors, t ∈ nodes s.timeoutNext n a.pc.expired → s.timeoutNext t = none) :
    KeptTimers (timeoutReturn t rc s) timer := by
  have htimed := h.timed
  obtain ⟨l, hl, hmem⟩ := h.list
  by_cases ht : timer t = .list
  · obtain ⟨A, B, rfl⟩ := append_of_mem ((hmem t).2 ht)
    obtain ⟨-, hlink, hkeep⟩ := hl.unlink_append (length_le_of_linked hl)
    have hnd := hl.nodup
    refine ⟨update timer t .off, ?_, by grind [update_apply]⟩
    apply h.rebuild (· = .list)
    · exact fun u hu _ => hkeep u fun hul => hu ((hmem u).1 hul)
    · grind [update_apply]
    · exact fun hne => absurd rfl hne
    · exact fun _ _ => ⟨rfl, rfl⟩
    · exact fun _ => ⟨A ++ B, hlink, by grind [update_apply]⟩
    · nofun
    · unfold timeoutReturn timeoutRemove
      grind [update_apply]
  · -- not on the list: only its own link is written, and no list goes on behind it
    have htl : t ∉ l := fun hm => ht ((hmem t).1 hm)
    have hun := hl.unlink_of_not_mem (n := n) htl
    have hnext : (timeoutReturn t rc s).timeoutNext = update s.timeoutNext t none := by
      show (unlink n s.timeoutNext s.timeoutList t).1 = _
      rw [hun]
    have hhead : (timeoutReturn t rc s).timeoutList = s.timeoutList := by
      show (unlink n s.timeoutNext s.timeoutList t).2.1 = _
      rw [hun]
    apply Timing.kept
    refine ⟨?_, ?_, ?_⟩
    · rw [hnext, hhead]
      exact ⟨l, hl.congr (by grind [update_apply]), hmem⟩
    · intro i
      obtain ⟨e, he, hme, hue⟩ := h.expired i
      refine ⟨e, ?_, hme, hue⟩
      rw [hnext]
      apply he.congr
      intro u hu
      rw [update_apply]
      split
      · rename_i hut
        subst hut
        rcases pc_cases s i with hpc | ⟨a, ha, hpc⟩
        · rw [hpc] at he
          rw [he.eq_nil] at hu
          cases hu
        · refine (hok a ha ?_).symm
          rw [← hpc]
          exact (mem_nodes_iff he).2 hu
      · rfl
    · intro u hu
      show (update s.sleep t .out u).timed
      grind [update_apply]

end

/-- Where the wakers are after waker `i` went on, for one part of it. -/
theorem pc_set_ne (hi : s.actors[i]? = some a) (hset : s'.actors = s.actors.set i b) (hj : j ≠ i) :
    s'.pc j = s.pc j := by rw [pc_set hi hset, update_of_ne hj]

theorem pc_set_self (hi : s.actors[i]? = some a) (hset : s'.actors = s.actors.set i b) : s'.pc i = b.pc := by
  rw [pc_set hi hset, update_self]

section Ticks

variable (h : Timing s timer)
include h

section

variable (hi : s.actors[i]? = some a)
include hi

theorem Timing.sieved (ha : a.pc = .scan now) {took : List (Fin n × ℕ)}
    (hset : s'.actors =
      s.actors.set i ⟨.loop (.tick (sieve (s.isExpired now) n none s.timeoutNext s.timeoutList none).2.2), took⟩)
    (hnext : s'.timeoutNext = (sieve (s.isExpired now) n none s.timeoutNext s.timeoutList none).1)
    (hhead : s'.timeoutList = (sieve (s.isExpired now) n none s.timeoutNext s.timeoutList none).2.1)
    (hsleep : s'.sleep = s.sleep) : KeptTimers s' timer ∧
      ∀ t ∈ nodes s.timeoutNext n s.timeoutList, s.isExpired now t → t ∈ nodes s'.timeoutNext n (s'.pc i).expired := by
  obtain ⟨l, hl, hmem⟩ := h.list
  obtain ⟨hkeep, hexp, hframe⟩ := hl.sieve (s.isExpired now) (A := []) (W := []) (w := none) (n := n) rfl (by simp)
    (length_le_of_linked hl)
  rw [append_nil] at hexp
  have hself := pc_set_self hi hset
  have hpc : s.pc i = .scan now := (pc_of_getElem? hi).trans ha
  have hold := h.expired_empty (i := i) (by rw [hpc]; rfl) (by rw [hpc]; rfl)
  constructor
  · refine ⟨fun u => if timer u = .list ∧ s.isExpired now u = true then .expired i else timer u, ?_,
      fun j u hu => by simp [hu]⟩
    apply h.rebuild (fun x => x = .list ∨ x = .expired i)
    · intro u hu _
      rw [hnext]
      exact hframe u fun hul => hu (.inl ((hmem u).1 hul))
    · clear hset hnext hhead hkeep hexp hself hframe
      grind
    · exact fun hne => absurd (.inl rfl) hne
    · intro j hj
      rw [pc_set_ne hi hset fun e => hj (.inr (congrArg _ e))]
      exact ⟨rfl, rfl⟩
    · intro _
      rw [hnext, hhead]
      refine ⟨_, hkeep, fun u => ?_⟩
      simp only [nil_append, mem_filter, hmem u]
      grind only
    · intro j hj
      rcases hj with hj | hj
      · cases hj
      cases hj
      rw [hself, hnext]
      refine ⟨_, hexp, fun u => ?_, nofun⟩
      have hu := hold u
      simp only [mem_reverse, mem_filter, hmem u, Pc.unlists]
      grind only
    · intro u hu
      rw [hsleep]
      split at hu
      · cases hu
      · exact h.timed u hu
  · intro u hu he
    rw [mem_nodes_iff hl] at hu
    rw [hself, hnext]
    refine (mem_nodes_iff hexp).2 ?_
    simp [hu, he]

theorem Timing.scan (ha : a.pc = .scan now) : KeptTimers (act i c d a s) timer ∧
      ∀ t ∈ nodes s.timeoutNext n s.timeoutList, s.isExpired now t →
        t ∈ nodes (act i c d a s).timeoutNext n ((act i c d a s).pc i).expired := by
  unfold act
  simp only [ha]
  exact h.sieved hi ha rfl rfl rfl rfl

theorem Timing.loopTick (ha : a.pc = .loop (.tick (some t))) :
    KeptTimers (goto i a (.unlink t (.tick (s.timeoutNext t))) s) timer := by
  have hself : (goto i a (.unlink t (.tick (s.timeoutNext t))) s).pc i = .unlink t (.tick (s.timeoutNext t)) := by
    rw [pc_goto hi, update_self]
  apply Timing.kept
  apply h.rebuild (· = .expired i)
  · exact fun _ _ _ => rfl
  · exact fun _ _ _ _ => Iff.rfl
  · exact fun _ => rfl
  · intro j hj
    have hji : j ≠ i := by
      rintro rfl
      exact hj rfl
    rw [pc_goto hi, update_of_ne hji]
    exact ⟨rfl, rfl⟩
  · nofun
  · intro j hj
    cases hj
    have hp := h.private i
    rw [pc_of_getElem? hi, ha] at hp
    rw [hself]
    exact hp.takeOff
  · exact h.timed

/-- The link of the thread that was taken off is cleared. -/
theorem Timing.unlinkTick {w : Option (Fin n)} (ha : a.pc = .unlink t (.tick w)) :
    KeptTimers (goto i a (.test t (.tick w)) { s with timeoutNext := update s.timeoutNext t none }) timer := by
  have hp := h.private i
  rw [pc_of_getElem? hi, ha] at hp
  have htimed := h.timed
  have htt : timer t = .expired i := hp.taken
  have hset : (goto i a (.test t (.tick w)) { s with timeoutNext := update s.timeoutNext t none }).actors =
    s.actors.set i { a with pc := .test t (.tick w) } := rfl
  have hself := pc_set_self hi hset
  refine ⟨update timer t .off, ?_, ?_⟩
  · apply h.rebuild (· = .expired i)
    · intro u hu' _
      exact update_of_ne (by grind) _ _
    · grind [update_apply]
    · exact fun _ => rfl
    · intro j hj
      rw [pc_set_ne hi hset fun e => hj (congrArg _ e)]
      exact ⟨rfl, rfl⟩
    · nofun
    · intro j hj
      cases hj
      rw [hself]
      exact hp.clear (by grind [update_apply])
    · intro u hu'
      refine htimed u ?_
      grind [update_apply]
  · intro j u hu'
    by_cases hut : u = t
    · subst hut
      cases htt.symm.trans hu'
      right
      rw [hself]
      rfl
    · left
      rw [update_of_ne hut]
      exact hu'

/-- A waker that leaves the deadlines alone and keeps its private list. -/
theorem Timing.goto_same (hset : s'.actors = s.actors.set i b)
    (hn : s'.timeoutNext = s.timeoutNext) (hl : s'.timeoutList = s.timeoutList) (hs : s'.sleep = s.sleep)
    (he : b.pc.expired = a.pc.expired) (hu : b.pc.unlists = a.pc.unlists) : KeptTimers s' timer := by
  apply Timing.kept
  have hpc : ∀ j, (s'.pc j).expired = (s.pc j).expired ∧ (s'.pc j).unlists = (s.pc j).unlists := by
    intro j
    by_cases hj : j = i
    · subst hj
      rw [pc_set_self hi hset, pc_of_getElem? hi]
      exact ⟨he, hu⟩
    · rw [pc_set_ne hi hset hj]
      exact ⟨rfl, rfl⟩
  exact h.same hn hl (fun t _ ht => hs ▸ ht) (fun j => (hpc j).1) fun j => (hpc j).2

theorem Timing.goto (he : pc.expired = a.pc.expired) (hu : pc.unlists = a.pc.unlists) : KeptTimers (goto i a pc s) timer :=
  h.goto_same hi rfl rfl rfl rfl he hu

/-- **Every step of a waker keeps the deadlines.** -/
theorem Timing.act : KeptTimers (act i c d a s) timer := by
  cases ha : a.pc with
  | scan now => exact (h.scan hi ha).1
  | loop k =>
    unfold WaitQueue.act
    rcases k with _ | (_ | u) | (_ | u) <;> simp only [ha]
    case tick.some => exact h.loopTick hi ha
    all_goals apply h.goto hi <;> rw [ha] <;> rfl
  | unlink t k =>
    unfold WaitQueue.act
    cases k <;> simp only [ha]
    case tick => exact h.unlinkTick hi ha
    all_goals refine h.goto_same hi rfl rfl rfl rfl ?_ ?_ <;> rw [ha] <;> rfl
  | _ =>
    -- nothing to do with deadlines
    unfold WaitQueue.act
    simp only [ha]
    repeat' split
    all_goals first
      | exact h.kept
      | (refine h.goto_same hi rfl rfl rfl rfl ?_ ?_ <;> rw [ha] <;> rfl)

end

/-- Steps that leave the deadlines and the wakers alone. -/
theorem Timing.other (hn : s'.timeoutNext = s.timeoutNext) (hl : s'.timeoutList = s.timeoutList)
    (hs : ∀ t, timer t = .list → (s.sleep t).timed → (s'.sleep t).timed) (ha : s'.actors = s.actors) :
    KeptTimers s' timer := by
  have hpc := pc_congr ha
  apply Timing.kept
  apply h.same hn hl hs <;> intro i <;> rw [hpc]

end Ticks

theorem timed_update {x : Sleep} (hx : timer t = .list → (s.sleep t).timed → x.timed) (u : Fin n)
    (hu : timer u = .list) (ht : (s.sleep u).timed) : (update s.sleep t x u).timed := by
  grind [update_apply]

theorem Timing.launch (h : Timing s timer) (hcont : pc.cont = .done)
    (hu : pc.unlists = none) : Timing (s.launch pc) timer := by
  have he : pc.expired = Pc.idle.expired := by rw [Pc.expired, hcont]; rfl
  exact h.same rfl rfl (fun _ _ ht => ht) (view_append Pc.expired rfl he) (view_append Pc.unlists rfl hu)

/-- **Every step keeps the deadlines.** -/
theorem Timing.step (h : Timing s timer) (hok : StepOK s e) : KeptTimers (step s e) timer := by
  have hstep := step_spec s e
  generalize WaitQueue.step s e = s' at hstep ⊢
  cases hstep with
  | stay => exact h.kept
  | time | late | leave | leavePush | pop | preempt => exact h.other rfl rfl (fun _ _ ht => ht) rfl
  | sleep hs =>
    refine h.other rfl rfl (timed_update fun _ ht => ?_) rfl
    rw [hs] at ht
    cases ht
  | sleepTimed hs => exact h.add hs hok
  | giveUp hs hx | resume hs _ hx =>
    refine h.other rfl rfl (timed_update fun _ ht => hx ?_) rfl
    rw [hs] at ht
    exact ht
  | enter hs =>
    refine h.other rfl rfl (timed_update fun _ ht => ?_) rfl
    rw [hs] at ht
    exact ht
  | unlist => exact h.remove hok
  | call hpc =>
    obtain ⟨hcont, -, hu, -⟩ := isStart_view hpc
    exact (h.launch hcont hu).kept
  | act hi => exact h.act hi

theorem Timing.initial : Timing (.initial n) fun _ => .off := by
  refine ⟨⟨[], rfl, by simp⟩, ?_, nofun⟩
  intro i
  refine ⟨[], rfl, ?_, by simp⟩
  intro t
  simp [State.initial, State.pc, Pc.unlists]

/-! ## Wakeups -/

/-- Waker `i` still has the thread. -/
def Has (s : State n) (i : ℕ) (t : Fin n) : Prop :=
  (s.pc i).current = some t ∨ t ∈ nodes s.next n (s.pc i).woken ∨ t ∈ nodes s.timeoutNext n (s.pc i).expired

/-- A thread is asleep exactly while one wakeup is due, and a waker has every thread whose wakeup it took. -/
structure Counting (s : State n) : Prop where
  due : ∀ t, s.sleeps t = s.wakes t + if s.state t = .blocked then 1 else 0
  took : ∀ i, ∀ x ∈ s.took i, x.2 ≤ s.sleeps x.1 ∧ (x.2 ≤ s.wakes x.1 ∨ Has s i x.1)

theorem current_of_unlists (h : pc.unlists = some t) : pc.current = some t := by
  cases pc with
  | unlink u k =>
    cases k with
    | all | done => cases h
    | tick w => exact h
  | _ => cases h

theorem has_of_kept (hl : Linking s place) (ht : Timing s timer) (hl' : Kept s' place) (ht' : KeptTimers s' timer)
    (h : t ∈ nodes s.next n (s.pc i).woken ∨ t ∈ nodes s.timeoutNext n (s.pc i).expired) : Has s' i t := by
  rcases h with h | h
  · obtain ⟨place', hp, hf⟩ := hl'
    rcases hl.owes hp hf h with h | h
    · exact .inr (.inl h)
    · exact .inl h
  · obtain ⟨timer', hp, hf⟩ := ht'
    rcases hf i t (ht.mem_expired h) with h | h
    · rcases (mem_private_iff (hp.private i)).1 h with h | h
      · exact .inr (.inr h)
      · exact .inl (current_of_unlists h)
    · exact .inl h

theorem took_of_getElem? (hi : s.actors[i]? = some a) : s.took i = a.took := by
  unfold State.took
  rw [hi]

theorem took_length (s : State n) : s.took s.actors.length = [] := by
  unfold State.took
  rw [getElem?_eq_none (le_refl _)]

/-- One step of a waker either goes on with its thread or the thread has been made ready. -/
theorem act_current (hi : s.actors[i]? = some a) (hc : a.pc.current = some t) :
    ((act i c d a s).pc i).current = some t ∨ s.state t ≠ .blocked ∨ (act i c d a s).wakes t = s.wakes t + 1 := by
  have hself : ∀ {s' : State n} {b : Actor n}, s'.actors = s.actors.set i b → (s'.pc i).current = b.pc.current := by
    intro s' b hset
    rw [pc_set_self hi hset]
  unfold act
  cases ha : a.pc with
  | unlink u k =>
    rw [ha] at hc
    left
    cases k <;> rw [hself rfl] <;> exact hc
  | test u k | load u k =>
    rw [ha] at hc
    cases hc
    by_cases hb : s.state t = .blocked
    · left
      rw [hself rfl, if_pos hb]
      rfl
    · exact .inr (.inl hb)
  | remove u k | locked u q k =>
    rw [ha] at hc
    left
    simp only
    split <;> rw [hself rfl] <;> exact hc
  | waitOffCpu u k =>
    rw [ha] at hc
    left
    simp only
    split
    · rw [pc_of_getElem? hi, ha]
      exact hc
    · rw [hself rfl]
      exact hc
  | cas u k =>
    rw [ha] at hc
    cases hc
    simp only
    split
    · right; right
      exact update_self t _ _
    · rename_i hb
      exact .inr (.inl hb)
  | _ =>
    rw [ha] at hc
    cases hc

/-- What a step of a waker does to the counters: nothing, or one thread is made ready. -/
theorem act_state (i c : ℕ) (d : Bool) (a : Actor n) (s : State n) : (act i c d a s).sleeps = s.sleeps ∧
      ((act i c d a s).state = s.state ∧ (act i c d a s).wakes = s.wakes ∨
        ∃ t, s.state t = .blocked ∧ (act i c d a s).state = update s.state t .ready ∧
          (act i c d a s).wakes = update s.wakes t (s.wakes t + 1)) := by
  unfold act
  cases a.pc with
  | cas t k =>
    dsimp only
    split
    · rename_i hb
      exact ⟨rfl, .inr ⟨t, hb, rfl, rfl⟩⟩
    · exact ⟨rfl, .inl ⟨rfl, rfl⟩⟩
  | loop k => rcases k with _ | (_ | u) | (_ | u) <;> exact ⟨rfl, .inl ⟨rfl, rfl⟩⟩
  | unlink t k => cases k <;> exact ⟨rfl, .inl ⟨rfl, rfl⟩⟩
  | wakeOne | remove | locked | waitOffCpu | push =>
    dsimp only
    split <;> exact ⟨rfl, .inl ⟨rfl, rfl⟩⟩
  | _ => exact ⟨rfl, .inl ⟨rfl, rfl⟩⟩

theorem set_getElem?_self {α : Type*} {l : List α} {x : α} (h : l[i]? = some x) : l = l.set i x := by
  obtain ⟨hlt, rfl⟩ := List.getElem?_eq_some_iff.1 h
  exact (set_getElem_self hlt).symm

theorem act_took (hl : Linking s place) (ht : Timing s timer) (hi : s.actors[i]? = some a) (hok : ActOK s a.pc) :
    ∃ b new, (act i c d a s).actors = s.actors.set i b ∧ b.took = new ++ a.took ∧
      ∀ x ∈ new, x.2 ≤ s.sleeps x.1 ∧ Has (act i c d a s) i x.1 := by
  cases ha : a.pc with
  | wakeOne q =>
    unfold act
    simp only [ha]
    split
    · exact ⟨_, [], rfl, rfl, by simp⟩
    · rename_i t _ _ _
      refine ⟨_, [(t, s.sleeps t)], rfl, rfl, ?_⟩
      intro x hx
      rw [mem_singleton] at hx
      subst hx
      refine ⟨le_refl _, .inl ?_⟩
      rw [pc_set_self hi rfl]
      rfl
  | wakeAll q =>
    obtain ⟨l, hlf, -⟩ := hl.chains.queue (.wait q)
    have hlen := length_le_of_linked hlf.linked
    have hkeep : IsFifo s.next ⟨none, none⟩ [] := ⟨rfl, rfl⟩
    obtain ⟨-, hpriv, -⟩ := hlf.sift (fun _ => true) (W := []) (w := none) rfl hkeep (by simp) (by simp) (by simp) hlen
    rw [← hlf.drain_eq_sift hlen] at hpriv
    unfold act
    simp only [ha]
    refine ⟨_, _, rfl, rfl, ?_⟩
    intro x hx
    obtain ⟨t, htl, rfl⟩ := mem_map.1 hx
    refine ⟨le_refl _, .inr (.inl ?_)⟩
    rw [pc_set_self hi rfl]
    refine (mem_nodes_iff hpriv).2 ?_
    rw [append_nil, filter_true, mem_reverse]
    exact (mem_nodes_iff hlf.linked).1 htl
  | scan now =>
    obtain ⟨-, hexp⟩ := ht.scan (c := c) (d := d) hi ha
    rw [ha] at hok
    have hact : (act i c d a s).actors = s.actors.set i
        ⟨.loop (.tick (sieve (s.isExpired now) n none s.timeoutNext s.timeoutList none).2.2),
          ((nodes s.timeoutNext n s.timeoutList).filter (s.isExpired now)).map (fun t => (t, s.ordinal t)) ++ a.took⟩ := by
      unfold act
      rw [ha]
    refine ⟨_, _, hact, rfl, ?_⟩
    intro x hx
    obtain ⟨t, htl, rfl⟩ := mem_map.1 hx
    obtain ⟨hmem, htest⟩ := mem_filter.1 htl
    refine ⟨?_, .inr (.inr (hexp t hmem htest))⟩
    have hent := hok t hmem htest
    unfold State.ordinal
    split
    · rename_i hs
      rw [hs] at hent
      cases hent
    · exact le_refl _
  -- nothing is taken
  | loop k =>
    unfold act
    rcases k with _ | (_ | u) | (_ | u) <;> simp only [ha] <;> exact ⟨_, [], rfl, rfl, by simp⟩
  | unlink t k =>
    unfold act
    cases k <;> simp only [ha] <;> exact ⟨_, [], rfl, rfl, by simp⟩
  | remove | locked | cas =>
    unfold act
    simp only [ha]
    split <;> exact ⟨_, [], rfl, rfl, by simp⟩
  | waitOffCpu | push =>
    unfold act
    simp only [ha]
    split
    · exact ⟨a, [], set_getElem?_self hi, rfl, by simp⟩
    · exact ⟨_, [], rfl, rfl, by simp⟩
  | idle =>
    unfold act
    simp only [ha]
    exact ⟨a, [], set_getElem?_self hi, rfl, by simp⟩
  | signal | timeoutTick | test | load | clear =>
    unfold act
    simp only [ha]
    exact ⟨_, [], rfl, rfl, by simp⟩

/-- No counter and no waker changes, and the states still fit the counters. -/
def Quiet (s s' : State n) : Prop :=
  s'.sleeps = s.sleeps ∧ s'.wakes = s.wakes ∧ s'.actors = s.actors ∧
    ∀ u, s.sleeps u = s.wakes u + if s'.state u = .blocked then 1 else 0

section

variable (h : Counting s)
include h

theorem Counting.sleeps_eq (ht : s.state t ≠ .blocked) : s.sleeps t = s.wakes t := by
  have := h.due t
  rw [if_neg ht] at this
  exact this

theorem Counting.sleeps_eq_succ (ht : s.state t = .blocked) : s.sleeps t = s.wakes t + 1 := by
  have := h.due t
  rw [if_pos ht] at this
  exact this

/-- The state of one thread changes and nothing is due for it before and after. -/
theorem due_update {x : ThreadState} (ht : s.state t ≠ .blocked) (hx : x ≠ .blocked) (u : Fin n) :
    s.sleeps u = s.wakes u + if update s.state t x u = .blocked then 1 else 0 := by
  by_cases hut : u = t
  · subst hut
    rw [update_self, if_neg hx]
    exact h.sleeps_eq ht
  · rw [update_of_ne hut]
    exact h.due u

section

variable (hl : Linking s place)
include hl

section

variable (ht : Timing s timer)
include ht

/-- Steps of the threads: the wakers stay where they are. -/
theorem Counting.thread (hl' : Kept s' place)
    (ht' : KeptTimers s' timer) (hdue : ∀ t, s'.sleeps t = s'.wakes t + if s'.state t = .blocked then 1 else 0)
    (hsl : ∀ t, s.sleeps t ≤ s'.sleeps t) (hw : s'.wakes = s.wakes) (ha : s'.actors = s.actors) : Counting s' := by
  refine ⟨hdue, ?_⟩
  intro i x hx
  have htook : s'.took i = s.took i := by
    unfold State.took
    rw [ha]
  rw [htook] at hx
  obtain ⟨h1, h2⟩ := h.took i x hx
  refine ⟨h1.trans (hsl x.1), ?_⟩
  rcases h2 with h2 | h2 | h2
  · rw [hw]
    exact .inl h2
  · refine .inr (.inl ?_)
    rw [pc_congr ha]
    exact h2
  · exact .inr (has_of_kept hl ht hl' ht' h2)

/-- **A new waker starts**, and it has every thread that it took. -/
theorem Counting.append
    (ha : s'.actors = s.actors ++ [b]) (hl' : Kept s' place) (ht' : KeptTimers s' timer) (hs : s'.state = s.state)
    (hsl : s'.sleeps = s.sleeps) (hw : s'.wakes = s.wakes)
    (hb : ∀ x ∈ b.took, x.2 ≤ s.sleeps x.1 ∧ Has s' s.actors.length x.1) : Counting s' := by
  refine ⟨?_, ?_⟩
  · intro u
    rw [hsl, hw, hs]
    exact h.due u
  · intro j x hx
    rw [took_append ha] at hx
    rw [hsl, hw]
    by_cases hj : j = s.actors.length
    · subst hj
      rw [update_self] at hx
      exact ⟨(hb x hx).1, .inr (hb x hx).2⟩
    · rw [update_of_ne hj] at hx
      obtain ⟨h1, h2⟩ := h.took j x hx
      refine ⟨h1, ?_⟩
      rcases h2 with h2 | h2 | h2
      · exact .inl h2
      · refine .inr (.inl ?_)
        rw [pc_append ha, update_of_ne hj]
        exact h2
      · exact .inr (has_of_kept hl ht hl' ht' h2)

/-- **Every step of a waker keeps the count.** -/
theorem Counting.act (hi : s.actors[i]? = some a) (hok : ActOK s a.pc) : Counting (act i c d a s) := by
  obtain ⟨hsl, hst⟩ := act_state i c d a s
  obtain ⟨b, new, hset, htook, hnew⟩ := act_took (c := c) (d := d) hl ht hi hok
  have hl' := hl.act (c := c) (d := d) hi hok
  have ht' := ht.act (c := c) (d := d) hi
  have hwakes : ∀ u, s.wakes u ≤ (WaitQueue.act i c d a s).wakes u := by
    intro u
    rcases hst with ⟨-, hw⟩ | ⟨t, -, -, hw⟩
    · rw [hw]
    · rw [hw]
      grind [update_apply]
  refine ⟨?_, ?_⟩
  · intro u
    rw [hsl]
    rcases hst with ⟨hs, hw⟩ | ⟨t, hb, hs, hw⟩
    · rw [hs, hw]
      exact h.due u
    · rw [hs, hw]
      have hu := h.due u
      grind [update_apply]
  · intro j x hx
    rw [took_set hi hset] at hx
    rw [hsl]
    -- what was taken before this step
    have hold : x ∈ s.took j → x.2 ≤ s.sleeps x.1 ∧ (x.2 ≤ (WaitQueue.act i c d a s).wakes x.1 ∨
      Has (WaitQueue.act i c d a s) j x.1) := by
      intro hx
      obtain ⟨h1, h2⟩ := h.took j x hx
      refine ⟨h1, ?_⟩
      rcases h2 with h2 | h2 | h2
      · exact .inl (h2.trans (hwakes x.1))
      · by_cases hj : j = i
        · subst hj
          rw [pc_of_getElem? hi] at h2
          -- the thread the waker is about to wake
          rcases act_current (c := c) (d := d) hi h2 with hc | hb | hw
          · exact .inr (.inl hc)
          · rw [h.sleeps_eq hb] at h1
            exact .inl (h1.trans (hwakes x.1))
          · refine .inl (h1.trans ?_)
            rw [hw, h.due x.1]
            split <;> omega
        · refine .inr (.inl ?_)
          rw [pc_set_ne hi hset hj]
          exact h2
      · exact .inr (has_of_kept hl ht hl' ht' h2)
    by_cases hj : j = i
    · subst hj
      rw [update_self, htook] at hx
      rcases mem_append.1 hx with hx | hx
      · exact ⟨(hnew x hx).1, .inr (hnew x hx).2⟩
      · exact hold (by rwa [took_of_getElem? hi])
    · rw [update_of_ne hj] at hx
      exact hold hx

theorem Counting.quiet (hl' : Kept s' place) (ht' : KeptTimers s' timer) (hq : Quiet s s') : Counting s' := by
  obtain ⟨hsl, hw, ha, hdue⟩ := hq
  refine h.thread hl ht hl' ht' ?_ (fun t => by rw [hsl]) hw ha
  intro u
  rw [hsl, hw]
  exact hdue u

/-- **Every step keeps the count.** -/
theorem Counting.step (hok : StepOK s e) : Counting (step s e) := by
  have hl' := hl.step hok
  have ht' := ht.step hok
  have hrun : ∀ {u : Fin n}, s.state u = .running → s.state u ≠ .blocked := by
    intro u hu hb
    rw [hu] at hb
    cases hb
  have hstep := step_spec s e
  generalize WaitQueue.step s e = s' at hstep hl' ht' ⊢
  cases hstep with
  | stay => exact h
  | time | sleep | late | sleepTimed | giveUp | leave | leavePush | resume | unlist =>
    exact h.quiet hl ht hl' ht' ⟨rfl, rfl, rfl, h.due⟩
  | @enter t q timed _ _ _ hr =>
    -- the thread goes to sleep
    refine h.thread hl ht hl' ht' ?_ ?_ rfl rfl
    · intro u
      show update s.sleeps t (s.sleeps t + 1) u = s.wakes u + if update s.state t .blocked u = .blocked then 1 else 0
      by_cases hut : u = t
      · subst hut
        simp [h.sleeps_eq (hrun hr)]
      · rw [update_of_ne hut, update_of_ne hut]
        exact h.due u
    · intro u
      show s.sleeps u ≤ update s.sleeps t (s.sleeps t + 1) u
      by_cases hut : u = t
      · subst hut
        rw [update_self]
        exact Nat.le_succ _
      · rw [update_of_ne hut]
  | @pop t c _ _ hp =>
    refine h.quiet hl ht hl' ht' ⟨rfl, rfl, rfl, due_update h ?_ (by decide)⟩
    rw [(hl.ready t).2 (.inl ⟨c, (hl.chains.pop hp).1⟩)]
    decide
  | preempt hr => exact h.quiet hl ht hl' ht' ⟨rfl, rfl, rfl, due_update h (hrun hr) (by decide)⟩
  | call => exact h.append hl ht rfl hl' ht' rfl rfl rfl nofun
  | @act i c d a hi =>
    have hok' : ActOK s (s.pc i) := hok
    rw [pc_of_getElem? hi] at hok'
    exact h.act hl ht hi hok'

end

end

end

/-! ## Runs -/

/-- **Wakeups are not lost**: in every run in which no thread is removed while a waker has others behind it
on its private list, no compare-exchange finds a thread in a later sleep, and no deadline expires while its
thread is not yet asleep or on the list of an earlier tick. -/
theorem wakeups_not_lost (n : ℕ) (es : List (Event n)) (hv : Run.Valid step StepOK (.initial n) es) :
    WakesOK (final step (.initial n) es) := by
  have hinv : ∃ place timer, Linking (final step (.initial n) es) place ∧
      Timing (final step (.initial n) es) timer ∧ Counting (final step (.initial n) es) := by
    refine hv.invariant (I := fun s => ∃ place timer, Linking s place ∧ Timing s timer ∧ Counting s) ?_ ?_
    · rintro s e ⟨place, timer, hl, ht, hc⟩ hok
      obtain ⟨place', hl', -⟩ := hl.step hok
      obtain ⟨timer', ht', -⟩ := ht.step hok
      exact ⟨place', timer', hl', ht', hc.step hl ht hok⟩
    · exact ⟨_, _, .initial, .initial, fun _ => rfl, nofun⟩
  obtain ⟨place, timer, hl, -, hc⟩ := hinv
  refine ⟨?_, ?_, ?_, ?_⟩
  · intro q
    obtain ⟨l, hlf, hmem⟩ := hl.chains.queue (.wait q)
    exact ⟨l, hlf, fun t ht => (hl.blocked t q ((hmem t).1 ht)).1⟩
  · intro c
    obtain ⟨l, hlf, hmem⟩ := hl.chains.queue (.run c)
    exact ⟨l, hlf, fun t ht => (hl.ready t).2 (.inl ⟨c, (hmem t).1 ht⟩)⟩
  · intro t ht
    rcases (hl.ready t).1 ht with ⟨c, hp⟩ | ⟨i, hp⟩
    · obtain ⟨l, hlf, hmem⟩ := hl.chains.queue (.run c)
      exact .inl ⟨c, (mem_nodes_iff hlf.linked).2 ((hmem t).2 hp)⟩
    · exact .inr ⟨i, (hl.pushing i t).1 hp⟩
  · intro i x hx
    exact (hc.took i x hx).2

/-- Threads 0 and 1 sleep on queue 0, and thread 2 sleeps on queue 1 until tick 1. -/
def threeAsleep : List (Event 3) :=
  [.sleep 0 0 none, .enter 0 false false, .leave 0 0, .sleep 1 0 none, .enter 1 false false, .leave 1 0,
    .sleep 2 1 (some 1), .enter 2 false false, .leave 2 0, .time]

/-- A `waitq_wake_all` wakes the first two and a tick the third. -/
def threeWoken : List (Event 3) :=
  threeAsleep ++ [.call (.wakeAll 0), .call .timeoutTick] ++ List.replicate 16 (.act 0 0 false) ++
    List.replicate 13 (.act 1 0 false) ++ [.pop 0, .resume 1 false, .pop 0, .resume 0 false, .pop 0, .resume 2 false,
    .unlist 2]

theorem wakeups_not_lost_three : WakesOK (final step (.initial 3) threeWoken) ∧
      (final step (.initial 3) threeWoken).actors.map (·.pc) = [.idle, .idle] ∧
      (List.finRange 3).map (final step (.initial 3) threeWoken).wakes = [1, 1, 1] ∧
      (List.finRange 3).map (final step (.initial 3) threeWoken).ret = [0, 0, etimedout] :=
  ⟨wakeups_not_lost 3 threeWoken (by decide), by decide, by decide, by decide⟩

/-- Thread 1 gets a signal after `waitq_wake_all` has drained the queue and before it has come to it. -/
def removedInBetween : List (Event 3) :=
  threeAsleep ++ [.call (.wakeAll 0), .act 0 0 false, .call (.signal 1), .act 1 0 true, .act 1 0 true, .act 1 0 true] ++
    List.replicate 8 (.act 0 0 false)

/-- **A signal cuts the private list of a `waitq_wake_all`.** The waker is done, thread 0 is on no queue and
sleeps on. -/
theorem removal_loses_wakeup : (final step (.initial 3) removedInBetween).pc 0 = .idle ∧
      (final step (.initial 3) removedInBetween).state 0 = .blocked ∧
      (final step (.initial 3) removedInBetween).queues (.wait 0) = ⟨none, none⟩ ∧
      ¬WakesOK (final step (.initial 3) removedInBetween) := by
  refine ⟨by decide, by decide, by decide, ?_⟩
  intro h
  have hw := h.woken 0 (0, 1) (by decide)
  exact absurd hw (by decide)

end NeoOS.WaitQueue
