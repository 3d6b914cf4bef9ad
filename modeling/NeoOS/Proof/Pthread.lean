import NeoOS.Spec.Pthread

/-!
# Mutexes and condition variables

* `Mutex.Inv`: the word is 0 exactly while nobody owns the mutex, and while somebody sleeps the
  word is 2 or a thread is on its way to change it.
* `Cond.Inv`: while a signal is between its addition and its wake, the threads asleep are among
  those it is for, and no other can go to sleep.
-/

namespace NeoOS.Pthread

open Run (final)

open Function (update update_apply)

variable {n : ℕ} {t : Fin n} {ws : List (Fin n × ℕ)} {all : Bool}

/-! ## The mutex -/

namespace Mutex

variable {s : State n}

/-- The thread holds the mutex. -/
def Pc.owns : Pc → Bool
  | .holds | .store => true
  | _ => false

/-- The thread is part way through its unlock, or has been woken and not yet tested the word. -/
def Pc.attends : Pc → Bool
  | .store | .wake | .xchg true => true
  | _ => false

structure Inv (s : State n) : Prop where
  word : s.word = 0 ∨ s.word = 1 ∨ s.word = 2
  one : ∀ t u, (s.pc t).owns → (s.pc u).owns → t = u
  free : s.word = 0 → ∀ t, (s.pc t).owns = false
  asleep : ∀ t, s.pc t = .asleep → s.word = 2 ∨ ∃ u, (s.pc u).attends

theorem Inv.word_of_owns (h : Inv s) (ht : (s.pc t).owns) : s.word = 1 ∨ s.word = 2 := by
  refine h.word.resolve_left fun hw => ?_
  rw [h.free hw t] at ht
  cases ht

/-- **One thread moves on** and may change the word. A sleeper is left with the word 2, or attended to by this
thread or by the one that did so before. -/
theorem Inv.move (h : Inv s) (t : Fin n) (w : ℤ) (pc : Pc) (hw : w = 0 ∨ w = 1 ∨ w = 2)
    (hown : pc.owns → w ≠ 0 ∧ ((s.pc t).owns ∨ s.word = 0)) (hfree : w = 0 → s.word = 0 ∨ (s.pc t).owns)
    (hs : w = 2 ∨ pc.attends ∨ ((s.pc t).attends = false ∧ s.word ≠ 2 ∧ pc ≠ .asleep)) : Inv ⟨w, update s.pc t pc⟩ := by
  have hone := h.one
  have hf := h.free
  refine ⟨hw, ?_, ?_, ?_⟩
  · grind [update_apply]
  · grind [update_apply]
  · intro u hu
    rcases hs with hs | hs | ⟨ha, hne, hpc⟩
    · exact .inl hs
    · refine .inr ⟨t, ?_⟩
      simpa using hs
    · have hold : s.pc u = .asleep := by grind [update_apply]
      obtain ⟨v, hv⟩ := (h.asleep u hold).resolve_left hne
      exact .inr ⟨v, by grind [update_apply]⟩

theorem Inv.go (h : Inv s) (t u : Fin n) : Inv (go t u s) := by
  unfold Mutex.go
  split
  · rename_i hpc
    refine h.move t _ _ (by simp) ?_ (by simp) (.inl rfl)
    grind [Pc.owns]
  · -- futex_wait
    rename_i hpc
    refine h.move t s.word _ h.word ?_ (by grind) ?_
    · grind [Pc.owns]
    · grind [Pc.attends]
  · -- the store
    rename_i hpc
    exact h.move t _ _ (by simp) nofun (fun _ => .inr (by rw [hpc]; rfl)) (.inr (.inl rfl))
  · -- futex_wake: the thread woken attends to the others
    rename_i hpc
    split
    · rename_i hu
      have h' : Inv { s with pc := update s.pc u (.xchg true) } := h.move u s.word _ h.word nofun .inl (.inr (.inl rfl))
      refine ⟨h.word, ?_, ?_, fun v _ => .inr ⟨u, ?_⟩⟩
      · have := h'.one
        grind [update_apply, Pc.owns]
      · have := h'.free
        grind [update_apply, Pc.owns]
      · grind [update_apply, Pc.attends]
    split
    · rename_i hno
      have hone := h.one
      have hf := h.free
      refine ⟨h.word, ?_, ?_, fun v hv => absurd hv ?_⟩
      · grind [update_apply, Pc.owns]
      · grind [update_apply, Pc.owns]
      · grind [update_apply]
    · exact h
  · exact h

theorem Inv.step (h : Inv s) (e : Event n) : Inv (step s e) := by
  cases e with
  | trylock t =>
    simp only [Mutex.step]
    split
    · rename_i hx
      refine h.move t _ _ (by simp) (fun _ => ⟨one_ne_zero, .inr hx.2⟩) (by simp) ?_
      grind [Pc.attends]
    · exact h
  | lock t =>
    simp only [Mutex.step]
    split
    · rename_i hpc
      split
      · rename_i hw
        refine h.move t _ _ (by simp) (fun _ => ⟨one_ne_zero, .inr hw⟩) (by simp) ?_
        grind [Pc.attends]
      · refine h.move t s.word _ h.word ?_ .inl ?_
        · grind [Pc.owns]
        · grind [Pc.attends]
    · exact h
  | unlock t =>
    simp only [Mutex.step]
    split
    · rename_i hpc
      have hown : (s.pc t).owns := by rw [hpc]; rfl
      have hw := h.word_of_owns hown
      refine h.move t _ _ (by omega) ?_ (fun _ => .inr hown) ?_
      · grind [Pc.owns]
      · grind [Pc.attends]
    · exact h
  | go t u => exact h.go t u
  | interrupt t =>
    simp only [Mutex.step]
    split
    · exact h.move t s.word _ h.word nofun .inl (.inr (.inl rfl))
    · exact h

theorem Inv.initial : Inv (.initial n) := ⟨.inl rfl, nofun, fun _ _ => rfl, nofun⟩

/-- **Every run of the mutex**: at most one thread holds it, and nobody sleeps on a free mutex that no other
thread attends to. -/
theorem mutex_run (n : ℕ) (es : List (Event n)) :
    (∀ t u, ((final step (.initial n) es).pc t).owns = true → ((final step (.initial n) es).pc u).owns = true → t = u) ∧
      ∀ t, (final step (.initial n) es).word = 0 → (final step (.initial n) es).pc t = .asleep →
        ∃ u, u ≠ t ∧ ((final step (.initial n) es).pc u).attends = true := by
  have h : Inv (final step (.initial n) es) := by
    induction es using List.reverseRecOn with
    | nil => exact .initial
    | append_singleton es e ih =>
      rw [Run.final_append]
      exact ih.step e
  refine ⟨h.one, fun t hw ht => ?_⟩
  rcases h.asleep t ht with h2 | ⟨u, hu⟩
  · rw [hw] at h2
    cases h2
  · refine ⟨u, ?_, hu⟩
    rintro rfl
    rw [ht] at hu
    cases hu

end Mutex

/-! ## The condition variable -/

namespace Cond

variable {s : State n}

/-- The wait does not go to sleep any more. -/
def Settled (s : State n) (w : Fin n × ℕ) : Prop :=
  w.2 < s.waits w.1 ∨ w.2 = s.waits w.1 ∧ s.pc w.1 ≠ .seen s.seq ∧ s.pc w.1 ≠ .released s.seq

/-- The wait returns: it does not sleep and will not. -/
def Returns (s : State n) (w : Fin n × ℕ) : Prop :=
  Settled s w ∧ (w.2 = s.waits w.1 → s.pc w.1 ≠ .asleep)

/-- A signal makes one of the waits it was issued for return, a broadcast all of them. -/
def Call.Served (s : State n) (c : Call n) : Prop :=
  (c.ws ≠ [] → ∃ w ∈ c.ws, Returns s w) ∧ (c.all → ∀ w ∈ c.ws, Returns s w)

/-- The thread is between the two steps of a signal that somebody waits for. -/
def Pc.signals : Pc n → Bool
  | .wakes false (_ :: _) => true
  | _ => false

/-- No wait begins between the two steps of a signal, and `seq` does not come round to the value of a wait that
is not asleep yet. -/
def StepOK (s : State n) : Event n → Prop
  | .read _ => ∀ u, (s.pc u).signals = false
  | .add _ _ => ∀ u, s.pc u ≠ .seen s.next ∧ s.pc u ≠ .released s.next
  | _ => True

instance (s : State n) (e : Event n) : Decidable (StepOK s e) :=
  match e with
  | .read _ => inferInstanceAs (Decidable (∀ _, _))
  | .add _ _ => inferInstanceAs (Decidable (∀ _, _ ∧ _))
  | .release _ | .futexWait _ | .interrupt _ | .return _ | .futexWake _ _ => inferInstanceAs (Decidable True)

structure Inv (s : State n) : Prop where
  calls : ∀ c ∈ s.calls, c.Served s
  settled : ∀ t all ws, s.pc t = .wakes all ws → ∀ w ∈ ws, Settled s w
  single : ∀ t ws, s.pc t = .wakes false ws → ws ≠ [] →
    ∀ u, (s.pc u = .asleep → (u, s.waits u) ∈ ws) ∧ s.pc u ≠ .seen s.seq ∧ s.pc u ≠ .released s.seq

theorem mem_waiters {k : ℕ} : (t, k) ∈ s.waiters ↔ (s.pc t).waiting ∧ k = s.waits t := by
  unfold State.waiters
  grind

/-- **A wait that is settled stays so**, and so does one that returns. -/
theorem Settled.step {w : Fin n × ℕ} (h : Settled s w) {e : Event n} (hok : StepOK s e) :
    Settled (step s e) w ∧ (Returns s w → Returns (step s e) w) := by
  unfold Returns Settled at *
  cases e <;> simp only [Cond.step, State.goto, StepOK] at hok ⊢ <;> repeat' split
  all_goals first | exact ⟨h, id⟩ | grind [update_apply]

theorem Call.Served.step {c : Call n} (h : c.Served s) {e : Event n} (hok : StepOK s e) : c.Served (step s e) := by
  refine ⟨fun hne => ?_, fun hall w hw => ?_⟩
  · obtain ⟨w, hw, hr⟩ := h.1 hne
    exact ⟨w, hw, (hr.1.step hok).2 hr⟩
  · have hr := h.2 hall w hw
    exact (hr.1.step hok).2 hr

/-- **The wake of a call.** The thread that a signal picks is one of those it is for, since no other can be asleep. -/
theorem Inv.served (h : Inv s) (ht : s.pc t = .wakes all ws) (u : Fin n) :
    Call.Served (step s (.futexWake t u)) ⟨all, ws⟩ ∨ step s (.futexWake t u) = s := by
  have hset : ∀ w ∈ ws, Settled (step s (.futexWake t u)) w :=
    fun w hw => ((h.settled t all ws ht w hw).step (e := .futexWake t u) trivial).1
  have hsingle := h.single t ws
  have hmem : ws ≠ [] → ∃ w, w ∈ ws := List.exists_mem_of_ne_nil ws
  simp only [Cond.step, ht, State.goto] at hset ⊢
  split
  · rename_i hall
    simp only [hall, if_true] at hset
    left
    refine ⟨fun hne => ?_, fun _ w hw => ⟨hset w hw, ?_⟩⟩
    · obtain ⟨w, hw⟩ := hmem hne
      exact ⟨w, hw, hset w hw, by grind [update_apply]⟩
    · grind [update_apply]
  rename_i hall
  rw [Bool.not_eq_true] at hall
  subst hall
  split
  · rename_i hu
    simp only [hu, if_true] at hset
    refine .inl ⟨fun hne => ?_, nofun⟩
    have hw := (hsingle ht hne u).1 hu
    exact ⟨_, hw, hset _ hw, by grind [update_apply]⟩
  rename_i hu
  simp only [if_neg hu] at hset
  split
  · rename_i hno
    rw [if_pos hno] at hset
    refine .inl ⟨fun hne => ?_, nofun⟩
    obtain ⟨w, hw⟩ := hmem hne
    exact ⟨w, hw, hset w hw, by grind [update_apply]⟩
  · exact .inr rfl

/-- Where a call comes from that is under way, or that has returned. -/
theorem step_wakes {e : Event n} (h : (step s e).pc t = .wakes all ws) :
    s.pc t = .wakes all ws ∨ e = .add t all ∧ s.pc t = .out ∧ ws = s.waiters := by
  cases e <;> simp only [Cond.step, State.goto] at h <;> repeat' split at h
  all_goals grind [update_apply]

theorem mem_step_calls {c : Call n} {e : Event n} (h : c ∈ (step s e).calls) :
    c ∈ s.calls ∨ ∃ t u, e = .futexWake t u ∧ s.pc t = .wakes c.all c.ws := by
  cases e <;> simp only [Cond.step, State.goto] at h <;> repeat' split at h
  all_goals grind

theorem Inv.step (h : Inv s) {e : Event n} (hok : StepOK s e) : Inv (step s e) := by
  refine ⟨fun c hc => ?_, fun t all ws ht w hw => ?_, fun t ws ht hne u => ?_⟩
  · rcases mem_step_calls hc with hold | ⟨t, u, rfl, ht⟩
    · exact (h.calls c hold).step hok
    · rcases h.served ht u with hs | he
      · exact hs
      · rw [he] at hc ⊢
        exact h.calls c hc
  · rcases step_wakes ht with hold | ⟨rfl, hout, rfl⟩
    · exact ((h.settled t all ws hold w hw).step hok).1
    · have hx := mem_waiters.1 hw
      have hn := hok w.1
      simp only [Cond.step, if_pos hout, State.goto, Settled]
      grind [update_apply]
  · rcases step_wakes ht with hold | ⟨rfl, hout, rfl⟩
    · have hu := h.single t ws hold hne u
      have hsig : (s.pc t).signals := by
        obtain ⟨w, ws', rfl⟩ := List.exists_cons_of_ne_nil hne
        rw [hold]
        rfl
      cases e <;> simp only [Cond.step, State.goto, StepOK] at hok ⊢ <;> repeat' split
      all_goals first | exact hu | grind [update_apply]
    · have hn := hok u
      have hx := mem_waiters (s := s) (t := u) (k := s.waits u)
      simp only [Cond.step, if_pos hout, State.goto]
      grind [update_apply, Pc.waiting]

theorem Inv.initial : Inv (.initial n) := ⟨nofun, nofun, nofun⟩

/-- **Every run of the condition variable** in which no wait begins between the two steps of a signal, and `seq`
does not come round. -/
theorem cond_wakes (n : ℕ) (es : List (Event n)) (hok : Run.Valid step StepOK (.initial n) es) :
    ∀ c ∈ (final step (.initial n) es).calls, c.Served (final step (.initial n) es) :=
  (hok.invariant (fun _ _ h hok => h.step hok) Inv.initial).calls

/-- Two threads wait; a signal wakes one of them and a broadcast both. -/
def twoWait : List (Event 3) :=
  [.read 0, .release 0, .futexWait 0, .read 1, .release 1, .add 2 false, .futexWait 1, .futexWake 2 0, .add 2 true,
    .futexWake 2 0]

theorem cond_wakes_twoWait : Run.Valid step StepOK (.initial 3) twoWait ∧
    ∀ c ∈ (final step (.initial 3) twoWait).calls, c.Served (final step (.initial 3) twoWait) :=
  ⟨by decide, cond_wakes 3 twoWait (by decide)⟩

/-- Thread 1 begins to wait between the two steps of the signal for thread 0, and is woken in its place. -/
def stolenWake : List (Event 3) :=
  [.read 0, .release 0, .futexWait 0, .add 2 false, .read 1, .release 1, .futexWait 1, .futexWake 2 1]

theorem cond_loses_wake : (final step (.initial 3) stolenWake).pc 0 = .asleep ∧
      ¬ ∀ c ∈ (final step (.initial 3) stolenWake).calls, c.Served (final step (.initial 3) stolenWake) := by
  refine ⟨by decide, fun h => ?_⟩
  obtain ⟨w, hw, hr⟩ := (h ⟨false, [(0, 1)]⟩ (List.mem_singleton.2 rfl)).1 nofun
  rw [List.mem_singleton.1 hw] at hr
  exact hr.2 rfl (by decide)

end Cond

end NeoOS.Pthread
