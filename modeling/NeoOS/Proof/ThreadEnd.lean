import NeoOS.Lib.Trace
import NeoOS.Proof.ThreadGroup

/-!
# How threads come to their end

`Moved` says what a step may do to the threads that do not take it. A thread that is on its way out, or that runs
with SIGKILL pending, is nearer to its end after each step of its own, and no other step takes it back: in a fair run
it gets there.
-/

namespace NeoOS.ThreadGroup

open List
open Function (update update_of_ne update_self)

variable {n k : ℕ} {s s' : State n} {t u v : Fin n} {c : Choice n} {e : Event n} {a b pc : Pc n} {l : List (Event n)}

/-! ## The other threads -/

theorem Event.eq_go (h : e.owner = some t) : ∃ c, e = .go t c := by
  cases e with
  | go u c =>
    cases h
    exact ⟨c, rfl⟩
  | _ => cases h

/-- What a step may do to a thread that does not take it. -/
inductive Moved : Pc n → Pc n → Prop
  | roused {a b : Pc n} (h : Roused a b) : Moved a b
  | inserted : Moved .absent .fresh
  | started : Moved .fresh .user

theorem Moved.eq_of (h : Moved a b) (f : Pc n → Bool) (hw : f .woken = false) (hr : f .ret = false) (hf : f .fresh = false)
    (hu : f .user = false) (hb : f b) : b = a := by
  cases h with
  | roused h =>
    cases h with
    | same => rfl
    | woken => cases hw.symm.trans hb
    | continued => cases hr.symm.trans hb
  | inserted => cases hf.symm.trans hb
  | started => cases hu.symm.trans hb

theorem Moved.eq_of_runnable (h : Moved a b) (ha : a.runnable) : b = a := by
  cases h with
  | roused h => exact h.eq_of_runnable ha
  | inserted | started => cases ha

/-- A step of thread `t` for a thread that it does not write. -/
theorem moved_goto {x : Pc n} (hv : v ≠ t) (h : Moved (s.pc v) (s'.pc v)) : Moved (s.pc v) ((s'.goto t x).pc v) := by
  rw [goto_pc_of_ne hv]
  exact h

theorem moved_go (h : Core s) (hv : v ≠ t) : Moved (s.pc v) ((go t c s).pc v) := by
  have hact := act_go (s := s) (t := t) (c := c)
  generalize go t c s = s' at hact
  cases hact with
  | stay => exact .roused (.same _)
  | @insert w _ _ hw _ =>
    show Moved _ (update (update s.pc w .fresh) t (.built w) v)
    rw [update_of_ne hv]
    by_cases hvw : v = w
    · subst hvw
      rw [update_self, hw]
      exact .inserted
    · rw [update_of_ne hvw]
      exact .roused (.same _)
  | @start w ht =>
    refine moved_goto hv ?_
    show Moved _ (update s.pc w .user v)
    by_cases hvw : v = w
    · subst hvw
      rw [update_self, h.built t v ht]
      exact .started
    · rw [update_of_ne hvw]
      exact .roused (.same _)
  | stopAll => exact moved_goto hv (.roused (roused_stopOthers t v))
  | @exitKill _ _ _ w | @send w => exact moved_goto hv (.roused (roused_wake s.pc w v))
  | _ => exact moved_goto hv (.roused (.same _))

/-- **A step of another thread**, or of none, only wakes a thread, creates it or puts it on a run queue. -/
theorem moved_step (h : Core s) (hne : e.owner ≠ some v) : Moved (s.pc v) ((step s e).pc v) := by
  cases e with
  | idle => exact .roused (.same _)
  | go t c =>
    refine moved_go h ?_
    rintro rfl
    exact hne rfl
  | wake t => exact .roused (roused_wake s.pc t v)
  | kill | stop => exact .roused (roused_wakeTarget v)
  | cont => exact .roused (roused_doContinue v)

/-- A pending SIGKILL goes away only when its thread takes it. -/
theorem kill_go (hk : s.kill v) : (go t c s).kill v ∨ v = t ∧ s.pc v = .take .kill := by
  have hsend : ∀ (w : Fin n) (x : Pc n), ((s.sendKill w).goto t x).kill v := by
    intro w x
    show update s.kill w true v
    by_cases hvw : v = w
    · subst hvw
      exact update_self _ _ _
    · rw [update_of_ne hvw]
      exact hk
  have hact := act_go (s := s) (t := t) (c := c)
  generalize go t c s = s' at hact ⊢
  cases hact with
  | takeKill ht =>
    by_cases hvt : v = t
    · exact .inr ⟨hvt, hvt ▸ ht⟩
    · exact .inl ((update_of_ne hvt _ _).trans hk)
  | exitKill | send => exact .inl (hsend _ _)
  | _ => exact .inl hk

theorem kill_step (hk : s.kill v) : (step s e).kill v ∨ e.owner = some v ∧ s.pc v = .take .kill := by
  cases e with
  | go t c =>
    rcases kill_go (t := t) (c := c) hk with h | ⟨rfl, h⟩
    · exact .inl h
    · exact .inr ⟨rfl, h⟩
  | _ => exact .inl hk

/-! ## What a step leaves alone -/

/-- What the step of a thread does to the fields that belong to the process. -/
structure GoFrame (s : State n) (t : Fin n) (c : Choice n) (s' : State n) : Prop where
  exiting : s'.exiting = (s.exiting || decide (s.pc t = .exitSet))
  procKill : s'.procKill = s.procKill ∨ s.pc t = .take .kill ∧ s'.procKill = false
  soloKill : (s.pc t).inExec = false → s'.soloKill = s.soloKill
  threads : s'.threads = s.threads ∨ s.pc t = .unlink ∧ s'.threads = s.threads.erase t ∨
    ∃ v, s.pc t = .checked ∧ c = .child v ∧ s'.threads = v :: s.threads

theorem goFrame_of_same (hne : decide (s.pc t = .exitSet) = false) (h1 : s'.exiting = s.exiting)
    (h2 : s'.procKill = s.procKill)
    (h3 : s'.soloKill = s.soloKill) (h4 : s'.threads = s.threads) : GoFrame s t c s' := by
  refine ⟨?_, .inl h2, fun _ => h3, .inl h4⟩
  rw [h1, hne, Bool.or_false]

theorem goFrame_go : GoFrame s t c (go t c s) := by
  have hexiting : decide (s.pc t = .exitSet) = false → s.exiting = (s.exiting || decide (s.pc t = .exitSet)) := by
    intro hne
    rw [hne, Bool.or_false]
  have hact := act_go (s := s) (t := t) (c := c)
  generalize go t c s = s' at hact ⊢
  cases hact with
  | stay hx =>
    refine goFrame_of_same (decide_eq_false fun hset => ?_) rfl rfl rfl rfl
    rw [hset] at hx
    rcases hx with hx | hx <;> cases hx
  | goto _ _ _ hne => exact goFrame_of_same hne rfl rfl rfl rfl
  | insert ht hc => exact ⟨hexiting (by rw [ht]; rfl), .inl rfl, fun _ => rfl, .inr (.inr ⟨_, ht, hc, rfl⟩)⟩
  | takeProcKill ht => exact ⟨hexiting (by rw [ht]; rfl), .inr ⟨ht, rfl⟩, fun _ => rfl, .inl rfl⟩
  | exitSet ht =>
    refine ⟨?_, .inl rfl, fun _ => rfl, .inl rfl⟩
    show true = _
    rw [decide_eq_true ht, Bool.or_true]
  | unlink ht => exact ⟨hexiting (by rw [ht]; rfl), .inl rfl, fun _ => rfl, .inr (.inl ⟨ht, rfl⟩)⟩
  | solo ht => exact ⟨hexiting (by rw [ht]; rfl), .inl rfl, by rw [ht]; exact Bool.noConfusion, .inl rfl⟩
  | noStack ht | start ht | commit ht | takeKill ht | takeStop ht | stopAll ht | stops ht | exitKill ht | putLive ht
  | send ht =>
    exact goFrame_of_same (by rw [ht]; rfl) rfl rfl rfl rfl

theorem mem_step (hm : v ∈ (step s e).threads) : v ∈ s.threads ∨ ∃ t, e = .go t (.child v) ∧ s.pc t = .checked := by
  cases e with
  | go t c =>
    have hm' : v ∈ (go t c s).threads := hm
    rcases (goFrame_go (s := s) (t := t) (c := c)).threads with hth | ⟨-, hth⟩ | ⟨w, hpc, rfl, hth⟩
    · rw [hth] at hm'
      exact .inl hm'
    · rw [hth] at hm'
      exact .inl (mem_of_mem_erase hm')
    · rw [hth] at hm'
      rcases mem_cons.1 hm' with rfl | hm'
      · exact .inr ⟨t, rfl, hpc⟩
      · exact .inl hm'
  | _ => exact .inl hm

/-! ## The way to the end -/

/-- The thread is on its way out. -/
def Pc.dying : Pc n → Bool
  | .take .kill | .deliverKill | .exit | .exitSet | .exitAlloc | .exitSnap .. | .exitKill .. | .zombie | .unlink
  | .putLive | .leave
  | .gone => true
  | _ => false

/-- The thread runs, and is on its way neither out nor into a new image. -/
def Pc.working : Pc n → Bool
  | .user | .create | .checked | .built _ | .sleep | .commit | .woken | .ret | .take .stop | .stopAll
  | .stopCount | .stopCommit => true
  | _ => false

/-- A bound on the steps of the loop of `process_exit`. -/
def exitSteps : ℕ := 64 * (maxThreads + 3)

/-- A bound on the steps of its own that a thread takes to its end, once it takes SIGKILL at the next look. -/
def Pc.rank : Pc n → ℕ
  | .leave => 1
  | .putLive => 2
  | .unlink => 3
  | .zombie => 4
  | .exitKill cap left _ rest => 6 + left * (cap + 3) + rest.length
  | .exitSnap cap left => 5 + (left + 1) * (cap + 3)
  | .exitAlloc => exitSteps + 6
  | .exitSet => exitSteps + 7
  | .exit => exitSteps + 8
  | .deliverKill => exitSteps + 9
  | .take .kill => exitSteps + 10
  | .ret => exitSteps + 11
  | .built _ | .sleep | .stopCommit => exitSteps + 12
  | .checked | .woken | .stopCount => exitSteps + 13
  | .create | .stopAll => exitSteps + 14
  | .take .stop => exitSteps + 15
  | .user => exitSteps + 16
  | _ => 0

theorem Pc.runnable_of_working (h : pc.working) : pc.runnable := by
  cases pc <;> first | rfl | cases h

theorem Pc.runnable_of_dying (h : pc.dying) (hne : pc ≠ .gone) : pc.runnable := by
  cases pc <;> first | rfl | exact absurd rfl hne | cases h

theorem others_length (s : State n) (t : Fin n) (cap : ℕ) : (s.others t cap).length ≤ cap := length_take_le _ _

theorem Edge.dying (h : Edge s t c a b) (ha : a.dying) (hne : a ≠ .gone) : b.dying ∧ b.rank < a.rank := by
  cases h with
  | stay h =>
    rw [Pc.runnable_of_dying ha hne] at h
    cases h
  | room hcap =>
    refine ⟨rfl, ?_⟩
    have hmax : 16 ≤ maxThreads := by decide
    simp only [Pc.rank, exitSteps]
    rcases hcap with rfl | rfl <;> omega
  | @round cap left nv rest ho =>
    have hlen := others_length s t cap
    rw [ho] at hlen
    refine ⟨rfl, ?_⟩
    simp only [Pc.rank]
    rw [Nat.succ_mul]
    omega
  | @nextRound cap left nv h0 =>
    refine ⟨rfl, ?_⟩
    simp only [Pc.rank, Nat.sub_add_cancel (Nat.one_le_iff_ne_zero.2 h0), length_nil]
    omega
  | takeKill | solo | terminate | joins | first | sets | alone | kills | finished | marks | unlinks | puts | leaves =>
    refine ⟨rfl, ?_⟩
    simp only [Pc.rank, length_cons]
    omega
  | _ => cases ha

/-- The thread runs and has not marked itself a zombie, nor does it kill the others. -/
def Pc.alert : Pc n → Bool
  | .take .kill | .deliverKill | .exit | .exitSet | .zombie => true
  | pc => pc.working

/-- A thread that takes SIGKILL at its next look is nearer to that look after each step. -/
theorem Edge.working (h : Edge s t c a b) (ha : a.working) (hret : a = .ret → s.next t = some .kill)
    (hsleep : a = .sleep → s.next t ≠ none ∧ c ≠ .sleep) (hcommit : a ≠ .commit)
    (hstop : a = .stopCommit → s.stopping t = false)
    (hexec : a = .user → c ≠ .exec) : b.alert ∧ b.rank < a.rank := by
  cases h with
  | stay h =>
    rw [Pc.runnable_of_working ha] at h
    cases h
  | start =>
    cases c with
    | exec => exact (hexec rfl rfl).elim
    | _ => exact ⟨rfl, by simp only [Choice.start, Pc.rank]; omega⟩
  | quiet h => exact absurd h (hsleep rfl).1
  | ignored h => exact absurd h (hsleep rfl).2
  | asleep => exact absurd rfl hcommit
  | found h =>
    cases h.symm.trans (hret rfl)
    exact ⟨rfl, by simp only [Pc.rank]; omega⟩
  | nothing h => cases h.symm.trans (hret rfl)
  | stops h => cases h.symm.trans (hstop rfl)
  | _ => first | exact ⟨rfl, by simp only [Pc.rank]; omega⟩ | cases ha

theorem Pc.working_or_dying (h : pc.alert) : pc.working ∨ pc.dying := by
  cases pc with
  | take sig => cases sig <;> simp [Pc.working, Pc.dying]
  | _ => first | exact .inl h | exact .inr rfl

theorem Pc.cases_of_listed (h : pc.listed) : pc = .fresh ∨ pc.working ∨ pc.dying ∨ pc = .blocked ∨ pc = .stopped ∨
    pc.inExec := by
  cases pc with
  | take sig => cases sig <;> simp [Pc.working, Pc.dying]
  | absent | putLive | leave | gone => cases h
  | _ => simp [Pc.working, Pc.dying, Pc.inExec]

theorem Pc.dying_of_isZombie (h : pc.isZombie) : pc.dying := by
  cases pc <;> first | rfl | cases h

theorem dying_step (h : Core s) (hd : (s.pc v).dying) : ((step s e).pc v).dying := by
  by_cases hg : s.pc v = .gone
  · -- nothing happens to it any more
    have hsame : (step s e).pc v = .gone := by
      by_cases ho : e.owner = some v
      · obtain ⟨c, rfl⟩ := Event.eq_go ho
        simp only [step, go, hg]
      · have hm := moved_step h ho
        rw [hg] at hm
        generalize (step s e).pc v = b at hm
        cases hm with
        | roused hr =>
          cases hr
          rfl
    rw [hsame]
    rfl
  · by_cases ho : e.owner = some v
    · obtain ⟨c, rfl⟩ := Event.eq_go ho
      exact (edge_go.dying hd hg).1
    · rw [(moved_step h ho).eq_of_runnable (Pc.runnable_of_dying hd hg)]
      exact hd

theorem killed_step (h : Core s) (hd : s.kill v ∨ (s.pc v).dying) : (step s e).kill v ∨ ((step s e).pc v).dying := by
  rcases hd with hk | hd
  · rcases kill_step (e := e) hk with hk' | ⟨-, hpc⟩
    · exact .inl hk'
    · refine .inr (dying_step h ?_)
      rw [hpc]
      rfl
  · exact .inr (dying_step h hd)

theorem Pc.dying_or_absent (h : pc.listed = false) : pc.dying ∨ pc = .absent := by
  cases pc with
  | absent => exact .inr rfl
  | _ => first | exact .inl rfl | cases h

theorem mem_others (h : Core s) {cap : ℕ} (hlen : (s.threads.filter (· ≠ t)).length ≤ cap) (hl : (s.pc v).listed)
    (hvt : v ≠ t) :
    v ∈ s.others t cap := by
  unfold State.others
  rw [take_of_length_le hlen, mem_filter]
  exact ⟨(h.mem v).2 hl, decide_eq_true hvt⟩

/-- A thread that has left, or was never there, in a step in which it does not join the list. -/
theorem away_step (h : Core s) (hok : CoreOK s e) (hmem : v ∈ (step s e).threads → v ∈ s.threads)
    (hv : s.pc v = .gone ∨ s.pc v = .absent) : (step s e).pc v = .gone ∨ (step s e).pc v = .absent := by
  have hnl : (s.pc v).listed = false := by rcases hv with hv | hv <;> rw [hv] <;> rfl
  by_cases ho : e.owner = some v
  · obtain ⟨c, rfl⟩ := Event.eq_go ho
    rcases hv with hv | hv
    · left
      simp only [step, go, hv]
    · right
      simp only [step, go, hv]
  · have hm := moved_step h ho
    have hl : ((step s e).pc v).listed = false := by
      cases hx : ((step s e).pc v).listed with
      | false => rfl
      | true =>
        rw [(h.mem v).1 (hmem (((h.step hok).mem v).2 hx))] at hnl
        cases hnl
    generalize (step s e).pc v = b at hm hl
    rcases hv with hv | hv <;> rw [hv] at hm
    · cases hm with
      | roused hr =>
        cases hr
        exact .inl rfl
    · cases hm with
      | roused hr =>
        cases hr
        exact .inr rfl
      | inserted => cases hl

theorem initial_pc (main t : Fin n) : (State.initial main).pc t = .user ∨ (State.initial main).pc t = .absent := by
  by_cases ht : t = main
  · subst ht
    simp [State.initial]
  · simp [State.initial, ht]

theorem initial_false (main : Fin n) {f : Pc n → Bool} (hu : f .user = false) (ha : f .absent = false) (t : Fin n) :
    f ((State.initial main).pc t) = false := by
  rcases initial_pc main t with hq | hq
  · rw [hq, hu]
  · rw [hq, ha]

/-! ## Fair runs -/

section Fair

variable {ok : State n → Event n → Prop} {s₀ : State n} {es : ℕ → Event n}

/-- Each thread that may run does so again and again. -/
def Scheduled (s₀ : State n) (es : ℕ → Event n) : Prop :=
  Trace.Fair step (fun s t => (s.pc t).runnable = true) Event.owner s₀ es

/-- The state after the first steps of a run. -/
abbrev after (s₀ : State n) (es : ℕ → Event n) : ℕ → State n := Trace.state step s₀ es

/-- A run that comes to rest with nobody to run is fair. -/
theorem scheduled_script (hrest : ∀ t, ((Run.final step s₀ l).pc t).runnable = false) :
    Scheduled s₀ (Trace.script l fun _ => .idle) := by
  refine Trace.fair_script (fun _ => rfl) ?_
  intro t ht
  rw [hrest t] at ht
  cases ht

theorem valid_script (hidle : ∀ s, ok s .idle) (hv : Run.Valid step ok s₀ l) :
    Trace.Valid step ok s₀ (Trace.script l fun _ => .idle) := Trace.valid_script (fun _ => rfl) hv fun _ => hidle _

variable (hcore : ∀ s e, ok s e → CoreOK s e) (hv : Trace.Valid step ok s₀ es) (hf : Scheduled s₀ es) (h₀ : Core s₀)
include hcore hv h₀

theorem core_state (k : ℕ) : Core (after s₀ es k) := hv.invariant (fun _ _ h hok => h.step (hcore _ _ hok)) h₀ k

include hf

/-- **A thread that is on its way out comes to its end.** -/
theorem dying_gone (hk : ((after s₀ es k).pc t).dying) : ∃ j ≥ k, (after s₀ es j).pc t = .gone := by
  refine Trace.progress (P := fun s => Core s ∧ (s.pc t).dying = true) (Q := fun s => s.pc t = .gone)
    (fun s => (s.pc t).rank) t hv hf ?_ ?_ ?_
    ⟨core_state hcore hv h₀ k, hk⟩
  · exact fun s hs hne => Pc.runnable_of_dying hs.2 hne
  · rintro s e ⟨hc, hd⟩ hne hok ho
    have hsame := (moved_step hc ho).eq_of_runnable (Pc.runnable_of_dying hd hne)
    refine .inr ⟨⟨hc.step (hcore _ _ hok), ?_⟩, ?_⟩
    · rw [hsame]
      exact hd
    · rw [hsame]
  · rintro s e ⟨hc, hd⟩ hne hok ho
    obtain ⟨c, rfl⟩ := Event.eq_go ho
    obtain ⟨h1, h2⟩ := (edge_go (c := c)).dying hd hne
    exact .inr ⟨⟨hc.step (hcore _ _ hok), h1⟩, h2⟩

theorem fresh_started (hk : (after s₀ es k).pc t = .fresh) (hkill : (after s₀ es k).kill t) :
    ∃ j ≥ k, (after s₀ es j).kill t ∧ (after s₀ es j).pc t = .user := by
  obtain ⟨u, hu⟩ := (core_state hcore hv h₀ k).fresh t hk
  have hkeep : ∀ (s : State n) (e : Event n), s.kill t → s.pc t = .fresh → (step s e).kill t := by
    intro s e hkl hfr
    rcases kill_step (e := e) hkl with h | ⟨-, h⟩
    · exact h
    · rw [hfr] at h
      cases h
  refine Trace.progress (P := fun s => Core s ∧ s.kill t = true ∧ s.pc t = .fresh ∧ s.pc u = .built t)
    (Q := fun s => s.kill t = true ∧ s.pc t = .user) (fun _ => 0) u hv hf ?_ ?_ ?_ ⟨core_state hcore hv h₀ k, hkill, hk, hu⟩
  · rintro s ⟨-, -, -, hb⟩ -
    rw [hb]
    rfl
  · -- the other steps leave both where they are
    rintro s e ⟨hc, hkl, hfr, hb⟩ - hok ho
    have hub : (s.pc u).runnable := by
      rw [hb]
      rfl
    have hc' := hc.step (hcore _ _ hok)
    have hu' : (step s e).pc u = .built t := ((moved_step hc ho).eq_of_runnable hub).trans hb
    exact .inr ⟨⟨hc', hkeep s e hkl hfr, hc'.built u t hu', hu'⟩, le_refl _⟩
  · rintro s e ⟨hc, hkl, hfr, hb⟩ - hok ho
    left
    obtain ⟨c, rfl⟩ := Event.eq_go ho
    have hcf : c ≠ .fail := by
      have hx := hcore _ _ hok
      simp only [CoreOK, State.coreOK, hb] at hx
      exact of_decide_eq_true hx
    have htu : t ≠ u := by
      rintro rfl
      rw [hfr] at hb
      cases hb
    refine ⟨hkeep s _ hkl hfr, ?_⟩
    simp only [step, go, hb, if_neg hcf]
    rw [goto_pc_of_ne htu]
    exact update_self _ _ _

section Killed

variable (hexec : ∀ s c, ok s (.go t c) → s.pc t = .user → s.kill t = true → c ≠ .exec)
include hexec

/-- A thread that runs with SIGKILL pending takes it, unless it calls `exec`. -/
theorem killed_dying (hkill : (after s₀ es k).kill t) (hw : ((after s₀ es k).pc t).working) :
    ∃ j ≥ k, ((after s₀ es j).pc t).dying := by
  refine Trace.progress (P := fun s => Core s ∧ s.kill t = true ∧ (s.pc t).working = true)
    (Q := fun s => (s.pc t).dying = true)
    (fun s => (s.pc t).rank) t hv hf ?_ ?_ ?_ ⟨core_state hcore hv h₀ k, hkill, hw⟩
  · exact fun s hs _ => Pc.runnable_of_working hs.2.2
  · rintro s e ⟨hc, hkl, hwk⟩ - hok ho
    right
    have hsame := (moved_step hc ho).eq_of_runnable (Pc.runnable_of_working hwk)
    refine ⟨⟨hc.step (hcore _ _ hok), ?_, ?_⟩, ?_⟩
    · rcases kill_step (e := e) hkl with h | ⟨h, -⟩
      · exact h
      · exact absurd h ho
    · rw [hsame]
      exact hwk
    · rw [hsame]
  · rintro s e ⟨hc, hkl, hwk⟩ - hok ho
    obtain ⟨c, rfl⟩ := Event.eq_go ho
    have hcok : s.coreOK t c := hcore _ _ hok
    have hnext : s.next t = some .kill := if_pos hkl
    have hstep : ((go t c s).pc t).alert ∧ ((go t c s).pc t).rank < (s.pc t).rank := by
      refine edge_go.working hwk (fun _ => hnext) (fun hpc => ⟨?_, ?_⟩) ?_ ?_ (fun hpc => hexec s c hok hpc hkl)
      · rw [hnext]
        nofun
      · simp only [State.coreOK, hpc, hkl] at hcok
        exact of_decide_eq_true hcok
      · intro hpc
        simp only [State.coreOK, hpc, hkl] at hcok
        cases hcok
      · intro hpc
        simp only [State.coreOK, hpc, hkl] at hcok
        simpa using hcok
    rcases Pc.working_or_dying hstep.1 with hw' | hd'
    · refine .inr ⟨⟨hc.step (hcore _ _ hok), ?_, hw'⟩, hstep.2⟩
      rcases kill_step (e := .go t c) hkl with h | ⟨-, h⟩
      · exact h
      · rw [h] at hwk
        cases hwk
    · exact .inl hd'

/-- **A thread of the process that has SIGKILL pending comes to its end.** -/
theorem killed_gone (hkill : (after s₀ es k).kill t) (hl : ((after s₀ es k).pc t).listed)
    (hx : ((after s₀ es k).pc t).inExec = false) : ∃ j ≥ k, (after s₀ es j).pc t = .gone := by
  have hworking : ∀ {i}, (after s₀ es i).kill t = true → ((after s₀ es i).pc t).working = true →
      ∃ j ≥ i, (after s₀ es j).pc t = .gone := by
    intro i h1 h2
    obtain ⟨j, hj, hd⟩ := killed_dying hcore hv hf h₀ hexec h1 h2
    obtain ⟨j', hj', hg⟩ := dying_gone hcore hv hf h₀ hd
    exact ⟨j', hj.trans hj', hg⟩
  obtain ⟨hb, hs⟩ := (core_state hcore hv h₀ k).awake t hkill
  rcases Pc.cases_of_listed hl with h | h | h | h | h | h
  · obtain ⟨i, hi, h1, h2⟩ := fresh_started hcore hv hf h₀ h hkill
    obtain ⟨j, hj, hg⟩ := hworking h1 (by rw [h2]; rfl)
    exact ⟨j, hi.trans hj, hg⟩
  · exact hworking hkill h
  · exact dying_gone hcore hv hf h₀ h
  · exact absurd h hb
  · exact absurd h hs
  · rw [hx] at h
    cases h

/-- A thread that has SIGKILL pending or is on its way out leaves. -/
theorem leaves (hk : ((after s₀ es k).pc t).listed →
      ((after s₀ es k).kill t ∧ ((after s₀ es k).pc t).inExec = false) ∨ ((after s₀ es k).pc t).dying) :
    ∃ j ≥ k, (after s₀ es j).pc t = .gone ∨ (after s₀ es j).pc t = .absent := by
  have hgone : (∃ j ≥ k, (after s₀ es j).pc t = .gone) → ∃ j ≥ k, (after s₀ es j).pc t = .gone ∨
    (after s₀ es j).pc t = .absent :=
    fun ⟨j, hj, hg⟩ => ⟨j, hj, .inl hg⟩
  cases hl : ((after s₀ es k).pc t).listed with
  | false =>
    rcases Pc.dying_or_absent hl with hd | hab
    · exact hgone (dying_gone hcore hv hf h₀ hd)
    · exact ⟨k, le_refl k, .inr hab⟩
  | true =>
    rcases hk hl with ⟨hkill, hx⟩ | hd
    · exact hgone (killed_gone hcore hv hf h₀ hexec hkill hl hx)
    · exact hgone (dying_gone hcore hv hf h₀ hd)

end Killed

end Fair

end NeoOS.ThreadGroup
