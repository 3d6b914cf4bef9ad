import Mathlib.Data.Fintype.Card
import NeoOS.Lib.Update
import NeoOS.Spec.ThreadGroup

/-!
# What holds of the threads of a process

`Core` is kept by every step that meets `CoreOK`: the list and the count have the threads they should, a thread
that is not yet on a run queue has a creator that will put it there, and no thread with SIGKILL pending sleeps.
`Edge` says where a step takes its own thread.
-/

namespace NeoOS.ThreadGroup

open Function (update update_apply update_of_ne update_self)

variable {n : ℕ} {s s' : State n} {t u v : Fin n} {c : Choice n} {e : Event n} {pc x : Pc n}

/-! ## The thread that takes the step -/

@[simp] theorem goto_pc_self (pc : Pc n) : (s.goto t pc).pc t = pc := update_self _ _ _

theorem goto_pc_of_ne (h : v ≠ t) : (s.goto t pc).pc v = s.pc v := update_of_ne h _ _

/-- The ways from one place to the next, each with what the state has to say about it. -/
inductive Edge (s : State n) (t : Fin n) (c : Choice n) : Pc n → Pc n → Prop
  | stay {pc : Pc n} (h : pc.runnable = false) : Edge s t c pc pc
  | start : Edge s t c .user c.start
  | refused (h : s.exiting) : Edge s t c .create .ret
  | admitted (h : s.exiting = false) : Edge s t c .create .checked
  | failed : Edge s t c .checked .ret
  | inserted {v : Fin n} (h : c = .child v) : Edge s t c .checked (.built v)
  | created {v : Fin n} : Edge s t c (.built v) .ret
  | interrupted (h : s.next t ≠ none) : Edge s t c .sleep .ret
  | ignored (h : c = .sleep) : Edge s t c .sleep .sleep
  | quiet (h : s.next t = none) : Edge s t c .sleep .commit
  | asleep : Edge s t c .commit .blocked
  | again : Edge s t c .woken .sleep
  | awake : Edge s t c .woken .ret
  | found {sig : Sig} (h : s.next t = some sig) : Edge s t c .ret (.take sig)
  | nothing (h : s.next t = none) : Edge s t c .ret .user
  | takeKill : Edge s t c (.take .kill) .deliverKill
  | takeStop : Edge s t c (.take .stop) .stopAll
  | solo (h : s.soloKill t) : Edge s t c .deliverKill .zombie
  | terminate (h : s.soloKill t = false) : Edge s t c .deliverKill .exit
  | passedOn : Edge s t c .stopAll .stopCount
  | goesOn (h : s.stopping t) : Edge s t c .stopCount .stopCommit
  | overtaken : Edge s t c .stopCount .ret
  | stops (h : s.stopping t) : Edge s t c .stopCommit .stopped
  | cancelled : Edge s t c .stopCommit .ret
  | joins (h : s.exiting) : Edge s t c .exit .zombie
  | first (h : s.exiting = false) : Edge s t c .exit .exitSet
  | sets : Edge s t c .exitSet .exitAlloc
  | room {cap : ℕ} (h : cap = 16 ∨ cap = maxThreads) : Edge s t c .exitAlloc (.exitSnap cap 63)
  | alone {cap left : ℕ} (h : s.others t cap = []) : Edge s t c (.exitSnap cap left) .zombie
  | round {cap left nv : ℕ} {rest : List (Fin n)} (h : s.others t cap = rest) : Edge s t c (.exitSnap cap left)
    (.exitKill cap left nv rest)
  | kills {cap left nv : ℕ} {v : Fin n} {vs : List (Fin n)} : Edge s t c (.exitKill cap left nv (v :: vs))
    (.exitKill cap left nv vs)
  | finished {cap left nv : ℕ} : Edge s t c (.exitKill cap left nv []) .zombie
  | nextRound {cap left nv : ℕ} (h : left ≠ 0) : Edge s t c (.exitKill cap left nv []) (.exitSnap cap (left - 1))
  | marks : Edge s t c .zombie .unlink
  | unlinks : Edge s t c .unlink .putLive
  | puts : Edge s t c .putLive .leave
  | leaves : Edge s t c .leave .gone
  | noRoom (h : c = .fail) : Edge s t c .reduce .execSwitch
  | reduces : Edge s t c .reduce .execSnap
  | single (h : s.others t maxThreads = []) : Edge s t c .execSnap .execSwitch
  | several {rest : List (Fin n)} (h : s.others t maxThreads = rest) : Edge s t c .execSnap (.execSolo rest)
  | skips {v : Fin n} {vs : List (Fin n)} (h : (s.pc v).isZombie) : Edge s t c (.execSolo (v :: vs)) (.execSolo vs)
  | marksSolo {v : Fin n} {vs : List (Fin n)} : Edge s t c (.execSolo (v :: vs)) (.execSend v vs)
  | sends {v : Fin n} {vs : List (Fin n)} : Edge s t c (.execSend v vs) (.execSolo vs)
  | waits : Edge s t c (.execSolo []) .execWait
  | waitsOn : Edge s t c .execWait .execWait
  | ends (h : s.live ≤ 1) : Edge s t c .execWait .execSwitch
  | switches : Edge s t c .execSwitch .execFree
  | frees : Edge s t c .execFree .ret

/-- The thread is neither on its way into the list nor has it a child that is. -/
def Pc.plain : Pc n → Bool
  | .fresh | .built _ => false
  | _ => true

/-- The list and the count do not tell the two places apart. -/
def Pc.alike (a b : Pc n) : Bool := a.plain && b.plain && b.listed == a.listed && b.counted == a.counted

/-- The thread waits for somebody to make it run again. -/
def Pc.parked : Pc n → Bool
  | .blocked | .stopped => true
  | _ => false

/-- What the step of a thread does to the state. In most places the thread only goes on to the next. -/
inductive Act (s : State n) (t : Fin n) (c : Choice n) : State n → Prop
  | stay (h : (s.pc t).runnable = false ∨ s.pc t = .execWait) : Act s t c s
  | goto {x : Pc n} (h : Edge s t c (s.pc t) x) (hx : (s.pc t).alike x) (hp : x.parked = false)
      (hne : decide (s.pc t = .exitSet) = false) : Act s t c (s.goto t x)
  | insert {v : Fin n} (ht : s.pc t = .checked) (hc : c = .child v) (hv : s.pc v = .absent)
    (hlen : s.threads.length < maxThreads) :
      Act s t c (s.insert t v)
  | noStack {v : Fin n} (ht : s.pc t = .built v) (hc : c = .fail) : Act s t c (s.goto t .ret)
  | start {v : Fin n} (ht : s.pc t = .built v) : Act s t c ({ s with pc := update s.pc v .user }.goto t .ret)
  | commit (ht : s.pc t = .commit) : Act s t c (s.goto t .blocked)
  | takeKill (ht : s.pc t = .take .kill) : Act s t c ({ s with kill := update s.kill t false }.goto t .deliverKill)
  | takeProcKill (ht : s.pc t = .take .kill) : Act s t c ({ s with procKill := false }.goto t .deliverKill)
  | takeStop {stopping stop : Fin n → Bool} {procStop : Bool} (ht : s.pc t = .take .stop) :
      Act s t c ({ s with stopping := stopping, stop := stop, procStop := procStop }.goto t .stopAll)
  | stopAll (ht : s.pc t = .stopAll) : Act s t c ((s.stopOthers t).goto t .stopCount)
  | stops (ht : s.pc t = .stopCommit) (hst : s.stopping t) :
      Act s t c ({ s with stopping := update s.stopping t false }.goto t .stopped)
  | exitSet (ht : s.pc t = .exitSet) : Act s t c ({ s with exiting := true }.goto t .exitAlloc)
  | exitKill {cap left nv : ℕ} {v : Fin n} {vs : List (Fin n)} (ht : s.pc t = .exitKill cap left nv (v :: vs)) :
      Act s t c ((s.sendKill v).goto t (.exitKill cap left nv vs))
  | unlink (ht : s.pc t = .unlink) : Act s t c ({ s with threads := s.threads.erase t }.goto t .putLive)
  | putLive (ht : s.pc t = .putLive) : Act s t c (s.putLive t)
  | solo {v : Fin n} {vs : List (Fin n)} (ht : s.pc t = .execSolo (v :: vs)) :
      Act s t c ({ s with soloKill := update s.soloKill v true }.goto t (.execSend v vs))
  | send {v : Fin n} {vs : List (Fin n)} (ht : s.pc t = .execSend v vs) : Act s t c ((s.sendKill v).goto t (.execSolo vs))

theorem act_go : Act s t c (go t c s) := by
  have hgoto : ∀ {x : Pc n}, Edge s t c (s.pc t) x → (s.pc t).alike x = true → x.parked = false →
      decide (s.pc t = .exitSet) = false → Act s t c (s.goto t x) := .goto
  unfold go
  cases hpc : s.pc t with
  | user =>
    rw [hpc] at hgoto
    cases c <;> exact hgoto .start rfl rfl rfl
  | checked =>
    rw [hpc] at hgoto
    cases c with
    | child v =>
      simp only
      split
      · rename_i hv
        exact .insert hpc rfl hv.1 hv.2
      · exact hgoto .failed rfl rfl rfl
    | _ => exact hgoto .failed rfl rfl rfl
  | built v =>
    simp only
    split
    · exact .noStack hpc ‹_›
    · exact .start hpc
  | sleep =>
    rw [hpc] at hgoto
    cases hn : s.next t with
    | some sig =>
      simp only
      split
      · exact hgoto (.ignored ‹_›) rfl rfl rfl
      · exact hgoto (.interrupted (by rw [hn]; nofun)) rfl rfl rfl
    | none => exact hgoto (.quiet hn) rfl rfl rfl
  | ret =>
    rw [hpc] at hgoto
    cases hn : s.next t with
    | some sig => exact hgoto (.found hn) rfl rfl rfl
    | none => exact hgoto (.nothing hn) rfl rfl rfl
  | take sig =>
    cases sig with
    | kill =>
      simp only [State.take]
      split
      · exact .takeKill hpc
      · exact .takeProcKill hpc
    | stop =>
      simp only [State.take]
      split <;> exact .takeStop hpc
  | stopCommit =>
    rw [hpc] at hgoto
    simp only
    split
    · exact .stops hpc ‹_›
    · exact hgoto .cancelled rfl rfl rfl
  | exitAlloc =>
    rw [hpc] at hgoto
    refine hgoto (.room ?_) rfl rfl rfl
    split
    · exact .inl rfl
    · exact .inr rfl
  | exitSnap cap left =>
    rw [hpc] at hgoto
    simp only
    cases ho : s.others t cap with
    | nil => exact hgoto (.alone ho) rfl rfl rfl
    | cons v vs => exact hgoto (.round ho) rfl rfl rfl
  | exitKill cap left nv rest =>
    rw [hpc] at hgoto
    cases rest with
    | cons v vs =>
      simp only
      split
      · exact hgoto .kills rfl rfl rfl
      · exact .exitKill hpc
    | nil =>
      simp only
      split
      · exact hgoto .finished rfl rfl rfl
      · rename_i hx
        exact hgoto (.nextRound fun h0 => hx (.inr h0)) rfl rfl rfl
  | execSnap =>
    rw [hpc] at hgoto
    cases ho : s.others t maxThreads with
    | nil => exact hgoto (.single ho) rfl rfl rfl
    | cons v vs => exact hgoto (.several ho) rfl rfl rfl
  | execSolo rest =>
    rw [hpc] at hgoto
    cases rest with
    | nil => exact hgoto .waits rfl rfl rfl
    | cons v vs =>
      simp only
      split
      · exact hgoto (.skips ‹_›) rfl rfl rfl
      · exact .solo hpc
  | execWait =>
    rw [hpc] at hgoto
    simp only
    split
    · exact hgoto (.ends ‹_›) rfl rfl rfl
    · exact .stay (.inr hpc)
  | commit => exact .commit hpc
  | stopAll => exact .stopAll hpc
  | exitSet => exact .exitSet hpc
  | unlink => exact .unlink hpc
  | putLive => exact .putLive hpc
  | execSend v vs => exact .send hpc
  | absent | fresh | blocked | stopped | gone => exact .stay (.inl (by rw [hpc]; rfl))
  | create | woken | deliverKill | stopCount | exit | reduce =>
    rw [hpc] at hgoto
    simp only
    split <;> refine hgoto ?_ rfl rfl rfl <;> constructor <;> simp_all
  | zombie | leave | execSwitch | execFree =>
    rw [hpc] at hgoto
    refine hgoto ?_ rfl rfl rfl
    constructor

/-- **Every step of a thread is along an edge.** -/
theorem edge_go : Edge s t c (s.pc t) ((go t c s).pc t) := by
  have hact := act_go (s := s) (t := t) (c := c)
  generalize go t c s = s' at hact
  cases hact with
  | stay h =>
    rcases h with h | h
    · exact .stay h
    · rw [h]
      exact .waitsOn
  | goto h =>
    rw [goto_pc_self]
    exact h
  | insert ht hc =>
    rw [ht]
    show Edge s t _ _ (update (update s.pc _ .fresh) t (.built _) t)
    rw [update_self]
    exact .inserted hc
  | noStack ht | start ht | commit ht | takeKill ht | takeProcKill ht | takeStop ht | stopAll ht | stops ht
  | exitSet ht | exitKill ht
  | unlink ht | putLive ht | solo ht | send ht =>
    simp only [ht, State.putLive, goto_pc_self]
    constructor <;> assumption

/-! ## The condition -/

/-- What the common results need of the step of a thread: a kernel stack is to be had, no thread goes to sleep, goes back
to `waitq_sleep` or stops with SIGKILL pending, and none that is sent SIGKILL is stopped. -/
def State.coreOK (s : State n) (t : Fin n) (c : Choice n) : Bool :=
  match s.pc t with
  | .built _ => decide (c ≠ .fail)
  | .sleep => !s.kill t || decide (c ≠ .sleep)
  | .commit => !s.kill t
  | .stopCommit => !s.stopping t || !s.kill t
  | .exitKill _ _ _ (v :: _) => decide (s.pc v ≠ .stopped)
  | .execSend v _ => decide (s.pc v ≠ .stopped)
  | _ => true

def CoreOK (s : State n) : Event n → Prop
  | .go t c => s.coreOK t c = true
  | _ => True

/-! ## The invariant -/

structure Core (s : State n) : Prop where
  mem : ∀ t, t ∈ s.threads ↔ (s.pc t).listed
  nodup : s.threads.Nodup
  length : s.threads.length ≤ maxThreads
  live : s.live = (Finset.univ.filter fun t => (s.pc t).counted = true).card
  dead : s.live = 0 → s.dead
  fresh : ∀ v, s.pc v = .fresh → ∃ u, s.pc u = .built v
  built : ∀ u v, s.pc u = .built v → s.pc v = .fresh
  unique : ∀ u u' v, s.pc u = .built v → s.pc u' = .built v → u = u'
  awake : ∀ t, s.kill t → s.pc t ≠ .blocked ∧ s.pc t ≠ .stopped

/-- A step in which no thread enters or leaves the list. -/
theorem Core.same (h : Core s) (hl : ∀ v, (s'.pc v).listed = (s.pc v).listed) (hc : ∀ v, (s'.pc v).counted = (s.pc v).counted)
    (hb : ∀ u v, s'.pc u = .built v ↔ s.pc u = .built v) (hf : ∀ v, s'.pc v = .fresh ↔ s.pc v = .fresh)
    (hth : s'.threads = s.threads) (hlive : s'.live = s.live) (hdead : s'.dead = s.dead)
    (hk : ∀ t, s'.kill t → s'.pc t ≠ .blocked ∧ s'.pc t ≠ .stopped) : Core s' where
  mem t := by
    rw [hth, hl]
    exact h.mem t
  nodup := by
    rw [hth]
    exact h.nodup
  length := by
    rw [hth]
    exact h.length
  live := by
    rw [hlive, h.live]
    simp only [hc]
  dead := by
    rw [hlive, hdead]
    exact h.dead
  fresh v hv := by
    obtain ⟨u, hu⟩ := h.fresh v ((hf v).1 hv)
    exact ⟨u, (hb u v).2 hu⟩
  built u v hu := (hf v).2 (h.built u v ((hb u v).1 hu))
  unique u u' v hu hu' := h.unique u u' v ((hb u v).1 hu) ((hb u' v).1 hu')
  awake := hk

theorem Pc.plain_ne (h : pc.plain) : pc ≠ .fresh ∧ ∀ v, pc ≠ .built v := by
  refine ⟨?_, fun v => ?_⟩ <;> rintro rfl <;> cases h

theorem Pc.parked_ne (h : pc.parked = false) : pc ≠ .blocked ∧ pc ≠ .stopped := by
  refine ⟨?_, ?_⟩ <;> rintro rfl <;> cases h

/-- The thread goes on, and the other threads are where they were. -/
theorem Core.move (h : Core s) (hpc : s'.pc = update s.pc t x) (hx : (s.pc t).alike x) (hth : s'.threads = s.threads)
    (hlive : s'.live = s.live) (hdead : s'.dead = s.dead) (hkill : ∀ v, s'.kill v → s.kill v)
    (hk : s'.kill t → x.parked = false) : Core s' := by
  simp only [Pc.alike, Bool.and_eq_true, beq_iff_eq] at hx
  obtain ⟨⟨⟨hp, hp'⟩, hl⟩, hc⟩ := hx
  have hp := Pc.plain_ne hp
  have hp' := Pc.plain_ne hp'
  have hk' : s'.kill t → x ≠ .blocked ∧ x ≠ .stopped := fun ht => Pc.parked_ne (hk ht)
  have hawake := h.awake
  refine h.same ?_ ?_ ?_ ?_ hth hlive hdead ?_ <;> rw [hpc] <;> grind [update_apply]

/-- A place from which a thread is woken, and the one it goes to. -/
inductive Roused : Pc n → Pc n → Prop
  | same (pc : Pc n) : Roused pc pc
  | woken : Roused .blocked .woken
  | continued : Roused .stopped .ret

theorem roused_wake (pc : Fin n → Pc n) (u v : Fin n) : Roused (pc v) (wake pc u v) := by
  unfold wake
  split
  · rename_i hu
    by_cases hv : v = u
    · subst hv
      rw [update_self, hu]
      exact .woken
    · rw [update_of_ne hv]
      exact .same _
  · exact .same _

theorem wake_self_ne_blocked (pc : Fin n → Pc n) (u : Fin n) : wake pc u u ≠ .blocked := by
  unfold wake
  split
  · rw [update_self]
    nofun
  · assumption

section
variable {a b : Pc n} (h : Roused a b)
include h

theorem Roused.listed : b.listed = a.listed := by cases h <;> rfl

theorem Roused.counted : b.counted = a.counted := by cases h <;> rfl

theorem Roused.built_iff : b = .built v ↔ a = .built v := by cases h <;> simp

theorem Roused.fresh_iff : b = .fresh ↔ a = .fresh := by cases h <;> simp

theorem Roused.eq_of_runnable (ha : a.runnable) : b = a := by
  cases h with
  | same => rfl
  | woken | continued => cases ha

theorem Roused.parked (hb : b = .blocked ∨ b = .stopped) : b = a := by
  cases h with
  | same => rfl
  | woken | continued => rcases hb with hb | hb <;> cases hb

end

theorem Core.rouse (h : Core s) (hr : ∀ v, Roused (s.pc v) (s'.pc v)) (hth : s'.threads = s.threads) (hlive : s'.live = s.live)
    (hdead : s'.dead = s.dead) (hk : ∀ v, s'.kill v → s.kill v ∨ s'.pc v ≠ .blocked ∧ s'.pc v ≠ .stopped) : Core s' := by
  refine h.same (fun v => (hr v).listed) (fun v => (hr v).counted) (fun u v => (hr u).built_iff)
    (fun v => (hr v).fresh_iff) hth hlive
    hdead ?_
  intro v hv
  rcases hk v hv with hold | hnew
  · obtain ⟨h1, h2⟩ := h.awake v hold
    refine ⟨fun hb => h1 ?_, fun hb => h2 ?_⟩
    · rw [← (hr v).parked (.inl hb), hb]
    · rw [← (hr v).parked (.inr hb), hb]
  · exact hnew

/-! ## The steps keep it -/

theorem Core.wake (h : Core s) (t : Fin n) : Core { s with pc := wake s.pc t } :=
  h.rouse (roused_wake s.pc t) rfl rfl rfl fun _ hv => .inl hv

theorem roused_wakeTarget (v : Fin n) : Roused (s.pc v) (s.wakeTarget v) := by
  unfold State.wakeTarget
  cases target s.pc s.threads with
  | none => exact .same _
  | some t => exact roused_wake _ _ _

theorem Core.sendKill (h : Core s) (hv : s.pc v ≠ .stopped) : Core (s.sendKill v) := by
  refine h.rouse (roused_wake s.pc v) rfl rfl rfl ?_
  intro w hw
  by_cases hwv : w = v
  · subst hwv
    refine .inr ⟨wake_self_ne_blocked _ _, ?_⟩
    intro hst
    exact hv (((roused_wake s.pc w w).parked (.inr hst)).symm.trans hst)
  · left
    exact (update_of_ne hwv _ _).symm.trans hw

theorem roused_stopOthers (t v : Fin n) : Roused (s.pc v) ((s.stopOthers t).pc v) := by
  show Roused _ (if _ then _ else _)
  split
  · rename_i hx
    rw [hx.2]
    exact .woken
  · exact .same _

theorem roused_doContinue (v : Fin n) : Roused (s.pc v) (s.doContinue.pc v) := by
  show Roused _ (if _ then _ else _)
  split
  · rename_i hx
    rw [hx.2]
    exact .continued
  · exact .same _

section Moves

variable (h : Core s)
include h

theorem Core.insert (ht : s.pc t = .checked) (hv : s.pc v = .absent) (hlen : s.threads.length < maxThreads) :
    Core (s.insert t v) := by
  have hpc : ∀ w, (s.insert t v).pc w = if w = t then .built v else if w = v then .fresh else s.pc w := by
    intro w
    show update (update s.pc v .fresh) t _ w = _
    rw [update_apply, update_apply]
  have hcount : (Finset.univ.filter fun w =>
      (update (update s.pc v .fresh) t (.built v) w).counted = true).card = s.live + 1 := by
    have hcard := Update.card_filter Pc.counted (update s.pc v .fresh) t (.built v)
    have hcard' := Update.card_filter Pc.counted s.pc v .fresh
    have htv : t ≠ v := by grind
    rw [update_of_ne htv, ht] at hcard
    rw [hv, ← h.live] at hcard'
    change _ + 1 = _ + 1 at hcard
    change _ + 0 = _ + 1 at hcard'
    omega
  obtain ⟨mem, nodup, -, -, -, fresh, built, unique, awake⟩ := h
  refine ⟨?_, ?_, hlen, hcount.symm, fun h0 => absurd h0 (Nat.succ_ne_zero s.live), ?_, ?_, ?_, ?_⟩
  · intro w
    have hw := mem w
    show w ∈ v :: s.threads ↔ _
    rw [hpc]
    grind [Pc.listed]
  · refine List.nodup_cons.2 ⟨?_, nodup⟩
    rw [mem, hv]
    nofun
  · intro w hw
    by_cases hwv : w = v
    · exact ⟨t, by grind⟩
    · obtain ⟨u, hu⟩ := fresh w (by grind)
      exact ⟨u, by grind⟩
  · grind
  · grind
  · intro w hw
    have hw' := awake w hw
    grind

theorem Core.start (ht : s.pc t = .built v) : Core ({ s with pc := update s.pc v .user }.goto t .ret) := by
  have hpc : ∀ w, (({ s with pc := update s.pc v .user } : State n).goto t .ret).pc w =
      if w = t then .ret else if w = v then .user else s.pc w := by
    intro w
    show update (update s.pc v .user) t _ w = _
    rw [update_apply, update_apply]
  obtain ⟨mem, nodup, length, live, dead, fresh, built, unique, awake⟩ := h
  refine ⟨?_, nodup, length, ?_, dead, ?_, ?_, ?_, ?_⟩
  · intro w
    have hw := mem w
    show w ∈ s.threads ↔ _
    grind [Pc.listed]
  · refine live.trans (congrArg Finset.card (Finset.filter_congr fun w _ => ?_))
    grind [Pc.counted]
  · intro w hw
    obtain ⟨u, hu⟩ := fresh w (by grind)
    exact ⟨u, by grind⟩
  · grind
  · grind
  · intro w hw
    have hw' := awake w hw
    grind

theorem Core.exitStep (hpc : s'.pc = update s.pc t x) (hz : (s.pc t).isZombie)
    (hx : x.isZombie) (hmem : ∀ w, w ∈ s'.threads ↔ (update s.pc t x w).listed) (hnodup : s'.threads.Nodup)
    (hlen : s'.threads.length ≤ s.threads.length)
    (hlive : s'.live = (Finset.univ.filter fun w => (update s.pc t x w).counted = true).card)
    (hdead : s'.live = 0 → s'.dead) (hkill : s'.kill = s.kill) : Core s' := by
  have hiff : ∀ (y : Pc n), y.isZombie = false → ∀ w, s'.pc w = y ↔ s.pc w = y := by
    intro y hy w
    rw [hpc]
    grind [update_apply]
  refine ⟨hpc ▸ hmem, hnodup, hlen.trans h.length, hpc ▸ hlive, hdead, ?_, ?_, ?_, ?_⟩
  · intro w hw
    obtain ⟨u, hu⟩ := h.fresh w ((hiff _ rfl w).1 hw)
    exact ⟨u, (hiff _ rfl u).2 hu⟩
  · exact fun u w hu => (hiff _ rfl w).2 (h.built u w ((hiff _ rfl u).1 hu))
  · exact fun u u' w hu hu' => h.unique u u' w ((hiff _ rfl u).1 hu) ((hiff _ rfl u').1 hu')
  · intro w hw
    obtain ⟨h1, h2⟩ := h.awake w (hkill ▸ hw)
    exact ⟨fun hb => h1 ((hiff _ rfl w).1 hb), fun hb => h2 ((hiff _ rfl w).1 hb)⟩

theorem Core.unlink (ht : s.pc t = .unlink) : Core ({ s with threads := s.threads.erase t }.goto t .putLive) := by
  have hcard := Update.card_filter Pc.counted s.pc t .putLive
  have hnd := h.nodup
  refine h.exitStep (x := .putLive) rfl (by rw [ht]; rfl) rfl ?_ (hnd.erase t) List.length_erase_le ?_ h.dead rfl
  · intro w
    have hw := h.mem w
    show w ∈ s.threads.erase t ↔ _
    rw [hnd.mem_erase_iff]
    grind [update_apply, Pc.listed]
  · rw [ht, ← h.live] at hcard
    exact (Nat.add_right_cancel hcard).symm

/-- The thread is no longer counted, and the last one ends the process. -/
theorem Core.putLive (ht : s.pc t = .putLive) : Core (s.putLive t) := by
  have hcard := Update.card_filter Pc.counted s.pc t .leave
  refine h.exitStep (x := .leave) rfl (by rw [ht]; rfl) rfl ?_ h.nodup (le_refl _) ?_ ?_ rfl
  · intro w
    have hw := h.mem w
    show w ∈ s.threads ↔ _
    grind [update_apply, Pc.listed]
  · rw [ht, ← h.live] at hcard
    change _ + 1 = _ + 0 at hcard
    show s.live - 1 = _
    omega
  · intro h0
    have h0' : s.live - 1 = 0 := h0
    show (s.dead || decide (s.live - 1 = 0))
    rw [decide_eq_true h0', Bool.or_true]

theorem Core.goto (hx : (s.pc t).alike x) (hk : s.kill t → x.parked = false) : Core (s.goto t x) :=
  h.move rfl hx rfl rfl rfl (fun _ hv => hv) hk

theorem Core.sendKill_goto (hv : s.pc v ≠ .stopped) (ht : (s.pc t).runnable)
    (hx : (s.pc t).alike x) (hp : x.parked = false) : Core ((s.sendKill v).goto t x) := by
  have hsame : (s.sendKill v).pc t = s.pc t := (roused_wake s.pc v t).eq_of_runnable ht
  refine (h.sendKill hv).goto ?_ fun _ => hp
  rw [hsame]
  exact hx

/-- **Every step of a thread.** -/
theorem Core.go (hok : s.coreOK t c) : Core (go t c s) := by
  have hact := act_go (s := s) (t := t) (c := c)
  unfold State.coreOK at hok
  generalize ThreadGroup.go t c s = s' at hact ⊢
  cases hact with
  | stay => exact h
  | goto _ hx hp => exact h.goto hx fun _ => hp
  | insert ht _ hv hlen => exact h.insert ht hv hlen
  | noStack ht hc =>
    rw [ht, hc] at hok
    cases hok
  | start ht => exact h.start ht
  | commit ht =>
    rw [ht] at hok
    refine h.goto (by rw [ht]; rfl) fun hk => ?_
    rw [hk] at hok
    cases hok
  | takeKill ht =>
    refine h.move rfl (by rw [ht]; rfl) rfl rfl rfl (fun v hv => ?_) fun _ => rfl
    by_cases hvt : v = t
    · subst hvt
      cases (update_self _ _ _).symm.trans hv
    · exact (update_of_ne hvt _ _).symm.trans hv
  | takeProcKill ht | takeStop ht | exitSet ht | solo ht =>
    exact h.move rfl (by rw [ht]; rfl) rfl rfl rfl (fun _ hv => hv) fun _ => rfl
  | stopAll ht =>
    have hself : (s.stopOthers t).pc t = .stopAll := by
      rw [(roused_stopOthers t t).eq_of_runnable (by rw [ht]; rfl), ht]
    have hc : Core (s.stopOthers t) := h.rouse (roused_stopOthers t) rfl rfl rfl fun _ hv => .inl hv
    exact hc.goto (by rw [hself]; rfl) fun _ => rfl
  | stops ht hst =>
    simp only [ht, hst] at hok
    refine h.move rfl (by rw [ht]; rfl) rfl rfl rfl (fun _ hv => hv) fun hk => ?_
    rw [show s.kill t = true from hk] at hok
    cases hok
  | exitKill ht | send ht =>
    rw [ht] at hok
    exact h.sendKill_goto (of_decide_eq_true hok) (by rw [ht]; rfl) (by rw [ht]; rfl) rfl
  | unlink ht => exact h.unlink ht
  | putLive ht => exact h.putLive ht

theorem Core.step (hok : CoreOK s e) : Core (step s e) := by
  cases e with
  | idle => exact h
  | go t c => exact h.go hok
  | wake t => exact h.wake t
  | kill | stop => exact h.rouse roused_wakeTarget rfl rfl rfl fun _ hv => .inl hv
  | cont => exact h.rouse roused_doContinue rfl rfl rfl fun _ hv => .inl hv

end Moves

theorem Core.initial (main : Fin n) : Core (.initial main) := by
  have hpc : ∀ t, (State.initial main).pc t = if t = main then .user else .absent :=
    fun t => update_apply (fun _ => Pc.absent) main Pc.user t
  have hcard := Update.card_filter Pc.counted (fun _ : Fin n => (.absent : Pc n)) main .user
  refine ⟨?_, List.nodup_singleton _, show 1 ≤ maxThreads by decide, ?_, nofun, ?_, ?_, ?_, nofun⟩
  · intro t
    show t ∈ [main] ↔ _
    rw [hpc]
    grind [Pc.listed]
  · show 1 = (Finset.univ.filter fun t => (update (fun _ => Pc.absent) main .user t).counted = true).card
    have hnone : (Finset.univ.filter fun _ : Fin n => (.absent : Pc n).counted = true) = ∅ :=
      Finset.filter_false_of_mem fun _ _ => Bool.false_ne_true
    rw [hnone] at hcard
    exact hcard.symm
  all_goals grind

end NeoOS.ThreadGroup
