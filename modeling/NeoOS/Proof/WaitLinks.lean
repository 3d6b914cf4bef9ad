import Mathlib.Data.Fintype.Card
import NeoOS.Spec.WaitQueue

/-!
# The links of the wait queues

Every thread is in at most one place: on a wait queue or a run queue, on the private list of a
`waitq_wake_all`, about to be pushed by a waker, or in none of these. What a step does to the links
follows from what it does to one list, and the other lists live on other threads.

* `Chains.push`, `Chains.pop`, `Chains.sift`, `Chains.remove`: the operations on a queue.
* `Linking.step`: every step keeps the places, and no private list loses a thread.
-/

namespace NeoOS.WaitQueue

open List
open Function (update update_apply update_eq_self update_of_ne update_self)

open Links

variable {n j q i : ℕ} {s s' : State n} {t : Fin n} {k : Cont n} {x : Place} {w : Option (Fin n)} {f' : Fifo (Fin n)}
  {b : Actor n} {β : Type*}

/-! ## Where a waker is -/

def Cont.woken : Cont n → Option (Fin n)
  | .all w => w
  | _ => none

def Cont.expired : Cont n → Option (Fin n)
  | .tick w => w
  | _ => none

def Pc.cont : Pc n → Cont n
  | .loop k | .unlink _ k | .test _ k | .remove _ k | .locked _ _ k | .load _ k | .waitOffCpu _ k | .cas _ k | .clear _ k
  | .push _ k => k
  | _ => .done

/-- The rest of the private list of `waitq_wake_all`. -/
def Pc.woken (pc : Pc n) : Option (Fin n) := pc.cont.woken

/-- The rest of the private list of `waitq_timeout_tick`. -/
def Pc.expired (pc : Pc n) : Option (Fin n) := pc.cont.expired

/-- The thread whose link `waitq_wake_all` has read and not yet cleared. -/
def Pc.unlinks : Pc n → Option (Fin n)
  | .unlink t (.all _) => some t
  | _ => none

/-- The two together. -/
abbrev Pc.lists (pc : Pc n) : Option (Fin n) × Option (Fin n) := (pc.woken, pc.unlinks)

/-- The thread whose link `waitq_timeout_tick` has read and not yet cleared. -/
def Pc.unlists : Pc n → Option (Fin n)
  | .unlink t (.tick _) => some t
  | _ => none

/-- The thread that has been made ready and is not yet on a run queue. -/
def Pc.pushes : Pc n → Option (Fin n)
  | .clear t _ | .push t _ => some t
  | _ => none

/-- The thread that the waker is about to wake. -/
def Pc.current : Pc n → Option (Fin n)
  | .unlink t _ | .test t _ | .remove t _ | .locked t _ _ | .load t _ | .waitOffCpu t _ | .cas t _ => some t
  | _ => none

/-- Where waker `i` is. -/
def State.pc (s : State n) (i : ℕ) : Pc n :=
  match s.actors[i]? with
  | some a => a.pc
  | none => .idle

def State.took (s : State n) (i : ℕ) : List (Fin n × ℕ) :=
  match s.actors[i]? with
  | some a => a.took
  | none => []

/-! ## The condition -/

/-- The deadline of the thread is on the list and it is not yet asleep. -/
def Sleep.entering : Sleep → Bool
  | .enter .. => true
  | _ => false

/-- What the next step of a waker asks of the state before it. -/
def ActOK (s : State n) : Pc n → Prop
  -- the thread is on the queue it is removed from, or has none behind it on the list it is on
  | .locked t q _ => s.blockedOn t = some q → t ∈ nodes s.next n (s.queues (.wait q)).head ∨ s.next t = none
  -- a thread that is asleep is off its queue, on no private list and off its CPU
  | .cas t _ => s.state t = .blocked →
      (∀ q ∈ s.blockedOn t, t ∉ nodes s.next n (s.queues (.wait q)).head) ∧
      (∀ a ∈ s.actors, t ∉ nodes s.next n a.pc.woken ∧ a.pc.unlinks ≠ some t) ∧ s.onCpu t = false
  -- no thread is found expired before it is asleep
  | .scan now => ∀ t ∈ nodes s.timeoutNext n s.timeoutList, s.isExpired now t → (s.sleep t).entering = false
  | _ => True

/-- What a step asks of the state before it. -/
def StepOK (s : State n) : Event n → Prop
  -- no tick still has the thread from an earlier deadline
  | .sleep t _ (some _) => ∀ a ∈ s.actors, t ∉ nodes s.timeoutNext n a.pc.expired ∧ a.pc.unlists ≠ some t
  -- no tick has another thread behind this one
  | .unlist t => ∀ a ∈ s.actors, t ∈ nodes s.timeoutNext n a.pc.expired → s.timeoutNext t = none
  | .act i _ _ => ActOK s (s.pc i)
  | _ => True

instance (s : State n) (pc : Pc n) : Decidable (ActOK s pc) :=
  match pc with
  | .locked _ _ _ => inferInstanceAs (Decidable (_ → _))
  | .cas _ _ => inferInstanceAs (Decidable (_ → _))
  | .scan _ => inferInstanceAs (Decidable (∀ t ∈ _, _ → _))
  | .idle | .wakeOne _ | .wakeAll _ | .signal _ | .timeoutTick | .loop _ | .unlink _ _ | .test _ _ | .remove _ _ | .load _ _
  | .waitOffCpu _ _ | .clear _ _ | .push _ _ => isTrue trivial

instance (s : State n) (e : Event n) : Decidable (StepOK s e) :=
  match e with
  | .sleep _ _ (some _) => inferInstanceAs (Decidable (∀ a ∈ s.actors, _ ∧ _))
  | .unlist _ => inferInstanceAs (Decidable (∀ a ∈ s.actors, _ → _))
  | .act i _ _ => inferInstanceAs (Decidable (ActOK s (s.pc i)))
  | .sleep _ _ none | .time | .enter _ _ _ | .leave _ _ | .pop _ | .resume _ _ | .preempt _ _ | .call _ => isTrue trivial

/-! ## Lists of threads -/

variable {next next' : Fin n → Option (Fin n)} {queues : QueueId → Fifo (Fin n)} {p : Option (Fin n)} {l : List (Fin n)}

theorem length_le_of_linked (h : Linked next p l) : l.length ≤ n := by
  have hc := h.nodup.length_le_card
  rwa [Fintype.card_fin] at hc

theorem nodes_of_linked (h : Linked next p l) : nodes next n p = l := h.nodes_eq (length_le_of_linked h)

theorem mem_nodes_iff (h : Linked next p l) : t ∈ nodes next n p ↔ t ∈ l := by rw [nodes_of_linked h]

inductive Place
  | queue (f : QueueId)
  | priv (i : ℕ)
  | pushing (i : ℕ)
  | free
deriving DecidableEq

/-- The queues are proper lists of the threads placed there, and so are the private lists; `held` has the
rest of a private list and the thread taken off its front. -/
structure Chains (next : Fin n → Option (Fin n)) (queues : QueueId → Fifo (Fin n))
    (held : ℕ → Option (Fin n) × Option (Fin n)) (place : Fin n → Place) : Prop where
  queue : ∀ f, ∃ l, IsFifo next (queues f) l ∧ ∀ t, t ∈ l ↔ place t = .queue f
  priv : ∀ i, ∃ l, Linked next (held i).1 l ∧ (∀ t, place t = .priv i ↔ t ∈ l ∨ (held i).2 = some t) ∧
    ∀ t ∈ l, (held i).2 ≠ some t

variable {held held' : ℕ → Option (Fin n) × Option (Fin n)} {place place' : Fin n → Place} {f : QueueId}

theorem mem_private_iff {x : Option (Fin n) × Option (Fin n)} {P : Fin n → Prop} (h : Emptying next x P) :
    P t ↔ t ∈ nodes next n x.1 ∨ x.2 = some t := by
  obtain ⟨l, hl, hmem, -⟩ := h
  rw [hmem t, mem_nodes_iff hl]

section Lists

variable (h : Chains next queues held place)
include h

theorem Chains.private (i : ℕ) : Emptying next (held i) (place · = .priv i) := h.priv i

/-- Places other than a queue or a private list do not matter. -/
theorem Chains.congr (hq : ∀ t f, place' t = .queue f ↔ place t = .queue f)
    (hp : ∀ t i, place' t = .priv i ↔ place t = .priv i) : Chains next queues held place' := by
  constructor
  · intro f
    obtain ⟨l, hl, hmem⟩ := h.queue f
    exact ⟨l, hl, fun t => (hmem t).trans (hq t f).symm⟩
  · exact fun i => (h.private i).congr (fun _ _ => rfl) fun t => hp t i

/-- **A step that touches some of the lists**: the others keep their threads and their links. -/
theorem Chains.rebuild {queues' : QueueId → Fifo (Fin n)} (touched : Place → Prop)
    (hnext : ∀ t, ¬touched (place t) → (∃ g, place t = .queue g) ∨ (∃ i, place t = .priv i) → next' t = next t)
    (hplace : ∀ t x, ¬touched x → (∃ g, x = .queue g) ∨ (∃ i, x = .priv i) → (place' t = x ↔ place t = x))
    (hqueues : ∀ g, ¬touched (.queue g) → queues' g = queues g) (hheld : ∀ i, ¬touched (.priv i) → held' i = held i)
    (hq : ∀ g, touched (.queue g) → ∃ l, IsFifo next' (queues' g) l ∧ ∀ t, t ∈ l ↔ place' t = .queue g)
    (hp : ∀ i, touched (.priv i) → Emptying next' (held' i) (place' · = .priv i)) : Chains next' queues' held' place' := by
  constructor
  · intro g
    by_cases hg : touched (.queue g)
    · exact hq g hg
    obtain ⟨l, hl, hmem⟩ := h.queue g
    rw [hqueues g hg]
    refine ⟨l, hl.congr ?_, fun t => (hmem t).trans (hplace t _ hg (.inl ⟨g, rfl⟩)).symm⟩
    intro t ht
    have hpt := (hmem t).1 ht
    exact hnext t (hpt ▸ hg) (.inl ⟨g, hpt⟩)
  · intro i
    by_cases hi : touched (.priv i)
    · exact hp i hi
    rw [hheld i hi]
    refine (h.private i).congr (fun t ht => ?_) fun t => hplace t _ hi (.inr ⟨i, rfl⟩)
    exact hnext t (ht ▸ hi) (.inr ⟨i, ht⟩)

/-- **A thread joins a queue.** -/
theorem Chains.push (f : QueueId) (hq : ∀ f, place t ≠ .queue f) (hp : ∀ i, place t ≠ .priv i) :
    Chains (push next (queues f) t).1 (update queues f (push next (queues f) t).2) held (update place t (.queue f)) := by
  obtain ⟨l, hl, hmem⟩ := h.queue f
  obtain ⟨hnew, hkeep⟩ := hl.push fun ht => hq f ((hmem t).1 ht)
  apply h.rebuild (· = .queue f)
  · intro u hu hlist
    exact hkeep u (by grind) (by grind)
  · grind [update_apply]
  · exact fun g hg => update_of_ne (by grind) _ _
  · exact fun _ _ => rfl
  · rintro g hg
    cases hg
    rw [update_self]
    exact ⟨l ++ [t], hnew, by grind [update_apply]⟩
  · nofun

/-- **The first thread leaves a queue.** -/
theorem Chains.pop (hpop : pop next (queues f) = (some t, next', f')) :
    place t = .queue f ∧ ∀ x, (∀ g, x ≠ .queue g) → (∀ i, x ≠ .priv i) →
    Chains next' (update queues f f') held (update place t x) := by
  obtain ⟨l, hl, hmem⟩ := h.queue f
  cases l with
  | nil => cases hl.pop_nil.symm.trans hpop
  | cons u l =>
    obtain ⟨f'', hpop', hf'⟩ := hl.pop_cons
    cases hpop'.symm.trans hpop
    have hnot := (nodup_cons.1 hl.linked.nodup).1
    have hpt := (hmem t).1 mem_cons_self
    refine ⟨hpt, ?_⟩
    intro x hxq hxp
    apply h.rebuild (· = .queue f)
    · exact fun u hu _ => update_of_ne (by grind) _ _
    · grind [update_apply]
    · exact fun g hg => update_of_ne (by grind) _ _
    · exact fun _ _ => rfl
    · intro g hg
      cases hg
      rw [update_self]
      exact ⟨l, hf', by grind [update_apply]⟩
    · nofun

/-- **A thread is taken out of a queue.** -/
theorem Chains.remove (hpt : place t = .queue f) :
    Chains (removeNode n next (queues f) t).1 (update queues f (removeNode n next (queues f) t).2) held
      (update place t .free) := by
  obtain ⟨l, hl, hmem⟩ := h.queue f
  obtain ⟨l', hl', hmem', hkeep⟩ := hl.removeNode ((hmem t).2 hpt) (length_le_of_linked hl.linked)
  apply h.rebuild (· = .queue f)
  · exact fun u hu _ => hkeep u fun hul => hu ((hmem u).1 hul)
  · grind [update_apply]
  · exact fun g hg => update_of_ne (by grind) _ _
  · exact fun _ _ => rfl
  · intro g hg
    cases hg
    rw [update_self]
    exact ⟨l', hl', by grind [update_apply]⟩
  · nofun

theorem Chains.priv_empty (hi : held i = (none, none)) (u : Fin n) : place u ≠ .priv i := by
  have hp := h.private i
  rw [hi] at hp
  exact hp.empty u

/-- **Some threads of a queue go to the empty private list of waker `i`.** -/
theorem Chains.sift (f : QueueId) (wants : Fin n → Bool) (hi : held i = (none, none)) :
    Chains (sift wants n next (queues f) none ⟨none, none⟩).1
      (update queues f (sift wants n next (queues f) none ⟨none, none⟩).2.1)
      (update held i ((sift wants n next (queues f) none ⟨none, none⟩).2.2, none))
      (fun t => if place t = .queue f ∧ wants t = true then .priv i else place t) := by
  obtain ⟨l, hl, hmem⟩ := h.queue f
  have hempty := h.priv_empty hi
  have hw : Linked next none [] := rfl
  have hkeep : IsFifo next ⟨none, none⟩ [] := ⟨rfl, rfl⟩
  obtain ⟨hkept, hpriv, hsame⟩ := hl.sift wants hw hkeep (by simp) (by simp) (by simp) (length_le_of_linked hl.linked)
  apply h.rebuild (fun x => x = .queue f ∨ x = .priv i)
  · intro u hu _
    exact hsame u (fun hul => hu (.inl ((hmem u).1 hul))) (by simp)
  · intro u x hx _
    by_cases hu : place u = .queue f ∧ wants u
    · rw [if_pos hu, hu.1]
      constructor
      · intro he
        exact absurd (.inr he.symm) hx
      · intro he
        exact absurd (.inl he.symm) hx
    · rw [if_neg hu]
  · intro g hg
    apply update_of_ne
    rintro rfl
    exact hg (.inl rfl)
  · intro j hj
    apply update_of_ne
    rintro rfl
    exact hj (.inr rfl)
  · intro g hg
    rcases hg with hg | hg
    · cases hg
      rw [update_self]
      refine ⟨_, hkept, ?_⟩
      intro u
      by_cases hw : wants u
      · by_cases hu : place u = .queue f <;> simp [hw, hu]
      · simp [hw, hmem u]
    · cases hg
  · intro j hj
    rcases hj with hj | hj
    · cases hj
    cases hj
    rw [update_self]
    refine ⟨_, hpriv, ?_, by simp⟩
    intro u
    by_cases hu : place u = .queue f <;> by_cases hw : wants u = true <;> simp [hu, hw, hmem u, hempty u]

/-- **A queue is drained onto the empty private list of waker `i`.** -/
theorem Chains.drain (f : QueueId) (hi : held i = (none, none)) :
    Chains (drain n next (queues f) none).1 (update queues f (drain n next (queues f) none).2.1)
      (update held i ((drain n next (queues f) none).2.2, none))
      (fun t => if place t = .queue f then .priv i else place t) := by
  obtain ⟨l, hl, -⟩ := h.queue f
  rw [hl.drain_eq_sift (length_le_of_linked hl.linked)]
  simpa using h.sift f (fun _ => true) hi

/-- **The first thread of a private list is taken off**, its link being cleared in a later step. -/
theorem Chains.takeOff (hi : held i = (some t, none)) : Chains next queues (update held i (next t, some t)) place := by
  apply h.rebuild (· = .priv i)
  · exact fun _ _ _ => rfl
  · exact fun _ _ _ _ => Iff.rfl
  · exact fun _ _ => rfl
  · intro j hj
    apply update_of_ne
    rintro rfl
    exact hj rfl
  · intro g hg
    cases hg
  · intro j hj
    cases hj
    have hp := h.private i
    rw [hi] at hp
    rw [update_self]
    exact hp.takeOff

/-- The link of the thread that was taken off is cleared. -/
theorem Chains.clearLink (hi : held i = (w, some t)) :
    Chains (update next t none) queues (update held i (w, none)) (update place t .free) := by
  have hp := h.private i
  rw [hi] at hp
  apply h.rebuild (· = .priv i)
  · exact fun u hu' _ => update_of_ne (by grind) _ _
  · grind [update_apply]
  · exact fun _ _ => rfl
  · exact fun j hj => update_of_ne (by grind) _ _
  · nofun
  · intro j hj
    cases hj
    rw [update_self]
    exact hp.clear (by grind [update_apply])

end Lists

/-! ## The places of the threads -/

/-- Every thread is at its place, in a state that fits. -/
structure Linking (s : State n) (place : Fin n → Place) : Prop where
  chains : Chains s.next s.queues (fun i => (s.pc i).lists) place
  pushing : ∀ i t, place t = .pushing i ↔ (s.pc i).pushes = some t
  blocked : ∀ t q, place t = .queue (.wait q) → s.state t = .blocked ∧ s.blockedOn t = some q
  held : ∀ t i, place t = .priv i → s.state t = .blocked
  ready : ∀ t, s.state t = .ready ↔ (∃ c, place t = .queue (.run c)) ∨ ∃ i, place t = .pushing i
  offCpu : ∀ t, s.state t = .ready → s.onCpu t = false

/-- The threads that waker `j` still has to wake. -/
def Owes (s : State n) (j : ℕ) (t : Fin n) : Prop := t ∈ nodes s.next n (s.pc j).woken ∨ (s.pc j).current = some t

/-- No thread drops out of a private list without being the next to be woken. -/
def Follows (place place' : Fin n → Place) (s' : State n) : Prop :=
  ∀ j t, place t = .priv j → place' t = .priv j ∨ (s'.pc j).current = some t

theorem current_of_unlinks {pc : Pc n} (h : pc.unlinks = some t) : pc.current = some t := by
  cases pc with
  | unlink u k =>
    cases k with
    | all w => exact h
    | done | tick => cases h
  | _ => cases h

theorem follows_of_priv {s' : State n} (h : ∀ j t, place t = .priv j → place' t = .priv j) : Follows place place' s' :=
  fun j t ht => .inl (h j t ht)

theorem follows_update {s' : State n} (h : ∀ j, place t ≠ .priv j) : Follows place (update place t x) s' := by
  apply follows_of_priv
  intro j u hu
  rw [update_of_ne]
  · exact hu
  · rintro rfl
    exact h j hu

/-- The state of a thread fits its place. -/
def Fits (s : State n) (t : Fin n) : Place → Prop
  | .queue (.wait q) => s.state t = .blocked ∧ s.blockedOn t = some q
  | .queue (.run _) | .pushing _ => s.state t = .ready ∧ s.onCpu t = false
  | .priv _ => s.state t = .blocked
  | .free => s.state t ≠ .ready

theorem view_update (view : Pc n → β) (pcs : ℕ → Pc n) (pc : Pc n) :
    (fun j => view (update pcs i pc j)) = update (fun j => view (pcs j)) i (view pc) := by
  funext j
  by_cases hj : j = i
  · subst hj
    simp
  · simp [hj]

/-- The conclusion of every step lemma: the threads are at their places, and the private lists are kept. -/
def Kept (s' : State n) (place : Fin n → Place) : Prop := ∃ place', Linking s' place' ∧ Follows place place' s'

theorem Linking.kept (h : Linking s' place) : Kept s' place := ⟨place, h, fun _ _ ht => .inl ht⟩

theorem pc_of_getElem? {a : Actor n} (hi : s.actors[i]? = some a) : s.pc i = a.pc := by
  unfold State.pc
  rw [hi]

theorem pc_cases (s : State n) (i : ℕ) : s.pc i = .idle ∨ ∃ a ∈ s.actors, s.pc i = a.pc := by
  unfold State.pc
  split
  · exact .inr ⟨_, mem_of_getElem? ‹_›, rfl⟩
  · exact .inl rfl

theorem pc_congr (ha : s'.actors = s.actors) : s'.pc = s.pc := by
  funext i
  unfold State.pc
  rw [ha]

/-- What is seen of the wakers once there is a new one. -/
theorem actors_append (view : Option (Actor n) → β) (h : s'.actors = s.actors ++ [b]) :
    (fun j => view s'.actors[j]?) = update (fun j => view s.actors[j]?) s.actors.length (view (some b)) := by
  funext j
  rw [h]
  rcases Nat.lt_trichotomy j s.actors.length with hj | hj | hj
  · rw [getElem?_append_left hj, update_of_ne (by omega)]
  · subst hj
    simp
  · rw [getElem?_eq_none (by simp; omega), update_of_ne (by omega), getElem?_eq_none (by omega)]

theorem pc_append (h : s'.actors = s.actors ++ [b]) : s'.pc = update s.pc s.actors.length b.pc :=
  actors_append (fun | some a => a.pc | none => .idle) h

theorem took_append (h : s'.actors = s.actors ++ [b]) : s'.took = update s.took s.actors.length b.took :=
  actors_append (fun | some a => a.took | none => []) h

theorem pc_length (s : State n) : s.pc s.actors.length = .idle := by
  unfold State.pc
  rw [getElem?_eq_none (le_refl _)]

/-- A view of the wakers that the new one does not change. -/
theorem view_append {β : Type} (view : Pc n → β) (h : s'.actors = s.actors ++ [b]) (hb : view b.pc = view .idle)
    (j : ℕ) : view (s'.pc j) = view (s.pc j) := by
  rw [pc_append h]
  by_cases hj : j = s.actors.length
  · subst hj
    rw [update_self, hb, pc_length]
  · rw [update_of_ne hj]

section

variable (h : Linking s place)
include h

theorem Linking.free_of_running (ht : s.state t = .running) : place t = .free := by
  obtain ⟨-, -, blocked, held, ready, -⟩ := h
  cases hp : place t with
  | queue f => cases f <;> grind
  | _ => grind

theorem Linking.mem_woken (ht : t ∈ nodes s.next n (s.pc j).woken) : place t = .priv j :=
  (mem_private_iff (h.chains.private j)).2 (.inl ht)

theorem Linking.owes_of_priv (ht : place t = .priv j) : Owes s j t :=
  ((mem_private_iff (h.chains.private j)).1 ht).imp_right current_of_unlinks

theorem Linking.owes (h' : Linking s' place') (hf : Follows place place' s')
    (ht : t ∈ nodes s.next n (s.pc j).woken) : Owes s' j t := by
  rcases hf j t (h.mem_woken ht) with hp | hc
  · exact h'.owes_of_priv hp
  · exact .inr hc

theorem Linking.same (hn : s'.next = s.next) (hq : s'.queues = s.queues) (hs : s'.state = s.state)
    (hb : ∀ t q, place t = .queue (.wait q) → s'.blockedOn t = s.blockedOn t)
    (hc : ∀ t, s.state t = .ready → s'.onCpu t = s.onCpu t) (hw : ∀ i, (s'.pc i).woken = (s.pc i).woken)
    (hu : ∀ i, (s'.pc i).unlinks = (s.pc i).unlinks) (hp : ∀ i, (s'.pc i).pushes = (s.pc i).pushes) : Linking s' place := by
  have hheld : (fun i => (s'.pc i).lists) = fun i => (s.pc i).lists := by
    funext i
    exact Prod.ext (hw i) (hu i)
  refine ⟨?_, ?_, ?_, ?_, ?_, ?_⟩
  · rw [hn, hq, hheld]
    exact h.chains
  · intro i t
    rw [hp i]
    exact h.pushing i t
  · intro t q ht
    rw [hs, hb t q ht]
    exact h.blocked t q ht
  · rw [hs]
    exact h.held
  · rw [hs]
    exact h.ready
  · rw [hs]
    intro t ht
    rw [hc t ht]
    exact h.offCpu t ht

/-- **One thread moves to another place.** -/
theorem Linking.move (hx : Fits s' t x)
    (hc : Chains s'.next s'.queues (fun i => (s'.pc i).lists) (update place t x))
    (hs : ∀ u, u ≠ t → s'.state u = s.state u) (hb : ∀ u, u ≠ t → s'.blockedOn u = s.blockedOn u)
    (ho : ∀ u, u ≠ t → s'.onCpu u = s.onCpu u) (ht : ∀ i, x = .pushing i ↔ (s'.pc i).pushes = some t)
    (hp : ∀ i u, u ≠ t → ((s'.pc i).pushes = some u ↔ (s.pc i).pushes = some u)) :
    Linking s' (update place t x) := by
  obtain ⟨-, pushing, blocked, held, ready, offCpu⟩ := h
  have hfit : ∀ {y}, y = x → Fits s' t y := fun hy => hy ▸ hx
  refine ⟨hc, ?_, ?_, ?_, ?_, ?_⟩
  · grind [update_apply]
  · intro u q hq
    have hw : .queue (.wait q) = x → _ := hfit (y := .queue (.wait q))
    grind [update_apply, Fits]
  · intro u i hi
    grind [update_apply, Fits]
  · intro u
    by_cases hu : u = t
    · subst hu
      rw [update_self]
      cases x with
      | queue f => cases f <;> grind [Fits]
      | _ => grind [Fits]
    · rw [update_of_ne hu, hs u hu]
      exact ready u
  · intro u hr
    by_cases hu : u = t
    · subst hu
      cases x with
      | queue f => cases f <;> grind [Fits]
      | _ => grind [Fits]
    · rw [hs u hu] at hr
      rw [ho u hu]
      exact offCpu u hr

/-! ## The step of a waker -/

/-- A thread that the condition of the compare-exchange lets through is at no place. -/
theorem Linking.free_of_cas (hok : ActOK s (.cas t k)) (hb : s.state t = .blocked) : place t = .free ∧ s.onCpu t = false := by
  obtain ⟨hq, hp, hcpu⟩ := hok hb
  refine ⟨?_, hcpu⟩
  cases hpt : place t with
  | queue f =>
    cases f with
    | wait q =>
      obtain ⟨l, hl, hmem⟩ := h.chains.queue (.wait q)
      exact absurd ((mem_nodes_iff hl.linked).2 ((hmem t).2 hpt)) (hq q (h.blocked t q hpt).2)
    | run c =>
      rw [(h.ready t).2 (.inl ⟨c, hpt⟩)] at hb
      cases hb
  | priv i =>
    rcases pc_cases s i with hpc | ⟨a, ha, hpc⟩
    · exact absurd hpt (h.chains.priv_empty (by rw [hpc]; rfl) t)
    · have hpa := hp a ha
      rw [← hpc] at hpa
      exact absurd ((mem_private_iff (h.chains.private i)).1 hpt) (not_or.2 hpa)
  | pushing i =>
    rw [(h.ready t).2 (.inr ⟨i, hpt⟩)] at hb
    cases hb
  | free => rfl

end

section Waker

variable {i c : ℕ} {d : Bool} {a b : Actor n} (hi : s.actors[i]? = some a)
include hi

/-- What is seen of the wakers once waker `i` has gone on. -/
theorem actors_set (view : Option (Actor n) → β) (h : s'.actors = s.actors.set i b) :
    (fun j => view s'.actors[j]?) = update (fun j => view s.actors[j]?) i (view (some b)) := by
  funext j
  rw [h]
  by_cases hj : j = i
  · subst hj
    have hlen : j < s.actors.length := (List.getElem?_eq_some_iff.1 hi).1
    rw [getElem?_set_self hlen, update_self]
  · rw [getElem?_set_ne (Ne.symm hj), update_of_ne hj]

theorem pc_set (h : s'.actors = s.actors.set i b) :
    s'.pc = update s.pc i b.pc := actors_set hi (fun | some a => a.pc | none => .idle) h

theorem took_set (h : s'.actors = s.actors.set i b) :
    s'.took = update s.took i b.took := actors_set hi (fun | some a => a.took | none => []) h

theorem pc_goto (pc : Pc n) : (goto i a pc s).pc = update s.pc i pc := by
  have hset : (goto i a pc s).actors = s.actors.set i { a with pc := pc } := rfl
  exact pc_set hi hset

/-- A waker goes on with the same private list and nothing to push before or after. -/
theorem Linking.goto_same (h : Linking s place) (hset : s'.actors = s.actors.set i b)
    (hn : s'.next = s.next) (hq : s'.queues = s.queues) (hs : s'.state = s.state)
    (hb : ∀ t q, place t = .queue (.wait q) → s'.blockedOn t = s.blockedOn t) (hc : s'.onCpu = s.onCpu)
    (hw : b.pc.woken = a.pc.woken) (hu : b.pc.unlinks = a.pc.unlinks) (hp : b.pc.pushes = a.pc.pushes) :
    Linking s' place := by
  have hpc := pc_set hi hset
  have ha := pc_of_getElem? hi
  have hview : ∀ {β : Type} (view : Pc n → β), view b.pc = view a.pc → ∀ j, view (s'.pc j) = view (s.pc j) := by
    intro β view hv j
    rw [hpc]
    by_cases hj : j = i
    · subst hj
      rw [update_self, ha, hv]
    · rw [update_of_ne hj]
  exact h.same hn hq hs hb (fun t _ => by rw [hc]) (hview Pc.woken hw) (hview Pc.unlinks hu) (hview Pc.pushes hp)

theorem Linking.goto (h : Linking s place) {pc : Pc n} (hw : pc.woken = a.pc.woken)
    (hu : pc.unlinks = a.pc.unlinks) (hp : pc.pushes = a.pc.pushes) : Linking (goto i a pc s) place :=
  h.goto_same hi rfl rfl rfl rfl (fun _ _ _ => rfl) rfl hw hu hp

/-- What the private lists look like once waker `i` is at `pc`. -/
theorem held_set (hset : s'.actors = s.actors.set i b) :
    (fun j => (s'.pc j).lists) = update (fun j => (s.pc j).lists) i b.pc.lists := by
  rw [pc_set hi hset]
  exact view_update Pc.lists s.pc b.pc

/-- **Waker `i` moves one thread to another place.** -/
theorem Linking.moveBy (h : Linking s place) (hset : s'.actors = s.actors.set i b) (hx : Fits s' t x)
    (hc : Chains s'.next s'.queues
      (update (fun j => (s.pc j).lists) i b.pc.lists) (update place t x))
    (hs : ∀ u, u ≠ t → s'.state u = s.state u) (hb : ∀ u, u ≠ t → s'.blockedOn u = s.blockedOn u)
    (ho : ∀ u, u ≠ t → s'.onCpu u = s.onCpu u) (hother : ∀ j, j ≠ i → place t ≠ .pushing j)
    (hpa : ∀ u, a.pc.pushes = some u → u = t) (hpb : ∀ u, b.pc.pushes = some u → u = t)
    (hxp : ∀ j, x = .pushing j ↔ j = i ∧ b.pc.pushes = some t) : Linking s' (update place t x) := by
  have hpc := pc_set hi hset
  have hself : s'.pc i = b.pc := by rw [hpc, update_self]
  have helse : ∀ j, j ≠ i → s'.pc j = s.pc j := by
    intro j hj
    rw [hpc, update_of_ne hj]
  refine h.move hx (by rw [held_set hi hset]; exact hc) hs hb ho ?_ ?_
  · intro j
    rw [hxp j]
    by_cases hj : j = i
    · subst hj
      simp [hself]
    · rw [helse j hj]
      constructor
      · rintro ⟨e, -⟩
        exact absurd e hj
      · intro hp
        exact absurd ((h.pushing j t).2 hp) (hother j hj)
  · intro j u hu
    by_cases hj : j = i
    · subst hj
      rw [hself, pc_of_getElem? hi]
      exact ⟨fun e => absurd (hpb u e) hu, fun e => absurd (hpa u e) hu⟩
    · rw [helse j hj]

theorem update_held_same {pc pc' : Pc n} (ha : a.pc = pc) (h : pc'.lists = pc.lists) :
    update (fun j => (s.pc j).lists) i pc'.lists = fun j => (s.pc j).lists := by
  rw [h, ← ha, ← pc_of_getElem? hi]
  exact update_eq_self i _

variable (h : Linking s place)
include h

theorem Linking.wakeOne (ha : a.pc = .wakeOne q) : Kept (act i c d a s) place := by
  unfold act
  simp only [ha]
  split
  · apply Linking.kept
    apply h.goto hi <;> rw [ha] <;> rfl
  · rename_i t _ _ hp
    obtain ⟨hpt, hch⟩ := h.chains.pop hp
    have hb := (h.blocked t q hpt).1
    refine ⟨update place t .free, ?_, follows_update (by simp [hpt])⟩
    refine h.moveBy hi rfl (by simp [Fits, hb]) ?_ (fun _ _ => rfl) (fun _ _ => rfl) (fun _ _ => rfl) ?_ ?_ ?_ ?_
    · rw [update_held_same hi ha (by rfl)]
      exact hch .free (fun _ => Place.noConfusion) (fun _ => Place.noConfusion)
    all_goals simp [hpt, ha, Pc.pushes]

theorem Linking.wakeAll (ha : a.pc = .wakeAll q) : Kept (act i c d a s) place := by
  have hnone : (s.pc i).lists = (none, none) := by
    rw [pc_of_getElem? hi, ha]
    rfl
  have hch := h.chains.drain (.wait q) hnone
  have hpush : ∀ {s' : State n} {b : Actor n}, s'.actors = s.actors.set i b → b.pc.pushes = none →
    ∀ j, (s'.pc j).pushes = (s.pc j).pushes := by
    intro s' b hs' hb j
    rw [pc_set hi hs', update_apply]
    split
    · rename_i hj
      rw [hj, pc_of_getElem? hi, ha, hb]
      rfl
    · rfl
  obtain ⟨-, pushing, blocked, held, ready, offCpu⟩ := h
  unfold act
  simp only [ha]
  refine ⟨fun t => if place t = .queue (.wait q) then .priv i else place t, ⟨?_, ?_, ?_, ?_, ?_, offCpu⟩, ?_⟩
  · rw [held_set hi rfl]
    exact hch
  · intro j t
    rw [hpush rfl rfl, ← pushing j t]
    grind only
  · grind only
  · grind only
  · intro t
    rw [ready t]
    grind only
  · exact follows_of_priv fun j t ht => by simp [ht]

theorem Linking.loopAll (ha : a.pc = .loop (.all (some t))) : Kept (act i c d a s) place := by
  have hheld : (s.pc i).lists = (some t, none) := by
    rw [pc_of_getElem? hi, ha]
    rfl
  have hch := h.chains.takeOff hheld
  unfold act
  simp only [ha]
  apply Linking.kept
  refine { h with chains := ?_, pushing := ?_ }
  · rw [held_set hi rfl]
    exact hch
  · intro j u
    rw [h.pushing j u, pc_goto hi]
    by_cases hj : j = i
    · subst hj
      rw [update_self, pc_of_getElem? hi, ha]
      exact Iff.rfl
    · rw [update_of_ne hj]

theorem Linking.unlinkAll (ha : a.pc = .unlink t (.all w)) : Kept (act i c d a s) place := by
  have hheld : (s.pc i).lists = (w, some t) := by
    rw [pc_of_getElem? hi, ha]
    rfl
  have hpt : place t = .priv i := (hheld ▸ h.chains.private i).taken
  have hb := h.held t i hpt
  have hch := h.chains.clearLink hheld
  unfold act
  simp only [ha]
  refine ⟨update place t .free, ?_, ?_⟩
  · refine h.moveBy hi rfl (by simp [Fits, WaitQueue.goto, hb]) hch (fun _ _ => rfl) (fun _ _ => rfl)
      (fun _ _ => rfl) ?_ ?_ ?_ ?_
    all_goals simp [hpt, ha, Pc.pushes]
  · intro j u hu
    by_cases hut : u = t
    · subst hut
      cases hpt.symm.trans hu
      right
      rw [pc_set hi rfl, update_self]
      rfl
    · left
      rw [update_of_ne hut]
      exact hu

theorem Linking.locked (ha : a.pc = .locked t q k) (hok : ActOK s a.pc) : Kept (act i c d a s) place := by
  rw [ha] at hok
  unfold act
  simp only [ha]
  split
  · rename_i hblk
    obtain ⟨l, hl, hmem⟩ := h.chains.queue (.wait q)
    by_cases hpt : place t = .queue (.wait q)
    · have hch := h.chains.remove hpt
      have hb := (h.blocked t q hpt).1
      refine ⟨update place t .free, ?_, follows_update (by simp [hpt])⟩
      refine h.moveBy hi rfl (by simp [Fits, WaitQueue.goto, hb]) ?_ (fun _ _ => rfl) ?_ (fun _ _ => rfl) ?_ ?_ ?_ ?_
      · rw [update_held_same hi ha (by rfl)]
        exact hch
      · exact fun u hu => update_of_ne hu _ _
      all_goals simp [hpt, ha, Pc.pushes]
    · -- the thread is on another list, and it is the last one there
      have htl : t ∉ l := fun ht => hpt ((hmem t).1 ht)
      have hlast : s.next t = none := by
        rcases hok hblk with hm | hm
        · exact absurd ((mem_nodes_iff hl.linked).1 hm) htl
        · exact hm
      rw [hl.removeNode_of_not_mem htl]
      have hnext : update s.next t none = s.next := by
        rw [← hlast]
        exact update_eq_self t _
      apply Linking.kept
      refine h.goto_same hi rfl hnext (update_eq_self _ _) rfl ?_ rfl ?_ ?_ ?_
      · intro u q' hu
        have hq := (h.blocked u q' hu).2
        exact update_of_ne (by grind) _ _
      all_goals rw [ha]; rfl
  · apply Linking.kept
    apply h.goto hi <;> rw [ha] <;> rfl

theorem Linking.cas (ha : a.pc = .cas t k) (hok : ActOK s a.pc) : Kept (act i c d a s) place := by
  rw [ha] at hok
  unfold act
  simp only [ha]
  split
  · rename_i hb
    obtain ⟨hpt, hcpu⟩ := h.free_of_cas hok hb
    refine ⟨update place t (.pushing i), ?_, follows_update (by simp [hpt])⟩
    refine h.moveBy hi rfl ⟨update_self _ _ _, hcpu⟩ ?_ ?_ (fun _ _ => rfl) (fun _ _ => rfl) ?_ ?_ ?_ ?_
    · rw [update_held_same hi ha (by rfl)]
      apply h.chains.congr <;> grind [update_apply]
    · exact fun u hu => update_of_ne hu _ _
    all_goals simp [hpt, ha, Pc.pushes, eq_comm]
  · apply Linking.kept
    apply h.goto hi <;> rw [ha] <;> rfl

theorem Linking.pushAct (ha : a.pc = .push t k) : Kept (act i c d a s) place := by
  have hpt : place t = .pushing i := by
    rw [h.pushing, pc_of_getElem? hi, ha]
    rfl
  have hr : s.state t = .ready := (h.ready t).2 (.inr ⟨i, hpt⟩)
  have hcpu := h.offCpu t hr
  unfold act
  simp only [ha, hcpu]
  refine ⟨update place t (.queue (.run c)), ?_, follows_update (by simp [hpt])⟩
  refine h.moveBy hi rfl ⟨hr, hcpu⟩ ?_ (fun _ _ => rfl) (fun _ _ => rfl) (fun _ _ => rfl) ?_ ?_ ?_ ?_
  · rw [update_held_same hi ha (by rfl)]
    exact h.chains.push (.run c) (by simp [hpt]) (by simp [hpt])
  all_goals simp [hpt, ha, Pc.pushes, eq_comm]

/-- **Every step of a waker.** -/
theorem Linking.act (hok : ActOK s a.pc) : Kept (act i c d a s) place := by
  cases ha : a.pc with
  | wakeOne q => exact h.wakeOne hi ha
  | wakeAll q => exact h.wakeAll hi ha
  | locked t q k => exact h.locked hi ha hok
  | cas t k => exact h.cas hi ha hok
  | push t k => exact h.pushAct hi ha
  | loop k =>
    rcases k with _ | (_ | t) | (_ | t)
    case all.some => exact h.loopAll hi ha
    all_goals
      unfold WaitQueue.act
      simp only [ha]
      apply Linking.kept
      apply h.goto hi <;> rw [ha] <;> rfl
  | unlink t k =>
    cases k
    case all => exact h.unlinkAll hi ha
    all_goals
      unfold WaitQueue.act
      simp only [ha]
      apply Linking.kept
      refine h.goto_same hi rfl rfl rfl rfl (fun _ _ _ => rfl) rfl ?_ ?_ ?_ <;> rw [ha] <;> rfl
  | clear t k =>
    have hpu : place t = .pushing i := by
      rw [h.pushing, pc_of_getElem? hi, ha]
      rfl
    unfold WaitQueue.act
    simp only [ha]
    apply Linking.kept
    refine h.goto_same hi rfl rfl rfl rfl (fun u q hu => update_of_ne (by grind) _ _) rfl ?_ ?_ ?_ <;> rw [ha] <;> rfl
  | _ =>
    -- the places stay
    unfold WaitQueue.act
    simp only [ha]
    apply Linking.kept
    repeat' split
    all_goals first
      | exact h
      | (refine h.goto_same hi rfl rfl rfl rfl (fun _ _ _ => rfl) rfl ?_ ?_ ?_ <;> rw [ha] <;> rfl)

end Waker

/-! ## Every step -/

/-- A new waker starts at `pc`. -/
def State.launch (s : State n) (pc : Pc n) : State n := { s with actors := s.actors ++ [⟨pc, []⟩] }

/-- What a step does. -/
inductive Step (s : State n) : Event n → State n → Prop
  | stay {e : Event n} : Step s e s
  | time : Step s .time { s with ticks := s.ticks + 1 }
  | sleep {t : Fin n} {q : ℕ} (hs : s.sleep t = .out) :
      Step s (.sleep t q none) { s with sleep := update s.sleep t (.enter q false) }
  | late {t : Fin n} {q d : ℕ} : Step s (.sleep t q (some d)) { s with ret := update s.ret t etimedout }
  | sleepTimed {t : Fin n} {q d : ℕ} (hs : s.sleep t = .out) :
      Step s (.sleep t q (some d)) (timeoutAdd t d { s with sleep := update s.sleep t (.enter q true) })
  | giveUp {t : Fin n} {q : ℕ} {timed pending abort : Bool} {x : Sleep} {ret : Fin n → ℤ} (hs : s.sleep t = .enter q timed)
      (hx : timed → x.timed) : Step s (.enter t pending abort) { s with sleep := update s.sleep t x, ret := ret }
  | enter {t : Fin n} {q : ℕ} {timed pending abort : Bool} (hs : s.sleep t = .enter q timed) (hr : s.state t = .running) :
      Step s (.enter t pending abort) (waitqEnter t q timed false false s)
  | leave {t : Fin n} {c : ℕ} (hr : s.state t ≠ .ready) : Step s (.leave t c) { s with onCpu := update s.onCpu t false }
  | leavePush {t : Fin n} {c : ℕ} (hcpu : s.onCpu t) (hr : s.state t = .ready) :
      Step s (.leave t c) (readyPush c t { s with onCpu := update s.onCpu t false })
  | pop {t : Fin n} {c : ℕ} {next : Fin n → Option (Fin n)} {f : Fifo (Fin n)}
      (hp : Links.pop s.next (s.queues (.run c)) = (some t, next, f)) :
      Step s (.pop c) { s with
        next := next
        queues := update s.queues (.run c) f
        state := update s.state t .running
        onCpu := update s.onCpu t true }
  | resume {t : Fin n} {timed pending : Bool} {x : Sleep} {ret : Fin n → ℤ} (hs : s.sleep t = .asleep timed)
      (hr : s.state t = .running) (hx : timed → x.timed) :
      Step s (.resume t pending) { s with blockedOn := update s.blockedOn t none, sleep := update s.sleep t x, ret := ret }
  | unlist {t : Fin n} {rc : ℤ} : Step s (.unlist t) (timeoutReturn t rc s)
  | preempt {t : Fin n} {c : ℕ} (hr : s.state t = .running) :
      Step s (.preempt t c) (readyPush c t { s with state := update s.state t .ready, onCpu := update s.onCpu t false })
  | call {pc : Pc n} (hpc : pc.isStart) : Step s (.call pc) (s.launch pc)
  | act {i c : ℕ} {d : Bool} {a : Actor n} (hi : s.actors[i]? = some a) : Step s (.act i c d) (act i c d a s)

theorem sleepReturn_eq (t : Fin n) (timed : Bool) (rc : ℤ) (s : State n) :
    ∃ x ret, (timed → x.timed) ∧ sleepReturn t timed rc s = { s with sleep := update s.sleep t x, ret := ret } := by
  unfold sleepReturn
  split
  · exact ⟨.finish rc, s.ret, fun _ => rfl, rfl⟩
  · rename_i ht
    exact ⟨.out, _, fun h => absurd h ht, rfl⟩

theorem step_spec (s : State n) (e : Event n) : Step s e (step s e) := by
  cases e with
  | time => exact .time
  | sleep t q deadline =>
    simp only [step]
    split
    · rename_i h
      cases deadline with
      | none => exact .sleep h.2
      | some d =>
        simp only [waitqSleep]
        split
        · exact .late
        · exact .sleepTimed h.2
    · exact .stay
  | enter t pending abort =>
    simp only [step]
    split
    · rename_i q timed hs
      have hgive : ∀ rc, Step s (.enter t pending abort) (sleepReturn t timed rc s) := by
        intro rc
        obtain ⟨x, ret, hx, he⟩ := sleepReturn_eq t timed rc s
        rw [he]
        exact .giveUp hs hx
      split
      · rename_i hr
        cases pending with
        | true => exact hgive eintr
        | false =>
          cases abort with
          | true => exact hgive 0
          | false => exact .enter hs hr
      · exact .stay
    · exact .stay
  | leave t c =>
    simp only [step]
    split
    · rename_i h
      split
      · exact .leavePush h.1 ‹_›
      · exact .leave ‹_›
    · exact .stay
  | pop c =>
    simp only [step]
    split
    · exact .stay
    · exact .pop ‹_›
  | resume t pending =>
    simp only [step]
    split
    · rename_i timed hs
      split
      · obtain ⟨x, ret, hx, he⟩ := sleepReturn_eq t timed (if pending then eintr else 0)
          { s with blockedOn := update s.blockedOn t none }
        rw [he]
        exact .resume hs ‹_› hx
      · exact .stay
    · exact .stay
  | unlist t =>
    simp only [step]
    split
    · split
      · exact .unlist
      · exact .stay
    · exact .stay
  | preempt t c =>
    simp only [step]
    split
    · exact .preempt ‹_›
    · exact .stay
  | call pc =>
    simp only [step]
    split
    · exact .call ‹_›
    · exact .stay
  | act i c d =>
    simp only [step]
    split
    · exact .act ‹_›
    · exact .stay

theorem isStart_view {pc : Pc n} (h : pc.isStart) :
    pc.cont = .done ∧ pc.unlinks = none ∧ pc.unlists = none ∧ pc.pushes = none := by
  cases pc with
  | wakeOne | wakeAll | signal | timeoutTick => exact ⟨rfl, rfl, rfl, rfl⟩
  | _ => cases h

section

variable (h : Linking s place)
include h

theorem Linking.enqueue {f : QueueId} (ht : s.state t = .running) (hx : Fits s' t (.queue f))
    (hn : s'.next = (push s.next (s.queues f) t).1) (hq : s'.queues = update s.queues f (push s.next (s.queues f) t).2)
    (hs : ∀ u, u ≠ t → s'.state u = s.state u) (hb : ∀ u, u ≠ t → s'.blockedOn u = s.blockedOn u)
    (ho : ∀ u, u ≠ t → s'.onCpu u = s.onCpu u) (ha : s'.actors = s.actors) : Kept s' place := by
  have hpt := h.free_of_running ht
  have hpc := pc_congr ha
  refine ⟨update place t (.queue f), ?_, follows_update (by simp [hpt])⟩
  refine h.move hx ?_ hs hb ho ?_ ?_
  · rw [hn, hq, hpc]
    exact h.chains.push f (by simp [hpt]) (by simp [hpt])
  · simp [hpc, ← h.pushing, hpt]
  · simp [hpc]

theorem Linking.pop {c : ℕ} (hp : pop s.next (s.queues (.run c)) = (some t, next', f')) :
    Kept { s with
      next := next'
      queues := update s.queues (.run c) f'
      state := update s.state t .running
      onCpu := update s.onCpu t true } place := by
  obtain ⟨hpt, hch⟩ := h.chains.pop hp
  refine ⟨update place t .free, ?_, follows_update (by simp [hpt])⟩
  refine h.move (by simp [Fits]) ?_ ?_ (fun _ _ => rfl) ?_ ?_ (fun _ _ _ => Iff.rfl)
  · exact hch .free (fun _ => Place.noConfusion) (fun _ => Place.noConfusion)
  · exact fun u hu => update_of_ne hu _ _
  · exact fun u hu => update_of_ne hu _ _
  · intro i
    show Place.free = .pushing i ↔ (s.pc i).pushes = some t
    simp [← h.pushing i t, hpt]

theorem Linking.other (hn : s'.next = s.next) (hq : s'.queues = s.queues) (hs : s'.state = s.state)
    (hb : ∀ t q, place t = .queue (.wait q) → s'.blockedOn t = s.blockedOn t)
    (hc : ∀ t, s.state t = .ready → s'.onCpu t = s.onCpu t) (ha : s'.actors = s.actors) : Kept s' place := by
  have hpc := pc_congr ha
  apply Linking.kept
  apply h.same hn hq hs hb hc <;> intro i <;> rw [hpc]

theorem Linking.launch {pc : Pc n} (hcont : pc.cont = .done) (hu : pc.unlinks = none) (hp : pc.pushes = none) :
    Linking (s.launch pc) place := by
  have hw : pc.woken = Pc.idle.woken := by rw [Pc.woken, hcont]; rfl
  exact h.same rfl rfl rfl (fun _ _ _ => rfl) (fun _ _ => rfl) (view_append Pc.woken rfl hw) (view_append Pc.unlinks rfl hu)
    (view_append Pc.pushes rfl hp)

/-- **Every step keeps the places**, and no private list loses a thread. -/
theorem Linking.step {e : Event n} (hok : StepOK s e) : Kept (step s e) place := by
  have hstep := step_spec s e
  generalize WaitQueue.step s e = s' at hstep ⊢
  cases hstep with
  | stay => exact h.kept
  | time | sleep | late | sleepTimed | giveUp | unlist => exact h.other rfl rfl rfl (fun _ _ _ => rfl) (fun _ _ => rfl) rfl
  | @enter t q _ _ _ _ hr =>
    refine h.enqueue (f := .wait q) hr ⟨update_self _ _ _, update_self _ _ _⟩ rfl rfl ?_ ?_ (fun _ _ => rfl) rfl
    · exact fun u hu => update_of_ne hu _ _
    · exact fun u hu => update_of_ne hu _ _
  | leave hr =>
    refine h.other rfl rfl rfl (fun _ _ _ => rfl) ?_ rfl
    intro u hu
    apply update_of_ne
    rintro rfl
    exact hr hu
  | leavePush hcpu hr =>
    -- a thread that is ready has left its CPU
    rw [h.offCpu _ hr] at hcpu
    cases hcpu
  | pop hp => exact h.pop hp
  | resume _ hr =>
    refine h.other rfl rfl rfl (fun u q hu => update_of_ne ?_ _ _) (fun _ _ => rfl) rfl
    rintro rfl
    rw [h.free_of_running hr] at hu
    cases hu
  | @preempt t c hr =>
    refine h.enqueue (f := .run c) hr ⟨update_self _ _ _, update_self _ _ _⟩ rfl rfl ?_ (fun _ _ => rfl) ?_ rfl
    · exact fun u hu => update_of_ne hu _ _
    · exact fun u hu => update_of_ne hu _ _
  | call hpc =>
    obtain ⟨hcont, hu, -, hp⟩ := isStart_view hpc
    exact (h.launch hcont hu hp).kept
  | @act i c d a hi =>
    have hok' : ActOK s (s.pc i) := hok
    rw [pc_of_getElem? hi] at hok'
    exact h.act hi hok'

end

theorem Linking.initial : Linking (.initial n) fun _ => .free := by
  refine ⟨⟨?_, ?_⟩, ?_, nofun, nofun, ?_, nofun⟩
  · intro f
    exact ⟨[], ⟨rfl, rfl⟩, by simp⟩
  · intro i
    refine ⟨[], rfl, ?_, by simp⟩
    intro t
    simp [State.initial, State.pc, Pc.unlinks]
  · intro i t
    simp [State.initial, State.pc, Pc.pushes]
  · intro t
    simp [State.initial]

end NeoOS.WaitQueue
