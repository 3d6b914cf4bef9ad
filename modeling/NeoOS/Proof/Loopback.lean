import NeoOS.Lib.Run
import NeoOS.Spec.Loopback

/-!
# Loopback delivery

The counter of a thread is the number of its calls whose receiver runs (`Inv.calls`), and a packet that was handed over
is delivered, in the ring, taken from it or dropped (`Inv.once`). A thread whose outermost send has returned has no packet
in the ring; but another thread may have taken one and not delivered it yet (`packet_in_other_hands`).
-/

namespace NeoOS.Loopback

open List
open Function (update update_self update_of_ne)

variable {P : Type} {len : P → ℕ} {s : State P} {t u c : ℕ} {cs : List ℕ}

/-- The packets of thread `t`. -/
def of (t : ℕ) (l : List (ℕ × P)) : List (ℕ × P) := l.filter (·.1 == t)

/-- No packet that does not fit a slot is sent at the hard limit, and no outermost send returns while another thread has
taken a packet of its thread and not delivered it. -/
def Clear (len : P → ℕ) (s : State P) : Event P → Prop
  | .transmit t p => ¬ (deferSlot < len p ∧ hardDepth ≤ s.depth t)
  | .go t => s.depth t = 1 → s.queue = [] → ∀ x ∈ s.taken, x.2.1 = t → x.1 = t

theorem ret_cases (t : ℕ) (s : State P) : s.calls t = [] ∧ ret t s = s ∨
    (∃ c cs, s.calls t = c :: cs ∧ (s.depth t = 1 → s.queue = []) ∧
      ret t s = { s with depth := update s.depth t (s.depth t - 1), calls := update s.calls t cs }) ∨
    ∃ p queue, s.calls t ≠ [] ∧ s.depth t = 1 ∧ s.queue = p :: queue ∧
      ret t s = { s with queue := queue, taken := (t, p) :: s.taken } := by
  unfold ret
  split
  · next hc => exact .inl ⟨hc, rfl⟩
  · next hc hq => exact .inr (.inl ⟨_, _, hc, fun _ => hq, rfl⟩)
  · next hc hq =>
    split
    · next h1 => exact .inr (.inr ⟨_, _, hc ▸ cons_ne_nil _ _, h1, hq, rfl⟩)
    · next h1 => exact .inr (.inl ⟨_, _, hc, fun h1' => absurd h1' h1, rfl⟩)

theorem perm_cons_eraseP {α : Type} {f : α → Bool} {l : List α} {x : α}
    (h : l.find? f = some x) : l.Perm (x :: l.eraseP f) := by
  induction l with
  | nil => cases h
  | cons y l ih =>
    rw [find?_cons] at h
    rw [eraseP_cons]
    split at h
    · next hy =>
      cases h
      rw [hy]
      exact .refl _
    · next hy =>
      rw [hy]
      exact ((ih h).cons y).trans (.swap _ _ _)

/-! ## Nesting -/

/-- The counter of a thread is the number of its calls, each of which has kept the value from before. -/
structure Nested (s : State P) : Prop where
  calls : ∀ t, s.calls t = (List.range (s.depth t)).reverse
  hard : ∀ t, s.depth t ≤ hardDepth

theorem Nested.update {s' : State P} (h : Nested s) (hd : s'.depth = update s.depth t c) (hc : s'.calls = update s.calls t cs)
    (hcs : cs = (List.range c).reverse) (hle : c ≤ hardDepth) : Nested s' := by
  refine ⟨fun u => ?_, fun u => ?_⟩ <;> by_cases hu : u = t
  · rw [hu, hd, hc, update_self, update_self, hcs]
  · rw [hd, hc, update_of_ne hu, update_of_ne hu]
    exact h.calls u
  · rw [hu, hd, update_self]
    exact hle
  · rw [hd, update_of_ne hu]
    exact h.hard u

theorem Nested.length (h : Nested s) (t : ℕ) : (s.calls t).length = s.depth t := by
  rw [h.calls, length_reverse, length_range]

theorem Nested.top (h : Nested s) (hc : s.calls t = c :: cs) : s.depth t = c + 1 ∧ cs = (List.range c).reverse := by
  have hcalls := h.calls t
  cases hd : s.depth t with
  | zero =>
    rw [hc, hd] at hcalls
    cases hcalls
  | succ d =>
    rw [hc, hd, range_succ, reverse_append] at hcalls
    cases hcalls
    exact ⟨rfl, rfl⟩

theorem Nested.step (h : Nested s) (e : Event P) : Nested (step len s e) := by
  cases e with
  | transmit t p =>
    simp only [Loopback.step, Loopback.transmit]
    split
    · exact h
    split
    · split <;> exact ⟨h.calls, h.hard⟩
    · next hroom =>
      refine h.update rfl rfl ?_ ?_
      · rw [range_succ, reverse_append, ← h.calls]
        rfl
      · have := h.hard t
        simp only [maxDepth, hardDepth] at hroom this ⊢
        omega
  | go t =>
    simp only [Loopback.step]
    split
    · exact ⟨h.calls, h.hard⟩
    · -- a call that returns gives the counter its value from before
      rcases ret_cases t s with ⟨-, heq⟩ | ⟨c, cs, hc, -, heq⟩ | ⟨p, queue, -, -, -, heq⟩ <;> rw [heq]
      · exact h
      · refine h.update rfl rfl ?_ (Nat.le_trans (Nat.sub_le _ _) (h.hard t))
        rw [(h.top hc).1]
        exact (h.top hc).2
      · exact ⟨h.calls, h.hard⟩

/-- What is left for thread `t` to do when its receivers send nothing more. -/
def left (s : State P) (t : ℕ) : ℕ := s.depth t + 2 * s.queue.length + s.taken.countP (·.1 == t)

theorem go_left (h : Nested s) (hc : s.calls t ≠ []) : left (step len s (.go t)) t < left s t := by
  unfold left
  simp only [step]
  split
  · next x hx =>
    have hcount := (perm_cons_eraseP hx).countP_eq (·.1 == t)
    rw [countP_cons_of_pos (find?_some hx)] at hcount
    dsimp only
    omega
  · rcases ret_cases t s with ⟨hnil, -⟩ | ⟨c, cs, hcs, -, heq⟩ | ⟨p, queue, -, -, hq, heq⟩
    · exact absurd hnil hc
    · have := (h.top hcs).1
      rw [heq]
      simp only [update_self]
      omega
    · rw [heq, hq, length_cons]
      simp only [countP_cons_of_pos, beq_self_eq_true]
      omega

theorem go_idle (hc : s.calls t = []) : (step len s (.go t)).calls t = [] := by
  simp only [step]
  split
  · exact hc
  · rcases ret_cases t s with ⟨-, heq⟩ | ⟨c, cs, hcs, -⟩ | ⟨p, queue, hne, -⟩
    · rw [heq]
      exact hc
    · rw [hc] at hcs
      cases hcs
    · exact absurd hc hne

theorem Nested.ends {n : ℕ} (h : Nested s) (hn : s.calls t = [] ∨ left s t ≤ n) :
    (Run.final (Loopback.step len) s (List.replicate n (.go t))).calls t = [] := by
  induction n generalizing s with
  | zero =>
    rcases hn with hc | hn
    · exact hc
    · have hd : s.depth t = 0 := by unfold left at hn; omega
      rw [replicate_zero, Run.final_nil, h.calls, hd]
      rfl
  | succ n ih =>
    rw [replicate_succ, Run.final_cons]
    refine ih (h.step (.go t)) ?_
    by_cases hc : s.calls t = []
    · exact .inl (go_idle hc)
    · have hlt : left (Loopback.step len s (.go t)) t < left s t := go_left h hc
      have hle := hn.resolve_left hc
      exact .inr (by omega)

/-! ## Delivery -/

structure Inv (s : State P) : Prop where
  once : s.sent.Perm (s.delivered ++ (s.queue ++ (s.taken.map Prod.snd ++ s.dropped)))
  counted : s.statLoopDropped = s.dropped.length
  /-- a packet waits only while its thread is in the outermost send -/
  queued : ∀ x ∈ s.queue, s.depth x.1 ≠ 0
  taken : ∀ x ∈ s.taken, s.depth x.2.1 ≠ 0

theorem update_ne_zero {f : ℕ → ℕ} (hu : f u ≠ 0) (hc : u = t → c ≠ 0) : update f t c u ≠ 0 := by
  by_cases hut : u = t
  · rw [hut, update_self]
    exact hc hut
  · rwa [update_of_ne hut]

theorem Inv.transmit (h : Inv s) (t : ℕ) (p : P) : Inv (transmit len t p { s with sent := (t, p) :: s.sent }) := by
  unfold Loopback.transmit
  split
  · next hdeep =>
    have hpos : s.depth t ≠ 0 := fun h0 => absurd (h0 ▸ hdeep.1 : maxDepth ≤ 0) (by decide)
    split
    · refine ⟨?_, h.counted, fun x hx => ?_, h.taken⟩
      · rw [append_assoc]
        exact ((h.once.cons _).trans perm_middle.symm).trans (perm_middle.symm.append_left _)
      · rcases mem_append.1 hx with hx | hx
        · exact h.queued x hx
        · rw [mem_singleton.1 hx]
          exact hpos
    · refine ⟨?_, congrArg (· + 1) h.counted, h.queued, h.taken⟩
      refine (h.once.cons _).trans (perm_middle.symm.trans (.append_left _ ?_))
      exact perm_middle.symm.trans (perm_middle.symm.append_left _)
  · exact ⟨h.once.cons _, h.counted, fun x hx => update_ne_zero (h.queued x hx) fun _ => Nat.succ_ne_zero _,
      fun x hx => update_ne_zero (h.taken x hx) fun _ => Nat.succ_ne_zero _⟩

theorem Inv.ret (h : Inv s) (hnone : s.taken.find? (·.1 == t) = none) (hok : Clear len s (.go t)) : Inv (ret t s) := by
  rcases ret_cases t s with ⟨-, heq⟩ | ⟨c, cs, hc, hq, heq⟩ | ⟨p, queue, -, h1, hq, heq⟩ <;> rw [heq]
  · exact h
  · refine ⟨h.once, h.counted, fun x hx => update_ne_zero (h.queued x hx) fun hxt h0 => ?_,
      fun x hx => update_ne_zero (h.taken x hx) fun hxt h0 => ?_⟩
    · have hpos := h.queued x hx
      rw [hxt] at hpos
      rw [hq (by omega)] at hx
      cases hx
    · -- the thread itself has taken nothing
      have hpos := h.taken x hx
      rw [hxt] at hpos
      have h1 : s.depth t = 1 := by omega
      exact find?_eq_none.1 hnone x hx (beq_iff_eq.2 (hok h1 (hq h1) x hx hxt))
  · have honce := h.once
    rw [hq] at honce
    refine ⟨honce.trans (.append_left _ perm_middle.symm), h.counted,
      fun x hx => h.queued x (hq ▸ mem_cons_of_mem _ hx), fun x hx => ?_⟩
    rcases mem_cons.1 hx with rfl | hx
    · exact h.queued p (hq ▸ mem_cons_self)
    · exact h.taken x hx

theorem Inv.step (h : Inv s) (e : Event P) (hok : Clear len s e) : Inv (step len s e) := by
  cases e with
  | transmit t p =>
    simp only [Loopback.step]
    split
    · exact h
    · exact h.transmit t p
  | go t =>
    simp only [Loopback.step]
    split
    · next x hx =>
      refine ⟨?_, h.counted, h.queued, fun y hy => h.taken y (mem_of_mem_eraseP hy)⟩
      have hrest := (((perm_cons_eraseP hx).map Prod.snd).append_right s.dropped).append_left s.queue
      exact (h.once.trans (hrest.append_left _)).trans ((perm_middle.append_left _).trans perm_middle)
    · next hnone => exact h.ret hnone hok

/-- What holds in every state. -/
structure Sound (len : P → ℕ) (s : State P) : Prop where
  nests : ∀ t, s.depth t = (s.calls t).length ∧ (s.calls t).length ≤ hardDepth
  restored : ∀ e t c cs, s.calls t = c :: cs → (step len s e).calls t = cs → (step len s e).depth t = c
  /-- when no send of a thread is under way, each packet of the thread has been delivered once or dropped -/
  outermost : ∀ t, s.calls t = [] → (of t s.sent).Perm (of t s.delivered ++ of t s.dropped)
  /-- the senders done, every call returns -/
  returns : ∀ t, ∃ n, (Run.final (step len) s (List.replicate n (.go t))).calls t = []
  counted : s.statLoopDropped = s.dropped.length
  /-- a packet is dropped when the queue is full -/
  drops : ∀ e, Clear len s e → (step len s e).dropped ≠ s.dropped → deferMax ≤ s.queue.length

theorem Inv.outermost (h : Inv s) (hd : s.depth t = 0) : (of t s.sent).Perm (of t s.delivered ++ of t s.dropped) := by
  have hq : of t s.queue = [] := filter_eq_nil_iff.2 fun x hx hxt => h.queued x hx (beq_iff_eq.1 hxt ▸ hd)
  have ht : of t (s.taken.map Prod.snd) = [] := by
    refine filter_eq_nil_iff.2 fun y hy hyt => ?_
    obtain ⟨x, hx, rfl⟩ := mem_map.1 hy
    exact h.taken x hx (beq_iff_eq.1 hyt ▸ hd)
  have honce := h.once.filter (·.1 == t)
  simp only [filter_append] at honce
  rwa [show filter (·.1 == t) s.queue = [] from hq, show filter (·.1 == t) (s.taken.map Prod.snd) = [] from ht] at honce

theorem drops_full {e : Event P} (hok : Clear len s e) (hne : (step len s e).dropped ≠ s.dropped) :
    deferMax ≤ s.queue.length := by
  cases e with
  | transmit t p =>
    simp only [step, transmit, Clear] at hne hok
    split at hne
    · exact absurd rfl hne
    split at hne
    · split at hne
      · exact absurd rfl hne
      · omega
    · exact absurd rfl hne
  | go t =>
    refine absurd ?_ hne
    simp only [step]
    split
    · rfl
    · rcases ret_cases t s with ⟨-, heq⟩ | ⟨c, cs, -, -, heq⟩ | ⟨p, queue, -, -, -, heq⟩ <;> rw [heq]

/-- **Loopback delivery**, for every number of threads, of receivers and of packets, as long as no outermost send returns
while another thread has one of its packets in hand. -/
theorem loopback_run (len : P → ℕ) (es : List (Event P)) (hrun : Run.Valid (step len) (Clear len) initial es) :
    Sound len (Run.final (step len) initial es) := by
  have h := hrun.invariant (I := Inv) (fun _ e h hok => h.step e hok) ⟨.refl _, rfl, nofun, nofun⟩
  have hn := hrun.invariant (I := Nested) (fun _ e h _ => h.step e) ⟨fun _ => rfl, fun _ => Nat.zero_le _⟩
  generalize Run.final (step len) initial es = s at h hn
  refine ⟨fun t => ⟨(hn.length t).symm, hn.length t ▸ hn.hard t⟩, fun e t c cs hc hcs => ?_, fun t hc => ?_,
    fun t => ⟨_, hn.ends (.inr (Nat.le_refl _))⟩, h.counted, fun e hok hne => drops_full hok hne⟩
  · have hlen : _ = (step len s e).depth t := (hn.step e).length t
    rw [hcs, (hn.top hc).2, length_reverse, length_range] at hlen
    exact hlen.symm
  · exact h.outermost ((hn.length t).symm.trans (congrArg List.length hc))

instance decidableClear (len : P → ℕ) (s : State P) (e : Event P) : Decidable (Clear len s e) := by
  cases e <;> unfold Clear <;> infer_instance

/-- Thread 0 sends five packets, each but the first from the receiver of the one before, and the last waits in the ring.
Thread 1 sends a packet of its own, and its outermost frame takes that one. -/
def sharedRun : List (Event ℕ) := List.replicate 5 (.transmit 0 100) ++ [.transmit 1 100, .go 1]

/-- Thread 1 delivers the packet before thread 0 returns. -/
theorem loopback_run_shared :
    let s := Run.final (step id) initial (sharedRun ++ .go 1 :: .go 1 :: List.replicate 4 (.go 0))
    s.calls 0 = [] ∧ (of 0 s.delivered).length = 5 ∧ (of 0 s.sent).Perm (of 0 s.delivered ++ of 0 s.dropped) := by
  have h := loopback_run id (sharedRun ++ .go 1 :: .go 1 :: List.replicate 4 (.go 0)) (by decide)
  exact ⟨by decide, by decide, h.outermost 0 (by decide)⟩

/-- Thread 1 is preempted with the packet in hand, and the outermost send of thread 0 returns without its delivery. And of
nine packets that do not fit a slot, each sent by the receiver of the one before, the last is lost with an empty ring. -/
theorem packet_in_other_hands :
    let s := Run.final (step id) initial (sharedRun ++ List.replicate 4 (.go 0))
    let big := Run.final (step id) initial (List.replicate 9 (.transmit 0 3000))
    (s.calls 0 = [] ∧ (of 0 s.sent).length = 5 ∧ (of 0 s.delivered).length = 4 ∧ s.dropped = []) ∧
      big.queue = [] ∧ big.dropped = [(0, 3000)] := by
  decide

end NeoOS.Loopback
