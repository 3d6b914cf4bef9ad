import Mathlib.Data.List.Pairwise
import Mathlib.Data.Prod.Lex
import NeoOS.Lib.Run
import NeoOS.Lib.WaitFor
import NeoOS.Spec.Spinlock

/-!
# Lock ranks exclude deadlock

Locks are ordered by rank and, within a rank, by address. The locks a CPU holds go up in this order, since `lock_rank_ok`
compares with the innermost only and a pair is taken in address order. So a CPU that spins does so for a lock above all
it holds, and a cycle of waits would go up for ever.

* `CpuOK.step_go`, `CpuOK.step_call`: the steps of a CPU keep its stack in order.
* `Inv.step`: also, the lock words say who holds what.
* `no_deadlock`: no run leads to a cycle.
* `locks_exclusive`: two CPUs never hold one lock.
-/

namespace NeoOS.Spinlock

open List
open Function (update update_of_ne update_self)
open Run (Valid final)

variable {κ : Type*} {rank : ℕ → ℕ} {x : Cpu} {l m : ℕ} {held : List ℕ}

/-! ## Deadlock -/

/-- The lock a CPU spins for. -/
def Pc.target : Pc → Option ℕ
  | .spin l _ | .spinFirst l _ _ | .spinSecond _ l _ => some l
  | _ => none

/-- CPU `c` spins for a lock that CPU `d` holds. -/
def State.Waits (s : State κ) : κ → κ → Prop :=
  WaitFor.Edge (fun c => { l | (s.cpu c).pc.target = some l }) (fun c => { l | l ∈ (s.cpu c).held })

/-- A cycle of CPUs each spinning for a lock held by the next. -/
def State.Deadlock (s : State κ) : Prop := ∃ c, Relation.TransGen s.Waits c c

/-! ## The programs -/

/-- A pair has equal ranks, and a CPU releases what it took last. -/
def Disciplined (rank : ℕ → ℕ) (s : State κ) : Event κ → Prop
  | .call c op =>
    match op with
    | .lock _ => True
    | .lockPair a b => rank a = rank b
    | .unlock l => (s.cpu c).held = [] ∨ (s.cpu c).held.head? = some l
    | .unlockPair a b => (s.cpu c).held.length < 2 ∨ (s.cpu c).held.take 2 = [max a b, min a b]
  | .go _ => True

instance (s : State κ) (e : Event κ) : Decidable (Disciplined rank s e) :=
  match e with
  | .call _ (.lock _) | .go _ => isTrue trivial
  | .call _ (.lockPair ..) => inferInstanceAs (Decidable (_ = _))
  | .call _ (.unlock _) | .call _ (.unlockPair ..) => inferInstanceAs (Decidable (_ ∨ _))

/-! ## The order of the locks -/

/-- By rank, and by address within a rank. -/
def key (rank : ℕ → ℕ) (l : ℕ) : ℕ ×ₗ ℕ := toLex (rank l, l)

theorem key_lt : key rank m < key rank l ↔ rank m < rank l ∨ rank m = rank l ∧ m < l := Prod.Lex.toLex_lt_toLex

theorem key_lt_of_rank (h : rank m < rank l) : key rank m < key rank l := key_lt.2 (.inl h)

theorem rank_le_of_key (h : key rank m < key rank l) : rank m ≤ rank l := by
  rcases key_lt.1 h with h | h
  · exact h.le
  · exact h.1.le

/-- Innermost first, the locks go down. -/
def Ordered (rank : ℕ → ℕ) (held : List ℕ) : Prop := held.Pairwise fun a b => key rank b < key rank a

/-- `lock_rank_ok` compares with the innermost lock, which has the highest rank. -/
theorem Ordered.rank_lt (h : Ordered rank held) {r : ℕ} (hok : lockRankOk (held.map rank) r) : ∀ m ∈ held, rank m < r := by
  cases held with
  | nil => nofun
  | cons top rest =>
    have htop : rank top < r := by simpa [lockRankOk] using hok
    intro m hm
    rcases mem_cons.1 hm with rfl | hm
    · exact htop
    · exact (rank_le_of_key (rel_of_pairwise_cons h hm)).trans_lt htop

theorem Ordered.cons (h : Ordered rank held) (hl : ∀ m ∈ held, key rank m < key rank l) : Ordered rank (l :: held) :=
  pairwise_cons.2 ⟨hl, h⟩

theorem Ordered.notMem (h : Ordered rank (l :: held)) : l ∉ held := fun hm =>
  lt_irrefl _ (rel_of_pairwise_cons h hm)

/-! ## One CPU -/

/-- What is known of a CPU. -/
def CpuOK (rank : ℕ → ℕ) (x : Cpu) : Prop :=
  Ordered rank x.held ∧ match x.pc with
    | .out => x.heldRanks = x.held.map rank
    | .spin l _ => x.heldRanks = x.held.map rank ∧ ∀ m ∈ x.held, rank m < rank l
    | .spinFirst first second _ =>
      x.heldRanks = x.held.map rank ∧ (∀ m ∈ x.held, rank m < rank first) ∧ first < second ∧ rank first = rank second
    | .spinSecond first second _ =>
      (∃ rest, x.held = first :: rest ∧ x.heldRanks = rest.map rank ∧ ∀ m ∈ rest, rank m < rank first) ∧ first < second ∧
        rank first = rank second
    | .release first => ∃ rest, x.held = first :: rest ∧ x.heldRanks = rest.map rank
    | .halted _ => True

theorem CpuOK.below (h : CpuOK rank x) (hl : x.pc.target = some l) : ∀ m ∈ x.held, key rank m < key rank l := by
  obtain ⟨-, hpc⟩ := h
  intro m hm
  cases hx : x.pc with
  | spin l' spins =>
    rw [hx] at hl hpc
    cases hl
    exact key_lt_of_rank (hpc.2 m hm)
  | spinFirst first second spins =>
    rw [hx] at hl hpc
    cases hl
    exact key_lt_of_rank (hpc.2.1 m hm)
  | spinSecond first second spins =>
    rw [hx] at hl hpc
    cases hl
    obtain ⟨⟨rest, hheld, -, hrest⟩, hlt, hrank⟩ := hpc
    rw [hheld] at hm
    rcases mem_cons.1 hm with rfl | hm
    · exact key_lt.2 (.inr ⟨hrank, hlt⟩)
    · exact key_lt_of_rank (hrank ▸ hrest m hm)
  | _ =>
    rw [hx] at hl
    cases hl

theorem CpuOK.panic (h : CpuOK rank x) (why : Panic) : CpuOK rank (x.panic why) := ⟨h.1, trivial⟩

theorem CpuOK.spinLock (h : CpuOK rank x) (hout : x.pc = .out) (l : ℕ) : CpuOK rank (spinLockIrqsave rank l x) := by
  have hranks : x.heldRanks = x.held.map rank := by
    have hpc := h.2
    rwa [hout] at hpc
  unfold spinLockIrqsave
  split
  · exact h.panic _
  rename_i hok
  split
  · exact h.panic _
  · rw [not_not, hranks] at hok
    exact ⟨h.1, hranks, h.1.rank_lt hok⟩

theorem first_eq (a b : ℕ) : (if a < b then a else b) = min a b := by
  split <;> omega

theorem second_eq (a b : ℕ) : (if a < b then b else a) = max a b := by
  split <;> omega

theorem spinLock_held (x : Cpu) (l : ℕ) : (spinLockIrqsave rank l x).held = x.held := by
  unfold spinLockIrqsave
  split
  · rfl
  · split <;> rfl

theorem spinLockPair_held (x : Cpu) (a b : ℕ) : (spinLockOrderedPair rank a b x).held = x.held := by
  simp only [spinLockOrderedPair, first_eq, second_eq]
  split
  · rfl
  split
  · rfl
  · split <;> rfl

theorem CpuOK.spinLockPair (h : CpuOK rank x) (hout : x.pc = .out) {a b : ℕ} (hab : rank a = rank b) :
    CpuOK rank (spinLockOrderedPair rank a b x) := by
  have hranks : x.heldRanks = x.held.map rank := by
    have hpc := h.2
    rwa [hout] at hpc
  simp only [spinLockOrderedPair, first_eq, second_eq]
  split
  · exact h.panic _
  rename_i hne
  split
  · exact h.panic _
  rename_i hok
  split
  · exact h.panic _
  · rw [not_not, hranks] at hok
    refine ⟨h.1, hranks, h.1.rank_lt hok, ?_, ?_⟩
    · omega
    · rcases le_total a b with hle | hle
      · rw [min_eq_left hle, max_eq_right hle, hab]
      · rw [min_eq_right hle, max_eq_left hle, hab]

/-! ## The steps -/

structure Inv (rank : ℕ → ℕ) (s : State κ) : Prop where
  cpus : ∀ c, CpuOK rank (s.cpu c)
  /-- the lock words say which locks are held -/
  locked : ∀ l, s.locked l ↔ ∃ c, l ∈ (s.cpu c).held
  /-- by one CPU each -/
  one : ∀ c d l, l ∈ (s.cpu c).held → l ∈ (s.cpu d).held → c = d

theorem Inv.initial : Inv rank (.initial : State κ) := by
  refine ⟨fun _ => ⟨List.Pairwise.nil, rfl⟩, ?_, nofun⟩
  intro l
  constructor
  · nofun
  · rintro ⟨c, hc⟩
    cases hc

variable [DecidableEq κ] {s : State κ} {c : κ}

theorem set_cpu_self (x : Cpu) : (s.set c x).cpu c = x := update_self _ _ _

theorem set_cpu_of_ne {d : κ} (h : d ≠ c) (x : Cpu) : (s.set c x).cpu d = s.cpu d := update_of_ne h _ _

theorem cpus_set (h : ∀ c, CpuOK rank (s.cpu c)) (hx : CpuOK rank x) (d : κ) : CpuOK rank ((s.set c x).cpu d) := by
  by_cases hd : d = c
  · subst hd
    rw [set_cpu_self]
    exact hx
  · rw [set_cpu_of_ne hd]
    exact h d

section Moves

variable (h : Inv rank s)
include h

theorem Inv.set (hx : CpuOK rank x) (hheld : x.held = (s.cpu c).held) : Inv rank (s.set c x) := by
  have hsame : ∀ d, ((s.set c x).cpu d).held = (s.cpu d).held := by
    intro d
    by_cases hd : d = c
    · subst hd
      rw [set_cpu_self, hheld]
    · rw [set_cpu_of_ne hd]
  refine ⟨cpus_set h.cpus hx, ?_, ?_⟩
  · intro l
    simp only [hsame]
    exact h.locked l
  · intro d d' l
    rw [hsame, hsame]
    exact h.one d d' l

theorem Inv.take (hfree : s.locked l = false) (hx : CpuOK rank x) (hheld : x.held = l :: (s.cpu c).held) :
    Inv rank { s.set c x with locked := update s.locked l true } := by
  have hno : ∀ d, l ∉ (s.cpu d).held := fun d hd => by
    rw [(h.locked l).2 ⟨d, hd⟩] at hfree
    cases hfree
  have hmem : ∀ d m, m ∈ ((s.set c x).cpu d).held ↔ d = c ∧ m = l ∨ m ∈ (s.cpu d).held := by
    intro d m
    by_cases hd : d = c
    · subst hd
      rw [set_cpu_self, hheld, mem_cons]
      simp
    · rw [set_cpu_of_ne hd]
      simp [hd]
  refine ⟨cpus_set h.cpus hx, ?_, ?_⟩
  · intro m
    show update s.locked l true m ↔ ∃ d, m ∈ ((s.set c x).cpu d).held
    by_cases hm : m = l
    · subst hm
      rw [update_self]
      exact ⟨fun _ => ⟨c, (hmem c m).2 (.inl ⟨rfl, rfl⟩)⟩, fun _ => rfl⟩
    · rw [update_of_ne hm, h.locked m]
      simp only [hmem, hm, and_false, false_or]
  · intro d d' m hd hd'
    rcases (hmem d m).1 hd with ⟨rfl, rfl⟩ | hold
    · rcases (hmem d' m).1 hd' with ⟨rfl, -⟩ | hold'
      · rfl
      · exact absurd hold' (hno d')
    · rcases (hmem d' m).1 hd' with ⟨-, rfl⟩ | hold'
      · exact absurd hold (hno d)
      · exact h.one d d' m hold hold'

theorem Inv.give {rest : List ℕ} (hold : (s.cpu c).held = l :: rest) (hx : CpuOK rank x) (hheld : x.held = rest) :
    Inv rank { s.set c x with locked := update s.locked l false } := by
  have hl : l ∉ rest := by
    have hord := (h.cpus c).1
    rw [hold] at hord
    exact hord.notMem
  have hc : l ∈ (s.cpu c).held := by
    rw [hold]
    exact mem_cons_self
  have hmem : ∀ d m, m ∈ ((s.set c x).cpu d).held ↔ m ≠ l ∧ m ∈ (s.cpu d).held := by
    intro d m
    by_cases hd : d = c
    · subst hd
      rw [set_cpu_self, hheld, hold, mem_cons]
      constructor
      · intro hm
        refine ⟨?_, .inr hm⟩
        rintro rfl
        exact hl hm
      · rintro ⟨hne, rfl | hm⟩
        · exact absurd rfl hne
        · exact hm
    · rw [set_cpu_of_ne hd]
      constructor
      · intro hm
        refine ⟨?_, hm⟩
        rintro rfl
        exact hd (h.one d c m hm hc)
      · exact And.right
  refine ⟨cpus_set h.cpus hx, ?_, ?_⟩
  · intro m
    show update s.locked l false m ↔ ∃ d, m ∈ ((s.set c x).cpu d).held
    by_cases hm : m = l
    · subst hm
      rw [update_self]
      simp [hmem]
    · rw [update_of_ne hm, h.locked m]
      simp only [hmem, ne_eq, hm, not_false_eq_true, true_and]
  · intro d d' m hd hd'
    exact h.one d d' m ((hmem d m).1 hd).2 ((hmem d' m).1 hd').2

theorem Inv.acquire {spins : ℕ} {again : ℕ → Pc} {got : Cpu → Cpu} (hagain : ∀ k, CpuOK rank { s.cpu c with pc := again k })
    (hgot : CpuOK rank (got { s.cpu c with held := l :: (s.cpu c).held }))
    (hheld : ∀ y, (got y).held = y.held) : Inv rank (acquire c l spins again got s) := by
  unfold Spinlock.acquire
  split
  · split
    · exact h.set ((h.cpus c).panic _) rfl
    · exact h.set (hagain _) rfl
  · rename_i hfree
    exact h.take (Bool.eq_false_iff.2 hfree) hgot (hheld _)

theorem Inv.go (c : κ) : Inv rank (step rank s (.go c)) := by
  have hc := h.cpus c
  have hbelow := fun l => hc.below (l := l)
  obtain ⟨hord, hpc⟩ := hc
  simp only [step]
  cases hx : (s.cpu c).pc with
  | spin l spins =>
    rw [hx] at hpc hbelow
    refine h.acquire (fun _ => ⟨hord, hpc⟩) ⟨hord.cons (hbelow l rfl), ?_⟩ (fun _ => rfl)
    rw [hpc.1]
    rfl
  | spinFirst first second spins =>
    rw [hx] at hpc hbelow
    exact h.acquire (fun _ => ⟨hord, hpc⟩)
      ⟨hord.cons (hbelow first rfl), ⟨(s.cpu c).held, rfl, hpc.1, hpc.2.1⟩, hpc.2.2.1, hpc.2.2.2⟩ (fun _ => rfl)
  | spinSecond first second spins =>
    rw [hx] at hpc hbelow
    refine h.acquire (fun _ => ⟨hord, hpc⟩) ⟨hord.cons (hbelow second rfl), ?_⟩ (fun _ => rfl)
    obtain ⟨⟨rest, hheld, hranks, -⟩, -⟩ := hpc
    rw [hranks, hheld]
    rfl
  | release first =>
    rw [hx] at hpc
    obtain ⟨rest, hheld, hranks⟩ := hpc
    have herase : (s.cpu c).held.erase first = rest := by rw [hheld, erase_cons_head]
    have hrest : Ordered rank rest := by
      rw [hheld] at hord
      exact (pairwise_cons.1 hord).2
    refine h.give hheld ⟨?_, ?_⟩ herase
    · rw [herase]
      exact hrest
    · show (s.cpu c).heldRanks = ((s.cpu c).held.erase first).map rank
      rw [herase, hranks]
  | _ => exact h

theorem Inv.call {op : Op} (hok : Disciplined rank s (.call c op)) : Inv rank (step rank s (.call c op)) := by
  have hc := h.cpus c
  simp only [step]
  cases hx : (s.cpu c).pc with
  | out =>
    have hranks : (s.cpu c).heldRanks = (s.cpu c).held.map rank := by
      have hpc := hc.2
      rwa [hx] at hpc
    cases op with
    | lock l =>
      exact h.set (hc.spinLock hx l) (spinLock_held _ _)
    | lockPair a b =>
      exact h.set (hc.spinLockPair hx hok) (spinLockPair_held _ _ _)
    | unlock l =>
      simp only [spinUnlockIrqrestore]
      split
      · exact h.set (hc.panic _) rfl
      rename_i hlen
      rcases hok with hnil | hhead
      · rw [hranks, hnil] at hlen
        exact absurd rfl hlen
      · obtain ⟨rest, hheld⟩ := head?_eq_some_iff.1 hhead
        have herase : (s.cpu c).held.erase l = rest := by rw [hheld, erase_cons_head]
        have hord := hc.1
        rw [hheld] at hord
        refine h.give hheld ⟨?_, ?_⟩ herase
        · rw [herase]
          exact (pairwise_cons.1 hord).2
        · rw [hx]
          rw [herase, hranks, hheld]
          rfl
    | unlockPair a b =>
      simp only [spinUnlockOrderedPair]
      split
      · exact h.set (hc.panic _) rfl
      rename_i hlen
      rw [hranks, length_map] at hlen
      rcases hok with hfew | htop
      · exact absurd hfew hlen
      rw [first_eq, second_eq]
      have hheld : (s.cpu c).held = max a b :: min a b :: (s.cpu c).held.drop 2 := by
        have hsplit := take_append_drop 2 (s.cpu c).held
        rw [htop] at hsplit
        exact hsplit.symm
      have herase : (s.cpu c).held.erase (max a b) = min a b :: (s.cpu c).held.drop 2 := by
        rw [hheld, erase_cons_head]
        rfl
      have hord := hc.1
      rw [hheld] at hord
      refine h.give hheld ⟨?_, (s.cpu c).held.drop 2, herase, ?_⟩ herase
      · rw [herase]
        exact (pairwise_cons.1 hord).2
      · show (s.cpu c).heldRanks.drop 2 = _
        rw [hranks, map_drop]
  | _ => exact h

theorem Inv.step {e : Event κ} (hok : Disciplined rank s e) : Inv rank (step rank s e) := by
  cases e with
  | call c op => exact h.call hok
  | go c => exact h.go c

end Moves

/-- **Lock ranks exclude deadlock**: for any CPUs, ranks and programs of calls that take pairs of equal rank only and
release what was taken last, no run leads to a cycle of CPUs each spinning for a lock held by the next. -/
theorem no_deadlock (rank : ℕ → ℕ) (es : List (Event κ)) (hv : Valid (step rank) (Disciplined rank) .initial es) :
    ¬(final (step rank) State.initial es).Deadlock := by
  have h : Inv rank (final (step rank) State.initial es) := hv.invariant (fun _ _ hI hok => hI.step hok) Inv.initial
  rintro ⟨c, hc⟩
  refine WaitFor.acyclic (f := key rank) ?_ c hc
  intro c l hl m hm
  exact (h.cpus c).below hl m hm

/-- Two locks of rank 1 and two of rank 5. -/
def twoRanks (l : ℕ) : ℕ := if l < 10 then 1 else 5

/-- CPU 0 takes the lock 3 and under it the pair 10, 20; CPU 1 takes the lock 4 and spins for the pair, given the other
way round. -/
def nestedPairs : List (Event (Fin 2)) :=
  [.call 0 (.lock 3), .go 0, .call 0 (.lockPair 10 20), .go 0, .call 1 (.lock 4), .go 1, .call 1 (.lockPair 20 10),
    .go 0, .go 1]

theorem no_deadlock_nestedPairs : ((final (step twoRanks) State.initial nestedPairs).cpu 1).pc.target = some 10 ∧
      10 ∈ ((final (step twoRanks) State.initial nestedPairs).cpu 0).held ∧
      ¬(final (step twoRanks) State.initial nestedPairs).Deadlock := by
  refine ⟨?_, ?_, no_deadlock _ _ ?_⟩ <;> decide

/-- **Mutual exclusion.** The word of a lock is set just while some CPU holds it, and never do two. -/
theorem locks_exclusive (rank : ℕ → ℕ) (es : List (Event κ)) (hv : Valid (step rank) (Disciplined rank) .initial es)
    (l : ℕ) : let s := final (step rank) State.initial es
    (s.locked l ↔ ∃ c, l ∈ (s.cpu c).held) ∧ ∀ c d, l ∈ (s.cpu c).held → l ∈ (s.cpu d).held → c = d := by
  have h : Inv rank (final (step rank) State.initial es) := hv.invariant (fun _ _ hI hok => hI.step hok) Inv.initial
  exact ⟨h.locked l, fun c d => h.one c d l⟩

theorem locks_exclusive_nestedPairs : let s := final (step twoRanks) State.initial nestedPairs
    10 ∈ (s.cpu 0).held ∧ 10 ∉ (s.cpu 1).held := by
  have hx := (locks_exclusive twoRanks nestedPairs (by decide) 10).2
  have h0 : 10 ∈ ((final (step twoRanks) State.initial nestedPairs).cpu 0).held := by decide
  exact ⟨h0, fun h1 => absurd (hx 0 1 h0 h1) (by decide)⟩

end NeoOS.Spinlock
