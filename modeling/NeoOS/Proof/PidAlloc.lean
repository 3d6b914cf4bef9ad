import NeoOS.Proof.ForkFail

/-!
# Pids

A pid is in the hands of one holder at a time, and is handed out again only after the cursor has been all the way round.

* `scanWords_eq_scan`: skipping whole words changes nothing.
* `pids_held`: which pids are in use, and when `pid_alloc` fails.
* `pid_reuse_distance`: what lies between two times that a pid is handed out.
-/

namespace NeoOS.ProcTable

open List
open Function (update update_of_ne update_self)
open Run (final)

variable {bitmap : ℕ → Bool} {words : ℕ → BitVec 64} {pid n q start : ℕ}

/-! ## The scan -/

theorem scan_skip {m : ℕ} (h : ∀ q, pid ≤ q → q < pid + m → bitmap q) : scan bitmap n pid = scan bitmap (n - m) (pid + m) := by
  induction m generalizing n pid with
  | zero => rfl
  | succ m ih =>
    cases n with
    | zero =>
      rw [Nat.zero_sub]
      rfl
    | succ n =>
      rw [scan, if_pos (h pid le_rfl (by omega)), ih fun q h1 h2 => h q (by omega) (by omega), Nat.succ_sub_succ,
        Nat.add_assoc, Nat.add_comm 1]

theorem bitTest_allOnes (h : words (pid / 64) = BitVec.allOnes 64) : bitTest words pid := by
  unfold bitTest
  rw [h, BitVec.getLsbD_ushiftRight, BitVec.getLsbD_allOnes]
  exact decide_eq_true (Nat.mod_lt _ (by decide))

/-- **The scan by words** finds the pid that a test of each bit would find. -/
theorem scanWords_eq_scan (words : ℕ → BitVec 64) (pid stop : ℕ) :
    scanWords words pid stop = scan (bitTest words) (stop - pid) pid := by
  fun_induction scanWords words pid stop with
  | case1 pid hlt hones ih =>
    -- every bit up to the next word is set
    have hset : ∀ q, pid ≤ q → q < pid + ((pid / 64 + 1) * 64 - pid) → bitTest words q := fun q h1 h2 =>
      bitTest_allOnes (by rwa [show q / 64 = pid / 64 by omega])
    rw [ih, scan_skip hset]
    congr 1 <;> omega
  | case2 pid hlt hones hbit ih => rw [ih, show stop - pid = stop - (pid + 1) + 1 by omega, scan, if_pos hbit]
  | case3 pid hlt hones hbit => rw [show stop - pid = stop - (pid + 1) + 1 by omega, scan, if_neg hbit]
  | case4 pid hge =>
    rw [Nat.sub_eq_zero_of_le (Nat.le_of_not_lt hge)]
    rfl

theorem scan_range (h : scan bitmap n pid ≠ 0) : pid ≤ scan bitmap n pid ∧ scan bitmap n pid < pid + n := by
  induction n generalizing pid with
  | zero => exact absurd rfl h
  | succ n ih =>
    unfold scan at h ⊢
    split
    · rename_i hb
      rw [if_pos hb] at h
      have := ih h
      omega
    · omega

/-- The scan passes over pids in use only. -/
theorem scan_passed (h : scan bitmap n pid ≠ 0) (h1 : pid ≤ q) (h2 : q < scan bitmap n pid) : bitmap q := by
  induction n generalizing pid with
  | zero => exact absurd rfl h
  | succ n ih =>
    unfold scan at h h2
    split at h2
    · rename_i hb
      rw [if_pos hb] at h
      rcases Nat.eq_or_lt_of_le h1 with rfl | hlt
      · exact hb
      · exact ih h hlt h2
    · omega

/-! ## Runs -/

/-- Going up from `c` and round the end, `q` comes before `p`. -/
def Passed (c p q : ℕ) : Prop := if c ≤ p then c ≤ q ∧ q < p else c ≤ q ∨ q < p

/-- How `pid_alloc` ends. -/
inductive PidAllocEnd (a : PidAllocator) : ℕ × PidAllocator → Prop
  | took {pid : ℕ} {wrapped : Bool} (hfree : a.bitmap pid = false) (hpos : 1 ≤ pid) (hlt : pid < maxPids)
    (hpassed : ∀ q, 1 ≤ q → q < maxPids → Passed a.cursor pid q → a.bitmap q) : PidAllocEnd a (pid, a.take pid wrapped)
  | full (h : ∀ pid, 1 ≤ pid → pid < maxPids → a.bitmap pid) : PidAllocEnd a (0, { a with wrapped := true })

theorem pidAlloc_cases (a : PidAllocator) : PidAllocEnd a (pidAlloc a) := by
  have hpos := a.cursor_pos
  have hlt := a.cursor_lt
  unfold pidAlloc
  dsimp only
  split
  · rename_i h
    have hr := scan_range h
    refine .took (scan_free h) (by omega) (by omega) fun q _ _ hq => ?_
    rw [Passed, if_pos hr.1] at hq
    exact scan_passed h hq.1 hq.2
  rename_i hhigh
  rw [not_not] at hhigh
  have hrest : ∀ q, a.cursor ≤ q → q < maxPids → a.bitmap q := fun q h1 h2 => scan_eq_zero hpos hhigh h1 (by omega)
  split
  · rename_i h
    have hr := scan_range h
    refine .took (scan_free h) (by omega) (by omega) fun q h1 h2 hq => ?_
    rw [Passed, if_neg (by omega)] at hq
    rcases hq with hq | hq
    · exact hrest q hq h2
    · exact scan_passed h h1 hq
  rename_i hlow
  rw [not_not] at hlow
  refine .full fun q h1 h2 => ?_
  rcases Nat.lt_or_ge q a.cursor with h | h
  · exact scan_eq_zero le_rfl hlow h1 (by omega)
  · exact hrest q h h2

/-- The allocator and the pids in use. -/
structure Pids where
  alloc : PidAllocator := .initial
  held : List ℕ := []

inductive PidOp
  | alloc
  | free (pid : ℕ)

def Pids.step (s : Pids) : PidOp → Pids
  | .alloc =>
    let r := pidAlloc s.alloc
    if r.1 = 0 then { s with alloc := r.2 } else ⟨r.2, r.1 :: s.held⟩
  | .free pid => { s with alloc := pidFree s.alloc pid, held := s.held.erase pid }

structure Pids.OK (s : Pids) : Prop where
  marks : ∀ pid, s.alloc.bitmap pid ↔ pid = 0 ∨ pid ∈ s.held
  nodup : s.held.Nodup
  range : ∀ pid ∈ s.held, 1 ≤ pid ∧ pid < maxPids

variable {s : Pids}

theorem Pids.OK.fresh (h : s.OK) (hfree : s.alloc.bitmap pid = false) : pid ∉ s.held := fun hm => by
  rw [(h.marks pid).2 (.inr hm)] at hfree
  cases hfree

theorem Pids.OK.used (h : s.OK) (h1 : 1 ≤ pid) (hb : s.alloc.bitmap pid) : pid ∈ s.held :=
  ((h.marks pid).1 hb).resolve_left (Nat.ne_of_gt h1)

theorem Pids.OK.step (h : s.OK) (op : PidOp) : (s.step op).OK := by
  cases op with
  | alloc =>
    have hend := pidAlloc_cases s.alloc
    unfold Pids.step
    generalize pidAlloc s.alloc = r at hend
    cases hend with
    | @took pid wrapped hfree hpos hlt =>
      dsimp only
      rw [if_neg (Nat.ne_of_gt hpos)]
      refine ⟨fun q => ?_, nodup_cons.2 ⟨h.fresh hfree, h.nodup⟩, forall_mem_cons.2 ⟨⟨hpos, hlt⟩, h.range⟩⟩
      rw [PidAllocator.take_bitmap, mem_cons]
      by_cases hq : q = pid
      · subst hq
        rw [update_self]
        exact iff_of_true rfl (.inr (.inl rfl))
      · rw [update_of_ne hq, h.marks q, or_iff_right hq]
    | full => exact ⟨h.marks, h.nodup, h.range⟩
  | free pid =>
    unfold Pids.step pidFree
    dsimp only
    split
    · rename_i hout
      rw [erase_of_not_mem fun hm => by have := h.range pid hm; omega]
      exact h
    · rename_i hin
      refine ⟨fun q => ?_, h.nodup.erase pid, fun q hq => h.range q (mem_of_mem_erase hq)⟩
      dsimp only
      rw [h.nodup.mem_erase_iff]
      by_cases hq : q = pid
      · subst hq
        rw [update_self]
        exact iff_of_false Bool.false_ne_true (by omega)
      · rw [update_of_ne hq, h.marks q, ne_eq, and_iff_right hq]

theorem Pids.OK.run (ops : List PidOp) : (final Pids.step {} ops).OK := by
  have hinit : Pids.OK {} := ⟨fun pid => by simp [PidAllocator.initial], .nil, nofun⟩
  generalize ({} : Pids) = s at hinit
  induction ops generalizing s with
  | nil => exact hinit
  | cons op ops ih => exact ih _ (hinit.step op)

/-- **Whose a pid is.** After any calls the pids in use are distinct and in range, and `pid_alloc` fails just if all of
them are in use. -/
theorem pids_held (ops : List PidOp) : let s := final Pids.step {} ops
    s.held.Nodup ∧ (∀ pid ∈ s.held, 1 ≤ pid ∧ pid < maxPids) ∧
      ((pidAlloc s.alloc).1 = 0 ↔ ∀ pid, 1 ≤ pid → pid < maxPids → pid ∈ s.held) := by
  intro s
  have h : s.OK := .run ops
  refine ⟨h.nodup, h.range, ?_⟩
  have hend := pidAlloc_cases s.alloc
  generalize pidAlloc s.alloc = r at hend
  cases hend with
  | took hfree hpos hlt => exact iff_of_false (Nat.ne_of_gt hpos) fun hall => h.fresh hfree (hall _ hpos hlt)
  | full hall => exact iff_of_true rfl fun pid h1 h2 => h.used h1 (hall pid h1 h2)

/-! ## Reuse -/

/-- The cursor, on its way from `start` round to `start`, has not come to `q` yet. -/
def Ahead (cursor start q : ℕ) : Prop := if cursor < start then cursor ≤ q ∧ q < start else cursor ≤ q ∨ q < start

theorem take_cursor (a : PidAllocator) (pid : ℕ) (wrapped : Bool) :
    (a.take pid wrapped).cursor = if maxPids ≤ pid + 1 then 1 else pid + 1 := by
  unfold PidAllocator.take
  split <;> rfl

/-- The cursor passes over pids in use and over the one it hands out. -/
theorem Ahead.step (hs : s.OK) (h1 : 1 ≤ q) (h2 : q < maxPids) (h : Ahead s.alloc.cursor start q) (hq : q ∉ s.held)
    (op : PidOp) (hq' : q ∉ (s.step op).held) : Ahead (s.step op).alloc.cursor start q := by
  cases op with
  | alloc =>
    have hend := pidAlloc_cases s.alloc
    unfold Pids.step at hq' ⊢
    generalize pidAlloc s.alloc = r at hend hq'
    cases hend with
    | @took pid wrapped hfree hpos hlt hpassed =>
      dsimp only at hq' ⊢
      rw [if_neg (Nat.ne_of_gt hpos), mem_cons, not_or] at hq'
      rw [if_neg (Nat.ne_of_gt hpos), take_cursor]
      have hp : ¬ Passed s.alloc.cursor pid q := fun hp => hq (hs.used h1 (hpassed q h1 h2 hp))
      unfold Ahead Passed at *
      split at h <;> split at hp <;> split <;> split <;> omega
    | full => exact h
  | free pid =>
    unfold Pids.step pidFree
    dsimp only
    split <;> exact h

theorem Ahead.run (hs : s.OK) (h1 : 1 ≤ q) (h2 : q < maxPids) (ops : List PidOp)
    (hq : ∀ i, q ∉ (final Pids.step s (ops.take i)).held) (h : Ahead s.alloc.cursor start q) :
    Ahead (final Pids.step s ops).alloc.cursor start q := by
  induction ops generalizing s with
  | nil => exact h
  | cons op ops ih => exact ih (hs.step op) (fun i => hq (i + 1)) (h.step hs h1 h2 (hq 0) op (hq 1))

/-- **Distance between reuses.** When `pid_alloc` returns the pid that an earlier call returned, every pid has been in use
at some moment between the two calls. -/
theorem pid_reuse_distance (ops more : List PidOp) : let s := final Pids.step {} ops
    (pidAlloc (final Pids.step (s.step .alloc) more).alloc).1 ≠ (pidAlloc s.alloc).1 ∨
      ∀ q, 1 ≤ q → q < maxPids → ∃ i, q ∈ (final Pids.step (s.step .alloc) (more.take i)).held := by
  intro s
  have hs : s.OK := .run ops
  have ht : (final Pids.step (s.step .alloc) more).OK := by
    have h := Pids.OK.run (ops ++ .alloc :: more)
    rwa [Run.final_append] at h
  refine or_iff_not_imp_left.2 fun heq q h1 h2 => ?_
  by_contra hn
  have hq : ∀ i, q ∉ (final Pids.step (s.step .alloc) (more.take i)).held := not_exists.1 hn
  have hq0 := hq 0
  have hqt := hq more.length
  rw [take_length] at hqt
  have hahead := fun start (h : Ahead (s.step .alloc).alloc.cursor start q) => h.run (hs.step .alloc) h1 h2 more hq
  generalize final Pids.step (s.step .alloc) more = t at ht heq hqt hahead
  have hend := pidAlloc_cases t.alloc
  generalize pidAlloc t.alloc = r at hend heq
  cases hend with
  | full hall => exact hqt (ht.used h1 (hall q h1 h2))
  | @took pid _ hfree hpos hlt hpassed =>
    have hp : ¬ Passed t.alloc.cursor pid q := fun hp => hqt (ht.used h1 (hpassed q h1 h2 hp))
    -- after the first call the cursor is behind the pid
    have hstart : (s.step .alloc).alloc.cursor = (if maxPids ≤ pid + 1 then 1 else pid + 1) ∧ q ≠ pid := by
      have hend := pidAlloc_cases s.alloc
      change q ∉ (s.step .alloc).held at hq0
      unfold Pids.step at hq0 ⊢
      generalize pidAlloc s.alloc = r at hend hq0 heq
      cases hend with
      | took _ hpos' =>
        rw [not_not] at heq
        dsimp only at heq
        subst heq
        rw [if_neg (Nat.ne_of_gt hpos')] at hq0 ⊢
        exact ⟨take_cursor _ _ _, fun h => hq0 (h ▸ mem_cons_self)⟩
      | full => exact absurd (not_not.1 heq) (Nat.ne_of_gt hpos)
    have hc := t.alloc.cursor_pos
    have h := hahead (s.step .alloc).alloc.cursor (by unfold Ahead; split <;> omega)
    rw [hstart.1] at h
    have hne := hstart.2
    unfold Ahead Passed at *
    split at h <;> split at h <;> split at hp <;> omega

end NeoOS.ProcTable
