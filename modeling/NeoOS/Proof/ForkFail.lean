import NeoOS.Proof.AccountRun
import NeoOS.Spec.ProcTable

/-!
# A failed `fork_task`

Only `proc_alloc` cleans up after itself, but for the page its descriptor table may have cost the heap.
Once it has succeeded the child has a pid and stands in the process table, and no later exit of
`fork_task` takes it out again.
-/

namespace NeoOS.ProcTable

open List

variable {s : State} {k : Kernel} {bitmap : ℕ → Bool} {pid n : ℕ}

/-! ## Pids -/

theorem scan_eq_zero (h0 : 1 ≤ pid) (h : scan bitmap n pid = 0) {q : ℕ} (h1 : pid ≤ q) (h2 : q < pid + n) :
    bitmap q := by
  induction n generalizing pid with
  | zero => omega
  | succ n ih =>
    unfold scan at h
    split at h
    · rename_i hb
      rcases Nat.eq_or_lt_of_le h1 with rfl | hlt
      · exact hb
      · exact ih (by omega) h (by omega) (by omega)
    · omega

theorem scan_free (h : scan bitmap n pid ≠ 0) : bitmap (scan bitmap n pid) = false := by
  induction n generalizing pid with
  | zero => exact absurd rfl h
  | succ n ih =>
    unfold scan at h ⊢
    split
    · rename_i hb
      rw [if_pos hb] at h
      exact ih h
    · rename_i hb
      simpa using hb

theorem PidAllocator.take_bitmap (a : PidAllocator) (pid : ℕ) (wrapped : Bool) :
    (a.take pid wrapped).bitmap = Function.update a.bitmap pid true := by
  unfold PidAllocator.take
  split <;> rfl

/-- A pid between 1 and `MAX_PIDS` is free. -/
def PidFree (a : PidAllocator) : Prop := ∃ pid, 1 ≤ pid ∧ pid < maxPids ∧ a.bitmap pid = false

/-- **`pid_alloc`** finds a pid if there is one, and its bit is set then. -/
theorem pidAlloc_marks {a : PidAllocator} (h : PidFree a) : ∃ pid, a.bitmap pid = false ∧ (pidAlloc a).2.bitmap pid := by
  obtain ⟨q, hq1, hq2, hq⟩ := h
  have hc := a.cursor_pos
  unfold pidAlloc
  dsimp only
  split
  · rename_i hpid
    refine ⟨_, scan_free hpid, ?_⟩
    rw [a.take_bitmap, Function.update_self]
  rename_i hhigh
  split
  · rename_i hpid
    refine ⟨_, scan_free hpid, ?_⟩
    rw [a.take_bitmap, Function.update_self]
  -- both ranges are full, so there was none
  rename_i hlow
  rw [not_not] at hhigh hlow
  rcases Nat.lt_or_ge q a.cursor with hlt | hge
  · rw [scan_eq_zero le_rfl hlow hq1 (by omega)] at hq
    cases hq
  · rw [scan_eq_zero hc hhigh hge (by omega)] at hq
    cases hq

/-! ## The memory of `proc_alloc` -/

/-- `kmalloc` takes a block of its own for a `struct process`, and a slot of a size class for a
`struct fd_table`. -/
structure ProcSizes (k : Kernel) : Prop where
  proc : ∃ o, k.heapNeed k.kmallocs = some (o, true)
  fds : ∀ o, k.heapNeed (k.kmallocs + 1) ≠ some (o, true)

/-- One of the three allocations of `proc_alloc` fails; if it is the last, the one before it found a slot. -/
def CleanFail (k : Kernel) : Prop :=
  k.kmalloc.1 = false ∨ k.kmalloc.2.kmalloc.1 = false ∨
    (k.kmalloc.2.kmalloc.2.kmalloc.1 = false ∧ k.heapNeed (k.kmallocs + 1) = none)

theorem procMem_fst (k : Kernel) :
    (procMem k).1 = (k.kmalloc.1 && k.kmalloc.2.kmalloc.1 && k.kmalloc.2.kmalloc.2.kmalloc.1) := by
  unfold procMem
  dsimp only
  split
  · simp_all
  split
  · simp_all
  split <;> simp_all

theorem kmalloc_failed (h : k.kmalloc.1 = false) : k.kmalloc.2.heap = k.heap := by
  have hend := kmalloc_cases k
  generalize k.kmalloc = r at hend h
  cases hend with
  | slot | block => cases h
  | failed _ ha => exact (congrArg (fun r => r.2.heap) ha).symm

theorem kmalloc_took (h : k.kmalloc.1) : (k.heapNeed k.kmallocs = none ∧ k.kmalloc.2.heap = k.heap) ∨
    ∃ x, x.call = k.kmallocs ∧ k.heapNeed k.kmallocs = some (x.order, x.large) ∧ k.kmalloc.2.heap = x :: k.heap := by
  have hend := kmalloc_cases k
  generalize k.kmalloc = r at hend h
  cases hend with
  | slot hn => exact .inl ⟨hn, rfl⟩
  | failed => cases h
  | block hn ha =>
    refine .inr ⟨_, rfl, hn, congrArg (_ :: ·) ?_⟩
    exact (congrArg (fun r => r.2.heap) ha).symm

theorem kmalloc_kmallocs (k : Kernel) : k.kmalloc.2.kmallocs = k.kmallocs + 1 := by
  have hend := kmalloc_cases k
  generalize k.kmalloc = r at hend
  cases hend with
  | slot => rfl
  | failed _ ha | block _ ha => exact (congrArg (fun r => r.2.kmallocs) ha).symm

theorem kfree_heap (k : Kernel) (n : ℕ) : (k.kfree n).heap = k.heap.eraseP fun x => x.call == n && x.large := by
  unfold Kernel.kfree
  split
  · rename_i h
    rw [eraseP_of_forall_not (by simpa using find?_eq_none.1 h)]
  · rfl

/-- **The heap after `proc_alloc` failed.** It has what it had, or a page more for a descriptor table. -/
theorem procMem_failed (hs : ProcSizes k) (hcall : ∀ x ∈ k.heap, x.call < k.kmallocs) (h : (procMem k).1 = false) :
    (CleanFail k ∧ (procMem k).2.heap = k.heap) ∨ (¬ CleanFail k ∧ ∃ x, (procMem k).2.heap = x :: k.heap) := by
  have hold : ∀ n, k.kmallocs ≤ n → k.heap.eraseP (fun x => x.call == n && x.large) = k.heap := fun n hn =>
    eraseP_of_forall_not fun x hx => by have := hcall x hx; simp; omega
  unfold procMem at h ⊢
  dsimp only at h ⊢
  by_cases h1 : k.kmalloc.1
  swap
  · rw [if_pos (by simpa using h1)]
    exact .inl ⟨.inl (by simpa using h1), kmalloc_failed (by simpa using h1)⟩
  rw [if_neg (by simpa using h1)] at h ⊢
  -- the block of the process
  obtain ⟨o, hproc⟩ := hs.proc
  obtain ⟨hn, -⟩ | ⟨x, hx, hneed, hheap⟩ := kmalloc_took h1
  · rw [hproc] at hn; cases hn
  obtain ⟨-, hlarge⟩ : o = x.order ∧ true = x.large := by simpa [hproc] using hneed
  by_cases h2 : k.kmalloc.2.kmalloc.1
  swap
  · rw [if_pos (by simpa using h2), kfree_heap, kmalloc_failed (by simpa using h2), hheap,
      eraseP_cons_of_pos (by simp [hx, ← hlarge])]
    exact .inl ⟨.inr (.inl (by simpa using h2)), rfl⟩
  rw [if_neg (by simpa using h2)] at h ⊢
  by_cases h3 : k.kmalloc.2.kmalloc.2.kmalloc.1
  · simp [h3] at h
  rw [if_pos (by simpa using h3), kfree_heap, kfree_heap, kmalloc_failed (by simpa using h3)]
  have hclean : CleanFail k ↔ k.heapNeed (k.kmallocs + 1) = none := by simp [CleanFail, h1, h2, h3]
  rw [hclean]
  have hfds := kmalloc_took h2
  rw [kmalloc_kmallocs, (Still.kmalloc k).heapNeed] at hfds
  obtain ⟨hn, hsame⟩ | ⟨y, hy, hneed, hpage⟩ := hfds
  · refine .inl ⟨hn, ?_⟩
    rw [hsame, hheap, eraseP_cons_of_neg (by simp [hx]), hold _ (by omega), eraseP_cons_of_pos (by simp [hx, ← hlarge])]
  · have hsmall : y.large = false := by
      by_contra hl
      exact hs.fds y.order (by rw [hneed, eq_true_of_ne_false hl])
    refine .inr ⟨by simp [hneed], y, ?_⟩
    rw [hpage, hheap, eraseP_cons_of_neg (by simp [hsmall]), eraseP_cons_of_neg (by simp [hsmall]),
      eraseP_cons_of_neg (by simp [hx]), hold _ (by omega), eraseP_cons_of_pos (by simp [hx, ← hlarge])]

/-! ## The exits of `fork_task` -/

/-- How `proc_alloc` ends. -/
inductive ProcAllocEnd (s : State) : Option Process × State → Prop
  | failed (h : (procMem s.k).1 = false) : ProcAllocEnd s (none, { s with k := (procMem s.k).2 })
  | made (p : Process) (s' : State) (h : (procMem s.k).1) (hp : s'.pids = (pidAlloc s.pids).2) :
      ProcAllocEnd s (some p, s')

@[simp] theorem enter_pids (s : State) (p : Process) : (s.enter p).pids = s.pids := by
  unfold State.enter
  split <;> rfl

theorem procAlloc_cases (s : State) : ProcAllocEnd s (procAlloc s) := by
  unfold procAlloc
  dsimp only
  split
  · rename_i h
    exact .failed (by simpa using h)
  · rename_i h
    exact .made _ _ (by simpa using h) (enter_pids _ _)

/-- After `proc_alloc` nobody touches the pids. -/
theorem forkTask_pids {cur : ℕ} {parent : Process} (self : Thread) (mem : ℕ → Bool)
    (hcur : s.table cur = some parent) (hok : (procMem s.k).1) :
    (forkTask s cur self mem).2.pids = (pidAlloc s.pids).2 := by
  have ha := procAlloc_cases s
  unfold forkTask
  rw [hcur]
  generalize procAlloc s = a at ha ⊢
  cases ha with
  | failed h => simp [hok] at h
  | made p s' h hp =>
    rw [← hp]
    dsimp only
    generalize forkPages _ _ = r
    split
    · simp
    generalize copyVmas _ _ = v
    split
    · simp
    split
    · simp
    generalize Fd.fdTableDup _ _ _ _ = d
    split
    · simp
    split <;> simp

/-! ## When a failed `fork_task` leaves no trace -/

/-- Nothing is left of the call: the process table with the parent's page tables, mappings and threads, the
pids, the objects descriptors name, and the number of free frames. -/
structure NoTrace (s s' : State) : Prop where
  table : s'.table = s.table
  pids : s'.pids = s.pids
  objs : s'.objs = s.objs
  totalFree : s'.k.pmm.totalFree = s.k.pmm.totalFree

/-- **When a failed `fork_task` leaves no trace.** It does when `proc_alloc` is what failed and the heap
had no page to take for it; and if there was a pid for the child, only then. -/
theorem fork_failure_no_trace (s : State) (cur : ℕ) (parent : Process) (self : Thread) (mem : ℕ → Bool)
    (hcur : s.table cur = some parent) (hk : KernOK False (fun _ => 0) s.k)
    (hcall : ∀ x ∈ s.k.heap, x.call < s.k.kmallocs) (hsizes : ProcSizes s.k) :
    (CleanFail s.k → (forkTask s cur self mem).1 = none ∧ NoTrace s (forkTask s cur self mem).2) ∧
      (PidFree s.pids → (forkTask s cur self mem).1 = none → NoTrace s (forkTask s cur self mem).2 → CleanFail s.k) := by
  have hframes := hk.idle_frames (.procMem s.k)
  have hfailed : (procMem s.k).1 = false → forkTask s cur self mem = (none, { s with k := (procMem s.k).2 }) := by
    intro h
    unfold forkTask procAlloc
    simp [hcur, h]
  constructor
  · intro hclean
    have h0 : (procMem s.k).1 = false := by
      obtain h | h | ⟨h, -⟩ := hclean <;> simp [procMem_fst, h]
    obtain ⟨-, hheap⟩ | ⟨hn, -⟩ := procMem_failed hsizes hcall h0
    · rw [hfailed h0]
      refine ⟨rfl, rfl, rfl, rfl, ?_⟩
      unfold heapFrames at hframes
      rw [hheap] at hframes
      exact Nat.add_right_cancel hframes
    · exact absurd hclean hn
  · intro hpid _ htrace
    by_cases hok : (procMem s.k).1
    · obtain ⟨pid, hfree, htaken⟩ := pidAlloc_marks hpid
      rw [← forkTask_pids self mem hcur hok, htrace.pids, hfree] at htaken
      cases htaken
    · rw [Bool.not_eq_true] at hok
      obtain ⟨hclean, -⟩ | ⟨-, x, hheap⟩ := procMem_failed hsizes hcall hok
      · exact hclean
      · -- the page of the descriptor table is missing
        have htotal := htrace.totalFree
        rw [hfailed hok] at htotal
        change (procMem s.k).2.pmm.totalFree = _ at htotal
        unfold heapFrames at hframes
        rw [hheap, htotal, map_cons, sum_cons] at hframes
        have := Nat.two_pow_pos x.order
        omega

/-- An address space with one writable page, in the small machine. -/
def onePage : Vm :=
  let c := newSpace smallSys.k fun _ key => smallSys.shared key
  (loadPage ⟨c.2, c.1⟩ 0x8000000000 (fun _ => 0) (Phdr.flagsPte 6)).2

/-- Process 1 has the address space and no open files. The heap needs a block for its next `struct process`,
and a page for whatever comes after it if `page`. -/
def lone (vm : Vm) (pmmFail : ℕ → Bool) (page : Bool) : State where
  k := { vm.k with
    pmmFail := pmmFail
    heapNeed := fun n => if n = vm.k.kmallocs then some (0, true) else if page then some (0, false) else none }
  pids := ⟨fun pid => pid < 2, 2, false, by decide, by decide⟩
  table pid := if pid = 1 then some { blankProcess 1 with proc := ⟨vm.as, [], mmapBase⟩ } else none
  objs := ⟨fun _ => 0, fun _ => none, fun _ => none, fun _ => none, fun _ => none, fun _ => none, 0⟩

def loneThread : Thread := ⟨1, some 0, 0, fun _ => 0⟩

/-- Without memory for the descriptor table there is no trace: the `struct process` is given back. -/
theorem fork_failure_no_trace_early :
    let s := lone ⟨smallSys.k, ⟨0, fun _ _ => .zero⟩⟩ (fun n => n == 1) true
    (forkTask s 1 loneThread fun _ => true).1 = none ∧ NoTrace s (forkTask s 1 loneThread fun _ => true).2 := by
  have hk := smallSys_booted.books.kern
  refine (fork_failure_no_trace _ 1 _ loneThread _ rfl ?_ (fun x hx => absurd hx not_mem_nil) ⟨⟨0, rfl⟩, fun o h => ?_⟩).1
    (.inr (.inl (by decide +kernel)))
  · exact ⟨hk.pmm, fun f => (Nat.add_le_add_right (Nat.zero_le _) _).trans (hk.held f), nofun, nofun, hk.waiting, hk.heap⟩
  · change some (0, false) = some (o, true) at h
    cases h

/-- **What a failed fork leaves behind.** There is no frame for the child's first page table: the call
reports failure, pid 2 is taken, process 2 is in the table with no thread, the parent's page is read-only
and two frames are gone. Or there is none for the thread table, and the heap keeps the page it took for the
descriptor table. -/
theorem fork_leaves_traces :
    let s := lone onePage fun n => n == 7
    let r := fun page => forkTask (s page) 1 loneThread fun _ => true
    ((r false).1 = none ∧ ¬ NoTrace (s false) (r false).2 ∧
      ((r false).2.pids.bitmap 2 = true ∧ ((r false).2.table 2).map (·.threads.length) = some 0 ∧
        ((r false).2.table 1).map (fun p => (p.proc.as.ent 1 0x8000000).writable) = some false ∧
        (r false).2.k.pmm.totalFree + 2 = (s false).k.pmm.totalFree)) ∧
    ((r true).1 = none ∧ ¬ NoTrace (s true) (r true).2 ∧ (r true).2.k.pmm.totalFree + 1 = (s true).k.pmm.totalFree) := by
  intro s r
  have h : ((r false).1 = none ∧ ((r false).2.pids.bitmap 2 = true ∧ ((r false).2.table 2).map (·.threads.length) = some 0 ∧
      ((r false).2.table 1).map (fun p => (p.proc.as.ent 1 0x8000000).writable) = some false ∧
      (r false).2.k.pmm.totalFree + 2 = (s false).k.pmm.totalFree)) ∧
      (r true).1 = none ∧ (r true).2.k.pmm.totalFree + 1 = (s true).k.pmm.totalFree := by decide +kernel
  obtain ⟨⟨h1, h2⟩, h3, h4⟩ := h
  refine ⟨⟨h1, fun hn => ?_, h2⟩, h3, fun hn => ?_, h4⟩
  · have := hn.totalFree; omega
  · have := hn.totalFree; omega

end NeoOS.ProcTable
