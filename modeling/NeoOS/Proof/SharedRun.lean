import NeoOS.Proof.Slots
import NeoOS.Proof.UserStep

/-!
# No call reaches the kernel's page tables

`UserOnly` is the condition on one step: a fixed mapping lies in user space proper,
and an image page, a store or a kernel write is not aimed at a shared slot. Under
it every step keeps the kernel's tables and every mapping in user space.

* `kernel_tables_run`: whole runs, and `elf_load`.
* `fixed_mapping_reaches_kernel_tables`: what an unchecked fixed address does.
-/

namespace NeoOS

variable {k : Kernel} {p : Proc} {v : ℕ}

/-! ## Fork -/

/-- What the page loop of `fork` keeps, in parent and child. -/
structure ForkKept (s s' : ForkSt) : Prop where
  parent : Kept ⟨s.k, s.parent⟩ ⟨s'.k, s'.parent⟩
  child : Kept ⟨s.k, s.child⟩ ⟨s'.k, s'.child⟩

theorem ForkKept.refl (s : ForkSt) : ForkKept s s := ⟨.refl _, .refl _⟩

theorem ForkKept.trans {s s' s'' : ForkSt} (h1 : ForkKept s s') (h2 : ForkKept s' s'') :
    ForkKept s s'' := ⟨h1.parent.trans h2.parent, h1.child.trans h2.child⟩

/-- A round that rewrites the parent's leaf and works on the child. -/
theorem ForkKept.ofChild {s : ForkSt} {vm' : Vm} (hu : UserPage v) (h : Kept ⟨s.k, s.child⟩ vm') (e : Pte) :
    ForkKept s ⟨vm'.k, { s.parent with ent := setEnt s.parent.ent 1 v e }, vm'.as⟩ := by
  have hp := Kept.setLeaf hu ⟨s.k, s.parent⟩ e
  rw [Vm.set_leaf_user hu] at hp
  exact ⟨⟨h.kern, hp.top⟩, h⟩

theorem ForkKept.page (hc : UserCell 1 v) (s : ForkSt) : ForkKept s (forkPage s v).2 := by
  have hu := hc.userPage
  have huv : UserPage (vpnOf (v * 4096)) := by rwa [hc.vpnOf]
  unfold forkPage
  dsimp only
  split
  · have h := Kept.mapInto huv (s.parent.ent 1 v).frame (s.parent.ent 1 v) ⟨s.k, s.child⟩
    exact ⟨⟨h.kern, fun _ _ => rfl⟩, h⟩
  · have hs : Kept ⟨s.k, s.child⟩ ⟨s.k.share (s.parent.ent 1 v).frame, s.child⟩ := .kernel rfl
    have h := hs.trans (.mapInto huv (s.parent.ent 1 v).frame (forkPte (s.parent.ent 1 v)) _)
    split
    · exact .ofChild hu h _
    · refine .ofChild hu ?_ _
      split
      · exact h
      · exact h.trans (.setprotFrom huv _ _)

theorem ForkKept.pages {l : List ℕ} (hl : ∀ v ∈ l, UserCell 1 v) (s : ForkSt) : ForkKept s (forkPages l s).2 := by
  induction l generalizing s with
  | nil => exact .refl s
  | cons v rest ih =>
    obtain ⟨hv, hrest⟩ := List.forall_mem_cons.1 hl
    have h1 := ForkKept.page hv s
    unfold forkPages
    dsimp only
    split
    · exact h1.trans (ih hrest _)
    · exact h1

theorem freeAddressSpace_kern (k : Kernel) (as : AddrSpace) : (Vm.freeAddressSpace k as).kern = k.kern :=
  Run.foldl_rel (r := fun k k' : Kernel => k'.kern = k.kern) (fun _ => rfl)
    (fun _ _ _ h1 h2 => h2.trans h1) (fun _ _ k => k.deferFree_kern _) k

theorem newSpace_kern (k : Kernel) (ent : ℕ → ℕ → Pte) : (newSpace k ent).2.kern = k.kern := k.allocTableFrame_kern

theorem newSpace_top {ent : ℕ → ℕ → Pte} {i : ℕ} (hi : sharedSlot i) : (newSpace k ent).1.ent 4 i = ent 4 i := by
  simp [newSpace, hi]

theorem GaveUp.kern {k' : Kernel} (h : GaveUp k k') : k'.kern = k.kern := by
  cases h with
  | idle h => exact h.kern
  | stack h1 h2 h3 h4 =>
    rename_i k1 k2 k3 f
    have ha := k1.alloc_kern kstackOrder
    rw [h2] at ha
    rw [h4, Kernel.free_kern, h3.kern, ha, h1.kern]
  | noStack h1 h2 =>
    rename_i k1
    have ha := k1.alloc_kern kstackOrder
    rw [h2] at ha
    rw [ha, h1.kern]

/-- **`fork_task`** keeps the kernel's tables, and the child has the parent's shared
entries. -/
theorem UserStep.fork (hp : UserOK p) : UserStep k p (forkTask k p).1 (forkTask k p).2.1 ∧
      ∀ q stack, (forkTask k p).2.2 = some (q, stack) → UserOK q ∧ ∀ i, sharedSlot i → q.as.ent 4 i = p.as.ent 4 i := by
  have hend := forkTask_cases k p
  have hck := newSpace_kern (procMem k).2 p.as.ent
  have htop := @newSpace_top (procMem k).2 p.as.ent
  generalize newSpace (procMem k).2 p.as.ent = c at hend hck htop
  have hkept : ForkKept ⟨c.2, p.as, c.1⟩ (forkPages (spaceLeaves p.as) ⟨c.2, p.as, c.1⟩).2 :=
    ForkKept.pages (fun v hv => (mem_spaceLeaves hv).1) _
  generalize forkPages (spaceLeaves p.as) ⟨c.2, p.as, c.1⟩ = r at hend hkept
  generalize forkTask k p = out at hend ⊢
  have hrk : r.2.k.kern = k.kern := by
    have h := hkept.child.kern
    rw [h, hck, (Idle.procMem k).kern]
  have hdone : ∀ k', k'.kern = k.kern → UserStep k p k' { p with as := r.2.parent } :=
    fun k' hk' => ⟨⟨hk', hkept.parent.top⟩, hp.vmas, hp.base, hp.limit, hp.aligned⟩
  rcases hend with rfl | hend
  · exact ⟨⟨⟨(Idle.procMem k).kern, fun _ _ => rfl⟩, hp⟩, nofun⟩
  · cases hend with
    | failed h =>
      rename_i k1
      have hk : (Vm.freeAddressSpace k1 r.2.child).kern = k.kern := by
        rw [freeAddressSpace_kern, h.kern, hrk]
      exact ⟨hdone _ hk, nofun⟩
    | forked hr h1 h2 h3 =>
      rename_i k1 k2 k3 stack
      have ha := k1.alloc_kern kstackOrder
      rw [h2] at ha
      refine ⟨hdone _ (h3.kern.trans (ha.trans (h1.kern.trans hrk))), fun q stack' heq => ?_⟩
      cases heq
      exact ⟨{ hp with }, fun i hi => (hkept.child.top i hi).trans (htop hi)⟩

/-! ## The system -/

/-- The condition on a step of the system. -/
def UserOnly (s : Sys) (op : SysOp) : Prop := Orderly s op ∧
  match op with
  | .call i op => ∀ p kstack, s.proc i = some (p, kstack) → CallUserOnly s.k p op
  | _ => True

/-- The kernel's tables are `kern`, and every process has them in its shared slots. -/
def TablesOK (kern : ℕ → ℕ → Pte) (shared : ℕ → Pte) (s : Sys) : Prop :=
  s.shared = shared ∧ SlotInv (fun k => k.kern = kern) (fun p => UserOK p ∧ ∀ i, sharedSlot i → p.as.ent 4 i = shared i) s

theorem Sys.step_shared (s : Sys) (op : SysOp) : (s.step op).shared = s.shared := by
  unfold Sys.step Sys.act
  dsimp only
  split
  case h_3 | h_4 =>
    split
    · rfl
    · split <;> rfl
  case h_8 =>
    split
    · split <;> rfl
    · rfl
  case h_2 | h_5 => split <;> rfl
  all_goals rfl

theorem tables_step {kern : ℕ → ℕ → Pte} {shared : ℕ → Pte} {s : Sys} {op : SysOp}
    (h : TablesOK kern shared s) (hok : UserOnly s op) : TablesOK kern shared (s.step op) := by
  obtain ⟨hsh, h⟩ := h
  refine ⟨(s.step_shared op).trans hsh, .step ?_⟩
  cases op with
  | newProc =>
    refine h.append ?_ ⟨.fresh _, fun j hj => ?_⟩ _
    · rw [Kernel.alloc_kern, newSpace_kern, h.kernel]
    · exact (newSpace_top hj).trans (congrFun hsh j)
  | call i op =>
    refine h.call fun p kstack hp hi => ?_
    have hu := UserStep.call hi.1 (hok.2 p kstack hp) s.fbPhys s.fbSize
    exact ⟨hu.kept.kern.trans h.kernel, hu.ok, fun j hj => (hu.kept.top j hj).trans (hi.2 j hj)⟩
  | fork i =>
    refine h.fork fun p kstack hp hi => ?_
    obtain ⟨hu, hq⟩ := UserStep.fork (k := s.k) hi.1
    refine ⟨hu.kept.kern.trans h.kernel, ⟨hu.ok, fun j hj => (hu.kept.top j hj).trans (hi.2 j hj)⟩, fun q stack he => ?_⟩
    obtain ⟨hqu, hqt⟩ := hq q stack he
    exact ⟨hqu, fun j hj => (hqt j hj).trans (hi.2 j hj)⟩
  | exit i => exact h.exit fun p kstack _ => (freeAddressSpace_kern _ _).trans h.kernel
  | reap i => exact h.reap fun pml4 kstack => (Kernel.flushDeferred_kern _ _).trans h.kernel
  | shootdown pml4 => exact ⟨(Kernel.flushDeferred_kern _ _).trans h.kernel, h.procs⟩
  | staleStore i addr n b => exact h.staleStore fun _ _ => h.kernel
  | kmalloc => exact ⟨s.k.kmalloc_kern.trans h.kernel, h.procs⟩
  | kfree n => exact ⟨(Still.kfree s.k n).kern.trans h.kernel, h.procs⟩
  | threadCreate i => exact h

/-- **The kernel's mappings stay.** In a run that starts without processes and whose
steps meet the condition, the tables below the shared slots never change, every
process has the kernel's entries in those slots, and its mappings lie below
`USER_ADDR_LIMIT`; and `elf_load` keeps the tables for every image whose segments
avoid the shared slots. -/
theorem kernel_tables_run (s : Sys) (hs : s.procs = []) (ops : List SysOp) (hv : Run.Valid Sys.step UserOnly s ops) :
    (Run.final Sys.step s ops).k.kern = s.k.kern ∧ (∀ p kstack, .live p kstack ∈ (Run.final Sys.step s ops).procs →
        (∀ i, sharedSlot i = true → p.as.ent 4 i = s.shared i) ∧ ∀ v ∈ p.vmas, v.start ≤ v.stop ∧ v.stop ≤ userAddrLimit) ∧
      ∀ (data : ℕ → UInt8) (size : ℕ) (vm : Vm), ElfUser (elfPhdrs data) → Kept vm (elfLoad data size vm).2 := by
  have hinit : TablesOK s.k.kern s.shared s :=
    ⟨rfl, rfl, fun p kstack hmem => by rw [hs] at hmem; exact absurd hmem List.not_mem_nil⟩
  obtain ⟨-, h⟩ := hv.invariant (fun _ _ => tables_step) hinit
  refine ⟨h.kernel, fun p kstack hmem => ?_, fun data size vm hu => .elfLoad hu size vm⟩
  obtain ⟨hu, ht⟩ := h.procs p kstack hmem
  exact ⟨ht, fun v hv => ⟨(hu.vmas v hv).le, (hu.vmas v hv).high⟩⟩

/-- A process maps a page at the cursor and writes to it. -/
def mmapStoreRun : List SysOp :=
  [.newProc, .call 0 (.mmap 0 4096 3 0x22), .call 0 (.store mmapBase 7)]

theorem mmapStoreRun_userOnly : Run.Valid Sys.step UserOnly smallSys mmapStoreRun := by
  refine ⟨⟨smallSys_spawns, trivial⟩, ⟨fun _ _ _ => .inl rfl, fun p kstack _ _ _ _ hf => absurd hf (by decide)⟩,
    ⟨fun _ _ _ => .inl rfl, fun p kstack _ hc => ?_⟩, trivial⟩
  exact hc.1 (by decide)

theorem kernel_tables_run_store : (Run.final Sys.step smallSys mmapStoreRun).k.kern = smallSys.k.kern :=
  (kernel_tables_run smallSys rfl mmapStoreRun mmapStoreRun_userOnly).1

/-- A page below 512 GiB, in slot 0, and one at the start of slot 256, both at a fixed
address; the first is written to. -/
def fixedRun : List SysOp :=
  [.newProc, .call 0 (.mmap 0x7000000000 4096 3 0x32), .call 0 (.store 0x7000000000 7),
    .call 0 (.mmap 0xFFFF800000000000 4096 3 0x32)]

/-- **Where the tables are reached.** `MAP_FIXED` takes any page-aligned address: the
first page's tables are created under the PML4 slot all processes share, and the
second mapping lies above `USER_ADDR_LIMIT`. -/
theorem fixed_mapping_reaches_kernel_tables : (Run.final Sys.step smallSys fixedRun).k.kern 3 448 ≠ smallSys.k.kern 3 448 ∧
      ∃ q, (Run.final Sys.step smallSys fixedRun).proc 0 = some q ∧ ∃ v ∈ q.1.vmas, userAddrLimit < v.stop := by
  refine ⟨by decide +kernel, ?_⟩
  have h : ((Run.final Sys.step smallSys fixedRun).proc 0).map (fun q => q.1.vmas) =
      some [⟨0x7000000000, 0x7000001000, 3, 0x32⟩, ⟨0xFFFF800000000000, 0xFFFF800000001000, 3, 0x32⟩] := by
    decide +kernel
  obtain ⟨q, hq, hv⟩ := Option.map_eq_some_iff.1 h
  exact ⟨q, hq, _, by rw [hv]; exact List.mem_cons_of_mem _ List.mem_cons_self, by decide⟩

end NeoOS
