import NeoOS.Proof.Fork
import NeoOS.Proof.PmmRun

/-!
# Invariants of the process table

`SlotInv K I s` says `K` of the kernel and `I` of every live process. What one
process does is seen by the others through the kernel only, so an invariant of this
shape is kept by a step as soon as the process that steps keeps it.
-/

namespace NeoOS

variable {s : Sys} {K : Kernel → Prop} {I : Proc → Prop} {i : ℕ} {p : Proc} {kstack : ℕ} {k : Kernel}

/-- `K` of the kernel, `I` of every live process. -/
structure SlotInv (K : Kernel → Prop) (I : Proc → Prop) (s : Sys) : Prop where
  kernel : K s.k
  procs : ∀ p kstack, .live p kstack ∈ s.procs → I p

theorem Sys.proc_slot (h : s.proc i = some (p, kstack)) : s.procs[i]? = some (.live p kstack) := by
  unfold Sys.proc at h
  split at h
  · rename_i q ks hq
    cases h
    exact hq
  · cases h

section Steps

variable (h : SlotInv K I s)
include h

theorem SlotInv.proc (hp : s.proc i = some (p, kstack)) : I p := h.procs p kstack (List.mem_of_getElem? (Sys.proc_slot hp))

theorem SlotInv.set {x : Slot} (hk : K k) (hx : ∀ p kstack, x = .live p kstack → I p) (i : ℕ) :
    SlotInv K I { s with k := k, procs := s.procs.set i x } := by
  refine ⟨hk, fun p kstack hmem => ?_⟩
  rcases List.mem_or_eq_of_mem_set hmem with hmem | rfl
  · exact h.procs p kstack hmem
  · exact hx p kstack rfl

theorem SlotInv.append (hk : K k) (hp : I p) (kstack : ℕ) :
    SlotInv K I { s with k := k, procs := s.procs ++ [.live p kstack] } := by
  refine ⟨hk, fun q ks hmem => ?_⟩
  rcases List.mem_append.1 hmem with hmem | hmem
  · exact h.procs q ks hmem
  · cases List.mem_singleton.1 hmem
    exact hp

theorem SlotInv.call {op : ProcOp} (hf : ∀ p kstack, s.proc i = some (p, kstack) → I p →
      K (procStep s.fbPhys s.fbSize op s.k p).1 ∧ I (procStep s.fbPhys s.fbSize op s.k p).2) :
    SlotInv K I (s.act (.call i op)) := by
  unfold Sys.act
  dsimp only
  split
  · exact h
  · rename_i p kstack hp
    obtain ⟨hk, hi⟩ := hf p kstack hp (h.proc hp)
    exact h.set hk (fun q ks hq => by cases hq; exact hi) i

theorem SlotInv.fork (hf : ∀ p kstack, s.proc i = some (p, kstack) → I p → K (forkTask s.k p).1 ∧ I (forkTask s.k p).2.1 ∧
      ∀ q stack, (forkTask s.k p).2.2 = some (q, stack) → I q) : SlotInv K I (s.act (.fork i)) := by
  unfold Sys.act
  dsimp only
  split
  · exact h
  · rename_i p kstack hp
    obtain ⟨hk, hi, hq⟩ := hf p kstack hp (h.proc hp)
    have hset := h.set hk (fun q ks hq => by cases hq; exact hi) i (x := .live (forkTask s.k p).2.1 kstack)
    split
    · exact hset
    · rename_i child stack hc
      exact hset.append hk (hq child stack hc) stack

theorem SlotInv.exit (hf : ∀ p kstack, s.proc i = some (p, kstack) → K (Vm.freeAddressSpace s.k p.as)) :
    SlotInv K I (s.act (.exit i)) := by
  unfold Sys.act
  dsimp only
  split
  · exact h
  · rename_i p kstack hp
    split
    · exact h
    · exact h.set (hf p kstack hp) (fun _ _ hx => Slot.noConfusion hx) i

theorem SlotInv.reap (hf : ∀ pml4 kstack, K ((s.k.free kstack kstackOrder).flushDeferred pml4)) :
    SlotInv K I (s.act (.reap i)) := by
  unfold Sys.act
  dsimp only
  split
  · exact h.set (hf _ _) (fun _ _ hx => Slot.noConfusion hx) i
  · exact h

theorem SlotInv.staleStore {addr n : ℕ} {b : UInt8} (hf : ∀ f o, K (s.k.poke f o b)) :
    SlotInv K I (s.act (.staleStore i addr n b)) := by
  unfold Sys.act
  dsimp only
  split
  · split
    · exact ⟨hf _ _, h.procs⟩
    · exact h
  · exact h

end Steps

/-- The threads and the old translations are no matter for it. -/
theorem SlotInv.step {op : SysOp} (h : SlotInv K I (s.act op)) : SlotInv K I (s.step op) := ⟨h.kernel, h.procs⟩

/-! ## Steps that nothing comes between -/

/-- The call raises no fault. -/
def ProcOp.faultless (k : Kernel) (p : Proc) : ProcOp → Bool
  | .store addr _ => hwAllows ⟨k, p.as⟩ (vpnOf addr) true
  | .load addr => hwAllows ⟨k, p.as⟩ (vpnOf addr) false
  | .kernelWrite addr len =>
    (Vm.pages (addr / 4096 * 4096) (addr + len)).all fun va => !((⟨k, p.as⟩ : Vm).leaf (vpnOf va)).shared
  | _ => true

/-- What every step has to meet for this model to be about it: a process that is made gets a frame for its PML4
and, if it is spawned, a kernel stack; and `fork_task` and the two kinds of page fault, which act on entries they
saw without a lock, find no other thread of the process. -/
def Orderly (s : Sys) : SysOp → Prop
  | .newProc => (s.k.alloc 0).1 ≠ none ∧ ((s.k.alloc 0).2.alloc kstackOrder).1 ≠ none
  | .call i op => ∀ p kstack, s.proc i = some (p, kstack) → s.siblings i = 0 ∨ op.faultless s.k p
  | .fork i => s.siblings i = 0 ∧ ((procMem s.k).1 → ((procMem s.k).2.alloc 0).1 ≠ none)
  | _ => True

/-! ## A small machine -/

/-- 32 frames of available memory behind the kernel image. -/
def smallPmm : Pmm := [⟨0x400000, 0x20000, 1⟩].foldl (initEntry smallImage) pmmReset

/-- A machine with 128 KiB of memory, no framebuffer, and no process yet. -/
def smallSys : Sys where
  k := quietKernel smallPmm
  shared i := if sharedSlot i then Pte.table (1 + i) else Pte.zero
  fbPhys := 0
  fbSize := 0
  procs := []
  siblings _ := 0
  stale _ _ := []

theorem smallSys_spawns : Orderly smallSys .newProc := by
  unfold Orderly
  decide +kernel

end NeoOS
