import NeoOS.Proof.PermStep
import NeoOS.Proof.Slots

/-!
# The right to write over whole runs

A fork hands every page on with the rights it had, or fewer. With the calls of
`PermStep` this gives the agreement of leaves and mappings in every state a run
reaches.

* `permissions_run`: whole runs.
* `cow_mark_outlives_mprotect`: where the agreement fails.
-/

namespace NeoOS

open List
open Run (final)
open Sys (step)

variable {k : Kernel} {p : Proc} {as : AddrSpace} {s : ForkSt} {e : Pte} {v x addr : ℕ}

/-! ## Fork -/

theorem forkPte_weaker (hn : e.nofree = false) : Weaker (forkPte e) e := by
  unfold forkPte
  split
  · rename_i h
    have hpres : e.present → e.writable := fun hp => by simpa [hp] using h
    have hright : WriteRight { e with writable := false, cow := true } → e.writable := by
      rintro (hw | hw)
      · exact absurd hw Bool.false_ne_true
      · exact hpres hw.1
    refine ⟨fun hw => .inl (hright hw), fun hl => ⟨fun hw => hl.nx (.inl (hright hw)), fun hn' => ?_⟩⟩
    exact absurd (hn'.symm.trans hn) (by decide)
  · exact .refl e

theorem devCopy_weaker (hl : LeafOK e) (hn : e.nofree) : Weaker e.shown e := by
  have hright : WriteRight e.shown → e.writable := by
    rintro (hw | hw)
    · exact hw
    · exact absurd (hw.2.symm.trans (hl.dev hn)) (by decide)
  exact ⟨fun hw => .inl (hright hw), fun _ => ⟨fun hw => hl.nx (.inl (hright hw)), fun _ => hl.dev hn⟩⟩

theorem parked_weaker (e' e : Pte) (hn : e'.nofree = false) : Weaker (Vm.setprotPte e' Pte.zero) e := by
  have hright : ¬ WriteRight (Vm.setprotPte e' Pte.zero) := by
    rintro (hw | hw) <;> simp [Vm.setprotPte, Pte.zero] at hw
  refine ⟨fun hw => absurd hw hright, fun _ => ⟨fun hw => absurd hw hright, fun h => ?_⟩⟩
  exact absurd (h.symm.trans hn) (by decide)

/-- While `fork` runs no page of parent or child has a right the parent's had not. -/
structure ForkLeaves (as : AddrSpace) (s : ForkSt) : Prop where
  parentWF : WF s.parent
  childWF : WF s.child
  parent : ∀ x, UserCell 1 x → Weaker (s.parent.ent 1 x) (as.ent 1 x)
  child : ∀ x, UserCell 1 x → Weaker (s.child.ent 1 x) (as.ent 1 x)
  frame : ∀ x, (s.parent.ent 1 x).hasFrame = (as.ent 1 x).hasFrame

theorem childPte_weaker (hn : e.nofree = false) : Weaker (childPte e) e := by
  unfold childPte
  split
  · exact forkPte_weaker hn
  · exact parked_weaker _ _ ((forkPte_nofree e).trans hn)

section

variable (h : ForkLeaves as s)
include h

theorem ForkLeaves.putParent (hc : UserCell 1 v) (hf : (as.ent 1 v).hasFrame) (hn : (s.parent.ent 1 v).nofree = false) :
    ForkLeaves as { s with parent := s.parent.put 1 v (forkPte (s.parent.ent 1 v)) } := by
  have hfr : (s.parent.ent 1 v).hasFrame := (h.frame v).trans hf
  obtain ⟨hwf, hput⟩ := NoGain.put ⟨s.k, s.parent⟩ h.parentWF hc (by rw [forkPte_hasFrame]; exact hfr) hfr (forkPte_weaker hn)
  refine ⟨hwf, h.childWF, fun x hx => (hput x hx).trans (h.parent x hx), h.child, fun x => ?_⟩
  by_cases hx : x = v
  · subst hx
    rw [AddrSpace.put_self, forkPte_hasFrame, h.frame]
  · exact (congrArg Pte.hasFrame (AddrSpace.put_other fun hh => hx hh.2)).trans (h.frame x)

theorem ForkLeaves.tables {vm : Vm} (ht : Tables v ⟨k, s.child⟩ vm) : ForkLeaves as { s with k := vm.k, child := vm.as } :=
  ⟨h.parentWF, ht.wf h.childWF, h.parent, fun x hx => by
    have := ht.leaves x
    rw [this]
    exact h.child x hx, h.frame⟩

theorem ForkLeaves.putChild (hp : HasPath s.child v) (hf : e.hasFrame)
    (hw : Weaker e (as.ent 1 v)) : ForkLeaves as { s with child := s.child.put 1 v e } := by
  refine { h with childWF := h.childWF.putLeaf (.inr ⟨hf, hp⟩), child := fun x hx => ?_ }
  by_cases hxv : x = v
  · subst hxv
    rw [AddrSpace.put_self]
    exact hw
  · exact (show (s.child.put 1 v e).ent 1 x = s.child.ent 1 x from AddrSpace.put_other fun hh => hxv hh.2) ▸ h.child x hx

theorem ForkLeaves.page (hc : UserCell 1 v) (hf : (as.ent 1 v).hasFrame)
    (hl : ∀ x, UserCell 1 x → LeafOK (as.ent 1 x)) : ForkLeaves as (forkPage s v).2 := by
  have hw := h.parent v hc
  have hfr : (s.parent.ent 1 v).hasFrame := (h.frame v).trans hf
  have hend := forkPage_cases h.childWF hc
  generalize forkPage s v = r at hend
  cases hend with
  | devFailed hn ht => exact h.tables ht
  | dev hn ht hp =>
    exact (h.tables ht).putChild hp rfl ((devCopy_weaker (hw.leaf (hl v hc)) hn).trans hw)
  | failed hn ht => exact (h.putParent hc hf hn).tables ht
  | shared hn ht hp =>
    exact ((h.putParent hc hf hn).tables ht).putChild hp (childPte_hasFrame hfr) ((childPte_weaker hn).trans hw)

theorem ForkLeaves.pages {l : List ℕ} (hl : ∀ v ∈ l, UserCell 1 v ∧ (as.ent 1 v).hasFrame)
    (hleaf : ∀ x, UserCell 1 x → LeafOK (as.ent 1 x)) : ForkLeaves as (forkPages l s).2 := by
  induction l generalizing s with
  | nil => exact h
  | cons v rest ih =>
    obtain ⟨⟨hc, hf⟩, hrest⟩ := forall_mem_cons.1 hl
    have hpage := h.page hc hf hleaf
    unfold forkPages
    dsimp only
    split
    · exact ih hpage hrest
    · exact hpage

end

/-- **`fork_task`** keeps the agreement in the parent, and the child has it too. -/
theorem PermInv.fork (h : PermInv p) : PermInv (forkTask k p).2.1 ∧
    ∀ q stack, (forkTask k p).2.2 = some (q, stack) → PermInv q := by
  have hend := forkTask_cases k p
  have hinit : ForkLeaves p.as ⟨(newSpace (procMem k).2 p.as.ent).2, p.as, (newSpace (procMem k).2 p.as.ent).1⟩ :=
    ⟨h.wf, newSpace_wf _ _, fun _ _ => .refl _, fun x hx => (newSpace_blank hx) ▸ Weaker.zero _, fun _ => rfl⟩
  have hleaves := hinit.pages (fun v hv => mem_spaceLeaves hv) h.perm.leaf
  generalize forkPages (spaceLeaves p.as)
    ⟨(newSpace (procMem k).2 p.as.ent).2, p.as, (newSpace (procMem k).2 p.as.ent).1⟩ = r at hend hleaves
  generalize forkTask k p = out at hend ⊢
  have hparent : PermInv { p with as := r.2.parent } := h.ofAgrees ⟨hleaves.parentWF, h.perm.weaken hleaves.parent⟩
  rcases hend with rfl | hend
  · exact ⟨h, nofun⟩
  · cases hend with
    | failed hg => exact ⟨hparent, nofun⟩
    | forked hr h1 h2 h3 =>
      refine ⟨hparent, fun q stack heq => ?_⟩
      cases heq
      exact h.ofAgrees ⟨hleaves.childWF, h.perm.weaken hleaves.child⟩

/-! ## The system -/

/-- **Permission soundness** of one process: a leaf is writable, and a write fault is
granted, only where the mapping has `PROT_WRITE`; no user leaf is both writable and
executable. -/
structure PermSound (k : Kernel) (p : Proc) : Prop where
  leaf : ∀ w ∈ p.vmas, ∀ addr, w.start ≤ addr → addr < w.stop → ((⟨k, p.as⟩ : Vm).leaf (vpnOf addr)).writable →
    protWrite w.prot
  fault : ∀ w ∈ p.vmas, ∀ addr, w.start ≤ addr → addr < w.stop → (pageFault k p addr true).1 → protWrite w.prot
  wx : ∀ addr, UserPage (vpnOf addr) → ((⟨k, p.as⟩ : Vm).leaf (vpnOf addr)).writable → ((⟨k, p.as⟩ : Vm).leaf (vpnOf addr)).nx

theorem PermInv.sound (h : PermInv p) (k : Kernel) : PermSound k p := by
  have hright : ∀ w ∈ p.vmas, ∀ addr, w.start ≤ addr → addr < w.stop →
      WriteRight ((⟨k, p.as⟩ : Vm).leaf (vpnOf addr)) → protWrite w.prot = true := by
    intro w hw addr h1 h2 hwr
    have hc := userCell_vpn ((h.user.vmas w hw).page h1 h2)
    rw [h.wf.leaf hc] at hwr
    exact (h.perm.vma w hw).write _ hc ((h.maps.vmas.each w hw).inRange (h.user.vmas w hw) h1 h2) hwr
  refine ⟨fun w hw addr h1 h2 hwr => hright w hw addr h1 h2 (.inl hwr), fun w hw addr h1 h2 hf => ?_, fun addr hu hwr => ?_⟩
  · have hc := userCell_vpn ((h.user.vmas w hw).page h1 h2)
    unfold NeoOS.pageFault at hf
    split at hf
    · rw [if_pos rfl] at hf
      have hend := handleCowFault_cases ⟨k, p.as⟩ h.wf hc
      generalize (⟨k, p.as⟩ : Vm).handleCowFault addr = r at hend hf
      refine hright w hw addr h1 h2 ?_
      rw [h.wf.leaf hc]
      cases hend with
      | refused | noFrame => exact absurd hf Bool.false_ne_true
      | sole hl hr | copied hl hr ha => exact .inr ⟨hl.present, hl.cow⟩
    · have hend := vmaFault_cases k p addr true
      generalize NeoOS.vmaFault k p addr true = r at hend hf
      cases hend with
      | refused | noFrame => exact absurd hf Bool.false_ne_true
      | tried hv hprot hwt hphys ha hr =>
        rename_i v f k' r
        obtain ⟨hmem, h3, h4⟩ := vmaFind_mem hv
        have hin : ∀ u ∈ p.vmas, u.start ≤ addr → addr < u.stop → InRange u.start u.stop (vpnOf addr) :=
          fun u hu => (h.maps.vmas.each u hu).inRange (h.user.vmas u hu)
        rw [← h.maps.vmas.unique hmem hw (hin v hmem h3 h4) (hin w hw h1 h2)]
        exact hwt rfl
  · have hc := userCell_vpn hu
    rw [h.wf.leaf hc] at hwr ⊢
    exact (h.perm.leaf _ hc).nx (.inl hwr)

/-- The condition on a step of the system. -/
def PermCond (s : Sys) (op : SysOp) : Prop := Orderly s op ∧
  match op with
  | .call i op => ∀ p kstack, s.proc i = some (p, kstack) → CallPerm s.k p op
  | _ => True

theorem PermInv.fresh (k : Kernel) (ent : ℕ → ℕ → Pte) : PermInv (freshProc (newSpace k ent).1) where
  user := .fresh _
  maps := ⟨trivial, (by decide : mmapBase % 4096 = 0), (by decide : mmapBase ≤ mmapLimit)⟩
  agrees := ⟨newSpace_wf _ _, fun _ hx => (newSpace_blank hx) ▸ leafOK_zero, fun _ hv => absurd hv not_mem_nil⟩

theorem perm_step {s : Sys} {op : SysOp} (h : SlotInv (fun _ => True) PermInv s) (hok : PermCond s op) :
    SlotInv (fun _ => True) PermInv (s.step op) := by
  refine .step ?_
  cases op with
  | newProc => exact h.append trivial (.fresh _ _) _
  | call i op => exact h.call fun p kstack hp hi => ⟨trivial, hi.call (hok.2 p kstack hp) _ _⟩
  | fork i => exact h.fork fun p kstack hp hi => ⟨trivial, hi.fork.1, hi.fork.2⟩
  | exit i => exact h.exit fun _ _ _ => trivial
  | reap i => exact h.reap fun _ _ => trivial
  | staleStore i addr n b => exact h.staleStore fun _ _ => trivial
  | shootdown | threadCreate | kmalloc | kfree => exact ⟨trivial, h.procs⟩

/-- **Permission soundness.** In a run that starts without processes and whose steps
meet the condition, every process is sound in every state reached. -/
theorem permissions_run (s : Sys) (hs : s.procs = []) (ops : List SysOp) (hv : Run.Valid step PermCond s ops) :
    ∀ p kstack, .live p kstack ∈ (final step s ops).procs → PermSound (final step s ops).k p := by
  have hinit : SlotInv (fun _ => True) PermInv s :=
    ⟨trivial, fun p kstack hmem => by rw [hs] at hmem; exact absurd hmem not_mem_nil⟩
  have h := hv.invariant (fun _ _ => perm_step) hinit
  exact fun p kstack hmem => (h.procs p kstack hmem).sound _

/-- A process maps a page, writes to it, makes it read-only and reads it. -/
def protectRun : List SysOp :=
  [.newProc, .call 0 (.mmap 0 4096 3 0x22), .call 0 (.store mmapBase 7),
    .call 0 (.mprotect mmapBase 4096 1), .call 0 (.load mmapBase)]

theorem inRange_base (h : InRange mmapBase (mmapBase + 4096) x) : x = 0x500000000 := by
  obtain ⟨h1, h2⟩ := h
  unfold mmapBase at h1 h2; omega

theorem protectRun_cond : Run.Valid step PermCond smallSys protectRun := by
  have halone : ∀ {s : Sys} {i : ℕ} {op : ProcOp}, s.siblings i = 0 → Orderly s (.call i op) := fun h0 _ _ _ => .inl h0
  refine ⟨⟨smallSys_spawns, trivial⟩,
    ⟨halone rfl, fun p kstack hp => ⟨fun _ _ _ hf => absurd hf (by decide), fun _ => ?_⟩⟩,
    ⟨halone rfl, fun p kstack _ => ⟨fun hc => hc.1 (by decide), trivial⟩⟩,
    ⟨halone rfl, fun p kstack hp => ⟨trivial, fun w _ _ _ x _ _ hr hf => ?_⟩⟩,
    ⟨halone rfl, fun p kstack _ => ⟨trivial, trivial⟩⟩, trivial⟩
  · -- the process has no mapping and no page yet
    have h : ((smallSys.step .newProc).proc 0).map (fun q => (q.1.vmas, q.1.mmapNext,
        (q.1.as.ent 1 0x500000000).hasFrame)) = some ([], mmapBase, false) := by decide +kernel
    rw [hp] at h
    simp only [Option.map_some, Option.some.injEq, Prod.mk.injEq] at h
    obtain ⟨h1, h2, h3⟩ := h
    refine ⟨fun _ _ => ?_, fun x _ hr _ => ?_⟩
    · rw [if_neg (by decide)]
      intro _
      exact ⟨by decide, fun v hv => by rw [h1] at hv; exact absurd hv not_mem_nil⟩
    · rw [mmapTarget, if_neg (by decide), h2] at hr
      rw [inRange_base hr, h3]
  · -- the page was written to, never forked
    have h : ((((smallSys.step .newProc).step (.call 0 (.mmap 0 4096 3 0x22))).step
        (.call 0 (.store mmapBase 7))).proc 0).map (fun q => (q.1.as.ent 1 0x500000000).cow) =
        some false := by decide +kernel
    rw [hp] at h
    rw [inRange_base hr]
    exact Option.some.inj h

theorem permissions_run_protect : ∃ q, (final step smallSys protectRun).proc 0 = some q ∧
    PermSound (final step smallSys protectRun).k q.1 := by
  have h : ((final step smallSys protectRun).proc 0).isSome := by decide
  obtain ⟨q, hq⟩ := Option.isSome_iff_exists.1 h
  exact ⟨q, hq, permissions_run smallSys rfl protectRun protectRun_cond q.1 q.2 (mem_of_getElem? (Sys.proc_slot hq))⟩

/-- A page is written to before a fork; it then loses `PROT_WRITE` for
`PROT_READ | PROT_EXEC` and is written to once more. -/
def cowProtectRun : List SysOp :=
  [.newProc, .call 0 (.mmap 0 4096 3 0x22), .call 0 (.store mmapBase 7), .fork 0,
    .call 0 (.mprotect mmapBase 4096 5), .call 0 (.store mmapBase 8)]

/-- **Where the agreement fails.** `mprotect` keeps the copy-on-write mark of the page,
so the write fault is granted although the mapping has no `PROT_WRITE`, and the leaf
is writable and executable. -/
theorem cow_mark_outlives_mprotect : ∃ q, (final step smallSys cowProtectRun).proc 0 = some q ∧
      ∃ w ∈ q.1.vmas, w.start ≤ mmapBase ∧ mmapBase < w.stop ∧ protWrite w.prot = false ∧
        ((⟨(final step smallSys cowProtectRun).k, q.1.as⟩ : Vm).leaf (vpnOf mmapBase)).writable = true ∧
        ((⟨(final step smallSys cowProtectRun).k, q.1.as⟩ : Vm).leaf (vpnOf mmapBase)).nx = false := by
  have h : ((final step smallSys cowProtectRun).proc 0).map (fun q => (q.1.vmas,
      ((⟨(final step smallSys cowProtectRun).k, q.1.as⟩ : Vm).leaf (vpnOf mmapBase)).writable,
      ((⟨(final step smallSys cowProtectRun).k, q.1.as⟩ : Vm).leaf (vpnOf mmapBase)).nx)) =
      some ([⟨mmapBase, mmapBase + 4096, 5, 0x22⟩], true, false) := by
    decide +kernel
  obtain ⟨q, hq, hv⟩ := Option.map_eq_some_iff.1 h
  simp only [Prod.mk.injEq] at hv
  exact ⟨q, hq, _, by rw [hv.1]; exact mem_singleton_self _, by decide, by decide, by decide, hv.2⟩

end NeoOS
