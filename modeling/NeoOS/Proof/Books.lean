import NeoOS.Proof.AccountFork
import NeoOS.Proof.SharedRun

/-!
# The accounts of the whole system

`BooksOK aim base s` puts the address spaces together: the reference count of a frame
covers the references of every process, of the kernel stacks, of the deferred-free queue
and the ones from boot. A step of one process is seen by the others through the frames
they refer to, and those it leaves alone; so one lemma, `BooksOK.replace`, carries every
step of a process over to the system.

* `books_step`: every step that meets the condition keeps the accounts, and the bytes of
  the processes that took no part in it.
-/

namespace NeoOS

open List
open Buddy (In)

variable {aim : Aim} {base O R : ℕ → ℕ} {k k' : Kernel} {s : Sys} {l : List Slot} {x y : Slot} {p : Proc}
  {as : AddrSpace} {kstack pml4 i f v : ℕ} {op : ProcOp}

/-- The references of a slot. -/
def slotRefs : Slot → ℕ → ℕ
  | .live p kstack, f => spaceRefs p.as f + block kstack kstackOrder f
  | .zombie _ kstack, f => block kstack kstackOrder f
  | .gone, _ => 0

/-- The references of all slots. -/
def procRefs (l : List Slot) (f : ℕ) : ℕ := (l.map fun x => slotRefs x f).sum

theorem procRefs_split (h : l[i]? = some x) (f : ℕ) : procRefs l f = slotRefs x f + procRefs (l.set i .gone) f := by
  unfold procRefs
  induction l generalizing i with
  | nil => cases h
  | cons a l ih =>
    cases i with
    | zero =>
      cases h
      simp [slotRefs]
    | succ i =>
      have := ih (i := i) h
      simp only [set_cons_succ, map_cons, sum_cons]
      omega

theorem procRefs_set (h : l[i]? = some x) (y : Slot) (f : ℕ) :
    procRefs (l.set i y) f = slotRefs y f + procRefs (l.set i .gone) f := by
  obtain ⟨hlt, -⟩ := List.getElem?_eq_some_iff.1 h
  have := procRefs_split (l := l.set i y) (getElem?_set_self hlt) f
  rwa [set_set] at this

theorem procRefs_append (l : List Slot) (x : Slot) (f : ℕ) : procRefs (l ++ [x]) f = slotRefs x f + procRefs l f := by
  unfold procRefs
  rw [map_append, sum_append]
  simp only [map_cons, map_nil, sum_cons, sum_nil]
  omega

theorem slotRefs_le (h : x ∈ l) (f : ℕ) : slotRefs x f ≤ procRefs l f :=
  single_le_sum (fun _ _ => Nat.zero_le _) _ (mem_map_of_mem h)

theorem mem_set_cases (h : x ∈ l.set i y) : x = y ∨ x ∈ l.set i .gone := by
  obtain ⟨j, hj⟩ := mem_iff_getElem?.1 h
  by_cases hij : i = j
  · subst hij
    rw [getElem?_set] at hj
    split at hj
    · split at hj
      · cases hj; exact .inl rfl
      · cases hj
    · rename_i hne
      exact absurd rfl hne
  · right
    refine mem_iff_getElem?.2 ⟨j, ?_⟩
    rw [getElem?_set_ne hij] at hj ⊢
    exact hj

/-- What holds of one slot. -/
def SlotOK (aim : Aim) (k : Kernel) : Slot → Prop
  | .live p kstack => LeavesOK aim k p.as ∧ UserOK p ∧ BlockOK k.pmm kstack kstackOrder
  | .zombie _ kstack => BlockOK k.pmm kstack kstackOrder
  | .gone => True

/-- A frame that only `R` refers to stays its own. -/
def KeepsSole (R : ℕ → ℕ) (k k' : Kernel) : Prop :=
  ∀ f, R f ≠ 0 → k.pmm.refcount f = 1 → k'.pmm.refcount f = 1

theorem KeepsSole.mono (h : KeepsSole R k k') (hO : ∀ f, O f ≤ R f) : KeepsSole O k k' :=
  fun f hf => h f (by have := hO f; omega)

theorem BlockOK.keeps {o : ℕ} (h : BlockOK k.pmm kstack o) (hs : KeepsSole (block kstack o) k k') : BlockOK k'.pmm kstack o :=
  h.held fun f hf => hs f (by rw [block_in hf]; decide) (h.sole f hf)

theorem LeavesOK.keeps (h : LeavesOK aim k as) (hs : KeepsSole (spaceRefs as) k k') : LeavesOK aim k' as :=
  ⟨h.wf, h.frames, h.dev, fun ha v hc ho hw =>
    hs _ (by have := owns_le_spaceRefs hc ho; omega) (h.sole ha v hc ho hw)⟩

theorem SlotOK.keeps (h : SlotOK aim k x) (hs : KeepsSole (slotRefs x) k k') : SlotOK aim k' x := by
  cases x with
  | live p kstack =>
    obtain ⟨h1, h2, h3⟩ := h
    exact ⟨h1.keeps (hs.mono fun f => Nat.le_add_right _ _), h2, h3.keeps (hs.mono fun f => Nat.le_add_left _ _)⟩
  | zombie pml4 kstack => exact .keeps h hs
  | gone => trivial

/-- **The accounts of the system**, `base` being the references from boot. -/
structure BooksOK (aim : Aim) (base : ℕ → ℕ) (s : Sys) : Prop where
  kern : KernOK aim.noLeak (fun f => procRefs s.procs f + base f) s.k
  slots : ∀ x ∈ s.procs, SlotOK aim s.k x
  fb : ∀ o < s.fbSize, aim.device (frameField (add64 s.fbPhys o))
  device : aim.apart → ∀ f, aim.device f → maxFrames ≤ f ∨ base f ≠ 0 ∧ s.k.pmm.refcount f = 1
  stale : ∀ i v, s.stale i v = []

/-- **What a step keeps**: the accounts, and the bytes of the frames that the slots `old`,
which took no part in it, refer to. -/
structure Booked (aim : Aim) (base : ℕ → ℕ) (s : Sys) (old : List Slot) (t : Sys) : Prop where
  books : BooksOK aim base t
  mem : aim.apart → ∀ f, procRefs old f ≠ 0 → ¬ aim.device f → t.k.mem f = s.k.mem f

/-- Everybody but the process in slot `i`. -/
def others (s : Sys) (base : ℕ → ℕ) (i kstack f : ℕ) : ℕ :=
  procRefs (s.procs.set i .gone) f + base f + block kstack kstackOrder f

section

variable (h : BooksOK aim base s)
include h

theorem Booked.refl (old : List Slot) : Booked aim base s old s := ⟨h, fun _ _ _ _ => rfl⟩

/-- **A step**: the slots of `old` are spared, the others are accounted for anew. -/
theorem BooksOK.update {old new : List Slot} (hk : KernOK aim.noLeak (fun f => procRefs new f + base f) k')
    (hs : KeepsSole (fun f => procRefs old f + base f) s.k k')
    (hm : aim.apart → ∀ f, procRefs old f ≠ 0 → ¬ aim.device f → k'.mem f = s.k.mem f)
    (hnew : ∀ x ∈ new, x ∈ old ∧ SlotOK aim s.k x ∨ SlotOK aim k' x) :
    Booked aim base s old { s with k := k', procs := new } := by
  refine ⟨⟨hk, fun x hx => ?_, h.fb, fun ha f hd => ?_, h.stale⟩, hm⟩
  · rcases hnew x hx with ⟨hold, hok⟩ | hok
    · exact hok.keeps (hs.mono fun f => (slotRefs_le hold f).trans (Nat.le_add_right _ _))
    · exact hok
  · refine (h.device ha f hd).imp id fun hb => ⟨hb.1, hs f ?_ hb.2⟩
    dsimp only
    omega

theorem BooksOK.beside (hx : x ∈ s.procs.set i .gone) : SlotOK aim s.k x := by
  rcases mem_or_eq_of_mem_set hx with hx | rfl
  · exact h.slots x hx
  · trivial

theorem BooksOK.replace (hi : s.procs[i]? = some x)
    (hk : KernOK aim.noLeak (fun f => slotRefs y f + (procRefs (s.procs.set i .gone) f + base f)) k')
    (hs : KeepsSole (fun f => procRefs (s.procs.set i .gone) f + base f) s.k k')
    (hm : aim.apart → ∀ f, procRefs (s.procs.set i .gone) f ≠ 0 → ¬ aim.device f → k'.mem f = s.k.mem f)
    (hy : SlotOK aim k' y) :
    Booked aim base s (s.procs.set i .gone) { s with k := k', procs := s.procs.set i y } := by
  refine h.update (hk.congr fun f => by rw [procRefs_set hi]; omega) hs hm fun z hz => ?_
  rcases mem_set_cases hz with rfl | hz
  · exact .inr hy
  · exact .inl ⟨hz, h.beside hz⟩

/-! ## The steps -/

theorem BooksOK.vm (hi : s.procs[i]? = some (.live p kstack)) :
    VmOK aim (others s base i kstack) ⟨s.k, p.as⟩ ∧ UserOK p ∧ BlockOK s.k.pmm kstack kstackOrder := by
  obtain ⟨h1, h2, h3⟩ := h.slots _ (mem_of_getElem? hi)
  refine ⟨⟨h.kern.congr fun f => ?_, h1⟩, h2, h3⟩
  rw [procRefs_split hi]
  simp only [slotRefs, others]
  omega

end

/-- The condition on a step. -/
def Accounted (aim : Aim) (s : Sys) (op : SysOp) : Prop := Orderly s op ∧
  match op with
  | .call i op => ∀ p kstack, s.proc i = some (p, kstack) →
    CallUserOnly s.k p op ∧ CallAccounted aim s.k p op
  | .fork i => ∀ p kstack, s.proc i = some (p, kstack) → (procMem s.k).1 → ForkAccounted aim (procMem s.k).2 p
  | .exit i => ∀ p kstack, s.proc i = some (p, kstack) → s.siblings i = 0 →
    aim.noLeak → Room (Vm.spaceFrames p.as).length s.k
  | _ => True

theorem Spares.keeps {strict : Prop} (h : Spares O k k') (hk : KernOK strict R k') (hR : ∀ f, O f ≤ R f) :
    KeepsSole O k k' := fun _ hf h1 => h.sole hk hR hf h1

/-- The slots that take no part in a step. -/
def bystanders (s : Sys) : SysOp → List Slot
  | .call i _ | .fork i | .exit i | .reap i => s.procs.set i .gone
  | _ => s.procs

theorem Spares.memOf (h : Spares O k k') (hR : ∀ f, R f ≤ O f) :
    aim.apart → ∀ f, R f ≠ 0 → ¬ aim.device f → k'.mem f = k.mem f := fun _ f hf _ =>
  h.mem f (by have := hR f; omega)

section Kept

variable (h : BooksOK aim base s)
include h

theorem BooksOK.newProc (hc : Accounted aim s .newProc) : Booked aim base s (bystanders s .newProc) (s.act .newProc) := by
  obtain ⟨hc1, hc2⟩ := hc.1
  obtain ⟨f, hf⟩ := Option.ne_none_iff_exists'.1 hc1
  have ha : s.k.alloc 0 = (some f, (s.k.alloc 0).2) := by rw [← hf]
  obtain ⟨hok, hsp⟩ := VmOK.newSpace h.kern ha fun _ key => s.shared key
  have h2 : (newSpace s.k fun _ key => s.shared key).2 = (s.k.alloc 0).2.zeroFrame f := by
    unfold newSpace Kernel.allocTableFrame; rw [ha]
  obtain ⟨b, hb⟩ := Option.ne_none_iff_exists'.1 hc2
  -- the zeroed frame makes no difference to the allocator
  have hb' : ((newSpace s.k fun _ key => s.shared key).2.alloc kstackOrder).1 = some b := by rw [h2]; exact hb
  unfold Sys.act
  dsimp only
  generalize newSpace s.k (fun _ key => s.shared key) = c at hok hsp hb'
  obtain ⟨r, k2, hr⟩ : ∃ r k2, c.2.alloc kstackOrder = (r, k2) := ⟨_, _, rfl⟩
  rw [hr] at hb' ⊢
  cases hb'
  have hst := hok.kern.alloc hr
  have hall := hsp.trans (hst.spares.mono fun x => Nat.le_add_left _ _)
  refine h.update (hst.ok.congr fun x => ?_) (hall.keeps hst.ok fun x => by omega)
    (hall.memOf fun x => Nat.le_add_right _ _) fun z hz => ?_
  · rw [procRefs_append]
    simp only [slotRefs, Option.getD_some]
    omega
  · rcases mem_append.1 hz with hz | hz
    · exact .inl ⟨hz, h.slots z hz⟩
    · cases mem_singleton.1 hz
      refine .inr ⟨?_, .fresh _, hst.toBlockOK⟩
      exact hok.leaves.spared hst.ok (hst.spares.mono fun x => Nat.le_add_right _ _) fun x => by dsimp only; omega

theorem BooksOK.call (hc : Accounted aim s (.call i op)) :
    Booked aim base s (bystanders s (.call i op)) (s.act (.call i op)) := by
  unfold Sys.act
  dsimp only
  split
  · exact Booked.refl h _
  rename_i p kstack hp
  have hi := Sys.proc_slot hp
  obtain ⟨hvm, hu, hst⟩ := h.vm hi
  obtain ⟨hc1, hc2⟩ := hc.2 p kstack hp
  have hstep := hvm.call hu hc1 hc2 h.fb
  have hu' := UserStep.call hu hc1 s.fbPhys s.fbSize
  have hkeep : KeepsSole (others s base i kstack) s.k (procStep s.fbPhys s.fbSize op s.k p).1 := fun f hf h1 => by
    have := hstep.le f hf
    have := hstep.ok.kern.held f
    dsimp only at *
    omega
  refine h.replace hi (hstep.ok.kern.congr fun f => ?_) (hkeep.mono fun f => ?_)
    (fun ha f hf => hstep.mem ha f (by simp only [others]; omega))
    ⟨hstep.ok.leaves, hu'.ok, hst.keeps (hkeep.mono fun f => ?_)⟩ <;> simp only [slotRefs, others] <;> omega

theorem BooksOK.fork (hc : Accounted aim s (.fork i)) : Booked aim base s (bystanders s (.fork i)) (s.act (.fork i)) := by
  unfold Sys.act
  dsimp only
  split
  · exact Booked.refl h _
  rename_i p kstack hp
  have hi := Sys.proc_slot hp
  obtain ⟨hvm, hu, hst⟩ := h.vm hi
  have hdone := hvm.fork (hc.2 p kstack hp)
  obtain ⟨hu', huq⟩ := UserStep.fork (k := s.k) hu
  generalize forkTask s.k p = r at hdone hu' huq
  have hkeep : KeepsSole (others s base i kstack) s.k r.1 := hdone.apart.sole
  have hy : SlotOK aim r.1 (.live r.2.1 kstack) :=
    ⟨hdone.parent, hu'.ok, hst.keeps (hkeep.mono fun f => by simp only [others]; omega)⟩
  have hO : ∀ f, procRefs (s.procs.set i .gone) f + base f ≤ others s base i kstack f := fun f =>
    Nat.le_add_right _ _
  have hmem : aim.apart → ∀ f, procRefs (s.procs.set i .gone) f ≠ 0 → ¬ aim.device f → r.1.mem f = s.k.mem f :=
    fun _ f hf _ => hdone.apart.mem f (by simp only [others]; omega)
  cases hq : r.2.2 with
  | none =>
    refine h.replace hi ((hdone.alone hq).congr fun f => ?_) (hkeep.mono hO) hmem hy
    simp only [slotRefs, others]
    omega
  | some q =>
    obtain ⟨hk, hleaf, hstk⟩ := hdone.child q.1 q.2 hq
    refine h.update (hk.congr fun f => ?_) (hkeep.mono hO) hmem fun z hz => ?_
    · rw [procRefs_append, procRefs_set hi]
      simp only [slotRefs, others]
      omega
    · rcases mem_append.1 hz with hz | hz
      · rcases mem_set_cases hz with rfl | hz
        · exact .inr hy
        · exact .inl ⟨hz, h.beside hz⟩
      · cases mem_singleton.1 hz
        exact .inr ⟨hleaf, (huq q.1 q.2 hq).1, hstk⟩

theorem BooksOK.exit (hc : Accounted aim s (.exit i)) : Booked aim base s (bystanders s (.exit i)) (s.act (.exit i)) := by
  unfold Sys.act
  dsimp only
  split
  · exact Booked.refl h _
  rename_i p kstack hp
  split
  · exact Booked.refl h _
  rename_i halone
  have hi := Sys.proc_slot hp
  obtain ⟨hvm, -, hst⟩ := h.vm hi
  obtain ⟨hk, hsp⟩ := hvm.freeAddressSpace (hc.2 p kstack hp (not_not.1 halone))
  generalize Vm.freeAddressSpace s.k p.as = k' at hk hsp
  have hkeep := hsp.keeps hk fun _ => le_rfl
  refine h.replace hi (hk.congr fun f => ?_) (hkeep.mono fun f => Nat.le_add_right _ _)
    (hsp.memOf fun f => by simp only [others]; omega) (hst.keeps (hkeep.mono fun f => Nat.le_add_left _ _))
  simp only [slotRefs, others]
  omega

theorem BooksOK.reap : Booked aim base s (bystanders s (.reap i)) (s.act (.reap i)) := by
  unfold Sys.act
  dsimp only
  split
  swap
  · exact .refl h _
  rename_i pml4 kstack hi
  have hst : BlockOK s.k.pmm kstack kstackOrder := h.slots _ (mem_of_getElem? hi)
  have hk : KernOK aim.noLeak (fun f => procRefs (s.procs.set i .gone) f + base f + block kstack kstackOrder f) s.k :=
    h.kern.congr fun f => by
      rw [procRefs_split hi]
      simp only [slotRefs]
      omega
  obtain ⟨hk1, hsp1⟩ := hk.freeBlock hst
  obtain ⟨hk2, hsp2⟩ := hk1.flushDeferred pml4
  refine h.replace hi (hk2.congr fun f => ?_) ((hsp1.trans hsp2).keeps hk2 fun _ => le_rfl)
    ((hsp1.trans hsp2).memOf fun f => Nat.le_add_right _ _) trivial
  simp only [slotRefs]
  omega

/-- A step of the kernel that no process takes part in. -/
theorem BooksOK.kernel (hk : KernOK aim.noLeak (fun f => procRefs s.procs f + base f) k' ∧
      Spares (fun f => procRefs s.procs f + base f) s.k k') : Booked aim base s s.procs { s with k := k' } :=
  h.update hk.1 (hk.2.keeps hk.1 fun _ => le_rfl) (hk.2.memOf fun _ => Nat.le_add_right _ _) fun x hx =>
    .inl ⟨hx, h.slots x hx⟩

theorem BooksOK.act (op : SysOp) (hc : Accounted aim s op) : Booked aim base s (bystanders s op) (s.act op) := by
  cases op with
  | newProc => exact h.newProc hc
  | call i op => exact h.call hc
  | fork i => exact h.fork hc
  | exit i => exact h.exit hc
  | reap i => exact h.reap
  | shootdown pml4 => exact h.kernel (h.kern.flushDeferred pml4)
  | kmalloc => exact h.kernel h.kern.kmalloc
  | kfree n => exact h.kernel (h.kern.kfree n)
  | threadCreate i => exact .refl h _
  | staleStore i addr n b =>
    unfold Sys.act
    simp only [h.stale, getElem?_nil]
    exact .refl h _

end Kept

/-! ## Old translations -/

theorem leaf_shared_of_allows {vm : Vm} (h : hwAllows vm v true) : (vm.leaf v).shared = false := by
  unfold hwAllows at h
  simp only [all_cons, all_nil, Bool.and_true, Bool.not_true, Bool.false_or, Bool.and_eq_true] at h
  unfold Vm.leaf Pte.shared
  split
  · rw [h.2.2.2.2, Bool.not_true, Bool.and_false, Bool.false_and]
  · rfl

/-- A call without a fault breaks no sharing. -/
theorem faultless_shared (h : op.faultless k p) (hw : op.writes v) :
    ((⟨k, p.as⟩ : Vm).leaf v).shared = false := by
  cases op with
  | store addr b =>
    cases beq_iff_eq.1 hw
    exact leaf_shared_of_allows h
  | kernelWrite addr len =>
    obtain ⟨va, hva, hv⟩ := any_eq_true.1 hw
    cases beq_iff_eq.1 hv
    simpa using all_eq_true.1 h va hva
  | _ => cases hw

/-- **No CPU is left with an old translation** when nobody comes between the steps. -/
theorem stale_step {op : SysOp} (h : ∀ i v, s.stale i v = []) (hc : Orderly s op) (i v : ℕ) : (s.step op).stale i v = [] := by
  have hkeep : s.siblingsAfter op i ≠ 0 → s.outdates i v op = false := by
    intro hs
    by_contra hout
    rw [Bool.not_eq_false] at hout
    cases op with
    | fork j =>
      simp only [Sys.outdates, Bool.and_eq_true, beq_iff_eq] at hout
      cases hout.1
      exact hs hc.1
    | call j op =>
      simp only [Sys.outdates, Bool.and_eq_true, beq_iff_eq] at hout
      obtain ⟨⟨rfl, hw⟩, hleaf⟩ := hout
      unfold Sys.leaf at hleaf
      split at hleaf
      · cases hleaf
      · rename_i p kstack hp
        rw [faultless_shared ((hc p kstack hp).resolve_left hs) hw] at hleaf
        cases hleaf
    | _ => cases hout
  change s.staleAfter op i v = []
  unfold Sys.staleAfter
  split
  · rfl
  rename_i hs
  split
  · split
    · rfl
    · exact h i v
  · rw [hkeep hs]
    exact h i v

/-- **Every step keeps the accounts**, and the bytes of the processes that took no part. -/
theorem books_step (h : BooksOK aim base s) (op : SysOp) (hc : Accounted aim s op) :
    Booked aim base s (bystanders s op) (s.step op) := by
  have hact := h.act op hc
  exact ⟨⟨hact.books.kern, hact.books.slots, hact.books.fb, hact.books.device, stale_step h.stale hc.1⟩, hact.mem⟩

end NeoOS
