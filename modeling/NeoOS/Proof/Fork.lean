import NeoOS.Proof.Space

/-!
# The outcomes of `fork_task`

`forkTask_cases` says once how a fork can end: before anything happened, with the
child's address space handed back, or with a child. What the calls in between do
to the kernel is `Idle`: they ask for kernel memory only.
-/

namespace NeoOS

open List

variable {k k' : Kernel} {p : Proc} {l key v : ℕ} {as : AddrSpace} {e : Pte}

theorem Idle.copyVmas (k : Kernel) (l : List Vma) : Idle k (copyVmas k l).2 := by
  induction l generalizing k with
  | nil => exact .refl
  | cons v vs ih =>
    unfold NeoOS.copyVmas
    dsimp only
    split
    · exact (Idle.kmalloc .refl).trans (ih _)
    · exact .kmalloc .refl

theorem Idle.procMem (k : Kernel) : Idle k (procMem k).2 := by
  unfold NeoOS.procMem
  dsimp only
  split
  · exact .kmalloc .refl
  split
  · exact .kfree (.kmalloc (.kmalloc .refl)) _
  split
  · exact .kfree (.kfree (.kmalloc (.kmalloc (.kmalloc .refl))) _) _
  · exact .kmalloc (.kmalloc (.kmalloc .refl))

theorem Idle.threadMem (k : Kernel) : Idle k (threadMem k).2 := by
  unfold NeoOS.threadMem
  dsimp only
  split
  · exact .kmalloc .refl
  split
  · exact .kfree (.kmalloc (.kmalloc .refl)) _
  · exact .kmalloc (.kmalloc .refl)

/-! ## The pages fork visits -/

theorem mem_treeLeaves (h : v ∈ treeLeaves as l key) : v / 512 ^ (l - 1) = key ∧ (as.ent 1 v).hasFrame := by
  fun_induction treeLeaves as l key with
  | case1 => simp at h
  | case2 =>
    rename_i key hf
    obtain rfl := mem_singleton.1 h
    exact ⟨by simp, hf⟩
  | case3 => simp at h
  | case4 =>
    rename_i l key hp ih
    simp only [mem_flatMap, mem_range] at h
    obtain ⟨i, hi, hv⟩ := h
    obtain ⟨hk, hf⟩ := ih i hv
    rw [Nat.add_sub_cancel] at hk
    refine ⟨?_, hf⟩
    rw [show l + 2 - 1 = l + 1 from rfl, pow_succ, ← Nat.div_div_eq_div_mul, hk]
    omega
  | case5 => simp at h

/-- The pages `fork` copies are user pages that have a frame. -/
theorem mem_spaceLeaves (h : v ∈ spaceLeaves as) : UserCell 1 v ∧ (as.ent 1 v).hasFrame := by
  unfold spaceLeaves at h
  simp only [mem_flatMap, mem_range] at h
  obtain ⟨i, hi, hv⟩ := h
  split at hv
  · simp at hv
  · rename_i hs
    obtain ⟨hk, hf⟩ := mem_treeLeaves hv
    refine ⟨⟨le_rfl, by decide, mem_userSlots.2 ?_⟩, hf⟩
    unfold slotOf
    rw [hk]
    exact ⟨hi, Bool.not_eq_true _ ▸ hs⟩

theorem UserCell.vpnOf (h : UserCell 1 v) : vpnOf (v * 4096) = v := by
  unfold NeoOS.vpnOf
  rw [Nat.mul_div_cancel _ (by decide), Nat.mod_eq_of_lt h.lt]

theorem newSpace_blank {ent : ℕ → ℕ → Pte} (h : UserCell l key) : (newSpace k ent).1.ent l key = Pte.zero := by
  have hs := mem_userSlots.1 h.slot
  refine if_neg ?_
  rintro ⟨rfl, hsh⟩
  rw [slotOf, Nat.sub_self, pow_zero, Nat.div_one] at hs
  rw [hs.2] at hsh
  exact absurd hsh (by decide)

theorem newSpace_wf (k : Kernel) (ent : ℕ → ℕ → Pte) : WF (newSpace k ent).1 where
  below _ _ hc _ hne := absurd (newSpace_blank hc) hne
  table _ _ hc _ := .inl (newSpace_blank hc)
  blank _ hc _ := newSpace_blank hc

/-! ## One page -/

@[simp] theorem forkPte_hasFrame (e : Pte) : (forkPte e).hasFrame = e.hasFrame := by
  unfold forkPte
  split <;> rfl

@[simp] theorem forkPte_present (e : Pte) : (forkPte e).present = e.present := by
  unfold forkPte
  split <;> rfl

@[simp] theorem forkPte_frame (e : Pte) : (forkPte e).frame = e.frame := by
  unfold forkPte
  split <;> rfl

@[simp] theorem forkPte_nofree (e : Pte) : (forkPte e).nofree = e.nofree := by
  unfold forkPte
  split <;> rfl

/-- The entry as `paging_map_into` writes it. -/
def Pte.shown (e : Pte) : Pte := { e with present := true }

theorem Pte.shown_of_present (h : e.present) : e.shown = e := by
  unfold Pte.shown
  rw [← h]

theorem Pte.mapped_eq {f : ℕ} (h : e.frame = f) : { e with frame := f, present := true } = e.shown := by
  rw [← h]; rfl

/-- The child's leaf for a parent's leaf `e`: a `PROT_NONE` page is parked again. -/
def childPte (e : Pte) : Pte :=
  if e.present then forkPte e else Vm.setprotPte (forkPte e).shown Pte.zero

theorem childPte_hasFrame (hf : e.hasFrame) : (childPte e).hasFrame := by
  unfold childPte
  split
  · rw [forkPte_hasFrame]; exact hf
  · exact setprotPte_hasFrame _ _

@[simp] theorem childPte_frame (e : Pte) : (childPte e).frame = e.frame := by
  unfold childPte
  split
  · exact forkPte_frame e
  · rw [setprotPte_frame]; exact forkPte_frame e

@[simp] theorem childPte_nofree (e : Pte) : (childPte e).nofree = e.nofree := by
  unfold childPte
  split
  · exact forkPte_nofree e
  · rw [setprotPte_nofree rfl]; exact forkPte_nofree e

theorem forkPte_writable (e : Pte) : (forkPte e).writable = false := by
  unfold forkPte
  split
  · rfl
  · rename_i h
    simp only [Bool.or_eq_true, not_or, Bool.not_eq_true] at h
    exact h.1

theorem childPte_writable (e : Pte) : (childPte e).writable = false := by
  unfold childPte
  split
  · exact forkPte_writable e
  · rfl

/-- **How one page of `fork_duplicate_user_pages` ends**, for a device page and for one
that owns its frame, when there is a table for it in the child and when there is not. -/
inductive ForkPageEnd (s : ForkSt) (v : ℕ) : Bool × ForkSt → Prop
  | devFailed {vm : Vm} (hn : (s.parent.ent 1 v).nofree) (ht : Tables v ⟨s.k, s.child⟩ vm) :
      ForkPageEnd s v (false, ⟨vm.k, s.parent, vm.as⟩)
  | dev {vm : Vm} (hn : (s.parent.ent 1 v).nofree) (ht : Tables v ⟨s.k, s.child⟩ vm)
      (hp : HasPath vm.as v) : ForkPageEnd s v (true, ⟨vm.k, s.parent, vm.as.put 1 v (s.parent.ent 1 v).shown⟩)
  | failed {vm : Vm} (hn : (s.parent.ent 1 v).nofree = false)
      (ht : Tables v ⟨s.k.share (s.parent.ent 1 v).frame, s.child⟩ vm) : ForkPageEnd s v
        (false, ⟨vm.k, s.parent.put 1 v (forkPte (s.parent.ent 1 v)), vm.as⟩)
  | shared {vm : Vm} (hn : (s.parent.ent 1 v).nofree = false)
      (ht : Tables v ⟨s.k.share (s.parent.ent 1 v).frame, s.child⟩ vm) (hp : HasPath vm.as v) :
      ForkPageEnd s v (true, ⟨vm.k, s.parent.put 1 v (forkPte (s.parent.ent 1 v)),
        vm.as.put 1 v (childPte (s.parent.ent 1 v))⟩)

theorem forkPage_cases {s : ForkSt} (hwf : WF s.child) (hc : UserCell 1 v) : ForkPageEnd s v (forkPage s v) := by
  have hc' : UserCell 1 (vpnOf (v * 4096)) := by rwa [hc.vpnOf]
  unfold forkPage
  dsimp only
  split
  · rename_i hn
    obtain ⟨vm, ht, he | ⟨hp, he⟩⟩ := mapInto_cases ⟨s.k, s.child⟩ hwf hc'
      (s.parent.ent 1 v).frame (s.parent.ent 1 v) <;> rw [he] <;> rw [hc.vpnOf] at ht
    · exact .devFailed hn ht
    · rw [hc.vpnOf] at hp ⊢
      exact .dev hn ht hp
  · rename_i hn
    rw [Bool.not_eq_true] at hn
    obtain ⟨vm, ht, he | ⟨hp, he⟩⟩ := mapInto_cases ⟨s.k.share (s.parent.ent 1 v).frame, s.child⟩ hwf hc'
      (s.parent.ent 1 v).frame (forkPte (s.parent.ent 1 v)) <;> rw [he] <;> rw [hc.vpnOf] at ht
    · exact .failed hn ht
    · rw [hc.vpnOf] at hp ⊢
      have hend := ForkPageEnd.shared hn ht hp
      simp only [Bool.not_true, Bool.false_eq_true, if_false]
      unfold childPte at hend
      rw [Pte.mapped_eq (forkPte_frame _)]
      split
      · rename_i hpres
        rw [if_pos hpres] at hend
        rw [Pte.shown_of_present ((forkPte_present _).trans hpres)]
        exact hend
      · rename_i hpres
        rw [if_neg hpres] at hend
        -- the copy that `paging_map_into` made present is parked again
        have hwf' : WF (vm.as.put 1 v (forkPte (s.parent.ent 1 v)).shown) := (ht.wf hwf).putLeaf (.inr ⟨rfl, hp⟩)
        rw [setprotFrom_eq hwf' hc']
        rw [hc.vpnOf, AddrSpace.put_self, if_pos (show Pte.hasFrame _ = true from rfl)]
        rw [AddrSpace.put_put]
        exact hend

/-! ## The outcomes -/

/-- The kernel between the page loop and the release of a child that is given up:
idle, or a kernel stack was allocated and freed again. -/
inductive GaveUp (k k' : Kernel) : Prop
  | idle (h : Idle k k')
  | stack {k1 k2 k3 : Kernel} {f : ℕ} (h1 : Idle k k1) (h2 : k1.alloc kstackOrder = (some f, k2))
      (h3 : Idle k2 k3) (h4 : k' = k3.free f kstackOrder)
  | noStack {k1 : Kernel} (h1 : Idle k k1) (h2 : k1.alloc kstackOrder = (none, k'))

/-- **How a fork ends**, `r` being what the page loop left. -/
inductive ForkEnd (p : Proc) (r : Bool × ForkSt) : Kernel × Proc × Option (Proc × ℕ) → Prop
  | failed {k1 : Kernel} (h : GaveUp r.2.k k1) :
      ForkEnd p r (Vm.freeAddressSpace k1 r.2.child, { p with as := r.2.parent }, none)
  | forked {k1 k2 k3 : Kernel} {stack : ℕ} (hr : r.1) (h1 : Idle r.2.k k1)
      (h2 : k1.alloc kstackOrder = (some stack, k2)) (h3 : Idle k2 k3) :
      ForkEnd p r (k3, { p with as := r.2.parent }, some (⟨r.2.child, p.vmas, p.mmapNext⟩, stack))

theorem forkTask_cases (k : Kernel) (p : Proc) : forkTask k p = ((procMem k).2, p, none) ∨
    ForkEnd p (forkPages (spaceLeaves p.as)
        ⟨(newSpace (procMem k).2 p.as.ent).2, p.as, (newSpace (procMem k).2 p.as.ent).1⟩) (forkTask k p) := by
  unfold forkTask
  dsimp only
  generalize newSpace (procMem k).2 p.as.ent = c
  generalize forkPages (spaceLeaves p.as) ⟨c.2, p.as, c.1⟩ = r
  split
  · exact .inl rfl
  right
  split
  · exact .failed (.idle .refl)
  rename_i hr
  have hv := Idle.copyVmas r.2.k p.vmas
  split
  · exact .failed (.idle hv)
  split
  · rename_i k' he
    exact .failed (.noStack hv he)
  rename_i stack k2 he
  have ht : Idle k2 (if k2.kmalloc.1 then threadMem k2.kmalloc.2 else k2.kmalloc).2 := by
    split
    · exact (Idle.kmalloc .refl).trans (Idle.threadMem _)
    · exact .kmalloc .refl
  generalize (if k2.kmalloc.1 = true then threadMem k2.kmalloc.2 else k2.kmalloc) = t at ht ⊢
  split
  · exact .failed (.stack hv he ht rfl)
  · exact .forked (by simpa using hr) hv he ht

end NeoOS
