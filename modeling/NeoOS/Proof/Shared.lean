import Mathlib.Algebra.Ring.Nat
import NeoOS.Proof.Loops
import NeoOS.Proof.VmaList
import NeoOS.Spec.Process

/-!
# The kernel's own page tables

Every walk at a page outside the shared slots works on the address space's own
tables only. `Kept vm vm'` says that the tables below the shared PML4 slots and
the shared entries themselves are as they were; each primitive keeps them at a
user page, and every operation touches user pages only as long as the mappings
lie in user space.
-/

namespace NeoOS

variable {k k' k'' : Kernel} {p : Proc} {vm vm' : Vm} {l v va start stop prot flags : ℕ}

/-! ## Kernel calls that do not touch page tables -/

/-- The kernel's own heap was asked for memory or got some back, or `pmm_alloc` was asked in vain; nothing else. -/
inductive Idle (k : Kernel) : Kernel → Prop
  | refl : Idle k k
  | kmalloc {k' : Kernel} (h : Idle k k') : Idle k k'.kmalloc.2
  | kfree {k' : Kernel} (h : Idle k k') (n : ℕ) : Idle k (k'.kfree n)
  | refused {k' k'' : Kernel} {o : ℕ} (h : Idle k k') (ha : k'.alloc o = (none, k'')) : Idle k k''

theorem Idle.trans (h1 : Idle k k') (h2 : Idle k' k'') : Idle k k'' := by
  induction h2 with
  | refl => exact h1
  | kmalloc _ ih => exact ih.kmalloc
  | kfree _ n ih => exact ih.kfree n
  | refused _ ha ih => exact ih.refused ha

/-- How `kmalloc` ends: with a slot of the heap's own, in vain, or with a block from `pmm_alloc`. -/
inductive KmallocEnd (k : Kernel) : Bool × Kernel → Prop
  | slot (h : k.heapNeed k.kmallocs = none) : KmallocEnd k (true, { k with kmallocs := k.kmallocs + 1 })
  | failed {o : ℕ} {large : Bool} {k' : Kernel} (h : k.heapNeed k.kmallocs = some (o, large))
      (ha : { k with kmallocs := k.kmallocs + 1 }.alloc o = (none, k')) : KmallocEnd k (false, k')
  | block {o f : ℕ} {large : Bool} {k' : Kernel} (h : k.heapNeed k.kmallocs = some (o, large))
      (ha : { k with kmallocs := k.kmallocs + 1 }.alloc o = (some f, k')) :
      KmallocEnd k (true, { k' with heap := ⟨k.kmallocs, f, o, large⟩ :: k'.heap })

theorem kmalloc_cases (k : Kernel) : KmallocEnd k k.kmalloc := by
  unfold Kernel.kmalloc
  dsimp only
  split
  · exact .slot ‹_›
  · split
    · exact .failed ‹_› ‹_›
    · exact .block ‹_› ‹_›

/-- What neither the heap nor a refused allocation touches. -/
structure Still (k k' : Kernel) : Prop where
  mem : k'.mem = k.mem
  kern : k'.kern = k.kern
  deferred : k'.deferred = k.deferred
  overflow : k'.overflow = k.overflow
  heapNeed : k'.heapNeed = k.heapNeed
  kmallocs : k.kmallocs ≤ k'.kmallocs

theorem Still.trans (h1 : Still k k') (h2 : Still k' k'') : Still k k'' :=
  ⟨h2.mem.trans h1.mem, h2.kern.trans h1.kern, h2.deferred.trans h1.deferred, h2.overflow.trans h1.overflow,
    h2.heapNeed.trans h1.heapNeed, h1.kmallocs.trans h2.kmallocs⟩

theorem Still.alloc {r : Option ℕ} {o : ℕ} (ha : k.alloc o = (r, k')) : Still k k' := by
  cases ha
  exact ⟨rfl, rfl, rfl, rfl, rfl, le_rfl⟩

theorem Still.kmalloc (k : Kernel) : Still k k.kmalloc.2 := by
  have hstart : Still k { k with kmallocs := k.kmallocs + 1 } := ⟨rfl, rfl, rfl, rfl, rfl, Nat.le_succ _⟩
  have hend := kmalloc_cases k
  generalize k.kmalloc = r at hend
  cases hend with
  | slot => exact hstart
  | failed _ ha => exact hstart.trans (.alloc ha)
  | block _ ha =>
    have h := hstart.trans (.alloc ha)
    exact { h with }

theorem Still.kfree (k : Kernel) (n : ℕ) : Still k (k.kfree n) := by
  unfold Kernel.kfree
  split <;> exact ⟨rfl, rfl, rfl, rfl, rfl, le_rfl⟩

theorem Idle.still (h : Idle k k') : Still k k' := by
  induction h with
  | refl => exact ⟨rfl, rfl, rfl, rfl, rfl, le_rfl⟩
  | kmalloc _ ih => exact ih.trans (.kmalloc _)
  | kfree _ n ih => exact ih.trans (.kfree _ n)
  | refused _ ha ih => exact ih.trans (.alloc ha)

theorem Idle.kern (h : Idle k k') : k'.kern = k.kern := h.still.kern

theorem Kernel.flushArray_kern (q fuel : ℕ) : ∀ (i : ℕ) (k : Kernel), (Kernel.flushArray q fuel i k).kern = k.kern := by
  induction fuel with
  | zero => intro i k; rfl
  | succ fuel ih =>
    intro i k
    unfold Kernel.flushArray
    split
    · rfl
    · split
      · rw [ih]; rfl
      · rw [ih]

theorem Kernel.flushOverflow_kern (q : ℕ) (ds : List Deferred) :
    ∀ keep k, (Kernel.flushOverflow q ds keep k).kern = k.kern := by
  induction ds with
  | nil => intro keep k; rfl
  | cons d ds ih =>
    intro keep k
    unfold Kernel.flushOverflow
    split
    · rw [ih]; rfl
    · rw [ih]

section

variable (k)

@[simp] theorem Kernel.alloc_kern (o : ℕ) : (k.alloc o).2.kern = k.kern := rfl

@[simp] theorem Kernel.free_kern (f o : ℕ) : (k.free f o).kern = k.kern := rfl

@[simp] theorem Kernel.kmalloc_kern : k.kmalloc.2.kern = k.kern := (Still.kmalloc k).kern

@[simp] theorem Kernel.zeroFrame_kern (f : ℕ) : (k.zeroFrame f).kern = k.kern := rfl

@[simp] theorem Kernel.allocTableFrame_kern : k.allocTableFrame.2.kern = k.kern := by
  have h := k.alloc_kern 0
  unfold Kernel.allocTableFrame
  split <;> simp_all

@[simp] theorem Kernel.deferFree_kern (d : Deferred) : (k.deferFree d).kern = k.kern := by
  unfold Kernel.deferFree
  dsimp only
  split
  · rfl
  · split <;> exact k.kmalloc_kern

@[simp] theorem Kernel.flushDeferred_kern (q : ℕ) : (k.flushDeferred q).kern = k.kern := by
  unfold Kernel.flushDeferred
  rw [Kernel.flushOverflow_kern]
  exact Kernel.flushArray_kern _ _ _ _

end

/-! ## Pages outside the shared slots -/

/-- The page lies outside the PML4 slots the kernel shares. -/
def UserPage (v : ℕ) : Prop := sharedSlot (v / 512 ^ 3) = false

instance (v : ℕ) : Decidable (UserPage v) := inferInstanceAs (Decidable (_ = false))

theorem slotOf_keyOf (h1 : 1 ≤ l) (h4 : l ≤ 4) (v : ℕ) : slotOf l (keyOf l v) = v / 512 ^ 3 := by
  unfold slotOf keyOf
  rw [Nat.div_div_eq_div_mul, ← pow_add]
  congr 2; omega

theorem slotOf_mul (h1 : 2 ≤ l) (h4 : l ≤ 4) (key : ℕ) : slotOf (l - 1) (key * 512) = slotOf l key := by
  unfold slotOf
  have : 4 - (l - 1) = (4 - l) + 1 := by omega
  rw [this, pow_succ, Nat.mul_div_mul_right _ _ (by decide)]

/-- User space proper: the PML4 slots 1 to 255. -/
def userLow : ℕ := 0x8000000000

theorem userPage_of_range (h1 : userLow ≤ va) (h2 : va < userAddrLimit) : UserPage (vpnOf va) := by
  unfold UserPage sharedSlot vpnOf
  unfold userLow userAddrLimit at *
  have h3 : va / 4096 % 2 ^ 36 = va / 4096 := Nat.mod_eq_of_lt (by omega)
  rw [h3]
  simp only [Bool.or_eq_false_iff, beq_eq_false_iff_ne]
  omega

/-- The kernel's tables and the PML4 entries that lead to them are as they were. -/
structure Kept (vm vm' : Vm) : Prop where
  kern : vm'.k.kern = vm.k.kern
  top : ∀ i, sharedSlot i → vm'.as.ent 4 i = vm.as.ent 4 i

theorem Kept.refl (vm : Vm) : Kept vm vm := ⟨rfl, fun _ _ => rfl⟩

theorem Kept.trans {vm'' : Vm} (h1 : Kept vm vm') (h2 : Kept vm' vm'') : Kept vm vm'' :=
  ⟨h2.kern.trans h1.kern, fun i hi => (h2.top i hi).trans (h1.top i hi)⟩

theorem Kept.kernel {k' : Kernel} (hk : k'.kern = vm.k.kern) : Kept vm { vm with k := k' } := ⟨hk, fun _ _ => rfl⟩

theorem Kept.kmalloc (vm : Vm) : Kept vm { vm with k := vm.k.kmalloc.2 } := .kernel vm.k.kmalloc_kern

section

variable (hv : UserPage v)
include hv

theorem UserPage.not_shared (h1 : 1 ≤ l) (h4 : l ≤ 4) : Vm.isShared l (keyOf l v) = false := by
  unfold Vm.isShared
  rw [slotOf_keyOf h1 h4, show sharedSlot (v / 512 ^ 3) = false from hv, Bool.and_false]

theorem UserPage.not_shared_leaf : Vm.isShared 1 v = false := by
  have := hv.not_shared (l := 1) le_rfl (by decide)
  simpa [keyOf] using this

theorem UserPage.not_shared_below (h1 : 2 ≤ l) (h4 : l ≤ 4) : Vm.isShared (l - 1) (keyOf l v * 512) = false := by
  unfold Vm.isShared
  rw [slotOf_mul h1 h4, slotOf_keyOf (by omega) h4, show sharedSlot (v / 512 ^ 3) = false from hv, Bool.and_false]

theorem Vm.get_user (h1 : 1 ≤ l) (h4 : l ≤ 4) (vm : Vm) : vm.get l (keyOf l v) = vm.as.ent l (keyOf l v) := by
  unfold Vm.get; rw [hv.not_shared h1 h4]; rfl

theorem Vm.get_leaf_user (vm : Vm) : vm.get 1 v = vm.as.ent 1 v := by
  unfold Vm.get; rw [hv.not_shared_leaf]; rfl

theorem Vm.set_leaf_user (vm : Vm) (e : Pte) :
    vm.set 1 v e = { vm with as := { vm.as with ent := setEnt vm.as.ent 1 v e } } := by
  unfold Vm.set; rw [hv.not_shared_leaf]; rfl

theorem Vm.link_user (h1 : 2 ≤ l) (h4 : l ≤ 4) (vm : Vm) (f : ℕ) :
    vm.link l (keyOf l v) f = { vm with as := { vm.as with
      ent := setEnt (zeroBelow vm.as.ent l (keyOf l v)) l (keyOf l v) (.table f) } } := by
  unfold Vm.link Vm.set
  rw [hv.not_shared_below h1 h4, hv.not_shared (by omega) h4]
  rfl

/-! ## What the primitives keep -/

theorem Kept.setLeaf (vm : Vm) (e : Pte) : Kept vm (vm.set 1 v e) := by
  rw [Vm.set_leaf_user hv]
  exact ⟨rfl, fun i _ => by simp [setEnt]⟩

theorem Kept.link (h1 : 2 ≤ l) (h4 : l ≤ 4) (vm : Vm) (f : ℕ) : Kept vm (vm.link l (keyOf l v) f) := by
  rw [Vm.link_user hv h1 h4]
  refine ⟨rfl, fun i hi => ?_⟩
  -- a shared slot is not the slot of a user page
  have hne : ¬ (4 = l ∧ i = keyOf l v) := by
    rintro ⟨rfl, rfl⟩
    have hs := slotOf_keyOf (l := 4) (by decide) le_rfl v
    rw [slotOf, Nat.sub_self, pow_zero, Nat.div_one] at hs
    rw [hs, show sharedSlot (v / 512 ^ 3) = false from hv] at hi
    exact absurd hi (by decide)
  have hz : ¬ (4 + 1 = l ∧ i / 512 = keyOf l v) := fun h => by omega
  simp only [setEnt, zeroBelow, if_neg hne, if_neg hz]

theorem Kept.tableEntry (h1 : 2 ≤ l) (h4 : l ≤ 4) (vm : Vm) : Kept vm (vm.tableEntry l (keyOf l v)).2 := by
  unfold Vm.tableEntry
  split
  · exact .refl vm
  · have hk := vm.k.allocTableFrame_kern
    split
    · rename_i k' he
      rw [he] at hk
      exact .kernel hk
    · rename_i f k' he
      rw [he] at hk
      exact (Kept.kernel hk).trans (Kept.link hv h1 h4 _ f)

end

section Maps

variable (hv : UserPage (vpnOf va))
include hv

theorem Kept.mapInto (f : ℕ) (e : Pte) (vm : Vm) : Kept vm (vm.mapInto va f e).2 := by
  have t4 := Kept.tableEntry hv (l := 4) (by decide) le_rfl vm
  have t3 := Kept.tableEntry hv (l := 3) (by decide) (by decide) (vm.tableEntry 4 (keyOf 4 (vpnOf va))).2
  have t2 := Kept.tableEntry hv (l := 2) (by decide) (by decide)
    ((vm.tableEntry 4 (keyOf 4 (vpnOf va))).2.tableEntry 3 (keyOf 3 (vpnOf va))).2
  unfold Vm.mapInto
  dsimp only
  split
  · exact t4
  split
  · exact t4.trans t3
  split
  · exact (t4.trans t3).trans t2
  · exact ((t4.trans t3).trans t2).trans (Kept.setLeaf hv _ _)

theorem Kept.unmapFrom (free : Bool) (vm : Vm) : Kept vm (vm.unmapFrom va free) := by
  unfold Vm.unmapFrom
  dsimp only
  split
  · split
    · exact (Kept.setLeaf hv vm _).trans (Kept.kernel (Kernel.deferFree_kern _ _))
    · exact .setLeaf hv vm _
  · exact .refl vm

theorem Kept.setprotFrom (e : Pte) (vm : Vm) : Kept vm (vm.setprotFrom va e) := by
  unfold Vm.setprotFrom
  dsimp only
  split
  · exact .setLeaf hv vm _
  · exact .refl vm

theorem Kept.handleCowFault (vm : Vm) : Kept vm (vm.handleCowFault va).2 := by
  unfold Vm.handleCowFault
  dsimp only
  split
  · exact .refl vm
  split
  · exact .setLeaf hv vm _
  · have hk := vm.k.alloc_kern 0
    split
    · rename_i k' he
      rw [he] at hk
      exact .kernel hk
    · rename_i f k' he
      rw [he] at hk
      refine .trans (.trans (.kernel ?_) (.setLeaf hv _ _)) (.kernel rfl)
      exact hk

end Maps

/-! ## Ranges in user space -/

theorem Kept.chains : Chains Kept := ⟨.refl, fun _ _ _ => .trans, .kmalloc⟩

/-- The mapping lies in user space proper. -/
structure VmaUser (v : Vma) : Prop where
  low : userLow ≤ v.start
  le : v.start ≤ v.stop
  high : v.stop ≤ userAddrLimit

/-- Every mapping lies in user space proper. -/
def VmasUser (l : List Vma) : Prop := ∀ v ∈ l, VmaUser v

theorem VmasUser.uncons {v : Vma} {vs : List Vma} (h : VmasUser (v :: vs)) : VmaUser v ∧ VmasUser vs :=
  List.forall_mem_cons.1 h

theorem VmaUser.page {w : Vma} (hw : VmaUser w) (h1 : w.start ≤ va) (h2 : va < w.stop) : UserPage (vpnOf va) :=
  userPage_of_range (hw.low.trans h1) (lt_of_lt_of_le h2 hw.high)

theorem VmaUser.cut {w w' : Vma} (hw : VmaUser w) (h : Cut w' w) : VmaUser w' :=
  ⟨hw.low.trans h.start, h.le hw.le, h.stop.trans hw.high⟩

theorem munmapLoop_user {l : List Vma} (start stop : ℕ) (vm : Vm) (h : VmasUser l) :
    VmasUser (munmapLoop start stop l vm).2.1 ∧ Kept vm (munmapLoop start stop l vm).2.2 := by
  refine ⟨fun w hw => ?_, munmapLoop_rel Kept.chains (fun v hv va hh vm => ?_) vm⟩
  · obtain ⟨v, hv, hc, -⟩ := munmapLoop_pieces hw
    exact (h v hv).cut hc
  · exact .unmapFrom ((h v hv).page hh.low hh.high) _ vm

theorem mprotectLoop_user {l : List Vma} (prot : ℕ) (vm : Vm) (hlt : start < stop) (h : VmasUser l) :
    VmasUser (mprotectLoop start stop prot l vm).2.1 ∧ Kept vm (mprotectLoop start stop prot l vm).2.2 := by
  refine ⟨fun w hw => ?_, mprotectLoop_rel Kept.chains (fun v hv va hh vm => ?_) vm⟩
  · obtain ⟨v, hv, hc⟩ := mprotectLoop_cuts hlt w hw
    exact (h v hv).cut hc
  · exact .setprotFrom ((h v hv).page hh.low hh.high) _ vm

theorem vmaInsert_user {l l' : List Vma} (hv : VmaUser ⟨start, stop, prot, flags⟩) (h : VmasUser l)
    (hins : (vmaInsert k l start stop prot flags).1 = some l') : VmasUser l' := by
  intro w hw
  rcases vmaInsert_mem hins hw with hm | ⟨c, s', rfl, hc, hs⟩
  · exact h w hm
  obtain ⟨hlo, hle, hhi⟩ := hv
  have hlow : userLow ≤ c ∧ c ≤ start := by
    rcases hc with rfl | hm
    · exact ⟨hlo, le_rfl⟩
    · exact ⟨(h _ hm).low, (h _ hm).le⟩
  have hhigh : stop ≤ s' ∧ s' ≤ userAddrLimit := by
    rcases hs with rfl | hm
    · exact ⟨le_rfl, hhi⟩
    · exact ⟨(h _ hm).le, (h _ hm).high⟩
  exact ⟨hlow.1, (hlow.2.trans hle).trans hhigh.1, hhigh.2⟩

end NeoOS
