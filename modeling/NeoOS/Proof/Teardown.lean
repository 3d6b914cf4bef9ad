import NeoOS.Proof.Account

/-!
# Giving back an address space

`free_address_space` defers one frame for each reference of the address space:
`count_spaceFrames`. The queue takes them one by one, so the references of the address
space become entries of the queue (`KernOK.freeAddressSpace`).
-/

namespace NeoOS

open List
open Buddy (In)

variable {strict : Prop} {E : ℕ → ℕ} {k : Kernel} {as : AddrSpace} {P : ℕ → Bool} {e : Pte}
  {l key f n i : ℕ}

/-- Whether an entry owns a frame of the kind `P`. -/
def weight (P : ℕ → Bool) (e : Pte) : ℕ := if e.owns && P e.frame then 1 else 0

@[simp] theorem weight_zero (P : ℕ → Bool) : weight P Pte.zero = 0 := rfl

theorem weight_eq_own (e : Pte) (f : ℕ) : weight (· == f) e = own e f := by
  unfold weight own
  simp only [Bool.and_eq_true, beq_iff_eq]

theorem UserCell.child (h : UserCell (l + 1) key) (h1 : 1 ≤ l) (hi : i < 512) : UserCell l (key * 512 + i) := by
  have hle := h.le
  refine ⟨h1, by omega, ?_⟩
  have hs := h.slot
  unfold slotOf at hs ⊢
  rwa [show 4 - l = 4 - (l + 1) + 1 by omega, pow_succ', ← Nat.div_div_eq_div_mul, Radix.child_div hi]

/-- Below an absent entry there is nothing. By induction on the distance. -/
theorem WF.below_absent (hwf : WF as) (hc : UserCell l key) (h2 : 2 ≤ l)
    (habs : (as.ent l key).present = false) (d : ℕ) : ∀ l' key', l' + d = l → 1 ≤ l' →
    key' / 512 ^ d = key → as.ent l' key' = Pte.zero := by
  induction d with
  | zero =>
    intro l' key' hl _ hk
    rw [pow_zero, Nat.div_one] at hk
    obtain rfl : l' = l := hl
    rw [hk]
    exact hwf.absent hc h2 habs
  | succ d ih =>
    intro l' key' hl h1 hk
    have hup := ih (l' + 1) (key' / 512) (by omega) (by omega) (by
      rw [Nat.div_div_eq_div_mul, ← pow_succ']; exact hk)
    have hcell : UserCell l' key' := by
      refine ⟨h1, by have := hc.le; omega, ?_⟩
      have hs := hc.slot
      unfold slotOf at hs ⊢
      rwa [← hk, Nat.div_div_eq_div_mul, ← pow_add, show d + 1 + (4 - l) = 4 - l' by
        have := hc.le; omega] at hs
    by_contra hne
    have hpres := hwf.below l' key' hcell (by have := hc.le; omega) hne
    rw [hup] at hpres
    cases hpres

/-- The sum of a weight over the entries that a walk from `l`, `key` reaches. -/
def treeSum (as : AddrSpace) (w : ℕ → Pte → ℕ) : ℕ → ℕ → ℕ
  | 0, _ => 0
  | 1, key => w 1 (as.ent 1 key)
  | l + 2, key =>
    if (as.ent (l + 2) key).present then
      w (l + 2) (as.ent (l + 2) key) + ((List.range 512).map fun i => treeSum as w (l + 1) (key * 512 + i)).sum
    else 0

/-- The sum over an address space without its shared slots. -/
def spaceSum (as : AddrSpace) (w : ℕ → Pte → ℕ) : ℕ :=
  ((List.range 512).map fun i => if sharedSlot i then 0 else treeSum as w 4 i).sum

variable {w : ℕ → Pte → ℕ}

/-- The frames of an address space without its PML4. -/
def frameCount (as : AddrSpace) : ℕ :=
  Radix.forest 512 (fun l key => weight (fun _ => true) (as.ent l key)) 4 userSlots

section

variable (hwf : WF as)
include hwf

/-- A walk misses nothing that has a weight. -/
theorem treeSum_eq (hw : ∀ l, w l Pte.zero = 0) (hc : UserCell l key) :
    treeSum as w l key = Radix.total 512 (fun l key => w l (as.ent l key)) l key := by
  fun_induction treeSum as w l key with
  | case1 => exact absurd hc.pos (by decide)
  | case2 => simp only [Radix.total, Finset.sum_const_zero, Nat.add_zero]
  | case3 =>
    rename_i l key hp ih
    have hsum : ((List.range 512).map fun i => treeSum as w (l + 1) (key * 512 + i)).sum =
        ∑ i ∈ Finset.range 512, Radix.total 512 (fun l key => w l (as.ent l key)) (l + 1) (key * 512 + i) :=
      (Finset.sum_congr rfl fun i hi => ih i (hc.child (by omega) (Finset.mem_range.1 hi)) : _)
    rw [hsum, Radix.total]
  | case4 =>
    rename_i l key hp
    have habs : (as.ent (l + 2) key).present = false := Bool.not_eq_true _ ▸ hp
    rw [Radix.total_congr _ _ fun l' key' hB => ?_, Radix.total_zero]
    obtain ⟨h1, h2, h3⟩ := hB
    rw [hwf.below_absent hc (by omega) habs (l + 2 - l') l' key' (by omega) h1 h3, hw]

theorem spaceSum_eq (hw : ∀ l, w l Pte.zero = 0) :
    spaceSum as w = Radix.forest 512 (fun l key => w l (as.ent l key)) 4 userSlots := by
  unfold Radix.forest userSlots spaceSum
  rw [Finset.sum_filter]
  change ∑ i ∈ Finset.range 512, (if sharedSlot i = true then 0 else treeSum as w 4 i) = _
  refine Finset.sum_congr rfl fun i hi => ?_
  cases hs : sharedSlot i with
  | true => rfl
  | false =>
    refine treeSum_eq hwf hw ⟨by decide, le_rfl, ?_⟩
    rw [mem_userSlots, slotOf, Nat.sub_self, pow_zero, Nat.div_one]
    exact ⟨Finset.mem_range.1 hi, hs⟩

theorem countP_treeFrames (hc : UserCell l key) :
    (Vm.treeFrames as l key).countP P = treeSum as (fun _ => weight P) l key := by
  fun_induction Vm.treeFrames as l key with
  | case1 => rfl
  | case2 =>
    rename_i key ho
    have how : (as.ent 1 key).owns := ho
    simp only [treeSum, weight, how, Bool.true_and, countP_singleton]
  | case3 =>
    rename_i key ho
    have how : (as.ent 1 key).owns = false := Bool.not_eq_true _ ▸ ho
    simp only [treeSum, weight, how, Bool.false_and, countP_nil, Bool.false_eq_true, if_false]
  | case4 =>
    rename_i l key hp ih
    obtain ⟨g, hg⟩ : ∃ g, as.ent (l + 2) key = Pte.table g :=
      (hwf.table _ _ hc (by omega)).resolve_left (Pte.ne_zero_of_present hp)
    have hsum : List.map (List.countP P ∘ fun i => Vm.treeFrames as (l + 1) (key * 512 + i)) (List.range 512) =
        (List.range 512).map fun i => treeSum as (fun _ => weight P) (l + 1) (key * 512 + i) :=
      map_congr_left fun i hi => ih i (hc.child (by omega) (mem_range.1 hi))
    rw [countP_append, countP_flatMap, hsum, countP_singleton, treeSum, if_pos hp, hg]
    exact Nat.add_comm _ _
  | case5 =>
    rename_i l key hp
    rw [treeSum, if_neg hp]
    rfl

theorem countP_spaceFrames (P : ℕ → Bool) : (Vm.spaceFrames as).countP P =
    Radix.forest 512 (fun l key => weight P (as.ent l key)) 4 userSlots + if P as.pml4 then 1 else 0 := by
  have hsum : List.map (List.countP P ∘ fun i => if sharedSlot i = true then [] else Vm.treeFrames as 4 i)
      (List.range 512) = (List.range 512).map fun i =>
        if sharedSlot i then 0 else treeSum as (fun _ => weight P) 4 i := by
    refine map_congr_left fun i hi => ?_
    dsimp only [Function.comp_apply]
    cases hs : sharedSlot i with
    | true => rfl
    | false =>
      refine countP_treeFrames hwf ⟨by decide, le_rfl, ?_⟩
      rw [mem_userSlots, slotOf, Nat.sub_self, pow_zero, Nat.div_one]
      exact ⟨mem_range.1 hi, hs⟩
  rw [← spaceSum_eq (w := fun _ => weight P) hwf fun _ => rfl]
  unfold Vm.spaceFrames spaceSum
  rw [countP_append, countP_flatMap, hsum, countP_singleton]

/-- **Every reference is given back**, once. -/
theorem count_spaceFrames (f : ℕ) : (Vm.spaceFrames as).count f = spaceRefs as f := by
  have h := countP_spaceFrames hwf (· == f)
  simp only [weight_eq_own] at h
  rw [List.count, h, spaceRefs, one, Nat.add_comm]
  simp only [beq_iff_eq, eq_comm (a := f)]

theorem length_spaceFrames : (Vm.spaceFrames as).length = frameCount as + 1 := by
  rw [← countP_true, countP_spaceFrames hwf]
  rfl

end

theorem weight_le_one (P : ℕ → Bool) (e : Pte) : weight P e ≤ 1 := by
  unfold weight; split <;> omega

theorem frameCount_put (as : AddrSpace) (hc : UserCell l key) (e : Pte) :
    frameCount (as.put l key e) + weight (fun _ => true) (as.ent l key) = frameCount as + weight (fun _ => true) e := by
  have h := Radix.forest_change (fun l key => weight (fun _ => true) (as.ent l key))
    (fun l' key' => weight (fun _ => true) ((as.put l key e).ent l' key')) (by decide : 0 < 512)
    hc.pos hc.le hc.slot fun l' key' hne => by rw [AddrSpace.put_other hne]
  rw [AddrSpace.put_self] at h
  exact h

theorem KernOK.deferAll (owner : ℕ) (l : List ℕ) : ∀ k, KernOK strict (fun f => l.count f + E f) k →
    (∀ f ∈ l, f ≠ 0 ∧ f < maxFrames) → (strict → Room l.length k) →
    KernOK strict E (l.foldl (fun k f => k.deferFree ⟨f, owner, 0⟩) k) ∧
      Spares E k (l.foldl (fun k f => k.deferFree ⟨f, owner, 0⟩) k) := by
  induction l with
  | nil => exact fun k h _ _ => ⟨h.congr fun f => by simp, .refl E k⟩
  | cons g l ih =>
    intro k h hf hroom
    obtain ⟨⟨h0, hlt⟩, hf'⟩ := forall_mem_cons.1 hf
    obtain ⟨hk, hsp₀⟩ : KernOK strict (fun f => l.count f + E f) (k.deferFree ⟨g, owner, 0⟩) ∧ Spares _ k _ :=
      KernOK.deferFree (d := ⟨g, owner, 0⟩) (h.congr fun f => by
        rw [count_cons]
        unfold one
        simp only [beq_iff_eq, eq_comm (a := f)]
        omega) ⟨rfl, h0, hlt⟩ fun hs => (hroom hs).le (by simp)
    obtain ⟨hok, hsp⟩ := ih _ hk hf' fun hs => (hroom hs).deferFree _
    exact ⟨hok, (hsp₀.mono fun f => Nat.le_add_left _ _).trans hsp⟩

/-- **`free_address_space`**: the references of the address space wait in the queue. -/
theorem VmOK.freeAddressSpace {aim : Aim} {vm : Vm} (h : VmOK aim E vm)
    (hroom : aim.noLeak → Room (Vm.spaceFrames vm.as).length vm.k) :
    KernOK aim.noLeak E (Vm.freeAddressSpace vm.k vm.as) ∧ Spares E vm.k (Vm.freeAddressSpace vm.k vm.as) := by
  refine KernOK.deferAll vm.as.pml4 _ _ (h.kern.congr fun f => by rw [count_spaceFrames h.wf]) (fun f hf => ?_) hroom
  refine h.leaves.frames f ?_
  rw [← count_spaceFrames h.wf]
  exact count_pos_iff.2 hf

end NeoOS
