import NeoOS.Lib.Radix
import NeoOS.Proof.PmmInit
import NeoOS.Proof.Shared

/-!
# Well-formed address spaces

`WF as` says that the entries of an address space form a tree: nothing is set below
an entry that is absent, an entry above the leaves is empty or points to a table,
and a leaf without a frame is empty. In a well-formed space the leaf of a user page is `ent 1`, and linking a
fresh table changes one entry only. `tableEntry_cases` and `mapInto_cases` say once
what the walks that create tables can do; every walk of `paging.c` at a user page has
one such lemma.
-/

namespace NeoOS

variable {k : Kernel} {vm vm' : Vm} {as : AddrSpace} {e flags : Pte} {l key v va f : ℕ}

/-- The PML4 slots an address space has for itself. -/
def userSlots : Finset ℕ := (Finset.range 512).filter fun i => sharedSlot i = false

theorem mem_userSlots {i : ℕ} : i ∈ userSlots ↔ i < 512 ∧ sharedSlot i = false := by
  unfold userSlots
  rw [Finset.mem_filter, Finset.mem_range]

/-- An entry of the address space itself. -/
structure UserCell (l key : ℕ) : Prop where
  pos : 1 ≤ l
  le : l ≤ 4
  slot : slotOf l key ∈ userSlots

theorem UserCell.not_shared (h : UserCell l key) : Vm.isShared l key = false := by
  unfold Vm.isShared
  rw [(mem_userSlots.1 h.slot).2, Bool.and_false]

theorem UserCell.up (h : UserCell l key) (hl : l ≤ 3) : UserCell (l + 1) (key / 512) := by
  refine ⟨by omega, by omega, ?_⟩
  have hs := h.slot
  unfold slotOf at hs ⊢
  rwa [Nat.div_div_eq_div_mul, ← pow_succ', show 4 - (l + 1) + 1 = 4 - l by omega]

theorem userCell_keyOf (hu : UserPage v) (hv : v < 2 ^ 36) (h1 : 1 ≤ l) (h4 : l ≤ 4) : UserCell l (keyOf l v) := by
  refine ⟨h1, h4, mem_userSlots.2 ?_⟩
  rw [slotOf_keyOf h1 h4]
  exact ⟨by omega, hu⟩

theorem vpnOf_lt (va : ℕ) : vpnOf va < 2 ^ 36 := Nat.mod_lt _ (by decide)

theorem userCell_vpn (hu : UserPage (vpnOf va)) : UserCell 1 (vpnOf va) := by
  have := userCell_keyOf hu (vpnOf_lt va) (l := 1) le_rfl (by decide)
  simpa [keyOf] using this

theorem UserCell.userPage (h : UserCell 1 v) : UserPage v := (mem_userSlots.1 h.slot).2

theorem UserCell.lt (h : UserCell 1 v) : v < 2 ^ 36 := by
  have := (mem_userSlots.1 h.slot).1
  unfold slotOf at this
  omega

theorem keyOf_up (h1 : 1 ≤ l) (v : ℕ) : keyOf l v / 512 = keyOf (l + 1) v := by
  unfold keyOf
  rw [Nat.div_div_eq_div_mul, ← pow_succ, Nat.add_sub_cancel, show l - 1 + 1 = l by omega]

/-- The entries of the address space form a tree. -/
structure WF (as : AddrSpace) : Prop where
  below : ∀ l key, UserCell l key → l ≤ 3 → as.ent l key ≠ Pte.zero → (as.ent (l + 1) (key / 512)).present
  table : ∀ l key, UserCell l key → 2 ≤ l → as.ent l key = Pte.zero ∨ ∃ f, as.ent l key = Pte.table f
  blank : ∀ v, UserCell 1 v → (as.ent 1 v).hasFrame = false → as.ent 1 v = Pte.zero

theorem WF.absent (hwf : WF as) (hc : UserCell l key) (h2 : 2 ≤ l)
    (hp : (as.ent l key).present = false) : as.ent l key = Pte.zero := by
  rcases hwf.table l key hc h2 with h | ⟨f, h⟩
  · exact h
  · rw [h] at hp; exact absurd hp (by simp [Pte.table])

theorem Pte.ne_zero_of_present (h : e.present) : e ≠ Pte.zero := by
  rintro rfl; exact absurd h (by decide)

/-- The walk to the page table of `v` goes through. -/
def HasPath (as : AddrSpace) (v : ℕ) : Prop := (as.ent 2 (v / 512)).present = true

theorem WF.hasPt (hwf : WF as) (hc : UserCell 1 v) (hp : HasPath as v) : (⟨k, as⟩ : Vm).hasPt v := by
  have hu := hc.userPage
  have hc2 : UserCell 2 (v / 512) := hc.up (by decide)
  have h3 := hwf.below 2 _ hc2 (by decide) (Pte.ne_zero_of_present hp)
  have h4 := hwf.below 3 _ (hc2.up (by decide)) (by decide) (Pte.ne_zero_of_present h3)
  have e2 : keyOf 2 v = v / 512 := by simp [keyOf]
  have e3 : keyOf 3 v = v / 512 / 512 := by rw [← e2, keyOf_up (by decide)]
  have e4 : keyOf 4 v = v / 512 / 512 / 512 := by rw [← e3, keyOf_up (by decide)]
  unfold Vm.hasPt
  rw [Vm.get_user hu (by decide) le_rfl, Vm.get_user hu (l := 3) (by decide) (by decide),
    Vm.get_user hu (l := 2) (by decide) (by decide), e4, e3, e2]
  simp only [h3, h4, show (as.ent 2 (v / 512)).present = true from hp, Bool.and_self]

/-- **A user page's leaf.** -/
theorem WF.leaf (hwf : WF as) (hc : UserCell 1 v) : (⟨k, as⟩ : Vm).leaf v = as.ent 1 v := by
  unfold Vm.leaf
  rw [Vm.get_leaf_user hc.userPage]
  split
  · rfl
  · rename_i hn
    by_contra hne
    exact hn (hwf.hasPt hc (hwf.below 1 v hc (by decide) (Ne.symm hne)))

/-! ## One entry changes -/

/-- `as` with one entry replaced. -/
def AddrSpace.put (as : AddrSpace) (l key : ℕ) (e : Pte) : AddrSpace :=
  { as with ent := setEnt as.ent l key e }

@[simp] theorem AddrSpace.put_pml4 : (as.put l key e).pml4 = as.pml4 := rfl

@[simp] theorem AddrSpace.put_self : (as.put l key e).ent l key = e := by
  simp [AddrSpace.put, setEnt]

theorem AddrSpace.put_other {l' key' : ℕ} (h : ¬ (l' = l ∧ key' = key)) :
    (as.put l key e).ent l' key' = as.ent l' key' := if_neg h

theorem AddrSpace.put_put (e' : Pte) : (as.put l key e).put l key e' = as.put l key e' := by
  unfold AddrSpace.put
  congr 1
  funext l' key'
  unfold setEnt
  split
  · rfl
  · exact if_neg ‹_›

open AddrSpace (put_other put_self)

theorem WF.putLeaf (hwf : WF as) (he : e = Pte.zero ∨ e.hasFrame ∧ HasPath as v) : WF (as.put 1 v e) := by
  refine ⟨fun l key hc hl hne => ?_, fun l key hc h2 => ?_, fun x hc hb => ?_⟩
  · have hpos := hc.pos
    rw [put_other (by omega)]
    by_cases h : l = 1 ∧ key = v
    · obtain ⟨rfl, rfl⟩ := h
      rw [put_self] at hne
      exact (he.resolve_left hne).2
    · rw [put_other h] at hne
      exact hwf.below l key hc hl hne
  · rw [put_other (by omega)]
    exact hwf.table l key hc h2
  · by_cases h : x = v
    · subst h
      rw [put_self] at hb ⊢
      rcases he with he | ⟨he, -⟩
      · exact he
      · rw [hb] at he; exact absurd he (by decide)
    · rw [put_other fun hx => h hx.2] at hb ⊢
      exact hwf.blank x hc hb

theorem WF.putTable (hwf : WF as) (h2 : 2 ≤ l) (hp : l ≤ 3 → (as.ent (l + 1) (key / 512)).present) (f : ℕ) :
    WF (as.put l key (.table f)) := by
  refine ⟨fun l' key' hc hl hne => ?_, fun l' key' hc h2' => ?_, fun x hc hb => ?_⟩
  · by_cases hup : l' + 1 = l ∧ key' / 512 = key
    · obtain ⟨rfl, rfl⟩ := hup
      rw [put_self]; rfl
    · rw [put_other hup]
      by_cases h : l' = l ∧ key' = key
      · obtain ⟨rfl, rfl⟩ := h
        exact hp hl
      · rw [put_other h] at hne
        exact hwf.below l' key' hc hl hne
  · by_cases h : l' = l ∧ key' = key
    · obtain ⟨rfl, rfl⟩ := h
      exact .inr ⟨f, put_self⟩
    · rw [put_other h]
      exact hwf.table l' key' hc h2'
  · rw [put_other (by omega)] at hb ⊢
    exact hwf.blank x hc hb

theorem WF.path (hwf : WF as) (hc : UserCell 1 v) (hf : (as.ent 1 v).hasFrame) : HasPath as v := by
  refine hwf.below 1 v hc (by decide) fun hz => ?_
  rw [hz] at hf; exact absurd hf (by decide)

theorem Vm.set_leaf (hc : UserCell 1 v) (vm : Vm) (e : Pte) :
    vm.set 1 v e = ⟨vm.k, vm.as.put 1 v e⟩ := Vm.set_leaf_user hc.userPage vm e

/-- Below an absent entry there is nothing for a fresh table to clear. -/
theorem WF.link (vm : Vm) (hwf : WF vm.as) (hc : UserCell l key) (h2 : 2 ≤ l) (hp : (vm.as.ent l key).present = false)
    (f : ℕ) :
    vm.link l key f = ⟨vm.k, vm.as.put l key (.table f)⟩ := by
  have hns : Vm.isShared (l - 1) (key * 512) = false := by
    unfold Vm.isShared
    rw [slotOf_mul h2 hc.le, (mem_userSlots.1 hc.slot).2, Bool.and_false]
  have hz : zeroBelow vm.as.ent l key = vm.as.ent := by
    funext l' key'
    unfold zeroBelow
    split
    · rename_i h
      obtain ⟨rfl, rfl⟩ := h
      by_contra hne
      have hc' : UserCell l' key' := by
        refine ⟨by omega, by have := hc.le; omega, ?_⟩
        have hs := hc.slot
        unfold slotOf at hs ⊢
        rwa [Nat.div_div_eq_div_mul, ← pow_succ', show 4 - (l' + 1) + 1 = 4 - l' by
          have := hc.le; omega] at hs
      have := hwf.below l' key' hc' (by have := hc.le; omega) (Ne.symm hne)
      rw [hp] at this
      exact absurd this (by decide)
    · rfl
  unfold Vm.link
  rw [hns]
  simp only [Bool.false_eq_true, if_false, hz]
  unfold Vm.set
  rw [hc.not_shared]
  rfl

/-! ## The walks that create tables -/

/-- One allocation on the way to the page table of `v`: it fails, or a fresh table is
linked where there was none. -/
inductive TableStep (v : ℕ) : Vm → Vm → Prop
  | failed {vm : Vm} {k' : Kernel} (h : vm.k.alloc 0 = (none, k')) : TableStep v vm ⟨k', vm.as⟩
  | fresh {vm : Vm} {l f : ℕ} {k' : Kernel} (h2 : 2 ≤ l) (h4 : l ≤ 4)
      (habs : (vm.as.ent l (keyOf l v)).present = false)
      (hup : l ≤ 3 → (vm.as.ent (l + 1) (keyOf (l + 1) v)).present)
      (ha : vm.k.alloc 0 = (some f, k')) :
      TableStep v vm ⟨k'.zeroFrame f, vm.as.put l (keyOf l v) (.table f)⟩

/-- The tables on the way to page `v` are created, as far as there are frames. -/
def Tables (v : ℕ) : Vm → Vm → Prop := Relation.ReflTransGen (TableStep v)

theorem TableStep.wf (h : TableStep v vm vm') (hwf : WF vm.as) : WF vm'.as := by
  cases h with
  | failed h => exact hwf
  | fresh h2 h4 habs hup ha =>
    refine hwf.putTable h2 (fun hl => ?_) _
    rw [keyOf_up (by omega)]
    exact hup hl

theorem Tables.wf (h : Tables v vm vm') (hwf : WF vm.as) : WF vm'.as := by
  induction h with
  | refl => exact hwf
  | tail _ h ih => exact h.wf ih

/-- **`table_entry`**: at most one allocation; when it succeeds the table is there. -/
theorem tableEntry_cases (hwf : WF vm.as) (hc : UserCell l (keyOf l v)) (h2 : 2 ≤ l)
    (hup : l ≤ 3 → (vm.as.ent (l + 1) (keyOf (l + 1) v)).present) :
    Tables v vm (vm.tableEntry l (keyOf l v)).2 ∧ ((vm.tableEntry l (keyOf l v)).1 →
      ((vm.tableEntry l (keyOf l v)).2.as.ent l (keyOf l v)).present) := by
  have hget : vm.get l (keyOf l v) = vm.as.ent l (keyOf l v) := by
    unfold Vm.get; rw [hc.not_shared]; rfl
  unfold Vm.tableEntry
  rw [hget]
  split
  · exact ⟨.refl, fun _ => ‹_›⟩
  rename_i hp
  have hp' : (vm.as.ent l (keyOf l v)).present = false := Bool.not_eq_true _ ▸ hp
  unfold Kernel.allocTableFrame
  rcases ha : vm.k.alloc 0 with ⟨_ | f, k1⟩
  · exact ⟨.single (.failed ha), nofun⟩
  · dsimp only
    rw [WF.link ⟨k1.zeroFrame f, vm.as⟩ hwf hc h2 hp']
    refine ⟨.single (.fresh h2 hc.le hp' hup ha), fun _ => ?_⟩
    rw [put_self]; rfl

/-- **`paging_map_into`** at a user page: tables are created, and the leaf is written
when they are all there. -/
theorem mapInto_cases (vm : Vm) (hwf : WF vm.as) (hc : UserCell 1 (vpnOf va)) (f : ℕ) (e : Pte) :
    ∃ vm', Tables (vpnOf va) vm vm' ∧ (vm.mapInto va f e = (false, vm') ∨ HasPath vm'.as (vpnOf va) ∧ vm.mapInto va f e =
        (true, ⟨vm'.k, vm'.as.put 1 (vpnOf va) { e with frame := f, present := true }⟩)) := by
  have hcell : ∀ l, 1 ≤ l → l ≤ 4 → UserCell l (keyOf l (vpnOf va)) := fun l =>
    userCell_keyOf hc.userPage hc.lt
  obtain ⟨t4, p4⟩ := tableEntry_cases hwf (hcell 4 (by decide) le_rfl) (by decide) fun h => by omega
  unfold Vm.mapInto
  dsimp only
  generalize vm.tableEntry 4 (keyOf 4 (vpnOf va)) = r4 at t4 p4
  obtain ⟨b4, vm4⟩ := r4
  cases b4
  · exact ⟨vm4, t4, .inl rfl⟩
  obtain ⟨t3, p3⟩ := tableEntry_cases (t4.wf hwf) (hcell 3 (by decide) (by decide)) (by decide) fun _ => p4 rfl
  generalize vm4.tableEntry 3 (keyOf 3 (vpnOf va)) = r3 at t3 p3
  obtain ⟨b3, vm3⟩ := r3
  cases b3
  · exact ⟨vm3, t4.trans t3, .inl rfl⟩
  have t43 : Tables (vpnOf va) vm vm3 := t4.trans t3
  obtain ⟨t2, p2⟩ := tableEntry_cases (t43.wf hwf) (hcell 2 (by decide) (by decide)) (by decide) fun _ => p3 rfl
  generalize vm3.tableEntry 2 (keyOf 2 (vpnOf va)) = r2 at t2 p2
  obtain ⟨b2, vm2⟩ := r2
  cases b2
  · exact ⟨vm2, t43.trans t2, .inl rfl⟩
  · refine ⟨vm2, t43.trans t2, .inr ⟨?_, ?_⟩⟩
    · have := p2 rfl
      simpa [HasPath, keyOf] using this
    · simp only [Bool.not_true, Bool.false_eq_true, if_false, Vm.set_leaf hc]

theorem Tables.leaves (h : Tables v vm vm') (x : ℕ) : vm'.as.ent 1 x = vm.as.ent 1 x := by
  induction h with
  | refl => rfl
  | tail _ h ih =>
    rw [← ih]
    cases h with
    | failed h => rfl
    | fresh h2 h4 habs hup ha => exact put_other (by omega)

/-- The leaves after `paging_map_into`: the page's own, if it succeeds. -/
theorem mapInto_leaf (hwf : WF vm.as) (hc : UserCell 1 (vpnOf va)) (f : ℕ) (e : Pte) : WF (vm.mapInto va f e).2.as ∧
      (∀ x, x ≠ vpnOf va → (vm.mapInto va f e).2.as.ent 1 x = vm.as.ent 1 x) ∧
      (vm.mapInto va f e).2.as.ent 1 (vpnOf va) = if (vm.mapInto va f e).1 = true
        then { e with frame := f, present := true } else vm.as.ent 1 (vpnOf va) := by
  obtain ⟨vm', ht, he | ⟨hpath, he⟩⟩ := mapInto_cases vm hwf hc f e
  · rw [he]
    exact ⟨ht.wf hwf, fun x _ => ht.leaves x, ht.leaves _⟩
  · rw [he]
    refine ⟨(ht.wf hwf).putLeaf (.inr ⟨rfl, hpath⟩), fun x hx => ?_, ?_⟩
    · exact (put_other fun h => hx h.2).trans (ht.leaves x)
    · rw [if_pos rfl]; exact put_self

/-! ## The other walks -/

/-- **`paging_unmap_from`** at a user page. -/
theorem unmapFrom_eq (hwf : WF vm.as) (hc : UserCell 1 (vpnOf va)) (free : Bool) :
    vm.unmapFrom va free = if (vm.as.ent 1 (vpnOf va)).hasFrame then
      ⟨if free then vm.k.deferFree ⟨(vm.as.ent 1 (vpnOf va)).frame, vm.as.pml4, 0⟩ else vm.k,
        vm.as.put 1 (vpnOf va) Pte.zero⟩ else vm := by
  unfold Vm.unmapFrom
  dsimp only
  rw [hwf.leaf hc, Vm.set_leaf hc]
  split
  · split <;> rfl
  · rfl

/-- **`paging_setprot_from`** at a user page. -/
theorem setprotFrom_eq (hwf : WF vm.as) (hc : UserCell 1 (vpnOf va)) (e : Pte) :
    vm.setprotFrom va e = if (vm.as.ent 1 (vpnOf va)).hasFrame then
      ⟨vm.k, vm.as.put 1 (vpnOf va) (Vm.setprotPte (vm.as.ent 1 (vpnOf va)) e)⟩ else vm := by
  unfold Vm.setprotFrom
  dsimp only
  rw [hwf.leaf hc, Vm.set_leaf hc]

theorem setprotPte_hasFrame (e flags : Pte) : (Vm.setprotPte e flags).hasFrame := by
  unfold Vm.setprotPte
  split
  · rename_i h; simp [Pte.hasFrame, h]
  · rfl

@[simp] theorem setprotPte_frame (e flags : Pte) : (Vm.setprotPte e flags).frame = e.frame := by
  unfold Vm.setprotPte; split <;> rfl

theorem setprotPte_nofree (hn : flags.nofree = false) (e : Pte) : (Vm.setprotPte e flags).nofree = e.nofree := by
  unfold Vm.setprotPte
  split
  · rw [hn]; rfl
  · rfl

theorem setprotPte_cow (hc : flags.cow = false) (e : Pte) : (Vm.setprotPte e flags).cow = e.cow := by
  unfold Vm.setprotPte
  split
  · rw [hc]; rfl
  · rfl

/-- A present copy-on-write leaf that is not writable yet. -/
structure CowLeaf (e : Pte) : Prop where
  present : e.present
  readonly : e.writable = false
  cow : e.cow

/-- **How a copy-on-write fault ends** at page `v`. -/
inductive CowEnd (vm : Vm) (v : ℕ) : Bool × Vm → Prop
  | refused : CowEnd vm v (false, vm)
  | sole (h : CowLeaf (vm.as.ent 1 v)) (hr : vm.k.pmm.refcount (vm.as.ent 1 v).frame = 1) :
      CowEnd vm v (true, ⟨vm.k, vm.as.put 1 v { vm.as.ent 1 v with cow := false, writable := true }⟩)
  | noFrame {k' : Kernel} (ha : vm.k.alloc 0 = (none, k')) : CowEnd vm v (false, ⟨k', vm.as⟩)
  | copied {f : ℕ} {k' : Kernel} (h : CowLeaf (vm.as.ent 1 v))
      (hr : vm.k.pmm.refcount (vm.as.ent 1 v).frame ≠ 1) (ha : vm.k.alloc 0 = (some f, k')) :
      CowEnd vm v (true, ⟨{ k' with mem := Function.update k'.mem f (k'.mem (vm.as.ent 1 v).frame) }.free
        (vm.as.ent 1 v).frame 0,
          vm.as.put 1 v { vm.as.ent 1 v with frame := f, cow := false, writable := true }⟩)

/-- **`paging_handle_cow_fault`** at a user page. -/
theorem handleCowFault_cases (vm : Vm) (hwf : WF vm.as) (hc : UserCell 1 (vpnOf va)) :
    CowEnd vm (vpnOf va) (vm.handleCowFault va) := by
  unfold Vm.handleCowFault
  dsimp only
  rw [hwf.leaf hc]
  split
  · exact .refused
  rename_i hn
  simp only [Bool.or_eq_true, Bool.not_eq_true', not_or, Bool.not_eq_false, Bool.not_eq_true] at hn
  have hcow : CowLeaf (vm.as.ent 1 (vpnOf va)) := ⟨hn.1.1, hn.1.2, hn.2⟩
  split
  · rename_i hr
    rw [Vm.set_leaf hc]
    refine .sole hcow ?_
    rwa [pmmFrameRefcount, physToFrame_frameToPhys] at hr
  rename_i hr
  rw [pmmFrameRefcount, physToFrame_frameToPhys] at hr
  rcases ha : vm.k.alloc 0 with ⟨_ | f, k'⟩
  · exact .noFrame ha
  · dsimp only
    rw [Vm.set_leaf hc]
    exact .copied hcow hr ha

end NeoOS
