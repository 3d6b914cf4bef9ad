import NeoOS.Lib.Links
import NeoOS.Proof.Pmm
import NeoOS.Spec.Heap

/-!
# The kernel heap keeps its pages, its free lists and its callers' allocations apart

`Shape` is what the heap is at a moment: the blocks of frames it owns, the list of pages of each class and
the list of free slots of each page. `Inv` says that the memory represents a shape, that the frame allocator
has lent out its blocks to nobody else, and where each live allocation lies. Every operation changes memory
inside one block only, so the other blocks are carried over by `BlockOK.transfer`.
-/

namespace NeoOS.Heap

open List
open Function (update update_eq_self update_of_ne update_self)

open Buddy (In Disj)
open Links

variable {h : Store} {mem mem' : ℕ → ℕ} {page sc p q c i v d n : ℕ} {fail : Bool} {held' freeB : List ℕ} {a : Alloc}

/-! ## Slots -/

/-- `heap_size_classes[c]`. -/
def classSize (c : ℕ) : ℕ := sizeClasses.getD c 0

theorem classSize_facts : ∀ c < 8, 16 ≤ classSize c ∧ classSize c ≤ 2048 ∧ min 64 (classSize c) ∣ 64 ∧
    min 64 (classSize c) ∣ classSize c ∧ classSize c ≠ largeMarker := by decide

def IsSlot (page sc p : ℕ) : Prop := ∃ i < slotCount sc, p = slotAddr page sc i

theorem mul_add_le {j : ℕ} (h : i < j) (sc : ℕ) : i * sc + sc ≤ j * sc := by
  rw [← Nat.succ_mul]
  exact Nat.mul_le_mul_right sc h

theorem IsSlot.bounds (hp : IsSlot page sc p) : page + 64 ≤ p ∧ p + sc ≤ page + 4096 := by
  obtain ⟨i, hi, rfl⟩ := hp
  have hmul := mul_add_le hi sc
  have hdiv : slotCount sc * sc ≤ 4032 := Nat.div_mul_le_self 4032 sc
  have hh : headerSize = 64 := rfl
  unfold slotAddr
  omega

theorem IsSlot.apart (hp : IsSlot page sc p) (hq : IsSlot page sc q) (hne : p ≠ q) : p + sc ≤ q ∨ q + sc ≤ p := by
  obtain ⟨i, -, rfl⟩ := hp
  obtain ⟨j, -, rfl⟩ := hq
  unfold slotAddr at *
  rcases Nat.lt_trichotomy i j with h | h | h
  · have := mul_add_le h sc
    omega
  · rw [h] at hne
    exact absurd rfl hne
  · have := mul_add_le h sc
    omega

/-! ## Lists in memory -/

def ptr (v : ℕ) : Option ℕ := if v = 0 then none else some v

theorem ptr_eq_some {a : ℕ} : ptr v = some a ↔ v = a ∧ a ≠ 0 := by
  unfold ptr
  split
  · simp_all
  · rename_i hv
    constructor
    · intro h
      cases h
      exact ⟨rfl, hv⟩
    · rintro ⟨rfl, -⟩
      rfl

theorem ptr_of_ne_zero (h : v ≠ 0) : ptr v = some v := ptr_eq_some.2 ⟨rfl, h⟩

/-- The link that starts at an address. -/
def link (mem : ℕ → ℕ) (a : ℕ) : Option ℕ := ptr (mem a)

/-- The scan for a page ends on the list: at a page with a free slot, or at its end. -/
theorem findPage_spec {l : List ℕ} {fuel : ℕ} (hl : Linked (link mem) (ptr page) l) (hf : l.length < fuel) :
    ∃ r, findPage mem fuel page = some r ∧ (r ≠ 0 → r ∈ l ∧ mem (freeListField r) ≠ 0) := by
  induction l generalizing page fuel with
  | nil =>
    obtain ⟨n, rfl⟩ : ∃ n, fuel = n + 1 := ⟨fuel - 1, by simp only [length_nil] at hf; omega⟩
    have hzero : page = 0 := by
      by_contra hne
      rw [ptr_of_ne_zero hne] at hl
      cases hl
    refine ⟨0, ?_, fun h => absurd rfl h⟩
    rw [findPage, hzero, if_neg fun h => h.1 rfl]
  | cons a l ih =>
    obtain ⟨n, rfl⟩ : ∃ n, fuel = n + 1 := ⟨fuel - 1, by omega⟩
    obtain ⟨ha, hl⟩ := hl
    obtain ⟨rfl, hne⟩ := ptr_eq_some.1 ha
    rw [findPage]
    split
    · rw [length_cons] at hf
      obtain ⟨r, hr, hmem⟩ := ih hl (Nat.lt_of_succ_lt_succ hf)
      exact ⟨r, hr, fun h => ⟨mem_cons_of_mem _ (hmem h).1, (hmem h).2⟩⟩
    · rename_i hstop
      exact ⟨page, rfl, fun h => ⟨mem_cons_self, fun h0 => hstop ⟨h, h0⟩⟩⟩

/-! ## Blocks -/

/-- A block of frames of the heap: a page of slots of a class, or a large allocation. -/
structure Block where
  frame : ℕ
  order : ℕ
  cls : Option ℕ
  deriving DecidableEq

namespace Block

variable {b b' : Block} {x : ℕ}

def addr (b : Block) : ℕ := physToVirt (frameToPhys b.frame)

/-- The addresses of the block. -/
def Holds (b : Block) (x : ℕ) : Prop := b.addr ≤ x ∧ x < b.addr + 4096 * 2 ^ b.order

def Apart (b b' : Block) : Prop := Disj b.frame b.order b'.frame b'.order

theorem addr_mod (b : Block) : b.addr % 4096 = 0 := by
  have h1 : physmapBase % 4096 = 0 := by decide
  unfold addr physToVirt frameToPhys frameSize
  omega

theorem addr_pos (b : Block) : 0 < b.addr := by
  have h1 : 0 < physmapBase := by decide
  unfold addr physToVirt
  omega

theorem Apart.symm (h : Apart b b') : Apart b' b := Disj.symm h

instance : Std.Symm Apart := ⟨fun _ _ => .symm⟩

theorem Apart.not_holds (h : Apart b b') (hx : b.Holds x) : ¬ b'.Holds x := by
  intro hx'
  unfold Holds addr physToVirt frameToPhys frameSize at hx hx'
  unfold Apart Disj at h
  omega

theorem holds_addr (b : Block) (hd : d < 4096) : b.Holds (b.addr + d) := by
  have h1 := Nat.two_pow_pos b.order
  unfold Holds
  omega

theorem Apart.addr_ne (h : Apart b b') : b'.addr ≠ b.addr := by
  intro he
  have h1 := b.holds_addr (d := 0) (by decide)
  rw [← he] at h1
  exact h.not_holds h1 (b'.holds_addr (by decide))

/-- An allocation lies in a block. -/
def Fits (b : Block) (a : Alloc) : Prop :=
  match b.cls with
  | some c => IsSlot b.addr (classSize c) a.ptr ∧ a.size ≤ classSize c
  | none => a.ptr = b.addr + 64 ∧ a.size + 64 ≤ 4096 * 2 ^ b.order

end Block

/-- The frame allocator has lent the block out, once. -/
structure Owned (pmm : Pmm) (b : Block) : Prop where
  ne_zero : b.frame ≠ 0
  order_le : b.order ≤ maxOrder
  aligned : 2 ^ b.order ∣ b.frame
  inRange : b.frame + 2 ^ b.order ≤ maxFrames
  refcount : ∀ f, In b.frame b.order f → pmm.refcount f = 1

/-- A page of slots: its count and its list of free slots are the slots that nobody holds. -/
structure PageOK (mem : ℕ → ℕ) (held : List ℕ) (free : List ℕ) (page c : ℕ) : Prop where
  sizeClass : mem (sizeClassField page) = classSize c
  count : mem (metaField page) = free.length
  linked : Linked (link mem) (ptr (mem (freeListField page))) free
  free_iff : ∀ p, p ∈ free ↔ IsSlot page (classSize c) p ∧ p ∉ held

def BlockOK (mem : ℕ → ℕ) (held : List ℕ) (free : ℕ → List ℕ) (b : Block) : Prop :=
  match b.cls with
  | some c => c < 8 ∧ b.order = 0 ∧ PageOK mem held (free b.addr) b.addr c
  | none => mem (sizeClassField b.addr) = largeMarker ∧ mem (metaField b.addr) = b.order

/-- The cells of a block that the heap itself uses. -/
def Block.Private (b : Block) (free : ℕ → List ℕ) (x : ℕ) : Prop :=
  (b.addr ≤ x ∧ x < b.addr + 64) ∨ (b.cls.isSome ∧ x ∈ free b.addr)

variable {held : List ℕ} {free : ℕ → List ℕ} {b b' : Block} {a : Alloc} {x : ℕ}

theorem IsSlot.holds (hp : IsSlot b.addr (classSize c) p) (hc : c < 8) (hord : b.order = 0) : b.Holds p := by
  have hbd := hp.bounds
  have := classSize_facts c hc
  unfold Block.Holds
  rw [hord]
  omega

section

variable (hb : BlockOK mem held free b)
include hb

/-- **A block depends on its private cells only.** -/
theorem BlockOK.transfer {free' : ℕ → List ℕ} (hmem : ∀ x, b.Private free x → mem' x = mem x)
    (hfree : free' b.addr = free b.addr)
    (hheld : ∀ x, b.Holds x → (x ∈ held' ↔ x ∈ held)) : BlockOK mem' held' free' b := by
  have hhead : ∀ d, d < 64 → mem' (b.addr + d) = mem (b.addr + d) := by
    intro d hd
    exact hmem _ (.inl ⟨by omega, by omega⟩)
  unfold BlockOK at *
  cases hc : b.cls with
  | none =>
    simp only [hc] at hb
    exact ⟨(hhead 16 (by decide)).trans hb.1, (hhead 20 (by decide)).trans hb.2⟩
  | some c =>
    simp only [hc] at hb
    obtain ⟨hlt, hord, hp⟩ := hb
    refine ⟨hlt, hord, (hhead 16 (by decide)).trans hp.sizeClass, ?_, ?_, fun x => ?_⟩
    · rw [hfree]
      exact (hhead 20 (by decide)).trans hp.count
    · rw [hfree]
      change Linked (link mem') (ptr (mem' (b.addr + 8))) (free b.addr)
      rw [hhead 8 (by decide)]
      refine .congr hp.linked fun x hx => ?_
      unfold link
      rw [hmem x (.inr ⟨by rw [hc]; rfl, hx⟩)]
    · rw [hfree, hp.free_iff x]
      exact and_congr_right fun hslot => not_congr (hheld x (hslot.holds hlt hord)).symm

theorem BlockOK.private_holds (hx : b.Private free x) : b.Holds x := by
  have hpos := Nat.two_pow_pos b.order
  rcases hx with hx | ⟨hc, hx⟩
  · unfold Block.Holds
    omega
  · obtain ⟨c, hc⟩ := Option.isSome_iff_exists.1 hc
    simp only [BlockOK, hc] at hb
    obtain ⟨hlt, hord, hp⟩ := hb
    exact ((hp.free_iff x).1 hx).1.holds hlt hord

theorem BlockOK.fits_bounds (ha : b.Fits a) :
    b.addr + 64 ≤ a.ptr ∧ a.ptr < b.addr + 4096 ∧ a.ptr + a.size ≤ b.addr + 4096 * 2 ^ b.order := by
  cases hc : b.cls with
  | none =>
    simp only [Block.Fits, hc] at ha
    omega
  | some c =>
    simp only [Block.Fits, hc] at ha
    simp only [BlockOK, hc] at hb
    obtain ⟨hlt, hord, -⟩ := hb
    have hbd := ha.1.bounds
    have := classSize_facts c hlt
    rw [hord]
    omega

/-- An allocation is inside its block, and not in the cells that the heap uses there. -/
theorem BlockOK.fits_holds (ha : b.Fits a) (hx : x = a.ptr ∨ a.ptr ≤ x ∧ x < a.ptr + a.size) : b.Holds x := by
  have hbd := hb.fits_bounds ha
  unfold Block.Holds
  omega

theorem BlockOK.not_private (ha : b.Fits a) (hheld : a.ptr ∈ held)
    (hx : a.ptr ≤ x ∧ x < a.ptr + a.size) : ¬ b.Private free x := by
  have hbd := hb.fits_bounds ha
  rintro (h | ⟨hcls, h⟩)
  · omega
  · obtain ⟨c, hc⟩ := Option.isSome_iff_exists.1 hcls
    simp only [Block.Fits, hc] at ha
    simp only [BlockOK, hc] at hb
    obtain ⟨hlt, -, hp⟩ := hb
    obtain ⟨hslot, hn⟩ := (hp.free_iff x).1 h
    have hne : x ≠ a.ptr := fun he => hn (he ▸ hheld)
    have := hslot.apart ha.1 hne
    omega

end

theorem BlockOK.other (hok : BlockOK mem held free b') (hap : b'.Apart b)
    (hmem : ∀ x, ¬ b.Holds x → mem' x = mem x) (hheld : ∀ x, ¬ b.Holds x → (x ∈ held' ↔ x ∈ held)) :
    BlockOK mem' held' (update free b.addr freeB) b' := by
  refine hok.transfer (fun x hx => ?_) (update_of_ne hap.symm.addr_ne ..) fun x hx => hheld x (hap.not_holds hx)
  exact hmem x (hap.not_holds (hok.private_holds hx))

/-! ## The invariant -/

structure Shape where
  blocks : List Block
  chain : ℕ → List ℕ
  free : ℕ → List ℕ

structure Inv (h : Store) (live : List Alloc) (sh : Shape) : Prop where
  pmm : PmmOK h.pmm
  apart : sh.blocks.Pairwise Block.Apart
  owned : ∀ b ∈ sh.blocks, Owned h.pmm b
  chains : ∀ c < 8, Linked (link h.mem) (ptr (h.classPages c)) (sh.chain c)
  mem_chain : ∀ c < 8, ∀ page, page ∈ sh.chain c ↔ ∃ b ∈ sh.blocks, b.cls = some c ∧ b.addr = page
  block : ∀ b ∈ sh.blocks, BlockOK h.mem (live.map Alloc.ptr) sh.free b
  fits : ∀ a ∈ live, ∃ b ∈ sh.blocks, b.Fits a
  nodup : (live.map Alloc.ptr).Nodup

variable {live live' : List Alloc} {sh : Shape}

section Apart

variable (hI : Inv h live sh)
include hI

theorem Inv.apart_of_ne (hb : b ∈ sh.blocks) (hb' : b' ∈ sh.blocks) (hne : b ≠ b') : b.Apart b' := hI.apart.forall hb hb' hne

/-- A change inside one block, which leaves the block in order and linked as it was. -/
theorem Inv.within (hb : b ∈ sh.blocks) (hmem : ∀ x, ¬ b.Holds x → mem' x = h.mem x)
    (hnext : mem' b.addr = h.mem b.addr) (hheld : ∀ x, ¬ b.Holds x → (x ∈ live'.map Alloc.ptr ↔ x ∈ live.map Alloc.ptr))
    (hblock : BlockOK mem' (live'.map Alloc.ptr) (update sh.free b.addr freeB) b)
    (hfits : ∀ a ∈ live', ∃ b ∈ sh.blocks, b.Fits a) (hnodup : (live'.map Alloc.ptr).Nodup) :
    Inv { h with mem := mem' } live' { sh with free := update sh.free b.addr freeB } := by
  refine ⟨hI.pmm, hI.apart, hI.owned, fun c hc => ?_, hI.mem_chain, fun b' hb' => ?_, hfits, hnodup⟩
  · refine .congr (hI.chains c hc) fun page hpage => ?_
    obtain ⟨b', hb', -, rfl⟩ := (hI.mem_chain c hc page).1 hpage
    by_cases he : b = b'
    · rw [← he]
      exact congrArg ptr hnext
    · have hh := (hI.apart_of_ne hb hb' he).symm.not_holds (b'.holds_addr (d := 0) (by decide))
      exact congrArg ptr (hmem _ hh)
  · by_cases he : b = b'
    · rw [← he]
      exact hblock
    · exact (hI.block b' hb').other (hI.apart_of_ne hb hb' he).symm hmem hheld

theorem Inv.fresh {pmm' : Pmm} (hal : Allocated h.pmm b.order b.frame pmm') (ho : b.order ≤ maxOrder) :
    Owned pmm' b ∧ ∀ b' ∈ sh.blocks, b.Apart b' ∧ Owned pmm' b' := by
  refine ⟨{ hal with order_le := ho, refcount := fun f hf => ?_ }, fun b' hb' => ?_⟩
  · rw [hal.refcount, mapBlock_in _ _ hf]
  · have hown := hI.owned b' hb'
    have hap : b.Apart b' := by
      apply Buddy.disj_of_not_in
      intro f hf hf'
      have hfree := hI.pmm.unreferenced f ((hal.free f).2 (.inl hf))
      rw [hown.refcount f hf'] at hfree
      cases hfree
    refine ⟨hap, { hown with refcount := fun f hf => ?_ }⟩
    rw [hal.refcount, mapBlock_not_in _ _ (Disj.not_in hap.symm hf)]
    exact hown.refcount f hf

end Apart

/-! ## Slots are handed out and come back -/

/-- The first slots of a page, the last one first. -/
def slotsDown (page sc : ℕ) : ℕ → List ℕ
  | 0 => []
  | i + 1 => slotAddr page sc i :: slotsDown page sc i

theorem mem_slotsDown : p ∈ slotsDown page sc n ↔ ∃ i < n, p = slotAddr page sc i := by
  induction n with
  | zero => simp [slotsDown]
  | succ n ih =>
    rw [slotsDown, mem_cons, ih, Nat.exists_lt_succ_right, or_comm]

theorem length_slotsDown (page sc n : ℕ) : (slotsDown page sc n).length = n := by
  induction n with
  | zero => rfl
  | succ n ih => rw [slotsDown, length_cons, ih]

theorem PageOK.length_le {held free : List ℕ} (hp : PageOK mem held free page c) : free.length ≤ 4032 := by
  have hsub : free ⊆ slotsDown page (classSize c) (slotCount (classSize c)) := by
    intro q hq
    exact mem_slotsDown.2 ((hp.free_iff q).1 hq).1
  have hle := (hp.linked.nodup.subperm hsub).length_le
  rw [length_slotsDown] at hle
  exact hle.trans (Nat.div_le_self 4032 _)

theorem Block.ne_of_not_holds (hx : ¬ b.Holds x) (hd : d < 4096) : x ≠ b.addr + d := fun he => hx (he ▸ b.holds_addr hd)

theorem sub32_one (hn : n < 4294967295) : sub32 (n + 1) 1 = n := by
  simp only [sub32, u32]
  omega

theorem takeSlot_mem (h : Store) (page : ℕ) :
    (takeSlot h page).2.mem (freeListField page) = h.mem (h.mem (freeListField page)) ∧
      (takeSlot h page).2.mem (metaField page) = sub32 (h.mem (metaField page)) 1 ∧
      ∀ x, x ≠ page + 8 → x ≠ page + 20 → (takeSlot h page).2.mem x = h.mem x := by
  have hne : metaField page ≠ freeListField page := by
    unfold metaField freeListField
    omega
  simp only [takeSlot, Store.write]
  refine ⟨?_, ?_, fun x h8 h20 => ?_⟩
  · rw [update_of_ne hne.symm, update_self]
  · rw [update_self, update_of_ne hne]
  · rw [update_of_ne (by exact h20), update_of_ne (by exact h8)]

theorem Inv.takeSlot (hI : Inv h live sh) (hb : b ∈ sh.blocks) (hc : b.cls = some c)
    (hne : h.mem (freeListField b.addr) ≠ 0) {size : ℕ} (hsize : size ≤ classSize c) :
    (takeSlot h b.addr).1 ≠ 0 ∧ ∃ sh', Inv (takeSlot h b.addr).2 (⟨(takeSlot h b.addr).1, size⟩ :: live) sh' := by
  have hok := hI.block b hb
  simp only [BlockOK, hc] at hok
  obtain ⟨hlt, hord, hp⟩ := hok
  have hlen := hp.length_le
  have hnodup := hp.linked.nodup
  have hlinked := hp.linked
  cases hfree : sh.free b.addr with
  | nil =>
    rw [hfree, ptr_of_ne_zero hne] at hlinked
    cases hlinked
  | cons slot rest =>
    rw [hfree] at hlinked hlen hnodup
    obtain ⟨hhead, hrest⟩ := hlinked
    obtain ⟨hslot, hpos⟩ := ptr_eq_some.1 hhead
    obtain ⟨hisSlot, hnheld⟩ := (hp.free_iff slot).1 (by rw [hfree]; exact mem_cons_self)
    have hrestSlot : ∀ q ∈ rest, b.addr + 64 ≤ q := by
      intro q hq
      exact ((hp.free_iff q).1 (by rw [hfree]; exact mem_cons_of_mem _ hq)).1.bounds.1
    have hcount := hp.count
    rw [hfree] at hcount
    obtain ⟨hfl, hmeta, hsame⟩ := takeSlot_mem h b.addr
    have hresult : (Heap.takeSlot h b.addr).1 = slot := hslot
    rw [hslot] at hfl
    rw [hcount, length_cons, sub32_one (by rw [length_cons] at hlen; omega)] at hmeta
    rw [hresult]
    refine ⟨hpos, { sh with free := update sh.free b.addr rest }, ?_⟩
    change Inv { h with mem := (Heap.takeSlot h b.addr).2.mem } _ _
    generalize (Heap.takeSlot h b.addr).2.mem = mem' at hfl hmeta hsame ⊢
    apply hI.within hb
    · intro x hx
      exact hsame x (Block.ne_of_not_holds hx (by decide)) (Block.ne_of_not_holds hx (by decide))
    · exact hsame b.addr (by omega) (by omega)
    · intro x hx
      have hxs : x ≠ slot := by
        rintro rfl
        exact hx (hisSlot.holds hlt hord)
      rw [map_cons, mem_cons, or_iff_right hxs]
    · simp only [BlockOK, hc, update_self]
      refine ⟨hlt, hord, ?_, hmeta, ?_, fun q => ?_⟩
      · exact (hsame (b.addr + 16) (by omega) (by omega)).trans hp.sizeClass
      · rw [hfl]
        refine .congr hrest fun q hq => ?_
        have := hrestSlot q hq
        exact congrArg ptr (hsame q (by omega) (by omega))
      · have hq := hp.free_iff q
        rw [hfree] at hq
        rw [map_cons, mem_cons, not_or, and_left_comm, ← hq, ← hnodup.mem_erase_iff, erase_cons_head]
    · intro a ha
      rcases mem_cons.1 ha with rfl | ha
      · refine ⟨b, hb, ?_⟩
        simp only [Block.Fits, hc]
        exact ⟨hisSlot, hsize⟩
      · exact hI.fits a ha
    · rw [map_cons]
      exact nodup_cons.2 ⟨hnheld, hI.nodup⟩

theorem erase_spec (hn : (live.map Alloc.ptr).Nodup) (hi : live[i]? = some a) :
    a ∈ live ∧ (∀ a' ∈ live.eraseIdx i, a' ∈ live) ∧ ((live.eraseIdx i).map Alloc.ptr).Nodup ∧
      ∀ x, x ∈ (live.eraseIdx i).map Alloc.ptr ↔ x ∈ live.map Alloc.ptr ∧ x ≠ a.ptr := by
  obtain ⟨hlt, rfl⟩ := List.getElem?_eq_some_iff.1 hi
  have hperm := (getElem_cons_eraseIdx_perm hlt).map Alloc.ptr
  have hnd := hperm.nodup_iff.2 hn
  rw [map_cons] at hnd
  refine ⟨getElem_mem hlt, fun a' ha' => mem_of_mem_eraseIdx ha', (nodup_cons.1 hnd).2, fun x => ?_⟩
  rw [← hperm.mem_iff, map_cons, and_comm, ← hnd.mem_erase_iff, erase_cons_head]

theorem BlockOK.header (hb : BlockOK mem held free b) (ha : b.Fits a) :
    a.ptr / frameSize * frameSize = b.addr ∧ a.ptr ≠ 0 := by
  have hmod := b.addr_mod
  have hbd := hb.fits_bounds ha
  unfold frameSize
  omega

theorem kfree_slot_mem (h : Store) (hp : p ≠ 0) (hpage : p / frameSize * frameSize = page)
    (hsc : h.mem (sizeClassField page) ≠ largeMarker) (hin : page + 64 ≤ p) :
    kfree h p = { h with mem := (kfree h p).mem } ∧ (kfree h p).mem p = h.mem (freeListField page) ∧
      (kfree h p).mem (freeListField page) = p ∧ (kfree h p).mem (metaField page) = (h.mem (metaField page) + 1) % u32 ∧
      ∀ x, x ≠ page + 8 → x ≠ page + 20 → x ≠ p → (kfree h p).mem x = h.mem x := by
  have hfm : freeListField page ≠ metaField page := by
    unfold metaField freeListField
    omega
  have hpf : p ≠ freeListField page := by
    unfold freeListField
    omega
  have hpm : p ≠ metaField page := by
    unfold metaField
    omega
  simp only [kfree, if_neg hp, hpage, if_neg hsc, Store.write]
  refine ⟨trivial, ?_, ?_, ?_, fun x h8 h20 hx => ?_⟩
  · rw [update_of_ne hpm, update_of_ne hpf, update_self]
  · rw [update_of_ne hfm, update_self]
  · rw [update_self, update_of_ne hfm.symm, update_of_ne hpm.symm]
  · rw [update_of_ne (by exact h20), update_of_ne (by exact h8), update_of_ne hx]

theorem Inv.kfreeSlot (hI : Inv h live sh) (hb : b ∈ sh.blocks) (hc : b.cls = some c)
    (hi : live[i]? = some a) (ha : b.Fits a) : ∃ sh', Inv (kfree h a.ptr) (live.eraseIdx i) sh' := by
  have hok := hI.block b hb
  obtain ⟨hpage, hpos⟩ := hok.header ha
  obtain ⟨hmem, hsub, hnodup, hheld⟩ := erase_spec hI.nodup hi
  have ha' := ha
  simp only [Block.Fits, hc] at ha'
  obtain ⟨hslot, -⟩ := ha'
  simp only [BlockOK, hc] at hok
  obtain ⟨hlt, hord, hp⟩ := hok
  have hcs := classSize_facts c hlt
  have hbd := hslot.bounds
  have hptr : a.ptr ∈ live.map Alloc.ptr := mem_map_of_mem hmem
  have hlen := hp.length_le
  obtain ⟨hform, hself, hfl, hmeta, hsame⟩ := kfree_slot_mem h hpos hpage (by rw [hp.sizeClass]; exact hcs.2.2.2.2) hbd.1
  rw [hform]
  generalize (kfree h a.ptr).mem = mem' at hself hfl hmeta hsame
  have hnotfree : a.ptr ∉ sh.free b.addr := fun hf => ((hp.free_iff a.ptr).1 hf).2 hptr
  refine ⟨{ sh with free := update sh.free b.addr (a.ptr :: sh.free b.addr) }, ?_⟩
  have hhold : b.Holds a.ptr := hslot.holds hlt hord
  apply hI.within hb
  · intro x hx
    refine hsame x (Block.ne_of_not_holds hx (by decide)) (Block.ne_of_not_holds hx (by decide)) ?_
    rintro rfl
    exact hx hhold
  · exact hsame b.addr (by omega) (by omega) (by omega)
  · intro x hx
    rw [hheld x]
    refine and_iff_left ?_
    rintro rfl
    exact hx hhold
  · simp only [BlockOK, hc, update_self]
    refine ⟨hlt, hord, ?_, ?_, ?_, fun q => ?_⟩
    · exact (hsame (b.addr + 16) (by omega) (by omega) (by omega)).trans hp.sizeClass
    · rw [hmeta, hp.count, length_cons]
      simp only [u32]
      omega
    · rw [hfl]
      refine ⟨ptr_of_ne_zero hpos, ?_⟩
      unfold link at *
      rw [hself]
      refine .congr hp.linked fun q hq => ?_
      have hqb := ((hp.free_iff q).1 hq).1.bounds
      refine congrArg ptr (hsame q (by omega) (by omega) ?_)
      rintro rfl
      exact hnotfree hq
    · rw [mem_cons, hp.free_iff q, hheld q]
      constructor
      · rintro (rfl | ⟨hs, hn⟩)
        · exact ⟨hslot, fun h => h.2 rfl⟩
        · exact ⟨hs, fun h => hn h.1⟩
      · rintro ⟨hs, hn⟩
        by_cases he : q = a.ptr
        · exact .inl he
        · exact .inr ⟨hs, fun h => hn ⟨h, he⟩⟩
  · intro a' ha'
    exact hI.fits a' (hsub a' ha')
  · exact hnodup

theorem Inv.write (hI : Inv h live sh) (ha : a ∈ live) (values : ℕ → ℕ) :
    ∃ sh', Inv { h with mem := fun x => if a.ptr ≤ x ∧ x < a.ptr + a.size then values x else h.mem x } live sh' := by
  obtain ⟨b, hb, hfit⟩ := hI.fits a ha
  have hok := hI.block b hb
  have hptr : a.ptr ∈ live.map Alloc.ptr := mem_map_of_mem ha
  have hpriv : ∀ x, b.Private sh.free x → (if a.ptr ≤ x ∧ x < a.ptr + a.size then values x else h.mem x) = h.mem x :=
    fun x hx => if_neg fun hin => hok.not_private hfit hptr hin hx
  refine ⟨{ sh with free := update sh.free b.addr (sh.free b.addr) }, ?_⟩
  apply hI.within hb
  · intro x hx
    exact if_neg fun hin => hx (hok.fits_holds hfit (.inr hin))
  · exact hpriv b.addr (.inl ⟨le_refl _, by omega⟩)
  · exact fun x _ => Iff.rfl
  · rw [update_eq_self]
    exact hok.transfer hpriv rfl fun x _ => Iff.rfl
  · exact hI.fits
  · exact hI.nodup

end NeoOS.Heap
