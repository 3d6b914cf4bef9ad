import NeoOS.Proof.Heap
import NeoOS.Proof.PmmRun

/-!
# Runs of the kernel heap

The blocks of frames that the heap takes from the frame allocator and gives back, `kmalloc` and `kfree` as a
whole, and the theorem on runs: `heap_sound`.
-/

namespace NeoOS.Heap

open List
open Function (update update_of_ne update_self)

open Buddy (In Disj)
open Links

variable {h : Store} {mem mem' : ℕ → ℕ} {page sc p q c x size req : ℕ} {live live' : List Alloc} {sh : Shape} {b b' : Block}
  {held : List ℕ} {free : ℕ → List ℕ} {a : Alloc} {pmm' : Pmm} {s : State}

/-! ## Blocks come and go -/

theorem virtToPhys_addr (b : Block) : virtToPhys b.addr = frameToPhys b.frame := Nat.add_sub_cancel_left ..

/-- The frame allocator fails without effect or gives a block of the order. -/
theorem pmmAlloc_block (hs : PmmOK h.pmm) (fail : Bool) (order : ℕ) (cls : Option ℕ) : pmmAlloc fail h.pmm order = (0, h.pmm) ∨
      ∃ (b : Block) (pmm' : Pmm), b.order = order ∧ b.cls = cls ∧ pmmAlloc fail h.pmm order = (frameToPhys b.frame, pmm') ∧
        frameToPhys b.frame ≠ 0 ∧ PmmOK pmm' ∧ Allocated h.pmm b.order b.frame pmm' ∧ b.order ≤ maxOrder := by
  rcases pmmAlloc_spec hs fail order with h0 | ⟨frame, pmm', hr, hok, hal⟩
  · exact .inl h0
  · have hne : frameToPhys frame ≠ 0 := Nat.mul_ne_zero hal.ne_zero (by decide)
    refine .inr ⟨⟨frame, order, cls⟩, pmm', rfl, rfl, hr, hne, hok, hal, ?_⟩
    by_contra hbig
    have hfail : pmmAlloc fail h.pmm order = (0, h.pmm) := by
      unfold pmmAlloc Pmm.allocLocked
      split
      · rfl
      · exact if_pos (Nat.not_le.1 hbig)
    rw [hfail] at hr
    exact hne (congrArg Prod.fst hr).symm

theorem orderLoop_ge {frames fuel order : ℕ} (hf : frames ≤ 2 ^ (order + fuel)) :
    frames ≤ 2 ^ orderLoop frames fuel order := by
  induction fuel generalizing order with
  | zero => exact hf
  | succ n ih =>
    rw [orderLoop]
    split
    · exact ih (by rw [Nat.add_right_comm]; exact hf)
    · rename_i hstop
      exact Nat.not_lt.1 hstop

/-- The block of a large request is large enough, unless the sum has wrapped around. -/
theorem largeOrder_ge (hs : size + headerSize + (frameSize - 1) < u64) : size + 64 ≤ 4096 * 2 ^ largeOrder size := by
  have hu : u64 = 18446744073709551616 := rfl
  have hh : headerSize = 64 := rfl
  have hfs : frameSize = 4096 := rfl
  have hneeded : add64 size headerSize = size + 64 := add64_of_lt (by omega)
  have hframes : add64 (size + 64) (frameSize - 1) = size + 64 + 4095 := add64_of_lt (by omega)
  have hloop := @orderLoop_ge ((size + 64 + 4095) / 4096) 64 0 (by
    have hp : 2 ^ (0 + 64) = 18446744073709551616 := by decide
    rw [hp]
    omega)
  unfold largeOrder
  dsimp only
  rw [hneeded, hframes, hfs]
  omega

theorem carve_spec (h : Store) (hpos : 0 < page) (hsc : 0 < sc) (hzero : h.mem (freeListField page) = 0) (n : ℕ) :
    (carve h page sc n).pmm = h.pmm ∧ (carve h page sc n).classPages = h.classPages ∧
      Linked (link (carve h page sc n).mem) (ptr ((carve h page sc n).mem (freeListField page))) (slotsDown page sc n) ∧
      ∀ x, x ≠ page + 8 → (∀ i < n, x ≠ slotAddr page sc i) → (carve h page sc n).mem x = h.mem x := by
  induction n with
  | zero =>
    refine ⟨rfl, rfl, ?_, fun _ _ _ => rfl⟩
    rw [carve, hzero]
    rfl
  | succ n ih =>
    obtain ⟨hpmm, hcp, hlinked, hsame⟩ := ih
    simp only [carve, Store.write]
    have hslot : slotAddr page sc n ≠ freeListField page := by
      unfold slotAddr freeListField headerSize
      omega
    refine ⟨hpmm, hcp, ?_, fun x h8 hx => ?_⟩
    · rw [update_self, slotsDown]
      refine ⟨ptr_of_ne_zero (by unfold slotAddr; omega), ?_⟩
      unfold link at *
      rw [update_of_ne hslot, update_self]
      refine .congr hlinked fun q hq => ?_
      obtain ⟨i, hi, rfl⟩ := mem_slotsDown.1 hq
      have hlt : i * sc < n * sc := Nat.mul_lt_mul_of_pos_right hi hsc
      rw [update_of_ne (by unfold slotAddr freeListField headerSize; omega), update_of_ne (by unfold slotAddr; omega)]
    · rw [update_of_ne (by exact h8), update_of_ne (hx n (Nat.lt_succ_self n))]
      exact hsame x h8 fun i hi => hx i (by omega)

theorem slotCount_pos : ∀ c < 8, 0 < slotCount (classSize c) := by decide

/-- What `heap_new_page` leaves in the cells of a page. -/
structure NewPage (mem mem' : ℕ → ℕ) (b : Block) (sc : ℕ) : Prop where
  others : ∀ x, ¬ b.Holds x → mem' x = mem x
  sizeClass : mem' (sizeClassField b.addr) = sc
  count : mem' (metaField b.addr) = slotCount sc
  linked : Linked (link mem') (ptr (mem' (freeListField b.addr))) (slotsDown b.addr sc (slotCount sc))

theorem NewPage.freeList_ne_zero (hn : NewPage mem mem' b sc) (hpos : 0 < slotCount sc) : mem' (freeListField b.addr) ≠ 0 := by
  intro h0
  have hl := hn.linked
  obtain ⟨n, hn⟩ : ∃ n, slotCount sc = n + 1 := ⟨slotCount sc - 1, by omega⟩
  rw [h0, hn] at hl
  cases hl.1

theorem heapNewPage_spec (hs : PmmOK h.pmm) (fail : Bool) (hc : c < 8) : heapNewPage fail h (classSize c) = (0, h) ∨
      ∃ (b : Block) (pmm' : Pmm) (mem' : ℕ → ℕ), b.order = 0 ∧ b.cls = some c ∧ PmmOK pmm' ∧
        Allocated h.pmm b.order b.frame pmm' ∧ NewPage h.mem mem' b (classSize c) ∧
        heapNewPage fail h (classSize c) = (b.addr, ⟨pmm', mem', h.classPages⟩) := by
  have hcs := classSize_facts c hc
  unfold heapNewPage
  dsimp only
  rcases pmmAlloc_block hs fail 0 (some c) with h0 | ⟨b, pmm', hord, hcls, hr, hne, hok, hal, hle⟩
  · left
    rw [h0, if_pos rfl]
  · right
    rw [hr, if_neg hne]
    have haddr : physToVirt (frameToPhys b.frame) = b.addr := rfl
    rw [haddr]
    have hpos := b.addr_pos
    -- the header before the loop
    generalize hh : (({ h with pmm := pmm' }.write (sizeClassField b.addr) (classSize c)).write (freeListField b.addr) 0).write
      (nextField b.addr) 0 = h1
    have hpmm1 : h1.pmm = pmm' := by rw [← hh]; rfl
    have hcp1 : h1.classPages = h.classPages := by rw [← hh]; rfl
    have hfl1 : h1.mem (freeListField b.addr) = 0 := by
      rw [← hh]
      simp only [Store.write]
      rw [update_of_ne (by unfold freeListField nextField; omega), update_self]
    have hsc1 : h1.mem (sizeClassField b.addr) = classSize c := by
      rw [← hh]
      simp only [Store.write]
      rw [update_of_ne (by unfold sizeClassField nextField; omega),
        update_of_ne (by unfold sizeClassField freeListField; omega), update_self]
    have hsame1 : ∀ x, ¬ b.Holds x → h1.mem x = h.mem x := by
      intro x hx
      rw [← hh]
      simp only [Store.write]
      rw [update_of_ne (by exact Block.ne_of_not_holds hx (d := 0) (by decide)),
        update_of_ne (by exact Block.ne_of_not_holds hx (d := 8) (by decide)),
        update_of_ne (by exact Block.ne_of_not_holds hx (d := 16) (by decide))]
    obtain ⟨hpmm2, hcp2, hlinked, hsame2⟩ := carve_spec h1 hpos (by omega : 0 < classSize c) hfl1 (slotCount (classSize c))
    have hslot : ∀ i < slotCount (classSize c), b.addr + 64 ≤ slotAddr b.addr (classSize c) i ∧
        slotAddr b.addr (classSize c) i + classSize c ≤ b.addr + 4096 := fun i hi => IsSlot.bounds ⟨i, hi, rfl⟩
    generalize carve h1 b.addr (classSize c) (slotCount (classSize c)) = h2 at hpmm2 hcp2 hlinked hsame2 ⊢
    refine ⟨b, pmm', (h2.write (metaField b.addr) (slotCount (classSize c))).mem, hord, hcls, hok, hal, ⟨?_, ?_, ?_, ?_⟩, ?_⟩
    · intro x hx
      simp only [Store.write]
      rw [update_of_ne (by exact Block.ne_of_not_holds hx (d := 20) (by decide)),
        hsame2 x (Block.ne_of_not_holds hx (by decide)), hsame1 x hx]
      rintro i hi rfl
      have := hslot i hi
      apply hx
      unfold Block.Holds
      rw [hord]
      omega
    · simp only [Store.write]
      rw [update_of_ne (by unfold sizeClassField metaField; omega), hsame2 _ (by unfold sizeClassField; omega), hsc1]
      intro i hi
      have := hslot i hi
      unfold sizeClassField
      omega
    · simp only [Store.write]
      rw [update_self]
    · simp only [Store.write]
      rw [update_of_ne (by unfold freeListField metaField; omega)]
      refine .congr hlinked fun q hq => ?_
      obtain ⟨i, hi, rfl⟩ := mem_slotsDown.1 hq
      have := hslot i hi
      unfold link
      rw [update_of_ne (by unfold metaField; omega)]
    · rw [← hpmm1, ← hcp1, ← hpmm2, ← hcp2]
      rfl

theorem sizeClassFor_some (hs : sizeClassFor size = some c) : c < 8 ∧ size ≤ classSize c := by
  obtain ⟨hlt, hle, -⟩ := findIdx?_eq_some_iff_getElem.1 hs
  have hlen : sizeClasses.length = 8 := rfl
  refine ⟨hlen ▸ hlt, ?_⟩
  unfold classSize
  rw [getD_eq_getElem _ _ hlt]
  exact of_decide_eq_true hle

section

variable (hI : Inv h live sh)
include hI

theorem Inv.kfreeLarge (hb : b ∈ sh.blocks) (hc : b.cls = none) {i : ℕ}
    (hi : live[i]? = some a) (ha : b.Fits a) : ∃ sh', Inv (kfree h a.ptr) (live.eraseIdx i) sh' := by
  have hok := hI.block b hb
  obtain ⟨hpage, hpos⟩ := hok.header ha
  obtain ⟨hmem, hsub, hnodup, hheld⟩ := erase_spec hI.nodup hi
  have hhold := hok.fits_holds ha (.inl rfl)
  simp only [Block.Fits, hc] at ha
  simp only [BlockOK, hc] at hok
  have hown := hI.owned b hb
  obtain ⟨hpmm, hfreed⟩ := freeLocked_spec hI.pmm hown.order_le hown.aligned hown.ne_zero hown.inRange fun f hf => by
    rw [hown.refcount f hf]
    exact Nat.one_pos
  have hform : kfree h a.ptr = { h with pmm := h.pmm.freeLocked (frameToPhys b.frame) b.order } := by
    simp only [kfree, if_neg hpos, hpage, if_pos hok.1, hok.2, virtToPhys_addr, pmmFree]
  rw [hform]
  have hrest : ∀ {b'}, b' ∈ sh.blocks.filter (· ≠ b) ↔ b' ∈ sh.blocks ∧ b' ≠ b := by simp
  refine ⟨{ sh with blocks := sh.blocks.filter (· ≠ b) }, hpmm, hI.apart.filter _, fun b' hb' => ?_, hI.chains,
    fun c hlt page => ?_, fun b' hb' => ?_, fun a' ha' => ?_, hnodup⟩
  · obtain ⟨hb', hne⟩ := hrest.1 hb'
    have hown' := hI.owned b' hb'
    refine { hown' with refcount := fun f hf => ?_ }
    rw [hfreed.refcount, mapBlock_not_in _ _ (Disj.not_in (hI.apart_of_ne hb' hb hne) hf)]
    exact hown'.refcount f hf
  · rw [hI.mem_chain c hlt page]
    constructor
    · rintro ⟨b', hb', hcls, hpage⟩
      refine ⟨b', hrest.2 ⟨hb', ?_⟩, hcls, hpage⟩
      rintro rfl
      rw [hc] at hcls
      cases hcls
    · rintro ⟨b', hb', hcls, hpage⟩
      exact ⟨b', (hrest.1 hb').1, hcls, hpage⟩
  · obtain ⟨hb', hne⟩ := hrest.1 hb'
    refine (hI.block b' hb').transfer (fun _ _ => rfl) rfl fun x hx => ?_
    rw [hheld x]
    refine and_iff_left ?_
    rintro rfl
    exact (hI.apart_of_ne hb' hb hne).not_holds hx hhold
  · obtain ⟨b', hb', hfit⟩ := hI.fits a' (hsub a' ha')
    refine ⟨b', hrest.2 ⟨hb', ?_⟩, hfit⟩
    rintro rfl
    -- a large block has one pointer only
    simp only [Block.Fits, hc] at hfit
    have hptr := ((hheld a'.ptr).1 (mem_map_of_mem ha')).2
    exact hptr (hfit.1.trans ha.1.symm)

theorem Inv.insert (hpmm : PmmOK pmm') (hal : Allocated h.pmm b.order b.frame pmm')
    (ho : b.order ≤ maxOrder) (hmem : ∀ x, ¬ b.Holds x → mem' x = h.mem x) {freeB : List ℕ}
    (hheld : ∀ x, ¬ b.Holds x → (x ∈ live'.map Alloc.ptr ↔ x ∈ live.map Alloc.ptr))
    (hblock : BlockOK mem' (live'.map Alloc.ptr) (update sh.free b.addr freeB) b)
    (hfits : ∀ a ∈ live', b.Fits a ∨ a ∈ live) (hnodup : (live'.map Alloc.ptr).Nodup) {classPages' : ℕ → ℕ}
    {chain' : ℕ → List ℕ}
    (hchain : ∀ c < 8, b.cls ≠ some c ∧ classPages' c = h.classPages c ∧ chain' c = sh.chain c ∨
      b.cls = some c ∧ classPages' c = b.addr ∧ chain' c = b.addr :: sh.chain c ∧ mem' b.addr = h.classPages c) :
    Inv ⟨pmm', mem', classPages'⟩ live' ⟨b :: sh.blocks, chain', update sh.free b.addr freeB⟩ := by
  obtain ⟨hown, hothers⟩ := hI.fresh hal ho
  have hold : ∀ c < 8, Linked (link mem') (ptr (h.classPages c)) (sh.chain c) := by
    intro c hc
    refine .congr (hI.chains c hc) fun page hpage => ?_
    obtain ⟨b', hb', -, rfl⟩ := (hI.mem_chain c hc page).1 hpage
    exact congrArg ptr (hmem _ ((hothers b' hb').1.symm.not_holds (b'.holds_addr (d := 0) (by decide))))
  refine ⟨hpmm, pairwise_cons.2 ⟨fun b' hb' => (hothers b' hb').1, hI.apart⟩,
    forall_mem_cons.2 ⟨hown, fun b' hb' => (hothers b' hb').2⟩, fun c hc => ?_, fun c hc page => ?_,
    forall_mem_cons.2 ⟨hblock, fun b' hb' => ?_⟩, fun a ha => ?_, hnodup⟩
  · rcases hchain c hc with ⟨-, hcp, hch⟩ | ⟨-, hcp, hch, hnext⟩
    · change Linked (link mem') (ptr (classPages' c)) (chain' c)
      rw [hcp, hch]
      exact hold c hc
    · change Linked (link mem') (ptr (classPages' c)) (chain' c)
      rw [hcp, hch]
      refine ⟨ptr_of_ne_zero (Nat.pos_iff_ne_zero.1 b.addr_pos), ?_⟩
      unfold link at *
      rw [hnext]
      exact hold c hc
  · change page ∈ chain' c ↔ _
    rw [exists_mem_cons_iff, ← hI.mem_chain c hc page]
    rcases hchain c hc with ⟨hcls, -, hch⟩ | ⟨hcls, -, hch, -⟩
    · rw [hch, or_iff_right fun h => hcls h.1]
    · rw [hch, mem_cons, and_iff_right hcls, eq_comm]
  · exact (hI.block b' hb').other (hothers b' hb').1.symm hmem hheld
  · rw [exists_mem_cons_iff]
    exact (hfits a ha).imp_right (hI.fits a)

theorem Inv.not_held (hal : Allocated h.pmm b.order b.frame pmm') (ho : b.order ≤ maxOrder)
    (hx : b.Holds x) : x ∉ live.map Alloc.ptr := by
  intro hmem
  obtain ⟨a, ha, rfl⟩ := mem_map.1 hmem
  obtain ⟨b', hb', hfit⟩ := hI.fits a ha
  exact ((hI.fresh hal ho).2 b' hb').1.not_holds hx ((hI.block b' hb').fits_holds hfit (.inl rfl))

theorem Inv.kmallocLarge (fail : Bool) (hs : size + headerSize + (frameSize - 1) < u64) (hreq : req ≤ size) :
    (kmallocLarge fail h size).1 = 0 ∧ Inv (kmallocLarge fail h size).2 live sh ∨ (kmallocLarge fail h size).1 ≠ 0 ∧
        ∃ sh', Inv (kmallocLarge fail h size).2 (⟨(kmallocLarge fail h size).1, req⟩ :: live) sh' := by
  have hroom := largeOrder_ge hs
  unfold Heap.kmallocLarge
  dsimp only
  rcases pmmAlloc_block hI.pmm fail (largeOrder size) none with h0 | ⟨b, pmm', hord, hcls, hr, hne, hok, hal, hle⟩
  · left
    rw [h0]
    exact ⟨rfl, hI⟩
  · right
    rw [hr]
    simp only [if_neg hne]
    have haddr : physToVirt (frameToPhys b.frame) = b.addr := rfl
    rw [haddr]
    have hpos := b.addr_pos
    have hhold : b.Holds (b.addr + headerSize) := b.holds_addr (by decide)
    refine ⟨by omega, ⟨b :: sh.blocks, sh.chain, update sh.free b.addr []⟩, ?_⟩
    refine hI.insert hok hal hle (fun x hx => ?_) (fun x hx => ?_) ?_ (fun a ha => ?_) ?_ fun c hc => ?_
    · have h0 := Block.ne_of_not_holds hx (d := 0) (by decide)
      have h8 := Block.ne_of_not_holds hx (d := 8) (by decide)
      have h16 := Block.ne_of_not_holds hx (d := 16) (by decide)
      have h20 := Block.ne_of_not_holds hx (d := 20) (by decide)
      simp only [Store.write]
      rw [update_of_ne (by exact h0), update_of_ne (by exact h8), update_of_ne (by exact h20), update_of_ne (by exact h16)]
    · rw [map_cons, mem_cons, or_iff_right (Block.ne_of_not_holds hx (by decide))]
    · simp only [BlockOK, hcls, Store.write]
      constructor
      · rw [update_of_ne (by unfold sizeClassField nextField; omega),
          update_of_ne (by unfold sizeClassField freeListField; omega),
          update_of_ne (by unfold sizeClassField metaField; omega), update_self]
      · rw [update_of_ne (by unfold metaField nextField; omega),
          update_of_ne (by unfold metaField freeListField; omega), update_self, hord]
    · rcases mem_cons.1 ha with rfl | ha
      · left
        simp only [Block.Fits, hcls]
        rw [hord]
        exact ⟨rfl, by omega⟩
      · exact .inr ha
    · rw [map_cons]
      exact nodup_cons.2 ⟨hI.not_held hal hle hhold, hI.nodup⟩
    · left
      rw [hcls]
      exact ⟨(Option.some_ne_none c).symm, rfl, rfl⟩

theorem Inv.addPage (hc : c < 8) (hord : b.order = 0) (hcls : b.cls = some c)
    (hok : PmmOK pmm') (hal : Allocated h.pmm b.order b.frame pmm') (hnew : NewPage h.mem mem' b (classSize c)) :
    ∃ sh' : Shape, b ∈ sh'.blocks ∧ Inv ⟨pmm', update mem' b.addr (h.classPages c),
    update h.classPages c b.addr⟩ live sh' := by
  have hcs := classSize_facts c hc
  have hle : b.order ≤ maxOrder := by rw [hord]; exact Nat.zero_le _
  have hslot : ∀ q ∈ slotsDown b.addr (classSize c) (slotCount (classSize c)), b.addr + 64 ≤ q ∧
    q + classSize c ≤ b.addr + 4096 :=
    fun q hq => IsSlot.bounds (mem_slotsDown.1 hq)
  refine ⟨⟨b :: sh.blocks, update sh.chain c (b.addr :: sh.chain c),
    update sh.free b.addr (slotsDown b.addr (classSize c) (slotCount (classSize c)))⟩, mem_cons_self, ?_⟩
  refine hI.insert hok hal hle (fun x hx => ?_) (fun _ _ => Iff.rfl) ?_ (fun a ha => .inr ha) hI.nodup fun c' hc' => ?_
  · rw [update_of_ne (by exact Block.ne_of_not_holds hx (d := 0) (by decide))]
    exact hnew.others x hx
  · simp only [BlockOK, hcls, update_self]
    refine ⟨hc, hord, ?_, ?_, ?_, fun q => ?_⟩
    · rw [update_of_ne (by unfold sizeClassField; omega)]
      exact hnew.sizeClass
    · rw [update_of_ne (by unfold metaField; omega), length_slotsDown]
      exact hnew.count
    · rw [update_of_ne (by unfold freeListField; omega)]
      refine .congr hnew.linked fun q hq => ?_
      have := hslot q hq
      unfold link
      rw [update_of_ne (by omega)]
    · rw [mem_slotsDown]
      refine (and_iff_left_of_imp fun hq => hI.not_held hal hle ?_).symm
      have := IsSlot.bounds hq
      unfold Block.Holds
      rw [hord]
      omega
  · by_cases he : c' = c
    · right
      rw [he]
      exact ⟨hcls, update_self .., update_self .., update_self ..⟩
    · left
      refine ⟨fun h => he ?_, update_of_ne he .., update_of_ne he ..⟩
      rw [hcls] at h
      exact (Option.some.inj h).symm

theorem Inv.length_chain_le (hc : c < 8) : (sh.chain c).length ≤ maxFrames := by
  have hnodup : (sh.chain c).Nodup := (hI.chains c hc).nodup
  have hsub : sh.chain c ⊆ (List.range maxFrames).map fun f => physToVirt (frameToPhys f) := by
    intro page hpage
    obtain ⟨b, hb, -, rfl⟩ := (hI.mem_chain c hc page).1 hpage
    have hown := hI.owned b hb
    have hpow := Nat.two_pow_pos b.order
    have hr := hown.inRange
    exact mem_map.2 ⟨b.frame, mem_range.2 (by omega), rfl⟩
  have hle := (hnodup.subperm hsub).length_le
  rwa [length_map, length_range] at hle

theorem Inv.kmallocSmall (fail : Bool) (hc : c < 8) (hreq : req ≤ classSize c) : ∃ r, kmallocSmall fail h c = some r ∧
      (r.1 = 0 ∧ (∃ sh', Inv r.2 live sh') ∨ r.1 ≠ 0 ∧ ∃ sh', Inv r.2 (⟨r.1, req⟩ :: live) sh') := by
  obtain ⟨page, hfind, hpage⟩ := findPage_spec (hI.chains c hc) (Nat.lt_succ_of_le (hI.length_chain_le hc))
  simp only [Heap.kmallocSmall, hfind, Option.bind_eq_bind, Option.bind_some]
  split
  · -- a page of the list has a free slot
    rename_i hne
    obtain ⟨hmem, hfree⟩ := hpage hne
    obtain ⟨b, hb, hcls, rfl⟩ := (hI.mem_chain c hc page).1 hmem
    exact ⟨_, rfl, .inr (hI.takeSlot hb hcls hfree hreq)⟩
  · have hclass : sizeClasses.getD c 0 = classSize c := rfl
    rw [hclass]
    rcases heapNewPage_spec hI.pmm fail hc with h0 | ⟨b, pmm', mem', hord, hcls, hok, hal, hnew, hr⟩
    · rw [h0, if_pos rfl]
      exact ⟨_, rfl, .inl ⟨rfl, sh, hI⟩⟩
    · rw [hr, if_neg (Nat.pos_iff_ne_zero.1 b.addr_pos)]
      obtain ⟨sh', hb, hI'⟩ := hI.addPage hc hord hcls hok hal hnew
      have hfree : update mem' b.addr (h.classPages c) (freeListField b.addr) ≠ 0 := by
        rw [update_of_ne (by unfold freeListField; omega)]
        exact hnew.freeList_ne_zero (slotCount_pos c hc)
      exact ⟨_, rfl, .inr (hI'.takeSlot hb hcls hfree hreq)⟩

theorem Inv.kmalloc (fail : Bool) (hs : size + headerSize + (frameSize - 1) < u64) : ∃ r, kmalloc fail h size = some r ∧
      (r.1 = 0 ∧ (∃ sh', Inv r.2 live sh') ∨ r.1 ≠ 0 ∧ ∃ sh', Inv r.2 (⟨r.1, size⟩ :: live) sh') := by
  unfold Heap.kmalloc
  split
  · exact ⟨_, rfl, .inl ⟨rfl, sh, hI⟩⟩
  · dsimp only
    generalize hsize : (if size < freeSlotSize then freeSlotSize else size) = size'
    have hle : size ≤ size' := by
      rw [← hsize]
      split <;> omega
    split
    · rename_i c hclass
      obtain ⟨hc, hfit⟩ := sizeClassFor_some hclass
      exact hI.kmallocSmall fail hc (hle.trans hfit)
    · have hs' : size' + headerSize + (frameSize - 1) < u64 := by
        rw [← hsize]
        split
        · decide
        · exact hs
      refine ⟨_, rfl, ?_⟩
      rcases hI.kmallocLarge fail hs' hle with ⟨h0, hI'⟩ | hI'
      · exact .inl ⟨h0, sh, hI'⟩
      · exact .inr hI'

end

/-! ## Runs -/

/-- The bytes behind a pointer: its size class, or the block behind its header. -/
def room (mem : ℕ → ℕ) (p : ℕ) : ℕ :=
  let page := p / frameSize * frameSize
  if mem (sizeClassField page) = largeMarker then frameSize * 2 ^ mem (metaField page) - headerSize
  else mem (sizeClassField page)

/-- What callers and the heap rely on. -/
structure Sound (s : State) : Prop where
  running : s.stuck = false
  disjoint : s.live.Pairwise fun a a' =>
    a.ptr + room s.store.mem a.ptr ≤ a'.ptr ∨ a'.ptr + room s.store.mem a'.ptr ≤ a.ptr
  large : ∀ a ∈ s.live, a.size ≤ room s.store.mem a.ptr
  aligned : ∀ a ∈ s.live, 16 ∣ a.ptr ∧ min 64 (room s.store.mem a.ptr) ∣ a.ptr
  pages : ∀ c < 8, ∃ pages, Linked (link s.store.mem) (ptr (s.store.classPages c)) pages ∧
    ∀ page ∈ pages, ∃ free, PageOK s.store.mem (s.live.map Alloc.ptr) free page c

section

variable (hb : BlockOK mem held free b)
include hb

theorem BlockOK.room_eq (ha : b.Fits a) : room mem a.ptr = match b.cls with
      | some c => classSize c
      | none => 4096 * 2 ^ b.order - 64 := by
  obtain ⟨hpage, -⟩ := hb.header ha
  unfold room
  rw [hpage]
  cases hc : b.cls with
  | some c =>
    simp only [BlockOK, hc] at hb
    obtain ⟨hlt, -, hp⟩ := hb
    rw [if_neg (by rw [hp.sizeClass]; exact (classSize_facts c hlt).2.2.2.2), hp.sizeClass]
  | none =>
    simp only [BlockOK, hc] at hb
    rw [if_pos hb.1, hb.2]
    rfl

theorem BlockOK.room_holds (ha : b.Fits a) :
    b.addr ≤ a.ptr ∧ a.ptr + room mem a.ptr ≤ b.addr + 4096 * 2 ^ b.order ∧ a.size ≤ room mem a.ptr := by
  have hroom := hb.room_eq ha
  cases hc : b.cls with
  | some c =>
    simp only [BlockOK, hc] at hb
    simp only [Block.Fits, hc] at ha
    simp only [hc] at hroom
    have := ha.1.bounds
    rw [hb.2.1, hroom]
    omega
  | none =>
    simp only [Block.Fits, hc] at ha
    simp only [hc] at hroom
    rw [hroom]
    omega

theorem BlockOK.aligned (ha : b.Fits a) : 16 ∣ a.ptr ∧ min 64 (room mem a.ptr) ∣ a.ptr := by
  have hroom := hb.room_eq ha
  have hmod : 64 ∣ b.addr := Dvd.dvd.trans (by decide) (Nat.dvd_of_mod_eq_zero b.addr_mod)
  cases hc : b.cls with
  | some c =>
    simp only [BlockOK, hc] at hb
    simp only [Block.Fits, hc] at ha
    simp only [hc] at hroom
    obtain ⟨i, -, hi⟩ := ha.1
    obtain ⟨hge, -, h64, hdvd, -⟩ := classSize_facts c hb.1
    have hmin : min 64 (classSize c) ∣ a.ptr := by
      rw [hi]
      exact Nat.dvd_add (Nat.dvd_add (h64.trans hmod) h64) (Dvd.dvd.mul_left hdvd i)
    have h16 : ∀ c < 8, 16 ∣ min 64 (classSize c) := by decide
    rw [hroom]
    exact ⟨(h16 c hb.1).trans hmin, hmin⟩
  | none =>
    simp only [Block.Fits, hc] at ha
    have hptr : 64 ∣ a.ptr := by
      rw [ha.1]
      exact Nat.dvd_add hmod (dvd_refl 64)
    simp only [hc] at hroom
    rw [hroom, Nat.min_eq_left (by omega)]
    exact ⟨Dvd.dvd.trans (by decide) hptr, hptr⟩

end

theorem Inv.sound (hI : Inv s.store s.live sh) (hrun : s.stuck = false) : Sound s := by
  refine ⟨hrun, ?_, fun a ha => ?_, fun a ha => ?_, fun c hc => ?_⟩
  · -- two pointers lie in two blocks, or in two slots of one page
    have hpw : s.live.Pairwise fun a a' => a.ptr ≠ a'.ptr := pairwise_map.1 hI.nodup
    refine hpw.imp_of_mem fun {a a'} ha ha' hne => ?_
    obtain ⟨b, hb, hfit⟩ := hI.fits a ha
    obtain ⟨b', hb', hfit'⟩ := hI.fits a' ha'
    have hok := hI.block b hb
    have hok' := hI.block b' hb'
    by_cases he : b = b'
    · subst he
      have hroom := hok.room_eq hfit
      have hroom' := hok.room_eq hfit'
      cases hc : b.cls with
      | some c =>
        simp only [Block.Fits, hc] at hfit hfit'
        simp only [hc] at hroom hroom'
        rw [hroom, hroom']
        exact hfit.1.apart hfit'.1 hne
      | none =>
        simp only [Block.Fits, hc] at hfit hfit'
        exact absurd (hfit.1.trans hfit'.1.symm) hne
    · have hap := hI.apart_of_ne hb hb' he
      have h1 := hok.room_holds hfit
      have h2 := hok'.room_holds hfit'
      unfold Block.Apart Disj at hap
      unfold Block.addr physToVirt frameToPhys frameSize at h1 h2
      omega
  · obtain ⟨b, hb, hfit⟩ := hI.fits a ha
    exact ((hI.block b hb).room_holds hfit).2.2
  · obtain ⟨b, hb, hfit⟩ := hI.fits a ha
    exact (hI.block b hb).aligned hfit
  · refine ⟨sh.chain c, hI.chains c hc, fun page hpage => ?_⟩
    obtain ⟨b, hb, hcls, rfl⟩ := (hI.mem_chain c hc page).1 hpage
    have hok := hI.block b hb
    simp only [BlockOK, hcls] at hok
    exact ⟨_, hok.2.2⟩

/-- The condition: the size of a request, its header and the rounding to frames do not overflow. -/
def NoWrap : State → Event → Prop
  | _, .kmalloc _ size => size + headerSize + (frameSize - 1) < u64
  | _, _ => True

/-- A heap that runs and represents some shape. -/
def Good (s : State) : Prop := s.stuck = false ∧ ∃ sh, Inv s.store s.live sh

/-- **One step.** -/
theorem Good.step (hs : Good s) (e : Event) (he : NoWrap s e) : Good (step s e) := by
  obtain ⟨hrun, sh, hI⟩ := hs
  cases e with
  | kmalloc fail size =>
    obtain ⟨r, hr, hres⟩ := hI.kmalloc fail he
    simp only [Heap.step, hr]
    refine ⟨hrun, ?_⟩
    rcases hres with ⟨h0, hI'⟩ | ⟨h0, hI'⟩
    · rw [if_pos h0]
      exact hI'
    · rw [if_neg h0]
      exact hI'
  | kfree i =>
    simp only [Heap.step]
    split
    · exact ⟨hrun, sh, hI⟩
    · rename_i a ha
      obtain ⟨b, hb, hfit⟩ := hI.fits a (mem_of_getElem? ha)
      refine ⟨hrun, ?_⟩
      cases hc : b.cls with
      | some c => exact hI.kfreeSlot hb hc ha hfit
      | none => exact hI.kfreeLarge hb hc ha hfit
  | write i values =>
    simp only [Heap.step]
    split
    · exact ⟨hrun, sh, hI⟩
    · rename_i a ha
      exact ⟨hrun, hI.write (mem_of_getElem? ha) values⟩

theorem Good.init {pmm : Pmm} (hp : PmmOK pmm) (mem : ℕ → ℕ) : Good (.init pmm mem) := by
  refine ⟨rfl, ⟨[], fun _ => [], fun _ => []⟩, hp, List.Pairwise.nil, nofun, fun _ _ => rfl, fun c _ page => ?_, nofun, nofun,
    nodup_nil⟩
  simp

/-- **The heap is sound.** From a sound frame allocator and any memory, after any sequence of requests, frees
of live pointers and writes into live allocations in which no size overflows. -/
theorem heap_sound (pmm : Pmm) (mem : ℕ → ℕ) (es : List Event) (hp : PmmOK pmm)
    (hv : Run.Valid step NoWrap (.init pmm mem) es) : Sound (Run.final step (.init pmm mem) es) := by
  obtain ⟨hrun, sh, hI⟩ := hv.invariant (fun _ e hs he => hs.step e he) (Good.init hp mem)
  exact hI.sound hrun

/-- A frame allocator with two frames. -/
def twoFrames : Pmm := pmmFree (pmmFree pmmReset 0x400000 0) 0x402000 0

theorem twoFrames_ok : PmmOK twoFrames :=
  ((pmmReset_ok.free_one (f := 1024) (by decide) (by decide) nofun).free_one (f := 1026) (by decide) (by decide)
    (by decide)).pmm

/-- Two small requests, a write, a free and a request for a block of its own. -/
theorem heap_sound_small : (Run.final step (.init twoFrames fun _ => 7)
      [.kmalloc false 100, .kmalloc false 120, .write 1 fun x => x, .kfree 1, .kmalloc false 4000]).live.length = 2 ∧
    Sound (Run.final step (.init twoFrames fun _ => 7)
      [.kmalloc false 100, .kmalloc false 120, .write 1 fun x => x, .kfree 1, .kmalloc false 4000]) :=
  ⟨by decide +kernel, heap_sound twoFrames _ _ twoFrames_ok (by simp [Run.Valid, NoWrap, headerSize, frameSize, u64])⟩

/-- A request for all of the address space but 64 bytes gets a block of one frame. -/
theorem kmalloc_wraps : PmmOK twoFrames ∧
    ¬ Sound (Run.final step (.init twoFrames fun _ => 0) [.kmalloc false (2 ^ 64 - 64)]) := by
  refine ⟨twoFrames_ok, fun h => ?_⟩
  have hlive : (Run.final step (.init twoFrames fun _ => 0) [.kmalloc false (2 ^ 64 - 64)]).live =
      [⟨physToVirt 0x402000 + 64, 2 ^ 64 - 64⟩] := by decide
  have hlarge := h.large ⟨physToVirt 0x402000 + 64, 2 ^ 64 - 64⟩ (by rw [hlive]; exact mem_cons_self)
  have hroom : room (Run.final step (.init twoFrames fun _ => 0) [.kmalloc false (2 ^ 64 - 64)]).store.mem
      (physToVirt 0x402000 + 64) = 4032 := by decide
  exact absurd hlarge (by decide)

end NeoOS.Heap
