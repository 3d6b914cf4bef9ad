import Mathlib.Data.List.Basic
import Mathlib.Order.Nat
import NeoOS.Lib.Run
import NeoOS.Spec.Vma

/-!
# The loops over a mapping list

What `munmap` and `mprotect` do to the page tables is a sequence of calls for single
pages, each inside a mapping and the range: `munmapLoop_rel` and `mprotectLoop_rel`
carry any relation those calls keep over the whole loop. What they leave of the list
are pieces of the mappings that were there.
-/

namespace NeoOS

open List
open List (exists_mem_cons_of_exists)

variable {vm : Vm} {start stop prot : ℕ} {l : List Vma} {v w : Vma} {R : Vm → Vm → Prop} {rest : Vm → Bool × List Vma × Vm}

theorem mem_pages {va : ℕ} (h : va ∈ Vm.pages start stop) : start ≤ va ∧ va < stop := by
  unfold Vm.pages at h
  simp only [mem_map, mem_range] at h
  obtain ⟨i, hi, rfl⟩ := h
  omega

/-- The address lies in the mapping and in `[start, stop)`. -/
structure Hits (v : Vma) (start stop va : ℕ) : Prop where
  low : v.start ≤ va
  high : va < v.stop
  first : start ≤ va
  last : va < stop

/-- The relation holds along every sequence of steps that keep it. -/
structure Chains (R : Vm → Vm → Prop) : Prop where
  refl : ∀ vm, R vm vm
  trans : ∀ a b c, R a b → R b c → R a c
  kmalloc : ∀ vm : Vm, R vm { vm with k := vm.k.kmalloc.2 }

theorem Chains.pages {f : Vm → ℕ → Vm} (hR : Chains R) (hf : ∀ va, start ≤ va → va < stop → ∀ vm, R vm (f vm va)) (vm : Vm) :
    R vm ((Vm.pages start stop).foldl f vm) :=
  Run.foldl_rel hR.refl hR.trans (fun va hva => hf va (mem_pages hva).1 (mem_pages hva).2) vm

/-- **The unmapping loop.** -/
theorem munmapLoop_rel (hR : Chains R)
    (hu : ∀ v ∈ l, ∀ va, Hits v start stop va → ∀ vm, R vm (vm.unmapFrom va (!vmaPhys v.flags)))
    (vm : Vm) : R vm (munmapLoop start stop l vm).2.2 := by
  induction l generalizing vm with
  | nil => exact hR.refl vm
  | cons v vs ih =>
    obtain ⟨hu1, hu2⟩ := forall_mem_cons.1 hu
    have hv : ∀ vm, R vm (unmapRange vm (max v.start start) (min v.stop stop) (!vmaPhys v.flags)) :=
      hR.pages fun va h1 h2 => hu1 va ⟨by omega, by omega, by omega, by omega⟩
    have hvs := ih hu2
    unfold munmapLoop
    dsimp only
    split
    · exact hvs vm
    split
    · exact hR.refl vm
    split
    · split <;> exact hR.trans _ _ _ (hv vm) (hR.kmalloc _)
    split
    · exact hR.trans _ _ _ (hv vm) (hvs _)
    split
    · exact hv vm
    · exact hR.trans _ _ _ (hv vm) (hvs _)

theorem protectPiece_rel (hR : Chains R)
    (hs : ∀ va, v.start ≤ va → va < v.stop → va < stop → ∀ vm, R vm (vm.setprotFrom va (mprotectPte prot)))
    (hrest : ∀ vm, R vm (rest vm).2.2) (vs : List Vma) (vm : Vm) :
    R vm (protectPiece stop prot v vs vm rest).2.2 := by
  unfold protectPiece
  split
  · dsimp only
    split
    · exact hR.trans _ _ _ (hR.kmalloc vm) (hR.pages (fun va h1 h2 => hs va h1 (by omega) h2) _)
    · exact hR.kmalloc vm
  · exact hR.trans _ _ _ (hR.pages (fun va h1 h2 => hs va h1 h2 (by omega)) _) (hrest _)

/-- **The protecting loop.** -/
theorem mprotectLoop_rel (hR : Chains R)
    (hs : ∀ v ∈ l, ∀ va, Hits v start stop va → ∀ vm, R vm (vm.setprotFrom va (mprotectPte prot)))
    (vm : Vm) : R vm (mprotectLoop start stop prot l vm).2.2 := by
  induction l generalizing vm with
  | nil => exact hR.refl vm
  | cons v vs ih =>
    obtain ⟨hs1, hs2⟩ := forall_mem_cons.1 hs
    have hvs := ih hs2
    unfold mprotectLoop
    split
    · exact hvs vm
    split
    · exact hR.refl vm
    split
    · dsimp only
      split
      · refine hR.trans _ _ _ (hR.kmalloc vm) (protectPiece_rel hR (fun va h1 h2 h3 => ?_) hvs vs _)
        exact hs1 va ⟨le_of_lt (lt_of_lt_of_le ‹_› h1), h2, h1, h3⟩
      · exact hR.kmalloc vm
    · exact protectPiece_rel hR (fun va h1 h2 h3 => hs1 va ⟨h1, h2, by omega, h3⟩) hvs vs vm

/-! ## What is left of the list -/

/-- `w` lies in `v` and has its flags. -/
structure Cut (w v : Vma) : Prop where
  start : v.start ≤ w.start
  stop : w.stop ≤ v.stop
  le : v.start ≤ v.stop → w.start ≤ w.stop
  flags : w.flags = v.flags

theorem Cut.refl (v : Vma) : Cut v v := ⟨le_rfl, le_rfl, id, rfl⟩

theorem munmapLoop_pieces (hw : w ∈ (munmapLoop start stop l vm).2.1) : ∃ v ∈ l, Cut w v ∧ w.prot = v.prot := by
  fun_induction munmapLoop start stop l vm with
  | case1 => exact absurd hw not_mem_nil
  | case2 =>
    rename_i ih
    rcases mem_cons.1 hw with rfl | hw
    · exact ⟨_, mem_cons_self, .refl _, rfl⟩
    · exact exists_mem_cons_of_exists (ih hw)
  | case3 => exact ⟨w, hw, .refl w, rfl⟩
  | case4 =>
    rename_i v vs _ h1 h2 _ h3 _ _ hk
    rcases mem_cons.1 hw with rfl | hw
    · exact ⟨v, mem_cons_self, ⟨le_rfl, by change start ≤ _; omega, fun _ => h3.1.le, rfl⟩, rfl⟩
    rcases mem_cons.1 hw with rfl | hw
    · exact ⟨v, mem_cons_self, ⟨by change _ ≤ stop; omega, le_rfl, fun _ => le_of_lt h3.2, rfl⟩, rfl⟩
    · exact exists_mem_cons_of_exists ⟨w, hw, .refl w, rfl⟩
  | case5 => exact ⟨w, hw, .refl w, rfl⟩
  | case6 =>
    rename_i v vs _ h1 h2 _ h3 h4 _ ih
    rcases mem_cons.1 hw with rfl | hw
    · exact ⟨v, mem_cons_self, ⟨le_rfl, by change start ≤ _; omega, fun _ => h4.le, rfl⟩, rfl⟩
    · exact exists_mem_cons_of_exists (ih hw)
  | case7 =>
    rename_i v vs _ h1 h2 _ h3 h4 h5
    rcases mem_cons.1 hw with rfl | hw
    · exact ⟨v, mem_cons_self, ⟨by change _ ≤ stop; omega, le_rfl, fun _ => le_of_lt h5, rfl⟩, rfl⟩
    · exact exists_mem_cons_of_exists ⟨w, hw, .refl w, rfl⟩
  | case8 =>
    rename_i v vs _ h1 h2 _ h3 h4 h5 ih
    exact exists_mem_cons_of_exists (ih hw)

theorem protectPiece_cuts {vs : List Vma} (hlt : v.start < stop) (hrest : ∀ vm, ∀ w ∈ (rest vm).2.1, ∃ u ∈ vs, Cut w u)
    (hw : w ∈ (protectPiece stop prot v vs vm rest).2.1) : Cut w v ∨ ∃ u ∈ vs, Cut w u := by
  unfold protectPiece at hw
  split at hw
  · rename_i h1
    dsimp only at hw
    split at hw
    · rcases mem_cons.1 hw with rfl | hw
      · exact .inl ⟨le_rfl, le_of_lt h1, fun _ => hlt.le, rfl⟩
      rcases mem_cons.1 hw with rfl | hw
      · exact .inl ⟨hlt.le, le_rfl, fun _ => le_of_lt h1, rfl⟩
      · exact .inr ⟨w, hw, .refl w⟩
    · rcases mem_cons.1 hw with rfl | hw
      · exact .inl (.refl _)
      · exact .inr ⟨w, hw, .refl w⟩
  · rcases mem_cons.1 hw with rfl | hw
    · exact .inl ⟨le_rfl, le_rfl, id, rfl⟩
    · exact .inr (hrest _ w hw)

theorem mprotectLoop_cuts (hlt : start < stop) : ∀ w ∈ (mprotectLoop start stop prot l vm).2.1, ∃ v ∈ l, Cut w v := by
  induction l generalizing vm with
  | nil => exact fun w hw => absurd hw not_mem_nil
  | cons v vs ih =>
    intro w hw
    unfold mprotectLoop at hw
    split at hw
    · rcases mem_cons.1 hw with rfl | hw
      · exact ⟨_, mem_cons_self, .refl _⟩
      · exact exists_mem_cons_of_exists (ih w hw)
    split at hw
    · exact ⟨w, hw, .refl w⟩
    rename_i h1 h2
    split at hw
    · rename_i h3
      dsimp only at hw
      split at hw
      · rcases mem_cons.1 hw with rfl | hw
        · exact ⟨v, mem_cons_self, ⟨le_rfl, by change start ≤ _; omega, fun _ => h3.le, rfl⟩⟩
        · rcases protectPiece_cuts (v := { v with start := start }) hlt (fun vm => ih) hw with hc | hc
          · exact ⟨v, mem_cons_self, ⟨h3.le.trans hc.start, hc.stop, fun _ => hc.le (by
              change start ≤ v.stop; omega), hc.flags⟩⟩
          · exact exists_mem_cons_of_exists hc
      · exact ⟨w, hw, .refl w⟩
    · rcases protectPiece_cuts (by omega) (fun vm => ih) hw with hc | hc
      · exact ⟨v, mem_cons_self, hc⟩
      · exact exists_mem_cons_of_exists hc

end NeoOS
