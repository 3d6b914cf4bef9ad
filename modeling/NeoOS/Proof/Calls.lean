import NeoOS.Spec.Vma

/-!
# The outcomes of the mapping calls and of faults

One inductive type for each call says how it can end, with the checks that were
passed on the way; the proofs about calls split into these cases.
-/

namespace NeoOS

/-- **How `vma_mmap_locked` ends**: refused, at the fixed address after unmapping, or
at the cursor. -/
inductive MmapEnd (k : Kernel) (p : Proc) (addr len prot flags : ℕ) : Result ℕ → Prop
  | refused (err : Errno) : MmapEnd k p addr len prot flags ⟨k, p, .error err⟩
  | fixed (hlen : len ≠ 0) (hwx : (protWrite prot && protExec prot) = false)
      (hf : mapFixed flags) (ha : addr % 4096 = 0) :
      MmapEnd k p addr len prot flags (mmapInsert (vmaMunmap k p addr (pageUp len)).k
        (vmaMunmap k p addr (pageUp len)).p addr (pageUp len) prot flags)
  | cursor (hlen : len ≠ 0) (hwx : (protWrite prot && protExec prot) = false)
      (hf : mapFixed flags = false) (hlim : ¬ (add64 p.mmapNext (pageUp len) > mmapLimit ∨
        add64 p.mmapNext (pageUp len) < p.mmapNext)) :
      MmapEnd k p addr len prot flags (mmapInsert k
        { p with mmapNext := add64 p.mmapNext (pageUp len) } p.mmapNext (pageUp len) prot flags)

theorem vmaMmap_cases (k : Kernel) (p : Proc) (addr len prot flags : ℕ) :
    MmapEnd k p addr len prot flags (vmaMmap k p addr len prot flags) := by
  unfold vmaMmap
  split
  · exact .refused _
  rename_i hlen
  split
  · exact .refused _
  rename_i hwx
  dsimp only
  split
  · split
    · exact .refused _
    · exact .fixed hlen (Bool.not_eq_true _ ▸ hwx) ‹_› (not_not.1 ‹_›)
  · split
    · exact .refused _
    · exact .cursor hlen (Bool.not_eq_true _ ▸ hwx) (Bool.not_eq_true _ ▸ ‹¬ _›) ‹_›

/-- **How `vma_map_phys_locked` ends**: refused, without memory for the mapping, with
every page mapped, or with the pages before page `i` rolled back. -/
inductive MapPhysEnd (k : Kernel) (p : Proc) (phys len prot : ℕ) : Result ℕ → Prop
  | refused (err : Errno) : MapPhysEnd k p phys len prot ⟨k, p, .error err⟩
  | noNode {k' : Kernel} (hins : vmaInsert k p.vmas p.mmapNext (add64 p.mmapNext (pageUp len)) prot 0x41 =
      (none, k')) : MapPhysEnd k p phys len prot ⟨k', p, .error .enomem⟩
  | mapped {k' : Kernel} {vmas : List Vma} {vm : Vm} (hlen : len ≠ 0) (hx : protExec prot = false)
      (hlim : ¬ (add64 p.mmapNext (pageUp len) > mmapLimit ∨ add64 p.mmapNext (pageUp len) < p.mmapNext))
      (hins : vmaInsert k p.vmas p.mmapNext (add64 p.mmapNext (pageUp len)) prot 0x41 = (some vmas, k'))
      (hloop : mapPhysLoop p.mmapNext phys (physPte prot) (pageUp len / 4096) 0 ⟨k', p.as⟩ = (none, vm)) :
      MapPhysEnd k p phys len prot ⟨vm.k, ⟨vm.as, vmas, add64 p.mmapNext (pageUp len)⟩, .ok p.mmapNext⟩
  | rolledBack {k' : Kernel} {vmas : List Vma} {i : ℕ} {vm vm' : Vm} (hlen : len ≠ 0)
      (hx : protExec prot = false)
      (hlim : ¬ (add64 p.mmapNext (pageUp len) > mmapLimit ∨ add64 p.mmapNext (pageUp len) < p.mmapNext))
      (hins : vmaInsert k p.vmas p.mmapNext (add64 p.mmapNext (pageUp len)) prot 0x41 = (some vmas, k'))
      (hloop : mapPhysLoop p.mmapNext phys (physPte prot) (pageUp len / 4096) 0 ⟨k', p.as⟩ = (some i, vm))
      (hback : vm' = (List.range i).foldl (fun vm b => vm.unmapFrom (p.mmapNext + 4096 * b) false) vm) :
      MapPhysEnd k p phys len prot ⟨(vmaMunmap vm'.k ⟨vm'.as, vmas, add64 p.mmapNext (pageUp len)⟩ p.mmapNext (pageUp len)).k,
          (vmaMunmap vm'.k ⟨vm'.as, vmas, add64 p.mmapNext (pageUp len)⟩ p.mmapNext (pageUp len)).p,
          .error .enomem⟩

theorem vmaMapPhys_cases (k : Kernel) (p : Proc) (phys len prot : ℕ) :
    MapPhysEnd k p phys len prot (vmaMapPhys k p phys len prot) := by
  unfold vmaMapPhys
  split
  · exact .refused _
  rename_i hlen
  split
  · exact .refused _
  rename_i hx
  dsimp only
  split
  · exact .refused _
  rename_i hlim
  split
  · exact .noNode ‹_›
  · split
    · exact .mapped hlen (Bool.not_eq_true _ ▸ hx) hlim ‹_› ‹_›
    · exact .rolledBack hlen (Bool.not_eq_true _ ▸ hx) hlim ‹_› ‹_› rfl

/-- **How `vma_fault_locked` ends**: refused, without a frame, or with an attempt to map
a zeroed one, which is freed again when there is no table for it. -/
inductive FaultEnd (k : Kernel) (p : Proc) (addr : ℕ) (write : Bool) : Bool × Kernel × Proc → Prop
  | refused : FaultEnd k p addr write (false, k, p)
  | noFrame {k' : Kernel} (ha : k.alloc 0 = (none, k')) : FaultEnd k p addr write (false, k', p)
  | tried {v : Vma} {f : ℕ} {k' : Kernel} {r : Bool × Vm} (hv : vmaFind addr p.vmas = some v)
      (hprot : v.prot ≠ 0) (hw : write → protWrite v.prot) (hphys : vmaPhys v.flags = false)
      (ha : k.alloc 0 = (some f, k'))
      (hr : r = (⟨k'.zeroFrame f, p.as⟩ : Vm).mapInto (pageDown addr) f (protPte v.prot)) :
      FaultEnd k p addr write (r.1, if r.1 then r.2.k else r.2.k.free f 0, { p with as := r.2.as })

theorem vmaFault_cases (k : Kernel) (p : Proc) (addr : ℕ) (write : Bool) :
    FaultEnd k p addr write (vmaFault k p addr write) := by
  unfold vmaFault
  split
  · exact .refused
  rename_i v hv
  split
  · exact .refused
  rename_i hprot
  split
  · exact .refused
  rename_i hw
  split
  · exact .refused
  rename_i hphys
  split
  · exact .noFrame ‹_›
  · rename_i f k' ha
    have hend : FaultEnd k p addr write _ := .tried hv hprot (fun hwt => by simpa [hwt] using hw)
      (Bool.not_eq_true _ ▸ hphys) ha rfl
    dsimp only
    split <;> rename_i hr <;> simpa only [hr, if_true, Bool.false_eq_true, if_false] using hend

end NeoOS
