import NeoOS.Proof.FdHooks

/-!
# What a call does to the references and the descriptors of its process

Each call moves the references of an object by as much as it moves the slots that name it
(`Fine`), on success and on every error exit. What that takes is said with each call: what is
copied is no evdev client, what is copied or closed does not name the object if that is a device's
vnode, and `/dev/ptmx` finds a pty.
-/

namespace NeoOS.Fd

open List Option
open Function (update update_apply)
open Objects (refs)

variable {F : Files} {o o' : Objects} {t t' : Table} {f : FileDescriptor} {x y : Obj} {r : Objects × Table} {fd a n d v : ℕ}
  {mem w : Bool} {ops : Ops} {priv : Option ℕ}

/-! ## Calls -/

/-- What a call starts from. -/
structure Ready (F : Files) (o : Objects) (t : Table) : Prop where
  sane : Sane o
  ok : ∀ f ∈ t.inUse, DescOK F f
  held : ∀ y, F.isDevice y = false → (t.held y : ℤ) ≤ o.refs y

/-- What a call on one table leaves: the references of `x` have moved with the slots. -/
structure Fine (F : Files) (x : Obj) (o : Objects) (t : Table) (r : Objects × Table) : Prop where
  sane : Sane r.1
  ok : ∀ f ∈ r.2.inUse, DescOK F f
  refs : r.1.refs x + t.held x = o.refs x + r.2.held x

theorem countP_single (f : FileDescriptor) (x : Obj) : [f].countP (·.names x) = (f.names x).toNat := by
  cases h : f.names x <;> simp [h]

theorem fresh_names (x : Obj) : FileDescriptor.fresh.names x = false := by cases x <;> rfl

theorem descOK_fresh : DescOK F .fresh := fun _ hv => nomatch hv

section

variable (h : Ready F o t)
include h

theorem Ready.fine {out new : List FileDescriptor} (hs : Sane r.1)
    (hsw : Swap t r.2 out new) (hnew : ∀ f ∈ new, DescOK F f)
    (hr : r.1.refs x + out.countP (·.names x) = o.refs x + new.countP (·.names x)) : Fine F x o t r where
  sane := hs
  ok f hf := (hsw.mem_or hf).elim (h.ok f) (hnew f)
  refs := by
    have := hsw.held x
    omega

theorem Ready.same : Fine F x o t (o, t) := h.fine h.sane (.refl t) (by simp) rfl

/-- A descriptor in use has a reference of everything it names but a device's vnode. -/
theorem Ready.pos (hf : f ∈ t.inUse) (hx : F.isDevice x = false) (hn : f.names x) : 0 < o.refs x := by
  have h1 : 0 < t.held x := countP_pos_iff.mpr ⟨f, hf, hn⟩
  have h2 := h.held x hx
  omega

theorem Ready.pos' (hf : f ∈ t.inUse) (hdev : F.isDevice x → f.names x = false)
    (hn : f.names x) : 0 < o.refs x := by
  refine h.pos hf ?_ hn
  cases hd : F.isDevice x with
  | false => rfl
  | true => rw [hdev hd] at hn; cases hn

theorem sysClose_fine (fd : ℤ) (hdev : ∀ f, t.get fd = some f → F.isDevice x → f.names x = false) :
    Fine F x o t (sysClose o t fd).2 := by
  unfold sysClose
  split
  · exact h.same
  next f hg =>
    obtain ⟨n, rfl, hn, rfl, hu⟩ := get_some hg
    obtain ⟨ho, hsw⟩ := close_spec o hn hu
    have hm := mem_inUse hn hu
    have hr := fileClose_refs h.sane (h.ok _ hm) (hdev _ hg) (h.pos' hm (hdev _ hg))
    rw [Int.toNat_natCast]
    refine h.fine (ho ▸ h.sane.close _) hsw (by simp) ?_
    rw [ho, hr, countP_single]
    simp

theorem dup2_refs {src : FileDescriptor} (old : FileDescriptor) (hsrc : src ∈ t.inUse)
    (hold : old.inUse → old ∈ t.inUse) (hev : src.ops ≠ .evdev)
    (hdev : F.isDevice x → src.names x = false ∧ (old.inUse → old.names x = false)) :
    Sane (if old.inUse then fileClose (fileDup o src) old else fileDup o src) ∧
    (if old.inUse then fileClose (fileDup o src) old else fileDup o src).refs x + (one old).countP (·.names x) =
      o.refs x + (src.names x).toNat := by
  have hd := fileDup_refs (h.ok src hsrc) (fun hx => (hdev hx).1) hev (h.pos' hsrc fun hx => (hdev hx).1)
  have hs : Sane (fileDup o src) := h.sane.dup src fun n hn =>
    hn.imp (h.pos hsrc rfl) (h.pos hsrc rfl)
  cases hu : old.inUse with
  | false => rw [one_of_not hu]; simpa using ⟨hs, hd⟩
  | true =>
    have hc := fileClose_refs hs (h.ok old (hold hu)) (fun hx => (hdev hx).2 hu) fun hn => by
      have := h.pos' (hold hu) (fun hx => (hdev hx).2 hu) hn
      omega
    rw [one_of_inUse hu, countP_single]
    simp only [if_true]
    exact ⟨hs.close old, by rw [hc, hd]; omega⟩

theorem dup2_fine (oldfd newfd : ℤ) (mem : Bool)
    (hev : oldfd ≠ newfd → ∀ f, t.get oldfd = some f → f.ops ≠ .evdev) (hdev : oldfd ≠ newfd → F.isDevice x →
      (∀ f, t.get oldfd = some f → f.names x = false) ∧ ∀ f, t.get newfd = some f → f.names x = false) :
    Fine F x o t (fdTableDup2 o t oldfd newfd mem).2 := by
  have hspec := dup2_spec o t oldfd newfd mem
  generalize fdTableDup2 o t oldfd newfd mem = r at hspec ⊢
  cases hspec with
  | error e hsw hd | same hsw => exact h.fine h.sane hsw (by simp) rfl
  | @copied src old t' hne hsrc hold hlt hpos hsw =>
    obtain ⟨n, hn, hnlt, hdesc, hu⟩ := get_some hsrc
    have hm : src ∈ t.inUse := hdesc ▸ mem_inUse hnlt (hdesc.symm ▸ hu)
    have hget : old.inUse → t.get newfd = some old := fun hou => by
      rw [Table.get, if_neg (by omega), ← hold, if_pos hou]
    obtain ⟨hs, hr⟩ := dup2_refs (x := x) h old hm (fun hou => by
      rw [hold] at hou ⊢; exact mem_inUse hlt hou) (hev hne src hsrc)
      fun hx => ⟨(hdev hne hx).1 src hsrc, fun hou => (hdev hne hx).2 old (hget hou)⟩
    refine h.fine hs hsw (by simpa using h.ok src hm) ?_
    rw [countP_single]
    exact hr

theorem Ready.alloc (ha : Allocated t fd t') : Ready F o t' where
  sane := h.sane
  ok f hf := (ha.swap.mem_or hf).elim (h.ok f) fun hm => by
    rw [mem_singleton.mp hm]; exact descOK_fresh
  held y hy := by
    have := ha.swap.held y
    rw [countP_single, fresh_names] at this
    have := h.held y hy
    simp at *
    omega

end

theorem Allocated.held (ha : Allocated t fd t') (x : Obj) : t'.held x = t.held x := by
  have := ha.swap.held x
  rw [countP_single, fresh_names] at this
  simpa using this

theorem Ready.handBack {t1 : Table} (h : Ready F o t) (ha : Allocated t fd t1) (hsw : Swap t1 t' [] [])
    (hd : t'.desc fd = t1.desc fd) (hs : Sane o') (hr : o'.refs x = o.refs x) : Fine F x o t (fdTableClose o' t' fd) := by
  have hd := hd.trans ha.self
  obtain ⟨ho, hcl⟩ := close_spec o' ha.lt (by rw [hd]; rfl)
  rw [hd] at ho hcl
  have ho : _ = o' := ho
  refine h.fine ?_ ((ha.swap.trans hsw).trans hcl).cancel (by simp) ?_
  · rw [ho]; exact hs
  · rw [ho, hr]; rfl

theorem Allocated.fill (ha : Allocated t fd t') (hf : f.inUse) : Swap t (t'.fill fd f) [] [f] := by
  have hsw := swap_fill ha.lt (by rw [ha.self]; rfl) hf
  rw [ha.self] at hsw
  exact (ha.swap.trans hsw).cancel

theorem dupFrom_fine (h : Ready F o t) (oldfd : ℤ) (start : ℕ) (room mem : Bool)
    (hev : ∀ f, t.get oldfd = some f → f.ops ≠ .evdev)
    (hdev : F.isDevice x → ∀ f, t.get oldfd = some f → f.names x = false) :
    Fine F x o t (dupFrom o t oldfd start room mem).2 := by
  unfold dupFrom
  split
  · exact h.same
  next f hg =>
    have ha := alloc_spec t start room
    generalize fdTableAllocFrom t start room = a at ha ⊢
    rcases a with ⟨e | nf, t1⟩
    · exact h.fine h.sane ha.1 (by simp) rfl
    · have ha : Allocated t nf t1 := ha
      dsimp only
      -- the source is another slot than the reserved one
      have hget : ∀ g, t1.get oldfd = some g → oldfd ≠ nf → t.get oldfd = some g := by
        intro g hg1 hne
        obtain ⟨n, rfl, hn, hdn, hu⟩ := get_some hg1
        rw [ha.desc, if_neg (by omega)] at hdn
        rw [Table.get, if_neg (by omega), Int.toNat_natCast, hdn, if_pos hu]
      have hnew : ∀ g, t1.get nf = some g → g = .fresh := by
        intro g hg1
        obtain ⟨n, hn, -, hdn, -⟩ := get_some hg1
        rw [← hdn, ← Int.natCast_inj.mp hn, ha.self]
      have hf := dup2_fine (x := x) (h.alloc ha) oldfd nf mem (fun hne g hg1 => hev g (hget g hg1 hne))
        fun hne hx => ⟨fun g hg1 => hdev hx g (hget g hg1 hne), fun g hg1 => by rw [hnew g hg1, fresh_names]⟩
      have hspec := dup2_spec o t1 oldfd nf mem
      generalize fdTableDup2 o t1 oldfd nf mem = r at hf hspec ⊢
      cases hspec with
      | error e hsw hd => exact h.handBack ha hsw (hd nf) h.sane rfl
      | same | copied => exact ⟨hf.sane, hf.ok, by rw [← ha.held x]; exact hf.refs⟩

/-! ## New pipes and sockets -/

theorem Sane.addPipe (h : Sane o) : Sane { o with pipes := update o.pipes o.heap (some newPipe), heap := o.heap + 1 } := by
  refine h.setPipe (Nat.le_succ _) (fun p hp => ?_) (absurd · (Nat.not_succ_le_self _))
  cases hp
  exact ⟨by decide, rfl⟩

theorem Sane.addSocket (h : Sane o) : Sane { o with sockets := update o.sockets o.heap (some 1), heap := o.heap + 1 } := by
  refine h.setSocket (Nat.le_succ _) (fun r hr => ?_) (absurd · (Nat.not_succ_le_self _))
  cases hr
  decide

theorem refs_addPipe (h : Sane o) (x : Obj) :
    refs { o with pipes := update o.pipes o.heap (some newPipe), heap := o.heap + 1 } x =
      o.refs x + if x = .pipe o.heap then 2 else 0 := by
  cases x with
  | pipe a =>
    by_cases ha : a = o.heap
    · subst ha
      simp [refs, h.freshPipe _ le_rfl, newPipe]
    · simp [refs, ha]
  | _ => simp [refs]

theorem refs_addSocket (h : Sane o) (x : Obj) :
    refs { o with sockets := update o.sockets o.heap (some 1), heap := o.heap + 1 } x =
      o.refs x + if x = .socket o.heap then 1 else 0 := by
  cases x with
  | socket a =>
    by_cases ha : a = o.heap
    · subst ha
      simp [refs, h.freshSocket _ le_rfl]
    · simp [refs, ha]
  | _ => simp [refs]

theorem names_own (hv : f.vn = none) (hp : f.priv = some a) (hy : f.ops.obj a = some y) (x : Obj) :
    f.names x = decide (x = y) := by
  rw [names_eq, hv, hp, bind_some, hy]
  simp [eq_comm]

theorem descOK_of_none (h : f.vn = none) : DescOK F f := fun v hv => by rw [h] at hv; cases hv

theorem socketCreate_fine (h : Ready F o t) (mem tcb room : Bool) : Fine F x o t (socketCreate o t mem tcb room).2 := by
  unfold socketCreate
  split
  · exact h.same
  split
  · exact h.same
  have ha := alloc_spec t 0 room
  generalize fdTableAllocFrom t 0 room = a at ha ⊢
  rcases a with ⟨e | fd, t1⟩
  · exact h.fine h.sane ha.1 (by simp) rfl
  have ha : Allocated t fd t1 := ha
  dsimp only
  rw [ha.self]
  refine h.fine h.sane.addSocket (ha.fill rfl) (fun g hg => ?_) ?_
  · rw [mem_singleton.mp hg]; exact descOK_of_none rfl
  · rw [refs_addSocket h.sane, countP_single, names_own rfl rfl rfl]
    by_cases hx : x = .socket o.heap <;> simp [hx]

theorem pipeCreate_fine (h : Ready F o t) (mem room room' : Bool) : Fine F x o t (pipeCreate o t mem room room').2 := by
  unfold pipeCreate
  split
  · exact h.same
  have ha := alloc_spec t 0 room
  generalize fdTableAllocFrom t 0 room = a at ha ⊢
  rcases a with ⟨e | rfd, t1⟩
  · exact h.fine h.sane ha.1 (by simp) rfl
  have ha : Allocated t rfd t1 := ha
  dsimp only
  have hb := alloc_spec t1 0 room'
  generalize fdTableAllocFrom t1 0 room' = b at hb ⊢
  rcases b with ⟨e | wfd, t2⟩
  · -- the slot of the read end is handed back
    exact h.handBack ha hb.1 (hb.2 rfd) h.sane rfl
  have hb : Allocated t1 wfd t2 := hb
  dsimp only
  have hne : wfd ≠ rfd := by
    rintro rfl
    have := hb.free
    rw [ha.self] at this
    cases this
  have hr : t2.desc rfd = .fresh := by rw [hb.desc, if_neg (Ne.symm hne), ha.self]
  have hw := hb.self
  rw [hr, hw]
  have h1 := swap_fill (f := ⟨true, .pipe, some o.heap, none, false, true⟩) ha.lt (by rw [hr]; rfl) rfl
  have hd : (t2.fill rfd ⟨true, .pipe, some o.heap, none, false, true⟩).desc wfd = .fresh := by
    rw [desc_fill (by rw [hr]; rfl), if_neg hne, hw]
  have h2 := swap_fill (f := ⟨true, .pipe, some o.heap, none, true, false⟩) hb.lt (by rw [hd]; rfl) rfl
  rw [hr] at h1
  rw [hd] at h2
  have hsw : Swap t _ [] [_, _] := ((ha.swap.trans hb.swap).trans (h1.trans h2)).cancel.cancel
  refine h.fine h.sane.addPipe hsw (fun g hg => ?_) ?_
  · rcases mem_pair.mp hg with rfl | rfl <;> exact descOK_of_none rfl
  · rw [refs_addPipe h.sane, countP_cons, countP_cons, names_own rfl rfl rfl, names_own rfl rfl rfl]
    by_cases hx : x = .pipe o.heap <;> simp [hx]

/-! ## Opening files -/

/-- `/dev/ptmx` finds what it needs: memory and a pty that is not in use. -/
def PtyFree (o : Objects) (mem : Bool) : Prop :=
  mem = true ∧ ∃ n ∈ List.range ptyMax, (o.ptys n).all (!·.used)

instance (o : Objects) (mem : Bool) : Decidable (PtyFree o mem) := inferInstanceAs (Decidable (_ ∧ _))

theorem vnodePut_ptys (o : Objects) (v : ℕ) : (o.vnodePut v).ptys = o.ptys := by
  unfold Objects.vnodePut
  split <;> rfl

/-- What the lookups of `sys_open` do: a reference of the vnode found is the caller's. -/
inductive LookupOK (o : Objects) (l : Lookup) : Except Err ℕ × Objects → Prop
  | error (e : Err) {o' : Objects} (hs : Sane o') (hr : ∀ x, o'.refs x = o.refs x) : LookupOK o l (.error e, o')
  | found {v : ℕ} {o' : Objects} (hv : l.file = some v ∨ l.made = some v) (hs : Sane o') (hp : o'.ptys = o.ptys)
      (hr : ∀ x, o'.refs x = o.refs x + if x = .vnode v then 1 else 0) : LookupOK o l (.ok v, o')

theorem refs_get_put (o : Objects) (v : ℕ) (x : Obj) : ((o.vnodeGet v).vnodePut v).refs x = o.refs x := by
  rw [refs_vnodePut, refs_vnodeGet]
  · omega
  · rintro rfl
    rw [refs_vnodeGet, if_pos rfl]
    simp only [refs]
    omega

theorem refs_get_get_put (o : Objects) (dir v : ℕ) (x : Obj) :
    (((o.vnodeGet dir).vnodeGet v).vnodePut dir).refs x = o.refs x + if x = .vnode v then 1 else 0 := by
  rw [refs_vnodePut, refs_vnodeGet, refs_vnodeGet]
  · omega
  · rintro rfl
    rw [refs_vnodeGet, refs_vnodeGet, if_pos rfl]
    simp only [refs]
    split <;> omega

theorem lookup_spec (h : Sane o) (l : Lookup) (creat : Bool) : LookupOK o l (lookup o l creat) := by
  unfold lookup
  split
  next v hv => exact .found (.inl hv) (h.vnodeGet v) rfl (refs_vnodeGet o v)
  next =>
    split
    · exact .error _ h fun _ => rfl
    · split
      · exact .error _ h fun _ => rfl
      next dir hd =>
        split
        · exact .error _ ((h.vnodeGet dir).vnodePut dir) (refs_get_put o dir)
        · split
          · exact .error _ ((h.vnodeGet dir).vnodePut dir) (refs_get_put o dir)
          next v hv =>
            exact .found (.inr hv) (((h.vnodeGet dir).vnodeGet v).vnodePut dir) (vnodePut_ptys _ dir)
              (refs_get_get_put o dir v)

/-- A pty that is not in use has no references and no `/dev/pts` entry. -/
theorem Sane.unused (h : Sane o) (hn : (o.ptys n).all (!·.used)) :
    o.refs (.ptm n) = 0 ∧ o.refs (.pts n) = 0 ∧ ∀ d, o.dyn d ≠ some n := by
  cases hp : o.ptys n with
  | none =>
    refine ⟨by simp [refs, hp], by simp [refs, hp], fun d hd => ?_⟩
    have := (h.dyn d n hd).2.2
    rw [hp] at this
    cases this
  | some p =>
    have hu : p.used = false := by simpa [hp] using hn
    have h0 : p.masterRefs + p.slaveRefs = 0 := by
      by_contra hne
      have := (h.ptys n p hp).mpr (Nat.pos_of_ne_zero hne)
      rw [hu] at this
      cases this
    refine ⟨?_, ?_, fun d hd => ?_⟩
    · simp only [refs, hp, elim_some]; omega
    · simp only [refs, hp, elim_some]; omega
    · have := (h.dyn d n hd).2.2
      rw [hp, any_some, hu] at this
      cases this

theorem claimPty_ok (h : o.claimPty mem = .ok n) : n < ptyMax ∧ (o.ptys n).all (!·.used) := by
  unfold Objects.claimPty at h
  split at h
  next hm =>
    cases h
    refine ⟨mem_range.mp (mem_of_find?_eq_some hm), ?_⟩
    have := find?_some hm
    cases hp : o.ptys n with
    | none => rfl
    | some p => simpa [hp] using this
  next =>
    split at h
    · cases h
    next m hm =>
      split at h
      · cases h
        refine ⟨mem_range.mp (mem_of_find?_eq_some hm), ?_⟩
        have := find?_some hm
        rw [isNone_iff_eq_none.mp this]
        rfl
      · cases h

theorem claimPty_of_free (h : PtyFree o mem) : ∃ n, o.claimPty mem = .ok n := by
  obtain ⟨hmem, n, hn, hun⟩ := h
  unfold Objects.claimPty
  split
  next m hm => exact ⟨m, rfl⟩
  next hnone =>
    -- every pty that has been built is in use, so this one has not been
    have hp : o.ptys n = none := by
      cases hp : o.ptys n with
      | none => rfl
      | some p =>
        have := find?_eq_none.mp hnone n hn
        rw [hp] at this hun
        exact absurd hun this
    split
    next hno =>
      have := find?_eq_none.mp hno n hn
      rw [hp] at this
      exact absurd rfl this
    next m hm => exact ⟨m, by rw [hmem]; rfl⟩

theorem devfsRegister_ok (h : o.devfsRegister n = .ok o') :
    ∃ d < devfsDynMax, o.dyn d = none ∧ o' = { o with dyn := update o.dyn d (some n) } := by
  unfold Objects.devfsRegister at h
  split at h
  · cases h
  · split at h
    · cases h
    next d hd =>
      cases h
      have := find?_some hd
      exact ⟨d, mem_range.mp (mem_of_find?_eq_some hd), isNone_iff_eq_none.mp this, rfl⟩

theorem Sane.register (h : Sane o) (hn : n < ptyMax) (hno : ∀ d, o.dyn d ≠ some n) : ∃ o', o.devfsRegister n = .ok o' := by
  unfold Objects.devfsRegister
  rw [if_neg (by simpa using fun d _ => hno d)]
  split
  next hnone =>
    -- all slots taken would be as many ptys as there are, without `n`
    have hfull : ∀ d ∈ Finset.range devfsDynMax, ∃ m, o.dyn d = some m := by
      intro d hd
      have := find?_eq_none.mp hnone d (mem_range.mpr (Finset.mem_range.mp hd))
      cases hm : o.dyn d with
      | none => rw [hm] at this; exact absurd rfl this
      | some m => exact ⟨m, rfl⟩
    have hcard := Finset.card_le_card_of_injOn (s := Finset.range devfsDynMax) (t := (Finset.range ptyMax).erase n)
      (fun d => (o.dyn d).getD 0) (fun d hd => ?_) fun d hd d' hd' he => ?_
    · rw [Finset.card_erase_of_mem (Finset.mem_range.mpr hn), Finset.card_range, Finset.card_range] at hcard
      exact absurd hcard (by decide)
    · obtain ⟨m, hm⟩ := hfull d hd
      simp only [hm, getD_some, Finset.coe_erase, Set.mem_sdiff, Finset.mem_coe, Finset.mem_range, Set.mem_singleton_iff]
      exact ⟨(h.dyn d m hm).2.1, fun hmn => hno d (hmn ▸ hm)⟩
    · obtain ⟨m, hm⟩ := hfull d hd
      obtain ⟨m', hm'⟩ := hfull d' hd'
      simp only [hm, hm', getD_some] at he
      exact h.inj d d' m hm (he ▸ hm')
  next d hd => exact ⟨_, rfl⟩

theorem Sane.enter (h : Sane o) (hd : d < devfsDynMax) (hn : n < ptyMax)
    (hu : (o.ptys n).any (·.used)) (hno : ∀ d, o.dyn d ≠ some n) :
    Sane { o with dyn := update o.dyn d (some n) } :=
  { h with
    dyn := Update.forall_some h.dyn fun m hm => by cases hm; exact ⟨hd, hn, hu⟩
    inj := fun d1 d2 m h1 h2 => by
      simp only [update_apply] at h1 h2
      split at h1 <;> split at h2
      · omega
      · cases h1; exact absurd h2 (hno d2)
      · cases h2; exact absurd h1 (hno d1)
      · exact h.inj d1 d2 m h1 h2 }

theorem Sane.addClient (h : Sane o) : Sane { o with clients := update o.clients o.heap (some 1), heap := o.heap + 1 } :=
  h.setClient (Nat.le_succ _) (fun n hn => by cases hn; rfl) (absurd · (Nat.not_succ_le_self _))

/-- What binding a vnode's operations does to a descriptor of `v`. -/
inductive BindOK (F : Files) (o : Objects) (v : ℕ) (mem : Bool) : Except Err Unit × Objects × FileDescriptor → Prop
  | ok {o' : Objects} {f : FileDescriptor} (hs : Sane o') (hu : f.inUse) (hf : DescOK F f)
      (hr : ∀ x, o'.refs x + (if x = .vnode v then 1 else 0) = o.refs x + (f.names x).toNat) :
      BindOK F o v mem (.ok (), o', f)
  | error (e : Err) {o' : Objects} {f : FileDescriptor} (hs : Sane o') (hu : f.inUse)
      (hr : ∀ x, o'.refs x = o.refs x) (hn : ∀ x, x ≠ .vnode v → f.names x = false)
      (hop : f.ops = .vnode → F.typ v = .device .ptmx ∧ ¬ PtyFree o mem) : BindOK F o v mem (.error e, o', f)

/-- The descriptor a vnode's operations are bound to. -/
def boundTo (v : ℕ) (ops : Ops) (priv : Option ℕ) (w : Bool) : FileDescriptor := ⟨true, ops, priv, some v, w, true⟩

theorem names_boundTo (v : ℕ) (ops : Ops) (priv : Option ℕ) (w : Bool) (x : Obj) :
    (boundTo v ops priv w).names x = (decide (x = .vnode v) || decide (priv.bind ops.obj = some x)) := by
  rw [names_eq]
  simp [boundTo, eq_comm]

theorem descOK_boundTo (h : ops = .vnode ↔ F.isDevice (.vnode v) = false) : DescOK F (boundTo v ops priv w) := by
  intro u hu
  cases hu
  exact h

theorem isDevice_of_typ {d : Dev} (h : F.typ v = .device d) : F.isDevice (.vnode v) := by
  simp [Files.isDevice, h]

/-- A file without an open hook, or with one that keeps nothing for the descriptor. -/
theorem bind_plain (h : Sane o) (hops : ops = .vnode ↔ F.isDevice (.vnode v) = false) (hobj : priv.bind ops.obj = none) :
    BindOK F o v mem (.ok (), o, boundTo v ops priv w) := by
  refine .ok h rfl (descOK_boundTo hops) fun x => ?_
  rw [names_boundTo, hobj]
  by_cases hx : x = .vnode v <;> simp [hx]

theorem bind_failed (e : Err) (h : Sane o) (hops : ops ≠ .vnode) : BindOK F o v mem (.error e, o, boundTo v ops none w) :=
  .error e h rfl (fun _ => rfl) (fun x hx => by rw [names_boundTo]; simp [hx]) fun hop => absurd hop hops

/-- The hooks that keep an object for the descriptor: it has one reference more. -/
theorem bind_own {d : Dev} (h : Sane o') (hd : F.typ v = .device d) (hy : ops.obj a = some y) (hyv : ∀ u, y ≠ .vnode u)
    (hr : ∀ x, o'.refs x = o.refs x + if x = y then 1 else 0) :
    BindOK F o v mem (.ok (), o', boundTo v ops (some a) w) := by
  have hops : ops ≠ .vnode := by rintro rfl; cases hy
  refine .ok h rfl (descOK_boundTo (by simp [hops, isDevice_of_typ hd])) fun x => ?_
  rw [hr, names_boundTo, bind_some, hy]
  by_cases hx : x = y
  · simp [hx, hyv v]
  · have hyx : y ≠ x := fun e => hx e.symm
    by_cases hxv : x = .vnode v
    · subst hxv; simp [hx, hyx]
    · simp [hx, hxv, hyx]

theorem evdev_bind (h : Sane o) (hd : F.typ v = .device .event0) :
    BindOK F o v mem (evdevOpen o (boundTo v .evdev none w) mem) := by
  unfold evdevOpen
  split
  · refine bind_own h.addClient hd (y := .client o.heap) rfl (by simp) fun x => ?_
    cases x with
    | client a =>
      by_cases ha : a = o.heap
      · subst ha; simp [refs, h.freshClient _ le_rfl]
      · simp [refs, ha]
    | _ => simp [refs]
  · exact bind_failed _ h (by simp)

theorem ptmx_bind (h : Sane o) (hd : F.typ v = .device .ptmx) :
    BindOK F o v mem (ptmxOpen o (boundTo v .vnode none w) mem) := by
  unfold ptmxOpen
  split
  next e he =>
    refine .error e h rfl (fun _ => rfl) (fun x hx => by rw [names_boundTo]; simp [hx]) fun _ => ⟨hd, fun hp => ?_⟩
    obtain ⟨n, hn⟩ := claimPty_of_free hp
    rw [he] at hn
    cases hn
  next n hn =>
    obtain ⟨hlt, hun⟩ := claimPty_ok hn
    obtain ⟨hm0, hs0, hdyn⟩ := h.unused hun
    have hset : Sane (o.setPty n ⟨true, 1, 0⟩) := h.setPty (by simp) (by simp)
    dsimp only
    split
    next e he =>
      obtain ⟨o', ho'⟩ := hset.register hlt hdyn
      rw [he] at ho'
      cases ho'
    next o' ho' =>
      obtain ⟨d, hdlt, -, rfl⟩ := devfsRegister_ok ho'
      refine bind_own (hset.enter hdlt hlt (by simp [Objects.setPty]) hdyn) hd (y := .ptm n) rfl (by simp) fun x => ?_
      have hx : refs { o.setPty n ⟨true, 1, 0⟩ with dyn := update (o.setPty n ⟨true, 1, 0⟩).dyn d (some n) } x =
          (o.setPty n ⟨true, 1, 0⟩).refs x := by cases x <;> rfl
      rw [hx, refs_setPty]
      split
      next hx => subst hx; rw [hm0]; rfl
      next =>
        split
        next hx => subst hx; rw [hs0]; rfl
        next => omega

theorem pts_bind (h : Sane o) (hd : F.typ v = .device (.pts d)) (hn : o.dyn d = some n) :
    BindOK F o v mem ((ptsOpen o n).1, (ptsOpen o n).2, boundTo v .pts (some n) w) := by
  have hu := (h.dyn d n hn).2.2
  unfold ptsOpen
  split
  next hp => rw [hp] at hu; cases hu
  next p hp =>
    have hpu : p.used := by simpa [hp] using hu
    rw [if_pos hpu]
    refine bind_own (h.setPty ?_ ?_) hd (y := .pts n) rfl (by simp) fun x => ?_
    · simp only [hpu, true_iff]; omega
    · simp [hpu]
    · rw [refs_setPty]
      split
      next hx => subst hx; simp [refs, hp]
      next =>
        split
        next hx => subst hx; simp [refs, hp]
        next => omega

theorem bind_spec (h : Sane o) (v : ℕ) (mem ready w : Bool) :
    BindOK F o v mem (fileBindVnodeOps F o { FileDescriptor.fresh with vn := some v, writable := w } mem ready) := by
  unfold fileBindVnodeOps
  cases hv : F.typ v with
  | device d =>
    simp only [map_some, hv]
    have hdev := isDevice_of_typ hv
    cases d with
    | event0 => exact evdev_bind h hv
    | ptmx => exact ptmx_bind h hv
    | pts d =>
      simp only [devOpen]
      split
      · exact bind_failed _ h (by simp [Dev.fops])
      next n hn => exact pts_bind h hv hn
    | ctty | fb0 =>
      simp only [devOpen]
      split
      · exact bind_plain h (by simp [Dev.fops, hdev]) rfl
      · exact bind_failed _ h (by simp [Dev.fops])
    | _ => exact bind_plain h (by simp [Dev.fops, hdev]) rfl
  | _ =>
    simp only [map_some, hv]
    exact bind_plain h (by simp [Files.isDevice, hv]) rfl

theorem fileClose_vnode (o : Objects) (h : f.ops ≠ .vnode) (v : ℕ) : (fileClose o f).refs (.vnode v) = o.refs (.vnode v) := by
  have heq : fileClose o f = fileClose o { f with vn := none } := by
    rcases f with ⟨u, ops, priv, vn, w, r⟩
    cases ops with
    | vnode => exact absurd rfl h
    | _ => rfl
  rw [heq]
  exact fileClose_frame o rfl

/-- The descriptor of a failed open is closed without any effect, `/dev/ptmx` apart. -/
theorem close_failed {p : Objects} (hn : ∀ x, x ≠ .vnode v → f.names x = false)
    (hop : f.ops = .vnode → F.typ v = .device .ptmx ∧ ¬ PtyFree p mem)
    (hpty : F.typ v = .device .ptmx → PtyFree p mem) (o : Objects) (x : Obj) :
    (fileClose o f).refs x = o.refs x := by
  by_cases hx : x = .vnode v
  · subst hx
    exact fileClose_vnode o (fun h => (hop h).2 (hpty (hop h).1)) v
  · exact fileClose_frame o (hn x hx)

theorem sysOpen_fine (h : Ready F o t) (l : Lookup) (creat write room mem ready : Bool)
    (hpty : ∀ v, l.file = some v ∨ l.made = some v → F.typ v = .device .ptmx → PtyFree o mem) :
    Fine F x o t (sysOpen F o t l creat write room mem ready).2 := by
  unfold sysOpen
  have ha := alloc_spec t 0 room
  generalize fdTableAllocFrom t 0 room = a at ha ⊢
  rcases a with ⟨e | fd, t1⟩
  · exact h.fine h.sane ha.1 (by simp) rfl
  have ha : Allocated t fd t1 := ha
  have hl := lookup_spec h.sane l creat
  generalize lookup o l creat = lk at hl ⊢
  cases hl with
  | error e hs hr => exact h.handBack ha (.refl t1) rfl hs (hr x)
  | @found v o1 hv hs hp hr =>
    -- giving back the reference of the lookup
    have hput : ∀ {o2 : Objects}, (∀ x, o2.refs x = o1.refs x) → ∀ x, (o2.vnodePut v).refs x = o.refs x := by
      intro o2 ho2 x
      rw [refs_vnodePut, ho2, hr]
      · omega
      · rintro rfl
        rw [ho2, hr, if_pos rfl]
        simp only [refs]
        omega
    dsimp only
    split
    · exact h.handBack ha (.refl t1) rfl (hs.vnodePut v) (hput (fun _ => rfl) x)
    · rw [ha.self]
      have hb : BindOK F o1 v mem (fileBindVnodeOps F o1
          { FileDescriptor.fresh with vn := some v, writable := write, readable := true } mem ready) :=
        bind_spec hs v mem ready write
      have hu : (t1.desc fd).inUse := by rw [ha.self]; rfl
      generalize fileBindVnodeOps F o1 _ mem ready = r at hb ⊢
      cases hb with
      | @ok o2 g hs2 hg hgok hr2 =>
        refine h.fine hs2 (ha.fill hg) (fun f hf => ?_) ?_
        · rw [mem_singleton.mp hf]; exact hgok
        · rw [countP_single]
          have h1 := hr2 x
          have h2 := hr x
          simp only [countP_nil]
          omega
      | @error e o2 g hs2 hg hr2 hn hop =>
        have hd : (t1.fill fd g).desc fd = g := by rw [desc_fill hu, if_pos rfl]
        obtain ⟨ho, hcl⟩ := close_spec (t := t1.fill fd g) (o2.vnodePut v) ha.lt (by rw [hd]; exact hg)
        rw [hd] at ho hcl
        refine h.fine ?_ ((ha.fill hg).trans hcl).cancel (by simp) ?_
        · rw [ho]; exact (hs2.vnodePut v).close g
        · have hfree : F.typ v = .device .ptmx → PtyFree o1 mem := fun ht => by
            unfold PtyFree; rw [hp]; exact hpty v hv ht
          rw [ho, close_failed hn hop hfree, hput hr2]
          rfl

/-! ## Exit, fork and the first process -/

theorem Sane.refs_nonneg (h : Sane o) (x : Obj) : 0 ≤ o.refs x := by
  cases x with
  | pipe a =>
    cases hp : o.pipes a with
    | none => simp [refs, hp]
    | some p => simpa [refs, hp] using (h.pipes a p hp).1.le
  | socket a =>
    cases hp : o.sockets a with
    | none => simp [refs, hp]
    | some r => simpa [refs, hp] using (h.sockets a r hp).le
  | ptm n | pts n => cases hp : o.ptys n <;> simp [refs, hp]
  | _ => simp [refs]

theorem Ready.held_le (h : Ready F o t) (hdev : F.isDevice x → ∀ f ∈ t.inUse, f.names x = false) :
    (t.held x : ℤ) ≤ o.refs x := by
  cases hx : F.isDevice x with
  | false => exact h.held x hx
  | true =>
    have h0 : t.held x = 0 := countP_eq_zero.mpr fun f hf => by simp [hdev hx f hf]
    rw [h0]
    exact h.sane.refs_nonneg x

theorem free_fine (h : Ready F o t) (hdev : F.isDevice x → ∀ f ∈ t.inUse, f.names x = false) :
    Fine F x o t (fdTableFree o t) := by
  have h0 : (fdTableFree o t).2.held x = 0 := by rw [Table.held, free_inUse]; rfl
  obtain ⟨hs, hr⟩ := foldl_close t.inUse h.ok hdev o h.sane (h.held_le hdev)
  refine ⟨hs, fun f hf => ?_, ?_⟩
  · rw [free_inUse] at hf; cases hf
  · rw [h0]
    simp only [fdTableFree, Table.held] at hr ⊢
    omega

theorem forkFds_fine {s : State} {i : ℕ} (h : Ready F s.objs (s.tables i)) (mem : ℕ → Bool)
    (hev : ∀ f ∈ (s.tables i).inUse, f.ops ≠ .evdev)
    (hdev : F.isDevice x → ∀ f ∈ (s.tables i).inUse, f.names x = false) :
    Fine F x s.objs Table.init (s.forkFds i mem) := by
  obtain ⟨l, hpre, hobj, huse, -⟩ := dup_spec s.objs (s.tables i) mem
  have hsub : ∀ f ∈ l, f ∈ (s.tables i).inUse := fun f hf => hpre.subset hf
  have hinit : Table.init.held x = 0 := by rw [Table.held, init_inUse]; rfl
  have hok : ∀ f ∈ l, DescOK F f := fun f hf => h.ok f (hsub f hf)
  obtain ⟨hs, hr⟩ := foldl_dup l hok (fun f hf => hev f (hsub f hf)) _ h.sane fun f hf y hy hn => h.pos' (hsub f hf) hy hn
  replace hr := hr x fun hx f hf => hdev hx f (hsub f hf)
  unfold State.forkFds
  generalize fdTableDup s.objs Table.init (s.tables i) mem = r at hobj huse ⊢
  dsimp only
  split
  · refine ⟨by rw [hobj]; exact hs, fun f hf => hok f (huse ▸ hf), ?_⟩
    rw [hobj, hinit, Table.held, huse, hr]
    simp
  · -- the copies made so far are closed again
    have h0 : (fdTableFree r.2.1 r.2.2).2.held x = 0 := by rw [Table.held, free_inUse]; rfl
    have hle : (l.countP (·.names x) : ℤ) ≤ (l.foldl fileDup s.objs).refs x := by
      have := h.sane.refs_nonneg x
      omega
    obtain ⟨hs', hc⟩ := foldl_close l hok (fun hx f hf => hdev hx f (hsub f hf)) _ hs hle
    refine ⟨?_, fun f hf => ?_, ?_⟩
    · simp only [fdTableFree, huse, hobj]; exact hs'
    · rw [free_inUse] at hf; cases hf
    · rw [h0, hinit]
      simp only [fdTableFree, huse, hobj, hc, hr]
      omega

theorem Ready.next (h : Ready F o t) (hf : ∀ y, F.isDevice y = false → Fine F y o t r)
    (hs : Sane r.1) (hok : ∀ f ∈ r.2.inUse, DescOK F f) : Ready F r.1 r.2 where
  sane := hs
  ok := hok
  held y hy := by
    have h1 := (hf y hy).refs
    have h2 := h.held y hy
    omega

theorem openConsole_fine (h : Ready F r.1 r.2) (hfd : fd < fdTableMax) (w mem : Bool) :
    Fine F x r.1 r.2 (State.openConsole F r fd w mem) := by
  obtain ⟨o, t⟩ := r
  unfold State.openConsole fdTablePut
  dsimp only
  split
  · exact h.fine ((h.sane.vnodeGet _).vnodePut _) (.refl t) (by simp) (by simp [refs_get_put])
  next bucket slots hb =>
    split
    · exact h.fine ((h.sane.vnodeGet _).vnodePut _) (swap_build hb) (by simp) (by simp [refs_get_put])
    next hu =>
      have hu : (slots (fd % fdTableSlots)).inUse = false := by simpa using hu
      have hbind : fileBindVnodeOps F (o.vnodeGet F.console)
          { FileDescriptor.fresh with vn := some F.console, writable := w } mem true =
          (.ok (), o.vnodeGet F.console, boundTo F.console .tty none w) := by
        simp only [fileBindVnodeOps, map_some, F.console_typ]
        rfl
      rw [hbind]
      have hsw := swap_put (div_slots_lt hfd) (mod_slots_lt fd) hb (boundTo F.console .tty none w) (bucket.slotCount + 1)
      rw [one_of_not hu, one_of_inUse rfl] at hsw
      refine h.fine (h.sane.vnodeGet _) hsw (fun f hf => ?_) ?_
      · rw [mem_singleton.mp hf]
        exact descOK_boundTo (by simp [isDevice_of_typ F.console_typ])
      · rw [countP_single, names_boundTo]
        by_cases hx : x = .vnode F.console <;> simp [hx]

end NeoOS.Fd
