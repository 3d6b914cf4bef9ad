import NeoOS.Proof.Vfs

/-!
# Runs of the vnode cache

`Inv` ties the counts of the cache to the holders: the mounts, the callers of resolutions and the open
files. `Inv.grow` and `Inv.drop` carry it over a call that takes references and over one that gives a
reference up; `vnodes_counted` is the theorem on runs.
-/

namespace NeoOS.Vfs

open Option (map_none map_some toList_none toList_some)
open List
open Function (update update_of_ne update_self)

variable {s s' : State} {w : View} {v u i : ℕ} {l : List ℕ} {m : Mount}

/-- The vnodes that the mounts hold. -/
def State.roots (s : State) : List ℕ := (List.range maxMounts).flatMap fun i => ((s.mounts i).map Mount.root).toList

/-- The references that callers and open files hold. -/
def State.outside (s : State) (v : ℕ) : ℕ := s.held.count v + (s.files.map File.vn).count v

structure Inv (s : State) : Prop where
  cache : CacheOK s
  refs : ∀ v, s.refs v = s.roots.count v + s.outside v
  root : ∀ i m, s.mounts i = some m → i < maxMounts ∧ s.key m.root = (some i, 0)
  mounted : ∀ v, 0 < s.refs v → ∃ i m, (s.vnodes v).mount = some i ∧ s.mounts i = some m

theorem State.roots_congr (h : s'.mounts = s.mounts) : s'.roots = s.roots := by
  unfold State.roots
  rw [h]

section

variable (hI : Inv s)
include hI

theorem Inv.count_root_pos (hm : s.mounts i = some m) : 0 < s.roots.count m.root := by
  refine count_pos_iff.2 (mem_flatMap.2 ⟨i, mem_range.2 (hI.root i m hm).1, ?_⟩)
  rw [hm]
  exact mem_cons_self

theorem Inv.root_pos (hm : s.mounts i = some m) : 0 < s.refs m.root := by
  have := hI.count_root_pos hm
  rw [hI.refs]
  omega

theorem Inv.rootsOK : RootsOK s := fun i m hm => ⟨hI.root_pos hm, (hI.root i m hm).2⟩

theorem Inv.grow (he : Ext i s s' l) (hi : l = [] ∨ (s.mounts i).isSome) (held : List ℕ) (files : List File)
    (hcount : ∀ v, held.count v + (files.map File.vn).count v = s.outside v + l.count v) :
    Inv { s' with held := held, files := files } := by
  refine ⟨{ he.cache with }, fun v => ?_, fun j m hm => ?_, fun v hv => ?_⟩
  · have h1 := he.refs v
    have h2 := hI.refs v
    have h3 := hcount v
    have h4 : State.roots { s' with held := held, files := files } = s.roots := State.roots_congr he.mounts
    rw [h4]
    change s'.refs v = _ + (held.count v + (files.map File.vn).count v)
    omega
  · change s'.mounts j = some m at hm
    rw [he.mounts] at hm
    obtain ⟨hj, hkey⟩ := hI.root j m hm
    exact ⟨hj, (he.keep _ (hI.root_pos hm)).trans hkey⟩
  · change 0 < s'.refs v at hv
    rw [he.mounts]
    rcases Nat.eq_zero_or_pos (s.refs v) with h0 | h0
    · rcases hi with rfl | hi
      · rw [he.refs v, h0] at hv
        exact absurd hv (lt_irrefl 0)
      · obtain ⟨m, hm⟩ := Option.isSome_iff_exists.1 hi
        exact ⟨i, m, he.fresh v h0 hv, hm⟩
    · obtain ⟨j, m, hj, hm⟩ := hI.mounted v h0
      exact ⟨j, m, (congrArg Prod.fst (he.keep v h0)).trans hj, hm⟩

theorem Inv.same (he : Ext i s s' []) : Inv s' := by
  have h := hI.grow he (.inl rfl) s'.held s'.files fun v => by
    rw [he.held, he.files]
    rfl
  exact h

theorem Inv.drop (held : List ℕ) (files : List File)
    (hcount : ∀ u, held.count u + (files.map File.vn).count u + [v].count u = s.outside u) :
    Inv ({ s with held := held, files := files }.vnodePut v) := by
  have hv : 0 < s.refs v := by
    have h1 := hI.refs v
    have h2 := hcount v
    rw [count_singleton_self] at h2
    omega
  have hcache : CacheOK { s with held := held, files := files } := { hI.cache with }
  have hd := vnodePut_spec (s := { s with held := held, files := files }) (v := v) hcache hv
  generalize State.vnodePut { s with held := held, files := files } v = s' at hd ⊢
  have hrefs : ∀ u, s'.refs u = s.roots.count u + (held.count u + (files.map File.vn).count u) := by
    intro u
    have h1 : s'.refs u + [v].count u = s.refs u := hd.refs u
    have h2 := hI.refs u
    have h3 := hcount u
    omega
  have hmounts : s'.mounts = s.mounts := hd.mounts
  refine ⟨hd.cache, fun u => ?_, fun j m hm => ?_, fun u hu => ?_⟩
  · rw [hrefs u, State.roots_congr hmounts]
    unfold State.outside
    rw [hd.held, hd.files]
  · rw [hmounts] at hm
    obtain ⟨hj, hkey⟩ := hI.root j m hm
    have hpos := hI.count_root_pos hm
    exact ⟨hj, (hd.keep _ (by rw [hrefs]; omega)).trans hkey⟩
  · have hold : 0 < s.refs u := by
      have h1 : s'.refs u + [v].count u = s.refs u := hd.refs u
      omega
    obtain ⟨j, m, hj, hm⟩ := hI.mounted u hold
    rw [hmounts]
    exact ⟨j, m, (congrArg Prod.fst (hd.keep u hu)).trans hj, hm⟩

end

theorem count_eraseIdx {α : Type*} [BEq α] [LawfulBEq α] {l : List α} {i : ℕ} {a : α} (h : l[i]? = some a) (b : α) :
    (l.eraseIdx i).count b + [a].count b = l.count b := by
  obtain ⟨hlt, rfl⟩ := List.getElem?_eq_some_iff.1 h
  rw [← (getElem_cons_eraseIdx_perm hlt).count_eq b, count_cons, count_cons, count_nil, zero_add]

/-! ## The calls -/

theorem Inv.resolve (hI : Inv s) (w : View) (path : Path) (stopShort : Bool) : Inv (step s (.resolve w path stopShort)) := by
  simp only [step]
  rcases resolveWalk_returns hI.cache hI.rootsOK w path stopShort with ⟨i, m, rel, hm, hr⟩ | ⟨-, hr⟩
  · have hmount := mountFor_mem hm
    split
    · rename_i v name s' heq
      rw [heq] at hr
      obtain ⟨hext, -⟩ := hr
      refine hI.grow hext (.inr (by rw [hmount]; rfl)) _ s'.files fun u => ?_
      rw [hext.held, hext.files, count_cons, count_singleton]
      unfold State.outside
      omega
    · rename_i e s' heq
      rw [heq] at hr
      exact hI.same hr
  · rw [hr]
    exact hI

theorem Inv.put (hI : Inv s) (j : ℕ) : Inv (step s (.put j)) := by
  simp only [step]
  split
  · exact hI
  · rename_i v hv
    refine hI.drop _ s.files fun u => ?_
    have := count_eraseIdx hv u
    unfold State.outside
    omega

theorem Inv.close (hI : Inv s) (j : ℕ) (hplain : ∀ f, s.files[j]? = some f → f.puts) : Inv (step s (.close j)) := by
  simp only [step, State.sysClose]
  split
  · exact hI
  · rename_i f hf
    rw [if_pos (hplain f hf)]
    refine hI.drop s.held _ fun u => ?_
    have hmap : (s.files.map File.vn)[j]? = some f.vn := by
      rw [getElem?_map, hf]
      rfl
    have := count_eraseIdx hmap u
    rw [eraseIdx_map] at this
    unfold State.outside
    omega

/-- What `sys_open` has in hand before it binds the operations: a reference, or nothing. -/
def Opens (i : ℕ) (s : State) (r : Except Err ℕ × State) : Prop :=
  match r.1 with
  | .ok v => Ext i s r.2 [v]
  | .error _ => Ext i s r.2 []

/-- The creation of a file: the reference to the directory is traded for one to the new file. -/
theorem openCreated_opens {s₂ : State} {dir : ℕ} (a : State.OpenArgs) (h : Ext i s s₂ [dir])
    (hdir : (s₂.vnodes dir).mount = some i) :
    Opens i s (match a.created with
      | .error rc => (.error rc, s₂.vnodePut dir)
      | .ok newId =>
        let r := s₂.vnodeGet a.get ((s₂.vnodes dir).mount.getD 0) newId
        let s := r.2.vnodePut dir
        match r.1 with
        | none => (.error .enfile, s)
        | some v => (.ok v, s)) := by
  have hgetD : (s₂.vnodes dir).mount.getD 0 = i := by rw [hdir]; rfl
  split
  · exact h.put
  · rename_i newId _
    dsimp only
    rw [hgetD]
    rcases vnodeGet_ext h.cache a.get i newId with ⟨v, hr, hext, -⟩ | ⟨hr, hext⟩
    · rw [hr]
      exact ((h.trans hext).perm (List.Perm.swap dir v [])).put
    · rw [hr]
      exact (h.trans hext).put

theorem openVnode_opens (hs : CacheOK s) (hr : RootsOK s) (a : State.OpenArgs) (path : Path) :
    (∃ i, (s.mounts i).isSome ∧ Opens i s (s.openVnode a path)) ∨ ∃ e, s.openVnode a path = (.error e, s) := by
  unfold State.openVnode
  rcases resolveWalk_returns hs hr a.resolve path false with ⟨i, m, rel, hm, hret⟩ | ⟨hm, hret⟩
  · left
    refine ⟨i, by rw [mountFor_mem hm]; rfl, ?_⟩
    unfold Returns at hret
    split
    · rename_i v name s₁ heq
      rw [heq] at hret
      exact hret.1
    · rename_i rc s₁ heq
      rw [heq] at hret
      split
      · exact hret
      · -- the path has no file: its directory is resolved in the same mount
        rcases resolveWalk_returns hret.cache (hret.rootsOK hr) a.parent path true with ⟨j, m', rel', hm', hret'⟩ | ⟨hm', -⟩
        · rw [mountFor_congr hret.mounts, hm] at hm'
          cases hm'
          split
          · rename_i rc' s₂ heq'
            rw [heq'] at hret'
            exact hret.trans hret'
          · rename_i dir name s₂ heq'
            rw [heq'] at hret'
            exact openCreated_opens a (hret.trans hret'.1) hret'.2
        · rw [mountFor_congr hret.mounts, hm] at hm'
          cases hm'
  · right
    rw [hret]
    dsimp only
    split
    · exact ⟨_, rfl⟩
    · rcases resolveWalk_returns hs hr a.parent path true with ⟨j, m', rel', hm', -⟩ | ⟨-, hret'⟩
      · rw [hm] at hm'
        cases hm'
      · rw [hret']
        exact ⟨_, rfl⟩

theorem Inv.open (hI : Inv s) (a : State.OpenArgs) (path : Path) (hhook : a.hook false) :
    Inv (step s (.open a path)) := by
  simp only [step, State.sysOpen]
  rcases openVnode_opens hI.cache hI.rootsOK a path with ⟨i, hi, hopen⟩ | ⟨e, he⟩
  · unfold Opens at hopen
    split
    · rename_i e s' heq
      rw [heq] at hopen
      exact hI.same hopen
    · rename_i v s' heq
      rw [heq] at hopen
      have hfile : ∀ puts, Inv { s' with files := ⟨v, puts⟩ :: s'.files } := by
        intro puts
        refine hI.grow hopen (.inr hi) s'.held _ fun u => ?_
        rw [hopen.held, hopen.files, map_cons, count_cons, count_singleton]
        unfold State.outside
        dsimp only
        omega
      split
      · exact hI.same hopen.put
      · unfold State.openBind
        split
        · rename_i fops _
          split
          · exact hfile false
          · rename_i hfail
            -- the reference is dropped once: a device whose hook fails has operations of its own
            cases fops with
            | false => exact absurd hhook hfail
            | true => exact hI.same hopen.put
        · exact hfile true
  · rw [he]
    exact hI

/-! ## Mounts -/

theorem count_roots_update (hi : i < maxMounts) (m : Option Mount) (v : ℕ) :
    ((List.range maxMounts).flatMap fun j => ((update s.mounts i m j).map Mount.root).toList).count v +
      ((s.mounts i).map Mount.root).toList.count v = s.roots.count v + (m.map Mount.root).toList.count v := by
  have hperm := Update.flatMap_perm (fun j => ((s.mounts j).map Mount.root).toList) (m.map Mount.root).toList
    nodup_range (mem_range.2 hi)
  have hcount := hperm.count_eq v
  rw [count_append, count_append] at hcount
  have hfun : (fun j => ((update s.mounts i m j).map Mount.root).toList) =
      update (fun j => ((s.mounts j).map Mount.root).toList) i (m.map Mount.root).toList :=
    funext fun j => Function.apply_update (fun _ m => (m.map Mount.root).toList) s.mounts i m j
  rw [hfun]
  exact hcount

theorem findMount_some {target : Path} (h : s.findMount target = some (i, m)) : i < maxMounts ∧ s.mounts i = some m := by
  obtain ⟨j, hj, hb⟩ := exists_of_findSome?_eq_some h
  obtain ⟨m', hm', he⟩ := Option.bind_eq_some_iff.1 hb
  split at he
  · cases he
    exact ⟨mem_range.1 hj, hm'⟩
  · cases he

theorem Inv.mount (hI : Inv s) (w : View) (target : Path) (known : Bool) (driver : Except Err Unit) :
    Inv (step s (.mount w target known driver)) := by
  simp only [step, State.vfsMountFs]
  split
  · exact hI
  · split
    · exact hI
    · rename_i i hfind
      have hi := mem_range.1 (mem_of_find?_eq_some hfind)
      have hnone : s.mounts i = none := by simpa using find?_some hfind
      split
      · exact hI
      · split
        · exact hI
        · rcases vnodeGet_ext hI.cache w i 0 with ⟨root, hr, hext, hkey⟩ | ⟨hr, hext⟩
          · rw [hr]
            have hcount := count_roots_update (s := s) hi (some ⟨target.take (vfsMaxPath - 1), root⟩)
            generalize (s.vnodeGet w i 0).2 = s' at hext hkey ⊢
            have hmounts := hext.mounts
            refine ⟨{ hext.cache with }, fun v => ?_, fun j m hm => ?_, fun v hv => ?_⟩
            · have h1 := hext.refs v
              have h2 := hI.refs v
              have h3 := hcount v
              rw [hnone] at h3
              change s'.refs v = ((List.range maxMounts).flatMap fun j => ((update s'.mounts i
                (some ⟨target.take (vfsMaxPath - 1), root⟩) j).map Mount.root).toList).count v +
                (s'.held.count v + (s'.files.map File.vn).count v)
              rw [hmounts, hext.held, hext.files]
              unfold State.outside at h2
              simp only [map_none, toList_none, count_nil, add_zero, map_some, toList_some] at h3
              omega
            · dsimp only at hm
              by_cases hj : j = i
              · rw [hj, update_self] at hm
                cases hm
                rw [hj]
                exact ⟨hi, hkey⟩
              · rw [update_of_ne hj, hmounts] at hm
                obtain ⟨hlt, hk⟩ := hI.root j m hm
                exact ⟨hlt, (hext.keep _ (hI.root_pos hm)).trans hk⟩
            · change 0 < s'.refs v at hv
              dsimp only
              rcases Nat.eq_zero_or_pos (s.refs v) with h0 | h0
              · exact ⟨i, _, hext.fresh v h0 hv, update_self ..⟩
              · obtain ⟨j, m, hj, hm⟩ := hI.mounted v h0
                refine ⟨j, m, (congrArg Prod.fst (hext.keep v h0)).trans hj, ?_⟩
                rw [update_of_ne, hmounts, hm]
                rintro rfl
                rw [hnone] at hm
                cases hm
          · rw [hr]
            exact hI.same hext

theorem Inv.count_roots (hI : Inv s) (hm : s.mounts i = some m) (hv : (s.vnodes v).mount = some i) :
    s.roots.count v = [m.root].count v := by
  have hupd := count_roots_update (s := s) (hI.root i m hm).1 none v
  rw [hm] at hupd
  have hnot : ((List.range maxMounts).flatMap fun j => ((update s.mounts i none j).map Mount.root).toList).count v = 0 := by
    refine count_eq_zero.2 fun hmem => ?_
    obtain ⟨j, -, hj⟩ := mem_flatMap.1 hmem
    obtain ⟨m', hm', hroot⟩ := Option.map_eq_some_iff.1 (Option.mem_toList.1 hj)
    by_cases he : j = i
    · rw [he, update_self] at hm'
      cases hm'
    · rw [update_of_ne he] at hm'
      have hkey := congrArg Prod.fst (hI.root j m' hm').2
      rw [hroot] at hkey
      exact he (Option.some.inj (hkey.symm.trans hv))
  rw [hnot] at hupd
  simp only [map_some, toList_some, map_none, toList_none, count_nil] at hupd
  omega

/-- The scan finds a vnode of the mount that somebody else holds. -/
theorem Inv.busy_iff (hI : Inv s) (hm : s.mounts i = some m) :
    s.busy i m ↔ ∃ v, 0 < s.refs v ∧ (s.vnodes v).mount = some i ∧ s.outside v ≠ 0 := by
  -- what the test of the scan says about a vnode of the mount
  have htest : ∀ v, s.used v = true → (s.vnodes v).mount = some i →
      ((if v == m.root then decide ((s.vnodes v).refcount > 1) else decide ((s.vnodes v).refcount > 0)) = true ↔
        s.outside v ≠ 0) := by
    intro v hu hv
    have hrefs := hI.refs v
    have hpos := hI.cache.refs_pos hu
    rw [hI.count_roots hm hv, count_singleton, State.refs_of_used hu] at hrefs
    rw [State.refs_of_used hu] at hpos
    by_cases he : v = m.root
    · simp only [he, beq_self_eq_true, if_true, decide_eq_true_eq] at hrefs hpos ⊢
      omega
    · have hne : (m.root == v) = false := beq_eq_false_iff_ne.2 (Ne.symm he)
      have hne' : (v == m.root) = false := beq_eq_false_iff_ne.2 he
      rw [hne] at hrefs
      simp only [hne', Bool.false_eq_true, if_false, decide_eq_true_eq] at hrefs ⊢
      omega
  unfold State.busy
  simp only [any_eq_true, mem_range, Bool.and_eq_true, beq_iff_eq]
  constructor
  · rintro ⟨b, -, v, hv, hmount, ht⟩
    have hu := hI.cache.chain b v hv
    exact ⟨v, hI.cache.refs_pos hu, hmount, (htest v hu hmount).1 (by simpa using ht)⟩
  · rintro ⟨v, hpos, hmount, hout⟩
    have hu := State.used_of_refs hpos
    obtain ⟨j, hj, hmem, -⟩ := hI.cache.live v hu
    refine ⟨_, Nat.mod_lt _ (by decide), v, hmem, hmount, ?_⟩
    simpa using (htest v hu hmount).2 hout

theorem Inv.umount (hI : Inv s) (target : Path) : Inv (step s (.umount target)) := by
  simp only [step, State.vfsUmount]
  split
  · exact hI
  · rename_i i m hfind
    obtain ⟨hi, hm⟩ := findMount_some hfind
    split
    · exact hI
    · rename_i hbusy
      have hidle : ∀ v, 0 < s.refs v → (s.vnodes v).mount = some i → s.outside v = 0 := by
        intro v hv hmount
        by_contra hout
        exact hbusy ((hI.busy_iff hm).2 ⟨v, hv, hmount, hout⟩)
      have hd := vnodePut_spec hI.cache (hI.root_pos hm)
      have hcount := count_roots_update (s := s) hi none
      generalize s.vnodePut m.root = s' at hd ⊢
      refine ⟨{ hd.cache with }, fun v => ?_, fun j m' hm' => ?_, fun v hv => ?_⟩
      · have h1 := hd.refs v
        have h2 := hI.refs v
        have h3 := hcount v
        rw [hm] at h3
        change s'.refs v = ((List.range maxMounts).flatMap fun j => ((update s'.mounts i none j).map
          Mount.root).toList).count v + (s'.held.count v + (s'.files.map File.vn).count v)
        rw [hd.mounts, hd.held, hd.files]
        unfold State.outside at h2
        simp only [map_none, toList_none, count_nil, add_zero, map_some, toList_some] at h3
        omega
      · dsimp only at hm'
        by_cases hj : j = i
        · rw [hj, update_self] at hm'
          cases hm'
        · rw [update_of_ne hj, hd.mounts] at hm'
          obtain ⟨hlt, hk⟩ := hI.root j m' hm'
          refine ⟨hlt, (hd.keep _ ?_).trans hk⟩
          -- another mount has another root
          have hne : m.root ≠ m'.root := by
            intro he
            have h1 := congrArg Prod.fst (hI.root i m hm).2
            have h2 := congrArg Prod.fst hk
            rw [he] at h1
            exact hj (Option.some.inj (h2.symm.trans h1))
          have h1 := hd.refs m'.root
          rw [count_cons_of_ne hne, count_nil] at h1
          have := hI.root_pos hm'
          omega
      · change 0 < s'.refs v at hv
        have hold : 0 < s.refs v := by
          have := hd.refs v
          omega
        obtain ⟨j, m', hj, hm'⟩ := hI.mounted v hold
        refine ⟨j, m', (congrArg Prod.fst (hd.keep v hv)).trans hj, ?_⟩
        dsimp only
        rw [update_of_ne, hd.mounts, hm']
        rintro rfl
        -- nothing of the mount is left
        have h1 := hd.refs v
        have h2 := hI.refs v
        rw [hI.count_roots hm hj, hidle v hold hj] at h2
        omega

/-! ## Runs -/

/-- What the cache promises. -/
structure Sound (s : State) : Prop where
  unique : ∀ v u, 0 < s.refs v → 0 < s.refs u → s.key v = s.key u → v = u
  counts : ∀ v, s.refs v = s.roots.count v + s.held.count v + (s.files.map File.vn).count v
  resolution : ∀ w path stopShort v, (s.resolveWalk w path stopShort).2.refs v =
    s.refs v + match (s.resolveWalk w path stopShort).1 with
      | .ok (u, _) => [u].count v
      | .error _ => 0
  umount : ∀ target, (s.vfsUmount target).1 = .ok () ↔ ∃ i m, s.findMount target = some (i, m) ∧
    ∀ v, 0 < s.refs v → (s.vnodes v).mount = some i → s.held.count v + (s.files.map File.vn).count v = 0

theorem Inv.sound (hI : Inv s) : Sound s := by
  refine ⟨fun v u hv hu hk => ?_, fun v => ?_, fun w path stopShort v => ?_, fun target => ?_⟩
  · exact hI.cache.uniq v u (State.used_of_refs hv) (State.used_of_refs hu) hk
  · rw [hI.refs v, State.outside, add_assoc]
  · rcases resolveWalk_returns hI.cache hI.rootsOK w path stopShort with ⟨i, m, rel, -, hr⟩ | ⟨-, hr⟩
    · unfold Returns at hr
      generalize s.resolveWalk w path stopShort = r at hr ⊢
      obtain ⟨res, s'⟩ := r
      cases res with
      | ok p => exact hr.1.refs v
      | error e => exact hr.refs v
    · rw [hr]
      rfl
  · unfold State.vfsUmount
    cases hfind : s.findMount target with
    | none => exact iff_of_false nofun nofun
    | some r =>
      obtain ⟨i, m⟩ := r
      obtain ⟨-, hm⟩ := findMount_some hfind
      dsimp only
      split
      · rename_i hbusy
        obtain ⟨v, hv, hmount, hout⟩ := (hI.busy_iff hm).1 hbusy
        refine iff_of_false nofun ?_
        rintro ⟨i', m', he, hall⟩
        cases he
        exact hout (hall v hv hmount)
      · rename_i hbusy
        refine iff_of_true rfl ⟨i, m, rfl, fun v hv hmount => ?_⟩
        by_contra hout
        exact hbusy ((hI.busy_iff hm).2 ⟨v, hv, hmount, hout⟩)

/-- The condition: no descriptor of a device file is closed, and no open hook fails of a device without
operations of its own. -/
def Plain (s : State) : Event → Prop
  | .open a _ => a.hook false = true
  | .close i => ∀ f, s.files[i]? = some f → f.puts
  | _ => True

/-- **One call.** -/
theorem Inv.step (hI : Inv s) (e : Event) (he : Plain s e) : Inv (step s e) := by
  cases e with
  | resolve w path stopShort => exact hI.resolve w path stopShort
  | put i => exact hI.put i
  | «open» a path => exact hI.open a path he
  | close i => exact hI.close i he
  | mount w target known driver => exact hI.mount w target known driver
  | umount target => exact hI.umount target

theorem Inv.init (base slabs : ℕ) (vnodes : ℕ → Vnode) : Inv (.init base slabs vnodes) := by
  refine ⟨⟨nofun, nofun, nofun, nofun, fun _ => nodup_nil, nofun⟩, fun v => ?_, nofun, fun v hv => ?_⟩
  · rfl
  · exact absurd hv (lt_irrefl 0)

/-- **The vnode cache.** After every sequence of resolutions, opens, closes, mounts and unmounts that meets
the condition. -/
theorem vnodes_counted (base slabs : ℕ) (vnodes : ℕ → Vnode) (es : List Event)
    (hv : Run.Valid step Plain (.init base slabs vnodes) es) :
    Sound (Run.final step (.init base slabs vnodes) es) :=
  (hv.invariant (fun _ e hI he => hI.step e he) (Inv.init base slabs vnodes)).sound

/-- A small tree: a directory `d` with a file `f`, and a device `null`. -/
def tree : View where
  lookup _ inode name := if inode = 0 ∧ name = ['d'] then .ok 1
    else if inode = 1 ∧ name = ['f'] then .ok 2
    else if inode = 0 ∧ name = ['n', 'u', 'l', 'l'] then .ok 3
    else .error .enoent
  readInode _ inode := [VType.dir, .dir, .file, .device true][inode]?
  mem _ := true

def openTree : State.OpenArgs := ⟨tree, tree, tree, false, false, .error .enoent, fun _ => true⟩

def emptyVnodes : ℕ → Vnode := fun _ => ⟨none, 0, .file, 0⟩

/-- A file system is mounted, a file in it resolved, opened and closed, and the mount given up. -/
def treeRun : List Event :=
  [.mount tree ['/'] true (.ok ()), .resolve tree ['/', 'd', '/', 'f'] false, .open openTree ['/', 'd', '/', 'f'],
    .resolve tree ['/', 'd', '/', 'x'] false, .put 0, .close 0, .umount ['/']]

theorem vnodes_counted_tree : (Run.final step (.init 0 1 emptyVnodes) (treeRun.take 4)).refs 2 = 2 ∧
    (Run.final step (.init 0 1 emptyVnodes) treeRun).mounts 0 = none ∧
    Sound (Run.final step (.init 0 1 emptyVnodes) treeRun) := by
  refine ⟨by decide +kernel, by decide +kernel, vnodes_counted 0 1 emptyVnodes treeRun ?_⟩
  refine ⟨trivial, trivial, rfl, trivial, trivial, fun f hf => ?_, trivial, trivial⟩
  have hfile : (Run.final step (.init 0 1 emptyVnodes) (treeRun.take 5)).files[0]? = some ⟨2, true⟩ := by decide +kernel
  cases hfile.symm.trans hf
  rfl

/-- `/dev/null` is opened and closed: its vnode keeps a reference that nobody holds, and the mount stays busy. -/
theorem device_close_leaks : ¬ Sound (Run.final step (.init 0 1 emptyVnodes)
      [.mount tree ['/', 'd', 'e', 'v'] true (.ok ()), .open openTree ['/', 'd', 'e', 'v', '/', 'n', 'u', 'l', 'l'],
        .close 0]) := by
  intro h
  exact absurd (h.counts 1) (by decide +kernel)

end NeoOS.Vfs
