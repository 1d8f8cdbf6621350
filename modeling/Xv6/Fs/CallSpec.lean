import Xv6.Fs.Links

/-! What the system calls that make and remove links do to the inodes and the references. -/
namespace Xv6.Fs
open Program RefCount Function

/-- No room in the inode table, on the disk or in a directory may stop a call. -/
structure Tolerates (E : Stop → Prop) : Prop where
  table : E (.panic .iget)
  inodes : E (.panic .ialloc)
  room : E (.panic .dirlink)

/-- A call by a process with the current directory `cwd` can start. -/
structure Ready (E : Stop → Prop) (v : Volume) (n : ℕ) (D : ℕ → Inode) (R : ℕ → ℕ) (cwd : ℕ) :
    Prop where
  at_ : At v n D R unlocked
  linked : Linked n D R
  fits : Fits D
  stops : Tolerates E
  dangling : ∀ i name j, child D i name = some j → (D j).type = .free → E (.panic .ilockNoType)
  cwd : 0 < R cwd

section rules
variable {E : Stop → Prop} {v v' : Volume} {n cwd dp ip : ℕ} {D : ℕ → Inode} {R : ℕ → ℕ}
  {L : ℕ → Bool}

/-- One inode is locked. -/
def lockedOnly (i : ℕ) : ℕ → Bool := update unlocked i true

theorem lockedOnly_self (i : ℕ) : lockedOnly i i = true := update_self ..

theorem lockedOnly_of_ne {i j : ℕ} (h : j ≠ i) : lockedOnly i j = false := update_of_ne h ..

theorem update_lockedOnly (i : ℕ) : update (lockedOnly i) i false = unlocked := by
  rw [lockedOnly, update_idem]
  exact update_eq_self i unlocked

variable (path : List Byte)

section
variable (h : Ready E v n D R cwd)
include h

theorem Ready.walkable : Walkable E D R :=
  ⟨fun i hi => (h.linked.dir i hi).shape, h.dangling, fun _ => h.linked.kept_nlink h.fits⟩

theorem Ready.root_type : (D rootino).type ≠ .free := by
  rw [h.linked.root]
  decide

theorem Ready.cwd_type : (D cwd).type ≠ .free := fun hfree =>
  h.cwd.ne' (h.linked.unused cwd hfree)

theorem Ready.wp_namei :
    wp (namei cwd path) E v fun r v' =>
      (∀ i, r = some i → (D i).type = .free → E (.panic .ilockNoType)) ∧
      At v' n D (incrOpt R r) unlocked := by
  have hwalk := wp_namex h.walkable (fun _ => h.stops.table) h.at_ h.root_type h.cwd_type h.cwd
    path false blankName
  rw [namei, wp_bind]
  refine wp_mono hwalk fun r v' hr => ?_
  obtain ⟨hr, -, hv'⟩ := hr
  rw [wp_pure]
  refine ⟨fun i hi hfree => ?_, hv'⟩
  rw [hi] at hr
  have hstart : (D (if front path = slash then rootino else cwd)).type ≠ .free := by
    split_ifs
    · exact h.root_type
    · exact h.cwd_type
  obtain rfl | ⟨j, name, hj⟩ := walk_some hr.symm
  · exact absurd hfree hstart
  · exact h.dangling j name i hj hfree

theorem Ready.wp_nameiparent :
    wp (nameiparent cwd path) E v fun r v' => (∀ dp, r.1 = some dp → (D dp).type = .dir) ∧
      At v' n D (incrOpt R r.1) unlocked := by
  refine wp_mono (wp_namex h.walkable (fun _ => h.stops.table) h.at_ h.root_type h.cwd_type h.cwd
    path true blankName) fun r v' hr => ?_
  obtain ⟨hr, -, hv'⟩ := hr
  refine ⟨fun dp hdp => ?_, hv'⟩
  rw [hdp] at hr
  exact resolve_parent_dir hr.symm

end

/-- The call gives up the one inode it has locked. -/
theorem Walkable.wp_iunlockput (hwalk : Walkable E D R) (h : At v n D (incr R ip) (lockedOnly ip)) :
    wp (iunlockput ip) E v fun _ v' => At v' n D R unlocked := by
  refine wp_mono (h.wp_iunlockput_keep (lockedOnly_self ip) (hwalk.keep (by simp))) fun _ v' hv' => ?_
  rwa [decr_incr, update_lockedOnly] at hv'

theorem At.wp_emptyDirFrom (h : At v n D R L) (hL : L ip = true) (hdir : DirShape (D ip).content)
    (ks : List ℕ) (hks : ∀ k ∈ ks, k < (D ip).content.length / direntSize) :
    wp (emptyDirFrom ip (ks.map (direntSize * ·))) E v fun r v' =>
      (r = true ↔ ∀ k ∈ ks, ¬ (entryAt (D ip).content k).live) ∧ At v' n D R L := by
  induction ks with
  | nil => simpa [emptyDirFrom] using h
  | cons k ks ih =>
    have hk := hks k List.mem_cons_self
    have hrest := ih fun k' hk' => hks k' (List.mem_cons_of_mem _ hk')
    simp only [List.map_cons, emptyDirFrom, wp_bind, wp_readi, h.valid_copy hL, hdir.readBytes_eq hk,
      entry_length hk, ne_eq, not_true_eq_false, if_false]
    rw [← entryAt]
    by_cases hzero : (entryAt (D ip).content k).inum = 0
    · rw [if_neg (not_not_intro hzero)]
      refine wp_mono hrest fun r v' hr => ⟨?_, hr.2⟩
      simp [hr.1, Dirent.live, hzero]
    · rw [if_pos hzero, wp_pure]
      refine ⟨?_, h⟩
      simp [Dirent.live, hzero]

theorem At.wp_isdirempty (h : At v n D R L) (hL : L ip = true) (htype : (D ip).type = .dir)
    (hdir : DirShape (D ip).content) :
    wp (isdirempty ip) E v fun r v' =>
      (r = true ↔ (D ip).target = fun _ => none) ∧ At v' n D R L := by
  simp only [isdirempty, wp_bind, wp_getSlot, h.valid_copy hL, hdir.offsets_eq, ← List.map_drop]
  have hmem : ∀ k, k ∈ (List.range ((D ip).content.length / direntSize)).drop 2 ↔
      2 ≤ k ∧ k < numEntries (D ip).content := by
    intro k
    rw [List.range_eq_range', List.drop_range', List.mem_range'_1, numEntries]
    omega
  refine wp_mono (h.wp_emptyDirFrom hL hdir _ fun k hk => ((hmem k).1 hk).2) fun r v' hr => ?_
  refine ⟨hr.1.trans ⟨fun hdead => ?_, fun hnone k hk hlive => ?_⟩, hr.2⟩
  · funext k
    exact if_neg fun hk => hdead k ((hmem k).2 ⟨hk.2.1, hk.2.2.1⟩) hk.2.2.2
  · have htarget : (D ip).target k = some (entryAt (D ip).content k).inum :=
      Inode.target_some.2 ⟨htype, ((hmem k).1 hk).1, ((hmem k).1 hk).2, hlive, rfl⟩
    rw [hnone] at htarget
    contradiction

theorem At.wp_clearEntry (h : At v n D R L) (hL : L dp = true) (hdir : DirShape (D dp).content)
    {k : ℕ} (hk : k < numEntries (D dp).content) :
    wp (clearEntry dp (direntSize * k)) E v fun _ v' =>
      At v' n (update D dp { D dp with content := cleared (D dp).content k }) R L := by
  have hlen : (List.replicate direntSize (0 : Byte)).length = direntSize := List.length_replicate
  have hoff : direntSize * k ≤ (D dp).content.length := by
    simp only [numEntries, direntSize] at hk ⊢
    omega
  rw [clearEntry, wp_bind]
  refine wp_mono (h.wp_writei hL hoff ?_) fun r v' hr => ?_
  · rw [hlen, ← Nat.mul_succ]
    exact hdir.room hk
  · obtain ⟨rfl, hv'⟩ := hr
    rw [hlen, if_neg (not_not_intro rfl), wp_pure]
    rw [cleared, setEntry, Dirent.zero_toBytes]
    exact hv'

/-- Two inodes are locked. -/
def lockedBoth (i j : ℕ) : ℕ → Bool := update (lockedOnly i) j true

theorem lockedBoth_left (i j : ℕ) : lockedBoth i j i = true := by
  by_cases h : i = j
  · rw [h]
    exact update_self ..
  · rw [lockedBoth, update_of_ne h]
    exact lockedOnly_self i

theorem lockedBoth_right (i j : ℕ) : lockedBoth i j j = true := update_self ..

theorem update_lockedBoth_left {i j : ℕ} (h : i ≠ j) :
    update (lockedBoth i j) i false = lockedOnly j := by
  rw [lockedBoth, update_comm h.symm, update_lockedOnly]
  rfl

theorem update_lockedBoth_right {i j : ℕ} (h : i ≠ j) :
    update (lockedBoth i j) j false = lockedOnly i := by
  rw [lockedBoth, update_idem, ← lockedOnly_of_ne h.symm]
  exact update_eq_self ..

/-- The parent without the entry, and without the link from `..` if it was for a directory. -/
def parentWithout (D : ℕ → Inode) (dp k ip : ℕ) : Inode :=
  { D dp with
    nlink := if (D ip).type = .dir then (D dp).nlink - 1 else (D dp).nlink
    content := cleared (D dp).content k }

/-- The end of `sys_unlink`, where both inodes are given up. -/
theorem wp_unlinkEnd {k : ℕ} (hlinked : Linked n D R) (hfits : Fits D)
    (hcan : CanUnlink D dp k ip)
    (h : At v n (update D dp (parentWithout D dp k ip)) (incr (incr R dp) ip) (lockedBoth dp ip)) :
    wp (do
      iunlockput dp
      modifyInode ip fun d => { d with nlink := d.nlink - 1 }
      iupdate ip
      iunlockput ip
      return true) E v fun _ v' => At v' n (unlinkDone D R dp k ip) R unlocked := by
  obtain ⟨hdp, -⟩ := Inode.target_some.1 hcan.entry
  have hne : ip ≠ dp := (hlinked.named _ _ hcan.entry).2
  have hkeep : incr (incr R dp) ip dp ≠ 1 ∨
      (update D dp (parentWithout D dp k ip) dp).nlink ≠ 0 := by
    have htype : (unlinkFrom D dp k ip dp).type ≠ .free := by
      rw [unlinkFrom_type, hdp]
      decide
    have hkept := (hlinked.unlinkFrom hcan.entry).kept_nlink
      (hlinked.fits_unlinkFrom hfits hcan.entry) htype
    rw [unlinkFrom, update_of_ne hne.symm, incr_of_ne hne.symm] at hkept
    rw [incr_of_ne hne.symm, incr_self]
    exact hkept.symm.imp_left fun href => by omega
  rw [wp_bind]
  refine wp_mono (h.wp_iunlockput_keep (lockedBoth_left dp ip) (hkeep.imp_right .inl))
    fun _ v₁ h₁ => ?_
  rw [decr_incr_comm, update_lockedBoth_left hne.symm] at h₁
  refine h₁.wp_modify (lockedOnly_self ip) _ rfl fun v₂ h₂ => ?_
  rw [update_of_ne hne] at h₂
  have h₃ : At v₂ n (unlinkFrom D dp k ip) (incr R ip) (lockedOnly ip) := h₂
  rw [wp_bind]
  by_cases hlast : R ip = 0 ∧ (unlinkFrom D dp k ip ip).nlink = 0
  · have hone : incr R ip ip = 1 := by rw [incr_self, hlast.1]
    refine wp_mono (h₃.wp_iunlockput_free (lockedOnly_self ip) hone hlast.2) fun _ v₄ h₄ => ?_
    rw [decr_incr, update_lockedOnly] at h₄
    rw [wp_pure, unlinkDone, if_pos hlast]
    exact h₄
  · have hkeep' : incr R ip ip ≠ 1 ∨ (unlinkFrom D dp k ip ip).nlink ≠ 0 := by
      rw [incr_self]
      by_cases hR : R ip = 0
      · exact .inr fun hzero => hlast ⟨hR, hzero⟩
      · exact .inl (by omega)
    refine wp_mono (h₃.wp_iunlockput_keep (lockedOnly_self ip) (hkeep'.imp_right .inl))
      fun _ v₄ h₄ => ?_
    rw [decr_incr, update_lockedOnly] at h₄
    rw [wp_pure, unlinkDone, if_neg hlast]
    exact h₄

theorem wp_unlinkEntry {k : ℕ} (hlinked : Linked n D R) (hfits : Fits D) (hcan : CanUnlink D dp k ip)
    (h : At v n D (incr (incr R dp) ip) (lockedBoth dp ip)) :
    wp (unlinkEntry dp ip (direntSize * k)) E v fun _ v' =>
      At v' n (unlinkDone D R dp k ip) R unlocked := by
  obtain ⟨hdp, -, hk, -⟩ := Inode.target_some.1 hcan.entry
  have hne : ip ≠ dp := (hlinked.named _ _ hcan.entry).2
  rw [unlinkEntry, wp_bind]
  refine wp_mono (h.wp_clearEntry (lockedBoth_left dp ip) (hlinked.dir dp hdp).shape hk)
    fun _ v₁ h₁ => ?_
  simp only [wp_bind, wp_getSlot, h₁.valid_copy (lockedBoth_right dp ip), update_of_ne hne]
  by_cases hdir : (D ip).type = .dir
  · rw [if_pos hdir]
    refine h₁.wp_modify (lockedBoth_left dp ip) _ rfl fun v₂ h₂ => ?_
    refine wp_unlinkEnd hlinked hfits hcan ?_
    simpa [update_idem, parentWithout, hdir] using h₂
  · rw [if_neg hdir]
    refine wp_unlinkEnd hlinked hfits hcan ?_
    simpa [parentWithout, hdir] using h₁

variable {name : List Byte}

/-- The entry that `sys_unlink` finds is not one of the first two. -/
theorem Linked.entry_of_lookup {off : ℕ} (h : Linked n D R) (hdp : (D dp).type = .dir)
    (hdots : ¬ (namecmp name dot = 0 ∨ namecmp name dotdot = 0))
    (hlookup : lookup (D dp).content name = some (ip, off)) :
    ∃ k, entry D (dp, k) = some ip ∧ off = direntSize * k := by
  have hmap := h.dir dp hdp
  obtain ⟨k, hk, hnamed, hinum, hoff⟩ := exists_of_lookup hlookup
  obtain ⟨hlive, hkey⟩ := Dirent.named_iff.1 hnamed
  refine ⟨k, Inode.target_some.2 ⟨hdp, ?_, hk, hlive, hinum⟩, hoff⟩
  by_contra hlt
  refine hdots ?_
  rw [namecmp_eq_zero, namecmp_eq_zero, hkey]
  obtain rfl | rfl : k = 0 ∨ k = 1 := by omega
  · exact .inl (Dirent.named_iff.1 hmap.dot).2.symm
  · exact .inr (Dirent.named_iff.1 hmap.dotdot).2.symm

theorem Linked.nlink_pos (h : Linked n D R) (hfits : Fits D) {p : ℕ × ℕ} (hp : entry D p = some ip) :
    ¬ (D ip).nlink < 1 := by
  have hpos := h.links_of_entry hp
  rw [h.nlink ip (h.named p ip hp).1, Int16.lt_iff_toInt_lt, Int16.toInt_ofNat_of_lt (hfits ip)]
  have hone : (1 : Int16).toInt = 1 := rfl
  omega

section
variable (h : Ready E v n D R cwd)
include h

theorem Ready.wp_sysUnlink :
    wp (sysUnlink cwd path) E v fun _ v' => ∃ D', Effect n D R D' R ∧ At v' n D' R unlocked := by
  rw [sysUnlink, wp_bind]
  refine wp_mono (h.wp_nameiparent path) fun r v₁ hr => ?_
  obtain ⟨found, name⟩ := r
  obtain ⟨hdir, h₁⟩ := hr
  cases found with
  | none =>
    rw [wp_pure]
    exact ⟨D, .same, h₁⟩
  | some dp =>
    have hdp := hdir dp rfl
    have hpos : 0 < incr R dp dp := by simp
    rw [wp_bind]
    refine wp_mono (At.wp_ilock h₁ hpos rfl fun hfree => ?_) fun _ v₂ hv₂ => ?_
    · rw [hdp] at hfree
      contradiction
    have h₂ : At v₂ n D (incr R dp) (lockedOnly dp) := hv₂.1
    have hexit : ∀ v', At v' n D (incr R dp) (lockedOnly dp) →
        wp (do iunlockput dp; return false) E v' fun _ v'' =>
          ∃ D', Effect n D R D' R ∧ At v'' n D' R unlocked := by
      intro v' hv'
      rw [wp_bind]
      refine wp_mono (h.walkable.wp_iunlockput hv') fun _ v'' hv'' => ?_
      rw [wp_pure]
      exact ⟨D, .same, hv''⟩
    by_cases hdots : namecmp name dot = 0 ∨ namecmp name dotdot = 0
    · rw [if_pos hdots]
      exact hexit v₂ h₂
    · rw [if_neg hdots, wp_bind]
      refine wp_mono (h₂.wp_dirlookup (lockedOnly_self dp) hdp (h.linked.dir dp hdp).shape
        fun _ _ _ => h.stops.table) fun r v₃ hr => ?_
      obtain ⟨hlookup, h₃⟩ := hr
      cases r with
      | none => exact hexit v₃ h₃
      | some pair =>
        obtain ⟨ip, off⟩ := pair
        obtain ⟨k, hentry, rfl⟩ := h.linked.entry_of_lookup hdp hdots hlookup.symm
        obtain ⟨hip, hne⟩ := h.linked.named _ _ hentry
        have hpos' : 0 < incr (incr R dp) ip ip := by simp
        simp only [wp_bind]
        refine wp_mono (At.wp_ilock h₃ hpos' (lockedOnly_of_ne hne) fun hfree => absurd hfree hip)
          fun _ v₄ hv₄ => ?_
        have h₄ : At v₄ n D (incr (incr R dp) ip) (lockedBoth dp ip) := hv₄.1
        simp only [wp_getSlot, h₄.valid_copy (lockedBoth_right dp ip),
          if_neg (h.linked.nlink_pos h.fits hentry)]
        have hdone : (D ip).target = (fun _ => none) → ∀ v', At v' n D (incr (incr R dp) ip)
            (lockedBoth dp ip) → wp (unlinkEntry dp ip (direntSize * k)) E v' fun _ v'' =>
              ∃ D', Effect n D R D' R ∧ At v'' n D' R unlocked := by
          intro hbarren v' hv'
          have hcan : CanUnlink D dp k ip := ⟨hentry, hbarren⟩
          exact wp_mono (wp_unlinkEntry h.linked h.fits hcan hv') fun _ v'' hv'' =>
            ⟨_, .unlink hcan, hv''⟩
        by_cases htype : (D ip).type = .dir
        · rw [if_pos htype, wp_bind]
          refine wp_mono (h₄.wp_isdirempty (lockedBoth_right dp ip) htype
            (h.linked.dir ip htype).shape) fun r v₅ hr => ?_
          obtain ⟨hempty, h₅⟩ := hr
          cases r with
          | true => exact hdone (hempty.1 rfl) v₅ h₅
          | false =>
            have hkeep : incr (incr R dp) ip ip ≠ 1 ∨ (D ip).nlink ≠ 0 ∨ (D ip).type = .free :=
              h.walkable.keep (by rw [incr_self, incr_of_ne hne])
            simp only [Bool.false_eq_true, if_false, wp_bind]
            refine wp_mono (h₅.wp_iunlockput_keep (lockedBoth_right dp ip) hkeep) fun _ v₆ h₆ => ?_
            rw [decr_incr, update_lockedBoth_right (Ne.symm hne)] at h₆
            have hlast := hexit v₆ h₆
            rwa [wp_bind] at hlast
        · rw [if_neg htype]
          exact hdone (Inode.target_eq_none_of_type htype) v₄ h₄

/-- The inode with one link more, before there is an entry for it. -/
def linkMore (D : ℕ → Inode) (ip : ℕ) : ℕ → Inode :=
  update D ip { D ip with nlink := (D ip).nlink + 1 }

omit h in
theorem linkMore_type (D : ℕ → Inode) (ip j : ℕ) : (linkMore D ip j).type = (D j).type := by
  by_cases hj : j = ip
  · simp [linkMore, hj]
  · simp [linkMore, hj]

omit h in
theorem linkMore_content (D : ℕ → Inode) (ip j : ℕ) :
    (linkMore D ip j).content = (D j).content := by
  by_cases hj : j = ip
  · simp [linkMore, hj]
  · simp [linkMore, hj]

omit h in
theorem child_linkMore (D : ℕ → Inode) (ip i : ℕ) (name : List Byte) :
    child (linkMore D ip) i name = child D i name := by
  simp only [child, linkMore_type, linkMore_content]

theorem Ready.walkable_linkMore : Walkable E (linkMore D ip) (incr R ip) := by
  refine ⟨fun i hi => ?_, fun i name j hj hfree => ?_, fun i hi => ?_⟩
  · rw [linkMore_type] at hi
    rw [linkMore_content]
    exact (h.linked.dir i hi).shape
  · rw [child_linkMore] at hj
    rw [linkMore_type] at hfree
    exact h.dangling i name j hj hfree
  · by_cases hip : i = ip
    · rw [hip, incr_self]
      exact .inr (Nat.succ_pos _)
    · rw [linkMore_type] at hi
      rw [linkMore, update_of_ne hip, incr_of_ne hip]
      exact h.linked.kept_nlink h.fits hi

/-- The link is taken back. -/
theorem Ready.wp_linkBad (hip : (D ip).type ≠ .free)
    (h' : At v' n (linkMore D ip) (incr R ip) unlocked) :
    wp (linkBad ip) E v' fun _ v'' => At v'' n D R unlocked := by
  rw [linkBad, wp_bind]
  refine wp_mono (h'.wp_ilock (by simp) rfl fun hfree => ?_) fun _ v₁ hv₁ => ?_
  · rw [linkMore_type] at hfree
    exact absurd hfree hip
  refine hv₁.1.wp_modify (lockedOnly_self ip) _ rfl fun v₂ h₂ => ?_
  have hback : update (linkMore D ip) ip
      { linkMore D ip ip with nlink := (linkMore D ip ip).nlink - 1 } = D := by
    have hnlink : (D ip).nlink + 1 - 1 = (D ip).nlink := Int16.add_sub_cancel ..
    rw [linkMore, update_idem, update_self]
    simp only [hnlink]
    exact update_eq_self ip D
  rw [hback] at h₂
  rw [wp_bind]
  refine wp_mono (h.walkable.wp_iunlockput h₂) fun _ v₃ h₃ => ?_
  rw [wp_pure]
  exact h₃

/-- `sys_link` from `nameiparent` on. -/
theorem Ready.wp_linkInto (hdp : (D dp).type = .dir) (hip : (D ip).type ≠ .free)
    (hfile : (D ip).type ≠ .dir) (h' : At v' n (linkMore D ip) (incr (incr R ip) dp) unlocked) :
    wp (do
      ilock dp
      if ← dirlink dp name ip then
        iunlockput dp
        iput ip
        return true
      else
        iunlockput dp
        linkBad ip) E v' fun _ v'' => ∃ D', Effect n D R D' R ∧ At v'' n D' R unlocked := by
  have hne : dp ≠ ip := by
    rintro rfl
    exact hfile hdp
  have hdp' : linkMore D ip dp = D dp := update_of_ne hne ..
  have hwalk : Walkable E (linkMore D ip) (incr R ip) := h.walkable_linkMore
  rw [wp_bind]
  refine wp_mono (h'.wp_ilock (by simp) rfl fun hfree => ?_) fun _ v₁ hv₁ => ?_
  · rw [hdp', hdp] at hfree
    contradiction
  have h₁ : At v₁ n (linkMore D ip) (incr (incr R ip) dp) (lockedOnly dp) := hv₁.1
  rw [wp_bind]
  refine wp_mono (h₁.wp_dirlink (lockedOnly_self dp) (by rw [hdp', hdp])
    (by rw [hdp']; exact (h.linked.dir dp hdp).shape)
    ((h.linked.bound ip hip).2.trans_le h.linked.small) (fun _ _ _ => h.stops.table)
    (fun _ i => ?_) fun _ => h.stops.room) fun r v₂ hr => ?_
  · exact hwalk.keep (Nat.succ_le_succ (le_incr ..))
  obtain ⟨hfound, hroom, h₂⟩ := hr
  rw [hdp'] at hfound hroom h₂
  cases r with
  | true =>
    have hcan : CanLink D dp ip name :=
      ⟨hdp, hip, hfile, Option.isNone_iff_eq_none.1 hfound.symm, hroom rfl⟩
    have h₂' : At v₂ n (linkTo D dp ip name) (incr (incr R ip) dp) (lockedOnly dp) := h₂
    have hkeep : incr (incr R ip) dp dp ≠ 1 ∨ (linkTo D dp ip name dp).nlink ≠ 0 ∨
        (linkTo D dp ip name dp).type = .free := by
      rw [linkTo, update_self]
      refine h.walkable.keep ?_
      rw [incr_self, incr_of_ne hne]
    have hnlink : (linkTo D dp ip name ip).nlink ≠ 0 := by
      rw [linkTo, update_of_ne hne.symm, update_self]
      dsimp only
      rw [h.linked.nlink ip hip, ofNat_succ]
      have := h.fits ip
      exact ofNat_ne_zero (Nat.succ_pos _) (by omega)
    simp only [if_true, wp_bind]
    refine wp_mono (h₂'.wp_iunlockput_keep (lockedOnly_self dp) hkeep) fun _ v₃ h₃ => ?_
    rw [decr_incr, update_lockedOnly] at h₃
    refine wp_mono (h₃.wp_iput_keep (by simp) (by simp [unlocked]) (.inr (.inl hnlink)))
      fun _ v₄ h₄ => ?_
    rw [decr_incr] at h₄
    rw [wp_pure]
    exact ⟨_, .link hcan, h₄⟩
  | false =>
    simp only [Bool.false_eq_true, if_false, wp_bind]
    refine wp_mono (hwalk.wp_iunlockput h₂) fun _ v₃ h₃ => ?_
    exact wp_mono (h.wp_linkBad hip h₃) fun _ v₄ h₄ => ⟨D, .same, h₄⟩

theorem Ready.wp_sysLink (old new : List Byte) :
    wp (sysLink cwd old new) E v fun _ v' => ∃ D', Effect n D R D' R ∧ At v' n D' R unlocked := by
  rw [sysLink, wp_bind]
  refine wp_mono (h.wp_namei old) fun r v₁ hr => ?_
  obtain ⟨hfree, h₁⟩ := hr
  cases r with
  | none =>
    rw [wp_pure]
    exact ⟨D, .same, h₁⟩
  | some ip =>
    have hpos : 0 < incr R ip ip := by simp
    rw [wp_bind]
    refine wp_mono (At.wp_ilock h₁ hpos rfl (hfree ip rfl)) fun _ v₂ hv₂ => ?_
    have h₂ : At v₂ n D (incr R ip) (lockedOnly ip) := hv₂.1
    have hip := hv₂.2
    simp only [wp_bind, wp_getSlot, h₂.valid_copy (lockedOnly_self ip)]
    by_cases hdir : (D ip).type = .dir
    · rw [if_pos hdir, wp_bind]
      refine wp_mono (h.walkable.wp_iunlockput h₂) fun _ v₃ h₃ => ?_
      rw [wp_pure]
      exact ⟨D, .same, h₃⟩
    · rw [if_neg hdir]
      refine h₂.wp_modify (lockedOnly_self ip) _ rfl fun v₃ h₃ => ?_
      rw [wp_bind]
      refine wp_mono (h₃.wp_iunlock (lockedOnly_self ip)) fun _ v₄ hv₄ => ?_
      have h₄ : At v₄ n (linkMore D ip) (incr R ip) unlocked := by
        have := hv₄.1
        rwa [update_lockedOnly] at this
      have hroot : (linkMore D ip rootino).type ≠ .free := by
        rw [linkMore_type]
        exact h.root_type
      have hcwd : (linkMore D ip cwd).type ≠ .free := by
        rw [linkMore_type]
        exact h.cwd_type
      rw [wp_bind]
      refine wp_mono (wp_namex h.walkable_linkMore (fun _ => h.stops.table) h₄ hroot hcwd
        (h.cwd.trans_le (le_incr ..)) new true blankName) fun r v₅ hr => ?_
      obtain ⟨found, name⟩ := r
      obtain ⟨hfound, -, h₅⟩ := hr
      cases found with
      | none => exact wp_mono (h.wp_linkBad hip h₅) fun _ v₆ h₆ => ⟨D, .same, h₆⟩
      | some dp =>
        have hdp := resolve_parent_dir hfound.symm
        rw [linkMore_type] at hdp
        exact h.wp_linkInto hdp hip hdir h₅

/-- The inode that `create` makes. -/
def newInode (type : InodeType) (major minor : Int16) (ip dp : ℕ) : Inode :=
  ⟨type, major, minor, 1, if type = .dir then dots ip dp else []⟩

omit h in
/-- The entries `.` and `..` of a new directory. -/
theorem wp_linkDots (hstops : Tolerates E) (htype : (D ip).type = .dir) (hnil : (D ip).content = [])
    (hip : ip < 2 ^ 16) (hdp : dp < 2 ^ 16) (hL : L ip = true) (h : At v n D R L) {α : Type}
    {x y z : FsM α} {Q : α → Volume → Prop}
    (hx : ∀ v', At v' n (update D ip { D ip with content := dots ip dp }) R L → wp x E v' Q) :
    wp (do
      if ← dirlink ip dot ip then
        if ← dirlink ip dotdot dp then x else y
      else z) E v Q := by
  rw [wp_bind]
  refine wp_mono (h.wp_dirlink hL htype (hnil ▸ DirShape.nil) hip (fun _ _ _ => hstops.table)
    (fun hsome => absurd (by rw [hnil, lookup_nil]) hsome) fun _ => hstops.room) fun r v₁ hr => ?_
  obtain ⟨hr, -, h₁⟩ := hr
  rw [hnil, lookup_nil] at hr
  obtain rfl : r = true := hr
  rw [if_pos rfl, hnil] at h₁
  rw [if_pos rfl, wp_bind]
  have hcontent : (update D ip { D ip with content := linked [] dot ip } ip).content =
      linked [] dot ip := by rw [update_self]
  refine wp_mono (h₁.wp_dirlink hL (by rw [update_self]; exact htype)
    (by rw [hcontent]; exact DirShape.dot hip) hdp (fun _ _ _ => hstops.table)
    (fun hsome => absurd (by rw [hcontent, lookup_dot hip]) hsome) fun _ => hstops.room)
    fun r v₂ hr => ?_
  obtain ⟨hr, -, h₂⟩ := hr
  rw [hcontent, lookup_dot hip] at hr
  obtain rfl : r = true := hr
  rw [if_pos rfl, update_idem, update_self] at h₂
  rw [if_pos rfl]
  exact hx v₂ h₂

/-- The parent of a new inode, before there is an entry for it. -/
def parentOf (D : ℕ → Inode) (dp : ℕ) (type : InodeType) : Inode :=
  { D dp with nlink := if type = .dir then (D dp).nlink + 1 else (D dp).nlink }

/-- The end of `create`, where the new inode gets its name. -/
theorem Ready.wp_createEnd {d : Inode} (hdp : (D dp).type = .dir) (hk : (D ip).type = .free)
    (hpos : 0 < ip) (hlt : ip < n) (hd : d.type ≠ .free) (hone : d.nlink = 1)
    (hcontent : d.content = if d.type = .dir then dots ip dp else [])
    (hnone : lookup (D dp).content name = none)
    (h' : At v' n (update (update D ip d) dp (parentOf D dp d.type)) (incr (incr R dp) ip)
      (lockedBoth dp ip)) :
    wp (do
      if ← dirlink dp name ip then
        iunlockput dp
        return some ip
      else panic .createDirlink) E v' fun r v'' => r = some ip ∧ CanCreate n D dp ip name d ∧
        At v'' n (createIn D dp ip name d) (incr R ip) (lockedOnly ip) := by
  have hne : dp ≠ ip := by
    rintro rfl
    rw [hk] at hdp
    contradiction
  have hparent : update (update D ip d) dp (parentOf D dp d.type) dp = parentOf D dp d.type :=
    update_self ..
  rw [wp_bind]
  refine wp_mono (h'.wp_dirlink (lockedBoth_left dp ip) (by rw [hparent]; exact hdp)
    (by rw [hparent]; exact (h.linked.dir dp hdp).shape) (hlt.trans_le h.linked.small)
    (fun _ _ _ => h.stops.table) (fun hsome => absurd (by rw [hparent]; exact hnone) hsome)
    fun _ => h.stops.room) fun r v₁ hr => ?_
  rw [hparent] at hr
  obtain ⟨hfound, hroom, h₁⟩ := hr
  obtain rfl : r = true := by
    rw [hfound, parentOf, hnone]
    rfl
  rw [if_pos rfl, update_idem] at h₁
  have hcan : CanCreate n D dp ip name d :=
    ⟨hdp, hk, hpos, hlt, hd, hone, hcontent, hnone, hroom rfl⟩
  have h₁' : At v₁ n (createIn D dp ip name d) (incr (incr R dp) ip) (lockedBoth dp ip) := h₁
  -- the parent has a link or a reference, and one link more does not wrap
  have hkeep : incr (incr R dp) ip dp ≠ 1 ∨ (createIn D dp ip name d dp).nlink ≠ 0 := by
    have htype : (D dp).type ≠ .free := by
      rw [hdp]
      decide
    have hnlink : (createIn D dp ip name d dp).nlink =
        if d.type = .dir then (D dp).nlink + 1 else (D dp).nlink := by simp [createIn]
    have hfits := h.fits dp
    rw [incr_of_ne hne, incr_self, hnlink, h.linked.nlink dp htype, ofNat_succ]
    have hlinked : 0 < links D dp → (if d.type = .dir then Int16.ofNat (links D dp + 1)
        else Int16.ofNat (links D dp)) ≠ 0 := by
      intro hlinks
      split_ifs
      · exact ofNat_ne_zero (Nat.succ_pos _) (by omega)
      · exact ofNat_ne_zero hlinks (by omega)
    obtain hroot | hnames | href := h.linked.kept dp htype
    · exact .inr (hlinked (links_pos (.inl hroot)))
    · exact .inr (hlinked (links_pos (.inr hnames)))
    · exact .inl (by omega)
  rw [if_pos rfl, wp_bind]
  refine wp_mono (h₁'.wp_iunlockput_keep (lockedBoth_left dp ip) (hkeep.imp_right .inl))
    fun _ v₂ h₂ => ?_
  rw [decr_incr_comm, update_lockedBoth_left hne] at h₂
  rw [wp_pure]
  exact ⟨rfl, hcan, h₂⟩

variable {type : InodeType}

theorem Ready.wp_createNew {major minor : Int16} (hdp : (D dp).type = .dir)
    (hk : (D ip).type = .free) (hpos : 0 < ip) (hlt : ip < n) (htype : type ≠ .free)
    (hnone : lookup (D dp).content name = none)
    (h' : At v' n (update D ip ⟨type, 0, 0, 0, []⟩) (incr (incr R dp) ip) (lockedOnly dp)) :
    wp (createNew dp ip name type major minor) E v' fun r v'' => r = some ip ∧
      CanCreate n D dp ip name (newInode type major minor ip dp) ∧
      At v'' n (createIn D dp ip name (newInode type major minor ip dp)) (incr R ip)
        (lockedOnly ip) := by
  have hne : dp ≠ ip := by
    rintro rfl
    rw [hk] at hdp
    contradiction
  have hdplt := (h.linked.bound dp (by rw [hdp]; decide)).2
  rw [createNew, wp_bind]
  refine wp_mono (h'.wp_ilock (by simp) (lockedOnly_of_ne hne.symm) fun hfree => ?_)
    fun _ v₁ hv₁ => ?_
  · rw [update_self] at hfree
    exact absurd hfree htype
  have h₁ : At v₁ n (update D ip ⟨type, 0, 0, 0, []⟩) (incr (incr R dp) ip) (lockedBoth dp ip) :=
    hv₁.1
  refine h₁.wp_modify (lockedBoth_right dp ip) _ rfl fun v₂ h₂ => ?_
  rw [update_idem, update_self] at h₂
  by_cases hdir : type = .dir
  · subst hdir
    rw [if_pos rfl]
    refine h₂.wp_modify (lockedBoth_left dp ip) _ rfl fun v₃ h₃ => ?_
    rw [update_of_ne hne] at h₃
    have hlt' : ip < 2 ^ 16 := hlt.trans_le h.linked.small
    refine wp_linkDots h.stops ?_ ?_ hlt' (hdplt.trans_le h.linked.small)
      (lockedBoth_right dp ip) h₃ fun v₄ h₄ => ?_
    · rw [update_of_ne hne.symm, update_self]
    · rw [update_of_ne hne.symm, update_self]
    · rw [update_of_ne hne.symm, update_self, update_comm hne.symm, update_idem] at h₄
      refine h.wp_createEnd hdp hk hpos hlt (by simp [newInode]) rfl rfl hnone ?_
      rw [update_comm hne.symm]
      simpa [newInode, parentOf] using h₄
  · rw [if_neg hdir]
    refine h.wp_createEnd hdp hk hpos hlt (by simpa [newInode] using htype) rfl rfl hnone ?_
    have hself : update (update D ip (newInode type major minor ip dp)) dp
        (parentOf D dp (newInode type major minor ip dp).type) =
        update D ip ⟨type, major, minor, 1, []⟩ := by
      have hd : newInode type major minor ip dp = ⟨type, major, minor, 1, []⟩ := by
        simp [newInode, hdir]
      have hp : parentOf D dp type = update D ip ⟨type, major, minor, 1, []⟩ dp := by
        rw [update_of_ne hne]
        simp [parentOf, hdir]
      rw [hd, hp, update_eq_self]
    rw [hself]
    exact h₂

/-- What `create` returns, locked: nothing, an inode that was there, or a new one. -/
def Created (v' : Volume) (n : ℕ) (D : ℕ → Inode) (R : ℕ → ℕ) (type : InodeType) :
    Option ℕ → Prop
  | none => At v' n D R unlocked
  | some ip =>
    (type = .file ∧ (D ip).type ≠ .free ∧ At v' n D (incr R ip) (lockedOnly ip)) ∨
    ∃ dp name d, CanCreate n D dp ip name d ∧ d.type = type ∧
      At v' n (createIn D dp ip name d) (incr R ip) (lockedOnly ip)

theorem Ready.wp_create (htype : type ≠ .free) (major minor : Int16) :
    wp (create cwd path type major minor) E v fun r v' => Created v' n D R type r := by
  rw [create, wp_bind]
  refine wp_mono (h.wp_nameiparent path) fun r v₁ hr => ?_
  obtain ⟨found, name⟩ := r
  obtain ⟨hdir, h₁⟩ := hr
  cases found with
  | none =>
    rw [wp_pure]
    exact h₁
  | some dp =>
    have hdp := hdir dp rfl
    have hpos : 0 < incr R dp dp := by simp
    rw [wp_bind]
    refine wp_mono (At.wp_ilock h₁ hpos rfl fun hfree => ?_) fun _ v₂ hv₂ => ?_
    · rw [hdp] at hfree
      contradiction
    have h₂ : At v₂ n D (incr R dp) (lockedOnly dp) := hv₂.1
    rw [wp_bind]
    refine wp_mono (h₂.wp_dirlookup (lockedOnly_self dp) hdp (h.linked.dir dp hdp).shape
      fun _ _ _ => h.stops.table) fun r v₃ hr => ?_
    obtain ⟨hlookup, h₃⟩ := hr
    cases r with
    | some pair =>
      obtain ⟨ip, off⟩ := pair
      have hchild : child D dp name = some ip := by
        rw [child, if_pos hdp, ← hlookup]
        rfl
      have h₃' : At v₃ n D (incr (incr R dp) ip) (lockedOnly dp) := h₃
      have hkeep : incr (incr R dp) ip dp ≠ 1 ∨ (D dp).nlink ≠ 0 ∨ (D dp).type = .free := by
        refine h.walkable.keep ?_
        rw [← incr_self]
        exact le_incr ..
      simp only [wp_bind]
      refine wp_mono (h₃'.wp_iunlockput_keep (lockedOnly_self dp) hkeep) fun _ v₄ h₄ => ?_
      rw [decr_incr_comm, update_lockedOnly] at h₄
      refine wp_mono (h₄.wp_ilock (by simp) rfl (h.dangling dp name ip hchild)) fun _ v₅ hv₅ => ?_
      have h₅ : At v₅ n D (incr R ip) (lockedOnly ip) := hv₅.1
      simp only [wp_getSlot]
      split_ifs with hfile
      · rw [wp_pure]
        exact .inl ⟨hfile.1, hv₅.2, h₅⟩
      · rw [wp_bind]
        refine wp_mono (h.walkable.wp_iunlockput h₅) fun _ v₆ h₆ => ?_
        rw [wp_pure]
        exact h₆
    | none =>
      have hunused : ∀ k, (D k).type = .free → incr R dp k = 0 := by
        intro k hk
        have hne : k ≠ dp := by
          rintro rfl
          rw [hk] at hdp
          contradiction
        rw [incr_of_ne hne]
        exact h.linked.unused k hk
      simp only [wp_bind]
      refine wp_mono (At.wp_ialloc h₃ hunused h.stops.inodes h.stops.table) fun ip v₄ hv₄ => ?_
      obtain ⟨hpos', hlt, hfree, h₄⟩ := hv₄
      refine wp_mono (h.wp_createNew hdp hfree hpos' hlt htype hlookup.symm h₄) fun r v₅ hr => ?_
      obtain ⟨rfl, hcan, h₅⟩ := hr
      exact .inr ⟨dp, name, _, hcan, rfl, h₅⟩

/-- `sys_mkdir` and `sys_mknod` give the inode up. -/
theorem Ready.wp_create_release {r : Option ℕ} (hr : Created v' n D R type r) :
    wp (match r with
      | none => return false
      | some ip => do
        iunlockput ip
        return true) E v' fun _ v'' => ∃ D', Effect n D R D' R ∧ At v'' n D' R unlocked := by
  cases r with
  | none =>
    rw [wp_pure]
    exact ⟨D, .same, hr⟩
  | some ip =>
    simp only [wp_bind]
    obtain ⟨-, -, hv'⟩ | ⟨dp, name, d, hcan, -, hv'⟩ := hr
    · refine wp_mono (h.walkable.wp_iunlockput hv') fun _ v₁ h₁ => ?_
      rw [wp_pure]
      exact ⟨D, .same, h₁⟩
    · have hnlink : (createIn D dp ip name d ip).nlink ≠ 0 := by
        have hne : ip ≠ dp := by
          rintro rfl
          exact absurd hcan.free (by rw [hcan.dir]; decide)
        rw [createIn, update_of_ne hne, update_self, hcan.one]
        decide
      refine wp_mono (hv'.wp_iunlockput_keep (lockedOnly_self ip) (.inr (.inl hnlink)))
        fun _ v₁ h₁ => ?_
      rw [decr_incr, update_lockedOnly] at h₁
      rw [wp_pure]
      exact ⟨_, .create hcan fun _ _ => rfl, h₁⟩

theorem Ready.wp_sysMkdir :
    wp (sysMkdir cwd path) E v fun _ v' => ∃ D', Effect n D R D' R ∧ At v' n D' R unlocked := by
  rw [sysMkdir, wp_bind]
  exact wp_mono (h.wp_create path (by decide) 0 0) fun _ _ => h.wp_create_release

theorem Ready.wp_sysMknod (major minor : Int16) :
    wp (sysMknod cwd path major minor) E v fun _ v' =>
      ∃ D', Effect n D R D' R ∧ At v' n D' R unlocked := by
  rw [sysMknod, wp_bind]
  exact wp_mono (h.wp_create path (by decide) major minor) fun _ _ => h.wp_create_release

theorem Ready.wp_sysCreate (available : Bool) :
    wp (sysCreate cwd path available) E v fun r v' =>
      ∃ D', Effect n D R D' (incrOpt R r) ∧ At v' n D' (incrOpt R r) unlocked := by
  rw [sysCreate, wp_bind]
  refine wp_mono (h.wp_create path (by decide) 0 0) fun r v₁ hr => ?_
  cases r with
  | none =>
    rw [wp_pure]
    exact ⟨D, .same, hr⟩
  | some ip =>
    cases available with
    | true =>
      simp only [if_true, wp_bind]
      obtain ⟨-, htype, h₁⟩ | ⟨dp, name, d, hcan, -, h₁⟩ := hr
      · refine wp_mono (h₁.wp_iunlock (lockedOnly_self ip)) fun _ v₂ h₂ => ?_
        rw [update_lockedOnly] at h₂
        rw [wp_pure]
        exact ⟨D, .hold htype, h₂.1⟩
      · refine wp_mono (h₁.wp_iunlock (lockedOnly_self ip)) fun _ v₂ h₂ => ?_
        rw [update_lockedOnly] at h₂
        rw [wp_pure]
        exact ⟨_, .create hcan fun j hj => incr_of_ne hj, h₂.1⟩
    | false =>
      have hrelease := h.wp_create_release hr
      simp only [Bool.false_eq_true, if_false, wp_bind, wp_pure] at hrelease ⊢
      exact hrelease

end

end rules
end Xv6.Fs
