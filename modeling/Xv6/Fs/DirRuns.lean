import Xv6.Fs.LinkCounts

/-! A directory under any sequence of `dirlink` and of the removals of `sys_unlink` is a finite map
from names to inodes. -/
namespace Xv6.Fs
open Program Function

/-- Inode numbers that an entry can hold. -/
abbrev Inum := {i : ℕ // i ≠ 0 ∧ i < 2 ^ 16}

inductive DirOp where
  | link (name : List Byte) (inum : Inum)
  | remove (name : List Byte)

/-- The operation on the locked directory `dp`; a removal also drops its reference to the inode. -/
def DirOp.run (dp : ℕ) : DirOp → FsM Unit
  | link name inum => do let _ ← dirlink dp name inum.1
  | remove name => do
    if namecmp name dot = 0 ∨ namecmp name dotdot = 0 then return
    else
      match ← dirlookup dp name with
      | none => return
      | some (i, off) => do
        clearEntry dp off
        iput i

def runAll (dp : ℕ) : List DirOp → FsM Unit
  | [] => return
  | op :: ops => do
    op.run dp
    runAll dp ops

/-- What the operation does to a map from names to inodes, for which names with the same first
`DIRSIZ` characters are the same. -/
def DirOp.apply (m : List Byte → Option ℕ) : DirOp → List Byte → Option ℕ
  | link name inum => fun name' =>
    if m name = none ∧ key dirsiz name' = key dirsiz name then some inum.1 else m name'
  | remove name => fun name' =>
    if key dirsiz name ≠ key dirsiz dot ∧ key dirsiz name ≠ key dirsiz dotdot ∧
      key dirsiz name' = key dirsiz name then none else m name'

/-- The map that a directory with the content `c` is. -/
def contents (c name : List Byte) : Option ℕ := (lookup c name).map Prod.fst

/-- The inode table or the directory is full. -/
def DirStop (e : Stop) : Prop := e = .panic .iget ∨ e = .panic .dirlink

/-- The directory `dp` of `v` is well formed and is the map `m`; all other inodes are those of
`D`. -/
structure IsDir (v : Volume) (n : ℕ) (D : ℕ → Inode) (L : ℕ → Bool) (dp : ℕ)
    (m : List Byte → Option ℕ) : Prop where
  ex : ∃ c R, At v n (update D dp { D dp with content := c }) R L ∧ DirMap c ∧ contents c = m ∧
    ∀ i, R i ≠ 0 ∨ (D i).nlink ≠ 0 ∨ (D i).type = .free

section runs
variable {v : Volume} {n dp : ℕ} {D : ℕ → Inode} {L : ℕ → Bool} {m : List Byte → Option ℕ}
  {c : List Byte}

/-- One operation on the directory is the operation on the map. -/
theorem IsDir.wp_run (h : IsDir v n D L dp m) (hL : L dp = true) (htype : (D dp).type = .dir)
    (op : DirOp) : wp (op.run dp) DirStop v fun _ v' => IsDir v' n D L dp (op.apply m) := by
  obtain ⟨c, R, hat, hmap, rfl, hkept⟩ := h.ex
  have hself : update D dp { D dp with content := c } dp = { D dp with content := c } :=
    update_self ..
  have hfull : ∀ i, R i = 0 → ninode ≤ inUse n R → DirStop (.panic .iget) := fun _ _ _ => .inl rfl
  have hkept' : ∀ c i, R i + 1 ≠ 1 ∨ (update D dp { D dp with content := c } i).nlink ≠ 0 ∨
      (update D dp { D dp with content := c } i).type = .free := by
    intro c i
    obtain href | hrest := hkept i
    · exact .inl (by omega)
    · by_cases hi : i = dp
      · subst hi
        rw [update_self]
        exact .inr hrest
      · rw [update_of_ne hi]
        exact .inr hrest
  cases op with
  | link name inum =>
    simp only [DirOp.run, wp_bind, wp_pure]
    refine wp_mono (hat.wp_dirlink hL (by rw [hself]; exact htype) (by rw [hself]; exact hmap.shape)
      inum.2.2 hfull (fun _ => hkept' c) fun _ => .inr rfl) fun r v' hr => ?_
    rw [hself] at hr
    obtain ⟨hr, hroom, hat'⟩ := hr
    cases hl : lookup c name with
    | some pair =>
      obtain rfl : r = false := by rw [hr, hl]; rfl
      refine ⟨c, R, hat', hmap, ?_, hkept⟩
      funext name'
      have hsome : contents c name ≠ none := by simp [contents, hl]
      exact (if_neg fun hand => hsome hand.1).symm
    | none =>
      obtain rfl : r = true := by rw [hr, hl]; rfl
      rw [if_pos rfl, update_idem] at hat'
      refine ⟨linked c name inum.1, R, hat', hmap.linked inum.2.2 hl (hroom rfl), ?_, hkept⟩
      funext name'
      have hnone : contents c name = none := by rw [contents, hl]; rfl
      rw [contents, hmap.lookup_linked inum.2.1 inum.2.2 hl (hroom rfl), DirOp.apply]
      simp only [hnone, true_and]
      rfl
  | remove name =>
    rw [DirOp.run]
    by_cases hdots : namecmp name dot = 0 ∨ namecmp name dotdot = 0
    · rw [if_pos hdots, wp_pure]
      refine ⟨c, R, hat, hmap, ?_, hkept⟩
      funext name'
      rw [namecmp_eq_zero, namecmp_eq_zero] at hdots
      exact (if_neg fun hand => hdots.elim hand.1 hand.2.1).symm
    · rw [if_neg hdots, wp_bind]
      rw [namecmp_eq_zero, namecmp_eq_zero, not_or] at hdots
      refine wp_mono (hat.wp_dirlookup hL (by rw [hself]; exact htype)
        (by rw [hself]; exact hmap.shape) hfull) fun r v₁ hr => ?_
      rw [hself] at hr
      obtain ⟨hr, hat₁⟩ := hr
      dsimp only at hr
      cases r with
      | none =>
        rw [wp_pure]
        refine ⟨c, R, hat₁, hmap, ?_, hkept⟩
        funext name'
        simp only [DirOp.apply]
        split_ifs with hand
        · rw [contents, lookup_congr hand.2.2, ← hr]
          rfl
        · rfl
      | some pair =>
        obtain ⟨i, off⟩ := pair
        obtain ⟨k, hk, hnamed, rfl, rfl⟩ := exists_of_lookup hr.symm
        have htwo : 2 ≤ k := by
          by_contra hlt
          have hkey := (Dirent.named_iff.1 hnamed).2
          obtain rfl | rfl : k = 0 ∨ k = 1 := by omega
          · exact hdots.1 (hkey.trans (Dirent.named_iff.1 hmap.dot).2.symm)
          · exact hdots.2 (hkey.trans (Dirent.named_iff.1 hmap.dotdot).2.symm)
        rw [wp_bind]
        refine wp_mono (hat₁.wp_clearEntry hL (by rw [hself]; exact hmap.shape)
          (by rw [hself]; exact hk)) fun _ v₂ hat₂ => ?_
        rw [hself, update_idem] at hat₂
        simp only [Option.map_some, incrOpt] at hat₂
        refine wp_mono (hat₂.wp_iput_keep (by simp) (fun hl => ?_) ?_) fun _ v₃ hat₃ => ?_
        · rw [incr_self]
          exact Nat.succ_lt_succ (hat.held _ hl).1
        · rw [incr_self]
          exact hkept' _ _
        · rw [decr_incr] at hat₃
          refine ⟨cleared c k, R, hat₃, hmap.cleared htwo hk, ?_, hkept⟩
          funext name'
          rw [contents, hmap.lookup_cleared htwo hk hnamed, DirOp.apply]
          simp only [ne_eq, hdots.1, hdots.2, not_false_eq_true, true_and]
          split_ifs <;> rfl

/-- A directory is the map that the operations make of the one it was, and `dirlookup` finds what
the map says. -/
theorem directory_is_map (h : IsDir v n D L dp m) (hL : L dp = true) (htype : (D dp).type = .dir)
    (ops : List DirOp) :
    wp (runAll dp ops) DirStop v fun _ v' =>
      IsDir v' n D L dp (ops.foldl DirOp.apply m) ∧
      ∀ name, wp (dirlookup dp name) DirStop v' fun r _ =>
        r.map Prod.fst = ops.foldl DirOp.apply m name := by
  induction ops generalizing v m with
  | nil =>
    rw [runAll, wp_pure]
    refine ⟨h, fun name => ?_⟩
    obtain ⟨c, R, hat, hmap, rfl, -⟩ := h.ex
    have hself : update D dp { D dp with content := c } dp = { D dp with content := c } :=
      update_self ..
    refine wp_mono (hat.wp_dirlookup hL (by rw [hself]; exact htype) (by rw [hself]; exact hmap.shape)
      fun _ _ _ => .inl rfl) fun r v' hr => ?_
    rw [hself] at hr
    rw [hr.1]
    rfl
  | cons op ops ih =>
    rw [runAll, wp_bind]
    exact wp_mono (h.wp_run hL htype op) fun _ v' hv' => ih hv'

end runs

/-- The root directory of the empty disk, locked. -/
def lockedRoot : Volume :=
  ⟨200, emptyDisk, fun i => ⟨rootRefs i, true, lockedOnly rootino i, emptyDisk i⟩⟩

theorem lockedRoot_isDir :
    IsDir lockedRoot 200 emptyDisk (lockedOnly rootino) rootino (contents (dots 1 1)) := by
  have hself : update emptyDisk rootino { emptyDisk rootino with content := dots 1 1 } = emptyDisk :=
    update_eq_self ..
  refine ⟨dots 1 1, rootRefs, ?_, dots_map (by decide) (by decide) (by decide) (by decide), rfl,
    fun i => ?_⟩
  · rw [hself]
    refine ⟨rfl, rfl, fun _ => rfl, fun _ => rfl, fun _ _ _ => rfl, fun i hi _ => ?_, fun i hi => ?_⟩
    · have hroot : i = rootino := by
        by_contra hne
        rw [rootRefs, if_neg hne] at hi
        omega
      rw [hroot]
      decide
    · have hroot : i = rootino := by
        by_contra hne
        rw [lockedOnly_of_ne hne] at hi
        contradiction
      rw [hroot]
      decide
  · by_cases hroot : i = rootino
    · exact .inl (by simp [rootRefs, hroot])
    · exact .inr (.inr (by simp [emptyDisk, hroot]))

/-- A name is entered, again for another inode, and removed. -/
def sampleDirOps : List DirOp :=
  [.link [97] ⟨2, by decide⟩, .link [97] ⟨3, by decide⟩, .remove [97]]

theorem directory_is_map_root :
    wp (runAll rootino sampleDirOps) DirStop lockedRoot fun _ v' =>
      IsDir v' 200 emptyDisk (lockedOnly rootino) rootino
        (sampleDirOps.foldl DirOp.apply (contents (dots 1 1))) ∧
      ∀ name, wp (dirlookup rootino name) DirStop v' fun r _ =>
        r.map Prod.fst = sampleDirOps.foldl DirOp.apply (contents (dots 1 1)) name :=
  directory_is_map lockedRoot_isDir (lockedOnly_self rootino) rfl _

end Xv6.Fs
