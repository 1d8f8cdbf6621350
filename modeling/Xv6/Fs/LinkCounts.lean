import Xv6.Fs.CallSpec

/-! Runs of the calls that make and remove links, and when `nlink` is the number of links. -/
namespace Xv6.Fs
open Program RefCount Function Runs

/-- A call by a process with the current directory `cwd`. -/
inductive Call where
  | link (cwd : ℕ) (old new : List Byte)
  | unlink (cwd : ℕ) (path : List Byte)
  | mkdir (cwd : ℕ) (path : List Byte)
  | mknod (cwd : ℕ) (path : List Byte) (major minor : Int16)
  | create (cwd : ℕ) (path : List Byte) (available : Bool)
  deriving DecidableEq, Repr

def Call.cwd : Call → ℕ
  | link cwd _ _ | unlink cwd _ | mkdir cwd _ | mknod cwd _ _ _ | create cwd _ _ => cwd

def Call.run : Call → FsM Unit
  | link cwd old new => do let _ ← sysLink cwd old new
  | unlink cwd path => do let _ ← sysUnlink cwd path
  | mkdir cwd path => do let _ ← sysMkdir cwd path
  | mknod cwd path major minor => do let _ ← sysMknod cwd path major minor
  | create cwd path available => do let _ ← sysCreate cwd path available

def step (v : Volume) (c : Call) : Except Stop Volume := exec c.run v

/-- `nlink` is the number of links, on the disk and in the table, and no entry names an inode that
has been freed. -/
structure LinksRight (v : Volume) : Prop where
  disk : ∀ i, (v.disk i).type ≠ .free → (v.disk i).nlink.toInt = links v.disk i
  table : ∀ i, 0 < (v.table i).ref → (v.table i).valid →
    (v.table i).inode.nlink.toInt = links v.disk i
  named : ∀ p i, entry v.disk p = some i → (v.disk i).type ≠ .free
  root : (v.disk rootino).type ≠ .free

/-- The stops that have nothing to do with link counts: no room in the table, on the disk or in a
directory, or a path that goes through the entry `..` of a directory whose parent is gone. -/
def OtherStop (e : Stop) : Prop :=
  e = .panic .iget ∨ e = .panic .ialloc ∨ e = .panic .dirlink ∨ e = .panic .ilockNoType

theorem otherStop_tolerates : Tolerates OtherStop := ⟨.inl rfl, .inr (.inl rfl), .inr (.inr (.inl rfl))⟩

section runs
variable {v w : Volume} {n : ℕ} {D : ℕ → Inode} {R : ℕ → ℕ}

theorem le_incrOpt (R : ℕ → ℕ) (r : Option ℕ) (i : ℕ) : R i ≤ incrOpt R r i := by
  cases r with
  | none => exact le_rfl
  | some j => exact le_incr ..

theorem Call.wp_run {c : Call} {E : Stop → Prop} (h : Ready E v n D R c.cwd) :
    wp c.run E v fun _ v' =>
      ∃ D' R', Effect n D R D' R' ∧ At v' n D' R' unlocked ∧ ∀ i, R i ≤ R' i := by
  have hkeep : ∀ v', (∃ D', Effect n D R D' R ∧ At v' n D' R unlocked) →
      ∃ D' R', Effect n D R D' R' ∧ At v' n D' R' unlocked ∧ ∀ i, R i ≤ R' i := by
    rintro v' ⟨D', he, hv'⟩
    exact ⟨D', R, he, hv', fun _ => le_rfl⟩
  cases c with
  | link cwd old new =>
    simp only [Call.run, wp_bind, wp_pure]
    exact wp_mono (h.wp_sysLink old new) fun _ => hkeep
  | unlink cwd path =>
    simp only [Call.run, wp_bind, wp_pure]
    exact wp_mono (h.wp_sysUnlink path) fun _ => hkeep
  | mkdir cwd path =>
    simp only [Call.run, wp_bind, wp_pure]
    exact wp_mono (h.wp_sysMkdir path) fun _ => hkeep
  | mknod cwd path major minor =>
    simp only [Call.run, wp_bind, wp_pure]
    exact wp_mono (h.wp_sysMknod path major minor) fun _ => hkeep
  | create cwd path available =>
    simp only [Call.run, wp_bind, wp_pure]
    refine wp_mono (h.wp_sysCreate path available) fun r v' hv' => ?_
    obtain ⟨D', he, hv'⟩ := hv'
    exact ⟨D', _, he, hv', le_incrOpt R r⟩

/-- What holds between the calls of a run, as long as the numbers of links fit. -/
structure RunInv (n : ℕ) (R : ℕ → ℕ) (D' : ℕ → Inode) (R' : ℕ → ℕ) (w : Volume) : Prop where
  at_ : At w n D' R' unlocked
  linked : Linked n D' R'
  refs : ∀ i, R i ≤ R' i

variable {D' : ℕ → Inode} {R' : ℕ → ℕ}

theorem RunInv.ready {cwd : ℕ} (h : RunInv n R D' R' w) (hfits : Fits w.disk)
    (hcwd : 0 < R cwd) : Ready OtherStop w n D' R' cwd :=
  ⟨h.at_, h.linked, h.at_.disk ▸ hfits, otherStop_tolerates,
    fun _ _ _ _ _ => .inr (.inr (.inr rfl)), hcwd.trans_le (h.refs cwd)⟩

theorem RunInv.step {c : Call} (h : RunInv n R D' R' w) (hfits : Fits w.disk)
    (hcwd : 0 < R c.cwd) : wp c.run OtherStop w fun _ w' => ∃ D'' R'', RunInv n R D'' R'' w' := by
  refine wp_mono (Call.wp_run (h.ready hfits hcwd)) fun _ w' hw' => ?_
  obtain ⟨D'', R'', heffect, hat, href⟩ := hw'
  exact ⟨D'', R'', hat, heffect.linked h.linked (h.at_.disk ▸ hfits),
    fun i => (h.refs i).trans (href i)⟩

theorem RunInv.right (h : RunInv n R D' R' w) (hfits : Fits w.disk) : LinksRight w := by
  have hdisk : ∀ i, (w.disk i).type ≠ .free → (w.disk i).nlink.toInt = links w.disk i := by
    intro i hi
    have hnlink := h.linked.nlink i (h.at_.disk ▸ hi)
    rw [← h.at_.disk] at hnlink
    rw [hnlink, Int16.toInt_ofNat_of_lt (hfits i)]
  refine ⟨hdisk, fun i href hvalid => ?_, fun p i hp => ?_, ?_⟩
  · rw [h.at_.ref] at href
    rw [h.at_.copy i href hvalid]
    have htype := h.at_.typed i href hvalid
    rw [← h.at_.disk] at htype ⊢
    exact hdisk i htype
  · rw [h.at_.disk] at hp ⊢
    exact (h.linked.named p i hp).1
  · rw [h.at_.disk, h.linked.root]
    decide

theorem LinksRight.fits (h : LinksRight w) : Fits w.disk := by
  intro i
  by_cases htype : (w.disk i).type = .free
  · -- nothing names it, and it names nothing
    have hnames : refCount (entry w.disk) i = 0 := by
      by_contra hne
      obtain ⟨p, hp⟩ := exists_of_refCount_pos (Nat.pos_of_ne_zero hne)
      exact h.named p i hp htype
    have hup : refCount (upward w.disk) i = 0 :=
      refCount_upward_eq_zero (Inode.target_eq_none_of_type (by simp [htype]))
    have hroot : i ≠ rootino := by
      rintro rfl
      exact h.root htype
    rw [links, hnames, hup, if_neg hroot]
    decide
  · have hlt := Int16.toInt_lt (w.disk i).nlink
    rw [h.disk i htype] at hlt
    omega

end runs

/-- A disk with nothing but an empty root directory. -/
def emptyDisk (i : ℕ) : Inode :=
  if i = rootino then ⟨.dir, 0, 0, 1, dots 1 1⟩ else ⟨.free, 0, 0, 0, []⟩

/-- The root is the current directory of a process. -/
def rootRefs (i : ℕ) : ℕ := if i = rootino then 1 else 0

end Xv6.Fs
