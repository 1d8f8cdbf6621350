import Xv6.Fs.Inode

/-! What the functions on inodes do, in terms of the inodes on disk, the references and the locks:
which entry of the table has a valid copy is of no consequence. -/
namespace Xv6.Fs
open Program Function

/-- The disk has the inodes `D`, and the table has the references `R` and the locks `L`; copies in
the table agree with the disk, and there are none of free inodes. -/
structure At (v : Volume) (n : ℕ) (D : ℕ → Inode) (R : ℕ → ℕ) (L : ℕ → Bool) : Prop where
  ninodes : v.ninodes = n
  disk : v.disk = D
  ref : ∀ i, (v.table i).ref = R i
  locked : ∀ i, (v.table i).locked = L i
  copy : ∀ i, 0 < R i → (v.table i).valid → (v.table i).inode = D i
  typed : ∀ i, 0 < R i → (v.table i).valid → (D i).type ≠ .free
  held : ∀ i, L i → 0 < R i ∧ (v.table i).valid

/-- The number of inodes with a reference. -/
def inUse (n : ℕ) (R : ℕ → ℕ) : ℕ := (List.range n).countP fun i => 0 < R i

/-- The references with one more to `i`. -/
def incr (R : ℕ → ℕ) (i : ℕ) : ℕ → ℕ := update R i (R i + 1)

/-- The references with one less to `i`. -/
def decr (R : ℕ → ℕ) (i : ℕ) : ℕ → ℕ := update R i (R i - 1)

@[simp] theorem incr_self (R : ℕ → ℕ) (i : ℕ) : incr R i i = R i + 1 := update_self ..

theorem incr_of_ne {R : ℕ → ℕ} {i j : ℕ} (h : j ≠ i) : incr R i j = R j := update_of_ne h ..

@[simp] theorem decr_incr (R : ℕ → ℕ) (i : ℕ) : decr (incr R i) i = R := by
  simp [decr, incr]

theorem le_incr (R : ℕ → ℕ) (i j : ℕ) : R j ≤ incr R i j := by
  by_cases h : j = i
  · rw [h, incr_self]
    exact Nat.le_succ _
  · exact (incr_of_ne h).ge

theorem decr_incr_comm (R : ℕ → ℕ) (i j : ℕ) : decr (incr (incr R i) j) i = incr R j := by
  funext k
  unfold decr incr
  by_cases hi : k = i <;> by_cases hj : k = j <;> simp_all [update_apply]

theorem inUse_succ (n : ℕ) (R : ℕ → ℕ) :
    inUse (n + 1) R = inUse n R + if 0 < R n then 1 else 0 := by
  simp [inUse, List.range_succ, List.countP_append, List.countP_singleton]

theorem inUse_incr_le (n : ℕ) (R : ℕ → ℕ) (i : ℕ) : inUse n (incr R i) ≤ inUse n R + 1 := by
  -- below `i` the counts agree
  have hbelow : ∀ m ≤ i, inUse m (incr R i) = inUse m R := by
    intro m hm
    induction m with
    | zero => rfl
    | succ m ih => rw [inUse_succ, inUse_succ, ih (by omega), incr_of_ne (by omega)]
  induction n with
  | zero => exact Nat.zero_le _
  | succ n ih =>
    by_cases hn : n = i
    · rw [inUse_succ, inUse_succ, hbelow n hn.le]
      split_ifs <;> omega
    · rw [inUse_succ, inUse_succ, incr_of_ne hn]
      omega

/-- An inode that `iput` has freed. -/
def Inode.freed (d : Inode) : Inode := { d with type := .free, content := [] }

section rules
variable {E : Stop → Prop} {v : Volume} {n i : ℕ} {D : ℕ → Inode} {R : ℕ → ℕ} {L : ℕ → Bool}

@[simp] theorem wp_getSlot {Q : Slot → Volume → Prop} :
    wp (getSlot i) E v Q ↔ Q (v.table i) v := by
  simp [getSlot]

variable {Q : Unit → Volume → Prop}

@[simp] theorem wp_setSlot {sl : Slot} : wp (setSlot i sl) E v Q ↔ Q () (v.setSlot i sl) := by
  simp [setSlot]

@[simp] theorem wp_panic {α : Type} {p : Panic} {Q : α → Volume → Prop} :
    wp (panic p) E v Q ↔ E (.panic p) := by
  simp [panic]

@[simp] theorem wp_modifyInode {f : Inode → Inode} :
    wp (modifyInode i f) E v Q ↔
      Q () (v.setSlot i { v.table i with inode := f (v.table i).inode }) := by
  simp [modifyInode]

@[simp] theorem wp_iupdate : wp (iupdate i) E v Q ↔ Q () (v.setDisk i (v.table i).inode) := by
  simp [iupdate]

section
variable (h : At v n D R L)
include h

theorem At.inUse_eq : v.inUse = inUse n R := by
  simp only [Volume.inUse, inUse, h.ninodes, h.ref]

/-- The entry of `i` has been replaced. -/
theorem At.setSlot {sl : Slot} {R' : ℕ → ℕ} {L' : ℕ → Bool} (hR : update R i sl.ref = R')
    (hL : update L i sl.locked = L')
    (hcopy : 0 < sl.ref → sl.valid → sl.inode = D i ∧ (D i).type ≠ .free)
    (hheld : sl.locked → 0 < sl.ref ∧ sl.valid) : At (v.setSlot i sl) n D R' L' := by
  subst hR hL
  refine ⟨h.ninodes, h.disk, fun j => ?_, fun j => ?_, fun j => ?_, fun j => ?_, fun j => ?_⟩ <;>
    by_cases hj : j = i
  · subst hj
    simp [Volume.setSlot]
  · simp [Volume.setSlot, hj, h.ref]
  · subst hj
    simp [Volume.setSlot]
  · simp [Volume.setSlot, hj, h.locked]
  · subst hj
    simpa [Volume.setSlot] using fun hr hv => (hcopy hr hv).1
  · simpa [Volume.setSlot, hj] using h.copy j
  · subst hj
    simpa [Volume.setSlot] using fun hr hv => (hcopy hr hv).2
  · simpa [Volume.setSlot, hj] using h.typed j
  · subst hj
    simpa [Volume.setSlot] using hheld
  · simpa [Volume.setSlot, hj] using h.held j

theorem At.copied (hR : 0 < R i) (hv : (v.table i).valid) :
    (v.table i).inode = D i ∧ (D i).type ≠ .free :=
  ⟨h.copy i hR hv, h.typed i hR hv⟩

theorem At.valid_copy (hL : L i) : (v.table i).inode = D i :=
  h.copy i (h.held i hL).1 (h.held i hL).2

theorem At.unlocked (hR : R i = 0) : L i = false := by
  by_contra hL
  have := (h.held i (by simpa using hL)).1
  omega

theorem At.lock_eq : update L i (v.table i).locked = L := by
  rw [h.locked, update_eq_self]

theorem At.wp_iget (hfull : R i = 0 → ninode ≤ inUse n R → E (.panic .iget)) :
    wp (iget i) E v fun r v' => r = i ∧ At v' n D (incr R i) L := by
  simp only [iget, wp_bind, wp_get]
  split_ifs with href hroom
  · simp only [wp_bind, wp_setSlot, wp_pure, true_and]
    refine h.setSlot (by rw [h.ref, incr]) h.lock_eq (fun _ hv => h.copied (h.ref i ▸ href) hv)
      fun hl => ?_
    rw [h.locked] at hl
    exact ⟨Nat.succ_pos _, (h.held i hl).2⟩
  · have hzero : R i = 0 := by
      rw [← h.ref]
      omega
    simp only [wp_bind, wp_setSlot, wp_pure, true_and]
    refine h.setSlot (by rw [incr, hzero]) ?_ (fun _ hv => by contradiction)
      fun hl => by contradiction
    rw [← h.unlocked hzero, update_eq_self]
  · simp only [wp_panic]
    rw [h.ref] at href
    rw [h.inUse_eq] at hroom
    exact hfull (by omega) (by omega)

theorem At.wp_idup (hR : 0 < R i) : wp (idup i) E v fun r v' => r = i ∧ At v' n D (incr R i) L := by
  simp only [idup, wp_bind, wp_getSlot, wp_setSlot, wp_pure, true_and]
  refine h.setSlot (by rw [h.ref, incr]) h.lock_eq (fun _ hv => h.copied hR hv) fun hl => ?_
  rw [h.locked] at hl
  exact ⟨Nat.succ_pos _, (h.held i hl).2⟩

/-- `ilock` of an inode that is not locked. -/
theorem At.wp_ilock (hR : 0 < R i) (hL : L i = false)
    (hfree : (D i).type = .free → E (.panic .ilockNoType)) :
    wp (ilock i) E v fun _ v' => At v' n D R (update L i true) ∧ (D i).type ≠ .free := by
  have href : ¬ (v.table i).ref < 1 := by
    rw [h.ref]
    omega
  have hunlocked : (v.table i).locked = false := by rw [h.locked, hL]
  have hslot : ∀ sl : Slot, sl.ref = (v.table i).ref → sl.locked = true → sl.valid = true →
      sl.inode = D i → (D i).type ≠ .free →
      At (v.setSlot i sl) n D R (update L i true) ∧ (D i).type ≠ .free := by
    intro sl hsref hlocked hvalid hinode htype
    refine ⟨h.setSlot (by rw [hsref, h.ref, update_eq_self]) (by rw [hlocked])
      (fun _ _ => ⟨hinode, htype⟩) fun _ => ⟨?_, hvalid⟩, htype⟩
    rw [hsref, h.ref]
    exact hR
  simp only [ilock, acquiresleep, wp_bind, wp_getSlot, href, if_false, hunlocked,
    Bool.false_eq_true, wp_setSlot, Volume.setSlot_self]
  split_ifs with hvalid
  · rw [wp_pure]
    exact hslot _ rfl rfl hvalid (h.copy i hR hvalid) (h.typed i hR hvalid)
  · simp only [wp_bind, wp_get, wp_setSlot, Volume.setSlot_setSlot, wp_ite, wp_panic, wp_pure]
    rw [Volume.setSlot_disk, h.disk]
    exact ⟨hfree, hslot _ rfl rfl rfl rfl⟩

theorem At.wp_iunlock (hL : L i = true) :
    wp (iunlock i) E v fun _ v' => At v' n D R (update L i false) ∧ (v'.table i).valid = true := by
  obtain ⟨hR, hvalid⟩ := h.held i hL
  have hcond : (!(v.table i).locked || decide ((v.table i).ref < 1)) = false := by
    rw [h.locked, h.ref, hL]
    simp
    omega
  simp only [iunlock, releasesleep, wp_bind, wp_getSlot, hcond, Bool.false_eq_true, if_false,
    wp_setSlot, Volume.setSlot_self]
  exact ⟨h.setSlot (by rw [h.ref, update_eq_self]) rfl (fun _ hv => h.copied hR hv)
    fun hl => by contradiction, hvalid⟩

/-- Changes to the copy of a locked inode, written to the disk. -/
theorem At.setInode (hL : L i = true) (f : Inode → Inode) (hf : (f (D i)).type = (D i).type) :
    At ((v.setSlot i { v.table i with inode := f (v.table i).inode }).setDisk i
      (f (v.table i).inode)) n (update D i (f (D i))) R L := by
  obtain ⟨hR, hvalid⟩ := h.held i hL
  rw [h.valid_copy hL]
  refine ⟨h.ninodes, by rw [← h.disk]; rfl, fun j => ?_, fun j => ?_, fun j => ?_, fun j => ?_,
    fun j => ?_⟩ <;> by_cases hj : j = i
  · subst hj
    simp [h.ref]
  · simp [Volume.setSlot, hj, h.ref]
  · subst hj
    simp [h.locked]
  · simp [Volume.setSlot, hj, h.locked]
  · subst hj
    simp
  · simpa [Volume.setSlot, hj] using h.copy j
  · subst hj
    simpa [hf] using fun _ _ => h.typed j hR hvalid
  · simpa [Volume.setSlot, hj] using h.typed j
  · subst hj
    simp [hvalid, hR]
  · simpa [Volume.setSlot, hj] using h.held j

theorem At.wp_iput_keep (hR : 0 < R i) (hL : L i = true → 1 < R i)
    (hkeep : R i ≠ 1 ∨ (D i).nlink ≠ 0 ∨ (D i).type = .free) :
    wp (iput i) E v fun _ v' => At v' n D (decr R i) L := by
  have hcond : ¬ ((v.table i).ref = 1 ∧ (v.table i).valid = true ∧
      (v.table i).inode.nlink = 0) := by
    rintro ⟨href, hvalid, hnlink⟩
    rw [h.copy i hR hvalid] at hnlink
    rw [h.ref] at href
    obtain hne | hne | hfree := hkeep
    · exact hne href
    · exact hne hnlink
    · exact h.typed i hR hvalid hfree
  simp only [iput, wp_bind, wp_getSlot, hcond, if_false, wp_setSlot]
  refine h.setSlot (by rw [h.ref, decr]) h.lock_eq (fun _ hv => h.copied hR hv) fun hl => ?_
  rw [h.locked] at hl
  rw [h.ref]
  exact ⟨Nat.sub_pos_of_lt (hL hl), (h.held i hl).2⟩

/-- An inode that nobody refers to is written on the disk. -/
theorem At.setDisk (hR : R i = 0) (d : Inode) :
    At (v.setDisk i d) n (Function.update D i d) R L := by
  have hne : ∀ j, 0 < R j → j ≠ i := by
    rintro j hj rfl
    omega
  refine ⟨h.ninodes, by rw [← h.disk]; rfl, h.ref, h.locked, fun j hj => ?_, fun j hj => ?_, h.held⟩
  · rw [Function.update_of_ne (hne j hj)]
    exact h.copy j hj
  · rw [Function.update_of_ne (hne j hj)]
    exact h.typed j hj

/-- The last reference to an inode without links is dropped. -/
theorem At.wp_iput_free (hR : R i = 1) (hL : L i = false) (hvalid : (v.table i).valid = true)
    (hnlink : (D i).nlink = 0) :
    wp (iput i) E v fun _ v' => At v' n (Function.update D i (D i).freed) (decr R i) L := by
  have hcopy : (v.table i).inode = D i := h.copy i (by omega) hvalid
  have hcond : (v.table i).ref = 1 ∧ (v.table i).valid = true ∧
      (v.table i).inode.nlink = 0 := by
    rw [h.ref, hcopy]
    exact ⟨hR, hvalid, hnlink⟩
  have hlocked : (v.table i).locked = false := by rw [h.locked, hL]
  simp only [iput, ifree, acquiresleep, releasesleep, itrunc, wp_bind, wp_getSlot, hcond, and_self,
    if_true, hlocked, Bool.false_eq_true, if_false, wp_setSlot, wp_modifyInode, wp_iupdate,
    Volume.setSlot_self, Volume.setSlot_setSlot, Volume.setDisk_table, Volume.setSlot_setDisk,
    Volume.setDisk_setDisk]
  have hfreed : (⟨.free, (v.table i).inode.major, (v.table i).inode.minor, 0, []⟩ : Inode) =
      (D i).freed := by
    rw [hcopy, Inode.freed, hnlink]
  rw [hfreed]
  refine At.setDisk (h.setSlot ?_ ?_ (fun hpos => ?_) fun hl => ?_) ?_ _
  · rw [decr, hR]
  · rw [← hL, update_eq_self]
  · simp at hpos
  · contradiction
  · simp [decr, hR]

/-- `iunlockput` of an inode that stays. -/
theorem At.wp_iunlockput_keep (hL : L i = true)
    (hkeep : R i ≠ 1 ∨ (D i).nlink ≠ 0 ∨ (D i).type = .free) :
    wp (iunlockput i) E v fun _ v' => At v' n D (decr R i) (Function.update L i false) := by
  rw [iunlockput, wp_bind]
  refine wp_mono (h.wp_iunlock hL) fun _ v' hv' => ?_
  refine hv'.1.wp_iput_keep (h.held i hL).1 (fun hl => ?_) hkeep
  rw [Function.update_self] at hl
  contradiction

/-- `iunlockput` of an inode that goes. -/
theorem At.wp_iunlockput_free (hL : L i = true) (hR : R i = 1) (hnlink : (D i).nlink = 0) :
    wp (iunlockput i) E v fun _ v' =>
      At v' n (Function.update D i (D i).freed) (decr R i) (Function.update L i false) := by
  rw [iunlockput, wp_bind]
  refine wp_mono (h.wp_iunlock hL) fun _ v' hv' => ?_
  exact hv'.1.wp_iput_free hR (Function.update_self ..) hv'.2 hnlink

/-- What `ialloc` does with the first of the numbers whose inode is free. -/
theorem At.wp_iallocFrom {type : InodeType} (hfree : ∀ k, (D k).type = .free → R k = 0)
    (hE : E (.panic .ialloc)) (hfull : E (.panic .iget)) :
    ∀ inums : List ℕ, wp (iallocFrom type inums) E v fun k v' => k ∈ inums ∧ (D k).type = .free ∧
      At v' n (Function.update D k ⟨type, 0, 0, 0, []⟩) (incr R k) L := by
  intro inums
  induction inums with
  | nil =>
    rw [iallocFrom, wp_panic]
    exact hE
  | cons k inums ih =>
    simp only [iallocFrom, wp_bind, wp_get, wp_ite, wp_modify]
    constructor
    · intro htype
      rw [h.disk] at htype
      refine wp_mono ((h.setDisk (hfree k htype) _).wp_iget fun _ _ => hfull) ?_
      rintro r v' ⟨rfl, hv'⟩
      exact ⟨List.mem_cons_self, htype, hv'⟩
    · intro _
      refine wp_mono ih fun r v' hr => ?_
      exact ⟨List.mem_cons_of_mem _ hr.1, hr.2⟩

theorem At.wp_ialloc {type : InodeType} (hfree : ∀ k, (D k).type = .free → R k = 0)
    (hE : E (.panic .ialloc)) (hfull : E (.panic .iget)) :
    wp (ialloc type) E v fun k v' => 0 < k ∧ k < n ∧ (D k).type = .free ∧
      At v' n (Function.update D k ⟨type, 0, 0, 0, []⟩) (incr R k) L := by
  rw [ialloc, wp_bind, wp_get]
  refine wp_mono (h.wp_iallocFrom hfree hE hfull _) fun k v' hk => ?_
  obtain ⟨hmem, hrest⟩ := hk
  rw [List.mem_range'_1, h.ninodes] at hmem
  exact ⟨by omega, by omega, hrest⟩

/-- The bytes that `readi` delivers from a file with the content `c`. -/
def readBytes (c : List Byte) (off m : ℕ) : List Byte :=
  if c.length < off ∨ (off + m) % 2 ^ 32 < off then [] else (c.drop off).take m

omit h in
@[simp] theorem wp_readi {off m : ℕ} {Q : List Byte → Volume → Prop} :
    wp (readi i off m) E v Q ↔ Q (readBytes (v.table i).inode.content off m) v := by
  simp only [readi, readBytes, wp_bind, wp_getSlot]
  split_ifs <;> simp

/-- The content `c` with the bytes `bs` written at `off`. -/
def writeBytes (c : List Byte) (off : ℕ) (bs : List Byte) : List Byte :=
  c.take off ++ bs ++ c.drop (off + bs.length)

/-- `writei` within the limits of a file. -/
theorem At.wp_writei (hL : L i = true) {off : ℕ} {bs : List Byte}
    (hoff : off ≤ (D i).content.length) (hmax : off + bs.length ≤ maxFileSize) :
    wp (writei i off bs) E v fun r v' => r = some bs.length ∧
      At v' n (Function.update D i { D i with content := writeBytes (D i).content off bs }) R L := by
  have hcopy := h.valid_copy hL
  have hwrap : ¬ ((v.table i).inode.content.length < off ∨ (off + bs.length) % 2 ^ 32 < off) := by
    rw [hcopy, Nat.mod_eq_of_lt (by simp only [maxFileSize, bsize] at hmax; omega)]
    omega
  have hroom : ¬ maxFileSize < off + bs.length := by omega
  simp only [writei, wp_bind, wp_getSlot, hwrap, if_false, hroom, wp_modifyInode, wp_iupdate,
    Volume.setSlot_self, wp_pure, true_and]
  have hat := h.setInode hL (fun d => { d with content := writeBytes (D i).content off bs }) rfl
  rw [hcopy] at hat ⊢
  exact hat

omit h in
/-- `writei` beyond the end of the largest file. -/
theorem wp_writei_max {off : ℕ} {bs : List Byte}
    (hmax : maxFileSize < off + bs.length) {Q : Option ℕ → Volume → Prop} (hQ : Q none v) :
    wp (writei i off bs) E v Q := by
  simp only [writei, wp_bind, wp_getSlot, hmax, if_true, wp_ite, wp_pure]
  exact ⟨fun _ => hQ, fun _ => hQ⟩

/-- A change of the fields of a locked inode, with `iupdate`. -/
theorem At.wp_modify {α : Type} (hL : L i = true) (f : Inode → Inode)
    (hf : (f (D i)).type = (D i).type) {x : FsM α} {Q : α → Volume → Prop}
    (hx : ∀ v', At v' n (Function.update D i (f (D i))) R L → wp x E v' Q) :
    wp (do modifyInode i f; iupdate i; x) E v Q := by
  simp only [wp_bind, wp_modifyInode, wp_iupdate, Volume.setSlot_self]
  exact hx _ (h.setInode hL f hf)

end

end rules
end Xv6.Fs
