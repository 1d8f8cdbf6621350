import Mathlib.Order.Interval.Finset.Nat
import Xv6.Fs.DirMap
import Xv6.Lib.RefCount

/-! Link counts: the links to an inode are the entries that name it and the entries `..` of its
subdirectories, and `nlink` is their number as long as it fits a `short`. -/
namespace Xv6.Fs
open Program RefCount Function

/-- The inode that the `k`-th entry names, if the inode is a directory, the entry is in use and it
is not one of the first two. -/
def Inode.target (d : Inode) (k : ℕ) : Option ℕ :=
  if d.type = .dir ∧ 2 ≤ k ∧ k < numEntries d.content ∧ (entryAt d.content k).live then
    some (entryAt d.content k).inum
  else none

/-- The entries of all directories. -/
def entry (D : ℕ → Inode) (p : ℕ × ℕ) : Option ℕ := (D p.1).target p.2

/-- The directory of an entry that names a directory, which has a link back to it. -/
def upward (D : ℕ → Inode) (p : ℕ × ℕ) : Option ℕ :=
  (entry D p).bind fun i => if (D i).type = .dir then some p.1 else none

/-- The number of links to an inode; the root has one that is not in any directory. -/
noncomputable def links (D : ℕ → Inode) (i : ℕ) : ℕ :=
  refCount (entry D) i + refCount (upward D) i + if i = rootino then 1 else 0

section target
variable {d d' : Inode} {k i : ℕ} {name : List Byte}

theorem Inode.target_congr (htype : d'.type = d.type) (hcontent : d'.content = d.content) :
    d'.target = d.target := by
  funext k
  simp only [Inode.target, htype, hcontent]

theorem Inode.target_eq_none_of_type (h : d.type ≠ .dir) : d.target = fun _ => none := by
  funext k
  exact if_neg fun hk => h hk.1

theorem Inode.target_some : d.target k = some i ↔ d.type = .dir ∧ 2 ≤ k ∧
    k < numEntries d.content ∧ (entryAt d.content k).live ∧ (entryAt d.content k).inum = i := by
  unfold Inode.target
  split_ifs with hk
  · simp [hk]
  · constructor
    · exact fun h => by contradiction
    · exact fun h => absurd ⟨h.1, h.2.1, h.2.2.1, h.2.2.2.1⟩ hk

theorem Inode.target_emptyAt (d : Inode) : d.target (emptyAt d.content) = none := by
  refine if_neg fun hk => ?_
  obtain heq | ⟨-, hdead⟩ := emptyAt_spec d.content
  · exact absurd hk.2.2.1 heq.not_lt
  · exact hdead hk.2.2.2

/-- The targets after one entry has been replaced. -/
theorem Inode.target_setEntry {de : Dirent} (htype : d.type = .dir) (hde : de.Fits) (htwo : 2 ≤ k)
    (hk : k ≤ numEntries d.content) (ht : d'.type = .dir)
    (hcontent : d'.content = setEntry d.content k de) :
    d'.target = update d.target k (if de.live then some de.inum else none) := by
  funext j
  have hnum := numEntries_setEntry hde hk
  by_cases hj : j = k
  · subst hj
    have hlt : j < max (numEntries d.content) (j + 1) := by omega
    simp [Inode.target, ht, hcontent, hnum, entryAt_setEntry_self hde hk, htwo, hlt]
  · have hiff : j < numEntries (setEntry d.content k de) ↔ j < numEntries d.content := by
      rw [hnum]
      omega
    simp only [update_of_ne hj, Inode.target, htype, ht, hcontent, hiff,
      entryAt_setEntry_of_ne hde hk hj]

theorem Inode.target_linked (htype : d.type = .dir) (hmap : DirMap d.content) (hpos : i ≠ 0)
    (hi : i < 2 ^ 16) (ht : d'.type = .dir) (hcontent : d'.content = linked d.content name i) :
    d'.target = update d.target (emptyAt d.content) (some i) := by
  have hlive : (⟨i, strncpy dirsiz name⟩ : Dirent).live := hpos
  rw [target_setEntry htype (fits_strncpy hi name) hmap.two_le_emptyAt (emptyAt_le _) ht hcontent,
    if_pos hlive]

theorem Inode.target_cleared (htype : d.type = .dir) (htwo : 2 ≤ k) (hk : k < numEntries d.content)
    (ht : d'.type = .dir) (hcontent : d'.content = cleared d.content k) :
    d'.target = update d.target k none := by
  rw [target_setEntry htype Dirent.zero_fits htwo hk.le ht hcontent, if_neg zero_not_live]

end target

variable {p : ℕ × ℕ}

section entry
variable {D D' : ℕ → Inode} {d : Inode} {i k : ℕ} {x : Option ℕ}

theorem entry_update (h : d.target = update (D i).target k x) :
    entry (update D i d) = update (entry D) (i, k) x := by
  funext p
  obtain ⟨j, m⟩ := p
  by_cases hj : j = i
  · subst hj
    by_cases hm : m = k
    · simp [entry, h, hm]
    · have hne : (j, m) ≠ (j, k) := by simpa using hm
      simp [entry, h, hm]
  · have hne : (j, m) ≠ (i, k) := fun heq => hj (congrArg Prod.fst heq)
    rw [update_of_ne hne]
    simp [entry, hj]

theorem entry_update_same (h : d.target = (D i).target) : entry (update D i d) = entry D := by
  funext p
  by_cases hp : p.1 = i
  · simp [entry, hp, h]
  · simp [entry, hp]

theorem upward_update (hentry : entry D' = update (entry D) p x)
    (htype : ∀ q j, entry D q = some j → ((D' j).type = .dir ↔ (D j).type = .dir)) :
    upward D' = update (upward D) p
      (x.bind fun j => if (D' j).type = .dir then some p.1 else none) := by
  funext q
  by_cases hq : q = p
  · subst hq
    simp [upward, hentry]
  · rw [update_of_ne hq, upward, upward, hentry, update_of_ne hq]
    cases hj : entry D q with
    | none => rfl
    | some j => simp only [Option.bind_some, htype q j hj]

theorem upward_same (hentry : entry D' = entry D)
    (htype : ∀ q j, entry D q = some j → ((D' j).type = .dir ↔ (D j).type = .dir)) :
    upward D' = upward D := by
  funext q
  rw [upward, upward, hentry]
  cases hj : entry D q with
  | none => rfl
  | some j => simp only [Option.bind_some, htype q j hj]

theorem upward_some (h : upward D p = some i) :
    p.1 = i ∧ ∃ j, entry D p = some j ∧ (D j).type = .dir := by
  obtain ⟨j, hj, hif⟩ := Option.bind_eq_some_iff.1 h
  split_ifs at hif with hdir
  exact ⟨Option.some.inj hif, j, hj, hdir⟩

theorem finite_upward (h : FiniteRefs (entry D)) : FiniteRefs (upward D) := by
  refine Set.Finite.subset h fun p hp => ?_
  intro hnone
  exact hp (by rw [upward, hnone, Option.bind_none])

/-- What a change of one entry does to the number of links. -/
theorem links_update {y : Option ℕ} (hfin : FiniteRefs (entry D))
    (hentry : entry D' = update (entry D) p x) (hup : upward D' = update (upward D) p y) (j : ℕ) :
    links D' j + (if entry D p = some j then 1 else 0) + (if upward D p = some j then 1 else 0) =
      links D j + (if x = some j then 1 else 0) + (if y = some j then 1 else 0) := by
  have hnames := refCount_update hfin p x j
  have hups := refCount_update (finite_upward hfin) p y j
  rw [links, links, hentry, hup]
  omega

theorem links_same (hentry : entry D' = entry D) (hup : upward D' = upward D) :
    links D' = links D := by
  funext j
  rw [links, links, hentry, hup]

/-- An inode that names nothing has no links from below. -/
theorem refCount_upward_eq_zero (h : (D i).target = fun _ => none) : refCount (upward D) i = 0 := by
  by_contra hne
  obtain ⟨p, hp⟩ := exists_of_refCount_pos (Nat.pos_of_ne_zero hne)
  obtain ⟨rfl, j, hj, -⟩ := upward_some hp
  rw [entry, h] at hj
  contradiction

end entry

/-- The state of the file system between operations: directories are well formed, entries name
allocated inodes, every allocated inode has a name or a reference, and `nlink` counts the links. -/
structure Linked (n : ℕ) (D : ℕ → Inode) (R : ℕ → ℕ) : Prop where
  small : n ≤ 2 ^ 16
  root : (D rootino).type = .dir
  bound : ∀ i, (D i).type ≠ .free → 0 < i ∧ i < n
  dir : ∀ i, (D i).type = .dir → DirMap (D i).content
  named : ∀ p i, entry D p = some i → (D i).type ≠ .free ∧ i ≠ p.1
  kept : ∀ i, (D i).type ≠ .free → i = rootino ∨ 0 < refCount (entry D) i ∨ 0 < R i
  unused : ∀ i, (D i).type = .free → R i = 0
  nlink : ∀ i, (D i).type ≠ .free → (D i).nlink = Int16.ofNat (links D i)

/-- The number of links of every inode fits a `short`. -/
def Fits (D : ℕ → Inode) : Prop := ∀ i, links D i < 2 ^ 15

theorem ofNat_ne_zero {m : ℕ} (hpos : 0 < m) (hlt : m < 2 ^ 16) : Int16.ofNat m ≠ 0 := by
  intro hzero
  have hbits := congrArg (fun a : Int16 => a.toBitVec.toNat) hzero
  simp at hbits
  omega

variable {R' : ℕ → ℕ}

section linked
variable {n i : ℕ} {D : ℕ → Inode} {R : ℕ → ℕ}

section
variable (h : Linked n D R)
include h

theorem Linked.finite : FiniteRefs (entry D) := by
  refine Set.Finite.subset ((Set.finite_Iio n).prod (Set.finite_Iio (maxFileSize + 1))) ?_
  intro p hp
  obtain ⟨j, hj⟩ := Option.ne_none_iff_exists'.1 hp
  obtain ⟨hdir, -, hlt, -⟩ := Inode.target_some.1 hj
  have hmax := (h.dir p.1 hdir).shape.max
  refine ⟨(h.bound p.1 (by simp [hdir])).2, ?_⟩
  rw [Set.mem_Iio]
  simp only [numEntries, direntSize] at hlt
  omega

omit h in
theorem links_pos (hpos : i = rootino ∨ 0 < refCount (entry D) i) : 0 < links D i := by
  rw [links]
  obtain rfl | hnames := hpos
  · rw [if_pos rfl]
    exact Nat.succ_pos _
  · omega

theorem Linked.links_of_entry (hp : entry D p = some i) : 0 < links D i :=
  links_pos (.inr (refCount_pos h.finite hp))

theorem Linked.nlink_ne_zero (hfits : Fits D) (htype : (D i).type ≠ .free)
    (hpos : 0 < links D i) : (D i).nlink ≠ 0 := by
  rw [h.nlink i htype]
  exact ofNat_ne_zero hpos ((hfits i).trans (by decide))

theorem Linked.links_eq_zero (hfits : Fits D) (htype : (D i).type ≠ .free)
    (hzero : (D i).nlink = 0) : links D i = 0 := by
  by_contra hne
  exact h.nlink_ne_zero hfits htype (Nat.pos_of_ne_zero hne) hzero

theorem Linked.kept_nlink (hfits : Fits D) (htype : (D i).type ≠ .free) :
    (D i).nlink ≠ 0 ∨ 0 < R i := by
  obtain hroot | hnames | href := h.kept i htype
  · exact .inl (h.nlink_ne_zero hfits htype (links_pos (.inl hroot)))
  · exact .inl (h.nlink_ne_zero hfits htype (links_pos (.inr hnames)))
  · exact .inr href

/-- One more reference to an allocated inode. -/
theorem Linked.hold (htype : (D i).type ≠ .free) : Linked n D (incr R i) := by
  refine ⟨h.small, h.root, h.bound, h.dir, h.named, fun j hj => ?_, fun j hj => ?_, h.nlink⟩
  · obtain hroot | hnames | href := h.kept j hj
    · exact .inl hroot
    · exact .inr (.inl hnames)
    · exact .inr (.inr (href.trans_le (le_incr ..)))
  · have hji : j ≠ i := fun hji => htype (hji ▸ hj)
    rw [incr_of_ne hji]
    exact h.unused j hj

omit h in
/-- One reference less to an inode that stays. -/
theorem Linked.drop (h : Linked n D (incr R i))
    (hkept : i = rootino ∨ 0 < refCount (entry D) i ∨ 0 < R i) : Linked n D R := by
  refine ⟨h.small, h.root, h.bound, h.dir, h.named, fun j hj => ?_, fun j hj => ?_, h.nlink⟩
  · by_cases hji : j = i
    · exact hji ▸ hkept
    · have hkept' := h.kept j hj
      rwa [incr_of_ne hji] at hkept'
  · have := h.unused j hj
    have := le_incr R i j
    omega

omit h in
/-- The last reference goes, and with it an inode without links. -/
theorem Linked.free (h : Linked n D (incr R i)) (hfits : Fits D) (htype : (D i).type ≠ .free)
    (hR : R i = 0) (hzero : (D i).nlink = 0) (hbarren : (D i).target = fun _ => none) :
    Linked n (update D i (D i).freed) R := by
  have hlinks := h.links_eq_zero hfits htype hzero
  have hunnamed : ∀ p, entry D p ≠ some i := fun p hp => (h.links_of_entry hp).ne' hlinks
  have hroot : i ≠ rootino := by
    rintro rfl
    exact (links_pos (.inl rfl)).ne' hlinks
  have hentry : entry (update D i (D i).freed) = entry D := by
    refine entry_update_same ?_
    rw [hbarren]
    exact Inode.target_eq_none_of_type (by simp [Inode.freed])
  have hne : ∀ p j, entry D p = some j → j ≠ i := fun p j hp hji => hunnamed p (hji ▸ hp)
  have hup : upward (update D i (D i).freed) = upward D := by
    refine upward_same hentry fun p j hp => ?_
    rw [update_of_ne (hne p j hp)]
  have hfreed : (update D i (D i).freed i).type = .free := by simp [Inode.freed]
  have hother : ∀ j, (update D i (D i).freed j).type ≠ .free → j ≠ i := by
    rintro j hj rfl
    exact hj hfreed
  refine ⟨h.small, ?_, fun j hj => ?_, fun j hj => ?_, fun p j hp => ?_, fun j hj => ?_,
    fun j hj => ?_, fun j hj => ?_⟩
  · rw [update_of_ne hroot.symm]
    exact h.root
  · rw [update_of_ne (hother j hj)] at hj
    exact h.bound j hj
  · have hji := hother j (by rw [hj]; decide)
    rw [update_of_ne hji] at hj ⊢
    exact h.dir j hj
  · rw [hentry] at hp
    rw [update_of_ne (hne p j hp)]
    exact h.named p j hp
  · have hji := hother j hj
    rw [update_of_ne hji] at hj
    rw [hentry]
    have hkept := h.kept j hj
    rwa [incr_of_ne hji] at hkept
  · by_cases hji : j = i
    · rw [hji]
      exact hR
    · rw [update_of_ne hji] at hj
      have hunused := h.unused j hj
      rwa [incr_of_ne hji] at hunused
  · have hji := hother j hj
    rw [update_of_ne hji] at hj ⊢
    rw [links_same hentry hup]
    exact h.nlink j hj

theorem Linked.links_of_free (htype : (D i).type = .free) : links D i = 0 := by
  have hnames : refCount (entry D) i = 0 := by
    by_contra hne
    obtain ⟨p, hp⟩ := exists_of_refCount_pos (Nat.pos_of_ne_zero hne)
    exact (h.named p i hp).1 htype
  have hup : refCount (upward D) i = 0 :=
    refCount_upward_eq_zero (Inode.target_eq_none_of_type (by simp [htype]))
  have hroot : i ≠ rootino := by
    rintro rfl
    rw [h.root] at htype
    contradiction
  rw [links, hnames, hup, if_neg hroot]

/-- A change of one entry. An inode that is new is named by it, and one that loses its name has a
reference. -/
theorem Linked.change {D' : ℕ → Inode} {x : Option ℕ} (hentry : entry D' = update (entry D) p x)
    (htype : ∀ j, (D j).type ≠ .free → (D' j).type = (D j).type)
    (hnew : ∀ j, (D' j).type ≠ .free → (D j).type = .free → 0 < j ∧ j < n ∧ x = some j)
    (hdir : ∀ j, (D' j).type = .dir → DirMap (D' j).content)
    (hnamed : ∀ i, x = some i → (D' i).type ≠ .free ∧ i ≠ p.1)
    (hheld : ∀ i, entry D p = some i → 0 < R' i) (hR : ∀ j, R j ≤ R' j)
    (hunused : ∀ j, (D' j).type = .free → R' j = 0)
    (hnlink : ∀ j, (D' j).type ≠ .free → (D' j).nlink = Int16.ofNat (links D' j)) :
    Linked n D' R' := by
  have hroot : (D rootino).type ≠ .free := by
    rw [h.root]
    decide
  refine ⟨h.small, (htype _ hroot).trans h.root, fun j hj => ?_, hdir, fun q i hq => ?_,
    fun j hj => ?_, hunused, hnlink⟩
  · by_cases hfree : (D j).type = .free
    · exact ⟨(hnew j hj hfree).1, (hnew j hj hfree).2.1⟩
    · exact h.bound j hfree
  · rw [hentry] at hq
    by_cases hqp : q = p
    · subst hqp
      rw [update_self] at hq
      exact hnamed i hq
    · rw [update_of_ne hqp] at hq
      obtain ⟨hi, hne⟩ := h.named q i hq
      exact ⟨htype i hi ▸ hi, hne⟩
  · have hcount := refCount_update h.finite p x j
    rw [← hentry] at hcount
    by_cases hfree : (D j).type = .free
    · rw [if_pos (hnew j hj hfree).2.2] at hcount
      have hpos : 0 < refCount (entry D') j := by
        split_ifs at hcount with hp
        · exact absurd hfree (h.named p j hp).1
        · omega
      exact .inr (.inl hpos)
    · obtain hroot | hnames | href := h.kept j hfree
      · exact .inl hroot
      · by_cases hp : entry D p = some j
        · exact .inr (.inr (hheld j hp))
        · rw [if_neg hp] at hcount
          exact .inr (.inl (by omega))
      · exact .inr (.inr (href.trans_le (hR j)))

/-- The links after a change of one entry. -/
theorem Linked.links_change {D' : ℕ → Inode} {x : Option ℕ}
    (hentry : entry D' = update (entry D) p x)
    (htype : ∀ j, (D j).type ≠ .free → (D' j).type = (D j).type) (i : ℕ) :
    links D' i + (if entry D p = some i then 1 else 0) +
        (if upward D p = some i then 1 else 0) =
      links D i + (if x = some i then 1 else 0) +
        (if (x.bind fun j => if (D' j).type = .dir then some p.1 else none) = some i then 1
          else 0) := by
  refine links_update h.finite hentry (upward_update hentry fun q j hq => ?_) i
  rw [htype j (h.named q j hq).1]

end

end linked

section effects
variable {n dp ip k : ℕ} {D : ℕ → Inode} {R : ℕ → ℕ} {name : List Byte}

theorem ofNat_succ (m : ℕ) : Int16.ofNat m + 1 = Int16.ofNat (m + 1) := (Int16.ofNat_add m 1).symm

theorem ofNat_pred {m m' : ℕ} (h : m = m' + 1) : Int16.ofNat m - 1 = Int16.ofNat m' := by
  rw [h, ← ofNat_succ]
  exact Int16.add_sub_cancel ..

/-- The file `ip` has got a new name. -/
def linkTo (D : ℕ → Inode) (dp ip : ℕ) (name : List Byte) : ℕ → Inode :=
  update (update D ip { D ip with nlink := (D ip).nlink + 1 }) dp
    { D dp with content := linked (D dp).content name ip }

/-- When `sys_link` comes to that. -/
structure CanLink (D : ℕ → Inode) (dp ip : ℕ) (name : List Byte) : Prop where
  dir : (D dp).type = .dir
  alloc : (D ip).type ≠ .free
  file : (D ip).type ≠ .dir
  fresh : lookup (D dp).content name = none
  room : direntSize * (emptyAt (D dp).content + 1) ≤ maxFileSize

theorem linkTo_type (D : ℕ → Inode) (dp ip : ℕ) (name : List Byte) (j : ℕ) :
    (linkTo D dp ip name j).type = (D j).type := by
  unfold linkTo
  by_cases hj : j = dp
  · simp [hj]
  · by_cases hj' : j = ip
    · subst hj'
      simp [hj]
    · simp [hj, hj']

theorem CanLink.ne (h : CanLink D dp ip name) : dp ≠ ip := by
  rintro rfl
  exact h.file h.dir

theorem linkTo_content (D : ℕ → Inode) (ip : ℕ) (name : List Byte) {j : ℕ} (hj : j ≠ dp) :
    (linkTo D dp ip name j).content = (D j).content := by
  by_cases hj' : j = ip
  · subst hj'
    simp [linkTo, hj]
  · simp [linkTo, hj, hj']

theorem entry_linkTo (h : Linked n D R) (hcan : CanLink D dp ip name) :
    entry (linkTo D dp ip name) = update (entry D) (dp, emptyAt (D dp).content) (some ip) := by
  obtain ⟨hpos, hlt⟩ := h.bound ip hcan.alloc
  have hsame : entry (update D ip { D ip with nlink := (D ip).nlink + 1 }) = entry D :=
    entry_update_same (Inode.target_congr rfl rfl)
  rw [← hsame]
  refine entry_update ?_
  rw [update_of_ne hcan.ne]
  exact Inode.target_linked hcan.dir (h.dir dp hcan.dir) hpos.ne' (hlt.trans_le h.small) hcan.dir rfl

theorem entry_emptyAt (D : ℕ → Inode) (dp : ℕ) : entry D (dp, emptyAt (D dp).content) = none :=
  Inode.target_emptyAt _

theorem upward_emptyAt (D : ℕ → Inode) (dp : ℕ) : upward D (dp, emptyAt (D dp).content) = none := by
  rw [upward, entry_emptyAt, Option.bind_none]

theorem Linked.links_linkTo (h : Linked n D R) (hcan : CanLink D dp ip name) (j : ℕ) :
    links (Fs.linkTo D dp ip name) j = links D j + if ip = j then 1 else 0 := by
  have hlinks := h.links_change (entry_linkTo h hcan) (fun j _ => linkTo_type D dp ip name j) j
  rw [entry_emptyAt, upward_emptyAt, Option.bind_some, linkTo_type, if_neg hcan.file] at hlinks
  simpa only [reduceCtorEq, if_false, Nat.add_zero, Option.some.injEq] using hlinks

theorem Linked.linkTo (h : Linked n D R) (hcan : CanLink D dp ip name) :
    Linked n (linkTo D dp ip name) R := by
  have htypes := linkTo_type D dp ip name
  have hlt := (h.bound ip hcan.alloc).2
  refine h.change (entry_linkTo h hcan) (fun j _ => htypes j) (fun j hj hfree => ?_) (fun j hj => ?_)
    (fun i hi => ?_) (fun i hi => ?_) (fun _ => le_rfl) (fun j hj => ?_) fun j hj => ?_
  · exact absurd (htypes j ▸ hfree) hj
  · rw [htypes] at hj
    by_cases hjd : j = dp
    · have hcontent : (Fs.linkTo D dp ip name j).content = linked (D dp).content name ip := by
        simp [Fs.linkTo, hjd]
      rw [hcontent]
      exact (h.dir dp hcan.dir).linked (hlt.trans_le h.small) hcan.fresh hcan.room
    · rw [linkTo_content D ip name hjd]
      exact h.dir j hj
  · obtain rfl := Option.some.inj hi
    rw [htypes]
    exact ⟨hcan.alloc, hcan.ne.symm⟩
  · rw [entry_emptyAt] at hi
    contradiction
  · exact h.unused j (htypes j ▸ hj)
  · rw [htypes] at hj
    rw [h.links_linkTo hcan]
    have hold := h.nlink j hj
    by_cases hjd : j = dp
    · subst hjd
      simpa [Fs.linkTo, hcan.ne.symm] using hold
    · by_cases hj' : j = ip
      · subst hj'
        have hnlink : (Fs.linkTo D dp j name j).nlink = (D j).nlink + 1 := by simp [Fs.linkTo, hjd]
        rw [hnlink, hold, if_pos rfl, ofNat_succ]
      · simpa [Fs.linkTo, hjd, hj', Ne.symm hj'] using hold

/-- The new inode `d` with the number `k` has got a name in `dp`. -/
def createIn (D : ℕ → Inode) (dp k : ℕ) (name : List Byte) (d : Inode) : ℕ → Inode :=
  update (update D k d) dp { D dp with
    nlink := if d.type = .dir then (D dp).nlink + 1 else (D dp).nlink
    content := linked (D dp).content name k }

/-- When `create` comes to that. -/
structure CanCreate (n : ℕ) (D : ℕ → Inode) (dp k : ℕ) (name : List Byte) (d : Inode) : Prop where
  dir : (D dp).type = .dir
  free : (D k).type = .free
  pos : 0 < k
  lt : k < n
  alloc : d.type ≠ .free
  one : d.nlink = 1
  content : d.content = if d.type = .dir then dots k dp else []
  fresh : lookup (D dp).content name = none
  room : direntSize * (emptyAt (D dp).content + 1) ≤ maxFileSize

theorem target_dots (hpos : k ≠ 0) (hk : k < 2 ^ 16) (hdp : dp < 2 ^ 16) {d : Inode}
    (hd : d.content = if d.type = .dir then dots k dp else []) : d.target = fun _ => none := by
  funext j
  refine if_neg fun hj => ?_
  rw [hd, if_pos hj.1, numEntries_dots hpos hk hdp] at hj
  omega

section createIn
variable {d : Inode}

theorem CanCreate.ne (h : CanCreate n D dp k name d) : dp ≠ k := by
  rintro rfl
  have hdir := h.dir
  rw [h.free] at hdir
  contradiction

theorem createIn_self (h : CanCreate n D dp k name d) : createIn D dp k name d k = d := by
  simp [createIn, h.ne.symm]

theorem createIn_type (D : ℕ → Inode) (dp : ℕ) (name : List Byte) (d : Inode) {j : ℕ} (hj : j ≠ k) :
    (createIn D dp k name d j).type = (D j).type := by
  by_cases hjd : j = dp
  · simp [createIn, hjd]
  · simp [createIn, hjd, hj]

theorem CanCreate.type (h : CanCreate n D dp k name d) (j : ℕ) (hj : (D j).type ≠ .free) :
    (createIn D dp k name d j).type = (D j).type :=
  createIn_type D dp name d fun hjk => hj (hjk ▸ h.free)

theorem Linked.barren_new (h : Linked n D R) (hcan : CanCreate n D dp k name d) :
    d.target = fun _ => none := by
  have hdlt := (h.bound dp (by rw [hcan.dir]; decide)).2
  exact target_dots hcan.pos.ne' (hcan.lt.trans_le h.small) (hdlt.trans_le h.small) hcan.content

theorem entry_createIn (h : Linked n D R) (hcan : CanCreate n D dp k name d) :
    entry (createIn D dp k name d) =
      update (entry D) (dp, emptyAt (D dp).content) (some k) := by
  have hsame : entry (update D k d) = entry D := by
    refine entry_update_same ?_
    rw [h.barren_new hcan, Inode.target_eq_none_of_type (by simp [hcan.free])]
  rw [← hsame]
  refine entry_update ?_
  rw [update_of_ne hcan.ne]
  exact Inode.target_linked hcan.dir (h.dir dp hcan.dir) hcan.pos.ne' (hcan.lt.trans_le h.small)
    hcan.dir rfl

theorem Linked.links_createIn (h : Linked n D R) (hcan : CanCreate n D dp k name d) (j : ℕ) :
    links (Fs.createIn D dp k name d) j = links D j + (if k = j then 1 else 0) +
      if d.type = .dir ∧ dp = j then 1 else 0 := by
  have hlinks := h.links_change (entry_createIn h hcan) hcan.type j
  rw [entry_emptyAt, upward_emptyAt, Option.bind_some, createIn_self hcan] at hlinks
  simp only [reduceCtorEq, if_false, Nat.add_zero, Option.some.injEq] at hlinks
  rw [hlinks]
  by_cases hdir : d.type = .dir <;> simp [hdir]

theorem Linked.createIn (h : Linked n D R) (hcan : CanCreate n D dp k name d)
    (hR : ∀ j, j ≠ k → R' j = R j) : Linked n (createIn D dp k name d) R' := by
  obtain ⟨hdpos, hdlt⟩ := h.bound dp (by rw [hcan.dir]; decide)
  have hself := createIn_self hcan
  have hlt := hcan.lt.trans_le h.small
  refine h.change (entry_createIn h hcan) hcan.type (fun j hj hfree => ?_) (fun j hj => ?_)
    (fun i hi => ?_) (fun i hi => ?_) (fun j => ?_) (fun j hj => ?_) fun j hj => ?_
  · by_cases hjk : j = k
    · subst hjk
      exact ⟨hcan.pos, hcan.lt, rfl⟩
    · exact absurd (createIn_type D dp name d hjk ▸ hfree) hj
  · by_cases hjk : j = k
    · rw [hjk, hself] at hj ⊢
      rw [hcan.content, if_pos hj]
      exact dots_map hcan.pos.ne' hlt hdpos.ne' (hdlt.trans_le h.small)
    · rw [createIn_type D dp name d hjk] at hj
      by_cases hjd : j = dp
      · have hcontent : (Fs.createIn D dp k name d j).content = linked (D dp).content name k := by
          simp [Fs.createIn, hjd]
        rw [hcontent]
        exact (h.dir dp hcan.dir).linked hlt hcan.fresh hcan.room
      · have hsame : Fs.createIn D dp k name d j = D j := by simp [Fs.createIn, hjd, hjk]
        rw [hsame]
        exact h.dir j hj
  · obtain rfl := Option.some.inj hi
    rw [hself]
    exact ⟨hcan.alloc, hcan.ne.symm⟩
  · rw [entry_emptyAt] at hi
    contradiction
  · by_cases hjk : j = k
    · rw [hjk, h.unused k hcan.free]
      exact Nat.zero_le _
    · exact (hR j hjk).ge
  · have hjk : j ≠ k := by
      rintro rfl
      exact hcan.alloc (hself ▸ hj)
    rw [hR j hjk]
    exact h.unused j (createIn_type D dp name d hjk ▸ hj)
  · have hlinks := h.links_createIn hcan j
    by_cases hjk : j = k
    · subst hjk
      rw [if_pos rfl, if_neg fun hand => hcan.ne hand.2, h.links_of_free hcan.free] at hlinks
      rw [hself, hcan.one, hlinks]
      rfl
    · rw [if_neg (Ne.symm hjk), Nat.add_zero] at hlinks
      rw [createIn_type D dp name d hjk] at hj
      have hold := h.nlink j hj
      by_cases hjd : j = dp
      · subst hjd
        have hnlink : (Fs.createIn D j k name d j).nlink =
            if d.type = .dir then (D j).nlink + 1 else (D j).nlink := by simp [Fs.createIn]
        rw [hnlink, hlinks, hold]
        by_cases hdir : d.type = .dir
        · rw [if_pos hdir, if_pos ⟨hdir, rfl⟩]
          exact ofNat_succ _
        · rw [if_neg hdir, if_neg fun hand => hdir hand.1, Nat.add_zero]
      · have hsame : Fs.createIn D dp k name d j = D j := by simp [Fs.createIn, hjd, hjk]
        rw [hsame, hlinks, if_neg fun hand => hjd hand.2.symm]
        exact hold

end createIn

/-- The `k`-th entry of `dp`, for `ip`, is gone. -/
def unlinkFrom (D : ℕ → Inode) (dp k ip : ℕ) : ℕ → Inode :=
  update (update D dp { D dp with
    nlink := if (D ip).type = .dir then (D dp).nlink - 1 else (D dp).nlink
    content := cleared (D dp).content k }) ip { D ip with nlink := (D ip).nlink - 1 }

theorem unlinkFrom_self : unlinkFrom D dp k ip ip = { D ip with nlink := (D ip).nlink - 1 } := by
  simp [unlinkFrom]

theorem unlinkFrom_type (D : ℕ → Inode) (dp k ip j : ℕ) :
    (unlinkFrom D dp k ip j).type = (D j).type := by
  unfold unlinkFrom
  by_cases hj : j = ip
  · simp [hj]
  · by_cases hjd : j = dp
    · subst hjd
      simp [hj]
    · simp [hj, hjd]

theorem entry_unlinkFrom (h : Linked n D R) (hentry : entry D (dp, k) = some ip) :
    entry (unlinkFrom D dp k ip) = update (entry D) (dp, k) none := by
  obtain ⟨hdp, htwo, hk, -⟩ := Inode.target_some.1 hentry
  have hclear : entry (update D dp { D dp with
      nlink := if (D ip).type = .dir then (D dp).nlink - 1 else (D dp).nlink
      content := cleared (D dp).content k }) = update (entry D) (dp, k) none :=
    entry_update (Inode.target_cleared hdp htwo hk hdp rfl)
  rw [← hclear]
  refine entry_update_same ?_
  rw [update_of_ne (h.named _ _ hentry).2]
  exact Inode.target_congr rfl rfl

theorem Linked.unlinkFrom (h : Linked n D R) (hentry : entry D (dp, k) = some ip) :
    Linked n (unlinkFrom D dp k ip) (incr R ip) := by
  obtain ⟨hdp, htwo, hk, -⟩ := Inode.target_some.1 hentry
  obtain ⟨hip, hne⟩ := h.named _ _ hentry
  have hmap := h.dir dp hdp
  have htypes := unlinkFrom_type D dp k ip
  have hentry' := entry_unlinkFrom h hentry
  have hup : upward D (dp, k) = if (D ip).type = .dir then some dp else none := by
    rw [upward, hentry, Option.bind_some]
  refine h.change hentry' (fun j _ => htypes j) (fun j hj hfree => ?_) (fun j hj => ?_)
    (fun i hi => by contradiction) (fun i hi => ?_) (le_incr R ip) (fun j hj => ?_) fun j hj => ?_
  · exact absurd (htypes j ▸ hfree) hj
  · rw [htypes] at hj
    by_cases hji : j = ip
    · have hcontent : (Fs.unlinkFrom D dp k ip j).content = (D j).content := by
        simp [Fs.unlinkFrom, hji]
      rw [hcontent]
      exact h.dir j hj
    · by_cases hjd : j = dp
      · have hcontent : (Fs.unlinkFrom D dp k ip j).content = cleared (D dp).content k := by
          subst hjd
          simp [Fs.unlinkFrom, hji]
        rw [hcontent]
        exact hmap.cleared htwo hk
      · have hcontent : Fs.unlinkFrom D dp k ip j = D j := by simp [Fs.unlinkFrom, hji, hjd]
        rw [hcontent]
        exact h.dir j hj
  · rw [hentry] at hi
    obtain rfl := Option.some.inj hi
    rw [incr_self]
    exact Nat.succ_pos _
  · rw [htypes] at hj
    have hji : j ≠ ip := fun hji => hip (hji ▸ hj)
    rw [incr_of_ne hji]
    exact h.unused j hj
  · have hlinks := h.links_change hentry' (fun j _ => htypes j) j
    rw [hentry, hup, Option.bind_none] at hlinks
    simp only [reduceCtorEq, if_false, Nat.add_zero, Option.some.injEq] at hlinks
    rw [htypes] at hj
    have hold := h.nlink j hj
    by_cases hji : j = ip
    · subst hji
      have hother : ¬ (if (D j).type = .dir then some dp else none) = some j := by
        split_ifs
        · simpa using hne.symm
        · exact fun hcon => by contradiction
      rw [if_pos rfl, if_neg hother] at hlinks
      have hnlink : (Fs.unlinkFrom D dp k j j).nlink = (D j).nlink - 1 := by simp [Fs.unlinkFrom]
      rw [hnlink, hold]
      exact ofNat_pred hlinks.symm
    · rw [if_neg (Ne.symm hji), Nat.add_zero] at hlinks
      by_cases hjd : j = dp
      · subst hjd
        have hnlink : (Fs.unlinkFrom D j k ip j).nlink =
            if (D ip).type = .dir then (D j).nlink - 1 else (D j).nlink := by
          simp [Fs.unlinkFrom, hji]
        rw [hnlink, hold]
        by_cases hdir : (D ip).type = .dir
        · rw [if_pos hdir, if_pos rfl] at hlinks
          rw [if_pos hdir]
          exact ofNat_pred hlinks.symm
        · rw [if_neg hdir, if_neg (by simp), Nat.add_zero] at hlinks
          rw [if_neg hdir, hlinks]
      · have hother : ¬ (if (D ip).type = .dir then some dp else none) = some j := by
          split_ifs
          · simpa using Ne.symm hjd
          · exact fun hcon => by contradiction
        rw [if_neg hother, Nat.add_zero] at hlinks
        have hsame : Fs.unlinkFrom D dp k ip j = D j := by simp [Fs.unlinkFrom, hji, hjd]
        rw [hsame, hlinks]
        exact hold

/-- When `sys_unlink` comes to that. -/
structure CanUnlink (D : ℕ → Inode) (dp k ip : ℕ) : Prop where
  entry : entry D (dp, k) = some ip
  barren : (D ip).target = fun _ => none

/-- The inode goes too if that was its last link and nobody refers to it. -/
def unlinkDone (D : ℕ → Inode) (R : ℕ → ℕ) (dp k ip : ℕ) : ℕ → Inode :=
  if R ip = 0 ∧ (unlinkFrom D dp k ip ip).nlink = 0 then
    update (unlinkFrom D dp k ip) ip (unlinkFrom D dp k ip ip).freed
  else unlinkFrom D dp k ip

theorem Linked.fits_unlinkFrom (h : Linked n D R) (hfits : Fits D)
    (hentry : entry D (dp, k) = some ip) : Fits (Fs.unlinkFrom D dp k ip) := by
  intro i
  have hlinks := h.links_change (entry_unlinkFrom h hentry)
    (fun j _ => unlinkFrom_type D dp k ip j) i
  rw [Option.bind_none] at hlinks
  simp only [reduceCtorEq, if_false, Nat.add_zero] at hlinks
  have := hfits i
  omega

theorem Linked.unlinkDone (h : Linked n D R) (hfits : Fits D) (hcan : CanUnlink D dp k ip) :
    Linked n (unlinkDone D R dp k ip) R := by
  have h' := h.unlinkFrom hcan.entry
  have hfits' := h.fits_unlinkFrom hfits hcan.entry
  have htype : (Fs.unlinkFrom D dp k ip ip).type ≠ .free := by
    rw [unlinkFrom_type]
    exact (h.named _ _ hcan.entry).1
  have hbarren : (Fs.unlinkFrom D dp k ip ip).target = fun _ => none := by
    rw [unlinkFrom_self, ← hcan.barren]
    exact Inode.target_congr rfl rfl
  unfold Fs.unlinkDone
  split_ifs with hlast
  · exact h'.free hfits' htype hlast.1 hlast.2 hbarren
  · refine h'.drop ?_
    by_cases hR : R ip = 0
    · -- it still has links, and none of them from below
      have hne : links (Fs.unlinkFrom D dp k ip) ip ≠ 0 := by
        intro hzero
        refine hlast ⟨hR, ?_⟩
        rw [h'.nlink ip htype, hzero]
        rfl
      rw [links, refCount_upward_eq_zero hbarren] at hne
      by_cases hroot : ip = rootino
      · exact .inl hroot
      · rw [if_neg hroot] at hne
        exact .inr (.inl (by omega))
    · exact .inr (.inr (Nat.pos_of_ne_zero hR))

/-- What a system call does to the inodes and the references. -/
inductive Effect (n : ℕ) (D : ℕ → Inode) (R : ℕ → ℕ) : (ℕ → Inode) → (ℕ → ℕ) → Prop
  | same : Effect n D R D R
  | hold {i : ℕ} (h : (D i).type ≠ .free) : Effect n D R D (incr R i)
  | link {dp ip : ℕ} {name : List Byte} (h : CanLink D dp ip name) :
      Effect n D R (linkTo D dp ip name) R
  | create {dp k : ℕ} {name : List Byte} {d : Inode} {R' : ℕ → ℕ} (h : CanCreate n D dp k name d)
      (hR : ∀ j, j ≠ k → R' j = R j) : Effect n D R (createIn D dp k name d) R'
  | unlink {dp k ip : ℕ} (h : CanUnlink D dp k ip) : Effect n D R (unlinkDone D R dp k ip) R

theorem Effect.linked {D' : ℕ → Inode} (he : Effect n D R D' R') (h : Linked n D R)
    (hfits : Fits D) : Linked n D' R' := by
  cases he with
  | same => exact h
  | hold hi => exact h.hold hi
  | link hcan => exact h.linkTo hcan
  | create hcan hR => exact h.createIn hcan hR
  | unlink hcan => exact h.unlinkDone hfits hcan

end effects
end Xv6.Fs
