import Xv6.Fs.InodeSpec
import Xv6.Fs.Names

/-! Directories as lists of entries, and what `dirlookup` and `dirlink` find and write. -/
namespace Xv6.Fs
open Program

/-- The characters that `strncmp` with the bound `n` compares. -/
def key (n : ℕ) (s : List Byte) : List Byte := (s.take n).takeWhile (· != 0)

section strings
variable (n : ℕ) (s t : List Byte)

theorem key_zero : key 0 s = [] := by simp [key]

theorem key_succ : key (n + 1) s = if front s = 0 then [] else front s :: key n s.tail := by
  cases s with
  | nil => simp [key, front]
  | cons c s => by_cases hc : c = 0 <;> simp [key, front, hc]

theorem byte_sub_eq_zero (a b : Byte) : (a.toNat : ℤ) - b.toNat = 0 ↔ a = b := by
  rw [← UInt8.toNat_inj]
  omega

theorem strncmp_eq_zero : strncmp n s t = 0 ↔ key n s = key n t := by
  induction n generalizing s t with
  | zero => simp [strncmp, key_zero]
  | succ n ih =>
    rw [strncmp, key_succ, key_succ]
    by_cases hs : front s = 0
    · rw [if_neg (fun hsame => hsame.1 hs), if_pos hs, byte_sub_eq_zero, hs]
      by_cases ht : front t = 0 <;> simp [ht, Ne.symm]
    · rw [if_neg hs]
      by_cases hsame : front s = front t
      · rw [if_pos ⟨hs, hsame⟩, if_neg (hsame ▸ hs), ih, hsame]
        simp
      · rw [if_neg (fun h => hsame h.2), byte_sub_eq_zero]
        split_ifs with ht
        · simp [hsame]
        · simp [hsame]

theorem namecmp_eq_zero : namecmp s t = 0 ↔ key dirsiz s = key dirsiz t := strncmp_eq_zero ..

theorem length_strncpy : (strncpy n s).length = n := by
  induction n generalizing s with
  | zero => rfl
  | succ n ih =>
    rw [strncpy]
    split_ifs
    · exact List.length_replicate
    · simp [ih]

theorem key_strncpy : key n (strncpy n s) = key n s := by
  induction n generalizing s with
  | zero => simp [key_zero]
  | succ n ih =>
    rw [key_succ n s, strncpy]
    by_cases hs : front s = 0
    · rw [if_pos hs, if_pos hs, key_succ]
      rfl
    · have hcons : front (front s :: strncpy n s.tail) = front s := rfl
      rw [if_neg hs, if_neg hs, key_succ, hcons, if_neg hs, List.tail_cons, ih]

end strings

/-- The `k`-th entry of a directory with the content `c`. -/
def entryAt (c : List Byte) (k : ℕ) : Dirent :=
  Dirent.ofBytes ((c.drop (direntSize * k)).take direntSize)

/-- The size of a directory is that of a whole number of entries. -/
structure DirShape (c : List Byte) : Prop where
  whole : c.length % direntSize = 0
  max : c.length ≤ maxFileSize

/-- The entry is in use, under this name. -/
def Dirent.named (name : List Byte) (de : Dirent) : Bool :=
  de.inum ≠ 0 ∧ key dirsiz name = key dirsiz de.name

/-- The inode that a directory has under a name, with the offset of the entry. -/
def lookup (c name : List Byte) : Option (ℕ × ℕ) :=
  ((List.range (c.length / direntSize)).find? fun k => (entryAt c k).named name).map fun k =>
    ((entryAt c k).inum, direntSize * k)

/-- The first entry that is not in use, or the one after the last. -/
def emptyAt (c : List Byte) : ℕ :=
  ((List.range (c.length / direntSize)).find? fun k => (entryAt c k).inum = 0).getD
    (c.length / direntSize)

section shape
variable {c : List Byte} {k : ℕ}

theorem DirShape.offsets_eq (h : DirShape c) :
    offsets c.length = (List.range (c.length / direntSize)).map (direntSize * ·) := by
  have hwhole := h.whole
  have heq : (c.length + direntSize - 1) / direntSize = c.length / direntSize := by
    simp only [direntSize] at hwhole ⊢
    omega
  rw [offsets, heq]

theorem DirShape.readBytes_eq (h : DirShape c) (hk : k < c.length / direntSize) :
    readBytes c (direntSize * k) direntSize = (c.drop (direntSize * k)).take direntSize := by
  have hmax := h.max
  have hcond : ¬ (c.length < direntSize * k ∨
      (direntSize * k + direntSize) % 2 ^ 32 < direntSize * k) := by
    simp only [maxFileSize, bsize, direntSize] at hmax hk ⊢
    omega
  rw [readBytes, if_neg hcond]

theorem entry_length (hk : k < c.length / direntSize) :
    ((c.drop (direntSize * k)).take direntSize).length = direntSize := by
  rw [List.length_take, List.length_drop]
  simp only [direntSize] at hk ⊢
  omega

end shape

/-- The number of entries, in use or not. -/
def numEntries (c : List Byte) : ℕ := c.length / direntSize

/-- The content with the `k`-th entry replaced. -/
def setEntry (c : List Byte) (k : ℕ) (de : Dirent) : List Byte :=
  writeBytes c (direntSize * k) de.toBytes

/-- An entry as it is written: `inum` is an `unsigned short` and the name is an array. -/
structure Dirent.Fits (de : Dirent) : Prop where
  inum : de.inum < 2 ^ 16
  name : de.name.length = dirsiz

section writing
variable {c : List Byte} {k j : ℕ} {de : Dirent}

theorem Dirent.Fits.length (h : de.Fits) : de.toBytes.length = direntSize := by
  simp [Dirent.toBytes, h.name]

theorem Dirent.Fits.ofBytes_toBytes (h : de.Fits) : Dirent.ofBytes de.toBytes = de := by
  have hinum : de.inum % 256 + 256 * (de.inum / 256 % 256) = de.inum := by
    have := h.inum
    omega
  have hlow : (UInt8.ofNat de.inum).toNat = de.inum % 256 := UInt8.toNat_ofNat' ..
  have hhigh : (UInt8.ofNat (de.inum / 256)).toNat = de.inum / 256 % 256 := UInt8.toNat_ofNat' ..
  simp only [Dirent.ofBytes, Dirent.toBytes, List.getD_cons_zero, List.getD_cons_succ,
    List.drop_succ_cons, List.drop_zero, hlow, hhigh, hinum]

theorem length_setEntry (h : de.Fits) (hk : k ≤ numEntries c) :
    (setEntry c k de).length = max c.length (direntSize * (k + 1)) := by
  have hlen := h.length
  simp only [setEntry, writeBytes, List.length_append, List.length_take, List.length_drop, hlen]
  simp only [numEntries, direntSize] at hk ⊢
  omega

theorem numEntries_setEntry (h : de.Fits) (hk : k ≤ numEntries c) :
    numEntries (setEntry c k de) = max (numEntries c) (k + 1) := by
  rw [numEntries, length_setEntry h hk]
  simp only [numEntries, direntSize] at hk ⊢
  omega

theorem DirShape.setEntry (hc : DirShape c) (h : de.Fits) (hk : k ≤ numEntries c)
    (hmax : direntSize * (k + 1) ≤ maxFileSize) : DirShape (setEntry c k de) := by
  have hwhole := hc.whole
  have hlen := length_setEntry h hk
  refine ⟨?_, hlen ▸ max_le hc.max hmax⟩
  rw [hlen]
  simp only [numEntries, direntSize] at hk hwhole ⊢
  omega

theorem entryAt_setEntry_self (h : de.Fits) (hk : k ≤ numEntries c) :
    entryAt (setEntry c k de) k = de := by
  have hoff : (c.take (direntSize * k)).length = direntSize * k := by
    rw [List.length_take]
    simp only [numEntries, direntSize] at hk ⊢
    omega
  have hdrop : (setEntry c k de).drop (direntSize * k) =
      de.toBytes ++ c.drop (direntSize * k + de.toBytes.length) := by
    rw [setEntry, writeBytes, List.append_assoc, List.drop_append_of_le_length hoff.ge,
      List.drop_of_length_le hoff.le, List.nil_append]
  rw [entryAt, hdrop, List.take_append_of_le_length h.length.ge,
    List.take_of_length_le h.length.le, h.ofBytes_toBytes]

theorem entryAt_setEntry_of_ne (h : de.Fits) (hk : k ≤ numEntries c) (hj : j ≠ k) :
    entryAt (setEntry c k de) j = entryAt c j := by
  have hoff : (c.take (direntSize * k)).length = direntSize * k := by
    rw [List.length_take]
    simp only [numEntries, direntSize] at hk ⊢
    omega
  have hlen := h.length
  rw [entryAt, entryAt, setEntry, writeBytes]
  obtain hlt | hgt := Nat.lt_or_gt_of_ne hj
  · -- before the entry
    have hle : direntSize * j ≤ (c.take (direntSize * k)).length := by
      rw [hoff]
      exact Nat.mul_le_mul_left _ hlt.le
    have hfit : direntSize ≤ direntSize * k - direntSize * j := by
      simp only [direntSize]
      omega
    rw [List.append_assoc, List.drop_append_of_le_length hle, List.take_append_of_le_length,
      List.drop_take, List.take_take, Nat.min_eq_left hfit]
    rw [List.length_drop, hoff]
    exact hfit
  · -- after it
    have hpre : (c.take (direntSize * k) ++ de.toBytes).length = direntSize * (k + 1) := by
      rw [List.length_append, hoff, hlen, Nat.mul_succ]
    have hge : direntSize * (k + 1) ≤ direntSize * j := Nat.mul_le_mul_left _ hgt
    rw [List.drop_append, hpre, List.drop_of_length_le (hpre.trans_le hge), List.nil_append,
      List.drop_drop, hlen, ← Nat.mul_succ, Nat.add_sub_cancel' hge]

end writing

/-- The references with one more to the inode, if there is one. -/
def incrOpt (R : ℕ → ℕ) : Option ℕ → ℕ → ℕ
  | none => R
  | some i => incr R i

section rules
variable {E : Stop → Prop} {v : Volume} {n dp : ℕ} {D : ℕ → Inode} {R : ℕ → ℕ} {L : ℕ → Bool}
  {name : List Byte}

theorem At.wp_lookupFrom (h : At v n D R L) (hL : L dp = true) (hdir : DirShape (D dp).content)
    (hfull : ∀ i, R i = 0 → ninode ≤ inUse n R → E (.panic .iget)) (ks : List ℕ)
    (hks : ∀ k ∈ ks, k < (D dp).content.length / direntSize) :
    wp (lookupFrom dp name (ks.map (direntSize * ·))) E v fun r v' =>
      r = (ks.find? fun k => (entryAt (D dp).content k).named name).map (fun k =>
        ((entryAt (D dp).content k).inum, direntSize * k)) ∧
      At v' n D (incrOpt R (r.map Prod.fst)) L := by
  induction ks with
  | nil => simpa [lookupFrom, incrOpt] using h
  | cons k ks ih =>
    have hk := hks k List.mem_cons_self
    have hrest := ih fun k' hk' => hks k' (List.mem_cons_of_mem _ hk')
    simp only [List.map_cons, lookupFrom, wp_bind, wp_readi, h.valid_copy hL, hdir.readBytes_eq hk,
      entry_length hk, ne_eq, not_true_eq_false, if_false]
    rw [← entryAt, List.find?_cons]
    by_cases hzero : (entryAt (D dp).content k).inum = 0
    · simp only [hzero, if_true, Dirent.named, ne_eq, not_true_eq_false, false_and, decide_false]
      exact hrest
    · rw [if_neg hzero]
      by_cases hname : key dirsiz name = key dirsiz (entryAt (D dp).content k).name
      · have hnamed : (entryAt (D dp).content k).named name = true := by
          simp [Dirent.named, hzero, hname]
        rw [if_pos ((namecmp_eq_zero ..).2 hname), hnamed]
        simp only [wp_bind, wp_pure]
        refine wp_mono (h.wp_iget (hfull _)) ?_
        rintro r v' ⟨rfl, hv'⟩
        exact ⟨rfl, hv'⟩
      · have hnamed : (entryAt (D dp).content k).named name = false := by
          simp [Dirent.named, hname]
        rw [if_neg (fun hcmp => hname ((namecmp_eq_zero ..).1 hcmp)), hnamed]
        exact hrest

theorem At.wp_dirlookup (h : At v n D R L) (hL : L dp = true) (htype : (D dp).type = .dir)
    (hdir : DirShape (D dp).content)
    (hfull : ∀ i, R i = 0 → ninode ≤ inUse n R → E (.panic .iget)) :
    wp (dirlookup dp name) E v fun r v' => r = lookup (D dp).content name ∧
      At v' n D (incrOpt R (r.map Prod.fst)) L := by
  simp only [dirlookup, wp_bind, wp_getSlot, h.valid_copy hL, htype, ne_eq, not_true_eq_false,
    if_false, hdir.offsets_eq]
  exact h.wp_lookupFrom hL hdir hfull _ fun k hk => List.mem_range.1 hk

theorem At.wp_emptyFrom (h : At v n D R L) (hL : L dp = true) (hdir : DirShape (D dp).content)
    (after : ℕ) (ks : List ℕ) (hks : ∀ k ∈ ks, k < (D dp).content.length / direntSize) :
    wp (emptyFrom dp (direntSize * after) (ks.map (direntSize * ·))) E v fun off v' =>
      off = direntSize * (ks.find? fun k => (entryAt (D dp).content k).inum = 0).getD after ∧
      At v' n D R L := by
  induction ks with
  | nil => simpa [emptyFrom] using h
  | cons k ks ih =>
    have hk := hks k List.mem_cons_self
    have hrest := ih fun k' hk' => hks k' (List.mem_cons_of_mem _ hk')
    simp only [List.map_cons, emptyFrom, wp_bind, wp_readi, h.valid_copy hL, hdir.readBytes_eq hk,
      entry_length hk, ne_eq, not_true_eq_false, if_false]
    rw [← entryAt, List.find?_cons]
    by_cases hzero : (entryAt (D dp).content k).inum = 0
    · simpa [hzero] using h
    · simpa [hzero] using hrest

theorem emptyAt_le (c : List Byte) : emptyAt c ≤ numEntries c := by
  rw [emptyAt]
  cases hfind : (List.range (c.length / direntSize)).find? fun k => (entryAt c k).inum = 0 with
  | none => exact le_rfl
  | some k => exact (List.mem_range.1 (List.mem_of_find?_eq_some hfind)).le

theorem fits_strncpy {inum : ℕ} (h : inum < 2 ^ 16) (name : List Byte) :
    (⟨inum, strncpy dirsiz name⟩ : Dirent).Fits :=
  ⟨h, length_strncpy ..⟩

/-- A directory with a new entry. -/
def linked (c name : List Byte) (inum : ℕ) : List Byte :=
  setEntry c (emptyAt c) ⟨inum, strncpy dirsiz name⟩

theorem At.wp_dirlink (h : At v n D R L) (hL : L dp = true) (htype : (D dp).type = .dir)
    (hdir : DirShape (D dp).content) {inum : ℕ} (hinum : inum < 2 ^ 16)
    (hfull : ∀ i, R i = 0 → ninode ≤ inUse n R → E (.panic .iget))
    (hkeep : lookup (D dp).content name ≠ none →
      ∀ i, R i + 1 ≠ 1 ∨ (D i).nlink ≠ 0 ∨ (D i).type = .free)
    (hmax : maxFileSize < direntSize * (emptyAt (D dp).content + 1) → E (.panic .dirlink)) :
    wp (dirlink dp name inum) E v fun r v' => r = (lookup (D dp).content name).isNone ∧
      (r = true → direntSize * (emptyAt (D dp).content + 1) ≤ maxFileSize) ∧
      At v' n (if r then Function.update D dp { D dp with
        content := linked (D dp).content name inum } else D) R L := by
  rw [dirlink, wp_bind]
  refine wp_mono (h.wp_dirlookup hL htype hdir hfull) fun found v₁ hv₁ => ?_
  obtain ⟨hfound, h₁⟩ := hv₁
  rw [← hfound]
  cases found with
  | some pair =>
    obtain ⟨i, off⟩ := pair
    simp only [wp_bind, wp_pure]
    have hpos : 0 < incr R i i := by simp
    refine wp_mono (h₁.wp_iput_keep hpos (fun hl => ?_) ?_) fun _ v₂ h₂ => ?_
    · have := (h.held i hl).1
      simpa [incrOpt] using this
    · simpa [incrOpt] using hkeep (by simp [← hfound]) i
    · have hR : decr (incr R i) i = R := decr_incr R i
      exact ⟨rfl, by simp, by simpa [incrOpt, hR] using h₂⟩
  | none =>
    have hwhole : direntSize * (((D dp).content.length + direntSize - 1) / direntSize) =
        direntSize * ((D dp).content.length / direntSize) := by
      have := hdir.whole
      simp only [direntSize] at this ⊢
      omega
    simp only [wp_bind, wp_getSlot, h₁.valid_copy hL, hdir.offsets_eq, hwhole]
    refine wp_mono (h₁.wp_emptyFrom hL hdir _ _ fun k hk => List.mem_range.1 hk) ?_
    intro off v₂ hv₂
    obtain ⟨rfl, h₂⟩ := hv₂
    rw [← emptyAt]
    have hlen := (fits_strncpy hinum name).length
    have hempty := emptyAt_le (D dp).content
    by_cases hroom : direntSize * (emptyAt (D dp).content + 1) ≤ maxFileSize
    · refine wp_mono (h₂.wp_writei hL ?_ ?_) fun r v₃ hv₃ => ?_
      · simp only [numEntries, direntSize] at hempty ⊢
        omega
      · rw [hlen, ← Nat.mul_succ]
        exact hroom
      · obtain ⟨rfl, h₃⟩ := hv₃
        rw [hlen, if_neg (not_not_intro rfl), wp_pure]
        exact ⟨rfl, fun _ => hroom, h₃⟩
    · have hover : maxFileSize < direntSize * emptyAt (D dp).content +
          (Dirent.toBytes ⟨inum, strncpy dirsiz name⟩).length := by
        rw [hlen, ← Nat.mul_succ]
        exact Nat.lt_of_not_le hroom
      refine wp_writei_max hover ?_
      rw [if_pos (by simp), wp_panic]
      exact hmax (Nat.lt_of_not_le hroom)

end rules
end Xv6.Fs
