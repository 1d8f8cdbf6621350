import Xv6.Fs.Calls
import Xv6.Fs.Paths

/-! Directories as finite maps: each name has one entry, and the calls change one name at a time. -/
namespace Xv6.Fs
open Program

/-- The entry is in use. -/
def Dirent.live (de : Dirent) : Prop := de.inum ≠ 0

instance (de : Dirent) : Decidable de.live := inferInstanceAs (Decidable (de.inum ≠ 0))

/-- A well-formed directory. -/
structure DirMap (c : List Byte) : Prop where
  shape : DirShape c
  two : 2 ≤ numEntries c
  dot : (entryAt c 0).named dot
  dotdot : (entryAt c 1).named dotdot
  distinct : ∀ k < numEntries c, ∀ k' < numEntries c, (entryAt c k).live → (entryAt c k').live →
    key dirsiz (entryAt c k).name = key dirsiz (entryAt c k').name → k = k'

/-- The cleared entry. -/
def Dirent.zero : Dirent := ⟨0, List.replicate dirsiz 0⟩

theorem Dirent.zero_fits : Dirent.zero.Fits := ⟨by decide, by simp [Dirent.zero]⟩

theorem Dirent.zero_toBytes : Dirent.zero.toBytes = List.replicate direntSize 0 := by decide

section lookup
variable {c name : List Byte} {i off k : ℕ}

theorem Dirent.named_iff {de : Dirent} :
    de.named name ↔ de.live ∧ key dirsiz name = key dirsiz de.name := by
  simp [Dirent.named, Dirent.live]

theorem lookup_eq_none :
    lookup c name = none ↔ ∀ k < numEntries c, ¬ (entryAt c k).named name := by
  simp [lookup, numEntries]

theorem exists_of_lookup (h : lookup c name = some (i, off)) : ∃ k < numEntries c,
    (entryAt c k).named name ∧ (entryAt c k).inum = i ∧ off = direntSize * k := by
  obtain ⟨k, hk, heq⟩ := Option.map_eq_some_iff.1 h
  obtain ⟨rfl, rfl⟩ := Prod.mk.inj heq
  have hnamed : (entryAt c k).named name = true := by simpa using List.find?_some hk
  exact ⟨k, List.mem_range.1 (List.mem_of_find?_eq_some hk), hnamed, rfl, rfl⟩

/-- With one entry for each name, any entry with the name is the one that is found. -/
theorem DirMap.lookup_eq (h : DirMap c) (hk : k < numEntries c) (hnamed : (entryAt c k).named name) :
    lookup c name = some ((entryAt c k).inum, direntSize * k) := by
  cases hl : lookup c name with
  | none => exact absurd hnamed (lookup_eq_none.1 hl k hk)
  | some pair =>
    obtain ⟨i, off⟩ := pair
    obtain ⟨k', hk', hnamed', rfl, rfl⟩ := exists_of_lookup hl
    obtain ⟨hlive, hkey⟩ := Dirent.named_iff.1 hnamed
    obtain ⟨hlive', hkey'⟩ := Dirent.named_iff.1 hnamed'
    rw [h.distinct k' hk' k hk hlive' hlive (hkey'.symm.trans hkey)]

/-- What a lookup in a changed directory finds, if one entry has been replaced. -/
theorem lookup_setEntry_of_other {de : Dirent} (hde : de.Fits) (hk : k ≤ numEntries c)
    (h' : DirMap (setEntry c k de)) (hnew : ¬ de.named name)
    (hold : k < numEntries c → ¬ (entryAt c k).named name) :
    lookup (setEntry c k de) name = lookup c name := by
  cases hl : lookup c name with
  | none =>
    rw [lookup_eq_none] at hl ⊢
    intro j hj
    by_cases hjk : j = k
    · subst hjk
      rw [entryAt_setEntry_self hde hk]
      exact hnew
    · rw [numEntries_setEntry hde hk] at hj
      rw [entryAt_setEntry_of_ne hde hk hjk]
      exact hl j (by omega)
  | some pair =>
    obtain ⟨i, off⟩ := pair
    obtain ⟨j, hj, hnamed, rfl, rfl⟩ := exists_of_lookup hl
    have hjk : j ≠ k := by
      rintro rfl
      exact hold hj hnamed
    have hentry := entryAt_setEntry_of_ne hde hk hjk
    rw [← hentry] at hnamed ⊢
    refine h'.lookup_eq ?_ hnamed
    rw [numEntries_setEntry hde hk]
    exact hj.trans_le (le_max_left ..)

end lookup

section change
variable {c name : List Byte} {i k : ℕ} {de : Dirent}

theorem DirMap.live_zero (h : DirMap c) : (entryAt c 0).live := (Dirent.named_iff.1 h.dot).1

theorem DirMap.live_one (h : DirMap c) : (entryAt c 1).live := (Dirent.named_iff.1 h.dotdot).1

/-- One of the other entries is replaced, by one that is not in use or has a new name. -/
theorem DirMap.setEntry (h : DirMap c) (hde : de.Fits) (htwo : 2 ≤ k) (hk : k ≤ numEntries c)
    (hmax : direntSize * (k + 1) ≤ maxFileSize)
    (hnew : de.live → ∀ j < numEntries c, j ≠ k → ¬ (entryAt c j).named de.name) :
    DirMap (setEntry c k de) := by
  have hnum := numEntries_setEntry hde hk
  have hother : ∀ j, j ≠ k → entryAt (Fs.setEntry c k de) j = entryAt c j :=
    fun j => entryAt_setEntry_of_ne hde hk
  have hself := entryAt_setEntry_self hde hk
  refine ⟨h.shape.setEntry hde hk hmax, ?_, ?_, ?_, ?_⟩
  · rw [hnum]
    exact h.two.trans (le_max_left ..)
  · rw [hother 0 (by omega)]
    exact h.dot
  · rw [hother 1 (by omega)]
    exact h.dotdot
  · intro j hj j' hj' hlive hlive' hkey
    rw [hnum] at hj hj'
    by_cases hjk : j = k <;> by_cases hjk' : j' = k
    · rw [hjk, hjk']
    · subst hjk
      rw [hself, hother j' hjk'] at *
      exact absurd (Dirent.named_iff.2 ⟨hlive', hkey⟩) (hnew hlive j' (by omega) hjk')
    · subst hjk'
      rw [hself, hother j hjk] at *
      exact absurd (Dirent.named_iff.2 ⟨hlive, hkey.symm⟩) (hnew hlive' j (by omega) hjk)
    · rw [hother j hjk, hother j' hjk'] at *
      exact h.distinct j (by omega) j' (by omega) hlive hlive' hkey

/-- The place that `dirlink` chooses is not in use. -/
theorem emptyAt_spec (c : List Byte) :
    emptyAt c = numEntries c ∨ emptyAt c < numEntries c ∧ ¬ (entryAt c (emptyAt c)).live := by
  rw [emptyAt]
  cases hfind : (List.range (c.length / direntSize)).find? fun k => (entryAt c k).inum = 0 with
  | none => exact .inl rfl
  | some k =>
    have hzero : (entryAt c k).inum = 0 := by simpa using List.find?_some hfind
    exact .inr ⟨List.mem_range.1 (List.mem_of_find?_eq_some hfind), not_not_intro hzero⟩

theorem DirMap.two_le_emptyAt (h : DirMap c) : 2 ≤ emptyAt c := by
  obtain heq | ⟨-, hdead⟩ := emptyAt_spec c
  · rw [heq]
    exact h.two
  · by_contra hlt
    obtain h0 | h1 : emptyAt c = 0 ∨ emptyAt c = 1 := by omega
    · exact hdead (h0 ▸ h.live_zero)
    · exact hdead (h1 ▸ h.live_one)

theorem key_strncpy_dirsiz (name : List Byte) : key dirsiz (strncpy dirsiz name) = key dirsiz name :=
  key_strncpy ..

theorem not_named_of_dead {name : List Byte} (h : ¬ de.live) : ¬ de.named name :=
  fun hn => h (Dirent.named_iff.1 hn).1

theorem named_congr {name name' : List Byte} (h : key dirsiz name = key dirsiz name') :
    de.named name ↔ de.named name' := by
  rw [Dirent.named_iff, Dirent.named_iff, h]

/-- `dirlink` of a name that is not there. -/
theorem DirMap.linked (h : DirMap c) (hi : i < 2 ^ 16) (hnone : lookup c name = none)
    (hroom : direntSize * (emptyAt c + 1) ≤ maxFileSize) : DirMap (linked c name i) := by
  refine h.setEntry (fits_strncpy hi name) h.two_le_emptyAt (emptyAt_le c) hroom ?_
  intro _ j hj _
  rw [named_congr (key_strncpy_dirsiz name)]
  exact lookup_eq_none.1 hnone j hj

theorem DirMap.lookup_linked (h : DirMap c) (hpos : i ≠ 0) (hi : i < 2 ^ 16)
    (hnone : lookup c name = none) (hroom : direntSize * (emptyAt c + 1) ≤ maxFileSize)
    (name' : List Byte) : (lookup (Fs.linked c name i) name').map Prod.fst =
      if key dirsiz name' = key dirsiz name then some i else (lookup c name').map Prod.fst := by
  have hfits := fits_strncpy hi name
  have hle := emptyAt_le c
  have h' := h.linked hi hnone hroom
  have hnamed : ∀ name', (⟨i, strncpy dirsiz name⟩ : Dirent).named name' ↔
      key dirsiz name' = key dirsiz name := by
    intro name'
    rw [Dirent.named_iff, key_strncpy_dirsiz]
    exact and_iff_right hpos
  split_ifs with hkey
  · have hself := entryAt_setEntry_self hfits hle
    have hlt : emptyAt c < numEntries (Fs.linked c name i) := by
      rw [Fs.linked, numEntries_setEntry hfits hle]
      omega
    rw [h'.lookup_eq hlt (by rw [Fs.linked, hself]; exact (hnamed name').2 hkey), Fs.linked, hself]
    rfl
  · rw [Fs.linked, lookup_setEntry_of_other hfits hle h' (mt (hnamed name').1 hkey)]
    intro hlt
    obtain heq | ⟨-, hdead⟩ := emptyAt_spec c
    · omega
    · exact not_named_of_dead hdead

/-- The directory without its `k`-th entry. -/
def cleared (c : List Byte) (k : ℕ) : List Byte := Fs.setEntry c k Dirent.zero

theorem DirShape.room (h : DirShape c) (hk : k < numEntries c) :
    direntSize * (k + 1) ≤ maxFileSize := by
  have hmax := h.max
  simp only [numEntries, direntSize] at hk ⊢
  omega

theorem zero_not_live : ¬ Dirent.zero.live := not_not_intro rfl

theorem DirMap.cleared (h : DirMap c) (htwo : 2 ≤ k) (hk : k < numEntries c) :
    DirMap (cleared c k) :=
  h.setEntry Dirent.zero_fits htwo hk.le (h.shape.room hk) fun hlive => absurd hlive zero_not_live

theorem DirMap.lookup_cleared (h : DirMap c) (htwo : 2 ≤ k) (hk : k < numEntries c)
    (hnamed : (entryAt c k).named name) (name' : List Byte) : lookup (Fs.cleared c k) name' =
      if key dirsiz name' = key dirsiz name then none else lookup c name' := by
  obtain ⟨hlive, hkey⟩ := Dirent.named_iff.1 hnamed
  have hzero := entryAt_setEntry_self (c := c) Dirent.zero_fits hk.le
  split_ifs with hsame
  · rw [lookup_eq_none]
    intro j hj
    by_cases hjk : j = k
    · subst hjk
      rw [Fs.cleared, hzero]
      exact not_named_of_dead zero_not_live
    · rw [Fs.cleared, numEntries_setEntry Dirent.zero_fits hk.le] at hj
      rw [Fs.cleared, entryAt_setEntry_of_ne Dirent.zero_fits hk.le hjk, Dirent.named_iff]
      rintro ⟨hlive', hkey'⟩
      exact hjk (h.distinct j (by omega) k hk hlive' hlive (hkey'.symm.trans (hsame.trans hkey)))
  · refine lookup_setEntry_of_other Dirent.zero_fits hk.le (h.cleared htwo hk)
      (not_named_of_dead zero_not_live) fun _ hn => hsame ?_
    exact (Dirent.named_iff.1 hn).2.trans hkey.symm

end change

/-- The content of a new directory. -/
def dots (ip dp : ℕ) : List Byte := linked (linked [] dot ip) dotdot dp

section dots
variable {ip dp : ℕ}

theorem DirShape.nil : DirShape [] := ⟨rfl, Nat.zero_le _⟩

theorem lookup_nil (name : List Byte) : lookup [] name = none := rfl

theorem numEntries_dot (hip : ip < 2 ^ 16) : numEntries (linked [] dot ip) = 1 :=
  numEntries_setEntry (fits_strncpy hip dot) (Nat.zero_le _)

theorem entryAt_dot (hip : ip < 2 ^ 16) :
    entryAt (linked [] dot ip) 0 = ⟨ip, strncpy dirsiz dot⟩ :=
  entryAt_setEntry_self (fits_strncpy hip dot) (Nat.zero_le _)

theorem emptyAt_dot (hpos : ip ≠ 0) (hip : ip < 2 ^ 16) : emptyAt (linked [] dot ip) = 1 := by
  have hnum := numEntries_dot hip
  obtain heq | ⟨hlt, hdead⟩ := emptyAt_spec (linked [] dot ip)
  · rw [heq, hnum]
  · have hzero : emptyAt (linked [] dot ip) = 0 := by omega
    rw [hzero, entryAt_dot hip] at hdead
    exact absurd hpos hdead

theorem DirShape.dot (hip : ip < 2 ^ 16) : DirShape (linked [] dot ip) :=
  DirShape.nil.setEntry (fits_strncpy hip Fs.dot) (Nat.zero_le _) (by decide)

theorem lookup_dot (hip : ip < 2 ^ 16) : lookup (linked [] dot ip) dotdot = none := by
  rw [lookup_eq_none, numEntries_dot hip]
  intro k hk
  obtain rfl : k = 0 := by omega
  rw [entryAt_dot hip, Dirent.named_iff]
  have hkeys : key dirsiz dotdot ≠ key dirsiz (strncpy dirsiz dot) := by decide
  exact fun hnamed => hkeys hnamed.2

theorem numEntries_dots (hpos : ip ≠ 0) (hip : ip < 2 ^ 16) (hdp : dp < 2 ^ 16) :
    numEntries (dots ip dp) = 2 := by
  have hle := (emptyAt_le (linked [] dot ip))
  rw [dots, linked, numEntries_setEntry (fits_strncpy hdp dotdot) hle, numEntries_dot hip,
    emptyAt_dot hpos hip]
  rfl

theorem entryAt_dots_zero (hpos : ip ≠ 0) (hip : ip < 2 ^ 16) (hdp : dp < 2 ^ 16) :
    entryAt (dots ip dp) 0 = ⟨ip, strncpy dirsiz dot⟩ := by
  have hle := (emptyAt_le (linked [] dot ip))
  have hne : 0 ≠ emptyAt (linked [] dot ip) := by
    rw [emptyAt_dot hpos hip]
    decide
  rw [dots, linked, entryAt_setEntry_of_ne (fits_strncpy hdp dotdot) hle hne, entryAt_dot hip]

theorem entryAt_dots_one (hpos : ip ≠ 0) (hip : ip < 2 ^ 16) (hdp : dp < 2 ^ 16) :
    entryAt (dots ip dp) 1 = ⟨dp, strncpy dirsiz dotdot⟩ := by
  have hle := (emptyAt_le (linked [] dot ip))
  have hself := entryAt_setEntry_self (fits_strncpy hdp dotdot) hle
  rw [dots, linked]
  rw [emptyAt_dot hpos hip] at hself ⊢
  exact hself

theorem dots_map (hpos : ip ≠ 0) (hip : ip < 2 ^ 16) (hpos' : dp ≠ 0) (hdp : dp < 2 ^ 16) :
    DirMap (dots ip dp) := by
  have hnum := numEntries_dots hpos hip hdp
  have hzero := entryAt_dots_zero hpos hip hdp
  have hone := entryAt_dots_one hpos hip hdp
  have hkeys : key dirsiz (strncpy dirsiz dot) ≠ key dirsiz (strncpy dirsiz dotdot) := by decide
  refine ⟨?_, hnum.ge, ?_, ?_, ?_⟩
  · refine (DirShape.dot hip).setEntry (fits_strncpy hdp dotdot) (emptyAt_le _) ?_
    rw [emptyAt_dot hpos hip]
    decide
  · rw [hzero, Dirent.named_iff, key_strncpy_dirsiz]
    exact ⟨hpos, rfl⟩
  · rw [hone, Dirent.named_iff, key_strncpy_dirsiz]
    exact ⟨hpos', rfl⟩
  · rw [hnum]
    intro k hk k' hk' _ _ hkey
    obtain rfl | rfl : k = 0 ∨ k = 1 := by omega
    · obtain rfl | rfl : k' = 0 ∨ k' = 1 := by omega
      · rfl
      · rw [hzero, hone] at hkey
        exact absurd hkey hkeys
    · obtain rfl | rfl : k' = 0 ∨ k' = 1 := by omega
      · rw [hzero, hone] at hkey
        exact absurd hkey.symm hkeys
      · rfl

end dots
end Xv6.Fs
