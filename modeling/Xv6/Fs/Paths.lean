import Mathlib.Data.List.TakeWhile
import Xv6.Fs.Directory

/-! What a path names, and that `namex` finds it. -/
namespace Xv6.Fs
open Program

/-- The elements of a path, cut off at `DIRSIZ` characters. -/
def components (path : List Byte) : List (List Byte) :=
  (((path.takeWhile (· != 0)).splitOn slash).filter (· ≠ [])).map (·.take dirsiz)

section components
variable {path : List Byte}

theorem components_cons_slash (path : List Byte) : components (slash :: path) = components path := by
  have hslash : (slash != 0) = true := by decide
  simp [components, hslash, List.splitOn, List.splitOnP_cons_eq_if_modifyHead]

theorem components_skipSlashes (path : List Byte) :
    components (skipSlashes path) = components path := by
  induction path with
  | nil => rfl
  | cons c path ih =>
    by_cases hc : c = slash
    · subst hc
      rw [components_cons_slash, ← ih, skipSlashes, skipSlashes, List.dropWhile_cons_of_pos (by simp)]
    · rw [skipSlashes, List.dropWhile_cons_of_neg (by simpa using hc)]

theorem components_of_front (h : front path = 0) : components path = [] := by
  have hstring : path.takeWhile (· != 0) = [] := by
    cases path with
    | nil => rfl
    | cons c path =>
      have hc : c = 0 := h
      simp [hc]
  rw [components, hstring]
  rfl

theorem ne_of_inElem {c : Byte} (h : inElem c) : c ≠ slash ∧ c ≠ 0 := by
  simpa [inElem] using h

theorem takeWhile_inElem {c : Byte} (h : c ∈ path.takeWhile inElem) : c ≠ slash ∧ c ≠ 0 :=
  ne_of_inElem (List.mem_takeWhile_imp h)

/-- The string of a path that starts with an element. -/
theorem takeWhile_elem (path : List Byte) : path.takeWhile (· != 0) =
    path.takeWhile inElem ++ (path.dropWhile inElem).takeWhile (· != 0) := by
  conv_lhs => rw [← List.takeWhile_append_dropWhile (p := inElem) (l := path)]
  refine List.takeWhile_append_of_pos fun c hc => ?_
  simpa using (takeWhile_inElem hc).2

theorem components_elem {c : Byte} {cs : List Byte} (hpath : path = c :: cs) (hc : inElem c) :
    components path =
      (path.takeWhile inElem).take dirsiz :: components (path.dropWhile inElem) := by
  have hne : path.takeWhile inElem ≠ [] := by
    rw [hpath, List.takeWhile_cons_of_pos hc]
    exact List.cons_ne_nil _ _
  have hslash : ∀ b ∈ path.takeWhile inElem, (b == slash) = false := by
    intro b hb
    simpa using (takeWhile_inElem hb).1
  have hnone : components [] = [] := rfl
  rw [components, takeWhile_elem]
  cases hrest : path.dropWhile inElem with
  | nil =>
    rw [List.takeWhile_nil, List.append_nil, List.splitOn, List.splitOnP_eq_singleton hslash, hnone]
    simp [hne]
  | cons r rest =>
    have hr : ¬ inElem r := by
      have := List.head?_dropWhile_not inElem path
      rw [hrest] at this
      simpa using this
    by_cases hzero : r = 0
    · rw [hzero, List.takeWhile_cons_of_neg (by simp), List.append_nil, List.splitOn,
        List.splitOnP_eq_singleton hslash, components_of_front rfl]
      simp [hne]
    · have hr' : r = slash := by
        by_contra hne'
        exact hr (by simp [inElem, hzero, hne'])
      rw [hr', List.takeWhile_cons_of_pos (by decide), List.splitOn,
        List.splitOnP_append_cons_of_forall_mem hslash _ (by simp), components_cons_slash]
      simp [hne, components, List.splitOn]

end components

theorem key_elem {s : List Byte} (h : ∀ c ∈ s, c ≠ 0) (name : List Byte) :
    key dirsiz (if dirsiz ≤ s.length then s.take dirsiz else s ++ 0 :: name.drop (s.length + 1)) =
      s.take dirsiz := by
  have hall : ∀ c ∈ s.take dirsiz, (c != 0) = true := fun c hc => by
    simpa using h c (List.mem_of_mem_take hc)
  split_ifs with hlen
  · rw [key, List.take_take, Nat.min_self, List.takeWhile_eq_self_iff.2 hall]
  · have hlt : s.length < dirsiz := Nat.lt_of_not_le hlen
    obtain ⟨d, hd⟩ : ∃ d, dirsiz - s.length = d + 1 := ⟨dirsiz - s.length - 1, by omega⟩
    rw [List.take_of_length_le hlt.le] at hall
    rw [key, List.take_append, List.take_of_length_le hlt.le, hd, List.take_succ_cons,
      List.takeWhile_append_of_pos hall, List.takeWhile_cons_of_neg (by simp), List.append_nil]

section skipelem
variable {path name rest name' : List Byte}

theorem components_of_skipelem_none (h : skipelem path name = none) : components path = [] := by
  unfold skipelem at h
  dsimp only at h
  split at h
  · rename_i hfront
    rw [← components_skipSlashes, components_of_front hfront]
  · contradiction

theorem front_skipSlashes_iff (path : List Byte) :
    front (skipSlashes path) = 0 ↔ components (skipSlashes path) = [] := by
  refine ⟨components_of_front, fun h => ?_⟩
  by_contra hfront
  obtain ⟨c, cs, hpath, hc⟩ := front_skipSlashes path hfront
  rw [components_elem hpath hc] at h
  contradiction

/-- `skipelem` takes the first element off the path. -/
theorem components_of_skipelem (h : skipelem path name = some (rest, name')) :
    components path = key dirsiz name' :: components rest ∧
      (front rest = 0 ↔ components rest = []) := by
  unfold skipelem at h
  dsimp only at h
  split at h
  · contradiction
  · rename_i hfront
    obtain ⟨rfl, rfl⟩ := Prod.mk.inj (Option.some.inj h)
    obtain ⟨c, cs, hpath, hc⟩ := front_skipSlashes path hfront
    refine ⟨?_, front_skipSlashes_iff _⟩
    rw [← components_skipSlashes path, components_elem hpath hc, components_skipSlashes,
      key_elem fun c hc => (takeWhile_inElem hc).2]

end skipelem

/-- The inode that `i` has under a name, if it is a directory. -/
def child (D : ℕ → Inode) (i : ℕ) (name : List Byte) : Option ℕ :=
  if (D i).type = .dir then (lookup (D i).content name).map Prod.fst else none

/-- The inode that a list of names leads to. -/
def walk (D : ℕ → Inode) : ℕ → List (List Byte) → Option ℕ
  | i, [] => some i
  | i, name :: names => (child D i name).bind fun j => walk D j names

/-- The directory that all names but the last lead to. -/
def walkParent (D : ℕ → Inode) (i : ℕ) (names : List (List Byte)) : Option ℕ :=
  if names = [] then none
  else (walk D i names.dropLast).filter fun j => (D j).type = .dir

/-- A walk ends where it starts or at an entry. -/
theorem walk_some {D : ℕ → Inode} {i j : ℕ} {names : List (List Byte)} (h : walk D i names = some j) :
    j = i ∨ ∃ k name, child D k name = some j := by
  induction names generalizing i with
  | nil => exact .inl (Option.some.inj h).symm
  | cons name names ih =>
    obtain ⟨k, hk, hwalk⟩ := Option.bind_eq_some_iff.1 h
    obtain rfl | hchild := ih hwalk
    · exact .inr ⟨i, name, hk⟩
    · exact .inr hchild

/-- What a walk that may come to free inodes relies on. -/
structure Walkable (E : Stop → Prop) (D : ℕ → Inode) (R : ℕ → ℕ) : Prop where
  shape : ∀ i, (D i).type = .dir → DirShape (D i).content
  dangling : ∀ i name j, child D i name = some j → (D j).type = .free → E (.panic .ilockNoType)
  kept : ∀ i, (D i).type ≠ .free → (D i).nlink ≠ 0 ∨ 0 < R i

/-- A tree whose entries name allocated inodes, each of them with a link or a reference. -/
structure Consistent (n : ℕ) (D : ℕ → Inode) (R : ℕ → ℕ) : Prop where
  root : (D rootino).type = .dir
  shape : ∀ i, (D i).type = .dir → DirShape (D i).content
  live : ∀ i name j, child D i name = some j → j < n ∧ (D j).type ≠ .free
  kept : ∀ i, (D i).type ≠ .free → (D i).nlink ≠ 0 ∨ 0 < R i

theorem Consistent.walkable {E : Stop → Prop} {n : ℕ} {D : ℕ → Inode} {R : ℕ → ℕ}
    (h : Consistent n D R) : Walkable E D R :=
  ⟨h.shape, fun i name j hj hfree => absurd hfree (h.live i name j hj).2, h.kept⟩

theorem lookup_congr {c name name' : List Byte} (h : key dirsiz name = key dirsiz name') :
    lookup c name = lookup c name' := by
  simp only [lookup, Dirent.named, h]

theorem key_key (n : ℕ) (s : List Byte) : key n (key n s) = key n s := by
  have hlen : (key n s).length ≤ n :=
    (List.takeWhile_sublist _).length_le.trans (List.length_take_le ..)
  rw [key, List.take_of_length_le hlen, key, List.takeWhile_idem]

theorem child_key (D : ℕ → Inode) (i : ℕ) (name : List Byte) :
    child D i (key dirsiz name) = child D i name := by
  rw [child, lookup_congr (key_key dirsiz name), child]

/-- The inode that `namex` is to return. -/
def resolve (D : ℕ → Inode) (parent : Bool) (i : ℕ) (names : List (List Byte)) : Option ℕ :=
  if parent then walkParent D i names else walk D i names

section resolve
variable {D : ℕ → Inode} {parent : Bool} {i : ℕ} {name : List Byte} {names : List (List Byte)}

theorem resolve_cons (h : parent = true → names ≠ []) : resolve D parent i (name :: names) =
    (child D i name).bind fun j => resolve D parent j names := by
  cases parent with
  | false => rfl
  | true =>
    have hne := h rfl
    simp only [resolve, if_true, walkParent, List.cons_ne_nil, hne, if_false,
      List.dropLast_cons_of_ne_nil hne, walk]
    cases child D i name <;> rfl

theorem resolve_not_dir (h : (D i).type ≠ .dir) : resolve D parent i (name :: names) = none := by
  have hchild : child D i name = none := if_neg h
  by_cases hlast : parent = true ∧ names = []
  · obtain ⟨rfl, rfl⟩ := hlast
    simp [resolve, walkParent, walk, h]
  · rw [resolve_cons fun hp hn => hlast ⟨hp, hn⟩, hchild, Option.bind_none]

theorem resolve_last (h : (D i).type = .dir) : resolve D true i [name] = some i := by
  simp [resolve, walkParent, walk, h]

theorem resolve_parent_dir {j : ℕ} (h : resolve D true i names = some j) : (D j).type = .dir := by
  rw [resolve, if_pos rfl, walkParent] at h
  split_ifs at h with hnames
  simpa using (Option.filter_eq_some_iff.1 h).2

end resolve

section walk
variable {E : Stop → Prop} {v : Volume} {n : ℕ} {D : ℕ → Inode} {R : ℕ → ℕ}

/-- A reference beyond those that were there can be dropped. -/
theorem Walkable.keep {i m : ℕ} (h : Walkable E D R) (hm : R i + 1 ≤ m) :
    m ≠ 1 ∨ (D i).nlink ≠ 0 ∨ (D i).type = .free := by
  by_cases hfree : (D i).type = .free
  · exact .inr (.inr hfree)
  · obtain hlink | href := h.kept i hfree
    · exact .inr (.inl hlink)
    · exact .inl (by omega)

/-- No inode is locked. -/
def unlocked : ℕ → Bool := fun _ => false

/-- The loop of `namex` gives up its inode for the one that the rest of the path leads to. -/
theorem wp_namexLoop (hwalk : Walkable E D R)
    (hfull : ninode < inUse n R + 2 → E (.panic .iget)) (parent : Bool) (path name : List Byte)
    (ip : ℕ) (hip : (D ip).type = .free → E (.panic .ilockNoType))
    (h : At v n D (incr R ip) unlocked) :
    wp (namexLoop parent path name ip) E v fun r v' =>
      r.1 = resolve D parent ip (components path) ∧
      (parent → r.1 ≠ none → (components path).getLast? = some (key dirsiz r.2)) ∧
      At v' n D (incrOpt R r.1) unlocked := by
  induction hlen : path.length using Nat.strong_induction_on generalizing v path name ip with
  | _ len ih =>
  subst hlen
  have hkeep : ∀ R' : ℕ → ℕ, R ip + 1 ≤ R' ip →
      R' ip ≠ 1 ∨ (D ip).nlink ≠ 0 ∨ (D ip).type = .free := fun R' => hwalk.keep
  have hunlock : Function.update (Function.update unlocked ip true) ip false = unlocked := by
    rw [Function.update_idem]
    exact Function.update_eq_self ip unlocked
  rw [namexLoop]
  split
  case h_1 hskip =>
    rw [components_of_skipelem_none hskip]
    cases parent with
    | true =>
      simp only [if_true, wp_bind, wp_pure]
      refine wp_mono (h.wp_iput_keep (by simp) (by simp [unlocked]) (hkeep _ (by simp))) ?_
      intro _ v' hv'
      rw [decr_incr] at hv'
      exact ⟨rfl, by simp, hv'⟩
    | false => simpa [resolve, walk, incrOpt] using h
  case h_2 path' name' hskip =>
    obtain ⟨hcomp, hlast⟩ := components_of_skipelem hskip
    rw [wp_bind, hcomp]
    refine wp_mono (h.wp_ilock (by simp) rfl hip) fun _ v₁ hv₁ => ?_
    have h₁ := hv₁.1
    have hlocked : Function.update unlocked ip true ip = true := Function.update_self ..
    -- both exits without an inode
    have hexit : ∀ v₂, At v₂ n D (incr R ip) (Function.update unlocked ip true) →
        resolve D parent ip (key dirsiz name' :: components path') = none →
        wp (do iunlockput ip; return ((none, name') : Option ℕ × List Byte)) E v₂ fun r v' =>
          r.1 = resolve D parent ip (key dirsiz name' :: components path') ∧
          (parent → r.1 ≠ none → (key dirsiz name' :: components path').getLast? =
            some (key dirsiz r.2)) ∧
          At v' n D (incrOpt R r.1) unlocked := by
      intro v₂ h₂ hnone
      rw [wp_bind, hnone]
      refine wp_mono (h₂.wp_iunlockput_keep hlocked (hkeep _ (by simp))) fun _ v₃ h₃ => ?_
      rw [decr_incr, hunlock] at h₃
      rw [wp_pure]
      exact ⟨rfl, by simp, h₃⟩
    simp only [wp_bind, wp_getSlot, h₁.valid_copy hlocked]
    by_cases hdir : (D ip).type = .dir
    · rw [if_neg (not_not_intro hdir)]
      by_cases hstop : parent = true ∧ front path' = 0
      · obtain ⟨rfl, hfront⟩ := hstop
        rw [if_pos ⟨rfl, hfront⟩, wp_bind, hlast.1 hfront, resolve_last hdir]
        refine wp_mono (h₁.wp_iunlock hlocked) fun _ v₂ h₂ => ?_
        rw [hunlock] at h₂
        rw [wp_pure]
        exact ⟨rfl, fun _ _ => rfl, h₂.1⟩
      · have hmore : parent = true → components path' ≠ [] :=
          fun hp hnil => hstop ⟨hp, hlast.2 hnil⟩
        have hresolve : resolve D parent ip (key dirsiz name' :: components path') = _ :=
          resolve_cons hmore
        rw [child_key, child, if_pos hdir] at hresolve
        rw [if_neg hstop, wp_bind]
        have htable : ∀ i, incr R ip i = 0 → ninode ≤ inUse n (incr R ip) → E (.panic .iget) := by
          intro i _ hin
          have := inUse_incr_le n R ip
          exact hfull (by omega)
        refine wp_mono (h₁.wp_dirlookup hlocked hdir (hwalk.shape ip hdir) htable) ?_
        intro found v₂ h₂
        obtain ⟨hfound, h₂⟩ := h₂
        rw [← hfound] at hresolve
        cases found with
        | none => exact hexit v₂ h₂ hresolve
        | some pair =>
          obtain ⟨next, off⟩ := pair
          simp only [Option.map_some, Option.bind_some] at hresolve
          have hnext : (D next).type = .free → E (.panic .ilockNoType) := by
            refine hwalk.dangling ip name' next ?_
            rw [child, if_pos hdir, ← hfound, Option.map_some]
          simp only [wp_bind]
          refine wp_mono (h₂.wp_iunlockput_keep hlocked (hkeep _ ?_)) fun _ v₃ h₃ => ?_
          · refine (?_ : R ip + 1 ≤ incr R ip ip).trans (le_incr ..)
            rw [incr_self]
          · have h₃' : At v₃ n D (incr R next) unlocked := by
              rw [hunlock] at h₃
              have := decr_incr_comm R ip next
              exact this ▸ h₃
            refine wp_mono (ih _ (skipelem_length hskip) path' name' next hnext h₃' rfl) ?_
            rintro r v' ⟨hr, hname, hv'⟩
            refine ⟨hr.trans hresolve.symm, fun hp hr' => ?_, hv'⟩
            rw [List.getLast?_cons_of_ne_nil (hmore hp)]
            exact hname hp hr'
    · rw [if_pos hdir]
      exact hexit v₁ h₁ (resolve_not_dir hdir)

theorem wp_namex (hwalk : Walkable E D R) (hfull : ninode < inUse n R + 2 → E (.panic .iget))
    (h : At v n D R unlocked) (hroot : (D rootino).type ≠ .free) {cwd : ℕ}
    (hcwd : (D cwd).type ≠ .free) (href : 0 < R cwd) (path : List Byte) (parent : Bool)
    (name : List Byte) :
    wp (namex cwd path parent name) E v fun r v' =>
      r.1 = resolve D parent (if front path = slash then rootino else cwd) (components path) ∧
      (parent → r.1 ≠ none → (components path).getLast? = some (key dirsiz r.2)) ∧
      At v' n D (incrOpt R r.1) unlocked := by
  rw [namex]
  split_ifs with hfront
  · rw [wp_bind]
    refine wp_mono (h.wp_iget fun _ hin => hfull (by omega)) fun r v' hr => ?_
    obtain ⟨rfl, hv'⟩ := hr
    exact wp_namexLoop hwalk hfull parent path name _ (fun hfree => absurd hfree hroot) hv'
  · rw [wp_bind]
    refine wp_mono (h.wp_idup href) fun r v' hr => ?_
    obtain ⟨rfl, hv'⟩ := hr
    exact wp_namexLoop hwalk hfull parent path name _ (fun hfree => absurd hfree hcwd) hv'

/-- `namex` returns what the path names, with one more reference, and locks nothing. Only a table
without room for the two inodes it holds at a time can stop it. -/
theorem namex_resolves (h : At v n D R unlocked) (hcons : Consistent n D R) {cwd : ℕ}
    (hcwd : (D cwd).type = .dir) (href : 0 < R cwd) (path : List Byte) (parent : Bool)
    (name : List Byte) :
    wp (namex cwd path parent name)
      (fun e => e = .panic .iget ∧ ninode < inUse n R + 2) v fun r v' =>
      r.1 = resolve D parent (if front path = slash then rootino else cwd) (components path) ∧
      (parent → r.1 ≠ none → (components path).getLast? = some (key dirsiz r.2)) ∧
      At v' n D (incrOpt R r.1) unlocked :=
  wp_namex hcons.walkable (fun hfull => ⟨rfl, hfull⟩) h (by simp [hcons.root]) (by simp [hcwd]) href
    path parent name

end walk

/-- A root directory with the file `a`, and `m` open files that have been unlinked. -/
def sampleDisk (m i : ℕ) : Inode :=
  if i = 1 then
    ⟨.dir, 0, 0, 1, [⟨1, strncpy dirsiz [46]⟩, ⟨1, strncpy dirsiz [46, 46]⟩,
      ⟨2, strncpy dirsiz [97]⟩].flatMap Dirent.toBytes⟩
  else if i = 2 then ⟨.file, 0, 0, 1, []⟩
  else if 3 ≤ i ∧ i < m + 3 then ⟨.file, 0, 0, 0, []⟩
  else ⟨.free, 0, 0, 0, []⟩

def sampleRefs (m i : ℕ) : ℕ := if i = 1 ∨ 3 ≤ i ∧ i < m + 3 then 1 else 0

def sampleVolume (m : ℕ) : Volume :=
  ⟨60, sampleDisk m, fun i => ⟨sampleRefs m i, false, false, ⟨.free, 0, 0, 0, []⟩⟩⟩

theorem sampleVolume_at (m : ℕ) :
    At (sampleVolume m) 60 (sampleDisk m) (sampleRefs m) unlocked :=
  ⟨rfl, rfl, fun _ => rfl, fun _ => rfl, fun _ _ hv => by contradiction,
    fun _ _ hv => by contradiction, fun _ hl => by contradiction⟩

theorem sampleDisk_dir {m i : ℕ} (h : (sampleDisk m i).type = .dir) : i = 1 := by
  unfold sampleDisk at h
  split_ifs at h with h1
  exact h1

theorem sampleDisk_entry {m k : ℕ} (hk : k < 3) :
    (entryAt (sampleDisk m 1).content k).inum = 1 ∨ (entryAt (sampleDisk m 1).content k).inum = 2 := by
  have hall : ∀ k < 3, (entryAt (sampleDisk 0 1).content k).inum = 1 ∨
      (entryAt (sampleDisk 0 1).content k).inum = 2 := by decide +kernel
  exact hall k hk

theorem sampleDisk_consistent (m : ℕ) : Consistent 60 (sampleDisk m) (sampleRefs m) := by
  have hlen : (sampleDisk m 1).content.length = 48 := by rfl
  refine ⟨rfl, fun i hi => ?_, fun i name j hj => ?_, fun i hi => ?_⟩
  · rw [sampleDisk_dir hi]
    exact ⟨by rw [hlen]; rfl, by rw [hlen]; decide⟩
  · rw [child] at hj
    split_ifs at hj with hi
    rw [sampleDisk_dir hi, lookup, hlen] at hj
    obtain ⟨pair, hpair, rfl⟩ := Option.map_eq_some_iff.1 hj
    obtain ⟨k, hk, rfl⟩ := Option.map_eq_some_iff.1 hpair
    have hmem := List.mem_range.1 (List.mem_of_find?_eq_some hk)
    obtain h1 | h2 := sampleDisk_entry (m := m) (k := k) hmem
    · rw [h1]
      exact ⟨Nat.lt_of_sub_eq_succ rfl, by simp [sampleDisk]⟩
    · rw [h2]
      exact ⟨Nat.lt_of_sub_eq_succ rfl, by simp [sampleDisk]⟩
  · unfold sampleDisk at hi ⊢
    unfold sampleRefs
    split_ifs at hi ⊢ <;> simp_all

theorem namex_resolves_sample :
    wp (namex 1 [47, 97] false blankName)
      (fun e => e = .panic .iget ∧ ninode < inUse 60 (sampleRefs 0) + 2) (sampleVolume 0)
      fun r v' => r.1 = resolve (sampleDisk 0) false rootino [[97]] ∧
        (false → r.1 ≠ none → [[97]].getLast? = some (key dirsiz r.2)) ∧
        At v' 60 (sampleDisk 0) (incrOpt (sampleRefs 0) r.1) unlocked :=
  namex_resolves (sampleVolume_at 0) (sampleDisk_consistent 0) rfl (by decide) [47, 97] false blankName

/-- With 49 more files open the table has no entry for the file `a`. -/
theorem namex_table_full :
    At (sampleVolume 49) 60 (sampleDisk 49) (sampleRefs 49) unlocked ∧
    Consistent 60 (sampleDisk 49) (sampleRefs 49) ∧
    walk (sampleDisk 49) 1 (components [97]) = some 2 ∧
    wp (namex 1 [97] false blankName) (fun e => e = .panic .iget) (sampleVolume 49)
      fun _ _ => False := by
  refine ⟨sampleVolume_at 49, sampleDisk_consistent 49, by decide +kernel, ?_⟩
  rw [namex, if_neg (by decide), wp_bind, idup, wp_bind, wp_getSlot, wp_bind, wp_setSlot, wp_pure,
    namexLoop]
  refine (wp_error (e := .panic .iget) ?_).2 rfl
  rfl

end Xv6.Fs
