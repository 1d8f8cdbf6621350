import Xv6.Vm.Access

/-! `sbrk`: what it does to the memory of its caller and of everyone else, and where its result
does not tell what happened. -/
namespace Xv6
open Bytes Program RefCount

/-- The address space behind a key has the same translations, and its pages the same bytes. -/
structure SameSpace (s t : Sys) (k : TableKey) : Prop where
  pte : ∀ v, v < maxva / pgsize → t.pte k v = s.pte k v
  bytes : ∀ v, v < userPages → valid (s.pte k v) = true →
    t.mach.mem (pte2pa (s.pte k v)) = s.mach.mem (pte2pa (s.pte k v))

/-- Only the size and the memory of the process may differ: bytes below both sizes stay, new pages
are zero, and nobody else notices. -/
structure Resized (s : Sys) (i : ℕ) (t : Sys) : Prop where
  entry : t = (s.setMach t.mach).setProc i { s.proc i with sz := (t.proc i).sz }
  kept : ∀ a, a < min (s.proc i).sz (t.proc i).sz → t.byteAt (.main i) a = s.byteAt (.main i) a
  fresh : ∀ v, v < maxva / pgsize → valid (s.pte (.main i) v) = false →
    valid (t.pte (.main i) v) = true →
    ∀ o, o < pgsize → t.byteAt (.main i) (v * pgsize + o) = some 0
  others : ∀ k, k ≠ .main i → s.table k ≠ 0 → SameSpace s t k

/-- The request has failed: the process table and every address space are as before, and a page
taken on the way is free again unless it holds page table entries. -/
structure BreakKept (s t : Sys) : Prop where
  entry : t = s.setMach t.mach
  spaces : ∀ k, s.table k ≠ 0 → SameSpace s t k
  freed : ∀ p, p ∈ s.mach.freelist → p ∈ t.mach.freelist ∨ t.IsTablePage p

section growth
variable [Image] {s : Sys} {own own' : ℕ → Owner} {m : Machine} {i : ℕ} {n : ℤ}

/-- An operation on one table leaves the other address spaces alone. -/
theorem SysInv.sameSpace (h : SysInv s.mach s.inventory own) {k k' : TableKey}
    (hkeeps : Keeps {s.table k} ∅ s.mach own m own') (hne : k' ≠ k) (hk' : s.table k' ≠ 0) {t : Sys}
    (ht : t.mach = m) (htab : t.table k' = s.table k') : SameSpace s t k' := by
  have hnot : s.table k' ∉ ({s.table k} : Set ℕ) := by
    intro heq
    refine hne (h.inj k' k (by rwa [Sys.inventory_table]) ?_)
    rw [Sys.inventory_table, Sys.inventory_table]
    exact heq
  have hroot := (h.root_of_table hk').1
  constructor
  · intro v _
    rw [Sys.pte, ht, htab]
    exact hkeeps.leaf _ true v hnot hroot
  · intro v hv hval
    rw [ht]
    exact hkeeps.refMem _ v _ hnot (refs_eq_some.mpr ⟨hroot, hv, hval, rfl⟩)

/-- The table of the process maps `V` afterwards, which agrees with its memory below both sizes
and has only pages of zeros where nothing was mapped. -/
theorem SysInv.resized (h : SysInv s.mach s.inventory own) (hi : (s.proc i).pagetable ≠ 0)
    (newsz : ℕ) {V : Space} (he : Effect (s.proc i).pagetable s.mach own m own' V)
    (hbelow : ∀ v, v < npages (min (s.proc i).sz newsz) → v < userPages →
      V v = view s.mach (s.proc i).pagetable v)
    (hnew : ∀ v, v < userPages → view s.mach (s.proc i).pagetable v = none → V v ≠ none →
      V v = some zeroPage) :
    Resized s i ((s.setMach m).setProc i { s.proc i with sz := newsz }) := by
  set t := (s.setMach m).setProc i { s.proc i with sz := newsz } with ht
  have htab : ∀ k, t.table k = s.table k := by
    rintro (j | j) <;> by_cases hj : j = i
    all_goals simp [ht, Sys.table, Sys.setProc, Sys.setMach, hj]
  have hpte : ∀ v, t.pte (.main i) v = leafAt (entry m.mem) (s.proc i).pagetable v := by
    intro v
    rw [Sys.pte, htab]
    rfl
  obtain ⟨hroot, hhigh⟩ := h.root_of_table (k := .main i) hi
  have hbyte : ∀ a, t.byteAt (.main i) a = getByte (clip V) a := by
    intro a
    have htab' : t.table (.main i) = (s.proc i).pagetable := htab (.main i)
    rw [byteAt_eq (by rwa [htab']) (by rw [htab']; exact he.highClosed hhigh), htab',
      ← he.spaceOf_eq hi]
    rfl
  have hsz : (t.proc i).sz = newsz := by
    rw [ht, setProc_self]
  refine ⟨?_, ?_, ?_, ?_⟩
  · rw [hsz, ht]
    rfl
  · intro a ha
    rw [hsz] at ha
    have hpage : a / pgsize < npages (min (s.proc i).sz newsz) := by
      simp only [npages, pgsize] at *
      omega
    rw [hbyte, byteAt_eq (k := .main i) hi hhigh]
    by_cases hlt : a / pgsize < userPages
    · have hV := hbelow _ hpage hlt
      simp only [getByte, clip, spaceOf, Sys.table, if_pos hlt, hV, hi, ne_eq, not_false_eq_true,
        true_and]
    · simp only [getByte, clip, spaceOf, hlt, and_false, if_false]
  · intro v hv hold hnow o ho
    have hlt : v < userPages := by
      by_contra hge
      rw [hpte, he.high v (by omega) (by simp only [maxva, pgsize] at hv; omega)] at hnow
      rw [Sys.pte] at hold
      exact absurd (hnow.symm.trans hold) (by simp)
    have hsome : V v ≠ none := by
      rw [← he.view v hlt, ne_eq, view_eq_none_iff, ← hpte, hnow]
      simp
    have hzero := hnew v hlt (view_eq_none_iff.mpr hold) hsome
    have hdiv : (v * pgsize + o) / pgsize = v := by
      simp only [pgsize] at *
      omega
    rw [hbyte]
    simp [getByte, clip, hdiv, hlt, hzero, zeroPage]
  · intro k hk hk0
    exact h.sameSpace (k := .main i) he.keeps hk hk0 rfl (htab k)

/-- The table maps what it mapped, and below the size with the very same entries. -/
theorem SysInv.breakKept (h : SysInv s.mach s.inventory own) (hi : (s.proc i).pagetable ≠ 0)
    (hsz : (s.proc i).sz ≤ 2 ^ 27)
    (hmaps : MapsBelow s.mach (s.proc i).pagetable (npages (s.proc i).sz))
    (he : EffectOn (Set.Ici (npages (s.proc i).sz)) (s.proc i).pagetable s.mach own m own'
      (view s.mach (s.proc i).pagetable)) : BreakKept s (s.setMach m) := by
  have hroot : own (s.proc i).pagetable = .root true := (h.root_of_table (k := .main i) hi).1
  have hentry : ∀ v, v < userPages → leafAt (entry m.mem) (s.proc i).pagetable v =
      leafAt (entry s.mach.mem) (s.proc i).pagetable v := by
    intro v hv
    by_cases hlt : v < npages (s.proc i).sz
    · exact he.entries v hv (by simpa using hlt)
    · have hnone : view s.mach (s.proc i).pagetable v = none := by
        by_contra hne
        exact hlt ((hmaps v hv).mp hne)
      rw [h.mem.leafAt_of_view_none hroot hnone,
        he.inv.leafAt_of_view_none he.root ((he.view v hv).trans hnone)]
  refine ⟨rfl, ?_, ?_⟩
  · intro k hk0
    by_cases hk : k = .main i
    · subst hk
      constructor
      · intro v hv
        by_cases hlt : v < userPages
        · exact hentry v hlt
        · exact he.high v (by omega) (by simp only [maxva, pgsize] at hv; omega)
      · intro v hv hval
        have hview := he.view v hv
        have hval' : valid (leafAt (entry s.mach.mem) (s.proc i).pagetable v) = true := hval
        rw [view, view, hentry v hv, if_pos hval', if_pos hval'] at hview
        exact congrArg UPage.bytes (Option.some.inj hview)
    · exact h.sameSpace (k := .main i) he.keeps hk hk0 rfl rfl
  · intro p hp
    have hinv : SysInv m (s.setMach m).inventory own' := by
      have heff := h.effect (k := .main i) hi he.toEffect hsz hmaps (fun j hj => by cases hj)
      rwa [update_size_main] at heff
    have hfree := (h.mem.alloc.free p).mp hp
    by_cases hp' : own' p = .free
    · exact Or.inl ((he.inv.alloc.free p).mpr hp')
    · right
      rw [hinv.isTablePage (s := s.setMach m)]
      by_contra htab
      -- a page that belongs to no table has the owner it had
      apply hp'
      rw [← hfree]
      apply he.keeps.owner_eq h.mem he.inv
      · rintro _ rfl u
        rw [he.root, hroot]
      · funext rv
        obtain ⟨r, v⟩ := rv
        by_cases hr : r = (s.proc i).pagetable
        · subst hr
          exact refs_congr (by rw [he.root, hroot]) fun _ hv => hentry v hv
        · exact he.keeps.refs_eq hr v
      · intro r _
        refine ⟨by simp [hfree, Owner.within], fun hw => htab (Owner.isTable_of_within hw)⟩

/-- In every state that the system reaches, `growproc` resizes its caller and keeps what lies below
both sizes, or fails and leaves everything as it was. -/
theorem growproc_effect_on_memory (mem : ℕ → Buf) (ops : List Op) :
    wp (do boot; runOps ops) InitExits (Sys.power mem) fun _ s =>
      ∀ i, Running (s.proc i) → ∀ n : ℤ, -2 ^ 31 ≤ n → n < 2 ^ 31 →
        wp (growproc i n) NoPanic s fun ok t =>
          (ok = true → Resized s i t) ∧ (ok = false → BreakKept s t) := by
  apply wp_system
  rintro outs s ⟨⟨own, h⟩, hok⟩ - i hrun n hlo hhi
  obtain ⟨hi, hroot, hsz, hs⟩ := h.running (hok i) hrun.1
  apply wp_mono (wp_growproc_effect h hok hrun hlo hhi)
  rintro ok t hgrow
  cases hgrow with
  | grew hn hnew hle he =>
    refine ⟨fun _ => h.resized hi _ he.toEffect ?_ ?_, by simp⟩
    · intro v hv _
      rw [min_eq_left (by omega)] at hv
      rw [growSpace, if_neg (by omega)]
    · intro v _ hnone hsome
      unfold growSpace at hsome ⊢
      split
      · rfl
      · rename_i hout
        rw [if_neg hout] at hsome
        exact absurd hnone hsome
  | shrank hn hnew he =>
    refine ⟨fun _ => h.resized hi _ he.toEffect ?_ ?_, by simp⟩
    · intro v hv _
      rw [min_eq_right (by omega)] at hv
      rw [shrinkSpace, if_neg (by omega)]
    · intro v _ hnone hsome
      unfold shrinkSpace at hsome
      split at hsome
      · exact absurd rfl hsome
      · exact absurd hnone hsome
  | ignored hn =>
    refine ⟨fun _ => ?_, by simp⟩
    have hsame : (s.setMach s.mach).setProc i { s.proc i with sz := (s.proc i).sz } = s :=
      setProc_same
    have hresized := h.resized hi (s.proc i).sz (Effect.refl h.mem hroot)
      (fun _ _ _ => rfl) fun _ _ hnone hsome => absurd hnone hsome
    exact Eq.mp (congrArg (Resized s i) hsame) hresized
  | failed hn he => exact ⟨by simp, fun _ => h.breakKept hi hsz hs.maps he⟩

/-- In every state that the system reaches, `sbrk` tells the truth about the break exactly when
the request does not take it below zero. -/
theorem sbrk_moves_break_iff (mem : ℕ → Buf) (ops : List Op) :
    wp (do boot; runOps ops) InitExits (Sys.power mem) fun _ s =>
      ∀ i, Running (s.proc i) → ∀ n : ℤ, -2 ^ 31 ≤ n → n < 2 ^ 31 →
        wp (sysSbrk i n) NoPanic s fun r t =>
          ((r ≠ 2 ^ 64 - 1 → r = (s.proc i).sz ∧ ((t.proc i).sz : ℤ) = (s.proc i).sz + n) ↔
            0 ≤ ((s.proc i).sz : ℤ) + n) := by
  apply wp_system
  rintro outs s ⟨⟨own, h⟩, hok⟩ - i hrun n hlo hhi
  obtain ⟨-, -, hsz, -⟩ := h.running (hok i) hrun.1
  have haddr : throughInt (s.proc i).sz = (s.proc i).sz := throughInt_of_lt (by omega)
  unfold sysSbrk
  simp only [wp_bind, wp_getProc, haddr]
  apply wp_mono (wp_growproc_effect h hok hrun hlo hhi)
  rintro ok t hgrow
  cases hgrow with
  | grew hn hnew hle he =>
    rw [if_pos rfl, wp_pure, setProc_self]
    exact iff_of_true (fun _ => ⟨rfl, hnew.symm⟩) (by omega)
  | shrank hn hnew he =>
    rw [if_pos rfl, wp_pure, setProc_self]
    exact iff_of_true (fun _ => ⟨rfl, hnew.symm⟩) (by omega)
  | ignored hn =>
    rw [if_pos rfl, wp_pure]
    constructor
    · intro hresized
      obtain ⟨-, hsame⟩ := hresized (by omega)
      omega
    · intro hge
      exact fun _ => ⟨rfl, by omega⟩
  | failed hn he =>
    rw [if_neg (by simp), wp_pure]
    exact iff_of_true (fun hne => absurd rfl hne) (by omega)

end growth

/-- After booting, a request for less than nothing returns the size of the first process, and
the size stays. -/
theorem sbrk_below_zero_ignored : letI := smallImage
    wp (do boot; sysSbrk 0 (-4097)) NoPanic (Sys.power fun _ _ => 0) fun r t =>
      r = 4096 ∧ (t.proc 0).sz = 4096 := by
  let image := smallImage
  rw [wp_bind]
  apply wp_mono (wp_boot _)
  rintro _ s ⟨⟨⟨own, h⟩, hok⟩, habs, -⟩
  have hproc : s.abs.proc 0 = refBoot.proc 0 := by rw [habs]
  have hrun : Running (s.proc 0) := ⟨congrArg RefProc.state hproc, congrArg RefProc.inExec hproc⟩
  have hsz : (s.proc 0).sz = 4096 := congrArg RefProc.sz hproc
  unfold sysSbrk
  simp only [wp_bind, wp_getProc, hsz]
  apply wp_mono (wp_growproc_effect h hok hrun (by decide) (by decide))
  rintro ok t hgrow
  cases hgrow with
  | grew hn hnew hle he => exact absurd hn (by decide)
  | shrank hn hnew he => omega
  | ignored hn =>
    rw [if_pos rfl, wp_pure]
    exact ⟨rfl, hsz⟩
  | failed hn he => exact absurd hn (by decide)

end Xv6
