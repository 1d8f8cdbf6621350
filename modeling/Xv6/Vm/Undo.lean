import Xv6.Vm.Growth

/-! What a failed `fork` leaves behind: nothing but marks on pages of the parent, which the next
store removes. -/
namespace Xv6
open Bytes Program RefCount

/-- Every page has the count it had, and the same pages are free. -/
structure SamePages [Image] (s t : Sys) : Prop where
  count : ∀ p, Page p → t.mach.count (idx p) = s.mach.count (idx p)
  free : ∀ p, p ∈ t.mach.freelist ↔ p ∈ s.mach.freelist

/-- A failed `fork` has left the process table, the pages and the memory of everyone as they
were. An entry of the parent that differs is a copy-on-write page with no other reference. -/
structure ForkUndone [Image] (s : Sys) (i : ℕ) (t : Sys) : Prop where
  procs : t = { s with mach := t.mach, nextpid := t.nextpid }
  pages : SamePages s t
  pas : ∀ v, v < maxva / pgsize → valid (t.pte (.main i) v) = valid (s.pte (.main i) v) ∧
    pte2pa (t.pte (.main i) v) = pte2pa (s.pte (.main i) v)
  bytes : ∀ v, v < userPages → valid (s.pte (.main i) v) = true →
    t.mach.mem (pte2pa (s.pte (.main i) v)) = s.mach.mem (pte2pa (s.pte (.main i) v))
  marks : ∀ v, v < maxva / pgsize → t.pte (.main i) v ≠ s.pte (.main i) v →
    user (t.pte (.main i) v) = true ∧ cow (t.pte (.main i) v) = true ∧
      t.mach.count (idx (pte2pa (t.pte (.main i) v))) = 1
  others : ∀ k, k ≠ .main i → s.table k ≠ 0 → SameSpace s t k
  saved : ∀ j, (s.proc j).trapframe ≠ 0 →
    t.mach.mem (s.proc j).trapframe = s.mach.mem (s.proc j).trapframe

section undo
variable [Image] {s t : Sys} {own own' : ℕ → Owner} {E : Panic → Prop} {i : ℕ}

/-- With the same owners and references, the allocator's data are the same. -/
theorem MemInv.same_pages {m m' : Machine} (h : MemInv m own) (h' : MemInv m' own)
    (hrefs : refs (entry m'.mem) own = refs (entry m.mem) own) :
    (∀ p, Page p → m'.count (idx p) = m.count (idx p)) ∧
      ∀ p, p ∈ m'.freelist ↔ p ∈ m.freelist := by
  constructor
  · intro p hp
    have hout := (h.alloc.managed p).mpr hp
    cases ho : own p with
    | outside => exact absurd ho hout
    | free => rw [h'.alloc.zero p ho, h.alloc.zero p ho]
    | data => rw [h'.count_eq ho, h.count_eq ho, hrefs]
    | _ =>
      have hs : (own p).single = true := by rw [ho]; rfl
      rw [h'.alloc.one p hs, h.alloc.one p hs]
  · intro p
    rw [h'.alloc.free, h.alloc.free]

/-- The inventory and the references are the same as before, and no table has got or lost a
page. -/
theorem SysInv.samePages (h : SysInv s.mach s.inventory own)
    (h' : SysInv t.mach s.inventory own') {R : Set ℕ}
    (hk : KeepsBut ∅ R ∅ s.mach own t.mach own')
    (hrefs : ∀ r v, r ∈ R →
      refs (entry t.mach.mem) own' (r, v) = refs (entry s.mach.mem) own (r, v)) :
    SamePages s t := by
  have hall : refs (entry t.mach.mem) own' = refs (entry s.mach.mem) own := by
    funext ⟨r, v⟩
    by_cases hr : r ∈ R
    · exact hrefs r v hr
    · exact hk.refs_eq hr v
  obtain rfl : own' = own := by
    funext p
    exact hk.owner_eq h.mem h'.mem (fun r _ u => h.root_iff h' r u) hall (by simp)
  obtain ⟨hcount, hfree⟩ := h.mem.same_pages h'.mem hall
  exact ⟨hcount, hfree⟩

/-- What `fork` leaves when it fails. -/
theorem SysInv.forkUndone (h : SysInv s.mach s.inventory own) (hi : (s.proc i).pagetable ≠ 0)
    (hf : ForkFailed s own i t own') : ForkUndone s i t := by
  obtain ⟨hroot, hhigh⟩ := h.root_of_table (k := .main i) hi
  have hproc : t.proc = s.proc := by rw [hf.eq]; rfl
  have htab : ∀ k, t.table k = s.table k := by
    rintro (j | j) <;> simp [Sys.table, hproc]
  have hpte : ∀ v, t.pte (.main i) v = leafAt (entry t.mach.mem) (s.proc i).pagetable v := by
    intro v
    rw [Sys.pte, htab]
    rfl
  have hdown : ∀ v, v < maxva / pgsize → Downgraded (s.pte (.main i) v) (t.pte (.main i) v) := by
    intro v hv
    rw [hpte]
    by_cases hlt : v < userPages
    · exact hf.entries v hlt
    · exact Or.inl (hf.high v (by omega) (by simp only [maxva, pgsize] at hv; omega))
  have hpages : SamePages s t := by
    apply h.samePages hf.inv hf.keeps
    rintro _ v rfl
    have hroots := h.root_iff hf.inv (s.proc i).pagetable true
    unfold refs
    by_cases hv : v < userPages
    · obtain ⟨hval, -, hpa⟩ := (hf.entries v hv).kept
      simp only [hroots, hval, hpa]
    · simp [hv]
  have hspace : spaceOf t.mach (s.proc i).pagetable = spaceOf s.mach (s.proc i).pagetable := by
    have habs := congrArg (fun a : Ref => (a.proc i).space) hf.abs
    simpa [Sys.abs, absProc, hproc] using habs
  constructor
  · rw [hf.eq]
    rfl
  · exact hpages
  · intro v hv
    obtain ⟨hval, -, hpa⟩ := (hdown v hv).kept
    exact ⟨hval, hpa⟩
  · intro v hv hval
    have hval₀ : valid (leafAt (entry s.mach.mem) (s.proc i).pagetable v) = true := hval
    have hview := congrFun hspace v
    obtain ⟨hval', -, hpa⟩ := (hf.entries v hv).kept
    rw [spaceOf, spaceOf, if_pos ⟨hi, hv⟩, if_pos ⟨hi, hv⟩, view, view, hval', hpa,
      if_pos hval₀, if_pos hval₀] at hview
    exact congrArg UPage.bytes (Option.some.inj hview)
  · intro v hv hne
    rcases hdown v hv with hsame | ⟨hw, hu, hmark⟩
    · exact absurd hsame hne
    · obtain ⟨-, huser, hpa⟩ := (hdown v hv).kept
      have hlt : v < userPages := by
        by_contra hge
        exact hne ((hpte v).trans (hf.high v (by omega) (by simp only [maxva, pgsize] at hv; omega)))
      have hval : valid (s.pte (.main i) v) = true := by
        rcases h.mem.tree.leafAt_entry hroot v with h0 | hl
        · rw [Sys.pte, h0] at hu
          exact absurd hu (by decide)
        · exact hl.1
      have hk : refs (entry s.mach.mem) own ((s.proc i).pagetable, v) =
          some (pte2pa (s.pte (.main i) v)) := refs_eq_some.mpr ⟨hroot, hlt, hval, rfl⟩
      refine ⟨by rw [huser, hu], by simp [hmark, (shareFlags_bits _).2.2.2.2], ?_⟩
      rw [hpa, hpages.count _ (h.mem.tree.page _ (by simp [h.mem.target hk]))]
      exact h.pte_sole (k := .main i) hi (by simp only [maxva, pgsize] at hv; omega) hval hu hw
  · intro k hk hk0
    exact h.sameSpace (k := .main i) (hf.keeps.weaken (Set.empty_subset _) le_rfl le_rfl) hk hk0 rfl
      (htab k)
  · intro j hj
    exact hf.keeps.heldMem _ (.trapframe j) (Set.notMem_empty _) (h.trapframe_held hj)

theorem ForkUndone.refl : ForkUndone s i s where
  procs := rfl
  pages := ⟨fun _ _ => rfl, fun _ => Iff.rfl⟩
  pas := fun _ _ => ⟨rfl, rfl⟩
  bytes := fun _ _ _ => rfl
  marks := fun _ _ hne => absurd rfl hne
  others := fun _ _ _ => ⟨fun _ _ => rfl, fun _ _ _ => rfl⟩
  saved := fun _ _ => rfl

/-- A store to a copy-on-write page without other references needs no free page. -/
theorem SysInv.wp_userStore_sole (h : SysInv s.mach s.inventory own)
    (hok : ∀ j, ProcOk j (s.proc j)) (hrun : Running (s.proc i)) {va : ℕ} {b : UInt8}
    (hmap : s.UserMapped (.main i) va) (hcow : cow (s.pte (.main i) (va / pgsize)) = true)
    (hone : s.mach.count (idx (pte2pa (s.pte (.main i) (va / pgsize)))) = 1) :
    wp (userStore i va b) E s fun ok t => ok = true ∧ t.mach.freelist = s.mach.freelist ∧
      t.byteAt (.main i) va = some b := by
  obtain ⟨hi, hroot, -, hs⟩ := h.running (hok i) hrun.1
  obtain ⟨hlt, hval, huser⟩ := hmap
  unfold userStore
  simp only [wp_bind, wp_getProc, wp_mach]
  apply wp_storeByte h.mem hroot hs.highClosed
  · -- the page is marked, so that the first attempt faults
    intro t hv hp _ _
    have hw := (h.mem.sharing.flags (_, va / pgsize) _ (refs_eq_some.mpr ⟨hroot, hv, hval, rfl⟩)).2
      huser
    have hcow' := hw.mp hp.2.2
    exact absurd (hcow.symm.trans hcow') (by simp)
  · intro _
    simp only [Bool.false_eq_true, if_false, wp_bind, wp_mach]
    apply wp_cowalloc_exact h.mem hroot hs.highClosed
    · intro hno
      exact absurd ⟨hlt, hval, huser, hcow, Or.inl hone⟩ hno
    · intro _ hv q hq pte hk
      refine ⟨fun _ => ?_, fun m hmany => absurd hone (Nat.ne_of_gt hmany)⟩
      obtain ⟨he, hpriv⟩ := h.mem.cowSole hq hk huser hone
      have hhigh := he.highClosed hs.highClosed
      simp only [if_true, wp_mach]
      apply wp_storeByte he.inv he.root hhigh
      · intro t _ _ he' hfree
        refine ⟨rfl, hfree, ?_⟩
        rw [setMach_setMach, setMach_setMach, byteAt_eq (s := s.setMach t) (k := .main i) hi (he'.highClosed hhigh)]
        change getByte (spaceOf t (s.proc i).pagetable) va = some b
        have hold := hpriv.getByte hv (V := view _ (s.proc i).pagetable) rfl
        obtain ⟨x, hx⟩ := Option.ne_none_iff_exists'.mp hold
        rw [he'.spaceOf_eq hi, clip_putBytes, getByte_putBytes, hx]
        simp
      · intro hno
        exact absurd ⟨hlt, hpriv⟩ hno

/-- In every state that the system reaches, `fork` makes a child or fails, and a failed `fork` is
undone. The marks it may leave cost nothing: wherever the parent meets a copy-on-write page
without other references later on, its store succeeds in place. -/
theorem failed_fork_undone (mem : ℕ → Buf) (ops : List Op) :
    wp (do boot; runOps ops) InitExits (Sys.power mem) fun _ s =>
      ∀ i, Running (s.proc i) → wp (fork i) NoPanic s fun r t =>
        RefFork s.abs i r t.abs ∧ (r = none → ForkUndone s i t ∧
          ∀ later, wp (runOps later) InitExits t fun _ u => ∀ va b, Running (u.proc i) →
            u.UserMapped (.main i) va → cow (u.pte (.main i) (va / pgsize)) = true →
            u.mach.count (idx (pte2pa (u.pte (.main i) (va / pgsize)))) = 1 →
            wp (userStore i va b) NoPanic u fun ok w => ok = true ∧
              w.mach.freelist = u.mach.freelist ∧ w.byteAt (.main i) va = some b) := by
  apply wp_system
  rintro outs s ⟨⟨own, h⟩, hok⟩ - i hrun
  obtain ⟨hi, hroot, -⟩ := h.running (hok i) hrun.1
  apply wp_mono (wp_fork_effect h hok hrun)
  intro r t hf
  obtain ⟨ht, href⟩ := hf.refFork h hok
  refine ⟨href, fun hnone => ⟨?_, fun later => ?_⟩⟩
  · subst hnone
    unfold ForkEffect at hf
    split at hf
    · obtain ⟨-, rfl⟩ := hf
      exact ForkUndone.refl
    · rcases hf with ⟨-, -, own', hfail⟩ | ⟨hsome, -⟩
      · exact h.forkUndone hi hfail
      · cases hsome
  · apply wp_mono (wp_runOps (E := InitExits) later ht rfl)
    rintro _ u ⟨⟨⟨own', h'⟩, hok'⟩, -⟩ va b hrun' hmap hcow hone
    exact h'.wp_userStore_sole hok' hrun' hmap hcow hone

end undo
end Xv6
