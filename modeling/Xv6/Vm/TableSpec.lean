import Xv6.Vm.FreeSpec

/-! The table of a process: its two upper pages, `proc_pagetable` and `proc_freepagetable`. -/
namespace Xv6
open Bytes Program RefCount

theorem trapframeVa_eq : trapframeVa = userPages * pgsize := by
  rw [userPages_eq]
  decide

theorem trampolineVa_eq : trampolineVa = (userPages + 1) * pgsize := by
  rw [userPages_eq]
  decide

/-- The entry for the trapframe page. -/
def trapframePte (trapframe : ℕ) : Pte := pa2pte trapframe ||| (pteR ||| pteW) ||| pteV

section table
variable [Image] {s t : Machine} {own own' : ℕ → Owner} {E : Panic → Prop} {r : ℕ}

/-- The entry for the trampoline page. -/
def trampolinePte : Pte := pa2pte trampoline ||| (pteR ||| pteX) ||| pteV

/-- The address space of a process: `n` user pages from address 0 on, and the two upper pages. -/
structure AddrSpace (s : Machine) (r n trapframe : ℕ) : Prop where
  maps : MapsBelow s r n
  trapframe : leafAt (entry s.mem) r userPages = trapframePte trapframe
  trampoline : leafAt (entry s.mem) r (userPages + 1) = trampolinePte

theorem AddrSpace.highClosed {n tf : ℕ} (h : AddrSpace s r n tf) : HighClosed s r := by
  intro v hv hlt
  have hup := userPages_eq
  obtain rfl | rfl : v = userPages ∨ v = userPages + 1 := by omega
  · rw [h.trapframe, trapframePte, BitVec.or_assoc, user_pa2pte_or]
    rfl
  · rw [h.trampoline, trampolinePte, BitVec.or_assoc, user_pa2pte_or]
    rfl

/-- One of the two upper pages has been mapped or unmapped. -/
structure HighEffect (r v : ℕ) (pte : Pte) (s : Machine) (own : ℕ → Owner) (t : Machine)
    (own' : ℕ → Owner) : Prop where
  inv : MemInv t own'
  keeps : Keeps {r} ∅ s own t own'
  root : own' r = .root true
  view : ∀ v', v' < userPages → view t r v' = view s r v'
  high : ∀ v', userPages ≤ v' → v' < 2 ^ 27 →
    leafAt (entry t.mem) r v' = if v' = v then pte else leafAt (entry s.mem) r v'

theorem MemInv.setHigh (h : MemInv s own) (hr : own r = .root true) {q v : ℕ} {pte : Pte}
    (hq : own q = .low r (ix2 v) (ix1 v)) (hv : userPages ≤ v) (hlt : v < 2 ^ 27)
    (hpte : pte = 0#64 ∨ (valid pte = true ∧ leaf pte = true)) :
    HighEffect r v pte s own (s.setEntry q (ix0 v) pte) own := by
  obtain ⟨h1, k1, l1⟩ := h.setUncounted hq hlt (Or.inr hv) hpte
  refine ⟨h1, k1, hr, ?_, ?_⟩
  · intro v' hv'
    have hleaf := l1 r true v' hr (Or.inr (hv'.trans userPages_lt))
    rw [if_neg (by omega)] at hleaf
    rw [view, view, hleaf]
    by_cases hval : valid (leafAt (entry s.mem) r v') = true
    · have hk := refs_eq_some.mpr ⟨hr, hv', hval, rfl⟩
      rw [if_pos hval, if_pos hval, setEntry_mem_of_plain hq (h.target hk) rfl]
    · rw [if_neg hval, if_neg hval]
  · intro v' _ hlt'
    rw [l1 r true v' hr (Or.inr hlt')]
    by_cases hvv : v' = v
    · rw [if_pos ⟨rfl, hvv⟩, if_pos hvv]
    · rw [if_neg (by simp [hvv]), if_neg hvv]

theorem HighEffect.after (hk : KeepsBut {r} ∅ ∅ s own t own') (hr : own r = .root true)
    {t' : Machine} {own'' : ℕ → Owner} {v : ℕ} {pte : Pte}
    (h : HighEffect r v pte t own' t' own'') : HighEffect r v pte s own t' own'' where
  inv := h.inv
  keeps := hk.changed.trans h.keeps
  root := h.root
  view := fun v' hv' => (h.view v' hv').trans (hk.view_eq (Set.notMem_empty _) hr hv')
  high := fun v' hv' hlt => by
    rw [h.high v' hv' hlt, hk.leaf r true v' (Set.notMem_empty _) hr]

theorem wp_mapHigh (h : MemInv s own) (hr : own r = .root true) {v pa : ℕ} {perm : Pte}
    (hv : userPages ≤ v) (hlt : v < 2 ^ 26) (hempty : leafAt (entry s.mem) r v = 0#64)
    (hperm : readable perm = true) {Q : Bool → Machine → Prop}
    (hfail : ∀ t own', MemInv t own' → KeepsBut {r} ∅ ∅ s own t own' → s.freelist.length < 2 →
      Q false t)
    (hok : ∀ t own', HighEffect r v (pa2pte pa ||| perm ||| pteV) s own t own' →
      s.freelist.length ≤ t.freelist.length + 2 → Q true t) :
    wp (mappages r (v * pgsize) pgsize pa perm) E s Q := by
  apply wp_mappages_page h hr hlt hempty hfail
  intro t own' q ht hk hq _ hlen
  have hr' := (hk.root r true (Set.notMem_empty _)).mpr hr
  have hvalid : valid (pa2pte pa ||| perm ||| pteV) = true := by
    rw [BitVec.or_assoc, valid_pa2pte_or]
    simp [valid, pteV]
  have hleaf : leaf (pa2pte pa ||| perm ||| pteV) = true := by
    rw [BitVec.or_assoc, leaf_pa2pte_or]
    have hread : readable (perm ||| pteV) = true := by
      rw [readable, BitVec.getLsbD_or, ← readable, hperm, Bool.true_or]
    simp [leaf, hread]
  exact hok _ own' (HighEffect.after hk hr
    (ht.setHigh hr' hq hv (by omega) (Or.inr ⟨hvalid, hleaf⟩))) hlen

theorem wp_unmapHigh (h : MemInv s own) (hr : own r = .root true) {v : ℕ}
    (hv : userPages ≤ v) (hlt : v < 2 ^ 26) (hval : valid (leafAt (entry s.mem) r v) = true) :
    wp (uvmunmap r (v * pgsize) 1 false) E s fun _ t => HighEffect r v 0#64 s own t own := by
  have hleaf := h.tree.leaf_of_valid hr hval
  have hturns : ((v * pgsize + 1 * pgsize) % 2 ^ 64 - v * pgsize) / pgsize = 1 := by
    simp only [pgsize]
    omega
  unfold uvmunmap
  rw [if_neg (by simp), hturns, uvmunmapLoop, wp_bind]
  apply wp_walk_mapped h.tree hr hlt hval
  intro q hq hent
  simp only [wp_bind, wp_readPte, hent]
  rw [if_neg (by simp [hval]), if_neg (by
    intro hfl
    rw [leaf_of_pteFlags_eq_pteV hfl] at hleaf
    cases hleaf)]
  simp only [Bool.false_eq_true, if_false, wp_bind, wp_writePte, uvmunmapLoop, wp_pure]
  exact h.setHigh hr hq hv (by omega) (Or.inl rfl)

omit [Image] in
theorem valid_trapframePte (tf : ℕ) : valid (trapframePte tf) = true := by
  rw [trapframePte, BitVec.or_assoc, valid_pa2pte_or]
  rfl

theorem valid_trampolinePte : valid trampolinePte = true := by
  rw [trampolinePte, BitVec.or_assoc, valid_pa2pte_or]
  rfl

/-- `proc_freepagetable` gives back everything that hangs from the table. -/
theorem wp_procFreepagetable (h : MemInv s own) (hr : own r = .root true) {sz tf : ℕ}
    (hsz : sz ≤ 2 ^ 27) (hs : AddrSpace s r (npages sz) tf) :
    wp (procFreepagetable r sz) E s fun _ t => ∃ own', MemInv t own' ∧ Keeps {r} ∅ s own t own' ∧
      own' r = .free := by
  have hup := userPages_eq
  unfold procFreepagetable
  rw [wp_bind, trampolineVa_eq]
  apply wp_mono (wp_unmapHigh (v := userPages + 1) h hr (by omega) (by omega)
    (by rw [hs.trampoline, valid_trampolinePte]))
  intro _ t₁ e₁
  have htf : leafAt (entry t₁.mem) r userPages = trapframePte tf := by
    rw [e₁.high _ le_rfl (by omega), if_neg (by omega), hs.trapframe]
  rw [wp_bind, trapframeVa_eq]
  apply wp_mono (wp_unmapHigh (v := userPages) e₁.inv hr le_rfl (by omega) (by rw [htf, valid_trapframePte]))
  intro _ t₂ e₂
  have hmaps : MapsBelow t₂ r (npages sz) := by
    intro v hv
    rw [e₂.view v hv, e₁.view v hv]
    exact hs.maps v hv
  apply wp_mono (wp_uvmfree e₂.inv hr hsz hmaps _)
  · rintro _ t ⟨own', ht, hk, hfree⟩
    exact ⟨own', ht, (e₁.keeps.trans e₂.keeps).trans hk, hfree⟩
  · intro v hv hlt
    rw [e₂.high v hv (by omega)]
    by_cases hvu : v = userPages
    · rw [if_pos hvu]
    · rw [if_neg hvu, e₁.high v hv (by omega), if_pos (by omega)]

/-- A zeroed page as the root of a new table. -/
theorem MemInv.freshRoot (h : MemInv s own) {p : ℕ} (hl : s.freelist = p :: s.freelist.tail)
    (u : Bool) : let t := (s.allocated p).setPage p fun _ => 0
    MemInv t (Function.update own p (.root u)) ∧
      Keeps {p} ∅ s own t (Function.update own p (.root u)) ∧
      ∀ v, leafAt (entry t.mem) p v = 0#64 := by
  obtain ⟨h1, k1, hz⟩ := h.freshZero hl
  obtain ⟨h2, k2, hleaf⟩ := h1.newRoot u (Function.update_self _ _ _) (fun k _ => hz k)
  rw [Function.update_idem] at h2 k2
  have hp : own p = .free := (h.alloc.free p).mp (by rw [hl]; simp)
  refine ⟨h2, ?_, hleaf⟩
  apply ((k1.mono (Set.empty_subset _) (le_refl _)).trans k2).close
  rintro q rfl τ
  exact ⟨by simp [hp], by simp⟩

/-- Inner table pages belong to a root. -/
theorem Tree.root_of_within {e : Entries} (h : Tree e own) {p : ℕ} (hw : (own p).within = some r) :
    ∃ u, own r = .root u := by
  cases ho : own p with
  | mid r' i =>
    obtain rfl : r' = r := by simpa [ho, Owner.within] using hw
    exact (h.midLink p r' i ho).1
  | low r' i j =>
    obtain rfl : r' = r := by simpa [ho, Owner.within] using hw
    exact (h.low_root ho).1
  | _ => simp [ho, Owner.within] at hw

/-- A table that has been made and dropped again leaves nothing behind. -/
theorem Keeps.dropped {p : ℕ} (h : MemInv s own) (h' : MemInv t own') (hp : own p = .free)
    (hk : Keeps {p} ∅ s own t own') (hp' : own' p = .free) : Keeps ∅ ∅ s own t own' where
  root := by
    intro r u _
    by_cases hrp : r = p
    · subst hrp
      simp [hp, hp']
    · exact hk.root r u (by simpa using hrp)
  held := hk.held
  inner := by
    intro q r o _ ho
    by_cases hrp : r = p
    · subst hrp
      constructor
      · rintro rfl
        obtain ⟨u, hu⟩ := h'.tree.root_of_within ho
        simp [hp'] at hu
      · rintro rfl
        obtain ⟨u, hu⟩ := h.tree.root_of_within ho
        simp [hp] at hu
    · exact hk.inner q r o (by simpa using hrp) ho
  leaf := by
    intro r u v _ hr
    apply hk.leaf r u v _ hr
    rintro rfl
    simp [hp] at hr
  heldMem := hk.heldMem
  refMem := by
    intro r v q _ hq
    apply hk.refMem r v q _ hq
    rintro rfl
    have hr := (refs_eq_some.mp hq).1
    simp [hp] at hr

/-- `proc_pagetable` makes an empty address space, or leaves nothing behind when memory runs
out. -/
theorem wp_procPagetable (h : MemInv s own) {tf : ℕ} :
    wp (procPagetable tf) E s fun r t =>
      (r = 0 ∧ s.freelist.length < 5 ∧ ∃ own', MemInv t own' ∧ Keeps ∅ ∅ s own t own') ∨
      (own r = .free ∧ s.freelist.length ≤ t.freelist.length + 5 ∧ ∃ own', MemInv t own' ∧
        Keeps {r} ∅ s own t own' ∧ own' r = .root true ∧ AddrSpace t r 0 tf) := by
  have hup := userPages_eq
  unfold procPagetable uvmcreate
  simp only [wp_bind]
  apply wp_kalloc h.alloc
  · intro hnil
    simp only [wp_pure]
    exact Or.inl ⟨trivial, by simp [hnil], own, h, Keeps.refl _ _ _ _⟩
  · intro p hp hl
    obtain ⟨h1, k1, hz1⟩ := h.freshRoot hl true
    simp only [wp_bind, wp_memset, wp_pure]
    have hlen : ((s.allocated p).setPage p fun _ => 0).freelist.length + 1 =
        s.freelist.length := by
      rw [hl]
      simp [Machine.allocated]
    generalize (s.allocated p).setPage p (fun _ => 0) = s₁ at *
    generalize hown₁ : Function.update own p (.root true) = own₁ at *
    have hr1 : own₁ p = .root true := by simp [← hown₁]
    -- nothing is mapped in the new table
    have hmaps1 : MapsBelow s₁ p 0 := by
      intro v hv
      simp [view, hz1 v]
    have hfree : ∀ t own', MemInv t own' → Keeps {p} ∅ s own t own' → own' p = .root true →
        MapsBelow t p 0 → (∀ v, userPages ≤ v → v < 2 ^ 26 → leafAt (entry t.mem) p v = 0#64) →
        wp (uvmfree p 0) E t fun _ t => ∃ own', MemInv t own' ∧ Keeps ∅ ∅ s own t own' := by
      intro t own' ht hk hr hm hhigh
      apply wp_mono (wp_uvmfree ht hr (by omega) (show MapsBelow t p (npages 0) from hm) hhigh)
      rintro _ t' ⟨own'', ht', hk', hp'⟩
      exact ⟨own'', ht', Keeps.dropped h ht' hp (hk.trans hk') hp'⟩
    rw [trampolineVa_eq]
    apply wp_mapHigh (v := userPages + 1) h1 hr1 (by omega) (by omega) (hz1 _) (by decide)
    · intro t own' ht hk hlt
      simp only [Bool.false_eq_true, if_false, wp_bind, wp_pure]
      have hk' := k1.trans hk.changed
      apply wp_mono (hfree t own' ht hk' ((hk.root p true (Set.notMem_empty _)).mpr hr1) _ _)
      · rintro _ t' ⟨own'', ht', hk''⟩
        exact Or.inl ⟨trivial, by omega, own'', ht', hk''⟩
      · intro v hv
        rw [hk.view_eq (Set.notMem_empty _) hr1 hv]
        exact hmaps1 v hv
      · intro v _ _
        rw [hk.leaf p true v (Set.notMem_empty _) hr1, hz1]
    · intro t₂ own₂ e₂ hlen₂
      simp only [if_true, wp_bind]
      rw [trapframeVa_eq]
      have htf : leafAt (entry t₂.mem) p userPages = 0#64 := by
        rw [e₂.high _ le_rfl (by omega), if_neg (by omega), hz1]
      have hmaps2 : MapsBelow t₂ p 0 := by
        intro v hv
        rw [e₂.view v hv]
        exact hmaps1 v hv
      apply wp_mapHigh (v := userPages) e₂.inv e₂.root le_rfl (by omega) htf (by decide)
      · intro t₃ own₃ h₃ k₃ hlt
        have hr3 := (k₃.root p true (Set.notMem_empty _)).mpr e₂.root
        have hval : valid (leafAt (entry t₃.mem) p (userPages + 1)) = true := by
          rw [k₃.leaf p true _ (Set.notMem_empty _) e₂.root, e₂.high _ (by omega) (by omega),
            if_pos rfl]
          exact valid_trampolinePte
        simp only [Bool.false_eq_true, if_false, wp_bind, wp_pure]
        apply wp_mono (wp_unmapHigh (v := userPages + 1) h₃ hr3 (by omega) (by omega) hval)
        intro _ t₄ e₄
        have hk := ((k1.trans e₂.keeps).trans k₃.changed).trans e₄.keeps
        apply wp_mono (hfree t₄ own₃ e₄.inv hk hr3 _ _)
        · rintro _ t' ⟨own'', ht', hk''⟩
          exact Or.inl ⟨trivial, by omega, own'', ht', hk''⟩
        · intro v hv
          rw [e₄.view v hv, k₃.view_eq (Set.notMem_empty _) e₂.root hv]
          exact hmaps2 v hv
        · intro v hv hlt'
          rw [e₄.high v hv (by omega)]
          by_cases hvu : v = userPages + 1
          · rw [if_pos hvu]
          · rw [if_neg hvu, k₃.leaf p true v (Set.notMem_empty _) e₂.root,
              e₂.high v hv (by omega), if_neg hvu, hz1]
      · intro t₃ own₃ e₃ hlen₃
        simp only [if_true, wp_pure]
        refine Or.inr ⟨hp, by omega, own₃, e₃.inv, (k1.trans e₂.keeps).trans e₃.keeps, e₃.root,
          ?_, ?_, ?_⟩
        · intro v hv
          rw [e₃.view v hv]
          exact hmaps2 v hv
        · rw [e₃.high _ le_rfl (by omega), if_pos rfl]
          rfl
        · rw [e₃.high _ (by omega) (by omega), if_neg (by omega), e₂.high _ (by omega) (by omega),
            if_pos rfl]
          rfl

end table
end Xv6
