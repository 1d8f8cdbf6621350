import Xv6.Vm.AllocUserSpec

/-! `cowalloc` gives a process a private writable page and changes nothing that any process
sees; `uvmclear` takes a page away from user mode. -/
namespace Xv6
open Bytes Program RefCount

theorem getLsbD_ownFlags (fl : Pte) {k : ℕ} (hk : k < 64) :
    (ownFlags fl).getLsbD k = ((fl.getLsbD k || decide (k = 2)) && decide (k ≠ 8)) := by
  simp only [ownFlags, BitVec.getLsbD_and, BitVec.getLsbD_or, BitVec.getLsbD_not, pteW, pteCow,
    getLsbD_one_shl, hk, decide_true, Bool.true_and]
  simp

theorem getLsbD_shareFlags (fl : Pte) {k : ℕ} (hk : k < 64) :
    (shareFlags fl).getLsbD k = ((fl.getLsbD k && decide (k ≠ 2)) || decide (k = 8)) := by
  simp only [shareFlags, BitVec.getLsbD_and, BitVec.getLsbD_or, BitVec.getLsbD_not, pteW,
    pteCow, getLsbD_one_shl, hk, decide_true, Bool.true_and]
  simp

theorem flagBits_ownFlags (p : Pte) : FlagBits (ownFlags (pteFlags p)) :=
  ((flagBits_pteFlags p).or flagBits_pteW).and _

theorem flagBits_shareFlags (p : Pte) : FlagBits (shareFlags (pteFlags p)) :=
  ((flagBits_pteFlags p).and _).or flagBits_pteCow

/-- The flags of a page made private: as before, but writable and not shared. -/
theorem ownFlags_bits (p : Pte) : valid (ownFlags (pteFlags p)) = valid p ∧
    readable (ownFlags (pteFlags p)) = readable p ∧ user (ownFlags (pteFlags p)) = user p ∧
    writable (ownFlags (pteFlags p)) = true ∧ cow (ownFlags (pteFlags p)) = false := by
  simp only [valid, readable, user, writable, cow]
  refine ⟨?_, ?_, ?_, ?_, ?_⟩ <;> rw [getLsbD_ownFlags _ (by decide), getLsbD_pteFlags] <;>
    simp

/-- The flags of a page made shared: as before, but not writable and marked. -/
theorem shareFlags_bits (p : Pte) : valid (shareFlags (pteFlags p)) = valid p ∧
    readable (shareFlags (pteFlags p)) = readable p ∧
    user (shareFlags (pteFlags p)) = user p ∧ writable (shareFlags (pteFlags p)) = false ∧
    cow (shareFlags (pteFlags p)) = true := by
  simp only [valid, readable, user, writable, cow]
  refine ⟨?_, ?_, ?_, ?_, ?_⟩ <;> rw [getLsbD_shareFlags _ (by decide), getLsbD_pteFlags] <;>
    simp

/-- The address depends on the upper bits only. -/
theorem pte2pa_congr {p q : Pte} (h : ∀ k, 10 ≤ k → p.getLsbD k = q.getLsbD k) :
    pte2pa p = pte2pa q := by
  unfold pte2pa
  congr 2
  apply BitVec.eq_of_getLsbD_eq
  intro i _
  rw [BitVec.getLsbD_ushiftRight, BitVec.getLsbD_ushiftRight]
  exact h _ (by omega)

/-- An entry with the user bit cleared. -/
theorem clearUser_bits (p : Pte) : pte2pa (p &&& ~~~pteU) = pte2pa p ∧
    valid (p &&& ~~~pteU) = valid p ∧ readable (p &&& ~~~pteU) = readable p ∧
    user (p &&& ~~~pteU) = false := by
  have hbit : ∀ k, k < 64 → (p &&& ~~~pteU).getLsbD k = (p.getLsbD k && decide (k ≠ 4)) := by
    intro k hk
    simp only [BitVec.getLsbD_and, BitVec.getLsbD_not, pteU, getLsbD_one_shl, hk, decide_true,
      Bool.true_and]
    simp
  refine ⟨?_, ?_, ?_, ?_⟩
  · apply pte2pa_congr
    intro k hk
    by_cases hlt : k < 64
    · rw [hbit k hlt]
      simp [show k ≠ 4 by omega]
    · rw [BitVec.getLsbD_of_ge _ _ (by omega), BitVec.getLsbD_of_ge _ _ (by omega)]
  · simp only [valid]
    rw [hbit 0 (by decide)]
    simp
  · simp only [readable]
    rw [hbit 1 (by decide)]
    simp
  · simp only [user]
    rw [hbit 4 (by decide)]
    simp

section cow
variable [Image] {s : Machine} {own : ℕ → Owner} {E : Panic → Prop} {r : ℕ}

/-- The user can write to the page, and nobody else has it. -/
def Private (s : Machine) (r v : ℕ) : Prop :=
  valid (leafAt (entry s.mem) r v) = true ∧ user (leafAt (entry s.mem) r v) = true ∧
    writable (leafAt (entry s.mem) r v) = true

theorem MemInv.count_private (h : MemInv s own) (hr : own r = .root true) {v : ℕ}
    (hv : v < userPages) (hp : Private s r v) :
    refs (entry s.mem) own (r, v) = some (pte2pa (leafAt (entry s.mem) r v)) ∧
      s.count (idx (pte2pa (leafAt (entry s.mem) r v))) = 1 := by
  obtain ⟨hval, huser, hwr⟩ := hp
  have hk : refs (entry s.mem) own (r, v) = some (pte2pa (leafAt (entry s.mem) r v)) :=
    refs_eq_some.mpr ⟨hr, hv, hval, rfl⟩
  exact ⟨hk, by rw [h.count_eq (h.target hk)]; exact h.sharing.sole (r, v) _ hk huser hwr⟩

/-- Why `cowalloc` may refuse. -/
def CowRefused (s : Machine) (r va : ℕ) : Prop :=
  maxva ≤ va ∨ ¬(valid (leafAt (entry s.mem) r (va / pgsize)) = true ∧
    user (leafAt (entry s.mem) r (va / pgsize)) = true ∧
    cow (leafAt (entry s.mem) r (va / pgsize)) = true) ∨ s.freelist = []

/-- The sole owner of a page gets write access back. -/
theorem MemInv.cowSole (h : MemInv s own) {q v : ℕ} (hq : own q = .low r (ix2 v) (ix1 v))
    (hk : refs (entry s.mem) own (r, v) = some (pte2pa (leafAt (entry s.mem) r v)))
    (huser : user (leafAt (entry s.mem) r v) = true)
    (hc : s.count (idx (pte2pa (leafAt (entry s.mem) r v))) = 1) :
    let pte := pa2pte (pte2pa (leafAt (entry s.mem) r v)) |||
      ownFlags (pteFlags (leafAt (entry s.mem) r v))
    Effect r s own (s.setEntry q (ix0 v) pte) own (view s r) ∧
      Private (s.setEntry q (ix0 v) pte) r v := by
  intro pte
  obtain ⟨hr, hv, hval, -⟩ := refs_eq_some.mp hk
  obtain ⟨bval, bread, buser, bwr, bcow⟩ := ownFlags_bits (leafAt (entry s.mem) r v)
  have hpage : Page (pte2pa (leafAt (entry s.mem) r v)) := h.tree.page _ (by simp [h.target hk])
  have hpa : pte2pa pte = pte2pa (leafAt (entry s.mem) r v) :=
    hpage.pte2pa_or (flagBits_ownFlags _)
  obtain ⟨h1, k1, l1⟩ := h.setFlags hq hk hpa (by simp [pte, bval, hval])
    (by simp [pte, bread, (h.sharing.flags (r, v) _ hk).1]) (by simp [pte, bwr, bcow])
    (fun _ _ => hc)
  have hmem : ∀ v' p, refs (entry s.mem) own (r, v') = some p →
      (s.setEntry q (ix0 v) pte).mem p = s.mem p := fun v' p hk' =>
    setEntry_mem_of_plain hq (h.target hk') rfl
  constructor
  · apply (EffectOn.ofLeaf h1 k1 hr hr hv l1 (fun v' p _ hk' => hmem v' p hk')).toEffect.congr
    intro v' _
    by_cases hvv : v' = v
    · subst hvv
      rw [if_pos rfl, viewOf, view, if_pos hval, if_pos (by simp [pte, bval, hval]), hpa,
        hmem v' _ hk]
      simp [pte, buser]
    · rw [if_neg hvv]
  · have hself := l1 r true v hr (Or.inr (hv.trans userPages_lt))
    rw [if_pos ⟨rfl, rfl⟩] at hself
    rw [Private, hself]
    simp [pte, bval, buser, bwr, hval, huser]

/-- The entry moves to the fresh page `m`, which holds a copy of the shared page. -/
theorem MemInv.cowCopy {s₁ : Machine} (h : MemInv s own) {q v m : ℕ}
    (hq : own q = .low r (ix2 v) (ix1 v)) {pa : ℕ}
    (hk : refs (entry s.mem) own (r, v) = some pa)
    (huser : user (leafAt (entry s.mem) r v) = true) (hc : 1 < s.count (idx pa))
    (hm : own m = .free) (h₁ : MemInv s₁ (Function.update own m (.held .temp)))
    (k₁ : Keeps ∅ {m} s own s₁ (Function.update own m (.held .temp)))
    (hcopy : s₁.mem m = s.mem pa) (hcount : s₁.count (idx pa) = s.count (idx pa)) :
    let pte := pa2pte m ||| ownFlags (pteFlags (leafAt (entry s.mem) r v))
    let t := (s₁.setEntry q (ix0 v) pte).setCount (idx pa) (s.count (idx pa) - 1)
    (∃ own', Effect r s own t own' (view s r)) ∧ Private t r v := by
  intro pte t
  obtain ⟨hr, hv, hval, hpaeq⟩ := refs_eq_some.mp hk
  obtain ⟨bval, bread, buser, bwr, bcow⟩ := ownFlags_bits (leafAt (entry s.mem) r v)
  have hfb := flagBits_ownFlags (leafAt (entry s.mem) r v)
  have hqm : q ≠ m := by
    rintro rfl
    simp [hm] at hq
  have hrm : r ≠ m := by
    rintro rfl
    simp [hm] at hr
  have hq₁ : Function.update own m (.held .temp) q = .low r (ix2 v) (ix1 v) := by
    rw [Function.update_of_ne hqm, hq]
  obtain ⟨h2, k2, l2⟩ := h₁.moveToCopy (p := pa) (m := m) (τ := .temp) hq₁
    ((k₁.refs_eq (Set.notMem_empty r) v).trans hk) (by rw [hcount]; exact hc)
    (Function.update_self _ _ _) hfb (by rw [bval, hval])
    (by rw [bread]; exact (h.sharing.flags (r, v) _ hk).1) (by simp [bwr, bcow])
  rw [hcount, Function.update_idem] at h2 k2
  rw [hcount] at l2
  have hmem : ∀ p, t.mem p = (s₁.setEntry q (ix0 v) pte).mem p := fun _ => rfl
  have hpa : pte2pa pte = m := (h₁.tree.page m (by simp)).pte2pa_or hfb
  have hleaf : LeafWritten s t own r v pte := by
    intro r' u v' hr' hv'
    have hr1 := (k₁.root r' u (Set.notMem_empty r')).mpr hr'
    rw [l2 r' u v' hr1 hv', k₁.leaf r' u v' (Set.notMem_empty r') hr']
  have hkeeps : Keeps {r} ∅ s own t (Function.update own m .data) := by
    apply ((k₁.mono (Set.empty_subset {r}) (le_refl _)).trans k2).close
    intro p hp' τ
    obtain rfl : p = m := hp'
    exact ⟨by simp [hm], by simp⟩
  constructor
  · refine ⟨_, (EffectOn.ofLeaf h2 hkeeps hr ?_ hv hleaf ?_).toEffect.congr ?_⟩
    · rw [Function.update_of_ne hrm, hr]
    · intro v' p _ hk'
      have hk₁ := (k₁.refs_eq (Set.notMem_empty r) v').trans hk'
      rw [hmem, setEntry_mem_of_plain hq₁ (h₁.target hk₁) rfl,
        k₁.refMem r v' p (Set.notMem_empty r) hk']
    · intro v' _
      by_cases hvv : v' = v
      · subst hvv
        rw [if_pos rfl, viewOf, view, if_pos hval, if_pos (by simp [pte, bval, hval]), hpa, hmem,
          setEntry_mem_of_plain hq₁ (Function.update_self _ _ _) rfl, hcopy, hpaeq]
        simp [pte, buser]
      · rw [if_neg hvv]
  · have hself := hleaf r true v hr (Or.inr (hv.trans userPages_lt))
    rw [if_pos ⟨rfl, rfl⟩] at hself
    rw [Private, hself]
    simp [pte, bval, buser, bwr, hval, huser]

/-- A page fresh from the allocator is filled with the contents of the page `pa`. -/
theorem MemInv.freshCopy (h : MemInv s own) {m pa : ℕ} (hp : own pa = .data)
    (hl : s.freelist = m :: s.freelist.tail) :
    let s₁ := (s.allocated m).setPage m ((s.allocated m).mem pa)
    MemInv s₁ (Function.update own m (.held .temp)) ∧
      Keeps ∅ {m} s own s₁ (Function.update own m (.held .temp)) ∧
      s₁.mem m = s.mem pa ∧ s₁.count (idx pa) = s.count (idx pa) := by
  intro s₁
  have hm : own m = .free := (h.alloc.free m).mp (by rw [hl]; simp)
  have hpm : pa ≠ m := by
    rintro rfl
    rw [hm] at hp
    cases hp
  obtain ⟨h1, k1⟩ := h.allocated hl .temp
  obtain ⟨h2, k2⟩ := h1.setHeld (Function.update_self _ _ _) ((s.allocated m).mem pa)
  refine ⟨h2, k1.trans k2, ?_, ?_⟩
  · rw [setPage_mem_self, allocated_mem_ne s hpm]
  · exact allocated_count_ne s (h.alloc.idx_ne_of_data hp (by simp [hm]) (by simp [hm]))

/-- When `cowalloc` succeeds: the page is copy-on-write, and it has one reference or a page is
free. -/
def CowResolves (s : Machine) (r va : ℕ) : Prop :=
  va < maxva ∧ valid (leafAt (entry s.mem) r (va / pgsize)) = true ∧
    user (leafAt (entry s.mem) r (va / pgsize)) = true ∧
    cow (leafAt (entry s.mem) r (va / pgsize)) = true ∧
    (s.count (idx (pte2pa (leafAt (entry s.mem) r (va / pgsize)))) = 1 ∨ s.freelist ≠ [])

/-- Memory after `cowalloc` has made a copy in the page `m` for the entry at index `k` of the
table page `q`. -/
def Machine.cowCopied (s : Machine) (q k m : ℕ) (pte : Pte) : Machine :=
  (((s.allocated m).setPage m ((s.allocated m).mem (pte2pa pte))).setEntry q k
    (pa2pte m ||| ownFlags (pteFlags pte))).setCount (idx (pte2pa pte))
      (s.count (idx (pte2pa pte)) - 1)

section copied
omit [Image]
variable {q k m p : ℕ} {pte : Pte}

theorem cowCopied_mem_ne (hm : p ≠ m) (hq : p ≠ q) : (s.cowCopied q k m pte).mem p = s.mem p := by
  rw [Machine.cowCopied, setCount_mem, setEntry_mem_ne _ _ _ hq, setPage_mem_ne _ _ hm,
    allocated_mem_ne s hm]

theorem cowCopied_mem_copy (hq : m ≠ q) (hp : pte2pa pte ≠ m) :
    (s.cowCopied q k m pte).mem m = s.mem (pte2pa pte) := by
  rw [Machine.cowCopied, setCount_mem, setEntry_mem_ne _ _ _ hq, setPage_mem_self,
    allocated_mem_ne s hp]

theorem entry_cowCopied (hm : p ≠ m) : entry (s.cowCopied q k m pte).mem p =
    Entries.set (entry s.mem) q k (pa2pte m ||| ownFlags (pteFlags pte)) p := by
  rw [Machine.cowCopied, setCount_mem, entry_setEntry]
  funext i
  simp only [Entries.set, entry, setPage_mem_ne _ _ hm, allocated_mem_ne s hm]

theorem cowCopied_count (i : ℕ) : (s.cowCopied q k m pte).count i =
    if i = idx (pte2pa pte) then s.count (idx (pte2pa pte)) - 1
    else if i = idx m then 1 else s.count i := by
  simp only [Machine.cowCopied, Machine.setCount, setEntry_count, setPage_count,
    Machine.allocated, Function.update_apply]

end copied

/-- What `cowalloc` does to memory, to the last bit. -/
theorem wp_cowalloc_exact (h : MemInv s own) (hr : own r = .root true) {va : ℕ}
    (hhigh : ∀ v, userPages ≤ v → v < 2 ^ 26 → user (leafAt (entry s.mem) r v) = false)
    {Q : Bool → Machine → Prop} (hno : ¬CowResolves s r va → Q false s)
    (hyes : CowResolves s r va → va / pgsize < userPages →
      ∀ q, own q = .low r (ix2 (va / pgsize)) (ix1 (va / pgsize)) →
        let pte := leafAt (entry s.mem) r (va / pgsize)
        refs (entry s.mem) own (r, va / pgsize) = some (pte2pa pte) →
        (s.count (idx (pte2pa pte)) = 1 → Q true (s.setEntry q (ix0 (va / pgsize))
          (pa2pte (pte2pa pte) ||| ownFlags (pteFlags pte)))) ∧
        ∀ m, 1 < s.count (idx (pte2pa pte)) → own m = .free → s.freelist = m :: s.freelist.tail →
          Q true (s.cowCopied q (ix0 (va / pgsize)) m pte)) :
    wp (cowalloc r va) E s Q := by
  unfold cowalloc
  by_cases hmax : maxva ≤ va
  · rw [if_pos hmax, wp_pure]
    exact hno fun hc => absurd hc.1 (Nat.not_lt.mpr hmax)
  have hdiv : pgrounddown va / pgsize = va / pgsize := Nat.mul_div_cancel _ (by decide)
  have hdown : pgrounddown va < maxva :=
    Nat.lt_of_le_of_lt (Nat.div_mul_le_self va pgsize) (Nat.lt_of_not_le hmax)
  rw [if_neg hmax, wp_bind]
  apply wp_walk_find h.tree hr hdown
  · intro hlow
    rw [hdiv] at hlow
    rw [wp_pure]
    refine hno fun hc => ?_
    have hval := hc.2.1
    rw [h.tree.leafAt_none hr hlow] at hval
    cases hval
  · intro q hq
    rw [hdiv] at hq ⊢
    have hent := h.tree.leafAt_low hq
    simp only [wp_bind, wp_readPte, ← hent]
    by_cases hvuc : valid (leafAt (entry s.mem) r (va / pgsize)) = true ∧
        user (leafAt (entry s.mem) r (va / pgsize)) = true ∧
        cow (leafAt (entry s.mem) r (va / pgsize)) = true
    · rw [if_neg (by rw [ne_eq, and_vuc, not_not]; exact hvuc)]
      obtain ⟨hval, huser, hcow⟩ := hvuc
      have hv : va / pgsize < userPages := by
        by_contra hge
        have hlt : va / pgsize < 2 ^ 26 := by
          simp only [maxva, pgsize] at *
          omega
        rw [hhigh _ (Nat.le_of_not_lt hge) hlt] at huser
        cases huser
      have hk : refs (entry s.mem) own (r, va / pgsize) =
          some (pte2pa (leafAt (entry s.mem) r (va / pgsize))) :=
        refs_eq_some.mpr ⟨hr, hv, hval, rfl⟩
      have hp := h.target hk
      have hpage : Page (pte2pa (leafAt (entry s.mem) r (va / pgsize))) :=
        h.tree.page _ (by simp [hp])
      have hpos := h.alloc.pos _ hp
      simp only [wp_bind, wp_krefcount hpage]
      by_cases hc : s.count (idx (pte2pa (leafAt (entry s.mem) r (va / pgsize)))) = 1
      · rw [if_pos hc]
        simp only [wp_bind, wp_writePte, wp_pure]
        exact (hyes ⟨by omega, hval, huser, hcow, Or.inl hc⟩ hv q hq hk).1 hc
      · rw [if_neg hc, wp_bind]
        apply wp_kalloc h.alloc
        · intro hnil
          refine (wp_pure _).mpr (hno fun hres => ?_)
          rcases hres.2.2.2.2 with hone | hsome
          · exact hc hone
          · exact hsome hnil
        · intro m hm hl
          have hcount := (h.freshCopy hp hl).2.2.2
          simp only [wp_bind, wp_modify, wp_writePte]
          apply wp_kfree hpage
          · rw [setEntry_count, hcount]
            exact hpos
          · intro h1
            rw [setEntry_count, hcount] at h1
            exact absurd h1 hc
          · intro _
            rw [setEntry_count, hcount, wp_pure]
            exact (hyes ⟨by omega, hval, huser, hcow, Or.inr (by rw [hl]; simp)⟩ hv q hq hk).2 m
              (by omega) hm hl
    · rw [if_pos (by rw [ne_eq, and_vuc]; exact hvuc), wp_pure]
      exact hno fun hc => hvuc ⟨hc.2.1, hc.2.2.1, hc.2.2.2.1⟩

omit [Image] in
theorem CowRefused.of_not {va : ℕ} (h : ¬CowResolves s r va) : CowRefused s r va := by
  unfold CowRefused
  by_contra hc
  simp only [not_or, not_not, Nat.not_le] at hc
  obtain ⟨hlt, ⟨hval, huser, hcow⟩, hfree⟩ := hc
  exact h ⟨hlt, hval, huser, hcow, Or.inr hfree⟩

/-- `cowalloc` makes the page private and leaves every view as it was, or does nothing. -/
theorem wp_cowalloc (h : MemInv s own) (hr : own r = .root true) {va : ℕ}
    (hhigh : ∀ v, userPages ≤ v → v < 2 ^ 26 → user (leafAt (entry s.mem) r v) = false) :
    wp (cowalloc r va) E s fun ok t =>
      (ok = false ∧ t = s ∧ CowRefused s r va) ∨
      (ok = true ∧ va / pgsize < userPages ∧ Private t r (va / pgsize) ∧
        ∃ own', Effect r s own t own' (view s r)) := by
  apply wp_cowalloc_exact h hr hhigh
  · intro hno
    exact Or.inl ⟨rfl, rfl, CowRefused.of_not hno⟩
  · rintro ⟨-, -, huser, -⟩ hv q hq pte hk
    constructor
    · intro hc
      obtain ⟨he, hpriv⟩ := h.cowSole hq hk huser hc
      exact Or.inr ⟨rfl, hv, hpriv, own, he⟩
    · intro m hc hm hl
      obtain ⟨h1, k1, hcopy, hcount⟩ := h.freshCopy (h.target hk) hl
      obtain ⟨⟨own', he⟩, hpriv⟩ := h.cowCopy hq hk huser hc hm h1 k1 hcopy hcount
      exact Or.inr ⟨rfl, hv, hpriv, own', he⟩

end cow
end Xv6
