import Xv6.Vm.ForkSpec
import Xv6.Vm.Exec

/-! Address spaces as a whole: `freewalk` gives back the pages of a table, and
`proc_pagetable` and `proc_freepagetable` make and drop the table of a process. -/
namespace Xv6
open Bytes Program RefCount

section free
variable [Image] {s t : Machine} {own own' : ℕ → Owner} {E : Panic → Prop} {r : ℕ}

/-- The loop of `freewalk` with the invariant `I`: each entry is empty, or the table below it is
freed and the entry is cleared. -/
theorem wp_freewalkLoop {f : ℕ → Kernel Unit} {p : ℕ} (I : ℕ → Machine → Prop)
    (step : ∀ k s, k < 512 → I k s → (entry s.mem p k = 0#64 ∧ I (k + 1) s) ∨
      ∃ q, entry s.mem p k = link q ∧ Page q ∧
        wp (f q) E s fun _ t => I (k + 1) (t.setEntry p k 0#64))
    (n : ℕ) (hn : n ≤ 512) (h : I (512 - n) s) :
    wp (freewalkLoop f p n) E s fun _ t => I 512 t := by
  induction n generalizing s with
  | zero => exact (wp_pure _).mpr h
  | succ n ih =>
    have hnext : 512 - (n + 1) + 1 = 512 - n := by omega
    rw [freewalkLoop]
    simp only [wp_bind, wp_readPte]
    rcases step _ s (by omega) h with ⟨hz, hI⟩ | ⟨q, hl, hq, hf⟩
    · rw [hz, if_neg (by simp), if_neg (by simp)]
      exact ih (by omega) (hnext ▸ hI)
    · rw [hl, if_pos (by simp), pte2pa_link hq, wp_bind]
      apply wp_mono hf
      intro _ t ht
      rw [wp_bind, wp_writePte]
      exact ih (by omega) (hnext ▸ ht)

omit [Image] in
/-- A table of an empty address space maps nothing. -/
theorem Tree.low_zero [Image] {e : Entries} (h : Tree e own) {q i j : ℕ}
    (hq : own q = .low r i j) (hz : ∀ v, leafAt e r v = 0#64) : ∀ k < 512, e q k = 0#64 := by
  intro k hk
  obtain ⟨-, hi, hj⟩ := h.low_root hq
  have h2 : ix2 (i * 2 ^ 18 + j * 2 ^ 9 + k) = i := by
    simp only [ix2]
    omega
  have h1 : ix1 (i * 2 ^ 18 + j * 2 ^ 9 + k) = j := by
    simp only [ix1]
    omega
  have h0 : ix0 (i * 2 ^ 18 + j * 2 ^ 9 + k) = k := by
    simp only [ix0]
    omega
  have hleaf := h.leafAt_low (show own q = .low r (ix2 (i * 2 ^ 18 + j * 2 ^ 9 + k))
    (ix1 (i * 2 ^ 18 + j * 2 ^ 9 + k)) by rw [h2, h1]; exact hq)
  rw [hz, h0] at hleaf
  exact hleaf.symm

/-- A lowest table without entries is a page like any other. -/
theorem wp_freewalk_low {Q : Unit → Machine → Prop} {q : ℕ} (hq : Page q)
    (hc : s.count (idx q) = 1) (hz : ∀ k < 512, entry s.mem q k = 0#64)
    (hpost : Q () (s.released q)) : wp (freewalk 0 q) E s Q := by
  rw [freewalk, wp_bind]
  apply wp_mono (wp_freewalkLoop (fun _ t => t = s) _ 512 le_rfl rfl)
  · rintro _ t rfl
    exact wp_kfree hq (by omega) (fun _ => hpost) (by omega)
  · rintro k t hk rfl
    exact Or.inl ⟨hz k hk, rfl⟩

/-- What `freewalk` does below the table `r`: some pages become free, and the address spaces stay as
they are. -/
structure Freed (r : ℕ) (s : Machine) (own : ℕ → Owner) (t : Machine) (own' : ℕ → Owner) :
    Prop where
  inv : MemInv t own'
  keeps : KeepsBut {r} ∅ ∅ s own t own'
  pages : ∀ p, own' p = own p ∨ own' p = .free

theorem Freed.refl (h : MemInv s own) : Freed r s own s own :=
  ⟨h, KeepsBut.refl _ _ _ _ _, fun _ => Or.inl rfl⟩

theorem Freed.trans {t' : Machine} {own'' : ℕ → Owner} (h : Freed r s own t own')
    (h' : Freed r t own' t' own'') : Freed r s own t' own'' where
  inv := h'.inv
  keeps := h.keeps.trans h'.keeps
  pages := by
    intro p
    rcases h'.pages p with hp | hp
    · rw [hp]
      exact h.pages p
    · exact Or.inr hp

theorem Freed.owner (h : Freed r s own t own') {p : ℕ} {o : Owner} (ho : o ≠ .free)
    (hp : own' p = o) : own p = o := by
  rcases h.pages p with h' | h'
  · rw [← h', hp]
  · rw [h'] at hp
    exact absurd hp.symm ho

theorem Freed.root (h : Freed r s own t own') {u : Bool} (hr : own r = .root u) :
    own' r = .root u :=
  (h.keeps.root r u (Set.notMem_empty _)).mpr hr

theorem Freed.drop {q : ℕ} (hq : ∀ τ, own q ≠ .held τ)
    (h : MemInv t (Function.update own q .free) ∧
      KeepsBut {r} ∅ {q} s own t (Function.update own q .free)) :
    Freed r s own t (Function.update own q .free) where
  inv := h.1
  keeps := by
    apply h.2.close
    rintro p rfl τ
    exact ⟨hq τ, by simp⟩
  pages := by
    intro p
    by_cases hp : p = q
    · subst hp
      exact Or.inr (by simp)
    · exact Or.inl (by simp [hp])

/-- `freewalk` on a middle table, up to the release of the table itself. -/
theorem wp_freewalk_mid {m i : ℕ} (h : MemInv s own) (hm : own m = .mid r i)
    (hz : ∀ v, leafAt (entry s.mem) r v = 0#64) {Q : Unit → Machine → Prop}
    (hpost : ∀ t own', Freed r s own t own' → own' m = .mid r i →
      (∀ q j, own' q ≠ .low r i j) → Q () (t.released m)) : wp (freewalk 1 m) E s Q := by
  obtain ⟨⟨u, hr⟩, -⟩ := h.tree.midLink m r i hm
  rw [freewalk, wp_bind]
  -- entries below `k` are cleared and the tables they named are free
  apply wp_mono (wp_freewalkLoop (fun k t => ∃ own', Freed r s own t own' ∧ own' m = .mid r i ∧
    ∀ q j, j < k → own' q ≠ .low r i j) _ 512 le_rfl ⟨own, Freed.refl h, hm, by omega⟩)
  · rintro _ t ⟨own', hf, hm', hlow⟩
    have hone := hf.inv.alloc.one m (by simp [hm', Owner.single])
    apply wp_kfree (hf.inv.tree.page m (by simp [hm'])) (by omega) _ (by omega)
    intro _
    apply hpost t own' hf hm'
    intro q j hq
    exact hlow q j (hf.inv.tree.low_root hq).2.2 hq
  · rintro k t hk ⟨own', hf, hm', hlow⟩
    have hz' : ∀ v, leafAt (entry t.mem) r v = 0#64 := fun v =>
      (hf.keeps.leaf r u v (Set.notMem_empty _) hr).trans (hz v)
    rcases hf.inv.tree.midEntry m r i k hm' hk with h0 | ⟨q, hq, hl⟩
    · refine Or.inl ⟨h0, own', hf, hm', ?_⟩
      intro q j hj hq
      rcases Nat.lt_succ_iff_lt_or_eq.mp hj with hj | rfl
      · exact hlow q j hj hq
      · obtain ⟨-, m', hm'', hl⟩ := hf.inv.tree.lowLink q r i j hq
        obtain rfl := hf.inv.tree.mid_unique hm'' hm'
        exact link_ne_zero q (hl.symm.trans h0)
    · have hzq := hf.inv.tree.low_zero hq hz'
      refine Or.inr ⟨q, hl, hf.inv.tree.page q (by simp [hq]), ?_⟩
      apply wp_freewalk_low (hf.inv.tree.page q (by simp [hq]))
        (hf.inv.alloc.one q (by simp [hq, Owner.single])) hzq
      have hd := Freed.drop (by simp [hq]) (hf.inv.dropLow hm' hq hzq)
      have hmq : m ≠ q := by
        rintro rfl
        rw [hm'] at hq
        cases hq
      refine ⟨_, hf.trans hd, by simp [hmq, hm'], ?_⟩
      intro p j hj hp
      have hp' := hd.owner (by simp) hp
      rcases Nat.lt_succ_iff_lt_or_eq.mp hj with hj | rfl
      · exact hlow p j hj hp'
      · obtain rfl := hf.inv.tree.low_unique hp' hq
        simp at hp

/-- `freewalk` on the table of an empty address space gives all of its pages back. -/
theorem wp_freewalk (h : MemInv s own) (hr : own r = .root true)
    (hz : ∀ v, leafAt (entry s.mem) r v = 0#64) :
    wp (freewalk 2 r) E s fun _ t => ∃ own', MemInv t own' ∧ Keeps {r} ∅ s own t own' ∧
      own' r = .free := by
  rw [freewalk, wp_bind]
  apply wp_mono (wp_freewalkLoop (fun k t => ∃ own', Freed r s own t own' ∧
    ∀ q i, i < k → own' q ≠ .mid r i) _ 512 le_rfl ⟨own, Freed.refl h, by omega⟩)
  · rintro _ t ⟨own', hf, hmid⟩
    have hr' := hf.root hr
    have hone := hf.inv.alloc.one r (by simp [hr', Owner.single])
    apply wp_kfree (hf.inv.tree.page r (by simp [hr'])) (by omega) _ (by omega)
    intro _
    have hno : ∀ q i, own' q ≠ .mid r i := by
      intro q i hq
      obtain ⟨-, hi, -⟩ := hf.inv.tree.midLink q r i hq
      exact hmid q i (by omega) hq
    obtain ⟨hd, hk⟩ := hf.inv.dropRoot hr' hno
    exact ⟨_, hd, hf.keeps.changed.trans hk, by simp⟩
  · rintro k t hk ⟨own', hf, hmid⟩
    have hr' := hf.root hr
    have hz' : ∀ v, leafAt (entry t.mem) r v = 0#64 := fun v =>
      (hf.keeps.leaf r true v (Set.notMem_empty _) hr).trans (hz v)
    rcases hf.inv.tree.rootEntry r true k hr' hk with h0 | ⟨m, hm, hl⟩
    · refine Or.inl ⟨h0, own', hf, ?_⟩
      intro q i hi hq
      rcases Nat.lt_succ_iff_lt_or_eq.mp hi with hi | rfl
      · exact hmid q i hi hq
      · obtain ⟨-, -, hl⟩ := hf.inv.tree.midLink q r i hq
        exact link_ne_zero q (hl.symm.trans h0)
    · refine Or.inr ⟨m, hl, hf.inv.tree.page m (by simp [hm]), ?_⟩
      apply wp_freewalk_mid hf.inv hm hz'
      intro t₁ own₁ hf₁ hm₁ hlow
      have hd := Freed.drop (by simp [hm₁]) (hf₁.inv.dropMid hm₁ hlow)
      refine ⟨_, (hf.trans hf₁).trans hd, ?_⟩
      intro p i hi hp
      have hp₁ := hd.owner (by simp) hp
      rcases Nat.lt_succ_iff_lt_or_eq.mp hi with hi | rfl
      · exact hmid p i hi (hf₁.owner (by simp) hp₁)
      · obtain rfl := hf₁.inv.tree.mid_unique hp₁ hm₁
        simp at hp

/-- All leaves of an address space are empty once those below `maxva` are. -/
theorem Tree.leafAt_zero {e : Entries} (h : Tree e own) (hr : own r = .root true)
    (hz : ∀ v, v < 2 ^ 26 → leafAt e r v = 0#64) (v : ℕ) : leafAt e r v = 0#64 := by
  by_cases hi : ix2 v < 256
  · have hmod : leafAt e r v = leafAt e r (v % 2 ^ 27) := by
      have h2 : ix2 (v % 2 ^ 27) = ix2 v := by
        simp only [ix2]
        omega
      have h1 : ix1 (v % 2 ^ 27) = ix1 v := by
        simp only [ix1]
        omega
      have h0 : ix0 (v % 2 ^ 27) = ix0 v := by
        simp only [ix0]
        omega
      rw [leafAt, leafAt, h2, h1, h0]
    rw [hmod]
    apply hz
    simp only [ix2] at hi
    omega
  · apply h.leafAt_none hr
    intro q hq
    exact hi (h.low_root hq).2.1

/-- `uvmfree` on a table whose upper two pages have been unmapped. -/
theorem wp_uvmfree (h : MemInv s own) (hr : own r = .root true) {sz : ℕ}
    (hsz : sz ≤ 2 ^ 27) (hmaps : MapsBelow s r (npages sz))
    (hhigh : ∀ v, userPages ≤ v → v < 2 ^ 26 → leafAt (entry s.mem) r v = 0#64) :
    wp (uvmfree r sz) E s fun _ t => ∃ own', MemInv t own' ∧ Keeps {r} ∅ s own t own' ∧
      own' r = .free := by
  have hup := userPages_eq
  have hle : npages sz ≤ 2 ^ 15 := by
    simp only [npages, pgsize]
    omega
  -- after the user pages are gone the table is empty
  have hrest : ∀ t own', Effect r s own t own' (fun _ => none) →
      wp (freewalk 2 r) E t fun _ t => ∃ own', MemInv t own' ∧ Keeps {r} ∅ s own t own' ∧
        own' r = .free := by
    intro t own' he
    have hz : ∀ v, v < 2 ^ 26 → leafAt (entry t.mem) r v = 0#64 := by
      intro v hv
      by_cases hlt : v < userPages
      · exact he.inv.leafAt_of_view_none he.root (he.view v hlt)
      · rw [he.high v (by omega) (by omega)]
        exact hhigh v (by omega) hv
    apply wp_mono (wp_freewalk he.inv he.root (he.inv.tree.leafAt_zero he.root hz))
    rintro _ t' ⟨own'', h', hk, hfree⟩
    exact ⟨own'', h', he.keeps.trans hk, hfree⟩
  unfold uvmfree
  by_cases h0 : 0 < sz
  · rw [if_pos h0, wp_bind, pgroundup_eq (by omega), Nat.mul_div_cancel _ (by decide)]
    have hun := wp_uvmunmap (E := E) h hr (v := 0) (n := npages sz) (by omega) (fun v _ hv =>
      (hmaps v (by omega)).mpr (by omega))
    rw [Nat.zero_mul] at hun
    apply wp_mono hun
    rintro _ t ⟨own', he⟩
    apply hrest t own' (he.toEffect.congr _)
    intro v hv
    by_cases hlt : v < npages sz
    · rw [if_pos (by omega)]
    · rw [if_neg (by omega)]
      by_contra hne
      exact hlt ((hmaps v hv).mp hne)
  · rw [if_neg h0]
    obtain rfl : sz = 0 := by omega
    apply hrest s own ((Effect.refl h hr).congr _)
    intro v hv
    by_contra hne
    have hlt := (hmaps v hv).mp hne
    simp only [npages, pgsize] at hlt
    omega

end free
end Xv6
