import Xv6.Vm.Effect

/-! `mappages` for one page, and the functions that take mappings away. -/
namespace Xv6
open Bytes Program RefCount

/-- Pages that hold the first `sz` bytes. -/
def npages (sz : ℕ) : ℕ := (sz + (pgsize - 1)) / pgsize

theorem pgroundup_eq {sz : ℕ} (h : sz ≤ 2 ^ 63) : pgroundup sz = npages sz * pgsize := by
  simp only [pgroundup, npages, pgsize]
  omega

theorem pgrounddown_aligned {a : ℕ} (h : a % pgsize = 0) : pgrounddown a = a := by
  simp only [pgrounddown, pgsize] at *
  omega

theorem pgrounddown_add_mod (a : ℕ) : pgrounddown a + a % pgsize = a := Nat.div_add_mod' a pgsize

section unmap
variable [Image] {s : Machine} {own : ℕ → Owner} {E : Panic → Prop} {r : ℕ}

/-- `mappages` for one page that is not mapped yet: the leaf is written in a state in which
the table pages are there, or a table page is missing. -/
theorem wp_mappages_page (h : MemInv s own) {u : Bool} (hr : own r = .root u) {v pa : ℕ}
    (hv : v < 2 ^ 26) {perm : Pte} (hempty : leafAt (entry s.mem) r v = 0#64)
    {Q : Bool → Machine → Prop}
    (hfail : ∀ t own', MemInv t own' → KeepsBut {r} ∅ ∅ s own t own' → s.freelist.length < 2 →
      Q false t)
    (hok : ∀ t own' q, MemInv t own' → KeepsBut {r} ∅ ∅ s own t own' →
      own' q = .low r (ix2 v) (ix1 v) → leafAt (entry t.mem) r v = 0#64 →
      s.freelist.length ≤ t.freelist.length + 2 →
      Q true (t.setEntry q (ix0 v) (pa2pte pa ||| perm ||| pteV))) :
    wp (mappages r (v * pgsize) pgsize pa perm) E s Q := by
  have hlast : pgrounddown ((v * pgsize + pgsize - 1) % 2 ^ 64) = v * pgsize := by
    simp only [pgrounddown, pgsize]
    omega
  have hzero : ∀ t own', MemInv t own' ∧ KeepsBut {r} ∅ ∅ s own t own' →
      leafAt (entry t.mem) r v = 0#64 := by
    intro t own' ht
    rw [ht.2.leaf r u v (Set.notMem_empty r) hr, hempty]
  rw [mappages, if_neg (by decide), pgrounddown_aligned (Nat.mul_mod_left v pgsize), hlast]
  apply (MemInv.linking s own r).wp_mappagesTurn ⟨h, KeepsBut.refl _ _ _ _ _⟩ hr hv hzero
  · intro t own' ht hlen
    exact hfail t own' ht.1 ht.2 hlen
  · intro t own' q ht _ hq hlen _
    rw [if_pos rfl, wp_pure]
    exact hok t own' q ht.1 ht.2 hq (hzero t own' ht) hlen

/-- One turn of `uvmunmap` with a page to free. -/
theorem wp_unmapPage (h : MemInv s own) (hr : own r = .root true) {v : ℕ} (hv : v < userPages)
    (hsome : view s r v ≠ none) {Q : Unit → Machine → Prop} {q : ℕ}
    (hq : own q = .low r (ix2 v) (ix1 v))
    (hpost : ∀ t own', EffectOn {v} r s own t own'
      (fun v' => if v' = v then none else view s r v') → Q () t) :
    wp (do kfree (pte2pa (leafAt (entry s.mem) r v)); writePte q (ix0 v) 0#64) E s Q := by
  have hval : valid (leafAt (entry s.mem) r v) = true := by
    by_contra hno
    exact hsome (view_eq_none_iff.mpr (by simpa using hno))
  have hk : refs (entry s.mem) own (r, v) = some (pte2pa (leafAt (entry s.mem) r v)) :=
    refs_eq_some.mpr ⟨hr, hv, hval, rfl⟩
  generalize pte2pa (leafAt (entry s.mem) r v) = p at hk
  have hp := h.target hk
  have hview : ∀ t : Machine, viewOf t 0#64 = none := fun t => by simp [viewOf]
  rw [wp_bind]
  apply wp_kfree (h.tree.page p (by simp [hp])) (h.alloc.pos p hp)
  · intro hc
    obtain ⟨h1, k1, l1⟩ := h.unmapLast hq hk hc
    have hrp : r ≠ p := by
      rintro rfl
      simp [hr] at hp
    have heff := EffectOn.ofLeaf h1 k1 hr (by rw [Function.update_of_ne hrp, hr]) hv l1 (by
      intro v' p' hv' hk'
      have hpp : p' ≠ p := by
        rintro rfl
        exact hv' (h.sharing.inj r v' v p' hk' hk)
      rw [setEntry_mem_of_plain hq (h.target hk') rfl, released_mem_ne s hpp])
    rw [wp_writePte]
    exact hpost _ _ (heff.congr (fun v' _ => by rw [hview]))
  · intro hc
    obtain ⟨h1, k1, l1⟩ := h.unmapShared hq hk hc
    have heff := EffectOn.ofLeaf h1 k1 hr hr hv l1 (by
      intro v' p' _ hk'
      rw [setEntry_mem_of_plain hq (h.target hk') rfl]
      rfl)
    rw [wp_writePte]
    exact hpost _ _ (heff.congr (fun v' _ => by rw [hview]))

/-- A range of mapped pages is unmapped and freed. -/
theorem wp_uvmunmapLoop (n : ℕ) (h : MemInv s own) (hr : own r = .root true) {v : ℕ}
    (hv : v + n ≤ userPages) (hsome : ∀ v', v ≤ v' → v' < v + n → view s r v' ≠ none) :
    wp (uvmunmapLoop r true n (v * pgsize)) E s fun _ t => ∃ own',
      EffectOn (Set.Ico v (v + n)) r s own t own'
        (fun v' => if v ≤ v' ∧ v' < v + n then none else view s r v') := by
  induction n generalizing s own v with
  | zero =>
    rw [uvmunmapLoop, wp_pure]
    exact ⟨own, (EffectOn.refl _ h hr).congr (fun v' _ => by rw [if_neg (by omega)])⟩
  | succ n ih =>
    have hval : valid (leafAt (entry s.mem) r v) = true := by
      by_contra hno
      exact hsome v (le_refl _) (by omega) (view_eq_none_iff.mpr (by simpa using hno))
    have hleaf := h.tree.leaf_of_valid hr hval
    rw [uvmunmapLoop, wp_bind]
    apply wp_walk_mapped h.tree hr (by have := userPages_eq; omega) hval
    intro q hq hent
    simp only [wp_bind, wp_readPte, hent]
    rw [if_neg (by simp [hval]), if_neg (fun hf => by
      rw [leaf_of_pteFlags_eq_pteV hf] at hleaf
      cases hleaf)]
    have hpage := wp_unmapPage (E := E) h hr (by omega) (hsome v (le_refl _) (by omega)) hq
      (Q := fun _ t => wp (uvmunmapLoop r true n (v * pgsize + pgsize)) E t fun _ t' =>
        ∃ own', EffectOn (Set.Ico v (v + (n + 1))) r s own t' own'
          (fun v' => if v ≤ v' ∧ v' < v + (n + 1) then none else view s r v')) (by
        intro t own' ht
        rw [show v * pgsize + pgsize = (v + 1) * pgsize by ring]
        apply wp_mono (ih ht.inv ht.root (by omega) ?_)
        · rintro ⟨⟩ t' ⟨own'', ht'⟩
          have hfirst : ({v} : Set ℕ) ⊆ Set.Ico v (v + (n + 1)) := by
            rintro _ rfl
            exact Set.mem_Ico.mpr ⟨le_rfl, by omega⟩
          have hrest : Set.Ico (v + 1) (v + 1 + n) ⊆ Set.Ico v (v + (n + 1)) :=
            Set.Ico_subset_Ico (by omega) (by omega)
          refine ⟨own'', ((ht.mono hfirst).trans (ht'.mono hrest)).congr ?_⟩
          intro v' hv'
          rw [ht.view v' hv']
          by_cases hvv : v' = v
          · subst hvv
            rw [if_neg (by omega), if_pos rfl, if_pos (by omega)]
          · rw [if_neg hvv]
            by_cases hin : v + 1 ≤ v' ∧ v' < v + 1 + n
            · rw [if_pos hin, if_pos (by omega)]
            · rw [if_neg hin, if_neg (by omega)]
        · intro v' hv' hlt
          rw [ht.view v' (by omega), if_neg (by omega)]
          exact hsome v' (by omega) (by omega))
    simpa only [wp_bind, if_true] using hpage

end unmap
end Xv6
