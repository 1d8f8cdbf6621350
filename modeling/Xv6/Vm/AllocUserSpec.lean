import Mathlib.Data.Finset.Card
import Xv6.Vm.UnmapSpec

/-! Growing and shrinking of user memory: `uvmunmap`, `uvmdealloc` and `uvmalloc`. -/
namespace Xv6
open Bytes Program RefCount

/-- A page of zeros, as `uvmalloc` maps it. -/
def zeroPage : UPage := ⟨true, fun _ => 0⟩

/-- Flags that `uvmalloc` and `uvminit` give to a page. -/
theorem userFlags {fl : Pte} (h : fl = pteW ||| pteX ||| pteR ||| pteU ||| pteV ∨
    fl = pteW ||| pteR ||| pteX ||| pteU ||| pteV) :
    FlagBits fl ∧ valid fl = true ∧ readable fl = true ∧ user fl = true ∧
      writable fl = true ∧ cow fl = false := by
  have hbits : FlagBits fl := by
    rcases h with rfl | rfl
    · exact (((flagBits_pteW.or flagBits_pteX).or flagBits_pteR).or flagBits_pteU).or
        flagBits_pteV
    · exact (((flagBits_pteW.or flagBits_pteR).or flagBits_pteX).or flagBits_pteU).or
        flagBits_pteV
  rcases h with rfl | rfl <;> exact ⟨hbits, rfl, rfl, rfl, rfl, rfl⟩

theorem npages_mono {a b : ℕ} (h : a ≤ b) : npages a ≤ npages b :=
  Nat.div_le_div_right (by omega)

theorem npages_mul (n : ℕ) : npages (n * pgsize) = n := by
  simp only [npages, pgsize]
  omega

theorem throughInt_of_lt {n : ℕ} (h : n < 2 ^ 31) : throughInt n = n := by
  have hmod : n % 2 ^ 32 = n := Nat.mod_eq_of_lt (by omega)
  rw [throughInt, hmod, if_pos h]

section grow
variable [Image] {s : Machine} {own : ℕ → Owner} {E : Panic → Prop} {r : ℕ}

/-- A table cannot map more pages than there are. -/
theorem MemInv.mapped_le (h : MemInv s own) (hr : own r = .root true) {n : ℕ}
    (hn : n ≤ userPages) (hall : ∀ v, v < n → view s r v ≠ none) : n ≤ 2 ^ 15 := by
  have hk : ∀ v, v < n →
      refs (entry s.mem) own (r, v) = some (pte2pa (leafAt (entry s.mem) r v)) := by
    intro v hv
    have hval : valid (leafAt (entry s.mem) r v) = true := by
      by_contra hno
      exact hall v hv (view_eq_none_iff.mpr (by simpa using hno))
    exact refs_eq_some.mpr ⟨hr, by omega, hval, rfl⟩
  have hpage : ∀ v, v < n → Page (pte2pa (leafAt (entry s.mem) r v)) := by
    intro v hv
    exact h.tree.page _ (by simp [h.target (hk v hv)])
  have hcard := Finset.card_le_card_of_injOn (s := Finset.range n) (t := Finset.range (2 ^ 15))
    (fun v => idx (pte2pa (leafAt (entry s.mem) r v)))
    (by
      intro v hv
      have hp := hpage v (by simpa using hv)
      have hlt := hp.2.1
      have hbase := hp.kernbase_le
      simp only [Finset.coe_range, Set.mem_Iio, idx, phystop, kernbase, pgsize] at *
      omega)
    (by
      intro v hv v' hv' hi
      have hv := Finset.mem_range.mp (Finset.mem_coe.mp hv)
      have hv' := Finset.mem_range.mp (Finset.mem_coe.mp hv')
      have hpp := idx_inj (hpage v hv) (hpage v' hv') hi
      exact h.sharing.inj r v v' _ (hk v hv) (by rw [hpp]; exact hk v' hv'))
  simpa using hcard

theorem wp_uvmunmap (h : MemInv s own) (hr : own r = .root true) {v n : ℕ}
    (hv : v + n ≤ userPages) (hsome : ∀ v', v ≤ v' → v' < v + n → view s r v' ≠ none) :
    wp (uvmunmap r (v * pgsize) n true) E s fun _ t => ∃ own',
      EffectOn (Set.Ico v (v + n)) r s own t own'
        (fun v' => if v ≤ v' ∧ v' < v + n then none else view s r v') := by
  have hturns : ((v * pgsize + n * pgsize) % 2 ^ 64 - v * pgsize) / pgsize = n := by
    have hup := userPages_eq
    simp only [pgsize]
    omega
  unfold uvmunmap
  rw [if_neg (by simp), hturns]
  exact wp_uvmunmapLoop n h hr hv hsome

/-- `uvmdealloc` unmaps the pages between the two sizes. -/
theorem wp_uvmdealloc (h : MemInv s own) (hr : own r = .root true) {oldsz newsz : ℕ}
    (hold : npages oldsz ≤ 2 ^ 15) (hsome : ∀ v, v < npages oldsz → view s r v ≠ none) :
    wp (uvmdealloc r oldsz newsz) E s fun ret t => ret = min oldsz newsz ∧ ∃ own',
      EffectOn (Set.Ici (npages newsz)) r s own t own'
        (fun v => if npages newsz ≤ v ∧ v < npages oldsz then none else view s r v) := by
  have hup := userPages_eq
  unfold uvmdealloc
  by_cases hle : oldsz ≤ newsz
  · rw [if_pos hle, wp_pure]
    refine ⟨(min_eq_left hle).symm, own, (EffectOn.refl _ h hr).congr ?_⟩
    intro v _
    have hmono := npages_mono hle
    rw [if_neg (by omega)]
  · have hsz : oldsz ≤ 2 ^ 27 := by
      simp only [npages, pgsize] at hold
      omega
    have hmin : newsz = min oldsz newsz := (min_eq_right (by omega)).symm
    rw [if_neg hle, pgroundup_eq (show oldsz ≤ 2 ^ 63 by omega),
      pgroundup_eq (show newsz ≤ 2 ^ 63 by omega)]
    have hmono := npages_mono (show newsz ≤ oldsz by omega)
    by_cases hpg : npages newsz * pgsize < npages oldsz * pgsize
    · have hlt : npages newsz < npages oldsz := Nat.lt_of_mul_lt_mul_right hpg
      have hn : throughInt ((npages oldsz * pgsize - npages newsz * pgsize) / pgsize) =
          npages oldsz - npages newsz := by
        rw [← Nat.sub_mul, Nat.mul_div_cancel _ (by decide), throughInt_of_lt (by omega)]
      rw [if_pos hpg]
      simp only [wp_bind, hn]
      apply wp_mono (wp_uvmunmap h hr (by omega) (fun v' _ hv' => hsome v' (by omega)))
      rintro ⟨⟩ t ⟨own', ht⟩
      rw [wp_pure]
      refine ⟨hmin, own', (ht.mono fun v hv => (Set.mem_Ico.mp hv).1).congr ?_⟩
      intro v _
      rw [show npages newsz + (npages oldsz - npages newsz) = npages oldsz by omega]
    · rw [if_neg hpg, wp_pure]
      refine ⟨hmin, own, (EffectOn.refl _ h hr).congr ?_⟩
      intro v _
      have hge : npages oldsz ≤ npages newsz :=
        Nat.le_of_mul_le_mul_right (Nat.le_of_not_lt hpg) (by decide)
      rw [if_neg (by omega)]

/-- The user may read and write every page of the table: none is shared. -/
def Unshared (s : Machine) (r : ℕ) : Prop :=
  ∀ v, v < userPages → valid (leafAt (entry s.mem) r v) = true →
    user (leafAt (entry s.mem) r v) = true ∧ writable (leafAt (entry s.mem) r v) = true

/-- A zeroed page is mapped for the user: afterwards the table has it, or the page is still
held because a table page was missing. -/
theorem wp_mapZero (h : MemInv s own) (hr : own r = .root true) {v p : ℕ} (hv : v < userPages)
    (hl : s.freelist = p :: s.freelist.tail) (hnone : view s r v = none) {perm : Pte}
    (hperm : perm = pteW ||| pteX ||| pteR ||| pteU ∨ perm = pteW ||| pteR ||| pteX ||| pteU)
    {Q : Bool → Machine → Prop}
    (hfail : ∀ t own', MemInv t own' → own' p = .held .temp →
      KeepsBut {r} ∅ {p} s own t own' → s.freelist.length < 3 → Q false t)
    (hok : ∀ t own', EffectOn {v} r s own t own' (fun v' => if v' = v then some zeroPage else
      view s r v') → own' p = .data → (∃ q, leafAt (entry t.mem) r v = q ∧ pte2pa q = p) →
      (Unshared s r → Unshared t r) → s.freelist.length ≤ t.freelist.length + 3 → Q true t) :
    wp (mappages r (v * pgsize) pgsize p perm) E ((s.allocated p).setPage p fun _ => 0) Q := by
  obtain ⟨h1, k1, -⟩ := h.freshZero hl
  have hp : own p = .free := (h.alloc.free p).mp (by rw [hl]; simp)
  have hrp : r ≠ p := by
    rintro rfl
    simp [hr] at hp
  have hr1 : Function.update own p (.held .temp) r = .root true := by
    rw [Function.update_of_ne hrp, hr]
  have hlen : s.freelist.length = s.freelist.tail.length + 1 := by
    rw [hl]
    simp
  have hempty : leafAt (entry ((s.allocated p).setPage p fun _ => 0).mem) r v = 0#64 := by
    rw [k1.leaf r true v (Set.notMem_empty r) hr]
    exact h.leafAt_of_view_none hr hnone
  apply wp_mappages_page h1 hr1 (by have := userPages_eq; omega) hempty
  · intro t own' ht kt hlt
    apply hfail t own' ht
    · exact (kt.held p .temp (Set.notMem_empty p)).mpr (Function.update_self _ _ _)
    · exact (k1.weaken (Set.empty_subset {r}) le_rfl le_rfl).trans
        (kt.weaken le_rfl le_rfl (Set.empty_subset {p}))
    · have hfl : ((s.allocated p).setPage p fun _ => 0).freelist = s.freelist.tail := rfl
      rw [hfl] at hlt
      omega
  · intro t own' q ht kt hq hempty' hlen'
    have hp' : own' p = .held .temp :=
      (kt.held p .temp (Set.notMem_empty p)).mpr (Function.update_self _ _ _)
    have hr' : own' r = .root true := (kt.root r true (Set.notMem_empty r)).mpr hr1
    have hfl : perm ||| pteV = pteW ||| pteX ||| pteR ||| pteU ||| pteV ∨
        perm ||| pteV = pteW ||| pteR ||| pteX ||| pteU ||| pteV := by
      rcases hperm with rfl | rfl
      · exact Or.inl rfl
      · exact Or.inr rfl
    obtain ⟨hfb, hval, hread, huser, hwr, hcow⟩ := userFlags hfl
    have hpage : Page p := ht.tree.page p (by simp [hp'])
    have hpa := hpage.pte2pa_or hfb
    rw [BitVec.or_assoc]
    obtain ⟨h2, k2, l2⟩ := ht.mapHeld hq hr' hv hempty' hp' hfb hval hread
      (fun _ => by simp [hwr, hcow])
    have hmem : (t.setEntry q (ix0 v) (pa2pte p ||| (perm ||| pteV))).mem p = fun _ => 0 := by
      rw [setEntry_mem_of_plain hq hp' rfl,
        kt.heldMem p .temp (Set.notMem_empty p) (Function.update_self _ _ _), setPage_mem_self]
    have hview : viewOf (t.setEntry q (ix0 v) (pa2pte p ||| (perm ||| pteV)))
        (pa2pte p ||| (perm ||| pteV)) = some zeroPage := by
      rw [viewOf, if_pos (by simpa using hval), hpa, hmem]
      simp [zeroPage, huser]
    -- the page was free before and is a data page now, so that no exemption remains
    have hk : Keeps {r} ∅ s own (t.setEntry q (ix0 v) (pa2pte p ||| (perm ||| pteV)))
        (Function.update own' p .data) := by
      have hall := ((k1.mono (Set.empty_subset {r}) (le_refl _)).trans
        (kt.changed.mono le_rfl (Set.empty_subset {p}))).trans k2
      apply hall.close
      intro p' hp'' τ
      obtain rfl : p' = p := hp''
      exact ⟨by simp [hp], by simp⟩
    have hleaf : LeafWritten s (t.setEntry q (ix0 v) (pa2pte p ||| (perm ||| pteV))) own r v
        (pa2pte p ||| (perm ||| pteV)) := by
      intro r' u v' hr'' hv'
      have hr1' : Function.update own p (.held .temp) r' = .root u :=
        (k1.root r' u (Set.notMem_empty r')).mpr hr''
      have hr2' : own' r' = .root u := (kt.root r' u (Set.notMem_empty r')).mpr hr1'
      rw [l2 r' u v' hr2' hv', kt.leaf r' u v' (Set.notMem_empty r') hr1',
        k1.leaf r' u v' (Set.notMem_empty r') hr'']
    refine hok _ _ ((EffectOn.ofLeaf h2 hk hr (by rw [Function.update_of_ne hrp, hr']) hv hleaf
      ?_).congr ?_) (Function.update_self _ _ _) ⟨_, rfl, ?_⟩ ?_ ?_
    · intro v' p' hv' hk'
      have hk1 := (k1.refs_eq (Set.notMem_empty r) v').trans hk'
      have hk2 := (kt.refs_eq (Set.notMem_empty r) v').trans hk1
      rw [setEntry_mem_of_plain hq (ht.target hk2) rfl, kt.refMem r v' p' (Set.notMem_empty r) hk1,
        k1.refMem r v' p' (Set.notMem_empty r) hk']
    · intro v' _
      rw [hview]
    · rw [hleaf r true v hr (Or.inr (hv.trans userPages_lt)), if_pos ⟨rfl, rfl⟩, hpa]
    · intro hun v' hv'
      rw [hleaf r true v' hr (Or.inr (hv'.trans userPages_lt))]
      by_cases hvv : v' = v
      · rw [if_pos ⟨rfl, hvv⟩]
        intro _
        simpa using ⟨huser, hwr⟩
      · rw [if_neg (by simp [hvv])]
        exact hun v' hv'
    · rw [setEntry_freelist]
      have hfl' : ((s.allocated p).setPage p fun _ => 0).freelist = s.freelist.tail := rfl
      rw [hfl'] at hlen'
      omega

/-- A page that was taken for a mapping and given back. -/
theorem KeepsBut.giveBack {t : Machine} {own' : ℕ → Owner} {p : ℕ} (ht : MemInv t own')
    (hp : own p = .free) (hp' : own' p = .held .temp) (hk : KeepsBut {r} ∅ {p} s own t own') :
    MemInv (t.released p) (Function.update own' p .free) ∧
      KeepsBut {r} ∅ ∅ s own (t.released p) (Function.update own' p .free) := by
  obtain ⟨h2, k2⟩ := ht.releasedHeld hp'
  refine ⟨h2, (hk.trans (k2.weaken (Set.empty_subset {r}) le_rfl le_rfl)).close ?_⟩
  intro q hq τ
  obtain rfl : q = p := hq
  exact ⟨by simp [hp], by simp⟩

/-- The way out of `uvmalloc` when memory has run out with the pages below `v` mapped. -/
theorem wp_uvmalloc_undo {t : Machine} {own' : ℕ → Owner} {v₀ v : ℕ}
    (ht : EffectOn (Set.Ici v₀) r s own t own' (view s r)) (h : MemInv s own) (hr : own r = .root true)
    (hup : v ≤ userPages) (hbelow : ∀ v', v' < v → view s r v' ≠ none)
    (habove : ∀ v', v ≤ v' → v' < userPages → view s r v' = none) :
    wp (uvmdealloc r (v * pgsize) (v₀ * pgsize)) E t fun _ t' => ∃ own'',
      EffectOn (Set.Ici v₀) r s own t' own'' (fun v' => if v₀ ≤ v' then none else view s r v') := by
  have hbound := h.mapped_le hr hup hbelow
  have hsome : ∀ v', v' < npages (v * pgsize) → view t r v' ≠ none := by
    intro v' hv'
    rw [npages_mul] at hv'
    rw [ht.view v' (by omega)]
    exact hbelow v' hv'
  apply wp_mono (wp_uvmdealloc ht.inv ht.root (by rw [npages_mul]; exact hbound) hsome)
  rintro ret t' ⟨-, own'', ht'⟩
  rw [npages_mul] at ht'
  refine ⟨own'', (ht.trans ht').congr ?_⟩
  intro v' hv'
  rw [npages_mul, ht.view v' hv']
  by_cases hin : v₀ ≤ v'
  · rw [if_pos hin]
    by_cases hlt : v' < v
    · rw [if_pos ⟨hin, hlt⟩]
    · rw [if_neg (by omega), habove v' (by omega) hv']
  · rw [if_neg hin, if_neg (by omega)]

/-- The loop of `uvmalloc` maps zeroed pages, or takes back all pages from `v₀` on. -/
theorem wp_uvmallocLoop (n : ℕ) {v₀ newsz : ℕ} (h : MemInv s own) (hr : own r = .root true)
    {v : ℕ} (hv₀ : v₀ ≤ v) (hup : v ≤ userPages) (hbelow : ∀ v', v' < v → view s r v' ≠ none)
    (habove : ∀ v', v ≤ v' → v' < userPages → view s r v' = none) :
    wp (uvmallocLoop r (v₀ * pgsize) newsz n (v * pgsize)) E s fun ret t => ∃ own',
      (ret = newsz ∧ v + n ≤ 2 ^ 15 ∧ (Unshared s r → Unshared t r) ∧ EffectOn (Set.Ici v₀) r s own t own'
        (fun v' => if v ≤ v' ∧ v' < v + n then some zeroPage else view s r v')) ∨
      (ret = 0 ∧ s.freelist.length < 3 * n ∧ EffectOn (Set.Ici v₀) r s own t own'
        (fun v' => if v₀ ≤ v' then none else view s r v')) := by
  induction n generalizing s own v with
  | zero =>
    rw [uvmallocLoop, wp_pure]
    refine ⟨own, Or.inl ⟨rfl, h.mapped_le hr hup hbelow, id, (EffectOn.refl _ h hr).congr ?_⟩⟩
    intro v' _
    rw [if_neg (by omega)]
  | succ n ih =>
    have hbound := h.mapped_le hr hup hbelow
    have hv : v < userPages := by
      rw [userPages_eq]
      omega
    rw [uvmallocLoop, wp_bind]
    apply wp_kalloc h.alloc
    · intro hnil
      simp only [wp_bind]
      apply wp_mono (wp_uvmalloc_undo (EffectOn.refl _ h hr) h hr hup hbelow habove)
      rintro ret t ⟨own', ht⟩
      exact (wp_pure _).mpr ⟨own', Or.inr ⟨rfl, by simp [hnil], ht⟩⟩
    · intro p hp hl
      simp only [wp_bind, wp_memset]
      apply wp_mapZero h hr hv hl (habove v (le_refl _) hv) (Or.inl rfl)
      · -- no table page: the page goes back first
        intro t own' ht hp' hk hlow
        have hpage : Page p := ht.tree.page p (by simp [hp'])
        have hone := ht.alloc.one p (by simp [hp', Owner.single])
        obtain ⟨h2, k2⟩ := hk.giveBack ht hp hp'
        simp only [Bool.false_eq_true, if_false, wp_bind]
        apply wp_kfree hpage (by omega)
        · intro _
          apply wp_mono (wp_uvmalloc_undo (EffectOn.ofKeeps _ h2 k2 hr) h hr hup hbelow habove)
          rintro ret t' ⟨own'', ht'⟩
          exact (wp_pure _).mpr ⟨own'', Or.inr ⟨rfl, by omega, ht'⟩⟩
        · intro hc
          omega
      · intro t own' ht _ _ hun hused
        have ht : EffectOn (Set.Ici v₀) r s own t own' _ :=
          ht.mono fun v' (hv' : v' = v) => Set.mem_Ici.mpr (hv' ▸ hv₀)
        simp only [if_true]
        rw [show v * pgsize + pgsize = (v + 1) * pgsize by ring]
        apply wp_mono (ih ht.inv ht.root (by omega) (by omega) ?_ ?_)
        · rintro ret t' ⟨own'', hret | hret⟩
          · refine ⟨own'', Or.inl ⟨hret.1, by omega, hret.2.2.1 ∘ hun,
              (ht.trans hret.2.2.2).congr ?_⟩⟩
            intro v' hv'
            rw [ht.view v' hv']
            by_cases hvv : v' = v
            · rw [if_neg (by omega), if_pos hvv, if_pos (by omega)]
            · rw [if_neg hvv]
              by_cases hin : v + 1 ≤ v' ∧ v' < v + 1 + n
              · rw [if_pos hin, if_pos (by omega)]
              · rw [if_neg hin, if_neg (by omega)]
          · refine ⟨own'', Or.inr ⟨hret.1, by omega, (ht.trans hret.2.2).congr ?_⟩⟩
            intro v' hv'
            rw [ht.view v' hv']
            by_cases hin : v₀ ≤ v'
            · rw [if_pos hin, if_pos hin]
            · rw [if_neg hin, if_neg hin, if_neg (by omega)]
        · intro v' hv'
          rw [ht.view v' (by omega)]
          by_cases hvv : v' = v
          · rw [if_pos hvv]
            simp
          · rw [if_neg hvv]
            exact hbelow v' (by omega)
        · intro v' hv' hlt
          rw [ht.view v' hlt, if_neg (by omega)]
          exact habove v' (by omega) hlt

/-- A table maps exactly the pages below `n`, apart from the two at the top. -/
def MapsBelow (s : Machine) (r n : ℕ) : Prop :=
  ∀ v, v < userPages → (view s r v ≠ none ↔ v < n)

/-- `uvmalloc` adds zeroed pages up to the new size, or changes nothing and returns 0. -/
theorem wp_uvmalloc (h : MemInv s own) (hr : own r = .root true) {oldsz newsz : ℕ}
    (hold : npages oldsz ≤ userPages) (hmaps : MapsBelow s r (npages oldsz)) :
    wp (uvmalloc r oldsz newsz) E s fun ret t => ∃ own',
      (ret = max oldsz newsz ∧ npages ret ≤ 2 ^ 15 ∧ (Unshared s r → Unshared t r) ∧
        EffectOn (Set.Ici (npages oldsz)) r s own t own' (fun v =>
          if npages oldsz ≤ v ∧ v < npages newsz then some zeroPage else view s r v)) ∨
      (ret = 0 ∧ (oldsz ≤ newsz ∧ s.freelist.length < 3 * (npages newsz - npages oldsz)) ∧
        EffectOn (Set.Ici (npages oldsz)) r s own t own' (view s r)) := by
  have hupeq := userPages_eq
  have hbelow : ∀ v, v < npages oldsz → view s r v ≠ none := fun v hv =>
    (hmaps v (by omega)).mpr hv
  have habove : ∀ v, npages oldsz ≤ v → v < userPages → view s r v = none := by
    intro v hv hlt
    by_contra hno
    have hlt' := (hmaps v hlt).mp hno
    omega
  have hbound := h.mapped_le hr hold hbelow
  unfold uvmalloc
  by_cases hlt : newsz < oldsz
  · rw [if_pos hlt, wp_pure]
    refine ⟨own, Or.inl ⟨(max_eq_left hlt.le).symm, hbound, id, (EffectOn.refl _ h hr).congr ?_⟩⟩
    intro v _
    have hmono := npages_mono hlt.le
    rw [if_neg (by omega)]
  · have hsz : oldsz ≤ 2 ^ 63 := by
      simp only [npages, pgsize] at hbound
      omega
    have hle : oldsz ≤ newsz := Nat.le_of_not_lt hlt
    have hturns : npages oldsz + (newsz - npages oldsz * pgsize + (pgsize - 1)) / pgsize =
        max (npages oldsz) (npages newsz) := by
      have hmono := npages_mono hle
      simp only [npages, pgsize] at *
      omega
    have hmax := npages_mono hle
    rw [max_eq_right hmax] at hturns
    rw [if_neg hlt, pgroundup_eq hsz]
    apply wp_mono (wp_uvmallocLoop _ h hr (le_refl _) hold hbelow habove)
    rintro ret t ⟨own', ⟨rfl, hn, hun, ht⟩ | ⟨rfl, hlow, ht⟩⟩
    · rw [hturns] at hn
      refine ⟨own', Or.inl ⟨(max_eq_right hle).symm, hn, hun, ht.congr ?_⟩⟩
      intro v _
      rw [hturns]
    · refine ⟨own', Or.inr ⟨rfl, ⟨hle, by omega⟩, ht.congr ?_⟩⟩
      intro v hv
      by_cases hin : npages oldsz ≤ v
      · rw [if_pos hin, habove v hin hv]
      · rw [if_neg hin]

end grow
end Xv6
