import Xv6.Vm.SystemSpec

/-! The kernel sets up its memory: the free list and its own page table. -/
namespace Xv6
open Bytes Program RefCount

section kinit
variable [Image] {s : Machine} {E : Panic → Prop}

/-- The pages below `p` are on the free list, and nothing is counted. -/
structure RangeFreed (s : Machine) (p n : ℕ) : Prop where
  nodup : s.freelist.Nodup
  mem : ∀ q, q ∈ s.freelist ↔ Page q ∧ q < p
  count : s.count = fun _ => 0
  length : s.freelist.length = n

theorem RangeFreed.page {p n : ℕ} (h : RangeFreed s p n) (hp : Page p) :
    RangeFreed ((s.setCount (idx p) 1).released p) (p + pgsize) (n + 1) where
  nodup := List.nodup_cons.mpr ⟨fun hin => (lt_irrefl p) ((h.mem p).mp hin).2, h.nodup⟩
  mem q := by
    simp only [Machine.released, setCount_freelist, List.mem_cons, h.mem]
    constructor
    · rintro (rfl | ⟨hq, hlt⟩)
      · exact ⟨hp, Nat.lt_add_of_pos_right (by decide)⟩
      · exact ⟨hq, by omega⟩
    · rintro ⟨hq, hlt⟩
      by_cases hqp : q = p
      · exact Or.inl hqp
      · have hpa := hp.2.2
        have hqa := hq.2.2
        simp only [pgsize] at hpa hqa hlt
        exact Or.inr ⟨hq, by omega⟩
  count := by
    funext k
    simp only [Machine.released, Machine.setCount, h.count]
    by_cases hk : k = idx p
    · subst hk
      rw [Function.update_self]
    · rw [Function.update_of_ne hk, Function.update_of_ne hk]
  length := by simp [Machine.released, h.length]

theorem wp_freerangeLoop (n : ℕ) {p k : ℕ} (h : RangeFreed s p k) (hp : p % pgsize = 0)
    (hlo : kend ≤ p) (hhi : p + n * pgsize ≤ phystop) :
    wp (freerangeLoop n p) E s fun _ t => RangeFreed t (p + n * pgsize) (k + n) := by
  induction n generalizing s p k with
  | zero =>
    rw [freerangeLoop, wp_pure]
    simpa using h
  | succ n ih =>
    rw [Nat.succ_mul] at hhi
    have hpage : Page p := ⟨hlo, lt_of_lt_of_le (Nat.lt_add_of_pos_right (by simp)) hhi, hp⟩
    simp only [freerangeLoop, wp_bind, wp_refindex hpage, wp_modify]
    have hnext : wp (freerangeLoop n (p + pgsize)) E ((s.setCount (idx p) 1).released p)
        fun _ t => RangeFreed t (p + (n + 1) * pgsize) (k + (n + 1)) := by
      have := ih (h.page hpage) (by rw [Nat.add_mod, hp]; rfl) (by omega) (by omega)
      rwa [show p + pgsize + n * pgsize = p + (n + 1) * pgsize by ring,
        show k + 1 + n = k + (n + 1) by ring] at this
    apply wp_kfree hpage (by simp)
    · intro _
      exact hnext
    · intro hlt
      simp at hlt

open Classical in
/-- Who owns the pages before anything is allocated. -/
noncomputable def bootOwner (p : ℕ) : Owner := if Page p then .free else .outside

theorem bootOwner_eq_free {p : ℕ} : bootOwner p = .free ↔ Page p := by
  unfold bootOwner
  split <;> simp_all

theorem bootOwner_cases (p : ℕ) : bootOwner p = .free ∨ bootOwner p = .outside := by
  unfold bootOwner
  split <;> simp

theorem RangeFreed.memInv {n : ℕ} (h : RangeFreed s phystop n) : MemInv s bootOwner := by
  have hnot : ∀ p o, o ≠ .free → o ≠ .outside → bootOwner p ≠ o := by
    rintro p o h1 h2 rfl
    rcases bootOwner_cases p with h0 | h0
    · exact h1 h0
    · exact h2 h0
  have hrefs : ∀ k, refs (entry s.mem) bootOwner k = none := by
    intro k
    unfold refs
    rw [if_neg fun hk => hnot k.1 _ (by simp) (by simp) hk.1]
  refine ⟨⟨?_, ?_, ?_, ?_, ?_, ?_⟩, ⟨?_, h.nodup, ?_, ?_, ?_, ?_⟩, ?_, ?_, ?_, ?_⟩
  · intro p hp
    exact bootOwner_eq_free.mp ((bootOwner_cases p).resolve_right hp)
  · intro r u i hr
    exact absurd hr (hnot r _ (by simp) (by simp))
  · intro q r i hq
    exact absurd hq (hnot q _ (by simp) (by simp))
  · intro q r i j hq
    exact absurd hq (hnot q _ (by simp) (by simp))
  · intro q r i j hq
    exact absurd hq (hnot q _ (by simp) (by simp))
  · intro q r i j k hq
    exact absurd hq (hnot q _ (by simp) (by simp))
  · intro p
    rw [← bootOwner_eq_free]
    rcases bootOwner_cases p with h0 | h0 <;> simp [h0]
  · intro p
    rw [h.mem, bootOwner_eq_free]
    exact ⟨And.left, fun hp => ⟨hp, hp.2.1⟩⟩
  · intro p _
    rw [h.count]
  · intro p hp
    rcases bootOwner_cases p with h0 | h0 <;> simp [h0, Owner.single] at hp
  · intro p hp
    exact absurd hp (hnot p _ (by simp) (by simp))
  · intro p
    rw [if_neg (hnot p _ (by simp) (by simp)), show refs (entry s.mem) bootOwner = fun _ => none
      from funext hrefs]
    simp [refCount, referrers]
  · intro k p hk
    rw [hrefs] at hk
    cases hk
  · intro k p hk
    rw [hrefs] at hk
    cases hk
  · intro r v v' p hk
    rw [hrefs] at hk
    cases hk

/-- After `kinit` every page of the memory is free. -/
theorem wp_kinit (hs : s.freelist = []) (hc : s.count = fun _ => 0) :
    wp kinit E s fun _ t => MemInv t bootOwner ∧ 511 ≤ t.freelist.length := by
  have hroom := Image.room
  have h0 : RangeFreed s (pgroundup kend) 0 := by
    refine ⟨by simp [hs], fun q => ?_, hc, by simp [hs]⟩
    rw [hs]
    refine iff_of_false (List.not_mem_nil) ?_
    rintro ⟨⟨hlo, -, ha⟩, hlt⟩
    simp only [pgroundup, pgsize] at hlt ha
    omega
  have heq : pgroundup kend + (phystop - pgroundup kend) / pgsize * pgsize = phystop := by
    simp only [pgroundup, pgsize, phystop, kernbase] at hroom ⊢
    omega
  have hlen : 511 ≤ (phystop - pgroundup kend) / pgsize := by
    simp only [pgroundup, pgsize, phystop, kernbase] at hroom ⊢
    omega
  unfold kinit freerange
  apply wp_mono (wp_freerangeLoop _ h0 ?_ ?_ heq.le)
  · intro _ t ht
    rw [heq] at ht
    exact ⟨ht.memInv, by rw [ht.length]; omega⟩
  · simp [pgroundup]
  · simp only [pgroundup, pgsize, phystop, kernbase] at hroom ⊢
    omega

end kinit

section kernel
variable [Image] {s t u : Machine} {own own' own'' : ℕ → Owner} {E : Panic → Prop} {r : ℕ}

/-- The kernel's table has changed, and nothing else; its entries are given by `L`. -/
structure KernelEffect (r : ℕ) (s : Machine) (own : ℕ → Owner) (t : Machine) (own' : ℕ → Owner)
    (L : ℕ → Pte) : Prop where
  inv : MemInv t own'
  keeps : Keeps {r} ∅ s own t own'
  root : own' r = .root false
  kept : ∀ p, own p ≠ .free → own' p = own p
  leaf : ∀ v, v < 2 ^ 27 → leafAt (entry t.mem) r v = L v

variable {L L' : ℕ → Pte}

theorem KernelEffect.trans (h : KernelEffect r s own t own' L)
    (h' : KernelEffect r t own' u own'' L') : KernelEffect r s own u own'' L' where
  inv := h'.inv
  keeps := h.keeps.trans h'.keeps
  root := h'.root
  kept p hp := by
    have h1 := h.kept p hp
    rw [h'.kept p (by rwa [h1]), h1]
  leaf := h'.leaf

theorem KernelEffect.congr (h : KernelEffect r s own t own' L)
    (hL : ∀ v, v < 2 ^ 27 → L v = L' v) : KernelEffect r s own t own' L' :=
  { h with leaf := fun v hv => (h.leaf v hv).trans (hL v hv) }

/-- The entry that `mappages` writes. -/
def mapPte (pa : ℕ) (perm : Pte) : Pte := pa2pte pa ||| perm ||| pteV

variable {perm : Pte}

omit [Image] in
theorem mapPte_leaf {pa : ℕ} (hperm : leaf perm = true) :
    valid (mapPte pa perm) = true ∧ leaf (mapPte pa perm) = true := by
  unfold mapPte
  constructor
  · rw [BitVec.or_assoc, valid_pa2pte_or]
    simp [valid, pteV]
  · rw [BitVec.or_assoc, leaf_pa2pte_or]
    simp only [leaf, readable, writable, executable, BitVec.getLsbD_or, Bool.or_eq_true] at hperm ⊢
    tauto

/-- Pages `v` to `v + n` mapped to the physical pages from `pa` on. -/
def mapRange (L : ℕ → Pte) (v n pa : ℕ) (perm : Pte) : ℕ → Pte := fun w =>
  if v ≤ w ∧ w < v + n then mapPte (pa + (w - v) * pgsize) perm else L w

omit [Image] in
theorem ix_congr {v w : ℕ} (h : v / 512 = w / 512) : ix2 v = ix2 w ∧ ix1 v = ix1 w := by
  simp only [ix2, ix1]
  omega

/-- One page of the kernel's table is mapped. A lower table is made only if there is none. -/
theorem KernelEffect.page {v pa : ℕ} {q : ℕ} (hr : own r = .root false) (ht : MemInv t own')
    (hk : KeepsBut {r} ∅ ∅ s own t own') (hkept : ∀ p, own p ≠ .free → own' p = own p)
    (hq : own' q = .low r (ix2 v) (ix1 v)) (hv : v < 2 ^ 27) (hperm : readable perm = true) :
    KernelEffect r s own (t.setEntry q (ix0 v) (mapPte pa perm)) own'
      (mapRange (leafAt (entry s.mem) r) v 1 pa perm) := by
  have hr' := (hk.root r false (Set.notMem_empty _)).mpr hr
  have hleaf : Xv6.leaf perm = true := by simp [Xv6.leaf, hperm]
  obtain ⟨h1, k1, l1⟩ := ht.setUncounted hq hv (Or.inl (by simp [hr']))
    (Or.inr (mapPte_leaf hleaf))
  refine ⟨h1, hk.changed.trans k1, hr', hkept, ?_⟩
  intro w hw
  rw [l1 r false w hr' (Or.inr hw), hk.leaf r false w (Set.notMem_empty _) hr]
  unfold mapRange
  by_cases hwv : w = v
  · subst hwv
    simp
  · rw [if_neg (fun h => hwv h.2), if_neg (fun h => hwv (by omega))]

omit [Image] in
theorem mapRange_congr {v n pa w : ℕ} (h : L w = L' w) :
    mapRange L v n pa perm w = mapRange L' v n pa perm w := by
  simp only [mapRange, h]

omit [Image] in
theorem mapRange_succ {L : ℕ → Pte} {v n pa : ℕ} :
    mapRange (mapRange L v 1 pa perm) (v + 1) n (pa + pgsize) perm = mapRange L v (n + 1) pa perm := by
  funext w
  unfold mapRange
  by_cases hw : w = v
  · subst hw
    rw [if_neg (by omega), if_pos (by omega), if_pos (by omega)]
  · by_cases hin : v + 1 ≤ w ∧ w < v + 1 + n
    · rw [if_pos hin, if_pos (by omega)]
      congr 1
      rw [show w - v = (w - (v + 1)) + 1 by omega]
      ring
    · rw [if_neg hin, if_neg (by omega), if_neg (by omega)]

/-- One turn of the loop of `mappages` on the kernel's table. -/
theorem wp_mappagesTurn {fuel v pa c last : ℕ} (h : MemInv s own) (hr : own r = .root false)
    (hperm : readable perm = true) (hv : v < 2 ^ 26) (hempty : leafAt (entry s.mem) r v = 0#64)
    (hc : c = 2 ∨ ∃ q, own q = .low r (ix2 v) (ix1 v)) (hroom : 2 ≤ s.freelist.length)
    {Q : Bool → Machine → Prop} (hnext : ∀ t own', KernelEffect r s own t own'
        (mapRange (leafAt (entry s.mem) r) v 1 pa perm) →
      (∃ q, own' q = .low r (ix2 v) (ix1 v)) → s.freelist.length ≤ t.freelist.length + c →
      wp (if v * pgsize = last then pure true else
        mappagesLoop r last perm fuel (v * pgsize + pgsize) (pa + pgsize)) E t Q) :
    wp (mappagesLoop r last perm (fuel + 1) (v * pgsize) pa) E s Q := by
  apply (MemInv.linking s own r).wp_mappagesTurn ⟨h, KeepsBut.refl _ _ _ _ _⟩ hr hv
  · intro t own' ht
    rw [ht.2.leaf r false v (Set.notMem_empty r) hr, hempty]
  · intro t own' _ hlen
    omega
  · intro t own' q ht hkept hq hlen hsame
    apply hnext _ own' (KernelEffect.page hr ht.1 ht.2 hkept hq (by omega) hperm) ⟨q, hq⟩
    rw [setEntry_freelist]
    rcases hc with rfl | ⟨q', hq'⟩
    · exact hlen
    · rw [hsame q' hq']
      omega

/-- The loop of `mappages` on the kernel's table. Each stretch of 512 pages needs two tables at
most, and none if it has its lower table already, `c = 0`. -/
theorem wp_mappagesLoop_kernel (n : ℕ) {fuel v pa c : ℕ} (h : MemInv s own)
    (hr : own r = .root false) (hperm : readable perm = true) (hv : v + n < 2 ^ 26)
    (hfuel : n < fuel) (hempty : ∀ w, v ≤ w → w ≤ v + n → leafAt (entry s.mem) r w = 0#64)
    (hc : c = 2 ∨ ∃ q, own q = .low r (ix2 v) (ix1 v))
    (hroom : 2 * ((v + n) / 512 - v / 512) + c + 2 ≤ s.freelist.length) :
    wp (mappagesLoop r ((v + n) * pgsize) perm fuel (v * pgsize) pa) E s fun ok t =>
      ok = true ∧ s.freelist.length ≤ t.freelist.length + 2 * ((v + n) / 512 - v / 512) + c ∧
      ∃ own', KernelEffect r s own t own'
        (mapRange (leafAt (entry s.mem) r) v (n + 1) pa perm) := by
  induction n generalizing fuel v pa c s own with
  | zero =>
    obtain ⟨fuel, rfl⟩ : ∃ f, fuel = f + 1 := ⟨fuel - 1, by omega⟩
    apply wp_mappagesTurn h hr hperm (by omega) (hempty v le_rfl le_rfl) hc (by omega)
    intro t own' he _ hlen
    rw [if_pos (by rw [Nat.add_zero]), wp_pure]
    exact ⟨rfl, by omega, own', he⟩
  | succ n ih =>
    obtain ⟨fuel, rfl⟩ : ∃ f, fuel = f + 1 := ⟨fuel - 1, by omega⟩
    apply wp_mappagesTurn h hr hperm (by omega) (hempty v le_rfl (by omega)) hc (by omega)
    intro t own' he hq hlen
    rw [if_neg (by simp only [pgsize]; omega), show v * pgsize + pgsize = (v + 1) * pgsize by ring,
      show v + (n + 1) = v + 1 + n by ring]
    -- the next page is in the same stretch, or begins a new one
    obtain ⟨c', hc', hstep⟩ : ∃ c', (c' = 2 ∨ ∃ q, own' q = .low r (ix2 (v + 1)) (ix1 (v + 1))) ∧
        2 * ((v + 1 + n) / 512 - (v + 1) / 512) + c' = 2 * ((v + (n + 1)) / 512 - v / 512) := by
      by_cases hsame : (v + 1) / 512 = v / 512
      · obtain ⟨e2, e1⟩ := ix_congr hsame
        exact ⟨0, Or.inr (by rwa [e2, e1]), by omega⟩
      · exact ⟨2, Or.inl rfl, by omega⟩
    have hnext := @ih t own' fuel (v + 1) (pa + pgsize) c' he.inv he.root (by omega) (by omega) ?_
      hc' (by omega)
    · apply wp_mono hnext
      rintro ok u ⟨rfl, hlen', own'', he'⟩
      refine ⟨rfl, by omega, own'', (he.trans he').congr ?_⟩
      intro w hw
      rw [← mapRange_succ (v := v)]
      exact mapRange_congr (he.leaf w hw)
    · intro w hlo hhi
      rw [he.leaf w (by omega), mapRange, if_neg (by omega)]
      exact hempty w (by omega) (by omega)

/-- `kvmmap` of `n` pages: there is memory enough, so that it does not panic. -/
theorem wp_kvmmap {v n pa : ℕ} (h : MemInv s own) (hr : own r = .root false)
    (hperm : readable perm = true) (hn : 0 < n) (hv : v + n ≤ 2 ^ 26)
    (hempty : ∀ w, v ≤ w → w < v + n → leafAt (entry s.mem) r w = 0#64)
    (hroom : 2 * (n / 512) + 6 ≤ s.freelist.length) :
    wp (kvmmap r (v * pgsize) pa (n * pgsize) perm) E s fun _ t =>
      s.freelist.length ≤ t.freelist.length + 2 * (n / 512) + 4 ∧
      ∃ own', KernelEffect r s own t own' (mapRange (leafAt (entry s.mem) r) v n pa perm) := by
  obtain ⟨k, rfl⟩ : ∃ k, n = k + 1 := ⟨n - 1, by omega⟩
  have hdown : pgrounddown (v * pgsize) = v * pgsize :=
    pgrounddown_aligned (Nat.mul_mod_left v pgsize)
  have hlast : pgrounddown ((v * pgsize + (k + 1) * pgsize - 1) % 2 ^ 64) = (v + k) * pgsize := by
    simp only [pgrounddown, pgsize]
    omega
  have hfuel : maxva / pgsize + 1 = 2 ^ 26 + 1 := by decide
  unfold kvmmap mappages
  rw [if_neg (by simp), hdown, hlast, hfuel, wp_bind]
  apply wp_mono (wp_mappagesLoop_kernel k (c := 2) h hr hperm (by omega) (by omega)
    (fun w hlo hhi => hempty w hlo (by omega)) (Or.inl rfl) (by omega))
  rintro _ t ⟨rfl, hlen, own', he⟩
  rw [if_neg (by simp), wp_pure]
  exact ⟨by omega, own', he⟩

/-- A `kvmmap` in the course of `kvmmake`, which has taken `used` pages so far. -/
theorem wp_kvmmap_next {L : ℕ → Pte} {va sz v n pa used : ℕ} (h : KernelEffect r s own t own' L)
    (hva : va = v * pgsize) (hsz : sz = n * pgsize) (hperm : readable perm = true) (hn : 0 < n)
    (hv : v + n ≤ 2 ^ 26) (hempty : ∀ w, v ≤ w → w < v + n → L w = 0#64)
    (hused : s.freelist.length ≤ t.freelist.length + used)
    (hroom : used + 2 * (n / 512) + 6 ≤ s.freelist.length) {Q : Unit → Machine → Prop}
    (hnext : ∀ u own'', KernelEffect r s own u own'' (mapRange L v n pa perm) →
      s.freelist.length ≤ u.freelist.length + (used + 2 * (n / 512) + 4) → Q () u) :
    wp (kvmmap r va pa sz perm) E t Q := by
  subst hva hsz
  have hzero : ∀ w, v ≤ w → w < v + n → leafAt (entry t.mem) r w = 0#64 := by
    intro w hlo hhi
    rw [h.leaf w (by omega), hempty w hlo hhi]
  apply wp_mono (wp_kvmmap h.inv h.root hperm hn hv hzero (by omega))
  rintro _ u ⟨hlen, own'', he⟩
  exact hnext u own'' ((h.trans he).congr fun w hw => mapRange_congr (h.leaf w hw)) (by omega)

/-- The page number of a kernel stack. -/
abbrev kstackVpn (i : ℕ) : ℕ := 2 ^ 26 - 3 - 2 * i

omit [Image] in
theorem kstackVa_eq {i : ℕ} (hi : i < nproc) : kstackVa i = kstackVpn i * pgsize := by
  simp only [kstackVa, kstackVpn, pgsize, nproc, trampolineVa, maxva] at *
  omega

omit [Image] in
theorem kstackPage_eq {i : ℕ} (hi : i < nproc) :
    kstackPage t r i = pte2pa (leafAt (entry t.mem) r (kstackVpn i)) := by
  rw [kstackPage, kstackVa_eq hi, Nat.mul_div_cancel _ (by decide)]

/-- The kernel's table while the stacks of the processes are mapped: `k` of them are. -/
structure Stacks (r k : ℕ) (t : Machine) (own : ℕ → Owner) : Prop where
  inv : MemInv t own
  root : ∀ r' u, own r' = .root u ↔ r' = r ∧ u = false
  held : ∀ p τ, own p = .held τ ↔ ∃ i < k, τ = .kstack i ∧ kstackPage t r i = p
  empty : ∀ i, k ≤ i → i < nproc → leafAt (entry t.mem) r (kstackVpn i) = 0#64

theorem Stacks.next {k p : ℕ} (h : Stacks r k t own) (hk : k < nproc) (hp : own p = .free)
    (ha : MemInv (t.allocated p) (Function.update own p (.held (.kstack k))))
    (ka : Keeps ∅ {p} t own (t.allocated p) (Function.update own p (.held (.kstack k))))
    (he : KernelEffect r (t.allocated p) (Function.update own p (.held (.kstack k))) u own''
      (mapRange (leafAt (entry t.mem) r) (kstackVpn k) 1 p (pteR ||| pteW))) :
    Stacks r (k + 1) u own'' := by
  have hpage := (h.inv.alloc.managed p).mp (by simp [hp])
  have hnew : kstackPage u r k = p := by
    rw [kstackPage_eq hk, he.leaf _ (by simp only [kstackVpn]; omega), mapRange, if_pos (by omega),
      Nat.sub_self, Nat.zero_mul, Nat.add_zero, mapPte, BitVec.or_assoc]
    exact hpage.pte2pa_or ((flagBits_pteR.or flagBits_pteW).or flagBits_pteV)
  have hold : ∀ i, i ≠ k → i < nproc →
      leafAt (entry u.mem) r (kstackVpn i) = leafAt (entry t.mem) r (kstackVpn i) := by
    intro i hik hi
    rw [he.leaf _ (by simp only [kstackVpn]; omega), mapRange, if_neg]
    simp only [kstackVpn, nproc] at *
    omega
  have hrp : r ≠ p := by
    rintro rfl
    rw [(h.root r false).mpr ⟨rfl, rfl⟩] at hp
    cases hp
  refine ⟨he.inv, ?_, ?_, ?_⟩
  · intro r' x
    by_cases hr' : r' = r
    · subst hr'
      rw [he.root]
      simp [eq_comm]
    · rw [he.keeps.root r' x (by simpa using hr'), ka.root r' x (Set.notMem_empty _), h.root]
  · intro q τ
    rw [he.keeps.held q τ (Set.notMem_empty _)]
    by_cases hq : q = p
    · subst hq
      rw [Function.update_self]
      constructor
      · intro hτ
        exact ⟨k, by omega, (Owner.held.inj hτ).symm, hnew⟩
      · rintro ⟨i, hi, rfl, hpg⟩
        by_cases hik : i = k
        · rw [hik]
        · -- a page of an earlier stack is not free
          have hheld := (h.held q (.kstack i)).mpr ⟨i, by omega, rfl, by
            rw [kstackPage_eq (by omega), ← hold i hik (by omega), ← kstackPage_eq (by omega), hpg]⟩
          rw [hp] at hheld
          cases hheld
    · rw [Function.update_of_ne hq, h.held]
      constructor
      · rintro ⟨i, hi, rfl, hpg⟩
        refine ⟨i, by omega, rfl, ?_⟩
        rw [kstackPage_eq (by omega), hold i (by omega) (by omega), ← kstackPage_eq (by omega), hpg]
      · rintro ⟨i, hi, rfl, hpg⟩
        have hik : i ≠ k := by
          rintro rfl
          exact hq (hpg.symm.trans hnew)
        refine ⟨i, by omega, rfl, ?_⟩
        rw [kstackPage_eq (by omega), ← hold i hik (by omega), ← kstackPage_eq (by omega), hpg]
  · intro i hki hi
    rw [hold i (by omega) hi]
    exact h.empty i (by omega) hi

theorem wp_procMapstacks (n : ℕ) (hn : n ≤ nproc) (h : Stacks r (nproc - n) t own)
    (hroom : 5 * n + 2 ≤ t.freelist.length) :
    wp (procMapstacks r n) E t fun _ u => t.freelist.length ≤ u.freelist.length + 5 * n ∧
      ∃ own', Stacks r nproc u own' := by
  induction n generalizing t own with
  | zero =>
    rw [procMapstacks, wp_pure]
    exact ⟨by omega, own, h⟩
  | succ n ih =>
    rw [procMapstacks, wp_bind]
    apply wp_kalloc h.inv.alloc
    · intro hnil
      simp [hnil] at hroom
    · intro p hp hl
      obtain ⟨ha, ka⟩ := h.inv.allocated hl (.kstack (nproc - (n + 1)))
      have hlen : t.freelist.length = (t.allocated p).freelist.length + 1 := by
        rw [hl]
        rfl
      have hk : nproc - (n + 1) < nproc := by omega
      have hr := (h.root r false).mpr ⟨rfl, rfl⟩
      have hr' := (ka.root r false (Set.notMem_empty _)).mpr hr
      have hleaf : ∀ v, leafAt (entry (t.allocated p).mem) r v = leafAt (entry t.mem) r v :=
        fun v => ka.leaf r false v (Set.notMem_empty _) hr
      rw [wp_bind, kstackVa_eq hk]
      change wp (kvmmap r _ p (1 * pgsize) _) E _ _
      apply wp_mono (wp_kvmmap (n := 1) ha hr' (by decide) (by decide) ?_ ?_ (by omega))
      · rintro _ u ⟨hlen', own', he⟩
        have hnext := h.next hk hp ha ka (he.congr fun w _ => mapRange_congr (hleaf w))
        rw [show nproc - (n + 1) + 1 = nproc - n by omega] at hnext
        apply wp_mono (ih (by omega) hnext (by omega))
        rintro _ x ⟨hlen'', hx⟩
        exact ⟨by omega, hx⟩
      · simp only [kstackVpn]
        omega
      · intro w hlo hhi
        rw [hleaf, show w = kstackVpn (nproc - (n + 1)) by omega]
        exact h.empty _ le_rfl hk

/-- The kernel's table is made, with a stack for each process. -/
theorem wp_kvmmake (h : MemInv s bootOwner) (hroom : 500 ≤ s.freelist.length) :
    wp kvmmake E s fun r t => s.freelist.length ≤ t.freelist.length + 480 ∧
      ∃ own, Stacks r nproc t own := by
  have hbase := Image.base
  have haligned := Image.aligned
  have htext := Image.text
  have hdata := Image.data
  have himage := Image.room
  obtain ⟨te, hte⟩ : ∃ te, etext = te * pgsize := ⟨etext / pgsize, by
    rw [htext]
    simp only [pgsize] at haligned ⊢
    omega⟩
  have hlo : 0x80000 < te := by
    simp only [kernbase, pgsize] at *
    omega
  have hhi : te < 0x88000 := by
    simp only [kernbase, pgsize, phystop] at *
    omega
  rw [kvmmake, wp_bind]
  apply wp_kalloc h.alloc
  · intro hnil
    simp [hnil] at hroom
  · intro r hr hl
    obtain ⟨h1, k1, z1⟩ := h.freshRoot hl false
    have hlen : s.freelist.length = (s.allocated r).freelist.length + 1 := by
      rw [hl]
      rfl
    have e0 : KernelEffect r s bootOwner ((s.allocated r).setPage r fun _ => 0)
        (Function.update bootOwner r (.root false)) fun _ => 0#64 := by
      refine ⟨h1, k1, Function.update_self _ _ _, ?_, fun v _ => z1 v⟩
      intro p hp
      apply Function.update_of_ne
      rintro rfl
      exact hp hr
    simp only [wp_bind, wp_memset]
    refine wp_kvmmap_next (v := 0x10000) (n := 1) e0 rfl rfl (by decide) (by decide) (by decide)
      (fun _ _ _ => rfl) hlen.le (by omega) ?_
    intro t1 o1 e1 u1
    refine wp_kvmmap_next (v := 0x10001) (n := 1) e1 rfl rfl (by decide) (by decide) (by decide)
      ?_ u1 (by omega) ?_
    · intro w _ _
      simp only [mapRange]
      rw [if_neg (by omega)]
    intro t2 o2 e2 u2
    refine wp_kvmmap_next (v := 0xc000) (n := 0x400) e2 rfl rfl (by decide) (by decide) (by decide)
      ?_ u2 (by omega) ?_
    · intro w _ _
      simp only [mapRange]
      rw [if_neg (by omega), if_neg (by omega)]
    intro t3 o3 e3 u3
    refine wp_kvmmap_next (v := 0x80000) (n := te - 0x80000) e3 rfl ?_ (by decide) (by omega)
      (by omega) ?_ u3 (by omega) ?_
    · rw [hte]
      simp only [kernbase, pgsize]
      omega
    · intro w _ _
      simp only [mapRange]
      rw [if_neg (by omega), if_neg (by omega), if_neg (by omega)]
    intro t4 o4 e4 u4
    refine wp_kvmmap_next (v := te) (n := 0x88000 - te) e4 hte ?_ (by decide) (by omega)
      (by omega) ?_ u4 (by omega) ?_
    · rw [hte]
      simp only [kernbase, pgsize, phystop]
      omega
    · intro w _ _
      simp only [mapRange]
      rw [if_neg (by omega), if_neg (by omega), if_neg (by omega), if_neg (by omega)]
    intro t5 o5 e5 u5
    refine wp_kvmmap_next (v := 2 ^ 26 - 1) (n := 1) e5 (by decide) rfl (by decide) (by decide)
      (by decide) ?_ u5 (by omega) ?_
    · intro w _ _
      simp only [mapRange]
      rw [if_neg (by omega), if_neg (by omega), if_neg (by omega), if_neg (by omega),
        if_neg (by omega)]
    intro t6 o6 e6 u6
    have hstart : Stacks r (nproc - nproc) t6 o6 := by
      refine ⟨e6.inv, ?_, ?_, ?_⟩
      · intro r' u
        by_cases hr' : r' = r
        · subst hr'
          rw [e6.root]
          simp [eq_comm]
        · rw [e6.keeps.root r' u (by simpa using hr')]
          rcases bootOwner_cases r' with h0 | h0 <;> simp [h0, hr']
      · intro p τ
        rw [e6.keeps.held p τ (Set.notMem_empty _)]
        rcases bootOwner_cases p with h0 | h0 <;> simp [h0]
      · intro i _ hi
        simp only [nproc] at hi
        rw [e6.leaf _ (by simp only [kstackVpn]; omega)]
        simp only [mapRange, kstackVpn]
        rw [if_neg (by omega), if_neg (by omega), if_neg (by omega), if_neg (by omega),
          if_neg (by omega), if_neg (by omega)]
    apply wp_mono (wp_procMapstacks nproc le_rfl hstart (by simp only [nproc]; omega))
    rintro _ t7 ⟨u7, own, h7⟩
    rw [wp_pure]
    simp only [nproc] at u7
    exact ⟨by omega, own, h7⟩

end kernel
end Xv6
