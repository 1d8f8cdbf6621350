import Xv6.Vm.Mapping

/-! `walk`: without allocation it reads the tree, and with allocation it links the missing
table pages and changes no entry that a walk finds. -/
namespace Xv6
open Bytes Program RefCount

theorem px_two (va : ℕ) : px 2 va = ix2 (va / pgsize) := by
  simp only [px, ix2, pgsize]
  omega

theorem px_one (va : ℕ) : px 1 va = ix1 (va / pgsize) := by
  simp only [px, ix1, pgsize]
  omega

theorem px_zero (va : ℕ) : px 0 va = ix0 (va / pgsize) := rfl

theorem ix2_lt_of_maxva {va : ℕ} (h : va < maxva) : ix2 (va / pgsize) < 256 := by
  simp only [ix2, pgsize, maxva] at *
  omega

/-- The state after a zeroed page from the head `q` of the free list has been linked to the
entry `j` of the table page `m`. -/
def Machine.linked (s : Machine) (m j q : ℕ) : Machine :=
  ((s.allocated q).setPage q fun _ => 0).setEntry m j (link q)

theorem linked_freelist (s : Machine) (m j q : ℕ) :
    (s.linked m j q).freelist = s.freelist.tail := rfl

section walk
variable [Image] {s : Machine} {own : ℕ → Owner} {E : Panic → Prop} {r va : ℕ} {u : Bool}

variable {Q : Option ℕ → Machine → Prop}

/-- The table below an entry that is set. -/
theorem wp_walkLevel_link {alloc : Bool} {m level q : ℕ} (hq : Page q)
    (hl : entry s.mem m (px level va) = link q) (h : Q (some q) s) :
    wp (walkLevel alloc m level va) E s Q := by
  unfold walkLevel
  simp only [wp_bind, wp_readPte, hl]
  rw [if_pos (by simp), pte2pa_link hq, wp_pure]
  exact h

omit [Image] in
theorem wp_walkLevel_zero {m level : ℕ} (hl : entry s.mem m (px level va) = 0#64) (h : Q none s) :
    wp (walkLevel false m level va) E s Q := by
  unfold walkLevel
  simp only [wp_bind, wp_readPte, hl]
  rw [if_neg (by simp), if_pos (by decide), wp_pure]
  exact h

/-- `walk` finds a low page that is there. -/
theorem wp_walk_low {alloc : Bool} {q : ℕ} (h : Tree (entry s.mem) own) (hva : va < maxva)
    (hq : own q = .low r (ix2 (va / pgsize)) (ix1 (va / pgsize)))
    {Q : Option (ℕ × ℕ) → Machine → Prop} (hsome : Q (some (q, ix0 (va / pgsize))) s) :
    wp (walk r va alloc) E s Q := by
  obtain ⟨-, m, hm, hql⟩ := h.lowLink q r _ _ hq
  obtain ⟨-, -, hml⟩ := h.midLink m r _ hm
  unfold walk
  rw [if_neg (by omega), wp_bind]
  apply wp_walkLevel_link (h.page m (by simp [hm])) (by rw [px_two]; exact hml)
  simp only [wp_bind]
  apply wp_walkLevel_link (h.page q (by simp [hq])) (by rw [px_one]; exact hql)
  rw [wp_pure, px_zero]
  exact hsome

/-- `walk` without allocation finds the low page if there is one. -/
theorem wp_walk_find (h : Tree (entry s.mem) own) (hr : own r = .root u) (hva : va < maxva)
    {Q : Option (ℕ × ℕ) → Machine → Prop}
    (hnone : (∀ q, own q ≠ .low r (ix2 (va / pgsize)) (ix1 (va / pgsize))) → Q none s)
    (hsome : ∀ q, own q = .low r (ix2 (va / pgsize)) (ix1 (va / pgsize)) →
      Q (some (q, ix0 (va / pgsize))) s) : wp (walk r va false) E s Q := by
  by_cases hlow : ∃ q, own q = .low r (ix2 (va / pgsize)) (ix1 (va / pgsize))
  · obtain ⟨q, hq⟩ := hlow
    exact wp_walk_low h hva hq (hsome q hq)
  rw [not_exists] at hlow
  unfold walk
  rw [if_neg (by omega), wp_bind]
  rcases h.rootEntry r u _ hr (Nat.mod_lt _ (by decide) : ix2 (va / pgsize) < 512) with
    h0 | ⟨m, hm, hml⟩
  · exact wp_walkLevel_zero (by rw [px_two]; exact h0) ((wp_pure _).2 (hnone hlow))
  · apply wp_walkLevel_link (h.page m (by simp [hm])) (by rw [px_two]; exact hml)
    simp only [wp_bind]
    rcases h.midEntry m r _ _ hm (Nat.mod_lt _ (by decide) : ix1 (va / pgsize) < 512) with
      h1 | ⟨q, hq, -⟩
    · exact wp_walkLevel_zero (by rw [px_one]; exact h1) ((wp_pure _).2 (hnone hlow))
    · exact absurd hq (hlow q)

/-- `walk` finds the entry of a page that is mapped. -/
theorem wp_walk_mapped (h : Tree (entry s.mem) own) (hr : own r = .root u) {v : ℕ} (hv : v < 2 ^ 26)
    (hval : valid (leafAt (entry s.mem) r v) = true) {Q : Option (ℕ × ℕ) → Machine → Prop}
    (hsome : ∀ q, own q = .low r (ix2 v) (ix1 v) →
      entry s.mem q (ix0 v) = leafAt (entry s.mem) r v → Q (some (q, ix0 v)) s) :
    wp (walk r (v * pgsize) false) E s Q := by
  obtain ⟨hdiv, hva⟩ := page_start hv
  apply wp_walk_find h hr hva
  · intro hno
    rw [hdiv] at hno
    rw [h.leafAt_none hr hno] at hval
    cases hval
  · intro q hq
    rw [hdiv] at hq ⊢
    exact hsome q hq (h.leafAt_low hq).symm

/-- A zeroed page fresh from the allocator. -/
theorem MemInv.freshZero (h : MemInv s own) {p : ℕ} (hl : s.freelist = p :: s.freelist.tail) :
    let t := (s.allocated p).setPage p fun _ => 0
    MemInv t (Function.update own p (.held .temp)) ∧
      Keeps ∅ {p} s own t (Function.update own p (.held .temp)) ∧
      ∀ k, entry t.mem p k = 0#64 := by
  obtain ⟨h1, k1⟩ := h.allocated hl .temp
  obtain ⟨h2, k2⟩ := h1.setHeld (Function.update_self _ _ _) fun _ => 0
  exact ⟨h2, k1.trans k2, fun k => entry_setPage_zero _ _ _⟩

/-- One level of a walk that allocates: the entry is followed, or a zeroed page is linked, or
memory has run out. -/
theorem wp_walkLevel_alloc {m level k : ℕ} {o : Owner} (h : Alloc own s.freelist s.count)
    (hk : px level va = k)
    (hent : entry s.mem m k = 0#64 ∨ ∃ q, own q = o ∧ entry s.mem m k = link q)
    (hpage : ∀ q, own q = o → Page q) (hnone : s.freelist = [] → Q none s)
    (hfound : ∀ q, own q = o → Q (some q) s)
    (hfresh : ∀ q, entry s.mem m k = 0#64 → own q = .free → s.freelist = q :: s.freelist.tail →
      Q (some q) (s.linked m k q)) : wp (walkLevel true m level va) E s Q := by
  subst hk
  rcases hent with h0 | ⟨q, hq, hl⟩
  · unfold walkLevel
    simp only [wp_bind, wp_readPte, h0]
    rw [if_neg (by simp), if_neg (by simp)]
    simp only [wp_bind]
    apply wp_kalloc h
    · intro hnil
      rw [wp_pure]
      exact hnone hnil
    · intro q hq hl
      simp only [wp_bind, wp_memset, wp_writePte, wp_pure]
      exact hfresh q h0 hq hl
  · exact wp_walkLevel_link (hpage q hq) hl (hfound q hq)

/-- A property of memory and its owners under which the tables are well formed, and that
survives the linking of a page to the table `r`. -/
structure Linking (r : ℕ) (P : Machine → (ℕ → Owner) → Prop) : Prop where
  tree : ∀ t own, P t own → Tree (entry t.mem) own
  alloc : ∀ t own, P t own → Alloc own t.freelist t.count
  mid : ∀ t own q i u, P t own → own r = .root u → i < 256 → entry t.mem r i = 0#64 →
    own q = .free → t.freelist = q :: t.freelist.tail →
    P (t.linked r i q) (Function.update own q (.mid r i))
  low : ∀ t own q m i j, P t own → own m = .mid r i → j < 512 → entry t.mem m j = 0#64 →
    own q = .free → t.freelist = q :: t.freelist.tail →
    P (t.linked m j q) (Function.update own q (.low r i j))

namespace Linking
variable {P : Machine → (ℕ → Owner) → Prop} {m : ℕ}

/-- The first level of a walk that allocates. -/
theorem wp_first (hP : Linking r P) (h : P s own) (hr : own r = .root u) (hva : va < maxva)
    (hnone : s.freelist = [] → Q none s)
    (hfound : ∀ q, own q = .mid r (ix2 (va / pgsize)) → Q (some q) s)
    (hfresh : ∀ q, own q = .free → s.freelist = q :: s.freelist.tail →
      P (s.linked r (ix2 (va / pgsize)) q) (Function.update own q (.mid r (ix2 (va / pgsize)))) →
      Q (some q) (s.linked r (ix2 (va / pgsize)) q)) : wp (walkLevel true r 2 va) E s Q := by
  have htree := hP.tree s own h
  apply wp_walkLevel_alloc (hP.alloc s own h) (px_two va)
    (htree.rootEntry r u _ hr (Nat.mod_lt _ (by decide))) (fun q hq => htree.page q (by simp [hq]))
    hnone hfound
  intro q h0 hq hl
  exact hfresh q hq hl (hP.mid s own q _ u h hr (ix2_lt_of_maxva hva) h0 hq hl)

/-- The second level, below an inner table page. -/
theorem wp_second (hP : Linking r P) (h : P s own) (hm : own m = .mid r (ix2 (va / pgsize)))
    (hnone : s.freelist = [] → Q none s)
    (hfound : ∀ q, own q = .low r (ix2 (va / pgsize)) (ix1 (va / pgsize)) → Q (some q) s)
    (hfresh : ∀ q, own q = .free → s.freelist = q :: s.freelist.tail →
      P (s.linked m (ix1 (va / pgsize)) q)
        (Function.update own q (.low r (ix2 (va / pgsize)) (ix1 (va / pgsize)))) →
      Q (some q) (s.linked m (ix1 (va / pgsize)) q)) : wp (walkLevel true m 1 va) E s Q := by
  have htree := hP.tree s own h
  have hj : ix1 (va / pgsize) < 512 := Nat.mod_lt _ (by decide)
  apply wp_walkLevel_alloc (hP.alloc s own h) (px_one va) (htree.midEntry m r _ _ hm hj)
    (fun q hq => htree.page q (by simp [hq])) hnone hfound
  intro q h0 hq hl
  exact hfresh q hq hl (hP.low s own q m _ _ h hm hj h0 hq hl)

/-- `walk` with allocation returns the low page, or fails for want of two pages. Pages that
were in use keep their owners, and a low page that was there is found. -/
theorem wp_walk (hP : Linking r P) (h : P s own) (hr : own r = .root u) (hva : va < maxva)
    {Q : Option (ℕ × ℕ) → Machine → Prop}
    (hnone : ∀ t own', P t own' → s.freelist.length < 2 → Q none t)
    (hsome : ∀ t own' q, P t own' → (∀ p, own p ≠ .free → own' p = own p) →
      own' q = .low r (ix2 (va / pgsize)) (ix1 (va / pgsize)) →
      s.freelist.length ≤ t.freelist.length + 2 →
      (∀ q', own q' = .low r (ix2 (va / pgsize)) (ix1 (va / pgsize)) → t = s) →
      Q (some (q, ix0 (va / pgsize))) t) : wp (walk r va true) E s Q := by
  by_cases hlow : ∃ q, own q = .low r (ix2 (va / pgsize)) (ix1 (va / pgsize))
  · obtain ⟨q, hq⟩ := hlow
    exact wp_walk_low (hP.tree s own h) hva hq
      (hsome s own q h (fun _ _ => rfl) hq (by omega) fun _ _ => rfl)
  rw [not_exists] at hlow
  have hkept : ∀ (f : ℕ → Owner) q o, f q = .free → ∀ p, f p ≠ .free →
      Function.update f q o p = f p := by
    intro f q o hq p hp
    apply Function.update_of_ne
    rintro rfl
    exact hp hq
  -- the second level, from any state that the first may leave
  have hlevel : ∀ Q' : Option ℕ → Machine → Prop, (∀ t, Q none t → Q' none t) →
      (∀ q t, Q (some (q, px 0 va)) t → Q' (some q) t) →
      ∀ t own' m, P t own' → (∀ p, own p ≠ .free → own' p = own p) →
      own' m = .mid r (ix2 (va / pgsize)) → s.freelist.length ≤ t.freelist.length + 1 →
      wp (walkLevel true m 1 va) E t Q' := by
    intro Q' hQnone hQsome t own' m ht hgrow hm hlen
    have hsame : ∀ q t', own q = .low r (ix2 (va / pgsize)) (ix1 (va / pgsize)) → t' = s :=
      fun q _ hq => absurd hq (hlow q)
    apply hP.wp_second ht hm
    · intro hnil
      apply hQnone
      apply hnone t own' ht
      rw [hnil, List.length_nil] at hlen
      omega
    · intro q hq
      apply hQsome
      rw [px_zero]
      exact hsome t own' q ht hgrow hq (by omega) fun q => hsame q t
    · intro q hq hl ht'
      apply hQsome
      rw [px_zero]
      apply hsome _ _ q ht' _ (Function.update_self _ _ _) _ fun q => hsame q _
      · intro p hp
        rw [hkept own' q _ hq p (by rwa [hgrow p hp]), hgrow p hp]
      · rw [linked_freelist]
        rw [hl, List.length_cons] at hlen
        omega
  unfold walk
  rw [if_neg (by omega), wp_bind]
  apply hP.wp_first h hr hva
  · intro hnil
    rw [wp_pure]
    exact hnone s own h (by simp [hnil])
  · intro m hm
    simp only [wp_bind]
    exact hlevel _ (fun _ hQ => wp_pure _ |>.2 hQ) (fun _ _ hQ => wp_pure _ |>.2 hQ) s own m h
      (fun _ _ => rfl) hm (by omega)
  · intro q hq hl ht
    simp only [wp_bind]
    apply hlevel _ (fun _ hQ => wp_pure _ |>.2 hQ) (fun _ _ hQ => wp_pure _ |>.2 hQ) _ _ q ht
      (hkept own q _ hq) (Function.update_self _ _ _)
    rw [linked_freelist, hl, List.length_cons, List.tail_cons]

/-- One turn of the loop of `mappages`, on a page that is not mapped: its entry is written once the
table pages are there. -/
theorem wp_mappagesTurn {fuel v pa last : ℕ} {perm : Pte} (hP : Linking r P) (h : P s own)
    (hr : own r = .root u) (hv : v < 2 ^ 26)
    (hempty : ∀ t own', P t own' → leafAt (entry t.mem) r v = 0#64) {Q : Bool → Machine → Prop}
    (hfail : ∀ t own', P t own' → s.freelist.length < 2 → Q false t)
    (hnext : ∀ t own' q, P t own' → (∀ p, own p ≠ .free → own' p = own p) →
      own' q = .low r (ix2 v) (ix1 v) → s.freelist.length ≤ t.freelist.length + 2 →
      (∀ q', own q' = .low r (ix2 v) (ix1 v) → t = s) →
      wp (if v * pgsize = last then pure true else
        mappagesLoop r last perm fuel (v * pgsize + pgsize) (pa + pgsize)) E
        (t.setEntry q (ix0 v) (pa2pte pa ||| perm ||| pteV)) Q) :
    wp (mappagesLoop r last perm (fuel + 1) (v * pgsize) pa) E s Q := by
  obtain ⟨hdiv, hva⟩ := page_start hv
  rw [mappagesLoop, wp_bind]
  apply hP.wp_walk h hr hva
  · intro t own' ht hlen
    exact (wp_pure _).mpr (hfail t own' ht hlen)
  · intro t own' q ht hkept hq hlen hsame
    rw [hdiv] at hq hsame ⊢
    have hent : entry t.mem q (ix0 v) = 0#64 := by
      rw [← (hP.tree t own' ht).leafAt_low hq, hempty t own' ht]
    simp only [wp_bind, wp_readPte, hent]
    rw [if_neg (by simp)]
    simp only [wp_bind, wp_writePte]
    exact hnext t own' q ht hkept hq hlen hsame

end Linking

omit [Image] in
/-- A page that went from the free list into a table was never a held page that others see. -/
theorem KeepsBut.intoTable {t t' : Machine} {q : ℕ} {o : Owner} (hq : own q = .free)
    (ho : ∀ τ, o ≠ .held τ) (k1 : Keeps ∅ {q} s own t (Function.update own q (.held .temp)))
    (k2 : KeepsBut {r} ∅ {q} t (Function.update own q (.held .temp)) t' (Function.update own q o)) :
    KeepsBut {r} ∅ ∅ s own t' (Function.update own q o) := by
  apply ((k1.weaken (Set.empty_subset {r}) le_rfl le_rfl).trans k2).close
  intro p hp τ
  obtain rfl : p = q := hp
  exact ⟨by simp [hq], by simpa using ho τ⟩

theorem MemInv.linkedMid (h : MemInv s own) {q i : ℕ} (hr : own r = .root u) (hi : i < 256)
    (h0 : entry s.mem r i = 0#64) (hq : own q = .free) (hl : s.freelist = q :: s.freelist.tail) :
    MemInv (s.linked r i q) (Function.update own q (.mid r i)) ∧
      KeepsBut {r} ∅ ∅ s own (s.linked r i q) (Function.update own q (.mid r i)) := by
  obtain ⟨h1, k1, hz⟩ := h.freshZero hl
  have hrq : r ≠ q := by
    rintro rfl
    simp [hr] at hq
  obtain ⟨h2, k2⟩ := h1.linkMid (i := i) (by rw [Function.update_of_ne hrq, hr]) hi
    (by rw [entry_setPage_ne _ _ hrq]; simpa [entry, allocated_mem_ne s hrq] using h0)
    (Function.update_self _ _ _) (fun k _ => hz k)
  rw [Function.update_idem] at h2 k2
  exact ⟨h2, KeepsBut.intoTable hq (by simp) k1 k2⟩

theorem MemInv.linkedLow (h : MemInv s own) {q m i j : ℕ} (hm : own m = .mid r i) (hj : j < 512)
    (h0 : entry s.mem m j = 0#64) (hq : own q = .free) (hl : s.freelist = q :: s.freelist.tail) :
    MemInv (s.linked m j q) (Function.update own q (.low r i j)) ∧
      KeepsBut {r} ∅ ∅ s own (s.linked m j q) (Function.update own q (.low r i j)) := by
  obtain ⟨h1, k1, hz⟩ := h.freshZero hl
  have hmq : m ≠ q := by
    rintro rfl
    simp [hm] at hq
  obtain ⟨h2, k2⟩ := h1.linkLow (m := m) (by rw [Function.update_of_ne hmq, hm]) hj
    (by rw [entry_setPage_ne _ _ hmq]; simpa [entry, allocated_mem_ne s hmq] using h0)
    (Function.update_self _ _ _) (fun k _ => hz k)
  rw [Function.update_idem] at h2 k2
  exact ⟨h2, KeepsBut.intoTable hq (by simp) k1 k2⟩

/-- The invariant of memory, with nothing changed since `s` but the pages of `r`. -/
theorem MemInv.linking (s : Machine) (own : ℕ → Owner) (r : ℕ) :
    Linking r fun t own' => MemInv t own' ∧ KeepsBut {r} ∅ ∅ s own t own' where
  tree := fun _ _ h => h.1.tree
  alloc := fun _ _ h => h.1.alloc
  mid := by
    intro t own' q i u h hr hi h0 hq hl
    obtain ⟨h1, k1⟩ := h.1.linkedMid hr hi h0 hq hl
    exact ⟨h1, h.2.trans k1⟩
  low := by
    intro t own' q m i j h hm hj h0 hq hl
    obtain ⟨h1, k1⟩ := h.1.linkedLow hm hj h0 hq hl
    exact ⟨h1, h.2.trans k1⟩

end walk
end Xv6
