import Xv6.Vm.Access

/-! Page tables as partial maps. What `walk` finds is followed over all tables in memory, with no
more assumed than that the tables are well formed and that the allocator agrees with them. -/
namespace Xv6
open Bytes Program

/-- The entry that `walk` without allocation finds for an address, 0 where there is none. -/
def lookup (pagetable va : ℕ) : Kernel Pte := do
  match ← walk pagetable va false with
  | none => return 0#64
  | some (pg, i) => readPte pg i

def found (s : Machine) (pagetable va : ℕ) : Pte :=
  match lookup pagetable va s with
  | .ok (pte, _) => pte
  | .error _ => 0#64

/-- The tables in memory are well formed, and the allocator agrees with them. -/
structure Tables [Image] (s : Machine) (own : ℕ → Owner) : Prop where
  tree : Tree (entry s.mem) own
  alloc : Alloc own s.freelist s.count

section tables
variable [Image] {s t t' : Machine} {own own' own'' : ℕ → Owner} {E : Panic → Prop} {r : ℕ}
  {u : Bool}

theorem MemInv.tables (h : MemInv s own) : Tables s own := ⟨h.tree, h.alloc⟩

theorem Tables.found_eq (h : Tables s own) (hr : own r = .root u) {a : ℕ} (ha : a < maxva) :
    found s r a = leafAt (entry s.mem) r (a / pgsize) := by
  have hlook : wp (lookup r a) NoPanic s fun pte t =>
      pte = leafAt (entry s.mem) r (a / pgsize) ∧ t = s := by
    unfold lookup
    rw [wp_bind]
    apply wp_walk_find h.tree hr ha
    · intro hno
      rw [wp_pure]
      exact ⟨(h.tree.leafAt_none hr hno).symm, rfl⟩
    · intro q hq
      rw [wp_readPte]
      exact ⟨(h.tree.leafAt_low hq).symm, rfl⟩
  obtain ⟨pte, t, hrun, hpte, -⟩ := exists_of_wp (fun _ => id) hlook
  simp only [found, hrun, hpte]

/-- The table `r` holds the entries `L` now, and the other tables what they held. -/
structure Rewrites (r : ℕ) (L : ℕ → Pte) (s : Machine) (own : ℕ → Owner) (t : Machine)
    (own' : ℕ → Owner) : Prop where
  tables : Tables t own'
  root : ∀ r' u, own r' = .root u → own' r' = .root u
  self : ∀ v, v < 2 ^ 27 → leafAt (entry t.mem) r v = L v
  others : ∀ r' u v, own r' = .root u → r' ≠ r →
    leafAt (entry t.mem) r' v = leafAt (entry s.mem) r' v

namespace Rewrites
variable {L L' : ℕ → Pte}

theorem refl (h : Tables s own) (r : ℕ) : Rewrites r (leafAt (entry s.mem) r) s own s own :=
  ⟨h, fun _ _ hr => hr, fun _ _ => rfl, fun _ _ _ _ _ => rfl⟩

theorem trans (h : Rewrites r L s own t own') (h' : Rewrites r L' t own' t' own'') :
    Rewrites r L' s own t' own'' where
  tables := h'.tables
  root := fun r' u hr => h'.root r' u (h.root r' u hr)
  self := h'.self
  others := by
    intro r' u v hr hne
    rw [h'.others r' u v (h.root r' u hr) hne, h.others r' u v hr hne]

theorem congr (h : Rewrites r L s own t own') (hL : ∀ v, v < 2 ^ 27 → L v = L' v) :
    Rewrites r L' s own t own' :=
  ⟨h.tables, h.root, fun v hv => (h.self v hv).trans (hL v hv), h.others⟩

/-- A change of memory that no table notices. -/
theorem ofLeaf (h : Tables t own') (hroot : ∀ r' u, own r' = .root u → own' r' = .root u)
    (hr : own r = .root u) (hleaf : ∀ r' u v, own r' = .root u →
      leafAt (entry t.mem) r' v = leafAt (entry s.mem) r' v) :
    Rewrites r (leafAt (entry s.mem) r) s own t own' :=
  ⟨h, hroot, fun v _ => hleaf r u v hr, fun r' u v hr' _ => hleaf r' u v hr'⟩

end Rewrites

/-- One entry of a low table page is set. -/
theorem Tables.setLeaf (h : Tables s own) (hr : own r = .root u) {q v : ℕ} {pte : Pte}
    (hq : own q = .low r (ix2 v) (ix1 v)) (hv : v < 2 ^ 27)
    (hpte : pte = 0#64 ∨ (valid pte = true ∧ leaf pte = true)) :
    Rewrites r (Function.update (leafAt (entry s.mem) r) v pte) s own
      (s.setEntry q (ix0 v) pte) own := by
  have hleaf : ∀ {r' w : ℕ} {u' : Bool}, own r' = .root u' → (r' ≠ r ∨ w < 2 ^ 27) →
      leafAt (Entries.set (entry s.mem) q (ix0 v) pte) r' w =
        if r' = r ∧ w = v then pte else leafAt (entry s.mem) r' w :=
    fun hr' hw => h.tree.leafAt_setLeaf hq hv hpte hr' hw
  constructor
  · exact ⟨by rw [entry_setEntry]; exact h.tree.setLeaf hq hpte, h.alloc⟩
  · exact fun _ _ hr' => hr'
  · intro w hw
    rw [entry_setEntry, hleaf hr (Or.inr hw), Function.update_apply]
    simp only [true_and]
  · intro r' u' w hr' hne
    rw [entry_setEntry, hleaf hr' (Or.inl hne), if_neg fun hx => hne hx.1]

/-- A zeroed page fresh from the allocator. -/
theorem Tables.freshZero (h : Tables s own) {q : ℕ} (hq : own q = .free)
    (hl : s.freelist = q :: s.freelist.tail) :
    let t := (s.allocated q).setPage q fun _ => 0
    Tables t (Function.update own q (.held .temp)) ∧
      ∀ r u v, own r = .root u → leafAt (entry t.mem) r v = leafAt (entry s.mem) r v := by
  intro t
  have halloc : Alloc (Function.update own q (.held .temp)) t.freelist t.count := by
    have hcons := h.alloc
    rw [hl] at hcons
    exact hcons.alloc .temp
  obtain ⟨htree, -, hleaf⟩ := h.tree.plainPage (t := t) (p := q) (o := .held .temp)
    (by simp [hq, Owner.isTable]) rfl (fun p hp => (halloc.managed p).mp hp)
    (fun p hp => by rw [setPage_mem_ne _ _ hp, allocated_mem_ne s hp])
  exact ⟨⟨htree, halloc⟩, hleaf⟩

/-- A page is linked to a table: no entry that a walk finds changes. -/
theorem Tables.linked (h : Tables s own) {m j q : ℕ} {o : Owner} (hr : own r = .root u)
    (hm : (own m).isTable = true) (hq : own q = .free) (hl : s.freelist = q :: s.freelist.tail)
    (ho : o.single = true)
    (hlink : ∀ t : Machine, Tree (entry t.mem) (Function.update own q (.held .temp)) →
      entry t.mem m = entry s.mem m → (∀ k, entry t.mem q k = 0#64) →
      Tree (Entries.set (entry t.mem) m j (link q)) (Function.update own q o) ∧
        ∀ r u v, own r = .root u →
          leafAt (Entries.set (entry t.mem) m j (link q)) r v = leafAt (entry t.mem) r v) :
    Rewrites r (leafAt (entry s.mem) r) s own (s.linked m j q) (Function.update own q o) := by
  obtain ⟨h1, l1⟩ := h.freshZero hq hl
  have hmq : m ≠ q := by
    rintro rfl
    simp [hq, Owner.isTable] at hm
  obtain ⟨htree, hleaf⟩ := hlink _ h1.tree (by
    funext k
    simp [entry, setPage_mem_ne _ _ hmq, allocated_mem_ne s hmq]) (entry_setPage_zero _ _)
  have halloc := h1.alloc.retype (p := q) (o := o) (by simp [Owner.single]) (Or.inl ho)
  rw [Function.update_idem] at halloc
  refine Rewrites.ofLeaf ⟨by rw [Machine.linked, entry_setEntry]; exact htree, halloc⟩ ?_ hr ?_
  · intro r' u' hr'
    rw [Function.update_of_ne (by rintro rfl; simp [hq] at hr'), hr']
  · intro r' u' v hr'
    rw [Machine.linked, entry_setEntry, hleaf r' u' v hr', l1 r' u' v hr']

/-- Well-formed tables, with every translation as it was in `s`. -/
theorem Tables.linking (s : Machine) (own : ℕ → Owner) (hroot : own r = .root u) :
    Linking r (Rewrites r (leafAt (entry s.mem) r) s own) where
  tree := fun _ _ h => h.tables.tree
  alloc := fun _ _ h => h.tables.alloc
  mid := by
    intro t own' q i u' h hr hi h0 hq hl
    apply h.trans
    have hrq : r ≠ q := by
      rintro rfl
      simp [hr] at hq
    refine (h.tables.linked (o := .mid r i) hr (by simp [hr, Owner.isTable]) hq hl rfl ?_).congr
      h.self
    intro t' htree hm hz
    have hr' : Function.update own' q (.held .temp) r = .root u' := by
      rw [Function.update_of_ne hrq, hr]
    have hmid := htree.linkMid hr' hi (by rw [hm, h0]) (Function.update_self _ _ _) fun k _ => hz k
    rw [Function.update_idem] at hmid
    refine ⟨hmid, fun r'' u'' v hr'' => ?_⟩
    exact htree.leafAt_linkMid hr' hi (by rw [hm, h0]) (Function.update_self _ _ _)
      (fun k _ => hz k) (by rwa [Function.update_of_ne (by rintro rfl; simp [hq] at hr'')]) v
  low := by
    intro t own' q m i j h hm hj h0 hq hl
    apply h.trans
    have hmq : m ≠ q := by
      rintro rfl
      simp [hm] at hq
    refine (h.tables.linked (o := .low r i j) (h.root r u hroot) (by simp [hm, Owner.isTable]) hq
      hl rfl ?_).congr h.self
    intro t' htree hment hz
    have hm' : Function.update own' q (.held .temp) m = .mid r i := by
      rw [Function.update_of_ne hmq, hm]
    have hlow := htree.linkLow hm' hj (by rw [hment, h0]) (Function.update_self _ _ _)
      fun k _ => hz k
    rw [Function.update_idem] at hlow
    refine ⟨hlow, fun r'' u'' v hr'' => ?_⟩
    exact htree.leafAt_linkLow hm' hj (by rw [hment, h0]) (Function.update_self _ _ _)
      (fun k _ => hz k) (by rwa [Function.update_of_ne (by rintro rfl; simp [hq] at hr'')]) v

/-- `walk` with allocation changes no translation. -/
theorem Tables.wp_walk (h : Tables s own) (hr : own r = .root u) {va : ℕ} (hva : va < maxva)
    {Q : Option (ℕ × ℕ) → Machine → Prop}
    (hnone : ∀ t own', Rewrites r (leafAt (entry s.mem) r) s own t own' → Q none t)
    (hsome : ∀ t own' q, Rewrites r (leafAt (entry s.mem) r) s own t own' →
      own' q = .low r (ix2 (va / pgsize)) (ix1 (va / pgsize)) →
      Q (some (q, ix0 (va / pgsize))) t) : wp (walk r va true) E s Q := by
  apply (Tables.linking s own hr).wp_walk (Rewrites.refl h r) hr hva
  · intro t own' ht _
    exact hnone t own' ht
  · intro t own' q ht _ hq _ _
    exact hsome t own' q ht hq

variable {perm : Pte}

omit [Image] in
theorem mapRange_zero {L : ℕ → Pte} {v pa : ℕ} : mapRange L v 0 pa perm = L := by
  funext w
  rw [mapRange, if_neg (by omega)]

omit [Image] in
theorem mapRange_one {L : ℕ → Pte} {v pa : ℕ} :
    mapRange L v 1 pa perm = Function.update L v (mapPte pa perm) := by
  funext w
  by_cases hw : w = v
  · subst hw
    simp [mapRange]
  · rw [mapRange, if_neg (by omega), Function.update_of_ne hw]

/-- One turn of the loop of `mappages`. -/
theorem Tables.wp_mappagesTurn {fuel v pa last : ℕ} (h : Tables s own) (hr : own r = .root u)
    (hperm : leaf perm = true) (hv : v < 2 ^ 26) (hempty : leafAt (entry s.mem) r v = 0#64)
    {Q : Bool → Machine → Prop}
    (hfail : ∀ t own', Rewrites r (leafAt (entry s.mem) r) s own t own' → Q false t)
    (hnext : ∀ t own', Rewrites r (mapRange (leafAt (entry s.mem) r) v 1 pa perm) s own t own' →
      wp (if v * pgsize = last then pure true else
        mappagesLoop r last perm fuel (v * pgsize + pgsize) (pa + pgsize)) E t Q) :
    wp (mappagesLoop r last perm (fuel + 1) (v * pgsize) pa) E s Q := by
  apply (Tables.linking s own hr).wp_mappagesTurn (Rewrites.refl h r) hr hv
  · intro t own' ht
    rw [ht.self v (by omega), hempty]
  · intro t own' ht _
    exact hfail t own' ht
  · intro t own' q ht _ hq _ _
    have hpte : valid (mapPte pa perm) = true ∧ leaf (mapPte pa perm) = true := mapPte_leaf hperm
    have hset := ht.tables.setLeaf (ht.root r u hr) hq (by omega) (Or.inr hpte)
    apply hnext _ own' ((ht.trans hset).congr ?_)
    intro w hw
    rw [mapRange_one, Function.update_apply, Function.update_apply, ht.self w hw]

/-- The loop of `mappages` maps an initial segment of its pages, and all of them if it
succeeds. -/
theorem Tables.wp_mappagesLoop (n : ℕ) {fuel v pa : ℕ} (h : Tables s own) (hr : own r = .root u)
    (hperm : leaf perm = true) (hv : v + n < 2 ^ 26) (hfuel : n < fuel)
    (hempty : ∀ w, v ≤ w → w ≤ v + n → leafAt (entry s.mem) r w = 0#64) :
    wp (mappagesLoop r ((v + n) * pgsize) perm fuel (v * pgsize) pa) E s fun ok t =>
      ∃ own' k, k ≤ n + 1 ∧ (ok = true ↔ k = n + 1) ∧
        Rewrites r (mapRange (leafAt (entry s.mem) r) v k pa perm) s own t own' := by
  induction n generalizing fuel v pa s own with
  | zero =>
    obtain ⟨fuel, rfl⟩ : ∃ f, fuel = f + 1 := ⟨fuel - 1, by omega⟩
    apply h.wp_mappagesTurn hr hperm (by omega) (hempty v le_rfl le_rfl)
    · intro t own' ht
      exact ⟨own', 0, by omega, by simp, by rwa [mapRange_zero]⟩
    · intro t own' ht
      rw [if_pos (by rw [Nat.add_zero]), wp_pure]
      exact ⟨own', 1, by omega, by simp, ht⟩
  | succ n ih =>
    obtain ⟨fuel, rfl⟩ : ∃ f, fuel = f + 1 := ⟨fuel - 1, by omega⟩
    apply h.wp_mappagesTurn hr hperm (by omega) (hempty v le_rfl (by omega))
    · intro t own' ht
      exact ⟨own', 0, by omega, by simp, by rwa [mapRange_zero]⟩
    · intro t own' ht
      rw [if_neg (by simp only [pgsize]; omega),
        show v * pgsize + pgsize = (v + 1) * pgsize by ring,
        show v + (n + 1) = v + 1 + n by ring]
      have hzero : ∀ w, v + 1 ≤ w → w ≤ v + 1 + n → leafAt (entry t.mem) r w = 0#64 := by
        intro w hlo hhi
        rw [ht.self w (by omega), mapRange, if_neg (by omega)]
        exact hempty w (by omega) (by omega)
      apply wp_mono (ih ht.tables (ht.root r u hr) (by omega) (by omega) hzero)
      rintro ok t' ⟨own'', k, hk, hok, ht'⟩
      refine ⟨own'', k + 1, by omega, by rw [hok]; omega, (ht.trans ht').congr ?_⟩
      intro w hw
      rw [← mapRange_succ (v := v)]
      exact mapRange_congr (ht.self w hw)

/-- `kfree` of a data page: the tables stay as they are, and so do the other data pages. -/
theorem Tables.wp_kfree (h : Tables s own) {p : ℕ} (hp : own p = .data)
    {Q : Unit → Machine → Prop}
    (hok : ∀ t own', Tables t own' →
      (∀ q o, o.isTable = true → (own' q = o ↔ own q = o)) →
      (∀ r u v, own r = .root u → leafAt (entry t.mem) r v = leafAt (entry s.mem) r v) →
      (∀ q, q ≠ p → own q = .data → own' q = .data ∧ t.count (idx q) = s.count (idx q)) →
      (1 < s.count (idx p) → own' p = .data ∧ t.count (idx p) + 1 = s.count (idx p)) → Q () t) :
    wp (kfree p) E s Q := by
  have hpage := (h.alloc.managed p).mp (by simp [hp])
  have hpos := h.alloc.pos p hp
  apply Xv6.wp_kfree hpage hpos
  · intro hone
    have halloc := h.alloc.release (p := p) (by simp [hp]) (by simp [hp])
    obtain ⟨htree, hsame, hleaf⟩ := h.tree.plainPage (t := s.released p) (p := p) (o := .free)
      (by simp [hp, Owner.isTable]) rfl (fun q hq => (halloc.managed q).mp hq)
      (fun q hq => released_mem_ne s hq)
    apply hok _ _ ⟨htree, halloc⟩ hsame hleaf
    · intro q hq hd
      exact ⟨by rw [Function.update_of_ne hq, hd],
        released_count_ne s (h.alloc.idx_ne (by simp [hd]) (by simp [hp]) hq)⟩
    · intro hlt
      omega
  · intro hlt
    apply hok (s.setCount (idx p) (s.count (idx p) - 1)) own
      ⟨h.tree, h.alloc.setData hp (by omega)⟩ (fun _ _ _ => Iff.rfl) (fun _ _ _ _ => rfl)
    · intro q hq hd
      exact ⟨hd, setCount_count_ne s _ (h.alloc.idx_ne (by simp [hd]) (by simp [hp]) hq)⟩
    · intro _
      rw [setCount_count_self]
      exact ⟨hp, by omega⟩

/-- The physical pages that `n` entries from `v` on name. -/
def mappedPages (s : Machine) (r v n : ℕ) : List ℕ :=
  (List.range' v n).map fun w => pte2pa (leafAt (entry s.mem) r w)

/-- The pages of the range are data pages, and each has the references that the range would
drop. -/
def Releasable (s : Machine) (own : ℕ → Owner) (r v n : ℕ) : Prop :=
  ∀ p ∈ mappedPages s r v n, own p = .data ∧ (mappedPages s r v n).count p ≤ s.count (idx p)

omit [Image] in
theorem mappedPages_succ (s : Machine) (r v n : ℕ) :
    mappedPages s r v (n + 1) = pte2pa (leafAt (entry s.mem) r v) :: mappedPages s r (v + 1) n := by
  rw [mappedPages, List.range'_succ, List.map_cons, mappedPages]

omit [Image] in
theorem mappedPages_congr {v n : ℕ} (h : ∀ w, v ≤ w → w < v + n →
      leafAt (entry t.mem) r w = leafAt (entry s.mem) r w) :
    mappedPages t r v n = mappedPages s r v n := by
  apply List.map_congr_left
  intro w hw
  rw [List.mem_range'_1] at hw
  rw [h w hw.1 hw.2]

/-- The entries without those of `n` pages from `v` on. -/
def clearRange (L : ℕ → Pte) (v n : ℕ) : ℕ → Pte := fun w =>
  if v ≤ w ∧ w < v + n then 0#64 else L w

/-- The part of a turn of `uvmunmap` that gives the page back. -/
theorem Tables.wp_unmapPage {v n : ℕ} {doFree : Bool} (h : Tables s own)
    (hfree : doFree = true → Releasable s own r v (n + 1)) {rest : Kernel Unit}
    {Q : Unit → Machine → Prop} (hok : ∀ t own', Tables t own' →
      (∀ q o, o.isTable = true → (own' q = o ↔ own q = o)) →
      (∀ r u v, own r = .root u → leafAt (entry t.mem) r v = leafAt (entry s.mem) r v) →
      (doFree = true → ∀ p ∈ mappedPages s r (v + 1) n,
        own' p = .data ∧ (mappedPages s r (v + 1) n).count p ≤ t.count (idx p)) →
      wp rest E t Q) :
    wp (if doFree = true then do
        kfree (pte2pa (leafAt (entry s.mem) r v))
        rest
      else rest) E s Q := by
  cases doFree with
  | false =>
    rw [if_neg (by simp)]
    exact hok s own h (fun _ _ _ => Iff.rfl) (fun _ _ _ _ => rfl) (by simp)
  | true =>
    have hpages := hfree rfl
    simp only [Releasable, mappedPages_succ] at hpages
    rw [if_pos rfl, wp_bind]
    apply h.wp_kfree (hpages _ List.mem_cons_self).1
    intro t own' ht hsame hleaf hother hself
    apply hok t own' ht hsame hleaf
    intro _ p hp
    obtain ⟨hd, hcount⟩ := hpages p (List.mem_cons_of_mem _ hp)
    rw [List.count_cons] at hcount
    by_cases hne : p = pte2pa (leafAt (entry s.mem) r v)
    · -- the page occurs again in the range, so that it has another reference
      rw [hne] at hp hcount ⊢
      have hpos := List.count_pos_iff.mpr hp
      rw [beq_self_eq_true, if_pos rfl] at hcount
      obtain ⟨hd', hc'⟩ := hself (by omega)
      exact ⟨hd', by omega⟩
    · obtain ⟨hd', hc'⟩ := hother p hne hd
      rw [if_neg (by simpa using Ne.symm hne)] at hcount
      exact ⟨hd', by omega⟩

/-- The loop of `uvmunmap` clears its entries and no other. -/
theorem Tables.wp_uvmunmapLoop (n : ℕ) {v : ℕ} {doFree : Bool} (h : Tables s own)
    (hr : own r = .root u) (hv : v + n ≤ 2 ^ 26)
    (hmapped : ∀ w, v ≤ w → w < v + n → leafAt (entry s.mem) r w ≠ 0#64)
    (hfree : doFree = true → Releasable s own r v n) :
    wp (uvmunmapLoop r doFree n (v * pgsize)) E s fun _ t =>
      ∃ own', Rewrites r (clearRange (leafAt (entry s.mem) r) v n) s own t own' := by
  induction n generalizing v s own with
  | zero =>
    rw [uvmunmapLoop, wp_pure]
    refine ⟨own, (Rewrites.refl h r).congr fun w _ => ?_⟩
    rw [clearRange, if_neg (by omega)]
  | succ n ih =>
    have hnz := hmapped v le_rfl (by omega)
    obtain ⟨hval, hleaf⟩ := (h.tree.leafAt_entry hr v).resolve_left hnz
    rw [uvmunmapLoop, wp_bind]
    apply wp_walk_mapped h.tree hr (by omega) hval
    intro q hq hent
    simp only [wp_bind, wp_readPte, hent]
    rw [if_neg (by simp [hval]), if_neg (fun hx => by simp [leaf_of_pteFlags_eq_pteV hx] at hleaf)]
    apply h.wp_unmapPage hfree
    intro t own' ht hsame hkeep hrest
    have hr' : own' r = .root u := (hsame r _ rfl).mpr hr
    have hclear := ht.setLeaf hr' ((hsame q _ rfl).mpr hq) (by omega) (Or.inl rfl)
    have hnow : ∀ w, w ≠ v → w < 2 ^ 27 →
        leafAt (entry (t.setEntry q (ix0 v) 0#64).mem) r w = leafAt (entry s.mem) r w := by
      intro w hne hw
      rw [hclear.self w hw, Function.update_of_ne hne, hkeep r u w hr]
    rw [wp_bind, wp_writePte, show v * pgsize + pgsize = (v + 1) * pgsize by ring]
    apply wp_mono (ih hclear.tables (hclear.root r u hr') (by omega) ?_ ?_)
    · rintro _ t' ⟨own'', ht'⟩
      have hfirst := (Rewrites.ofLeaf ht (fun r' u' hr'' => (hsame r' _ rfl).mpr hr'') hr hkeep)
      refine ⟨own'', ((hfirst.trans hclear).trans ht').congr ?_⟩
      intro w hw
      unfold clearRange
      by_cases hwv : w = v
      · subst hwv
        rw [if_neg (by omega), if_pos (by omega), hclear.self w hw, Function.update_self]
      · by_cases hin : v + 1 ≤ w ∧ w < v + 1 + n
        · rw [if_pos hin, if_pos (by omega)]
        · rw [if_neg hin, if_neg (by omega), hnow w hwv hw]
    · intro w hlo hhi
      rw [hnow w (by omega) (by omega)]
      exact hmapped w (by omega) (by omega)
    · intro hdo
      rw [Releasable, mappedPages_congr fun w hlo hhi => hnow w (by omega) (by omega)]
      exact hrest hdo

/-- The kernel's invariant counts every entry of a user table, so that the pages of any mapped
range can be given back. -/
theorem MemInv.releasable (h : MemInv s own) (hr : own r = .root true) {v n : ℕ}
    (hv : v + n ≤ userPages)
    (hmapped : ∀ w, v ≤ w → w < v + n → valid (leafAt (entry s.mem) r w) = true) :
    Releasable s own r v n := by
  have href : ∀ w, v ≤ w → w < v + n →
      refs (entry s.mem) own (r, w) = some (pte2pa (leafAt (entry s.mem) r w)) :=
    fun w hlo hhi => refs_eq_some.mpr ⟨hr, by omega, hmapped w hlo hhi, rfl⟩
  intro p hp
  obtain ⟨w, hw, rfl⟩ := List.mem_map.mp hp
  rw [List.mem_range'_1] at hw
  have hdata := h.target (href w hw.1 hw.2)
  refine ⟨hdata, ?_⟩
  have hexact := h.exact (pte2pa (leafAt (entry s.mem) r w))
  rw [if_pos hdata] at hexact
  rw [← hexact, mappedPages, List.count_eq_countP, List.countP_map, List.countP_eq_length_filter]
  -- the entries of the range that name the page are among all that do
  have hnodup : ((List.range' v n).filter ((fun p => p == pte2pa (leafAt (entry s.mem) r w)) ∘
      fun w => pte2pa (leafAt (entry s.mem) r w))).Nodup := (List.nodup_range' 1).filter _
  rw [← List.toFinset_card_of_nodup hnodup, ← Set.ncard_coe_finset,
    ← Set.ncard_image_of_injective _ (Prod.mk_right_injective r)]
  apply Set.ncard_le_ncard _ (h.tree.finiteRefs.referrers _)
  rintro k ⟨w', hw', rfl⟩
  simp only [List.coe_toFinset, List.mem_filter, List.mem_range'_1, Function.comp_apply,
    beq_iff_eq, Set.mem_ofPred_eq] at hw'
  exact (href w' hw'.1.1 hw'.1.2).trans (congrArg some hw'.2)

/-- The tables are well formed after the change, `r` translates as `f` says and every other
table as before. -/
def Remapped (s : Machine) (own : ℕ → Owner) (r : ℕ) (f : ℕ → Pte) (t : Machine) : Prop :=
  ∃ own', Tables t own' ∧ (∀ r' u, own r' = .root u → own' r' = .root u) ∧
    (∀ a, a < maxva → found t r a = f a) ∧
    ∀ r' u a, own r' = .root u → r' ≠ r → a < maxva → found t r' a = found s r' a

omit [Image] in
theorem vpn_lt {a : ℕ} (ha : a < maxva) : a / pgsize < 2 ^ 26 := by
  simp only [pgsize, maxva] at *
  omega

theorem Rewrites.remapped {L f : ℕ → Pte} (h : Rewrites r L s own t own') (hs : Tables s own)
    (hr : own r = .root u) (hf : ∀ a, a < maxva → L (a / pgsize) = f a) :
    Remapped s own r f t := by
  refine ⟨own', h.tables, h.root, ?_, ?_⟩
  · intro a ha
    have hv := vpn_lt ha
    rw [h.tables.found_eq (h.root r u hr) ha, h.self _ (by omega), hf a ha]
  · intro r' u' a hr' hne ha
    rw [h.tables.found_eq (h.root r' u' hr') ha, hs.found_eq hr' ha, h.others r' u' _ hr' hne]

theorem Tables.unmapped (h : Tables s own) (hr : own r = .root u) {a : ℕ} (ha : a < maxva)
    (hval : valid (found s r a) = false) : leafAt (entry s.mem) r (a / pgsize) = 0#64 := by
  rw [h.found_eq hr ha] at hval
  rcases h.tree.leafAt_entry hr (a / pgsize) with h0 | ⟨hv, -⟩
  · exact h0
  · rw [hv] at hval
    cases hval

theorem Tables.wp_mappages (h : Tables s own) (hr : own r = .root u) {va size pa : ℕ}
    (hva : va % pgsize = 0) (hsize : 0 < size) (hend : va + size ≤ maxva) (hperm : leaf perm = true)
    (hempty : ∀ a, va ≤ a → a < va + size → valid (found s r a) = false) :
    wp (mappages r va size pa perm) E s fun ok t =>
      ∃ k, k ≤ (size - 1) / pgsize + 1 ∧ (ok = true ↔ k = (size - 1) / pgsize + 1) ∧
        Remapped s own r (fun a => if va ≤ a ∧ a < va + k * pgsize then
          mapPte (pa + (pgrounddown a - va)) perm else found s r a) t := by
  obtain ⟨v, rfl⟩ : ∃ v, va = v * pgsize := ⟨va / pgsize, by simp only [pgsize] at *; omega⟩
  have hdown : pgrounddown (v * pgsize) = v * pgsize :=
    pgrounddown_aligned (Nat.mul_mod_left v pgsize)
  have hlast : pgrounddown ((v * pgsize + size - 1) % 2 ^ 64) =
      (v + (size - 1) / pgsize) * pgsize := by
    have hlt : v * pgsize + size - 1 < 2 ^ 64 := by
      simp only [maxva] at hend
      omega
    rw [Nat.mod_eq_of_lt hlt]
    simp only [pgrounddown, pgsize]
    omega
  have hfuel : maxva / pgsize + 1 = 2 ^ 26 + 1 := by decide
  unfold mappages
  rw [if_neg (by omega), hdown, hlast, hfuel]
  have hn : v + (size - 1) / pgsize < 2 ^ 26 := by
    simp only [pgsize, maxva] at *
    omega
  have hzero : ∀ w, v ≤ w → w ≤ v + (size - 1) / pgsize → leafAt (entry s.mem) r w = 0#64 := by
    intro w hlo hhi
    have hin : w * pgsize < v * pgsize + size := by
      simp only [pgsize] at *
      omega
    have hfree := h.unmapped hr (hin.trans_le hend) (hempty _ (Nat.mul_le_mul_right _ hlo) hin)
    rwa [Nat.mul_div_cancel w (by decide)] at hfree
  apply wp_mono (h.wp_mappagesLoop _ hr hperm hn (by omega) hzero)
  rintro ok t ⟨own', k, hk, hok, ht⟩
  refine ⟨k, hk, hok, ht.remapped h hr ?_⟩
  intro a ha
  have hin : (v ≤ a / pgsize ∧ a / pgsize < v + k) ↔
      v * pgsize ≤ a ∧ a < v * pgsize + k * pgsize := by
    simp only [pgsize]
    omega
  rw [mapRange, h.found_eq hr ha]
  simp only [hin, pgrounddown, Nat.sub_mul]

theorem Tables.wp_uvmunmap (h : Tables s own) (hr : own r = .root u) {va n : ℕ} {doFree : Bool}
    (hva : va % pgsize = 0) (hend : va + n * pgsize ≤ maxva)
    (hmapped : ∀ a, va ≤ a → a < va + n * pgsize → valid (found s r a) = true)
    (hfree : doFree = true → Releasable s own r (va / pgsize) n) :
    wp (uvmunmap r va n doFree) E s fun _ t =>
      Remapped s own r (fun a => if va ≤ a ∧ a < va + n * pgsize then 0#64 else found s r a) t := by
  obtain ⟨v, rfl⟩ : ∃ v, va = v * pgsize := ⟨va / pgsize, by simp only [pgsize] at *; omega⟩
  have hturns : ((v * pgsize + n * pgsize) % 2 ^ 64 - v * pgsize) / pgsize = n := by
    simp only [pgsize, maxva] at *
    omega
  have hv : v + n ≤ 2 ^ 26 := by
    simp only [pgsize, maxva] at *
    omega
  rw [Nat.mul_div_cancel v (by decide)] at hfree
  unfold uvmunmap
  rw [if_neg (by omega), hturns]
  apply wp_mono (h.wp_uvmunmapLoop n hr hv ?_ hfree)
  · rintro _ t ⟨own', ht⟩
    apply ht.remapped h hr
    intro a ha
    have hin : (v ≤ a / pgsize ∧ a / pgsize < v + n) ↔
        v * pgsize ≤ a ∧ a < v * pgsize + n * pgsize := by
      simp only [pgsize]
      omega
    rw [clearRange, h.found_eq hr ha]
    simp only [hin]
  · intro w hlo hhi h0
    have hin : w * pgsize < v * pgsize + n * pgsize := by
      simp only [pgsize]
      omega
    have hval := hmapped _ (Nat.mul_le_mul_right _ hlo) hin
    rw [h.found_eq hr (hin.trans_le hend), Nat.mul_div_cancel w (by decide), h0] at hval
    cases hval

/-- Two pages with one slot are one page of one table. -/
theorem Tables.slot_unique (h : Tables s own) (hr : own r = .root u) {r' a b : ℕ} {u' : Bool}
    (hr' : own r' = .root u') {slot : ℕ × ℕ} (ha : a < maxva) (hb : b < maxva)
    (hsa : walk r a false s = .ok (some slot, s)) (hsb : walk r' b false s = .ok (some slot, s)) :
    r = r' ∧ a / pgsize = b / pgsize := by
  have hslot : ∀ {r u a}, own r = .root u → a < maxva → walk r a false s = .ok (some slot, s) →
      own slot.1 = .low r (ix2 (a / pgsize)) (ix1 (a / pgsize)) ∧ slot.2 = ix0 (a / pgsize) := by
    intro r u a hr ha hrun
    have hfind : wp (walk r a false) NoPanic s fun res _ => ∀ x, res = some x →
        own x.1 = .low r (ix2 (a / pgsize)) (ix1 (a / pgsize)) ∧ x.2 = ix0 (a / pgsize) := by
      apply wp_walk_find h.tree hr ha
      · intro _ x hx
        cases hx
      · rintro q hq _ ⟨⟩
        exact ⟨hq, rfl⟩
    exact (wp_ok hrun).mp hfind slot rfl
  obtain ⟨hqa, hia⟩ := hslot hr ha hsa
  obtain ⟨hqb, hib⟩ := hslot hr' hb hsb
  obtain ⟨hrr, h2, h1⟩ := Owner.low.inj (hqa.symm.trans hqb)
  have hva := vpn_lt ha
  have hvb := vpn_lt hb
  exact ⟨hrr, vpn_eq_of_ix (by omega) (by omega) h2 h1 (hia.symm.trans hib)⟩

omit [Image] in
theorem pteFlags_or {pa : ℕ} {fl : Pte} (hf : FlagBits fl) : pteFlags (pa2pte pa ||| fl) = fl := by
  apply BitVec.eq_of_getLsbD_eq
  intro k _
  rw [getLsbD_pteFlags]
  by_cases hk : k < 10
  · rw [getLsbD_pa2pte_or pa fl hk]
    simp [hk]
  · simp [hk, hf k (by omega)]

omit [Image] in
theorem pa2pte_mod (pa : ℕ) : pa2pte (pa % 2 ^ 64) = pa2pte pa := by
  have hmod : BitVec.ofNat 64 (pa % 2 ^ 64) = BitVec.ofNat 64 pa := by
    apply BitVec.eq_of_toNat_eq
    simp
  rw [pa2pte, pa2pte, hmod]

omit [Image] in
/-- What an entry made by `mappages` holds, with addresses that wrap as `uint64`. -/
theorem mapPte_decode {pa : ℕ} (hpa : pa % pgsize = 0) (hperm : FlagBits perm) :
    pte2pa (mapPte pa perm) = pa % 2 ^ 64 ∧ pteFlags (mapPte pa perm) = perm ||| pteV := by
  have hflags := hperm.or flagBits_pteV
  rw [mapPte, BitVec.or_assoc, ← pa2pte_mod]
  exact ⟨pte2pa_or (by simp only [pgsize] at *; omega) (Nat.mod_lt _ (by decide)) hflags,
    pteFlags_or hflags⟩

/-- Page tables behave as partial maps from pages to entries. -/
theorem page_tables_are_partial_maps (h : Tables s own) (hr : own r = .root u) :
    (∀ va size pa perm, va % pgsize = 0 → pa % pgsize = 0 → 0 < size → va + size ≤ maxva →
      leaf perm = true → (∀ a, va ≤ a → a < va + size → valid (found s r a) = false) →
      wp (mappages r va size pa perm) NoPanic s fun ok t =>
        ∃ k, k ≤ (size - 1) / pgsize + 1 ∧ (ok = true ↔ k = (size - 1) / pgsize + 1) ∧
          Remapped s own r (fun a => if va ≤ a ∧ a < va + k * pgsize then
            mapPte (pa + (pgrounddown a - va)) perm else found s r a) t) ∧
    (∀ pa perm, pa % pgsize = 0 → FlagBits perm →
      pte2pa (mapPte pa perm) = pa % 2 ^ 64 ∧ pteFlags (mapPte pa perm) = perm ||| pteV) ∧
    (∀ va n doFree, va % pgsize = 0 → va + n * pgsize ≤ maxva →
      (∀ a, va ≤ a → a < va + n * pgsize → valid (found s r a) = true) →
      (doFree = true → Releasable s own r (va / pgsize) n) →
      wp (uvmunmap r va n doFree) NoPanic s fun _ t =>
        Remapped s own r (fun a => if va ≤ a ∧ a < va + n * pgsize then 0#64 else found s r a) t) ∧
    (MemInv s own → u = true → ∀ v n, v + n ≤ userPages →
      (∀ w, v ≤ w → w < v + n → valid (leafAt (entry s.mem) r w) = true) →
      Releasable s own r v n) ∧
    (∀ va, va < maxva →
      wp (walk r va true) NoPanic s fun _ t => Remapped s own r (found s r) t) ∧
    (∀ r' u' a b slot, own r' = .root u' → a < maxva → b < maxva →
      walk r a false s = .ok (some slot, s) → walk r' b false s = .ok (some slot, s) →
      r = r' ∧ a / pgsize = b / pgsize) ∧
    ∀ pa fl, pa % pgsize = 0 → pa < 2 ^ 56 → FlagBits fl →
      pte2pa (pa2pte pa ||| fl) = pa ∧ pteFlags (pa2pte pa ||| fl) = fl := by
  refine ⟨?_, ?_, ?_, ?_, ?_, ?_, ?_⟩
  · intro va size pa perm hva _ hsize hend hperm hempty
    exact h.wp_mappages hr hva hsize hend hperm hempty
  · intro pa perm hpa hperm
    exact mapPte_decode hpa hperm
  · intro va n doFree hva hend hmapped hfree
    exact h.wp_uvmunmap hr hva hend hmapped hfree
  · rintro hinv rfl v n hv hmapped
    exact hinv.releasable hr hv hmapped
  · intro va hva
    have hsame : ∀ t own', Rewrites r (leafAt (entry s.mem) r) s own t own' →
        Remapped s own r (found s r) t := by
      intro t own' ht
      exact ht.remapped h hr fun a ha => (h.found_eq hr ha).symm
    apply h.wp_walk hr hva
    · exact hsame
    · intro t own' _ ht _
      exact hsame t own' ht
  · intro r' u' a b slot hr' ha hb hsa hsb
    exact h.slot_unique hr hr' ha hb hsa hsb
  · intro pa fl hpa hlt hfl
    exact ⟨pte2pa_or hpa (by omega) hfl, pteFlags_or hfl⟩

end tables

/-- The table of the first process after booting maps its second page, or runs out of memory. -/
theorem partial_map_booted : letI := smallImage
    ∃ (s : Machine) (own : ℕ → Owner) (r : ℕ), Tables s own ∧ own r = .root true ∧
      wp (mappages r pgsize 1 kernbase pteR) NoPanic s fun ok t =>
        ∃ k, k ≤ (1 - 1) / pgsize + 1 ∧ (ok = true ↔ k = (1 - 1) / pgsize + 1) ∧
          Remapped s own r (fun a => if pgsize ≤ a ∧ a < pgsize + k * pgsize then
            mapPte (kernbase + (pgrounddown a - pgsize)) pteR else found s r a) t := by
  let image := smallImage
  obtain ⟨s, hs, habs, hk, -⟩ := exists_booted
  obtain ⟨own, hinv⟩ := hs.1
  have hr : own (s.proc 0).pagetable = .root true := hinv.root_table (k := .main 0) hk
  have hsz : (s.proc 0).sz = pgsize := by
    have hproc : (s.abs.proc 0).sz = pgsize := by
      rw [habs]
      rfl
    exact hproc
  have hmaps : MapsBelow s.mach (s.proc 0).pagetable (npages (s.proc 0).sz) :=
    (hinv.space (.main 0) hk).2.maps
  have hone : view s.mach (s.proc 0).pagetable 1 = none := by
    by_contra hne
    have hlt := (hmaps 1 (by rw [userPages_eq]; decide)).mp hne
    rw [hsz] at hlt
    exact absurd hlt (by decide)
  refine ⟨s.mach, own, (s.proc 0).pagetable, hinv.mem.tables, hr, ?_⟩
  apply (page_tables_are_partial_maps hinv.mem.tables hr).1 _ _ _ _ rfl rfl (by decide)
    (by decide) (by decide)
  intro a hlo hhi
  obtain rfl : a = pgsize := by omega
  rw [hinv.mem.tables.found_eq hr (by decide)]
  exact view_eq_none_iff.mp hone

end Xv6
