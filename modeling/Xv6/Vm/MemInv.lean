import Mathlib.Order.Interval.Finset.Nat
import Xv6.Lib.RefCount
import Xv6.Vm.Owner

/-! The invariant of physical memory: the allocator agrees with the owner map, and the count of
a data page is the number of user entries that map it. -/
namespace Xv6
open Bytes RefCount

/-- `refindex` on the pages it accepts. -/
@[irreducible] def idx (p : ℕ) : ℕ := (p - kernbase) / pgsize

/-- Exactly one owner holds the page, so that its count is one. -/
def Owner.single : Owner → Bool
  | .held _ => true
  | .root _ => true
  | .mid _ _ => true
  | .low _ _ _ => true
  | _ => false

/-- The allocator's data agree with the owner map. -/
structure Alloc [Image] (own : ℕ → Owner) (freelist : List ℕ) (count : ℕ → ℕ) : Prop where
  managed : ∀ p, own p ≠ .outside ↔ Page p
  nodup : freelist.Nodup
  free : ∀ p, p ∈ freelist ↔ own p = .free
  zero : ∀ p, own p = .free → count (idx p) = 0
  one : ∀ p, (own p).single = true → count (idx p) = 1
  pos : ∀ p, own p = .data → 0 < count (idx p)

variable {p : ℕ}

section alloc
variable [Image] {own : ℕ → Owner} {freelist : List ℕ} {count : ℕ → ℕ}

theorem Page.kernbase_le (hp : Page p) : kernbase ≤ p := by
  have hb := Image.base
  have ht := Image.text
  have hd := Image.data
  exact hb.trans ((Nat.le_add_right _ _).trans (ht.symm.le.trans (hd.trans hp.1)))

theorem idx_inj {p q : ℕ} (hp : Page p) (hq : Page q) (h : idx p = idx q) : p = q := by
  have hp' := hp.kernbase_le
  have hq' := hq.kernbase_le
  have hpa := hp.2.2
  have hqa := hq.2.2
  simp only [idx, pgsize, kernbase] at *
  omega

section
variable (h : Alloc own freelist count)
include h

theorem Alloc.idx_ne {p q : ℕ} (hp : own p ≠ .outside) (hq : own q ≠ .outside)
    (hne : p ≠ q) : idx p ≠ idx q := fun hi =>
  hne (idx_inj ((h.managed p).mp hp) ((h.managed q).mp hq) hi)

/-- The owner and the count of one page change. -/
theorem Alloc.change (hp : own p ≠ .outside) {o : Owner} (ho : o ≠ .outside) {freelist' : List ℕ}
    {n : ℕ} (hnodup : freelist'.Nodup) (hrest : ∀ q, q ≠ p → (q ∈ freelist' ↔ q ∈ freelist))
    (hself : p ∈ freelist' ↔ o = .free) (hzero : o = .free → n = 0) (hone : o.single = true → n = 1)
    (hpos : o = .data → 0 < n) :
    Alloc (Function.update own p o) freelist' (Function.update count (idx p) n) := by
  have hother : ∀ q, q ≠ p → own q ≠ .outside →
      Function.update count (idx p) n (idx q) = count (idx q) := fun q hq hout =>
    Function.update_of_ne (h.idx_ne hout hp hq) _ _
  have hself' : Function.update count (idx p) n (idx p) = n := Function.update_self _ _ _
  constructor
  · intro q
    by_cases hq : q = p
    · subst hq
      simp [ho, ← h.managed, hp]
    · rw [Function.update_of_ne hq, h.managed]
  · exact hnodup
  · intro q
    by_cases hq : q = p
    · subst hq
      rw [Function.update_self, hself]
    · rw [Function.update_of_ne hq, hrest q hq, h.free]
  · intro q hq
    by_cases hqp : q = p
    · subst hqp
      rw [Function.update_self] at hq
      rw [hself', hzero hq]
    · rw [Function.update_of_ne hqp] at hq
      rw [hother q hqp (by simp [hq]), h.zero q hq]
  · intro q hq
    by_cases hqp : q = p
    · subst hqp
      rw [Function.update_self] at hq
      rw [hself', hone hq]
    · rw [Function.update_of_ne hqp] at hq
      have hout : own q ≠ .outside := by
        intro hq'
        simp [hq', Owner.single] at hq
      rw [hother q hqp hout, h.one q hq]
  · intro q hq
    by_cases hqp : q = p
    · subst hqp
      rw [Function.update_self] at hq
      rw [hself']
      exact hpos hq
    · rw [Function.update_of_ne hqp] at hq
      rw [hother q hqp (by simp [hq])]
      exact h.pos q hq

theorem Alloc.retype (hp : (own p).single = true) {o : Owner}
    (ho : o.single = true ∨ o = .data) : Alloc (Function.update own p o) freelist count := by
  have hc := h.one p hp
  have hout : own p ≠ .outside := by
    intro hq
    simp [hq, Owner.single] at hp
  have hfree : own p ≠ .free := by
    intro hq
    simp [hq, Owner.single] at hp
  have hoFree : o ≠ .free := by
    rintro rfl
    simp [Owner.single] at ho
  have hoOut : o ≠ .outside := by
    rintro rfl
    simp [Owner.single] at ho
  have hchange := h.change hout hoOut h.nodup (fun _ _ => Iff.rfl)
    (by rw [h.free]; exact iff_of_false hfree hoFree) (fun hf => absurd hf hoFree)
    (fun _ => rfl) (fun _ => Nat.one_pos)
  rwa [← hc, Function.update_eq_self] at hchange

theorem Alloc.setData {p n : ℕ} (hp : own p = .data)
    (hn : 0 < n) : Alloc own freelist (Function.update count (idx p) n) := by
  have hchange := h.change (p := p) (o := .data) (n := n) (by simp [hp]) (by simp) h.nodup
    (fun _ _ => Iff.rfl) (by rw [h.free, hp]) (by simp) (by simp [Owner.single]) (fun _ => hn)
  rwa [← hp, Function.update_eq_self] at hchange

omit h in
theorem Alloc.alloc (h : Alloc own (p :: freelist) count) (t : Tag) :
    Alloc (Function.update own p (.held t)) freelist (Function.update count (idx p) 1) := by
  have hp : own p = .free := (h.free p).mp (by simp)
  have hnodup := List.nodup_cons.mp h.nodup
  apply h.change (by simp [hp]) (by simp) hnodup.2
  · intro q hq
    simp [hq]
  · simp [hnodup.1]
  · simp
  · simp
  · simp

theorem Alloc.release (hp : own p ≠ .outside) (hfree : own p ≠ .free) :
    Alloc (Function.update own p .free) (p :: freelist) (Function.update count (idx p) 0) := by
  have hmem : p ∉ freelist := fun hmem => hfree ((h.free p).mp hmem)
  apply h.change hp (by simp) (List.nodup_cons.mpr ⟨hmem, h.nodup⟩)
  · intro q hq
    simp [hq]
  · simp
  · simp
  · simp [Owner.single]
  · simp

end

end alloc

/-- The page number of the trapframe. Entries below it count as references. -/
@[irreducible] def userPages : ℕ := trapframeVa / pgsize

theorem userPages_eq : userPages = 2 ^ 26 - 2 := by
  simp [userPages, trapframeVa, trampolineVa, maxva, pgsize]

theorem userPages_lt : userPages < 2 ^ 27 := by
  rw [userPages_eq]
  decide

theorem page_start {v : ℕ} (hv : v < 2 ^ 26) : v * pgsize / pgsize = v ∧ v * pgsize < maxva := by
  refine ⟨Nat.mul_div_cancel v (by decide), ?_⟩
  simp only [pgsize, maxva]
  omega

/-- A place that can refer to a data page: a root and a page number. -/
abbrev Key := ℕ × ℕ

/-- The references that user page tables hold. -/
def refs (e : Entries) (own : ℕ → Owner) (k : Key) : Option ℕ :=
  if own k.1 = .root true ∧ k.2 < userPages ∧ valid (leafAt e k.1 k.2) = true then
    some (pte2pa (leafAt e k.1 k.2))
  else none

theorem refs_eq_some {e : Entries} {own : ℕ → Owner} {r v p : ℕ} :
    refs e own (r, v) = some p ↔ own r = .root true ∧ v < userPages ∧
      valid (leafAt e r v) = true ∧ pte2pa (leafAt e r v) = p := by
  unfold refs
  split <;> grind

/-- Flags of the entries that refer to data pages, against the number of references. -/
structure Sharing (L : Key → Pte) (rf : Key → Option ℕ) : Prop where
  flags : ∀ k p, rf k = some p → readable (L k) = true ∧
    (user (L k) = true → (writable (L k) = true ↔ cow (L k) = false))
  sole : ∀ k p, rf k = some p → user (L k) = true → writable (L k) = true → refCount rf p = 1
  inj : ∀ r v v' p, rf (r, v) = some p → rf (r, v') = some p → v = v'

/-- One entry changes: what the new entry has to satisfy. -/
theorem Sharing.update {L L' : Key → Pte} {rf : Key → Option ℕ} (h : Sharing L rf)
    (hfin : FiniteRefs rf) {k : Key} {x : Option ℕ}
    (hL : ∀ k' p, k' ≠ k → rf k' = some p → L' k' = L k')
    (hflags : ∀ p, x = some p → readable (L' k) = true ∧
      (user (L' k) = true → (writable (L' k) = true ↔ cow (L' k) = false)))
    (hsole : ∀ p, x = some p → user (L' k) = true → writable (L' k) = true →
      refCount (Function.update rf k x) p = 1)
    (hprot : ∀ p, x = some p → rf k ≠ some p → ∀ k', rf k' = some p →
      ¬(user (L k') = true ∧ writable (L k') = true))
    (hinj : ∀ p v, x = some p → v ≠ k.2 → rf (k.1, v) ≠ some p) :
    Sharing L' (Function.update rf k x) := by
  constructor
  · intro k' p hk'
    by_cases hk : k' = k
    · subst hk
      rw [Function.update_self] at hk'
      exact hflags p hk'
    · rw [Function.update_of_ne hk] at hk'
      rw [hL k' p hk hk']
      exact h.flags k' p hk'
  · intro k' p hk' hu hw
    by_cases hk : k' = k
    · subst hk
      rw [Function.update_self] at hk'
      exact hsole p hk' hu hw
    · rw [Function.update_of_ne hk] at hk'
      rw [hL k' p hk hk'] at hu hw
      -- the changed place did not refer to `p`, which has one referrer, and does not now
      have hone := h.sole k' p hk' hu hw
      have hold : rf k ≠ some p := fun hkp => hk (unique_of_refCount_eq_one hone hk' hkp)
      have hnew : x ≠ some p := fun hx => hprot p hx hold k' hk' ⟨hu, hw⟩
      have hcount := refCount_update hfin k x p
      rw [if_neg hold, if_neg hnew] at hcount
      omega
  · intro r v v' p hv hv'
    by_cases hk : (r, v) = k <;> by_cases hk' : (r, v') = k
    · rw [← hk] at hk'
      injection hk' with _ hvv
      exact hvv.symm
    · subst hk
      rw [Function.update_self] at hv
      rw [Function.update_of_ne hk'] at hv'
      by_contra hne
      exact hinj p v' hv (fun hvv => hne hvv.symm) hv'
    · subst hk'
      rw [Function.update_self] at hv'
      rw [Function.update_of_ne hk] at hv
      by_contra hne
      exact hinj p v hv' hne hv
    · rw [Function.update_of_ne hk] at hv
      rw [Function.update_of_ne hk'] at hv'
      exact h.inj r v v' p hv hv'

/-- Physical memory is consistent, with the owner map as a ghost. -/
structure MemInv [Image] (s : Machine) (own : ℕ → Owner) : Prop where
  tree : Tree (entry s.mem) own
  alloc : Alloc own s.freelist s.count
  exact : ∀ p, refCount (refs (entry s.mem) own) p =
    if own p = .data then s.count (idx p) else 0
  sharing : Sharing (fun k => leafAt (entry s.mem) k.1 k.2) (refs (entry s.mem) own)

section inv
variable [Image] {s t : Machine} {own own' : ℕ → Owner}

theorem Tree.finiteRefs {e : Entries} (h : Tree e own) : FiniteRefs (refs e own) := by
  have hfin : (Set.Iio phystop ×ˢ Set.Iio userPages : Set Key).Finite :=
    Set.Finite.prod (Set.finite_Iio _) (Set.finite_Iio _)
  apply hfin.subset
  rintro ⟨r, v⟩ hk
  obtain ⟨p, hp⟩ := Option.ne_none_iff_exists'.mp hk
  obtain ⟨hr, hv, -⟩ := refs_eq_some.mp hp
  exact ⟨(h.page r (by simp [hr])).2.1, hv⟩

theorem MemInv.target (h : MemInv s own) {k : Key}
    (hk : refs (entry s.mem) own k = some p) : own p = .data := by
  have hpos := refCount_pos h.tree.finiteRefs hk
  have hex := h.exact p
  by_contra hne
  rw [if_neg hne] at hex
  omega

theorem MemInv.count_eq (h : MemInv s own) (hp : own p = .data) :
    s.count (idx p) = refCount (refs (entry s.mem) own) p := by
  rw [h.exact p, if_pos hp]

/-- A change that leaves every reference in place. -/
theorem MemInv.of_refs (h : MemInv s own) (htree : Tree (entry t.mem) own')
    (halloc : Alloc own' t.freelist t.count)
    (hdata : ∀ p, own' p = .data ↔ own p = .data)
    (hcount : ∀ p, own p = .data → t.count (idx p) = s.count (idx p))
    (hrefs : refs (entry t.mem) own' = refs (entry s.mem) own)
    (hleaf : ∀ r v p, refs (entry s.mem) own (r, v) = some p →
      leafAt (entry t.mem) r v = leafAt (entry s.mem) r v) : MemInv t own' := by
  constructor
  · exact htree
  · exact halloc
  · intro p
    rw [hrefs, h.exact p]
    by_cases hp : own p = .data
    · rw [if_pos hp, if_pos ((hdata p).mpr hp), hcount p hp]
    · rw [if_neg hp, if_neg (fun hp' => hp ((hdata p).mp hp'))]
  · constructor
    · rintro ⟨r, v⟩ p hk
      rw [hrefs] at hk
      simpa only [hleaf r v p hk] using h.sharing.flags (r, v) p hk
    · rintro ⟨r, v⟩ p hk
      rw [hrefs] at hk ⊢
      simpa only [hleaf r v p hk] using h.sharing.sole (r, v) p hk
    · rw [hrefs]
      exact h.sharing.inj

end inv
end Xv6
