import Xv6.Vm.AllocSpec

/-! What a change of memory leaves alone, and what a process sees of its memory. -/
namespace Xv6
open Bytes RefCount

variable {r v : ℕ}

/-- References are decided by the user roots and their entries. -/
theorem refs_congr {own own' : ℕ → Owner} {e e' : Entries}
    (hroot : own' r = .root true ↔ own r = .root true)
    (hleaf : own r = .root true → v < userPages → leafAt e' r v = leafAt e r v) :
    refs e' own' (r, v) = refs e own (r, v) := by
  unfold refs
  by_cases hr : own r = .root true
  · by_cases hv : v < userPages
    · simp only [hroot.mpr hr, hr, hleaf hr hv]
    · simp [hv]
  · have hr' : own' r ≠ .root true := fun h => hr (hroot.mp h)
    simp [hr, hr']

/-- Between two states only the tables with a root in `T` get or lose pages, only those with
a root in `R` map something else, and only the held pages in `X` change. -/
structure KeepsBut (T R X : Set ℕ) (s : Machine) (own : ℕ → Owner) (t : Machine)
    (own' : ℕ → Owner) : Prop where
  root : ∀ r u, r ∉ R → (own' r = .root u ↔ own r = .root u)
  held : ∀ p τ, p ∉ X → (own' p = .held τ ↔ own p = .held τ)
  inner : ∀ p r o, r ∉ T → o.within = some r → (own' p = o ↔ own p = o)
  leaf : ∀ r u v, r ∉ R → own r = .root u →
    leafAt (entry t.mem) r v = leafAt (entry s.mem) r v
  heldMem : ∀ p τ, p ∉ X → own p = .held τ → t.mem p = s.mem p
  refMem : ∀ r v p, r ∉ R → refs (entry s.mem) own (r, v) = some p → t.mem p = s.mem p

/-- Between two states only the tables with a root in `R` and the held pages in `X` change;
free pages may become table pages of these and back. -/
abbrev Keeps (R X : Set ℕ) (s : Machine) (own : ℕ → Owner) (t : Machine)
    (own' : ℕ → Owner) : Prop :=
  KeepsBut R R X s own t own'

namespace KeepsBut
variable {T T' R R' X X' : Set ℕ} {s t t' : Machine} {own own' own'' : ℕ → Owner}

theorem refl (T R X : Set ℕ) (s : Machine) (own : ℕ → Owner) : KeepsBut T R X s own s own where
  root := fun _ _ _ => Iff.rfl
  held := fun _ _ _ => Iff.rfl
  inner := fun _ _ _ _ _ => Iff.rfl
  leaf := fun _ _ _ _ _ => rfl
  heldMem := fun _ _ _ _ => rfl
  refMem := fun _ _ _ _ _ => rfl

theorem refs_eq (h : KeepsBut T R X s own t own') {r : ℕ} (hr : r ∉ R) (v : ℕ) :
    refs (entry t.mem) own' (r, v) = refs (entry s.mem) own (r, v) :=
  refs_congr (h.root r true hr) (fun hu _ => h.leaf r true v hr hu)

theorem trans (h : KeepsBut T R X s own t own') (h' : KeepsBut T R X t own' t' own'') :
    KeepsBut T R X s own t' own'' where
  root := fun r u hr => (h'.root r u hr).trans (h.root r u hr)
  held := fun p τ hp => (h'.held p τ hp).trans (h.held p τ hp)
  inner := fun p r o hr ho => (h'.inner p r o hr ho).trans (h.inner p r o hr ho)
  leaf := fun r u v hr hu =>
    (h'.leaf r u v hr ((h.root r u hr).mpr hu)).trans (h.leaf r u v hr hu)
  heldMem := fun p τ hp hτ =>
    (h'.heldMem p τ hp ((h.held p τ hp).mpr hτ)).trans (h.heldMem p τ hp hτ)
  refMem := fun r v p hr hp =>
    (h'.refMem r v p hr ((h.refs_eq hr v).trans hp)).trans (h.refMem r v p hr hp)

theorem weaken (h : KeepsBut T R X s own t own') (hT : T ⊆ T') (hR : R ⊆ R') (hX : X ⊆ X') :
    KeepsBut T' R' X' s own t own' where
  root := fun r u hr => h.root r u (fun hr' => hr (hR hr'))
  held := fun p τ hp => h.held p τ (fun hp' => hp (hX hp'))
  inner := fun p r o hr ho => h.inner p r o (fun hr' => hr (hT hr')) ho
  leaf := fun r u v hr hu => h.leaf r u v (fun hr' => hr (hR hr')) hu
  heldMem := fun p τ hp hτ => h.heldMem p τ (fun hp' => hp (hX hp')) hτ
  refMem := fun r v p hr hp => h.refMem r v p (fun hr' => hr (hR hr')) hp

/-- A table that got or lost pages has changed. -/
theorem changed (h : KeepsBut T ∅ X s own t own') : Keeps T X s own t own' :=
  h.weaken le_rfl (Set.empty_subset T) le_rfl

/-- As long as no page changes its owner, no table gets or loses one. -/
theorem sameOwner (h : KeepsBut T R X s own t own) : KeepsBut T' R X s own t own :=
  { h with inner := fun _ _ _ _ _ => Iff.rfl }

/-- Pages that were not held before and are not held now need no exemption. -/
theorem close (h : KeepsBut T R X s own t own')
    (hX : ∀ p ∈ X, ∀ τ, own p ≠ .held τ ∧ own' p ≠ .held τ) :
    KeepsBut T R ∅ s own t own' where
  root := h.root
  held := by
    intro p τ _
    by_cases hp : p ∈ X
    · exact iff_of_false (hX p hp τ).2 (hX p hp τ).1
    · exact h.held p τ hp
  inner := h.inner
  leaf := h.leaf
  heldMem := by
    intro p τ _ hτ
    apply h.heldMem p τ _ hτ
    intro hp
    exact (hX p hp τ).1 hτ
  refMem := h.refMem

end KeepsBut

theorem Keeps.refl (R X : Set ℕ) (s : Machine) (own : ℕ → Owner) : Keeps R X s own s own :=
  KeepsBut.refl R R X s own

theorem Keeps.trans {R X : Set ℕ} {s t t' : Machine} {own own' own'' : ℕ → Owner}
    (h : Keeps R X s own t own') (h' : Keeps R X t own' t' own'') : Keeps R X s own t' own'' :=
  KeepsBut.trans h h'

theorem Keeps.mono {R R' X X' : Set ℕ} {s t : Machine} {own own' : ℕ → Owner}
    (h : Keeps R X s own t own') (hR : R ⊆ R') (hX : X ⊆ X') : Keeps R' X' s own t own' :=
  h.weaken hR hR hX

/-- A page as its owner sees it. -/
structure UPage where
  user : Bool
  bytes : Buf

/-- What the page table `r` maps at a page number. -/
def view (s : Machine) (r v : ℕ) : Option UPage :=
  if valid (leafAt (entry s.mem) r v) = true then
    some ⟨user (leafAt (entry s.mem) r v), s.mem (pte2pa (leafAt (entry s.mem) r v))⟩
  else none

theorem view_eq_some {s : Machine} {pg : UPage} (h : view s r v = some pg) :
    valid (leafAt (entry s.mem) r v) = true ∧ user (leafAt (entry s.mem) r v) = pg.user ∧
      s.mem (pte2pa (leafAt (entry s.mem) r v)) = pg.bytes := by
  unfold view at h
  split at h
  · rename_i hval
    obtain rfl := Option.some.inj h
    exact ⟨hval, rfl, rfl⟩
  · cases h

theorem view_eq_none_iff {s : Machine} :
    view s r v = none ↔ valid (leafAt (entry s.mem) r v) = false := by
  unfold view
  split <;> simp_all

theorem KeepsBut.view_eq {T R X : Set ℕ} {s t : Machine} {own own' : ℕ → Owner}
    (h : KeepsBut T R X s own t own') (hr : r ∉ R) (hroot : own r = .root true)
    (hv : v < userPages) : view t r v = view s r v := by
  unfold view
  rw [h.leaf r true v hr hroot]
  by_cases hval : valid (leafAt (entry s.mem) r v) = true
  · rw [if_pos hval, if_pos hval, h.refMem r v _ hr (refs_eq_some.mpr ⟨hroot, hv, hval, rfl⟩)]
  · rw [if_neg hval, if_neg hval]

section changes
variable [Image] {s t : Machine} {own own' : ℕ → Owner}

/-- A change that keeps every entry of every user table. -/
theorem MemInv.of_tree (h : MemInv s own) (htree : Tree (entry t.mem) own')
    (halloc : Alloc own' t.freelist t.count)
    (hdata : ∀ p, own' p = .data ↔ own p = .data)
    (hcount : ∀ p, own p = .data → t.count (idx p) = s.count (idx p))
    (hroot : ∀ r, own' r = .root true ↔ own r = .root true)
    (hleaf : ∀ r v, own r = .root true → v < userPages →
      leafAt (entry t.mem) r v = leafAt (entry s.mem) r v) : MemInv t own' := by
  have hrefs : refs (entry t.mem) own' = refs (entry s.mem) own := by
    funext ⟨r, v⟩
    exact refs_congr (hroot r) (hleaf r v)
  apply h.of_refs htree halloc hdata hcount hrefs
  intro r v p hk
  obtain ⟨hr, hv, -⟩ := refs_eq_some.mp hk
  exact hleaf r v hr hv

theorem Alloc.idx_ne_of_data {freelist : List ℕ} {count : ℕ → ℕ}
    (h : Alloc own freelist count) {p q : ℕ} (hp : own p = .data) (hq : own q ≠ .outside)
    (hqd : own q ≠ .data) : idx p ≠ idx q := by
  apply h.idx_ne (by simp [hp]) hq
  rintro rfl
  exact hqd hp

variable {p : ℕ}

/-- A page that is no table page changes its owner or its contents. -/
theorem Tree.plainPage (h : Tree (entry s.mem) own) (htab : (own p).isTable = false) {o : Owner}
    (hotab : o.isTable = false) (hpage : ∀ q, Function.update own p o q ≠ .outside → Page q)
    (hmem : ∀ q, q ≠ p → t.mem q = s.mem q) :
    Tree (entry t.mem) (Function.update own p o) ∧
      (∀ q o', o'.isTable = true → (Function.update own p o q = o' ↔ own q = o')) ∧
      ∀ r u v, own r = .root u → leafAt (entry t.mem) r v = leafAt (entry s.mem) r v := by
  have he : ∀ q, (own q).isTable = true → entry t.mem q = entry s.mem q := by
    intro q hq
    have hqp : q ≠ p := by
      rintro rfl
      simp [htab] at hq
    funext i
    simp [entry, hmem q hqp]
  have hsame : ∀ q o', o'.isTable = true → (Function.update own p o q = o' ↔ own q = o') := by
    intro q o' ho'
    by_cases hq : q = p
    · subst hq
      rw [Function.update_self]
      constructor <;> (rintro rfl; simp_all)
    · rw [Function.update_of_ne hq]
  have htree : Tree (entry t.mem) (Function.update own p o) := h.congr hpage (by
    intro q hq
    by_cases hqp : q = p
    · subst hqp
      simp [htab, hotab] at hq
    · exact Function.update_of_ne hqp _ _) he
  refine ⟨htree, hsame, ?_⟩
  intro r u v hr
  apply h.leafAt_congr htree hr ((hsame r _ rfl).mpr hr) (fun q i j => hsame q _ rfl)
  intro q i j hq
  exact he q (by simp [hq, Owner.isTable])

/-- A page that is neither a table nor a data page changes its owner or its contents. -/
theorem MemInv.plainPage (h : MemInv s own) (hout : own p ≠ .outside)
    (htab : (own p).isTable = false) (hdat : own p ≠ .data) {o : Owner} (hotab : o.isTable = false)
    (hodat : o ≠ .data) (hmem : ∀ q, q ≠ p → t.mem q = s.mem q)
    (hcount : ∀ q, idx q ≠ idx p → t.count (idx q) = s.count (idx q))
    (halloc : Alloc (Function.update own p o) t.freelist t.count) :
    MemInv t (Function.update own p o) ∧ Keeps ∅ {p} s own t (Function.update own p o) := by
  have hown : ∀ q, q ≠ p → Function.update own p o q = own q := fun q hq =>
    Function.update_of_ne hq _ _
  have hself : Function.update own p o p = o := Function.update_self _ _ _
  obtain ⟨htree, hsame, hleaf⟩ := h.tree.plainPage htab hotab
    (fun q hq => (halloc.managed q).mp hq) hmem
  constructor
  · apply h.of_tree htree halloc
    · intro q
      by_cases hq : q = p
      · subst hq
        rw [hself]
        exact iff_of_false hodat hdat
      · rw [hown q hq]
    · intro q hq
      exact hcount q (h.alloc.idx_ne_of_data hq hout hdat)
    · intro r
      exact hsame r _ rfl
    · intro r v hr _
      exact hleaf r true v hr
  · constructor
    · intro r u _
      exact hsame r _ rfl
    · intro q τ hq
      rw [hown q hq]
    · intro q r o' _ ho'
      exact hsame q o' (Owner.isTable_of_within ho')
    · intro r u v _ hr
      exact hleaf r u v hr
    · intro q τ hq _
      exact hmem q hq
    · intro r v q _ hk
      apply hmem
      rintro rfl
      exact hdat (h.target hk)

/-- `kalloc` returns a page. -/
theorem MemInv.allocated (h : MemInv s own) (hl : s.freelist = p :: s.freelist.tail)
    (τ : Tag) : MemInv (s.allocated p) (Function.update own p (.held τ)) ∧
      Keeps ∅ {p} s own (s.allocated p) (Function.update own p (.held τ)) := by
  have hp : own p = .free := (h.alloc.free p).mp (by rw [hl]; simp)
  have halloc := h.alloc
  rw [hl] at halloc
  exact h.plainPage (by simp [hp]) (by simp [hp, Owner.isTable]) (by simp [hp]) rfl (by simp)
    (fun q hq => allocated_mem_ne s hq) (fun q hq => allocated_count_ne s hq) (halloc.alloc τ)

/-- `kfree` of a page held by one owner. -/
theorem MemInv.releasedHeld (h : MemInv s own) {τ : Tag} (hp : own p = .held τ) :
    MemInv (s.released p) (Function.update own p .free) ∧
      Keeps ∅ {p} s own (s.released p) (Function.update own p .free) :=
  h.plainPage (by simp [hp]) (by simp [hp, Owner.isTable]) (by simp [hp]) rfl (by simp)
    (fun q hq => released_mem_ne s hq) (fun q hq => released_count_ne s hq)
    (h.alloc.release (by simp [hp]) (by simp [hp]))

/-- The contents of a held page change. -/
theorem MemInv.setHeld (h : MemInv s own) {τ : Tag} (hp : own p = .held τ) (b : Buf) :
    MemInv (s.setPage p b) own ∧ Keeps ∅ {p} s own (s.setPage p b) own := by
  have hall : Alloc (Function.update own p (.held τ)) s.freelist s.count := by
    rw [← hp, Function.update_eq_self]
    exact h.alloc
  have hkeep := h.plainPage (t := s.setPage p b) (o := .held τ) (by simp [hp])
    (by simp [hp, Owner.isTable]) (by simp [hp]) rfl (by simp)
    (fun q hq => setPage_mem_ne s b hq) (fun q _ => rfl) hall
  rwa [← hp, Function.update_eq_self] at hkeep

theorem MemInv.data_iff (h : MemInv s own) (p : ℕ) :
    own p = .data ↔ 0 < refCount (refs (entry s.mem) own) p := by
  rw [h.exact p]
  constructor
  · intro hp
    rw [if_pos hp]
    exact h.alloc.pos p hp
  · intro hpos
    by_contra hp
    rw [if_neg hp] at hpos
    exact lt_irrefl 0 hpos

/-- Where no reference has changed, a page outside the tables of `T` has the owner it had. -/
theorem KeepsBut.owner_eq {T R : Set ℕ} (hk : KeepsBut T R ∅ s own t own') (h : MemInv s own)
    (h' : MemInv t own') (hroot : ∀ r ∈ R, ∀ u, own' r = .root u ↔ own r = .root u)
    (hrefs : refs (entry t.mem) own' = refs (entry s.mem) own)
    (hT : ∀ r ∈ T, (own p).within ≠ some r ∧ (own' p).within ≠ some r) : own' p = own p := by
  have hsame : ∀ o, o ≠ .free → (own' p = o ↔ own p = o) := by
    intro o ho
    cases o with
    | free => exact absurd rfl ho
    | outside =>
      have hout := (h'.alloc.managed p).trans (h.alloc.managed p).symm
      exact not_iff_not.mp hout
    | data => rw [h'.data_iff, h.data_iff, hrefs]
    | held τ => exact hk.held p τ (Set.notMem_empty p)
    | root u =>
      by_cases hp : p ∈ R
      · exact hroot p hp u
      · exact hk.root p u hp
    | mid r i =>
      by_cases hr : r ∈ T
      · exact iff_of_false (fun ho => (hT r hr).2 (by rw [ho]; rfl))
          (fun ho => (hT r hr).1 (by rw [ho]; rfl))
      · exact hk.inner p r _ hr rfl
    | low r i j =>
      by_cases hr : r ∈ T
      · exact iff_of_false (fun ho => (hT r hr).2 (by rw [ho]; rfl))
          (fun ho => (hT r hr).1 (by rw [ho]; rfl))
      · exact hk.inner p r _ hr rfl
  by_cases hp : own p = .free
  · by_contra hne
    have hp' : own' p ≠ .free := fun ho => hne (ho.trans hp.symm)
    exact hne ((hsame _ hp').mp rfl).symm
  · exact (hsame _ hp).mpr rfl

end changes
end Xv6
