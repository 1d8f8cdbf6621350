import Xv6.Vm.ExecCallSpec
import Xv6.Vm.Undo

/-! `exec` is all or nothing: a call that fails leaves memory as it was, and one that succeeds
leaves none of the old image behind. -/
namespace Xv6
open Bytes Program RefCount

/-- A call that failed has left the process table, the pages and the memory of everyone as they
were. -/
structure ExecUndone [Image] (s t : Sys) : Prop where
  procs : t = s.setMach t.mach
  pages : SamePages s t
  spaces : ∀ k, s.table k ≠ 0 → SameSpace s t k
  saved : ∀ j, (s.proc j).trapframe ≠ 0 →
    t.mach.mem (s.proc j).trapframe = s.mach.mem (s.proc j).trapframe

/-- The page is an inner page of the table with root `r`. -/
def Sys.InnerOf (s : Sys) (r p : ℕ) : Prop :=
  ∃ i, i < 512 ∧ valid (entry s.mach.mem r i) = true ∧
    (pte2pa (entry s.mach.mem r i) = p ∨ ∃ j, j < 512 ∧
      valid (entry s.mach.mem (pte2pa (entry s.mach.mem r i)) j) = true ∧
      pte2pa (entry s.mach.mem (pte2pa (entry s.mach.mem r i)) j) = p)

/-- The page is user memory of the address space behind a key. -/
def Sys.Maps (s : Sys) (k : TableKey) (p : ℕ) : Prop :=
  s.table k ≠ 0 ∧ ∃ v, v < userPages ∧ valid (s.pte k v) = true ∧ pte2pa (s.pte k v) = p

/-- The page belongs to the address space behind a key: to its page table, or as user memory. -/
def Sys.BelongsTo (s : Sys) (k : TableKey) (p : ℕ) : Prop :=
  s.table k ≠ 0 ∧ (s.table k = p ∨ s.InnerOf (s.table k) p) ∨ s.Maps k p

/-- The process has a new image. What belonged to its old image alone is free, and of the pages
that were free before only those of the new image are not free now. -/
structure Replaced [Image] (s : Sys) (i : ℕ) (t : Sys) : Prop where
  procs : t = (s.setMach t.mach).setProc i { s.proc i with
    pagetable := (t.proc i).pagetable, sz := (t.proc i).sz }
  freed : ∀ p, s.BelongsTo (.main i) p → (∀ k, s.Maps k p → k = .main i) → p ∈ t.mach.freelist
  taken : ∀ p, p ∈ s.mach.freelist → p ∈ t.mach.freelist ∨ t.BelongsTo (.main i) p
  others : ∀ k, k ≠ .main i → s.table k ≠ 0 → SameSpace s t k
  saved : ∀ j, j ≠ i → (s.proc j).trapframe ≠ 0 →
    t.mach.mem (s.proc j).trapframe = s.mach.mem (s.proc j).trapframe

variable {k : TableKey}

section frame
variable [Image] {G : Set ℕ} {s₀ s : Sys} {m m' : Machine} {own₀ own own' : ℕ → Owner} {i p : ℕ}
  {T R X : Set ℕ}

omit [Image] in
/-- What has not changed from one state to the other has not changed the other way. -/
theorem KeepsBut.symm (h : KeepsBut T R X m own m' own') : KeepsBut T R X m' own' m own where
  root := fun r u hr => (h.root r u hr).symm
  held := fun p τ hp => (h.held p τ hp).symm
  inner := fun p r o hr ho => (h.inner p r o hr ho).symm
  leaf := fun r u v hr hu => (h.leaf r u v hr ((h.root r u hr).mp hu)).symm
  heldMem := fun p τ hp hτ => (h.heldMem p τ hp ((h.held p τ hp).mp hτ)).symm
  refMem := fun r v p hr hp => (h.refMem r v p hr ((h.refs_eq hr v).symm.trans hp)).symm

/-- The page may get another owner when only the tables in `T` get or lose pages, those in `R`
map something else, and the held pages in `X` change. -/
def Touched (T R X : Set ℕ) (m : Machine) (own : ℕ → Owner) (p : ℕ) : Prop :=
  (∃ τ, own p = .held τ ∧ p ∈ X) ∨ (∃ u, own p = .root u ∧ p ∈ R) ∨
    (∃ r ∈ T, (own p).within = some r) ∨
    own p = .data ∧ ∀ r v, refs (entry m.mem) own (r, v) = some p → r ∈ R

theorem KeepsBut.owner_of_untouched (hk : KeepsBut T R X m own m' own') (h : MemInv m own)
    (h' : MemInv m' own') (hp : own p ≠ .free) (hno : ¬Touched T R X m own p) :
    own' p = own p := by
  simp only [Touched, not_or] at hno
  obtain ⟨hheld, hroot, hinner, hdata⟩ := hno
  cases ho : own p with
  | outside =>
    have hout := (h'.alloc.managed p).trans (h.alloc.managed p).symm
    by_contra hne
    exact hout.mp hne ho
  | free => exact absurd ho hp
  | held τ => exact (hk.held p τ fun hX => hheld ⟨τ, ho, hX⟩).mpr ho
  | root u => exact (hk.root p u fun hR => hroot ⟨u, ho, hR⟩).mpr ho
  | mid r j =>
    exact (hk.inner p r _ (fun hT => hinner ⟨r, hT, by rw [ho]; rfl⟩) rfl).mpr ho
  | low r j l =>
    exact (hk.inner p r _ (fun hT => hinner ⟨r, hT, by rw [ho]; rfl⟩) rfl).mpr ho
  | data =>
    obtain ⟨r, v, href, hr⟩ : ∃ r v, refs (entry m.mem) own (r, v) = some p ∧ r ∉ R := by
      by_contra hall
      refine hdata ⟨ho, fun r v href => ?_⟩
      by_contra hr
      exact hall ⟨r, v, href, hr⟩
    exact h'.target ((hk.refs_eq hr v).trans href)

/-- Nothing in use is touched by a call that works on free pages. -/
theorem MemInv.untouched_free (h : MemInv m own) (hp : own p ≠ .free) :
    ¬Touched {q | own q = .free} {q | own q = .free} {q | own q = .free} m own p := by
  rintro (⟨τ, -, hin⟩ | ⟨u, -, hin⟩ | ⟨r, hr, hin⟩ | ⟨hdata, hall⟩)
  · exact hp hin
  · exact hp hin
  · obtain ⟨u, hu⟩ := h.tree.root_of_within hin
    rw [Set.mem_ofPred_eq, hu] at hr
    cases hr
  · obtain ⟨⟨r, v⟩, href⟩ := exists_of_refCount_pos ((h.data_iff p).mp hdata)
    have hr := hall r v href
    rw [Set.mem_ofPred_eq, (refs_eq_some.mp href).1] at hr
    cases hr

/-- Pages are taken from those that were free at the start. -/
theorem roomy_free (h₀ : MemInv s₀.mach own₀) : Roomy {p | own₀ p = .free} s₀ own₀ := by
  intro m own p h hk hp
  by_contra hne
  have hsame := hk.owner_of_untouched h₀ h hne (h₀.untouched_free hne)
  exact hne (hsame.symm.trans hp)

theorem Framed.start (h : SysInv s.mach s.inventory own)
    (hidle : (s.proc i).argv = [] ∧ (s.proc i).newtable = 0) : Framed G s own i s own where
  inv := h
  keeps := KeepsBut.refl _ _ _ _ _
  table := fun h0 => absurd hidle.2 h0
  args := by simp [hidle.1]
  procs := by simp [Sys.setProc, Sys.setMach]

/-- The tables of the system are not among the free pages. -/
theorem SysInv.table_used (h : SysInv s.mach s.inventory own) (hk : s.table k ≠ 0) :
    s.table k ∉ {q | own q = .free} := by
  intro hin
  rw [Set.mem_ofPred_eq, (h.root_of_table hk).1] at hin
  cases hin

omit [Image] in
theorem SameSpace.of_keeps {t : Sys} (hk : KeepsBut T R X s.mach own t.mach own')
    (hroot : own (s.table k) = .root true) (hR : s.table k ∉ R) (htab : t.table k = s.table k) :
    SameSpace s t k := by
  constructor
  · intro v _
    rw [Sys.pte, htab]
    exact hk.leaf _ true v hR hroot
  · intro v hv hval
    exact hk.refMem _ v _ hR (refs_eq_some.mpr ⟨hroot, hv, hval, rfl⟩)

/-- A failed call has changed nothing. -/
theorem Framed.undone {t : Sys} (h : SysInv s.mach s.inventory own)
    (hf : Framed {p | own p = .free} s own i t own') (ht : t = s.setMach t.mach) :
    ExecUndone s t := by
  have hinv : SysInv t.mach s.inventory own' := by
    have hv : t.inventory = s.inventory := by rw [ht]; rfl
    rw [← hv]
    exact hf.inv
  have hkernel : s.inventory.kernel ∉ {p | own p = .free} := by
    apply h.kernel_notMem
    intro r hr
    rw [Set.mem_ofPred_eq] at hr
    simp [hr]
  have htable : ∀ k, s.inventory.table k ≠ 0 → s.inventory.table k ∈ {p | own p = .free} →
      s.inventory.table k ∈ (∅ : Set ℕ) := by
    intro k hk hin
    rw [Set.mem_ofPred_eq, h.root_table hk] at hin
    cases hin
  have hk := h.settle hinv ∅ ∅ hf.keeps ⟨hkernel, hkernel⟩ htable htable (by
    intro p hp τ hτ
    rw [Set.mem_ofPred_eq, hτ] at hp
    cases hp)
  refine ⟨ht, h.samePages hinv hk (by simp), ?_, ?_⟩
  · intro k hk0
    apply SameSpace.of_keeps hk (h.root_of_table hk0).1 (Set.notMem_empty _)
    rw [ht]
    cases k <;> rfl
  · intro j hj
    exact hk.heldMem _ (.trapframe j) (Set.notMem_empty _) (h.trapframe_held hj)

end frame
section switch
variable [Image] {s t s₁ s₂ t₁ : Sys} {own own' own₁ : ℕ → Owner} {i p : ℕ} {m₁ : Machine}
  {G : Set ℕ} {V : Space}

variable {r : ℕ}

omit [Image] in
theorem Owner.within_iff {o : Owner} :
    o.within = some r ↔ (∃ j, o = .mid r j) ∨ ∃ j l, o = .low r j l := by
  cases o <;> simp [Owner.within]

theorem Tree.innerOf (h : Tree (entry s.mach.mem) own) {u : Bool} (hr : own r = .root u) :
    s.InnerOf r p ↔ (own p).within = some r := by
  have hpa : ∀ q, own q ≠ .outside → pte2pa (link q) = q := fun q hq => pte2pa_link (h.page q hq)
  rw [Owner.within_iff]
  constructor
  · rintro ⟨j, hj, hval, hp⟩
    obtain h0 | ⟨q, hq, hl⟩ := h.rootEntry r u j hr hj
    · rw [h0] at hval
      cases hval
    rw [hl, hpa q (by simp [hq])] at hp
    rcases hp with rfl | ⟨l, hl', hval', hp⟩
    · exact Or.inl ⟨j, hq⟩
    · obtain h0 | ⟨q', hq', hlink⟩ := h.midEntry q r j l hq hl'
      · rw [h0] at hval'
        cases hval'
      · rw [hlink, hpa q' (by simp [hq'])] at hp
        subst hp
        exact Or.inr ⟨j, l, hq'⟩
  · rintro (⟨j, hp⟩ | ⟨j, l, hp⟩)
    · obtain ⟨-, hj, hl⟩ := h.midLink p r j hp
      refine ⟨j, by omega, by simp [hl], Or.inl ?_⟩
      rw [hl, hpa p (by simp [hp])]
    · obtain ⟨hl, q, hq, hlink⟩ := h.lowLink p r j l hp
      obtain ⟨-, hj, hlink'⟩ := h.midLink q r j hq
      have hpq : pte2pa (entry s.mach.mem r j) = q := by rw [hlink', hpa q (by simp [hq])]
      refine ⟨j, by omega, by simp [hlink'], Or.inr ⟨l, hl, ?_, ?_⟩⟩
      · simp [hpq, hlink]
      · rw [hpq, hlink, hpa p (by simp [hp])]

/-- A page is mapped by the address space behind a key exactly when its table refers to it. -/
theorem SysInv.maps_iff (h : SysInv s.mach s.inventory own) :
    s.Maps k p ↔ s.table k ≠ 0 ∧ ∃ v, refs (entry s.mach.mem) own (s.table k, v) = some p := by
  constructor
  · rintro ⟨hk, v, hv, hval, hp⟩
    exact ⟨hk, v, refs_eq_some.mpr ⟨(h.root_of_table hk).1, hv, hval, hp⟩⟩
  · rintro ⟨hk, v, href⟩
    obtain ⟨-, hv, hval, hp⟩ := refs_eq_some.mp href
    exact ⟨hk, v, hv, hval, hp⟩

/-- The moment at which a process changes its image: from `s` on only free pages were used, among
them the new table and all it maps; then the old table is freed, and held pages of the process
with it. -/
structure Switched (s : Sys) (own : ℕ → Owner) (i : ℕ) (m₁ : Machine) (own₁ : ℕ → Owner)
    (X : Set ℕ) (t : Sys) (own' : ℕ → Owner) : Prop where
  start : SysInv s.mach s.inventory own
  before : KeepsBut {p | own p = .free} {p | own p = .free} {p | own p = .free} s.mach own m₁ own₁
  mem : MemInv m₁ own₁
  after : KeepsBut {(s.proc i).pagetable} {(s.proc i).pagetable} X m₁ own₁ t.mach own'
  inv : SysInv t.mach t.inventory own'
  gone : own' (s.proc i).pagetable = .free
  held : ∀ q ∈ X, own₁ q = .held (.trapframe i) ∨ own₁ q = .held (.arg i)
  new : own (t.proc i).pagetable = .free
  alone : ∀ q v, refs (entry m₁.mem) own₁ ((t.proc i).pagetable, v) = some q →
    ∀ r v', refs (entry m₁.mem) own₁ (r, v') = some q → r = (t.proc i).pagetable
  roots : ∀ r, own r = .free → own₁ r = .root true → r = (t.proc i).pagetable
  procs : t = (s.setMach t.mach).setProc i { s.proc i with
    pagetable := (t.proc i).pagetable, sz := (t.proc i).sz }

variable {X : Set ℕ}

section
variable (h : Switched s own i m₁ own₁ X t own')
include h

theorem Switched.root_ne {u : Bool} (hr : own' r = .root u) : r ≠ (s.proc i).pagetable := by
  rintro rfl
  rw [h.gone] at hr
  cases hr

/-- What the old table no longer has is in use afterwards only if it was used otherwise. -/
theorem Switched.free_of_old (hX : ∀ τ, own₁ p ≠ .held τ)
    (hp : own₁ p = .root true → p = (s.proc i).pagetable)
    (hmine : own₁ p = .root true ∨ (own₁ p).within = some (s.proc i).pagetable ∨
      own₁ p = .data ∧ ∀ r v, refs (entry m₁.mem) own₁ (r, v) = some p →
        r = (s.proc i).pagetable) : own' p = .free := by
  by_contra hne
  have hno : ¬Touched {(s.proc i).pagetable} {(s.proc i).pagetable} X t.mach own' p := by
    rintro (⟨τ, -, hin⟩ | ⟨u, hu, hin⟩ | ⟨r, hr, hin⟩ | ⟨hdata, hall⟩)
    · rcases h.held p hin with hτ | hτ <;> exact hX _ hτ
    · exact h.root_ne hu hin
    · obtain ⟨u, hu⟩ := h.inv.mem.tree.root_of_within hin
      exact h.root_ne hu hr
    · obtain ⟨⟨r, v⟩, href⟩ := exists_of_refCount_pos ((h.inv.mem.data_iff p).mp hdata)
      exact h.root_ne (refs_eq_some.mp href).1 (hall r v href)
  have hsame := h.after.symm.owner_of_untouched h.inv.mem h.mem hne hno
  rcases hmine with hroot | hin | ⟨hdata, hall⟩
  · rw [hsame] at hroot
    exact h.root_ne hroot (hp (hsame.trans hroot))
  · rw [hsame] at hin
    obtain ⟨u, hu⟩ := h.inv.mem.tree.root_of_within hin
    exact h.root_ne hu rfl
  · rw [hsame] at hdata
    obtain ⟨⟨r, v⟩, href⟩ := exists_of_refCount_pos ((h.inv.mem.data_iff p).mp hdata)
    have hr := h.root_ne (refs_eq_some.mp href).1
    exact hr (hall r v ((h.after.refs_eq hr v).symm.trans href))

theorem Switched.owner_before (hp : own p ≠ .free) : own₁ p = own p :=
  h.before.owner_of_untouched h.start.mem h.mem hp (h.start.mem.untouched_free hp)

theorem Switched.refs_before (hr : own r ≠ .free) (v : ℕ) :
    refs (entry m₁.mem) own₁ (r, v) = refs (entry s.mach.mem) own (r, v) :=
  h.before.refs_eq hr v

/-- A page of the old image that no other address space maps is free afterwards. -/
theorem Switched.freed (hi : (s.proc i).pagetable ≠ 0) (hp : s.BelongsTo (.main i) p)
    (hsole : ∀ k, s.Maps k p → k = .main i) : p ∈ t.mach.freelist := by
  have hroot : own (s.proc i).pagetable = .root true := (h.start.root_of_table (k := .main i) hi).1
  rw [h.inv.mem.alloc.free]
  rcases hp with ⟨-, hp | hp⟩ | hmaps
  · have hown : own p = .root true := by
      rw [← hp]
      exact hroot
    have hown₁ := (h.owner_before (by simp [hown])).trans hown
    exact h.free_of_old (by simp [hown₁]) (fun _ => hp.symm) (Or.inl hown₁)
  · have hin : (own p).within = some (s.proc i).pagetable :=
      (h.start.mem.tree.innerOf hroot).mp hp
    have hown₁ : own₁ p = own p := h.owner_before (by rintro ho; simp [ho, Owner.within] at hin)
    rw [← hown₁] at hin
    refine h.free_of_old ?_ ?_ (Or.inr (Or.inl hin))
    · rintro τ ho
      simp [ho, Owner.within] at hin
    · rintro ho
      simp [ho, Owner.within] at hin
  · obtain ⟨-, v, href⟩ := h.start.maps_iff.mp hmaps
    have hdata := h.start.mem.target href
    have hdata₁ : own₁ p = .data := (h.owner_before (by simp [hdata])).trans hdata
    have href₁ : refs (entry m₁.mem) own₁ ((s.proc i).pagetable, v) = some p :=
      (h.refs_before (by simp [hroot]) v).trans href
    refine h.free_of_old (by simp [hdata₁]) (by simp [hdata₁]) (Or.inr (Or.inr ⟨hdata₁, ?_⟩))
    intro r v' hr
    by_cases hfree : own r = .free
    · -- only the new table is made of such pages, and it shares nothing
      obtain rfl := h.roots r hfree (refs_eq_some.mp hr).1
      have hnew := h.alone p v' hr _ v href₁
      rw [← hnew, hroot] at hfree
      cases hfree
    · rw [h.refs_before hfree] at hr
      obtain ⟨h0, k, hk⟩ := (h.start.root r).mp (refs_eq_some.mp hr).1
      rw [Sys.inventory_table] at hk
      subst hk
      obtain rfl := hsole k (h.start.maps_iff.mpr ⟨h0, v', hr⟩)
      rfl

/-- Everything but the image of the process is where it was. -/
theorem Switched.table_ne (hk : k ≠ .main i) : t.table k = s.table k := by
  rw [h.procs]
  rcases k with j | j <;> by_cases hj : j = i
  · exact absurd (by rw [hj]) hk
  all_goals simp [Sys.table, Sys.setProc, Sys.setMach, hj]

theorem Switched.keeps :
    KeepsBut ({p | own p = .free} ∪ {(s.proc i).pagetable})
      ({p | own p = .free} ∪ {(s.proc i).pagetable}) ({p | own p = .free} ∪ X) s.mach own
      t.mach own' :=
  (h.before.weaken Set.subset_union_left Set.subset_union_left Set.subset_union_left).trans
    (h.after.weaken Set.subset_union_right Set.subset_union_right Set.subset_union_right)

/-- The tables are the ones there were, with the new one in place of the old one. -/
theorem Switched.root_new {u : Bool} (hr : own' r = .root u) : r = t.table (.main i) ∧ r ≠ 0 ∨
      r ∉ {p | own p = .free} ∪ {(s.proc i).pagetable} := by
  by_cases hnew : r = t.table (.main i) ∧ r ≠ 0
  · exact Or.inl hnew
  · right
    have hold : own r = .root u := by
      cases u with
      | false =>
        have hkernel : t.inventory.kernel = s.inventory.kernel := by rw [h.procs]; rfl
        rw [h.inv.kernel, hkernel] at hr
        exact (h.start.kernel r).mpr hr
      | true =>
        obtain ⟨h0, k, hk⟩ := (h.inv.root r).mp hr
        rw [Sys.inventory_table] at hk
        have hki : k ≠ .main i := by
          rintro rfl
          exact hnew ⟨hk.symm, h0⟩
        rw [h.table_ne hki] at hk
        rw [← hk] at h0 ⊢
        exact (h.start.root_of_table h0).1
    rintro (hin | hin)
    · rw [Set.mem_ofPred_eq, hold] at hin
      cases hin
    · exact h.root_ne hr hin

/-- A page that was free is free afterwards, or it belongs to the new image. -/
theorem Switched.taken (hp : p ∈ s.mach.freelist) :
    p ∈ t.mach.freelist ∨ t.BelongsTo (.main i) p := by
  have hfree : own p = .free := (h.start.mem.alloc.free p).mp hp
  by_cases hfree' : own' p = .free
  · exact Or.inl ((h.inv.mem.alloc.free p).mpr hfree')
  right
  have htouched : Touched ({p | own p = .free} ∪ {(s.proc i).pagetable})
      ({p | own p = .free} ∪ {(s.proc i).pagetable}) ({p | own p = .free} ∪ X) t.mach own' p := by
    by_contra hno
    have hsame := h.keeps.symm.owner_of_untouched h.inv.mem h.start.mem hfree' hno
    exact hfree' (hsame.symm.trans hfree)
  rcases htouched with ⟨τ, hτ, -⟩ | ⟨u, hu, hin⟩ | ⟨r, hr, hin⟩ | ⟨hdata, hall⟩
  · -- what the kernel holds now it held before
    have hkernel : s.inventory.kernel ∉ {p | own p = .free} ∪ {(s.proc i).pagetable} := by
      have hk := (h.start.kernel _).mpr rfl
      rintro (hin | hin)
      · rw [Set.mem_ofPred_eq, hk] at hin
        cases hin
      · have hne : own' s.inventory.kernel = .root false := by
          have hkernel : t.inventory.kernel = s.inventory.kernel := by rw [h.procs]; rfl
          rw [← hkernel]
          exact (h.inv.kernel _).mpr rfl
        exact h.root_ne hne hin
    have hholds : t.inventory.Holds t.mach p τ ↔ s.inventory.Holds t.mach p τ := by
      have hproc : ∀ j, (t.proc j).trapframe = (s.proc j).trapframe ∧
          (t.proc j).argv = (s.proc j).argv := by
        intro j
        rw [h.procs]
        by_cases hj : j = i
        · subst hj
          simp [Sys.setProc, Sys.setMach]
        · simp [Sys.setProc, Sys.setMach, hj]
      have hrest : t.kernelPagetable = s.kernelPagetable ∧ t.pipes = s.pipes := by
        rw [h.procs]
        exact ⟨rfl, rfl⟩
      cases τ <;> simp [Inventory.Holds, Sys.inventory, hproc, hrest]
    have hheld : own p = .held τ := by
      rw [h.inv.held, hholds, h.start.holds_keeps h.keeps hkernel] at hτ
      exact (h.start.held p τ).mpr hτ
    rw [hfree] at hheld
    cases hheld
  · rcases h.root_new hu with ⟨hnew, h0⟩ | hout
    · exact Or.inl ⟨hnew ▸ h0, Or.inl hnew.symm⟩
    · exact absurd hin hout
  · obtain ⟨u, hu⟩ := h.inv.mem.tree.root_of_within hin
    rcases h.root_new hu with ⟨rfl, h0⟩ | hout
    · exact Or.inl ⟨h0, Or.inr ((h.inv.mem.tree.innerOf hu).mpr hin)⟩
    · exact absurd hr hout
  · obtain ⟨⟨r, v⟩, href⟩ := exists_of_refCount_pos ((h.inv.mem.data_iff p).mp hdata)
    rcases h.root_new (refs_eq_some.mp href).1 with ⟨rfl, h0⟩ | hout
    · exact Or.inr (h.inv.maps_iff.mpr ⟨h0, v, href⟩)
    · exact absurd (hall r v href) hout

theorem Switched.replaced (hi : (s.proc i).pagetable ≠ 0) : Replaced s i t := by
  refine ⟨h.procs, fun p => h.freed hi, fun p => h.taken, ?_, ?_⟩
  · intro k hk hk0
    obtain ⟨hroot, -⟩ := h.start.root_of_table hk0
    apply SameSpace.of_keeps h.keeps hroot _ (h.table_ne hk)
    rintro (hin | hin)
    · exact h.start.table_used hk0 hin
    · refine hk (h.start.inj k (.main i) (by rwa [Sys.inventory_table]) ?_)
      rw [Sys.inventory_table]
      exact hin
  · intro j hj htf
    have hheld := h.start.trapframe_held htf
    apply h.keeps.heldMem _ (.trapframe j) _ hheld
    rintro (hin | hin)
    · rw [Set.mem_ofPred_eq, hheld] at hin
      cases hin
    · have hown := h.owner_before (p := (s.proc j).trapframe) (by simp [hheld])
      rw [hheld] at hown
      rcases h.held _ hin with hτ | hτ
      · rw [hown] at hτ
        simp at hτ
        exact hj hτ
      · rw [hown] at hτ
        cases hτ

end

/-- The stack phase does not change what the tables refer to. -/
theorem StackBuilt.refs_eq {res : Option (ℕ × ℕ)} (h : StackBuilt s i s₁ own₁ V res t₁) :
    refs (entry t₁.mach.mem) own₁ = refs (entry s₁.mach.mem) own₁ := by
  funext ⟨r, v⟩
  by_cases hr : r = (s₁.proc i).newtable
  swap
  · exact h.effect.keeps.refs_eq hr v
  subst hr
  by_cases hv : v < userPages
  swap
  · simp [refs, hv]
  by_cases hg : v = (s₁.proc i).newsz / pgsize - 2
  · obtain ⟨hpa, hval, -⟩ := clearUser_bits (leafAt (entry s₁.mach.mem) (s₁.proc i).newtable v)
    have hleaf : leafAt (entry t₁.mach.mem) (s₁.proc i).newtable v =
        leafAt (entry s₁.mach.mem) (s₁.proc i).newtable v &&& ~~~pteU := by
      rw [hg]
      exact h.guard
    simp only [refs, hleaf, hpa, hval]
  · simp only [refs, h.effect.entries v hv hg]

/-- A page stays free unless it is one of the held pages that change. -/
theorem KeepsBut.free_stays {m m' : Machine} (hk : KeepsBut ∅ ∅ X m own m' own') (h : MemInv m own)
    (h' : MemInv m' own') (hp : own p = .free) (hX : p ∉ X) : own' p = .free := by
  by_contra hne
  have hno : ¬Touched ∅ ∅ X m' own' p := by
    rintro (⟨τ, -, hin⟩ | ⟨u, -, hin⟩ | ⟨r, hr, -⟩ | ⟨hdata, hall⟩)
    · exact hX hin
    · exact hin
    · exact hr
    · obtain ⟨⟨r, v⟩, href⟩ := exists_of_refCount_pos ((h'.data_iff p).mp hdata)
      exact hall r v href
  exact hne ((hk.symm.owner_of_untouched h' h hne hno).symm.trans hp)

/-- The image that is being built is the only new table, and shares nothing. -/
theorem Framed.image_alone (h : SysInv s.mach s.inventory own)
    (hf : Framed {p | own p = .free} s own i s₁ own₁) (hnew : (s₁.proc i).newtable ≠ 0) :
    (∀ q v, refs (entry s₁.mach.mem) own₁ ((s₁.proc i).newtable, v) = some q →
      ∀ r v', refs (entry s₁.mach.mem) own₁ (r, v') = some q → r = (s₁.proc i).newtable) ∧
    ∀ r, own r = .free → own₁ r = .root true → r = (s₁.proc i).newtable := by
  constructor
  · intro q v href r v' href'
    obtain ⟨-, hv, hval, -⟩ := refs_eq_some.mp href
    obtain ⟨huser, hw⟩ := hf.inv.image i hnew v hv hval
    have hone := hf.inv.mem.sharing.sole _ q href huser hw
    exact congrArg Prod.fst (unique_of_refCount_eq_one hone href' href)
  · intro r hfree hr
    obtain ⟨h0, k, hk⟩ := (hf.inv.root r).mp hr
    rw [Sys.inventory_table] at hk
    by_cases hki : k = .image i
    · rw [← hk, hki]
      rfl
    · have htab : s₁.table k = s.table k := by
        rcases k with j | j
        · by_cases hj : j = i
          · subst hj
            simp only [Sys.table]
            rw [hf.proc]
          · simp only [Sys.table, hf.other hj]
        · have hj : j ≠ i := fun heq => hki (by rw [heq])
          simp only [Sys.table, hf.other hj]
      rw [htab] at hk
      rw [← hk] at h0 hfree
      exact absurd hfree (h.table_used h0)

theorem Loaded.switched {s' u : Sys} {data : List UInt8} {argc : ℕ} {own₂ own₃ : ℕ → Owner}
    (h : SysInv s.mach s.inventory own) (hc : Caller s i) (hidle : (s.proc i).inExec = false)
    (hl : Loaded {p | own p = .free} s own i s' data argc u own₂)
    (hinv : SysInv t.mach t.inventory own₃)
    (hk : Keeps ∅ {pa | pa ∈ (u.proc i).argv} u.mach own₂ t.mach own₃)
    (ht : t = (u.setMach t.mach).setProc i { u.proc i with inExec := false, argv := [] }) :
    ∃ m₁ own₁ X, Switched s own i m₁ own₁ X t own₃ := by
  obtain ⟨elf, s₂, s₁, own₁, V, sp, t₁, -, -, hnew₂, hf, hb, hcom, -⟩ := hl
  obtain ⟨hargv, hnew, hsz⟩ := (hc.ok i).idle hidle
  have hnew₁ : (s₁.proc i).newtable ≠ 0 := by rw [hb.table]; exact hnew₂
  have hui : u.proc i = { s₁.proc i with
      pagetable := (s₁.proc i).newtable, sz := (s₁.proc i).newsz, newtable := 0, newsz := 0 } := by
    conv_lhs => rw [hcom.eq]
    exact setProc_self
  have hti : t.proc i = { u.proc i with inExec := false, argv := [] } := by
    conv_lhs => rw [ht]
    exact setProc_self
  have htable : (t.proc i).pagetable = (s₁.proc i).newtable := by rw [hti, hui]
  have hold : (s₁.proc i).pagetable = (s.proc i).pagetable := by rw [hf.proc]
  have htf : (s₁.proc i).trapframe = (s.proc i).trapframe := by rw [hf.proc]
  have hargs : (u.proc i).argv = (s₁.proc i).argv := by rw [hui]
  have hgone : own₂ (s.proc i).pagetable = .free := by
    rw [← hold]
    exact hcom.freed
  obtain ⟨halone, hroots⟩ := hf.image_alone h hnew₁
  refine ⟨t₁.mach, own₁, {(s.proc i).trapframe} ∪ {pa | pa ∈ (s₁.proc i).argv}, h, ?_,
    hb.effect.inv, ?_, hinv, ?_, ?_, ?_, ?_, ?_, ?_⟩
  · refine hf.keeps.trans (hb.effect.keeps.weaken ?_ ?_ (Set.empty_subset _))
    all_goals
      rintro q rfl
      exact hf.table hnew₁
  · rw [← hold, ← htf, ← hargs]
    exact (hcom.keeps.weaken le_rfl le_rfl Set.subset_union_left).trans
      (hk.weaken (Set.empty_subset _) (Set.empty_subset _) Set.subset_union_right)
  · apply hk.free_stays hcom.inv.mem hinv.mem hgone
    intro hin
    have hheld := (hcom.inv.held _ (.arg i)).mpr
      ⟨fun h0 => (hcom.inv.argv i).2 (h0 ▸ hin), hin⟩
    rw [hgone] at hheld
    cases hheld
  · rintro q (rfl | hin)
    · left
      rw [← htf]
      apply hf.inv.trapframe_held
      rw [htf]
      exact hc.used.2.2
    · exact Or.inr ((hf.inv.held q (.arg i)).mpr ⟨fun h0 => (hf.inv.argv i).2 (h0 ▸ hin), hin⟩)
  · rw [htable]
    exact hf.table hnew₁
  · rw [htable, hb.refs_eq]
    exact halone
  · rw [htable]
    exact hroots
  · rw [hti, hui]
    conv_lhs => rw [ht, hui, hcom.eq, hf.proc, hf.procs]
    simp [Sys.setProc, Sys.setMach, hargv, hnew, hsz, hidle]

end switch

/-- In every state that the system reaches, whatever registers the process has and whatever files
there are: `exec` stops no other way
than with a result, ends every operation that it began on the log, and gives back its reference to
the inode. If it fails, nothing has changed; if it succeeds, what belonged to the old image alone is
free, and so are all pages it took that are not part of the new image. -/
theorem exec_all_or_nothing [Image] (mem : ℕ → Buf) (ops : List Op) :
    wp (do boot; runOps ops) InitExits (Sys.power mem) fun _ s =>
      ∀ i regs, Running (s.proc i) → wp (uservec i regs) NoPanic s fun _ t =>
        ∀ w files, w.sys = t → w.locked = false → wp (sysExec i files) NoPanic w fun r w' =>
          w'.outstanding = w.outstanding ∧ w'.ref = w.ref ∧ w'.locked = false ∧
          (r = none → ExecUndone t w'.sys ∧ w'.name = w.name) ∧
          (r ≠ none → Replaced t i w'.sys) := by
  apply wp_system
  rintro outs s hs - i regs hrun₀
  apply wp_mono (wp_uservec hs hrun₀ regs)
  rintro _ t ⟨⟨⟨own, h⟩, hok⟩, ht, -⟩ w files rfl hlock
  have hrun : Running (w.sys.proc i) := by
    rw [ht]
    exact hrun₀
  obtain ⟨hargv, hnew, hsz⟩ := (hok i).idle hrun.2
  have hc : Caller w.sys i := ⟨hok, hrun.1⟩
  have hstart : Framed {p | own p = .free} w.sys own i w.sys own := Framed.start h ⟨hargv, hnew⟩
  apply wp_mono (hstart.wp_sysExec (roomy_free h.mem) hc hrun.2 hargv hnew hsz hlock)
  rintro r w' ⟨hout, href, hunlock, hfail, hdone⟩
  refine ⟨hout, href, hunlock, ?_, ?_⟩
  · intro hnone
    obtain ⟨hname, heq, own', hf⟩ := hfail hnone
    exact ⟨hf.undone h heq, hname⟩
  · intro hsome
    obtain ⟨argc, hargc⟩ := Option.ne_none_iff_exists'.mp hsome
    obtain ⟨path, data, s', args, u, own₂, own₃, -, -, -, -, hl, hinv, hk, ht, -⟩ := hdone argc hargc
    obtain ⟨m₁, own₁, X, hsw⟩ := hl.switched h hc hrun.2 hinv hk ht
    exact hsw.replaced hc.used.2.1

end Xv6
