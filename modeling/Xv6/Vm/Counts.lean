import Xv6.Vm.Isolation

/-! What holds of memory between operations: reference counts are exact, shared pages are not
writable, and address spaces have their shape. -/
namespace Xv6
open Bytes Program RefCount

/-- The page table behind a key. -/
def Sys.table (s : Sys) : TableKey → ℕ
  | .main i => (s.proc i).pagetable
  | .image i => (s.proc i).newtable

/-- The size of the address space behind a key. -/
def Sys.size (s : Sys) : TableKey → ℕ
  | .main i => (s.proc i).sz
  | .image i => (s.proc i).newsz

/-- The entry for a page number in the table behind a key. -/
def Sys.pte (s : Sys) (k : TableKey) (v : ℕ) : Pte := leafAt (entry s.mach.mem) (s.table k) v

/-- The physical page of a freeable entry: one below the size of its address space. -/
def Sys.leafRef (s : Sys) (k : TableKey × ℕ) : Option ℕ :=
  if s.table k.1 ≠ 0 ∧ k.2 < npages (s.size k.1) ∧ valid (s.pte k.1 k.2) = true then
    some (pte2pa (s.pte k.1 k.2))
  else none

/-- The page is the root of a page table. -/
def Sys.IsRoot (s : Sys) (p : ℕ) : Prop := p = s.kernelPagetable ∨ p ≠ 0 ∧ ∃ k, s.table k = p

/-- The page is an inner page of a page table. -/
def Sys.IsInner (s : Sys) (p : ℕ) : Prop :=
  ∃ r i, s.IsRoot r ∧ i < 512 ∧ valid (entry s.mach.mem r i) = true ∧
    (pte2pa (entry s.mach.mem r i) = p ∨ ∃ j, j < 512 ∧
      valid (entry s.mach.mem (pte2pa (entry s.mach.mem r i)) j) = true ∧
      pte2pa (entry s.mach.mem (pte2pa (entry s.mach.mem r i)) j) = p)

/-- Pages with one reference that is not an entry: page-table pages, trapframes, kernel stacks,
pipes and argument pages. -/
def Sys.Special (s : Sys) (p : ℕ) : Prop :=
  s.IsRoot p ∨ s.IsInner p ∨ (∃ i, (s.proc i).trapframe = p) ∨
    (∃ i, i < nproc ∧ kstackPage s.mach s.kernelPagetable i = p) ∨
    (∃ pi ∈ s.pipes, pi.page = p) ∨ ∃ i, p ∈ (s.proc i).argv

section facts
variable [Image] {s : Sys} {own : ℕ → Owner}

variable {k : TableKey}

section
variable (h : SysInv s.mach s.inventory own)
include h

theorem SysInv.isRoot {p : ℕ} : s.IsRoot p ↔ ∃ u, own p = .root u := by
  have hkey : (∃ k, s.table k = p) ↔ ∃ k, s.inventory.table k = p := by
    constructor <;> rintro ⟨k, rfl⟩ <;> exact ⟨k, by cases k <;> rfl⟩
  rw [Sys.IsRoot, hkey, ← h.root]
  constructor
  · rintro (rfl | htrue)
    · exact ⟨false, (h.kernel _).mpr rfl⟩
    · exact ⟨true, htrue⟩
  · rintro ⟨u, hu⟩
    cases u with
    | false => exact Or.inl ((h.kernel p).mp hu)
    | true => exact Or.inr hu

theorem SysInv.isInner {p : ℕ} :
    s.IsInner p ↔ (∃ r i, own p = .mid r i) ∨ ∃ r i j, own p = .low r i j := by
  have htree := h.mem.tree
  have hpa : ∀ q, own q ≠ .outside → pte2pa (link q) = q := fun q hq =>
    pte2pa_link (htree.page q hq)
  constructor
  · rintro ⟨r, i, hr, hi, hval, hp⟩
    obtain ⟨u, hu⟩ := h.isRoot.mp hr
    obtain h0 | ⟨q, hq, hl⟩ := htree.rootEntry r u i hu hi
    · rw [h0] at hval
      cases hval
    rw [hl, hpa q (by simp [hq])] at hp
    rcases hp with rfl | ⟨j, hj, hval', hp⟩
    · exact Or.inl ⟨r, i, hq⟩
    · obtain h0 | ⟨q', hq', hl'⟩ := htree.midEntry q r i j hq hj
      · rw [h0] at hval'
        cases hval'
      · rw [hl', hpa q' (by simp [hq'])] at hp
        subst hp
        exact Or.inr ⟨r, i, j, hq'⟩
  · rintro (⟨r, i, hp⟩ | ⟨r, i, j, hp⟩)
    · obtain ⟨hr, hi, hl⟩ := htree.midLink p r i hp
      refine ⟨r, i, h.isRoot.mpr hr, by omega, by simp [hl], Or.inl ?_⟩
      rw [hl, hpa p (by simp [hp])]
    · obtain ⟨hj, q, hq, hl⟩ := htree.lowLink p r i j hp
      obtain ⟨hr, hi, hl'⟩ := htree.midLink q r i hq
      have hpq : pte2pa (entry s.mach.mem r i) = q := by rw [hl', hpa q (by simp [hq])]
      refine ⟨r, i, h.isRoot.mpr hr, by omega, by simp [hl'], Or.inr ⟨j, hj, ?_, ?_⟩⟩
      · simp [hpq, hl]
      · rw [hpq, hl, hpa p (by simp [hp])]

/-- A page is special exactly when its owner holds it alone. -/
theorem SysInv.special {p : ℕ} (hp : p ≠ 0) : s.Special p ↔ (own p).single = true := by
  have hheld : (∃ τ, own p = .held τ) ↔ (∃ i, (s.proc i).trapframe = p) ∨
      (∃ i, i < nproc ∧ kstackPage s.mach s.kernelPagetable i = p) ∨
      (∃ pi ∈ s.pipes, pi.page = p) ∨ ∃ i, p ∈ (s.proc i).argv := by
    simp only [h.held, hp, ne_eq, not_false_eq_true, true_and]
    constructor
    · rintro ⟨τ, hτ⟩
      cases τ with
      | temp => cases hτ
      | trapframe i => exact Or.inl ⟨i, hτ⟩
      | kstack i => exact Or.inr (Or.inl ⟨i, hτ⟩)
      | pipe => exact Or.inr (Or.inr (Or.inl (List.mem_map.mp hτ)))
      | arg i => exact Or.inr (Or.inr (Or.inr ⟨i, hτ⟩))
    · rintro (⟨i, hi⟩ | ⟨i, hi⟩ | hpi | ⟨i, hi⟩)
      · exact ⟨.trapframe i, hi⟩
      · exact ⟨.kstack i, hi⟩
      · exact ⟨.pipe, List.mem_map.mpr hpi⟩
      · exact ⟨.arg i, hi⟩
  rw [Sys.Special, h.isRoot, h.isInner, ← hheld]
  cases hown : own p <;> simp [Owner.single]

omit h in
omit [Image] in
theorem Sys.inventory_table (k : TableKey) : s.inventory.table k = s.table k := by
  cases k <;> rfl

omit h in
omit [Image] in
theorem Sys.inventory_size (k : TableKey) : s.inventory.size k = s.size k := by
  cases k <;> rfl

/-- The valid entries of an address space are those below its size. -/
theorem SysInv.valid_iff (hk : s.table k ≠ 0) {v : ℕ}
    (hv : v < userPages) : valid (s.pte k v) = true ↔ v < npages (s.size k) := by
  have hs := (h.space k (by rwa [Sys.inventory_table])).2.maps v hv
  rw [Sys.inventory_table, Sys.inventory_size, ne_eq, view_eq_none_iff] at hs
  rw [← hs, Sys.pte]
  simp

theorem SysInv.npages_le (hk : s.table k ≠ 0) : npages (s.size k) ≤ userPages := by
  have hsz := (h.space k (by rwa [Sys.inventory_table])).1
  rw [Sys.inventory_size] at hsz
  exact npages_le_userPages hsz

/-- The references by key are the references by root. -/
theorem SysInv.leafRef (hk : s.table k ≠ 0)
    (v : ℕ) : s.leafRef (k, v) = refs (entry s.mach.mem) own (s.table k, v) := by
  have hroot : own (s.table k) = .root true := by
    rw [← Sys.inventory_table]
    exact h.root_table (by rwa [Sys.inventory_table])
  unfold Sys.leafRef refs
  have hle := h.npages_le hk
  by_cases hv : v < userPages ∧ valid (s.pte k v) = true
  · rw [if_pos ⟨hk, (h.valid_iff hk hv.1).mp hv.2, hv.2⟩, if_pos ⟨hroot, hv.1, hv.2⟩]
    rfl
  · rw [if_neg fun hc => hv ⟨lt_of_lt_of_le hc.2.1 hle, hc.2.2⟩, if_neg fun hc => hv hc.2]

/-- References by key and by root correspond to each other. -/
theorem SysInv.referrers_leafRef (p : ℕ) :
    Set.BijOn (fun x : TableKey × ℕ => (s.table x.1, x.2)) (referrers s.leafRef p)
      (referrers (refs (entry s.mach.mem) own) p) := by
  have hkey : ∀ {k v}, s.leafRef (k, v) = some p → s.table k ≠ 0 := by
    intro k v hkv
    by_contra h0
    rw [Sys.leafRef, if_neg fun hc => hc.1 h0] at hkv
    cases hkv
  refine ⟨?_, ?_, ?_⟩
  · rintro ⟨k, v⟩ hk
    exact (h.leafRef (hkey hk) v).symm.trans hk
  · rintro ⟨k, v⟩ hk ⟨k', v'⟩ _ heq
    obtain ⟨ht, hv⟩ := Prod.mk.inj heq
    have h0 := hkey hk
    simp only [← Sys.inventory_table] at h0 ht
    rw [h.inj k k' h0 ht, show v = v' from hv]
  · rintro ⟨r, v⟩ hr
    obtain ⟨h0, k, hk⟩ := (h.root r).mp (refs_eq_some.mp hr).1
    rw [Sys.inventory_table] at hk
    subst hk
    exact ⟨(k, v), (h.leafRef h0 v).trans hr, rfl⟩

theorem SysInv.refCount_leafRef (p : ℕ) :
    refCount s.leafRef p = refCount (refs (entry s.mach.mem) own) p := by
  have hb := h.referrers_leafRef p
  rw [refCount, refCount, ← hb.image_eq, hb.injOn.ncard_image]

theorem SysInv.finite_leafRef (p : ℕ) : (referrers s.leafRef p).Finite := by
  have hb := h.referrers_leafRef p
  apply Set.Finite.of_finite_image _ hb.injOn
  rw [hb.image_eq]
  apply h.mem.tree.finiteRefs.subset
  intro k hk
  rw [Set.mem_ofPred_eq, show refs (entry s.mach.mem) own k = some p from hk]
  simp

end

open Classical in
/-- In every state that the system reaches, the count of a page is the number of its references,
and the free list holds the pages without any. -/
theorem reference_counts_exact (mem : ℕ → Buf) (ops : List Op) :
    wp (do boot; runOps ops) InitExits (Sys.power mem) fun _ t =>
      (∀ p, Page p → (referrers t.leafRef p).Finite ∧
        t.mach.count (idx p) = refCount t.leafRef p + if t.Special p then 1 else 0) ∧
      t.mach.freelist.Nodup ∧
      ∀ p, p ∈ t.mach.freelist ↔ Page p ∧ t.mach.count (idx p) = 0 := by
  apply wp_system
  rintro outs t ⟨⟨own, h⟩, -⟩ -
  have halloc := h.mem.alloc
  have hcount : ∀ p, Page p → t.mach.count (idx p) =
      refCount t.leafRef p + if t.Special p then 1 else 0 := by
    intro p hp
    have hout := (halloc.managed p).mpr hp
    rw [h.refCount_leafRef, h.mem.exact, h.special (h.nonzero hout)]
    cases hown : own p with
    | outside => exact absurd hown hout
    | free => simp [Owner.single, halloc.zero p hown]
    | data => simp [Owner.single]
    | _ => simpa [Owner.single] using halloc.one p (by simp [hown, Owner.single])
  refine ⟨fun p hp => ⟨h.finite_leafRef p, hcount p hp⟩, halloc.nodup, fun p => ?_⟩
  rw [halloc.free]
  constructor
  · intro hp
    exact ⟨(halloc.managed p).mp (by simp [hp]), halloc.zero p hp⟩
  · rintro ⟨hp, h0⟩
    have hout := (halloc.managed p).mpr hp
    cases hown : own p with
    | outside => exact absurd hown hout
    | free => rfl
    | data =>
      have := halloc.pos p hown
      omega
    | _ =>
      have := halloc.one p (by simp [hown, Owner.single])
      omega

section
variable (h : SysInv s.mach s.inventory own)
include h

/-- The facts about the flags of an entry below the size of its address space. -/
theorem SysInv.refs_pte (hk : s.table k ≠ 0) {v : ℕ} (hv : v < npages (s.size k)) :
    refs (entry s.mach.mem) own (s.table k, v) = some (pte2pa (s.pte k v)) := by
  have hlt := lt_of_lt_of_le hv (h.npages_le hk)
  rw [← h.leafRef hk, Sys.leafRef, if_pos ⟨hk, hv, (h.valid_iff hk hlt).mpr hv⟩]

theorem SysInv.pte_flags (hk : s.table k ≠ 0) {v : ℕ} (hv : v < npages (s.size k))
    (hu : user (s.pte k v) = true) : writable (s.pte k v) = !cow (s.pte k v) := by
  have hflags := (h.mem.sharing.flags _ _ (h.refs_pte hk hv)).2 hu
  change writable (s.pte k v) = true ↔ cow (s.pte k v) = false at hflags
  cases hw : writable (s.pte k v) <;> cases hc : cow (s.pte k v) <;> simp_all

/-- A user entry that can be written is the only one for its page. -/
theorem SysInv.pte_sole (hk : s.table k ≠ 0) {v : ℕ} (hv : v < 2 ^ 26)
    (hval : valid (s.pte k v) = true) (hu : user (s.pte k v) = true)
    (hw : writable (s.pte k v) = true) : s.mach.count (idx (pte2pa (s.pte k v))) = 1 := by
  have hlt : v < userPages := by
    by_contra hge
    have hclosed := (h.space k (by rwa [Sys.inventory_table])).2.highClosed v (by omega) hv
    rw [Sys.inventory_table] at hclosed
    rw [Sys.pte, hclosed] at hu
    cases hu
  have href := h.refs_pte hk ((h.valid_iff hk hlt).mp hval)
  rw [h.mem.count_eq (h.mem.target href)]
  exact h.mem.sharing.sole _ _ href hu hw

/-- What a process finds in a page that it cannot access in user mode. -/
theorem SysInv.space_pte {i v : ℕ} (hi : (s.proc i).pagetable ≠ 0) (hv : v < npages (s.proc i).sz) :
    (s.abs.proc i).space v = some ⟨user (s.pte (.main i) v),
      s.mach.mem (pte2pa (s.pte (.main i) v))⟩ := by
  have hlt := lt_of_lt_of_le hv (h.npages_le (k := .main i) hi)
  have hval := (h.valid_iff (k := .main i) hi hlt).mpr hv
  change spaceOf s.mach (s.proc i).pagetable v = _
  rw [spaceOf, if_pos ⟨hi, hlt⟩, view]
  exact if_pos hval

end

/-- In every state that the system reaches, a user entry is either writable or copy-on-write; a
page with several references is not writable in user mode through any table; and a page without
user access, such as the stack guard, is not changed by stores or `copyout`. -/
theorem shared_pages_not_user_writable (mem : ℕ → Buf) (ops : List Op) :
    wp (do boot; runOps ops) InitExits (Sys.power mem) fun _ t =>
      (∀ k v, t.table k ≠ 0 → v < npages (t.size k) → user (t.pte k v) = true →
        writable (t.pte k v) = !cow (t.pte k v)) ∧
      (∀ k v, t.table k ≠ 0 → v < npages (t.size k) →
        1 < t.mach.count (idx (pte2pa (t.pte k v))) → ∀ k' v', t.table k' ≠ 0 → v' < 2 ^ 26 →
          valid (t.pte k' v') = true → pte2pa (t.pte k' v') = pte2pa (t.pte k v) →
          ¬(user (t.pte k' v') = true ∧ writable (t.pte k' v') = true)) ∧
      (∀ (op : Op) (i : ℕ), op.writer = some i → wp op.step InitExits t fun _ t' =>
        ∀ j v, (t.proc j).pagetable ≠ 0 → v < npages (t.proc j).sz →
          user (t.pte (.main j) v) = false → user (t'.pte (.main j) v) = false ∧
            t'.mach.mem (pte2pa (t'.pte (.main j) v)) = t.mach.mem (pte2pa (t.pte (.main j) v))) := by
  apply wp_system
  intro outs t ht _
  obtain ⟨⟨own, h⟩, -⟩ := id ht
  refine ⟨fun k v hk hv hu => h.pte_flags hk hv hu, ?_, ?_⟩
  · rintro k v - - hmany k' v' hk' hv' hval heq ⟨hu, hw⟩
    have hone := h.pte_sole hk' hv' hval hu hw
    rw [heq] at hone
    omega
  · intro op i hw
    apply wp_mono (wp_step ht op fun _ _ _ => initExits)
    rintro out t' ⟨ht', hstep⟩ j v hj hv hu
    have hkeep := hstep.write_closed hw (h.space_pte hj hv) hu
    change spaceOf t'.mach (t'.proc j).pagetable v = _ at hkeep
    rw [spaceOf] at hkeep
    split at hkeep
    · obtain ⟨-, huser, hmem⟩ := view_eq_some hkeep
      exact ⟨huser.trans hu, hmem⟩
    · cases hkeep

/-- In every state that the system reaches, an address space maps the pages below its size, the
trapframe and the trampoline, and different pages to different physical ones. -/
theorem address_space_shape (mem : ℕ → Buf) (ops : List Op) :
    wp (do boot; runOps ops) InitExits (Sys.power mem) fun _ t =>
      ∀ k, t.table k ≠ 0 →
        (∀ v, v < maxva / pgsize → (valid (t.pte k v) = true ↔ v * pgsize < pgroundup (t.size k) ∨
          v * pgsize = trapframeVa ∨ v * pgsize = trampolineVa)) ∧
        ∀ v v', v * pgsize < pgroundup (t.size k) → v' * pgsize < pgroundup (t.size k) →
          pte2pa (t.pte k v) = pte2pa (t.pte k v') → v = v' := by
  apply wp_system
  rintro outs t ⟨⟨own, h⟩, -⟩ - k hk
  obtain ⟨hsz, hspace⟩ := h.space k (by rwa [Sys.inventory_table])
  rw [Sys.inventory_size] at hsz
  rw [Sys.inventory_table] at hspace
  have hround : ∀ v, v * pgsize < pgroundup (t.size k) ↔ v < npages (t.size k) := by
    intro v
    rw [pgroundup_eq (by omega)]
    exact Nat.mul_lt_mul_right (by decide)
  have hle := h.npages_le hk
  have hup := userPages_eq
  simp only [hround]
  constructor
  · intro v hv
    rw [trapframeVa_eq, trampolineVa_eq, Nat.mul_right_cancel_iff (by decide),
      Nat.mul_right_cancel_iff (by decide)]
    have hv26 : v < 2 ^ 26 := hv
    by_cases hlt : v < userPages
    · rw [h.valid_iff hk hlt]
      omega
    · have hcases : v = userPages ∨ v = userPages + 1 := by omega
      rcases hcases with rfl | rfl
      · rw [Sys.pte, hspace.trapframe]
        simp [valid_trapframePte]
      · rw [Sys.pte, hspace.trampoline]
        simp [valid_trampolinePte]
  · intro v v' hv hv' heq
    have h1 := h.refs_pte hk hv
    have h2 := h.refs_pte hk hv'
    rw [← heq] at h2
    exact h.mem.sharing.inj _ _ _ _ h1 h2

end facts
end Xv6
