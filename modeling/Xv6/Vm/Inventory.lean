import Xv6.Vm.TableSpec

/-! The pages that the process table, the pipes and the kernel page table refer to, and the
invariant that ties them to the memory system. A change of the system is described by the
tables and the pages it touches; everything else carries over by one lemma. -/
namespace Xv6
open Bytes Program RefCount

/-- The page tables of processes: the one in use, and the one that `exec` is building. -/
inductive TableKey where
  | main (i : ℕ)
  | image (i : ℕ)
  deriving DecidableEq, Repr

def TableKey.proc : TableKey → ℕ
  | .main i => i
  | .image i => i

/-- What the kernel holds on to, by address; 0 stands for none. -/
@[ext] structure Inventory where
  table : TableKey → ℕ
  size : TableKey → ℕ
  trapframe : ℕ → ℕ
  argv : ℕ → List ℕ
  pipes : List ℕ
  kernel : ℕ

/-- The page of a kernel stack, found in the kernel page table. -/
def kstackPage (m : Machine) (kernel i : ℕ) : ℕ :=
  pte2pa (leafAt (entry m.mem) kernel (kstackVa i / pgsize))

/-- The kernel holds the page `p` in the role `τ`. -/
def Inventory.Holds (v : Inventory) (m : Machine) (p : ℕ) : Tag → Prop
  | .temp => False
  | .trapframe i => v.trapframe i = p
  | .kstack i => i < nproc ∧ kstackPage m v.kernel i = p
  | .pipe => p ∈ v.pipes
  | .arg i => p ∈ v.argv i

section system
variable [Image]

/-- The memory system and the inventory agree, with `own` as the owner of each page. -/
structure SysInv (m : Machine) (v : Inventory) (own : ℕ → Owner) : Prop where
  mem : MemInv m own
  held : ∀ p τ, own p = .held τ ↔ p ≠ 0 ∧ v.Holds m p τ
  root : ∀ r, own r = .root true ↔ r ≠ 0 ∧ ∃ k, v.table k = r
  inj : ∀ k k', v.table k ≠ 0 → v.table k = v.table k' → k = k'
  space : ∀ k, v.table k ≠ 0 → v.size k ≤ 2 ^ 27 ∧
    AddrSpace m (v.table k) (npages (v.size k)) (v.trapframe k.proc)
  image : ∀ i, v.table (.image i) ≠ 0 → Unshared m (v.table (.image i))
  kernel : ∀ r, own r = .root false ↔ r = v.kernel
  argv : ∀ i, (v.argv i).Nodup ∧ 0 ∉ v.argv i
  pipes : v.pipes.Nodup ∧ 0 ∉ v.pipes

/-- The user memory behind a page table. -/
def spaceOf (m : Machine) (r : ℕ) : Space := fun v =>
  if r ≠ 0 ∧ v < userPages then view m r v else none

variable {m m' : Machine} {v v' : Inventory} {own own' : ℕ → Owner} {T R X : Set ℕ}

section
variable (h : SysInv m v own)
include h

variable {k : TableKey}

theorem SysInv.root_table (hk : v.table k ≠ 0) : own (v.table k) = .root true :=
  (h.root _).mpr ⟨hk, k, rfl⟩

variable {p : ℕ}

theorem SysInv.nonzero (hp : own p ≠ .outside) : p ≠ 0 := by
  have hb := (h.mem.tree.page p hp).kernbase_le
  simp only [kernbase] at hb
  omega

omit h in
theorem AddrSpace.keeps {r n tf : ℕ} (h : AddrSpace m r n tf)
    (hk : KeepsBut T R X m own m' own') (hr : r ∉ R) (hroot : own r = .root true) :
    AddrSpace m' r n tf where
  maps := fun w hw => by
    rw [hk.view_eq hr hroot hw]
    exact h.maps w hw
  trapframe := (hk.leaf r true _ hr hroot).trans h.trapframe
  trampoline := (hk.leaf r true _ hr hroot).trans h.trampoline

omit h in
omit [Image] in
theorem Unshared.keeps {r : ℕ} (h : Unshared m r) (hk : KeepsBut T R X m own m' own') (hr : r ∉ R)
    (hroot : own r = .root true) : Unshared m' r := by
  intro w hw
  rw [hk.leaf r true w hr hroot]
  exact h w hw

theorem SysInv.kernel_notMem (hR : ∀ r ∈ R, own r ≠ .root false) :
    v.kernel ∉ R := fun hin => hR _ hin ((h.kernel _).mpr rfl)

/-- Roles do not depend on the tables of processes. -/
theorem SysInv.holds_keeps (hk : KeepsBut T R X m own m' own') (hR : v.kernel ∉ R) (p : ℕ)
    (τ : Tag) : v.Holds m' p τ ↔ v.Holds m p τ := by
  cases τ with
  | kstack i =>
    simp only [Inventory.Holds, kstackPage, hk.leaf _ false _ hR ((h.kernel _).mpr rfl)]
  | _ => rfl

/-- A page has one role. -/
theorem SysInv.holds_unique {τ τ' : Tag} (h0 : p ≠ 0) (h1 : v.Holds m p τ)
    (h2 : v.Holds m p τ') : τ = τ' := by
  have hp := (h.held p τ).mpr ⟨h0, h1⟩
  rw [(h.held p τ').mpr ⟨h0, h2⟩] at hp
  injection hp with hp
  exact hp.symm

/-- The inventory tells which pages are roots. -/
theorem SysInv.root_iff (h' : SysInv m' v own') (r : ℕ) (u : Bool) :
    own' r = .root u ↔ own r = .root u := by
  cases u with
  | false => rw [h'.kernel, h.kernel]
  | true => rw [h'.root, h.root]

/-- With the same inventory before and after, only tables and pages that are in it can have
changed. -/
theorem SysInv.settle (h' : SysInv m' v own') (T' R' : Set ℕ) (hk : KeepsBut T R X m own m' own')
    (hkernel : v.kernel ∉ T ∧ v.kernel ∉ R)
    (hT : ∀ k, v.table k ≠ 0 → v.table k ∈ T → v.table k ∈ T')
    (hR : ∀ k, v.table k ≠ 0 → v.table k ∈ R → v.table k ∈ R')
    (hX : ∀ p ∈ X, ∀ τ, own p ≠ .held τ) : KeepsBut T' R' ∅ m own m' own' := by
  have hheld : ∀ p τ, own' p = .held τ ↔ own p = .held τ := by
    intro p τ
    rw [h'.held, h.held, h.holds_keeps hk hkernel.2]
  have hin : ∀ r u, own r = .root u → r ∉ R' → r ∉ R := by
    intro r u hr hr' hmem
    cases u with
    | false => exact hkernel.2 ((h.kernel r).mp hr ▸ hmem)
    | true =>
      obtain ⟨h0, k, rfl⟩ := (h.root r).mp hr
      exact hr' (hR k h0 hmem)
  have hmid : ∀ r u, own r = .root u → r ∉ T' → r ∉ T := by
    intro r u hr hr' hmem
    cases u with
    | false => exact hkernel.1 ((h.kernel r).mp hr ▸ hmem)
    | true =>
      obtain ⟨h0, k, rfl⟩ := (h.root r).mp hr
      exact hr' (hT k h0 hmem)
  constructor
  · exact fun r u _ => h.root_iff h' r u
  · exact fun p τ _ => hheld p τ
  · intro p r o hr ho
    constructor
    · rintro rfl
      obtain ⟨u, hu⟩ := h'.mem.tree.root_of_within ho
      exact (hk.inner p r _ (hmid r u ((h.root_iff h' r u).mp hu) hr) ho).mp rfl
    · rintro rfl
      obtain ⟨u, hu⟩ := h.mem.tree.root_of_within ho
      exact (hk.inner p r _ (hmid r u hu hr) ho).mpr rfl
  · intro r u w hr hu
    exact hk.leaf r u w (hin r u hu hr) hu
  · intro p τ _ hp
    exact hk.heldMem p τ (fun hmem => hX p hmem τ hp) hp
  · intro r w p hr hp
    exact hk.refMem r w p (hin r true (refs_eq_some.mp hp).1 hr) hp

/-- A change that touches the tables in `R` and the held pages in `X` needs to be checked for
these only. -/
theorem SysInv.change (hm : MemInv m' own') (hk : KeepsBut T R X m own m' own')
    (hkernel : v'.kernel = v.kernel) (hRfalse : ∀ r ∈ R, own r ≠ .root false ∧ own' r ≠ .root false)
    (hXin : ∀ p ∈ X, ∀ τ, own' p = .held τ ↔ p ≠ 0 ∧ v'.Holds m' p τ)
    (hXout : ∀ p, p ∉ X → p ≠ 0 → ∀ τ, v'.Holds m' p τ ↔ v.Holds m' p τ)
    (hRin : ∀ r ∈ R, own' r = .root true ↔ r ≠ 0 ∧ ∃ k, v'.table k = r)
    (hRout : ∀ r, r ∉ R → r ≠ 0 → ∀ k, v'.table k = r ↔ v.table k = r)
    (hinj : ∀ k k', v'.table k ∈ R → v'.table k ≠ 0 → v'.table k = v'.table k' → k = k')
    (hspace : ∀ k, v'.table k ∈ R → v'.table k ≠ 0 → v'.size k ≤ 2 ^ 27 ∧
      AddrSpace m' (v'.table k) (npages (v'.size k)) (v'.trapframe k.proc))
    (hsame : ∀ k, v'.table k ∉ R → v'.table k ≠ 0 → v'.size k = v.size k ∧
      v'.trapframe k.proc = v.trapframe k.proc)
    (himage : ∀ i, v'.table (.image i) ∈ R → v'.table (.image i) ≠ 0 →
      Unshared m' (v'.table (.image i))) (hargv : ∀ i, (v'.argv i).Nodup ∧ 0 ∉ v'.argv i)
    (hpipes : v'.pipes.Nodup ∧ 0 ∉ v'.pipes) : SysInv m' v' own' where
  mem := hm
  held := by
    intro p τ
    by_cases hp : p ∈ X
    · exact hXin p hp τ
    · rw [hk.held p τ hp, h.held p τ]
      apply and_congr_right
      intro h0
      rw [hXout p hp h0 τ]
      -- only the role of a kernel stack depends on memory
      exact (h.holds_keeps hk (h.kernel_notMem fun r hr => (hRfalse r hr).1) p τ).symm
  root := by
    intro r
    by_cases hr : r ∈ R
    · exact hRin r hr
    · rw [hk.root r true hr, h.root r]
      apply and_congr_right
      intro h0
      exact exists_congr fun k => (hRout r hr h0 k).symm
  inj := by
    intro k k' h0 heq
    by_cases hr : v'.table k ∈ R
    · exact hinj k k' hr h0 heq
    · have h1 := (hRout _ hr h0 k).mp rfl
      have h2 := (hRout _ hr h0 k').mp heq.symm
      exact h.inj k k' (by rw [h1]; exact h0) (h1.trans h2.symm)
  space := by
    intro k h0
    by_cases hr : v'.table k ∈ R
    · exact hspace k hr h0
    · have h1 := (hRout _ hr h0 k).mp rfl
      obtain ⟨hsz, htf⟩ := hsame k hr h0
      rw [hsz, htf, ← h1]
      rw [← h1] at hr h0
      obtain ⟨hle, hs⟩ := h.space k h0
      exact ⟨hle, hs.keeps hk hr (h.root_table h0)⟩
  image := by
    intro i h0
    by_cases hr : v'.table (.image i) ∈ R
    · exact himage i hr h0
    · have h1 := (hRout _ hr h0 (.image i)).mp rfl
      rw [← h1] at hr h0 ⊢
      exact (h.image i h0).keeps hk hr (h.root_table h0)
  kernel := by
    intro r
    rw [hkernel, ← h.kernel r]
    by_cases hr : r ∈ R
    · obtain ⟨h1, h2⟩ := hRfalse r hr
      simp [h1, h2]
    · exact hk.root r false hr
  argv := hargv
  pipes := hpipes

/-- The user memory of the tables that are not touched. -/
theorem SysInv.space_eq (hk : KeepsBut T R X m own m' own')
    (hr : v.table k ∉ R) : spaceOf m' (v.table k) = spaceOf m (v.table k) := by
  funext w
  unfold spaceOf
  by_cases hc : v.table k ≠ 0 ∧ w < userPages
  · rw [if_pos hc, if_pos hc, hk.view_eq hr (h.root_table hc.1) hc.2]
  · rw [if_neg hc, if_neg hc]

/-- A space cut to the addresses of user memory. -/
def clip (V : Space) : Space := fun w => if w < userPages then V w else none

omit h in
theorem Effect.spaceOf_eq {r : ℕ} {V : Space} (he : Effect r m own m' own' V) (hr : r ≠ 0) :
    spaceOf m' r = clip V := by
  funext w
  unfold spaceOf clip
  by_cases hw : w < userPages
  · rw [if_pos ⟨hr, hw⟩, if_pos hw, he.view w hw]
  · rw [if_neg (by tauto), if_neg hw]

/-- Nothing that the inventory names has changed. -/
theorem SysInv.quiet (hm : MemInv m' own') (hk : Keeps ∅ ∅ m own m' own') : SysInv m' v own' :=
  h.change hm hk rfl (by simp) (by simp) (fun _ _ _ _ => Iff.rfl) (by simp)
    (fun _ _ _ _ => Iff.rfl) (by simp) (by simp) (fun _ _ _ => ⟨rfl, rfl⟩) (by simp) h.argv h.pipes

/-- One table has changed, and with it the size of its address space. -/
theorem SysInv.effect (hk0 : v.table k ≠ 0) {V : Space} (he : Effect (v.table k) m own m' own' V)
    {n : ℕ} (hn : n ≤ 2 ^ 27) (hV : ∀ w, w < userPages → (V w ≠ none ↔ w < npages n))
    (hun : ∀ i, k = .image i → Unshared m' (v.table k)) :
    SysInv m' { v with size := Function.update v.size k n } own' := by
  have hr := h.root_table hk0
  have hother : ∀ k', v.table k' = v.table k → k' = k := fun k' heq =>
    h.inj k' k (by rw [heq]; exact hk0) heq
  apply h.change he.inv he.keeps
  · rfl
  · rintro r rfl
    simp [hr, he.root]
  · simp
  · intro p _ _ τ
    cases τ <;> rfl
  · rintro r rfl
    simp only [he.root, true_iff]
    exact ⟨hk0, k, rfl⟩
  · intro r _ _ k'
    rfl
  · intro k₁ k₂ h1 h0 heq
    exact h.inj k₁ k₂ h0 heq
  · intro k' h1 _
    obtain rfl := hother k' h1
    have hs := (h.space k' hk0).2
    have hup := userPages_eq
    refine ⟨by simpa using hn, ⟨?_, ?_, ?_⟩⟩
    · intro w hw
      rw [he.view w hw]
      simpa using hV w hw
    · exact (he.high _ le_rfl (by omega)).trans hs.trapframe
    · exact (he.high _ (by omega) (by omega)).trans hs.trampoline
  · intro k' h1 _
    have hne : k' ≠ k := by
      rintro rfl
      exact h1 rfl
    exact ⟨Function.update_of_ne hne _ _, rfl⟩
  · intro i h1 _
    obtain rfl := hother _ h1
    exact hun i rfl
  · exact h.argv
  · exact h.pipes

/-- A page that is held by nobody yet gets the role `τ` in the new inventory. -/
theorem SysInv.hold {τ : Tag} (hp : ∀ τ', own p ≠ .held τ')
    (hm : MemInv m' (Function.update own p (.held τ)))
    (hk : Keeps ∅ {p} m own m' (Function.update own p (.held τ))) (htable : v'.table = v.table)
    (hsize : v'.size = v.size) (hkernel : v'.kernel = v.kernel)
    (htf : ∀ k, v.table k ≠ 0 → v'.trapframe k.proc = v.trapframe k.proc)
    (hholds : ∀ q τ', q ≠ 0 → (v'.Holds m' q τ' ↔ v.Holds m' q τ' ∨ (q = p ∧ τ' = τ)))
    (hargv : ∀ i, (v'.argv i).Nodup ∧ 0 ∉ v'.argv i) (hpipes : v'.pipes.Nodup ∧ 0 ∉ v'.pipes) :
    SysInv m' v' (Function.update own p (.held τ)) := by
  have hp0 : p ≠ 0 := by
    have hb := (hm.tree.page p (by simp)).kernbase_le
    simp only [kernbase] at hb
    omega
  apply h.change hm hk hkernel (by simp)
  · rintro q rfl τ'
    have hno : ¬v.Holds m' q τ' := by
      intro hv
      apply hp τ'
      rw [h.held]
      exact ⟨hp0, (h.holds_keeps hk (Set.notMem_empty _) q τ').mp hv⟩
    rw [hholds q τ' hp0]
    simp [hno, hp0, eq_comm]
  · intro q hq h0 τ'
    rw [hholds q τ' h0]
    have hne : q ≠ p := by simpa using hq
    simp [hne]
  · simp
  · intro r _ _ k
    rw [htable]
  · simp
  · simp
  · intro k _ h0
    rw [htable] at h0
    exact ⟨by rw [hsize], htf k h0⟩
  · simp
  · exact hargv
  · exact hpipes

/-- A held page loses its role and becomes free. -/
theorem SysInv.release {τ : Tag} (hp : own p = .held τ)
    (hm : MemInv m' (Function.update own p .free))
    (hk : Keeps ∅ {p} m own m' (Function.update own p .free)) (htable : v'.table = v.table)
    (hsize : v'.size = v.size) (hkernel : v'.kernel = v.kernel)
    (htf : ∀ k, v.table k ≠ 0 → v'.trapframe k.proc = v.trapframe k.proc)
    (hholds : ∀ q τ', q ≠ 0 → (v'.Holds m' q τ' ↔ v.Holds m' q τ' ∧ q ≠ p))
    (hargv : ∀ i, (v'.argv i).Nodup ∧ 0 ∉ v'.argv i) (hpipes : v'.pipes.Nodup ∧ 0 ∉ v'.pipes) :
    SysInv m' v' (Function.update own p .free) := by
  apply h.change hm hk hkernel (by simp)
  · rintro q rfl τ'
    simp only [Function.update_self, reduceCtorEq, false_iff, not_and]
    intro h0
    rw [hholds q τ' h0]
    simp
  · intro q hq h0 τ'
    have hne : q ≠ p := by simpa using hq
    rw [hholds q τ' h0]
    simp [hne]
  · simp
  · intro r _ _ k
    rw [htable]
  · simp
  · simp
  · intro k _ h0
    rw [htable] at h0
    exact ⟨by rw [hsize], htf k h0⟩
  · simp
  · exact hargv
  · exact hpipes

/-- A held page has been written. -/
theorem SysInv.write {τ : Tag} (hp : own p = .held τ) (hm : MemInv m' own)
    (hk : Keeps ∅ {p} m own m' own) : SysInv m' v own := by
  apply h.change hm hk rfl (by simp)
  · rintro q rfl τ'
    rw [h.held, h.holds_keeps hk (Set.notMem_empty _)]
  · intro _ _ _ _
    rfl
  · simp
  · intro _ _ _ _
    rfl
  · simp
  · simp
  · intro _ _ _
    exact ⟨rfl, rfl⟩
  · simp
  · exact h.argv
  · exact h.pipes

/-- An empty address space is added under a free key. -/
theorem SysInv.newTable (hk0 : v.table k = 0) {r : ℕ} (hr : own r = .free) (hm : MemInv m' own')
    (hk : Keeps {r} ∅ m own m' own') (hr' : own' r = .root true)
    (hs : AddrSpace m' r 0 (v.trapframe k.proc)) :
    SysInv m' { v with
      table := Function.update v.table k r, size := Function.update v.size k 0 } own' := by
  have hr0 : r ≠ 0 := h.nonzero (by simp [hr])
  have hfresh : ∀ k', v.table k' ≠ r := by
    intro k' heq
    have := (h.root r).mpr ⟨hr0, k', heq⟩
    rw [hr] at this
    cases this
  have hkey : ∀ k', Function.update v.table k r k' = r ↔ k' = k := by
    intro k'
    by_cases hkk : k' = k
    · simp [hkk]
    · simp [hkk, hfresh k']
  apply h.change hm hk
  · rfl
  · rintro q rfl
    simp [hr, hr']
  · simp
  · intro p _ _ τ
    cases τ <;> rfl
  · rintro q rfl
    simp only [hr', true_iff]
    exact ⟨hr0, k, (hkey k).mpr rfl⟩
  · intro q hq h0 k'
    by_cases hkk : k' = k
    · subst hkk
      have hne : r ≠ q := fun heq => hq heq.symm
      simp [hne, hk0, h0.symm]
    · simp [hkk]
  · intro k₁ k₂ h1 _ heq
    rw [(hkey k₁).mp h1, (hkey k₂).mp (heq.symm.trans h1)]
  · intro k' h1 _
    obtain rfl := (hkey k').mp h1
    have hzero : npages 0 = 0 := by decide
    simpa [hzero] using hs
  · intro k' h1 _
    have hkk : k' ≠ k := fun heq => h1 ((hkey k').mpr heq)
    exact ⟨Function.update_of_ne hkk _ _, rfl⟩
  · intro i h1 _ w hw hval
    rw [h1] at hval
    have hsome : view m' r w ≠ none := by simp [view, hval]
    exact absurd ((hs.maps w hw).mp hsome) (Nat.not_lt_zero w)
  · exact h.argv
  · exact h.pipes

/-- A table is gone, and the held pages in `X` with it. -/
theorem SysInv.dropTable (hk0 : v.table k ≠ 0) (hm : MemInv m' own')
    (hk : Keeps {v.table k} X m own m' own') (hr' : own' (v.table k) = .free)
    (hX : ∀ p ∈ X, ∀ τ, own' p ≠ .held τ) (htable : v'.table = Function.update v.table k 0)
    (hkernel : v'.kernel = v.kernel) (hsize : ∀ k', k' ≠ k → v'.size k' = v.size k')
    (htf : ∀ k', k' ≠ k → v.table k' ≠ 0 → v'.trapframe k'.proc = v.trapframe k'.proc)
    (hholds : ∀ q τ, q ≠ 0 → (v'.Holds m' q τ ↔ v.Holds m' q τ ∧ q ∉ X))
    (hargv : ∀ i, (v'.argv i).Nodup ∧ 0 ∉ v'.argv i)
    (hpipes : v'.pipes.Nodup ∧ 0 ∉ v'.pipes) : SysInv m' v' own' := by
  have hr := h.root_table hk0
  have hgone : ∀ k', v'.table k' ≠ v.table k := by
    intro k' heq
    rw [htable] at heq
    by_cases hkk : k' = k
    · simp [hkk, hk0.symm] at heq
    · rw [Function.update_of_ne hkk] at heq
      exact hkk (h.inj k' k (by rw [heq]; exact hk0) heq)
  apply h.change hm hk hkernel
  · rintro q rfl
    simp [hr, hr']
  · intro q hq τ
    simp only [hX q hq τ, false_iff, not_and]
    intro h0
    rw [hholds q τ h0]
    simp [hq]
  · intro q hq h0 τ
    rw [hholds q τ h0]
    simp [hq]
  · rintro q rfl
    simp only [hr', reduceCtorEq, false_iff, not_and, not_exists]
    intro _ k'
    exact hgone k'
  · intro q hq h0 k'
    rw [htable]
    by_cases hkk : k' = k
    · subst hkk
      have hne : v.table k' ≠ q := fun heq => hq heq.symm
      simp [hne, h0.symm]
    · simp [hkk]
  · intro k' _ h1
    exact absurd h1 (hgone k')
  · intro k' h1
    exact absurd h1 (hgone k')
  · intro k' _ h0
    have hkk : k' ≠ k := by
      rintro rfl
      rw [htable, Function.update_self] at h0
      exact h0 rfl
    rw [htable, Function.update_of_ne hkk] at h0
    exact ⟨hsize k' hkk, htf k' hkk h0⟩
  · intro i h1
    exact absurd h1 (hgone (.image i))
  · exact hargv
  · exact hpipes

end

end system
end Xv6
