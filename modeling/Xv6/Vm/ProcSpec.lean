import Xv6.Vm.UserSpec

/-! `allocproc` and `freeproc`: entries of the process table with the pages that hang from
them. -/
namespace Xv6
open Bytes Program RefCount

section entries
variable {s : Sys} {m : Machine} {i : ℕ}

theorem absProc_default : absProc m {} = {} := by
  have hspace : spaceOf m 0 = fun _ => none := by
    funext w
    simp [spaceOf]
  simp [absProc, hspace]

/-- The inventory after the entry of a process that is not in `exec` has changed. -/
theorem inventory_main {p : Proc} (hidle : (s.proc i).argv = [] ∧ (s.proc i).newtable = 0 ∧
    (s.proc i).newsz = 0) (hp : p.argv = [] ∧ p.newtable = 0 ∧ p.newsz = 0) :
    (s.setProc i p).inventory = { s.inventory with
      table := Function.update s.inventory.table (.main i) p.pagetable
      size := Function.update s.inventory.size (.main i) p.sz
      trapframe := Function.update s.inventory.trapframe i p.trapframe } := by
  obtain ⟨h1, h2, h3⟩ := hidle
  obtain ⟨p1, p2, p3⟩ := hp
  rw [inventory_setProc, p1.trans h1.symm, p2.trans h2.symm, p3.trans h3.symm,
    update_table_image, update_size_image, update_argv]

/-- The entries of the table after one of them has changed. -/
theorem procOk_setProc {p : Proc} (hok : ∀ j, j ≠ i → ProcOk j (s.proc j)) (hp : ProcOk i p) :
    ∀ j, ProcOk j ((s.setProc i p).proc j) := by
  intro j
  by_cases hj : j = i
  · subst hj
    rwa [setProc_self]
  · rw [setProc_ne hj]
    exact hok j hj

theorem ProcOk.default : ProcOk i {} where
  unused := fun _ => rfl
  used := fun h => absurd rfl h
  settled := by simp
  execing := by simp
  idle := by simp

/-- The entry that `allocproc` fills. -/
def Proc.fresh (pid tf r : ℕ) : Proc :=
  { pid := pid, state := .used, trapframe := tf, pagetable := r }

/-- The inventory with a new process in the place of an unused entry. -/
theorem inventory_fresh (hi : s.proc i = {}) (pid tf r : ℕ) :
    ((s.setMach m).setProc i (Proc.fresh pid tf r)).inventory = { s.inventory with
      table := Function.update s.inventory.table (.main i) r
      size := Function.update s.inventory.size (.main i) 0
      trapframe := Function.update s.inventory.trapframe i tf } :=
  inventory_main (s := s.setMach m) (by simp [hi]) ⟨rfl, rfl, rfl⟩

/-- Without a page table only the trapframe is new. -/
theorem inventory_fresh_zero (hi : s.proc i = {}) (pid tf : ℕ) :
    ((s.setMach m).setProc i (Proc.fresh pid tf 0)).inventory = { s.inventory with
      trapframe := Function.update s.inventory.trapframe i tf } := by
  have e1 := update_table_main (s := s) (i := i)
  have e2 := update_size_main (s := s) (i := i)
  rw [hi] at e1 e2
  rw [inventory_fresh hi]
  simp only [e1, e2]

theorem find?_unused (hok : ∀ j, ProcOk j (s.proc j))
    (hf : (List.range nproc).find? (fun j => (s.proc j).state = .unused) = some i) :
    s.proc i = {} ∧ i < nproc := by
  have hst := List.find?_some hf
  have hmem := List.mem_of_find?_eq_some hf
  exact ⟨(hok i).unused (by simpa using hst), by simpa using hmem⟩

end entries

section procs
variable [Image] {s : Sys} {m : Machine} {own own' : ℕ → Owner} {E : Panic → Prop} {i : ℕ}

section
variable (h : SysInv s.mach s.inventory own)
include h

/-- A step that keeps the tables and argument pages of the other processes. -/
theorem SysInv.abs_setProc {T R X : Set ℕ} (hk : KeepsBut T R X s.mach own m own')
    (hR : ∀ k : TableKey, k.proc ≠ i → s.inventory.table k ∉ R)
    (hX : ∀ j, j ≠ i → ∀ pa ∈ (s.proc j).argv, pa ∉ X) (p : Proc) :
    ((s.setMach m).setProc i p).abs = s.abs.setProc i (absProc m p) := by
  ext j
  · by_cases hj : j = i
    · subst hj
      simp only [Sys.abs, Ref.setProc, setProc_self, Function.update_self, setProc_mach,
        setMach_mach]
    · have hother := h.absProc_eq hk (hR (.main j) hj) (hR (.image j) hj) (hX j hj)
      simp only [Sys.abs, Ref.setProc, setProc_ne hj, Function.update_of_ne hj, setMach_proc,
        setProc_mach, setMach_mach]
      exact hother
  · rfl
  · rfl

/-- The trapframe of a process and its place in the inventory. -/
theorem SysInv.trapframe_held
    (h0 : (s.proc i).trapframe ≠ 0) : own (s.proc i).trapframe = .held (.trapframe i) :=
  (h.held _ _).mpr ⟨h0, rfl⟩

theorem SysInv.argv_ne_trapframe {j : ℕ}
    (h0 : (s.proc i).trapframe ≠ 0) : ∀ pa ∈ (s.proc j).argv, pa ≠ (s.proc i).trapframe := by
  rintro pa hpa rfl
  have h1 : s.inventory.Holds s.mach (s.proc i).trapframe (.arg j) := hpa
  have h2 : s.inventory.Holds s.mach (s.proc i).trapframe (.trapframe i) := rfl
  cases h.holds_unique h0 h1 h2

/-- Roles once the trapframe of a process is gone. -/
theorem SysInv.holds_clear (h0 : (s.proc i).trapframe ≠ 0)
    (hm : ∀ q τ, s.inventory.Holds m q τ ↔ s.inventory.Holds s.mach q τ) {v' : Inventory}
    (htf : v'.trapframe = Function.update s.inventory.trapframe i 0)
    (hargv : v'.argv = s.inventory.argv) (hpipes : v'.pipes = s.inventory.pipes)
    (hkernel : v'.kernel = s.inventory.kernel) {q : ℕ} (hq : q ≠ 0) (τ : Tag) :
    v'.Holds m q τ ↔ s.inventory.Holds m q τ ∧ q ≠ (s.proc i).trapframe := by
  have hself : s.inventory.Holds s.mach (s.proc i).trapframe (.trapframe i) := rfl
  have hne : ∀ τ, τ ≠ .trapframe i → s.inventory.Holds m q τ → q ≠ (s.proc i).trapframe := by
    rintro τ hτ hh rfl
    exact hτ (h.holds_unique h0 ((hm _ _).mp hh) hself)
  cases τ with
  | temp => simp [Inventory.Holds]
  | trapframe j =>
    by_cases hj : j = i
    · subst hj
      simp only [Inventory.Holds, htf, Function.update_self]
      constructor
      · intro h1
        exact absurd h1.symm hq
      · rintro ⟨h1, h2⟩
        exact absurd h1.symm h2
    · simp only [Inventory.Holds, htf, Function.update_of_ne hj]
      exact (and_iff_left_of_imp (hne (.trapframe j) (by simpa using hj))).symm
  | kstack j =>
    simp only [Inventory.Holds, hkernel]
    exact (and_iff_left_of_imp (hne (.kstack j) (by simp))).symm
  | pipe =>
    simp only [Inventory.Holds, hpipes]
    exact (and_iff_left_of_imp (hne .pipe (by simp))).symm
  | arg j =>
    simp only [Inventory.Holds, hargv]
    exact (and_iff_left_of_imp (hne (.arg j) (by simp))).symm

/-- An entry of the process table is given back with its trapframe and its page table. -/
theorem wp_freeproc (hexec : (s.proc i).inExec = false)
    (hidle : (s.proc i).argv = [] ∧ (s.proc i).newtable = 0 ∧ (s.proc i).newsz = 0)
    (htab : (s.proc i).pagetable ≠ 0 → (s.proc i).trapframe ≠ 0)
    (hsz : (s.proc i).pagetable = 0 → (s.proc i).sz = 0) :
    wp (freeproc i) E s fun _ t => ∃ m own', t = (s.setMach m).setProc i {} ∧
      SysInv m t.inventory own' ∧ t.abs = s.abs.setProc i {} ∧
      Keeps {(s.proc i).pagetable} {(s.proc i).trapframe} s.mach own m own' := by
  have hinvent : ∀ m, ((s.setMach m).setProc i {}).inventory = { s.inventory with
      table := Function.update s.inventory.table (.main i) 0
      size := Function.update s.inventory.size (.main i) 0
      trapframe := Function.update s.inventory.trapframe i 0 } := fun m =>
    inventory_main (s := s.setMach m) hidle ⟨rfl, rfl, rfl⟩
  have hfinal : ∀ m m', (((s.setMach m).setProc i { s.proc i with trapframe := 0 }).setMach
      m').setProc i { s.proc i with
        pagetable := 0, trapframe := 0, sz := 0, pid := 0, parent := none, xstate := 0,
        state := .unused } = (s.setMach m').setProc i {} := by
    intro m m'
    simp [Sys.setProc, Sys.setMach, hexec, hidle]
  unfold freeproc
  simp only [wp_bind, wp_getProc, wp_mach, wp_setProc, setMach_proc, setProc_self, setMach_mach,
    setProc_mach]
  -- it is enough to show the invariant and the view for the cleared entry
  suffices hmain : wp (freeTrapframe (s.proc i).trapframe) E s.mach fun _ m =>
      wp (freePagetable (s.proc i).pagetable (s.proc i).sz) E m fun _ m' => ∃ own',
        SysInv m' ((s.setMach m').setProc i {}).inventory own' ∧
        ((s.setMach m').setProc i {}).abs = s.abs.setProc i {} ∧
        Keeps {(s.proc i).pagetable} {(s.proc i).trapframe} s.mach own m' own' by
    apply wp_mono hmain
    intro _ m hm
    apply wp_mono hm
    rintro _ m' ⟨own', h1, h2, h3⟩
    rw [hfinal m m']
    exact ⟨m', own', rfl, h1, h2, h3⟩
  simp only [hinvent]
  have htable : (s.proc i).pagetable = 0 →
      Function.update s.inventory.table (.main i) 0 = s.inventory.table ∧
      Function.update s.inventory.size (.main i) 0 = s.inventory.size := by
    intro h0
    have e1 := update_table_main (s := s) (i := i)
    have e2 := update_size_main (s := s) (i := i)
    rw [h0] at e1
    rw [hsz h0] at e2
    exact ⟨e1, e2⟩
  by_cases htf0 : (s.proc i).trapframe = 0
  · -- there is nothing to free
    have hpt0 : (s.proc i).pagetable = 0 := by
      by_contra hne
      exact htab hne htf0
    have e3 := update_trapframe (s := s) (i := i)
    rw [htf0] at e3
    simp only [freeTrapframe, freePagetable, htf0, hpt0, ne_eq, not_true_eq_false, if_false,
      wp_pure, htable hpt0, e3]
    have habs := h.abs_setProc (i := i) (Keeps.refl ∅ ∅ _ _) (by simp) (by simp) {}
    rw [absProc_default] at habs
    exact ⟨own, h, habs, Keeps.refl _ _ _ _⟩
  · have hheld := h.trapframe_held htf0
    have hone := h.mem.alloc.one (s.proc i).trapframe (by simp [hheld, Owner.single])
    rw [freeTrapframe, if_pos htf0]
    apply wp_kfree (h.mem.tree.page _ (by simp [hheld])) (by omega) _ (by omega)
    intro _
    obtain ⟨h1, k1⟩ := h.mem.releasedHeld hheld
    by_cases hpt0 : (s.proc i).pagetable = 0
    · simp only [freePagetable, hpt0, ne_eq, not_true_eq_false, if_false, wp_pure, htable hpt0]
      have habs := h.abs_setProc (i := i) k1 (by simp) (fun j _ => h.argv_ne_trapframe htf0) {}
      rw [absProc_default] at habs
      refine ⟨_, h.release hheld h1 k1 rfl rfl rfl ?_ ?_ h.argv h.pipes, habs,
        k1.mono (Set.empty_subset _) le_rfl⟩
      · intro k hk
        have hne : k.proc ≠ i := by
          rintro rfl
          rcases k with j | j
          · exact hk hpt0
          · exact hk hidle.2.1
        exact Function.update_of_ne hne _ _
      · intro q τ hq
        refine h.holds_clear htf0 (h.holds_keeps k1 (Set.notMem_empty _)) ?_ ?_ ?_ ?_ hq τ <;> rfl
    · rw [freePagetable, if_pos hpt0]
      obtain ⟨hle, hs⟩ := h.space (.main i) hpt0
      have hroot := h.root_table (k := .main i) hpt0
      have hne : (s.proc i).pagetable ≠ (s.proc i).trapframe := by
        intro heq
        have : own (s.proc i).pagetable = .root true := hroot
        rw [heq, hheld] at this
        cases this
      apply wp_mono (wp_procFreepagetable h1 ((Function.update_of_ne hne _ _).trans hroot) hle
        (hs.keeps k1 (Set.notMem_empty _) hroot))
      rintro _ m' ⟨own', h2, k2, hfree⟩
      have k : Keeps {(s.proc i).pagetable} {(s.proc i).trapframe} s.mach own m' own' :=
        (k1.mono (Set.empty_subset _) (le_refl _)).trans (k2.mono (le_refl _) (Set.empty_subset _))
      have hkr : s.inventory.kernel ∉ ({(s.proc i).pagetable} : Set ℕ) := by
        apply h.kernel_notMem
        rintro r rfl hfalse
        rw [show own (s.proc i).pagetable = .root true from hroot] at hfalse
        cases hfalse
      have habs := h.abs_setProc (i := i) k (fun k' hk' =>
        h.table_ne (l := .main i) (by rintro rfl; exact hk' rfl) hpt0)
        (fun j _ => h.argv_ne_trapframe htf0) {}
      rw [absProc_default] at habs
      refine ⟨own', h.dropTable (k := .main i) hpt0 h2 k hfree ?_ rfl rfl ?_ ?_ ?_ h.argv h.pipes,
        habs, k⟩
      · rintro p rfl τ hp
        rw [k2.held _ τ (Set.notMem_empty _), Function.update_self] at hp
        cases hp
      · intro k' hk'
        exact Function.update_of_ne hk' _ _
      · intro k' hk' h0
        have hproc : k'.proc ≠ i := by
          rintro rfl
          rcases k' with j | j
          · exact hk' rfl
          · exact h0 hidle.2.1
        exact Function.update_of_ne hproc _ _
      · intro q τ hq
        refine h.holds_clear htf0 (h.holds_keeps k hkr) ?_ ?_ ?_ ?_ hq τ <;> rfl

/-- The result of `allocproc`: a trapframe, and a table without user pages. -/
structure Fresh (s : Sys) (own : ℕ → Owner) (i : ℕ) (t : Sys) (own' : ℕ → Owner) : Prop where
  inv : SysInv t.mach t.inventory own'
  eq : ∃ tf r, tf ≠ 0 ∧ r ≠ 0 ∧ t = ({ s with nextpid := s.nextpid + 1 }.setMach t.mach).setProc i
    (Proc.fresh s.nextpid tf r) ∧ own tf = .free ∧ own r = .free ∧
    Keeps {r} {tf} s.mach own t.mach own'
  abs : t.abs = { s.abs with nextpid := s.nextpid + 1 }.setProc i
    { pid := s.nextpid, state := .used }
  room : s.mach.freelist.length ≤ t.mach.freelist.length + 6

/-- An entry was taken and is unused again. Consistent memory is left, and nothing has changed
but the entries of the tables in `R`. -/
structure GivenBack (R : Set ℕ) (s : Sys) (own : ℕ → Owner) (t : Sys) (own' : ℕ → Owner) :
    Prop where
  eq : t = { s with nextpid := s.nextpid + 1 }.setMach t.mach
  inv : SysInv t.mach s.inventory own'
  keeps : KeepsBut ∅ R ∅ s.mach own t.mach own'
  abs : t.abs = { s.abs with nextpid := s.nextpid + 1 }

omit h in
theorem GivenBack.sysOk {R : Set ℕ} {t : Sys} (h : GivenBack R s own t own')
    (hok : ∀ j, ProcOk j (s.proc j)) : SysOk t := by
  have hproc : t.proc = s.proc := by rw [h.eq]; rfl
  refine ⟨⟨own', ?_⟩, fun j => by rw [hproc]; exact hok j⟩
  rw [h.eq]
  exact h.inv

omit h in
/-- `allocproc` gives up and the entry is unused again. -/
theorem wp_allocFail {pid tf r : ℕ} (hi : s.proc i = {}) (hr : r ≠ 0 → tf ≠ 0)
    (h : SysInv m ((s.setMach m).setProc i (Proc.fresh pid tf r)).inventory own)
    (habs : ((s.setMach m).setProc i (Proc.fresh pid tf r)).abs =
      s.abs.setProc i (absProc m (Proc.fresh pid tf r))) :
    wp (freeproc i) E ((s.setMach m).setProc i (Proc.fresh pid tf r)) fun _ t => ∃ own',
      t = s.setMach t.mach ∧ SysInv t.mach s.inventory own' ∧ t.abs = s.abs ∧
        Keeps {r} {tf} m own t.mach own' := by
  apply wp_mono (wp_freeproc h (by simp [Proc.fresh]) (by simp [Proc.fresh])
    (by simpa [Proc.fresh] using hr) (by simp [Proc.fresh]))
  rintro _ t ⟨m', own', rfl, h', ht, hk⟩
  rw [setProc_self] at hk
  have hsame : (((s.setMach m).setProc i (Proc.fresh pid tf r)).setMach m').setProc i {} =
      s.setMach m' := by
    rw [setProc_setMach, setMach_setMach, setProc_setProc, ← hi]
    simp [Sys.setProc, Sys.setMach]
  rw [hsame] at h' ht ⊢
  refine ⟨own', rfl, h', ?_, hk⟩
  · have h0 : s.abs.proc i = {} := by
      show absProc s.mach (s.proc i) = {}
      rw [hi, absProc_default]
    rw [ht, habs]
    simp [Ref.setProc, ← h0]

omit h in
omit [Image] in
theorem MapsBelow.spaceOf_zero {r : ℕ} (h : MapsBelow m r 0) : spaceOf m r = fun _ => none := by
  funext w
  unfold spaceOf
  split
  · rename_i hw
    by_contra hne
    exact absurd ((h w hw.2).mp hne) (Nat.not_lt_zero w)
  · rfl

/-- An unused entry takes a page for its trapframe. -/
theorem SysInv.holdTrapframe (hi : s.proc i = {}) {tf : ℕ} (hfree : own tf = .free)
    (hl : s.mach.freelist = tf :: s.mach.freelist.tail) :
    SysInv (s.mach.allocated tf)
      { s.inventory with trapframe := Function.update s.inventory.trapframe i tf }
      (Function.update own tf (.held (.trapframe i))) := by
  obtain ⟨h1, k1⟩ := h.mem.allocated hl (.trapframe i)
  refine h.hold (by simp [hfree]) h1 k1 rfl rfl rfl ?_ ?_ h.argv h.pipes
  · intro k hk
    have hne : k.proc ≠ i := by
      rintro rfl
      rcases k with j | j <;> exact hk (by simp [Sys.inventory, TableKey.proc] at hi ⊢; rw [hi])
    exact Function.update_of_ne hne _ _
  · intro q τ hq
    cases τ with
    | trapframe j =>
      by_cases hj : j = i
      · subst hj
        have h0 : s.inventory.trapframe j = 0 := by
          show (s.proc j).trapframe = 0
          rw [hi]
        simp [Inventory.Holds, h0, hq.symm, eq_comm]
      · simp [Inventory.Holds, hj]
    | _ => simp [Inventory.Holds]

theorem wp_allocprocFound (hi : s.proc i = {}) :
    wp (allocprocFound i) E s fun r t =>
      (r = none ∧ s.mach.freelist.length < 6 ∧ ∃ own', GivenBack ∅ s own t own') ∨
      (r = some i ∧ ∃ own', Fresh s own i t own') := by
  unfold allocprocFound
  simp only [wp_bind, wp_get, wp_modify, wp_setProc, wp_mach, setProc_setMach, setProc_mach]
  -- the entry carries a pid from here on
  obtain ⟨u, hu⟩ : ∃ u, u = { s with nextpid := s.nextpid + 1 } := ⟨_, rfl⟩
  have hui : u.proc i = {} := by rw [hu]; exact hi
  have hinv : SysInv u.mach u.inventory own := by rw [hu]; exact h
  have habs : u.abs = { s.abs with nextpid := s.nextpid + 1 } := by rw [hu]; rfl
  -- what is left when the entry has been cleared
  have hzero : own 0 = .outside := by
    by_contra hne
    exact hinv.nonzero hne rfl
  have hback : ∀ t own' tf, t = u.setMach t.mach → SysInv t.mach u.inventory own' →
      t.abs = u.abs → Keeps {0} {tf} u.mach own t.mach own' → (∀ τ, own tf ≠ .held τ) →
      GivenBack ∅ s own t own' := by
    intro t own' tf heq ht hta hk htf
    have hk0 : u.inventory.kernel ≠ 0 := hinv.nonzero (by simp [(hinv.kernel _).mpr rfl])
    have hsettled := hinv.settle ht ∅ ∅ hk ⟨by simpa using hk0, by simpa using hk0⟩
      (fun k h0 hmem => absurd hmem h0) (fun k h0 hmem => absurd hmem h0)
      (by rintro _ rfl; exact htf)
    refine ⟨hu ▸ heq, ?_, ?_, hta.trans habs⟩
    · rw [hu] at ht
      exact ht
    · rw [hu] at hsettled
      exact hsettled
  rw [← hu, show s.mach = u.mach by rw [hu]]
  apply wp_kalloc hinv.mem.alloc
  · intro hnil
    have hv := hinv
    have e := update_trapframe (s := u) (i := i)
    rw [hui] at e
    rw [← show ((u.setMach u.mach).setProc i (Proc.fresh s.nextpid 0 0)).inventory = u.inventory by
      rw [inventory_fresh_zero hui]; simp only [e]] at hv
    simp only [wp_bind, wp_pure, hi]
    apply wp_mono (wp_allocFail hui (absurd rfl) hv
      (hinv.abs_setProc (Keeps.refl ∅ ∅ _ _) (by simp) (by simp) _))
    rintro _ t ⟨own', heq, ht, hta, hk⟩
    exact Or.inl ⟨trivial, by simp [hnil], own', hback t own' 0 heq ht hta hk (by simp [hzero])⟩
  · intro tf hfree hl
    have h1 := hinv.holdTrapframe hui hfree hl
    obtain ⟨-, k1⟩ := hinv.mem.allocated hl (.trapframe i)
    have hlen : u.mach.freelist.length = (u.mach.allocated tf).freelist.length + 1 := by
      rw [hl]; rfl
    have hargv : ∀ j, j ≠ i → ∀ pa ∈ (u.proc j).argv, pa ∉ ({tf} : Set ℕ) := by
      rintro j - pa hpa rfl
      have := (hinv.held pa (.arg j)).mpr ⟨hinv.nonzero (by simp [hfree]), hpa⟩
      simp [hfree] at this
    simp only [wp_bind, wp_setProc, wp_mach, setProc_setMach, setProc_mach, setMach_mach,
      setProc_setProc, setProc_self, setMach_setMach, setMach_proc, hi]
    apply wp_mono (wp_procPagetable h1.mem)
    rintro r m (⟨rfl, hlt, own', hm, k⟩ | ⟨hr, hroom, own', hm, k, hroot, hspace⟩)
    · have hv := h1.quiet hm k
      rw [← inventory_fresh_zero (m := m) hui s.nextpid tf] at hv
      simp only [if_true, wp_bind, wp_pure]
      have hk1 := k1.trans (k.mono (le_refl _) (Set.empty_subset _))
      apply wp_mono (wp_allocFail hui (absurd rfl) hv (hinv.abs_setProc hk1 (by simp) hargv _))
      rintro _ t ⟨own₂, heq, ht, hta, hk⟩
      exact Or.inl ⟨trivial, by omega, own₂, hback t own₂ tf heq ht hta
        ((hk1.mono (Set.empty_subset _) le_rfl).trans hk) (by simp [hfree])⟩
    · have hr0 : r ≠ 0 := h1.nonzero (by simp [hr])
      have hrt : ∀ k : TableKey, k.proc ≠ i → u.inventory.table k ∉ ({r} : Set ℕ) := by
        rintro l - rfl
        have hl' := h1.root_table (k := l) hr0
        exact absurd (hl'.symm.trans hr) (by simp)
      have hk : Keeps {r} {tf} u.mach own m own' :=
        (k1.mono (Set.empty_subset _) (le_refl _)).trans (k.mono (le_refl _) (Set.empty_subset _))
      rw [if_neg hr0, wp_pure]
      refine Or.inr ⟨rfl, own', ?_, ?_, ?_, ?_⟩
      · have hv := h1.newTable (k := .main i) (show (u.proc i).pagetable = 0 by rw [hui]) hr hm k
          hroot (by simpa [TableKey.proc] using hspace)
        rw [← inventory_fresh (m := m) hui s.nextpid tf r] at hv
        exact hv
      · have hrtf : r ≠ tf := by
          rintro rfl
          simp at hr
        rw [Function.update_of_ne hrtf] at hr
        exact ⟨tf, r, hinv.nonzero (by simp [hfree]), hr0, by rw [hu]; rfl, hfree, hr,
          by rw [show s.mach = u.mach by rw [hu]]; exact hk⟩
      · rw [← habs]
        apply (hinv.abs_setProc hk hrt hargv _).trans
        simp [absProc, hspace.maps.spaceOf_zero]
      · have hsu : s.mach = u.mach := by rw [hu]
        rw [hsu]
        show u.mach.freelist.length ≤ m.freelist.length + 6
        omega

theorem wp_allocproc (hok : ∀ j, ProcOk j (s.proc j)) :
    wp allocproc E s fun r t =>
      match (List.range nproc).find? fun j => (s.proc j).state = .unused with
      | none => r = none ∧ t = s
      | some j =>
        (r = none ∧ s.mach.freelist.length < 6 ∧ ∃ own', GivenBack ∅ s own t own') ∨
        (r = some j ∧ ∃ own', Fresh s own j t own') := by
  unfold allocproc
  simp only [wp_bind, wp_get]
  cases hf : (List.range nproc).find? fun j => (s.proc j).state = .unused with
  | none => simp [wp_pure]
  | some j => exact wp_allocprocFound h (find?_unused hok hf).1

end

end procs
end Xv6
