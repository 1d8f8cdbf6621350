import Xv6.Vm.KernelSpec

/-! Booting ends with one process that runs `initcode`. -/
namespace Xv6
open Bytes Program RefCount

section boot
variable [Image] {s t : Sys} {m : Machine} {own own' : ℕ → Owner} {E : Panic → Prop} {r : ℕ}

/-- The system before the first process is made. -/
def Sys.kernelOnly (m : Machine) (kpgtbl : ℕ) : Sys where
  mach := m
  proc := fun _ => {}
  nextpid := 1
  initproc := none
  kernelPagetable := kpgtbl
  pipes := []

theorem Stacks.sysInv (h : Stacks r nproc m own) :
    SysInv m (Sys.kernelOnly m r).inventory own where
  mem := h.inv
  held p τ := by
    have hpos : own p = .held τ → p ≠ 0 := by
      rintro hp rfl
      exact absurd (h.inv.tree.page 0 (by simp [hp])).kernbase_le (by decide)
    cases τ with
    | kstack i =>
      constructor
      · intro hp
        obtain ⟨j, hj, heq, hpg⟩ := (h.held p _).mp hp
        obtain rfl := Tag.kstack.inj heq
        exact ⟨hpos hp, hj, hpg⟩
      · rintro ⟨-, hi, hpg⟩
        exact (h.held p _).mpr ⟨i, hi, rfl, hpg⟩
    | temp => simp [h.held, Inventory.Holds]
    | trapframe i => simp [h.held, Inventory.Holds, Sys.inventory, Sys.kernelOnly, eq_comm]
    | pipe => simp [h.held, Inventory.Holds, Sys.inventory, Sys.kernelOnly]
    | arg i => simp [h.held, Inventory.Holds, Sys.inventory, Sys.kernelOnly]
  root r' := by
    rw [h.root]
    refine iff_of_false (by simp) ?_
    rintro ⟨h0, k, rfl⟩
    cases k <;> exact h0 rfl
  inj k k' h0 := by cases k <;> exact absurd rfl h0
  space k h0 := by cases k <;> exact absurd rfl h0
  image i h0 := absurd rfl h0
  kernel r' := by
    rw [h.root]
    exact and_iff_left rfl
  argv i := ⟨List.nodup_nil, List.not_mem_nil⟩
  pipes := ⟨List.nodup_nil, List.not_mem_nil⟩

/-- The page of the first process. -/
theorem wp_uvminit {s : Machine} (h : MemInv s own) (hr : own r = .root true)
    (hmaps : MapsBelow s r 0) (hroom : 3 ≤ s.freelist.length) :
    wp (uvminit r initcode) E s fun _ t => s.freelist.length ≤ t.freelist.length + 3 ∧
      ∃ own', Effect r s own t own'
        (putBytes (fun v => if v = 0 then some zeroPage else view s r v) 0 initcode) := by
  have hnone : ∀ v, v < userPages → view s r v = none := by
    intro v hv
    by_contra hne
    exact absurd ((hmaps v hv).mp hne) (Nat.not_lt_zero v)
  have hun : Unshared s r := by
    intro v hv hval
    rw [view_eq_none_iff.mp (hnone v hv)] at hval
    cases hval
  have hpos : 0 < userPages := by
    rw [userPages_eq]
    decide
  unfold uvminit
  rw [if_neg (by decide), wp_bind]
  apply wp_kalloc h.alloc
  · intro hnil
    simp [hnil] at hroom
  · intro p hp hl
    simp only [wp_bind, wp_memset]
    change wp (mappages r (0 * pgsize) pgsize p _) E _ _
    apply wp_mapZero h hr hpos hl (hnone 0 hpos) (Or.inr rfl)
    · intro t own' _ _ _ hlt
      omega
    · intro t own' he hdata hleaf hun' hused
      obtain ⟨pte, rfl, hpa⟩ := hleaf
      simp only [wp_modify]
      have hval : valid (leafAt (entry t.mem) r 0) = true := by
        have hview := he.view 0 hpos
        rw [if_pos rfl] at hview
        exact (view_eq_some hview).1
      have hpriv : Private t r 0 := ⟨hval, hun' hun 0 hpos hval⟩
      have hw : Effect r t own' (t.setPage p (write (t.mem p) (0 % pgsize) initcode)) own'
          (putBytes (view t r) 0 initcode) :=
        he.inv.writePrivate he.root (by rwa [Nat.zero_div]) (by rwa [Nat.zero_div])
          (by rwa [Nat.zero_div]) (by decide)
      refine ⟨hused, own', (he.toEffect.trans hw).congr fun v hv => ?_⟩
      exact putBytes_congr (he.view v hv) 0 initcode

/-- The first process starts. -/
theorem wp_userStart (h : SysInv t.mach t.inventory own) {tf : ℕ} (htf : tf ≠ 0) (hr : r ≠ 0)
    (hi : t.proc 0 = { Proc.fresh 1 tf r with sz := pgsize }) (hj : ∀ j, j ≠ 0 → t.proc j = {})
    (hs : spaceOf t.mach r = initSpace) (hn : t.nextpid = 2) (hinit : t.initproc = some 0) :
    wp (do
      mach (setReg tf tfEpc 0)
      mach (setReg tf tfSp pgsize)
      setProc 0 fun p => { p with state := .runnable }) E t fun _ u =>
        SysOk u ∧ u.abs = refBoot ∧ u.mach.freelist = t.mach.freelist := by
  have htf0 : (t.proc 0).trapframe = tf := by rw [hi]; rfl
  rw [wp_bind, ← htf0]
  apply wp_mono (wp_setReg h (by rwa [htf0]))
  rintro _ t1 ⟨⟨e1, f1⟩, h1, a1, -⟩
  have hp1 : t1.proc = t.proc := by rw [e1]; rfl
  have hi1 : t1.inventory = t.inventory := by rw [e1]; rfl
  rw [wp_bind, ← hp1]
  apply wp_mono (wp_setReg (s := t1) (by rwa [hi1]) (by rwa [hp1, htf0]))
  rintro _ t2 ⟨⟨e2, f2⟩, h2, a2, -⟩
  have hp2 : t2.proc = t.proc := by rw [e2]; exact hp1
  have hi2 : t2.inventory = t.inventory := by rw [e2]; exact hi1
  have habs : t2.abs = t.abs := a2.trans a1
  simp only [wp_setProc]
  refine ⟨⟨⟨own, ?_⟩, ?_⟩, ?_, f2.trans f1⟩
  · rw [inventory_congr (s := t2), hi2]
    · rwa [hi1] at h2
    · intro k
      by_cases hk : k = 0
      · subst hk
        rw [setProc_self]
        rfl
      · rw [setProc_ne hk]
    · rfl
    · rfl
  · apply procOk_setProc
    · intro j hne
      rw [hp2, hj j hne]
      exact ProcOk.default
    · rw [hp2, hi]
      exact ⟨by simp, fun _ => ⟨by decide, hr, htf⟩, by simp, by simp [Proc.fresh],
        by simp [Proc.fresh]⟩
  · have hmach : spaceOf t2.mach r = initSpace := by
      have hspace : (t2.abs.proc 0).space = (t.abs.proc 0).space := by rw [habs]
      simp only [Sys.abs, absProc, hp2, hi] at hspace
      exact hspace.trans hs
    ext1
    · funext j
      by_cases hne : j = 0
      · subst hne
        simp only [Sys.abs, setProc_self, setProc_mach, hp2, hi, refBoot, Function.update_self]
        simp only [absProc, Proc.fresh, hmach]
        rfl
      · simp only [Sys.abs, setProc_ne hne, hp2, hj j hne, refBoot, Function.update_of_ne hne]
        exact absProc_default
    · exact (congrArg Ref.nextpid habs).trans hn
    · exact (congrArg Ref.initproc habs).trans hinit

/-- The first process is made. -/
theorem wp_userinit (h : Stacks r nproc m own) (hroom : 9 ≤ m.freelist.length) :
    wp userinit E (Sys.kernelOnly m r) fun _ t => SysOk t ∧ t.abs = refBoot ∧
      m.freelist.length ≤ t.mach.freelist.length + 9 := by
  have hfind : (List.range nproc).find? (fun j => ((Sys.kernelOnly m r).proc j).state = .unused) =
      some 0 := rfl
  have halloc := wp_allocproc (E := E) h.sysInv (s := Sys.kernelOnly m r) fun _ => ProcOk.default
  rw [hfind] at halloc
  rw [userinit, wp_bind]
  apply wp_mono halloc
  rintro _ t (⟨rfl, hlt, -⟩ | ⟨rfl, own1, hf⟩)
  · exact absurd hlt (by simp only [Sys.kernelOnly]; omega)
  obtain ⟨tf, r1, htf, hr1, heq, -⟩ := hf.eq
  have h0 : t.proc 0 = Proc.fresh 1 tf r1 := by
    rw [heq]
    exact setProc_self
  have hj : ∀ j, j ≠ 0 → t.proc j = {} := by
    intro j hne
    rw [heq]
    exact setProc_ne hne
  have hinv := hf.inv
  have htab : t.inventory.table (.main 0) = r1 := by
    change (t.proc 0).pagetable = r1
    rw [h0]
    rfl
  have hsize : t.inventory.size (.main 0) = 0 := by
    change (t.proc 0).sz = 0
    rw [h0]
    rfl
  have hroot : own1 r1 = .root true := htab ▸ hinv.root_table (htab ▸ hr1)
  have hmaps : MapsBelow t.mach r1 0 := by
    have hs := (hinv.space (.main 0) (htab ▸ hr1)).2.maps
    rwa [htab, hsize] at hs
  have hlen : 3 ≤ t.mach.freelist.length := by
    have := hf.room
    simp only [Sys.kernelOnly] at this
    omega
  simp only [wp_bind, wp_modify, wp_getProc, h0]
  rw [wp_mach]
  apply wp_mono (wp_uvminit hinv.mem hroot hmaps hlen)
  rintro _ m2 ⟨hused, own2, he⟩
  rw [wp_setProc]
  generalize hu : (Sys.setProc _ 0 _) = u
  have hu0 : u.proc 0 = { Proc.fresh 1 tf r1 with sz := pgsize } := by
    rw [← hu, setProc_self]
    change { t.proc 0 with sz := pgsize } = _
    rw [h0]
  have hmach : u.mach = m2 := by
    rw [← hu]
    rfl
  have hview : ∀ w, w < userPages → view t.mach r1 w = none := by
    intro w hw
    by_contra hne
    exact absurd ((hmaps w hw).mp hne) (Nat.not_lt_zero w)
  have hinv2 : SysInv u.mach u.inventory own2 := by
    have heff := hinv.effect (k := .main 0) (htab ▸ hr1) (by rwa [htab]) (n := pgsize) (by decide) ?_
      (by simp)
    · rw [hmach, ← hu, inventory_setProc]
      simp only [update_table_main, update_table_newtable, update_size_image, update_trapframe,
        update_argv, setMach_proc, setMach_inventory]
      exact heff
    · intro w hw
      rw [show npages pgsize = 1 from rfl, Nat.lt_one_iff, ne_eq, putBytes_eq_none]
      by_cases hw0 : w = 0
      · simp [hw0]
      · simp [hw0, hview w hw]
  have hspace : spaceOf u.mach r1 = initSpace := by
    rw [hmach, he.spaceOf_eq hr1]
    funext w
    unfold clip initSpace
    split
    · rename_i hw
      apply putBytes_congr
      rw [hview w hw]
    · rename_i hw
      symm
      rw [putBytes_eq_none, if_neg]
      rintro rfl
      exact hw (by rw [userPages_eq]; decide)
  have hstart := wp_userStart (E := E) hinv2 htf hr1 hu0 ?_ hspace ?_ ?_
  · have hroom := hf.room
    simp only [Sys.kernelOnly] at hroom
    have hend := wp_mono hstart fun _ w hw => (⟨hw.1, hw.2.1, by rw [hw.2.2, hmach]; omega⟩ :
      SysOk w ∧ w.abs = refBoot ∧ m.freelist.length ≤ w.mach.freelist.length + 9)
    simp only [wp_bind] at hend
    exact hend
  · intro j hne
    rw [← hu, setProc_ne hne]
    exact hj j hne
  · rw [← hu]
    change t.nextpid = 2
    rw [heq]
    rfl
  · rw [← hu]
    rfl

/-- Booting succeeds and gives the first process, with some memory left. -/
theorem wp_boot (mem : ℕ → Buf) :
    wp boot E (Sys.power mem) fun _ t => SysOk t ∧ t.abs = refBoot ∧
      22 ≤ t.mach.freelist.length := by
  unfold boot
  simp only [wp_bind, wp_mach, wp_modify]
  apply wp_mono (wp_kinit rfl rfl)
  rintro _ m1 ⟨h1, hlen1⟩
  apply wp_mono (wp_kvmmake h1 (by omega))
  rintro r m2 ⟨hlen2, own, h2⟩
  apply wp_mono (wp_userinit (m := m2) h2 (by omega))
  rintro _ t ⟨ht, habs, hused⟩
  exact ⟨ht, habs, by omega⟩

end boot
end Xv6
