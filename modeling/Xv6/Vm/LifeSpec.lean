import Xv6.Vm.ForkSpec
import Xv6.Vm.ProcSpec

/-! The life of a process: `fork`, `wait`, and the pipes. -/
namespace Xv6
open Bytes Program RefCount

section copy
variable [Image] {m m' : Machine} {v : Inventory} {own own' : ℕ → Owner} {old new n : ℕ}

/-- The child sees what its parent sees. -/
theorem Copying.spaceOf_new (c : Copying old new m own m' own' n) (hmaps : MapsBelow m old n)
    (hold : old ≠ 0) (hnew : new ≠ 0) : spaceOf m' new = spaceOf m old := by
  funext w
  unfold spaceOf
  by_cases hw : w < userPages
  · rw [if_pos ⟨hnew, hw⟩, if_pos ⟨hold, hw⟩, c.viewNew w hw]
    split
    · rfl
    · by_contra hne
      exact absurd ((hmaps w hw).mp (Ne.symm hne)) (by assumption)
  · simp [hw]

theorem Copying.spaceOf_old (c : Copying old new m own m' own' n) :
    spaceOf m' old = spaceOf m old := by
  funext w
  unfold spaceOf
  split
  · exact c.viewOld w (by simp_all)
  · rfl

/-- A table is copied to one without user pages. -/
theorem SysInv.copied (h : SysInv m v own) {k l : TableKey} (hk0 : v.table k ≠ 0)
    (hl0 : v.table l ≠ 0) (hkl : k ≠ l) (hkm : ∀ i, k ≠ .image i) (hlm : ∀ i, l ≠ .image i)
    (hn : n ≤ v.size k)
    (c : Copying (v.table k) (v.table l) m own m' own' (npages n)) :
    SysInv m' { v with size := Function.update v.size l n } own' := by
  have hk := h.root_table hk0
  have hl := h.root_table hl0
  have hkey : ∀ k', v.table k' ∈ ({v.table k, v.table l} : Set ℕ) → k' = k ∨ k' = l := by
    rintro k' (heq | heq)
    · exact Or.inl (h.inj k k' hk0 heq.symm).symm
    · exact Or.inr (h.inj l k' hl0 heq.symm).symm
  obtain ⟨hksz, hks⟩ := h.space k hk0
  obtain ⟨hlsz, hls⟩ := h.space l hl0
  have hle := npages_mono hn
  have hup := userPages_eq
  apply h.change c.inv c.changed
  · rfl
  · rintro r (rfl | rfl)
    · simp [hk, c.rootOld]
    · simp [hl, c.rootNew]
  · simp
  · intros
    rfl
  · rintro r (rfl | rfl)
    · exact ⟨fun _ => ⟨hk0, k, rfl⟩, fun _ => c.rootOld⟩
    · exact ⟨fun _ => ⟨hl0, l, rfl⟩, fun _ => c.rootNew⟩
  · intros
    rfl
  · intro k' k'' _ h0 heq
    exact h.inj k' k'' h0 heq
  · intro k' hin _
    rcases hkey k' hin with rfl | rfl
    · simp only [Function.update_of_ne hkl]
      refine ⟨hksz, ?_, ?_, ?_⟩
      · intro w hw
        rw [c.viewOld w hw]
        exact hks.maps w hw
      · rw [c.highOld _ (le_refl _) (by omega)]
        exact hks.trapframe
      · rw [c.highOld _ (by omega) (by omega)]
        exact hks.trampoline
    · simp only [Function.update_self]
      refine ⟨by omega, ?_, ?_, ?_⟩
      · intro w hw
        rw [c.viewNew w hw]
        split
        · rename_i hlt
          exact iff_of_true ((hks.maps w hw).mpr (by omega)) hlt
        · rename_i hnot
          exact iff_of_false (by simp) hnot
      · rw [c.highNew _ (le_refl _) (by omega)]
        exact hls.trapframe
      · rw [c.highNew _ (by omega) (by omega)]
        exact hls.trampoline
  · intro k' hnot _
    refine ⟨Function.update_of_ne ?_ _ _, rfl⟩
    rintro rfl
    exact hnot (by simp)
  · intro i hin _
    rcases hkey _ hin with hki | hli
    · exact absurd hki.symm (hkm i)
    · exact absurd hli.symm (hlm i)
  · exact h.argv
  · exact h.pipes

end copy

section life
variable [Image] {s : Sys} {m : Machine} {own own' : ℕ → Owner} {E : Panic → Prop} {i j n : ℕ}

omit [Image] in
theorem abs_setProc_same {p : Proc} : (s.setProc i p).abs = s.abs.setProc i (absProc s.mach p) := by
  ext k
  · by_cases hk : k = i
    · subst hk
      simp only [Sys.abs, Ref.setProc, setProc_self, Function.update_self, setProc_mach]
    · simp only [Sys.abs, Ref.setProc, setProc_ne hk, Function.update_of_ne hk, setProc_mach]
  · rfl
  · rfl

/-- Only the child is changed by the copy. -/
theorem SysInv.copied_abs (h : SysInv s.mach s.inventory own) (hij : i ≠ j)
    (hi0 : (s.proc i).pagetable ≠ 0) (hj0 : (s.proc j).pagetable ≠ 0)
    (c : Copying (s.proc i).pagetable (s.proc j).pagetable s.mach own m own' n) :
    (s.setMach m).abs = s.abs.setProc j (absProc m (s.proc j)) := by
  have hne : ∀ k : TableKey, k ≠ .main i → k ≠ .main j →
      s.inventory.table k ∉ ({(s.proc i).pagetable, (s.proc j).pagetable} : Set ℕ) := by
    rintro k hki hkj (heq | heq)
    · exact h.table_ne (l := .main i) hki hi0 heq
    · exact h.table_ne (l := .main j) hkj hj0 heq
  ext k
  · by_cases hkj : k = j
    · subst hkj
      simp [Sys.abs, Ref.setProc]
    · have himage := hne (.image k) (by simp) (by simp)
      simp only [Sys.abs, Ref.setProc, Function.update_of_ne hkj, setMach_proc, setMach_mach]
      by_cases hki : k = i
      · subst hki
        have e1 := h.args_eq (i := k) c.changed (by simp)
        have e2 := h.space_eq (k := .image k) c.changed himage
        simp only [absProc, e1, c.spaceOf_old]
        rw [show spaceOf m (s.proc k).newtable = spaceOf s.mach (s.proc k).newtable from e2]
      · exact h.absProc_eq c.changed (hne (.main k) (by simpa using hki) (by simpa using hkj)) himage
          (by simp)
  · rfl
  · rfl

omit [Image] in
/-- The tables map what they mapped before. -/
def SameTables (s : Sys) (m : Machine) : Prop := ∀ k w, s.inventory.table k ≠ 0 →
  leafAt (entry m.mem) (s.inventory.table k) w = leafAt (entry s.mach.mem) (s.inventory.table k) w

section
variable (h : SysInv s.mach s.inventory own)
include h

theorem SysInv.sameTables {T X : Set ℕ} (hk : KeepsBut T ∅ X s.mach own m own') : SameTables s m :=
  fun _ w h0 => hk.leaf _ true w (Set.notMem_empty _) (h.root_table h0)

/-- The kernel writes to the trapframe of a process. -/
theorem SysInv.writeTrapframe (h0 : (s.proc i).trapframe ≠ 0) (b : Buf) :
    SysInv (s.mach.setPage (s.proc i).trapframe b) s.inventory own ∧
      (s.setMach (s.mach.setPage (s.proc i).trapframe b)).abs = s.abs ∧
      SameTables s (s.mach.setPage (s.proc i).trapframe b) := by
  have hheld := h.trapframe_held h0
  obtain ⟨h1, k1⟩ := h.mem.setHeld hheld b
  refine ⟨h.write hheld h1 k1, ?_, h.sameTables k1⟩
  ext k
  · exact h.absProc_eq k1 (by simp) (by simp) (h.argv_ne_trapframe h0)
  · rfl
  · rfl

theorem wp_setReg (h0 : (s.proc i).trapframe ≠ 0)
    {off x : ℕ} : wp (mach (setReg (s.proc i).trapframe off x)) E s fun _ t =>
      (t = s.setMach t.mach ∧ t.mach.freelist = s.mach.freelist) ∧
        SysInv t.mach s.inventory own ∧ t.abs = s.abs ∧ SameTables s t.mach := by
  unfold setReg
  simp only [wp_mach, wp_modify]
  exact ⟨⟨rfl, rfl⟩, h.writeTrapframe h0 _⟩

/-- The child starts to run with the registers of its parent. -/
theorem SysInv.forkEnd (hok : ∀ k, k ≠ j → ProcOk k (s.proc k)) (hj : j < nproc)
    (hexec : (s.proc j).inExec = false)
    (hidle : (s.proc j).argv = [] ∧ (s.proc j).newtable = 0 ∧ (s.proc j).newsz = 0)
    (htf : (s.proc j).trapframe ≠ 0) (hr : (s.proc j).pagetable ≠ 0) (b : Buf) :
    wp (mach (setReg (s.proc j).trapframe tfA0 0)) E
      (s.setMach (s.mach.setPage (s.proc j).trapframe b)) fun _ t =>
        let t' := t.setProc j { t.proc j with parent := some i, state := .runnable }
        (SysOk t' ∧ t'.abs = s.abs.setProc j
          { s.abs.proc j with parent := some i, state := .runnable }) ∧
          t.proc = s.proc ∧ SameTables s t.mach := by
  obtain ⟨h1, a1, l1⟩ := h.writeTrapframe htf b
  apply wp_mono (wp_setReg (s := s.setMach _) (i := j) h1 htf)
  rintro _ t ⟨⟨ht, -⟩, h2, a2, l2⟩
  have hproc : t.proc = s.proc := by rw [ht]; rfl
  have habs : t.abs = s.abs := a2.trans a1
  refine ⟨⟨⟨⟨own, ?_⟩, ?_⟩, ?_⟩, hproc, fun k w h0 => (l2 k w h0).trans (l1 k w h0)⟩
  · rw [inventory_congr (s := s)]
    · exact h2
    · intro k
      by_cases hk : k = j
      · subst hk
        rw [setProc_self, hproc]
        rfl
      · rw [setProc_ne hk, hproc]
    · rw [ht]
      rfl
    · rw [ht]
      rfl
  · apply procOk_setProc
    · rwa [hproc]
    · rw [hproc]
      exact ⟨by simp, fun _ => ⟨hj, hr, htf⟩, by simp, by simp [hexec], fun _ => hidle⟩
  · rw [abs_setProc_same, ← habs]
    rfl

/-- `fork` has failed. What may differ is the pid of the next process and the marks on the pages
of the parent that were shared on the way. -/
structure ForkFailed (s : Sys) (own : ℕ → Owner) (i : ℕ) (t : Sys) (own' : ℕ → Owner) : Prop
    extends GivenBack {(s.proc i).pagetable} s own t own' where
  entries : ∀ v, v < userPages → Downgraded (leafAt (entry s.mach.mem) (s.proc i).pagetable v)
    (leafAt (entry t.mach.mem) (s.proc i).pagetable v)
  high : ∀ v, userPages ≤ v → v < 2 ^ 27 → leafAt (entry t.mach.mem) (s.proc i).pagetable v =
    leafAt (entry s.mach.mem) (s.proc i).pagetable v

/-- The child's table and trapframe were free before, so that they need no exemption. -/
theorem SysInv.forkFailed (hi : (s.proc i).pagetable ≠ 0) {tf r : ℕ} (htf : own tf = .free)
    (hr : own r = .free) {m₁ m₂ : Machine} {own₁ own₂ : ℕ → Owner}
    (ka : Keeps {r} {tf} s.mach own m₁ own₁) (c : Copying (s.proc i).pagetable r m₁ own₁ m₂ own₂ 0)
    {t : Sys} (kf : Keeps {r} {tf} m₂ own₂ t.mach own') (h' : SysInv t.mach s.inventory own')
    (heq : t = { s with nextpid := s.nextpid + 1 }.setMach t.mach)
    (habs : t.abs = { s.abs with nextpid := s.nextpid + 1 }) : ForkFailed s own i t own' := by
  have hroot : own (s.proc i).pagetable = .root true := h.root_table (k := .main i) hi
  have hne : (s.proc i).pagetable ∉ ({r} : Set ℕ) := by
    rintro rfl
    rw [hroot] at hr
    cases hr
  have hnr : ∀ k, s.inventory.table k ≠ 0 → s.inventory.table k ≠ r := by
    rintro k hk0 rfl
    rw [h.root_table hk0] at hr
    cases hr
  have hkr : s.inventory.kernel ≠ r := by
    rintro rfl
    rw [(h.kernel _).mpr rfl] at hr
    cases hr
  have hkold : s.inventory.kernel ≠ (s.proc i).pagetable := by
    intro heq'
    have hfalse := (h.kernel _).mpr heq'.symm
    rw [hroot] at hfalse
    cases hfalse
  have hall : KeepsBut {r} {(s.proc i).pagetable, r} {tf} s.mach own t.mach own' :=
    ((ka.weaken le_rfl (by simp) le_rfl).trans
      (c.keeps.weaken le_rfl le_rfl (Set.empty_subset _))).trans (kf.weaken le_rfl (by simp) le_rfl)
  have hleaf : ∀ v, leafAt (entry t.mach.mem) (s.proc i).pagetable v =
      leafAt (entry m₂.mem) (s.proc i).pagetable v ∧
      leafAt (entry m₁.mem) (s.proc i).pagetable v =
        leafAt (entry s.mach.mem) (s.proc i).pagetable v := fun v =>
    ⟨kf.leaf _ true v hne c.rootOld, ka.leaf _ true v hne hroot⟩
  refine ⟨⟨heq, h', ?_, habs⟩, ?_, ?_⟩
  · apply h.settle h' ∅ {(s.proc i).pagetable} hall ⟨by simpa using hkr, by simp [hkr, hkold]⟩
    · intro k hk0 hmem
      exact absurd hmem (hnr k hk0)
    · intro k hk0 hmem
      exact hmem.resolve_right (hnr k hk0)
    · rintro _ rfl τ hτ
      rw [htf] at hτ
      cases hτ
  · intro v hv
    rw [(hleaf v).1, ← (hleaf v).2]
    exact c.entries v hv
  · intro v hv hlt
    rw [(hleaf v).1, c.highOld v hv hlt, (hleaf v).2]

end

omit [Image] in
/-- The page `v` of both processes is the same physical page. -/
def SharePage (s : Sys) (i j v : ℕ) : Prop := pte2pa (leafAt (entry s.mach.mem) (s.proc j).pagetable v) =
  pte2pa (leafAt (entry s.mach.mem) (s.proc i).pagetable v)

omit [Image] in
theorem SharePage.congr {t : Sys} {v : ℕ} (h : SharePage s i j v) (hs : SameTables s t.mach)
    (hi : (s.proc i).pagetable ≠ 0) (hj : (s.proc j).pagetable ≠ 0)
    (hpi : (t.proc i).pagetable = (s.proc i).pagetable)
    (hpj : (t.proc j).pagetable = (s.proc j).pagetable) : SharePage t i j v := by
  rw [SharePage, hpi, hpj]
  exact (congrArg pte2pa (hs (.main j) v hj)).trans
    (h.trans (congrArg pte2pa (hs (.main i) v hi)).symm)

theorem wp_forkCopy {own₀ : ℕ → Owner} (h : SysInv s.mach s.inventory own₀)
    (hok : ∀ j, ProcOk j (s.proc j)) (hrun : Running (s.proc i))
    (hj : s.proc j = {} ∧ j < nproc) {t : Sys} (hf : Fresh s own₀ j t own) :
    wp (forkCopy i j) E t fun r t' =>
      (r = none ∧ s.mach.freelist.length < 6 + 2 * npages (s.proc i).sz ∧
        ∃ own', ForkFailed s own₀ i t' own') ∨
      (r = some s.nextpid ∧ SysOk t' ∧ t'.abs = { s.abs with nextpid := s.nextpid + 1 }.setProc j
        { s.abs.proc j with
          state := .runnable, parent := some i, pid := s.nextpid, sz := (s.abs.proc i).sz,
          space := (s.abs.proc i).space } ∧
        ∀ v, v < npages (s.proc i).sz → SharePage t' i j v) := by
  obtain ⟨tf, r, htf, hr, heq, htfree, hrfree, hka⟩ := hf.eq
  have hij : i ≠ j := by
    rintro rfl
    rw [hj.1] at hrun
    simp [Running] at hrun
  have hti : t.proc i = s.proc i := by
    rw [heq, setProc_ne hij]
    rfl
  have htj : t.proc j = Proc.fresh s.nextpid tf r := by rw [heq, setProc_self]
  obtain ⟨hi0, hroot, hsz, hspace⟩ := hf.inv.running (hti ▸ hok i) (hti ▸ hrun.1)
  have hj0 : (t.proc j).pagetable ≠ 0 := by rw [htj]; exact hr
  obtain ⟨-, hjspace⟩ := hf.inv.space (.main j) hj0
  have hjempty : ∀ v, v < userPages → view t.mach (t.proc j).pagetable v = none := by
    intro v hv
    by_contra hne
    have hlt := (hjspace.maps v hv).mp hne
    rw [show t.inventory.size (.main j) = 0 from (congrArg Proc.sz htj).trans rfl] at hlt
    exact absurd hlt (by simp [npages, pgsize])
  unfold forkCopy
  simp only [wp_bind, wp_getProc, wp_mach]
  apply wp_mono (wp_uvmcopy hf.inv.mem hroot (hf.inv.root_table (k := .main j) hj0)
    (hf.inv.table_ne (k := .main i) (l := .main j) (by simpa using hij) hj0) hjempty
    (npages_le_userPages hsz) fun v hv => (hspace.maps v
      (lt_of_lt_of_le hv (npages_le_userPages hsz))).mpr hv)
  rintro ok m ⟨hshort, own', hcopy⟩
  have c : Copying (t.proc i).pagetable (t.proc j).pagetable t.mach own m own' _ := hcopy
  have habs := hf.inv.copied_abs hij hi0 hj0 c
  have hu : ∀ p, (t.setMach m).setProc j p =
      ({ s with nextpid := s.nextpid + 1 }.setMach m).setProc j p := by
    intro p
    rw [heq, setProc_setMach, setMach_setMach, setProc_setProc]
  have hcopied : ∀ n, n ≤ (t.proc i).sz →
      Copying (t.proc i).pagetable (t.proc j).pagetable t.mach own m own' (npages n) →
      SysInv m ((t.setMach m).setProc j { t.proc j with sz := n }).inventory own' := by
    intro n hn hc
    rw [inventory_setProc]
    simpa using hf.inv.copied (k := .main i) (l := .main j) hi0 hj0 (by simpa using hij) (by simp)
      (by simp) hn hc
  have hothers : ∀ k, k ≠ j → t.proc k = s.proc k := by
    intro k hk
    rw [heq, setProc_ne hk]
    rfl
  have hbase : ∀ p, (t.abs.setProc j p) = { s.abs with nextpid := s.nextpid + 1 }.setProc j p := by
    intro p
    rw [hf.abs]
    simp [Ref.setProc]
  cases ok with
  | false =>
    simp only [Bool.false_eq_true, if_false, wp_bind, wp_pure]
    have hv := hcopied 0 (Nat.zero_le _) (by simpa [npages, pgsize] using c)
    have hentry : ({ t.proc j with sz := 0 } : Proc) = Proc.fresh s.nextpid tf r := by
      rw [htj]
      rfl
    have hself : t.setMach m = (t.setMach m).setProc j (Proc.fresh s.nextpid tf r) := by
      rw [← htj]
      simp [Sys.setProc, Sys.setMach]
    rw [hentry, hu] at hv
    rw [hbase, hself, hu, htj] at habs
    rw [hself, hu]
    apply wp_mono (wp_allocFail (s := { s with nextpid := s.nextpid + 1 }) hj.1 (fun _ => htf) hv
      habs)
    rintro _ t' ⟨own₃, heq', ht', ha, kf⟩
    rw [hti, htj] at c
    have hroom := hf.room
    have hless := hshort rfl
    rw [hti] at hless
    exact Or.inl ⟨trivial, by omega, own₃,
      h.forkFailed (hti ▸ hi0) htfree hrfree hka c kf ht' heq' ha⟩
  | true =>
    have hv := hcopied _ (le_refl _) c
    simp only [if_true, wp_bind, wp_pure, wp_setProc, wp_mach, wp_modify, setMach_proc]
    -- the entry of the child with the size of its parent
    generalize hw : (t.setMach m).setProc j _ = w
    have hwj : w.proc j = { t.proc j with sz := (t.proc i).sz } := by rw [← hw, setProc_self]
    have hwabs : w.abs = { s.abs with nextpid := s.nextpid + 1 }.setProc j
        (absProc m { t.proc j with sz := (t.proc i).sz }) := by
      rw [← hw, abs_setProc_same, habs, hbase]
      simp [Ref.setProc]
    have hwinv : SysInv w.mach w.inventory own' := by subst hw; exact hv
    have hwok : ∀ k, k ≠ j → ProcOk k (w.proc k) := by
      intro k hk
      rw [← hw, setProc_ne hk, setMach_proc, hothers k hk]
      exact hok k
    rw [show (t.proc j).trapframe = (w.proc j).trapframe by rw [hwj]]
    have hend := fun b => hwinv.forkEnd (E := E) (i := i) hwok hj.2 (by rw [hwj, htj]; rfl)
      (by rw [hwj, htj]; exact ⟨rfl, rfl, rfl⟩) (by rw [hwj, htj]; exact htf)
      (by rw [hwj]; exact hj0) b
    apply wp_mono (wp_mach.mp (hend _))
    rintro _ m' ⟨⟨hsys, ha⟩, -, hsame⟩
    refine Or.inr ⟨by rw [htj]; rfl, hsys, ?_, fun v hv => ?_⟩
    swap
    · have hwi : w.proc i = t.proc i := by rw [← hw, setProc_ne hij, setMach_proc]
      have hshare : SharePage w i j v := by
        rw [SharePage, hwi, hwj, ← hw]
        exact c.same v (by rwa [if_pos rfl, hti]) (hv.trans_le (npages_le_userPages (hti ▸ hsz)))
      refine hshare.congr hsame (by rwa [hwi]) (by rw [hwj]; exact hj0) ?_ ?_
      · rw [setProc_ne hij]
        rfl
      · rw [setProc_self]
    have hsame : spaceOf m (t.proc j).pagetable = (s.abs.proc i).space := by
      have hti' : t.abs.proc i = s.abs.proc i := by
        rw [hf.abs]
        simp [Ref.setProc, hij]
      rw [c.spaceOf_new hspace.maps hi0 hj0, ← hti']
      rfl
    have hchild : absProc m { t.proc j with sz := (t.proc i).sz } =
        { state := .used, pid := s.nextpid, sz := (s.proc i).sz, space := (s.abs.proc i).space } := by
      rw [← hsame, hti, htj]
      simp [absProc, Proc.fresh]
    have hempty : s.abs.proc j = {} := by
      show absProc s.mach (s.proc j) = {}
      rw [hj.1, absProc_default]
    apply ha.trans
    rw [hwabs, hchild, hempty]
    simp [Ref.setProc, Sys.abs, absProc]

/-- `fork` with the changes of memory: no entry is unused, or memory has run out, or there is a
child. -/
def ForkEffect (s : Sys) (own : ℕ → Owner) (i : ℕ) (r : Option ℕ) (t : Sys) : Prop :=
  match (List.range nproc).find? fun j => (s.proc j).state = .unused with
  | none => r = none ∧ t = s
  | some j => (r = none ∧ s.mach.freelist.length < 6 + 2 * npages (s.proc i).sz ∧
      ∃ own', ForkFailed s own i t own') ∨
    (r = some s.nextpid ∧ SysOk t ∧ t.abs = { s.abs with nextpid := s.nextpid + 1 }.setProc j
      { s.abs.proc j with
        state := .runnable, parent := some i, pid := s.nextpid, sz := (s.abs.proc i).sz,
        space := (s.abs.proc i).space } ∧
      ∀ v, v < npages (s.proc i).sz → SharePage t i j v)

theorem wp_fork_effect (h : SysInv s.mach s.inventory own) (hok : ∀ j, ProcOk j (s.proc j))
    (hrun : Running (s.proc i)) :
    wp (fork i) E s fun r t => ForkEffect s own i r t := by
  unfold fork ForkEffect
  simp only [wp_bind]
  apply wp_mono (wp_allocproc h hok)
  intro r t
  cases hf : (List.range nproc).find? fun j => (s.proc j).state = .unused with
  | none =>
    rintro ⟨rfl, rfl⟩
    rw [wp_pure]
    exact ⟨rfl, rfl⟩
  | some j =>
    rintro (⟨rfl, hshort, own', hback⟩ | ⟨rfl, own', hfresh⟩)
    · rw [wp_pure]
      have hi := (h.running (hok i) hrun.1).1
      refine Or.inl ⟨rfl, by omega, own', ⟨hback.eq, hback.inv, ?_, hback.abs⟩, ?_, ?_⟩
      · exact hback.keeps.weaken le_rfl (Set.empty_subset _) le_rfl
      · intro v _
        exact Or.inl (hback.keeps.leaf _ true v (Set.notMem_empty _)
          (h.root_table (k := .main i) hi))
      · intro v _ _
        exact hback.keeps.leaf _ true v (Set.notMem_empty _) (h.root_table (k := .main i) hi)
    · exact wp_forkCopy h hok hrun (find?_unused hok hf) hfresh

/-- The reference machine sees what `fork` does. -/
theorem ForkEffect.refFork {r : Option ℕ} {t : Sys} (h : SysInv s.mach s.inventory own)
    (hok : ∀ j, ProcOk j (s.proc j)) (hf : ForkEffect s own i r t) :
    SysOk t ∧ RefFork s.abs i r t.abs := by
  revert hf
  unfold ForkEffect RefFork
  change _ → SysOk t ∧
    match (List.range nproc).find? fun j => (s.proc j).state = .unused with
    | none => r = none ∧ t.abs = s.abs
    | some j => _
  cases hf : (List.range nproc).find? fun j => (s.proc j).state = .unused with
  | none =>
    rintro ⟨rfl, rfl⟩
    exact ⟨⟨⟨own, h⟩, hok⟩, rfl, rfl⟩
  | some j =>
    rintro (⟨rfl, -, own', hfail⟩ | ⟨rfl, ht, habs, -⟩)
    · exact ⟨hfail.sysOk hok, Or.inl ⟨rfl, hfail.abs⟩⟩
    · exact ⟨ht, Or.inr ⟨rfl, habs⟩⟩

theorem wp_fork (h : SysOk s) (hrun : Running (s.proc i)) :
    wp (fork i) E s fun r t => SysOk t ∧ RefFork s.abs i r t.abs := by
  obtain ⟨⟨own, hinv⟩, hok⟩ := h
  exact wp_mono (wp_fork_effect hinv hok hrun) fun r t hf => hf.refFork hinv hok

/-- The entry of a zombie is given back. -/
theorem wp_freeZombie (h : SysOk s) (hz : (s.proc j).state = .zombie) :
    wp (freeproc j) E s fun _ t => SysOk t ∧ t.abs = s.abs.setProc j {} := by
  obtain ⟨⟨own, hinv⟩, hok⟩ := h
  obtain ⟨-, hpt, htf⟩ := (hok j).used (by simp [hz])
  have hexec : (s.proc j).inExec = false := by
    by_contra hne
    have hrun := (hok j).execing (by simpa using hne)
    rw [hz] at hrun
    cases hrun
  apply wp_mono (wp_freeproc hinv hexec ((hok j).idle hexec) (fun _ => htf) (absurd · hpt))
  rintro _ t ⟨m, own', rfl, h', habs, -⟩
  exact ⟨⟨⟨own', h'⟩, procOk_setProc (fun k _ => hok k) ProcOk.default⟩, habs⟩

theorem wp_wait (h : SysOk s) (hrun : Running (s.proc i)) {addr : ℕ} :
    wp (wait i addr) E s fun r t => SysOk t ∧ RefWait s.abs i addr r t.abs := by
  unfold wait RefWait
  simp only [wp_bind, wp_get]
  -- the reference machine looks at the same table
  have hsame : ∀ o, (List.range nproc).find? (fun j => (s.proc j).parent = some i ∧
      (s.proc j).state = .zombie) = o →
      (List.range nproc).find? (fun j => (s.abs.proc j).parent = some i ∧
        (s.abs.proc j).state = .zombie) = o := fun o h => h
  cases hf : (List.range nproc).find? fun j => (s.proc j).parent = some i ∧
      (s.proc j).state = .zombie with
  | none =>
    rw [hsame none hf]
    dsimp only
    split
    · rename_i hany
      rw [wp_pure]
      exact ⟨h, rfl, (if_pos hany).symm⟩
    · rename_i hany
      rw [wp_pure]
      exact ⟨h, rfl, (if_neg hany).symm⟩
  | some j =>
    rw [hsame (some j) hf]
    have hz : (s.proc j).state = .zombie := by
      have := List.find?_some hf
      simp only [decide_eq_true_eq] at this
      exact this.2
    simp only [wp_bind, wp_getProc]
    split
    · rename_i haddr
      simp only [wp_bind, wp_pure]
      apply wp_mono (wp_freeZombie h hz)
      rintro _ t ⟨ht, habs⟩
      exact ⟨ht, Or.inl ⟨haddr, rfl, habs⟩⟩
    · simp only [wp_bind]
      apply wp_mono (wp_sysCopyout h hrun)
      rintro ok t ⟨ht, ⟨m, rfl⟩, hcopy⟩
      cases ok with
      | true =>
        simp only [if_true, wp_bind, wp_pure]
        apply wp_mono (wp_freeZombie ht hz)
        rintro _ t ⟨ht', habs⟩
        exact ⟨ht', Or.inr ⟨true, _, hcopy, Or.inl ⟨rfl, rfl, habs⟩⟩⟩
      | false =>
        simp only [Bool.false_eq_true, if_false, wp_pure]
        exact ⟨ht, Or.inr ⟨false, _, hcopy, Or.inr ⟨rfl, trivial, rfl⟩⟩⟩

/-- Pipes are not seen by the reference machine. -/
theorem wp_pipealloc (h : SysOk s) {files : Bool} :
    wp (pipealloc files) E s fun _ t => (SysOk t ∧ t.abs = s.abs) ∧ t.proc = s.proc ∧
      SameTables s t.mach ∧ (files = true → t.mach.freelist = s.mach.freelist.tail) := by
  obtain ⟨⟨own, hinv⟩, hok⟩ := h
  unfold pipealloc
  cases files with
  | false =>
    rw [Bool.not_false, if_pos rfl, wp_pure]
    exact ⟨⟨⟨⟨own, hinv⟩, hok⟩, rfl⟩, rfl, fun _ _ _ => rfl, nofun⟩
  | true =>
    simp only [Bool.not_true, Bool.false_eq_true, if_false, wp_bind, wp_mach]
    apply wp_kalloc hinv.mem.alloc
    · intro hnil
      rw [wp_pure]
      exact ⟨⟨⟨⟨own, hinv⟩, hok⟩, rfl⟩, rfl, fun _ _ _ => rfl, fun _ => by simp [hnil]⟩
    · intro p hfree hl
      simp only [wp_bind, wp_modify, wp_pure]
      obtain ⟨h1, k1⟩ := hinv.mem.allocated hl .pipe
      have hp0 : p ≠ 0 := hinv.nonzero (by simp [hfree])
      have hfresh : ∀ τ, ¬s.inventory.Holds s.mach p τ := fun τ hh => by
        have := (hinv.held p τ).mpr ⟨hp0, hh⟩
        simp [hfree] at this
      refine ⟨⟨⟨⟨_, hinv.hold (by simp [hfree]) h1 k1 rfl rfl rfl (fun _ _ => rfl) ?_ hinv.argv ?_⟩,
        hok⟩, ?_⟩, rfl, hinv.sameTables k1, fun _ => rfl⟩
      · intro q τ hq
        cases τ <;> simp [Inventory.Holds, Sys.inventory, Sys.setMach, or_comm]
      · have hnot : p ∉ s.inventory.pipes := hfresh .pipe
        exact ⟨List.nodup_cons.mpr ⟨hnot, hinv.pipes.1⟩, by
          simpa [Sys.inventory, Sys.setMach, hp0.symm] using hinv.pipes.2⟩
      · ext j
        · exact hinv.absProc_eq k1 (by simp) (by simp) fun pa hpa hin => by
            rw [Set.mem_singleton_iff] at hin
            subst hin
            exact hfresh (.arg j) hpa
        · rfl
        · rfl

omit [Image] in
theorem pages_closed {pi : Pipe} {writable : Bool} (pipes : List Pipe) :
    (pipes.map fun x => if x.page = pi.page then pi.closed writable else x).map Pipe.page =
      pipes.map Pipe.page := by
  rw [List.map_map]
  apply List.map_congr_left
  intro x _
  simp only [Function.comp_apply]
  split
  · rename_i heq
    rw [heq]
    cases writable <;> rfl
  · rfl

theorem wp_pipeclose (h : SysOk s) {pi : Pipe} (hpi : pi ∈ s.pipes) {writable : Bool} :
    wp (pipeclose pi writable) E s fun _ t => SysOk t ∧ t.abs = s.abs := by
  obtain ⟨⟨own, hinv⟩, hok⟩ := h
  unfold pipeclose
  dsimp only
  split
  · -- the last end: the page goes back
    have hin : s.inventory.Holds s.mach pi.page .pipe := List.mem_map_of_mem hpi
    have hp0 : pi.page ≠ 0 := fun h0 => hinv.pipes.2 (h0 ▸ hin)
    have hheld := (hinv.held pi.page .pipe).mpr ⟨hp0, hin⟩
    have hone := hinv.mem.alloc.one pi.page (by simp [hheld, Owner.single])
    obtain ⟨h1, k1⟩ := hinv.mem.releasedHeld hheld
    simp only [wp_bind, wp_modify, wp_mach]
    apply wp_kfree (hinv.mem.tree.page _ (by simp [hheld])) (by omega) _ (by omega)
    intro _
    have hmem : ∀ q, q ∈ (s.pipes.filter (·.page ≠ pi.page)).map Pipe.page ↔
        q ∈ s.pipes.map Pipe.page ∧ q ≠ pi.page := by
      intro q
      simp only [List.mem_map, List.mem_filter, decide_eq_true_eq]
      grind
    have hsub : ((s.pipes.filter (·.page ≠ pi.page)).map Pipe.page).Sublist
        (s.pipes.map Pipe.page) := List.filter_sublist.map _
    refine ⟨⟨⟨_, hinv.release hheld h1 k1 rfl rfl rfl (fun _ _ => rfl) ?_ hinv.argv
      ⟨hinv.pipes.1.sublist hsub, fun h0 => hinv.pipes.2 (hsub.subset h0)⟩⟩, hok⟩, ?_⟩
    · intro q τ hq
      have hne : τ ≠ .pipe → s.inventory.Holds (s.mach.released pi.page) q τ → q ≠ pi.page := by
        rintro hτ hh rfl
        exact hτ (hinv.holds_unique hp0
          ((hinv.holds_keeps k1 (Set.notMem_empty _) _ _).mp hh) hin)
      cases τ with
      | pipe => exact hmem q
      | _ => exact (and_iff_left_of_imp (hne (by simp))).symm
    · ext j
      · exact hinv.absProc_eq k1 (by simp) (by simp) fun pa hpa hin' => by
          rw [Set.mem_singleton_iff] at hin'
          subst hin'
          cases hinv.holds_unique hp0 hin (show s.inventory.Holds s.mach _ (.arg j) from hpa)
      · rfl
      · rfl
  · rw [wp_modify]
    refine ⟨⟨⟨own, ?_⟩, hok⟩, rfl⟩
    have hpages : ({ s with pipes := s.pipes.map fun x =>
        if x.page = pi.page then pi.closed writable else x } : Sys).inventory = s.inventory := by
      simp only [Sys.inventory, pages_closed]
    rw [hpages]
    exact hinv

end life
end Xv6
