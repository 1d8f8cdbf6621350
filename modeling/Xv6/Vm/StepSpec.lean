import Xv6.Vm.Abs

/-! Operations that stay within the memory of one process. -/
namespace Xv6
open Bytes Program RefCount

section spaces
variable {m : Machine}

theorem clip_view {r : ℕ} (hr : r ≠ 0) : clip (view m r) = spaceOf m r := by
  funext w
  by_cases hw : w < userPages <;> simp [clip, spaceOf, hr, hw]

theorem clip_putBytes (V : Space) (va : ℕ) (bs : List UInt8) :
    clip (putBytes V va bs) = putBytes (clip V) va bs := by
  funext w
  by_cases hw : w < userPages <;> simp [clip, putBytes, hw]

theorem spaceOf_putBytes {r : ℕ} (hr : r ≠ 0) (va : ℕ) (bs : List UInt8) :
    clip (putBytes (view m r) va bs) = putBytes (spaceOf m r) va bs := by
  rw [clip_putBytes, clip_view hr]

theorem userRange_spaceOf {r va n : ℕ} (hr : r ≠ 0) :
    UserRange (view m r) va n ↔ UserRange (spaceOf m r) va n := by
  unfold UserRange
  apply forall_congr'
  intro k
  apply imp_congr_right
  intro _
  apply and_congr_right
  intro hlt
  simp [spaceOf, hr, hlt]

/-- A byte that the user can read lies below the upper two pages. -/
theorem getByte_spaceOf {r a : ℕ} (hr : r ≠ 0) :
    getByte (spaceOf m r) a = if a / pgsize < userPages then getByte (view m r) a else none := by
  by_cases hlt : a / pgsize < userPages
  · simp [getByte, spaceOf, hr, hlt]
  · simp [getByte, spaceOf, hlt]

theorem MapsBelow.putBytes {r n va : ℕ} {bs : List UInt8} (h : MapsBelow m r n) :
    ∀ w, w < userPages → (putBytes (view m r) va bs w ≠ none ↔ w < n) := by
  intro w hw
  rw [ne_eq, putBytes_eq_none]
  exact h w hw

end spaces

section step
variable [Image] {s : Sys} {m : Machine} {own own' : ℕ → Owner} {E : Panic → Prop} {i : ℕ}
  {V : Space}

section
variable (h : SysInv s.mach s.inventory own)
include h

/-- The address space of a process has changed and its size is now `n`. -/
theorem SysInv.mainEffect (hr : (s.proc i).pagetable ≠ 0)
    (he : Effect (s.proc i).pagetable s.mach own m own' V) {n : ℕ} (hn : n ≤ 2 ^ 27)
    (hV : ∀ w, w < userPages → (V w ≠ none ↔ w < npages n)) :
    SysInv m ((s.setMach m).setProc i { s.proc i with sz := n }).inventory own' ∧
      ((s.setMach m).setProc i { s.proc i with sz := n }).abs =
        s.abs.setProc i { s.abs.proc i with sz := n, space := clip V } := by
  constructor
  · rw [inventory_setProc]
    simpa using h.effect (k := .main i) hr he hn hV (by simp)
  · ext j
    · by_cases hj : j = i
      · subst hj
        have himg : spaceOf m (s.proc j).newtable = spaceOf s.mach (s.proc j).newtable :=
          h.space_eq (k := .image j) he.keeps (h.table_ne (l := .main j) (by simp) hr)
        have hargs := h.args_eq he.keeps (i := j) (by simp)
        simp only [Sys.abs, Ref.setProc, setProc_self, setProc_mach, setMach_mach, absProc,
          Function.update_self, he.spaceOf_eq hr, hargs, himg]
      · have hother := h.absProc_other (k := .main i) hr he.keeps hj
        simp only [Sys.abs, Ref.setProc, setProc_ne hj, Function.update_of_ne hj, setMach_proc,
          setProc_mach, setMach_mach]
        exact hother
    · rfl
    · rfl

/-- What an operation of a running process may rely on. -/
theorem SysInv.running (hok : ProcOk i (s.proc i)) (hrun : (s.proc i).state = .runnable) :
    (s.proc i).pagetable ≠ 0 ∧ own (s.proc i).pagetable = .root true ∧ (s.proc i).sz ≤ 2 ^ 27 ∧
      AddrSpace s.mach (s.proc i).pagetable (npages (s.proc i).sz) (s.proc i).trapframe := by
  obtain ⟨-, hr, -⟩ := hok.used (by simp [hrun])
  obtain ⟨hsz, hs⟩ := h.space (.main i) hr
  exact ⟨hr, h.root_table (k := .main i) hr, hsz, hs⟩

/-- The new size and memory of a running process. -/
theorem SysOk.mainEffect (hok : ∀ j, ProcOk j (s.proc j)) (hrun : Running (s.proc i))
    (he : Effect (s.proc i).pagetable s.mach own m own' V) {n : ℕ} (hn : n ≤ 2 ^ 27)
    (hV : ∀ w, w < userPages → (V w ≠ none ↔ w < npages n)) :
    SysOk ((s.setMach m).setProc i { s.proc i with sz := n }) ∧
      ((s.setMach m).setProc i { s.proc i with sz := n }).abs =
        s.abs.setProc i { s.abs.proc i with sz := n, space := clip V } := by
  obtain ⟨hr, -⟩ := h.running (hok i) hrun.1
  obtain ⟨hinv, habs⟩ := h.mainEffect hr he hn hV
  refine ⟨⟨⟨own', hinv⟩, ?_⟩, habs⟩
  intro j
  by_cases hj : j = i
  · subst hj
    have hj := hok j
    rw [setProc_self]
    exact ⟨by simp [hrun.1], hj.used, hj.settled, hj.execing, hj.idle⟩
  · rw [setProc_ne hj]
    exact hok j

omit h in
omit [Image] in
theorem setProc_same : (s.setMach m).setProc i { s.proc i with sz := (s.proc i).sz } =
    s.setMach m := by
  simp [Sys.setProc, Sys.setMach]

/-- Memory of a running process has changed, its size has not. -/
theorem SysOk.spaceEffect (hok : ∀ j, ProcOk j (s.proc j)) (hrun : Running (s.proc i))
    (he : Effect (s.proc i).pagetable s.mach own m own' V)
    (hV : ∀ w, w < userPages → (V w ≠ none ↔ w < npages (s.proc i).sz)) :
    SysOk (s.setMach m) ∧ (s.setMach m).abs = s.abs.setSpace i (clip V) := by
  obtain ⟨-, -, hsz, -⟩ := h.running (hok i) hrun.1
  have hmain := SysOk.mainEffect h hok hrun he hsz hV
  rw [setProc_same] at hmain
  exact hmain

end

/-- `exit` turns the process into a zombie; only the first process must not exit. -/
theorem wp_exit (h : SysOk s) (hrun : Running (s.proc i)) {status : ℕ}
    (hE : s.initproc = some i → E .initExiting) :
    wp (exit i status) E s fun _ t => SysOk t ∧ t.abs = s.abs.exit i status := by
  unfold exit reparent
  simp only [wp_bind, wp_get]
  by_cases hinit : s.initproc = some i
  · rw [if_pos hinit]
    simpa using hE hinit
  rw [if_neg hinit]
  simp only [wp_bind, wp_modify, wp_setProc]
  obtain ⟨⟨own, hinv⟩, hok⟩ := h
  have hi := (hok i).reparent (i := i) (o := s.initproc)
  have hstate : ((s.proc i).reparent i s.initproc).state = .runnable ∧
      ((s.proc i).reparent i s.initproc).inExec = false := by
    unfold Proc.reparent
    split <;> exact hrun
  generalize ht : ({ s with proc := fun j => (s.proc j).reparent i s.initproc } : Sys).setProc i
    { (s.proc i).reparent i s.initproc with xstate := status, state := .zombie } = t
  refine ⟨⟨⟨own, ?_⟩, ?_⟩, ?_⟩
  · have hinvent : t.inventory = s.inventory := by
      subst ht
      refine inventory_congr (fun j => ?_) ?_ ?_
      · by_cases hj : j = i
        · subst hj
          rw [setProc_self]
          exact pages_reparent
        · rw [setProc_ne hj]
          exact pages_reparent
      · rfl
      · rfl
    rw [hinvent]
    subst ht
    exact hinv
  · intro j
    subst ht
    by_cases hji : j = i
    · subst hji
      rw [setProc_self]
      exact ⟨by simp, fun _ => hi.used (by simp [hstate.1]), by simp, by simp [hstate.2], hi.idle⟩
    · rw [setProc_ne hji]
      exact (hok j).reparent
  · subst ht
    ext j
    · by_cases hj : j = i
      · subst hj
        simp only [Sys.abs, Ref.exit, Ref.setProc, setProc_self, setProc_mach,
          Function.update_self, ← absProc_reparent]
        rfl
      · simp only [Sys.abs, Ref.exit, Ref.setProc, setProc_ne hj, setProc_mach,
          Function.update_of_ne hj, ← absProc_reparent]
    · rfl
    · rfl

end step
end Xv6
