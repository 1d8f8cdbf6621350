import Xv6.Vm.Inventory
import Xv6.Vm.Reference

/-! What the reference machine sees of a system, and the invariant between operations. -/
namespace Xv6
open Bytes Program RefCount

def Sys.inventory (s : Sys) : Inventory where
  table
    | .main i => (s.proc i).pagetable
    | .image i => (s.proc i).newtable
  size
    | .main i => (s.proc i).sz
    | .image i => (s.proc i).newsz
  trapframe i := (s.proc i).trapframe
  argv i := (s.proc i).argv
  pipes := s.pipes.map Pipe.page
  kernel := s.kernelPagetable

/-- A process as the reference machine sees it. -/
def absProc (m : Machine) (p : Proc) : RefProc where
  state := p.state
  parent := p.parent
  xstate := p.xstate
  pid := p.pid
  sz := p.sz
  space := spaceOf m p.pagetable
  inExec := p.inExec
  args := p.argv.map fun pa => cstr (m.mem pa)
  image := if p.newtable = 0 then none else some (spaceOf m p.newtable)
  imageSz := p.newsz

def Sys.abs (s : Sys) : Ref where
  proc i := absProc s.mach (s.proc i)
  nextpid := s.nextpid
  initproc := s.initproc

/-- An entry of the process table between operations. -/
structure ProcOk (i : ℕ) (p : Proc) : Prop where
  unused : p.state = .unused → p = {}
  used : p.state ≠ .unused → i < nproc ∧ p.pagetable ≠ 0 ∧ p.trapframe ≠ 0
  settled : p.state ≠ .used
  execing : p.inExec = true → p.state = .runnable
  idle : p.inExec = false → p.argv = [] ∧ p.newtable = 0 ∧ p.newsz = 0

section rules
variable {s : Sys} {m : Machine} {E : Panic → Prop} {α : Type} {i j : ℕ} {p : Proc}

@[simp] theorem wp_mach {x : Kernel α} {Q : α → Sys → Prop} :
    wp (mach x) E s Q ↔ wp x E s.mach fun a m => Q a (s.setMach m) := wp_zoom

@[simp] theorem wp_getProc {Q : Proc → Sys → Prop} :
    wp (getProc i) E s Q ↔ Q (s.proc i) s := by
  simp [getProc]

@[simp] theorem wp_setProc {f : Proc → Proc} {Q : Unit → Sys → Prop} :
    wp (setProc i f) E s Q ↔ Q () (s.setProc i (f (s.proc i))) := by
  simp [setProc]

@[simp] theorem setMach_proc : (s.setMach m).proc = s.proc := rfl

@[simp] theorem setMach_mach : (s.setMach m).mach = m := rfl

@[simp] theorem setMach_inventory : (s.setMach m).inventory = s.inventory := rfl

@[simp] theorem setProc_mach : (s.setProc i p).mach = s.mach := rfl

@[simp] theorem setProc_self : (s.setProc i p).proc i = p := Function.update_self _ _ _

theorem setProc_setMach : (s.setProc i p).setMach m = (s.setMach m).setProc i p := rfl

theorem setMach_setMach {m' : Machine} : (s.setMach m).setMach m' = s.setMach m' := rfl

theorem setProc_setProc {q : Proc} : (s.setProc i p).setProc i q = s.setProc i q := by
  simp [Sys.setProc]

theorem setProc_ne (h : j ≠ i) : (s.setProc i p).proc j = s.proc j := Function.update_of_ne h _ _

/-- The inventory after the entry of one process has changed. -/
theorem inventory_setProc : (s.setProc i p).inventory = { s.inventory with
    table := Function.update (Function.update s.inventory.table (.main i) p.pagetable)
      (.image i) p.newtable
    size := Function.update (Function.update s.inventory.size (.main i) p.sz) (.image i) p.newsz
    trapframe := Function.update s.inventory.trapframe i p.trapframe
    argv := Function.update s.inventory.argv i p.argv } := by
  ext k
  · rcases k with j | j <;> by_cases hj : j = i <;>
      simp [Sys.inventory, Sys.setProc, Function.update_apply, hj]
  · rcases k with j | j <;> by_cases hj : j = i <;>
      simp [Sys.inventory, Sys.setProc, Function.update_apply, hj]
  · by_cases hj : k = i <;> simp [Sys.inventory, Sys.setProc, Function.update_apply, hj]
  · by_cases hj : k = i <;> simp [Sys.inventory, Sys.setProc, Function.update_apply, hj]
  · rfl
  · rfl

/-- The part of an entry that names pages. -/
def Proc.pages (p : Proc) : ℕ × ℕ × ℕ × List ℕ × ℕ × ℕ :=
  (p.sz, p.pagetable, p.trapframe, p.argv, p.newtable, p.newsz)

theorem inventory_congr {t : Sys} (hp : ∀ j, (t.proc j).pages = (s.proc j).pages)
    (hpipes : t.pipes = s.pipes) (hk : t.kernelPagetable = s.kernelPagetable) :
    t.inventory = s.inventory := by
  simp only [Proc.pages, Prod.mk.injEq] at hp
  ext k
  · rcases k with j | j <;> simp [Sys.inventory, hp j]
  · rcases k with j | j <;> simp [Sys.inventory, hp j]
  · simp [Sys.inventory, hp k]
  · simp [Sys.inventory, hp k]
  · rw [Sys.inventory, Sys.inventory, hpipes]
  · exact hk

theorem absProc_reparent {o : Option ℕ} :
    absProc m (p.reparent i o) = (absProc m p).reparent i o := by
  unfold Proc.reparent RefProc.reparent
  by_cases h : p.parent = some i
  · rw [if_pos h, if_pos (show (absProc m p).parent = some i from h)]
    rfl
  · rw [if_neg h, if_neg (show ¬(absProc m p).parent = some i from h)]

theorem pages_reparent {o : Option ℕ} : (p.reparent i o).pages = p.pages := by
  unfold Proc.reparent
  split <;> rfl

theorem ProcOk.reparent {o : Option ℕ} (h : ProcOk j p) : ProcOk j (p.reparent i o) := by
  unfold Proc.reparent
  split
  case isTrue hp =>
    refine ⟨?_, h.used, h.settled, h.execing, h.idle⟩
    -- an unused entry has no parent
    intro hun
    rw [h.unused hun] at hp
    cases hp
  case isFalse => exact h

/-- Writing back what is there changes nothing. -/
@[simp] theorem update_table_main :
    Function.update s.inventory.table (.main i) (s.proc i).pagetable = s.inventory.table :=
  Function.update_eq_self _ _

@[simp] theorem update_table_image {r : ℕ} :
    Function.update (Function.update s.inventory.table (.main i) r) (.image i)
      (s.proc i).newtable = Function.update s.inventory.table (.main i) r := by
  rw [Function.update_comm (by simp), show (s.proc i).newtable =
    s.inventory.table (.image i) from rfl, Function.update_eq_self]

@[simp] theorem update_table_newtable :
    Function.update s.inventory.table (.image i) (s.proc i).newtable = s.inventory.table :=
  Function.update_eq_self _ _

@[simp] theorem update_size_main :
    Function.update s.inventory.size (.main i) (s.proc i).sz = s.inventory.size :=
  Function.update_eq_self _ _

@[simp] theorem update_size_image {n : ℕ} :
    Function.update (Function.update s.inventory.size (.main i) n) (.image i)
      (s.proc i).newsz = Function.update s.inventory.size (.main i) n := by
  rw [Function.update_comm (by simp), show (s.proc i).newsz =
    s.inventory.size (.image i) from rfl, Function.update_eq_self]

@[simp] theorem update_size_newsz :
    Function.update s.inventory.size (.image i) (s.proc i).newsz = s.inventory.size :=
  Function.update_eq_self _ _

@[simp] theorem update_trapframe :
    Function.update s.inventory.trapframe i (s.proc i).trapframe = s.inventory.trapframe :=
  Function.update_eq_self _ _

@[simp] theorem update_argv :
    Function.update s.inventory.argv i (s.proc i).argv = s.inventory.argv :=
  Function.update_eq_self _ _

end rules

section abs
variable [Image]

/-- The invariant between operations. -/
def SysOk (s : Sys) : Prop :=
  (∃ own, SysInv s.mach s.inventory own) ∧ ∀ i, ProcOk i (s.proc i)

variable {s t : Sys} {m : Machine} {own own' : ℕ → Owner} {T R X : Set ℕ}

/-- The pages of the arguments are not written behind the back of a process. -/
theorem SysInv.args_eq (h : SysInv s.mach s.inventory own) (hk : KeepsBut T R X s.mach own m own')
    {i : ℕ} (hargv : ∀ pa ∈ (s.proc i).argv, pa ∉ X) :
    (s.proc i).argv.map (fun pa => cstr (m.mem pa)) =
      (s.proc i).argv.map fun pa => cstr (s.mach.mem pa) := by
  apply List.map_congr_left
  intro pa hpa
  have h0 : pa ≠ 0 := fun h0 => (h.argv i).2 (h0 ▸ hpa)
  rw [hk.heldMem pa (.arg i) (hargv pa hpa) ((h.held pa (.arg i)).mpr ⟨h0, hpa⟩)]

/-- A process whose tables and argument pages are left alone looks the same. -/
theorem SysInv.absProc_eq (h : SysInv s.mach s.inventory own)
    (hk : KeepsBut T R X s.mach own m own') {i : ℕ} (hmain : (s.proc i).pagetable ∉ R)
    (himage : (s.proc i).newtable ∉ R) (hargv : ∀ pa ∈ (s.proc i).argv, pa ∉ X) :
    absProc m (s.proc i) = absProc s.mach (s.proc i) := by
  have h1 : spaceOf m (s.proc i).pagetable = spaceOf s.mach (s.proc i).pagetable :=
    h.space_eq (k := .main i) hk hmain
  have h2 : spaceOf m (s.proc i).newtable = spaceOf s.mach (s.proc i).newtable :=
    h.space_eq (k := .image i) hk himage
  unfold absProc
  rw [h1, h2, h.args_eq hk hargv]

theorem SysInv.table_ne {v : Inventory} (h : SysInv m v own) {k l : TableKey} (hne : k ≠ l)
    (h0 : v.table l ≠ 0) : v.table k ≠ v.table l := fun heq =>
  hne (h.inj l k h0 heq.symm).symm

/-- A change of one table is invisible to the other processes. -/
theorem SysInv.absProc_other (h : SysInv s.mach s.inventory own) {k : TableKey}
    (h0 : s.inventory.table k ≠ 0) (hk : Keeps {s.inventory.table k} ∅ s.mach own m own')
    {j : ℕ} (hj : j ≠ k.proc) : absProc m (s.proc j) = absProc s.mach (s.proc j) := by
  have hmain : TableKey.main j ≠ k := by
    rintro rfl
    exact hj rfl
  have himage : TableKey.image j ≠ k := by
    rintro rfl
    exact hj rfl
  exact h.absProc_eq hk (h.table_ne hmain h0) (h.table_ne himage h0) (by simp)

end abs
end Xv6
