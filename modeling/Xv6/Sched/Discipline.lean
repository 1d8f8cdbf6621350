import Xv6.Sched.Effect

/-! The locking discipline of `proc.c`: what a thread may do next depends on the locks it holds
and on a few facts about its own process that these locks protect. -/
namespace Xv6.Sched
open Act

/-- How far a child of `fork` is: it has an entry, it has memory, it has its parent. -/
inductive Stage where
  | bare
  | made
  | adopted
  deriving DecidableEq, Repr

/-- What a thread knows. `away` is the state it has left `RUNNING` for, `child` the entry that
`fork` is filling. While it holds `wait_lock`, `kid` is a child of the process and the entries
below `kidless` are not. -/
structure Local where
  held : List Lock := []
  away : Option ProcState := none
  child : Option (ℕ × Stage) := none
  kid : Option ℕ := none
  kidless : ℕ := 0

/-- The lock is taken. Facts about parents start anew with `wait_lock`. -/
def Local.take (L : Local) (l : Lock) : Local :=
  { L with
    held := l :: L.held
    kid := if l = .wait then none else L.kid
    kidless := if l = .wait then 0 else L.kidless }

def Local.drop (L : Local) (l : Lock) : Local := { L with held := L.held.erase l }

/-- No lock of a process is held, as `wakeup` demands. -/
def Local.NoProc (L : Local) : Prop := ∀ i, Lock.proc i ∉ L.held

/-- The code of a thread respects the discipline, from what the thread knows now. `n` is the
size of the process table, `init` the first process. -/
inductive Safe (n init : ℕ) : Thread → Local → List Act → Prop where
  | idle {p : ℕ} {L : Local} (hheld : ∀ l ∈ L.held, ∃ k, l = .other k) (haway : L.away = none)
      (hchild : L.child = none) : Safe n init (.proc p) L []
  | acquire {t : Thread} {L : Local} {l : Lock} {code : List Act} (hl : l ∉ L.held)
      (h : Safe n init t (L.take l) code) : Safe n init t L (acquire l :: code)
  | release {t : Thread} {L : Local} {l : Lock} {code : List Act} (hl : l ∈ L.held)
      (haway : L.away ≠ none → ∀ p, t = .proc p → l ≠ .proc p)
      (h : Safe n init t (L.drop l) code) : Safe n init t L (release l :: code)
  | setRunnable {p : ℕ} {L : Local} {code : List Act} (hl : .proc p ∈ L.held)
      (haway : L.away = none) (h : Safe n init (.proc p) { L with away := some .runnable } code) :
      Safe n init (.proc p) L (setRunnable p :: code)
  | setSleeping {p : ℕ} {L : Local} {chan : Chan} {code : List Act} (hl : .proc p ∈ L.held)
      (haway : L.away = none) (h : Safe n init (.proc p) { L with away := some .sleeping } code) :
      Safe n init (.proc p) L (setSleeping p chan :: code)
  | setZombie {p : ℕ} {L : Local} {status : ℤ} {code : List Act} (hl : .proc p ∈ L.held)
      (hw : .wait ∈ L.held) (haway : L.away = none) (hchild : L.child = none)
      (hkid : n ≤ L.kidless) (hinit : p ≠ init)
      (h : Safe n init (.proc p) { L with away := some .zombie } code) :
      Safe n init (.proc p) L (setZombie p status :: code)
  | sched {p : ℕ} {L : Local} {st : ProcState} {code : List Act} (hl : L.held = [.proc p])
      (haway : L.away = some st) (hchild : st = .zombie → L.child = none)
      (h : st ≠ .zombie → Safe n init (.proc p) { L with away := none } code) :
      Safe n init (.proc p) L (sched :: code)
  | clearChan {p : ℕ} {L : Local} {code : List Act} (hl : .proc p ∈ L.held) (haway : L.away = none)
      (h : Safe n init (.proc p) L code) : Safe n init (.proc p) L (clearChan p :: code)
  | wakeupFrom {t : Thread} {L : Local} {chan : Chan} {j : ℕ} {code : List Act} (hl : L.NoProc)
      (haway : L.away = none) (h : Safe n init t L code) :
      Safe n init t L (wakeupFrom chan j :: code)
  | wakeupAt {t : Thread} {L : Local} {chan : Chan} {j : ℕ} {code : List Act}
      (hl : .proc j ∈ L.held) (ht : t ≠ .proc j) (h : Safe n init t L code) :
      Safe n init t L (wakeupAt chan j :: code)
  | killFrom {t : Thread} {L : Local} {pid : Pid} {j : ℕ} {code : List Act} (hl : L.held = [])
      (haway : L.away = none) (h : Safe n init t L code) : Safe n init t L (killFrom pid j :: code)
  | killAt {t : Thread} {L : Local} {pid : Pid} {j : ℕ} {code : List Act}
      (hl : L.held = [.proc j]) (haway : L.away = none)
      (h : Safe n init t { L with held := [] } code) : Safe n init t L (killAt pid j :: code)
  | allocFrom {p : ℕ} {L : Local} {j : ℕ} {code : List Act} (hl : L.held = [])
      (haway : L.away = none) (hchild : L.child = none) (h : Safe n init (.proc p) {} code) :
      Safe n init (.proc p) L (allocFrom p j :: code)
  | allocAt {p : ℕ} {L : Local} {j : ℕ} {code : List Act} (hj : j < n) (hl : L.held = [.proc j])
      (haway : L.away = none) (hchild : L.child = none) (h : Safe n init (.proc p) {} code) :
      Safe n init (.proc p) L (allocAt p j :: code)
  | allocMemory {p : ℕ} {L : Local} {j : ℕ} {code : List Act} (hl : L.held = [.proc j])
      (haway : L.away = none) (hchild : L.child = some (j, .bare))
      (h : Safe n init (.proc p) {} code) : Safe n init (.proc p) L (allocMemory p j :: code)
  | copyMemory {p : ℕ} {L : Local} {j : ℕ} {code : List Act} (hl : L.held = [.proc j])
      (haway : L.away = none) (hchild : L.child = some (j, .made))
      (h : Safe n init (.proc p) {} code) : Safe n init (.proc p) L (copyMemory p j :: code)
  | setParent {p : ℕ} {L : Local} {j : ℕ} {code : List Act} (hw : L.held = [.wait])
      (haway : L.away = none) (hchild : L.child = some (j, .made))
      (h : Safe n init (.proc p)
        { L with child := some (j, .adopted), kid := none, kidless := 0 } code) :
      Safe n init (.proc p) L (setParent p j :: code)
  | startChild {p : ℕ} {L : Local} {j : ℕ} {code : List Act} (hl : L.held = [.proc j])
      (haway : L.away = none) (hchild : L.child = some (j, .adopted))
      (h : Safe n init (.proc p) { L with child := none } code) :
      Safe n init (.proc p) L (startChild p j :: code)
  | reparentFrom {p : ℕ} {L : Local} {j : ℕ} {code : List Act} (hw : L.held = [.wait])
      (haway : L.away = none) (hchild : L.child = none) (hinit : p ≠ init) (hj : j ≤ L.kidless)
      (h : Safe n init (.proc p) { held := [.wait], kidless := n } code) :
      Safe n init (.proc p) L (reparentFrom p j :: code)
  | wakeupParent {p : ℕ} {L : Local} {code : List Act} (hl : L.NoProc) (haway : L.away = none)
      (h : Safe n init (.proc p) L code) : Safe n init (.proc p) L (wakeupParent p :: code)
  | waitFrom {p : ℕ} {L : Local} {addr j : ℕ} {havekids : Bool} {code : List Act}
      (hl : L.held = [.wait]) (haway : L.away = none) (hchild : L.child = none)
      (hkids : havekids = false → j ≤ L.kidless) (h : Safe n init (.proc p) {} code) :
      Safe n init (.proc p) L (waitFrom p addr j havekids :: code)
  | waitAt {p : ℕ} {L : Local} {addr j : ℕ} {code : List Act} (hl : L.held = [.proc j, .wait])
      (haway : L.away = none) (hchild : L.child = none) (hkid : L.kid = some j)
      (h : Safe n init (.proc p) {} code) : Safe n init (.proc p) L (waitAt p addr j :: code)
  | scheduleFrom {c : ℕ} {L : Local} {j : ℕ} {code : List Act} (hl : L.held = []) :
      Safe n init (.sched c) L (scheduleFrom j :: code)
  | scheduleAt {c : ℕ} {L : Local} {j : ℕ} {code : List Act} (hl : L.held = [.proc j]) :
      Safe n init (.sched c) L (scheduleAt j :: code)
  | forkret {p : ℕ} {L : Local} {code : List Act} (hl : L.held = [.proc p]) (haway : L.away = none)
      (h : Safe n init (.proc p) { L with held := [] } code) :
      Safe n init (.proc p) L (forkret :: code)
  | timer {t : Thread} {L : Local} {code : List Act} (hl : L.held = []) (haway : L.away = none)
      (h : Safe n init t L code) : Safe n init t L (timer :: code)
  | ret {t : Thread} {L : Local} {r : Result} {code : List Act} (h : Safe n init t L code) :
      Safe n init t L (ret r :: code)

section code
variable {n init p : ℕ} {t : Thread} {L : Local} {code : List Act}

theorem Local.drop_take (l : Lock) (hl : l ≠ .wait) : (L.take l).drop l = L := by
  simp [Local.take, Local.drop, hl]

theorem safe_yield (hl : L.held = []) (haway : L.away = none) (h : Safe n init (.proc p) L code) :
    Safe n init (.proc p) L (yield p ++ code) := by
  obtain ⟨_, _, child, kid, kidless⟩ := L
  obtain rfl : _ = _ := hl
  obtain rfl : _ = _ := haway
  refine .acquire (by simp) (.setRunnable (by simp [Local.take]) rfl (.sched rfl rfl (by simp) ?_))
  intro _
  refine .release (by simp [Local.take]) (by simp) ?_
  simpa [Local.take, Local.drop] using h

theorem safe_sleep {chan : Chan} {lk : Lock} (hl : L.held = [lk]) (hlk : ∀ i, lk ≠ .proc i)
    (haway : L.away = none) (h : Safe n init (.proc p) ({ L with held := [] }.take lk) code) :
    Safe n init (.proc p) L (sleep p chan lk ++ code) := by
  obtain ⟨_, _, child, kid, kidless⟩ := L
  obtain rfl : _ = _ := hl
  obtain rfl : _ = _ := haway
  have hne : Lock.proc p ≠ lk := fun heq => hlk p heq.symm
  refine .acquire (by simpa using hne) (.release (by simp [Local.take]) (by simp [Local.take]) ?_)
  refine .setSleeping (by simp [Local.take, Local.drop, hne]) (by simp [Local.take, Local.drop])
    (.sched (by simp [Local.take, Local.drop, hne]) rfl (by simp) ?_)
  intro _
  refine .clearChan (by simp [Local.take, Local.drop, hne]) rfl
    (.release (by simp [Local.take, Local.drop, hne]) (by simp) (.acquire ?_ ?_))
  · simp [Local.take, Local.drop, hne]
  · simpa [Local.take, Local.drop, hne] using h

theorem safe_exit {status : ℤ} (hl : L.held = []) (haway : L.away = none) (hchild : L.child = none)
    (hinit : p ≠ init) : Safe n init (.proc p) L (exit p status) := by
  obtain ⟨_, _, _, kid, kidless⟩ := L
  obtain rfl : _ = _ := hl
  obtain rfl : _ = _ := haway
  obtain rfl : _ = _ := hchild
  refine .acquire (by simp) (.reparentFrom (by simp [Local.take]) rfl rfl hinit (by simp) ?_)
  refine .wakeupParent (by simp [Local.NoProc]) rfl (.acquire (by simp) ?_)
  refine .setZombie (by simp [Local.take]) (by simp [Local.take]) rfl rfl (by simp [Local.take])
    hinit (.release (by simp [Local.take]) (by simp) ?_)
  exact .sched (by simp [Local.take, Local.drop]) rfl (by simp [Local.take, Local.drop]) (by simp)

theorem safe_wait (addr : ℕ) (hl : L.held = []) (haway : L.away = none) (hchild : L.child = none)
    (h : Safe n init (.proc p) {} code) : Safe n init (.proc p) L (wait p addr ++ code) := by
  refine .acquire (by simp [hl]) (.waitFrom (by simp [Local.take, hl]) haway hchild (by simp) h)

/-- `fork` from the moment the child has memory. -/
theorem safe_forkEnd {j : ℕ} {pid : Pid} (hl : L.held = [.proc j]) (haway : L.away = none)
    (hchild : L.child = some (j, .made)) (h : Safe n init (.proc p) {} code) :
    Safe n init (.proc p) L (forkEnd p j pid ++ code) := by
  obtain ⟨_, _, _, kid, kidless⟩ := L
  obtain rfl : _ = _ := hl
  obtain rfl : _ = _ := haway
  obtain rfl : _ = _ := hchild
  refine .release (by simp) (by simp) (.acquire (by simp [Local.drop]) ?_)
  refine .setParent (by simp [Local.take, Local.drop]) rfl rfl ?_
  refine .release (by simp [Local.take, Local.drop]) (by simp [Local.take, Local.drop]) ?_
  refine .acquire (by simp [Local.take, Local.drop]) (.startChild ?_ rfl rfl ?_)
  · simp [Local.take, Local.drop]
  · refine .release (by simp [Local.take, Local.drop]) (by simp [Local.take, Local.drop]) (.ret ?_)
    simpa [Local.take, Local.drop] using h

end code
end Xv6.Sched
