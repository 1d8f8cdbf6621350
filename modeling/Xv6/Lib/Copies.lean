import Mathlib.Data.List.Basic
import Mathlib.Logic.Function.Basic

/-! Cells copied one after the other within one memory, where a copy may overwrite a cell that a
later one would still have read. -/
namespace Copies
variable {α β : Type*} [DecidableEq α]

/-- Copy the second cell of each pair to the first, in order. -/
def copyAll (m : α → β) (ps : List (α × α)) : α → β :=
  ps.foldl (fun m p => Function.update m p.1 (m p.2)) m

/-- No pair writes a cell that a later pair reads or writes. -/
def InOrder (ps : List (α × α)) : Prop := ps.Pairwise fun p q => p.1 ≠ q.1 ∧ p.1 ≠ q.2

variable {m : α → β} {ps : List (α × α)}

@[simp] theorem copyAll_cons (m : α → β) (p : α × α) (ps : List (α × α)) :
    copyAll m (p :: ps) = copyAll (Function.update m p.1 (m p.2)) ps := rfl

theorem copyAll_outside {a : α} (h : ∀ p ∈ ps, a ≠ p.1) : copyAll m ps a = m a := by
  induction ps generalizing m with
  | nil => rfl
  | cons p ps ih =>
    rw [copyAll_cons, ih fun q hq => h q (List.mem_cons_of_mem p hq),
      Function.update_of_ne (h p (List.mem_cons_self ..))]

/-- Every target gets what its source held at the start. -/
theorem copyAll_inside (h : InOrder ps) {p : α × α} (hp : p ∈ ps) :
    copyAll m ps p.1 = m p.2 := by
  induction ps generalizing m with
  | nil => cases hp
  | cons q ps ih =>
    obtain ⟨hq, hrest⟩ := List.pairwise_cons.1 h
    rw [copyAll_cons]
    rcases List.mem_cons.1 hp with rfl | hp
    · rw [copyAll_outside fun r hr => (hq r hr).1, Function.update_self]
    · rw [ih hrest hp, Function.update_of_ne (hq p hp).2.symm]

end Copies
