import Xv6.Sched.Model

/-! What one action writes. -/
namespace Xv6.Sched
open Act

section effect
variable {s s' : State} {c : ℕ} {ok : Bool} {a : Act} {rest : List Act}

/-- The entry of the process table that an action writes. -/
def State.write (s : State) (ok : Bool) : Act → Option (ℕ × Proc)
  | .setRunnable p => some (p, { s.proc p with state := .runnable })
  | .setSleeping p chan => some (p, { s.proc p with chan := chan, state := .sleeping })
  | .setZombie p status => some (p, { s.proc p with xstate := status, state := .zombie })
  | .clearChan p => some (p, { s.proc p with chan := .null })
  | .wakeupAt chan j => some (j, (s.proc j).wakeup chan)
  | .killAt pid j => if (s.proc j).pid = pid then some (j, (s.proc j).kill) else none
  | .allocAt _ j =>
    if (s.proc j).state = .unused then some (j, { s.proc j with pid := s.nextpid, state := .used })
    else none
  | .allocMemory _ j => some (j, if ok then { s.proc j with memory := true } else {})
  | .copyMemory _ j => if ok then none else some (j, {})
  | .setParent p j => some (j, { s.proc j with parent := some p })
  | .startChild _ j => some (j, { s.proc j with state := .runnable })
  | .reparentFrom p j =>
    if j < s.nproc ∧ (s.proc j).parent = some p then
      some (j, { s.proc j with parent := some s.initproc })
    else none
  | .waitAt _ addr j =>
    if (s.proc j).state = .zombie ∧ ¬(addr ≠ 0 ∧ ok = false) then some (j, {}) else none
  | .scheduleAt j =>
    if (s.proc j).state = .runnable then some (j, { s.proc j with state := .running }) else none
  | _ => none

section
variable (h : s.act c ok a rest = .ok s')
include h

theorem act_proc :
    s'.proc = match s.write ok a with
      | some (j, x) => Function.update s.proc j x
      | none => s.proc := by
  cases a with
  | killAt pid j | allocAt p j | scheduleAt j | copyMemory p j | allocMemory p j =>
    simp only [State.act, State.write] at h ⊢
    split at h
    all_goals
      rename_i hif
      cases h
      simp only [hif, Bool.false_eq_true, ↓reduceIte]
      rfl
  | reparentFrom p j =>
    simp only [State.act, State.write] at h ⊢
    by_cases hj : j < s.nproc <;> by_cases hpar : (s.proc j).parent = some p
    all_goals
      simp only [hj, hpar, and_self, and_true, and_false, ↓reduceIte] at h ⊢
      cases h
      rfl
  | waitAt p addr j =>
    simp only [State.act, State.write] at h ⊢
    by_cases hz : (s.proc j).state = .zombie
    · rw [if_pos hz] at h
      by_cases hcopy : addr ≠ 0 ∧ ok = false
      · rw [if_pos hcopy] at h
        cases h
        rw [if_neg fun hreap => hreap.2 hcopy]
        rfl
      · rw [if_neg hcopy] at h
        cases h
        rw [if_pos ⟨hz, hcopy⟩]
        rfl
    · rw [if_neg hz] at h
      cases h
      rw [if_neg fun hreap => hz hreap.1]
      rfl
  | _ =>
    simp only [State.act, State.write] at h ⊢
    (repeat' split at h) <;> cases h <;> rfl

/-- An entry of the process table stays as it was or is the one that the action writes. -/
theorem act_proc_at (j : ℕ) :
    s'.proc j = s.proc j ∨ ∃ x, s.write ok a = some (j, x) ∧ s'.proc j = x := by
  have hproc := act_proc h
  cases hw : s.write ok a with
  | none =>
    rw [hw] at hproc
    exact Or.inl (congrFun hproc j)
  | some jx =>
    obtain ⟨k, x⟩ := jx
    rw [hw] at hproc
    by_cases hjk : j = k
    · subst hjk
      exact Or.inr ⟨x, rfl, by rw [hproc]; exact Function.update_self _ _ _⟩
    · exact Or.inl (by rw [hproc]; exact Function.update_of_ne hjk _ _)

/-- `c->proc` is set by the scheduler, to a process that is ready, and cleared after it. -/
theorem act_cur :
    s'.cur = s.cur ∨ s'.cur = Function.update s.cur c none ∨
      ∃ j, (s.proc j).state = .runnable ∧ s'.cur = Function.update s.cur c (some j) := by
  cases a with
  | leaveProc =>
    cases h
    exact Or.inr (Or.inl rfl)
  | scheduleAt j =>
    simp only [State.act] at h
    split at h
    · rename_i hrun
      cases h
      exact Or.inr (Or.inr ⟨j, hrun, rfl⟩)
    · cases h
      exact Or.inl rfl
  | _ =>
    left
    simp only [State.act] at h
    (repeat' split at h) <;> cases h <;> rfl

theorem act_nproc : s'.nproc = s.nproc := by
  cases a <;>
  · simp only [State.act] at h
    (repeat' split at h) <;> cases h <;> rfl

/-- A CPU leaves what the others have to do alone. -/
theorem act_todo_other {d : ℕ} (hd : d ≠ c) : s'.todo d = s.todo d := by
  cases a <;>
  · simp only [State.act] at h
    (repeat' split at h) <;> cases h <;> first | rfl | exact Function.update_of_ne hd _ _

end

/-- All that an event can do. -/
theorem step_cases {e : Event} (h : s.step e = .ok s') :
    (∃ c ok a rest, e = .run c ok ∧ s.todo c = a :: rest ∧ s.act c ok a rest = .ok s') ∨ s' = s ∨
    (∃ c f p, e = .call c f ∧ s.todo c = [] ∧ s.cur c = some p ∧ f.enabled s c = true ∧
      s' = s.setTodo c (f.code p)) ∨
    ∃ c i, e = .interrupt c i ∧ s.noff c = 0 ∧ s' = s.setTodo c (i.code ++ s.todo c) := by
  cases e with
  | run c ok =>
    simp only [State.step] at h
    split at h
    · cases h
      exact Or.inr (Or.inl rfl)
    · rename_i a rest htodo
      exact Or.inl ⟨c, ok, a, rest, rfl, htodo, h⟩
  | call c f =>
    simp only [State.step] at h
    split at h
    · rename_i p htodo hcur
      by_cases hf : f.enabled s c = true
      · rw [if_pos hf] at h
        refine Or.inr (Or.inr (Or.inl ⟨c, f, p, rfl, htodo, hcur, hf, ?_⟩))
        split at h
        · split at h <;> cases h
          rfl
        · cases h
          rfl
      · rw [if_neg hf] at h
        cases h
        exact Or.inr (Or.inl rfl)
    · cases h
      exact Or.inr (Or.inl rfl)
  | interrupt c i =>
    simp only [State.step] at h
    split at h
    · rename_i hnoff
      cases h
      exact Or.inr (Or.inr (Or.inr ⟨c, i, rfl, hnoff, rfl⟩))
    · cases h
      exact Or.inr (Or.inl rfl)

end effect
end Xv6.Sched
