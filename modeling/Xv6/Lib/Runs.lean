import Mathlib.Data.List.Basic

/-! Runs of a step function that may stop, and the induction over them. -/
namespace Runs
variable {σ α ε : Type*}

/-- Take the labelled steps in order; the first one that stops ends the run. -/
def run (step : σ → α → Except ε σ) : σ → List α → Except ε σ
  | s, [] => .ok s
  | s, a :: as =>
    match step s a with
    | .ok t => run step t as
    | .error e => .error e

variable {step : σ → α → Except ε σ}

@[simp] theorem run_nil (s : σ) : run step s [] = .ok s := rfl

theorem run_cons_ok {s t : σ} {a : α} (h : step s a = .ok t) (as : List α) :
    run step s (a :: as) = run step t as := by
  simp [run, h]

variable {s : σ}

theorem run_cons_error {a : α} {e : ε} (h : step s a = .error e) (as : List α) :
    run step s (a :: as) = .error e := by
  simp [run, h]

variable {as : List α}

theorem run_append_ok {s t : σ} (h : run step s as = .ok t) (bs : List α) :
    run step s (as ++ bs) = run step t bs := by
  induction as generalizing s with
  | nil =>
    obtain rfl : s = t := by simpa using h
    rfl
  | cons a as ih =>
    cases hs : step s a with
    | ok u =>
      rw [run_cons_ok hs] at h
      rw [List.cons_append, run_cons_ok hs, ih h]
    | error e =>
      rw [run_cons_error hs] at h
      contradiction

theorem run_append_error {e : ε} (h : run step s as = .error e)
    (bs : List α) : run step s (as ++ bs) = .error e := by
  induction as generalizing s with
  | nil => contradiction
  | cons a as ih =>
    cases hs : step s a with
    | ok u =>
      rw [run_cons_ok hs] at h
      rw [List.cons_append, run_cons_ok hs, ih h]
    | error e' =>
      rw [run_cons_error hs] at h
      rw [List.cons_append, run_cons_error hs, h]

/-- A predicate kept by every step holds after every run that does not stop. -/
theorem run_inv (I : σ → Prop) (hstep : ∀ s a t, I s → step s a = .ok t → I t) {s t : σ} (hs : I s)
    (h : run step s as = .ok t) : I t := by
  induction as generalizing s with
  | nil =>
    obtain rfl : s = t := by simpa using h
    exact hs
  | cons a as ih =>
    cases hst : step s a with
    | ok u =>
      rw [run_cons_ok hst] at h
      exact ih (hstep s a u hs hst) h
    | error e =>
      rw [run_cons_error hst] at h
      contradiction

/-- A stopped run stops at one of its labels, in a state its prefix reaches. -/
theorem run_error {e : ε} (h : run step s as = .error e) :
    ∃ pre a post t, as = pre ++ a :: post ∧ run step s pre = .ok t ∧ step t a = .error e := by
  induction as generalizing s with
  | nil => contradiction
  | cons a as ih =>
    cases hs : step s a with
    | ok u =>
      rw [run_cons_ok hs] at h
      obtain ⟨pre, b, post, t, rfl, hr, hb⟩ := ih h
      exact ⟨a :: pre, b, post, t, rfl, by rw [run_cons_ok hs, hr], hb⟩
    | error e' =>
      rw [run_cons_error hs] at h
      exact ⟨[], a, as, s, rfl, rfl, by rw [hs, h]⟩

/-- The last step of a run that ends well. -/
theorem run_snoc_ok {s t : σ} {a : α} (h : run step s (as ++ [a]) = .ok t) :
    ∃ u, run step s as = .ok u ∧ step u a = .ok t := by
  cases hr : run step s as with
  | ok u =>
    rw [run_append_ok hr] at h
    cases hs : step u a with
    | ok v =>
      rw [run_cons_ok hs, run_nil] at h
      exact ⟨u, rfl, by rw [hs, h]⟩
    | error e =>
      rw [run_cons_error hs] at h
      contradiction
  | error e =>
    rw [run_append_error hr] at h
    contradiction

/-- Every step of the run meets the condition. -/
def Meets (step : σ → α → Except ε σ) (P : σ → α → Prop) : σ → List α → Prop
  | _, [] => True
  | s, a :: as => P s a ∧ ∀ t, step s a = .ok t → Meets step P t as

/-- A predicate kept by every step that meets the condition holds after every run whose steps
all meet it. -/
theorem run_inv_meets {P : σ → α → Prop} (I : σ → Prop)
    (hstep : ∀ s a t, I s → P s a → step s a = .ok t → I t) {s t : σ} (hs : I s)
    (hP : Meets step P s as) (h : run step s as = .ok t) : I t := by
  induction as generalizing s with
  | nil =>
    obtain rfl : s = t := by simpa using h
    exact hs
  | cons a as ih =>
    cases hst : step s a with
    | ok u =>
      rw [run_cons_ok hst] at h
      exact ih (hstep s a u hs hP.1 hst) (hP.2 u hst) h
    | error e =>
      rw [run_cons_error hst] at h
      contradiction

/-- The predicate holds in every state of the run. -/
def Throughout (step : σ → α → Except ε σ) (P : σ → Prop) (s : σ) (as : List α) : Prop :=
  ∀ pre t, pre <+: as → run step s pre = .ok t → P t

theorem throughout_nil {P : σ → Prop} : Throughout step P s [] ↔ P s := by
  constructor
  · intro h
    exact h [] s (List.prefix_refl _) rfl
  · intro h pre t hpre hrun
    obtain rfl := List.prefix_nil.1 hpre
    obtain rfl : s = t := by simpa using hrun
    exact h

theorem throughout_cons {P : σ → Prop} {a : α} :
    Throughout step P s (a :: as) ↔ P s ∧ ∀ t, step s a = .ok t → Throughout step P t as := by
  constructor
  · intro h
    refine ⟨h [] s (List.nil_prefix) rfl, fun t hst pre u hpre hrun => ?_⟩
    exact h (a :: pre) u (List.cons_prefix_cons.2 ⟨rfl, hpre⟩) (by rw [run_cons_ok hst, hrun])
  · rintro ⟨hs, h⟩ pre u hpre hrun
    cases pre with
    | nil =>
      obtain rfl : s = u := by simpa using hrun
      exact hs
    | cons b pre =>
      obtain ⟨rfl, hpre'⟩ := List.cons_prefix_cons.1 hpre
      cases hst : step s b with
      | ok t =>
        rw [run_cons_ok hst] at hrun
        exact h t hst pre u hpre' hrun
      | error e =>
        rw [run_cons_error hst] at hrun
        contradiction

/-- A predicate kept by every step from a state with `P` holds throughout a run whose states all have
`P`. -/
theorem Throughout.induct {P I : σ → Prop} (hP : Throughout step P s as) (hs : I s)
    (hstep : ∀ s, ∀ a ∈ as, ∀ t, I s → P s → step s a = .ok t → I t) : Throughout step I s as := by
  induction as generalizing s with
  | nil => exact throughout_nil.2 hs
  | cons a as ih =>
    rw [throughout_cons] at hP ⊢
    refine ⟨hs, fun t hst => ?_⟩
    exact ih (hP.2 t hst) (hstep s a List.mem_cons_self t hs hP.1 hst)
      fun s b hb => hstep s b (List.mem_cons_of_mem _ hb)

end Runs
