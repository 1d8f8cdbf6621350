import Mathlib.Logic.Basic

/-! Programs over a state that may stop with an error, and their weakest preconditions. The
rules are equivalences, so that `simp` runs a straight-line program symbolically; the call of
a function with a known specification is taken by `wp_mono`. -/
namespace Program
variable {σ τ ε α β : Type}

/-- A program over `σ` that returns an `α` or stops with an `ε`. -/
abbrev Prog (σ ε α : Type) := StateT σ (Except ε) α

/-- `Q` holds of the result and the final state if the program returns, `E` of the error if it
stops. -/
def wp (x : Prog σ ε α) (E : ε → Prop) (s : σ) (Q : α → σ → Prop) : Prop :=
  match x s with
  | .ok (a, t) => Q a t
  | .error e => E e

variable {E : ε → Prop} {s : σ} {Q : α → σ → Prop}
variable {x : Prog σ ε α}

theorem wp_ok {a : α} {t : σ} (h : x s = .ok (a, t)) : wp x E s Q ↔ Q a t := by
  simp [wp, h]

theorem wp_error {e : ε} (h : x s = .error e) : wp x E s Q ↔ E e := by
  simp [wp, h]

@[simp] theorem wp_pure (a : α) : wp (pure a : Prog σ ε α) E s Q ↔ Q a s := Iff.rfl

@[simp] theorem wp_bind (x : Prog σ ε β) (f : β → Prog σ ε α) :
    wp (x >>= f) E s Q ↔ wp x E s fun b t => wp (f b) E t Q := by
  unfold wp
  show (match StateT.bind x f s with | .ok (a, t) => Q a t | .error e => E e) ↔ _
  unfold StateT.bind
  cases x s <;> rfl

@[simp] theorem wp_map (f : β → α) (x : Prog σ ε β) :
    wp (f <$> x) E s Q ↔ wp x E s fun b t => Q (f b) t := by
  unfold wp
  show (match StateT.map f x s with | .ok (a, t) => Q a t | .error e => E e) ↔ _
  unfold StateT.map
  cases x s <;> rfl

@[simp] theorem wp_get {Q : σ → σ → Prop} : wp (get : Prog σ ε σ) E s Q ↔ Q s s := Iff.rfl

@[simp] theorem wp_set (t : σ) {Q : PUnit → σ → Prop} :
    wp (set t : Prog σ ε PUnit) E s Q ↔ Q ⟨⟩ t := Iff.rfl

@[simp] theorem wp_modify (f : σ → σ) {Q : PUnit → σ → Prop} :
    wp (modify f : Prog σ ε PUnit) E s Q ↔ Q ⟨⟩ (f s) := Iff.rfl

@[simp] theorem wp_throw (e : ε) : wp (throw e : Prog σ ε α) E s Q ↔ E e := Iff.rfl

theorem wp_ite {c : Prop} [Decidable c] {x y : Prog σ ε α} :
    wp (if c then x else y) E s Q ↔ (c → wp x E s Q) ∧ (¬c → wp y E s Q) := by
  by_cases h : c <;> simp [h]

theorem wp_mono {P : α → σ → Prop} (h : wp x E s P) (hpq : ∀ a t, P a t → Q a t) : wp x E s Q := by
  unfold wp at h ⊢
  cases hx : x s with
  | ok r =>
    rw [hx] at h
    exact hpq _ _ h
  | error e =>
    rw [hx] at h
    exact h

theorem wp_and {P : α → σ → Prop} (hp : wp x E s P) (hq : wp x E s Q) :
    wp x E s fun a t => P a t ∧ Q a t := by
  unfold wp at hp hq ⊢
  cases hx : x s with
  | ok r =>
    rw [hx] at hp hq
    exact ⟨hp, hq⟩
  | error e =>
    rw [hx] at hp
    exact hp

/-- A program that may not stop returns. -/
theorem exists_of_wp (hE : ∀ e, ¬E e) (h : wp x E s Q) : ∃ a t, x s = .ok (a, t) ∧ Q a t := by
  unfold wp at h
  cases hx : x s with
  | ok r =>
    rw [hx] at h
    exact ⟨r.1, r.2, rfl, h⟩
  | error e =>
    rw [hx] at h
    exact absurd h (hE e)

/-- A program on a component `τ` of the state, read and written back by a lens. -/
def zoom (read : σ → τ) (write : σ → τ → σ) (x : Prog τ ε α) : Prog σ ε α := fun s =>
  match x (read s) with
  | .ok (a, t) => .ok (a, write s t)
  | .error e => .error e

@[simp] theorem wp_zoom {read : σ → τ} {write : σ → τ → σ} {x : Prog τ ε α} :
    wp (zoom read write x) E s Q ↔ wp x E (read s) fun a t => Q a (write s t) := by
  unfold wp zoom
  cases x (read s) <;> rfl

/-- The state in which a program ends. -/
def exec (x : Prog σ ε α) (s : σ) : Except ε σ := (x s).map Prod.snd

theorem exec_ok {P : σ → Prop} {t : σ} (h : wp x E s fun _ t => P t)
    (hx : exec x s = .ok t) : P t := by
  unfold exec at hx
  unfold wp at h
  cases hrun : x s with
  | ok r =>
    rw [hrun] at hx h
    obtain rfl := Except.ok.inj hx
    exact h
  | error e =>
    rw [hrun] at hx
    contradiction

theorem exec_error {e : ε} (h : wp x E s Q) (hx : exec x s = .error e) : E e := by
  unfold exec at hx
  unfold wp at h
  cases hrun : x s with
  | ok r =>
    rw [hrun] at hx
    contradiction
  | error e' =>
    rw [hrun] at hx h
    obtain rfl := Except.error.inj hx
    exact h

-- the rules above are all that proofs about programs use
attribute [irreducible] wp

end Program
