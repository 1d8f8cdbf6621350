import Mathlib.Logic.Function.Basic

/-! Exclusive ownership: a table of places, each of which may own one thing, and a record of the
things in use. The record is exact when the things in use are those that are reserved and those that
some place owns. -/
namespace Owners
open Function
variable {K B : Type*} {used : B → Bool} {reserved : B → Prop} {owns : K → Option B}

structure Exact (used : B → Bool) (reserved : B → Prop) (owns : K → Option B) : Prop where
  exclusive : ∀ k k' b, owns k = some b → owns k' = some b → k = k'
  unreserved : ∀ k b, owns k = some b → ¬reserved b
  used_iff : ∀ b, used b = true ↔ reserved b ∨ ∃ k, owns k = some b

theorem Exact.used_of_owns (h : Exact used reserved owns) {k : K} {b : B} (hk : owns k = some b) :
    used b = true :=
  (h.used_iff b).2 (.inr ⟨k, hk⟩)

theorem Exact.ne_of_unused (h : Exact used reserved owns) {k : K} {b c : B} (hk : owns k = some b)
    (hc : used c = false) : b ≠ c := by
  rintro rfl
  rw [h.used_of_owns hk] at hc
  contradiction

variable [DecidableEq K] [DecidableEq B]

/-- A place that owns nothing takes a thing that is not in use. -/
theorem Exact.take (h : Exact used reserved owns) {k : K} {b : B} (hk : owns k = none)
    (hb : used b = false) : Exact (update used b true) reserved (update owns k (some b)) := by
  have hfree : ∀ k', owns k' ≠ some b := fun k' hk' => h.ne_of_unused hk' hb rfl
  have hres : ¬reserved b := fun hr => by
    rw [(h.used_iff b).2 (.inl hr)] at hb
    contradiction
  refine ⟨fun k₁ k₂ c h₁ h₂ => ?_, fun k' c hc => ?_, fun c => ?_⟩
  · by_cases hk₁ : k₁ = k <;> by_cases hk₂ : k₂ = k
    · rw [hk₁, hk₂]
    · rw [hk₁, update_self] at h₁
      rw [update_of_ne hk₂, ← h₁] at h₂
      exact absurd h₂ (hfree k₂)
    · rw [hk₂, update_self] at h₂
      rw [update_of_ne hk₁, ← h₂] at h₁
      exact absurd h₁ (hfree k₁)
    · rw [update_of_ne hk₁] at h₁
      rw [update_of_ne hk₂] at h₂
      exact h.exclusive k₁ k₂ c h₁ h₂
  · by_cases hk' : k' = k
    · rw [hk', update_self, Option.some.injEq] at hc
      exact hc ▸ hres
    · rw [update_of_ne hk'] at hc
      exact h.unreserved k' c hc
  · by_cases hc : c = b
    · subst hc
      rw [update_self]
      exact ⟨fun _ => .inr ⟨k, update_self ..⟩, fun _ => rfl⟩
    · rw [update_of_ne hc, h.used_iff]
      refine or_congr_right ⟨fun ⟨k', hk'⟩ => ⟨k', ?_⟩, fun ⟨k', hk'⟩ => ⟨k', ?_⟩⟩
      · have hne : k' ≠ k := by
          rintro rfl
          rw [hk] at hk'
          contradiction
        rw [update_of_ne hne, hk']
      · have hne : k' ≠ k := by
          rintro rfl
          rw [update_self, Option.some.injEq] at hk'
          exact hc hk'.symm
        rwa [update_of_ne hne] at hk'

/-- A place gives up what it owns. -/
theorem Exact.drop (h : Exact used reserved owns) {k : K} {b : B} (hk : owns k = some b) :
    Exact (update used b false) reserved (update owns k none) := by
  have hsome : ∀ k' c, update owns k none k' = some c → k' ≠ k ∧ owns k' = some c := by
    intro k' c hc
    by_cases hk' : k' = k
    · rw [hk', update_self] at hc
      contradiction
    · rw [update_of_ne hk'] at hc
      exact ⟨hk', hc⟩
  refine ⟨fun k₁ k₂ c h₁ h₂ => ?_, fun k' c hc => h.unreserved k' c (hsome k' c hc).2, fun c => ?_⟩
  · exact h.exclusive k₁ k₂ c (hsome k₁ c h₁).2 (hsome k₂ c h₂).2
  · by_cases hc : c = b
    · subst hc
      rw [update_self]
      refine ⟨fun hf => absurd hf (by decide), fun hor => ?_⟩
      obtain hr | ⟨k', hk'⟩ := hor
      · exact absurd hr (h.unreserved k c hk)
      · obtain ⟨hne, hown⟩ := hsome k' c hk'
        exact absurd (h.exclusive k' k c hown hk) hne
    · rw [update_of_ne hc, h.used_iff]
      refine or_congr_right ⟨fun ⟨k', hk'⟩ => ⟨k', ?_⟩, fun ⟨k', hk'⟩ => ⟨k', (hsome k' c hk').2⟩⟩
      have hne : k' ≠ k := by
        rintro rfl
        rw [hk, Option.some.injEq] at hk'
        exact hc hk'.symm
      rw [update_of_ne hne, hk']

end Owners
