import Mathlib.Data.Set.Card

/-! Reference counting over a table of references: `refs k = some p` says that the place `k`
refers to `p`. One lemma says what an update of one place does to every count. -/
namespace RefCount
variable {K P : Type*} {refs : K → Option P}

/-- The places that refer to `p`. -/
def referrers (refs : K → Option P) (p : P) : Set K := {k | refs k = some p}

/-- How many places refer to `p`. -/
noncomputable def refCount (refs : K → Option P) (p : P) : ℕ := (referrers refs p).ncard

/-- Only finitely many places refer to anything. -/
def FiniteRefs (refs : K → Option P) : Prop := {k | refs k ≠ none}.Finite

theorem FiniteRefs.referrers (h : FiniteRefs refs) (p : P) : (referrers refs p).Finite := by
  apply Set.Finite.subset h
  intro k hk
  simp_all [RefCount.referrers]

theorem FiniteRefs.update [DecidableEq K] (h : FiniteRefs refs) (k : K) (v : Option P) :
    FiniteRefs (Function.update refs k v) := by
  apply Set.Finite.subset (Set.Finite.insert k h)
  intro k' hk'
  by_cases hkk : k' = k
  · exact Or.inl hkk
  · exact Or.inr (by simpa [Function.update_of_ne hkk] using hk')

theorem refCount_pos (h : FiniteRefs refs) {k : K} {p : P} (hk : refs k = some p) :
    0 < refCount refs p :=
  (Set.ncard_pos (h.referrers p)).mpr ⟨k, hk⟩

theorem exists_of_refCount_pos {p : P} (h : 0 < refCount refs p) : ∃ k, refs k = some p :=
  Set.nonempty_of_ncard_ne_zero h.ne'

/-- With a count of one the referrer is unique. -/
theorem unique_of_refCount_eq_one {p : P} (h : refCount refs p = 1) {k k' : K}
    (hk : refs k = some p) (hk' : refs k' = some p) : k = k' := by
  obtain ⟨a, ha⟩ := Set.ncard_eq_one.mp h
  have hka : k ∈ referrers refs p := hk
  have hka' : k' ∈ referrers refs p := hk'
  rw [ha, Set.mem_singleton_iff] at hka hka'
  rw [hka, hka']

/-- What an update of one place does to a count: the old value's count loses the place and the
new value's count gains it. -/
theorem refCount_update [DecidableEq K] [DecidableEq P] (h : FiniteRefs refs) (k : K)
    (v : Option P) (p : P) :
    refCount (Function.update refs k v) p + (if refs k = some p then 1 else 0) =
      refCount refs p + (if v = some p then 1 else 0) := by
  -- both sides count the places other than `k` and then `k` itself
  have hrest : ∀ w : Option P,
      referrers (Function.update refs k w) p \ {k} = referrers refs p \ {k} := by
    intro w
    ext k'
    by_cases hk : k' = k
    · simp [hk]
    · simp [referrers, Function.update_of_ne hk]
  have hcount : ∀ w : Option P, refCount (Function.update refs k w) p =
      (referrers refs p \ {k}).ncard + (if w = some p then 1 else 0) := by
    intro w
    have hfin := (h.update k w).referrers p
    by_cases hw : w = some p
    · have hmem : k ∈ referrers (Function.update refs k w) p := by simp [referrers, hw]
      rw [if_pos hw, ← hrest w, Set.ncard_sdiff_singleton_add_one hmem hfin]
      rfl
    · have hmem : k ∉ referrers (Function.update refs k w) p := by simp [referrers, hw]
      rw [if_neg hw, ← hrest w, Set.sdiff_singleton_eq_self hmem]
      rfl
  have hself := hcount (refs k)
  rw [Function.update_eq_self] at hself
  rw [hcount v, hself]
  omega

end RefCount
