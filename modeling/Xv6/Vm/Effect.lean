import Xv6.Vm.WalkSpec

/-! What an operation on one user page table does: the invariant holds afterwards, everything
else is kept, and the owner of the table sees a given memory. -/
namespace Xv6
open Bytes Program RefCount

/-- The operation leaves consistent memory in which the table `r` maps `V` below the
trapframe; the entries above are as before. -/
structure Effect [Image] (r : ℕ) (s : Machine) (own : ℕ → Owner) (t : Machine)
    (own' : ℕ → Owner) (V : ℕ → Option UPage) : Prop where
  inv : MemInv t own'
  keeps : Keeps {r} ∅ s own t own'
  root : own' r = .root true
  view : ∀ v, v < userPages → view t r v = V v
  high : ∀ v, userPages ≤ v → v < 2 ^ 27 →
    leafAt (entry t.mem) r v = leafAt (entry s.mem) r v

/-- An operation that leaves the entries outside `W` as they are. -/
structure EffectOn [Image] (W : Set ℕ) (r : ℕ) (s : Machine) (own : ℕ → Owner) (t : Machine)
    (own' : ℕ → Owner) (V : ℕ → Option UPage) : Prop extends Effect r s own t own' V where
  entries : ∀ v, v < userPages → v ∉ W → leafAt (entry t.mem) r v = leafAt (entry s.mem) r v

/-- What an entry maps. -/
def viewOf (t : Machine) (pte : Pte) : Option UPage :=
  if valid pte = true then some ⟨user pte, t.mem (pte2pa pte)⟩ else none

section effect
variable [Image] {s t t' : Machine} {own own' own'' : ℕ → Owner} {r : ℕ}
  {V V' : ℕ → Option UPage}

theorem Effect.trans (h : Effect r s own t own' V) (h' : Effect r t own' t' own'' V') :
    Effect r s own t' own'' V' where
  inv := h'.inv
  keeps := h.keeps.trans h'.keeps
  root := h'.root
  view := h'.view
  high := fun v hv hlt => (h'.high v hv hlt).trans (h.high v hv hlt)

theorem Effect.congr (h : Effect r s own t own' V) (hV : ∀ v, v < userPages → V v = V' v) :
    Effect r s own t own' V' :=
  { h with view := fun v hv => (h.view v hv).trans (hV v hv) }

theorem EffectOn.trans {W : Set ℕ} (h : EffectOn W r s own t own' V)
    (h' : EffectOn W r t own' t' own'' V') : EffectOn W r s own t' own'' V' where
  toEffect := h.toEffect.trans h'.toEffect
  entries := fun v hv hW => (h'.entries v hv hW).trans (h.entries v hv hW)

theorem EffectOn.congr {W : Set ℕ} (h : EffectOn W r s own t own' V)
    (hV : ∀ v, v < userPages → V v = V' v) : EffectOn W r s own t own' V' where
  toEffect := h.toEffect.congr hV
  entries := h.entries

theorem EffectOn.mono {W W' : Set ℕ} (h : EffectOn W r s own t own' V) (hW : W ⊆ W') :
    EffectOn W' r s own t own' V where
  toEffect := h.toEffect
  entries := fun v hv hv' => h.entries v hv (fun hv'' => hv' (hW hv''))

/-- A change that no user table notices. -/
theorem EffectOn.ofKeeps (W : Set ℕ) (h : MemInv t own') (hk : KeepsBut {r} ∅ ∅ s own t own')
    (hr : own r = .root true) : EffectOn W r s own t own' (Xv6.view s r) where
  inv := h
  keeps := hk.changed
  root := (hk.root r true (Set.notMem_empty r)).mpr hr
  view := fun _ hv => hk.view_eq (Set.notMem_empty r) hr hv
  high := fun v _ _ => hk.leaf r true v (Set.notMem_empty r) hr
  entries := fun v _ _ => hk.leaf r true v (Set.notMem_empty r) hr

theorem EffectOn.refl (W : Set ℕ) (h : MemInv s own) (hr : own r = .root true) :
    EffectOn W r s own s own (Xv6.view s r) :=
  EffectOn.ofKeeps W h (KeepsBut.refl _ _ _ _ _) hr

theorem Effect.refl (h : MemInv s own) (hr : own r = .root true) :
    Effect r s own s own (Xv6.view s r) :=
  (EffectOn.refl ∅ h hr).toEffect

/-- One leaf of the table has been written. -/
theorem EffectOn.ofLeaf {v : ℕ} {pte : Pte} (h : MemInv t own') (hk : Keeps {r} ∅ s own t own')
    (hr : own r = .root true) (hr' : own' r = .root true) (hv : v < userPages)
    (hleaf : LeafWritten s t own r v pte)
    (hmem : ∀ v' p, v' ≠ v → refs (entry s.mem) own (r, v') = some p → t.mem p = s.mem p) :
    EffectOn {v} r s own t own' (fun v' => if v' = v then viewOf t pte else Xv6.view s r v') where
  inv := h
  keeps := hk
  root := hr'
  view := by
    intro v' hv'
    have hl := hleaf r true v' hr (Or.inr (hv'.trans userPages_lt))
    by_cases hvv : v' = v
    · subst hvv
      rw [if_pos ⟨rfl, rfl⟩] at hl
      simp only [Xv6.view, viewOf, hl, if_true]
    · rw [if_neg (fun hx => hvv hx.2)] at hl
      simp only [Xv6.view, hl, if_neg hvv]
      by_cases hval : valid (leafAt (entry s.mem) r v') = true
      · rw [if_pos hval, if_pos hval,
          hmem v' _ hvv (refs_eq_some.mpr ⟨hr, hv', hval, rfl⟩)]
      · rw [if_neg hval, if_neg hval]
  high := by
    intro v' hv' hlt
    rw [hleaf r true v' hr (Or.inr hlt), if_neg]
    rintro ⟨-, rfl⟩
    omega
  entries := by
    intro v' hv' hne
    rw [hleaf r true v' hr (Or.inr (hv'.trans userPages_lt)), if_neg]
    exact fun hx => hne hx.2

theorem MemInv.leafAt_of_view_none (h : MemInv s own) {u : Bool} (hr : own r = .root u) {v : ℕ}
    (hn : Xv6.view s r v = none) : leafAt (entry s.mem) r v = 0#64 := by
  rcases h.tree.leafAt_entry hr v with h0 | ⟨hval, -⟩
  · exact h0
  · rw [view_eq_none_iff.mp hn] at hval
    cases hval

end effect
end Xv6
