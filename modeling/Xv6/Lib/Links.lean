import Mathlib.Data.List.Basic
import Mathlib.Dynamics.PeriodicPts.Defs

/-! Linked lists in a heap, circular ones among them, and loops that walk along them. -/
namespace Links
variable {α : Type*} {ptr ptr' : α → α} {xs ys : List α} {x q : α}

/-- Each element points to the next one, the last to `q`. -/
def Linked (ptr : α → α) : List α → α → Prop
  | [], _ => True
  | x :: xs, q => ptr x = xs.headD q ∧ Linked ptr xs q

theorem linked_append : Linked ptr (xs ++ ys) q ↔ Linked ptr xs (ys.headD q) ∧ Linked ptr ys q := by
  induction xs with
  | nil => simp [Linked]
  | cons x xs ih =>
    have hhead : (xs ++ ys).headD q = xs.headD (ys.headD q) := by cases xs <;> rfl
    simp only [List.cons_append, Linked, hhead, ih, and_assoc]

theorem Linked.congr (h : Linked ptr xs q) (hsame : ∀ x ∈ xs, ptr' x = ptr x) :
    Linked ptr' xs q := by
  induction xs with
  | nil => trivial
  | cons x xs ih =>
    refine ⟨(hsame x (by simp)).trans h.1, ih h.2 fun y hy => hsame y (by simp [hy])⟩

/-- A circle may be entered anywhere. -/
theorem Linked.rotate {f : α} (h : Linked ptr (xs ++ f :: ys) q)
    (hq : (xs ++ f :: ys).headD q = q) : Linked ptr (f :: ys ++ xs) f := by
  obtain ⟨hxs, hys⟩ := linked_append.1 h
  refine linked_append.2 ⟨?_, hxs⟩
  have hhead : xs.headD f = q := by cases xs <;> simpa using hq
  rwa [hhead]

theorem Linked.iterate (h : Linked ptr (x :: xs) q) {j : ℕ} (hj : j < (x :: xs).length) :
    ptr^[j] x = (x :: xs)[j] := by
  induction xs generalizing x j with
  | nil =>
    obtain rfl : j = 0 := by simpa using hj
    rfl
  | cons y ys ih =>
    cases j with
    | zero => rfl
    | succ j =>
      rw [Function.iterate_succ_apply, h.1]
      exact ih h.2 (by simpa using hj)

theorem Linked.iterate_length (h : Linked ptr (x :: xs) q) : ptr^[xs.length + 1] x = q := by
  induction xs generalizing x with
  | nil => exact h.1
  | cons y ys ih =>
    rw [List.length_cons, Function.iterate_succ_apply, h.1]
    exact ih h.2

variable {c : List α}

/-- Walking around a circle from one of its elements meets exactly its elements. -/
theorem Linked.mem_iff {f y : α} (h : Linked ptr c q) (hq : c.headD q = q)
    (hf : f ∈ c) : y ∈ c ↔ ∃ j < c.length, ptr^[j] f = y := by
  obtain ⟨xs, ys, rfl⟩ := List.append_of_mem hf
  have hrot := h.rotate hq
  rw [List.cons_append] at hrot
  have hmem : y ∈ xs ++ f :: ys ↔ y ∈ f :: (ys ++ xs) := by
    simp only [List.mem_append, List.mem_cons]
    tauto
  have hlen : (f :: (ys ++ xs)).length = (xs ++ f :: ys).length := by
    simp only [List.length_append, List.length_cons]
    omega
  rw [hmem, List.mem_iff_getElem, ← hlen]
  exact exists_congr fun j => ⟨fun ⟨hj, hy⟩ => ⟨hj, (hrot.iterate hj).trans hy⟩,
    fun ⟨hj, hy⟩ => ⟨hj, (hrot.iterate hj).symm.trans hy⟩⟩

/-- Once around. -/
theorem Linked.iterate_circle {f : α} (h : Linked ptr c q) (hq : c.headD q = q)
    (hf : f ∈ c) : ptr^[c.length] f = f := by
  obtain ⟨xs, ys, rfl⟩ := List.append_of_mem hf
  have hrot := h.rotate hq
  rw [List.cons_append] at hrot
  have hlen : (xs ++ f :: ys).length = (ys ++ xs).length + 1 := by
    simp only [List.length_append, List.length_cons]
    omega
  rw [hlen]
  exact hrot.iterate_length

theorem Linked.iterate_mem {f : α} (h : Linked ptr c q) (hq : c.headD q = q) (hf : f ∈ c)
    (j : ℕ) : ptr^[j] f ∈ c := by
  have hround : Function.IsPeriodicPt ptr c.length f := h.iterate_circle hq hf
  exact (h.mem_iff hq hf).2 ⟨j % c.length, Nat.mod_lt j (List.length_pos_of_mem hf),
    hround.iterate_mod_apply j⟩

/-- Without repetitions, not before. -/
theorem Linked.iterate_ne {f : α} (h : Linked ptr c q) (hq : c.headD q = q) (hf : f ∈ c)
    (hnodup : c.Nodup) {j : ℕ} (hpos : 0 < j) (hj : j < c.length) : ptr^[j] f ≠ f := by
  obtain ⟨xs, ys, rfl⟩ := List.append_of_mem hf
  have hrot := h.rotate hq
  rw [List.cons_append] at hrot
  have hperm : (f :: (ys ++ xs)).Perm (xs ++ f :: ys) :=
    (List.perm_append_comm.cons f).trans List.perm_middle.symm
  obtain ⟨hnot, -⟩ := List.nodup_cons.1 (hperm.nodup_iff.2 hnodup)
  have hj' : j < (f :: (ys ++ xs)).length := hperm.length_eq ▸ hj
  rw [hrot.iterate hj']
  obtain ⟨j, rfl⟩ := Nat.exists_eq_add_one_of_ne_zero (Nat.ne_of_gt hpos)
  rw [List.getElem_cons_succ]
  intro heq
  exact hnot (heq ▸ List.getElem_mem (Nat.lt_of_succ_lt_succ hj'))

/-- A loop that goes on with `next` until `stop`. -/
def seek (stop : α → Bool) (next : α → α) : ℕ → α → Option α
  | 0, _ => none
  | fuel + 1, x => if stop x then some x else seek stop next fuel (next x)

/-- It ends at the first element that stops it, if there is one and the fuel suffices. -/
theorem seek_of_stop {stop : α → Bool} {next : α → α} {k : ℕ}
    (hk : stop (next^[k] x) = true) :
    ∃ j ≤ k, stop (next^[j] x) = true ∧ (∀ i < j, stop (next^[i] x) = false) ∧
      ∀ fuel > k, seek stop next fuel x = some (next^[j] x) := by
  induction k generalizing x with
  | zero =>
    refine ⟨0, Nat.le_refl 0, hk, fun i hi => absurd hi (Nat.not_lt_zero i), fun fuel hfuel => ?_⟩
    obtain ⟨fuel, rfl⟩ := Nat.exists_eq_add_one_of_ne_zero (Nat.ne_of_gt hfuel)
    exact if_pos hk
  | succ k ih =>
    by_cases hx : stop x = true
    · refine ⟨0, Nat.zero_le _, hx, fun i hi => absurd hi (Nat.not_lt_zero i), fun fuel hfuel => ?_⟩
      obtain ⟨fuel, rfl⟩ := Nat.exists_eq_add_one_of_ne_zero (Nat.ne_of_gt (Nat.zero_lt_of_lt hfuel))
      simp [seek, hx]
    · obtain ⟨j, hjk, hj, hbefore, hrun⟩ := ih (x := next x) hk
      refine ⟨j + 1, Nat.succ_le_succ hjk, hj, fun i hi => ?_, fun fuel hfuel => ?_⟩
      · cases i with
        | zero => simpa using hx
        | succ i => exact hbefore i (Nat.lt_of_succ_lt_succ hi)
      · obtain ⟨fuel, rfl⟩ :=
          Nat.exists_eq_add_one_of_ne_zero (Nat.ne_of_gt (Nat.zero_lt_of_lt hfuel))
        simp only [seek, hx]
        exact hrun fuel (Nat.lt_of_succ_lt_succ hfuel)

/-- More fuel changes nothing. -/
theorem seek_mono {stop : α → Bool} {next : α → α} {fuel fuel' : ℕ} {y : α}
    (h : seek stop next fuel x = some y) (hle : fuel ≤ fuel') :
    seek stop next fuel' x = some y := by
  induction fuel generalizing x fuel' with
  | zero => contradiction
  | succ fuel ih =>
    cases fuel' with
    | zero => exact absurd hle (Nat.not_succ_le_zero _)
    | succ fuel' =>
      simp only [seek] at h ⊢
      split at h
      · rwa [if_pos ‹_›]
      · rw [if_neg ‹_›]
        exact ih h (Nat.le_of_succ_le_succ hle)

end Links
