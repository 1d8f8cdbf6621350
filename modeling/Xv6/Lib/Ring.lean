import Mathlib.Data.BitVec
import Mathlib.Data.List.Basic
import Mathlib.Tactic.Linarith

/-! A queue kept in a circular buffer between two counters that wrap. The counters count
every element that ever went in or out; only their remainder by the size names a cell. -/
namespace Ring
variable {α : Type*} {w size : ℕ}

/-- The counters' range is a whole number of turns around the buffer, and exceeds one. -/
structure Fits (w size : ℕ) : Prop where
  dvd : size ∣ 2 ^ w
  lt : size < 2 ^ w

/-- The cell that the counter `k` names. -/
def cell (size : ℕ) (k : BitVec w) : ℕ := k.toNat % size

theorem Fits.cell_add (hf : Fits w size) (k : BitVec w) (i : ℕ) :
    cell size (k + BitVec.ofNat w i) = (k.toNat + i) % size := by
  simp only [cell, BitVec.toNat_add, BitVec.toNat_ofNat, Nat.add_mod_mod]
  exact Nat.mod_mod_of_dvd _ hf.dvd

/-- Counting from the next counter is counting one further. -/
theorem Fits.next_mod (hf : Fits w size) (k : BitVec w) (i : ℕ) :
    ((k + 1).toNat + i) % size = (k.toNat + (i + 1)) % size := by
  have hnext : (k + 1).toNat % size = (k.toNat + 1) % size := hf.cell_add k 1
  rw [show k.toNat + (i + 1) = (k.toNat + 1) + i by omega]
  exact Nat.ModEq.add_right i hnext

theorem Fits.toNat_ofNat (hf : Fits w size) {i : ℕ} (h : i ≤ size) :
    (BitVec.ofNat w i).toNat = i := by
  have hlt := hf.lt
  rw [BitVec.toNat_ofNat, Nat.mod_eq_of_lt (by omega)]

theorem Fits.ofNat_inj (hf : Fits w size) {i j : ℕ} (hi : i ≤ size) (hj : j ≤ size) :
    BitVec.ofNat w i = BitVec.ofNat w j ↔ i = j := by
  constructor
  · intro h
    rw [← hf.toNat_ofNat hi, h, hf.toNat_ofNat hj]
  · intro h
    rw [h]

/-- Two counters less than a turn apart name different cells. -/
theorem Fits.cell_ne (k : BitVec w) {i j : ℕ} (hi : i < size) (hj : j < size) (hij : i ≠ j) :
    (k.toNat + i) % size ≠ (k.toNat + j) % size := by
  intro h
  have hmod : i % size = j % size := Nat.ModEq.add_left_cancel' k.toNat h
  rw [Nat.mod_eq_of_lt hi, Nat.mod_eq_of_lt hj] at hmod
  exact hij hmod

/-- The cells from the counter `r` up to `e` hold `xs`, oldest first. -/
structure Holds (size : ℕ) (buf : ℕ → α) (r e : BitVec w) (xs : List α) : Prop where
  length_le : xs.length ≤ size
  stop : e = r + BitVec.ofNat w xs.length
  cells : ∀ i (h : i < xs.length), buf ((r.toNat + i) % size) = xs[i]

variable {buf : ℕ → α} {r e : BitVec w} {x : α} {xs : List α}

theorem Holds.empty (buf : ℕ → α) (r : BitVec w) : Holds size buf r r [] :=
  ⟨Nat.zero_le _, by simp, fun i h => absurd h (Nat.not_lt_zero i)⟩

section
variable (hf : Fits w size)
include hf

section
variable (h : Holds size buf r e xs)
include h

/-- The distance of the counters is the number of elements. -/
theorem Holds.distance : (e - r).toNat = xs.length := by
  have hdiff : e - r = BitVec.ofNat w xs.length := by
    rw [h.stop, BitVec.add_comm, BitVec.add_sub_cancel]
  rw [hdiff, hf.toNat_ofNat h.length_le]

theorem Holds.empty_iff : r = e ↔ xs = [] := by
  have hpos : r = e ↔ BitVec.ofNat w xs.length = BitVec.ofNat w 0 := by
    rw [h.stop, eq_comm, add_eq_left, BitVec.ofNat_eq_ofNat]
  rw [hpos, hf.ofNat_inj h.length_le (Nat.zero_le _), List.length_eq_zero_iff]

theorem Holds.full_iff : e = r + BitVec.ofNat w size ↔ xs.length = size := by
  rw [h.stop, BitVec.add_right_inj, hf.ofNat_inj h.length_le le_rfl]

/-- What the cells from `r` up to `e` hold. -/
def contents (size : ℕ) (buf : ℕ → α) (r e : BitVec w) : List α :=
  (List.range (e - r).toNat).map fun i => buf ((r.toNat + i) % size)

theorem Holds.contents_eq : contents size buf r e = xs := by
  have hdist := h.distance hf
  refine List.ext_getElem (by simp [contents, hdist]) fun i _ hi => ?_
  simpa [contents] using h.cells i hi

/-- Storing at `e` while there is room touches no element. -/
theorem Holds.poke (hlt : xs.length < size) :
    Holds size (Function.update buf (cell size e) x) r e xs := by
  have hcell : cell size e = (r.toNat + xs.length) % size := by
    rw [h.stop, hf.cell_add]
  refine ⟨h.length_le, h.stop, fun i hi => ?_⟩
  rw [hcell, Function.update_of_ne (Fits.cell_ne r (by omega) hlt (by omega)), h.cells i hi]

/-- Advancing `e` appends what its cell holds. -/
theorem Holds.extend (hlt : xs.length < size) :
    Holds size buf r (e + 1) (xs ++ [buf (cell size e)]) := by
  have hcell : cell size e = (r.toNat + xs.length) % size := by
    rw [h.stop, hf.cell_add]
  refine ⟨by simpa using Nat.succ_le_of_lt hlt, ?_, fun i hi => ?_⟩
  · rw [h.stop, List.length_append, List.length_singleton, BitVec.ofNat_add, BitVec.add_assoc]
    rfl
  · rcases Nat.lt_or_ge i xs.length with hlast | hlast
    · rw [h.cells i hlast, List.getElem_append_left hlast]
    · obtain rfl : i = xs.length := by
        simp only [List.length_append, List.length_singleton] at hi
        omega
      simp [hcell]

/-- Storing at `e` and advancing it appends. -/
theorem Holds.push (hlt : xs.length < size) :
    Holds size (Function.update buf (cell size e) x) r (e + 1) (xs ++ [x]) := by
  have hext := (h.poke hf hlt (x := x)).extend hf hlt
  rwa [Function.update_self] at hext

end

omit hf in
/-- The cell at `r` is the oldest element. -/
theorem Holds.oldest (h : Holds size buf r e (x :: xs)) : buf (cell size r) = x := by
  have h0 := h.cells 0 (by simp)
  rwa [Nat.add_zero] at h0

/-- Advancing `r` drops the oldest element. -/
theorem Holds.pop (h : Holds size buf r e (x :: xs)) : Holds size buf (r + 1) e xs := by
  have hlen := h.length_le
  simp only [List.length_cons] at hlen
  refine ⟨by omega, ?_, fun i hi => ?_⟩
  · rw [h.stop, List.length_cons, Nat.add_comm, BitVec.ofNat_add, ← BitVec.add_assoc]
    rfl
  · rw [hf.next_mod, h.cells (i + 1) (by simpa using hi)]
    rfl

omit hf in
/-- Moving `e` back drops the newest element. -/
theorem Holds.unpush (h : Holds size buf r e (xs ++ [x])) : Holds size buf r (e - 1) xs := by
  have hlen := h.length_le
  simp only [List.length_append, List.length_singleton] at hlen
  refine ⟨by omega, ?_, fun i hi => ?_⟩
  · rw [h.stop, List.length_append, List.length_singleton, BitVec.ofNat_add, ← BitVec.add_assoc]
    exact BitVec.add_sub_cancel _ _
  · rw [h.cells i (by simp; omega), List.getElem_append_left hi]

/-- The cell before `e` is the newest element. -/
theorem Holds.newest (h : Holds size buf r e (xs ++ [x])) : buf (cell size (e - 1)) = x := by
  rw [h.unpush.stop, hf.cell_add, h.cells xs.length (by simp)]
  simp

omit hf in
/-- The older part of the elements lies before an earlier counter. -/
theorem Holds.left {ys : List α} (h : Holds size buf r e (xs ++ ys)) :
    Holds size buf r (r + BitVec.ofNat w xs.length) xs := by
  have hlen := h.length_le
  rw [List.length_append] at hlen
  refine ⟨by omega, rfl, fun i hi => ?_⟩
  rw [h.cells i (by rw [List.length_append]; omega), List.getElem_append_left hi]

/-- The distance from there is the length of the younger part. -/
theorem Holds.distance_right {ys : List α} (h : Holds size buf r e (xs ++ ys)) :
    (e - (r + BitVec.ofNat w xs.length)).toNat = ys.length := by
  have hlen := h.length_le
  rw [List.length_append] at hlen
  have hdiff : e - (r + BitVec.ofNat w xs.length) = BitVec.ofNat w ys.length := by
    rw [h.stop, List.length_append, BitVec.ofNat_add, ← BitVec.add_assoc,
      BitVec.add_comm (r + BitVec.ofNat w xs.length), BitVec.add_sub_cancel]
  rw [hdiff, hf.toNat_ofNat (by omega)]

end

end Ring
