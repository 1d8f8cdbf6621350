import Mathlib.Data.List.OfFn
import Mathlib.Logic.Function.Basic
import Mathlib.Tactic.Ring

/-! Byte buffers, with the little-endian fields and the byte ranges stored in them. A
buffer is a function from offsets; its length is left to the code that uses it. -/
namespace Bytes

abbrev Buf := ℕ → UInt8

/-- The `w`-byte little-endian number at `off`. -/
def getLE (f : Buf) (off : ℕ) : ℕ → ℕ
  | 0 => 0
  | w + 1 => (f off).toNat + 256 * getLE f (off + 1) w

/-- Store the low `w` bytes of `v` at `off`. -/
def setLE (f : Buf) (off : ℕ) : ℕ → ℕ → Buf
  | 0, _ => f
  | w + 1, v => Function.update (setLE f (off + 1) w (v / 256)) off (UInt8.ofNat v)

variable (f : Buf)

theorem getLE_lt (off w : ℕ) : getLE f off w < 256 ^ w := by
  induction w generalizing off with
  | zero => simp [getLE]
  | succ w ih =>
    have h := ih (off + 1)
    have hb := (f off).toNat_lt
    simp only [getLE, pow_succ]
    omega

theorem getLE_congr {f g : Buf} {off w : ℕ}
    (h : ∀ k, off ≤ k → k < off + w → f k = g k) : getLE f off w = getLE g off w := by
  induction w generalizing off with
  | zero => rfl
  | succ w ih =>
    simp only [getLE]
    rw [h off le_rfl (by omega), ih (fun k hk hw => h k (by omega) (by omega))]

theorem setLE_outside {off w k : ℕ} (v : ℕ) (h : k < off ∨ off + w ≤ k) :
    setLE f off w v k = f k := by
  induction w generalizing off v with
  | zero => rfl
  | succ w ih =>
    simp only [setLE]
    rw [Function.update_of_ne (by omega), ih _ (by omega)]

@[simp] theorem getLE_setLE_self (off w v : ℕ) : getLE (setLE f off w v) off w = v % 256 ^ w := by
  induction w generalizing off v with
  | zero => simp [getLE, Nat.mod_one]
  | succ w ih =>
    have hrest : getLE (setLE f off (w + 1) v) (off + 1) w = v / 256 % 256 ^ w := by
      rw [← ih (off + 1) (v / 256)]
      apply getLE_congr
      intro k hk _
      simp only [setLE]
      rw [Function.update_of_ne (by omega)]
    have hhead : (setLE f off (w + 1) v off).toNat = v % 256 := by
      simp [setLE]
    simp only [getLE]
    rw [hrest, hhead, pow_succ', Nat.mod_mul]

theorem getLE_setLE_disjoint {off w off' w' : ℕ} (v : ℕ) (h : off + w ≤ off' ∨ off' + w' ≤ off) :
    getLE (setLE f off w v) off' w' = getLE f off' w' := by
  apply getLE_congr
  intro k hk hk'
  exact setLE_outside f v (by omega)

@[simp] theorem getLE_zero (off w : ℕ) : getLE (fun _ => 0) off w = 0 := by
  induction w generalizing off with
  | zero => rfl
  | succ w ih => simp [getLE, ih]

/-- The `n` bytes from `off` on. -/
def read (f : Buf) (off n : ℕ) : List UInt8 := (List.range n).map fun i => f (off + i)

/-- Store the bytes `bs` from `off` on. -/
def write (f : Buf) (off : ℕ) (bs : List UInt8) : Buf := fun k =>
  if off ≤ k then bs.getD (k - off) (f k) else f k

@[simp] theorem read_length (off n : ℕ) : (read f off n).length = n := by
  simp [read]

theorem write_inside {off k : ℕ} {bs : List UInt8} (h : off ≤ k)
    (h' : k - off < bs.length) : write f off bs k = bs[k - off] := by
  simp [write, h, h']

theorem write_outside {off k : ℕ} {bs : List UInt8}
    (h : k < off ∨ off + bs.length ≤ k) : write f off bs k = f k := by
  rcases h with h | h
  · simp [write, Nat.not_le.mpr h]
  · have hle : bs.length ≤ k - off := by omega
    simp [write, hle]

@[simp] theorem write_nil (off : ℕ) : write f off [] = f := by
  funext k
  exact write_outside f (by simp; omega)

theorem read_congr {f g : Buf} {off n : ℕ} (h : ∀ k, off ≤ k → k < off + n → f k = g k) :
    read f off n = read g off n := by
  apply List.map_congr_left
  intro i hi
  exact h _ (by omega) (by have := List.mem_range.mp hi; omega)

@[simp] theorem read_write_self (off : ℕ) (bs : List UInt8) :
    read (write f off bs) off bs.length = bs := by
  apply List.ext_getElem
  · simp
  · intro i h₁ h₂
    simp only [read, List.getElem_map, List.getElem_range]
    rw [write_inside f (by omega) (by omega)]
    simp

theorem read_add (off m n : ℕ) : read f off (m + n) = read f off m ++ read f (off + m) n := by
  simp only [read, List.range_add, List.map_append, List.map_map]
  congr 1
  apply List.map_congr_left
  intro i _
  simp [Nat.add_assoc]

theorem write_append (off : ℕ) (as bs : List UInt8) :
    write (write f off as) (off + as.length) bs = write f off (as ++ bs) := by
  funext k
  by_cases hbs : off + as.length ≤ k ∧ k < off + as.length + bs.length
  · rw [write_inside _ hbs.1 (by omega), write_inside _ (by omega) (by simp; omega),
      List.getElem_append_right (by omega)]
    congr 1
    omega
  · rw [write_outside _ (by omega)]
    by_cases has : off ≤ k ∧ k < off + as.length
    · rw [write_inside _ has.1 (by omega), write_inside _ has.1 (by simp; omega),
        List.getElem_append_left]
    · rw [write_outside _ (by omega), write_outside _ (by simp; omega)]

theorem getElem_read (off n : ℕ) {k : ℕ} (hk : k < (read f off n).length) :
    (read f off n)[k] = f (off + k) := by
  simp [read]

theorem drop_read (off n k : ℕ) : (read f off n).drop k = read f (off + k) (n - k) := by
  apply List.ext_getElem
  · simp
  · intro j hj hj'
    rw [List.getElem_drop, getElem_read, getElem_read, Nat.add_assoc]

theorem take_read (off n k : ℕ) : (read f off n).take k = read f off (min k n) := by
  apply List.ext_getElem
  · simp
  · intro j hj hj'
    rw [List.getElem_take, getElem_read, getElem_read]

/-- The first bytes of a buffer after a write that begins among them. -/
theorem read_write_max {off n : ℕ} (bs : List UInt8) (h : off ≤ n) :
    read (write f off bs) 0 (max n (off + bs.length)) =
      (read f 0 n).take off ++ bs ++ (read f 0 n).drop (off + bs.length) := by
  apply List.ext_getElem
  · simp only [read_length, List.length_append, List.length_take, List.length_drop]
    omega
  · intro k hk hk'
    rw [getElem_read, Nat.zero_add]
    rw [read_length] at hk
    by_cases hoff : k < off
    · rw [write_outside _ (.inl hoff), List.getElem_append_left (by simp; omega),
        List.getElem_append_left (by simp; omega), List.getElem_take, getElem_read, Nat.zero_add]
    · by_cases hend : k < off + bs.length
      · rw [write_inside _ (by omega) (by omega), List.getElem_append_left (by simp; omega),
          List.getElem_append_right (by simp; omega)]
        congr 1
        simp
        omega
      · rw [write_outside _ (by omega), List.getElem_append_right (by simp; omega),
          List.getElem_drop, getElem_read]
        congr 1
        simp
        omega

end Bytes
