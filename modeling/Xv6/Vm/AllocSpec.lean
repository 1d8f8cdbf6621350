import Xv6.Vm.MemInv

/-! What the allocator does on consistent memory, and the changes of the invariant that go
with it. -/
namespace Xv6
open Bytes Program RefCount

theorem entry_setEntry (s : Machine) (q k : ℕ) (v : Pte) :
    entry (s.setEntry q k v).mem = Entries.set (entry s.mem) q k v := by
  funext p i
  unfold entry Machine.setEntry Machine.setPage Entries.set
  dsimp only
  by_cases hp : p = q
  · subst hp
    rw [Function.update_self]
    by_cases hi : i = k
    · subst hi
      have hv : v.toNat % 256 ^ 8 = v.toNat := Nat.mod_eq_of_lt v.isLt
      rw [getLE_setLE_self, hv, BitVec.ofNat_toNat, BitVec.setWidth_eq]
      simp
    · rw [getLE_setLE_disjoint _ _ (by omega), if_neg (fun h => hi h.2)]
  · rw [Function.update_of_ne hp, if_neg (fun h => hp h.1)]

theorem entry_setPage_ne (s : Machine) {p q : ℕ} (b : Buf) (h : p ≠ q) :
    entry (s.setPage q b).mem p = entry s.mem p := by
  funext i
  simp [entry, Machine.setPage, Function.update_of_ne h]

theorem entry_setPage_zero (s : Machine) (q k : ℕ) :
    entry (s.setPage q fun _ => 0).mem q k = 0#64 := by
  simp [entry, Machine.setPage]

@[simp] theorem setEntry_freelist (s : Machine) (q k : ℕ) (v : Pte) :
    (s.setEntry q k v).freelist = s.freelist := rfl
@[simp] theorem setEntry_count (s : Machine) (q k : ℕ) (v : Pte) :
    (s.setEntry q k v).count = s.count := rfl
@[simp] theorem setPage_freelist (s : Machine) (q : ℕ) (b : Buf) :
    (s.setPage q b).freelist = s.freelist := rfl
@[simp] theorem setPage_count (s : Machine) (q : ℕ) (b : Buf) :
    (s.setPage q b).count = s.count := rfl
@[simp] theorem setCount_mem (s : Machine) (i n : ℕ) : (s.setCount i n).mem = s.mem := rfl
@[simp] theorem setCount_freelist (s : Machine) (i n : ℕ) :
    (s.setCount i n).freelist = s.freelist := rfl

theorem setEntry_mem_ne (s : Machine) {p q : ℕ} (k : ℕ) (v : Pte) (h : p ≠ q) :
    (s.setEntry q k v).mem p = s.mem p := by
  simp [Machine.setEntry, Machine.setPage, Function.update_of_ne h]

theorem setPage_mem_ne (s : Machine) {p q : ℕ} (b : Buf) (h : p ≠ q) :
    (s.setPage q b).mem p = s.mem p := by
  simp [Machine.setPage, Function.update_of_ne h]

@[simp] theorem setPage_mem_self (s : Machine) (q : ℕ) (b : Buf) :
    (s.setPage q b).mem q = b := by
  simp [Machine.setPage]

/-- The state after `kalloc` has returned the head `p` of the free list. -/
def Machine.allocated (s : Machine) (p : ℕ) : Machine where
  mem := Function.update s.mem p fun _ => 5
  freelist := s.freelist.tail
  count := Function.update s.count (idx p) 1

/-- The state after `kfree` has dropped the last reference to `p`. -/
def Machine.released (s : Machine) (p : ℕ) : Machine where
  mem := Function.update s.mem p fun _ => 1
  freelist := p :: s.freelist
  count := Function.update s.count (idx p) 0

theorem allocated_count_ne (s : Machine) {p q : ℕ} (h : idx q ≠ idx p) :
    (s.allocated p).count (idx q) = s.count (idx q) := Function.update_of_ne h _ _

theorem released_count_ne (s : Machine) {p q : ℕ} (h : idx q ≠ idx p) :
    (s.released p).count (idx q) = s.count (idx q) := Function.update_of_ne h _ _

theorem setCount_count_ne (s : Machine) {p q : ℕ} (n : ℕ) (h : idx q ≠ idx p) :
    (s.setCount (idx p) n).count (idx q) = s.count (idx q) := Function.update_of_ne h _ _

@[simp] theorem setCount_count_self (s : Machine) (i n : ℕ) : (s.setCount i n).count i = n :=
  Function.update_self _ _ _

theorem allocated_mem_ne (s : Machine) {p q : ℕ} (h : q ≠ p) :
    (s.allocated p).mem q = s.mem q := Function.update_of_ne h _ _

theorem released_mem_ne (s : Machine) {p q : ℕ} (h : q ≠ p) :
    (s.released p).mem q = s.mem q := Function.update_of_ne h _ _

section programs
variable {s : Machine} {E : Panic → Prop} {p : ℕ}

@[simp] theorem wp_readPte {pa i : ℕ} {Q : Pte → Machine → Prop} :
    wp (readPte pa i) E s Q ↔ Q (entry s.mem pa i) s := by
  simp [readPte]

variable {Q : Unit → Machine → Prop}

@[simp] theorem wp_writePte {pa i : ℕ} {v : Pte} :
    wp (writePte pa i v) E s Q ↔ Q () (s.setEntry pa i v) := by
  simp [writePte]

@[simp] theorem wp_memset {pa : ℕ} {c : UInt8} :
    wp (memset pa c) E s Q ↔ Q () (s.setPage pa fun _ => c) := by
  simp [memset]

variable [Image]

theorem wp_refindex (hp : Page p) {Q : ℕ → Machine → Prop} :
    wp (refindex p) E s Q ↔ Q (idx p) s := by
  have hno : ¬(p < kernbase ∨ phystop ≤ p ∨ p % pgsize ≠ 0) := by
    have hb := hp.kernbase_le
    have ht := hp.2.1
    have ha := hp.2.2
    omega
  unfold refindex idx
  rw [if_neg hno, wp_pure]

theorem wp_kfree (hp : Page p) (hc : 0 < s.count (idx p))
    (hlast : s.count (idx p) = 1 → Q () (s.released p))
    (hshared : 1 < s.count (idx p) → Q () (s.setCount (idx p) (s.count (idx p) - 1))) :
    wp (kfree p) E s Q := by
  have hno : ¬(p % pgsize ≠ 0 ∨ p < kend ∨ phystop ≤ p) := by
    have hk := hp.1
    have ht := hp.2.1
    have ha := hp.2.2
    omega
  unfold kfree
  simp only [if_neg hno, wp_bind, wp_refindex hp, wp_get]
  rw [if_neg (show ¬ s.count (idx p) < 1 by omega)]
  simp only [wp_bind, wp_set]
  by_cases h1 : s.count (idx p) = 1
  · rw [if_pos (by omega)]
    have hq := hlast h1
    simpa [h1, Machine.released, Machine.setCount, Machine.setPage] using hq
  · rw [if_neg (by omega), wp_pure]
    exact hshared (by omega)

theorem wp_krefinc (hp : Page p) (hc : 0 < s.count (idx p)) :
    wp (krefinc p) E s Q ↔ Q () (s.setCount (idx p) (s.count (idx p) + 1)) := by
  unfold krefinc
  simp only [wp_bind, wp_refindex hp, wp_get, if_neg (show ¬ s.count (idx p) < 1 by omega),
    wp_set]

theorem wp_krefcount {Q : ℕ → Machine → Prop} (hp : Page p) :
    wp (krefcount p) E s Q ↔ Q (s.count (idx p)) s := by
  unfold krefcount
  simp only [wp_bind, wp_refindex hp, wp_get, wp_pure]

/-- `kalloc` fails only when the free list is empty. -/
theorem wp_kalloc {own : ℕ → Owner} (h : Alloc own s.freelist s.count)
    {Q : Option ℕ → Machine → Prop} (hnone : s.freelist = [] → Q none s)
    (hsome : ∀ p, own p = .free → s.freelist = p :: s.freelist.tail →
      Q (some p) (s.allocated p)) : wp kalloc E s Q := by
  unfold kalloc
  simp only [wp_bind, wp_get]
  cases hl : s.freelist with
  | nil => exact (wp_pure _).mpr (hnone hl)
  | cons p rest =>
    have hp : own p = .free := (h.free p).mp (by simp [hl])
    have hpage : Page p := (h.managed p).mp (by simp [hp])
    have hz := h.zero p hp
    simp only [wp_bind, wp_set, wp_refindex hpage, hz, ne_eq, not_true_eq_false, if_false,
      wp_pure, wp_modify, wp_memset]
    have hq := hsome p hp (by simp [hl])
    simpa [Machine.allocated, Machine.setCount, Machine.setPage, hl] using hq

end programs
end Xv6
