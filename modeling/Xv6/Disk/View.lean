import Mathlib.Data.Finset.Lattice.Basic
import Xv6.Disk.Model

/-! What a state of the disk denotes: the blocks in use, the inodes, and the blocks of the data area.
The regions of the disk do not meet, so that every write of fs.c changes one of the three. -/
namespace Xv6.Disk
open Bytes Bitmap Function Program

structure View where
  used : ℕ → Bool
  node : ℕ → Dinode
  data : ℕ → Block
  table : ℕ → Option Dinode

section regions
variable (sb : SuperBlock) (c : ℕ → Block)

def usedIn (b : ℕ) : Bool := decide (b < sb.size) && bit (c (sb.bblock b)) (b % bpb)

def nodeIn (i : ℕ) : Dinode :=
  if i < sb.ninodes then Dinode.load (c (sb.iblock i)) (i % ipb * dinodeSize) else .new 0

def dataIn (b : ℕ) : Block := if sb.datastart ≤ b then c b else fun _ => 0

def view (s : State) : View := ⟨usedIn sb s.cache, nodeIn sb s.cache, dataIn sb s.cache, s.table⟩

variable {sb c} {c₁ : ℕ → Block} {b i : ℕ} {blk : Block} {x : Bool} {d : Dinode}

theorem usedIn_congr (h : ∀ b, sb.bmapstart ≤ b → b < sb.datastart → c b = c₁ b) :
    usedIn sb c = usedIn sb c₁ := by
  funext b
  unfold usedIn
  by_cases hb : b < sb.size
  · rw [h _ (sb.bmapstart_le_bblock b) (sb.bblock_lt hb)]
  · simp [hb]

theorem nodeIn_congr (h : ∀ b < sb.bmapstart, c b = c₁ b) : nodeIn sb c = nodeIn sb c₁ := by
  funext i
  unfold nodeIn
  split_ifs with hi
  · rw [h _ (sb.iblock_lt hi)]
  · rfl

/-- The bitmap is not touched by a write to a block of another region. -/
theorem usedIn_update (h : b < sb.bmapstart ∨ sb.datastart ≤ b) :
    usedIn sb (update c b blk) = usedIn sb c :=
  usedIn_congr fun _ _ _ => update_of_ne (by omega) ..

theorem nodeIn_update (h : sb.bmapstart ≤ b) : nodeIn sb (update c b blk) = nodeIn sb c :=
  nodeIn_congr fun _ _ => update_of_ne (by omega) ..

theorem dataIn_update (h : b < sb.datastart) : dataIn sb (update c b blk) = dataIn sb c := by
  funext b'
  unfold dataIn
  split_ifs with hb'
  · rw [update_of_ne (by omega)]
  · rfl

theorem dataIn_update_self (h : sb.datastart ≤ b) :
    dataIn sb (update c b blk) = update (dataIn sb c) b blk := by
  funext b'
  by_cases hb' : b' = b
  · rw [hb', update_self, dataIn, if_pos h, update_self]
  · rw [update_of_ne hb', dataIn, dataIn, update_of_ne hb']

/-- A block of the bitmap in which only the bit of `b` changes. -/
theorem usedIn_update_self (hb : b < sb.size)
    (hblk : bit blk = update (bit (c (sb.bblock b))) (b % bpb) x) :
    usedIn sb (update c (sb.bblock b) blk) = update (usedIn sb c) b x := by
  funext b'
  by_cases hb' : b' = b
  · subst hb'
    rw [update_self, usedIn, update_self, hblk, update_self]
    simp [hb]
  · rw [update_of_ne hb', usedIn, usedIn]
    by_cases hblock : sb.bblock b' = sb.bblock b
    · have hmod : b' % bpb ≠ b % bpb := by
        intro hmod
        have hdiv : b' / bpb = b / bpb := Nat.add_right_cancel hblock
        exact hb' (by rw [← Nat.div_add_mod b' bpb, hdiv, hmod, Nat.div_add_mod])
      rw [hblock, update_self, hblk, update_of_ne hmod]
    · rw [update_of_ne hblock]

theorem slot_disjoint {j : ℕ} (h : i % ipb ≠ j % ipb) :
    i % ipb * dinodeSize + dinodeSize ≤ j % ipb * dinodeSize ∨
      j % ipb * dinodeSize + dinodeSize ≤ i % ipb * dinodeSize := by
  simp only [dinodeSize]
  omega

/-- An inode block in which only the inode `i` changes: the others in it stay as they are. -/
theorem nodeIn_update_self (hi : i < sb.ninodes) (hd : d.Fits) :
    nodeIn sb (update c (sb.iblock i) (d.store (c (sb.iblock i)) (i % ipb * dinodeSize))) =
      update (nodeIn sb c) i d := by
  funext j
  by_cases hj : j = i
  · subst hj
    rw [update_self, nodeIn, if_pos hi, update_self, Dinode.load_store _ _ hd]
  · rw [update_of_ne hj, nodeIn, nodeIn]
    split_ifs with hjn
    · by_cases hblock : sb.iblock j = sb.iblock i
      · have hmod : j % ipb ≠ i % ipb := by
          intro hmod
          have hdiv : j / ipb = i / ipb := Nat.add_right_cancel hblock
          exact hj (by rw [← Nat.div_add_mod j ipb, hdiv, hmod, Nat.div_add_mod])
        rw [hblock, update_self]
        have hdisj := slot_disjoint hmod
        exact Dinode.load_congr fun k hk hk' => Dinode.store_outside _ _ (by omega)
      · rw [update_of_ne hblock]
    · rfl

end regions

/-- Change a block in the cache. -/
def State.put (s : State) (b : ℕ) (blk : Block) : State :=
  { s with cache := update s.cache b blk }

def State.log (s : State) (b : ℕ) : State := { s with logged := insert b s.logged }

section writes
variable {sb : SuperBlock} (s : State) {b i : ℕ} {blk : Block} {x : Bool} {d : Dinode}

@[simp] theorem view_log (b : ℕ) : view sb (s.log b) = view sb s := rfl

theorem view_put_data (hb : sb.datastart ≤ b) (blk : Block) :
    view sb (s.put b blk) = { view sb s with data := update (view sb s).data b blk } := by
  have hmap := sb.bmapstart_lt_datastart
  unfold view State.put
  rw [usedIn_update (.inr hb), nodeIn_update (by omega), dataIn_update_self hb]

theorem view_put_bitmap (hb : b < sb.size)
    (hblk : bit blk = update (bit (s.cache (sb.bblock b))) (b % bpb) x) :
    view sb (s.put (sb.bblock b) blk) =
      { view sb s with used := update (view sb s).used b x } := by
  unfold view State.put
  rw [usedIn_update_self hb hblk, nodeIn_update (sb.bmapstart_le_bblock b),
    dataIn_update (sb.bblock_lt hb)]

theorem view_put_inode (hi : i < sb.ninodes) (hd : d.Fits) :
    view sb (s.put (sb.iblock i) (d.store (s.cache (sb.iblock i)) (i % ipb * dinodeSize))) =
      { view sb s with node := update (view sb s).node i d } := by
  have hlt := sb.iblock_lt hi
  have hmap := sb.bmapstart_lt_datastart
  unfold view State.put
  rw [usedIn_update (.inl hlt), nodeIn_update_self hi hd, dataIn_update (by omega)]

end writes

/-- From `s` to `s'` only blocks that are logged have changed, and the blocks logged are among those
of `X`. -/
structure Grows (s s' : State) (X : Finset ℕ) : Prop where
  home : s'.home = s.home
  mono : s.logged ⊆ s'.logged
  sub : s'.logged ⊆ s.logged ∪ X
  cache : ∀ b, b ∉ s'.logged → s'.cache b = s.cache b

section grows
variable {s s' s'' : State} {X Y : Finset ℕ} {b : ℕ}

theorem Grows.refl (s : State) (X : Finset ℕ) : Grows s s X :=
  ⟨rfl, subset_rfl, Finset.subset_union_left, fun _ _ => rfl⟩

theorem Grows.trans (h : Grows s s' X) (h' : Grows s' s'' Y) : Grows s s'' (X ∪ Y) := by
  refine ⟨h'.home.trans h.home, h.mono.trans h'.mono, fun b hb => ?_, fun b hb => ?_⟩
  · obtain hb | hb := Finset.mem_union.1 (h'.sub hb)
    · obtain hb | hb := Finset.mem_union.1 (h.sub hb)
      · exact Finset.mem_union_left _ hb
      · exact Finset.mem_union_right _ (Finset.mem_union_left _ hb)
    · exact Finset.mem_union_right _ (Finset.mem_union_right _ hb)
  · rw [h'.cache b hb, h.cache b fun hb' => hb (h'.mono hb')]

theorem Grows.weaken (h : Grows s s' X) (hXY : X ⊆ Y) : Grows s s' Y :=
  ⟨h.home, h.mono, h.sub.trans (Finset.union_subset_union_right hXY), h.cache⟩

/-- A write followed by `log_write`. -/
theorem grows_put_log (s : State) (b : ℕ) (blk : Block) : Grows s ((s.put b blk).log b) {b} := by
  refine ⟨rfl, Finset.subset_insert b _, fun c hc => ?_, fun c hc => ?_⟩
  · obtain rfl | hc := Finset.mem_insert.1 hc
    · exact Finset.mem_union_right _ (Finset.mem_singleton_self c)
    · exact Finset.mem_union_left _ hc
  · have hne : c ≠ b := by
      rintro rfl
      exact hc (Finset.mem_insert_self c _)
    exact update_of_ne hne ..

theorem Grows.table (h : Grows s s' X) (t : ℕ → Option Dinode) :
    Grows s { s' with table := t } X :=
  ⟨h.home, h.mono, h.sub, h.cache⟩

end grows

end Xv6.Disk
