import Mathlib.Data.List.Basic
import Mathlib.Algebra.BigOperators.Group.List.Basic
import Mathlib.Algebra.Order.Ring.Nat

/-!
Blocks of memory measured in units of `u` bytes, and lists of them in the order of their
addresses with a gap between any two. A block is put into such a list by joining it to the
neighbours it touches, and taken out from the end of one.
-/
namespace Blocks

structure Block where
  start : ℕ
  units : ℕ
  deriving DecidableEq, Repr

variable {u x : ℕ} {b c p : Block} {bs cs L R : List Block}

def Block.stop (u : ℕ) (b : Block) : ℕ := b.start + u * b.units

/-- The byte `x` is in the block. -/
def Block.Has (u : ℕ) (b : Block) (x : ℕ) : Prop := b.start ≤ x ∧ x < b.stop u

def Block.Disjoint (u : ℕ) (b c : Block) : Prop := ∀ x, b.Has u x → ¬ c.Has u x

/-- The byte `x` is in one of the blocks. -/
def Covers (u : ℕ) (bs : List Block) (x : ℕ) : Prop := ∃ b ∈ bs, b.Has u x

/-- In the order of addresses, no two adjacent. -/
def Ordered (u : ℕ) (bs : List Block) : Prop := bs.Pairwise fun b c => b.stop u < c.start

def total (bs : List Block) : ℕ := (bs.map Block.units).sum

@[simp] theorem covers_nil : ¬ Covers u [] x := by simp [Covers]

@[simp] theorem covers_cons : Covers u (b :: bs) x ↔ b.Has u x ∨ Covers u bs x := by
  simp [Covers]

@[simp] theorem covers_append : Covers u (bs ++ cs) x ↔ Covers u bs x ∨ Covers u cs x := by
  simp [Covers, or_and_right, exists_or]

@[simp] theorem total_nil : total [] = 0 := rfl

@[simp] theorem total_cons : total (b :: bs) = b.units + total bs := by simp [total]

@[simp] theorem total_append : total (bs ++ cs) = total bs + total cs := by simp [total]

theorem covers_perm (h : bs.Perm cs) : Covers u bs x ↔ Covers u cs x := by
  simp only [Covers, h.mem_iff]

theorem total_perm (h : bs.Perm cs) : total bs = total cs := (h.map _).sum_nat

theorem Block.start_le_stop : b.start ≤ b.stop u := Nat.le_add_right _ _

theorem Block.has_start (hu : 0 < u) (hb : 0 < b.units) : b.Has u b.start :=
  ⟨le_rfl, Nat.lt_add_of_pos_right (Nat.mul_pos hu hb)⟩

theorem Block.Disjoint.symm (h : b.Disjoint u c) : c.Disjoint u b := fun x hc hb => h x hb hc

instance : Std.Symm (Block.Disjoint u) := ⟨fun _ _ h => h.symm⟩

/-- Disjoint blocks lie one after the other. -/
theorem Block.Disjoint.stop_le (hu : 0 < u) (h : b.Disjoint u c)
    (hc : 0 < c.units) (hlt : b.start < c.start) : b.stop u ≤ c.start := by
  by_contra hle
  exact h c.start ⟨hlt.le, Nat.lt_of_not_le hle⟩ (Block.has_start hu hc)

/-- Two blocks that touch, as one. -/
def Block.join (b c : Block) : Block := ⟨b.start, b.units + c.units⟩

@[simp] theorem Block.join_start : (b.join c).start = b.start := rfl

theorem Block.join_stop (h : b.stop u = c.start) : (b.join c).stop u = c.stop u := by
  simp only [Block.stop, Block.join] at h ⊢
  rw [Nat.mul_add, ← Nat.add_assoc, h]

theorem Block.join_has (h : b.stop u = c.start) : (b.join c).Has u x ↔ b.Has u x ∨ c.Has u x := by
  have hb := b.start_le_stop (u := u)
  have hc := c.start_le_stop (u := u)
  simp only [Block.Has, Block.join_stop h, Block.join_start]
  omega

theorem Ordered.nodup (h : Ordered u bs) : (bs.map Block.start).Nodup := by
  refine List.pairwise_map.2 (h.imp fun {b c} hbc heq => ?_)
  have := b.start_le_stop (u := u)
  omega

theorem ordered_cons : Ordered u (b :: bs) ↔ (∀ c ∈ bs, b.stop u < c.start) ∧ Ordered u bs :=
  List.pairwise_cons

theorem ordered_append : Ordered u (bs ++ cs) ↔
    Ordered u bs ∧ Ordered u cs ∧ ∀ b ∈ bs, ∀ c ∈ cs, b.stop u < c.start :=
  List.pairwise_append

/-- No block ends where one starts. -/
theorem Ordered.gap (hu : 0 < u) (h : Ordered u bs) (hb : b ∈ bs) (hc : c ∈ bs)
    (hpos : 0 < b.units) : b.stop u ≠ c.start := by
  obtain ⟨A, B, rfl⟩ := List.append_of_mem hb
  obtain ⟨-, hbB, hA⟩ := ordered_append.1 h
  have hbstop := b.start_le_stop (u := u)
  have hcstop := c.start_le_stop (u := u)
  rcases List.mem_append.1 hc with hc | hc
  · have := hA c hc b (by simp)
    omega
  · rcases List.mem_cons.1 hc with rfl | hc
    · exact (Nat.lt_add_of_pos_right (Nat.mul_pos hu hpos)).ne'
    · exact ((ordered_cons.1 hbB).1 c hc).ne

/-- The place of the address `a` among the blocks. -/
theorem Ordered.split {a : ℕ} (h : Ordered u (p :: bs)) (hp : p.start < a)
    (hne : ∀ c ∈ bs, c.start ≠ a) :
    ∃ L q R, p :: bs = L ++ q :: R ∧ q.start < a ∧ ∀ c ∈ R, a < c.start := by
  induction bs generalizing p with
  | nil => exact ⟨[], p, [], rfl, hp, nofun⟩
  | cons c bs ih =>
    obtain ⟨-, htail⟩ := ordered_cons.1 h
    rcases Nat.lt_or_ge c.start a with hlt | hge
    · obtain ⟨L, q, R, heq, hq, hR⟩ := ih htail hlt fun d hd => hne d (by simp [hd])
      exact ⟨p :: L, q, R, by rw [heq]; rfl, hq, hR⟩
    · have hca : a < c.start := by
        have := hne c (by simp)
        omega
      refine ⟨[], p, c :: bs, rfl, hp, fun d hd => ?_⟩
      rcases List.mem_cons.1 hd with rfl | hd
      · exact hca
      · have hcd := (ordered_cons.1 htail).1 d hd
        have := c.start_le_stop (u := u)
        omega

/-- `b` joined with the first of the blocks above it if they touch. -/
def absorb (u : ℕ) (b : Block) : List Block → Block × List Block
  | [] => (b, [])
  | c :: R => if b.stop u = c.start then (b.join c, R) else (b, c :: R)

@[simp] theorem absorb_start : (absorb u b R).1.start = b.start := by
  cases R with
  | nil => rfl
  | cons c R =>
    simp only [absorb]
    split <;> rfl

theorem absorb_units : b.units ≤ (absorb u b R).1.units := by
  cases R with
  | nil => exact le_rfl
  | cons c R =>
    simp only [absorb]
    split
    · exact Nat.le_add_right _ _
    · exact le_rfl

theorem absorb_total : total ((absorb u b R).1 :: (absorb u b R).2) = b.units + total R := by
  cases R with
  | nil => rfl
  | cons c R =>
    simp only [absorb]
    split
    · simp [Block.join, Nat.add_assoc]
    · simp

theorem absorb_covers : Covers u ((absorb u b R).1 :: (absorb u b R).2) x ↔
    b.Has u x ∨ Covers u R x := by
  cases R with
  | nil => simp [absorb]
  | cons c R =>
    simp only [absorb]
    split
    · rename_i h
      simp [Block.join_has h, or_assoc]
    · simp

theorem absorb_rest : (absorb u b R).2 = R ∨ ∃ c, R = c :: (absorb u b R).2 := by
  cases R with
  | nil => exact .inl rfl
  | cons c R =>
    simp only [absorb]
    split
    · exact .inr ⟨c, rfl⟩
    · exact .inl rfl

theorem absorb_subset (hc : c ∈ (absorb u b R).2) : c ∈ R := by
  rcases absorb_rest (u := u) (b := b) (R := R) with hsame | ⟨d, hd⟩
  · rwa [hsame] at hc
  · rw [hd]
    exact List.mem_cons_of_mem _ hc

theorem absorb_ordered (h : Ordered u R) (hR : ∀ c ∈ R, b.stop u ≤ c.start) :
    Ordered u ((absorb u b R).1 :: (absorb u b R).2) := by
  cases R with
  | nil => exact List.pairwise_singleton _ _
  | cons c R =>
    obtain ⟨hc, htail⟩ := ordered_cons.1 h
    have hbc := hR c (by simp)
    simp only [absorb]
    split
    · rename_i htouch
      refine ordered_cons.2 ⟨fun d hd => ?_, htail⟩
      rw [Block.join_stop htouch]
      exact hc d hd
    · rename_i hgap
      refine ordered_cons.2 ⟨fun d hd => ?_, h⟩
      dsimp only
      rcases List.mem_cons.1 hd with rfl | hd
      · exact Nat.lt_of_le_of_ne hbc hgap
      · have := hc d hd
        have := c.start_le_stop (u := u)
        omega

/-- `b` put between `p` and the blocks `R` above. -/
def place (u : ℕ) (p b : Block) (R : List Block) : List Block :=
  if p.stop u = b.start then p.join (absorb u b R).1 :: (absorb u b R).2
  else p :: (absorb u b R).1 :: (absorb u b R).2

theorem place_total : total (place u p b R) = p.units + b.units + total R := by
  have habs := absorb_total (u := u) (b := b) (R := R)
  simp only [total_cons] at habs
  unfold place
  split
  · simp only [total_cons, Block.join]
    omega
  · simp only [total_cons]
    omega

theorem place_covers : Covers u (place u p b R) x ↔ p.Has u x ∨ b.Has u x ∨ Covers u R x := by
  unfold place
  split
  · rename_i h
    have htouch : p.stop u = (absorb u b R).1.start := by rw [absorb_start, h]
    rw [covers_cons, Block.join_has htouch, or_assoc, ← covers_cons, absorb_covers]
  · rw [covers_cons, absorb_covers]

theorem place_ordered (h : Ordered u (L ++ p :: R)) (hp : p.stop u ≤ b.start)
    (hR : ∀ c ∈ R, b.stop u ≤ c.start) : Ordered u (L ++ place u p b R) := by
  obtain ⟨hL, hpR, hLpR⟩ := ordered_append.1 h
  obtain ⟨-, hRo⟩ := ordered_cons.1 hpR
  have habs := absorb_ordered hRo hR
  have hLp : ∀ a ∈ L, a.stop u < p.start := fun a ha => hLpR a ha p (by simp)
  have hLb : ∀ a ∈ L, a.stop u < b.start := fun a ha => by
    have := hLp a ha
    have := p.start_le_stop (u := u)
    omega
  have hLR : ∀ a ∈ L, ∀ d ∈ (absorb u b R).2, a.stop u < d.start := fun a ha d hd =>
    hLpR a ha d (List.mem_cons_of_mem _ (absorb_subset hd))
  unfold place
  split
  · rename_i htouch
    have htouch' : p.stop u = (absorb u b R).1.start := by rw [absorb_start, htouch]
    obtain ⟨hfirst, hrest⟩ := ordered_cons.1 habs
    refine ordered_append.2 ⟨hL, ordered_cons.2 ⟨fun d hd => ?_, hrest⟩, fun a ha d hd => ?_⟩
    · rw [Block.join_stop htouch']
      exact hfirst d hd
    · rcases List.mem_cons.1 hd with rfl | hd
      · exact hLp a ha
      · exact hLR a ha d hd
  · rename_i hgap
    refine ordered_append.2 ⟨hL, ordered_cons.2 ⟨fun d hd => ?_, habs⟩, fun a ha d hd => ?_⟩
    · rcases List.mem_cons.1 hd with rfl | hd
      · rw [absorb_start]
        exact Nat.lt_of_le_of_ne hp hgap
      · have hfirst := (ordered_cons.1 habs).1 d hd
        have := (absorb u b R).1.start_le_stop (u := u)
        rw [absorb_start] at this
        omega
    · rcases List.mem_cons.1 hd with rfl | hd
      · exact hLp a ha
      · rcases List.mem_cons.1 hd with rfl | hd
        · rw [absorb_start]
          exact hLb a ha
        · exact hLR a ha d hd

theorem place_of_gap (hp : p.stop u ≠ b.start) :
    place u p b R = p :: (absorb u b R).1 :: (absorb u b R).2 := if_neg hp

theorem place_of_touch (hp : p.stop u = b.start) :
    place u p b R = p.join (absorb u b R).1 :: (absorb u b R).2 := if_pos hp

/-- The blocks are old ones and one that contains `b`. -/
theorem mem_place (hc : c ∈ place u p b R) : c = p ∨ c ∈ R ∨ b.units ≤ c.units := by
  have habs : b.units ≤ (absorb u b R).1.units := absorb_units
  unfold place at hc
  split at hc
  · rcases List.mem_cons.1 hc with rfl | hc
    · refine .inr (.inr ?_)
      simp only [Block.join]
      omega
    · exact .inr (.inl (absorb_subset hc))
  · rcases List.mem_cons.1 hc with rfl | hc
    · exact .inl rfl
    · rcases List.mem_cons.1 hc with rfl | hc
      · exact .inr (.inr habs)
      · exact .inr (.inl (absorb_subset hc))

theorem exists_place : ∃ c ∈ place u p b R, b.units ≤ c.units := by
  have habs : b.units ≤ (absorb u b R).1.units := absorb_units
  unfold place
  split
  · refine ⟨_, List.mem_cons_self, ?_⟩
    simp only [Block.join]
    omega
  · exact ⟨_, List.mem_cons_of_mem _ List.mem_cons_self, habs⟩

/-- A block of `n` units cut from the end of `b`, and what is left. -/
def Block.cut (u n : ℕ) (b : Block) : Block × Block :=
  (⟨b.start, b.units - n⟩, ⟨b.start + u * (b.units - n), n⟩)

theorem Block.cut_has {n : ℕ} (hn : n ≤ b.units) :
    b.Has u x ↔ (b.cut u n).1.Has u x ∨ (b.cut u n).2.Has u x := by
  have hjoin := Block.join_has (u := u) (x := x) (b := (b.cut u n).1) (c := (b.cut u n).2) rfl
  rw [← hjoin]
  simp [Block.join, Block.cut, Nat.sub_add_cancel hn]

theorem Block.cut_disjoint {n : ℕ} : (b.cut u n).1.Disjoint u (b.cut u n).2 := by
  intro y h₁ h₂
  simp only [Block.Has, Block.stop, Block.cut] at h₁ h₂
  omega

end Blocks
