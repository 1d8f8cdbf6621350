import Xv6.User.Malloc

/-! The free list of the allocator as the list of blocks `N`, `base` first, in the order of their
addresses: `free` places a block in it, and `malloc` finds one there and takes it out. -/
namespace Xv6.Malloc
open Blocks Links

/-- The heap's free list is `N`. -/
structure Repr (base : ℕ) (m : Heap) (N : List Block) : Prop where
  head : ∃ T, N = ⟨base, 0⟩ :: T
  pos : ∀ b ∈ N, base < b.start → 0 < b.units
  linked : Linked m.ptr (N.map Block.start) base
  sizes : ∀ b ∈ N, m.size b.start = b.units
  freep : m.freep ∈ N.map Block.start
  ordered : Ordered unit N

section lists
variable {base : ℕ} {m : Heap} {N L R : List Block} {p b : Block}

section
variable (hm : Repr base m N)
include hm

theorem Repr.circle : (N.map Block.start).headD base = base := by
  obtain ⟨T, rfl⟩ := hm.head
  rfl

/-- What `p` points to. -/
theorem Repr.next (hN : N = L ++ p :: R) : m.ptr p.start = (R.map Block.start).headD base := by
  have hlinked := hm.linked
  rw [hN, List.map_append, List.map_cons] at hlinked
  exact (linked_append.1 hlinked).2.1

theorem Repr.base_le (hb : b ∈ N) : base ≤ b.start := by
  obtain ⟨T, rfl⟩ := hm.head
  rcases List.mem_cons.1 hb with rfl | hb
  · exact le_rfl
  · exact ((ordered_cons.1 hm.ordered).1 b hb).le

variable {bp : ℕ}

/-- The search of `free` stops at the last block below `bp`. -/
theorem Repr.placed_last (hN : N = L ++ p :: R) (hp : p.start < bp)
    (hR : ∀ c ∈ R, bp < c.start) : m.placed bp p.start = true := by
  have hnext := hm.next hN
  have hbase := hm.base_le (b := p) (by simp [hN])
  unfold Heap.placed
  rw [decide_eq_true_eq, hnext]
  cases R with
  | nil => exact .inr ⟨hbase, .inl hp⟩
  | cons r R => exact .inl ⟨hp, hR r (by simp)⟩

/-- It does not stop at a block that is followed by another below `bp`. -/
theorem Repr.placed_before {c d : Block} (hN : N = L ++ c :: d :: R)
    (hd : d.start < bp) : m.placed bp c.start = false := by
  have hnext : m.ptr c.start = d.start := hm.next hN
  have hord := hm.ordered
  rw [hN] at hord
  have hcd := (ordered_cons.1 (ordered_append.1 hord).2.1).1 d (by simp)
  have hc := c.start_le_stop (u := unit)
  unfold Heap.placed
  rw [decide_eq_false_iff_not, hnext]
  omega

/-- Nor at a block above `bp`. -/
theorem Repr.placed_after {c : Block} (hN : N = L ++ c :: R) (hbase : base < bp)
    (hc : bp < c.start) : m.placed bp c.start = false := by
  have hnext := hm.next hN
  have hord := hm.ordered
  rw [hN] at hord
  unfold Heap.placed
  rw [decide_eq_false_iff_not, hnext]
  cases R with
  | nil =>
    rw [List.map_nil, List.headD_nil]
    omega
  | cons d R =>
    have hcd := (ordered_cons.1 (ordered_append.1 hord).2.1).1 d (by simp)
    have hstop := c.start_le_stop (u := unit)
    rw [List.map_cons, List.headD_cons]
    omega

theorem Repr.placed_unique {c : Block} (hN : N = L ++ p :: R) (hp : p.start < bp)
    (hR : ∀ c ∈ R, bp < c.start) (hc : c ∈ N) (hplaced : m.placed bp c.start = true) : c = p := by
  rw [hN, List.mem_append, List.mem_cons] at hc
  have hbase := hm.base_le (b := p) (by simp [hN])
  rcases hc with hc | rfl | hc
  · obtain ⟨A, B, rfl⟩ := List.append_of_mem hc
    have hord := hm.ordered
    rw [hN] at hord
    have hnot : m.placed bp c.start = false := by
      cases B with
      | nil => exact hm.placed_before (R := R) (by simpa using hN) hp
      | cons d B =>
        have hdp := (ordered_append.1 hord).2.2 d (by simp) p (by simp)
        have hd := d.start_le_stop (u := unit)
        exact hm.placed_before (L := A) (R := B ++ p :: R) (by simpa using hN) (by omega)
    rw [hnot] at hplaced
    contradiction
  · rfl
  · obtain ⟨A, B, rfl⟩ := List.append_of_mem hc
    have hnot := hm.placed_after (L := L ++ p :: A) (by simpa using hN)
      (by omega : base < bp) (hR c (by simp))
    rw [hnot] at hplaced
    contradiction

/-- The search of `free` ends there, whatever block it starts from. -/
theorem Repr.seek_placed (hN : N = L ++ p :: R) (hp : p.start < bp) (hR : ∀ c ∈ R, bp < c.start)
    {fuel : ℕ} (hfuel : N.length ≤ fuel) :
    seek (m.placed bp) m.ptr fuel m.freep = some p.start := by
  have hmem := hm.linked.mem_iff (y := p.start) hm.circle hm.freep
  obtain ⟨k, hk, hkp⟩ := hmem.1 (List.mem_map_of_mem (by simp [hN]))
  obtain ⟨j, hjk, hj, -, hrun⟩ := seek_of_stop (x := m.freep)
    (hkp ▸ hm.placed_last hN hp hR : m.placed bp (m.ptr^[k] m.freep) = true)
  rw [List.length_map] at hk
  obtain ⟨c, hc, hcj⟩ := List.mem_map.1 ((hm.linked.mem_iff hm.circle hm.freep).2
    ⟨j, by rw [List.length_map]; omega, rfl⟩)
  rw [hrun fuel (by omega), ← hcj]
  rw [← hcj] at hj
  rw [hm.placed_unique hN hp hR hc hj]

/-- Joining `b` with what follows, on the heap and in the list. -/
theorem Repr.joinNext (hN : N = L ++ p :: R) (hsize : m.size b.start = b.units)
    (hbase : base < b.start) (htotal : total N + b.units < 2 ^ 32) {m₁ : Heap}
    (hm₁ : m₁ = m.joinNext b.start p.start) :
    m₁.size b.start = (absorb unit b R).1.units ∧
      m₁.ptr b.start = ((absorb unit b R).2.map Block.start).headD base ∧
      ∀ a ≠ b.start, m₁.size a = m.size a ∧ m₁.ptr a = m.ptr a := by
  have hnext := hm.next hN
  have hstop : b.stop unit = b.start + unit * m.size b.start := by rw [hsize, Block.stop]
  subst hm₁
  unfold Heap.joinNext
  cases R with
  | nil =>
    rw [List.map_nil, List.headD_nil] at hnext
    rw [hnext, if_neg (by omega)]
    refine ⟨hsize, by simp [Heap.setPtr, absorb], fun a ha => ⟨rfl, ?_⟩⟩
    simp [Heap.setPtr, ha]
  | cons r R =>
    rw [List.map_cons, List.headD_cons] at hnext
    rw [hnext, ← hstop]
    have hrsize := hm.sizes r (by simp [hN])
    have hrnext := hm.next (L := L ++ [p]) (p := r) (R := R) (by simp [hN])
    simp only [absorb]
    split_ifs with htouch
    · have hsum : (m.size b.start + m.size r.start) % 2 ^ 32 = b.units + r.units := by
        rw [hsize, hrsize]
        refine Nat.mod_eq_of_lt ?_
        simp only [hN, total_append, total_cons] at htotal
        omega
      dsimp only
      refine ⟨?_, ?_, fun a ha => ?_⟩
      · rw [hsum]
        simp [Heap.setPtr, Heap.setSize, Block.join]
      · simp [Heap.setPtr, Heap.setSize, hnext, hrnext]
      · simp [Heap.setPtr, Heap.setSize, ha]
    · refine ⟨hsize, by simp [Heap.setPtr], fun a ha => ⟨rfl, ?_⟩⟩
      simp [Heap.setPtr, ha]

omit hm in
/-- Joining what `b` has become with what precedes it. -/
theorem joinPrev_spec {m₁ m₂ : Heap} {bp n q : ℕ} (hp : m₁.size p.start = p.units)
    (hb : m₁.size bp = n) (hq : m₁.ptr bp = q) (hne : p.start ≠ bp)
    (htotal : p.units + n < 2 ^ 32) (hm₂ : m₂ = m₁.joinPrev bp p.start) :
    (if p.stop unit = bp then
      m₂.size p.start = p.units + n ∧ m₂.ptr p.start = q
    else m₂.size p.start = p.units ∧ m₂.ptr p.start = bp ∧ m₂.size bp = n ∧
      m₂.ptr bp = q) ∧
      ∀ a ≠ p.start, a ≠ bp → m₂.size a = m₁.size a ∧ m₂.ptr a = m₁.ptr a := by
  have hstop : p.stop unit = p.start + unit * m₁.size p.start := by rw [hp, Block.stop]
  subst hm₂
  unfold Heap.joinPrev
  rw [← hstop]
  split_ifs with htouch
  · have hsum : (m₁.size p.start + m₁.size bp) % 2 ^ 32 = p.units + n := by
      rw [hp, hb, Nat.mod_eq_of_lt htotal]
    rw [hsum]
    refine ⟨⟨?_, ?_⟩, fun a ha _ => ?_⟩
    · simp [Heap.setPtr, Heap.setSize]
    · simp [Heap.setPtr, Heap.setSize, hq]
    · simp [Heap.setPtr, Heap.setSize, ha]
  · refine ⟨⟨hp, by simp [Heap.setPtr], hb, by simp [Heap.setPtr, Ne.symm hne, hq]⟩,
      fun a ha _ => ⟨rfl, ?_⟩⟩
    simp [Heap.setPtr, ha]

/-- What `free` does to the fields of the headers. -/
structure Freed (base : ℕ) (m : Heap) (L : List Block) (p b : Block) (R : List Block) (m' : Heap) :
    Prop where
  touch : p.stop unit = b.start → m'.size p.start = p.units + (absorb unit b R).1.units ∧
    m'.ptr p.start = ((absorb unit b R).2.map Block.start).headD base
  gap : p.stop unit ≠ b.start → m'.size p.start = p.units ∧ m'.ptr p.start = b.start ∧
    m'.size b.start = (absorb unit b R).1.units ∧
    m'.ptr b.start = ((absorb unit b R).2.map Block.start).headD base
  other : ∀ a ≠ p.start, a ≠ b.start → m'.size a = m.size a ∧ m'.ptr a = m.ptr a
  freep : m'.freep = p.start

theorem Repr.freed (hN : N = L ++ p :: R) (hsize : m.size b.start = b.units)
    (hp : p.start < b.start) (htotal : total N + b.units < 2 ^ 32) :
    Freed base m L p b R
      { (m.joinNext b.start p.start).joinPrev b.start p.start with freep := p.start } := by
  have hbase : base < b.start := (hm.base_le (b := p) (by simp [hN])).trans_lt hp
  obtain ⟨hs₁, hq₁, hother₁⟩ := hm.joinNext hN hsize hbase htotal rfl
  have habs := absorb_total (u := unit) (b := b) (R := R)
  rw [hN] at htotal
  simp only [total_append, total_cons] at htotal habs
  obtain ⟨hcase, hother₂⟩ := joinPrev_spec (p := p)
    ((hother₁ p.start hp.ne).1.trans (hm.sizes p (by simp [hN]))) hs₁ hq₁ hp.ne (by omega) rfl
  refine ⟨fun htouch => ?_, fun hgap => ?_, fun a hap hab => ?_, rfl⟩
  · rwa [if_pos htouch] at hcase
  · rwa [if_neg hgap] at hcase
  · obtain ⟨hsz₂, hptr₂⟩ := hother₂ a hap hab
    obtain ⟨hsz₁, hptr₁⟩ := hother₁ a hab
    exact ⟨hsz₂.trans hsz₁, hptr₂.trans hptr₁⟩

omit hm in
theorem Repr.linked_rest {q : ℕ} {ptr : ℕ → ℕ} (h : Linked ptr (R.map Block.start) q) :
    Linked ptr ((absorb unit b R).2.map Block.start) q := by
  rcases absorb_rest (u := unit) (b := b) (R := R) with hsame | ⟨c, hc⟩
  · rwa [hsame]
  · rw [hc] at h
    exact h.2

/-- `free` puts the block into the list. -/
theorem Repr.free (hN : N = L ++ p :: R) (hsize : m.size b.start = b.units) (hpos : 0 < b.units)
    (hp : p.start < b.start) (hpb : p.stop unit ≤ b.start) (hR : ∀ c ∈ R, b.stop unit ≤ c.start)
    (htotal : total N + b.units < 2 ^ 32) :
    ∃ m', (∀ fuel ≥ N.length, m.free fuel b.start = some m') ∧
      Repr base m' (L ++ place unit p b R) ∧ Freed base m L p b R m' := by
  have hRb : ∀ c ∈ R, b.start < c.start := fun c hc =>
    (Nat.lt_add_of_pos_right (Nat.mul_pos (by decide) hpos)).trans_le (hR c hc)
  have hfreed := hm.freed hN hsize hp htotal
  refine ⟨_, fun fuel hfuel => ?_, ?_, hfreed⟩
  · rw [Heap.free, hm.seek_placed hN hp hRb hfuel]
    rfl
  generalize { (m.joinNext b.start p.start).joinPrev b.start p.start with freep := p.start } = m' at hfreed
  have hord := hm.ordered
  rw [hN] at hord
  have hLp : ∀ c ∈ L, c.start < p.start := fun c hc =>
    c.start_le_stop.trans_lt ((ordered_append.1 hord).2.2 c hc p (by simp))
  have hlinked := hm.linked
  rw [hN, List.map_append, List.map_cons, linked_append] at hlinked
  obtain ⟨hLlinked, -, hRlinked⟩ := hlinked
  have hL' : Linked m'.ptr (L.map Block.start) p.start := hLlinked.congr fun a ha => by
    obtain ⟨c, hc, rfl⟩ := List.mem_map.1 ha
    have := hLp c hc
    exact (hfreed.other c.start (by omega) (by omega)).2
  have hR' : Linked m'.ptr ((absorb unit b R).2.map Block.start) base :=
    Repr.linked_rest (hRlinked.congr fun a ha => by
      obtain ⟨c, hc, rfl⟩ := List.mem_map.1 ha
      have := hRb c hc
      exact (hfreed.other c.start (by omega) (by omega)).2)
  refine ⟨?_, fun c hc hcb => ?_, ?_, fun c hc => ?_, ?_, place_ordered hord hpb hR⟩
  · -- `base` stays first: nothing touches it from above
    obtain ⟨T, hT⟩ := hm.head
    rw [hN] at hT
    cases L with
    | nil =>
      obtain ⟨rfl, -⟩ := List.cons.inj hT
      have hgap : Block.stop unit ⟨base, 0⟩ ≠ b.start := fun h => hp.ne (by simpa [Block.stop] using h)
      rw [List.nil_append, place_of_gap hgap]
      exact ⟨_, rfl⟩
    | cons c L =>
      obtain ⟨rfl, -⟩ := List.cons.inj hT
      exact ⟨_, rfl⟩
  · rcases List.mem_append.1 hc with hc | hc
    · exact hm.pos c (by simp [hN, hc]) hcb
    · rcases mem_place hc with rfl | hc | hc
      · exact hm.pos c (by simp [hN]) hcb
      · exact hm.pos c (by simp [hN, hc]) hcb
      · omega
  · rw [List.map_append, linked_append]
    by_cases htouch : p.stop unit = b.start
    · obtain ⟨-, hptr⟩ := hfreed.touch htouch
      rw [place_of_touch htouch]
      exact ⟨hL', hptr, hR'⟩
    · obtain ⟨-, hptr, -, hbptr⟩ := hfreed.gap htouch
      rw [place_of_gap htouch]
      refine ⟨hL', ?_, ?_, hR'⟩
      · simpa using hptr
      · simpa using hbptr
  · have hold : ∀ c ∈ N, c.start ≠ p.start → c.start ≠ b.start → m'.size c.start = c.units :=
      fun c hc h₁ h₂ => (hfreed.other c.start h₁ h₂).1.trans (hm.sizes c hc)
    rcases List.mem_append.1 hc with hc | hc
    · have := hLp c hc
      exact hold c (by simp [hN, hc]) (by omega) (by omega)
    · have hrest : ∀ c ∈ (absorb unit b R).2, m'.size c.start = c.units := fun c hc => by
        have := hRb c (absorb_subset hc)
        exact hold c (by simp [hN, absorb_subset hc]) (by omega) (by omega)
      by_cases htouch : p.stop unit = b.start
      · rw [place_of_touch htouch] at hc
        rcases List.mem_cons.1 hc with rfl | hc
        · exact (hfreed.touch htouch).1
        · exact hrest c hc
      · obtain ⟨hps, -, hbs, -⟩ := hfreed.gap htouch
        rw [place_of_gap htouch] at hc
        rcases List.mem_cons.1 hc with rfl | hc
        · exact hps
        · rcases List.mem_cons.1 hc with rfl | hc
          · rwa [absorb_start]
          · exact hrest c hc
  · rw [hfreed.freep, List.map_append, List.mem_append]
    right
    by_cases htouch : p.stop unit = b.start
    · simp [place_of_touch htouch]
    · simp [place_of_gap htouch]

/-- `free` of a block that is disjoint from the list, in terms of what the list covers. -/
theorem Repr.release (hsize : m.size b.start = b.units) (hpos : 0 < b.units)
    (hbase : base < b.start) (hdis : ∀ x, b.Has unit x → ¬ Covers unit N x)
    (htotal : total N + b.units < 2 ^ 32) :
    ∃ m' N', (∀ fuel ≥ N.length, m.free fuel b.start = some m') ∧ Repr base m' N' ∧
      (∀ x, Covers unit N' x ↔ b.Has unit x ∨ Covers unit N x) ∧ total N' = total N + b.units ∧
      (∃ c ∈ N', b.units ≤ c.units) ∧
      ∀ a ≠ b.start, (∀ c ∈ N, c.start ≠ a) → m'.size a = m.size a := by
  obtain ⟨T, hT⟩ := hm.head
  have hord := hm.ordered
  have hapart : ∀ c ∈ N, c.Disjoint unit b := fun c hc x hcx hbx => hdis x hbx ⟨c, hc, hcx⟩
  have hTpos : ∀ c ∈ T, 0 < c.units := fun c hc => by
    rw [hT] at hord
    exact hm.pos c (by simp [hT, hc]) ((ordered_cons.1 hord).1 c hc)
  have hne : ∀ c ∈ T, c.start ≠ b.start := fun c hc heq =>
    hapart c (by simp [hT, hc]) c.start (Block.has_start (by decide) (hTpos c hc))
      (heq ▸ Block.has_start (by decide) hpos)
  obtain ⟨L, p, R, hsplit, hp, hR⟩ := (hT ▸ hord).split hbase hne
  have hN : N = L ++ p :: R := hT.trans hsplit
  have hRstop : ∀ c ∈ R, b.stop unit ≤ c.start := fun c hc => by
    have hcN : c ∈ N := by simp [hN, hc]
    have hcpos := hm.pos c hcN (hbase.trans (hR c hc))
    exact Block.Disjoint.stop_le (by decide) (fun x hbx hcx => hapart c hcN x hcx hbx) hcpos
      (hR c hc)
  have hpstop : p.stop unit ≤ b.start :=
    (hapart p (by simp [hN])).stop_le (by decide) hpos hp
  obtain ⟨m', hrun, hrepr, hfreed⟩ := hm.free hN hsize hpos hp hpstop hRstop htotal
  refine ⟨m', _, hrun, hrepr, fun x => ?_, ?_, ?_, fun a hab ha => ?_⟩
  · rw [hN, covers_append, covers_append, place_covers, covers_cons]
    tauto
  · rw [hN, total_append, total_append, place_total, total_cons]
    omega
  · obtain ⟨c, hc, hle⟩ := exists_place (u := unit) (p := p) (b := b) (R := R)
    exact ⟨c, List.mem_append_right _ hc, hle⟩
  · exact (hfreed.other a (fun hap => ha p (by simp [hN]) hap.symm) hab).1

omit hm in
theorem Heap.advance_iterate (m : Heap) (j : ℕ) :
    m.advance^[j] (m.freep, m.ptr m.freep) = (m.ptr^[j] m.freep, m.ptr^[j + 1] m.freep) := by
  induction j with
  | zero => rfl
  | succ j ih =>
    rw [Function.iterate_succ_apply', ih, Function.iterate_succ_apply' m.ptr (j + 1)]
    rfl

/-- The free list has a block of `n` units. -/
def Heap.HasBlock (m : Heap) (n : ℕ) : Prop := ∃ j, n ≤ m.size (m.ptr^[j] m.freep)

theorem Repr.hasBlock {n : ℕ} : m.HasBlock n ↔ ∃ c ∈ N, n ≤ c.units := by
  constructor
  · rintro ⟨j, hj⟩
    obtain ⟨c, hc, hcj⟩ := List.mem_map.1 (hm.linked.iterate_mem hm.circle hm.freep j)
    rw [← hcj, hm.sizes c hc] at hj
    exact ⟨c, hc, hj⟩
  · rintro ⟨c, hc, hle⟩
    obtain ⟨j, -, hj⟩ := (hm.linked.mem_iff hm.circle hm.freep).1 (List.mem_map_of_mem hc)
    exact ⟨j, by rwa [hj, hm.sizes c hc]⟩

/-- The search of `malloc` ends at a block that fits, with the block before it, or finds that none
does. -/
theorem Repr.find {n : ℕ} (hn : 0 < n) :
    ∃ prevp p, (∀ fuel ≥ N.length, m.find fuel n = some (prevp, p)) ∧
      ((∃ L b c R, N = L ++ b :: c :: R ∧ b.start = prevp ∧ c.start = p ∧ n ≤ c.units) ∨
        m.size p < n ∧ ∀ c ∈ N, c.units < n) := by
  have hcircle := hm.linked.iterate_circle hm.circle hm.freep
  have hlen : 0 < N.length := by
    obtain ⟨T, rfl⟩ := hm.head
    simp
  rw [List.length_map] at hcircle
  have hstop : m.fits n (m.advance^[N.length - 1] (m.freep, m.ptr m.freep)) = true := by
    rw [m.advance_iterate, Nat.sub_add_cancel hlen, hcircle]
    simp [Heap.fits]
  obtain ⟨j, hjk, hj, hbefore, hrun⟩ := seek_of_stop hstop
  simp only [m.advance_iterate] at hj hbefore hrun
  refine ⟨_, _, fun fuel hfuel => hrun fuel (by omega), ?_⟩
  rcases Nat.lt_or_ge (m.size (m.ptr^[j + 1] m.freep)) n with hlt | hge
  · -- stopped only by `freep`: the search has come around without a fit
    have hback : m.ptr^[j + 1] m.freep = m.freep := by
      rw [Heap.fits, decide_eq_true_eq] at hj
      exact hj.resolve_left (Nat.not_le.2 hlt)
    have hj1 : j + 1 = N.length := by
      by_contra hne
      refine hm.linked.iterate_ne hm.circle hm.freep hm.ordered.nodup (Nat.succ_pos j) ?_ hback
      rw [List.length_map]
      omega
    refine .inr ⟨hlt, fun c hc => ?_⟩
    obtain ⟨i, hi, hci⟩ := (hm.linked.mem_iff hm.circle hm.freep).1 (List.mem_map_of_mem hc)
    rw [List.length_map] at hi
    rw [← hm.sizes c hc, ← hci]
    cases i with
    | zero => rwa [hback] at hlt
    | succ i =>
      have hnot := hbefore i (by omega)
      simp only [Heap.fits, decide_eq_false_iff_not, not_or, Nat.not_le] at hnot
      exact hnot.1
  · left
    obtain ⟨b, hb, hbj⟩ := List.mem_map.1 ((hm.linked.mem_iff hm.circle hm.freep).2
      ⟨j, by rw [List.length_map]; omega, rfl⟩)
    obtain ⟨L, R, hN⟩ := List.append_of_mem hb
    have hnext := hm.next hN
    rw [hbj, ← Function.iterate_succ_apply' m.ptr] at hnext
    cases R with
    | nil =>
      -- only `base` follows the last block, and it has no room
      obtain ⟨T, hT⟩ := hm.head
      have hbase := hm.sizes ⟨base, 0⟩ (by simp [hT])
      rw [hnext] at hge
      simp only [List.map_nil, List.headD_nil] at hge hbase
      omega
    | cons c R =>
      refine ⟨L, b, c, R, hN, hbj, hnext.symm, ?_⟩
      rw [hnext, List.map_cons, List.headD_cons, hm.sizes c (by simp [hN])] at hge
      exact hge

end

/-- What `malloc` takes leaves the list with the rest. -/
structure Taken (base : ℕ) (m : Heap) (N : List Block) (n : ℕ) (r : Heap × ℕ) (N' : List Block) :
    Prop where
  repr : Repr base r.1 N'
  size : r.1.size r.2 = n
  covers : ∀ x, Covers unit N x ↔ Block.Has unit ⟨r.2, n⟩ x ∨ Covers unit N' x
  apart : ∀ x, Block.Has unit ⟨r.2, n⟩ x → ¬ Covers unit N' x
  total : total N = n + total N'
  other : ∀ a ≠ r.2, (∀ c ∈ N, c.start ≠ a) → r.1.size a = m.size a

variable {c : Block} {n : ℕ}

/-- Ordered blocks do not cover each other. -/
theorem Ordered.not_covers (hord : Ordered unit (L ++ c :: R)) {x : ℕ} (hx : c.Has unit x) :
    ¬ Covers unit (L ++ R) x := by
  obtain ⟨-, hcR, hLc⟩ := ordered_append.1 hord
  rintro ⟨d, hd, hdx⟩
  rcases List.mem_append.1 hd with hd | hd
  · have := hLc d hd c (by simp)
    have := hdx.2
    have := hx.1
    omega
  · have := (ordered_cons.1 hcR).1 d hd
    have := hdx.1
    have := hx.2
    omega

theorem Repr.take_all (hm : Repr base m N) (hN : N = L ++ p :: c :: R) (hc : c.units = n)
    {r : Heap × ℕ} (hr : r = m.take n p.start c.start) : Taken base m N n r (L ++ p :: R) := by
  have hord := hm.ordered
  rw [hN] at hord
  have hsize := hm.sizes c (by simp [hN])
  obtain rfl : r = ({ m.setPtr p.start (m.ptr c.start) with freep := p.start }, c.start) := by
    rw [hr, Heap.take, if_pos (hsize.trans hc)]
  have hnext := hm.next (L := L ++ [p]) (p := c) (R := R) (by simp [hN])
  have hnodup := hord.nodup
  rw [List.map_append, List.map_cons, List.map_cons] at hnodup
  have hlinked := hm.linked
  rw [hN, List.map_append, List.map_cons, List.map_cons, linked_append] at hlinked
  obtain ⟨hLlinked, -, -, hRlinked⟩ := hlinked
  have hkeep : ∀ a ≠ p.start, Function.update m.ptr p.start (m.ptr c.start) a = m.ptr a :=
    fun a ha => Function.update_of_ne ha _ _
  have hblock : (⟨c.start, n⟩ : Block) = c := by rw [← hc]
  have hsplit : N = (L ++ [p]) ++ c :: R := by simp [hN]
  refine ⟨⟨?_, fun d hd hbd => ?_, ?_, fun d hd => ?_, ?_, ?_⟩, hsize.trans hc, fun x => ?_,
    fun x hx => ?_, ?_, fun a _ _ => rfl⟩
  · obtain ⟨T, hT⟩ := hm.head
    rw [hN] at hT
    cases L with
    | nil =>
      obtain ⟨rfl, -⟩ := List.cons.inj hT
      exact ⟨_, rfl⟩
    | cons d L =>
      obtain ⟨rfl, -⟩ := List.cons.inj hT
      exact ⟨_, rfl⟩
  · exact hm.pos d (by simp only [hN, List.mem_append, List.mem_cons] at hd ⊢; tauto) hbd
  · rw [List.map_append, List.map_cons, linked_append]
    refine ⟨hLlinked.congr fun a ha => hkeep a ?_, ?_, hRlinked.congr fun a ha => hkeep a ?_⟩
    · rintro rfl
      exact (List.nodup_append.1 hnodup).2.2 _ ha _ (by simp) rfl
    · simpa [Heap.setPtr] using hnext
    · rintro rfl
      have hp := (List.nodup_cons.1 (List.nodup_append.1 hnodup).2.1).1
      exact hp (List.mem_cons_of_mem _ ha)
  · exact hm.sizes d (by simp only [hN, List.mem_append, List.mem_cons] at hd ⊢; tauto)
  · simp
  · refine hord.sublist ?_
    exact (List.Sublist.refl L).append ((List.sublist_cons_self c R).cons_cons p)
  · rw [hblock, hN]
    simp only [covers_append, covers_cons]
    tauto
  · rw [hblock] at hx
    rw [hsplit] at hm
    have hnot := Ordered.not_covers hm.ordered hx
    simpa using hnot
  · rw [hN]
    simp only [total_append, total_cons]
    omega

theorem Repr.take_part (hm : Repr base m N) (hN : N = L ++ p :: c :: R) (hc : n < c.units)
    {r : Heap × ℕ} (hr : r = m.take n p.start c.start) :
    Taken base m N n r (L ++ p :: (c.cut unit n).1 :: R) := by
  have hord := hm.ordered
  rw [hN] at hord
  have hsize := hm.sizes c (by simp [hN])
  have hq : c.start < (c.cut unit n).2.start := by
    simp only [Block.cut, unit]
    omega
  have hqstop : (c.cut unit n).2.start ≤ c.stop unit := by
    simp only [Block.cut, Block.stop, unit]
    omega
  obtain rfl : r = ({ (m.setSize c.start (c.units - n)).setSize (c.cut unit n).2.start n with
      freep := p.start }, (c.cut unit n).2.start) := by
    rw [hr, Heap.take, if_neg (by omega)]
    simp [Heap.setSize, Block.cut, hsize]
  -- the other blocks lie outside `c`
  have hout : ∀ d ∈ L ++ [p] ++ R, d.start < c.start ∨ c.stop unit < d.start := by
    obtain ⟨-, hpcR, hLpc⟩ := ordered_append.1 hord
    obtain ⟨hpc, hcR⟩ := ordered_cons.1 hpcR
    intro d hd
    have hdstop := d.start_le_stop (u := unit)
    simp only [List.mem_append, List.mem_singleton] at hd
    rcases hd with (hd | rfl) | hd
    · have := hLpc d hd c (by simp)
      omega
    · have := hpc c (by simp)
      omega
    · exact .inr ((ordered_cons.1 hcR).1 d hd)
  have hstarts : (L ++ p :: (c.cut unit n).1 :: R).map Block.start = N.map Block.start := by
    rw [hN]
    simp [Block.cut]
  have hcut := fun x => Block.cut_has (u := unit) (x := x) hc.le
  refine ⟨⟨?_, fun d hd hbd => ?_, ?_, fun d hd => ?_, ?_, ?_⟩, ?_, fun x => ?_, fun x hx => ?_,
    ?_, fun a ha hac => ?_⟩
  · obtain ⟨T, hT⟩ := hm.head
    rw [hN] at hT
    cases L with
    | nil =>
      obtain ⟨rfl, -⟩ := List.cons.inj hT
      exact ⟨_, rfl⟩
    | cons d L =>
      obtain ⟨rfl, -⟩ := List.cons.inj hT
      exact ⟨_, rfl⟩
  · simp only [List.mem_append, List.mem_cons] at hd
    rcases hd with hd | rfl | rfl | hd
    · exact hm.pos d (by simp [hN, hd]) hbd
    · exact hm.pos d (by simp [hN]) hbd
    · exact Nat.sub_pos_of_lt hc
    · exact hm.pos d (by simp [hN, hd]) hbd
  · rw [hstarts]
    exact hm.linked
  · have hold : ∀ d ∈ L ++ [p] ++ R, Heap.size ((m.setSize c.start (c.units - n)).setSize
        (c.cut unit n).2.start n) d.start = d.units := by
      intro d hd
      have hd' := hout d hd
      have hstop := c.start_le_stop (u := unit)
      have h₁ : d.start ≠ (c.cut unit n).2.start := by omega
      have h₂ : d.start ≠ c.start := by omega
      simp only [Heap.setSize, Function.update_of_ne h₁, Function.update_of_ne h₂]
      refine hm.sizes d ?_
      simp only [List.mem_append, List.mem_singleton] at hd
      simp only [hN, List.mem_append, List.mem_cons]
      tauto
    simp only [List.mem_append, List.mem_cons] at hd
    rcases hd with hd | rfl | rfl | hd
    · exact hold d (by simp [hd])
    · exact hold d (by simp)
    · have hne : (c.cut unit n).1.start ≠ (c.cut unit n).2.start := hq.ne
      simp only [Heap.setSize, Function.update_of_ne hne]
      exact Function.update_self ..
    · exact hold d (by simp [hd])
  · rw [hstarts, hN]
    simp
  · obtain ⟨hLo, hpcR, hLpc⟩ := ordered_append.1 hord
    obtain ⟨hpc, hcR⟩ := ordered_cons.1 hpcR
    obtain ⟨hcR', hRo⟩ := ordered_cons.1 hcR
    refine ordered_append.2 ⟨hLo, ordered_cons.2 ⟨fun d hd => ?_, ordered_cons.2 ⟨fun d hd => ?_, hRo⟩⟩,
      fun a ha d hd => ?_⟩
    · rcases List.mem_cons.1 hd with rfl | hd
      · exact hpc c (by simp)
      · exact hpc d (by simp [hd])
    · exact hqstop.trans_lt (hcR' d hd)
    · simp only [List.mem_cons] at hd
      rcases hd with rfl | rfl | hd
      · exact hLpc a ha d (by simp)
      · exact hLpc a ha c (by simp)
      · exact hLpc a ha d (by simp [hd])
  · exact Function.update_self ..
  · rw [hN]
    simp only [covers_append, covers_cons, hcut x]
    change _ ↔ (c.cut unit n).2.Has unit x ∨ _
    tauto
  · have hnot := Ordered.not_covers (L := L ++ [p]) (by simpa using hord)
      ((hcut x).2 (.inr hx))
    have hleft := fun h => Block.cut_disjoint (b := c) (n := n) x h hx
    simp only [covers_append, covers_cons, covers_nil] at hnot ⊢
    tauto
  · rw [hN]
    simp only [total_append, total_cons, Block.cut]
    omega
  · have hac' : a ≠ c.start := fun h => hac c (by simp [hN]) h.symm
    simp only [Heap.setSize, Function.update_of_ne ha, Function.update_of_ne hac']

end lists

end Xv6.Malloc
