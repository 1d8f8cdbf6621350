import Xv6.Disk.Alloc

/-! Which block each place of an inode owns, and the bytes of a file, as functions of the inodes `N`
and the data blocks `D`. -/
namespace Xv6.Disk
open Bytes Function Owners

/-- The places that name a block: block `k` of the content of an inode, and its indirect block. -/
inductive Place where
  | leaf (i k : ℕ)
  | ind (i : ℕ)
  deriving DecidableEq

/-- The inode that a place belongs to. -/
def Place.inum : Place → ℕ
  | leaf i _ | ind i => i

/-- The block with the given number, where 0 is none. -/
def named (b : ℕ) : Option ℕ := if b = 0 then none else some b

@[simp] theorem named_zero : named 0 = none := rfl

theorem named_of_ne {b : ℕ} (h : b ≠ 0) : named b = some b := if_neg h

theorem named_eq_some {b c : ℕ} : named b = some c ↔ b ≠ 0 ∧ b = c := by
  unfold named
  split_ifs with h
  · simp [h]
  · simp [h]

theorem named_eq_none {b : ℕ} : named b = none ↔ b = 0 := by
  simp [named]

section defs
variable (sb : SuperBlock) (N : ℕ → Dinode) (D : ℕ → Block)

def indOf (i : ℕ) : ℕ := (N i).addrs indirectSlot

/-- The number of block `k` of the content of `i`, or 0. -/
def ptr (i k : ℕ) : ℕ :=
  if h : k < ndirect then (N i).addrs ⟨k, Nat.lt_succ_of_lt h⟩
  else if k < maxfile ∧ indOf N i ≠ 0 then indirectEntry (D (indOf N i)) (k - ndirect)
  else 0

def Live (i : ℕ) : Prop := i < sb.ninodes ∧ (N i).type ≠ 0

instance (i : ℕ) : Decidable (Live sb N i) := inferInstanceAs (Decidable (_ ∧ _))

/-- The block number at a place, or 0. -/
def number : Place → ℕ
  | .leaf i k => ptr N D i k
  | .ind i => indOf N i

def owns (p : Place) : Option ℕ := if Live sb N p.inum then named (number N D p) else none

/-- Byte `x` of the content of `i`; what is not allocated counts as zeros. -/
def byteAt (i x : ℕ) : Byte :=
  if ptr N D i (x / bsize) = 0 then 0 else D (ptr N D i (x / bsize)) (x % bsize)

end defs

variable {p : Place}

section basics
variable {sb : SuperBlock} {N N' : ℕ → Dinode} {D D' : ℕ → Block} {i j k b : ℕ}

theorem ptr_direct {k : Fin (ndirect + 1)} (h : k.val < ndirect) : ptr N D i k = (N i).addrs k :=
  dif_pos h

theorem ptr_entry (h : ndirect ≤ k) (h' : k < maxfile) (hind : indOf N i ≠ 0) :
    ptr N D i k = indirectEntry (D (indOf N i)) (k - ndirect) := by
  rw [ptr, dif_neg (Nat.not_lt.2 h), if_pos ⟨h', hind⟩]

theorem ptr_of_ind_zero (h : ndirect ≤ k) (hind : indOf N i = 0) : ptr N D i k = 0 := by
  rw [ptr, dif_neg (Nat.not_lt.2 h), if_neg fun hand => hand.2 hind]

theorem ptr_of_ge (h : maxfile ≤ k) : ptr N D i k = 0 := by
  have hdirect : ¬k < ndirect := Nat.not_lt.2 (le_trans (by decide) h)
  rw [ptr, dif_neg hdirect, if_neg fun hand => Nat.not_lt.2 h hand.1]

/-- The blocks of an inode depend on that inode and on its indirect block. -/
theorem ptr_congr (haddrs : (N' i).addrs = (N i).addrs)
    (hdata : indOf N i ≠ 0 → D' (indOf N i) = D (indOf N i)) : ptr N' D' i k = ptr N D i k := by
  have hind : indOf N' i = indOf N i := by rw [indOf, haddrs, indOf]
  unfold ptr
  rw [haddrs, hind]
  by_cases hzero : indOf N i = 0
  · simp [hzero]
  · rw [hdata hzero]

theorem owns_eq_some : owns sb N D p = some b ↔ Live sb N p.inum ∧ number N D p = b ∧ b ≠ 0 := by
  unfold owns
  split_ifs with h
  · rw [named_eq_some]
    constructor
    · rintro ⟨hne, rfl⟩
      exact ⟨h, rfl, hne⟩
    · rintro ⟨-, rfl, hne⟩
      exact ⟨hne, rfl⟩
  · simp [h]

theorem owns_of_ne (h : Live sb N p.inum) (hp : number N D p ≠ 0) :
    owns sb N D p = some (number N D p) :=
  owns_eq_some.2 ⟨h, rfl, hp⟩

theorem owns_leaf (h : Live sb N i) : owns sb N D (.leaf i k) = named (ptr N D i k) := if_pos h

theorem owns_ind (h : Live sb N i) : owns sb N D (.ind i) = named (indOf N i) := if_pos h

theorem owns_of_not_live (h : ¬Live sb N p.inum) : owns sb N D p = none := if_neg h

theorem number_congr (haddrs : (N' p.inum).addrs = (N p.inum).addrs)
    (hdata : indOf N p.inum ≠ 0 → D' (indOf N p.inum) = D (indOf N p.inum)) :
    number N' D' p = number N D p := by
  cases p with
  | leaf i k => exact ptr_congr haddrs hdata
  | ind i => exact congrFun haddrs indirectSlot

/-- What an inode owns depends on that inode and on its indirect block. -/
theorem owns_congr (hlive : Live sb N' p.inum ↔ Live sb N p.inum)
    (haddrs : (N' p.inum).addrs = (N p.inum).addrs)
    (hdata : Live sb N p.inum → indOf N p.inum ≠ 0 → D' (indOf N p.inum) = D (indOf N p.inum)) :
    owns sb N' D' p = owns sb N D p := by
  by_cases h : Live sb N p.inum
  · rw [owns, owns, if_pos (hlive.2 h), if_pos h, number_congr haddrs (hdata h)]
  · rw [owns_of_not_live h, owns_of_not_live fun h' => h (hlive.1 h')]

end basics

section changes
variable {sb : SuperBlock} {N : ℕ → Dinode} {D : ℕ → Block} {i k b : ℕ} {d : Dinode}

theorem Live.update (h : Live sb N i) (hd : d.type ≠ 0) : Live sb (update N i d) i :=
  ⟨h.1, by rwa [update_self]⟩

theorem live_update_of_ne {j : ℕ} (hj : j ≠ i) : Live sb (update N i d) j ↔ Live sb N j := by
  rw [Live, Live, update_of_ne hj]

theorem owns_update_of_ne (hp : p.inum ≠ i) : owns sb (update N i d) D p = owns sb N D p :=
  owns_congr (live_update_of_ne hp) (by rw [update_of_ne hp]) fun _ _ => rfl

/-- A block that is not an indirect block may change without a change of owner. -/
theorem owns_update_data {blk : Block} (h : ∀ i, owns sb N D (.ind i) ≠ some b) :
    owns sb N (update D b blk) = owns sb N D := by
  funext p
  refine owns_congr Iff.rfl rfl fun hlive hne => update_of_ne ?_ ..
  rintro rfl
  exact h p.inum (owns_eq_some.2 ⟨hlive, rfl, hne⟩)

/-- Changes of the other fields of an inode. -/
theorem owns_update_attrs (haddrs : d.addrs = (N i).addrs) (htype : d.type = (N i).type) :
    owns sb (update N i d) D = owns sb N D := by
  funext p
  by_cases hp : p.inum = i
  · subst hp
    refine owns_congr ?_ (by rw [update_self, haddrs]) fun _ _ => rfl
    rw [Live, Live, update_self, htype]
  · exact owns_update_of_ne hp

section place
variable {N' : ℕ → Dinode} {D' : ℕ → Block} (h : Live sb N i) (h' : Live sb N' i)
  (hother : ∀ p : Place, p.inum ≠ i → owns sb N' D' p = owns sb N D p)
include h h' hother

/-- The block at one place of `i` changes. -/
theorem owns_update_place (hp : p.inum = i)
    (hnumber : ∀ q : Place, q.inum = i → number N' D' q = if q = p then b else number N D q) :
    owns sb N' D' = update (owns sb N D) p (named b) := by
  funext q
  by_cases hq : q.inum = i
  · rw [owns, if_pos (hq ▸ h'), hnumber q hq]
    by_cases hqp : q = p
    · rw [if_pos hqp, hqp, update_self]
    · rw [if_neg hqp, update_of_ne hqp, owns, if_pos (hq ▸ h)]
  · have hne : q ≠ p := by
      rintro rfl
      exact hq hp
    rw [update_of_ne hne, hother q hq]

/-- One block of the content of `i` changes. -/
theorem owns_update_leaf (hind : indOf N' i = indOf N i) (hptr : ptr N' D' i = update (ptr N D i) k b) :
    owns sb N' D' = update (owns sb N D) (.leaf i k) (named b) := by
  refine owns_update_place h h' hother rfl fun q hq => ?_
  cases q with
  | leaf j k' =>
    obtain rfl : j = i := hq
    simp [number, hptr, update_apply]
  | ind j =>
    obtain rfl : j = i := hq
    exact hind

/-- The indirect block of `i` changes, and nothing it names does. -/
theorem owns_update_indirect (hind : indOf N' i = b) (hptr : ptr N' D' i = ptr N D i) :
    owns sb N' D' = update (owns sb N D) (.ind i) (named b) := by
  refine owns_update_place h h' hother rfl fun q hq => ?_
  cases q with
  | leaf j k' =>
    obtain rfl : j = i := hq
    exact congrFun hptr k'
  | ind j =>
    obtain rfl : j = i := hq
    rw [if_pos rfl]
    exact hind

end place

theorem indOf_setAddr {k : Fin (ndirect + 1)} (hk : k.val < ndirect) :
    indOf (update N i ((N i).setAddr k b)) i = indOf N i := by
  have hne : indirectSlot ≠ k := by
    rintro rfl
    exact absurd hk (Nat.lt_irrefl _)
  rw [indOf, update_self]
  exact update_of_ne hne ..

theorem ptr_setAddr {k : Fin (ndirect + 1)} (hk : k.val < ndirect) :
    ptr (update N i ((N i).setAddr k b)) D i = update (ptr N D i) k b := by
  funext k'
  by_cases hkk : k' = k
  · subst hkk
    rw [update_self, ptr_direct hk, update_self]
    exact update_self ..
  · rw [update_of_ne hkk]
    unfold ptr
    rw [indOf_setAddr hk]
    split_ifs with hlt
    · rw [update_self]
      exact update_of_ne (fun heq => hkk (congrArg Fin.val heq)) ..
    · rfl
    · rfl

@[simp] theorem indOf_setAddr_ind : indOf (update N i ((N i).setAddr indirectSlot b)) i = b := by
  simp [indOf, Dinode.setAddr]

/-- A new indirect block names nothing. -/
theorem ptr_setAddr_ind (hind : indOf N i = 0) (hb : D b = fun _ => 0) :
    ptr (update N i ((N i).setAddr indirectSlot b)) D i = ptr N D i := by
  funext k
  by_cases hk : k < ndirect
  · have hne : (⟨k, Nat.lt_succ_of_lt hk⟩ : Fin (ndirect + 1)) ≠ indirectSlot :=
      fun heq => absurd (congrArg Fin.val heq) (Nat.ne_of_lt hk)
    rw [ptr, ptr, dif_pos hk, dif_pos hk, update_self]
    exact update_of_ne hne ..
  · rw [ptr_of_ind_zero (Nat.not_lt.1 hk) hind, ptr, dif_neg hk, indOf_setAddr_ind]
    split_ifs with hand
    · rw [hb, indirectEntry, getLE_zero]
    · rfl

theorem ptr_setEntry {j : ℕ} (hj : j < nindirect) (hind : indOf N i ≠ 0) (hb : b < 2 ^ 32) :
    ptr N (update D (indOf N i) (setLE (D (indOf N i)) (4 * j) 4 b)) i =
      update (ptr N D i) (ndirect + j) b := by
  have hlt : ndirect + j < maxfile := Nat.add_lt_add_left hj _
  funext k
  by_cases hk : k = ndirect + j
  · rw [hk, update_self, ptr_entry (Nat.le_add_right ..) hlt hind, update_self,
      Nat.add_sub_cancel_left, indirectEntry, getLE_setLE_self]
    exact Nat.mod_eq_of_lt hb
  · rw [update_of_ne hk]
    by_cases hdirect : k < ndirect
    · rw [ptr, ptr, dif_pos hdirect, dif_pos hdirect]
    · by_cases hmax : k < maxfile
      · rw [ptr_entry (Nat.not_lt.1 hdirect) hmax hind, ptr_entry (Nat.not_lt.1 hdirect) hmax hind,
          update_self, indirectEntry, getLE_setLE_disjoint _ _ (by omega), indirectEntry]
      · rw [ptr_of_ge (Nat.not_lt.1 hmax), ptr_of_ge (Nat.not_lt.1 hmax)]

end changes

/-- From `N`, `D` to `N'`, `D'` the inode `j` may have got blocks, which are empty; the blocks that it
had are its blocks still, with the content they had. -/
def Extends (N : ℕ → Dinode) (D : ℕ → Block) (N' : ℕ → Dinode) (D' : ℕ → Block) (j : ℕ) : Prop :=
  ∀ k, (ptr N' D' j k = ptr N D j k ∧ (ptr N D j k ≠ 0 → D' (ptr N D j k) = D (ptr N D j k))) ∨
    (ptr N D j k = 0 ∧ D' (ptr N' D' j k) = fun _ => 0)

section extension
variable {sb : SuperBlock} {N N' N'' : ℕ → Dinode} {D D' D'' : ℕ → Block} {i j k b : ℕ}
  {U : ℕ → Bool}

theorem Extends.refl (N : ℕ → Dinode) (D : ℕ → Block) (j : ℕ) : Extends N D N D j :=
  fun _ => .inl ⟨rfl, fun _ => rfl⟩

theorem Extends.ptr_eq (h : Extends N D N' D' j) (hk : ptr N D j k ≠ 0) :
    ptr N' D' j k = ptr N D j k := by
  obtain hk' | hk' := h k
  · exact hk'.1
  · exact absurd hk'.1 hk

theorem Extends.byteAt (h : Extends N D N' D' j) : byteAt N' D' j = byteAt N D j := by
  funext x
  unfold Disk.byteAt
  obtain ⟨hptr, hdata⟩ | ⟨hzero, hdata⟩ := h (x / bsize)
  · rw [hptr]
    split_ifs with hne
    · rfl
    · rw [hdata hne]
  · rw [if_pos hzero, hdata]
    split_ifs <;> rfl

theorem Extends.trans (h : Extends N D N' D' j) (h' : Extends N' D' N'' D'' j) :
    Extends N D N'' D'' j := by
  intro k
  obtain ⟨hptr, hdata⟩ | ⟨hzero, hdata⟩ := h k
  · obtain ⟨hptr', hdata'⟩ | ⟨hzero', hdata'⟩ := h' k
    · rw [hptr] at hptr' hdata'
      exact .inl ⟨hptr', fun hne => (hdata' hne).trans (hdata hne)⟩
    · exact .inr ⟨hptr ▸ hzero', hdata'⟩
  · obtain ⟨hptr', hdata'⟩ | ⟨hzero', hdata'⟩ := h' k
    · by_cases hne : ptr N' D' j k = 0
      · exact .inl ⟨by rw [hptr', hne, hzero], fun hne' => absurd hzero hne'⟩
      · exact .inr ⟨hzero, by rw [hptr', hdata' hne, hdata]⟩
    · exact .inr ⟨hzero, hdata'⟩

/-- A block without an owner changes. -/
theorem extends_unowned {blk : Block} (hown : ∀ p, owns sb N D p ≠ some b) (hj : Live sb N j) :
    Extends N D N (update D b blk) j := by
  intro k
  have hind : indOf N j ≠ 0 → update D b blk (indOf N j) = D (indOf N j) := by
    intro hne
    refine update_of_ne ?_ ..
    rintro rfl
    exact hown (.ind j) (owns_eq_some.2 ⟨hj, rfl, hne⟩)
  refine .inl ⟨ptr_congr rfl hind, fun hne => update_of_ne ?_ ..⟩
  rintro rfl
  exact hown (.leaf j k) (owns_eq_some.2 ⟨hj, rfl, hne⟩)

/-- An inode other than the one that changes. -/
theorem extends_of_ne {d : Dinode} (hj : j ≠ i) : Extends N D (update N i d) D j := by
  intro k
  exact .inl ⟨ptr_congr (by rw [update_of_ne hj]) fun _ => rfl, fun _ => rfl⟩

theorem extends_setAddr {k : Fin (ndirect + 1)} (hk : k.val < ndirect) (hzero : (N i).addrs k = 0)
    (hb : D b = fun _ => 0) : Extends N D (update N i ((N i).setAddr k b)) D i := by
  intro k'
  rw [ptr_setAddr hk]
  by_cases hkk : k' = k
  · rw [hkk, update_self, ptr_direct hk]
    exact .inr ⟨hzero, hb⟩
  · rw [update_of_ne hkk]
    exact .inl ⟨rfl, fun _ => rfl⟩

theorem extends_setAddr_ind (hind : indOf N i = 0) (hb : D b = fun _ => 0) :
    Extends N D (update N i ((N i).setAddr indirectSlot b)) D i := by
  intro k
  rw [ptr_setAddr_ind hind hb]
  exact .inl ⟨rfl, fun _ => rfl⟩

section
variable (h : Exact U (· < sb.datastart) (owns sb N D))
include h

theorem leaf_ne_ind (hi : Live sb N i) (hj : Live sb N j)
    (hind : indOf N i ≠ 0) : ptr N D j k ≠ indOf N i := by
  intro heq
  have hleaf : owns sb N D (.leaf j k) = some (indOf N i) := owns_eq_some.2 ⟨hj, heq, hind⟩
  have hplace := h.exclusive _ _ _ hleaf (owns_of_ne (p := .ind i) hi hind)
  contradiction

theorem ind_ne_ind (hi : Live sb N i) (hj : Live sb N j) (hind : indOf N i ≠ 0)
    (hij : j ≠ i) : indOf N j ≠ indOf N i := by
  intro heq
  have hown : owns sb N D (.ind j) = some (indOf N i) := owns_eq_some.2 ⟨hj, heq, hind⟩
  have hplace := h.exclusive _ _ _ hown (owns_of_ne (p := .ind i) hi hind)
  exact hij (Place.ind.inj hplace)

/-- A block with empty content is entered in the indirect block of `i`. -/
theorem extends_setEntry (hi : Live sb N i) (hind : indOf N i ≠ 0) (hk : k < nindirect)
    (hzero : ptr N D i (ndirect + k) = 0) (hb : b < 2 ^ 32) (hne : b ≠ indOf N i)
    (hdata : D b = fun _ => 0) (hj : Live sb N j) :
    Extends N D N (update D (indOf N i) (setLE (D (indOf N i)) (4 * k) 4 b)) j := by
  intro k'
  have hleaf : ptr N D j k' ≠ indOf N i := leaf_ne_ind h hi hj hind
  by_cases hij : j = i
  · subst hij
    rw [ptr_setEntry hk hind hb]
    by_cases hkk : k' = ndirect + k
    · rw [hkk, update_self, update_of_ne hne]
      exact .inr ⟨hzero, hdata⟩
    · rw [update_of_ne hkk]
      exact .inl ⟨rfl, fun _ => update_of_ne hleaf ..⟩
  · refine .inl ⟨ptr_congr rfl fun _ => update_of_ne ?_ .., fun _ => update_of_ne hleaf ..⟩
    exact ind_ne_ind h hi hj hind hij

/-- The content of one block of `i` changes, from `off` on. -/
theorem byteAt_write (hi : Live sb N i) (hj : Live sb N j) {off : ℕ} {bs : List Byte}
    (hne : ptr N D i (off / bsize) ≠ 0) (hlen : off % bsize + bs.length ≤ bsize) :
    byteAt N (update D (ptr N D i (off / bsize))
      (write (D (ptr N D i (off / bsize))) (off % bsize) bs)) j =
      if j = i then write (byteAt N D i) off bs else byteAt N D j := by
  have hown : owns sb N D (.leaf i (off / bsize)) = some (ptr N D i (off / bsize)) :=
    owns_of_ne (p := .leaf i (off / bsize)) hi hne
  have hptr : ∀ k, ptr N (update D (ptr N D i (off / bsize))
      (write (D (ptr N D i (off / bsize))) (off % bsize) bs)) j k = ptr N D j k := by
    intro k
    refine ptr_congr rfl fun hind => update_of_ne ?_ ..
    exact fun heq => leaf_ne_ind h hj hi hind heq.symm
  funext x
  have hother : ptr N D j (x / bsize) = ptr N D i (off / bsize) → j = i ∧ x / bsize = off / bsize := by
    intro heq
    have hown' : owns sb N D (.leaf j (x / bsize)) = some (ptr N D i (off / bsize)) :=
      owns_eq_some.2 ⟨hj, heq, hne⟩
    have hplace := h.exclusive _ _ _ hown' hown
    exact Place.leaf.inj hplace
  simp only [byteAt, hptr]
  by_cases hblock : ptr N D j (x / bsize) = ptr N D i (off / bsize)
  · obtain ⟨rfl, hx⟩ := hother hblock
    rw [if_pos rfl, hx, if_neg hne, update_self]
    have hdivx := Nat.div_add_mod x bsize
    have hdivo := Nat.div_add_mod off bsize
    rw [hx] at hdivx
    by_cases hin : off ≤ x ∧ x < off + bs.length
    · rw [write_inside _ (by omega) (by omega), write_inside _ hin.1 (by omega)]
      congr 1
      omega
    · rw [write_outside _ (by omega), write_outside _ (by omega), byteAt, hx, if_neg hne]
  · rw [update_of_ne hblock]
    by_cases hji : j = i
    · subst hji
      have hx : x / bsize ≠ off / bsize := fun hx => hblock (by rw [hx])
      have hout : x < off ∨ off + bs.length ≤ x := by
        simp only [bsize] at hx hlen
        omega
      rw [if_pos rfl, write_outside _ hout, byteAt]
    · rw [if_neg hji, byteAt]

end

end extension
end Xv6.Disk
