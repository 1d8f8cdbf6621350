import Mathlib.Data.Finset.Card
import Xv6.Disk.Owns

/-! `bmap` gives the block of a file at an index. If there was none it takes a free block, which is
empty and has no owner, so that no file changes. -/
namespace Xv6.Disk
open Bytes Function Program Owners

/-- The inodes as the kernel sees them: the copy in the table where there is one. -/
def View.nodes (V : View) (i : ℕ) : Dinode := (V.table i).getD (V.node i)

def State.ptr (sb : SuperBlock) (s : State) : ℕ → ℕ → ℕ := Disk.ptr (view sb s).nodes (view sb s).data

def State.byteAt (sb : SuperBlock) (s : State) : ℕ → ℕ → Byte :=
  Disk.byteAt (view sb s).nodes (view sb s).data

def View.owns (sb : SuperBlock) (V : View) : Place → Option ℕ := Disk.owns sb V.nodes V.data

/-- The bitmap records exactly the blocks below the data area and those that an inode owns, and no
block has two owners. -/
def View.Exact (sb : SuperBlock) (V : View) : Prop :=
  Owners.Exact V.used (· < sb.datastart) (V.owns sb)

/-- The blocks of the bitmap. -/
def bitmapSet (sb : SuperBlock) : Finset ℕ :=
  (Finset.range (sb.size / bpb + 1)).image (· + sb.bmapstart)

theorem bblock_mem {sb : SuperBlock} {b : ℕ} (h : b < sb.size) : sb.bblock b ∈ bitmapSet sb :=
  Finset.mem_image_of_mem _ (Finset.mem_range.2 (Nat.lt_succ_of_le (Nat.div_le_div_right h.le)))

theorem lt_of_mem_bitmapSet {sb : SuperBlock} {b : ℕ} (h : b ∈ bitmapSet sb) : b < sb.datastart := by
  obtain ⟨k, hk, rfl⟩ := Finset.mem_image.1 h
  have hlt := Finset.mem_range.1 hk
  unfold SuperBlock.datastart
  omega

section view
variable {sb : SuperBlock} {s s' : State} {i b : ℕ} {ip : Dinode} {V : View}

theorem nodes_self (h : s.table i = some ip) : (view sb s).nodes i = ip :=
  congrArg (Option.getD · _) h

theorem nodes_none (h : s.table i = none) : (view sb s).nodes i = (view sb s).node i :=
  congrArg (Option.getD · _) h

theorem nodes_congr (hnode : (view sb s').node = (view sb s).node) (htable : s'.table i = s.table i) :
    (view sb s').nodes i = (view sb s).nodes i := by
  rw [View.nodes, View.nodes, hnode]
  exact congrArg (Option.getD · _) htable

theorem nodes_hold (d : Dinode) :
    ({ V with table := update V.table i (some d) } : View).nodes = update V.nodes i d := by
  funext j
  simp only [View.nodes]
  by_cases hj : j = i
  · rw [hj, update_self, update_self, Option.getD_some]
  · rw [update_of_ne hj, update_of_ne hj, View.nodes]

/-- What is on the disk does not matter while there is a copy in the table. -/
theorem nodes_update_node (h : V.table i = some ip) (d : Dinode) :
    ({ V with node := update V.node i d } : View).nodes = V.nodes := by
  funext j
  simp only [View.nodes]
  by_cases hj : j = i
  · rw [hj, h, Option.getD_some, Option.getD_some]
  · rw [update_of_ne hj]

theorem lt_of_used (h : (view sb s).used b = true) : b < sb.size := by
  simp only [view, usedIn, Bool.and_eq_true, decide_eq_true_eq] at h
  exact h.1

theorem View.Exact.below_used (h : V.Exact sb) (hb : b < sb.datastart) : V.used b = true :=
  (h.used_iff b).2 (.inl hb)

theorem View.Exact.lt_size {p : Place} (h : (view sb s).Exact sb)
    (hp : (view sb s).owns sb p = some b) : sb.datastart ≤ b ∧ b < sb.size :=
  ⟨Nat.not_lt.1 (h.unreserved p b hp), lt_of_used (h.used_of_owns hp)⟩

theorem Free.not_owned (hb : Free sb V b) (h : V.Exact sb) (p : Place) : V.owns sb p ≠ some b :=
  fun hp => h.ne_of_unused hp hb.unused rfl

end view

/-- The blocks of the bitmap that have been logged from `s` to `s'`. -/
def mapLogged (sb : SuperBlock) (s s' : State) : Finset ℕ := (s'.logged \ s.logged) ∩ bitmapSet sb

/-- Within an operation on the inode `i`, from `s` to `s'` only the blocks of `i` have changed and none
of them is lost: the ownership of blocks is still recorded exactly, and all blocks changed have been
logged. -/
structure Kept (sb : SuperBlock) (s s' : State) (i : ℕ) (X : Finset ℕ) : Prop where
  exact : (view sb s').Exact sb
  ptr_eq : ∀ j k, Live sb (view sb s).nodes j → s.ptr sb j k ≠ 0 → s'.ptr sb j k = s.ptr sb j k
  node : (view sb s').node = (view sb s).node
  table : ∀ j ≠ i, s'.table j = s.table j
  attrs : ∀ ip, s.table i = some ip → ∃ a, s'.table i = some { ip with addrs := a }
  ind : ∀ j c, (view sb s').owns sb (.ind j) = some c →
    (view sb s).owns sb (.ind j) = some c ∨ c ∈ s'.logged
  keep : ∀ j, Live sb (view sb s).nodes j → indOf (view sb s).nodes j ≠ 0 →
    indOf (view sb s').nodes j = indOf (view sb s).nodes j
  fresh : ∀ k, s.ptr sb i k = 0 → s'.ptr sb i k ≠ 0 → s'.ptr sb i k ∈ s'.logged
  grows : Grows s s' X

/-- Blocks have been added to the inode `i`, and no file has changed. -/
structure Grown (sb : SuperBlock) (s s' : State) (i : ℕ) (X : Finset ℕ) : Prop
    extends Kept sb s s' i X where
  extend : ∀ j, Live sb (view sb s).nodes j →
    Extends (view sb s).nodes (view sb s).data (view sb s').nodes (view sb s').data j

section kept
variable {sb : SuperBlock} {s s' s'' : State} {i j : ℕ} {X Y : Finset ℕ} {ip : Dinode}

theorem Grows.mem_of_mapLogged {c : ℕ} (h : Grows s s' X) (hc : c ∈ mapLogged sb s s') :
    c ∈ X ∧ c ∈ bitmapSet sb := by
  obtain ⟨hc, hmap⟩ := Finset.mem_inter.1 hc
  obtain ⟨hc, hnot⟩ := Finset.mem_sdiff.1 hc
  exact ⟨(Finset.mem_union.1 (h.sub hc)).resolve_left hnot, hmap⟩

theorem card_mapLogged_trans (s s' s'' : State) : (mapLogged sb s s'').card ≤
    (mapLogged sb s s').card + (mapLogged sb s' s'').card := by
  refine (Finset.card_le_card fun c hc => ?_).trans (Finset.card_union_le _ _)
  simp only [mapLogged, Finset.mem_union, Finset.mem_inter, Finset.mem_sdiff] at hc ⊢
  tauto

theorem Kept.refl (h : (view sb s).Exact sb) (i : ℕ) (X : Finset ℕ) : Kept sb s s i X :=
  ⟨h, fun _ _ _ _ => rfl, rfl, fun _ _ => rfl, fun ip hip => ⟨ip.addrs, hip⟩, fun _ _ hc => .inl hc,
    fun _ _ _ => rfl, fun _ hzero hne => absurd hzero hne, .refl s X⟩

section
variable (h : Kept sb s s' i X)
include h

theorem Kept.nodes_of_ne (hj : j ≠ i) : (view sb s').nodes j = (view sb s).nodes j :=
  nodes_congr h.node (h.table j hj)

/-- Only the block numbers of an inode change. -/
theorem Kept.nodes_eq (hip : s.table i = some ip) (j : ℕ) :
    ∃ a, (view sb s').nodes j = { (view sb s).nodes j with addrs := a } := by
  by_cases hj : j = i
  · subst hj
    obtain ⟨a, ha⟩ := h.attrs ip hip
    rw [nodes_self ha, nodes_self hip]
    exact ⟨a, rfl⟩
  · exact ⟨((view sb s).nodes j).addrs, h.nodes_of_ne hj⟩

theorem Kept.live (hip : s.table i = some ip) :
    Live sb (view sb s').nodes j ↔ Live sb (view sb s).nodes j := by
  obtain ⟨a, ha⟩ := h.nodes_eq hip j
  rw [Live, Live, ha]

theorem Kept.trans (h' : Kept sb s' s'' i Y) (hip : s.table i = some ip)
    (hi : Live sb (view sb s).nodes i) : Kept sb s s'' i (X ∪ Y) := by
  refine ⟨h'.exact, fun j k hj hne => ?_, h'.node.trans h.node, fun j hj => ?_, fun ip' hip' => ?_,
    fun j c hc => ?_, fun j hj hne => ?_, fun k hzero hne => ?_, h.grows.trans h'.grows⟩
  · have hptr := h.ptr_eq j k hj hne
    rw [← hptr] at hne ⊢
    exact h'.ptr_eq j k ((h.live hip).2 hj) hne
  · rw [h'.table j hj, h.table j hj]
  · obtain ⟨a, ha⟩ := h.attrs ip' hip'
    obtain ⟨a', ha'⟩ := h'.attrs _ ha
    exact ⟨a', ha'⟩
  · obtain hc | hc := h'.ind j c hc
    · exact (h.ind j c hc).imp_right fun hc => h'.grows.mono hc
    · exact .inr hc
  · have hkeep := h.keep j hj hne
    rw [← hkeep] at hne ⊢
    exact h'.keep j ((h.live hip).2 hj) hne
  · by_cases hmid : s'.ptr sb i k = 0
    · exact h'.fresh k hmid hne
    · rw [h'.ptr_eq i k ((h.live hip).2 hi) hmid]
      exact h'.grows.mono (h.fresh k hzero hmid)

theorem Kept.weaken (hXY : X ⊆ Y) : Kept sb s s' i Y :=
  ⟨h.exact, h.ptr_eq, h.node, h.table, h.attrs, h.ind, h.keep, h.fresh, h.grows.weaken hXY⟩

end

theorem Grown.refl (h : (view sb s).Exact sb) (i : ℕ) (X : Finset ℕ) : Grown sb s s i X :=
  ⟨.refl h i X, fun j _ => .refl _ _ j⟩

theorem Grown.trans (h : Grown sb s s' i X) (h' : Grown sb s' s'' i Y) (hip : s.table i = some ip)
    (hi : Live sb (view sb s).nodes i) : Grown sb s s'' i (X ∪ Y) :=
  ⟨h.toKept.trans h'.toKept hip hi,
    fun j hj => (h.extend j hj).trans (h'.extend j ((h.live hip).2 hj))⟩

theorem Grown.byteAt (h : Grown sb s s' i X) (hj : Live sb (view sb s).nodes j) :
    s'.byteAt sb j = s.byteAt sb j :=
  (h.extend j hj).byteAt

theorem Grown.weaken (h : Grown sb s s' i X) (hXY : X ⊆ Y) : Grown sb s s' i Y :=
  ⟨h.toKept.weaken hXY, h.extend⟩

end kept

section bmap
variable {sb : SuperBlock} {E : Stop → Prop} {s s' : State} {i k b : ℕ} {ip : Dinode}

section taken
variable (h : Taken sb s s' b)
include h

theorem Taken.pos : b ≠ 0 :=
  Nat.ne_of_gt ((Nat.zero_le _).trans_lt (sb.bmapstart_lt_datastart.trans_le h.data))

theorem Taken.lt : b < 2 ^ 32 := by
  have hlt := h.free.lt
  have hsize := sb.size_lt
  omega

theorem Taken.nodes : (view sb s').nodes = (view sb s).nodes := by
  rw [h.view_eq]
  rfl

theorem Taken.table : s'.table = s.table := congrArg View.table h.view_eq

theorem Taken.data_eq :
    (view sb s').data = update (view sb s).data b fun _ => 0 := by
  rw [h.view_eq]

variable (hexact : (view sb s).Exact sb)
include hexact

theorem Taken.owns :
    (view sb s').owns sb = (view sb s).owns sb := by
  rw [View.owns, h.nodes, h.data_eq]
  exact owns_update_data fun i => h.free.not_owned hexact (.ind i)

/-- The block taken is given to a place that had none. -/
theorem Taken.exact {p : Place} (hp : (view sb s).owns sb p = none) :
    Owners.Exact (view sb s').used (· < sb.datastart) (update ((view sb s').owns sb) p (named b)) := by
  rw [h.owns hexact, named_of_ne h.pos, h.view_eq]
  exact hexact.take hp h.free.unused

theorem Taken.extends {j : ℕ} (hj : Live sb (view sb s).nodes j) :
    Extends (view sb s).nodes (view sb s).data (view sb s').nodes (view sb s').data j := by
  rw [h.nodes, h.data_eq]
  exact extends_unowned (h.free.not_owned hexact) hj

theorem Taken.ne_ind (hlive : Live sb (view sb s).nodes i) : b ≠ indOf (view sb s).nodes i := by
  intro heq
  refine h.free.not_owned hexact (.ind i) (owns_eq_some.2 ⟨hlive, heq.symm, h.pos⟩)

theorem Taken.ptr (hlive : Live sb (view sb s).nodes i) : s'.ptr sb i k = s.ptr sb i k := by
  rw [State.ptr, h.nodes, h.data_eq]
  exact ptr_congr rfl fun _ => update_of_ne (h.ne_ind hexact hlive).symm ..

/-- The block taken becomes a direct block or the indirect block of `i`. -/
theorem Taken.setAddr (hip : s.table i = some ip) (hlive : Live sb (view sb s).nodes i)
    {k : Fin (ndirect + 1)} (hzero : ip.addrs k = 0) :
    Grown sb s (s'.hold i (some (ip.setAddr k b))) i {sb.bblock b, b} := by
  have hself : (view sb s').nodes i = ip := by
    rw [h.nodes]
    exact nodes_self hip
  obtain ⟨N, hN⟩ : ∃ N, N = update (view sb s').nodes i (((view sb s').nodes i).setAddr k b) := ⟨_, rfl⟩
  have hnodes : (view sb (s'.hold i (some (ip.setAddr k b)))).nodes = N := by
    rw [view_hold, nodes_hold, hN, hself]
  have hlive' : Live sb (view sb s').nodes i := by rwa [h.nodes]
  have hnew : Live sb N i := hN ▸ hlive'.update hlive'.2
  have hdata : (view sb s').data b = fun _ => 0 := by rw [h.data_eq, update_self]
  have hother : ∀ p : Place, p.inum ≠ i → Disk.owns sb N (view sb s').data p =
      Disk.owns sb (view sb s').nodes (view sb s').data p := fun p hp => hN ▸ owns_update_of_ne hp
  -- what the inode owns now, and how its blocks have changed
  have hcase : ∃ p : Place, (view sb s).owns sb p = none ∧
      Disk.owns sb N (view sb s').data = update ((view sb s').owns sb) p (named b) ∧
      (indOf (view sb s').nodes i ≠ 0 → indOf N i = indOf (view sb s').nodes i) ∧
      (∀ k', Disk.ptr N (view sb s').data i k' = b ∨
        Disk.ptr N (view sb s').data i k' = s'.ptr sb i k') ∧
      Extends (view sb s').nodes (view sb s').data N (view sb s').data i := by
    subst hN
    by_cases hk : k.val < ndirect
    · refine ⟨.leaf i k, ?_, ?_, fun _ => indOf_setAddr hk, fun k' => ?_,
        extends_setAddr hk (by rw [hself, hzero]) hdata⟩
      · rw [View.owns, owns_leaf hlive, ptr_direct hk, nodes_self hip, hzero,
          named_zero]
      · exact owns_update_leaf hlive' hnew hother (indOf_setAddr hk) (ptr_setAddr hk)
      · rw [ptr_setAddr hk]
        by_cases hkk : k' = k
        · rw [hkk, update_self]
          exact .inl rfl
        · rw [update_of_ne hkk]
          exact .inr rfl
    · obtain rfl : k = indirectSlot := by
        refine Fin.ext ?_
        have hle : k.val < ndirect + 1 := k.isLt
        simp only [indirectSlot, Fin.val_last]
        omega
      have hind : indOf (view sb s').nodes i = 0 := by rw [indOf, hself, hzero]
      refine ⟨.ind i, ?_, ?_, fun hne => absurd hind hne, fun k' => .inr ?_,
        extends_setAddr_ind hind hdata⟩
      · rw [View.owns, owns_ind hlive, ← h.nodes, hind, named_zero]
      · exact owns_update_indirect hlive' hnew hother indOf_setAddr_ind (ptr_setAddr_ind hind hdata)
      · rw [ptr_setAddr_ind hind hdata, State.ptr]
  obtain ⟨p, hp, howns', hkeep, hfresh, hself'⟩ := hcase
  have howns : (view sb (s'.hold i (some (ip.setAddr k b)))).owns sb =
      update ((view sb s').owns sb) p (named b) := by
    rw [View.owns, hnodes]
    exact howns'
  have hextend : ∀ j, Live sb (view sb s).nodes j → Extends (view sb s).nodes (view sb s).data
      (view sb (s'.hold i (some (ip.setAddr k b)))).nodes (view sb s').data j := by
    intro j hj
    rw [hnodes]
    refine (h.extends hexact hj).trans ?_
    by_cases hji : j = i
    · rw [hji]
      exact hself'
    · exact hN ▸ extends_of_ne hji
  refine ⟨⟨?_, fun j k' hj hne => (hextend j hj).ptr_eq hne, ?_, fun j hj => ?_, fun ip' hip' => ?_,
    fun j c hc => ?_, fun j hj hne => ?_, fun k' hzero' hne => ?_, ?_⟩, hextend⟩
  · rw [View.Exact, howns]
    exact h.exact hexact hp
  · rw [view_hold, h.view_eq]
  · show update s'.table i _ j = _
    rw [update_of_ne hj, h.table]
  · obtain rfl : ip = ip' := Option.some.inj (hip.symm.trans hip')
    exact ⟨_, State.hold_self _⟩
  · rw [howns] at hc
    by_cases hpj : Place.ind j = p
    · rw [hpj, update_self, named_of_ne h.pos, Option.some.injEq] at hc
      exact .inr (hc ▸ h.logged)
    · rw [update_of_ne hpj, h.owns hexact] at hc
      exact .inl hc
  · rw [hnodes]
    by_cases hji : j = i
    · rw [hji, hkeep (by rwa [h.nodes, ← hji]), h.nodes]
    · rw [indOf, hN, update_of_ne hji, h.nodes, indOf]
  · have hdata' : (view sb (s'.hold i (some (ip.setAddr k b)))).data = (view sb s').data := rfl
    rw [State.ptr, hnodes, hdata'] at hne ⊢
    obtain hb | hsame := hfresh k'
    · rw [hb]
      exact h.logged
    · rw [hsame, h.ptr hexact hlive] at hne
      exact absurd hzero' hne
  · exact h.grows.table _

end taken

/-- What `bmap` has done when it returns `b` for block `k` of the content of `i`. -/
structure Slot (sb : SuperBlock) (s s' : State) (i : ℕ) (k : Fin (ndirect + 1)) (ip : Dinode) (b : ℕ) :
    Prop where
  pos : b ≠ 0
  same : ip.addrs k ≠ 0 → s' = s
  addr : ∃ ip', s'.table i = some ip' ∧ ip'.addrs k = b
  grown : Grown sb s s' i (if ip.addrs k = 0 then {sb.bblock b, b} else ∅)

theorem wp_bmapSlot {k : Fin (ndirect + 1)} (hE : ip.addrs k = 0 → E (.panic .balloc))
    (h : (view sb s).Exact sb) (hip : s.table i = some ip) (hlive : Live sb (view sb s).nodes i) :
    wp (bmapSlot sb i k) E s fun b s' => Slot sb s s' i k ip b := by
  rw [bmapSlot, wp_bind, wp_inode hip]
  split_ifs with hzero
  · rw [wp_bind]
    refine wp_mono (wp_balloc (hE hzero) fun _ => h.below_used) fun b s' hb => ?_
    rw [wp_bind, wp_setInode, wp_pure]
    refine ⟨hb.pos, fun hne => absurd hzero hne, ⟨_, State.hold_self _, ?_⟩, ?_⟩
    · simp [Dinode.setAddr]
    · rw [if_pos hzero]
      exact hb.setAddr h hip hlive hzero
  · rw [wp_pure]
    exact ⟨hzero, fun _ => rfl, ⟨ip, hip, rfl⟩, .refl h i _⟩

theorem data_eq_cache (hb : sb.datastart ≤ b) : (view sb s).data b = s.cache b := if_pos hb

theorem ind_area (h : (view sb s).Exact sb) (hlive : Live sb (view sb s).nodes i)
    (hne : indOf (view sb s).nodes i ≠ 0) : sb.datastart ≤ indOf (view sb s).nodes i :=
  (h.lt_size (p := .ind i) (owns_of_ne hlive hne)).1

/-- The block `b` is entered in the indirect block `ind`. -/
def State.enter (s : State) (ind k b : ℕ) : State :=
  (s.put ind (setLE (s.cache ind) (4 * k) 4 b)).log ind

theorem view_enter {ind : ℕ} (hind : sb.datastart ≤ ind) :
    view sb (s.enter ind k b) = { view sb s with
      data := update (view sb s).data ind (setLE ((view sb s).data ind) (4 * k) 4 b) } := by
  rw [State.enter, view_log, view_put_data _ hind, data_eq_cache hind]

/-- The block taken is entered in the indirect block of `i`. -/
theorem Taken.enter (h : Taken sb s s' b) (hexact : (view sb s).Exact sb)
    (hlive : Live sb (view sb s).nodes i) {ind : ℕ} (hind : indOf (view sb s).nodes i = ind)
    (hne : ind ≠ 0) (hk : k < nindirect) (hzero : s.ptr sb i (ndirect + k) = 0) :
    Grown sb s (s'.enter ind k b) i {sb.bblock b, b, ind} ∧
      (s'.enter ind k b).ptr sb i (ndirect + k) = b := by
  have harea : sb.datastart ≤ ind := hind ▸ ind_area hexact hlive (hind ▸ hne)
  have hexact' : Owners.Exact (view sb s).used (· < sb.datastart)
      (Disk.owns sb (view sb s').nodes (view sb s').data) := by
    have hsame := h.owns hexact
    unfold View.owns at hsame
    rw [hsame]
    exact hexact
  have hbne : b ≠ ind := hind ▸ h.ne_ind hexact hlive
  have hdata : (view sb s').data b = fun _ => 0 := by rw [h.data_eq, update_self]
  have hzero' : s'.ptr sb i (ndirect + k) = 0 := by rw [h.ptr hexact hlive, hzero]
  rw [← h.nodes] at hlive hind
  have hview := view_enter (s := s') (k := k) (b := b) harea
  have hnodes : (view sb (s'.enter ind k b)).nodes = (view sb s').nodes := by
    rw [hview]
    rfl
  have hdata' : (view sb (s'.enter ind k b)).data =
      update (view sb s').data ind (setLE ((view sb s').data ind) (4 * k) 4 b) := by
    rw [hview]
  have hptr : (s'.enter ind k b).ptr sb i = update (s'.ptr sb i) (ndirect + k) b := by
    rw [State.ptr, hnodes, hdata']
    subst hind
    exact ptr_setEntry hk hne h.lt
  have howns : (view sb (s'.enter ind k b)).owns sb =
      update ((view sb s').owns sb) (.leaf i (ndirect + k)) (named b) := by
    refine owns_update_leaf hlive (by rwa [hnodes]) (fun p hp => ?_) (by rw [hnodes]) hptr
    rw [hnodes, hdata']
    refine owns_congr Iff.rfl rfl fun hp' hpne => update_of_ne ?_ ..
    subst hind
    exact ind_ne_ind hexact' hlive hp' hne hp
  have hextend : ∀ j, Live sb (view sb s).nodes j → Extends (view sb s).nodes (view sb s).data
      (view sb (s'.enter ind k b)).nodes (view sb (s'.enter ind k b)).data j := by
    intro j hj
    refine (h.extends hexact hj).trans ?_
    rw [hnodes, hdata']
    subst hind
    exact extends_setEntry hexact' hlive hne hk hzero' h.lt hbne hdata (by rwa [h.nodes])
  refine ⟨⟨⟨?_, fun j k' hj hne' => (hextend j hj).ptr_eq hne', ?_, fun j hj => ?_, fun ip' hip' => ?_,
    fun j c hc => ?_, fun j hj _ => ?_, fun k' hzero' hne' => ?_, ?_⟩, hextend⟩, ?_⟩
  · rw [View.Exact, howns, hview]
    refine h.exact hexact ?_
    rw [View.owns, owns_leaf (by rwa [← h.nodes])]
    exact congrArg named hzero
  · rw [hview, h.view_eq]
  · exact congrFun h.table j
  · exact ⟨ip'.addrs, (congrFun h.table i).trans hip'⟩
  · rw [howns, update_of_ne (by simp), h.owns hexact] at hc
    exact .inl hc
  · rw [hnodes, h.nodes]
  · rw [hptr] at hne' ⊢
    by_cases hkk : k' = ndirect + k
    · rw [hkk, update_self]
      exact Finset.mem_insert_of_mem h.logged
    · rw [update_of_ne hkk, h.ptr hexact (by rwa [← h.nodes])] at hne'
      exact absurd hzero' hne'
  · have hgrows := h.grows.trans (grows_put_log s' ind (setLE (s'.cache ind) (4 * k) 4 b))
    refine hgrows.weaken fun c hc => ?_
    simp only [Finset.mem_union, Finset.mem_insert, Finset.mem_singleton] at hc ⊢
    tauto
  · rw [hptr, update_self]

theorem wp_bmapEntry (hE : s.ptr sb i (ndirect + k) = 0 → E (.panic .balloc))
    (h : (view sb s).Exact sb) (hlive : Live sb (view sb s).nodes i) {ind : ℕ}
    (hind : indOf (view sb s).nodes i = ind) (hne : ind ≠ 0) (hk : k < nindirect) :
    wp (bmapEntry sb ind k) E s fun b s' => b ≠ 0 ∧ s'.ptr sb i (ndirect + k) = b ∧
      (s.ptr sb i (ndirect + k) ≠ 0 → s' = s) ∧ s'.table = s.table ∧
      Grown sb s s' i (if s.ptr sb i (ndirect + k) = 0 then {sb.bblock b, b, ind} else ∅) := by
  have harea : sb.datastart ≤ ind := hind ▸ ind_area h hlive (hind ▸ hne)
  have hptr : s.ptr sb i (ndirect + k) = indirectEntry (s.cache ind) k := by
    rw [State.ptr, ptr_entry (Nat.le_add_right ..) (Nat.add_lt_add_left hk _) (hind ▸ hne),
      Nat.add_sub_cancel_left, hind, data_eq_cache harea]
  rw [bmapEntry, wp_bind, wp_bread, hptr]
  split_ifs with hzero
  · rw [wp_bind]
    refine wp_mono (wp_balloc (hE (hptr.trans hzero)) fun _ => h.below_used) fun b s' hb => ?_
    simp only [wp_bind, wp_bmodify, wp_logWrite, wp_pure]
    obtain ⟨hgrown, hptr'⟩ := hb.enter h hlive hind hne hk (hptr.trans hzero)
    exact ⟨hb.pos, hptr', fun habs => absurd hzero habs, hb.table, hgrown⟩
  · rw [wp_pure]
    exact ⟨hzero, hptr, fun _ => rfl, rfl, .refl h i _⟩

/-- Whether the indirect block is still to be allocated. -/
def lacking (N : ℕ → Dinode) (i : ℕ) : ℕ := if indOf N i = 0 then 1 else 0

def indSet (N : ℕ → Dinode) (i : ℕ) : Finset ℕ := if indOf N i = 0 then ∅ else {indOf N i}

theorem lacking_le {N N' : ℕ → Dinode} (h : indOf N i ≠ 0 → indOf N' i = indOf N i) :
    lacking N' i ≤ lacking N i := by
  unfold lacking
  by_cases hzero : indOf N i = 0
  · rw [if_pos hzero]
    split_ifs <;> decide
  · rw [h hzero, if_neg hzero]

/-- What `bmap` has done when it returns `b` for block `k` of the content of `i`. It has logged a
block of the bitmap for each block that it allocated, apart from `b` and the indirect block. -/
structure Mapped (sb : SuperBlock) (s s' : State) (i k b : ℕ) : Prop where
  pos : b ≠ 0
  ptr_eq : s'.ptr sb i k = b
  same : s.ptr sb i k ≠ 0 → s' = s
  few : (mapLogged sb s s').card + lacking (view sb s').nodes i ≤
    (if s.ptr sb i k = 0 then 1 else 0) + lacking (view sb s).nodes i
  grown : Grown sb s s' i (bitmapSet sb ∪ insert b (indSet (view sb s').nodes i))

/-- Allocating a block logs one block of the bitmap. -/
theorem card_mapLogged_le {X : Finset ℕ} {P : Prop} [Decidable P] {m : ℕ}
    (h : Grows s s' (if P then insert m X else ∅)) (hX : ∀ c ∈ X, sb.datastart ≤ c) :
    (mapLogged sb s s').card ≤ if P then 1 else 0 := by
  have hsub : mapLogged sb s s' ⊆ if P then {m} else ∅ := by
    intro c hc
    obtain ⟨hc, hmap⟩ := h.mem_of_mapLogged hc
    split_ifs at hc ⊢
    · obtain rfl | hc := Finset.mem_insert.1 hc
      · exact Finset.mem_singleton_self c
      · exact absurd (lt_of_mem_bitmapSet hmap) (Nat.not_lt.2 (hX c hc))
    · exact hc
  refine (Finset.card_le_card hsub).trans ?_
  split_ifs <;> simp

theorem leaf_area (h : (view sb s).Exact sb) (hi : Live sb (view sb s).nodes i)
    (hb : s.ptr sb i k = b) (hne : b ≠ 0) : sb.datastart ≤ b ∧ b < sb.size :=
  h.lt_size (p := .leaf i k) (owns_eq_some.2 ⟨hi, hb, hne⟩)

theorem Slot.mapped {k : Fin (ndirect + 1)} (h : Slot sb s s' i k ip b) (hip : s.table i = some ip)
    (hlive : Live sb (view sb s).nodes i) (hk : k.val < ndirect) : Mapped sb s s' i k b := by
  have hptr : s.ptr sb i k = ip.addrs k := by
    rw [State.ptr, ptr_direct hk, nodes_self hip]
  obtain ⟨ip', hip', haddr⟩ := h.addr
  have hptr' : s'.ptr sb i k = b := by
    rw [State.ptr, ptr_direct hk, nodes_self hip', haddr]
  obtain ⟨harea, hlt⟩ := leaf_area h.grown.exact ((h.grown.live hip).2 hlive) hptr' h.pos
  refine ⟨h.pos, hptr', fun hne => h.same (hptr ▸ hne), ?_, h.grown.weaken ?_⟩
  · rw [hptr]
    refine Nat.add_le_add (card_mapLogged_le h.grown.grows fun c hc => ?_)
      (lacking_le (h.grown.keep i hlive))
    rwa [Finset.mem_singleton.1 hc]
  · split_ifs
    · exact Finset.insert_subset (Finset.mem_union_left _ (bblock_mem hlt))
        (Finset.singleton_subset_iff.2 (by simp))
    · exact Finset.empty_subset _

theorem wp_bmap (hE : s.ptr sb i k = 0 → E (.panic .balloc))
    (h : (view sb s).Exact sb) (hip : s.table i = some ip) (hlive : Live sb (view sb s).nodes i)
    (hk : k < maxfile) : wp (bmap sb i k) E s fun b s' => Mapped sb s s' i k b := by
  rw [bmap]
  by_cases hdirect : k < ndirect
  · have hE' : ip.addrs ⟨k, Nat.lt_succ_of_lt hdirect⟩ = 0 → E (.panic .balloc) := by
      intro hzero
      refine hE ?_
      rw [State.ptr, ptr, dif_pos hdirect, nodes_self hip, hzero]
    rw [dif_pos hdirect]
    exact wp_mono (wp_bmapSlot hE' h hip hlive) fun b s' hb => hb.mapped hip hlive hdirect
  · have hle : ndirect ≤ k := Nat.not_lt.1 hdirect
    have hj : k - ndirect < nindirect := by
      simp only [maxfile] at hk
      omega
    have hk' : ndirect + (k - ndirect) = k := Nat.add_sub_cancel' hle
    have hindOf : indOf (view sb s).nodes i = ip.addrs indirectSlot := by
      rw [indOf, nodes_self hip]
    have hnone : ip.addrs indirectSlot = 0 → s.ptr sb i k = 0 :=
      fun hzero => ptr_of_ind_zero hle (hindOf.trans hzero)
    rw [dif_neg hdirect, if_pos hj, wp_bind]
    refine wp_mono (wp_bmapSlot (fun hzero => hE (hnone hzero)) h hip hlive) fun ind s₁ hind => ?_
    obtain ⟨ip₁, hip₁, haddr⟩ := hind.addr
    have hind₁ : indOf (view sb s₁).nodes i = ind := by
      rw [indOf, nodes_self hip₁, haddr]
    have hlive₁ : Live sb (view sb s₁).nodes i := (hind.grown.live hip).2 hlive
    have hkeep := hind.grown.ptr_eq i k hlive
    have hzero₁ : s₁.ptr sb i k = 0 → s.ptr sb i k = 0 := by
      intro hzero
      by_contra hne
      exact hne ((hkeep hne).symm.trans hzero)
    refine wp_mono (wp_bmapEntry (fun hzero => hE (hzero₁ (hk' ▸ hzero))) hind.grown.exact hlive₁ hind₁
      hind.pos hj) fun b s' hb => ?_
    rw [hk'] at hb
    obtain ⟨hpos, hptr, hsame, htable, hgrown⟩ := hb
    have hnodes : (view sb s').nodes = (view sb s₁).nodes :=
      funext fun j => nodes_congr hgrown.node (congrFun htable j)
    obtain ⟨hindarea, hindlt⟩ :=
      hind.grown.exact.lt_size (p := .ind i) (owns_eq_some.2 ⟨hlive₁, hind₁, hind.pos⟩)
    obtain ⟨harea, hlt⟩ := leaf_area hgrown.exact (by rwa [hnodes]) hptr hpos
    refine ⟨hpos, hptr, fun hne => ?_, ?_, ?_⟩
    · have hne' : ip.addrs indirectSlot ≠ 0 := fun hzero => hne (hnone hzero)
      rw [hsame (by rw [hkeep hne]; exact hne), hind.same hne']
    · have hlack : lacking (view sb s').nodes i = 0 := by
        rw [hnodes, lacking, hind₁, if_neg hind.pos]
      have hslot : (mapLogged sb s s₁).card ≤ lacking (view sb s).nodes i := by
        rw [lacking, hindOf]
        refine card_mapLogged_le hind.grown.grows fun c hc => ?_
        rwa [Finset.mem_singleton.1 hc]
      have hentry : (mapLogged sb s₁ s').card ≤ if s.ptr sb i k = 0 then 1 else 0 := by
        refine (card_mapLogged_le hgrown.grows fun c hc => ?_).trans ?_
        · obtain rfl | hc := Finset.mem_insert.1 hc
          · exact harea
          · rwa [Finset.mem_singleton.1 hc]
        · split_ifs with hzero hzero'
          · exact le_rfl
          · exact absurd (hzero₁ hzero) hzero'
          · exact Nat.zero_le _
          · exact le_rfl
      have htrans : (mapLogged sb s s').card ≤ _ := card_mapLogged_trans s s₁ s'
      omega
    · rw [hnodes, indSet, hind₁, if_neg hind.pos]
      refine (hind.grown.trans hgrown hip hlive).weaken (Finset.union_subset ?_ ?_)
      · split_ifs
        · exact Finset.insert_subset (Finset.mem_union_left _ (bblock_mem hindlt))
            (Finset.singleton_subset_iff.2 (by simp))
        · exact Finset.empty_subset _
      · split_ifs
        · exact Finset.insert_subset (Finset.mem_union_left _ (bblock_mem hlt))
            Finset.subset_union_right
        · exact Finset.empty_subset _

end bmap
end Xv6.Disk
