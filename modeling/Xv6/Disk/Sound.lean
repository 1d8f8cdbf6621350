import Xv6.Disk.Content
import Xv6.Disk.Trunc

/-! What holds of the disk between operations, and that every operation keeps it. -/
namespace Xv6.Disk
open Bytes Function Program Owners

/-- The block in the cache is not the one on the disk, and nothing will write it there. -/
def Stale (s : State) (b : ℕ) : Prop := b ∉ s.logged ∧ s.cache b ≠ s.home b

def Coherent (s : State) : Prop := ∀ b, ¬Stale s b

theorem Grows.stale {s s' : State} {X : Finset ℕ} (h : Grows s s' X) {b : ℕ} (hb : Stale s' b) :
    Stale s b := by
  refine ⟨fun hlogged => hb.1 (h.mono hlogged), ?_⟩
  rw [← h.cache b hb.1, ← h.home]
  exact hb.2

theorem Grows.coherent {s s' : State} {X : Finset ℕ} (h : Grows s s' X) (hs : Coherent s) :
    Coherent s' :=
  fun b hb => hs b (h.stale hb)

/-- Every block of an allocated inode is in the data area, in use and owned by one place only; no block
in use is lost; no file has a hole or is too long; and only blocks of content can be stale. -/
structure Sound (sb : SuperBlock) (s : State) : Prop where
  exact : (view sb s).Exact sb
  dense : ∀ i, Live sb (view sb s).nodes i → ∀ k, k * bsize < ((view sb s).nodes i).size →
    s.ptr sb i k ≠ 0
  small : ∀ i, Live sb (view sb s).nodes i → ((view sb s).nodes i).size ≤ maxfile * bsize
  clean : ∀ b, Stale s b → sb.datastart ≤ b ∧ ∀ i, (view sb s).owns sb (.ind i) ≠ some b

/-- Besides, an entry of the inode table is the inode on the disk. -/
structure Good (sb : SuperBlock) (s : State) : Prop extends Sound sb s where
  valid : ∀ i ip, s.table i = some ip → i < sb.ninodes ∧ ip.type ≠ 0 ∧ (view sb s).node i = ip

/-- A file as its users see it. -/
structure File where
  type : Int16
  major : Int16
  minor : Int16
  nlink : Int16
  content : List Byte
  deriving DecidableEq, Repr

/-- An inode that is not allocated. -/
def File.free : File := ⟨0, 0, 0, 0, []⟩

/-- The files that the disk holds. -/
def files (sb : SuperBlock) (s : State) (i : ℕ) : File :=
  if Live sb (view sb s).nodes i then
    ⟨((view sb s).nodes i).type, ((view sb s).nodes i).major, ((view sb s).nodes i).minor,
      ((view sb s).nodes i).nlink, read (s.byteAt sb i) 0 ((view sb s).nodes i).size⟩
  else .free

section good
variable {sb : SuperBlock} {E : Stop → Prop} {s s' : State} {i j : ℕ} {ip : Dinode}

theorem Good.live (h : Good sb s) (hip : s.table i = some ip) : Live sb (view sb s).nodes i := by
  obtain ⟨hi, htype, -⟩ := h.valid i ip hip
  rw [Live, nodes_self hip]
  exact ⟨hi, htype⟩

theorem fits_of_exact (h : (view sb s).Exact sb) (hip : s.table i = some ip)
    (hlive : Live sb (view sb s).nodes i) (k : Fin (ndirect + 1)) : ip.addrs k < 2 ^ 32 := by
  have hself : (view sb s).nodes i = ip := nodes_self hip
  have hsize := sb.size_lt
  by_cases hzero : ip.addrs k = 0
  · rw [hzero]
    decide
  · have hlt : ip.addrs k < sb.size := by
      by_cases hk : k.val < ndirect
      · refine (h.lt_size (p := .leaf i k) (owns_eq_some.2 ⟨hlive, ?_, hzero⟩)).2
        rw [number, ptr_direct hk, hself]
      · obtain rfl : k = indirectSlot := by
          by_contra hne
          exact hk (Fin.val_lt_last hne)
        refine (h.lt_size (p := .ind i) (owns_eq_some.2 ⟨hlive, ?_, hzero⟩)).2
        rw [number, indOf, hself]
    omega

/-- A state with the same inodes and data blocks, as the kernel sees them, is as good. -/
theorem Good.congr (h : Good sb s) (hused : (view sb s').used = (view sb s).used)
    (hnodes : (view sb s').nodes = (view sb s).nodes) (hdata : (view sb s').data = (view sb s).data)
    (hvalid : ∀ i ip, s'.table i = some ip → i < sb.ninodes ∧ ip.type ≠ 0 ∧ (view sb s').node i = ip)
    (hstale : ∀ b, Stale s' b → Stale s b) : Good sb s' := by
  have howns : (view sb s').owns sb = (view sb s).owns sb := by
    rw [View.owns, hnodes, hdata, View.owns]
  refine ⟨⟨?_, ?_, ?_, fun b hb => ?_⟩, hvalid⟩
  · rw [View.Exact, hused, howns]
    exact h.exact
  · simp only [State.ptr, hnodes, hdata]
    exact h.dense
  · rw [hnodes]
    exact h.small
  · rw [howns]
    exact h.clean b (hstale b hb)

theorem files_congr (hnodes : (view sb s').nodes = (view sb s).nodes)
    (hdata : (view sb s').data = (view sb s).data) : files sb s' = files sb s := by
  funext i
  rw [files, State.byteAt, hnodes, hdata, files, State.byteAt]

/-- `ilock` finds the inode on the disk. -/
theorem Good.wp_iload (h : Good sb s) (hi : i < sb.ninodes)
    (hE : (files sb s i).type = 0 → E (.panic .ilockNoType)) :
    wp (iload sb i) E s fun _ s' => Good sb s' ∧ files sb s' = files sb s ∧ Grows s s' ∅ ∧
      ∃ ip, s'.table i = some ip := by
  rw [iload, wp_bind, wp_get]
  cases hip : s.table i with
  | some ip =>
    rw [wp_pure]
    exact ⟨h, rfl, .refl s _, ip, hip⟩
  | none =>
    have hnode : Dinode.load (s.cache (sb.iblock i)) (i % ipb * dinodeSize) = (view sb s).node i :=
      (if_pos hi).symm
    simp only [wp_bind, wp_bread, wp_setInode, hnode]
    split_ifs with htype
    · have hfree : ¬Live sb (view sb s).nodes i := by
        intro hlive
        exact hlive.2 (nodes_none hip ▸ htype)
      rw [panic, wp_throw]
      exact hE (by rw [files, if_neg hfree, File.free])
    · rw [wp_pure]
      have hnodes : (view sb (s.hold i (some ((view sb s).node i)))).nodes = (view sb s).nodes := by
        rw [view_hold, nodes_hold]
        exact update_eq_self_iff.2 (nodes_none hip).symm
      refine ⟨h.congr rfl hnodes rfl (fun j jp hj => ?_) fun _ hb => hb, files_congr hnodes rfl,
        grows_hold _ _, _, State.hold_self ..⟩
      by_cases hji : j = i
      · subst hji
        rw [State.hold_self, Option.some.injEq] at hj
        subst hj
        exact ⟨hi, htype, rfl⟩
      · have hj' : s.table j = some jp := by
          rw [← hj]
          exact (update_of_ne hji ..).symm
        exact h.valid j jp hj'

theorem Good.nodes_eq (h : Good sb s) : (view sb s).nodes = (view sb s).node := by
  funext j
  cases hip : s.table j with
  | none => exact nodes_none hip
  | some ip => rw [nodes_self hip, (h.valid j ip hip).2.2]

/-- Entries of the inode table are used for other inodes, or lost. -/
theorem Good.forget {t : ℕ → Option Dinode} (h : Good sb s) (ht : ∀ i, t i = none ∨ t i = s.table i) :
    Good sb { s with table := t } ∧ files sb { s with table := t } = files sb s := by
  have hnodes : (view sb { s with table := t }).nodes = (view sb s).nodes := by
    funext j
    obtain hj | hj := ht j
    · rw [nodes_none hj, h.nodes_eq]
      rfl
    · exact nodes_congr rfl hj
  refine ⟨h.congr rfl hnodes rfl (fun j jp hj => ?_) fun _ hb => hb, files_congr hnodes rfl⟩
  obtain hnone | hsame := ht j
  · exact absurd (hnone.symm.trans hj) nofun
  · exact h.valid j jp (hsame.symm.trans hj)

/-- As `Good`, but for the inode `i` on the disk, which an operation on `i` has still to write. -/
structure GoodBut (sb : SuperBlock) (s : State) (i : ℕ) : Prop extends Sound sb s where
  valid : ∀ j ≠ i, ∀ jp, s.table j = some jp → j < sb.ninodes ∧ jp.type ≠ 0 ∧ (view sb s).node j = jp

theorem Good.but (h : Good sb s) (i : ℕ) : GoodBut sb s i := ⟨h.toSound, fun j _ => h.valid j⟩

theorem GoodBut.good (h : GoodBut sb s i) (hvalid : ∀ ip, s.table i = some ip →
    i < sb.ninodes ∧ ip.type ≠ 0 ∧ (view sb s).node i = ip) : Good sb s := by
  refine ⟨h.toSound, fun j jp hjp => ?_⟩
  by_cases hj : j = i
  · subst hj
    exact hvalid jp hjp
  · exact h.valid j hj jp hjp

/-- An operation replaces the inode `i`, in the table and on the disk. -/
structure Replaced (sb : SuperBlock) (s s' : State) (i : ℕ) (d : Dinode) : Prop where
  exact : (view sb s').Exact sb
  data : (view sb s').data = (view sb s).data
  nodes : (view sb s').nodes = update (view sb s).nodes i d
  other : ∀ j ≠ i, s'.table j = s.table j ∧ (view sb s').node j = (view sb s).node j
  self : ∀ jp, s'.table i = some jp → i < sb.ninodes ∧ jp.type ≠ 0 ∧ (view sb s').node i = jp
  stale : ∀ b, Stale s' b → Stale s b

section replaced
variable {d : Dinode} {o : Option Dinode} {U : ℕ → Bool} {X : Finset ℕ}

theorem nodes_of_view (hview : view sb s' = { view sb s with
      used := U, node := update (view sb s).node i d, table := update (view sb s).table i o })
    (ho : ∀ jp, o = some jp → jp = d) : (view sb s').nodes = update (view sb s).nodes i d := by
  funext j
  rw [hview]
  simp only [View.nodes]
  by_cases hj : j = i
  · rw [hj, update_self, update_self, update_self]
    cases o with
    | none => rfl
    | some jp => exact ho jp rfl
  · rw [update_of_ne hj, update_of_ne hj, update_of_ne hj, View.nodes]

theorem replaced_of_view (hexact : (view sb s').Exact sb) (hview : view sb s' = { view sb s with
      used := U, node := update (view sb s).node i d, table := update (view sb s).table i o })
    (ho : ∀ jp, o = some jp → jp = d) (hd : o ≠ none → i < sb.ninodes ∧ d.type ≠ 0)
    (hgrows : Grows s s' X) : Replaced sb s s' i d := by
  have htable : s'.table = update s.table i o := congrArg View.table hview
  have hnode : (view sb s').node = update (view sb s).node i d := by rw [hview]
  refine ⟨hexact, by rw [hview], nodes_of_view hview ho, fun j hj => ⟨?_, ?_⟩, fun jp hjp => ?_,
    fun b hb => hgrows.stale hb⟩
  · rw [htable, update_of_ne hj]
  · rw [hnode, update_of_ne hj]
  · rw [htable, update_self] at hjp
    obtain ⟨hi, htype⟩ := hd (by rw [hjp]; exact Option.some_ne_none jp)
    obtain rfl := ho jp hjp
    exact ⟨hi, htype, by rw [hnode, update_self]⟩

section
variable (h : Replaced sb s s' i d)
include h

theorem Replaced.ptr_of_ne (hj : j ≠ i) (k : ℕ) : s'.ptr sb j k = s.ptr sb j k := by
  rw [State.ptr, h.nodes, h.data]
  exact ptr_congr (by rw [update_of_ne hj]) fun _ => rfl

theorem Replaced.good (hs : GoodBut sb s i)
    (hdense : Live sb (view sb s').nodes i → ∀ k, k * bsize < d.size → s'.ptr sb i k ≠ 0)
    (hsmall : d.size ≤ maxfile * bsize)
    (hind : ∀ b, (view sb s').owns sb (.ind i) = some b → (view sb s).owns sb (.ind i) = some b) :
    Good sb s' := by
  have hlive : ∀ j, j ≠ i → (Live sb (view sb s').nodes j ↔ Live sb (view sb s).nodes j) := by
    intro j hj
    rw [h.nodes]
    exact live_update_of_ne hj
  refine ⟨⟨h.exact, fun j hj k hk => ?_, fun j hj => ?_, fun b hb => ?_⟩, fun j jp hjp => ?_⟩
  · by_cases hji : j = i
    · subst hji
      refine hdense hj k ?_
      rwa [h.nodes, update_self] at hk
    · rw [h.ptr_of_ne hji]
      refine hs.dense j ((hlive j hji).1 hj) k ?_
      rwa [h.nodes, update_of_ne hji] at hk
  · by_cases hji : j = i
    · rw [hji, h.nodes, update_self]
      exact hsmall
    · rw [h.nodes, update_of_ne hji]
      exact hs.small j ((hlive j hji).1 hj)
  · obtain ⟨harea, hnot⟩ := hs.clean b (h.stale b hb)
    refine ⟨harea, fun j hj => ?_⟩
    by_cases hji : j = i
    · subst hji
      exact hnot j (hind b hj)
    · refine hnot j ?_
      rw [← hj, View.owns, View.owns, h.nodes, h.data]
      exact (owns_update_of_ne (p := .ind j) hji).symm
  · by_cases hji : j = i
    · subst hji
      exact h.self jp hjp
    · obtain ⟨htable, hnode⟩ := h.other j hji
      rw [hnode]
      exact hs.valid j hji jp (htable ▸ hjp)

theorem Replaced.byteAt
    (hj : ∀ k, s'.ptr sb j k = s.ptr sb j k) : s'.byteAt sb j = s.byteAt sb j := by
  funext x
  rw [State.byteAt, Disk.byteAt, h.data]
  simp only [State.ptr] at hj
  rw [← h.data, hj, h.data]
  rfl

theorem Replaced.files : files sb s' = update (files sb s) i (files sb s' i) := by
  funext j
  by_cases hj : j = i
  · rw [hj, update_self]
  · have hnode : (view sb s').nodes j = (view sb s).nodes j := by rw [h.nodes, update_of_ne hj]
    have hlive : Live sb (view sb s').nodes j ↔ Live sb (view sb s).nodes j := by rw [Live, Live, hnode]
    rw [update_of_ne hj, Disk.files, Disk.files, h.byteAt (h.ptr_of_ne hj), hnode]
    exact if_congr hlive rfl rfl

end

end replaced

theorem Good.wp_itrunc (h : Good sb s) (hip : s.table i = some ip) :
    wp (itrunc sb i) E s fun _ s' => Good sb s' ∧ s'.table i = some ip.emptied ∧
      files sb s' = update (files sb s) i { files sb s i with content := [] } ∧
      Grows s s' (insert (sb.iblock i) (bitmapSet sb)) := by
  have hlive := h.live hip
  have hself : (view sb s).nodes i = ip := nodes_self hip
  refine wp_mono (Disk.wp_itrunc h.exact hip hlive) fun _ s' hs' => ?_
  obtain ⟨hexact, ⟨U, hview⟩, hgrows⟩ := hs'
  have htable : s'.table = update s.table i (some ip.emptied) := congrArg View.table hview
  have htype := (h.valid i ip hip).2.1
  have hreplaced : Replaced sb s s' i ip.emptied :=
    replaced_of_view hexact hview (fun jp hjp => (Option.some.inj hjp).symm)
      (fun _ => ⟨hlive.1, htype⟩) hgrows
  have hnodes := hreplaced.nodes
  refine ⟨hreplaced.good (h.but i) (fun _ k hk => ?_) (Nat.zero_le _) fun b hb => ?_, ?_, ?_, hgrows⟩
  · exact absurd hk (Nat.not_lt_zero _)
  · have hzero : (view sb s').owns sb (.ind i) = none := by
      rw [View.owns, owns]
      split_ifs
      · rw [number, indOf, hnodes, update_self]
        rfl
      · rfl
    rw [hzero] at hb
    contradiction
  · rw [htable, update_self]
  · rw [hreplaced.files]
    congr 1
    have hlive' : Live sb (view sb s').nodes i := by
      rw [hnodes]
      exact hlive.update htype
    rw [files, if_pos hlive', files, if_pos hlive, hself, hnodes, update_self]
    rfl

/-- The inode `i` gets other attributes or another size, in the table and on the disk. -/
theorem GoodBut.wp_store (h : GoodBut sb s i) (hlive : Live sb (view sb s).nodes i)
    (hip : s.table i = some ip) {d : Dinode} (haddrs : d.addrs = ip.addrs) (htype : d.type = ip.type)
    (hsize : d.size ≤ maxfile * bsize) (hdense : ∀ k, k * bsize < d.size → s.ptr sb i k ≠ 0) :
    wp (iupdate sb i) E (s.hold i (some d)) fun _ s' => Good sb s' ∧ s'.table i = some d ∧
      files sb s' = update (files sb s) i
        ⟨d.type, d.major, d.minor, d.nlink, read (s.byteAt sb i) 0 d.size⟩ ∧
      Grows s s' {sb.iblock i} := by
  have hself : (view sb s).nodes i = ip := nodes_self hip
  have hfits : d.Fits := by
    refine ⟨hsize.trans_lt (by decide), fun k => ?_⟩
    rw [haddrs]
    exact fits_of_exact h.exact hip hlive k
  refine wp_mono (wp_iupdate hlive.1 (State.hold_self _) hfits) fun _ s' hs' => ?_
  obtain ⟨hview, hgrows⟩ := hs'
  have hgrows' : Grows s s' {sb.iblock i} :=
    ((grows_hold (some d) _).trans hgrows).weaken (by rw [Finset.union_self])
  have htype' : d.type ≠ 0 := by
    rw [htype, ← hself]
    exact hlive.2
  have hnodes : (view sb s').nodes = update (view sb s).nodes i d :=
    nodes_of_view hview fun jp hjp => (Option.some.inj hjp).symm
  have hdata : (view sb s').data = (view sb s).data := by
    rw [hview]
    rfl
  have howns : (view sb s').owns sb = (view sb s).owns sb := by
    rw [View.owns, hnodes, hdata]
    exact owns_update_attrs (by rw [haddrs, hself]) (by rw [htype, hself])
  have hptr : ∀ k, s'.ptr sb i k = s.ptr sb i k := by
    intro k
    rw [State.ptr, hnodes, hdata]
    exact ptr_congr (by rw [update_self, haddrs, hself]) fun _ => rfl
  have hreplaced : Replaced sb s s' i d := by
    refine replaced_of_view ?_ hview (fun jp hjp => (Option.some.inj hjp).symm)
      (fun _ => ⟨hlive.1, htype'⟩) hgrows'
    rw [View.Exact, howns, hview]
    exact h.exact
  have hlive' : Live sb (view sb s').nodes i := by
    rw [hnodes]
    exact hlive.update htype'
  refine ⟨hreplaced.good h (fun _ k hk => ?_) hsize (fun b hb => ?_), ?_, ?_, hgrows'⟩
  · rw [hptr]
    exact hdense k hk
  · rwa [howns] at hb
  · exact (congrFun (congrArg View.table hview) i).trans (update_self ..)
  · rw [hreplaced.files, files, if_pos hlive', hreplaced.byteAt hptr, hnodes, update_self]

/-- A step within an operation on `i`. -/
theorem GoodBut.kept {X : Finset ℕ} (h : GoodBut sb s i) (hk : Kept sb s s' i X)
    (hip : s.table i = some ip) : GoodBut sb s' i := by
  have hsize : ∀ j, ((view sb s').nodes j).size = ((view sb s).nodes j).size := by
    intro j
    obtain ⟨a, ha⟩ := hk.nodes_eq hip j
    rw [ha]
  refine ⟨⟨hk.exact, fun j hj k hlt => ?_, fun j hj => ?_, fun b hb => ?_⟩, fun j hji jp hjp => ?_⟩
  · have hne := h.dense j ((hk.live hip).1 hj) k (hsize j ▸ hlt)
    rw [hk.ptr_eq j k ((hk.live hip).1 hj) hne]
    exact hne
  · rw [hsize]
    exact h.small j ((hk.live hip).1 hj)
  · obtain ⟨harea, hnot⟩ := h.clean b (hk.grows.stale hb)
    exact ⟨harea, fun j hj => (hk.ind j b hj).elim (hnot j) hb.1⟩
  · rw [hk.node]
    exact h.valid j hji jp (hk.table j hji ▸ hjp)

/-- Blocks of content change in the cache only. -/
theorem GoodBut.reread (h : GoodBut sb s i) (hr : Reread sb s s') (hlogged : s'.logged = s.logged)
    (hhome : s'.home = s.home) : GoodBut sb s' i := by
  refine ⟨⟨hr.exact h.exact, fun j hj k hk => ?_, fun j hj => ?_, fun b hb => ?_⟩,
    fun j hji jp hjp => ?_⟩
  · rw [hr.nodes] at hj hk
    rw [hr.ptr hj]
    exact h.dense j hj k hk
  · rw [hr.nodes] at hj ⊢
    exact h.small j hj
  · rw [hr.owns]
    by_cases hcache : s'.cache b = s.cache b
    · rw [Stale, hlogged, hhome, hcache] at hb
      exact h.clean b hb
    · exact hr.cache b hcache
  · rw [hr.node]
    exact h.valid j hji jp (hr.table ▸ hjp)

end good
end Xv6.Disk
