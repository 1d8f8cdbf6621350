import Xv6.Disk.Bmap

/-! The content of a file under the loops of `readi` and `writei`. -/
namespace Xv6.Disk
open Bytes Function Program Owners

section copied
variable {src : ℕ → Option Byte} {tot m n : ℕ}

theorem filterMap_id_takeWhile_length (l : List (Option Byte)) :
    ((l.takeWhile Option.isSome).filterMap id).length = (l.takeWhile Option.isSome).length := by
  induction l with
  | nil => rfl
  | cons o l ih =>
    cases o with
    | none => rfl
    | some b => simpa using ih

theorem copied_length (src : ℕ → Option Byte) (tot m : ℕ) : (copied src tot m).length =
    (((List.range m).map fun k => src (tot + k)).takeWhile Option.isSome).length :=
  filterMap_id_takeWhile_length _

theorem copied_length_le (src : ℕ → Option Byte) (tot m : ℕ) : (copied src tot m).length ≤ m := by
  rw [copied_length]
  refine (List.takeWhile_prefix _).length_le.trans ?_
  rw [List.length_map, List.length_range]

theorem map_range_add (src : ℕ → Option Byte) (tot m n : ℕ) :
    (List.range (m + n)).map (fun k => src (tot + k)) =
      (List.range m).map (fun k => src (tot + k)) ++ (List.range n).map fun k => src (tot + m + k) := by
  simp [List.range_add, Function.comp_def, Nat.add_assoc]

/-- A copy that succeeds, followed by another. -/
theorem copied_add (h : (copied src tot m).length = m) :
    copied src tot (m + n) = copied src tot m ++ copied src (tot + m) n := by
  rw [copied_length] at h
  have hfull : ((List.range m).map fun k => src (tot + k)).takeWhile Option.isSome =
      (List.range m).map fun k => src (tot + k) :=
    (List.takeWhile_prefix _).eq_of_length (by rw [h, List.length_map, List.length_range])
  unfold copied
  rw [map_range_add, List.takeWhile_append, if_pos (by rw [hfull]), List.filterMap_append, hfull]

/-- Nothing is copied beyond a copy that fails. -/
theorem copied_add_of_lt (h : (copied src tot m).length < m) :
    copied src tot (m + n) = copied src tot m := by
  rw [copied_length] at h
  unfold copied
  rw [map_range_add, List.takeWhile_append, if_neg (by rw [List.length_map, List.length_range]; omega)]

end copied

/-- From `s` to `s'` only blocks of content have changed in the cache. -/
structure Reread (sb : SuperBlock) (s s' : State) : Prop where
  table : s'.table = s.table
  cache : ∀ b, s'.cache b ≠ s.cache b →
    sb.datastart ≤ b ∧ ∀ j, (view sb s).owns sb (.ind j) ≠ some b

section reread
variable {sb : SuperBlock} {s s' : State} {i j k b : ℕ} {blk : Block}

theorem leaf_not_ind (h : (view sb s).Exact sb) (hi : Live sb (view sb s).nodes i)
    (hb : s.ptr sb i k = b) (hne : b ≠ 0) (j : ℕ) : (view sb s).owns sb (.ind j) ≠ some b := by
  intro hj
  have hleaf : (view sb s).owns sb (.leaf i k) = some b := owns_eq_some.2 ⟨hi, hb, hne⟩
  have hplace := h.exclusive _ _ _ hj hleaf
  contradiction

theorem reread_put (hb : sb.datastart ≤ b) (hnot : ∀ j, (view sb s).owns sb (.ind j) ≠ some b) :
    Reread sb s (s.put b blk) := by
  refine ⟨rfl, fun c hc => ?_⟩
  obtain rfl : c = b := by
    by_contra hne
    exact hc (update_of_ne hne ..)
  exact ⟨hb, hnot⟩

variable (h : Reread sb s s')
include h

theorem Reread.same (hb : b < sb.datastart) : s'.cache b = s.cache b := by
  by_contra hne
  exact Nat.not_le.2 hb (h.cache b hne).1

theorem Reread.used : (view sb s').used = (view sb s).used := usedIn_congr fun _ _ hb => h.same hb

theorem Reread.node : (view sb s').node = (view sb s).node :=
  nodeIn_congr fun _ hb => h.same (hb.trans sb.bmapstart_lt_datastart)

theorem Reread.nodes : (view sb s').nodes = (view sb s).nodes :=
  funext fun i => nodes_congr h.node (congrFun h.table i)

theorem Reread.ind_data (hj : Live sb (view sb s).nodes j)
    (hne : indOf (view sb s).nodes j ≠ 0) : (view sb s').data (indOf (view sb s).nodes j) =
      (view sb s).data (indOf (view sb s).nodes j) := by
  refine if_congr Iff.rfl ?_ rfl
  by_contra hcache
  exact (h.cache _ hcache).2 j (owns_of_ne (p := .ind j) hj hne)

theorem Reread.ptr (hj : Live sb (view sb s).nodes j) (k : ℕ) :
    s'.ptr sb j k = s.ptr sb j k := by
  rw [State.ptr, h.nodes]
  exact ptr_congr rfl (h.ind_data hj)

theorem Reread.owns : (view sb s').owns sb = (view sb s).owns sb := by
  rw [View.owns, h.nodes]
  funext p
  exact owns_congr Iff.rfl rfl fun hlive hne => h.ind_data hlive hne

theorem Reread.exact (hexact : (view sb s).Exact sb) : (view sb s').Exact sb := by
  rw [View.Exact, h.owns, h.used]
  exact hexact

end reread

/-- The indices of the blocks that hold the `n` bytes of a file at `off`. -/
def blocksOf (off n : ℕ) : Finset ℕ :=
  (Finset.range maxfile).filter fun k => 0 < n ∧ off < (k + 1) * bsize ∧ k * bsize < off + n

theorem mem_blocksOf {off n k : ℕ} :
    k ∈ blocksOf off n ↔ k < maxfile ∧ 0 < n ∧ off < (k + 1) * bsize ∧ k * bsize < off + n := by
  rw [blocksOf, Finset.mem_filter, Finset.mem_range]

theorem blocksOf_add (off m n : ℕ) : blocksOf off (m + n) = blocksOf off m ∪ blocksOf (off + m) n := by
  ext k
  simp only [Finset.mem_union, mem_blocksOf, bsize]
  omega

theorem blocksOf_disjoint {off m n : ℕ} (h : (off + m) % bsize = 0 ∨ m = 0 ∨ n = 0) :
    Disjoint (blocksOf off m) (blocksOf (off + m) n) := by
  rw [Finset.disjoint_left]
  intro k hk hk'
  rw [mem_blocksOf] at hk hk'
  simp only [bsize] at hk hk' h
  omega

theorem blocksOf_chunk {off n : ℕ} (hoff : off / bsize < maxfile) (hn : 0 < n)
    (hend : off % bsize + n ≤ bsize) : blocksOf off n = {off / bsize} := by
  ext k
  rw [mem_blocksOf, Finset.mem_singleton]
  simp only [bsize] at hoff hend ⊢
  constructor
  · intro hk
    omega
  · intro hk
    refine ⟨hk ▸ hoff, hn, ?_, ?_⟩ <;> omega

/-- From `s` to `s'` the bytes `bs` have been written to the file `i` at `off`, and no other file has
changed. The blocks logged are the blocks written, the indirect block, and of the bitmap at most one
block for each block that was missing. -/
structure Wrote (sb : SuperBlock) (s s' : State) (i off : ℕ) (bs : List Byte) : Prop
    extends Kept sb s s' i
      (bitmapSet sb ∪ ((blocksOf off bs.length).image (s'.ptr sb i) ∪ indSet (view sb s').nodes i)) where
  byte : ∀ j, Live sb (view sb s).nodes j →
    s'.byteAt sb j = if j = i then write (s.byteAt sb i) off bs else s.byteAt sb j
  mapped : ∀ k ∈ blocksOf off bs.length, s'.ptr sb i k ≠ 0
  few : (mapLogged sb s s').card + lacking (view sb s').nodes i ≤
    ((blocksOf off bs.length).filter (s.ptr sb i · = 0)).card + lacking (view sb s).nodes i

section wrote
variable {sb : SuperBlock} {s s' s'' : State} {i j k b off : ℕ} {ip : Dinode} {as bs : List Byte}

@[simp] theorem blocksOf_zero (off : ℕ) : blocksOf off 0 = ∅ := by
  ext k
  rw [mem_blocksOf]
  simp

theorem Wrote.nil (h : (view sb s).Exact sb) (i off : ℕ) : Wrote sb s s i off [] := by
  refine ⟨.refl h i _, fun j _ => ?_, fun k hk => ?_, ?_⟩
  · rw [write_nil]
    split_ifs with hj
    · rw [hj]
    · rfl
  · rw [List.length_nil, blocksOf_zero] at hk
    exact absurd hk (Finset.notMem_empty k)
  · simp [mapLogged]

/-- One write after the other, where the first one ends with its block. -/
theorem Wrote.trans (h : Wrote sb s s' i off as) (h' : Wrote sb s' s'' i (off + as.length) bs)
    (hip : s.table i = some ip) (hi : Live sb (view sb s).nodes i)
    (hend : (off + as.length) % bsize = 0 ∨ as = [] ∨ bs = []) : Wrote sb s s'' i off (as ++ bs) := by
  have hi' : Live sb (view sb s').nodes i := (h.live hip).2 hi
  have hblocks : blocksOf off (as ++ bs).length =
      blocksOf off as.length ∪ blocksOf (off + as.length) bs.length := by
    rw [List.length_append, blocksOf_add]
  refine ⟨(h.toKept.trans h'.toKept hip hi).weaken ?_, fun j hj => ?_, fun k hk => ?_, ?_⟩
  · have himage : (blocksOf off as.length).image (s'.ptr sb i) =
        (blocksOf off as.length).image (s''.ptr sb i) :=
      Finset.image_congr fun k hk => (h'.ptr_eq i k hi' (h.mapped k hk)).symm
    have hind : ∀ c ∈ indSet (view sb s').nodes i, c ∈ indSet (view sb s'').nodes i := by
      by_cases hzero : indOf (view sb s').nodes i = 0
      · simp [indSet, hzero]
      · rw [indSet, indSet, h'.keep i hi' hzero]
        exact fun c hc => hc
    rw [hblocks, Finset.image_union, ← himage]
    intro c hc
    have hind' := hind c
    simp only [Finset.mem_union] at hc ⊢
    tauto
  · rw [h'.byte j ((h.live hip).2 hj), h.byte i hi, h.byte j hj, if_pos rfl]
    split_ifs
    · exact write_append ..
    · rfl
  · rw [hblocks, Finset.mem_union] at hk
    obtain hk | hk := hk
    · have hne := h.mapped k hk
      rw [h'.ptr_eq i k hi' hne]
      exact hne
    · exact h'.mapped k hk
  · -- what was missing in the second range was missing before the first write
    have hmiss : ((blocksOf (off + as.length) bs.length).filter (s'.ptr sb i · = 0)).card ≤
        ((blocksOf (off + as.length) bs.length).filter (s.ptr sb i · = 0)).card := by
      refine Finset.card_le_card fun k hk => ?_
      rw [Finset.mem_filter] at hk ⊢
      refine ⟨hk.1, ?_⟩
      by_contra hne
      exact hne ((h.ptr_eq i k hi hne).symm.trans hk.2)
    have hdisj : Disjoint (blocksOf off as.length) (blocksOf (off + as.length) bs.length) :=
      blocksOf_disjoint (hend.imp_right (Or.imp (fun hnil => by rw [hnil, List.length_nil])
        fun hnil => by rw [hnil, List.length_nil]))
    have htrans : (mapLogged sb s s'').card ≤ _ := card_mapLogged_trans s s' s''
    have hfew := h.few
    have hfew' := h'.few
    rw [hblocks, Finset.filter_union, Finset.card_union_of_disjoint
      (Finset.disjoint_filter_filter hdisj)]
    omega

/-- The content of the file after a change of the block that `bmap` returned. -/
theorem byteAt_put (h : (view sb s).Exact sb) (hi : Live sb (view sb s).nodes i)
    (hj : Live sb (view sb s).nodes j) (hb : s.ptr sb i (off / bsize) = b)
    (hne : b ≠ 0) (hend : off % bsize + bs.length ≤ bsize) :
    (s.put b (write (s.cache b) (off % bsize) bs)).byteAt sb j =
      if j = i then write (s.byteAt sb i) off bs else s.byteAt sb j := by
  have harea := (leaf_area h hi hb hne).1
  rw [State.byteAt, view_put_data _ harea, ← data_eq_cache harea]
  subst hb
  exact byteAt_write h hi hj hne hend

/-- One round of the loop of `writei`. -/
theorem Mapped.write (h : Mapped sb s s' i (off / bsize) b) (hip : s.table i = some ip)
    (hi : Live sb (view sb s).nodes i) (hk : off / bsize < maxfile) (hbs : 0 < bs.length)
    (hend : off % bsize + bs.length ≤ bsize) :
    Wrote sb s ((s'.put b (Bytes.write (s'.cache b) (off % bsize) bs)).log b) i off bs := by
  have hgrown := h.grown
  have hi' : Live sb (view sb s').nodes i := (hgrown.live hip).2 hi
  have harea := (leaf_area hgrown.exact hi' h.ptr_eq h.pos).1
  have hnot := leaf_not_ind hgrown.exact hi' h.ptr_eq h.pos
  have hread : Reread sb s' ((s'.put b (Bytes.write (s'.cache b) (off % bsize) bs)).log b) :=
    ⟨rfl, (reread_put harea hnot).cache⟩
  have hblocks := blocksOf_chunk hk hbs hend
  refine ⟨⟨hread.exact hgrown.exact, fun j k hj hne => ?_, ?_, hgrown.table, hgrown.attrs,
    fun j c hc => ?_, fun j hj hne => ?_, fun k hzero hne => ?_, ?_⟩, fun j hj => ?_, fun k hk' => ?_, ?_⟩
  · rw [hread.ptr ((hgrown.live hip).2 hj), hgrown.ptr_eq j k hj hne]
  · rw [hread.node, hgrown.node]
  · rw [hread.owns] at hc
    exact (hgrown.ind j c hc).imp_right fun hc => Finset.mem_insert_of_mem hc
  · rw [hread.nodes, hgrown.keep j hj hne]
  · rw [hread.ptr hi'] at hne ⊢
    exact Finset.mem_insert_of_mem (hgrown.fresh k hzero hne)
  · rw [hblocks, Finset.image_singleton, hread.ptr hi', h.ptr_eq, hread.nodes]
    refine (hgrown.grows.trans (grows_put_log s' b _)).weaken fun c hc => ?_
    simp only [Finset.mem_union, Finset.mem_insert, Finset.mem_singleton] at hc ⊢
    tauto
  · refine (byteAt_put hgrown.exact hi' ((hgrown.live hip).2 hj) h.ptr_eq h.pos hend).trans ?_
    rw [hgrown.byteAt hi, hgrown.byteAt hj]
  · rw [hblocks, Finset.mem_singleton] at hk'
    rw [hread.ptr hi', hk', h.ptr_eq]
    exact h.pos
  · -- the block itself is not one of the bitmap
    have hsame : mapLogged sb s ((s'.put b (Bytes.write (s'.cache b) (off % bsize) bs)).log b) ⊆
        mapLogged sb s s' := by
      intro c hc
      have hne : c ∈ bitmapSet sb → c ≠ b := fun hmap heq =>
        absurd (lt_of_mem_bitmapSet hmap) (Nat.not_lt.2 (heq ▸ harea))
      simp only [mapLogged, State.log, State.put, Finset.mem_inter, Finset.mem_sdiff,
        Finset.mem_insert] at hc ⊢
      tauto
    have hcard := Finset.card_le_card hsame
    have hfew := h.few
    rw [hread.nodes, hblocks, Finset.filter_singleton]
    split_ifs at hfew ⊢
    · rw [Finset.card_singleton]
      omega
    · rw [Finset.card_empty]
      omega

end wrote

/-- The loop of `writei` has ended at a copy that failed: the first `w` of the bytes `bs` that could be
read have been written, the rest of them have only been put into the buffer of their block, which is
not logged for it. -/
structure CutShort (sb : SuperBlock) (s s' : State) (i off left : ℕ) (bs : List Byte) (w : ℕ) : Prop where
  lt : bs.length < left
  le : w ≤ bs.length
  within : bs.length < w + chunk (off + w) (left - w)
  start : (off + w) % bsize = 0 ∨ w = 0
  ex : ∃ s₁ s₂ b, Wrote sb s s₁ i off (bs.take w) ∧ Mapped sb s₁ s₂ i ((off + w) / bsize) b ∧
    s' = s₂.put b (write (s₂.cache b) ((off + w) % bsize) (bs.drop w))

section loop
variable {sb : SuperBlock} {E : Stop → Prop} {s s' s₁ : State} {i off tot left w : ℕ} {ip : Dinode}
  {src : ℕ → Option Byte} {as bs : List Byte}

theorem chunk_le (off left : ℕ) : chunk off left ≤ left := min_le_left ..

theorem chunk_end (off left : ℕ) : off % bsize + chunk off left ≤ bsize := by
  have hle : chunk off left ≤ bsize - off % bsize := min_le_right ..
  have hmod : off % bsize < bsize := Nat.mod_lt _ (by decide)
  omega

theorem chunk_boundary {off left : ℕ} (h : chunk off left < left) :
    (off + chunk off left) % bsize = 0 := by
  have hmod : off % bsize < bsize := Nat.mod_lt _ (by decide)
  have heq : chunk off left = bsize - off % bsize := by
    unfold chunk at h ⊢
    omega
  rw [heq]
  simp only [bsize]
  omega

theorem CutShort.trans (h : Wrote sb s s₁ i off as)
    (h' : CutShort sb s₁ s' i (off + as.length) left bs w) (hip : s.table i = some ip)
    (hi : Live sb (view sb s).nodes i) (hend : (off + as.length) % bsize = 0) :
    CutShort sb s s' i off (as.length + left) (as ++ bs) (as.length + w) := by
  obtain ⟨s₂, s₃, b, hwrote, hmapped, hs'⟩ := h'.ex
  have hoff : off + (as.length + w) = off + as.length + w := (Nat.add_assoc ..).symm
  refine ⟨?_, ?_, ?_, ?_, s₂, s₃, b, ?_, ?_, ?_⟩
  · have hlt := h'.lt
    rw [List.length_append]
    omega
  · have hle := h'.le
    rw [List.length_append]
    omega
  · have hwithin := h'.within
    rw [List.length_append, hoff, Nat.add_sub_add_left]
    omega
  · obtain hstart | hzero := h'.start
    · exact .inl (hoff ▸ hstart)
    · rw [hoff, hzero, Nat.add_zero]
      exact .inl hend
  · rw [List.take_length_add_append]
    exact h.trans hwrote hip hi (.inl hend)
  · rw [hoff]
    exact hmapped
  · rw [hoff, List.drop_length_add_append, hs']

theorem wp_writeLoop (hE : E (.panic .balloc)) (h : (view sb s).Exact sb) (hip : s.table i = some ip)
    (hi : Live sb (view sb s).nodes i) (hmax : off + left ≤ maxfile * bsize) :
    wp (writeLoop sb i src off tot left) E s fun r s' =>
      (copied src tot left).length = left ∧ r = tot + left ∧
          Wrote sb s s' i off (copied src tot left) ∨
        ∃ w, r = tot + w ∧ CutShort sb s s' i off left (copied src tot left) w := by
  induction left using Nat.strong_induction_on generalizing s off tot ip with
  | h left ih =>
    rw [writeLoop]
    by_cases hpos : 0 < left
    · rw [dif_pos hpos, wp_bind]
      have hk : off / bsize < maxfile := by
        simp only [bsize, maxfile] at hmax ⊢
        omega
      refine wp_mono (wp_bmap (fun _ => hE) h hip hi hk) fun b s₁ hb => ?_
      rw [wp_bind, wp_bmodify]
      have hm : 0 < chunk off left := chunk_pos hpos
      have hle := chunk_le off left
      have hsplit : chunk off left + (left - chunk off left) = left := Nat.add_sub_cancel' hle
      generalize hmdef : chunk off left = m at *
      by_cases hcut : (copied src tot m).length < m
      · rw [if_pos hcut, wp_pure]
        have hall : copied src tot left = copied src tot m := by
          rw [← hsplit, copied_add_of_lt hcut]
        refine .inr ⟨0, rfl, ?_, Nat.zero_le _, ?_, .inr rfl, s, s₁, b, ?_, hb, ?_⟩
        · rw [hall]
          omega
        · rw [hall, Nat.add_zero, Nat.sub_zero, hmdef, Nat.zero_add]
          exact hcut
        · rw [List.take_zero]
          exact .nil h i off
        · rw [List.drop_zero, Nat.add_zero, hall]
      · have hfull : (copied src tot m).length = m :=
          le_antisymm (copied_length_le src tot m) (Nat.not_lt.1 hcut)
        have hall : copied src tot left = copied src tot m ++ copied src (tot + m) (left - m) := by
          rw [← copied_add hfull, hsplit]
        rw [if_neg hcut, wp_bind, wp_logWrite]
        have hwrote : Wrote sb s ((s₁.put b (write (s₁.cache b) (off % bsize) (copied src tot m))).log b)
            i off (copied src tot m) := by
          refine hb.write hip hi hk (by rw [hfull]; exact hm) ?_
          rw [hfull, ← hmdef]
          exact chunk_end off left
        obtain ⟨a, ha⟩ := hwrote.attrs ip hip
        refine wp_mono (ih (left - m) (by omega) hwrote.exact ha ((hwrote.live hip).2 hi) (by omega))
          fun r s' hr => ?_
        obtain ⟨hlen, hr, hwrote'⟩ | ⟨w, hr, hcut'⟩ := hr
        · refine .inl ⟨?_, by omega, ?_⟩
          · rw [hall, List.length_append, hfull, hlen, hsplit]
          · rw [hall]
            refine hwrote.trans (by rwa [hfull]) hip hi ?_
            rw [hfull]
            by_cases hlast : m < left
            · exact .inl (hmdef ▸ chunk_boundary (hmdef ▸ hlast))
            · have hzero : left - m = 0 := by omega
              exact .inr (.inr (by rw [hzero]; rfl))
        · refine .inr ⟨m + w, by omega, ?_⟩
          have hlt := hcut'.lt
          have hboundary : (off + (copied src tot m).length) % bsize = 0 := by
            rw [hfull, ← hmdef]
            exact chunk_boundary (by omega)
          have hcut'' := CutShort.trans hwrote (by rwa [hfull]) hip hi hboundary
          rw [hfull, hsplit] at hcut''
          rw [hall]
          exact hcut''
    · rw [dif_neg hpos, wp_pure]
      obtain rfl : left = 0 := by omega
      exact .inl ⟨rfl, rfl, .nil h i off⟩

/-- Of the bytes `bs`, those that a destination takes from its offset `tot` on, and whether it took
less than all. -/
def delivered (dst : ℕ → Bool) (tot : ℕ) (bs : List Byte) : List Byte × Bool :=
  match (List.range bs.length).find? fun k => !dst (tot + k) with
  | some k => (bs.take k, true)
  | none => (bs, false)

theorem delivered_append {dst : ℕ → Bool} (as bs : List Byte) : delivered dst tot (as ++ bs) =
    match (List.range as.length).find? fun k => !dst (tot + k) with
    | some k => (as.take k, true)
    | none => (as ++ (delivered dst (tot + as.length) bs).1, (delivered dst (tot + as.length) bs).2) := by
  unfold delivered
  rw [List.length_append, List.range_add, List.find?_append, List.find?_map]
  cases hfind : (List.range as.length).find? fun k => !dst (tot + k) with
  | some k =>
    have hk : k ≤ as.length := (List.mem_range.1 (List.mem_of_find?_eq_some hfind)).le
    simp [List.take_append_of_le_length hk]
  | none =>
    have hcomp : ((fun k => !dst (tot + k)) ∘ fun x => as.length + x) =
        fun k => !dst (tot + as.length + k) := by
      funext k
      simp [Nat.add_assoc]
    rw [hcomp, Option.none_or]
    cases hrest : (List.range bs.length).find? fun k => !dst (tot + as.length + k) with
    | some k => simp [List.take_length_add_append]
    | none => rfl

/-- What `bread` gives of one block is that part of the file. -/
theorem read_chunk {N : ℕ → Dinode} {D : ℕ → Block} {m : ℕ} (hne : ptr N D i (off / bsize) ≠ 0)
    (hend : off % bsize + m ≤ bsize) :
    read (D (ptr N D i (off / bsize))) (off % bsize) m = read (byteAt N D i) off m := by
  apply List.map_congr_left
  intro t ht
  have hlt := List.mem_range.1 ht
  have hdiv : (off + t) / bsize = off / bsize := by
    simp only [bsize] at hend ⊢
    omega
  have hmod : (off + t) % bsize = off % bsize + t := by
    simp only [bsize] at hend ⊢
    omega
  rw [byteAt, hdiv, hmod, if_neg hne]

/-- `readi` allocates nothing and delivers the bytes of the file, if there is no hole in what it
reads. -/
theorem wp_readLoop {dst : ℕ → Bool} (h : (view sb s).Exact sb) (hip : s.table i = some ip)
    (hi : Live sb (view sb s).nodes i) (hmax : off + left ≤ maxfile * bsize)
    (hdense : ∀ k ∈ blocksOf off left, s.ptr sb i k ≠ 0) :
    wp (readLoop sb i dst off tot left) E s fun r s' =>
      s' = s ∧ r = delivered dst tot (read (s.byteAt sb i) off left) := by
  induction left using Nat.strong_induction_on generalizing off tot with
  | h left ih =>
    rw [readLoop]
    by_cases hpos : 0 < left
    · rw [dif_pos hpos, wp_bind]
      have hk : off / bsize < maxfile := by
        simp only [bsize, maxfile] at hmax ⊢
        omega
      have hmem : off / bsize ∈ blocksOf off left := by
        rw [mem_blocksOf]
        simp only [bsize] at hk ⊢
        omega
      have hne := hdense _ hmem
      refine wp_mono (wp_bmap (fun hzero => absurd hzero hne) h hip hi hk) fun b s' hb => ?_
      obtain rfl := hb.same hne
      have hm : 0 < chunk off left := chunk_pos hpos
      have hle := chunk_le off left
      have hchunk : read (s'.cache b) (off % bsize) (chunk off left) =
          read (s'.byteAt sb i) off (chunk off left) := by
        have hdata : (view sb s').data (s'.ptr sb i (off / bsize)) = s'.cache b := by
          rw [hb.ptr_eq, data_eq_cache (leaf_area h hi hb.ptr_eq hb.pos).1]
        rw [← hdata]
        exact read_chunk hne (chunk_end off left)
      have hsplit : read (s'.byteAt sb i) off left =
          read (s'.byteAt sb i) off (chunk off left) ++
            read (s'.byteAt sb i) (off + chunk off left)
              (left - chunk off left) := by
        rw [← read_add, Nat.add_sub_cancel' hle]
      rw [hsplit, delivered_append, read_length, wp_bind, wp_bread]
      dsimp only
      rw [hchunk]
      cases hfind : (List.range (chunk off left)).find? fun k => !dst (tot + k) with
      | some k =>
        rw [wp_pure]
        exact ⟨rfl, rfl⟩
      | none =>
        simp only [wp_bind, wp_pure]
        have hrest : ∀ k ∈ blocksOf (off + chunk off left) (left - chunk off left),
            s'.ptr sb i k ≠ 0 := by
          intro k hk'
          refine hdense k ?_
          rw [← Nat.add_sub_cancel' hle, blocksOf_add]
          exact Finset.mem_union_right _ hk'
        refine wp_mono (ih (left - chunk off left) (by omega) (by omega) hrest) fun r s'' hr => ?_
        obtain ⟨rfl, rfl⟩ := hr
        exact ⟨rfl, rfl⟩
    · rw [dif_neg hpos, wp_pure]
      obtain rfl : left = 0 := by omega
      exact ⟨rfl, rfl⟩

end loop
end Xv6.Disk
