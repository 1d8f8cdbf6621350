import Xv6.Disk.Bmap

/-! `itrunc` gives back every block of an inode. The blocks that the indirect block names are freed
before the indirect block is, so that until then the owners are known only to the proof. -/
namespace Xv6.Disk
open Bytes Function Program Owners

/-- The owners after the entries `js` of the indirect block of `i` have been given up. -/
def dropEntries (O : Place → Option ℕ) (i : ℕ) (js : List ℕ) (p : Place) : Option ℕ :=
  if ∃ j ∈ js, p = .leaf i (ndirect + j) then none else O p

section drop
variable {O : Place → Option ℕ} {i j : ℕ} {js : List ℕ} {U : ℕ → Bool} {R : ℕ → Prop}

theorem dropEntries_nil (O : Place → Option ℕ) (i : ℕ) : dropEntries O i [] = O := by
  funext p
  simp [dropEntries]

theorem dropEntries_cons (O : Place → Option ℕ) (i j : ℕ) (js : List ℕ) :
    dropEntries O i (j :: js) = dropEntries (update O (.leaf i (ndirect + j)) none) i js := by
  funext p
  unfold dropEntries
  by_cases hp : p = .leaf i (ndirect + j)
  · rw [hp, update_self, if_pos ⟨j, List.mem_cons_self, rfl⟩, ite_self]
  · rw [update_of_ne hp]
    congr 1
    simp [hp]

end drop

section trunc
variable {sb : SuperBlock} {E : Stop → Prop} {s s' : State} {i b : ℕ} {ip : Dinode}
  {O : Place → Option ℕ}

/-- `bfree` of a block that has an owner. -/
theorem wp_bfree_owned (h : Owners.Exact (view sb s).used (· < sb.datastart) O) {p : Place}
    (hp : O p = some b) :
    wp (bfree sb b) E s fun _ s' =>
      view sb s' = { view sb s with used := update (view sb s).used b false } ∧
      Owners.Exact (view sb s').used (· < sb.datastart) (update O p none) ∧
      (∀ c, sb.datastart ≤ c → s'.cache c = s.cache c) ∧ Grows s s' (bitmapSet sb) := by
  have hused := h.used_of_owns hp
  have hlt := lt_of_used hused
  refine wp_mono (wp_bfree hlt hused) fun _ s' hs' => ?_
  obtain ⟨hview, hcache, hgrows⟩ := hs'
  refine ⟨hview, ?_, hcache, hgrows.weaken (Finset.singleton_subset_iff.2 (bblock_mem hlt))⟩
  rw [hview]
  exact h.drop hp

/-- The second loop of `itrunc`, over entries that no other place names. -/
theorem wp_freeEntries {ind : ℕ} (hind : sb.datastart ≤ ind) (js : List ℕ) (hjs : js.Nodup)
    (h : Owners.Exact (view sb s).used (· < sb.datastart) O)
    (hO : ∀ j ∈ js, O (.leaf i (ndirect + j)) = named (indirectEntry (s.cache ind) j)) :
    wp (freeEntries sb ind js) E s fun _ s' =>
      (∃ U, view sb s' = { view sb s with used := U }) ∧
      Owners.Exact (view sb s').used (· < sb.datastart) (dropEntries O i js) ∧
      Grows s s' (bitmapSet sb) := by
  induction js generalizing s O with
  | nil =>
    rw [freeEntries, wp_pure, dropEntries_nil]
    exact ⟨⟨_, rfl⟩, h, .refl s _⟩
  | cons j js ih =>
    have hO' : ∀ k ∈ js, O (.leaf i (ndirect + k)) = named (indirectEntry (s.cache ind) k) :=
      fun k hk => hO k (List.mem_cons_of_mem _ hk)
    have hj : O (.leaf i (ndirect + j)) = named (indirectEntry (s.cache ind) j) :=
      hO j List.mem_cons_self
    obtain ⟨hnot, hnodup⟩ := List.nodup_cons.1 hjs
    rw [freeEntries, wp_bind, wp_bread, dropEntries_cons]
    by_cases hzero : indirectEntry (s.cache ind) j = 0
    · rw [hzero, named_zero] at hj
      rw [if_pos hzero, update_eq_self_iff.2 hj.symm]
      exact ih hnodup h hO'
    · rw [named_of_ne hzero] at hj
      rw [if_neg hzero, wp_bind]
      refine wp_mono (wp_bfree_owned h hj) fun _ s₁ hs₁ => ?_
      obtain ⟨hview, hexact, hcache, hgrows⟩ := hs₁
      have hO₁ : ∀ k ∈ js, update O (.leaf i (ndirect + j)) none (.leaf i (ndirect + k)) =
          named (indirectEntry (s₁.cache ind) k) := by
        intro k hk
        have hne : Place.leaf i (ndirect + k) ≠ .leaf i (ndirect + j) := by
          intro heq
          have hkj : k = j := Nat.add_left_cancel (Place.leaf.inj heq).2
          exact hnot (hkj ▸ hk)
        rw [update_of_ne hne, hcache ind hind, hO' k hk]
      refine wp_mono (ih hnodup hexact hO₁) fun _ s' hs' => ?_
      obtain ⟨⟨U, hU⟩, hexact', hgrows'⟩ := hs'
      refine ⟨⟨U, ?_⟩, hexact', (hgrows.trans hgrows').weaken (by rw [Finset.union_self])⟩
      rw [hU, hview]

/-- From `s` to `s'` blocks of the inode `i` have been freed, which has the block numbers `a` now. -/
structure Shrunk (sb : SuperBlock) (s s' : State) (i : ℕ) (ip : Dinode)
    (a : Fin (ndirect + 1) → ℕ) : Prop where
  exact : (view sb s').Exact sb
  table : s'.table i = some { ip with addrs := a }
  view_eq : ∃ U, view sb s' = { view sb s with
    used := U
    table := update (view sb s).table i (some { ip with addrs := a }) }
  grows : Grows s s' (bitmapSet sb)

theorem Shrunk.refl (h : (view sb s).Exact sb) (hip : s.table i = some ip) :
    Shrunk sb s s i ip ip.addrs := by
  have htable : update (view sb s).table i (some ip) = (view sb s).table :=
    update_eq_self_iff.2 hip.symm
  exact ⟨h, hip, ⟨(view sb s).used, by rw [htable]⟩, .refl s _⟩

theorem Shrunk.trans {a a' : Fin (ndirect + 1) → ℕ} {s'' : State} (h : Shrunk sb s s' i ip a)
    (h' : Shrunk sb s' s'' i { ip with addrs := a } a') : Shrunk sb s s'' i ip a' := by
  obtain ⟨U, hU⟩ := h.view_eq
  obtain ⟨U', hU'⟩ := h'.view_eq
  refine ⟨h'.exact, h'.table, ⟨U', ?_⟩, (h.grows.trans h'.grows).weaken (by rw [Finset.union_self])⟩
  rw [hU', hU]
  simp only [update_idem]

theorem Shrunk.live {a : Fin (ndirect + 1) → ℕ} (h : Shrunk sb s s' i ip a) (hip : s.table i = some ip)
    (hlive : Live sb (view sb s).nodes i) : Live sb (view sb s').nodes i := by
  rw [Live, nodes_self h.table]
  rw [Live, nodes_self hip] at hlive
  exact hlive

/-- The block number at `k` is cleared once the block and what it names have been freed. -/
theorem shrunk_of_hold {s₁ : State} {U : ℕ → Bool} {k : Fin (ndirect + 1)} (hip : s.table i = some ip)
    (hview : view sb s₁ = { view sb s with used := U }) (hgrows : Grows s s₁ (bitmapSet sb))
    (hexact : Owners.Exact U (· < sb.datastart) (owns sb
      (update (view sb s).nodes i (((view sb s).nodes i).setAddr k 0)) (view sb s).data)) :
    Shrunk sb s (s₁.hold i (some (ip.setAddr k 0))) i ip (update ip.addrs k 0) := by
  have hview' : view sb (s₁.hold i (some (ip.setAddr k 0))) = { view sb s with
      used := U
      table := update (view sb s).table i (some (ip.setAddr k 0)) } := by
    rw [view_hold, hview]
  have hnodes : (view sb (s₁.hold i (some (ip.setAddr k 0)))).nodes =
      update (view sb s).nodes i (((view sb s).nodes i).setAddr k 0) := by
    rw [hview', nodes_self hip]
    exact nodes_hold (V := view sb s) _
  refine ⟨?_, State.hold_self _, ⟨U, hview'⟩, hgrows.table _⟩
  rw [View.Exact, View.owns, hnodes, hview']
  exact hexact

theorem wp_truncSlot_direct (h : (view sb s).Exact sb) (hip : s.table i = some ip)
    (hlive : Live sb (view sb s).nodes i) {k : Fin (ndirect + 1)} (hk : k.val < ndirect) :
    wp (truncSlot sb i k) E s fun _ s' => Shrunk sb s s' i ip (update ip.addrs k 0) := by
  rw [truncSlot, wp_bind, wp_inode hip]
  by_cases hzero : ip.addrs k = 0
  · rw [if_pos hzero, wp_pure, update_eq_self_iff.2 hzero.symm]
    exact .refl h hip
  · have hself : (view sb s).nodes i = ip := nodes_self hip
    have hown : (view sb s).owns sb (.leaf i k) = some (ip.addrs k) := by
      rw [View.owns, owns_leaf hlive, ptr_direct hk, hself, named_of_ne hzero]
    rw [if_neg hzero, wp_bind]
    refine wp_mono (wp_bfree_owned h hown) fun _ s₁ hs₁ => ?_
    obtain ⟨hview, hexact, -, hgrows⟩ := hs₁
    rw [wp_setInode]
    rw [hview] at hexact
    have hlive' : Live sb (update (view sb s).nodes i (((view sb s).nodes i).setAddr k 0)) i :=
      hlive.update hlive.2
    refine shrunk_of_hold hip hview hgrows ?_
    rw [owns_update_leaf hlive hlive' (fun p hp => owns_update_of_ne hp) (indOf_setAddr hk)
      (ptr_setAddr hk)]
    exact hexact

theorem wp_truncSlots (ks : List (Fin (ndirect + 1))) (hks : ∀ k ∈ ks, k.val < ndirect)
    (h : (view sb s).Exact sb) (hip : s.table i = some ip) (hlive : Live sb (view sb s).nodes i) :
    wp (truncSlots sb i ks) E s fun _ s' => ∃ a, Shrunk sb s s' i ip a ∧ (∀ k ∈ ks, a k = 0) ∧
      ∀ k ∉ ks, a k = ip.addrs k := by
  induction ks generalizing s ip with
  | nil =>
    rw [truncSlots, wp_pure]
    exact ⟨ip.addrs, .refl h hip, fun k hk => absurd hk List.not_mem_nil, fun _ _ => rfl⟩
  | cons k ks ih =>
    rw [truncSlots, wp_bind]
    refine wp_mono (wp_truncSlot_direct h hip hlive (hks k List.mem_cons_self)) fun _ s₁ hs₁ => ?_
    refine wp_mono (ih (fun k' hk' => hks k' (List.mem_cons_of_mem _ hk')) hs₁.exact hs₁.table
      (hs₁.live hip hlive)) fun _ s' hs' => ?_
    obtain ⟨a, hshrunk, hzero, hkeep⟩ := hs'
    dsimp only at hkeep
    refine ⟨a, hs₁.trans hshrunk, fun k' hk' => ?_, fun k' hk' => ?_⟩
    · obtain rfl | hk' := List.mem_cons.1 hk'
      · by_cases hmem : k' ∈ ks
        · exact hzero k' hmem
        · rw [hkeep k' hmem, update_self]
      · exact hzero k' hk'
    · rw [hkeep k' fun hmem => hk' (List.mem_cons_of_mem _ hmem)]
      have hne : k' ≠ k := by
        rintro rfl
        exact hk' List.mem_cons_self
      exact update_of_ne hne ..

/-- What the inodes own once the indirect block of `i` and all that it names are gone. -/
theorem owns_without_indirect {N : ℕ → Dinode} {D : ℕ → Block} (hlive : Live sb N i) :
    owns sb (update N i ((N i).setAddr indirectSlot 0)) D =
      update (dropEntries (owns sb N D) i (List.range nindirect)) (.ind i) none := by
  have hlive' : Live sb (update N i ((N i).setAddr indirectSlot 0)) i := hlive.update hlive.2
  funext p
  by_cases hp : p.inum = i
  · cases p with
    | leaf j k =>
      obtain rfl : j = i := hp
      rw [update_of_ne (by simp), owns_leaf hlive', dropEntries]
      by_cases hk : k < ndirect
      · have hne : (⟨k, Nat.lt_succ_of_lt hk⟩ : Fin (ndirect + 1)) ≠ indirectSlot :=
          fun heq => absurd (congrArg Fin.val heq) (Nat.ne_of_lt hk)
        have hnot : ¬∃ l ∈ List.range nindirect, Place.leaf j k = .leaf j (ndirect + l) := by
          rintro ⟨l, -, heq⟩
          have hkl := (Place.leaf.inj heq).2
          omega
        rw [if_neg hnot, owns_leaf hlive, ptr, ptr, dif_pos hk, dif_pos hk, update_self]
        exact congrArg named (update_of_ne hne ..)
      · rw [ptr_of_ind_zero (Nat.not_lt.1 hk) indOf_setAddr_ind, named_zero]
        split_ifs with hmem
        · rfl
        · have hge : maxfile ≤ k := by
            by_contra hlt
            refine hmem ⟨k - ndirect, List.mem_range.2 ?_, ?_⟩
            · simp only [maxfile] at hlt
              omega
            · rw [Nat.add_sub_cancel' (Nat.not_lt.1 hk)]
          rw [owns_leaf hlive, ptr_of_ge hge, named_zero]
    | ind j =>
      obtain rfl : j = i := hp
      rw [update_self, owns_ind hlive', indOf_setAddr_ind, named_zero]
  · have hne : p ≠ .ind i := by
      rintro rfl
      exact hp rfl
    have hnot : ¬∃ l ∈ List.range nindirect, p = .leaf i (ndirect + l) := by
      rintro ⟨l, -, rfl⟩
      exact hp rfl
    rw [update_of_ne hne, owns_update_of_ne hp, dropEntries, if_neg hnot]

theorem wp_truncIndirect (h : (view sb s).Exact sb) (hip : s.table i = some ip)
    (hlive : Live sb (view sb s).nodes i) :
    wp (truncIndirect sb i) E s fun _ s' =>
      Shrunk sb s s' i ip (update ip.addrs indirectSlot 0) := by
  have hself : (view sb s).nodes i = ip := nodes_self hip
  rw [truncIndirect, wp_bind, wp_inode hip]
  by_cases hzero : ip.addrs indirectSlot = 0
  · rw [if_pos hzero, wp_pure, update_eq_self_iff.2 hzero.symm]
    exact .refl h hip
  · have hind : indOf (view sb s).nodes i = ip.addrs indirectSlot := by rw [indOf, hself]
    have harea : sb.datastart ≤ ip.addrs indirectSlot := hind ▸ ind_area h hlive (hind ▸ hzero)
    have hO : ∀ j ∈ List.range nindirect, (view sb s).owns sb (.leaf i (ndirect + j)) =
        named (indirectEntry (s.cache (ip.addrs indirectSlot)) j) := by
      intro j hj
      rw [View.owns, owns_leaf hlive, ptr_entry (Nat.le_add_right ..)
        (Nat.add_lt_add_left (List.mem_range.1 hj) _) (hind ▸ hzero), hind, Nat.add_sub_cancel_left,
        data_eq_cache harea]
    rw [if_neg hzero, wp_bind]
    refine wp_mono (wp_freeEntries harea _ List.nodup_range h hO) fun _ s₁ hs₁ => ?_
    obtain ⟨⟨U, hU⟩, hexact₁, hgrows₁⟩ := hs₁
    have hip₁ : s₁.table i = some ip := (congrFun (congrArg View.table hU) i).trans hip
    have hown : dropEntries ((view sb s).owns sb) i (List.range nindirect) (.ind i) =
        some (ip.addrs indirectSlot) := by
      rw [dropEntries, if_neg (by simp), View.owns, owns_ind hlive, hind, named_of_ne hzero]
    rw [truncSlot, wp_bind, wp_inode hip₁, if_neg hzero, wp_bind]
    refine wp_mono (wp_bfree_owned hexact₁ hown) fun _ s₂ hs₂ => ?_
    obtain ⟨hview₂, hexact₂, -, hgrows₂⟩ := hs₂
    rw [wp_setInode]
    refine shrunk_of_hold hip (U := (view sb s₂).used) (by rw [hview₂, hU])
      ((hgrows₁.trans hgrows₂).weaken (by rw [Finset.union_self])) ?_
    rw [owns_without_indirect hlive]
    exact hexact₂

/-- The inode that `itrunc` leaves. -/
def Dinode.emptied (ip : Dinode) : Dinode := { ip with size := 0, addrs := fun _ => 0 }

theorem fits_of_empty {d : Dinode} (hsize : d.size = 0) (haddrs : ∀ k, d.addrs k = 0) : d.Fits :=
  ⟨hsize ▸ by decide, fun k => haddrs k ▸ by decide⟩

/-- `itrunc` frees every block of the inode, empties it in the table and on the disk, and changes no
other inode and no data block. -/
theorem wp_itrunc (h : (view sb s).Exact sb) (hip : s.table i = some ip)
    (hlive : Live sb (view sb s).nodes i) :
    wp (itrunc sb i) E s fun _ s' => (view sb s').Exact sb ∧
      (∃ U, view sb s' = { view sb s with
        used := U
        node := update (view sb s).node i ip.emptied
        table := update (view sb s).table i (some ip.emptied) }) ∧
      Grows s s' (insert (sb.iblock i) (bitmapSet sb)) := by
  rw [itrunc, wp_bind]
  refine wp_mono (wp_truncSlots _ (fun k hk => ?_) h hip hlive) fun _ s₁ hs₁ => ?_
  · obtain ⟨k', -, rfl⟩ := List.mem_map.1 hk
    exact k'.isLt
  obtain ⟨a, hs₁, hzero, -⟩ := hs₁
  rw [wp_bind]
  refine wp_mono (wp_truncIndirect hs₁.exact hs₁.table (hs₁.live hip hlive)) fun _ s₂ hs₂ => ?_
  have haddrs : update a indirectSlot 0 = fun _ => 0 := by
    funext k
    by_cases hk : k = indirectSlot
    · rw [hk, update_self]
    · rw [update_of_ne hk]
      have hlt : k.val < ndirect := Fin.val_lt_last hk
      exact hzero k (List.mem_map.2 ⟨⟨k, hlt⟩, List.mem_finRange _, Fin.ext rfl⟩)
  have hshrunk := hs₁.trans hs₂
  dsimp only at hshrunk
  rw [haddrs] at hshrunk
  simp only [wp_bind, wp_inode hshrunk.table, wp_setInode]
  obtain ⟨U, hU⟩ := hshrunk.view_eq
  have hself : (view sb s₂).nodes i = { ip with addrs := fun _ => 0 } :=
    nodes_self hshrunk.table
  refine wp_mono (wp_iupdate hlive.1 (State.hold_self _) (fits_of_empty rfl fun _ => rfl))
    fun _ s' hs' => ?_
  obtain ⟨hview, hgrows⟩ := hs'
  have hview' : view sb s' = { view sb s with
      used := U
      node := update (view sb s).node i ip.emptied
      table := update (view sb s).table i (some ip.emptied) } := by
    rw [hview, view_hold, hU]
    simp only [update_idem]
    rfl
  refine ⟨?_, ⟨U, hview'⟩, ?_⟩
  · have hnodes : (view sb s').nodes = update (view sb s₂).nodes i ip.emptied := by
      rw [hview, nodes_update_node (V := view sb (s₂.hold i _)) (State.hold_self _), view_hold,
        nodes_hold]
      rfl
    have hsame : (view sb s').owns sb = (view sb s₂).owns sb := by
      rw [View.owns, hnodes, hview', View.owns, hU]
      exact owns_update_attrs (by rw [← hU, hself]; rfl) (by rw [← hU, hself]; rfl)
    rw [View.Exact, hsame, hview']
    have hexact := hshrunk.exact
    rw [View.Exact, hU] at hexact
    rw [hU]
    exact hexact
  · refine (((hshrunk.grows.table _)).trans hgrows).weaken fun c hc => ?_
    simp only [Finset.mem_union, Finset.mem_insert, Finset.mem_singleton] at hc ⊢
    tauto

end trunc
end Xv6.Disk
