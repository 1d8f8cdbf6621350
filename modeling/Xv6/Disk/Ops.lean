import Xv6.Disk.Sound

/-! The operations on files, what each of them does to the files that the disk holds, and that each
keeps the disk sound. -/
namespace Xv6.Disk
open Bytes Function Program Owners

variable {sb : SuperBlock} {E : Stop → Prop} {s s' : State} {i : ℕ} {ip : Dinode}

theorem files_of_table (h : Good sb s) (hip : s.table i = some ip) :
    files sb s i = ⟨ip.type, ip.major, ip.minor, ip.nlink, read (s.byteAt sb i) 0 ip.size⟩ := by
  rw [files, if_pos (h.live hip), nodes_self hip]

/-- What `readi` delivers of a file with the content `c`. -/
def readSpec (c : List Byte) (dst : ℕ → Bool) (off n : UInt32) : List Byte × Option ℕ :=
  if c.length < off.toNat ∨ off + n < off then ([], some 0)
  else
    let r := delivered dst 0 ((c.drop off.toNat).take n.toNat)
    (r.1, if r.2 then none else some r.1.length)

theorem Good.wp_readi (h : Good sb s) (hip : s.table i = some ip) (dst : ℕ → Bool) (off n : UInt32) :
    wp (readi sb i dst off n) E s fun r s' => s' = s ∧ r = readSpec (files sb s i).content dst off n := by
  have hlive := h.live hip
  have hself : (view sb s).nodes i = ip := nodes_self hip
  rw [files_of_table h hip, readi, wp_bind, wp_inode hip, readSpec, read_length]
  by_cases hcond : ip.size < off.toNat ∨ off + n < off
  · rw [if_pos hcond, if_pos hcond, wp_pure]
    exact ⟨rfl, rfl⟩
  · rw [if_neg hcond, if_neg hcond]
    rw [not_or, Nat.not_lt] at hcond
    have hn : (if ip.size < off.toNat + n.toNat then ip.size - off.toNat else n.toNat) =
        min n.toNat (ip.size - off.toNat) := by
      split_ifs <;> omega
    have hread : ((read (s.byteAt sb i) 0 ip.size).drop off.toNat).take n.toNat =
        read (s.byteAt sb i) off.toNat (min n.toNat (ip.size - off.toNat)) := by
      rw [drop_read, take_read, Nat.zero_add]
    have hsmall := h.small i hlive
    rw [hself] at hsmall
    have hdense : ∀ k ∈ blocksOf off.toNat (min n.toNat (ip.size - off.toNat)),
        s.ptr sb i k ≠ 0 := by
      intro k hk
      obtain ⟨-, -, -, hlt⟩ := mem_blocksOf.1 hk
      refine h.dense i hlive k ?_
      rw [hself]
      omega
    simp only [hn, hread, wp_bind]
    refine wp_mono (wp_readLoop h.exact hip hlive (by omega) hdense) fun r s' hr => ?_
    obtain ⟨rfl, rfl⟩ := hr
    rw [wp_pure]
    exact ⟨rfl, rfl⟩

/-- What holds after the loop of `writei`, before the inode is written. -/
theorem Good.wp_writeEnd {off w : ℕ} {s₁ : State} {a : Fin (ndirect + 1) → ℕ} (h : GoodBut sb s₁ i)
    (hlive : Live sb (view sb s₁).nodes i) (hip : s₁.table i = some { ip with addrs := a })
    (hoff : off ≤ ip.size) (hmax : off + w ≤ maxfile * bsize)
    (hmapped : ∀ k ∈ blocksOf off w, s₁.ptr sb i k ≠ 0) :
    wp (writeEnd sb i (off + w)) E s₁ fun _ s' => Good sb s' ∧
      files sb s' = update (files sb s₁) i ⟨ip.type, ip.major, ip.minor, ip.nlink,
        read (s₁.byteAt sb i) 0 (max ip.size (off + w))⟩ ∧
      Grows s₁ s' {sb.iblock i} := by
  have hself : (view sb s₁).nodes i = { ip with addrs := a } := nodes_self hip
  have hsmall := h.small i hlive
  have hold := h.dense i hlive
  rw [hself] at hsmall hold
  dsimp only at hsmall hold
  simp only [writeEnd, wp_bind, wp_inode hip, wp_setInode]
  have hsize : max ip.size (off + w) ≤ maxfile * bsize := max_le hsmall hmax
  have hdense : ∀ k, k * bsize < max ip.size (off + w) → s₁.ptr sb i k ≠ 0 := by
    intro k hk
    by_cases hlt : k * bsize < ip.size
    · exact hold k hlt
    · refine hmapped k (mem_blocksOf.2 ?_)
      simp only [maxfile, bsize] at hk hlt hmax hoff ⊢
      omega
  refine wp_mono (h.wp_store hlive hip rfl rfl hsize hdense) fun _ s' hs' => ?_
  exact ⟨hs'.1, hs'.2.2.1, hs'.2.2.2⟩

/-- The content of a file after a write that was accepted. -/
def splice (c : List Byte) (off : ℕ) (bs : List Byte) : List Byte :=
  c.take off ++ bs ++ c.drop (off + bs.length)

/-- Whether `writei` accepts a request on a file with the content `c`. -/
def Accepts (c : List Byte) (off n : UInt32) : Prop :=
  ¬(c.length < off.toNat ∨ off + n < off) ∧ off.toNat + n.toNat ≤ maxfile * bsize

instance (c : List Byte) (off n : UInt32) : Decidable (Accepts c off n) :=
  inferInstanceAs (Decidable (_ ∧ _))

/-- What `writei` has done when it returns `r`. A request that it does not accept changes nothing.
Otherwise the bytes that could be read have been written, and if that is not all of them the last ones
are not logged. -/
inductive Written (sb : SuperBlock) (s s' : State) (i : ℕ) (src : ℕ → Option Byte) (off n : UInt32) :
    Option ℕ → Prop
  | rejected (hnot : ¬Accepts (files sb s i).content off n) (hs : s' = s) :
      Written sb s s' i src off n none
  | full (haccepts : Accepts (files sb s i).content off n)
      (hlen : (copied src 0 n.toNat).length = n.toNat)
      (hfiles : files sb s' = update (files sb s) i { files sb s i with
        content := splice (files sb s i).content off.toNat (copied src 0 n.toNat) })
      (hlog : ∃ s₁, Wrote sb s s₁ i off.toNat (copied src 0 n.toNat) ∧ Grows s₁ s' {sb.iblock i}) :
      Written sb s s' i src off n (some n.toNat)
  | cut (w : ℕ) (haccepts : Accepts (files sb s i).content off n)
      (hcut : ∃ s₁, CutShort sb s s₁ i off.toNat n.toNat (copied src 0 n.toNat) w ∧
        Grows s₁ s' {sb.iblock i}) : Written sb s s' i src off n (some w)

theorem Wrote.files_of_ne {off : ℕ} {bs : List Byte} (h : Wrote sb s s' i off bs)
    (hip : s.table i = some ip) {j : ℕ} (hj : j ≠ i) : files sb s' j = files sb s j := by
  rw [files, files, h.nodes_of_ne hj]
  by_cases hlive : Live sb (view sb s).nodes j
  · rw [if_pos ((h.live hip).2 hlive), if_pos hlive, h.byte j hlive, if_neg hj]
  · rw [if_neg fun hlive' => hlive ((h.live hip).1 hlive'), if_neg hlive]

theorem Good.wp_writei (h : Good sb s) (hip : s.table i = some ip) (hE : E (.panic .balloc))
    (src : ℕ → Option Byte) (off n : UInt32) :
    wp (writei sb i src off n) E s fun r s' => Good sb s' ∧ Written sb s s' i src off n r := by
  have hlive := h.live hip
  have hself : (view sb s).nodes i = ip := nodes_self hip
  have hfile := files_of_table h hip
  have hlen : (files sb s i).content.length = ip.size := by rw [hfile, read_length]
  rw [writei, wp_bind, wp_inode hip]
  by_cases hcond : ip.size < off.toNat ∨ off + n < off
  · rw [if_pos hcond, wp_pure]
    exact ⟨h, .rejected (fun hacc => hacc.1 (hlen ▸ hcond)) rfl⟩
  · rw [if_neg hcond]
    by_cases hmax : maxfile * bsize < off.toNat + n.toNat
    · rw [if_pos hmax, wp_pure]
      exact ⟨h, .rejected (fun hacc => Nat.not_lt.2 hacc.2 hmax) rfl⟩
    · rw [if_neg hmax, wp_bind]
      have haccepts : Accepts (files sb s i).content off n := ⟨hlen ▸ hcond, Nat.not_lt.1 hmax⟩
      have hoff : off.toNat ≤ ip.size := by
        rw [not_or, Nat.not_lt] at hcond
        exact hcond.1
      refine wp_mono (wp_writeLoop hE h.exact hip hlive haccepts.2) fun tot s₁ hs₁ => ?_
      rw [wp_bind]
      obtain ⟨hfull, rfl, hwrote⟩ | ⟨w, rfl, hcut⟩ := hs₁
      · obtain ⟨a, ha⟩ := hwrote.attrs ip hip
        have hlive₁ : Live sb (view sb s₁).nodes i := (hwrote.live hip).2 hlive
        have hmapped := hwrote.mapped
        rw [hfull] at hmapped
        rw [Nat.zero_add]
        refine wp_mono (Good.wp_writeEnd ((h.but i).kept hwrote.toKept hip) hlive₁ ha hoff haccepts.2
          hmapped) fun _ s' hs' => ?_
        obtain ⟨hgood, hfiles, hgrows⟩ := hs'
        rw [wp_pure]
        refine ⟨hgood, .full haccepts hfull ?_ ⟨s₁, hwrote, hgrows⟩⟩
        have hbyte := hwrote.byte i hlive
        rw [if_pos rfl] at hbyte
        have hcontent := read_write_max (s.byteAt sb i) (copied src 0 n.toNat) hoff
        rw [hfull] at hcontent
        rw [hfiles, hbyte, hcontent, hfile]
        funext j
        by_cases hj : j = i
        · rw [hj, update_self, update_self, splice, hfull]
        · rw [update_of_ne hj, update_of_ne hj, hwrote.files_of_ne hip hj]
      · obtain ⟨s₂, s₃, b, hwrote, hmapped, rfl⟩ := hcut.ex
        have hkept := hwrote.toKept.trans hmapped.grown.toKept hip hlive
        obtain ⟨a, ha⟩ := hkept.attrs ip hip
        have hlive₂ : Live sb (view sb s₂).nodes i := (hwrote.live hip).2 hlive
        have hlive₃ : Live sb (view sb s₃).nodes i := (hkept.live hip).2 hlive
        have harea := (leaf_area hkept.exact hlive₃ hmapped.ptr_eq hmapped.pos).1
        have hnot := leaf_not_ind hkept.exact hlive₃ hmapped.ptr_eq hmapped.pos
        have hlow : off.toNat + w ≤ maxfile * bsize := by
          have hle := hcut.le
          have hlt := hcut.lt
          have hmax' := haccepts.2
          omega
        have hblocks : ∀ k ∈ blocksOf off.toNat w, (s₃.put b (write (s₃.cache b)
            ((off.toNat + w) % bsize) ((copied src 0 n.toNat).drop w))).ptr sb i k ≠ 0 := by
          intro k hk
          have hk₂ : s₂.ptr sb i k ≠ 0 := by
            refine hwrote.mapped k ?_
            rwa [List.length_take, min_eq_left hcut.le]
          rw [(reread_put harea hnot).ptr hlive₃, hmapped.grown.ptr_eq i k hlive₂ hk₂]
          exact hk₂
        rw [Nat.zero_add]
        have hgood₃ := (h.but i).kept hkept hip
        refine wp_mono (Good.wp_writeEnd (hgood₃.reread (reread_put harea hnot) rfl rfl)
          (by rwa [(reread_put harea hnot).nodes]) ha hoff hlow hblocks) fun _ s' hs' => ?_
        rw [wp_pure]
        exact ⟨hs'.1, .cut w haccepts ⟨_, hcut, hs'.2.2⟩⟩

theorem Good.wp_setAttrs (h : Good sb s) (hip : s.table i = some ip) (major minor nlink : Int16) :
    wp (setAttrs sb i major minor nlink) E s fun _ s' => Good sb s' ∧
      files sb s' = update (files sb s) i { files sb s i with
        major := major, minor := minor, nlink := nlink } ∧ Grows s s' {sb.iblock i} := by
  have hlive := h.live hip
  have hself : (view sb s).nodes i = ip := nodes_self hip
  have hsmall := h.small i hlive
  have hdense := h.dense i hlive
  rw [hself] at hsmall hdense
  simp only [setAttrs, wp_bind, wp_inode hip, wp_setInode]
  refine wp_mono ((h.but i).wp_store hlive hip rfl rfl hsmall hdense) fun _ s' hs' => ?_
  refine ⟨hs'.1, ?_, hs'.2.2.2⟩
  rw [hs'.2.2.1, files_of_table h hip]

theorem Good.type_eq_zero (h : Good sb s) (hi : i < sb.ninodes) :
    (files sb s i).type = 0 ↔
      (Dinode.load (s.cache (sb.iblock i)) (i % ipb * dinodeSize)).type = 0 := by
  have hnode : Dinode.load (s.cache (sb.iblock i)) (i % ipb * dinodeSize) = (view sb s).nodes i := by
    rw [h.nodes_eq]
    exact (if_pos hi).symm
  rw [hnode, files]
  split_ifs with hlive
  · rfl
  · refine ⟨fun _ => ?_, fun _ => rfl⟩
    by_contra htype
    exact hlive ⟨hi, htype⟩

/-- An inode without blocks owns nothing. -/
theorem owns_of_addrs_zero {N : ℕ → Dinode} {D : ℕ → Block} (h : ∀ k, (N i).addrs k = 0) {p : Place}
    (hp : p.inum = i) : owns sb N D p = none := by
  subst hp
  unfold owns
  split_ifs
  · rw [named_eq_none]
    cases p with
    | leaf j k =>
      by_cases hk : k < ndirect
      · rw [number, ptr, dif_pos hk]
        exact h _
      · exact ptr_of_ind_zero (Nat.not_lt.1 hk) (h _)
    | ind j => exact h _
  · rfl

/-- An inode that owned nothing is replaced by one that owns nothing. -/
theorem owns_update_eq {N : ℕ → Dinode} {D : ℕ → Block} {d : Dinode}
    (hold : ∀ p : Place, p.inum = i → owns sb N D p = none) (hnew : ∀ k, d.addrs k = 0) :
    owns sb (update N i d) D = owns sb N D := by
  funext p
  by_cases hp : p.inum = i
  · rw [hold p hp, owns_of_addrs_zero (i := i) (fun k => ?_) hp]
    rw [update_self]
    exact hnew k
  · exact owns_update_of_ne hp

/-- An inode without blocks that is not in the table any more replaces another one. -/
theorem Good.replace_empty {s' : State} {d : Dinode} {X : Finset ℕ} (h : Good sb s)
    (hview : view sb s' = { view sb s with
      node := update (view sb s).node i d, table := update (view sb s).table i none })
    (hold : ∀ p : Place, p.inum = i → (view sb s).owns sb p = none) (haddrs : ∀ k, d.addrs k = 0)
    (hsize : d.size = 0) (hgrows : Grows s s' X) : Good sb s' ∧ files sb s' = update (files sb s) i
      (if i < sb.ninodes ∧ d.type ≠ 0 then ⟨d.type, d.major, d.minor, d.nlink, []⟩ else .free) := by
  have hnodes : (view sb s').nodes = update (view sb s).nodes i d := nodes_of_view hview nofun
  have howns : (view sb s').owns sb = (view sb s).owns sb := by
    rw [View.owns, hnodes, hview]
    exact owns_update_eq hold haddrs
  have hexact : (view sb s').Exact sb := by
    rw [View.Exact, howns, hview]
    exact h.exact
  have hreplaced := replaced_of_view hexact hview nofun (fun hne => absurd rfl hne) hgrows
  constructor
  · refine hreplaced.good (h.but i) (fun _ k hk => ?_) (hsize ▸ Nat.zero_le _) fun b hb => ?_
    · rw [hsize] at hk
      exact absurd hk (Nat.not_lt_zero _)
    · rwa [howns] at hb
  · rw [hreplaced.files, files, hnodes, update_self, hsize]
    refine congrArg _ (if_congr ?_ rfl rfl)
    rw [Live, update_self]

theorem Good.wp_iallocFrom (h : Good sb s) (hE : E (.panic .ialloc)) {type : Int16} (htype : type ≠ 0)
    (inums : List ℕ) (hlt : ∀ i ∈ inums, i < sb.ninodes) :
    wp (iallocFrom sb type inums) E s fun i s' => Good sb s' ∧
      inums.find? (fun i => (files sb s i).type = 0) = some i ∧
      files sb s' = update (files sb s) i ⟨type, 0, 0, 0, []⟩ ∧ Grows s s' {sb.iblock i} := by
  induction inums with
  | nil => simpa [iallocFrom, panic] using hE
  | cons i inums ih =>
    have hi := hlt i List.mem_cons_self
    rw [iallocFrom, wp_bind, wp_bread]
    by_cases hfree : (files sb s i).type = 0
    · have hload := (h.type_eq_zero hi).1 hfree
      simp only [hload, if_true, wp_bind, wp_bmodify, wp_logWrite, wp_pure]
      have hnone : s.table i = none := by
        cases hip : s.table i with
        | none => rfl
        | some ip =>
          have hne := (h.valid i ip hip).2.1
          rw [files_of_table h hip] at hfree
          exact absurd hfree hne
      have hnot : ¬Live sb (view sb s).nodes i := by
        intro hlive
        rw [files, if_pos hlive] at hfree
        exact hlive.2 hfree
      have hview : view sb ((s.put (sb.iblock i) ((Dinode.new type).store (s.cache (sb.iblock i))
          (i % ipb * dinodeSize))).log (sb.iblock i)) = { view sb s with
            node := update (view sb s).node i (.new type)
            table := update (view sb s).table i none } := by
        have htable : update (view sb s).table i none = (view sb s).table :=
          update_eq_self_iff.2 hnone.symm
        rw [view_log, view_put_inode s hi (fits_of_empty rfl fun _ => rfl), htable]
      obtain ⟨hgood, hfiles⟩ := h.replace_empty hview (fun p hp => owns_of_not_live (hp ▸ hnot))
        (fun _ => rfl) rfl (grows_put_log ..)
      rw [if_pos ⟨hi, htype⟩] at hfiles
      exact ⟨hgood, List.find?_cons_of_pos (by simpa using hfree), hfiles, grows_put_log ..⟩
    · rw [if_neg fun hload => hfree ((h.type_eq_zero hi).2 hload),
        List.find?_cons_of_neg (by simpa using hfree)]
      exact ih fun j hj => hlt j (List.mem_cons_of_mem _ hj)

/-- The part of `iput` that frees an inode. -/
theorem Good.wp_ifree (h : Good sb s) (hip : s.table i = some ip) :
    wp (ifree sb i) E s fun _ s' => Good sb s' ∧ files sb s' = update (files sb s) i .free ∧
      Grows s s' (insert (sb.iblock i) (bitmapSet sb)) := by
  have hi := (h.live hip).1
  rw [ifree, wp_bind]
  refine wp_mono (h.wp_itrunc hip) fun _ s₁ hs₁ => ?_
  obtain ⟨h₁, hip₁, hfiles₁, hgrows₁⟩ := hs₁
  simp only [wp_bind, wp_inode hip₁, wp_setInode]
  refine wp_mono (wp_iupdate hi (State.hold_self _) (fits_of_empty rfl fun _ => rfl)) fun _ s₂ hs₂ => ?_
  obtain ⟨hview, hgrows₂⟩ := hs₂
  rw [wp_modify]
  show Good sb (s₂.hold i none) ∧ files sb (s₂.hold i none) = _ ∧ Grows s (s₂.hold i none) _
  have hview' : view sb (s₂.hold i none) = { view sb s₁ with
      node := update (view sb s₁).node i { ip.emptied with type := 0 }
      table := update (view sb s₁).table i none } := by
    rw [view_hold, hview, view_hold]
    simp only [update_idem]
  have hgrows : Grows s₁ (s₂.hold i none) {sb.iblock i} :=
    (((grows_hold _ _).trans hgrows₂).weaken (by rw [Finset.union_self])).table _
  have hself : (view sb s₁).nodes i = ip.emptied := nodes_self hip₁
  obtain ⟨hgood, hfiles⟩ := h₁.replace_empty hview' (fun p hp =>
    owns_of_addrs_zero (fun k => by rw [hself]; rfl) hp) (fun _ => rfl) rfl hgrows
  refine ⟨hgood, ?_, (hgrows₁.trans hgrows).weaken (by simp)⟩
  rw [hfiles, if_neg fun hand => hand.2 rfl, hfiles₁, update_idem]

end Xv6.Disk
