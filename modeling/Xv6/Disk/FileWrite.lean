import Xv6.Disk.Runs

/-! `filewrite` cuts a write into transactions of a few blocks each. Every one of them fits into what
the log reserves for an operation, however the blocks lie on the disk. -/
namespace Xv6.Disk
open Bytes Function Program Owners Runs

/-- The most bytes that `filewrite` writes in one transaction. -/
def writeMax : ℕ := ((maxopblocks - 1 - 1 - 2) / 2) * bsize

/-- The fields of a `struct file` for an inode that `filewrite` uses. -/
structure OpenFile where
  writable : Bool
  ip : ℕ
  off : UInt32
  deriving DecidableEq, Repr

def OpenFile.advance (f : OpenFile) (r : ℕ) : OpenFile := { f with off := f.off + UInt32.ofNat r }

section model
variable (sb : SuperBlock)

/-- `end_op` of the only operation that is outstanding. The model stops where the operation has logged
more than `begin_op` has reserved for it. -/
def endOp : DiskM Unit := do
  let s ← get
  if s.logged.card ≤ maxopblocks then set s.commit
  else panic .logTooBig

/-- One transaction of `filewrite`: what `writei` returned, and the new offset. -/
def writeSome (f : OpenFile) (src : ℕ → Option Byte) (n1 : UInt32) : DiskM (Option ℕ × OpenFile) := do
  iload sb f.ip
  let r ← writei sb f.ip src f.off n1
  endOp
  return (r, f.advance (r.getD 0))

/-- The loop of `filewrite`, with `left` bytes still to be written: the bytes written. -/
def filewriteLoop (f : OpenFile) (src : ℕ → Option Byte) (i left : ℕ) : DiskM (ℕ × OpenFile) := do
  if _h : 0 < left then
    let n1 := min left writeMax
    let (r, f) ← writeSome sb f (fun k => src (i + k)) (UInt32.ofNat n1)
    if r = some n1 then filewriteLoop f src (i + n1) (left - n1)
    else return (i, f)
  else return (i, f)
termination_by left
decreasing_by
  have hmax : 0 < writeMax := by decide
  omega

/-- `filewrite` on a file that is an inode, where `none` is -1. -/
def filewrite (f : OpenFile) (src : ℕ → Option Byte) (n : ℤ) : DiskM (Option ℕ × OpenFile) := do
  if f.writable then
    let (i, f) ← filewriteLoop sb f src 0 n.toNat
    return (if (i : ℤ) = n then some i else none, f)
  else return (none, f)

end model

section bound
variable {sb : SuperBlock} {s s' : State} {i off n : ℕ} {ip : Dinode} {bs : List Byte}

/-- The blocks that a short write touches, counted from the one it begins in. -/
theorem blocksOf_subset (h : n ≤ writeMax) :
    blocksOf off n ⊆ (Finset.range (if off % bsize = 0 then 3 else 4)).image (off / bsize + ·) := by
  intro k hk
  rw [mem_blocksOf] at hk
  refine Finset.mem_image.2 ⟨k - off / bsize, ?_, ?_⟩
  · rw [Finset.mem_range]
    simp only [writeMax, maxopblocks, bsize] at h hk ⊢
    split_ifs <;> omega
  · simp only [bsize] at hk ⊢
    omega

theorem card_blocksOf_le (h : n ≤ writeMax) :
    (blocksOf off n).card ≤ if off % bsize = 0 then 3 else 4 :=
  (Finset.card_le_card (blocksOf_subset h)).trans
    (Finset.card_image_le.trans (Finset.card_range _).le)

/-- The block in which a write begins is missing only if the write begins with it. -/
theorem card_missing_le (hgood : Good sb s) (hi : Live sb (view sb s).nodes i)
    (hoff : off ≤ ((view sb s).nodes i).size) (h : n ≤ writeMax) :
    ((blocksOf off n).filter (s.ptr sb i · = 0)).card ≤ 3 := by
  by_cases hmod : off % bsize = 0
  · have hcard : (blocksOf off n).card ≤ _ := card_blocksOf_le h
    rw [if_pos hmod] at hcard
    exact (Finset.card_filter_le _ _).trans hcard
  · have hsub : (blocksOf off n).filter (s.ptr sb i · = 0) ⊆
        (Finset.range 3).image (off / bsize + 1 + ·) := by
      intro k hk
      obtain ⟨hk, hzero⟩ := Finset.mem_filter.1 hk
      have hne : k ≠ off / bsize := by
        rintro rfl
        refine hgood.dense i hi _ ?_ hzero
        simp only [bsize] at hmod ⊢
        omega
      have hk' := blocksOf_subset h hk
      rw [if_neg hmod] at hk'
      obtain ⟨j, hj, rfl⟩ := Finset.mem_image.1 hk'
      rw [Finset.mem_range] at hj
      exact Finset.mem_image.2 ⟨j - 1, Finset.mem_range.2 (by omega), by omega⟩
    exact (Finset.card_le_card hsub).trans (Finset.card_image_le.trans (Finset.card_range _).le)

theorem card_indSet (N : ℕ → Dinode) (i : ℕ) : (indSet N i).card + lacking N i = 1 := by
  unfold indSet lacking
  split_ifs <;> rfl

/-- The blocks that a short write logs, without the block of its inode. -/
theorem Wrote.card_logged (h : Wrote sb s s' i off bs) (hgood : Good sb s)
    (hi : Live sb (view sb s).nodes i) (hoff : off ≤ ((view sb s).nodes i).size)
    (hlen : bs.length ≤ writeMax) : (s'.logged \ s.logged).card ≤ 9 := by
  have hsub : s'.logged \ s.logged ⊆ mapLogged sb s s' ∪
      ((blocksOf off bs.length).image (s'.ptr sb i) ∪ indSet (view sb s').nodes i) := by
    intro c hc
    obtain ⟨hmem, hnot⟩ := Finset.mem_sdiff.1 hc
    obtain hmap | hrest := Finset.mem_union.1 ((Finset.mem_union.1 (h.grows.sub hmem)).resolve_left hnot)
    · exact Finset.mem_union_left _ (Finset.mem_inter.2 ⟨hc, hmap⟩)
    · exact Finset.mem_union_right _ hrest
  have hmissing := card_missing_le hgood hi hoff hlen
  have hblocks : ((blocksOf off bs.length).image (s'.ptr sb i)).card ≤ 4 := by
    refine Finset.card_image_le.trans ((card_blocksOf_le hlen).trans ?_)
    split_ifs <;> decide
  have hind := card_indSet (view sb s').nodes i
  have hlack := card_indSet (view sb s).nodes i
  have hfew := h.few
  have hcard := (Finset.card_le_card hsub).trans (Finset.card_union_le ..)
  have hunion := Finset.card_union_le ((blocksOf off bs.length).image (s'.ptr sb i))
    (indSet (view sb s').nodes i)
  omega

/-- A write that is cut short logs no more than one that is not. -/
theorem CutShort.card_logged {w : ℕ} (h : CutShort sb s s' i off n bs w) (hgood : Good sb s)
    (hip : s.table i = some ip) (hoff : off ≤ ((view sb s).nodes i).size) (hn : n ≤ writeMax)
    (hmax : off + n ≤ maxfile * bsize) : (s'.logged \ s.logged).card ≤ 9 := by
  have hi := hgood.live hip
  obtain ⟨s₁, s₂, b, hwrote, hmapped, rfl⟩ := h.ex
  obtain ⟨a, ha⟩ := hwrote.attrs ip hip
  have hi₁ : Live sb (view sb s₁).nodes i := (hwrote.live hip).2 hi
  have hle := h.le
  have hlt := h.lt
  have hk : (off + w) / bsize < maxfile := by
    simp only [bsize, maxfile] at hmax ⊢
    omega
  have hpos : 0 < [(0 : Byte)].length := Nat.zero_lt_one
  have hone : (off + w) % bsize + [(0 : Byte)].length ≤ bsize := Nat.mod_lt _ (by decide)
  -- as if one byte of the block had been written
  have hnext := hmapped.write ha hi₁ hk hpos hone
  have hlen : (bs.take w).length = w := by rw [List.length_take, min_eq_left hle]
  have hall := hwrote.trans (by rwa [hlen]) hip hi (by
    rw [hlen]
    exact h.start.imp_right fun hzero => .inl (by rw [hzero, List.take_zero]))
  have hcard := hall.card_logged hgood hi hoff (by
    rw [List.length_append, hlen, List.length_singleton]
    omega)
  refine (Finset.card_le_card (Finset.sdiff_subset_sdiff ?_ subset_rfl)).trans hcard
  exact Finset.subset_insert _ _

/-- Whatever it is asked to write, as long as it is not more than `filewrite` asks for, `writei` logs
at most `MAXOPBLOCKS` blocks. -/
theorem Written.card_logged {src : ℕ → Option Byte} {off n : UInt32} {r : Option ℕ}
    (h : Written sb s s' i src off n r) (hgood : Good sb s) (hip : s.table i = some ip)
    (hn : n.toNat ≤ writeMax) : (s'.logged \ s.logged).card ≤ maxopblocks := by
  have hi := hgood.live hip
  have hinode : ∀ {s₁ : State}, Grows s₁ s' {sb.iblock i} → (s₁.logged \ s.logged).card ≤ 9 →
      (s'.logged \ s.logged).card ≤ maxopblocks := by
    intro s₁ hgrows hcard
    have hsub : s'.logged \ s.logged ⊆ insert (sb.iblock i) (s₁.logged \ s.logged) := by
      intro c hc
      obtain ⟨hc, hnot⟩ := Finset.mem_sdiff.1 hc
      obtain hc | hc := Finset.mem_union.1 (hgrows.sub hc)
      · exact Finset.mem_insert_of_mem (Finset.mem_sdiff.2 ⟨hc, hnot⟩)
      · rw [Finset.mem_singleton.1 hc]
        exact Finset.mem_insert_self _ _
    have hle := (Finset.card_le_card hsub).trans (Finset.card_insert_le _ _)
    simp only [maxopblocks]
    omega
  have hsize : (files sb s i).content.length = ((view sb s).nodes i).size := by
    rw [files_of_table hgood hip, read_length, nodes_self hip]
  have hoff : Accepts (files sb s i).content off n → off.toNat ≤ ((view sb s).nodes i).size := by
    intro haccepts
    have hnot := haccepts.1
    rw [not_or, Nat.not_lt, hsize] at hnot
    exact hnot.1
  cases h with
  | rejected _ heq =>
    rw [heq, Finset.sdiff_self]
    exact Nat.zero_le _
  | full haccepts hlen _ hlog =>
    obtain ⟨s₁, hwrote, hgrows⟩ := hlog
    exact hinode hgrows (hwrote.card_logged hgood hi (hoff haccepts) (by rwa [hlen]))
  | cut w haccepts hcut =>
    obtain ⟨s₁, hcut, hgrows⟩ := hcut
    exact hinode hgrows (hcut.card_logged hgood hip (hoff haccepts) hn haccepts.2)

end bound

section spec
variable {sb : SuperBlock} {E : Stop → Prop} {s : State} {f : OpenFile} {src : ℕ → Option Byte}

theorem wp_endOp (h : s.logged.card ≤ maxopblocks) {Q : Unit → State → Prop} :
    wp endOp E s Q ↔ Q () s.commit := by
  rw [endOp, wp_bind, wp_get, if_pos h, wp_set]

/-- The files after bytes have been written to an open file. -/
def fileWritten (F : ℕ → File) (f : OpenFile) (bs : List Byte) : ℕ → File :=
  update F f.ip { F f.ip with content := splice (F f.ip).content f.off.toNat bs }

/-- How many bytes of a write of `n` bytes at `off` get into a file of `size` bytes: beyond the largest
file only whole transactions do. -/
def transferred (size off n : ℕ) : ℕ :=
  if size < off then 0
  else if off + n ≤ maxfile * bsize then n
  else (maxfile * bsize - off) / writeMax * writeMax

/-- An offset in a file is too small for the test of `writei` for an overflow to matter. -/
theorem accepts_iff {c : List Byte} {off n : UInt32} :
    Accepts c off n ↔ off.toNat ≤ c.length ∧ off.toNat + n.toNat ≤ maxfile * bsize := by
  have hmax : maxfile * bsize < 2 ^ 32 := by decide
  rw [Accepts, not_or, Nat.not_lt, UInt32.lt_iff_toNat_lt, UInt32.toNat_add]
  omega

theorem transferred_zero {size off : ℕ} (h : size ≤ maxfile * bsize) : transferred size off 0 = 0 := by
  unfold transferred
  split_ifs <;> omega

theorem transferred_rejected {c : List Byte} {off n1 : UInt32} {n : ℕ} (hnot : ¬Accepts c off n1)
    (hc : c.length ≤ maxfile * bsize) (hn1 : n1.toNat = min n writeMax) :
    transferred c.length off.toNat n = 0 := by
  rw [accepts_iff] at hnot
  unfold transferred
  split_ifs
  · rfl
  · omega
  · rw [Nat.div_eq_of_lt (by omega), Nat.zero_mul]

theorem transferred_accepted {c c' : List Byte} {off n1 : UInt32} {n : ℕ} (h : Accepts c off n1)
    (hn1 : n1.toNat = min n writeMax) (hc' : off.toNat + n1.toNat ≤ c'.length) :
    transferred c.length off.toNat n =
      n1.toNat + transferred c'.length (off.toNat + n1.toNat) (n - n1.toNat) := by
  obtain ⟨hoff, hmax⟩ := accepts_iff.1 h
  unfold transferred
  rw [if_neg (Nat.not_lt.2 hoff), if_neg (Nat.not_lt.2 hc')]
  by_cases hall : off.toNat + n ≤ maxfile * bsize
  · rw [if_pos hall, if_pos (by omega)]
    omega
  · have hwhole : n1.toNat = writeMax := by omega
    rw [if_neg hall, if_neg (by omega), hwhole, Nat.sub_add_eq,
      Nat.div_eq_sub_div (by decide) (by omega), Nat.add_mul, Nat.one_mul, Nat.add_comm]

theorem splice_nil {c : List Byte} {off : ℕ} : splice c off [] = c := by
  rw [splice, List.append_nil, List.length_nil, Nat.add_zero, List.take_append_drop]

theorem splice_length {c bs : List Byte} {off : ℕ} (h : off ≤ c.length) :
    (splice c off bs).length = max c.length (off + bs.length) := by
  simp only [splice, List.length_append, List.length_take, List.length_drop]
  omega

/-- A write goes on where the one before it has ended. -/
theorem splice_splice {c as bs : List Byte} {off : ℕ} (h : off ≤ c.length) :
    splice (splice c off as) (off + as.length) bs = splice c off (as ++ bs) := by
  have hlen : (c.take off ++ as).length = off + as.length := by
    rw [List.length_append, List.length_take, min_eq_left h]
  have htake : (splice c off as).take (off + as.length) = c.take off ++ as := by
    rw [splice, ← hlen, List.take_left]
  have hdrop : (splice c off as).drop (off + as.length + bs.length) =
      c.drop (off + (as ++ bs).length) := by
    rw [splice, List.drop_append, List.drop_eq_nil_of_le (by omega), List.nil_append, List.drop_drop,
      hlen, List.length_append]
    congr 1
    omega
  rw [splice, htake, hdrop, splice, List.append_assoc (c.take off)]

theorem fileWritten_nil {F : ℕ → File} : fileWritten F f [] = F := by
  rw [fileWritten, splice_nil, update_eq_self]

theorem advance_advance (f : OpenFile) (a b : ℕ) : (f.advance a).advance b = f.advance (a + b) := by
  simp only [OpenFile.advance, UInt32.ofNat_add, UInt32.add_assoc]

theorem advance_zero (f : OpenFile) : f.advance 0 = f := by
  simp [OpenFile.advance]

theorem advance_off {r : ℕ} (h : f.off.toNat + r < 2 ^ 32) :
    (f.advance r).off.toNat = f.off.toNat + r := by
  have hr : (UInt32.ofNat r).toNat = r := UInt32.toNat_ofNat_of_lt' (by rw [UInt32.size]; omega)
  rw [OpenFile.advance, UInt32.toNat_add, hr, Nat.mod_eq_of_lt h]

/-- The next transaction goes on where this one has ended. -/
theorem fileWritten_append {F : ℕ → File} {as bs : List Byte} {m : ℕ}
    (h : f.off.toNat ≤ (F f.ip).content.length) (hm : as.length = m) (hlt : f.off.toNat + m < 2 ^ 32) :
    fileWritten (fileWritten F f as) (f.advance m) bs = fileWritten F f (as ++ bs) := by
  subst hm
  rw [fileWritten, advance_off hlt]
  simp only [OpenFile.advance, fileWritten, update_self, update_idem, splice_splice h]

theorem content_le (h : Good sb s) (i : ℕ) : (files sb s i).content.length ≤ maxfile * bsize := by
  rw [files]
  split_ifs with hlive
  · rw [read_length]
    exact h.small i hlive
  · exact Nat.zero_le _

theorem copied_shift (src : ℕ → Option Byte) (i n : ℕ) :
    copied (fun k => src (i + k)) 0 n = copied src i n := by
  simp only [copied, Nat.zero_add]

/-- A part of a copy that succeeds. -/
theorem copied_of_le {i m n : ℕ} (h : (copied src i n).length = n) (hm : m ≤ n) :
    (copied src i m).length = m ∧ (copied src (i + m) (n - m)).length = n - m := by
  have hsplit : m + (n - m) = n := by omega
  have hfull : (copied src i m).length = m := by
    by_contra hne
    have hlt : (copied src i m).length < m := lt_of_le_of_ne (copied_length_le src i m) hne
    rw [← hsplit, copied_add_of_lt hlt] at h
    omega
  refine ⟨hfull, ?_⟩
  rw [← hsplit, copied_add hfull, List.length_append] at h
  omega

section transactions
variable (h : Good sb s) (hlog : s.logged = ∅) (hi : f.ip < sb.ninodes)
  (htype : (files sb s f.ip).type ≠ 0)
include h hlog hi htype

/-- One transaction fits into the log. If all of its bytes can be read, it writes all of them or is not
accepted; if not, it does not return their number. -/
theorem Good.wp_writeSome (hE : E (.panic .balloc)) {n1 : UInt32} (hn1 : n1.toNat ≤ writeMax) :
    wp (writeSome sb f src n1) E s fun r s' =>
      Good sb s' ∧ s'.logged = ∅ ∧ r.2 = f.advance (r.1.getD 0) ∧
        ((copied src 0 n1.toNat).length < n1.toNat → r.1 ≠ some n1.toNat) ∧
        ((copied src 0 n1.toNat).length = n1.toNat → (Coherent s → Coherent s') ∧
          (Accepts (files sb s f.ip).content f.off n1 ∧ r.1 = some n1.toNat ∧
              files sb s' = fileWritten (files sb s) f (copied src 0 n1.toNat) ∨
            ¬Accepts (files sb s f.ip).content f.off n1 ∧ r.1 = none ∧ files sb s' = files sb s)) := by
  rw [writeSome, wp_bind]
  refine wp_mono (h.wp_iload hi fun hzero => absurd hzero htype) fun _ s₁ hs₁ => ?_
  obtain ⟨hgood₁, hfiles₁, hgrows₁, ip, hip⟩ := hs₁
  rw [wp_bind]
  refine wp_mono (hgood₁.wp_writei hip hE src f.off n1) fun r s₂ hs₂ => ?_
  obtain ⟨hgood₂, hwritten⟩ := hs₂
  have hempty : s₁.logged = ∅ := by
    have hsub := hgrows₁.sub
    rwa [hlog, Finset.union_empty, Finset.subset_empty] at hsub
  have hcard := hwritten.card_logged hgood₁ hip hn1
  rw [hempty, Finset.sdiff_empty] at hcard
  rw [wp_bind, wp_endOp hcard, wp_pure]
  refine ⟨hgood₂.commit, rfl, rfl, fun hlt hr => ?_, fun hfull =>
    ⟨fun hs => (hwritten.coherent hfull (hgrows₁.coherent hs)).commit, ?_⟩⟩
  · cases hwritten with
    | rejected => contradiction
    | full _ hlen => omega
    | cut w _ hcut =>
      obtain ⟨s₃, hcut, -⟩ := hcut
      have hle := hcut.le
      rw [Option.some.injEq] at hr
      omega
  · rw [← hfiles₁]
    cases hwritten with
    | rejected hnot heq => exact .inr ⟨hnot, rfl, by rw [heq]; rfl⟩
    | full haccepts _ hfiles => exact .inl ⟨haccepts, rfl, hfiles⟩
    | cut w _ hcut =>
      obtain ⟨s₃, hcut, -⟩ := hcut
      exact absurd hfull (Nat.ne_of_lt hcut.lt)

theorem Good.wp_filewriteLoop (hE : E (.panic .balloc)) (i n : ℕ) :
    wp (filewriteLoop sb f src i n) E s fun r s' => Good sb s' ∧ s'.logged = ∅ ∧
      ((copied src i n).length < n → r.1 ≠ i + n) ∧
      ((copied src i n).length = n → ∀ t, t = transferred (files sb s f.ip).content.length f.off.toNat n →
        r = (i + t, f.advance t) ∧ files sb s' = fileWritten (files sb s) f (copied src i t) ∧
          (Coherent s → Coherent s')) := by
  -- one transaction after the other
  induction n using Nat.strong_induction_on generalizing s f i with
  | _ n ih =>
    rw [filewriteLoop]
    by_cases hn : 0 < n
    · rw [dif_pos hn]
      set n1 := min n writeMax with hn1
      have hmax : 0 < writeMax := by decide
      have hto : (UInt32.ofNat n1).toNat = n1 :=
        UInt32.toNat_ofNat_of_lt' ((Nat.min_le_right ..).trans_lt (by decide))
      rw [wp_bind]
      refine wp_mono (h.wp_writeSome hlog hi htype hE (by omega)) fun r s₁ hs₁ => ?_
      obtain ⟨hgood, hlog₁, hoff, hshort, hfull⟩ := hs₁
      rw [hto, copied_shift] at hshort hfull
      have hn1' : (UInt32.ofNat n1).toNat = min n writeMax := hto
      obtain ⟨r, f'⟩ := r
      dsimp only at hoff hshort hfull ⊢
      obtain rfl := hoff
      by_cases hr : r = some n1
      · subst hr
        rw [if_pos rfl]
        have hcopy : (copied src i n1).length = n1 :=
          le_antisymm (copied_length_le ..) (Nat.not_lt.1 fun hlt => hshort hlt rfl)
        obtain ⟨hcoherent, hwrote⟩ := hfull hcopy
        obtain ⟨haccepts, -, hfiles⟩ | ⟨-, hnone, -⟩ := hwrote
        · have hbounds := accepts_iff.1 haccepts
          rw [hto] at hbounds
          have hsplit : n1 + (n - n1) = n := Nat.add_sub_cancel' (Nat.min_le_left ..)
          have hmaxfile : maxfile * bsize < 2 ^ 32 := by decide
          have hself : files sb s₁ f.ip = { files sb s f.ip with
              content := splice (files sb s f.ip).content f.off.toNat (copied src i n1) } := by
            rw [hfiles, fileWritten, update_self]
          have hlen : f.off.toNat + n1 ≤ (files sb s₁ f.ip).content.length := by
            rw [hself, splice_length hbounds.1, hcopy]
            exact le_max_right ..
          have htype₁ : (files sb s₁ f.ip).type ≠ 0 := by
            rw [hself]
            exact htype
          have hoff : (f.advance n1).off.toNat = f.off.toNat + n1 := advance_off (by omega)
          refine wp_mono (ih (n - n1) (by omega) (f := f.advance n1) hgood hlog₁ hi htype₁ (i + n1))
            fun r s' hs' => ?_
          obtain ⟨hgood', hlog', hshort', hfull'⟩ := hs'
          refine ⟨hgood', hlog', fun hlt => ?_, fun hall t ht => ?_⟩
          · have hrest : (copied src (i + n1) (n - n1)).length < n - n1 := by
              rw [← hsplit, copied_add hcopy, List.length_append] at hlt
              omega
            have hne := hshort' hrest
            omega
          · obtain ⟨hr, hfiles', hcoherent'⟩ := hfull' (copied_of_le hall (Nat.min_le_left ..)).2 _ rfl
            rw [transferred_accepted haccepts hn1' (by rwa [hto]), hto, ← hoff] at ht
            subst ht
            refine ⟨?_, ?_, fun hs => hcoherent' (hcoherent hs)⟩
            · rw [hr, advance_advance, Nat.add_assoc]
              rfl
            · rw [hfiles', hfiles, copied_add hcopy]
              exact fileWritten_append hbounds.1 hcopy (by omega)
        · contradiction
      · rw [if_neg hr, wp_pure]
        refine ⟨hgood, hlog₁, fun _ => ?_, fun hcopy t ht => ?_⟩
        · dsimp only
          omega
        · obtain ⟨hcoherent, hwrote⟩ := hfull (copied_of_le hcopy (Nat.min_le_left ..)).1
          obtain ⟨-, hsome, -⟩ | ⟨hnot, hnone, hfiles⟩ := hwrote
          · contradiction
          · rw [transferred_rejected hnot (content_le h _) hn1'] at ht
            subst ht hnone
            exact ⟨rfl, by rw [hfiles]; exact fileWritten_nil.symm, hcoherent⟩
    · rw [dif_neg hn, wp_pure]
      obtain rfl : n = 0 := by omega
      refine ⟨h, hlog, fun hlt => by omega, fun _ t ht => ?_⟩
      rw [transferred_zero (content_le h _)] at ht
      subst ht
      exact ⟨by rw [advance_zero]; rfl, fileWritten_nil.symm, id⟩

/-- `filewrite` never logs more in a transaction than the log has reserved for it, so that only a full
disk stops it. If all bytes can be read, what it has written is where the offset was and the offset is
behind it, and the write is reported as a success only if it is all of the bytes; beyond the largest
file it is whole transactions. -/
theorem filewrite_transactional (src : ℕ → Option Byte) (n : ℤ) :
    wp (filewrite sb f src n) (· = .panic .balloc) s fun r s' => Good sb s' ∧ s'.logged = ∅ ∧
      (f.writable = false → r = (none, f) ∧ s' = s) ∧
      (f.writable = true → (copied src 0 n.toNat).length < n.toNat → r.1 = none) ∧
      (f.writable = true → (copied src 0 n.toNat).length = n.toNat →
        ∀ t, t = transferred (files sb s f.ip).content.length f.off.toNat n.toNat →
          r = (if (t : ℤ) = n then some t else none, f.advance t) ∧
            files sb s' = fileWritten (files sb s) f (copied src 0 t) ∧ (Coherent s → Coherent s')) := by
  rw [filewrite]
  cases hwritable : f.writable with
  | false =>
    rw [if_neg Bool.false_ne_true, wp_pure]
    exact ⟨h, hlog, fun _ => ⟨rfl, rfl⟩, nofun, nofun⟩
  | true =>
    rw [if_pos rfl, wp_bind]
    refine wp_mono (h.wp_filewriteLoop (E := (· = .panic .balloc)) hlog hi htype rfl 0 n.toNat)
      fun r s' hs' => ?_
    obtain ⟨hgood, hlog', hshort, hfull⟩ := hs'
    obtain ⟨m, f'⟩ := r
    rw [wp_pure]
    refine ⟨hgood, hlog', nofun, fun _ hlt => if_neg fun hm => hshort hlt ?_,
      fun _ hall t ht => ?_⟩
    · dsimp only
      omega
    · obtain ⟨hr, hfiles, hcoherent⟩ := hfull hall t ht
      rw [Nat.zero_add, Prod.mk.injEq] at hr
      obtain ⟨rfl, rfl⟩ := hr
      exact ⟨rfl, hfiles, hcoherent⟩

end transactions

/-- Five bytes to an empty file, in one transaction. -/
theorem filewrite_transactional_blank :
    (files blankSb blank 1).type = 2 ∧
      wp (filewrite blankSb ⟨true, 1, 0⟩ (fun _ => some 7) 5) (· = .panic .balloc) blank
        fun r s' => Good blankSb s' ∧ r.1 = some 5 ∧ (files blankSb s' 1).content = [7, 7, 7, 7, 7] := by
  have htype : (files blankSb blank 1).type = 2 := by decide +kernel
  have hempty : (files blankSb blank 1).content = [] := by decide +kernel
  refine ⟨htype, ?_⟩
  refine wp_mono (filewrite_transactional blank_good rfl (by decide) (by rw [htype]; decide) _ 5)
    fun r s' hs' => ?_
  obtain ⟨hgood, -, -, -, hfull⟩ := hs'
  obtain ⟨rfl, hfiles, -⟩ := hfull rfl (by decide) 5 (by rw [hempty]; decide)
  refine ⟨hgood, rfl, ?_⟩
  rw [hfiles, fileWritten, update_self, hempty]
  decide

end spec
end Xv6.Disk
