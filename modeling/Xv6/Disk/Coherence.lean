import Xv6.Disk.Runs

/-! When the cache is the disk. A copy that fails in `writei` has changed the buffer of a block without
`log_write`, so that the block reads differently once its buffer has left the cache. -/
namespace Xv6.Disk
open Bytes Function Program Owners Runs

/-- How many of the bytes at `off` come before the block in which the copy stopped after `len` bytes. -/
def cutAt (off len : ℕ) : ℕ := (off + len) / bsize * bsize - off

/-- The operation is a write whose source ends within a block that is allocated, is not part of the
transaction and does not hold those bytes already. -/
def Harms (sb : SuperBlock) (s : State) : Op sb → Prop
  | .write i src off n =>
    Accepts (files sb s i).content off n ∧ (copied src 0 n.toNat).length < n.toNat ∧
    let w := cutAt off.toNat (copied src 0 n.toNat).length
    let b := s.ptr sb i ((off.toNat + w) / bsize)
    b ≠ 0 ∧ b ∉ s.logged ∧
      write (s.cache b) ((off.toNat + w) % bsize) ((copied src 0 n.toNat).drop w) ≠ s.cache b
  | _ => False

section cut
variable {sb : SuperBlock} {s s₁ s' : State} {i off left w : ℕ} {ip : Dinode} {bs : List Byte}

theorem CutShort.eq_cutAt (h : CutShort sb s s₁ i off left bs w) : w = cutAt off bs.length := by
  have hle := h.le
  have hwithin := h.within
  have hend := chunk_end (off + w) (left - w)
  have hstart := h.start
  simp only [cutAt, bsize] at hend hstart ⊢
  omega

/-- The block in which the copy stopped has no owner among the places written before it. -/
theorem Wrote.not_logged {k b : ℕ} (h : Wrote sb s s₁ i off bs) (hip : s.table i = some ip)
    (hi : Live sb (view sb s).nodes i) (hb : s.ptr sb i k = b)
    (hne : b ≠ 0) (hk : k ∉ blocksOf off bs.length) (hlogged : b ∉ s.logged) : b ∉ s₁.logged := by
  have hi₁ : Live sb (view sb s₁).nodes i := (h.live hip).2 hi
  have hb₁ : s₁.ptr sb i k = b := by
    rw [h.ptr_eq i k hi (hb.symm ▸ hne), hb]
  have hown : (view sb s₁).owns sb (.leaf i k) = some b := owns_eq_some.2 ⟨hi₁, hb₁, hne⟩
  intro hmem
  obtain hmem | hmem := Finset.mem_union.1 (h.grows.sub hmem)
  · exact hlogged hmem
  obtain hmem | hmem := Finset.mem_union.1 hmem
  · exact Nat.not_lt.2 (leaf_area h.exact hi₁ hb₁ hne).1 (lt_of_mem_bitmapSet hmem)
  obtain hmem | hmem := Finset.mem_union.1 hmem
  · obtain ⟨k', hk', heq⟩ := Finset.mem_image.1 hmem
    have hown' : (view sb s₁).owns sb (.leaf i k') = some b := owns_eq_some.2 ⟨hi₁, heq, hne⟩
    have hplace := h.exact.exclusive _ _ _ hown hown'
    rw [(Place.leaf.inj hplace).2] at hk
    exact hk hk'
  · rw [indSet] at hmem
    split_ifs at hmem with hzero
    · exact Finset.notMem_empty _ hmem
    · rw [Finset.mem_singleton] at hmem
      exact leaf_not_ind h.exact hi₁ hb₁ hne i (owns_eq_some.2 ⟨hi₁, hmem.symm, hne⟩)

theorem CutShort.coherent_iff (h : CutShort sb s s₁ i off left bs w) (hgood : Good sb s)
    (hs : Coherent s) (hip : s.table i = some ip) (hgrows : Grows s₁ s' {sb.iblock i}) :
    Coherent s' ↔ ¬(s.ptr sb i ((off + w) / bsize) ≠ 0 ∧
      s.ptr sb i ((off + w) / bsize) ∉ s.logged ∧
      write (s.cache (s.ptr sb i ((off + w) / bsize)))
        ((off + w) % bsize) (bs.drop w) ≠
          s.cache (s.ptr sb i ((off + w) / bsize))) := by
  have hlive := hgood.live hip
  obtain ⟨s₂, s₃, b, hwrote, hmapped, rfl⟩ := h.ex
  have hgrows₂ := hwrote.grows
  have hgrown := hmapped.grown
  have hs₂ : Coherent s₂ := hgrows₂.coherent hs
  have hs₃ : Coherent s₃ := hgrown.grows.coherent hs₂
  -- only the block itself can be stale
  have hother : ∀ c, Stale s' c → c = b := by
    intro c hc
    by_contra hne
    obtain ⟨hlogged, hcache⟩ := hgrows.stale hc
    refine hs₃ c ⟨hlogged, ?_⟩
    rwa [State.put_cache, update_of_ne hne] at hcache
  have hiff : Coherent s' ↔ ¬Stale s' b := by
    refine ⟨fun hc => hc b, fun hb c hc => hb ?_⟩
    rwa [← hother c hc]
  have hhome : s'.home = s.home := hgrows.home.trans (hgrown.grows.home.trans hgrows₂.home)
  have hlive₂ : Live sb (view sb s₂).nodes i := (hwrote.live hip).2 hlive
  obtain ⟨a₂, ha₂⟩ := hwrote.attrs ip hip
  have hlive₃ : Live sb (view sb s₃).nodes i := (hgrown.live ha₂).2 hlive₂
  have harea := (leaf_area hgrown.exact hlive₃ hmapped.ptr_eq hmapped.pos).1
  have hiblock := sb.iblock_lt hlive.1
  have hmap := sb.bmapstart_lt_datastart
  -- the inode block that is logged last is another one
  have hlogged : b ∈ s'.logged ↔ b ∈ s₃.logged := by
    refine ⟨fun hb => ?_, fun hb => hgrows.mono hb⟩
    obtain hb | hb := Finset.mem_union.1 (hgrows.sub hb)
    · exact hb
    · rw [Finset.mem_singleton] at hb
      omega
  rw [hiff]
  by_cases hzero : s.ptr sb i ((off + w) / bsize) = 0
  · -- a block allocated for the copy is logged
    have hmem : b ∈ s₃.logged := by
      by_cases hzero₂ : s₂.ptr sb i ((off + w) / bsize) = 0
      · have hfresh := hgrown.fresh _ hzero₂ (hmapped.ptr_eq.symm ▸ hmapped.pos)
        rwa [hmapped.ptr_eq] at hfresh
      · have hfresh := hwrote.fresh _ hzero hzero₂
        rw [← hgrown.ptr_eq i _ hlive₂ hzero₂, hmapped.ptr_eq] at hfresh
        exact hgrown.grows.mono hfresh
    simp only [hzero, ne_eq, not_true_eq_false, false_and, not_false_eq_true, iff_true]
    exact fun hstale => hstale.1 (hlogged.2 hmem)
  · have hptr₂ := hwrote.ptr_eq i _ hlive hzero
    obtain rfl := hmapped.same (hptr₂ ▸ hzero)
    have hb : s.ptr sb i ((off + w) / bsize) = b := by
      rw [← hptr₂, hmapped.ptr_eq]
    have hk : (off + w) / bsize ∉ blocksOf off (bs.take w).length := by
      rw [List.length_take, min_eq_left h.le, mem_blocksOf]
      have hstart := h.start
      simp only [bsize] at hstart ⊢
      omega
    have hlogged' : b ∈ s₃.logged ↔ b ∈ s.logged := by
      refine ⟨fun hmem => ?_, fun hmem => hgrows₂.mono hmem⟩
      by_contra hnot
      exact hwrote.not_logged hip hlive hb hmapped.pos hk hnot hmem
    rw [hb]
    by_cases hmem : b ∈ s.logged
    · simp only [hmem, not_true_eq_false, false_and, and_false, not_false_eq_true, iff_true]
      exact fun hstale => hstale.1 (hlogged.2 (hlogged'.2 hmem))
    · have hnot₃ : b ∉ s₃.logged := fun hb' => hmem (hlogged'.1 hb')
      have hnot : b ∉ s'.logged := fun hb' => hnot₃ (hlogged.1 hb')
      have hcache : s'.cache b = write (s.cache b) ((off + w) % bsize) (bs.drop w) := by
        rw [hgrows.cache b hnot, State.put_cache, update_self, hgrows₂.cache b hnot₃]
      have hsame : s.cache b = s.home b := by
        by_contra hne
        exact hs b ⟨hmem, hne⟩
      rw [Stale, hcache, hhome, ← hsame]
      simp [hnot, hmem, hmapped.pos]

/-- One operation leaves the cache coherent unless it is a write that is cut short within a block. -/
theorem step_coherent_iff {op : Op sb} (hsafe : Safe sb s) (hs : Coherent s)
    (hstep : step sb s op = .ok s') : Coherent s' ↔ ¬Harms sb s op := by
  by_cases hcomplete : op.Complete
  · have hnot : ¬Harms sb s op := by
      cases op with
      | write i src off n => exact fun hharms => absurd hcomplete (Nat.ne_of_lt hharms.2.1)
      | _ => exact id
    have hcoherent : Coherent s' :=
      exec_ok (P := Coherent) (wp_mono (hsafe.wp_run op) fun _ _ hr => (hr.2 hcomplete hs).1) hstep
    exact ⟨fun _ => hnot, fun _ => hcoherent⟩
  · cases op with
    | write i src off n =>
      cases hip : s.table i with
      | none =>
        have hwp : wp (Op.write i src off n : Op sb).run (fun _ => True) s fun _ _ => False := by
          rw [Op.run, wp_bind, writei, wp_bind, wp_inode_none hip]
          trivial
        exact absurd (exec_ok (P := fun _ => False) hwp hstep) id
      | some ip =>
        refine exec_ok (P := fun s' => Coherent s' ↔ ¬Harms sb s (.write i src off n))
          (E := fun _ => True) ?_ hstep
        rw [Op.run, wp_bind]
        refine wp_mono (hsafe.1.wp_writei hip trivial src off n) fun r t ht => ?_
        rw [wp_pure]
        obtain ⟨-, hwritten⟩ := ht
        cases hwritten with
        | rejected hnot heq =>
          rw [heq]
          exact ⟨fun _ hharms => hnot hharms.1, fun _ => hs⟩
        | full _ hlen _ _ => exact absurd hlen hcomplete
        | cut w haccepts hcut =>
          obtain ⟨s₁, hcut, hgrows⟩ := hcut
          rw [hcut.coherent_iff hsafe.1 hs hip hgrows, hcut.eq_cutAt, Harms]
          have hlt := hcut.lt
          simp only [haccepts, hlt, true_and]
    | _ => exact absurd trivial hcomplete

/-- In a run from a coherent state the cache is coherent throughout if and only if no write is cut
short within a block that is allocated, not part of the transaction, and different. -/
theorem coherent_throughout_iff (hsafe : Safe sb s) (hs : Coherent s) (ops : List (Op sb)) :
    Throughout (step sb) Coherent s ops ↔
      Meets (step sb) (fun s op => ∀ t, step sb s op = .ok t → ¬Harms sb s op) s ops := by
  induction ops generalizing s with
  | nil => exact ⟨fun _ => trivial, fun _ => throughout_nil.2 hs⟩
  | cons op ops ih =>
    have hsafe' : ∀ t, step sb s op = .ok t → Safe sb t := fun t ht =>
      exec_ok (P := Safe sb) (wp_mono (hsafe.wp_run op) fun _ _ hr => hr.1) ht
    rw [throughout_cons, Meets]
    constructor
    · rintro ⟨-, hrest⟩
      have hcoherent : ∀ t, step sb s op = .ok t → Coherent t := by
        intro t ht
        exact hrest t ht [] t (List.nil_prefix) rfl
      refine ⟨fun t ht => (step_coherent_iff hsafe hs ht).1 (hcoherent t ht), fun t ht => ?_⟩
      exact (ih (hsafe' t ht) (hcoherent t ht)).1 (hrest t ht)
    · rintro ⟨hop, hrest⟩
      refine ⟨hs, fun t ht => ?_⟩
      have hcoherent := (step_coherent_iff hsafe hs ht).2 (hop t ht)
      exact (ih (hsafe' t ht) hcoherent).2 (hrest t ht)

/-- A file is made, written and committed, and another write of it stops after the first byte. -/
def cutOps : List (Op blankSb) := sampleOps.take 4 ++ [.write 2 (fun k => [8][k]?) 0 3]

/-- The buffer of the file's block then holds a byte that neither the log nor the disk has. -/
theorem cutOps_stale : ∃ t, run (step blankSb) blank cutOps = .ok t ∧ Stale t 5 := by
  have hbytes : (run (step blankSb) blank cutOps).map
      (fun t => (decide (5 ∈ t.logged), t.cache 5 0, t.home 5 0)) = .ok (false, 8, 7) := by
    decide +kernel
  cases hrun : run (step blankSb) blank cutOps with
  | error e =>
    rw [hrun] at hbytes
    contradiction
  | ok t =>
    rw [hrun] at hbytes
    simp only [Except.map, Except.ok.injEq, Prod.mk.injEq, decide_eq_false_iff_not] at hbytes
    obtain ⟨hlogged, hcache, hhome⟩ := hbytes
    refine ⟨t, rfl, hlogged, fun heq => ?_⟩
    rw [heq, hhome] at hcache
    contradiction

theorem coherent_throughout_iff_cut :
    ¬Throughout (step blankSb) Coherent blank cutOps ∧
      ¬Meets (step blankSb) (fun s op => ∀ t, step blankSb s op = .ok t → ¬Harms blankSb s op) blank
        cutOps := by
  obtain ⟨t, hrun, hstale⟩ := cutOps_stale
  have hnot : ¬Throughout (step blankSb) Coherent blank cutOps := fun hcoherent =>
    hcoherent cutOps t (List.prefix_refl _) hrun 5 hstale
  exact ⟨hnot, mt (coherent_throughout_iff blank_safe blank_coherent cutOps).2 hnot⟩

end cut
end Xv6.Disk
