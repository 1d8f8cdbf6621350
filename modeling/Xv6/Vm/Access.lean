import Xv6.Vm.Counts

/-! How the kernel reaches user memory: `cowalloc`, `copyout`, `copyin` and `copyinstr` in every
consistent system, on any address. -/
namespace Xv6
open Bytes Program RefCount

/-- No panic is allowed. -/
def NoPanic (_ : Panic) : Prop := False

/-- The page is a root or an inner page of a page table. -/
def Sys.IsTablePage (s : Sys) (p : ℕ) : Prop := s.IsRoot p ∨ s.IsInner p

/-- What a successful `cowalloc` has done to the entry for the page `v` in the table behind `k`:
of all entries it alone has changed, it has the same bytes behind it, and the page it referred to
before is as it was for everybody else. -/
structure CowDone [Image] (s : Sys) (k : TableKey) (v : ℕ) (t : Sys) : Prop where
  memory : t = s.setMach t.mach
  slot : ∃ q i, entry s.mach.mem q i = s.pte k v ∧ entry t.mach.mem q i = t.pte k v ∧
    ∀ p j, s.IsTablePage p → (p, j) ≠ (q, i) → entry t.mach.mem p j = entry s.mach.mem p j
  others : ∀ k' v', s.table k' ≠ 0 → v' < 2 ^ 27 → (k', v') ≠ (k, v) → t.pte k' v' = s.pte k' v'
  writable : writable (t.pte k v) = true
  cow : cow (t.pte k v) = false
  flags : ∀ b, b < 10 → b ≠ 2 → b ≠ 8 → (t.pte k v).getLsbD b = (s.pte k v).getLsbD b
  bytes : t.mach.mem (pte2pa (t.pte k v)) = s.mach.mem (pte2pa (s.pte k v))
  count : t.mach.count (idx (pte2pa (t.pte k v))) = 1
  oldBytes : t.mach.mem (pte2pa (s.pte k v)) = s.mach.mem (pte2pa (s.pte k v))
  inPlace : s.mach.count (idx (pte2pa (s.pte k v))) = 1 →
    pte2pa (t.pte k v) = pte2pa (s.pte k v) ∧ t.mach.freelist = s.mach.freelist
  copied : s.mach.count (idx (pte2pa (s.pte k v))) ≠ 1 →
    s.mach.freelist = pte2pa (t.pte k v) :: t.mach.freelist ∧
      t.mach.count (idx (pte2pa (s.pte k v))) + 1 = s.mach.count (idx (pte2pa (s.pte k v)))
  counts : ∀ p, Page p → p ≠ pte2pa (s.pte k v) → p ≠ pte2pa (t.pte k v) →
    t.mach.count (idx p) = s.mach.count (idx p)

section cow
variable [Image] {s : Sys} {own : ℕ → Owner} {E : Panic → Prop}

theorem SysInv.isTablePage (h : SysInv s.mach s.inventory own) {p : ℕ} :
    s.IsTablePage p ↔ (own p).isTable = true := by
  rw [Sys.IsTablePage, h.isRoot, h.isInner]
  cases own p <;> simp [Owner.isTable]

omit [Image] in
theorem getLsbD_ownFlags_pteFlags (p : Pte) {b : ℕ} (hb : b < 10) (h2 : b ≠ 2) (h8 : b ≠ 8) :
    (ownFlags (pteFlags p)).getLsbD b = p.getLsbD b := by
  rw [getLsbD_ownFlags _ (by omega), getLsbD_pteFlags]
  simp [hb, h2, h8]

/-- The entry has been written in place or moved to a copy; `t` is memory afterwards and `pa` the
page behind the entry. -/
theorem SysInv.cowDone (h : SysInv s.mach s.inventory own) {k : TableKey}
    {v q pa : ℕ} {t : Machine} (hq : own q = .low (s.table k) (ix2 v) (ix1 v))
    (href : refs (entry s.mach.mem) own (s.table k, v) = some (pte2pa (s.pte k v)))
    (hpage : Page pa)
    (htab : ∀ p, (own p).isTable = true → entry t.mem p = Entries.set (entry s.mach.mem) q (ix0 v)
      (pa2pte pa ||| ownFlags (pteFlags (s.pte k v))) p)
    (hbytes : t.mem pa = s.mach.mem (pte2pa (s.pte k v)))
    (hold : t.mem (pte2pa (s.pte k v)) = s.mach.mem (pte2pa (s.pte k v)))
    (hone : t.count (idx pa) = 1)
    (hplace : s.mach.count (idx (pte2pa (s.pte k v))) = 1 →
      pa = pte2pa (s.pte k v) ∧ t.freelist = s.mach.freelist)
    (hcopy : s.mach.count (idx (pte2pa (s.pte k v))) ≠ 1 → s.mach.freelist = pa :: t.freelist ∧
      t.count (idx (pte2pa (s.pte k v))) + 1 = s.mach.count (idx (pte2pa (s.pte k v))))
    (hcounts : ∀ p, Page p → p ≠ pte2pa (s.pte k v) → p ≠ pa →
      t.count (idx p) = s.mach.count (idx p)) : CowDone s k v (s.setMach t) := by
  obtain ⟨hr, hv, hval, -⟩ := refs_eq_some.mp href
  obtain ⟨bval, bread, -, bwr, bcow⟩ := ownFlags_bits (s.pte k v)
  have hv27 := hv.trans userPages_lt
  have hread : readable (s.pte k v) = true := (h.mem.sharing.flags _ _ href).1
  obtain ⟨-, hleaf⟩ := h.mem.leafTree t own hq hv27
    (Or.inr ⟨by rw [valid_pa2pte_or, bval]; exact hval, by simp [leaf, bread, hread]⟩)
    h.mem.tree.page htab (fun _ _ => rfl)
  have hpte : (s.setMach t).pte k v = pa2pte pa ||| ownFlags (pteFlags (s.pte k v)) := by
    have hself := hleaf (s.table k) true v hr (Or.inr hv27)
    rwa [if_pos ⟨rfl, rfl⟩] at hself
  have hpa : pte2pa ((s.setMach t).pte k v) = pa := by
    rw [hpte]
    exact hpage.pte2pa_or (flagBits_ownFlags _)
  constructor
  · rfl
  · refine ⟨q, ix0 v, (h.mem.tree.leafAt_low hq).symm, ?_, ?_⟩
    · rw [hpte, setMach_mach, htab q (by simp [hq, Owner.isTable]), Entries.set_self]
    · intro p j hp hne
      rw [setMach_mach, htab p (h.isTablePage.mp hp), Entries.set, if_neg]
      rintro ⟨rfl, rfl⟩
      exact hne rfl
  · intro k' v' hk' hv' hne
    have hroot : own (s.table k') = .root true := by
      have htable := h.root_table (k := k') (by rwa [Sys.inventory_table])
      rwa [Sys.inventory_table] at htable
    have hother := hleaf (s.table k') true v' hroot (Or.inr hv')
    rw [if_neg] at hother
    · exact hother
    · rintro ⟨htk, rfl⟩
      have hkk := h.inj k' k (by rwa [Sys.inventory_table])
        (by rw [Sys.inventory_table, Sys.inventory_table, htk])
      exact hne (by rw [hkk])
  · rw [hpte, writable_pa2pte_or, bwr]
  · rw [hpte, cow_pa2pte_or, bcow]
  · intro b hb h2 h8
    rw [hpte, getLsbD_pa2pte_or _ _ hb, getLsbD_ownFlags_pteFlags _ hb h2 h8]
  · rw [hpa]
    exact hbytes
  · rw [hpa]
    exact hone
  · exact hold
  · rw [hpa]
    exact hplace
  · rw [hpa]
    exact hcopy
  · rw [hpa]
    exact hcounts

theorem SysInv.root_of_table (h : SysInv s.mach s.inventory own) {k : TableKey}
    (hk : s.table k ≠ 0) : own (s.table k) = .root true ∧ HighClosed s.mach (s.table k) := by
  rw [← Sys.inventory_table] at hk ⊢
  exact ⟨h.root_table hk, (h.space k hk).2.highClosed⟩

/-- `cowalloc` succeeds exactly on a copy-on-write page that has one reference or for which a
page is free; it then makes that one entry private, and otherwise it changes nothing. -/
theorem cowalloc_resolves_exactly (h : SysOk s) {k : TableKey} (hk : s.table k ≠ 0) (va : ℕ) :
    wp (mach (cowalloc (s.table k) va)) NoPanic s fun ok t =>
      (ok = true ↔ va < maxva ∧ valid (s.pte k (va / pgsize)) = true ∧
        user (s.pte k (va / pgsize)) = true ∧ cow (s.pte k (va / pgsize)) = true ∧
        (s.mach.count (idx (pte2pa (s.pte k (va / pgsize)))) = 1 ∨ s.mach.freelist ≠ [])) ∧
      (ok = true → CowDone s k (va / pgsize) t) ∧ (ok = false → t = s) := by
  obtain ⟨⟨own, hinv⟩, -⟩ := h
  obtain ⟨hroot, hhigh⟩ := hinv.root_of_table hk
  rw [wp_mach]
  apply wp_cowalloc_exact hinv.mem hroot hhigh
  · intro hno
    refine ⟨?_, by simp, fun _ => rfl⟩
    simp only [Bool.false_eq_true, false_iff]
    exact hno
  · intro hyes hv q hq pte href
    have hdata := hinv.mem.target href
    have hqd : ∀ p, (own p).isTable = false → (own q).isTable = true → p ≠ q := by
      rintro p hp hq' rfl
      simp [hp] at hq'
    have hqt : (own q).isTable = true := by simp [hq, Owner.isTable]
    have hpage : Page (pte2pa pte) := hinv.mem.tree.page _ (by simp [hdata])
    have hold : pte2pa pte ≠ q := hqd _ (by simp [hdata, Owner.isTable]) hqt
    constructor
    · intro hone
      refine ⟨iff_of_true rfl hyes, fun _ => ?_, by simp⟩
      apply hinv.cowDone hq href hpage
      · intro p _
        rw [entry_setEntry]
        rfl
      · exact setEntry_mem_ne _ _ _ hold
      · exact setEntry_mem_ne _ _ _ hold
      · exact hone
      · exact fun _ => ⟨rfl, rfl⟩
      · exact fun hmany => absurd hone hmany
      · exact fun _ _ _ _ => rfl
    · intro m hmany hm hl
      have hmq : m ≠ q := hqd m (by simp [hm, Owner.isTable]) hqt
      have hmp : pte2pa pte ≠ m := by
        intro heq
        rw [heq, hm] at hdata
        cases hdata
      have hidx : idx m ≠ idx (pte2pa pte) :=
        (hinv.mem.alloc.idx_ne_of_data hdata (by simp [hm]) (by simp [hm])).symm
      have hpm : Page m := hinv.mem.tree.page m (by simp [hm])
      refine ⟨iff_of_true rfl hyes, fun _ => ?_, by simp⟩
      apply hinv.cowDone hq href hpm
      · intro p hp
        have hpm : p ≠ m := by
          rintro rfl
          simp [hm, Owner.isTable] at hp
        exact entry_cowCopied hpm
      · exact cowCopied_mem_copy hmq hmp
      · exact cowCopied_mem_ne hmp hold
      · rw [cowCopied_count, if_neg hidx, if_pos rfl]
      · exact fun hone => absurd hone (Nat.ne_of_gt hmany)
      · intro _
        refine ⟨hl, ?_⟩
        change (s.mach.cowCopied q _ m pte).count (idx (pte2pa pte)) + 1 =
          s.mach.count (idx (pte2pa pte))
        rw [cowCopied_count, if_pos rfl]
        omega
      · intro p hp hpold hpnew
        have hne : idx p ≠ idx (pte2pa pte) := fun hi => hpold (idx_inj hp hpage hi)
        rw [cowCopied_count, if_neg hne, if_neg fun hi => hpnew (idx_inj hp hpm hi)]

/-- The first process after booting. -/
theorem exists_booted : ∃ s : Sys, SysOk s ∧ s.abs = refBoot ∧ s.table (.main 0) ≠ 0 ∧
    22 ≤ s.mach.freelist.length := by
  obtain ⟨-, s, -, hs, habs, hroom⟩ :=
    exists_of_wp (fun _ => id) (wp_boot (E := NoPanic) fun _ _ => 0)
  refine ⟨s, hs, habs, ((hs.2 0).used ?_).2.1, hroom⟩
  have hstate : (s.abs.proc 0).state = .runnable := by rw [habs]; rfl
  intro hun
  rw [show (s.abs.proc 0).state = .unused from hun] at hstate
  cases hstate

/-- The page that the first process shares with its child is a copy-on-write page. -/
theorem Forked.cow (h : Forked s) : valid (s.pte (.main 0) 0) = true ∧
    user (s.pte (.main 0) 0) = true ∧ cow (s.pte (.main 0) 0) = true := by
  have hone := h.count_ne_one
  have hrun := h.proc.1
  obtain ⟨⟨own, hinv⟩, hok⟩ := h.ok
  obtain ⟨h0, hr, -, -⟩ := hinv.running (hok 0) hrun.1
  have hlt : 0 < userPages := by
    rw [userPages_eq]
    decide
  have hspace : spaceOf s.mach (s.proc 0).pagetable = initSpace :=
    congrArg (fun w => (w.proc 0).space) h.abs
  have hview := congrFun hspace 0
  rw [spaceOf, if_pos ⟨h0, hlt⟩] at hview
  obtain ⟨hval, huser, -⟩ := view_eq_some hview
  refine ⟨hval, huser, by_contra fun hcow => hone ?_⟩
  have hk := refs_eq_some.mpr ⟨hr, hlt, hval, rfl⟩
  exact (hinv.mem.count_private hr hlt ⟨hval, huser,
    ((hinv.mem.sharing.flags _ _ hk).2 huser).mpr (Bool.eq_false_of_not_eq_true hcow)⟩).2

end cow

/-- After the first `fork` the page of the first process is resolved while a page is free. -/
theorem cowalloc_forked : letI := smallImage
    ∃ s, SysOk s ∧ s.table (.main 0) ≠ 0 ∧ cow (s.pte (.main 0) 0) = true ∧
      wp (mach (cowalloc (s.table (.main 0)) 0)) NoPanic s fun ok t =>
        (ok = true ↔ s.mach.freelist ≠ []) ∧ (ok = true → CowDone s (.main 0) 0 t) ∧
          (ok = false → t = s) := by
  let image := smallImage
  obtain ⟨s, hs, habs, -, hroom⟩ := exists_booted
  obtain ⟨-, t, -, ht⟩ := exists_of_wp (fun _ => id) (wp_firstFork (E := NoPanic) hs habs hroom)
  have hk : t.table (.main 0) ≠ 0 := ((ht.ok.2 0).used (by simp [ht.proc.1.1])).2.1
  obtain ⟨hval, huser, hcow⟩ := ht.cow
  refine ⟨t, ht.ok, hk, hcow, wp_mono (cowalloc_resolves_exactly ht.ok hk 0) ?_⟩
  rintro ok u ⟨hok, hdone⟩
  refine ⟨hok.trans ⟨fun hres => ?_, fun hfree => ?_⟩, hdone⟩
  · exact hres.2.2.2.2.resolve_left ht.count_ne_one
  · exact ⟨by decide, hval, huser, hcow, Or.inr hfree⟩

/-- The address lies in a page that user mode may access. -/
def Sys.UserMapped (s : Sys) (k : TableKey) (a : ℕ) : Prop :=
  a < maxva ∧ valid (s.pte k (a / pgsize)) = true ∧ user (s.pte k (a / pgsize)) = true

instance (s : Sys) (k : TableKey) (a : ℕ) : Decidable (s.UserMapped k a) :=
  inferInstanceAs (Decidable (_ ∧ _))

/-- The byte at a user address. -/
def Sys.byteAt (s : Sys) (k : TableKey) (a : ℕ) : Option UInt8 :=
  if s.UserMapped k a then some (s.mach.mem (pte2pa (s.pte k (a / pgsize))) (a % pgsize)) else none

/-- The first `m` bytes of `src` are in the user memory behind `k` from `va` on, and nothing else
has changed for any process. -/
structure CopiedOut (s : Sys) (k : TableKey) (va : ℕ) (src : List UInt8) (m : ℕ) (t : Sys) :
    Prop where
  memory : t = s.setMach t.mach
  mapped : ∀ i, i < m → s.UserMapped k (va + i)
  stored : ∀ i, i < m → t.byteAt k (va + i) = src[i]?
  rest : ∀ a, a < va ∨ va + m ≤ a → t.byteAt k a = s.byteAt k a
  others : ∀ k' v, k' ≠ k → s.table k' ≠ 0 → v < userPages → t.pte k' v = s.pte k' v ∧
    (valid (s.pte k' v) = true →
      t.mach.mem (pte2pa (s.pte k' v)) = s.mach.mem (pte2pa (s.pte k' v)))
  /-- trapframes, kernel stacks, pipes and the strings for `exec`, which no user can reach -/
  saved : ∀ p τ, p ≠ 0 → s.inventory.Holds s.mach p τ → t.mach.mem p = s.mach.mem p

section copies
variable [Image] {s : Sys} {own own' : ℕ → Owner} {k : TableKey} {m : Machine}

omit [Image] in
theorem byteAt_eq (hk : s.table k ≠ 0) (hh : HighClosed s.mach (s.table k)) (a : ℕ) :
    s.byteAt k a = getByte (spaceOf s.mach (s.table k)) a := by
  rw [getByte_spaceOf hk, Sys.byteAt]
  by_cases hmap : s.UserMapped k a
  · obtain ⟨hlt, hval, huser⟩ := id hmap
    rw [if_pos hmap, if_pos (hh.lt hlt huser)]
    simp only [Sys.pte] at hval huser ⊢
    simp [getByte, view, hval, huser]
  · rw [if_neg hmap]
    by_cases hlt : a / pgsize < userPages
    · rw [if_pos hlt, getByte, view]
      split
      · rename_i pg hpg
        split at hpg
        · rename_i hval
          obtain rfl := Option.some.inj hpg
          exact (if_neg fun hu => hmap ⟨lt_maxva_of_page hlt, hval, hu⟩).symm
        · cases hpg
      · rfl
    · rw [if_neg hlt]

omit [Image] in
theorem byteAt_ne_none {a : ℕ} : s.byteAt k a ≠ none ↔ s.UserMapped k a := by
  unfold Sys.byteAt
  split <;> simp_all

theorem SysInv.copiedOut (h : SysInv s.mach s.inventory own) (hk : s.table k ≠ 0) {va n : ℕ}
    {src : List UInt8} (hn : n ≤ src.length) (hrange : UserRange (view s.mach (s.table k)) va n)
    (he : Effect (s.table k) s.mach own m own'
      (putBytes (view s.mach (s.table k)) va (src.take n))) :
    CopiedOut s k va src n (s.setMach m) := by
  obtain ⟨hroot, hhigh⟩ := h.root_of_table hk
  have hlen : (src.take n).length = n := by
    rw [List.length_take]
    omega
  have hbyte : ∀ a, (s.setMach m).byteAt k a =
      (s.byteAt k a).map fun b => if va ≤ a then (src.take n).getD (a - va) b else b := by
    intro a
    rw [byteAt_eq (s := s.setMach m) hk (he.highClosed hhigh), byteAt_eq hk hhigh]
    change getByte (spaceOf m (s.table k)) a = _
    rw [he.spaceOf_eq hk, spaceOf_putBytes hk, getByte_putBytes]
  have hmapped : ∀ i, i < n → s.UserMapped k (va + i) := by
    intro i hi
    obtain ⟨hlt, pg, hpg, huser⟩ := hrange i hi
    rw [← byteAt_ne_none, byteAt_eq hk hhigh, getByte_spaceOf hk, if_pos hlt, getByte, hpg]
    simp [huser]
  constructor
  · rfl
  · exact hmapped
  · intro i hi
    obtain ⟨b, hb⟩ := Option.ne_none_iff_exists'.mp (byteAt_ne_none.mpr (hmapped i hi))
    rw [hbyte, hb]
    simp [hi, List.getElem?_eq_getElem (show i < src.length by omega)]
  · intro a ha
    rw [hbyte]
    cases s.byteAt k a with
    | none => rfl
    | some b =>
      by_cases hle : va ≤ a
      · simp [hle, show n ≤ a - va by omega]
      · simp [hle]
  · intro k' v hne hk' hv
    have hne' : s.table k' ∉ ({s.table k} : Set ℕ) := by
      intro heq
      have hkk := h.inj k' k (by rwa [Sys.inventory_table])
        (by rw [Sys.inventory_table, Sys.inventory_table]; exact heq)
      exact hne hkk
    have hroot' := (h.root_of_table hk').1
    refine ⟨he.keeps.leaf _ true v hne' hroot', fun hval => ?_⟩
    exact he.keeps.refMem _ v _ hne' (refs_eq_some.mpr ⟨hroot', hv, hval, rfl⟩)
  · intro p τ h0 hτ
    exact he.keeps.heldMem p τ (Set.notMem_empty _) ((h.held p τ).mpr ⟨h0, hτ⟩)

/-- What `copyin` reads in a consistent system. -/
theorem SysInv.wp_copyin_bytes {E : Panic → Prop} (h : MemInv s.mach own)
    (hroot : own (s.table k) = .root true) (hhigh : HighClosed s.mach (s.table k))
    (hk : s.table k ≠ 0) (va len : ℕ) :
    wp (mach (copyin (s.table k) va len)) E s fun res t => t = s ∧
      (res ≠ none ↔ ∀ i, i < len → s.UserMapped k (va + i)) ∧
      ∀ bs, res = some bs → bs.length = len ∧ ∀ i, i < len → s.byteAt k (va + i) = bs[i]? := by
  have hiff : UserRange (view s.mach (s.table k)) va len ↔
      ∀ i, i < len → s.UserMapped k (va + i) := by
    rw [userRange_spaceOf hk]
    apply forall₂_congr
    intro i _
    rw [← byteAt_ne_none, byteAt_eq hk hhigh, getByte_ne_none]
    exact ⟨fun hx => hx.2, fun ⟨pg, hpg, hu⟩ => ⟨spaceOf_lt hpg, pg, hpg, hu⟩⟩
  rw [wp_mach]
  apply wp_mono (wp_copyin h hroot hhigh)
  rintro res m ⟨rfl, hres⟩
  refine ⟨rfl, ?_⟩
  rw [← hiff]
  cases res with
  | none => exact ⟨by simpa using hres, by simp⟩
  | some bs =>
    obtain ⟨hlen, hrange, hbytes⟩ := hres
    refine ⟨by simpa using hrange, ?_⟩
    rintro _ ⟨⟩
    refine ⟨hlen, fun i hi => ?_⟩
    rw [byteAt_eq hk hhigh, getByte_spaceOf hk, if_pos (hrange i hi).1, hbytes i hi]

/-- In every state that the system reaches, `copyout` stores the bytes or a leading part of them
that ends where a page ends, `copyin` reads them back, and no other byte of any process changes. -/
theorem copyout_stores_and_copyin_reads_back (mem : ℕ → Buf) (ops : List Op) :
    wp (do boot; runOps ops) InitExits (Sys.power mem) fun _ s =>
      ∀ k, s.table k ≠ 0 → ∀ va,
        (∀ src, wp (mach (copyout (s.table k) va src)) NoPanic s fun ok t =>
          ∃ m ≤ src.length, CopiedOut s k va src m t ∧ (ok = true ↔ m = src.length) ∧
            (ok = false → m = 0 ∨ (va + m) % pgsize = 0) ∧
            (ok = true → wp (mach (copyin (t.table k) va src.length)) NoPanic t fun res u =>
              res = some src ∧ u = t)) ∧
        ∀ len, wp (mach (copyin (s.table k) va len)) NoPanic s fun res t => t = s ∧
          (res ≠ none ↔ ∀ i, i < len → s.UserMapped k (va + i)) ∧
          ∀ bs, res = some bs → bs.length = len ∧
            ∀ i, i < len → s.byteAt k (va + i) = bs[i]? := by
  apply wp_system
  rintro outs s ⟨⟨own, h⟩, -⟩ - k hk va
  obtain ⟨hroot, hhigh⟩ := h.root_of_table hk
  refine ⟨fun src => ?_, SysInv.wp_copyin_bytes h.mem hroot hhigh hk va⟩
  rw [wp_mach]
  apply wp_mono (wp_copyout h.mem hroot hhigh)
  rintro ok m ⟨own', n, hn, hok, hrange, he, hstop⟩
  have hdone := h.copiedOut hk hn hrange he
  refine ⟨n, hn, hdone, hok, fun hfail => (hstop hfail).1, fun hall => ?_⟩
  obtain rfl := hok.mp hall
  have hread := SysInv.wp_copyin_bytes (s := s.setMach m) (E := NoPanic) he.inv he.root
    (he.highClosed hhigh) hk va src.length
  apply wp_mono hread
  rintro res u ⟨rfl, hres, hbytes⟩
  refine ⟨?_, rfl⟩
  have hmapped : ∀ i, i < src.length → (s.setMach m).UserMapped k (va + i) := by
    intro i hi
    rw [← byteAt_ne_none, hdone.stored i hi]
    simpa using hi
  obtain ⟨bs, rfl⟩ := Option.ne_none_iff_exists'.mp (hres.mpr hmapped)
  obtain ⟨hlen, hbs⟩ := hbytes bs rfl
  congr 1
  apply List.ext_getElem? 
  intro i
  by_cases hi : i < src.length
  · rw [← hbs i hi, hdone.stored i hi]
  · rw [List.getElem?_eq_none (by omega), List.getElem?_eq_none (by omega)]

end copies
/-- A string of `j` bytes begins at `va`: it is mapped up to its final 0, the first one. -/
structure Sys.StringAt (s : Sys) (k : TableKey) (va j : ℕ) : Prop where
  mapped : ∀ i, i ≤ j → s.UserMapped k (va + i)
  stop : s.byteAt k (va + j) = some 0
  first : ∀ i, i < j → s.byteAt k (va + i) ≠ some 0

section strings
variable {V : Space}

/-- A string that is there is read. -/
theorem readString_of_zero {va max j : ℕ} (hj : j < max)
    (hmap : ∀ i, i ≤ j → getByte V (va + i) ≠ none) (hstop : getByte V (va + j) = some 0) :
    readString V va max ≠ none := by
  induction max generalizing va j with
  | zero => omega
  | succ n ih =>
    obtain ⟨b, hb⟩ := Option.ne_none_iff_exists'.mp (hmap 0 (by omega))
    rw [Nat.add_zero] at hb
    rw [readString, hb]
    by_cases h0 : b = 0
    · simp [h0]
    · simp only [if_neg h0, ne_eq, Option.map_eq_none_iff]
      cases j with
      | zero =>
        rw [Nat.add_zero, hb] at hstop
        exact absurd (Option.some.inj hstop) h0
      | succ j =>
        apply ih (j := j) (by omega)
        · intro i hi
          rw [show va + 1 + i = va + (i + 1) by omega]
          exact hmap (i + 1) (by omega)
        · rw [show va + 1 + j = va + (j + 1) by omega]
          exact hstop

end strings

section copyinstr
variable [Image] {s : Sys} {own : ℕ → Owner} {k : TableKey}

section
variable (h : SysInv s.mach s.inventory own)
include h

/-- What is read as a string is a string of the address space. -/
theorem SysInv.stringAt_of_readString (hk : s.table k ≠ 0) {va max : ℕ} {cs : List UInt8}
    (hread : readString (spaceOf s.mach (s.table k)) va max = some cs) :
    ∃ j, j < max ∧ s.StringAt k va j ∧ cs.length = j + 1 ∧
      ∀ i, i ≤ j → cs[i]? = s.byteAt k (va + i) := by
  have hhigh := (h.root_of_table hk).2
  obtain ⟨hle, ⟨str, rfl, hstr⟩, hread⟩ := readString_some hread
  have hbytes : ∀ i, i ≤ str.length → (str ++ [0])[i]? = s.byteAt k (va + i) := by
    intro i hi
    rw [byteAt_eq hk hhigh]
    exact (hread i (by simp; omega)).symm
  rw [List.length_append, List.length_singleton] at hle
  refine ⟨str.length, hle, ⟨?_, ?_, ?_⟩, by simp, hbytes⟩
  · intro i hi
    rw [← byteAt_ne_none, ← hbytes i hi]
    simp
    omega
  · rw [← hbytes _ le_rfl]
    simp
  · intro i hi
    rw [← hbytes i hi.le, List.getElem?_append_left hi, List.getElem?_eq_getElem hi]
    exact fun heq => hstr _ (List.getElem_mem hi) (Option.some.inj heq)

theorem SysInv.readString_of_stringAt (hk : s.table k ≠ 0) {va max j : ℕ} (hj : j < max)
    (hstr : s.StringAt k va j) : readString (spaceOf s.mach (s.table k)) va max ≠ none := by
  have hhigh := (h.root_of_table hk).2
  apply readString_of_zero hj
  · intro i hi
    rw [← byteAt_eq hk hhigh]
    exact byteAt_ne_none.mpr (hstr.mapped i hi)
  · rw [← byteAt_eq hk hhigh]
    exact hstr.stop

omit h in
omit [Image] in
/-- The length of a string is determined. -/
theorem Sys.StringAt.unique {va j j' : ℕ} (h : s.StringAt k va j) (h' : s.StringAt k va j') :
    j = j' := by
  rcases Nat.lt_trichotomy j j' with hlt | heq | hlt
  · exact absurd h.stop (h'.first j hlt)
  · exact heq
  · exact absurd h'.stop (h.first j' hlt)

theorem SysInv.wp_copyinstr_bytes {E : Panic → Prop} (hk : s.table k ≠ 0) (va max : ℕ) :
    wp (copyinstr (s.table k) va max) E s.mach fun res t => t = s.mach ∧ res.1.length ≤ max ∧
      (res.2 = true ↔ ∃ j < max, s.StringAt k va j) ∧
      ∀ j, res.2 = true → s.StringAt k va j → res.1.length = j + 1 ∧
        ∀ i, i ≤ j → res.1[i]? = s.byteAt k (va + i) := by
  obtain ⟨hroot, hhigh⟩ := h.root_of_table hk
  apply wp_mono (wp_copyinstrLoop max h.mem hroot hk hhigh le_rfl)
  rintro ⟨cs, ok⟩ t ⟨rfl, cs', hcs, hle, hread⟩
  obtain rfl : cs = cs' := by simpa using hcs
  cases ok with
  | false =>
    refine ⟨rfl, hle, ?_, by simp⟩
    simp only [Bool.false_eq_true, if_false] at hread
    simp only [Bool.false_eq_true, false_iff]
    rintro ⟨j, hj, hstr⟩
    exact h.readString_of_stringAt hk hj hstr hread
  | true =>
    simp only [if_true] at hread
    obtain ⟨j, hj, hstr, hlen, hbytes⟩ := h.stringAt_of_readString hk hread
    refine ⟨rfl, hle, by simpa using ⟨j, hj, hstr⟩, ?_⟩
    intro j' _ hstr'
    obtain rfl := hstr.unique hstr'
    exact ⟨hlen, hbytes⟩

/-- The length that `fetchstr` returns. -/
theorem SysInv.wp_fetchstr_length {E : Panic → Prop} {i : ℕ} (hi : (s.proc i).pagetable ≠ 0)
    (va buf max : ℕ) :
    wp (fetchstr i va buf max) E s fun res _ =>
      ∀ j, res = some j ↔ j < max ∧ s.StringAt (.main i) va j := by
  obtain ⟨hroot, hhigh⟩ := h.root_of_table (k := .main i) hi
  unfold fetchstr
  simp only [wp_bind, wp_getProc, wp_mach]
  apply wp_mono (wp_copyinstrLoop max h.mem hroot hi hhigh le_rfl)
  rintro ⟨bytes, ok⟩ t ⟨rfl, cs, hcs, -, hread⟩
  obtain rfl : bytes = cs := by simpa using hcs
  simp only [wp_modify]
  cases ok with
  | false =>
    simp only [Bool.false_eq_true, if_false, wp_pure, reduceCtorEq, false_iff, not_and] at hread ⊢
    intro j hj hstr
    exact h.readString_of_stringAt (k := .main i) hi hj hstr hread
  | true =>
    simp only [if_true] at hread
    obtain ⟨j, hj, hstr, hlen, -⟩ := h.stringAt_of_readString (k := .main i) hi hread
    obtain ⟨hle, ⟨str, rfl, hne⟩, -⟩ := readString_some hread
    obtain rfl : str.length = j := by simpa using hlen
    simp only [if_true, wp_bind, wp_get, wp_pure]
    intro j'
    rw [setMach_mach, setMach_mach, setPage_mem_self, strlen, takeWhile_read_write hle hne,
      Option.some.injEq]
    constructor
    · rintro rfl
      exact ⟨hj, hstr⟩
    · rintro ⟨-, hstr'⟩
      exact hstr.unique hstr'

end

/-- In every state that the system reaches, `copyinstr` copies a string of fewer than `max` bytes
with its final 0 and nothing more, and refuses what is not such a string; `fetchstr` and `argstr`
return the length. -/
theorem copyinstr_copies_bounded_string (mem : ℕ → Buf) (ops : List Op) :
    wp (do boot; runOps ops) InitExits (Sys.power mem) fun _ s =>
      (∀ k, s.table k ≠ 0 → ∀ va max,
        wp (mach (copyinstr (s.table k) va max)) NoPanic s fun res t => t = s ∧
          res.1.length ≤ max ∧ (res.2 = true ↔ ∃ j < max, s.StringAt k va j) ∧
          ∀ j, res.2 = true → s.StringAt k va j → res.1.length = j + 1 ∧
            ∀ i, i ≤ j → res.1[i]? = s.byteAt k (va + i)) ∧
      ∀ i, (s.proc i).pagetable ≠ 0 → ∀ buf max,
        (∀ va, wp (fetchstr i va buf max) NoPanic s fun res _ =>
          ∀ j, res = some j ↔ j < max ∧ s.StringAt (.main i) va j) ∧
        ∀ n, n < 6 → wp (argstr i n buf max) NoPanic s fun res _ => ∀ j, res = some j ↔ j < max ∧
          s.StringAt (.main i) (getLE (s.mach.mem (s.proc i).trapframe) (tfA0 + 8 * n) 8) j := by
  apply wp_system
  rintro outs s ⟨⟨own, h⟩, -⟩ -
  refine ⟨fun k hk va max => ?_, fun i hi buf max => ⟨fun va => ?_, fun n hn => ?_⟩⟩
  · rw [wp_mach]
    apply wp_mono (h.wp_copyinstr_bytes hk va max)
    rintro res t ⟨rfl, hres⟩
    exact ⟨rfl, hres⟩
  · exact h.wp_fetchstr_length hi va buf max
  · unfold argstr argraw
    rw [wp_bind, if_neg (by omega)]
    simp only [wp_bind, wp_getProc, wp_get, wp_pure]
    exact h.wp_fetchstr_length hi _ buf max

end copyinstr
end Xv6
