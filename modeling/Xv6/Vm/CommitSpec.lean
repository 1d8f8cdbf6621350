import Xv6.Vm.ExecSpec

/-! The new image of `exec`: its table, its segments, and the moment the process starts to use
it. -/
namespace Xv6
open Bytes Program RefCount

section image
variable [Image] {G : Set ℕ} {s₀ s : Sys} {m : Machine} {own₀ own own' : ℕ → Owner}
  {E : Panic → Prop} {i r n : ℕ} {V : Space}

omit [Image] in
theorem inventory_image :
    ((s.setMach m).setProc i { s.proc i with newtable := r, newsz := n }).inventory =
      { s.inventory with
        table := Function.update s.inventory.table (.image i) r
        size := Function.update s.inventory.size (.image i) n } := by
  rw [inventory_setProc]
  simp

/-- The image of a process changes, nothing else. -/
theorem SysInv.abs_image (h : SysInv s.mach s.inventory own) {R : Set ℕ}
    (hk : Keeps R ∅ s.mach own m own') (hR : ∀ k, k ≠ .image i → s.inventory.table k ∉ R)
    (r n : ℕ) :
    ((s.setMach m).setProc i { s.proc i with newtable := r, newsz := n }).abs =
      s.abs.setProc i { s.abs.proc i with
        image := if r = 0 then none else some (spaceOf m r), imageSz := n } := by
  rw [h.abs_setProc hk (fun k hne => hR k (by rintro rfl; exact hne rfl)) (by simp)]
  have e1 : spaceOf m (s.proc i).pagetable = spaceOf s.mach (s.proc i).pagetable :=
    h.space_eq (k := .main i) hk (hR _ (by simp))
  simp only [absProc, Sys.abs, e1, h.args_eq (i := i) hk (by simp)]

/-- An address space after a change of its user pages. -/
theorem AddrSpace.effect {k tf : ℕ} {m₀ : Machine} (h : AddrSpace m₀ r k tf)
    (he : Effect r m₀ own m own' V) (hV : ∀ w, w < userPages → (V w ≠ none ↔ w < n)) :
    AddrSpace m r n tf := by
  have hup := userPages_eq
  refine ⟨?_, ?_, ?_⟩
  · intro w hw
    rw [he.view w hw]
    exact hV w hw
  · rw [he.high _ (le_refl _) (by omega)]
    exact h.trapframe
  · rw [he.high _ (by omega) (by omega)]
    exact h.trampoline

/-- The size of an address space that does not exist is of no interest. -/
theorem SysInv.resize {v : Inventory} (h : SysInv m v own) {k : TableKey} (hk0 : v.table k = 0)
    (n : ℕ) : SysInv m { v with size := Function.update v.size k n } own := by
  refine h.change h.mem (Keeps.refl ∅ ∅ _ _) ?_ (by simp) (by simp) ?_ (by simp) ?_ (by simp)
    (by simp) ?_ (by simp) h.argv h.pipes
  · rfl
  · intro p _ _ τ
    cases τ <;> rfl
  · intro _ _ _ _
    rfl
  · intro k' _ h0
    refine ⟨Function.update_of_ne ?_ _ _, rfl⟩
    rintro rfl
    exact h0 hk0

/-- Segments and stack change the image only. -/
theorem SysInv.imageEffect (h : SysInv s.mach s.inventory own) (hr : (s.proc i).newtable ≠ 0)
    (he : Effect (s.proc i).newtable s.mach own m own' V) (hn : n ≤ 2 ^ 27)
    (hV : ∀ w, w < userPages → (V w ≠ none ↔ w < npages n))
    (hun : Unshared m (s.proc i).newtable) :
    SysInv m ((s.setMach m).setProc i { s.proc i with newsz := n }).inventory own' ∧
      ((s.setMach m).setProc i { s.proc i with newsz := n }).abs =
        s.abs.setProc i { s.abs.proc i with image := some (clip V), imageSz := n } := by
  constructor
  · have hv := inventory_image (s := s) (m := m) (i := i) (r := (s.proc i).newtable) (n := n)
    show SysInv _ (Sys.inventory _) _
    rw [hv, update_table_newtable]
    exact h.effect (k := .image i) hr he hn hV fun _ _ => hun
  · have ha := h.abs_image (i := i) he.keeps
      (fun k hk => h.table_ne (l := .image i) hk hr) (s.proc i).newtable n
    rw [if_neg hr, he.spaceOf_eq hr] at ha
    exact ha

omit [Image] in
theorem image_abs (hnew : (s.proc i).newtable ≠ 0) :
    (s.abs.proc i).image = some (spaceOf s.mach (s.proc i).newtable) :=
  if_neg hnew

/-- The image of the process has been replaced, nothing else in its entry. -/
def ImageSet (s : Sys) (i : ℕ) (t : Sys) : Prop :=
  ∃ r n, t = (s.setMach t.mach).setProc i { s.proc i with newtable := r, newsz := n }

omit [Image] in
theorem ImageSet.of_setMach : ImageSet s i (s.setMach m) :=
  ⟨(s.proc i).newtable, (s.proc i).newsz, by simp [Sys.setProc, Sys.setMach]⟩

omit [Image] in
theorem ImageSet.trans {t u : Sys} (h : ImageSet s i t) (h' : ImageSet t i u) : ImageSet s i u := by
  obtain ⟨r, n, ht⟩ := h
  obtain ⟨r', n', hu⟩ := h'
  refine ⟨r', n', ?_⟩
  rw [hu, ht]
  simp [Sys.setProc, Sys.setMach]

omit [Image] in
theorem ImageSet.proc {t : Sys} (h : ImageSet s i t) :
    (t.proc i).inExec = (s.proc i).inExec ∧ (t.proc i).argv = (s.proc i).argv ∧
      (t.proc i).pagetable = (s.proc i).pagetable ∧ (t.proc i).trapframe = (s.proc i).trapframe := by
  obtain ⟨r, n, ht⟩ := h
  rw [ht, setProc_self]
  exact ⟨rfl, rfl, rfl, rfl⟩

section
variable (hf : Framed G s₀ own₀ i s own)
include hf

/-- Segments and stack change the image only. -/
theorem Framed.imageEffect (hr : (s.proc i).newtable ≠ 0)
    (he : Effect (s.proc i).newtable s.mach own m own' V) (hn : n ≤ 2 ^ 27)
    (hV : ∀ w, w < userPages → (V w ≠ none ↔ w < npages n)) (hun : Unshared m (s.proc i).newtable) :
    Framed G s₀ own₀ i ((s.setMach m).setProc i { s.proc i with newsz := n }) own' ∧
      ((s.setMach m).setProc i { s.proc i with newsz := n }).abs =
        s.abs.setProc i { s.abs.proc i with image := some (clip V), imageSz := n } := by
  obtain ⟨h1, a1⟩ := hf.inv.imageEffect hr he hn hV hun
  refine ⟨hf.change he.keeps ?_ (Set.empty_subset _) h1 rfl hf.table hf.args, a1⟩
  rintro p rfl
  exact hf.table hr

/-- The image is gone, and the pages of its table with it. -/
def Dropped (s : Sys) (i : ℕ) (t : Sys) : Prop :=
  t = (s.setMach t.mach).setProc i { s.proc i with newtable := 0, newsz := 0 } ∧
    t.abs = s.abs.setProc i { s.abs.proc i with image := none, imageSz := 0 }

/-- `exec` gives up before it has a page table. -/
theorem Framed.wp_dropImage_none (hnew : (s.proc i).newtable = 0) :
    wp (dropImage i) E s fun _ t => ∃ own', Framed G s₀ own₀ i t own' ∧ Dropped s i t := by
  unfold dropImage freePagetable
  simp only [wp_bind, wp_getProc, wp_mach, wp_setProc, hnew, ne_eq, not_true_eq_false, if_false,
    wp_pure, setMach_proc]
  have hz : Function.update s.inventory.table (.image i) 0 = s.inventory.table := by
    rw [← update_table_newtable (s := s) (i := i), hnew, Function.update_idem]
  have hv := inventory_image (s := s) (m := s.mach) (i := i) (r := 0) (n := 0)
  rw [hz] at hv
  have habs := hf.inv.abs_image (i := i) (Keeps.refl ∅ ∅ _ _) (by simp) 0 0
  refine ⟨own, hf.change (Keeps.refl ∅ ∅ _ _) (Set.empty_subset _) (Set.empty_subset _) ?_ rfl
    (fun h0 => absurd rfl h0) hf.args, rfl, habs⟩
  rw [hv]
  exact hf.inv.resize (k := .image i) hnew 0

/-- `exec` gives up: the new image is freed. -/
theorem Framed.wp_dropImage (hnew : (s.proc i).newtable ≠ 0)
    (he : Effect (s.proc i).newtable s.mach own m own' V)
    (hV : ∀ w, w < userPages → (V w = none ↔ view s.mach (s.proc i).newtable w = none)) :
    wp (dropImage i) E (s.setMach m) fun _ t => ∃ own', Framed G s₀ own₀ i t own' ∧
      Dropped s i t := by
  have h := hf.inv
  obtain ⟨hsz, hs⟩ := h.space (.image i) hnew
  have hs' : AddrSpace m (s.proc i).newtable (npages (s.proc i).newsz) _ := hs.effect he
    fun w hw => (not_congr (hV w hw)).trans (hs.maps w hw)
  unfold dropImage
  simp only [wp_bind, wp_getProc, wp_mach, wp_setProc, setMach_proc, setMach_mach]
  rw [freePagetable, if_pos hnew]
  apply wp_mono (wp_procFreepagetable he.inv he.root hsz hs')
  rintro _ m' ⟨own'', hm', k', hfree⟩
  have hk := he.keeps.trans k'
  have habs := h.abs_image hk (fun k hne => h.table_ne (l := .image i) hne hnew) 0 0
  rw [setMach_setMach]
  refine ⟨own'', hf.change hk ?_ (Set.empty_subset _) ?_ rfl (fun h0 => absurd rfl h0) hf.args,
    rfl, habs⟩
  · rintro p rfl
    exact hf.table hnew
  rw [inventory_image]
  refine h.dropTable (k := .image i) hnew hm' hk hfree (by simp) ?_ ?_ ?_ ?_ ?_ h.argv h.pipes
  · rfl
  · rfl
  · intro k hne
    exact Function.update_of_ne hne _ _
  · intro _ _ _
    rfl
  · intro q τ _
    cases τ <;> simp [Inventory.Holds]

/-- `exec` gives up with an image that is as it should be, or with none. -/
theorem Framed.wp_dropImage_any :
    wp (dropImage i) E s fun _ t => ∃ own', Framed G s₀ own₀ i t own' ∧ Dropped s i t := by
  by_cases hnew : (s.proc i).newtable = 0
  · exact hf.wp_dropImage_none hnew
  · exact hf.wp_dropImage (m := s.mach) hnew
      (Effect.refl hf.inv.mem (hf.inv.root_table (k := .image i) hnew)) fun _ _ => Iff.rfl

omit hf in
/-- What `exec` does after the image is gone. -/
theorem wp_execBad_of_drop (hc : Caller s₀ i)
    (hdrop : wp (dropImage i) E (s.setMach m) fun _ t => ∃ own', Framed G s₀ own₀ i t own' ∧
      Dropped s i t) :
    wp (execBad i) E (s.setMach m) fun _ t => SysOk t ∧ t.abs = s.abs.abort i := by
  rw [execBad_eq, wp_bind]
  apply wp_mono hdrop
  rintro _ t ⟨own', hf, ht, ha⟩
  apply wp_mono hf.wp_sysExecEnd
  rintro _ u ⟨own'', hf', hu, ha'⟩
  refine ⟨hf'.sysOk hc fun _ => ?_, ?_⟩
  · rw [hu, setProc_self, ht, setProc_self]
    exact ⟨rfl, rfl, rfl⟩
  · rw [ha', ha]
    simp [Ref.abort, Ref.setProc]

omit hf in
/-- `exec` may give up at any time. -/
theorem wp_execFail (h : SysOk s) (hex : (s.proc i).inExec = true) :
    wp (execBad i) E s fun _ t => SysOk t ∧ t.abs = s.abs.abort i := by
  obtain ⟨⟨own, hinv⟩, hok⟩ := h
  have hc : Caller s i := ⟨hok, (hok i).execing hex⟩
  exact wp_execBad_of_drop (m := s.mach) hc (Framed.univ hinv).wp_dropImage_any

omit hf in
theorem wp_orBad {ok : Bool} (h : SysOk s) (hex : (s.proc i).inExec = true) :
    wp (orBad i ok) E s fun ok' t => ok' = ok ∧ SysOk t ∧
      (ok = true → t = s) ∧ (ok = false → t.abs = s.abs.abort i) := by
  unfold orBad
  cases ok with
  | true =>
    simp only [if_true, wp_pure]
    exact ⟨trivial, h, fun _ => trivial, by simp⟩
  | false =>
    simp only [Bool.false_eq_true, if_false, wp_bind, wp_pure]
    apply wp_mono (wp_execFail h hex)
    rintro _ t ⟨ht, ha⟩
    exact ⟨trivial, ht, by simp, fun _ => ha⟩

omit hf in
/-- `exec` makes an empty address space. -/
theorem Framed.wp_makeTable (hG : Roomy G s₀ own₀) (hf : Framed G s₀ own₀ i s own)
    (hnew : (s.proc i).newtable = 0) :
    wp (makeTable i) E s fun ok t => ∃ own', Framed G s₀ own₀ i t own' ∧ ImageSet s i t ∧
      ((ok = true ∧ (t.proc i).newtable ≠ 0 ∧ t.abs = s.abs.setProc i
          { s.abs.proc i with image := some fun _ => none, imageSz := 0 } ∧
          s.mach.freelist.length ≤ t.mach.freelist.length + 5) ∨
        (ok = false ∧ t.abs = s.abs ∧ s.mach.freelist.length < 5)) := by
  have hinv := hf.inv
  unfold makeTable
  simp only [wp_bind, wp_getProc, wp_mach]
  apply wp_mono (wp_procPagetable hinv.mem)
  rintro r m (⟨rfl, hlow, own', hm, k⟩ | ⟨hr, hused, own', hm, k, hroot, hspace⟩)
  · have habs : (s.setMach m).abs = s.abs := by
      ext j
      · exact hinv.absProc_eq k (by simp) (by simp) (by simp)
      · rfl
      · rfl
    have hself : (s.setMach m).setProc i (s.proc i) = s.setMach m := by
      simp [Sys.setProc, Sys.setMach]
    have hstep := hf.change (q := s.proc i) k (Set.empty_subset _) (Set.empty_subset _)
      (by rw [hself]; exact hinv.quiet hm k) rfl hf.table hf.args
    rw [hself] at hstep
    simp only [if_true, wp_pure]
    exact ⟨own', hstep, ImageSet.of_setMach, Or.inr ⟨trivial, habs, hlow⟩⟩
  · have hr0 : r ≠ 0 := hinv.nonzero (by simp [hr])
    have hin : r ∈ G := hf.free hG hr
    have hfresh : ∀ k, s.inventory.table k ∉ ({r} : Set ℕ) := by
      rintro l rfl
      have hl := hinv.root_table (k := l) hr0
      rw [hr] at hl
      cases hl
    rw [if_neg hr0]
    simp only [wp_bind, wp_setProc, wp_pure, setMach_proc]
    refine ⟨own', hf.change k (by simpa using hin) (Set.empty_subset _) ?_ rfl (fun _ => hin)
      hf.args, ⟨r, 0, rfl⟩, Or.inl ⟨trivial, ?_, ?_, hused⟩⟩
    · rw [inventory_image]
      exact hinv.newTable (k := .image i) hnew hr hm k hroot hspace
    · rw [setProc_self]
      exact hr0
    · rw [hinv.abs_image k (fun k' _ => hfresh k'), if_neg hr0, hspace.maps.spaceOf_zero]

omit hf in
theorem wp_execTable (h : SysOk s) (hex : (s.proc i).inExec = true)
    (hnew : (s.proc i).newtable = 0) :
    wp (execTable i) E s fun ok t => SysOk t ∧
      ((ok = true ∧ t.abs = s.abs.setProc i
          { s.abs.proc i with image := some fun _ => none, imageSz := 0 }) ∨
        (ok = false ∧ t.abs = s.abs.abort i)) := by
  obtain ⟨⟨own, hinv⟩, hok⟩ := h
  have hc : Caller s i := ⟨hok, (hok i).execing hex⟩
  rw [execTable_eq, wp_bind]
  apply wp_mono ((Framed.univ hinv).wp_makeTable Roomy.univ hnew)
  rintro ok t ⟨own', hf, hset, hres⟩
  have hex' : (t.proc i).inExec = true := hset.proc.1.trans hex
  apply wp_mono (wp_orBad (hf.sysOk hc (by simp [hex'])) hex')
  rintro _ u ⟨rfl, hu, htrue, hfalse⟩
  refine ⟨hu, ?_⟩
  rcases hres with ⟨rfl, -, ha, -⟩ | ⟨rfl, ha, -⟩
  · exact Or.inl ⟨rfl, by rw [htrue rfl, ha]⟩
  · exact Or.inr ⟨rfl, by rw [hfalse rfl, ha]⟩

/-- The image of the same size with other contents. -/
theorem Framed.imageWrite (hr : (s.proc i).newtable ≠ 0)
    (he : Effect (s.proc i).newtable s.mach own m own' V)
    (hV : ∀ w, w < userPages → (V w = none ↔ view s.mach (s.proc i).newtable w = none))
    (hun : Unshared m (s.proc i).newtable) :
    Framed G s₀ own₀ i (s.setMach m) own' ∧
      (s.setMach m).abs = s.abs.setProc i { s.abs.proc i with image := some (clip V) } := by
  obtain ⟨hsz, hs⟩ := hf.inv.space (.image i) hr
  have hself : (s.setMach m).setProc i { s.proc i with newsz := (s.proc i).newsz } = s.setMach m := by
    simp [Sys.setProc, Sys.setMach]
  obtain ⟨h1, h2⟩ := hf.imageEffect hr he hsz
    (fun w hw => (not_congr (hV w hw)).trans (hs.maps w hw)) hun
  rw [show s.inventory.size (.image i) = (s.proc i).newsz from rfl, hself] at h1 h2
  exact ⟨h1, h2⟩

omit hf in
/-- A table whose new entries have been taken back is as it was. -/
theorem Unshared.restored {t : Machine} {k : ℕ} (hun : Unshared m r) (hmaps : MapsBelow m r k)
    (he : EffectOn (Set.Ici k) r m own t own' (view m r)) : Unshared t r := by
  intro w hw hval
  have hsome : view m r w ≠ none := by
    rw [← he.view w hw, Ne, view_eq_none_iff, hval]
    simp
  have hin := (hmaps w hw).mp hsome
  rw [he.entries w hw (by simpa using hin)] at hval ⊢
  exact hun w hw hval

omit hf in
omit [Image] in
theorem abort_setProc {t : Ref} {V : Option Space} :
    (t.setProc i { t.proc i with image := V, imageSz := n }).abort i = t.abort i := by
  simp [Ref.abort, Ref.setProc]

omit hf in
omit [Image] in
theorem toNat_add_of_not_lt {a b : UInt64} (h : ¬a + b < a) :
    (a + b).toNat = a.toNat + b.toNat := by
  rw [UInt64.lt_iff_toNat_lt, UInt64.toNat_add] at h
  rw [UInt64.toNat_add]
  have ha := a.toNat_lt
  have hb := b.toNat_lt
  omega

variable {readi : ℕ → ℕ → List UInt8}

/-- The bytes of a segment go to the pages that were made for it. -/
theorem Framed.wp_loadseg (hnew : (s.proc i).newtable ≠ 0) {ph : Proghdr}
    (halign : ph.vaddr.toNat % pgsize = 0) (hfile : ph.filesz ≤ ph.memsz)
    (hin : ph.vaddr.toNat + ph.memsz.toNat ≤ (s.proc i).newsz) :
    wp (loadseg (s.proc i).newtable ph.vaddr.toNat readi ph.off.toNat ph.filesz.toNat) E s.mach
      fun ok m => Framed G s₀ own₀ i (s.setMach m) own ∧
        match segmentBytes readi (ph.off.toNat % 2 ^ 32) (ph.filesz.toNat % 2 ^ 32)
            ((ph.filesz.toNat % 2 ^ 32 + (pgsize - 1)) / pgsize) 0 with
        | some bytes => ok = true ∧ (s.setMach m).abs = s.abs.setProc i { s.abs.proc i with
            image := some (putBytes (spaceOf s.mach (s.proc i).newtable) ph.vaddr.toNat bytes) }
        | none => ok = false ∧ (s.setMach m).abs.abort i = s.abs.abort i := by
  have h := hf.inv
  obtain ⟨hsz, hs⟩ := h.space (.image i) hnew
  have hroot := h.root_table (k := .image i) hnew
  have hmaps : ∀ w, (ph.vaddr.toNat + 0) / pgsize ≤ w → w < (ph.vaddr.toNat + 0) / pgsize +
      (ph.filesz.toNat % 2 ^ 32 + (pgsize - 1)) / pgsize →
      w < userPages ∧ view s.mach (s.proc i).newtable w ≠ none := by
    intro w _ hw
    have hlt : w < npages (s.proc i).newsz := by
      have := UInt64.le_iff_toNat_le.mp hfile
      simp only [npages, pgsize] at *
      omega
    have hup := lt_of_lt_of_le hlt (npages_le_userPages hsz)
    exact ⟨hup, (hs.maps w hup).mpr hlt⟩
  unfold loadseg
  refine wp_mono (wp_loadsegLoop _ h.mem hroot (h.image i hnew) halign (Nat.zero_mod _) ?_ hmaps) ?_
  · simp
  rintro ok m ⟨hun, hres⟩
  cases hseg : segmentBytes readi (ph.off.toNat % 2 ^ 32) (ph.filesz.toNat % 2 ^ 32)
      ((ph.filesz.toNat % 2 ^ 32 + (pgsize - 1)) / pgsize) 0 with
  | none =>
    simp only [hseg] at hres
    obtain ⟨rfl, V, he, hV⟩ := hres
    obtain ⟨h1, a1⟩ := hf.imageWrite hnew he hV hun
    refine ⟨h1, rfl, ?_⟩
    rw [a1]
    simp [Ref.abort, Ref.setProc]
  | some bytes =>
    simp only [hseg] at hres
    obtain ⟨rfl, he⟩ := hres
    have he' : Effect (s.proc i).newtable s.mach own m own
        (putBytes (view s.mach (s.proc i).newtable) ph.vaddr.toNat bytes) := he
    obtain ⟨h1, a1⟩ := hf.imageWrite hnew he' (fun w _ => putBytes_eq_none _ _ _ w) hun
    refine ⟨h1, rfl, ?_⟩
    rw [a1, spaceOf_putBytes hnew]

/-- The image grows up to the end of a segment. -/
theorem Framed.wp_uvmalloc (hnew : (s.proc i).newtable ≠ 0) (last : ℕ) {Q : ℕ → Machine → Prop}
    (hfail : ∀ m own', Framed G s₀ own₀ i (s.setMach m) own' →
      (s.setMach m).abs.abort i = s.abs.abort i →
      (max (s.proc i).newsz last ≠ 0 →
        s.mach.freelist.length < 3 * (npages last - npages (s.proc i).newsz)) → Q 0 m)
    (hgrow : ∀ m own' t, t = (s.setMach m).setProc i
        { s.proc i with newsz := max (s.proc i).newsz last } →
      max (s.proc i).newsz last ≠ 0 → Framed G s₀ own₀ i t own' → t.abs = s.abs.setProc i { s.abs.proc i with
        image := some (growSpace (spaceOf s.mach (s.proc i).newtable) (s.proc i).newsz last),
        imageSz := max (s.proc i).newsz last } →
      Q (max (s.proc i).newsz last) m) :
    wp (uvmalloc (s.proc i).newtable (s.proc i).newsz last) E s.mach Q := by
  have hinv := hf.inv
  obtain ⟨hsz, hs⟩ := hinv.space (.image i) hnew
  have hroot := hinv.root_table (k := .image i) hnew
  have hsame : ∀ m own', EffectOn (Set.Ici (npages (s.proc i).newsz)) (s.proc i).newtable s.mach own
      m own' (view s.mach (s.proc i).newtable) → (max (s.proc i).newsz last ≠ 0 →
        s.mach.freelist.length < 3 * (npages last - npages (s.proc i).newsz)) → Q 0 m := by
    intro m own' he hlow
    obtain ⟨h1, a1⟩ := hf.imageWrite hnew he.toEffect (fun _ _ => Iff.rfl)
      ((hinv.image i hnew).restored hs.maps he)
    apply hfail m own' h1 _ hlow
    rw [a1]
    simp [Ref.abort, Ref.setProc]
  apply wp_mono (Xv6.wp_uvmalloc hinv.mem hroot (npages_le_userPages hsz) hs.maps)
  rintro ret m ⟨own', ⟨rfl, hle, hun, he⟩ | ⟨rfl, ⟨-, hlow⟩, he⟩⟩
  · by_cases hret0 : max (s.proc i).newsz last = 0
    · -- an empty image stays empty
      have hlast : last = 0 := Nat.le_zero.mp (hret0 ▸ le_max_right _ _)
      change Q (max (s.proc i).newsz last) m
      rw [hret0]
      apply hsame m own' (he.congr ?_) (fun hne => absurd hret0 hne)
      intro w _
      apply if_neg
      rintro ⟨-, hlt⟩
      simp [hlast, npages, pgsize] at hlt
    have hret27 := le_of_npages hle
    have hV : ∀ w, w < userPages →
        (growSpace (view s.mach (s.proc i).newtable) (s.proc i).newsz last w ≠ none ↔
          w < npages (max (s.proc i).newsz last)) := by
      intro w hw
      have hmap : view s.mach (s.proc i).newtable w ≠ none ↔ w < npages (s.proc i).newsz :=
        hs.maps w hw
      rw [(show Monotone npages from fun _ _ => npages_mono).map_max, lt_max_iff]
      unfold growSpace
      split
      · rename_i hin
        exact iff_of_true (by simp) (Or.inr hin.2)
      · rename_i hout
        rw [hmap]
        omega
    obtain ⟨h1, a1⟩ := hf.imageEffect hnew he.toEffect hret27 hV (hun (hinv.image i hnew))
    apply hgrow m own' _ rfl hret0 h1
    have hclip : clip (growSpace (view s.mach (s.proc i).newtable) (s.proc i).newsz last) =
        growSpace (spaceOf s.mach (s.proc i).newtable) (s.proc i).newsz last := by
      rw [clip_growSpace (le_trans (le_max_right _ _) hret27), clip_view hnew]
    rw [← hclip]
    exact a1
  · exact hsame m own' he fun _ => hlow

theorem Framed.wp_loadSegment (hnew : (s.proc i).newtable ≠ 0) {ph : Proghdr} :
    wp (loadSegment i ph readi) E s fun ok t => ∃ own', Framed G s₀ own₀ i t own' ∧
      ImageSet s i t ∧ (t.proc i).newtable = (s.proc i).newtable ∧
      (ok = true → RefSegment s.abs i (spaceOf s.mach (s.proc i).newtable) ph readi true t.abs) ∧
      (ok = false → ph.type = elfProgLoad ∧ t.abs.abort i = s.abs.abort i) := by
  unfold loadSegment RefSegment
  dsimp only
  by_cases htype : ph.type ≠ elfProgLoad
  · simp only [if_pos htype]
    rw [wp_pure]
    exact ⟨own, hf, ImageSet.of_setMach, rfl, fun _ => ⟨trivial, rfl⟩, by simp⟩
  simp only [if_neg htype]
  by_cases hcond : ph.memsz < ph.filesz ∨ ph.vaddr + ph.memsz < ph.vaddr
  · rw [if_pos hcond, wp_pure]
    exact ⟨own, hf, ImageSet.of_setMach, rfl, by simp, fun _ => ⟨not_not.mp htype, rfl⟩⟩
  rw [if_neg hcond]
  rw [not_or] at hcond
  have hadd := toNat_add_of_not_lt hcond.2
  have hfile : ph.filesz ≤ ph.memsz := UInt64.not_lt.mp hcond.1
  simp only [wp_bind, wp_getProc, wp_mach, hadd]
  apply hf.wp_uvmalloc hnew
  · intro m own' h1 a1 _
    rw [if_pos rfl, wp_pure]
    exact ⟨own', h1, ImageSet.of_setMach, rfl, by simp, fun _ => ⟨not_not.mp htype, a1⟩⟩
  intro m own' t ht hret0 h1 a1
  rw [if_neg hret0]
  simp only [wp_bind, wp_setProc, setMach_proc]
  have hset : ImageSet s i t := ⟨_, _, by rw [ht]; rfl⟩
  have hti : t.proc i = { s.proc i with
      newsz := max (s.proc i).newsz (ph.vaddr.toNat + ph.memsz.toNat) } := by
    rw [ht, setProc_self]
  rw [← ht]
  have habort : t.abs.abort i = s.abs.abort i := by rw [a1, abort_setProc]
  by_cases halign : ph.vaddr.toNat % pgsize ≠ 0
  · rw [if_pos halign, wp_pure]
    exact ⟨own', h1, hset, by rw [hti], by simp, fun _ => ⟨not_not.mp htype, habort⟩⟩
  rw [if_neg halign]
  rw [not_not] at halign
  simp only [wp_bind, wp_getProc, wp_mach]
  have hnew' : (t.proc i).newtable ≠ 0 := by rw [hti]; exact hnew
  apply wp_mono (h1.wp_loadseg hnew' halign hfile (by rw [hti]; exact le_max_right _ _))
  rintro ok m' ⟨h2, hres⟩
  have hset' : ImageSet s i (t.setMach m') := hset.trans ImageSet.of_setMach
  refine ⟨own', h2, hset', by rw [setMach_proc, hti], ?_, ?_⟩
  · intro hok
    have himage : some (spaceOf t.mach (t.proc i).newtable) =
        some (growSpace (spaceOf s.mach (s.proc i).newtable) (s.proc i).newsz
          (ph.vaddr.toNat + ph.memsz.toNat)) := by
      rw [← image_abs hnew', a1]
      simp [Ref.setProc]
    cases hseg : segmentBytes readi (ph.off.toNat % 2 ^ 32) (ph.filesz.toNat % 2 ^ 32)
        ((ph.filesz.toNat % 2 ^ 32 + (pgsize - 1)) / pgsize) 0 with
    | none =>
      simp only [hseg] at hres
      rw [hres.1] at hok
      cases hok
    | some bytes =>
      simp only [hseg] at hres
      refine Or.inl ⟨trivial, hfile, halign, bytes, rfl, ?_⟩
      rw [hres.2, Option.some.inj himage, a1]
      simp [Ref.setProc, Sys.abs, absProc]
  · intro hok
    cases hseg : segmentBytes readi (ph.off.toNat % 2 ^ 32) (ph.filesz.toNat % 2 ^ 32)
        ((ph.filesz.toNat % 2 ^ 32 + (pgsize - 1)) / pgsize) 0 with
    | none =>
      simp only [hseg] at hres
      exact ⟨not_not.mp htype, hres.2.trans habort⟩
    | some bytes =>
      simp only [hseg] at hres
      rw [hres.1] at hok
      cases hok

omit hf in
theorem wp_execSegment (h : SysOk s) (hex : (s.proc i).inExec = true)
    (hnew : (s.proc i).newtable ≠ 0) {ph : Proghdr} :
    wp (execSegment i ph readi) E s fun ok t => SysOk t ∧
      RefSegment s.abs i (spaceOf s.mach (s.proc i).newtable) ph readi ok t.abs := by
  obtain ⟨⟨own, hinv⟩, hok⟩ := h
  have hc : Caller s i := ⟨hok, (hok i).execing hex⟩
  rw [execSegment_eq, wp_bind]
  apply wp_mono ((Framed.univ hinv).wp_loadSegment hnew)
  rintro ok t ⟨own', hf, hset, -, htrue, hfalse⟩
  have hex' : (t.proc i).inExec = true := hset.proc.1.trans hex
  apply wp_mono (wp_orBad (hf.sysOk hc (by simp [hex'])) hex')
  rintro ok' u ⟨rfl, hu, hu1, hu2⟩
  refine ⟨hu, ?_⟩
  cases ok' with
  | true =>
    rw [hu1 rfl]
    exact htrue rfl
  | false =>
    obtain ⟨htype, habort⟩ := hfalse rfl
    unfold RefSegment
    rw [if_neg (not_not.mpr htype)]
    exact Or.inr ⟨rfl, (hu2 rfl).trans habort⟩

omit hf in
/-- The image of a process takes the place of its memory. -/
theorem SysInv.install {v : Inventory} {m₀ : Machine} (h : SysInv m₀ v own)
    (hold : v.table (.main i) ≠ 0) (hnew : v.table (.image i) ≠ 0) (hm : MemInv m own')
    (hk : Keeps {v.table (.main i), v.table (.image i)} {v.trapframe i} m₀ own m own')
    (hfree : own' (v.table (.main i)) = .free) (hroot : own' (v.table (.image i)) = .root true)
    (htf : ∀ τ, own' (v.trapframe i) = .held τ ↔ own (v.trapframe i) = .held τ) (hn : n ≤ 2 ^ 27)
    (hs : AddrSpace m (v.table (.image i)) (npages n) (v.trapframe i)) :
    SysInv m { v with
      table := Function.update (Function.update v.table (.main i) (v.table (.image i))) (.image i) 0
      size := Function.update (Function.update v.size (.main i) n) (.image i) 0 } own' := by
  have hro := h.root_table hold
  have hrn := h.root_table hnew
  have hne : v.table (.main i) ≠ v.table (.image i) := h.table_ne (by simp) hnew
  have hmain : ∀ k, k ≠ .image i → k ≠ .main i → Function.update (Function.update v.table (.main i)
      (v.table (.image i))) (.image i) 0 k = v.table k := by
    intro k h1 h2
    rw [Function.update_of_ne h1, Function.update_of_ne h2]
  have hkey : ∀ k, Function.update (Function.update v.table (.main i) (v.table (.image i)))
      (.image i) 0 k = v.table (.image i) ↔ k = .main i := by
    intro k
    by_cases h1 : k = .image i
    · subst h1
      simp [hnew.symm]
    · by_cases h2 : k = .main i
      · subst h2
        simp
      · rw [hmain k h1 h2]
        exact iff_of_false (h.table_ne h1 hnew) h2
  have hgone : ∀ k, Function.update (Function.update v.table (.main i) (v.table (.image i)))
      (.image i) 0 k ≠ v.table (.main i) := by
    intro k
    by_cases h1 : k = .image i
    · subst h1
      simpa using hold.symm
    · by_cases h2 : k = .main i
      · subst h2
        simpa using hne.symm
      · rw [hmain k h1 h2]
        exact h.table_ne h2 hold
  have hkr : v.kernel ∉ ({v.table (.main i), v.table (.image i)} : Set ℕ) := by
    apply h.kernel_notMem
    rintro r (rfl | rfl) <;> simp [hro, hrn]
  refine h.change hm hk ?_ ?_ ?_ ?_ ?_ ?_ ?_ ?_ ?_ ?_ h.argv h.pipes
  · rfl
  · rintro r (rfl | rfl)
    · simp [hro, hfree]
    · simp [hrn, hroot]
  · rintro p rfl τ
    rw [htf, h.held, ← h.holds_keeps hk hkr]
    cases τ <;> rfl
  · intro p _ _ τ
    cases τ <;> rfl
  · rintro r (rfl | rfl)
    · simp only [hfree, reduceCtorEq, false_iff, not_and, not_exists]
      exact fun _ => hgone
    · simp only [hroot, true_iff]
      exact ⟨hnew, .main i, (hkey _).mpr rfl⟩
  · intro r hr h0 k
    rw [Set.mem_insert_iff, Set.mem_singleton_iff, not_or] at hr
    dsimp only
    by_cases h1 : k = .image i
    · subst h1
      simp only [Function.update_self]
      exact iff_of_false h0.symm (Ne.symm hr.2)
    · by_cases h2 : k = .main i
      · subst h2
        rw [(hkey _).mpr rfl]
        exact iff_of_false (Ne.symm hr.2) (Ne.symm hr.1)
      · rw [hmain k h1 h2]
  · rintro k k' (hk1 | hk1) _ heq
    · exact absurd hk1 (hgone k)
    · rw [(hkey k).mp hk1, (hkey k').mp (heq.symm.trans hk1)]
  · rintro k (hk1 | hk1) _
    · exact absurd hk1 (hgone k)
    · obtain rfl := (hkey k).mp hk1
      simp only [(hkey _).mpr rfl]
      simpa [TableKey.proc] using ⟨hn, hs⟩
  · intro k hk1 h0
    have h1 : k ≠ .image i := by
      rintro rfl
      simp at h0
    have h2 : k ≠ .main i := by
      rintro rfl
      exact hk1 (Or.inr ((hkey _).mpr rfl))
    refine ⟨?_, rfl⟩
    simp only [Function.update_of_ne h1, Function.update_of_ne h2]
  · rintro j (hk1 | hk1) _
    · exact absurd hk1 (hgone _)
    · cases (hkey _).mp hk1

omit hf in
/-- Three registers are set in the trapframe. -/
theorem MemInv.setHeld_three {m₀ : Machine} {p : ℕ} {τ : Tag} (h : MemInv m₀ own)
    (hp : own p = .held τ) (a b c : Buf) :
    MemInv (((m₀.setPage p a).setPage p b).setPage p c) own ∧
      Keeps ∅ {p} m₀ own (((m₀.setPage p a).setPage p b).setPage p c) own := by
  obtain ⟨h1, k1⟩ := h.setHeld hp a
  obtain ⟨h2, k2⟩ := h1.setHeld hp b
  obtain ⟨h3, k3⟩ := h2.setHeld hp c
  exact ⟨h3, (k1.trans k2).trans k3⟩

/-- The trapframe of a process that starts with a new image. -/
def startFrame (b : Buf) (entry sp : ℕ) : Buf :=
  setLE (setLE (setLE b tfA1 8 sp) tfEpc 8 entry) tfSp 8 sp

/-- The process starts to use the image and the old memory is freed. -/
structure Committed (s : Sys) (i entry sp : ℕ) (m : Machine) (own : ℕ → Owner) (t : Sys)
    (own' : ℕ → Owner) : Prop where
  inv : SysInv t.mach t.inventory own'
  keeps : Keeps {(s.proc i).pagetable} {(s.proc i).trapframe} m own t.mach own'
  freed : own' (s.proc i).pagetable = .free
  frame : t.mach.mem (s.proc i).trapframe = startFrame (m.mem (s.proc i).trapframe) entry sp
  eq : t = (s.setMach t.mach).setProc i { s.proc i with
    pagetable := (s.proc i).newtable, sz := (s.proc i).newsz, newtable := 0, newsz := 0 }

omit hf in
theorem wp_commitImage (h : SysInv s.mach s.inventory own) (hpt : (s.proc i).pagetable ≠ 0)
    (htf : (s.proc i).trapframe ≠ 0) (hnew : (s.proc i).newtable ≠ 0)
    (he : Effect (s.proc i).newtable s.mach own m own' V)
    (hV : ∀ w, w < userPages → (V w = none ↔ view s.mach (s.proc i).newtable w = none))
    (entry sp : ℕ) :
    wp (commitImage i entry sp) E (s.setMach m) fun _ t =>
      (∃ own'', Committed s i entry sp m own' t own'') ∧
      t.abs = s.abs.setProc i { s.abs.proc i with
        sz := (s.proc i).newsz, space := clip V, image := none, imageSz := 0 } := by
  obtain ⟨hszn, hsn⟩ := h.space (.image i) hnew
  obtain ⟨hszo, hso⟩ := h.space (.main i) hpt
  have hro := h.root_table (k := .main i) hpt
  have hne : (s.proc i).pagetable ≠ (s.proc i).newtable :=
    h.table_ne (k := .main i) (l := .image i) (by simp) hnew
  have hheld : own' (s.proc i).trapframe = .held (.trapframe i) :=
    (he.keeps.held _ _ (Set.notMem_empty _)).mpr (h.trapframe_held htf)
  unfold commitImage setReg
  simp only [wp_bind, wp_getProc, wp_mach, wp_modify, wp_setProc, setMach_proc, setMach_mach,
    setProc_mach, setProc_setMach, setMach_setMach]
  obtain ⟨h3, k3⟩ := he.inv.setHeld_three hheld
    (setLE (m.mem (s.proc i).trapframe) tfA1 8 sp) _ _
  have hs3 := (hso.keeps he.keeps hne hro).keeps k3 (Set.notMem_empty _)
    ((he.keeps.root _ _ hne).mpr hro)
  apply wp_mono (wp_procFreepagetable h3 ((he.keeps.root _ _ hne).mpr hro) hszo hs3)
  rintro _ m4 ⟨own4, h4, k4, hfree⟩
  have hk4 : Keeps {(s.proc i).pagetable} {(s.proc i).trapframe} m own' m4 own4 :=
    (k3.mono (by simp) (le_refl _)).trans (k4.mono (le_refl _) (by simp))
  have hk : Keeps {(s.proc i).pagetable, (s.proc i).newtable} {(s.proc i).trapframe}
      s.mach own m4 own4 :=
    (he.keeps.mono (by simp) (by simp)).trans (hk4.mono (by simp) (le_refl _))
  have hroot3 : own' (s.proc i).newtable = .root true := he.root
  have hsn' : AddrSpace m (s.proc i).newtable (npages (s.proc i).newsz) (s.proc i).trapframe :=
    hsn.effect he fun w hw => (not_congr (hV w hw)).trans (hsn.maps w hw)
  have hspace := hsn'.keeps hk4 (Ne.symm hne) hroot3
  have hclip : spaceOf m4 (s.proc i).newtable = clip V := by
    rw [← he.spaceOf_eq hnew]
    funext w
    unfold spaceOf
    split
    · rename_i hw
      rw [hk4.view_eq (Ne.symm hne) hroot3 hw.2]
    · rfl
  have hinst := h.install (i := i) hpt hnew h4 hk hfree
    ((k4.root _ _ (Ne.symm hne)).mpr hroot3)
    (fun τ => by
      rw [k4.held _ τ (Set.notMem_empty _)]
      exact he.keeps.held _ τ (Set.notMem_empty _)) hszn hspace
  have habs := h.abs_setProc (i := i) hk (fun k hk1 => by
      rintro (heq | heq)
      · exact h.table_ne (l := .main i) (by rintro rfl; exact hk1 rfl) hpt heq
      · exact h.table_ne (l := .image i) (by rintro rfl; exact hk1 rfl) hnew heq)
    (fun j _ => h.argv_ne_trapframe htf)
    { s.proc i with pagetable := (s.proc i).newtable, sz := (s.proc i).newsz, newtable := 0,
                    newsz := 0 }
  refine ⟨⟨own4, ?_, hk4, hfree, ?_, rfl⟩, habs.trans ?_⟩
  · rw [inventory_setProc]
    simp only [setMach_inventory, update_trapframe, update_argv]
    exact hinst
  · refine (k4.heldMem _ _ (Set.notMem_empty _) hheld).trans ?_
    simp [startFrame]
  · have hargs := h.args_eq (i := i) hk (h.argv_ne_trapframe htf)
    simp [Ref.setProc, absProc, Sys.abs, hclip, hargs]

/-- The stack phase with the two pages that it has added: in `s₁` they are there, and then the
page below the stack is closed and the stack is filled. -/
structure StackBuilt (s : Sys) (i : ℕ) (s₁ : Sys) (own₁ : ℕ → Owner) (V : Space)
    (res : Option (ℕ × ℕ)) (t : Sys) : Prop where
  image : ImageSet s i s₁
  table : (s₁.proc i).newtable = (s.proc i).newtable
  size : (s₁.proc i).newsz = npages (s.proc i).newsz * pgsize + 2 * pgsize
  abs : s₁.abs = s.abs.setProc i { s.abs.proc i with
    image := some (growSpace (spaceOf s.mach (s.proc i).newtable)
      (npages (s.proc i).newsz * pgsize) (s₁.proc i).newsz)
    imageSz := (s₁.proc i).newsz }
  eq : t = s₁.setMach t.mach
  effect : EffectOn {(s₁.proc i).newsz / pgsize - 2} (s₁.proc i).newtable s₁.mach own₁
    t.mach own₁ V
  domain : ∀ w, w < userPages → (V w = none ↔ view s₁.mach (s₁.proc i).newtable w = none)
  guard : leafAt (entry t.mach.mem) (s₁.proc i).newtable ((s₁.proc i).newsz / pgsize - 2) =
    leafAt (entry s₁.mach.mem) (s₁.proc i).newtable ((s₁.proc i).newsz / pgsize - 2) &&& ~~~pteU
  stacked : ∀ sp argc, res = some (sp, argc) →
    Stacked (spaceOf s₁.mach (s₁.proc i).newtable) (s₁.proc i).newsz (s.abs.proc i).args sp argc
      (clip V)
  none : res = none → (∀ str ∈ (s.abs.proc i).args, str.length ≤ pgsize) →
    buildStack (spaceOf s₁.mach (s₁.proc i).newtable) (s₁.proc i).newsz (s.abs.proc i).args = none

omit hf in
/-- The image with the two pages. -/
theorem StackBuilt.space {s₁ t : Sys} {own₁ : ℕ → Owner} {res : Option (ℕ × ℕ)}
    (h : StackBuilt s i s₁ own₁ V res t) (hnew : (s.proc i).newtable ≠ 0) :
    spaceOf s₁.mach (s₁.proc i).newtable = growSpace (spaceOf s.mach (s.proc i).newtable)
      (npages (s.proc i).newsz * pgsize) (s₁.proc i).newsz := by
  have hnew₁ : (s₁.proc i).newtable ≠ 0 := by rw [h.table]; exact hnew
  have himage := image_abs hnew₁
  rw [h.abs] at himage
  simpa [Ref.setProc] using himage.symm

/-- The size of the image is rounded up to whole pages. -/
theorem Framed.roundImage (hnew : (s.proc i).newtable ≠ 0) :
    pgroundup (s.proc i).newsz = npages (s.proc i).newsz * pgsize ∧
      Framed G s₀ own₀ i (s.setProc i
        { s.proc i with newsz := npages (s.proc i).newsz * pgsize }) own ∧
      (s.setProc i { s.proc i with newsz := npages (s.proc i).newsz * pgsize }).abs =
        s.abs.setProc i { s.abs.proc i with
          image := some (spaceOf s.mach (s.proc i).newtable)
          imageSz := npages (s.proc i).newsz * pgsize } := by
  have hinv := hf.inv
  obtain ⟨hsz, hs⟩ := hinv.space (.image i) hnew
  have hsz' : (s.proc i).newsz ≤ 2 ^ 27 := hsz
  have hn27 : npages (s.proc i).newsz * pgsize ≤ 2 ^ 27 := by
    simp only [npages, pgsize]
    omega
  obtain ⟨h0, a0⟩ := hf.imageEffect hnew
    (Effect.refl hinv.mem (hinv.root_table (k := .image i) hnew)) hn27
    (fun w hw => by rw [npages_mul]; exact hs.maps w hw) (hinv.image i hnew)
  rw [clip_view hnew] at a0
  exact ⟨pgroundup_eq (by omega), h0, a0⟩

/-- The stack is filled. -/
theorem Framed.wp_execStack (hnew : (s.proc i).newtable ≠ 0) {k : ℕ}
    (hsz : (s.proc i).newsz = k * pgsize + 2 * pgsize) :
    wp (execStack (s.proc i).newtable (s.proc i).newsz (s.proc i).argv) E s.mach fun res m =>
      ∃ V, EffectOn {(s.proc i).newsz / pgsize - 2} (s.proc i).newtable s.mach own m own V ∧
        (∀ w, w < userPages → (V w = none ↔ view s.mach (s.proc i).newtable w = none)) ∧
        leafAt (entry m.mem) (s.proc i).newtable ((s.proc i).newsz / pgsize - 2) =
          leafAt (entry s.mach.mem) (s.proc i).newtable ((s.proc i).newsz / pgsize - 2) &&&
            ~~~pteU ∧
        (∀ sp argc, res = some (sp, argc) → Stacked (spaceOf s.mach (s.proc i).newtable)
          (s.proc i).newsz (s.abs.proc i).args sp argc (clip V)) ∧
        (res = none → (∀ str ∈ (s.abs.proc i).args, str.length ≤ pgsize) →
          buildStack (spaceOf s.mach (s.proc i).newtable) (s.proc i).newsz
            (s.abs.proc i).args = none) := by
  have hinv := hf.inv
  obtain ⟨hsz27, hs⟩ := hinv.space (.image i) hnew
  have hnp : npages (s.proc i).newsz = (s.proc i).newsz / pgsize := by
    rw [hsz, ← Nat.add_mul, npages_mul, Nat.mul_div_cancel _ (by decide)]
  have hup : (s.proc i).newsz / pgsize ≤ userPages := by
    rw [← hnp]
    exact npages_le_userPages hsz27
  have hheld : ∀ pa ∈ (s.proc i).argv, ∃ τ, own pa = .held τ := fun pa hpa =>
    ⟨.arg i, (hinv.held pa (.arg i)).mpr ⟨fun h0 => (hinv.argv i).2 (h0 ▸ hpa), hpa⟩⟩
  have hmaps : ∀ w, (s.proc i).newsz / pgsize ≤ w + 2 → w < (s.proc i).newsz / pgsize →
      view s.mach (s.proc i).newtable w ≠ none := by
    intro w _ hw
    apply (hs.maps w (by omega)).mpr
    change w < npages (s.proc i).newsz
    omega
  apply wp_mono (Xv6.wp_execStack (s.proc i).argv hinv.mem
    (hinv.root_table (k := .image i) hnew) hnew hheld (hinv.image i hnew)
    (by rw [hsz]; omega) (by rw [hsz, ← Nat.add_mul]; exact Nat.mul_mod_left _ _) hup hmaps)
  rintro res m ⟨V, he, hguard, hsome, hnone⟩
  refine ⟨V, he, ?_, hguard, hsome, hnone⟩
  intro w hw
  by_cases hg : w = (s.proc i).newsz / pgsize - 2
  · subst hg
    rw [← he.view _ hw, view_eq_none_iff, view_eq_none_iff, hguard]
    simp [valid, pteU]
    rfl
  · exact he.view_none_iff hw hg

/-- The end of `exec` up to the stack. -/
theorem Framed.wp_stackPhase (hnew : (s.proc i).newtable ≠ 0) :
    wp (stackPhase i) E s fun res t =>
      (res = none ∧ (t.proc i).newsz = npages (s.proc i).newsz * pgsize ∧ ImageSet s i t ∧
        t.abs.abort i = s.abs.abort i ∧ (∃ own', Framed G s₀ own₀ i t own') ∧
        s.mach.freelist.length < 6) ∨
      ∃ s₁ own₁ V, Framed G s₀ own₀ i s₁ own₁ ∧ StackBuilt s i s₁ own₁ V res t := by
  obtain ⟨hround, h0, a0⟩ := hf.roundImage hnew
  unfold stackPhase
  simp only [wp_bind, wp_setProc, wp_getProc, setProc_self, hround, wp_mach, setProc_mach]
  generalize hs0 : s.setProc i _ = s0 at h0 a0 ⊢
  have hs0i : s0.proc i = { s.proc i with newsz := npages (s.proc i).newsz * pgsize } := by
    rw [← hs0, setProc_self]
  have hset0 : ImageSet s i s0 := ⟨_, _, by rw [← hs0]; rfl⟩
  have hm0 : s0.mach = s.mach := by rw [← hs0]; rfl
  have hback : s0.abs.abort i = s.abs.abort i := by rw [a0, abort_setProc]
  have hnew0 : (s0.proc i).newtable ≠ 0 := by rw [hs0i]; exact hnew
  have hsz0 : max (s0.proc i).newsz ((s0.proc i).newsz + 2 * pgsize) =
      npages (s.proc i).newsz * pgsize + 2 * pgsize := by
    rw [Nat.max_eq_right (Nat.le_add_right _ _), hs0i]
  suffices hgoal : wp (uvmalloc (s0.proc i).newtable (s0.proc i).newsz
      ((s0.proc i).newsz + 2 * pgsize)) E s0.mach _ by
    rw [hs0i, hm0] at hgoal
    exact hgoal
  apply h0.wp_uvmalloc hnew0
  · intro m own' h1 a1 hlow
    rw [if_pos rfl, wp_pure]
    refine Or.inl ⟨rfl, ?_, hset0.trans ImageSet.of_setMach, a1.trans hback, ⟨own', h1⟩, ?_⟩
    · rw [setMach_proc, hs0i]
    · have hpages : npages ((s0.proc i).newsz + 2 * pgsize) = npages (s0.proc i).newsz + 2 := by
        rw [hs0i]
        dsimp only
        rw [← Nat.add_mul, npages_mul, npages_mul]
      have hbound := hlow (by rw [hsz0]; simp [pgsize])
      rw [hpages, hm0] at hbound
      omega
  · intro m own' s1 hs1 hret h1 a1
    rw [if_neg hret]
    have hs1i : s1.proc i = { s.proc i with
        newsz := npages (s.proc i).newsz * pgsize + 2 * pgsize } := by
      rw [hs1, setProc_self, hsz0, hs0i]
    have hnew1 : (s1.proc i).newtable ≠ 0 := by rw [hs1i]; exact hnew
    have hset1 : ImageSet s i s1 := hset0.trans ⟨_, _, by rw [hs1]; rfl⟩
    simp only [wp_bind, wp_setProc, setMach_proc]
    rw [← hs1, wp_mach]
    suffices hgoal : wp (execStack (s1.proc i).newtable (s1.proc i).newsz (s1.proc i).argv) E
        s1.mach _ by
      rw [hs1i] at hgoal
      rw [hsz0]
      exact hgoal
    apply wp_mono (h1.wp_execStack hnew1 (k := npages (s.proc i).newsz) (by rw [hs1i]))
    rintro res m' ⟨V, he, hdom, hguard, hsome, hnone⟩
    have habs : s1.abs = s.abs.setProc i { s.abs.proc i with
        image := some (growSpace (spaceOf s.mach (s.proc i).newtable)
          (npages (s.proc i).newsz * pgsize) (s1.proc i).newsz)
        imageSz := (s1.proc i).newsz } := by
      rw [a1, a0, hs1i, hsz0, hs0i, hm0]
      simp [Ref.setProc]
    have hargs : (s1.abs.proc i).args = (s.abs.proc i).args := by
      rw [habs]
      simp [Ref.setProc]
    rw [hargs] at hsome hnone
    exact Or.inr ⟨s1, own', V, h1, hset1, by rw [hs1i], by rw [hs1i], habs, rfl, he, hdom, hguard,
      hsome, hnone⟩

/-- The process starts with the new image and without the arguments. -/
theorem wp_execInstall (hc : Caller s₀ i) (hnew : (s.proc i).newtable ≠ 0)
    (he : Effect (s.proc i).newtable s.mach own m own' V)
    (hV : ∀ w, w < userPages → (V w = none ↔ view s.mach (s.proc i).newtable w = none))
    {entry sp : ℕ} :
    wp (execInstall i entry sp) E (s.setMach m) fun _ t => SysOk t ∧
      t.abs = s.abs.setProc i { s.abs.proc i with
        sz := (s.proc i).newsz, space := clip V, inExec := false, args := [], image := none,
        imageSz := 0 } := by
  rw [execInstall_eq, wp_bind]
  apply wp_mono (wp_commitImage hf.inv (hf.pagetable hc) (hf.trapframe hc) hnew he hV entry sp)
  rintro _ t ⟨⟨own1, h1⟩, a1⟩
  apply wp_mono h1.inv.wp_sysExecEnd
  rintro _ u ⟨own2, h2, -, hu, a2⟩
  refine ⟨⟨⟨own2, h2⟩, ?_⟩, ?_⟩
  · intro j
    rw [hu, h1.eq]
    by_cases hj : j = i
    · subst hj
      have hst : (s.proc j).state = .runnable := by
        rw [hf.proc]
        exact hc.running
      simp only [setProc_self]
      exact ⟨by simp [hst], fun _ => ⟨hc.used.1, hnew, hf.trapframe hc⟩, by simp [hst], by simp,
        by simp⟩
    · simp only [setProc_ne hj, setMach_proc]
      rw [hf.other hj]
      exact hc.ok j
  · rw [a2, a1]
    simp [Ref.setProc]

end

/-- `exec` after the last segment. -/
theorem wp_execCommit (h : SysOk s) (hex : (s.proc i).inExec = true)
    (hnew : (s.proc i).newtable ≠ 0) {entry : ℕ} :
    wp (execCommit i entry) E s fun r t => SysOk t ∧
      RefCommit s.abs i (spaceOf s.mach (s.proc i).newtable) r t.abs := by
  obtain ⟨⟨own, hinv⟩, hok⟩ := h
  have hc : Caller s i := ⟨hok, (hok i).execing hex⟩
  rw [execCommit_eq, wp_bind]
  apply wp_mono ((Framed.univ hinv).wp_stackPhase hnew)
  rintro res t (⟨rfl, -, hset, habort, ⟨own', hf⟩, -⟩ | ⟨s1, own1, V, hf, hb⟩)
  · have hex' : (t.proc i).inExec = true := hset.proc.1.trans hex
    simp only [wp_bind, wp_pure]
    apply wp_mono (wp_execFail (hf.sysOk hc (by simp [hex'])) hex')
    rintro _ u ⟨hu, ha⟩
    exact ⟨hu, Or.inr ⟨rfl, ha.trans habort⟩⟩
  have hnew1 : (s1.proc i).newtable ≠ 0 := by rw [hb.table]; exact hnew
  rw [hb.eq]
  cases res with
  | none =>
    simp only [wp_bind, wp_pure]
    apply wp_mono (wp_execBad_of_drop hc (hf.wp_dropImage hnew1 hb.effect.toEffect hb.domain))
    rintro _ u ⟨hu, ha⟩
    refine ⟨hu, Or.inr ⟨rfl, ?_⟩⟩
    rw [ha, hb.abs, abort_setProc]
  | some res =>
    obtain ⟨sp, argc⟩ := res
    simp only [wp_bind, wp_pure]
    apply wp_mono (wp_execInstall hf hc hnew1 hb.effect.toEffect hb.domain)
    rintro _ u ⟨hu, ha⟩
    have hstack := (hb.stacked sp argc rfl).buildStack
    rw [hb.space hnew, hb.size] at hstack
    refine ⟨hu, Or.inl ⟨clip V, argc, hstack, rfl, ?_⟩⟩
    · rw [ha, hb.abs, hb.size]
      simp [Ref.setProc, Sys.abs, absProc]

end image
end Xv6
