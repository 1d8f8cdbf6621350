import Xv6.Vm.StepSpec

/-! Loads, stores, `copyin`, `copyout` and `growproc` against the reference machine. -/
namespace Xv6
open Bytes Program RefCount

section machine
variable [Image] {m : Machine} {own : ℕ → Owner} {E : Panic → Prop} {r va : ℕ}

omit [Image] in
theorem lt_maxva_of_page (h : va / pgsize < userPages) : va < maxva := by
  have hup := userPages_eq
  simp only [maxva, pgsize] at *
  omega

/-- The hardware lets the user read exactly the bytes of the user's memory. -/
theorem MemInv.translate_read (h : MemInv m own) (hr : own r = .root true) (hr0 : r ≠ 0)
    (hh : HighClosed m r) (va : ℕ) :
    (translate m.mem r va readable).map (fun pa => m.mem pa (va % pgsize)) =
      getByte (spaceOf m r) va := by
  rw [getByte_spaceOf hr0]
  unfold translate
  by_cases hc : va < maxva ∧ valid (leafAt (entry m.mem) r (va / pgsize)) = true ∧
      user (leafAt (entry m.mem) r (va / pgsize)) = true ∧
      readable (leafAt (entry m.mem) r (va / pgsize)) = true
  · rw [if_pos hc, if_pos (hh.lt hc.1 hc.2.2.1)]
    simp [getByte, view, hc.2.1, hc.2.2.1]
  · rw [if_neg hc]
    by_cases hlt : va / pgsize < userPages
    · rw [if_pos hlt, getByte, view]
      by_cases hval : valid (leafAt (entry m.mem) r (va / pgsize)) = true
      · have hread := (h.sharing.flags (r, va / pgsize) _
          (refs_eq_some.mpr ⟨hr, hlt, hval, rfl⟩)).1
        have huser : user (leafAt (entry m.mem) r (va / pgsize)) ≠ true := fun hu =>
          hc ⟨lt_maxva_of_page hlt, hval, hu, hread⟩
        simp [hval, huser]
      · simp [hval]
    · rw [if_neg hlt]
      rfl

/-- A store goes through exactly when the page is private. -/
theorem wp_storeByte (h : MemInv m own) (hr : own r = .root true) (hh : HighClosed m r)
    {b : UInt8} {Q : Bool → Machine → Prop}
    (hok : ∀ t, va / pgsize < userPages → Private m r (va / pgsize) →
      Effect r m own t own (putBytes (view m r) va [b]) → t.freelist = m.freelist → Q true t)
    (hfault : ¬(va < maxva ∧ Private m r (va / pgsize)) → Q false m) :
    wp (storeByte r va b) E m Q := by
  unfold storeByte translate
  simp only [wp_bind, wp_get]
  by_cases hc : va < maxva ∧ valid (leafAt (entry m.mem) r (va / pgsize)) = true ∧
      user (leafAt (entry m.mem) r (va / pgsize)) = true ∧
      writable (leafAt (entry m.mem) r (va / pgsize)) = true
  · rw [if_pos hc]
    simp only [wp_bind, wp_set, wp_pure]
    have hlt := hh.lt hc.1 hc.2.2.1
    have hmod : va % pgsize < pgsize := Nat.mod_lt _ (by decide)
    exact hok _ hlt hc.2 (h.writePrivate hr hlt hc.2 rfl (by simpa using hmod)) rfl
  · rw [if_neg hc]
    simp only [wp_pure]
    exact hfault hc

/-- A store that `cowalloc` does not help is to a page the user has no access to, or there is
no memory for a copy. -/
theorem MemInv.refused (h : MemInv m own) (hr : own r = .root true) (hr0 : r ≠ 0)
    (hfault : ¬(va < maxva ∧ Private m r (va / pgsize))) (hc : CowRefused m r va) :
    getByte (spaceOf m r) va = none ∨ m.freelist = [] := by
  rw [or_iff_not_imp_left]
  intro hbyte
  unfold getByte spaceOf at hbyte
  by_cases hlt : va / pgsize < userPages
  · rw [if_pos ⟨hr0, hlt⟩, view] at hbyte
    have hmax := lt_maxva_of_page hlt
    by_cases hvu : valid (leafAt (entry m.mem) r (va / pgsize)) = true ∧
        user (leafAt (entry m.mem) r (va / pgsize)) = true
    · have hflags := (h.sharing.flags (r, va / pgsize) _
        (refs_eq_some.mpr ⟨hr, hlt, hvu.1, rfl⟩)).2 hvu.2
      rcases hc with hge | hno | hnil
      · omega
      · have hcow : cow (leafAt (entry m.mem) r (va / pgsize)) ≠ true := fun hcow =>
          hno ⟨hvu.1, hvu.2, hcow⟩
        exact absurd ⟨hmax, hvu.1, hvu.2, hflags.mpr (by simpa using hcow)⟩ hfault
      · exact hnil
    · exfalso
      by_cases hval : valid (leafAt (entry m.mem) r (va / pgsize)) = true
      · have hno : user (leafAt (entry m.mem) r (va / pgsize)) = false := by
          simpa [hval] using hvu
        simp [hval, hno] at hbyte
      · simp [hval] at hbyte
  · rw [if_neg (fun hand => hlt hand.2)] at hbyte
    simp at hbyte

omit [Image] in
theorem Private.getByte {V : Space} (h : Private m r (va / pgsize)) (hlt : va / pgsize < userPages)
    (hV : V (va / pgsize) = view m r (va / pgsize)) :
    getByte (clip V) va ≠ none := by
  obtain ⟨hval, huser, -⟩ := h
  simp [Xv6.getByte, clip, hlt, hV, view, hval, huser]

end machine

section copies
variable {V : Space}

theorem getByte_ne_none {a : ℕ} :
    getByte V a ≠ none ↔ ∃ pg, V (a / pgsize) = some pg ∧ pg.user = true := by
  unfold getByte
  cases hV : V (a / pgsize) with
  | none => simp
  | some pg => by_cases hu : pg.user = true <;> simp [hu]

theorem spaceOf_lt {m : Machine} {r w : ℕ} {pg : UPage} (h : spaceOf m r w = some pg) :
    w < userPages := by
  by_contra hge
  rw [spaceOf, if_neg (by tauto)] at h
  cases h

theorem readSpace_eq_some {va n : ℕ} {bs : List UInt8} (hlen : bs.length = n)
    (h : ∀ i, i < n → getByte V (va + i) = bs[i]?) : readSpace V va n = some bs := by
  induction n generalizing va bs with
  | zero =>
    rw [List.length_eq_zero_iff.mp hlen]
    rfl
  | succ n ih =>
    obtain ⟨b, bs, rfl⟩ := List.exists_cons_of_length_eq_add_one hlen
    have h0 := h 0 (by omega)
    simp only [Nat.add_zero, List.getElem?_cons_zero] at h0
    have hrest : readSpace V (va + 1) n = some bs := ih (by simpa using hlen) (by
      intro i hi
      have := h (i + 1) (by omega)
      rw [List.getElem?_cons_succ] at this
      rw [show va + 1 + i = va + (i + 1) by omega, this])
    simp [readSpace, h0, hrest]

theorem readSpace_eq_none {va n : ℕ} (h : ∃ i, i < n ∧ getByte V (va + i) = none) :
    readSpace V va n = none := by
  induction n generalizing va with
  | zero =>
    obtain ⟨i, hi, -⟩ := h
    omega
  | succ n ih =>
    rw [readSpace]
    cases hb : getByte V va with
    | none => rfl
    | some b =>
      obtain ⟨i, hi, hnone⟩ := h
      obtain _ | i := i
      · rw [Nat.add_zero, hb] at hnone
        cases hnone
      · have hrest : readSpace V (va + 1) n = none := ih ⟨i, by omega, by
          rw [show va + 1 + i = va + (i + 1) by omega, hnone]⟩
        simp [hrest]

theorem npages_le_userPages {n : ℕ} (h : n ≤ 2 ^ 27) : npages n ≤ userPages := by
  have hup := userPages_eq
  simp only [npages, pgsize]
  omega

theorem clip_growSpace {a b : ℕ} (hb : b ≤ 2 ^ 27) :
    clip (growSpace V a b) = growSpace (clip V) a b := by
  have hle := npages_le_userPages hb
  funext w
  by_cases hw : w < userPages
  · simp [clip, growSpace, hw]
  · simp only [clip, growSpace, if_neg hw]
    rw [if_neg (by omega)]

theorem clip_shrinkSpace {a b : ℕ} :
    clip (shrinkSpace V a b) = shrinkSpace (clip V) a b := by
  funext w
  by_cases hw : w < userPages <;> simp [clip, shrinkSpace, hw]

/-- Pages that are mapped after a space has grown. -/
theorem MapsBelow.grow {m : Machine} {r a b : ℕ} (h : MapsBelow m r (npages a)) (hab : a ≤ b) :
    ∀ w, w < userPages → (growSpace (view m r) a b w ≠ none ↔ w < npages b) := by
  intro w hw
  have hmono := npages_mono hab
  have hm := h w hw
  unfold growSpace
  by_cases hin : npages a ≤ w ∧ w < npages b
  · rw [if_pos hin]
    simp [hin.2]
  · rw [if_neg hin, hm]
    omega

theorem MapsBelow.shrink {m : Machine} {r a b : ℕ} (h : MapsBelow m r (npages a)) (hab : b ≤ a) :
    ∀ w, w < userPages → (shrinkSpace (view m r) a b w ≠ none ↔ w < npages b) := by
  intro w hw
  have hmono := npages_mono hab
  have hm := h w hw
  unfold shrinkSpace
  by_cases hin : npages b ≤ w ∧ w < npages a
  · rw [if_pos hin]
    simp
    omega
  · rw [if_neg hin, hm]
    omega

theorem le_of_npages {n : ℕ} (h : npages n ≤ 2 ^ 15) : n ≤ 2 ^ 27 := by
  simp only [npages, pgsize] at h
  omega

theorem Ref.setSpace_self (s : Ref) (i : ℕ) : s.setSpace i (s.proc i).space = s := by
  simp [Ref.setSpace, Ref.setProc]

end copies

section operations
variable [Image] {s : Sys} {E : Panic → Prop} {i va : ℕ}

theorem wp_userLoad (h : SysOk s) (hrun : Running (s.proc i))
    (hE : s.initproc = some i → E .initExiting) :
    wp (userLoad i va) E s fun r t => SysOk t ∧
      match getByte (s.abs.proc i).space va with
      | some b => r = some b ∧ t.abs = s.abs
      | none => r = none ∧ t.abs = s.abs.exit i (2 ^ 32 - 1) := by
  obtain ⟨⟨own, hinv⟩, hok⟩ := h
  obtain ⟨hr0, hr, -, hs⟩ := hinv.running (hok i) hrun.1
  have hread := hinv.mem.translate_read hr hr0 hs.highClosed va
  unfold userLoad loadByte
  simp only [wp_bind, wp_getProc, wp_mach, wp_get, wp_pure, hread, Sys.abs, absProc]
  cases getByte (spaceOf s.mach (s.proc i).pagetable) va with
  | some b =>
    simp only [wp_pure]
    exact ⟨⟨⟨own, hinv⟩, hok⟩, trivial, rfl⟩
  | none =>
    simp only [wp_bind, wp_pure, true_and]
    exact wp_exit ⟨⟨own, hinv⟩, hok⟩ hrun hE

/-- A store by the user: private pages are written, shared ones are copied first. -/
theorem wp_userStore (h : SysOk s) (hrun : Running (s.proc i))
    (hE : s.initproc = some i → E .initExiting) {b : UInt8} :
    wp (userStore i va b) E s fun ok t => SysOk t ∧
      ((ok = true ∧ getByte (s.abs.proc i).space va ≠ none ∧
        t.abs = s.abs.setSpace i (putBytes (s.abs.proc i).space va [b])) ∨
      (ok = false ∧ (getByte (s.abs.proc i).space va = none ∨ s.mach.freelist = []) ∧
        t.abs = s.abs.exit i (2 ^ 32 - 1))) := by
  obtain ⟨⟨own, hinv⟩, hok⟩ := h
  obtain ⟨hr0, hr, -, hs⟩ := hinv.running (hok i) hrun.1
  -- the write itself, from any state that shows the same memory
  have hwrite : ∀ m own', Effect (s.proc i).pagetable s.mach own m own'
      (view s.mach (s.proc i).pagetable) → va / pgsize < userPages →
      Private m (s.proc i).pagetable (va / pgsize) → ∀ t,
      Effect (s.proc i).pagetable m own' t own'
        (putBytes (view m (s.proc i).pagetable) va [b]) →
      SysOk (s.setMach t) ∧ getByte (s.abs.proc i).space va ≠ none ∧
        (s.setMach t).abs = s.abs.setSpace i (putBytes (s.abs.proc i).space va [b]) := by
    intro m own' e₁ hlt hp t e₂
    have e : Effect (s.proc i).pagetable s.mach own t own'
        (putBytes (view s.mach (s.proc i).pagetable) va [b]) :=
      (e₁.trans e₂).congr fun w hw => putBytes_congr (e₁.view w hw) va [b]
    obtain ⟨h1, h2⟩ := SysOk.spaceEffect hinv hok hrun e hs.maps.putBytes
    rw [spaceOf_putBytes hr0] at h2
    refine ⟨h1, ?_, h2⟩
    have hbyte := hp.getByte hlt (V := view s.mach (s.proc i).pagetable) (e₁.view _ hlt).symm
    rwa [clip_view hr0] at hbyte
  unfold userStore
  simp only [wp_bind, wp_getProc, wp_mach]
  apply wp_storeByte hinv.mem hr hs.highClosed
  · intro t hlt hp e _
    obtain ⟨h1, h2, h3⟩ := hwrite _ _ (Effect.refl hinv.mem hr) hlt hp t e
    simp only [if_true, wp_pure]
    exact ⟨h1, Or.inl ⟨trivial, h2, h3⟩⟩
  · intro hfault
    simp only [Bool.false_eq_true, if_false, wp_bind, wp_mach]
    apply wp_mono (wp_cowalloc hinv.mem hr hs.highClosed)
    rintro ok m (⟨rfl, rfl, hrefused⟩ | ⟨rfl, hlt, hp, own', e₁⟩)
    · simp only [Bool.false_eq_true, if_false, wp_bind]
      apply wp_mono (wp_exit ⟨⟨own, hinv⟩, hok⟩ hrun hE)
      rintro _ t ⟨h1, h2⟩
      rw [wp_pure]
      exact ⟨h1, Or.inr ⟨rfl, hinv.mem.refused hr hr0 hfault hrefused, h2⟩⟩
    · -- the store runs again and finds the page private
      simp only [if_true, wp_mach]
      apply wp_storeByte e₁.inv e₁.root (e₁.highClosed hs.highClosed)
      · intro t hlt' hp' e₂ _
        obtain ⟨h1, h2, h3⟩ := hwrite m own' e₁ hlt' hp' t e₂
        exact ⟨h1, Or.inl ⟨rfl, h2, h3⟩⟩
      · intro hno
        exact absurd ⟨lt_maxva_of_page hlt, hp⟩ hno

/-- `copyin` reads the user memory behind a table. -/
theorem wp_copyin_space {m : Machine} {own : ℕ → Owner} {r len : ℕ} (h : MemInv m own)
    (hr : own r = .root true) (hr0 : r ≠ 0) (hh : HighClosed m r) :
    wp (copyin r va len) E m fun res t => t = m ∧ res = readSpace (spaceOf m r) va len := by
  apply wp_mono (wp_copyin h hr hh)
  rintro res m ⟨rfl, hres⟩
  refine ⟨rfl, ?_⟩
  cases res with
  | some bs =>
    obtain ⟨hlen, hrange, hbytes⟩ := hres
    symm
    apply readSpace_eq_some hlen
    intro k hk
    rw [← hbytes k hk]
    exact (getByte_spaceOf hr0).trans (if_pos (hrange k hk).1)
  | none =>
    symm
    apply readSpace_eq_none
    rw [userRange_spaceOf hr0] at hres
    simp only [UserRange, not_forall] at hres
    obtain ⟨k, hk, hno⟩ := hres
    refine ⟨k, hk, ?_⟩
    by_contra hne
    obtain ⟨pg, hpg, hu⟩ := getByte_ne_none.mp hne
    exact hno ⟨spaceOf_lt hpg, pg, hpg, hu⟩

theorem wp_sysCopyin (h : SysOk s) (hrun : Running (s.proc i)) {len : ℕ} :
    wp (mach (copyin (s.proc i).pagetable va len)) E s fun r t => t = s ∧
      r = readSpace (s.abs.proc i).space va len := by
  obtain ⟨⟨own, hinv⟩, hok⟩ := h
  obtain ⟨hr0, hr, -, hs⟩ := hinv.running (hok i) hrun.1
  rw [wp_mach]
  apply wp_mono (wp_copyin_space hinv.mem hr hr0 hs.highClosed)
  rintro r m ⟨rfl, hres⟩
  exact ⟨rfl, hres⟩

theorem wp_sysCopyout (h : SysOk s) (hrun : Running (s.proc i)) {src : List UInt8} :
    wp (mach (copyout (s.proc i).pagetable va src)) E s fun ok t => SysOk t ∧
      (∃ m, t = s.setMach m) ∧ RefCopyout s.abs i va src ok t.abs := by
  obtain ⟨⟨own, hinv⟩, hok⟩ := h
  obtain ⟨hr0, hr, -, hs⟩ := hinv.running (hok i) hrun.1
  rw [wp_mach]
  apply wp_mono (wp_copyout hinv.mem hr hs.highClosed)
  rintro ok m ⟨own', n, hn, hall, hrange, e, -⟩
  obtain ⟨h1, h2⟩ := SysOk.spaceEffect hinv hok hrun e hs.maps.putBytes
  rw [spaceOf_putBytes hr0] at h2
  exact ⟨h1, ⟨m, rfl⟩, n, hn, hall, (userRange_spaceOf hr0).mp hrange, h2⟩

/-- What `growproc` does to the table of its process: it adds pages of zeros or takes pages
away. A request to shrink below zero is ignored, and without memory nothing is mapped. -/
inductive GrowEffect (s : Sys) (own : ℕ → Owner) (i : ℕ) (n : ℤ) : Bool → Sys → Prop
  | grew {m : Machine} {own' : ℕ → Owner} {newsz : ℕ} (hn : 0 < n)
      (hnew : ((s.proc i).sz : ℤ) + n = newsz) (hle : newsz ≤ 2 ^ 27)
      (he : EffectOn (Set.Ici (npages (s.proc i).sz)) (s.proc i).pagetable s.mach own m own'
        (growSpace (view s.mach (s.proc i).pagetable) (s.proc i).sz newsz)) :
      GrowEffect s own i n true ((s.setMach m).setProc i { s.proc i with sz := newsz })
  | shrank {m : Machine} {own' : ℕ → Owner} {newsz : ℕ} (hn : n < 0)
      (hnew : ((s.proc i).sz : ℤ) + n = newsz)
      (he : EffectOn (Set.Ici (npages newsz)) (s.proc i).pagetable s.mach own m own'
        (shrinkSpace (view s.mach (s.proc i).pagetable) (s.proc i).sz newsz)) :
      GrowEffect s own i n true ((s.setMach m).setProc i { s.proc i with sz := newsz })
  | ignored (hn : n = 0 ∨ ((s.proc i).sz : ℤ) + n < 0) : GrowEffect s own i n true s
  | failed {m : Machine} {own' : ℕ → Owner} (hn : 0 < n)
      (he : EffectOn (Set.Ici (npages (s.proc i).sz)) (s.proc i).pagetable s.mach own m own'
        (view s.mach (s.proc i).pagetable)) : GrowEffect s own i n false (s.setMach m)

/-- `growproc` with any `int` argument. -/
theorem wp_growproc_effect {own : ℕ → Owner} (hinv : SysInv s.mach s.inventory own)
    (hok : ∀ j, ProcOk j (s.proc j)) (hrun : Running (s.proc i)) {n : ℤ} (hlo : -2 ^ 31 ≤ n)
    (hhi : n < 2 ^ 31) : wp (growproc i n) E s fun ok t => GrowEffect s own i n ok t := by
  obtain ⟨hr0, hr, hsz, hs⟩ := hinv.running (hok i) hrun.1
  have hmod : (s.proc i).sz % 2 ^ 32 = (s.proc i).sz := Nat.mod_eq_of_lt (by omega)
  have hup := npages_le_userPages hsz
  have hsame : s.setProc i { s.proc i with sz := (s.proc i).sz } = s := setProc_same (m := s.mach)
  unfold growproc
  simp only [wp_bind, wp_getProc, hmod]
  rcases lt_trichotomy 0 n with hpos | rfl | hneg
  · obtain ⟨newsz, hnew⟩ := Int.eq_ofNat_of_zero_le (show 0 ≤ ((s.proc i).sz : ℤ) + n by omega)
    have hwrap : (((s.proc i).sz + n) % 2 ^ 32).toNat = newsz := by omega
    rw [if_pos hpos, hwrap]
    simp only [wp_bind, wp_mach]
    apply wp_mono (wp_uvmalloc hinv.mem hr hup hs.maps)
    rintro ret m ⟨own', ⟨hret, hle, -, he⟩ | ⟨rfl, -, he⟩⟩
    · obtain rfl : ret = newsz := by omega
      have hle' := le_of_npages hle
      rw [Nat.mod_eq_of_lt (show ret < 2 ^ 32 by omega), if_neg (by omega)]
      simp only [wp_bind, wp_setProc, wp_pure, setMach_proc]
      exact .grew hpos hnew hle' he
    · rw [if_pos (by simp), wp_pure]
      exact .failed hpos he
  · rw [if_neg (lt_irrefl _), if_neg (lt_irrefl _)]
    simp only [wp_bind, wp_setProc, wp_pure]
    rw [hsame]
    exact .ignored (Or.inl rfl)
  · rw [if_neg (by omega), if_pos hneg]
    simp only [wp_bind, wp_mach]
    by_cases hfit : 0 ≤ ((s.proc i).sz : ℤ) + n
    · obtain ⟨newsz, hnew⟩ := Int.eq_ofNat_of_zero_le hfit
      have hwrap : (((s.proc i).sz + n) % 2 ^ 32).toNat = newsz := by omega
      have hnp : npages (s.proc i).sz ≤ 2 ^ 15 := by
        simp only [npages, pgsize]
        omega
      rw [hwrap]
      apply wp_mono (wp_uvmdealloc hinv.mem hr hnp fun v hv => (hs.maps v (by omega)).mpr hv)
      rintro ret m ⟨rfl, own', he⟩
      rw [min_eq_right (by omega), Nat.mod_eq_of_lt (show newsz < 2 ^ 32 by omega)]
      simp only [wp_setProc, wp_pure, setMach_proc]
      exact .shrank hneg hnew he
    · -- the new size wraps around and is larger than the old one
      have hwrap : (s.proc i).sz ≤ (((s.proc i).sz + n) % 2 ^ 32).toNat := by omega
      rw [uvmdealloc, if_pos hwrap, wp_pure, hmod]
      simp only [wp_setProc, wp_pure, setMach_proc]
      exact hsame.symm ▸ .ignored (Or.inr (by omega))

/-- The reference machine sees what `growproc` does. -/
theorem wp_growproc (h : SysOk s) (hrun : Running (s.proc i)) {n : ℤ} (hlo : -2 ^ 31 ≤ n)
    (hhi : n < 2 ^ 31) :
    wp (growproc i n) E s fun ok t => SysOk t ∧ RefGrow s.abs i n ok t.abs := by
  obtain ⟨⟨own, hinv⟩, hok⟩ := h
  obtain ⟨hr0, -, hsz, hs⟩ := hinv.running (hok i) hrun.1
  have habs : (s.abs.proc i).sz = (s.proc i).sz := rfl
  have hspace : (s.abs.proc i).space = spaceOf s.mach (s.proc i).pagetable := rfl
  apply wp_mono (wp_growproc_effect hinv hok hrun hlo hhi)
  rintro ok t hgrow
  unfold RefGrow
  simp only [habs, hspace]
  cases hgrow with
  | grew hn hnew hle he =>
    obtain ⟨h1, h2⟩ := SysOk.mainEffect hinv hok hrun he.toEffect hle (hs.maps.grow (by omega))
    refine ⟨h1, ?_⟩
    rw [if_pos hn, hnew, Int.toNat_natCast, h2, clip_growSpace hle, clip_view hr0]
    exact Or.inl ⟨rfl, rfl⟩
  | shrank hn hnew he =>
    obtain ⟨h1, h2⟩ := SysOk.mainEffect hinv hok hrun he.toEffect (by omega)
      (hs.maps.shrink (by omega))
    refine ⟨h1, ?_⟩
    rw [if_neg (by omega), h2, clip_shrinkSpace, clip_view hr0]
    rw [if_pos ⟨hn, by omega⟩, hnew, Int.toNat_natCast]
    exact ⟨rfl, rfl⟩
  | ignored hn =>
    refine ⟨⟨⟨own, hinv⟩, hok⟩, ?_⟩
    rw [if_neg (by omega), if_neg (by omega)]
    exact ⟨rfl, rfl⟩
  | failed hn he =>
    obtain ⟨h1, h2⟩ := SysOk.spaceEffect hinv hok hrun he.toEffect hs.maps
    refine ⟨h1, ?_⟩
    rw [if_pos hn, h2, clip_view hr0]
    exact Or.inr ⟨rfl, Ref.setSpace_self s.abs i⟩

end operations
end Xv6
