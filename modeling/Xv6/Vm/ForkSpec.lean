import Xv6.Vm.CopySpec

/-! `uvmcopy`: the child maps the pages of its parent, both see the same bytes, and neither can
write to a page that the other one maps. -/
namespace Xv6
open Bytes Program RefCount

section fork
variable [Image] {s t : Machine} {own own' : ℕ → Owner} {E : Panic → Prop} {old new n : ℕ}

/-- An entry that is as it was, or that has lost its write access to copy-on-write. -/
def Downgraded (pte pte' : Pte) : Prop :=
  pte' = pte ∨ (writable pte = true ∧ user pte = true ∧
    pte' = pa2pte (pte2pa pte) ||| shareFlags (pteFlags pte))

omit [Image] in
theorem Downgraded.trans {a b c : Pte} (h : Downgraded a b) (h' : Downgraded b c) :
    Downgraded a c := by
  rcases h with rfl | ⟨hw, hu, hb⟩
  · exact h'
  · rcases h' with rfl | ⟨hw', -⟩
    · exact Or.inr ⟨hw, hu, hb⟩
    · rw [hb, writable_pa2pte_or, (shareFlags_bits a).2.2.2.1] at hw'
      cases hw'

omit [Image] in
/-- Only write access is lost. -/
theorem Downgraded.kept {pte pte' : Pte} (h : Downgraded pte pte') :
    valid pte' = valid pte ∧ user pte' = user pte ∧ pte2pa pte' = pte2pa pte := by
  rcases h with rfl | ⟨-, -, rfl⟩
  · exact ⟨rfl, rfl, rfl⟩
  · obtain ⟨bval, -, buser, -, -⟩ := shareFlags_bits pte
    refine ⟨by simp [bval], by simp [buser], ?_⟩
    exact pte2pa_or (pte2pa_aligned pte) (pte2pa_lt pte) (flagBits_shareFlags pte)

/-- The first `n` pages of `old` have been shared with `new`. -/
structure Copying (old new : ℕ) (s : Machine) (own : ℕ → Owner) (t : Machine)
    (own' : ℕ → Owner) (n : ℕ) : Prop where
  inv : MemInv t own'
  keeps : KeepsBut {new} {old, new} ∅ s own t own'
  rootOld : own' old = .root true
  rootNew : own' new = .root true
  viewOld : ∀ v, v < userPages → view t old v = view s old v
  viewNew : ∀ v, v < userPages → view t new v = if v < n then view s old v else none
  entries : ∀ v, v < userPages → Downgraded (leafAt (entry s.mem) old v) (leafAt (entry t.mem) old v)
  same : ∀ v, v < n → v < userPages →
    pte2pa (leafAt (entry t.mem) new v) = pte2pa (leafAt (entry t.mem) old v)
  highOld : ∀ v, userPages ≤ v → v < 2 ^ 27 →
    leafAt (entry t.mem) old v = leafAt (entry s.mem) old v
  highNew : ∀ v, userPages ≤ v → v < 2 ^ 27 →
    leafAt (entry t.mem) new v = leafAt (entry s.mem) new v

section
variable (c : Copying old new s own t own' n)
include c

theorem Copying.changed : Keeps {old, new} ∅ s own t own' :=
  c.keeps.weaken (by simp) le_rfl le_rfl

omit c in
theorem Copying.start (h : MemInv s own) (hold : own old = .root true)
    (hnew : own new = .root true) (hempty : ∀ v, v < userPages → view s new v = none) :
    Copying old new s own s own 0 where
  inv := h
  keeps := KeepsBut.refl _ _ _ _ _
  rootOld := hold
  rootNew := hnew
  viewOld := fun _ _ => rfl
  viewNew := fun v hv => by rw [hempty v hv, if_neg (by omega)]
  entries := fun _ _ => Or.inl rfl
  same := fun v hv => absurd hv (by omega)
  highOld := fun _ _ _ => rfl
  highNew := fun _ _ _ => rfl

/-- The flags that the child gets and the entry that the parent keeps: neither may write. -/
structure Shared (pte fl : Pte) : Prop where
  bits : FlagBits fl
  readable : readable fl = true
  user : user fl = user pte
  flags : Xv6.user fl = true → (writable fl = true ↔ cow fl = false)
  closed : ¬(Xv6.user fl = true ∧ writable fl = true)

omit c in
/-- The parent's entry after `shareEntry`: the same page, without write access. -/
theorem wp_shareEntry (h : MemInv t own') {q v pa : ℕ}
    (hq : own' q = .low old (ix2 v) (ix1 v)) (hk : refs (entry t.mem) own' (old, v) = some pa)
    {Q : Pte → Machine → Prop}
    (hpost : ∀ fl t', EffectOn {v} old t own' t' own' (view t old) →
      Downgraded (leafAt (entry t.mem) old v) (leafAt (entry t'.mem) old v) →
      Shared (leafAt (entry t.mem) old v) fl →
      pte2pa (leafAt (entry t'.mem) old v) = pa →
      ¬(user (leafAt (entry t'.mem) old v) = true ∧
        writable (leafAt (entry t'.mem) old v) = true) →
      (∀ r' v', (r', v') ≠ (old, v) → refs (entry t.mem) own' (r', v') ≠ none →
        leafAt (entry t'.mem) r' v' = leafAt (entry t.mem) r' v') →
      t'.freelist = t.freelist → Q fl t') :
    wp (shareEntry q (ix0 v) (leafAt (entry t.mem) old v)) E t Q := by
  obtain ⟨hr, hv, hval, hpa⟩ := refs_eq_some.mp hk
  obtain ⟨hread, hfl⟩ := h.sharing.flags (old, v) pa hk
  dsimp only at hread hfl
  unfold shareEntry
  by_cases hwu : writable (leafAt (entry t.mem) old v) = true ∧
      user (leafAt (entry t.mem) old v) = true
  · rw [if_pos (by rw [and_wu]; exact hwu)]
    simp only [wp_bind, wp_writePte, wp_pure]
    obtain ⟨bval, bread, buser, bwr, bcow⟩ := shareFlags_bits (leafAt (entry t.mem) old v)
    have hfb := flagBits_shareFlags (leafAt (entry t.mem) old v)
    have hpage : Page pa := h.tree.page pa (by simp [h.target hk])
    have hpa' := hpage.pte2pa_or hfb
    rw [hpa]
    obtain ⟨h1, k1, l1⟩ := h.setFlags hq hk hpa'
      (by simp [bval, hval]) (by simp [bread, hread]) (by simp [bwr, bcow]) (by simp [bwr])
    have hmem : ∀ v' p, refs (entry t.mem) own' (old, v') = some p → (t.setEntry q (ix0 v)
        (pa2pte pa ||| shareFlags (pteFlags (leafAt (entry t.mem) old v)))).mem p = t.mem p :=
      fun v' p hk' => setEntry_mem_of_plain hq (h.target hk') rfl
    have hself := l1 old true v hr (Or.inr (hv.trans userPages_lt))
    rw [if_pos ⟨rfl, rfl⟩] at hself
    apply hpost
    · apply (EffectOn.ofLeaf h1 k1 hr hr hv l1 (fun v' p _ hk' => hmem v' p hk')).congr
      intro v' _
      by_cases hvv : v' = v
      · subst hvv
        rw [if_pos rfl, viewOf, view, if_pos hval, if_pos (by simp [bval, hval]), hpa',
          hmem v' _ hk, hpa]
        simp [buser]
      · rw [if_neg hvv]
    · exact Or.inr ⟨hwu.1, hwu.2, by rw [hself, hpa]⟩
    · exact ⟨hfb, by rw [bread, hread], buser, by simp [bwr, bcow], by simp [bwr]⟩
    · rw [hself, hpa']
    · rw [hself]
      simp [bwr]
    · intro r' v' hne hk'
      obtain ⟨p, hp⟩ := Option.ne_none_iff_exists'.mp hk'
      obtain ⟨hr', hv', -⟩ := refs_eq_some.mp hp
      rw [l1 r' true v' hr' (Or.inr (hv'.trans userPages_lt)), if_neg (by simpa using hne)]
    · rfl
  · rw [if_neg (by rw [and_wu]; exact hwu), wp_pure]
    have hbit : ∀ k, k < 10 → (pteFlags (leafAt (entry t.mem) old v)).getLsbD k =
        (leafAt (entry t.mem) old v).getLsbD k := by
      intro k hk'
      simp [getLsbD_pteFlags, hk']
    have buser : user (pteFlags (leafAt (entry t.mem) old v)) =
        user (leafAt (entry t.mem) old v) := hbit 4 (by decide)
    have bwr : writable (pteFlags (leafAt (entry t.mem) old v)) =
        writable (leafAt (entry t.mem) old v) := hbit 2 (by decide)
    have bread : readable (pteFlags (leafAt (entry t.mem) old v)) =
        readable (leafAt (entry t.mem) old v) := hbit 1 (by decide)
    have bcow : cow (pteFlags (leafAt (entry t.mem) old v)) =
        cow (leafAt (entry t.mem) old v) := hbit 8 (by decide)
    apply hpost _ t (EffectOn.refl _ h hr) (Or.inl rfl)
    · exact ⟨flagBits_pteFlags _, by rw [bread, hread], buser, by rw [buser, bwr, bcow]; exact hfl,
        by rw [buser, bwr]; exact fun hx => hwu ⟨hx.2, hx.1⟩⟩
    · exact hpa
    · exact fun hx => hwu ⟨hx.2, hx.1⟩
    · intro r' v' _ _
      rfl
    · rfl

theorem Copying.afterShare {t' : Machine} (hne : old ≠ new)
    (he : EffectOn {n} old t own' t' own' (view t old))
    (hdown : Downgraded (leafAt (entry t.mem) old n) (leafAt (entry t'.mem) old n))
    (hleaf : ∀ r' v', (r', v') ≠ (old, n) → refs (entry t.mem) own' (r', v') ≠ none →
      leafAt (entry t'.mem) r' v' = leafAt (entry t.mem) r' v')
    (hsome : ∀ v, v < n → view s old v ≠ none) : Copying old new s own t' own' n where
  inv := he.inv
  keeps := c.keeps.trans (he.keeps.sameOwner.weaken le_rfl (by simp) le_rfl)
  rootOld := c.rootOld
  rootNew := c.rootNew
  viewOld := fun v hv => (he.view v hv).trans (c.viewOld v hv)
  viewNew := fun v hv =>
    (he.keeps.view_eq (by simpa using hne.symm) c.rootNew hv).trans (c.viewNew v hv)
  entries := by
    intro v hv
    by_cases hvn : v = n
    · subst hvn
      exact (c.entries v hv).trans hdown
    · rw [he.entries v hv hvn]
      exact c.entries v hv
  same := by
    intro v hv hlt
    have hvalid : ∀ r', own' r' = .root true → view t r' v ≠ none →
        refs (entry t.mem) own' (r', v) ≠ none := by
      intro r' hr' hview hnone
      apply hview
      rw [view_eq_none_iff]
      by_contra hval
      rw [refs_eq_some.mpr ⟨hr', hlt, by simpa using hval, rfl⟩] at hnone
      cases hnone
    have hold : view t old v ≠ none := by
      rw [c.viewOld v hlt]
      exact hsome v hv
    have hnew : view t new v ≠ none := by
      rw [c.viewNew v hlt, if_pos hv]
      exact hsome v hv
    rw [hleaf new v (by simp [hne.symm]) (hvalid new c.rootNew hnew),
      hleaf old v (by simp; omega) (hvalid old c.rootOld hold)]
    exact c.same v hv hlt
  highOld := fun v hv hlt => (he.high v hv hlt).trans (c.highOld v hv hlt)
  highNew := fun v hv hlt => by
    rw [he.keeps.leaf new true v (by simpa using hne.symm) c.rootNew]
    exact c.highNew v hv hlt

theorem Copying.afterKeeps {t' : Machine} {own'' : ℕ → Owner} (h : MemInv t' own'')
    (hk : KeepsBut {new} ∅ ∅ t own' t' own'') :
    Copying old new s own t' own'' n where
  inv := h
  keeps := c.keeps.trans (hk.weaken le_rfl (Set.empty_subset _) le_rfl)
  rootOld := (hk.root old true (Set.notMem_empty _)).mpr c.rootOld
  rootNew := (hk.root new true (Set.notMem_empty _)).mpr c.rootNew
  viewOld := fun v hv =>
    (hk.view_eq (Set.notMem_empty _) c.rootOld hv).trans (c.viewOld v hv)
  viewNew := fun v hv =>
    (hk.view_eq (Set.notMem_empty _) c.rootNew hv).trans (c.viewNew v hv)
  entries := fun v hv => by
    rw [hk.leaf old true v (Set.notMem_empty _) c.rootOld]
    exact c.entries v hv
  same := fun v hv hlt => by
    rw [hk.leaf new true v (Set.notMem_empty _) c.rootNew,
      hk.leaf old true v (Set.notMem_empty _) c.rootOld]
    exact c.same v hv hlt
  highOld := fun v hv hlt =>
    (hk.leaf old true v (Set.notMem_empty _) c.rootOld).trans (c.highOld v hv hlt)
  highNew := fun v hv hlt =>
    (hk.leaf new true v (Set.notMem_empty _) c.rootNew).trans (c.highNew v hv hlt)

/-- The next page is mapped in the new table and gets a reference. -/
theorem Copying.extend (hne : old ≠ new) (hn : n < userPages) {q pa : ℕ}
    (hq : own' q = .low new (ix2 n) (ix1 n)) (hempty : leafAt (entry t.mem) new n = 0#64)
    (hk : refs (entry t.mem) own' (old, n) = some pa)
    (hclosed : ¬(user (leafAt (entry t.mem) old n) = true ∧
      writable (leafAt (entry t.mem) old n) = true)) {fl : Pte}
    (hfl : Shared (leafAt (entry t.mem) old n) fl) (hsome : ∀ v, v < n → view s old v ≠ none) :
    Copying old new s own ((t.setEntry q (ix0 n) (pa2pte pa ||| fl ||| pteV)).setCount (idx pa)
      (t.count (idx pa) + 1)) own' (n + 1) := by
  obtain ⟨-, -, hval, hpa⟩ := refs_eq_some.mp hk
  have hp := c.inv.target hk
  have hpage : Page pa := c.inv.tree.page pa (by simp [hp])
  have hor : ∀ k, 0 < k → (fl ||| pteV).getLsbD k = fl.getLsbD k := by
    intro k hk'
    simp [pteV, show k ≠ 0 by omega]
  have bval : valid (fl ||| pteV) = true := by
    simp [valid, pteV]
  have bread : readable (fl ||| pteV) = readable fl := hor 1 (by decide)
  have buser : user (fl ||| pteV) = user fl := hor 4 (by decide)
  have bwr : writable (fl ||| pteV) = writable fl := hor 2 (by decide)
  have bcow : cow (fl ||| pteV) = cow fl := hor 8 (by decide)
  have hfb : FlagBits (fl ||| pteV) := hfl.bits.or flagBits_pteV
  -- a second place with write access would be the only reference, but `old` has one as well
  have hprot : ∀ r' v', refs (entry t.mem) own' (r', v') = some pa →
      ¬(user (leafAt (entry t.mem) r' v') = true ∧ writable (leafAt (entry t.mem) r' v') = true) := by
    rintro r' v' hk' ⟨hu, hw⟩
    have hone := c.inv.sharing.sole (r', v') pa hk' hu hw
    obtain ⟨rfl, rfl⟩ := Prod.mk.inj (unique_of_refCount_eq_one hone hk' hk)
    exact hclosed ⟨hu, hw⟩
  have hinj : ∀ v', refs (entry t.mem) own' (new, v') ≠ some pa := by
    intro v' hk'
    obtain ⟨-, hv', hval', hpa'⟩ := refs_eq_some.mp hk'
    by_cases hlt : v' < n
    · have hold : valid (leafAt (entry t.mem) old v') = true := by
        by_contra hno
        apply hsome v' hlt
        rw [← c.viewOld v' hv', view_eq_none_iff]
        simpa using hno
      have hk'' : refs (entry t.mem) own' (old, v') = some pa :=
        refs_eq_some.mpr ⟨c.rootOld, hv', hold, by rw [← c.same v' hlt hv', hpa']⟩
      have := c.inv.sharing.inj old v' n pa hk'' hk
      omega
    · have hnone := c.viewNew v' hv'
      rw [if_neg hlt, view_eq_none_iff] at hnone
      rw [hnone] at hval'
      cases hval'
  rw [BitVec.or_assoc]
  obtain ⟨h1, k1, l1⟩ := c.inv.share hq c.rootNew hn hempty hp hfb bval (by rw [bread, hfl.readable])
    (by rw [buser, bwr, bcow]; exact hfl.flags) (by rw [buser, bwr]; exact hfl.closed) hprot hinj
  have hmem : ∀ v' p, refs (entry t.mem) own' (new, v') = some p →
      ((t.setEntry q (ix0 n) (pa2pte pa ||| (fl ||| pteV))).setCount (idx pa)
        (t.count (idx pa) + 1)).mem p = t.mem p := fun v' p hk' =>
    setEntry_mem_of_plain hq (c.inv.target hk') rfl
  have hpamem : ((t.setEntry q (ix0 n) (pa2pte pa ||| (fl ||| pteV))).setCount (idx pa)
      (t.count (idx pa) + 1)).mem pa = t.mem pa := setEntry_mem_of_plain hq hp rfl
  have he := EffectOn.ofLeaf h1 k1 c.rootNew c.rootNew hn l1 (fun v' p _ hk' => hmem v' p hk')
  have hself := l1 new true n c.rootNew (Or.inr (hn.trans userPages_lt))
  rw [if_pos ⟨rfl, rfl⟩] at hself
  have hviewOld := c.viewOld n hn
  rw [view, if_pos hval, hpa] at hviewOld
  refine ⟨h1, c.keeps.trans (k1.weaken le_rfl (by simp) le_rfl), c.rootOld, c.rootNew, ?_, ?_, ?_,
    ?_, ?_, ?_⟩
  · intro v hv
    exact (k1.view_eq (by simpa using hne) c.rootOld hv).trans (c.viewOld v hv)
  · intro v hv
    rw [he.view v hv]
    by_cases hvn : v = n
    · subst hvn
      rw [if_pos rfl, if_pos (Nat.lt_succ_self v), ← hviewOld, viewOf,
        if_pos (by simp [bval]), hpage.pte2pa_or hfb, hpamem]
      simp [buser, hfl.user]
    · rw [if_neg hvn, c.viewNew v hv]
      by_cases hlt : v < n
      · rw [if_pos hlt, if_pos (by omega)]
      · rw [if_neg hlt, if_neg (by omega)]
  · intro v hv
    rw [k1.leaf old true v (by simpa using hne) c.rootOld]
    exact c.entries v hv
  · intro v hv hlt
    rw [k1.leaf old true v (by simpa using hne) c.rootOld]
    by_cases hvn : v = n
    · subst hvn
      rw [hself, hpage.pte2pa_or hfb, hpa]
    · rw [l1 new true v c.rootNew (Or.inr (hlt.trans userPages_lt)), if_neg (by simp [hvn])]
      exact c.same v (by omega) hlt
  · intro v hv hlt
    exact (k1.leaf old true v (by simpa using hne) c.rootOld).trans (c.highOld v hv hlt)
  · intro v hv hlt
    exact (he.high v hv hlt).trans (c.highNew v hv hlt)

/-- The way out of `uvmcopy` when memory has run out. -/
theorem wp_uvmcopy_undo (hne : old ≠ new) (hn : n ≤ userPages)
    (hsome : ∀ v, v < n → view s old v ≠ none) :
    wp (uvmunmap new 0 n true) E t fun _ t' => ∃ own'', Copying old new s own t' own'' 0 := by
  have hmapped : ∀ v, 0 ≤ v → v < 0 + n → view t new v ≠ none := by
    intro v _ hv
    rw [c.viewNew v (by omega), if_pos (by omega)]
    exact hsome v (by omega)
  have hun := wp_uvmunmap (E := E) c.inv c.rootNew (v := 0) (n := n) (by omega) hmapped
  rw [Nat.zero_mul] at hun
  apply wp_mono hun
  rintro ⟨⟩ t' ⟨own'', he⟩
  refine ⟨own'', he.inv, c.keeps.trans (he.keeps.weaken le_rfl (by simp) le_rfl), ?_, he.root, ?_,
    ?_, ?_, fun v hv => absurd hv (by omega), ?_, ?_⟩
  · exact (he.keeps.root old true (by simpa using hne)).mpr c.rootOld
  · intro v hv
    exact (he.keeps.view_eq (by simpa using hne) c.rootOld hv).trans (c.viewOld v hv)
  · intro v hv
    rw [he.view v hv, c.viewNew v hv]
    by_cases hlt : v < n
    · rw [if_pos (by omega), if_neg (by omega)]
    · rw [if_neg (by omega), if_neg hlt, if_neg (by omega)]
  · intro v hv
    rw [he.keeps.leaf old true v (by simpa using hne) c.rootOld]
    exact c.entries v hv
  · intro v hv hlt
    exact (he.keeps.leaf old true v (by simpa using hne) c.rootOld).trans (c.highOld v hv hlt)
  · intro v hv hlt
    exact (he.high v hv hlt).trans (c.highNew v hv hlt)

end

/-- `uvmcopy` shares all pages, or none when memory runs out. -/
theorem wp_uvmcopyLoop (k : ℕ) (c : Copying old new s own t own' n) (hne : old ≠ new)
    (hn : n + k ≤ userPages) (hsome : ∀ v, v < n + k → view s old v ≠ none) :
    wp (uvmcopyLoop old new k (n * pgsize)) E t fun ok t' =>
      (ok = false → t.freelist.length < 2 * k) ∧
        ∃ own'', Copying old new s own t' own'' (if ok then n + k else 0) := by
  induction k generalizing t own' n with
  | zero =>
    rw [uvmcopyLoop, wp_pure]
    exact ⟨nofun, own', c⟩
  | succ k ih =>
    have hlt : n < userPages := by omega
    have hold : view t old n ≠ none := by
      rw [c.viewOld n hlt]
      exact hsome n (by omega)
    have hbelow : ∀ v, v < n → view s old v ≠ none := fun v hv => hsome v (by omega)
    have hval : valid (leafAt (entry t.mem) old n) = true := by
      by_contra hno
      exact hold (view_eq_none_iff.mpr (by simpa using hno))
    have hk : refs (entry t.mem) own' (old, n) = some (pte2pa (leafAt (entry t.mem) old n)) :=
      refs_eq_some.mpr ⟨c.rootOld, hlt, hval, rfl⟩
    rw [uvmcopyLoop, wp_bind]
    apply wp_walk_mapped c.inv.tree c.rootOld (by have := userPages_eq; omega) hval
    intro q hq hent
    simp only [wp_bind, wp_readPte, hent]
    rw [if_neg (by simp [hval])]
    simp only [wp_bind]
    apply wp_shareEntry c.inv hq hk
    intro fl t₁ he hdown hfl hpa hclosed hleaf hfree
    rw [← hfree]
    have c₁ := c.afterShare hne he hdown hleaf hbelow
    have hk₁ : refs (entry t₁.mem) own' (old, n) =
        some (pte2pa (leafAt (entry t.mem) old n)) := by
      have hview := he.view n hlt
      have hval₁ : valid (leafAt (entry t₁.mem) old n) = true := by
        by_contra hno
        rw [view_eq_none_iff.mpr (by simpa using hno)] at hview
        exact hold hview.symm
      exact refs_eq_some.mpr ⟨c.rootOld, hlt, hval₁, hpa⟩
    have huser₁ : user (leafAt (entry t₁.mem) old n) = user (leafAt (entry t.mem) old n) := by
      have hview := he.view n hlt
      rw [view, view, if_pos hval, if_pos (refs_eq_some.mp hk₁).2.2.1] at hview
      exact congrArg UPage.user (Option.some.inj hview)
    have hempty : leafAt (entry t₁.mem) new n = 0#64 := by
      apply c₁.inv.leafAt_of_view_none c₁.rootNew
      rw [c₁.viewNew n hlt, if_neg (by omega)]
    apply wp_mappages_page c₁.inv c₁.rootNew (by have := userPages_eq; omega) hempty
    · intro t₂ own₂ h₂ k₂ hshort
      have c₂ := c₁.afterKeeps h₂ k₂
      rw [if_neg (by simp), wp_bind, Nat.mul_div_cancel n (by decide)]
      apply wp_mono (wp_uvmcopy_undo c₂ hne (by omega) hbelow)
      rintro ⟨⟩ t₃ ⟨own₃, c₃⟩
      rw [wp_pure]
      exact ⟨fun _ => by omega, own₃, c₃⟩
    · intro t₂ own₂ q₂ h₂ k₂ hq₂ hempty₂ hused
      have c₂ := c₁.afterKeeps h₂ k₂
      have hk₂ := (k₂.refs_eq (Set.notMem_empty old) n).trans hk₁
      have hleaf₂ := k₂.leaf old true n (Set.notMem_empty old) c.rootOld
      have hp₂ := h₂.target hk₂
      have hfl₂ : Shared (leafAt (entry t₂.mem) old n) fl :=
        ⟨hfl.bits, hfl.readable, by rw [hfl.user, hleaf₂, huser₁], hfl.flags, hfl.closed⟩
      rw [← hleaf₂] at hclosed
      have c₃ := c₂.extend hne hlt hq₂ hempty₂ hk₂ hclosed hfl₂ hbelow
      rw [if_pos rfl, wp_bind, wp_krefinc (h₂.tree.page _ (by simp [hp₂]))
        (by rw [setEntry_count]; exact h₂.alloc.pos _ hp₂), setEntry_count,
        show n * pgsize + pgsize = (n + 1) * pgsize by ring]
      apply wp_mono (ih c₃ (by omega) (fun v hv => hsome v (by omega)))
      rintro ok t₄ ⟨hshort, own₄, c₄⟩
      refine ⟨fun hfail => ?_, own₄, ?_⟩
      · have hlt : t₂.freelist.length < 2 * k := hshort hfail
        omega
      · rwa [show n + 1 + k = n + (k + 1) by omega] at c₄

theorem wp_uvmcopy (h : MemInv s own) (hold : own old = .root true) (hnew : own new = .root true)
    (hne : old ≠ new) (hempty : ∀ v, v < userPages → view s new v = none) {sz : ℕ}
    (hsz : npages sz ≤ userPages) (hsome : ∀ v, v < npages sz → view s old v ≠ none) :
    wp (uvmcopy old new sz) E s fun ok t => (ok = false → s.freelist.length < 2 * npages sz) ∧
      ∃ own', Copying old new s own t own' (if ok then npages sz else 0) := by
  have hloop := wp_uvmcopyLoop (E := E) (npages sz) (Copying.start h hold hnew hempty) hne
    (by omega) (fun v hv => hsome v (by omega))
  rw [Nat.zero_mul, Nat.zero_add] at hloop
  exact hloop

end fork
end Xv6
