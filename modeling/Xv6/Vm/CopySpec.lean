import Mathlib.Data.List.GetD
import Xv6.Vm.CowSpec

/-! Copies between the kernel and user memory, as changes of what the table maps. -/
namespace Xv6
open Bytes Program RefCount

/-- Memory as one process sees it, by page number. -/
abbrev Space := ℕ → Option UPage

/-- The bytes `bs` stored at the address `va` on, as far as pages are mapped. -/
def putBytes (V : Space) (va : ℕ) (bs : List UInt8) : Space := fun v =>
  (V v).map fun pg => { pg with
    bytes := fun o =>
      if o < pgsize ∧ va ≤ v * pgsize + o then bs.getD (v * pgsize + o - va) (pg.bytes o)
      else pg.bytes o }

/-- The byte that user mode reads at an address. -/
def getByte (V : Space) (a : ℕ) : Option UInt8 :=
  match V (a / pgsize) with
  | some pg => if pg.user then some (pg.bytes (a % pgsize)) else none
  | none => none

@[simp] theorem putBytes_nil (V : Space) (va : ℕ) : putBytes V va [] = V := by
  funext v
  simp [putBytes]

theorem putBytes_eq_none (V : Space) (va : ℕ) (bs : List UInt8) (v : ℕ) :
    putBytes V va bs v = none ↔ V v = none := by
  simp [putBytes]

theorem putBytes_congr {V V' : Space} {v : ℕ} (h : V v = V' v) (va : ℕ) (bs : List UInt8) :
    putBytes V va bs v = putBytes V' va bs v := by
  simp only [putBytes, h]

variable {bs : List UInt8}

theorem putBytes_user {V : Space} {va v : ℕ} {pg : UPage}
    (h : putBytes V va bs v = some pg) : ∃ pg', V v = some pg' ∧ pg'.user = pg.user := by
  obtain ⟨pg', hV, rfl⟩ := Option.map_eq_some_iff.mp h
  exact ⟨pg', hV, rfl⟩

/-- What is read back after bytes have been put. -/
theorem getByte_putBytes (V : Space) (va : ℕ) (bs : List UInt8) (a : ℕ) :
    getByte (putBytes V va bs) a =
      (getByte V a).map fun b => if va ≤ a then bs.getD (a - va) b else b := by
  have ha : a / pgsize * pgsize + a % pgsize = a := Nat.div_add_mod' a pgsize
  have hmod : a % pgsize < pgsize := Nat.mod_lt _ (by decide)
  unfold getByte putBytes
  cases hV : V (a / pgsize) with
  | none => rfl
  | some pg => cases hu : pg.user <;> simp [hu, ha, hmod]

/-- Bytes within one page. -/
theorem putBytes_page (V : Space) {va : ℕ} (h : va % pgsize + bs.length ≤ pgsize) :
    putBytes V va bs = fun v => if v = va / pgsize then
      (V v).map fun pg => { pg with bytes := write pg.bytes (va % pgsize) bs } else V v := by
  funext v
  have hva : va = va / pgsize * pgsize + va % pgsize := (Nat.div_add_mod' va pgsize).symm
  cases hV : V v with
  | none => simp [putBytes, hV]
  | some pg =>
    simp only [putBytes, hV, Option.map_some]
    by_cases hv : v = va / pgsize
    · rw [if_pos hv]
      congr 2
      funext o
      unfold write
      by_cases ho : va % pgsize ≤ o
      · have hle : va ≤ v * pgsize + o := by rw [hv]; omega
        have hsub : v * pgsize + o - va = o - va % pgsize := by rw [hv]; omega
        by_cases hlt : o < pgsize
        · rw [if_pos ⟨hlt, hle⟩, if_pos ho, hsub]
        · rw [if_neg (fun hx => hlt hx.1), if_pos ho,
            List.getD_eq_default _ _ (by omega)]
      · rw [if_neg ho, if_neg (by rw [hv]; omega)]
    · rw [if_neg hv]
      congr 2
      funext o
      by_cases hin : o < pgsize ∧ va ≤ v * pgsize + o
      · rw [if_pos hin, List.getD_eq_default]
        have hlt : va / pgsize < v := by
          rcases Nat.lt_trichotomy v (va / pgsize) with hlt | heq | hgt
          · have hmul : (v + 1) * pgsize ≤ va / pgsize * pgsize := Nat.mul_le_mul_right _ hlt
            rw [Nat.add_mul] at hmul
            omega
          · exact absurd heq hv
          · exact hgt
        have hmul : (va / pgsize + 1) * pgsize ≤ v * pgsize := Nat.mul_le_mul_right _ hlt
        rw [Nat.add_mul] at hmul
        omega
      · rw [if_neg hin]

/-- Bytes stored in two parts. -/
theorem putBytes_append (V : Space) (va : ℕ) (bs cs : List UInt8) :
    putBytes (putBytes V va bs) (va + bs.length) cs = putBytes V va (bs ++ cs) := by
  funext v
  cases hV : V v with
  | none => simp [putBytes, hV]
  | some pg =>
    simp only [putBytes, hV, Option.map_some]
    congr 2
    funext o
    by_cases ho : o < pgsize
    · by_cases hle : va ≤ v * pgsize + o
      · rw [if_pos (show o < pgsize ∧ va ≤ v * pgsize + o from ⟨ho, hle⟩),
          if_pos (show o < pgsize ∧ va ≤ v * pgsize + o from ⟨ho, hle⟩)]
        by_cases hle2 : va + bs.length ≤ v * pgsize + o
        · rw [if_pos ⟨ho, hle2⟩, List.getD_append_right _ _ _ _ (by omega),
            List.getD_eq_default bs _ (by omega)]
          congr 1
          omega
        · rw [if_neg (fun hx => hle2 hx.2), List.getD_append _ _ _ _ (by omega)]
      · rw [if_neg (by omega), if_neg (by omega), if_neg (by omega)]
    · rw [if_neg (fun hx => ho hx.1), if_neg (fun hx => ho hx.1), if_neg (fun hx => ho hx.1)]

section copy
variable [Image] {s : Machine} {own : ℕ → Owner} {E : Panic → Prop} {r : ℕ}

theorem wp_uvmclear (h : MemInv s own) (hr : own r = .root true) {v : ℕ} (hv : v < userPages)
    {pg : UPage} (hsome : view s r v = some pg) :
    wp (uvmclear r (v * pgsize)) E s fun _ t => EffectOn {v} r s own t own
        (fun v' => if v' = v then some { pg with user := false } else view s r v') ∧
      leafAt (entry t.mem) r v = leafAt (entry s.mem) r v &&& ~~~pteU := by
  obtain ⟨hval, huser, hbytes⟩ := view_eq_some hsome
  have hk : refs (entry s.mem) own (r, v) = some (pte2pa (leafAt (entry s.mem) r v)) :=
    refs_eq_some.mpr ⟨hr, hv, hval, rfl⟩
  obtain ⟨cpa, cval, cread, cuser⟩ := clearUser_bits (leafAt (entry s.mem) r v)
  unfold uvmclear
  rw [wp_bind]
  apply wp_walk_mapped h.tree hr (by have := userPages_eq; omega) hval
  intro q hq hent
  simp only [wp_bind, wp_readPte, wp_writePte, hent]
  obtain ⟨h1, k1, l1⟩ := h.setFlags hq hk cpa
    (by rw [cval, hval]) (by rw [cread]; exact (h.sharing.flags (r, v) _ hk).1)
    (by simp [cuser]) (by simp [cuser])
  have hmem : ∀ v' p, refs (entry s.mem) own (r, v') = some p →
      (s.setEntry q (ix0 v) (leafAt (entry s.mem) r v &&& ~~~pteU)).mem p = s.mem p :=
    fun v' p hk' => setEntry_mem_of_plain hq (h.target hk') rfl
  have he := EffectOn.ofLeaf h1 k1 hr hr hv l1 (fun v' p _ hk' => hmem v' p hk')
  refine ⟨he.congr fun v' _ => ?_, ?_⟩
  · rw [viewOf, cval, if_pos hval, cpa, cuser, hmem v _ hk, hbytes]
  · have hself := l1 r true v hr (Or.inr (hv.trans userPages_lt))
    rwa [if_pos ⟨rfl, rfl⟩] at hself

theorem wp_walkaddr (h : MemInv s own) (hr : own r = .root true) {va : ℕ}
    {Q : Option ℕ → Machine → Prop}
    (hnone : (maxva ≤ va ∨ ¬(valid (leafAt (entry s.mem) r (va / pgsize)) = true ∧
      user (leafAt (entry s.mem) r (va / pgsize)) = true)) → Q none s)
    (hsome : va < maxva → valid (leafAt (entry s.mem) r (va / pgsize)) = true →
      user (leafAt (entry s.mem) r (va / pgsize)) = true →
      Q (some (pte2pa (leafAt (entry s.mem) r (va / pgsize)))) s) :
    wp (walkaddr r va) E s Q := by
  unfold walkaddr
  by_cases hmax : maxva ≤ va
  · rw [if_pos hmax, wp_pure]
    exact hnone (Or.inl hmax)
  rw [if_neg hmax, wp_bind]
  apply wp_walk_find h.tree hr (Nat.lt_of_not_le hmax)
  · intro hno
    rw [wp_pure]
    apply hnone
    rw [h.tree.leafAt_none hr hno]
    simp
  · intro q hq
    simp only [wp_bind, wp_readPte, ← h.tree.leafAt_low hq]
    by_cases hval : valid (leafAt (entry s.mem) r (va / pgsize)) = true
    · rw [if_neg (by simp [hval])]
      by_cases huser : user (leafAt (entry s.mem) r (va / pgsize)) = true
      · rw [if_neg (by simp [huser]), wp_pure]
        exact hsome (Nat.lt_of_not_le hmax) hval huser
      · rw [if_pos (by simpa using huser), wp_pure]
        exact hnone (Or.inr (fun hx => huser hx.2))
    · rw [if_pos (by simpa using hval), wp_pure]
      exact hnone (Or.inr (fun hx => hval hx.1))

/-- The entries above the user pages are closed to user mode. -/
def HighClosed (s : Machine) (r : ℕ) : Prop :=
  ∀ v, userPages ≤ v → v < 2 ^ 26 → user (leafAt (entry s.mem) r v) = false

theorem Effect.highClosed {t : Machine} {own' : ℕ → Owner} {V : Space}
    (h : Effect r s own t own' V) (hh : HighClosed s r) : HighClosed t r := by
  intro v hv hlt
  rw [h.high v hv (by omega)]
  exact hh v hv hlt

omit [Image] in
theorem HighClosed.lt {va : ℕ} (hh : HighClosed s r) (hva : va < maxva)
    (huser : user (leafAt (entry s.mem) r (va / pgsize)) = true) : va / pgsize < userPages := by
  by_contra hge
  have hlt : va / pgsize < 2 ^ 26 := by
    simp only [maxva, pgsize] at *
    omega
  rw [hh _ (Nat.le_of_not_lt hge) hlt] at huser
  cases huser

/-- Why `copyout` refuses a page. -/
def PageRefused (s : Machine) (r va : ℕ) : Prop :=
  maxva ≤ va ∨ ¬(valid (leafAt (entry s.mem) r (va / pgsize)) = true ∧
    user (leafAt (entry s.mem) r (va / pgsize)) = true) ∨
    cow (leafAt (entry s.mem) r (va / pgsize)) = true ∧ s.freelist = []

/-- `copyout` makes the page private before it writes to it. -/
theorem wp_copyoutPage (h : MemInv s own) (hr : own r = .root true) {va : ℕ}
    (hh : HighClosed s r) {Q : Option ℕ → Machine → Prop}
    (hnone : PageRefused s r va → Q none s)
    (hsome : ∀ t own', Effect r s own t own' (view s r) → va / pgsize < userPages →
      Private t r (va / pgsize) → Q (some (pte2pa (leafAt (entry t.mem) r (va / pgsize)))) t) :
    wp (copyoutPage r va) E s Q := by
  unfold copyoutPage
  by_cases hmax : maxva ≤ va
  · rw [if_pos hmax, wp_pure]
    exact hnone (Or.inl hmax)
  have hva : va < maxva := Nat.lt_of_not_le hmax
  -- the tail of the function, for a page that is not shared (any more)
  have htail : ∀ t own', Effect r s own t own' (view s r) →
      (valid (leafAt (entry t.mem) r (va / pgsize)) = true →
        cow (leafAt (entry t.mem) r (va / pgsize)) = false) →
      ((¬(valid (leafAt (entry t.mem) r (va / pgsize)) = true ∧
        user (leafAt (entry t.mem) r (va / pgsize)) = true)) → Q none t) →
      wp (walkaddr r va) E t Q := by
    intro t own' ht hcow hno
    apply wp_walkaddr ht.inv ht.root
    · rintro (hx | hx)
      · exact absurd hx hmax
      · exact hno hx
    · intro _ hval huser
      have hlt := (ht.highClosed hh).lt hva huser
      apply hsome t own' ht hlt
      have hk : refs (entry t.mem) own' (r, va / pgsize) = some _ :=
        refs_eq_some.mpr ⟨ht.root, hlt, hval, rfl⟩
      exact ⟨hval, huser, ((ht.inv.sharing.flags (r, va / pgsize) _ hk).2 huser).mpr (hcow hval)⟩
  rw [if_neg hmax, wp_bind, isCow, wp_bind]
  apply wp_walk_find h.tree hr hva
  · intro hno
    have hzero := h.tree.leafAt_none hr hno
    rw [wp_pure, if_neg (by simp)]
    apply htail s own (Effect.refl h hr) (by simp [hzero])
    intro hx
    exact hnone (Or.inr (Or.inl hx))
  · intro q hq
    simp only [wp_bind, wp_readPte, wp_pure, ← h.tree.leafAt_low hq]
    by_cases hcow : cow (leafAt (entry s.mem) r (va / pgsize)) = true
    · rw [if_pos (by simp [hcow]), wp_bind]
      apply wp_mono (wp_cowalloc h hr hh)
      rintro ok t (⟨rfl, rfl, href⟩ | ⟨rfl, hlt, hpriv, own', ht⟩)
      · rw [if_neg (by simp), wp_pure]
        apply hnone
        rcases href with hx | hx | hx
        · exact Or.inl hx
        · exact Or.inr (Or.inl (fun hy => hx ⟨hy.1, hy.2, hcow⟩))
        · exact Or.inr (Or.inr ⟨hcow, hx⟩)
      · rw [if_pos rfl]
        obtain ⟨hval, huser, hwr⟩ := hpriv
        have hk : refs (entry t.mem) own' (r, va / pgsize) = some _ :=
          refs_eq_some.mpr ⟨ht.root, hlt, hval, rfl⟩
        apply htail t own' ht
        · intro _
          exact ((ht.inv.sharing.flags (r, va / pgsize) _ hk).2 huser).mp hwr
        · intro hx
          exact absurd ⟨hval, huser⟩ hx
    · rw [if_neg (by simpa using hcow)]
      apply htail s own (Effect.refl h hr) (fun _ => by simpa using hcow)
      intro hx
      exact hnone (Or.inr (Or.inl hx))

/-- A write to a private page is seen through its own table only. -/
theorem MemInv.writePrivate (h : MemInv s own) (hr : own r = .root true) {va pa : ℕ}
    (hv : va / pgsize < userPages) (hp : Private s r (va / pgsize))
    (hpa : pte2pa (leafAt (entry s.mem) r (va / pgsize)) = pa)
    (hbs : va % pgsize + bs.length ≤ pgsize) :
    Effect r s own (s.setPage pa (write (s.mem pa) (va % pgsize) bs)) own
      (putBytes (view s r) va bs) := by
  obtain ⟨hk, hc⟩ := h.count_private hr hv hp
  rw [hpa] at hk hc
  obtain ⟨h1, k1, l1⟩ := h.writeData hk hc (write (s.mem pa) (va % pgsize) bs)
  refine ⟨h1, k1, hr, ?_, fun v' _ _ => l1 r true v' hr⟩
  intro v' hv'
  rw [putBytes_page _ hbs]
  by_cases hvv : v' = va / pgsize
  · subst hvv
    simp only [view, l1 r true _ hr, hp.1, if_true, Option.map_some, hpa, setPage_mem_self]
  · simp only [if_neg hvv, view, l1 r true _ hr]
    by_cases hval : valid (leafAt (entry s.mem) r v') = true
    · have hk' : refs (entry s.mem) own (r, v') = some (pte2pa (leafAt (entry s.mem) r v')) :=
        refs_eq_some.mpr ⟨hr, hv', hval, rfl⟩
      rw [if_pos hval, if_pos hval, setPage_mem_ne]
      intro hpp
      rw [hpp] at hk'
      exact hvv (h.sharing.inj r v' _ pa hk' hk)
    · rw [if_neg hval, if_neg hval]

/-- The addresses `va` to `va + n` lie in user pages. -/
def UserRange (V : Space) (va n : ℕ) : Prop :=
  ∀ i, i < n → (va + i) / pgsize < userPages ∧ ∃ pg, V ((va + i) / pgsize) = some pg ∧ pg.user = true

/-- `copyout` stores a leading part of the bytes, all of them if it succeeds; it stops where a
page begins that it is refused. -/
theorem wp_copyoutLoop (fuel : ℕ) (h : MemInv s own) (hr : own r = .root true)
    (hh : HighClosed s r) {dstva : ℕ} {src : List UInt8} (hfuel : src.length ≤ fuel) :
    wp (copyoutLoop r fuel dstva src) E s fun ok t => ∃ own' m, m ≤ src.length ∧
      (ok = true ↔ m = src.length) ∧ UserRange (view s r) dstva m ∧
      Effect r s own t own' (putBytes (view s r) dstva (src.take m)) ∧
      (ok = false → (m = 0 ∨ (dstva + m) % pgsize = 0) ∧ PageRefused t r (dstva + m)) := by
  induction fuel generalizing s own dstva src with
  | zero =>
    obtain rfl : src = [] := List.eq_nil_of_length_eq_zero (by omega)
    rw [copyoutLoop, wp_pure]
    refine ⟨own, 0, le_refl _, by simp, fun i hi => absurd hi (by omega), ?_, by simp⟩
    simpa using Effect.refl h hr
  | succ fuel ih =>
    rw [copyoutLoop]
    by_cases hnil : src = []
    · subst hnil
      rw [if_pos rfl, wp_pure]
      refine ⟨own, 0, le_refl _, by simp, fun i hi => absurd hi (by omega), ?_, by simp⟩
      simpa using Effect.refl h hr
    rw [if_neg hnil, wp_bind]
    have hpos : 0 < src.length := List.length_pos_of_ne_nil hnil
    have hdiv : pgrounddown dstva / pgsize = dstva / pgsize := Nat.mul_div_cancel _ (by decide)
    have hdown := pgrounddown_add_mod dstva
    have hoff : dstva - pgrounddown dstva = dstva % pgsize := by omega
    have hmod : dstva % pgsize < pgsize := Nat.mod_lt _ (by decide)
    apply wp_copyoutPage h hr hh
    · intro href
      rw [wp_pure]
      refine ⟨own, 0, Nat.zero_le _, ?_, fun i hi => absurd hi (by omega), ?_, fun _ => ⟨?_, ?_⟩⟩
      · simp
        omega
      · simpa using Effect.refl h hr
      · exact Or.inl rfl
      · rw [PageRefused, hdiv] at href
        rcases href with hmax | href
        · exact Or.inl (by omega)
        · exact Or.inr href
    · intro t own' ht hlt hpriv
      rw [hdiv] at hlt hpriv ⊢
      simp only [wp_bind, wp_modify, hoff]
      generalize hn : min (pgsize - dstva % pgsize) src.length = n
      have hlen : (src.take n).length = n := by
        rw [List.length_take]
        omega
      have hw := ht.inv.writePrivate ht.root hlt hpriv rfl
        (show dstva % pgsize + (src.take n).length ≤ pgsize by omega)
      have hall := ht.trans hw
      apply wp_mono (ih hall.inv hall.root (hall.highClosed hh) (by
        rw [List.length_drop]
        omega))
      rintro ok t' ⟨own'', m, hm, hok, hrange, ht', hstop⟩
      rw [List.length_drop] at hm hok
      -- a second page is reached only where the first one ends
      have hnext : 0 < m → pgrounddown dstva + pgsize = dstva + n := by
        intro hmpos
        omega
      have hview : ∀ v, v < userPages → view t r v = view s r v := fun v hv => ht.view v hv
      refine ⟨own'', n + m, by omega, by rw [hok]; omega, ?_, (hall.trans ht').congr ?_, ?_⟩
      · intro i hi
        by_cases hin : i < n
        · have hpage : (dstva + i) / pgsize = dstva / pgsize := by
            simp only [pgsize] at *
            omega
          rw [hpage, ← hview _ hlt, view, if_pos hpriv.1]
          exact ⟨hlt, _, rfl, hpriv.2.1⟩
        · obtain ⟨hlt', pg, hpg, huser⟩ := hrange (i - n) (by omega)
          rw [hnext (by omega), show dstva + n + (i - n) = dstva + i by omega] at hlt' hpg
          rw [hall.view _ hlt'] at hpg
          obtain ⟨pg', hpg', huser'⟩ := putBytes_user hpg
          rw [hview _ hlt'] at hpg'
          exact ⟨hlt', pg', hpg', huser'.trans huser⟩
      · intro v hv
        have hfirst := (hall.view v hv).trans (putBytes_congr (hview v hv) dstva (src.take n))
        rw [putBytes_congr hfirst]
        rcases Nat.eq_zero_or_pos m with rfl | hmpos
        · simp
        · have happ := putBytes_append (view s r) dstva (src.take n) ((src.drop n).take m)
          rw [hlen] at happ
          rw [hnext hmpos, happ, List.take_add]
      · intro hfail
        -- the next page was tried, so the first one has been filled
        have hmore : m ≠ src.length - n := fun heq => by simp [hok.mpr heq] at hfail
        have hend : pgrounddown dstva + pgsize = dstva + n := by omega
        have halign : (dstva + n) % pgsize = 0 := by
          rw [← hend, pgrounddown]
          simp
        obtain ⟨hedge, href⟩ := hstop hfail
        rw [hend, Nat.add_assoc] at hedge href
        refine ⟨Or.inr ?_, href⟩
        rcases hedge with rfl | hedge
        · simpa using halign
        · exact hedge

theorem wp_copyout (h : MemInv s own) (hr : own r = .root true) (hh : HighClosed s r)
    {dstva : ℕ} {src : List UInt8} :
    wp (copyout r dstva src) E s fun ok t => ∃ own' m, m ≤ src.length ∧
      (ok = true ↔ m = src.length) ∧ UserRange (view s r) dstva m ∧
      Effect r s own t own' (putBytes (view s r) dstva (src.take m)) ∧
      (ok = false → (m = 0 ∨ (dstva + m) % pgsize = 0) ∧ PageRefused t r (dstva + m)) :=
  wp_copyoutLoop _ h hr hh (le_refl _)

/-- `copyin` reads what user mode would read, or meets an address that user mode cannot read.
-/
theorem wp_copyinLoop (fuel : ℕ) (h : MemInv s own) (hr : own r = .root true)
    (hh : HighClosed s r) {srcva len : ℕ} {acc : List UInt8} (hfuel : len ≤ fuel) :
    wp (copyinLoop r fuel srcva len acc) E s fun res t => t = s ∧
      match res with
      | some bs => ∃ cs, bs = acc ++ cs ∧ cs.length = len ∧ UserRange (view s r) srcva len ∧
          ∀ i, i < len → getByte (view s r) (srcva + i) = cs[i]?
      | none => ¬UserRange (view s r) srcva len := by
  induction fuel generalizing srcva len acc with
  | zero =>
    obtain rfl : len = 0 := by omega
    rw [copyinLoop, wp_pure]
    exact ⟨rfl, [], by simp, rfl, fun i hi => absurd hi (by omega), fun i hi => absurd hi (by omega)⟩
  | succ fuel ih =>
    rw [copyinLoop]
    by_cases hzero : len = 0
    · subst hzero
      rw [if_pos rfl, wp_pure]
      exact ⟨rfl, [], by simp, rfl, fun i hi => absurd hi (by omega),
        fun i hi => absurd hi (by omega)⟩
    rw [if_neg hzero, wp_bind]
    have hdiv : pgrounddown srcva / pgsize = srcva / pgsize := Nat.mul_div_cancel _ (by decide)
    have hdown := pgrounddown_add_mod srcva
    have hoff : srcva - pgrounddown srcva = srcva % pgsize := by omega
    have hmod : srcva % pgsize < pgsize := Nat.mod_lt _ (by decide)
    apply wp_walkaddr h hr
    · intro hno
      rw [wp_pure]
      refine ⟨rfl, ?_⟩
      intro hrange
      obtain ⟨hlt, pg, hpg, huser⟩ := hrange 0 (by omega)
      rw [Nat.add_zero] at hlt hpg
      obtain ⟨hval, huser', -⟩ := view_eq_some hpg
      rcases hno with hmax | hno
      · have hup := userPages_eq
        simp only [maxva, pgsize, pgrounddown] at *
        omega
      · rw [hdiv] at hno
        exact hno ⟨hval, huser'.trans huser⟩
    · intro hmax hval huser
      rw [hdiv] at hval huser ⊢
      have hlt : srcva / pgsize < userPages := by
        have hlt' := hh.lt hmax (by rw [hdiv]; exact huser)
        rwa [hdiv] at hlt'
      simp only [wp_bind, wp_get, hoff]
      generalize hn : min (pgsize - srcva % pgsize) len = n
      have hview : view s r (srcva / pgsize) = some ⟨true,
          s.mem (pte2pa (leafAt (entry s.mem) r (srcva / pgsize)))⟩ := by
        rw [view, if_pos hval, huser]
      have hnext : 0 < len - n → pgrounddown srcva + pgsize = srcva + n := by
        intro hmpos
        omega
      have hin : ∀ i, i < n → (srcva + i) / pgsize = srcva / pgsize ∧
          (srcva + i) % pgsize = srcva % pgsize + i := by
        intro i hi
        simp only [pgsize] at *
        omega
      apply wp_mono (ih (by omega))
      rintro res t ⟨rfl, hres⟩
      refine ⟨rfl, ?_⟩
      have hfirst : ∀ i, i < n → getByte (view t r) (srcva + i) =
          (read (t.mem (pte2pa (leafAt (entry t.mem) r (srcva / pgsize)))) (srcva % pgsize) n)[i]? := by
        intro i hi
        rw [getByte, (hin i hi).1, hview, (hin i hi).2]
        simp [Bytes.read, hi]
      cases res with
      | none =>
        intro hrange
        apply hres
        intro i hi
        have hi' := hrange (n + i) (by omega)
        rwa [← Nat.add_assoc, ← hnext (by omega)] at hi'
      | some bs =>
        obtain ⟨cs, rfl, hlen, hrange, hbytes⟩ := hres
        refine ⟨read _ (srcva % pgsize) n ++ cs, by rw [List.append_assoc], ?_, ?_, ?_⟩
        · rw [List.length_append, read_length, hlen]
          omega
        · intro i hi
          by_cases hlt' : i < n
          · rw [(hin i hlt').1, hview]
            exact ⟨hlt, _, rfl, rfl⟩
          · have hi' := hrange (i - n) (by omega)
            rwa [hnext (by omega), show srcva + n + (i - n) = srcva + i by omega] at hi'
        · intro i hi
          by_cases hlt' : i < n
          · rw [hfirst i hlt', List.getElem?_append_left (by simpa using hlt')]
          · have hi' := hbytes (i - n) (by omega)
            rw [hnext (by omega), show srcva + n + (i - n) = srcva + i by omega] at hi'
            rw [hi', List.getElem?_append_right (by simpa using hlt'), read_length]

theorem wp_copyin (h : MemInv s own) (hr : own r = .root true) (hh : HighClosed s r)
    {srcva len : ℕ} :
    wp (copyin r srcva len) E s fun res t => t = s ∧
      match res with
      | some bs => bs.length = len ∧ UserRange (view s r) srcva len ∧
          ∀ i, i < len → getByte (view s r) (srcva + i) = bs[i]?
      | none => ¬UserRange (view s r) srcva len := by
  apply wp_mono (wp_copyinLoop len h hr hh (le_refl _))
  rintro res t ⟨rfl, hres⟩
  refine ⟨rfl, ?_⟩
  cases res with
  | none => exact hres
  | some bs =>
    obtain ⟨cs, rfl, hlen, hrange, hbytes⟩ := hres
    exact ⟨hlen, hrange, hbytes⟩

end copy
end Xv6
