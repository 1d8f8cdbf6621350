import Xv6.Vm.Leaves

/-! Writes of leaf entries: the entry of one user page changes together with the count of the
page that it mapped and of the page that it maps now. -/
namespace Xv6
open Bytes RefCount

/-- Of the entries that walks find, only the one for `v` in the table `r` has changed. -/
def LeafWritten (s t : Machine) (own : ℕ → Owner) (r v : ℕ) (pte : Pte) : Prop :=
  ∀ r' u v', own r' = .root u → (r' ≠ r ∨ v' < 2 ^ 27) → leafAt (entry t.mem) r' v' =
    if r' = r ∧ v' = v then pte else leafAt (entry s.mem) r' v'

section plain
variable {s t : Machine} {own own' : ℕ → Owner} {q r v : ℕ} {pte : Pte}

/-- The reference that an entry stands for. -/
def refOf (pte : Pte) : Option ℕ := if valid pte = true then some (pte2pa pte) else none

theorem refs_writeLeaf (hroot : ∀ r', own' r' = .root true ↔ own r' = .root true)
    (hr : own r = .root true) (hv : v < userPages)
    (hleaf : LeafWritten s t own r v pte) :
    refs (entry t.mem) own' = Function.update (refs (entry s.mem) own) (r, v) (refOf pte) := by
  have hlt : ∀ v', v' < userPages → v' < 2 ^ 27 := fun v' hv' => hv'.trans userPages_lt
  funext ⟨r', v'⟩
  by_cases hk : r' = r ∧ v' = v
  · obtain ⟨rfl, rfl⟩ := hk
    rw [Function.update_self]
    have hl := hleaf r' true v' hr (Or.inr (hlt v' hv))
    rw [if_pos ⟨rfl, rfl⟩] at hl
    simp [refs, refOf, hl, (hroot r').mpr hr, hv]
  · rw [Function.update_of_ne (by simpa using hk)]
    apply refs_congr (hroot r')
    intro hr' hv'
    rw [hleaf r' true v' hr' (Or.inr (hlt v' hv')), if_neg hk]

/-- What a leaf write keeps, once the other pages are accounted for. -/
theorem keeps_writeLeaf {X : Set ℕ}
    (hleaf : LeafWritten s t own r v pte)
    (hown : ∀ p, (own p).isTable = true ∨ (own' p).isTable = true → own' p = own p)
    (hheld : ∀ p τ, p ∉ X → (own' p = .held τ ↔ own p = .held τ))
    (hheldMem : ∀ p τ, p ∉ X → own p = .held τ → t.mem p = s.mem p)
    (hmem : ∀ r' v' p, r' ≠ r → refs (entry s.mem) own (r', v') = some p → t.mem p = s.mem p) :
    Keeps {r} X s own t own' := by
  constructor
  · intro r' u hr'
    grind [Owner.isTable]
  · exact hheld
  · intro p r' o _ ho
    have htab := Owner.isTable_of_within ho
    have hown := hown p
    constructor
    · rintro rfl
      exact (hown (Or.inr htab)).symm
    · rintro rfl
      exact hown (Or.inl htab)
  · intro r' u v' hr' hu
    have hne : r' ≠ r := hr'
    rw [hleaf r' u v' hu (Or.inl hne), if_neg (fun hk => hne hk.1)]
  · exact hheldMem
  · intro r' v' p hr' hk
    exact hmem r' v' p hr' hk

theorem refs_none_of_empty {e : Entries} (hempty : leafAt e r v = 0#64) :
    refs e own (r, v) = none := by
  simp [refs, hempty]

theorem setEntry_mem_of_plain {k p : ℕ} {o : Owner} (hq : own q = .low r (ix2 v) (ix1 v))
    (hp : own p = o) (ho : o.isTable = false) : (s.setEntry q k pte).mem p = s.mem p := by
  apply setEntry_mem_ne
  rintro rfl
  rw [← hp, hq] at ho
  simp [Owner.isTable] at ho

theorem update_of_plain {p : ℕ} {o o' : Owner} (hp : own p = o) (ho : o.isTable = false)
    (ho' : o'.isTable = false) (p' : ℕ)
    (htab : (own p').isTable = true ∨ (Function.update own p o' p').isTable = true) :
    Function.update own p o' p' = own p' := by
  by_cases hpp : p' = p
  · subst hpp
    simp [hp, ho, ho'] at htab
  · exact Function.update_of_ne hpp _ _

end plain

section leaves
variable [Image] {s t : Machine} {own own' : ℕ → Owner} {q r v : ℕ} {pte : Pte}

section
variable (h : MemInv s own)
include h

/-- The count of one data page says nothing about the others. -/
theorem MemInv.counts_of_ne {p p' : ℕ} (hp : own p = .data) (hne : p' ≠ p) (n : ℕ) :
    (if own p' = .data then (s.setCount (idx p) n).count (idx p') else 0) =
      if own p' = .data then s.count (idx p') else 0 := by
  by_cases hd : own p' = .data
  · rw [if_pos hd, if_pos hd]
    exact setCount_count_ne _ _ (h.alloc.idx_ne (by simp [hd]) (by simp [hp]) hne)
  · rw [if_neg hd, if_neg hd]

/-- A leaf write changes no page outside of the tables. -/
theorem MemInv.keeps_setEntry {X : Set ℕ} {k : ℕ} {x : Pte} (hq : own q = .low r (ix2 v) (ix1 v))
    (hleaf : LeafWritten s t own r v pte) (hmem : t.mem = (s.setEntry q k x).mem)
    (hown : ∀ p, (own p).isTable = true ∨ (own' p).isTable = true → own' p = own p)
    (hheld : ∀ p τ, p ∉ X → (own' p = .held τ ↔ own p = .held τ)) : Keeps {r} X s own t own' := by
  refine keeps_writeLeaf hleaf hown hheld ?_ ?_
  · intro p τ _ hτ
    rw [hmem]
    exact setEntry_mem_of_plain hq hτ rfl
  · intro r' v' p _ hk
    rw [hmem]
    exact setEntry_mem_of_plain hq (h.target hk) rfl

/-- The tree and its entries after a leaf has been written. -/
theorem MemInv.leafTree (t : Machine) (own' : ℕ → Owner) (hq : own q = .low r (ix2 v) (ix1 v))
    (hv : v < 2 ^ 27) (hpte : pte = 0#64 ∨ (valid pte = true ∧ leaf pte = true))
    (hpage : ∀ p, own' p ≠ .outside → Page p) (htab : ∀ p, (own p).isTable = true →
      entry t.mem p = Entries.set (entry s.mem) q (ix0 v) pte p)
    (hown : ∀ p, (own p).isTable = true ∨ (own' p).isTable = true → own' p = own p) :
    Tree (entry t.mem) own' ∧ LeafWritten s t own r v pte := by
  have hset := h.tree.setLeaf (k := ix0 v) hq hpte
  have htree := hset.congr hpage hown htab
  refine ⟨htree, ?_⟩
  intro r' u v' hr' hv'
  have hr'' : own' r' = .root u := by
    rw [hown r' (Or.inl (by simp [hr', Owner.isTable])), hr']
  rw [← h.tree.leafAt_setLeaf hq hv hpte hr' hv']
  apply hset.leafAt_congr htree hr' hr''
  · grind [Owner.isTable]
  · intro p i j hp
    exact htab p (by simp [hp, Owner.isTable])

/-- A leaf of a user table is written: the counts have to follow, and the new entry must not
give two places write access. -/
theorem MemInv.writeLeaf (t : Machine) (own' : ℕ → Owner) (hq : own q = .low r (ix2 v) (ix1 v))
    (hr : own r = .root true) (hv : v < userPages)
    (hpte : pte = 0#64 ∨ (valid pte = true ∧ leaf pte = true)) (htab : ∀ p, (own p).isTable = true →
      entry t.mem p = Entries.set (entry s.mem) q (ix0 v) pte p)
    (hown : ∀ p, (own p).isTable = true ∨ (own' p).isTable = true → own' p = own p)
    (halloc : Alloc own' t.freelist t.count)
    (hexact : ∀ p, refCount (Function.update (refs (entry s.mem) own) (r, v) (refOf pte)) p =
      if own' p = .data then t.count (idx p) else 0)
    (hflags : valid pte = true → readable pte = true ∧
      (user pte = true → (writable pte = true ↔ cow pte = false)))
    (hsole : valid pte = true → user pte = true → writable pte = true →
      refCount (Function.update (refs (entry s.mem) own) (r, v) (refOf pte)) (pte2pa pte) = 1)
    (hprot : valid pte = true → refs (entry s.mem) own (r, v) ≠ some (pte2pa pte) →
      ∀ r' v', refs (entry s.mem) own (r', v') = some (pte2pa pte) →
        ¬(user (leafAt (entry s.mem) r' v') = true ∧ writable (leafAt (entry s.mem) r' v') = true))
    (hinj : valid pte = true → ∀ v', v' ≠ v →
      refs (entry s.mem) own (r, v') ≠ some (pte2pa pte)) :
    MemInv t own' ∧ LeafWritten s t own r v pte := by
  have hlt : ∀ v', v' < userPages → v' < 2 ^ 27 := fun v' hv' => hv'.trans userPages_lt
  obtain ⟨htree, hleaf⟩ := h.leafTree t own' hq (hlt v hv) hpte
    (fun p hp => (halloc.managed p).mp hp) htab hown
  have hroot : ∀ r', own' r' = .root true ↔ own r' = .root true := by
    grind [Owner.isTable]
  have hrefs := refs_writeLeaf (t := t) hroot hr hv hleaf
  have hself : leafAt (entry t.mem) r v = pte := by
    rw [hleaf r true v hr (Or.inr (hlt v hv)), if_pos ⟨rfl, rfl⟩]
  have hsome : ∀ p, refOf pte = some p → valid pte = true ∧ pte2pa pte = p := by
    intro p hp
    unfold refOf at hp
    split at hp
    · exact ⟨‹_›, Option.some.inj hp⟩
    · cases hp
  refine ⟨⟨htree, halloc, ?_, ?_⟩, hleaf⟩
  · intro p
    rw [hrefs]
    exact hexact p
  · rw [hrefs]
    apply h.sharing.update h.tree.finiteRefs
    · rintro ⟨r', v'⟩ p hk hp
      obtain ⟨hr', hv', -⟩ := refs_eq_some.mp hp
      have hne : ¬(r' = r ∧ v' = v) := by simpa using hk
      simp only [hleaf r' true v' hr' (Or.inr (hlt v' hv')), if_neg hne]
    · intro p hp
      simp only [hself]
      exact hflags (hsome p hp).1
    · intro p hp
      obtain ⟨hval, rfl⟩ := hsome p hp
      simp only [hself]
      exact hsole hval
    · rintro p hp hold ⟨r', v'⟩ hk
      obtain ⟨hval, rfl⟩ := hsome p hp
      exact hprot hval hold r' v' hk
    · intro p v' hp hv'
      obtain ⟨hval, rfl⟩ := hsome p hp
      exact hinj hval v' hv'

variable {p : ℕ}

omit h in
theorem refOf_pa2pte (hp : Page p) {fl : Pte} (hfb : FlagBits fl)
    (hval : valid fl = true) : refOf (pa2pte p ||| fl) = some p := by
  simp [refOf, hval, hp.pte2pa_or hfb]

section
variable (hq : own q = .low r (ix2 v) (ix1 v))
include hq

/-- A fresh page is mapped: it stops being held and becomes a data page with one reference. -/
theorem MemInv.mapHeld (hr : own r = .root true) (hv : v < userPages)
    (hempty : leafAt (entry s.mem) r v = 0#64) {τ : Tag} (hp : own p = .held τ) {fl : Pte}
    (hfb : FlagBits fl) (hval : valid fl = true) (hread : readable fl = true)
    (hflags : user fl = true → (writable fl = true ↔ cow fl = false)) :
    MemInv (s.setEntry q (ix0 v) (pa2pte p ||| fl)) (Function.update own p .data) ∧
      Keeps {r} {p} s own (s.setEntry q (ix0 v) (pa2pte p ||| fl))
        (Function.update own p .data) ∧
      LeafWritten s (s.setEntry q (ix0 v) (pa2pte p ||| fl)) own r v (pa2pte p ||| fl) := by
  have hpage : Page p := h.tree.page p (by simp [hp])
  have hpa := hpage.pte2pa_or hfb
  have href := refOf_pa2pte hpage hfb hval
  have hnone : refs (entry s.mem) own (r, v) = none := refs_none_of_empty hempty
  have hnot : ∀ k, refs (entry s.mem) own k ≠ some p := by
    intro k hk
    have hd := h.target hk
    simp [hp] at hd
  have hown := update_of_plain hp rfl (rfl : Owner.isTable .data = false)
  have hcount := fun p' => refCount_update h.tree.finiteRefs (r, v) (some p) p'
  simp only [hnone, reduceCtorEq, if_false, Nat.add_zero] at hcount
  have hone : refCount (Function.update (refs (entry s.mem) own) (r, v) (some p)) p = 1 := by
    rw [hcount p, h.exact p, if_neg (by simp [hp]), if_pos rfl]
  obtain ⟨hinv, hleaf⟩ := h.writeLeaf (s.setEntry q (ix0 v) (pa2pte p ||| fl))
    (Function.update own p .data) hq hr hv
    (Or.inr ⟨by simpa using hval, by simp [leaf, hread]⟩)
    (fun p' _ => congrFun (entry_setEntry s q _ _) p') hown
    (h.alloc.retype (by simp [hp, Owner.single]) (Or.inr rfl))
    (by
      intro p'
      rw [href]
      by_cases hpp : p' = p
      · subst hpp
        rw [hone, Function.update_self, if_pos rfl]
        exact (h.alloc.one p' (by simp [hp, Owner.single])).symm
      · have hne : some p ≠ some p' := fun hx => hpp (Option.some.inj hx).symm
        rw [hcount p', if_neg hne, Nat.add_zero, h.exact p', Function.update_of_ne hpp]
        rfl)
    (fun _ => ⟨by simpa using hread, by simpa using hflags⟩)
    (fun _ _ _ => by rw [href, hpa]; exact hone)
    (fun _ _ r' v' hk => absurd hk (by rw [hpa]; exact hnot _))
    (fun _ v' _ => by rw [hpa]; exact hnot _)
  refine ⟨hinv, h.keeps_setEntry hq hleaf rfl hown fun p' τ' hp' => ?_, hleaf⟩
  rw [Function.update_of_ne hp']

/-- The entry of a page changes its flags only. -/
theorem MemInv.setFlags (hk : refs (entry s.mem) own (r, v) = some p) (hpa : pte2pa pte = p)
    (hval : valid pte = true) (hread : readable pte = true)
    (hflags : user pte = true → (writable pte = true ↔ cow pte = false))
    (hsole : user pte = true → writable pte = true → s.count (idx p) = 1) :
    MemInv (s.setEntry q (ix0 v) pte) own ∧ Keeps {r} ∅ s own (s.setEntry q (ix0 v) pte) own ∧
      LeafWritten s (s.setEntry q (ix0 v) pte) own r v pte := by
  obtain ⟨hr, hv, -, -⟩ := refs_eq_some.mp hk
  have href : refOf pte = some p := by simp [refOf, hval, hpa]
  have hsame : Function.update (refs (entry s.mem) own) (r, v) (refOf pte) =
      refs (entry s.mem) own := by
    rw [href, ← hk, Function.update_eq_self]
  obtain ⟨hinv, hleaf⟩ := h.writeLeaf (s.setEntry q (ix0 v) pte) own hq hr hv
    (Or.inr ⟨hval, by simp [leaf, hread]⟩)
    (fun p' _ => congrFun (entry_setEntry s q _ _) p') (fun _ _ => rfl) h.alloc
    (by
      intro p'
      rw [hsame, h.exact p']
      rfl)
    (fun _ => ⟨hread, hflags⟩)
    (fun _ hu hw => by
      rw [hsame, hpa, ← h.count_eq (h.target hk)]
      exact hsole hu hw)
    (fun _ hne => absurd hk (by rwa [hpa] at hne))
    (fun _ v' hv' hk' => hv' (h.sharing.inj r v' v p (by rwa [hpa] at hk') hk))
  exact ⟨hinv, h.keeps_setEntry hq hleaf rfl (fun _ _ => rfl) fun _ _ _ => Iff.rfl, hleaf⟩

/-- A data page gets one more reference, from an entry that gives no write access. -/
theorem MemInv.share (hr : own r = .root true) (hv : v < userPages)
    (hempty : leafAt (entry s.mem) r v = 0#64) (hp : own p = .data) {fl : Pte} (hfb : FlagBits fl)
    (hval : valid fl = true) (hread : readable fl = true)
    (hflags : user fl = true → (writable fl = true ↔ cow fl = false))
    (hnew : ¬(user fl = true ∧ writable fl = true))
    (hprot : ∀ r' v', refs (entry s.mem) own (r', v') = some p →
      ¬(user (leafAt (entry s.mem) r' v') = true ∧ writable (leafAt (entry s.mem) r' v') = true))
    (hinj : ∀ v', refs (entry s.mem) own (r, v') ≠ some p) :
    let t := (s.setEntry q (ix0 v) (pa2pte p ||| fl)).setCount (idx p) (s.count (idx p) + 1)
    MemInv t own ∧ Keeps {r} ∅ s own t own ∧ LeafWritten s t own r v (pa2pte p ||| fl) := by
  intro t
  have hpage : Page p := h.tree.page p (by simp [hp])
  have hpa := hpage.pte2pa_or hfb
  have href := refOf_pa2pte hpage hfb hval
  have hnone : refs (entry s.mem) own (r, v) = none := refs_none_of_empty hempty
  have hcount := fun p' => refCount_update h.tree.finiteRefs (r, v) (some p) p'
  simp only [hnone, reduceCtorEq, if_false, Nat.add_zero] at hcount
  obtain ⟨hinv, hleaf⟩ := h.writeLeaf t own hq hr hv
    (Or.inr ⟨by simpa using hval, by simp [leaf, hread]⟩)
    (fun p' _ => congrFun (entry_setEntry s q _ _) p') (fun _ _ => rfl)
    (h.alloc.setData hp (Nat.succ_pos _))
    (by
      intro p'
      rw [href, hcount p', h.exact p']
      by_cases hpp : p' = p
      · subst hpp
        simp [hp, t]
      · have hne : some p ≠ some p' := fun hx => hpp (Option.some.inj hx).symm
        rw [if_neg hne, Nat.add_zero]
        exact (h.counts_of_ne hp hpp _).symm)
    (fun _ => ⟨by simpa using hread, by simpa using hflags⟩)
    (fun _ hu hw => absurd ⟨by simpa using hu, by simpa using hw⟩ hnew)
    (fun _ _ => by rw [hpa]; exact hprot)
    (fun _ v' _ => by rw [hpa]; exact hinj v')
  exact ⟨hinv, h.keeps_setEntry hq hleaf rfl (fun _ _ => rfl) fun _ _ _ => Iff.rfl, hleaf⟩

/-- A page with further references loses one. -/
theorem MemInv.unmapShared (hk : refs (entry s.mem) own (r, v) = some p) (hc : 1 < s.count (idx p)) :
    let t := (s.setCount (idx p) (s.count (idx p) - 1)).setEntry q (ix0 v) 0#64
    MemInv t own ∧ Keeps {r} ∅ s own t own ∧ LeafWritten s t own r v 0#64 := by
  intro t
  obtain ⟨hr, hv, -, -⟩ := refs_eq_some.mp hk
  have hp : own p = .data := h.target hk
  have href : refOf 0#64 = none := by simp [refOf]
  have hcount := fun p' => refCount_update h.tree.finiteRefs (r, v) none p'
  simp only [hk, reduceCtorEq, if_false, Nat.add_zero] at hcount
  obtain ⟨hinv, hleaf⟩ := h.writeLeaf t own hq hr hv (Or.inl rfl)
    (fun p' _ => congrFun (entry_setEntry _ q _ _) p') (fun _ _ => rfl)
    (h.alloc.setData hp (by omega))
    (by
      intro p'
      have hc' := hcount p'
      rw [h.exact p'] at hc'
      rw [href]
      by_cases hpp : p' = p
      · subst hpp
        rw [if_pos rfl, if_pos hp] at hc'
        rw [if_pos hp]
        simp only [t, setEntry_count, setCount_count_self]
        omega
      · have hne : some p ≠ some p' := fun hx => hpp (Option.some.inj hx).symm
        rw [if_neg hne, Nat.add_zero] at hc'
        rw [hc']
        exact (h.counts_of_ne hp hpp _).symm)
    (by simp) (by simp) (by simp) (by simp)
  exact ⟨hinv, h.keeps_setEntry hq hleaf rfl (fun _ _ => rfl) fun _ _ _ => Iff.rfl, hleaf⟩

/-- The last reference goes, and with it the page. -/
theorem MemInv.unmapLast (hk : refs (entry s.mem) own (r, v) = some p) (hc : s.count (idx p) = 1) :
    let t := (s.released p).setEntry q (ix0 v) 0#64
    MemInv t (Function.update own p .free) ∧
      Keeps {r} ∅ s own t (Function.update own p .free) ∧ LeafWritten s t own r v 0#64 := by
  intro t
  obtain ⟨hr, hv, -, -⟩ := refs_eq_some.mp hk
  have hp : own p = .data := h.target hk
  have href : refOf 0#64 = none := by simp [refOf]
  have hown := update_of_plain hp rfl (rfl : Owner.isTable .free = false)
  have hmem : ∀ p', p' ≠ p → (own p').isTable = false → t.mem p' = s.mem p' := by
    intro p' hpp hp'
    have hset : t.mem p' = (s.released p).mem p' := setEntry_mem_of_plain hq rfl hp'
    rw [hset, released_mem_ne s hpp]
  have hcount := fun p' => refCount_update h.tree.finiteRefs (r, v) none p'
  simp only [hk, reduceCtorEq, if_false, Nat.add_zero] at hcount
  obtain ⟨hinv, hleaf⟩ := h.writeLeaf t (Function.update own p .free) hq hr hv
    (Or.inl rfl)
    (by
      intro p' hp'
      have hpp : p' ≠ p := by
        rintro rfl
        simp [hp, Owner.isTable] at hp'
      funext i
      rw [entry_setEntry]
      simp [Entries.set, entry, released_mem_ne s hpp])
    hown (h.alloc.release (by simp [hp]) (by simp [hp]))
    (by
      intro p'
      have hc' := hcount p'
      rw [h.exact p'] at hc'
      rw [href]
      by_cases hpp : p' = p
      · subst hpp
        rw [if_pos rfl, if_pos hp, hc] at hc'
        rw [Function.update_self, if_neg (by simp)]
        omega
      · have hne : some p ≠ some p' := fun hx => hpp (Option.some.inj hx).symm
        rw [if_neg hne, Nat.add_zero] at hc'
        rw [hc', Function.update_of_ne hpp]
        exact (h.counts_of_ne hp hpp 0).symm)
    (by simp) (by simp) (by simp) (by simp)
  refine ⟨hinv, keeps_writeLeaf hleaf hown ?_ ?_ ?_, hleaf⟩
  · intro p' τ' _
    by_cases hpp : p' = p
    · subst hpp
      simp [hp]
    · rw [Function.update_of_ne hpp]
  · intro p' τ' _ hτ'
    apply hmem p' _ (by simp [hτ', Owner.isTable])
    rintro rfl
    simp [hp] at hτ'
  · intro r' v' p' hr' hk'
    apply hmem p' _ (by simp [h.target hk', Owner.isTable])
    -- another table cannot map the page, since it had one reference
    rintro rfl
    rw [h.count_eq hp] at hc
    exact hr' (congrArg Prod.fst (unique_of_refCount_eq_one hc hk' hk))

/-- An entry moves from a shared page to a private copy. -/
theorem MemInv.moveToCopy {p m : ℕ} (hk : refs (entry s.mem) own (r, v) = some p)
    (hc : 1 < s.count (idx p)) {τ : Tag} (hm : own m = .held τ) {fl : Pte} (hfb : FlagBits fl)
    (hval : valid fl = true) (hread : readable fl = true)
    (hflags : user fl = true → (writable fl = true ↔ cow fl = false)) :
    let t := (s.setEntry q (ix0 v) (pa2pte m ||| fl)).setCount (idx p) (s.count (idx p) - 1)
    MemInv t (Function.update own m .data) ∧
      Keeps {r} {m} s own t (Function.update own m .data) ∧
      LeafWritten s t own r v (pa2pte m ||| fl) := by
  intro t
  obtain ⟨hr, hv, -, -⟩ := refs_eq_some.mp hk
  have hp : own p = .data := h.target hk
  have hpm : p ≠ m := by
    rintro rfl
    simp [hp] at hm
  have hpage : Page m := h.tree.page m (by simp [hm])
  have hpa := hpage.pte2pa_or hfb
  have href := refOf_pa2pte hpage hfb hval
  have hnot : ∀ k, refs (entry s.mem) own k ≠ some m := by
    intro k hk'
    have hd := h.target hk'
    simp [hm] at hd
  have hown := update_of_plain hm rfl (rfl : Owner.isTable .data = false)
  have hcount := fun p' => refCount_update h.tree.finiteRefs (r, v) (some m) p'
  simp only [hk] at hcount
  have hone : refCount (Function.update (refs (entry s.mem) own) (r, v) (some m)) m = 1 := by
    have hcm := hcount m
    rw [if_neg (fun hx => hpm (Option.some.inj hx)), if_pos rfl, h.exact m,
      if_neg (by simp [hm])] at hcm
    omega
  have halloc : Alloc (Function.update own m .data) t.freelist t.count :=
    (h.alloc.retype (by simp [hm, Owner.single]) (Or.inr rfl)).setData
      (by rw [Function.update_of_ne hpm, hp]) (by omega)
  obtain ⟨hinv, hleaf⟩ := h.writeLeaf t (Function.update own m .data) hq hr hv
    (Or.inr ⟨by simpa using hval, by simp [leaf, hread]⟩)
    (fun p' _ => congrFun (entry_setEntry s q _ _) p') hown halloc
    (by
      intro p'
      rw [href]
      by_cases hpm' : p' = m
      · subst hpm'
        rw [hone, Function.update_self, if_pos rfl]
        have hidx := h.alloc.idx_ne (by simp [hm]) (by simp [hp]) (Ne.symm hpm)
        exact ((setCount_count_ne _ _ hidx).trans
          (h.alloc.one p' (by simp [hm, Owner.single]))).symm
      · have hc' := hcount p'
        rw [h.exact p', if_neg (fun hx => hpm' (Option.some.inj hx).symm), Nat.add_zero] at hc'
        rw [Function.update_of_ne hpm']
        by_cases hpp : p' = p
        · subst hpp
          rw [if_pos rfl, if_pos hp] at hc'
          rw [if_pos hp]
          simp only [t, setCount_count_self]
          omega
        · rw [if_neg (fun hx => hpp (Option.some.inj hx).symm), Nat.add_zero] at hc'
          rw [hc']
          exact (h.counts_of_ne hp hpp _).symm)
    (fun _ => ⟨by simpa using hread, by simpa using hflags⟩)
    (fun _ _ _ => by rw [href, hpa]; exact hone)
    (fun _ _ r' v' hk' => absurd hk' (by rw [hpa]; exact hnot _))
    (fun _ v' _ => by rw [hpa]; exact hnot _)
  refine ⟨hinv, h.keeps_setEntry hq hleaf rfl hown fun p' τ' hp' => ?_, hleaf⟩
  rw [Function.update_of_ne hp']

omit hq in
/-- The contents of a page with one reference change: only its own table sees it. -/
theorem MemInv.writeData (hk : refs (entry s.mem) own (r, v) = some p) (hc : s.count (idx p) = 1)
    (b : Buf) :
    MemInv (s.setPage p b) own ∧ Keeps {r} ∅ s own (s.setPage p b) own ∧
      ∀ r' u v', own r' = .root u →
        leafAt (entry (s.setPage p b).mem) r' v' = leafAt (entry s.mem) r' v' := by
  have hp : own p = .data := h.target hk
  have he : ∀ q, (own q).isTable = true → entry (s.setPage p b).mem q = entry s.mem q := by
    intro q hq
    apply entry_setPage_ne
    rintro rfl
    simp [hp, Owner.isTable] at hq
  have htree := h.tree.congr h.tree.page (fun _ _ => rfl) he
  have hleaf : ∀ r' u v', own r' = .root u →
      leafAt (entry (s.setPage p b).mem) r' v' = leafAt (entry s.mem) r' v' := by
    intro r' u v' hr'
    apply h.tree.leafAt_congr htree hr' hr' (fun _ _ _ => Iff.rfl)
    intro q i j hq
    exact he q (by simp [hq, Owner.isTable])
  refine ⟨?_, ?_, hleaf⟩
  · apply h.of_tree htree h.alloc (fun _ => Iff.rfl) (fun _ _ => rfl) (fun _ => Iff.rfl)
    intro r' v' hr' _
    exact hleaf r' true v' hr'
  · constructor
    · intro r' u _
      rfl
    · intro p' τ _
      rfl
    · intro p' r' o _ _
      rfl
    · intro r' u v' _ hr'
      exact hleaf r' u v' hr'
    · intro p' τ _ hτ
      apply setPage_mem_ne
      rintro rfl
      simp [hp] at hτ
    · intro r' v' p' hr' hk'
      apply setPage_mem_ne
      rintro rfl
      rw [h.count_eq hp] at hc
      exact hr' (congrArg Prod.fst (unique_of_refCount_eq_one hc hk' hk))

/-- A leaf that is not counted: one of the kernel's, or one above the user pages. -/
theorem MemInv.setUncounted (hv : v < 2 ^ 27) (hun : own r ≠ .root true ∨ userPages ≤ v)
    (hpte : pte = 0#64 ∨ (valid pte = true ∧ leaf pte = true)) :
    MemInv (s.setEntry q (ix0 v) pte) own ∧ Keeps {r} ∅ s own (s.setEntry q (ix0 v) pte) own ∧
      LeafWritten s (s.setEntry q (ix0 v) pte) own r v pte := by
  obtain ⟨htree, hleaf⟩ := h.leafTree (s.setEntry q (ix0 v) pte) own hq hv hpte
    h.tree.page (fun p' _ => congrFun (entry_setEntry s q _ _) p') (fun _ _ => rfl)
  refine ⟨?_, h.keeps_setEntry hq hleaf rfl (fun _ _ => rfl) fun _ _ _ => Iff.rfl, hleaf⟩
  apply h.of_tree htree h.alloc (fun _ => Iff.rfl) (fun _ _ => rfl) (fun _ => Iff.rfl)
  intro r' v' hr' hv'
  rw [hleaf r' true v' hr' (Or.inr (hv'.trans userPages_lt)), if_neg]
  rintro ⟨rfl, rfl⟩
  rcases hun with hun | hun
  · exact hun hr'
  · omega

end

end

end leaves
end Xv6
