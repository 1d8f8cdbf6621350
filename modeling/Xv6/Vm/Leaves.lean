import Xv6.Vm.Keeps

/-! Changes of the page tables: table pages are linked and dropped, and leaf entries written.
-/
namespace Xv6
open Bytes RefCount

section tables
variable [Image] {s t : Machine} {own own' : ℕ → Owner}

section
variable (h : MemInv s own)
include h

/-- A held page becomes an inner table page, or an inner table page is given back, with every
entry that a walk finds unchanged. -/
theorem MemInv.relink {r q : ℕ} {o : Owner} (hout : own q ≠ .outside) (hqd : own q ≠ .data)
    (hod : o ≠ .data) (hqr : ∀ u, own q ≠ .root u) (hor : ∀ u, o ≠ .root u)
    (hqw : ∀ r', (own q).within = some r' → r' = r) (how : ∀ r', o.within = some r' → r' = r)
    (htree : Tree (entry t.mem) (Function.update own q o))
    (halloc : Alloc (Function.update own q o) t.freelist t.count)
    (hcount : ∀ p, idx p ≠ idx q → t.count (idx p) = s.count (idx p))
    (hleaf : ∀ r u v, own r = .root u →
      leafAt (entry t.mem) r v = leafAt (entry s.mem) r v)
    (hmem : ∀ p, p ≠ q → (own p).isTable = false → t.mem p = s.mem p) :
    MemInv t (Function.update own q o) ∧
      KeepsBut {r} ∅ {q} s own t (Function.update own q o) := by
  have hsame : ∀ p o', o' ≠ o → o' ≠ own q → (Function.update own q o p = o' ↔ own p = o') := by
    intro p o' ho' hoq
    by_cases hp : p = q
    · subst hp
      rw [Function.update_self]
      exact iff_of_false (fun h => ho' h.symm) (fun h => hoq h.symm)
    · rw [Function.update_of_ne hp]
  have hroot : ∀ r u, Function.update own q o r = .root u ↔ own r = .root u := fun r u =>
    hsame r _ (fun h => hor u h.symm) (fun h => hqr u h.symm)
  constructor
  · apply h.of_tree htree halloc
    · intro p
      exact hsame p _ (fun h => hod h.symm) (fun h => hqd h.symm)
    · intro p hp
      exact hcount p (h.alloc.idx_ne_of_data hp hout hqd)
    · intro r
      exact hroot r true
    · intro r v hr _
      exact hleaf r true v hr
  · constructor
    · intro r u _
      exact hroot r u
    · intro p τ hp
      rw [Function.update_of_ne hp]
    · intro p r' o' hr' ho'
      apply hsame p o'
      · rintro rfl
        exact hr' (how r' ho')
      · rintro rfl
        exact hr' (hqw r' ho')
    · intro r u v _ hr
      exact hleaf r u v hr
    · intro p τ hp hτ
      exact hmem p hp (by simp [hτ, Owner.isTable])
    · intro r v p _ hk
      have hp := h.target hk
      apply hmem p _ (by simp [hp, Owner.isTable])
      rintro rfl
      exact hqd hp

theorem MemInv.linkMid {r i q : ℕ} {u : Bool} {τ : Tag} (hr : own r = .root u) (hi : i < 256)
    (he : entry s.mem r i = 0#64) (hq : own q = .held τ) (hz : ∀ k < 512, entry s.mem q k = 0#64) :
    MemInv (s.setEntry r i (link q)) (Function.update own q (.mid r i)) ∧
      KeepsBut {r} ∅ {q} s own (s.setEntry r i (link q)) (Function.update own q (.mid r i)) := by
  apply h.relink (r := r) (by simp [hq]) (by simp [hq]) (by simp) (by simp [hq]) (by simp)
    (by simp [hq, Owner.within]) (by simp [Owner.within])
  · rw [entry_setEntry]
    exact h.tree.linkMid hr hi he hq hz
  · exact h.alloc.retype (by simp [hq, Owner.single]) (Or.inl rfl)
  · intro p _
    rfl
  · intro r' u' v hr'
    rw [entry_setEntry]
    exact h.tree.leafAt_linkMid hr hi he hq hz hr' v
  · intro p _ hp
    apply setEntry_mem_ne
    rintro rfl
    simp [hr, Owner.isTable] at hp

theorem MemInv.linkLow {r i j m q : ℕ} {τ : Tag} (hm : own m = .mid r i) (hj : j < 512)
    (he : entry s.mem m j = 0#64) (hq : own q = .held τ) (hz : ∀ k < 512, entry s.mem q k = 0#64) :
    MemInv (s.setEntry m j (link q)) (Function.update own q (.low r i j)) ∧
      KeepsBut {r} ∅ {q} s own (s.setEntry m j (link q)) (Function.update own q (.low r i j)) := by
  apply h.relink (r := r) (by simp [hq]) (by simp [hq]) (by simp) (by simp [hq]) (by simp)
    (by simp [hq, Owner.within]) (by simp [Owner.within])
  · rw [entry_setEntry]
    exact h.tree.linkLow hm hj he hq hz
  · exact h.alloc.retype (by simp [hq, Owner.single]) (Or.inl rfl)
  · intro p _
    rfl
  · intro r' u' v hr'
    rw [entry_setEntry]
    exact h.tree.leafAt_linkLow hm hj he hq hz hr' v
  · intro p _ hp
    apply setEntry_mem_ne
    rintro rfl
    simp [hm, Owner.isTable] at hp

omit h in
/-- Junk in a page that is no table page any more does not matter. -/
theorem Tree.released {p m j : ℕ} (htree : Tree (Entries.set (entry s.mem) m j 0#64) own)
    (hp : (own p).isTable = false) (hmp : m ≠ p) :
    Tree (entry ((s.released p).setEntry m j 0#64).mem) own ∧
      ∀ q, (own q).isTable = true → entry ((s.released p).setEntry m j 0#64).mem q =
        Entries.set (entry s.mem) m j 0#64 q := by
  have he : ∀ q, (own q).isTable = true → entry ((s.released p).setEntry m j 0#64).mem q =
      Entries.set (entry s.mem) m j 0#64 q := by
    intro q hq
    have hqp : q ≠ p := by
      rintro rfl
      simp [hp] at hq
    funext i
    rw [entry_setEntry]
    simp [Entries.set, entry, released_mem_ne s hqp]
  exact ⟨htree.congr htree.page (fun _ _ => rfl) he, he⟩

/-- A table page below a root is given back and the entry that led to it is cleared. -/
theorem MemInv.dropTable {r m j q : ℕ} (hq : (own q).within = some r) (hm : (own m).isTable = true)
    (hmq : m ≠ q) (hset : Tree (Entries.set (entry s.mem) m j 0#64) (Function.update own q .free))
    (hleaf : ∀ r' u v, own r' = .root u →
      leafAt (Entries.set (entry s.mem) m j 0#64) r' v = leafAt (entry s.mem) r' v) :
    MemInv ((s.released q).setEntry m j 0#64) (Function.update own q .free) ∧
      KeepsBut {r} ∅ {q} s own ((s.released q).setEntry m j 0#64) (Function.update own q .free) := by
  have hne : ∀ o : Owner, o.within = none → own q ≠ o := by
    rintro o ho rfl
    simp [ho] at hq
  obtain ⟨htree, he⟩ := hset.released (p := q) (by simp [Owner.isTable]) hmq
  apply h.relink (r := r) (hne _ rfl) (hne _ rfl) (by simp) (fun u => hne _ rfl) (by simp)
    (by simp [hq]) (by simp [Owner.within]) htree
  · exact h.alloc.release (hne _ rfl) (hne _ rfl)
  · intro p hp
    exact released_count_ne s hp
  · intro r' u v hr'
    have hr'q : r' ≠ q := by
      rintro rfl
      exact hne _ rfl hr'
    have hr'' : Function.update own q .free r' = .root u := by
      rw [Function.update_of_ne hr'q, hr']
    rw [hset.leafAt_congr htree hr'' hr'' (fun _ _ _ => Iff.rfl)
      (fun p i' j' hp => he p (by simp [hp, Owner.isTable]))]
    exact hleaf r' u v hr'
  · intro p hpq hp
    rw [setEntry_mem_ne _ _ _ (by rintro rfl; simp [hm] at hp), released_mem_ne s hpq]

/-- `freewalk` gives back a low table page and clears the entry that led to it. -/
theorem MemInv.dropLow {r i j m q : ℕ} (hm : own m = .mid r i) (hq : own q = .low r i j)
    (hz : ∀ k < 512, entry s.mem q k = 0#64) :
    MemInv ((s.released q).setEntry m j 0#64) (Function.update own q .free) ∧
      KeepsBut {r} ∅ {q} s own ((s.released q).setEntry m j 0#64) (Function.update own q .free) := by
  have hmq : m ≠ q := by
    rintro rfl
    simp [hm] at hq
  exact h.dropTable (by rw [hq]; rfl) (by rw [hm]; rfl) hmq (h.tree.dropLow hm hq)
    fun r' u v hr' => h.tree.leafAt_dropLow hm hq hz hr' v

theorem MemInv.dropMid {r i q : ℕ} (hq : own q = .mid r i) (hz : ∀ p j, own p ≠ .low r i j) :
    MemInv ((s.released q).setEntry r i 0#64) (Function.update own q .free) ∧
      KeepsBut {r} ∅ {q} s own ((s.released q).setEntry r i 0#64) (Function.update own q .free) := by
  obtain ⟨⟨u, hr⟩, -, -⟩ := h.tree.midLink q r i hq
  have hrq : r ≠ q := by
    rintro rfl
    simp [hr] at hq
  exact h.dropTable (by rw [hq]; rfl) (by rw [hr]; rfl) hrq (h.tree.dropMid hq hz)
    fun r' u v hr' => h.tree.leafAt_dropMid hq hz hr' v

/-- A zeroed held page becomes an empty page table. -/
theorem MemInv.newRoot {q : ℕ} {τ : Tag} (u : Bool) (hq : own q = .held τ)
    (hz : ∀ k < 512, entry s.mem q k = 0#64) :
    MemInv s (Function.update own q (.root u)) ∧
      Keeps {q} {q} s own s (Function.update own q (.root u)) ∧
      ∀ v, leafAt (entry s.mem) q v = 0#64 := by
  have htree := h.tree.newRoot u hq hz
  have hzero := h.tree.leafAt_newRoot u hq hz
  have hown : ∀ p, p ≠ q → Function.update own q (.root u) p = own p := fun p hp =>
    Function.update_of_ne hp _ _
  have hrefs : refs (entry s.mem) (Function.update own q (.root u)) = refs (entry s.mem) own := by
    funext rv
    obtain ⟨r, v⟩ := rv
    unfold refs
    by_cases hr : r = q
    · subst hr
      simp [hzero v, hq]
    · rw [hown r hr]
  refine ⟨?_, ?_, hzero⟩
  · apply h.of_refs htree (h.alloc.retype (by simp [hq, Owner.single]) (Or.inl rfl)) _ _ hrefs
    · intro r v p _
      rfl
    · intro p
      by_cases hp : p = q
      · subst hp
        simp [hq]
      · rw [hown p hp]
    · intro p _
      rfl
  · constructor
    · intro r u' hr
      rw [hown r hr]
    · intro p τ' hp
      rw [hown p hp]
    · intro p r o _ ho
      by_cases hp : p = q
      · subst hp
        rw [Function.update_self, hq]
        exact iff_of_false (by rintro rfl; cases ho) (by rintro rfl; cases ho)
      · rw [hown p hp]
    · intro r u' v _ _
      rfl
    · intro p τ' _ _
      rfl
    · intro r v p _ _
      rfl

/-- `freewalk` gives back a root with no table below it. -/
theorem MemInv.dropRoot {q : ℕ} {u : Bool} (hq : own q = .root u) (hz : ∀ p i, own p ≠ .mid q i) :
    MemInv (s.released q) (Function.update own q .free) ∧
      Keeps {q} ∅ s own (s.released q) (Function.update own q .free) := by
  have hown : ∀ p, p ≠ q → Function.update own q .free p = own p := fun p hp =>
    Function.update_of_ne hp _ _
  have he : ∀ p, p ≠ q → entry (s.released q).mem p = entry s.mem p := by
    intro p hp
    funext i
    simp [entry, released_mem_ne s hp]
  have hbase := h.tree.dropRoot hq hz
  have htree : Tree (entry (s.released q).mem) (Function.update own q .free) := by
    apply hbase.congr hbase.page (fun _ _ => rfl)
    intro p hp
    apply he
    rintro rfl
    simp [Owner.isTable] at hp
  have hsame : ∀ p o, o ≠ .free → o ≠ .root u → (Function.update own q .free p = o ↔ own p = o) := by
    intro p o ho hou
    by_cases hp : p = q
    · subst hp
      rw [Function.update_self, hq]
      exact iff_of_false (fun h => ho h.symm) (fun h => hou h.symm)
    · rw [hown p hp]
  have hleaf : ∀ r u' v, r ≠ q → own r = .root u' →
      leafAt (entry (s.released q).mem) r v = leafAt (entry s.mem) r v := by
    intro r u' v hr hu'
    apply h.tree.leafAt_congr htree hu' (by rw [hown r hr, hu'])
    · intro p i j
      exact hsame p _ (by simp) (by simp)
    · intro p i j hp
      apply he
      rintro rfl
      simp [hq] at hp
  -- the entries of the root are empty, so that it held no reference
  have hempty : ∀ v, leafAt (entry s.mem) q v = 0#64 := by
    intro v
    apply h.tree.leafAt_none hq
    intro p hp
    obtain ⟨-, m, hm, -⟩ := h.tree.lowLink p q _ _ hp
    exact hz m _ hm
  have hrefs : refs (entry (s.released q).mem) (Function.update own q .free) =
      refs (entry s.mem) own := by
    funext rv
    obtain ⟨r, v⟩ := rv
    by_cases hr : r = q
    · subst hr
      simp [refs, hempty v]
    · exact refs_congr (by rw [hown r hr]) (fun hu' _ => hleaf r true v hr hu')
  constructor
  · apply h.of_refs htree (h.alloc.release (by simp [hq]) (by simp [hq])) _ _ hrefs
    · intro r v p hk
      apply hleaf r true v _ (refs_eq_some.mp hk).1
      rintro rfl
      obtain ⟨-, -, hval, -⟩ := refs_eq_some.mp hk
      simp [hempty v] at hval
    · intro p
      exact hsame p _ (by simp) (by simp)
    · intro p hp
      exact released_count_ne s (h.alloc.idx_ne_of_data hp (by simp [hq]) (by simp [hq]))
  · constructor
    · intro r u' hr
      rw [hown r hr]
    · intro p τ _
      exact hsame p _ (by simp) (by simp)
    · intro p r o _ ho
      exact hsame p o (by rintro rfl; cases ho) (by rintro rfl; cases ho)
    · intro r u' v hr hu'
      exact hleaf r u' v hr hu'
    · intro p τ _ hτ
      apply released_mem_ne
      rintro rfl
      simp [hq] at hτ
    · intro r v p _ hk
      apply released_mem_ne
      rintro rfl
      have hd := h.target hk
      simp [hq] at hd

end

end tables
end Xv6
