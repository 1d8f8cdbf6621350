import Mathlib.Data.List.Basic
import Xv6.Vm.PageTable

/-! Who owns each physical page. The owner map is ghost state: it makes every page play one
part, so that page tables are disjoint trees and a write to one leaves the others alone. The
tree conditions speak about entries, not about bytes. -/
namespace Xv6
open Bytes

/-- What a page held outside page tables is used for. -/
inductive Tag where
  | temp
  | trapframe (i : ℕ)
  | kstack (i : ℕ)
  | pipe
  | arg (i : ℕ)
  deriving DecidableEq

/-- The part a page plays: a table page names its root and the indices that lead to it. -/
inductive Owner where
  | outside
  | free
  | held (t : Tag)
  | root (isUser : Bool)
  | mid (r i : ℕ)
  | low (r i j : ℕ)
  | data
  deriving DecidableEq

def Owner.isTable : Owner → Bool
  | .root _ => true
  | .mid _ _ => true
  | .low _ _ _ => true
  | _ => false

/-- The root of the table that an inner or lower table page belongs to. -/
def Owner.within : Owner → Option ℕ
  | .mid r _ => some r
  | .low r _ _ => some r
  | _ => none

theorem Owner.isTable_of_within {o : Owner} {r : ℕ} (h : o.within = some r) :
    o.isTable = true := by
  cases o <;> simp_all [within, isTable]

/-- A page that the allocator manages. -/
def Page [Image] (p : ℕ) : Prop := kend ≤ p ∧ p < phystop ∧ p % pgsize = 0

/-- The entry of an inner table that points to the table page `q`. -/
def link (q : ℕ) : Pte := pa2pte q ||| pteV

/-- Entries by page and index. -/
abbrev Entries := ℕ → ℕ → Pte

def Entries.set (e : Entries) (q k : ℕ) (v : Pte) : Entries := fun p i =>
  if p = q ∧ i = k then v else e p i

theorem Entries.set_self (e : Entries) (q k : ℕ) (v : Pte) : e.set q k v q k = v := by
  simp [Entries.set]

theorem Entries.set_page (e : Entries) {p q : ℕ} (k : ℕ) (v : Pte) (h : p ≠ q) :
    e.set q k v p = e p := by
  funext i
  simp [Entries.set, h]

/-- Page tables are three-level trees with private table pages. -/
structure Tree [Image] (e : Entries) (own : ℕ → Owner) : Prop where
  page : ∀ p, own p ≠ .outside → Page p
  rootEntry : ∀ r u i, own r = .root u → i < 512 →
    e r i = 0#64 ∨ ∃ q, own q = .mid r i ∧ e r i = link q
  midLink : ∀ q r i, own q = .mid r i → (∃ u, own r = .root u) ∧ i < 256 ∧ e r i = link q
  midEntry : ∀ q r i j, own q = .mid r i → j < 512 →
    e q j = 0#64 ∨ ∃ q', own q' = .low r i j ∧ e q j = link q'
  lowLink : ∀ q r i j, own q = .low r i j → j < 512 ∧ ∃ q', own q' = .mid r i ∧ e q' j = link q
  lowEntry : ∀ q r i j k, own q = .low r i j → k < 512 →
    e q k = 0#64 ∨ (valid (e q k) = true ∧ leaf (e q k) = true)

@[simp] theorem valid_link (q : ℕ) : valid (link q) = true := by
  rw [link, valid_pa2pte_or]
  rfl

@[simp] theorem leaf_link (q : ℕ) : leaf (link q) = false := by
  rw [link, leaf_pa2pte_or]
  rfl

@[simp] theorem valid_zero : valid 0#64 = false := rfl

theorem link_ne_zero (q : ℕ) : link q ≠ 0#64 := by
  intro h
  have hv := valid_link q
  rw [h] at hv
  contradiction

theorem vpn_eq_of_ix {a b : ℕ} (ha : a < 2 ^ 27) (hb : b < 2 ^ 27) (h2 : ix2 a = ix2 b)
    (h1 : ix1 a = ix1 b) (h0 : ix0 a = ix0 b) : a = b := by
  simp only [ix2, ix1, ix0] at h2 h1 h0
  omega

section tree
variable [Image] {e e' : Entries} {own own' : ℕ → Owner}

theorem Page.pte2pa_or {p : ℕ} (h : Page p) {fl : Pte} (hf : FlagBits fl) :
    pte2pa (pa2pte p ||| fl) = p := by
  apply Xv6.pte2pa_or h.2.2 _ hf
  have hlt := h.2.1
  simp only [phystop, kernbase] at hlt
  omega

theorem pte2pa_link {q : ℕ} (h : Page q) : pte2pa (link q) = q := h.pte2pa_or flagBits_pteV

variable {u : Bool}

section
variable (h : Tree e own)
include h

theorem Tree.link_inj {p q : ℕ} (hp : own p ≠ .outside) (hq : own q ≠ .outside)
    (hl : link p = link q) : p = q := by
  rw [← pte2pa_link (h.page p hp), hl, pte2pa_link (h.page q hq)]

theorem Tree.low_root {q r i j : ℕ} (hq : own q = .low r i j) :
    (∃ u, own r = .root u) ∧ i < 256 ∧ j < 512 := by
  obtain ⟨hj, q', hq', -⟩ := h.lowLink q r i j hq
  obtain ⟨hr, hi, -⟩ := h.midLink q' r i hq'
  exact ⟨hr, hi, hj⟩

theorem Tree.mid_unique {p q r i : ℕ} (hp : own p = .mid r i) (hq : own q = .mid r i) : p = q := by
  obtain ⟨-, -, hp'⟩ := h.midLink p r i hp
  obtain ⟨-, -, hq'⟩ := h.midLink q r i hq
  exact h.link_inj (by simp [hp]) (by simp [hq]) (hp'.symm.trans hq')

theorem Tree.low_unique {p q r i j : ℕ} (hp : own p = .low r i j)
    (hq : own q = .low r i j) : p = q := by
  obtain ⟨-, p', hp', hpl⟩ := h.lowLink p r i j hp
  obtain ⟨-, q', hq', hql⟩ := h.lowLink q r i j hq
  obtain rfl := h.mid_unique hp' hq'
  exact h.link_inj (by simp [hp]) (by simp [hq]) (hpl.symm.trans hql)

/-- A walk ends in the low page that the owner map names. -/
theorem Tree.leafAt_low {q r vpn : ℕ}
    (hq : own q = .low r (ix2 vpn) (ix1 vpn)) : leafAt e r vpn = e q (ix0 vpn) := by
  obtain ⟨-, m, hm, hml⟩ := h.lowLink q r _ _ hq
  obtain ⟨-, -, hrl⟩ := h.midLink m r _ hm
  have hpm := pte2pa_link (h.page m (by simp [hm]))
  have hpq := pte2pa_link (h.page q (by simp [hq]))
  rw [leafAt, hrl, valid_link, if_pos rfl, hpm, hml, valid_link, if_pos rfl, hpq]

theorem Tree.leafAt_none {r vpn : ℕ} (hr : own r = .root u)
    (hno : ∀ q, own q ≠ .low r (ix2 vpn) (ix1 vpn)) : leafAt e r vpn = 0#64 := by
  unfold leafAt
  rcases h.rootEntry r u (ix2 vpn) hr (Nat.mod_lt _ (by decide)) with h0 | ⟨m, hm, hml⟩
  · simp [h0]
  · have hpm := pte2pa_link (h.page m (by simp [hm]))
    rw [hml, valid_link, if_pos rfl, hpm]
    rcases h.midEntry m r _ (ix1 vpn) hm (Nat.mod_lt _ (by decide)) with h1 | ⟨q, hq, -⟩
    · simp [h1]
    · exact absurd hq (hno q)

/-- Nothing but the table pages matters. -/
theorem Tree.congr (hpage : ∀ p, own' p ≠ .outside → Page p)
    (hown : ∀ p, (own p).isTable = true ∨ (own' p).isTable = true → own' p = own p)
    (he : ∀ p, (own p).isTable = true → e' p = e p) : Tree e' own' := by
  have hroot : ∀ r u, own' r = .root u ↔ own r = .root u := by
    grind [Owner.isTable]
  have hmid : ∀ q r i, own' q = .mid r i ↔ own q = .mid r i := by
    grind [Owner.isTable]
  have hlow : ∀ q r i j, own' q = .low r i j ↔ own q = .low r i j := by
    grind [Owner.isTable]
  have heRoot : ∀ r u, own r = .root u → e' r = e r := by
    intro r u hr
    exact he r (by simp [hr, Owner.isTable])
  have heMid : ∀ q r i, own q = .mid r i → e' q = e q := by
    intro q r i hq
    exact he q (by simp [hq, Owner.isTable])
  have heLow : ∀ q r i j, own q = .low r i j → e' q = e q := by
    intro q r i j hq
    exact he q (by simp [hq, Owner.isTable])
  constructor
  · exact hpage
  · intro r u i hr hi
    rw [hroot] at hr
    simpa only [hmid, heRoot r u hr] using h.rootEntry r u i hr hi
  · intro q r i hq
    rw [hmid] at hq
    obtain ⟨⟨u, hu⟩, hi, hl⟩ := h.midLink q r i hq
    exact ⟨⟨u, (hroot r u).mpr hu⟩, hi, by rw [heRoot r u hu, hl]⟩
  · intro q r i j hq hj
    rw [hmid] at hq
    simpa only [hlow, heMid q r i hq] using h.midEntry q r i j hq hj
  · intro q r i j hq
    rw [hlow] at hq
    obtain ⟨hj, m, hm, hl⟩ := h.lowLink q r i j hq
    exact ⟨hj, m, (hmid m r i).mpr hm, by rw [heMid m r i hm, hl]⟩
  · intro q r i j k hq hk
    rw [hlow] at hq
    simpa only [heLow q r i j hq] using h.lowEntry q r i j k hq hk

/-- The entry for a page number, read off the owner map. -/
def LeafIs (e : Entries) (own : ℕ → Owner) (r vpn : ℕ) (v : Pte) : Prop :=
  (∃ q, own q = .low r (ix2 vpn) (ix1 vpn) ∧ e q (ix0 vpn) = v) ∨
    ((∀ q, own q ≠ .low r (ix2 vpn) (ix1 vpn)) ∧ v = 0#64)

theorem Tree.leafAt_eq {r vpn : ℕ} (hr : own r = .root u) {v : Pte}
    (hv : LeafIs e own r vpn v) : leafAt e r vpn = v := by
  rcases hv with ⟨q, hq, rfl⟩ | ⟨hno, rfl⟩
  · exact h.leafAt_low hq
  · exact h.leafAt_none hr hno

theorem Tree.leafIs {r : ℕ} (hr : own r = .root u) (vpn : ℕ) :
    LeafIs e own r vpn (leafAt e r vpn) := by
  by_cases hq : ∃ q, own q = .low r (ix2 vpn) (ix1 vpn)
  · obtain ⟨q, hq⟩ := hq
    exact Or.inl ⟨q, hq, (h.leafAt_low hq).symm⟩
  · have hno : ∀ q, own q ≠ .low r (ix2 vpn) (ix1 vpn) := fun q hq' => hq ⟨q, hq'⟩
    exact Or.inr ⟨hno, h.leafAt_none hr hno⟩

theorem Tree.leafAt_entry {r : ℕ} (hr : own r = .root u) (vpn : ℕ) :
    leafAt e r vpn = 0#64 ∨ (valid (leafAt e r vpn) = true ∧ leaf (leafAt e r vpn) = true) := by
  rcases h.leafIs hr vpn with ⟨q, hq, hv⟩ | ⟨-, hv⟩
  · rw [← hv]
    exact h.lowEntry q r _ _ _ hq (Nat.mod_lt _ (by decide))
  · exact Or.inl hv

theorem Tree.leaf_of_valid {r vpn : ℕ} (hr : own r = .root u) (hval : valid (leafAt e r vpn) = true) :
    leaf (leafAt e r vpn) = true := by
  rcases h.leafAt_entry hr vpn with h0 | hleaf
  · rw [h0] at hval
    cases hval
  · exact hleaf.2

theorem Tree.leafAt_congr (h' : Tree e' own') {r : ℕ} {u u' : Bool} (hr : own r = .root u)
    (hr' : own' r = .root u') (hlow : ∀ q i j, own' q = .low r i j ↔ own q = .low r i j)
    (he : ∀ q i j, own q = .low r i j → e' q = e q) (vpn : ℕ) :
    leafAt e' r vpn = leafAt e r vpn := by
  apply h'.leafAt_eq hr'
  rcases h.leafIs hr vpn with ⟨q, hq, hv⟩ | ⟨hno, hv⟩
  · exact Or.inl ⟨q, (hlow q _ _).mpr hq, by rw [he q _ _ hq, hv]⟩
  · exact Or.inr ⟨fun q hq => hno q ((hlow q _ _).mp hq), hv⟩

end

/-! Each change that the kernel makes to a tree. -/

section
variable (h : Tree e own)
include h

variable {t : Tag}

/-- Each clause at one place is enough to keep the same clause there. -/
theorem Tree.change (hpage : ∀ p, (own p ≠ .outside → Page p) → own' p ≠ .outside → Page p)
    (hrootEntry : ∀ r u i, (own r = .root u → i < 512 →
        e r i = 0#64 ∨ ∃ q, own q = .mid r i ∧ e r i = link q) →
      own' r = .root u → i < 512 → e' r i = 0#64 ∨ ∃ q, own' q = .mid r i ∧ e' r i = link q)
    (hmidLink : ∀ q r i, (own q = .mid r i → (∃ u, own r = .root u) ∧ i < 256 ∧ e r i = link q) →
      own' q = .mid r i → (∃ u, own' r = .root u) ∧ i < 256 ∧ e' r i = link q)
    (hmidEntry : ∀ q r i j, (own q = .mid r i → j < 512 →
        e q j = 0#64 ∨ ∃ q', own q' = .low r i j ∧ e q j = link q') →
      own' q = .mid r i → j < 512 → e' q j = 0#64 ∨ ∃ q', own' q' = .low r i j ∧ e' q j = link q')
    (hlowLink : ∀ q r i j, (own q = .low r i j → j < 512 ∧ ∃ q', own q' = .mid r i ∧ e q' j = link q) →
      own' q = .low r i j → j < 512 ∧ ∃ q', own' q' = .mid r i ∧ e' q' j = link q)
    (hlowEntry : ∀ q r i j k, (own q = .low r i j → k < 512 →
        e q k = 0#64 ∨ (valid (e q k) = true ∧ leaf (e q k) = true)) →
      own' q = .low r i j → k < 512 →
        e' q k = 0#64 ∨ (valid (e' q k) = true ∧ leaf (e' q k) = true)) : Tree e' own' :=
  ⟨fun p => hpage p (h.page p), fun r u i => hrootEntry r u i (h.rootEntry r u i),
    fun q r i => hmidLink q r i (h.midLink q r i), fun q r i j => hmidEntry q r i j (h.midEntry q r i j),
    fun q r i j => hlowLink q r i j (h.lowLink q r i j),
    fun q r i j k => hlowEntry q r i j k (h.lowEntry q r i j k)⟩

theorem Tree.newRoot {q : ℕ} (u : Bool) (hq : own q = .held t)
    (hz : ∀ k < 512, e q k = 0#64) : Tree e (Function.update own q (.root u)) := by
  apply h.change
  all_goals
    intros
    grind

theorem Tree.leafAt_newRoot {q : ℕ} (u : Bool) (hq : own q = .held t) (hz : ∀ k < 512, e q k = 0#64)
    (vpn : ℕ) : leafAt e q vpn = 0#64 := by
  apply (h.newRoot u hq hz).leafAt_none (Function.update_self _ _ _)
  intro p hp
  have hroot := (h.newRoot u hq hz).low_root hp
  have hpq : p ≠ q := by
    rintro rfl
    simp at hp
  rw [Function.update_of_ne hpq] at hp
  obtain ⟨⟨u', hu'⟩, -⟩ := h.low_root hp
  simp [hq] at hu'

theorem Tree.linkMid {r i q : ℕ} (hr : own r = .root u) (hi : i < 256) (he : e r i = 0#64)
    (hq : own q = .held t) (hz : ∀ k < 512, e q k = 0#64) :
    Tree (e.set r i (link q)) (Function.update own q (.mid r i)) := by
  have hrq : r ≠ q := by
    rintro rfl
    simp [hr] at hq
  have hne := link_ne_zero
  unfold Entries.set
  apply h.change
  all_goals
    intros
    grind

variable {u' : Bool}

theorem Tree.leafAt_linkMid {r i q : ℕ} (hr : own r = .root u) (hi : i < 256) (he : e r i = 0#64)
    (hq : own q = .held t) (hz : ∀ k < 512, e q k = 0#64) {r' : ℕ} (hr' : own r' = .root u')
    (vpn : ℕ) : leafAt (e.set r i (link q)) r' vpn = leafAt e r' vpn := by
  apply h.leafAt_congr (h.linkMid hr hi he hq hz) hr'
  · rw [Function.update_of_ne (by rintro rfl; simp [hr'] at hq), hr']
  · grind
  · intro p i' j' hp
    exact Entries.set_page _ _ _ (by rintro rfl; simp [hr] at hp)

variable {r i j m q : ℕ}

theorem Tree.linkLow (hm : own m = .mid r i) (hj : j < 512) (he : e m j = 0#64)
    (hq : own q = .held t) (hz : ∀ k < 512, e q k = 0#64) :
    Tree (e.set m j (link q)) (Function.update own q (.low r i j)) := by
  have hmq : m ≠ q := by
    rintro rfl
    simp [hm] at hq
  have hne := link_ne_zero
  have hmid : ∀ p, own p = .mid r i → p = m := fun p hp => h.mid_unique hp hm
  unfold Entries.set
  apply h.change
  all_goals
    intros
    grind

theorem Tree.leafAt_linkLow (hm : own m = .mid r i) (hj : j < 512) (he : e m j = 0#64)
    (hq : own q = .held t) (hz : ∀ k < 512, e q k = 0#64) {r' : ℕ} (hr' : own r' = .root u')
    (vpn : ℕ) : leafAt (e.set m j (link q)) r' vpn = leafAt e r' vpn := by
  have hrq : r' ≠ q := by
    rintro rfl
    simp [hr'] at hq
  apply (h.linkLow hm hj he hq hz).leafAt_eq (by rw [Function.update_of_ne hrq, hr'])
  have hmid : ∀ p, own p = .mid r i → p = m := fun p hp => h.mid_unique hp hm
  have hnone : ∀ p, own p ≠ .low r i j := by
    intro p hp
    obtain ⟨-, m', hm', hl⟩ := h.lowLink p r i j hp
    rw [hmid m' hm', he] at hl
    exact link_ne_zero p hl.symm
  have hk : ix0 vpn < 512 := Nat.mod_lt _ (by decide)
  have hleaf := h.leafIs hr' vpn
  unfold LeafIs Entries.set at *
  by_cases hnew : r' = r ∧ ix2 vpn = i ∧ ix1 vpn = j
  · -- the new page is the low page of `vpn`, and it is empty
    left
    refine ⟨q, by simp [hnew], ?_⟩
    grind
  · grind

theorem Tree.setLeaf {r i j q k : ℕ} {v : Pte} (hq : own q = .low r i j)
    (hv : v = 0#64 ∨ (valid v = true ∧ leaf v = true)) : Tree (e.set q k v) own := by
  unfold Entries.set
  apply h.change
  all_goals
    intros
    grind

theorem Tree.leafAt_setLeaf {r q : ℕ} {vpn : ℕ} {v : Pte} (hq : own q = .low r (ix2 vpn) (ix1 vpn))
    (hvpn : vpn < 2 ^ 27) (hv : v = 0#64 ∨ (valid v = true ∧ leaf v = true)) {r' vpn' : ℕ}
    (hr' : own r' = .root u') (hvpn' : r' ≠ r ∨ vpn' < 2 ^ 27) :
    leafAt (e.set q (ix0 vpn) v) r' vpn' = if r' = r ∧ vpn' = vpn then v else leafAt e r' vpn' := by
  apply (h.setLeaf hq hv).leafAt_eq hr'
  by_cases hsame : r' = r ∧ vpn' = vpn
  · obtain ⟨rfl, rfl⟩ := hsame
    simp only [and_self, if_true]
    exact Or.inl ⟨q, hq, Entries.set_self _ _ _ _⟩
  · rw [if_neg hsame]
    rcases h.leafIs hr' vpn' with ⟨p, hp, hv'⟩ | hno
    · refine Or.inl ⟨p, hp, ?_⟩
      have hdiff : ¬(p = q ∧ ix0 vpn' = ix0 vpn) := by
        rintro ⟨rfl, hk⟩
        rw [hq] at hp
        injection hp with hr hi hj
        rcases hvpn' with hne | hlt
        · exact hne hr.symm
        · exact hsame ⟨hr.symm, vpn_eq_of_ix hlt hvpn hi.symm hj.symm hk⟩
      rw [← hv', Entries.set, if_neg hdiff]
    · exact Or.inr hno

theorem Tree.dropLow (hm : own m = .mid r i)
    (hq : own q = .low r i j) : Tree (e.set m j 0#64) (Function.update own q .free) := by
  have hlow : ∀ p, own p = .low r i j → p = q := fun p hp => h.low_unique hp hq
  have hmid : ∀ p, own p = .mid r i → p = m := fun p hp => h.mid_unique hp hm
  unfold Entries.set
  apply h.change
  all_goals
    intros
    grind

theorem Tree.leafAt_dropLow (hm : own m = .mid r i) (hq : own q = .low r i j)
    (hz : ∀ k < 512, e q k = 0#64) {r' : ℕ} (hr' : own r' = .root u')
    (vpn : ℕ) : leafAt (e.set m j 0#64) r' vpn = leafAt e r' vpn := by
  have hrq : r' ≠ q := by
    rintro rfl
    simp [hr'] at hq
  apply (h.dropLow hm hq).leafAt_eq (by rw [Function.update_of_ne hrq, hr'])
  have hlow : ∀ p, own p = .low r i j → p = q := fun p hp => h.low_unique hp hq
  have hk : ix0 vpn < 512 := Nat.mod_lt _ (by decide)
  have hleaf := h.leafIs hr' vpn
  unfold LeafIs Entries.set at *
  by_cases hgone : r' = r ∧ ix2 vpn = i ∧ ix1 vpn = j
  · right
    grind
  · grind

theorem Tree.dropMid {r i q : ℕ} (hq : own q = .mid r i)
    (hz : ∀ p j, own p ≠ .low r i j) : Tree (e.set r i 0#64) (Function.update own q .free) := by
  have hmid : ∀ p, own p = .mid r i → p = q := fun p hp => h.mid_unique hp hq
  obtain ⟨⟨u, hr⟩, -, -⟩ := h.midLink q r i hq
  unfold Entries.set
  apply h.change
  all_goals
    intros
    grind

theorem Tree.leafAt_dropMid {r i q : ℕ} (hq : own q = .mid r i) (hz : ∀ p j, own p ≠ .low r i j)
    {r' : ℕ} (hr' : own r' = .root u') (vpn : ℕ) :
    leafAt (e.set r i 0#64) r' vpn = leafAt e r' vpn := by
  obtain ⟨⟨u, hr⟩, -, -⟩ := h.midLink q r i hq
  apply h.leafAt_congr (h.dropMid hq hz) hr'
  · rw [Function.update_of_ne (by rintro rfl; simp [hr'] at hq), hr']
  · grind
  · intro p i' j' hp
    exact Entries.set_page _ _ _ (by rintro rfl; simp [hr] at hp)

theorem Tree.dropRoot {q : ℕ} (hq : own q = .root u)
    (hz : ∀ p i, own p ≠ .mid q i) : Tree e (Function.update own q .free) := by
  apply h.change
  all_goals
    intros
    grind

end

end tree

end Xv6
