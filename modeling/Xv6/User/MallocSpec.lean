import Xv6.User.MallocList
import Mathlib.Data.List.Pairwise

/-! The allocator over whole runs: its free blocks and the program's blocks together are the memory
obtained from `sbrk`, and no unit is lost as long as the sizes fit the 32 bits they are kept in. -/
namespace Xv6.Malloc
open Blocks Links

/-- The free list is `N`, and with the blocks the program holds it makes up what was obtained. -/
structure Inv (base : ℕ) (s : State) (N : List Block) : Prop where
  repr : Repr base s.heap N
  size : ∀ v ∈ s.live, s.heap.size v.start = v.units
  pos : ∀ v ∈ s.live, 0 < v.units
  live_apart : s.live.Pairwise (Block.Disjoint unit)
  free_apart : ∀ v ∈ s.live, ∀ x, v.Has unit x → ¬ Covers unit N x
  cover : ∀ x, Covers unit (N ++ s.live) x ↔ Covers unit s.obtained x
  total : total N + total s.live = total s.obtained
  range : ∀ x, Covers unit s.obtained x → base + unit ≤ x ∧ x < s.brk
  brk : base + unit ≤ s.brk

section inv
variable {base : ℕ} {s : State} {N lv : List Block} {b v c : Block}

theorem Repr.setSize {m : Heap} (hm : Repr base m N) {a n : ℕ} (ha : ∀ c ∈ N, c.start ≠ a) :
    Repr base (m.setSize a n) N :=
  ⟨hm.head, hm.pos, hm.linked, fun c hc => by
    simp only [Heap.setSize, Function.update_of_ne (ha c hc)]
    exact hm.sizes c hc, hm.freep, hm.ordered⟩

/-- A block of the list starts at `base` or at a byte it covers. -/
theorem Repr.start_cases {m : Heap} (hm : Repr base m N) (hc : c ∈ N) :
    c.start = base ∨ Covers unit N c.start := by
  rcases Nat.eq_or_lt_of_le (hm.base_le hc) with heq | hlt
  · exact .inl heq.symm
  · exact .inr ⟨c, hc, Block.has_start (by decide) (hm.pos c hc hlt)⟩

section
variable (hinv : Inv base s N)
include hinv

theorem Inv.live_covered (hv : v ∈ s.live) {x : ℕ} (hx : v.Has unit x) : Covers unit s.obtained x :=
  (hinv.cover x).1 (covers_append.2 (.inr ⟨v, hv, hx⟩))

theorem Inv.has_start (hv : v ∈ s.live) : v.Has unit v.start :=
  Block.has_start (by decide) (hinv.pos v hv)

theorem Inv.base_lt (hv : v ∈ s.live) : base < v.start := by
  have hrange := hinv.range v.start (hinv.live_covered hv (hinv.has_start hv))
  simp only [unit] at hrange
  omega

/-- The header of a block the program holds is not in the list. -/
theorem Inv.start_ne (hv : v ∈ s.live) (hc : c ∈ N) : c.start ≠ v.start := by
  intro heq
  rcases hinv.repr.start_cases hc with hbase | hcov
  · have := hinv.base_lt hv
    omega
  · exact hinv.free_apart v hv v.start (hinv.has_start hv) (heq ▸ hcov)

theorem Inv.perm (hp : lv.Perm s.live) : Inv base { s with live := lv } N where
  repr := hinv.repr
  size v hv := hinv.size v (hp.mem_iff.1 hv)
  pos v hv := hinv.pos v (hp.mem_iff.1 hv)
  live_apart := (hp.pairwise_iff Block.Disjoint.symm).2 hinv.live_apart
  free_apart v hv := hinv.free_apart v (hp.mem_iff.1 hv)
  cover x := (covers_perm (hp.append_left N)).trans (hinv.cover x)
  total := (congrArg _ (total_perm hp)).trans hinv.total
  range := hinv.range
  brk := hinv.brk

/-- `free` of the first of the blocks the program holds. -/
theorem Inv.free (hlive : s.live = b :: lv) (htotal : Blocks.total s.obtained < 2 ^ 32) :
    ∃ m' N', (∀ fuel ≥ N.length, s.heap.free fuel b.start = some m') ∧
      Inv base { s with heap := m', live := lv } N' ∧ ∃ c ∈ N', b.units ≤ c.units := by
  have hb : b ∈ s.live := by simp [hlive]
  have hlv : ∀ v ∈ lv, v ∈ s.live := fun v hv => by simp [hlive, hv]
  have hsum := hinv.total
  rw [hlive, total_cons] at hsum
  have hapart := hinv.live_apart
  rw [hlive, List.pairwise_cons] at hapart
  obtain ⟨hbapart, hlvapart⟩ := hapart
  obtain ⟨m', N', hrun, hrepr, hcov, htot, hfit, hother⟩ := hinv.repr.release (hinv.size b hb)
    (hinv.pos b hb) (hinv.base_lt hb) (hinv.free_apart b hb) (by omega)
  refine ⟨m', N', hrun, ⟨hrepr, fun v hv => ?_, fun v hv => hinv.pos v (hlv v hv), hlvapart,
    fun v hv x hx => ?_, fun x => ?_, ?_, hinv.range, hinv.brk⟩, hfit⟩
  · refine (hother v.start (fun heq => ?_) fun c hc => hinv.start_ne (hlv v hv) hc).trans
      (hinv.size v (hlv v hv))
    exact hbapart v hv v.start (heq ▸ hinv.has_start hb) (hinv.has_start (hlv v hv))
  · rw [hcov, not_or]
    exact ⟨fun hbx => hbapart v hv x hbx hx, hinv.free_apart v (hlv v hv) x hx⟩
  · rw [← hinv.cover x, hlive]
    simp only [covers_append, covers_cons, hcov]
    tauto
  · dsimp only
    omega

/-- A region from `sbrk`, for a moment held as if by the program. -/
theorem Inv.obtain {a nu : ℕ} (ha : s.brk ≤ a) (hnu : 0 < nu) :
    Inv base { s with heap := s.heap.setSize a nu, brk := a + unit * nu, live := ⟨a, nu⟩ :: s.live,
                      obtained := ⟨a, nu⟩ :: s.obtained } N := by
  have hbrk := hinv.brk
  have hnew : ∀ x, Covers unit s.obtained x → x < a := fun x hx =>
    (hinv.range x hx).2.trans_le ha
  have hlive : ∀ v ∈ s.live, v.start ≠ a := fun v hv =>
    (hnew _ (hinv.live_covered hv (hinv.has_start hv))).ne
  have hlist : ∀ c ∈ N, c.start ≠ a := by
    intro c hc heq
    rcases hinv.repr.start_cases hc with hbase | hcov
    · simp only [unit] at hbrk
      omega
    · have := hnew _ ((hinv.cover _).1 (covers_append.2 (.inl hcov)))
      omega
  refine ⟨hinv.repr.setSize hlist, fun v hv => ?_, fun v hv => ?_,
    List.pairwise_cons.2 ⟨fun v hv x hax hvx => ?_, hinv.live_apart⟩, fun v hv x hx => ?_,
    fun x => ?_, ?_, fun x hx => ?_, ?_⟩
  · rcases List.mem_cons.1 hv with rfl | hv
    · exact Function.update_self ..
    · simp only [Heap.setSize, Function.update_of_ne (hlive v hv)]
      exact hinv.size v hv
  · rcases List.mem_cons.1 hv with rfl | hv
    · exact hnu
    · exact hinv.pos v hv
  · have := hnew x (hinv.live_covered hv hvx)
    have := hax.1
    dsimp only at this
    omega
  · rcases List.mem_cons.1 hv with rfl | hv
    · intro hcov
      have := hnew x ((hinv.cover x).1 (covers_append.2 (.inl hcov)))
      have := hx.1
      dsimp only at this
      omega
    · exact hinv.free_apart v hv x hx
  · have hcover := hinv.cover x
    simp only [covers_append, covers_cons] at hcover ⊢
    tauto
  · have := hinv.total
    simp only [total_cons]
    omega
  · rcases covers_cons.1 hx with hx | hx
    · exact ⟨hbrk.trans (ha.trans hx.1), hx.2⟩
    · have hrange := hinv.range x hx
      exact ⟨hrange.1, (hnew x hx).trans_le (Nat.le_add_right _ _)⟩
  · exact hbrk.trans (ha.trans (Nat.le_add_right _ _))

/-- What `malloc` found and took is now the program's. -/
theorem Inv.give {n prevp p : ℕ} (hn : 0 < n) {N' : List Block}
    (ht : Taken base s.heap N n (s.heap.take n prevp p) N') : Inv base (s.give n prevp p) N' := by
  have hcovN : ∀ x, Block.Has unit ⟨(s.heap.take n prevp p).2, n⟩ x → Covers unit N x := fun x hx =>
    (ht.covers x).2 (.inl hx)
  refine ⟨ht.repr, fun v hv => ?_, fun v hv => ?_,
    List.pairwise_cons.2 ⟨fun v hv x hx hvx => ?_, hinv.live_apart⟩, fun v hv x hx => ?_,
    fun x => ?_, ?_, hinv.range, hinv.brk⟩
  · rcases List.mem_cons.1 hv with rfl | hv
    · exact ht.size
    · refine (ht.other v.start (fun heq => ?_) fun c hc => hinv.start_ne hv hc).trans
        (hinv.size v hv)
      refine hinv.free_apart v hv v.start (hinv.has_start hv) (hcovN _ ?_)
      rw [heq]
      exact Block.has_start (b := ⟨(s.heap.take n prevp p).2, n⟩) (by decide) hn
  · rcases List.mem_cons.1 hv with rfl | hv
    · exact hn
    · exact hinv.pos v hv
  · exact hinv.free_apart v hv x hvx (hcovN x hx)
  · rcases List.mem_cons.1 hv with rfl | hv
    · exact ht.apart x hx
    · exact fun hcov => hinv.free_apart v hv x hx ((ht.covers x).2 (.inr hcov))
  · rw [show (s.give n prevp p).obtained = s.obtained from rfl, ← hinv.cover x]
    simp only [State.give, covers_append, covers_cons, ht.covers x]
    tauto
  · have := hinv.total
    have := ht.total
    simp only [State.give, total_cons]
    omega

end

end inv

section calls
variable {base fuel n : ℕ} {s t : State} {N : List Block} {sbrk : Sbrk}

theorem Heap.free_mono {m m' : Heap} {bp fuel' : ℕ} (h : m.free fuel bp = some m')
    (hle : fuel ≤ fuel') : m.free fuel' bp = some m' := by
  obtain ⟨p, hp, rfl⟩ := Option.map_eq_some_iff.1 h
  rw [Heap.free, seek_mono hp hle]
  rfl

theorem Heap.find_fuel {m : Heap} {x y : ℕ × ℕ} {k : ℕ} (hrun : ∀ fuel ≥ k, m.find fuel n = some x)
    (h : m.find fuel n = some y) : y = x := by
  have hmore := hrun (max fuel k) (le_max_right _ _)
  rw [Heap.find, seek_mono h (le_max_left _ _)] at hmore
  exact Option.some.inj hmore

/-- The units `morecore` asks for. -/
def coreUnits (nu : ℕ) : ℕ := if nu < 4096 then 4096 else nu

theorem le_coreUnits (nu : ℕ) : nu ≤ coreUnits nu := by
  unfold coreUnits
  split_ifs <;> omega

/-- The state after `morecore` has put the region at `a` in the heap `m`. -/
def State.grown (s : State) (m : Heap) (brk n a : ℕ) : State :=
  { s with heap := m, brk := brk, obtained := ⟨a, coreUnits n⟩ :: s.obtained }

theorem State.morecore_eq_ok {a : ℕ} : s.morecore sbrk fuel n a = .ok t ↔
    s.brk ≤ a ∧ ∃ brk m, sbrk a (coreUnits n) = some brk ∧
      (s.heap.setSize a (coreUnits n)).free fuel a = some m ∧ s.grown m brk n a = t := by
  simp only [State.morecore]
  rw [← coreUnits]
  by_cases ha : s.brk ≤ a
  · cases hbrk : sbrk a (coreUnits n) with
    | none => simp [ha]
    | some brk => cases hm : (s.heap.setSize a (coreUnits n)).free fuel a <;> simp [ha, State.grown]
  · simp [ha]

/-- What `morecore` obtains can be put in the list, which then has a block of the size asked for. -/
theorem Inv.morecore (hinv : Inv base s N) {a : ℕ} (ha : s.brk ≤ a) (hn : 0 < n)
    (htotal : Blocks.total s.obtained + coreUnits n < 2 ^ 32) :
    ∃ m N', (∀ fuel ≥ N.length, (s.heap.setSize a (coreUnits n)).free fuel a = some m) ∧
      Inv base (s.grown m (a + unit * coreUnits n) n a) N' ∧ m.HasBlock n := by
  have hpos : 0 < coreUnits n := hn.trans_le (le_coreUnits n)
  obtain ⟨m, N', hrun, hinv', c, hc, hle⟩ := (hinv.obtain ha hpos).free rfl
    (by simp only [total_cons]; omega)
  exact ⟨m, N', hrun, hinv', hinv'.repr.hasBlock.2 ⟨c, hc, (le_coreUnits n).trans hle⟩⟩

/-- What `malloc` returns: nothing, or a block of `n` units. -/
def Served (s t : State) (n : ℕ) : Prop :=
  (t.ret = 0 ∧ t.live = s.live) ∨
    ∃ v, t.live = v :: s.live ∧ t.ret = v.start + unit ∧ v.units = n

/-- The search finds a block that fits and takes it, or there is none. -/
theorem Inv.find (hinv : Inv base s N) (hn : 0 < n) :
    ∃ prevp p, (∀ fuel ≥ N.length, s.heap.find fuel n = some (prevp, p)) ∧
      (n ≤ s.heap.size p ↔ s.heap.HasBlock n) ∧
      (n ≤ s.heap.size p → ∃ N', Inv base (s.give n prevp p) N') := by
  obtain ⟨prevp, p, hrun, hfit | ⟨hlt, hnone⟩⟩ := hinv.repr.find hn
  · obtain ⟨L, b, c, R, hN, rfl, rfl, hle⟩ := hfit
    refine ⟨b.start, c.start, hrun, ?_, fun _ => ?_⟩
    · rw [hinv.repr.sizes c (by simp [hN])]
      exact iff_of_true hle (hinv.repr.hasBlock.2 ⟨c, by simp [hN], hle⟩)
    · rcases Nat.eq_or_lt_of_le hle with heq | hlt
      · exact ⟨_, hinv.give hn (hinv.repr.take_all hN heq.symm rfl)⟩
      · exact ⟨_, hinv.give hn (hinv.repr.take_part hN hlt rfl)⟩
  · refine ⟨prevp, p, hrun, iff_of_false (Nat.not_le.2 hlt) fun hhas => ?_,
      fun hle => absurd hle (Nat.not_le.2 hlt)⟩
    obtain ⟨c, hc, hle⟩ := hinv.repr.hasBlock.1 hhas
    exact absurd (hnone c hc) (Nat.not_lt.2 hle)

/-- What a step of the search does: it ends, or goes on after `morecore`. -/
theorem State.search_cases {answers : List (Option ℕ)} (h : s.search sbrk fuel n answers = .ok t) :
    ∃ prevp p, s.heap.find fuel n = some (prevp, p) ∧
      ((n ≤ s.heap.size p ∧ t = s.give n prevp p) ∨
        (answers.head? = some none ∧ t = { s with ret := 0 }) ∨
        ¬ n ≤ s.heap.size p ∧ ∃ a rest s', answers = some a :: rest ∧
          s.morecore sbrk fuel n a = .ok s' ∧ s'.search sbrk fuel n rest = .ok t) := by
  cases answers with
  | nil =>
    simp only [State.search] at h
    split at h
    · contradiction
    · rename_i prevp p hfind
      refine ⟨prevp, p, hfind, ?_⟩
      split at h
      · exact .inl ⟨‹_›, (Except.ok.inj h).symm⟩
      · contradiction
  | cons answer rest =>
    simp only [State.search] at h
    split at h
    · contradiction
    · rename_i prevp p hfind
      refine ⟨prevp, p, hfind, ?_⟩
      split at h
      · exact .inl ⟨‹_›, (Except.ok.inj h).symm⟩
      · cases answer with
        | none => exact .inr (.inl ⟨rfl, (Except.ok.inj h).symm⟩)
        | some a =>
          dsimp only at h
          split at h
          · contradiction
          · exact .inr (.inr ⟨‹_›, a, rest, _, rfl, ‹_›, h⟩)

/-- What every `morecore` keeps holds after the search, if it is about the break and the regions
obtained only. -/
theorem State.search_inv {P : ℕ → List Block → Prop} (answers : List (Option ℕ))
    (hs : P s.brk s.obtained) (h : s.search sbrk fuel n answers = .ok t)
    (hcore : ∀ a brk obtained b, P brk obtained → brk ≤ a → sbrk a (coreUnits n) = some b →
      P b (⟨a, coreUnits n⟩ :: obtained)) : P t.brk t.obtained := by
  induction answers generalizing s with
  | nil =>
    obtain ⟨prevp, p, -, ⟨-, rfl⟩ | ⟨-, rfl⟩ | ⟨-, a, rest, s', hcons, -⟩⟩ := State.search_cases h
    · exact hs
    · exact hs
    · contradiction
  | cons answer answers ih =>
    obtain ⟨prevp, p, -, ⟨-, rfl⟩ | ⟨-, rfl⟩ | ⟨-, a, rest, s', hcons, hmore, hrest⟩⟩ :=
      State.search_cases h
    · exact hs
    · exact hs
    · obtain ⟨-, rfl⟩ := List.cons.inj hcons
      obtain ⟨ha, brk, m, hbrk, -, rfl⟩ := State.morecore_eq_ok.1 hmore
      exact ih (hcore a _ _ brk hs ha hbrk) hrest

theorem State.search_le (answers : List (Option ℕ)) (h : s.search sbrk fuel n answers = .ok t) :
    Blocks.total s.obtained ≤ Blocks.total t.obtained :=
  State.search_inv (P := fun _ obtained => Blocks.total s.obtained ≤ Blocks.total obtained) answers
    le_rfl h fun _ _ _ _ hle _ _ => hle.trans (Nat.le_add_left _ _)

/-- Where the search of `malloc` ends. -/
theorem Inv.found (hinv : Inv base s N) (hn : 0 < n) {prevp p : ℕ}
    (hfind : s.heap.find fuel n = some (prevp, p)) : (n ≤ s.heap.size p ↔ s.heap.HasBlock n) ∧
      (n ≤ s.heap.size p → (∃ N', Inv base (s.give n prevp p) N') ∧
        Served s (s.give n prevp p) n) := by
  obtain ⟨q, r, hrun, hfits, hgive⟩ := hinv.find hn
  obtain ⟨rfl, rfl⟩ := Prod.mk.inj (Heap.find_fuel hrun hfind)
  exact ⟨hfits, fun hle => ⟨hgive hle, .inr ⟨_, rfl, rfl, rfl⟩⟩⟩

theorem Inv.fail (hinv : Inv base s N) : (∃ N', Inv base { s with ret := 0 } N') ∧
    Served s { s with ret := 0 } n :=
  ⟨⟨N, hinv.repr, hinv.size, hinv.pos, hinv.live_apart, hinv.free_apart, hinv.cover, hinv.total,
    hinv.range, hinv.brk⟩, .inl ⟨rfl, rfl⟩⟩

/-- Whatever `sbrk` answers, the search keeps the invariant and returns a block or nothing, as long
as the break moves by what `morecore` asks for. -/
theorem Inv.search (answers : List (Option ℕ)) (hinv : Inv base s N) (hn : 0 < n)
    (ht : s.search sbrk fuel n answers = .ok t) (htotal : Blocks.total t.obtained < 2 ^ 32)
    (hsbrk : ∀ a brk, sbrk a (coreUnits n) = some brk → brk = a + unit * coreUnits n) :
    (∃ N', Inv base t N') ∧ Served s t n := by
  induction answers generalizing s N with
  | nil =>
    obtain ⟨prevp, p, hfind, ⟨hle, rfl⟩ | ⟨-, rfl⟩ | ⟨-, a, rest, s', hcons, -⟩⟩ :=
      State.search_cases ht
    · exact (hinv.found hn hfind).2 hle
    · exact hinv.fail
    · contradiction
  | cons answer answers ih =>
    obtain ⟨prevp, p, hfind, ⟨hle, rfl⟩ | ⟨-, rfl⟩ | ⟨-, a, rest, s', hcons, hmore, hrest⟩⟩ :=
      State.search_cases ht
    · exact (hinv.found hn hfind).2 hle
    · exact hinv.fail
    · obtain ⟨-, rfl⟩ := List.cons.inj hcons
      have hle := State.search_le answers hrest
      obtain ⟨ha, brk, m, hbrk, hm, rfl⟩ := State.morecore_eq_ok.1 hmore
      obtain rfl := hsbrk a brk hbrk
      simp only [State.grown, total_cons] at hle
      obtain ⟨m', N', hrun, hinv', -⟩ := hinv.morecore ha hn (by omega)
      have hmore := Heap.free_mono hm (le_max_left fuel N.length)
      obtain rfl := Option.some.inj (hmore.symm.trans (hrun _ (le_max_right _ _)))
      obtain ⟨hinv, hserved⟩ := ih hinv' hrest
      exact ⟨hinv, hserved⟩

/-- With enough fuel and one answer from `sbrk`, the search ends. -/
theorem Inv.search_ends (hinv : Inv base s N) (hn : 0 < n) (answer : Option ℕ)
    (hanswer : ∀ a ∈ answer, s.brk ≤ a ∧ sbrk a (coreUnits n) ≠ none ∧
      Blocks.total s.obtained + coreUnits n < 2 ^ 32) :
    ∃ k t, ∀ fuel ≥ k, s.search sbrk fuel n [answer] = .ok t := by
  obtain ⟨prevp, p, hrun, -⟩ := hinv.find hn
  by_cases hle : n ≤ s.heap.size p
  · refine ⟨N.length, s.give n prevp p, fun fuel hfuel => ?_⟩
    simp only [State.search, hrun fuel hfuel, hle, if_true]
  cases answer with
  | none =>
    refine ⟨N.length, { s with ret := 0 }, fun fuel hfuel => ?_⟩
    simp only [State.search, hrun fuel hfuel, hle, if_false]
  | some a =>
    -- what `morecore` brought is found on the second round
    obtain ⟨ha, hbrk, htotal⟩ := hanswer a rfl
    obtain ⟨brk, hbrk⟩ := Option.ne_none_iff_exists'.1 hbrk
    obtain ⟨m, N', hfree, hinv', hhas⟩ := hinv.morecore ha hn htotal
    obtain ⟨q, r, hrun', hfits, -⟩ := hinv'.find hn
    have hle' : n ≤ (s.grown m brk n a).heap.size r := hfits.2 hhas
    refine ⟨max N.length N'.length, (s.grown m brk n a).give n q r, fun fuel hfuel => ?_⟩
    have h₁ := hrun fuel ((le_max_left _ _).trans hfuel)
    have h₂ : s.morecore sbrk fuel n a = .ok (s.grown m brk n a) :=
      State.morecore_eq_ok.2 ⟨ha, brk, m, hbrk, hfree fuel ((le_max_left _ _).trans hfuel), rfl⟩
    have h₃ : (s.grown m brk n a).heap.find fuel n = some (q, r) :=
      hrun' fuel ((le_max_right _ _).trans hfuel)
    simp only [State.search, h₁, hle, if_false, h₂, h₃, hle', if_true]

end calls

/-- The states of a run: before the first call, or with the invariant. -/
def Good (base : ℕ) (s : State) : Prop :=
  (s.heap.freep = 0 ∧ s.live = [] ∧ s.obtained = [] ∧ base + unit ≤ s.brk) ∨ ∃ N, Inv base s N

section run
variable {base : ℕ} {s t : State} {N : List Block}

/-- After the first lines of `malloc` there is a free list. -/
theorem Good.start (hbase : 0 < base) (hs : Good base s) :
    ∃ N, Inv base { s with heap := s.heap.start base } N := by
  rcases hs with ⟨hfreep, hlive, hobt, hbrk⟩ | ⟨N, hinv⟩
  · refine ⟨[⟨base, 0⟩], ?_⟩
    rw [Heap.start, if_pos hfreep]
    have hnone : ∀ x, ¬ Covers unit [⟨base, 0⟩] x := by
      intro x hx
      simp only [covers_cons, covers_nil, or_false, Block.Has, Block.stop] at hx
      omega
    refine ⟨⟨⟨[], rfl⟩, ?_, ⟨by simp, trivial⟩, by simp, by simp, List.pairwise_singleton _ _⟩, ?_,
      ?_, ?_, ?_, fun x => ?_, ?_, ?_, hbrk⟩
    · intro b hb hlt
      obtain rfl := List.mem_singleton.1 hb
      exact absurd hlt (lt_irrefl _)
    · simp [hlive]
    · simp [hlive]
    · simp [hlive]
    · simp [hlive]
    · simp only [hlive, hobt, List.append_nil, covers_nil, hnone x]
    · simp [hlive, hobt]
    · simp [hobt]
  · refine ⟨N, ?_⟩
    have hne : s.heap.freep ≠ 0 := by
      obtain ⟨c, hc, hcf⟩ := List.mem_map.1 hinv.repr.freep
      have := hinv.repr.base_le hc
      omega
    rw [Heap.start, if_neg hne]
    exact hinv

theorem nunits_pos (nbytes : ℕ) : 0 < nunits nbytes := Nat.succ_pos _

theorem exactSbrk_eq {nu : ℕ} (a brk : ℕ) (h : exactSbrk a nu = some brk) : brk = a + unit * nu :=
  (Option.some.inj h).symm

/-- Writing a usable byte touches no header in use. -/
theorem Inv.write (hinv : Inv base s N) {b : Block} (hb : b ∈ s.live) {x : ℕ}
    (hx : b.start + unit ≤ x ∧ x < b.stop unit) {ptr size : ℕ → ℕ}
    (hptr : ∀ a, ¬ (a ≤ x ∧ x < a + unit) → ptr a = s.heap.ptr a)
    (hsize : ∀ a, ¬ (a ≤ x ∧ x < a + unit) → size a = s.heap.size a) :
    Inv base { s with heap := ⟨s.heap.freep, ptr, size⟩ } N := by
  have hbx : b.Has unit x := ⟨(Nat.le_add_right _ _).trans hx.1, hx.2⟩
  have hheader : ∀ c : Block, 0 < c.units → c.start ≤ x ∧ x < c.start + unit → c.Has unit x := by
    intro c hc hcx
    refine ⟨hcx.1, hcx.2.trans_le ?_⟩
    simp only [Block.stop, unit]
    omega
  have hlist : ∀ c ∈ N, ¬ (c.start ≤ x ∧ x < c.start + unit) := by
    intro c hc hcx
    rcases Nat.eq_or_lt_of_le (hinv.repr.base_le hc) with heq | hlt
    · have := (hinv.range x (hinv.live_covered hb hbx)).1
      omega
    · exact hinv.free_apart b hb x hbx ⟨c, hc, hheader c (hinv.repr.pos c hc hlt) hcx⟩
  have hlive : ∀ v ∈ s.live, ¬ (v.start ≤ x ∧ x < v.start + unit) := by
    intro v hv hvx
    by_cases hvb : v = b
    · subst hvb
      omega
    · exact hinv.live_apart.forall hv hb hvb x (hheader v (hinv.pos v hv) hvx) hbx
  refine ⟨⟨hinv.repr.head, hinv.repr.pos, hinv.repr.linked.congr fun a ha => ?_,
    fun c hc => (hsize _ (hlist c hc)).trans (hinv.repr.sizes c hc), hinv.repr.freep,
    hinv.repr.ordered⟩, fun v hv => (hsize _ (hlive v hv)).trans (hinv.size v hv), hinv.pos,
    hinv.live_apart, hinv.free_apart, hinv.cover, hinv.total, hinv.range, hinv.brk⟩
  obtain ⟨c, hc, rfl⟩ := List.mem_map.1 ha
  exact hptr _ (hlist c hc)

theorem step_le {e : Event} (h : step base s e = .ok t) : total s.obtained ≤ total t.obtained := by
  cases e with
  | malloc nbytes fuel answers =>
    simp only [step] at h
    split at h
    · exact State.search_le (s := { s with heap := s.heap.start base }) answers h
    · contradiction
  | free b fuel =>
    simp only [step] at h
    split at h
    · split at h
      · contradiction
      · obtain rfl := Except.ok.inj h
        exact le_rfl
    · contradiction
  | write x ptr size =>
    simp only [step] at h
    split at h
    · obtain rfl := Except.ok.inj h
      exact le_rfl
    · contradiction

/-- A block the program holds may be moved to the front. -/
theorem Inv.front (hinv : Inv base s N) {b : Block} (hb : b ∈ s.live) :
    Inv base { s with live := b :: s.live.erase b } N :=
  hinv.perm (List.perm_cons_erase hb).symm

/-- Every call keeps the states good. -/
theorem Good.step (hbase : 0 < base) (hs : Good base s) {e : Event}
    (h : Malloc.step base s e = .ok t) (htotal : total t.obtained < 2 ^ 32) : Good base t := by
  cases e with
  | malloc nbytes fuel answers =>
    simp only [Malloc.step] at h
    split at h
    · obtain ⟨N, hinv⟩ := hs.start hbase
      exact .inr (hinv.search answers (nunits_pos nbytes) h htotal exactSbrk_eq).1
    · contradiction
  | free b fuel =>
    simp only [Malloc.step] at h
    split at h
    · rename_i hb
      split at h
      · contradiction
      · rename_i m hm
        obtain rfl := Except.ok.inj h
        rcases hs with ⟨-, hlive, -⟩ | ⟨N, hinv⟩
        · simp [hlive] at hb
        · obtain ⟨m', N', hrun, hinv', -⟩ := (hinv.front hb).free rfl htotal
          have hmore := Heap.free_mono hm (le_max_left fuel N.length)
          obtain rfl := Option.some.inj (hmore.symm.trans (hrun _ (le_max_right _ _)))
          exact .inr ⟨N', hinv'⟩
    · contradiction
  | write x ptr size =>
    simp only [Malloc.step] at h
    split at h
    · rename_i hx
      obtain ⟨b, hb, hbx⟩ := hx
      obtain rfl := Except.ok.inj h
      rcases hs with ⟨-, hlive, -⟩ | ⟨N, hinv⟩
      · simp [hlive] at hb
      · exact .inr ⟨N, hinv.write hb hbx (fun a ha => if_neg ha) fun a ha => if_neg ha⟩
    · contradiction

/-- The states of a run are good as long as the units obtained can be counted in 32 bits. -/
theorem run_good (hbase : 0 < base) {brk : ℕ} (hbrk : base + unit ≤ brk) {ptr size : ℕ → ℕ}
    {es : List Event} (hrun : Runs.run (Malloc.step base) (init brk ptr size) es = .ok s)
    (htotal : total s.obtained < 2 ^ 32) : Good base s := by
  refine Runs.run_inv (fun s => total s.obtained < 2 ^ 32 → Good base s) ?_ ?_ hrun htotal
  · intro s e t hs ht htotal
    exact (hs ((step_le ht).trans_lt htotal)).step hbase ht htotal
  · exact fun _ => .inl ⟨rfl, rfl, rfl, hbrk⟩

end run

/-- The free list of a state as a list of blocks: a circle through `base` in the order of
addresses, of blocks disjoint from each other and from those the program holds, no two of them
adjacent; together they are all the memory obtained. -/
structure FreeList (base : ℕ) (s : State) (free : List Block) : Prop where
  circle : Linked s.heap.ptr (base :: free.map Block.start) base
  freep : s.heap.freep ∈ base :: free.map Block.start
  sorted : (base :: free.map Block.start).Pairwise (· < ·)
  sizes : ∀ b ∈ free ++ s.live, s.heap.size b.start = b.units ∧ 0 < b.units
  disjoint : (free ++ s.live).Pairwise (Block.Disjoint unit)
  gap : ∀ b ∈ free, ∀ c ∈ free, b.stop unit ≠ c.start
  cover : ∀ x, Covers unit (free ++ s.live) x ↔ Covers unit s.obtained x
  total : total free + total s.live = total s.obtained

theorem Inv.freeList {base : ℕ} {s : State} {N : List Block} (hinv : Inv base s N) :
    ∃ free, FreeList base s free := by
  obtain ⟨free, rfl⟩ := hinv.repr.head
  obtain ⟨hfirst, hord⟩ := ordered_cons.1 hinv.repr.ordered
  have hpos : ∀ b ∈ free, 0 < b.units := fun b hb =>
    hinv.repr.pos b (by simp [hb]) (hfirst b hb)
  have hnone : ∀ x, ¬ Block.Has unit ⟨base, 0⟩ x := by
    intro x hx
    simp only [Block.Has, Block.stop] at hx
    omega
  refine ⟨free, hinv.repr.linked, hinv.repr.freep, ?_, fun b hb => ?_, ?_,
    fun b hb c hc => hord.gap (by decide) hb hc (hpos b hb), fun x => ?_, ?_⟩
  · rw [← List.map_cons (f := Block.start) (a := ⟨base, 0⟩), List.pairwise_map]
    exact hinv.repr.ordered.imp fun hbc => Block.start_le_stop.trans_lt hbc
  · rcases List.mem_append.1 hb with hb | hb
    · exact ⟨hinv.repr.sizes b (by simp [hb]), hpos b hb⟩
    · exact ⟨hinv.size b hb, hinv.pos b hb⟩
  · refine List.pairwise_append.2 ⟨hord.imp fun {b c} hbc x hbx hcx => ?_, hinv.live_apart,
      fun b hb v hv x hbx hvx => hinv.free_apart v hv x hvx ?_⟩
    · have := hbx.2
      have := hcx.1
      omega
    · exact covers_cons.2 (.inr ⟨b, hb, hbx⟩)
  · rw [← hinv.cover x]
    simp [hnone x]
  · simpa using hinv.total

/-- What a call of `malloc` gives: nothing, or a block with room for `nbytes` that is disjoint
from every block the program holds. -/
def Gives (s t : State) (nbytes : ℕ) : Prop :=
  (t.ret = 0 ∧ t.live = s.live) ∨
    ∃ v, t.live = v :: s.live ∧ t.ret = v.start + unit ∧ nbytes ≤ unit * (v.units - 1) ∧
      ∀ w ∈ s.live, v.Disjoint unit w

theorem Inv.gives {base : ℕ} {s t : State} {N : List Block} (hinv : Inv base t N) {nbytes : ℕ}
    (hserved : Served s t (nunits nbytes)) : Gives s t nbytes := by
  rcases hserved with hnone | ⟨v, hlive, hret, hunits⟩
  · exact .inl hnone
  · refine .inr ⟨v, hlive, hret, ?_, fun w hw => ?_⟩
    · simp only [hunits, nunits, unit]
      omega
    · have hapart := hinv.live_apart
      rw [hlive] at hapart
      exact (List.pairwise_cons.1 hapart).1 w hw

/-- In every run of `malloc` and `free` in which fewer than 2^32 units were obtained from `sbrk`,
the free list is as it should be; a call of `malloc` returns nothing or a block the caller can
use; and the loops of both functions end. -/
theorem malloc_keeps_blocks (base brk : ℕ) (ptr size : ℕ → ℕ) (es : List Event) (s : State)
    (hbase : 0 < base) (hbrk : base + unit ≤ brk)
    (hrun : Runs.run (step base) (init brk ptr size) es = .ok s)
    (htotal : total s.obtained < 2 ^ 32) :
    ((s.heap.freep = 0 ∧ s.live = [] ∧ s.obtained = []) ∨ ∃ free, FreeList base s free) ∧
      (∀ nbytes fuel answers t, step base s (.malloc nbytes fuel answers) = .ok t →
        total t.obtained < 2 ^ 32 → Gives s t nbytes) ∧
      (∀ b ∈ s.live, ∃ k t, ∀ fuel ≥ k, step base s (.free b fuel) = .ok t) ∧
      ∀ nbytes answer, nunits nbytes * unit < 2 ^ 31 →
        (∀ a ∈ answer, s.brk ≤ a ∧ total s.obtained + coreUnits (nunits nbytes) < 2 ^ 32) →
        ∃ k t, ∀ fuel ≥ k, step base s (.malloc nbytes fuel [answer]) = .ok t := by
  have hgood := run_good hbase hbrk hrun htotal
  refine ⟨?_, fun nbytes fuel answers t ht htotal' => ?_, fun b hb => ?_,
    fun nbytes answer hbound hanswer => ?_⟩
  · rcases hgood with ⟨hfreep, hlive, hobt, -⟩ | ⟨N, hinv⟩
    · exact .inl ⟨hfreep, hlive, hobt⟩
    · exact .inr hinv.freeList
  · obtain ⟨N, hinv⟩ := hgood.start hbase
    simp only [step] at ht
    split at ht
    · obtain ⟨⟨N', hinv'⟩, hserved⟩ := hinv.search answers (nunits_pos nbytes) ht htotal'
        exactSbrk_eq
      exact hinv'.gives hserved
    · contradiction
  · rcases hgood with ⟨-, hlive, -⟩ | ⟨N, hinv⟩
    · simp [hlive] at hb
    · obtain ⟨m', N', hfree, -⟩ := (hinv.front hb).free rfl htotal
      refine ⟨N.length, { s with heap := m', live := s.live.erase b }, fun fuel hfuel => ?_⟩
      have hm := hfree fuel hfuel
      dsimp only at hm
      simp only [step, hb, if_true, hm]
  · obtain ⟨N, hinv⟩ := hgood.start hbase
    simp only [step, hbound, if_true]
    exact hinv.search_ends (nunits_pos nbytes) answer fun a ha =>
      ⟨(hanswer a ha).1, by simp [exactSbrk], (hanswer a ha).2⟩

/-- Two blocks are taken and the first is freed again. -/
def shortRun : List Event :=
  [.malloc 100 2 [some 4096], .malloc 20 2 [], .free ⟨4096 + unit * (4096 - 8), 8⟩ 3]

theorem malloc_keeps_blocks_shortRun :
    ∃ s, Runs.run (step 16) (init 4096 (fun _ => 0) fun _ => 0) shortRun = .ok s ∧
      s.live = [⟨4096 + unit * (4096 - 11), 3⟩] ∧ ∃ free, FreeList 16 s free := by
  obtain ⟨s, hrun, hlive, hobt, hfreep⟩ : ∃ s,
      Runs.run (step 16) (init 4096 (fun _ => 0) fun _ => 0) shortRun = .ok s ∧
        s.live = [⟨4096 + unit * (4096 - 11), 3⟩] ∧ total s.obtained = 4096 ∧ s.heap.freep ≠ 0 :=
    ⟨_, rfl, by decide, by decide, by decide⟩
  have hmain := malloc_keeps_blocks 16 4096 _ _ _ s (by decide) (by decide) hrun
    (by rw [hobt]; decide)
  exact ⟨s, hrun, hlive, hmain.1.resolve_left fun h => hfreep h.1⟩

/-- The largest request the bound allows. -/
def bigUnits : ℕ := 2 ^ 27 - 1

def bigBlock (i : ℕ) : Block := ⟨4096 + unit * bigUnits * i, bigUnits⟩

/-- Thirty-three such blocks, one after the other, are taken and freed. -/
def overflowRun : List Event :=
  (List.range 33).map (fun i => .malloc (unit * (bigUnits - 1)) 2 [some (bigBlock i).start]) ++
    (List.range 33).map fun i => .free (bigBlock i) 3

theorem overflowRun_ends :
    (match Runs.run (step 16) (init 4096 (fun _ => 0) fun _ => 0) overflowRun with
      | .ok s => decide (s.live = [] ∧ s.heap.ptr 16 = 4096 ∧ s.heap.ptr 4096 = 16 ∧
          s.heap.size 4096 = 2 ^ 27 - 33 ∧ (bigBlock 1) ∈ s.obtained)
      | .error _ => false) = true := by
  decide +kernel

/-- A list of one block, according to the pointers. -/
theorem FreeList.single {base p : ℕ} {s : State} {free : List Block} (h : FreeList base s free)
    (hfirst : s.heap.ptr base = p) (hback : s.heap.ptr p = base) (hne : base ≠ p) :
    free = [⟨p, s.heap.size p⟩] := by
  cases free with
  | nil => exact absurd (h.circle.1.symm.trans hfirst) hne
  | cons b free =>
    have hb : b.start = p := h.circle.1.symm.trans hfirst
    have hsize := (h.sizes b (by simp)).1
    cases free with
    | nil =>
      rw [← hb, hsize]
    | cons c free =>
      have hc : c.start = base := by
        have hnext : s.heap.ptr b.start = c.start := h.circle.2.1
        rw [hb, hback] at hnext
        exact hnext.symm
      have hlt := (List.pairwise_cons.1 h.sorted).1 c.start (by simp)
      omega

/-- Their sizes add up past 2^32: the free list is one block that has lost most of the memory. -/
theorem overflow_loses_memory :
    ∃ s, Runs.run (step 16) (init 4096 (fun _ => 0) fun _ => 0) overflowRun = .ok s ∧
      s.live = [] ∧ s.heap.size 4096 = 2 ^ 27 - 33 ∧ ¬ ∃ free, FreeList 16 s free := by
  have hcheck := overflowRun_ends
  cases hrun : Runs.run (step 16) (init 4096 (fun _ => 0) fun _ => 0) overflowRun with
  | error e =>
    rw [hrun] at hcheck
    contradiction
  | ok s =>
    rw [hrun] at hcheck
    obtain ⟨hlive, hfirst, hback, hsize, hobt⟩ := of_decide_eq_true hcheck
    refine ⟨s, rfl, hlive, hsize, fun ⟨free, hfree⟩ => ?_⟩
    -- the second block obtained is not covered any more
    have hsingle := hfree.single hfirst hback (by decide)
    have hcov := (hfree.cover (bigBlock 1).start).2 ⟨_, hobt, Block.has_start (by decide) (by decide)⟩
    rw [hsingle, hlive, hsize, List.append_nil, covers_cons] at hcov
    rcases hcov with hcov | hcov
    · revert hcov
      unfold Block.Has
      decide
    · exact covers_nil hcov

end Xv6.Malloc
