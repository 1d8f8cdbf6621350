import Xv6.User.MallocSpec
import Mathlib.Data.Int.Notation

/-! `malloc` for requests of any size. The number of bytes that `morecore` asks for passes through the
`int` parameter of `sbrk`, and `sbrk` takes zero and negative numbers for success. -/
namespace Xv6.Malloc
open Blocks

/-- What becomes of the bytes of `nu` units as the argument of `sbrk`. -/
def sbrkArg (nu : ℕ) : ℤ := ((unit * nu : ℕ) : ℤ).bmod (2 ^ 32)

/-- The break after a successful `sbrk(n)` at the break `a`: `growproc` computes the new size in a
`uint`, `uvmalloc` does nothing if it is below the old one and `uvmdealloc` if it is not. -/
def growproc (a : ℕ) (n : ℤ) : ℕ :=
  let newsz := (((a : ℤ) + n) % 2 ^ 32).toNat
  if 0 < n then (if newsz < a then a else newsz)
  else if n < 0 then (if a ≤ newsz then a else newsz)
  else a

/-- No process is as large as this: the machine has less memory. -/
def memBound : ℕ := 2 ^ 31

/-- `sbrk` with its `int` parameter. -/
def intSbrk : Sbrk := fun a nu =>
  let brk := growproc a (sbrkArg nu)
  if a < memBound ∧ brk < memBound then some brk else none

/-- One call, with requests of any size. -/
def stepInt (base : ℕ) (s : State) : Event → Except Stop State
  | .malloc nbytes fuel answers =>
    if nbytes < 2 ^ 32 then s.malloc intSbrk base fuel nbytes answers else .error .outside
  | .free b fuel => step base s (.free b fuel)
  | .write x ptr size => step base s (.write x ptr size)

/-- What `malloc` owes its caller: it returns nothing or a block of the size asked for that lies in
memory obtained from `sbrk`, which begins at `lo`; it has asked `sbrk` for as many bytes as it has
put in the headers of the new blocks; and the process has not become smaller. -/
structure Honest (lo : ℕ) (s t : State) (nbytes : ℕ) : Prop where
  block : t.ret = 0 ∨ ∃ v, t.live = v :: s.live ∧ t.ret = v.start + unit ∧
    nbytes + unit ≤ unit * v.units ∧ lo ≤ v.start ∧ v.stop unit ≤ t.brk
  asked : ∃ new, t.obtained = new ++ s.obtained ∧ ∀ b ∈ new, sbrkArg b.units = (unit * b.units : ℕ)
  kept : s.brk ≤ t.brk

/-- A free block has the units the call needs, or `sbrk` answers -1, or the call would ask it for
less than `2 ^ 31` bytes. -/
def AsksLittle (base : ℕ) (s : State) (nbytes : ℕ) (answers : List (Option ℕ)) : Prop :=
  (s.heap.start base).HasBlock (nunits nbytes) ∨ answers.head? = some none ∨
    unit * coreUnits (nunits nbytes) < 2 ^ 31

/-- The memory obtained lies between `lo` and the break. -/
structure Above (lo brk : ℕ) (obtained : List Block) : Prop where
  room : lo + unit * total obtained ≤ brk
  start : ∀ b ∈ obtained, lo ≤ b.start
  bound : brk < memBound

section int
variable {base lo fuel n a : ℕ} {s t : State} {N : List Block} {answers : List (Option ℕ)}

theorem sbrkArg_of_lt (h : unit * n < 2 ^ 31) : sbrkArg n = (unit * n : ℕ) := by
  unfold sbrkArg
  exact Int.bmod_eq_of_le (by omega) (by omega)

theorem sbrkArg_ne (h : 2 ^ 31 ≤ unit * n) : sbrkArg n ≠ (unit * n : ℕ) := by
  have hlt := Int.bmod_lt (x := ((unit * n : ℕ) : ℤ)) (m := 2 ^ 32) (by decide)
  unfold sbrkArg
  omega

theorem growproc_add {k : ℕ} (ha : a < memBound) (hk : k < 2 ^ 31) : growproc a k = a + k := by
  have hmem : memBound = 2 ^ 31 := rfl
  have hnew : (((a : ℤ) + k) % 2 ^ 32).toNat = a + k := by omega
  simp only [growproc, hnew]
  split_ifs <;> omega

/-- A small number of bytes reaches `sbrk` as it is. -/
theorem intSbrk_eq (h : unit * n < 2 ^ 31) (a brk : ℕ) (hbrk : intSbrk a n = some brk) :
    brk = a + unit * n ∧ brk < memBound := by
  simp only [intSbrk] at hbrk
  split at hbrk
  · rename_i hok
    obtain rfl := Option.some.inj hbrk
    refine ⟨?_, hok.2⟩
    rw [sbrkArg_of_lt h, growproc_add hok.1 h]
  · contradiction

theorem Above.cons {brk nu : ℕ} {obtained : List Block} (h : Above lo brk obtained) (ha : brk ≤ a)
    (hlt : a + unit * nu < memBound) : Above lo (a + unit * nu) (⟨a, nu⟩ :: obtained) := by
  have hroom := h.room
  refine ⟨?_, fun b hb => ?_, hlt⟩
  · simp only [total_cons, Nat.mul_add]
    omega
  · rcases List.mem_cons.1 hb with rfl | hb
    · dsimp only
      omega
    · exact h.start b hb

theorem Above.total_lt {brk : ℕ} {obtained : List Block} (h : Above lo brk obtained) :
    total obtained < 2 ^ 27 := by
  have hroom := h.room
  have hlt := h.bound
  simp only [unit, memBound] at hroom hlt
  omega

/-- The regions that the search adds are all of one size. -/
theorem State.search_new (answers : List (Option ℕ))
    (h : s.search intSbrk fuel n answers = .ok t) :
    ∃ new, t.obtained = new ++ s.obtained ∧ ∀ b ∈ new, b.units = coreUnits n := by
  refine State.search_inv (P := fun _ obtained => ∃ new, obtained = new ++ s.obtained ∧
    ∀ b ∈ new, b.units = coreUnits n) answers ⟨[], rfl, by simp⟩ h ?_
  rintro a _ _ _ ⟨new, rfl, hnew⟩ - -
  refine ⟨⟨a, coreUnits n⟩ :: new, rfl, fun b hb => ?_⟩
  rcases List.mem_cons.1 hb with rfl | hb
  · rfl
  · exact hnew b hb

/-- A block the program holds lies in the memory obtained. -/
theorem Inv.within (hinv : Inv base s N) (hs : Above lo s.brk s.obtained) {v : Block}
    (hv : v ∈ s.live) : lo ≤ v.start ∧ v.stop unit ≤ s.brk := by
  have hpos := hinv.pos v hv
  constructor
  · obtain ⟨b, hb, hle, -⟩ := hinv.live_covered hv (hinv.has_start hv)
    exact (hs.start b hb).trans hle
  · have hlast : v.Has unit (v.stop unit - 1) := by
      simp only [Block.Has, Block.stop, unit]
      omega
    have := (hinv.range _ (hinv.live_covered hv hlast)).2
    omega

/-- A call other than `malloc` leaves the memory obtained as it is. -/
theorem stepInt_cases {e : Event} (h : stepInt base s e = .ok t) :
    (∃ nbytes fuel answers, e = .malloc nbytes fuel answers ∧
      s.malloc intSbrk base fuel nbytes answers = .ok t) ∨
    step base s e = .ok t ∧ t.obtained = s.obtained ∧ t.brk = s.brk := by
  cases e with
  | malloc nbytes fuel answers =>
    simp only [stepInt] at h
    split at h
    · exact .inl ⟨nbytes, fuel, answers, rfl, h⟩
    · contradiction
  | free b fuel =>
    refine .inr ⟨h, ?_⟩
    simp only [stepInt, step] at h
    split at h
    · split at h
      · contradiction
      · obtain rfl := Except.ok.inj h
        exact ⟨rfl, rfl⟩
    · contradiction
  | write x ptr size =>
    refine .inr ⟨h, ?_⟩
    simp only [stepInt, step] at h
    split at h
    · obtain rfl := Except.ok.inj h
      exact ⟨rfl, rfl⟩
    · contradiction

/-- The states of a run in which no call has asked for too much. -/
structure Sound (base lo : ℕ) (s : State) : Prop where
  good : Good base s
  above : Above lo s.brk s.obtained

/-- A search that asks for little obtains what it asks for, or obtains nothing. -/
theorem Inv.searchInt (hinv : Inv base s N) (hn : 0 < n) (hs : Above lo s.brk s.obtained)
    (h : s.search intSbrk fuel n answers = .ok t) (hlittle : s.heap.HasBlock n ∨
      answers.head? = some none ∨ unit * coreUnits n < 2 ^ 31) :
    ((∃ N', Inv base t N') ∧ Served s t n) ∧ Above lo t.brk t.obtained ∧ s.brk ≤ t.brk ∧
      (t.obtained = s.obtained ∨ unit * coreUnits n < 2 ^ 31) := by
  by_cases hsmall : unit * coreUnits n < 2 ^ 31
  · have hend := State.search_inv (P := fun brk obtained => Above lo brk obtained ∧ s.brk ≤ brk)
      answers ⟨hs, le_rfl⟩ h ?_
    · refine ⟨hinv.search answers hn h (hend.1.total_lt.trans (by decide)) ?_, hend.1, hend.2,
        .inr hsmall⟩
      exact fun a brk hbrk => (intSbrk_eq hsmall a brk hbrk).1
    · rintro a brk obtained b ⟨habove, hle⟩ ha hb
      obtain ⟨rfl, hlt⟩ := intSbrk_eq hsmall a b hb
      exact ⟨habove.cons ha hlt, hle.trans (ha.trans (Nat.le_add_right _ _))⟩
  · obtain ⟨prevp, p, hfind, ⟨hle, rfl⟩ | ⟨-, rfl⟩ | ⟨hnot, a, rest, s', rfl, -⟩⟩ :=
      State.search_cases h
    · exact ⟨(hinv.found hn hfind).2 hle, hs, le_rfl, .inl rfl⟩
    · exact ⟨hinv.fail, hs, le_rfl, .inl rfl⟩
    · rcases hlittle with hhas | hnone | hlt
      · exact absurd ((hinv.found hn hfind).1.2 hhas) hnot
      · simp at hnone
      · exact absurd hlt hsmall

/-- A call that asks for little is honest and leaves the allocator sound. -/
theorem Sound.malloc {nbytes : ℕ} (hbase : 0 < base) (hs : Sound base lo s)
    (hlittle : AsksLittle base s nbytes answers)
    (h : s.malloc intSbrk base fuel nbytes answers = .ok t) :
    Sound base lo t ∧ Honest lo s t nbytes := by
  obtain ⟨N, hinv⟩ := hs.good.start hbase
  obtain ⟨⟨⟨N', hinv'⟩, hserved⟩, habove, hle, hsmall⟩ :=
    hinv.searchInt (nunits_pos nbytes) hs.above h hlittle
  obtain ⟨new, hnew, hunits⟩ := State.search_new answers h
  refine ⟨⟨.inr ⟨N', hinv'⟩, habove⟩, ?_, ⟨new, hnew, fun b hb => ?_⟩, hle⟩
  · rcases hserved with ⟨hret, -⟩ | ⟨v, hlive, hret, hv⟩
    · exact .inl hret
    · obtain ⟨hstart, hstop⟩ := hinv'.within habove (v := v) (by simp [hlive])
      refine .inr ⟨v, hlive, hret, ?_, hstart, hstop⟩
      simp only [hv, nunits, unit]
      omega
  · rw [hunits b hb]
    refine sbrkArg_of_lt (hsmall.resolve_left fun heq => ?_)
    rw [List.append_left_eq_self.1 (hnew.symm.trans heq)] at hb
    contradiction

/-- A call that is honest asks for little: what it obtains otherwise is not what it asks for. -/
theorem Sound.asksLittle {nbytes : ℕ} (hbase : 0 < base) (hs : Sound base lo s)
    (h : s.malloc intSbrk base fuel nbytes answers = .ok t) (hhonest : Honest lo s t nbytes) :
    AsksLittle base s nbytes answers := by
  obtain ⟨N, hinv⟩ := hs.good.start hbase
  obtain ⟨prevp, p, hfind, ⟨hle, -⟩ | ⟨hnone, -⟩ | ⟨-, a, rest, s', -, hmore, hrest⟩⟩ :=
    State.search_cases h
  · exact .inl ((hinv.found (nunits_pos nbytes) hfind).1.1 hle)
  · exact .inr (.inl hnone)
  · obtain ⟨new, hnew, -⟩ := State.search_new rest hrest
    obtain ⟨-, brk, m, -, -, rfl⟩ := State.morecore_eq_ok.1 hmore
    obtain ⟨new', hnew', hasked⟩ := hhonest.asked
    have hcons : new' = new ++ [⟨a, coreUnits (nunits nbytes)⟩] := by
      apply List.append_cancel_right (hnew'.symm.trans hnew |>.trans _)
      simp [State.grown]
    refine .inr (.inr (Nat.not_le.1 fun hbig => sbrkArg_ne hbig ?_))
    exact hasked ⟨a, coreUnits (nunits nbytes)⟩ (by simp [hcons])

/-- With enough fuel and one answer from `sbrk`, a call of any size ends. -/
theorem Sound.malloc_ends {nbytes : ℕ} (hbase : 0 < base) (hs : Sound base lo s)
    (hbytes : nbytes < 2 ^ 32) (answer : Option ℕ)
    (hanswer : ∀ a ∈ answer, s.brk ≤ a ∧ intSbrk a (coreUnits (nunits nbytes)) ≠ none) :
    ∃ k t, ∀ fuel ≥ k, s.malloc intSbrk base fuel nbytes [answer] = .ok t := by
  obtain ⟨N, hinv⟩ := hs.good.start hbase
  refine hinv.search_ends (nunits_pos nbytes) answer fun a ha => ⟨(hanswer a ha).1,
    (hanswer a ha).2, ?_⟩
  have htotal := hs.above.total_lt
  have hunits : nunits nbytes ≤ 2 ^ 28 + 1 := by
    simp only [nunits, unit]
    omega
  dsimp only [coreUnits]
  split_ifs <;> omega

end int

/-- The calls of `malloc` in the run ask for little. -/
def Frugal (base : ℕ) (s : State) (e : Event) : Prop :=
  ∀ nbytes fuel answers, e = .malloc nbytes fuel answers → AsksLittle base s nbytes answers

/-- After calls that have asked for little, a call of `malloc` is honest if and only if it asks for
little as well: it finds what it needs in the heap or gets no more, or the bytes it asks `sbrk` for
fit an `int`. Whatever its size, with enough fuel the call ends. -/
theorem malloc_honest_iff (base lo : ℕ) (ptr size : ℕ → ℕ) (es : List Event) (s : State)
    (hbase : 0 < base) (hlo : base + unit ≤ lo) (hbound : lo < memBound)
    (hfrugal : Runs.Meets (stepInt base) (Frugal base) (init lo ptr size) es)
    (hrun : Runs.run (stepInt base) (init lo ptr size) es = .ok s) (nbytes : ℕ)
    (hbytes : nbytes < 2 ^ 32) :
    (∀ fuel answers t, stepInt base s (.malloc nbytes fuel answers) = .ok t →
      (Honest lo s t nbytes ↔ AsksLittle base s nbytes answers)) ∧
    ∀ answer, (∀ a ∈ answer, s.brk ≤ a ∧ intSbrk a (coreUnits (nunits nbytes)) ≠ none) →
      ∃ k t, ∀ fuel ≥ k, stepInt base s (.malloc nbytes fuel [answer]) = .ok t := by
  have hsound : Sound base lo s := by
    refine Runs.run_inv_meets (Sound base lo) ?_ ?_ hfrugal hrun
    · intro s e t hs hlittle hstep
      obtain ⟨nbytes, fuel, answers, rfl, h⟩ | ⟨h, hobt, hbrk⟩ := stepInt_cases hstep
      · exact (hs.malloc hbase (hlittle _ _ _ rfl) h).1
      · have habove : Above lo t.brk t.obtained := by
          rw [hobt, hbrk]
          exact hs.above
        exact ⟨hs.good.step hbase h (habove.total_lt.trans (by decide)), habove⟩
    · exact ⟨.inl ⟨rfl, rfl, rfl, hlo⟩, by simp [init], by simp [init], hbound⟩
  simp only [stepInt, hbytes, if_true]
  exact ⟨fun fuel answers t ht => ⟨hsound.asksLittle hbase ht, fun hlittle =>
    (hsound.malloc hbase hlittle ht).2⟩, hsound.malloc_ends hbase hbytes⟩

theorem malloc_honest_first : ∃ t,
    stepInt 16 (init 4096 (fun _ => 0) fun _ => 0) (.malloc 100 2 [some 4096]) = .ok t ∧
      t.ret ≠ 0 ∧ Honest 4096 (init 4096 (fun _ => 0) fun _ => 0) t 100 :=
  ⟨_, rfl, by decide, ((malloc_honest_iff 16 4096 _ _ [] _ (by decide) (by decide) (by decide) trivial
    rfl 100 (by decide)).1 2 [some 4096] _ rfl).2 (.inr (.inr (by decide)))⟩

/-- The first call asks for `2 ^ 32 - 1` bytes. `morecore` writes `2 ^ 28 + 1` units in the header but
asks `sbrk` for 16 bytes, which it gets, and `malloc` returns a block that has none of the bytes. -/
theorem malloc_gives_unobtained : ∃ t,
    stepInt 16 (init 4096 (fun _ => 0) fun _ => 0) (.malloc (2 ^ 32 - 1) 2 [some 4096]) = .ok t ∧
      t.ret = 4096 + unit ∧ t.brk = t.ret ∧
      t.live = [⟨4096, 2 ^ 28 + 1⟩] ∧ sbrkArg (2 ^ 28 + 1) = 16 ∧
      ¬ Honest 4096 (init 4096 (fun _ => 0) fun _ => 0) t (2 ^ 32 - 1) := by
  refine ⟨_, rfl, by decide, by decide, by decide, by decide, fun hhonest => ?_⟩
  obtain hret | ⟨v, hlive, -, -, -, hstop⟩ := hhonest.block
  · exact absurd hret (by decide)
  · obtain ⟨rfl, -⟩ := List.cons.inj hlive
    exact absurd hstop (by decide)

end Xv6.Malloc
