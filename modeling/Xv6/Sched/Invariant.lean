import Xv6.Sched.Discipline

/-! The invariant of the scheduler: which code each CPU and each suspended process has still to
run, who holds which lock, and who is whose parent. -/
namespace Xv6.Sched
open Act

/-- A process that may have children. -/
def Live (st : ProcState) : Prop := st = .runnable ∨ st = .running ∨ st = .sleeping

/-- A process that has come out of `fork`. -/
def Past (st : ProcState) : Prop := Live st ∨ st = .zombie

/-- A process on its way into the scheduler. -/
def Left (st : ProcState) : Prop := st = .runnable ∨ st = .sleeping ∨ st = .zombie

/-- The state of a process whose thread is on a CPU. -/
def StateOk (s : State) (p : ℕ) (L : Local) : Prop :=
  match L.away with
  | none => (s.proc p).state = .running
  | some st => (s.proc p).state = st ∧ .proc p ∈ L.held ∧ Left st

/-- The entry that a call of `fork` is filling. -/
def ChildOk (s : State) (info : Thread → Local) (p : ℕ) (L : Local) : Prop :=
  ∀ j st, L.child = some (j, st) → j < s.nproc ∧ (s.proc j).state = .used ∧
    (s.proc j).parent = (if st = .adopted then some p else none) ∧
    (st ≠ .bare → s.ctx (.proc j) = some [forkret] ∧ info (.proc j) = { held := [.proc j] })

/-- What a holder of `wait_lock` knows of its children. -/
def KidOk (s : State) (p : ℕ) (L : Local) : Prop :=
  .wait ∈ L.held → (∀ j, L.kid = some j → (s.proc j).parent = some p) ∧
    ∀ k, k < L.kidless → (s.proc k).parent ≠ some p

/-- A process that is on no CPU. If it is to run again, its saved context is good. -/
structure Off (s : State) (info : Thread → Local) (j : ℕ) : Prop where
  state : (s.proc j).state ≠ .running
  held : (info (.proc j)).held = [.proc j]
  away : (info (.proc j)).away = none
  ready : (s.proc j).state = .runnable ∨ (s.proc j).state = .sleeping →
    ∃ code, s.ctx (.proc j) = some code ∧
      Safe s.nproc s.initproc (.proc j) (info (.proc j)) code

/-- What a CPU is about. -/
inductive CpuOk (s : State) (held : ℕ → List Lock) (info : Thread → Local) (c : ℕ) : Prop where
  /-- It runs its scheduler. -/
  | sched (hwho : s.who c = .sched c) (hcur : s.cur c = none)
      (hheld : held c = (info (.sched c)).held) (haway : (info (.sched c)).away = none)
      (hsafe : Safe s.nproc s.initproc (.sched c) (info (.sched c)) (s.todo c))
  /-- It runs a process. -/
  | proc (p : ℕ) (hwho : s.who c = .proc p) (hcur : s.cur c = some p)
      (hheld : held c = (info (.proc p)).held) (hctx : s.ctx (.sched c) = some (afterProc p))
      (hstate : StateOk s p (info (.proc p)))
      (hsafe : Safe s.nproc s.initproc (.proc p) (info (.proc p)) (s.todo c))
  /-- It has saved a process and is about to load its scheduler. -/
  | toSched (p : ℕ) (hwho : s.who c = .proc p) (hcur : s.cur c = some p)
      (hheld : held c = [.proc p]) (hctx : s.ctx (.sched c) = some (afterProc p))
      (htodo : s.todo c = [load (.sched c)]) (hleft : Left (s.proc p).state) (hoff : Off s info p)
  /-- It is back in its scheduler, which has not yet cleared `c->proc`. -/
  | back (p : ℕ) (hwho : s.who c = .sched c) (hcur : s.cur c = some p)
      (hheld : held c = [.proc p]) (htodo : s.todo c = afterProc p)
      (hleft : Left (s.proc p).state) (hoff : Off s info p)
  /-- It has saved its scheduler and is about to load a process. -/
  | toProc (p : ℕ) (hwho : s.who c = .sched c) (hcur : s.cur c = some p)
      (hheld : held c = [.proc p]) (hctx : s.ctx (.sched c) = some (afterProc p))
      (htodo : s.todo c = [load (.proc p)]) (hstate : (s.proc p).state = .running)
      (hlocal : (info (.proc p)).held = [.proc p]) (haway : (info (.proc p)).away = none)
      (hready : ∃ code, s.ctx (.proc p) = some code ∧
        Safe s.nproc s.initproc (.proc p) (info (.proc p)) code)

/-- The process table by itself. -/
structure Family (s : State) : Prop where
  parent : ∀ k q, (s.proc k).parent = some q → Live (s.proc q).state
  child : ∀ i, Past (s.proc i).state → i ≠ s.initproc → (s.proc i).parent ≠ none
  init : Live (s.proc s.initproc).state
  unused : ∀ i, (s.proc i).state = .unused → (s.proc i).parent = none ∧ (s.proc i).pid = 0
  bound : ∀ i, s.nproc ≤ i → (s.proc i).parent = none

structure Inv (s : State) (held : ℕ → List Lock) (info : Thread → Local) : Prop where
  lock : ∀ l c, s.lock l = some c ↔ l ∈ held c
  noff : ∀ c, s.noff c = (held c).length
  nodup : ∀ c, (held c).Nodup
  cpu : ∀ c, CpuOk s held info c
  single : ∀ c d p, s.cur c = some p → s.cur d = some p → c = d
  off : ∀ j, (∀ c, s.cur c ≠ some j) → Off s info j
  child : ∀ p, ChildOk s info p (info (.proc p))
  unique : ∀ p q j st st', (info (.proc p)).child = some (j, st) →
    (info (.proc q)).child = some (j, st') → p = q
  kid : ∀ p, KidOk s p (info (.proc p))
  family : Family s

section facts
variable {s : State} {held : ℕ → List Lock} {info : Thread → Local} {c d p j : ℕ}

/-- A process on a CPU has run. -/
theorem CpuOk.past (h : CpuOk s held info c) (hcur : s.cur c = some p) :
    Past (s.proc p).state := by
  have hleft : ∀ {st}, Left st → Past st := by
    rintro st (rfl | rfl | rfl)
    · exact Or.inl (Or.inl rfl)
    · exact Or.inl (Or.inr (Or.inr rfl))
    · exact Or.inr rfl
  cases h with
  | sched _ h0 =>
    rw [h0] at hcur
    cases hcur
  | proc q _ hq _ _ hstate =>
    obtain rfl : q = p := Option.some.inj (hq.symm.trans hcur)
    unfold StateOk at hstate
    split at hstate
    · exact Or.inl (Or.inr (Or.inl hstate))
    · rw [hstate.1]
      exact hleft hstate.2.2
  | toSched q _ hq _ _ _ hl =>
    obtain rfl : q = p := Option.some.inj (hq.symm.trans hcur)
    exact hleft hl
  | back q _ hq _ _ hl =>
    obtain rfl : q = p := Option.some.inj (hq.symm.trans hcur)
    exact hleft hl
  | toProc q _ hq _ _ _ hstate =>
    obtain rfl : q = p := Option.some.inj (hq.symm.trans hcur)
    exact Or.inl (Or.inr (Or.inl hstate))

/-- A CPU that does not hold the lock of its process runs it. -/
theorem CpuOk.running (h : CpuOk s held info c) (hcur : s.cur c = some p)
    (hl : .proc p ∉ held c) : (s.proc p).state = .running := by
  cases h with
  | sched _ h0 =>
    rw [h0] at hcur
    cases hcur
  | proc q _ hq hheld _ hstate =>
    obtain rfl : q = p := Option.some.inj (hq.symm.trans hcur)
    unfold StateOk at hstate
    split at hstate
    · exact hstate
    · rw [hheld] at hl
      exact absurd hstate.2.1 hl
  | toSched q _ hq hheld =>
    obtain rfl : q = p := Option.some.inj (hq.symm.trans hcur)
    simp [hheld] at hl
  | back q _ hq hheld =>
    obtain rfl : q = p := Option.some.inj (hq.symm.trans hcur)
    simp [hheld] at hl
  | toProc q _ hq hheld =>
    obtain rfl : q = p := Option.some.inj (hq.symm.trans hcur)
    simp [hheld] at hl

/-- A CPU on the stack of a process has it as `c->proc`. -/
theorem CpuOk.cur_of_who (h : CpuOk s held info c) (hwho : s.who c = .proc p) :
    s.cur c = some p := by
  cases h with
  | sched h0 => simp [h0] at hwho
  | proc q h0 hq =>
    obtain rfl : q = p := Thread.proc.inj (h0.symm.trans hwho)
    exact hq
  | toSched q h0 hq =>
    obtain rfl : q = p := Thread.proc.inj (h0.symm.trans hwho)
    exact hq
  | back q h0 => simp [h0] at hwho
  | toProc q h0 => simp [h0] at hwho

/-- A lock has one holder. -/
theorem Inv.holder (h : Inv s held info) {l : Lock} (hc : l ∈ held c) (hd : l ∈ held d) : c = d := by
  have h1 := (h.lock l c).mpr hc
  have h2 := (h.lock l d).mpr hd
  exact Option.some.inj (h1.symm.trans h2)

/-- Only the state, the context and the knowledge of a process matter to it. -/
theorem Off.frame {s' : State} {info' : Thread → Local} (h : Off s info j)
    (hstate : (s'.proc j).state = (s.proc j).state) (hinfo : info' (.proc j) = info (.proc j))
    (hctx : s'.ctx (.proc j) = s.ctx (.proc j)) (hn : s'.nproc = s.nproc)
    (hi : s'.initproc = s.initproc) : Off s' info' j := by
  refine ⟨?_, ?_, ?_, ?_⟩
  · rw [hstate]
    exact h.state
  · rw [hinfo]
    exact h.held
  · rw [hinfo]
    exact h.away
  · rw [hstate, hctx, hinfo, hn, hi]
    exact h.ready

/-- A CPU is not concerned by what happens elsewhere. -/
theorem CpuOk.frame {s' : State} {held' : ℕ → List Lock} {info' : Thread → Local}
    (h : CpuOk s held info d) (hwho : s'.who d = s.who d) (htodo : s'.todo d = s.todo d)
    (hcur : s'.cur d = s.cur d) (hctx : s'.ctx (.sched d) = s.ctx (.sched d))
    (hheld : held' d = held d) (hinfo : info' (.sched d) = info (.sched d))
    (hn : s'.nproc = s.nproc) (hi : s'.initproc = s.initproc)
    (hproc : ∀ q, s.cur d = some q → (s'.proc q).state = (s.proc q).state ∧
      info' (.proc q) = info (.proc q) ∧ s'.ctx (.proc q) = s.ctx (.proc q)) :
    CpuOk s' held' info' d := by
  cases h with
  | sched h1 h2 h3 h4 h5 =>
    refine .sched (hwho.trans h1) (hcur.trans h2) ?_ ?_ ?_
    · rw [hheld, hinfo, h3]
    · rw [hinfo, h4]
    · rw [hn, hi, hinfo, htodo]
      exact h5
  | proc q h1 h2 h3 h4 h5 h6 =>
    obtain ⟨hs, hl, -⟩ := hproc q h2
    refine .proc q (hwho.trans h1) (hcur.trans h2) ?_ (hctx.trans h4) ?_ ?_
    · rw [hheld, hl, h3]
    · rw [hl]
      unfold StateOk at h5 ⊢
      rwa [hs]
    · rw [hn, hi, hl, htodo]
      exact h6
  | toSched q h1 h2 h3 h4 h5 h6 h7 =>
    obtain ⟨hs, hl, hx⟩ := hproc q h2
    exact .toSched q (hwho.trans h1) (hcur.trans h2) (hheld.trans h3) (hctx.trans h4)
      (htodo.trans h5) (by rwa [hs]) (h7.frame hs hl hx hn hi)
  | back q h1 h2 h3 h4 h5 h6 =>
    obtain ⟨hs, hl, hx⟩ := hproc q h2
    exact .back q (hwho.trans h1) (hcur.trans h2) (hheld.trans h3) (htodo.trans h4)
      (by rwa [hs]) (h6.frame hs hl hx hn hi)
  | toProc q h1 h2 h3 h4 h5 h6 h7 h8 h9 =>
    obtain ⟨hs, hl, hx⟩ := hproc q h2
    refine .toProc q (hwho.trans h1) (hcur.trans h2) (hheld.trans h3) (hctx.trans h4)
      (htodo.trans h5) (hs.trans h6) (by rwa [hl]) (by rwa [hl]) ?_
    rw [hx, hl, hn, hi]
    exact h9

end facts
end Xv6.Sched
