import Xv6.Sched.Kill

/-! Process ids. `nextpid` is an `int` that only counts up, on failed forks as well, so that
after enough of them it turns negative and then comes back to ids in use. -/
namespace Xv6.Sched
open Act

/-- The processes in the table have different, positive ids. -/
structure PidsOk (s : State) : Prop where
  pos : ∀ i, (s.proc i).state ≠ .unused → 0 < (s.proc i).pid.toInt
  ne : ∀ i j, i ≠ j → (s.proc i).state ≠ .unused → (s.proc j).state ≠ .unused →
    (s.proc i).pid ≠ (s.proc j).pid

/-- The event is a call of `allocpid` by `allocproc` for the entry `j`. -/
def AllocsPid (s : State) (e : Event) (j : ℕ) : Prop :=
  ∃ c ok p rest, e = .run c ok ∧ s.todo c = allocAt p j :: rest ∧ (s.proc j).state = .unused

/-- If the event calls `allocpid`, the id it returns is positive and no process has it. -/
def FreshPid (s : State) (e : Event) : Prop :=
  ∀ j, AllocsPid s e j → 0 < s.nextpid.toInt ∧
    ∀ i, (s.proc i).state ≠ .unused → (s.proc i).pid ≠ s.nextpid

section step
variable {s s' : State} {e : Event} {i j : ℕ}

theorem AllocsPid.step (h : AllocsPid s e j) (hstep : s.step e = .ok s') :
    s'.proc = Function.update s.proc j { s.proc j with pid := s.nextpid, state := .used } ∧
      s'.nextpid = s.nextpid + 1 := by
  obtain ⟨c, ok, p, rest, rfl, htodo, hfree⟩ := h
  simp only [State.step, htodo, State.act, if_pos hfree] at hstep
  obtain rfl := Except.ok.inj hstep
  exact ⟨rfl, rfl⟩

theorem AllocsPid.unique (hi : AllocsPid s e i) (hj : AllocsPid s e j) : i = j := by
  obtain ⟨c, ok, p, rest, rfl, htodo, -⟩ := hi
  obtain ⟨d, ok', p', rest', he, htodo', -⟩ := hj
  obtain ⟨rfl, -⟩ := Event.run.inj he
  rw [htodo] at htodo'
  exact (Act.allocAt.inj (List.cons.inj htodo').1).2

theorem nextpid_step (hstep : s.step e = .ok s') (h : ∀ j, ¬ AllocsPid s e j) :
    s'.nextpid = s.nextpid := by
  rcases step_cases hstep with ⟨c, ok, a, rest, rfl, htodo, hact⟩ | rfl |
    ⟨c, f, p, -, -, -, -, rfl⟩ | ⟨c, i, -, -, rfl⟩
  · cases a with
    | allocAt p j =>
      have hused : (s.proc j).state ≠ .unused := fun hfree =>
        h j ⟨c, ok, p, rest, rfl, htodo, hfree⟩
      simp only [State.act, if_neg hused] at hact
      obtain rfl := Except.ok.inj hact
      rfl
    | _ =>
      simp only [State.act] at hact
      repeat' split at hact
      all_goals
        first
        | contradiction
        | obtain rfl := Except.ok.inj hact
          rfl
  · rfl
  · rfl
  · rfl

/-- A process that is there after a step was there before, with its id, or its id has just
been allocated. -/
theorem Good.live_step (hgood : Good s) (hstep : s.step e = .ok s')
    (hlive : (s'.proc i).state ≠ .unused) :
    ((s.proc i).state ≠ .unused ∧ (s'.proc i).pid = (s.proc i).pid) ∨ AllocsPid s e i := by
  obtain ⟨held, info, hinv⟩ := id hgood
  rcases step_proc hstep with hsame | ⟨c, ok, a, rest, rfl, htodo, hact⟩
  · rw [hsame] at hlive ⊢
    exact .inl ⟨hlive, rfl⟩
  by_cases hpast : Past (s.proc i).state
  · rcases hinv.kept_or_reaped htodo hact hpast with hkept | ⟨p, hreaped⟩
    · exact .inl ⟨hpast.ne_unused, hkept.pid⟩
    · rw [hreaped.free] at hlive
      exact absurd rfl hlive
  · by_cases hpast' : Past (s'.proc i).state
    · obtain ⟨p, rfl, -, hused, -⟩ := hinv.started htodo hact hpast hpast'
      simp only [State.act] at hact
      obtain rfl := Except.ok.inj hact
      exact .inl ⟨by simp [hused], by simp⟩
    · have hused : (s'.proc i).state = .used := by
        simp only [Past, Live, not_or] at hpast'
        cases hst : (s'.proc i).state <;> simp_all
      rcases act_entry hact i with hfree | hother | ⟨p, rfl, hfree, -⟩ | ⟨-, hkill⟩ | ⟨hst, -, hpid⟩
      · rw [hfree] at hlive
        exact absurd rfl hlive
      · exact absurd hused hother.2
      · exact .inr ⟨c, ok, p, rest, rfl, htodo, hfree⟩
      · rw [hkill] at hlive ⊢
        refine .inl ⟨fun hfree => hlive ?_, rfl⟩
        simp [Proc.kill, hfree]
      · exact .inl ⟨hst ▸ hlive, hpid⟩

/-- One step keeps the ids apart if the id it allocates, if any, is fresh. -/
theorem PidsOk.step (hok : PidsOk s) (hgood : Good s) (hstep : s.step e = .ok s')
    (hfresh : FreshPid s e) : PidsOk s' := by
  have hnew : ∀ i, AllocsPid s e i → (s'.proc i).pid = s.nextpid := by
    intro i halloc
    simp [(halloc.step hstep).1]
  refine ⟨fun i hi => ?_, fun i j hij hi hj => ?_⟩
  · rcases hgood.live_step hstep hi with ⟨hlive, hpid⟩ | halloc
    · rw [hpid]
      exact hok.pos i hlive
    · rw [hnew i halloc]
      exact (hfresh i halloc).1
  · rcases hgood.live_step hstep hi with ⟨hi, hpi⟩ | hai <;>
      rcases hgood.live_step hstep hj with ⟨hj, hpj⟩ | haj
    · rw [hpi, hpj]
      exact hok.ne i j hij hi hj
    · rw [hpi, hnew j haj]
      exact (hfresh j haj).2 i hi
    · rw [hnew i hai, hpj]
      exact Ne.symm ((hfresh i hai).2 j hj)
    · exact absurd (hai.unique haj) hij

/-- And only then. -/
theorem PidsOk.fresh (hstep : s.step e = .ok s') (hok : PidsOk s') : FreshPid s e := by
  intro j halloc
  have hproc := (halloc.step hstep).1
  obtain ⟨-, -, -, -, -, -, hfree⟩ := id halloc
  have hj : (s'.proc j).state ≠ .unused ∧ (s'.proc j).pid = s.nextpid := by simp [hproc]
  refine ⟨hj.2 ▸ hok.pos j hj.1, fun i hi => ?_⟩
  have hij : i ≠ j := fun heq => hi (heq ▸ hfree)
  have hsame : s'.proc i = s.proc i := by simp [hproc, hij]
  have hne := hok.ne i j hij (by rwa [hsame]) hj.1
  rwa [hsame, hj.2] at hne

/-- The steps that allocate an id never stop. -/
theorem AllocsPid.ok (h : AllocsPid s e j) : ∃ s', s.step e = .ok s' := by
  obtain ⟨c, ok, p, rest, rfl, htodo, hfree⟩ := h
  exact ⟨_, by simp only [State.step, htodo, State.act, if_pos hfree]; rfl⟩

end step

theorem pidsOk_boot (nproc : ℕ) : PidsOk (State.boot nproc) := by
  have hother : ∀ i, i ≠ 0 → ((State.boot nproc).proc i).state = .unused := by
    intro i hi
    simp [State.boot, hi]
  refine ⟨fun i hi => ?_, fun i j hij hi hj => ?_⟩
  · obtain rfl : i = 0 := by_contra fun hne => hi (hother i hne)
    simp [State.boot]
  · obtain rfl : i = 0 := by_contra fun hne => hi (hother i hne)
    exact absurd (hother j (Ne.symm hij)) hj

theorem throughout_pidsOk_iff {s : State} (hgood : Good s) (hok : PidsOk s)
    (events : List Event) :
    Runs.Throughout State.step PidsOk s events ↔ Runs.Meets State.step FreshPid s events := by
  induction events generalizing s with
  | nil => exact ⟨fun _ => trivial, fun _ => Runs.throughout_nil.2 hok⟩
  | cons e events ih =>
    rw [Runs.throughout_cons]
    constructor
    · rintro ⟨-, hnext⟩
      have hpids : ∀ t, s.step e = .ok t → PidsOk t := fun t ht =>
        hnext t ht [] t List.nil_prefix rfl
      refine ⟨fun j halloc => ?_, fun t ht => (ih (hgood.step_ok ht) (hpids t ht)).1 (hnext t ht)⟩
      obtain ⟨t, ht⟩ := halloc.ok
      exact (hpids t ht).fresh ht j halloc
    · rintro ⟨hfresh, hmeets⟩
      exact ⟨hok, fun t ht => (ih (hgood.step_ok ht) (hok.step hgood ht hfresh)).2 (hmeets t ht)⟩

section count
variable {s s' : State} {n : ℕ} {e : Event}

/-- The machine with the number of ids allocated since it was booted. -/
def stepN (sn : State × ℕ) (e : Event) : Except Fault (State × ℕ) :=
  match sn.1.step e with
  | .ok s => .ok (s, if s.nextpid = sn.1.nextpid then sn.2 else sn.2 + 1)
  | .error f => .error f

/-- While `nextpid` has not come to the end of the positive numbers, the ids in use are below
it. -/
structure Counted (s : State) (n : ℕ) : Prop where
  good : Good s
  next : n + 2 ≤ 2 ^ 31 → s.nextpid.toNat = n + 2
  below : n + 2 ≤ 2 ^ 31 → ∀ i, (s.proc i).state ≠ .unused → (s.proc i).pid.toNat < n + 2
  pids : n + 2 ≤ 2 ^ 31 → PidsOk s

theorem toInt_pos_of_lt {x : Pid} (h0 : 0 < x.toNat) (h : x.toNat < 2 ^ 31) : 0 < x.toInt := by
  rw [BitVec.toInt_eq_toNat_of_lt (by omega)]
  omega

theorem Counted.alloc (h : Counted s n) (hstep : s.step e = .ok s') {j : ℕ}
    (halloc : AllocsPid s e j) : Counted s' (n + 1) := by
  obtain ⟨hproc, hnext⟩ := halloc.step hstep
  refine ⟨h.good.step_ok hstep, fun hn => ?_, fun hn i hi => ?_, fun hn => ?_⟩
  · have hold := h.next (by omega)
    have hone : (1 : Pid).toNat = 1 := rfl
    rw [hnext, BitVec.toNat_add, hold, hone]
    omega
  · have hold := h.next (by omega)
    by_cases hij : i = j
    · subst hij
      have hpid : (s'.proc i).pid = s.nextpid := by simp [hproc]
      rw [hpid, hold]
      omega
    · have hsame : s'.proc i = s.proc i := by simp [hproc, hij]
      rw [hsame] at hi ⊢
      have hlt := h.below (by omega) i hi
      omega
  · have hold := h.next (by omega)
    refine (h.pids (by omega)).step h.good hstep fun k _ => ⟨?_, fun i hi heq => ?_⟩
    · exact toInt_pos_of_lt (by omega) (by omega)
    · have hlt := h.below (by omega) i hi
      rw [heq, hold] at hlt
      omega

theorem Counted.other (h : Counted s n) (hstep : s.step e = .ok s')
    (hnone : ∀ j, ¬ AllocsPid s e j) : Counted s' n := by
  refine ⟨h.good.step_ok hstep, fun hn => ?_, fun hn i hi => ?_, fun hn => ?_⟩
  · rw [nextpid_step hstep hnone]
    exact h.next hn
  · rcases h.good.live_step hstep hi with ⟨hlive, hpid⟩ | halloc
    · rw [hpid]
      exact h.below hn i hlive
    · exact absurd halloc (hnone i)
  · exact (h.pids hn).step h.good hstep fun j halloc => absurd halloc (hnone j)

theorem counted_boot (nproc : ℕ) : Counted (State.boot nproc) 0 := by
  refine ⟨good_boot nproc, fun _ => rfl, fun _ i hi => ?_, fun _ => pidsOk_boot nproc⟩
  have hzero : i = 0 := by
    by_contra hne
    exact hi (by simp [State.boot, hne])
  subst hzero
  show (1 : Pid).toNat < 0 + 2
  decide

theorem counted_run {nproc : ℕ} {events : List Event}
    (hrun : Runs.run stepN (State.boot nproc, 0) events = .ok (s, n)) : Counted s n := by
  refine Runs.run_inv (fun sn => Counted sn.1 sn.2) ?_ (counted_boot nproc) hrun
  rintro ⟨s, n⟩ e ⟨s', n'⟩ hc hstep
  simp only [stepN] at hstep
  split at hstep
  · rename_i t ht
    obtain ⟨rfl, rfl⟩ := Prod.mk.inj (Except.ok.inj hstep)
    by_cases halloc : ∃ j, AllocsPid s e j
    · obtain ⟨j, halloc⟩ := halloc
      have hmoves : t.nextpid ≠ s.nextpid := by
        rw [(halloc.step ht).2]
        simp
      rw [if_neg hmoves]
      exact hc.alloc ht halloc
    · have hnone : ∀ j, ¬ AllocsPid s e j := fun j hj => halloc ⟨j, hj⟩
      rw [if_pos (nextpid_step ht hnone)]
      exact hc.other ht hnone
  · contradiction

end count

/-- Process ids stay different and positive throughout a run exactly as long as every id that
`allocpid` returns is positive and no process has it; and that is so while it has been called
at most `2^31 - 2` times. -/
theorem pids_unique_iff (nproc : ℕ) (events : List Event) :
    (Runs.Throughout State.step PidsOk (State.boot nproc) events ↔
      Runs.Meets State.step FreshPid (State.boot nproc) events) ∧
    ∀ s n, Runs.run stepN (State.boot nproc, 0) events = .ok (s, n) →
      n + 2 ≤ 2 ^ 31 → PidsOk s :=
  ⟨throughout_pidsOk_iff (good_boot nproc) (pidsOk_boot nproc) events,
    fun _ _ hrun hn => (counted_run hrun).pids hn⟩

/-- The first process runs on the first CPU and is about to make a system call; the second entry
of the table is free. -/
structure Idle (s : State) (v : Pid) : Prop where
  nproc : s.nproc = Xv6.nproc
  todo : s.todo 0 = []
  cur : s.cur 0 = some 0
  noff : s.noff 0 = 0
  lock₀ : s.lock (.proc 0) = none
  lock₁ : s.lock (.proc 1) = none
  first : (s.proc 0).state ≠ .unused
  pid : (s.proc 0).pid = 1
  second : (s.proc 1).state = .unused
  nextpid : s.nextpid = v

/-- A call of `fork` up to the allocation of the child's id. -/
def forkUpToPid : List Event := .call 0 .fork :: List.replicate 7 (.run 0 true)

/-- The rest of the call when there is no memory for the child. -/
def forkNoMemory : List Event := [.run 0 false, .run 0 true, .run 0 true]

/-- With its child's id, the first process has allocated one id. -/
theorem pids_unique_iff_fork : ∃ s, Runs.run stepN (State.boot Xv6.nproc, 0)
    (List.replicate 6 (.run 0 true) ++ forkUpToPid) = .ok (s, 1) ∧ (s.proc 1).pid = 2 ∧
    PidsOk s := by
  obtain ⟨s, hrun, hpid⟩ : ∃ s, Runs.run stepN (State.boot Xv6.nproc, 0)
      (List.replicate 6 (.run 0 true) ++ forkUpToPid) = .ok (s, 1) ∧ (s.proc 1).pid = 2 :=
    ⟨_, rfl, rfl⟩
  exact ⟨s, hrun, hpid, (pids_unique_iff _ _).2 s 1 hrun (by decide)⟩

theorem Idle.forkUpToPid {s : State} {v : Pid} (h : Idle s v) :
    ∃ s', Runs.run State.step s forkUpToPid = .ok s' ∧ (s'.proc 0).state ≠ .unused ∧
      (s'.proc 0).pid = 1 ∧ (s'.proc 1).state = .used ∧ (s'.proc 1).pid = v ∧
      ∃ s'', Runs.run State.step s' forkNoMemory = .ok s'' ∧ Idle s'' (v + 1) := by
  have hlt : 1 < Xv6.nproc := by decide
  simp [Sched.forkUpToPid, forkNoMemory, Runs.run, State.step, State.act, Call.enabled, Call.code,
    fork, List.replicate, h.todo, h.cur, h.noff, h.lock₀, h.lock₁, h.first, h.second, h.nproc,
    h.pid, h.nextpid, hlt]
  exact ⟨rfl, by simp, h.cur, by simp, by simp, by simp, by simpa using h.first,
    by simpa using h.pid, by simp, rfl⟩

theorem idle_boot : ∃ s, Runs.run State.step (State.boot Xv6.nproc) (List.replicate 6 (.run 0 true)) =
    .ok s ∧ Idle s 2 :=
  ⟨_, rfl, rfl, rfl, rfl, rfl, rfl, rfl, by decide, rfl, rfl, rfl⟩

/-- Failed forks, each of which uses an id up. -/
theorem Idle.forks {s : State} {v : Pid} (h : Idle s v) (n : ℕ) :
    ∃ events s', Runs.run State.step s events = .ok s' ∧ Idle s' (v + BitVec.ofNat 32 n) := by
  induction n with
  | zero => exact ⟨[], s, rfl, by simpa using h⟩
  | succ n ih =>
    obtain ⟨events, s₁, hrun₁, h₁⟩ := ih
    obtain ⟨s₂, hrun₂, -, -, -, -, s₃, hrun₃, h₃⟩ := h₁.forkUpToPid
    refine ⟨events ++ (Sched.forkUpToPid ++ forkNoMemory), s₃, ?_, ?_⟩
    · rw [Runs.run_append_ok hrun₁, Runs.run_append_ok hrun₂, hrun₃]
    · rw [BitVec.ofNat_add, ← BitVec.add_assoc]
      exact h₃

/-- After `n` failed forks the next child gets the id `2 + n`, whatever that is in 32 bits. -/
theorem reachable_pid (n : ℕ) : ∃ s, Reachable s ∧ (s.proc 0).state ≠ .unused ∧
    (s.proc 0).pid = 1 ∧ (s.proc 1).state = .used ∧ (s.proc 1).pid = 2 + BitVec.ofNat 32 n := by
  obtain ⟨s₀, hrun₀, h₀⟩ := idle_boot
  obtain ⟨events, s₁, hrun₁, h₁⟩ := h₀.forks n
  obtain ⟨s₂, hrun₂, hlive, hpid, hused, hpid', -⟩ := h₁.forkUpToPid
  refine ⟨s₂, ⟨Xv6.nproc, List.replicate 6 (.run 0 true) ++
    (events ++ Sched.forkUpToPid), ?_⟩, hlive, hpid, hused, hpid'⟩
  rw [Runs.run_append_ok hrun₀, Runs.run_append_ok hrun₁, hrun₂]

/-- After `2^31 - 2` failed forks a process has a negative id, and after `2^32 - 1` one has the
id of the first process. -/
theorem pids_wrap :
    (∃ s, Reachable s ∧ (s.proc 1).state ≠ .unused ∧ (s.proc 1).pid.toInt < 0) ∧
    ∃ s, Reachable s ∧ (s.proc 0).state ≠ .unused ∧ (s.proc 1).state ≠ .unused ∧
      (s.proc 0).pid = (s.proc 1).pid ∧ ¬ PidsOk s := by
  constructor
  · obtain ⟨s, hreach, -, -, hused, hpid⟩ := reachable_pid (2 ^ 31 - 2)
    exact ⟨s, hreach, by simp [hused], by rw [hpid]; decide⟩
  · obtain ⟨s, hreach, hlive, hone, hused, hpid⟩ := reachable_pid (2 ^ 32 - 1)
    have hlive' : (s.proc 1).state ≠ .unused := by simp [hused]
    have hsame : (s.proc 0).pid = (s.proc 1).pid := by
      rw [hone, hpid]
      decide
    exact ⟨s, hreach, hlive, hlive', hsame, fun hok => hok.ne 0 1 (by decide) hlive hlive' hsame⟩

end Xv6.Sched
