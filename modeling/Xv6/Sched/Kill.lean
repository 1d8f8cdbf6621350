import Xv6.Sched.Wakeup

/-! `kill`: which entry it hits, and that a process starts its life unkilled as long as no
`kill` hits a free entry. -/
namespace Xv6.Sched
open Act

/-- The loop of `kill` from entry `j` on, with `k` entries left, on a table that nobody else
touches. The entry it hits, if any, and the table it leaves. -/
def killLoop (pid : Pid) (table : ℕ → Proc) : ℕ → ℕ → Option ℕ × (ℕ → Proc)
  | 0, _ => (none, table)
  | k + 1, j =>
    if (table j).pid = pid then (some j, Function.update table j (table j).kill)
    else killLoop pid table k (j + 1)

def killTable (nproc : ℕ) (pid : Pid) (table : ℕ → Proc) : Option ℕ × (ℕ → Proc) :=
  killLoop pid table nproc 0

/-- What `kill` is meant to do: it returns 0 (hits an entry) exactly if a process has the pid,
changes only that process, and otherwise changes nothing. -/
structure HitsNamed (nproc : ℕ) (pid : Pid) (table : ℕ → Proc) : Prop where
  returns : (killTable nproc pid table).1.isSome = true ↔
    ∃ i < nproc, (table i).state ≠ .unused ∧ (table i).pid = pid
  hit : ∀ i, (killTable nproc pid table).1 = some i → i < nproc ∧ (table i).state ≠ .unused ∧
    (table i).pid = pid ∧ (killTable nproc pid table).2 = Function.update table i (table i).kill
  miss : (killTable nproc pid table).1 = none → (killTable nproc pid table).2 = table

section table
variable {pid : Pid} {table : ℕ → Proc} {k j n : ℕ}

/-- The loop stops at the first entry with the pid. -/
theorem killLoop_spec (pid : Pid) (table : ℕ → Proc) (k j : ℕ) : (killLoop pid table k j = (none, table) ∧
      ∀ i, j ≤ i → i < j + k → (table i).pid ≠ pid) ∨
    ∃ i, j ≤ i ∧ i < j + k ∧ (table i).pid = pid ∧ (∀ i', j ≤ i' → i' < i → (table i').pid ≠ pid) ∧
      killLoop pid table k j = (some i, Function.update table i (table i).kill) := by
  induction k generalizing j with
  | zero => exact Or.inl ⟨rfl, by omega⟩
  | succ k ih =>
    by_cases hj : (table j).pid = pid
    · exact Or.inr ⟨j, Nat.le_refl _, by omega, hj, by omega, by simp [killLoop, hj]⟩
    · have hloop : killLoop pid table (k + 1) j = killLoop pid table k (j + 1) := by
        simp [killLoop, hj]
      rw [hloop]
      rcases ih (j + 1) with ⟨heq, hnone⟩ | ⟨i, h1, h2, h3, h4, heq⟩
      · refine Or.inl ⟨heq, fun i hi hik => ?_⟩
        rcases Nat.lt_or_eq_of_le hi with hlt | rfl
        · exact hnone i hlt (by omega)
        · exact hj
      · refine Or.inr ⟨i, by omega, by omega, h3, fun i' hi' hlt => ?_, heq⟩
        rcases Nat.lt_or_eq_of_le hi' with hlt' | rfl
        · exact h4 i' hlt' hlt
        · exact hj

/-- `kill` does what it is meant to exactly if no free entry with the pid comes before all
processes with the pid. -/
theorem hitsNamed_iff : HitsNamed n pid table ↔
    ∀ j < n, (table j).state = .unused → (table j).pid = pid →
      ∃ i < j, (table i).state ≠ .unused ∧ (table i).pid = pid := by
  rcases killLoop_spec pid table n 0 with ⟨heq, hnone⟩ | ⟨i, -, hi, hpid, hfirst, heq⟩
  · have hno : ∀ j < n, (table j).pid ≠ pid := fun j hj => hnone j (Nat.zero_le _) (by omega)
    constructor
    · exact fun _ j hj _ hpj => absurd hpj (hno j hj)
    · intro _
      refine ⟨?_, ?_, ?_⟩
      · simp only [killTable, heq, Option.isSome_none, Bool.false_eq_true, false_iff]
        rintro ⟨j, hj, -, hpj⟩
        exact hno j hj hpj
      · simp [killTable, heq]
      · simp [killTable, heq]
  · have hin : i < n := by omega
    have hbefore : ∀ j < i, (table j).pid ≠ pid := fun j => hfirst j (Nat.zero_le _)
    constructor
    · intro hhits j _ hfree hpj
      obtain ⟨-, hused, -, -⟩ := hhits.hit i (by simp [killTable, heq])
      have hij : i ≤ j := Nat.le_of_not_lt fun hlt => hbefore j hlt hpj
      rcases Nat.lt_or_eq_of_le hij with hlt | rfl
      · exact ⟨i, hlt, hused, hpid⟩
      · exact absurd hfree hused
    · intro hcond
      have hused : (table i).state ≠ .unused := by
        intro hfree
        obtain ⟨i', hlt, -, hpid'⟩ := hcond i hin hfree hpid
        exact hbefore i' hlt hpid'
      refine ⟨?_, ?_, ?_⟩
      · simp only [killTable, heq, Option.isSome_some, true_iff]
        exact ⟨i, hin, hused, hpid⟩
      · intro i' hi'
        obtain rfl : i = i' := by simpa [killTable, heq] using hi'
        exact ⟨hin, hused, hpid, by simp [killTable, heq]⟩
      · simp [killTable, heq]

end table

section alone
variable {s : State} {c p j k : ℕ} {pid : Pid}

theorem step_acquire {l : Lock} {rest : List Act} (htodo : s.todo c = acquire l :: rest)
    (hfree : s.lock l = none) :
    s.step (.run c true) = .ok ((s.setLock l (some c) c (s.noff c + 1)).setTodo c rest) := by
  simp [State.step, htodo, State.act, hfree]

theorem step_release {l : Lock} {rest : List Act} (htodo : s.todo c = release l :: rest)
    (hheld : s.lock l = some c) (hnoff : 0 < s.noff c) :
    s.step (.run c true) = .ok ((s.setLock l none c (s.noff c - 1)).setTodo c rest) := by
  have hn : s.noff c ≠ 0 := by omega
  simp [State.step, htodo, State.act, hheld, hn]

/-- One turn of `kill` while all process locks are free. -/
theorem kill_turn (hlt : j < s.nproc) (htodo : s.todo c = [killFrom pid j])
    (hfree : ∀ i, s.lock (.proc i) = none) :
    ∃ s', Runs.run State.step s (List.replicate 4 (.run c true)) = .ok s' ∧ s'.lock = s.lock ∧
      s'.nproc = s.nproc ∧
      if (s.proc j).pid = pid then
        s'.proc = Function.update s.proc j (s.proc j).kill ∧ s'.todo c = [ret (.kill true)]
      else s'.proc = s.proc ∧ s'.todo c = [killFrom pid (j + 1)] := by
  obtain ⟨s1, h1, hp1, hl1, hn1, ht1⟩ : ∃ s1, s.step (.run c true) = .ok s1 ∧ s1.proc = s.proc ∧
      s1.lock = s.lock ∧ s1.nproc = s.nproc ∧ s1.todo c = [acquire (.proc j), killAt pid j] :=
    ⟨s.setTodo c [acquire (.proc j), killAt pid j], by simp [State.step, htodo, State.act, hlt], rfl,
      rfl, rfl, by simp⟩
  obtain ⟨s2, h2, hp2, hl2, hn2, ho2, ht2⟩ : ∃ s2, s1.step (.run c true) = .ok s2 ∧
      s2.proc = s1.proc ∧ s2.lock = Function.update s1.lock (.proc j) (some c) ∧
      s2.nproc = s1.nproc ∧ 0 < s2.noff c ∧ s2.todo c = [killAt pid j] :=
    ⟨_, step_acquire ht1 (by rw [hl1, hfree]), rfl, rfl, rfl, by simp, by simp⟩
  -- the last step gives the lock back and leaves the table alone
  have hend : ∀ s3 rest, s2.step (.run c true) = .ok s3 → s3.lock = s2.lock → s3.nproc = s2.nproc →
      0 < s3.noff c → s3.todo c = release (.proc j) :: rest →
      ∃ s', Runs.run State.step s (List.replicate 4 (.run c true)) = .ok s' ∧ s'.lock = s.lock ∧
        s'.nproc = s.nproc ∧ s'.proc = s3.proc ∧ s'.todo c = rest := by
    intro s3 rest h3 hl3 hn3 ho3 ht3
    have h4 := step_release ht3 (by simp [hl3, hl2]) ho3
    refine ⟨(s3.setLock (.proc j) none c (s3.noff c - 1)).setTodo c rest, ?_, ?_,
      hn3.trans (hn2.trans hn1), rfl, by simp⟩
    · rw [List.replicate_succ, Runs.run_cons_ok h1, List.replicate_succ, Runs.run_cons_ok h2,
        List.replicate_succ, Runs.run_cons_ok h3, List.replicate_one, Runs.run_cons_ok h4,
        Runs.run_nil]
    · funext l
      by_cases hl : l = .proc j <;> simp [hl, hl3, hl2, hl1, hfree]
  by_cases hpid : (s.proc j).pid = pid
  · have hpid2 : (s2.proc j).pid = pid := by rwa [hp2, hp1]
    obtain ⟨s', hrun, hl, hn, hp, ht⟩ := hend
      ((s2.setProc j (s2.proc j).kill).setTodo c [release (.proc j), ret (.kill true)])
      [ret (.kill true)] (by simp [State.step, ht2, State.act, hpid2]) rfl rfl ho2 (by simp)
    refine ⟨s', hrun, hl, hn, ?_⟩
    rw [if_pos hpid]
    refine ⟨?_, ht⟩
    rw [hp, ← hp1, ← hp2]
    rfl
  · have hpid2 : (s2.proc j).pid ≠ pid := by rwa [hp2, hp1]
    obtain ⟨s', hrun, hl, hn, hp, ht⟩ := hend
      (s2.setTodo c [release (.proc j), killFrom pid (j + 1)])
      [killFrom pid (j + 1)] (by simp [State.step, ht2, State.act, hpid2]) rfl rfl ho2 (by simp)
    refine ⟨s', hrun, hl, hn, ?_⟩
    rw [if_neg hpid]
    refine ⟨?_, ht⟩
    rw [hp, ← hp1, ← hp2]
    rfl

/-- A CPU that runs `kill` while all process locks are free leaves the table that the loop
leaves, and returns 0 exactly if the loop hits an entry. -/
theorem kill_alone (hj : j + k = s.nproc) (htodo : s.todo c = [killFrom pid j])
    (hfree : ∀ i, s.lock (.proc i) = none) :
    ∃ m s', Runs.run State.step s (List.replicate m (.run c true)) = .ok s' ∧
      s'.proc = (killLoop pid s.proc k j).2 ∧
      s'.todo c = [ret (.kill (killLoop pid s.proc k j).1.isSome)] := by
  induction k generalizing s j with
  | zero =>
    have hstep : s.step (.run c true) = .ok (s.setTodo c [ret (.kill false)]) := by
      have hnot : ¬j < s.nproc := by omega
      simp [State.step, htodo, State.act, hnot]
    refine ⟨1, s.setTodo c [ret (.kill false)], ?_, rfl, by simp [killLoop]⟩
    rw [List.replicate_one, Runs.run_cons_ok hstep, Runs.run_nil]
  | succ k ih =>
    obtain ⟨u, hrun, hlock, hn, hturn⟩ := kill_turn (by omega : j < s.nproc) htodo hfree
    by_cases hpid : (s.proc j).pid = pid
    · rw [if_pos hpid] at hturn
      exact ⟨4, u, hrun, by simp [killLoop, hpid, hturn.1], by simp [killLoop, hpid, hturn.2]⟩
    · rw [if_neg hpid] at hturn
      obtain ⟨m, s', hrun', hproc, htodo'⟩ := ih (by omega : j + 1 + k = u.nproc) hturn.2
        (by rwa [hlock])
      rw [hturn.1] at hproc htodo'
      refine ⟨4 + m, s', ?_, by simpa [killLoop, hpid] using hproc,
        by simpa [killLoop, hpid] using htodo'⟩
      rw [List.replicate_add, Runs.run_append_ok hrun, hrun']

end alone

/-- The code is on its way through a `kill` with this pid. -/
def Seeks (pid : Pid) (code : List Act) : Prop := ∃ j, killFrom pid j ∈ code ∨ killAt pid j ∈ code

/-- Some thread is on its way through a `kill` with this pid. -/
def Seeking (s : State) (pid : Pid) : Prop :=
  (∃ c, Seeks pid (s.todo c)) ∨ ∃ t code, s.ctx t = some code ∧ Seeks pid code

/-- A step of `kill` does not hit a free entry, and `allocproc` does not give away a pid that a
`kill` in progress is looking for. -/
def KillOk (s : State) (e : Event) : Prop :=
  ∀ c ok, e = .run c ok →
    (∀ pid j rest, s.todo c = killAt pid j :: rest → (s.proc j).pid = pid →
      (s.proc j).state ≠ .unused) ∧
    ∀ p j rest, s.todo c = allocAt p j :: rest → (s.proc j).state = .unused →
      ¬Seeking s s.nextpid

/-- Which entries have had a `kill` with their own pid issued since `allocproc` gave it to them. -/
def aim (aimed : ℕ → Bool) (s : State) : Event → ℕ → Bool
  | .run c _ =>
    match s.todo c with
    | allocAt _ j :: _ => if (s.proc j).state = .unused then Function.update aimed j false else aimed
    | _ => aimed
  | .call c (.kill pid) =>
    if s.todo c = [] ∧ (s.cur c).isSome ∧ s.noff c = 0 then
      fun j => aimed j || (decide ((s.proc j).state ≠ .unused) && decide ((s.proc j).pid = pid))
    else aimed
  | _ => aimed

/-- The machine together with the record of issued kills. -/
def stepA (sa : State × (ℕ → Bool)) (e : Event) : Except Fault (State × (ℕ → Bool)) :=
  match sa.1.step e with
  | .ok s => .ok (s, aim sa.2 sa.1 e)
  | .error f => .error f

/-- Free entries are not killed; those in `fork` only if a `kill` with their pid was issued, and
nobody looks for them otherwise. -/
structure Unharmed (s : State) (aimed : ℕ → Bool) : Prop where
  free : ∀ j, (s.proc j).state = .unused → (s.proc j).killed = false
  made : ∀ j, (s.proc j).state = .used → (s.proc j).killed = true → aimed j = true
  sought : ∀ j, (s.proc j).state = .used → Seeking s (s.proc j).pid → aimed j = true

section unharmed
variable {s s' : State} {aimed : ℕ → Bool} {c : ℕ} {ok : Bool} {a : Act} {rest : List Act}
  {pid : Pid}

theorem act_seeks_todo (hact : s.act c ok a rest = .ok s') (htodo : s.todo c = a :: rest)
    (hs : Seeks pid (s'.todo c)) : Seeking s pid := by
  obtain ⟨j, hj⟩ := hs
  cases a with
  | load t =>
    simp only [State.act] at hact
    split at hact <;> cases hact
    rename_i code hcode
    exact Or.inr ⟨t, code, hcode, j, by simpa using hj⟩
  | killFrom pid' k =>
    refine Or.inl ⟨c, ?_⟩
    simp only [State.act] at hact
    split at hact <;> cases hact <;> simp at hj
    · rcases hj with hj | ⟨rfl, rfl⟩ | hj
      · exact ⟨j, Or.inl (by simp [htodo, hj])⟩
      · exact ⟨j, Or.inl (by simp [htodo])⟩
      · exact ⟨j, Or.inr (by simp [htodo, hj])⟩
    · exact ⟨j, by simp [htodo]; tauto⟩
  | killAt pid' k =>
    refine Or.inl ⟨c, ?_⟩
    simp only [State.act] at hact
    split at hact <;> cases hact <;> simp at hj
    · exact ⟨j, by simp [htodo]; tauto⟩
    · rcases hj with (⟨rfl, rfl⟩ | hj) | hj
      · exact ⟨k, Or.inr (by simp [htodo])⟩
      · exact ⟨j, Or.inl (by simp [htodo, hj])⟩
      · exact ⟨j, Or.inr (by simp [htodo, hj])⟩
  | _ =>
    refine Or.inl ⟨c, j, ?_⟩
    simp only [State.act] at hact
    (repeat' split at hact) <;> cases hact <;>
      simp [htodo, wakeup, yield, sleep, forkEnd] at hj ⊢ <;> exact hj

/-- An action starts no `kill`. -/
theorem act_seeks (hact : s.act c ok a rest = .ok s') (htodo : s.todo c = a :: rest)
    (hs : Seeking s' pid) : Seeking s pid := by
  rcases hs with ⟨d, hd⟩ | ⟨t, code, hcode, hseek⟩
  · by_cases hdc : d = c
    · subst hdc
      exact act_seeks_todo hact htodo hd
    · rw [act_todo_other hact hdc] at hd
      exact Or.inl ⟨d, hd⟩
  · cases t with
    | proc p =>
      rcases act_ctx (h := {}) hact hcode with ⟨hold, -⟩ | ⟨-, rfl, -⟩ | ⟨rfl, -⟩
      · exact Or.inr ⟨_, code, hold, hseek⟩
      · obtain ⟨j, hj⟩ := hseek
        refine Or.inl ⟨c, j, ?_⟩
        rw [htodo]
        exact hj.imp (List.mem_cons_of_mem _) (List.mem_cons_of_mem _)
      · simp [Seeks] at hseek
    | sched d =>
      rcases act_ctx_sched hact hcode with hold | ⟨j, rfl⟩
      · exact Or.inr ⟨_, code, hold, hseek⟩
      · simp [Seeks, afterProc] at hseek

/-- What an action does to an entry, as far as `kill` is concerned. -/
theorem act_entry (hact : s.act c ok a rest = .ok s') (j : ℕ) :
    s'.proc j = {} ∨ ((s'.proc j).state ≠ .unused ∧ (s'.proc j).state ≠ .used) ∨
    (∃ p, a = allocAt p j ∧ (s.proc j).state = .unused ∧
      s'.proc j = { s.proc j with pid := s.nextpid, state := .used }) ∨
    (a = killAt (s.proc j).pid j ∧ s'.proc j = (s.proc j).kill) ∨
    ((s'.proc j).state = (s.proc j).state ∧ (s'.proc j).killed = (s.proc j).killed ∧
      (s'.proc j).pid = (s.proc j).pid) := by
  obtain hsame | ⟨x, hw, hx⟩ := act_proc_at hact j
  · simp [hsame]
  rw [hx]
  cases a with
  | allocAt p k =>
    simp only [State.write] at hw
    split_ifs at hw with hfree
    cases hw
    exact Or.inr (Or.inr (Or.inl ⟨p, rfl, hfree, rfl⟩))
  | killAt pid k =>
    simp only [State.write] at hw
    split_ifs at hw with hpid
    cases hw
    exact Or.inr (Or.inr (Or.inr (Or.inl ⟨by rw [hpid], rfl⟩)))
  | wakeupAt chan k =>
    cases hw
    unfold Proc.wakeup
    split_ifs <;> simp
  | _ =>
    simp only [State.write] at hw
    repeat' split at hw
    all_goals cases hw
    all_goals simp

theorem Unharmed.act (hu : Unharmed s aimed) (htodo : s.todo c = a :: rest)
    (hact : s.act c ok a rest = .ok s') (hok : KillOk s (.run c ok)) :
    Unharmed s' (aim aimed s (.run c ok)) := by
  obtain ⟨hhit, halloc⟩ := hok c ok rfl
  -- the record of an entry is cleared only when `allocproc` takes the entry
  have hkeep : ∀ j, aimed j = true → (∀ p, a = allocAt p j → (s.proc j).state ≠ .unused) →
      aim aimed s (.run c ok) j = true := by
    intro j haim hno
    simp only [aim, htodo]
    cases a with
    | allocAt p k =>
      dsimp only
      split_ifs with hfree
      · by_cases hjk : j = k
        · subst hjk
          exact absurd hfree (hno p rfl)
        · rwa [Function.update_of_ne hjk]
      · exact haim
    | _ => exact haim
  refine ⟨fun j hfree => ?_, fun j hused hkilled => ?_, fun j hused hseek => ?_⟩
  · rcases act_entry hact j with hx | hx | ⟨p, rfl, hold, hx⟩ | ⟨rfl, hx⟩ | ⟨hstate, hkilled, -⟩
    · rw [hx]
    · exact absurd hfree hx.1
    · simp [hx] at hfree
    · rw [hx] at hfree
      have hold : (s.proc j).state = .unused := by
        unfold Proc.kill at hfree
        split_ifs at hfree
        exact hfree
      exact absurd hold (hhit _ j rest htodo rfl)
    · rw [hkilled]
      exact hu.free j (hstate.symm.trans hfree)
  · rcases act_entry hact j with hx | hx | ⟨p, rfl, hold, hx⟩ | ⟨rfl, hx⟩ | ⟨hstate, hsame, -⟩
    · simp [hx] at hused
    · exact absurd hused hx.2
    · simp [hx, hu.free j hold] at hkilled
    · rw [hx] at hused
      have hold : (s.proc j).state = .used := by
        unfold Proc.kill at hused
        split_ifs at hused
        exact hused
      refine hkeep j (hu.sought j hold (Or.inl ⟨c, j, Or.inr ?_⟩)) (by simp)
      simp [htodo]
    · have hold := hstate.symm.trans hused
      refine hkeep j (hu.made j hold (hsame.symm.trans hkilled)) fun _ _ => ?_
      simp [hold]
  · have hseek' := act_seeks hact htodo hseek
    rcases act_entry hact j with hx | hx | ⟨p, rfl, hold, hx⟩ | ⟨rfl, hx⟩ | ⟨hstate, -, hpid⟩
    · simp [hx] at hused
    · exact absurd hused hx.2
    · rw [hx] at hseek'
      exact absurd hseek' (halloc p j rest htodo hold)
    · rw [hx] at hused hseek'
      have hold : (s.proc j).state = .used := by
        unfold Proc.kill at hused
        split_ifs at hused
        exact hused
      exact hkeep j (hu.sought j hold hseek') (by simp)
    · have hold := hstate.symm.trans hused
      rw [hpid] at hseek'
      exact hkeep j (hu.sought j hold hseek') fun _ _ => by simp [hold]

variable {aimed' : ℕ → Bool}

theorem Unharmed.push (hu : Unharmed s aimed) (c : ℕ) (code : List Act)
    (haim : ∀ j, aimed j = true → aimed' j = true)
    (hcode : ∀ pid, Seeks pid code → Seeks pid (s.todo c) ∨
      ∀ j, (s.proc j).state = .used → (s.proc j).pid = pid → aimed' j = true) :
    Unharmed (s.setTodo c code) aimed' := by
  refine ⟨hu.free, fun j hused hkilled => haim j (hu.made j hused hkilled), ?_⟩
  intro j hused hseek
  rcases hseek with ⟨d, hd⟩ | hctx
  · by_cases hdc : d = c
    · subst hdc
      rw [State.setTodo_todo, Function.update_self] at hd
      rcases hcode _ hd with hold | hnew
      · exact haim j (hu.sought j hused (Or.inl ⟨d, hold⟩))
      · exact hnew j hused rfl
    · rw [State.setTodo_todo, Function.update_of_ne hdc] at hd
      exact haim j (hu.sought j hused (Or.inl ⟨d, hd⟩))
  · exact haim j (hu.sought j hused (Or.inr hctx))

theorem Unharmed.mono (hu : Unharmed s aimed)
    (haim : ∀ j, aimed j = true → aimed' j = true) : Unharmed s aimed' :=
  ⟨hu.free, fun j hused hkilled => haim j (hu.made j hused hkilled),
    fun j hused hseek => haim j (hu.sought j hused hseek)⟩

theorem Unharmed.step {e : Event} (hu : Unharmed s aimed) (hok : KillOk s e)
    (hstep : s.step e = .ok s') : Unharmed s' (aim aimed s e) := by
  cases e with
  | run c ok =>
    simp only [State.step] at hstep
    cases htodo : s.todo c with
    | nil =>
      simp only [htodo] at hstep
      cases hstep
      simpa [aim, htodo] using hu
    | cons a rest =>
      simp only [htodo] at hstep
      exact hu.act htodo hstep hok
  | call c f =>
    have haim : ∀ j, aimed j = true → aim aimed s (.call c f) j = true := by
      intro j hj
      cases f with
      | kill pid =>
        simp only [aim]
        split_ifs
        · simp [hj]
        · exact hj
      | _ => exact hj
    rcases step_cases hstep with ⟨_, _, _, _, hrun, -⟩ | rfl | ⟨d, g, p, heq, htodo, hcur, hf, rfl⟩ |
      ⟨_, _, hint, -⟩
    · cases hrun
    · exact hu.mono haim
    · cases heq
      refine hu.push c _ haim fun pid hseek => Or.inr fun j hused hpid => ?_
      cases f with
      | kill pid' =>
        obtain rfl : pid = pid' := by simpa [Seeks, Call.code, kill] using hseek
        have hnoff : s.noff c = 0 := by simpa [Call.enabled] using hf
        simp [aim, htodo, hcur, hnoff, hused, hpid]
      | _ => simp [Seeks, Call.code, yield, fork, exit, wait, wakeup, sleep] at hseek
    · cases hint
  | interrupt c i =>
    rcases step_cases hstep with ⟨_, _, _, _, hrun, -⟩ | rfl | ⟨_, _, _, hcall, -⟩ |
      ⟨d, g, heq, -, rfl⟩
    · cases hrun
    · exact hu
    · cases hcall
    · cases heq
      refine hu.push c _ (fun _ => id) fun pid hseek => Or.inl ?_
      cases i <;> simpa [Seeks, Interrupt.code, wakeup] using hseek

theorem unharmed_boot (nproc : ℕ) : Unharmed (State.boot nproc) fun _ => false := by
  have hkilled : ∀ j, ((State.boot nproc).proc j).killed = false := by
    intro j
    by_cases hj : j = 0 <;> simp [State.boot, hj]
  refine ⟨fun j _ => hkilled j, fun j _ hk => ?_, fun j hused => ?_⟩
  · simp [hkilled] at hk
  · by_cases hj : j = 0 <;> simp [State.boot, hj] at hused

theorem stepA_ok {e : Event} :
    stepA (s, aimed) e = .ok (s', aimed') ↔ s.step e = .ok s' ∧ aimed' = aim aimed s e := by
  unfold stepA
  cases s.step e <;> simp [eq_comm]

/-- The invariant along a run in which no `kill` goes astray. -/
theorem unharmed_run {nproc : ℕ} {events : List Event}
    (hok : Runs.Meets stepA (fun sa e => KillOk sa.1 e) (State.boot nproc, fun _ => false) events)
    (hrun : Runs.run stepA (State.boot nproc, fun _ => false) events = .ok (s, aimed)) :
    Good s ∧ Unharmed s aimed := by
  refine Runs.run_inv_meets (fun sa : State × (ℕ → Bool) => Good sa.1 ∧ Unharmed sa.1 sa.2) ?_
    ⟨good_boot nproc, unharmed_boot nproc⟩ hok hrun
  rintro ⟨u, au⟩ e ⟨v, av⟩ ⟨hgood, hu⟩ hk hstep
  obtain ⟨hs, rfl⟩ := stepA_ok.mp hstep
  exact ⟨hgood.step_ok hs, hu.step hk hs⟩

/-- `kill` hits the named process exactly if no free entry with the pid comes first, and a run
in which no `kill` hits a free entry, and none is looking for a pid that `allocproc` gives away,
starts no process killed unless a `kill` with its pid was issued after `allocproc`. The second
part ties the loop to the run of `kill` by a CPU that nobody disturbs. -/
theorem kill_hits_named_iff (s : State) :
    (∀ pid, HitsNamed s.nproc pid s.proc ↔
      ∀ j < s.nproc, (s.proc j).state = .unused → (s.proc j).pid = pid →
        ∃ i < j, (s.proc i).state ≠ .unused ∧ (s.proc i).pid = pid) ∧
    (∀ c p pid, s.todo c = [] → s.cur c = some p → s.noff c = 0 →
      (∀ i, s.lock (.proc i) = none) →
      ∃ m s', Runs.run State.step s (.call c (.kill pid) :: List.replicate m (.run c true)) = .ok s' ∧
        s'.proc = (killTable s.nproc pid s.proc).2 ∧
        s'.todo c = [ret (.kill (killTable s.nproc pid s.proc).1.isSome)]) ∧
    ∀ nproc events aimed,
      Runs.Meets stepA (fun sa e => KillOk sa.1 e) (State.boot nproc, fun _ => false) events →
      Runs.run stepA (State.boot nproc, fun _ => false) events = .ok (s, aimed) →
      ∀ e s' j, s.step e = .ok s' → ¬Past (s.proc j).state → Past (s'.proc j).state →
        (s'.proc j).killed = true → aimed j = true := by
  refine ⟨fun pid => hitsNamed_iff, ?_, ?_⟩
  · intro c p pid htodo hcur hnoff hfree
    have hstep : s.step (.call c (.kill pid)) = .ok (s.setTodo c [killFrom pid 0]) := by
      simp [State.step, htodo, hcur, Call.enabled, hnoff, Call.code, kill]
    have htodo' : (s.setTodo c [killFrom pid 0]).todo c = [killFrom pid 0] := by simp
    obtain ⟨m, s', hrun, hproc, hret⟩ := kill_alone (s := s.setTodo c [killFrom pid 0])
      (k := s.nproc) (Nat.zero_add _) htodo' hfree
    exact ⟨m, s', by rw [Runs.run_cons_ok hstep, hrun], hproc, hret⟩
  · intro nproc events aimed hok hrun e s' j hstep hnot hpast hkilled
    obtain ⟨⟨held, info, hI⟩, hu⟩ := unharmed_run hok hrun
    rcases step_proc hstep with hsame | ⟨c, ok, a, rest, -, htodo, hact⟩
    · exact absurd (hsame ▸ hpast) hnot
    · obtain ⟨p, rfl, -, hused, -⟩ := hI.started htodo hact hnot hpast
      refine hu.made j hused ?_
      cases hact
      simpa using hkilled

/-- The first process calls `kill` with pid 0 and then `fork`, up to the start of the child. -/
def strayRun : List Event :=
  firstRun ++ .call 0 (.kill 0) :: List.replicate 9 (.run 0 true) ++
    .call 0 .fork :: List.replicate 14 (.run 0 true)

/-- `kill(0)` returns 0 although no process has the pid 0, and the child starts its life killed
although nobody ever issued a `kill` with its pid. -/
theorem kill_zero_goes_astray :
    (Reachable (State.boot 2) ∧ ¬HitsNamed 2 0 (State.boot 2).proc ∧
      (killTable 2 0 (State.boot 2).proc).1 = some 1) ∧
    ∃ s aimed s', Runs.run stepA (State.boot 2, fun _ => false) strayRun = .ok (s, aimed) ∧
      s.step (.run 0 true) = .ok s' ∧ ¬Past (s.proc 1).state ∧ Past (s'.proc 1).state ∧
      (s'.proc 1).killed = true ∧ aimed 1 = false := by
  refine ⟨⟨⟨2, [], rfl⟩, ?_, by decide⟩, ?_⟩
  · rw [hitsNamed_iff]
    intro hcond
    obtain ⟨i, hi, -, hpid⟩ := hcond 1 (by decide) rfl rfl
    obtain rfl : i = 0 := by omega
    exact absurd hpid (by decide)
  · have hcheck : (match Runs.run stepA (State.boot 2, fun _ => false) strayRun with
        | .ok (s, aimed) => decide ((s.proc 1).state = .used ∧ (s.proc 1).killed = true ∧
            aimed 1 = false ∧ (s.todo 0).head? = some (startChild 0 1))
        | .error _ => false) = true := by
      decide +kernel
    cases hrun : Runs.run stepA (State.boot 2, fun _ => false) strayRun with
    | error f => simp [hrun] at hcheck
    | ok sa =>
      obtain ⟨s, aimed⟩ := sa
      simp only [hrun, decide_eq_true_eq] at hcheck
      obtain ⟨hused, hkilled, haimed, hhead⟩ := hcheck
      obtain ⟨rest, htodo⟩ : ∃ rest, s.todo 0 = startChild 0 1 :: rest := by
        cases htodo : s.todo 0 with
        | nil => simp [htodo] at hhead
        | cons a rest => exact ⟨rest, by simpa [htodo] using hhead⟩
      refine ⟨s, aimed, _, rfl, by simp only [State.step, htodo, State.act]; rfl, ?_, ?_, ?_, haimed⟩
      · rw [hused]
        exact not_past_used
      · simp [Past, Live]
      · simpa using hkilled

/-- Pid 1, which the first process has, is hit. -/
theorem kill_hits_named_iff_boot : HitsNamed 2 1 (State.boot 2).proc := by
  refine ((kill_hits_named_iff (State.boot 2)).1 1).mpr ?_
  intro j hj hfree hpid
  have hj' : j = 0 ∨ j = 1 := by
    change j < 2 at hj
    omega
  rcases hj' with rfl | rfl
  · cases hfree
  · exact absurd hpid (by decide)

end unharmed
end Xv6.Sched
