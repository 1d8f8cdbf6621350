import Xv6.Sched.Steps

/-! No interleaving breaks the invariant, so the panics of `sched` are unreachable. -/
namespace Xv6.Sched
open Act

section run
variable {s s' : State} {held : ℕ → List Lock} {info : Thread → Local} {c : ℕ} {t : Thread}
  {a : Act} {rest : List Act} {ok : Bool}

/-- An active thread takes its next action. -/
theorem Inv.act (h : Inv s held info) (ha : Active s held info c t) (htodo : s.todo c = a :: rest) :
    Fine (s.act c ok a rest) := by
  have hsafe := ha.safe
  rw [htodo] at hsafe
  generalize hL : info t = L at hsafe
  cases hsafe with
  | acquire hl hr => exact h.act_acquire ha (hL ▸ hl) (hL ▸ hr)
  | release hl haway hr => exact h.act_release ha (hL ▸ hl) (hL ▸ haway) (hL ▸ hr)
  | setRunnable hl haway hr =>
    subst hL
    exact Good.fine (h.leaveRunning ha haway hl (Or.inl rfl) rfl (by simp) hr)
  | setSleeping hl haway hr =>
    subst hL
    exact Good.fine (h.leaveRunning ha haway hl (Or.inr (Or.inl rfl)) rfl (by simp) hr)
  | @setZombie p _ _ _ hl hw haway hchild hkid hinit hr =>
    subst hL
    refine Good.fine (h.leaveRunning ha haway hl (Or.inr (Or.inr rfl)) rfl (fun _ => ⟨hinit, ?_⟩) hr)
    intro k hk
    have hkn : k < s.nproc := by
      by_contra hge
      rw [h.family.bound k (Nat.le_of_not_lt hge)] at hk
      cases hk
    exact (h.kid p hw).2 k (Nat.lt_of_lt_of_le hkn hkid) hk
  | sched hl haway _ hr =>
    subst hL
    exact h.act_sched ha hl haway hr
  | clearChan hl _ hr =>
    subst hL
    exact Good.fine ⟨held, info, h.touch ha (.same rfl rfl rfl) rfl id (fun _ => rfl) hr⟩
  | @wakeupFrom _ _ chan j _ hl haway hr =>
    subst hL
    simp only [State.act]
    split_ifs with hj hcur
    · exact Good.fine ⟨held, info, h.goto ha (.wakeupFrom hl haway hr)⟩
    · refine Good.fine ⟨held, info, h.goto ha (.acquire (hl j) (.wakeupAt ?_ ?_ (.release ?_ ?_ ?_)))⟩
      · simp [Local.take]
      · rintro rfl
        exact hcur (ha.proc j rfl).1
      · simp [Local.take]
      · exact fun hne => absurd haway hne
      · rw [Local.drop_take _ (by simp)]
        exact .wakeupFrom hl haway hr
    · exact Good.fine ⟨held, info, h.goto ha hr⟩
  | wakeupAt hl ht hr =>
    subst hL
    exact Good.fine (h.wakeupAt ha hl ht hr)
  | @killFrom _ _ pid j _ hl haway hr =>
    subst hL
    simp only [State.act]
    split_ifs with hj
    · refine Good.fine ⟨held, info, h.goto ha (.acquire (by simp [hl]) (.killAt ?_ haway ?_))⟩
      · simp [Local.take, hl]
      · simpa [Local.take, ← hl] using hr
    · exact Good.fine ⟨held, info, h.goto ha (.ret hr)⟩
  | @killAt _ _ pid j _ hl haway hr =>
    subst hL
    have hdrop : (info t).drop (.proc j) = { info t with held := [] } := by simp [Local.drop, hl]
    simp only [State.act]
    split_ifs with hpid
    · refine Good.fine (h.killAt ha (by simp [hl]) haway (.release (by simp [hl]) ?_ (.ret ?_)))
      · exact fun hne => absurd haway hne
      · rwa [hdrop]
    · refine Good.fine ⟨held, info, h.goto ha (.release (by simp [hl]) ?_ ?_)⟩
      · exact fun hne => absurd haway hne
      · rw [hdrop]
        exact .killFrom rfl haway hr
  | @allocFrom p _ j _ hl haway hchild hr =>
    subst hL
    simp only [State.act]
    split_ifs with hj
    · refine Good.fine (h.forget ha hl haway hchild (.acquire (by simp) (.allocAt hj ?_ ?_ ?_ hr)))
      · simp [Local.take]
      · simp [Local.take]
      · simp [Local.take]
    · exact Good.fine (h.forget ha hl haway hchild (.ret hr))
  | @allocAt p _ j _ hj hl haway hchild hr =>
    subst hL
    simp only [State.act]
    split_ifs with hfree
    · obtain ⟨held', info', h'⟩ := h.allocAt ha hj hl haway hfree hr
      exact Good.fine ⟨held', info', h'.nextpid _⟩
    · refine Good.fine (h.forget ha hl haway hchild (.release (by simp) (by simp) ?_))
      exact .allocFrom (by simp [Local.drop]) rfl rfl hr
  | @allocMemory p _ j _ hl haway hchild hr =>
    subst hL
    simp only [State.act]
    split_ifs with hok
    · exact Good.fine (h.allocMemory ha hl haway hchild hr)
    · exact Good.fine (h.abandon ha hl haway hchild (by simp) hr)
  | @copyMemory p _ j _ hl haway hchild hr =>
    subst hL
    simp only [State.act]
    split_ifs with hok
    · exact Good.fine ⟨held, info, h.goto ha (safe_forkEnd hl haway hchild hr)⟩
    · exact Good.fine (h.abandon ha hl haway hchild (by simp) hr)
  | setParent hl haway hchild hr =>
    subst hL
    exact Good.fine (h.setParent ha hl haway hchild hr)
  | startChild hl haway hchild hr =>
    subst hL
    exact Good.fine (h.startChild ha hl haway hchild hr)
  | reparentFrom hl haway hchild hinit hj hr =>
    subst hL
    exact h.act_reparentFrom ha hl haway hchild hinit hj hr
  | wakeupParent hl haway hr =>
    subst hL
    exact Good.fine ⟨held, info, h.goto ha (.wakeupFrom hl haway hr)⟩
  | waitFrom hl haway hchild hkids hr =>
    subst hL
    exact h.act_waitFrom ha hl haway hchild hkids hr
  | waitAt hl haway hchild hkid hr =>
    subst hL
    exact h.act_waitAt ha hl haway hchild hkid hr
  | @scheduleFrom d _ j _ hl =>
    subst hL
    simp only [State.act]
    split_ifs with hj
    · refine Good.fine ⟨held, info, h.goto ha (.acquire (by simp [hl]) (.scheduleAt ?_))⟩
      simp [Local.take, hl]
    · exact Good.fine ⟨held, info, h.goto ha (.scheduleFrom hl)⟩
  | @scheduleAt d _ j _ hl =>
    subst hL
    obtain ⟨rfl, -, haway⟩ := ha.sched d rfl
    simp only [State.act]
    split_ifs with hrun
    · exact Good.fine ⟨held, info, h.pick ha hl hrun⟩
    · refine Good.fine ⟨held, info, h.goto ha (.release (by simp [hl]) (by simp) ?_)⟩
      exact .scheduleFrom (by simp [Local.drop, hl])
  | @forkret p _ _ hl haway hr =>
    subst hL
    simp only [State.act, (ha.proc p rfl).1]
    refine Good.fine ⟨held, info, h.goto ha (.release (by simp [hl]) ?_ ?_)⟩
    · exact fun hne => absurd haway hne
    · simpa [Local.drop, hl] using hr
  | timer hl haway hr =>
    subst hL
    cases t with
    | sched d =>
      simp only [State.act, (ha.sched d rfl).2.1]
      exact Good.fine ⟨held, info, h.goto ha hr⟩
    | proc p =>
      simp only [State.act, (ha.proc p rfl).1, ha.running haway, ↓reduceIte]
      exact Good.fine ⟨held, info, h.goto ha (safe_yield hl haway hr)⟩
  | ret hr =>
    subst hL
    exact Good.fine ⟨held, info, h.goto ha hr⟩

theorem CpuOk.active_or (h : CpuOk s held info c) :
    (∃ t, Active s held info c t) ∨
    (∃ p, s.cur c = some p ∧ held c = [.proc p] ∧ s.ctx (.sched c) = some (afterProc p) ∧
      s.todo c = [load (.sched c)] ∧ Left (s.proc p).state ∧ Off s info p) ∨
    (∃ p, s.who c = .sched c ∧ s.cur c = some p ∧ held c = [.proc p] ∧ s.todo c = afterProc p ∧
      Left (s.proc p).state ∧ Off s info p) ∨
    ∃ p code, s.cur c = some p ∧ held c = [.proc p] ∧ s.ctx (.sched c) = some (afterProc p) ∧
      s.todo c = [load (.proc p)] ∧ (s.proc p).state = .running ∧
      (info (.proc p)).held = [.proc p] ∧ (info (.proc p)).away = none ∧
      s.ctx (.proc p) = some code ∧
      Safe s.nproc s.initproc (.proc p) (info (.proc p)) code := by
  cases h with
  | sched hwho hcur hheld haway hsafe =>
    refine Or.inl ⟨.sched c, hwho, hheld, ?_, by simp, hsafe⟩
    intro d hd
    obtain rfl := Thread.sched.inj hd
    exact ⟨rfl, hcur, haway⟩
  | proc p hwho hcur hheld hctx hstate hsafe =>
    refine Or.inl ⟨.proc p, hwho, hheld, by simp, ?_, hsafe⟩
    intro q hq
    obtain rfl := Thread.proc.inj hq
    exact ⟨hcur, hctx, hstate⟩
  | toSched p _ hcur hheld hctx htodo hleft hoff =>
    exact Or.inr (Or.inl ⟨p, hcur, hheld, hctx, htodo, hleft, hoff⟩)
  | back p hwho hcur hheld htodo hleft hoff =>
    exact Or.inr (Or.inr (Or.inl ⟨p, hwho, hcur, hheld, htodo, hleft, hoff⟩))
  | toProc p _ hcur hheld hctx htodo hstate hlocal haway hready =>
    obtain ⟨code, hcode, hsafe⟩ := hready
    exact Or.inr (Or.inr (Or.inr ⟨p, code, hcur, hheld, hctx, htodo, hstate, hlocal, haway, hcode,
      hsafe⟩))

/-- A CPU takes its next action. -/
theorem Inv.run (h : Inv s held info) (htodo : s.todo c = a :: rest) :
    Fine (s.act c ok a rest) := by
  rcases (h.cpu c).active_or with ⟨t, ha⟩ | ⟨p, hcur, hheld, hctx, hcode, hleft, hoff⟩ |
    ⟨p, hwho, hcur, hheld, hcode, hleft, hoff⟩ |
    ⟨p, code, hcur, hheld, hctx, hcode, hstate, hlocal, haway, hsaved, hsafe⟩
  · exact h.act ha htodo
  · obtain ⟨rfl, rfl⟩ : load (.sched c) = a ∧ [] = rest := by simpa [hcode] using htodo
    simp only [State.act, hctx]
    exact Good.fine ⟨held, info, h.loadSched hcur hheld hleft hoff⟩
  · obtain ⟨rfl, rfl⟩ : leaveProc = a ∧ [.release (.proc p), scheduleFrom (p + 1)] = rest := by
      simpa [hcode, afterProc] using htodo
    exact Good.fine ⟨held, _, h.leave hwho hcur hheld hleft hoff⟩
  · obtain ⟨rfl, rfl⟩ : load (.proc p) = a ∧ [] = rest := by simpa [hcode] using htodo
    simp only [State.act, hsaved]
    exact Good.fine ⟨held, info, h.loadProc hcur hheld hctx hstate hlocal haway hsafe⟩

/-- A CPU with nothing to do is in user space or other kernel code of its process. -/
theorem Inv.idle (h : Inv s held info) {p : ℕ} (htodo : s.todo c = []) (hcur : s.cur c = some p) :
    Active s held info c (.proc p) ∧ (∀ l ∈ (info (.proc p)).held, ∃ k, l = .other k) ∧
      (info (.proc p)).away = none ∧ (info (.proc p)).child = none := by
  rcases (h.cpu c).active_or with ⟨t, ha⟩ | ⟨_, _, _, _, hcode, _⟩ | ⟨_, _, _, _, hcode, _⟩ |
    ⟨_, _, _, _, _, hcode, _⟩
  · have hsafe := ha.safe
    rw [htodo] at hsafe
    generalize hL : info t = L at hsafe
    cases hsafe with
    | @idle q _ hheld haway hchild =>
      obtain rfl : q = p := Option.some.inj ((ha.proc q rfl).1.symm.trans hcur)
      subst hL
      exact ⟨ha, hheld, haway, hchild⟩
  · simp [htodo] at hcode
  · simp [htodo, afterProc] at hcode
  · simp [htodo] at hcode

/-- A process starts a call. -/
theorem Inv.call (h : Inv s held info) {p : ℕ} {f : Call} (htodo : s.todo c = [])
    (hcur : s.cur c = some p) (hf : f.enabled s c = true)
    (hexit : (∃ status, f = .exit status) → p ≠ s.initproc) : Good (s.setTodo c (f.code p)) := by
  obtain ⟨ha, hother, haway, hchild⟩ := h.idle htodo hcur
  have hidle : ∀ {L}, L.held = [] → L.away = none → L.child = none →
      Safe s.nproc s.initproc (.proc p) L [] :=
    fun hl => .idle (by simp [hl])
  have hnone : s.noff c = 0 → (info (.proc p)).held = [] := by
    intro h0
    rwa [h.noff, ha.held, List.length_eq_zero_iff] at h0
  have hmem : ∀ {k}, s.lock (.other k) = some c ↔ .other k ∈ (info (.proc p)).held := by
    intro k
    rw [h.lock, ha.held]
  cases f with
  | yield =>
    have hl := hnone (by simpa [Call.enabled] using hf)
    have hcode := safe_yield hl haway (hidle hl haway hchild)
    rw [List.append_nil] at hcode
    exact ⟨held, info, h.goto ha hcode⟩
  | fork =>
    have hl := hnone (by simpa [Call.enabled] using hf)
    exact ⟨held, info, h.goto ha (.allocFrom hl haway hchild (hidle rfl rfl rfl))⟩
  | exit status =>
    have hl := hnone (by simpa [Call.enabled] using hf)
    exact ⟨held, info, h.goto ha (safe_exit hl haway hchild (hexit ⟨status, rfl⟩))⟩
  | wait addr =>
    have hl := hnone (by simpa [Call.enabled] using hf)
    have hcode := safe_wait addr hl haway hchild (hidle rfl rfl rfl)
    rw [List.append_nil] at hcode
    exact ⟨held, info, h.goto ha hcode⟩
  | kill pid =>
    have hl := hnone (by simpa [Call.enabled] using hf)
    exact ⟨held, info, h.goto ha (.killFrom hl haway (hidle hl haway hchild))⟩
  | wakeup chan =>
    refine ⟨held, info, h.goto ha (.wakeupFrom ?_ haway (.idle hother haway hchild))⟩
    intro i hi
    obtain ⟨k, hk⟩ := hother _ hi
    cases hk
  | sleep chan k =>
    obtain ⟨h1, h2⟩ : s.noff c = 1 ∧ s.lock (.other k) = some c := by
      simpa [Call.enabled] using hf
    rw [h.noff, ha.held, List.length_eq_one_iff] at h1
    obtain ⟨l, hl⟩ := h1
    rw [hmem, hl, List.mem_singleton] at h2
    subst h2
    have hcode : Safe s.nproc s.initproc (.proc p) (info (.proc p)) (sleep p chan (.other k) ++ []) :=
      safe_sleep hl (by simp) haway (.idle (by simp [Local.take]) haway hchild)
    rw [List.append_nil] at hcode
    exact ⟨held, info, h.goto ha hcode⟩
  | acquire k =>
    have hk : Lock.other k ∉ (info (.proc p)).held := by
      rw [← hmem]
      simpa [Call.enabled] using hf
    refine ⟨held, info, h.goto ha (.acquire hk (.idle ?_ haway hchild))⟩
    intro l hl
    rcases List.mem_cons.mp hl with rfl | hl
    · exact ⟨k, rfl⟩
    · exact hother l hl
  | release k =>
    have hk : Lock.other k ∈ (info (.proc p)).held := by
      rw [← hmem]
      simpa [Call.enabled] using hf
    refine ⟨held, info, h.goto ha (.release hk (by simp) (.idle ?_ haway hchild))⟩
    exact fun l hl => hother l (List.mem_of_mem_erase hl)

/-- An interrupt arrives at a CPU that holds no lock. -/
theorem Inv.interrupt (h : Inv s held info) {i : Interrupt} (hnoff : s.noff c = 0) :
    Good (s.setTodo c (i.code ++ s.todo c)) := by
  have hnone : held c = [] := by rwa [h.noff, List.length_eq_zero_iff] at hnoff
  rcases (h.cpu c).active_or with ⟨t, ha⟩ | ⟨_, _, hheld, _⟩ | ⟨_, _, _, hheld, _⟩ |
    ⟨_, _, _, hheld, _⟩
  · have hl : (info t).held = [] := ha.held.symm.trans hnone
    have haway : (info t).away = none := by
      cases t with
      | sched d => exact (ha.sched d rfl).2.2
      | proc p =>
        have hstate := (ha.proc p rfl).2.2
        cases hst : (info (.proc p)).away with
        | none => rfl
        | some st =>
          rw [StateOk, hst] at hstate
          simp [hl] at hstate
    refine ⟨held, info, h.goto ha ?_⟩
    cases i with
    | device chan k =>
      refine .acquire (by simp [hl]) (.wakeupFrom ?_ haway (.release ?_ ?_ ?_))
      · simp [Local.NoProc, Local.take, hl]
      · simp [Local.take]
      · exact fun hne => absurd haway hne
      · rw [Local.drop_take _ (by simp)]
        exact ha.safe
    | timer => exact .timer hl haway ha.safe
  · simp [hnone] at hheld
  · simp [hnone] at hheld
  · simp [hnone] at hheld

/-- The kernel stops only where the source says so: `initproc` must not exit. -/
theorem Good.step (h : Good s) (e : Event) :
    Fine (s.step e) ∨ s.step e = .error (.panic .initExiting) := by
  obtain ⟨held, info, h⟩ := h
  cases e with
  | run c ok =>
    simp only [State.step]
    cases htodo : s.todo c with
    | nil => exact Or.inl (Good.fine ⟨held, info, h⟩)
    | cons a rest => exact Or.inl (h.run htodo)
  | call c f =>
    simp only [State.step]
    split
    · rename_i p htodo hcur
      by_cases hf : f.enabled s c = true
      · rw [if_pos hf]
        split
        · by_cases hp : p = s.initproc
          · rw [if_pos hp]
            exact Or.inr rfl
          · rw [if_neg hp]
            exact Or.inl (Good.fine (h.call htodo hcur hf fun _ => hp))
        · rename_i hne
          exact Or.inl (Good.fine (h.call htodo hcur hf fun hexit => hexit.elim fun st hst => absurd hst (hne st)))
      · rw [if_neg hf]
        exact Or.inl (Good.fine ⟨held, info, h⟩)
    · exact Or.inl (Good.fine ⟨held, info, h⟩)
  | interrupt c i =>
    simp only [State.step]
    split_ifs with hnoff
    · exact Or.inl (Good.fine (h.interrupt hnoff))
    · exact Or.inl (Good.fine ⟨held, info, h⟩)

theorem Good.step_ok (h : Good s) {e : Event} (hstep : s.step e = .ok s') : Good s' := by
  rcases h.step e with ⟨u, hu, hgood⟩ | herr
  · rw [hu] at hstep
    obtain rfl : u = s' := Except.ok.inj hstep
    exact hgood
  · rw [herr] at hstep
    cases hstep

/-- Before the first switch, the lock of a process waits for it to start. -/
def bootInfo : Thread → Local
  | .proc i => { held := [.proc i] }
  | .sched _ => {}

theorem good_boot (nproc : ℕ) : Good (State.boot nproc) := by
  refine ⟨fun _ => [], bootInfo, ?_, ?_, ?_, ?_, ?_, ?_, ?_, ?_, ?_, ?_⟩
  · simp [State.boot]
  · simp [State.boot]
  · simp
  · exact fun c => .sched rfl rfl rfl rfl (.scheduleFrom rfl)
  · simp [State.boot]
  · intro j _
    refine ⟨?_, rfl, rfl, ?_⟩
    · by_cases hj : j = 0 <;> simp [State.boot, hj]
    · by_cases hj : j = 0
      · subst hj
        intro _
        exact ⟨[forkret], by simp [State.boot], .forkret rfl rfl (.idle (by simp) rfl rfl)⟩
      · simp [State.boot, hj]
  · exact fun p => childOk_none rfl
  · simp [bootInfo]
  · exact fun p => kidOk_none rfl rfl
  · have hproc : ∀ i, i ≠ 0 → (State.boot nproc).proc i = {} := fun i hi => by
      simp [State.boot, hi]
    have hzero : (State.boot nproc).proc 0 = { state := .runnable, pid := 1, memory := true } := by
      simp [State.boot]
    have hparent : ∀ i, ((State.boot nproc).proc i).parent = none := by
      intro i
      by_cases hi : i = 0
      · rw [hi, hzero]
      · rw [hproc i hi]
    refine ⟨?_, ?_, ?_, ?_, fun i _ => hparent i⟩
    · simp [hparent]
    · intro i hi hne
      rw [hproc i hne] at hi
      exact absurd hi not_past_unused
    · change Live ((State.boot nproc).proc 0).state
      rw [hzero]
      exact Or.inl rfl
    · intro i hi
      refine ⟨hparent i, ?_⟩
      by_cases h0 : i = 0
      · subst h0
        rw [hzero] at hi
        cases hi
      · rw [hproc i h0]

theorem Reachable.good (h : Reachable s) : Good s := by
  obtain ⟨nproc, events, hrun⟩ := h
  exact Runs.run_inv Good (fun _ _ _ hgood hstep => hgood.step_ok hstep) (good_boot nproc) hrun

theorem Good.single_stack (h : Good s) {d j : ℕ} (hc : s.who c = .proc j) (hd : s.who d = .proc j) :
    c = d := by
  obtain ⟨held, info, h⟩ := h
  exact h.single c d j ((h.cpu c).cur_of_who hc) ((h.cpu d).cur_of_who hd)

/-- Outside the window of a switch a process runs exactly if it is on one CPU. -/
theorem Good.running_iff (h : Good s) {j : ℕ}
    (hwindow : ∀ c, s.cur c = some j → s.lock (.proc j) ≠ some c) :
    (s.proc j).state = .running ↔ ∃! c, s.cur c = some j := by
  obtain ⟨held, info, h⟩ := h
  constructor
  · intro hrun
    by_contra hnone
    refine (h.off j fun c hc => hnone ⟨c, hc, fun d hd => h.single d c j hd hc⟩).state hrun
  · rintro ⟨c, hc, -⟩
    refine (h.cpu c).running hc fun hl => hwindow c hc ?_
    rwa [h.lock]

/-- A CPU that is about to resume a process holds its lock, and no CPU is on its stack. -/
theorem Good.resume (h : Good s) {j : ℕ} (htodo : s.todo c = load (.proc j) :: rest) :
    (∃ code, s.ctx (.proc j) = some code) ∧ s.cur c = some j ∧ s.lock (.proc j) = some c ∧
      ∀ d, s.who d ≠ .proc j := by
  obtain ⟨held, info, h⟩ := h
  cases h.cpu c with
  | sched _ _ _ _ hsafe =>
    rw [htodo] at hsafe
    cases hsafe
  | proc p _ _ _ _ _ hsafe =>
    rw [htodo] at hsafe
    cases hsafe
  | toSched p _ _ _ _ hcode => simp [htodo] at hcode
  | back p _ _ _ hcode => simp [htodo, afterProc] at hcode
  | toProc p hwho hcur hheld _ hcode _ _ _ hready =>
    obtain ⟨rfl, -⟩ : j = p ∧ rest = [] := by simpa [htodo] using hcode
    obtain ⟨code, hctx, -⟩ := hready
    refine ⟨⟨code, hctx⟩, hcur, by simp [h.lock, hheld], fun d hd => ?_⟩
    obtain rfl := h.single d c j ((h.cpu d).cur_of_who hd) hcur
    simp [hwho] at hd

/-- A CPU that is about to leave a process holds its lock. -/
theorem Good.suspend (h : Good s) {d : ℕ} (htodo : s.todo c = load (.sched d) :: rest) :
    ∃ j code, d = c ∧ s.ctx (.sched c) = some code ∧ s.cur c = some j ∧
      s.lock (.proc j) = some c := by
  obtain ⟨held, info, h⟩ := h
  cases h.cpu c with
  | sched _ _ _ _ hsafe =>
    rw [htodo] at hsafe
    cases hsafe
  | proc p _ _ _ _ _ hsafe =>
    rw [htodo] at hsafe
    cases hsafe
  | toSched p _ hcur hheld hctx hcode =>
    obtain ⟨rfl, -⟩ : d = c ∧ rest = [] := by simpa [htodo] using hcode
    exact ⟨p, _, rfl, hctx, hcur, by simp [h.lock, hheld]⟩
  | back p _ _ _ hcode => simp [htodo, afterProc] at hcode
  | toProc p _ _ _ _ hcode => simp [htodo] at hcode

/-- A CPU gets a new process only if it is ready. -/
theorem step_picks {e : Event} (h : s.step e = .ok s') {j : ℕ} (hnew : s'.cur c = some j)
    (hold : s.cur c ≠ some j) : (s.proc j).state = .runnable := by
  rcases step_cases h with ⟨d, ok, a, rest, -, -, hact⟩ | rfl | ⟨d, f, p, -, -, -, -, rfl⟩ |
    ⟨d, i, -, -, rfl⟩
  · rcases act_cur hact with hcur | hcur | ⟨k, hrun, hcur⟩
    · exact absurd (hcur ▸ hnew) hold
    · rw [hcur] at hnew
      by_cases hcd : c = d
      · subst hcd
        simp at hnew
      · rw [Function.update_of_ne hcd] at hnew
        exact absurd hnew hold
    · rw [hcur] at hnew
      by_cases hcd : c = d
      · subst hcd
        obtain rfl : k = j := by simpa using hnew
        exact hrun
      · rw [Function.update_of_ne hcd] at hnew
        exact absurd hnew hold
  · exact absurd hnew hold
  · exact absurd hnew hold
  · exact absurd hnew hold

/-- Scheduling is safe in every interleaving: outside the window of a switch a process is
`RUNNING` exactly if one CPU has it as `c->proc`, and no two CPUs share a process or its stack;
only a `RUNNABLE` process becomes `c->proc`; a context that is about to be loaded has been saved,
under the lock of the process, and no CPU is on its stack; and of all panics only that of
`initproc` calling `exit` can happen. -/
theorem scheduling_safe (s : State) (h : Reachable s) :
    (∀ j, (∀ c, s.cur c = some j → s.lock (.proc j) ≠ some c) →
      ((s.proc j).state = .running ↔ ∃! c, s.cur c = some j)) ∧
    (∀ c d j, s.cur c = some j → s.cur d = some j → c = d) ∧
    (∀ c d j, s.who c = .proc j → s.who d = .proc j → c = d) ∧
    (∀ e s' c j, s.step e = .ok s' → s'.cur c = some j → s.cur c ≠ some j →
      (s.proc j).state = .runnable) ∧
    (∀ c j rest, s.todo c = load (.proc j) :: rest → (∃ code, s.ctx (.proc j) = some code) ∧
      s.cur c = some j ∧ s.lock (.proc j) = some c ∧ ∀ d, s.who d ≠ .proc j) ∧
    (∀ c d rest, s.todo c = load (.sched d) :: rest → ∃ j code, d = c ∧
      s.ctx (.sched c) = some code ∧ s.cur c = some j ∧ s.lock (.proc j) = some c) ∧
    ∀ e f, s.step e = .error f → f = .panic .initExiting := by
  have hgood := h.good
  refine ⟨fun j => hgood.running_iff, ?_, fun c d j => hgood.single_stack, ?_, ?_, ?_, ?_⟩
  · obtain ⟨held, info, hinv⟩ := hgood
    exact hinv.single
  · exact fun e s' c j hstep hnew hold => step_picks hstep hnew hold
  · exact fun c j rest => hgood.resume
  · exact fun c d rest => hgood.suspend
  · intro e f hf
    rcases hgood.step e with ⟨u, hu, -⟩ | herr
    · rw [hu] at hf
      cases hf
    · rw [herr] at hf
      exact (Except.error.inj hf).symm

/-- CPU 0 picks the first process and runs it up to the end of `forkret`. -/
def firstRun : List Event := List.replicate 6 (.run 0 true)

theorem scheduling_safe_firstRun : ∃ s, Runs.run State.step (State.boot 2) firstRun = .ok s ∧
    (s.proc 0).state = .running ∧ ∃! c, s.cur c = some 0 := by
  refine ⟨_, rfl, rfl, ((scheduling_safe _ ⟨2, firstRun, rfl⟩).1 0 ?_).mp rfl⟩
  intro c _ hlock
  cases hlock

end run
end Xv6.Sched
