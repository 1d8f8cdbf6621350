import Xv6.Sched.Safety

/-! `fork`, `exit` and `wait`: who is whose parent, and that an exited process stays until its
parent has waited for it. -/
namespace Xv6.Sched
open Act

/-- `wait` of process `p` on CPU `c` frees the entry `i` of its child and is about to return the
child's pid and exit status. -/
structure Reaped (s s' : State) (c p i : ℕ) : Prop where
  cur : s.cur c = some p
  parent : (s.proc i).parent = some p
  zombie : (s.proc i).state = .zombie
  todo : ∃ addr rest, s.todo c = waitAt p addr i :: rest ∧
    s'.todo c = release (.proc i) :: release .wait ::
      ret (.wait (some ((s.proc i).pid, (s.proc i).xstate))) :: rest
  free : s'.proc i = {}

/-- `exit` of process `q` on CPU `c` gives its child `i` to `initproc`. -/
structure Reparented (s s' : State) (c q i : ℕ) : Prop where
  cur : s.cur c = some q
  parent : (s.proc i).parent = some q
  todo : ∃ rest, s.todo c = reparentFrom q i :: rest
  init : (s'.proc i).parent = some s.initproc

/-- A process that has come out of `fork` stays: its entry is not taken away, an exited process
keeps its status, and it changes its parent only if the parent exits. -/
structure Kept (s s' : State) (i : ℕ) : Prop where
  past : Past (s'.proc i).state
  pid : (s'.proc i).pid = (s.proc i).pid
  memory : (s'.proc i).memory = (s.proc i).memory
  zombie : (s.proc i).state = .zombie →
    (s'.proc i).state = .zombie ∧ (s'.proc i).xstate = (s.proc i).xstate
  parent : (s'.proc i).parent = (s.proc i).parent ∨ ∃ c q, Reparented s s' c q i

/-- Without a switch, the return of `r` is added to what CPU `c` has to do. -/
def Answers (s s' : State) (c : ℕ) (r : Result) : Prop :=
  s'.who c = s.who c ∧ (s.todo c).count (ret r) < (s'.todo c).count (ret r)

section protocol
variable {s s' : State} {held : ℕ → List Lock} {info : Thread → Local} {c i j p : ℕ} {t : Thread}
  {x : Proc} {a : Act} {rest : List Act} {ok : Bool}

theorem Kept.edit (hx : s'.proc i = x) (hpast : Past x.state) (hpid : x.pid = (s.proc i).pid)
    (hmem : x.memory = (s.proc i).memory) (hparent : x.parent = (s.proc i).parent)
    (hzombie : (s.proc i).state = .zombie →
      x.state = .zombie ∧ x.xstate = (s.proc i).xstate) : Kept s s' i := by
  subst hx
  exact ⟨hpast, hpid, hmem, hzombie, Or.inl hparent⟩

theorem Kept.refl (h : Past (s.proc i).state) (heq : s'.proc i = s.proc i) : Kept s s' i := by
  exact .edit heq h rfl rfl rfl fun hz => ⟨hz, rfl⟩

variable {r : Option (Pid × ℤ)}

section
variable (h : Inv s held info)
include h

/-- An action that is not part of a switch is taken by an active thread. -/
theorem Inv.head_active (htodo : s.todo c = a :: rest) (hload : ∀ t, a ≠ load t)
    (hleave : a ≠ leaveProc) :
    ∃ t, Active s held info c t ∧ Safe s.nproc s.initproc t (info t) (a :: rest) := by
  rcases (h.cpu c).active_or with ⟨t, ha⟩ | ⟨_, _, _, _, hcode, _⟩ | ⟨_, _, _, _, hcode, _⟩ |
    ⟨_, _, _, _, _, hcode, _⟩
  · exact ⟨t, ha, htodo ▸ ha.safe⟩
  · rw [hcode] at htodo
    exact absurd (List.cons.inj htodo).1.symm (hload _)
  · rw [hcode] at htodo
    exact absurd (List.cons.inj htodo).1.symm hleave
  · rw [hcode] at htodo
    exact absurd (List.cons.inj htodo).1.symm (hload _)

theorem Inv.write_active (htodo : s.todo c = a :: rest) (hw : s.write ok a = some (j, x)) :
    ∃ t, Active s held info c t ∧ Safe s.nproc s.initproc t (info t) (a :: rest) := by
  refine h.head_active htodo ?_ ?_
  · rintro t rfl
    cases hw
  · rintro rfl
    cases hw

/-- `wait` at an entry looks at a child of its caller. -/
theorem Inv.waitAt_child {addr : ℕ} (htodo : s.todo c = waitAt p addr j :: rest) :
    s.cur c = some p ∧ (s.proc p).state = .running ∧ (s.proc j).parent = some p ∧
      s.lock (.proc j) = some c := by
  obtain ⟨t, ha, hsafe⟩ := h.head_active htodo (by simp) (by simp)
  generalize hL : info t = L at hsafe
  cases hsafe with
  | waitAt hl haway _ hkid _ =>
    subst hL
    exact ⟨(ha.proc p rfl).1, ha.running haway, (h.kid p (by simp [hl])).1 j hkid,
      by simp [h.lock, ha.held, hl]⟩

/-- One action and the entry of a process that has come out of `fork`. -/
theorem Inv.kept_or_reaped (htodo : s.todo c = a :: rest) (hact : s.act c ok a rest = .ok s')
    (hpast : Past (s.proc i).state) : Kept s s' i ∨ ∃ p, Reaped s s' c p i := by
  obtain hsame | ⟨x, hw, hx⟩ := act_proc_at hact i
  · exact Or.inl (.refl hpast hsame)
  obtain ⟨t, ha, hsafe⟩ := h.write_active htodo hw
  generalize hL : info t = L at hsafe
  -- an entry in the making is not past `fork`
  have hchild : ∀ {q st}, (info (.proc q)).child = some (i, st) → False := by
    intro q st hc
    rw [(h.child q i st hc).2.1] at hpast
    exact not_past_used hpast
  -- a process that still runs has not exited
  have hlive : ∀ {q}, t = .proc q → (info t).away = none → (s.proc q).state ≠ .zombie := by
    rintro q rfl haway hz
    simp [ha.running haway] at hz
  cases hsafe with
  | setRunnable _ haway _ | setSleeping _ haway _ | setZombie _ _ haway _ _ _ _ =>
    cases hw
    have hz := hlive rfl (hL ▸ haway)
    exact Or.inl (.edit hx (by simp [Past, Live]) rfl rfl rfl fun h => absurd h hz)
  | clearChan _ _ _ =>
    cases hw
    exact Or.inl (.edit hx hpast rfl rfl rfl fun hz => ⟨hz, rfl⟩)
  | @wakeupAt _ _ chan _ _ _ _ _ =>
    cases hw
    unfold Proc.wakeup at hx
    split_ifs at hx with hchan
    · refine Or.inl (.edit hx (by simp [Past, Live]) rfl rfl rfl fun hz => ?_)
      simp [hchan.1] at hz
    · exact Or.inl (.refl hpast hx)
  | killAt _ _ _ =>
    simp only [State.write] at hw
    split_ifs at hw
    cases hw
    unfold Proc.kill at hx
    split_ifs at hx with hsleep
    · refine Or.inl (.edit hx (by simp [Past, Live]) rfl rfl rfl fun hz => ?_)
      simp [hsleep] at hz
    · exact Or.inl (.edit hx hpast rfl rfl rfl fun hz => ⟨hz, rfl⟩)
  | allocAt _ _ _ _ _ =>
    simp only [State.write] at hw
    split_ifs at hw with hfree
    cases hw
    rw [hfree] at hpast
    exact absurd hpast not_past_unused
  | allocMemory _ _ hc _ =>
    cases hw
    exact (hchild (hL ▸ hc)).elim
  | copyMemory _ _ hc _ =>
    simp only [State.write] at hw
    split_ifs at hw
    cases hw
    exact (hchild (hL ▸ hc)).elim
  | setParent _ _ hc _ | startChild _ _ hc _ =>
    cases hw
    exact (hchild (hL ▸ hc)).elim
  | @reparentFrom p _ _ _ _ _ _ _ _ _ =>
    simp only [State.write] at hw
    split_ifs at hw with hpar
    cases hw
    refine Or.inl ⟨by rw [hx]; exact hpast, by rw [hx], by rw [hx], fun hz => ?_, Or.inr ⟨c, p, ?_⟩⟩
    · rw [hx]
      exact ⟨hz, rfl⟩
    · exact ⟨(ha.proc p rfl).1, hpar.2, ⟨rest, htodo⟩, by rw [hx]⟩
  | @waitAt p _ addr _ _ _ _ _ _ _ =>
    simp only [State.write] at hw
    split_ifs at hw with hreap
    cases hw
    obtain ⟨hcur, -, hpar, -⟩ := h.waitAt_child htodo
    refine Or.inr ⟨p, hcur, hpar, hreap.1, ⟨addr, rest, htodo, ?_⟩, hx⟩
    simp only [State.act, hreap.1, ↓reduceIte, if_neg hreap.2] at hact
    cases hact
    simp
  | scheduleAt _ =>
    simp only [State.write] at hw
    split_ifs at hw with hrun
    cases hw
    refine Or.inl (.edit hx (by simp [Past, Live]) rfl rfl rfl fun hz => ?_)
    simp [hrun] at hz
  | _ => cases hw

omit h in
/-- The places where `wait` decides on its result. -/
theorem act_answers (htodo : s.todo c = a :: rest) (hact : s.act c ok a rest = .ok s')
    (hload : ∀ t, a ≠ load t)
    (hcount : (s.todo c).count (ret (.wait r)) < (s'.todo c).count (ret (.wait r))) :
    (∃ p addr j havekids, a = waitFrom p addr j havekids ∧ s.nproc ≤ j ∧
      (havekids = false ∨ (s.proc p).killed = true) ∧ r = none) ∨
    (∃ p addr j, a = waitAt p addr j ∧ (s.proc j).state = .zombie ∧ addr ≠ 0 ∧ ok = false ∧
      r = none) ∨
    ∃ p addr j, a = waitAt p addr j ∧ (s.proc j).state = .zombie ∧ ¬(addr ≠ 0 ∧ ok = false) ∧
      r = some ((s.proc j).pid, (s.proc j).xstate) := by
  -- a return that is added to the rest is the one asked for
  have hret : ∀ r', rest.count (ret (.wait r)) < (ret r' :: rest).count (ret (.wait r)) →
      r' = .wait r := by
    intro r' hlt
    by_contra hne
    rw [List.count_cons_of_ne (by simpa using hne)] at hlt
    exact Nat.lt_irrefl _ hlt
  cases a with
  | load t => exact absurd rfl (hload t)
  | waitFrom p addr j havekids =>
    simp only [State.act] at hact
    split_ifs at hact with hj hpar hnone <;> cases hact
    · simp [htodo] at hcount
    · simp [htodo] at hcount
    · have hr := hret (.wait none) (by simpa [htodo] using hcount)
      exact Or.inl ⟨p, addr, j, havekids, rfl, Nat.le_of_not_lt hj, hnone,
        (Result.wait.inj hr).symm⟩
    · simp [htodo, sleep] at hcount
  | waitAt p addr j =>
    simp only [State.act] at hact
    split_ifs at hact with hz hcopy <;> cases hact
    · have hr := hret (.wait none) (by simpa [htodo] using hcount)
      exact Or.inr (Or.inl ⟨p, addr, j, rfl, hz, hcopy.1, hcopy.2, (Result.wait.inj hr).symm⟩)
    · have hr := hret (.wait (some ((s.proc j).pid, (s.proc j).xstate)))
        (by simpa [htodo] using hcount)
      exact Or.inr (Or.inr ⟨p, addr, j, rfl, hz, hcopy, (Result.wait.inj hr).symm⟩)
    · simp [htodo] at hcount
  | ret r' =>
    cases hact
    rw [htodo] at hcount
    simp only [State.setTodo_todo, Function.update_self, List.count_cons] at hcount
    omega
  | _ =>
    exfalso
    simp only [State.act] at hact
    repeat' split at hact
    all_goals cases hact
    all_goals simp [htodo, wakeup, yield, forkEnd] at hcount

/-- The entry of a child that `wait` looks at is on no CPU if the child has exited. -/
theorem Inv.zombie_off {addr : ℕ} (htodo : s.todo c = waitAt p addr i :: rest)
    (hz : (s.proc i).state = .zombie) (d : ℕ) : s.cur d ≠ some i := by
  obtain ⟨hcur, hrun, -, hlock⟩ := h.waitAt_child htodo
  intro hd
  have hdc : d ≠ c := by
    rintro rfl
    obtain rfl : p = i := Option.some.inj (hcur.symm.trans hd)
    simp [hrun] at hz
  have hrun' := (h.cpu d).running hd fun hl => hdc (h.holder hl ((h.lock _ c).mp hlock))
  simp [hrun'] at hz

/-- An entry that is being freed is on no CPU. -/
theorem Inv.freed_off (htodo : s.todo c = a :: rest) (hact : s.act c ok a rest = .ok s')
    (hfree : (s'.proc i).state = .unused) (d : ℕ) : s.cur d ≠ some i := by
  intro hd
  rcases h.kept_or_reaped htodo hact ((h.cpu d).past hd) with hkept | ⟨p, hreap⟩
  · exact hkept.past.ne_unused hfree
  · obtain ⟨addr, rest', htodo', -⟩ := hreap.todo
    exact h.zombie_off htodo' hreap.zombie d hd

/-- A process comes out of `fork` with its forker as parent. -/
theorem Inv.started (htodo : s.todo c = a :: rest) (hact : s.act c ok a rest = .ok s')
    (hnot : ¬Past (s.proc i).state) (hpast : Past (s'.proc i).state) :
    ∃ p, a = .startChild p i ∧ s.cur c = some p ∧ (s.proc i).state = .used ∧
      (s'.proc i).parent = some p := by
  obtain hsame | ⟨x, hw, hx⟩ := act_proc_at hact i
  · exact absurd (hsame ▸ hpast) hnot
  rw [hx] at hpast ⊢
  obtain ⟨t, ha, hsafe⟩ := h.write_active htodo hw
  generalize hL : info t = L at hsafe
  have hself : t ≠ .proc i := by
    rintro rfl
    exact hnot (ha.proc i rfl).2.2.past
  cases hsafe with
  | setRunnable _ _ _ | setSleeping _ _ _ | setZombie _ _ _ _ _ _ _ | clearChan _ _ _ =>
    cases hw
    exact absurd rfl hself
  | wakeupAt _ _ _ =>
    cases hw
    unfold Proc.wakeup at hpast
    split_ifs at hpast with hchan
    · exact absurd (by simp [hchan.1, Past, Live]) hnot
    · exact absurd hpast hnot
  | killAt _ _ _ =>
    simp only [State.write] at hw
    split_ifs at hw
    cases hw
    unfold Proc.kill at hpast
    split_ifs at hpast with hsleep
    · exact absurd (by simp [hsleep, Past, Live]) hnot
    · exact absurd hpast hnot
  | allocAt _ _ _ _ _ =>
    simp only [State.write] at hw
    split_ifs at hw
    cases hw
    exact absurd hpast not_past_used
  | allocMemory _ _ _ _ =>
    cases hw
    split_ifs at hpast
    · exact absurd hpast hnot
    · exact absurd hpast not_past_unused
  | copyMemory _ _ _ _ =>
    simp only [State.write] at hw
    split_ifs at hw
    cases hw
    exact absurd hpast not_past_unused
  | setParent _ _ _ _ =>
    cases hw
    exact absurd hpast hnot
  | @startChild p _ _ _ _ _ hc _ =>
    cases hw
    subst hL
    obtain ⟨-, hused, hpar, -⟩ := h.child p i _ hc
    exact ⟨p, rfl, (ha.proc p rfl).1, hused, by simpa using hpar⟩
  | reparentFrom _ _ _ _ _ _ =>
    simp only [State.write] at hw
    split_ifs at hw
    cases hw
    exact absurd hpast hnot
  | waitAt _ _ _ _ _ =>
    simp only [State.write] at hw
    split_ifs at hw
    cases hw
    exact absurd hpast not_past_unused
  | scheduleAt _ =>
    simp only [State.write] at hw
    split_ifs at hw with hrun
    cases hw
    exact absurd (by simp [hrun, Past, Live]) hnot
  | _ => cases hw

omit h in
/-- An event changes the process table only by an action. -/
theorem step_proc {e : Event} (h : s.step e = .ok s') :
    s'.proc = s.proc ∨ ∃ c ok a rest, e = .run c ok ∧ s.todo c = a :: rest ∧
      s.act c ok a rest = .ok s' := by
  rcases step_cases h with hact | rfl | ⟨d, f, p, -, -, -, -, rfl⟩ | ⟨d, i, -, -, rfl⟩
  · exact Or.inr hact
  · exact Or.inl rfl
  · exact Or.inl rfl
  · exact Or.inl rfl

omit h in
theorem Good.kept_or_reaped (h : Good s) {e : Event} (hstep : s.step e = .ok s')
    (hpast : Past (s.proc i).state) : Kept s s' i ∨ ∃ c p, Reaped s s' c p i := by
  obtain ⟨held, info, h⟩ := h
  rcases step_proc hstep with hsame | ⟨c, ok, a, rest, -, htodo, hact⟩
  · exact Or.inl (.refl hpast (by rw [hsame]))
  · rcases h.kept_or_reaped htodo hact hpast with hkept | ⟨p, hreap⟩
    · exact Or.inl hkept
    · exact Or.inr ⟨c, p, hreap⟩

omit h in
/-- An exited process stays as it is until some `wait` of its parent reaps it. -/
theorem Good.zombie_run (h : Good s) {events : List Event}
    (hrun : Runs.run State.step s events = .ok s') (hz : (s.proc i).state = .zombie) :
    ((s'.proc i).state = .zombie ∧ (s'.proc i).pid = (s.proc i).pid ∧
      (s'.proc i).xstate = (s.proc i).xstate ∧ (s'.proc i).memory = (s.proc i).memory) ∨
    ∃ pre e post u u' c p, events = pre ++ e :: post ∧ Runs.run State.step s pre = .ok u ∧
      u.step e = .ok u' ∧ Reaped u u' c p i ∧ (u.proc i).pid = (s.proc i).pid ∧
      (u.proc i).xstate = (s.proc i).xstate := by
  induction events generalizing s with
  | nil =>
    obtain rfl : s = s' := by simpa using hrun
    exact Or.inl ⟨hz, rfl, rfl, rfl⟩
  | cons e events ih =>
    rcases h.step e with ⟨u, hu, hgood⟩ | herr
    swap
    · rw [Runs.run_cons_error herr] at hrun
      cases hrun
    rcases h.kept_or_reaped hu (Or.inr hz) with hkept | ⟨c, p, hreap⟩
    swap
    · exact Or.inr ⟨[], e, events, s, u, c, p, rfl, rfl, hu, hreap, rfl, rfl⟩
    rw [Runs.run_cons_ok hu] at hrun
    obtain ⟨hzu, hxu⟩ := hkept.zombie hz
    rcases ih hgood hrun hzu with ⟨h1, h2, h3, h4⟩ | ⟨pre, e', post, v, v', c, p, rfl, h2, h3, h4, h5, h6⟩
    · exact Or.inl ⟨h1, h2.trans hkept.pid, h3.trans hxu, h4.trans hkept.memory⟩
    · exact Or.inr ⟨e :: pre, e', post, v, v', c, p, rfl, by rw [Runs.run_cons_ok hu, h2], h3, h4,
        h5.trans hkept.pid, h6.trans hxu⟩

omit h in
theorem CpuOk.load_switches (h : CpuOk s held info c) (htodo : s.todo c = load t :: rest) :
    s.who c ≠ t := by
  cases h with
  | sched _ _ _ _ hsafe =>
    rw [htodo] at hsafe
    cases hsafe
  | proc p _ _ _ _ _ hsafe =>
    rw [htodo] at hsafe
    cases hsafe
  | toSched p hwho _ _ _ hcode =>
    obtain ⟨rfl, -⟩ : t = .sched c ∧ rest = [] := by simpa [htodo] using hcode
    simp [hwho]
  | back p _ _ _ hcode => simp [htodo, afterProc] at hcode
  | toProc p hwho _ _ _ hcode =>
    obtain ⟨rfl, -⟩ : t = .proc p ∧ rest = [] := by simpa [htodo] using hcode
    simp [hwho]

theorem Inv.no_children (hw : .wait ∈ (info (.proc p)).held)
    (hk : s.nproc ≤ (info (.proc p)).kidless) (k : ℕ) : (s.proc k).parent ≠ some p := by
  by_cases hkn : k < s.nproc
  · exact (h.kid p hw).2 k (Nat.lt_of_lt_of_le hkn hk)
  · rw [h.family.bound k (Nat.le_of_not_lt hkn)]
    simp

/-- `wait` returns -1 if there is no child, the caller has been killed or the status cannot be
copied out, and otherwise what it has reaped. -/
theorem Inv.answers (htodo : s.todo c = a :: rest) (hact : s.act c ok a rest = .ok s')
    (hans : Answers s s' c (.wait r)) :
    ∃ p, s.cur c = some p ∧
      ((r = none ∧ ((∀ k, (s.proc k).parent ≠ some p) ∨ (s.proc p).killed = true)) ∨
      (∃ addr j, a = .waitAt p addr j ∧ (s.proc j).parent = some p ∧
        (s.proc j).state = .zombie ∧ addr ≠ 0 ∧ ok = false ∧ r = none) ∨
      ∃ j, Reaped s s' c p j ∧ r = some ((s.proc j).pid, (s.proc j).xstate)) := by
  obtain ⟨hwho, hcount⟩ := hans
  have hload : ∀ t, a ≠ load t := by
    rintro t rfl
    refine (h.cpu c).load_switches htodo (hwho.symm.trans ?_)
    simp only [State.act] at hact
    split at hact <;> cases hact
    exact Function.update_self _ _ _
  rcases act_answers htodo hact hload hcount with ⟨p, addr, j, havekids, rfl, hj, hnone, hr⟩ |
    ⟨p, addr, j, rfl, hz, haddr, hok, hr⟩ | ⟨p, addr, j, rfl, hz, hcopy, hr⟩
  · obtain ⟨t, ha, hsafe⟩ := h.head_active htodo (by simp) (by simp)
    generalize hL : info t = L at hsafe
    cases hsafe with
    | waitFrom hl haway hchild hkids _ =>
      subst hL
      refine ⟨p, (ha.proc p rfl).1, Or.inl ⟨hr, ?_⟩⟩
      rcases hnone with hnone | hkilled
      · exact Or.inl (h.no_children (by simp [hl]) (Nat.le_trans hj (hkids hnone)))
      · exact Or.inr hkilled
  · obtain ⟨hcur, -, hpar, -⟩ := h.waitAt_child htodo
    exact ⟨p, hcur, Or.inr (Or.inl ⟨addr, j, rfl, hpar, hz, haddr, hok, hr⟩)⟩
  · obtain ⟨hcur, -, hpar, -⟩ := h.waitAt_child htodo
    have hfree : s'.proc j = {} := by
      rw [act_proc hact]
      simp [State.write, hz, hcopy]
    rcases h.kept_or_reaped htodo hact (Or.inr hz) with hkept | ⟨q, hreap⟩
    · exact absurd (by rw [hfree]) hkept.past.ne_unused
    · obtain rfl : q = p := Option.some.inj (hreap.cur.symm.trans hcur)
      exact ⟨q, hcur, Or.inr (Or.inr ⟨j, hreap, hr⟩)⟩

end

theorem Good.answers (h : Good s) {e : Event} (hstep : s.step e = .ok s')
    (hans : Answers s s' c (.wait r)) :
    ∃ p, s.cur c = some p ∧
      ((r = none ∧ ((∀ k, (s.proc k).parent ≠ some p) ∨ (s.proc p).killed = true)) ∨
      (∃ addr j rest, s.todo c = waitAt p addr j :: rest ∧ (s.proc j).parent = some p ∧
        (s.proc j).state = .zombie ∧ addr ≠ 0 ∧ e = .run c false ∧ r = none) ∨
      ∃ j, Reaped s s' c p j ∧ r = some ((s.proc j).pid, (s.proc j).xstate)) := by
  obtain ⟨held, info, h⟩ := h
  have hmore := hans.2
  rcases step_cases hstep with ⟨d, ok, a, rest, rfl, htodo, hact⟩ | rfl |
    ⟨d, f, p, -, htodo, -, -, rfl⟩ | ⟨d, i, -, -, rfl⟩
  · by_cases hcd : c = d
    swap
    · rw [act_todo_other hact hcd] at hmore
      exact absurd hmore (Nat.lt_irrefl _)
    subst hcd
    obtain ⟨p, hcur, hcases⟩ := h.answers htodo hact hans
    refine ⟨p, hcur, ?_⟩
    rcases hcases with hnone | ⟨addr, j, rfl, hpar, hz, haddr, rfl, hr⟩ | hreap
    · exact Or.inl hnone
    · exact Or.inr (Or.inl ⟨addr, j, rest, htodo, hpar, hz, haddr, rfl, hr⟩)
    · exact Or.inr (Or.inr hreap)
  · exact absurd hmore (Nat.lt_irrefl _)
  · -- the code of a call returns nothing by itself
    by_cases hcd : c = d
    · subst hcd
      cases f <;> simp [Call.code, yield, fork, exit, wait, kill, wakeup, sleep] at hmore
    · simp [hcd] at hmore
  · by_cases hcd : c = d
    · subst hcd
      cases i <;> simp [Interrupt.code, wakeup] at hmore
    · simp [hcd] at hmore

/-- The protocol of `fork`, `exit` and `wait` in every interleaving. A process past `fork` has a
parent that may still wait, at first its forker. It stays, and keeps its status once it has
exited, until a `wait` of its parent reaps it and returns its pid and status; it changes its
parent only if the parent exits, to `initproc`. `wait` returns -1 only without children, when
killed or when `copyout` fails, which leaves the child as it is. An entry is freed only while no
CPU is on its stack. -/
theorem exit_wait_protocol (s : State) (h : Reachable s) :
    (∀ i, Past (s.proc i).state → i ≠ s.initproc → ∃ q, (s.proc i).parent = some q ∧
      (s.proc q).state ≠ .unused ∧ (s.proc q).state ≠ .zombie) ∧
    (∀ e s' i, s.step e = .ok s' → ¬Past (s.proc i).state → Past (s'.proc i).state →
      ∃ c p rest, s.todo c = startChild p i :: rest ∧ s.cur c = some p ∧
        (s'.proc i).parent = some p) ∧
    (∀ e s' i, s.step e = .ok s' → Past (s.proc i).state →
      Kept s s' i ∨ ∃ c p, Reaped s s' c p i) ∧
    (∀ events s' i, Runs.run State.step s events = .ok s' → (s.proc i).state = .zombie →
      ((s'.proc i).state = .zombie ∧ (s'.proc i).pid = (s.proc i).pid ∧
        (s'.proc i).xstate = (s.proc i).xstate ∧ (s'.proc i).memory = (s.proc i).memory) ∨
      ∃ pre e post u u' c p, events = pre ++ e :: post ∧ Runs.run State.step s pre = .ok u ∧
        u.step e = .ok u' ∧ Reaped u u' c p i ∧ (u.proc i).pid = (s.proc i).pid ∧
        (u.proc i).xstate = (s.proc i).xstate) ∧
    (∀ e s' c r, s.step e = .ok s' → Answers s s' c (.wait r) → ∃ p, s.cur c = some p ∧
      ((r = none ∧ ((∀ k, (s.proc k).parent ≠ some p) ∨ (s.proc p).killed = true)) ∨
      (∃ addr j rest, s.todo c = waitAt p addr j :: rest ∧ (s.proc j).parent = some p ∧
        (s.proc j).state = .zombie ∧ addr ≠ 0 ∧ e = .run c false ∧ r = none) ∨
      ∃ j, Reaped s s' c p j ∧ r = some ((s.proc j).pid, (s.proc j).xstate))) ∧
    (∀ c p addr j rest s', s.todo c = waitAt p addr j :: rest → (s.proc j).state = .zombie →
      addr ≠ 0 → s.step (.run c false) = .ok s' →
      s'.proc = s.proc ∧ Answers s s' c (.wait none)) ∧
    (∀ e s' i, s.step e = .ok s' → (s'.proc i).state = .unused → (s.proc i).state ≠ .unused →
      ∀ d, s.who d ≠ .proc i ∧ s.cur d ≠ some i) := by
  have hgood := h.good
  obtain ⟨held, info, hinv⟩ := h.good
  refine ⟨?_, ?_, fun e s' i hs => hgood.kept_or_reaped hs, fun ev s' i hr => hgood.zombie_run hr,
    fun e s' c r hs => hgood.answers hs, ?_, ?_⟩
  · intro i hi hne
    obtain ⟨q, hq⟩ := Option.ne_none_iff_exists'.mp (hinv.family.child i hi hne)
    refine ⟨q, hq, ?_⟩
    rcases hinv.family.parent i q hq with hs | hs | hs <;> simp [hs]
  · intro e s' i hstep hnot hpast
    rcases step_proc hstep with hsame | ⟨c, ok, a, rest, -, htodo, hact⟩
    · exact absurd (hsame ▸ hpast) hnot
    · obtain ⟨p, rfl, hcur, -, hpar⟩ := hinv.started htodo hact hnot hpast
      exact ⟨c, p, rest, htodo, hcur, hpar⟩
  · intro c p addr j rest s' htodo hz haddr hstep
    have hact : s' = s.setTodo c (release (.proc j) :: release .wait :: ret (.wait none) :: rest) := by
      simpa [State.step, htodo, State.act, hz, haddr] using hstep.symm
    subst hact
    refine ⟨rfl, rfl, ?_⟩
    simp [htodo]
  · intro e s' i hstep hfree hold d
    rcases step_proc hstep with hsame | ⟨c, ok, a, rest, -, htodo, hact⟩
    · exact absurd (hsame ▸ hfree) hold
    · have hoff := hinv.freed_off htodo hact hfree d
      exact ⟨fun hwho => hoff ((hinv.cpu d).cur_of_who hwho), hoff⟩

/-- The first process forks, the child exits with status 7 on the other CPU, and the first
process waits until it looks at the child. -/
def exitRun : List Event :=
  firstRun ++ .call 0 .fork :: List.replicate 17 (.run 0 true) ++ List.replicate 10 (.run 1 true) ++
    .call 1 (.exit 7) :: List.replicate 18 (.run 1 true) ++
    .call 0 (.wait 0) :: List.replicate 4 (.run 0 true)

theorem exit_wait_protocol_exitRun : ∃ s s', Runs.run State.step (State.boot 2) exitRun = .ok s ∧
    s.step (.run 0 true) = .ok s' ∧ (s.proc 1).xstate = 7 ∧ ∃ c p, Reaped s s' c p 1 := by
  obtain ⟨s, hrun, hz, hx, htodo⟩ : ∃ s, Runs.run State.step (State.boot 2) exitRun = .ok s ∧
      (s.proc 1).state = .zombie ∧ (s.proc 1).xstate = 7 ∧ s.todo 0 = [waitAt 0 0 1] :=
    ⟨_, rfl, rfl, rfl, rfl⟩
  obtain ⟨s', hstep, hfree⟩ : ∃ s', s.step (.run 0 true) = .ok s' ∧ s'.proc 1 = {} :=
    ⟨_, by simp only [State.step, htodo, State.act, hz]; rfl, by simp⟩
  refine ⟨s, s', hrun, hstep, hx, ?_⟩
  rcases (exit_wait_protocol s ⟨2, exitRun, hrun⟩).2.2.1 _ _ 1 hstep (Or.inr hz) with hkept | hreap
  · exact absurd (by rw [hfree]) hkept.past.ne_unused
  · exact hreap

end protocol
end Xv6.Sched
