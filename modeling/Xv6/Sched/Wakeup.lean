import Xv6.Sched.ExitWait

/-! `sleep` and `wakeup`: a wakeup that begins after a process has released its lock inside
`sleep` finds that process. A history records when each process released its lock inside its
last `sleep`, when the wakeups in progress began, and which wakeups are over. -/
namespace Xv6.Sched
open Act

/-- `marks` are the times at which the wakeups in progress on a CPU began, the innermost first;
`saved` are those of a process that has been switched out. `done` lists the wakeups that are
over with the time they began. -/
structure History where
  time : ℕ := 0
  released : ℕ → ℕ := fun _ => 0
  marks : ℕ → List ℕ := fun _ => []
  saved : ℕ → List ℕ := fun _ => []
  done : List (Chan × ℕ) := []

/-- How an action of CPU `c` extends the history. -/
def History.act (h : History) (s : State) (c : ℕ) (ok : Bool) (a : Act) (rest : List Act) : History :=
  match a with
  | .release _ =>
    match rest with
    | setSleeping p _ :: _ => { h with released := Function.update h.released p h.time }
    | _ => h
  | .wakeupFrom chan j =>
    let begun := if j = 0 then h.time :: h.marks c else h.marks c
    if j < s.nproc then { h with marks := Function.update h.marks c begun }
    else
      { h with
        marks := Function.update h.marks c begun.tail
        done := begun.head?.toList.map (fun m => (chan, m)) ++ h.done }
  | .sched =>
    match s.cur c with
    | some p =>
      { h with
        saved := Function.update h.saved p (h.marks c)
        marks := Function.update h.marks c [] }
    | none => h
  | .load (.proc p) => { h with marks := Function.update h.marks c (h.saved p) }
  | .load (.sched _) => { h with marks := Function.update h.marks c [] }
  | .allocMemory _ j => if ok then { h with saved := Function.update h.saved j [] } else h
  | _ => h

def History.step (h : History) (s : State) (e : Event) : History :=
  let h' := match e with
    | .run c ok =>
      match s.todo c with
      | a :: rest => h.act s c ok a rest
      | [] => h
    | _ => h
  { h' with time := h.time + 1 }

/-- The machine together with its history. -/
def stepH (sh : State × History) (e : Event) : Except Fault (State × History) :=
  match sh.1.step e with
  | .ok s => .ok (s, sh.2.step sh.1 e)
  | .error f => .error f

/-- The process is inside `sleep` on the channel and has released its lock. -/
def Asleep (s : State) (p : ℕ) (chan : Chan) : Prop :=
  ((s.proc p).state = .sleeping ∧ (s.proc p).chan = chan) ∨
    ∃ c rest, s.todo c = setSleeping p chan :: rest

/-- The wakeups in progress in a piece of code: the processes that one has passed and that sleep
on its channel released their locks after it began. `seen` is the entry it is about to look at. -/
def Tracked (s : State) (h : History) : Option (Chan × ℕ) → List Act → List ℕ → Prop
  | _, [], ms => ms = []
  | _, wakeupAt chan k :: rest, ms => Tracked s h (some (chan, k)) rest ms
  | seen, wakeupFrom chan (j + 1) :: rest, ms => ∃ m ms', ms = m :: ms' ∧ m ≤ h.time ∧
      (∀ p ≤ j, Asleep s p chan → m ≤ h.released p ∨ seen = some (chan, p)) ∧
      Tracked s h none rest ms'
  | seen, _ :: rest, ms => Tracked s h seen rest ms

/-- The code does not begin in the middle of `sleep`. -/
def NoSleep : List Act → Prop
  | setSleeping _ _ :: _ => False
  | _ => True

/-- A process sets itself to sleep right after a release; nothing follows the scheduler. -/
def Orderly : List Act → Prop
  | [] => True
  | a :: rest => Orderly rest ∧ match a with
    | .release _ => True
    | .scheduleFrom _ => rest = []
    | .scheduleAt _ => rest = []
    | _ => NoSleep rest

/-- The invariant of the history. -/
structure Watch (s : State) (h : History) : Prop where
  todo : ∀ c, Tracked s h none (s.todo c) (h.marks c)
  ctx : ∀ p code, s.ctx (.proc p) = some code → Tracked s h none code (h.saved p)
  order : ∀ c, Orderly (s.todo c)
  save : ∀ t code, s.ctx t = some code → Orderly code ∧ NoSleep code
  sched : ∀ c code, s.ctx (.sched c) = some code → ∃ j, code = afterProc j
  done : ∀ chan m, (chan, m) ∈ h.done → m ≤ h.time ∧
    ∀ p < s.nproc, Asleep s p chan → m ≤ h.released p

section wakeup
variable {s s' : State} {h h' : History} {c : ℕ} {ok : Bool} {a : Act} {rest code : List Act}
  {ms : List ℕ} {seen : Option (Chan × ℕ)}

/-- Nobody has fallen asleep unnoticed. -/
def Calm (s s' : State) (h h' : History) : Prop :=
  h.time ≤ h'.time ∧ ∀ p chan, Asleep s' p chan →
    (Asleep s p chan ∧ h'.released p = h.released p) ∨ h.time ≤ h'.released p

theorem Tracked.mono (hc : Calm s s' h h') (ht : Tracked s h seen code ms) :
    Tracked s' h' seen code ms := by
  induction code generalizing seen ms with
  | nil => exact ht
  | cons a rest ih =>
    cases a with
    | wakeupAt chan k => exact ih ht
    | wakeupFrom chan j =>
      cases j with
      | zero => exact ih ht
      | succ j =>
        obtain ⟨m, ms', rfl, hm, hpassed, hrest⟩ := ht
        refine ⟨m, ms', rfl, Nat.le_trans hm hc.1, fun p hp hsleep => ?_, ih hrest⟩
        rcases hc.2 p chan hsleep with ⟨hold, hsame⟩ | hnew
        · rw [hsame]
          exact hpassed p hp hold
        · exact Or.inl (Nat.le_trans hm hnew)
    | _ => exact ih ht

variable {chan : Chan}

/-- The entry a wakeup has just looked at does not sleep on its channel. -/
theorem Tracked.looked {k : ℕ} (hk : ¬Asleep s k chan)
    (ht : Tracked s h (some (chan, k)) code ms) : Tracked s h none code ms := by
  induction code generalizing ms with
  | nil => exact ht
  | cons a rest ih =>
    cases a with
    | wakeupAt chan k => exact ht
    | wakeupFrom chan j =>
      cases j with
      | zero => exact ih ht
      | succ j =>
        obtain ⟨m, ms', rfl, hm, hpassed, hrest⟩ := ht
        refine ⟨m, ms', rfl, hm, fun p hp hsleep => ?_, hrest⟩
        rcases hpassed p hp hsleep with hle | heq
        · exact Or.inl hle
        · cases heq
          exact absurd hsleep hk
    | _ => exact ih ht

theorem act_marks_other {d : ℕ} (hd : d ≠ c) : (h.act s c ok a rest).marks d = h.marks d := by
  unfold History.act
  repeat' split
  all_goals first | rfl | exact Function.update_of_ne hd _ _

/-- Only wakeups and switches change the marks. -/
theorem act_marks_plain (ha : (∀ chan j, a ≠ wakeupFrom chan j) ∧ (∀ t, a ≠ load t) ∧ a ≠ sched) :
    (h.act s c ok a rest).marks = h.marks := by
  obtain ⟨h1, h2, h3⟩ := ha
  unfold History.act
  cases a <;> simp at h1 h2 h3 <;> dsimp only <;> repeat' split
  all_goals rfl

/-- The time of a release is that of the last one inside `sleep`. -/
theorem act_released (p : ℕ) : (h.act s c ok a rest).released p = h.released p ∨
    (h.act s c ok a rest).released p = h.time := by
  unfold History.act
  cases a with
  | release l =>
    dsimp only
    split
    · rename_i q _ _
      by_cases hp : p = q
      · exact Or.inr (by simp [hp])
      · exact Or.inl (Function.update_of_ne hp _ _)
    · exact Or.inl rfl
  | load t => cases t <;> exact Or.inl rfl
  | _ =>
    left
    dsimp only
    repeat' split
    all_goals rfl

section
variable (hact : s.act c ok a rest = .ok s')
include hact

/-- The contexts an action saves. -/
theorem act_ctx {p : ℕ} (hcode : s'.ctx (.proc p) = some code) :
    (s.ctx (.proc p) = some code ∧ (h.act s c ok a rest).saved p = h.saved p) ∨
    (a = sched ∧ code = rest ∧ (h.act s c ok a rest).saved p = h.marks c) ∨
    (code = [forkret] ∧ (h.act s c ok a rest).saved p = []) := by
  cases a with
  | sched =>
    simp only [State.act] at hact
    split at hact
    · cases hact
    · rename_i q hcur
      repeat' split at hact
      all_goals cases hact
      by_cases hpq : p = q
      · subst hpq
        refine Or.inr (Or.inl ⟨rfl, ?_, ?_⟩)
        · simpa using hcode.symm
        · simp [History.act, hcur]
      · refine Or.inl ⟨by simpa [hpq] using hcode, ?_⟩
        simp [History.act, hcur, hpq]
  | load t =>
    simp only [State.act] at hact
    split at hact
    · cases hact
    · cases hact
      refine Or.inl ⟨?_, by cases t <;> rfl⟩
      by_cases ht : Thread.proc p = t
      · simp [ht] at hcode
      · simpa [ht] using hcode
  | allocMemory q j =>
    simp only [State.act] at hact
    split at hact
    · rename_i hok
      cases hact
      by_cases hpj : p = j
      · subst hpj
        refine Or.inr (Or.inr ⟨by simpa using hcode.symm, ?_⟩)
        simp [History.act, hok]
      · refine Or.inl ⟨by simpa [hpj] using hcode, ?_⟩
        simp [History.act, hok, hpj]
    · rename_i hok
      cases hact
      exact Or.inl ⟨hcode, by simp [History.act, hok]⟩
  | _ =>
    refine Or.inl ⟨?_, ?_⟩
    · simp only [State.act] at hact
      (repeat' split at hact) <;> cases hact <;> simpa using hcode
    · unfold History.act
      dsimp only
      repeat' split
      all_goals rfl

theorem act_ctx_sched {d : ℕ} (hcode : s'.ctx (.sched d) = some code) :
    s.ctx (.sched d) = some code ∨ ∃ j, code = afterProc j := by
  cases a with
  | load t =>
    simp only [State.act] at hact
    split at hact <;> cases hact
    by_cases ht : Thread.sched d = t
    · simp [ht] at hcode
    · exact Or.inl (by simpa [ht] using hcode)
  | scheduleAt j =>
    simp only [State.act] at hact
    split at hact <;> cases hact
    · by_cases hd : d = c
      · subst hd
        exact Or.inr ⟨j, by simpa using hcode.symm⟩
      · exact Or.inl (by simpa [hd] using hcode)
    · exact Or.inl hcode
  | _ =>
    left
    simp only [State.act] at hact
    (repeat' split at hact) <;> cases hact <;> simpa using hcode

/-- The code of a CPU stays orderly. -/
theorem act_orderly (htodo : s.todo c = a :: rest) (ho : Orderly (a :: rest))
    (hctx : ∀ t code, s.ctx t = some code → Orderly code) : Orderly (s'.todo c) := by
  obtain ⟨hrest, hhead⟩ := ho
  cases a with
  | load t =>
    simp only [State.act] at hact
    split at hact <;> cases hact
    rename_i code hcode
    simpa using hctx t code hcode
  | acquire l =>
    simp only [State.act] at hact
    split at hact
    · cases hact
      simpa using hrest
    · split at hact <;> cases hact
      rw [htodo]
      exact ⟨hrest, hhead⟩
  | _ =>
    simp only [State.act] at hact
    (repeat' split at hact) <;> cases hact <;>
      simp [Orderly, NoSleep, wakeup, yield, sleep, forkEnd] at hrest hhead ⊢ <;> simp_all

/-- A process gets to the middle of `sleep` by the release inside it. -/
theorem act_head {p : ℕ} {rest' : List Act} (htodo : s.todo c = a :: rest)
    (ho : Orderly (a :: rest)) (hctx : ∀ t code, s.ctx t = some code → NoSleep code)
    (hnew : s'.todo c = setSleeping p chan :: rest') :
    ∃ l, a = release l ∧ rest = setSleeping p chan :: rest' := by
  obtain ⟨-, hhead⟩ := ho
  cases a with
  | load t =>
    simp only [State.act] at hact
    split at hact <;> cases hact
    rename_i code hcode
    obtain rfl : code = setSleeping p chan :: rest' := by simpa using hnew
    exact (hctx t _ hcode).elim
  | acquire l =>
    simp only [State.act] at hact
    split at hact
    · cases hact
      obtain rfl : rest = setSleeping p chan :: rest' := by simpa using hnew
      exact hhead.elim
    · split at hact <;> cases hact
      simp [htodo] at hnew
  | release l =>
    simp only [State.act] at hact
    (repeat' split at hact) <;> cases hact
    exact ⟨l, rfl, by simpa using hnew⟩
  | _ =>
    exfalso
    simp only [State.act] at hact
    (repeat' split at hact) <;> cases hact <;>
      simp [wakeup, yield, sleep, forkEnd] at hnew <;> simp [hnew, NoSleep] at hhead

end

variable {held : ℕ → List Lock} {info : Thread → Local}

/-- A process sleeps because it did before or because it has just set itself to. -/
theorem Inv.sleeping_step {p : ℕ} (hI : Inv s held info) (htodo : s.todo c = a :: rest)
    (hact : s.act c ok a rest = .ok s') (hsleep : (s'.proc p).state = .sleeping) :
    ((s.proc p).state = .sleeping ∧ (s'.proc p).chan = (s.proc p).chan) ∨
      a = setSleeping p (s'.proc p).chan := by
  obtain hsame | ⟨x, hw, hx⟩ := act_proc_at hact p
  · rw [hsame] at hsleep ⊢
    exact Or.inl ⟨hsleep, rfl⟩
  rw [hx] at hsleep ⊢
  cases a with
  | setSleeping q chan =>
    cases hw
    exact Or.inr rfl
  | clearChan q =>
    cases hw
    obtain ⟨t, ha, hsafe⟩ := hI.head_active htodo (by simp) (by simp)
    generalize hL : info t = L at hsafe
    cases hsafe with
    | clearChan _ haway _ =>
      subst hL
      simp [ha.running haway] at hsleep
  | wakeupAt chan k =>
    cases hw
    unfold Proc.wakeup at hsleep ⊢
    split_ifs at hsleep ⊢
    exact Or.inl ⟨hsleep, rfl⟩
  | killAt pid k =>
    simp only [State.write] at hw
    split_ifs at hw
    cases hw
    unfold Proc.kill at hsleep ⊢
    split_ifs at hsleep
    exact absurd hsleep ‹_›
  | _ =>
    simp only [State.write] at hw
    repeat' split at hw
    all_goals cases hw
    all_goals first | exact Or.inl ⟨hsleep, rfl⟩ | simp at hsleep

/-- Nobody falls asleep but by the release inside `sleep`. -/
theorem Inv.calm (hI : Inv s held info) (hw : Watch s h) (htodo : s.todo c = a :: rest)
    (hact : s.act c ok a rest = .ok s') {n : ℕ}
    (hn : h.time ≤ n) : Calm s s' h { h.act s c ok a rest with time := n } := by
  refine ⟨hn, fun p chan hsleep => ?_⟩
  have horder := hw.order c
  rw [htodo] at horder
  -- the record of `p` is that of before or that of a release at this very moment
  have hkeep : Asleep s p chan → (Asleep s p chan ∧ (h.act s c ok a rest).released p = h.released p) ∨
      h.time ≤ (h.act s c ok a rest).released p := by
    intro hold
    rcases act_released (h := h) (s := s) (c := c) p with hsame | hnow
    · exact Or.inl ⟨hold, hsame⟩
    · exact Or.inr (Nat.le_of_eq hnow.symm)
  rcases hsleep with ⟨hstate, hchan⟩ | ⟨d, rest', hhead⟩
  · rcases hI.sleeping_step htodo hact hstate with ⟨hold, hsame⟩ | rfl
    · exact hkeep (Or.inl ⟨hold, hsame.symm.trans hchan⟩)
    · exact hkeep (Or.inr ⟨c, rest, by rw [htodo, hchan]⟩)
  · by_cases hd : d = c
    · subst hd
      obtain ⟨l, rfl, rfl⟩ := act_head hact htodo horder (fun t code hc => (hw.save t code hc).2) hhead
      exact Or.inr (by simp [History.act])
    · rw [act_todo_other hact hd] at hhead
      exact hkeep (Or.inr ⟨d, rest', hhead⟩)

/-- The process that a wakeup has just looked at does not sleep on its channel. -/
theorem Inv.looked_at {k : ℕ} (hI : Inv s held info) (hw : Watch s h)
    (htodo : s.todo c = .wakeupAt chan k :: rest)
    (hact : s.act c ok (.wakeupAt chan k) rest = .ok s') : ¬Asleep s' k chan := by
  have hheld : ∀ {d t L code}, Active s held info d t → info t = L →
      Safe s.nproc s.initproc t L (.wakeupAt chan k :: code) → .proc k ∈ held d := by
    intro d t L code ha hL hsafe
    cases hsafe with
    | wakeupAt hl _ _ =>
      subst hL
      rwa [ha.held]
  obtain ⟨t, ha, hsafe⟩ := hI.head_active htodo (by simp) (by simp)
  have hlock := hheld ha rfl hsafe
  rintro (⟨hstate, hchan⟩ | ⟨d, rest', hhead⟩)
  · have hx : s'.proc k = (s.proc k).wakeup chan := by
      rw [act_proc hact]
      simp [State.write]
    rw [hx] at hstate hchan
    unfold Proc.wakeup at hstate hchan
    split_ifs at hstate hchan with hboth
    exact hboth ⟨hstate, hchan⟩
  · by_cases hd : d = c
    · subst hd
      have horder := hw.order d
      rw [htodo] at horder
      obtain ⟨l, hl, -⟩ := act_head hact htodo horder (fun t code hc => (hw.save t code hc).2) hhead
      cases hl
    · rw [act_todo_other hact hd] at hhead
      obtain ⟨t', ha', hsafe'⟩ := hI.head_active hhead (by simp) (by simp)
      generalize hL : info t' = L at hsafe'
      cases hsafe' with
      | setSleeping hl _ _ =>
        subst hL
        exact hd (hI.holder (ha'.held ▸ hl) hlock)

/-- A process that runs a wakeup is not asleep itself. -/
theorem Inv.self_awake {chan chan' : Chan} {j k : ℕ} (hI : Inv s held info)
    (htodo : s.todo c = wakeupFrom chan j :: rest) (hcur : s.cur c = some k) :
    ¬Asleep s k chan' := by
  obtain ⟨t, ha, hsafe⟩ := hI.head_active htodo (by simp) (by simp)
  generalize hL : info t = L at hsafe
  cases hsafe with
  | wakeupFrom _ haway _ =>
    subst hL
    cases t with
    | sched d => simp [(ha.sched d rfl).2.1] at hcur
    | proc q =>
      obtain rfl : q = k := Option.some.inj ((ha.proc q rfl).1.symm.trans hcur)
      rintro (⟨hstate, -⟩ | ⟨d, rest', hhead⟩)
      · simp [ha.running haway] at hstate
      · obtain ⟨t', ha', hsafe'⟩ := hI.head_active hhead (by simp) (by simp)
        cases hsafe' with
        | setSleeping _ _ _ =>
          obtain rfl := hI.single d c q (ha'.proc q rfl).1 hcur
          simp [htodo] at hhead

/-- The wakeup that is at its turn `j`, begun just now or before. -/
theorem Tracked.turn {j : ℕ} (hT : Tracked s h none (wakeupFrom chan j :: rest) (h.marks c)) :
    ∃ m ms, (if j = 0 then h.time :: h.marks c else h.marks c) = m :: ms ∧ m ≤ h.time ∧
      (∀ p < j, Asleep s p chan → m ≤ h.released p) ∧ Tracked s h none rest ms := by
  cases j with
  | zero => exact ⟨h.time, h.marks c, rfl, Nat.le_refl _, by simp, hT⟩
  | succ j =>
    obtain ⟨m, ms, heq, hm, hpassed, hrest⟩ := hT
    refine ⟨m, ms, by simpa using heq, hm, fun p hp hsleep => ?_, hrest⟩
    simpa using hpassed p (Nat.le_of_lt_succ hp) hsleep

theorem Inv.tracked_wakeupFrom {j : ℕ} (hI : Inv s held info)
    (htodo : s.todo c = wakeupFrom chan j :: rest)
    (hact : s.act c ok (wakeupFrom chan j) rest = .ok s')
    (hT : Tracked s h none (wakeupFrom chan j :: rest) (h.marks c)) :
    Tracked s h none (s'.todo c) ((h.act s c ok (wakeupFrom chan j) rest).marks c) := by
  obtain ⟨m, ms, hmarks, hm, hpassed, hrest⟩ := hT.turn
  simp only [State.act] at hact
  simp only [History.act, hmarks]
  split at hact
  · rename_i hj
    rw [if_pos hj]
    -- entry `j` is looked at next, or it is the caller's own
    split at hact
    · rename_i hcur
      cases hact
      simp only [State.setTodo_todo, Function.update_self]
      refine ⟨m, ms, rfl, hm, fun p hp hsleep => ?_, hrest⟩
      rcases Nat.lt_or_eq_of_le hp with hlt | rfl
      · exact Or.inl (hpassed p hlt hsleep)
      · exact absurd hsleep (hI.self_awake htodo hcur)
    · cases hact
      simp only [State.setTodo_todo, Function.update_self]
      refine ⟨m, ms, rfl, hm, fun p hp hsleep => ?_, hrest⟩
      rcases Nat.lt_or_eq_of_le hp with hlt | rfl
      · exact Or.inl (hpassed p hlt hsleep)
      · exact Or.inr rfl
  · rename_i hj
    rw [if_neg hj]
    cases hact
    simpa using hrest

/-- What the CPU has still to do stays tracked. -/
theorem Inv.tracked_act (hI : Inv s held info) (hw : Watch s h) (htodo : s.todo c = a :: rest)
    (hact : s.act c ok a rest = .ok s') {n : ℕ}
    (hcalm : Calm s s' h { h.act s c ok a rest with time := n }) :
    Tracked s' { h.act s c ok a rest with time := n } none (s'.todo c)
      ((h.act s c ok a rest).marks c) := by
  have hT := hw.todo c
  rw [htodo] at hT
  have horder := hw.order c
  rw [htodo] at horder
  cases a with
  | wakeupFrom chan j => exact (hI.tracked_wakeupFrom htodo hact hT).mono hcalm
  | wakeupAt chan k =>
    have hlook := hI.looked_at hw htodo hact
    cases hact
    have hrest := Tracked.looked hlook (hT.mono hcalm)
    rw [State.setTodo_todo, Function.update_self]
    exact hrest
  | sched =>
    simp only [State.act] at hact
    split at hact
    · cases hact
    · rename_i p hcur
      (repeat' split at hact) <;> cases hact
      simp [History.act, hcur, Tracked]
  | load t =>
    simp only [State.act] at hact
    split at hact <;> cases hact
    rename_i code hcode
    cases t with
    | proc p => simpa [History.act] using (hw.ctx p code hcode).mono hcalm
    | sched d =>
      obtain ⟨j, rfl⟩ := hw.sched d code hcode
      simp [History.act, afterProc, Tracked]
  | scheduleFrom j | scheduleAt j =>
    obtain rfl : rest = [] := horder.2
    have hnone : h.marks c = [] := hT
    simp only [State.act] at hact
    split at hact <;> cases hact <;> simp [History.act, Tracked, hnone]
  | _ =>
    have hrest := (show Tracked s h none rest (h.marks c) from hT).mono hcalm
    rw [act_marks_plain (by simp)]
    simp only [State.act] at hact
    (repeat' split at hact) <;> cases hact <;>
      simpa [htodo, Tracked, wakeup, yield, sleep, forkEnd] using hrest

/-- A wakeup is over once it has passed the whole table. -/
theorem act_done {m : ℕ} (hd : (chan, m) ∈ (h.act s c ok a rest).done) :
    (chan, m) ∈ h.done ∨ ∃ j, a = wakeupFrom chan j ∧ s.nproc ≤ j ∧
      (if j = 0 then h.time :: h.marks c else h.marks c).head? = some m := by
  cases a with
  | wakeupFrom chan' j =>
    by_cases hj : j < s.nproc
    · simp only [History.act, if_pos hj] at hd
      exact Or.inl hd
    · simp only [History.act, if_neg hj, List.mem_append, List.mem_map, Option.mem_toList,
        Prod.mk.injEq] at hd
      rcases hd with ⟨m', hm', rfl, rfl⟩ | hd
      · exact Or.inr ⟨j, rfl, Nat.le_of_not_lt hj, hm'⟩
      · exact Or.inl hd
  | load t =>
    left
    cases t <;> exact hd
  | _ =>
    left
    unfold History.act at hd
    dsimp only at hd
    repeat' split at hd
    all_goals exact hd

theorem Inv.watch_act (hI : Inv s held info) (hw : Watch s h) (htodo : s.todo c = a :: rest)
    (hact : s.act c ok a rest = .ok s') {n : ℕ}
    (hn : h.time ≤ n) : Watch s' { h.act s c ok a rest with time := n } := by
  have hcalm := hI.calm hw htodo hact hn
  have hT := hw.todo c
  rw [htodo] at hT
  have horder := hw.order c
  rw [htodo] at horder
  refine ⟨?_, ?_, ?_, ?_, ?_, ?_⟩
  · intro d
    by_cases hd : d = c
    · subst hd
      exact hI.tracked_act hw htodo hact hcalm
    · rw [act_todo_other hact hd]
      simp only [act_marks_other hd]
      exact (hw.todo d).mono hcalm
  · intro p code hcode
    rcases act_ctx (h := h) hact hcode with ⟨hold, hsaved⟩ | ⟨rfl, rfl, hsaved⟩ | ⟨rfl, hsaved⟩
    · simp only [hsaved]
      exact (hw.ctx p code hold).mono hcalm
    · simp only [hsaved]
      exact (show Tracked s h none code (h.marks c) from hT).mono hcalm
    · simp only [hsaved]
      rfl
  · intro d
    by_cases hd : d = c
    · subst hd
      exact act_orderly hact htodo horder fun t code hc => (hw.save t code hc).1
    · rw [act_todo_other hact hd]
      exact hw.order d
  · intro t code hcode
    cases t with
    | proc p =>
      rcases act_ctx (h := h) hact hcode with ⟨hold, -⟩ | ⟨rfl, rfl, -⟩ | ⟨rfl, -⟩
      · exact hw.save _ _ hold
      · exact horder
      · simp [Orderly, NoSleep]
    | sched d =>
      rcases act_ctx_sched hact hcode with hold | ⟨j, rfl⟩
      · exact hw.save _ _ hold
      · simp [Orderly, NoSleep, afterProc]
  · intro d code hcode
    rcases act_ctx_sched hact hcode with hold | hj
    · exact hw.sched d code hold
    · exact hj
  · intro chan m hdone
    -- the wakeup was over before, or it has just passed the end of the table
    obtain ⟨hm, hpassed⟩ : m ≤ h.time ∧ ∀ p < s.nproc, Asleep s p chan → m ≤ h.released p := by
      rcases act_done hdone with hd | ⟨j, rfl, hj, hhead⟩
      · exact hw.done chan m hd
      · obtain ⟨m', ms, hmarks, hm, hpassed, -⟩ := hT.turn
        rw [hmarks] at hhead
        obtain rfl : m' = m := by simpa using hhead
        exact ⟨hm, fun p hp => hpassed p (Nat.lt_of_lt_of_le hp hj)⟩
    refine ⟨Nat.le_trans hm hn, fun p hp hsleep => ?_⟩
    rw [act_nproc hact] at hp
    rcases hcalm.2 p chan hsleep with ⟨hold, hsame⟩ | hnew
    · rw [hsame]
      exact hpassed p hp hold
    · exact Nat.le_trans hm hnew

/-- More code in front of what a CPU has to do, which does not begin in the middle of `sleep`. -/
theorem Watch.push (hw : Watch s h) (c : ℕ) (pre : List Act) {n : ℕ} (hn : h.time ≤ n)
    (hhead : ∀ p chan r, pre ++ s.todo c = setSleeping p chan :: r → Asleep s p chan)
    (ho : Orderly (pre ++ s.todo c))
    (ht : ∀ ms, Tracked s h none (s.todo c) ms → Tracked s h none (pre ++ s.todo c) ms) :
    Watch (s.setTodo c (pre ++ s.todo c)) { h with time := n } := by
  have hcalm : Calm s (s.setTodo c (pre ++ s.todo c)) h { h with time := n } := by
    refine ⟨hn, fun p chan hsleep => Or.inl ⟨?_, rfl⟩⟩
    rcases hsleep with hstate | ⟨d, rest', hcode⟩
    · exact Or.inl hstate
    · by_cases hd : d = c
      · subst hd
        rw [State.setTodo_todo, Function.update_self] at hcode
        exact hhead p chan rest' hcode
      · rw [State.setTodo_todo, Function.update_of_ne hd] at hcode
        exact Or.inr ⟨d, rest', hcode⟩
  refine ⟨?_, fun p code hcode => (hw.ctx p code hcode).mono hcalm, ?_, hw.save, hw.sched, ?_⟩
  · intro d
    by_cases hd : d = c
    · subst hd
      rw [State.setTodo_todo, Function.update_self]
      exact (ht _ (hw.todo d)).mono hcalm
    · rw [State.setTodo_todo, Function.update_of_ne hd]
      exact (hw.todo d).mono hcalm
  · intro d
    by_cases hd : d = c
    · subst hd
      rwa [State.setTodo_todo, Function.update_self]
    · rw [State.setTodo_todo, Function.update_of_ne hd]
      exact hw.order d
  · intro chan m hdone
    obtain ⟨hm, hpassed⟩ := hw.done chan m hdone
    refine ⟨Nat.le_trans hm hn, fun p hp hsleep => ?_⟩
    rcases hcalm.2 p chan hsleep with ⟨hold, hsame⟩ | hnew
    · rw [hsame]
      exact hpassed p hp hold
    · exact Nat.le_trans hm hnew

theorem Watch.tick (hw : Watch s h) : Watch s { h with time := h.time + 1 } := by
  have hpush := hw.push 0 [] (Nat.le_succ h.time) (fun p chan r hr => Or.inr ⟨0, r, hr⟩) (hw.order 0)
    (fun _ => id)
  have hsame : s.setTodo 0 ([] ++ s.todo 0) = s := by
    simp [State.setTodo]
  rwa [hsame] at hpush

/-- A CPU without locks is not in the middle of `sleep`. -/
theorem Inv.noSleep (hI : Inv s held info) (hnoff : s.noff c = 0) : NoSleep (s.todo c) := by
  cases htodo : s.todo c with
  | nil => trivial
  | cons a rest =>
    cases a with
    | setSleeping p chan =>
      obtain ⟨t, ha, hsafe⟩ := hI.head_active htodo (by simp) (by simp)
      generalize hL : info t = L at hsafe
      cases hsafe with
      | setSleeping hl _ _ =>
        subst hL
        rw [hI.noff, ha.held, List.length_eq_zero_iff] at hnoff
        simp [hnoff] at hl
    | _ => trivial

theorem Inv.watch_step {e : Event} (hI : Inv s held info) (hw : Watch s h)
    (hstep : s.step e = .ok s') : Watch s' (h.step s e) := by
  cases e with
  | run c ok =>
    simp only [State.step] at hstep
    cases htodo : s.todo c with
    | nil =>
      simp only [htodo] at hstep
      cases hstep
      simp only [History.step, htodo]
      exact hw.tick
    | cons a rest =>
      simp only [htodo] at hstep
      simp only [History.step, htodo]
      exact hI.watch_act hw htodo hstep (Nat.le_succ _)
  | call c f =>
    rcases step_cases hstep with ⟨_, _, _, _, hrun, -⟩ | rfl | ⟨d, g, p, heq, htodo, -, -, rfl⟩ |
      ⟨_, _, hint, -⟩
    · cases hrun
    · exact hw.tick
    · cases heq
      have hcode : f.code p ++ s.todo c = f.code p := by simp [htodo]
      have hpush := hw.push c (f.code p) (Nat.le_succ h.time) ?_ ?_ ?_
      · rwa [hcode] at hpush
      · rw [hcode]
        cases f <;> simp [Call.code, yield, fork, exit, wait, kill, wakeup, sleep]
      · rw [hcode]
        cases f <;> simp [Call.code, yield, fork, exit, wait, kill, wakeup, sleep, Orderly, NoSleep]
      · intro ms hms
        rw [htodo] at hms
        rw [hcode]
        cases f <;> simpa [Call.code, yield, fork, exit, wait, kill, wakeup, sleep, Tracked] using hms
    · cases hint
  | interrupt c i =>
    rcases step_cases hstep with ⟨_, _, _, _, hrun, -⟩ | rfl | ⟨_, _, _, hcall, -⟩ |
      ⟨d, g, heq, hnoff, rfl⟩
    · cases hrun
    · exact hw.tick
    · cases hcall
    · cases heq
      have hno := hI.noSleep hnoff
      refine hw.push c i.code (Nat.le_succ h.time) ?_ ?_ ?_
      · cases i <;> simp [Interrupt.code]
      · cases i with
        | device chan k => simpa [Interrupt.code, wakeup, Orderly, NoSleep] using hw.order c
        | timer => exact ⟨hw.order c, hno⟩
      · intro ms hms
        cases i <;> simpa [Interrupt.code, wakeup, Tracked] using hms

theorem watch_boot (nproc : ℕ) : Watch (State.boot nproc) {} := by
  refine ⟨fun c => rfl, ?_, ?_, ?_, ?_, by simp⟩
  · intro p code hcode
    by_cases hp : p = 0
    · subst hp
      obtain rfl : [forkret] = code := by simpa [State.boot] using hcode
      rfl
    · simp [State.boot, hp] at hcode
  · intro c
    simp [State.boot, Orderly]
  · intro t code hcode
    by_cases ht : t = .proc 0
    · subst ht
      obtain rfl : [forkret] = code := by simpa [State.boot] using hcode
      simp [Orderly, NoSleep]
    · simp [State.boot, ht] at hcode
  · intro c code hcode
    simp [State.boot] at hcode

theorem stepH_ok {e : Event} :
    stepH (s, h) e = .ok (s', h') ↔ s.step e = .ok s' ∧ h' = h.step s e := by
  unfold stepH
  cases s.step e <;> simp [eq_comm]

/-- The history never gets ahead of the machine. -/
theorem watch_run {nproc : ℕ} {events : List Event}
    (hrun : Runs.run stepH (State.boot nproc, {}) events = .ok (s, h)) : Good s ∧ Watch s h := by
  refine Runs.run_inv (fun sh : State × History => Good sh.1 ∧ Watch sh.1 sh.2) ?_
    ⟨good_boot nproc, watch_boot nproc⟩ hrun
  rintro ⟨u, hu⟩ e ⟨v, hv⟩ ⟨hgood, hwatch⟩ hstep
  obtain ⟨hs, rfl⟩ := stepH_ok.mp hstep
  refine ⟨hgood.step_ok hs, ?_⟩
  obtain ⟨held, info, hI⟩ := hgood
  exact hI.watch_step hwatch hs

/-- A sleeping process is made ready by a wakeup on its own channel or by `kill` with its pid. -/
theorem Inv.woken_by {p : ℕ} (hI : Inv s held info) (htodo : s.todo c = a :: rest)
    (hact : s.act c ok a rest = .ok s') (hsleep : (s.proc p).state = .sleeping)
    (hready : (s'.proc p).state = .runnable) :
    a = .wakeupAt (s.proc p).chan p ∨ a = .killAt (s.proc p).pid p := by
  obtain hsame | ⟨x, hw, hx⟩ := act_proc_at hact p
  · simp [hsame, hsleep] at hready
  rw [hx] at hready
  obtain ⟨t, ha, hsafe⟩ := hI.write_active htodo hw
  generalize hL : info t = L at hsafe
  cases hsafe with
  | setRunnable _ haway _ =>
    cases hw
    subst hL
    simp [ha.running haway] at hsleep
  | wakeupAt _ _ _ =>
    cases hw
    unfold Proc.wakeup at hready
    split_ifs at hready with hchan
    · exact Or.inl (by rw [hchan.2])
    · simp [hsleep] at hready
  | killAt _ _ _ =>
    simp only [State.write] at hw
    split_ifs at hw with hpid
    cases hw
    exact Or.inr (by rw [hpid])
  | startChild _ _ hchild _ =>
    cases hw
    subst hL
    simp [(hI.child _ p _ hchild).2.1] at hsleep
  | _ =>
    simp only [State.write] at hw
    repeat' split at hw
    all_goals cases hw
    all_goals simp_all

/-- No wakeup is lost, in any interleaving: once a wakeup on `chan` is over, no process is
`SLEEPING` on `chan` in a call of `sleep` that had released its lock before the wakeup began.
And only a CPU in a wakeup on its channel, or in `kill` with its pid, makes a sleeping process
`RUNNABLE`. -/
theorem no_lost_wakeup (nproc : ℕ) (events : List Event) (s : State) (h : History)
    (hrun : Runs.run stepH (State.boot nproc, {}) events = .ok (s, h)) :
    (∀ p chan began, p < s.nproc → (chan, began) ∈ h.done → h.released p < began →
      ¬((s.proc p).state = .sleeping ∧ (s.proc p).chan = chan)) ∧
    ∀ e s' p, s.step e = .ok s' → (s.proc p).state = .sleeping → (s'.proc p).state = .runnable →
      ∃ c ok rest, e = .run c ok ∧ (s.todo c = wakeupAt (s.proc p).chan p :: rest ∨
        s.todo c = killAt (s.proc p).pid p :: rest) := by
  obtain ⟨⟨held, info, hI⟩, hw⟩ := watch_run hrun
  constructor
  · intro p chan began hp hdone hlt hsleep
    have hle := (hw.done chan began hdone).2 p hp (Or.inl hsleep)
    exact absurd hlt (Nat.not_lt.mpr hle)
  · intro e s' p hstep hsleep hready
    rcases step_proc hstep with hsame | ⟨c, ok, a, rest, he, htodo, hact⟩
    · simp [hsame, hsleep] at hready
    · rcases hI.woken_by htodo hact hsleep hready with rfl | rfl
      · exact ⟨c, ok, rest, he, Or.inl htodo⟩
      · exact ⟨c, ok, rest, he, Or.inr htodo⟩

/-- The first process sleeps on a channel, then a device wakes up that channel on CPU 1. -/
def wakeupRun : List Event :=
  firstRun ++ [.call 0 (.acquire 0), .run 0 true, .call 0 (.sleep (.other 5) 0)] ++
    List.replicate 8 (.run 0 true) ++ .interrupt 1 (.device (.other 5) 0) ::
    List.replicate 10 (.run 1 true)

theorem no_lost_wakeup_wakeupRun : ∃ s h began,
    Runs.run stepH (State.boot 2, {}) wakeupRun = .ok (s, h) ∧ (.other 5, began) ∈ h.done ∧
    h.released 0 < began ∧ ¬((s.proc 0).state = .sleeping ∧ (s.proc 0).chan = .other 5) := by
  obtain ⟨s, h, hrun, hn, hdone, hlt⟩ : ∃ s h,
      Runs.run stepH (State.boot 2, {}) wakeupRun = .ok (s, h) ∧ s.nproc = 2 ∧
      h.done = [(.other 5, 19)] ∧ h.released 0 < 19 := ⟨_, _, rfl, rfl, rfl, by decide⟩
  have hmem : (Chan.other 5, 19) ∈ h.done := by simp [hdone]
  exact ⟨s, h, 19, hrun, hmem, hlt,
    (no_lost_wakeup 2 wakeupRun s h hrun).1 0 _ 19 (by simp [hn]) hmem hlt⟩

end wakeup
end Xv6.Sched
