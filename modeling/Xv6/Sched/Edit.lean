import Xv6.Sched.Invariant

/-! What one action may do to the process table, and that this leaves the invariant of all other
threads alone. -/
namespace Xv6.Sched
open Act

/-- A thread runs on a CPU and is not in the middle of a switch. -/
structure Active (s : State) (held : ℕ → List Lock) (info : Thread → Local) (c : ℕ)
    (t : Thread) : Prop where
  who : s.who c = t
  held : held c = (info t).held
  sched : ∀ d, t = .sched d → d = c ∧ s.cur c = none ∧ (info t).away = none
  proc : ∀ p, t = .proc p → s.cur c = some p ∧ s.ctx (.sched c) = some (afterProc p) ∧
    StateOk s p (info t)
  safe : Safe s.nproc s.initproc t (info t) (s.todo c)

/-- The changes of an entry by a thread `t` that knows `L`. -/
inductive Edit (s : State) (t : Thread) (L : Local) (j : ℕ) (x : Proc) : Prop where
  | same (hstate : x.state = (s.proc j).state) (hparent : x.parent = (s.proc j).parent)
      (hpid : x.pid = (s.proc j).pid)
  | wake (hl : .proc j ∈ L.held) (hold : (s.proc j).state = .sleeping)
      (hstate : x.state = .runnable) (hparent : x.parent = (s.proc j).parent)
  | leave (ht : t = .proc j) (haway : L.away = none) (hl : .proc j ∈ L.held)
      (hstate : Left x.state) (hparent : x.parent = (s.proc j).parent)
      (hzombie : x.state = .zombie → j ≠ s.initproc ∧ ∀ k, (s.proc k).parent ≠ some j)
  | alloc (hl : .proc j ∈ L.held) (hold : (s.proc j).state = .unused) (hstate : x.state = .used)
      (hparent : x.parent = (s.proc j).parent)
  | adopt (p : ℕ) (ht : t = .proc p) (haway : L.away = none) (hchild : L.child = some (j, .made))
      (hw : .wait ∈ L.held) (hstate : x.state = (s.proc j).state) (hparent : x.parent = some p)
  | start (p : ℕ) (ht : t = .proc p) (hchild : L.child = some (j, .adopted))
      (hl : .proc j ∈ L.held) (hstate : x.state = .runnable)
      (hparent : x.parent = (s.proc j).parent)
  | abandon (p : ℕ) (st : Stage) (ht : t = .proc p) (hchild : L.child = some (j, st))
      (hst : st ≠ .adopted) (hl : .proc j ∈ L.held) (hx : x = {})
  | reap (p : ℕ) (ht : t = .proc p) (hkid : L.kid = some j) (hw : .wait ∈ L.held)
      (hl : .proc j ∈ L.held) (hold : (s.proc j).state = .zombie) (hx : x = {})
  | reparent (p : ℕ) (ht : t = .proc p) (hchild : L.child = none)
      (hold : (s.proc j).parent = some p) (hw : .wait ∈ L.held)
      (hstate : x.state = (s.proc j).state) (hparent : x.parent = some s.initproc)

section edit
variable {s : State} {held : ℕ → List Lock} {info : Thread → Local} {c j : ℕ} {t : Thread}
  {x : Proc} {M : Local} {code : List Act}

theorem Edit.refl : Edit s t M j (s.proc j) := .same rfl rfl rfl

/-- The state of an entry changes under its lock, and `RUNNING` only by the process itself. -/
theorem Edit.state_change (he : Edit s t (info t) j x) (hne : x.state ≠ (s.proc j).state) :
    .proc j ∈ (info t).held ∧ ((s.proc j).state = .running → t = .proc j ∨
      ∃ p st, t = .proc p ∧ (info t).child = some (j, st)) := by
  cases he with
  | same hs => exact absurd hs hne
  | wake hl hold => exact ⟨hl, by simp [hold]⟩
  | leave ht _ hl => exact ⟨hl, fun _ => Or.inl ht⟩
  | alloc hl hold => exact ⟨hl, by simp [hold]⟩
  | adopt _ _ _ _ _ hs => exact absurd hs hne
  | start p ht hc hl => exact ⟨hl, fun _ => Or.inr ⟨p, _, ht, hc⟩⟩
  | abandon p st ht hc _ hl => exact ⟨hl, fun _ => Or.inr ⟨p, st, ht, hc⟩⟩
  | reap p ht _ _ hl hold => exact ⟨hl, by simp [hold]⟩
  | reparent _ _ _ _ _ hs => exact absurd hs hne

section
variable (h : Inv s held info)
include h

/-- Parents change under `wait_lock`. -/
theorem Edit.parent_change (he : Edit s t (info t) j x)
    (hw : .wait ∉ (info t).held) : x.parent = (s.proc j).parent := by
  cases he with
  | same _ hp => exact hp
  | wake _ _ _ hp => exact hp
  | leave _ _ _ _ hp => exact hp
  | alloc _ _ _ hp => exact hp
  | adopt _ _ _ _ hw' => exact absurd hw' hw
  | start _ _ _ _ _ hp => exact hp
  | abandon p st ht hc hst _ hx =>
    subst ht
    rw [hx, (h.child p j st hc).2.2.1, if_neg hst]
  | reap _ _ _ hw' => exact absurd hw' hw
  | reparent _ _ _ _ hw' => exact absurd hw' hw

/-- The state of a process on another CPU does not change. -/
theorem Inv.other_state (ha : Active s held info c t) (he : Edit s t (info t) j x) {d : ℕ}
    (hd : d ≠ c) (hcur : s.cur d = some j) : x.state = (s.proc j).state := by
  by_contra hne
  obtain ⟨hl, hrun⟩ := he.state_change hne
  rw [← ha.held] at hl
  have hstate := (h.cpu d).running hcur fun hl' => hd (h.holder hl' hl)
  rcases hrun hstate with rfl | ⟨p, st, rfl, hc⟩
  · exact hd (h.single d c j hcur (ha.proc j rfl).1)
  · rw [(h.child p j st hc).2.1] at hstate
    cases hstate

omit h in
@[simp] theorem setProc_proc_self : (s.setProc j x).proc j = x := Function.update_self _ _ _

omit h in
theorem setProc_proc_ne {k : ℕ} (h : k ≠ j) : (s.setProc j x).proc k = s.proc k :=
  Function.update_of_ne h _ _

omit h in
theorem StateOk.past {p : ℕ} (h : StateOk s p M) : Past (s.proc p).state := by
  unfold StateOk at h
  split at h
  · exact Or.inl (Or.inr (Or.inl h))
  · rcases h with ⟨hs, -, rfl | rfl | rfl⟩
    · exact Or.inl (Or.inl hs)
    · exact Or.inl (Or.inr (Or.inr hs))
    · exact Or.inr hs

omit h in
theorem not_past_used : ¬Past .used := by
  simp [Past, Live]

omit h in
theorem not_past_unused : ¬Past .unused := by
  simp [Past, Live]

/-- A process with children stays one that may have children. -/
theorem Edit.live (he : Edit s t (info t) j x) (hl : Live (s.proc j).state)
    (hkids : j = s.initproc ∨ ∃ k, (s.proc k).parent = some j) : Live x.state := by
  cases he with
  | same hs => rwa [hs]
  | wake _ _ hs => exact Or.inl hs
  | leave _ _ _ hs _ hz =>
    rcases hs with hs | hs | hs
    · exact Or.inl hs
    · exact Or.inr (Or.inr hs)
    · rcases hkids with hi | ⟨k, hk⟩
      · exact absurd hi (hz hs).1
      · exact absurd hk ((hz hs).2 k)
  | alloc _ hold => simp [hold, Live] at hl
  | adopt _ _ _ _ _ hs => rwa [hs]
  | start _ _ _ _ hs => exact Or.inl hs
  | abandon p st ht hc =>
    subst ht
    simp [(h.child p j st hc).2.1, Live] at hl
  | reap _ _ _ _ _ hold => simp [hold, Live] at hl
  | reparent _ _ _ _ _ hs => rwa [hs]

/-- A new parent is a process that may have children. -/
theorem Edit.new_parent (ha : Active s held info c t) (he : Edit s t (info t) j x) {q : ℕ}
    (hq : x.parent = some q) (hne : (s.proc j).parent ≠ some q) :
    (q ≠ j ∧ (s.proc q).state = .running) ∨ q = s.initproc := by
  cases he with
  | same _ hp => exact absurd (hp ▸ hq) hne
  | wake _ _ _ hp => exact absurd (hp ▸ hq) hne
  | leave _ _ _ _ hp => exact absurd (hp ▸ hq) hne
  | alloc _ _ _ hp => exact absurd (hp ▸ hq) hne
  | adopt p ht haway hc _ _ hp =>
    subst ht
    obtain rfl : p = q := Option.some.inj (hp.symm.trans hq)
    have hstate := (ha.proc p rfl).2.2
    rw [StateOk, haway] at hstate
    refine Or.inl ⟨?_, hstate⟩
    rintro rfl
    rw [(h.child p p _ hc).2.1] at hstate
    cases hstate
  | start _ _ _ _ _ hp => exact absurd (hp ▸ hq) hne
  | abandon _ _ _ _ _ _ hx => simp [hx] at hq
  | reap _ _ _ _ _ _ hx => simp [hx] at hq
  | reparent _ _ _ _ _ _ hp => exact Or.inr (Option.some.inj (hq.symm.trans hp))

theorem Edit.has_parent (ha : Active s held info c t) (he : Edit s t (info t) j x)
    (hpast : Past x.state) (hj : j ≠ s.initproc) : x.parent ≠ none := by
  cases he with
  | same hs hp =>
    rw [hp]
    exact h.family.child j (hs ▸ hpast) hj
  | wake _ hold _ hp =>
    rw [hp]
    exact h.family.child j (by simp [hold, Past, Live]) hj
  | leave ht _ _ _ hp =>
    rw [hp]
    exact h.family.child j (ha.proc j ht).2.2.past hj
  | alloc _ _ hs =>
    rw [hs] at hpast
    exact absurd hpast not_past_used
  | adopt _ _ _ _ _ _ hp => simp [hp]
  | start p ht hc _ _ hp =>
    subst ht
    rw [hp, (h.child p j _ hc).2.2.1]
    simp
  | abandon _ _ _ _ _ _ hx =>
    rw [hx] at hpast
    exact absurd hpast not_past_unused
  | reap _ _ _ _ _ _ hx =>
    rw [hx] at hpast
    exact absurd hpast not_past_unused
  | reparent _ _ _ _ _ _ hp => simp [hp]

/-- An entry that is or becomes free has no parent and the pid 0. -/
theorem Edit.unused (he : Edit s t (info t) j x)
    (hu : x.state = .unused) : x.parent = none ∧ x.pid = 0 := by
  cases he with
  | same hs hp hpid =>
    rw [hp, hpid]
    exact h.family.unused j (hs ▸ hu)
  | wake _ _ hs => simp [hs] at hu
  | leave _ _ _ hs => simp [hu, Left] at hs
  | alloc _ _ hs => simp [hs] at hu
  | adopt p ht _ hc _ hs =>
    subst ht
    rw [hs, (h.child p j _ hc).2.1] at hu
    cases hu
  | start _ _ _ _ hs => simp [hs] at hu
  | abandon _ _ _ _ _ _ hx => exact ⟨by rw [hx], by rw [hx]⟩
  | reap _ _ _ _ _ _ hx => exact ⟨by rw [hx], by rw [hx]⟩
  | reparent p _ _ hold _ hs =>
    rw [hs] at hu
    simp [(h.family.unused j hu).1] at hold

theorem Edit.bound (he : Edit s t (info t) j x) (hj : s.nproc ≤ j) : x.parent = none := by
  have h0 := h.family.bound j hj
  cases he with
  | same _ hp => rwa [hp]
  | wake _ _ _ hp => rwa [hp]
  | leave _ _ _ _ hp => rwa [hp]
  | alloc _ _ _ hp => rwa [hp]
  | adopt p ht _ hc =>
    subst ht
    exact absurd (h.child p j _ hc).1 (Nat.not_lt.mpr hj)
  | start _ _ _ _ _ hp => rwa [hp]
  | abandon _ _ _ _ _ _ hx => rw [hx]
  | reap _ _ _ _ _ _ hx => rw [hx]
  | reparent _ _ _ hold => simp [h0] at hold

/-- The process table stays in order. -/
theorem Edit.family (ha : Active s held info c t)
    (he : Edit s t (info t) j x) : Family (s.setProc j x) where
  parent k q hk := by
    have hold : (s.proc k).parent = some q → Live ((s.setProc j x).proc q).state := by
      intro hkq
      have hlive := h.family.parent k q hkq
      by_cases hqj : q = j
      · subst hqj
        rw [setProc_proc_self]
        exact he.live h hlive (Or.inr ⟨k, hkq⟩)
      · rwa [setProc_proc_ne hqj]
    by_cases hkj : k = j
    · subst hkj
      rw [setProc_proc_self] at hk
      by_cases hsame : (s.proc k).parent = some q
      · exact hold hsame
      · rcases he.new_parent h ha hk hsame with ⟨hqk, hrun⟩ | rfl
        · rw [setProc_proc_ne hqk]
          exact Or.inr (Or.inl hrun)
        · by_cases hik : s.initproc = k
          · rw [hik, setProc_proc_self]
            exact he.live h (hik ▸ h.family.init) (Or.inl hik.symm)
          · rw [setProc_proc_ne hik]
            exact h.family.init
    · rw [setProc_proc_ne hkj] at hk
      exact hold hk
  child i hi hinit := by
    by_cases hij : i = j
    · subst hij
      rw [setProc_proc_self] at hi ⊢
      exact he.has_parent h ha hi hinit
    · rw [setProc_proc_ne hij] at hi ⊢
      exact h.family.child i hi hinit
  init := by
    change Live ((s.setProc j x).proc s.initproc).state
    by_cases hij : s.initproc = j
    · rw [hij, setProc_proc_self]
      exact he.live h (hij ▸ h.family.init) (Or.inl hij.symm)
    · rw [setProc_proc_ne hij]
      exact h.family.init
  unused i hi := by
    by_cases hij : i = j
    · subst hij
      rw [setProc_proc_self] at hi ⊢
      exact he.unused h hi
    · rw [setProc_proc_ne hij] at hi ⊢
      exact h.family.unused i hi
  bound i hi := by
    by_cases hij : i = j
    · subst hij
      rw [setProc_proc_self]
      exact he.bound h hi
    · rw [setProc_proc_ne hij]
      exact h.family.bound i hi

/-- The entry of a process on no CPU stays in order. -/
theorem Edit.off (ha : Active s held info c t) (he : Edit s t (info t) j x)
    (hoff : ∀ d, s.cur d ≠ some j) :
    x.state ≠ .running ∧ (x.state = .runnable ∨ x.state = .sleeping →
      ∃ code, s.ctx (.proc j) = some code ∧
        Safe s.nproc s.initproc (.proc j) (info (.proc j)) code) := by
  have ho := h.off j hoff
  cases he with
  | same hs =>
    rw [hs]
    exact ⟨ho.state, ho.ready⟩
  | wake _ hold hs => exact ⟨by simp [hs], fun _ => ho.ready (Or.inr hold)⟩
  | leave ht => exact absurd (ha.proc j ht).1 (hoff c)
  | alloc _ _ hs => simp [hs]
  | adopt _ _ _ _ _ hs =>
    rw [hs]
    exact ⟨ho.state, ho.ready⟩
  | start p ht hc _ hs =>
    subst ht
    obtain ⟨hctx, hinfo⟩ := (h.child p j _ hc).2.2.2 (by simp)
    refine ⟨by simp [hs], fun _ => ⟨_, hctx, ?_⟩⟩
    rw [hinfo]
    exact .forkret rfl rfl (.idle (by simp) rfl rfl)
  | abandon _ _ _ _ _ _ hx => simp [hx]
  | reap _ _ _ _ _ _ hx => simp [hx]
  | reparent _ _ _ _ _ hs =>
    rw [hs]
    exact ⟨ho.state, ho.ready⟩

/-- The entry that another thread's `fork` is filling is left alone. -/
theorem Edit.child (ha : Active s held info c t) (he : Edit s t (info t) j x) {q : ℕ}
    (hq : t ≠ .proc q) {st : Stage} (hc : (info (.proc q)).child = some (j, st)) :
    x.state = .used ∧ x.parent = (s.proc j).parent := by
  obtain ⟨-, hused, hpar, -⟩ := h.child q j st hc
  have hmine : ∀ p st', t = .proc p → (info t).child = some (j, st') → False := by
    rintro p st' rfl hc'
    exact hq (by rw [h.unique q p j st st' hc hc'])
  cases he with
  | same hs hp => exact ⟨hs.trans hused, hp⟩
  | wake _ hold => simp [hused] at hold
  | leave ht =>
    have hpast := (ha.proc j ht).2.2.past
    rw [hused] at hpast
    exact absurd hpast not_past_used
  | alloc _ hold => simp [hused] at hold
  | adopt p ht _ hc' => exact (hmine p _ ht hc').elim
  | start p ht hc' => exact (hmine p _ ht hc').elim
  | abandon p st' ht hc' => exact (hmine p st' ht hc').elim
  | reap _ _ _ _ _ hold => simp [hused] at hold
  | reparent p ht _ hold =>
    rw [hpar] at hold
    split at hold
    · exact absurd (ht.trans (by rw [Option.some.inj hold])) hq
    · cases hold

/-- The locks a process thread holds are those of its CPU. -/
theorem Inv.held_of_wait {q : ℕ} (hw : .wait ∈ (info (.proc q)).held) :
    ∃ d, s.who d = .proc q ∧ .wait ∈ held d := by
  by_cases hon : ∃ d, s.cur d = some q
  · obtain ⟨d, hd⟩ := hon
    have hoff : ∀ {q'}, q' = q → Off s info q' → False := by
      rintro q' rfl ho
      simp [ho.held] at hw
    cases h.cpu d with
    | sched _ h0 => simp [h0] at hd
    | proc p hwho hcur hheld =>
      obtain rfl : p = q := Option.some.inj (hcur.symm.trans hd)
      exact ⟨d, hwho, hheld ▸ hw⟩
    | toSched p _ hcur _ _ _ _ ho => exact (hoff (Option.some.inj (hcur.symm.trans hd)) ho).elim
    | back p _ hcur _ _ _ ho => exact (hoff (Option.some.inj (hcur.symm.trans hd)) ho).elim
    | toProc p _ hcur _ _ _ _ hl =>
      obtain rfl : p = q := Option.some.inj (hcur.symm.trans hd)
      simp [hl] at hw
  · have ho := h.off q fun d hd => hon ⟨d, hd⟩
    simp [ho.held] at hw

omit h in
theorem Active.cpuOk (ha : Active s held info c t) : CpuOk s held info c := by
  cases t with
  | sched d =>
    obtain ⟨rfl, hcur, haway⟩ := ha.sched d rfl
    exact .sched ha.who hcur ha.held haway ha.safe
  | proc p =>
    obtain ⟨hcur, hctx, hstate⟩ := ha.proc p rfl
    exact .proc p ha.who hcur ha.held hctx hstate ha.safe

/-- An active thread takes an action: it edits one entry, goes on with other code and knows
something else, with the same locks. -/
theorem Inv.advance (ha : Active s held info c t) (he : Edit s t (info t) j x)
    (hheld : M.held = (info t).held) (haway : ∀ p, t = .proc p → StateOk (s.setProc j x) p M)
    (hsched : ∀ d, t = .sched d → M.away = none)
    (hchild : ∀ p, t = .proc p → ChildOk (s.setProc j x) info p M)
    (hfrom : ∀ k st, M.child = some (k, st) →
      (∃ st', (info t).child = some (k, st')) ∨ (s.proc k).state ≠ .used)
    (hkid : ∀ p, t = .proc p → KidOk (s.setProc j x) p M) (hsafe : Safe s.nproc s.initproc t M code) :
    Inv ((s.setProc j x).setTodo c code) held (Function.update info t M) := by
  have hstate : ∀ k, t = .proc k → Past (s.proc k).state := fun k hk => (ha.proc k hk).2.2.past
  -- a child in the making has no thread of its own yet
  have hfresh : ∀ {q k st}, (info (.proc q)).child = some (k, st) → Thread.proc k ≠ t := by
    rintro q k st hc rfl
    have hpast := hstate k rfl
    rw [(h.child q k st hc).2.1] at hpast
    exact not_past_used hpast
  have hactive : Active ((s.setProc j x).setTodo c code) held (Function.update info t M) c t := by
    refine ⟨ha.who, ?_, ?_, ?_, ?_⟩
    · rw [Function.update_self, hheld, ha.held]
    · intro d hd
      obtain ⟨h1, h2, -⟩ := ha.sched d hd
      rw [Function.update_self]
      exact ⟨h1, h2, hsched d hd⟩
    · intro p hp
      obtain ⟨h1, h2, -⟩ := ha.proc p hp
      rw [Function.update_self]
      exact ⟨h1, h2, haway p hp⟩
    · rw [Function.update_self]
      change Safe _ _ _ _ (Function.update s.todo c code c)
      rw [Function.update_self]
      exact hsafe
  refine ⟨h.lock, h.noff, h.nodup, ?_, h.single, ?_, ?_, ?_, ?_, ?_⟩
  · intro d
    by_cases hd : d = c
    · subst hd
      exact hactive.cpuOk
    · have hother : ∀ q, s.cur d = some q → Thread.proc q ≠ t := by
        rintro q hq rfl
        exact hd (h.single d c q hq (ha.proc q rfl).1)
      refine (h.cpu d).frame rfl (Function.update_of_ne hd _ _) rfl rfl rfl ?_ rfl rfl ?_
      · apply Function.update_of_ne
        rintro rfl
        exact hd (ha.sched d rfl).1
      · intro q hq
        refine ⟨?_, Function.update_of_ne (hother q hq) _ _, rfl⟩
        by_cases hqj : q = j
        · subst hqj
          exact (congrArg Proc.state setProc_proc_self).trans (h.other_state ha he hd hq)
        · exact congrArg Proc.state (setProc_proc_ne hqj)
  · intro k hk
    have hne : Thread.proc k ≠ t := by
      rintro rfl
      exact hk c (ha.proc k rfl).1
    by_cases hkj : k = j
    · subst hkj
      obtain ⟨h1, h2⟩ := he.off h ha hk
      have ho := h.off k hk
      have hx : (((s.setProc k x).setTodo c code).proc k) = x := setProc_proc_self
      refine ⟨by rwa [hx], ?_, ?_, ?_⟩
      · rw [Function.update_of_ne hne]
        exact ho.held
      · rw [Function.update_of_ne hne]
        exact ho.away
      · rw [hx, Function.update_of_ne hne]
        exact h2
    · exact (h.off k hk).frame (congrArg Proc.state (setProc_proc_ne hkj))
        (Function.update_of_ne hne _ _) rfl rfl rfl
  · intro q
    by_cases hq : t = .proc q
    · subst hq
      rw [Function.update_self]
      intro k st hk
      obtain ⟨h1, h2, h3, h4⟩ := hchild q rfl k st hk
      refine ⟨h1, h2, h3, fun hst => ⟨(h4 hst).1, ?_⟩⟩
      rw [Function.update_of_ne, (h4 hst).2]
      rintro heq
      obtain rfl := Thread.proc.inj heq
      have hpast := (haway k rfl).past
      rw [h2] at hpast
      exact not_past_used hpast
    · rw [Function.update_of_ne (Ne.symm hq)]
      intro k st hk
      obtain ⟨h1, h2, h3, h4⟩ := h.child q k st hk
      have hsame : ((s.setProc j x).proc k).state = .used ∧
          ((s.setProc j x).proc k).parent = (s.proc k).parent := by
        by_cases hkj : k = j
        · subst hkj
          rw [setProc_proc_self]
          exact he.child h ha hq hk
        · rw [setProc_proc_ne hkj]
          exact ⟨h2, rfl⟩
      refine ⟨h1, hsame.1, hsame.2.trans h3, fun hst => ⟨(h4 hst).1, ?_⟩⟩
      rw [Function.update_of_ne (hfresh hk), (h4 hst).2]
  · have hold : ∀ q k st st', M.child = some (k, st) → (info (.proc q)).child = some (k, st') →
        t = .proc q ∨ ∀ p, t ≠ .proc p := by
      intro q k st st' hk hq
      rcases hfrom k st hk with ⟨st'', hst⟩ | hused
      · by_cases hp : ∃ p, t = .proc p
        · obtain ⟨p, rfl⟩ := hp
          rw [h.unique p q k st'' st' hst hq]
          exact Or.inl rfl
        · exact Or.inr fun p hpt => hp ⟨p, hpt⟩
      · exact absurd (h.child q k st' hq).2.1 hused
    intro p q k st st' hp hq
    by_cases hpt : t = .proc p <;> by_cases hqt : t = .proc q
    · exact Thread.proc.inj (hpt.symm.trans hqt)
    · rw [← hpt, Function.update_self] at hp
      rw [Function.update_of_ne (Ne.symm hqt)] at hq
      rcases hold q k st st' hp hq with h1 | h1
      · exact absurd h1 hqt
      · exact absurd hpt (h1 p)
    · rw [← hqt, Function.update_self] at hq
      rw [Function.update_of_ne (Ne.symm hpt)] at hp
      rcases hold p k st' st hq hp with h1 | h1
      · exact absurd h1 hpt
      · exact absurd hqt (h1 q)
    · rw [Function.update_of_ne (Ne.symm hpt)] at hp
      rw [Function.update_of_ne (Ne.symm hqt)] at hq
      exact h.unique p q k st st' hp hq
  · intro q
    by_cases hq : t = .proc q
    · subst hq
      rw [Function.update_self]
      exact hkid q rfl
    · rw [Function.update_of_ne (Ne.symm hq)]
      intro hw
      obtain ⟨d, hd, hwd⟩ := h.held_of_wait hw
      have hparent : ∀ k, ((s.setProc j x).proc k).parent = (s.proc k).parent := by
        intro k
        by_cases hkj : k = j
        · subst hkj
          rw [setProc_proc_self]
          refine he.parent_change h fun hwt => hq ?_
          rw [← ha.held] at hwt
          rw [← ha.who, ← hd, h.holder hwt hwd]
        · rw [setProc_proc_ne hkj]
      refine ⟨fun k hk => (hparent k).trans ((h.kid q hw).1 k hk), fun k hk => ?_⟩
      change ((s.setProc j x).proc k).parent ≠ some q
      rw [hparent k]
      exact (h.kid q hw).2 k hk
  · exact ⟨(he.family h ha).parent, (he.family h ha).child, (he.family h ha).init,
      (he.family h ha).unused, (he.family h ha).bound⟩

end

end edit
end Xv6.Sched
