import Xv6.Sched.Interrupts

/-! The depth and the flags of a CPU are those of the thread it executes. -/
namespace Xv6.Interrupts
open Act

/-- Code as it stands in the source, entered at the depth `d`, never pops more than it pushed. -/
def Code : ℕ → List Act → Prop
  | _, [] => True
  | d, intrGet :: k => Code (d + 1) k
  | _, pushOff _ :: _ => False
  | d, popOff :: k => 0 < d ∧ Code (d - 1) k
  | d, take _ :: k => Code d k
  | d, drop _ :: k => Code d k
  | _, sched _ :: k => Code 1 k
  | _, restore _ :: _ => False
  | d, pick _ :: k => d = 1 ∧ Code 1 k

/-- What a thread at the depth `d` still has to do: code, after the rest of `push_off` or `sched`. -/
def Fits (d : ℕ) : List Act → Prop
  | pushOff _ :: k => Code (d + 1) k
  | restore _ :: k => Code d k
  | k => Code d k

/-- The depth at the end. -/
def depthAfter : ℕ → List Act → ℕ
  | d, [] => d
  | d, intrGet :: k => depthAfter (d + 1) k
  | d, pushOff _ :: k => depthAfter (d + 1) k
  | d, popOff :: k => depthAfter (d - 1) k
  | _, sched _ :: k => depthAfter 1 k
  | d, take _ :: k => depthAfter d k
  | d, drop _ :: k => depthAfter d k
  | d, restore _ :: k => depthAfter d k
  | d, pick _ :: k => depthAfter d k

/-- The flag that `push_off` has read or will read. -/
def seen (intr : Bool) : List Act → Bool
  | pushOff old :: _ => old
  | _ => intr

/-- The value of `intena` once `sched` has put it back. -/
def kept (intena : Bool) : List Act → Bool
  | restore b :: _ => b
  | _ => intena

section code
variable {d : ℕ} {k : List Act}

theorem Code.fits (h : Code d k) : Fits d k := by
  unfold Fits
  split
  · exact h.elim
  · exact h.elim
  · exact h

theorem Code.seen_eq (h : Code d k) (x : Bool) : seen x k = x := by
  unfold seen
  split
  · exact h.elim
  · rfl

theorem Code.kept_eq (h : Code d k) (x : Bool) : kept x k = x := by
  unfold kept
  split
  · exact h.elim
  · rfl

end code

/-- The flags of a CPU that executes `todo` at the depth `d`, if the flag before the outermost
`acquire` was `outer`. -/
structure Tracks (intr intena : Bool) (d : ℕ) (outer : Option Bool) (todo : List Act) : Prop where
  fits : Fits d todo
  off : 0 < d → intr = false
  flag : ∀ b ∈ outer, d = 0 → todo ≠ [] → seen intr todo = b
  saved : ∀ b ∈ outer, 0 < d → kept intena todo = b

section tracks
variable {intr intena i : Bool} {d : ℕ} {outer : Option Bool} {k : List Act} {lk : Sched.Lock}

theorem Tracks.intrGet (h : Tracks intr intena d outer (intrGet :: k)) :
    Tracks intr intena d outer (pushOff intr :: k) :=
  ⟨h.fits, h.off, fun b hb hd _ => h.flag b hb hd (List.cons_ne_nil _ _), h.saved⟩

/-- An act that leaves the depth and the flags alone. -/
theorem Tracks.skip {a : Act} (h : Tracks intr intena d outer (a :: k)) (hk : Code d k)
    (hseen : seen intr (a :: k) = intr) (hkept : kept intena (a :: k) = intena) :
    Tracks intr intena d outer k :=
  ⟨hk.fits, h.off,
    fun b hb hd _ => (hk.seen_eq _).trans (hseen.symm.trans (h.flag b hb hd (List.cons_ne_nil _ _))),
    fun b hb hd => (hk.kept_eq _).trans (hkept.symm.trans (h.saved b hb hd))⟩

theorem Tracks.pushOff {old : Bool} (h : Tracks intr intena d outer (pushOff old :: k)) :
    Tracks false (if d = 0 then old else intena) (d + 1) outer k := by
  have hk : Code (d + 1) k := h.fits
  refine ⟨hk.fits, fun _ => rfl, fun b hb hd => by omega, fun b hb _ => ?_⟩
  rw [hk.kept_eq]
  split_ifs with hd
  · exact h.flag b hb hd (List.cons_ne_nil _ _)
  · exact h.saved b hb (Nat.pos_of_ne_zero hd)

theorem Tracks.popOff (h : Tracks intr intena d outer (popOff :: k)) :
    Tracks (if d - 1 = 0 ∧ intena then true else intr) intena (d - 1) outer k := by
  obtain ⟨hd, hk⟩ : 0 < d ∧ Code (d - 1) k := h.fits
  have hoff := h.off hd
  refine ⟨hk.fits, fun hd' => ?_, fun b hb hd' _ => ?_, fun b hb _ => ?_⟩
  · rw [if_neg (fun hc => Nat.ne_of_gt hd' hc.1)]
    exact hoff
  · have hsaved : intena = b := h.saved b hb hd
    rw [hk.seen_eq, hsaved, hoff]
    cases b <;> simp [hd']
  · rw [hk.kept_eq]
    exact h.saved b hb hd

theorem Tracks.sched {st : Sched.ProcState} (h : Tracks intr intena 1 outer (sched st :: k)) :
    Tracks false i 1 outer (restore intena :: k) :=
  have hk : Code 1 k := h.fits
  ⟨hk, fun _ => rfl, fun _ _ hd => absurd hd Nat.one_ne_zero, fun b hb hd => h.saved b hb hd⟩

theorem Tracks.restore {b : Bool} (h : Tracks intr intena d outer (restore b :: k)) :
    Tracks intr b d outer k := by
  have hk : Code d k := h.fits
  refine ⟨hk.fits, h.off, fun b hb hd _ => ?_, fun b hb hd => ?_⟩
  · rw [hk.seen_eq]
    exact h.flag b hb hd (List.cons_ne_nil _ _)
  · rw [hk.kept_eq]
    exact h.saved b hb hd

/-- A thread whose outermost call is not recorded. -/
theorem Tracks.none (hk : Fits d k) (hoff : 0 < d → intr = false) :
    Tracks intr intena d Option.none k :=
  ⟨hk, hoff, fun _ hb => by contradiction, fun _ hb => by contradiction⟩

end tracks

/-- `kerneltrap` returns to a thread outside any lock, with interrupts on. -/
def Frame.Ok (f : Frame) : Prop := ∀ intena, Tracks true intena 0 f.outer f.todo

/-- The depth at the end of what is at the bottom of a stack, with `d` and `todo` at its top. -/
def endDepth (d : ℕ) (todo : List Act) : List Frame → ℕ
  | [] => depthAfter d todo
  | f :: fs => endDepth 0 f.todo fs

/-- The stack of a scheduler: nothing is recorded, and at its bottom is the loop, which holds no
lock when it comes around. -/
structure Thread.IsScheduler (T : Thread) : Prop where
  outer : T.outer = none
  frames : ∀ f ∈ T.frames, f.outer = none
  bottom : endDepth T.depth T.todo T.frames = 0

/-- The stack of a process: where nothing is recorded, the code holds no lock when it is done. -/
structure Thread.IsProcess (T : Thread) : Prop where
  outer : T.outer = none → depthAfter T.depth T.todo = 0
  frames : ∀ f ∈ T.frames, f.outer = none → depthAfter 0 f.todo = 0

def Thread.Is (T : Thread) : Option ℕ → Prop
  | none => T.IsScheduler
  | some _ => T.IsProcess

structure Inv (s : State) : Prop where
  noff : ∀ c, (s.cpus c).noff = (s.current c).depth
  tracks : ∀ c, Tracks (s.cpus c).intr (s.cpus c).intena (s.current c).depth (s.current c).outer
    (s.current c).todo
  schedulers : ∀ c, (s.cpus c).scheduler.IsScheduler ∧ ∀ f ∈ (s.cpus c).scheduler.frames, f.Ok
  processes : ∀ p, (s.procs p).thread.IsProcess ∧ ∀ f ∈ (s.procs p).thread.frames, f.Ok
  /-- a scheduler waits for the process it has switched to -/
  waits : ∀ c, (s.cpus c).proc ≠ none →
    (s.cpus c).scheduler.depth = 1 ∧ Fits 1 (s.cpus c).scheduler.todo
  /-- a process that no CPU executes can be resumed by any of them -/
  switched : ∀ p, (∀ c, (s.cpus c).proc ≠ some p) → (s.procs p).thread.depth = 1 ∧
    ∀ intena, Tracks false intena 1 (s.procs p).thread.outer (s.procs p).thread.todo
  running : ∀ c p, (s.cpus c).proc = some p → (s.procs p).state = .running
  unique : ∀ c c' p, (s.cpus c).proc = some p → (s.cpus c').proc = some p → c = c'

section inv
variable {s : State} {c : ℕ} {k : Cpu} {T : Thread}

theorem State.current_scheduler (h : (s.cpus c).proc = none) :
    s.current c = (s.cpus c).scheduler := by
  rw [State.current, h]

variable {p : ℕ}

theorem State.current_proc (h : (s.cpus c).proc = some p) : s.current c = (s.procs p).thread := by
  rw [State.current, h]

theorem Inv.is (hs : Inv s) (c : ℕ) : (s.current c).Is (s.cpus c).proc := by
  cases h : (s.cpus c).proc with
  | none =>
    rw [State.current_scheduler h]
    exact (hs.schedulers c).1
  | some p =>
    rw [State.current_proc h]
    exact (hs.processes p).1

theorem Inv.frames (hs : Inv s) (c : ℕ) : ∀ f ∈ (s.current c).frames, f.Ok := by
  cases h : (s.cpus c).proc with
  | none =>
    rw [State.current_scheduler h]
    exact (hs.schedulers c).2
  | some p =>
    rw [State.current_proc h]
    exact (hs.processes p).2

section resume
variable (s c k T)

theorem State.resume_cpus : (s.resume c k T).cpus = Function.update s.cpus c
    { k with scheduler := if k.proc = none then T else k.scheduler } := by
  unfold State.resume
  split
  · rename_i hp
    rw [if_pos hp]
  · rename_i p hp
    rw [if_neg (by simp [hp])]

theorem State.resume_state (p : ℕ) :
    ((s.resume c k T).procs p).state = (s.procs p).state := by
  unfold State.resume
  split
  · rfl
  · rename_i q hq
    by_cases hpq : p = q
    · subst hpq
      simp
    · simp [hpq]

theorem State.resume_thread (p : ℕ) :
    ((s.resume c k T).procs p).thread = if k.proc = some p then T else (s.procs p).thread := by
  unfold State.resume
  split
  · rename_i hq
    simp [hq]
  · rename_i q hq
    by_cases hpq : p = q
    · subst hpq
      simp [hq]
    · simp [hq, hpq, Ne.symm hpq]

theorem State.resume_current : (s.resume c k T).current c = T := by
  rw [State.current, State.resume_cpus, Function.update_self]
  cases hp : k.proc with
  | none => simp
  | some p => simp [State.resume_thread, hp]

end resume

theorem State.resume_proc (hproc : k.proc = (s.cpus c).proc) (c' : ℕ) :
    ((s.resume c k T).cpus c').proc = (s.cpus c').proc := by
  rw [State.resume_cpus]
  by_cases hc : c' = c
  · rw [hc, Function.update_self]
    exact hproc
  · rw [Function.update_of_ne hc]

theorem Inv.resume_other (hs : Inv s) (hproc : k.proc = (s.cpus c).proc) {c' : ℕ} (hc : c' ≠ c) :
    (s.resume c k T).current c' = s.current c' := by
  rw [State.current, State.current, State.resume_proc hproc]
  split
  · rw [State.resume_cpus, Function.update_of_ne hc]
  · rename_i p hp
    rw [State.resume_thread, if_neg fun hk => hc (hs.unique c' c p hp (hproc.symm.trans hk))]

/-- The thread on `c` has moved on, and the flags of `c` with it. -/
theorem Inv.resume (hs : Inv s) (hproc : k.proc = (s.cpus c).proc)
    (hsched : k.scheduler = (s.cpus c).scheduler) (hnoff : k.noff = T.depth)
    (htracks : Tracks k.intr k.intena T.depth T.outer T.todo) (his : T.Is k.proc)
    (hframes : ∀ f ∈ T.frames, f.Ok) : Inv (s.resume c k T) where
  noff c' := by
    by_cases hc : c' = c
    · rw [hc, State.resume_current, State.resume_cpus, Function.update_self]
      exact hnoff
    · rw [hs.resume_other hproc hc, State.resume_cpus, Function.update_of_ne hc]
      exact hs.noff c'
  tracks c' := by
    by_cases hc : c' = c
    · rw [hc, State.resume_current, State.resume_cpus, Function.update_self]
      exact htracks
    · rw [hs.resume_other hproc hc, State.resume_cpus, Function.update_of_ne hc]
      exact hs.tracks c'
  schedulers c' := by
    rw [State.resume_cpus]
    by_cases hc : c' = c
    · rw [hc, Function.update_self]
      dsimp only
      split_ifs with hk
      · rw [hk] at his
        exact ⟨his, hframes⟩
      · rw [hsched]
        exact hs.schedulers c
    · rw [Function.update_of_ne hc]
      exact hs.schedulers c'
  processes p := by
    rw [State.resume_thread]
    split_ifs with hk
    · rw [hk] at his
      exact ⟨his, hframes⟩
    · exact hs.processes p
  waits c' hc' := by
    rw [State.resume_proc hproc] at hc'
    rw [State.resume_cpus]
    by_cases hc : c' = c
    · subst hc
      rw [Function.update_self, if_neg (hproc ▸ hc'), hsched]
      exact hs.waits c' hc'
    · rw [Function.update_of_ne hc]
      exact hs.waits c' hc'
  switched p hp := by
    simp only [State.resume_proc hproc] at hp
    rw [State.resume_thread, if_neg (hproc ▸ hp c)]
    exact hs.switched p hp
  running c' p hp := by
    rw [State.resume_proc hproc] at hp
    rw [State.resume_state]
    exact hs.running c' p hp
  unique c' c'' p hp hp' := by
    rw [State.resume_proc hproc] at hp hp'
    exact hs.unique c' c'' p hp hp'

theorem Inv.setLock (hs : Inv s) (lk : Sched.Lock) (h : Option ℕ) : Inv (s.setLock lk h) :=
  ⟨hs.noff, hs.tracks, hs.schedulers, hs.processes, hs.waits, hs.switched, hs.running, hs.unique⟩

theorem Thread.Is.advance {proc : Option ℕ} (h : T.Is proc) {todo : List Act} {d : ℕ}
    (heq : depthAfter d todo = depthAfter T.depth T.todo) :
    Thread.Is { T with todo := todo, depth := d } proc := by
  cases proc with
  | none =>
    obtain ⟨houter, hframes, hbottom⟩ := h
    refine ⟨houter, hframes, ?_⟩
    dsimp only
    cases hfs : T.frames with
    | nil =>
      rw [hfs] at hbottom
      exact heq.trans hbottom
    | cons f fs =>
      rw [hfs] at hbottom
      exact hbottom
  | some p => exact ⟨fun houter => heq.trans (h.outer houter), h.frames⟩

/-- The thread on `c` has taken the first of its acts. -/
theorem Inv.advance (hs : Inv s) (hproc : k.proc = (s.cpus c).proc)
    (hsched : k.scheduler = (s.cpus c).scheduler) {todo : List Act} {d : ℕ} (hnoff : k.noff = d)
    (htracks : Tracks k.intr k.intena d (s.current c).outer todo)
    (heq : depthAfter d todo = depthAfter (s.current c).depth (s.current c).todo) :
    Inv (s.resume c k { s.current c with todo := todo, depth := d }) :=
  hs.resume hproc hsched hnoff htracks (hproc ▸ (hs.is c).advance heq) (hs.frames c)

theorem State.setProcState_thread (s : State) (p q : ℕ) (st : Sched.ProcState) :
    ((s.setProcState p st).procs q).thread = (s.procs q).thread := by
  by_cases hq : q = p
  · subst hq
    simp [State.setProcState]
  · simp [State.setProcState, hq]

theorem State.setProcState_current (s : State) (p c : ℕ) (st : Sched.ProcState) :
    (s.setProcState p st).current c = s.current c := by
  unfold State.current
  split
  · rename_i h
    rw [show (s.cpus c).proc = none from h]
    rfl
  · rename_i q h
    rw [show (s.cpus c).proc = some q from h]
    exact s.setProcState_thread p q st

/-- A process that no CPU executes changes its state. -/
theorem Inv.setProcState (hs : Inv s) (st : Sched.ProcState)
    (hp : ∀ c, (s.cpus c).proc ≠ some p) : Inv (s.setProcState p st) where
  noff c := by
    rw [State.setProcState_current]
    exact hs.noff c
  tracks c := by
    rw [State.setProcState_current]
    exact hs.tracks c
  schedulers := hs.schedulers
  processes q := by
    rw [State.setProcState_thread]
    exact hs.processes q
  waits := hs.waits
  switched q hq := by
    rw [State.setProcState_thread]
    exact hs.switched q hq
  running c q hq := by
    have hne : q ≠ p := fun h => hp c (h ▸ hq)
    simp only [State.setProcState, Function.update_of_ne hne]
    exact hs.running c q hq
  unique := hs.unique

theorem State.setProc_current_of_ne (s : State) (p : Option ℕ) {c' : ℕ} (hc : c' ≠ c) :
    (s.setProc c p).current c' = s.current c' := by
  simp only [State.current, State.setProc, Function.update_of_ne hc]

/-- A process whose context is saved leaves its CPU, and the scheduler goes on. -/
theorem Inv.leave (hs : Inv s) (hp : (s.cpus c).proc = some p)
    (hdepth : (s.procs p).thread.depth = 1) (hintr : (s.cpus c).intr = false)
    (htracks : ∀ i, Tracks false i 1 (s.procs p).thread.outer (s.procs p).thread.todo) :
    Inv (s.setProc c none) := by
  have hself : (s.setProc c none).cpus c = { s.cpus c with proc := none } :=
    Function.update_self ..
  have hother : ∀ c' ≠ c, (s.setProc c none).cpus c' = s.cpus c' := fun c' hc =>
    Function.update_of_ne hc ..
  have hcur : (s.setProc c none).current c = (s.cpus c).scheduler := by
    rw [State.current_scheduler (by rw [hself]), hself]
  obtain ⟨hwait, hfits⟩ := hs.waits c (by simp [hp])
  refine ⟨fun c' => ?_, fun c' => ?_, fun c' => ?_, hs.processes, fun c' hc' => ?_, fun q hq => ?_,
    fun c' q hq => ?_, fun c' c'' q hq hq' => ?_⟩
  · by_cases hc : c' = c
    · rw [hc, hcur, hself, hwait, ← hdepth, ← State.current_proc hp]
      exact hs.noff c
    · rw [State.setProc_current_of_ne s none hc, hother c' hc]
      exact hs.noff c'
  · by_cases hc : c' = c
    · rw [hc, hcur, hself, hwait, (hs.schedulers c).1.outer]
      exact Tracks.none hfits fun _ => hintr
    · rw [State.setProc_current_of_ne s none hc, hother c' hc]
      exact hs.tracks c'
  · by_cases hc : c' = c
    · rw [hc, hself]
      exact hs.schedulers c
    · rw [hother c' hc]
      exact hs.schedulers c'
  · by_cases hc : c' = c
    · rw [hc, hself] at hc'
      contradiction
    · rw [hother c' hc] at hc' ⊢
      exact hs.waits c' hc'
  · by_cases hqp : q = p
    · rw [hqp]
      exact ⟨hdepth, htracks⟩
    · refine hs.switched q fun c' hc' => ?_
      by_cases hc : c' = c
      · rw [hc, hp] at hc'
        exact hqp (Option.some.inj hc').symm
      · exact hq c' (by rwa [hother c' hc])
  · by_cases hc : c' = c
    · rw [hc, hself] at hq
      contradiction
    · rw [hother c' hc] at hq
      exact hs.running c' q hq
  · have hne : ∀ c', ((s.setProc c none).cpus c').proc = some q → c' ≠ c := by
      rintro c' h rfl
      rw [hself] at h
      contradiction
    rw [hother c' (hne c' hq)] at hq
    rw [hother c'' (hne c'' hq')] at hq'
    exact hs.unique c' c'' q hq hq'

/-- The scheduler of `c`, at the depth one, switches to a process. -/
theorem Inv.enter (hs : Inv s) (hp : (s.cpus c).proc = none)
    (hdepth : (s.cpus c).scheduler.depth = 1) (hfits : Fits 1 (s.cpus c).scheduler.todo)
    (hrun : (s.procs p).state ≠ .running) :
    Inv ((s.setProcState p .running).setProc c (some p)) := by
  have hfree : ∀ c', (s.cpus c').proc ≠ some p := fun c' hc' => hrun (hs.running c' p hc')
  have hs' := hs.setProcState .running hfree
  have hself : ((s.setProcState p .running).setProc c (some p)).cpus c =
      { s.cpus c with proc := some p } := Function.update_self ..
  have hother : ∀ c' ≠ c, ((s.setProcState p .running).setProc c (some p)).cpus c' = s.cpus c' :=
    fun c' hc => Function.update_of_ne hc ..
  have hcur : ((s.setProcState p .running).setProc c (some p)).current c = (s.procs p).thread := by
    rw [State.current_proc (by rw [hself])]
    exact s.setProcState_thread p p .running
  have hnoff : (s.cpus c).noff = 1 := by
    rw [hs.noff, State.current_scheduler hp, hdepth]
  have hintr : (s.cpus c).intr = false :=
    (hs.tracks c).off (by rw [State.current_scheduler hp, hdepth]; exact Nat.one_pos)
  obtain ⟨hone, htracks⟩ := hs.switched p hfree
  refine ⟨fun c' => ?_, fun c' => ?_, fun c' => ?_, hs'.processes, fun c' hc' => ?_, fun q hq => ?_,
    fun c' q hq => ?_, fun c' c'' q hq hq' => ?_⟩
  · by_cases hc : c' = c
    · rw [hc, hcur, hself, hone]
      exact hnoff
    · rw [State.setProc_current_of_ne _ _ hc, hother c' hc]
      exact hs'.noff c'
  · by_cases hc : c' = c
    · rw [hc, hcur, hself, hone]
      dsimp only
      rw [hintr]
      exact htracks _
    · rw [State.setProc_current_of_ne _ _ hc, hother c' hc]
      exact hs'.tracks c'
  · by_cases hc : c' = c
    · rw [hc, hself]
      exact hs.schedulers c
    · rw [hother c' hc]
      exact hs.schedulers c'
  · by_cases hc : c' = c
    · rw [hc, hself]
      exact ⟨hdepth, hfits⟩
    · rw [hother c' hc] at hc' ⊢
      exact hs.waits c' hc'
  · refine hs'.switched q fun c' hc' => hq c' ?_
    by_cases hc : c' = c
    · have hnone : (s.cpus c').proc = some q := hc'
      rw [hc, hp] at hnone
      contradiction
    · rw [hother c' hc]
      exact hc'
  · by_cases hc : c' = c
    · rw [hc, hself] at hq
      obtain rfl := Option.some.inj hq
      simp [State.setProc, State.setProcState]
    · rw [hother c' hc] at hq
      exact hs'.running c' q hq
  · by_cases hqp : q = p
    · have hne : ∀ c', (((s.setProcState p .running).setProc c (some p)).cpus c').proc = some q →
          c' = c := by
        intro c' h
        by_contra hc
        rw [hother c' hc, hqp] at h
        exact hfree c' h
      rw [hne c' hq, hne c'' hq']
    · have hne : ∀ c', (((s.setProcState p .running).setProc c (some p)).cpus c').proc = some q →
          c' ≠ c := by
        rintro c' h rfl
        rw [hself] at h
        exact hqp (Option.some.inj h).symm
      rw [hother c' (hne c' hq)] at hq
      rw [hother c'' (hne c'' hq')] at hq'
      exact hs.unique c' c'' q hq hq'

theorem Cpu.popOff_ok (hoff : k.intr = false) (hpos : 0 < k.noff) :
    k.popOff = .ok { k with noff := k.noff - 1,
                            intr := if k.noff - 1 = 0 ∧ k.intena then true else k.intr } := by
  simp only [Cpu.popOff, hoff, Bool.false_eq_true, if_false, Nat.not_lt.2 hpos]
  split_ifs <;> simp

variable {rest : List Act}

theorem Inv.popOff (hs : Inv s) (htodo : (s.current c).todo = popOff :: rest) :
    ∃ k, (s.cpus c).popOff = .ok k ∧ k.proc = (s.cpus c).proc ∧
      k.scheduler = (s.cpus c).scheduler ∧ k.noff = (s.current c).depth - 1 ∧
      Tracks k.intr k.intena ((s.current c).depth - 1) (s.current c).outer rest := by
  have htracks := hs.tracks c
  rw [htodo] at htracks
  obtain ⟨hpos, -⟩ : 0 < (s.current c).depth ∧ Code ((s.current c).depth - 1) rest := htracks.fits
  have hnoff := hs.noff c
  refine ⟨_, Cpu.popOff_ok (htracks.off hpos) (hnoff ▸ hpos), rfl, rfl, ?_, ?_⟩
  · dsimp only
    rw [hnoff]
  · dsimp only
    rw [hnoff]
    exact htracks.popOff

variable {t : State}

theorem Inv.exec (hs : Inv s) {a : Act} (htodo : (s.current c).todo = a :: rest)
    (h : s.exec c rest a = .ok t) : Inv t := by
  have htracks := hs.tracks c
  have hnoff := hs.noff c
  rw [htodo] at htracks
  have hafter : depthAfter (s.current c).depth (a :: rest) =
      depthAfter (s.current c).depth (s.current c).todo := by rw [htodo]
  cases a with
  | intrGet =>
    obtain rfl := Except.ok.inj h
    exact hs.advance rfl rfl hnoff htracks.intrGet hafter
  | pushOff old =>
    obtain rfl := Except.ok.inj h
    refine hs.advance (k := (s.cpus c).pushOff old) rfl rfl (congrArg (· + 1) hnoff) ?_ hafter
    simp only [Cpu.pushOff, hnoff]
    exact htracks.pushOff
  | popOff =>
    obtain ⟨k, hk, hproc, hsched, hdepth, hpop⟩ := hs.popOff htodo
    simp only [State.exec, hk] at h
    obtain rfl := Except.ok.inj h
    exact hs.advance hproc hsched hdepth hpop hafter
  | take lk =>
    simp only [State.exec] at h
    split_ifs at h
    obtain rfl := Except.ok.inj h
    exact (hs.setLock lk (some c)).advance rfl rfl hnoff (htracks.skip htracks.fits rfl rfl) hafter
  | drop lk =>
    simp only [State.exec] at h
    split_ifs at h
    obtain rfl := Except.ok.inj h
    exact (hs.setLock lk none).advance rfl rfl hnoff (htracks.skip htracks.fits rfl rfl) hafter
  | sched st =>
    cases hp : (s.cpus c).proc with
    | none => simp [State.exec, hp] at h
    | some p =>
      simp only [State.exec, hp] at h
      split_ifs at h with hlock hone hintr
      obtain rfl := Except.ok.inj h
      have hdepth : (s.current c).depth = 1 := by
        rw [← hnoff]
        exact Decidable.not_not.1 hone
      rw [hdepth] at htracks
      have hoff : (s.cpus c).intr = false := by simpa using hintr
      have hs' : Inv (s.resume c (s.cpus c)
          { s.current c with todo := restore (s.cpus c).intena :: rest, depth := 1 }) := by
        refine hs.advance rfl rfl (hnoff.trans hdepth) ?_ hafter
        rw [hoff]
        exact htracks.sched
      rw [← hdepth] at hs'
      have hproc := State.resume_proc (s := s) (c := c) (k := s.cpus c)
        (T := { s.current c with todo := restore (s.cpus c).intena :: rest }) rfl
      have hthread := State.resume_thread s c (s.cpus c)
        { s.current c with todo := restore (s.cpus c).intena :: rest } p
      rw [if_pos hp] at hthread
      have hleft := hs'.leave ((hproc c).trans hp) (by rw [hthread]; exact hdepth)
        (by rw [State.resume_cpus, Function.update_self]; exact hoff)
        fun i => by rw [hthread]; exact htracks.sched
      refine hleft.setProcState st fun c' hc' => ?_
      by_cases hc : c' = c
      · simp [hc, State.setProc] at hc'
      · simp only [State.setProc, Function.update_of_ne hc, hproc] at hc'
        exact hc (hs.unique c' c p hc' hp)
  | restore b =>
    obtain rfl := Except.ok.inj h
    exact hs.advance (k := { s.cpus c with intena := b }) rfl rfl hnoff htracks.restore hafter
  | pick p =>
    obtain ⟨hdepth, hcode⟩ : (s.current c).depth = 1 ∧ Code 1 rest := htracks.fits
    have hs' : Inv (s.resume c (s.cpus c) { s.current c with todo := rest }) :=
      hs.advance rfl rfl hnoff (htracks.skip (hdepth ▸ hcode) rfl rfl) hafter
    cases hp : (s.cpus c).proc with
    | some q => simp [State.exec, hp] at h
    | none =>
      simp only [State.exec, hp] at h
      have hcpu : (s.resume c (s.cpus c) { s.current c with todo := rest }).cpus c =
          { s.cpus c with scheduler := { s.current c with todo := rest } } := by
        rw [State.resume_cpus, Function.update_self, if_pos hp]
      split_ifs at h with hrun
      · obtain rfl := Except.ok.inj h
        refine hs'.enter (by rw [hcpu]; exact hp) (by rw [hcpu]; exact hdepth)
          (by rw [hcpu]; exact hcode.fits) ?_
        rw [State.resume_state, hrun]
        decide
      · obtain rfl := Except.ok.inj h
        exact hs'

/-- The bodies of the functions keep to the depth they are called at. -/
theorem Call.code_fits {f : Call} {proc : Option ℕ} {code : List Act} {d : ℕ}
    (h : f.code proc = some code) (hd : f.nested → 0 < d) : Code d code := by
  cases f with
  | acquire lk =>
    obtain rfl := Option.some.inj h
    trivial
  | release lk =>
    obtain rfl := Option.some.inj h
    exact ⟨hd rfl, trivial⟩
  | pushOff =>
    obtain rfl := Option.some.inj h
    trivial
  | popOff =>
    obtain rfl := Option.some.inj h
    exact ⟨hd rfl, trivial⟩
  | sleep lk =>
    obtain ⟨p, -, rfl⟩ := Option.map_eq_some_iff.1 h
    simp [Interrupts.sleep, myproc, Interrupts.acquire, Interrupts.release, Code]
  | yield =>
    obtain ⟨p, -, rfl⟩ := Option.map_eq_some_iff.1 h
    simp [Interrupts.yield, myproc, Interrupts.acquire, Interrupts.release, Code]

theorem Inv.call (hs : Inv s) {f : Call} (h : step s (.call c f) = .ok t) : Inv t := by
  simp only [step] at h
  split at h
  · rename_i hcond
    obtain ⟨⟨htodo, hbusy⟩, hnested⟩ := hcond
    split at h
    · contradiction
    · rename_i code hcode
      obtain rfl := Except.ok.inj h
      have hfits : Code (s.current c).depth code := Call.code_fits hcode hnested
      have htracks := hs.tracks c
      have his := hs.is c
      rw [htodo] at htracks
      cases hp : (s.cpus c).proc with
      | none =>
        -- the handler of an interrupt, on the stack of the scheduler
        have houter : s.outerAt c = (s.current c).outer := if_neg fun hc => hc.2 hp
        rw [hp] at his
        refine hs.resume rfl rfl (hs.noff c) ?_ ?_ (hs.frames c)
        · rw [houter, his.outer]
          exact Tracks.none hfits.fits htracks.off
        · rw [hp]
          refine ⟨houter.trans his.outer, his.frames, ?_⟩
          obtain ⟨f, fs, hfs⟩ := List.exists_cons_of_ne_nil (hbusy hp)
          have hbottom := his.bottom
          rw [hfs] at hbottom ⊢
          exact hbottom
      | some p =>
        rw [hp] at his
        by_cases hd : (s.current c).depth = 0
        · have houter : s.outerAt c = some (s.cpus c).intr := if_pos ⟨hd, by simp [hp]⟩
          refine hs.resume rfl rfl (hs.noff c) ⟨hfits.fits, htracks.off, fun b hb _ _ => ?_,
            fun b hb hpos => absurd hd (Nat.ne_of_gt hpos)⟩ ?_ (hs.frames c)
          · rw [hfits.seen_eq]
            exact Option.some.inj (houter.symm.trans hb)
          · rw [hp]
            exact ⟨fun hnone => by rw [houter] at hnone; contradiction, his.frames⟩
        · have houter : s.outerAt c = (s.current c).outer := if_neg fun hc => hd hc.1
          refine hs.resume rfl rfl (hs.noff c) ⟨hfits.fits, htracks.off, fun b _ hz => absurd hz hd,
            fun b hb hpos => ?_⟩ ?_ (hs.frames c)
          · rw [hfits.kept_eq]
            exact htracks.saved b (houter ▸ hb) hpos
          · rw [hp]
            refine ⟨fun hnone => ?_, his.frames⟩
            have hafter := his.outer (houter ▸ hnone)
            rw [htodo] at hafter
            exact absurd hafter hd
  · contradiction

/-- At the head of its loops the scheduler holds no lock. -/
theorem Inv.idle_depth (hs : Inv s) (hidle : s.idle c) : (s.current c).depth = 0 := by
  obtain ⟨hp, htodo, hframes⟩ := hidle
  have his := hs.is c
  rw [hp] at his
  have hbottom := his.bottom
  rw [htodo, hframes] at hbottom
  exact hbottom

/-- Every step keeps the invariant. -/
theorem Inv.step (hs : Inv s) {e : Event} (h : Interrupts.step s e = .ok t) : Inv t := by
  cases e with
  | run c =>
    simp only [Interrupts.step] at h
    split at h
    · contradiction
    · exact hs.exec ‹_› h
  | call c f => exact hs.call h
  | intr c on =>
    simp only [Interrupts.step] at h
    split_ifs at h with hcond
    obtain ⟨⟨htodo, -⟩, hdepth⟩ := hcond
    obtain rfl := Except.ok.inj h
    refine hs.resume (k := { s.cpus c with intr := on }) rfl rfl (hs.noff c) ?_ (hs.is c)
      (hs.frames c)
    rw [htodo, hdepth]
    exact ⟨trivial, fun hpos => absurd hpos (Nat.lt_irrefl 0), fun _ _ _ hne => absurd rfl hne,
      fun _ _ hpos => absurd hpos (Nat.lt_irrefl 0)⟩
  | wake c p =>
    simp only [Interrupts.step] at h
    split_ifs at h with hcond
    obtain rfl := Except.ok.inj h
    refine hs.setProcState .runnable fun c' hc' => ?_
    have hrun := hs.running c' p hc'
    rw [hrun] at hcond
    simp at hcond
  | trap c =>
    simp only [Interrupts.step] at h
    split_ifs at h with hintr
    obtain rfl := Except.ok.inj h
    have htracks := hs.tracks c
    have hdepth : (s.current c).depth = 0 := by
      by_contra hd
      have := htracks.off (Nat.pos_of_ne_zero hd)
      rw [hintr] at this
      contradiction
    rw [hintr, hdepth] at htracks
    refine hs.resume (k := { s.cpus c with intr := false }) rfl rfl (hs.noff c)
      (Tracks.none trivial fun _ => rfl) ?_ ?_
    · have his := hs.is c
      cases hp : (s.cpus c).proc with
      | none =>
        rw [hp] at his
        refine ⟨rfl, List.forall_mem_cons.2 ⟨his.outer, his.frames⟩, ?_⟩
        have hbottom := his.bottom
        rw [hdepth] at hbottom
        exact hbottom
      | some p =>
        rw [hp] at his
        refine ⟨fun _ => hdepth, List.forall_mem_cons.2 ⟨fun hnone => ?_, his.frames⟩⟩
        have hafter := his.outer hnone
        rw [hdepth] at hafter
        exact hafter
    · exact List.forall_mem_cons.2 ⟨fun i => ⟨htracks.fits, htracks.off, htracks.flag,
        fun _ _ hpos => absurd hpos (Nat.lt_irrefl 0)⟩, hs.frames c⟩
  | sret c =>
    simp only [Interrupts.step] at h
    split at h
    · contradiction
    · rename_i f fs hfs
      split_ifs at h with hcond
      obtain ⟨htodo, hdepth⟩ := hcond
      obtain rfl := Except.ok.inj h
      have hframes := hs.frames c
      rw [hfs] at hframes
      obtain ⟨hf, hframes⟩ := List.forall_mem_cons.1 hframes
      refine hs.resume (k := { s.cpus c with intr := true }) rfl rfl (hs.noff c) ?_ ?_ hframes
      · rw [hdepth]
        exact hf _
      · have his := hs.is c
        cases hp : (s.cpus c).proc with
        | none =>
          rw [hp] at his
          have hnone := his.frames
          have hbottom := his.bottom
          rw [hfs] at hnone hbottom
          obtain ⟨hnone, hrest⟩ := List.forall_mem_cons.1 hnone
          refine ⟨hnone, hrest, ?_⟩
          rw [hdepth]
          exact hbottom
        | some p =>
          rw [hp] at his
          have hnone := his.frames
          rw [hfs] at hnone
          obtain ⟨hnone, hrest⟩ := List.forall_mem_cons.1 hnone
          refine ⟨?_, hrest⟩
          rw [hdepth]
          exact hnone
  | look c p =>
    simp only [Interrupts.step] at h
    split_ifs at h with hidle
    obtain rfl := Except.ok.inj h
    have hdepth := hs.idle_depth hidle
    have his := hs.is c
    rw [hidle.1] at his
    refine hs.resume rfl rfl (hs.noff c) ?_ ?_ (hs.frames c)
    · rw [his.outer, hdepth]
      exact Tracks.none (by simp [look, Interrupts.acquire, Interrupts.release, Fits, Code])
        fun hpos => absurd hpos (Nat.lt_irrefl 0)
    · rw [hidle.1]
      refine ⟨his.outer, his.frames, ?_⟩
      rw [hidle.2.2, hdepth]
      rfl
  | loop c =>
    simp only [Interrupts.step] at h
    split_ifs at h with hidle
    obtain rfl := Except.ok.inj h
    have his := hs.is c
    rw [hidle.1] at his
    refine hs.resume (k := { s.cpus c with intr := true }) rfl rfl (hs.noff c) ?_ (hs.is c)
      (hs.frames c)
    rw [his.outer, hs.idle_depth hidle, hidle.2.1]
    exact Tracks.none trivial fun hpos => absurd hpos (Nat.lt_irrefl 0)

theorem Inv.init : Inv init where
  noff _ := rfl
  tracks _ := Tracks.none trivial fun hpos => absurd hpos (Nat.lt_irrefl 0)
  schedulers _ := ⟨⟨rfl, by simp [Interrupts.init], rfl⟩, by simp [Interrupts.init]⟩
  processes _ := ⟨⟨fun _ => rfl, by simp [Interrupts.init]⟩, by simp [Interrupts.init]⟩
  waits _ h := absurd rfl h
  switched _ _ := ⟨rfl, fun _ => Tracks.none
    (by simp [Interrupts.init, forkret, myproc, Interrupts.release, Fits, Code]) fun _ => rfl⟩
  running _ _ h := by contradiction
  unique _ _ _ h := by contradiction

theorem Inv.run {es : List Event} (h : Runs.run Interrupts.step Interrupts.init es = .ok s) :
    Inv s :=
  Runs.run_inv Inv (fun _ _ _ hs ht => hs.step ht) Inv.init h

/-- Where a panic can come from. -/
theorem step_panic {e : Event} {x : Panic} (h : step s e = .error (.panic x)) :
    ∃ c a rest, (s.current c).todo = a :: rest ∧ s.exec c rest a = .error (.panic x) := by
  have hblocked : (.error .blocked : Except Stop State) ≠ .error (.panic x) := by simp
  cases e with
  | run c =>
    simp only [step] at h
    split at h
    · exact absurd h hblocked
    · exact ⟨c, _, _, ‹_›, h⟩
  | call c f =>
    simp only [step] at h
    split at h
    · split at h
      · exact absurd h hblocked
      · contradiction
    · exact absurd h hblocked
  | sret c =>
    simp only [step] at h
    split at h
    · exact absurd h hblocked
    · split_ifs at h
      exact absurd h hblocked
  | _ =>
    simp only [step] at h
    split_ifs at h
    exact absurd h hblocked

/-- Where a panic of `pop_off` can come from. -/
theorem State.exec_panic {a : Act} {x : Panic} (h : s.exec c rest a = .error (.panic x))
    (hx : x = .popOff ∨ x = .popOffInterruptible) : a = popOff := by
  cases a with
  | popOff => rfl
  | take lk =>
    simp only [State.exec] at h
    split_ifs at h <;> rcases hx with rfl | rfl <;> simp at h
  | drop lk =>
    simp only [State.exec] at h
    split_ifs at h
    rcases hx with rfl | rfl <;> simp at h
  | sched st =>
    simp only [State.exec] at h
    split at h
    · simp at h
    · split_ifs at h <;> rcases hx with rfl | rfl <;> simp at h
  | pick p =>
    simp only [State.exec] at h
    split at h
    · simp at h
    · split_ifs at h
  | _ => contradiction

theorem Inv.no_panic (hs : Inv s) (e : Event) {x : Panic}
    (hx : x = .popOff ∨ x = .popOffInterruptible) :
    Interrupts.step s e ≠ .error (.panic x) := by
  intro h
  obtain ⟨c, a, rest, htodo, h⟩ := step_panic h
  obtain rfl := State.exec_panic h hx
  obtain ⟨k, hk, -⟩ := hs.popOff htodo
  simp only [State.exec, hk] at h
  contradiction

theorem State.le_resume_depth {p d : ℕ} (hp : k.proc = some p) (hd : d ≤ T.depth) :
    d ≤ ((s.resume c k T).procs p).thread.depth := by
  rw [State.resume_thread, if_pos hp]
  exact hd

/-- Only `pop_off` takes the depth of a process down. -/
theorem State.exec_depth {a : Act} (hp : (s.cpus c).proc = some p) (h : s.exec c rest a = .ok t)
    (ha : a ≠ popOff) : (s.procs p).thread.depth ≤ (t.procs p).thread.depth := by
  have hdepth : (s.procs p).thread.depth ≤ (s.current c).depth :=
    Nat.le_of_eq (congrArg Thread.depth (State.current_proc hp).symm)
  cases a with
  | popOff => contradiction
  | intrGet =>
    obtain rfl := Except.ok.inj h
    exact State.le_resume_depth hp hdepth
  | pushOff old =>
    obtain rfl := Except.ok.inj h
    exact State.le_resume_depth hp (Nat.le_succ_of_le hdepth)
  | take lk =>
    simp only [State.exec] at h
    split_ifs at h
    obtain rfl := Except.ok.inj h
    exact State.le_resume_depth hp hdepth
  | drop lk =>
    simp only [State.exec] at h
    split_ifs at h
    obtain rfl := Except.ok.inj h
    exact State.le_resume_depth hp hdepth
  | sched st =>
    simp only [State.exec, hp] at h
    split_ifs at h
    obtain rfl := Except.ok.inj h
    simp only [State.setProc, State.setProcState_thread]
    exact State.le_resume_depth hp hdepth
  | restore b =>
    obtain rfl := Except.ok.inj h
    exact State.le_resume_depth hp hdepth
  | pick q => simp [State.exec, hp] at h

/-- Where a thread leaves its outermost lock, it finds the flag recorded before. -/
theorem Inv.outermost (hs : Inv s) (hp : (s.cpus c).proc = some p)
    (h : Interrupts.step s (.run c) = .ok t) (hpos : 0 < (s.procs p).thread.depth)
    (hzero : (t.procs p).thread.depth = 0) {b : Bool} (hb : (s.procs p).thread.outer = some b) :
    (t.cpus c).proc = some p ∧ (t.cpus c).intr = b := by
  have hcur := State.current_proc hp
  have htracks := hs.tracks c
  simp only [Interrupts.step] at h
  split at h
  · contradiction
  · rename_i a rest htodo
    have ha : a = .popOff := by
      by_contra hne
      have := State.exec_depth hp h hne
      omega
    subst ha
    rw [htodo] at htracks
    obtain ⟨hd, hk⟩ : 0 < (s.current c).depth ∧ Code ((s.current c).depth - 1) rest := htracks.fits
    have hoff := htracks.off hd
    have hnoff := hs.noff c
    simp only [State.exec, Cpu.popOff_ok hoff (hnoff ▸ hd)] at h
    obtain rfl := Except.ok.inj h
    rw [State.resume_thread, if_pos hp] at hzero
    rw [State.resume_cpus, Function.update_self]
    refine ⟨hp, ?_⟩
    have hsaved : (s.cpus c).intena = b := htracks.saved b (by rw [hcur]; exact hb) hd
    dsimp only at hzero ⊢
    rw [hnoff, hzero, hsaved, hoff]
    cases b <;> rfl

end inv

/-- In every run, on any CPU: interrupts are off while `noff` is positive; `pop_off` does not panic;
and the thread of a process that leaves its outermost lock finds the interrupt-enable flag as it was
at the call by which it entered, which is on record whenever the thread holds a lock in code of its
own. -/
theorem interrupts_follow_thread (es : List Event) (s : State)
    (hrun : Runs.run step init es = .ok s) :
    (∀ c, 0 < (s.cpus c).noff → (s.cpus c).intr = false) ∧
      (∀ e, step s e ≠ .error (.panic .popOff) ∧
        step s e ≠ .error (.panic .popOffInterruptible)) ∧
      (∀ c p t b, (s.cpus c).proc = some p → step s (.run c) = .ok t →
        0 < (s.procs p).thread.depth → (t.procs p).thread.depth = 0 →
        (s.procs p).thread.outer = some b → (t.cpus c).proc = some p ∧ (t.cpus c).intr = b) ∧
      ∀ p, 0 < (s.procs p).thread.depth → (s.procs p).thread.todo = [] →
        (s.procs p).thread.outer ≠ none := by
  have hs := Inv.run hrun
  refine ⟨fun c hpos => (hs.tracks c).off (hs.noff c ▸ hpos), fun e => ⟨hs.no_panic e (.inl rfl),
    hs.no_panic e (.inr rfl)⟩, fun c p t b hp ht hpos hzero hb => hs.outermost hp ht hpos hzero hb,
    fun p hpos htodo hnone => ?_⟩
  have hafter := (hs.processes p).1.outer hnone
  rw [htodo] at hafter
  exact absurd hafter (Nat.ne_of_gt hpos)

/-- With `p->lock` held, the handler of an interrupt on the CPU 0 makes the process 0 runnable. -/
def wakeRun : List Event :=
  [.trap 0, .call 0 (.acquire (.proc 0)), .run 0, .run 0, .run 0, .wake 0 0,
    .call 0 (.release (.proc 0)), .run 0, .run 0, .sret 0]

/-- The process 0 starts on the CPU 0 with interrupts on, takes a lock and sleeps on it; it wakes up
on the CPU 1, where interrupts are off, and is about to leave the lock. -/
def sleepRun : List Event :=
  [.loop 0] ++ wakeRun ++ [.look 0 0] ++ List.replicate 9 (.run 0) ++
    [.call 0 (.acquire (.other 0))] ++ List.replicate 3 (.run 0) ++
    [.call 0 (.sleep (.other 0))] ++ List.replicate 14 (.run 0) ++ wakeRun ++
    [.look 1 0] ++ List.replicate 10 (.run 1) ++ [.call 1 (.release (.other 0)), .run 1]

theorem interrupts_follow_thread_sleepRun : ∃ s t, Runs.run step init sleepRun = .ok s ∧
    step s (.run 1) = .ok t ∧ (t.cpus 1).intr = true := by
  obtain ⟨s, hrun, t, ht, hp, hpos, hzero, hb⟩ : ∃ s, Runs.run step init sleepRun = .ok s ∧
      ∃ t, step s (.run 1) = .ok t ∧ (s.cpus 1).proc = some 0 ∧ 0 < (s.procs 0).thread.depth ∧
        (t.procs 0).thread.depth = 0 ∧ (s.procs 0).thread.outer = some true :=
    ⟨_, rfl, _, rfl, by decide, by decide, by decide, by decide⟩
  exact ⟨s, t, hrun, ht, ((interrupts_follow_thread _ s hrun).2.2.1 1 0 t true hp ht hpos hzero hb).2⟩

end Xv6.Interrupts
