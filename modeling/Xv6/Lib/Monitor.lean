import Mathlib.Logic.Function.Basic
import Mathlib.Data.Int.Notation
import Mathlib.Data.Nat.Notation
import Xv6.Lib.Runs

/-!
Monitors: data shared by any number of calls under one lock. A call takes the lock, runs turn
after turn of its code, and gives the lock up only to sleep on a channel or to return. Other
parties may act on the shared data from outside, with the lock (a short critical section) or
without it (a device).
-/
namespace Monitor
universe u
variable {σ ℓ κ ρ ε φ η : Type*}

/-- Where a call stands. -/
inductive Pc (κ : Type u) where
  /-- before its first acquisition of the lock -/
  | acquire
  | inside
  | asleep (chan : κ)
  /-- made runnable again inside `sleep`, about to take the lock back -/
  | awake
  | returned (r : ℤ)
  deriving DecidableEq, Repr

/-- What the code can rely on there. -/
inductive Stage where
  | waits
  | inside
  | returned (r : ℤ)

def Pc.stage : Pc κ → Stage
  | .acquire | .asleep _ | .awake => .waits
  | .inside => .inside
  | .returned r => .returned r

structure Call (ℓ : Type*) (κ : Type*) where
  loc : ℓ
  pc : Pc κ

/-- How a turn ends: the code goes on holding the lock, or gives it up. -/
inductive Next (κ : Type u) where
  | stay
  | sleep (chan : κ)
  | leave (r : ℤ)

def Next.pc : Next κ → Pc κ
  | .stay => .inside
  | .sleep chan => .asleep chan
  | .leave r => .returned r

/-- What a turn does; the channels in `wakes` are woken before it ends. -/
structure Turn (σ : Type*) (ℓ : Type*) (κ : Type*) where
  shared : σ
  loc : ℓ
  wakes : List κ
  next : Next κ

/-- The turns of a call from when it has the lock until it gives it up, at most `k` of them. Nobody
else changes the shared data under the lock meanwhile. -/
def critical (turn : σ → ℓ → Turn σ ℓ κ) : ℕ → σ → ℓ → Option (σ × ℓ × Next κ)
  | 0, _, _ => none
  | k + 1, s, l =>
    match (turn s l).next with
    | .stay => critical turn k (turn s l).shared (turn s l).loc
    | .sleep chan => some ((turn s l).shared, (turn s l).loc, .sleep chan)
    | .leave r => some ((turn s l).shared, (turn s l).loc, .leave r)

theorem critical_mono {turn : σ → ℓ → Turn σ ℓ κ} {k k' : ℕ} {s : σ} {l : ℓ}
    {r : σ × ℓ × Next κ} (h : critical turn k s l = some r) (hk : k ≤ k') :
    critical turn k' s l = some r := by
  induction k generalizing k' s l with
  | zero => cases h
  | succ k ih =>
    obtain ⟨k', rfl⟩ := Nat.exists_eq_add_of_lt hk
    rw [critical]
    rw [critical] at h
    cases hnext : (turn s l).next with
    | stay =>
      rw [hnext] at h
      exact ih h (Nat.le_add_right k k')
    | sleep chan =>
      rw [hnext] at h
      exact h
    | leave r' =>
      rw [hnext] at h
      exact h

inductive Stop (φ : Type u) where
  /-- the event cannot happen now -/
  | blocked
  | fault (e : φ)

/-- The code of a monitor. A request `ρ` gives the call `c` its local variables; a turn may read
whether the caller was killed; `locks` says which events from outside take the lock. -/
structure Code (σ : Type*) (ℓ : Type*) (κ : Type*) (ρ : Type*) (ε : Type*) (φ : Type*) where
  start : σ → ℕ → ρ → Except (Stop φ) (σ × ℓ)
  turn : σ → ℕ → ℓ → Bool → Except φ (Turn σ ℓ κ)
  outside : σ → ε → Except (Stop φ) (σ × List κ)
  locks : ε → Bool

/-- Keep a history beside the shared data: `note` adds what a turn of the call `c` did, `noteOut`
what an event from outside did. -/
def Code.observe (m : Code σ ℓ κ ρ ε φ) (note : η → ℕ → σ × ℓ → σ × ℓ → η)
    (noteOut : η → ε → σ → σ → η) : Code (σ × η) ℓ κ ρ ε φ where
  start s c q := (m.start s.1 c q).map fun (t, l) => ((t, s.2), l)
  turn s c l killed := (m.turn s.1 c l killed).map fun T =>
    { T with shared := (T.shared, note s.2 c (s.1, l) (T.shared, T.loc)) }
  outside s e := (m.outside s.1 e).map fun (t, ws) => ((t, noteOut s.2 e s.1 t), ws)
  locks := m.locks

structure State (σ : Type*) (ℓ : Type*) (κ : Type*) where
  shared : σ
  lock : Option ℕ
  call : ℕ → Option (Call ℓ κ)

/-- No call yet. -/
def init (x : σ) : State σ ℓ κ := ⟨x, none, fun _ => none⟩

inductive Event (ρ : Type*) (ε : Type*) where
  /-- a process makes a request; the number `c` names this call for good -/
  | start (c : ℕ) (q : ρ)
  | run (c : ℕ) (killed : Bool)
  /-- a sleeping caller is made runnable by a kill -/
  | kill (c : ℕ)
  | outside (e : ε)

section step
variable [DecidableEq κ]

def Call.wake (ws : List κ) (k : Call ℓ κ) : Call ℓ κ :=
  match k.pc with
  | .asleep chan => if chan ∈ ws then { k with pc := .awake } else k
  | _ => k

/-- The end of a turn of the call `c`. -/
def State.commit (s : State σ ℓ κ) (c : ℕ) (T : Turn σ ℓ κ) : State σ ℓ κ where
  shared := T.shared
  lock := match T.next with
    | .stay => s.lock
    | _ => none
  call := Function.update (fun d => (s.call d).map (Call.wake T.wakes)) c
    (some ⟨T.loc, T.next.pc⟩)

def Code.step (m : Code σ ℓ κ ρ ε φ) (s : State σ ℓ κ) :
    Event ρ ε → Except (Stop φ) (State σ ℓ κ)
  | .start c q =>
    match s.call c, m.start s.shared c q with
    | none, .ok (x, l) =>
      .ok { s with shared := x, call := Function.update s.call c (some ⟨l, .acquire⟩) }
    | none, .error e => .error e
    | some _, _ => .error .blocked
  | .run c killed =>
    match s.call c with
    | some ⟨l, .inside⟩ =>
      match m.turn s.shared c l killed with
      | .ok T => .ok (s.commit c T)
      | .error e => .error (.fault e)
    | some ⟨l, .acquire⟩ | some ⟨l, .awake⟩ =>
      if s.lock = none then
        .ok { s with lock := some c, call := Function.update s.call c (some ⟨l, .inside⟩) }
      else .error .blocked
    | _ => .error .blocked
  | .kill c =>
    match s.call c with
    | some ⟨l, .asleep _⟩ =>
      .ok { s with call := Function.update s.call c (some ⟨l, .awake⟩) }
    | _ => .error .blocked
  | .outside e =>
    if m.locks e = true ∧ s.lock ≠ none then .error .blocked
    else match m.outside s.shared e with
      | .ok (x, ws) =>
        .ok { s with shared := x, call := fun d => (s.call d).map (Call.wake ws) }
      | .error e => .error e

end step

/-- An invariant `S` of the shared data with an assertion `A` for each call, kept by the code.
`New` holds for the numbers no call has used. A call that is not inside must not mind what
others do; one that is inside has only to bear what comes without the lock. -/
structure Keeps (m : Code σ ℓ κ ρ ε φ) (S : σ → Prop) (A : σ → ℕ → Stage → ℓ → Prop)
    (New : σ → ℕ → Prop) : Prop where
  start : ∀ {x c q x' l}, S x → New x c → m.start x c q = .ok (x', l) →
    S x' ∧ A x' c .waits l ∧ (∀ d st k, d ≠ c → A x d st k → A x' d st k) ∧
      ∀ d, d ≠ c → New x d → New x' d
  start_ok : ∀ {x c q e}, S x → m.start x c q ≠ .error (.fault e)
  enter : ∀ {x c l}, S x → A x c .waits l → A x c .inside l
  turn_ok : ∀ {x c l} killed, S x → A x c .inside l → ∃ T, m.turn x c l killed = .ok T
  turn : ∀ {x c l killed T}, S x → A x c .inside l → m.turn x c l killed = .ok T →
    S T.shared ∧ A T.shared c T.next.pc.stage T.loc ∧
      (∀ d st k, d ≠ c → st ≠ .inside → A x d st k → A T.shared d st k) ∧
      ∀ d, d ≠ c → New x d → New T.shared d
  outside_ok : ∀ {x e f}, S x → m.outside x e ≠ .error (.fault f)
  outside : ∀ {x e x' ws}, S x → m.outside x e = .ok (x', ws) →
    S x' ∧ (∀ d st k, (m.locks e = true → st ≠ .inside) → A x d st k → A x' d st k) ∧
      ∀ d, New x d → New x' d

/-- The invariant of a whole state. -/
structure Inv (S : σ → Prop) (A : σ → ℕ → Stage → ℓ → Prop) (New : σ → ℕ → Prop)
    (s : State σ ℓ κ) : Prop where
  shared : S s.shared
  calls : ∀ c k, s.call c = some k → A s.shared c k.pc.stage k.loc
  holder : ∀ c k, s.call c = some k → k.pc = .inside → s.lock = some c
  new : ∀ c, s.call c = none → New s.shared c

section keeps
variable [DecidableEq κ] {m : Code σ ℓ κ ρ ε φ} {S : σ → Prop} {A : σ → ℕ → Stage → ℓ → Prop}
  {New : σ → ℕ → Prop} {s t : State σ ℓ κ} {c : ℕ}

@[simp] theorem Call.wake_loc (ws : List κ) (k : Call ℓ κ) : (k.wake ws).loc = k.loc := by
  unfold Call.wake
  split
  · split <;> rfl
  · rfl

@[simp] theorem Call.wake_stage (ws : List κ) (k : Call ℓ κ) :
    (k.wake ws).pc.stage = k.pc.stage := by
  unfold Call.wake
  split
  · rename_i chan hpc
    split
    · rw [hpc]
      rfl
    · rfl
  · rfl

@[simp] theorem Call.wake_nil : (Call.wake [] : Call ℓ κ → Call ℓ κ) = id := by
  funext k
  unfold Call.wake
  split
  · simp
  · rfl

omit [DecidableEq κ] in
theorem Pc.stage_inside {pc : Pc κ} : pc.stage = .inside ↔ pc = .inside := by
  cases pc <;> simp [Pc.stage]

variable {k : Call ℓ κ}

theorem Call.wake_inside {ws : List κ} : (k.wake ws).pc = .inside ↔ k.pc = .inside := by
  rw [← Pc.stage_inside, Call.wake_stage, Pc.stage_inside]

omit [DecidableEq κ] in
theorem Inv.init {x : σ} (hS : S x) (hnew : ∀ c, New x c) :
    Inv S A New (Monitor.init x : State σ ℓ κ) where
  shared := hS
  calls c k hk := by simp [Monitor.init] at hk
  holder c k hk := by simp [Monitor.init] at hk
  new c _ := hnew c

/-- A step that replaces the call `c` and may wake others. -/
theorem Inv.change (hinv : Inv S A New s) (hS : S t.shared) (hc : t.call c = some k)
    (hA : A t.shared c k.pc.stage k.loc) (hin : k.pc = .inside → t.lock = some c) (ws : List κ)
    (hothers : ∀ d, d ≠ c → t.call d = (s.call d).map (Call.wake ws))
    (hframe : ∀ d q, d ≠ c → s.call d = some q → A t.shared d q.pc.stage q.loc)
    (hlock : ∀ d q, d ≠ c → s.call d = some q → q.pc = .inside → t.lock = s.lock)
    (hnew : ∀ d, d ≠ c → New s.shared d → New t.shared d) : Inv S A New t where
  shared := hS
  calls d q hd := by
    by_cases hdc : d = c
    · subst hdc
      obtain rfl : k = q := Option.some.inj (hc.symm.trans hd)
      exact hA
    · obtain ⟨q₀, hq₀, rfl⟩ := Option.map_eq_some_iff.1 ((hothers d hdc).symm.trans hd)
      simpa using hframe d q₀ hdc hq₀
  holder d q hd hq := by
    by_cases hdc : d = c
    · subst hdc
      obtain rfl : k = q := Option.some.inj (hc.symm.trans hd)
      exact hin hq
    · obtain ⟨q₀, hq₀, rfl⟩ := Option.map_eq_some_iff.1 ((hothers d hdc).symm.trans hd)
      have hq₀in := Call.wake_inside.1 hq
      rw [hlock d q₀ hdc hq₀ hq₀in, hinv.holder d q₀ hq₀ hq₀in]
  new d hd := by
    by_cases hdc : d = c
    · subst hdc
      rw [hc] at hd
      contradiction
    · exact hnew d hdc (hinv.new d (by simpa [hothers d hdc] using hd))

omit [DecidableEq κ] in
/-- Only one call is inside. -/
theorem Inv.alone (hinv : Inv S A New s) {d : ℕ} {k q : Call ℓ κ} (hk : s.call c = some k)
    (hin : k.pc = .inside) (hq : s.call d = some q) (hdc : d ≠ c) : q.pc ≠ .inside := by
  intro hqin
  have hlock := hinv.holder c k hk hin
  rw [hinv.holder d q hq hqin] at hlock
  exact hdc (Option.some.inj hlock)

section
variable (hm : Keeps m S A New)
include hm

section
variable (hinv : Inv S A New s)
include hinv

theorem Inv.start {q : ρ} {x : σ} {l : ℓ} (hc : s.call c = none)
    (hx : m.start s.shared c q = .ok (x, l)) :
    Inv S A New
      { s with shared := x, call := Function.update s.call c (some ⟨l, .acquire⟩) } := by
  obtain ⟨hS, hA, hframe, hnew⟩ := hm.start hinv.shared (hinv.new c hc) hx
  exact hinv.change hS (Function.update_self ..) hA (fun hin => nomatch hin) []
    (fun d hd => by simp [hd]) (fun d k hd hk => hframe d _ _ hd (hinv.calls d k hk))
    (fun _ _ _ _ _ => rfl) hnew

theorem Inv.enter (hk : s.call c = some k) (hwaits : k.pc.stage = .waits) (hfree : s.lock = none) :
    Inv S A New
      { s with lock := some c, call := Function.update s.call c (some ⟨k.loc, .inside⟩) } := by
  have hA : A s.shared c .waits k.loc := hwaits ▸ hinv.calls c k hk
  refine hinv.change hinv.shared (Function.update_self ..) (hm.enter hinv.shared hA)
    (fun _ => rfl) [] (fun d hd => by simp [hd]) (fun d q _ hq => hinv.calls d q hq)
    (fun d q _ hq hin => ?_) (fun _ _ h => h)
  rw [hinv.holder d q hq hin] at hfree
  contradiction

omit hm in
theorem Inv.kill {l : ℓ} {chan : κ} (hk : s.call c = some ⟨l, .asleep chan⟩) :
    Inv S A New { s with call := Function.update s.call c (some ⟨l, .awake⟩) } :=
  hinv.change hinv.shared (Function.update_self ..) (hinv.calls c ⟨l, .asleep chan⟩ hk)
    (fun hin => nomatch hin) [] (fun d hd => by simp [hd]) (fun d q _ hq => hinv.calls d q hq) (fun _ _ _ _ _ => rfl)
    (fun _ _ h => h)

theorem Inv.turn {l : ℓ} {killed : Bool} {T : Turn σ ℓ κ} (hk : s.call c = some ⟨l, .inside⟩)
    (hT : m.turn s.shared c l killed = .ok T) : Inv S A New (s.commit c T) := by
  obtain ⟨hS, hA, hframe, hnew⟩ := hm.turn hinv.shared (hinv.calls c _ hk) hT
  have hc : (s.commit c T).call c = some ⟨T.loc, T.next.pc⟩ := by simp [State.commit]
  refine hinv.change hS hc hA (fun hin => ?_) T.wakes (fun d hd => ?_) (fun d q hd hq => ?_)
    (fun d q hd hq hin => ?_) hnew
  · have hheld := hinv.holder c _ hk rfl
    cases hnext : T.next <;> simp_all [Next.pc, State.commit]
  · simp [State.commit, hd]
  · have hout := hinv.alone hk rfl hq hd
    exact hframe d _ _ hd (fun hst => hout (Pc.stage_inside.1 hst)) (hinv.calls d q hq)
  · exact absurd hin (hinv.alone hk rfl hq hd)

theorem Inv.outside {e : ε} {x : σ} {ws : List κ} (hfree : ¬ (m.locks e = true ∧ s.lock ≠ none))
    (hx : m.outside s.shared e = .ok (x, ws)) :
    Inv S A New { s with shared := x, call := fun d => (s.call d).map (Call.wake ws) } := by
  obtain ⟨hS, hframe, hnew⟩ := hm.outside hinv.shared hx
  refine ⟨hS, fun d q hd => ?_, fun d q hd hin => ?_, fun d hd => ?_⟩
  · obtain ⟨q₀, hq₀, rfl⟩ := Option.map_eq_some_iff.1 hd
    rw [Call.wake_loc, Call.wake_stage]
    refine hframe d _ _ (fun hlocks hst => hfree ⟨hlocks, ?_⟩) (hinv.calls d q₀ hq₀)
    rw [hinv.holder d q₀ hq₀ (Pc.stage_inside.1 hst)]
    exact Option.some_ne_none d
  · obtain ⟨q₀, hq₀, rfl⟩ := Option.map_eq_some_iff.1 hd
    exact hinv.holder d q₀ hq₀ (Call.wake_inside.1 hin)
  · exact hnew d (hinv.new d (by simpa using hd))

/-- Every step keeps the invariant. -/
theorem Inv.step {e : Event ρ ε} (ht : m.step s e = .ok t) : Inv S A New t := by
  cases e with
  | start c q =>
    simp only [Code.step] at ht
    split at ht
    · obtain rfl := Except.ok.inj ht
      exact hinv.start hm ‹_› ‹_›
    · contradiction
    · contradiction
  | run c killed =>
    simp only [Code.step] at ht
    split at ht
    · split at ht
      · obtain rfl := Except.ok.inj ht
        exact hinv.turn hm ‹_› ‹_›
      · contradiction
    · rename_i l hk
      split at ht
      · obtain rfl := Except.ok.inj ht
        exact hinv.enter hm hk rfl ‹_›
      · contradiction
    · rename_i l hk
      split at ht
      · obtain rfl := Except.ok.inj ht
        exact hinv.enter hm hk rfl ‹_›
      · contradiction
    · contradiction
  | kill c =>
    simp only [Code.step] at ht
    split at ht
    · obtain rfl := Except.ok.inj ht
      exact hinv.kill ‹_›
    · contradiction
  | outside e =>
    simp only [Code.step] at ht
    split at ht
    · contradiction
    · split at ht
      · obtain rfl := Except.ok.inj ht
        exact hinv.outside hm ‹_› ‹_›
      · contradiction

omit hinv in
omit hm in
/-- What every start, turn and event from outside does to the shared data, every step does. -/
theorem Code.step_shared {R : σ → σ → Prop} (hrefl : R s.shared s.shared)
    (hstart : ∀ {c q x l}, m.start s.shared c q = .ok (x, l) → R s.shared x)
    (hturn : ∀ {c l killed T}, s.call c = some ⟨l, .inside⟩ →
      m.turn s.shared c l killed = .ok T → R s.shared T.shared)
    (hout : ∀ {e x ws}, m.outside s.shared e = .ok (x, ws) → R s.shared x) {e : Event ρ ε}
    (ht : m.step s e = .ok t) : R s.shared t.shared := by
  cases e with
  | start c q =>
    simp only [Code.step] at ht
    split at ht
    · obtain rfl := Except.ok.inj ht
      exact hstart ‹_›
    · contradiction
    · contradiction
  | run c killed =>
    simp only [Code.step] at ht
    split at ht
    · split at ht
      · obtain rfl := Except.ok.inj ht
        exact hturn ‹_› ‹_›
      · contradiction
    · split at ht
      · obtain rfl := Except.ok.inj ht
        exact hrefl
      · contradiction
    · split at ht
      · obtain rfl := Except.ok.inj ht
        exact hrefl
      · contradiction
    · contradiction
  | kill c =>
    simp only [Code.step] at ht
    split at ht
    · obtain rfl := Except.ok.inj ht
      exact hrefl
    · contradiction
  | outside e =>
    simp only [Code.step] at ht
    split at ht
    · contradiction
    · split at ht
      · obtain rfl := Except.ok.inj ht
        exact hout ‹_›
      · contradiction

/-- No step faults. -/
theorem Inv.no_fault (e : Event ρ ε) (f : φ) : m.step s e ≠ .error (.fault f) := by
  intro herr
  cases e with
  | start c q =>
    simp only [Code.step] at herr
    split at herr
    · contradiction
    · obtain rfl := Except.error.inj herr
      exact hm.start_ok hinv.shared ‹_›
    · simp at herr
  | run c killed =>
    simp only [Code.step] at herr
    split at herr
    · rename_i l hk
      obtain ⟨T, hT⟩ := hm.turn_ok killed hinv.shared (hinv.calls c _ hk)
      rw [hT] at herr
      contradiction
    · split at herr <;> simp at herr
    · split at herr <;> simp at herr
    · simp at herr
  | kill c =>
    simp only [Code.step] at herr
    split at herr <;> simp at herr
  | outside e =>
    simp only [Code.step] at herr
    split at herr
    · simp at herr
    · split at herr
      · contradiction
      · obtain rfl := Except.error.inj herr
        exact hm.outside_ok hinv.shared ‹_›

end

/-- The invariant holds after every run from a state without calls. -/
theorem Keeps.run {x : σ} (hS : S x) (hnew : ∀ c, New x c) {es : List (Event ρ ε)}
    (hrun : Runs.run m.step (Monitor.init x) es = .ok s) : Inv S A New s :=
  Runs.run_inv (Inv S A New) (fun _ _ _ hinv ht => hinv.step hm ht) (Inv.init hS hnew) hrun

end

end keeps

end Monitor
