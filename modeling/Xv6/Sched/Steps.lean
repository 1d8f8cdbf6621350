import Xv6.Sched.Switch

/-! Every action of an active thread keeps the invariant, and none of them fails. -/
namespace Xv6.Sched
open Act

/-- Some threads own the locks and know about the processes so that all is in order. -/
def Good (s : State) : Prop := ∃ held info, Inv s held info

section steps
variable {s : State} {held : ℕ → List Lock} {info : Thread → Local} {c j p : ℕ} {t : Thread}
  {x : Proc} {M : Local} {code rest : List Act} {ok : Bool}

theorem stateOk_running (haway : M.away = none) (h : (s.proc p).state = .running) :
    StateOk s p M := by
  rwa [StateOk, haway]

theorem childOk_none (h : M.child = none) : ChildOk s info p M := by
  intro k st hk
  simp [h] at hk

theorem kidOk_none (hkid : M.kid = none) (hkidless : M.kidless = 0) : KidOk s p M := by
  intro _
  simp [hkid, hkidless]

theorem Active.running (ha : Active s held info c (.proc p))
    (haway : (info (.proc p)).away = none) : (s.proc p).state = .running := by
  have h := (ha.proc p rfl).2.2
  rwa [StateOk, haway] at h

section
variable (h : Inv s held info)
include h

/-- A change of an entry that concerns neither its parent nor a `fork` in progress. -/
theorem Inv.touch (ha : Active s held info c t) (he : Edit s t (info t) j x)
    (hparent : x.parent = (s.proc j).parent) (hused : (s.proc j).state = .used → x.state = .used)
    (hself : t = .proc j → x.state = (s.proc j).state)
    (hsafe : Safe s.nproc s.initproc t (info t) code) :
    Inv ((s.setProc j x).setTodo c code) held info := by
  have hpar : ∀ k, ((s.setProc j x).proc k).parent = (s.proc k).parent := by
    intro k
    by_cases hk : k = j
    · subst hk
      rw [setProc_proc_self, hparent]
    · rw [setProc_proc_ne hk]
  have hmove : Inv ((s.setProc j x).setTodo c code) held (Function.update info t (info t)) := by
    refine h.advance ha he rfl ?_ ?_ ?_ ?_ ?_ hsafe
    · intro p hp
      have hstate := (ha.proc p hp).2.2
      have hsame : ((s.setProc j x).proc p).state = (s.proc p).state := by
        by_cases hpj : p = j
        · subst hpj
          rw [setProc_proc_self, hself hp]
        · rw [setProc_proc_ne hpj]
      unfold StateOk at hstate ⊢
      rwa [hsame]
    · exact fun d hd => (ha.sched d hd).2.2
    · rintro p rfl k st hk
      obtain ⟨h1, h2, h3, h4⟩ := h.child p k st hk
      refine ⟨h1, ?_, (hpar k).trans h3, h4⟩
      by_cases hkj : k = j
      · subst hkj
        rw [setProc_proc_self]
        exact hused h2
      · rwa [setProc_proc_ne hkj]
    · exact fun k st hk => Or.inl ⟨st, hk⟩
    · rintro p rfl hw
      simp only [hpar]
      exact h.kid p hw
  rwa [Function.update_eq_self] at hmove

section
variable (ha : Active s held info c (.proc p))
include ha

/-- A change of an entry by a process that is not about to leave the CPU. -/
theorem Inv.modify (he : Edit s (.proc p) (info (.proc p)) j x) (hrun : (s.proc p).state = .running)
    (hj : p ≠ j) (hheld : M.held = (info (.proc p)).held) (haway : M.away = none)
    (hchild : ChildOk (s.setProc j x) info p M) (hfrom : ∀ k st, M.child = some (k, st) →
      (∃ st', (info (.proc p)).child = some (k, st')) ∨ (s.proc k).state ≠ .used)
    (hkid : KidOk (s.setProc j x) p M) (hsafe : Safe s.nproc s.initproc (.proc p) M code) :
    Good ((s.setProc j x).setTodo c code) := by
  refine ⟨held, _, h.advance ha he hheld ?_ (by simp) ?_ hfrom ?_ hsafe⟩
  · intro q hq
    obtain rfl := Thread.proc.inj hq
    exact stateOk_running haway (by rwa [setProc_proc_ne hj])
  · intro q hq
    obtain rfl := Thread.proc.inj hq
    exact hchild
  · intro q hq
    obtain rfl := Thread.proc.inj hq
    exact hkid

/-- The process leaves `RUNNING`. -/
theorem Inv.leaveRunning (haway : (info (.proc p)).away = none)
    (hl : .proc p ∈ (info (.proc p)).held) (hx : Left x.state)
    (hparent : x.parent = (s.proc p).parent)
    (hzombie : x.state = .zombie → p ≠ s.initproc ∧ ∀ k, (s.proc k).parent ≠ some p)
    (hsafe : Safe s.nproc s.initproc (.proc p) { info (.proc p) with away := some x.state } code) :
    Good ((s.setProc p x).setTodo c code) := by
  have hpar : ∀ k, ((s.setProc p x).proc k).parent = (s.proc k).parent := by
    intro k
    by_cases hk : k = p
    · subst hk
      rw [setProc_proc_self, hparent]
    · rw [setProc_proc_ne hk]
  have hrun := ha.running haway
  refine ⟨held, _, h.advance ha (.leave rfl haway hl hx hparent hzombie) ?_ ?_ (by simp) ?_ ?_ ?_
    hsafe⟩
  · rfl
  · intro q hq
    obtain rfl := Thread.proc.inj hq
    exact ⟨congrArg Proc.state setProc_proc_self, hl, hx⟩
  · intro q hq k st hk
    obtain rfl := Thread.proc.inj hq
    obtain ⟨h1, h2, h3, h4⟩ := h.child p k st hk
    refine ⟨h1, ?_, (hpar k).trans h3, h4⟩
    have hkp : k ≠ p := by
      rintro rfl
      simp [hrun] at h2
    rwa [setProc_proc_ne hkp]
  · exact fun k st hk => Or.inl ⟨st, hk⟩
  · intro q hq hw
    obtain rfl := Thread.proc.inj hq
    simp only [hpar]
    exact h.kid p hw

omit ha in
/-- `wakeup` at one entry. -/
theorem Inv.wakeupAt (ha : Active s held info c t) {chan : Chan} (hl : .proc j ∈ (info t).held)
    (ht : t ≠ .proc j) (hsafe : Safe s.nproc s.initproc t (info t) code) :
    Good ((s.setProc j ((s.proc j).wakeup chan)).setTodo c code) := by
  refine ⟨held, info, ?_⟩
  unfold Proc.wakeup
  split_ifs with hchan
  · refine h.touch ha (.wake hl hchan.1 rfl rfl) rfl ?_ (fun heq => absurd heq ht) hsafe
    intro hused
    simp [hchan.1] at hused
  · exact h.touch ha .refl rfl id (fun _ => rfl) hsafe

omit ha in
/-- `kill` at the entry it was looking for. The caller itself is running. -/
theorem Inv.killAt (ha : Active s held info c t) (hl : .proc j ∈ (info t).held)
    (haway : (info t).away = none) (hsafe : Safe s.nproc s.initproc t (info t) code) :
    Good ((s.setProc j (s.proc j).kill).setTodo c code) := by
  refine ⟨held, info, ?_⟩
  unfold Proc.kill
  split_ifs with hsleep
  · refine h.touch ha (.wake hl hsleep rfl rfl) rfl ?_ ?_ hsafe
    · intro hused
      simp [hsleep] at hused
    · rintro rfl
      simp [ha.running haway] at hsleep
  · exact h.touch ha (.same rfl rfl rfl) rfl id (fun _ => rfl) hsafe

/-- `allocproc` takes a free entry. -/
theorem Inv.allocAt {pid : Pid} (hj : j < s.nproc) (hheld : (info (.proc p)).held = [.proc j])
    (haway : (info (.proc p)).away = none) (hfree : (s.proc j).state = .unused)
    (hsafe : Safe s.nproc s.initproc (.proc p) {} rest) :
    Good ((s.setProc j { s.proc j with pid := pid, state := .used }).setTodo c
      (allocMemory p j :: rest)) := by
  have hrun := ha.running haway
  have hpj : p ≠ j := by
    rintro rfl
    simp [hfree] at hrun
  refine h.modify (M := { held := [.proc j], child := some (j, .bare) }) ha
    (.alloc (by simp [hheld]) hfree rfl rfl) hrun hpj hheld.symm rfl ?_ ?_
    (kidOk_none rfl rfl) (.allocMemory rfl rfl rfl hsafe)
  · intro k st hk
    obtain ⟨rfl, rfl⟩ : j = k ∧ Stage.bare = st := by simpa using hk
    exact ⟨hj, by simp, by simpa using (h.family.unused j hfree).1, by simp⟩
  · intro k st hk
    obtain ⟨rfl, -⟩ : j = k ∧ Stage.bare = st := by simpa using hk
    exact Or.inr (by simp [hfree])

omit ha in
/-- The next pid is no concern of the invariant. -/
theorem Inv.nextpid (pid : Pid) : Inv { s with nextpid := pid } held info where
  lock := h.lock
  noff := h.noff
  nodup := h.nodup
  cpu d := (h.cpu d).frame rfl rfl rfl rfl rfl rfl rfl rfl fun _ _ => ⟨rfl, rfl, rfl⟩
  single := h.single
  off k hk := (h.off k hk).frame rfl rfl rfl rfl rfl
  child := h.child
  unique := h.unique
  kid := h.kid
  family := ⟨h.family.parent, h.family.child, h.family.init, h.family.unused, h.family.bound⟩

/-- `freeproc` of a child that did not get its memory. -/
theorem Inv.abandon {st : Stage} (hheld : (info (.proc p)).held = [.proc j])
    (haway : (info (.proc p)).away = none) (hchild : (info (.proc p)).child = some (j, st))
    (hst : st ≠ .adopted) (hsafe : Safe s.nproc s.initproc (.proc p) {} rest) :
    Good ((s.setProc j {}).setTodo c (.release (.proc j) :: ret (.fork none) :: rest)) := by
  have hrun := ha.running haway
  have hpj : p ≠ j := by
    rintro rfl
    simp [(h.child p p st hchild).2.1] at hrun
  exact h.modify (M := { held := [.proc j] }) ha
    (.abandon p st rfl hchild hst (by simp [hheld]) rfl) hrun hpj hheld.symm rfl
    (childOk_none rfl) (by simp) (kidOk_none rfl rfl)
    (.release (by simp) (by simp) (.ret (by simpa [Local.drop] using hsafe)))

/-- `allocproc` has memory for the entry. -/
theorem Inv.allocMemory (hheld : (info (.proc p)).held = [.proc j])
    (haway : (info (.proc p)).away = none) (hchild : (info (.proc p)).child = some (j, .bare))
    (hsafe : Safe s.nproc s.initproc (.proc p) {} rest) :
    Good (((s.setProc j { s.proc j with memory := true }).setCtx (.proc j)
      (some [forkret])).setTodo c (copyMemory p j :: rest)) := by
  have hrun := ha.running haway
  obtain ⟨h1, h2, h3, -⟩ := h.child p j .bare hchild
  have hpj : p ≠ j := by
    rintro rfl
    simp [h2] at hrun
  have hself : Function.update info (.proc j) { held := [.proc j] } (.proc p) = info (.proc p) :=
    Function.update_of_ne (by simpa using hpj) _ _
  have hact : Active (s.setCtx (.proc j) (some [forkret])) held
      (Function.update info (.proc j) { held := [.proc j] }) c (.proc p) := by
    refine ⟨ha.who, by rw [hself]; exact ha.held, by simp, ?_, by rw [hself]; exact ha.safe⟩
    intro q hq
    obtain ⟨h4, h5, h6⟩ := ha.proc q hq
    rw [hself]
    exact ⟨h4, by simpa using h5, h6⟩
  refine (h.provision h2).modify (M := { held := [.proc j], child := some (j, .made) }) hact
    (.same rfl rfl rfl) hrun hpj (by rw [hself, hheld]) rfl ?_ ?_ (kidOk_none rfl rfl)
    (.copyMemory rfl rfl rfl hsafe)
  · intro k st hk
    obtain ⟨rfl, rfl⟩ : j = k ∧ Stage.made = st := by simpa using hk
    exact ⟨h1, by simpa using h2, by simpa using h3, by simp⟩
  · intro k st hk
    obtain ⟨rfl, -⟩ : j = k ∧ Stage.made = st := by simpa using hk
    exact Or.inl ⟨.bare, by rw [hself, hchild]⟩

/-- `fork` sets the parent of the child. -/
theorem Inv.setParent (hheld : (info (.proc p)).held = [.wait])
    (haway : (info (.proc p)).away = none) (hchild : (info (.proc p)).child = some (j, .made))
    (hsafe : Safe s.nproc s.initproc (.proc p)
      { info (.proc p) with child := some (j, .adopted), kid := none, kidless := 0 } code) :
    Good ((s.setProc j { s.proc j with parent := some p }).setTodo c code) := by
  have hrun := ha.running haway
  obtain ⟨h1, h2, -, h4⟩ := h.child p j .made hchild
  have hpj : p ≠ j := by
    rintro rfl
    simp [h2] at hrun
  refine h.modify
    (M := { info (.proc p) with child := some (j, .adopted), kid := none, kidless := 0 }) ha
    (.adopt p rfl haway hchild (by simp [hheld]) rfl rfl) hrun hpj rfl haway ?_ ?_
    (kidOk_none rfl rfl) hsafe
  · intro k st hk
    obtain ⟨rfl, rfl⟩ : j = k ∧ Stage.adopted = st := by simpa using hk
    exact ⟨h1, by simpa using h2, by simp, fun _ => h4 (by simp)⟩
  · intro k st hk
    obtain ⟨rfl, -⟩ : j = k ∧ Stage.adopted = st := by simpa using hk
    exact Or.inl ⟨.made, hchild⟩

/-- `fork` makes the child runnable. -/
theorem Inv.startChild (hheld : (info (.proc p)).held = [.proc j])
    (haway : (info (.proc p)).away = none) (hchild : (info (.proc p)).child = some (j, .adopted))
    (hsafe : Safe s.nproc s.initproc (.proc p) { info (.proc p) with child := none } code) :
    Good ((s.setProc j { s.proc j with state := .runnable }).setTodo c code) := by
  have hrun := ha.running haway
  have hpj : p ≠ j := by
    rintro rfl
    simp [(h.child p p _ hchild).2.1] at hrun
  refine h.modify (M := { info (.proc p) with child := none }) ha
    (.start p rfl hchild (by simp [hheld]) rfl rfl) hrun hpj rfl haway (childOk_none rfl) (by simp)
    ?_ hsafe
  intro hw
  simp [hheld] at hw

/-- `reparent` at a child. -/
theorem Inv.reparentAt (hheld : (info (.proc p)).held = [.wait])
    (haway : (info (.proc p)).away = none) (hchild : (info (.proc p)).child = none)
    (hinit : p ≠ s.initproc) (hj : j ≤ (info (.proc p)).kidless) (hpar : (s.proc j).parent = some p)
    (hsafe : Safe s.nproc s.initproc (.proc p) { held := [.wait], kidless := s.nproc } rest) :
    Good ((s.setProc j { s.proc j with parent := some s.initproc }).setTodo c
      (wakeup (.proc s.initproc) ++ reparentFrom p (j + 1) :: rest)) := by
  have hrun := ha.running haway
  have hsafe' : Safe s.nproc s.initproc (.proc p) { held := [.wait], kidless := j + 1 }
      (wakeup (.proc s.initproc) ++ reparentFrom p (j + 1) :: rest) :=
    .wakeupFrom (by simp [Local.NoProc]) rfl (.reparentFrom rfl rfl rfl hinit (by simp) hsafe)
  refine ⟨held, _, h.advance ha (.reparent p rfl hchild hpar (by simp [hheld]) rfl rfl) hheld.symm
    ?_ (by simp) ?_ (by simp) ?_ hsafe'⟩
  · intro q hq
    obtain rfl := Thread.proc.inj hq
    refine stateOk_running rfl ?_
    by_cases hpj : p = j
    · subst hpj
      simpa using hrun
    · rwa [setProc_proc_ne hpj]
  · exact fun q _ => childOk_none rfl
  · intro q hq _
    obtain rfl := Thread.proc.inj hq
    refine ⟨by simp, fun k hk => ?_⟩
    have hkj : k ≤ j := by simpa [Nat.lt_succ_iff] using hk
    rcases Nat.lt_or_eq_of_le hkj with hlt | rfl
    · rw [setProc_proc_ne (Nat.ne_of_lt hlt)]
      exact (h.kid p (by simp [hheld])).2 k (Nat.lt_of_lt_of_le hlt hj)
    · simpa using hinit.symm

/-- `wait` reaps a child. -/
theorem Inv.reap {r : Result} (hheld : (info (.proc p)).held = [.proc j, .wait])
    (haway : (info (.proc p)).away = none) (hkid : (info (.proc p)).kid = some j)
    (hzombie : (s.proc j).state = .zombie) (hsafe : Safe s.nproc s.initproc (.proc p) {} rest) :
    Good ((s.setProc j {}).setTodo c (.release (.proc j) :: .release .wait :: ret r :: rest)) := by
  have hrun := ha.running haway
  have hpj : p ≠ j := by
    rintro rfl
    simp [hzombie] at hrun
  refine h.modify (M := { held := [.proc j, .wait] }) ha
    (.reap p rfl hkid (by simp [hheld]) (by simp [hheld]) hzombie rfl) hrun hpj hheld.symm rfl
    (childOk_none rfl) (by simp) (kidOk_none rfl rfl) ?_
  refine .release (by simp) (by simp) (.release (by simp [Local.drop]) (by simp) (.ret ?_))
  simpa [Local.drop] using hsafe

/-- A process with no child in the making forgets what it knows about its children. -/
theorem Inv.forget {ls : List Lock} (hheld : (info (.proc p)).held = ls)
    (haway : (info (.proc p)).away = none) (hchild : (info (.proc p)).child = none)
    (hsafe : Safe s.nproc s.initproc (.proc p) { held := ls } code) : Good (s.setTodo c code) :=
  ⟨held, _, h.learn ha hheld.symm haway.symm hchild.symm (fun _ _ => kidOk_none rfl rfl) hsafe⟩

/-- `wait` or `reparent` has looked at one more entry, which is no child. -/
theorem Inv.lookedAt (hheld : (info (.proc p)).held = [.wait])
    (haway : (info (.proc p)).away = none) (hchild : (info (.proc p)).child = none) {k : ℕ}
    (hk : ∀ i, i < k → i < (info (.proc p)).kidless ∨ (s.proc i).parent ≠ some p)
    (hsafe : Safe s.nproc s.initproc (.proc p) { held := [.wait], kidless := k } code) :
    Good (s.setTodo c code) := by
  refine ⟨held, _, h.learn ha hheld.symm haway.symm hchild.symm ?_ hsafe⟩
  intro q hq _
  obtain rfl := Thread.proc.inj hq
  refine ⟨by simp, fun i hi => ?_⟩
  rcases hk i hi with hlt | hne
  · exact (h.kid p (by simp [hheld])).2 i hlt
  · exact hne

/-- The action does not fail and leaves all in order. -/
def Fine (r : Except Fault State) : Prop := ∃ s', r = .ok s' ∧ Good s'

omit ha in
omit h in
theorem Good.fine (h : Good s) : Fine (.ok s) := ⟨s, rfl, h⟩

omit ha in
theorem Inv.act_acquire (ha : Active s held info c t) {l : Lock} (hl : l ∉ (info t).held)
    (hsafe : Safe s.nproc s.initproc t ((info t).take l) rest) :
    Fine (s.act c ok (.acquire l) rest) := by
  simp only [State.act]
  cases hlock : s.lock l with
  | none => exact Good.fine ⟨_, _, h.acquire ha hlock hsafe⟩
  | some d =>
    have hd : d ≠ c := by
      rintro rfl
      rw [h.lock, ha.held] at hlock
      exact hl hlock
    simp only [hd, ↓reduceIte]
    exact Good.fine ⟨held, info, h⟩

omit ha in
theorem Inv.act_release (ha : Active s held info c t) {l : Lock} (hl : l ∈ (info t).held)
    (haway : (info t).away ≠ none → ∀ p, t = .proc p → l ≠ .proc p)
    (hsafe : Safe s.nproc s.initproc t ((info t).drop l) rest) :
    Fine (s.act c ok (.release l) rest) := by
  have hlock : s.lock l = some c := by rwa [h.lock, ha.held]
  have hnoff : ¬s.noff c < 1 := by
    rw [h.noff, ha.held, Nat.lt_one_iff, List.length_eq_zero_iff]
    exact List.ne_nil_of_mem hl
  simp only [State.act, hlock, ne_eq, not_true, ↓reduceIte, hnoff]
  exact Good.fine ⟨_, _, h.release ha hl haway hsafe⟩

theorem Inv.act_sched {st : ProcState} (hheld : (info (.proc p)).held = [.proc p])
    (haway : (info (.proc p)).away = some st) (hsafe : st ≠ .zombie →
      Safe s.nproc s.initproc (.proc p) { info (.proc p) with away := none } rest) :
    Fine (s.act c ok .sched rest) := by
  obtain ⟨hcur, -, hstate⟩ := ha.proc p rfl
  rw [StateOk, haway] at hstate
  have hlock : s.lock (.proc p) = some c := by
    rw [h.lock, ha.held, hheld]
    simp
  have hnoff : s.noff c = 1 := by rw [h.noff, ha.held, hheld]; rfl
  have hrun : (s.proc p).state ≠ .running := by
    rw [hstate.1]
    rcases hstate.2.2 with rfl | rfl | rfl <;> simp
  simp only [State.act, hcur, hlock, hnoff, ne_eq, not_true, ↓reduceIte, hrun]
  exact Good.fine ⟨_, _, h.save ha hheld haway hsafe⟩

theorem Inv.act_waitFrom {addr : ℕ} {havekids : Bool} (hheld : (info (.proc p)).held = [.wait])
    (haway : (info (.proc p)).away = none) (hchild : (info (.proc p)).child = none)
    (hkids : havekids = false → j ≤ (info (.proc p)).kidless)
    (hsafe : Safe s.nproc s.initproc (.proc p) {} rest) :
    Fine (s.act c ok (.waitFrom p addr j havekids) rest) := by
  simp only [State.act]
  split_ifs with hj hpar hnone
  · refine Good.fine ⟨held, _, h.learn (M := { held := [.wait], kid := some j }) ha hheld.symm
      haway.symm hchild.symm ?_ ?_⟩
    · intro q hq _
      obtain rfl := Thread.proc.inj hq
      refine ⟨fun k hk => ?_, by simp⟩
      obtain rfl : j = k := by simpa using hk
      exact hpar
    · exact .acquire (by simp) (.waitAt rfl rfl rfl rfl hsafe)
  · refine Good.fine (h.lookedAt (k := if havekids = false then j + 1 else 0) ha hheld haway hchild
      ?_ (.waitFrom rfl rfl rfl (by simp_all) hsafe))
    intro i hi
    split_ifs at hi with hk
    · rcases Nat.lt_or_eq_of_le (Nat.lt_succ_iff.mp hi) with hlt | rfl
      · exact Or.inl (Nat.lt_of_lt_of_le hlt (hkids hk))
      · exact Or.inr hpar
    · exact absurd hi (Nat.not_lt_zero i)
  · exact Good.fine (h.forget ha hheld haway hchild
      (.release (by simp) (by simp) (.ret (by simpa [Local.drop] using hsafe))))
  · refine Good.fine (h.forget ha hheld haway hchild (safe_sleep rfl (by simp) rfl ?_))
    exact .waitFrom (by simp [Local.take]) rfl rfl (by simp) hsafe

theorem Inv.act_waitAt {addr : ℕ} (hheld : (info (.proc p)).held = [.proc j, .wait])
    (haway : (info (.proc p)).away = none) (hchild : (info (.proc p)).child = none)
    (hkid : (info (.proc p)).kid = some j) (hsafe : Safe s.nproc s.initproc (.proc p) {} rest) :
    Fine (s.act c ok (.waitAt p addr j) rest) := by
  simp only [State.act]
  split_ifs with hz hcopy
  · refine Good.fine (h.forget ha hheld haway hchild ?_)
    refine .release (by simp) (by simp) (.release (by simp [Local.drop]) (by simp) (.ret ?_))
    simpa [Local.drop] using hsafe
  · exact Good.fine (h.reap ha hheld haway hkid hz hsafe)
  · refine Good.fine (h.forget ha hheld haway hchild (.release (by simp) (by simp) ?_))
    exact .waitFrom (by simp [Local.drop]) rfl rfl (by simp) hsafe

theorem Inv.act_reparentFrom (hheld : (info (.proc p)).held = [.wait])
    (haway : (info (.proc p)).away = none) (hchild : (info (.proc p)).child = none)
    (hinit : p ≠ s.initproc) (hj : j ≤ (info (.proc p)).kidless)
    (hsafe : Safe s.nproc s.initproc (.proc p) { held := [.wait], kidless := s.nproc } rest) :
    Fine (s.act c ok (.reparentFrom p j) rest) := by
  simp only [State.act]
  split_ifs with hjn hpar
  · exact Good.fine (h.reparentAt ha hheld haway hchild hinit hj hpar hsafe)
  · refine Good.fine (h.lookedAt (k := j + 1) ha hheld haway hchild ?_
      (.reparentFrom rfl rfl rfl hinit (by simp) hsafe))
    intro i hi
    rcases Nat.lt_or_eq_of_le (Nat.lt_succ_iff.mp hi) with hlt | rfl
    · exact Or.inl (Nat.lt_of_lt_of_le hlt hj)
    · exact Or.inr hpar
  · refine Good.fine (h.lookedAt ha hheld haway hchild ?_ hsafe)
    exact fun i hi => Or.inl (by omega)

end

end

end steps
end Xv6.Sched
