import Xv6.Sched.Edit

/-! Locks and context switches: taking and giving back a lock, and the way of a CPU from a
process to its scheduler and to the next process. -/
namespace Xv6.Sched
open Act

section moves
variable {s s' : State} {held : ℕ → List Lock} {info info' : Thread → Local} {c j p : ℕ}
  {t : Thread} {x : Proc} {M : Local} {code rest : List Act} {l : Lock}

theorem setProc_self : s.setProc j (s.proc j) = s := by
  simp [State.setProc]

theorem setCtx_ctx_ne {t' : Thread} {o : Option (List Act)} (h : t' ≠ t) :
    (s.setCtx t o).ctx t' = s.ctx t' :=
  Function.update_of_ne h _ _

section
variable (h : Inv s held info)
include h

section
variable (ha : Active s held info c t)
include ha

/-- A thread goes on and may know something else about its children. -/
theorem Inv.learn (hheld : M.held = (info t).held) (haway : M.away = (info t).away)
    (hchild : M.child = (info t).child) (hkid : ∀ p, t = .proc p → KidOk s p M)
    (hsafe : Safe s.nproc s.initproc t M code) :
    Inv (s.setTodo c code) held (Function.update info t M) := by
  have hmove : Inv ((s.setProc 0 (s.proc 0)).setTodo c code) held (Function.update info t M) := by
    refine h.advance ha .refl hheld ?_ ?_ ?_ ?_ ?_ hsafe
    · intro p hp
      have hstate := (ha.proc p hp).2.2
      rw [setProc_self]
      unfold StateOk at hstate ⊢
      rw [haway, hheld]
      exact hstate
    · intro d hd
      rw [haway]
      exact (ha.sched d hd).2.2
    · rintro p rfl
      rw [setProc_self]
      intro k st hk
      exact h.child p k st (hchild ▸ hk)
    · intro k st hk
      exact Or.inl ⟨st, hchild ▸ hk⟩
    · intro p hp
      rw [setProc_self]
      exact hkid p hp
  rwa [setProc_self] at hmove

/-- A thread goes on. -/
theorem Inv.goto
    (hsafe : Safe s.nproc s.initproc t (info t) code) : Inv (s.setTodo c code) held info := by
  have hmove := h.learn ha rfl rfl rfl (fun p hp => hp ▸ h.kid p) hsafe
  rwa [Function.update_eq_self] at hmove

/-- A thread takes or gives back a lock. -/
theorem Inv.relock {o : Option ℕ} {n : ℕ} (hlock : ∀ l' d, Function.update s.lock l o l' = some d ↔
      l' ∈ Function.update held c M.held d) (hn : n = M.held.length) (hnodup : M.held.Nodup)
    (haway : M.away = (info t).away) (hchild : M.child = (info t).child)
    (hown : (info t).away ≠ none → ∀ p, t = .proc p → .proc p ∈ (info t).held →
      .proc p ∈ M.held) (hkid : ∀ p, t = .proc p → KidOk s p M)
    (hsafe : Safe s.nproc s.initproc t M code) :
    Inv ((s.setLock l o c n).setTodo c code) (Function.update held c M.held)
      (Function.update info t M) := by
  have hactive : Active ((s.setLock l o c n).setTodo c code) (Function.update held c M.held)
      (Function.update info t M) c t := by
    refine ⟨ha.who, by rw [Function.update_self, Function.update_self], ?_, ?_, ?_⟩
    · intro d hd
      obtain ⟨h1, h2, h3⟩ := ha.sched d hd
      rw [Function.update_self, haway]
      exact ⟨h1, h2, h3⟩
    · intro q hq
      obtain ⟨h1, h2, h3⟩ := ha.proc q hq
      refine ⟨h1, h2, ?_⟩
      rw [Function.update_self]
      unfold StateOk at h3 ⊢
      rw [haway]
      cases hst : (info t).away with
      | none =>
        rw [hst] at h3
        exact h3
      | some st =>
        rw [hst] at h3
        exact ⟨h3.1, hown (by simp [hst]) q hq h3.2.1, h3.2.2⟩
    · rw [Function.update_self]
      change Safe _ _ _ _ (Function.update s.todo c code c)
      rw [Function.update_self]
      exact hsafe
  have hkeep : ∀ q, (Function.update info t M (.proc q)).child = (info (.proc q)).child := by
    intro q
    by_cases hq : Thread.proc q = t
    · rw [hq, Function.update_self, hchild]
    · rw [Function.update_of_ne hq]
  refine ⟨hlock, ?_, ?_, ?_, h.single, ?_, ?_, ?_, ?_, ?_⟩
  · intro d
    change Function.update s.noff c n d = _
    by_cases hd : d = c
    · subst hd
      rw [Function.update_self, Function.update_self, hn]
    · rw [Function.update_of_ne hd, Function.update_of_ne hd, h.noff]
  · intro d
    by_cases hd : d = c
    · subst hd
      rwa [Function.update_self]
    · rw [Function.update_of_ne hd]
      exact h.nodup d
  · intro d
    by_cases hd : d = c
    · subst hd
      exact hactive.cpuOk
    · refine (h.cpu d).frame rfl (Function.update_of_ne hd _ _) rfl rfl
        (Function.update_of_ne hd _ _) ?_ rfl rfl ?_
      · apply Function.update_of_ne
        rintro rfl
        exact hd (ha.sched d rfl).1
      · intro q hq
        refine ⟨rfl, Function.update_of_ne ?_ _ _, rfl⟩
        rintro rfl
        exact hd (h.single d c q hq (ha.proc q rfl).1)
  · intro k hk
    refine (h.off k hk).frame rfl (Function.update_of_ne ?_ _ _) rfl rfl rfl
    rintro rfl
    exact hk c (ha.proc k rfl).1
  · intro q k st hk
    rw [hkeep q] at hk
    obtain ⟨h1, h2, h3, h4⟩ := h.child q k st hk
    refine ⟨h1, h2, h3, fun hst => ⟨(h4 hst).1, ?_⟩⟩
    rw [Function.update_of_ne, (h4 hst).2]
    rintro rfl
    have hpast := (ha.proc k rfl).2.2.past
    rw [h2] at hpast
    exact not_past_used hpast
  · intro q r k st st' hq hr
    rw [hkeep] at hq hr
    exact h.unique q r k st st' hq hr
  · intro q
    by_cases hq : Thread.proc q = t
    · rw [hq, Function.update_self]
      exact hkid q hq.symm
    · rw [Function.update_of_ne hq]
      exact h.kid q
  · exact ⟨h.family.parent, h.family.child, h.family.init, h.family.unused, h.family.bound⟩

theorem Inv.acquire (hfree : s.lock l = none)
    (hsafe : Safe s.nproc s.initproc t ((info t).take l) code) :
    Inv ((s.setLock l (some c) c (s.noff c + 1)).setTodo c code)
      (Function.update held c (l :: held c)) (Function.update info t ((info t).take l)) := by
  have hnew : ∀ d, l ∉ held d := by
    intro d hd
    rw [← h.lock, hfree] at hd
    cases hd
  have hheld : ((info t).take l).held = l :: held c := by rw [ha.held]; rfl
  rw [← hheld]
  refine h.relock ha ?_ ?_ ?_ rfl rfl ?_ ?_ hsafe
  · intro l' d
    rw [hheld]
    by_cases hd : d = c
    · subst hd
      rw [Function.update_self, List.mem_cons]
      by_cases hl : l' = l
      · simp [hl]
      · rw [Function.update_of_ne hl, h.lock]
        simp [hl]
    · rw [Function.update_of_ne hd]
      by_cases hl : l' = l
      · subst hl
        rw [Function.update_self]
        simp [hnew d, Ne.symm hd]
      · rw [Function.update_of_ne hl, h.lock]
  · rw [hheld, h.noff]
    rfl
  · rw [hheld]
    exact List.nodup_cons.mpr ⟨hnew c, h.nodup c⟩
  · intro _ p _ hp
    exact List.mem_cons_of_mem _ hp
  · rintro p rfl hw
    by_cases hl : l = .wait
    · simp [Local.take, hl]
    · have hold := h.kid p (by simpa [Local.take, Ne.symm hl] using hw)
      simpa [Local.take, hl] using hold

theorem Inv.release (hl : l ∈ (info t).held)
    (haway : (info t).away ≠ none → ∀ p, t = .proc p → l ≠ .proc p)
    (hsafe : Safe s.nproc s.initproc t ((info t).drop l) code) :
    Inv ((s.setLock l none c (s.noff c - 1)).setTodo c code)
      (Function.update held c ((held c).erase l))
      (Function.update info t ((info t).drop l)) := by
  have hheld : ((info t).drop l).held = (held c).erase l := by rw [ha.held]; rfl
  have hmem : l ∈ held c := by rwa [ha.held]
  rw [← hheld]
  refine h.relock ha ?_ ?_ ?_ rfl rfl ?_ ?_ hsafe
  · intro l' d
    rw [hheld]
    by_cases hd : d = c
    · subst hd
      rw [Function.update_self, (h.nodup d).mem_erase_iff]
      by_cases hl' : l' = l
      · simp [hl']
      · rw [Function.update_of_ne hl', h.lock]
        simp [hl']
    · rw [Function.update_of_ne hd]
      by_cases hl' : l' = l
      · subst hl'
        rw [Function.update_self]
        simp only [reduceCtorEq, false_iff]
        exact fun hmem' => hd (h.holder hmem' hmem)
      · rw [Function.update_of_ne hl', h.lock]
  · rw [hheld, h.noff, List.length_erase_of_mem hmem]
  · rw [hheld]
    exact (h.nodup c).erase l
  · intro hne p hp hmem'
    exact List.mem_erase_of_ne (haway hne p hp).symm |>.mpr hmem'
  · rintro p rfl hw
    exact h.kid p (List.mem_of_mem_erase hw)

end

/-- `allocproc` gives an entry the context of a new process. -/
theorem Inv.provision (hused : (s.proc j).state = .used) :
    Inv (s.setCtx (.proc j) (some [forkret])) held
      (Function.update info (.proc j) { held := [.proc j] }) := by
  have hcur : ∀ d, s.cur d ≠ some j := by
    intro d hd
    have hpast := (h.cpu d).past hd
    rw [hused] at hpast
    exact not_past_used hpast
  have hother : ∀ {q}, q ≠ j → Function.update info (.proc j) { held := [.proc j] } (.proc q) =
      info (.proc q) := fun hq => Function.update_of_ne (by simpa using hq) _ _
  have hctx : ∀ {q}, q ≠ j →
      (s.setCtx (.proc j) (some [forkret])).ctx (.proc q) = s.ctx (.proc q) :=
    fun hq => setCtx_ctx_ne (by simpa using hq)
  refine ⟨h.lock, h.noff, h.nodup, ?_, h.single, ?_, ?_, ?_, ?_, ?_⟩
  · intro d
    have hne : Thread.sched d ≠ .proc j := by simp
    refine (h.cpu d).frame rfl rfl rfl ?_ rfl (Function.update_of_ne hne _ _) rfl rfl ?_
    · exact setCtx_ctx_ne hne
    · intro q hq
      have hqj : q ≠ j := fun heq => hcur d (heq ▸ hq)
      exact ⟨rfl, hother hqj, hctx hqj⟩
  · intro k hk
    by_cases hkj : k = j
    · subst hkj
      refine ⟨(h.off k hk).state, by rw [Function.update_self], by rw [Function.update_self], ?_⟩
      intro hready
      change (s.proc k).state = _ ∨ (s.proc k).state = _ at hready
      simp [hused] at hready
    · exact (h.off k hk).frame rfl (hother hkj) (hctx hkj) rfl rfl
  · intro q k st hk
    by_cases hq : q = j
    · subst hq
      simp at hk
    · rw [hother hq] at hk
      obtain ⟨h1, h2, h3, h4⟩ := h.child q k st hk
      refine ⟨h1, h2, h3, fun hst => ?_⟩
      by_cases hkj : k = j
      · subst hkj
        exact ⟨Function.update_self _ _ _, Function.update_self _ _ _⟩
      · rw [hctx hkj, hother hkj]
        exact h4 hst
  · intro q r k st st' hq hr
    have hqj : q ≠ j := by
      rintro rfl
      simp at hq
    have hrj : r ≠ j := by
      rintro rfl
      simp at hr
    rw [hother hqj] at hq
    rw [hother hrj] at hr
    exact h.unique q r k st st' hq hr
  · intro q
    by_cases hq : q = j
    · subst hq
      simp [KidOk]
    · rw [hother hq]
      exact h.kid q
  · exact ⟨h.family.parent, h.family.child, h.family.init, h.family.unused, h.family.bound⟩

/-- A step of a switch between process `p` and the scheduler of CPU `c`: all else is left
alone, and the entry of the process at most moves between the states of one that has run. -/
structure Switches (s s' : State) (info info' : Thread → Local) (c p : ℕ) : Prop where
  lock : s'.lock = s.lock
  noff : s'.noff = s.noff
  nproc : s'.nproc = s.nproc
  initproc : s'.initproc = s.initproc
  cpu : ∀ d, d ≠ c → s'.who d = s.who d ∧ s'.todo d = s.todo d ∧ s'.cur d = s.cur d ∧
    s'.ctx (.sched d) = s.ctx (.sched d) ∧ info' (.sched d) = info (.sched d)
  proc : ∀ q, q ≠ p → s'.proc q = s.proc q ∧ s'.ctx (.proc q) = s.ctx (.proc q) ∧
    info' (.proc q) = info (.proc q)
  alone : ∀ d, d ≠ c → s.cur d ≠ some p
  before : ∀ q, s.cur c = some q → q = p
  after : ∀ q, s'.cur c = some q → q = p
  past : Past (s.proc p).state
  live : Live (s.proc p).state → Live (s'.proc p).state
  parent : (s'.proc p).parent = (s.proc p).parent
  used : (s'.proc p).state ≠ .unused
  child : (info' (.proc p)).child = (info (.proc p)).child
  held : (info' (.proc p)).held = [.proc p]

omit h in
theorem Switches.family (hs : Switches s s' info info' c p) (h : Family s) : Family s' := by
  have hparent : ∀ k, (s'.proc k).parent = (s.proc k).parent := by
    intro k
    by_cases hk : k = p
    · rw [hk, hs.parent]
    · rw [(hs.proc k hk).1]
  have hlive : ∀ k, Live (s.proc k).state → Live (s'.proc k).state := by
    intro k hk
    by_cases hkp : k = p
    · subst hkp
      exact hs.live hk
    · rwa [(hs.proc k hkp).1]
  refine ⟨?_, ?_, ?_, ?_, ?_⟩
  · intro k q hk
    rw [hparent] at hk
    exact hlive q (h.parent k q hk)
  · intro i hi hne
    rw [hparent]
    rw [hs.initproc] at hne
    by_cases hip : i = p
    · subst hip
      exact h.child i hs.past hne
    · rw [(hs.proc i hip).1] at hi
      exact h.child i hi hne
  · rw [hs.initproc]
    exact hlive _ h.init
  · intro i hi
    have hip : i ≠ p := by
      rintro rfl
      exact hs.used hi
    rw [(hs.proc i hip).1] at hi ⊢
    exact h.unused i hi
  · intro i hi
    rw [hparent]
    exact h.bound i (hs.nproc ▸ hi)

theorem Inv.switch (hs : Switches s s' info info' c p) (hcpu : CpuOk s' held info' c)
    (hoff : s'.cur c ≠ some p → Off s' info' p) : Inv s' held info' := by
  have hchild : ∀ q, (info' (.proc q)).child = (info (.proc q)).child := by
    intro q
    by_cases hq : q = p
    · rw [hq, hs.child]
    · rw [(hs.proc q hq).2.2]
  refine ⟨?_, ?_, h.nodup, ?_, ?_, ?_, ?_, ?_, ?_, hs.family h.family⟩
  · rw [hs.lock]
    exact h.lock
  · rw [hs.noff]
    exact h.noff
  · intro d
    by_cases hd : d = c
    · subst hd
      exact hcpu
    · obtain ⟨h1, h2, h3, h4, h5⟩ := hs.cpu d hd
      refine (h.cpu d).frame h1 h2 h3 h4 rfl h5 hs.nproc hs.initproc ?_
      intro q hq
      have hqp : q ≠ p := fun heq => hs.alone d hd (heq ▸ hq)
      obtain ⟨h6, h7, h8⟩ := hs.proc q hqp
      exact ⟨by rw [h6], h8, h7⟩
  · intro d e q hd he
    by_cases hdc : d = c <;> by_cases hec : e = c
    · rw [hdc, hec]
    · subst hdc
      obtain rfl := hs.after q hd
      rw [(hs.cpu e hec).2.2.1] at he
      exact absurd he (hs.alone e hec)
    · subst hec
      obtain rfl := hs.after q he
      rw [(hs.cpu d hdc).2.2.1] at hd
      exact absurd hd (hs.alone d hdc)
    · rw [(hs.cpu d hdc).2.2.1] at hd
      rw [(hs.cpu e hec).2.2.1] at he
      exact h.single d e q hd he
  · intro k hk
    by_cases hkp : k = p
    · subst hkp
      exact hoff (hk c)
    · obtain ⟨h1, h2, h3⟩ := hs.proc k hkp
      refine (h.off k ?_).frame (by rw [h1]) h3 h2 hs.nproc hs.initproc
      intro d hd
      by_cases hdc : d = c
      · exact hkp (hs.before k (hdc ▸ hd))
      · exact hk d ((hs.cpu d hdc).2.2.1.trans hd)
  · intro q k st hk
    rw [hchild] at hk
    obtain ⟨h1, h2, h3, h4⟩ := h.child q k st hk
    have hkp : k ≠ p := by
      rintro rfl
      have hpast := hs.past
      rw [h2] at hpast
      exact not_past_used hpast
    obtain ⟨h5, h6, h7⟩ := hs.proc k hkp
    rw [hs.nproc, h5, h6, h7]
    exact ⟨h1, h2, h3, h4⟩
  · intro q r k st st' hq hr
    rw [hchild] at hq hr
    exact h.unique q r k st st' hq hr
  · intro q hw
    have hparent : ∀ k, (s'.proc k).parent = (s.proc k).parent := by
      intro k
      by_cases hk : k = p
      · rw [hk, hs.parent]
      · rw [(hs.proc k hk).1]
    have hqp : q ≠ p := by
      rintro rfl
      simp [hs.held] at hw
    rw [(hs.proc q hqp).2.2] at hw ⊢
    simp only [hparent]
    exact h.kid q hw

omit h in
theorem Left.past {st : ProcState} (h : Left st) : Past st := by
  rcases h with rfl | rfl | rfl
  · exact Or.inl (Or.inl rfl)
  · exact Or.inl (Or.inr (Or.inr rfl))
  · exact Or.inr rfl

omit h in
theorem Past.ne_unused {st : ProcState} (h : Past st) : st ≠ .unused := by
  rintro rfl
  exact not_past_unused h

theorem Inv.alone (hcur : s.cur c = some p) : ∀ d, d ≠ c → s.cur d ≠ some p := fun d hd hcur' =>
  hd (h.single d c p hcur' hcur)

omit h in
theorem at_cur (hcur : s.cur c = some p) : ∀ q, s.cur c = some q → q = p := fun _ hq =>
  Option.some.inj (hq.symm.trans hcur)

/-- `sched` saves the process. -/
theorem Inv.save (ha : Active s held info c (.proc p)) {st : ProcState}
    (hheld : (info (.proc p)).held = [.proc p]) (haway : (info (.proc p)).away = some st)
    (hsafe : st ≠ .zombie →
      Safe s.nproc s.initproc (.proc p) { info (.proc p) with away := none } rest) :
    Inv ((s.setCtx (.proc p) (some rest)).setTodo c [load (.sched c)]) held
      (Function.update info (.proc p) { info (.proc p) with away := none }) := by
  obtain ⟨hcur, hctx, hstate⟩ := ha.proc p rfl
  rw [StateOk, haway] at hstate
  obtain ⟨hst, -, hleft⟩ := hstate
  have hs : Switches s ((s.setCtx (.proc p) (some rest)).setTodo c [load (.sched c)]) info
      (Function.update info (.proc p) { info (.proc p) with away := none }) c p := by
    refine ⟨rfl, rfl, rfl, rfl, ?_, ?_, h.alone hcur, at_cur hcur, at_cur hcur,
      (ha.proc p rfl).2.2.past, id, rfl, ?_, ?_, ?_⟩
    · intro d hd
      exact ⟨rfl, Function.update_of_ne hd _ _, rfl, by simp,
        Function.update_of_ne (by simp) _ _⟩
    · intro q hq
      exact ⟨rfl, by simp [hq], Function.update_of_ne (by simpa using hq) _ _⟩
    · exact (ha.proc p rfl).2.2.past.ne_unused
    · rw [Function.update_self]
    · rw [Function.update_self]
      exact hheld
  refine h.switch hs ?_ fun hne => absurd hcur hne
  refine .toSched p ha.who hcur (ha.held.trans hheld) ?_ (Function.update_self _ _ _) ?_ ?_
  · simpa using hctx
  · exact hst ▸ hleft
  · refine ⟨?_, by rw [Function.update_self]; exact hheld, by rw [Function.update_self], ?_⟩
    · change (s.proc p).state ≠ _
      rw [hst]
      rcases hleft with rfl | rfl | rfl <;> simp
    · intro hready
      refine ⟨rest, Function.update_self _ _ _, ?_⟩
      rw [Function.update_self]
      refine hsafe ?_
      rintro rfl
      change (s.proc p).state = _ ∨ (s.proc p).state = _ at hready
      simp [hst] at hready

/-- `swtch` in `sched` goes to the scheduler. -/
theorem Inv.loadSched (hcur : s.cur c = some p) (hheld : held c = [.proc p])
    (hleft : Left (s.proc p).state) (hoff : Off s info p) :
    Inv { (s.setCtx (.sched c) none).setTodo c (afterProc p) with
      who := Function.update s.who c (.sched c) } held info := by
  have hs : Switches s { (s.setCtx (.sched c) none).setTodo c (afterProc p) with
      who := Function.update s.who c (.sched c) } info info c p := by
    refine ⟨rfl, rfl, rfl, rfl, ?_, ?_, h.alone hcur, at_cur hcur, at_cur hcur, hleft.past, id, rfl,
      hleft.past.ne_unused, rfl, hoff.held⟩
    · intro d hd
      exact ⟨Function.update_of_ne hd _ _, Function.update_of_ne hd _ _, rfl,
        by simp [hd], rfl⟩
    · intro q _
      exact ⟨rfl, by simp, rfl⟩
  refine h.switch hs ?_ fun hne => absurd hcur hne
  exact .back p (Function.update_self _ _ _) hcur hheld (Function.update_self _ _ _) hleft
    (hoff.frame rfl rfl (by simp) rfl rfl)

/-- `swtch` in `scheduler` goes to the process. -/
theorem Inv.loadProc (hcur : s.cur c = some p) (hheld : held c = [.proc p])
    (hctx : s.ctx (.sched c) = some (afterProc p)) (hstate : (s.proc p).state = .running)
    (hlocal : (info (.proc p)).held = [.proc p]) (haway : (info (.proc p)).away = none)
    (hsafe : Safe s.nproc s.initproc (.proc p) (info (.proc p)) code) :
    Inv { (s.setCtx (.proc p) none).setTodo c code with
      who := Function.update s.who c (.proc p) } held info := by
  have hpast : Past (s.proc p).state := (h.cpu c).past hcur
  have hs : Switches s { (s.setCtx (.proc p) none).setTodo c code with
      who := Function.update s.who c (.proc p) } info info c p := by
    refine ⟨rfl, rfl, rfl, rfl, ?_, ?_, h.alone hcur, at_cur hcur, at_cur hcur, hpast, id, rfl,
      hpast.ne_unused, rfl, hlocal⟩
    · intro d hd
      exact ⟨Function.update_of_ne hd _ _, Function.update_of_ne hd _ _, rfl,
        by simp, rfl⟩
    · intro q hq
      exact ⟨rfl, by simp [hq], rfl⟩
  refine h.switch hs ?_ fun hne => absurd hcur hne
  refine .proc p (Function.update_self _ _ _) hcur (hheld.trans hlocal.symm) (by simpa using hctx)
    ?_ ?_
  · rw [StateOk, haway]
    exact hstate
  · change Safe _ _ _ _ (Function.update s.todo c code c)
    rw [Function.update_self]
    exact hsafe

/-- The scheduler clears `c->proc`. -/
theorem Inv.leave (hwho : s.who c = .sched c) (hcur : s.cur c = some p) (hheld : held c = [.proc p])
    (hleft : Left (s.proc p).state) (hoff : Off s info p) :
    Inv ((s.setCur c none).setTodo c [.release (.proc p), scheduleFrom (p + 1)]) held
      (Function.update info (.sched c) { held := [.proc p] }) := by
  have hs : Switches s ((s.setCur c none).setTodo c [.release (.proc p), scheduleFrom (p + 1)]) info
      (Function.update info (.sched c) { held := [.proc p] }) c p := by
    refine ⟨rfl, rfl, rfl, rfl, ?_, ?_, h.alone hcur, at_cur hcur, ?_, hleft.past, id, rfl,
      hleft.past.ne_unused, ?_, ?_⟩
    · intro d hd
      exact ⟨rfl, Function.update_of_ne hd _ _, Function.update_of_ne hd _ _, rfl,
        Function.update_of_ne (by simpa using hd) _ _⟩
    · intro q _
      exact ⟨rfl, rfl, Function.update_of_ne (by simp) _ _⟩
    · intro q hq
      simp [State.setCur, State.setTodo] at hq
    · simp
    · simpa using hoff.held
  refine h.switch hs ?_ fun _ => ?_
  · refine .sched hwho (Function.update_self _ _ _) ?_ ?_ ?_
    · rw [Function.update_self, hheld]
    · rw [Function.update_self]
    · rw [Function.update_self]
      change Safe _ _ _ _ (Function.update s.todo c _ c)
      rw [Function.update_self]
      exact .release (by simp) (by simp) (.scheduleFrom (by simp [Local.drop]))
  · exact hoff.frame rfl (Function.update_of_ne (by simp) _ _) rfl rfl rfl

/-- The scheduler has found a process to run. -/
theorem Inv.pick (ha : Active s held info c (.sched c)) (hheld : (info (.sched c)).held = [.proc j])
    (hrun : (s.proc j).state = .runnable) :
    Inv ((((s.setProc j { s.proc j with state := .running }).setCur c (some j)).setCtx (.sched c)
      (some (afterProc j))).setTodo c [load (.proc j)]) held info := by
  obtain ⟨-, hcur, -⟩ := ha.sched c rfl
  -- another CPU at this process would hold its lock
  have hfree : ∀ d, s.cur d ≠ some j := by
    intro d hd
    have hdc : d ≠ c := by
      rintro rfl
      simp [hcur] at hd
    have hl : Lock.proc j ∉ held d := by
      intro hl
      refine hdc (h.holder hl ?_)
      rw [ha.held, hheld]
      simp
    simp [(h.cpu d).running hd hl] at hrun
  have hoff := h.off j hfree
  have hpast : Past (s.proc j).state := Or.inl (Or.inl hrun)
  have hs : Switches s ((((s.setProc j { s.proc j with state := .running }).setCur c
      (some j)).setCtx (.sched c) (some (afterProc j))).setTodo c [load (.proc j)]) info info c j := by
    refine ⟨rfl, rfl, rfl, rfl, ?_, ?_, ?_, ?_, ?_, hpast, ?_, by simp, by simp, rfl, hoff.held⟩
    · intro d hd
      exact ⟨rfl, by simp [hd], by simp [hd], by simp [hd], rfl⟩
    · intro q hq
      exact ⟨by simp [hq], by simp, rfl⟩
    · exact fun d _ => hfree d
    · intro q hq
      simp [hcur] at hq
    · intro q hq
      simpa using hq.symm
    · intro _
      simp [Live]
  refine h.switch hs ?_ ?_
  · obtain ⟨code, hcode, hsafe⟩ := hoff.ready (Or.inl hrun)
    exact .toProc j ha.who (by simp) (ha.held.trans hheld) (by simp) (by simp) (by simp) hoff.held
      hoff.away ⟨code, by simpa using hcode, hsafe⟩
  · intro hne
    exact absurd (Function.update_self _ _ _) hne

end

end moves
end Xv6.Sched
