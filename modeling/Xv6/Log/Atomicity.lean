import Xv6.Log.Commit

/-! Crash atomicity over whole runs: any interleaving of operations, any crashes. -/
namespace Xv6.Log
open Runs
variable {L : Layout} {d : ℕ → Block} {s t : State} {h : Hist}

/-- Operation numbers tie the running operations to the transactions they joined. -/
structure HistInv (s : State) (h : Hist) : Prop where
  count : s.outstanding = s.active.length
  active : ∀ op ∈ s.active, op ∈ h.cur.ops
  fresh : ∀ w ∈ h.all, w.op < s.nextOp
  curFresh : ∀ op ∈ h.cur.ops, op < s.nextOp
  apart : ∀ t ∈ h.closed, ∀ op ∈ t.ops, op < s.nextOp ∧ op ∉ h.cur.ops
  cur : h.cur.writes = h.all.filter (fun w => w.op ∈ h.cur.ops)
  closed : ∀ t ∈ h.closed, t.writes = h.all.filter (fun w => w.op ∈ t.ops)

/-- Steps other than `begin_op`, `log_write` and `end_op` leave the operations alone. -/
theorem HistInv.of_ops (hi : HistInv s h) {k : Hist} (hn : t.nextOp = s.nextOp)
    (hout : t.outstanding = t.active.length) (hact : ∀ op ∈ t.active, op ∈ k.cur.ops)
    (hall : k.all = h.all) (hcur : k.cur = h.cur ∨ k.cur = ⟨[], []⟩)
    (hclosed : ∀ x ∈ k.closed, x ∈ h.closed) : HistInv t k := by
  have hsub (op : ℕ) (hop : op ∈ k.cur.ops) : op ∈ h.cur.ops := by
    rcases hcur with hc | hc
    · rwa [hc] at hop
    · simp [hc] at hop
  refine ⟨hout, hact, by rw [hall, hn]; exact hi.fresh, ?_, ?_, ?_, ?_⟩
  · intro op hop
    rw [hn]
    exact hi.curFresh op (hsub op hop)
  · intro x hx op hop
    obtain ⟨h1, h2⟩ := hi.apart x (hclosed x hx) op hop
    exact ⟨by rw [hn]; exact h1, fun hop' => h2 (hsub op hop')⟩
  · rcases hcur with hc | hc
    · rw [hc, hall]; exact hi.cur
    · simp [hc]
  · intro x hx
    rw [hall]
    exact hi.closed x (hclosed x hx)

theorem HistInv.beginOp (hi : HistInv s h) (ht : Log.beginOp s = .ok t) :
    HistInv t (h.step s (.beginOp : Event L)) := by
  obtain ⟨-, -, rfl⟩ := beginOp_ok ht
  have hne (w : Write) (hw : w ∈ h.all) : w.op ≠ s.nextOp := (hi.fresh w hw).ne
  refine ⟨by simp [hi.count], ?_, ?_, ?_, ?_, ?_, hi.closed⟩
  · intro op hop
    rcases List.mem_cons.mp hop with rfl | hop
    · exact List.mem_cons_self
    · exact List.mem_cons_of_mem _ (hi.active op hop)
  · exact fun w hw => (hi.fresh w hw).trans (Nat.lt_succ_self _)
  · intro op hop
    rcases List.mem_cons.mp hop with rfl | hop
    · exact Nat.lt_succ_self _
    · exact (hi.curFresh op hop).trans (Nat.lt_succ_self _)
  · intro x hx op hop
    obtain ⟨h1, h2⟩ := hi.apart x hx op hop
    refine ⟨h1.trans (Nat.lt_succ_self _), ?_⟩
    simp only [Hist.step, List.mem_cons, not_or]
    exact ⟨h1.ne, h2⟩
  · simp only [Hist.step]
    rw [hi.cur]
    apply List.filter_congr
    intro w hw
    simp [hne w hw]

theorem HistInv.logWrite {op : ℕ} {b : L.Home} {x : Block} (hi : HistInv s h)
    (ht : Log.logWrite s op b x = .ok t) : HistInv t (h.step s (.logWrite op b x)) := by
  obtain ⟨hop, -, -, hcase⟩ := logWrite_ok ht
  have hop' := hi.active op hop
  have hlt := hi.curFresh op hop'
  have ht' : t.outstanding = s.outstanding ∧ t.active = s.active ∧ t.nextOp = s.nextOp := by
    rcases hcase with ⟨-, rfl⟩ | ⟨-, rfl⟩ <;> exact ⟨rfl, rfl, rfl⟩
  obtain ⟨h1, h2, h3⟩ := ht'
  refine ⟨by rw [h1, h2]; exact hi.count, by rw [h2]; exact hi.active, ?_,
    by rw [h3]; exact hi.curFresh, by rw [h3]; exact hi.apart, ?_, ?_⟩
  · intro w hw
    rw [h3]
    rcases List.mem_append.mp hw with hw | hw
    · exact hi.fresh w hw
    · obtain rfl := List.mem_singleton.mp hw
      exact hlt
  · simp [Hist.step, List.filter_append, hi.cur, hop']
  · intro y hy
    have hny : op ∉ y.ops := fun hmem => (hi.apart y hy op hmem).2 hop'
    simp [Hist.step, List.filter_append, hi.closed y hy, hny]

theorem HistInv.endOp {op : ℕ} (hi : HistInv s h) (ht : Log.endOp s op = .ok t) :
    HistInv t (h.step s (.endOp op : Event L)) := by
  obtain ⟨hop, -, hcase⟩ := endOp_ok ht
  have hlen := List.length_erase_of_mem hop
  have hpos := List.length_pos_of_mem hop
  have hcount := hi.count
  rcases hcase with ⟨h1, rfl⟩ | ⟨h1, rfl⟩
  · have h1' : s.outstanding = 1 := by omega
    have hnil : s.active.erase op = [] := List.eq_nil_of_length_eq_zero (by omega)
    refine ⟨by simp [hnil, h1], by simp [hnil], ?_, ?_, ?_, ?_, ?_⟩
    · simpa [Hist.step, h1'] using hi.fresh
    · simp [Hist.step, h1']
    · intro x hx o ho
      simp only [Hist.step, h1', ↓reduceIte, List.mem_append, List.mem_singleton] at hx ⊢
      rcases hx with hx | rfl
      · exact ⟨(hi.apart x hx o ho).1, by simp⟩
      · exact ⟨hi.curFresh o ho, by simp⟩
    · simp [Hist.step, h1']
    · intro x hx
      simp only [Hist.step, h1', ↓reduceIte, List.mem_append, List.mem_singleton] at hx ⊢
      rcases hx with hx | rfl
      · exact hi.closed x hx
      · exact hi.cur
  · have h1' : s.outstanding ≠ 1 := by omega
    have hh : h.step s (.endOp op : Event L) = h := by simp [Hist.step, h1']
    rw [hh]
    have hout : s.outstanding - 1 = (s.active.erase op).length := by omega
    exact hi.of_ops rfl hout (fun o ho => hi.active o (List.mem_of_mem_erase ho)) rfl
      (.inl rfl) (fun _ hx => hx)

theorem io_ops (ht : Log.io L s = .ok t) :
    t.nextOp = s.nextOp ∧ t.outstanding = s.outstanding ∧ t.active = s.active := by
  unfold Log.io at ht
  split at ht
  · contradiction
  all_goals
    first
    | (split at ht <;> obtain rfl := Except.ok.inj ht <;> exact ⟨rfl, rfl, rfl⟩)
    | (obtain rfl := Except.ok.inj ht; exact ⟨rfl, rfl, rfl⟩)

/-- One step of the machine keeps the invariant of disk, cache and history. -/
theorem step_inv {e : Event L} (hi : Inv L d s h) (hh : HistInv s h) (ht : step L s e = .ok t) :
    Inv L d t (h.step s e) ∧ HistInv t (h.step s e) := by
  cases e with
  | beginOp =>
    simp only [step] at ht
    split at ht
    · contradiction
    next hr => exact ⟨hi.beginOp (by simpa using hr) ht, hh.beginOp ht⟩
  | logWrite op b x => exact ⟨hi.logWrite ht, hh.logWrite ht⟩
  | endOp op => exact ⟨hi.endOp hh.count ht, hh.endOp ht⟩
  | bread b =>
    obtain rfl := Except.ok.inj ht
    exact ⟨hi.bread b, hh.of_ops rfl hh.count hh.active rfl (.inl rfl) (fun _ hx => hx)⟩
  | evict b =>
    simp only [step] at ht
    split at ht
    next hpin =>
      obtain rfl := Except.ok.inj ht
      exact ⟨hi.evict hpin, hh.of_ops rfl hh.count hh.active rfl (.inl rfl) (fun _ hx => hx)⟩
    next => contradiction
  | io =>
    obtain ⟨h1, h2, h3⟩ := io_ops ht
    refine ⟨hi.io ht, ?_⟩
    have hcase : h.step s (.io : Event L) = h ∨
        h.step s (.io : Event L) = { h with durable := h.closed.length } := by
      by_cases hw : s.phase = .writeHead <;> simp [Hist.step, hw]
    rcases hcase with hk | hk <;> rw [hk] <;>
      exact hh.of_ops h1 (by rw [h2, h3]; exact hh.count) (by rw [h3]; exact hh.active) rfl
        (.inl rfl) (fun _ hx => hx)
  | crash =>
    obtain rfl := Except.ok.inj ht
    exact ⟨hi.crash, hh.of_ops rfl rfl (by simp [crash]) rfl (.inr rfl)
      (fun _ hx => List.mem_of_mem_take hx)⟩

theorem boot_inv (hd : decodeHead (d L.start) = []) :
    Inv L d (boot d) Hist.init ∧ HistInv (boot d) Hist.init := by
  have hdisk : DiskOk L d d (decodeHead (d L.start)) := by
    rw [hd]
    exact ⟨hd, L.pos, by simp, by simp, fun _ _ _ => rfl⟩
  refine ⟨⟨⟨hdisk, by simp [boot], L.pos, by simp [boot]⟩, ?_⟩, ?_⟩
  · exact ⟨rfl, rfl, ⟨rfl, rfl, rfl⟩, rfl⟩
  · exact ⟨rfl, by simp [boot], by simp [Hist.init], by simp [Hist.init], by simp [Hist.init],
      rfl, by simp [Hist.init]⟩

/-- The invariant holds after every run from boot. -/
theorem run_inv_boot (hd : decodeHead (d L.start) = []) {es : List (Event L)}
    (hr : run (stepH L) (boot d, Hist.init) es = .ok (s, h)) : Inv L d s h ∧ HistInv s h := by
  apply Runs.run_inv (fun sh => Inv L d sh.1 sh.2 ∧ HistInv sh.1 sh.2) _ (boot_inv hd) hr
  rintro ⟨s, h⟩ e ⟨t, k⟩ ⟨hi, hh⟩ ht
  obtain ⟨hs, rfl⟩ := stepH_ok.mp ht
  exact step_inv hi hh hs

/-- What can happen between a crash and the end of recovery. -/
def Event.rebooting : Event L → Bool
  | .io | .crash | .bread _ | .evict _ => true
  | .beginOp | .logWrite .. | .endOp _ => false

/-- Recovery is under way or has just ended, and it has lost no durable transaction. -/
def Rebooted (txs : List Tx) (sh : State × Hist) : Prop :=
  (sh.1.recovering = true ∨ sh.1.phase = .running) ∧ sh.2.closed.take sh.2.durable = txs

theorem io_recovering (hr : s.recovering = true) (ht : io L s = .ok t) :
    t.recovering = true ∨ t.phase = .running := by
  unfold io at ht
  unfold State.recovering at hr
  cases hs : s.phase <;> simp only [hs] at ht hr <;> try contradiction
  · obtain rfl := Except.ok.inj ht
    exact .inl rfl
  · split at ht <;> obtain rfl := Except.ok.inj ht <;> exact .inl rfl
  · obtain rfl := Except.ok.inj ht
    exact .inr rfl

theorem rebooted_step {txs : List Tx} {e : Event L} (he : e.rebooting = true)
    (hi : Rebooted txs (s, h)) (ht : step L s e = .ok t) : Rebooted txs (t, h.step s e) := by
  obtain ⟨hphase, htxs⟩ := hi
  cases e with
  | beginOp | logWrite _ _ _ | endOp _ => simp [Event.rebooting] at he
  | bread b =>
    obtain rfl := Except.ok.inj ht
    exact ⟨hphase, htxs⟩
  | evict b =>
    simp only [step] at ht
    split at ht
    · obtain rfl := Except.ok.inj ht
      exact ⟨hphase, htxs⟩
    · contradiction
  | io =>
    rcases hphase with hr | hr
    · refine ⟨io_recovering hr ht, ?_⟩
      have hne : s.phase ≠ .writeHead := by
        intro hw
        simp [State.recovering, hw] at hr
      rw [Hist.step_io rfl hne]
      exact htxs
    · dsimp only at hr
      simp [step, io, hr] at ht
  | crash =>
    obtain rfl := Except.ok.inj ht
    refine ⟨.inl rfl, ?_⟩
    simpa [Hist.step, List.take_take] using htxs

theorem rebooted_run {txs : List Tx} {es : List (Event L)} (hes : ∀ e ∈ es, e.rebooting = true)
    {sh th : State × Hist} (hi : Rebooted txs sh) (hr : run (stepH L) sh es = .ok th) :
    Rebooted txs th := by
  induction es generalizing sh with
  | nil =>
    obtain rfl : sh = th := by simpa using hr
    exact hi
  | cons e es ih =>
    obtain ⟨s, h⟩ := sh
    cases hs : stepH L (s, h) e with
    | error x =>
      rw [run_cons_error hs] at hr
      contradiction
    | ok tk =>
      obtain ⟨t, k⟩ := tk
      obtain ⟨hst, rfl⟩ := stepH_ok.mp hs
      rw [run_cons_ok hs] at hr
      exact ih (fun e' he' => hes e' (List.mem_cons_of_mem _ he'))
        (rebooted_step (hes e List.mem_cons_self) hi hst) hr

theorem stepH_io {t : State} (ht : io L s = .ok t) :
    stepH L (s, h) .io = .ok (t, h.step s (.io : Event L)) := by
  rw [stepH_ok]
  exact ⟨ht, rfl⟩

/-- The steps that the thread that commits or recovers has left. -/
def State.left (L : Layout) (s : State) : ℕ :=
  match s.phase with
  | .running => 0
  | .finish | .recoverErase => 1
  | .eraseHead => 2
  | .install tail => s.lh.length - tail + 3
  | .writeHead => s.lh.length + 4
  | .writeLog tail => s.lh.length - tail + s.lh.length + 5
  | .recover tail => s.lh.length - tail + 2
  | .readHead => (decodeHead (s.buf L.start)).length + 3

theorem io_left (hs : s.phase ≠ .running) : ∃ t, io L s = .ok t ∧ t.left L < s.left L := by
  unfold io State.left
  cases hp : s.phase with
  | running => exact absurd hp hs
  | writeLog tail | install tail | recover tail =>
    dsimp only
    split
    all_goals
      refine ⟨_, rfl, ?_⟩
      simp only [installOne, bwrite_lh, Bool.false_eq_true, if_true, if_false]
      omega
  | _ => exact ⟨_, rfl, by simp⟩

/-- Commit and recovery end. -/
theorem io_terminates (s : State) (h : Hist) :
    ∃ m t k, run (stepH L) (s, h) (List.replicate m .io) = .ok (t, k) ∧ t.phase = .running := by
  induction hn : s.left L using Nat.strong_induction_on generalizing s h with
  | h n ih =>
    by_cases hs : s.phase = .running
    · exact ⟨0, s, h, rfl, hs⟩
    · obtain ⟨t, ht, hlt⟩ := io_left hs
      obtain ⟨m, u, k, hr, hu⟩ := ih _ (hn ▸ hlt) t (h.step s (.io : Event L)) rfl
      exact ⟨m + 1, u, k, by rw [List.replicate_succ, run_cons_ok (stepH_io ht), hr], hu⟩

/-- Crash atomicity. After any interleaving of operations, commits and earlier crashes,
let the machine crash once more (and again during recovery, any number of times). Recovery
ends, and every block outside the log area is then what the durable prefix of the closed
transactions made it. A closed transaction holds every write logged by each operation that
joined it, and none of these operations is still running. -/
theorem crash_recovers_durable_prefix (hd : decodeHead (d L.start) = []) {es : List (Event L)}
    (hr : run (stepH L) (boot d, Hist.init) es = .ok (s, h)) :
    (∀ x ∈ h.closed, x.writes = h.all.filter (fun w => w.op ∈ x.ops) ∧
      ∀ op ∈ x.ops, op ∉ s.active) ∧
    h.durable ≤ h.closed.length ∧
    (∃ m t k, run (stepH L) (s, h) (.crash :: List.replicate m .io) = .ok (t, k) ∧
      t.phase = .running) ∧
    ∀ rs : List (Event L), (∀ e ∈ rs, e.rebooting = true) → ∀ t k,
      run (stepH L) (s, h) (.crash :: rs) = .ok (t, k) → t.phase = .running →
      ∀ b, ¬ L.InLog b → t.disk b = applyTxs d (h.closed.take h.durable) b := by
  obtain ⟨hi, hh⟩ := run_inv_boot hd hr
  refine ⟨?_, hi.durable_le, io_terminates (crash s) _, ?_⟩
  · intro x hx
    exact ⟨hh.closed x hx, fun op hop hact => (hh.apart x hx op hop).2 (hh.active op hact)⟩
  · intro rs hrs t k hrun hphase b hb
    have hall : run (stepH L) (boot d, Hist.init) (es ++ .crash :: rs) = .ok (t, k) := by
      rw [run_append_ok hr]
      exact hrun
    have hit := (run_inv_boot hd hall).1
    have hstart : Rebooted (h.closed.take h.durable) (crash s, h.step s (.crash : Event L)) :=
      ⟨.inl rfl, by simp [Hist.step, List.take_take]⟩
    have hc : stepH L (s, h) .crash = .ok (crash s, h.step s (.crash : Event L)) := rfl
    rw [run_cons_ok hc] at hrun
    have hreb := rebooted_run hrs hstart hrun
    rw [hit.atHome hphase b hb, Hist.committed, hreb.2]

/-- The crash falls just after the header write of a one-block transaction. -/
theorem crash_after_header_write :
    ∃ s h, run (stepH Layout.mkfs) (boot fun _ _ => 0, Hist.init)
        [.io, .io, .io, .beginOp, .logWrite 0 ⟨40, by decide⟩ fun _ => 7, .endOp 0, .io, .io,
          .io] = .ok (s, h) ∧
      ∃ m t k, run (stepH Layout.mkfs) (s, h) (.crash :: List.replicate m .io) = .ok (t, k) ∧
        t.disk 40 = fun _ => 7 := by
  obtain ⟨s, h, hr, happ⟩ : ∃ s h, run (stepH Layout.mkfs) (boot fun _ _ => 0, Hist.init)
        [.io, .io, .io, .beginOp, .logWrite 0 ⟨40, by decide⟩ fun _ => 7, .endOp 0, .io, .io,
          .io] = .ok (s, h) ∧
      applyTxs (fun _ _ => 0) (h.closed.take h.durable) 40 = fun _ => 7 :=
    ⟨_, _, rfl, rfl⟩
  have hd : decodeHead ((fun _ _ => 0 : ℕ → Block) Layout.mkfs.start) = [] := by
    simp [decodeHead]
  obtain ⟨-, -, ⟨m, t, k, hrun, hphase⟩, hall⟩ := crash_recovers_durable_prefix hd hr
  refine ⟨s, h, hr, m, t, k, hrun, ?_⟩
  have hio : ∀ e ∈ List.replicate m (Event.io : Event Layout.mkfs), e.rebooting = true := by
    intro e he
    rw [List.eq_of_mem_replicate he]
    rfl
  rw [hall _ hio t k hrun hphase 40 (by decide), happ]

end Xv6.Log
