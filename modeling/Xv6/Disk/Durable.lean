import Xv6.Disk.Runs
import Xv6.Log.Admission

/-! The commit and the crash of the file layer are what the log below it does with the blocks that
`log_write` has handed to it. -/
namespace Xv6.Disk
open Function Runs

/-- The log stands for `s`: no thread commits or recovers, every block outside the log is at home, and
the header lists the logged blocks, which are in the cache. -/
structure Logs (L : Log.Layout) (d : ℕ → Block) (s : State) (t : Log.State) (h : Log.Hist) :
    Prop where
  inv : Log.Inv L d t h
  running : t.phase = .running
  home : ∀ b, ¬L.InLog b → t.disk b = s.home b
  logged : ∀ b, b ∈ t.lh ↔ b ∈ s.logged
  cache : ∀ b ∈ s.logged, t.cache b = some (s.cache b)

section logs
variable {L : Log.Layout} {d : ℕ → Block} {s : State} {t u : Log.State} {h k : Log.Hist}

/-- A buffer is changed and logged, and the log has room for it. -/
theorem Logs.logWrite {op : ℕ} {b : L.Home} {x : Block} (hl : Logs L d s t h)
    (hw : Log.logWrite t op b x = .ok u) :
    Logs L d ((s.put b x).log b) u (h.step t (.logWrite op b x)) := by
  have hinv := hl.inv.logWrite hw
  obtain ⟨-, -, -, ⟨hmem, rfl⟩ | ⟨hnew, rfl⟩⟩ := Log.logWrite_ok hw
  all_goals
    refine ⟨hinv, hl.running, hl.home, fun c => ?_, fun c hc => ?_⟩
    · simp only [State.put, State.log, List.mem_append, List.mem_singleton, Finset.mem_insert,
        hl.logged] at *
      grind
    · change update t.cache b (some x) c = some (update s.cache b x c)
      by_cases hcb : c = b
      · rw [hcb, update_self, update_self]
      · rw [update_of_ne hcb, update_of_ne hcb]
        exact hl.cache c ((Finset.mem_insert.1 hc).resolve_left hcb)

/-- The thread that commits or recovers leaves the closed transactions at home. -/
theorem Logs.of_io (hi : Log.Inv L d t h) (hne : t.phase ≠ .running) (hempty : s.logged = ∅)
    (hhome : ∀ b, ¬L.InLog b → Log.applyTxs d h.closed b = s.home b) :
    ∃ n u k, run (Log.stepH L) (t, h) (List.replicate n .io) = .ok (u, k) ∧ Logs L d s u k := by
  obtain ⟨n, u, k, hr, hu⟩ := Log.io_terminates (L := L) t h
  obtain ⟨hi', hclosed, hlh⟩ : Log.Inv L d u k ∧ k.closed = h.closed ∧
      (u.phase = .running → u.lh = []) := by
    refine Throughout.induct (P := fun _ => True) (I := fun w : Log.State × Log.Hist =>
      Log.Inv L d w.1 w.2 ∧ w.2.closed = h.closed ∧ (w.1.phase = .running → w.1.lh = []))
      (fun _ _ _ _ => trivial) ⟨hi, rfl, fun hr => absurd hr hne⟩ ?_ _ _ (List.prefix_refl _) hr
    rintro ⟨v, g⟩ e he ⟨w, g'⟩ ⟨hv, hg, -⟩ - hstep
    obtain rfl := List.eq_of_mem_replicate he
    obtain ⟨hio, rfl⟩ := Log.stepH_ok.mp hstep
    refine ⟨hv.io hio, ?_, hv.io_lh hio⟩
    rw [← hg]
    simp only [Log.Hist.step]
    split <;> rfl
  refine ⟨n, u, k, hr, hi', hu, fun b hb => ?_, by simp [hlh hu, hempty], by simp [hempty]⟩
  rw [hi'.atHome hu b hb, Log.Hist.committed, (hi'.running hu).2.2.1, List.take_length, hclosed,
    hhome b hb]

section
variable (hl : Logs L d s t h)
include hl

/-- The last `end_op` commits. -/
theorem Logs.commit {op : ℕ} (hout : t.outstanding = 1) (hact : t.active = [op]) :
    ∃ n u k, run (Log.stepH L) (t, h) (.endOp op :: List.replicate n .io) = .ok (u, k) ∧
      Logs L d s.commit u k := by
  obtain ⟨-, hcom, -, hbuf⟩ := hl.inv.running hl.running
  have hend : Log.endOp t op = .ok { t with
      outstanding := 0
      active := []
      committing := true
      phase := if t.lh = [] then .finish else .writeLog 0 } := by
    simp [Log.endOp, hact, hcom, hout]
  have hclosed : (h.step t (.endOp op : Log.Event L)).closed = h.closed ++ [h.cur] := by
    simp [Log.Hist.step, hout]
  obtain ⟨n, u, k, hr, hu⟩ := Logs.of_io (s := s.commit)
    (hl.inv.endOp (by rw [hout, hact]; rfl) hend) (by split_ifs <;> simp) rfl fun b hb => by
      rw [hclosed, Log.applyTxs_snoc]
      change h.view d b = if b ∈ s.logged then s.cache b else s.home b
      split_ifs with hmem
      · exact Option.some.inj ((hbuf.cached b ((hl.logged b).2 hmem)).symm.trans (hl.cache b hmem))
      · rw [hbuf.clean b fun hin => hmem ((hl.logged b).1 hin), ← hl.home b hb,
          hl.inv.atHome hl.running b hb]
  have hstep : Log.stepH L (t, h) (.endOp op) = .ok (_, _) := Log.stepH_ok.mpr ⟨hend, rfl⟩
  exact ⟨n, u, k, by rw [run_cons_ok hstep, hr], hu⟩

/-- A crash loses what has not been committed. -/
theorem Logs.crash : ∃ n u k,
    run (Log.stepH L) (t, h) (.crash :: List.replicate n .io) = .ok (u, k) ∧ Logs L d s.crash u k := by
  obtain ⟨n, u, k, hr, hu⟩ := Logs.of_io (s := s.crash) hl.inv.crash (by simp [Log.crash]) rfl
    fun b hb => (hl.inv.atHome hl.running b hb).symm.trans (hl.home b hb)
  exact ⟨n, u, k, hr, hu⟩

end
end logs
end Xv6.Disk
