import Xv6.Log.Atomicity
import Mathlib.Data.List.Dedup
import Mathlib.Data.List.Induction

/-!
Admission control of the log. `begin_op` reserves room for `LOGSIZE` blocks, while the
image made by `mkfs` has only `LOGSIZE - 1` slots behind its header block and `log_write`
checks for those before it looks for an absorbed block.
-/
namespace Xv6.Log
open Runs
variable {L : Layout} {d : ℕ → Block} {s t : State} {h : Hist}

/-- The operations in progress after some events, and the distinct blocks that the open
transaction has logged. -/
def openTx : List (Event L) → ℕ × List ℕ :=
  List.foldl (fun x e =>
    match e with
    | .beginOp => (x.1 + 1, x.2)
    | .logWrite _ b _ => (x.1, if b.1 ∈ x.2 then x.2 else x.2 ++ [b.1])
    | .endOp _ => if x.1 - 1 = 0 then (0, []) else (x.1 - 1, x.2)
    | .crash => (0, [])
    | .bread _ | .evict _ | .io => x) (0, [])

/-- The blocks logged by the operation with number `op`. -/
def blocksOf (op : ℕ) (es : List (Event L)) : List ℕ :=
  es.filterMap fun e =>
    match e with
    | .logWrite o b _ => if o = op then some b.1 else none
    | _ => none

/-- Every operation logs at most `MAXOPBLOCKS` distinct blocks. -/
def WithinReservation (es : List (Event L)) : Prop :=
  ∀ op, (blocksOf op es).dedup.length ≤ maxopblocks

/-- The header in memory lists exactly the blocks of the open transaction. -/
structure Tracked (es : List (Event L)) (s : State) : Prop where
  count : (openTx es).1 = s.outstanding
  opened : s.phase = .running → (openTx es).2 = s.lh
  shut : s.phase ≠ .running → (openTx es).2 = []

/-- Leaving the last phase of a commit or of recovery, the header is empty. -/
theorem Inv.io_lh (hi : Inv L d s h) (ht : Log.io L s = .ok t) (hr : t.phase = .running) :
    t.lh = [] := by
  have hp := hi.phase
  unfold PhaseInv at hp
  unfold Log.io at ht
  cases hs : s.phase with
  | running => simp [hs] at ht
  | writeLog tail | install tail | recover tail =>
    simp only [hs] at ht
    split at ht <;> obtain rfl := Except.ok.inj ht <;> simp at hr
  | writeHead | eraseHead | readHead =>
    simp only [hs] at ht
    obtain rfl := Except.ok.inj ht
    simp at hr
  | finish =>
    simp only [hs] at hp ht
    obtain rfl := Except.ok.inj ht
    exact hp.2.2.2.2
  | recoverErase =>
    simp only [hs] at hp ht
    obtain rfl := Except.ok.inj ht
    exact hp.2.2.2.1

theorem io_not_running (ht : io L s = .ok t) : s.phase ≠ .running := by
  intro hs
  simp [io, hs] at ht

theorem Tracked.step {es : List (Event L)} {e : Event L} (hk : Tracked es s)
    (hi : Inv L d s h) (ht : step L s e = .ok t) : Tracked (es ++ [e]) t := by
  cases e with
  | beginOp =>
    simp only [Log.step] at ht
    split at ht
    · contradiction
    · obtain ⟨-, -, rfl⟩ := beginOp_ok ht
      exact ⟨by simpa [openTx] using hk.count, by simpa [openTx] using hk.opened,
        by simpa [openTx] using hk.shut⟩
  | logWrite op b x =>
    obtain ⟨hop, -, -, hcase⟩ := logWrite_ok ht
    have hs := hi.running_of_active (List.ne_nil_of_mem hop)
    have hlh : (openTx es).2 = s.lh := hk.opened hs
    have hcount : (openTx (es ++ [.logWrite op b x])).1 = s.outstanding := by
      simpa [openTx] using hk.count
    have hblocks : (openTx (es ++ [.logWrite op b x])).2 =
        if b.1 ∈ s.lh then s.lh else s.lh ++ [b.1] := by
      rw [← hlh]
      simp [openTx]
    rcases hcase with ⟨hmem, rfl⟩ | ⟨hmem, rfl⟩
    · exact ⟨hcount, fun _ => by simpa [hmem] using hblocks, fun hne => absurd hs hne⟩
    · exact ⟨hcount, fun _ => by simpa [hmem] using hblocks, fun hne => absurd hs hne⟩
  | endOp op =>
    obtain ⟨hop, -, hcase⟩ := endOp_ok ht
    have hs := hi.running_of_active (List.ne_nil_of_mem hop)
    have hcount := hk.count
    rcases hcase with ⟨h1, rfl⟩ | ⟨h1, rfl⟩
    · have hopen : openTx (es ++ [.endOp op]) = (0, []) := by
        simp only [openTx, List.foldl_append, List.foldl_cons, List.foldl_nil] at hcount ⊢
        simp [hcount, h1]
      refine ⟨by rw [hopen]; exact h1.symm, ?_, fun _ => by rw [hopen]⟩
      intro hr
      dsimp only at hr
      split at hr <;> contradiction
    · have hopen : openTx (es ++ [.endOp op]) = (s.outstanding - 1, (openTx es).2) := by
        simp only [openTx, List.foldl_append, List.foldl_cons, List.foldl_nil] at hcount ⊢
        simp [hcount, h1]
      exact ⟨by rw [hopen], fun hr => by rw [hopen]; exact hk.opened hr,
        fun hne => absurd hs hne⟩
  | bread b =>
    obtain rfl := Except.ok.inj ht
    exact ⟨by simpa [openTx] using hk.count, by simpa [openTx] using hk.opened,
      by simpa [openTx] using hk.shut⟩
  | evict b =>
    simp only [Log.step] at ht
    split at ht
    · obtain rfl := Except.ok.inj ht
      exact ⟨by simpa [openTx] using hk.count, by simpa [openTx] using hk.opened,
        by simpa [openTx] using hk.shut⟩
    · contradiction
  | io =>
    have hshut := hk.shut (io_not_running ht)
    obtain ⟨-, hout, -⟩ := io_ops ht
    have hopen : openTx (es ++ [.io]) = openTx es := by simp [openTx]
    exact ⟨by rw [hopen, hout]; exact hk.count,
      fun hr => by rw [hopen, hshut, hi.io_lh ht hr], fun _ => by rw [hopen, hshut]⟩
  | crash =>
    obtain rfl := Except.ok.inj ht
    exact ⟨by simp [openTx, crash], by simp [crash], by simp [openTx]⟩

theorem run_tracked (hd : decodeHead (d L.start) = []) {es : List (Event L)}
    (hr : run (step L) (boot d) es = .ok s) :
    Tracked es s ∧ ∃ h, Inv L d s h ∧ HistInv s h := by
  induction es using List.reverseRecOn generalizing s with
  | nil =>
    obtain rfl : boot d = s := by simpa using hr
    exact ⟨⟨rfl, by simp [boot], fun _ => rfl⟩, _, boot_inv hd⟩
  | append_singleton es e ih =>
    obtain ⟨u, hu, he⟩ := run_snoc_ok hr
    obtain ⟨hk, h, hi, hh⟩ := ih hu
    exact ⟨hk.step hi he, _, step_inv hi hh he⟩

/-- From a reachable state, filling the log is the only way to panic. -/
theorem step_panic {e : Event L} {p : Panic} (hi : Inv L d s h) (hh : HistInv s h)
    (he : step L s e = .error (.panic p)) :
    p = .logTooBig ∧ ∃ op b x, e = .logWrite op b x ∧
      (s.lh.length ≥ logsize ∨ s.lh.length + 1 ≥ L.size) ∧ s.phase = .running := by
  cases e with
  | beginOp =>
    simp only [step, beginOp] at he
    split at he
    · simp at he
    · split at he
      · simp at he
      · split at he <;> simp at he
  | logWrite op b x =>
    simp only [step, logWrite] at he
    split at he
    · simp at he
    next hop =>
      have hmem : op ∈ s.active := not_not.mp hop
      have hpos := List.length_pos_of_mem hmem
      have hcount := hh.count
      split at he
      next hbig =>
        simp only [Except.error.injEq, Stop.panic.injEq] at he
        exact ⟨he.symm, op, b, x, rfl, hbig, hi.running_of_active (List.ne_nil_of_mem hmem)⟩
      · split at he
        · omega
        · split at he <;> simp at he
  | endOp op =>
    simp only [step, endOp] at he
    split at he
    · simp at he
    next hop =>
      have hs := hi.running_of_active (List.ne_nil_of_mem (not_not.mp hop))
      have hc := (hi.running hs).2.1
      simp only [hc, Bool.false_eq_true, ↓reduceIte] at he
      split at he <;> simp at he
  | bread b => simp [step] at he
  | evict b =>
    simp only [step] at he
    split at he <;> simp at he
  | io =>
    simp only [step, io] at he
    split at he <;> try simp at he
    all_goals split at he <;> simp at he
  | crash => simp [step] at he

/-- With the log area of `mkfs`, a run in which every call is admitted stays clear of the
panic and inside the log area exactly when each `log_write` finds fewer than `LOGSIZE - 1`
distinct blocks already logged in its transaction. -/
theorem log_fits_iff (hd : decodeHead (d Layout.mkfs.start) = [])
    {es : List (Event Layout.mkfs)} (hes : run (step Layout.mkfs) (boot d) es ≠ .error .blocked) :
    (run (step Layout.mkfs) (boot d) es ≠ .error (.panic .logTooBig) ∧
      ∀ s, run (step Layout.mkfs) (boot d) es = .ok s →
        ∀ tail < s.lh.length, Layout.mkfs.InLog (Layout.mkfs.slot tail)) ↔
    ∀ pre op b x post, es = pre ++ .logWrite op b x :: post →
      (openTx pre).2.length < logsize - 1 := by
  constructor
  · rintro ⟨hno, -⟩ pre op b x post rfl
    cases hpre : run (step Layout.mkfs) (boot d) pre with
    | ok s =>
      obtain ⟨hk, h, hi, hh⟩ := run_tracked hd hpre
      rw [run_append_ok hpre] at hno hes
      cases hst : logWrite s op b x with
      | ok t =>
        obtain ⟨hop, -, hroom, -⟩ := logWrite_ok hst
        rw [hk.opened (hi.running_of_active (List.ne_nil_of_mem hop))]
        have hsize : Layout.mkfs.size = logsize := rfl
        omega
      | error e =>
        rw [run_cons_error (show step _ s (.logWrite op b x) = .error e from hst)] at hno hes
        cases e with
        | blocked => exact absurd rfl hes
        | panic p =>
          obtain ⟨rfl, -⟩ := step_panic (e := .logWrite op b x) hi hh hst
          exact absurd rfl hno
    | error e =>
      rw [run_append_error hpre] at hno hes
      cases e with
      | blocked => exact absurd rfl hes
      | panic p =>
        obtain ⟨pre', a, post', u, rfl, hu, ha⟩ := run_error hpre
        obtain ⟨-, h, hi, hh⟩ := run_tracked hd hu
        obtain ⟨rfl, -⟩ := step_panic hi hh ha
        exact absurd rfl hno
  · intro hcond
    refine ⟨?_, ?_⟩
    · intro herr
      obtain ⟨pre, a, post, u, rfl, hu, ha⟩ := run_error herr
      obtain ⟨hk, h, hi, hh⟩ := run_tracked hd hu
      obtain ⟨-, op, b, x, rfl, hbig, hs⟩ := step_panic hi hh ha
      have hlen := hcond pre op b x post rfl
      rw [hk.opened hs] at hlen
      have hsize : Layout.mkfs.size = logsize := rfl
      simp only [hsize, logsize, maxopblocks] at hbig hlen
      omega
    · intro s hs tail htail
      obtain ⟨-, h, hi, -⟩ := run_tracked hd hs
      have hroom := hi.room
      exact slot_inLog (by omega)

/-- Three operations log ten blocks each. -/
def fullReservation : List (Event Layout.mkfs) :=
  [.io, .io, .io, .beginOp, .beginOp, .beginOp] ++
    (List.finRange 30).map fun i => .logWrite (i / 10) ⟨40 + i, by
      have := i.isLt
      unfold Layout.InLog Layout.mkfs
      simp only [logsize, maxopblocks]
      omega⟩ fun _ => 0

theorem fullReservation_within : WithinReservation fullReservation := by
  intro op
  by_cases h : op < 3
  · obtain rfl | rfl | rfl : op = 0 ∨ op = 1 ∨ op = 2 := by omega
    all_goals decide
  · have hnil : blocksOf op fullReservation = [] := by
      simp only [blocksOf, fullReservation, List.filterMap_eq_nil_iff, List.mem_append,
        List.mem_map, List.mem_finRange, true_and]
      rintro e (he | ⟨i, rfl⟩)
      · simp only [List.mem_cons, List.not_mem_nil, or_false, or_self] at he
        rcases he with rfl | rfl | rfl | rfl <;> rfl
      · have hi := i.isLt
        simp only [ite_eq_right_iff, reduceCtorEq, imp_false]
        omega
    simp [hnil]

theorem fullReservation_run :
    run (step Layout.mkfs) (boot fun _ _ => 0) fullReservation = .error (.panic .logTooBig) :=
  rfl

/-- The last block of three maximal operations hits the panic. -/
theorem full_reservation_panics :
    ¬ ∀ (d : ℕ → Block) (es : List (Event Layout.mkfs)), decodeHead (d Layout.mkfs.start) = [] →
      WithinReservation es → run (step Layout.mkfs) (boot d) es ≠ .error .blocked →
      run (step Layout.mkfs) (boot d) es ≠ .error (.panic .logTooBig) := by
  intro hall
  apply hall (fun _ _ => 0) fullReservation _ fullReservation_within _ fullReservation_run
  · simp [decodeHead]
  · rw [fullReservation_run]
    simp

/-- In that run some `log_write` comes when the transaction has filled every slot. -/
theorem full_reservation_overfull :
    ¬ ∀ pre op b x post, fullReservation = pre ++ .logWrite op b x :: post →
      (openTx pre).2.length < logsize - 1 := by
  intro hcond
  have hes : run (step Layout.mkfs) (boot fun _ _ => 0) fullReservation ≠ .error .blocked := by
    rw [fullReservation_run]
    simp
  exact ((log_fits_iff (by simp [decodeHead]) hes).mpr hcond).1 fullReservation_run

end Xv6.Log
