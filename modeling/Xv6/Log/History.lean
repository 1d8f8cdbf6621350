import Xv6.Log.Model

/-!
What the log is for, stated without its implementation: the transactions a run forms,
and the disk contents they add up to.
-/
namespace Xv6.Log

structure Write where
  op : ℕ
  blk : ℕ
  data : Block

/-- The operations that joined a transaction and what they logged, oldest first. -/
structure Tx where
  ops : List ℕ
  writes : List Write

/-- `all` records every `log_write` of the run; `closed` the transactions handed to
`commit` and not lost in a crash; the first `durable` of them have their commit header on
disk (or have no block to write). -/
structure Hist where
  all : List Write
  cur : Tx
  closed : List Tx
  durable : ℕ

def Hist.init : Hist := ⟨[], ⟨[], []⟩, [], 0⟩

variable {L : Layout}

/-- How a step taken in state `s` extends the history. -/
def Hist.step (h : Hist) (s : State) : Event L → Hist
  | .beginOp => { h with cur := { h.cur with ops := s.nextOp :: h.cur.ops } }
  | .logWrite op b data =>
    { h with
      all := h.all ++ [⟨op, b.1, data⟩]
      cur := { h.cur with writes := h.cur.writes ++ [⟨op, b.1, data⟩] } }
  | .endOp _ =>
    if s.outstanding = 1 then
      { h with
        cur := ⟨[], []⟩
        closed := h.closed ++ [h.cur]
        durable := if s.lh = [] then h.durable + 1 else h.durable }
    else h
  | .io => if s.phase = .writeHead then { h with durable := h.closed.length } else h
  | .crash => { h with cur := ⟨[], []⟩, closed := h.closed.take h.durable }
  | .bread _ | .evict _ => h

/-- The machine together with its history. -/
def stepH (L : Layout) (sh : State × Hist) (e : Event L) : Except Stop (State × Hist) :=
  match step L sh.1 e with
  | .ok s => .ok (s, sh.2.step sh.1 e)
  | .error x => .error x

theorem stepH_ok {s t : State} {h k : Hist} {e : Event L} :
    stepH L (s, h) e = .ok (t, k) ↔ step L s e = .ok t ∧ k = h.step s e := by
  unfold stepH
  cases step L s e <;> simp [eq_comm]

/-- The blocks after the writes, applied in order. -/
def applyWrites (m : ℕ → Block) (ws : List Write) : ℕ → Block :=
  ws.foldl (fun m w => Function.update m w.blk w.data) m

def applyTxs (m : ℕ → Block) (txs : List Tx) : ℕ → Block :=
  txs.foldl (fun m t => applyWrites m t.writes) m

@[simp] theorem applyWrites_nil (m : ℕ → Block) : applyWrites m [] = m := rfl

@[simp] theorem applyWrites_snoc (m : ℕ → Block) (ws : List Write) (w : Write) :
    applyWrites m (ws ++ [w]) = Function.update (applyWrites m ws) w.blk w.data := by
  simp [applyWrites]

@[simp] theorem applyTxs_nil (m : ℕ → Block) : applyTxs m [] = m := rfl

@[simp] theorem applyTxs_snoc (m : ℕ → Block) (txs : List Tx) (t : Tx) :
    applyTxs m (txs ++ [t]) = applyWrites (applyTxs m txs) t.writes := by
  simp [applyTxs]

/-- The contents the file system has once every logged write so far counts. -/
def Hist.view (h : Hist) (d : ℕ → Block) : ℕ → Block :=
  applyWrites (applyTxs d h.closed) h.cur.writes

/-- The contents after the durable prefix of the transactions. -/
def Hist.committed (h : Hist) (d : ℕ → Block) : ℕ → Block :=
  applyTxs d (h.closed.take h.durable)

end Xv6.Log
