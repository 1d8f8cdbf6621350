import Xv6.Lib.Monitor
import Xv6.Lib.Ring

/-!
The pipes of `kernel/pipe.c`: one pipe, and any number of `pipewrite` and `piperead` calls
on it under `pi->lock`. A turn of a call is one turn of its loop.
-/
namespace Xv6.Pipes
open Ring Monitor

abbrev pipesize : ℕ := 512

theorem fits : Fits 32 pipesize := ⟨by decide, by decide⟩

/-- `struct pipe` without its lock. -/
structure Pipe where
  data : ℕ → UInt8
  nread : BitVec 32
  nwrite : BitVec 32
  readopen : Bool
  writeopen : Bool
  /-- the page of the pipe went back to `kfree` -/
  freed : Bool

/-- The pipe `pipealloc` makes; `kalloc` leaves any bytes in `data`. -/
def pipealloc (data : ℕ → UInt8) : Pipe := ⟨data, 0, 0, true, true, false⟩

/-- The addresses slept on. -/
inductive Chan where
  | nread
  | nwrite
  deriving DecidableEq, Repr

/-- The two calls. What `copyin` finds at `addr + i`, and whether `copyout` can store there,
is up to the caller's memory. -/
inductive Op where
  | write (src : ℕ → Option UInt8)
  | read (dst : ℕ → Bool)

/-- The variables of a call; `copying` once `piperead` is in its second loop, and `ch` is the byte
that it hands to `copyout`. -/
structure Loc where
  op : Op
  n : ℤ
  i : ℕ
  copying : Bool
  ch : UInt8

namespace Pipe
variable (p : Pipe)

/-- `pi->data[pi->nwrite++ % PIPESIZE] = ch` -/
def put (ch : UInt8) : Pipe :=
  { p with
    data := Function.update p.data (cell pipesize p.nwrite) ch
    nwrite := p.nwrite + 1 }

/-- `pi->nread++` -/
def take : Pipe := { p with nread := p.nread + 1 }

/-- One turn of the loop of `pipewrite`; `killed` is what it reads from `pr->killed`. -/
def pipewrite (l : Loc) (src : ℕ → Option UInt8) (killed : Bool) : Turn Pipe Loc Chan :=
  if l.i < l.n then
    if !p.readopen || killed then ⟨p, l, [], .leave (-1)⟩
    else if p.nwrite = p.nread + BitVec.ofNat 32 pipesize then ⟨p, l, [.nread], .sleep .nwrite⟩
    else match src l.i with
      | none => ⟨p, l, [.nread], .leave l.i⟩
      | some ch => ⟨p.put ch, { l with i := l.i + 1 }, [], .stay⟩
  else ⟨p, l, [.nread], .leave l.i⟩

/-- One turn of the first loop of `piperead`. -/
def pipereadWait (l : Loc) (killed : Bool) : Turn Pipe Loc Chan :=
  if p.nread = p.nwrite ∧ p.writeopen = true then
    if killed then ⟨p, l, [], .leave (-1)⟩ else ⟨p, l, [], .sleep .nread⟩
  else ⟨p, { l with copying := true, i := 0 }, [], .stay⟩

/-- One turn of the second loop of `piperead`: the byte is gone even if `copyout` fails. -/
def pipereadCopy (l : Loc) (dst : ℕ → Bool) : Turn Pipe Loc Chan :=
  if l.i < l.n ∧ p.nread ≠ p.nwrite then
    let l := { l with ch := p.data (cell pipesize p.nread) }
    if dst l.i then ⟨p.take, { l with i := l.i + 1 }, [], .stay⟩
    else ⟨p.take, l, [.nwrite], .leave l.i⟩
  else ⟨p, l, [.nwrite], .leave l.i⟩

def turn (l : Loc) (killed : Bool) : Turn Pipe Loc Chan :=
  match l.op with
  | .write src => p.pipewrite l src killed
  | .read dst => if l.copying then p.pipereadCopy l dst else p.pipereadWait l killed

/-- `pipeclose`, one critical section, with the channel it wakes. -/
def pipeclose (writable : Bool) : Pipe × List Chan :=
  match writable with
  | true => ({ p with writeopen := false, freed := p.freed || !p.readopen }, [.nread])
  | false => ({ p with readopen := false, freed := p.freed || !p.writeopen }, [.nwrite])

end Pipe

/-- What went through the pipe: each byte put in, with the call that did it, and each byte
taken out. -/
structure History where
  put : List (ℕ × UInt8)
  taken : List UInt8

/-- The bytes the call `c` has put in, in order. -/
def History.of (h : History) (c : ℕ) : List UInt8 :=
  (h.put.filter (·.1 = c)).map Prod.snd

/-- Read the history off the counters: when `nwrite` moves, the byte then in the cell it left
was put in; when `nread` moves, the byte handed to `copyout` was taken. -/
def History.note (h : History) (c : ℕ) (before after : Pipe × Loc) : History where
  put := if after.1.nwrite = before.1.nwrite then h.put
    else h.put ++ [(c, after.1.data (cell pipesize before.1.nwrite))]
  taken := if after.1.nread = before.1.nread then h.taken
    else h.taken ++ [after.2.ch]

/-- The calls on a pipe, and `pipeclose`, which is given `writable`. -/
def code : Code Pipe Loc Chan (Op × ℤ) Bool Empty where
  start p _ q := .ok (p, ⟨q.1, q.2, 0, false, 0⟩)
  turn p _ l killed := .ok (p.turn l killed)
  outside p writable := .ok (p.pipeclose writable)
  locks _ := true

/-- The pipe with its history. -/
abbrev observed : Code (Pipe × History) Loc Chan (Op × ℤ) Bool Empty :=
  code.observe History.note fun h _ _ _ => h

abbrev PipeState := State (Pipe × History) Loc Chan

def init (data : ℕ → UInt8) : PipeState := Monitor.init (pipealloc data, ⟨[], []⟩)

/-- The bytes put in are those taken followed by those the buffer holds. -/
def Queue (x : Pipe × History) : Prop :=
  ∃ xs, Holds pipesize x.1.data x.1.nread x.1.nwrite xs ∧
    x.2.put.map Prod.snd = x.2.taken ++ xs

/-- What is known of one call. -/
structure CallOk (x : Pipe × History) (c : ℕ) (st : Stage) (l : Loc) : Prop where
  /-- a writer has put in exactly the first `i` bytes of its buffer -/
  own : ∀ src, l.op = .write src → (x.2.of c).map some = (List.range l.i).map src
  writer : ∀ src, l.op = .write src → l.copying = false
  waits : st = .waits → l.copying = false
  /-- a reader starts to copy only from a pipe that is not empty or closed for writing -/
  first : st = .inside → l.copying = true → l.i = 0 →
    x.1.nread ≠ x.1.nwrite ∨ x.1.writeopen = false

variable {dst : ℕ → Bool}

section turn
variable {p : Pipe} {h : History} {c d : ℕ} {l : Loc}

theorem Queue.put (hq : Queue (p, h)) (ch : UInt8)
    (hroom : p.nwrite ≠ p.nread + BitVec.ofNat 32 pipesize) :
    Queue (p.put ch, { h with put := h.put ++ [(c, ch)] }) := by
  obtain ⟨xs, hxs, hput⟩ := hq
  have hlt : xs.length < pipesize :=
    lt_of_le_of_ne hxs.length_le fun hfull => hroom ((hxs.full_iff fits).2 hfull)
  refine ⟨xs ++ [ch], hxs.push fits hlt, ?_⟩
  rw [List.map_append, hput, List.append_assoc]
  rfl

theorem Queue.take (hq : Queue (p, h)) (hsome : p.nread ≠ p.nwrite) :
    Queue (p.take, { h with taken := h.taken ++ [p.data (cell pipesize p.nread)] }) := by
  obtain ⟨xs, hxs, hput⟩ := hq
  cases xs with
  | nil => exact absurd ((hxs.empty_iff fits).2 rfl) hsome
  | cons x xs =>
    refine ⟨xs, hxs.pop fits, ?_⟩
    rw [hput, hxs.oldest, List.append_assoc]
    rfl

theorem History.of_put (h : History) (c d : ℕ) (ch : UInt8) :
    History.of { h with put := h.put ++ [(c, ch)] } d = h.of d ++ if c = d then [ch] else [] := by
  simp only [History.of, List.filter_append, List.map_append, List.filter_singleton]
  split <;> simp_all

@[simp] theorem note_same (l₁ l₂ : Loc) : h.note c (p, l₁) (p, l₂) = h := by
  simp [History.note]

@[simp] theorem note_put (l₁ l₂ : Loc) (ch : UInt8) :
    h.note c (p, l₁) (p.put ch, l₂) = { h with put := h.put ++ [(c, ch)] } := by
  simp [History.note, Pipe.put]

@[simp] theorem note_take (l₁ l₂ : Loc) :
    h.note c (p, l₁) (p.take, l₂) = { h with taken := h.taken ++ [l₂.ch] } := by
  simp [History.note, Pipe.take]

/-- What a turn must leave behind. -/
structure TurnOk (p : Pipe) (h : History) (c : ℕ) (l : Loc) (T : Turn Pipe Loc Chan) :
    Prop where
  queue : Queue (T.shared, h.note c (p, l) (T.shared, T.loc))
  call : CallOk (T.shared, h.note c (p, l) (T.shared, T.loc)) c T.next.pc.stage T.loc
  others : ∀ d, d ≠ c → (h.note c (p, l) (T.shared, T.loc)).of d = h.of d

section
variable (hq : Queue (p, h)) (hok : CallOk (p, h) c .inside l)
include hq hok

/-- A turn that leaves the pipe alone and gives the lock up. -/
theorem TurnOk.quit (hcopy : l.copying = false) (ws : List Chan) (next : Next Chan)
    (hnext : next.pc ≠ .inside) :
    TurnOk p h c l ⟨p, l, ws, next⟩ where
  queue := by simpa using hq
  call := by
    refine ⟨by simpa using hok.own, hok.writer, fun _ => hcopy, fun hin => ?_⟩
    exact absurd (Pc.stage_inside.1 hin) hnext
  others d _ := by simp

/-- A turn that leaves the pipe alone and returns. -/
theorem TurnOk.leave (ws : List Chan) (r : ℤ) : TurnOk p h c l ⟨p, l, ws, .leave r⟩ where
  queue := by simpa using hq
  call := ⟨by simpa using hok.own, hok.writer, by simp [Next.pc, Pc.stage], by simp [Next.pc, Pc.stage]⟩
  others d _ := by simp

theorem pipewrite_ok {src : ℕ → Option UInt8} (hop : l.op = .write src)
    (killed : Bool) : TurnOk p h c l (p.pipewrite l src killed) := by
  have hcopy := hok.writer src hop
  unfold Pipe.pipewrite
  split
  · split
    · exact .leave hq hok _ _
    · split
      · exact .quit hq hok hcopy _ _ (by simp [Next.pc])
      · rename_i hroom
        split
        · exact .leave hq hok _ _
        · rename_i ch hch
          refine ⟨?_, ⟨fun src' hsrc => ?_, hok.writer, fun _ => hcopy, fun _ hcopying => ?_⟩,
            fun d hd => ?_⟩
          · rw [note_put]
            exact hq.put ch hroom
          · obtain rfl : src = src' := by simpa [hop] using hsrc
            rw [note_put, History.of_put, if_pos rfl, List.map_append, hok.own src hop,
              List.range_succ, List.map_append]
            simp [hch]
          · exact absurd (hcopy.symm.trans hcopying) (by simp)
          · rw [note_put, History.of_put, if_neg (Ne.symm hd), List.append_nil]
  · exact .leave hq hok _ _

theorem pipereadWait_ok (hop : l.op = .read dst) (hcopy : l.copying = false)
    (killed : Bool) : TurnOk p h c l (p.pipereadWait l killed) := by
  unfold Pipe.pipereadWait
  split
  · split
    · exact .leave hq hok _ _
    · exact .quit hq hok hcopy _ _ (by simp [Next.pc])
  · rename_i hready
    have hread : ∀ src, l.op ≠ .write src := by simp [hop]
    refine ⟨by simpa using hq, ⟨fun src hsrc => absurd hsrc (hread src),
      fun src hsrc => absurd hsrc (hread src), by simp [Next.pc, Pc.stage],
      fun _ _ _ => ?_⟩, fun d _ => by simp⟩
    · by_cases hempty : p.nread = p.nwrite
      · exact .inr (by simpa [hempty] using hready)
      · exact .inl hempty

theorem pipereadCopy_ok (hop : l.op = .read dst) : TurnOk p h c l (p.pipereadCopy l dst) := by
  have hread : ∀ src, l.op ≠ .write src := by simp [hop]
  unfold Pipe.pipereadCopy
  split
  · rename_i hmore
    have htaken := hq.take hmore.2
    dsimp only
    split
    · exact ⟨by rwa [note_take], ⟨fun src hsrc => absurd hsrc (hread src),
        fun src hsrc => absurd hsrc (hread src), by simp [Next.pc, Pc.stage],
        fun _ _ hi => absurd hi (Nat.succ_ne_zero _)⟩, fun d _ => by rw [note_take]; rfl⟩
    · exact ⟨by rwa [note_take], ⟨fun src hsrc => absurd hsrc (hread src),
        fun src hsrc => absurd hsrc (hread src), by simp [Next.pc, Pc.stage],
        by simp [Next.pc, Pc.stage]⟩, fun d _ => by rw [note_take]; rfl⟩
  · exact .leave hq hok _ _

theorem turn_ok (killed : Bool) : TurnOk p h c l (p.turn l killed) := by
  unfold Pipe.turn
  split
  · exact pipewrite_ok hq hok ‹_› killed
  · split
    · exact pipereadCopy_ok hq hok ‹_›
    · exact pipereadWait_ok hq hok ‹_› (by simpa using ‹¬ l.copying = true›) killed

end

end turn

theorem observed_keeps :
    Keeps observed Queue CallOk (fun x c => x.2.of c = []) where
  start := by
    intro x c q x' l hq hnew hx
    obtain ⟨rfl, rfl⟩ := Prod.mk.inj (Except.ok.inj hx)
    refine ⟨hq, ⟨fun src _ => ?_, fun _ _ => rfl, fun _ => rfl, by simp⟩, fun _ _ _ _ hk => hk,
      fun _ _ hd => hd⟩
    simp [hnew]
  start_ok _ := nofun
  enter hq hok := by
    refine ⟨hok.own, hok.writer, by simp, fun _ hcopying => ?_⟩
    exact absurd (hok.waits rfl) (by simp [hcopying])
  turn_ok killed _ _ := ⟨_, rfl⟩
  turn := by
    intro x c l killed T hq hok hT
    obtain rfl := Except.ok.inj hT
    have hturn := turn_ok hq hok killed
    refine ⟨hturn.queue, hturn.call, fun d st k hd hst hk => ?_, fun d hd hnew => ?_⟩
    · refine ⟨fun src hsrc => ?_, hk.writer, hk.waits, fun hin => absurd hin hst⟩
      exact (congrArg _ (hturn.others d hd)).trans (hk.own src hsrc)
    · exact (hturn.others d hd).trans hnew
  outside_ok _ := nofun
  outside := by
    intro x writable x' ws hq hx
    obtain ⟨rfl, rfl⟩ := Prod.mk.inj (Except.ok.inj hx)
    refine ⟨?_, fun d st k hst hk => ?_, fun _ hnew => hnew⟩
    · obtain ⟨xs, hxs, hput⟩ := hq
      cases writable <;> exact ⟨xs, ⟨hxs.length_le, hxs.stop, hxs.cells⟩, hput⟩
    · exact ⟨hk.own, hk.writer, hk.waits, fun hin => absurd hin (hst rfl)⟩

theorem queue_init (data : ℕ → UInt8) : Queue (pipealloc data, ⟨[], []⟩) :=
  ⟨[], Holds.empty data 0, rfl⟩

/-- The pipe as a bounded stream of bytes. -/
structure Fifo (s : PipeState) : Prop where
  bounded : (s.shared.1.nwrite - s.shared.1.nread).toNat ≤ pipesize
  order : s.shared.2.taken <+: s.shared.2.put.map Prod.snd
  length : s.shared.2.taken.length + (s.shared.1.nwrite - s.shared.1.nread).toNat =
    s.shared.2.put.length
  /-- a writer's bytes are the first ones of its buffer, in its order -/
  own : ∀ c k src, s.call c = some k → k.loc.op = .write src →
    (s.shared.2.of c).map some = (List.range k.loc.i).map src

/-- The step from `s` to `t` makes a `piperead` call of `c`, with `n > 0` and a buffer that
every copy reaches, return 0. -/
structure ReadsZero (s t : PipeState) (c : ℕ) (l : Loc) (dst : ℕ → Bool) : Prop where
  running : s.call c = some ⟨l, .inside⟩
  op : l.op = .read dst
  pos : 0 < l.n
  copies : ∀ i : ℕ, i < l.n → dst i = true
  returns : ∃ l', t.call c = some ⟨l', .returned 0⟩

/-- Only the second loop can make `piperead` return 0, and only by finding the pipe empty at
its first turn. -/
theorem turn_leaves_zero {p : Pipe} {l : Loc} {killed : Bool} (hop : l.op = .read dst)
    (hpos : 0 < l.n) (hcopies : ∀ i : ℕ, i < l.n → dst i = true)
    (hnext : (p.turn l killed).next.pc = .returned 0) :
    l.copying = true ∧ l.i = 0 ∧ p.nread = p.nwrite ∧ (p.turn l killed).shared = p := by
  unfold Pipe.turn at hnext ⊢
  simp only [hop] at hnext ⊢
  by_cases hcopying : l.copying = true
  · simp only [hcopying, if_true, Pipe.pipereadCopy] at hnext ⊢
    by_cases hmore : l.i < l.n ∧ p.nread ≠ p.nwrite
    · rw [if_pos hmore, if_pos (hcopies l.i hmore.1)] at hnext
      simp [Next.pc] at hnext
    · rw [if_neg hmore] at hnext ⊢
      have hi : l.i = 0 := by simpa [Next.pc] using hnext
      refine ⟨trivial, hi, ?_, rfl⟩
      by_contra hne
      exact hmore ⟨by simpa [hi] using hpos, hne⟩
  · simp only [hcopying, Pipe.pipereadWait] at hnext
    split at hnext
    · contradiction
    · split at hnext
      · split at hnext <;> simp [Next.pc] at hnext
      · simp [Next.pc] at hnext

/-- In every run of any number of calls on a pipe, the bytes taken out are those put in, in
order, short of the at most `PIPESIZE` the pipe still holds; each writer's bytes go in in its
own order; and a `piperead` finds the end of the file only when the write side is closed and
every byte has been taken. -/
theorem pipe_is_fifo (data : ℕ → UInt8) (es : List (Event (Op × ℤ) Bool)) (s : PipeState)
    (hrun : Runs.run observed.step (init data) es = .ok s) :
    Fifo s ∧
      ∀ c killed t l dst, observed.step s (.run c killed) = .ok t → ReadsZero s t c l dst →
        t.shared.1.writeopen = false ∧ t.shared.2.taken = t.shared.2.put.map Prod.snd := by
  have hinv := observed_keeps.run (queue_init data) (fun _ => rfl) hrun
  obtain ⟨xs, hxs, hput⟩ := hinv.shared
  refine ⟨?_, fun c killed t l dst ht hz => ?_⟩
  · have hdist := hxs.distance fits
    refine ⟨hdist ▸ hxs.length_le, ⟨xs, hput.symm⟩, ?_, fun c k src hk => (hinv.calls c k hk).own src⟩
    rw [hdist, ← List.length_append, ← hput, List.length_map]
  · simp only [Code.step, hz.running] at ht
    obtain rfl := Except.ok.inj ht
    obtain ⟨l', hl'⟩ := hz.returns
    have hnext : (s.shared.1.turn l killed).next.pc = .returned 0 := by
      simp only [State.commit, Function.update_self, Option.some.injEq, Call.mk.injEq] at hl'
      exact hl'.2
    obtain ⟨hcopying, hi, hempty, hpipe⟩ := turn_leaves_zero hz.op hz.pos hz.copies hnext
    have hclosed := ((hinv.calls c _ hz.running).first rfl hcopying hi).resolve_left
      (fun hne => hne hempty)
    obtain rfl := (hxs.empty_iff fits).1 hempty
    simp only [State.commit, hpipe, note_same]
    exact ⟨hclosed, by simpa using hput.symm⟩

/-- A writer puts two bytes in and the write side is closed; a reader takes them. -/
def twoBytes : List (Event (Op × ℤ) Bool) :=
  [.start 0 (.write fun i => some (UInt8.ofNat i), 2), .run 0 false, .run 0 false, .run 0 false,
    .run 0 false, .outside true, .start 1 (.read fun _ => true, 8), .run 1 false, .run 1 false,
    .run 1 false, .run 1 false]

theorem pipe_is_fifo_twoBytes :
    ∃ s, Runs.run observed.step (init fun _ => 0) twoBytes = .ok s ∧
      s.shared.2.taken = [0, 1] ∧ Fifo s := by
  obtain ⟨s, hrun, htaken⟩ : ∃ s, Runs.run observed.step (init fun _ => 0) twoBytes = .ok s ∧
      s.shared.2.taken = [0, 1] := ⟨_, rfl, by decide⟩
  exact ⟨s, hrun, htaken, (pipe_is_fifo _ _ s hrun).1⟩

end Xv6.Pipes
