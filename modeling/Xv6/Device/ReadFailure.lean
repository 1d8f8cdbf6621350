import Xv6.Device.Console
import Xv6.Device.Pipe

/-! Reads from a pipe and from the console whose buffer cannot be written everywhere. Both loops take
a byte out before they try to store it. -/
namespace Xv6
open Ring Monitor

/-- Of the `want` bytes that a read would store in a good buffer it has stored some, and has removed
as many, or one more when it could not store that one. -/
def Outcome (dst : ℕ → Bool) (want stored removed : ℕ) : Prop :=
  (stored = want ∧ removed = want ∧ ∀ i, i < want → dst i = true) ∨
    (stored < want ∧ removed = stored + 1 ∧ dst stored = false)

section outcome
variable {dst : ℕ → Bool} {want stored removed : ℕ}

theorem Outcome.eq_iff (h : Outcome dst want stored removed) :
    removed = stored ↔ ∀ i, i < want → dst i = true := by
  rcases h with ⟨rfl, rfl, hall⟩ | ⟨hlt, rfl, hfalse⟩
  · exact iff_of_true rfl hall
  · refine iff_of_false (by omega) fun hall => ?_
    rw [hall stored hlt] at hfalse
    cases hfalse

theorem Outcome.none : Outcome dst 0 0 0 :=
  Or.inl ⟨rfl, rfl, fun i hi => absurd hi (Nat.not_lt_zero i)⟩

theorem Outcome.fails (h : dst 0 = false) : Outcome dst (want + 1) 0 1 :=
  Or.inr ⟨Nat.succ_pos want, rfl, h⟩

/-- The first byte has been stored. -/
theorem Outcome.next (h0 : dst 0 = true)
    (h : Outcome (fun i => dst (i + 1)) want stored removed) :
    Outcome dst (want + 1) (stored + 1) (removed + 1) := by
  rcases h with ⟨rfl, rfl, hall⟩ | ⟨hlt, rfl, hfalse⟩
  · refine Or.inl ⟨rfl, rfl, fun i hi => ?_⟩
    cases i with
    | zero => exact h0
    | succ i => exact hall i (by omega)
  · exact Or.inr ⟨by omega, rfl, hfalse⟩

theorem Outcome.congr {dst' : ℕ → Bool} (h : Outcome dst want stored removed)
    (heq : ∀ i, dst i = dst' i) : Outcome dst' want stored removed := by
  rwa [← funext heq]

end outcome

/-- The distance of two counters goes down by one when the first is advanced. -/
theorem distance_succ {r e : BitVec 32} (h : r ≠ e) :
    (e - r).toNat = (e - (r + 1)).toNat + 1 := by
  bv_omega

namespace Pipes

/-- Bytes in the pipe. -/
def Pipe.available (p : Pipe) : ℕ := (p.nwrite - p.nread).toNat

theorem copies_outcome {dst : ℕ → Bool} (killed : Bool) (k : ℕ) (p : Pipe) (l : Loc)
    (hop : l.op = .read dst) (hcopy : l.copying = true)
    (hk : min (l.n - l.i).toNat p.available < k) :
    ∃ p' l' r stored removed, critical (fun p l => p.turn l killed) k p l = some (p', l', .leave r) ∧
      l'.i = l.i + stored ∧ p'.nread = p.nread + BitVec.ofNat 32 removed ∧
      removed ≤ p.available ∧
      Outcome (fun i => dst (l.i + i)) (min (l.n - l.i).toNat p.available) stored removed := by
  induction k generalizing p l with
  | zero => omega
  | succ k ih =>
    have hturn : p.turn l killed = p.pipereadCopy l dst := by
      simp only [Pipe.turn, hop, hcopy, if_true]
    rw [critical, hturn]
    unfold Pipe.pipereadCopy
    by_cases hmore : l.i < l.n ∧ p.nread ≠ p.nwrite
    · rw [if_pos hmore]
      dsimp only
      have havail : p.available = p.take.available + 1 := distance_succ hmore.2
      have hwant : min (l.n - l.i).toNat p.available =
          min (l.n - (l.i + 1 : ℕ)).toNat p.take.available + 1 := by
        have := hmore.1
        omega
      by_cases hdst : dst l.i = true
      · rw [if_pos hdst]
        dsimp only
        obtain ⟨p', l', r, stored, removed, hrun, hi, hnread, hle, hout⟩ :=
          ih p.take { l with i := l.i + 1, ch := p.data (cell pipesize p.nread) } hop hcopy
            (by dsimp only; omega)
        refine ⟨p', l', r, stored + 1, removed + 1, hrun, ?_, ?_, by omega, ?_⟩
        · rw [hi]
          dsimp only
          omega
        · rw [hnread, Pipe.take, Nat.add_comm removed, BitVec.ofNat_add, ← BitVec.add_assoc]
          rfl
        · rw [hwant]
          exact Outcome.next hdst (hout.congr fun i => congrArg dst (by dsimp only; omega))
      · rw [if_neg hdst]
        dsimp only
        refine ⟨_, _, _, 0, 1, rfl, rfl, rfl, by omega, ?_⟩
        rw [hwant]
        exact Outcome.fails (by simpa using hdst)
    · rw [if_neg hmore]
      dsimp only
      refine ⟨_, _, _, 0, 0, rfl, rfl, (BitVec.add_zero _).symm, Nat.zero_le _, ?_⟩
      have hzero : min (l.n - l.i).toNat p.available = 0 := by
        rcases not_and_or.1 hmore with h | h
        · omega
        · rw [not_not] at h
          simp [Pipe.available, h]
      rw [hzero]
      exact Outcome.none

/-- A call of `piperead` from when it has the lock until it sleeps or returns. -/
theorem piperead_outcome (p : Pipe) (n : ℤ) (ch : UInt8) (dst : ℕ → Bool) (killed : Bool) :
    ∃ p' l' next, (∀ k, n.toNat + 2 ≤ k →
        critical (fun p l => p.turn l killed) k p ⟨.read dst, n, 0, false, ch⟩ = some (p', l', next)) ∧
      Outcome dst (min n.toNat p.available) l'.i (p'.nread - p.nread).toNat := by
  have hturn : p.turn ⟨.read dst, n, 0, false, ch⟩ killed =
      p.pipereadWait ⟨.read dst, n, 0, false, ch⟩ killed := rfl
  by_cases hwait : p.nread = p.nwrite ∧ p.writeopen = true
  · have hzero : p.available = 0 := by simp [Pipe.available, hwait.1]
    have hout : Outcome dst (min n.toNat p.available) 0 (p.nread - p.nread).toNat := by
      rw [hzero, Nat.min_zero, BitVec.sub_self]
      exact Outcome.none
    cases killed with
    | true =>
      refine ⟨p, ⟨.read dst, n, 0, false, ch⟩, .leave (-1), fun k hk => ?_, hout⟩
      refine critical_mono (k := 1) ?_ (by omega)
      simp [critical, hturn, Pipe.pipereadWait, hwait]
    | false =>
      refine ⟨p, ⟨.read dst, n, 0, false, ch⟩, .sleep .nread, fun k hk => ?_, hout⟩
      refine critical_mono (k := 1) ?_ (by omega)
      simp [critical, hturn, Pipe.pipereadWait, hwait]
  · obtain ⟨p', l', r, stored, removed, hrun, hi, hnread, hle, hout⟩ :=
      copies_outcome killed (n.toNat + 1) p ⟨.read dst, n, 0, true, ch⟩ rfl rfl
        (by dsimp only; omega)
    refine ⟨p', l', .leave r, fun k hk => ?_, ?_⟩
    · refine critical_mono (k := n.toNat + 1 + 1) ?_ hk
      rw [critical, hturn, Pipe.pipereadWait, if_neg hwait]
      exact hrun
    · have hremoved : (p'.nread - p.nread).toNat = removed := by
        have hlt : removed < 2 ^ 32 := Nat.lt_of_le_of_lt hle (BitVec.isLt _)
        rw [hnread, BitVec.add_comm, BitVec.add_sub_cancel, BitVec.toNat_ofNat,
          Nat.mod_eq_of_lt hlt]
      dsimp only at hi hout
      rw [Nat.zero_add] at hi
      rw [hi, hremoved]
      simpa using hout

end Pipes

namespace Console

/-- The committed input that has not been read. -/
def Cons.committed (x : Cons) : List UInt8 := contents inputBuf x.buf x.r x.w

/-- How many bytes a read of `n` would store of the committed input: it stops at `^D`, and after a
newline. -/
def deliverable : ℕ → List UInt8 → ℕ
  | 0, _ => 0
  | _ + 1, [] => 0
  | n + 1, c :: cs =>
    if c = ctrl 'D' then 0 else if c = newline then 1 else deliverable n cs + 1

/-- The bytes between two positions, not counting the end of a file. -/
def dataBytes (cs : List UInt8) : ℕ := (cs.filter (· ≠ ctrl 'D')).length

section console
variable {x : Cons}

theorem committed_nil (h : x.r = x.w) : x.committed = [] := by
  simp [Cons.committed, contents, h]

theorem committed_cons (h : x.r ≠ x.w) :
    x.committed = x.buf (cell inputBuf x.r) :: x.take.committed := by
  rw [Cons.committed, contents, distance_succ h, List.range_succ_eq_map, List.map_cons, List.map_map]
  congr 1
  apply List.map_congr_left
  intro i _
  simp only [Function.comp_apply, Nat.succ_eq_add_one, Cons.take, fits.next_mod]

theorem contents_eq_take {q : ℕ} (hq : q ≤ x.committed.length) :
    contents inputBuf x.buf x.r (x.r + BitVec.ofNat 32 q) = x.committed.take q := by
  have hlen : x.committed.length = (x.w - x.r).toNat := by simp [Cons.committed, contents]
  have hlt : q < 2 ^ 32 := Nat.lt_of_le_of_lt (hlen ▸ hq) (BitVec.isLt _)
  rw [Cons.committed, contents, contents, BitVec.add_comm, BitVec.add_sub_cancel,
    BitVec.toNat_ofNat, Nat.mod_eq_of_lt hlt, ← List.map_take, List.take_range,
    Nat.min_eq_left (by rwa [← hlen])]

theorem dataBytes_cons {c : UInt8} (h : c ≠ ctrl 'D') (cs : List UInt8) :
    dataBytes (c :: cs) = dataBytes cs + 1 := by
  simp [dataBytes, h]

/-- A call of `consoleread` from when it has the lock, with `n` of its `target` bytes to go, until
it sleeps or returns. -/
theorem consoleread_outcome (killed : Bool) (k : ℕ) (x : Cons) (l : Loc) (hn : l.n ≤ l.target)
    (hk : l.n.toNat < k) :
    ∃ x' l' next, ∃ q stored : ℕ, critical (fun x l => Cons.consoleread x l killed) k x l =
        some (x', l', next) ∧ l'.n = l.n - stored ∧ x'.r = x.r + BitVec.ofNat 32 q ∧
      q ≤ x.committed.length ∧
      Outcome (fun i => l.dst ((l.target - l.n).toNat + i)) (deliverable l.n.toNat x.committed)
        stored (dataBytes (x.committed.take q)) := by
  induction k generalizing x l with
  | zero => omega
  | succ k ih =>
    rw [critical]
    unfold Cons.consoleread
    by_cases hpos : 0 < l.n
    swap
    · rw [if_neg hpos]
      refine ⟨_, _, _, 0, 0, rfl, by simp, (BitVec.add_zero _).symm, Nat.zero_le _, ?_⟩
      rw [Int.toNat_of_nonpos (show l.n ≤ 0 by omega), deliverable]
      exact Outcome.none
    rw [if_pos hpos]
    obtain ⟨n, hn'⟩ : ∃ n, l.n.toNat = n + 1 := ⟨l.n.toNat - 1, by omega⟩
    rw [hn']
    by_cases hempty : x.r = x.w
    · rw [if_pos hempty, committed_nil hempty]
      cases killed with
      | true => exact ⟨_, _, _, 0, 0, rfl, by simp, (BitVec.add_zero _).symm, le_rfl, Outcome.none⟩
      | false => exact ⟨_, _, _, 0, 0, rfl, by simp, (BitVec.add_zero _).symm, le_rfl, Outcome.none⟩
    rw [if_neg hempty, committed_cons hempty]
    set c := x.buf (cell inputBuf x.r)
    have hone : 1 ≤ (c :: x.take.committed).length := Nat.succ_pos _
    by_cases heof : c = ctrl 'D'
    · rw [if_pos heof, deliverable, if_pos heof]
      by_cases hlt : l.n < l.target
      · rw [if_pos hlt]
        refine ⟨_, _, _, 0, 0, rfl, by simp, ?_, Nat.zero_le _, Outcome.none⟩
        exact (BitVec.add_sub_cancel x.r 1).trans (BitVec.add_zero _).symm
      · rw [if_neg hlt]
        refine ⟨_, _, _, 1, 0, rfl, by simp, rfl, hone, ?_⟩
        rw [List.take_succ_cons, List.take_zero, dataBytes, heof]
        exact Outcome.none
    rw [if_neg heof, deliverable, if_neg heof]
    by_cases hdst : l.dst (l.target - l.n).toNat = true
    · rw [if_pos hdst]
      by_cases hline : c = newline
      · rw [if_pos hline, if_pos hline]
        refine ⟨_, _, _, 1, 1, rfl, by simp, rfl, hone, ?_⟩
        rw [List.take_succ_cons, List.take_zero, dataBytes_cons heof]
        exact Outcome.next hdst Outcome.none
      · rw [if_neg hline, if_neg hline]
        dsimp only
        obtain ⟨x', l', next, q, stored, hrun, hleft, hr, hq, hout⟩ :=
          ih x.take { l with n := l.n - 1 } (by dsimp only; omega) (by dsimp only; omega)
        dsimp only at hleft hout
        refine ⟨x', l', next, q + 1, stored + 1, hrun, ?_, ?_, Nat.succ_le_succ hq, ?_⟩
        · rw [hleft]
          push_cast
          omega
        · rw [hr, Cons.take, Nat.add_comm q, BitVec.ofNat_add, ← BitVec.add_assoc]
          rfl
        · rw [List.take_succ_cons, dataBytes_cons heof]
          rw [show (l.n - 1).toNat = n by omega] at hout
          refine Outcome.next hdst (hout.congr fun i => congrArg l.dst ?_)
          omega
    · rw [if_neg hdst]
      refine ⟨_, _, _, 1, 0, rfl, by simp, rfl, hone, ?_⟩
      rw [List.take_succ_cons, List.take_zero, dataBytes_cons heof]
      have hfalse : l.dst ((l.target - l.n).toNat + 0) = false := by simpa using hdst
      split
      · exact Outcome.fails hfalse
      · exact Outcome.fails hfalse

end console
end Console

/-- What a read has removed from a pipe, or from the console not counting an end of file, is what it
has stored exactly when it could store every byte that it would have delivered. In both statements
`dst i` tells whether byte `i` of the buffer can be written, and the call runs from when it has the
lock until it sleeps or returns. -/
theorem read_keeps_undelivered_iff (dst : ℕ → Bool) (killed : Bool) :
    (∀ (p : Pipes.Pipe) (n : ℤ) (ch : UInt8), ∃ p' l' next,
      (∀ k, n.toNat + 2 ≤ k → critical (fun p l => Pipes.Pipe.turn p l killed) k p
        ⟨.read dst, n, 0, false, ch⟩ = some (p', l', next)) ∧
      ((p'.nread - p.nread).toNat = l'.i ↔
        ∀ i, i < min n.toNat p.available → dst i = true)) ∧
    ∀ (x : Console.Cons) (target n : ℤ), n ≤ target → ∃ x' l' next,
      (∀ k, n.toNat + 1 ≤ k → critical (fun x l => Console.Cons.consoleread x l killed) k x
        ⟨target, n, dst⟩ = some (x', l', next)) ∧
      ((Console.dataBytes (contents Console.inputBuf x.buf x.r x'.r) : ℤ) = n - l'.n ↔
        ∀ i, i < Console.deliverable n.toNat x.committed → dst ((target - n).toNat + i) = true) := by
  constructor
  · intro p n ch
    obtain ⟨p', l', next, hrun, hout⟩ := Pipes.piperead_outcome p n ch dst killed
    exact ⟨p', l', next, hrun, hout.eq_iff⟩
  · intro x target n hn
    obtain ⟨x', l', next, q, stored, hrun, hleft, hr, hq, hout⟩ :=
      Console.consoleread_outcome killed (n.toNat + 1) x ⟨target, n, dst⟩ hn
        (Nat.lt_succ_self _)
    refine ⟨x', l', next, fun k hk => critical_mono hrun hk, ?_⟩
    rw [← hout.eq_iff, hr, Console.contents_eq_take hq, hleft]
    dsimp only
    omega

/-- Two bytes wait, and the second place of the buffer cannot be written: both are removed, one is
stored. -/
theorem read_loses_byte :
    (∃ p' l', critical (fun p l => Pipes.Pipe.turn p l false) 4
        ⟨fun i => UInt8.ofNat (97 + i), 0, 2, true, true, false⟩
        ⟨.read fun i => i == 0, 2, 0, false, 0⟩ = some (p', l', .leave 1) ∧ p'.nread = 2 ∧ l'.i = 1) ∧
    ∃ x' l', critical (fun x l => Console.Cons.consoleread x l false) 3
        ⟨fun i => UInt8.ofNat (97 + i), 0, 2, 2⟩ ⟨2, 2, fun i => i == 0⟩ =
          some (x', l', .leave 1) ∧ x'.r = 2 ∧ l'.n = 1 :=
  ⟨⟨_, _, rfl, by decide, by decide⟩, ⟨_, _, rfl, by decide, by decide⟩⟩

end Xv6
