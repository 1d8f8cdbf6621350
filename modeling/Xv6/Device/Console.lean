import Xv6.Lib.Monitor
import Xv6.Lib.Ring

/-!
Console input of `kernel/console.c`: the interrupt handler `consoleintr` and any number of
`consoleread` calls, under `cons.lock`, compared with a line editor that keeps its text in
lists. A turn of `consoleread` is one turn of its outer loop.
-/
namespace Xv6.Console
open Ring Monitor

abbrev inputBuf : ℕ := 128

theorem fits : Fits 32 inputBuf := ⟨by decide, by decide⟩

/-- `C(x)`, the control character of a letter. -/
def ctrl (x : Char) : UInt8 := UInt8.ofNat (x.toNat - '@'.toNat)

def newline : UInt8 := UInt8.ofNat '\n'.toNat
def carriageReturn : UInt8 := UInt8.ofNat '\r'.toNat
def delete : UInt8 := 0x7f

/-- The `cons` structure without its lock. -/
structure Cons where
  buf : ℕ → UInt8
  r : BitVec 32
  w : BitVec 32
  e : BitVec 32

/-- `&cons.r` is the one address slept on. -/
inductive Chan where
  | r
  deriving DecidableEq, Repr

/-- The variables of a `consoleread` call; `dst i` tells whether `either_copyout` can store the
`i`-th byte. -/
structure Loc where
  target : ℤ
  n : ℤ
  dst : ℕ → Bool

namespace Cons
variable (x : Cons)

/-- `cons.r++` -/
def take : Cons := { x with r := x.r + 1 }

/-- One turn of the loop of `consoleread`. Woken from its sleep, the source tests only
`cons.r == cons.w` again; the test of `n` that a turn starts with has not changed then. -/
def consoleread (l : Loc) (killed : Bool) : Turn Cons Loc Chan :=
  if 0 < l.n then
    if x.r = x.w then
      if killed then ⟨x, l, [], .leave (-1)⟩ else ⟨x, l, [], .sleep .r⟩
    else
      let c := x.buf (cell inputBuf x.r)
      if c = ctrl 'D' then
        if l.n < l.target then ⟨{ x.take with r := x.take.r - 1 }, l, [], .leave (l.target - l.n)⟩
        else ⟨x.take, l, [], .leave (l.target - l.n)⟩
      else if l.dst (l.target - l.n).toNat then
        if c = newline then
          ⟨x.take, { l with n := l.n - 1 }, [], .leave (l.target - (l.n - 1))⟩
        else ⟨x.take, { l with n := l.n - 1 }, [], .stay⟩
      else ⟨x.take, l, [], .leave (l.target - l.n)⟩
  else ⟨x, l, [], .leave (l.target - l.n)⟩

/-- The loop of the kill-line character, for at most `k` turns. -/
def killLine (buf : ℕ → UInt8) (w : BitVec 32) : ℕ → BitVec 32 → BitVec 32
  | 0, e => e
  | k + 1, e =>
    if e ≠ w ∧ buf (cell inputBuf (e - 1)) ≠ newline then killLine buf w k (e - 1) else e

/-- Store a character for `consoleread`, and commit the line if it is complete. -/
def store (c : UInt8) : Cons × List Chan :=
  let x := { x with buf := Function.update x.buf (cell inputBuf x.e) c, e := x.e + 1 }
  if c = newline ∨ c = ctrl 'D' ∨ x.e = x.r + BitVec.ofNat 32 inputBuf then
    ({ x with w := x.e }, [.r])
  else (x, [])

/-- `consoleintr`, with the channels it wakes. -/
def consoleintr (c : UInt8) : Cons × List Chan :=
  if c = ctrl 'P' then (x, [])
  else if c = ctrl 'U' then ({ x with e := killLine x.buf x.w (x.e - x.w).toNat x.e }, [])
  else if c = ctrl 'H' ∨ c = delete then
    (if x.e ≠ x.w then { x with e := x.e - 1 } else x, [])
  else if c ≠ 0 ∧ (x.e - x.r).toNat < inputBuf then
    x.store (if c = carriageReturn then newline else c)
  else (x, [])

end Cons

/-- The reference editor: everything it has committed, the line being typed, and how much of
what it committed has not been read yet. -/
structure Editor where
  out : List UInt8
  line : List UInt8
  unread : ℕ

namespace Editor
variable (ed : Editor)

def append (c : UInt8) : Editor :=
  let line := ed.line ++ [c]
  if c = newline ∨ c = ctrl 'D' ∨ ed.unread + line.length = inputBuf then
    ⟨ed.out ++ line, [], ed.unread + line.length⟩
  else { ed with line := line }

def type (c : UInt8) : Editor :=
  if c = ctrl 'P' ∨ c = 0 then ed
  else if c = ctrl 'U' then { ed with line := [] }
  else if c = ctrl 'H' ∨ c = delete then { ed with line := ed.line.dropLast }
  else if ed.unread + ed.line.length < inputBuf then
    ed.append (if c = carriageReturn then newline else c)
  else ed

end Editor

/-- A character that left the buffer: the call that took it, and whether that call was given
it. -/
structure Item where
  call : ℕ
  byte : UInt8
  copied : Bool

structure History where
  editor : Editor
  taken : List Item

/-- When `cons.r` moves, the character it passed was taken; the caller was given it if `n` went
down. -/
def History.note (h : History) (c : ℕ) (before after : Cons × Loc) : History :=
  if after.1.r = before.1.r then h
  else
    { editor := { h.editor with unread := h.editor.unread - 1 }
      taken := h.taken ++
        [⟨c, before.1.buf (cell inputBuf before.1.r), after.2.n ≠ before.2.n⟩] }

/-- The bytes taken from the console, in order. -/
def History.bytes (h : History) : List UInt8 := h.taken.map Item.byte

/-- The bytes that calls were given, in order. -/
def History.given (h : History) : List UInt8 := (h.taken.filter Item.copied).map Item.byte

/-- What the call `c` took. -/
def History.of (h : History) (c : ℕ) : List Item := h.taken.filter (·.call = c)

/-- How many bytes the call `c` was given. -/
def History.count (h : History) (c : ℕ) : ℕ := ((h.of c).filter Item.copied).length

/-- `consoleread` of `n` bytes; the events from outside are input characters. -/
def code : Code Cons Loc Chan (ℤ × (ℕ → Bool)) UInt8 Empty where
  start x _ q := .ok (x, ⟨q.1, q.1, q.2⟩)
  turn x _ l killed := .ok (x.consoleread l killed)
  outside x c := .ok (x.consoleintr c)
  locks _ := true

/-- The console beside the reference editor, which is typed the same characters. -/
abbrev observed : Code (Cons × History) Loc Chan (ℤ × (ℕ → Bool)) UInt8 Empty :=
  code.observe History.note fun h c _ _ => { h with editor := h.editor.type c }

abbrev ConsState := State (Cons × History) Loc Chan

def init (buf : ℕ → UInt8) : ConsState :=
  Monitor.init (⟨buf, 0, 0, 0⟩, ⟨⟨[], [], 0⟩, []⟩)

/-- The console holds what the editor has committed and nobody has read, followed by the line
being typed; the editor's output is what was taken followed by what is unread. -/
structure Sim (x : Cons) (h : History) (unread : List UInt8) : Prop where
  holds : Holds inputBuf x.buf x.r x.e (unread ++ h.editor.line)
  commit : x.w = x.r + BitVec.ofNat 32 unread.length
  out : h.editor.out = h.bytes ++ unread
  unread_eq : h.editor.unread = unread.length
  line : newline ∉ h.editor.line

section sim
variable {x : Cons} {h : History} {unread : List UInt8}

theorem Sim.committed (hs : Sim x h unread) : Holds inputBuf x.buf x.r x.w unread :=
  hs.commit ▸ hs.holds.left

theorem Sim.typed (hs : Sim x h unread) : (x.e - x.w).toNat = h.editor.line.length := by
  rw [hs.commit]
  exact hs.holds.distance_right fits

theorem Sim.typed_iff (hs : Sim x h unread) : x.e = x.w ↔ h.editor.line = [] := by
  rw [← List.length_eq_zero_iff, ← hs.typed]
  constructor
  · intro heq
    simp [heq]
  · intro hzero
    have hdiff : x.e - x.w = 0 := BitVec.eq_of_toNat_eq (by simpa using hzero)
    exact sub_eq_zero.1 hdiff

/-- Taking the oldest unread character. -/
theorem Sim.take {b : UInt8} {rest : List UInt8} (hs : Sim x h (b :: rest)) (c : ℕ)
    (l₁ l₂ : Loc) :
    Sim x.take (h.note c (x, l₁) (x.take, l₂)) rest ∧
      h.note c (x, l₁) (x.take, l₂) =
        { editor := { h.editor with unread := h.editor.unread - 1 }
          taken := h.taken ++ [⟨c, b, l₂.n ≠ l₁.n⟩] } := by
  have hb : x.buf (cell inputBuf x.r) = b := hs.committed.oldest
  have hnote : h.note c (x, l₁) (x.take, l₂) =
      { editor := { h.editor with unread := h.editor.unread - 1 }
        taken := h.taken ++ [⟨c, b, l₂.n ≠ l₁.n⟩] } := by
    simp [History.note, Cons.take, hb]
  refine ⟨?_, hnote⟩
  rw [hnote]
  refine ⟨hs.holds.pop fits, (hs.committed.pop fits).stop, ?_, ?_, hs.line⟩
  · rw [hs.out]
    simp [History.bytes]
  · simp [hs.unread_eq]

/-- The kill-line loop stops at the commit point: a line being typed has no newline. -/
theorem killLine_eq {buf : ℕ → UInt8} {r e w : BitVec 32} {line : List UInt8}
    (hholds : Holds inputBuf buf r e (unread ++ line))
    (hw : w = r + BitVec.ofNat 32 unread.length) (hline : newline ∉ line) :
    Cons.killLine buf w line.length e = w := by
  induction line using List.reverseRecOn generalizing e with
  | nil =>
    rw [hw, hholds.stop, List.append_nil]
    rfl
  | append_singleton line c ih =>
    rw [← List.append_assoc] at hholds
    have hnl : c ≠ newline ∧ newline ∉ line := by
      simp only [List.mem_append, List.mem_singleton, not_or] at hline
      exact ⟨Ne.symm hline.2, hline.1⟩
    have hne : e ≠ w := by
      intro heq
      have hdist := (List.append_assoc unread line [c] ▸ hholds).distance_right fits
      rw [← hw, heq] at hdist
      simp at hdist
    rw [List.length_append, List.length_singleton, Cons.killLine,
      if_pos ⟨hne, by rw [hholds.newest fits]; exact hnl.1⟩]
    exact ih hholds.unpush hnl.2

theorem Sim.store (hs : Sim x h unread) (c : UInt8)
    (hroom : (unread ++ h.editor.line).length < inputBuf) :
    ∃ unread', Sim (x.store c).1 { h with editor := h.editor.append c } unread' := by
  have hpush : Holds inputBuf (Function.update x.buf (cell inputBuf x.e) c) x.r (x.e + 1)
      (unread ++ (h.editor.line ++ [c])) := by
    rw [← List.append_assoc]
    exact hs.holds.push fits hroom
  have hfull : x.e + 1 = x.r + BitVec.ofNat 32 inputBuf ↔
      h.editor.unread + (h.editor.line ++ [c]).length = inputBuf := by
    rw [hpush.full_iff fits, hs.unread_eq, List.length_append]
  unfold Cons.store Editor.append
  by_cases hcommit : c = newline ∨ c = ctrl 'D' ∨ x.e + 1 = x.r + BitVec.ofNat 32 inputBuf
  · have hcommit' := hcommit
    rw [hfull] at hcommit'
    rw [if_pos hcommit, if_pos hcommit']
    refine ⟨unread ++ (h.editor.line ++ [c]), ?_, hpush.stop, ?_, ?_, by simp⟩
    · rw [List.append_nil]
      exact hpush
    · rw [hs.out, List.append_assoc]
      rfl
    · simp [hs.unread_eq]
  · have hcommit' := hcommit
    rw [hfull] at hcommit'
    rw [if_neg hcommit, if_neg hcommit']
    refine ⟨unread, hpush, hs.commit, hs.out, hs.unread_eq, ?_⟩
    simp only [List.mem_append, List.mem_singleton, not_or]
    exact ⟨hs.line, fun heq => hcommit (.inl heq.symm)⟩

/-- The handler does to the ring what the editor does to its lists. -/
theorem Sim.consoleintr (hs : Sim x h unread) (c : UInt8) :
    ∃ unread', Sim (x.consoleintr c).1 { h with editor := h.editor.type c } unread' := by
  unfold Cons.consoleintr Editor.type
  by_cases hP : c = ctrl 'P'
  · rw [if_pos hP, if_pos (.inl hP)]
    exact ⟨unread, hs⟩
  rw [if_neg hP]
  by_cases hU : c = ctrl 'U'
  · have hkeep : ¬ (c = ctrl 'P' ∨ c = 0) := by
      rw [hU]
      decide
    rw [if_pos hU, if_neg hkeep, if_pos hU, hs.typed, killLine_eq hs.holds hs.commit hs.line]
    refine ⟨unread, ?_, hs.commit, hs.out, hs.unread_eq, by simp⟩
    rw [List.append_nil]
    exact hs.committed
  rw [if_neg hU]
  by_cases hH : c = ctrl 'H' ∨ c = delete
  · have hkeep : ¬ (c = ctrl 'P' ∨ c = 0) := by
      rcases hH with rfl | rfl <;> decide
    rw [if_pos hH, if_neg hkeep, if_neg hU, if_pos hH]
    rcases List.eq_nil_or_concat h.editor.line with hnil | ⟨line, b, hline⟩
    · rw [if_neg (not_not.2 (hs.typed_iff.2 hnil)), hnil]
      refine ⟨unread, ?_, hs.commit, hs.out, hs.unread_eq, by simp⟩
      have hholds := hs.holds
      rwa [hnil] at hholds
    · rw [List.concat_eq_append] at hline
      have hne : x.e ≠ x.w := by
        rw [Ne, hs.typed_iff, hline]
        simp
      have hholds := hs.holds
      have hnl := hs.line
      rw [hline, ← List.append_assoc] at hholds
      rw [hline] at hnl
      rw [if_pos hne, hline, List.dropLast_concat]
      exact ⟨unread, hholds.unpush, hs.commit, hs.out, hs.unread_eq,
        fun hmem => hnl (List.mem_append_left _ hmem)⟩
  rw [if_neg hH]
  by_cases h0 : c = 0
  · rw [if_neg (fun hc => hc.1 h0), if_pos (.inr h0)]
    exact ⟨unread, hs⟩
  have hkeep : ¬ (c = ctrl 'P' ∨ c = 0) := not_or.2 ⟨hP, h0⟩
  rw [if_neg hkeep, if_neg hU, if_neg hH]
  have hlen : (x.e - x.r).toNat = h.editor.unread + h.editor.line.length := by
    rw [hs.holds.distance fits, List.length_append, hs.unread_eq]
  rw [hlen]
  by_cases hroom : h.editor.unread + h.editor.line.length < inputBuf
  · rw [if_pos ⟨h0, hroom⟩, if_pos hroom]
    exact hs.store _ (by rwa [List.length_append, ← hs.unread_eq])
  · rw [if_neg (fun hc => hroom hc.2), if_neg hroom]
    exact ⟨unread, hs⟩

end sim

/-- What is known of one call. -/
structure CallOk (x : Cons × History) (c : ℕ) (st : Stage) (l : Loc) : Prop where
  count : (x.2.count c : ℤ) = l.target - l.n
  /-- when every copy succeeds, the call is given all it takes but the end-of-file marks -/
  whole : (∀ i, l.dst i = true) → ∀ it ∈ x.2.of c, it.copied = decide (it.byte ≠ ctrl 'D')
  result : ∀ r, st = .returned r → r = -1 ∨ r = x.2.count c

section turn
variable {x : Cons} {h : History} {unread : List UInt8} {c d : ℕ} {l : Loc}

/-- What a turn must leave behind. -/
structure TurnOk (x : Cons) (h : History) (c : ℕ) (l : Loc) (T : Turn Cons Loc Chan) : Prop where
  sim : ∃ unread, Sim T.shared (h.note c (x, l) (T.shared, T.loc)) unread
  call : CallOk (T.shared, h.note c (x, l) (T.shared, T.loc)) c T.next.pc.stage T.loc
  others : ∀ d, d ≠ c → (h.note c (x, l) (T.shared, T.loc)).of d = h.of d

@[simp] theorem note_same (l₁ l₂ : Loc) : h.note c (x, l₁) (x, l₂) = h := by
  simp [History.note]

/-- A turn that leaves the console alone and ends with a result that is right, or sleeps. -/
theorem TurnOk.same (hs : Sim x h unread) (hok : CallOk (x, h) c .inside l) (ws : List Chan)
    (next : Next Chan) (hresult : ∀ r, next.pc.stage = .returned r → r = -1 ∨ r = h.count c) :
    TurnOk x h c l ⟨x, l, ws, next⟩ where
  sim := ⟨unread, by simpa using hs⟩
  call := ⟨by simpa using hok.count, by simpa using hok.whole, by simpa using hresult⟩
  others d _ := by simp

theorem History.of_snoc (h : History) (ed : Editor) (it : Item) (d : ℕ) :
    History.of { editor := ed, taken := h.taken ++ [it] } d =
      h.of d ++ if it.call = d then [it] else [] := by
  simp only [History.of, List.filter_append, List.filter_singleton]
  split <;> simp_all

theorem History.count_snoc (h : History) (ed : Editor) (it : Item) :
    History.count { editor := ed, taken := h.taken ++ [it] } it.call =
      h.count it.call + if it.copied then 1 else 0 := by
  simp only [History.count, History.of_snoc, if_pos]
  cases hcopied : it.copied <;> simp [hcopied]

/-- A turn that takes a character and gives it to the caller exactly if `copied`. -/
theorem TurnOk.take {b : UInt8} {rest : List UInt8} (hs : Sim x h (b :: rest))
    (hok : CallOk (x, h) c .inside l) {k : Loc} (htarget : k.target = l.target)
    (hdst : k.dst = l.dst) (copied : Bool)
    (hn : k.n = if copied then l.n - 1 else l.n)
    (hwhole : (∀ i, l.dst i = true) → copied = decide (b ≠ ctrl 'D')) (ws : List Chan)
    (next : Next Chan) (hresult : ∀ r, next.pc.stage = .returned r → r = k.target - k.n) :
    TurnOk x h c l ⟨x.take, k, ws, next⟩ := by
  obtain ⟨hsim, hnote⟩ := hs.take c l k
  have hcopied : decide (k.n ≠ l.n) = copied := by
    rw [hn]
    cases copied <;> simp
  rw [hcopied] at hnote
  have hcount : ((h.note c (x, l) (x.take, k)).count c : ℤ) = k.target - k.n := by
    have hold := hok.count
    simp only at hold
    rw [hnote, History.count_snoc, htarget, hn]
    cases copied
    · simpa using hold
    · push_cast
      simp only [if_true]
      omega
  refine ⟨⟨rest, hsim⟩, ⟨hcount, fun hall it hit => ?_, fun r hr => .inr ?_⟩, fun d hd => ?_⟩
  · rw [hdst] at hall
    rw [hnote, History.of_snoc, if_pos rfl, List.mem_append, List.mem_singleton] at hit
    rcases hit with hold | rfl
    · exact hok.whole hall it hold
    · exact hwhole hall
  · rw [hcount]
    exact hresult r hr
  · rw [hnote, History.of_snoc, if_neg (Ne.symm hd), List.append_nil]

theorem consoleread_ok (hs : Sim x h unread) (hok : CallOk (x, h) c .inside l) (killed : Bool) :
    TurnOk x h c l (x.consoleread l killed) := by
  have hcount : l.target - l.n = h.count c := hok.count.symm
  unfold Cons.consoleread
  by_cases hn : 0 < l.n
  · rw [if_pos hn]
    by_cases hempty : x.r = x.w
    · rw [if_pos hempty]
      cases killed
      · exact .same hs hok _ _ (by simp [Next.pc, Pc.stage])
      · exact .same hs hok _ _ (by simp [Next.pc, Pc.stage])
    · rw [if_neg hempty]
      cases unread with
      | nil => exact absurd ((hs.committed.empty_iff fits).2 rfl) hempty
      | cons b rest =>
        have hb : x.buf (cell inputBuf x.r) = b := hs.committed.oldest
        simp only [hb]
        by_cases hD : b = ctrl 'D'
        · rw [if_pos hD]
          by_cases hsome : l.n < l.target
          · -- the mark stays for the next read
            have hback : ({ x.take with r := x.take.r - 1 } : Cons) = x := by
              simp [Cons.take]
            rw [if_pos hsome, hback]
            exact .same hs hok _ _ (by simp [Next.pc, Pc.stage, hcount])
          · rw [if_neg hsome]
            exact .take hs hok rfl rfl false rfl (fun _ => by simp [hD]) _ _
              (by simp [Next.pc, Pc.stage])
        · rw [if_neg hD]
          by_cases hcopy : l.dst (l.target - l.n).toNat = true
          · rw [if_pos hcopy]
            by_cases hnl : b = newline
            · rw [if_pos hnl]
              exact .take (k := { l with n := l.n - 1 }) hs hok rfl rfl true rfl
                (fun _ => by simp [hD]) _ _ (by simp [Next.pc, Pc.stage])
            · rw [if_neg hnl]
              exact .take (k := { l with n := l.n - 1 }) hs hok rfl rfl true rfl
                (fun _ => by simp [hD]) _ _ (by simp [Next.pc, Pc.stage])
          · rw [if_neg hcopy]
            exact .take hs hok rfl rfl false rfl (fun hall => absurd (hall _) hcopy) _ _
              (by simp [Next.pc, Pc.stage])
  · rw [if_neg hn]
    exact .same hs hok _ _ (by simp [Next.pc, Pc.stage, hcount])

end turn

theorem observed_keeps : Keeps observed (fun x => ∃ unread, Sim x.1 x.2 unread) CallOk
    (fun x c => x.2.of c = []) where
  start := by
    intro x c q x' l hs hnew hx
    obtain ⟨rfl, rfl⟩ := Prod.mk.inj (Except.ok.inj hx)
    refine ⟨hs, ⟨?_, fun _ it hit => ?_, nofun⟩, fun _ _ _ _ hk => hk, fun _ _ hd => hd⟩
    · simp [History.count, hnew]
    · simp [hnew] at hit
  start_ok _ := nofun
  enter hs hok := ⟨hok.count, hok.whole, nofun⟩
  turn_ok killed _ _ := ⟨_, rfl⟩
  turn := by
    intro x c l killed T hs hok hT
    obtain rfl := Except.ok.inj hT
    obtain ⟨unread, hs⟩ := hs
    have hturn := consoleread_ok hs hok killed
    refine ⟨hturn.sim, hturn.call, fun d st k hd hst hk => ?_, fun d hd hnew => ?_⟩
    · have hof := hturn.others d hd
      refine ⟨?_, fun hall it hit => hk.whole hall it (hof ▸ hit), fun r hr => ?_⟩
      · simpa only [History.count, hof] using hk.count
      · simpa only [History.count, hof] using hk.result r hr
    · exact (hturn.others d hd).trans hnew
  outside_ok _ := nofun
  outside := by
    intro x c x' ws hs hx
    obtain ⟨rfl, rfl⟩ := Prod.mk.inj (Except.ok.inj hx)
    obtain ⟨unread, hs⟩ := hs
    exact ⟨hs.consoleintr c, fun d st k hst hk => ⟨hk.count, hk.whole, hk.result⟩,
      fun _ hnew => hnew⟩

theorem sim_init (buf : ℕ → UInt8) : Sim ⟨buf, 0, 0, 0⟩ ⟨⟨[], [], 0⟩, []⟩ [] :=
  ⟨Holds.empty buf 0, rfl, rfl, rfl, by simp⟩

/-- Erasing characters touches only the line being typed. -/
theorem erase_uncommitted {x : Cons} {h : History} {unread : List UInt8} (hs : Sim x h unread)
    {c : UInt8} (hc : c = ctrl 'H' ∨ c = delete ∨ c = ctrl 'U') :
    (x.consoleintr c).1.r = x.r ∧ (x.consoleintr c).1.w = x.w ∧
      (x.consoleintr c).1.buf = x.buf ∧
      ((x.consoleintr c).1.e - x.w).toNat ≤ (x.e - x.w).toNat := by
  have hback : x.e ≠ x.w → (x.e - 1 - x.w).toNat ≤ (x.e - x.w).toNat := by
    intro hne
    have hpos : (x.e - x.w).toNat ≠ 0 := by
      rw [hs.typed, Ne, List.length_eq_zero_iff, ← hs.typed_iff]
      exact hne
    rw [sub_right_comm]
    bv_omega
  unfold Cons.consoleintr
  rcases hc with rfl | rfl | rfl
  · rw [if_neg (by decide), if_neg (by decide), if_pos (by decide)]
    split
    · exact ⟨rfl, rfl, rfl, hback ‹_›⟩
    · exact ⟨rfl, rfl, rfl, le_rfl⟩
  · rw [if_neg (by decide), if_neg (by decide), if_pos (by decide)]
    split
    · exact ⟨rfl, rfl, rfl, hback ‹_›⟩
    · exact ⟨rfl, rfl, rfl, le_rfl⟩
  · rw [if_neg (by decide), if_pos rfl, hs.typed, killLine_eq hs.holds hs.commit hs.line]
    exact ⟨rfl, rfl, rfl, by simp⟩

/-- The console as a line editor with a queue of committed characters. -/
structure Disciplined (s : ConsState) : Prop where
  ordered : (s.shared.1.w - s.shared.1.r).toNat + (s.shared.1.e - s.shared.1.w).toNat =
    (s.shared.1.e - s.shared.1.r).toNat
  bounded : (s.shared.1.e - s.shared.1.r).toNat ≤ inputBuf
  /-- the characters taken are the first ones of the editor's output -/
  output : s.shared.2.bytes <+: s.shared.2.editor.out
  unread : s.shared.2.bytes.length + (s.shared.1.w - s.shared.1.r).toNat =
    s.shared.2.editor.out.length
  /-- the calls are given all of them but the end-of-file marks -/
  given : (∀ c k, s.call c = some k → ∀ i, k.loc.dst i = true) →
    s.shared.2.given = s.shared.2.bytes.filter (· ≠ ctrl 'D')
  result : ∀ c l r, s.call c = some ⟨l, .returned r⟩ → r = -1 ∨ r = s.shared.2.count c

/-- The step from `s` to `t` lets the call `c`, still wanting bytes, meet an end-of-file mark. -/
structure MeetsEof (s t : ConsState) (c : ℕ) (l : Loc) (killed : Bool) : Prop where
  running : s.call c = some ⟨l, .inside⟩
  wants : 0 < l.n
  ready : s.shared.1.r ≠ s.shared.1.w
  mark : s.shared.1.buf (cell inputBuf s.shared.1.r) = ctrl 'D'
  step : observed.step s (.run c killed) = .ok t

/-- The mark ends the read. A call that has been given nothing takes it and returns 0; one that
has been given bytes returns their number, and the mark is met again by the next read. -/
structure EndsRead (s t : ConsState) (c : ℕ) (l : Loc) : Prop where
  returns : t.call c = some ⟨l, .returned (s.shared.2.count c)⟩
  taken : s.shared.2.count c = 0 →
    t.shared.2.taken = s.shared.2.taken ++ [⟨c, ctrl 'D', false⟩]
  kept : s.shared.2.count c ≠ 0 → t.shared = s.shared

theorem MeetsEof.ends {s t : ConsState} {c : ℕ} {l : Loc} {killed : Bool}
    (hm : MeetsEof s t c l killed) (hok : CallOk s.shared c .inside l) : EndsRead s t c l := by
  have hcount : l.target - l.n = s.shared.2.count c := hok.count.symm
  have ht := hm.step
  simp only [Code.step, hm.running] at ht
  obtain rfl := Except.ok.inj ht
  have hturn : s.shared.1.consoleread l killed =
      ⟨if s.shared.2.count c = 0 then s.shared.1.take else s.shared.1, l, [],
        .leave (s.shared.2.count c)⟩ := by
    unfold Cons.consoleread
    simp only [if_pos hm.wants, if_neg hm.ready, hm.mark, if_true, hcount]
    by_cases hzero : s.shared.2.count c = 0
    · rw [if_neg (by omega), if_pos hzero]
    · rw [if_pos (by omega), if_neg hzero]
      simp [Cons.take]
  refine ⟨?_, fun hzero => ?_, fun hsome => ?_⟩
  · simp [State.commit, hturn, Next.pc]
  · simp [State.commit, hturn, hzero, History.note, Cons.take, hm.mark]
  · simp [State.commit, hturn, hsome]

/-- In every run of the interrupt handler and any number of `consoleread` calls, the console
behaves as the reference editor: its indices stay in order within the buffer, erasing never
reaches below the commit point, what the calls are given is a prefix of what the editor
committed, and an end-of-file mark ends a read without being given to it. -/
theorem console_refines_editor (buf : ℕ → UInt8)
    (es : List (Event (ℤ × (ℕ → Bool)) UInt8)) (s : ConsState)
    (hrun : Runs.run observed.step (init buf) es = .ok s) :
    Disciplined s ∧
      (∀ c, c = ctrl 'H' ∨ c = delete ∨ c = ctrl 'U' →
        (s.shared.1.consoleintr c).1.r = s.shared.1.r ∧
        (s.shared.1.consoleintr c).1.w = s.shared.1.w ∧
        (s.shared.1.consoleintr c).1.buf = s.shared.1.buf ∧
        ((s.shared.1.consoleintr c).1.e - s.shared.1.w).toNat ≤
          (s.shared.1.e - s.shared.1.w).toNat) ∧
      ∀ t c l killed, MeetsEof s t c l killed → EndsRead s t c l := by
  have hinv := observed_keeps.run ⟨[], sim_init buf⟩ (fun _ => rfl) hrun
  obtain ⟨unread, hs⟩ := hinv.shared
  have hdist := hs.holds.distance fits
  refine ⟨?_, fun c hc => erase_uncommitted hs hc,
    fun t c l killed hm => hm.ends (hinv.calls c _ hm.running)⟩
  refine ⟨?_, hdist ▸ hs.holds.length_le, ⟨unread, hs.out.symm⟩, ?_, fun hall => ?_,
    fun c l r hc => (hinv.calls c _ hc).result r rfl⟩
  · rw [hs.committed.distance fits, hs.typed, hdist, List.length_append]
  · rw [hs.committed.distance fits, hs.out, List.length_append]
  · -- every character taken was taken by one of the calls
    have hcopied : ∀ it ∈ s.shared.2.taken, it.copied = decide (it.byte ≠ ctrl 'D') := by
      intro it hit
      have hmem : it ∈ s.shared.2.of it.call := by simpa [History.of] using hit
      cases hk : s.call it.call with
      | none =>
        have hnew := hinv.new it.call hk
        simp [hnew] at hmem
      | some k => exact (hinv.calls it.call k hk).whole (hall it.call k hk) it hmem
    rw [History.given, History.bytes, List.filter_map,
      List.filter_congr (q := fun it => decide (it.byte ≠ ctrl 'D')) hcopied]
    rfl

/-- Two letters of which one is erased, then an end-of-file mark; a first read is given the
letter that is left, a second one finds the end of the file. -/
def eofRun : List (Event (ℤ × (ℕ → Bool)) UInt8) :=
  [.outside 97, .outside 98, .outside delete, .outside (ctrl 'D'),
    .start 0 (8, fun _ => true), .run 0 false, .run 0 false, .run 0 false,
    .start 1 (8, fun _ => true), .run 1 false, .run 1 false]

theorem console_refines_editor_eofRun :
    ∃ s, Runs.run observed.step (init fun _ => 0) eofRun = .ok s ∧
      s.shared.2.given = [97] ∧ s.shared.2.editor.out = [97, ctrl 'D'] ∧
      (s.call 1).map Call.pc = some (.returned 0) ∧ Disciplined s := by
  obtain ⟨s, hrun, hgiven, hout, hpc⟩ :
      ∃ s, Runs.run observed.step (init fun _ => 0) eofRun = .ok s ∧
        s.shared.2.given = [97] ∧ s.shared.2.editor.out = [97, ctrl 'D'] ∧
        (s.call 1).map Call.pc = some (.returned 0) := ⟨_, rfl, by decide, by decide, by decide⟩
  exact ⟨s, hrun, hgiven, hout, hpc, (console_refines_editor _ _ s hrun).1⟩

end Xv6.Console
