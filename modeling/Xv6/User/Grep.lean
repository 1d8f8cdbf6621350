import Xv6.Lib.Bytes
import Xv6.User.Memmove
import Xv6.User.Regex

/-! The loop of user/grep.c over its buffer of 1024 bytes. The loops take fuel. -/
namespace Xv6.Grep
open Bytes

/-- `sizeof(buf)` -/
abbrev bufSize : ℕ := 1024

def newline : UInt8 := UInt8.ofNat '\n'.toNat

/-- `strchr(p, c)` -/
def strchr (b : Buf) (c : UInt8) : ℕ → ℕ → Option ℕ
  | 0, _ => none
  | k + 1, p => if b p = 0 then none else if b p = c then some p else strchr b c k (p + 1)

/-- The string at `p`. -/
def stringAt (b : Buf) (p : ℕ) : List UInt8 := (read b p (bufSize - p)).takeWhile (· ≠ 0)

/-- The inner loop: a line that matches is written out. The result is the buffer, where the rest
begins, and what has been written. -/
def grepLines (re : List UInt8) : ℕ → Buf → ℕ → List UInt8 → Option (Buf × ℕ × List UInt8)
  | 0, _, _, _ => none
  | k + 1, b, p, out =>
    match strchr b newline bufSize p with
    | none => some (b, p, out)
    | some q =>
      let b := Function.update b q 0
      if matchText re (stringAt b p) then
        let b := Function.update b q newline
        grepLines re k b (q + 1) (out ++ read b p (q + 1 - p))
      else grepLines re k b (q + 1) out

/-- `memmove(buf, p, m)`, with addresses counted from `buf`. -/
def moveDown (b : Buf) (p m : ℕ) : Buf := fun k =>
  (User.memmove (fun a => b a.toNat) 0 (BitVec.ofNat 64 p) (BitVec.ofNat 32 m)).2 (BitVec.ofNat 64 k)

/-- The outer loop. What is left of the input is `input`; the read number `i` gives at most
`want i + 1` bytes of it, and no more than there is room for. -/
def grepReads (re : List UInt8) (want : ℕ → ℕ) :
    ℕ → ℕ → Buf → ℕ → List UInt8 → List UInt8 → Option (List UInt8)
  | 0, _, _, _, _, _ => none
  | k + 1, i, b, m, input, out =>
    let n := min (want i + 1) (bufSize - m - 1)
    let chunk := input.take n
    if chunk = [] then some out
    else
      let b := write b m chunk
      let m := m + chunk.length
      let b := Function.update b m 0
      match grepLines re (bufSize + 1) b 0 out with
      | none => none
      | some (b, p, out) =>
        if 0 < m then grepReads re want k (i + 1) (moveDown b p (m - p)) (m - p) (input.drop n) out
        else grepReads re want k (i + 1) b m (input.drop n) out

/-- What `grep(pattern, fd)` writes. The buffer is zero when the program starts, and for every
further file it is what the call for the last one has left. -/
def grep (re : List UInt8) (want : ℕ → ℕ) (buf : Buf) (input : List UInt8) (fuel : ℕ) :
    Option (List UInt8) :=
  grepReads re want fuel 0 buf 0 input []

/-! The lines of the input. -/

/-- The lines that a newline ends, and what comes after the last newline. -/
def lines : List UInt8 → List (List UInt8) × List UInt8
  | [] => ([], [])
  | c :: s =>
    if c = newline then ([] :: (lines s).1, (lines s).2)
    else match lines s with
      | ([], r) => ([], c :: r)
      | (l :: ls, r) => ((c :: l) :: ls, r)

/-- Those of the lines that match, each with its newline. -/
def printed (re : List UInt8) (ls : List (List UInt8)) : List UInt8 :=
  (ls.filter (matchText re)).flatMap (· ++ [newline])

/-- The line is found by `grep` with its newline in the buffer. -/
def Short (l : List UInt8) : Bool := l.length < bufSize - 1

variable (re : List UInt8)

section lines
variable {x s : List UInt8}

theorem lines_of_notMem (h : newline ∉ x) : lines x = ([], x) := by
  induction x with
  | nil => rfl
  | cons c x ih =>
    rw [List.mem_cons, not_or] at h
    rw [lines, if_neg (Ne.symm h.1), ih h.2]

theorem lines_cons (h : newline ∉ x) :
    lines (x ++ newline :: s) = (x :: (lines s).1, (lines s).2) := by
  induction x with
  | nil => rw [List.nil_append, lines, if_pos rfl]
  | cons c x ih =>
    rw [List.mem_cons, not_or] at h
    rw [List.cons_append, lines, if_neg (Ne.symm h.1), ih h.2]

/-- A text either has no newline, or begins with a line. -/
theorem lines_cases (x : List UInt8) : newline ∉ x ∨
    ∃ l s, x = l ++ newline :: s ∧ newline ∉ l := by
  by_cases h : newline ∈ x
  · obtain ⟨l, s, rfl, hl⟩ := List.eq_append_cons_of_mem h
    exact Or.inr ⟨l, s, rfl, hl⟩
  · exact Or.inl h

/-- Induction over a text line by line. -/
@[elab_as_elim] theorem text_induction {motive : List UInt8 → Prop} (x : List UInt8)
    (rest : ∀ x, newline ∉ x → motive x)
    (line : ∀ l s, newline ∉ l → motive s → motive (l ++ newline :: s)) : motive x := by
  induction hn : x.length using Nat.strong_induction_on generalizing x with
  | _ n ih =>
    rcases lines_cases x with h | ⟨l, s, rfl, hl⟩
    · exact rest x h
    · refine line l s hl (ih s.length ?_ s rfl)
      rw [← hn, List.length_append, List.length_cons]
      omega

theorem lines_append (x s : List UInt8) :
    lines (x ++ s) = ((lines x).1 ++ (lines ((lines x).2 ++ s)).1, (lines ((lines x).2 ++ s)).2) := by
  induction x using text_induction with
  | rest x h =>
    rw [lines_of_notMem h]
    rfl
  | line l y hl ih =>
    rw [List.append_assoc, List.cons_append, lines_cons hl, lines_cons hl, ih]
    rfl

theorem notMem_rest (x : List UInt8) : newline ∉ (lines x).2 := by
  induction x using text_induction with
  | rest x h => rwa [lines_of_notMem h]
  | line l y hl ih => rwa [lines_cons hl]

theorem rest_suffix (x : List UInt8) : (lines x).2 <:+ x := by
  induction x using text_induction with
  | rest x h => rw [lines_of_notMem h]
  | line l y hl ih =>
    rw [lines_cons hl]
    exact (ih.trans (List.suffix_cons newline y)).trans (List.suffix_append l _)

theorem length_line_lt {l : List UInt8} (h : l ∈ (lines x).1) : l.length < x.length := by
  induction x using text_induction with
  | rest x hx =>
    rw [lines_of_notMem hx] at h
    cases h
  | line l' y hl' ih =>
    rw [lines_cons hl'] at h
    rw [List.length_append, List.length_cons]
    rcases List.mem_cons.1 h with rfl | h
    · omega
    · have hy := ih h
      omega

theorem printed_cons (re l : List UInt8) (ls : List (List UInt8)) :
    printed re (l :: ls) = (if matchText re l then l ++ [newline] else []) ++ printed re ls := by
  unfold printed
  cases h : matchText re l <;> simp [h]

theorem printed_append (ls ls' : List (List UInt8)) :
    printed re (ls ++ ls') = printed re ls ++ printed re ls' := by
  simp [printed]

theorem printed_eq_nil_iff (ls : List (List UInt8)) :
    printed re ls = [] ↔ ∀ l ∈ ls, matchText re l = false := by
  induction ls with
  | nil => simp [printed]
  | cons l ls ih =>
    rw [printed_cons, List.append_eq_nil_iff, ih, List.forall_mem_cons]
    cases matchText re l <;> simp

end lines

/-- The bytes `x` are in the buffer from `p` on. -/
def At (b : Buf) (p : ℕ) (x : List UInt8) : Prop := read b p x.length = x

section buffer
variable {b b' : Buf} {p k : ℕ} {c : UInt8} {x s : List UInt8}

theorem At.append : At b p (x ++ s) ↔ At b p x ∧ At b (p + x.length) s := by
  unfold At
  rw [List.length_append, read_add]
  constructor
  · intro h
    exact List.append_inj h (read_length ..)
  · rintro ⟨hx, hs⟩
    rw [hx, hs]

theorem At.cons : At b p (c :: s) ↔ b p = c ∧ At b (p + 1) s := by
  rw [← List.singleton_append, At.append]
  simp [At, Bytes.read]

theorem At.congr (h : At b p x) (hb : ∀ k, p ≤ k → k < p + x.length → b' k = b k) :
    At b' p x := (read_congr hb).trans h

theorem strchr_none (h : At b p x) (hend : b (p + x.length) = 0) (hc : c ∉ x) :
    strchr b c k p = none := by
  induction k generalizing p x with
  | zero => rfl
  | succ k ih =>
    cases x with
    | nil =>
      rw [List.length_nil, Nat.add_zero] at hend
      rw [strchr, if_pos hend]
    | cons d x =>
      obtain ⟨hd, hx⟩ := At.cons.1 h
      rw [List.mem_cons, not_or] at hc
      rw [List.length_cons, Nat.add_comm x.length, ← Nat.add_assoc] at hend
      rw [strchr]
      split
      · rfl
      · rw [if_neg (by rw [hd]; exact Ne.symm hc.1), ih hx hend hc.2]

theorem strchr_some (h : At b p (x ++ c :: s)) (hx : 0 ∉ x) (hc0 : c ≠ 0) (hc : c ∉ x)
    (hk : x.length < k) : strchr b c k p = some (p + x.length) := by
  induction k generalizing p x with
  | zero => omega
  | succ k ih =>
    cases x with
    | nil =>
      have hbc : b p = c := (At.cons.1 h).1
      rw [strchr, hbc, if_neg hc0, if_pos rfl]
      rfl
    | cons d x =>
      obtain ⟨hd, hrest⟩ := At.cons.1 h
      rw [List.mem_cons, not_or] at hx hc
      rw [List.length_cons] at hk
      rw [strchr, hd, if_neg (Ne.symm hx.1), if_neg (Ne.symm hc.1),
        ih hrest hx.2 hc.2 (by omega), List.length_cons, Nat.add_right_comm, Nat.add_assoc]

theorem stringAt_eq (h : At b p x) (hend : b (p + x.length) = 0) (hx : 0 ∉ x)
    (hlt : p + x.length < bufSize) : stringAt b p = x := by
  have hlen : bufSize - p = x.length + (1 + (bufSize - p - x.length - 1)) := by omega
  rw [stringAt, hlen, read_add, read_add, h, List.takeWhile_append_of_pos]
  · have hone : read b (p + x.length) 1 = [0] := by simp [Bytes.read, hend]
    rw [hone]
    simp
  · intro d hd
    simpa using fun h0 : d = 0 => hx (h0 ▸ hd)

/-- The inner loop prints the lines of the text at `p` that match, and stops at the rest. -/
theorem grepLines_eq {out : List UInt8} (h : At b p x) (hend : b (p + x.length) = 0) (hx : 0 ∉ x)
    (hlt : p + x.length < bufSize) (hk : x.length < k) : ∃ b', grepLines re k b p out =
        some (b', p + x.length - (lines x).2.length, out ++ printed re (lines x).1) ∧
      At b' (p + x.length - (lines x).2.length) (lines x).2 := by
  induction x using text_induction generalizing b p k out with
  | rest x hnl =>
    cases k with
    | zero => omega
    | succ k =>
      rw [lines_of_notMem hnl, grepLines, strchr_none h hend hnl]
      refine ⟨b, ?_, by simpa using h⟩
      simp [printed]
  | line l s hl ih =>
    cases k with
    | zero => omega
    | succ k =>
      rw [List.length_append, List.length_cons] at hend hlt hk
      have h0l : 0 ∉ l := fun h0 => hx (List.mem_append_left _ h0)
      have h0s : 0 ∉ s := fun h0 => hx (List.mem_append_right _ (List.mem_cons_of_mem _ h0))
      obtain ⟨hline, hrest⟩ := At.append.1 h
      obtain ⟨hnl, hs⟩ := At.cons.1 hrest
      have hstep : p + (l.length + (s.length + 1)) = p + l.length + 1 + s.length := by omega
      have hstring : stringAt (Function.update b (p + l.length) 0) p = l := by
        apply stringAt_eq _ _ h0l (by omega)
        · exact hline.congr fun k _ hk => Function.update_of_ne (by omega) ..
        · rw [Function.update_self]
      rw [grepLines, strchr_some h h0l (by decide) hl (by omega)]
      dsimp only
      rw [hstring, lines_cons hl, printed_cons]
      -- the rest of the text is above what this turn writes
      have hnext : ∀ v, At (Function.update b (p + l.length) v) (p + l.length + 1) s ∧
          Function.update b (p + l.length) v (p + l.length + 1 + s.length) = 0 := by
        intro v
        refine ⟨hs.congr fun k hk _ => Function.update_of_ne (by omega) .., ?_⟩
        rw [Function.update_of_ne (by omega), ← hstep, hend]
      rw [List.length_append, List.length_cons, hstep]
      split
      · have hread : read (Function.update (Function.update b (p + l.length) 0) (p + l.length)
            newline) p (p + l.length + 1 - p) = l ++ [newline] := by
          rw [Function.update_idem, show p + l.length + 1 - p = l.length + 1 by omega, read_add]
          congr 1
          · exact hline.congr fun k _ hk => Function.update_of_ne (by omega) ..
          · simp [Bytes.read]
        rw [hread, Function.update_idem,
          ← List.append_assoc out (l ++ [newline]) (printed re (lines s).1)]
        exact ih (k := k) (hnext newline).1 (hnext newline).2 h0s (by omega) (by omega)
      · rw [List.nil_append]
        exact ih (k := k) (hnext 0).1 (hnext 0).2 h0s (by omega) (by omega)

/-- The rest of the buffer is moved to its beginning. -/
theorem moveDown_at (h : At b p x) (hlt : p + x.length < bufSize) :
    At (moveDown b p x.length) 0 x := by
  have hsize : bufSize = 1024 := rfl
  have hlen : (BitVec.ofNat 32 x.length).toInt.toNat = x.length := by
    rw [BitVec.toInt_ofNat', Int.bmod_eq_of_le (by omega) (by omega)]
    rfl
  have hp : (BitVec.ofNat 64 p).toNat = p := by
    rw [BitVec.toNat_ofNat, Nat.mod_eq_of_lt (by omega)]
  have hmoved : Moved (fun a => b a.toNat) 0 (BitVec.ofNat 64 p) x.length
      (User.memmove (fun a => b a.toNat) 0 (BitVec.ofNat 64 p) (BitVec.ofNat 32 x.length)).2 := by
    have hall : Moved (fun a => b a.toNat) 0 (BitVec.ofNat 64 p)
        (BitVec.ofNat 32 x.length).toInt.toNat _ := User.memmove_moved
      (by rw [hlen]; unfold NoWrap; simp; omega) (by rw [hlen]; unfold NoWrap; rw [hp]; omega)
    rwa [hlen] at hall
  refine Eq.trans ?_ h
  apply List.map_congr_left
  intro k hk
  rw [List.mem_range] at hk
  have hcopied := hmoved.copied k hk
  rw [Nat.zero_add]
  rw [show (0 : Addr) + BitVec.ofNat 64 k = BitVec.ofNat 64 k from BitVec.zero_add _] at hcopied
  refine hcopied.trans (congrArg b ?_)
  rw [BitVec.toNat_add, hp, BitVec.toNat_ofNat, Nat.mod_eq_of_lt (show k < 2 ^ 64 by omega),
    Nat.mod_eq_of_lt (by omega)]

end buffer

/-- The lines that `grep` looks at. -/
def seen (text : List UInt8) : List (List UInt8) := (lines text).1.takeWhile Short

/-- A line that begins with a full buffer is not looked at, nor is anything after it. -/
theorem seen_of_full {x s : List UInt8} (hx : newline ∉ x) (hfull : x.length = bufSize - 1) :
    seen (x ++ s) = [] := by
  rcases lines_cases s with hs | ⟨l, s, rfl, hl⟩
  · rw [seen, lines_of_notMem (by simp [hx, hs])]
    rfl
  · rw [seen, ← List.append_assoc, lines_cons (by simp [hx, hl]), List.takeWhile_cons, if_neg]
    rw [Short, List.length_append, decide_eq_true_eq]
    omega

/-- All lines in the buffer are looked at. -/
theorem seen_append {x s : List UInt8} (hlen : x.length < bufSize) :
    seen (x ++ s) = (lines x).1 ++ seen ((lines x).2 ++ s) := by
  rw [seen, lines_append, List.takeWhile_append_of_pos, seen]
  intro l hl
  have hlt := length_line_lt hl
  rw [Short, decide_eq_true_eq]
  omega

/-- The outer loop, with the rest `x` of the last lines in the buffer. -/
theorem grepReads_eq (want : ℕ → ℕ) {fuel i : ℕ} {b : Buf} {x input out : List UInt8}
    (hb : At b 0 x) (hx : newline ∉ x) (h0 : 0 ∉ x ++ input) (hlen : x.length < bufSize)
    (hfuel : input.length < fuel) :
    grepReads re want fuel i b x.length input out =
      some (out ++ printed re (seen (x ++ input))) := by
  induction fuel generalizing i b x input out with
  | zero => omega
  | succ fuel ih =>
    rw [grepReads]
    dsimp only
    set n := min (want i + 1) (bufSize - x.length - 1) with hn
    by_cases hchunk : input.take n = []
    · rw [if_pos hchunk]
      have hnone : seen (x ++ input) = [] := by
        rcases List.take_eq_nil_iff.1 hchunk with hzero | hempty
        · exact seen_of_full hx (by omega)
        · rw [hempty, List.append_nil, seen, lines_of_notMem hx]
          rfl
      rw [hnone]
      simp [printed]
    rw [if_neg hchunk]
    have hle : (input.take n).length ≤ n := by
      rw [List.length_take]
      exact min_le_left _ _
    obtain ⟨chunk, rest, hinput, hc, hd⟩ : ∃ chunk rest, input = chunk ++ rest ∧
        input.take n = chunk ∧ input.drop n = rest :=
      ⟨_, _, (List.take_append_drop n input).symm, rfl, rfl⟩
    rw [hc] at hchunk hle ⊢
    rw [hd]
    have hpos : 0 < chunk.length := List.length_pos_of_ne_nil hchunk
    rw [hinput, List.length_append] at hfuel
    rw [hinput, ← List.append_assoc] at h0
    have h0text : 0 ∉ x ++ chunk := fun h => h0 (List.mem_append_left _ h)
    have htotal : x.length + chunk.length < bufSize := by omega
    -- the text in the buffer, with its end marked
    set b₁ := Function.update (write b x.length chunk) (x.length + chunk.length) 0 with hb₁
    have hat : At b₁ 0 (x ++ chunk) := by
      rw [At.append]
      constructor
      · apply hb.congr
        intro k _ hk
        rw [hb₁, Function.update_of_ne (by omega), write_outside b (by omega)]
      · have hw : At (write b x.length chunk) x.length chunk := read_write_self b x.length chunk
        rw [Nat.zero_add]
        exact hw.congr fun k _ hk => Function.update_of_ne (by omega) ..
    have hend : b₁ (0 + (x ++ chunk).length) = 0 := by
      rw [Nat.zero_add, List.length_append, hb₁, Function.update_self]
    obtain ⟨b₂, hlines, hat₂⟩ := grepLines_eq (k := bufSize + 1) re hat hend h0text
      (by rw [Nat.zero_add, List.length_append]; exact htotal)
      (by rw [List.length_append]; omega)
    rw [hlines]
    dsimp only
    rw [if_pos (by omega)]
    have hsuffix := (rest_suffix (x ++ chunk)).length_le
    have hlt : (x ++ chunk).length < bufSize := by rw [List.length_append]; exact htotal
    rw [Nat.zero_add] at hat₂ ⊢
    rw [← List.length_append, Nat.sub_sub_self hsuffix, hinput, ← List.append_assoc,
      seen_append hlt, printed_append, ← List.append_assoc]
    apply ih
    · exact moveDown_at hat₂ (by omega)
    · exact notMem_rest _
    · intro h
      rcases List.mem_append.1 h with h | h
      · exact h0text ((rest_suffix _).subset h)
      · exact h0 (List.mem_append_right _ h)
    · omega
    · omega

theorem grep_eq (want : ℕ → ℕ) (buf : Buf) {input : List UInt8} {fuel : ℕ} (h0 : 0 ∉ input)
    (hfuel : input.length < fuel) :
    grep re want buf input fuel = some (printed re (seen input)) := by
  have hreads : grepReads re want fuel 0 buf ([] : List UInt8).length input [] =
      some ([] ++ printed re (seen ([] ++ input))) :=
    grepReads_eq re want rfl (by simp) h0 (by decide) hfuel
  exact hreads

/-- What `grep` writes depends neither on how the input is split into reads nor on what the buffer
holds, and it is all lines that match exactly when none of them comes after a line that does not fit
in the buffer, or is such a line. -/
theorem grep_prints_matching_iff (re input : List UInt8) (h0 : 0 ∉ input) :
    ∃ out, (∀ want buf fuel, input.length < fuel → grep re want buf input fuel = some out) ∧
      (out = printed re (lines input).1 ↔
        ∀ l ∈ (lines input).1.dropWhile Short, matchText re l = false) := by
  refine ⟨_, fun want buf fuel => grep_eq re want buf h0, ?_⟩
  have hsplit : printed re (lines input).1 =
      printed re (seen input) ++ printed re ((lines input).1.dropWhile Short) := by
    rw [← printed_append, seen, List.takeWhile_append_dropWhile]
  rw [hsplit, ← printed_eq_nil_iff]
  constructor
  · intro h
    simpa using h
  · intro h
    rw [h, List.append_nil]

theorem grep_prints_matching_short :
    ∃ out, (∀ want buf fuel, 4 < fuel → grep [97] want buf [97, 10, 98, 10] fuel = some out) ∧
      out = [97, 10] := by
  obtain ⟨out, hgrep, hiff⟩ := grep_prints_matching_iff [97] [97, 10, 98, 10] (by decide)
  exact ⟨out, hgrep, hiff.2 (by decide)⟩

/-- A line of 1023 bytes, and one that matches the pattern `b`. -/
def longLine : List UInt8 := List.replicate 1023 97
def longInput : List UInt8 := longLine ++ newline :: ([98] ++ newline :: [])

theorem longLine_eq {c : UInt8} (h : c ∈ longLine) : c = 97 := (List.mem_replicate.1 h).2

theorem matchText_replicate (n : ℕ) : matchText [98] (List.replicate n 97) = false := by
  induction n with
  | zero => rfl
  | succ n ih => exact ih

/-- `grep` stops at the long line. -/
theorem grep_loses_line : 0 ∉ longInput ∧
    grep [98] (fun _ => 0) (fun _ => 0) longInput (longInput.length + 1) = some [] ∧
      printed [98] (lines longInput).1 = [98, newline] := by
  have hlong : newline ∉ longLine := fun h => absurd (longLine_eq h) (by decide)
  have hzero : 0 ∉ longInput := by
    intro h
    rcases List.mem_append.1 h with h | h
    · exact absurd (longLine_eq h) (by decide)
    · exact absurd h (by decide)
  have hlen : longLine.length = bufSize - 1 := List.length_replicate
  refine ⟨hzero, ?_, ?_⟩
  · rw [grep_eq [98] _ _ hzero (Nat.lt_succ_self _), longInput, seen_of_full hlong hlen]
    rfl
  · rw [longInput, lines_cons hlong, lines_cons (by decide), printed_cons, longLine,
      matchText_replicate]
    rfl

end Xv6.Grep
