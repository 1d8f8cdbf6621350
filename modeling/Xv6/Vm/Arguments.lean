import Mathlib.Data.Set.Lattice
import Xv6.Vm.Access
import Mathlib.Order.CompletePartialOrder

/-! The stack of a new image: where the argument strings and the vector of their addresses lie,
and when they fit. -/
namespace Xv6
open Bytes Program RefCount

/-- A length rounded up to a multiple of 16. -/
def round16 (n : ℕ) : ℕ := (n + 15) / 16 * 16

/-- The room for the strings on the stack. -/
def stringsSize (strs : List (List UInt8)) : ℕ := (strs.map fun str => round16 str.length).sum

/-- The strings and the vector fit in one page. -/
def Fits (strs : List (List UInt8)) : Prop :=
  stringsSize strs + round16 ((strs.length + 1) * 8) ≤ pgsize

/-- The arguments that `sys_exec` accepts: less than `MAXARG` strings that end with their only
zero, each in one page. -/
structure Admitted (strs : List (List UInt8)) : Prop where
  count : strs.length < maxarg
  string : ∀ cs ∈ strs, cs.length ≤ pgsize ∧ ∃ str, cs = str ++ [0] ∧ ∀ b ∈ str, b ≠ 0

/-- Objects are written one after the other. -/
def putAll (V : Space) (objs : List (ℕ × List UInt8)) : Space :=
  objs.foldl (fun V o => putBytes V o.1 o.2) V

/-- Two objects, given by address and length, have no byte in common. -/
def Apart (o o' : ℕ × ℕ) : Prop := o.1 + o.2 ≤ o'.1 ∨ o'.1 + o'.2 ≤ o.1

/-- The arguments as the program finds them in its address space: `argc` addresses and a 0 at
`sp`, each of a string, all in the page below `sz`, with a page below that it cannot reach. -/
structure Layout (V : Space) (sz : ℕ) (strs : List (List UInt8)) (sp argc : ℕ) (ptrs : List ℕ) :
    Prop where
  argc_eq : argc = strs.length
  length : ptrs.length = argc
  word : ∀ k, k < argc → readWord V sz (sp + 8 * k) = ptrs[k]?
  last : readWord V sz (sp + 8 * argc) = some 0
  string : ∀ k, k < argc → readString V (ptrs.getD k 0) pgsize = strs[k]?
  aligned : sp % 16 = 0 ∧ ∀ p ∈ ptrs, p % 16 = 0
  apart : ((sp, 8 * (argc + 1)) :: ptrs.zip (strs.map List.length)).Pairwise Apart
  inside : ∀ o ∈ (sp, 8 * (argc + 1)) :: ptrs.zip (strs.map List.length),
    sz - pgsize ≤ o.1 ∧ o.1 + o.2 ≤ sz
  guard : ∀ a, sz - 2 * pgsize ≤ a → a < sz - pgsize → getByte V a = none

variable {o : ℕ × List UInt8}

section sizes
variable {sp n stackbase : ℕ} {V : Space} {strs : List (List UInt8)} {ustack : List ℕ}

theorem le_round16 (n : ℕ) : n ≤ round16 n := by
  unfold round16
  omega

theorem round16_le (h : n ≤ pgsize) : round16 n ≤ pgsize := by
  simp only [round16, pgsize] at *
  omega

theorem round16_mod (n : ℕ) : round16 n % 16 = 0 := Nat.mul_mod_left _ _

theorem pushSp_aligned (h16 : sp % 16 = 0) (hn : n ≤ sp) (hsp : sp < 2 ^ 64) :
    pushSp sp n = sp - round16 n := by
  rw [pushSp_of_le hn hsp]
  unfold round16
  omega

theorem stringsSize_cons (str : List UInt8) :
    stringsSize (str :: strs) = round16 str.length + stringsSize strs := rfl

theorem stringsSize_mod (strs : List (List UInt8)) : stringsSize strs % 16 = 0 := by
  induction strs with
  | nil => rfl
  | cons str strs ih =>
    have hstr := round16_mod str.length
    rw [stringsSize_cons]
    omega

/-- Where the strings go, starting below `sp`. -/
def placed (sp : ℕ) : List (List UInt8) → List (ℕ × List UInt8)
  | [] => []
  | str :: rest => (sp - round16 str.length, str) :: placed (sp - round16 str.length) rest

theorem placed_length : (placed sp strs).length = strs.length := by
  induction strs generalizing sp with
  | nil => rfl
  | cons str strs ih => simp [placed, ih]

theorem placed_snd (sp : ℕ) (strs : List (List UInt8)) : (placed sp strs).map Prod.snd = strs := by
  induction strs generalizing sp with
  | nil => rfl
  | cons str strs ih => simp [placed, ih]

theorem placed_zip : ((placed sp strs).map Prod.fst).zip (strs.map List.length) =
    (placed sp strs).map fun o => (o.1, o.2.length) := by
  induction strs generalizing sp with
  | nil => rfl
  | cons str strs ih => simp [placed, ih]

theorem placed_inside (h : stringsSize strs ≤ sp) (ho : o ∈ placed sp strs) :
    sp - stringsSize strs ≤ o.1 ∧ o.1 + o.2.length ≤ sp := by
  induction strs generalizing sp with
  | nil => simp [placed] at ho
  | cons str strs ih =>
    rw [stringsSize_cons] at *
    have hle := le_round16 str.length
    rcases List.mem_cons.mp ho with rfl | ho
    · constructor
      · dsimp only
        omega
      · dsimp only
        omega
    · have hrest := ih (by omega) ho
      omega

theorem placed_aligned (h16 : sp % 16 = 0) (h : stringsSize strs ≤ sp)
    (ho : o ∈ placed sp strs) : o.1 % 16 = 0 := by
  induction strs generalizing sp with
  | nil => simp [placed] at ho
  | cons str strs ih =>
    rw [stringsSize_cons] at h
    have hmod := round16_mod str.length
    have hnext : (sp - round16 str.length) % 16 = 0 := by omega
    rcases List.mem_cons.mp ho with rfl | ho
    · exact hnext
    · exact ih hnext (by omega) ho

/-- Each string lies below the ones before it. -/
theorem placed_below (h : stringsSize strs ≤ sp) :
    (placed sp strs).Pairwise fun o o' => o'.1 + o'.2.length ≤ o.1 := by
  induction strs generalizing sp with
  | nil => simp [placed]
  | cons str strs ih =>
    rw [stringsSize_cons] at h
    have hrest : stringsSize strs ≤ sp - round16 str.length := by omega
    exact List.pairwise_cons.mpr ⟨fun o ho => (placed_inside hrest ho).2, ih hrest⟩

/-- The loop over the strings succeeds exactly when there is room for all of them. -/
theorem pushStrings_eq (h16 : sp % 16 = 0) (hsp : sp < 2 ^ 64) (hbase : pgsize ≤ stackbase)
    (hle : stackbase ≤ sp) (hlen : ∀ str ∈ strs, str.length ≤ pgsize)
    (hcount : ustack.length + strs.length ≤ maxarg) :
    pushStrings stackbase strs V sp ustack =
      if sp < stackbase + stringsSize strs then none
      else some (putAll V (placed sp strs), sp - stringsSize strs,
        ustack ++ (placed sp strs).map Prod.fst) := by
  induction strs generalizing sp V ustack with
  | nil =>
    have hroom : ¬sp < stackbase + stringsSize [] := Nat.not_lt.mpr hle
    rw [if_neg hroom]
    simp [pushStrings, placed, putAll, stringsSize]
  | cons str strs ih =>
    have hstr := hlen str (by simp)
    have hround := round16_le hstr
    have hmod := round16_mod str.length
    rw [pushStrings, pushSp_aligned h16 (by omega) hsp, stringsSize_cons]
    rw [List.length_cons] at hcount
    by_cases hlow : sp - round16 str.length < stackbase
    · rw [if_pos (Or.inr hlow), if_pos (by omega)]
    · rw [if_neg (by rw [not_or]; omega), ih (by omega) (by omega) (by omega)
        (fun q hq => hlen q (List.mem_cons_of_mem _ hq))
        (by rw [List.length_append, List.length_singleton]; omega)]
      by_cases hroom : sp < stackbase + (round16 str.length + stringsSize strs)
      · rw [if_pos hroom, if_pos (by omega)]
      · rw [if_neg hroom, if_neg (by omega)]
        simp only [placed, putAll, List.foldl_cons, List.map_cons, List.append_assoc, List.singleton_append,
          Nat.sub_sub]

end sizes

section objects
variable {V : Space} {objs : List (ℕ × List UInt8)} {a : ℕ}

theorem getByte_putAll_outside
    (h : ∀ o ∈ objs, a < o.1 ∨ o.1 + o.2.length ≤ a) :
    getByte (putAll V objs) a = getByte V a := by
  induction objs generalizing V with
  | nil => rfl
  | cons o objs ih =>
    refine (ih (V := putBytes V o.1 o.2) fun q hq => h q (List.mem_cons_of_mem _ hq)).trans ?_
    rw [getByte_putBytes]
    cases hb : getByte V a with
    | none => rfl
    | some b =>
      rw [Option.map_some]
      split
      · rw [List.getD_eq_default]
        rcases h o (by simp) with ho | ho <;> omega
      · rfl

theorem Apart.disjoint {o o' : ℕ × ℕ} (h : Apart o o') :
    Disjoint (Set.Ico o.1 (o.1 + o.2)) (Set.Ico o'.1 (o'.1 + o'.2)) := by
  rw [Set.disjoint_left]
  intro a ha ha'
  rw [Set.mem_Ico] at ha ha'
  rcases h with h | h <;> omega

/-- An object is read back where no later one has been written over it. -/
theorem getByte_putAll (hapart : objs.Pairwise fun o o' =>
      Disjoint (Set.Ico o.1 (o.1 + o.2.length)) (Set.Ico o'.1 (o'.1 + o'.2.length))) (ho : o ∈ objs)
    {k : ℕ} (hk : k < o.2.length)
    (hV : getByte V (o.1 + k) ≠ none) : getByte (putAll V objs) (o.1 + k) = o.2[k]? := by
  induction objs generalizing V with
  | nil => cases ho
  | cons q objs ih =>
    obtain ⟨hq, hrest⟩ := List.pairwise_cons.mp hapart
    obtain ⟨b, hb⟩ := Option.ne_none_iff_exists'.mp hV
    rcases List.mem_cons.mp ho with rfl | ho
    · have hout : getByte (putAll (putBytes V o.1 o.2) objs) (o.1 + k) =
          getByte (putBytes V o.1 o.2) (o.1 + k) := by
        apply getByte_putAll_outside
        intro q hin
        have hnot := Set.disjoint_left.mp (hq q hin)
          (show o.1 + k ∈ Set.Ico o.1 (o.1 + o.2.length) from ⟨by omega, by omega⟩)
        rw [Set.mem_Ico] at hnot
        omega
      refine hout.trans ?_
      rw [getByte_putBytes, hb, Option.map_some, if_pos (Nat.le_add_right _ _),
        Nat.add_sub_cancel_left, List.getD_eq_getElem _ _ hk, List.getElem?_eq_getElem hk]
    · apply ih hrest ho
      rw [getByte_putBytes, hb]
      simp

/-- The words of a vector are read back one by one. -/
theorem wordBytes_getElem {ws : List ℕ} {k j : ℕ} (hk : k < ws.length) (hj : j < 8) :
    (wordBytes ws)[8 * k + j]? = some (setLE (fun _ => 0) 0 8 (ws.getD k 0) j) := by
  induction ws generalizing k with
  | nil => simp at hk
  | cons w ws ih =>
    have hcons : wordBytes (w :: ws) = Bytes.read (setLE (fun _ => 0) 0 8 w) 0 8 ++ wordBytes ws := rfl
    rw [hcons]
    cases k with
    | zero =>
      rw [List.getElem?_append_left (by rw [read_length]; omega)]
      simp [Bytes.read, hj]
    | succ k =>
      rw [List.getElem?_append_right (by rw [read_length]; omega), read_length,
        show 8 * (k + 1) + j - 8 = 8 * k + j by omega, ih (by simpa using hk)]
      simp

theorem readWord_of_getByte {sz sp : ℕ} {ws : List ℕ} (hws : ∀ w ∈ ws, w < 2 ^ 64)
    (hsz : sz < 2 ^ 64) (hin : sp + 8 * ws.length ≤ sz)
    (hV : ∀ k, k < 8 * ws.length → getByte V (sp + k) = (wordBytes ws)[k]?) {k : ℕ}
    (hk : k < ws.length) : readWord V sz (sp + 8 * k) = ws[k]? := by
  have hmod : (sp + 8 * k + 8) % 2 ^ 64 = sp + 8 * k + 8 := Nat.mod_eq_of_lt (by omega)
  have hread : readSpace V (sp + 8 * k) 8 =
      some (Bytes.read (setLE (fun _ => 0) 0 8 (ws.getD k 0)) 0 8) := by
    apply readSpace_eq_some (read_length _ _ _)
    intro j hj
    rw [Nat.add_assoc, hV _ (by omega), wordBytes_getElem hk hj]
    simp [Bytes.read, hj]
  have hbytes : getLE (fun j => (Bytes.read (setLE (fun _ => 0) 0 8 (ws.getD k 0)) 0 8).getD j 0) 0 8 =
      getLE (setLE (fun _ => 0) 0 8 (ws.getD k 0)) 0 8 := by
    apply getLE_congr
    intro j _ hj
    simp [Bytes.read, List.getD, show j < 8 by omega]
  have hlt : ws.getD k 0 < 2 ^ 64 := by
    rw [List.getD_eq_getElem _ _ hk]
    exact hws _ (List.getElem_mem hk)
  rw [readWord, if_neg (by omega), hread, Option.map_some, hbytes, getLE_setLE_self,
    show (256 : ℕ) ^ 8 = 2 ^ 64 by norm_num, Nat.mod_eq_of_lt hlt, List.getElem?_eq_getElem hk,
    List.getD_eq_getElem _ _ hk]

end objects

section stack
variable {V₀ V : Space} {sz sp argc : ℕ} {strs : List (List UInt8)}

/-- A string that ends with its only zero is read up to that. -/
theorem readString_eq {str : List UInt8} {va max : ℕ} (hmax : (str ++ [0]).length ≤ max)
    (hstr : ∀ b ∈ str, b ≠ 0)
    (hV : ∀ k, k < (str ++ [0]).length → getByte V (va + k) = (str ++ [0])[k]?) :
    readString V va max = some (str ++ [0]) := by
  have htake : (str ++ [0]).takeWhile (· ≠ 0) = str := by
    rw [List.takeWhile_append_of_pos (by simpa using hstr)]
    simp
  rw [readString_chunk (str ++ [0]) hmax hV, htake, if_pos (by simp)]

/-- The page of the stack. -/
structure StackPage (V₀ : Space) (sz : ℕ) : Prop where
  aligned : sz % pgsize = 0
  large : 2 * pgsize ≤ sz
  lt : sz < 2 ^ 64
  user : ∃ pg, V₀ (sz / pgsize - 1) = some pg ∧ pg.user = true

section
variable (h : StackPage V₀ sz)
include h

theorem StackPage.aligned16 : sz % 16 = 0 := by
  have := h.aligned
  simp only [pgsize] at this
  omega

theorem StackPage.pushStrings_eq (ha : Admitted strs) :
    pushStrings (sz - pgsize) strs V sz [] = if pgsize < stringsSize strs then none
      else some (putAll V (placed sz strs), sz - stringsSize strs,
        (placed sz strs).map Prod.fst) := by
  have hlarge := h.large
  rw [Xv6.pushStrings_eq h.aligned16 h.lt (by omega) (by omega)
    (fun str hstr => (ha.string str hstr).1) (by simpa using ha.count.le), List.nil_append]
  congr 1
  simp only [eq_iff_iff]
  omega

/-- The bytes of the page of the stack, and those of the page below. -/
theorem StackPage.bytes {a : ℕ} :
    (sz - pgsize ≤ a → a < sz → getByte (clearUser V₀ (sz / pgsize - 2)) a ≠ none) ∧
      (sz - 2 * pgsize ≤ a → a < sz - pgsize →
        getByte (clearUser V₀ (sz / pgsize - 2)) a = none) := by
  have hlarge := h.large
  have haligned := h.aligned
  obtain ⟨pg, hpg, huser⟩ := h.user
  constructor
  · intro hlo hhi
    have hpage : a / pgsize = sz / pgsize - 1 := by
      simp only [pgsize] at *
      omega
    have hne : sz / pgsize - 1 ≠ sz / pgsize - 2 := by
      simp only [pgsize] at *
      omega
    rw [getByte_ne_none]
    refine ⟨pg, ?_, huser⟩
    rw [clearUser, hpage, if_neg hne, hpg]
  · intro hlo hhi
    have hpage : a / pgsize = sz / pgsize - 2 := by
      simp only [pgsize] at *
      omega
    unfold getByte clearUser
    rw [hpage, if_pos rfl]
    cases V₀ (sz / pgsize - 2) <;> simp

/-- The stack of `exec` is built when the arguments fit. -/
theorem StackPage.buildStack_none (ha : Admitted strs)
    (hnone : buildStack V₀ sz strs = none) : ¬Fits strs := by
  intro hfits
  unfold Fits at hfits
  have hlarge := h.large
  have h16 := h.aligned16
  have hmod := stringsSize_mod strs
  have hlt := h.lt
  rw [buildStack, h.pushStrings_eq ha, if_neg (by omega)] at hnone
  dsimp only at hnone
  have hle := le_round16 ((strs.length + 1) * 8)
  rw [List.length_map, placed_length, pushSp_aligned (by omega) (by omega) (by omega),
    if_neg (by omega)] at hnone
  cases hnone

/-- The strings and the vector of their addresses at `sp`. -/
def stackObjects (sz : ℕ) (strs : List (List UInt8)) (sp : ℕ) : List (ℕ × List UInt8) :=
  (sp, wordBytes ((placed sz strs).map Prod.fst ++ [0])) :: placed sz strs

omit h in
theorem vector_length :
    (wordBytes ((placed sz strs).map Prod.fst ++ [0])).length = 8 * (strs.length + 1) := by
  rw [wordBytes_length, List.length_append, List.length_map, placed_length, List.length_singleton]

omit h in
theorem stackObjects_apart (hS : stringsSize strs ≤ sz)
    (hsp : sp + 8 * (strs.length + 1) ≤ sz - stringsSize strs) :
    (stackObjects sz strs sp).Pairwise fun o o' => Apart (o.1, o.2.length) (o'.1, o'.2.length) := by
  refine List.pairwise_cons.mpr ⟨?_, (placed_below hS).imp fun h => Or.inr h⟩
  intro o ho
  have hin := placed_inside hS ho
  left
  dsimp only
  rw [vector_length]
  omega

omit h in
theorem stackObjects_inside (hS : stringsSize strs ≤ pgsize) (hsz : pgsize ≤ sz)
    (hbase : sz - pgsize ≤ sp) (hsp : sp + 8 * (strs.length + 1) ≤ sz - stringsSize strs)
    (ho : o ∈ stackObjects sz strs sp) : sz - pgsize ≤ o.1 ∧ o.1 + o.2.length ≤ sz := by
  rcases List.mem_cons.mp ho with rfl | ho
  · dsimp only
    rw [vector_length]
    omega
  · have hin := placed_inside (by omega) ho
    omega

/-- What `exec` leaves on the stack, and where. -/
theorem StackPage.stacked (ha : Admitted strs) (hs : Stacked V₀ sz strs sp argc V) :
    argc = strs.length ∧ stringsSize strs ≤ pgsize ∧
      sp = sz - stringsSize strs - round16 ((strs.length + 1) * 8) ∧ sz - pgsize ≤ sp ∧
      V = putAll (clearUser V₀ (sz / pgsize - 2))
        (placed sz strs ++ [(sp, wordBytes ((placed sz strs).map Prod.fst ++ [0]))]) := by
  obtain ⟨V₁, sp₁, ustack, hpush, hsp, hbase, hargc, hV⟩ := hs
  have hlarge := h.large
  have h16 := h.aligned16
  have hlt := h.lt
  have hmod := stringsSize_mod strs
  have hcount := ha.count
  rw [h.pushStrings_eq ha] at hpush
  split at hpush
  · cases hpush
  rename_i hroom
  simp only [Option.some.injEq, Prod.mk.injEq] at hpush
  obtain ⟨rfl, rfl, rfl⟩ := hpush
  rw [List.length_map, placed_length] at hsp hargc
  have hvector : (strs.length + 1) * 8 ≤ sz - stringsSize strs := by
    simp only [maxarg, pgsize] at *
    omega
  rw [pushSp_aligned (by omega) hvector (by omega)] at hsp
  refine ⟨hargc, by omega, hsp, hbase, ?_⟩
  rw [hV, putAll, putAll, List.foldl_append]
  rfl

/-- The stack is laid out as the program expects it. -/
theorem StackPage.layout (ha : Admitted strs) (hs : Stacked V₀ sz strs sp argc V) :
    Fits strs ∧ Layout V sz strs sp argc ((placed sz strs).map Prod.fst) := by
  obtain ⟨rfl, hS, hsp, hbase, rfl⟩ := h.stacked ha hs
  have hlarge := h.large
  have h16 := h.aligned16
  have hlt := h.lt
  have hmod := stringsSize_mod strs
  have hmod' := round16_mod ((strs.length + 1) * 8)
  have hround := le_round16 ((strs.length + 1) * 8)
  have hend : sp + 8 * (strs.length + 1) ≤ sz - stringsSize strs := by
    simp only [pgsize] at *
    omega
  have hapart := stackObjects_apart (show stringsSize strs ≤ sz by omega) hend
  have hinside : ∀ o ∈ stackObjects sz strs sp, _ := fun o ho =>
    stackObjects_inside hS (by omega) hbase hend ho
  have hperm : (placed sz strs ++ [(sp, wordBytes ((placed sz strs).map Prod.fst ++ [0]))]).Perm
      (stackObjects sz strs sp) := List.perm_append_singleton _ _
  have hapart' := hperm.symm.pairwise hapart fun h => Or.symm h
  generalize hVdef : putAll _ _ = V at *
  have hget : ∀ o ∈ stackObjects sz strs sp, ∀ k, k < o.2.length →
      getByte V (o.1 + k) = o.2[k]? := by
    intro o ho k hk
    have hin := hinside o ho
    rw [← hVdef]
    exact getByte_putAll (hapart'.imp Apart.disjoint) (hperm.mem_iff.mpr ho) hk
      (h.bytes.1 (by omega) (by omega))
  have hobjs : (sp, 8 * (strs.length + 1)) :: ((placed sz strs).map Prod.fst).zip
      (strs.map List.length) = (stackObjects sz strs sp).map fun o => (o.1, o.2.length) := by
    rw [placed_zip, stackObjects, List.map_cons, vector_length]
  have hlength : ((placed sz strs).map Prod.fst ++ [0]).length = strs.length + 1 := by
    rw [List.length_append, List.length_map, placed_length, List.length_singleton]
  have hwords : ∀ k, k < strs.length + 1 → readWord V sz (sp + 8 * k) =
      ((placed sz strs).map Prod.fst ++ [0])[k]? := by
    intro k hk
    apply readWord_of_getByte _ hlt
    · rw [hlength]
      omega
    · intro j hj
      apply hget _ (List.mem_cons_self ..)
      rw [vector_length, ← hlength]
      exact hj
    · rw [hlength]
      exact hk
    · intro w hw
      rcases List.mem_append.mp hw with hw | hw
      · obtain ⟨o, ho, rfl⟩ := List.mem_map.mp hw
        have hin := hinside o (List.mem_cons_of_mem _ ho)
        omega
      · rw [List.mem_singleton.mp hw]
        decide
  refine ⟨?_, rfl, ?_, ?_, ?_, ?_, ?_, ?_, ?_, ?_⟩
  · unfold Fits
    omega
  · rw [List.length_map, placed_length]
  · intro k hk
    rw [hwords k (by omega), List.getElem?_append_left (by simpa [placed_length] using hk)]
  · rw [hwords _ (by omega), List.getElem?_append_right (by simp [placed_length])]
    simp [placed_length]
  · intro k hk
    have hk' : k < (placed sz strs).length := by rwa [placed_length]
    have hsnd : strs[k]? = some (placed sz strs)[k].2 := by
      conv_lhs => rw [← placed_snd sz strs]
      simp [hk']
    have hfst : ((placed sz strs).map Prod.fst).getD k 0 = (placed sz strs)[k].1 := by
      simp [hk']
    have hmem := List.getElem_mem hk'
    obtain ⟨hmax, str, heq, hstr⟩ := ha.string _ (List.mem_of_getElem? hsnd)
    have hbytes := hget _ (List.mem_cons_of_mem _ hmem)
    rw [hsnd, hfst]
    rw [heq] at hmax hbytes ⊢
    exact readString_eq hmax hstr hbytes
  · refine ⟨by omega, ?_⟩
    intro p hp
    obtain ⟨o, ho, rfl⟩ := List.mem_map.mp hp
    exact placed_aligned h16 (by omega) ho
  · rw [hobjs, List.pairwise_map]
    exact hapart
  · rw [hobjs]
    intro o ho
    obtain ⟨q, hq, rfl⟩ := List.mem_map.mp ho
    exact hinside q hq
  · intro a hlo hhi
    rw [← hVdef, getByte_putAll_outside, h.bytes.2 hlo hhi]
    intro o ho
    have hin := hinside o (hperm.mem_iff.mp ho)
    omega

end

end stack

section reference
variable {s t : Ref} {op : Op} {out : Out}

theorem admitted_of_readArgs {V : Space} {sz uargv n : ℕ} {strs : List (List UInt8)}
    (h : readArgs V sz uargv n = some strs) :
    strs.length < n ∧ ∀ cs ∈ strs, cs.length ≤ pgsize ∧ ∃ str, cs = str ++ [0] ∧ ∀ b ∈ str, b ≠ 0 := by
  induction n generalizing strs with
  | zero => simp [readArgs] at h
  | succ n ih =>
    rw [readArgs] at h
    split at h
    · cases h
    rename_i uarg _
    by_cases h0 : uarg = 0
    · rw [if_pos h0, Option.some.injEq] at h
      subst h
      simp
    · rw [if_neg h0] at h
      split at h
      · cases h
      rename_i str hstr
      obtain ⟨rest, hrest, rfl⟩ := Option.map_eq_some_iff.mp h
      obtain ⟨hlen, hall⟩ := ih hrest
      refine ⟨by simpa using hlen, ?_⟩
      intro cs hcs
      rcases List.mem_cons.mp hcs with rfl | hcs
      · obtain ⟨hle, hzero, -⟩ := readString_some hstr
        exact ⟨hle, hzero⟩
      · exact hall cs hcs

/-- The arguments of a process inside `exec` are the ones it had, or `sys_exec` has accepted
them. -/
def ArgsKept (s t : Ref) : Prop :=
  ∀ j, (t.proc j).inExec = true →
    ((s.proc j).inExec = true ∧ (t.proc j).args = (s.proc j).args) ∨
      ∃ V sz uargv, readArgs V sz uargv maxarg = some (t.proc j).args

theorem ArgsKept.of_eq (h : ∀ j, (t.proc j).inExec = (s.proc j).inExec ∧
    (t.proc j).args = (s.proc j).args) : ArgsKept s t :=
  fun j hj => Or.inl ⟨(h j).1 ▸ hj, (h j).2⟩

theorem ArgsKept.refl : ArgsKept s s := ArgsKept.of_eq fun _ => ⟨rfl, rfl⟩

theorem ArgsKept.setProc {u : Ref} {i : ℕ} {p : RefProc} (h : ArgsKept s u)
    (hp : p.inExec = true → (u.proc i).inExec = true ∧ p.args = (u.proc i).args) :
    ArgsKept s (u.setProc i p) := by
  intro j hj
  by_cases hji : j = i
  · subst hji
    simp only [Ref.setProc, Function.update_self] at hj ⊢
    obtain ⟨hin, hargs⟩ := hp hj
    rw [hargs]
    exact h j hin
  · simp only [Ref.setProc, Function.update_of_ne hji] at hj ⊢
    exact h j hj

end reference

section system
variable [Image] {G : Set ℕ} {s₀ s s₁ t : Sys} {own₀ own₁ : ℕ → Owner} {E : Panic → Prop} {i : ℕ}
  {V : Space} {res : Option (ℕ × ℕ)}

/-- The size of the image of process `i` with the two pages of the stack phase. -/
def Sys.stackedSize (s : Sys) (i : ℕ) : ℕ := npages (s.proc i).newsz * pgsize + 2 * pgsize

theorem StackBuilt.stackPage (h : StackBuilt s i s₁ own₁ V res t) (hf : Framed G s₀ own₀ i s₁ own₁)
    (hnew : (s.proc i).newtable ≠ 0) :
    StackPage (spaceOf s₁.mach (s₁.proc i).newtable) (s₁.proc i).newsz := by
  have hnew₁ : (s₁.proc i).newtable ≠ 0 := by rw [h.table]; exact hnew
  have hsz : (s₁.proc i).newsz ≤ 2 ^ 27 := (hf.inv.space (.image i) hnew₁).1
  have hmul : (s₁.proc i).newsz = (npages (s.proc i).newsz + 2) * pgsize := by
    rw [h.size, Nat.add_mul]
  refine ⟨by rw [hmul, Nat.mul_mod_left], by rw [h.size]; omega, by omega, zeroPage, ?_, rfl⟩
  rw [h.space hnew, growSpace, if_pos]
  rw [hmul, npages_mul, npages_mul, Nat.mul_div_cancel _ (by decide)]
  omega

/-- `exec` from the stack phase on, for arguments that `sys_exec` accepts. -/
theorem SysOk.wp_stackPhase (h : SysOk s) (hex : (s.proc i).inExec = true)
    (hnew : (s.proc i).newtable ≠ 0) (ha : Admitted (s.abs.proc i).args) :
    wp (stackPhase i) E s fun res t =>
      (res ≠ none ↔ (t.proc i).newsz = s.stackedSize i ∧ Fits (s.abs.proc i).args) ∧
      ∀ sp argc, res = some (sp, argc) → ∀ entry, wp (commitImage i entry sp) E t fun _ u =>
        (u.proc i).sz = s.stackedSize i ∧
        getLE (u.mach.mem (u.proc i).trapframe) tfA1 8 = sp ∧
        ∃ ptrs, Layout (u.abs.proc i).space (u.proc i).sz (s.abs.proc i).args sp argc ptrs := by
  obtain ⟨⟨own, hinv⟩, hok⟩ := h
  have hc : Caller s i := ⟨hok, (hok i).execing hex⟩
  apply wp_mono ((Framed.univ hinv).wp_stackPhase hnew)
  rintro res t (⟨rfl, hsz, -⟩ | ⟨s₁, own₁, V, hf, hb⟩)
  · refine ⟨iff_of_false (by simp) ?_, by simp⟩
    rw [hsz]
    simp [Sys.stackedSize, pgsize]
  have hpage := hb.stackPage hf hnew
  have hnew₁ : (s₁.proc i).newtable ≠ 0 := by rw [hb.table]; exact hnew
  have hti : t.proc i = s₁.proc i := by rw [hb.eq]; rfl
  refine ⟨?_, ?_⟩
  · rw [hti]
    constructor
    · intro hres
      obtain ⟨⟨sp, argc⟩, hsome⟩ := Option.ne_none_iff_exists'.mp hres
      exact ⟨hb.size, (hpage.layout ha (hb.stacked sp argc hsome)).1⟩
    · rintro ⟨-, hfits⟩ hnone
      exact hpage.buildStack_none ha (hb.none hnone fun str hstr => (ha.string str hstr).1) hfits
  · intro sp argc hsome entry
    obtain ⟨-, hlayout⟩ := hpage.layout ha (hb.stacked sp argc hsome)
    rw [hb.eq]
    apply wp_mono (wp_commitImage hf.inv (hf.pagetable hc) (hf.trapframe hc) hnew₁
      hb.effect.toEffect hb.domain entry sp)
    rintro _ u ⟨⟨own', hcom⟩, habs⟩
    have hui : u.proc i = { s₁.proc i with
        pagetable := (s₁.proc i).newtable, sz := (s₁.proc i).newsz, newtable := 0, newsz := 0 } := by
      conv_lhs => rw [hcom.eq]
      exact setProc_self
    have hspace : (u.abs.proc i).space = clip V := by
      rw [habs]
      simp [Ref.setProc]
    rw [hspace, hui]
    refine ⟨hb.size, ?_, _, hlayout⟩
    have hsp : sp < 256 ^ 8 := by
      have hin := (hlayout.inside _ (List.mem_cons_self ..)).2
      have hlt := hpage.lt
      dsimp only at hin
      omega
    dsimp only
    rw [hcom.frame, startFrame, getLE_setLE_disjoint _ _ (by decide),
      getLE_setLE_disjoint _ _ (by decide), getLE_setLE_self, Nat.mod_eq_of_lt hsp]

end system
end Xv6
