import Xv6.Vm.Arguments
import Xv6.Vm.ExecCallSpec

/-! What `exec` loads, against what the file describes. The headers hold 64-bit offsets, and `exec`
uses the low 32 bits of two of them. -/
namespace Xv6
open Bytes Program RefCount

section file
variable {data : List UInt8} {off n : ℕ}

theorem readi_length_le (data : List UInt8) (off n : ℕ) : (readi data off n).length ≤ n := by
  unfold readi
  split
  · simp
  · rename_i h
    rw [not_or] at h
    rw [List.length_take, List.length_drop]
    split
    · have hmod := Nat.mod_le (off + n) (2 ^ 32)
      omega
    · omega

/-- A read that gives all bytes asked for was within the file. -/
theorem readi_full (hpos : 0 < n) (hn : n < 2 ^ 32) (hoff : off < 2 ^ 32)
    (h : (readi data off n).length = n) :
    off + n < 2 ^ 32 ∧ off + n ≤ data.length ∧ readi data off n = (data.drop off).take n := by
  unfold readi at h ⊢
  by_cases hbad : data.length < off ∨ (off + n) % 2 ^ 32 < off
  · rw [if_pos hbad, List.length_nil] at h
    omega
  · rw [if_neg hbad] at h ⊢
    rw [not_or] at hbad
    have hlt : off + n < 2 ^ 32 := by
      by_contra hge
      have hwrap : (off + n) % 2 ^ 32 = off + n - 2 ^ 32 := by
        rw [Nat.mod_eq_sub_mod (by omega), Nat.mod_eq_of_lt (by omega)]
      omega
    rw [Nat.mod_eq_of_lt hlt] at h hbad ⊢
    have hin : ¬data.length < off + n := by
      intro hshort
      rw [if_pos hshort, List.length_take, List.length_drop] at h
      omega
    rw [if_neg hin]
    exact ⟨hlt, by omega, rfl⟩

/-- The turns of `loadseg` read the bytes of the segment one after the other. -/
theorem segmentBytes_some {offset sz k i : ℕ} {bytes : List UInt8}
    (h : segmentBytes (readi data) offset sz k i = some bytes)
    (hk : k = (sz - i + (pgsize - 1)) / pgsize) (hoff : i < sz → offset + i < 2 ^ 32) :
    bytes = (data.drop (offset + i)).take (sz - i) ∧ (i < sz → offset + sz ≤ data.length) := by
  induction k generalizing i bytes with
  | zero =>
    have hdone : sz - i = 0 := by
      simp only [pgsize] at hk
      omega
    rw [segmentBytes, Option.some.injEq] at h
    rw [← h, hdone]
    exact ⟨rfl, fun hlt => by omega⟩
  | succ k ih =>
    have hlt : i < sz := by
      by_contra hge
      rw [Nat.sub_eq_zero_of_le (by omega)] at hk
      simp [pgsize] at hk
    rw [segmentBytes] at h
    set m := if sz - i < pgsize then sz - i else pgsize with hm
    have hmpos : 0 < m := by
      rw [hm]
      split
      · omega
      · decide
    have hmle : m ≤ pgsize := by
      rw [hm]
      split <;> omega
    rw [Nat.mod_eq_of_lt (hoff hlt)] at h
    split at h
    · cases h
    rename_i hlen
    obtain ⟨rest, hrest, rfl⟩ := Option.map_eq_some_iff.mp h
    have hfull : (readi data (offset + i) m).length = m := by
      have hle := readi_length_le data (offset + i) m
      rw [not_not, List.length_take] at hlen
      omega
    obtain ⟨hend, hin, hread⟩ := readi_full hmpos (by simp only [pgsize] at hmle; omega)
      (hoff hlt) hfull
    by_cases hlast : sz - i < pgsize
    · -- the last turn
      rw [if_pos hlast] at hm
      have hnext := ih (i := i + pgsize) hrest (by simp only [pgsize] at *; omega) (by omega)
      rw [show sz - (i + pgsize) = 0 by omega, List.take_zero] at hnext
      rw [hnext.1, hread, List.take_take, Nat.min_self, List.append_nil, hm]
      exact ⟨rfl, fun _ => by omega⟩
    · rw [if_neg hlast] at hm
      have hnext := ih (i := i + pgsize) hrest (by simp only [pgsize] at *; omega)
        (fun _ => by rw [← Nat.add_assoc, ← hm]; exact hend)
      refine ⟨?_, ?_⟩
      · rw [hnext.1, hread, List.take_take, Nat.min_self, hm,
          show sz - i = pgsize + (sz - (i + pgsize)) by omega, List.take_add, List.drop_drop,
          Nat.add_assoc]
      · intro _
        by_cases hmore : i + pgsize < sz
        · exact hnext.2 hmore
        · omega

end file

/-- The program headers in the file from `off` on. -/
def headersFrom (data : List UInt8) : ℕ → ℕ → List Proghdr
  | _, 0 => []
  | off, n + 1 =>
    proghdr ((data.drop off).take proghdrSize) :: headersFrom data (off + proghdrSize) n

/-- The headers that the file describes, with 64-bit offsets. -/
def fileHeaders (data : List UInt8) : List Proghdr :=
  headersFrom data (elfhdr data).phoff (elfhdr data).phnum

/-- The bytes of a segment that `exec` reads. -/
def segmentData (data : List UInt8) (ph : Proghdr) : List UInt8 :=
  (data.drop (ph.off.toNat % 2 ^ 32)).take ph.filesz.toNat

/-- One segment is added to an image and its size. -/
def loadOne (data : List UInt8) (im : Space × ℕ) (ph : Proghdr) : Space × ℕ :=
  if ph.type ≠ elfProgLoad then im
  else
    (putBytes (growSpace im.1 im.2 (ph.vaddr.toNat + ph.memsz.toNat)) ph.vaddr.toNat
      (segmentData data ph), max im.2 (ph.vaddr.toNat + ph.memsz.toNat))

/-- What the checks of `exec` have found about a header. -/
structure Checked (data : List UInt8) (ph : Proghdr) : Prop where
  size : ph.filesz.toNat ≤ ph.memsz.toNat
  inside : 0 < ph.filesz.toNat → ph.off.toNat % 2 ^ 32 + ph.filesz.toNat ≤ data.length

section load
variable {data : List UInt8} {s t : Ref} {i : ℕ} {V : Space} {ph : Proghdr}

theorem RefSegment.loaded (h : RefSegment s i V ph (readi data) true t)
    (hV : (s.proc i).image = some V) (hsz : (t.proc i).imageSz ≤ 2 ^ 27) :
    (∃ V', (t.proc i).image = some V' ∧
        (V', (t.proc i).imageSz) = loadOne data (V, (s.proc i).imageSz) ph) ∧
      (ph.type = elfProgLoad → Checked data ph) := by
  unfold RefSegment at h
  unfold loadOne
  dsimp only at h ⊢
  by_cases htype : ph.type ≠ elfProgLoad
  · rw [if_pos htype] at h ⊢
    obtain ⟨-, rfl⟩ := h
    exact ⟨⟨V, hV, rfl⟩, fun hload => absurd hload htype⟩
  rw [if_neg htype] at h ⊢
  rcases h with ⟨-, hle, -, bytes, hbytes, rfl⟩ | ⟨hno, -⟩
  swap
  · cases hno
  simp only [Ref.setProc, Function.update_self] at hsz ⊢
  have hle' := UInt64.le_iff_toNat_le.mp hle
  have hmax := le_max_right (s.proc i).imageSz (ph.vaddr.toNat + ph.memsz.toNat)
  have hmod : ph.filesz.toNat % 2 ^ 32 = ph.filesz.toNat := Nat.mod_eq_of_lt (by omega)
  rw [hmod] at hbytes
  obtain ⟨hdata, hin⟩ := segmentBytes_some hbytes (by simp)
    (fun _ => Nat.mod_lt _ (by decide))
  refine ⟨⟨_, rfl, ?_⟩, fun _ => ⟨hle', fun hpos => hin hpos⟩⟩
  rw [hdata]
  rfl

/-- The image grows, and the arguments stay. -/
theorem RefSegment.grows (h : RefSegment s i V ph (readi data) true t) :
    (s.proc i).imageSz ≤ (t.proc i).imageSz ∧ (t.proc i).args = (s.proc i).args := by
  unfold RefSegment at h
  dsimp only at h
  by_cases htype : ph.type ≠ elfProgLoad
  · rw [if_pos htype] at h
    rw [h.2]
    exact ⟨le_rfl, rfl⟩
  · rw [if_neg htype] at h
    rcases h with ⟨-, -, -, bytes, -, rfl⟩ | ⟨hno, -⟩
    · simp [Ref.setProc]
    · cases hno

theorem RefHeaders.grows {n off : ℕ} (h : RefHeaders i data n off s t) :
    (s.proc i).imageSz ≤ (t.proc i).imageSz ∧ (t.proc i).args = (s.proc i).args := by
  induction n generalizing s off with
  | zero =>
    rw [RefHeaders] at h
    rw [h]
    exact ⟨le_rfl, rfl⟩
  | succ n ih =>
    obtain ⟨-, V, u, -, hseg, hrest⟩ := h
    have hfirst := hseg.grows
    have hlater := ih hrest
    exact ⟨hfirst.1.trans hlater.1, hlater.2.trans hfirst.2⟩

/-- The loop over the headers. -/
theorem RefHeaders.loaded {n off : ℕ} (h : RefHeaders i data n off s t)
    (hV : (s.proc i).image = some V) (hoff : off < 2 ^ 32)
    (hsz : (t.proc i).imageSz ≤ 2 ^ 27) :
    (∀ k, k < n → off + proghdrSize * k + proghdrSize ≤ data.length) ∧
    (∃ V', (t.proc i).image = some V' ∧ (V', (t.proc i).imageSz) =
      (headersFrom data off n).foldl (loadOne data) (V, (s.proc i).imageSz)) ∧
    ∀ ph ∈ headersFrom data off n, ph.type = elfProgLoad → Checked data ph := by
  induction n generalizing s V off with
  | zero =>
    rw [RefHeaders] at h
    rw [h]
    exact ⟨fun k hk => absurd hk (Nat.not_lt_zero k), ⟨V, hV, rfl⟩, by simp [headersFrom]⟩
  | succ n ih =>
    obtain ⟨hlen, V₀, u, hV₀, hseg, hrest⟩ := h
    obtain rfl : V₀ = V := Option.some.inj (hV₀.symm.trans hV)
    obtain ⟨hlt, hin, hread⟩ := readi_full (by decide) (by decide) hoff hlen
    rw [hread] at hseg
    rw [Nat.mod_eq_of_lt hlt] at hrest
    obtain ⟨⟨V₁, hV₁, hone⟩, hcheck⟩ := hseg.loaded hV (hrest.grows.1.trans hsz)
    obtain ⟨hinside, ⟨V₂, hV₂, hfold⟩, hchecks⟩ := ih hrest hV₁ hlt
    refine ⟨?_, ⟨V₂, hV₂, ?_⟩, ?_⟩
    · intro k hk
      cases k with
      | zero => omega
      | succ k =>
        have hnext := hinside k (by omega)
        rw [Nat.mul_succ]
        omega
    · rw [hfold, hone]
      rfl
    · intro ph hph
      rcases List.mem_cons.mp hph with rfl | hph
      · exact hcheck
      · exact hchecks ph hph

end load

/-- Zero pages up to a size. -/
def zeroSpace (sz : ℕ) : Space := growSpace (fun _ => none) 0 sz

/-- The segments of an image with their addresses. -/
def segmentObjects (data : List UInt8) (phs : List Proghdr) : List (ℕ × List UInt8) :=
  (phs.filter fun ph => ph.type = elfProgLoad).map fun ph =>
    (ph.vaddr.toNat, segmentData data ph)

section image
variable {data : List UInt8} {V : Space} {sz sz' va : ℕ} {bs : List UInt8}

theorem growSpace_zeroSpace : growSpace (zeroSpace sz) sz sz' = zeroSpace (max sz sz') := by
  funext w
  have hmax : npages (max sz sz') = max (npages sz) (npages sz') := by
    rcases le_total sz sz' with h | h
    · rw [max_eq_right h, max_eq_right (npages_mono h)]
    · rw [max_eq_left h, max_eq_left (npages_mono h)]
  have hzero : npages 0 = 0 := npages_mul 0
  simp only [growSpace, zeroSpace, hmax, hzero]
  split_ifs <;> first | rfl | omega

/-- New pages lie above what has been stored. -/
theorem growSpace_putBytes (h : va + bs.length ≤ sz) :
    growSpace (putBytes V va bs) sz sz' = putBytes (growSpace V sz sz') va bs := by
  funext w
  unfold growSpace putBytes
  dsimp only
  by_cases hw : npages sz ≤ w ∧ w < npages sz'
  · rw [if_pos hw, if_pos hw, Option.map_some]
    congr 1
    have hbytes : ∀ o, (if o < pgsize ∧ va ≤ w * pgsize + o then
        bs.getD (w * pgsize + o - va) (zeroPage.bytes o) else zeroPage.bytes o) =
          zeroPage.bytes o := by
      intro o
      have habove : sz ≤ w * pgsize := by
        have := hw.1
        simp only [npages, pgsize] at *
        omega
      split
      · rw [List.getD_eq_default]
        omega
      · rfl
    simp only [hbytes]
  · rw [if_neg hw, if_neg hw]

theorem growSpace_putAll {objs : List (ℕ × List UInt8)} (h : ∀ o ∈ objs, o.1 + o.2.length ≤ sz) :
    growSpace (putAll V objs) sz sz' = putAll (growSpace V sz sz') objs := by
  induction objs generalizing V with
  | nil => rfl
  | cons o objs ih =>
    have hrest := ih (V := putBytes V o.1 o.2) fun q hq => h q (List.mem_cons_of_mem _ hq)
    rw [growSpace_putBytes (h o (List.mem_cons_self ..))] at hrest
    exact hrest

theorem segmentData_length_le (data : List UInt8) (ph : Proghdr) :
    (segmentData data ph).length ≤ ph.filesz.toNat := by
  rw [segmentData, List.length_take]
  exact min_le_left _ _

/-- The segments that have been loaded are stored in zero pages. -/
theorem foldl_loadOne (phs : List Proghdr)
    (hcheck : ∀ ph ∈ phs, ph.type = elfProgLoad → Checked data ph) :
    ∃ sz, phs.foldl (loadOne data) (fun _ => none, 0) =
        (putAll (zeroSpace sz) (segmentObjects data phs), sz) ∧
      ∀ ph ∈ phs, ph.type = elfProgLoad → ph.vaddr.toNat + ph.memsz.toNat ≤ sz := by
  induction phs using List.reverseRecOn with
  | nil =>
    have hnone : zeroSpace 0 = fun _ => none := by
      funext w
      simp [zeroSpace, growSpace]
    exact ⟨0, by rw [hnone]; rfl, by simp⟩
  | append_singleton phs ph ih =>
    obtain ⟨sz, hfold, hle⟩ := ih fun q hq => hcheck q (List.mem_append_left _ hq)
    rw [List.foldl_append, hfold, List.foldl_cons, List.foldl_nil]
    by_cases htype : ph.type = elfProgLoad
    · refine ⟨max sz (ph.vaddr.toNat + ph.memsz.toNat), ?_, ?_⟩
      · have hbelow : ∀ o ∈ segmentObjects data phs, o.1 + o.2.length ≤ sz := by
          intro o ho
          obtain ⟨q, hq, rfl⟩ := List.mem_map.mp ho
          obtain ⟨hq, hload⟩ := List.mem_filter.mp hq
          have hload := of_decide_eq_true hload
          have hsize := (hcheck q (List.mem_append_left _ hq) hload).size
          have hlen := segmentData_length_le data q
          have hend := hle q hq hload
          dsimp only
          omega
        rw [loadOne, if_neg (not_not.mpr htype)]
        dsimp only
        rw [growSpace_putAll hbelow, growSpace_zeroSpace, segmentObjects, segmentObjects,
          List.filter_append, List.map_append, putAll, putAll, List.foldl_append]
        simp [htype]
      · intro q hq hload
        rcases List.mem_append.mp hq with hq | hq
        · exact (hle q hq hload).trans (le_max_left _ _)
        · rw [List.mem_singleton.mp hq]
          exact le_max_right _ _
    · refine ⟨sz, ?_, ?_⟩
      · rw [loadOne, if_pos htype, segmentObjects, segmentObjects, List.filter_append]
        simp [htype]
      · intro q hq hload
        rcases List.mem_append.mp hq with hq | hq
        · exact hle q hq hload
        · rw [List.mem_singleton.mp hq] at hload
          exact absurd hload htype

/-- `V` holds the segments of `n` program headers at `off` of the file. -/
structure ImageAt (data : List UInt8) (off n : ℕ) (V : Space) : Prop where
  headers : ∀ k, k < n → off + proghdrSize * k + proghdrSize ≤ data.length
  checked : ∀ ph ∈ headersFrom data off n, ph.type = elfProgLoad → Checked data ph
  bytes : ∃ sz, (∀ ph ∈ headersFrom data off n, ph.type = elfProgLoad →
      ph.vaddr.toNat + ph.memsz.toNat ≤ sz) ∧
    ∀ a, a < sz → getByte V a =
      getByte (putAll (zeroSpace sz) (segmentObjects data (headersFrom data off n))) a

/-- The file describes the contents of `V`: what its headers point at is inside the file and has
been loaded, and the rest of each segment is zero. -/
structure Described (data : List UInt8) (V : Space) : Prop where
  headers : ∀ k, k < (elfhdr data).phnum →
    (elfhdr data).phoff + proghdrSize * k + proghdrSize ≤ data.length
  inside : ∀ ph ∈ fileHeaders data, ph.type = elfProgLoad → ∀ j, j < ph.filesz.toNat →
    ph.off.toNat + j < data.length
  bytes : ∀ ph ∈ fileHeaders data, ph.type = elfProgLoad → ∀ j, j < ph.filesz.toNat →
    getByte V (ph.vaddr.toNat + j) = data[ph.off.toNat + j]?
  zero : ∀ ph ∈ fileHeaders data, ph.type = elfProgLoad → ∀ j, ph.filesz.toNat ≤ j →
    j < ph.memsz.toNat → getByte V (ph.vaddr.toNat + j) = some 0

/-- The addresses of a segment. -/
def Proghdr.range (ph : Proghdr) : Set ℕ :=
  Set.Ico ph.vaddr.toNat (ph.vaddr.toNat + ph.memsz.toNat)

/-- No two segments overlap. -/
def DisjointSegments (data : List UInt8) : Prop :=
  (fileHeaders data).Pairwise fun ph ph' =>
    ph.type = elfProgLoad → ph'.type = elfProgLoad → Disjoint ph.range ph'.range

/-- The offsets of the file fit in 32 bits. -/
structure Offsets32 (data : List UInt8) : Prop where
  headers : (elfhdr data).phnum = 0 ∨ (elfhdr data).phoff < 2 ^ 32
  segments : ∀ ph ∈ fileHeaders data, ph.type = elfProgLoad → 0 < ph.filesz.toNat →
    ph.off.toNat < 2 ^ 32

theorem getByte_zeroSpace {a : ℕ} (h : a < sz) : getByte (zeroSpace sz) a = some 0 := by
  have hpage : npages 0 ≤ a / pgsize ∧ a / pgsize < npages sz := by
    simp only [npages, pgsize]
    omega
  simp [getByte, zeroSpace, growSpace, hpage, zeroPage]

theorem Described.offsets32 (h : Described data V) (hlen : data.length < 2 ^ 32) :
    Offsets32 data := by
  constructor
  · rcases Nat.eq_zero_or_pos (elfhdr data).phnum with h0 | hpos
    · exact Or.inl h0
    · have hfirst := h.headers 0 hpos
      exact Or.inr (by omega)
  · intro ph hph hload hpos
    have hfirst := h.inside ph hph hload 0 hpos
    omega

theorem segmentObjects_mem {phs : List Proghdr} {o : ℕ × List UInt8}
    (ho : o ∈ segmentObjects data phs) :
    ∃ ph ∈ phs, ph.type = elfProgLoad ∧ o = (ph.vaddr.toNat, segmentData data ph) := by
  obtain ⟨ph, hph, rfl⟩ := List.mem_map.mp ho
  obtain ⟨hph, hload⟩ := List.mem_filter.mp hph
  exact ⟨ph, hph, of_decide_eq_true hload, rfl⟩

/-- What is stored of a segment is within its range. -/
theorem Checked.stored {ph : Proghdr} (h : Checked data ph) :
    Set.Ico ph.vaddr.toNat (ph.vaddr.toNat + (segmentData data ph).length) ⊆ ph.range := by
  have hlen := segmentData_length_le data ph
  have hsize := h.size
  exact Set.Ico_subset_Ico_right (by omega)

theorem segmentObjects_disjoint {phs : List Proghdr}
    (hcheck : ∀ ph ∈ phs, ph.type = elfProgLoad → Checked data ph)
    (hdisj : phs.Pairwise fun ph ph' =>
      ph.type = elfProgLoad → ph'.type = elfProgLoad → Disjoint ph.range ph'.range) :
    (segmentObjects data phs).Pairwise fun o o' =>
      Disjoint (Set.Ico o.1 (o.1 + o.2.length)) (Set.Ico o'.1 (o'.1 + o'.2.length)) := by
  rw [segmentObjects, List.pairwise_map, List.pairwise_filter]
  refine hdisj.imp_of_mem ?_
  intro ph ph' hph hph' hd hload hload'
  have hload := of_decide_eq_true hload
  have hload' := of_decide_eq_true hload'
  exact (hd hload hload').mono (hcheck ph hph hload).stored (hcheck ph' hph' hload').stored

/-- The image is the one that the file describes when its offsets are used as they are. -/
theorem ImageAt.described (h : ImageAt data (elfhdr data).phoff (elfhdr data).phnum V)
    (hoff : ∀ ph ∈ fileHeaders data, ph.type = elfProgLoad → 0 < ph.filesz.toNat →
      ph.off.toNat < 2 ^ 32) (hdisj : DisjointSegments data) : Described data V := by
  obtain ⟨sz, hend, hbytes⟩ := h.bytes
  have hinside : ∀ ph ∈ fileHeaders data, ph.type = elfProgLoad → 0 < ph.filesz.toNat →
      ph.off.toNat % 2 ^ 32 = ph.off.toNat ∧ ph.off.toNat + ph.filesz.toNat ≤ data.length := by
    intro ph hph hload hpos
    have hmod := Nat.mod_eq_of_lt (hoff ph hph hload hpos)
    have hin := (h.checked ph hph hload).inside hpos
    rw [hmod] at hin
    exact ⟨hmod, hin⟩
  refine ⟨h.headers, ?_, ?_, ?_⟩
  · intro ph hph hload j hj
    have hin := (hinside ph hph hload (by omega)).2
    omega
  · intro ph hph hload j hj
    obtain ⟨hmod, hin⟩ := hinside ph hph hload (by omega)
    have hsize := (h.checked ph hph hload).size
    have hle := hend ph hph hload
    have hlen : (segmentData data ph).length = ph.filesz.toNat := by
      rw [segmentData, hmod, List.length_take, List.length_drop]
      omega
    have hobj : (ph.vaddr.toNat, segmentData data ph) ∈ segmentObjects data (fileHeaders data) :=
      List.mem_map_of_mem (List.mem_filter.mpr ⟨hph, decide_eq_true hload⟩)
    have hget := getByte_putAll (V := zeroSpace sz) (k := j)
      (segmentObjects_disjoint h.checked hdisj) hobj (hlen ▸ hj)
      (by rw [getByte_zeroSpace (by dsimp only; omega)]; simp)
    rw [hbytes _ (by omega)]
    refine hget.trans ?_
    rw [segmentData, hmod, List.getElem?_take_of_lt hj, List.getElem?_drop]
  · intro ph hph hload j hlo hhi
    have hle := hend ph hph hload
    rw [hbytes _ (by omega), ← getByte_zeroSpace (show ph.vaddr.toNat + j < sz by omega)]
    apply getByte_putAll_outside
    intro o ho
    obtain ⟨q, hq, hqload, rfl⟩ := segmentObjects_mem ho
    by_cases heq : q = ph
    · right
      rw [heq]
      have hlen := segmentData_length_le data ph
      dsimp only
      omega
    · have hapart : Disjoint ph.range q.range := by
        have hsymm : Std.Symm fun x y : Proghdr =>
            x.type = elfProgLoad → y.type = elfProgLoad → Disjoint x.range y.range :=
          ⟨fun _ _ hxy hy hx => (hxy hx hy).symm⟩
        exact List.Pairwise.forall hdisj hph hq (Ne.symm heq) hload hqload
      have hnot := Set.disjoint_left.mp hapart
        (show ph.vaddr.toNat + j ∈ ph.range from ⟨by omega, by omega⟩)
      have hout : ph.vaddr.toNat + j ∉ Set.Ico q.vaddr.toNat
          (q.vaddr.toNat + (segmentData data q).length) :=
        fun hin => hnot ((h.checked q hq hqload).stored hin)
      rw [Set.mem_Ico] at hout
      dsimp only
      omega

end image

theorem elfhdr_readi {data : List UInt8} (h : (readi data 0 elfhdrSize).length = elfhdrSize) :
    elfhdr (readi data 0 elfhdrSize) = elfhdr data := by
  obtain ⟨-, -, hread⟩ := readi_full (by decide) (by decide) (by decide) h
  rw [hread, List.drop_zero]
  have hget : ∀ k, k < elfhdrSize → (data.take elfhdrSize).getD k 0 = data.getD k 0 := by
    intro k hk
    rw [List.getD_eq_getElem?_getD, List.getD_eq_getElem?_getD, List.getElem?_take_of_lt hk]
  have hfield : ∀ off n, off + n ≤ elfhdrSize →
      getLE (fun k => (data.take elfhdrSize).getD k 0) off n =
        getLE (fun k => data.getD k 0) off n := by
    intro off n hle
    apply getLE_congr
    intro k _ hk
    exact hget k (by omega)
  simp only [elfhdr, hfield 0 4 (by decide), hfield 24 8 (by decide), hfield 32 8 (by decide),
    hfield 56 2 (by decide)]

section call
variable [Image] {G : Set ℕ} {s₀ s u : Sys} {own₀ own own' : ℕ → Owner} {E : Panic → Prop}
  {i argc : ℕ} {data : List UInt8}

omit [Image] in
theorem getByte_below_stack {V : Space} {n a g sz' : ℕ} {objs : List (ℕ × List UInt8)}
    (ha : a < n * pgsize) (hg : n ≤ g) (hobjs : ∀ o ∈ objs, n * pgsize ≤ o.1) :
    getByte (putAll (clearUser (growSpace V (n * pgsize) sz') g) objs) a = getByte V a := by
  have hpage : a / pgsize < n := Nat.div_lt_of_lt_mul (by rwa [Nat.mul_comm] at ha)
  rw [getByte_putAll_outside fun o ho => Or.inl (by have := hobjs o ho; omega)]
  unfold getByte clearUser growSpace
  rw [if_neg (by omega), npages_mul, if_neg (by omega)]

/-- What a successful `exec` has loaded. -/
theorem Loaded.imageAt (hl : Loaded G s₀ own₀ i s data argc u own')
    (ha : Admitted (s.abs.proc i).args) :
    ImageAt data ((elfhdr data).phoff % 2 ^ 32) (elfhdr data).phnum (u.abs.proc i).space := by
  obtain ⟨elf, s₂, s₁, own₁, V, sp, t, himage, -, hnew, hf, hb, -, habs⟩ := hl
  obtain rfl : elf = elfhdr data := himage.elf_eq.trans (elfhdr_readi himage.length)
  have hheaders := himage.headers
  have hargs : (s₂.abs.proc i).args = (s.abs.proc i).args := by
    rw [hheaders.grows.2]
    simp [Ref.setProc]
  rw [← hargs] at ha
  have hnew₁ : (s₁.proc i).newtable ≠ 0 := by rw [hb.table]; exact hnew
  have hsize := hb.size
  have hlarge : (s₂.abs.proc i).imageSz ≤ 2 ^ 27 := by
    have hle : (s₁.proc i).newsz ≤ 2 ^ 27 := (hf.inv.space (.image i) hnew₁).1
    have hpages : (s₂.proc i).newsz ≤ npages (s₂.proc i).newsz * pgsize := by
      simp only [npages, pgsize]
      omega
    exact show (s₂.proc i).newsz ≤ 2 ^ 27 by omega
  obtain ⟨hin, ⟨V₂, hV₂, hfold⟩, hcheck⟩ := hheaders.loaded (V := fun _ => none)
    (by simp [Ref.setProc]) (Nat.mod_lt _ (by decide)) hlarge
  obtain ⟨sz, hclosed, hend⟩ := foldl_loadOne _ hcheck
  have hzero : ((s.abs.setProc i { s.abs.proc i with
      image := some fun _ => none, imageSz := 0 }).proc i).imageSz = 0 := by
    simp [Ref.setProc]
  rw [hzero, hclosed, Prod.mk.injEq] at hfold
  obtain ⟨rfl, hsz⟩ := hfold
  refine ⟨hin, hcheck, sz, hend, fun a hlt => ?_⟩
  have hspace : (u.abs.proc i).space = clip V := by
    rw [habs]
    simp [Ref.setProc]
  have hV : spaceOf s₂.mach (s₂.proc i).newtable =
      putAll (zeroSpace sz) (segmentObjects data _) :=
    Option.some.inj ((image_abs hnew).symm.trans hV₂)
  have hnewsz : (s₂.proc i).newsz = sz := hsz
  have hpage := hb.stackPage hf hnew
  obtain ⟨-, hS, -, hbase, hstack⟩ := hpage.stacked ha (hb.stacked sp argc rfl)
  rw [hspace, hstack, hb.space hnew, hV, hnewsz]
  rw [hnewsz] at hsize
  apply getByte_below_stack
  · simp only [npages, pgsize]
    omega
  · rw [hsize]
    simp only [pgsize]
    omega
  · intro o ho
    have hlo : (s₁.proc i).newsz - pgsize ≤ o.1 := by
      rcases List.mem_append.mp ho with ho | ho
      · have hinside := placed_inside (by have := hpage.large; omega) ho
        omega
      · rw [List.mem_singleton.mp ho]
        exact hbase
    omega

end call

/-- In every run, for every process and whatever its registers are: when the call of `exec`
succeeds on a file whose segments do not overlap, the process has the image that the file describes
exactly when the offsets in the file fit in 32 bits. -/
theorem exec_loads_described_iff [Image] (mem : ℕ → Buf) (ops : List Op) :
    wp (do boot; runOps ops) InitExits (Sys.power mem) fun _ s =>
      ∀ i regs, Running (s.proc i) → wp (uservec i regs) NoPanic s fun _ t =>
        ∀ w files, w.sys = t → w.locked = false →
          (∀ path data, files path = some data → data.length < 2 ^ 32) →
          wp (sysExec i files) NoPanic w fun r w' => r ≠ none →
            ∃ path data, files path = some data ∧
              readString (t.abs.proc i).space (getLE regs tfA0 8) maxpath = some (path ++ [0]) ∧
              (DisjointSegments data →
                (Described data (w'.sys.abs.proc i).space ↔ Offsets32 data)) := by
  apply wp_system
  rintro outs s hs - i regs hrun₀
  apply wp_mono (wp_uservec hs hrun₀ regs)
  rintro _ t ⟨⟨⟨own, h⟩, hok⟩, ht, -, -, hregs⟩ w files rfl hlock hfiles
  have hproc : w.sys.proc i = s.proc i := by rw [ht]; rfl
  have hrun : Running (w.sys.proc i) := by
    rw [hproc]
    exact hrun₀
  obtain ⟨hargv, hnew, hsz⟩ := (hok i).idle hrun.2
  have hc : Caller w.sys i := ⟨hok, hrun.1⟩
  apply wp_mono ((Framed.univ h).wp_sysExec Roomy.univ hc hrun.2 hargv hnew hsz hlock)
  rintro r w' ⟨-, -, -, -, hdone⟩ hsome
  obtain ⟨argc, hargc⟩ := Option.ne_none_iff_exists'.mp hsome
  obtain ⟨path, data, s', args, u, own₂, own₃, hfile, hpath, hread, hs', hl, -, -, -, habs⟩ :=
    hdone argc hargc
  refine ⟨path, data, hfile, ?_, fun hdisj => ?_⟩
  · have hreg := hregs 9 (by decide)
    rw [hproc] at hpath
    rw [← hpath]
    exact congrArg (fun a => readString _ a maxpath) hreg.symm
  have hadm : Admitted (s'.abs.proc i).args := by
    obtain ⟨hcount, hall⟩ := admitted_of_readArgs hread
    have hargs : Admitted args := ⟨hcount, hall⟩
    rw [hs']
    simpa [Ref.setProc] using hargs
  have himage := hl.imageAt hadm
  have hspace : (w'.sys.abs.proc i).space = (u.abs.proc i).space := by
    rw [habs]
    simp [Ref.setProc]
  rw [hspace]
  constructor
  · exact fun hd => hd.offsets32 (hfiles path data hfile)
  · intro hoff
    rcases hoff.headers with h0 | hlt
    · have hnone : fileHeaders data = [] := by rw [fileHeaders, h0]; rfl
      exact ⟨by simp [h0], by simp [hnone], by simp [hnone], by simp [hnone]⟩
    · rw [Nat.mod_eq_of_lt hlt] at himage
      exact himage.described hoff.segments hdisj

/-- A file with one program header, which `exec` skips. -/
structure Skipped (data : List UInt8) : Prop where
  length : (readi data 0 elfhdrSize).length = elfhdrSize
  magic : (elfhdr data).magic = elfMagic
  phnum : (elfhdr data).phnum = 1
  header : (readi data ((elfhdr data).phoff % 2 ^ 32) proghdrSize).length = proghdrSize
  type : (proghdr (readi data ((elfhdr data).phoff % 2 ^ 32) proghdrSize)).type ≠ elfProgLoad

section success
variable [Image] {G : Set ℕ} {s₀ s : Sys} {own₀ own : ℕ → Owner} {E : Panic → Prop} {i : ℕ}
  {data : List UInt8}

theorem wp_fetchArgs_nil (h : SysInv s.mach s.inventory own) (hpt : (s.proc i).pagetable ≠ 0)
    {uargv : ℕ} (hlt : uargv < 2 ^ 64)
    (hread : readWord (s.abs.proc i).space (s.abs.proc i).sz uargv = some 0) :
    wp (fetchArgs i uargv maxarg) E s fun ok t => ok = true ∧ t = s := by
  rw [show maxarg = 31 + 1 from rfl, fetchArgs, wp_bind]
  apply wp_mono (wp_fetchaddr h hpt)
  rintro r t ⟨rfl, rfl⟩
  rw [Nat.sub_self, Nat.mul_zero, Nat.add_zero, Nat.mod_eq_of_lt hlt, hread]
  simp only [if_true, wp_pure, and_self]

theorem Skipped.wp_loadImage (hd : Skipped data) (hG : Roomy G s₀ own₀)
    (hf : Framed G s₀ own₀ i s own) (hnew : (s.proc i).newtable = 0)
    (hfree : 5 ≤ s.mach.freelist.length) :
    wp (loadImage i data) E s fun res t => res ≠ none ∧ (t.proc i).newtable ≠ 0 ∧
      (t.abs.proc i).args = (s.abs.proc i).args ∧
      s.mach.freelist.length ≤ t.mach.freelist.length + 5 ∧
      ∃ own', Framed G s₀ own₀ i t own' := by
  unfold loadImage
  dsimp only
  rw [if_neg (not_not.mpr hd.length), elfhdr_readi hd.length, if_neg (not_not.mpr hd.magic), wp_bind]
  apply wp_mono (hf.wp_makeTable hG hnew)
  rintro ok t ⟨own', hf', -, ⟨rfl, hnew', habs, hused⟩ | ⟨-, -, hlow⟩⟩
  swap
  · omega
  simp only [Bool.not_true, Bool.false_eq_true, if_false, wp_bind, hd.phnum]
  unfold loadHeaders
  dsimp only
  rw [if_neg (not_not.mpr hd.header), loadSegment, if_pos hd.type]
  simp only [wp_bind, wp_pure, if_true, loadHeaders]
  refine ⟨by simp, hnew', ?_, hused, own', hf'⟩
  rw [habs]
  simp [Ref.setProc]

theorem Skipped.wp_exec {w : ExecSys} (hd : Skipped data) (hG : Roomy G s₀ own₀)
    (hc : Caller s₀ i) (hf : Framed G s₀ own₀ i w.sys own)
    (hnew : (w.sys.proc i).newtable = 0) (hfree : 11 ≤ w.sys.mach.freelist.length)
    (hargs : (w.sys.abs.proc i).args = []) {files : List UInt8 → Option (List UInt8)}
    {path : List UInt8} (hfile : files path = some data) :
    wp (exec i files path) E w fun r w' => r ≠ none ∧
      ∃ own', SysInv w'.sys.mach w'.sys.inventory own' := by
  unfold exec beginOp namei endOp
  simp only [wp_bind, wp_modify, hfile, wp_pure]
  apply wp_ilock (Nat.succ_pos _)
  rw [wp_onSys]
  apply wp_mono (hd.wp_loadImage hG hf hnew (by omega))
  rintro res t ⟨hres, hnew', hargs', hused, own', hf'⟩
  obtain ⟨elf, rfl⟩ := Option.ne_none_iff_exists'.mp hres
  simp only [wp_bind]
  apply wp_iunlockput rfl (Nat.succ_pos _)
  simp only [wp_modify, wp_onSys]
  apply wp_mono (hf'.wp_stackPhase hnew')
  rintro res t₂ (⟨-, -, -, -, -, hlow⟩ | ⟨s₁, own₁, V, hf₁, hb⟩)
  · omega
  have hnew₁ : (s₁.proc i).newtable ≠ 0 := by rw [hb.table]; exact hnew'
  have hnil : (t.abs.proc i).args = [] := hargs'.trans hargs
  cases res with
  | none =>
    -- no argument, so the stack is not too small
    have hadm : Admitted (t.abs.proc i).args := by
      rw [hnil]
      exact ⟨by decide, by simp⟩
    have hnone := hb.none rfl fun str hstr => (hadm.string str hstr).1
    refine absurd ?_ ((hb.stackPage hf₁ hnew').buildStack_none hadm hnone)
    rw [hnil]
    exact show stringsSize [] + round16 8 ≤ pgsize by decide
  | some res =>
    obtain ⟨sp, argc⟩ := res
    simp only [wp_bind, wp_onSys, wp_pure, setName, wp_modify]
    have hcommit := wp_commitImage (E := E) hf₁.inv (hf₁.pagetable hc) (hf₁.trapframe hc) hnew₁
      hb.effect.toEffect hb.domain elf.entry sp
    rw [← hb.eq] at hcommit
    apply wp_mono hcommit
    rintro _ u ⟨⟨own'', hcom⟩, -⟩
    exact ⟨by simp, own'', hcom.inv⟩

theorem Skipped.wp_sysExec {w : ExecSys} (hd : Skipped data) (h : SysOk w.sys)
    (hrun : Running (w.sys.proc i)) (hfree : 11 ≤ w.sys.mach.freelist.length)
    {files : List UInt8 → Option (List UInt8)} {path : List UInt8} (hfile : files path = some data)
    (hpath : readString (w.sys.abs.proc i).space
      (getLE (w.sys.mach.mem (w.sys.proc i).trapframe) tfA0 8) maxpath = some (path ++ [0]))
    (hargv : readWord (w.sys.abs.proc i).space (w.sys.abs.proc i).sz
      (getLE (w.sys.mach.mem (w.sys.proc i).trapframe) tfA1 8) = some 0) :
    wp (sysExec i files) E w fun r _ => r ≠ none := by
  obtain ⟨⟨own, hinv⟩, hok⟩ := h
  have hc : Caller w.sys i := ⟨hok, hrun.1⟩
  have hf : Framed Set.univ w.sys own i w.sys own := Framed.univ hinv
  obtain ⟨hno, hnew, hsz⟩ := (hok i).idle hrun.2
  have hpt := hf.pagetable hc
  unfold sysExec argraw copyinstr
  simp only [wp_bind, wp_onSys, wp_getProc, wp_mach, Nat.reduceLeDiff, if_false, wp_get, wp_pure,
    setSys_sys, setSys_setSys]
  apply wp_mono (wp_copyinstrLoop maxpath hinv.mem (hinv.root_table (k := .main i) hpt) hpt
    (hinv.space (.main i) hpt).2.highClosed (le_refl _))
  rintro ⟨bytes, ok⟩ m ⟨rfl, cs, hcs, -, hstring⟩
  have hself : w.setSys (w.sys.setMach w.sys.mach) = w := rfl
  rw [hself]
  have hboth : ok = true ∧ cs = path ++ [0] := by
    have hstring' := hpath.symm.trans hstring
    cases ok with
    | false => cases hstring'
    | true => exact ⟨rfl, (Option.some.inj hstring').symm⟩
  obtain ⟨rfl, rfl⟩ := hboth
  rw [List.nil_append] at hcs
  have htake : bytes.takeWhile (· ≠ 0) = path := by
    obtain ⟨-, ⟨str, hstr, hne⟩, -⟩ := readString_some hpath
    obtain rfl := List.append_cancel_right hstr
    dsimp only at hcs
    rw [hcs, List.takeWhile_append_of_pos (by simpa using hne)]
    simp
  simp only [Bool.not_true, Bool.false_eq_true, if_false, wp_bind, wp_onSys, wp_getProc, wp_get,
    wp_pure, setSys_self, htake]
  have hlt : getLE (w.sys.mach.mem (w.sys.proc i).trapframe) tfA1 8 < 2 ^ 64 := by
    have hbytes := getLE_lt (w.sys.mach.mem (w.sys.proc i).trapframe) tfA1 8
    norm_num at hbytes ⊢
    exact hbytes
  have hargs : wp (sysExecArgs i (getLE (w.sys.mach.mem (w.sys.proc i).trapframe) tfA1 8)) E w.sys
      fun ok t => ok = true ∧ t.mach = w.sys.mach := by
    unfold sysExecArgs
    rw [wp_bind]
    apply wp_mono (wp_fetchArgs_nil hinv hpt hlt hargv)
    rintro ok t ⟨rfl, rfl⟩
    simp only [if_true, wp_bind, wp_setProc, wp_pure]
    exact ⟨trivial, rfl⟩
  apply wp_mono (wp_and (hf.wp_sysExecArgs Roomy.univ hc hrun.2 hno) hargs)
  rintro ok t ⟨⟨own₁, hf₁, hres⟩, rfl, hmach⟩
  simp only [true_and, Bool.true_eq_false, false_and, or_false] at hres
  obtain ⟨⟨l, hl⟩, args, hread, habs⟩ := hres
  have hnil : args = [] := by
    rw [show maxarg = 31 + 1 from rfl, readArgs, Nat.sub_self, Nat.mul_zero, Nat.add_zero,
      Nat.mod_eq_of_lt hlt, hargv] at hread
    simpa using hread.symm
  have hargs' : (t.abs.proc i).args = [] := by
    rw [habs]
    simpa [Ref.setProc] using hnil
  have hnew' : (t.proc i).newtable = 0 := by
    rw [hl, setProc_self]
    exact hnew
  simp only [if_true, wp_bind, wp_pure, wp_onSys]
  apply wp_mono (hd.wp_exec (w := w.setSys t) Roomy.univ hc hf₁ hnew'
    (by rw [setSys_sys, hmach]; exact hfree) hargs' hfile)
  rintro r w₁ ⟨hr, own₂, hinv₂⟩
  apply wp_mono hinv₂.wp_sysExecEnd
  rintro _ u -
  exact hr

end success
/-- A file of 120 bytes that puts its program header at `2 ^ 32 + 64`. -/
def wideFile : List UInt8 :=
  [0x7F, 0x45, 0x4C, 0x46] ++ List.replicate 28 0 ++ [64, 0, 0, 0, 1, 0, 0, 0] ++
    List.replicate 16 0 ++ [1] ++ List.replicate 63 0

/-- The first process calls `exec` with the path in `initcode` and no arguments. -/
def initRegs : Buf := setLE (setLE (fun _ => 0) tfA0 8 36) tfA1 8 4088

theorem wideFile_skipped : Skipped wideFile := by
  constructor <;> decide +kernel

/-- `exec` succeeds on a file whose program header is outside of it. -/
theorem exec_accepts_wide_offset : letI := smallImage
    ∃ (s t : Sys) (w w' : ExecSys) (argc : ℕ),
      boot (Sys.power fun _ _ => 0) = .ok ((), s) ∧ Running (s.proc 0) ∧
      uservec 0 initRegs s = .ok ((), t) ∧ w.sys = t ∧ w.locked = false ∧
      sysExec 0 (fun _ => some wideFile) w = .ok (some argc, w') ∧
      DisjointSegments wideFile ∧ ¬Described wideFile (w'.sys.abs.proc 0).space := by
  let image := smallImage
  obtain ⟨⟨⟩, s, hboot, hs, habs, hfree⟩ :=
    exists_of_wp (fun _ => id) (wp_boot (E := NoPanic) fun _ _ => 0)
  have hproc : s.abs.proc 0 =
      { state := .runnable, pid := 1, sz := pgsize, space := initSpace } := by
    rw [habs]
    rfl
  have hrun : Running (s.proc 0) :=
    ⟨show (s.abs.proc 0).state = .runnable by rw [hproc],
      show (s.abs.proc 0).inExec = false by rw [hproc]⟩
  obtain ⟨⟨⟩, t, hvec, ht, hst, hta, htfree, hregs⟩ :=
    exists_of_wp (fun _ => id) (wp_uservec (E := NoPanic) hs hrun initRegs)
  have htproc : t.proc 0 = s.proc 0 := by rw [hst]; rfl
  have hreg : ∀ n, n < 31 → getLE (t.mach.mem (t.proc 0).trapframe) (40 + 8 * n) 8 =
      getLE initRegs (40 + 8 * n) 8 := by
    intro n hn
    rw [htproc]
    exact hregs n hn
  have ha0 : getLE (t.mach.mem (t.proc 0).trapframe) tfA0 8 = 36 :=
    (hreg 9 (by decide)).trans (by decide)
  have ha1 : getLE (t.mach.mem (t.proc 0).trapframe) tfA1 8 = 4088 :=
    (hreg 10 (by decide)).trans (by decide)
  have hcall : wp (sysExec 0 fun _ => some wideFile) NoPanic ⟨t, 0, 0, false, fun _ => []⟩
      fun r _ => r ≠ none := by
    have hstring : readString (t.abs.proc 0).space (getLE (t.mach.mem (t.proc 0).trapframe) tfA0 8)
        maxpath = some ([0x2f, 0x69, 0x6e, 0x69, 0x74] ++ [0]) := by
      rw [ha0, hta, hproc]
      decide
    have hvector : readWord (t.abs.proc 0).space (t.abs.proc 0).sz
        (getLE (t.mach.mem (t.proc 0).trapframe) tfA1 8) = some 0 := by
      rw [ha1, hta, hproc]
      decide
    exact wideFile_skipped.wp_sysExec ht (by dsimp only; rw [htproc]; exact hrun)
      (by dsimp only; rw [htfree]; omega) rfl hstring hvector
  obtain ⟨r, w', hexec, hr⟩ := exists_of_wp (fun _ => id) hcall
  obtain ⟨argc, rfl⟩ := Option.ne_none_iff_exists'.mp hr
  refine ⟨s, t, _, w', argc, hboot, hrun, hvec, rfl, rfl, hexec, ?_, fun hd => ?_⟩
  · rw [DisjointSegments, fileHeaders, wideFile_skipped.phnum]
    exact List.pairwise_singleton _ _
  · have hin := hd.headers 0 (by rw [wideFile_skipped.phnum]; decide)
    have hoff : (elfhdr wideFile).phoff = 2 ^ 32 + 64 := by decide
    have hlen : wideFile.length = 120 := by decide
    rw [hoff, hlen] at hin
    omega

end Xv6
