import Xv6.Vm.LifeSpec

/-! What `exec` does to memory: strings are read from the old address space, segments and the
stack are written to the new one. -/
namespace Xv6
open Bytes Program RefCount

section strings
variable {V : Space}

/-- A string is read one piece at a time. -/
theorem readString_chunk (bytes : List UInt8) {va max : ℕ} (hlen : bytes.length ≤ max)
    (hget : ∀ i, i < bytes.length → getByte V (va + i) = bytes[i]?) :
    readString V va max =
      if (bytes.takeWhile (· ≠ 0)).length < bytes.length then
        some (bytes.takeWhile (· ≠ 0) ++ [0])
      else (readString V (va + bytes.length) (max - bytes.length)).map (bytes ++ ·) := by
  induction bytes generalizing va max with
  | nil => simp
  | cons b bytes ih =>
    obtain ⟨n, rfl⟩ : ∃ n, max = n + 1 := ⟨max - 1, by simp at hlen; omega⟩
    have hb : getByte V va = some b := by simpa using hget 0 (by simp)
    rw [readString, hb]
    by_cases h0 : b = 0
    · simp [h0]
    · have hrest := @ih (va + 1) n (by simpa using hlen) fun i hi => by
        have := hget (i + 1) (by simpa using hi)
        rwa [List.getElem?_cons_succ, show va + (i + 1) = va + 1 + i by omega] at this
      simp only [if_neg h0]
      rw [hrest, List.takeWhile_cons_of_pos (by simpa using h0)]
      by_cases hlt : (bytes.takeWhile (· ≠ 0)).length < bytes.length
      · rw [if_pos hlt, if_pos (by simpa using hlt)]
        rfl
      · rw [if_neg hlt, if_neg (by simpa using hlt), List.length_cons,
          show va + (bytes.length + 1) = va + 1 + bytes.length by omega,
          show n + 1 - (bytes.length + 1) = n - bytes.length by omega, Option.map_map]
        rfl

/-- A string has one zero, at its end, and its bytes are those in memory. -/
theorem readString_some {va max : ℕ} {cs : List UInt8} (h : readString V va max = some cs) :
    cs.length ≤ max ∧ (∃ str, cs = str ++ [0] ∧ ∀ b ∈ str, b ≠ 0) ∧
      ∀ i, i < cs.length → getByte V (va + i) = cs[i]? := by
  induction max generalizing va cs with
  | zero => simp [readString] at h
  | succ n ih =>
    rw [readString] at h
    cases hb : getByte V va with
    | none => simp [hb] at h
    | some b =>
      simp only [hb] at h
      by_cases h0 : b = 0
      · rw [if_pos h0, Option.some.injEq] at h
        subst h
        refine ⟨by simp, ⟨[], rfl, by simp⟩, fun i hi => ?_⟩
        obtain rfl : i = 0 := by simpa using hi
        simpa [h0] using hb
      · rw [if_neg h0, Option.map_eq_some_iff] at h
        obtain ⟨tl, htl, rfl⟩ := h
        obtain ⟨hlen, ⟨str, rfl, hstr⟩, hbytes⟩ := ih htl
        refine ⟨by simpa using hlen, ⟨b :: str, rfl, by simpa [h0] using hstr⟩, fun i hi => ?_⟩
        cases i with
        | zero => simpa using hb
        | succ i =>
          rw [show va + (i + 1) = va + 1 + i by omega, hbytes i (by simpa using hi)]
          rfl

theorem pushStrings_length {stackbase sp sp' : ℕ} {strs : List (List UInt8)} {V V' : Space}
    {ustack us : List ℕ} (h : pushStrings stackbase strs V sp ustack = some (V', sp', us))
    (hlen : ustack.length ≤ maxarg) : us.length ≤ maxarg := by
  induction strs generalizing V sp ustack with
  | nil =>
    simp only [pushStrings, Option.some.injEq, Prod.mk.injEq] at h
    rw [← h.2.2]
    exact hlen
  | cons str strs ih =>
    rw [pushStrings] at h
    split at h
    · cases h
    · rename_i hok
      rw [not_or] at hok
      apply ih h
      rw [List.length_append, List.length_singleton]
      omega

theorem wordBytes_length (ws : List ℕ) : (wordBytes ws).length = 8 * ws.length := by
  induction ws with
  | nil => rfl
  | cons w ws ih =>
    have hcons : wordBytes (w :: ws) = read (setLE (fun _ => 0) 0 8 w) 0 8 ++ wordBytes ws := rfl
    rw [hcons, List.length_append, read_length, ih, List.length_cons]
    ring

/-- The stack that `exec` builds in `V₀`, with the stack pointer and the number of arguments. -/
def Stacked (V₀ : Space) (sz : ℕ) (strs : List (List UInt8)) (sp argc : ℕ) (V : Space) : Prop :=
  ∃ V₁ sp₁ ustack, pushStrings (sz - pgsize) strs (clearUser V₀ (sz / pgsize - 2)) sz [] =
      some (V₁, sp₁, ustack) ∧ sp = pushSp sp₁ ((ustack.length + 1) * 8) ∧ sz - pgsize ≤ sp ∧
    argc = ustack.length ∧ V = putBytes V₁ sp (wordBytes (ustack ++ [0]))

theorem Stacked.buildStack {V₀ V : Space} {sz sp argc : ℕ} {strs : List (List UInt8)}
    (h : Stacked V₀ sz strs sp argc V) : buildStack V₀ sz strs = some (V, argc) := by
  obtain ⟨V₁, sp₁, ustack, hpush, rfl, hbase, rfl, rfl⟩ := h
  rw [Xv6.buildStack, hpush]
  exact if_neg (Nat.not_lt.mpr hbase)

end strings

section machine
variable [Image] {s : Machine} {own : ℕ → Owner} {E : Panic → Prop} {r : ℕ}

/-- `walkaddr` for a page that is going to be read. -/
theorem wp_walkaddr_page (h : MemInv s own) (hr : own r = .root true) (hr0 : r ≠ 0)
    (hh : HighClosed s r) {va : ℕ} {Q : Option ℕ → Machine → Prop}
    (hnone : getByte (spaceOf s r) va = none → Q none s)
    (hsome : ∀ pa, (∀ i, va % pgsize + i < pgsize →
      getByte (spaceOf s r) (va + i) = some (s.mem pa (va % pgsize + i))) → Q (some pa) s) :
    wp (walkaddr r (pgrounddown va)) E s Q := by
  have hdiv : pgrounddown va / pgsize = va / pgsize := Nat.mul_div_cancel _ (by decide)
  have hdown := pgrounddown_add_mod va
  apply wp_walkaddr h hr
  · intro hno
    apply hnone
    rw [getByte_spaceOf hr0]
    split
    · rename_i hlt
      have hmax : ¬maxva ≤ pgrounddown va := by
        have := lt_maxva_of_page hlt
        omega
      have hleaf := hno.resolve_left hmax
      rw [hdiv] at hleaf
      unfold getByte view
      by_cases hval : valid (leafAt (entry s.mem) r (va / pgsize)) = true
      · have huser : user (leafAt (entry s.mem) r (va / pgsize)) = false := by simpa [hval] using hleaf
        simp [hval, huser]
      · simp [hval]
    · rfl
  · intro hmax hval huser
    rw [hdiv] at hval huser ⊢
    have hlt : va / pgsize < userPages := by
      have hlt' := hh.lt hmax (by rw [hdiv]; exact huser)
      rwa [hdiv] at hlt'
    apply hsome
    intro i hi
    have hin : (va + i) / pgsize = va / pgsize ∧ (va + i) % pgsize = va % pgsize + i := by
      simp only [pgsize] at *
      omega
    rw [getByte_spaceOf hr0, hin.1, if_pos hlt]
    simp [getByte, view, hin, hval, huser]

theorem wp_copyinstrLoop (fuel : ℕ) (h : MemInv s own) (hr : own r = .root true) (hr0 : r ≠ 0)
    (hh : HighClosed s r) {va max : ℕ} {acc : List UInt8} (hfuel : max ≤ fuel) :
    wp (copyinstrLoop r fuel va max acc) E s fun res t => t = s ∧ ∃ cs, res.1 = acc ++ cs ∧
      cs.length ≤ max ∧ readString (spaceOf s r) va max = if res.2 then some cs else none := by
  induction fuel generalizing va max acc with
  | zero =>
    obtain rfl : max = 0 := by omega
    rw [copyinstrLoop, wp_pure]
    exact ⟨rfl, [], by simp, by simp, by simp [readString]⟩
  | succ fuel ih =>
    rw [copyinstrLoop]
    by_cases hzero : max = 0
    · subst hzero
      rw [if_pos rfl, wp_pure]
      exact ⟨rfl, [], by simp, by simp, by simp [readString]⟩
    rw [if_neg hzero, wp_bind]
    have hdown := pgrounddown_add_mod va
    have hoff : va - pgrounddown va = va % pgsize := by omega
    have hmod : va % pgsize < pgsize := Nat.mod_lt _ (by decide)
    apply wp_walkaddr_page h hr hr0 hh
    · intro hno
      rw [wp_pure]
      obtain ⟨n, rfl⟩ : ∃ n, max = n + 1 := ⟨max - 1, by omega⟩
      exact ⟨rfl, [], by simp, by simp, by simp [readString, hno]⟩
    · intro pa hpa
      simp only [wp_bind, wp_get, hoff]
      generalize hn : min (pgsize - va % pgsize) max = n
      generalize hbytes : read (s.mem pa) (va % pgsize) n = bytes
      have hlen : bytes.length = n := by rw [← hbytes, read_length]
      have hget : ∀ i, i < bytes.length → getByte (spaceOf s r) (va + i) = bytes[i]? := by
        intro i hi
        rw [hpa i (by omega), ← hbytes]
        simp [Bytes.read, show i < n by omega]
      have hchunk := readString_chunk bytes (show bytes.length ≤ max by omega) hget
      rw [← hlen]
      split
      · rename_i hlt
        rw [wp_pure]
        rw [if_pos hlt] at hchunk
        exact ⟨rfl, _, by rw [List.append_assoc], by simp at hlt ⊢; omega, by simpa using hchunk⟩
      · rename_i hnot
        rw [if_neg hnot] at hchunk
        have hall : bytes.takeWhile (· ≠ 0) = bytes :=
          (List.takeWhile_prefix _).eq_of_length_le (by omega)
        rw [hall]
        apply wp_mono (ih (by omega))
        rintro res t ⟨rfl, cs, hcs, hle, hread⟩
        refine ⟨rfl, bytes ++ cs, by rw [hcs, List.append_assoc], ?_, ?_⟩
        · rw [List.length_append]
          omega
        rw [hchunk]
        by_cases hmore : max - bytes.length = 0
        · rw [hmore] at hread ⊢
          simp only [readString, Option.map_none] at hread ⊢
          cases hres : res.2 with
          | false => simp
          | true => simp [hres] at hread
        · rw [show va + bytes.length = pgrounddown va + pgsize by omega, hread]
          split <;> rfl

/-- Writing to a private page changes no table. -/
theorem MemInv.leafAt_writePrivate (h : MemInv s own) (hr : own r = .root true) {w pa : ℕ}
    (hw : w < userPages) (hp : Private s r w) (hpa : pte2pa (leafAt (entry s.mem) r w) = pa)
    (b : Buf) (v : ℕ) :
    leafAt (entry (s.setPage pa b).mem) r v = leafAt (entry s.mem) r v := by
  obtain ⟨hk, hc⟩ := h.count_private hr hw hp
  rw [hpa] at hk hc
  exact (h.writeData hk hc b).2.2 r true v hr

/-- `copyout` to a private page writes the bytes and changes no entry. -/
theorem wp_copyout_private (h : MemInv s own) (hr : own r = .root true) {dstva : ℕ}
    {src : List UInt8} (hne : src ≠ []) (hfit : dstva % pgsize + src.length ≤ pgsize)
    (hv : dstva / pgsize < userPages) (hp : Private s r (dstva / pgsize)) :
    wp (copyout r dstva src) E s fun ok t => ok = true ∧
      EffectOn ∅ r s own t own (putBytes (view s r) dstva src) := by
  have hdiv : pgrounddown dstva / pgsize = dstva / pgsize := Nat.mul_div_cancel _ (by decide)
  have hdown := pgrounddown_add_mod dstva
  have hoff : dstva - pgrounddown dstva = dstva % pgsize := by omega
  have hmax : ¬maxva ≤ pgrounddown dstva := by
    have hlt := lt_maxva_of_page hv
    omega
  obtain ⟨hval, huser, hwr⟩ := hp
  have hk : refs (entry s.mem) own (r, dstva / pgsize) = some _ :=
    refs_eq_some.mpr ⟨hr, hv, hval, rfl⟩
  have hcow : cow (leafAt (entry s.mem) r (dstva / pgsize)) = false :=
    ((h.sharing.flags (r, dstva / pgsize) _ hk).2 huser).mp hwr
  obtain ⟨fuel, hfuel⟩ : ∃ n, src.length = n + 1 :=
    ⟨src.length - 1, by have := List.length_pos_of_ne_nil hne; omega⟩
  have hnow := h.writePrivate hr hv ⟨hval, huser, hwr⟩ rfl hfit
  unfold copyout
  rw [hfuel, copyoutLoop, if_neg hne, wp_bind, copyoutPage, if_neg hmax, wp_bind, isCow, wp_bind]
  apply wp_walk_find h.tree hr (Nat.lt_of_not_le hmax)
  · intro hno
    rw [hdiv] at hno
    rw [h.tree.leafAt_none hr hno] at hval
    cases hval
  · intro q hq
    rw [hdiv] at hq
    simp only [hdiv, wp_bind, wp_readPte, wp_pure, ← h.tree.leafAt_low hq]
    rw [if_neg (by simpa using hcow)]
    apply wp_walkaddr h hr
    · rw [hdiv]
      exact fun hno => absurd ⟨hval, huser⟩ (hno.resolve_left hmax)
    · intro _ _ _
      have hall : min (pgsize - dstva % pgsize) src.length = src.length := by omega
      simp only [wp_bind, wp_modify, hoff, hall, hdiv, List.take_length, List.drop_length]
      have hend : ∀ n va, copyoutLoop r n va [] = pure true := by
        intro n va
        cases n <;> simp [copyoutLoop]
      rw [hend, wp_pure]
      refine ⟨rfl, hnow, fun v _ _ => ?_⟩
      exact h.leafAt_writePrivate hr hv ⟨hval, huser, hwr⟩ rfl _ v

theorem wp_loadsegLoop (k : ℕ) (h : MemInv s own) (hr : own r = .root true) (hun : Unshared s r)
    {va sz i offset : ℕ} {readi : ℕ → ℕ → List UInt8} (hva : va % pgsize = 0)
    (hi : i % pgsize = 0) (hk : k = (sz - i + (pgsize - 1)) / pgsize)
    (hmaps : ∀ w, (va + i) / pgsize ≤ w → w < (va + i) / pgsize + k →
      w < userPages ∧ view s r w ≠ none) :
    wp (loadsegLoop r va readi offset sz k i) E s fun ok t => Unshared t r ∧
      match segmentBytes readi offset sz k i with
      | some bytes => ok = true ∧ Effect r s own t own (putBytes (view s r) (va + i) bytes)
      | none => ok = false ∧ ∃ V, Effect r s own t own V ∧
          ∀ w, w < userPages → (V w = none ↔ view s r w = none) := by
  induction k generalizing s i with
  | zero =>
    rw [loadsegLoop, wp_pure, segmentBytes]
    exact ⟨hun, rfl, by rw [putBytes_nil]; exact Effect.refl h hr⟩
  | succ k ih =>
    obtain ⟨hw, hsome⟩ := hmaps ((va + i) / pgsize) (le_refl _) (by omega)
    have hval : valid (leafAt (entry s.mem) r ((va + i) / pgsize)) = true := by
      by_contra hno
      exact hsome (view_eq_none_iff.mpr (by simpa using hno))
    obtain ⟨huser, hwr⟩ := hun _ hw hval
    have halign : (va + i) % pgsize = 0 := by
      simp only [pgsize] at *
      omega
    rw [loadsegLoop, wp_bind]
    apply wp_walkaddr h hr
    · rintro (hmax | hno)
      · exact absurd (lt_maxva_of_page hw) (by omega)
      · exact absurd ⟨hval, huser⟩ hno
    · intro _ _ _
      simp only [wp_bind, wp_modify, segmentBytes]
      generalize hn : (if sz - i < pgsize then sz - i else pgsize) = n
      generalize hbytes : (readi ((offset + i) % 2 ^ 32) n).take n = bytes
      generalize hpa : pte2pa (leafAt (entry s.mem) r ((va + i) / pgsize)) = pa
      have hle : bytes.length ≤ n := by
        rw [← hbytes]
        simp
      have hnle : n ≤ pgsize := by
        rw [← hn]
        split <;> omega
      have hpriv : Private s r ((va + i) / pgsize) := ⟨hval, huser, hwr⟩
      have he : Effect r s own (s.setPage pa (write (s.mem pa) ((va + i) % pgsize) bytes)) own
          (putBytes (view s r) (va + i) bytes) := h.writePrivate hr hw hpriv hpa (by omega)
      have hleaf := h.leafAt_writePrivate hr hw hpriv hpa (write (s.mem pa) 0 bytes)
      rw [halign] at he
      generalize s.setPage pa (write (s.mem pa) 0 bytes) = t at he hleaf ⊢
      have hunt : Unshared t r := by
        intro v hv
        rw [hleaf v]
        exact hun v hv
      by_cases hfull : bytes.length = n
      · simp only [ne_eq, hfull, not_true_eq_false, if_false]
        have hk' : k = (sz - (i + pgsize) + (pgsize - 1)) / pgsize := by
          simp only [pgsize] at *
          omega
        have hnext : (va + (i + pgsize)) / pgsize = (va + i) / pgsize + 1 := by
          rw [← Nat.add_assoc, Nat.add_div_right _ (by decide)]
        apply wp_mono (ih he.inv hunt (by simp only [pgsize] at *; omega) hk' ?_)
        · rintro ok t' ⟨hun', hres⟩
          refine ⟨hun', ?_⟩
          cases hseg : segmentBytes readi offset sz k (i + pgsize) with
          | none =>
            simp only [hseg] at hres
            obtain ⟨hok, V, he', hV⟩ := hres
            refine ⟨hok, V, he.trans he', fun w hw' => (hV w hw').trans ?_⟩
            rw [he.view w hw', putBytes_eq_none]
          | some rest =>
            simp only [hseg] at hres
            refine ⟨hres.1, (he.trans hres.2).congr ?_⟩
            intro w hw'
            rw [putBytes_congr (he.view w hw')]
            by_cases hlast : n = pgsize
            · rw [show va + (i + pgsize) = va + i + bytes.length by omega, putBytes_append]
            · have hk0 : k = 0 := by
                simp only [pgsize] at *
                split at hn <;> omega
              subst hk0
              rw [segmentBytes, Option.some.injEq] at hseg
              subst hseg
              simp
        · intro w hlo hhi
          rw [hnext] at hlo hhi
          obtain ⟨hw', hv'⟩ := hmaps w (by omega) (by omega)
          refine ⟨hw', ?_⟩
          rw [he.view w hw', Ne, putBytes_eq_none]
          exact hv'
      · simp only [ne_eq, hfull, not_false_eq_true, if_true, wp_pure]
        exact ⟨hunt, trivial, _, he, fun w _ => putBytes_eq_none _ _ _ w⟩

omit [Image] in
theorem pushSp_of_le {sp n : ℕ} (hn : n ≤ sp) (hsp : sp < 2 ^ 64) :
    pushSp sp n = sp - n - (sp - n) % 16 := by
  have hsub : sub64 sp n = sp - n := by
    rw [sub64, show sp + 2 ^ 64 - n = sp - n + 2 ^ 64 by omega, Nat.add_mod_right,
      Nat.mod_eq_of_lt (by omega)]
  rw [pushSp, hsub]

omit [Image] in
/-- A stack pointer that wraps around is far above user memory. -/
theorem pushSp_of_gt {sp n : ℕ} (hn : sp < n) (hlt : n ≤ 2 ^ 32) : maxva ≤ pushSp sp n := by
  have hsub : sub64 sp n = sp + 2 ^ 64 - n := by
    rw [sub64, Nat.mod_eq_of_lt (by omega)]
  rw [pushSp, hsub]
  simp only [maxva]
  omega

omit [Image] in
theorem cstr_length_pos (b : Buf) : 0 < (cstr b).length := by
  simp [cstr]

omit [Image] in
theorem cstr_length_le (b : Buf) : (cstr b).length ≤ pgsize + 1 := by
  have hle := (List.takeWhile_prefix (l := read b 0 pgsize) (· ≠ 0)).length_le
  rw [read_length] at hle
  rw [cstr, List.length_append]
  simpa using hle

theorem wp_copyout_beyond {dstva : ℕ} {src : List UInt8} (hne : src ≠ []) (hva : maxva ≤ dstva) :
    wp (copyout r dstva src) E s fun ok t => ok = false ∧ t = s := by
  obtain ⟨fuel, hfuel⟩ : ∃ n, src.length = n + 1 :=
    ⟨src.length - 1, by have := List.length_pos_of_ne_nil hne; omega⟩
  have hdown : maxva ≤ pgrounddown dstva := by
    simp only [maxva, pgrounddown, pgsize] at *
    omega
  unfold copyout
  rw [hfuel, copyoutLoop, if_neg hne, wp_bind, copyoutPage, if_pos hdown, wp_pure, wp_pure]
  exact ⟨rfl, rfl⟩

theorem EffectOn.private {t : Machine} {own' : ℕ → Owner} {V : Space} {w : ℕ}
    (he : EffectOn ∅ r s own t own' V) (hw : w < userPages) (hp : Private s r w) :
    Private t r w := by
  rw [Private, he.entries w hw (Set.notMem_empty w)]
  exact hp

omit [Image] in
theorem EffectOn.view_none_iff [Image] {t : Machine} {own' : ℕ → Owner} {V : Space} {W : Set ℕ}
    {w : ℕ} (he : EffectOn W r s own t own' V) (hw : w < userPages) (hW : w ∉ W) :
    V w = none ↔ view s r w = none := by
  rw [← he.view w hw, view_eq_none_iff, view_eq_none_iff, he.entries w hw hW]

/-- The strings of `exec` are copied to the stack of the new image, in the private page `w`. -/
theorem wp_pushArgs (argv : List ℕ) (h : MemInv s own) (hr : own r = .root true) (hr0 : r ≠ 0)
    (hargv : ∀ pa ∈ argv, ∃ τ, own pa = .held τ) {w sp : ℕ} {ustack : List ℕ}
    (hw : w < userPages) (hp : Private s r w) (hsp : sp ≤ w * pgsize + pgsize) :
    wp (pushArgs r (w * pgsize) argv sp ustack) E s fun res t => ∃ V, EffectOn ∅ r s own t own V ∧
      (∀ sp' us, res = some (sp', us) → sp' ≤ sp ∧ (w * pgsize ≤ sp → w * pgsize ≤ sp') ∧
        pushStrings (w * pgsize) (argv.map fun pa => cstr (s.mem pa)) (spaceOf s r) sp ustack =
          some (clip V, sp', us)) ∧
      (res = none → w * pgsize ≤ sp → (∀ pa ∈ argv, (cstr (s.mem pa)).length ≤ w * pgsize) →
        pushStrings (w * pgsize) (argv.map fun pa => cstr (s.mem pa)) (spaceOf s r) sp ustack =
          none) := by
  have hup := userPages_eq
  induction argv generalizing s sp ustack with
  | nil =>
    rw [pushArgs, wp_pure]
    refine ⟨view s r, EffectOn.refl ∅ h hr, ?_, by simp⟩
    intro sp' us heq
    simp only [Option.some.injEq, Prod.mk.injEq] at heq
    simp [pushStrings, heq, clip_view hr0]
  | cons pa argv ih =>
    have hlen := cstr_length_le (s.mem pa)
    have hne : cstr (s.mem pa) ≠ [] := List.ne_nil_of_length_pos (cstr_length_pos _)
    rw [pushArgs]
    by_cases hmax : maxarg ≤ ustack.length
    · rw [if_pos hmax, wp_pure]
      refine ⟨view s r, EffectOn.refl ∅ h hr, by simp, ?_⟩
      intro _ _ _
      rw [List.map_cons, pushStrings, if_pos (Or.inl hmax)]
    simp only [if_neg hmax, wp_bind, wp_get]
    by_cases hbase : pushSp sp (cstr (s.mem pa)).length < w * pgsize
    · rw [if_pos hbase, wp_pure]
      refine ⟨view s r, EffectOn.refl ∅ h hr, by simp, ?_⟩
      intro _ _ _
      rw [List.map_cons, pushStrings, if_pos (Or.inr hbase)]
    simp only [if_neg hbase, wp_bind]
    by_cases hwrap : sp < (cstr (s.mem pa)).length
    · -- the stack pointer has wrapped around
      have hfar := pushSp_of_gt hwrap (by simp only [pgsize] at hlen; omega)
      apply wp_mono (wp_copyout_beyond hne hfar)
      rintro _ t ⟨rfl, rfl⟩
      simp only [Bool.false_eq_true, if_false, wp_pure]
      refine ⟨view t r, EffectOn.refl ∅ h hr, by simp, ?_⟩
      intro _ hlo hshort
      have hle := hshort pa List.mem_cons_self
      omega
    have hpush := pushSp_of_le (Nat.le_of_not_lt hwrap) (by simp only [pgsize] at hsp; omega)
    generalize hsp' : pushSp sp (cstr (s.mem pa)).length = sp' at *
    have hpage : sp' / pgsize = w ∧ sp' % pgsize + (cstr (s.mem pa)).length ≤ pgsize := by
      have hpos := cstr_length_pos (s.mem pa)
      simp only [pgsize] at *
      omega
    apply wp_mono (wp_copyout_private h hr hne hpage.2 (by rw [hpage.1]; exact hw)
      (by rw [hpage.1]; exact hp))
    rintro _ t ⟨rfl, he⟩
    simp only [if_true]
    have hmem : ∀ q ∈ argv, t.mem q = s.mem q := by
      intro q hq
      obtain ⟨τ, hτ⟩ := hargv q (List.mem_cons_of_mem _ hq)
      exact he.keeps.heldMem q τ (Set.notMem_empty q) hτ
    have hstrs : (argv.map fun q => cstr (t.mem q)) = argv.map fun q => cstr (s.mem q) :=
      List.map_congr_left fun q hq => by rw [hmem q hq]
    have hspace : spaceOf t r = putBytes (spaceOf s r) sp' (cstr (s.mem pa)) := by
      rw [he.spaceOf_eq hr0, spaceOf_putBytes hr0]
    apply wp_mono (ih he.inv (fun q hq => hargv q (List.mem_cons_of_mem _ hq)) (he.private hw hp)
      (by omega))
    rintro res t' ⟨V, he', hsome, hnone⟩
    rw [hstrs, hspace] at hsome hnone
    refine ⟨V, he.trans he', ?_, ?_⟩
    · intro sp₂ us heq
      obtain ⟨hle, hlo, hstr⟩ := hsome sp₂ us heq
      refine ⟨by omega, fun _ => hlo (by omega), ?_⟩
      rw [List.map_cons, pushStrings, hsp', if_neg (by simp [hmax, hbase]), hstr]
    · intro hres hlo hshort
      rw [List.map_cons, pushStrings, hsp', if_neg (by simp [hmax, hbase])]
      apply hnone hres (by omega)
      intro q hq
      rw [hmem q hq]
      exact hshort q (List.mem_cons_of_mem _ hq)

omit [Image] in
theorem clip_clearUser {w : ℕ} {pg : UPage} (hr0 : r ≠ 0) (hw : view s r w = some pg) :
    clip (fun v => if v = w then some { pg with user := false } else view s r v) =
      clearUser (spaceOf s r) w := by
  rw [← clip_view hr0]
  funext v
  unfold clip clearUser
  by_cases hv : v = w
  · subst hv
    by_cases hlt : v < userPages
    · simp [hlt, hw]
    · simp [hlt]
  · simp [hv]

/-- The stack phase of `exec` on an image without shared pages. -/
theorem wp_execStack (argv : List ℕ) (h : MemInv s own) (hr : own r = .root true) (hr0 : r ≠ 0)
    (hargv : ∀ pa ∈ argv, ∃ τ, own pa = .held τ) (hun : Unshared s r) {sz : ℕ}
    (hsz : 2 * pgsize ≤ sz) (halign : sz % pgsize = 0) (hup : sz / pgsize ≤ userPages)
    (hmaps : ∀ w, sz / pgsize ≤ w + 2 → w < sz / pgsize → view s r w ≠ none) :
    let strs := argv.map fun pa => cstr (s.mem pa)
    wp (execStack r sz argv) E s fun res t => ∃ V, EffectOn {sz / pgsize - 2} r s own t own V ∧
      leafAt (entry t.mem) r (sz / pgsize - 2) =
        leafAt (entry s.mem) r (sz / pgsize - 2) &&& ~~~pteU ∧
      (∀ sp argc, res = some (sp, argc) → Stacked (spaceOf s r) sz strs sp argc (clip V)) ∧
      (res = none → (∀ str ∈ strs, str.length ≤ pgsize) →
        buildStack (spaceOf s r) sz strs = none) := by
  intro strs
  have hmul := Nat.div_mul_cancel (Nat.dvd_of_mod_eq_zero halign)
  obtain ⟨g, hdiv⟩ : ∃ g, sz / pgsize = g + 2 :=
    ⟨sz / pgsize - 2, by have := (Nat.le_div_iff_mul_le (by decide)).mpr hsz; omega⟩
  have hg : sz = (g + 2) * pgsize := by rw [← hdiv, hmul]
  have hbase : sz - pgsize = (g + 1) * pgsize := by
    rw [hg, show (g + 2) * pgsize = (g + 1) * pgsize + pgsize by ring, Nat.add_sub_cancel]
  have hva : sz - 2 * pgsize = g * pgsize := by
    rw [hg, Nat.add_mul, Nat.add_sub_cancel]
  have hgn : sz / pgsize - 2 = g := by omega
  obtain ⟨pg, hpg⟩ := Option.ne_none_iff_exists'.mp (hmaps g (by omega) (by omega))
  have hvalid := view_eq_some (Option.ne_none_iff_exists'.mp
    (hmaps (g + 1) (by omega) (by omega))).choose_spec
  have hpriv : Private s r (g + 1) := ⟨hvalid.1, hun _ (by omega) hvalid.1⟩
  rw [hgn]
  unfold execStack
  rw [hva, hbase, wp_bind]
  apply wp_mono (wp_uvmclear h hr (by omega) hpg)
  rintro _ t ⟨he, hclearleaf⟩
  have hclear : spaceOf t r = clearUser (spaceOf s r) g := by
    rw [he.spaceOf_eq hr0, clip_clearUser hr0 hpg]
  have hmem : ∀ q ∈ argv, t.mem q = s.mem q := by
    intro q hq
    obtain ⟨τ, hτ⟩ := hargv q hq
    exact he.keeps.heldMem q τ (Set.notMem_empty q) hτ
  have hstrs : (argv.map fun q => cstr (t.mem q)) = strs :=
    List.map_congr_left fun q hq => by rw [hmem q hq]
  have hpriv' : Private t r (g + 1) := by
    rw [Private, he.entries (g + 1) (by omega) (by simp)]
    exact hpriv
  rw [wp_bind]
  apply wp_mono (wp_pushArgs argv he.inv hr hr0 hargv (w := g + 1) (by omega) hpriv'
    (by rw [hg]; ring_nf; exact le_rfl))
  rintro res t' ⟨V, he', hsome, hnone⟩
  rw [hstrs, hclear] at hsome hnone
  have heff : ∀ {t' V}, EffectOn ∅ r t own t' own V → EffectOn {g} r s own t' own V := fun hx =>
    he.trans (hx.mono (Set.empty_subset _))
  have hguard : leafAt (entry t'.mem) r g = leafAt (entry s.mem) r g &&& ~~~pteU := by
    rw [he'.entries g (by omega) (Set.notMem_empty _), hclearleaf]
  have hstart : (g + 1) * pgsize ≤ sz := by
    rw [hg]
    exact Nat.mul_le_mul_right _ (by omega)
  cases res with
  | none =>
    rw [wp_pure]
    refine ⟨V, heff he', hguard, by simp, fun _ hshort => ?_⟩
    have hnil := hnone rfl hstart (by
      intro pa hpa
      have hle : (cstr (s.mem pa)).length ≤ pgsize := hshort _ (List.mem_map_of_mem hpa)
      rw [hmem pa hpa]
      exact hle.trans (Nat.le_mul_of_pos_left _ (Nat.succ_pos g)))
    rw [buildStack, hbase, hgn, hnil]
  | some res =>
    obtain ⟨sp₁, ustack⟩ := res
    obtain ⟨hle₁, hlo₁, hpush⟩ := hsome sp₁ ustack rfl
    have hlo := hlo₁ hstart
    have hlen := pushStrings_length hpush (by simp)
    dsimp only
    by_cases hlow : pushSp sp₁ ((ustack.length + 1) * 8) < (g + 1) * pgsize
    · rw [if_pos hlow, wp_pure]
      refine ⟨V, heff he', hguard, by simp, fun _ _ => ?_⟩
      rw [buildStack, hbase, hgn, hpush]
      exact if_pos hlow
    rw [if_neg hlow, wp_bind]
    have hroom : (ustack.length + 1) * 8 ≤ sp₁ := by
      simp only [pgsize, maxarg] at *
      omega
    have hsp := pushSp_of_le hroom (by have := userPages_eq; simp only [pgsize] at *; omega)
    generalize hsp₂ : pushSp sp₁ ((ustack.length + 1) * 8) = sp at *
    have hwords : (wordBytes (ustack ++ [0])).length = (ustack.length + 1) * 8 := by
      rw [wordBytes_length, List.length_append, List.length_singleton]
      ring
    have hpage : sp / pgsize = g + 1 ∧
        sp % pgsize + (wordBytes (ustack ++ [0])).length ≤ pgsize := by
      rw [hwords]
      simp only [pgsize] at *
      omega
    apply wp_mono (wp_copyout_private he'.inv hr
      (List.ne_nil_of_length_pos (by rw [hwords]; omega)) hpage.2 (by rw [hpage.1]; omega)
      (by rw [hpage.1]; exact he'.private (by omega) hpriv'))
    rintro _ t₂ ⟨rfl, he₂⟩
    simp only [if_true, wp_pure]
    refine ⟨_, heff (he'.trans he₂), ?_, ?_, by simp⟩
    · rw [he₂.entries g (by omega) (Set.notMem_empty _), hguard]
    · intro sp' argc heq
      simp only [Option.some.injEq, Prod.mk.injEq] at heq
      obtain ⟨rfl, rfl⟩ := heq
      refine ⟨clip V, sp₁, ustack, ?_, hsp₂.symm, by omega, rfl, ?_⟩
      · rw [hbase, hgn]
        exact hpush
      · rw [spaceOf_putBytes hr0, he'.spaceOf_eq hr0]

end machine
end Xv6
