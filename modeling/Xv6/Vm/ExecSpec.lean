import Xv6.Vm.ExecCall
import Xv6.Vm.ImageSpec

/-! `sys_exec` and `exec` against the reference machine. -/
namespace Xv6
open Bytes Program RefCount

section strings

/-- A string that has been copied to a buffer is found there up to its final 0. -/
theorem takeWhile_read_write {b : Buf} {str : List UInt8} {n : ℕ}
    (hlen : (str ++ [0]).length ≤ n) (hstr : ∀ c ∈ str, c ≠ 0) :
    (read (write b 0 (str ++ [0])) 0 n).takeWhile (· ≠ 0) = str := by
  obtain ⟨k, rfl⟩ : ∃ k, n = (str ++ [0]).length + k := ⟨n - (str ++ [0]).length, by omega⟩
  rw [read_add, read_write_self, List.append_assoc,
    List.takeWhile_append_of_pos (by simpa using hstr)]
  simp

theorem cstr_write {b : Buf} {str : List UInt8} (hlen : (str ++ [0]).length ≤ pgsize)
    (hstr : ∀ c ∈ str, c ≠ 0) : cstr (write b 0 (str ++ [0])) = str ++ [0] := by
  rw [cstr, takeWhile_read_write hlen hstr]

end strings

section frame
variable [Image] {G : Set ℕ} {s₀ s : Sys} {m : Machine} {own₀ own own' : ℕ → Owner} {i : ℕ}

/-- Since the state `s₀`, the process `i` has used the pages in `G` and no others: beyond them
only what its entry says about the call has changed. -/
structure Framed (G : Set ℕ) (s₀ : Sys) (own₀ : ℕ → Owner) (i : ℕ) (t : Sys) (own : ℕ → Owner) :
    Prop where
  inv : SysInv t.mach t.inventory own
  keeps : KeepsBut G G G s₀.mach own₀ t.mach own
  table : (t.proc i).newtable ≠ 0 → (t.proc i).newtable ∈ G
  args : ∀ pa ∈ (t.proc i).argv, pa ∈ G
  procs : t = (s₀.setMach t.mach).setProc i { s₀.proc i with
    inExec := (t.proc i).inExec, argv := (t.proc i).argv, newtable := (t.proc i).newtable,
    newsz := (t.proc i).newsz }

/-- A page that is free at any time lies in `G`. -/
def Roomy (G : Set ℕ) (s₀ : Sys) (own₀ : ℕ → Owner) : Prop :=
  ∀ m own p, MemInv m own → KeepsBut G G G s₀.mach own₀ m own → own p = .free → p ∈ G

theorem Roomy.univ : Roomy Set.univ s₀ own₀ := fun _ _ _ _ _ _ => trivial

theorem Framed.univ (h : SysInv s.mach s.inventory own) : Framed Set.univ s own i s own where
  inv := h
  keeps := KeepsBut.refl _ _ _ _ _
  table := fun _ => trivial
  args := fun _ _ => trivial
  procs := by simp [Sys.setProc, Sys.setMach]

theorem Framed.free (hG : Roomy G s₀ own₀) (hf : Framed G s₀ own₀ i s own) {p : ℕ}
    (hp : own p = .free) : p ∈ G :=
  hG _ _ p hf.inv.mem hf.keeps hp

section
variable (hf : Framed G s₀ own₀ i s own)
include hf

theorem Framed.proc : s.proc i = { s₀.proc i with
    inExec := (s.proc i).inExec, argv := (s.proc i).argv, newtable := (s.proc i).newtable,
    newsz := (s.proc i).newsz } := by
  conv_lhs => rw [hf.procs, setProc_self]

theorem Framed.other {j : ℕ} (hj : j ≠ i) : s.proc j = s₀.proc j := by
  rw [hf.procs, setProc_ne hj, setMach_proc]

/-- The call goes on. -/
theorem Framed.change {R X : Set ℕ} {q : Proc} (hk : Keeps R X s.mach own m own') (hR : R ⊆ G)
    (hX : X ⊆ G) (hinv : SysInv m ((s.setMach m).setProc i q).inventory own')
    (hq : q = { s.proc i with
      inExec := q.inExec, argv := q.argv, newtable := q.newtable, newsz := q.newsz })
    (htable : q.newtable ≠ 0 → q.newtable ∈ G) (hargs : ∀ pa ∈ q.argv, pa ∈ G) :
    Framed G s₀ own₀ i ((s.setMach m).setProc i q) own' where
  inv := hinv
  keeps := hf.keeps.trans (hk.weaken hR hR hX)
  table := by
    rw [setProc_self]
    exact htable
  args := by
    rw [setProc_self]
    exact hargs
  procs := by
    rw [setProc_self, setProc_mach, setMach_mach]
    conv_lhs => rw [hq, hf.proc, hf.procs]
    simp [Sys.setProc, Sys.setMach]

/-- The process that makes the call, and the others. -/
structure Caller (s₀ : Sys) (i : ℕ) : Prop where
  ok : ∀ j, ProcOk j (s₀.proc j)
  running : (s₀.proc i).state = .runnable

section
variable (hc : Caller s₀ i)
include hc

omit hf in
omit [Image] in
theorem Caller.used : i < nproc ∧ (s₀.proc i).pagetable ≠ 0 ∧ (s₀.proc i).trapframe ≠ 0 :=
  (hc.ok i).used (by simp [hc.running])

theorem Framed.procOk (hidle : (s.proc i).inExec = false →
      (s.proc i).argv = [] ∧ (s.proc i).newtable = 0 ∧ (s.proc i).newsz = 0) (j : ℕ) :
    ProcOk j (s.proc j) := by
  by_cases hj : j = i
  · subst hj
    rw [hf.proc]
    exact ⟨by simp [hc.running], fun _ => hc.used, by simp [hc.running], fun _ => hc.running, hidle⟩
  · rw [hf.other hj]
    exact hc.ok j

theorem Framed.sysOk (hidle : (s.proc i).inExec = false →
      (s.proc i).argv = [] ∧ (s.proc i).newtable = 0 ∧ (s.proc i).newsz = 0) : SysOk s :=
  ⟨⟨own, hf.inv⟩, hf.procOk hc hidle⟩

theorem Framed.pagetable : (s.proc i).pagetable ≠ 0 := by
  rw [hf.proc]
  exact hc.used.2.1

theorem Framed.trapframe : (s.proc i).trapframe ≠ 0 := by
  rw [hf.proc]
  exact hc.used.2.2

end

end

end frame

section args
variable [Image] {G : Set ℕ} {s₀ s : Sys} {m : Machine} {own₀ own own' : ℕ → Owner}
  {E : Panic → Prop} {i p : ℕ}

omit [Image] in
theorem inventory_argv {l : List ℕ} {b : Bool} :
    ((s.setMach m).setProc i { s.proc i with inExec := b, argv := l }).inventory =
      { s.inventory with argv := Function.update s.inventory.argv i l } := by
  rw [inventory_setProc]
  simp

section
variable (h : SysInv s.mach s.inventory own)
include h

/-- The pages of the arguments of a process change, its memory does not. -/
theorem SysInv.abs_argv {X : Set ℕ} (hk : Keeps ∅ X s.mach own m own')
    (hX : ∀ j, j ≠ i → ∀ pa ∈ (s.proc j).argv, pa ∉ X) (l : List ℕ) (b : Bool) :
    ((s.setMach m).setProc i { s.proc i with inExec := b, argv := l }).abs =
      s.abs.setProc i { s.abs.proc i with
        inExec := b, args := l.map fun pa => cstr (m.mem pa) } := by
  rw [h.abs_setProc hk (by simp) hX]
  have e1 : spaceOf m (s.proc i).pagetable = spaceOf s.mach (s.proc i).pagetable :=
    h.space_eq (k := .main i) hk (Set.notMem_empty _)
  have e2 : spaceOf m (s.proc i).newtable = spaceOf s.mach (s.proc i).newtable :=
    h.space_eq (k := .image i) hk (Set.notMem_empty _)
  simp only [absProc, Sys.abs, e1, e2]

/-- A page for an argument string. -/
theorem SysInv.addArg (hfree : own p = .free) (hl : s.mach.freelist = p :: s.mach.freelist.tail)
    (b : Buf) :
    let t := (s.setMach ((s.mach.allocated p).setPage p b)).setProc i
      { s.proc i with argv := (s.proc i).argv ++ [p] }
    SysInv t.mach t.inventory (Function.update own p (.held (.arg i))) ∧
      Keeps ∅ {p} s.mach own t.mach (Function.update own p (.held (.arg i))) ∧
      t.abs = s.abs.setProc i
        { s.abs.proc i with args := (s.abs.proc i).args ++ [cstr b] } := by
  obtain ⟨h1, k1⟩ := h.mem.allocated hl (.arg i)
  obtain ⟨h2, k2⟩ := h1.setHeld (Function.update_self _ _ _) b
  have hp0 : p ≠ 0 := h.nonzero (by simp [hfree])
  have hfresh : ∀ j, p ∉ (s.proc j).argv := by
    intro j hj
    have := (h.held p (.arg j)).mpr ⟨hp0, hj⟩
    simp [hfree] at this
  have hk := k1.trans k2
  have hne : ∀ j, ∀ pa ∈ (s.proc j).argv, pa ∉ ({p} : Set ℕ) := by
    rintro j pa hpa rfl
    exact hfresh j hpa
  refine ⟨?_, hk, ?_⟩
  · have hv := inventory_argv (s := s) (m := (s.mach.allocated p).setPage p b) (i := i)
      (l := (s.proc i).argv ++ [p]) (b := (s.proc i).inExec)
    show SysInv _ (Sys.inventory _) _
    rw [hv]
    refine h.hold (by simp [hfree]) h2 hk ?_ ?_ ?_ (fun _ _ => ?_) ?_ ?_ ?_
    · rfl
    · rfl
    · rfl
    · rfl
    · intro q τ hq
      cases τ with
      | arg j =>
        by_cases hj : j = i
        · subst hj
          simp [Inventory.Holds, Sys.inventory]
        · simp [Inventory.Holds, hj]
      | _ => simp [Inventory.Holds]
    · intro j
      by_cases hj : j = i
      · subst hj
        have := h.argv j
        simp only [Function.update_self]
        refine ⟨List.nodup_append.mpr ⟨this.1, by simp, ?_⟩, ?_⟩
        · rintro a ha c hc rfl
          rw [List.mem_singleton] at hc
          exact hfresh j (hc ▸ ha)
        · simpa [hp0.symm, Sys.inventory] using this.2
      · simpa [hj] using h.argv j
    · exact h.pipes
  · apply (h.abs_argv hk (fun j _ => hne j) ((s.proc i).argv ++ [p]) (s.proc i).inExec).trans
    rw [List.map_append, h.args_eq hk (hne i)]
    simp [Sys.abs, absProc]

omit h in
/-- The pages of the arguments are given back. -/
theorem SysInv.wp_freeArgs (l : List ℕ) {v : Inventory} (h : SysInv m v own) (hv : v.argv i = l) :
    wp (freeArgs l) E m fun _ m' => ∃ own', Keeps ∅ {pa | pa ∈ l} m own m' own' ∧
      SysInv m' { v with argv := Function.update v.argv i [] } own' := by
  induction l generalizing m v own with
  | nil =>
    rw [freeArgs, wp_pure]
    refine ⟨own, Keeps.refl _ _ _ _, ?_⟩
    rw [← hv, Function.update_eq_self]
    exact h
  | cons pa l ih =>
    have hin : v.Holds m pa (.arg i) := by
      show pa ∈ v.argv i
      simp [hv]
    have hnd := h.argv i
    rw [hv, List.nodup_cons, List.mem_cons, not_or] at hnd
    have hp0 : pa ≠ 0 := Ne.symm hnd.2.1
    have hheld := (h.held pa (.arg i)).mpr ⟨hp0, hin⟩
    have hone := h.mem.alloc.one pa (by simp [hheld, Owner.single])
    obtain ⟨h1, k1⟩ := h.mem.releasedHeld hheld
    have hrel : SysInv (m.released pa) { v with argv := Function.update v.argv i l }
        (Function.update own pa .free) := by
      refine h.release hheld h1 k1 ?_ ?_ ?_ (fun _ _ => ?_) ?_ ?_ h.pipes
      · rfl
      · rfl
      · rfl
      · rfl
      · intro q τ hq
        have hne : τ ≠ .arg i → v.Holds (m.released pa) q τ → q ≠ pa := by
          rintro hτ hh rfl
          exact hτ (h.holds_unique hp0 ((h.holds_keeps k1 (Set.notMem_empty _) _ _).mp hh) hin)
        cases τ with
        | arg j =>
          by_cases hj : j = i
          · subst hj
            simp only [Inventory.Holds, Function.update_self, hv, List.mem_cons]
            constructor
            · rintro hq'
              exact ⟨Or.inr hq', by rintro rfl; exact hnd.1.1 hq'⟩
            · rintro ⟨rfl | hq', hqne⟩
              · exact absurd rfl hqne
              · exact hq'
          · simp only [Inventory.Holds, Function.update_of_ne hj]
            exact (and_iff_left_of_imp (hne (by simpa using hj))).symm
        | _ => exact (and_iff_left_of_imp (hne (by simp))).symm
      · intro j
        by_cases hj : j = i
        · subst hj
          simpa using ⟨hnd.1.2, hnd.2.2⟩
        · simpa [hj] using h.argv j
    rw [freeArgs, wp_bind]
    apply wp_kfree (h.mem.tree.page _ (by simp [hheld])) (by omega) _ (by omega)
    intro _
    apply wp_mono (ih hrel (by simp))
    rintro _ m' ⟨own', k2, h2⟩
    refine ⟨own', (k1.mono (le_refl _) ?_).trans (k2.mono (le_refl _) ?_), ?_⟩
    · rintro q rfl
      simp
    · intro q hq
      exact List.mem_cons_of_mem _ hq
    · simpa using h2

/-- The end of `sys_exec`: the process runs on, without the pages of the arguments. -/
theorem SysInv.wp_sysExecEnd :
    wp (sysExecEnd i) E s fun _ t => ∃ own', SysInv t.mach t.inventory own' ∧
      Keeps ∅ {pa | pa ∈ (s.proc i).argv} s.mach own t.mach own' ∧
      t = (s.setMach t.mach).setProc i { s.proc i with inExec := false, argv := [] } ∧
      t.abs = s.abs.setProc i { s.abs.proc i with inExec := false, args := [] } := by
  unfold sysExecEnd
  simp only [wp_bind, wp_getProc, wp_mach, wp_setProc, setMach_proc]
  apply wp_mono (h.wp_freeArgs (i := i) _ rfl)
  rintro _ m ⟨own', k, h'⟩
  have hargs : ∀ j, j ≠ i → ∀ pa ∈ (s.proc j).argv, pa ∉ {pa | pa ∈ (s.proc i).argv} := by
    intro j hj pa hpa hin
    have h0 : pa ≠ 0 := fun h0 => (h.argv j).2 (h0 ▸ hpa)
    have hτ := h.holds_unique h0 (show s.inventory.Holds s.mach pa (.arg j) from hpa)
      (show s.inventory.Holds s.mach pa (.arg i) from hin)
    exact hj (Tag.arg.inj hτ)
  refine ⟨own', ?_, k, rfl, h.abs_argv k hargs [] false⟩
  show SysInv _ (Sys.inventory _) _
  rw [inventory_argv]
  exact h'

omit h in
/-- The call has come to its end. -/
theorem Framed.wp_sysExecEnd (hf : Framed G s₀ own₀ i s own) :
    wp (sysExecEnd i) E s fun _ t => ∃ own', Framed G s₀ own₀ i t own' ∧
      t = (s.setMach t.mach).setProc i { s.proc i with inExec := false, argv := [] } ∧
      t.abs = s.abs.setProc i { s.abs.proc i with inExec := false, args := [] } := by
  apply wp_mono hf.inv.wp_sysExecEnd
  rintro _ t ⟨own', hinv, hk, ht, ha⟩
  refine ⟨own', ?_, ht, ha⟩
  have hstep := hf.change (q := { s.proc i with inExec := false, argv := [] }) hk
    (Set.empty_subset _) hf.args (by rw [← ht]; exact hinv) rfl hf.table (by simp)
  rwa [← ht] at hstep

theorem wp_fetchaddr (hpt : (s.proc i).pagetable ≠ 0)
    {addr : ℕ} : wp (fetchaddr i addr) E s fun r t => t = s ∧
      r = readWord (s.abs.proc i).space (s.abs.proc i).sz addr := by
  unfold fetchaddr readWord
  simp only [wp_bind, wp_getProc]
  show wp _ E s fun r t => t = s ∧ r = if (s.proc i).sz ≤ addr ∨ (s.proc i).sz < (addr + 8) % 2 ^ 64
    then none else _
  by_cases hbad : (s.proc i).sz ≤ addr ∨ (s.proc i).sz < (addr + 8) % 2 ^ 64
  · rw [if_pos hbad, if_pos hbad, wp_pure]
    exact ⟨rfl, rfl⟩
  · rw [if_neg hbad, if_neg hbad, wp_bind, wp_mach]
    have hs := (h.space (.main i) hpt).2
    apply wp_mono (wp_copyin_space h.mem (h.root_table (k := .main i) hpt) hpt hs.highClosed)
    rintro res m ⟨rfl, hres⟩
    have hres' : res = readSpace (s.abs.proc i).space addr 8 := hres
    rw [← hres']
    cases res with
    | none =>
      rw [wp_pure]
      exact ⟨rfl, rfl⟩
    | some bytes =>
      rw [wp_pure]
      exact ⟨rfl, rfl⟩

/-- A string of the process is copied to a page that has just been allocated. -/
theorem wp_fetchstr (hpt : (s.proc i).pagetable ≠ 0)
    (hl : s.mach.freelist = p :: s.mach.freelist.tail) {addr : ℕ} {q : Proc}
    (hq : q.pagetable = (s.proc i).pagetable) :
    wp (fetchstr i addr p pgsize) E ((s.setMach (s.mach.allocated p)).setProc i q) fun len t =>
      ∃ b, t = (s.setMach ((s.mach.allocated p).setPage p b)).setProc i q ∧
        (len ≠ none → readString (s.abs.proc i).space addr pgsize = some (cstr b)) := by
  obtain ⟨h1, k1⟩ := h.mem.allocated hl (.arg i)
  have hroot := h.root_table (k := .main i) hpt
  have hs := (h.space (.main i) hpt).2
  have hs1 := hs.keeps k1 (Set.notMem_empty _) hroot
  have hspace := h.space_eq (k := .main i) k1 (Set.notMem_empty _)
  unfold fetchstr copyinstr
  simp only [wp_bind, wp_getProc, wp_mach, wp_modify, setProc_self, hq, setProc_mach,
    setMach_mach, setProc_setMach, setMach_setMach]
  apply wp_mono (wp_copyinstrLoop pgsize h1 ((k1.root _ _ (Set.notMem_empty _)).mpr hroot) hpt
    hs1.highClosed (le_refl _))
  rintro ⟨bytes, ok⟩ t ⟨rfl, cs, hcs, -, hread⟩
  cases ok with
  | false =>
    simp only [Bool.false_eq_true, if_false, wp_pure]
    exact ⟨_, rfl, by simp⟩
  | true =>
  simp only [if_true, wp_bind, wp_get, wp_pure]
  refine ⟨_, rfl, fun _ => ?_⟩
  rw [hspace, if_pos rfl] at hread
  obtain ⟨hlen, ⟨str, rfl, hstr⟩, -⟩ := readString_some hread
  simp only [List.nil_append] at hcs
  rw [hcs, cstr_write hlen hstr]
  exact hread

end

/-- Some argument strings have been fetched. -/
structure Fetched (G : Set ℕ) (s₀ : Sys) (own₀ : ℕ → Owner) (i : ℕ) (s t : Sys)
    (strs : List (List UInt8)) : Prop where
  eq : ∃ l, t = (s.setMach t.mach).setProc i { s.proc i with argv := l }
  framed : ∃ own, Framed G s₀ own₀ i t own
  abs : t.abs = s.abs.setProc i { s.abs.proc i with args := (s.abs.proc i).args ++ strs }

theorem Fetched.refl (hf : Framed G s₀ own₀ i s own) : Fetched G s₀ own₀ i s s [] where
  eq := ⟨(s.proc i).argv, by simp [Sys.setProc, Sys.setMach]⟩
  framed := ⟨own, hf⟩
  abs := by simp [Ref.setProc]

theorem Fetched.trans {t u : Sys} {as bs : List (List UInt8)} (h : Fetched G s₀ own₀ i s t as)
    (h' : Fetched G s₀ own₀ i t u bs) : Fetched G s₀ own₀ i s u (as ++ bs) where
  eq := by
    obtain ⟨l, hl⟩ := h.eq
    obtain ⟨l', hl'⟩ := h'.eq
    refine ⟨l', ?_⟩
    rw [hl', hl]
    simp [Sys.setProc, Sys.setMach]
  framed := h'.framed
  abs := by
    rw [h'.abs, h.abs]
    simp [Ref.setProc]

/-- A page for an argument comes from `G`. -/
theorem Framed.addArg (hG : Roomy G s₀ own₀) (hf : Framed G s₀ own₀ i s own)
    (hfree : own p = .free) (hl : s.mach.freelist = p :: s.mach.freelist.tail) (b : Buf) :
    Fetched G s₀ own₀ i s ((s.setMach ((s.mach.allocated p).setPage p b)).setProc i
      { s.proc i with argv := (s.proc i).argv ++ [p] }) [cstr b] := by
  obtain ⟨h1, k1, a1⟩ := hf.inv.addArg (i := i) hfree hl b
  have hp : p ∈ G := hf.free hG hfree
  refine ⟨⟨_, rfl⟩, ⟨_, hf.change k1 (Set.empty_subset _) (by simpa using hp) h1 rfl hf.table ?_⟩,
    a1⟩
  intro pa hpa
  rcases List.mem_append.mp hpa with hpa | hpa
  · exact hf.args pa hpa
  · obtain rfl := List.mem_singleton.mp hpa
    exact hp

theorem Framed.wp_fetchArgs (n : ℕ) (hG : Roomy G s₀ own₀) (hc : Caller s₀ i)
    (hf : Framed G s₀ own₀ i s own) {uargv : ℕ} :
    wp (fetchArgs i uargv n) E s fun ok t => ∃ strs, Fetched G s₀ own₀ i s t strs ∧
      (ok = true → readArgs (s.abs.proc i).space (s.abs.proc i).sz uargv n = some strs) := by
  induction n generalizing s own with
  | zero =>
    rw [fetchArgs, wp_pure]
    exact ⟨[], Fetched.refl hf, by simp⟩
  | succ n ih =>
    have hpt := hf.pagetable hc
    rw [fetchArgs, wp_bind]
    apply wp_mono (wp_fetchaddr hf.inv hpt)
    rintro r t ⟨rfl, hr⟩
    rw [readArgs, ← hr]
    cases r with
    | none =>
      rw [wp_pure]
      exact ⟨[], Fetched.refl hf, by simp⟩
    | some uarg =>
      dsimp only
      by_cases h0 : uarg = 0
      · rw [if_pos h0, if_pos h0, wp_pure]
        exact ⟨[], Fetched.refl hf, by simp⟩
      rw [if_neg h0, if_neg h0]
      simp only [wp_bind, wp_mach]
      apply wp_kalloc hf.inv.mem.alloc
      · intro _
        rw [wp_pure]
        exact ⟨[], Fetched.refl hf, by simp⟩
      · intro p hfree hl
        simp only [wp_bind, wp_setProc, setMach_proc]
        refine wp_mono (wp_fetchstr hf.inv hpt hl ?_) ?_
        · rfl
        rintro len t₁ ⟨b, rfl, hok⟩
        have hstep := hf.addArg hG hfree hl b
        generalize (t.setMach ((t.mach.allocated p).setPage p b)).setProc i
          { t.proc i with argv := (t.proc i).argv ++ [p] } = t₁ at hstep ⊢
        cases len with
        | none =>
          simp only [wp_pure]
          exact ⟨[cstr b], hstep, by simp⟩
        | some len =>
          dsimp only
          obtain ⟨own₁, hf₁⟩ := hstep.framed
          have hproc : t₁.abs.proc i = { t.abs.proc i with
              args := (t.abs.proc i).args ++ [cstr b] } := by
            rw [hstep.abs]
            simp [Ref.setProc]
          apply wp_mono (ih hf₁)
          rintro ok t₂ ⟨strs, hstep', hread⟩
          refine ⟨[cstr b] ++ strs, hstep.trans hstep', fun hok' => ?_⟩
          have hrest := hread hok'
          rw [hproc] at hrest
          rw [hok (by simp)]
          simp [hrest]

/-- `sys_exec` has its arguments, or has given back what it took for them. -/
theorem Framed.wp_sysExecArgs (hG : Roomy G s₀ own₀) (hc : Caller s₀ i)
    (hf : Framed G s₀ own₀ i s own) (hrun : (s.proc i).inExec = false)
    (hargv : (s.proc i).argv = []) {uargv : ℕ} :
    wp (sysExecArgs i uargv) E s fun ok t => ∃ own', Framed G s₀ own₀ i t own' ∧
      ((ok = true ∧ (∃ l, t = (s.setMach t.mach).setProc i { s.proc i with
          inExec := true, argv := l }) ∧
        ∃ args, readArgs (s.abs.proc i).space (s.abs.proc i).sz uargv maxarg = some args ∧
          t.abs = s.abs.setProc i { s.abs.proc i with inExec := true, args := args }) ∨
      (ok = false ∧ t = s.setMach t.mach ∧ t.abs = s.abs)) := by
  have hempty : (s.abs.proc i).args = [] := by simp [Sys.abs, absProc, hargv]
  unfold sysExecArgs
  rw [wp_bind]
  apply wp_mono (hf.wp_fetchArgs maxarg hG hc)
  rintro ok t ⟨strs, hstep, hread⟩
  obtain ⟨l, hl⟩ := hstep.eq
  obtain ⟨own', hf'⟩ := hstep.framed
  cases ok with
  | true =>
    simp only [if_true, wp_bind, wp_setProc, wp_pure]
    have hmark := hf'.change (q := { t.proc i with inExec := true }) (m := t.mach)
      (Keeps.refl ∅ ∅ _ _) (Set.empty_subset _) (Set.empty_subset _)
      (by
        rw [inventory_congr (s := t)]
        · exact hf'.inv
        · intro j
          by_cases hj : j = i
          · subst hj
            rw [setProc_self]
            rfl
          · rw [setProc_ne hj, setMach_proc]
        · rfl
        · rfl) rfl hf'.table hf'.args
    refine ⟨own', hmark, Or.inl ⟨trivial, ⟨l, ?_⟩, strs, hread rfl, ?_⟩⟩
    · rw [hl]
      simp [Sys.setProc, Sys.setMach]
    · have hproc : absProc t.mach { t.proc i with inExec := true } =
          { t.abs.proc i with inExec := true } := rfl
      rw [abs_setProc_same, hproc, hstep.abs]
      simp [Ref.setProc, hempty]
  | false =>
    simp only [Bool.false_eq_true, if_false, wp_bind, wp_pure]
    apply wp_mono hf'.wp_sysExecEnd
    rintro _ t' ⟨own'', hf'', ht', ha⟩
    refine ⟨own'', hf'', Or.inr ⟨trivial, ?_, ?_⟩⟩
    · rw [ht', hl]
      simp [Sys.setProc, Sys.setMach, ← hrun, ← hargv]
    · have hsame : ({ s.abs.proc i with inExec := false, args := [] } : RefProc) = s.abs.proc i := by
        rw [← hempty, ← show (s.abs.proc i).inExec = false from hrun]
      have hback : t.abs.setProc i { t.abs.proc i with inExec := false, args := [] } =
          s.abs.setProc i { s.abs.proc i with inExec := false, args := [] } := by
        rw [hstep.abs]
        simp [Ref.setProc]
      rw [ha, hback, hsame]
      simp [Ref.setProc]

theorem wp_sysExecArgs (h : SysOk s) (hrun : Running (s.proc i)) {uargv : ℕ} :
    wp (sysExecArgs i uargv) E s fun ok t => SysOk t ∧
      ((ok = true ∧ ∃ args, readArgs (s.abs.proc i).space (s.abs.proc i).sz uargv maxarg = some args ∧
        t.abs = s.abs.setProc i { s.abs.proc i with inExec := true, args := args }) ∨
      (ok = false ∧ t.abs = s.abs)) := by
  obtain ⟨⟨own, hinv⟩, hok⟩ := h
  have hc : Caller s i := ⟨hok, hrun.1⟩
  obtain ⟨hargv, hnew⟩ := (hok i).idle hrun.2
  apply wp_mono ((Framed.univ hinv).wp_sysExecArgs Roomy.univ hc hrun.2 hargv)
  rintro ok t ⟨own', hf, ⟨rfl, ⟨l, ht⟩, hargs⟩ | ⟨rfl, ht, ha⟩⟩
  · refine ⟨hf.sysOk hc fun hno => ?_, Or.inl ⟨rfl, hargs⟩⟩
    rw [ht, setProc_self] at hno
    cases hno
  · refine ⟨hf.sysOk hc fun _ => ?_, Or.inr ⟨rfl, ha⟩⟩
    rw [ht]
    exact ⟨hargv, hnew⟩

end args
end Xv6
