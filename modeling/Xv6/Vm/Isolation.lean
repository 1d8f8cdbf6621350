import Xv6.Vm.BootSpec

/-! Copy-on-write is invisible: every process reads what it would read if `fork` copied memory. -/
namespace Xv6
open Bytes Program RefCount

/-- The one way for the system to stop: the first process exits. -/
def InitExits (e : Panic) : Prop := e = .initExiting

/-- The system has stopped because process `i` exits, which is the first one. -/
def FirstExits (s : Sys) (i : ℕ) (e : Panic) : Prop := InitExits e ∧ s.initproc = some i

theorem initExits : InitExits .initExiting := rfl

/-- The byte that a user load of process `i` gets at an address. -/
def Sys.reads (s : Sys) (i va : ℕ) : Option UInt8 :=
  (translate s.mach.mem (s.proc i).pagetable va readable).map fun pa => s.mach.mem pa (va % pgsize)

/-- The process whose memory the operation is meant to write. -/
def Op.writer : Op → Option ℕ
  | .store i _ _ => some i
  | .copyout i _ _ => some i
  | _ => none

section reference
variable {s t : Ref} {op : Op} {out : Out} {i j : ℕ}

theorem exit_other (h : j ≠ i) (status : ℕ) :
    ((s.exit i status).proc j).space = (s.proc j).space ∧
      ((s.exit i status).proc j).state = (s.proc j).state := by
  unfold Ref.exit Ref.setProc RefProc.reparent
  simp only [Function.update_of_ne h]
  split <;> exact ⟨rfl, rfl⟩

theorem exit_self (status : ℕ) : ((s.exit i status).proc i).space = (s.proc i).space ∧
    ((s.exit i status).proc i).state = .zombie := by
  unfold Ref.exit Ref.setProc RefProc.reparent
  simp only [Function.update_self, and_true]
  split <;> rfl

theorem setSpace_other (h : j ≠ i) (V : Space) : (s.setSpace i V).proc j = s.proc j :=
  Function.update_of_ne h _ _

/-- A write of one process does not reach the others. -/
theorem RefStep.write_other (h : RefStep s op out t) (hw : op.writer = some i) (hj : j ≠ i) :
    (t.proc j).space = (s.proc j).space ∧ (t.proc j).state = (s.proc j).state := by
  rcases h with ⟨-, h⟩ | ⟨-, -, rfl⟩
  swap
  · exact ⟨rfl, rfl⟩
  cases op with
  | store k va b =>
    obtain rfl := Option.some.inj hw
    rcases h with ⟨-, -, rfl⟩ | ⟨-, rfl⟩
    · rw [setSpace_other hj]
      exact ⟨rfl, rfl⟩
    · exact exit_other hj _
  | copyout k va src =>
    obtain rfl := Option.some.inj hw
    obtain ⟨ok, -, m, -, -, -, rfl⟩ := h
    rw [setSpace_other hj]
    exact ⟨rfl, rfl⟩
  | _ => cases hw

/-- A write outside the pages that the user has access to changes nothing there. -/
theorem putBytes_not_user {V : Space} {va v : ℕ} {bs : List UInt8} {pg : UPage}
    (hV : V v = some pg) (hpg : pg.user = false)
    (hr : ∀ k, k < bs.length → ∃ pg', V ((va + k) / pgsize) = some pg' ∧ pg'.user = true) :
    putBytes V va bs v = some pg := by
  rw [putBytes, hV, Option.map_some, Option.some_inj]
  have hbytes : ∀ o, (if o < pgsize ∧ va ≤ v * pgsize + o then
      bs.getD (v * pgsize + o - va) (pg.bytes o) else pg.bytes o) = pg.bytes o := by
    intro o
    split
    · rename_i ho
      by_cases hk : v * pgsize + o - va < bs.length
      · -- such a byte would lie in a user page
        obtain ⟨pg', hpg', hu⟩ := hr _ hk
        have hpage : (va + (v * pgsize + o - va)) / pgsize = v := by
          simp only [pgsize] at ho ⊢
          omega
        rw [hpage, hV, Option.some_inj] at hpg'
        rw [hpg', hu] at hpg
        cases hpg
      · rw [List.getD_eq_default _ _ (by omega)]
    · rfl
  simp only [hbytes]

/-- A page that the user has no access to is not written by stores or `copyout`. -/
theorem RefStep.write_closed (h : RefStep s op out t) (hw : op.writer = some i) {v : ℕ}
    {pg : UPage} (hv : (s.proc j).space v = some pg) (hpg : pg.user = false) :
    (t.proc j).space v = some pg := by
  by_cases hj : j = i
  swap
  · rw [(h.write_other hw hj).1, hv]
  subst hj
  rcases h with ⟨-, h⟩ | ⟨-, -, rfl⟩
  swap
  · exact hv
  cases op with
  | store k va b =>
    obtain rfl := Option.some.inj hw
    rcases h with ⟨-, hbyte, rfl⟩ | ⟨-, rfl⟩
    · simp only [Ref.setSpace, Ref.setProc, Function.update_self]
      apply putBytes_not_user hv hpg
      intro n hn
      obtain rfl : n = 0 := by simpa using hn
      exact getByte_ne_none.mp hbyte
    · rw [(exit_self _).1, hv]
  | copyout k va src =>
    obtain rfl := Option.some.inj hw
    obtain ⟨ok, -, m, hm, -, hrange, rfl⟩ := h
    simp only [Ref.setSpace, Ref.setProc, Function.update_self]
    apply putBytes_not_user hv hpg
    intro n hn
    rw [List.length_take] at hn
    exact (hrange n (by omega)).2
  | _ => cases hw

end reference

section run
variable [Image] {s : Sys} {E : Panic → Prop}

/-- A load gets the byte that the reference machine has at the address. -/
theorem SysOk.reads_eq (h : SysOk s) {i : ℕ} (hi : (s.proc i).state ≠ .unused) (va : ℕ) :
    s.reads i va = getByte (s.abs.proc i).space va := by
  obtain ⟨⟨own, hinv⟩, hok⟩ := h
  obtain ⟨-, hr0, -⟩ := (hok i).used hi
  exact hinv.mem.translate_read (hinv.root_table (k := .main i) hr0) hr0
    (hinv.space (.main i) hr0).2.highClosed va

/-- What follows from the invariant holds after every run, and no other panic is reachable. -/
theorem wp_system {mem : ℕ → Buf} {ops : List Op} {Q : List Out → Sys → Prop}
    (h : ∀ outs t, SysOk t → RefRun refBoot ops outs t.abs → Q outs t) :
    wp (do boot; runOps ops) InitExits (Sys.power mem) Q := by
  rw [wp_bind]
  apply wp_mono (wp_boot mem)
  rintro _ s ⟨hs, habs, -⟩
  apply wp_mono (wp_runOps ops hs initExits)
  rintro outs t ⟨ht, hrun⟩
  rw [habs] at hrun
  exact h outs t ht hrun

/-- What an operation that writes does to the other processes. It stops the system only by ending
the first process. -/
theorem wp_write (h : SysOk s) (op : Op) :
    wp op.step (fun e => ∃ i, op.ends = some i ∧ FirstExits s i e) s fun _ t =>
      ∀ i, op.writer = some i → ∀ j, j ≠ i → (s.proc j).state ≠ .unused →
        (t.proc j).state = (s.proc j).state ∧ ∀ va, t.reads j va = s.reads j va := by
  apply wp_mono (wp_step h op fun i hi hinit => ⟨i, hi, initExits, hinit⟩)
  rintro out t ⟨ht, hstep⟩ i hw j hj hlive
  obtain ⟨hspace, hstate⟩ := hstep.write_other hw hj
  have hstate' : (t.proc j).state = (s.proc j).state := hstate
  refine ⟨hstate', fun va => ?_⟩
  rw [ht.reads_eq (by rwa [hstate']) va, h.reads_eq hlive va, hspace]

/-- Copy-on-write `fork` against a machine in which `fork` copies memory, over every run of
the system. A process reads what it would read there; writes are not seen by other processes; a
store is killed only without access or without memory, and kills only its own process. The system
stops only in an operation that ends the first process. -/
theorem cow_fork_reads_as_eager_copy (mem : ℕ → Buf) (ops : List Op) :
    wp (do boot; runOps ops) InitExits (Sys.power mem) fun outs t =>
      (∃ u, RefRun refBoot ops outs u ∧ ∀ i, (t.proc i).state ≠ .unused →
        (u.proc i).sz = (t.proc i).sz ∧ ∀ va, t.reads i va = getByte (u.proc i).space va) ∧
      (∀ op : Op, wp op.step (fun e => ∃ i, op.ends = some i ∧ FirstExits t i e) t fun _ t' =>
        ∀ i, op.writer = some i → ∀ j, j ≠ i → (t.proc j).state ≠ .unused →
          (t'.proc j).state = (t.proc j).state ∧ ∀ va, t'.reads j va = t.reads j va) ∧
      (∀ i va b, Running (t.proc i) → wp (userStore i va b) (FirstExits t i) t fun ok t' =>
        ok = false → (t.reads i va = none ∨ t.mach.freelist = []) ∧
          (t'.proc i).state = .zombie) := by
  apply wp_system
  intro outs t ht hrun
  refine ⟨⟨t.abs, hrun, fun i hi => ⟨rfl, ht.reads_eq hi⟩⟩, wp_write ht, ?_⟩
  intro i va b hi
  apply wp_mono (wp_userStore ht hi fun hinit => ⟨initExits, hinit⟩)
  rintro ok t' ⟨-, ⟨rfl, -⟩ | ⟨-, hwhy, habs'⟩⟩ hfail
  · cases hfail
  · rw [ht.reads_eq (by simp [hi.1]) va]
    refine ⟨hwhy, ?_⟩
    have hstate : (t'.abs.proc i).state = .zombie := by
      rw [habs']
      exact (exit_self _).2
    exact hstate

end run

section exhausted
variable [Image] {s : Sys} {E : Panic → Prop}

/-- The reference machine after booting and the first `fork`. -/
def refForked : Ref := { refBoot with nextpid := 3 }.setProc 1
  { state := .runnable, parent := some 0, pid := 2, sz := pgsize, space := initSpace }

/-- The first process and its child share the page of the first process. -/
structure Forked (s : Sys) : Prop where
  ok : SysOk s
  abs : s.abs = refForked
  share : SharePage s 0 1 0

theorem Forked.proc (h : Forked s) : Running (s.proc 0) ∧ (s.proc 0).sz = pgsize ∧
    Running (s.proc 1) ∧ (s.proc 1).sz = pgsize ∧ s.initproc = some 0 := by
  have hproc : ∀ i, s.abs.proc i = refForked.proc i := fun i => by rw [h.abs]
  have h0 := hproc 0
  have h1 := hproc 1
  refine ⟨⟨congrArg RefProc.state h0, congrArg RefProc.inExec h0⟩, congrArg RefProc.sz h0,
    ⟨congrArg RefProc.state h1, congrArg RefProc.inExec h1⟩, congrArg RefProc.sz h1,
    congrArg Ref.initproc h.abs⟩

/-- The first `fork` after booting succeeds. -/
theorem wp_firstFork (h : SysOk s) (habs : s.abs = refBoot) (hroom : 22 ≤ s.mach.freelist.length) :
    wp (fork 0) E s fun _ t => Forked t := by
  obtain ⟨⟨own, hinv⟩, hok⟩ := h
  have hproc : s.abs.proc 0 = refBoot.proc 0 := by rw [habs]
  have hsz : (s.proc 0).sz = pgsize := congrArg RefProc.sz hproc
  have hfind : (List.range nproc).find? (fun j => (s.proc j).state = .unused) = some 1 := by
    change (List.range nproc).find? (fun j => (s.abs.proc j).state = .unused) = some 1
    rw [habs]
    rfl
  apply wp_mono (wp_fork_effect hinv hok
    ⟨congrArg RefProc.state hproc, congrArg RefProc.inExec hproc⟩)
  intro r t hf
  rw [ForkEffect, hfind] at hf
  rcases hf with ⟨-, hshort, -⟩ | ⟨-, ht, habs', hshare⟩
  · rw [hsz, show npages pgsize = 1 from rfl] at hshort
    omega
  · refine ⟨ht, ?_, hshare 0 (by rw [hsz]; decide)⟩
    have hpid : s.nextpid = 2 := congrArg Ref.nextpid habs
    rw [habs', habs, hpid]
    rfl

/-- A page with two references is not private. -/
theorem Forked.count_ne_one (h : Forked s) :
    s.mach.count (idx (pte2pa (leafAt (entry s.mach.mem) (s.proc 0).pagetable 0))) ≠ 1 := by
  obtain ⟨hrun, hsz, hrun', hsz', -⟩ := h.proc
  obtain ⟨⟨own, hinv⟩, hok⟩ := h.ok
  obtain ⟨h0, hr, -, hs⟩ := hinv.running (hok 0) hrun.1
  obtain ⟨h0', hr', -, hs'⟩ := hinv.running (hok 1) hrun'.1
  have hlt : 0 < userPages := by
    rw [userPages_eq]
    decide
  have hval : ∀ r n tf, n = pgsize → AddrSpace s.mach r (npages n) tf →
      valid (leafAt (entry s.mach.mem) r 0) = true := by
    rintro r _ tf rfl hs
    by_contra hno
    exact (hs.maps 0 hlt).2 (by decide) (view_eq_none_iff.mpr (by simpa using hno))
  have hk := refs_eq_some.mpr ⟨hr, hlt, hval _ _ _ hsz hs, rfl⟩
  have hk' := refs_eq_some.mpr ⟨hr', hlt, hval _ _ _ hsz' hs', h.share⟩
  rw [hinv.mem.count_eq (hinv.mem.target hk)]
  intro hone
  obtain ⟨heq, -⟩ := Prod.mk.inj (unique_of_refCount_eq_one hone hk hk')
  exact hinv.table_ne (k := .main 0) (l := .main 1) (by simp) h0' heq

/-- Without a free page the first process cannot store to its page, and is killed. -/
theorem Forked.wp_userStore (h : Forked s) (hnil : s.mach.freelist = []) (b : UInt8) :
    wp (userStore 0 0 b) InitExits s fun _ _ => False := by
  obtain ⟨hrun, -, -, -, hinit⟩ := h.proc
  have hone := h.count_ne_one
  obtain ⟨⟨own, hinv⟩, hok⟩ := h.ok
  obtain ⟨-, hr, -, hs⟩ := hinv.running (hok 0) hrun.1
  unfold userStore
  simp only [wp_bind, wp_getProc, wp_mach]
  apply wp_storeByte hinv.mem hr hs.highClosed
  · intro t hlt hp _ _
    exact absurd (hinv.mem.count_private hr hlt hp).2 hone
  · intro _
    simp only [Bool.false_eq_true, if_false, wp_bind, wp_mach]
    apply wp_cowalloc_exact hinv.mem hr hs.highClosed
    · intro _
      simp [exit, Sys.setMach, hinit, InitExits]
    · rintro ⟨-, -, -, -, hone' | hne⟩
      · exact absurd hone' hone
      · exact absurd hnil hne

theorem Forked.wp_pipealloc (h : Forked s) : wp (pipealloc true) E s fun _ t =>
    Forked t ∧ t.mach.freelist = s.mach.freelist.tail := by
  obtain ⟨hrun, -, hrun', -, -⟩ := h.proc
  apply wp_mono (Xv6.wp_pipealloc h.ok)
  rintro _ t ⟨⟨ht, habs⟩, hproc, hsame, hfree⟩
  refine ⟨⟨ht, habs.trans h.abs, h.share.congr hsame ?_ ?_ ?_ ?_⟩, hfree rfl⟩
  · exact ((h.ok.2 0).used (by simp [hrun.1])).2.1
  · exact ((h.ok.2 1).used (by simp [hrun'.1])).2.1
  · rw [hproc]
  · rw [hproc]

/-- Pipes use up the memory, then the first process stores. -/
theorem Forked.wp_runOps (n : ℕ) (h : Forked s) (hn : s.mach.freelist.length = n) (b : UInt8) :
    wp (runOps (List.replicate n (.pipealloc true) ++ [.store 0 0 b])) InitExits s
      fun _ _ => False := by
  induction n generalizing s with
  | zero =>
    have hen : Op.enabled s (.store 0 0 b) = true :=
      decide_eq_true ⟨by decide, h.proc.1⟩
    simp only [List.replicate_zero, List.nil_append, runOps, Op.step, wp_bind, wp_get, hen, if_true,
      perform]
    apply wp_mono (h.wp_userStore (List.eq_nil_of_length_eq_zero hn) b)
    exact fun _ _ => False.elim
  | succ n ih =>
    simp only [List.replicate_succ, List.cons_append, runOps, Op.step, wp_bind, wp_get, Op.enabled,
      if_true, perform, wp_pure]
    apply wp_mono h.wp_pipealloc
    rintro _ t ⟨ht, hfree⟩
    exact wp_mono (ih ht (by rw [hfree, List.length_tail, hn]; rfl)) fun _ _ => False.elim

/-- The first process forks, pipes use up the memory, and the first process stores to its page: there
is no page for the copy, and the kernel stops in `exit`. -/
theorem wp_firstStore (mem : ℕ → Buf) (b : UInt8) : ∃ n,
    wp (do boot; runOps (.fork 0 :: List.replicate n (.pipealloc true) ++ [.store 0 0 b])) InitExits
      (Sys.power mem) fun _ _ => False := by
  obtain ⟨_, s, hboot, hs, habs, hroom⟩ := exists_of_wp (fun _ => id)
    (wp_boot (E := fun _ => False) mem)
  obtain ⟨r, t, hfork, ht⟩ := exists_of_wp (fun _ => id)
    (wp_firstFork (E := fun _ => False) hs habs hroom)
  refine ⟨t.mach.freelist.length, ?_⟩
  have hproc : s.abs.proc 0 = refBoot.proc 0 := by rw [habs]
  have hen : Op.enabled s (.fork 0) = true := decide_eq_true
    ⟨by decide, congrArg RefProc.state hproc, congrArg RefProc.inExec hproc⟩
  rw [wp_bind, wp_ok hboot]
  simp only [List.cons_append, runOps, Op.step, wp_bind, wp_get, hen, if_true, perform, wp_ok hfork,
    wp_pure]
  exact wp_mono (ht.wp_runOps _ rfl b) fun _ _ => False.elim

end exhausted

theorem first_store_stops_kernel : letI := smallImage
    ∃ n, wp (do boot; runOps (.fork 0 :: List.replicate n (.pipealloc true) ++ [.store 0 0 7]))
      InitExits (Sys.power fun _ _ => 0) fun _ _ => False := by
  let image := smallImage
  exact wp_firstStore _ 7

end Xv6
