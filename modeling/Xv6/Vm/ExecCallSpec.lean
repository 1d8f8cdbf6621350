import Xv6.Vm.CommitSpec

/-! The call `exec` as a whole: what it has loaded when it succeeds, and that it has let go of
everything else in any case. -/
namespace Xv6
open Bytes Program RefCount

/-- The segments of `n` program headers from `off` on have been loaded. -/
def RefHeaders (i : ℕ) (data : List UInt8) : ℕ → ℕ → Ref → Ref → Prop
  | 0, _, s, t => t = s
  | n + 1, off, s, t => (readi data off proghdrSize).length = proghdrSize ∧
      ∃ V u, (s.proc i).image = some V ∧
        RefSegment s i V (proghdr (readi data off proghdrSize)) (readi data) true u ∧
        RefHeaders i data n ((off + proghdrSize) % 2 ^ 32) u t

/-- The file has been loaded into the image. -/
structure RefImage (s : Ref) (i : ℕ) (data : List UInt8) (elf : Elfhdr) (t : Ref) : Prop where
  length : (readi data 0 elfhdrSize).length = elfhdrSize
  elf_eq : elf = elfhdr (readi data 0 elfhdrSize)
  magic : elf.magic = elfMagic
  headers : RefHeaders i data elf.phnum (elf.phoff % 2 ^ 32)
    (s.setProc i { s.proc i with image := some fun _ => none, imageSz := 0 }) t

variable {w : ExecSys}

@[simp] theorem setSys_sys {t : Sys} : (w.setSys t).sys = t := rfl

@[simp] theorem setSys_self : w.setSys w.sys = w := rfl

@[simp] theorem setSys_setSys {t u : Sys} : (w.setSys t).setSys u = w.setSys u := rfl

theorem wp_onSys {α : Type} {x : SysM α} {E : Panic → Prop} {Q : α → ExecSys → Prop} :
    wp (onSys x) E w Q ↔ wp x E w.sys fun a t => Q a (w.setSys t) := wp_zoom

section call
variable [Image] {G : Set ℕ} {s₀ s : Sys} {own₀ own : ℕ → Owner} {E : Panic → Prop} {i : ℕ}
  {data : List UInt8}

theorem Framed.wp_loadHeaders (n : ℕ) (hf : Framed G s₀ own₀ i s own)
    (hnew : (s.proc i).newtable ≠ 0) {off : ℕ} :
    wp (loadHeaders i data n off) E s fun ok t => ∃ own', Framed G s₀ own₀ i t own' ∧
      ImageSet s i t ∧ (t.proc i).newtable ≠ 0 ∧
      (ok = true → RefHeaders i data n off s.abs t.abs) := by
  induction n generalizing s own off with
  | zero =>
    rw [loadHeaders, wp_pure]
    exact ⟨own, hf, ImageSet.of_setMach, hnew, fun _ => rfl⟩
  | succ n ih =>
    unfold loadHeaders RefHeaders
    dsimp only
    by_cases hlen : (readi data off proghdrSize).length ≠ proghdrSize
    · rw [if_pos hlen, wp_pure]
      exact ⟨own, hf, ImageSet.of_setMach, hnew, by simp⟩
    rw [if_neg hlen, wp_bind]
    apply wp_mono (hf.wp_loadSegment hnew)
    rintro ok t ⟨own', hf', hset, htable, htrue, -⟩
    have hnew' : (t.proc i).newtable ≠ 0 := by rw [htable]; exact hnew
    cases ok with
    | false =>
      simp only [Bool.false_eq_true, if_false, wp_pure]
      exact ⟨own', hf', hset, hnew', by simp⟩
    | true =>
      simp only [if_true]
      apply wp_mono (ih hf' hnew')
      rintro ok u ⟨own'', hf'', hset', hnew'', hrest⟩
      refine ⟨own'', hf'', hset.trans hset', hnew'', fun hok => ?_⟩
      exact ⟨not_not.mp hlen, _, t.abs, image_abs hnew, htrue rfl, hrest hok⟩

theorem Framed.wp_loadImage (hG : Roomy G s₀ own₀) (hf : Framed G s₀ own₀ i s own)
    (hnew : (s.proc i).newtable = 0) :
    wp (loadImage i data) E s fun res t => ∃ own', Framed G s₀ own₀ i t own' ∧ ImageSet s i t ∧
      ∀ elf, res = some elf → (t.proc i).newtable ≠ 0 ∧ RefImage s.abs i data elf t.abs := by
  unfold loadImage
  dsimp only
  by_cases hlen : (readi data 0 elfhdrSize).length ≠ elfhdrSize
  · rw [if_pos hlen, wp_pure]
    exact ⟨own, hf, ImageSet.of_setMach, by simp⟩
  rw [if_neg hlen]
  by_cases hmagic : (elfhdr (readi data 0 elfhdrSize)).magic ≠ elfMagic
  · rw [if_pos hmagic, wp_pure]
    exact ⟨own, hf, ImageSet.of_setMach, by simp⟩
  rw [if_neg hmagic, wp_bind]
  apply wp_mono (hf.wp_makeTable hG hnew)
  rintro ok t ⟨own', hf', hset, ⟨rfl, hnew', habs, -⟩ | ⟨rfl, -⟩⟩
  · simp only [Bool.not_true, Bool.false_eq_true, if_false, wp_bind]
    apply wp_mono (hf'.wp_loadHeaders _ hnew')
    rintro ok u ⟨own'', hf'', hset', hnew'', hheaders⟩
    cases ok with
    | false =>
      simp only [Bool.false_eq_true, if_false, wp_pure]
      exact ⟨own'', hf'', hset.trans hset', by simp⟩
    | true =>
      simp only [if_true, wp_pure]
      refine ⟨own'', hf'', hset.trans hset', ?_⟩
      intro elf helf
      obtain rfl := Option.some.inj helf
      rw [habs] at hheaders
      exact ⟨hnew'', not_not.mp hlen, rfl, not_not.mp hmagic, hheaders rfl⟩
  · simp only [Bool.not_false, if_true, wp_pure]
    exact ⟨own', hf', hset, by simp⟩

/-- The process has a new image with the contents of the file: it was loaded up to the state
`s₂`, got its stack, and took the place of the old one. -/
def Loaded (G : Set ℕ) (s₀ : Sys) (own₀ : ℕ → Owner) (i : ℕ) (s : Sys) (data : List UInt8)
    (argc : ℕ) (u : Sys) (own' : ℕ → Owner) : Prop :=
  ∃ elf s₂ s₁ own₁ V sp t, RefImage s.abs i data elf s₂.abs ∧ ImageSet s i s₂ ∧
    (s₂.proc i).newtable ≠ 0 ∧ Framed G s₀ own₀ i s₁ own₁ ∧
    StackBuilt s₂ i s₁ own₁ V (some (sp, argc)) t ∧
    Committed s₁ i elf.entry sp t.mach own₁ u own' ∧
    u.abs = s₁.abs.setProc i { s₁.abs.proc i with
      sz := (s₁.proc i).newsz, space := clip V, image := none, imageSz := 0 }

/-- The result of `exec`: nothing is left of the new image, or it has been loaded. -/
structure ExecResult (G : Set ℕ) (s₀ : Sys) (own₀ : ℕ → Owner) (i : ℕ)
    (files : List UInt8 → Option (List UInt8)) (path : List UInt8) (w : ExecSys) (r : Option ℕ)
    (w' : ExecSys) : Prop where
  outstanding : w'.outstanding = w.outstanding
  ref : w'.ref = w.ref
  unlocked : w'.locked = false
  failed : r = none → w'.name = w.name ∧ ImageSet w.sys i w'.sys ∧
    (w'.sys.proc i).newtable = 0 ∧ (w'.sys.proc i).newsz = 0 ∧
    ∃ own', Framed G s₀ own₀ i w'.sys own'
  done : ∀ argc, r = some argc → ∃ data own', files path = some data ∧
    Loaded G s₀ own₀ i w.sys data argc w'.sys own'

/-- Two states of the call in which the process is at the same point of it. -/
theorem Framed.eq_setMach {t : Sys} {own' : ℕ → Owner} (hf : Framed G s₀ own₀ i s own)
    (hf' : Framed G s₀ own₀ i t own') (hex : (t.proc i).inExec = (s.proc i).inExec)
    (hargv : (t.proc i).argv = (s.proc i).argv)
    (hnew : (t.proc i).newtable = (s.proc i).newtable)
    (hsz : (t.proc i).newsz = (s.proc i).newsz) : t = s.setMach t.mach := by
  conv_lhs => rw [hf'.procs, hex, hargv, hnew, hsz]
  conv_rhs => rw [hf.procs]
  rfl

omit [Image] in
theorem Dropped.cleared {t u : Sys} (hd : Dropped t i u) (hset : ImageSet s i t) :
    ImageSet s i u ∧ (u.proc i).newtable = 0 ∧ (u.proc i).newsz = 0 := by
  have hu := hd.1
  refine ⟨hset.trans ⟨0, 0, hu⟩, ?_, ?_⟩
  · rw [hu, setProc_self]
  · rw [hu, setProc_self]

omit [Image] in
theorem wp_ilock {Q : Unit → ExecSys → Prop} (href : 0 < w.ref)
    (h : Q () { w with locked := true }) : wp ilock E w Q := by
  unfold ilock
  simp only [wp_bind, wp_get]
  rw [if_neg (by omega), wp_modify]
  exact h

omit [Image] in
theorem wp_iunlockput {Q : Unit → ExecSys → Prop} (hlocked : w.locked = true) (href : 0 < w.ref)
    (h : Q () { w with locked := false, ref := w.ref - 1 }) : wp iunlockput E w Q := by
  unfold iunlockput
  simp only [wp_bind, wp_get]
  rw [if_neg (by simp [hlocked]; omega), wp_set]
  exact h

theorem Framed.wp_exec (hG : Roomy G s₀ own₀) (hc : Caller s₀ i) (hf : Framed G s₀ own₀ i w.sys own)
    (hnew : (w.sys.proc i).newtable = 0) (hsz : (w.sys.proc i).newsz = 0) (hlock : w.locked = false)
    {files : List UInt8 → Option (List UInt8)} {path : List UInt8} :
    wp (exec i files path) E w (ExecResult G s₀ own₀ i files path w) := by
  unfold exec beginOp namei endOp
  simp only [wp_bind, wp_modify]
  cases hfile : files path with
  | none =>
    simp only [wp_pure, wp_bind, wp_modify]
    exact ⟨Nat.add_sub_cancel _ _, rfl, hlock,
      fun _ => ⟨rfl, ImageSet.of_setMach, hnew, hsz, own, hf⟩, by simp⟩
  | some data =>
    simp only [wp_bind, wp_modify, wp_pure]
    apply wp_ilock (Nat.succ_pos _)
    rw [wp_onSys]
    apply wp_mono (hf.wp_loadImage hG hnew)
    rintro res t ⟨own', hf', hset, hload⟩
    cases res with
    | none =>
      simp only [wp_bind, wp_onSys, wp_modify, wp_pure]
      apply wp_mono hf'.wp_dropImage_any
      rintro _ u ⟨own'', hf'', hd⟩
      obtain ⟨hset', htable, hsize⟩ := hd.cleared hset
      apply wp_iunlockput rfl (Nat.succ_pos _)
      exact ⟨Nat.add_sub_cancel _ _, Nat.add_sub_cancel _ _, rfl,
        fun _ => ⟨rfl, hset', htable, hsize, own'', hf''⟩, by simp⟩
    | some elf =>
      obtain ⟨hnew', himage⟩ := hload elf rfl
      simp only [wp_bind]
      apply wp_iunlockput rfl (Nat.succ_pos _)
      simp only [wp_modify, wp_onSys]
      apply wp_mono (hf'.wp_stackPhase hnew')
      rintro res t₂ (⟨rfl, -, hset₂, -, ⟨own₂, hf₂⟩, -⟩ | ⟨s₁, own₁, V, hf₁, hb⟩)
      · simp only [wp_bind, wp_onSys, wp_pure]
        apply wp_mono hf₂.wp_dropImage_any
        rintro _ u ⟨own'', hf'', hd⟩
        obtain ⟨hset', htable, hsize⟩ := hd.cleared (hset.trans hset₂)
        exact ⟨Nat.add_sub_cancel _ _, Nat.add_sub_cancel _ _, rfl,
          fun _ => ⟨rfl, hset', htable, hsize, own'', hf''⟩, by simp⟩
      have hnew₁ : (s₁.proc i).newtable ≠ 0 := by rw [hb.table]; exact hnew'
      cases res with
      | none =>
        simp only [wp_bind, wp_onSys, wp_pure]
        have hdrop := hf₁.wp_dropImage (E := E) hnew₁ hb.effect.toEffect hb.domain
        rw [← hb.eq] at hdrop
        apply wp_mono hdrop
        rintro _ u ⟨own'', hf'', hd⟩
        obtain ⟨hset', htable, hsize⟩ := hd.cleared (hset.trans hb.image)
        exact ⟨Nat.add_sub_cancel _ _, Nat.add_sub_cancel _ _, rfl,
          fun _ => ⟨rfl, hset', htable, hsize, own'', hf''⟩, by simp⟩
      | some res =>
        obtain ⟨sp, argc⟩ := res
        simp only [wp_bind, wp_onSys, wp_pure, setName, wp_modify]
        have hcommit := wp_commitImage (E := E) hf₁.inv (hf₁.pagetable hc) (hf₁.trapframe hc) hnew₁
          hb.effect.toEffect hb.domain elf.entry sp
        rw [← hb.eq] at hcommit
        apply wp_mono hcommit
        rintro _ u ⟨⟨own'', hcom⟩, habs⟩
        refine ⟨Nat.add_sub_cancel _ _, Nat.add_sub_cancel _ _, rfl, by simp, ?_⟩
        intro n hn
        obtain rfl := Option.some.inj hn
        exact ⟨data, own'', hfile, elf, t, s₁, own₁, V, sp, t₂, himage, hset, hnew', hf₁, hb, hcom,
          habs⟩

/-- The system call `exec`: it has failed and the process runs on as before, or the process has
its arguments, has loaded a file, and has given back the pages of the arguments. -/
structure CallResult (G : Set ℕ) (s₀ : Sys) (own₀ : ℕ → Owner) (i : ℕ)
    (files : List UInt8 → Option (List UInt8)) (w : ExecSys) (r : Option ℕ) (w' : ExecSys) :
    Prop where
  outstanding : w'.outstanding = w.outstanding
  ref : w'.ref = w.ref
  unlocked : w'.locked = false
  failed : r = none → w'.name = w.name ∧ w'.sys = w.sys.setMach w'.sys.mach ∧
    ∃ own', Framed G s₀ own₀ i w'.sys own'
  done : ∀ argc, r = some argc → ∃ path data s args u own' own'', files path = some data ∧
    readString (w.sys.abs.proc i).space
      (getLE (w.sys.mach.mem (w.sys.proc i).trapframe) tfA0 8) maxpath = some (path ++ [0]) ∧
    readArgs (w.sys.abs.proc i).space (w.sys.abs.proc i).sz
      (getLE (w.sys.mach.mem (w.sys.proc i).trapframe) tfA1 8) maxarg = some args ∧
    s.abs = w.sys.abs.setProc i { w.sys.abs.proc i with inExec := true, args := args } ∧
    Loaded G s₀ own₀ i s data argc u own' ∧
    SysInv w'.sys.mach w'.sys.inventory own'' ∧
    Keeps ∅ {pa | pa ∈ (u.proc i).argv} u.mach own' w'.sys.mach own'' ∧
    w'.sys = (u.setMach w'.sys.mach).setProc i { u.proc i with inExec := false, argv := [] } ∧
    w'.sys.abs = u.abs.setProc i { u.abs.proc i with inExec := false, args := [] }

/-- The process enters the kernel. -/
theorem wp_uservec (h : SysOk s) (hrun : Running (s.proc i)) (regs : Buf) :
    wp (uservec i regs) E s fun _ t => SysOk t ∧ t = s.setMach t.mach ∧ t.abs = s.abs ∧
      t.mach.freelist = s.mach.freelist ∧ ∀ n, n < 31 →
        getLE (t.mach.mem (s.proc i).trapframe) (40 + 8 * n) 8 = getLE regs (40 + 8 * n) 8 := by
  obtain ⟨⟨own, hinv⟩, hok⟩ := h
  have htf : (s.proc i).trapframe ≠ 0 := ((hok i).used (by simp [hrun.1])).2.2
  unfold uservec
  simp only [wp_bind, wp_getProc, wp_mach, wp_modify]
  obtain ⟨h1, a1, -⟩ := hinv.writeTrapframe htf fun k =>
    if 24 ≤ k ∧ k < 32 ∨ 40 ≤ k ∧ k < 288 then regs k else s.mach.mem (s.proc i).trapframe k
  refine ⟨⟨⟨own, h1⟩, hok⟩, rfl, a1, rfl, fun n hn => ?_⟩
  apply getLE_congr
  intro k hlo hhi
  rw [setMach_mach, setPage_mem_self, if_pos (by omega)]

theorem Framed.wp_sysExec (hG : Roomy G s₀ own₀) (hc : Caller s₀ i)
    (hf : Framed G s₀ own₀ i w.sys own) (hex : (w.sys.proc i).inExec = false)
    (hargv : (w.sys.proc i).argv = []) (hnew : (w.sys.proc i).newtable = 0)
    (hsz : (w.sys.proc i).newsz = 0) (hlock : w.locked = false)
    {files : List UInt8 → Option (List UInt8)} :
    wp (sysExec i files) E w (CallResult G s₀ own₀ i files w) := by
  have hpt := hf.pagetable hc
  unfold sysExec argraw copyinstr
  simp only [wp_bind, wp_onSys, wp_getProc, wp_mach, Nat.reduceLeDiff, if_false, wp_get, wp_pure,
    setSys_sys, setSys_setSys]
  have hroot := hf.inv.root_table (k := .main i) hpt
  apply wp_mono (wp_copyinstrLoop maxpath hf.inv.mem hroot hpt
    (hf.inv.space (.main i) hpt).2.highClosed (le_refl _))
  rintro ⟨path, ok⟩ m ⟨rfl, cs, hcs, -, hstring⟩
  have hself : w.setSys (w.sys.setMach w.sys.mach) = w := rfl
  rw [hself]
  cases ok with
  | false =>
    simp only [Bool.not_false, if_true, wp_pure]
    exact ⟨rfl, rfl, hlock, fun _ => ⟨rfl, rfl, own, hf⟩, by simp⟩
  | true =>
    simp only [Bool.not_true, Bool.false_eq_true, if_false, wp_bind, wp_onSys, wp_getProc, wp_get,
      wp_pure, setSys_self]
    apply wp_mono (hf.wp_sysExecArgs hG hc hex hargv)
    rintro ok t ⟨own₁, hf₁, ⟨rfl, ⟨l, hl⟩, args, hread, habs⟩ | ⟨rfl, ht, -⟩⟩
    · have hti : t.proc i = { w.sys.proc i with inExec := true, argv := l } := by
        conv_lhs => rw [hl]
        exact setProc_self
      have hpath : readString (w.sys.abs.proc i).space
          (getLE (w.sys.mach.mem (w.sys.proc i).trapframe) tfA0 8) maxpath =
            some (path.takeWhile (· ≠ 0) ++ [0]) := by
        rw [List.nil_append] at hcs
        obtain ⟨-, ⟨str, rfl, hstr⟩, -⟩ := readString_some hstring
        have htake : (str ++ [0]).takeWhile (· ≠ 0) = str := by
          rw [List.takeWhile_append_of_pos (by simpa using hstr)]
          simp
        subst hcs
        rw [htake]
        exact hstring
      simp only [if_true, wp_bind, wp_pure, wp_onSys]
      apply wp_mono (Framed.wp_exec (w := w.setSys t) hG hc hf₁ (by rw [setSys_sys, hti]; exact hnew)
        (by rw [setSys_sys, hti]; exact hsz) hlock)
      rintro r w₁ ⟨hout, href, hunlock, hfail, hdone⟩
      cases r with
      | none =>
        obtain ⟨hname, hset, htable, hsize, own₂, hf₂⟩ := hfail rfl
        apply wp_mono hf₂.wp_sysExecEnd
        rintro _ u ⟨own₃, hf₃, hu, -⟩
        have hui : u.proc i = { w₁.sys.proc i with inExec := false, argv := [] } := by
          conv_lhs => rw [hu]
          exact setProc_self
        have heq : u = w.sys.setMach u.mach := hf.eq_setMach hf₃ (by rw [hui, hex])
          (by rw [hui, hargv]) (by rw [hui, hnew]; exact htable) (by rw [hui, hsz]; exact hsize)
        exact ⟨hout, href, hunlock, fun _ => ⟨hname, heq, own₃, hf₃⟩, by simp⟩
      | some argc =>
        obtain ⟨data, own₂, hfile, hload⟩ := hdone argc rfl
        have hinv := hload
        obtain ⟨elf, s₂, s₁, own₁', V, sp, t', -, -, -, -, -, hcom, -⟩ := hinv
        apply wp_mono hcom.inv.wp_sysExecEnd
        rintro _ u ⟨own₃, hinv₃, hk₃, hu, ha₃⟩
        refine ⟨hout, href, hunlock, by simp, ?_⟩
        intro n hn
        obtain rfl := Option.some.inj hn
        exact ⟨_, data, t, args, w₁.sys, own₂, own₃, hfile, hpath, hread, habs, hload, hinv₃, hk₃,
          hu, ha₃⟩
    · simp only [Bool.false_eq_true, if_false, wp_pure]
      exact ⟨rfl, rfl, hlock, fun _ => ⟨rfl, ht, own₁, hf₁⟩, by simp⟩

end call
end Xv6
