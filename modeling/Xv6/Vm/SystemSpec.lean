import Xv6.Vm.CommitSpec

/-! Every run of the system is a run of the reference machine. -/
namespace Xv6
open Bytes Program RefCount

/-- The process that the operation may end, by a call of `exit` or by a fault. -/
def Op.ends : Op → Option ℕ
  | .load i _ | .store i _ _ | .exit i _ => some i
  | _ => none

section system
variable [Image] {s : Sys} {E : Panic → Prop}

omit [Image] in
theorem execing_iff {i : ℕ} {made : Bool} : Execing (s.proc i) made ↔
    (s.abs.proc i).inExec = true ∧ (made = true ↔ (s.abs.proc i).image ≠ none) := by
  have himage : (s.abs.proc i).image ≠ none ↔ (s.proc i).newtable ≠ 0 := by
    by_cases h0 : (s.proc i).newtable = 0
    · simp [Sys.abs, absProc, h0]
    · simp [Sys.abs, absProc, h0]
  rw [himage]
  rfl

omit [Image] in
/-- The reference machine sees whether an operation may happen; pipes it does not see. -/
theorem enabled_iff {op : Op} (hop : ∀ k w, op ≠ .pipeclose k w) :
    op.enabled s = true ↔ RefEnabled s.abs op := by
  cases op with
  | pipealloc files => simp [Op.enabled, RefEnabled]
  | pipeclose k writable => exact absurd rfl (hop k writable)
  | execTable i =>
    rw [Op.enabled, decide_eq_true_iff, execing_iff]
    simp [RefEnabled]
  | execSegment i ph readi =>
    rw [Op.enabled, decide_eq_true_iff, execing_iff]
    simp [RefEnabled]
  | execCommit i entry =>
    rw [Op.enabled, decide_eq_true_iff, execing_iff]
    simp [RefEnabled]
  | growproc i n =>
    rw [Op.enabled, decide_eq_true_iff]
    exact and_assoc.symm
  | _ =>
    rw [Op.enabled, decide_eq_true_iff]
    rfl

/-- An operation that may happen is one of the reference machine. -/
theorem wp_perform (h : SysOk s) {op : Op} (hen : op.enabled s = true)
    (hE : ∀ i, op.ends = some i → s.initproc = some i → E .initExiting) :
    wp (perform op) E s fun out t => SysOk t ∧ RefPerform s.abs op out t.abs := by
  cases op with
  | load i va =>
    obtain ⟨hi, hrun⟩ := of_decide_eq_true hen
    rw [perform, wp_bind]
    apply wp_mono (wp_userLoad h hrun (hE i rfl))
    rintro r t ⟨ht, hres⟩
    simp only [RefPerform]
    cases hb : getByte (s.abs.proc i).space va with
    | none =>
      rw [hb] at hres
      obtain ⟨rfl, ha⟩ := hres
      exact (wp_pure _).mpr ⟨ht, rfl, ha⟩
    | some b =>
      rw [hb] at hres
      obtain ⟨rfl, ha⟩ := hres
      exact (wp_pure _).mpr ⟨ht, rfl, ha⟩
  | store i va b =>
    obtain ⟨hi, hrun⟩ := of_decide_eq_true hen
    rw [perform, wp_bind]
    apply wp_mono (wp_userStore h hrun (hE i rfl))
    rintro ok t ⟨ht, ⟨rfl, hget, ha⟩ | ⟨rfl, -, ha⟩⟩
    · exact (wp_pure _).mpr ⟨ht, Or.inl ⟨rfl, hget, ha⟩⟩
    · exact (wp_pure _).mpr ⟨ht, Or.inr ⟨rfl, ha⟩⟩
  | copyin i va len =>
    obtain ⟨hi, hrun⟩ := of_decide_eq_true hen
    simp only [perform, wp_bind, wp_getProc]
    apply wp_mono (wp_sysCopyin h hrun)
    rintro r t ⟨rfl, rfl⟩
    exact (wp_pure _).mpr ⟨h, rfl, rfl⟩
  | copyout i va src =>
    obtain ⟨hi, hrun⟩ := of_decide_eq_true hen
    simp only [perform, wp_bind, wp_getProc]
    apply wp_mono (wp_sysCopyout h hrun)
    rintro ok t ⟨ht, -, hcopy⟩
    exact (wp_pure _).mpr ⟨ht, ok, rfl, hcopy⟩
  | growproc i n =>
    obtain ⟨hi, hrun, hlo, hhi⟩ := of_decide_eq_true hen
    rw [perform, wp_bind]
    apply wp_mono (wp_growproc h hrun hlo hhi)
    rintro ok t ⟨ht, hgrow⟩
    exact (wp_pure _).mpr ⟨ht, ok, rfl, hgrow⟩
  | fork i =>
    obtain ⟨hi, hrun⟩ := of_decide_eq_true hen
    rw [perform, wp_bind]
    apply wp_mono (wp_fork h hrun)
    rintro r t ⟨ht, hfork⟩
    exact (wp_pure _).mpr ⟨ht, r, rfl, hfork⟩
  | exit i status =>
    obtain ⟨hi, hrun⟩ := of_decide_eq_true hen
    rw [perform, wp_bind]
    apply wp_mono (wp_exit h hrun (hE i rfl))
    rintro _ t ⟨ht, ha⟩
    exact (wp_pure _).mpr ⟨ht, rfl, ha⟩
  | wait i addr =>
    obtain ⟨hi, hrun⟩ := of_decide_eq_true hen
    rw [perform, wp_bind]
    apply wp_mono (wp_wait h hrun)
    rintro r t ⟨ht, hwait⟩
    exact (wp_pure _).mpr ⟨ht, r, rfl, hwait⟩
  | sysExec i uargv =>
    obtain ⟨hi, hrun⟩ := of_decide_eq_true hen
    rw [perform, wp_bind]
    apply wp_mono (wp_sysExecArgs h hrun)
    rintro ok t ⟨ht, ⟨rfl, args, hread, ha⟩ | ⟨rfl, ha⟩⟩
    · exact (wp_pure _).mpr ⟨ht, Or.inl ⟨rfl, args, hread, ha⟩⟩
    · exact (wp_pure _).mpr ⟨ht, Or.inr ⟨rfl, ha⟩⟩
  | execTable i =>
    obtain ⟨hi, hex, hmade⟩ := of_decide_eq_true hen
    rw [perform, wp_bind]
    apply wp_mono (wp_execTable h hex (by simpa using hmade))
    rintro ok t ⟨ht, ⟨rfl, ha⟩ | ⟨rfl, ha⟩⟩
    · exact (wp_pure _).mpr ⟨ht, Or.inl ⟨rfl, ha⟩⟩
    · exact (wp_pure _).mpr ⟨ht, Or.inr ⟨rfl, ha⟩⟩
  | execSegment i ph readi =>
    obtain ⟨hi, hex, hmade⟩ := of_decide_eq_true hen
    have hnew : (s.proc i).newtable ≠ 0 := by simpa using hmade
    rw [perform, wp_bind]
    apply wp_mono (wp_execSegment h hex hnew)
    rintro ok t ⟨ht, hseg⟩
    exact (wp_pure _).mpr ⟨ht, _, ok, if_neg hnew, rfl, hseg⟩
  | execCommit i entry =>
    obtain ⟨hi, hex, hmade⟩ := of_decide_eq_true hen
    have hnew : (s.proc i).newtable ≠ 0 := by simpa using hmade
    rw [perform, wp_bind]
    apply wp_mono (wp_execCommit h hex hnew)
    rintro r t ⟨ht, hcommit⟩
    exact (wp_pure _).mpr ⟨ht, _, r, if_neg hnew, rfl, hcommit⟩
  | execFail i =>
    obtain ⟨hi, hex⟩ := of_decide_eq_true hen
    rw [perform, wp_bind]
    apply wp_mono (wp_execFail h hex)
    rintro _ t ⟨ht, ha⟩
    exact (wp_pure _).mpr ⟨ht, rfl, ha⟩
  | pipealloc files =>
    rw [perform, wp_bind]
    apply wp_mono (wp_pipealloc h)
    rintro ok t ⟨ht, -⟩
    exact (wp_pure _).mpr ht
  | pipeclose k writable =>
    simp only [perform, wp_bind, wp_get]
    cases hk : s.pipes[k]? with
    | none => exact (wp_pure _).mpr ⟨h, rfl⟩
    | some p =>
      simp only [wp_bind, wp_pure]
      apply wp_mono (wp_pipeclose h (List.mem_of_getElem? hk))
      rintro _ t ⟨ht, ha⟩
      exact ⟨ht, ha⟩

theorem wp_step (h : SysOk s) (op : Op)
    (hE : ∀ i, op.ends = some i → s.initproc = some i → E .initExiting) :
    wp op.step E s fun out t => SysOk t ∧ RefStep s.abs op out t.abs := by
  unfold Op.step
  simp only [wp_bind, wp_get]
  by_cases hen : op.enabled s = true
  · rw [if_pos hen]
    apply wp_mono (wp_perform h hen hE)
    rintro out t ⟨ht, hperf⟩
    refine ⟨ht, Or.inl ⟨?_, hperf⟩⟩
    by_cases hop : ∃ k w, op = .pipeclose k w
    · obtain ⟨k, w, rfl⟩ := hop
      trivial
    · exact (enabled_iff fun k w heq => hop ⟨k, w, heq⟩).mp hen
  · rw [if_neg hen, wp_pure]
    refine ⟨h, ?_⟩
    by_cases hop : ∃ k w, op = .pipeclose k w
    · obtain ⟨k, w, rfl⟩ := hop
      exact Or.inl ⟨trivial, rfl⟩
    · exact Or.inr ⟨fun hr => hen ((enabled_iff fun k w heq => hop ⟨k, w, heq⟩).mpr hr), rfl, rfl⟩

/-- Every run keeps the invariant and is a run of the reference machine. -/
theorem wp_runOps (ops : List Op) (h : SysOk s) (hE : E .initExiting) :
    wp (runOps ops) E s fun outs t => SysOk t ∧ RefRun s.abs ops outs t.abs := by
  induction ops generalizing s with
  | nil =>
    rw [runOps, wp_pure]
    exact ⟨h, RefRun.nil _⟩
  | cons op ops ih =>
    simp only [runOps, wp_bind, wp_pure]
    apply wp_mono (wp_step h op fun _ _ _ => hE)
    rintro out t ⟨ht, hstep⟩
    apply wp_mono (ih ht)
    rintro outs u ⟨hu, hrun⟩
    exact ⟨hu, RefRun.cons hstep hrun⟩

end system
end Xv6
