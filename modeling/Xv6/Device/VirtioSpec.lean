import Xv6.Device.Virtio
import Mathlib.Data.List.Perm.Basic

/-!
The driver's descriptors, rings and buffers keep to the protocol in every run. The invariant has
two halves: `Flights` says which descriptors are out and for whom, `Queues` where each of the
chains that are out stands between the avail ring, the device and the used ring.
-/
namespace Xv6.Virtio
open Monitor Ring

theorem fits : Fits 16 num := ⟨by decide, by decide⟩

/-- Published, not yet taken by the device. -/
def Disk.pending (d : Disk) : List ℕ := contents num d.avail.ring d.seen d.avail.idx

/-- Posted by the device, not yet handled. -/
def Disk.posted (d : Disk) : List ℕ := contents num d.used.ring d.usedIdx d.used.idx

/-- Everything published and not yet handled. -/
def Disk.queued (d : Disk) : List ℕ := d.pending ++ d.taken ++ d.posted

/-- `h` starts a chain that is out. -/
def Disk.Out (d : Disk) (h : ℕ) : Prop := (d.info h).b ≠ none

/-- The descriptors are the free ones and, disjoint from these and each other, chains of three. -/
structure Partitioned (d : Disk) : Prop where
  chain : ∀ h, d.Out h → (d.chain h).Nodup ∧ ∀ i ∈ d.chain h, i < num ∧ d.free i = false
  disjoint : ∀ h h', d.Out h → d.Out h' → h ≠ h' → (d.chain h).Disjoint (d.chain h')
  cover : ∀ i < num, d.free i = false → ∃ h, d.Out h ∧ i ∈ d.chain h

/-- What the flags and the last address of a chain say. -/
structure Linked (d : Disk) (h : ℕ) : Prop where
  first : (d.desc h).flags &&& descNext ≠ 0
  second : (d.desc (d.desc h).next).flags &&& descNext ≠ 0
  third : (d.desc (d.desc (d.desc h).next).next).flags &&& descNext = 0
  status : (d.desc (d.desc (d.desc h).next).next).addr = .status h

structure Flights (d : Disk) : Prop where
  parts : Partitioned d
  linked : ∀ h, d.Out h → Linked d h
  one : ∀ h h' b, (d.info h).b = some b → (d.info h').b = some b → h = h'
  held : ∀ h b, (d.info h).b = some b → d.holder b ≠ none
  alone : ∀ b b' c, d.holder b = some c → d.holder b' = some c → b = b'

structure Queues (d : Disk) (h : History) : Prop where
  avail : Holds num d.avail.ring d.seen d.avail.idx d.pending
  used : Holds num d.used.ring d.usedIdx d.used.idx d.posted
  nodup : d.queued.Nodup
  request : ∀ i ∈ d.queued, ∃ b c, (d.info i).b = some b ∧ d.busy b = true ∧
    d.holder b = some c ∧ h.request i = some ⟨i, b, c⟩
  status : ∀ i ∈ d.posted, (d.info i).status = 0
  sent : h.published.map Entry.head = h.fetched ++ d.pending
  done : h.completed.map (fun e => (e.head, some e.buf)) =
    h.handled ++ d.posted.map fun i => (i, (d.info i).b)

/-- What a transfer of the buffer `b` knows at each of its phases. -/
def PhaseOk (d : Disk) (h : History) (c : ℕ) (st : Stage) (b : ℕ) : Phase → Prop
  | .alloc => (∀ i, (d.info i).b ≠ some b) ∧ h.of c = []
  | .publish i => st = .inside ∧ (d.info i).b = some b ∧ d.busy b = true ∧ i ∉ d.queued ∧
      d.avail.ring (cell num d.avail.idx) = i ∧ h.of c = []
  | .wait i => (d.info i).b = some b ∧
      ((i ∈ d.pending ++ d.taken ∧ h.of c = []) ∨
        ((i ∈ d.posted ∨ d.busy b = false) ∧ h.of c = [⟨i, b, c⟩]))

def CallOk (x : Disk × History) (c : ℕ) (st : Stage) : Loc → Prop
  | .intr => True
  | .rw q ph =>
    match st with
    | .returned _ => (∀ b, x.1.holder b ≠ some c) ∧ ∃ i, x.2.of c = [⟨i, q.b, c⟩]
    | st => x.1.holder q.b = some c ∧ PhaseOk x.1 x.2 c st q.b ph

/-- Either no buffer is told that it is done, or the buffer of the oldest request completed and
not yet handled is, and no other. -/
def Clears (x x' : Disk × History) : Prop :=
  ((∀ b, x.1.busy b = true → x'.1.busy b = true) ∧ x'.2.handled = x.2.handled) ∨
    ∃ e, x.2.completed[x.2.handled.length]? = some e ∧
      x'.1.busy = Function.update x.1.busy e.buf false ∧
      x'.2.handled = x.2.handled ++ [(e.head, some e.buf)]

def NewOk (x : Disk × History) (c : ℕ) : Prop :=
  (∀ b, x.1.holder b ≠ some c) ∧ x.2.of c = []

variable {i : ℕ}

section flights
variable {d : Disk} {h : History} {c : ℕ} {st : Stage} {l : Loc}

theorem Disk.out_of {i b : ℕ} (hb : (d.info i).b = some b) : d.Out i := by
  simp [Disk.Out, hb]

theorem Flights.lt (hf : Flights d) (hi : d.Out i) : i < num :=
  ((hf.parts.chain i hi).2 i (by simp [Disk.chain])).1

theorem Queues.out (hq : Queues d h) (hi : i ∈ d.queued) : d.Out i := by
  obtain ⟨b, c, hb, -⟩ := hq.request i hi
  exact Disk.out_of hb

/-- A descriptor that is not queued leaves room for its entry in each ring. -/
theorem Queues.room (hf : Flights d) (hq : Queues d h) (hlt : i < num)
    (hnew : i ∉ d.queued) : d.queued.length < num := by
  have hnodup : (i :: d.queued).Nodup := List.nodup_cons.2 ⟨hnew, hq.nodup⟩
  have hsub : i :: d.queued ⊆ List.range num := by
    intro j hj
    rw [List.mem_range]
    rcases List.mem_cons.1 hj with rfl | hj
    · exact hlt
    · exact hf.lt (hq.out hj)
  have hle := (hnodup.subperm hsub).length_le
  rwa [List.length_range] at hle

theorem Queues.length_le (hf : Flights d) (hq : Queues d h) : d.queued.length ≤ num := by
  have hsub : d.queued ⊆ List.range num := fun j hj => List.mem_range.2 (hf.lt (hq.out hj))
  have hle := (hq.nodup.subperm hsub).length_le
  rwa [List.length_range] at hle

theorem Disk.length_pending_le (d : Disk) : d.pending.length ≤ d.queued.length := by
  simp only [Disk.queued, List.length_append]
  omega

/-- A call keeps what it knows while others act. Only the device acts while it is inside. -/
theorem CallOk.frame {d' : Disk} {h' : History} (hok : CallOk (d, h) c st l)
    (hinside : st = .inside → d'.busy = d.busy ∧ d'.avail = d.avail ∧
      ∀ i ∉ d.queued, i ∉ d'.queued)
    (hholder : ∀ b, d'.holder b = some c ↔ d.holder b = some c) (hof : h'.of c = h.of c)
    (hinfo : ∀ b i, d.holder b = some c → ((d'.info i).b = some b ↔ (d.info i).b = some b))
    (hahead : ∀ b i, d.holder b = some c → (d.info i).b = some b →
      i ∈ d.pending ++ d.taken → i ∈ d'.pending ++ d'.taken)
    (hdone : ∀ b i, d.holder b = some c → (d.info i).b = some b →
      i ∈ d.posted ∨ d.busy b = false → i ∈ d'.posted ∨ d'.busy b = false) :
    CallOk (d', h') c st l := by
  have hphase : ∀ b ph, d.holder b = some c → PhaseOk d h c st b ph → PhaseOk d' h' c st b ph := by
    intro b ph hheld hph
    cases ph with
    | alloc => exact ⟨fun i hi => hph.1 i ((hinfo b i hheld).1 hi), hof.trans hph.2⟩
    | publish i =>
      obtain ⟨hst, hb, hbusy, hnew, hcell, hnone⟩ := hph
      obtain ⟨hbusy', havail, hqueued⟩ := hinside hst
      refine ⟨hst, (hinfo b i hheld).2 hb, ?_, hqueued i hnew, ?_, hof.trans hnone⟩
      · rw [hbusy', hbusy]
      · rw [havail, hcell]
    | wait i =>
      obtain ⟨hb, hwhere⟩ := hph
      refine ⟨(hinfo b i hheld).2 hb, ?_⟩
      rcases hwhere with ⟨hi, hnone⟩ | ⟨hi, hone⟩
      · exact .inl ⟨hahead b i hheld hb hi, hof.trans hnone⟩
      · exact .inr ⟨hdone b i hheld hb hi, hof.trans hone⟩
  cases l with
  | intr => trivial
  | rw q ph =>
    cases st with
    | returned r =>
      obtain ⟨hnot, i, hi⟩ := hok
      exact ⟨fun b hb => hnot b ((hholder b).1 hb), i, hof.trans hi⟩
    | waits => exact ⟨(hholder _).2 hok.1, hphase _ _ hok.1 hok.2⟩
    | inside => exact ⟨(hholder _).2 hok.1, hphase _ _ hok.1 hok.2⟩

end flights

variable {info : ℕ → Info}

section alloc
variable {d d' : Disk} {h : History} {c : ℕ}

theorem chain_congr (hdesc : ∀ j ∈ d.chain i, d'.desc j = d.desc j) : d'.chain i = d.chain i := by
  have h₀ := hdesc i (by simp [Disk.chain])
  have h₁ := hdesc (d.desc i).next (by simp [Disk.chain])
  simp only [Disk.chain, h₀, h₁]

theorem Linked.congr (hl : Linked d i) (hdesc : ∀ j ∈ d.chain i, d'.desc j = d.desc j) :
    Linked d' i := by
  have h₀ := hdesc i (by simp [Disk.chain])
  have h₁ := hdesc (d.desc i).next (by simp [Disk.chain])
  have h₂ := hdesc (d.desc (d.desc i).next).next (by simp [Disk.chain])
  constructor
  · rw [h₀]
    exact hl.first
  · rw [h₀, h₁]
    exact hl.second
  · rw [h₀, h₁, h₂]
    exact hl.third
  · rw [h₀, h₁, h₂]
    exact hl.status

/-- Neither the rings nor the status bytes matter to the descriptors. -/
theorem Flights.congr (hf : Flights d) (hdesc : d'.desc = d.desc) (hfree : d'.free = d.free)
    (hholder : d'.holder = d.holder) (hb : ∀ i, (d'.info i).b = (d.info i).b) : Flights d' := by
  have hout : ∀ i, d'.Out i ↔ d.Out i := fun i => by rw [Disk.Out, hb, ← Disk.Out]
  have hchain : ∀ i, d'.chain i = d.chain i := fun i => chain_congr fun j _ => congrFun hdesc j
  refine ⟨⟨fun i hi => ?_, fun i j hi hj => ?_, fun j hlt hj => ?_⟩, fun i hi => ?_,
    fun i j b hi hj => ?_, fun i b hi => ?_, ?_⟩
  · rw [hchain, hfree]
    exact hf.parts.chain i ((hout i).1 hi)
  · rw [hchain, hchain]
    exact hf.parts.disjoint i j ((hout i).1 hi) ((hout j).1 hj)
  · obtain ⟨i, hi, hij⟩ := hf.parts.cover j hlt (hfree ▸ hj)
    exact ⟨i, (hout i).2 hi, (hchain i).symm ▸ hij⟩
  · exact (hf.linked i ((hout i).1 hi)).congr fun j _ => congrFun hdesc j
  · exact hf.one i j b (hb i ▸ hi) (hb j ▸ hj)
  · exact hholder ▸ hf.held i b (hb i ▸ hi)
  · exact hholder ▸ hf.alone

/-- Only the descriptors in use matter. -/
theorem Flights.redesc (hf : Flights d) {desc : ℕ → Desc}
    (hdesc : ∀ i, d.free i = false → desc i = d.desc i) : Flights { d with desc := desc } := by
  have hsame : ∀ i, d.Out i → ∀ j ∈ d.chain i, desc j = d.desc j := fun i hi j hj =>
    hdesc j ((hf.parts.chain i hi).2 j hj).2
  have hchain : ∀ i, d.Out i → Disk.chain { d with desc := desc } i = d.chain i := fun i hi =>
    chain_congr (hsame i hi)
  refine ⟨⟨fun i hi => ?_, fun i j hi hj hij => ?_, fun i hlt hi => ?_⟩, fun i hi => ?_, hf.one,
    hf.held, hf.alone⟩
  · rw [hchain i hi]
    exact hf.parts.chain i hi
  · rw [hchain i hi, hchain j hj]
    exact hf.parts.disjoint i j hi hj hij
  · obtain ⟨k, hk, hik⟩ := hf.parts.cover i hlt hi
    exact ⟨k, hk, by rwa [hchain k hk]⟩
  · exact (hf.linked i hi).congr (hsame i hi)

theorem Disk.allocDesc_some (ha : d.allocDesc = some (i, d')) :
    i < num ∧ d.free i = true ∧ d' = { d with free := Function.update d.free i false } := by
  obtain ⟨j, hj, hij⟩ := Option.map_eq_some_iff.1 ha
  obtain ⟨rfl, rfl⟩ := Prod.mk.inj hij
  exact ⟨List.mem_range.1 (List.mem_of_find?_eq_some hj), List.find?_some hj, rfl⟩

theorem Disk.freeDesc_ok (hlt : i < num) (hi : d.free i = false) :
    d.freeDesc i = .ok { d with
      desc := Function.update d.desc i ⟨.null, 0, 0, 0⟩, free := Function.update d.free i true } := by
  simp [Disk.freeDesc, hlt, hi]

/-- What `alloc3_desc` can do to a disk. -/
inductive Alloc3 (d : Disk) : Disk × Option (ℕ × ℕ × ℕ) × List Chan → Prop
  | fail {desc ws} (hdesc : ∀ i, d.free i = false → desc i = d.desc i) :
      Alloc3 d ({ d with desc := desc }, none, ws)
  | got {i₀ i₁ i₂} (hnodup : [i₀, i₁, i₂].Nodup)
      (hfree : ∀ i ∈ [i₀, i₁, i₂], i < num ∧ d.free i = true) :
      Alloc3 d ({ d with free := Function.update (Function.update (Function.update d.free
        i₀ false) i₁ false) i₂ false }, some (i₀, i₁, i₂), [])

theorem Disk.alloc3Desc_spec (d : Disk) : ∃ r, d.alloc3Desc = .ok r ∧ Alloc3 d r := by
  unfold Disk.alloc3Desc
  cases h₀ : d.allocDesc with
  | none => exact ⟨_, rfl, .fail fun _ _ => rfl⟩
  | some r₀ =>
    obtain ⟨i₀, d₀⟩ := r₀
    obtain ⟨hlt₀, hfree₀, rfl⟩ := Disk.allocDesc_some h₀
    dsimp only
    cases h₁ : Disk.allocDesc { d with free := Function.update d.free i₀ false } with
    | none =>
      -- the roll-back restores `free`
      rw [Disk.freeDesc_ok hlt₀ (by simp)]
      refine ⟨_, rfl, ?_⟩
      have hback : Function.update (Function.update d.free i₀ false) i₀ true = d.free := by
        rw [Function.update_idem, Function.update_eq_self_iff.2 hfree₀.symm]
      rw [hback]
      refine .fail fun i hi => Function.update_of_ne ?_ _ _
      rintro rfl
      simp [hfree₀] at hi
    | some r₁ =>
      obtain ⟨i₁, d₁⟩ := r₁
      obtain ⟨hlt₁, hfree₁, rfl⟩ := Disk.allocDesc_some h₁
      have hne₁ : i₁ ≠ i₀ := by
        rintro rfl
        simp at hfree₁
      dsimp only at hfree₁ ⊢
      rw [Function.update_of_ne hne₁] at hfree₁
      cases h₂ : Disk.allocDesc { d with
          free := Function.update (Function.update d.free i₀ false) i₁ false } with
      | none =>
        rw [Disk.freeDesc_ok hlt₀ (by simp [Ne.symm hne₁])]
        dsimp only [bind, Except.bind]
        rw [Disk.freeDesc_ok hlt₁ (by simp [hne₁])]
        refine ⟨_, rfl, ?_⟩
        have hback : Function.update (Function.update (Function.update (Function.update d.free
            i₀ false) i₁ false) i₀ true) i₁ true = d.free := by
          have hsame₀ : Function.update d.free i₀ true = d.free :=
            Function.update_eq_self_iff.2 hfree₀.symm
          have hsame₁ : Function.update d.free i₁ true = d.free :=
            Function.update_eq_self_iff.2 hfree₁.symm
          rw [Function.update_comm (Ne.symm hne₁), Function.update_idem,
            Function.update_comm (Ne.symm hne₁), Function.update_idem, hsame₁, hsame₀]
        rw [hback]
        refine .fail fun i hi => ?_
        have hi₀ : i ≠ i₀ := by
          rintro rfl
          simp [hfree₀] at hi
        have hi₁ : i ≠ i₁ := by
          rintro rfl
          simp [hfree₁] at hi
        simp [hi₀, hi₁]
      | some r₂ =>
        obtain ⟨i₂, d₂⟩ := r₂
        obtain ⟨hlt₂, hfree₂, rfl⟩ := Disk.allocDesc_some h₂
        have hne₂₁ : i₂ ≠ i₁ := by
          rintro rfl
          simp at hfree₂
        have hne₂₀ : i₂ ≠ i₀ := by
          rintro rfl
          simp [hne₂₁] at hfree₂
        dsimp only at hfree₂
        rw [Function.update_of_ne hne₂₁, Function.update_of_ne hne₂₀] at hfree₂
        refine ⟨_, rfl, .got ?_ ?_⟩
        · simp [Ne.symm hne₁, Ne.symm hne₂₀, Ne.symm hne₂₁]
        · simp [hlt₀, hlt₁, hlt₂, hfree₀, hfree₁, hfree₂]

/-- The disk after a successful `alloc3_desc` and the filling in of its descriptors. -/
def Disk.launch (d : Disk) (q : Request) (i₀ i₁ i₂ : ℕ) : Disk :=
  Disk.format { d with free := Function.update (Function.update (Function.update d.free
    i₀ false) i₁ false) i₂ false } q i₀ i₁ i₂

section launch
variable {q : Request} {i₀ i₁ i₂ : ℕ} (hf : Flights d) (hnodup : [i₀, i₁, i₂].Nodup)
  (hfree : ∀ i ∈ [i₀, i₁, i₂], i < num ∧ d.free i = true)
include hf hfree

/-- A chain that was out shares nothing with the new one. -/
theorem Flights.apart {i j : ℕ} (hi : d.Out i) (hj : j ∈ d.chain i) : j ∉ [i₀, i₁, i₂] := by
  intro hmem
  have hused := ((hf.parts.chain i hi).2 j hj).2
  rw [(hfree j hmem).2] at hused
  contradiction

theorem Flights.fresh : ¬ d.Out i₀ := fun hout =>
  hf.apart hfree (j := i₀) hout (by simp [Disk.chain]) (by simp)

omit hf hfree in
theorem launch_info (i : ℕ) : ((d.launch q i₀ i₁ i₂).info i).b =
    if i = i₀ then some q.b else (d.info i).b := by
  by_cases hi : i = i₀
  · subst hi
    simp [Disk.launch, Disk.format]
  · simp [Disk.launch, Disk.format, hi]

omit hf hfree in
theorem launch_out : (d.launch q i₀ i₁ i₂).Out i ↔ i = i₀ ∨ d.Out i := by
  rw [Disk.Out, launch_info]
  by_cases hi : i = i₀ <;> simp [hi, Disk.Out]

omit hf hfree in
theorem launch_desc {j : ℕ} (hj : j ∉ [i₀, i₁, i₂]) :
    (d.launch q i₀ i₁ i₂).desc j = d.desc j := by
  simp only [List.mem_cons, List.not_mem_nil, or_false, not_or] at hj
  obtain ⟨h₀, h₁, h₂⟩ := hj
  simp [Disk.launch, Disk.format, h₀, h₁, h₂]

omit hf hfree in
theorem launch_free (j : ℕ) : (d.launch q i₀ i₁ i₂).free j = false ↔
    j ∈ [i₀, i₁, i₂] ∨ d.free j = false := by
  simp only [Disk.launch, Disk.format, Function.update_apply, List.mem_cons, List.not_mem_nil,
    or_false]
  split_ifs <;> simp_all

theorem launch_chain_old (hi : d.Out i) : (d.launch q i₀ i₁ i₂).chain i = d.chain i :=
  chain_congr fun _ hj => launch_desc (hf.apart hfree hi hj)

omit hf hfree in
include hnodup in
theorem launch_descs : (d.launch q i₀ i₁ i₂).desc i₀ = ⟨.op i₀, 16, descNext, i₁⟩ ∧
    (d.launch q i₀ i₁ i₂).desc i₁ =
      ⟨.data q.b, 1024, (if q.write then 0 else descWrite) ||| descNext, i₂⟩ ∧
    (d.launch q i₀ i₁ i₂).desc i₂ = ⟨.status i₀, 1, descWrite, 0⟩ := by
  simp only [List.nodup_cons, List.mem_cons, List.not_mem_nil, or_false, not_or, not_false_eq_true,
    List.nodup_nil, and_true] at hnodup
  obtain ⟨⟨h₀₁, h₀₂⟩, h₁₂⟩ := hnodup
  simp [Disk.launch, Disk.format, h₀₁, h₀₂, h₁₂]

omit hf hfree in
include hnodup in
theorem launch_chain_new : (d.launch q i₀ i₁ i₂).chain i₀ = [i₀, i₁, i₂] := by
  obtain ⟨h₀, h₁, -⟩ := launch_descs (d := d) (q := q) hnodup
  simp only [Disk.chain, h₀, h₁]

omit hf hfree in
include hnodup in
theorem launch_linked : Linked (d.launch q i₀ i₁ i₂) i₀ := by
  obtain ⟨h₀, h₁, h₂⟩ := launch_descs (d := d) (q := q) hnodup
  constructor
  · rw [h₀]
    simp [descNext]
  · rw [h₀, h₁]
    cases q.write <;> simp [descNext, descWrite]
  · rw [h₀, h₁, h₂]
    simp [descNext, descWrite]
  · rw [h₀, h₁, h₂]

include hnodup in
theorem Flights.launch_parts : Partitioned (d.launch q i₀ i₁ i₂) := by
  have hnew := launch_chain_new (d := d) (q := q) hnodup
  refine ⟨fun i hi => ?_, fun i j hi hj hij => ?_, fun j hlt hj => ?_⟩
  · rcases launch_out.1 hi with rfl | hi
    · rw [hnew]
      exact ⟨hnodup, fun j hj => ⟨(hfree j hj).1, (launch_free j).2 (.inl hj)⟩⟩
    · rw [launch_chain_old hf hfree hi]
      obtain ⟨hnd, hall⟩ := hf.parts.chain i hi
      exact ⟨hnd, fun j hj => ⟨(hall j hj).1, (launch_free j).2 (.inr (hall j hj).2)⟩⟩
  · rcases launch_out.1 hi with hi₀ | hiold <;> rcases launch_out.1 hj with hj₀ | hjold
    · exact absurd (hi₀.trans hj₀.symm) hij
    · rw [hi₀, hnew, launch_chain_old hf hfree hjold]
      exact fun k hk hk' => hf.apart hfree hjold hk' hk
    · rw [hj₀, hnew, launch_chain_old hf hfree hiold]
      exact fun k hk hk' => hf.apart hfree hiold hk hk'
    · rw [launch_chain_old hf hfree hiold, launch_chain_old hf hfree hjold]
      exact hf.parts.disjoint i j hiold hjold hij
  · rcases (launch_free j).1 hj with hj | hj
    · exact ⟨i₀, launch_out.2 (.inl rfl), hnew ▸ hj⟩
    · obtain ⟨i, hi, hij⟩ := hf.parts.cover j hlt hj
      exact ⟨i, launch_out.2 (.inr hi), by rwa [launch_chain_old hf hfree hi]⟩

include hnodup in
theorem Flights.launch (hb : ∀ i, (d.info i).b ≠ some q.b) (hheld : d.holder q.b ≠ none) :
    Flights (d.launch q i₀ i₁ i₂) := by
  refine ⟨hf.launch_parts hnodup hfree, fun i hi => ?_, fun i j b hi hj => ?_, fun i b hi => ?_,
    hf.alone⟩
  · rcases launch_out.1 hi with rfl | hi
    · exact launch_linked hnodup
    · exact (hf.linked i hi).congr fun j hj => launch_desc (hf.apart hfree hi hj)
  · rw [launch_info] at hi hj
    split_ifs at hi hj with h₁ h₂ h₂
    · exact h₁.trans h₂.symm
    · exact absurd (hj.trans hi.symm) (hb j)
    · exact absurd (hi.trans hj.symm) (hb i)
    · exact hf.one i j b hi hj
  · rw [launch_info] at hi
    split_ifs at hi with h₁
    · obtain rfl := Option.some.inj hi
      exact hheld
    · exact hf.held i b hi

end launch

theorem Disk.freeChain_next (fuel : ℕ) (hlt : i < num) (hi : d.free i = false)
    (hflag : (d.desc i).flags &&& descNext ≠ 0) :
    d.freeChain (fuel + 1) i = Disk.freeChain { d with
      desc := Function.update d.desc i ⟨.null, 0, 0, 0⟩, free := Function.update d.free i true }
      fuel (d.desc i).next := by
  rw [Disk.freeChain, Disk.freeDesc_ok hlt hi]
  exact if_pos hflag

theorem Disk.freeChain_last (fuel : ℕ) (hlt : i < num) (hi : d.free i = false)
    (hflag : (d.desc i).flags &&& descNext = 0) :
    d.freeChain (fuel + 1) i = .ok { d with
      desc := Function.update d.desc i ⟨.null, 0, 0, 0⟩, free := Function.update d.free i true } := by
  rw [Disk.freeChain, Disk.freeDesc_ok hlt hi]
  exact if_neg (not_not.2 hflag)

/-- `free_chain` gives back a chain of three and nothing else. -/
theorem Disk.freeChain_ok (hl : Linked d i) (hnodup : (d.chain i).Nodup)
    (hused : ∀ j ∈ d.chain i, j < num ∧ d.free j = false) :
    ∃ desc free, d.freeChain num i = .ok { d with desc := desc, free := free } ∧
      (∀ j ∉ d.chain i, desc j = d.desc j ∧ free j = d.free j) ∧
      ∀ j ∈ d.chain i, free j = true := by
  simp only [Disk.chain, List.nodup_cons, List.mem_cons, List.not_mem_nil, or_false, not_or,
    not_false_eq_true, List.nodup_nil, and_true, forall_eq_or_imp, forall_eq] at hnodup hused ⊢
  obtain ⟨⟨h₀₁, h₀₂⟩, h₁₂⟩ := hnodup
  obtain ⟨hu₀, hu₁, hu₂⟩ := hused
  have hrun : d.freeChain num i = .ok { d with
      desc := Function.update (Function.update (Function.update d.desc i ⟨.null, 0, 0, 0⟩)
        (d.desc i).next ⟨.null, 0, 0, 0⟩) (d.desc (d.desc i).next).next ⟨.null, 0, 0, 0⟩
      free := Function.update (Function.update (Function.update d.free i true)
        (d.desc i).next true) (d.desc (d.desc i).next).next true } := by
    rw [Disk.freeChain_next 7 hu₀.1 hu₀.2 hl.first,
      Disk.freeChain_next 6 hu₁.1 (by simp [Ne.symm h₀₁, hu₁.2])
        (by simpa [Ne.symm h₀₁] using hl.second)]
    simp only [Function.update_of_ne (Ne.symm h₀₁)]
    rw [Disk.freeChain_last 5 hu₂.1 (by simp [Ne.symm h₀₂, Ne.symm h₁₂, hu₂.2])
      (by simpa [Ne.symm h₀₂, Ne.symm h₁₂] using hl.third)]
  refine ⟨_, _, hrun, fun j hj => ?_, ?_, ?_, ?_⟩
  · simp [hj.1, hj.2.1, hj.2.2]
  · simp [h₀₁, h₀₂]
  · simp [h₁₂]
  · simp

/-- A chain whose transfer is over goes back to the free descriptors. -/
theorem Flights.retire (hf : Flights d) {i b : ℕ} (hi : (d.info i).b = some b)
    (hinfo : info = Function.update d.info i { d.info i with b := none }) :
    ∃ desc free, Disk.freeChain { d with info := info } num i =
        .ok { d with info := info, desc := desc, free := free } ∧
      Flights { d with info := info, desc := desc, free := free,
                       holder := Function.update d.holder b none } := by
  have hout : d.Out i := Disk.out_of hi
  obtain ⟨hnodup, hused⟩ := hf.parts.chain i hout
  have hl := hf.linked i hout
  obtain ⟨desc, free, hrun, hother, hgiven⟩ :=
    Disk.freeChain_ok (d := { d with info := info }) ⟨hl.first, hl.second, hl.third, hl.status⟩
      hnodup hused
  refine ⟨desc, free, hrun, ?_⟩
  -- the chains still out are those of the other heads, untouched
  have hold : ∀ j b', (info j).b = some b' → j ≠ i ∧ (d.info j).b = some b' := by
    intro j b' hj
    rw [hinfo] at hj
    by_cases hji : j = i
    · subst hji
      simp at hj
    · rw [Function.update_of_ne hji] at hj
      exact ⟨hji, hj⟩
  have hout' : ∀ j, (info j).b ≠ none → j ≠ i ∧ d.Out j := by
    intro j hj
    obtain ⟨b', hb'⟩ := Option.ne_none_iff_exists'.1 hj
    obtain ⟨hji, hjb⟩ := hold j b' hb'
    exact ⟨hji, Disk.out_of hjb⟩
  have hsame : ∀ j, (info j).b ≠ none → ∀ k ∈ d.chain j, desc k = d.desc k ∧ free k = d.free k := by
    intro j hj k hk
    obtain ⟨hji, hjout⟩ := hout' j hj
    exact hother k fun hki => hf.parts.disjoint j i hjout hout hji hk hki
  have hchain : ∀ j, (info j).b ≠ none →
      Disk.chain { d with info := info, desc := desc, free := free,
                          holder := Function.update d.holder b none } j = d.chain j :=
    fun j hj => chain_congr fun k hk => (hsame j hj k hk).1
  refine ⟨⟨fun j hj => ?_, fun j k hj hk hjk => ?_, fun k hlt hk => ?_⟩, fun j hj => ?_,
    fun j k b' hj hk => ?_, fun j b' hj => ?_, fun b' b'' c hb' hb'' => ?_⟩
  · rw [hchain j hj]
    obtain ⟨hnd, hall⟩ := hf.parts.chain j (hout' j hj).2
    exact ⟨hnd, fun k hk => ⟨(hall k hk).1, (hsame j hj k hk).2.trans (hall k hk).2⟩⟩
  · rw [hchain j hj, hchain k hk]
    exact hf.parts.disjoint j k (hout' j hj).2 (hout' k hk).2 hjk
  · have hki : k ∉ d.chain i := fun hki => absurd (hgiven k hki) (Bool.eq_false_iff.1 hk)
    obtain ⟨j, hj, hkj⟩ := hf.parts.cover k hlt ((hother k hki).2 ▸ hk)
    have hji : j ≠ i := by
      rintro rfl
      exact hki hkj
    have hj' : (info j).b ≠ none := by
      rw [hinfo, Function.update_of_ne hji]
      exact hj
    exact ⟨j, hj', by rwa [hchain j hj']⟩
  · exact (hf.linked j (hout' j hj).2).congr fun k hk => (hsame j hj k hk).1
  · exact hf.one j k b' (hold j b' hj).2 (hold k b' hk).2
  · obtain ⟨hji, hjb⟩ := hold j b' hj
    have hbb : b' ≠ b := by
      rintro rfl
      exact hji (hf.one j i b' hjb hi)
    simpa [hbb] using hf.held j b' hjb
  · have hne : ∀ b', Function.update d.holder b none b' = some c → d.holder b' = some c := by
      intro b' hb'
      by_cases hbb : b' = b
      · subst hbb
        simp at hb'
      · rwa [Function.update_of_ne hbb] at hb'
    exact hf.alone b' b'' c (hne b' hb') (hne b'' hb'')

end alloc

/-- What a turn of the call `c` must leave behind. -/
structure Leaves (d : Disk) (h : History) (c : ℕ) (d' : Disk) (h' : History) (st : Stage) (l : Loc) :
    Prop where
  flights : Flights d'
  queues : Queues d' h'
  call : CallOk (d', h') c st l
  clears : Clears (d, h) (d', h')
  others : ∀ e st k, e ≠ c → st ≠ .inside → CallOk (d, h) e st k → CallOk (d', h') e st k
  new : ∀ e, e ≠ c → NewOk (d, h) e → NewOk (d', h') e

section turns
variable {d d' : Disk} {h h' : History} {c : ℕ} {q : Request}

/-- The queues only look at the chains that are in them. -/
theorem Queues.keep (hq : Queues d h) (d' : Disk)
    (havail : Holds num d'.avail.ring d'.seen d'.avail.idx d.pending)
    (hused : d'.used = d.used) (hidx : d'.usedIdx = d.usedIdx) (htaken : d'.taken = d.taken)
    (hinfo : ∀ i ∈ d.queued, d'.info i = d.info i)
    (hbuf : ∀ i ∈ d.queued, ∀ b, (d.info i).b = some b → (d.busy b = true → d'.busy b = true) ∧
      d'.holder b = d.holder b) :
    Queues d' h ∧ d'.pending = d.pending ∧ d'.posted = d.posted := by
  have hpend : d'.pending = d.pending := havail.contents_eq fits
  have hpost : d'.posted = d.posted := by rw [Disk.posted, hused, hidx, ← Disk.posted]
  have hqueued : d'.queued = d.queued := by rw [Disk.queued, hpend, hpost, htaken, ← Disk.queued]
  have hposted : ∀ i ∈ d.posted, i ∈ d.queued := fun i hi => List.mem_append_right _ hi
  refine ⟨⟨hpend ▸ havail, ?_, hqueued ▸ hq.nodup, fun i hi => ?_, fun i hi => ?_, ?_, ?_⟩, hpend,
    hpost⟩
  · rw [hpost, hused, hidx]
    exact hq.used
  · rw [hqueued] at hi
    obtain ⟨b, c, hb, hbusy, hholder, hreq⟩ := hq.request i hi
    obtain ⟨hbusy', hholder'⟩ := hbuf i hi b hb
    exact ⟨b, c, hinfo i hi ▸ hb, hbusy' hbusy, hholder'.trans hholder, hreq⟩
  · rw [hpost] at hi
    rw [hinfo i (hposted i hi)]
    exact hq.status i hi
  · rw [hpend]
    exact hq.sent
  · have hsame : d.posted.map (fun i => (i, (d'.info i).b)) =
        d.posted.map fun i => (i, (d.info i).b) :=
      List.map_congr_left fun i hi => by rw [hinfo i (hposted i hi)]
    rw [hpost, hsame]
    exact hq.done

theorem leaves_alloc_fail (hf : Flights d) (hq : Queues d h)
    (hok : CallOk (d, h) c .inside (.rw q .alloc)) {desc : ℕ → Desc}
    (hdesc : ∀ i, d.free i = false → desc i = d.desc i) :
    Leaves d h c { d with desc := desc } h .waits (.rw q .alloc) where
  flights := hf.redesc hdesc
  queues := ⟨hq.avail, hq.used, hq.nodup, hq.request, hq.status, hq.sent, hq.done⟩
  call := hok
  clears := .inl ⟨fun _ hbusy => hbusy, rfl⟩
  others _ _ _ _ hst hk := hk.frame (absurd · hst) (fun _ => Iff.rfl) rfl (fun _ _ _ => Iff.rfl)
    (fun _ _ _ _ hi => hi) (fun _ _ _ _ hi => hi)
  new _ _ hnew := hnew

theorem leaves_alloc_got (hf : Flights d) (hq : Queues d h)
    (hok : CallOk (d, h) c .inside (.rw q .alloc)) {i₀ i₁ i₂ : ℕ} (hnodup : [i₀, i₁, i₂].Nodup)
    (hfree : ∀ i ∈ [i₀, i₁, i₂], i < num ∧ d.free i = true) :
    Leaves d h c (d.launch q i₀ i₁ i₂) h .inside (.rw q (.publish i₀)) := by
  obtain ⟨hheld, hnob, hof⟩ := hok
  have hf' := hf.launch hnodup hfree hnob (Option.ne_none_iff_exists'.2 ⟨c, hheld⟩)
  have hfresh := hf.fresh hfree
  have hnew : i₀ ∉ d.queued := fun hi => hfresh (hq.out hi)
  have hroom : d.pending.length < num :=
    d.length_pending_le.trans_lt (hq.room hf (hfree i₀ (by simp)).1 hnew)
  have hne : ∀ {i b}, (d.info i).b = some b → i ≠ i₀ := by
    rintro i b hb rfl
    exact hfresh (Disk.out_of hb)
  obtain ⟨hq', hpend, hpost⟩ := hq.keep (d.launch q i₀ i₁ i₂) (hq.avail.poke fits hroom) rfl rfl
    rfl (fun i hi => Function.update_of_ne (ne_of_mem_of_not_mem hi hnew) _ _)
    (fun i hi b hb => ⟨fun hbusy => by
      by_cases hbq : b = q.b
      · simp [Disk.launch, Disk.format, hbq]
      · simp [Disk.launch, Disk.format, hbq, hbusy], rfl⟩)
  have hbusy : ∀ b, d.busy b = true → (d.launch q i₀ i₁ i₂).busy b = true := by
    intro b hb
    by_cases hbq : b = q.b <;> simp [Disk.launch, Disk.format, hbq, hb]
  refine ⟨hf', hq', ⟨hheld, rfl, by simp [launch_info], ?_, ?_, ?_, hof⟩, .inl ⟨hbusy, rfl⟩,
    fun e st k he hst hk => ?_, fun e _ hnew => hnew⟩
  · simp [Disk.launch, Disk.format]
  · rw [Disk.queued, hpend, hpost]
    exact hnew
  · simp [Disk.launch, Disk.format]
  · refine hk.frame (absurd · hst) (fun _ => Iff.rfl) rfl (fun b i hb => ?_) (fun b i hb hi hmem => ?_)
      (fun b i hb hi hmem => ?_)
    · have hbq : q.b ≠ b := by
        rintro rfl
        exact he (Option.some.inj (hb.symm.trans hheld))
      rw [launch_info]
      split_ifs with hi
      · exact ⟨fun hbb => absurd (Option.some.inj hbb) hbq, fun hbb => absurd hi (hne hbb)⟩
      · exact Iff.rfl
    · rw [hpend]
      exact hmem
    · rw [hpost]
      refine hmem.imp_right fun hbusy => ?_
      have hbq : b ≠ q.b := by
        rintro rfl
        exact he (Option.some.inj (hb.symm.trans hheld))
      simp [Disk.launch, Disk.format, hbq, hbusy]

@[simp] theorem History.request_publish (e : Entry) (j : ℕ) :
    ({ h with published := h.published ++ [e] } : History).request j =
      if e.head = j then some e else h.request j := by
  by_cases he : e.head = j <;> simp [History.request, he]

theorem leaves_publish (hf : Flights d) (hq : Queues d h)
    (hok : CallOk (d, h) c .inside (.rw q (.publish i))) :
    Leaves d h c { d with avail := { d.avail with idx := d.avail.idx + 1 } }
      { h with published := h.published ++ [⟨i, q.b, c⟩] } .inside (.rw q (.wait i)) := by
  obtain ⟨hheld, -, hb, hbusy, hnew, hcell, hof⟩ := hok
  have hout : d.Out i := Disk.out_of hb
  have hroom := d.length_pending_le.trans_lt (hq.room hf (hf.lt hout) hnew)
  have havail := hq.avail.extend fits hroom
  rw [hcell] at havail
  have hpend := havail.contents_eq fits
  -- the new entry goes in at the end of the avail ring
  have hqueued : ∀ d' : Disk, d'.pending = d.pending ++ [i] → d'.taken = d.taken →
      d'.posted = d.posted → d'.queued.Perm (i :: d.queued) := by
    intro d' h₁ h₂ h₃
    rw [Disk.queued, h₁, h₂, h₃, Disk.queued, List.append_assoc, List.append_assoc,
      List.append_assoc]
    exact List.perm_middle
  have hperm := hqueued { d with avail := { d.avail with idx := d.avail.idx + 1 } } hpend rfl rfl
  refine ⟨hf.congr rfl rfl rfl fun _ => rfl,
    ⟨?_, hq.used, hperm.nodup_iff.2 (List.nodup_cons.2 ⟨hnew, hq.nodup⟩), fun j hj => ?_,
      hq.status, ?_, hq.done⟩,
    ⟨hheld, hb, .inl ⟨?_, hof⟩⟩, .inl ⟨fun _ hbusy => hbusy, rfl⟩, fun e st k _ hst hk => ?_,
    fun _ _ hnew => hnew⟩
  · rw [Disk.pending, hpend]
    exact havail
  · rcases List.mem_cons.1 (hperm.mem_iff.1 hj) with rfl | hj
    · exact ⟨q.b, c, hb, hbusy, hheld, by simp⟩
    · obtain ⟨b, c', hjb, hjbusy, hjheld, hreq⟩ := hq.request j hj
      refine ⟨b, c', hjb, hjbusy, hjheld, ?_⟩
      rw [History.request_publish, if_neg (ne_of_mem_of_not_mem hj hnew).symm, hreq]
  · rw [Disk.pending, hpend, List.map_append, hq.sent, List.append_assoc]
    rfl
  · rw [Disk.pending, hpend]
    simp
  · refine hk.frame (absurd · hst) (fun _ => Iff.rfl) rfl (fun _ _ _ => Iff.rfl) (fun b j _ _ hj => ?_)
      (fun _ _ _ _ hj => hj)
    rw [Disk.pending, hpend]
    simp only [List.mem_append] at hj ⊢
    tauto

/-- The next completion to be handled is of the request it was posted for. -/
theorem Queues.oldest_done (hq : Queues d h) {rest : List ℕ} (hposted : d.posted = i :: rest) :
    ∃ e, h.completed[h.handled.length]? = some e ∧ (e.head, some e.buf) = (i, (d.info i).b) := by
  have hget := congrArg (·[h.handled.length]?) hq.done
  simpa [hposted] using hget

theorem leaves_intr (hf : Flights d) (hq : Queues d h) (hne : d.usedIdx ≠ d.used.idx) {id : ℕ}
    (hid : d.used.ring (cell num d.usedIdx) = id) :
    (d.info id).status = 0 ∧ ∃ b, (d.info id).b = some b ∧
      Leaves d h c { d with busy := Function.update d.busy b false, usedIdx := d.usedIdx + 1 }
        { h with handled := h.handled ++ [(id, (d.info id).b)] } .inside .intr := by
  obtain ⟨id', rest, hposted⟩ : ∃ id' rest, d.posted = id' :: rest :=
    List.exists_cons_of_ne_nil fun hnil => hne ((hq.used.empty_iff fits).2 hnil)
  have hused := hq.used
  rw [hposted] at hused
  obtain rfl : id' = id := hused.oldest.symm.trans hid
  have hrest := (hused.pop fits).contents_eq fits
  have hin : id' ∈ d.queued := List.mem_append_right _ (by simp [hposted])
  obtain ⟨b, c', hb, hbusy, hheld, hreq⟩ := hq.request id' hin
  refine ⟨hq.status id' (by simp [hposted]), b, hb, ?_⟩
  have hnodup := hq.nodup
  rw [Disk.queued, hposted] at hnodup
  have hnodup' := List.nodup_middle.1 hnodup
  obtain ⟨hnot, hnodup'⟩ := List.nodup_cons.1 hnodup'
  -- the other chains are for other buffers
  have hother : ∀ j ∈ d.pending ++ d.taken ++ rest, j ∈ d.queued ∧
      ∀ b', (d.info j).b = some b' → b' ≠ b := by
    intro j hj
    refine ⟨?_, ?_⟩
    · rw [Disk.queued, hposted]
      simp only [List.mem_append, List.mem_cons] at hj ⊢
      tauto
    · rintro b' hjb rfl
      exact hnot (hf.one j id' b' hjb hb ▸ hj)
  refine ⟨hf.congr rfl rfl rfl fun _ => rfl,
    ⟨hq.avail, ?_, ?_, fun j hj => ?_, fun j hj => ?_, hq.sent, ?_⟩, trivial, .inr ?_,
    fun e st k _ hst hk => ?_, fun _ _ hnew => hnew⟩
  · rw [Disk.posted, hrest]
    exact hused.pop fits
  · rw [Disk.queued, Disk.posted, hrest]
    exact hnodup'
  · rw [Disk.queued, Disk.posted, hrest] at hj
    obtain ⟨hjq, hjne⟩ := hother j hj
    obtain ⟨b', c'', hjb, hjbusy, hjheld, hjreq⟩ := hq.request j hjq
    exact ⟨b', c'', hjb, by simpa [hjne b' hjb] using hjbusy, hjheld, hjreq⟩
  · rw [Disk.posted, hrest] at hj
    exact hq.status j (by simp [hposted, hj])
  · rw [Disk.posted, hrest, hq.done, hposted]
    simp
  · obtain ⟨e, he, heq⟩ := hq.oldest_done hposted
    rw [hb] at heq ⊢
    obtain ⟨rfl, hbuf⟩ := Prod.mk.inj heq
    obtain rfl := Option.some.inj hbuf
    exact ⟨e, he, rfl, rfl⟩
  · refine hk.frame (absurd · hst) (fun _ => Iff.rfl) rfl (fun _ _ _ => Iff.rfl) (fun _ _ _ _ hj => hj)
      (fun b' j _ hjb hj => ?_)
    rw [Disk.posted, hrest]
    by_cases hbb : b' = b
    · exact .inr (by simp [hbb])
    · refine hj.imp (fun hj => ?_) (fun hbusy => by simpa [hbb] using hbusy)
      rw [hposted] at hj
      refine (List.mem_cons.1 hj).resolve_left ?_
      rintro rfl
      exact hbb (Option.some.inj (hjb.symm.trans hb))

theorem leaves_wait (hf : Flights d) (hq : Queues d h)
    (hok : CallOk (d, h) c .inside (.rw q (.wait i))) (hdone : d.busy q.b = false)
    (hinfo : info = Function.update d.info i { d.info i with b := none }) :
    ∃ desc free, Disk.freeChain { d with info := info } num i =
        .ok { d with info := info, desc := desc, free := free } ∧
      Leaves d h c { d with info := info, desc := desc, free := free,
                            holder := Function.update d.holder q.b none } h
        (.returned 0) (.rw q (.wait i)) := by
  obtain ⟨hheld, hb, hwhere⟩ := hok
  obtain ⟨desc, free, hrun, hf'⟩ := hf.retire hb hinfo
  refine ⟨desc, free, hrun, ?_⟩
  have hnot : i ∉ d.queued := by
    intro hi
    obtain ⟨b, c', hib, hbusy, -⟩ := hq.request i hi
    obtain rfl := Option.some.inj (hib.symm.trans hb)
    rw [hdone] at hbusy
    contradiction
  have hof : h.of c = [⟨i, q.b, c⟩] := by
    rcases hwhere with ⟨hi, -⟩ | ⟨-, hof⟩
    · exact absurd (List.mem_append_left _ hi) hnot
    · exact hof
  have hkept : ∀ j ≠ i, info j = d.info j := fun j hj => by rw [hinfo, Function.update_of_ne hj]
  have hbuf : ∀ j ∈ d.queued, ∀ b, (d.info j).b = some b → b ≠ q.b := by
    rintro j hj b hjb rfl
    exact hnot (hf.one j i q.b hjb hb ▸ hj)
  obtain ⟨hq', hpend, hpost⟩ := hq.keep { d with
      info := info, desc := desc, free := free, holder := Function.update d.holder q.b none }
    hq.avail rfl rfl rfl (fun j hj => hkept j (ne_of_mem_of_not_mem hj hnot))
    (fun j hj b hjb => ⟨id, Function.update_of_ne (hbuf j hj b hjb) _ _⟩)
  have hleft : ∀ b e, Function.update d.holder q.b none b = some e ↔
      d.holder b = some e ∧ e ≠ c := by
    intro b e
    by_cases hbq : b = q.b
    · subst hbq
      rw [Function.update_self]
      refine ⟨nofun, fun hbe => ?_⟩
      exact absurd (Option.some.inj (hbe.1.symm.trans hheld)) hbe.2
    · rw [Function.update_of_ne hbq]
      refine ⟨fun hbe => ⟨hbe, ?_⟩, And.left⟩
      rintro rfl
      exact hbq (hf.alone b q.b e hbe hheld)
  refine ⟨hf', hq', ⟨fun b hbc => ((hleft b c).1 hbc).2 rfl, i, hof⟩,
    .inl ⟨fun _ hbusy => hbusy, rfl⟩, fun e st k he hst hk => ?_, fun e he hnew => ⟨fun b hbe => ?_, hnew.2⟩⟩
  · refine hk.frame (absurd · hst) (fun b => ?_) rfl (fun b j hbe => ?_) (fun _ _ _ _ hj => hj)
      (fun _ _ _ _ hj => hj)
    · rw [hleft]
      exact and_iff_left he
    · by_cases hji : j = i
      · subst hji
        have hbq : q.b ≠ b := by
          rintro rfl
          exact he (Option.some.inj (hbe.symm.trans hheld))
        simp only [hinfo, Function.update_self]
        refine ⟨nofun, fun hjb => absurd (Option.some.inj (hb.symm.trans hjb)) hbq⟩
      · simp only [hkept j hji]
  · exact hnew.1 b ((hleft b e).1 hbe).1

end turns

/-- What a step of the device must leave behind. -/
structure Serves (d : Disk) (h : History) (d' : Disk) (h' : History) : Prop where
  flights : Flights d'
  queues : Queues d' h'
  calls : ∀ e st k, CallOk (d, h) e st k → CallOk (d', h') e st k
  new : ∀ e, NewOk (d, h) e → NewOk (d', h') e

section device
variable {d : Disk} {h : History}

theorem serves_take (hf : Flights d) (hq : Queues d h) (hne : d.seen ≠ d.avail.idx)
    (hi : d.avail.ring (cell num d.seen) = i) :
    Serves d h { d with seen := d.seen + 1, taken := d.taken ++ [i] }
      { h with fetched := h.fetched ++ [i] } := by
  obtain ⟨i', rest, hpending⟩ : ∃ i' rest, d.pending = i' :: rest :=
    List.exists_cons_of_ne_nil fun hnil => hne ((hq.avail.empty_iff fits).2 hnil)
  have havail := hq.avail
  rw [hpending] at havail
  obtain rfl : i' = i := havail.oldest.symm.trans hi
  have hrest := (havail.pop fits).contents_eq fits
  -- the chain moves from the avail ring to the device
  have hahead : (rest ++ (d.taken ++ [i'])).Perm (d.pending ++ d.taken) := by
    rw [hpending, ← List.append_assoc]
    exact List.perm_append_singleton i' _
  have hperm : (rest ++ (d.taken ++ [i']) ++ d.posted).Perm d.queued := hahead.append_right _
  refine ⟨hf.congr rfl rfl rfl fun _ => rfl,
    ⟨?_, hq.used, ?_, fun j hj => ?_, hq.status, ?_, hq.done⟩, fun e st k hk => ?_,
    fun _ hnew => hnew⟩
  · rw [Disk.pending, hrest]
    exact havail.pop fits
  · rw [Disk.queued, Disk.pending, hrest]
    exact hperm.nodup_iff.2 hq.nodup
  · rw [Disk.queued, Disk.pending, hrest] at hj
    exact hq.request j (hperm.mem_iff.1 hj)
  · rw [Disk.pending, hrest, hq.sent, hpending]
    simp
  · refine hk.frame (fun _ => ⟨rfl, rfl, fun j hj hj' => ?_⟩) (fun _ => Iff.rfl) rfl
      (fun _ _ _ => Iff.rfl) (fun _ j _ _ hj => ?_) (fun _ _ _ _ hj => hj)
    · rw [Disk.queued, Disk.pending, hrest] at hj'
      exact hj (hperm.mem_iff.1 hj')
    · rw [Disk.pending, hrest]
      exact hahead.mem_iff.2 hj

theorem History.of_complete (e : Entry) (c : ℕ) :
    ({ h with completed := h.completed ++ [e] } : History).of c =
      h.of c ++ if e.call = c then [e] else [] := by
  by_cases he : e.call = c <;> simp [History.of, he]

/-- The caller whose request is completed now knows of exactly one completion. -/
theorem CallOk.complete {d' : Disk} {c i b : ℕ} {st : Stage} {l : Loc} (hok : CallOk (d, h) c st l)
    (hf : Flights d) (hq : Queues d h) (hb : (d.info i).b = some b) (hbusy : d.busy b = true)
    (hheld : d.holder b = some c) (hi : i ∈ d.taken) (hholder : d'.holder = d.holder)
    (hsameb : ∀ j, (d'.info j).b = (d.info j).b) (hposted : i ∈ d'.posted) :
    CallOk (d', { h with completed := h.completed ++ [⟨i, b, c⟩] }) c st l := by
  have hin : i ∈ d.queued := List.mem_append_left _ (List.mem_append_right _ hi)
  have hnotPosted : i ∉ d.posted := fun hip => (List.disjoint_of_nodup_append hq.nodup)
    (List.mem_append_right _ hi) hip
  have hphase : ∀ b' ph, d.holder b' = some c → PhaseOk d h c st b' ph →
      PhaseOk d' { h with completed := h.completed ++ [⟨i, b, c⟩] } c st b' ph := by
    intro b' ph hb' hph
    obtain rfl : b = b' := hf.alone b b' c hheld hb'
    cases ph with
    | alloc => exact absurd hb (hph.1 i)
    | publish j =>
      obtain ⟨-, hjb, -, hnew, -⟩ := hph
      exact absurd (hf.one i j b hb hjb ▸ hin) hnew
    | wait j =>
      obtain ⟨hjb, hwhere⟩ := hph
      obtain rfl := hf.one i j b hb hjb
      have hof : h.of c = [] := by
        rcases hwhere with ⟨-, hof⟩ | ⟨hip | hidle, -⟩
        · exact hof
        · exact absurd hip hnotPosted
        · rw [hbusy] at hidle
          contradiction
      refine ⟨(hsameb i).trans hb, .inr ⟨.inl hposted, ?_⟩⟩
      rw [History.of_complete, hof, if_pos rfl, List.nil_append]
  cases l with
  | intr => trivial
  | rw q ph =>
    cases st with
    | returned r => exact absurd hheld (hok.1 b)
    | waits => exact ⟨hholder ▸ hok.1, hphase _ _ hok.1 hok.2⟩
    | inside => exact ⟨hholder ▸ hok.1, hphase _ _ hok.1 hok.2⟩

theorem serves_complete (hf : Flights d) (hq : Queues d h) (hi : i ∈ d.taken)
    (hinfo : info = Function.update d.info i { d.info i with status := 0 }) :
    Serves d h
      { d with info := info,
               used := ⟨Function.update d.used.ring (cell num d.used.idx) i, d.used.idx + 1⟩,
               taken := d.taken.erase i }
      { h with completed := h.completed ++ (h.request i).toList } := by
  have hin : i ∈ d.queued := List.mem_append_left _ (List.mem_append_right _ hi)
  obtain ⟨b, c, hb, hbusy, hheld, hreq⟩ := hq.request i hin
  rw [hreq, Option.toList_some]
  have hroom : d.posted.length < num := by
    have hle := hq.length_le hf
    have hpos := List.length_pos_of_mem hi
    simp only [Disk.queued, List.length_append] at hle
    omega
  have hused := hq.used.push fits hroom (x := i)
  have hpost := hused.contents_eq fits
  have hsameb : ∀ j, (info j).b = (d.info j).b := by
    intro j
    rw [hinfo]
    by_cases hji : j = i
    · rw [hji, Function.update_self]
    · rw [Function.update_of_ne hji]
  -- the chain moves from the device to the used ring
  have hperm : (d.pending ++ d.taken.erase i ++ (d.posted ++ [i])).Perm d.queued := by
    have hhead : (d.pending ++ d.taken).Perm (i :: (d.pending ++ d.taken.erase i)) :=
      ((List.perm_cons_erase hi).append_left _).trans List.perm_middle
    rw [← List.append_assoc]
    exact (List.perm_append_singleton i _).trans (hhead.append_right d.posted).symm
  refine ⟨hf.congr rfl rfl rfl hsameb,
    ⟨hq.avail, ?_, ?_, fun j hj => ?_, fun j hj => ?_, hq.sent, ?_⟩, fun e st k hk => ?_,
    fun e hnew => ⟨hnew.1, ?_⟩⟩
  · rw [Disk.posted, hpost]
    exact hused
  · rw [Disk.queued, Disk.posted, hpost]
    exact hperm.nodup_iff.2 hq.nodup
  · rw [Disk.queued, Disk.posted, hpost] at hj
    obtain ⟨b', c', hjb, hrest⟩ := hq.request j (hperm.mem_iff.1 hj)
    exact ⟨b', c', (hsameb j).trans hjb, hrest⟩
  · rw [Disk.posted, hpost] at hj
    by_cases hji : j = i
    · simp [hinfo, hji]
    · simpa [hinfo, hji] using hq.status j (by simpa [hji] using hj)
  · rw [Disk.posted, hpost, List.map_append, hq.done]
    simp [hsameb, hb]
  · by_cases hec : c = e
    · subst hec
      exact hk.complete hf hq hb hbusy hheld hi rfl hsameb (by rw [Disk.posted, hpost]; simp)
    · refine hk.frame (fun _ => ⟨rfl, rfl, fun j hj hj' => ?_⟩) (fun _ => Iff.rfl) ?_
        (fun b' j _ => by rw [hsameb]) (fun b' j hb' hjb hj => ?_) (fun _ j _ _ hj => ?_)
      · rw [Disk.queued, Disk.posted, hpost] at hj'
        exact hj (hperm.mem_iff.1 hj')
      · rw [History.of_complete, if_neg hec, List.append_nil]
      · have hji : j ≠ i := by
          rintro rfl
          obtain rfl := Option.some.inj (hjb.symm.trans hb)
          exact hec (Option.some.inj (hheld.symm.trans hb'))
        simp only [List.mem_append, List.mem_erase_of_ne hji] at hj ⊢
        exact hj
      · rw [Disk.posted, hpost]
        exact hj.imp_left (List.mem_append_left _)
  · rw [History.of_complete, if_neg, hnew.2]
    · rfl
    · rintro rfl
      exact hnew.1 b hheld

end device

theorem leaves_same {d : Disk} {h : History} {c : ℕ} {st : Stage} {l : Loc} (hf : Flights d)
    (hq : Queues d h) (hok : CallOk (d, h) c st l) : Leaves d h c d h st l :=
  ⟨hf, hq, hok, .inl ⟨fun _ hbusy => hbusy, rfl⟩, fun _ _ _ _ _ hk => hk, fun _ _ hnew => hnew⟩

theorem observed_turn {d : Disk} {c : ℕ} {l : Loc} {killed : Bool} {T : Turn Disk Loc Chan}
    (h : History) (hT : code.turn d c l killed = .ok T) :
    observed.turn (d, h) c l killed =
      .ok { T with shared := (T.shared, h.note c (d, l) (T.shared, T.loc)) } := by
  simp only [Code.observe, hT]
  rfl

/-- No turn faults, and each keeps to the protocol. -/
theorem turn_leaves {x : Disk × History} {c : ℕ} {l : Loc} (killed : Bool) (hf : Flights x.1)
    (hq : Queues x.1 x.2) (hok : CallOk x c .inside l) :
    ∃ T, observed.turn x c l killed = .ok T ∧
      Leaves x.1 x.2 c T.shared.1 T.shared.2 T.next.pc.stage T.loc := by
  obtain ⟨d, h⟩ := x
  dsimp only at hf hq
  cases l with
  | intr =>
    by_cases hne : d.usedIdx = d.used.idx
    · refine ⟨_, observed_turn (T := ⟨d, .intr, [], .leave 0⟩) h ?_, ?_⟩
      · simp [code, Disk.virtioDiskIntr, hne]
      · simp only [History.note, hne, if_true]
        exact leaves_same hf hq trivial
    · obtain ⟨hstatus, b, hb, hleaves⟩ := leaves_intr (c := c) hf hq hne rfl
      refine ⟨_, observed_turn (T := ⟨{ d with
        busy := Function.update d.busy b false, usedIdx := d.usedIdx + 1 }, .intr, [.buf b], .stay⟩)
        h ?_, ?_⟩
      · simp [code, Disk.virtioDiskIntr, hne, hstatus, hb]
      · simp only [History.note, hne, if_false]
        exact hleaves
  | rw q ph =>
    cases ph with
    | alloc =>
      obtain ⟨r, hr, hspec⟩ := d.alloc3Desc_spec
      cases hspec with
      | @fail desc ws hdesc =>
        refine ⟨_, observed_turn (T := ⟨{ d with desc := desc }, .rw q .alloc, ws, .sleep .free⟩)
          h ?_, leaves_alloc_fail hf hq hok hdesc⟩
        simp only [code, Disk.virtioDiskRw, hr]
        rfl
      | @got i₀ i₁ i₂ hnodup hfree =>
        refine ⟨_, observed_turn (T := ⟨d.launch q i₀ i₁ i₂, .rw q (.publish i₀), [], .stay⟩) h ?_,
          leaves_alloc_got hf hq hok hnodup hfree⟩
        simp only [code, Disk.virtioDiskRw, hr]
        rfl
    | publish i => exact ⟨_, rfl, leaves_publish hf hq hok⟩
    | wait i =>
      by_cases hbusy : d.busy q.b = true
      · refine ⟨_, observed_turn (T := ⟨d, .rw q (.wait i), [], .sleep (.buf q.b)⟩) h ?_,
          leaves_same hf hq hok⟩
        simp only [code, Disk.virtioDiskRw, hbusy, if_true]
      · obtain ⟨desc, free, hrun, hleaves⟩ :=
          leaves_wait hf hq hok (Bool.eq_false_iff.2 hbusy) rfl
        refine ⟨_, observed_turn (T := ⟨_, .rw q (.wait i), [.free], .leave 0⟩) h ?_, hleaves⟩
        simp only [code, Disk.virtioDiskRw, hbusy, hrun]
        rfl

theorem device_serves {x x' : Disk × History} {e : Device} {ws : List Chan} (hf : Flights x.1)
    (hq : Queues x.1 x.2) (hx : observed.outside x e = .ok (x', ws)) :
    Serves x.1 x.2 x'.1 x'.2 ∧ x'.1.busy = x.1.busy ∧ x'.2.handled = x.2.handled := by
  obtain ⟨d, h⟩ := x
  dsimp only at hf hq
  cases e with
  | take =>
    simp only [Code.observe, code, Disk.device] at hx
    split at hx
    · contradiction
    · obtain ⟨rfl, -⟩ := Prod.mk.inj (Except.ok.inj hx)
      exact ⟨serves_take hf hq ‹_› rfl, rfl, rfl⟩
  | complete i =>
    simp only [Code.observe, code, Disk.device] at hx
    split at hx
    · rename_i hi
      have hin : i ∈ d.queued := List.mem_append_left _ (List.mem_append_right _ hi)
      rw [(hf.linked i (hq.out hin)).status] at hx
      obtain ⟨rfl, -⟩ := Prod.mk.inj (Except.ok.inj hx)
      exact ⟨serves_complete hf hq hi rfl, rfl, rfl⟩
    · contradiction

/-- Starting a transfer only takes the buffer's lock. -/
theorem start_cases {x x' : Disk × History} {c : ℕ} {a : Ask} {l : Loc}
    (hx : observed.start x c a = .ok (x', l)) :
    (x' = x ∧ l = .intr) ∨ ∃ q, l = .rw q .alloc ∧ x.1.holder q.b = none ∧
      x' = ({ x.1 with holder := Function.update x.1.holder q.b (some c) }, x.2) := by
  cases a with
  | intr =>
    obtain ⟨rfl, rfl⟩ := Prod.mk.inj (Except.ok.inj hx)
    exact .inl ⟨rfl, rfl⟩
  | rw q =>
    simp only [Code.observe, code] at hx
    split at hx
    · obtain ⟨rfl, rfl⟩ := Prod.mk.inj (Except.ok.inj hx)
      exact .inr ⟨q, rfl, ‹_›, rfl⟩
    · contradiction

section start
variable {d : Disk} {h : History} {c b : ℕ} (hfree : d.holder b = none)
include hfree

theorem Flights.lockBuf (hf : Flights d) (hnew : ∀ b, d.holder b ≠ some c) :
    Flights { d with holder := Function.update d.holder b (some c) } := by
  refine ⟨⟨hf.parts.chain, hf.parts.disjoint, hf.parts.cover⟩, fun i hi => ?_, hf.one,
    fun i b' hi => ?_, fun b₁ b₂ e h₁ h₂ => ?_⟩
  · exact (hf.linked i hi).congr fun _ _ => rfl
  · have hbb : b' ≠ b := by
      rintro rfl
      exact hf.held i b' hi hfree
    simpa [hbb] using hf.held i b' hi
  · dsimp only at h₁ h₂
    by_cases hb₁ : b₁ = b <;> by_cases hb₂ : b₂ = b
    · exact hb₁.trans hb₂.symm
    · rw [hb₁, Function.update_self] at h₁
      rw [Function.update_of_ne hb₂, ← h₁] at h₂
      exact absurd h₂ (hnew b₂)
    · rw [hb₂, Function.update_self] at h₂
      rw [Function.update_of_ne hb₁, ← h₂] at h₁
      exact absurd h₁ (hnew b₁)
    · rw [Function.update_of_ne hb₁] at h₁
      rw [Function.update_of_ne hb₂] at h₂
      exact hf.alone b₁ b₂ e h₁ h₂

theorem Queues.lockBuf (hq : Queues d h) :
    Queues { d with holder := Function.update d.holder b (some c) } h := by
  refine (hq.keep { d with holder := Function.update d.holder b (some c) } hq.avail rfl rfl rfl
    (fun _ _ => rfl) fun i hi b' hb' => ⟨id, ?_⟩).1
  refine Function.update_of_ne ?_ _ _
  rintro rfl
  obtain ⟨b'', c', hb'', -, hheld, -⟩ := hq.request i hi
  obtain rfl := Option.some.inj (hb'.symm.trans hb'')
  rw [hfree] at hheld
  contradiction

theorem holder_lockBuf {e b' : ℕ} (he : e ≠ c) :
    Function.update d.holder b (some c) b' = some e ↔ d.holder b' = some e := by
  by_cases hbb : b' = b
  · subst hbb
    simp [hfree, Ne.symm he]
  · rw [Function.update_of_ne hbb]

end start

theorem observed_keeps :
    Keeps observed (fun x => Flights x.1 ∧ Queues x.1 x.2) CallOk NewOk where
  start := by
    intro x c a x' l hs hnew hx
    rcases start_cases hx with ⟨rfl, rfl⟩ | ⟨q, rfl, hfree, rfl⟩
    · exact ⟨hs, trivial, fun _ _ _ _ hk => hk, fun _ _ hd => hd⟩
    · have hnob : ∀ i, (x.1.info i).b ≠ some q.b := fun i hi => hs.1.held i q.b hi hfree
      refine ⟨⟨hs.1.lockBuf hfree hnew.1, hs.2.lockBuf hfree⟩,
        ⟨Function.update_self .., hnob, hnew.2⟩, fun e st k he hk => ?_, fun e he hd => ?_⟩
      · exact hk.frame (fun _ => ⟨rfl, rfl, fun _ hi => hi⟩) (fun _ => holder_lockBuf hfree he) rfl
          (fun _ _ _ => Iff.rfl) (fun _ _ _ _ hi => hi) (fun _ _ _ _ hi => hi)
      · exact ⟨fun b hb => hd.1 b ((holder_lockBuf hfree he).1 hb), hd.2⟩
  start_ok := by
    intro x c a f _ hx
    cases a with
    | intr => contradiction
    | rw q =>
      simp only [Code.observe, code] at hx
      split at hx <;> simp [Except.map] at hx
  enter := by
    intro x c l _ hk
    cases l with
    | intr => trivial
    | rw q ph =>
      cases ph with
      | alloc => exact hk
      | publish i => exact nomatch hk.2.1
      | wait i => exact hk
  turn_ok killed hs hok := (turn_leaves killed hs.1 hs.2 hok).imp fun _ hT => hT.1
  turn := by
    intro x c l killed T hs hok hT
    obtain ⟨T', hT', hleaves⟩ := turn_leaves killed hs.1 hs.2 hok
    obtain rfl := Except.ok.inj (hT'.symm.trans hT)
    exact ⟨⟨hleaves.flights, hleaves.queues⟩, hleaves.call, hleaves.others, hleaves.new⟩
  outside_ok := by
    intro x e f _ hx
    cases e with
    | take =>
      simp only [Code.observe, code, Disk.device] at hx
      split at hx <;> simp [Except.map] at hx
    | complete i =>
      simp only [Code.observe, code, Disk.device] at hx
      split at hx <;> simp [Except.map] at hx
  outside := by
    intro x e x' ws hs hx
    obtain ⟨hserves, -⟩ := device_serves hs.1 hs.2 hx
    exact ⟨⟨hserves.flights, hserves.queues⟩, fun e st k _ hk => hserves.calls e st k hk,
      hserves.new⟩

theorem flights_init (availRing usedRing : ℕ → ℕ) (ops : ℕ → BlkReq) (busy : ℕ → Bool) :
    Flights (Disk.init availRing usedRing ops busy) := by
  refine ⟨⟨fun i hi => absurd rfl hi, fun i _ hi => absurd rfl hi, fun _ _ hi => ?_⟩,
    fun i hi => absurd rfl hi, nofun, nofun, nofun⟩
  exact absurd hi (by simp [Disk.init])

theorem queues_init (availRing usedRing : ℕ → ℕ) (ops : ℕ → BlkReq) (busy : ℕ → Bool) :
    Queues (Disk.init availRing usedRing ops busy) ⟨[], [], [], []⟩ := by
  have hpending : (Disk.init availRing usedRing ops busy).pending = [] :=
    (Holds.empty availRing 0).contents_eq fits
  have hposted : (Disk.init availRing usedRing ops busy).posted = [] :=
    (Holds.empty usedRing 0).contents_eq fits
  have hqueued : (Disk.init availRing usedRing ops busy).queued = [] := by
    rw [Disk.queued, hpending, hposted]
    rfl
  constructor
  · rw [hpending]
    exact Holds.empty _ _
  · rw [hposted]
    exact Holds.empty _ _
  · rw [hqueued]
    exact List.nodup_nil
  · rw [hqueued]
    exact nofun
  · rw [hposted]
    exact nofun
  · rw [hpending]
    rfl
  · rw [hposted]
    rfl

/-- What the driver guarantees in a state. -/
structure Protocol (s : DiskState) : Prop where
  parts : Partitioned s.shared.1
  /-- the device takes what was published, in order -/
  avail : s.shared.2.published.map Entry.head = s.shared.2.fetched ++ s.shared.1.pending
  /-- the handler reads back what the device posted, in order, with the buffer of the request -/
  used : s.shared.2.completed.map (fun e => (e.head, some e.buf)) =
    s.shared.2.handled ++ s.shared.1.posted.map fun i => (i, (s.shared.1.info i).b)
  /-- a caller that has returned had its request completed, once -/
  returned : ∀ c q ph r, s.call c = some ⟨.rw q ph, .returned r⟩ →
    ∃ i, s.shared.2.of c = [⟨i, q.b, c⟩]
  /-- `free_desc` and the handler do not panic, and the handler finds a buffer -/
  safe : ∀ e f, observed.step s e ≠ .error (.fault f)

/-- In every run of any number of transfers, interrupts and steps of the device, the descriptors
are the free ones and disjoint chains of three, nothing in the rings is overwritten before it is
read, a caller returns only after its own request was completed, and nothing panics; and a step
that tells a buffer it is done does so for the buffer of the request that was completed. -/
theorem virtio_protocol (availRing usedRing : ℕ → ℕ) (ops : ℕ → BlkReq) (busy : ℕ → Bool)
    (es : List (Event Ask Device)) (s : DiskState)
    (hrun : Runs.run observed.step (init availRing usedRing ops busy) es = .ok s) :
    Protocol s ∧ ∀ e t, observed.step s e = .ok t → Clears s.shared t.shared := by
  have hinv := observed_keeps.run
    ⟨flights_init availRing usedRing ops busy, queues_init availRing usedRing ops busy⟩
    (fun _ => ⟨by simp [Disk.init], rfl⟩) hrun
  obtain ⟨hf, hq⟩ := hinv.shared
  refine ⟨⟨hf.parts, hq.sent, hq.done, fun c q ph r hc => (hinv.calls c _ hc).2,
    fun e f => hinv.no_fault observed_keeps e f⟩, fun e t ht => ?_⟩
  refine Code.step_shared (.inl ⟨fun _ hb => hb, rfl⟩) (fun hx => ?_) (fun hc hT => ?_)
    (fun hx => ?_) ht
  · rcases start_cases hx with ⟨rfl, -⟩ | ⟨q, -, -, rfl⟩ <;> exact .inl ⟨fun _ hb => hb, rfl⟩
  · obtain ⟨T', hT', hleaves⟩ := turn_leaves _ hf hq (hinv.calls _ _ hc)
    obtain rfl := Except.ok.inj (hT'.symm.trans hT)
    exact hleaves.clears
  · obtain ⟨-, hbusy, hhandled⟩ := device_serves hf hq hx
    exact .inl ⟨fun b hb => by rw [hbusy, hb], hhandled⟩

/-- A read of block 7 into buffer 5 goes out, is completed and returns. -/
def oneRead : List (Event Ask Device) :=
  [.start 0 (.rw ⟨5, 7, false⟩), .run 0 false, .run 0 false, .run 0 false, .run 0 false,
    .outside .take, .outside (.complete 0), .start 1 .intr, .run 1 false, .run 1 false,
    .run 1 false, .run 0 false, .run 0 false]

theorem virtio_protocol_oneRead :
    ∃ s, Runs.run observed.step (init (fun _ => 0) (fun _ => 0) (fun _ => ⟨0, 0, 0⟩)
        fun _ => false) oneRead = .ok s ∧
      s.shared.2.handled = [(0, some 5)] ∧ s.shared.2.of 0 = [⟨0, 5, 0⟩] ∧ Protocol s := by
  obtain ⟨s, hrun, hhandled, hof⟩ : ∃ s, Runs.run observed.step (init (fun _ => 0) (fun _ => 0)
      (fun _ => ⟨0, 0, 0⟩) fun _ => false) oneRead = .ok s ∧
      s.shared.2.handled = [(0, some 5)] ∧ s.shared.2.of 0 = [⟨0, 5, 0⟩] :=
    ⟨_, rfl, by decide, by decide⟩
  exact ⟨s, hrun, hhandled, hof, (virtio_protocol _ _ _ _ _ s hrun).1⟩

end Xv6.Virtio
