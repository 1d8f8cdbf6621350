import Xv6.Disk.Ops
import Xv6.Lib.Runs

/-! Runs of operations on files, with commits of the log, crashes, and buffers that leave the cache in
between. -/
namespace Xv6.Disk
open Bytes Function Program Owners Runs

/-- An operation, on an inode that its caller has locked. -/
inductive Op (sb : SuperBlock) where
  | lock (i : Fin sb.ninodes)
  | recycle (i : ℕ)
  | read (i : ℕ) (dst : ℕ → Bool) (off n : UInt32)
  | write (i : ℕ) (src : ℕ → Option Byte) (off n : UInt32)
  | trunc (i : ℕ)
  | alloc (type : {type : Int16 // type ≠ 0})
  | setAttrs (i : ℕ) (major minor nlink : Int16)
  | free (i : ℕ)
  | commit
  | crash
  | evict (b : ℕ)

/-- What an operation returns. -/
inductive Out where
  | done
  | inum (i : ℕ)
  | read (bs : List Byte) (r : Option ℕ)
  | wrote (r : Option ℕ)
  deriving DecidableEq, Repr

/-- The log writes the blocks of the transaction to their homes. -/
def State.commit (s : State) : State :=
  { s with home := fun b => if b ∈ s.logged then s.cache b else s.home b, logged := ∅ }

/-- After a crash and the recovery of the log: memory is lost with what had not been committed. -/
def State.crash (s : State) : State := ⟨s.home, s.home, ∅, fun _ => none⟩

/-- A buffer that the log does not hold is used for another block. -/
def evict (b : ℕ) : DiskM Unit := do
  let s ← get
  if b ∈ s.logged then throw .blocked
  else set (s.put b (s.home b))

section runs
variable {sb : SuperBlock}

def Op.run : Op sb → DiskM Out
  | lock i => do
    iload sb i
    return .done
  | recycle i => do
    modify fun s => s.hold i none
    return .done
  | read i dst off n => do
    let (bs, r) ← readi sb i dst off n
    return .read bs r
  | write i src off n => do
    let r ← writei sb i src off n
    return .wrote r
  | trunc i => do
    let _ ← inode i
    itrunc sb i
    return .done
  | alloc type => do
    let i ← ialloc sb type
    return .inum i
  | setAttrs i major minor nlink => do
    Disk.setAttrs sb i major minor nlink
    return .done
  | free i => do
    let ip ← inode i
    if ip.nlink = 0 then
      ifree sb i
      return .done
    else throw .blocked
  | commit => do
    modify State.commit
    return .done
  | crash => do
    modify State.crash
    return .done
  | evict b => do
    Disk.evict b
    return .done

def runOps : List (Op sb) → DiskM (List Out)
  | [] => return []
  | op :: ops => do
    let out ← op.run
    let outs ← runOps ops
    return out :: outs

/-- What an operation does to the files `F`, of which `S` are on the disk for good. The content of a
file is just a list of bytes. -/
def Op.apply (F S : ℕ → File) : Op sb → Out × (ℕ → File) × (ℕ → File)
  | read i dst off n =>
    let r := readSpec (F i).content dst off n
    (.read r.1 r.2, F, S)
  | write i src off n =>
    if Accepts (F i).content off n then
      (.wrote (some n.toNat), update F i { F i with
        content := splice (F i).content off.toNat (copied src 0 n.toNat) }, S)
    else (.wrote none, F, S)
  | trunc i => (.done, update F i { F i with content := [] }, S)
  | alloc type =>
    match (List.range' 1 (sb.ninodes - 1)).find? fun i => (F i).type = 0 with
    | some i => (.inum i, update F i ⟨type, 0, 0, 0, []⟩, S)
    | none => (.done, F, S)
  | setAttrs i major minor nlink =>
    (.done, update F i { F i with major := major, minor := minor, nlink := nlink }, S)
  | free i => (.done, update F i .free, S)
  | commit => (.done, F, F)
  | crash => (.done, S, S)
  | lock _ | recycle _ | evict _ => (.done, F, S)

def applyAll (F S : ℕ → File) : List (Op sb) → List Out × (ℕ → File) × (ℕ → File)
  | [] => ([], F, S)
  | op :: ops =>
    let r := op.apply F S
    let rest := applyAll r.2.1 r.2.2 ops
    (r.1 :: rest.1, rest.2)

/-- All of the source of a write can be read. -/
def Op.Complete : Op sb → Prop
  | write _ src _ n => (copied src 0 n.toNat).length = n.toNat
  | _ => True

instance : (op : Op sb) → Decidable op.Complete
  | .write _ src _ n => inferInstanceAs (Decidable ((copied src 0 n.toNat).length = n.toNat))
  | .lock _ | .recycle _ | .read .. | .trunc _ | .alloc _ | .setAttrs .. | .free _ | .commit | .crash |
    .evict _ =>
    inferInstanceAs (Decidable True)

/-- The stops of the operations: a caller that does not hold the inode, a full disk, no free inode, and
an inode that is not allocated. The panics of `log_write` are not among them: a transaction is taken
to fit the log. -/
def DiskStop (e : Stop) : Prop :=
  e = .blocked ∨ e = .panic .balloc ∨ e = .panic .ialloc ∨ e = .panic .ilockNoType

/-- The disk is sound, and would be after a crash. -/
abbrev Safe (sb : SuperBlock) (s : State) : Prop := Good sb s ∧ Good sb s.crash

variable {s s' : State} {i : ℕ}

theorem crash_eq (h : s'.home = s.home) : s'.crash = s.crash := by
  rw [State.crash, State.crash, h]

theorem stale_of_commit {b : ℕ} (hb : Stale s.commit b) : Stale s b := by
  have hne : s.cache b ≠ if b ∈ s.logged then s.cache b else s.home b := hb.2
  split_ifs at hne with hlogged
  · exact absurd rfl hne
  · exact ⟨hlogged, hne⟩

theorem Good.commit (h : Good sb s) : Good sb s.commit :=
  h.congr rfl rfl rfl h.valid fun _ => stale_of_commit

theorem Coherent.commit (h : Coherent s) : Coherent s.commit := fun b hb => h b (stale_of_commit hb)

section reread
variable {c : ℕ → Block} (hc : ∀ b, c b ≠ s.cache b → b ∉ s.logged ∧ c b = s.home b)
include hc

theorem stale_of_reread {b : ℕ} (hb : c b ≠ s.cache b) : Stale s b :=
  ⟨(hc b hb).1, fun hsame => hb ((hc b hb).2.trans hsame.symm)⟩

/-- Only blocks of content can be other ones when they are read again. -/
theorem Good.reread (h : Good sb s) : Good sb { s with cache := c } := by
  have hread : Reread sb s { s with cache := c } :=
    ⟨rfl, fun b hb => h.clean b (stale_of_reread hc hb)⟩
  refine ((h.but 0).reread hread rfl rfl).good fun ip hip => ?_
  rw [hread.node]
  exact h.valid 0 ip hip

theorem Coherent.reread (h : Coherent s) : c = s.cache := by
  funext b
  by_contra hb
  exact h b (stale_of_reread hc hb)

end reread

theorem reread_home {b : ℕ} (hb : b ∉ s.logged) (a : ℕ)
    (ha : update s.cache b (s.home b) a ≠ s.cache a) :
    a ∉ s.logged ∧ update s.cache b (s.home b) a = s.home a := by
  obtain rfl : a = b := by
    by_contra hne
    exact ha (update_of_ne hne ..)
  exact ⟨hb, update_self ..⟩

theorem Good.commit_crash (h : Good sb s) : Good sb s.commit.crash := by
  have hread : Good sb { s.commit with cache := s.commit.home } :=
    h.commit.reread fun b _ => ⟨Finset.notMem_empty b, rfl⟩
  exact (hread.forget fun _ => .inl rfl).1

theorem Good.files_commit_crash (h : Good sb s) (hs : Coherent s) :
    files sb s.commit.crash = files sb s := by
  have hcache : s.commit.home = s.commit.cache :=
    hs.commit.reread fun b _ => ⟨Finset.notMem_empty b, rfl⟩
  calc files sb s.commit.crash
      = files sb { s.commit with table := fun _ => none } :=
        congrArg (fun c => files sb ⟨c, s.commit.home, ∅, fun _ => none⟩) hcache
    _ = files sb s.commit := (h.commit.forget fun _ => .inl rfl).2
    _ = files sb s := rfl

section written
variable {src : ℕ → Option Byte} {off n : UInt32} {r : Option ℕ}
  (h : Written sb s s' i src off n r)
include h

theorem Written.home : s'.home = s.home := by
  cases h with
  | rejected _ heq => rw [heq]
  | full _ _ _ hlog =>
    obtain ⟨s₁, hwrote, hgrows⟩ := hlog
    exact hgrows.home.trans hwrote.grows.home
  | cut w _ hcut =>
    obtain ⟨s₁, hcut, hgrows⟩ := hcut
    obtain ⟨s₂, s₃, b, hwrote, hmapped, rfl⟩ := hcut.ex
    exact hgrows.home.trans (hmapped.grown.grows.home.trans hwrote.grows.home)

theorem Written.coherent (hfull : (copied src 0 n.toNat).length = n.toNat)
    (hs : Coherent s) : Coherent s' := by
  cases h with
  | rejected _ heq => rwa [heq]
  | full _ _ _ hlog =>
    obtain ⟨s₁, hwrote, hgrows⟩ := hlog
    exact hgrows.coherent (hwrote.grows.coherent hs)
  | cut w _ hcut =>
    obtain ⟨s₁, hcut, -⟩ := hcut
    exact absurd hfull (Nat.ne_of_lt hcut.lt)

theorem Written.apply {S : ℕ → File} (hfull : (copied src 0 n.toNat).length = n.toNat) :
    (Out.wrote r, files sb s', S) = (Op.write i src off n : Op sb).apply (files sb s) S := by
  rw [Op.apply]
  cases h with
  | rejected hnot heq => rw [if_neg hnot, heq]
  | full haccepts _ hfiles _ => rw [if_pos haccepts, hfiles]
  | cut w _ hcut =>
    obtain ⟨s₁, hcut, -⟩ := hcut
    exact absurd hfull (Nat.ne_of_lt hcut.lt)

end written

/-- One operation: the disk stays sound, and as long as every copy succeeds the cache stays coherent and
the files are those of the operation on byte lists. -/
theorem Safe.wp_run (hsafe : Safe sb s) (op : Op sb) :
    wp op.run DiskStop s fun out s' => Safe sb s' ∧ (op.Complete → Coherent s → Coherent s' ∧
      (out, files sb s', files sb s'.crash) = op.apply (files sb s) (files sb s.crash)) := by
  obtain ⟨h, hcrash⟩ := hsafe
  cases op with
  | lock i =>
    rw [Op.run, wp_bind]
    refine wp_mono (h.wp_iload i.isLt fun _ => .inr (.inr (.inr rfl))) fun _ s' hs' => ?_
    obtain ⟨hgood, hfiles, hgrows, -⟩ := hs'
    rw [wp_pure, Safe, crash_eq hgrows.home]
    exact ⟨⟨hgood, hcrash⟩, fun _ hs => ⟨hgrows.coherent hs, by rw [hfiles, Op.apply]⟩⟩
  | recycle i =>
    simp only [Op.run, wp_bind, wp_modify, wp_pure]
    obtain ⟨hgood, hfiles⟩ := h.forget (t := update s.table i none) fun j => by
      by_cases hj : j = i
      · exact .inl (hj ▸ update_self ..)
      · exact .inr (update_of_ne hj ..)
    exact ⟨⟨hgood, hcrash⟩, fun _ hs => ⟨hs, congrArg (fun F => (Out.done, F, files sb s.crash)) hfiles⟩⟩
  | read i dst off n =>
    rw [Op.run, wp_bind]
    cases hip : s.table i with
    | none =>
      rw [readi, wp_bind, wp_inode_none hip]
      exact .inl rfl
    | some ip =>
      refine wp_mono (h.wp_readi hip dst off n) fun r s' hr => ?_
      obtain ⟨rfl, rfl⟩ := hr
      dsimp only
      rw [wp_pure]
      exact ⟨⟨h, hcrash⟩, fun _ hs => ⟨hs, rfl⟩⟩
  | write i src off n =>
    rw [Op.run, wp_bind]
    cases hip : s.table i with
    | none =>
      rw [writei, wp_bind, wp_inode_none hip]
      exact .inl rfl
    | some ip =>
      refine wp_mono (h.wp_writei hip (.inr (.inl rfl)) src off n) fun r s' hr => ?_
      rw [wp_pure, Safe, crash_eq hr.2.home]
      exact ⟨⟨hr.1, hcrash⟩, fun hfull hs => ⟨hr.2.coherent hfull hs, hr.2.apply hfull⟩⟩
  | trunc i =>
    rw [Op.run, wp_bind]
    cases hip : s.table i with
    | none =>
      rw [wp_inode_none hip]
      exact .inl rfl
    | some ip =>
      rw [wp_inode hip, wp_bind]
      refine wp_mono (h.wp_itrunc hip) fun _ s' hs' => ?_
      obtain ⟨hgood, -, hfiles, hgrows⟩ := hs'
      rw [wp_pure, Safe, crash_eq hgrows.home]
      exact ⟨⟨hgood, hcrash⟩, fun _ hs => ⟨hgrows.coherent hs, by rw [hfiles, Op.apply]⟩⟩
  | alloc type =>
    rw [Op.run, wp_bind, ialloc]
    have hlt : ∀ i ∈ List.range' 1 (sb.ninodes - 1), i < sb.ninodes := by
      intro i hi
      obtain ⟨hge, hlt⟩ := List.mem_range'_1.1 hi
      omega
    refine wp_mono (h.wp_iallocFrom (.inr (.inr (.inl rfl))) type.2 _ hlt) fun i s' hs' => ?_
    obtain ⟨hgood, hfind, hfiles, hgrows⟩ := hs'
    rw [wp_pure, Safe, crash_eq hgrows.home]
    exact ⟨⟨hgood, hcrash⟩, fun _ hs => ⟨hgrows.coherent hs, by simp only [Op.apply, hfind, hfiles]⟩⟩
  | setAttrs i major minor nlink =>
    rw [Op.run, wp_bind]
    cases hip : s.table i with
    | none =>
      rw [Disk.setAttrs, wp_bind, wp_inode_none hip]
      exact .inl rfl
    | some ip =>
      refine wp_mono (h.wp_setAttrs hip major minor nlink) fun _ s' hs' => ?_
      obtain ⟨hgood, hfiles, hgrows⟩ := hs'
      rw [wp_pure, Safe, crash_eq hgrows.home]
      exact ⟨⟨hgood, hcrash⟩, fun _ hs => ⟨hgrows.coherent hs, by rw [hfiles, Op.apply]⟩⟩
  | free i =>
    rw [Op.run, wp_bind]
    cases hip : s.table i with
    | none =>
      rw [wp_inode_none hip]
      exact .inl rfl
    | some ip =>
      rw [wp_inode hip]
      by_cases hnlink : ip.nlink = 0
      · rw [if_pos hnlink, wp_bind]
        refine wp_mono (h.wp_ifree hip) fun _ s' hs' => ?_
        obtain ⟨hgood, hfiles, hgrows⟩ := hs'
        rw [wp_pure, Safe, crash_eq hgrows.home]
        exact ⟨⟨hgood, hcrash⟩, fun _ hs => ⟨hgrows.coherent hs, by rw [hfiles, Op.apply]⟩⟩
      · rw [if_neg hnlink, wp_throw]
        exact .inl rfl
  | commit =>
    simp only [Op.run, wp_bind, wp_modify, wp_pure]
    refine ⟨⟨h.commit, h.commit_crash⟩, fun _ hs => ⟨hs.commit, ?_⟩⟩
    rw [h.files_commit_crash hs, Op.apply]
    rfl
  | crash =>
    simp only [Op.run, wp_bind, wp_modify, wp_pure]
    exact ⟨⟨hcrash, hcrash⟩, fun _ _ => ⟨fun _ hb => hb.2 rfl, rfl⟩⟩
  | evict b =>
    simp only [Op.run, Disk.evict, wp_bind, wp_get]
    by_cases hb : b ∈ s.logged
    · rw [if_pos hb, wp_throw]
      exact .inl rfl
    · rw [if_neg hb, wp_set, wp_pure]
      refine ⟨⟨h.reread (reread_home hb), hcrash⟩, fun _ hs => ?_⟩
      rw [State.put, hs.reread (reread_home hb)]
      exact ⟨hs, rfl⟩

/-- The inode layer implements files: in every run of operations whose copies succeed, with commits,
crashes and buffers that leave the cache in any places, the operations return and leave what they do on
files that are lists of bytes; a crash goes back to the files of the last commit. -/
theorem files_refined (h : Safe sb s) (hs : Coherent s) (ops : List (Op sb))
    (hops : ∀ op ∈ ops, op.Complete) :
    wp (runOps ops) DiskStop s fun outs s' =>
      (outs, files sb s', files sb s'.crash) = applyAll (files sb s) (files sb s.crash) ops ∧
        Safe sb s' ∧ Coherent s' := by
  induction ops generalizing s with
  | nil =>
    rw [runOps, wp_pure]
    exact ⟨rfl, h, hs⟩
  | cons op ops ih =>
    rw [runOps, wp_bind]
    refine wp_mono (h.wp_run op) fun out s₁ hs₁ => ?_
    obtain ⟨hcoherent, happly⟩ := hs₁.2 (hops op List.mem_cons_self) hs
    rw [wp_bind]
    refine wp_mono (ih hs₁.1 hcoherent fun op' hop' => hops op' (List.mem_cons_of_mem _ hop'))
      fun outs s' hs' => ?_
    obtain ⟨hall, hsafe, hcoherent'⟩ := hs'
    rw [wp_pure]
    refine ⟨?_, hsafe, hcoherent'⟩
    rw [applyAll, ← happly, ← hall]

/-- A disk on which every inode is empty, with a bitmap that has only the blocks before the data area. -/
theorem good_of_empty (hs : Coherent s) (htable : ∀ i, s.table i = none) (hsize : sb.datastart ≤ sb.size)
    (hused : ∀ b < sb.size, (view sb s).used b = true ↔ b < sb.datastart)
    (hnode : ∀ i < sb.ninodes, ((view sb s).node i).size = 0 ∧ ∀ k, ((view sb s).node i).addrs k = 0) :
    Good sb s := by
  have hnodes : ∀ i, (view sb s).nodes i = (view sb s).node i := fun i => nodes_none (htable i)
  have howns : ∀ p b, (view sb s).owns sb p ≠ some b := by
    intro p b hp
    have hzero : ∀ k, ((view sb s).nodes p.inum).addrs k = 0 := by
      rw [hnodes]
      exact (hnode _ (owns_eq_some.1 hp).1.1).2
    rw [View.owns, owns_of_addrs_zero hzero rfl] at hp
    contradiction
  have hzero : ∀ i, Live sb (view sb s).nodes i → ((view sb s).nodes i).size = 0 := by
    intro i hi
    rw [hnodes]
    exact (hnode i hi.1).1
  refine ⟨⟨⟨fun p _ b hp => absurd hp (howns p b), fun p b hp => absurd hp (howns p b), fun b => ?_⟩,
    fun i hi k hk => ?_, fun i hi => ?_, fun b hb => absurd hb (hs b)⟩, fun i ip hip => ?_⟩
  · have hnone : ¬∃ p, (view sb s).owns sb p = some b := not_exists.2 fun p => howns p b
    rw [or_iff_left hnone]
    by_cases hb : b < sb.size
    · exact hused b hb
    · have hnot : (view sb s).used b = false :=
        Bool.and_eq_false_imp.2 fun h => absurd (of_decide_eq_true h) hb
      rw [hnot]
      exact ⟨fun h => absurd h Bool.false_ne_true, fun hlt => absurd (hlt.trans_le hsize) hb⟩
  · rw [hzero i hi] at hk
    exact absurd hk (Nat.not_lt_zero _)
  · rw [hzero i hi]
    exact Nat.zero_le _
  · rw [htable] at hip
    contradiction

/-- A disk of 64 blocks with an empty file, inode 1; the data area begins at block 5. -/
def blankSb : SuperBlock := ⟨64, 20, 2, 4, by decide, by decide⟩

def blankDisk (b : ℕ) : Block :=
  if b = 2 then fun k => if k = 64 then 2 else 0
  else if b = 4 then fun k => if k = 0 then 31 else 0
  else fun _ => 0

def blank : State := ⟨blankDisk, blankDisk, ∅, fun _ => none⟩

theorem blank_coherent : Coherent blank := fun _ hb => hb.2 rfl

theorem blank_good : Good blankSb blank :=
  good_of_empty blank_coherent (fun _ => rfl) (by decide) (by decide +kernel) (by decide +kernel)

theorem blank_safe : Safe blankSb blank := ⟨blank_good, blank_good⟩

/-- A file is made, written and committed, and read after its block has left the cache and a crash has
undone another write. -/
def sampleOps : List (Op blankSb) :=
  [.alloc ⟨2, by decide⟩, .lock ⟨2, by decide⟩, .write 2 (fun _ => some 7) 0 3, .commit, .evict 5,
    .write 2 (fun _ => some 8) 1 4, .crash, .lock ⟨2, by decide⟩, .read 2 (fun _ => true) 1 9]

theorem files_refined_blank : (runOps sampleOps blank).isOk = true ∧
    wp (runOps sampleOps) DiskStop blank fun outs s' =>
      (outs, files blankSb s', files blankSb s'.crash) =
          applyAll (files blankSb blank) (files blankSb blank.crash) sampleOps ∧
        Safe blankSb s' ∧ Coherent s' :=
  ⟨by decide +kernel, files_refined blank_safe blank_coherent sampleOps (by decide +kernel)⟩

/-- The state in which an operation leaves the disk. -/
def step (sb : SuperBlock) (s : State) (op : Op sb) : Except Stop State := exec op.run s

/-- In every run of operations, with copies that may fail, every state is sound, as a crash in it would
leave a sound disk, nothing but the stops of `DiskStop` ends the run, and a read in any state of it finds
every block of the file allocated. -/
theorem disk_stays_good (h : Safe sb s) (ops : List (Op sb)) :
    Throughout (step sb) (fun s' => Safe sb s' ∧ ∀ i ip dst off n, s'.table i = some ip →
      ∃ r, readi sb i dst off n s' = .ok (r, s')) s ops ∧
      ∀ e, run (step sb) s ops = .error e → DiskStop e := by
  have hsafe : ∀ {t : State}, Safe sb t → Safe sb t ∧ ∀ i ip dst off n, t.table i = some ip →
      ∃ r, readi sb i dst off n t = .ok (r, t) := by
    refine fun {t} ht => ⟨ht, fun i ip dst off n hip => ?_⟩
    obtain ⟨r, t', hrun, rfl, -⟩ :=
      exists_of_wp (E := fun _ => False) (fun _ => id) (ht.1.wp_readi hip dst off n)
    exact ⟨r, hrun⟩
  have hstep : ∀ {t u : State} {op : Op sb}, Safe sb t → step sb t op = .ok u → Safe sb u := by
    intro t u op ht hu
    exact exec_ok (P := Safe sb) (wp_mono (ht.wp_run op) fun _ _ hs => hs.1) hu
  constructor
  · intro pre t _ hrun
    exact hsafe (run_inv (Safe sb) (fun _ _ _ ht hu => hstep ht hu) h hrun)
  · intro e herror
    obtain ⟨pre, op, post, t, -, hrun, hop⟩ := run_error herror
    have ht : Safe sb t := run_inv (Safe sb) (fun _ _ _ ht hu => hstep ht hu) h hrun
    exact exec_error (ht.wp_run op) hop

theorem disk_stays_good_blank :
    Throughout (step blankSb) (fun s' => Safe blankSb s' ∧ ∀ i ip dst off n, s'.table i = some ip →
      ∃ r, readi blankSb i dst off n s' = .ok (r, s')) blank sampleOps ∧
      ∀ e, run (step blankSb) blank sampleOps = .error e → DiskStop e :=
  disk_stays_good blank_safe sampleOps

end runs
end Xv6.Disk
