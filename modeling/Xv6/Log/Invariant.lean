import Xv6.Log.History

/-!
The log's invariant. Whatever the disk holds, read through the header block it is the
state after the durable transactions. This module shows that file-system operations, cache
traffic and crashes keep it.
-/
namespace Xv6.Log
variable {L : Layout} {d D : ℕ → Block} {disk : ℕ → Block}

@[simp] theorem bwrite_disk (s : State) (b : ℕ) (x : Block) :
    (s.bwrite b x).disk = Function.update s.disk b x := rfl

@[simp] theorem bwrite_cache (s : State) (b : ℕ) (x : Block) :
    (s.bwrite b x).cache = Function.update s.cache b (some x) := rfl

@[simp] theorem bwrite_lh (s : State) (b : ℕ) (x : Block) : (s.bwrite b x).lh = s.lh := rfl

theorem slot_inLog {i : ℕ} (h : i + 1 < L.size) : L.InLog (L.slot i) := by
  unfold Layout.InLog Layout.slot
  omega

theorem start_inLog : L.InLog L.start := ⟨le_rfl, by have := L.pos; omega⟩

theorem slot_ne_start (i : ℕ) : L.slot i ≠ L.start := by
  unfold Layout.slot
  omega

theorem slot_injective {i j : ℕ} (h : L.slot i = L.slot j) : i = j := by
  unfold Layout.slot at h
  omega

/-- The disk stands for `D`: a block named by the header has its `D` contents in its log
slot, every other block outside the log has them at home. -/
structure DiskOk (L : Layout) (disk D : ℕ → Block) (head : List ℕ) : Prop where
  read : decodeHead (disk L.start) = head
  room : head.length < L.size
  home : ∀ b ∈ head, ¬ L.InLog b
  slot : ∀ i < head.length, disk (L.slot i) = D (head.getD i 0)
  rest : ∀ b, ¬ L.InLog b → b ∉ head → disk b = D b

/-- Log slots may be overwritten while the header is empty. -/
theorem DiskOk.writeSlot (h : DiskOk L disk D []) {i : ℕ} (hi : i + 1 < L.size) (x : Block) :
    DiskOk L (Function.update disk (L.slot i) x) D [] where
  read := by rw [Function.update_of_ne (slot_ne_start i).symm]; exact h.read
  room := h.room
  home := h.home
  slot := by simp
  rest b hb hn := by
    have hne : b ≠ L.slot i := by rintro rfl; exact hb (slot_inLog hi)
    rw [Function.update_of_ne hne]
    exact h.rest b hb hn

/-- The header write is the commit point: the disk switches from `D` to `E`. -/
theorem DiskOk.writeHead (h : DiskOk L disk D []) {E : ℕ → Block} {lh : List ℕ} {x : Block}
    (hx : decodeHead x = lh) (hroom : lh.length < L.size) (hhome : ∀ b ∈ lh, ¬ L.InLog b)
    (hslot : ∀ i < lh.length, disk (L.slot i) = E (lh.getD i 0))
    (hrest : ∀ b, b ∉ lh → E b = D b) :
    DiskOk L (Function.update disk L.start x) E lh where
  read := by rw [Function.update_self]; exact hx
  room := hroom
  home := hhome
  slot i hi := by
    rw [Function.update_of_ne (slot_ne_start i)]
    exact hslot i hi
  rest b hb hn := by
    have hne : b ≠ L.start := by rintro rfl; exact hb start_inLog
    rw [Function.update_of_ne hne, hrest b hn]
    exact h.rest b hb (by simp)

/-- Installing a block writes the contents it already stands for. -/
theorem DiskOk.install {head : List ℕ} (h : DiskOk L disk D head) {i : ℕ}
    (hi : i < head.length) :
    DiskOk L (Function.update disk (head.getD i 0) (disk (L.slot i))) D head := by
  have hmem : head.getD i 0 ∈ head := by simp [hi]
  have hout := h.home _ hmem
  have hslots (j : ℕ) (hj : j < head.length) : L.slot j ≠ head.getD i 0 := by
    intro he
    have hroom := h.room
    exact hout (he ▸ slot_inLog (by omega))
  refine ⟨?_, h.room, h.home, ?_, ?_⟩
  · have hne : L.start ≠ head.getD i 0 := by intro he; exact hout (he ▸ start_inLog)
    rw [Function.update_of_ne hne]
    exact h.read
  · intro j hj
    rw [Function.update_of_ne (hslots j hj)]
    exact h.slot j hj
  · intro b hb hn
    have hne : b ≠ head.getD i 0 := by rintro rfl; exact hn hmem
    rw [Function.update_of_ne hne]
    exact h.rest b hb hn

/-- Once every home block is in place the header may be erased. -/
theorem DiskOk.erase {x : Block} (hx : decodeHead x = [])
    (hall : ∀ b, ¬ L.InLog b → disk b = D b) :
    DiskOk L (Function.update disk L.start x) D [] where
  read := by rw [Function.update_self]; exact hx
  room := L.pos
  home := by simp
  slot := by simp
  rest b hb _ := by
    have hne : b ≠ L.start := by rintro rfl; exact hb start_inLog
    rw [Function.update_of_ne hne]
    exact hall b hb

/-- No operation is in progress and the open transaction is empty. -/
structure Quiet (s : State) (h : Hist) : Prop where
  active : s.active = []
  outstanding : s.outstanding = 0
  cur : h.cur = ⟨[], []⟩

/-- Every logged block is pinned in the cache with its newest contents, and the blocks
that are not logged have not changed since the last durable transaction. -/
structure Buffered (d : ℕ → Block) (s : State) (h : Hist) : Prop where
  cached : ∀ b ∈ s.lh, s.cache b = some (h.view d b)
  pinned : ∀ b ∈ s.lh, 0 < s.pin b
  clean : ∀ b, b ∉ s.lh → h.view d b = h.committed d b
  fits : s.lh.length ≤ logsize

/-- The first `tail` blocks of the header are installed, on disk and in the cache. -/
structure Installed (L : Layout) (d : ℕ → Block) (s : State) (h : Hist) (tail : ℕ) :
    Prop where
  head : decodeHead (s.disk L.start) = s.lh
  le : tail ≤ s.lh.length
  done : ∀ i < tail, s.disk (s.lh.getD i 0) = h.committed d (s.lh.getD i 0)
  cache : ∀ i < tail, ∀ x, s.cache (s.lh.getD i 0) = some x → x = s.disk (s.lh.getD i 0)

/-- All durable contents are at home. -/
def AtHome (L : Layout) (d : ℕ → Block) (s : State) (h : Hist) : Prop :=
  s.lh = [] ∧ ∀ b, ¬ L.InLog b → s.disk b = h.committed d b

/-- What each phase of the committing or recovering thread has established. -/
def PhaseInv (L : Layout) (d : ℕ → Block) (s : State) (h : Hist) : Prop :=
  let head := decodeHead (s.disk L.start)
  match s.phase with
  | .running => head = [] ∧ s.committing = false ∧ h.durable = h.closed.length ∧ Buffered d s h
  | .writeLog tail =>
    head = [] ∧ s.committing = true ∧ h.closed.length = h.durable + 1 ∧ Quiet s h ∧
      Buffered d s h ∧ tail ≤ s.lh.length ∧
      ∀ i < tail, s.disk (L.slot i) = h.view d (s.lh.getD i 0)
  | .writeHead =>
    head = [] ∧ s.committing = true ∧ h.closed.length = h.durable + 1 ∧ Quiet s h ∧
      Buffered d s h ∧ ∀ i < s.lh.length, s.disk (L.slot i) = h.view d (s.lh.getD i 0)
  | .install tail =>
    s.committing = true ∧ h.durable = h.closed.length ∧ Quiet s h ∧ Installed L d s h tail
  | .eraseHead => s.committing = true ∧ h.durable = h.closed.length ∧ Quiet s h ∧ AtHome L d s h
  | .finish =>
    head = [] ∧ s.committing = true ∧ h.durable = h.closed.length ∧ Quiet s h ∧ s.lh = []
  | .readHead => s.committing = false ∧ h.durable = h.closed.length ∧ Quiet s h ∧ s.lh = []
  | .recover tail =>
    s.committing = false ∧ h.durable = h.closed.length ∧ Quiet s h ∧ Installed L d s h tail
  | .recoverErase =>
    s.committing = false ∧ h.durable = h.closed.length ∧ Quiet s h ∧ AtHome L d s h

/-- The part of the invariant that every phase shares. -/
structure Base (L : Layout) (d : ℕ → Block) (s : State) (h : Hist) : Prop where
  disk : DiskOk L s.disk (h.committed d) (decodeHead (s.disk L.start))
  home : ∀ b ∈ s.lh, b < 2 ^ 32 ∧ ¬ L.InLog b
  room : s.lh.length < L.size
  cache : ∀ b x, s.cache b = some x → b ∉ s.lh → x = s.disk b

structure Inv (L : Layout) (d : ℕ → Block) (s : State) (h : Hist) : Prop
    extends Base L d s h where
  phase : PhaseInv L d s h

variable {s : State} {h : Hist}

section
variable (hi : Inv L d s h)
include hi

theorem Inv.durable_le : h.durable ≤ h.closed.length := by
  have hp := hi.phase
  unfold PhaseInv at hp
  cases hs : s.phase <;> simp only [hs] at hp <;> omega

/-- Operations are in progress only while the log is neither committing nor recovering. -/
theorem Inv.running_of_active (ha : s.active ≠ []) : s.phase = .running := by
  have hp := hi.phase
  unfold PhaseInv at hp
  cases hs : s.phase with
  | running => rfl
  | writeLog tail => simp only [hs] at hp; exact absurd hp.2.2.2.1.active ha
  | writeHead => simp only [hs] at hp; exact absurd hp.2.2.2.1.active ha
  | install tail => simp only [hs] at hp; exact absurd hp.2.2.1.active ha
  | eraseHead => simp only [hs] at hp; exact absurd hp.2.2.1.active ha
  | finish => simp only [hs] at hp; exact absurd hp.2.2.2.1.active ha
  | readHead => simp only [hs] at hp; exact absurd hp.2.2.1.active ha
  | recover tail => simp only [hs] at hp; exact absurd hp.2.2.1.active ha
  | recoverErase => simp only [hs] at hp; exact absurd hp.2.2.1.active ha

theorem Inv.running_of_idle (hc : s.committing = false)
    (hr : s.recovering = false) : s.phase = .running := by
  have hp := hi.phase
  unfold PhaseInv at hp
  unfold State.recovering at hr
  cases hs : s.phase <;> simp_all

theorem Inv.running (hs : s.phase = .running) :
    decodeHead (s.disk L.start) = [] ∧ s.committing = false ∧ h.durable = h.closed.length ∧
      Buffered d s h := by
  have hp := hi.phase
  unfold PhaseInv at hp
  simpa only [hs] using hp

/-- With nothing in progress the home blocks hold the durable contents. -/
theorem Inv.atHome (hs : s.phase = .running) (b : ℕ) (hb : ¬ L.InLog b) :
    s.disk b = h.committed d b :=
  hi.disk.rest b hb (by simp [(hi.running hs).1])

variable {t : State}

/-- A step that touches no block, no cache entry and no transaction contents. -/
theorem Inv.of_running {k : Hist} (hs : s.phase = .running) (ht : t.phase = .running)
    (hdisk : t.disk = s.disk) (hcache : t.cache = s.cache) (hpin : t.pin = s.pin)
    (hlh : t.lh = s.lh) (hcom : t.committing = false) (hclosed : k.closed = h.closed)
    (hdur : k.durable = h.durable) (hw : k.cur.writes = h.cur.writes) : Inv L d t k := by
  obtain ⟨hhead, _, hd, hb⟩ := hi.running hs
  have hview : k.view d = h.view d := by simp [Hist.view, hclosed, hw]
  have hcommitted : k.committed d = h.committed d := by simp [Hist.committed, hclosed, hdur]
  refine ⟨⟨by rw [hdisk, hcommitted]; exact hi.disk, by rw [hlh]; exact hi.home,
    by rw [hlh]; exact hi.room, by rw [hcache, hlh, hdisk]; exact hi.cache⟩, ?_⟩
  unfold PhaseInv
  simp only [ht]
  refine ⟨by rw [hdisk]; exact hhead, hcom, by rw [hdur, hclosed]; exact hd, ?_, ?_, ?_, ?_⟩
  · rw [hlh, hcache, hview]; exact hb.cached
  · rw [hlh, hpin]; exact hb.pinned
  · rw [hlh, hview, hcommitted]; exact hb.clean
  · rw [hlh]; exact hb.fits

theorem Inv.beginOp (hr : s.recovering = false)
    (ht : Log.beginOp s = .ok t) : Inv L d t (h.step s (.beginOp : Event L)) := by
  obtain ⟨hc, -, rfl⟩ := beginOp_ok ht
  have hs := hi.running_of_idle hc hr
  exact hi.of_running hs hs rfl rfl rfl rfl hc rfl rfl rfl

theorem Inv.logWrite {op : ℕ} {b : L.Home} {x : Block}
    (ht : Log.logWrite s op b x = .ok t) : Inv L d t (h.step s (.logWrite op b x)) := by
  obtain ⟨hop, hfits, hroom, hcase⟩ := logWrite_ok ht
  have hs := hi.running_of_active (List.ne_nil_of_mem hop)
  obtain ⟨hhead, hcom, hd, hbuf⟩ := hi.running hs
  have hview : (h.step s (.logWrite op b x)).view d = Function.update (h.view d) b.1 x := by
    simp [Hist.view, Hist.step]
  -- absorption leaves `lh` alone, a new block is appended and pinned
  rcases hcase with ⟨hmem, rfl⟩ | ⟨hmem, rfl⟩
  · refine ⟨⟨hi.disk, hi.home, hi.room, ?_⟩, ?_⟩
    · intro c y hy hc
      have hne : c ≠ b.1 := by rintro rfl; exact hc hmem
      exact hi.cache c y (by simpa [Function.update_of_ne hne] using hy) hc
    · unfold PhaseInv
      simp only [hs]
      refine ⟨hhead, hcom, hd, ?_, hbuf.pinned, ?_, hbuf.fits⟩
      · intro c hc
        rw [hview]
        by_cases hcb : c = b.1
        · subst hcb; simp
        · simpa [Function.update_of_ne hcb] using hbuf.cached c hc
      · intro c hc
        have hne : c ≠ b.1 := by rintro rfl; exact hc hmem
        rw [hview, Function.update_of_ne hne]
        exact hbuf.clean c hc
  · have hold (c : ℕ) (hcb : c ≠ b.1) (hc : c ∈ s.lh ++ [b.1]) : c ∈ s.lh := by
      simpa [hcb] using hc
    refine ⟨⟨hi.disk, ?_, ?_, ?_⟩, ?_⟩
    · intro c hc
      by_cases hcb : c = b.1
      · exact hcb ▸ b.2
      · exact hi.home c (hold c hcb hc)
    · simpa using hroom
    · intro c y hy hc
      simp only [List.mem_append, List.mem_singleton, not_or] at hc
      exact hi.cache c y (by simpa [Function.update_of_ne hc.2] using hy) hc.1
    · unfold PhaseInv
      simp only [hs]
      refine ⟨hhead, hcom, hd, ?_, ?_, ?_, by simpa using Nat.succ_le_of_lt hfits⟩
      · intro c hc
        rw [hview]
        by_cases hcb : c = b.1
        · subst hcb; simp
        · simpa [Function.update_of_ne hcb] using hbuf.cached c (hold c hcb hc)
      · intro c hc
        by_cases hcb : c = b.1
        · subst hcb; simp
        · simpa [Function.update_of_ne hcb] using hbuf.pinned c (hold c hcb hc)
      · intro c hc
        simp only [List.mem_append, List.mem_singleton, not_or] at hc
        rw [hview, Function.update_of_ne hc.2]
        exact hbuf.clean c hc.1

omit hi in
/-- Closing a transaction moves its writes from the open part of the view to the closed. -/
theorem Hist.view_close (h : Hist) (d : ℕ → Block) (n : ℕ) :
    Hist.view { h with cur := ⟨[], []⟩, closed := h.closed ++ [h.cur], durable := n } d =
      h.view d := by
  simp [Hist.view]

theorem Inv.endOp {op : ℕ} (hn : s.outstanding = s.active.length)
    (ht : Log.endOp s op = .ok t) : Inv L d t (h.step s (.endOp op : Event L)) := by
  obtain ⟨hop, hcom, hcase⟩ := endOp_ok ht
  have hs := hi.running_of_active (List.ne_nil_of_mem hop)
  obtain ⟨hhead, -, hd, hbuf⟩ := hi.running hs
  have hpos := List.length_pos_of_mem hop
  have herase := List.length_erase_of_mem hop
  rcases hcase with ⟨h1, rfl⟩ | ⟨h1, rfl⟩
  · have h1' : s.outstanding = 1 := by omega
    have hnil : s.active.erase op = [] := List.eq_nil_of_length_eq_zero (by omega)
    have hstep : h.step s (.endOp op : Event L) =
        { h with
          cur := ⟨[], []⟩
          closed := h.closed ++ [h.cur]
          durable := if s.lh = [] then h.durable + 1 else h.durable } := by
      simp [Hist.step, h1']
    have hquiet : Quiet { s with
        outstanding := s.outstanding - 1
        active := s.active.erase op
        committing := true
        phase := if s.lh = [] then .finish else .writeLog 0 }
        (h.step s (.endOp op : Event L)) := ⟨hnil, h1, by rw [hstep]⟩
    by_cases hlh : s.lh = []
    · -- nothing was logged: the transaction is durable as it stands
      have hcommitted : (h.step s (.endOp op : Event L)).committed d = h.committed d := by
        funext b
        have hall : (h.closed ++ [h.cur]).take (h.closed.length + 1) = h.closed ++ [h.cur] :=
          List.take_of_length_le (by simp)
        rw [← hbuf.clean b (by simp [hlh]), hstep]
        simp [Hist.committed, Hist.view, hlh, hd, hall]
      refine ⟨⟨by rw [hcommitted]; exact hi.disk, hi.home, hi.room, hi.cache⟩, ?_⟩
      unfold PhaseInv
      simp only [hlh, ↓reduceIte]
      refine ⟨hhead, trivial, ?_, by simpa [hlh] using hquiet, trivial⟩
      rw [hstep]
      simp [hlh, hd]
    · have hcommitted : (h.step s (.endOp op : Event L)).committed d = h.committed d := by
        rw [hstep]
        simp [Hist.committed, hlh, hd]
      have hview : (h.step s (.endOp op : Event L)).view d = h.view d := by
        rw [hstep, Hist.view_close]
      refine ⟨⟨by rw [hcommitted]; exact hi.disk, hi.home, hi.room, hi.cache⟩, ?_⟩
      unfold PhaseInv
      simp only [hlh, ↓reduceIte]
      refine ⟨hhead, trivial, ?_, by simpa [hlh] using hquiet, ?_, Nat.zero_le _, by simp⟩
      · rw [hstep]
        simp [hlh, hd]
      · exact ⟨by rw [hview]; exact hbuf.cached, hbuf.pinned,
          by rw [hview, hcommitted]; exact hbuf.clean, hbuf.fits⟩
  · have h1' : s.outstanding ≠ 1 := by omega
    have hstep : h.step s (.endOp op : Event L) = h := by simp [Hist.step, h1']
    rw [hstep]
    exact hi.of_running hs hs rfl rfl rfl rfl hcom rfl rfl rfl

/-- Cache traffic of other processes: the new cache agrees with the old one or with the
disk, and keeps what is pinned. -/
theorem Inv.of_cache {c : ℕ → Option Block}
    (hc : ∀ b x, c b = some x → s.cache b = some x ∨ s.cache b = none ∧ x = s.disk b)
    (hp : ∀ b x, 0 < s.pin b → s.cache b = some x → c b = some x) :
    Inv L d { s with cache := c } h := by
  have hbuf (p : Phase) (hb : Buffered d s h) :
      Buffered d { s with cache := c, phase := p } h :=
    ⟨fun b hb' => hp b _ (hb.pinned b hb') (hb.cached b hb'), hb.pinned, hb.clean, hb.fits⟩
  have hinst (p : Phase) (tail : ℕ) (hb : Installed L d s h tail) :
      Installed L d { s with cache := c, phase := p } h tail := by
    refine ⟨hb.head, hb.le, hb.done, ?_⟩
    intro i hlt x hx
    rcases hc _ x hx with hx | ⟨-, hx⟩
    · exact hb.cache i hlt x hx
    · exact hx
  refine ⟨⟨hi.disk, hi.home, hi.room, ?_⟩, ?_⟩
  · intro b x hx hb
    rcases hc b x hx with hx | ⟨-, hx⟩
    · exact hi.cache b x hx hb
    · exact hx
  · have hp := hi.phase
    unfold PhaseInv at hp ⊢
    cases hs : s.phase with
    | running =>
      simp only [hs] at hp ⊢
      exact ⟨hp.1, hp.2.1, hp.2.2.1, hbuf _ hp.2.2.2⟩
    | writeLog tail =>
      simp only [hs] at hp ⊢
      obtain ⟨h1, h2, h3, h4, h5, h6⟩ := hp
      exact ⟨h1, h2, h3, ⟨h4.active, h4.outstanding, h4.cur⟩, hbuf _ h5, h6⟩
    | writeHead =>
      simp only [hs] at hp ⊢
      obtain ⟨h1, h2, h3, h4, h5, h6⟩ := hp
      exact ⟨h1, h2, h3, ⟨h4.active, h4.outstanding, h4.cur⟩, hbuf _ h5, h6⟩
    | install tail =>
      simp only [hs] at hp ⊢
      exact ⟨hp.1, hp.2.1, ⟨hp.2.2.1.active, hp.2.2.1.outstanding, hp.2.2.1.cur⟩,
        hinst _ tail hp.2.2.2⟩
    | recover tail =>
      simp only [hs] at hp ⊢
      exact ⟨hp.1, hp.2.1, ⟨hp.2.2.1.active, hp.2.2.1.outstanding, hp.2.2.1.cur⟩,
        hinst _ tail hp.2.2.2⟩
    | finish =>
      simp only [hs] at hp ⊢
      obtain ⟨h1, h2, h3, h4, h5⟩ := hp
      exact ⟨h1, h2, h3, ⟨h4.active, h4.outstanding, h4.cur⟩, h5⟩
    | eraseHead | readHead | recoverErase =>
      simp only [hs] at hp ⊢
      exact ⟨hp.1, hp.2.1, ⟨hp.2.2.1.active, hp.2.2.1.outstanding, hp.2.2.1.cur⟩, hp.2.2.2⟩

theorem Inv.bread (b : ℕ) :
    Inv L d { s with cache := Function.update s.cache b (some (s.buf b)) } h := by
  apply hi.of_cache
  · intro c x hx
    by_cases hc : c = b
    · subst hc
      rw [Function.update_self, Option.some.injEq] at hx
      cases hcache : s.cache c with
      | none => exact .inr ⟨rfl, by simpa [State.buf, hcache] using hx.symm⟩
      | some y => exact .inl (by simpa [State.buf, hcache] using hx)
    · exact .inl (by simpa [Function.update_of_ne hc] using hx)
  · intro c x _ hx
    by_cases hc : c = b
    · subst hc
      simp [State.buf, hx]
    · simpa [Function.update_of_ne hc] using hx

theorem Inv.evict {b : ℕ} (hpin : s.pin b = 0) :
    Inv L d { s with cache := Function.update s.cache b none } h := by
  apply hi.of_cache
  · intro c x hx
    by_cases hc : c = b
    · subst hc; simp at hx
    · exact .inl (by simpa [Function.update_of_ne hc] using hx)
  · intro c x hp hx
    have hc : c ≠ b := by rintro rfl; omega
    simpa [Function.update_of_ne hc] using hx

theorem Inv.crash : Inv L d (Log.crash s) (h.step s (.crash : Event L)) := by
  have hle := hi.durable_le
  have hcommitted : (h.step s (.crash : Event L)).committed d = h.committed d := by
    simp [Hist.committed, Hist.step, List.take_take]
  refine ⟨⟨by rw [hcommitted]; exact hi.disk, by simp [Log.crash], L.pos, by simp [Log.crash]⟩, ?_⟩
  unfold PhaseInv
  simp only [Log.crash]
  exact ⟨trivial, by simp [Hist.step, hle], ⟨rfl, rfl, rfl⟩, trivial⟩

end

end Xv6.Log
