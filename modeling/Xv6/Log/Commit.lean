import Xv6.Log.Invariant

/-! Each disk write of `commit` and of `recover_from_log` keeps the log's invariant. -/
namespace Xv6.Log
variable {L : Layout} {d : ℕ → Block} {s : State} {h : Hist}

section
variable (hb : Base L d s h)
include hb

/-- A block outside the pending set reads the same through the cache and from disk. -/
theorem Base.buf_eq {b : ℕ} (hn : b ∉ s.lh) : s.buf b = s.disk b := by
  cases hc : s.cache b with
  | none => simp [State.buf, hc]
  | some x => simpa [State.buf, hc] using hb.cache b x hc hn

theorem Base.slot_notMem {i : ℕ} (hi : i + 1 < L.size) : L.slot i ∉ s.lh :=
  fun hmem => (hb.home _ hmem).2 (slot_inLog hi)

theorem Base.start_notMem : L.start ∉ s.lh :=
  fun hmem => (hb.home _ hmem).2 start_inLog

/-- A write to the log area keeps the shared part once the disk still stands for the
durable contents. -/
theorem Base.writeLogArea {k : Hist} {b : ℕ} (x : Block) (p : Phase)
    (hdisk : DiskOk L (Function.update s.disk b x) (k.committed d)
      (decodeHead (Function.update s.disk b x L.start))) :
    Base L d { s.bwrite b x with phase := p } k := by
  refine ⟨hdisk, hb.home, hb.room, ?_⟩
  intro c y hy hc
  by_cases hcb : c = b
  · subst hcb
    simpa using hy.symm
  · simp only [bwrite_cache, Function.update_of_ne hcb] at hy
    simpa [Function.update_of_ne hcb] using hb.cache c y hy hc

/-- One more block of the header is copied home, by `commit` or by recovery. -/
theorem Base.installStep {tail : ℕ} (hin : Installed L d s h tail) (hlt : tail < s.lh.length)
    (pin : ℕ → ℕ) (p : Phase) :
    let t : State := { s.bwrite (s.lh.getD tail 0) (s.buf (L.slot tail)) with
      pin := pin, phase := p }
    Base L d t h ∧ Installed L d t h (tail + 1) := by
  have hroom := hb.room
  have hbuf : s.buf (L.slot tail) = s.disk (L.slot tail) :=
    hb.buf_eq (hb.slot_notMem (by omega))
  have hdisk := hb.disk
  rw [hin.head] at hdisk
  have hslot := hdisk.slot tail hlt
  have hnew := hdisk.install hlt
  have hmem : s.lh.getD tail 0 ∈ s.lh := by simp [hlt]
  rw [hbuf]
  generalize hb' : s.lh.getD tail 0 = b at hslot hnew hmem ⊢
  have hstart : L.start ≠ b := by
    rintro rfl
    exact hb.start_notMem hmem
  refine ⟨⟨?_, hb.home, hb.room, ?_⟩, ?_, hlt, ?_, ?_⟩
  · simpa [Function.update_of_ne hstart, hin.head] using hnew
  · intro c y hy hc
    have hne : c ≠ b := by rintro rfl; exact hc hmem
    simp only [bwrite_cache, Function.update_of_ne hne] at hy
    simpa [Function.update_of_ne hne] using hb.cache c y hy hc
  · simpa [Function.update_of_ne hstart] using hin.head
  · intro i hi
    dsimp only [bwrite_disk, bwrite_lh]
    by_cases he : s.lh.getD i 0 = b
    · rw [he, Function.update_self]
      exact hslot
    · have hne : i ≠ tail := by rintro rfl; exact he hb'
      rw [Function.update_of_ne he]
      exact hin.done i (by omega)
  · intro i hi y
    dsimp only [bwrite_disk, bwrite_cache, bwrite_lh]
    by_cases he : s.lh.getD i 0 = b
    · rw [he, Function.update_self, Function.update_self]
      exact fun hy => (Option.some.inj hy).symm
    · have hne : i ≠ tail := by rintro rfl; exact he hb'
      rw [Function.update_of_ne he, Function.update_of_ne he]
      exact hin.cache i (by omega) y

/-- When the last block is home, `log.lh.n` may be reset. -/
theorem Base.installDone {tail : ℕ} (hin : Installed L d s h tail) (hge : ¬ tail < s.lh.length)
    (p : Phase) : let t : State := { s with lh := [], phase := p }
    Base L d t h ∧ AtHome L d t h := by
  have hdisk := hb.disk
  have hindex {b : ℕ} (hmem : b ∈ s.lh) : ∃ i < tail, s.lh.getD i 0 = b := by
    obtain ⟨i, hi, rfl⟩ := List.getElem_of_mem hmem
    exact ⟨i, by omega, by simp [hi]⟩
  refine ⟨⟨hdisk, by simp, L.pos, ?_⟩, rfl, ?_⟩
  · intro b x hx _
    by_cases hmem : b ∈ s.lh
    · obtain ⟨i, hi, rfl⟩ := hindex hmem
      exact hin.cache i hi x hx
    · exact hb.cache b x hx hmem
  · intro b hlog
    by_cases hmem : b ∈ s.lh
    · obtain ⟨i, hi, rfl⟩ := hindex hmem
      exact hin.done i hi
    · exact hdisk.rest b hlog (by rw [hin.head]; exact hmem)

/-- Erasing the header after everything is home. -/
theorem Base.eraseHead (hall : AtHome L d s h) (p : Phase) :
    let t : State := { s.bwrite L.start (encodeHead (s.buf L.start) s.lh) with phase := p }
    Base L d t h ∧ decodeHead (t.disk L.start) = [] ∧ t.lh = [] := by
  obtain ⟨hlh, hhome⟩ := hall
  have hhead : decodeHead (encodeHead (s.buf L.start) s.lh) = [] := by simp [hlh]
  refine ⟨hb.writeLogArea _ _ ?_, by simpa using hhead, hlh⟩
  simpa [hhead] using DiskOk.erase hhead hhome

end

theorem mem_decodeHead_lt {x : Block} {b : ℕ} (h : b ∈ decodeHead x) : b < 2 ^ 32 := by
  obtain ⟨i, -, rfl⟩ := List.mem_map.mp h
  exact (Bytes.getLE_lt _ _ _).trans_eq (by norm_num)

theorem Hist.step_io {p : Phase} (hs : s.phase = p) (hp : p ≠ .writeHead) :
    h.step s (.io : Event L) = h := by
  simp [Hist.step, hs, hp]

variable {t : State}

/-- An empty header with nothing open needs nothing in the cache. -/
theorem Buffered.of_nil (hlh : t.lh = []) (hcur : h.cur = ⟨[], []⟩)
    (hdur : h.durable = h.closed.length) : Buffered d t h := by
  refine ⟨by simp [hlh], by simp [hlh], ?_, by simp [hlh]⟩
  intro b _
  simp [Hist.view, Hist.committed, hcur, hdur]

theorem Inv.io_writeLog {tail : ℕ} (hi : Inv L d s h) (hs : s.phase = .writeLog tail)
    (ht : Log.io L s = .ok t) : Inv L d t h := by
  have hb := hi.toBase
  have hroom := hi.room
  have hp := hi.phase
  unfold PhaseInv at hp
  unfold Log.io at ht
  simp only [hs] at hp ht
  obtain ⟨hhead, hcom, hdur, hq, hbuf, hle, hdone⟩ := hp
  split at ht
  next hlt =>
    obtain rfl := Except.ok.inj ht
    have hdisk := hi.disk
    rw [hhead] at hdisk
    have hnew := hdisk.writeSlot (i := tail) (by omega) (s.buf (s.lh.getD tail 0))
    refine ⟨hb.writeLogArea _ _ (by rw [hnew.read]; exact hnew), hnew.read, hcom, hdur,
      ⟨hq.active, hq.outstanding, hq.cur⟩, ⟨?_, hbuf.pinned, hbuf.clean, hbuf.fits⟩, hlt, ?_⟩
    · intro b hmem
      have hne : b ≠ L.slot tail := by
        rintro rfl
        exact hb.slot_notMem (by omega) hmem
      simpa [Function.update_of_ne hne] using hbuf.cached b hmem
    · intro i hi'
      by_cases he : i = tail
      · -- the pinned copy of the block, not the stale disk block, goes to the log
        subst he
        have hmem : s.lh.getD i 0 ∈ s.lh := by simp [hlt]
        simp only [bwrite_disk, bwrite_lh, Function.update_self]
        unfold State.buf
        rw [hbuf.cached _ hmem]
        rfl
      · have hne : L.slot i ≠ L.slot tail := fun h => he (slot_injective h)
        simpa [Function.update_of_ne hne] using hdone i (by omega)
  next hge =>
    obtain rfl := Except.ok.inj ht
    exact ⟨⟨hi.disk, hi.home, hi.room, hi.cache⟩, hhead, hcom, hdur,
      ⟨hq.active, hq.outstanding, hq.cur⟩,
      ⟨hbuf.cached, hbuf.pinned, hbuf.clean, hbuf.fits⟩,
      fun i hi' => hdone i (Nat.lt_of_lt_of_le hi' (Nat.not_lt.mp hge))⟩

/-- The commit point: the open view becomes the durable one. -/
theorem Inv.io_writeHead (hi : Inv L d s h) (hs : s.phase = .writeHead)
    (ht : Log.io L s = .ok t) : Inv L d t { h with durable := h.closed.length } := by
  have hp := hi.phase
  unfold PhaseInv at hp
  unfold Log.io at ht
  simp only [hs] at hp ht
  obtain ⟨hhead, hcom, hdur, hq, hbuf, hdone⟩ := hp
  obtain rfl := Except.ok.inj ht
  have hview : h.view d = Hist.committed { h with durable := h.closed.length } d := by
    simp [Hist.view, Hist.committed, hq.cur]
  have hdisk := hi.disk
  rw [hhead] at hdisk
  have hx : decodeHead (encodeHead (s.buf L.start) s.lh) = s.lh := by
    apply decodeHead_encodeHead
    · have hfits := hbuf.fits
      simp only [logsize, maxopblocks] at hfits
      omega
    · exact fun b hb => (hi.home b hb).1
  have hnew := hdisk.writeHead hx hi.room (fun b hb => (hi.home b hb).2) hdone hbuf.clean
  rw [hview] at hnew
  exact ⟨hi.toBase.writeLogArea _ _ (by rw [hnew.read]; exact hnew), hcom, rfl,
    ⟨hq.active, hq.outstanding, hq.cur⟩, hnew.read, Nat.zero_le _, by simp, by simp⟩

/-- Every disk write of `commit` and of `recover_from_log` keeps the invariant. -/
theorem Inv.io (hi : Inv L d s h) (ht : Log.io L s = .ok t) :
    Inv L d t (h.step s (.io : Event L)) := by
  have hb := hi.toBase
  have hp := hi.phase
  unfold PhaseInv at hp
  cases hs : s.phase with
  | running => simp [Log.io, hs] at ht
  | writeLog tail =>
    rw [Hist.step_io hs (by simp)]
    exact hi.io_writeLog hs ht
  | writeHead =>
    simpa [Hist.step, hs] using hi.io_writeHead hs ht
  | install tail =>
    rw [Hist.step_io hs (by simp)]
    unfold Log.io at ht
    simp only [hs] at hp ht
    obtain ⟨hcom, hdur, hq, hin⟩ := hp
    split at ht
    next hlt =>
      obtain rfl := Except.ok.inj ht
      obtain ⟨hb', hin'⟩ := hb.installStep hin hlt
        (Function.update s.pin (s.lh.getD tail 0) (s.pin (s.lh.getD tail 0) - 1))
        (.install (tail + 1))
      exact ⟨hb', hcom, hdur, ⟨hq.active, hq.outstanding, hq.cur⟩, hin'⟩
    next hge =>
      obtain rfl := Except.ok.inj ht
      obtain ⟨hb', hall⟩ := hb.installDone hin hge .eraseHead
      exact ⟨hb', hcom, hdur, ⟨hq.active, hq.outstanding, hq.cur⟩, hall⟩
  | eraseHead =>
    rw [Hist.step_io hs (by simp)]
    unfold Log.io at ht
    simp only [hs] at hp ht
    obtain ⟨hcom, hdur, hq, hall⟩ := hp
    obtain rfl := Except.ok.inj ht
    obtain ⟨hb', hhead, hlh⟩ := hb.eraseHead hall .finish
    exact ⟨hb', hhead, hcom, hdur, ⟨hq.active, hq.outstanding, hq.cur⟩, hlh⟩
  | finish =>
    rw [Hist.step_io hs (by simp)]
    unfold Log.io at ht
    simp only [hs] at hp ht
    obtain ⟨hhead, hcom, hdur, hq, hlh⟩ := hp
    obtain rfl := Except.ok.inj ht
    exact ⟨⟨hi.disk, hi.home, hi.room, hi.cache⟩, hhead, rfl, hdur,
      Buffered.of_nil hlh hq.cur hdur⟩
  | readHead =>
    rw [Hist.step_io hs (by simp)]
    unfold Log.io at ht
    simp only [hs] at hp ht
    obtain ⟨hcom, hdur, hq, hlh⟩ := hp
    obtain rfl := Except.ok.inj ht
    rw [hb.buf_eq (by simp [hlh])]
    refine ⟨⟨hi.disk, ?_, hi.disk.room, ?_⟩, hcom, hdur,
      ⟨hq.active, hq.outstanding, hq.cur⟩, rfl, Nat.zero_le _, by simp, by simp⟩
    · exact fun b hmem => ⟨mem_decodeHead_lt hmem, hi.disk.home b hmem⟩
    · exact fun b x hx _ => hi.cache b x hx (by simp [hlh])
  | recover tail =>
    rw [Hist.step_io hs (by simp)]
    unfold Log.io at ht
    simp only [hs] at hp ht
    obtain ⟨hcom, hdur, hq, hin⟩ := hp
    split at ht
    next hlt =>
      obtain rfl := Except.ok.inj ht
      obtain ⟨hb', hin'⟩ := hb.installStep hin hlt s.pin (.recover (tail + 1))
      exact ⟨hb', hcom, hdur, ⟨hq.active, hq.outstanding, hq.cur⟩, hin'⟩
    next hge =>
      obtain rfl := Except.ok.inj ht
      obtain ⟨hb', hall⟩ := hb.installDone hin hge .recoverErase
      exact ⟨hb', hcom, hdur, ⟨hq.active, hq.outstanding, hq.cur⟩, hall⟩
  | recoverErase =>
    rw [Hist.step_io hs (by simp)]
    unfold Log.io at ht
    simp only [hs] at hp ht
    obtain ⟨hcom, hdur, hq, hall⟩ := hp
    obtain rfl := Except.ok.inj ht
    obtain ⟨hb', hhead, hlh⟩ := hb.eraseHead hall .running
    exact ⟨hb', hhead, hcom, hdur, Buffered.of_nil hall.1 hq.cur hdur⟩

end Xv6.Log
