import Mathlib.Data.List.Induction
import Xv6.User.Grammar

/-! What the parser accepts, the grammar derives; and with enough fuel the parser ends. -/
namespace Xv6.Sh
namespace Line
variable (line : Line)

/-- A command whose words are spans of the line and spell `tree`. -/
structure Reads (cmd : Cmd Span) (tree : Cmd (List UInt8)) : Prop where
  spans : ∀ a ∈ cmd.words, line.IsSpan a
  spells : cmd.map line.text = tree

/-- The result is never for want of fuel, and a command is what `P` says. -/
def Returns (r : Except Stop (Cmd Span × ℕ)) (P : Cmd Span → ℕ → Prop) : Prop :=
  match r with
  | .ok (cmd, ps) => P cmd ps
  | .error e => e ≠ .outOfFuel

variable {line}

theorem Returns.bind {r : Except Stop (Cmd Span × ℕ)} {P Q : Cmd Span → ℕ → Prop}
    {f : Cmd Span × ℕ → Except Stop (Cmd Span × ℕ)} (hr : Returns r P)
    (hf : ∀ cmd ps, P cmd ps → Returns (f (cmd, ps)) Q) : Returns (r >>= f) Q := by
  match r, hr with
  | .ok (cmd, ps), hr => exact hf cmd ps hr
  | .error e, hr => exact hr

theorem Returns.mono {r : Except Stop (Cmd Span × ℕ)} {P Q : Cmd Span → ℕ → Prop}
    (hr : Returns r P) (h : ∀ cmd ps, P cmd ps → Q cmd ps) : Returns r Q := by
  match r, hr with
  | .ok (cmd, ps), hr => exact h cmd ps hr
  | .error e, hr => exact hr

section reads
variable {cmd left right : Cmd Span} {tree l r : Cmd (List UInt8)} {a : Span}

theorem reads_exec : line.Reads (.exec []) (.exec []) := ⟨by simp [Cmd.words], rfl⟩

theorem Reads.back (h : line.Reads cmd tree) : line.Reads (.back cmd) (.back tree) :=
  ⟨h.spans, congrArg Cmd.back h.spells⟩

theorem Reads.pipe (hl : line.Reads left l) (hr : line.Reads right r) :
    line.Reads (.pipe left right) (.pipe l r) :=
  ⟨fun a ha => (List.mem_append.1 ha).elim (hl.spans a) (hr.spans a),
    by simp [Cmd.map, hl.spells, hr.spells]⟩

theorem Reads.list (hl : line.Reads left l) (hr : line.Reads right r) :
    line.Reads (.list left right) (.list l r) :=
  ⟨fun a ha => (List.mem_append.1 ha).elim (hl.spans a) (hr.spans a),
    by simp [Cmd.map, hl.spells, hr.spells]⟩

theorem Reads.redir (h : line.Reads cmd tree) (ha : line.IsSpan a) (mode fd : ℕ) :
    line.Reads (.redir cmd a mode fd) (.redir tree (line.text a) mode fd) := by
  refine ⟨fun b hb => ?_, by simp [Cmd.map, h.spells]⟩
  rcases List.mem_append.1 hb with hb | hb
  · exact h.spans b hb
  · exact List.mem_singleton.1 hb ▸ ha

theorem mem_words_addArg {b : Span} (h : b ∈ (cmd.addArg a).words) : b ∈ cmd.words ∨ b = a := by
  induction cmd with
  | exec argv => simpa [Cmd.addArg, Cmd.words] using h
  | redir cmd file mode fd ih =>
    simp only [Cmd.addArg, Cmd.words, List.mem_append] at h ⊢
    tauto
  | pipe | list | back => exact .inl h

theorem map_addArg (cmd : Cmd Span) :
    (cmd.addArg a).map line.text = (cmd.map line.text).addArg (line.text a) := by
  induction cmd with
  | exec argv => simp [Cmd.addArg, Cmd.map]
  | redir cmd file mode fd ih => simp [Cmd.addArg, Cmd.map, ih]
  | pipe | list | back => rfl

theorem wrap_append (rs rs' : List Redirection) (tree : Cmd (List UInt8)) :
    wrap (rs ++ rs') tree = wrap rs' (wrap rs tree) := List.foldl_append

theorem addArg_wrap (rs : List Redirection) (ws : List (List UInt8)) (w : List UInt8) :
    (wrap rs (.exec ws)).addArg w = wrap rs (.exec (ws ++ [w])) := by
  induction rs using List.reverseRecOn with
  | nil => rfl
  | append_singleton rs r ih =>
    rw [wrap_append, wrap_append, ← ih]
    rfl

theorem Reads.addArg {rs : List Redirection} {ws : List (List UInt8)}
    (h : line.Reads cmd (wrap rs (.exec ws))) (ha : line.IsSpan a) :
    line.Reads (cmd.addArg a) (wrap rs (.exec (ws ++ [line.text a]))) := by
  refine ⟨fun b hb => ?_, ?_⟩
  · rcases mem_words_addArg hb with hb | rfl
    · exact h.spans b hb
    · exact ha
  · rw [map_addArg, h.spells, addArg_wrap]

end reads

section peek
variable {s : ℕ} {ts us : List Tok}

/-- The symbols that are looked for one at a time, with their tokens. -/
def plain : List (Char × Tok) :=
  [('&', .amp), (';', .semi), ('|', .bar), ('(', .lpar), (')', .rpar)]

theorem starts_plain {c : Char} {t : Tok} (h : (c, t) ∈ plain) :
    starts [c] ts = true ↔ ∃ us, ts = t :: us := by
  simp only [plain, List.mem_cons, Prod.mk.injEq, List.not_mem_nil, or_false] at h
  cases ts with
  | nil => simp [starts]
  | cons u us =>
    rcases h with ⟨rfl, rfl⟩ | ⟨rfl, rfl⟩ | ⟨rfl, rfl⟩ | ⟨rfl, rfl⟩ | ⟨rfl, rfl⟩ <;>
      cases u <;> simp [starts, Tok.lead, byte]

theorem peek_plain {c : Char} (t : Tok) (h : (c, t) ∈ plain) :
    (line.peek s [c]).1 = true ↔ ∃ us, line.toks s = t :: us := by
  have hset : [c].all (byte · ∈ symbols) = true := by
    simp only [plain, List.mem_cons, Prod.mk.injEq, List.not_mem_nil, or_false] at h
    rcases h with ⟨rfl, -⟩ | ⟨rfl, -⟩ | ⟨rfl, -⟩ | ⟨rfl, -⟩ | ⟨rfl, -⟩ <;> decide
  rw [line.peek_eq s hset, starts_plain h]

/-- The tokens that start a redirection. -/
def Redirects (t : Tok) : Prop := t = .lt ∨ t = .gt ∨ t = .gtgt

theorem peek_redirs :
    (line.peek s ['<', '>']).1 = true ↔ ∃ t us, line.toks s = t :: us ∧ Redirects t := by
  rw [line.peek_eq s (by decide)]
  cases line.toks s with
  | nil => simp [starts]
  | cons u us => cases u <;> simp [starts, Tok.lead, byte, Redirects]

/-- The tokens that may follow a command. -/
def Ends (t : Tok) : Prop := t = .bar ∨ t = .rpar ∨ t = .amp ∨ t = .semi

theorem peek_ends :
    (line.peek s ['|', ')', '&', ';']).1 = true ↔ ∃ t us, line.toks s = t :: us ∧ Ends t := by
  rw [line.peek_eq s (by decide)]
  cases line.toks s with
  | nil => simp [starts]
  | cons u us => cases u <;> simp [starts, Tok.lead, byte, Ends]

/-- Reading the token that was peeked at. -/
theorem toks_gettoken {t : Tok} (set : List Char) (h : line.toks s = t :: us) :
    line.toks (line.gettoken (line.peek s set).2).ps = us :=
  (line.gettoken_cons ((line.toks_peek s set).trans h)).2.1

theorem code_eq_word {t : Tok} (h : t.code = byte 'a') : ∃ w, t = .word w := by
  cases t with
  | word w => exact ⟨w, rfl⟩
  | _ => exact absurd h (by decide)

theorem code_ne_zero (t : Tok) : t.code ≠ 0 := by
  cases t <;> simp [Tok.code] <;> decide

end peek

section sound
variable {s : ℕ} {cmd : Cmd Span} {tree : Cmd (List UInt8)}

/-- Reading a file name, or failing. -/
theorem gettoken_word {ts : List Tok} (h : line.toks s = ts)
    (hret : (line.gettoken s).ret = byte 'a') :
    ∃ us, ts = .word (line.text ((line.gettoken s).q, (line.gettoken s).eq)) :: us ∧
      line.toks (line.gettoken s).ps = us ∧
      line.IsSpan ((line.gettoken s).q, (line.gettoken s).eq) := by
  cases ts with
  | nil => exact absurd ((line.gettoken_nil h).1.symm.trans hret) (by decide)
  | cons t us =>
    obtain ⟨hcode, hps, hspan⟩ := line.gettoken_cons h
    obtain ⟨w, rfl⟩ := code_eq_word (hcode.symm.trans hret)
    obtain ⟨hok, rfl⟩ := hspan w rfl
    exact ⟨us, rfl, hps, hok⟩

/-- The redirection a token and a word make. -/
theorem redirs_cons (line : Line) {t : Tok} (ht : Redirects t) (cmd : Cmd Span) (a : Span) :
    ∃ r : Redirection, r.file = line.text a ∧
      redircmd cmd t.code a = .redir cmd a r.mode r.fd ∧
      ∀ us rs, Redirs us rs → Redirs (t :: .word (line.text a) :: us) (r :: rs) := by
  rcases ht with rfl | rfl | rfl
  · exact ⟨⟨_, oRdonly, 0⟩, rfl, rfl, fun _ _ h => .read _ h⟩
  · exact ⟨⟨_, oWronly ||| oCreate ||| oTrunc, 1⟩, rfl, rfl, fun _ _ h => .write _ h⟩
  · exact ⟨⟨_, oWronly ||| oCreate, 1⟩, rfl, rfl, fun _ _ h => .append _ h⟩

theorem parseredirs_sound (k : ℕ) (hk : (line.toks s).length < k) (hcmd : line.Reads cmd tree) :
    Returns (line.parseredirs k cmd s) fun cmd' s' =>
      ∃ ts rs, line.toks s = ts ++ line.toks s' ∧ Redirs ts rs ∧
        line.Reads cmd' (wrap rs tree) := by
  induction k generalizing s cmd tree with
  | zero => exact absurd hk (Nat.not_lt_zero _)
  | succ k ih =>
    simp only [parseredirs]
    by_cases hpeek : (line.peek s ['<', '>']).1 = true
    · rw [if_pos hpeek]
      obtain ⟨t, us, hs, ht⟩ := peek_redirs.1 hpeek
      have hus := toks_gettoken ['<', '>'] hs
      obtain ⟨hcode, -, -⟩ := line.gettoken_cons ((line.toks_peek s ['<', '>']).trans hs)
      split
      · simp [Returns]
      · rename_i hret
        obtain ⟨vs, rfl, hvs, hspan⟩ := gettoken_word hus (not_not.1 hret)
        obtain ⟨r, hfile, hredir, hcons⟩ := redirs_cons line ht cmd
          ((line.gettoken (line.gettoken (line.peek s ['<', '>']).2).ps).q,
            (line.gettoken (line.gettoken (line.peek s ['<', '>']).2).ps).eq)
        rw [hcode, hredir]
        have hlen : (line.toks (line.gettoken (line.gettoken
            (line.peek s ['<', '>']).2).ps).ps).length < k := by
          rw [hvs]
          rw [hs] at hk
          simp only [List.length_cons] at hk
          omega
        refine (ih hlen (hcmd.redir hspan r.mode r.fd)).mono ?_
        rintro cmd' s' ⟨ts, rs, hts, hrs, hreads⟩
        refine ⟨_, _, ?_, hcons ts rs hrs, ?_⟩
        · rw [hs, ← hvs, hts]
          rfl
        · rw [← hfile] at hreads
          exact hreads
    · rw [if_neg hpeek]
      exact ⟨[], [], by simp, .nil, hcmd⟩

theorem parsebacks_sound (k : ℕ) (hk : (line.toks s).length < k) (hcmd : line.Reads cmd tree) :
    Returns (line.parsebacks k cmd s) fun cmd' s' =>
      ∃ n, line.toks s = List.replicate n .amp ++ line.toks s' ∧
        line.Reads cmd' (Cmd.back^[n] tree) := by
  induction k generalizing s cmd tree with
  | zero => exact absurd hk (Nat.not_lt_zero _)
  | succ k ih =>
    simp only [parsebacks]
    by_cases hpeek : (line.peek s ['&']).1 = true
    · rw [if_pos hpeek]
      obtain ⟨us, hs⟩ := (peek_plain .amp (by decide)).1 hpeek
      have hus := toks_gettoken ['&'] hs
      refine (ih (by rw [hus]; rw [hs, List.length_cons] at hk; omega) hcmd.back).mono ?_
      rintro cmd' s' ⟨n, hn, hreads⟩
      refine ⟨n + 1, ?_, hreads⟩
      rw [hs, ← hus, hn]
      rfl
    · rw [if_neg hpeek]
      exact ⟨0, by simp, hcmd⟩

theorem parseargs_sound (k : ℕ) {rs : List Redirection} {ws : List (List UInt8)}
    (hk : (line.toks s).length < k) (hcmd : line.Reads cmd (wrap rs (.exec ws)))
    (hws : ws.length < maxargs) :
    Returns (line.parseargs k cmd ws.length s) fun cmd' s' =>
      ∃ ts vs rs', line.toks s = ts ++ line.toks s' ∧ Args ts vs rs' ∧
        (ws ++ vs).length < maxargs ∧ line.Reads cmd' (wrap (rs ++ rs') (.exec (ws ++ vs))) := by
  induction k generalizing s cmd rs ws with
  | zero => exact absurd hk (Nat.not_lt_zero _)
  | succ k ih =>
    have hnone : ∀ s', line.toks s' = line.toks s → ∃ ts vs rs', line.toks s = ts ++ line.toks s' ∧
        Args ts vs rs' ∧ (ws ++ vs).length < maxargs ∧
        line.Reads cmd (wrap (rs ++ rs') (.exec (ws ++ vs))) := fun s' hs' =>
      ⟨[], [], [], by simp [hs'], .nil, by simpa using hws, by simpa using hcmd⟩
    simp only [parseargs]
    split
    · exact hnone _ (line.toks_peek s _)
    · have hpeek := line.toks_peek s ['|', ')', '&', ';']
      set tok := line.gettoken (line.peek s ['|', ')', '&', ';']).2
      split
      · rename_i hzero
        cases hs : line.toks s with
        | nil => exact hs ▸ hnone _ (((line.gettoken_nil (hpeek.trans hs)).2).trans hs.symm)
        | cons t us =>
          exact absurd ((line.gettoken_cons (hpeek.trans hs)).1.symm.trans hzero) (code_ne_zero t)
      · split
        · simp [Returns]
        · rename_i hret
          split
          · simp [Returns]
          · rename_i hargs
            obtain ⟨us, hs, hus, hspan⟩ := gettoken_word hpeek (not_not.1 hret)
            have hlen : us.length < k := by
              rw [hs, List.length_cons] at hk
              omega
            refine (parseredirs_sound k (by rwa [hus]) (hcmd.addArg hspan)).bind ?_
            rintro cmd₁ s₁ ⟨ts₁, rs₁, hts₁, hrs₁, hcmd₁⟩
            rw [hus] at hts₁
            rw [← wrap_append] at hcmd₁
            have hlen₁ : (line.toks s₁).length < k := by
              rw [hts₁, List.length_append] at hlen
              omega
            have hcount : ws.length + 1 = (ws ++ [line.text (tok.q, tok.eq)]).length := by simp
            simp only [hcount]
            refine (ih hlen₁ hcmd₁ (by rw [← hcount]; omega)).mono ?_
            rintro cmd₂ s₂ ⟨ts₂, vs, rs₂, hts₂, hargs₂, hlen₂, hcmd₂⟩
            refine ⟨_, _, _, ?_, Args.word (line.text (tok.q, tok.eq)) hrs₁ hargs₂, ?_, ?_⟩
            · rw [hs, hts₁, hts₂]
              simp [tok]
            · simpa using hlen₂
            · simpa using hcmd₂

/-- A parser of `nt` returns what derives from the tokens it used. -/
def Sound (line : Line) (nt : Nonterminal) (s : ℕ) (r : Except Stop (Cmd Span × ℕ)) : Prop :=
  Returns r fun cmd s' =>
    ∃ ts tree, line.toks s = ts ++ line.toks s' ∧ Derives nt ts tree ∧ line.Reads cmd tree

theorem length_rest {s' : ℕ} {ts : List Tok} (h : line.toks s = ts ++ line.toks s') :
    (line.toks s').length ≤ (line.toks s).length := by
  rw [h, List.length_append]
  omega

/-- The parser is sound wherever `slack` more than four times the tokens left fits the fuel. -/
def SoundWith (line : Line) (nt : Nonterminal) (slack k : ℕ)
    (parse : ℕ → Except Stop (Cmd Span × ℕ)) : Prop :=
  ∀ s, 4 * (line.toks s).length + slack ≤ k → Sound line nt s (parse s)

section functions
variable {k : ℕ}

theorem parseline_sound (hpipe : SoundWith line .pipe 3 k (line.parsepipe k))
    (hline : SoundWith line .line 4 k (line.parseline k)) :
    SoundWith line .line 4 (k + 1) (line.parseline (k + 1)) := by
  intro s hk
  simp only [parseline]
  refine (hpipe s (by omega)).bind ?_
  rintro cmd₁ s₁ ⟨ts₁, tree₁, hts₁, hder₁, hreads₁⟩
  have hlen₁ := length_rest hts₁
  refine (parsebacks_sound (s := s₁) k (by omega) hreads₁).bind ?_
  rintro cmd₂ s₂ ⟨n, hn, hreads₂⟩
  by_cases hpeek : (line.peek s₂ [';']).1 = true
  · obtain ⟨us, hs₂⟩ := (peek_plain .semi (by decide)).1 hpeek
    have hus := toks_gettoken [';'] hs₂
    have hlen₂ := length_rest hn
    rw [hs₂, List.length_cons] at hlen₂
    simp only [hpeek, if_true]
    refine (hline _ (by rw [hus]; omega)).bind ?_
    rintro cmd₃ s₃ ⟨ts₃, tree₃, hts₃, hder₃, hreads₃⟩
    refine ⟨_, _, ?_, .list n hder₁ hder₃, hreads₂.list hreads₃⟩
    rw [hts₁, hn, hs₂, ← hus, hts₃]
    simp
  · simp only [hpeek]
    exact ⟨_, _, by rw [toks_peek, List.append_assoc, ← hn, hts₁], .last n hder₁, hreads₂⟩

theorem parsepipe_sound (hexec : SoundWith line .exec 2 k (line.parseexec k))
    (hpipe : SoundWith line .pipe 3 k (line.parsepipe k)) :
    SoundWith line .pipe 3 (k + 1) (line.parsepipe (k + 1)) := by
  intro s hk
  simp only [parsepipe]
  refine (hexec s (by omega)).bind ?_
  rintro cmd₁ s₁ ⟨ts₁, tree₁, hts₁, hder₁, hreads₁⟩
  have hlen₁ := length_rest hts₁
  by_cases hpeek : (line.peek s₁ ['|']).1 = true
  · obtain ⟨us, hs₁⟩ := (peek_plain .bar (by decide)).1 hpeek
    have hus := toks_gettoken ['|'] hs₁
    rw [hs₁, List.length_cons] at hlen₁
    simp only [hpeek, if_true]
    refine (hpipe _ (by rw [hus]; omega)).bind ?_
    rintro cmd₂ s₂ ⟨ts₂, tree₂, hts₂, hder₂, hreads₂⟩
    refine ⟨_, _, ?_, .pipe hder₁ hder₂, hreads₁.pipe hreads₂⟩
    rw [hts₁, hs₁, ← hus, hts₂]
    simp
  · simp only [hpeek]
    exact ⟨_, _, by rw [toks_peek, hts₁], .single hder₁, hreads₁⟩

theorem parseexec_sound (hblock : SoundWith line .exec 1 k (line.parseblock k)) :
    SoundWith line .exec 2 (k + 1) (line.parseexec (k + 1)) := by
  intro s hk
  simp only [parseexec]
  by_cases hpeek : (line.peek s ['(']).1 = true
  · rw [if_pos hpeek]
    have hsound := hblock (line.peek s ['(']).2 (by rw [toks_peek]; omega)
    simpa only [Sound, toks_peek] using hsound
  · rw [if_neg hpeek]
    refine (parseredirs_sound k (by rw [toks_peek]; omega) reads_exec).bind ?_
    rintro cmd₁ s₁ ⟨ts₁, rs₁, hts₁, hrs₁, hreads₁⟩
    rw [toks_peek] at hts₁
    have hlen₁ := length_rest hts₁
    refine (parseargs_sound (s := s₁) k (by omega) hreads₁ (by decide)).mono ?_
    rintro cmd₂ s₂ ⟨ts₂, vs, rs₂, hts₂, hargs, hlen, hreads₂⟩
    exact ⟨_, _, by rw [hts₁, hts₂, List.append_assoc], .simple hrs₁ hargs hlen, hreads₂⟩

theorem parseblock_sound (hline : SoundWith line .line 4 k (line.parseline k)) :
    SoundWith line .exec 1 (k + 1) (line.parseblock (k + 1)) := by
  intro s hk
  simp only [parseblock]
  by_cases hpeek : (line.peek s ['(']).1 = true
  · obtain ⟨us, hs⟩ := (peek_plain .lpar (by decide)).1 hpeek
    have hus := toks_gettoken ['('] hs
    rw [hs, List.length_cons] at hk
    simp only [hpeek, Bool.not_true, Bool.false_eq_true, if_false]
    refine (hline _ (by rw [hus]; omega)).bind ?_
    rintro cmd₁ s₁ ⟨ts₁, tree₁, hts₁, hder₁, hreads₁⟩
    rw [hus] at hts₁
    by_cases hpeek₁ : (line.peek s₁ [')']).1 = true
    · obtain ⟨vs, hs₁⟩ := (peek_plain .rpar (by decide)).1 hpeek₁
      have hvs := toks_gettoken [')'] hs₁
      have hlen : vs.length < us.length := by
        rw [hts₁, hs₁, List.length_append, List.length_cons]
        omega
      simp only [hpeek₁, Bool.not_true, Bool.false_eq_true, if_false]
      refine (parseredirs_sound k (by rw [hvs]; omega) hreads₁).mono ?_
      rintro cmd₂ s₂ ⟨ts₂, rs, hts₂, hrs, hreads₂⟩
      refine ⟨_, _, ?_, .block hder₁ hrs, hreads₂⟩
      rw [hs, hts₁, hs₁, ← hvs, hts₂]
      simp
    · simp only [hpeek₁]
      simp [Returns]
  · simp only [hpeek]
    simp [Sound, Returns]

end functions

/-- The four functions together, by induction on the fuel: each call of another function has
consumed a token or goes one level down. -/
theorem parse_sound (k : ℕ) :
    SoundWith line .line 4 k (line.parseline k) ∧ SoundWith line .pipe 3 k (line.parsepipe k) ∧
      SoundWith line .exec 2 k (line.parseexec k) ∧
      SoundWith line .exec 1 k (line.parseblock k) := by
  induction k with
  | zero =>
    refine ⟨?_, ?_, ?_, ?_⟩ <;>
    · intro s hk
      omega
  | succ k ih =>
    obtain ⟨hline, hpipe, hexec, hblock⟩ := ih
    exact ⟨parseline_sound hpipe hline, parsepipe_sound hexec hpipe, parseexec_sound hblock,
      parseblock_sound hline⟩

end sound

end Line
end Xv6.Sh
