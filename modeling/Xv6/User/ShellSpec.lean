import Xv6.User.ShellSound

variable {nt : Nonterminal}

/-! What the grammar derives, the parser accepts; and what `nulterminate` makes of the tree. -/
namespace Xv6.Sh
namespace Line
variable {line : Line}

section complete
variable {s k : ℕ} {cmd : Cmd Span} {ts us rest : List Tok}

theorem ok_bind {α β : Type} (a : α) (f : α → Except Stop β) :
    ((.ok a : Except Stop α) >>= f) = f a := rfl

/-- The parser succeeds, leaves the tokens `rest`, and spells `tree`. -/
def Parses (line : Line) (r : Except Stop (Cmd Span × ℕ)) (rest : List Tok)
    (tree : Cmd (List UInt8)) : Prop :=
  ∃ cmd s', r = .ok (cmd, s') ∧ line.toks s' = rest ∧ cmd.map line.text = tree

/-- The tokens that may come after a phrase. -/
def follow : Nonterminal → List Tok
  | .line => [.rpar]
  | .pipe => [.rpar, .amp, .semi]
  | .exec => [.rpar, .amp, .semi, .bar]

def Follows (nt : Nonterminal) (rest : List Tok) : Prop :=
  ∀ t ∈ rest.head?, t ∈ follow nt

theorem Follows.pipe (h : Follows .line rest) : Follows .pipe rest := fun t ht => by
  have := h t ht
  simp_all [follow]

theorem Follows.exec (h : Follows .pipe rest) : Follows .exec rest := fun t ht => by
  have := h t ht
  simp only [follow, List.mem_cons, List.not_mem_nil, or_false] at this ⊢
  tauto

/-- What does not start with one of the tokens looked for is left alone. -/
theorem peek_plain_false {c : Char} (t : Tok) (h : (c, t) ∈ plain) (hs : line.toks s = rest)
    (hrest : Follows nt rest) (ht : t ∉ follow nt) : (line.peek s [c]).1 = false := by
  rw [← Bool.not_eq_true, peek_plain t h]
  rintro ⟨us, hus⟩
  rw [← hs, hus] at hrest
  exact ht (hrest t rfl)

/-- No phrase is followed by a redirection. -/
theorem peek_redirs_false (hs : line.toks s = rest)
    (hrest : Follows nt rest) : (line.peek s ['<', '>']).1 = false := by
  rw [← Bool.not_eq_true, peek_redirs]
  rintro ⟨t, us, hus, ht⟩
  rw [← hs, hus] at hrest
  have hmem := hrest t rfl
  cases nt <;> rcases ht with rfl | rfl | rfl <;> simp [follow] at hmem

/-- One turn of the loop on a redirection that is there. -/
theorem parseredirs_cons (k : ℕ) (cmd : Cmd Span) {t : Tok} {w : List UInt8} (ht : Redirects t)
    (hs : line.toks s = t :: .word w :: us) :
    ∃ a s', line.parseredirs (k + 1) cmd s = line.parseredirs k (redircmd cmd t.code a) s' ∧
      line.toks s' = us ∧ line.text a = w := by
  obtain ⟨hcode, hps, -⟩ := line.gettoken_cons ((line.toks_peek s ['<', '>']).trans hs)
  obtain ⟨hfile, hps', hspan⟩ := line.gettoken_cons hps
  have hret : (line.gettoken (line.gettoken (line.peek s ['<', '>']).2).ps).ret = byte 'a' := hfile
  refine ⟨_, _, ?_, hps', (hspan w rfl).2⟩
  simp only [parseredirs]
  rw [if_pos (peek_redirs.2 ⟨t, _, hs, ht⟩), if_neg (not_not.2 hret), hcode]

variable {rs : List Redirection}

theorem parseredirs_complete (hrs : Redirs ts rs) (hs : line.toks s = ts ++ rest)
    (hrest : ∀ s', line.toks s' = rest → (line.peek s' ['<', '>']).1 = false)
    (hk : (line.toks s).length < k) :
    Parses line (line.parseredirs k cmd s) rest (wrap rs (cmd.map line.text)) := by
  induction hrs generalizing s k cmd with
  | nil =>
    obtain _ | k := k
    · exact absurd hk (Nat.not_lt_zero _)
    · refine ⟨cmd, (line.peek s ['<', '>']).2, ?_, by simpa using hs, rfl⟩
      rw [parseredirs, hrest s hs]
      rfl
  | read w hrs ih | write w hrs ih | append w hrs ih =>
    obtain _ | k := k
    · exact absurd hk (Nat.not_lt_zero _)
    · obtain ⟨a, s', hstep, hs', rfl⟩ :=
        parseredirs_cons k cmd (by simp [Redirects]) hs
      rw [hs] at hk
      simp only [List.cons_append, List.length_cons] at hk
      simp only [List.append_eq] at hs'
      rw [hstep]
      exact ih hs' (by rw [hs']; omega)

theorem parsebacks_complete (n : ℕ) (hs : line.toks s = List.replicate n .amp ++ rest)
    (hrest : ∀ s', line.toks s' = rest → (line.peek s' ['&']).1 = false)
    (hk : (line.toks s).length < k) :
    Parses line (line.parsebacks k cmd s) rest (Cmd.back^[n] (cmd.map line.text)) := by
  induction n generalizing s k cmd with
  | zero =>
    obtain _ | k := k
    · exact absurd hk (Nat.not_lt_zero _)
    · refine ⟨cmd, (line.peek s ['&']).2, ?_, by simpa using hs, rfl⟩
      rw [parsebacks, hrest s hs]
      rfl
  | succ n ih =>
    obtain _ | k := k
    · exact absurd hk (Nat.not_lt_zero _)
    · have hcons : line.toks s = .amp :: (List.replicate n .amp ++ rest) := hs
      have hus := toks_gettoken ['&'] hcons
      rw [hcons, List.length_cons] at hk
      rw [parsebacks, if_pos ((peek_plain .amp (by decide)).2 ⟨_, hcons⟩)]
      exact ih hus (by rw [hus]; omega)

variable {ws : List (List UInt8)}

theorem Args.head (h : Args ts ws rs) : ts = [] ∨ ∃ w us, ts = .word w :: us := by
  cases h with
  | nil => exact .inl rfl
  | word w hrs hargs => exact .inr ⟨w, _, rfl⟩

/-- What follows words is no redirection either. -/
theorem peek_redirs_args (h : Args ts ws rs) (hrest : Follows .exec rest)
    (hs : line.toks s = ts ++ rest) : (line.peek s ['<', '>']).1 = false := by
  obtain rfl | ⟨w, us, rfl⟩ := Args.head h
  · exact peek_redirs_false hs hrest
  · rw [← Bool.not_eq_true, peek_redirs]
    rintro ⟨t, vs, hvs, ht⟩
    obtain ⟨rfl, -⟩ := List.cons.inj (hs.symm.trans hvs)
    simp [Redirects] at ht

theorem parseargs_complete {vs : List (List UInt8)} {rs' : List Redirection}
    (hargs : Args ts vs rs') (hs : line.toks s = ts ++ rest) (hrest : Follows .exec rest)
    (hcmd : cmd.map line.text = wrap rs (.exec ws)) (hlen : (ws ++ vs).length < maxargs)
    (hk : (line.toks s).length < k) :
    Parses line (line.parseargs k cmd ws.length s) rest
      (wrap (rs ++ rs') (.exec (ws ++ vs))) := by
  induction hargs generalizing s k cmd ws rs with
  | nil =>
    obtain _ | k := k
    · exact absurd hk (Nat.not_lt_zero _)
    · simp only [parseargs, List.append_nil]
      have hpeek := line.toks_peek s ['|', ')', '&', ';']
      cases rest with
      | nil =>
        have hnil : line.toks s = [] := hs
        have hnone : ¬ (line.peek s ['|', ')', '&', ';']).1 = true := by
          rw [peek_ends, hnil]
          simp
        obtain ⟨hret, hps⟩ := line.gettoken_nil (hpeek.trans hnil)
        rw [if_neg hnone, if_pos hret]
        exact ⟨cmd, _, rfl, hps, hcmd⟩
      | cons t us =>
        have hends : Ends t := by
          have hmem := hrest t rfl
          simp only [follow, List.mem_cons, List.not_mem_nil, or_false] at hmem
          unfold Ends
          tauto
        rw [if_pos (peek_ends.2 ⟨t, us, hs, hends⟩)]
        exact ⟨cmd, _, rfl, hpeek.trans hs, hcmd⟩
  | @word us ts vs rs₁ rs₂ w hrs hargs ih =>
    obtain _ | k := k
    · exact absurd hk (Nat.not_lt_zero _)
    · have hcons : line.toks s = .word w :: (us ++ (ts ++ rest)) := by simpa using hs
      have hnone : ¬ (line.peek s ['|', ')', '&', ';']).1 = true := by
        rw [peek_ends, hcons]
        rintro ⟨t, us', h, ht⟩
        obtain ⟨rfl, -⟩ := List.cons.inj h
        simp [Ends] at ht
      obtain ⟨hcode, hps, hspan⟩ :=
        line.gettoken_cons ((line.toks_peek s ['|', ')', '&', ';']).trans hcons)
      have hret : (line.gettoken (line.peek s ['|', ')', '&', ';']).2).ret = byte 'a' := hcode
      obtain ⟨-, htext⟩ := hspan w rfl
      have hroom : ¬ ws.length + 1 ≥ maxargs := by
        simp only [List.length_append, List.length_cons] at hlen
        omega
      rw [hcons, List.length_cons] at hk
      set tok := line.gettoken (line.peek s ['|', ')', '&', ';']).2
      obtain ⟨cmd₁, s₁, hok₁, hs₁, hcmd₁⟩ :
          Parses line (line.parseredirs k (cmd.addArg (tok.q, tok.eq)) tok.ps) (ts ++ rest)
            (wrap rs₁ ((cmd.addArg (tok.q, tok.eq)).map line.text)) :=
        parseredirs_complete hrs hps (fun s' hs' => peek_redirs_args hargs hrest hs')
          (by rw [hps]; omega)
      rw [map_addArg, hcmd, addArg_wrap, htext, ← wrap_append] at hcmd₁
      have hrec : Parses line (line.parseargs k cmd₁ (ws ++ [w]).length s₁) rest
          (wrap (rs ++ rs₁ ++ rs₂) (.exec (ws ++ [w] ++ vs))) :=
        ih hs₁ hcmd₁ (by simpa using hlen) (by rw [hs₁]; rw [List.length_append] at hk; omega)
      simp only [parseargs]
      rw [if_neg hnone, if_neg (by rw [hret]; decide), if_neg (not_not.2 hret), if_neg hroom, hok₁,
        ok_bind]
      simpa using hrec

section phrases
variable {c d : Cmd (List UInt8)}

/-- The phrase is parsed wherever something that may follow it follows. -/
def Completes (line : Line) (nt : Nonterminal) (slack : ℕ)
    (parse : ℕ → ℕ → Except Stop (Cmd Span × ℕ)) (ts : List Tok) (tree : Cmd (List UInt8)) : Prop :=
  ∀ k s rest, line.toks s = ts ++ rest → Follows nt rest →
    4 * (line.toks s).length + slack ≤ k → Parses line (parse k s) rest tree

section
variable (hpipe : Completes line .pipe 3 line.parsepipe ts c)
include hpipe

/-- A pipeline with its `&`s, up to what is left for `parseline` to look at. -/
theorem parsepipe_backs (n : ℕ) (hs : line.toks s = ts ++ (List.replicate n .amp ++ rest))
    (hrest : Follows .pipe rest) (hamp : ∀ s', line.toks s' = rest → (line.peek s' ['&']).1 = false)
    (hk : 4 * (line.toks s).length + 3 ≤ k) :
    ∃ cmd s₁ cmd' s₂, line.parsepipe k s = .ok (cmd, s₁) ∧
      line.parsebacks k cmd s₁ = .ok (cmd', s₂) ∧ line.toks s₂ = rest ∧
      cmd'.map line.text = Cmd.back^[n] c := by
  have hfollow : Follows .pipe (List.replicate n .amp ++ rest) := by
    cases n with
    | zero => exact hrest
    | succ n => simp [Follows, follow, List.replicate_succ]
  obtain ⟨cmd, s₁, hok, hs₁, rfl⟩ := hpipe k s _ hs hfollow hk
  have hlen : (line.toks s₁).length ≤ (line.toks s).length := by
    simp only [hs₁, hs, List.length_append]
    omega
  obtain ⟨cmd', s₂, hok', hs₂, hcmd'⟩ :
      Parses line (line.parsebacks k cmd s₁) rest (Cmd.back^[n] (cmd.map line.text)) :=
    parsebacks_complete n hs₁ hamp (by omega)
  exact ⟨cmd, s₁, cmd', s₂, hok, hok', hs₂, hcmd'⟩

theorem parseline_last (n : ℕ) :
    Completes line .line 4 line.parseline (ts ++ List.replicate n .amp) (Cmd.back^[n] c) := by
  intro k s rest hs hrest hk
  obtain _ | k := k
  · omega
  · obtain ⟨cmd, s₁, cmd', s₂, hok, hok', hs₂, hcmd'⟩ := parsepipe_backs hpipe n
      (by rw [hs, List.append_assoc]) hrest.pipe
      (fun s' hs' => peek_plain_false .amp (by decide) hs' hrest (by decide))
      (k := k) (by omega)
    have hpeek : (line.peek s₂ [';']).1 = false :=
      peek_plain_false .semi (by decide) hs₂ hrest (by decide)
    refine ⟨cmd', (line.peek s₂ [';']).2, ?_, (line.toks_peek s₂ _).trans hs₂, hcmd'⟩
    simp only [parseline, hok, ok_bind, hok', hpeek]
    rfl

theorem parseline_list (n : ℕ) (hline : Completes line .line 4 line.parseline us d) :
    Completes line .line 4 line.parseline (ts ++ List.replicate n .amp ++ .semi :: us)
      (.list (Cmd.back^[n] c) d) := by
  intro k s rest hs hrest hk
  obtain _ | k := k
  · omega
  · have hs' : line.toks s = ts ++ (List.replicate n .amp ++ (.semi :: (us ++ rest))) := by
      simp [hs]
    have hsemi : Follows .pipe (.semi :: (us ++ rest)) := by simp [Follows, follow]
    obtain ⟨cmd, s₁, cmd', s₂, hok, hok', hs₂, hcmd'⟩ := parsepipe_backs hpipe n hs' hsemi
      (fun s' hs' => by
        rw [← Bool.not_eq_true, peek_plain .amp (by decide), hs']
        simp)
      (k := k) (by omega)
    have hus := toks_gettoken [';'] hs₂
    have hlen : (us ++ rest).length + 1 ≤ (line.toks s).length := by
      simp only [hs', List.length_append, List.length_cons]
      omega
    obtain ⟨right, s₃, hok₃, hs₃, hright⟩ := hline k _ rest hus hrest (by rw [hus]; omega)
    refine ⟨.list cmd' right, s₃, ?_, hs₃, by simp [Cmd.map, hcmd', hright]⟩
    have hpeek : (line.peek s₂ [';']).1 = true := (peek_plain .semi (by decide)).2 ⟨_, hs₂⟩
    simp only [parseline, hok, ok_bind, hok', hpeek, if_true, hok₃]
    rfl

end

theorem parsepipe_single (hexec : Completes line .exec 2 line.parseexec ts c) :
    Completes line .pipe 3 line.parsepipe ts c := by
  intro k s rest hs hrest hk
  obtain _ | k := k
  · omega
  · obtain ⟨cmd, s₁, hok, hs₁, hcmd⟩ := hexec k s rest hs hrest.exec (by omega)
    have hpeek : (line.peek s₁ ['|']).1 = false :=
      peek_plain_false .bar (by decide) hs₁ hrest (by decide)
    refine ⟨cmd, (line.peek s₁ ['|']).2, ?_, (line.toks_peek s₁ _).trans hs₁, hcmd⟩
    simp only [parsepipe, hok, ok_bind, hpeek]
    rfl

theorem parsepipe_pipe (hexec : Completes line .exec 2 line.parseexec ts c)
    (hpipe : Completes line .pipe 3 line.parsepipe us d) :
    Completes line .pipe 3 line.parsepipe (ts ++ .bar :: us) (.pipe c d) := by
  intro k s rest hs hrest hk
  obtain _ | k := k
  · omega
  · have hs' : line.toks s = ts ++ (.bar :: (us ++ rest)) := by simp [hs]
    have hbar : Follows .exec (.bar :: (us ++ rest)) := by simp [Follows, follow]
    obtain ⟨cmd, s₁, hok, hs₁, hcmd⟩ := hexec k s _ hs' hbar (by omega)
    have hus := toks_gettoken ['|'] hs₁
    have hlen : (us ++ rest).length + 1 ≤ (line.toks s).length := by
      simp only [hs', List.length_append, List.length_cons]
      omega
    obtain ⟨right, s₂, hok₂, hs₂, hright⟩ := hpipe k _ rest hus hrest (by rw [hus]; omega)
    refine ⟨.pipe cmd right, s₂, ?_, hs₂, by simp [Cmd.map, hcmd, hright]⟩
    have hpeek : (line.peek s₁ ['|']).1 = true := (peek_plain .bar (by decide)).2 ⟨_, hs₁⟩
    simp only [parsepipe, hok, ok_bind, hpeek, if_true, hok₂]
    rfl

theorem parseexec_block (hline : Completes line .line 4 line.parseline ts c) (hrs : Redirs us rs) :
    Completes line .exec 2 line.parseexec (.lpar :: ts ++ .rpar :: us) (wrap rs c) := by
  intro k s rest hs hrest hk
  obtain _ | _ | k := k
  · omega
  · omega
  · have hs' : line.toks s = .lpar :: (ts ++ (.rpar :: (us ++ rest))) := by simp [hs]
    have hpeek := line.toks_peek s ['(']
    have hopen := toks_gettoken ['('] (hpeek.trans hs')
    have hclose : Follows .line (.rpar :: (us ++ rest)) := by simp [Follows, follow]
    rw [hs', List.length_cons] at hk
    obtain ⟨cmd, s₁, hok, hs₁, rfl⟩ := hline k _ _ hopen hclose (by rw [hopen]; omega)
    have hus := toks_gettoken [')'] hs₁
    have hlen : (us ++ rest).length < k := by
      rw [List.length_append, List.length_cons] at hk
      omega
    obtain ⟨cmd', s₂, hok', hs₂, hcmd'⟩ :
        Parses line (line.parseredirs k cmd (line.gettoken (line.peek s₁ [')']).2).ps) rest
          (wrap rs (cmd.map line.text)) :=
      parseredirs_complete hrs hus (fun s' hs' => peek_redirs_false hs' hrest) (by rwa [hus])
    refine ⟨cmd', s₂, ?_, hs₂, hcmd'⟩
    have h₁ : (line.peek s ['(']).1 = true := (peek_plain .lpar (by decide)).2 ⟨_, hs'⟩
    have h₂ : (line.peek (line.peek s ['(']).2 ['(']).1 = true :=
      (peek_plain .lpar (by decide)).2 ⟨_, hpeek.trans hs'⟩
    have h₃ : (line.peek s₁ [')']).1 = true := (peek_plain .rpar (by decide)).2 ⟨_, hs₁⟩
    simp only [parseexec, h₁, if_true, parseblock, h₂, Bool.not_true, Bool.false_eq_true, if_false,
      hok, ok_bind, h₃, hok']

theorem parseexec_simple {rs rs' : List Redirection} (hrs : Redirs us rs) (hargs : Args ts ws rs')
    (hlen : ws.length < maxargs) :
    Completes line .exec 2 line.parseexec (us ++ ts) (wrap (rs ++ rs') (.exec ws)) := by
  intro k s rest hs hrest hk
  obtain _ | k := k
  · omega
  · have hs' : line.toks s = us ++ (ts ++ rest) := by simp [hs]
    have hpeek := line.toks_peek s ['(']
    have hnone : (line.peek s ['(']).1 = false := by
      rw [← Bool.not_eq_true, peek_plain .lpar (by decide), hs']
      rintro ⟨vs, hvs⟩
      cases hrs with
      | nil =>
        obtain rfl | ⟨w, us, rfl⟩ := Args.head hargs
        · have hmem := hrest .lpar (by simp [show rest = .lpar :: vs from hvs])
          simp [follow] at hmem
        · simp at hvs
      | read | write | append => simp at hvs
    obtain ⟨cmd, s₁, hok, hs₁, hcmd⟩ :
        Parses line (line.parseredirs k (.exec []) (line.peek s ['(']).2) (ts ++ rest)
          (wrap rs ((Cmd.exec []).map line.text)) :=
      parseredirs_complete hrs (hpeek.trans hs')
        (fun s' hs' => peek_redirs_args hargs hrest hs') (by rw [hpeek]; omega)
    have hrest₁ : Parses line (line.parseargs k cmd ([] : List (List UInt8)).length s₁) rest
        (wrap (rs ++ rs') (.exec ([] ++ ws))) :=
      parseargs_complete hargs hs₁ hrest hcmd hlen
        (by rw [hs₁]; rw [hs', List.length_append] at hk; omega)
    simp only [parseexec, hnone, Bool.false_eq_true, if_false, hok, ok_bind]
    exact hrest₁

end phrases

/-- The function that parses a phrase, and the fuel it needs beyond four for each token. -/
def parser (line : Line) : Nonterminal → ℕ → ℕ → Except Stop (Cmd Span × ℕ)
  | .line => line.parseline
  | .pipe => line.parsepipe
  | .exec => line.parseexec

def slack : Nonterminal → ℕ
  | .line => 4
  | .pipe => 3
  | .exec => 2

theorem parse_complete {tree : Cmd (List UInt8)} (h : Derives nt ts tree) :
    Completes line nt (slack nt) (line.parser nt) ts tree := by
  induction h with
  | last n _ hpipe => exact parseline_last hpipe n
  | list n _ _ hpipe hline => exact parseline_list hpipe n hline
  | single _ hexec => exact parsepipe_single hexec
  | pipe _ _ hexec hpipe => exact parsepipe_pipe hexec hpipe
  | block _ hrs hline => exact parseexec_block hline hrs
  | simple hrs hargs hlen => exact parseexec_simple hrs hargs hlen

end complete

section stays
variable {s k : ℕ} {cmd : Cmd Span}

/-- A result leaves `*ps` within the line. -/
def Stays (line : Line) (r : Except Stop (Cmd Span × ℕ)) : Prop :=
  ∀ cmd ps, r = .ok (cmd, ps) → ps ≤ line.es

theorem Stays.ok (h : s ≤ line.es) : Stays line (.ok (cmd, s)) := by
  rintro _ _ ⟨⟩
  exact h

theorem Stays.error (e : Stop) : Stays line (.error e) := nofun

theorem Stays.bind {r : Except Stop (Cmd Span × ℕ)}
    {f : Cmd Span × ℕ → Except Stop (Cmd Span × ℕ)} (hr : Stays line r)
    (hf : ∀ cmd ps, ps ≤ line.es → Stays line (f (cmd, ps))) : Stays line (r >>= f) := by
  match r, hr with
  | .ok (cmd, ps), hr => exact hf cmd ps (hr cmd ps rfl)
  | .error e, hr => exact Stays.error e

theorem skip_le (p : UInt8 → Bool) (hs : s ≤ line.es) : line.skip p s ≤ line.es := by
  have hlen := (List.takeWhile_prefix (l := line.bytes.drop s) p).length_le
  rw [List.length_drop] at hlen
  rw [skip_eq]
  simp only [es] at hs ⊢
  omega

theorem peek_le (set : List Char) (hs : s ≤ line.es) : (line.peek s set).2 ≤ line.es :=
  skip_le _ hs

theorem gettoken_le (hs : s ≤ line.es) : (line.gettoken s).ps ≤ line.es := by
  refine skip_le _ ?_
  have hq := skip_le isSpace hs
  cases line.next s with
  | done hdrop htoks =>
    have hlex : line.lex (line.skip isSpace s) = (0, line.skip isSpace s) := by
      simp [lex, line.deref_nil hdrop]
    rw [hlex]
    exact hq
  | symbol hdrop hsym hgt htoks =>
    have hlen := congrArg List.length hdrop
    rw [List.length_drop, List.length_cons] at hlen
    rw [line.lex_symbol hdrop hsym hgt]
    simp only [es]
    omega
  | append hdrop htoks =>
    have hlen := congrArg List.length hdrop
    rw [List.length_drop, List.length_cons, List.length_cons] at hlen
    rw [line.lex_append hdrop]
    simp only [es]
    omega
  | word hdrop hspace hsym htoks =>
    rw [line.lex_word hdrop hsym]
    exact skip_le _ hq

theorem parseredirs_stays (k : ℕ) (hs : s ≤ line.es) : Stays line (line.parseredirs k cmd s) := by
  induction k generalizing s cmd with
  | zero => exact Stays.error _
  | succ k ih =>
    simp only [parseredirs]
    split
    · split
      · exact Stays.error _
      · exact ih (gettoken_le (gettoken_le (peek_le _ hs)))
    · exact Stays.ok (peek_le _ hs)

theorem parsebacks_stays (k : ℕ) (hs : s ≤ line.es) : Stays line (line.parsebacks k cmd s) := by
  induction k generalizing s cmd with
  | zero => exact Stays.error _
  | succ k ih =>
    simp only [parsebacks]
    split
    · exact ih (gettoken_le (peek_le _ hs))
    · exact Stays.ok (peek_le _ hs)

theorem parseargs_stays (k : ℕ) (argc : ℕ) (hs : s ≤ line.es) :
    Stays line (line.parseargs k cmd argc s) := by
  induction k generalizing s cmd argc with
  | zero => exact Stays.error _
  | succ k ih =>
    simp only [parseargs]
    split
    · exact Stays.ok (peek_le _ hs)
    · split
      · exact Stays.ok (gettoken_le (peek_le _ hs))
      · split
        · exact Stays.error _
        · split
          · exact Stays.error _
          · exact (parseredirs_stays k (gettoken_le (peek_le _ hs))).bind
              fun _ _ hps => ih (argc + 1) hps

theorem parse_stays (k : ℕ) :
    (∀ s ≤ line.es, Stays line (line.parseline k s)) ∧
      (∀ s ≤ line.es, Stays line (line.parsepipe k s)) ∧
      (∀ s ≤ line.es, Stays line (line.parseexec k s)) ∧
      (∀ s ≤ line.es, Stays line (line.parseblock k s)) := by
  induction k with
  | zero =>
    refine ⟨fun _ _ => ?_, fun _ _ => ?_, fun _ _ => ?_, fun _ _ => ?_⟩
    · simpa only [parseline] using Stays.error _
    · simpa only [parsepipe] using Stays.error _
    · simpa only [parseexec] using Stays.error _
    · simpa only [parseblock] using Stays.error _
  | succ k ih =>
    obtain ⟨hline, hpipe, hexec, hblock⟩ := ih
    refine ⟨fun s hs => ?_, fun s hs => ?_, fun s hs => ?_, fun s hs => ?_⟩
    · simp only [parseline]
      refine (hpipe s hs).bind fun cmd s₁ hs₁ => (parsebacks_stays k hs₁).bind fun cmd s₂ hs₂ => ?_
      simp only
      split
      · exact (hline _ (gettoken_le (peek_le _ hs₂))).bind fun _ _ hs₃ => Stays.ok hs₃
      · exact Stays.ok (peek_le _ hs₂)
    · simp only [parsepipe]
      refine (hexec s hs).bind fun cmd s₁ hs₁ => ?_
      simp only
      split
      · exact (hpipe _ (gettoken_le (peek_le _ hs₁))).bind fun _ _ hs₂ => Stays.ok hs₂
      · exact Stays.ok (peek_le _ hs₁)
    · simp only [parseexec]
      split
      · exact hblock _ (peek_le _ hs)
      · exact (parseredirs_stays k (peek_le _ hs)).bind fun _ _ hs₁ => parseargs_stays k 0 hs₁
    · simp only [parseblock]
      split
      · exact Stays.error _
      · refine (hline _ (gettoken_le (peek_le _ hs))).bind fun cmd s₁ hs₁ => ?_
        simp only
        split
        · exact Stays.error _
        · exact parseredirs_stays k (gettoken_le (peek_le _ hs₁))

/-- `parsecmd` has no leftovers exactly when all the tokens were used. -/
theorem peek_eq_es (hs : s ≤ line.es) : (line.peek s []).2 = line.es ↔ line.toks s = [] := by
  have hle := peek_le [] hs
  have hiff : (line.peek s []).2 = line.es ↔ line.bytes.drop (line.skip isSpace s) = [] := by
    rw [List.drop_eq_nil_iff]
    exact ⟨fun h => h.ge, fun h => le_antisymm hle h⟩
  rw [hiff]
  cases line.next s with
  | done hdrop htoks => simp [hdrop, htoks]
  | symbol hdrop _ _ htoks => simp [hdrop, htoks]
  | append hdrop htoks => simp [hdrop, htoks]
  | word hdrop _ _ htoks => simp [hdrop, htoks]

end stays

section nul

theorem foldl_update (ws : List Span) (buf : ℕ → UInt8) (i : ℕ) :
    ws.foldl (fun buf w => Function.update buf w.2 0) buf i =
      if i ∈ ws.map Prod.snd then 0 else buf i := by
  induction ws generalizing buf with
  | nil => rfl
  | cons w ws ih =>
    rw [List.foldl_cons, ih]
    by_cases hi : i = w.2
    · simp [hi]
    · simp only [Function.update_of_ne hi, List.map_cons, List.mem_cons, hi, false_or]

/-- `nulterminate` writes a NUL at the end of each word, and nothing else. -/
theorem nulterminate_apply (cmd : Cmd Span) (buf : ℕ → UInt8) (i : ℕ) :
    nulterminate cmd buf i = if i ∈ cmd.words.map Prod.snd then 0 else buf i := by
  induction cmd generalizing buf with
  | exec argv => exact foldl_update argv buf i
  | redir cmd file mode fd ih =>
    rw [nulterminate]
    by_cases hi : i = file.2
    · simp [hi, Cmd.words]
    · rw [Function.update_of_ne hi, ih]
      simp only [Cmd.words, List.map_append, List.map_cons, List.map_nil, List.mem_append,
        List.mem_singleton, hi, or_false]
  | pipe left right ihl ihr | list left right ihl ihr =>
    rw [nulterminate, ihr, ihl]
    by_cases hi : i ∈ right.words.map Prod.snd
    · simp only [Cmd.words, List.map_append, List.mem_append, hi, or_true, if_true]
    · simp only [Cmd.words, List.map_append, List.mem_append, hi, or_false, if_false]
  | back cmd ih => exact ih buf

theorem deref_ne_zero {i : ℕ} (h : i < line.es) : line.deref i ≠ 0 := by
  have hcons := List.drop_eq_getElem_cons h
  rw [line.deref_cons hcons]
  exact line.ne_zero hcons

/-- A run of bytes that are not NUL, up to one that is, is a C string. -/
theorem cstring_eq {buf : ℕ → UInt8} {q e : ℕ} (hq : q ≤ e) (he : e ≤ line.es)
    (hsame : ∀ i, q ≤ i → i < e → buf i = line.deref i) (hend : buf e = 0) :
    cstring buf (line.es + 1 - q) q = line.text (q, e) := by
  obtain ⟨n, rfl⟩ := Nat.exists_eq_add_of_le hq
  obtain ⟨k, hk⟩ : ∃ k, line.es + 1 - q = k + 1 := ⟨line.es - q, by omega⟩
  induction n generalizing q k with
  | zero =>
    rw [hk, cstring, if_pos (show buf q = 0 from hend)]
    simp [text]
  | succ n ih =>
    have hlt : q < line.es := by omega
    have hbuf := hsame q le_rfl (by omega)
    have hrec := ih (q := q + 1) (by omega) (by omega)
      (fun i hi hlt => hsame i (by omega) (by omega)) (by rw [← hend]; congr 1; omega)
      (k - 1) (by omega)
    rw [show line.es + 1 - (q + 1) = k by omega] at hrec
    have hcons := List.drop_eq_getElem_cons (show q < line.bytes.length from hlt)
    rw [hk, cstring, hbuf, if_neg (deref_ne_zero hlt), hrec]
    simp only [text, show q + 1 + n - (q + 1) = n by omega, show q + (n + 1) - q = n + 1 by omega]
    rw [hcons, List.take_succ_cons, line.deref_cons hcons]

/-- After `nulterminate` the pointers of a command are C strings that spell its words. -/
theorem cstring_nulterminate {cmd : Cmd Span} (hspans : ∀ a ∈ cmd.words, line.IsSpan a)
    {a : Span} (ha : a ∈ cmd.words) :
    cstring (nulterminate cmd line.deref) (line.es + 1 - a.1) a.1 = line.text a := by
  have hspan := hspans a ha
  refine cstring_eq hspan.lt.le hspan.le (fun i hi hlt => ?_) ?_
  · rw [nulterminate_apply, if_neg]
    -- a word ends where no word has a byte
    intro hmem
    obtain ⟨b, hb, rfl⟩ := List.mem_map.1 hmem
    have hword := hspan.inside b.2 hi hlt
    rw [(hspans b hb).stop (Nat.lt_of_lt_of_le hlt hspan.le)] at hword
    contradiction
  · rw [nulterminate_apply, if_pos (List.mem_map_of_mem ha)]

theorem map_congr {α β : Type} {f g : α → β} {cmd : Cmd α} (h : ∀ a ∈ cmd.words, f a = g a) :
    cmd.map f = cmd.map g := by
  induction cmd with
  | exec argv => simpa [Cmd.map, Cmd.words] using h
  | redir cmd file mode fd ih =>
    simp only [Cmd.words, List.mem_append, List.mem_singleton] at h
    simp only [Cmd.map]
    rw [ih fun a ha => h a (.inl ha), h file (.inr rfl)]
  | pipe left right ihl ihr | list left right ihl ihr =>
    simp only [Cmd.words, List.mem_append] at h
    simp only [Cmd.map]
    rw [ihl fun a ha => h a (.inl ha), ihr fun a ha => h a (.inr ha)]
  | back cmd ih =>
    simp only [Cmd.map]
    rw [ih h]

end nul

end Line

/-- The tree `parsecmd` returns, its words read as C strings in the buffer it leaves. -/
def Line.Returned (line : Line) (k : ℕ) (tree : Cmd (List UInt8)) : Prop :=
  ∃ cmd buf, line.parsecmd k = .ok (cmd, buf) ∧
    cmd.map (fun a => cstring buf (line.es + 1 - a.1) a.1) = tree

theorem enough_fuel (line : Line) (k : ℕ) :
    4 * (line.toks 0).length + 4 ≤ 4 * line.es + 4 + k := by
  have hlen : (line.toks 0).length ≤ line.es := length_tokens_le line.bytes
  omega

/-- A command that `parsecmd` returns derives from the tokens of the line, and its pointers are
the ends of its words. -/
theorem parsecmd_ok {line : Line} {k : ℕ} {cmd : Cmd Span} {buf : ℕ → UInt8}
    (hok : line.parsecmd (4 * line.es + 4 + k) = .ok (cmd, buf)) :
    buf = Line.nulterminate cmd line.deref ∧
      ∃ tree, Derives .line (tokens line.bytes) tree ∧ line.Reads cmd tree := by
  have hsound := (Line.parse_sound (4 * line.es + 4 + k)).1 0 (enough_fuel line k)
  have hstays := (Line.parse_stays (4 * line.es + 4 + k)).1 0 (Nat.zero_le line.es)
  unfold Line.parsecmd at hok
  cases hparse : line.parseline (4 * line.es + 4 + k) 0 with
  | error e =>
    rw [hparse] at hok
    contradiction
  | ok r =>
    obtain ⟨cmd₁, ps⟩ := r
    rw [hparse, Line.ok_bind] at hok
    rw [hparse] at hsound
    obtain ⟨ts, tree, hts, hder, hreads⟩ := hsound
    by_cases hleft : (line.peek ps []).2 = line.es
    · simp only [hleft, ne_eq, not_true_eq_false, if_false] at hok
      obtain ⟨rfl, rfl⟩ := Prod.mk.inj (Except.ok.inj hok)
      have hnil := (Line.peek_eq_es (hstays _ _ hparse)).1 hleft
      have htoks : line.toks 0 = tokens line.bytes := rfl
      rw [hnil, List.append_nil, htoks] at hts
      exact ⟨rfl, tree, hts ▸ hder, hreads⟩
    · simp only [hleft, ne_eq, not_false_eq_true, if_true] at hok
      contradiction

/-- Whatever the line, with enough fuel `parsecmd` ends, and it returns exactly the tree that
the grammar derives from the tokens of the line; if there is none it reports an error. -/
theorem parsecmd_accepts_grammar (line : Line) (k : ℕ) :
    line.parsecmd (4 * line.es + 4 + k) ≠ .error .outOfFuel ∧
      ∀ tree, line.Returned (4 * line.es + 4 + k) tree ↔
        Derives .line (tokens line.bytes) tree := by
  have htoks : line.toks 0 = tokens line.bytes := rfl
  have hfuel := enough_fuel line k
  have hsound := (Line.parse_sound (4 * line.es + 4 + k)).1 0 hfuel
  have hstays := (Line.parse_stays (4 * line.es + 4 + k)).1 0 (Nat.zero_le line.es)
  refine ⟨?_, fun tree => ⟨?_, fun hder => ?_⟩⟩
  · unfold Line.parsecmd
    cases hparse : line.parseline (4 * line.es + 4 + k) 0 with
    | error e =>
      rw [hparse] at hsound
      rintro ⟨⟩
      exact hsound rfl
    | ok r =>
      simp only [Line.ok_bind]
      split
      · simp
      · nofun
  · rintro ⟨cmd, buf, hok, htree⟩
    obtain ⟨rfl, tree₁, hder, hreads⟩ := parsecmd_ok hok
    rw [Line.map_congr fun a ha => Line.cstring_nulterminate hreads.spans ha,
      hreads.spells] at htree
    rwa [← htree]
  · obtain ⟨cmd, ps, hparse, hps, hcmd⟩ :=
      Line.parse_complete hder (4 * line.es + 4 + k) 0 [] (by simpa using htoks)
        (by simp [Line.Follows]) hfuel
    have hparse' : line.parseline (4 * line.es + 4 + k) 0 = .ok (cmd, ps) := hparse
    rw [hparse'] at hsound
    obtain ⟨ts, tree₁, -, -, hreads⟩ := hsound
    have hleft := (Line.peek_eq_es (hstays _ _ hparse')).2 hps
    refine ⟨cmd, Line.nulterminate cmd line.deref, ?_, ?_⟩
    · unfold Line.parsecmd
      rw [hparse', Line.ok_bind]
      simp only [hleft, ne_eq, not_true_eq_false, if_false]
      rfl
    · rw [Line.map_congr fun a ha => Line.cstring_nulterminate hreads.spans ha, hcmd]

/-- The words of each exec node. -/
def Cmd.execs {α : Type} : Cmd α → List (List α)
  | .exec argv => [argv]
  | .redir cmd _ _ _ => cmd.execs
  | .pipe left right => left.execs ++ right.execs
  | .list left right => left.execs ++ right.execs
  | .back cmd => cmd.execs

/-- The array `argv` of an exec node and `argc`, after the stores of `parseexec` for the words. -/
def argvStores (argv : List Span) (array : (ℕ → Option ℕ) × ℕ) : (ℕ → Option ℕ) × ℕ :=
  argv.foldl (fun array w => (Function.update array.1 array.2 (some w.1), array.2 + 1)) array

/-- The array that `execcmd` clears, the stores for the words, and `cmd->argv[argc] = 0`. -/
def argvArray (argv : List Span) : ℕ → Option ℕ :=
  let array := argvStores argv (fun _ => none, 0)
  Function.update array.1 array.2 none

theorem argvStores_eq (argv : List Span) (array : ℕ → Option ℕ) (argc : ℕ) :
    (argvStores argv (array, argc)).2 = argc + argv.length ∧
      (∀ i, i < argc → (argvStores argv (array, argc)).1 i = array i) ∧
      ∀ i w, argv[i]? = some w → (argvStores argv (array, argc)).1 (argc + i) = some w.1 := by
  induction argv generalizing array argc with
  | nil => exact ⟨rfl, fun _ _ => rfl, by simp⟩
  | cons w argv ih =>
    obtain ⟨hargc, hbelow, hword⟩ := ih (Function.update array argc (some w.1)) (argc + 1)
    refine ⟨hargc.trans (by rw [List.length_cons]; omega), fun i hi => ?_, fun i v hv => ?_⟩
    · exact (hbelow i (by omega)).trans (Function.update_of_ne hi.ne _ _)
    · cases i with
      | zero =>
        obtain rfl : w = v := by simpa using hv
        exact (hbelow argc (by omega)).trans (Function.update_self _ _ _)
      | succ i =>
        rw [show argc + (i + 1) = argc + 1 + i by omega]
        exact hword i v (by simpa using hv)

theorem execs_map {α β : Type} (f : α → β) (cmd : Cmd α) :
    (cmd.map f).execs = cmd.execs.map (List.map f) := by
  induction cmd with
  | exec argv => rfl
  | redir cmd file mode fd ih => exact ih
  | pipe left right ihl ihr | list left right ihl ihr =>
    simp only [Cmd.map, Cmd.execs, List.map_append, ihl, ihr]
  | back cmd ih => exact ih

theorem execs_wrap (rs : List Redirection) (cmd : Cmd (List UInt8)) :
    (wrap rs cmd).execs = cmd.execs := by
  induction rs generalizing cmd with
  | nil => rfl
  | cons r rs ih => exact ih _

theorem execs_back (k : ℕ) (cmd : Cmd (List UInt8)) : (Cmd.back^[k] cmd).execs = cmd.execs := by
  induction k generalizing cmd with
  | zero => rfl
  | succ k ih => exact ih _

theorem Derives.execs_lt {ts : List Tok} {tree : Cmd (List UInt8)}
    (h : Derives nt ts tree) : ∀ ws ∈ tree.execs, ws.length < maxargs := by
  induction h with
  | last k _ ih => rwa [execs_back]
  | list k _ _ ih ih' =>
    rw [Cmd.execs, execs_back]
    exact List.forall_mem_append.2 ⟨ih, ih'⟩
  | single _ ih => exact ih
  | pipe _ _ ih ih' => exact List.forall_mem_append.2 ⟨ih, ih'⟩
  | block _ _ ih => rwa [execs_wrap]
  | simple _ _ hlen =>
    rw [execs_wrap]
    simpa [Cmd.execs] using hlen

/-- For every line that `parsecmd` accepts: each pointer of the command is a C string in the buffer
that spells its word of the line and ends in a NUL; each `argv` points to its words and has its null
pointer inside the array; and whatever the memory is, `nulterminate` writes only to the line and
its NUL. -/
theorem words_terminated (line : Line) (k : ℕ) (cmd : Cmd Span) (buf : ℕ → UInt8)
    (hok : line.parsecmd (4 * line.es + 4 + k) = .ok (cmd, buf)) :
    Derives .line (tokens line.bytes) (cmd.map line.text) ∧
      (∀ a ∈ cmd.words, line.IsSpan a ∧ buf a.2 = 0 ∧
        cstring buf (line.es + 1 - a.1) a.1 = line.text a) ∧
      (∀ argv ∈ cmd.execs, argv.length < maxargs ∧ argvArray argv argv.length = none ∧
        ∀ i w, argv[i]? = some w → argvArray argv i = some w.1) ∧
      ∀ mem i, line.es < i → Line.nulterminate cmd mem i = mem i := by
  obtain ⟨rfl, tree, hder, hreads⟩ := parsecmd_ok hok
  refine ⟨hreads.spells ▸ hder, ?_, ?_, ?_⟩
  · intro a ha
    refine ⟨hreads.spans a ha, ?_, Line.cstring_nulterminate hreads.spans ha⟩
    rw [Line.nulterminate_apply, if_pos (List.mem_map_of_mem ha)]
  · intro argv hargv
    have hlt := hder.execs_lt (argv.map line.text) (by
      rw [← hreads.spells, execs_map]
      exact List.mem_map_of_mem hargv)
    rw [List.length_map] at hlt
    obtain ⟨hargc, -, hword⟩ := argvStores_eq argv (fun _ => none) 0
    rw [Nat.zero_add] at hargc
    refine ⟨hlt, ?_, fun i w hi => ?_⟩
    · simp only [argvArray, hargc, Function.update_self]
    · have hlt : i < argv.length := (List.getElem?_eq_some_iff.1 hi).1
      simp only [argvArray, hargc, Function.update_of_ne hlt.ne]
      rw [← hword i w hi, Nat.zero_add]
  · intro mem i hi
    rw [Line.nulterminate_apply, if_neg]
    intro hmem
    obtain ⟨a, ha, rfl⟩ := List.mem_map.1 hmem
    exact absurd (hreads.spans a ha).le (Nat.not_le.2 hi)

/-- The line `a>b`. -/
def redirLine : Line := ⟨[byte 'a', byte '>', byte 'b'], by decide⟩

theorem words_terminated_redirLine : ∃ cmd buf,
    redirLine.parsecmd (4 * redirLine.es + 4) = .ok (cmd, buf) ∧
      ∀ a ∈ cmd.words, buf a.2 = 0 ∧
        cstring buf (redirLine.es + 1 - a.1) a.1 = redirLine.text a := by
  have hisOk : (redirLine.parsecmd (4 * redirLine.es + 4)).isOk = true := by decide +kernel
  cases hok : redirLine.parsecmd (4 * redirLine.es + 4) with
  | error e =>
    rw [hok] at hisOk
    contradiction
  | ok r =>
    obtain ⟨cmd, buf⟩ := r
    exact ⟨cmd, buf, rfl, fun a ha => ((words_terminated redirLine 0 cmd buf hok).2.1 a ha).2⟩

end Xv6.Sh
