import Mathlib.Data.List.TakeWhile
import Mathlib.Logic.Function.Iterate
import Xv6.User.Shell

/-!
The grammar of command lines, over tokens, and what `peek` and `gettoken` do to the tokens
that are left of a line.
-/
namespace Xv6.Sh

inductive Tok where
  | word (w : List UInt8)
  | bar
  | amp
  | semi
  | lpar
  | rpar
  | lt
  | gt
  | gtgt
  deriving DecidableEq, Repr

/-- The token of a symbol that is one byte long. -/
def symbol (c : UInt8) : Tok :=
  if c = byte '|' then .bar
  else if c = byte '&' then .amp
  else if c = byte ';' then .semi
  else if c = byte '(' then .lpar
  else if c = byte ')' then .rpar
  else if c = byte '<' then .lt
  else .gt

/-- The tokens of a line: the maximal runs of other bytes are words, and `>>` is one token. -/
def tokens : List UInt8 → List Tok
  | [] => []
  | c :: cs =>
    if c ∈ whitespace then tokens cs
    else if c ∈ symbols then
      if c = byte '>' ∧ cs.head? = some (byte '>') then .gtgt :: tokens cs.tail
      else symbol c :: tokens cs
    else .word (c :: cs.takeWhile Line.isWord) :: tokens (cs.dropWhile Line.isWord)
  termination_by cs => cs.length
  decreasing_by
    · simp
    · simp [Nat.lt_succ_of_le (Nat.sub_le _ _)]
    · simp
    · have := (List.dropWhile_suffix (l := cs) Line.isWord).length_le
      simp
      omega

/-- A redirection: the file, with the mode and the descriptor it is opened with. -/
structure Redirection where
  file : List UInt8
  mode : ℕ
  fd : ℕ

/-- `redir*` -/
inductive Redirs : List Tok → List Redirection → Prop
  | nil : Redirs [] []
  | read {ts rs} (w : List UInt8) :
    Redirs ts rs → Redirs (.lt :: .word w :: ts) (⟨w, oRdonly, 0⟩ :: rs)
  | write {ts rs} (w : List UInt8) :
    Redirs ts rs → Redirs (.gt :: .word w :: ts) (⟨w, oWronly ||| oCreate ||| oTrunc, 1⟩ :: rs)
  | append {ts rs} (w : List UInt8) :
    Redirs ts rs → Redirs (.gtgt :: .word w :: ts) (⟨w, oWronly ||| oCreate, 1⟩ :: rs)

/-- `(word redir*)*`, with its words and its redirections in order. -/
inductive Args : List Tok → List (List UInt8) → List Redirection → Prop
  | nil : Args [] [] []
  | word {us ts ws rs rs'} (w : List UInt8) :
    Redirs us rs → Args ts ws rs' → Args (.word w :: us ++ ts) (w :: ws) (rs ++ rs')

/-- Redirections nest around their command in order of appearance. -/
def wrap (rs : List Redirection) (cmd : Cmd (List UInt8)) : Cmd (List UInt8) :=
  rs.foldl (fun cmd r => .redir cmd r.file r.mode r.fd) cmd

inductive Nonterminal where
  | line
  | pipe
  | exec

/-- The grammar, with the tree each derivation determines. -/
inductive Derives : Nonterminal → List Tok → Cmd (List UInt8) → Prop
  | last {ts c} (k : ℕ) :
    Derives .pipe ts c → Derives .line (ts ++ List.replicate k .amp) (Cmd.back^[k] c)
  | list {ts c us d} (k : ℕ) :
    Derives .pipe ts c → Derives .line us d →
      Derives .line (ts ++ List.replicate k .amp ++ .semi :: us) (.list (Cmd.back^[k] c) d)
  | single {ts c} : Derives .exec ts c → Derives .pipe ts c
  | pipe {ts c us d} :
    Derives .exec ts c → Derives .pipe us d → Derives .pipe (ts ++ .bar :: us) (.pipe c d)
  | block {ts c us rs} :
    Derives .line ts c → Redirs us rs → Derives .exec (.lpar :: ts ++ .rpar :: us) (wrap rs c)
  | simple {us rs ts ws rs'} :
    Redirs us rs → Args ts ws rs' → ws.length < maxargs →
      Derives .exec (us ++ ts) (wrap (rs ++ rs') (.exec ws))

/-- The byte a token of symbols starts with. -/
def Tok.lead : Tok → Option UInt8
  | .word _ => none
  | .bar => byte '|'
  | .amp => byte '&'
  | .semi => byte ';'
  | .lpar => byte '('
  | .rpar => byte ')'
  | .lt => byte '<'
  | .gt => byte '>'
  | .gtgt => byte '>'

/-- What `gettoken` returns for a token. -/
def Tok.code : Tok → UInt8
  | .word _ => byte 'a'
  | .bar => byte '|'
  | .amp => byte '&'
  | .semi => byte ';'
  | .lpar => byte '('
  | .rpar => byte ')'
  | .lt => byte '<'
  | .gt => byte '>'
  | .gtgt => byte '+'

theorem tokens_space {c : UInt8} (h : c ∈ whitespace) (cs : List UInt8) :
    tokens (c :: cs) = tokens cs := by
  rw [tokens, if_pos h]

theorem tokens_dropWhile (cs : List UInt8) :
    tokens (cs.dropWhile Line.isSpace) = tokens cs := by
  induction cs with
  | nil => rfl
  | cons c cs ih =>
    by_cases hc : c ∈ whitespace
    · rw [List.dropWhile_cons_of_pos (by simpa [Line.isSpace] using hc), ih, tokens_space hc]
    · rw [List.dropWhile_cons_of_neg (by simpa [Line.isSpace] using hc)]

theorem length_tokens_le (cs : List UInt8) : (tokens cs).length ≤ cs.length := by
  fun_induction tokens cs with
  | case1 => exact Nat.le_refl _
  | case2 c cs hc ih => exact Nat.le_succ_of_le ih
  | case3 c cs hc hsym hgt ih =>
    have htail : cs.tail.length ≤ cs.length := by simp
    simp only [List.length_cons]
    omega
  | case4 c cs hc hsym hgt ih =>
    simp only [List.length_cons]
    omega
  | case5 c cs hc hsym ih =>
    have hdrop := (List.dropWhile_suffix (l := cs) Line.isWord).length_le
    simp only [List.length_cons]
    omega

variable {s : ℕ}

namespace Line
variable (line : Line)

/-- The tokens from `s` on. -/
def toks (s : ℕ) : List Tok := tokens (line.bytes.drop s)

theorem deref_drop (s : ℕ) : line.deref s = (line.bytes.drop s).headD 0 := by
  simp [deref, List.headD_eq_head?_getD, List.head?_drop, List.getD_eq_getElem?_getD]

theorem deref_cons {c : UInt8} {cs : List UInt8} (h : line.bytes.drop s = c :: cs) :
    line.deref s = c := by
  rw [deref_drop, h]
  rfl

theorem drop_cons {c : UInt8} {cs : List UInt8} (h : line.bytes.drop s = c :: cs) :
    line.bytes.drop (s + 1) = cs := by
  rw [← List.tail_drop, h]
  rfl

theorem deref_nil (h : line.bytes.drop s = []) : line.deref s = 0 := by
  rw [deref_drop, h]
  rfl

theorem ne_zero {c : UInt8} {cs : List UInt8} (h : line.bytes.drop s = c :: cs) : c ≠ 0 := by
  rintro rfl
  exact line.nonzero (List.mem_of_mem_drop (h ▸ List.mem_cons_self))

/-- A skipping loop advances over the longest run of bytes that satisfy `p`. -/
theorem skip_eq (p : UInt8 → Bool) (s : ℕ) :
    line.skip p s = s + ((line.bytes.drop s).takeWhile p).length := by
  have hscan : ∀ k s, line.es - s = k →
      line.scan p k s = s + ((line.bytes.drop s).takeWhile p).length := by
    intro k
    induction k with
    | zero =>
      intro s hk
      have hnil : line.bytes.drop s = [] := List.drop_eq_nil_of_le (by simp only [es] at hk; omega)
      rw [scan, hnil]
      rfl
    | succ k ih =>
      intro s hk
      have hlt : s < line.bytes.length := by
        simp only [es] at hk
        omega
      have hcons := List.drop_eq_getElem_cons hlt
      rw [scan, line.deref_cons hcons]
      by_cases hp : p line.bytes[s] = true
      · rw [if_pos hp, ih (s + 1) (by omega), hcons, List.takeWhile_cons_of_pos hp,
          List.length_cons]
        omega
      · rw [if_neg hp, hcons, List.takeWhile_cons_of_neg hp]
        rfl
  exact hscan _ s rfl

theorem drop_skip (p : UInt8 → Bool) (s : ℕ) :
    line.bytes.drop (line.skip p s) = (line.bytes.drop s).dropWhile p := by
  have hdrop : ∀ l : List UInt8, l.drop (l.takeWhile p).length = l.dropWhile p := by
    intro l
    have hsplit : l = l.takeWhile p ++ l.dropWhile p := List.takeWhile_append_dropWhile.symm
    calc l.drop (l.takeWhile p).length
        = (l.takeWhile p ++ l.dropWhile p).drop (l.takeWhile p).length := by rw [← hsplit]
      _ = l.dropWhile p := List.drop_left
  rw [skip_eq, ← List.drop_drop, hdrop]

theorem toks_skip (s : ℕ) : line.toks (line.skip isSpace s) = line.toks s := by
  rw [toks, drop_skip, tokens_dropWhile, toks]

/-- The bytes of a word. -/
def text (a : Span) : List UInt8 := (line.bytes.drop a.1).take (a.2 - a.1)

/-- A maximal run of the bytes words are made of. -/
structure IsSpan (a : Span) : Prop where
  lt : a.1 < a.2
  le : a.2 ≤ line.es
  inside : ∀ i, a.1 ≤ i → i < a.2 → isWord (line.deref i) = true
  stop : a.2 < line.es → isWord (line.deref a.2) = false

/-- What stands at `s` after the whitespace: the end of the line, a symbol of one byte, `>>`,
or a word. -/
inductive Next (s : ℕ) : Prop
  | done : line.bytes.drop (line.skip isSpace s) = [] → line.toks s = [] → Next s
  | symbol {c cs} : line.bytes.drop (line.skip isSpace s) = c :: cs → c ∈ symbols →
    ¬ (c = byte '>' ∧ cs.head? = some (byte '>')) → line.toks s = Sh.symbol c :: tokens cs → Next s
  | append {cs} : line.bytes.drop (line.skip isSpace s) = byte '>' :: byte '>' :: cs →
    line.toks s = .gtgt :: tokens cs → Next s
  | word {c cs} : line.bytes.drop (line.skip isSpace s) = c :: cs → c ∉ whitespace →
    c ∉ symbols →
    line.toks s = .word (c :: cs.takeWhile isWord) :: tokens (cs.dropWhile isWord) → Next s

theorem next (s : ℕ) : line.Next s := by
  have htoks := line.toks_skip s
  rw [toks] at htoks
  cases hdrop : line.bytes.drop (line.skip isSpace s) with
  | nil =>
    rw [hdrop, tokens] at htoks
    exact .done hdrop htoks.symm
  | cons c cs =>
    have hspace : c ∉ whitespace := by
      have hhead := List.head?_dropWhile_not isSpace (line.bytes.drop s)
      rw [← drop_skip, hdrop] at hhead
      simpa [isSpace] using hhead
    rw [hdrop, tokens, if_neg hspace] at htoks
    by_cases hsym : c ∈ symbols
    · rw [if_pos hsym] at htoks
      by_cases hgt : c = byte '>' ∧ cs.head? = some (byte '>')
      · rw [if_pos hgt] at htoks
        obtain ⟨rfl, hhead⟩ := hgt
        cases cs with
        | nil => simp at hhead
        | cons d ds =>
          obtain rfl : d = byte '>' := by simpa using hhead
          exact .append hdrop htoks.symm
      · rw [if_neg hgt] at htoks
        exact .symbol hdrop hsym hgt htoks.symm
    · rw [if_neg hsym] at htoks
      exact .word hdrop hspace hsym htoks.symm

theorem symbol_lead {c : UInt8} (h : c ∈ symbols) : (Sh.symbol c).lead = some c := by
  revert h
  simp only [symbols, List.map_cons, List.map_nil, List.mem_cons, List.not_mem_nil, or_false]
  rintro (rfl | rfl | rfl | rfl | rfl | rfl | rfl) <;> rfl

theorem symbol_code {c : UInt8} (h : c ∈ symbols) : (Sh.symbol c).code = c := by
  revert h
  simp only [symbols, List.map_cons, List.map_nil, List.mem_cons, List.not_mem_nil, or_false]
  rintro (rfl | rfl | rfl | rfl | rfl | rfl | rfl) <;> rfl

end Line

/-- Whether the first token starts with one of the symbols. -/
def starts (set : List Char) : List Tok → Bool
  | [] => false
  | t :: _ => t.lead.any (· ∈ set.map byte)

namespace Line
variable (line : Line)

@[simp] theorem toks_peek (s : ℕ) (set : List Char) : line.toks (line.peek s set).2 = line.toks s :=
  line.toks_skip s

theorem peek_eq (s : ℕ) {set : List Char} (hset : set.all (byte · ∈ symbols) = true) :
    (line.peek s set).1 = starts set (line.toks s) := by
  have hpeek : (line.peek s set).1 = decide (line.deref (line.skip isSpace s) ≠ 0 ∧
      line.deref (line.skip isSpace s) ∈ set.map byte) := rfl
  rw [hpeek]
  cases line.next s with
  | done hdrop htoks =>
    simp only [line.deref_nil hdrop, htoks, starts, ne_eq, not_true_eq_false, false_and,
      decide_false]
  | symbol hdrop hsym hgt htoks =>
    simp only [line.deref_cons hdrop, htoks, starts, symbol_lead hsym, Option.any_some,
      decide_eq_decide]
    exact and_iff_right (line.ne_zero hdrop)
  | append hdrop htoks =>
    simp only [line.deref_cons hdrop, htoks, starts, Tok.lead, Option.any_some, decide_eq_decide]
    exact and_iff_right (line.ne_zero hdrop)
  | @word c cs hdrop hspace hsym htoks =>
    have hout : c ∉ set.map byte := by
      intro hmem
      obtain ⟨d, hd, rfl⟩ := List.mem_map.1 hmem
      exact hsym (of_decide_eq_true (List.all_eq_true.1 hset d hd))
    simp only [line.deref_cons hdrop, htoks, starts, Tok.lead, Option.any_none, hout, and_false,
      decide_false]

/-- `gettoken` at the end of the line. -/
theorem gettoken_nil (h : line.toks s = []) :
    (line.gettoken s).ret = 0 ∧ line.toks (line.gettoken s).ps = [] := by
  cases line.next s with
  | done hdrop htoks =>
    have hlex : line.lex (line.skip isSpace s) = (0, line.skip isSpace s) := by
      simp [lex, line.deref_nil hdrop]
    have hps : (line.gettoken s).ps = line.skip isSpace (line.skip isSpace s) := by
      simp [gettoken, hlex]
    refine ⟨by simp [gettoken, hlex], ?_⟩
    rw [hps, toks_skip, toks_skip, h]
  | symbol _ _ _ htoks => simp [htoks] at h
  | append _ htoks => simp [htoks] at h
  | word _ _ _ htoks => simp [htoks] at h

/-- The run of word bytes at `q` is a span. -/
theorem isSpan_skip {q : ℕ} {c : UInt8} {cs : List UInt8} (hdrop : line.bytes.drop q = c :: cs)
    (hc : isWord c = true) :
    line.IsSpan (q, line.skip isWord q) ∧
      line.text (q, line.skip isWord q) = c :: cs.takeWhile isWord := by
  have hrun : (line.bytes.drop q).takeWhile isWord = c :: cs.takeWhile isWord := by
    rw [hdrop, List.takeWhile_cons_of_pos hc]
  have heq := line.skip_eq isWord q
  have hprefix := List.takeWhile_prefix (l := line.bytes.drop q) isWord
  rw [hrun] at heq hprefix
  have hlen := hprefix.length_le
  rw [List.length_cons, List.length_drop] at hlen
  rw [List.length_cons] at heq
  refine ⟨⟨by simp only; omega, by simp only [es]; omega, fun i hi hlt => ?_, fun hlt => ?_⟩, ?_⟩
  · simp only at hi hlt
    obtain ⟨j, rfl⟩ := Nat.exists_eq_add_of_le hi
    have hj : j < (c :: cs.takeWhile isWord).length := by
      rw [List.length_cons]
      omega
    have hget : line.deref (q + j) = (c :: cs.takeWhile isWord)[j] := by
      rw [deref, List.getD_eq_getElem?_getD, ← List.getElem?_drop,
        List.getElem?_eq_getElem (Nat.lt_of_lt_of_le hj hprefix.length_le), hprefix.getElem hj]
      rfl
    have hmem : line.deref (q + j) ∈ (line.bytes.drop q).takeWhile isWord := by
      rw [hget, hrun]
      exact List.getElem_mem hj
    exact List.mem_takeWhile_imp hmem
  · simp only [es] at hlt ⊢
    have hcons := List.drop_eq_getElem_cons hlt
    have hhead := List.head?_dropWhile_not isWord (line.bytes.drop q)
    rw [← drop_skip, hcons, List.head?_cons] at hhead
    rw [line.deref_cons hcons]
    exact hhead
  · have htake : line.skip isWord q - q = (c :: cs.takeWhile isWord).length := by
      rw [heq, List.length_cons]
      omega
    rw [text]
    simp only [htake]
    exact (List.prefix_iff_eq_take.1 hprefix).symm

section lex
variable {q : ℕ} {c : UInt8} {cs : List UInt8}

theorem lex_symbol (hdrop : line.bytes.drop q = c :: cs) (hsym : c ∈ symbols)
    (hgt : ¬ (c = byte '>' ∧ cs.head? = some (byte '>'))) : line.lex q = (c, q + 1) := by
  have hnext : line.deref (q + 1) = cs.headD 0 := by
    rw [deref_drop, line.drop_cons hdrop]
  simp only [lex, line.deref_cons hdrop, if_neg (line.ne_zero hdrop), hnext]
  by_cases hlist : c ∈ ['|', '(', ')', ';', '&', '<'].map byte
  · rw [if_pos hlist]
  · have hc : c = byte '>' := by
      simp only [symbols, List.map_cons, List.map_nil, List.mem_cons, List.not_mem_nil,
        or_false] at hsym hlist
      tauto
    have hne : cs.headD 0 ≠ byte '>' := by
      intro hhead
      refine hgt ⟨hc, ?_⟩
      cases cs with
      | nil => exact absurd hhead (by decide)
      | cons d ds => simpa using hhead
    rw [if_neg hlist, if_pos hc, if_neg hne]

theorem lex_append (hdrop : line.bytes.drop q = byte '>' :: byte '>' :: cs) :
    line.lex q = (byte '+', q + 2) := by
  simp only [lex, line.deref_cons hdrop, line.deref_cons (line.drop_cons hdrop)]
  rw [if_neg (by decide), if_neg (by decide), if_pos trivial, if_pos trivial]

theorem lex_word (hdrop : line.bytes.drop q = c :: cs) (hsym : c ∉ symbols) :
    line.lex q = (byte 'a', line.skip isWord q) := by
  have hlist : c ∉ ['|', '(', ')', ';', '&', '<'].map byte := by
    intro hmem
    simp only [symbols, List.map_cons, List.map_nil, List.mem_cons, List.not_mem_nil,
      or_false] at hsym hmem
    tauto
  have hgt : c ≠ byte '>' := by
    rintro rfl
    exact hsym (by decide)
  simp only [lex, line.deref_cons hdrop]
  rw [if_neg (line.ne_zero hdrop), if_neg hlist, if_neg hgt]

end lex

/-- `gettoken` reads the first token. -/
theorem gettoken_cons {t : Tok} {ts : List Tok} (h : line.toks s = t :: ts) :
    (line.gettoken s).ret = t.code ∧ line.toks (line.gettoken s).ps = ts ∧
      ∀ w, t = .word w → line.IsSpan ((line.gettoken s).q, (line.gettoken s).eq) ∧
        line.text ((line.gettoken s).q, (line.gettoken s).eq) = w := by
  have hps : line.toks (line.gettoken s).ps =
      tokens (line.bytes.drop (line.lex (line.skip isSpace s)).2) := line.toks_skip _
  have hret : (line.gettoken s).ret = (line.lex (line.skip isSpace s)).1 := rfl
  have heq : (line.gettoken s).eq = (line.lex (line.skip isSpace s)).2 := rfl
  cases line.next s with
  | done hdrop htoks => simp [htoks] at h
  | symbol hdrop hsym hgt htoks =>
    obtain ⟨rfl, rfl⟩ := List.cons.inj (htoks.symm.trans h)
    have hlex := line.lex_symbol hdrop hsym hgt
    refine ⟨?_, ?_, fun w hw => ?_⟩
    · rw [hret, hlex, symbol_code hsym]
    · rw [hps, hlex, line.drop_cons hdrop]
    · have hlead := symbol_lead hsym
      rw [hw] at hlead
      contradiction
  | append hdrop htoks =>
    obtain ⟨rfl, rfl⟩ := List.cons.inj (htoks.symm.trans h)
    have hlex := line.lex_append hdrop
    refine ⟨?_, ?_, fun w hw => nomatch hw⟩
    · rw [hret, hlex]
      rfl
    · rw [hps, hlex, line.drop_cons (line.drop_cons hdrop)]
  | @word c cs hdrop hspace hsym htoks =>
    obtain ⟨rfl, rfl⟩ := List.cons.inj (htoks.symm.trans h)
    have hlex := line.lex_word hdrop hsym
    have hword : isWord c = true := by simp [isWord, hspace, hsym]
    refine ⟨?_, ?_, fun w hw => ?_⟩
    · rw [hret, hlex]
      rfl
    · rw [hps, hlex, drop_skip, hdrop, List.dropWhile_cons_of_pos hword]
    · obtain rfl := Tok.word.inj hw
      rw [heq, hlex]
      exact line.isSpan_skip hdrop hword

end Line

end Xv6.Sh
