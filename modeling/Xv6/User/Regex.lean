import Mathlib.Computability.Language

/-! The pattern matcher of user/grep.c. Strings are lists of bytes without the final NUL; the end of
the list is where the C code reads it. -/
namespace Xv6.Grep
open Computability

def caret : UInt8 := UInt8.ofNat '^'.toNat
def dollar : UInt8 := UInt8.ofNat '$'.toNat
def star : UInt8 := UInt8.ofNat '*'.toNat
def dot : UInt8 := UInt8.ofNat '.'.toNat

/-- `matchstar(c, re, text)`, given `matchhere` at `re`. -/
def matchstar (matchhere : List UInt8 → Bool) (c : UInt8) : List UInt8 → Bool
  | [] => matchhere []
  | t :: text => matchhere (t :: text) || ((t == c || c == dot) && matchstar matchhere c text)

/-- The first character of the text stands for `c`; then `rest` looks at the others. -/
def matchchar (c : UInt8) (rest : List UInt8 → Bool) : List UInt8 → Bool
  | [] => false
  | t :: text => (c == dot || c == t) && rest text

def matchhere : List UInt8 → List UInt8 → Bool
  | [], _ => true
  | [c], text => if c = dollar then text.isEmpty else matchchar c (matchhere []) text
  | c :: d :: re, text =>
    if d = star then matchstar (matchhere re) c text
    else matchchar c (matchhere (d :: re)) text

/-- The loop of `match`, which ends after the empty rest of the text. -/
def matchfrom (re : List UInt8) : List UInt8 → Bool
  | [] => matchhere re []
  | t :: text => matchhere re (t :: text) || matchfrom re text

/-- `match(re, text)` -/
def matchText (re text : List UInt8) : Bool :=
  match re with
  | [] => matchfrom [] text
  | c :: rest => if c = caret then matchhere rest text else matchfrom (c :: rest) text

/-! What a pattern means. -/

/-- A character of a pattern, once or any number of times. -/
inductive Item where
  | one (c : UInt8)
  | many (c : UInt8)
  deriving DecidableEq, Repr

/-- The items of a pattern without its `^`, and whether a `$` comes after the last one. -/
def items : List UInt8 → List Item × Bool
  | [] => ([], false)
  | [c] => if c = dollar then ([], true) else ([.one c], false)
  | c :: d :: re =>
    if d = star then (.many c :: (items re).1, (items re).2)
    else (.one c :: (items (d :: re)).1, (items (d :: re)).2)

/-- A `.` stands for any character. -/
def single (c : UInt8) : Language UInt8 := {w | ∃ t, w = [t] ∧ (c = dot ∨ c = t)}

def Item.lang : Item → Language UInt8
  | .one c => single c
  | .many c => (single c)∗

structure Pattern where
  start : Bool
  items : List Item
  stop : Bool

/-- How a string is read as a pattern. -/
def pattern (re : List UInt8) : Pattern :=
  match re with
  | [] => ⟨false, [], false⟩
  | c :: rest =>
    if c = caret then ⟨true, (items rest).1, (items rest).2⟩
    else ⟨false, (items (c :: rest)).1, (items (c :: rest)).2⟩

def Pattern.lang (p : Pattern) : Language UInt8 := (p.items.map Item.lang).prod

/-- The text has a part in the language, where the anchors allow it. -/
def Pattern.Occurs (p : Pattern) (text : List UInt8) : Prop :=
  ∃ before part after, text = before ++ part ++ after ∧ part ∈ p.lang ∧
    (p.start = true → before = []) ∧ (p.stop = true → after = [])

section language
variable {c : UInt8} {w text : List UInt8}

theorem mem_single_star : w ∈ (single c)∗ ↔ ∀ t ∈ w, c = dot ∨ c = t := by
  constructor
  · rintro ⟨ws, rfl, hws⟩ t ht
    obtain ⟨v, hv, htv⟩ := List.mem_flatten.1 ht
    obtain ⟨u, rfl, hu⟩ := hws v hv
    rwa [List.mem_singleton.1 htv]
  · intro h
    refine ⟨w.map fun t => [t], by rw [← List.flatMap_def, List.flatMap_singleton'], ?_⟩
    intro v hv
    obtain ⟨t, ht, rfl⟩ := List.mem_map.1 hv
    exact ⟨t, rfl, h t ht⟩

theorem matchstar_iff {f : List UInt8 → Bool} : matchstar f c text = true ↔
    ∃ part after, text = part ++ after ∧ part ∈ (single c)∗ ∧ f after = true := by
  induction text with
  | nil =>
    rw [matchstar]
    constructor
    · intro h
      exact ⟨[], [], rfl, Language.nil_mem_kstar _, h⟩
    · rintro ⟨part, after, heq, -, h⟩
      obtain ⟨-, rfl⟩ := List.append_eq_nil_iff.1 heq.symm
      exact h
  | cons t text ih =>
    simp only [matchstar, Bool.or_eq_true, Bool.and_eq_true, beq_iff_eq, ih]
    constructor
    · rintro (h | ⟨hc, part, after, rfl, hpart, h⟩)
      · exact ⟨[], t :: text, rfl, Language.nil_mem_kstar _, h⟩
      · refine ⟨t :: part, after, rfl, ?_, h⟩
        rw [mem_single_star] at hpart ⊢
        intro u hu
        rcases List.mem_cons.1 hu with rfl | hu
        · exact hc.symm.imp id Eq.symm
        · exact hpart u hu
    · rintro ⟨part, after, heq, hpart, h⟩
      cases part with
      | nil =>
        rw [List.nil_append] at heq
        exact Or.inl (heq ▸ h)
      | cons u part =>
        rw [List.cons_append, List.cons.injEq] at heq
        obtain ⟨rfl, rfl⟩ := heq
        rw [mem_single_star] at hpart
        refine Or.inr ⟨(hpart t (List.mem_cons_self ..)).symm.imp Eq.symm id, part, after, rfl, ?_, h⟩
        rw [mem_single_star]
        exact fun v hv => hpart v (List.mem_cons_of_mem t hv)

theorem matchchar_iff {f : List UInt8 → Bool} : matchchar c f text = true ↔
    ∃ part after, text = part ++ after ∧ part ∈ single c ∧ f after = true := by
  cases text with
  | nil =>
    simp only [matchchar, Bool.false_eq_true, false_iff]
    rintro ⟨part, after, heq, ⟨t, rfl, -⟩, -⟩
    cases heq
  | cons t text =>
    simp only [matchchar, Bool.and_eq_true, Bool.or_eq_true, beq_iff_eq]
    constructor
    · rintro ⟨hc, h⟩
      exact ⟨[t], text, rfl, ⟨t, rfl, hc⟩, h⟩
    · rintro ⟨part, after, heq, ⟨u, rfl, hc⟩, h⟩
      rw [List.singleton_append, List.cons.injEq] at heq
      obtain ⟨rfl, rfl⟩ := heq
      exact ⟨hc, h⟩

end language

/-- The text begins with a part in the language of the items, which ends it if it has to. -/
def Begins (its : List Item × Bool) (text : List UInt8) : Prop :=
  ∃ part after, text = part ++ after ∧ part ∈ (its.1.map Item.lang).prod ∧
    (its.2 = true → after = [])

section matching
variable {text : List UInt8} {stop : Bool} {its : List Item}

theorem begins_nil : Begins ([], stop) text ↔ (stop = true → text = []) := by
  unfold Begins
  constructor
  · rintro ⟨part, after, rfl, hpart, hstop⟩ h
    obtain rfl : part = [] := by simpa using hpart
    exact hstop h
  · intro h
    exact ⟨[], text, rfl, by simp, h⟩

theorem begins_cons {it : Item} : Begins (it :: its, stop) text ↔
    ∃ part after, text = part ++ after ∧ part ∈ it.lang ∧ Begins (its, stop) after := by
  unfold Begins
  constructor
  · rintro ⟨part, after, rfl, hpart, hstop⟩
    rw [List.map_cons, List.prod_cons, Language.mem_mul] at hpart
    obtain ⟨u, hu, v, hv, rfl⟩ := hpart
    exact ⟨u, v ++ after, List.append_assoc .., hu, v, after, rfl, hv, hstop⟩
  · rintro ⟨u, -, rfl, hu, v, after, rfl, hv, hstop⟩
    refine ⟨u ++ v, after, (List.append_assoc ..).symm, ?_, hstop⟩
    rw [List.map_cons, List.prod_cons]
    exact Language.append_mem_mul hu hv

theorem matchhere_iff (re text : List UInt8) :
    matchhere re text = true ↔ Begins (items re) text := by
  induction re using items.induct generalizing text with
  | case1 => simp [matchhere, items, begins_nil]
  | case2 => simp [matchhere, items, begins_nil]
  | case3 c hc =>
    rw [matchhere, items, if_neg hc, if_neg hc, matchchar_iff, begins_cons]
    simp [matchhere, begins_nil, Item.lang]
  | case4 c re ih =>
    rw [matchhere, items, if_pos rfl, if_pos rfl, matchstar_iff, begins_cons]
    simp only [ih, Item.lang]
  | case5 c d re hd ih =>
    rw [matchhere, items, if_neg hd, if_neg hd, matchchar_iff, begins_cons]
    simp only [ih, Item.lang]

theorem matchfrom_iff (re text : List UInt8) : matchfrom re text = true ↔
    ∃ before rest, text = before ++ rest ∧ Begins (items re) rest := by
  induction text with
  | nil =>
    rw [matchfrom, matchhere_iff]
    constructor
    · intro h
      exact ⟨[], [], rfl, h⟩
    · rintro ⟨before, rest, heq, h⟩
      obtain ⟨-, rfl⟩ := List.append_eq_nil_iff.1 heq.symm
      exact h
  | cons t text ih =>
    rw [matchfrom, Bool.or_eq_true, matchhere_iff, ih]
    constructor
    · rintro (h | ⟨before, rest, rfl, h⟩)
      · exact ⟨[], t :: text, rfl, h⟩
      · exact ⟨t :: before, rest, rfl, h⟩
    · rintro ⟨before, rest, heq, h⟩
      cases before with
      | nil =>
        rw [List.nil_append] at heq
        exact Or.inl (heq ▸ h)
      | cons u before =>
        rw [List.cons_append, List.cons.injEq] at heq
        exact Or.inr ⟨before, rest, heq.2, h⟩

/-- Without an anchor at the start, a pattern occurs where some rest of the text begins with it. -/
theorem occurs_free {text : List UInt8} : Pattern.Occurs ⟨false, its, stop⟩ text ↔
    ∃ before rest, text = before ++ rest ∧ Begins (its, stop) rest := by
  constructor
  · rintro ⟨before, part, after, rfl, hpart, -, hstop⟩
    exact ⟨before, part ++ after, List.append_assoc .., part, after, rfl, hpart, hstop⟩
  · rintro ⟨before, -, rfl, part, after, rfl, hpart, hstop⟩
    exact ⟨before, part, after, (List.append_assoc ..).symm, hpart, nofun, hstop⟩

theorem occurs_start {text : List UInt8} :
    Pattern.Occurs ⟨true, its, stop⟩ text ↔ Begins (its, stop) text := by
  constructor
  · rintro ⟨before, part, after, rfl, hpart, hstart, hstop⟩
    obtain rfl := hstart rfl
    exact ⟨part, after, rfl, hpart, hstop⟩
  · rintro ⟨part, after, rfl, hpart, hstop⟩
    exact ⟨[], part, after, rfl, hpart, fun _ => rfl, hstop⟩

end matching

/-- `match` returns 1 exactly on the texts in which the pattern occurs. -/
theorem match_iff_occurs (re text : List UInt8) :
    matchText re text = true ↔ (pattern re).Occurs text := by
  cases re with
  | nil =>
    rw [matchText, matchfrom_iff, pattern, occurs_free]
    rfl
  | cons c rest =>
    unfold matchText pattern
    dsimp only
    by_cases hc : c = caret
    · rw [if_pos hc, if_pos hc, matchhere_iff, occurs_start]
    · rw [if_neg hc, if_neg hc, matchfrom_iff, occurs_free]

example : matchText (".*a$".toList.map fun c => UInt8.ofNat c.toNat) [98, 97] = true := by decide

end Xv6.Grep
