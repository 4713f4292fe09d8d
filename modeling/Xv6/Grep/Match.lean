import Mathlib

/-!
The matcher of `user/grep.c`. A string that a pointer gives is the list of its bytes before
the NUL, so `re[0] == '\0'` says that the list is empty and `re + 1` is its tail.
-/

namespace Xv6.Grep

open List Bool

def caret : UInt8 := 94
def dollar : UInt8 := 36
def star : UInt8 := 42
def dot : UInt8 := 46

/-- The loop of `matchstar`, for what `matchhere(re, _)` answers. -/
def matchstarLoop (here : List UInt8 → Bool) (c : UInt8) : List UInt8 → Bool
  | [] => here []
  | t :: text => here (t :: text) || ((t == c || c == dot) && matchstarLoop here c text)

/-- One character of the pattern against one of the text, and the rest of the pattern on what follows. -/
def matchone (here : List UInt8 → Bool) (r : UInt8) : List UInt8 → Bool
  | [] => false
  | t :: text => (r == dot || r == t) && here text

def matchhere : List UInt8 → List UInt8 → Bool
  | [], _ => true
  | [r], text => if r = dollar then text.isEmpty else matchone (fun _ => true) r text
  | r :: next :: re, text =>
    if next = star then matchstarLoop (fun text => matchhere re text) r text
    else matchone (fun text => matchhere (next :: re) text) r text

def matchstar (c : UInt8) (re text : List UInt8) : Bool := matchstarLoop (matchhere re) c text

/-- The loop of `match`; it looks at the empty string too. -/
def matchFrom (re : List UInt8) : List UInt8 → Bool
  | [] => matchhere re []
  | t :: text => matchhere re (t :: text) || matchFrom re text

def match_ (re text : List UInt8) : Bool :=
  match re with
  | [] => matchFrom [] text
  | r :: rest => if r = caret then matchhere rest text else matchFrom (r :: rest) text

inductive Item
  | one (c : UInt8)
  | many (c : UInt8)
  deriving DecidableEq

/-- `atEnd` is for a final `$` without a star. -/
structure Regexp where
  items : List Item
  atEnd : Bool
  deriving DecidableEq

def Regexp.cons (item : Item) (re : Regexp) : Regexp := { re with items := item :: re.items }

def parse : List UInt8 → Regexp
  | [] => ⟨[], false⟩
  | [r] => if r = dollar then ⟨[], true⟩ else ⟨[.one r], false⟩
  | r :: next :: re => if next = star then (parse re).cons (.many r) else (parse (next :: re)).cons (.one r)

def single (c : UInt8) : Language UInt8 := fun word => ∃ x, (c = dot ∨ x = c) ∧ word = [x]

def Item.lang : Item → Language UInt8
  | .one c => single c
  | .many c => KStar.kstar (single c)

def Regexp.lang (re : Regexp) : Language UInt8 := (re.items.map Item.lang).prod

/-- A start of the text is in the language; with `$` it is the whole text. -/
def Regexp.Begins (re : Regexp) (text : List UInt8) : Prop :=
  ∃ word rest, text = word ++ rest ∧ word ∈ re.lang ∧ (re.atEnd = true → rest = [])

def body (re : List UInt8) : Regexp := parse (if re.head? = some caret then re.tail else re)

/-- A part of the text is in the language; it is at the beginning for a leading `^` and at the
end for a final `$`. -/
def Matches (re text : List UInt8) : Prop :=
  ∃ before word after, text = before ++ (word ++ after) ∧ word ∈ (body re).lang ∧
    (re.head? = some caret → before = []) ∧ ((body re).atEnd = true → after = [])

theorem mem_kstar_single (c : UInt8) (word : List UInt8) : word ∈ KStar.kstar (single c) ↔ ∀ x ∈ word, c = dot ∨ x = c := by
  rw [Language.mem_kstar]
  constructor
  · rintro ⟨words, rfl, each⟩ x member
    obtain ⟨part, inside, here⟩ := mem_flatten.mp member
    obtain ⟨y, fits, rfl⟩ := each part inside
    rw [mem_singleton.mp here]
    exact fits
  intro fits
  refine ⟨word.map fun x => [x], ?_, fun part member => ?_⟩
  · rw [← flatMap_def, flatMap_singleton']
  · obtain ⟨x, inside, rfl⟩ := mem_map.mp member
    exact ⟨x, fits x inside, rfl⟩

variable {text : List UInt8}

theorem begins_cons {item : Item} {re : Regexp} :
    (re.cons item).Begins text ↔ ∃ first rest, text = first ++ rest ∧ first ∈ item.lang ∧ re.Begins rest := by
  constructor
  · rintro ⟨word, rest, rfl, member, ends⟩
    obtain ⟨first, here, later, there, rfl⟩ := Language.mem_mul.mp (show word ∈ item.lang * re.lang from member)
    exact ⟨first, later ++ rest, append_assoc .., here, later, rest, rfl, there, ends⟩
  · rintro ⟨first, _, rfl, here, later, rest, rfl, there, ends⟩
    exact ⟨first ++ later, rest, (append_assoc ..).symm, Language.append_mem_mul here there, ends⟩

theorem begins_one {c : UInt8} {re : Regexp} :
    (re.cons (.one c)).Begins text ↔ ∃ t rest, text = t :: rest ∧ (c = dot ∨ t = c) ∧ re.Begins rest := by
  rw [begins_cons]
  constructor
  · rintro ⟨_, rest, rfl, ⟨t, fits, rfl⟩, later⟩
    exact ⟨t, rest, rfl, fits, later⟩
  · rintro ⟨t, rest, rfl, fits, later⟩
    exact ⟨[t], rest, rfl, ⟨t, fits, rfl⟩, later⟩

theorem begins_nil (atEnd : Bool) (text : List UInt8) : Regexp.Begins ⟨[], atEnd⟩ text ↔ (atEnd = true → text = []) := by
  constructor
  · rintro ⟨word, rest, rfl, member, ends⟩ last
    rw [(Language.mem_one word).mp member, ends last]
    rfl
  · exact fun ends => ⟨[], text, rfl, Language.nil_mem_one, ends⟩

theorem matchstarLoop_iff {here : List UInt8 → Bool} {c : UInt8} : matchstarLoop here c text = true ↔
      ∃ run rest, text = run ++ rest ∧ (∀ x ∈ run, c = dot ∨ x = c) ∧ here rest = true := by
  induction text with
  | nil =>
    refine ⟨fun found => ⟨[], [], rfl, nofun, found⟩, ?_⟩
    rintro ⟨run, rest, split, _, found⟩
    rwa [(append_eq_nil_iff.mp split.symm).2] at found
  | cons t text ih =>
    simp only [matchstarLoop, or_eq_true, and_eq_true, beq_iff_eq, ih]
    constructor
    · rintro (found | ⟨fits, run, rest, rfl, all, found⟩)
      · exact ⟨[], t :: text, rfl, nofun, found⟩
      refine ⟨t :: run, rest, rfl, ?_, found⟩
      rintro x (_ | ⟨_, later⟩)
      · exact fits.symm
      · exact all x later
    rintro ⟨run, rest, split, all, found⟩
    cases run with
    | nil => exact .inl (split ▸ found)
    | cons x run =>
      obtain ⟨rfl, rfl⟩ := List.cons.inj split
      exact .inr ⟨(all t mem_cons_self).symm, run, rest, rfl, fun y later => all y (.tail _ later), found⟩

theorem matchone_iff {here : List UInt8 → Bool} {r : UInt8} :
    matchone here r text = true ↔ ∃ t rest, text = t :: rest ∧ (r = dot ∨ t = r) ∧ here rest = true := by
  cases text with
  | nil => simp [matchone]
  | cons t text =>
    simp only [matchone, and_eq_true, or_eq_true, beq_iff_eq]
    constructor
    · exact fun found => ⟨t, text, rfl, found.1.imp_right Eq.symm, found.2⟩
    · rintro ⟨_, _, same, fits, found⟩
      obtain ⟨rfl, rfl⟩ := List.cons.inj same
      exact ⟨fits.imp_right Eq.symm, found⟩

theorem matchhere_iff (re text : List UInt8) : matchhere re text = true ↔ (parse re).Begins text := by
  induction re using parse.induct generalizing text with
  | case1 | case2 => simp [matchhere, parse, begins_nil]
  | case3 r plain =>
    have one : (⟨[.one r], false⟩ : Regexp) = Regexp.cons (.one r) ⟨[], false⟩ := rfl
    rw [matchhere, parse, if_neg plain, if_neg plain, matchone_iff, one, begins_one]
    simp only [begins_nil, false_eq_true, false_implies]
  | case4 r re ih =>
    simp only [matchhere, parse, if_true, matchstarLoop_iff, begins_cons, Item.lang, mem_kstar_single, ih]
  | case5 r next re plain ih =>
    simp only [matchhere, parse, if_neg plain, matchone_iff, begins_one, ih]

theorem matchFrom_iff (re text : List UInt8) :
    matchFrom re text = true ↔ ∃ before after, text = before ++ after ∧ matchhere re after = true := by
  induction text with
  | nil =>
    refine ⟨fun found => ⟨[], [], rfl, found⟩, ?_⟩
    rintro ⟨before, after, split, found⟩
    rwa [(append_eq_nil_iff.mp split.symm).2] at found
  | cons t text ih =>
    simp only [matchFrom, or_eq_true, ih]
    constructor
    · rintro (found | ⟨before, after, rfl, found⟩)
      · exact ⟨[], t :: text, rfl, found⟩
      · exact ⟨t :: before, after, rfl, found⟩
    rintro ⟨before, after, split, found⟩
    cases before with
    | nil => exact .inl (split ▸ found)
    | cons x before =>
      obtain ⟨rfl, rfl⟩ := List.cons.inj split
      exact .inr ⟨before, after, rfl, found⟩

theorem matches_iff {re : List UInt8} :
    Matches re text ↔ ∃ before after, text = before ++ after ∧ (re.head? = some caret → before = []) ∧ (body re).Begins after := by
  constructor
  · rintro ⟨before, word, after, split, member, starts, ends⟩
    exact ⟨before, word ++ after, split, starts, word, after, rfl, member, ends⟩
  · rintro ⟨before, _, split, starts, word, after, rfl, member, ends⟩
    exact ⟨before, word, after, split, member, starts, ends⟩

theorem match_iff (re text : List UInt8) : match_ re text = true ↔ Matches re text := by
  rw [matches_iff]
  unfold match_
  cases re with
  | nil => simp [body, matchFrom_iff, matchhere_iff]
  | cons r rest =>
    by_cases start : r = caret
    · simp [body, start, matchhere_iff]
    · simp [body, start, matchFrom_iff, matchhere_iff]

example : match_ [caret, star] [star] = true ∧ match_ [dollar, star, dollar] [97] = true := by decide

end Xv6.Grep
