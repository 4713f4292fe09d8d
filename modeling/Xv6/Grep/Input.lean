import Xv6.Grep.Match

/-!
The loop of `grep`, which keeps what `read` has given in a buffer of 1024 bytes, the list of
its first `m` bytes. The NUL that takes the place of a line's end is behind `p` before the
buffer is looked at again, and `memmove` leaves the bytes from `p` on.
-/

namespace Xv6.Grep

open List Option

def newline : UInt8 := 10

def bufSize : Nat := 1024

/-- How far from the start of the string the first `c` is; a NUL ends the string. -/
def strchr (c : UInt8) : List UInt8 → Option Nat
  | [] => none
  | b :: s => if b = 0 then none else if b = c then some 0 else (strchr c s).map (· + 1)

/-- What `write` gets for the line of length `q` at the start of the text. -/
def written (pattern text : List UInt8) (q : Nat) : List UInt8 :=
  if match_ pattern (text.take q) then text.take (q + 1) else []

/-- The inner loop: what it writes and the bytes from `p` on. -/
def scan (pattern : List UInt8) : Nat → List UInt8 → List UInt8 × List UInt8
  | 0, text => ([], text)
  | fuel + 1, text =>
    match strchr newline text with
    | none => ([], text)
    | some q =>
      let (out, rest) := scan pattern fuel (text.drop (q + 1))
      (written pattern text q ++ out, rest)

/-- `read` gives at least one byte if there is one and one was asked for; `arrives` says how
many more. -/
def read (arrives request : Nat) (input : List UInt8) : List UInt8 × List UInt8 :=
  input.splitAt (min (arrives + 1) request)

/-- The outer loop with the first `m` bytes of the buffer; the answer is what it writes. -/
def grepFrom (pattern : List UInt8) (arrives : Nat → Nat) : Nat → Nat → List UInt8 → List UInt8 → Option (List UInt8)
  | 0, _, _, _ => none
  | fuel + 1, turn, buf, input =>
    let (piece, input) := read (arrives turn) (bufSize - buf.length - 1) input
    if piece = [] then some []
    else
      let (out, rest) := scan pattern (buf ++ piece).length (buf ++ piece)
      (grepFrom pattern arrives fuel (turn + 1) rest input).map (out ++ ·)

/-- Every turn but the last takes a byte. -/
def grep (pattern : List UInt8) (arrives : Nat → Nat) (input : List UInt8) : Option (List UInt8) :=
  grepFrom pattern arrives (input.length + 1) 0 [] input

variable {s pattern : List UInt8} {q : Nat}

theorem strchr_lt {c : UInt8} (found : strchr c s = some q) : q < s.length := by
  induction s generalizing q with
  | nil => cases found
  | cons b s ih =>
    rw [strchr] at found
    split at found
    · cases found
    split at found
    · cases found
      exact Nat.succ_pos _
    · obtain ⟨before, later, rfl⟩ := map_eq_some_iff.mp found
      exact Nat.succ_lt_succ (ih later)

theorem strchr_append {c : UInt8} (found : strchr c s = some q) (more : List UInt8) :
    strchr c (s ++ more) = some q := by
  induction s generalizing q with
  | nil => cases found
  | cons b s ih =>
    rw [strchr] at found
    rw [cons_append, strchr]
    split at found
    · cases found
    next live =>
    rw [if_neg live]
    split at found
    · next here =>
      rw [if_pos here]
      exact found
    next other =>
    obtain ⟨before, later, rfl⟩ := map_eq_some_iff.mp found
    rw [if_neg other, ih later]
    rfl

theorem strchr_beyond {c : UInt8} {more : List UInt8} (none : strchr c s = none)
    (found : strchr c (s ++ more) = some q) : s.length ≤ q := by
  induction s generalizing q with
  | nil => exact Nat.zero_le q
  | cons b s ih =>
    rw [strchr] at none
    rw [cons_append, strchr] at found
    split at found
    · cases found
    next live =>
    split at found
    · next here =>
      rw [if_neg live, if_pos here] at none
      cases none
    next other =>
    rw [if_neg live, if_neg other, map_eq_none_iff] at none
    obtain ⟨before, later, rfl⟩ := map_eq_some_iff.mp found
    exact Nat.succ_le_succ (ih none later)

/-- What is written for a stream of bytes: the lines that match, up to a line that does not
fit in the buffer with its end or has a NUL in it. -/
def output (pattern stream : List UInt8) : List UInt8 :=
  match _found : strchr newline stream with
  | none => []
  | some q => if q + 1 < bufSize then written pattern stream q ++ output pattern (stream.drop (q + 1)) else []
  termination_by stream.length
  decreasing_by
    have inside := strchr_lt _found
    rw [List.length_drop]
    omega

theorem output_none {stream : List UInt8} (none : strchr newline stream = none) : output pattern stream = [] := by
  rw [output]
  split
  · rfl
  · next found => rw [none] at found; cases found

theorem output_some {stream : List UInt8} (found : strchr newline stream = some q) :
    output pattern stream = if q + 1 < bufSize then written pattern stream q ++ output pattern (stream.drop (q + 1)) else [] := by
  rw [output]
  split
  · next none => rw [none] at found; cases found
  · next other => rw [found] at other; cases other; rfl

theorem written_append {text : List UInt8} (inside : q < text.length) (more : List UInt8) :
    written pattern (text ++ more) q = written pattern text q := by
  rw [written, written, take_append_of_le_length inside.le, take_append_of_le_length inside]

theorem scan_output (pattern : List UInt8) {fuel : Nat} {text : List UInt8} (enough : text.length ≤ fuel)
    (fits : text.length < bufSize) : strchr newline (scan pattern fuel text).2 = none ∧
      (scan pattern fuel text).2.length ≤ text.length ∧
      ∀ more, output pattern (text ++ more) = (scan pattern fuel text).1 ++ output pattern ((scan pattern fuel text).2 ++ more) := by
  induction fuel generalizing text with
  | zero =>
    obtain rfl := length_eq_zero_iff.mp (Nat.le_zero.mp enough)
    exact ⟨rfl, le_rfl, fun _ => rfl⟩
  | succ fuel ih =>
    rw [scan]
    cases found : strchr newline text with
    | none => exact ⟨found, le_rfl, fun _ => rfl⟩
    | some q =>
      have inside := strchr_lt found
      have shorter : (text.drop (q + 1)).length + (q + 1) = text.length := by
        rw [length_drop]
        omega
      obtain ⟨none, less, same⟩ := ih (show (text.drop (q + 1)).length ≤ fuel by omega) (by omega)
      refine ⟨none, less.trans (by omega), fun more => ?_⟩
      rw [output_some (strchr_append found more), if_pos (by omega), written_append inside,
        drop_append_of_le_length (by omega), same more, append_assoc]

theorem grepFrom_output (pattern : List UInt8) (arrives : Nat → Nat) {fuel turn : Nat} {buf input : List UInt8}
    (enough : input.length < fuel) (fits : buf.length < bufSize) (none : strchr newline buf = none) :
    grepFrom pattern arrives fuel turn buf input = some (output pattern (buf ++ input)) := by
  induction fuel generalizing turn buf input with
  | zero => omega
  | succ fuel ih =>
    have given : read (arrives turn) (bufSize - buf.length - 1) input =
      (input.take (min (arrives turn + 1) (bufSize - buf.length - 1)),
        input.drop (min (arrives turn + 1) (bufSize - buf.length - 1))) := splitAt_eq ..
    generalize size : min (arrives turn + 1) (bufSize - buf.length - 1) = n at given
    rw [grepFrom, given]
    dsimp only
    by_cases stop : input.take n = []
    · -- the input is at its end, or the buffer is full and no line is complete
      rw [if_pos stop]
      congr 1
      cases found : strchr newline (buf ++ input) with
      | none => exact (output_none found).symm
      | some q =>
        have beyond := strchr_beyond none found
        have inside := strchr_lt found
        rw [take_eq_nil_iff] at stop
        rcases stop with full | rfl
        · rw [output_some found, if_neg (by omega)]
        · rw [append_nil] at found
          rw [none] at found
          cases found
    · rw [if_neg stop]
      have some : 0 < (input.take n).length := length_pos_iff.mpr stop
      rw [length_take] at some
      have length : (buf ++ input.take n).length < bufSize := by
        rw [length_append, length_take]
        omega
      obtain ⟨clean, less, same⟩ := scan_output pattern le_rfl length
      rw [ih (by rw [length_drop]; omega) (by omega) clean, map_some, ← same, append_assoc, take_append_drop]

theorem grep_output (pattern : List UInt8) (arrives : Nat → Nat) (input : List UInt8) :
    grep pattern arrives input = some (output pattern input) :=
  grepFrom_output pattern arrives (Nat.lt_succ_self _) (by decide) rfl

/-- However the input arrives, `grep` ends and writes the same. -/
theorem grep_arrival (pattern input : List UInt8) (arrives others : Nat → Nat) :
    ∃ out, grep pattern arrives input = some out ∧ grep pattern others input = some out :=
  ⟨output pattern input, grep_output pattern arrives input, grep_output pattern others input⟩

structure Line where
  bytes : List UInt8
  oneLine : newline ∉ bytes
  noNul : 0 ∉ bytes

def file (lines : List Line) : List UInt8 := lines.flatMap fun line => line.bytes ++ [newline]

def Line.short (line : Line) : Bool := line.bytes.length ≤ 1022

def Line.matching (pattern : List UInt8) (line : Line) : Bool := match_ pattern line.bytes

theorem strchr_line {line : List UInt8} (oneLine : newline ∉ line) (noNul : 0 ∉ line) (more : List UInt8) :
    strchr newline (line ++ newline :: more) = some line.length := by
  induction line with
  | nil => rfl
  | cons b line ih =>
    rw [mem_cons, not_or] at oneLine noNul
    rw [cons_append, strchr, if_neg (Ne.symm noNul.1), if_neg (Ne.symm oneLine.1), ih oneLine.2 noNul.2]
    rfl

theorem output_line (pattern : List UInt8) (line : Line) (more : List UInt8) :
    output pattern (line.bytes ++ newline :: more) =
      if line.short then (if line.matching pattern then line.bytes ++ [newline] else []) ++ output pattern more else [] := by
  have upto : (line.bytes ++ newline :: more).take (line.bytes.length + 1) = line.bytes ++ [newline] :=
    take_length_add_append 1
  have after : (line.bytes ++ newline :: more).drop (line.bytes.length + 1) = more :=
    drop_length_add_append 1
  have fits : line.bytes.length + 1 < bufSize ↔ line.short = true := by
    rw [Line.short, decide_eq_true_iff, bufSize]
    omega
  rw [output_some (strchr_line line.oneLine line.noNul more), if_congr fits rfl rfl, written, take_left, upto, after]
  rfl

theorem output_file (pattern : List UInt8) (lines : List Line) :
    output pattern (file lines) = file ((lines.takeWhile Line.short).filter (Line.matching pattern)) := by
  induction lines with
  | nil => exact output_none rfl
  | cons line lines ih =>
    have first : file (line :: lines) = line.bytes ++ newline :: file lines := by
      simp [file]
    rw [first, output_line, takeWhile_cons]
    split
    · rw [filter_cons, ih]
      split
      · simp [file]
      · rfl
    · rfl

theorem file_filter (pattern : List UInt8) (lines : List Line) :
    file (lines.filter fun line => line.short && line.matching pattern) =
      file ((lines.takeWhile Line.short).filter (Line.matching pattern)) ++
        file ((lines.dropWhile Line.short).filter fun line => line.short && line.matching pattern) := by
  have before : (lines.takeWhile Line.short).filter (fun line => line.short && line.matching pattern) =
      (lines.takeWhile Line.short).filter (Line.matching pattern) := by
    refine filter_congr fun line member => ?_
    rw [mem_takeWhile_imp member, Bool.true_and]
  conv_lhs => rw [← takeWhile_append_dropWhile (p := Line.short) (l := lines)]
  rw [filter_append, before, file, flatMap_append]
  rfl

/-- The short lines that match are written, in order and once each, if none of them comes
after a line that does not fit in the buffer, and only then: such a line ends the loop. -/
theorem grep_lines_iff (pattern : List UInt8) (arrives : Nat → Nat) (lines : List Line) :
    grep pattern arrives (file lines) = some (file (lines.filter fun line => line.short && line.matching pattern)) ↔
      ∀ line ∈ lines.dropWhile Line.short, line.short → ¬ line.matching pattern := by
  rw [grep_output, output_file, some_inj, file_filter, self_eq_append_right, file, flatMap_eq_nil_iff]
  constructor
  · intro none line member short matching
    exact absurd (none line (mem_filter.mpr ⟨member, by rw [short, matching]; rfl⟩)) (append_ne_nil_of_right_ne_nil _ nofun)
  intro none line member
  obtain ⟨inside, both⟩ := mem_filter.mp member
  rw [Bool.and_eq_true] at both
  exact absurd both.2 (none line inside both.1)

def longLine : Line where
  bytes := List.replicate 1023 97
  oneLine inside := absurd (List.eq_of_mem_replicate inside) (by decide)
  noNul inside := absurd (List.eq_of_mem_replicate inside) (by decide)

/-- The line `b` after the long one is not written although it matches. -/
theorem grep_stops_at_long_line : match_ [98] [98] = true ∧
    grep [98] (fun _ => 0) (file [longLine, ⟨[98], by decide, by decide⟩]) = some [] := by
  have long : longLine.short = false := by
    rw [Line.short, longLine, length_replicate]
    rfl
  refine ⟨by decide, ?_⟩
  rw [grep_output, output_file, takeWhile_cons, long]
  rfl

end Xv6.Grep
