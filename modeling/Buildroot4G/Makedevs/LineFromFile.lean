/-
This file models how `makedevs` reads a line: `private_get_line_from_file` stores the bytes of a
file in a block that grows by steps, up to a newline or a NUL. The block is a list of bytes that
are perhaps not written yet, and to write or read past it is a failure of its own. The main result
says that the calls give the pieces of the file between the newlines and the NULs and never fail in
that way.

The sizes are of the type `int`. One past its range is negative, and then the request is one that no
allocator meets.
-/

import Buildroot4G.Fold
import Buildroot4G.Shell.Text
import Mathlib.Algebra.Group.Int.Defs
import Mathlib.Algebra.Group.Nat.Defs
import Mathlib.Data.List.Basic

namespace Buildroot4G.Makedevs

open Shell

/-! ### The function -/

/-- How the program ends in a call: it has no memory, or it leaves a block. -/
inductive Failure where
  | memoryExhausted
  | outOfBounds
  deriving DecidableEq

/-- The bytes of a block, where they are written. -/
abbrev Block := List (Option Char)

/-- The variables of a call. -/
structure LineBuffer where
  linebuf : Option Block
  linebufsz : ℤ
  idx : ℤ

def growBy : ℤ := 80

/-- The value of a sum of the type `int`. -/
def int (number : ℤ) : ℤ := number.bmod (2 ^ 32)

/-- An `int` as a `size_t`. -/
def sizeT (number : ℤ) : ℕ := (number % 2 ^ 64).toNat

section Call

variable (allocates : ℕ → Bool)

/-- No object has more than `PTRDIFF_MAX` bytes; below that it is for the allocator to say. -/
def xrealloc (ptr : Option Block) (size : ℕ) : Except Failure (Option Block) :=
  let old := ptr.getD []
  if size < 2 ^ 63 ∧ allocates size then
    .ok (some (old.take size ++ List.replicate (size - old.length) none))
  else if size ≠ 0 then .error .memoryExhausted
  else .ok none

/-- `linebuf[index] = c`. -/
def store (linebuf : Option Block) (index : ℤ) (c : Char) : Except Failure (Option Block) :=
  match linebuf with
  | none => .error .outOfBounds
  | some block =>
    if 0 ≤ index ∧ index < block.length then .ok (some (block.set index.toNat (some c)))
    else .error .outOfBounds

/-- Grow the line buffer as necessary. -/
def grow (buffer : LineBuffer) : Except Failure LineBuffer :=
  if buffer.idx > int (buffer.linebufsz - 2) then do
    let linebufsz := int (buffer.linebufsz + growBy)
    let linebuf ← xrealloc allocates buffer.linebuf (sizeT linebufsz)
    .ok { buffer with linebuf, linebufsz }
  else .ok buffer

/-- `linebuf[idx++] = ch`, where there is room for another byte. -/
def addChar (buffer : LineBuffer) (ch : Char) : Except Failure LineBuffer := do
  let buffer ← grow allocates buffer
  let linebuf ← store buffer.linebuf buffer.idx ch
  .ok { buffer with linebuf, idx := int (buffer.idx + 1) }

/-- What is behind the loop. -/
def finish (ferror : Bool) (buffer : LineBuffer) : Except Failure (Option Block) :=
  match buffer.linebuf with
  | none => .ok none
  | some _ => if ferror then .ok none else store buffer.linebuf buffer.idx '\x00'

/-- `private_get_line_from_file`: the block that is returned, and the rest of the file. -/
def privateGetLineFromFile (c : ℤ) (ferror : Bool) :
    LineBuffer → Text → Except Failure (Option Block × Text)
  | buffer, [] => do
    let linebuf ← finish ferror buffer
    .ok (linebuf, [])
  | buffer, ch :: rest => do
    let buffer ← addChar allocates buffer ch
    if ch = '\x00' then .ok (buffer.linebuf, rest)
    else if c < 2 ∧ ch = '\n' then
      let linebuf ← finish ferror
        (if c ≠ 0 then { buffer with idx := int (buffer.idx - 1) } else buffer)
      .ok (linebuf, rest)
    else privateGetLineFromFile c ferror buffer rest

/-- `bb_get_chomped_line_from_file`. -/
def bbGetChompedLineFromFile (ferror : Bool) (file : Text) :
    Except Failure (Option Block × Text) :=
  privateGetLineFromFile allocates 1 ferror ⟨none, 0, 0⟩ file

/-- The text that a caller finds in a block. -/
def blockText : Block → Except Failure Text
  | [] => .error .outOfBounds
  | none :: _ => .error .outOfBounds
  | some c :: rest =>
    if c = '\x00' then .ok []
    else do
      let text ← blockText rest
      .ok (c :: text)

/-- A call without a read error, with the text that is returned. -/
def nextLine (file : Text) : Except Failure (Option Text × Text) := do
  let (linebuf, rest) ← bbGetChompedLineFromFile allocates false file
  match linebuf with
  | none => .ok (none, rest)
  | some block => do
    let text ← blockText block
    .ok (some text, rest)

/-- So many calls. -/
def nextLines : ℕ → Text → Except Failure (List (Option Text))
  | 0, _ => .ok []
  | count + 1, file => do
    let (line, rest) ← nextLine allocates file
    let lines ← nextLines count rest
    .ok (line :: lines)

end Call

/-! ### The pieces of a file -/

def endsLine (c : Char) : Bool := c = '\n' || c = '\x00'

/-- The pieces between the newlines and the NULs; behind the last of these there may be none. -/
def pieces (file : Text) : List Text :=
  let parts := file.splitOnP endsLine
  if parts.getLast? = some [] then parts.dropLast else parts

example : pieces "ab\n\ncd".toList = ["ab".toList, [], "cd".toList] := by decide

theorem pieces_nil : pieces [] = [] := by decide

theorem pieces_append {before : Text} (free : ∀ c ∈ before, endsLine c = false) {c : Char}
    (ends : endsLine c = true) (rest : Text) :
    pieces (before ++ c :: rest) = before :: pieces rest := by
  have split : (before ++ c :: rest).splitOnP endsLine = before :: rest.splitOnP endsLine :=
    List.splitOnP_append_cons_of_forall_mem free c ends rest
  have others : rest.splitOnP endsLine ≠ [] := List.splitOnP_ne_nil _ _
  have last : (before :: rest.splitOnP endsLine).getLast? = (rest.splitOnP endsLine).getLast? := by
    rw [List.getLast?_cons, List.getLast?_eq_some_getLast others]
    rfl
  rw [pieces, pieces, split, last]
  split_ifs
  · rw [List.dropLast_cons_of_ne_nil others]
  · rfl

theorem pieces_of_free {file : Text} (free : ∀ c ∈ file, endsLine c = false)
    (nonempty : file ≠ []) : pieces file = [file] := by
  rw [pieces, List.splitOnP_eq_singleton free]
  rw [List.getLast?_singleton, if_neg fun same => nonempty (Option.some.inj same)]

/-! ### A byte is stored -/

/-- The allocator meets every request for a size of the type `int`. -/
def Enough (allocates : ℕ → Bool) : Prop := ∀ size < 2 ^ 31, allocates size = true

/-- The block begins with the bytes that are taken, and there is room behind them. -/
structure Begins (block : Block) (taken : Text) : Prop where
  bytes : taken.map some <+: block
  room : taken.length < block.length

/-- The buffer holds the bytes that are taken. -/
structure Filled (buffer : LineBuffer) (taken : Text) : Prop where
  idx : buffer.idx = taken.length
  block : ∃ block, buffer.linebuf = some block ∧ buffer.linebufsz = block.length ∧
    block.length < 2 ^ 31 ∧ Begins block taken

/-- Before a byte is read: nothing is taken and there is no block, or the buffer is filled. -/
def Ready (buffer : LineBuffer) (taken : Text) : Prop :=
  buffer = ⟨none, 0, 0⟩ ∧ taken = [] ∨ Filled buffer taken

theorem Ready.filled {buffer : LineBuffer} {taken : Text} (ready : Ready buffer taken)
    (nonempty : taken ≠ []) : Filled buffer taken :=
  ready.resolve_left fun start => nonempty start.2

theorem int_of_lt {number : ℤ} (least : -(2 ^ 31) ≤ number) (less : number < 2 ^ 31) :
    int number = number := by
  rw [int, Int.bmod_eq_of_le]
  · exact_mod_cast least
  · exact_mod_cast less

theorem int_of_le {number : ℤ} (large : 2 ^ 31 ≤ number) (less : number < 2 ^ 32) :
    int number = number - 2 ^ 32 := by
  rw [int, Int.bmod_def]
  split_ifs <;> omega

theorem sizeT_natCast {number : ℕ} (less : number < 2 ^ 31) : sizeT number = number := by
  rw [sizeT]
  omega

theorem sizeT_of_neg {number : ℤ} (least : -(2 ^ 31) ≤ number) (negative : number < 0) :
    2 ^ 63 ≤ sizeT number := by
  rw [sizeT]
  omega

theorem store_begins {block : Block} {taken : Text} (begins : Begins block taken) (c : Char) :
    ∃ block', store (some block) taken.length c = .ok (some block') ∧
      block'.length = block.length ∧ (taken ++ [c]).map some <+: block' := by
  refine ⟨block.set taken.length (some c), ?_, List.length_set, ?_⟩
  · have inside : (0 : ℤ) ≤ taken.length ∧ (taken.length : ℤ) < block.length :=
      ⟨Int.natCast_nonneg _, Int.ofNat_lt.2 begins.room⟩
    rw [store, if_pos inside, Int.toNat_natCast]
  · obtain ⟨behind, rfl⟩ := begins.bytes
    have room := begins.room
    rw [List.length_append, List.length_map] at room
    obtain ⟨old, behind, rfl⟩ : ∃ old others, behind = old :: others :=
      List.exists_cons_of_length_pos (Nat.pos_of_lt_add_right room)
    refine ⟨behind, ?_⟩
    rw [List.set_append_right (h := by rw [List.length_map]), List.length_map, Nat.sub_self,
      List.set_cons_zero, List.map_append, List.append_assoc]
    rfl

section Call

variable (allocates : ℕ → Bool)

/-- The block grows to one that holds the same bytes, where there is memory. -/
theorem xrealloc_cases (ptr : Option Block) {size : ℕ} (less : size < 2 ^ 31)
    (positive : size ≠ 0) :
    xrealloc allocates ptr size = .error .memoryExhausted ∧ ¬ Enough allocates ∨
      ∃ behind, behind.length = size - (ptr.getD []).length ∧
        xrealloc allocates ptr size = .ok (some ((ptr.getD []).take size ++ behind)) := by
  unfold xrealloc
  by_cases met : allocates size = true
  · refine Or.inr ⟨List.replicate _ none, List.length_replicate, ?_⟩
    rw [if_pos ⟨less.trans (by decide), met⟩]
  · refine Or.inl ⟨?_, fun enough => met (enough size less)⟩
    rw [if_neg fun both => met both.2, if_pos positive]

theorem xrealloc_of_le (ptr : Option Block) {size : ℕ} (large : 2 ^ 63 ≤ size) :
    xrealloc allocates ptr size = .error .memoryExhausted := by
  unfold xrealloc
  rw [if_neg fun both => absurd both.1 (Nat.not_lt.2 large), if_pos (by omega)]

/-- Behind the growth there is room for two bytes. -/
theorem grow_cases {buffer : LineBuffer} {taken : Text} (ready : Ready buffer taken) :
    grow allocates buffer = .error .memoryExhausted ∧
        ¬ (Enough allocates ∧ taken.length + 81 < 2 ^ 31) ∨
      ∃ buffer', grow allocates buffer = .ok buffer' ∧ Filled buffer' taken ∧
        (taken.length + 2 : ℤ) ≤ buffer'.linebufsz := by
  obtain ⟨linebuf, linebufsz, idx⟩ := buffer
  obtain ⟨size, rfl, old, less, bytes, index, room⟩ : ∃ size : ℕ, linebufsz = size ∧
      (linebuf.getD []).length = size ∧ size < 2 ^ 31 ∧
      taken.map some <+: linebuf.getD [] ∧ idx = taken.length ∧
      (linebuf = none ∧ taken.length = 0 ∧ size = 0 ∨
        linebuf = some (linebuf.getD []) ∧ taken.length < size) := by
    rcases ready with ⟨start, rfl⟩ | ⟨index, block, rfl, sz, less, begins⟩
    · cases start
      exact ⟨0, rfl, rfl, by decide, List.prefix_rfl, rfl, Or.inl ⟨rfl, rfl, rfl⟩⟩
    · exact ⟨block.length, sz, rfl, less, begins.bytes, index, Or.inr ⟨rfl, begins.room⟩⟩
  subst index
  rw [grow]
  dsimp only
  rw [int_of_lt (by omega) (by omega)]
  by_cases full : (taken.length : ℤ) > size - 2
  · rw [if_pos full]
    by_cases larger : size + 80 < 2 ^ 31
    · have sum : int (size + growBy) = (size + 80 : ℕ) := by
        rw [growBy, int_of_lt (by omega) (by omega)]
        rfl
      rw [sum, sizeT_natCast larger]
      rcases xrealloc_cases allocates linebuf larger (by omega) with
        ⟨fails, short⟩ | ⟨behind, length, grown⟩
      · refine Or.inl ⟨?_, fun both => short both.1⟩
        rw [fails]
        rfl
      · rw [List.take_of_length_le (by omega)] at grown
        refine Or.inr ⟨⟨some (linebuf.getD [] ++ behind), (size + 80 : ℕ), taken.length⟩, ?_,
          ⟨rfl, _, rfl, ?_, ?_, bytes.trans (List.prefix_append _ _), ?_⟩, ?_⟩
        · rw [grown]
          rfl
        · show ((size + 80 : ℕ) : ℤ) = (linebuf.getD [] ++ behind).length
          rw [List.length_append]
          omega
        · rw [List.length_append]
          omega
        · rw [List.length_append]
          omega
        · show (taken.length + 2 : ℤ) ≤ (size + 80 : ℕ)
          omega
    · refine Or.inl ⟨?_, fun both => ?_⟩
      · have negative : int (size + growBy) = (size + 80 : ℤ) - 2 ^ 32 := by
          rw [growBy, int_of_le (by omega) (by omega)]
        rw [negative, xrealloc_of_le allocates linebuf (sizeT_of_neg (by omega) (by omega))]
        rfl
      · have bound := both.2
        omega
  · rw [if_neg full]
    have some' : linebuf = some (linebuf.getD []) ∧ taken.length < size := by
      rcases room with ⟨_, short, zero⟩ | held
      · omega
      · exact held
    refine Or.inr ⟨⟨linebuf, size, taken.length⟩, rfl,
      ⟨rfl, linebuf.getD [], some'.1, by rw [old], by rw [old]; exact less, bytes, by omega⟩, by
        dsimp only
        omega⟩

/-- A byte is behind those that are taken, where there is memory. -/
theorem addChar_cases {buffer : LineBuffer} {taken : Text} (ready : Ready buffer taken)
    (ch : Char) :
    addChar allocates buffer ch = .error .memoryExhausted ∧
        ¬ (Enough allocates ∧ taken.length + 81 < 2 ^ 31) ∨
      ∃ buffer', addChar allocates buffer ch = .ok buffer' ∧ Filled buffer' (taken ++ [ch]) := by
  rw [addChar]
  rcases grow_cases allocates ready with ⟨fails, short⟩ | ⟨grown, grows, filled, room⟩
  · refine Or.inl ⟨?_, short⟩
    rw [fails]
    rfl
  · obtain ⟨index, block, held, sz, less, begins⟩ := filled
    obtain ⟨block', stored, length, bytes⟩ := store_begins begins ch
    refine Or.inr ⟨{ grown with linebuf := some block', idx := int (grown.idx + 1) }, ?_, ?_⟩
    · rw [grows]
      simp only [bind, Except.bind, held, index, stored]
    · have next : int (grown.idx + 1) = (taken ++ [ch]).length := by
        rw [index, int_of_lt (by omega) (by omega), List.length_append]
        rfl
      refine ⟨next, block', rfl, by rw [length]; exact sz, length ▸ less, bytes, ?_⟩
      rw [List.length_append, List.length_singleton]
      omega

/-! ### The end of a line -/

theorem blockText_of_prefix {taken : Text} (free : '\x00' ∉ taken) {block : Block}
    (bytes : (taken ++ ['\x00']).map some <+: block) : blockText block = .ok taken := by
  obtain ⟨behind, rfl⟩ := bytes
  induction taken with
  | nil => rfl
  | cons c rest inductionHypothesis =>
    rw [List.mem_cons, not_or] at free
    rw [List.cons_append, List.map_cons, List.cons_append, blockText, if_neg (Ne.symm free.1),
      inductionHypothesis free.2]
    rfl

/-- The last byte is taken back. -/
theorem Filled.back {buffer : LineBuffer} {taken : Text} {c : Char}
    (filled : Filled buffer (taken ++ [c])) :
    Filled { buffer with idx := int (buffer.idx - 1) } taken := by
  obtain ⟨index, block, held, sz, less, bytes, room⟩ := filled
  rw [List.length_append, List.length_singleton] at index room
  refine ⟨?_, block, held, sz, less, ?_, by omega⟩
  · show int (buffer.idx - 1) = taken.length
    rw [index, int_of_lt (by omega) (by omega)]
    omega
  · rw [List.map_append] at bytes
    exact (List.prefix_append _ _).trans bytes

/-- The bytes that are taken, and the NUL behind them. -/
theorem Filled.finish {buffer : LineBuffer} {taken : Text} (filled : Filled buffer taken)
    (free : '\x00' ∉ taken) :
    ∃ block, Makedevs.finish false buffer = .ok (some block) ∧ blockText block = .ok taken := by
  obtain ⟨index, block, held, sz, less, begins⟩ := filled
  obtain ⟨block', stored, length, bytes⟩ := store_begins begins '\x00'
  refine ⟨block', ?_, blockText_of_prefix free bytes⟩
  rw [Makedevs.finish, held, index]
  exact stored

theorem Filled.blockText {buffer : LineBuffer} {taken : Text} (free : '\x00' ∉ taken)
    (filled : Filled buffer (taken ++ ['\x00'])) :
    ∃ block, buffer.linebuf = some block ∧ Makedevs.blockText block = .ok taken :=
  let ⟨_, block, held, _, _, begins⟩ := filled
  ⟨block, held, blockText_of_prefix free begins.bytes⟩

theorem exists_split {text : Text} (ends : ¬ ∀ c ∈ text, endsLine c = false) :
    ∃ before c rest, text = before ++ c :: rest ∧ (∀ d ∈ before, endsLine d = false) ∧
      endsLine c = true := by
  induction text with
  | nil => exact absurd (fun c member => absurd member List.not_mem_nil) ends
  | cons c rest inductionHypothesis =>
    by_cases ends' : endsLine c = true
    · exact ⟨[], c, rest, rfl, fun d member => absurd member List.not_mem_nil, ends'⟩
    · rw [Bool.not_eq_true] at ends'
      obtain ⟨before, d, behind, rfl, free, last⟩ := inductionHypothesis fun free =>
        ends (List.forall_mem_cons.2 ⟨ends', free⟩)
      exact ⟨c :: before, d, behind, rfl, List.forall_mem_cons.2 ⟨ends', free⟩, last⟩

theorem not_mem_of_free {text : Text} (free : ∀ c ∈ text, endsLine c = false) : '\x00' ∉ text :=
  fun member => absurd (free _ member) (by decide)

/-! ### The loop -/

/-- The loop goes over bytes that end no line. -/
theorem read_free {before : Text} (free : ∀ c ∈ before, endsLine c = false) (behind : Text)
    {buffer : LineBuffer} {taken : Text} (ready : Ready buffer taken) :
    privateGetLineFromFile allocates 1 false buffer (before ++ behind) = .error .memoryExhausted ∧
        ¬ (Enough allocates ∧ taken.length + before.length + 81 < 2 ^ 31) ∨
      ∃ buffer', privateGetLineFromFile allocates 1 false buffer (before ++ behind) =
          privateGetLineFromFile allocates 1 false buffer' behind ∧
        Ready buffer' (taken ++ before) := by
  induction before generalizing buffer taken with
  | nil =>
    refine Or.inr ⟨buffer, rfl, ?_⟩
    rw [List.append_nil]
    exact ready
  | cons c rest inductionHypothesis =>
    have ends : endsLine c = false := free c List.mem_cons_self
    rw [endsLine, Bool.or_eq_false_iff, decide_eq_false_iff_not, decide_eq_false_iff_not] at ends
    rw [List.cons_append, privateGetLineFromFile]
    rcases addChar_cases allocates ready c with ⟨fails, short⟩ | ⟨next, adds, filled⟩
    · refine Or.inl ⟨?_, fun both => short ⟨both.1, by have bound := both.2; omega⟩⟩
      rw [fails]
      rfl
    · simp only [adds, bind, Except.bind, if_neg ends.2, ends.1, and_false, if_false]
      rcases inductionHypothesis (fun d member => free d (List.mem_cons_of_mem _ member))
          (Or.inr filled) with ⟨fails, short⟩ | ⟨last, same, ready'⟩
      · refine Or.inl ⟨fails, fun both => short ⟨both.1, ?_⟩⟩
        have bound := both.2
        rw [List.length_cons] at bound
        rw [List.length_append, List.length_singleton]
        omega
      · rw [List.append_assoc, List.singleton_append] at ready'
        exact Or.inr ⟨last, same, ready'⟩

/-- A call gives the bytes up to the newline or the NUL, where there is memory. -/
theorem nextLine_append {before : Text} (free : ∀ c ∈ before, endsLine c = false) {c : Char}
    (ends : endsLine c = true) (rest : Text) :
    nextLine allocates (before ++ c :: rest) = .error .memoryExhausted ∧
        ¬ (Enough allocates ∧ before.length + 81 < 2 ^ 31) ∨
      nextLine allocates (before ++ c :: rest) = .ok (some before, rest) := by
  rw [nextLine, bbGetChompedLineFromFile]
  rcases read_free allocates free (c :: rest) (Or.inl ⟨rfl, rfl⟩) with
    ⟨fails, short⟩ | ⟨buffer, same, ready⟩
  · refine Or.inl ⟨?_, ?_⟩
    · rw [fails]
      rfl
    · rwa [List.length_nil, Nat.zero_add] at short
  · rw [List.nil_append] at ready
    rw [same, privateGetLineFromFile]
    rcases addChar_cases allocates ready c with ⟨fails, short⟩ | ⟨next, adds, filled⟩
    · refine Or.inl ⟨?_, short⟩
      rw [fails]
      rfl
    · refine Or.inr ?_
      by_cases zero : c = '\x00'
      · subst zero
        obtain ⟨block, held, text⟩ := filled.blockText (not_mem_of_free free)
        simp only [adds, bind, Except.bind, if_true, held, text]
      · have newline : c = '\n' := by
          rw [endsLine, Bool.or_eq_true, decide_eq_true_eq, decide_eq_true_eq] at ends
          exact ends.resolve_right zero
        subst newline
        obtain ⟨block, finishes, text⟩ := filled.back.finish (not_mem_of_free free)
        have chomps : (if (1 : ℤ) ≠ 0 then { next with idx := int (next.idx - 1) } else next) =
            { next with idx := int (next.idx - 1) } := if_pos (by decide)
        have chomping : (1 : ℤ) < 2 ∧ True := ⟨by decide, trivial⟩
        simp only [adds, bind, Except.bind, if_neg zero, if_pos chomping, chomps, finishes, text]

/-- A call gives the bytes behind the last newline or NUL, where there is memory. -/
theorem nextLine_of_free {file : Text} (free : ∀ c ∈ file, endsLine c = false)
    (nonempty : file ≠ []) :
    nextLine allocates file = .error .memoryExhausted ∧
        ¬ (Enough allocates ∧ file.length + 81 < 2 ^ 31) ∨
      nextLine allocates file = .ok (some file, []) := by
  rw [nextLine, bbGetChompedLineFromFile]
  rcases read_free allocates free [] (Or.inl ⟨rfl, rfl⟩) with
    ⟨fails, short⟩ | ⟨buffer, same, ready⟩
  · rw [List.append_nil] at fails
    refine Or.inl ⟨?_, ?_⟩
    · rw [fails]
      rfl
    · rwa [List.length_nil, Nat.zero_add] at short
  · rw [List.nil_append] at ready
    rw [List.append_nil] at same
    obtain ⟨block, finishes, text⟩ := (ready.filled nonempty).finish (not_mem_of_free free)
    refine Or.inr ?_
    simp only [same, privateGetLineFromFile, bind, Except.bind, finishes, text]

theorem nextLine_nil : nextLine allocates [] = .ok (none, []) := rfl

/-! ### The calls -/

/-- A file has no piece, or a call gives the first one and leaves a file with the others. -/
theorem nextLine_cases (file : Text) :
    file = [] ∨ ∃ piece rest, pieces file = piece :: pieces rest ∧
      (nextLine allocates file = .error .memoryExhausted ∧
          ¬ (Enough allocates ∧ piece.length + 81 < 2 ^ 31) ∨
        nextLine allocates file = .ok (some piece, rest)) := by
  by_cases free : ∀ c ∈ file, endsLine c = false
  · rcases eq_or_ne file [] with empty | nonempty
    · exact Or.inl empty
    · refine Or.inr ⟨file, [], ?_, nextLine_of_free allocates free nonempty⟩
      rw [pieces_of_free free nonempty, pieces_nil]
  · obtain ⟨before, c, rest, rfl, free', ends⟩ := exists_split free
    exact Or.inr ⟨before, rest, pieces_append free' ends rest,
      nextLine_append allocates free' ends rest⟩

/-- **The calls give the pieces of the file in their order, and then nothing.** No byte is written
or read past a block; the program ends only where the allocator fails, or where the size of a block
leaves the type `int`. -/
theorem nextLines_eq (allocates : ℕ → Bool) (count : ℕ) (file : Text) :
    nextLines allocates count file = .error .memoryExhausted ∧
        ¬ (Enough allocates ∧ ∀ piece ∈ pieces file, piece.length + 81 < 2 ^ 31) ∨
      nextLines allocates count file =
        .ok ((List.range count).map fun call => (pieces file)[call]?) := by
  induction count generalizing file with
  | zero => exact Or.inr rfl
  | succ count inductionHypothesis =>
    rw [nextLines]
    rcases nextLine_cases allocates file with rfl | ⟨piece, rest, split, call⟩
    · rw [nextLine_nil allocates]
      rcases inductionHypothesis [] with ⟨fails, short⟩ | reads
      · refine Or.inl ⟨?_, short⟩
        simp only [bind, Except.bind, fails]
      · refine Or.inr ?_
        simp only [bind, Except.bind, reads, List.range_succ_eq_map, List.map_cons, List.map_map]
        rfl
    · rcases call with ⟨fails, short⟩ | reads
      · refine Or.inl ⟨?_, fun both => short ⟨both.1, both.2 piece ?_⟩⟩
        · simp only [bind, Except.bind, fails]
        · rw [split]
          exact List.mem_cons_self
      · rcases inductionHypothesis rest with ⟨fails, short⟩ | others
        · refine Or.inl ⟨?_, fun both => short ⟨both.1, fun other member => both.2 other ?_⟩⟩
          · simp only [bind, Except.bind, reads, fails]
          · rw [split]
            exact List.mem_cons_of_mem _ member
        · refine Or.inr ?_
          simp only [bind, Except.bind, reads, others, split, List.range_succ_eq_map,
            List.map_cons, List.map_map]
          rfl

end Call

end Buildroot4G.Makedevs
