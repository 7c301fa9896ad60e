/-
This file models the `read` builtin of bash, called without `-r`: a backslash
quotes the character behind it, a quoted newline continues the line, and the
call fails at the end of the input when the last line has no newline, so that a
loop `while read ...` never sees that line. A line is then split at unquoted
blanks, one word for each variable, with the rest of the line in the last one.

A character of a line carries whether it was quoted, because a quoted blank does
not separate words.
-/

import Buildroot4G.Shell.Text

namespace Shell

/-- A character read from a line, and whether a backslash quoted it. -/
abbrev QuotedChar := Char × Bool

/-- The lines of a text and what is behind the last of them, `current` being what was read of the
current line. -/
def readFrom : List QuotedChar → Text → List (List QuotedChar) × List QuotedChar
  | current, [] => ([], current)
  | current, c :: rest =>
    if c = '\\' then
      match rest with
      | [] => ([], current)
      | d :: tail =>
        if d = '\n' then readFrom current tail
        else readFrom (current ++ [(d, true)]) tail
    else if c = '\n' then
      let (lines, behind) := readFrom [] rest
      (current :: lines, behind)
    else readFrom (current ++ [(c, false)]) rest

/-- A text as `read` reads it, up to the end of the input. bash drops NUL characters. -/
def readText (text : Text) : List (List QuotedChar) × List QuotedChar :=
  readFrom [] (text.filter fun c => c ≠ '\x00')

/-- The lines the loop `while read` sees. -/
def readLines (text : Text) : List (List QuotedChar) := (readText text).1

/-- What the loop misses: a last line without its newline. -/
def unendedLine (text : Text) : List QuotedChar := (readText text).2

/-- A blank that separates words. -/
def separates (c : QuotedChar) : Bool := isBlank c.1 && !c.2

def trimEnd (line : List QuotedChar) : List QuotedChar :=
  (line.reverse.dropWhile separates).reverse

/-- The values `read` gives to its variables: a word each, and the rest to the last one. -/
def readFields : Nat → List QuotedChar → List Text
  | 0, _ => []
  | 1, line => [(trimEnd (line.dropWhile separates)).map Prod.fst]
  | count + 2, line =>
    let word := line.dropWhile separates
    (word.takeWhile fun c => !separates c).map Prod.fst ::
      readFields (count + 1) (word.dropWhile fun c => !separates c)

/-- A piece of a text with no character quoted. -/
def unquoted (piece : Text) : List QuotedChar := piece.map fun c => (c, false)

/-- A line without words gives nothing to every variable. -/
theorem readFields_nil (count : Nat) : ∀ word ∈ readFields count [], word = [] := by
  induction count with
  | zero => nofun
  | succ count inductionHypothesis =>
    intro word member
    cases count with
    | zero => exact List.mem_singleton.mp member
    | succ count =>
      rcases List.mem_cons.mp member with first | later
      · exact first
      · exact inductionHypothesis word later

/-- A variable gets nothing only when no words are left for the others. -/
theorem readFields_cons_of_nil {count : Nat} {line : List QuotedChar} {rest : List Text}
    (fields : readFields (count + 2) line = [] :: rest) : ∀ word ∈ rest, word = [] := by
  obtain ⟨empty, rest'⟩ := List.cons.inj fields
  have noWord : line.dropWhile separates = [] := by
    cases word : line.dropWhile separates with
    | nil => rfl
    | cons c tail =>
      have stops := List.head?_dropWhile_not separates line
      rw [word] at stops empty
      change separates c = false at stops
      rw [List.takeWhile_cons_of_pos (by rw [stops]; rfl)] at empty
      cases empty
  rw [noWord] at rest'
  rw [← rest']
  exact readFields_nil (count + 1)

/-! ### Pieces of lines -/

/-- What is read of a piece of a line, whatever is before it and behind it. -/
def ReadsAs (piece : Text) (read : List QuotedChar) : Prop :=
  ∀ current rest, readFrom current (piece ++ rest) = readFrom (current ++ read) rest

theorem readsAs_nil : ReadsAs [] [] := by
  intro current rest
  rw [List.nil_append, List.append_nil]

theorem ReadsAs.append {first second : Text} {firstRead secondRead : List QuotedChar}
    (firstReads : ReadsAs first firstRead) (secondReads : ReadsAs second secondRead) :
    ReadsAs (first ++ second) (firstRead ++ secondRead) := by
  intro current rest
  rw [List.append_assoc, firstReads, secondReads, List.append_assoc]

theorem readsAs_singleton {c : Char} (noBackslash : c ≠ '\\') (noNewline : c ≠ '\n') :
    ReadsAs [c] [(c, false)] := by
  intro current rest
  rw [List.singleton_append, readFrom.eq_def]
  simp only [if_neg noBackslash, if_neg noNewline]

theorem readsAs_quoted {c : Char} (noNewline : c ≠ '\n') : ReadsAs ['\\', c] [(c, true)] := by
  intro current rest
  rw [List.cons_append, List.singleton_append, readFrom.eq_def]
  simp only [if_true, if_neg noNewline]

theorem readsAs_unquoted {text : Text} (plain : ∀ c ∈ text, c ≠ '\\' ∧ c ≠ '\n') :
    ReadsAs text (unquoted text) := by
  induction text with
  | nil => exact readsAs_nil
  | cons c rest inductionHypothesis =>
    obtain ⟨here, later⟩ := List.forall_mem_cons.mp plain
    exact (readsAs_singleton here.1 here.2).append (inductionHypothesis later)

theorem ReadsAs.unique {piece : Text} {first second : List QuotedChar}
    (firstReads : ReadsAs piece first) (secondReads : ReadsAs piece second) : first = second := by
  have same := (firstReads [] []).symm.trans (secondReads [] [])
  rw [readFrom, readFrom] at same
  exact (Prod.mk.inj same).2

/-- The newline behind a text is quoted: the last backslash of the text is not. -/
def quotesNewline : Text → Bool
  | [] => false
  | '\\' :: [] => true
  | '\\' :: _ :: rest => quotesNewline rest
  | _ :: rest => quotesNewline rest

/-- What is read of a line without its newline. -/
def readPiece (piece : Text) : List QuotedChar := (readFrom [] piece).2

/-- The last case of `quotesNewline` is that of another character. -/
theorem plain_of_cases {c : Char} {rest : Text} (notLast : c = '\\' → rest = [] → False)
    (noBackslash : ∀ d tail, c = '\\' → rest = d :: tail → False) : c ≠ '\\' := by
  intro same
  cases rest with
  | nil => exact notLast same rfl
  | cons d tail => exact noBackslash d tail same rfl

/-- Without a newline, what is read of a text comes behind what was read. -/
theorem readFrom_of_noNewline {piece : Text} (noNewline : '\n' ∉ piece)
    (current : List QuotedChar) : readFrom current piece = ([], current ++ readPiece piece) := by
  rw [readPiece]
  fun_induction quotesNewline piece generalizing current with
  | case1 => rw [readFrom, readFrom, List.append_nil]
  | case2 => rw [readFrom.eq_def, readFrom.eq_def]; simp
  | case3 d rest inductionHypothesis =>
    have notNext : d ≠ '\n' := fun same => noNewline (by simp [same])
    have behind : '\n' ∉ rest := fun member => noNewline (by simp [member])
    have reads := fun current => readsAs_quoted notNext current rest
    have same : '\\' :: d :: rest = ['\\', d] ++ rest := rfl
    rw [same, reads, reads, inductionHypothesis behind, inductionHypothesis behind ([] ++ _),
      List.nil_append, List.append_assoc]
  | case4 c rest notLast noBackslash inductionHypothesis =>
    have notHere : c ≠ '\n' := fun same => noNewline (by simp [same])
    have behind : '\n' ∉ rest := fun member => noNewline (by simp [member])
    have reads := fun current => readsAs_singleton (plain_of_cases notLast noBackslash) notHere
      current rest
    have same : c :: rest = [c] ++ rest := rfl
    rw [same, reads, reads, inductionHypothesis behind, inductionHypothesis behind ([] ++ _),
      List.nil_append, List.append_assoc]

/-- What is read of a text that begins with a piece. -/
theorem readPiece_append {piece rest : Text} {read : List QuotedChar}
    (reads : ReadsAs piece read) (noNewline : '\n' ∉ rest) :
    readPiece (piece ++ rest) = read ++ readPiece rest := by
  rw [readPiece, reads, List.nil_append, readFrom_of_noNewline noNewline]

/-- A line whose newline is not quoted is read alone. -/
theorem readsAs_piece {piece : Text} (noNewline : '\n' ∉ piece)
    (ends : quotesNewline piece = false) :
    ReadsAs piece (readPiece piece) := by
  fun_induction quotesNewline piece with
  | case1 => exact readsAs_nil
  | case2 => cases ends
  | case3 d rest inductionHypothesis =>
    have behind : '\n' ∉ rest := fun member => noNewline (by simp [member])
    have reads := readsAs_quoted (c := d) fun same => noNewline (by simp [same])
    have same : '\\' :: d :: rest = ['\\', d] ++ rest := rfl
    rw [same, readPiece_append reads behind]
    exact reads.append (inductionHypothesis behind ends)
  | case4 c rest notLast noBackslash inductionHypothesis =>
    have behind : '\n' ∉ rest := fun member => noNewline (by simp [member])
    have reads := readsAs_singleton (plain_of_cases notLast noBackslash) fun same =>
      noNewline (by simp [same])
    have same : c :: rest = [c] ++ rest := rfl
    rw [same, readPiece_append reads behind]
    exact reads.append (inductionHypothesis behind ends)

theorem quotesNewline_of_plain {piece : Text} (plain : '\\' ∉ piece) :
    quotesNewline piece = false := by
  fun_induction quotesNewline piece with
  | case1 => rfl
  | case2 => exact absurd List.mem_cons_self plain
  | case3 => exact absurd List.mem_cons_self plain
  | case4 c rest _ _ inductionHypothesis =>
    exact inductionHypothesis fun member => plain (List.mem_cons_of_mem c member)

/-- A piece without a backslash is read as it stands. -/
theorem readPiece_of_plain {piece : Text} (plain : '\\' ∉ piece) (noNewline : '\n' ∉ piece) :
    readPiece piece = unquoted piece :=
  (readsAs_piece noNewline (quotesNewline_of_plain plain)).unique
    (readsAs_unquoted fun _ member =>
      ⟨fun same => plain (same ▸ member), fun same => noNewline (same ▸ member)⟩)

/-- Where no newline is quoted, the lines, with what is behind the last of them, are read piece by
piece. -/
theorem readFrom_intercalate {pieces : List Text} (nonempty : pieces ≠ [])
    (noNewline : ∀ piece ∈ pieces, '\n' ∉ piece)
    (ends : ∀ piece ∈ pieces.dropLast, quotesNewline piece = false) :
    (readFrom [] (['\n'].intercalate pieces)).1 ++ [(readFrom [] (['\n'].intercalate pieces)).2] =
      pieces.map readPiece := by
  induction pieces with
  | nil => exact absurd rfl nonempty
  | cons piece rest inductionHypothesis =>
    obtain ⟨here, later⟩ := List.forall_mem_cons.mp noNewline
    cases rest with
    | nil =>
      rw [List.intercalate_singleton, readFrom_of_noNewline here]
      rfl
    | cons next others =>
      obtain ⟨endsHere, endsLater⟩ := List.forall_mem_cons.mp ends
      have reads := readsAs_piece here endsHere [] ('\n' :: ['\n'].intercalate (next :: others))
      have step : readFrom ([] ++ readPiece piece)
          ('\n' :: ['\n'].intercalate (next :: others)) =
            (readPiece piece :: (readFrom [] (['\n'].intercalate (next :: others))).1,
              (readFrom [] (['\n'].intercalate (next :: others))).2) := by
        rw [readFrom.eq_def]
        simp
      rw [List.intercalate_cons_cons, List.append_assoc, List.singleton_append, reads, step,
        List.map_cons,
        ← inductionHypothesis (List.cons_ne_nil next others) later endsLater]
      rfl

/-- The characters of a line that bash does not drop. -/
def dropNuls (piece : Text) : Text := piece.filter fun c => c ≠ '\x00'

theorem dropNuls_intercalate (pieces : List Text) :
    dropNuls (['\n'].intercalate pieces) = ['\n'].intercalate (pieces.map dropNuls) := by
  induction pieces with
  | nil => rfl
  | cons piece rest inductionHypothesis =>
    cases rest with
    | nil => rw [List.intercalate_singleton, List.map_singleton, List.intercalate_singleton]
    | cons next others =>
      rw [List.intercalate_cons_cons, List.map_cons, List.map_cons, List.intercalate_cons_cons,
        ← List.map_cons, ← inductionHypothesis]
      simp [dropNuls]

theorem readText_pieces {text : Text}
    (ends : ∀ piece ∈ (text.splitOn '\n').dropLast, quotesNewline (dropNuls piece) = false) :
    readLines text ++ [unendedLine text] =
      (text.splitOn '\n').map fun piece => readPiece (dropNuls piece) := by
  have whole : (text.filter fun c => c ≠ '\x00') =
      ['\n'].intercalate ((text.splitOn '\n').map dropNuls) := by
    rw [← dropNuls_intercalate, List.intercalate_splitOn]
    rfl
  have nonempty : (text.splitOn '\n').map dropNuls ≠ [] := by
    rw [List.splitOn_eq_splitOnP]
    exact fun empty => List.splitOnP_ne_nil _ _ (List.map_eq_nil_iff.mp empty)
  rw [readLines, unendedLine, readText, whole, readFrom_intercalate nonempty, List.map_map]
  · rfl
  · intro piece member
    obtain ⟨raw, isRaw, rfl⟩ := List.mem_map.mp member
    exact fun inside => not_mem_of_mem_splitOn isRaw (List.mem_of_mem_filter inside)
  · intro piece member
    rw [← List.map_dropLast] at member
    obtain ⟨raw, isRaw, rfl⟩ := List.mem_map.mp member
    exact ends raw isRaw

/-- The lines of a text that was written line by line. -/
theorem readLines_flatMap {α : Type} {line : α → Text} {read : α → List QuotedChar}
    {items : List α} (reads : ∀ item ∈ items, ReadsAs (line item) (read item))
    (noNul : ∀ item ∈ items, '\x00' ∉ line item) :
    readLines (items.flatMap fun item => line item ++ ['\n']) = items.map read := by
  have whole : ((items.flatMap fun item => line item ++ ['\n']).filter fun c => c ≠ '\x00') =
      items.flatMap fun item => line item ++ ['\n'] := by
    refine List.filter_eq_self.mpr fun c inside => decide_eq_true fun isNul => ?_
    obtain ⟨item, isItem, inLine⟩ := List.mem_flatMap.mp (isNul ▸ inside)
    rcases List.mem_append.mp inLine with here | newline
    · exact noNul item isItem here
    · exact absurd (List.mem_singleton.mp newline) (by decide)
  rw [readLines, readText, whole]
  clear whole noNul
  induction items with
  | nil => rfl
  | cons item rest inductionHypothesis =>
    obtain ⟨here, later⟩ := List.forall_mem_cons.mp reads
    have step : readFrom (read item)
        ('\n' :: rest.flatMap fun item => line item ++ ['\n']) =
          (read item :: (readFrom [] (rest.flatMap fun item => line item ++ ['\n'])).1,
            (readFrom [] (rest.flatMap fun item => line item ++ ['\n'])).2) := by
      rw [readFrom.eq_def]
      simp
    rw [List.flatMap_cons, List.append_assoc, List.singleton_append, here, List.nil_append, step,
      inductionHypothesis later]
    rfl

/-- A word and what is behind it, up to the blanks at its end. -/
theorem readFields_two {word rest : List QuotedChar} (isWord : ∀ c ∈ word, separates c = false)
    (nonempty : word ≠ []) {blank : QuotedChar} (isBlank : separates blank = true) :
    readFields 2 (word ++ blank :: rest) =
      [word.map Prod.fst, (trimEnd (rest.dropWhile separates)).map Prod.fst] := by
  have begins : (word ++ blank :: rest).dropWhile separates = word ++ blank :: rest := by
    cases word with
    | nil => exact absurd rfl nonempty
    | cons c tail =>
      rw [List.cons_append, List.dropWhile_cons_of_neg]
      rw [isWord c List.mem_cons_self]
      exact Bool.false_ne_true
  have allWord : ∀ c ∈ word, (!separates c) = true := fun c inside => by rw [isWord c inside]; rfl
  have stops : (fun c => !separates c) blank ≠ true := by
    simp only [isBlank, Bool.not_true, ne_eq, Bool.false_eq_true, not_false_eq_true]
  have taken : (word ++ blank :: rest).takeWhile (fun c => !separates c) = word := by
    rw [List.takeWhile_append_of_pos allWord, List.takeWhile_cons, if_neg stops, List.append_nil]
  have dropped : (word ++ blank :: rest).dropWhile (fun c => !separates c) = blank :: rest := by
    rw [List.dropWhile_append_of_pos allWord, List.dropWhile_cons, if_neg stops]
  rw [readFields, begins, taken, dropped, readFields, List.dropWhile_cons_of_pos isBlank]

end Shell
