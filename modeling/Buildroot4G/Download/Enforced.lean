/-
This file decides when `check-hash` enforces every hash of the hash file. The loop
`while read t h f` does not see a last line that has no newline behind it, so a hash
on that line is not checked; the file says exactly when that matters.

The lines of a hash file are the pieces of its text between newlines. `read` makes other
lines of it where a backslash is not in a comment or quotes a newline (`ReadAsWritten`
says that there is none); elsewhere it makes the same.
-/

import Buildroot4G.Download.CheckHash

namespace Buildroot4G.Download

open Shell

/-! ### What the hash file asks for -/

/-- The fields of a line as they stand in the file. -/
def HashLine.ofLine (line : Text) : HashLine :=
  let line := line.dropWhile isBlank
  let rest := (line.dropWhile fun c => !isBlank c).dropWhile isBlank
  let name := (rest.dropWhile fun c => !isBlank c).dropWhile isBlank
  ⟨line.takeWhile fun c => !isBlank c, rest.takeWhile fun c => !isBlank c,
    (name.reverse.dropWhile isBlank).reverse⟩

/-- All lines of a hash file, the one without a newline included. -/
def allHashLines (content : Text) : List HashLine := (content.splitOn '\n').map HashLine.ofLine

/-- The lines that a newline ends. -/
def endedLines (content : Text) : List HashLine :=
  (content.splitOn '\n').dropLast.map HashLine.ofLine

/-- What is behind the last newline. -/
def lastLine (content : Text) : HashLine :=
  HashLine.ofLine ((content.splitOn '\n').getLastD [])

def IsComment (line : Text) : Prop := (line.dropWhile isBlank).head? = some '#'

instance (line : Text) : Decidable (IsComment line) := inferInstanceAs (Decidable (_ = _))

/-- Backslashes and NUL characters are in comments only, and none quotes a newline. -/
structure ReadAsWritten (content : Text) : Prop where
  comments : ∀ line ∈ content.splitOn '\n', '\\' ∈ line ∨ '\x00' ∈ line → IsComment line
  ends : ∀ line ∈ (content.splitOn '\n').dropLast, quotesNewline (dropNuls line) = false

instance (content : Text) : Decidable (ReadAsWritten content) :=
  decidable_of_iff ((∀ line ∈ content.splitOn '\n', '\\' ∈ line ∨ '\x00' ∈ line →
      IsComment line) ∧ ∀ line ∈ (content.splitOn '\n').dropLast,
        quotesNewline (dropNuls line) = false)
    ⟨fun ⟨comments, ends⟩ => ⟨comments, ends⟩, fun ⟨comments, ends⟩ => ⟨comments, ends⟩⟩

/-- A line that gives a hash for the name: it is not empty and no comment. -/
def Names (base : Text) (line : HashLine) : Prop :=
  line.type ≠ [] ∧ line.type.head? ≠ some '#' ∧ line.name = base

/-- A line whose type of hash is known, `none` included. -/
def Known (line : HashLine) : Prop :=
  line.type = "none".toList ∨ HashType.ofText line.type ≠ none

/-- The file has the hash of the line. -/
def Matches (digests : Digests) (file : Option Content) (line : HashLine) : Prop :=
  ∃ type, HashType.ofText line.type = some type ∧ digest digests type file = line.hash

/-- A line for the name that asks for a hash the file does not have. -/
def Fails (digests : Digests) (base : Text) (file : Option Content) (line : HashLine) : Prop :=
  Names base line ∧ line.type ≠ "none".toList ∧ ¬Matches digests file line

/-- The name is listed in `BR_NO_CHECK_HASH_FOR`. -/
def Listed (args : HashArgs) : Prop :=
  grep (' ' :: args.base ++ [' ']) (' ' :: args.noCheck ++ [' ']) = true

/-- What an exit status means for a file and the lines of the hash file: with `0` the file has
every hash its name is given, at least one line being for it, or there is none and the name is
listed; and a mismatch is reported with `2` when all types are known. -/
structure Enforces (digests : Digests) (args : HashArgs) (lines : List HashLine)
    (file : Option Content) (code : Nat) : Prop where
  accepted : code = 0 →
    (∃ line ∈ lines, Names args.base line) ∧
        (∀ line ∈ lines, Names args.base line → line.type ≠ "none".toList →
          Matches digests file line) ∨
      (∀ line ∈ lines, ¬Names args.base line) ∧ Listed args
  refused : (∀ line ∈ lines, Names args.base line → Known line) →
    (∃ line ∈ lines, Fails digests args.base file line) → code = 2

instance (args : HashArgs) : Decidable (Listed args) := inferInstanceAs (Decidable (_ = _))

instance (base : Text) : DecidablePred (Names base) := fun line =>
  inferInstanceAs (Decidable (line.type ≠ [] ∧ line.type.head? ≠ some '#' ∧ line.name = base))

instance : DecidablePred Known := fun line =>
  inferInstanceAs (Decidable (line.type = "none".toList ∨ HashType.ofText line.type ≠ none))

instance (digests : Digests) (file : Option Content) : DecidablePred (Matches digests file) :=
  fun line =>
    match type : HashType.ofText line.type with
    | none => .isFalse fun ⟨_, same, _⟩ => nomatch type.symm.trans same
    | some known =>
      decidable_of_iff (digest digests known file = line.hash)
        ⟨fun same => ⟨known, type, same⟩, fun ⟨_, same, equal⟩ =>
          Option.some.inj (type.symm.trans same) ▸ equal⟩

instance (digests : Digests) (base : Text) (file : Option Content) :
    DecidablePred (Fails digests base file) := fun line =>
  inferInstanceAs (Decidable (Names base line ∧ line.type ≠ "none".toList ∧
    ¬Matches digests file line))

/-! ### The loop -/

section Loop

variable {digests : Digests} {args : HashArgs} {file : Option Content}

variable (digests file) in
/-- What one line makes of the file. -/
theorem checkLine_eq (base : Text) (line : HashLine) :
    checkLine digests base line file =
      if Names base line then
        if Fails digests base file line then .stop (if Known line then 2 else 4) else .pass
      else .skip := by
  by_cases comment : line.type = [] ∨ line.type.head? = some '#'
  · have unnamed : ¬Names base line := fun names => comment.elim names.1 names.2.1
    rw [checkLine, if_pos comment, if_neg unnamed]
  obtain ⟨nonempty, noComment⟩ := not_or.mp comment
  rw [checkLine, if_neg comment]
  by_cases same : line.name = base
  · have names : Names base line := ⟨nonempty, noComment, same⟩
    rw [if_pos same, if_pos names, checkOneHash]
    by_cases none : line.type = "none".toList
    · rw [if_pos none, if_neg fun fails => fails.2.1 none]
    rw [if_neg none]
    cases type : HashType.ofText line.type with
    | none =>
      have noMatch : ¬Matches digests file line :=
        fun ⟨_, found, _⟩ => nomatch type.symm.trans found
      have unknown : ¬Known line := fun known => known.elim none fun found => found type
      rw [if_pos ⟨names, none, noMatch⟩, if_neg unknown]
    | some known =>
      have isMatch : Matches digests file line ↔ digest digests known file = line.hash :=
        ⟨fun ⟨_, found, equal⟩ => Option.some.inj (type.symm.trans found) ▸ equal,
          fun equal => ⟨known, type, equal⟩⟩
      by_cases equal : digest digests known file = line.hash
      · rw [if_neg fun fails => fails.2.2 (isMatch.mpr equal)]
        exact if_pos equal
      · have isKnown : Known line := by
          refine Or.inr ?_
          rw [type]
          exact Option.some_ne_none known
        rw [if_pos ⟨names, none, fun found => equal (isMatch.mp found)⟩, if_pos isKnown]
        exact if_neg equal
  · rw [if_neg same, if_neg fun names => same names.2.2]

/-- The end of the script accepts when there was a check or the name is listed. -/
theorem checkEnd_eq_zero_iff (checks : Nat) :
    checkEnd args checks = 0 ↔ checks ≠ 0 ∨ Listed args := by
  rw [checkEnd, Listed]
  by_cases none : checks = 0
  · rw [if_pos none]
    by_cases listed : grep (' ' :: args.base ++ [' ']) (' ' :: args.noCheck ++ [' ']) = true
    · rw [if_pos listed]
      exact iff_of_true rfl (Or.inr listed)
    · rw [if_neg listed]
      exact iff_of_false nofun fun accepts => accepts.elim (absurd none) listed
  · rw [if_neg none]
    exact iff_of_true rfl (Or.inl none)

theorem checkEnd_ne_two (checks : Nat) : checkEnd args checks ≠ 2 := by
  rw [checkEnd]
  split
  · split <;> decide
  · decide

/-- The loop accepts a file that fails no line, when there is a line for the name or none is
needed. -/
theorem checkFrom_eq_zero_iff (lines : List HashLine) (checks : Nat) :
    checkFrom digests args file lines checks = 0 ↔
      (∀ line ∈ lines, ¬Fails digests args.base file line) ∧
        (checks ≠ 0 ∨ (∃ line ∈ lines, Names args.base line) ∨ Listed args) := by
  induction lines generalizing checks with
  | nil =>
    rw [checkFrom, checkEnd_eq_zero_iff]
    simp
  | cons line rest inductionHypothesis =>
    rw [checkFrom, checkLine_eq]
    by_cases names : Names args.base line
    · rw [if_pos names]
      by_cases fails : Fails digests args.base file line
      · rw [if_pos fails]
        refine iff_of_false ?_ fun accepts => accepts.1 line List.mem_cons_self fails
        change ¬(if Known line then 2 else 4) = 0
        split <;> decide
      · rw [if_neg fails]
        change checkFrom digests args file rest (checks + 1) = 0 ↔ _
        rw [inductionHypothesis]
        simp [fails, names]
    · have noFail : ¬Fails digests args.base file line := fun fails => names fails.1
      rw [if_neg names]
      change checkFrom digests args file rest checks = 0 ↔ _
      rw [inductionHypothesis]
      simp [noFail, names]

/-- The loop reports a mismatch when there is one and all types are known. -/
theorem checkFrom_eq_two {lines : List HashLine} (checks : Nat)
    (known : ∀ line ∈ lines, Names args.base line → Known line)
    (fails : ∃ line ∈ lines, Fails digests args.base file line) :
    checkFrom digests args file lines checks = 2 := by
  induction lines generalizing checks with
  | nil => exact absurd fails (by simp)
  | cons line rest inductionHypothesis =>
    have later : ¬Fails digests args.base file line →
        ∃ line ∈ rest, Fails digests args.base file line := by
      intro passes
      obtain ⟨other, member, otherFails⟩ := fails
      rcases List.mem_cons.mp member with rfl | inRest
      · exact absurd otherFails passes
      · exact ⟨other, inRest, otherFails⟩
    have knownRest := fun other member => known other (List.mem_cons_of_mem line member)
    rw [checkFrom, checkLine_eq]
    by_cases names : Names args.base line
    · rw [if_pos names]
      by_cases failsHere : Fails digests args.base file line
      · rw [if_pos failsHere, if_pos (known line List.mem_cons_self names)]
      · rw [if_neg failsHere]
        exact inductionHypothesis (checks + 1) knownRest (later failsHere)
    · rw [if_neg names]
      exact inductionHypothesis checks knownRest (later fun failsHere => names failsHere.1)

/-- A mismatch is reported only when there is one. -/
theorem exists_fails_of_eq_two {lines : List HashLine} {checks : Nat}
    (two : checkFrom digests args file lines checks = 2) :
    ∃ line ∈ lines, Fails digests args.base file line := by
  induction lines generalizing checks with
  | nil => exact absurd two (checkEnd_ne_two checks)
  | cons line rest inductionHypothesis =>
    by_cases fails : Fails digests args.base file line
    · exact ⟨line, List.mem_cons_self, fails⟩
    · rw [checkFrom, checkLine_eq, if_neg fails] at two
      have later : ∃ checks, checkFrom digests args file rest checks = 2 := by
        split at two
        · exact ⟨checks, two⟩
        · exact ⟨checks + 1, two⟩
        · rename_i code stops
          split at stops <;> cases stops
      obtain ⟨_, two⟩ := later
      obtain ⟨other, member, otherFails⟩ := inductionHypothesis two
      exact ⟨other, List.mem_cons_of_mem line member, otherFails⟩

end Loop

/-! ### What the loop reads -/

section Lines

theorem dropWhile_unquoted (line : Text) :
    (unquoted line).dropWhile separates = unquoted (line.dropWhile isBlank) ∧
      ((unquoted line).takeWhile fun c => !separates c).map Prod.fst =
        line.takeWhile (fun c => !isBlank c) ∧
      ((unquoted line).dropWhile fun c => !separates c) =
        unquoted (line.dropWhile fun c => !isBlank c) := by
  have blank : separates ∘ (fun c => (c, false)) = isBlank := by
    funext c
    exact Bool.and_true _
  have word : (fun c => !separates c) ∘ (fun c => (c, false)) = fun c => !isBlank c := by
    funext c
    exact congrArg (!·) (Bool.and_true _)
  rw [unquoted, List.dropWhile_map, List.dropWhile_map, List.takeWhile_map, blank, word,
    List.map_map]
  exact ⟨rfl, List.map_id _, rfl⟩

/-- Without quoted characters the fields are those of the text. -/
theorem ofFields_unquoted (line : Text) :
    HashLine.ofFields (unquoted line) = HashLine.ofLine line := by
  have dropped := fun line => (dropWhile_unquoted line).1
  have word := fun line => (dropWhile_unquoted line).2.1
  have behind := fun line => (dropWhile_unquoted line).2.2
  have trimmed : ∀ line, (trimEnd (unquoted line)).map Prod.fst =
      (line.reverse.dropWhile isBlank).reverse := by
    intro line
    have reversed : (unquoted line).reverse = unquoted line.reverse := List.map_reverse.symm
    rw [trimEnd, reversed, dropped, List.map_reverse, unquoted, List.map_map]
    exact congrArg List.reverse (List.map_id _)
  rw [HashLine.ofFields, readFields, readFields, readFields]
  simp only [dropped, word, behind, trimmed]
  rfl

/-- Two lines are the same, or no name's. -/
def SameLine (read written : HashLine) : Prop :=
  read = written ∨ (∀ base, ¬Names base read) ∧ ∀ base, ¬Names base written

/-- A comment is no name's line, however it is read. -/
theorem sameLine_of_comment {line : Text} (noNewline : '\n' ∉ line) (comment : IsComment line) :
    SameLine (HashLine.ofFields (readPiece (dropNuls line))) (HashLine.ofLine line) := by
  obtain ⟨tail, isTail⟩ : ∃ tail, line.dropWhile isBlank = '#' :: tail := by
    rw [IsComment] at comment
    cases rest : line.dropWhile isBlank with
    | nil => rw [rest] at comment; cases comment
    | cons c tail =>
      rw [rest] at comment
      cases comment
      exact ⟨tail, rfl⟩
  have split : line = line.takeWhile isBlank ++ '#' :: tail := by
    rw [← isTail, List.takeWhile_append_dropWhile]
  have blanks : ∀ c ∈ line.takeWhile isBlank, isBlank c = true := fun c member =>
    List.all_eq_true.mp List.all_takeWhile c member
  generalize line.takeWhile isBlank = front at split blanks
  refine Or.inr ⟨fun base names => names.2.1 ?_, fun base names => names.2.1 ?_⟩
  · have kept : dropNuls line = (front ++ ['#']) ++ dropNuls tail := by
      have frontKept : dropNuls front = front := List.filter_eq_self.mpr fun c member =>
        decide_eq_true fun isNul => absurd (blanks c member) (by rw [isNul]; decide)
      rw [split, dropNuls, List.filter_append, List.filter_cons_of_pos (by decide),
        List.append_assoc]
      exact congrArg (· ++ _) frontKept
    have tailFree : '\n' ∉ dropNuls tail := fun member =>
      noNewline (split ▸ List.mem_append_right _
        (List.mem_cons_of_mem _ (List.mem_of_mem_filter member)))
    have reads : ReadsAs (front ++ ['#']) (unquoted (front ++ ['#'])) := by
      refine readsAs_unquoted fun c member => ⟨?_, fun same => noNewline ?_⟩
      · rcases List.mem_append.mp member with isFront | isMark
        · exact fun same => absurd (blanks c isFront) (by rw [same]; decide)
        · rw [List.mem_singleton.mp isMark]
          decide
      · rw [split, ← same]
        rcases List.mem_append.mp member with isFront | isMark
        · exact List.mem_append_left _ isFront
        · exact List.mem_append_right _ (List.mem_singleton.mp isMark ▸ List.mem_cons_self)
    have frontBlank : ∀ c ∈ unquoted front, separates c = true := by
      intro c member
      obtain ⟨d, isFront, rfl⟩ := List.mem_map.mp member
      rw [separates, blanks d isFront]
      rfl
    have marked : unquoted (front ++ ['#']) ++ readPiece (dropNuls tail) =
        unquoted front ++ ('#', false) :: readPiece (dropNuls tail) := by
      simp [unquoted]
    have stops : ¬separates ('#', false) = true := by decide
    rw [kept, readPiece_append reads tailFree, marked, HashLine.ofFields, readFields,
      List.dropWhile_append_of_pos frontBlank, List.dropWhile_cons_of_neg stops,
      List.takeWhile_cons_of_pos (by decide)]
    rfl
  · rw [HashLine.ofLine, isTail]
    simp only
    rw [List.takeWhile_cons_of_pos (by decide)]
    rfl

/-- A line as it is read and as it is written. -/
theorem sameLine {content line : Text} (plain : ReadAsWritten content)
    (member : line ∈ content.splitOn '\n') :
    SameLine (HashLine.ofFields (readPiece (dropNuls line))) (HashLine.ofLine line) := by
  have noNewline := not_mem_of_mem_splitOn member
  by_cases marked : '\\' ∈ line ∨ '\x00' ∈ line
  · exact sameLine_of_comment noNewline (plain.comments line member marked)
  · obtain ⟨noBackslash, noNul⟩ := not_or.mp marked
    have kept : dropNuls line = line := List.filter_eq_self.mpr fun c inLine =>
      decide_eq_true fun isNul => noNul (isNul ▸ inLine)
    rw [kept, readPiece_of_plain noBackslash noNewline, ofFields_unquoted]
    exact Or.inl rfl

/-- What is read of a file is its lines, read one by one. -/
theorem read_eq {content : Text} (plain : ReadAsWritten content) :
    (readLines content).map HashLine.ofFields =
        (content.splitOn '\n').dropLast.map
          (fun line => HashLine.ofFields (readPiece (dropNuls line))) ∧
      HashLine.ofFields (unendedLine content) =
        HashLine.ofFields (readPiece (dropNuls ((content.splitOn '\n').getLastD []))) := by
  have pieces := readText_pieces plain.ends
  have nonempty : content.splitOn '\n' ≠ [] := by
    rw [List.splitOn_eq_splitOnP]
    exact List.splitOnP_ne_nil _ _
  obtain ⟨front, last, split⟩ := (List.eq_nil_or_concat' (content.splitOn '\n')).resolve_left
    nonempty
  rw [split, List.map_append, List.map_singleton] at pieces
  obtain ⟨lines, ended⟩ := List.append_inj' pieces rfl
  rw [split, List.dropLast_concat, lines, (List.cons.inj ended).1, List.map_map]
  refine ⟨rfl, ?_⟩
  simp

variable {digests : Digests} {args : HashArgs} {file : Option Content} {lines : List Text}
  {read written : Text → HashLine}

/-- A line for a name is there in both, or in neither. -/
theorem exists_named_iff (same : ∀ line ∈ lines, SameLine (read line) (written line))
    {base : Text} {Asks : HashLine → Prop} (named : ∀ line, Asks line → Names base line) :
    (∃ line ∈ lines.map read, Asks line) ↔ ∃ line ∈ lines.map written, Asks line := by
  simp only [List.mem_map, exists_exists_and_eq_and]
  refine exists_congr fun line => and_congr_right fun member => ?_
  rcases same line member with equal | ⟨noRead, noWritten⟩
  · rw [equal]
  · exact iff_of_false (fun asks => noRead base (named _ asks))
      fun asks => noWritten base (named _ asks)

theorem forall_named_iff (same : ∀ line ∈ lines, SameLine (read line) (written line))
    {base : Text} (Holds : HashLine → Prop) :
    (∀ line ∈ lines.map read, Names base line → Holds line) ↔
      ∀ line ∈ lines.map written, Names base line → Holds line := by
  have contrary : (∃ line ∈ lines.map read, Names base line ∧ ¬Holds line) ↔
      ∃ line ∈ lines.map written, Names base line ∧ ¬Holds line :=
    exists_named_iff same fun _ asks => asks.1
  simpa only [not_exists, not_and, not_not] using not_congr contrary

/-- What an exit status means depends on the lines for names only. -/
theorem enforces_congr (same : ∀ line ∈ lines, SameLine (read line) (written line))
    (code : Nat) :
    Enforces digests args (lines.map read) file code ↔
      Enforces digests args (lines.map written) file code := by
  have named := @exists_named_iff lines read written same args.base (Names args.base)
    fun _ names => names
  have unnamed := @forall_named_iff lines read written same args.base fun _ => False
  have matched := @forall_named_iff lines read written same args.base
    fun line => line.type ≠ "none".toList → Matches digests file line
  have known := @forall_named_iff lines read written same args.base Known
  have fails := @exists_named_iff lines read written same args.base
    (Fails digests args.base file) fun _ fails => fails.1
  constructor
  · rintro ⟨accepted, refused⟩
    refine ⟨fun zero => ?_, fun allKnown failing => refused (known.mpr allKnown)
      (fails.mpr failing)⟩
    exact (accepted zero).imp (And.imp named.mp matched.mp) (And.imp_left unnamed.mp)
  · rintro ⟨accepted, refused⟩
    refine ⟨fun zero => ?_, fun allKnown failing => refused (known.mp allKnown)
      (fails.mp failing)⟩
    exact (accepted zero).imp (And.imp named.mpr matched.mpr) (And.imp_left unnamed.mpr)

end Lines

/-! ### The line without a newline -/

section Unended

variable {digests : Digests} {args : HashArgs} {file : Option Content}

/-- The loop enforces every hash exactly when it need not see the last line. -/
theorem enforces_read_iff (seen : List HashLine) (missed : HashLine) :
    Enforces digests args (seen ++ [missed]) file (checkFrom digests args file seen 0) ↔
      (Fails digests args.base file missed →
        (∃ line ∈ seen, Fails digests args.base file line) ∨
        ¬Known missed ∧ (∀ line ∈ seen, ¬Names args.base line) ∧ ¬Listed args) := by
  have accepts := @checkFrom_eq_zero_iff digests args file seen 0
  constructor
  · intro enforces fails
    by_contra neither
    obtain ⟨noneFails, needed⟩ := not_or.mp neither
    have seenPass : ∀ line ∈ seen, ¬Fails digests args.base file line :=
      fun line member lineFails => noneFails ⟨line, member, lineFails⟩
    have missedFails : ∃ line ∈ seen ++ [missed], Fails digests args.base file line :=
      ⟨missed, by simp, fails⟩
    by_cases known : Known missed
    · -- the exit status has to be 2, which the loop gives only for a line it sees
      have allKnown : ∀ line ∈ seen ++ [missed], Names args.base line → Known line := by
        intro line member names
        rcases List.mem_append.mp member with inSeen | isMissed
        · by_contra unknown
          obtain ⟨notNone, unknownType⟩ := not_or.mp unknown
          refine seenPass line inSeen ⟨names, notNone, fun ⟨type, found, _⟩ => ?_⟩
          exact unknownType (found ▸ nofun)
        · rw [List.mem_singleton.mp isMissed]
          exact known
      exact noneFails (exists_fails_of_eq_two (enforces.refused allKnown missedFails))
    · -- the exit status must not be 0
      have zero : checkFrom digests args file seen 0 = 0 := by
        refine accepts.mpr ⟨seenPass, Or.inr ?_⟩
        by_contra refused
        obtain ⟨noLine, unlisted⟩ := not_or.mp refused
        exact needed ⟨known, fun line member names => noLine ⟨line, member, names⟩, unlisted⟩
      rcases enforces.accepted zero with ⟨_, matched⟩ | ⟨unnamed, _⟩
      · exact fails.2.2 (matched missed (by simp) fails.1 fails.2.1)
      · exact unnamed missed (by simp) fails.1
  · intro condition
    refine ⟨fun zero => ?_, fun known missing => ?_⟩
    · obtain ⟨seenPass, needed⟩ := accepts.mp zero
      have missedPass : ¬Fails digests args.base file missed := by
        intro fails
        rcases condition fails with ⟨line, member, lineFails⟩ | ⟨_, unnamed, unlisted⟩
        · exact seenPass line member lineFails
        · refine needed.elim (fun positive => positive rfl) fun named => ?_
          exact named.elim (fun ⟨line, member, names⟩ => unnamed line member names) unlisted
      have allPass : ∀ line ∈ seen ++ [missed], ¬Fails digests args.base file line := by
        intro line member
        rcases List.mem_append.mp member with inSeen | isMissed
        · exact seenPass line inSeen
        · rw [List.mem_singleton.mp isMissed]
          exact missedPass
      by_cases named : ∃ line ∈ seen ++ [missed], Names args.base line
      · refine Or.inl ⟨named, fun line member names notNone => ?_⟩
        by_contra mismatch
        exact allPass line member ⟨names, notNone, mismatch⟩
      · refine Or.inr ⟨fun line member names => named ⟨line, member, names⟩, ?_⟩
        refine (needed.resolve_left fun positive => positive rfl).resolve_left ?_
        rintro ⟨line, member, names⟩
        exact named ⟨line, List.mem_append_left _ member, names⟩
    · refine checkFrom_eq_two 0
        (fun line member => known line (List.mem_append_left _ member)) ?_
      obtain ⟨line, member, fails⟩ := missing
      rcases List.mem_append.mp member with inSeen | isMissed
      · exact ⟨line, inSeen, fails⟩
      · rw [List.mem_singleton.mp isMissed] at fails
        refine (condition fails).resolve_right fun ⟨unknown, _, _⟩ => unknown ?_
        exact known missed (by simp) fails.1

end Unended

/-- Digest programs that print `ab` for every file. -/
def sameDigests : Digests := fun _ _ => "ab".toList

/-- A hash file given as an argument, for the name `foo`. -/
def fooHashes (content : String) : HashArgs := ⟨some content.toList, "foo".toList, [], by decide⟩

/-- A backslash at the end of a comment makes the next line a part of it. -/
example :
    let hashes := "# see upstream \\\nsha256 cd foo\nsha1 ab foo\n"
    ¬ReadAsWritten hashes.toList ∧ checkHash sameDigests (fooHashes hashes) (some []) = 0 ∧
      ∃ line ∈ allHashLines hashes.toList, Fails sameDigests "foo".toList (some []) line := by
  decide +kernel

end Buildroot4G.Download
