/-
This file proves when the records of the hooks attribute the files to the packages that installed
them last. A comma in a path of a changed file makes a record that the script cannot read, and a
path with a newline, or with a blank at its end, is read back as another path, which may be that
of another file. Python 3 cannot read what it cannot decode, and takes a carriage return for the
end of a line: what is behind it is read as a record of its own. The files are attributed right
exactly when each changed path is readable in this way and the last record of each file names the
package that changed the file last.
-/

import Buildroot4G.Stats.FileList
import Buildroot4G.Stats.SizeStats

namespace Buildroot4G.Stats

open Shell

/-! ### A line of md5sum is read back -/

/-- What `read` makes of a character of a name, as `md5sum` writes it. -/
def readChar (c : Char) : QuotedChar :=
  if c = '\\' then ('\\', true) else if c = '\n' then ('n', true) else (c, false)

/-- What is left of a character: a newline becomes an `n`. -/
def leftChar (c : Char) : Char := if c = '\n' then 'n' else c

theorem readsAs_escape (name : Text) : ReadsAs (name.flatMap escapeChar) (name.map readChar) := by
  induction name with
  | nil => exact readsAs_nil
  | cons c rest inductionHypothesis =>
    rw [List.flatMap_cons, List.map_cons, ← List.singleton_append]
    refine ReadsAs.append ?_ inductionHypothesis
    rw [escapeChar, readChar]
    split_ifs with isBackslash isNewline
    · exact readsAs_quoted (by decide)
    · exact readsAs_quoted (by decide)
    · exact readsAs_singleton isBackslash isNewline

theorem readChar_injective : Function.Injective readChar := by
  intro first second same
  rw [readChar, readChar] at same
  split_ifs at same <;> simp_all

theorem fst_readChar (c : Char) : (readChar c).1 = leftChar c := by
  rw [readChar, leftChar]
  split_ifs with isBackslash isNewline
  · rw [isBackslash] at isNewline
    exact absurd isNewline (by decide)
  · exact isBackslash.symm
  · rfl
  · rfl

theorem isHash_char {hash : Text} (isHash : IsHash hash) {c : Char} (inside : c ∈ hash) :
    c ≠ '\\' ∧ c ≠ '\n' ∧ c ≠ '\x00' ∧ isBlank c = false := by
  have digit := List.all_eq_true.mp isHash.2 c inside
  rw [List.contains_iff_mem] at digit
  have all : ("0123456789abcdef".toList.all fun d =>
      decide (d ≠ '\\' ∧ d ≠ '\n' ∧ d ≠ '\x00' ∧ isBlank d = false)) = true := by
    decide +kernel
  exact of_decide_eq_true (List.all_eq_true.mp all c digit)

/-- The first word of a line is the sum, and what is behind it is the name. -/
theorem readsAs_md5sumLine {hash : Text} (isHash : IsHash hash) (name : Text) :
    ∃ word, (∀ c ∈ word, separates c = false) ∧ word.map Prod.fst = hash ∧
      ReadsAs (md5sumLine hash name)
        (word ++ (' ', false) :: (' ', false) :: name.map readChar) := by
  have blanks : ReadsAs (' ' :: ' ' :: name.flatMap escapeChar)
      ((' ', false) :: (' ', false) :: name.map readChar) :=
    ((readsAs_singleton (by decide) (by decide)).append
      (readsAs_singleton (by decide) (by decide))).append (readsAs_escape name)
  have plain : ∀ c ∈ hash, c ≠ '\\' ∧ c ≠ '\n' := fun c inside =>
    ⟨(isHash_char isHash inside).1, (isHash_char isHash inside).2.1⟩
  have notBlank : ∀ c ∈ hash, ∀ quoted, separates (c, quoted) = false := by
    intro c inside quoted
    rw [separates, (isHash_char isHash inside).2.2.2]
    rfl
  rw [md5sumLine]
  cases hash with
  | nil => exact absurd rfl isHash.1
  | cons c rest =>
    obtain ⟨here, later⟩ := List.forall_mem_cons.mp plain
    obtain ⟨hereBlank, laterBlank⟩ := List.forall_mem_cons.mp notBlank
    have restRead : (unquoted rest).map Prod.fst = rest := by
      rw [unquoted, List.map_map]
      exact List.map_id' rest
    have restBlank : ∀ d ∈ unquoted rest, separates d = false := by
      intro d inside
      obtain ⟨char, isChar, rfl⟩ := List.mem_map.mp inside
      exact laterBlank char isChar false
    split
    · refine ⟨(c, true) :: unquoted rest, ?_, ?_, ?_⟩
      · exact List.forall_mem_cons.mpr ⟨hereBlank true, restBlank⟩
      · rw [List.map_cons, restRead]
      · exact ((readsAs_quoted here.2).append (readsAs_unquoted later)).append blanks
    · refine ⟨(c, false) :: unquoted rest, ?_, ?_, ?_⟩
      · exact List.forall_mem_cons.mpr ⟨hereBlank false, restBlank⟩
      · rw [List.map_cons, restRead]
      · exact ((readsAs_singleton here.1 here.2).append (readsAs_unquoted later)).append blanks

theorem takeWhile_word {word rest : List QuotedChar} (isWord : ∀ c ∈ word, separates c = false) :
    (word ++ (' ', false) :: rest).takeWhile (fun c => !separates c) = word := by
  rw [List.takeWhile_append_of_pos fun c inside => by rw [isWord c inside]; rfl,
    List.takeWhile_cons, if_neg (by decide), List.append_nil]

/-- A line has the sum and the name in it. -/
theorem md5sumLine_inj {firstHash secondHash firstName secondName : Text}
    (isFirst : IsHash firstHash) (isSecond : IsHash secondHash)
    (same : md5sumLine firstHash firstName = md5sumLine secondHash secondName) :
    firstHash = secondHash ∧ firstName = secondName := by
  obtain ⟨firstWord, firstIsWord, firstIsHash, firstReads⟩ := readsAs_md5sumLine isFirst firstName
  obtain ⟨secondWord, secondIsWord, secondIsHash, secondReads⟩ :=
    readsAs_md5sumLine isSecond secondName
  rw [same] at firstReads
  have reads := firstReads.unique secondReads
  have words : firstWord = secondWord := by
    rw [← takeWhile_word firstIsWord, reads, takeWhile_word secondIsWord]
  rw [words, List.append_cancel_left_eq, List.cons.injEq, List.cons.injEq] at reads
  rw [← firstIsHash, ← secondIsHash, words]
  exact ⟨rfl, List.map_injective_iff.mpr readChar_injective reads.2.2⟩

/-- What `read` leaves of a path. -/
def leftPath (path : Text) : Text := rstrip isBlank (path.map leftChar)

theorem leftChar_of_not_isSpace {c : Char} (notBlank : isSpace c = false) : leftChar c = c := by
  refine if_neg fun isNewline => ?_
  rw [isNewline] at notBlank
  cases notBlank

theorem map_trimEnd (name : Text) :
    (trimEnd (name.map readChar)).map Prod.fst = leftPath name := by
  have same : separates ∘ readChar = isBlank ∘ leftChar := by
    funext c
    rw [Function.comp_apply, Function.comp_apply, ← fst_readChar, separates, readChar]
    split_ifs with isBackslash
    · rfl
    · rfl
    · exact Bool.and_true _
  rw [trimEnd, ← List.map_reverse, List.dropWhile_map, same, ← List.map_reverse, List.map_map,
    leftPath, rstrip, ← List.map_reverse, List.dropWhile_map, ← List.map_reverse]
  exact List.map_congr_left fun c _ => fst_readChar c

theorem leftPath_cons {c : Char} (notBlank : isSpace c = false) (rest : Text) :
    leftPath (c :: rest) = c :: leftPath rest := by
  have stays : isBlank (leftChar c) = false := by
    rw [leftChar_of_not_isSpace notBlank]
    cases blank : isBlank c with
    | false => rfl
    | true =>
      rw [isSpace_of_isBlank blank] at notBlank
      cases notBlank
  rw [leftPath, List.map_cons, rstrip_cons stays, leftChar_of_not_isSpace notBlank, leftPath]

/-- The characters that are left are those of the path. -/
theorem mem_leftPath_iff {path : Text} {c : Char} (notN : c ≠ 'n') (notBlank : isBlank c = false) :
    c ∈ leftPath path ↔ c ∈ path := by
  obtain ⟨blanks, areBlank, whole⟩ := exists_rstrip isBlank (path.map leftChar)
  have notEnd : c ∉ blanks := fun inside => by
    rw [areBlank c inside] at notBlank
    cases notBlank
  have isLeft : ∀ d, leftChar d = c ↔ d = c := by
    intro d
    rw [leftChar]
    split_ifs with isNewline
    · rw [isNewline]
      refine iff_of_false (Ne.symm notN) ?_
      rintro rfl
      cases notBlank
    · exact Iff.rfl
  have left : c ∈ leftPath path ↔ c ∈ path.map leftChar := by
    rw [leftPath]
    conv_rhs => rw [whole]
    rw [List.mem_append, or_iff_left notEnd]
  rw [left, List.mem_map]
  simp only [isLeft, exists_eq_right]

theorem newline_not_mem_leftPath (path : Text) : '\n' ∉ leftPath path := by
  obtain ⟨blanks, -, whole⟩ := exists_rstrip isBlank (path.map leftChar)
  intro inside
  have isLeft : '\n' ∈ path.map leftChar := by
    rw [whole]
    exact List.mem_append_left _ inside
  obtain ⟨c, -, left⟩ := List.mem_map.mp isLeft
  rw [leftChar] at left
  split_ifs at left with isNewline
  · cases left
  · exact isNewline left

theorem readFile_eq {hash : Text} (isHash : IsHash hash) {c : Char} (notBlank : isSpace c = false)
    (rest : Text) {line : List QuotedChar} (reads : ReadsAs (md5sumLine hash (c :: rest)) line) :
    readFile line = leftPath (c :: rest) := by
  obtain ⟨word, isWord, wordIsHash, wordReads⟩ := readsAs_md5sumLine isHash (c :: rest)
  have nonempty : word ≠ [] := by
    rintro rfl
    exact isHash.1 wordIsHash.symm
  have stays : separates (readChar c) = false := by
    rw [separates, fst_readChar, leftChar_of_not_isSpace notBlank]
    cases blank : isBlank c with
    | false => rfl
    | true =>
      rw [isSpace_of_isBlank blank] at notBlank
      cases notBlank
  rw [reads.unique wordReads, readFile, readFields_two isWord nonempty (by rfl),
    List.dropWhile_cons_of_pos (by rfl), List.map_cons,
    List.dropWhile_cons_of_neg (by rw [stays]; exact Bool.false_ne_true), ← map_trimEnd]
  rfl

/-! ### The records of a path -/

section Readings

variable (python : Python)

/-- The parts of a path that are read as lines. -/
def parts (path : Text) : List Text := python.lines (leftPath path ++ ['\n'])

/-- The packages and paths that are read of a change: what is behind a carriage return is read as a
record of its own. -/
def readings (pkg path : Text) : List (Text × Text) :=
  match parts python path with
  | [] => []
  | first :: others =>
    (pkg, rstrip python.blank first) :: others.filterMap (readRecord python)

/-- The record of a change is read without an error. -/
structure Readable (path : Text) : Prop where
  decodes : ∀ c ∈ path, python.decodes c = true
  first : ∀ part ∈ (parts python path).head?, ',' ∉ part
  others : ∀ part ∈ (parts python path).tail, part.count ',' = 1

theorem exists_parts (path : Text) : ∃ first others, parts python path = first :: others :=
  List.exists_cons_of_ne_nil (python.lines_ended_ne_nil _)

variable {python}

theorem readRecord_first {pkg : Text} (isPkg : ',' ∉ pkg) (first : Text) :
    readRecord python (pkg ++ ',' :: '.' :: '/' :: first) =
      if ',' ∈ first then none else some (pkg, rstrip python.blank first) := by
  have comma : ',' ∈ '.' :: '/' :: first ↔ ',' ∈ first := by
    rw [List.mem_cons, List.mem_cons, or_iff_right (by decide), or_iff_right (by decide)]
  split
  · rename_i inside
    have more : 0 < ('.' :: '/' :: first).count ',' := List.count_pos_iff.mpr (comma.mpr inside)
    have notOnce : ¬(readRecord python (pkg ++ ',' :: '.' :: '/' :: first)).isSome := by
      rw [readRecord_isSome_iff, List.count_append, List.count_cons_self]
      omega
    exact Option.not_isSome_iff_eq_none.mp notOnce
  · rename_i noComma
    have dot : python.blank '.' = false := python.graphic '.' (by decide) (by decide)
    have slash : python.blank '/' = false := python.graphic '/' (by decide) (by decide)
    rw [readRecord, List.splitOn_append_cons_self_of_not_mem isPkg,
      List.splitOn_eq_singleton (comma.not.mpr noComma)]
    simp only [strip, List.dropWhile_cons_of_neg (Bool.eq_false_iff.mp dot), rstrip_cons dot,
      rstrip_cons slash]
    rfl

theorem readRecord_nothing {pkg : Text} (isPkg : ',' ∉ pkg) :
    readRecord python (pkg ++ [',', '-']) = some (pkg, []) := by
  have dash : python.blank '-' = false := python.graphic '-' (by decide) (by decide)
  rw [readRecord, List.splitOn_append_cons_self_of_not_mem isPkg,
    List.splitOn_eq_singleton (by decide)]
  simp only [strip, List.dropWhile_cons_of_neg (Bool.eq_false_iff.mp dash), rstrip_cons dash]
  rfl

/-- A path without a carriage return is one part. -/
theorem parts_of_free {path : Text} (free : '\r' ∉ path) : parts python path = [leftPath path] := by
  refine python.lines_plain (newline_not_mem_leftPath path) fun inside => free ?_
  exact (mem_leftPath_iff (by decide) (by decide)).mp inside

end Readings

/-- Of a path of the usual kind nothing is lost. -/
theorem leftPath_of_plain {path : Text} (noNewline : '\n' ∉ path)
    (ends : ∀ c ∈ path.getLast?, isBlank c = false) : leftPath path = path := by
  have left : path.map leftChar = path := by
    have same : ∀ c ∈ path, leftChar c = c := by
      intro c inside
      refine if_neg fun isNewline => noNewline ?_
      rwa [← isNewline]
    exact (List.map_congr_left same).trans (List.map_id _)
  have stripped := rstrip_append (fun c inside => absurd inside List.not_mem_nil) ends
  rw [List.append_nil] at stripped
  rw [leftPath, left, stripped]

theorem readings_of_free {python : Python} {path : Text} (free : '\r' ∉ path) (pkg : Text) :
    readings python pkg path = [(pkg, rstrip python.blank (leftPath path))] := by
  rw [readings, parts_of_free free]
  rfl

/-- A path of the usual kind. -/
structure PlainPath (python : Python) (path : Text) : Prop where
  decodes : ∀ c ∈ path, python.decodes c = true
  noSeparator : ',' ∉ path ∧ '\n' ∉ path ∧ '\r' ∉ path
  ends : ∀ c ∈ path.getLast?, python.blank c = false

theorem PlainPath.leftPath_eq {python : Python} {path : Text} (plain : PlainPath python path) :
    leftPath path = path := by
  refine leftPath_of_plain plain.noSeparator.2.1 fun c isLast => ?_
  cases blank : isBlank c with
  | false => rfl
  | true =>
    have notBlank := plain.ends c isLast
    rw [python.blank_of_isSpace c (isSpace_of_isBlank blank)] at notBlank
    cases notBlank

theorem PlainPath.readings {python : Python} {path : Text} (plain : PlainPath python path)
    (pkg : Text) : readings python pkg path = [(pkg, path)] := by
  have stripped := rstrip_append (fun c inside => absurd inside List.not_mem_nil) plain.ends
  rw [List.append_nil] at stripped
  rw [readings_of_free plain.noSeparator.2.2, plain.leftPath_eq, stripped]

theorem PlainPath.readable {python : Python} {path : Text} (plain : PlainPath python path) :
    Readable python path := by
  have isParts : parts python path = [path] := by
    rw [parts_of_free plain.noSeparator.2.2, plain.leftPath_eq]
  refine ⟨plain.decodes, fun part isFirst => ?_, fun part isOther => ?_⟩
  · rw [isParts] at isFirst
    exact Option.mem_some_iff.mp isFirst ▸ plain.noSeparator.1
  · rw [isParts] at isOther
    cases isOther

/-! ### The records of an installation -/

/-- The installation added the file or changed its content. -/
def Install.Changes {Content : Type} (install : Install Content) (path : Text) : Prop :=
  path ∈ install.after.files ∧ install.before.files.lookup path ≠ install.after.files.lookup path

section Records

variable {Content : Type} (md5 : Md5 Content)

/-- The line of `md5sum` for a file. -/
def fileLine (file : Σ _ : Text, Content) : Text :=
  md5sumLine (md5.sum file.2) ('.' :: '/' :: file.1)

open Classical in
/-- The files that an installation changed, in the order of their lines. -/
noncomputable def Install.changedFiles (install : Install Content) : List (Σ _ : Text, Content) :=
  (install.after.files.entries.mergeSort fun first second =>
    decide (fileLine md5 first ≤ fileLine md5 second)).filter
      fun file => install.before.files.lookup file.1 ≠ some file.2

/-- Their paths. -/
noncomputable def Install.changed (install : Install Content) : List Text :=
  (install.changedFiles md5).map Sigma.fst

theorem mem_changed {install : Install Content} {path : Text} :
    path ∈ install.changed md5 ↔ install.Changes path := by
  rw [Install.changed, Install.changedFiles, List.mem_map, Install.Changes]
  simp only [List.mem_filter, List.mem_mergeSort, decide_eq_true_eq]
  constructor
  · rintro ⟨file, ⟨inside, differs⟩, rfl⟩
    have found : install.after.files.lookup file.1 = some file.2 := AList.mem_lookup_iff.mpr inside
    exact ⟨AList.lookup_isSome.mp (by rw [found]; rfl), by rwa [found]⟩
  · rintro ⟨inside, differs⟩
    obtain ⟨content, found⟩ := Option.isSome_iff_exists.mp (AList.lookup_isSome.mpr inside)
    rw [found] at differs
    exact ⟨⟨path, content⟩, ⟨AList.mem_lookup_iff.mp found, differs⟩, rfl⟩

theorem mem_md5sums {target : Snapshot Content} {sum : Text × Text} :
    sum ∈ md5sums md5 target ↔
      (∃ path content, target.files.lookup path = some content ∧
        sum = (md5.sum content, '.' :: '/' :: path)) ∨
      target.files.entries = [] ∧ sum = (md5.sum md5.empty, ['-']) := by
  rw [md5sums]
  split
  · rename_i isEmpty
    rw [List.mem_singleton, and_iff_right isEmpty, iff_or_self]
    rintro ⟨path, content, found, -⟩
    have inside := AList.mem_lookup_iff.mp found
    rw [isEmpty] at inside
    cases inside
  · rename_i nonempty
    rw [List.mem_map, or_iff_left fun both => nonempty both.1]
    constructor
    · rintro ⟨file, inside, rfl⟩
      exact ⟨file.1, file.2, AList.mem_lookup_iff.mpr inside, rfl⟩
    · rintro ⟨path, content, found, rfl⟩
      exact ⟨⟨path, content⟩, AList.mem_lookup_iff.mp found, rfl⟩

theorem isHash_of_mem_md5sums {target : Snapshot Content} {sum : Text × Text}
    (inside : sum ∈ md5sums md5 target) : IsHash sum.1 := by
  rcases (mem_md5sums md5).mp inside with ⟨path, content, -, rfl⟩ | ⟨-, rfl⟩
  · exact md5.isHash content
  · exact md5.isHash md5.empty

theorem mem_fileList {target : Snapshot Content} {line : Text} :
    line ∈ fileList md5 target ↔ ∃ sum ∈ md5sums md5 target, md5sumLine sum.1 sum.2 = line := by
  rw [fileList, List.mem_mergeSort, List.mem_map]

/-- The line of a file is in a list exactly when the list has the file with its content. -/
theorem fileLine_mem_fileList {target : Snapshot Content} {file : Σ _ : Text, Content} :
    fileLine md5 file ∈ fileList md5 target ↔ target.files.lookup file.1 = some file.2 := by
  rw [mem_fileList]
  constructor
  · rintro ⟨sum, inside, same⟩
    obtain ⟨hashes, names⟩ := md5sumLine_inj (isHash_of_mem_md5sums md5 inside)
      (md5.isHash file.2) same
    rcases (mem_md5sums md5).mp inside with ⟨path, content, found, rfl⟩ | ⟨-, rfl⟩
    · cases names
      rwa [← md5.injective hashes]
    · cases names
  · exact fun found => ⟨_, (mem_md5sums md5).mpr (Or.inl ⟨file.1, file.2, found, rfl⟩), rfl⟩

/-- `comm` leaves the lines of the changed files; without any file there may be the line for the
standard input. -/
theorem comm_fileList (install : Install Content) :
    comm (fileList md5 install.before) (fileList md5 install.after) =
        (install.changedFiles md5).map (fileLine md5) ∨
      comm (fileList md5 install.before) (fileList md5 install.after) =
          [md5sumLine (md5.sum md5.empty) ['-']] ∧ install.changedFiles md5 = [] := by
  classical
  by_cases noFile : install.after.files.entries = []
  · have noChange : install.changedFiles md5 = [] := by
      rw [Install.changedFiles, noFile, List.mergeSort_nil, List.filter_nil]
    have alone : fileList md5 install.after = [md5sumLine (md5.sum md5.empty) ['-']] := by
      rw [fileList, md5sums, if_pos noFile]
      exact List.mergeSort_singleton _
    rw [alone, comm, noChange, List.filter_singleton]
    cases decide (md5sumLine (md5.sum md5.empty) ['-'] ∉ fileList md5 install.before) with
    | true => exact Or.inr ⟨rfl, rfl⟩
    | false => exact Or.inl rfl
  · have sorted : fileList md5 install.after =
        (install.after.files.entries.mergeSort fun first second =>
          decide (fileLine md5 first ≤ fileLine md5 second)).map (fileLine md5) := by
      have orders : ∀ first ∈ install.after.files.entries, ∀ second ∈ install.after.files.entries,
          decide (fileLine md5 first ≤ fileLine md5 second) =
            decide (fileLine md5 first ≤ fileLine md5 second) := fun _ _ _ _ => rfl
      rw [fileList, md5sums, if_neg noFile, List.map_map]
      exact (List.map_mergeSort (f := fileLine md5) orders).symm
    left
    rw [comm, sorted, List.filter_map, Install.changedFiles]
    refine congrArg (List.map (fileLine md5)) (List.filter_congr fun file _ => ?_)
    rw [Function.comp_apply, decide_eq_decide, fileLine_mem_fileList]

theorem nul_not_mem_md5sumLine {hash name : Text} (isHash : IsHash hash) (noNul : '\x00' ∉ name) :
    '\x00' ∉ md5sumLine hash name := by
  have inHash : '\x00' ∉ hash := fun inside => (isHash_char isHash inside).2.2.1 rfl
  have inName : '\x00' ∉ name.flatMap escapeChar := by
    intro inside
    obtain ⟨c, isChar, escaped⟩ := List.mem_flatMap.mp inside
    rw [escapeChar] at escaped
    split_ifs at escaped
    · exact absurd escaped (by decide)
    · exact absurd escaped (by decide)
    · exact noNul (List.mem_singleton.mp escaped ▸ isChar)
  rw [md5sumLine]
  simp only [List.mem_append, List.mem_cons, not_or]
  refine ⟨⟨?_, inHash⟩, by decide, by decide, inName⟩
  split <;> decide

/-- The loop reads the name of each line. -/
theorem map_readFile {sums : List (Text × Text)} (areHashes : ∀ sum ∈ sums, IsHash sum.1)
    (named : ∀ sum ∈ sums, '\x00' ∉ sum.2 ∧
      ∃ c rest, sum.2 = c :: rest ∧ isSpace c = false) :
    (readLines ((sums.map fun sum => md5sumLine sum.1 sum.2).flatMap
      fun line => line ++ ['\n'])).map readFile = sums.map fun sum => leftPath sum.2 := by
  have each : ∀ sum ∈ sums, ∃ read, ReadsAs (md5sumLine sum.1 sum.2) read ∧
      readFile read = leftPath sum.2 := by
    intro sum inside
    obtain ⟨-, c, rest, name, notBlank⟩ := named sum inside
    obtain ⟨word, -, -, reads⟩ := readsAs_md5sumLine (areHashes sum inside) sum.2
    refine ⟨_, reads, ?_⟩
    rw [name] at reads ⊢
    exact readFile_eq (areHashes sum inside) notBlank rest reads
  choose! read reads isFile using each
  have noNul : ∀ sum ∈ sums, '\x00' ∉ md5sumLine sum.1 sum.2 := fun sum inside =>
    nul_not_mem_md5sumLine (areHashes sum inside) (named sum inside).1
  rw [List.flatMap_map, readLines_flatMap reads noNul, List.map_map]
  exact List.map_congr_left isFile

theorem stepPkgSizeEnd_of_sums {install : Install Content} {sums : List (Text × Text)}
    (lines : comm (fileList md5 install.before) (fileList md5 install.after) =
      sums.map fun sum => md5sumLine sum.1 sum.2)
    (areHashes : ∀ sum ∈ sums, IsHash sum.1)
    (named : ∀ sum ∈ sums, '\x00' ∉ sum.2 ∧ ∃ c rest, sum.2 = c :: rest ∧ isSpace c = false) :
    stepPkgSizeEnd md5 install = sums.map fun sum => install.pkg ++ ',' :: leftPath sum.2 := by
  have files := map_readFile areHashes named
  have records := congrArg (List.map fun file => install.pkg ++ ',' :: file) files
  rw [List.map_map, List.map_map] at records
  rw [stepPkgSizeEnd, lines]
  exact records

/-- The records of an installation: those of the changed files, or that of the standard input. -/
theorem stepPkgSizeEnd_eq (install : Install Content) :
    stepPkgSizeEnd md5 install =
        (install.changed md5).map (fun path => install.pkg ++ ',' :: '.' :: '/' :: leftPath path) ∨
      stepPkgSizeEnd md5 install = [install.pkg ++ [',', '-']] ∧ install.changed md5 = [] := by
  rcases comm_fileList md5 install with lines | ⟨lines, noChange⟩
  · left
    have whole : comm (fileList md5 install.before) (fileList md5 install.after) =
        ((install.changedFiles md5).map fun file => (md5.sum file.2, '.' :: '/' :: file.1)).map
          fun sum => md5sumLine sum.1 sum.2 := by
      rw [lines, List.map_map]
      rfl
    rw [stepPkgSizeEnd_of_sums md5 whole, List.map_map, Install.changed, List.map_map]
    · refine List.map_congr_left fun file _ => ?_
      rw [Function.comp_apply, leftPath_cons (by rfl), leftPath_cons (by rfl)]
      rfl
    · rw [List.forall_mem_map]
      exact fun file _ => md5.isHash file.2
    · rw [List.forall_mem_map]
      intro file inside
      have changed : file.1 ∈ install.changed md5 := List.mem_map_of_mem inside
      have noNul := (install.after.named file.1 ((mem_changed md5).mp changed).1).2
      refine ⟨?_, '.', '/' :: file.1, rfl, rfl⟩
      rw [List.mem_cons, List.mem_cons, not_or, not_or]
      exact ⟨by decide, by decide, noNul⟩
  · refine Or.inr ⟨?_, by rw [Install.changed, noChange, List.map_nil]⟩
    have whole : comm (fileList md5 install.before) (fileList md5 install.after) =
        [(md5.sum md5.empty, ['-'])].map fun sum => md5sumLine sum.1 sum.2 := lines
    rw [stepPkgSizeEnd_of_sums md5 whole, List.map_singleton]
    · rfl
    · exact List.forall_mem_singleton.mpr (md5.isHash md5.empty)
    · have noNul : '\x00' ∉ ['-'] := by decide
      exact List.forall_mem_singleton.mpr ⟨noNul, '-', [], rfl, rfl⟩

/-! ### What is read of the records of an installation -/

section Lines

variable (python : Python)

/-- The lines that are read of the records of an installation. -/
def linesOf (install : Install Content) : List Text :=
  (stepPkgSizeEnd md5 install).flatMap fun line => python.lines (line ++ ['\n'])

/-- The record of a change, with its end, is read as its parts. -/
theorem lines_record {pkg : Text} (isPkg : ∀ c ∈ pkg, c ≠ '\n' ∧ c ≠ '\r') (path : Text) :
    python.lines ((pkg ++ ',' :: '.' :: '/' :: leftPath path) ++ ['\n']) =
      (parts python path).modifyHead fun first => pkg ++ ',' :: '.' :: '/' :: first := by
  have noNewline : '\n' ∉ pkg ++ [',', '.', '/'] := by
    rw [List.mem_append, not_or]
    exact ⟨fun inside => (isPkg _ inside).1 rfl, by decide⟩
  have noReturn : '\r' ∉ pkg ++ [',', '.', '/'] := by
    rw [List.mem_append, not_or]
    exact ⟨fun inside => (isPkg _ inside).2 rfl, by decide⟩
  have whole : (pkg ++ ',' :: '.' :: '/' :: leftPath path) ++ ['\n'] =
      (pkg ++ [',', '.', '/']) ++ (leftPath path ++ ['\n']) := by simp
  rw [whole, python.lines_plain_append noNewline noReturn, parts]
  exact congrArg (List.modifyHead · _) (funext fun first => by simp)

variable {python}

theorem forall_decodes_leftPath {path : Text} :
    (∀ c ∈ leftPath path, python.decodes c = true) ↔ ∀ c ∈ path, python.decodes c = true := by
  have same : ∀ c, ¬c.toNat < 128 → (c ∈ leftPath path ↔ c ∈ path) := by
    intro c large
    refine mem_leftPath_iff ?_ ?_
    · rintro rfl
      exact large (by decide)
    · rw [Bool.eq_false_iff]
      intro blank
      have cases : (c = ' ' ∨ c = '\t') ∨ c = '\n' := by simpa [isBlank] using blank
      rcases cases with (rfl | rfl) | rfl <;> exact large (by decide)
  constructor
  · intro all c inside
    by_cases small : c.toNat < 128
    · exact python.decodes_ascii c small
    · exact all c ((same c small).mpr inside)
  · intro all c inside
    by_cases small : c.toNat < 128
    · exact python.decodes_ascii c small
    · exact all c ((same c small).mp inside)

theorem Install.noComma (install : Install Content) : ',' ∉ install.pkg := fun inside =>
  (install.isName _ inside).2.1 rfl

theorem Install.noEnd (install : Install Content) :
    ∀ c ∈ install.pkg, c ≠ '\n' ∧ c ≠ '\r' := fun c inside =>
  ⟨(install.isName c inside).2.2.1, (install.isName c inside).2.2.2⟩

/-- All bytes of the records can be decoded exactly when those of the changed paths can be. -/
theorem forall_decodes_iff (install : Install Content) :
    (∀ line ∈ stepPkgSizeEnd md5 install, ∀ c ∈ line, python.decodes c = true) ↔
      ∀ path, install.Changes path → ∀ c ∈ path, python.decodes c = true := by
  have isPkg : ∀ c ∈ install.pkg, python.decodes c = true := fun c inside =>
    python.decodes_ascii c (install.isName c inside).1
  have isAscii : ∀ c ∈ [',', '.', '/', '-'], python.decodes c = true := fun c inside =>
    python.decodes_ascii c (by revert c; decide)
  simp only [← mem_changed md5]
  rcases stepPkgSizeEnd_eq md5 install with lines | ⟨lines, noChange⟩
  · rw [lines, List.forall_mem_map]
    refine forall₂_congr fun path _ => ?_
    rw [List.forall_mem_append, and_iff_right isPkg, List.forall_mem_cons,
      and_iff_right (isAscii _ (by decide)), List.forall_mem_cons,
      and_iff_right (isAscii _ (by decide)), List.forall_mem_cons,
      and_iff_right (isAscii _ (by decide)), forall_decodes_leftPath]
  · rw [lines, noChange, List.forall_mem_singleton, List.forall_mem_append, and_iff_right isPkg]
    refine iff_of_true (fun c inside => isAscii c ?_) fun path inside => absurd inside (by simp)
    rcases List.mem_cons.mp inside with rfl | last
    · decide
    · rw [List.mem_singleton.mp last]
      decide

/-- The lines that are read of the records of an installation, path by path. -/
theorem linesOf_eq (install : Install Content) :
    linesOf md5 python install = (install.changed md5).flatMap (fun path =>
        (parts python path).modifyHead fun first => install.pkg ++ ',' :: '.' :: '/' :: first) ∨
      linesOf md5 python install = [install.pkg ++ [',', '-']] ∧ install.changed md5 = [] := by
  rcases stepPkgSizeEnd_eq md5 install with lines | ⟨lines, noChange⟩
  · left
    rw [linesOf, lines, List.flatMap_map]
    exact congrArg (List.flatMap · _) (funext fun path => lines_record python install.noEnd path)
  · refine Or.inr ⟨?_, noChange⟩
    rw [linesOf, lines, List.flatMap_singleton]
    refine python.lines_plain ?_ ?_
    · rw [List.mem_append, not_or]
      exact ⟨fun inside => (install.noEnd _ inside).1 rfl, by decide⟩
    · rw [List.mem_append, not_or]
      exact ⟨fun inside => (install.noEnd _ inside).2 rfl, by decide⟩

/-- The records are read without an error exactly when the parts of the changed paths are. -/
theorem forall_count_iff (install : Install Content) :
    (∀ line ∈ linesOf md5 python install, line.count ',' = 1) ↔
      ∀ path, install.Changes path → (∀ part ∈ (parts python path).head?, ',' ∉ part) ∧
        ∀ part ∈ (parts python path).tail, part.count ',' = 1 := by
  have none : install.pkg.count ',' = 0 := List.count_eq_zero.mpr install.noComma
  simp only [← mem_changed md5]
  rcases linesOf_eq md5 install with lines | ⟨lines, noChange⟩
  · rw [lines, List.forall_mem_flatMap]
    refine forall₂_congr fun path _ => ?_
    obtain ⟨first, others, isParts⟩ := exists_parts python path
    rw [isParts, List.modifyHead_cons, List.forall_mem_cons, List.head?_cons, List.tail_cons]
    refine and_congr_left' ?_
    have once : (',' :: '.' :: '/' :: first).count ',' = first.count ',' + 1 := by simp
    rw [List.count_append, none, once, Nat.zero_add, Nat.add_eq_right, List.count_eq_zero]
    exact ⟨fun free part isFirst => Option.mem_some_iff.mp isFirst ▸ free,
      fun free => free first rfl⟩
  · rw [lines, noChange, List.forall_mem_singleton, List.count_append, none]
    exact iff_of_true (by decide) fun path inside => absurd inside (by simp)

/-- What is read of an installation about a path. -/
theorem filter_records {install : Install Content}
    (readable : ∀ path, install.Changes path → Readable python path) {path : Text}
    (nonempty : path ≠ []) :
    ((linesOf md5 python install).filterMap (readRecord python)).filter
        (fun record => record.2 = path) =
      ((install.changed md5).flatMap (readings python install.pkg)).filter
        fun record => record.2 = path := by
  rcases linesOf_eq md5 install with lines | ⟨lines, noChange⟩
  · rw [lines, List.filterMap_flatMap]
    refine congrArg (List.filter _) (List.flatMap_congr fun changed inside => ?_)
    obtain ⟨-, noComma, -⟩ := readable changed ((mem_changed md5).mp inside)
    obtain ⟨first, others, isParts⟩ := exists_parts python changed
    rw [isParts] at noComma
    rw [readings, isParts, List.modifyHead_cons, List.filterMap_cons,
      readRecord_first install.noComma, if_neg (noComma first rfl)]
  · have differs : decide (([] : Text) = path) = false := decide_eq_false (Ne.symm nonempty)
    rw [lines, noChange, List.filterMap_cons, readRecord_nothing install.noComma]
    exact List.filter_cons_of_neg (by rw [differs]; exact Bool.false_ne_true)

end Lines

end Records

/-- The item is the last one of which something holds. -/
def LastOf {α : Type} (items : List α) (holds : α → Prop) (item : α) : Prop :=
  ∃ before after, items = before ++ item :: after ∧ holds item ∧ ∀ later ∈ after, ¬holds later

section LastOf

variable {α : Type} {items : List α} {holds : α → Prop}

theorem lastOf_concat {last item : α} :
    LastOf (items ++ [last]) holds item ↔
      holds last ∧ item = last ∨ ¬holds last ∧ LastOf items holds item := by
  constructor
  · rintro ⟨before, after, split, here, notLater⟩
    rcases List.eq_nil_or_concat after with rfl | ⟨after, other, rfl⟩
    · obtain ⟨-, same⟩ := List.append_inj' split rfl
      cases same
      exact Or.inl ⟨here, rfl⟩
    · rw [List.concat_eq_append, ← List.cons_append, ← List.append_assoc] at split
      obtain ⟨front, same⟩ := List.append_inj' split rfl
      cases same
      rw [List.concat_eq_append] at notLater
      refine Or.inr ⟨notLater last (List.mem_append_right _ (List.mem_singleton_self _)), ?_⟩
      exact ⟨before, after, front, here, fun later inside =>
        notLater later (List.mem_append_left _ inside)⟩
  · rintro (⟨here, rfl⟩ | ⟨notLast, before, after, rfl, here, notLater⟩)
    · exact ⟨items, [], rfl, here, fun later inside => absurd inside List.not_mem_nil⟩
    · refine ⟨before, after ++ [last], ?_, here, fun later inside => ?_⟩
      · rw [List.append_assoc, List.cons_append]
      · rcases List.mem_append.mp inside with isAfter | isLast
        · exact notLater later isAfter
        · rwa [List.mem_singleton.mp isLast]

theorem LastOf.mem {item : α} (isLast : LastOf items holds item) : item ∈ items ∧ holds item := by
  obtain ⟨before, after, rfl, here, -⟩ := isLast
  exact ⟨List.mem_append_right _ List.mem_cons_self, here⟩

theorem lastOf_congr {other : α → Prop} (same : ∀ item ∈ items, holds item ↔ other item)
    (item : α) : LastOf items holds item ↔ LastOf items other item := by
  refine exists_congr fun before => exists_congr fun after => and_congr_right fun split => ?_
  subst split
  refine and_congr (same item (List.mem_append_right _ List.mem_cons_self)) ?_
  refine forall₂_congr fun later inside => not_congr (same later ?_)
  exact List.mem_append_right _ (List.mem_cons_of_mem _ inside)

/-- The last item of the items that are made of others. -/
theorem LastOf.flatMap {β : Type} {items : List α} {item : α} {made : α → List β}
    {holds : β → Prop} {last : β}
    (isLast : LastOf items (fun item => ∃ other ∈ made item, holds other) item)
    (isLastMade : LastOf (made item) holds last) : LastOf (items.flatMap made) holds last := by
  obtain ⟨before, after, rfl, -, notLater⟩ := isLast
  obtain ⟨beforeMade, afterMade, isMade, here, notLaterMade⟩ := isLastMade
  refine ⟨before.flatMap made ++ beforeMade, afterMade ++ after.flatMap made, ?_, here, ?_⟩
  · rw [List.flatMap_append, List.flatMap_cons, isMade]
    simp
  · rw [List.forall_mem_append]
    refine ⟨notLaterMade, fun other inside isOther => ?_⟩
    obtain ⟨later, isLater, isMadeOther⟩ := List.mem_flatMap.mp inside
    exact notLater later isLater ⟨other, isMadeOther, isOther⟩

theorem exists_lastOf {item : α} (inside : item ∈ items) (here : holds item) :
    ∃ last, LastOf items holds last := by
  induction items using List.reverseRecOn with
  | nil => cases inside
  | append_singleton items last inductionHypothesis =>
    by_cases isLast : holds last
    · exact ⟨last, lastOf_concat.mpr (Or.inl ⟨isLast, rfl⟩)⟩
    · rcases List.mem_append.mp inside with before | same
      · obtain ⟨found, isFound⟩ := inductionHypothesis before
        exact ⟨found, lastOf_concat.mpr (Or.inr ⟨isLast, isFound⟩)⟩
      · rw [List.mem_singleton.mp same] at here
        exact absurd here isLast

end LastOf

/-- The owner of a path is in the last record of the path. -/
theorem ownerOf_eq_some_iff {records : List (Text × Text)} {path pkg : Text} :
    ownerOf records path = some pkg ↔
      ∃ record, LastOf records (fun record => record.2 = path) record ∧ record.1 = pkg := by
  induction records using List.reverseRecOn with
  | nil =>
    refine iff_of_false (fun isSome => by cases isSome) ?_
    rintro ⟨record, isLast, -⟩
    exact absurd isLast.mem.1 List.not_mem_nil
  | append_singleton records last inductionHypothesis =>
    rw [ownerOf] at inductionHypothesis ⊢
    rw [List.filter_append, List.filter_singleton]
    simp only [lastOf_concat]
    by_cases here : last.2 = path
    · simp [here]
    · rw [decide_eq_false here, cond_false, List.append_nil, inductionHypothesis]
      simp [here]

/-! ### The attribution -/

/-- The list is read without an error, and every file that an installation changed is attributed
to the package of the last installation that did. -/
def Attributes {Content : Type} (python : Python) (md5 : Md5 Content)
    (installs : List (Install Content)) (target : Tree) : Prop :=
  ∃ filesdict, buildPackageDict python ⟨target, packagesFileList md5 installs⟩ = some filesdict ∧
    ∀ path ∈ target.files, ∀ install,
      LastOf installs (fun install => install.Changes path) install →
        (filesdict.lookup path).map Prod.fst = some install.pkg

section Result

variable {Content : Type} {python : Python} {md5 : Md5 Content}
  {installs : List (Install Content)} {target : Tree}

/-- The lines of the list are those of the installations, if all bytes can be decoded. -/
theorem readlines_packagesFileList :
    (python.readlines (packagesFileList md5 installs)).isSome = true ↔
      ∀ install ∈ installs, ∀ path, install.Changes path → ∀ c ∈ path, python.decodes c = true := by
  have isNewline : ∀ c ∈ ['\n'], python.decodes c = true := fun c inside =>
    python.decodes_ascii c (by rw [List.mem_singleton.mp inside]; decide)
  rw [Python.readlines, packagesFileList]
  split
  · rename_i all
    rw [List.all_eq_true, List.forall_mem_flatMap, List.forall_mem_flatMap] at all
    refine iff_of_true rfl fun install inside => (forall_decodes_iff md5 install).mp ?_
    exact fun line isLine => (List.forall_mem_append.mp (all install inside line isLine)).1
  · rename_i notAll
    refine iff_of_false Bool.false_ne_true fun all => notAll ?_
    rw [List.all_eq_true, List.forall_mem_flatMap, List.forall_mem_flatMap]
    intro install inside line isLine
    refine List.forall_mem_append.mpr ⟨?_, isNewline⟩
    exact (forall_decodes_iff md5 install).mpr (all install inside) line isLine

theorem readlines_eq {lines : List Text}
    (isText : python.readlines (packagesFileList md5 installs) = some lines) :
    lines = installs.flatMap (linesOf md5 python) := by
  rw [Python.readlines] at isText
  split at isText
  · rw [← Option.some.inj isText, packagesFileList, Python.lines_flatMap, List.flatMap_assoc]
    rfl
  · cases isText

/-- The script reads the list exactly when all changed paths are readable. -/
theorem buildPackageDict_packagesFileList :
    (buildPackageDict python ⟨target, packagesFileList md5 installs⟩).isSome ↔
      ∀ install ∈ installs, ∀ path, install.Changes path → Readable python path := by
  cases isText : python.readlines (packagesFileList md5 installs) with
  | none =>
    have noDict : buildPackageDict python ⟨target, packagesFileList md5 installs⟩ = none := by
      rw [buildPackageDict, isText]
      rfl
    rw [noDict]
    refine iff_of_false Bool.false_ne_true fun readable => ?_
    have isSome : (python.readlines (packagesFileList md5 installs)).isSome = true :=
      readlines_packagesFileList.mpr fun install inside path changes =>
        (readable install inside path changes).decodes
    rw [isText] at isSome
    cases isSome
  | some lines =>
    have decodes := readlines_packagesFileList.mp (Option.isSome_of_mem isText)
    rw [buildPackageDict_isSome_of_lines isText, readlines_eq isText, List.forall_mem_flatMap]
    refine forall₂_congr fun install inside => ?_
    rw [forall_count_iff]
    refine forall₂_congr fun path changes => ⟨fun both => ?_, fun readable => ?_⟩
    · exact ⟨decodes install inside path changes, both.1, both.2⟩
    · exact ⟨readable.first, readable.others⟩

/-- What is read of the changes of all installations, in their order. -/
noncomputable def allReadings (python : Python) (md5 : Md5 Content)
    (installs : List (Install Content)) : List (Text × Text) :=
  installs.flatMap fun install => (install.changed md5).flatMap (readings python install.pkg)

theorem fst_lookup {filesdict : Dict Text FileInfo}
    (isDict : buildPackageDict python ⟨target, packagesFileList md5 installs⟩ = some filesdict)
    {path : Text} (nonempty : path ≠ []) (isFile : path ∈ target.files) :
    (filesdict.lookup path).map Prod.fst = ownerOf (allReadings python md5 installs) path := by
  have readable := buildPackageDict_packagesFileList.mp (Option.isSome_of_mem isDict)
  have isSome : (python.readlines (packagesFileList md5 installs)).isSome = true :=
    readlines_packagesFileList.mpr fun install inside path changes =>
      (readable install inside path changes).decodes
  obtain ⟨lines, isText⟩ := Option.isSome_iff_exists.mp isSome
  have statIsSome : (target.stat path).isSome := by
    obtain ⟨size, found⟩ := Option.isSome_iff_exists.mp (AList.lookup_isSome.mpr isFile)
    rw [Tree.stat, found]
    rfl
  rw [lookup_buildPackageDict_of_lines isText isDict, if_pos statIsSome, Option.map_map,
    readlines_eq isText, ownerOf, ownerOf, allReadings, List.filterMap_flatMap, List.filter_flatMap,
    List.filter_flatMap]
  have same : installs.flatMap (fun install =>
        ((linesOf md5 python install).filterMap (readRecord python)).filter
          fun record => record.2 = path) =
      installs.flatMap fun install =>
        ((install.changed md5).flatMap (readings python install.pkg)).filter
          fun record => record.2 = path :=
    List.flatMap_congr fun install inside => filter_records md5 (readable install inside) nonempty
  rw [same]
  exact Option.map_id'

theorem nonempty_of_lastOf {install : Install Content} {path : Text}
    (isLast : LastOf installs (fun install => install.Changes path) install) : path ≠ [] :=
  (install.after.named path isLast.mem.2.1).1

/-- The files are attributed right exactly when the changed paths are readable, and the last
reading of a file is of the package that changed the file last. -/
theorem attributes_iff (python : Python) (md5 : Md5 Content) (installs : List (Install Content))
    (target : Tree) :
    Attributes python md5 installs target ↔
      (∀ install ∈ installs, ∀ path, install.Changes path → Readable python path) ∧
        ∀ path ∈ target.files, ∀ install,
          LastOf installs (fun install => install.Changes path) install →
            ∃ record, LastOf (allReadings python md5 installs) (fun record => record.2 = path)
              record ∧ record.1 = install.pkg := by
  constructor
  · rintro ⟨filesdict, isDict, attributed⟩
    refine ⟨buildPackageDict_packagesFileList.mp (Option.isSome_of_mem isDict), ?_⟩
    intro path isFile install isLast
    rw [← ownerOf_eq_some_iff, ← fst_lookup isDict (nonempty_of_lastOf isLast) isFile]
    exact attributed path isFile install isLast
  · rintro ⟨readable, recorded⟩
    have noError : (buildPackageDict python ⟨target, packagesFileList md5 installs⟩).isSome :=
      buildPackageDict_packagesFileList.mpr readable
    obtain ⟨filesdict, isDict⟩ := Option.isSome_iff_exists.mp noError
    refine ⟨filesdict, isDict, fun path isFile install isLast => ?_⟩
    rw [fst_lookup isDict (nonempty_of_lastOf isLast) isFile, ownerOf_eq_some_iff]
    exact recorded path isFile install isLast

/-- Paths of the usual kind are attributed right, in any order of the installations. -/
theorem attributes_of_plain (plain : ∀ install ∈ installs, ∀ path, install.Changes path →
    PlainPath python path) : Attributes python md5 installs target := by
  rw [attributes_iff]
  refine ⟨fun install inside path changes => (plain install inside path changes).readable, ?_⟩
  intro path _ install isLast
  have mem_readings : ∀ other ∈ installs, ∀ record : Text × Text,
      record ∈ (other.changed md5).flatMap (readings python other.pkg) ↔
        record.1 = other.pkg ∧ other.Changes record.2 := by
    intro other inside record
    rw [List.mem_flatMap, ← mem_changed md5]
    constructor
    · rintro ⟨changed, isChanged, isReading⟩
      rw [(plain other inside changed ((mem_changed md5).mp isChanged)).readings,
        List.mem_singleton] at isReading
      rw [isReading]
      exact ⟨rfl, isChanged⟩
    · rintro ⟨isPkg, isChanged⟩
      refine ⟨record.2, isChanged, ?_⟩
      rw [(plain other inside record.2 ((mem_changed md5).mp isChanged)).readings, ← isPkg]
      exact List.mem_singleton_self _
  have made : LastOf installs (fun other => ∃ record ∈ (other.changed md5).flatMap
      (readings python other.pkg), record.2 = path) install := by
    refine (lastOf_congr (fun other inside => ?_) install).mp isLast
    constructor
    · exact fun changes =>
        ⟨(other.pkg, path), (mem_readings other inside _).mpr ⟨rfl, changes⟩, rfl⟩
    · rintro ⟨record, isReading, rfl⟩
      exact ((mem_readings other inside record).mp isReading).2
  obtain ⟨inside, record, isReading, isPath⟩ := made.mem
  obtain ⟨last, isLastReading⟩ : ∃ last, LastOf ((install.changed md5).flatMap
      (readings python install.pkg)) (fun record => record.2 = path) last :=
    exists_lastOf isReading isPath
  exact ⟨last, made.flatMap isLastReading,
    ((mem_readings install inside last).mp isLastReading.mem.1).1⟩

end Result

/-- What is behind a carriage return is a record of another package. -/
example : readings python3 "hello".toList "a\rbusybox,./b".toList =
    [("hello".toList, "a".toList), ("busybox".toList, "b".toList)] := by
  decide +kernel

/-- Two contents with their sums: nothing, and a line. -/
def helloMd5 : Md5 Bool where
  sum := fun isHello =>
    if isHello then "b1946ac92492d2347c6235b4d2611184".toList
    else "d41d8cd98f00b204e9800998ecf8427e".toList
  isHash := fun isHello => by cases isHello <;> exact ⟨by decide +kernel, by decide +kernel⟩
  injective := by decide +kernel
  empty := false

def commaPath : Text := "usr/share/hello,v".toList

/-- The installation of a file with a comma in its name. -/
def commaInstall : Install Bool where
  pkg := "hello".toList
  isName := by decide +kernel
  before := ⟨∅, fun path inside => absurd inside (AList.notMem_empty path)⟩
  after := ⟨Dict.ofList [(commaPath, true)], fun path inside => by
    rw [List.mem_singleton.mp (Dict.mem_ofList.mp inside)]
    decide +kernel⟩

/-- The script stops with an error. -/
theorem comma_unreadable :
    ¬Attributes python2 helloMd5 [commaInstall] ⟨Dict.ofList [(commaPath, 6)], fun _ => none⟩ := by
  rintro ⟨filesdict, isDict, -⟩
  have readable := buildPackageDict_packagesFileList.mp (Option.isSome_of_mem isDict)
  have changes : commaInstall.Changes commaPath := by
    refine ⟨Dict.mem_ofList.mpr (List.mem_singleton_self _), ?_⟩
    decide +kernel
  have noComma := (readable commaInstall (List.mem_singleton_self _) commaPath changes).first
  rw [parts_of_free (by decide +kernel)] at noComma
  exact noComma _ rfl (by decide +kernel)

end Buildroot4G.Stats
