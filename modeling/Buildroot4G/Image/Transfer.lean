/-
This file models the calls of `mkpimage` that may go wrong: a `read` or `write` may fail, and
transfer fewer bytes than it is asked to, or none. `read_full` returns what it has when a `read`
returns 0, `write_full` returns 0 when a `write` does, and `main` takes both for success. The main
result is that an exit status of 0 means a complete image exactly when no call returns 0 too
early, unless something else fails.
-/

import Buildroot4G.Image.Format

namespace Buildroot4G.Image.Transfer

open Shell

/-! ### Reading and writing -/

/-- What a call of `read` or `write` does: it fails, or it transfers at most some bytes. -/
inductive Call where
  | fails
  | transfers (count : ℕ)
  deriving DecidableEq, Repr

/-- What `read_full` returns, with the buffer and the rest of the file. -/
structure Reading where
  ret : ℤ
  buf : List Byte
  file : List Byte
  deriving DecidableEq, Repr

/-- The loop of `read_full`. -/
def readLoop (reads : ℕ → Call) (insize call : ℕ) (file buf : List Byte)
    (offset size total : ℕ) : Reading :=
  if size = 0 then ⟨insize, buf, file⟩
  else
    match reads call with
    | .fails => ⟨-1, buf, file⟩
    | .transfers count =>
      let now := min count (min size file.length)
      if now = 0 then ⟨total, buf, file⟩
      else
        readLoop reads insize (call + 1) (file.drop now) (setBytes buf offset (file.take now))
          (offset + now) (size - now) (total + now)
termination_by size

/-- `read_full`. -/
def readFull (reads : ℕ → Call) (file buf : List Byte) (offset size : ℕ) : Reading :=
  readLoop reads size 0 file buf offset size 0

/-- What `write_full` returns, with the bytes in the file. -/
structure Writing where
  ret : ℤ
  written : List Byte
  deriving DecidableEq, Repr

/-- The loop of `write_full`. -/
def writeLoop (writes : ℕ → Call) (insize call : ℕ) (buf written : List Byte) (size : ℕ) :
    Writing :=
  if size = 0 then ⟨insize, written⟩
  else
    match writes call with
    | .fails => ⟨-1, written⟩
    | .transfers count =>
      let now := min count size
      if now = 0 then ⟨now, written⟩
      else
        writeLoop writes insize (call + 1) (buf.drop now) (written ++ buf.take now) (size - now)
termination_by size

/-- `write_full`. -/
def writeFull (writes : ℕ → Call) (buf : List Byte) (size : ℕ) : Writing :=
  writeLoop writes size 0 buf [] size

/-! ### `main` -/

/-- What the system does: whether the calls that are made once succeed, and what each `read` and
`write` does. -/
structure System where
  stat : Bool
  openInfile : Bool
  calloc : Bool
  openOutfile : Bool
  reads : ℕ → Call
  writes : ℕ → Call

/-- How the program ends: its exit status, what it complains of, what it has not read of the input
and what is in the output, once that is open. -/
structure Finished where
  status : ℕ
  complaint : Option Text
  unread : List Byte
  outfile : Option (List Byte)
  deriving DecidableEq, Repr

/-- The part of `main` behind `read_full`. -/
def finish (barebox : Bool) (system : System) (size : ℕ) (buf unread : List Byte) : Finished :=
  let buf := if barebox then setBytes buf 0 (bbHeader.flatMap Word.bytes) else buf
  match addSocfpgaHeader buf size with
  | .error complaint => ⟨1, complaint, unread, none⟩
  | .ok buf =>
    if system.openOutfile = false then ⟨1, "open outfile".toList, unread, none⟩
    else
      let writing := writeFull system.writes buf size
      if writing.ret < 0 then ⟨1, "write outfile".toList, unread, some writing.written⟩
      else ⟨0, none, unread, some writing.written⟩

/-- `main`, behind the options. -/
def main (barebox : Bool) (system : System) (infile : List Byte) : Finished :=
  let stSize := infile.length
  if system.stat = false then ⟨1, "stat".toList, infile, none⟩
  else if stSize < minSize barebox then
    ⟨1, "input image too small. Minimum is 80 bytes\n".toList, infile, none⟩
  else if stSize > maxSize barebox then
    ⟨1, "input image too big. Maximum is ".toList ++ decimal (maxSize barebox) ++
      " bytes, got ".toList ++ decimal stSize ++ " bytes\n".toList, infile, none⟩
  else if system.openInfile = false then ⟨1, "open infile".toList, infile, none⟩
  else if system.calloc = false then ⟨1, "malloc".toList, infile, none⟩
  else
    let size := stSize + 4 + addSize barebox + padding stSize
    let reading :=
      readFull system.reads infile (List.replicate size 0) (addSize barebox) stSize
    if reading.ret < 0 then ⟨1, "read infile".toList, reading.file, none⟩
    else finish barebox system size reading.buf reading.file

/-! ### The calls that are made -/

/-- The calls for some bytes, from one call on, come to a call that does as given while there are
bytes left. -/
inductive ComesTo (calls : ℕ → Call) (last : Call) : ℕ → ℕ → Prop where
  | here {call size : ℕ} (left : 0 < size) (is : calls call = last) : ComesTo calls last call size
  | later {call size count : ℕ} (is : calls call = .transfers count) (some : 0 < count)
      (left : count < size) (next : ComesTo calls last (call + 1) (size - count)) :
      ComesTo calls last call size

section ComesTo

variable {calls : ℕ → Call} {last : Call} {call size count : ℕ}

theorem ComesTo.pos (comes : ComesTo calls last call size) : 0 < size := by
  cases comes with
  | here left _ => exact left
  | later _ _ left _ => exact Nat.zero_lt_of_lt left

/-- A call that does something else has bytes left behind it. -/
theorem comesTo_iff (is : calls call = .transfers count) (different : .transfers count ≠ last)
    (some : 0 < count) :
    ComesTo calls last call size ↔ ComesTo calls last (call + 1) (size - min count size) := by
  constructor
  · rintro (⟨_, isLast⟩ | ⟨is', _, left, next⟩)
    · exact absurd (is.symm.trans isLast) different
    · cases is.symm.trans is'
      rwa [Nat.min_eq_left (Nat.le_of_lt left)]
  · intro next
    have left := next.pos
    have less : count < size := by omega
    rw [Nat.min_eq_left (Nat.le_of_lt less)] at next
    exact .later is some less next

theorem comesTo_of_is (is : calls call = last) (left : 0 < size) (other : Call)
    (different : last ≠ other) (none : ∀ count, last = .transfers count → count = 0) :
    ComesTo calls last call size ∧ ¬ComesTo calls other call size := by
  refine ⟨.here left is, ?_⟩
  rintro (⟨_, isOther⟩ | ⟨isSome, some, _, _⟩)
  · exact different (is.symm.trans isOther)
  · exact absurd (none _ (is.symm.trans isSome)) (Nat.ne_of_gt some)

theorem not_comesTo_of_ne (never : ∀ call, calls call ≠ last) : ¬ComesTo calls last call size := by
  intro comes
  induction comes with
  | here _ is => exact never _ is
  | later _ _ _ _ inductionHypothesis => exact inductionHypothesis

end ComesTo

/-! ### The loops -/

/-- What `read_full` returns for each course of the calls. -/
theorem readLoop_cases (reads : ℕ → Call) (insize call : ℕ) (file buf : List Byte)
    (offset size total : ℕ) (inside : offset + size ≤ buf.length) (enough : size ≤ file.length) :
    let reading := readLoop reads insize call file buf offset size total
    (ComesTo reads .fails call size ∧ ¬ComesTo reads (.transfers 0) call size ∧
        reading.ret = -1) ∨
      (ComesTo reads (.transfers 0) call size ∧ ¬ComesTo reads .fails call size ∧
        0 ≤ reading.ret ∧ reading.buf.length = buf.length ∧
        file.length < size + reading.file.length) ∨
      ¬ComesTo reads .fails call size ∧ ¬ComesTo reads (.transfers 0) call size ∧
        reading = ⟨insize, setBytes buf offset (file.take size), file.drop size⟩ := by
  fun_induction readLoop reads insize call file buf offset size total with
  | case1 call file buf offset total =>
    refine Or.inr (Or.inr ⟨fun comes => ?_, fun comes => ?_, ?_⟩)
    · exact absurd comes.pos (Nat.lt_irrefl 0)
    · exact absurd comes.pos (Nat.lt_irrefl 0)
    · rw [List.take_zero, setBytes_nil, List.drop_zero]
  | case2 call file buf offset size total nonzero is =>
    obtain ⟨comes, not⟩ := comesTo_of_is is (Nat.pos_of_ne_zero nonzero) (.transfers 0)
      (by simp) (by simp)
    exact Or.inl ⟨comes, not, rfl⟩
  | case3 call file buf offset size total nonzero count is now none =>
    have zero : count = 0 := by omega
    subst zero
    obtain ⟨comes, not⟩ := comesTo_of_is is (Nat.pos_of_ne_zero nonzero) .fails
      (by simp) (by simp)
    exact Or.inr (Or.inl ⟨comes, not, Int.natCast_nonneg total, rfl,
      Nat.lt_add_of_pos_left (Nat.pos_of_ne_zero nonzero)⟩)
  | case4 call file buf offset size total nonzero count is now some inductionHypothesis =>
    have transferred : (file.take now).length = now := by
      rw [List.length_take]
      omega
    have sized : (setBytes buf offset (file.take now)).length = buf.length := by
      rw [setBytes, List.length_append, List.length_append, List.length_take, transferred,
        List.length_drop]
      omega
    have together : file.take now ++ (file.drop now).take (size - now) = file.take size := by
      rw [← List.take_add]
      congr 1
      omega
    have here : now = min count size := by omega
    have positive : 0 < count := by omega
    rw [comesTo_iff is (by simp) positive, comesTo_iff is (by simp; omega) positive, ← here]
    have later := inductionHypothesis (by rw [sized]; omega) (by rw [List.length_drop]; omega)
    rw [sized, List.length_drop, List.drop_drop, Nat.add_sub_of_le (by omega)] at later
    have adjacent := @setBytes_setBytes buf (file.take now) ((file.drop now).take (size - now))
      offset (by omega)
    rw [transferred, together] at adjacent
    rw [adjacent] at later
    rcases later with failed | ⟨comes, not, returned, same, unread⟩ | done
    · exact Or.inl failed
    · exact Or.inr (Or.inl ⟨comes, not, returned, same, by omega⟩)
    · exact Or.inr (Or.inr done)

/-- What `write_full` returns for each course of the calls. -/
theorem writeLoop_cases (writes : ℕ → Call) (insize call : ℕ) (buf written : List Byte)
    (size : ℕ) :
    let writing := writeLoop writes insize call buf written size
    (ComesTo writes .fails call size ∧ ¬ComesTo writes (.transfers 0) call size ∧
        writing.ret = -1) ∨
      (ComesTo writes (.transfers 0) call size ∧ ¬ComesTo writes .fails call size ∧
        writing.ret = 0 ∧ writing.written.length < written.length + size) ∨
      ¬ComesTo writes .fails call size ∧ ¬ComesTo writes (.transfers 0) call size ∧
        writing = ⟨insize, written ++ buf.take size⟩ := by
  fun_induction writeLoop writes insize call buf written size with
  | case1 call buf written =>
    refine Or.inr (Or.inr ⟨fun comes => ?_, fun comes => ?_, ?_⟩)
    · exact absurd comes.pos (Nat.lt_irrefl 0)
    · exact absurd comes.pos (Nat.lt_irrefl 0)
    · rw [List.take_zero, List.append_nil]
  | case2 call buf written size nonzero is =>
    obtain ⟨comes, not⟩ := comesTo_of_is is (Nat.pos_of_ne_zero nonzero) (.transfers 0)
      (by simp) (by simp)
    exact Or.inl ⟨comes, not, rfl⟩
  | case3 call buf written size nonzero count is now none =>
    have zero : count = 0 := by omega
    subst zero
    obtain ⟨comes, not⟩ := comesTo_of_is is (Nat.pos_of_ne_zero nonzero) .fails
      (by simp) (by simp)
    refine Or.inr (Or.inl ⟨comes, not, ?_, Nat.lt_add_of_pos_right (Nat.pos_of_ne_zero nonzero)⟩)
    change (now : ℤ) = 0
    exact_mod_cast none
  | case4 call buf written size nonzero count is now some inductionHypothesis =>
    have transferred : (buf.take now).length ≤ now := List.length_take_le now buf
    have together : buf.take now ++ (buf.drop now).take (size - now) = buf.take size := by
      rw [← List.take_add]
      congr 1
      omega
    have positive : 0 < count := by omega
    rw [comesTo_iff is (by simp) positive, comesTo_iff is (by simp; omega) positive]
    have later := inductionHypothesis
    rw [List.length_append, List.append_assoc, together] at later
    rcases later with failed | ⟨comes, not, returned, less⟩ | done
    · exact Or.inl failed
    · exact Or.inr (Or.inl ⟨comes, not, returned, by omega⟩)
    · exact Or.inr (Or.inr done)

/-! ### The exit status -/

/-- The size of the image. -/
def imageSize (barebox : Bool) (infile : List Byte) : ℕ :=
  infile.length + 4 + addSize barebox + padding infile.length

/-- The whole input is read, and the output is a whole image of it. -/
def Complete (barebox : Bool) (infile : List Byte) (finished : Finished) : Prop :=
  finished.unread = [] ∧ ∃ image, finished.outfile = some image ∧ IsImage barebox infile image

/-- A `read` returns 0 before the input is read, or a `write` before the image is written. -/
def EndsEarly (barebox : Bool) (system : System) (infile : List Byte) : Prop :=
  ComesTo system.reads (.transfers 0) 0 infile.length ∨
    ComesTo system.writes (.transfers 0) 0 (imageSize barebox infile)

/-- Something fails: the input has not an accepted size, or a call reports an error. -/
def Fails (barebox : Bool) (system : System) (infile : List Byte) : Prop :=
  ¬Accepted barebox infile.length ∨ system.stat = false ∨ system.openInfile = false ∨
    system.calloc = false ∨ system.openOutfile = false ∨
    ComesTo system.reads .fails 0 infile.length ∨
    ComesTo system.writes .fails 0 (imageSize barebox infile)

section Main

variable {barebox : Bool} {system : System} {infile : List Byte} {size : ℕ}

theorem imageSize_mod (barebox : Bool) (infile : List Byte) :
    imageSize barebox infile &&& 3 = 0 := by
  have multiple := (padding_spec infile.length).2
  rw [and_three, imageSize]
  cases barebox
  · rw [addSize, if_neg Bool.false_ne_true]
    omega
  · rw [addSize, if_pos rfl]
    omega

theorem exists_addSocfpgaHeader (aligned : size &&& 3 = 0) (buf : List Byte) :
    ∃ headed, addSocfpgaHeader buf size = .ok headed := by
  rw [addSocfpgaHeader, if_neg (not_not_intro aligned)]
  exact ⟨_, rfl⟩

/-- What is written behind the input: nothing to the end, a part of the buffer with the header, or
all of it. -/
theorem finish_cases (barebox : Bool) (system : System) (aligned : size &&& 3 = 0)
    (buf unread : List Byte) :
    ∃ headed, addSocfpgaHeader
        (if barebox then setBytes buf 0 (bbHeader.flatMap Word.bytes) else buf) size = .ok headed ∧
      let finished := finish barebox system size buf unread
      ((system.openOutfile = false ∨ ComesTo system.writes .fails 0 size) ∧
          finished.status = 1) ∨
        ((system.openOutfile = true ∧ ¬ComesTo system.writes .fails 0 size) ∧
          ComesTo system.writes (.transfers 0) 0 size ∧
          ∃ written, written.length < size ∧ finished = ⟨0, none, unread, some written⟩) ∨
        (system.openOutfile = true ∧ ¬ComesTo system.writes .fails 0 size) ∧
          ¬ComesTo system.writes (.transfers 0) 0 size ∧
          finished = ⟨0, none, unread, some (headed.take size)⟩ := by
  obtain ⟨headed, header⟩ := exists_addSocfpgaHeader aligned
    (if barebox then setBytes buf 0 (bbHeader.flatMap Word.bytes) else buf)
  refine ⟨headed, header, ?_⟩
  rw [finish]
  simp only [header]
  cases opens : system.openOutfile with
  | false => exact Or.inl ⟨Or.inl rfl, rfl⟩
  | true =>
    rw [if_neg (by simp : ¬true = false)]
    have writes := writeLoop_cases system.writes size 0 headed [] size
    rw [writeFull]
    simp only at writes
    generalize writeLoop system.writes size 0 headed [] size = writing at writes ⊢
    rcases writes with ⟨fails, _, ret⟩ | ⟨ends, notFails, ret, less⟩ | ⟨notFails, notEnds, all⟩
    · refine Or.inl ⟨Or.inr fails, ?_⟩
      rw [ret, if_pos (by decide)]
    · refine Or.inr (Or.inl ⟨⟨rfl, notFails⟩, ends, writing.written, ?_, ?_⟩)
      · rwa [List.length_nil, Nat.zero_add] at less
      · rw [ret, if_neg (by decide)]
    · refine Or.inr (Or.inr ⟨⟨rfl, notFails⟩, notEnds, ?_⟩)
      rw [all, List.nil_append, if_neg (by simp)]

/-- Before the input is read nothing fails. -/
def Starts (barebox : Bool) (system : System) (infile : List Byte) : Prop :=
  Accepted barebox infile.length ∧ system.stat = true ∧ system.openInfile = true ∧
    system.calloc = true

theorem main_of_starts (starts : Starts barebox system infile) :
    main barebox system infile =
      let reading := readFull system.reads infile
        (List.replicate (imageSize barebox infile) 0) (addSize barebox) infile.length
      if reading.ret < 0 then ⟨1, some "read infile".toList, reading.file, none⟩
      else finish barebox system (imageSize barebox infile) reading.buf reading.file := by
  obtain ⟨accepted, stat, opens, allocates⟩ := starts
  rw [main]
  simp only [stat, opens, allocates, Nat.not_lt.mpr accepted.1, Nat.not_lt.mpr accepted.2,
    if_false, Bool.true_eq_false]
  rfl

theorem status_of_not_starts (not : ¬Starts barebox system infile) :
    (main barebox system infile).status = 1 := by
  rw [main]
  simp only
  split
  · rfl
  · split
    · rfl
    · split
      · rfl
      · split
        · rfl
        · split
          · rfl
          · simp_all [Starts, Accepted]

/-- The image that is written when all calls transfer what they are asked to. -/
theorem isImage_of_all (accepted : Accepted barebox infile.length) {headed : List Byte}
    (header : addSocfpgaHeader
      (if barebox then setBytes (setBytes (List.replicate (imageSize barebox infile) 0)
          (addSize barebox) (infile.take infile.length)) 0 (bbHeader.flatMap Word.bytes)
        else setBytes (List.replicate (imageSize barebox infile) 0) (addSize barebox)
          (infile.take infile.length)) (imageSize barebox infile) = .ok headed) :
    IsImage barebox infile (headed.take (imageSize barebox infile)) := by
  have isImage := @isImage_withHeader barebox infile accepted _ rfl _ rfl
  have written := mkpimage_eq_ok accepted (fun _ => 1) (fun _ => 1)
  have read := readFull_eq (fun _ => 1) 0 infile (List.replicate (imageSize barebox infile) 0)
    (addSize barebox) infile.length (by rw [List.length_replicate, imageSize]; omega)
  rw [mkpimage, if_neg (Nat.not_lt.mpr accepted.1), if_neg (Nat.not_lt.mpr accepted.2),
    ← imageSize] at written
  simp only [read, header] at written
  change Except.ok (Image.writeFull _ 0 headed [] _) = _ at written
  rw [writeFull_eq, List.nil_append] at written
  rw [Except.ok.inj written]
  exact isImage

/-- How the program ends. -/
theorem main_cases (barebox : Bool) (system : System) (infile : List Byte) :
    let finished := main barebox system infile
    (Fails barebox system infile ∧ finished.status = 1) ∨
      (¬Fails barebox system infile ∧ EndsEarly barebox system infile ∧ finished.status = 0 ∧
        ¬Complete barebox infile finished) ∨
      ¬Fails barebox system infile ∧ ¬EndsEarly barebox system infile ∧ finished.status = 0 ∧
        Complete barebox infile finished := by
  by_cases starts : Starts barebox system infile
  swap
  · refine Or.inl ⟨?_, status_of_not_starts starts⟩
    by_contra works
    simp only [Fails, not_or, Bool.not_eq_false, not_not] at works
    exact starts ⟨works.1, works.2.1, works.2.2.1, works.2.2.2.1⟩
  have started := main_of_starts starts
  obtain ⟨accepted, stat, opens, allocates⟩ := starts
  have reads := readLoop_cases system.reads infile.length 0 infile
    (List.replicate (imageSize barebox infile) 0) (addSize barebox) infile.length 0
    (by rw [List.length_replicate, imageSize]; omega) (Nat.le_refl _)
  rw [readFull] at started
  simp only at reads started
  generalize readLoop system.reads infile.length 0 infile
    (List.replicate (imageSize barebox infile) 0) (addSize barebox) infile.length 0 = reading
    at reads started
  rw [started]
  have fails_iff : Fails barebox system infile ↔
      system.openOutfile = false ∨ ComesTo system.reads .fails 0 infile.length ∨
        ComesTo system.writes .fails 0 (imageSize barebox infile) := by
    simp [Fails, accepted, stat, opens, allocates]
  rw [fails_iff, EndsEarly]
  rcases reads with ⟨fails, _, ret⟩ | ⟨ends, notFails, ret, _, unread⟩ | ⟨notFails, notEnds, all⟩
  · refine Or.inl ⟨Or.inr (Or.inl fails), ?_⟩
    rw [ret, if_pos (by decide)]
  · -- `main` goes on with what was read
    rw [if_neg (Int.not_lt.mpr ret)]
    obtain ⟨_, -, ⟨fails, status⟩ | ⟨works, _, _, _, finished⟩ | ⟨works, _, finished⟩⟩ :=
      finish_cases barebox system (imageSize_mod barebox infile)
        reading.buf reading.file
    · exact Or.inl ⟨fails.imp_right Or.inr, status⟩
    all_goals
      refine Or.inr (Or.inl ⟨?_, Or.inl ends, by rw [finished], fun complete => ?_⟩)
      · simp [works, notFails]
      · rw [finished] at complete
        have read : reading.file = [] := complete.1
        rw [read, List.length_nil] at unread
        exact Nat.lt_irrefl _ unread
  · rw [all, if_neg (by simp)]
    obtain ⟨headed, header, ⟨fails, status⟩ | ⟨works, ends, written, less, finished⟩ |
      ⟨works, notEndsWriting, finished⟩⟩ :=
      finish_cases barebox system (imageSize_mod barebox infile)
        (setBytes (List.replicate (imageSize barebox infile) 0) (addSize barebox)
          (infile.take infile.length)) (infile.drop infile.length)
    · exact Or.inl ⟨fails.imp_right Or.inr, status⟩
    · refine Or.inr (Or.inl ⟨?_, Or.inr ends, by rw [finished], fun complete => ?_⟩)
      · simp [works, notFails]
      · obtain ⟨-, image, isOutput, isImage⟩ := complete
        rw [finished] at isOutput
        have same : written = image := Option.some.inj isOutput
        have whole := isImage.length
        rw [← same, length_padded] at whole
        rw [imageSize] at less
        omega
    · refine Or.inr (Or.inr ⟨?_, ?_, by rw [finished], ?_⟩)
      · simp [works, notFails]
      · simp [notEnds, notEndsWriting]
      · rw [finished]
        exact ⟨List.drop_length, _, rfl, isImage_of_all accepted header⟩

/-- An exit status of 0 means that the whole input was read and the whole image written if and only
if no call returns 0 too early, or something fails as well. -/
theorem complete_of_status_iff (barebox : Bool) (system : System) (infile : List Byte) :
    ((main barebox system infile).status = 0 →
        Complete barebox infile (main barebox system infile)) ↔
      (EndsEarly barebox system infile → Fails barebox system infile) := by
  rcases main_cases barebox system infile with
    ⟨fails, status⟩ | ⟨works, ends, status, incomplete⟩ | ⟨works, goes, status, complete⟩
  · refine iff_of_true (fun success => ?_) fun _ => fails
    rw [status] at success
    cases success
  · exact iff_of_false (fun claims => incomplete (claims status)) fun claims => works (claims ends)
  · exact iff_of_true (fun _ => complete) fun ends => absurd ends goes

/-- The input file ends before anything is read. -/
def endedInput : System where
  stat := true
  openInfile := true
  calloc := true
  openOutfile := true
  reads _ := .transfers 0
  writes _ := .transfers 1024

/-- An image is written without the input. -/
theorem incomplete_endedInput :
    (main false endedInput (List.replicate 80 0xff)).status = 0 ∧
      ¬Complete false (List.replicate 80 0xff)
        (main false endedInput (List.replicate 80 0xff)) := by
  rcases main_cases false endedInput (List.replicate 80 0xff) with
    ⟨fails, _⟩ | ⟨_, _, status, incomplete⟩ | ⟨_, goes, _, _⟩
  · rcases fails with refused | fails | fails | fails | fails | fails | fails
    · exact absurd (by decide) refused
    · cases fails
    · cases fails
    · cases fails
    · cases fails
    · exact absurd fails (not_comesTo_of_ne fun _ => by simp [endedInput])
    · exact absurd fails (not_comesTo_of_ne fun _ => by simp [endedInput])
  · exact ⟨status, incomplete⟩
  · exact absurd (Or.inl (.here (by decide) rfl)) goes

end Main

end Buildroot4G.Image.Transfer
