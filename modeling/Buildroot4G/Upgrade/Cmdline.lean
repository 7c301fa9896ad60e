/-
This file models what the upgrade scripts do with the kernel command line in
`/mnt/boot/cmdline.txt`: the search of `get_unused_rootfs_partition` for the
first of the partitions 2 and 3 that the text does not mention, and the sed
command of `fs-install-template` that points the text at the partition just
installed. It also models what the kernel makes of the text, the partition its
`root=` argument names.

The bracket expression `[2..3]` of the sed command is not a range: it lists the
characters `2`, `.` and `3`.
-/

import Mathlib.Data.Fintype.Basic
import Buildroot4G.Shell.Text

namespace Buildroot4G.Upgrade

open Shell

/-! ### The two root partitions -/

/-- The partitions a root file system can be installed on: the `2 3` of the `for` loop. -/
inductive RootPart where
  | two
  | three
  deriving DecidableEq, Repr

namespace RootPart

def digit : RootPart → Char
  | two => '2'
  | three => '3'

def other : RootPart → RootPart
  | two => three
  | three => two

@[simp]
theorem other_other (part : RootPart) : part.other.other = part := by
  cases part <;> rfl

instance : Fintype RootPart := ⟨{two, three}, fun part => by cases part <;> decide⟩

theorem other_ne (part : RootPart) : part.other ≠ part := by
  cases part <;> decide

theorem eq_or_eq_other (first second : RootPart) : second = first ∨ second = first.other := by
  cases first <;> cases second <;> decide

end RootPart

def deviceStem : Text := "mmcblk0p".toList

theorem deviceStem_eq : deviceStem = ['m', 'm', 'c', 'b', 'l', 'k', '0', 'p'] := rfl

/-- The text `mmcblk0p$i` that the scripts search for. -/
def deviceName (part : RootPart) : Text := deviceStem ++ [part.digit]

/-- The device node of a partition. -/
def devicePath (part : RootPart) : Text := "/dev/".toList ++ deviceName part

theorem devicePath_injective : Function.Injective devicePath := by
  intro first second same
  cases first <;> cases second <;> first | rfl | exact absurd same (by decide)

/-! ### The scripts' reading and rewriting -/

/-- `get_unused_rootfs_partition`: the first partition that the command line does not mention,
or nothing when it mentions both. -/
def getUnusedRootfsPartition (cmdline : Text) : Option RootPart :=
  [RootPart.two, RootPart.three].find? fun i => !grep (deviceName i) cmdline

/-- The text of `$use_part`, empty when the search found nothing. -/
def usePartText : Option RootPart → Text
  | some part => [part.digit]
  | none => []

/-- The bracket expression `[2..3]`. -/
def inBracket (c : Char) : Bool := c == '2' || c == '.' || c == '3'

/-- The pattern `mmcblk0p[2..3]` at the head of a text. -/
def deviceMatch (text : Text) : Nat :=
  if deviceStem.isPrefixOf text && (text.drop 8).head?.any inBracket then 9 else 0

/-- `sed -i s/mmcblk0p[2..3]/mmcblk0p$use_part/g`. -/
def rewriteCmdline (usePart : Option RootPart) (cmdline : Text) : Text :=
  substitute deviceMatch (deviceStem ++ usePartText usePart) cmdline

/-! ### The kernel's reading -/

def rootPrefix : Text := "root=".toList

/-- The values of the `root=` arguments, in order. -/
def rootValues (cmdline : Text) : List Text :=
  (words cmdline).filterMap fun word =>
    if rootPrefix.isPrefixOf word then some (word.drop 5) else none

/-- The partition the kernel boots from: the last `root=` argument decides. -/
def rootOf (cmdline : Text) : Option RootPart :=
  (rootValues cmdline).getLast?.bind fun value =>
    [RootPart.two, RootPart.three].find? fun part => devicePath part == value

/-- A command line that names exactly one of the two partitions as root. -/
def NamesRoot (cmdline : Text) (root : RootPart) : Prop := rootValues cmdline = [devicePath root]

instance (cmdline : Text) (root : RootPart) : Decidable (NamesRoot cmdline root) :=
  inferInstanceAs (Decidable (_ = _))

/-- A command line that has the name of a partition somewhere. -/
def Mentions (cmdline : Text) (part : RootPart) : Prop := deviceName part <:+: cmdline

instance (cmdline : Text) (part : RootPart) : Decidable (Mentions cmdline part) :=
  inferInstanceAs (Decidable (_ <:+: _))

theorem rootOf_of_namesRoot {cmdline : Text} {root : RootPart} (names : NamesRoot cmdline root) :
    rootOf cmdline = some root := by
  rw [rootOf, names]
  cases root <;> decide

theorem mentions_of_namesRoot {cmdline : Text} {root : RootPart}
    (names : NamesRoot cmdline root) : Mentions cmdline root := by
  have member : devicePath root ∈ rootValues cmdline := by
    rw [names]
    exact List.mem_singleton_self _
  obtain ⟨word, inWords, value⟩ := List.mem_filterMap.mp member
  split at value
  · have suffix : devicePath root <:+ word := by
      rw [← Option.some.inj value]
      exact List.drop_suffix 5 word
    have name : deviceName root <:+ devicePath root := List.suffix_append _ _
    exact ((name.trans suffix).isInfix).trans (infix_of_mem_words inWords)
  · cases value

/-! ### The search -/

/-- A command line that mentions one partition only makes the search return the other. -/
theorem getUnused_of_not_mentions {cmdline : Text} {root : RootPart}
    (names : Mentions cmdline root) (single : ¬ Mentions cmdline root.other) :
    getUnusedRootfsPartition cmdline = some root.other := by
  have found : grep (deviceName root) cmdline = true := grep_eq_true.mpr names
  have missing : grep (deviceName root.other) cmdline = false := grep_eq_false.mpr single
  cases root with
  | two =>
    rw [RootPart.other] at missing
    simp only [getUnusedRootfsPartition, List.find?, found, missing, Bool.not_true,
      Bool.not_false, RootPart.other]
  | three =>
    rw [RootPart.other] at missing
    simp only [getUnusedRootfsPartition, List.find?, missing, Bool.not_false, RootPart.other]

/-- A command line that mentions both partitions makes the search return nothing. -/
theorem getUnused_of_mentions {cmdline : Text} {root : RootPart}
    (names : Mentions cmdline root) (both : Mentions cmdline root.other) :
    getUnusedRootfsPartition cmdline = none := by
  have all : ∀ part, grep (deviceName part) cmdline = true := by
    intro part
    rcases RootPart.eq_or_eq_other root part with rfl | rfl
    · exact grep_eq_true.mpr names
    · exact grep_eq_true.mpr both
  simp only [getUnusedRootfsPartition, List.find?, all, Bool.not_true]

/-! ### The pattern of the sed command -/

theorem deviceMatch_ne_zero_iff (text : Text) :
    deviceMatch text ≠ 0 ↔ ∃ c rest, inBracket c = true ∧ text = deviceStem ++ c :: rest := by
  constructor
  · intro isMatch
    rw [deviceMatch] at isMatch
    split at isMatch
    · rename_i holds
      rw [Bool.and_eq_true, List.isPrefixOf_iff_prefix] at holds
      obtain ⟨⟨tail, rfl⟩, bracket⟩ := holds
      have behind : (deviceStem ++ tail).drop 8 = tail := List.drop_left' rfl
      rw [behind] at bracket
      cases tail with
      | nil => cases bracket
      | cons c rest => exact ⟨c, rest, bracket, rfl⟩
    · exact absurd rfl isMatch
  · rintro ⟨c, rest, bracket, rfl⟩
    have behind : (deviceStem ++ c :: rest).drop 8 = c :: rest := List.drop_left' rfl
    have isPrefix : deviceStem.isPrefixOf (deviceStem ++ c :: rest) = true :=
      List.isPrefixOf_iff_prefix.mpr (List.prefix_append _ _)
    rw [deviceMatch, behind, isPrefix]
    simp [bracket]

theorem deviceMatch_eq (text : Text) : deviceMatch text = 0 ∨ deviceMatch text = 9 := by
  rw [deviceMatch]
  split
  · exact Or.inr rfl
  · exact Or.inl rfl

theorem deviceMatch_stem {c : Char} (bracket : inBracket c = true) (rest : Text) :
    deviceMatch (deviceStem ++ c :: rest) = 9 :=
  (deviceMatch_eq _).resolve_left
    ((deviceMatch_ne_zero_iff _).mpr ⟨c, rest, bracket, rfl⟩)

/-- A match starts with the letter `m`. -/
theorem deviceMatch_cons_of_ne {c : Char} (notStem : c ≠ 'm') (rest : Text) :
    deviceMatch (c :: rest) = 0 := by
  by_contra isMatch
  obtain ⟨d, tail, _, same⟩ := (deviceMatch_ne_zero_iff _).mp isMatch
  exact notStem (List.cons.inj same).1

theorem deviceMatch_le_length (text : Text) : deviceMatch text ≤ text.length := by
  by_cases isMatch : deviceMatch text = 0
  · rw [isMatch]
    exact Nat.zero_le _
  · obtain ⟨c, rest, bracket, rfl⟩ := (deviceMatch_ne_zero_iff _).mp isMatch
    rw [deviceMatch_stem bracket, List.length_append]
    show 9 ≤ 8 + (rest.length + 1)
    omega

/-- A match contains no blank. -/
theorem deviceMatch_append_cons {c : Char} (blank : isBlank c = true) (before after : Text) :
    deviceMatch (before ++ c :: after) = deviceMatch before := by
  have outside : c ∉ deviceStem := by
    intro member
    have free : deviceStem.all (fun c => !isBlank c) = true := by decide
    have notBlank := List.all_eq_true.mp free c member
    rw [blank] at notBlank
    cases notBlank
  have notBracket : inBracket c = false := by
    simp only [isBlank, Bool.or_eq_true, beq_iff_eq] at blank
    rcases blank with (rfl | rfl) | rfl <;> decide
  have same : deviceMatch (before ++ c :: after) ≠ 0 ↔ deviceMatch before ≠ 0 := by
    rw [deviceMatch_ne_zero_iff, deviceMatch_ne_zero_iff]
    constructor
    · rintro ⟨d, rest, bracket, split⟩
      have lacks : c ∉ deviceStem ++ [d] := by
        intro member
        rcases List.mem_append.mp member with stem | last
        · exact outside stem
        · rw [List.mem_singleton.mp last, bracket] at notBracket
          cases notBracket
      have isPrefix : deviceStem ++ [d] <+: before ++ c :: after :=
        ⟨rest, by rw [split, List.append_assoc]; rfl⟩
      obtain ⟨tail, rfl⟩ := (prefix_append_cons_iff lacks before after).mp isPrefix
      exact ⟨d, tail, bracket, by rw [List.append_assoc]; rfl⟩
    · rintro ⟨d, rest, bracket, rfl⟩
      exact ⟨d, rest ++ c :: after, bracket, by rw [List.append_assoc]; rfl⟩
  rcases deviceMatch_eq (before ++ c :: after) with left | left <;>
    rcases deviceMatch_eq before with right | right <;> simp_all

/-! ### What the sed command does to the root argument -/

section Rewrite

variable (usePart : Option RootPart)

theorem usePartText_clean : ∀ c ∈ deviceStem ++ usePartText usePart, isBlank c = false := by
  have free : (deviceStem ++ usePartText usePart).all (fun c => !isBlank c) = true := by
    cases usePart with
    | none => decide
    | some part => cases part <;> decide
  intro c member
  have notBlank := List.all_eq_true.mp free c member
  simpa using notBlank

theorem words_rewriteCmdline (cmdline : Text) :
    words (rewriteCmdline usePart cmdline) = (words cmdline).map (rewriteCmdline usePart) := by
  have pieces : (rewriteCmdline usePart cmdline).splitOnP isBlank =
      (cmdline.splitOnP isBlank).map (rewriteCmdline usePart) :=
    splitOnP_substitute deviceMatch _ isBlank rfl deviceMatch_le_length
      (fun _ blank before after => deviceMatch_append_cons blank before after)
      (usePartText_clean usePart) cmdline
  have empty : ∀ word : Text, (rewriteCmdline usePart word).isEmpty = word.isEmpty := by
    intro word
    cases word with
    | nil => rfl
    | cons c rest =>
      by_cases isMatch : deviceMatch (c :: rest) = 0
      · rw [rewriteCmdline, substitute_cons_of_noMatch _ _ isMatch]
        rfl
      · rw [rewriteCmdline, substitute_of_match _ _ isMatch (List.cons_ne_nil _ _)]
        rfl
  rw [words, pieces, List.filter_map, words]
  refine congrArg _ (List.filter_congr fun word _ => ?_)
  rw [Function.comp_apply, empty]

theorem rootPrefix_rewrite (word : Text) :
    rootPrefix.isPrefixOf (rewriteCmdline usePart word) = rootPrefix.isPrefixOf word := by
  rw [Bool.eq_iff_iff, List.isPrefixOf_iff_prefix, List.isPrefixOf_iff_prefix]
  refine prefix_substitute_iff deviceMatch _ rootPrefix (fun c member rest => ?_)
    (fun c member rest => ?_) word
  · have notStem : c ≠ 'm' := by
      rintro rfl
      exact absurd member (by decide)
    exact deviceMatch_cons_of_ne notStem rest
  · intro isPrefix
    have isStem : c = 'm' := (List.cons_prefix_cons.mp isPrefix).1
    rw [isStem] at member
    exact absurd member (by decide)

theorem rewrite_rootPrefix (value : Text) :
    rewriteCmdline usePart (rootPrefix ++ value) =
      rootPrefix ++ rewriteCmdline usePart value := by
  show substitute _ _ ('r' :: 'o' :: 'o' :: 't' :: '=' :: value) = _
  rw [substitute_cons_of_noMatch _ _ (deviceMatch_cons_of_ne (by decide) _),
    substitute_cons_of_noMatch _ _ (deviceMatch_cons_of_ne (by decide) _),
    substitute_cons_of_noMatch _ _ (deviceMatch_cons_of_ne (by decide) _),
    substitute_cons_of_noMatch _ _ (deviceMatch_cons_of_ne (by decide) _),
    substitute_cons_of_noMatch _ _ (deviceMatch_cons_of_ne (by decide) _)]
  rfl

/-- The sed command rewrites the value of every `root=` argument and adds or drops none. -/
theorem rootValues_rewriteCmdline (cmdline : Text) :
    rootValues (rewriteCmdline usePart cmdline) =
      (rootValues cmdline).map (rewriteCmdline usePart) := by
  rw [rootValues, words_rewriteCmdline, List.filterMap_map, rootValues, List.map_filterMap]
  refine List.filterMap_congr fun word _ => ?_
  rw [Function.comp_apply, rootPrefix_rewrite]
  split
  · rename_i isPrefix
    obtain ⟨value, rfl⟩ := List.isPrefixOf_iff_prefix.mp isPrefix
    rw [rewrite_rootPrefix]
    rfl
  · rfl

theorem rewrite_devicePath (root : RootPart) :
    rewriteCmdline usePart (devicePath root) =
      "/dev/".toList ++ (deviceStem ++ usePartText usePart) := by
  cases usePart with
  | none => cases root <;> decide
  | some part => cases part <;> cases root <;> decide

/-- After the rewriting with a partition found, the command line names that partition. -/
theorem namesRoot_rewrite {cmdline : Text} {root : RootPart} (names : NamesRoot cmdline root)
    (part : RootPart) : NamesRoot (rewriteCmdline (some part) cmdline) part := by
  rw [NamesRoot, rootValues_rewriteCmdline, names, List.map_singleton, rewrite_devicePath]
  rfl

/-- After the rewriting with nothing found, the command line names no partition. -/
theorem rootOf_rewrite_none {cmdline : Text} {root : RootPart}
    (names : NamesRoot cmdline root) : rootOf (rewriteCmdline none cmdline) = none := by
  rw [rootOf, rootValues_rewriteCmdline, names, List.map_singleton, rewrite_devicePath]
  decide

/-- The rewriting splits a match off the head of a text. -/
theorem rewrite_stem {c : Char} (bracket : inBracket c = true) (rest : Text) :
    rewriteCmdline usePart (deviceStem ++ c :: rest) =
      deviceStem ++ usePartText usePart ++ rewriteCmdline usePart rest := by
  have isMatch : deviceMatch (deviceStem ++ c :: rest) = 9 := deviceMatch_stem bracket rest
  have nonempty : deviceStem ++ c :: rest ≠ [] :=
    List.append_ne_nil_of_right_ne_nil _ (List.cons_ne_nil _ _)
  rw [rewriteCmdline, substitute_of_match _ _ (by rw [isMatch]; decide) nonempty, isMatch]
  rfl

/-- A pattern without the new digit that starts the rewritten text starts the old one. -/
theorem prefix_of_prefix_rewrite (part : RootPart) (pattern text : Text)
    (lacks : part.digit ∉ pattern)
    (isPrefix : pattern <+: rewriteCmdline (some part) text) : pattern <+: text := by
  induction text generalizing pattern with
  | nil => exact isPrefix
  | cons c rest inductionHypothesis =>
    by_cases isMatch : deviceMatch (c :: rest) = 0
    · rw [rewriteCmdline, substitute_cons_of_noMatch _ _ isMatch] at isPrefix
      cases pattern with
      | nil => exact List.nil_prefix
      | cons head tail =>
        obtain ⟨same, tailPrefix⟩ := List.cons_prefix_cons.mp isPrefix
        exact List.cons_prefix_cons.mpr ⟨same, inductionHypothesis tail
          (fun member => lacks (List.mem_cons_of_mem _ member)) tailPrefix⟩
    · obtain ⟨d, tail, bracket, split⟩ := (deviceMatch_ne_zero_iff _).mp isMatch
      rw [split, rewrite_stem _ bracket, List.append_assoc] at isPrefix
      have inStem : pattern <+: deviceStem :=
        (prefix_append_cons_iff lacks deviceStem _).mp isPrefix
      exact split ▸ inStem.trans (List.prefix_append _ _)

/-- No other name survives the rewriting: what is left of a name of another partition would
have been a match. -/
theorem not_mentions_rewrite (cmdline : Text) (part : RootPart) :
    ¬ Mentions (rewriteCmdline (some part) cmdline) part.other := by
  have lacks : part.digit ∉ deviceName part.other := by
    cases part <;> decide
  induction size : cmdline.length using Nat.strong_induction_on generalizing cmdline with
  | _ bound inductionHypothesis =>
    intro mentions
    cases cmdline with
    | nil => exact absurd (List.infix_nil.mp mentions) (by cases part <;> decide)
    | cons c rest =>
      by_cases isMatch : deviceMatch (c :: rest) = 0
      · have copied : rewriteCmdline (some part) (c :: rest) =
            c :: rewriteCmdline (some part) rest := substitute_cons_of_noMatch _ _ isMatch
        rw [Mentions, copied] at mentions
        rcases List.infix_cons_iff.mp mentions with head | tail
        · rw [← copied] at head
          obtain ⟨after, split⟩ := prefix_of_prefix_rewrite part _ _ lacks head
          refine (deviceMatch_ne_zero_iff _).mpr ⟨part.other.digit, after, ?_, ?_⟩ isMatch
          · cases part <;> rfl
          · rw [← split, deviceName, List.append_assoc]
            rfl
        · exact inductionHypothesis rest.length (by rw [← size, List.length_cons]; omega) rest
            rfl tail
      · obtain ⟨d, tail, bracket, split⟩ := (deviceMatch_ne_zero_iff _).mp isMatch
        have shorter : tail.length < bound := by
          rw [← size, split, List.length_append, List.length_cons]
          omega
        have inTail := inductionHypothesis tail.length shorter tail rfl
        rw [split, Mentions, rewrite_stem _ bracket] at mentions
        generalize rewriteCmdline (some part) tail = out at mentions inTail
        -- a name that starts inside the replaced text would have to be the new name itself
        cases part <;>
          simp [Mentions, deviceStem_eq, deviceName, usePartText, RootPart.digit, RootPart.other,
            List.infix_cons_iff, List.cons_prefix_cons] at mentions inTail <;>
          exact inTail mentions

end Rewrite

end Buildroot4G.Upgrade
