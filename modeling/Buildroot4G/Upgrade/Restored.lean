/-
This file proves what two installs in a row make of a command line with a `root=` argument. The
sed command has no anchor: it replaces `mmcblk0p` and one of the characters of `[2..3]`
everywhere. The root argument moves to the other partition and back, with the text around it as it
was, exactly when the sed expression matches nowhere else.
-/

import Buildroot4G.Upgrade.Steps

namespace Buildroot4G.Upgrade

open Shell

/-- The argument `root=/dev/mmcblk0p2` or `root=/dev/mmcblk0p3`. -/
def rootToken (root : RootPart) : Text := rootPrefix ++ devicePath root

theorem length_rootToken (root : RootPart) : (rootToken root).length = 19 := by
  cases root <;> rfl

/-- A command line with the root argument between two texts. -/
structure HasToken (cmdline before : Text) (root : RootPart) (after : Text) : Prop where
  text : cmdline = before ++ rootToken root ++ after
  front : ∀ c ∈ before.getLast?, isBlank c = true
  back : ∀ c ∈ after.head?, isBlank c = true

/-- The sed expression `mmcblk0p[2..3]` matches somewhere. -/
def Matches (text : Text) : Prop := ∃ c, inBracket c = true ∧ deviceStem ++ [c] <:+: text

instance (text : Text) : Decidable (Matches text) :=
  @decidable_of_iff _ (∃ c ∈ ['2', '.', '3'], deviceStem ++ [c] <:+: text)
    (exists_congr fun c => and_congr_left' (by simp [inBracket, or_assoc]))
    (List.decidableBEx (fun c => deviceStem ++ [c] <:+: text) ['2', '.', '3'])

/-! ### The rewriting of a text -/

section Rewrite

theorem matches_cons_of_noMatch {c : Char} {rest : Text} (noMatch : deviceMatch (c :: rest) = 0) :
    Matches (c :: rest) ↔ Matches rest := by
  refine exists_congr fun d => and_congr_right fun bracket => ?_
  rw [List.infix_cons_iff, or_iff_right]
  rintro ⟨tail, split⟩
  refine (deviceMatch_ne_zero_iff _).mpr ⟨d, tail, bracket, ?_⟩ noMatch
  rw [← split, List.append_assoc]
  rfl

theorem rewrite_of_not_matches (usePart : Option RootPart) {text : Text} (noMatch : ¬Matches text) :
    rewriteCmdline usePart text = text := by
  induction text with
  | nil => rfl
  | cons c rest inductionHypothesis =>
    have here : deviceMatch (c :: rest) = 0 := by
      by_contra isMatch
      obtain ⟨d, tail, bracket, split⟩ := (deviceMatch_ne_zero_iff _).mp isMatch
      refine noMatch ⟨d, bracket, [], tail, ?_⟩
      rw [split, List.nil_append, List.append_assoc]
      rfl
    rw [rewriteCmdline, substitute_cons_of_noMatch _ _ here]
    exact congrArg (c :: ·) (inductionHypothesis ((matches_cons_of_noMatch here).not.mp noMatch))

/-- A match leaves the name of the partition in its place. -/
theorem mentions_rewrite (part : RootPart) {text : Text} (isMatch : Matches text) :
    Mentions (rewriteCmdline (some part) text) part := by
  induction text with
  | nil =>
    obtain ⟨c, _, inside⟩ := isMatch
    exact absurd (List.infix_nil.mp inside) (List.append_ne_nil_of_right_ne_nil _ nofun)
  | cons c rest inductionHypothesis =>
    by_cases here : deviceMatch (c :: rest) = 0
    · rw [rewriteCmdline, substitute_cons_of_noMatch _ _ here]
      exact (inductionHypothesis ((matches_cons_of_noMatch here).mp isMatch)).trans
        (List.suffix_cons c _).isInfix
    · obtain ⟨d, tail, bracket, split⟩ := (deviceMatch_ne_zero_iff _).mp here
      rw [split, rewrite_stem _ bracket]
      exact (List.prefix_append _ _).isInfix

variable (usePart : Option RootPart)

/-- With a partition the text keeps its length, without one every match makes it shorter. -/
theorem length_rewrite (text : Text) :
    (rewriteCmdline usePart text).length ≤ text.length ∧
      (usePart ≠ none → (rewriteCmdline usePart text).length = text.length) := by
  induction size : text.length using Nat.strong_induction_on generalizing text with
  | _ bound inductionHypothesis =>
    subst size
    cases text with
    | nil => exact ⟨Nat.le_refl 0, fun _ => rfl⟩
    | cons c rest =>
      by_cases here : deviceMatch (c :: rest) = 0
      · have later := inductionHypothesis rest.length (Nat.lt_succ_self _) rest rfl
        rw [rewriteCmdline, substitute_cons_of_noMatch _ _ here]
        exact ⟨Nat.succ_le_succ later.1, fun found => congrArg Nat.succ (later.2 found)⟩
      · obtain ⟨d, tail, bracket, split⟩ := (deviceMatch_ne_zero_iff _).mp here
        have shorter : tail.length < (c :: rest).length := by
          rw [split, List.length_append, List.length_cons]
          omega
        have later := inductionHypothesis tail.length shorter tail rfl
        rw [split, rewrite_stem _ bracket]
        simp only [List.length_append, List.length_cons]
        cases usePart with
        | none =>
          refine ⟨?_, fun found => absurd rfl found⟩
          simp only [usePartText, List.length_nil]
          omega
        | some part =>
          simp only [usePartText, List.length_singleton]
          have same := later.2 (Option.some_ne_none part)
          exact ⟨by omega, fun _ => by omega⟩

theorem rewrite_append_blank {c : Char} (blank : isBlank c = true) (before after : Text) :
    rewriteCmdline usePart (before ++ c :: after) =
      rewriteCmdline usePart before ++ c :: rewriteCmdline usePart after :=
  substituteFrom_append_cons deviceMatch _ c rfl deviceMatch_le_length
    (fun before after => deviceMatch_append_cons blank before after) 0 before after (Nat.zero_le _)

/-- The text before the root argument, the argument and the text behind it are rewritten apart. -/
theorem rewrite_token {cmdline before after : Text} {root : RootPart}
    (token : HasToken cmdline before root after) :
    rewriteCmdline usePart cmdline =
      rewriteCmdline usePart before ++
        (rootPrefix ++ ("/dev/".toList ++ (deviceStem ++ usePartText usePart))) ++
        rewriteCmdline usePart after := by
  have alone : rewriteCmdline usePart (rootToken root) =
      rootPrefix ++ ("/dev/".toList ++ (deviceStem ++ usePartText usePart)) := by
    rw [rootToken, rewrite_rootPrefix, rewrite_devicePath]
  have behind : rewriteCmdline usePart (rootToken root ++ after) =
      rewriteCmdline usePart (rootToken root) ++ rewriteCmdline usePart after := by
    cases after with
    | nil => rw [List.append_nil]; exact (List.append_nil _).symm
    | cons c rest =>
      have blank := token.back c rfl
      have single := rewrite_append_blank usePart blank [] rest
      rw [rewrite_append_blank usePart blank]
      exact congrArg _ single.symm
  rw [token.text, ← alone, List.append_assoc, List.append_assoc, ← behind]
  rcases List.eq_nil_or_concat before with rfl | ⟨front, c, rfl⟩
  · rfl
  · have blank := token.front c (by simp)
    have single := rewrite_append_blank usePart blank front []
    rw [List.concat_eq_append, List.append_assoc, List.singleton_append,
      rewrite_append_blank usePart blank, single, List.append_assoc]
    rfl

end Rewrite

/-! ### Two installs -/

section Token

variable {cmdline before after : Text} {root : RootPart}

theorem HasToken.mentions (token : HasToken cmdline before root after) : Mentions cmdline root := by
  rw [token.text]
  refine List.IsInfix.trans ?_ ((List.infix_append before (rootToken root) after))
  exact ((List.suffix_append _ _).trans (List.suffix_append _ _)).isInfix

/-- The root argument of the other partition in the same place. -/
theorem HasToken.switched (token : HasToken cmdline before root after) :
    HasToken (before ++ rootToken root.other ++ after) before root.other after :=
  ⟨rfl, token.front, token.back⟩

/-- Nothing else matches: the search finds the other partition, and only the root argument
changes. -/
theorem HasToken.rewrite (token : HasToken cmdline before root after)
    (alone : ¬Matches before ∧ ¬Matches after) :
    rewriteCmdline (getUnusedRootfsPartition cmdline) cmdline =
      before ++ rootToken root.other ++ after := by
  have rewritten : ∀ part,
      rewriteCmdline (some part) cmdline = before ++ rootToken part ++ after := by
    intro part
    rw [rewrite_token _ token, rewrite_of_not_matches _ alone.1, rewrite_of_not_matches _ alone.2]
    rfl
  have single : ¬Mentions cmdline root.other := by
    have same := not_mentions_rewrite cmdline root
    rwa [rewritten, ← token.text] at same
  rw [getUnused_of_not_mentions token.mentions single, rewritten]

/-- Something else matches: either nothing is found and the text gets shorter, or the other match
does not name the partition that is found. -/
theorem HasToken.alone (token : HasToken cmdline before root after)
    (switched : rewriteCmdline (getUnusedRootfsPartition cmdline) cmdline =
      before ++ rootToken root.other ++ after) :
    ¬Matches before ∧ ¬Matches after := by
  rw [rewrite_token _ token] at switched
  cases found : getUnusedRootfsPartition cmdline with
  | none =>
    rw [found] at switched
    have lengths := congrArg List.length switched
    have front := (length_rewrite none before).1
    have back := (length_rewrite none after).1
    simp only [rootToken, devicePath, deviceName, usePartText, List.length_append,
      List.length_nil, List.length_singleton] at lengths
    omega
  | some part =>
    rw [found] at switched
    have some_ne := Option.some_ne_none part
    have front : (rewriteCmdline (some part) before).length = before.length :=
      (length_rewrite _ before).2 some_ne
    have widths : (rewriteCmdline (some part) before ++ rootToken part).length =
        (before ++ rootToken root.other).length := by
      rw [List.length_append, List.length_append, front, length_rootToken, length_rootToken]
    obtain ⟨sameFronts, sameBack⟩ := List.append_inj switched widths
    obtain ⟨sameFront, -⟩ := List.append_inj sameFronts front
    have unmentioned : ¬Mentions cmdline part := by
      have chosen := List.find?_some found
      simp only [Bool.not_eq_true'] at chosen
      exact grep_eq_false.mp chosen
    rw [token.text] at unmentioned
    refine ⟨fun isMatch => unmentioned ?_, fun isMatch => unmentioned ?_⟩
    · have mentions := mentions_rewrite part isMatch
      rw [sameFront] at mentions
      exact mentions.trans ((List.prefix_append _ _).trans (List.prefix_append _ _)).isInfix
    · have mentions := mentions_rewrite part isMatch
      rw [sameBack] at mentions
      exact mentions.trans (List.suffix_append _ _).isInfix

end Token

/-- An install that finds the boot partition changes the root argument only, to the other
partition, and the install after it changes it back, exactly when the sed expression matches
neither before nor behind the argument. -/
theorem install_restores_iff {first second : Install} (firstBoot : first.bootOk = true)
    (secondBoot : second.bootOk = true) (live later : Live)
    (next : later.machine = (fsInstall first live).after.machine) {before after : Text}
    {root : RootPart} (token : HasToken live.machine.cmdline before root after) :
    ((fsInstall first live).after.machine.cmdline = before ++ rootToken root.other ++ after ∧
        (fsInstall second later).after.machine.cmdline = live.machine.cmdline) ↔
      ¬Matches before ∧ ¬Matches after := by
  rw [cmdline_after_of_boot first firstBoot, cmdline_after_of_boot second secondBoot, next,
    cmdline_after_of_boot first firstBoot]
  refine ⟨fun both => token.alone both.1, fun alone => ?_⟩
  have switched := token.rewrite alone
  have restored := token.switched.rewrite alone
  rw [RootPart.other_other, ← token.text] at restored
  rw [switched]
  exact ⟨rfl, restored⟩

theorem blank_head {text rest : Text} (begins : text = ' ' :: rest) :
    ∀ c ∈ text.head?, isBlank c = true := by
  intro c isHead
  rw [begins] at isHead
  rw [← Option.some.inj isHead]
  rfl

/-- What stands behind the root argument on a card as it leaves production. -/
def factoryArguments : Text := " rootwait console=tty1 console=ttyAMA0,115200\n".toList

/-- The first boot of that card, and an install that succeeds. -/
def factoryLive : Live := ⟨factoryCard, .two, []⟩

def goodInstall : Install := ⟨true, true, true, true⟩

theorem install_restores_factory :
    (fsInstall goodInstall factoryLive).after.machine.cmdline =
        [] ++ rootToken RootPart.two.other ++ factoryArguments ∧
      (fsInstall goodInstall (fsInstall goodInstall factoryLive).after).after.machine.cmdline =
        factoryLive.machine.cmdline :=
  (@install_restores_iff goodInstall goodInstall rfl rfl factoryLive _ rfl _ _ _
    ⟨by decide, by simp, blank_head rfl⟩).mpr (by decide +kernel)

/-- A card whose command line names the other partition for something else. -/
def swapCard : Machine where
  cmdline := "root=/dev/mmcblk0p2 rootwait resume=/dev/mmcblk0p3\n".toList
  rootfs part := if part = .two then .complete else .erased
  log := []

/-- The search finds no partition, and the root argument loses its digit. -/
theorem install_breaks_root :
    NamesRoot swapCard.cmdline .two ∧
      HasToken swapCard.cmdline [] .two " rootwait resume=/dev/mmcblk0p3\n".toList ∧
      (fsInstall goodInstall ⟨swapCard, .two, []⟩).exitCode = 0 ∧
      (fsInstall goodInstall ⟨swapCard, .two, []⟩).after.machine.cmdline =
        "root=/dev/mmcblk0p rootwait resume=/dev/mmcblk0p\n".toList ∧
      (fsInstall goodInstall ⟨swapCard, .two, []⟩).after.machine.cmdline ≠
        [] ++ rootToken RootPart.two.other ++ " rootwait resume=/dev/mmcblk0p3\n".toList :=
  ⟨by decide, ⟨by decide, by simp, blank_head rfl⟩, rfl, by decide +kernel, by decide +kernel⟩

end Buildroot4G.Upgrade
