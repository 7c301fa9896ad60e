/-
This file models the fix-up of the libtool files in the rule of `.stamp_staging_installed` of
`package/pkg-generic.mk`: one `sed` command masks `BASE_DIR`, `STAGING_DIR` and
`TOOLCHAIN_EXTERNAL_INSTALL_DIR`, puts a prefix before the paths that begin with `/usr`, and puts
the directories back. It is run for all the `.la` files of staging after every package.

The text is changed as it should be exactly when no name of a placeholder stands directly between
two masked directories that are still masked when its turn comes. The changed text can have such a
name in a place of its own, so that a second run changes it again, when `BASE_DIR` is a directory
below `usr` of `STAGING_DIR`.
-/

import Buildroot4G.Shell.Unmask

namespace Buildroot4G.Packages

open Shell

/-! ### The model -/

/-- The directories that are masked. -/
inductive LibtoolDir where
  | base
  | staging
  | toolchain
  deriving DecidableEq

def LibtoolDir.name : LibtoolDir → Text
  | base => "BASE_DIR".toList
  | staging => "STAGING_DIR".toList
  | toolchain => "TOOLCHAIN_EXTERNAL_INSTALL_DIR".toList

/-- The characters that a `/usr` is changed behind. -/
def isOpening (c : Char) : Bool := c == '\'' || c == '=' || c == ' '

/-- What the directories must not have: these characters are special in the script. -/
def special : Text :=
  ['\'', '=', ' ', ':', '@', '\n', '.', '*', '[', ']', '^', '$', '\\', '&']

def IsLibtoolPath (dir : Text) : Prop :=
  dir.head? = some '/' ∧ (dir.all fun c => !special.contains c) = true

/-- No occurrence of the second directory can begin inside one of the first. -/
def NoneInside (first second : Text) : Prop :=
  ∀ i, 0 < i → i < first.length → ¬first.drop i <+: second ∧ ¬second <+: first.drop i

/-- The variables that the command uses. -/
structure LibtoolDirs where
  baseDir : Text
  stagingDir : Text
  toolchainExternalInstallDir : Option Text
  isPath : ∀ dir ∈ baseDir :: stagingDir :: toolchainExternalInstallDir.toList, IsLibtoolPath dir
  apart : (baseDir :: stagingDir :: toolchainExternalInstallDir.toList).Pairwise fun first second =>
    NoneInside first second ∧ NoneInside second first

def usr : Text := "/usr".toList

/-- The length of the match of `\(['= ]\)/usr`. -/
def usrMatch : Text → Nat
  | [] => 0
  | c :: rest => if isOpening c = true ∧ usr <+: rest then 5 else 0

def atName (dir : LibtoolDir) : Text := '@' :: (dir.name ++ ['@'])

/-- `s:\(['= ]\)/usr:\1@STAGING_DIR@/usr:g`. -/
def prefixUsr (line : Text) : Text :=
  substituteWith usrMatch (fun found => found.take 1 ++ (atName .staging ++ usr)) line

namespace LibtoolDirs

variable (dirs : LibtoolDirs)

/-- The expressions of the command, for one line. -/
def fixLine (line : Text) : Text :=
  let line := replaceAll dirs.baseDir (atName .base) line
  let line := replaceAll dirs.stagingDir (atName .staging) line
  let line := match dirs.toolchainExternalInstallDir with
    | none => line
    | some dir => replaceAll dir (atName .toolchain) line
  let line := prefixUsr line
  let line := match dirs.toolchainExternalInstallDir with
    | none => line
    | some dir => replaceAll (atName .toolchain) dir line
  let line := replaceAll (atName .staging) dirs.stagingDir line
  replaceAll (atName .base) dirs.baseDir line

/-- What the command makes of a libtool file. -/
def fixLibtool (content : Text) : Text := sed dirs.fixLine content

/-- What it should make of it: `STAGING_DIR` before each `/usr` that follows a quote, an equals
sign or a space and begins none of the directories. -/
def prefixed : Text → Text
  | [] => []
  | c :: rest =>
    if isOpening c = true ∧ usr <+: rest ∧
        ∀ dir ∈ dirs.baseDir :: dirs.stagingDir :: dirs.toolchainExternalInstallDir.toList,
          ¬dir <+: rest then
      c :: (dirs.stagingDir ++ prefixed rest)
    else c :: prefixed rest

/-! ### The placeholders -/

theorem name_injective : Function.Injective LibtoolDir.name := by
  intro first second same
  cases first <;> cases second <;> first | rfl | exact absurd same (by decide)

def dirOf : LibtoolDir → Text
  | .base => dirs.baseDir
  | .staging => dirs.stagingDir
  | .toolchain => dirs.toolchainExternalInstallDir.getD ['/']

/-- The directories in the order in which they are masked. -/
def order : List LibtoolDir :=
  .base :: .staging :: dirs.toolchainExternalInstallDir.toList.map fun _ => .toolchain

theorem isLibtoolPath_dirOf (dir : LibtoolDir) : IsLibtoolPath (dirs.dirOf dir) := by
  cases dir with
  | base => exact dirs.isPath _ List.mem_cons_self
  | staging => exact dirs.isPath _ (List.mem_cons_of_mem _ List.mem_cons_self)
  | toolchain =>
    cases absent : dirs.toolchainExternalInstallDir with
    | none =>
      rw [dirOf, absent]
      exact ⟨rfl, by decide +kernel⟩
    | some path =>
      rw [dirOf, absent]
      refine dirs.isPath _ (List.mem_cons_of_mem _ (List.mem_cons_of_mem _ ?_))
      rw [absent]
      exact List.mem_singleton_self path

theorem special_not_mem {dir : Text} (isPath : IsLibtoolPath dir) {c : Char}
    (isSpecial : special.contains c = true) : c ∉ dir := by
  intro inside
  have plain := List.all_eq_true.mp isPath.2 c inside
  rw [isSpecial] at plain
  cases plain

def places : Placeholders LibtoolDir where
  name := LibtoolDir.name
  dir := dirs.dirOf
  name_injective := name_injective
  name_plain := fun dir => by cases dir <;> decide +kernel
  dir_plain := fun dir => special_not_mem (dirs.isLibtoolPath_dirOf dir) (by decide +kernel)
  dir_absolute := fun dir => (dirs.isLibtoolPath_dirOf dir).1

theorem isOpening_special {c : Char} (opening : isOpening c = true) :
    special.contains c = true := by
  rw [isOpening, Bool.or_eq_true, Bool.or_eq_true, beq_iff_eq, beq_iff_eq, beq_iff_eq] at opening
  rcases opening with (rfl | rfl) | rfl <;> decide +kernel

theorem not_opening_of_mem_dir {dir : LibtoolDir} {c : Char} (inside : c ∈ dirs.dirOf dir) :
    isOpening c = false := by
  cases opening : isOpening c with
  | false => rfl
  | true =>
    exact absurd inside
      (special_not_mem (dirs.isLibtoolPath_dirOf dir) (isOpening_special opening))

theorem not_opening_of_mem_atName {dir : LibtoolDir} {c : Char} (inside : c ∈ atName dir) :
    isOpening c = false := by
  have all : (atName dir).all (fun c => !isOpening c) = true := by cases dir <;> decide +kernel
  have here := List.all_eq_true.mp all c inside
  rwa [Bool.not_eq_true'] at here

theorem noneInside_of_ne {first second : LibtoolDir} (isFirst : first ∈ dirs.order)
    (isSecond : second ∈ dirs.order) (different : first ≠ second) :
    NoneInside (dirs.dirOf first) (dirs.dirOf second) := by
  have apart := dirs.apart
  cases toolchain : dirs.toolchainExternalInstallDir with
  | none =>
    rw [toolchain, List.pairwise_cons] at apart
    have both := apart.1 _ List.mem_cons_self
    rw [order, toolchain] at isFirst isSecond
    cases first <;> cases second <;>
      first
        | exact absurd rfl different
        | exact absurd isFirst (by decide)
        | exact absurd isSecond (by decide)
        | exact both.1
        | exact both.2
  | some path =>
    rw [toolchain, List.pairwise_cons, List.pairwise_cons] at apart
    obtain ⟨ofBase, ofStaging, -⟩ := apart
    have baseStaging := ofBase _ List.mem_cons_self
    have baseToolchain := ofBase path (List.mem_cons_of_mem _ (List.mem_singleton_self path))
    have stagingToolchain := ofStaging path (List.mem_singleton_self path)
    have isPath : dirs.dirOf .toolchain = path := by
      rw [dirOf, toolchain]
      rfl
    rw [← isPath] at baseToolchain stagingToolchain
    cases first <;> cases second <;>
      first
        | exact absurd rfl different
        | exact baseStaging.1
        | exact baseStaging.2
        | exact baseToolchain.1
        | exact baseToolchain.2
        | exact stagingToolchain.1
        | exact stagingToolchain.2

theorem apart_order : dirs.places.Apart dirs.order :=
  fun _ isFirst _ isSecond different => dirs.noneInside_of_ne isFirst isSecond different

/-! ### The prefix -/

theorem prefixUsr_append {before : Text} (closed : ∀ c ∈ before, isOpening c = false)
    (text : Text) : prefixUsr (before ++ text) = before ++ prefixUsr text := by
  refine substituteWith_append _ _ (fun c inside rest => ?_) text
  rw [usrMatch, closed c inside]
  exact if_neg fun both => Bool.false_ne_true both.1

theorem not_opening_of_mem_usr {c : Char} (inside : c ∈ usr) : isOpening c = false := by
  have all : usr.all (fun c => !isOpening c) = true := by decide +kernel
  have here := List.all_eq_true.mp all c inside
  rwa [Bool.not_eq_true'] at here

theorem prefixUsr_cons (c : Char) (rest : Text) :
    prefixUsr (c :: rest) =
      if isOpening c = true ∧ usr <+: rest then c :: (atName .staging ++ prefixUsr rest)
      else c :: prefixUsr rest := by
  split
  · rename_i isMatch
    have length : usrMatch (c :: rest) = 4 + 1 := if_pos isMatch
    obtain ⟨-, tail, rfl⟩ := isMatch
    rw [prefixUsr_append fun c inside => not_opening_of_mem_usr inside, prefixUsr,
      substituteWith_cons_of_match _ _ length]
    show c :: (atName .staging ++ usr) ++ _ = _
    rw [List.cons_append, List.append_assoc]
    rfl
  · rename_i noMatch
    exact substituteWith_cons_of_noMatch _ _ (if_neg noMatch)

theorem prefixed_append {before : Text} (closed : ∀ c ∈ before, isOpening c = false)
    (text : Text) : dirs.prefixed (before ++ text) = before ++ dirs.prefixed text := by
  induction before with
  | nil => rfl
  | cons c rest inductionHypothesis =>
    obtain ⟨here, later⟩ := List.forall_mem_cons.mp closed
    rw [List.cons_append, prefixed, if_neg, inductionHypothesis later]
    · rfl
    · rw [here]
      exact fun both => Bool.false_ne_true both.1

theorem lineWise_prefixUsr : LineWise prefixUsr := by
  intro before after
  induction before with
  | nil =>
    have closed : ∀ c ∈ ['\n'], isOpening c = false := fun c inside => by
      rw [List.mem_singleton.mp inside]
      rfl
    exact prefixUsr_append closed after
  | cons c rest inductionHypothesis =>
    have same : usr <+: rest ++ '\n' :: after ↔ usr <+: rest :=
      prefix_append_cons_iff (by decide +kernel) rest after
    rw [List.cons_append, prefixUsr_cons, prefixUsr_cons, inductionHypothesis]
    by_cases isMatch : isOpening c = true ∧ usr <+: rest
    · rw [if_pos isMatch, if_pos (by rwa [same]), List.cons_append, List.append_assoc]
    · rw [if_neg isMatch, if_neg (by rwa [same]), List.cons_append]

/-! ### The places of the prefix -/

/-- The text up to the first place where the prefix goes, and the text behind each of them. -/
def insertIn : Text → Text × List (LibtoolDir × Text)
  | [] => ([], [])
  | c :: rest =>
    if isOpening c = true ∧ usr <+: rest then
      ([c], (.staging, (insertIn rest).1) :: (insertIn rest).2)
    else (c :: (insertIn rest).1, (insertIn rest).2)

/-- The prefixes in the texts behind the placeholders. -/
def insertBehind (tokens : List (LibtoolDir × Text)) : List (LibtoolDir × Text) :=
  tokens.flatMap fun token => (token.1, (insertIn token.2).1) :: (insertIn token.2).2

/-- The placeholders of a masked text with those of the prefixes. -/
def insertTokens (pieces : List (Piece LibtoolDir)) : List (LibtoolDir × Text) :=
  (insertIn (Placeholders.split pieces).1).2 ++ insertBehind (Placeholders.split pieces).2

def insertFirst (pieces : List (Piece LibtoolDir)) : Text :=
  (insertIn (Placeholders.split pieces).1).1

theorem insert_char_of_match {c : Char} {rest : List (Piece LibtoolDir)}
    (isMatch : isOpening c = true ∧ usr <+: (Placeholders.split rest).1) :
    insertFirst (.char c :: rest) = [c] ∧
      insertTokens (.char c :: rest) = (.staging, insertFirst rest) :: insertTokens rest := by
  rw [insertFirst, insertTokens, Placeholders.split]
  simp only
  rw [insertIn, if_pos isMatch]
  exact ⟨rfl, rfl⟩

theorem insert_char_of_noMatch {c : Char} {rest : List (Piece LibtoolDir)}
    (noMatch : ¬(isOpening c = true ∧ usr <+: (Placeholders.split rest).1)) :
    insertFirst (.char c :: rest) = c :: insertFirst rest ∧
      insertTokens (.char c :: rest) = insertTokens rest := by
  rw [insertFirst, insertTokens, Placeholders.split]
  simp only
  rw [insertIn, if_neg noMatch]
  exact ⟨rfl, rfl⟩

theorem insert_token (dir : LibtoolDir) (rest : List (Piece LibtoolDir)) :
    insertFirst (.token dir :: rest) = [] ∧
      insertTokens (.token dir :: rest) = (dir, insertFirst rest) :: insertTokens rest := ⟨rfl, rfl⟩

theorem prefixUsr_render (pieces : List (Piece LibtoolDir)) :
    prefixUsr (dirs.places.render pieces) =
      Placeholders.atText (insertFirst pieces) (dirs.places.segments (insertTokens pieces)) := by
  induction pieces with
  | nil => rfl
  | cons piece rest inductionHypothesis =>
    cases piece with
    | char c =>
      have whole : dirs.places.render (.char c :: rest) = c :: dirs.places.render rest := rfl
      have begins : usr <+: dirs.places.render rest ↔ usr <+: (Placeholders.split rest).1 := by
        rw [Placeholders.render_eq_atText]
        exact Placeholders.prefix_atText_iff (by decide +kernel) _ _
      rw [whole, prefixUsr_cons]
      by_cases isMatch : isOpening c = true ∧ usr <+: (Placeholders.split rest).1
      · obtain ⟨first, tokens⟩ := insert_char_of_match isMatch
        rw [if_pos (by rwa [begins]), first, tokens, Placeholders.segments_cons,
          Placeholders.atText_cons, Placeholders.atText_cons, inductionHypothesis, atName,
          List.cons_append, List.append_assoc]
        rfl
      · obtain ⟨first, tokens⟩ := insert_char_of_noMatch isMatch
        rw [if_neg (by rwa [begins]), first, tokens, inductionHypothesis]
        rfl
    | token dir =>
      obtain ⟨first, tokens⟩ := insert_token dir rest
      have whole : dirs.places.render (.token dir :: rest) =
          atName dir ++ dirs.places.render rest := rfl
      rw [whole, prefixUsr_append fun c inside => not_opening_of_mem_atName inside,
        inductionHypothesis, first, tokens, Placeholders.segments_cons, Placeholders.atText_cons,
        Placeholders.atText_cons, atName, List.cons_append, List.append_assoc]
      rfl

/-! ### The names between placeholders -/

/-- No name of a placeholder. -/
def Wild (text : Text) : Prop := '/' ∈ text ∨ ∃ c ∈ text, isOpening c = true

theorem ne_name_of_wild {text : Text} (wild : Wild text) (dir : LibtoolDir) : text ≠ dir.name := by
  rintro rfl
  rcases wild with slash | ⟨c, inside, opening⟩
  · cases dir <;> exact absurd slash (by decide +kernel)
  · have isMark : c ∈ atName dir :=
      List.mem_cons_of_mem _ (List.mem_append_left _ inside)
    rw [not_opening_of_mem_atName isMark] at opening
    cases opening

theorem slash_mem_insertIn {text : Text} (begins : usr <+: text) : '/' ∈ (insertIn text).1 := by
  obtain ⟨tail, rfl⟩ := begins
  have whole : usr ++ tail = '/' :: (['u', 's', 'r'] ++ tail) := rfl
  rw [whole, insertIn, if_neg fun both => Bool.false_ne_true both.1]
  exact List.mem_cons_self

/-- A text with no place for the prefix stays; otherwise no name is left of it. -/
theorem insertIn_cases (text : Text) :
    (insertIn text).2 = [] ∧ (insertIn text).1 = text ∨
      Wild text ∧ Wild (insertIn text).1 ∧ ∀ token ∈ (insertIn text).2, Wild token.2 := by
  induction text with
  | nil => exact Or.inl ⟨rfl, rfl⟩
  | cons c rest inductionHypothesis =>
    rw [insertIn]
    split
    · rename_i isMatch
      have restSlash : '/' ∈ rest := isMatch.2.subset (by decide +kernel)
      refine Or.inr ⟨Or.inl (List.mem_cons_of_mem _ restSlash), Or.inr ⟨c, ?_, isMatch.1⟩, ?_⟩
      · exact List.mem_singleton_self c
      · refine List.forall_mem_cons.mpr ⟨Or.inl (slash_mem_insertIn isMatch.2), ?_⟩
        rcases inductionHypothesis with ⟨noToken, -⟩ | ⟨-, -, wild⟩
        · rw [noToken]
          exact fun token inside => absurd inside List.not_mem_nil
        · exact wild
    · have cons_wild : ∀ {text : Text}, Wild text → Wild (c :: text) := by
        rintro text (slash | ⟨d, inside, opening⟩)
        · exact Or.inl (List.mem_cons_of_mem _ slash)
        · exact Or.inr ⟨d, List.mem_cons_of_mem _ inside, opening⟩
      rcases inductionHypothesis with ⟨noToken, same⟩ | ⟨restWild, firstWild, wild⟩
      · exact Or.inl ⟨noToken, congrArg (List.cons c) same⟩
      · exact Or.inr ⟨cons_wild restWild, cons_wild firstWild, wild⟩

theorem unambiguous_wild_append (order : List LibtoolDir) {wild : List (LibtoolDir × Text)}
    (areWild : ∀ token ∈ wild, Wild token.2) (tokens : List (LibtoolDir × Text)) :
    dirs.places.Unambiguous order (wild ++ tokens) ↔ dirs.places.Unambiguous order tokens := by
  induction wild with
  | nil => rfl
  | cons head rest inductionHypothesis =>
    obtain ⟨headWild, restWild⟩ := List.forall_mem_cons.mp areWild
    rw [List.cons_append, Placeholders.Unambiguous, List.isChain_cons, and_iff_right]
    · exact inductionHypothesis restWild
    · exact fun after _ dir _ isName => absurd isName (ne_name_of_wild headWild dir)

/-- The prefixes change nothing about the names between placeholders. -/
theorem unambiguous_insertBehind (order : List LibtoolDir) (tokens : List (LibtoolDir × Text)) :
    dirs.places.Unambiguous order (insertBehind tokens) ↔
      dirs.places.Unambiguous order tokens := by
  induction tokens with
  | nil => rfl
  | cons head rest inductionHypothesis =>
    obtain ⟨dir, text⟩ := head
    have whole : insertBehind ((dir, text) :: rest) =
        (dir, (insertIn text).1) :: ((insertIn text).2 ++ insertBehind rest) := rfl
    rw [whole]
    rcases insertIn_cases text with ⟨noToken, same⟩ | ⟨textWild, firstWild, wild⟩
    · rw [noToken, same, List.nil_append]
      cases rest with
      | nil => rfl
      | cons next more =>
        have nextWhole : insertBehind (next :: more) = (next.1, (insertIn next.2).1) ::
            ((insertIn next.2).2 ++ insertBehind more) := rfl
        rw [nextWhole] at inductionHypothesis ⊢
        rw [Placeholders.Unambiguous, List.isChain_cons_cons, Placeholders.Unambiguous,
          List.isChain_cons_cons]
        exact and_congr_right fun _ => inductionHypothesis
    · rw [← List.cons_append, dirs.unambiguous_wild_append order
        (List.forall_mem_cons.mpr ⟨firstWild, wild⟩), inductionHypothesis]
      have isCons : (dir, text) :: rest = [(dir, text)] ++ rest := rfl
      rw [isCons, dirs.unambiguous_wild_append order]
      exact List.forall_mem_singleton.mpr textWild

theorem unambiguous_insertTokens (order : List LibtoolDir) (pieces : List (Piece LibtoolDir)) :
    dirs.places.Unambiguous order (insertTokens pieces) ↔
      dirs.places.Unambiguous order (Placeholders.split pieces).2 := by
  rw [insertTokens, dirs.unambiguous_wild_append, unambiguous_insertBehind]
  rcases insertIn_cases (Placeholders.split pieces).1 with ⟨noToken, -⟩ | ⟨-, -, wild⟩
  · rw [noToken]
    exact fun token inside => absurd inside List.not_mem_nil
  · exact wild

/-! ### The text with the prefixes -/

theorem found_eq_none_iff (text : Text) :
    dirs.places.found dirs.order text = none ↔
      ∀ dir ∈ dirs.baseDir :: dirs.stagingDir :: dirs.toolchainExternalInstallDir.toList,
        ¬dir <+: text := by
  have paths : dirs.order.map dirs.dirOf =
      dirs.baseDir :: dirs.stagingDir :: dirs.toolchainExternalInstallDir.toList := by
    rw [order, List.map_cons, List.map_cons, List.map_map]
    cases toolchain : dirs.toolchainExternalInstallDir with
    | none => rfl
    | some path =>
      have isPath : dirs.dirOf .toolchain = path := by
        rw [dirOf, toolchain]
        rfl
      exact congrArg (fun last => dirs.baseDir :: dirs.stagingDir :: [last]) isPath
  rw [← paths, List.forall_mem_map, Placeholders.found, List.find?_eq_none]
  exact forall₂_congr fun dir _ => not_congr decide_eq_true_iff

theorem split_map_char_append (text : Text) (pieces : List (Piece LibtoolDir)) :
    (Placeholders.split (text.map .char ++ pieces)).1 =
      text ++ (Placeholders.split pieces).1 := by
  induction text with
  | nil => rfl
  | cons c rest inductionHypothesis => exact congrArg (List.cons c) inductionHypothesis

/-- A `/usr` of the masked text is one of the text that begins no directory. -/
theorem usr_prefix_split_iff (text : Text) :
    usr <+: (Placeholders.split (dirs.places.mask dirs.order text)).1 ↔
      usr <+: text ∧ dirs.places.found dirs.order text = none := by
  constructor
  · intro begins
    constructor
    · have masked : usr <+: dirs.places.render (dirs.places.mask dirs.order text) := by
        rw [Placeholders.render_eq_atText]
        exact (Placeholders.prefix_atText_iff (by decide +kernel) _ _).mpr begins
      exact Placeholders.prefix_of_prefix_render (by decide +kernel) masked
    · cases isFound : dirs.places.found dirs.order text with
      | none => rfl
      | some dir =>
        rw [Placeholders.mask_of_found isFound] at begins
        exact absurd (List.prefix_nil.mp begins) (by decide +kernel)
  · rintro ⟨⟨tail, rfl⟩, notFound⟩
    have noStart : ∀ i < usr.length,
        dirs.places.found dirs.order ((usr ++ tail).drop i) = none := by
      intro i inside
      cases i with
      | zero => exact notFound
      | succ i =>
        cases isFound : dirs.places.found dirs.order ((usr ++ tail).drop (i + 1)) with
        | none => rfl
        | some dir =>
          obtain ⟨-, isPrefix⟩ := Placeholders.prefix_of_found isFound
          obtain ⟨dirRest, isDir⟩ := List.head?_eq_some_iff.mp (dirs.places.dir_absolute dir)
          rw [isDir] at isPrefix
          have length : usr.length = 4 := rfl
          have small : i = 0 ∨ i = 1 ∨ i = 2 := by omega
          rcases small with rfl | rfl | rfl <;>
            exact absurd (List.cons_prefix_cons.mp isPrefix).1 (by decide)
    rw [Placeholders.mask_append noStart, split_map_char_append]
    exact List.prefix_append _ _

theorem expand_insert (text : Text) :
    dirs.places.expand (insertFirst (dirs.places.mask dirs.order text))
      (insertTokens (dirs.places.mask dirs.order text)) = dirs.prefixed text := by
  induction size : text.length using Nat.strong_induction_on generalizing text with
  | _ bound inductionHypothesis =>
    cases isFound : dirs.places.found dirs.order text with
    | some dir =>
      obtain ⟨-, tail, rfl⟩ := Placeholders.prefix_of_found isFound
      have shorter : tail.length < bound := by
        have nonempty := List.length_pos_iff.mpr (dirs.places.dir_ne_nil dir)
        rw [List.length_append] at size
        omega
      have later := inductionHypothesis tail.length shorter tail rfl
      obtain ⟨first, tokens⟩ := insert_token dir (dirs.places.mask dirs.order tail)
      have copied : dirs.prefixed (dirs.places.dir dir ++ tail) =
          dirs.places.dir dir ++ dirs.prefixed tail :=
        prefixed_append dirs (fun c inside => dirs.not_opening_of_mem_dir inside) tail
      rw [Placeholders.mask_of_found isFound, List.drop_left, first, tokens,
        Placeholders.expand_cons, later, copied]
      rfl
    | none =>
      cases text with
      | nil => rfl
      | cons c rest =>
        have later := inductionHypothesis rest.length (by rw [← size]; exact Nat.lt_succ_self _)
          rest rfl
        have begins := dirs.usr_prefix_split_iff rest
        rw [found_eq_none_iff] at begins
        rw [Placeholders.mask_cons isFound, prefixed]
        by_cases isMatch : isOpening c = true ∧
            usr <+: (Placeholders.split (dirs.places.mask dirs.order rest)).1
        · obtain ⟨first, tokens⟩ := insert_char_of_match isMatch
          rw [begins] at isMatch
          rw [if_pos isMatch, first, tokens, Placeholders.expand_cons, later]
          rfl
        · obtain ⟨first, tokens⟩ := insert_char_of_noMatch isMatch
          rw [begins] at isMatch
          rw [if_neg isMatch, first, tokens, ← later]
          rfl

/-! ### One run -/

theorem fixLine_eq (line : Text) :
    dirs.fixLine line = dirs.places.putBack dirs.order.reverse
      (prefixUsr (dirs.places.render (dirs.places.mask dirs.order line))) := by
  have masked : ∀ before last, before ++ [last] ⊆ dirs.order →
      replaceAll (dirs.dirOf last) (atName last)
          (dirs.places.render (dirs.places.mask before line)) =
        dirs.places.render (dirs.places.mask (before ++ [last]) line) := fun before last subset =>
    Placeholders.replaceAll_render_mask (dirs.apart_order.of_subset subset) line
  have base : replaceAll dirs.baseDir (atName .base) line =
      dirs.places.render (dirs.places.mask [.base] line) := by
    have step := masked [] .base (List.cons_subset.mpr ⟨List.mem_cons_self, List.nil_subset _⟩)
    rwa [Placeholders.mask_nil, Placeholders.render_map_char] at step
  have staging := masked [.base] .staging
    (List.cons_subset_cons _ (List.cons_subset.mpr ⟨List.mem_cons_self, List.nil_subset _⟩))
  cases toolchain : dirs.toolchainExternalInstallDir with
  | none =>
    have isOrder : dirs.order = [.base, .staging] := by rw [order, toolchain]; rfl
    simp only [fixLine, toolchain, base, isOrder]
    exact congrArg (fun text => dirs.places.putBack [.staging, .base] (prefixUsr text)) staging
  | some path =>
    have isOrder : dirs.order = [.base, .staging, .toolchain] := by rw [order, toolchain]; rfl
    have isPath : path = dirs.dirOf .toolchain := by rw [dirOf, toolchain]; rfl
    have last := masked [.base, .staging] .toolchain (by rw [isOrder]; exact List.Subset.refl _)
    simp only [fixLine, toolchain, base, isOrder, isPath]
    exact congrArg (fun text => dirs.places.putBack [.toolchain, .staging, .base] (prefixUsr text))
      ((congrArg (replaceAll (dirs.dirOf .toolchain) (atName .toolchain)) staging).trans last)

theorem lineWise_fixLine : LineWise dirs.fixLine := by
  have noNewline : ∀ dir, '\n' ∉ dirs.dirOf dir := fun dir =>
    special_not_mem (dirs.isLibtoolPath_dirOf dir) (by decide +kernel)
  have noNewlineName : ∀ dir, '\n' ∉ atName dir := fun dir => by cases dir <;> decide +kernel
  have masks : ∀ dir, LineWise (replaceAll (dirs.dirOf dir) (atName dir)) := fun dir =>
    lineWise_replaceAll (noNewline dir) _
  have putsBack : ∀ dir, LineWise (replaceAll (atName dir) (dirs.dirOf dir)) := fun dir =>
    lineWise_replaceAll (noNewlineName dir) _
  cases toolchain : dirs.toolchainExternalInstallDir with
  | none =>
    have steps := ((((masks .base).comp (masks .staging)).comp lineWise_prefixUsr).comp
      (putsBack .staging)).comp (putsBack .base)
    intro before after
    simp only [fixLine, toolchain]
    exact steps before after
  | some path =>
    have isPath : path = dirs.dirOf .toolchain := by rw [dirOf, toolchain]; rfl
    have steps := ((((((masks .base).comp (masks .staging)).comp (masks .toolchain)).comp
      lineWise_prefixUsr).comp (putsBack .toolchain)).comp (putsBack .staging)).comp
        (putsBack .base)
    intro before after
    simp only [fixLine, toolchain, isPath]
    exact steps before after

/-- No name of a placeholder stands between two masked directories that are still masked when its
turn to be put back comes. -/
def Unambiguous (content : Text) : Prop :=
  dirs.places.Unambiguous dirs.order.reverse
    (Placeholders.split (dirs.places.mask dirs.order content)).2

theorem mem_order_of_mem_insertTokens {pieces : List (Piece LibtoolDir)}
    (masked : ∀ dir, .token dir ∈ pieces → dir ∈ dirs.order) :
    ∀ token ∈ insertTokens pieces, token.1 ∈ dirs.order := by
  induction pieces with
  | nil => exact fun token inside => absurd inside List.not_mem_nil
  | cons piece rest inductionHypothesis =>
    have later := inductionHypothesis fun dir inside => masked dir (List.mem_cons_of_mem _ inside)
    cases piece with
    | char c =>
      by_cases isMatch : isOpening c = true ∧ usr <+: (Placeholders.split rest).1
      · rw [(insert_char_of_match isMatch).2]
        exact List.forall_mem_cons.mpr ⟨List.mem_cons_of_mem _ List.mem_cons_self, later⟩
      · rwa [(insert_char_of_noMatch isMatch).2]
    | token dir =>
      rw [(insert_token dir rest).2]
      exact List.forall_mem_cons.mpr ⟨masked dir List.mem_cons_self, later⟩

theorem nodup_order : dirs.order.reverse.Nodup := by
  rw [order]
  cases dirs.toolchainExternalInstallDir with
  | none =>
    show ([.staging, .base] : List LibtoolDir).Nodup
    decide
  | some path =>
    show ([.toolchain, .staging, .base] : List LibtoolDir).Nodup
    decide

theorem at_not_mem_prefixed {content : Text} (plain : '@' ∉ content) :
    '@' ∉ dirs.prefixed content := by
  induction content with
  | nil => exact plain
  | cons c rest inductionHypothesis =>
    obtain ⟨here, later⟩ := not_or.mp (List.mem_cons.not.mp plain)
    have restPlain := inductionHypothesis later
    rw [prefixed]
    split
    · rw [List.mem_cons, List.mem_append, not_or, not_or]
      exact ⟨here, dirs.places.dir_plain .staging, restPlain⟩
    · rw [List.mem_cons, not_or]
      exact ⟨here, restPlain⟩

theorem fixLibtool_eq_prefixed_iff {content : Text} (plain : '@' ∉ content) :
    dirs.fixLibtool content = dirs.prefixed content ↔ dirs.Unambiguous content := by
  have expanded := dirs.expand_insert content
  obtain ⟨firstPlain, tokensPlain⟩ := Placeholders.plain_of_expand
    (expanded ▸ dirs.at_not_mem_prefixed plain)
  have covers : ∀ token ∈ insertTokens (dirs.places.mask dirs.order content),
      token.1 ∈ dirs.order.reverse := fun token inside =>
    List.mem_reverse.mpr (dirs.mem_order_of_mem_insertTokens
      (fun dir masked => Placeholders.mem_order_of_mem_maskFrom masked) token inside)
  rw [fixLibtool, dirs.lineWise_fixLine.sed_eq, fixLine_eq, prefixUsr_render, ← expanded,
    Placeholders.putBack_eq_expand_iff dirs.nodup_order firstPlain tokensPlain covers,
    unambiguous_insertTokens]
  rfl

/-! ### A second run -/

/-- The prefixes do not change what a text begins with. -/
theorem prefix_prefixed_iff {pattern : Text} (closed : ∀ c ∈ pattern, isOpening c = false)
    (text : Text) : pattern <+: dirs.prefixed text ↔ pattern <+: text := by
  induction pattern generalizing text with
  | nil => exact iff_of_true List.nil_prefix List.nil_prefix
  | cons d pattern inductionHypothesis =>
    obtain ⟨here, later⟩ := List.forall_mem_cons.mp closed
    cases text with
    | nil => rfl
    | cons c rest =>
      by_cases same : d = c
      · have isClosed : ∀ e ∈ [c], isOpening e = false := fun e inside => by
          rwa [List.mem_singleton.mp inside, ← same]
        have copied : dirs.prefixed (c :: rest) = c :: dirs.prefixed rest :=
          dirs.prefixed_append isClosed rest
        rw [copied, List.cons_prefix_cons, List.cons_prefix_cons,
          inductionHypothesis later]
      · have different : ∀ tail, ¬d :: pattern <+: c :: tail := fun tail isPrefix =>
          same (List.cons_prefix_cons.mp isPrefix).1
        rw [prefixed]
        split <;> exact iff_of_false (different _) (different _)

/-- The text with the prefixes has no other place for one. -/
theorem prefixed_prefixed (content : Text) :
    dirs.prefixed (dirs.prefixed content) = dirs.prefixed content := by
  induction content with
  | nil => rfl
  | cons c rest inductionHypothesis =>
    rw [prefixed]
    split
    · have isDir : ¬∀ dir ∈
          dirs.baseDir :: dirs.stagingDir :: dirs.toolchainExternalInstallDir.toList,
          ¬dir <+: dirs.stagingDir ++ dirs.prefixed rest := fun none =>
        none _ (List.mem_cons_of_mem _ List.mem_cons_self) (List.prefix_append _ _)
      have copied : dirs.prefixed (dirs.stagingDir ++ dirs.prefixed rest) =
          dirs.stagingDir ++ dirs.prefixed (dirs.prefixed rest) :=
        dirs.prefixed_append (fun d inside =>
          dirs.not_opening_of_mem_dir (show d ∈ dirs.dirOf .staging from inside)) _
      rw [prefixed, if_neg fun all => isDir all.2.2, copied, inductionHypothesis]
    · rename_i noMatch
      have sameDirs : (∀ dir ∈
          dirs.baseDir :: dirs.stagingDir :: dirs.toolchainExternalInstallDir.toList,
          ¬dir <+: dirs.prefixed rest) ↔ ∀ dir ∈
          dirs.baseDir :: dirs.stagingDir :: dirs.toolchainExternalInstallDir.toList,
          ¬dir <+: rest := by
        refine forall₂_congr fun dir inside => not_congr (dirs.prefix_prefixed_iff ?_ rest)
        intro d isChar
        cases opening : isOpening d with
        | false => rfl
        | true =>
          exact absurd isChar (special_not_mem (dirs.isPath dir inside) (isOpening_special opening))
      have sameUsr := dirs.prefix_prefixed_iff (fun d inside => not_opening_of_mem_usr inside) rest
      rw [prefixed, if_neg (by rwa [sameUsr, sameDirs]), inductionHypothesis]

/-- The fix-up is exact, and a second run changes nothing, exactly when neither the content nor
the content with the prefixes is ambiguous. -/
theorem fixLibtool_exact_iff {content : Text} (plain : '@' ∉ content) :
    dirs.fixLibtool content = dirs.prefixed content ∧
        dirs.fixLibtool (dirs.fixLibtool content) = dirs.fixLibtool content ↔
      dirs.Unambiguous content ∧ dirs.Unambiguous (dirs.prefixed content) := by
  have again := dirs.fixLibtool_eq_prefixed_iff (dirs.at_not_mem_prefixed plain)
  rw [prefixed_prefixed] at again
  rw [dirs.fixLibtool_eq_prefixed_iff plain, ← again]
  refine and_congr_right fun unambiguous => ?_
  rw [(dirs.fixLibtool_eq_prefixed_iff plain).mpr unambiguous]

end LibtoolDirs

/-- A short output directory, with the staging directory in it. -/
def shortDirs : LibtoolDirs where
  baseDir := "/o".toList
  stagingDir := "/o/s".toList
  toolchainExternalInstallDir := none
  isPath := by
    intro dir inside
    rcases List.mem_cons.mp inside with rfl | inside
    · exact ⟨rfl, by decide +kernel⟩
    · rw [List.mem_singleton.mp inside]
      exact ⟨rfl, by decide +kernel⟩
  apart := by
    have inBase : NoneInside "/o".toList "/o/s".toList := by
      intro i positive inside
      have length : i < 2 := inside
      obtain rfl : i = 1 := by omega
      decide +kernel
    have inStaging : NoneInside "/o/s".toList "/o".toList := by
      intro i positive inside
      have length : i < 4 := inside
      have cases : i = 1 ∨ i = 2 ∨ i = 3 := by omega
      rcases cases with rfl | rfl | rfl <;> decide +kernel
    exact List.pairwise_pair.mpr ⟨inBase, inStaging⟩

/-- A text of the usual kind. -/
def libdirLine : Text := "libdir='/usr/lib'".toList

theorem fixLibtool_exact_iff_libdir :
    shortDirs.fixLibtool libdirLine = shortDirs.prefixed libdirLine ∧
        shortDirs.fixLibtool (shortDirs.fixLibtool libdirLine) = shortDirs.fixLibtool libdirLine ↔
      shortDirs.Unambiguous libdirLine ∧ shortDirs.Unambiguous (shortDirs.prefixed libdirLine) :=
  shortDirs.fixLibtool_exact_iff (by decide +kernel)

/-- A text with the name of the placeholder between two occurrences of the directory. -/
def confusing : Text := "/oSTAGING_DIR/o".toList

theorem fixLibtool_confusing :
    shortDirs.fixLibtool confusing = "@BASE_DIR/o/sBASE_DIR@".toList ∧
      ¬(shortDirs.fixLibtool confusing = shortDirs.prefixed confusing ∧
        shortDirs.fixLibtool (shortDirs.fixLibtool confusing) =
          shortDirs.fixLibtool confusing) := by
  decide +kernel

end Buildroot4G.Packages
