/-
This file puts the directories of a masked text back, one after the other. The `@` characters cut
the text into segments, and putting a directory back replaces each segment that is the name of its
placeholder, whether the segment is a placeholder or a part of the text between two of them.

Every placeholder is put back as such exactly when no name stands between two placeholders that are
both there when that name is put back, the first of them being another one. Otherwise an `@` of a
placeholder is taken for that of another one, and the first `@` of the placeholder stays.
-/

import Buildroot4G.Shell.Placeholder

namespace Shell

namespace Placeholders

/-! ### Segments -/

/-- The text with these segments. -/
def atText (first : Text) (rest : List Text) : Text :=
  first ++ rest.flatMap fun segment => '@' :: segment

/-- What a substitution `s:@name@:dir:g` makes of the segments. -/
def replaceSegments (name dir : Text) : Text → List Text → Text × List Text
  | first, [] => (first, [])
  | first, [second] => (first, [second])
  | first, second :: third :: rest =>
    if second = name then
      let later := replaceSegments name dir third rest
      (first ++ (dir ++ later.1), later.2)
    else
      let later := replaceSegments name dir second (third :: rest)
      (first, later.1 :: later.2)

variable {name dir : Text}

theorem replaceSegments_of_eq (first third : Text) (rest : List Text) :
    replaceSegments name dir first (name :: third :: rest) =
      (first ++ (dir ++ (replaceSegments name dir third rest).1),
        (replaceSegments name dir third rest).2) := by
  rw [replaceSegments, if_pos rfl]

theorem replaceSegments_of_ne {second : Text} (different : second ≠ name) (first third : Text)
    (rest : List Text) :
    replaceSegments name dir first (second :: third :: rest) =
      (first, (replaceSegments name dir second (third :: rest)).1 ::
        (replaceSegments name dir second (third :: rest)).2) := by
  rw [replaceSegments, if_neg different]

theorem prefix_fst_replaceSegments (name dir first : Text) (rest : List Text) :
    first <+: (replaceSegments name dir first rest).1 := by
  match rest with
  | [] => exact List.prefix_rfl
  | [second] => exact List.prefix_rfl
  | second :: third :: rest =>
    rw [replaceSegments]
    split
    · exact List.prefix_append _ _
    · exact List.prefix_rfl

theorem atText_cons (first second : Text) (rest : List Text) :
    atText first (second :: rest) = first ++ '@' :: atText second rest := by
  rw [atText, atText, List.flatMap_cons, List.cons_append]

theorem not_prefix_of_not_mem {segment : Text} (plain : '@' ∉ segment) :
    ¬ '@' :: (name ++ ['@']) <+: '@' :: segment := by
  intro isPrefix
  have inside := (List.cons_prefix_cons.mp isPrefix).2.subset
    (List.mem_append_right name (List.mem_singleton_self '@'))
  exact plain inside

theorem prefix_iff_eq {segment : Text} (namePlain : '@' ∉ name) (plain : '@' ∉ segment)
    (rest : Text) :
    '@' :: (name ++ ['@']) <+: '@' :: (segment ++ '@' :: rest) ↔ segment = name := by
  rw [List.cons_prefix_cons, and_iff_right rfl]
  constructor
  · rintro ⟨tail, split⟩
    rw [List.append_assoc, List.singleton_append] at split
    have pieces := congrArg (fun text => text.splitOn '@') split
    rw [List.splitOn_append_cons_self_of_not_mem namePlain,
      List.splitOn_append_cons_self_of_not_mem plain] at pieces
    exact (List.cons.inj pieces).1.symm
  · rintro rfl
    exact ⟨rest, by rw [List.append_assoc, List.singleton_append]⟩

/-- The substitution by its segments. -/
theorem replaceAll_atText (dir : Text) (namePlain : '@' ∉ name) {first : Text} {rest : List Text}
    (firstPlain : '@' ∉ first) (restPlain : ∀ segment ∈ rest, '@' ∉ segment) :
    replaceAll ('@' :: (name ++ ['@'])) dir (atText first rest) =
      atText (replaceSegments name dir first rest).1 (replaceSegments name dir first rest).2 := by
  have copies : ∀ {before : Text}, '@' ∉ before → ∀ text,
      replaceAll ('@' :: (name ++ ['@'])) dir (before ++ text) =
        before ++ replaceAll ('@' :: (name ++ ['@'])) dir text :=
    fun absent => replaceAll_append_of_not_mem _ _ rfl absent
  match rest with
  | [] => exact copies firstPlain []
  | [second] =>
    have secondPlain := restPlain second List.mem_cons_self
    have noMatch : ¬ '@' :: (name ++ ['@']) <+: '@' :: (second ++ []) := by
      rw [List.append_nil]
      exact not_prefix_of_not_mem secondPlain
    have copied : replaceAll ('@' :: (name ++ ['@'])) dir ('@' :: (second ++ [])) =
        '@' :: (second ++ []) :=
      (replaceAll_cons _ _ noMatch).trans (congrArg (List.cons '@') (copies secondPlain []))
    exact (copies firstPlain _).trans (congrArg (first ++ ·) copied)
  | second :: third :: rest =>
    obtain ⟨secondPlain, laterPlain⟩ := List.forall_mem_cons.mp restPlain
    obtain ⟨thirdPlain, morePlain⟩ := List.forall_mem_cons.mp laterPlain
    rw [atText_cons, copies firstPlain, atText_cons]
    by_cases same : second = name
    · have later := replaceAll_atText dir namePlain thirdPlain morePlain
      have whole : '@' :: (name ++ '@' :: atText third rest) =
          '@' :: (name ++ ['@']) ++ atText third rest := by
        rw [List.cons_append, List.append_assoc, List.singleton_append]
      rw [same, replaceSegments_of_eq, whole, replaceAll_append _ _ (List.cons_ne_nil _ _), later,
        atText, atText, List.append_assoc, List.append_assoc]
    · have later := replaceAll_atText dir namePlain secondPlain laterPlain
      have noMatch := (prefix_iff_eq namePlain secondPlain (atText third rest)).not.mpr same
      rw [atText_cons] at later
      rw [replaceSegments_of_ne same, replaceAll_cons _ _ noMatch, later, atText_cons]

/-- The segments stay without an `@`. -/
theorem plain_replaceSegments (name : Text) (dirPlain : '@' ∉ dir) {first : Text} {rest : List Text}
    (firstPlain : '@' ∉ first) (restPlain : ∀ segment ∈ rest, '@' ∉ segment) :
    '@' ∉ (replaceSegments name dir first rest).1 ∧
      ∀ segment ∈ (replaceSegments name dir first rest).2, '@' ∉ segment := by
  match rest with
  | [] => exact ⟨firstPlain, restPlain⟩
  | [second] => exact ⟨firstPlain, restPlain⟩
  | second :: third :: rest =>
    obtain ⟨secondPlain, laterPlain⟩ := List.forall_mem_cons.mp restPlain
    obtain ⟨thirdPlain, morePlain⟩ := List.forall_mem_cons.mp laterPlain
    by_cases same : second = name
    · obtain ⟨herePlain, thenPlain⟩ := plain_replaceSegments name dirPlain thirdPlain morePlain
      rw [same, replaceSegments_of_eq, List.mem_append, List.mem_append, not_or, not_or]
      exact ⟨⟨firstPlain, dirPlain, herePlain⟩, thenPlain⟩
    · obtain ⟨herePlain, thenPlain⟩ := plain_replaceSegments name dirPlain secondPlain laterPlain
      rw [replaceSegments_of_ne same]
      exact ⟨firstPlain, List.forall_mem_cons.mpr ⟨herePlain, thenPlain⟩⟩

/-! ### Placeholders and what is between them -/

section Fill

variable {τ : Type} (places : Placeholders τ)

/-- The text before the first placeholder, and each placeholder with the text behind it. -/
def split : List (Piece τ) → Text × List (τ × Text)
  | [] => ([], [])
  | .char c :: rest => (c :: (split rest).1, (split rest).2)
  | .token token :: rest => ([], (token, (split rest).1) :: (split rest).2)

def segments (tokens : List (τ × Text)) : List Text :=
  tokens.flatMap fun token => [places.name token.1, token.2]

/-- The text with all directories put back. -/
def expand (first : Text) (tokens : List (τ × Text)) : Text :=
  first ++ tokens.flatMap fun token => places.dir token.1 ++ token.2

/-- One directory put back. -/
def fill [DecidableEq τ] (token : τ) : Text → List (τ × Text) → Text × List (τ × Text)
  | first, [] => (first, [])
  | first, (other, text) :: rest =>
    let later := fill token text rest
    if other = token then (first ++ (places.dir token ++ later.1), later.2)
    else (first, (other, later.1) :: later.2)

/-- No text that is the name of the placeholder is between another placeholder and the next. -/
def Clean (token : τ) (tokens : List (τ × Text)) : Prop :=
  tokens.IsChain fun before _ => before.1 ≠ token → before.2 ≠ places.name token

/-- A segment that is no name any more stands where a name was. -/
def Broken (rest : List Text) : Prop :=
  ∃ tokens damaged more, rest = places.segments tokens ++ damaged :: more ∧ '/' ∈ damaged

variable {places}

theorem segments_cons (token : τ) (text : Text) (rest : List (τ × Text)) :
    places.segments ((token, text) :: rest) =
      places.name token :: text :: places.segments rest := rfl

theorem expand_cons (first text : Text) (token : τ) (rest : List (τ × Text)) :
    places.expand first ((token, text) :: rest) =
      first ++ (places.dir token ++ places.expand text rest) := by
  rw [expand, expand, List.flatMap_cons, List.append_assoc]

theorem render_eq_atText (pieces : List (Piece τ)) :
    places.render pieces = atText (split pieces).1 (places.segments (split pieces).2) := by
  induction pieces with
  | nil => rfl
  | cons piece rest inductionHypothesis =>
    cases piece with
    | char c => exact congrArg (List.cons c) inductionHypothesis
    | token token =>
      have whole : places.render (.token token :: rest) =
          places.mark token ++ places.render rest := rfl
      rw [whole, inductionHypothesis, split]
      simp only
      rw [segments_cons, atText_cons, atText_cons, List.nil_append, mark, List.cons_append,
        List.append_assoc, List.singleton_append]

/-- What a text begins with, its first segment begins with. -/
theorem prefix_atText_iff {pattern : Text} (plain : '@' ∉ pattern) (first : Text)
    (rest : List Text) : pattern <+: atText first rest ↔ pattern <+: first := by
  cases rest with
  | nil =>
    have whole : atText first [] = first := List.append_nil first
    rw [whole]
  | cons second rest =>
    rw [atText_cons]
    exact prefix_append_cons_iff plain first _

theorem slash_mem_dir (token : τ) : '/' ∈ places.dir token :=
  List.mem_of_mem_head? (places.dir_absolute token)

section Step

variable [DecidableEq τ] {token : τ} {tokens : List (τ × Text)}

theorem fill_of_eq (first text : Text) (rest : List (τ × Text)) :
    places.fill token first ((token, text) :: rest) =
      (first ++ (places.dir token ++ (places.fill token text rest).1),
        (places.fill token text rest).2) := by
  rw [fill, if_pos rfl]

theorem fill_of_ne {other : τ} (different : other ≠ token) (first text : Text)
    (rest : List (τ × Text)) :
    places.fill token first ((other, text) :: rest) =
      (first, (other, (places.fill token text rest).1) :: (places.fill token text rest).2) := by
  rw [fill, if_neg different]

/-- In a clean text the substitution puts back the directory. -/
theorem replaceSegments_of_clean (clean : places.Clean token tokens) (first : Text) :
    replaceSegments (places.name token) (places.dir token) first (places.segments tokens) =
      ((places.fill token first tokens).1, places.segments (places.fill token first tokens).2) := by
  induction tokens generalizing first with
  | nil => rfl
  | cons head rest inductionHypothesis =>
    obtain ⟨other, text⟩ := head
    have later := inductionHypothesis clean.tail text
    rw [segments_cons]
    by_cases same : other = token
    · rw [same, replaceSegments_of_eq, fill_of_eq, later]
    · rw [replaceSegments_of_ne fun names => same (places.name_injective names), fill_of_ne same,
        segments_cons]
      cases rest with
      | nil => rfl
      | cons next more =>
        have noName : text ≠ places.name token :=
          (List.isChain_cons_cons.mp clean).1 same
        rw [segments_cons next.1 next.2 more] at later ⊢
        rw [replaceSegments_of_ne noName, later]

/-- In a text that is not clean it does damage. -/
theorem broken_of_not_clean (notClean : ¬places.Clean token tokens) (first : Text) :
    places.Broken (replaceSegments (places.name token) (places.dir token) first
      (places.segments tokens)).2 := by
  induction tokens generalizing first with
  | nil => exact absurd List.IsChain.nil notClean
  | cons head rest inductionHypothesis =>
    obtain ⟨other, text⟩ := head
    rw [segments_cons]
    cases rest with
    | nil => exact absurd (List.IsChain.singleton _) notClean
    | cons next more =>
      have cut := List.isChain_cons_cons.not.mp notClean
      by_cases same : other = token
      · have later : ¬places.Clean token (next :: more) := fun clean =>
          cut ⟨fun different => absurd same different, clean⟩
        rw [same, replaceSegments_of_eq]
        exact inductionHypothesis later text
      · rw [replaceSegments_of_ne fun names => same (places.name_injective names)]
        by_cases isName : text = places.name token
        · have slash : '/' ∈ places.name other ++ (places.dir token ++
              (replaceSegments (places.name token) (places.dir token) (places.name next.1)
                (next.2 :: places.segments more)).1) :=
            List.mem_append_right _ (List.mem_append_left _ (slash_mem_dir token))
          rw [segments_cons next.1 next.2 more, isName, replaceSegments_of_eq]
          exact ⟨[], _, _, rfl, slash⟩
        · have later : ¬places.Clean token (next :: more) := fun clean =>
            cut ⟨fun _ => isName, clean⟩
          obtain ⟨tokens, damaged, behind, isBroken, slash⟩ := inductionHypothesis later text
          rw [segments_cons next.1 next.2 more] at isBroken ⊢
          rw [replaceSegments_of_ne isName, isBroken]
          exact ⟨(other, _) :: tokens, damaged, behind, rfl, slash⟩

/-- The damage stays. -/
theorem broken_replaceSegments {rest : List Text} (broken : places.Broken rest) (first : Text) :
    places.Broken
      (replaceSegments (places.name token) (places.dir token) first rest).2 := by
  obtain ⟨tokens, damaged, more, rfl, slash⟩ := broken
  induction tokens generalizing first with
  | nil =>
    cases more with
    | nil => exact ⟨[], damaged, [], rfl, slash⟩
    | cons next behind =>
      have noName : damaged ≠ places.name token := fun isName =>
        (places.name_plain token).2 (isName ▸ slash)
      have stays := (prefix_fst_replaceSegments (places.name token) (places.dir token) damaged
        (next :: behind)).subset slash
      have whole : places.segments [] ++ damaged :: next :: behind =
          damaged :: next :: behind := rfl
      rw [whole, replaceSegments_of_ne noName]
      exact ⟨[], _, _, rfl, stays⟩
  | cons head rest inductionHypothesis =>
    obtain ⟨other, text⟩ := head
    rw [segments_cons, List.cons_append, List.cons_append]
    by_cases same : other = token
    · rw [same, replaceSegments_of_eq]
      exact inductionHypothesis text
    · rw [replaceSegments_of_ne fun names => same (places.name_injective names)]
      have later := inductionHypothesis text
      cases tail : places.segments rest ++ damaged :: more with
      | nil => exact absurd tail (List.append_ne_nil_of_right_ne_nil _ (List.cons_ne_nil _ _))
      | cons next behind =>
        rw [tail] at later
        by_cases isName : text = places.name token
        · have slash : '/' ∈ places.name other ++ (places.dir token ++
              (replaceSegments (places.name token) (places.dir token) next behind).1) :=
            List.mem_append_right _ (List.mem_append_left _ (slash_mem_dir token))
          rw [isName, replaceSegments_of_eq]
          exact ⟨[], _, _, rfl, slash⟩
        · obtain ⟨tokens, stillDamaged, rest, isBroken, stillSlash⟩ := later
          rw [replaceSegments_of_ne isName, isBroken]
          exact ⟨(other, _) :: tokens, stillDamaged, rest, rfl, stillSlash⟩

theorem expand_fill (first : Text) (tokens : List (τ × Text)) :
    places.expand (places.fill token first tokens).1 (places.fill token first tokens).2 =
      places.expand first tokens := by
  induction tokens generalizing first with
  | nil => rfl
  | cons head rest inductionHypothesis =>
    obtain ⟨other, text⟩ := head
    have later := inductionHypothesis text
    rw [expand, expand] at later
    by_cases same : other = token
    · rw [same, fill_of_eq, expand, expand, List.flatMap_cons, List.append_assoc,
        List.append_assoc, later, List.append_assoc]
    · rw [fill_of_ne same, expand, expand, List.flatMap_cons, List.flatMap_cons,
        List.append_assoc, List.append_assoc, later]

/-- The placeholders that are left. -/
theorem mem_fill {first : Text} {left : τ × Text}
    (inside : left ∈ (places.fill token first tokens).2) :
    left.1 ≠ token ∧ ∃ text, (left.1, text) ∈ tokens := by
  induction tokens generalizing first with
  | nil => cases inside
  | cons head rest inductionHypothesis =>
    obtain ⟨other, text⟩ := head
    by_cases same : other = token
    · rw [same, fill_of_eq] at inside
      obtain ⟨different, before, isBefore⟩ := inductionHypothesis inside
      exact ⟨different, before, List.mem_cons_of_mem _ isBefore⟩
    · rw [fill_of_ne same] at inside
      rcases List.mem_cons.mp inside with rfl | later
      · exact ⟨same, text, List.mem_cons_self⟩
      · obtain ⟨different, before, isBefore⟩ := inductionHypothesis later
        exact ⟨different, before, List.mem_cons_of_mem _ isBefore⟩

end Step

/-! ### All directories -/

section Order

variable [DecidableEq τ]

variable (places) in
/-- The directories put back in an order. -/
def putBack (order : List τ) (text : Text) : Text :=
  order.foldl (fun text token => replaceAll (places.mark token) (places.dir token) text) text

variable (places) in
/-- Every text is clean when its turn comes. -/
def CleanAll : List τ → List (τ × Text) → Prop
  | [], _ => True
  | token :: order, tokens =>
    places.Clean token tokens ∧ CleanAll order (places.fill token [] tokens).2

variable {order : List τ} {first : Text} {tokens : List (τ × Text)}

theorem snd_fill (token : τ) (first second : Text) (tokens : List (τ × Text)) :
    (places.fill token first tokens).2 = (places.fill token second tokens).2 := by
  cases tokens with
  | nil => rfl
  | cons head rest =>
    obtain ⟨other, text⟩ := head
    by_cases same : other = token
    · rw [same, fill_of_eq, fill_of_eq]
    · rw [fill_of_ne same, fill_of_ne same]

variable (places) in
omit [DecidableEq τ] in
theorem plain_segments (plain : ∀ token ∈ tokens, '@' ∉ token.2) :
    ∀ segment ∈ places.segments tokens, '@' ∉ segment := by
  intro segment inside
  obtain ⟨token, isToken, isSegment⟩ := List.mem_flatMap.mp inside
  rcases List.mem_cons.mp isSegment with rfl | isText
  · exact (places.name_plain token.1).1
  · rw [List.mem_singleton.mp isText]
    exact plain token isToken

variable (places) in
theorem plain_fill (token : τ) (firstPlain : '@' ∉ first)
    (plain : ∀ token ∈ tokens, '@' ∉ token.2) :
    '@' ∉ (places.fill token first tokens).1 ∧
      ∀ left ∈ (places.fill token first tokens).2, '@' ∉ left.2 := by
  induction tokens generalizing first with
  | nil => exact ⟨firstPlain, plain⟩
  | cons head rest inductionHypothesis =>
    obtain ⟨other, text⟩ := head
    obtain ⟨textPlain, restPlain⟩ := List.forall_mem_cons.mp plain
    obtain ⟨herePlain, laterPlain⟩ := inductionHypothesis textPlain restPlain
    by_cases same : other = token
    · rw [same, fill_of_eq, List.mem_append, List.mem_append, not_or, not_or]
      exact ⟨⟨firstPlain, places.dir_plain token, herePlain⟩, laterPlain⟩
    · rw [fill_of_ne same]
      exact ⟨firstPlain, List.forall_mem_cons.mpr ⟨herePlain, laterPlain⟩⟩

theorem at_mem_putBack_of_broken {rest : List Text} (broken : places.Broken rest)
    (firstPlain : '@' ∉ first) (restPlain : ∀ segment ∈ rest, '@' ∉ segment) :
    '@' ∈ places.putBack order (atText first rest) := by
  induction order generalizing first rest with
  | nil =>
    obtain ⟨tokens, damaged, more, rfl, -⟩ := broken
    cases tail : places.segments tokens ++ damaged :: more with
    | nil => exact absurd tail (List.append_ne_nil_of_right_ne_nil _ (List.cons_ne_nil _ _))
    | cons second behind =>
      show '@' ∈ atText first (second :: behind)
      rw [atText_cons]
      exact List.mem_append_right _ List.mem_cons_self
  | cons token order inductionHypothesis =>
    have step := replaceAll_atText (places.dir token) (places.name_plain token).1 firstPlain
      restPlain
    obtain ⟨nextFirst, nextRest⟩ := plain_replaceSegments (places.name token)
      (places.dir_plain token) firstPlain restPlain
    show '@' ∈ places.putBack order (replaceAll (places.mark token) (places.dir token) _)
    rw [mark, step]
    exact inductionHypothesis (broken_replaceSegments broken first) nextFirst nextRest

theorem putBack_of_cleanAll (clean : places.CleanAll order tokens) (firstPlain : '@' ∉ first)
    (plain : ∀ token ∈ tokens, '@' ∉ token.2) (covers : ∀ token ∈ tokens, token.1 ∈ order) :
    places.putBack order (atText first (places.segments tokens)) = places.expand first tokens := by
  induction order generalizing first tokens with
  | nil =>
    have noToken : tokens = [] :=
      List.eq_nil_iff_forall_not_mem.mpr fun token inside =>
        absurd (covers token inside) List.not_mem_nil
    rw [noToken]
    rfl
  | cons token order inductionHypothesis =>
    obtain ⟨here, later⟩ := clean
    rw [snd_fill token [] first] at later
    obtain ⟨nextFirst, nextTokens⟩ := places.plain_fill token firstPlain plain
    have step := replaceAll_atText (places.dir token) (places.name_plain token).1 firstPlain
      (places.plain_segments plain)
    rw [replaceSegments_of_clean here] at step
    have rest := inductionHypothesis later nextFirst nextTokens fun left inside => by
      obtain ⟨different, text, before⟩ := mem_fill inside
      exact (List.mem_cons.mp (covers _ before)).resolve_left different
    rw [expand_fill] at rest
    exact (congrArg (places.putBack order) step).trans rest

theorem at_mem_putBack (notClean : ¬places.CleanAll order tokens) (firstPlain : '@' ∉ first)
    (plain : ∀ token ∈ tokens, '@' ∉ token.2) :
    '@' ∈ places.putBack order (atText first (places.segments tokens)) := by
  induction order generalizing first tokens with
  | nil => exact absurd trivial notClean
  | cons token order inductionHypothesis =>
    have segmentsPlain := places.plain_segments plain
    have step := replaceAll_atText (places.dir token) (places.name_plain token).1 firstPlain
      segmentsPlain
    show '@' ∈ places.putBack order (replaceAll (places.mark token) (places.dir token) _)
    rw [mark, step]
    by_cases here : places.Clean token tokens
    · obtain ⟨nextFirst, nextTokens⟩ := places.plain_fill token firstPlain plain
      have later : ¬places.CleanAll order (places.fill token first tokens).2 := fun clean =>
        notClean ⟨here, by rwa [snd_fill token [] first]⟩
      rw [replaceSegments_of_clean here]
      exact inductionHypothesis later nextFirst nextTokens
    · obtain ⟨nextFirst, nextRest⟩ := plain_replaceSegments (places.name token)
        (places.dir_plain token) firstPlain segmentsPlain
      exact at_mem_putBack_of_broken (broken_of_not_clean here first) nextFirst nextRest

/-! ### When every text is clean -/

variable (places) in
/-- The relation need not hold between what a substitution has joined. -/
theorem isChain_fill (related : τ → Text → τ → Prop)
    (joined : ∀ before text after, '/' ∈ text → related before text after) (token : τ)
    (first : Text) (tokens : List (τ × Text)) :
    ((places.fill token first tokens).2.IsChain fun before after =>
        related before.1 before.2 after.1) ↔
      tokens.IsChain fun before after =>
        before.1 ≠ token → after.1 ≠ token → related before.1 before.2 after.1 := by
  induction tokens generalizing first with
  | nil => exact iff_of_true List.IsChain.nil List.IsChain.nil
  | cons head rest inductionHypothesis =>
    obtain ⟨other, text⟩ := head
    have later := inductionHypothesis text
    by_cases same : other = token
    · rw [same, fill_of_eq, later]
      cases rest with
      | nil => exact iff_of_true List.IsChain.nil (List.IsChain.singleton _)
      | cons next more =>
        rw [List.isChain_cons_cons, and_iff_right fun different => absurd rfl different]
    · rw [fill_of_ne same]
      cases rest with
      | nil => exact iff_of_true (List.IsChain.singleton _) (List.IsChain.singleton _)
      | cons next more =>
        obtain ⟨nextToken, nextText⟩ := next
        rw [List.isChain_cons_cons]
        by_cases nextSame : nextToken = token
        · have slash : '/' ∈ (places.fill token text ((nextToken, nextText) :: more)).1 := by
            rw [nextSame, fill_of_eq]
            exact List.mem_append_right _ (List.mem_append_left _ (slash_mem_dir token))
          rw [← later, List.isChain_cons, and_iff_right fun after _ => joined _ _ _ slash,
            and_iff_right fun _ different => absurd nextSame different]
        · rw [fill_of_ne nextSame] at later ⊢
          rw [List.isChain_cons_cons, later]
          exact and_congr_left' ⟨fun holds _ _ => holds, fun holds => holds same nextSame⟩

variable (places) in
/-- A name stands between two placeholders only when the first one is gone before the turn of the
name comes, or is the one of that name, or the second one is gone. -/
def Unambiguous (order : List τ) (tokens : List (τ × Text)) : Prop :=
  tokens.IsChain fun before after => ∀ token ∈ order, before.2 = places.name token →
    order.idxOf before.1 ≤ order.idxOf token ∨ order.idxOf after.1 < order.idxOf token

/-- The condition on two neighbours, for the first name of an order and for the others. -/
theorem unambiguous_cons_iff {token before after : τ} {text : Text}
    (nodup : (token :: order).Nodup) :
    (∀ other ∈ token :: order, text = places.name other →
        (token :: order).idxOf before ≤ (token :: order).idxOf other ∨
          (token :: order).idxOf after < (token :: order).idxOf other) ↔
      (before ≠ token → text ≠ places.name token) ∧
        (before ≠ token → after ≠ token → ∀ other ∈ order, text = places.name other →
          order.idxOf before ≤ order.idxOf other ∨ order.idxOf after < order.idxOf other) := by
  have notLater : ∀ other ∈ order, token ≠ other := fun other inside same =>
    (List.nodup_cons.mp nodup).1 (same ▸ inside)
  rw [List.forall_mem_cons, List.idxOf_cons_self]
  refine and_congr ?_ ?_
  · by_cases same : before = token
    · rw [same, List.idxOf_cons_self]
      exact iff_of_true (fun _ => Or.inl (Nat.le_refl 0)) fun different => absurd rfl different
    · rw [List.idxOf_cons_ne _ (Ne.symm same)]
      constructor
      · intro holds _ isName
        rcases holds isName with impossible | impossible
        · exact Nat.not_succ_le_zero _ impossible
        · exact Nat.not_lt_zero _ impossible
      · exact fun noName isName => absurd isName (noName same)
  · by_cases same : before = token
    · rw [same, List.idxOf_cons_self]
      exact iff_of_true (fun _ _ _ => Or.inl (Nat.zero_le _)) fun different => absurd rfl different
    by_cases afterSame : after = token
    · rw [afterSame, List.idxOf_cons_self]
      refine iff_of_true (fun other inside _ => Or.inr ?_) fun _ different => absurd rfl different
      rw [List.idxOf_cons_ne _ (notLater other inside)]
      exact Nat.zero_lt_succ _
    · have step : ∀ other ∈ order, (token :: order).idxOf other = order.idxOf other + 1 :=
        fun other inside => List.idxOf_cons_ne _ (notLater other inside)
      rw [List.idxOf_cons_ne _ (Ne.symm same), List.idxOf_cons_ne _ (Ne.symm afterSame)]
      constructor
      · intro holds _ _ other inside isName
        have here := holds other inside isName
        rw [step other inside] at here
        omega
      · intro holds other inside isName
        have here := holds same afterSame other inside isName
        rw [step other inside]
        omega

theorem cleanAll_iff (nodup : order.Nodup) :
    places.CleanAll order tokens ↔ places.Unambiguous order tokens := by
  induction order generalizing tokens with
  | nil =>
    refine iff_of_true trivial (List.isChain_iff_getElem.mpr fun i inside token isToken => ?_)
    exact absurd isToken List.not_mem_nil
  | cons token order inductionHypothesis =>
    have filled := places.isChain_fill
      (fun before text after => ∀ other ∈ order, text = places.name other →
        order.idxOf before ≤ order.idxOf other ∨ order.idxOf after < order.idxOf other)
      (fun _ _ _ slash other _ isName => absurd (isName ▸ slash) (places.name_plain other).2)
      token [] tokens
    rw [CleanAll, inductionHypothesis (List.nodup_cons.mp nodup).2, Unambiguous, filled, Clean,
      Unambiguous, List.isChain_iff_getElem, List.isChain_iff_getElem, List.isChain_iff_getElem,
      ← forall_and]
    refine forall_congr' fun i => ?_
    rw [← forall_and]
    exact forall_congr' fun inside => (unambiguous_cons_iff nodup).symm

omit [DecidableEq τ] in
theorem at_not_mem_expand (firstPlain : '@' ∉ first) (plain : ∀ token ∈ tokens, '@' ∉ token.2) :
    '@' ∉ places.expand first tokens := by
  rw [expand, List.mem_append, not_or]
  refine ⟨firstPlain, fun inside => ?_⟩
  obtain ⟨token, isToken, isPart⟩ := List.mem_flatMap.mp inside
  rcases List.mem_append.mp isPart with inDir | inText
  · exact places.dir_plain token.1 inDir
  · exact plain token isToken inText

omit [DecidableEq τ] in
theorem plain_of_expand (plain : '@' ∉ places.expand first tokens) :
    '@' ∉ first ∧ ∀ token ∈ tokens, '@' ∉ token.2 := by
  rw [expand, List.mem_append, not_or] at plain
  refine ⟨plain.1, fun token isToken inside => plain.2 ?_⟩
  exact List.mem_flatMap.mpr ⟨token, isToken, List.mem_append_right _ inside⟩

/-- The directories come back exactly when no name stands where it could be mistaken. -/
theorem putBack_eq_expand_iff (nodup : order.Nodup) (firstPlain : '@' ∉ first)
    (plain : ∀ token ∈ tokens, '@' ∉ token.2) (covers : ∀ token ∈ tokens, token.1 ∈ order) :
    places.putBack order (atText first (places.segments tokens)) = places.expand first tokens ↔
      places.Unambiguous order tokens := by
  rw [← cleanAll_iff nodup]
  constructor
  · intro same
    by_contra notClean
    have inside := at_mem_putBack notClean firstPlain plain
    rw [same] at inside
    exact at_not_mem_expand firstPlain plain inside
  · exact fun clean => putBack_of_cleanAll clean firstPlain plain covers

end Order

end Fill

end Placeholders

end Shell
