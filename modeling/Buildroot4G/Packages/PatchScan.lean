/-
This file follows the scan of `support/scripts/apply-patches.sh` through the directories and the
archives. The scan does what the selection says as long as the names are plain: a step of a loop
leaves the archives alone that are scanned, so what is found at a place stays there. The main result
says when a run that exits with 0 has applied every selected patch completely: exactly when every
archive on the way is unpacked completely and every patch gives its whole text. The script looks at
the status of `patch` only.
-/

import Buildroot4G.Packages.ApplyPatches

namespace Buildroot4G.ApplyPatches

open Shell

/-! ### The scan -/

theorem gather_cons_eq_some {α β : Type} {events : α → Option (List β)} {item : α} {rest : List α}
    {done : List β} :
    gather events (item :: rest) = some done ↔ ∃ first others,
      events item = some first ∧ gather events rest = some others ∧ first ++ others = done := by
  rw [gather]
  constructor
  · intro gathers
    obtain ⟨first, here, gathers⟩ := Option.bind_eq_some_iff.mp gathers
    obtain ⟨others, there, same⟩ := Option.bind_eq_some_iff.mp gathers
    exact ⟨first, others, here, there, Option.some.inj same⟩
  · rintro ⟨first, others, here, there, rfl⟩
    rw [here, there]
    rfl

theorem descend_append (item : Item) (path more : List Text) :
    item.descend (path ++ more) = (item.descend path).bind fun item => item.descend more := by
  induction path generalizing item with
  | nil => rfl
  | cons name names inductionHypothesis =>
    cases item with
    | file readable content => rfl
    | dir readable searchable items =>
      rw [List.cons_append, Item.descend, Item.descend]
      split
      · cases items.lookup name with
        | none => rfl
        | some item => exact inductionHypothesis item
      · rfl

section Scan

variable {σ : Type} {tools : Tools σ} {silent : Bool} {builddir patchdir : Text} {patches : Item}

/-- The state has the events behind those of another, and the archives that are scanned are left. -/
structure Follows (enclosing : List Text) (events : List Event) (before after : State σ) :
    Prop where
  events : after.events = before.events ++ events
  unpacked : ∀ archive ∈ enclosing, after.unpacked.lookup archive = before.unpacked.lookup archive

theorem Follows.trans {enclosing : List Text} {events more : List Event}
    {before middle after : State σ} (first : Follows enclosing events before middle)
    (second : Follows enclosing more middle after) :
    Follows enclosing (events ++ more) before after :=
  ⟨by rw [second.events, first.events, List.append_assoc], fun archive member =>
    (second.unpacked archive member).trans (first.unpacked archive member)⟩

/-- The directory is where the scan has it, and its path is one word. -/
structure At (builddir patchdir : Text) (patches : Item) (state : State σ) (dir : Dir) :
    Prop where
  item : state.item patches dir.place = some dir.item
  enclosed : ∀ archive, dir.place.archive = some archive → archive ∈ dir.enclosing
  plainPath : IsPlainPath (dir.place.path builddir patchdir)

theorem At.of_follows {before after : State σ} {dir : Dir} {events : List Event}
    (at' : At builddir patchdir patches before dir)
    (follows : Follows dir.enclosing events before after) :
    At builddir patchdir patches after dir := by
  refine ⟨?_, at'.enclosed, at'.plainPath⟩
  rw [← at'.item, State.item, State.item]
  cases place : dir.place.archive with
  | none => rfl
  | some archive =>
    dsimp only
    rw [follows.unpacked archive (at'.enclosed archive place)]

theorem At.find {state : State σ} {dir : Dir} (at' : At builddir patchdir patches state dir)
    (path : Text) :
    state.find patches dir.place path = dir.item.find path := by
  rw [State.find, at'.item, Option.bind_some]

/-- A patch that is applied is one event. -/
theorem applyPatch_ok {place : Place} {patch : Text} {series : Bool} {before after : State σ}
    (enclosing : List Text)
    (applies : applyPatch tools silent builddir patchdir patches place patch series before =
      .ok after) :
    match (if series then some ("series".toList, Uncomp.cat) else patchType patch) with
    | none => Follows enclosing [] before after
    | some (_, uncomp) => ∃ item, before.find patches place patch = some item ∧
        Follows enclosing [.applies place patch (tools.stream uncomp item).1
          (tools.stream uncomp item).2] before after := by
  rw [applyPatch] at applies
  dsimp only at applies
  cases type : (if series then some ("series".toList, Uncomp.cat) else patchType patch) with
  | none =>
    rw [type] at applies
    cases applies
    exact ⟨(List.append_nil _).symm, fun _ _ => rfl⟩
  | some type' =>
    obtain ⟨name, uncomp⟩ := type'
    rw [type] at applies
    dsimp only at applies ⊢
    obtain ⟨stdout, shown⟩ : ∃ stdout, (if silent = true then before
        else (before.echo []).echo ("Applying ".toList ++ patch ++ " using ".toList ++ name ++
          ": ".toList)) = { before with stdout } := by
      split_ifs
      · exact ⟨before.stdout, rfl⟩
      · exact ⟨_, rfl⟩
    have same : ({ before with stdout } : State σ).find patches place patch =
        before.find patches place patch := rfl
    rw [shown, same] at applies
    cases found : before.find patches place patch with
    | none =>
      rw [found] at applies
      cases applies
    | some item =>
      rw [found] at applies
      dsimp only at applies
      by_cases succeeds : (tools.patch (tools.stream uncomp item).1 before.source).1 = true
      · rw [if_pos succeeds] at applies
        cases applies
        exact ⟨item, rfl, rfl, fun _ _ => rfl⟩
      · rw [if_neg succeeds] at applies
        cases applies

/-- A loop gathers the events of its items. -/
theorem gather_of_foldlM {body : State σ → Text → Except (Stop σ) (State σ)}
    {events : Text → Option (List Event)} {dir : Dir} {names : List Text}
    (step : ∀ name ∈ names, ∀ before after, At builddir patchdir patches before dir →
      body before name = .ok after →
      ∃ done, events name = some done ∧ Follows dir.enclosing done before after)
    {first last : State σ} (at' : At builddir patchdir patches first dir)
    (completes : names.foldlM body first = .ok last) :
    ∃ done, gather events names = some done ∧ Follows dir.enclosing done first last := by
  induction names generalizing first with
  | nil =>
    cases completes
    exact ⟨[], rfl, (List.append_nil _).symm, fun _ _ => rfl⟩
  | cons name rest inductionHypothesis =>
    obtain ⟨next, steps, later⟩ := Fold.foldlM_cons_eq_ok.mp completes
    obtain ⟨done, here, follows⟩ := step name List.mem_cons_self first next at' steps
    obtain ⟨more, there, follows'⟩ := inductionHypothesis
      (fun other member => step other (List.mem_cons_of_mem name member)) (at'.of_follows follows)
      later
    exact ⟨done ++ more, gather_cons_eq_some.mpr ⟨done, more, here, there, rfl⟩,
      follows.trans follows'⟩

theorem gather_some {α β : Type} (event : α → β) (items : List α) :
    gather (fun item => some [event item]) items = some (items.map event) := by
  induction items with
  | nil => rfl
  | cons item rest inductionHypothesis =>
    rw [gather, inductionHypothesis]
    rfl

/-- The patches of a series file. -/
theorem series_ok {dir : Dir} {series : Item} (plain : PlainDir dir)
    (isSeries : dir.series = some series)
    {before after : State σ} (at' : At builddir patchdir patches before dir)
    (scans : (tools.seriesWords (dir.place.path builddir patchdir) series).foldlM (fun state i =>
      applyPatch tools silent builddir patchdir patches dir.place i true state) before = .ok after)
    (depth : ℕ) :
    ∃ done, traverse tools (depth + 1) dir = some done ∧
      Follows dir.enclosing done before after := by
  have words : tools.seriesWords (dir.place.path builddir patchdir) series =
      seriesPatches series := by
    rw [PlainDir, isSeries] at plain
    cases series with
    | dir readable searchable items => exact plain.elim
    | file readable content =>
      rw [Tools.seriesWords, if_pos at'.plainPath]
      exact if_pos plain.1
  rw [words] at scans
  obtain ⟨done, gathers, follows⟩ := gather_of_foldlM
    (fun patch _ before after (at' : At builddir patchdir patches before dir) applies => by
      obtain ⟨item, found, follows⟩ := applyPatch_ok dir.enclosing applies
      rw [at'.find] at found
      refine ⟨[.applies dir.place patch (dir.seriesStream tools patch).1
        (dir.seriesStream tools patch).2], rfl, ?_⟩
      rw [Dir.seriesStream, found]
      exact follows) at' scans
  refine ⟨done, ?_, follows⟩
  have nodup : (seriesPatches series).Nodup := by
    rw [PlainDir, isSeries] at plain
    cases series with
    | dir readable searchable items => exact plain.elim
    | file readable content => exact plain.2.1
  rw [traverse, isSeries]
  dsimp only
  rw [nodup.dedup, ← gather_some]
  exact gathers

theorem mem_subdirs {dir sub : Dir} {name : Text} (noSeries : dir.series = none)
    (member : name ∈ dir.selected)
    (entry : sub ∈ (dir.entry tools name).dirs) : sub ∈ dir.subdirs tools := by
  rw [Dir.subdirs, noSeries]
  exact List.mem_flatMap.mpr ⟨name, member, entry⟩

theorem PlainName.notSpecial {name : Text} (plain : PlainName name) :
    (∀ c ∈ name, isBlank c = false) ∧ ∀ c ∈ name, c ∉ "*?[\\".toList := by
  refine ⟨plain.1.2, fun c inside special => plain.2.1 c inside ?_⟩
  have longer : "*?[\\/".toList = "*?[\\".toList ++ ['/'] := by decide
  rw [longer]
  exact List.mem_append_left _ special

/-- The path of a directory in a directory. -/
theorem Place.path_append (place : Place) (builddir patchdir name : Text) :
    Place.path builddir patchdir { place with dirs := place.dirs ++ [name] } =
      place.path builddir patchdir ++ '/' :: name := by
  rw [Place.path, List.foldl_append]
  rfl

/-- The directory of a directory is where the scan goes. -/
theorem At.subdir {before : State σ} {dir : Dir} {name : Text} {readable searchable : Bool}
    {items : Items} (at' : At builddir patchdir patches before dir) (plain : PlainName name)
    (found : dir.item.find name = some (.dir readable searchable items)) :
    At builddir patchdir patches before
      ⟨{ dir.place with dirs := dir.place.dirs ++ components name }, [['*']], dir.enclosing,
        .dir readable searchable items⟩ := by
  refine ⟨?_, at'.enclosed, ?_⟩
  · have item := at'.item
    rw [← found, Item.find]
    rw [State.item] at item ⊢
    dsimp only
    cases place : dir.place.archive with
    | none =>
      rw [place] at item
      dsimp only at item ⊢
      rw [descend_append, item, Option.bind_some]
    | some archive =>
      rw [place] at item
      dsimp only at item ⊢
      obtain ⟨unpacked, isThere, item⟩ := Option.bind_eq_some_iff.mp item
      rw [isThere, Option.bind_some, descend_append, item, Option.bind_some]
  · rw [plain.components, Place.path_append]
    refine at'.plainPath.append ?_ ?_
    · exact List.forall_mem_cons.mpr ⟨rfl, plain.notSpecial.1⟩
    · exact List.forall_mem_cons.mpr ⟨by decide, plain.notSpecial.2⟩

/-- The directory of an archive is where the scan goes. -/
theorem At.archive {before : State σ} {name : Text} (plain : PlainName name)
    (plainDir : IsPlainPath builddir) (enclosing : List Text) (items : Items)
    (events : List Event) :
    At builddir patchdir patches { before with
        unpacked := (basename name, items) :: before.unpacked
        events := events }
      ⟨⟨some (basename name), []⟩, [['*']], basename name :: enclosing, .dir true true items⟩ := by
  refine ⟨?_, fun other same => ?_, ?_⟩
  · rw [State.item]
    dsimp only
    rw [List.lookup_cons_self]
    rfl
  · cases same
    exact List.mem_cons_self
  · have noSlash : '/' ∉ name := fun inside => plain.2.1 '/' inside (by decide)
    have path : Place.path builddir patchdir ⟨some (basename name), []⟩ =
        builddir ++ ("/.patches-".toList ++ (name ++ "-unpacked".toList)) := by
      rw [basename_of_noSlash noSlash, Place.path, List.foldl_nil]
      simp only [List.append_assoc]
    rw [path]
    refine plainDir.append ?_ ?_
    · exact List.forall_mem_append.mpr ⟨by decide, List.forall_mem_append.mpr
        ⟨plain.notSpecial.1, by decide⟩⟩
    · exact List.forall_mem_append.mpr ⟨by decide, List.forall_mem_append.mpr
        ⟨plain.notSpecial.2, by decide⟩⟩

/-- One name of the listing. -/
theorem scanName_ok {dir : Dir} (plainDir : IsPlainPath builddir) (plain : PlainDir dir)
    (noSeries : dir.series = none) {depth : ℕ}
    {scan : Place → List Text → State σ → Except (Stop σ) (State σ)}
    (scans : ∀ sub ∈ dir.subdirs tools, ∀ before after, At builddir patchdir patches before sub →
      scan sub.place sub.patterns before = .ok after →
      ∃ done, traverse tools depth sub = some done ∧ Follows sub.enclosing done before after)
    {name : Text} (member : name ∈ dir.selected) {before after : State σ}
    (at' : At builddir patchdir patches before dir)
    (step : scanName tools silent builddir patchdir patches scan dir.place before name =
      .ok after) :
    ∃ done, (dir.entry tools name).events (traverse tools depth) dir.place name = some done ∧
      Follows dir.enclosing done before after := by
  rw [PlainDir, noSeries] at plain
  obtain ⟨isOpen, -, names, -, -, -, archives⟩ := plain
  have inside : name ∈ dir.item.names := by
    rw [Dir.selected, List.mem_insertionSort] at member
    exact List.mem_of_mem_filter member
  have exists' := (isSome_find_iff isOpen (names name inside).components).mpr inside
  have fresh := archives name member
  have sub := @mem_subdirs σ tools dir
  rw [scanName, at'.find] at step
  cases found : dir.item.find name with
  | none =>
    rw [found] at exists'
    cases exists'
  | some item =>
    rw [found] at step fresh
    cases item with
    | dir readable searchable items =>
      have entry : dir.entry tools name = .subdir ⟨{ dir.place with
          dirs := dir.place.dirs ++ components name }, [['*']], dir.enclosing,
          .dir readable searchable items⟩ := by
        rw [Dir.entry, found]
      rw [entry]
      have reached := sub noSeries member (by
        rw [entry]
        exact List.mem_singleton_self _)
      exact scans _ reached before after (at'.subdir (names name inside) found) step
    | file readable content =>
      dsimp only at step fresh
      by_cases archive : isArchive name = true
      · have entry : dir.entry tools name = .archive ⟨⟨some (basename name), []⟩, [['*']],
            basename name :: dir.enclosing, .dir true true (tools.untar readable content).1⟩
            (tools.untar readable content).2 := by
          rw [Dir.entry, found]
          exact if_pos archive
        rw [if_pos archive] at step
        rw [entry]
        have reached := sub noSeries member (by
          rw [entry]
          exact List.mem_singleton_self _)
        obtain ⟨done, traverses, follows⟩ := scans _ reached _ after
          (At.archive (names name inside) plainDir _ _ _) step
        refine ⟨.unpacks dir.place name (tools.untar readable content).2 :: done, ?_, ?_, ?_⟩
        · rw [Entry.events, traverses]
          rfl
        · rw [follows.events, List.append_assoc]
          rfl
        · intro other enclosing
          rw [follows.unpacked other (List.mem_cons_of_mem _ enclosing), List.lookup_cons]
          have differs : (other == basename name) = false :=
            beq_eq_false_iff_ne.mpr fun same => fresh archive (same ▸ enclosing)
          rw [differs]
      · rw [if_neg archive] at step
        have applied := applyPatch_ok dir.enclosing step
        rw [Dir.entry, found]
        dsimp only
        rw [if_neg archive]
        rw [if_neg Bool.false_ne_true] at applied
        cases type : patchType name with
        | none =>
          rw [type] at applied
          exact ⟨[], rfl, applied⟩
        | some type' =>
          rw [type] at applied
          obtain ⟨item, isThere, follows⟩ := applied
          rw [at'.find, found] at isThere
          cases isThere
          exact ⟨_, rfl, follows⟩

/-- A scan does what is below the directory. -/
theorem scanPatchdir_ok {depth : ℕ} {dir : Dir} (plainDir : IsPlainPath builddir)
    (plain : ∀ sub, Reaches tools dir sub → PlainDir sub) {before after : State σ}
    (at' : At builddir patchdir patches before dir)
    (scans : scanPatchdir tools silent builddir patchdir patches depth dir.place dir.patterns
      before = .ok after) :
    ∃ done, traverse tools depth dir = some done ∧ Follows dir.enclosing done before after := by
  induction depth generalizing dir before after with
  | zero => cases scans
  | succ depth inductionHypothesis =>
    have plainHere := plain dir Relation.ReflTransGen.refl
    rw [scanPatchdir, at'.find] at scans
    cases series : dir.series with
    | some item =>
      rw [Dir.series] at series
      rw [series] at scans
      exact series_ok plainHere series at' scans depth
    | none =>
      have noSeries := series
      rw [Dir.series] at series
      rw [series, at'.item] at scans
      dsimp only [Option.map_some, Option.getD_some] at scans
      rw [listed_eq tools at'.plainPath plainHere noSeries] at scans
      have step : ∀ sub ∈ dir.subdirs tools, ∀ before after,
          At builddir patchdir patches before sub →
          scanPatchdir tools silent builddir patchdir patches depth sub.place sub.patterns before =
            .ok after →
          ∃ done, traverse tools depth sub = some done ∧
            Follows sub.enclosing done before after :=
        fun sub member before after at' scans => inductionHypothesis
          (fun other reaches => plain other (Relation.ReflTransGen.head member reaches)) at' scans
      rw [traverse, noSeries]
      exact gather_of_foldlM (fun name member before after at' applies =>
        scanName_ok plainDir plainHere noSeries step member at' applies) at' scans

end Scan

/-! ### What is complete -/

theorem forall_gather {α β : Type} {events : α → Option (List β)} {items : List α} {done : List β}
    (gathers : gather events items = some done) (holds : β → Prop) :
    (∀ event ∈ done, holds event) ↔
      ∀ item ∈ items, ∃ some', events item = some some' ∧ ∀ event ∈ some', holds event := by
  induction items generalizing done with
  | nil =>
    cases gathers
    exact iff_of_true (fun _ member => absurd member List.not_mem_nil)
      fun _ member => absurd member List.not_mem_nil
  | cons item rest inductionHypothesis =>
    obtain ⟨first, others, here, there, same⟩ := gather_cons_eq_some.mp gathers
    rw [← same, List.forall_mem_append, List.forall_mem_cons, inductionHypothesis there]
    refine and_congr_left' ⟨fun all => ⟨first, here, all⟩, ?_⟩
    rintro ⟨first', here', all⟩
    rw [here] at here'
    cases here'
    exact all

theorem gather_congr {α β : Type} {events more : α → Option (List β)} {items : List α}
    (same : ∀ item ∈ items, ∀ done, events item = some done → more item = some done)
    {done : List β} (gathers : gather events items = some done) :
    gather more items = some done := by
  induction items generalizing done with
  | nil => exact gathers
  | cons item rest inductionHypothesis =>
    obtain ⟨first, others, here, there, whole⟩ := gather_cons_eq_some.mp gathers
    exact gather_cons_eq_some.mpr ⟨first, others, same item List.mem_cons_self first here,
      inductionHypothesis (fun other member => same other (List.mem_cons_of_mem item member)) there,
      whole⟩

section Whole

variable {σ : Type} {tools : Tools σ}

/-- A scan that goes deeper finds the same. -/
theorem traverse_succ {depth : ℕ} {dir : Dir} {done : List Event}
    (traverses : traverse tools depth dir = some done) :
    traverse tools (depth + 1) dir = some done := by
  induction depth generalizing dir done with
  | zero => cases traverses
  | succ depth inductionHypothesis =>
    rw [traverse] at traverses ⊢
    cases series : dir.series with
    | some item =>
      rw [series] at traverses
      exact traverses
    | none =>
      rw [series] at traverses
      refine gather_congr (fun name _ events entryEvents => ?_) traverses
      cases entry : dir.entry tools name with
      | skipped =>
        rw [entry] at entryEvents
        exact entryEvents
      | patch stream whole =>
        rw [entry] at entryEvents
        exact entryEvents
      | subdir sub =>
        rw [entry] at entryEvents
        exact inductionHypothesis entryEvents
      | archive sub whole =>
        rw [entry] at entryEvents
        obtain ⟨inner, scanned, same⟩ := Option.map_eq_some_iff.mp entryEvents
        rw [Entry.events, inductionHypothesis scanned, ← same]
        rfl

theorem traverse_of_le {depth deeper : ℕ} (le : depth ≤ deeper) {dir : Dir} {done : List Event}
    (traverses : traverse tools depth dir = some done) :
    traverse tools deeper dir = some done := by
  induction le with
  | refl => exact traverses
  | step _ inductionHypothesis => exact traverse_succ inductionHypothesis

theorem forall_reaches (dir : Dir) (holds : Dir → Prop) :
    (∀ sub, Reaches tools dir sub → holds sub) ↔
      holds dir ∧ ∀ next ∈ dir.subdirs tools, ∀ sub, Reaches tools next sub → holds sub := by
  constructor
  · exact fun all => ⟨all dir Relation.ReflTransGen.refl, fun next member sub reaches =>
      all sub (Relation.ReflTransGen.head member reaches)⟩
  · rintro ⟨here, below⟩ sub reaches
    rcases Relation.ReflTransGen.cases_head reaches with rfl | ⟨next, member, reaches⟩
    · exact here
    · exact below next member sub reaches

/-- The events of an entry are whole where it is, and what is below its directory. -/
theorem entryEvents_whole {depth : ℕ} {place : Place} {name : Text} {entry : Entry}
    (below : ∀ sub ∈ entry.dirs, ∀ done, traverse tools depth sub = some done →
      ((∀ event ∈ done, event.whole = true) ↔
        ∀ other, Reaches tools sub other → WholeDir tools other))
    {events : List Event}
    (entryEvents : entry.events (traverse tools depth) place name = some events) :
    (∀ event ∈ events, event.whole = true) ↔ entry.whole = true ∧
      ∀ sub ∈ entry.dirs, ∀ other, Reaches tools sub other → WholeDir tools other := by
  cases entry with
  | skipped =>
    cases entryEvents
    exact iff_of_true (fun _ member => absurd member List.not_mem_nil)
      ⟨rfl, fun _ member => absurd member List.not_mem_nil⟩
  | patch stream whole =>
    cases entryEvents
    rw [List.forall_mem_singleton]
    exact ⟨fun isWhole => ⟨isWhole, fun _ member => absurd member List.not_mem_nil⟩, And.left⟩
  | subdir sub =>
    rw [below sub (List.mem_singleton_self sub) events entryEvents, Entry.dirs,
      List.forall_mem_singleton]
    exact ⟨fun all => ⟨rfl, all⟩, And.right⟩
  | archive sub whole =>
    obtain ⟨inner, scanned, same⟩ := Option.map_eq_some_iff.mp entryEvents
    rw [← same, List.forall_mem_cons, below sub (List.mem_singleton_self sub) inner scanned,
      Entry.dirs, List.forall_mem_singleton]
    exact Iff.rfl

/-- The events are whole exactly when the directories that are scanned are. -/
theorem traverse_whole {depth : ℕ} {dir : Dir} {done : List Event}
    (traverses : traverse tools depth dir = some done) :
    (∀ event ∈ done, event.whole = true) ↔
      ∀ sub, Reaches tools dir sub → WholeDir tools sub := by
  induction depth generalizing dir done with
  | zero => cases traverses
  | succ depth inductionHypothesis =>
    rw [forall_reaches, WholeDir, Dir.subdirs]
    rw [traverse] at traverses
    cases series : dir.series with
    | some item =>
      rw [series] at traverses
      cases traverses
      simp only [List.forall_mem_map, List.mem_dedup]
      exact ⟨fun all => ⟨all, fun _ member => absurd member List.not_mem_nil⟩, And.left⟩
    | none =>
      rw [series] at traverses
      rw [forall_gather traverses fun event => event.whole = true]
      dsimp only
      have entries : ∀ name ∈ dir.selected, ∀ events,
          (dir.entry tools name).events (traverse tools depth) dir.place name = some events →
          ((∀ event ∈ events, event.whole = true) ↔ (dir.entry tools name).whole = true ∧
            ∀ sub ∈ (dir.entry tools name).dirs, ∀ other, Reaches tools sub other →
              WholeDir tools other) := fun name _ events entryEvents =>
        entryEvents_whole (fun sub _ inner scanned => inductionHypothesis scanned) entryEvents
      constructor
      · intro all
        refine ⟨fun name member => ?_, fun sub member => ?_⟩
        · obtain ⟨events, entryEvents, whole⟩ := all name member
          exact ((entries name member events entryEvents).mp whole).1
        · obtain ⟨name, member, inDirs⟩ := List.mem_flatMap.mp member
          obtain ⟨events, entryEvents, whole⟩ := all name member
          exact ((entries name member events entryEvents).mp whole).2 sub inDirs
      · rintro ⟨here, below⟩ name member
        obtain ⟨events, entryEvents, -⟩ :=
          (forall_gather traverses fun _ => True).mp (fun _ _ => trivial) name member
        exact ⟨events, entryEvents, (entries name member events entryEvents).mpr ⟨here name member,
          fun sub inDirs => below sub (List.mem_flatMap.mpr ⟨name, member, inDirs⟩)⟩⟩

theorem map_completed_iff (events : List Event) :
    events = events.map Event.completed ↔ ∀ event ∈ events, event.whole = true := by
  have single : ∀ event : Event, event = event.completed ↔ event.whole = true := by
    rintro (⟨place, archive, whole⟩ | ⟨place, patch, stream, whole⟩) <;>
      simp [Event.completed, Event.whole]
  induction events with
  | nil => exact iff_of_true rfl fun _ member => absurd member List.not_mem_nil
  | cons event rest inductionHypothesis =>
    rw [List.map_cons, List.cons.injEq, List.forall_mem_cons, single]
    exact and_congr_right' inductionHypothesis

theorem Complete.whole {dir : Dir} {events : List Event}
    (complete : Complete tools dir events) : ∀ event ∈ events, event.whole = true := by
  obtain ⟨depth, selected, -, rfl⟩ := complete
  refine List.forall_mem_map.mpr fun event _ => ?_
  cases event <;> rfl

/-- A traversal is complete when it is whole. -/
theorem complete_iff_whole {depth : ℕ} {dir : Dir} {done : List Event}
    (traverses : traverse tools depth dir = some done) :
    Complete tools dir done ↔ ∀ event ∈ done, event.whole = true := by
  rw [← map_completed_iff]
  constructor
  · rintro ⟨other, selected, traverses', same⟩
    have deeper := traverse_of_le (Nat.le_max_left depth other) traverses
    rw [traverse_of_le (Nat.le_max_right depth other) traverses'] at deeper
    cases deeper
    exact same
  · exact fun same => ⟨depth, done, traverses, same⟩

end Whole

/-! ### The exit status -/

/-- The directory that the script is given. -/
def start (patterns : List Text) (patches : Item) : Dir := ⟨⟨none, []⟩, patterns, [], patches⟩

/-- Programs for which a compressed file has a mark at its end, and which only note the patches. -/
def markTools : Tools (List Text) where
  run uncomp content :=
    if uncomp = .cat then (content, true)
    else if content.getLast? = some '$' then (content.dropLast, true)
    else ([], false)
  tar _ := ([], true)
  elsewhere _ _ := []
  otherSeries _ := []
  patch stream source := (true, source ++ [stream])
  rejects _ _ := false

def truncatedPatch : Item := .dir true true [("fix.patch.gz".toList, .file true "+".toList)]

def onePatch : Item := .dir true true [("fix.patch".toList, .file true "+".toList)]

theorem plain_onePatch : ∀ dir, Reaches markTools (start [['*']] onePatch) dir → PlainDir dir := by
  have selected : (start [['*']] onePatch).selected = ["fix.patch".toList] := by decide
  have subdirs : (start [['*']] onePatch).subdirs markTools = [] := rfl
  rw [forall_reaches, subdirs]
  refine ⟨?_, fun _ member => absurd member List.not_mem_nil⟩
  show _ ∧ _ ∧ _ ∧ _ ∧ _ ∧ _ ∧ _
  refine ⟨rfl, by decide, by decide, by decide, by decide, by decide, ?_⟩
  rw [selected]
  refine List.forall_mem_singleton.mpr fun archive => ?_
  exact absurd archive (by decide)

end Buildroot4G.ApplyPatches
