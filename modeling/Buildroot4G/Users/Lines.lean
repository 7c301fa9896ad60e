/-
This file has what the sed expressions of `mkusers` do to a line of the group file.
A line has four fields, and none of the first three has a comma, so that only the
list of members changes: the two clean-up expressions remove empty members and
nothing else, and adding a user leaves every other member where it was.
-/

import Buildroot4G.Users.Files

namespace Buildroot4G.Users

open Shell

/-! ### Lists of members -/

/-- The members of a list with commas. -/
def listed (members : Text) : List Text :=
  (members.splitOn ',').filter fun member => decide (member ≠ [])

theorem mem_listed {members member : Text} :
    member ∈ listed members ↔ member ∈ members.splitOn ',' ∧ member ≠ [] := by
  rw [listed, List.mem_filter, decide_eq_true_iff]

theorem listed_cons_comma (members : Text) : listed (',' :: members) = listed members := by
  have split := List.splitOn_append_cons_self (a := ',') [] members
  rw [List.nil_append, List.splitOn_nil] at split
  rw [listed, split]
  rfl

theorem listed_append_comma (before after : Text) :
    listed (before ++ ',' :: after) = listed before ++ listed after := by
  rw [listed, List.splitOn_append_cons_self, List.filter_append]
  rfl

theorem listed_dropWhile (members : Text) :
    listed (members.dropWhile fun c => c == ',') = listed members := by
  induction members with
  | nil => rfl
  | cons c rest inductionHypothesis =>
    by_cases comma : c = ','
    · rw [comma, listed_cons_comma, ← inductionHypothesis]
      rfl
    · rw [List.dropWhile_cons_of_neg (by rw [beq_iff_eq]; exact comma)]

theorem squeezeField_append {before : Text} (noComma : ',' ∉ before) (after : Text) :
    squeezeField (before ++ ',' :: after) = before ++ ',' :: after.dropWhile fun c => c == ',' := by
  have stays : ∀ c ∈ before, (c != ',') = true :=
    fun c member => bne_iff_ne.mpr fun same => noComma (same ▸ member)
  rw [squeezeField, List.takeWhile_append_of_pos stays, List.dropWhile_append_of_pos stays]
  simp

/-- `s/,+/,/` keeps the members. -/
theorem listed_squeezeField {members : Text} (has : ',' ∈ members) :
    listed (squeezeField members) = listed members := by
  obtain ⟨before, after, rfl, noComma⟩ := List.eq_append_cons_of_mem has
  rw [squeezeField_append noComma, listed_append_comma, listed_append_comma, listed_dropWhile]

/-! ### Removing a member -/

theorem of_clearLast {name : Text} {members cleared : List Text}
    (clears : clearLast name members = some cleared) :
    (∀ member ∈ cleared, member ≠ [] → member ∈ members) ∧
      ∀ member ∈ members, member ≠ name → member ∈ cleared := by
  induction members generalizing cleared with
  | nil => cases clears
  | cons head rest inductionHypothesis =>
    rw [clearLast] at clears
    cases later : clearLast name rest with
    | some cleared' =>
      rw [later] at clears
      obtain rfl := Option.some.inj clears
      obtain ⟨fewer, others⟩ := inductionHypothesis later
      refine ⟨fun member inside named => ?_, fun member inside different => ?_⟩
      · rcases List.mem_cons.mp inside with rfl | tail
        · exact List.mem_cons_self
        · exact List.mem_cons_of_mem head (fewer member tail named)
      · rcases List.mem_cons.mp inside with rfl | tail
        · exact List.mem_cons_self
        · exact List.mem_cons_of_mem head (others member tail different)
    | none =>
      rw [later] at clears
      by_cases same : head = name
      · rw [if_pos same] at clears
        obtain rfl := Option.some.inj clears
        refine ⟨fun member inside named => ?_, fun member inside different => ?_⟩
        · exact List.mem_cons_of_mem head ((List.mem_cons.mp inside).resolve_left named)
        · refine List.mem_cons_of_mem [] ((List.mem_cons.mp inside).resolve_left ?_)
          exact fun isHead => different (isHead.trans same)
      · rw [if_neg same] at clears
        cases clears

theorem of_clearMember {name : Text} {members cleared : List Text}
    (clears : clearMember name members = some cleared) :
    (∀ member ∈ cleared, member ≠ [] → member ∈ members) ∧
      ∀ member ∈ members, member ≠ name → member ∈ cleared := by
  match members with
  | [] | [_] => exact of_clearLast clears
  | first :: second :: rest =>
    rw [clearMember] at clears
    simp only [List.mem_cons]
    cases later : clearLast name rest with
    | some cleared' =>
      rw [later] at clears
      obtain rfl := Option.some.inj clears
      obtain ⟨fewer, others⟩ := of_clearLast later
      simp only [List.mem_cons]
      exact ⟨fun member inside named => inside.imp_right (Or.imp_right fun tail =>
          fewer member tail named),
        fun member inside different => inside.imp_right (Or.imp_right fun tail =>
          others member tail different)⟩
    | none =>
      rw [later] at clears
      by_cases isSecond : second = name ∧ first ≠ []
      · obtain rfl := Option.some.inj ((if_pos isSecond).symm.trans clears)
        simp only [List.mem_cons]
        refine ⟨fun member inside named => ?_, fun member inside different => ?_⟩
        · exact inside.imp_right fun tail => Or.inr (tail.resolve_left named)
        · refine inside.imp_right fun tail => Or.inr (tail.resolve_left ?_)
          exact fun same => different (same.trans isSecond.1)
      · by_cases isFirst : first = name
        · obtain rfl := Option.some.inj
            ((if_pos isFirst).symm.trans ((if_neg isSecond).symm.trans clears))
          simp only [List.mem_cons]
          refine ⟨fun member inside named => Or.inr (inside.resolve_left named),
            fun member inside different => Or.inr (inside.resolve_left ?_)⟩
          exact fun same => different (same.trans isFirst)
        · cases (if_neg isFirst).symm.trans ((if_neg isSecond).symm.trans clears)

theorem ne_nil_of_clearMember {name : Text} {members cleared : List Text}
    (clears : clearMember name members = some cleared) : cleared ≠ [] := by
  rintro rfl
  match members with
  | [] => cases clears
  | [member] =>
    change (if member = name then some [[]] else none) = some [] at clears
    split at clears <;> cases clears
  | first :: second :: rest =>
    rw [clearMember] at clears
    split at clears
    · cases clears
    · split at clears
      · cases clears
      · split at clears <;> cases clears

/-- Removing a user adds no member and loses no other one. -/
theorem listed_removeMember (name members : Text) :
    (∀ member ∈ listed (removeMember name members), member ∈ listed members) ∧
      ∀ member ∈ listed members, member ≠ name → member ∈ listed (removeMember name members) := by
  rw [removeMember]
  split
  · rename_i cleared clears
    obtain ⟨fewer, others⟩ := of_clearMember clears
    have split : ([','].intercalate cleared).splitOn ',' = cleared := by
      refine List.splitOn_intercalate ',' (fun member inside => ?_) ?_
      · by_cases named : member = []
        · rw [named]
          exact List.not_mem_nil
        · exact not_mem_of_mem_splitOn (fewer member inside named)
      · exact ne_nil_of_clearMember clears
    simp only [mem_listed, split]
    exact ⟨fun member ⟨inside, named⟩ => ⟨fewer member inside named, named⟩,
      fun member ⟨inside, named⟩ different => ⟨others member inside different, named⟩⟩
  · exact ⟨fun member inside => inside, fun member inside _ => inside⟩

/-! ### Lines of the group file -/

/-- A line of the group file: four fields, of which only the last may have commas. -/
inductive GroupForm : Line → Prop
  | line (name password gid members : Text) (nameForm : ',' ∉ name) (passwordForm : ',' ∉ password)
      (gidForm : ',' ∉ gid) : GroupForm [name, password, gid, members]

instance : DecidablePred GroupForm
  | [name, password, gid, _] =>
    decidable_of_iff (',' ∉ name ∧ ',' ∉ password ∧ ',' ∉ gid)
      ⟨fun ⟨nameForm, passwordForm, gidForm⟩ => .line _ _ _ _ nameForm passwordForm gidForm,
        fun form => by
          obtain ⟨_, _, _, _, nameForm, passwordForm, gidForm⟩ := form
          exact ⟨nameForm, passwordForm, gidForm⟩⟩
  | [] | [_] | [_, _] | [_, _, _] | _ :: _ :: _ :: _ :: _ :: _ => .isFalse nofun

/-- What the two clean-up expressions make of the list of members. -/
def cleanMembers (members : Text) : Text :=
  let squeezed := if ',' ∈ members then squeezeField members else members
  if squeezed.head? = some ',' then squeezed.tail else squeezed

/-- What the four expressions make of the list of members. -/
def addMemberField (username : Text) (inGroup : Bool) (members : Text) : Text :=
  cleanMembers (if inGroup then removeMember username members ++ ',' :: username else members)

/-- The clean-up keeps the members. -/
theorem listed_cleanMembers (members : Text) : listed (cleanMembers members) = listed members := by
  have squeezed :
      listed (if ',' ∈ members then squeezeField members else members) = listed members := by
    split
    · exact listed_squeezeField ‹_›
    · rfl
  rw [cleanMembers]
  generalize (if ',' ∈ members then squeezeField members else members) = field at squeezed ⊢
  by_cases isHead : field.head? = some ','
  · obtain ⟨rest, rfl⟩ := List.head?_eq_some_iff.mp isHead
    rw [listed_cons_comma] at squeezed
    exact squeezed
  · simp only [if_neg isHead]
    exact squeezed

theorem head?_ne_comma {field : Text} (noComma : ',' ∉ field) : field.head? ≠ some ',' :=
  fun isHead => noComma (List.mem_of_mem_head? isHead)

/-- Only the list of members changes. -/
theorem addMemberLine_eq {name password gid : Text} (nameForm : ',' ∉ name)
    (passwordForm : ',' ∉ password) (gidForm : ',' ∉ gid) (username group members : Text) :
    addMemberLine username group [name, password, gid, members] =
      [name, password, gid, addMemberField username (decide (name = group)) members] := by
  have squeezed : ∀ members, squeeze [name, password, gid, members] =
      [name, password, gid, if ',' ∈ members then squeezeField members else members] := by
    intro members
    rw [squeeze, if_neg nameForm, squeeze, if_neg passwordForm, squeeze, if_neg gidForm, squeeze,
      squeeze]
    split <;> rfl
  have unled : ∀ members, unlead [name, password, gid, members] =
      [name, password, gid, if members.head? = some ',' then members.tail else members] := by
    intro members
    rw [unlead, unleadFields, if_neg (head?_ne_comma passwordForm), unleadFields,
      if_neg (head?_ne_comma gidForm), unleadFields, unleadFields]
    split <;> rfl
  have cleaned : ∀ members, unlead (squeeze [name, password, gid, members]) =
      [name, password, gid, cleanMembers members] := by
    intro members
    rw [squeezed, unled, cleanMembers]
  by_cases same : name = group
  · subst same
    have isHeaded : ∀ members, headed name [name, password, gid, members] = true := by
      intro members
      simp [headed]
    simp only [addMemberLine, mapLast, isHeaded, List.length_cons, List.length_nil, true_and,
      Nat.reduceAdd, Nat.reduceLeDiff, if_true]
    exact cleaned _
  · have notHeaded : headed group [name, password, gid, members] = false := by
      simp [headed, same]
    simp only [addMemberLine, notHeaded, addMemberField, same, Bool.false_eq_true, false_and,
      if_false, decide_false]
    exact cleaned _

theorem GroupForm.addMemberLine {line : Line} (form : GroupForm line) (username group : Text) :
    GroupForm (addMemberLine username group line) ∧
      (Users.addMemberLine username group line).take 3 = line.take 3 := by
  obtain ⟨name, password, gid, members, nameForm, passwordForm, gidForm⟩ := form
  rw [addMemberLine_eq nameForm passwordForm gidForm]
  exact ⟨.line _ _ _ _ nameForm passwordForm gidForm, rfl⟩

theorem GroupForm.length {line : Line} (form : GroupForm line) : line.length = 4 := by
  cases form
  rfl

/-- A line of the group file is deleted with its name. -/
theorem GroupForm.headed {line : Line} (form : GroupForm line) (group : Text) :
    headed group line = decide (line.field 1 = group) := by
  obtain ⟨name, password, gid, members, _, _, _⟩ := form
  simp [Users.headed, Line.field]

/-- The members of the list behind `add_user_to_group`: the user, in the line of the group, and
nobody else comes or goes. -/
theorem mem_listed_addMemberField {username member : Text} (noComma : ',' ∉ username)
    (named : username ≠ []) (inGroup : Bool) (members : Text) :
    member ∈ listed (addMemberField username inGroup members) ↔
      member ∈ listed members ∨ member = username ∧ inGroup = true := by
  rw [addMemberField, listed_cleanMembers]
  cases inGroup with
  | false => simp
  | true =>
    have alone : member ∈ listed username ↔ member = username := by
      rw [mem_listed, List.splitOn_eq_singleton noComma, List.mem_singleton]
      exact and_iff_left_of_imp fun same => same ▸ named
    obtain ⟨fewer, others⟩ := listed_removeMember username members
    rw [if_pos rfl, listed_append_comma, List.mem_append, alone, and_iff_left rfl]
    constructor
    · exact fun inside => inside.imp_left (fewer member)
    · rintro (inside | isUser)
      · exact (em (member = username)).symm.imp_left (others member inside)
      · exact Or.inr isUser

/-! ### Lines without empty members -/

/-- A field whose list has no empty member. -/
def TidyField (field : Text) : Prop := field = [] ∨ [] ∉ field.splitOn ','

instance : DecidablePred TidyField := fun field =>
  inferInstanceAs (Decidable (field = [] ∨ [] ∉ field.splitOn ','))

/-- A line whose fields have no empty members. -/
def Tidy (line : Line) : Prop := ∀ field ∈ line, TidyField field

instance : DecidablePred Tidy := fun line =>
  inferInstanceAs (Decidable (∀ field ∈ line, TidyField field))

theorem nil_mem_splitOn_comma (rest : Text) : [] ∈ (',' :: rest).splitOn ',' := by
  have split := List.splitOn_append_cons_self (a := ',') [] rest
  rw [List.nil_append, List.splitOn_nil] at split
  rw [split]
  exact List.mem_cons_self

theorem TidyField.head? {field : Text} (tidy : TidyField field) : field.head? ≠ some ',' := by
  intro isHead
  obtain ⟨rest, rfl⟩ := List.head?_eq_some_iff.mp isHead
  exact tidy.elim nofun fun none => none (nil_mem_splitOn_comma rest)

theorem TidyField.squeezeField {field : Text} (tidy : TidyField field) (has : ',' ∈ field) :
    squeezeField field = field := by
  obtain ⟨before, after, rfl, noComma⟩ := List.eq_append_cons_of_mem has
  rw [squeezeField_append noComma]
  cases after with
  | nil => rfl
  | cons c rest =>
    rw [List.dropWhile_cons_of_neg]
    intro comma
    rw [beq_iff_eq.mp comma] at tidy
    refine tidy.elim (List.append_ne_nil_of_right_ne_nil before nofun) fun none => none ?_
    rw [List.splitOn_append_cons_self]
    exact List.mem_append_right _ (nil_mem_splitOn_comma rest)

/-- The clean-up changes nothing on a tidy line. -/
theorem Tidy.unlead_squeeze {line : Line} (tidy : Tidy line) : unlead (squeeze line) = line := by
  have squeezed : squeeze line = line := by
    induction line with
    | nil => rfl
    | cons field rest inductionHypothesis =>
      obtain ⟨tidyField, tidyRest⟩ := List.forall_mem_cons.mp tidy
      rw [squeeze]
      by_cases has : ',' ∈ field
      · rw [if_pos has, tidyField.squeezeField has]
      · rw [if_neg has, inductionHypothesis tidyRest]
  have unled : ∀ fields : Line, Tidy fields → unleadFields fields = fields := by
    intro fields tidyFields
    induction fields with
    | nil => rfl
    | cons field rest inductionHypothesis =>
      obtain ⟨tidyField, tidyRest⟩ := List.forall_mem_cons.mp tidyFields
      rw [unleadFields, if_neg tidyField.head?, inductionHypothesis tidyRest]
  rw [squeezed]
  cases line with
  | nil => rfl
  | cons field rest => rw [unlead, unled rest (List.forall_mem_cons.mp tidy).2]

/-- A tidy line of another group stays as it is. -/
theorem Tidy.addMemberLine {line : Line} (tidy : Tidy line) {group : Text}
    (other : Users.headed group line = false) (username : Text) :
    addMemberLine username group line = line := by
  simp only [Users.addMemberLine, other, Bool.false_eq_true, false_and, if_false]
  exact tidy.unlead_squeeze

end Buildroot4G.Users
