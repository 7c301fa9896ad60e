/-
This file proves what `add_user_to_group` does to the files of the groups. The expression
`s/,+/,/` has no `g`: it squeezes the first run of commas of a line only, and the one before
it may be left by a user that was no member before the third. A line of the group gets the user
behind its other members, and no other line changes, exactly when neither is the case.
-/

import Mathlib.Data.List.Forall2
import Buildroot4G.Users.Run

namespace Buildroot4G.Users

open Shell

/-- The members of a list with commas, empty ones included. -/
def splitMembers (members : Text) : List Text := if members = [] then [] else members.splitOn ','

/-- The members of a line are those of the text after the last colon. -/
def memberList (line : Line) : List Text := splitMembers (line.getLast?.getD [])

/-- A line of the group, with a list of members in which none is missing or comes twice. -/
structure IsGroupLine (group : Text) (line : Line) : Prop where
  length : line.length = 4
  head : line.head? = some group
  nodup : (memberList line).Nodup
  named : [] ∉ memberList line

/-- The user is the last member, behind the others in their order; a line of another group is the
same. -/
def AddsMember (username group : Text) (before after : Line) : Prop :=
  (IsGroupLine group before →
    memberList after = (memberList before).filter (fun member => member ≠ username) ++ [username]) ∧
  (headed group before = false → after = before)

/-! ### The condition -/

/-- No field behind the first begins with a comma. -/
def NoLeading (line : Line) : Prop := ∀ field ∈ line.tail, field.head? ≠ some ','

/-- The first comma of the line has no comma behind it. -/
def FirstSingle : Line → Prop
  | [] => True
  | field :: rest =>
    if ',' ∈ field then ((field.dropWhile fun c => c != ',').tail).head? ≠ some ','
    else FirstSingle rest

/-- Where the user is in the list of members: the two fields before it may begin with a comma, when
there is no comma in front of the user's; they may have none, when there is one, and it may
not be the second one. -/
def Fits (username second third : Text) : List Text → Prop
  | [] => second.head? ≠ some ',' ∧ third.head? ≠ some ','
  | [member] => member = username → second.head? ≠ some ',' ∧ third.head? ≠ some ','
  | first :: next :: rest =>
    (first = username → second.head? ≠ some ',' ∧ third.head? ≠ some ',') ∧
      (next = username → ',' ∉ second ∧ ',' ∉ third) ∧ username ∉ rest

/-- The lines that the four expressions change as they should. -/
def Accepts (username group : Text) (line : Line) : Prop :=
  (IsGroupLine group line → Fits username (line.field 2) (line.field 3) (memberList line)) ∧
    (headed group line = false → FirstSingle line ∧ NoLeading line)

/-! ### Lines of other groups -/

theorem squeeze_eq_or_lt (line : Line) :
    (FirstSingle line ∧ squeeze line = line) ∨
      ¬FirstSingle line ∧ (squeeze line).flatten.length < line.flatten.length := by
  induction line with
  | nil => exact Or.inl ⟨trivial, rfl⟩
  | cons field rest inductionHypothesis =>
    rw [FirstSingle, squeeze]
    by_cases has : ',' ∈ field
    · rw [if_pos has, if_pos has]
      obtain ⟨before, after, rfl, noComma⟩ := List.eq_append_cons_of_mem has
      have stays : ∀ c ∈ before, (c != ',') = true :=
        fun c member => bne_iff_ne.mpr fun same => noComma (same ▸ member)
      have behind : ((before ++ ',' :: after).dropWhile fun c => c != ',').tail = after := by
        rw [List.dropWhile_append_of_pos stays]
        simp
      rw [behind, squeezeField_append noComma]
      cases after with
      | nil => exact Or.inl ⟨fun leads => absurd leads (by simp), rfl⟩
      | cons c tail =>
        by_cases comma : c = ','
        · subst comma
          refine Or.inr ⟨fun single => single rfl, ?_⟩
          have shorter : (tail.dropWhile fun c => c == ',').length ≤ tail.length :=
            (List.dropWhile_suffix _).length_le
          simp
          omega
        · refine Or.inl ⟨fun leads => comma (Option.some.inj leads), ?_⟩
          rw [List.dropWhile_cons_of_neg (by simpa using comma)]
    · rw [if_neg has, if_neg has]
      rcases inductionHypothesis with ⟨single, same⟩ | ⟨double, shorter⟩
      · exact Or.inl ⟨single, by rw [same]⟩
      · exact Or.inr ⟨double, by simpa using shorter⟩

theorem unlead_eq_or_lt (line : Line) :
    (NoLeading line ∧ unlead line = line) ∨
      ¬NoLeading line ∧ (unlead line).flatten.length < line.flatten.length := by
  have general : ∀ fields : Line,
      ((∀ field ∈ fields, field.head? ≠ some ',') ∧ unleadFields fields = fields) ∨
        (¬∀ field ∈ fields, field.head? ≠ some ',') ∧
          (unleadFields fields).flatten.length < fields.flatten.length := by
    intro fields
    induction fields with
    | nil => exact Or.inl ⟨fun _ member => absurd member List.not_mem_nil, rfl⟩
    | cons field rest inductionHypothesis =>
      rw [unleadFields, List.forall_mem_cons]
      by_cases leads : field.head? = some ','
      · refine Or.inr ⟨fun free => free.1 leads, ?_⟩
        obtain ⟨tail, rfl⟩ := List.head?_eq_some_iff.mp leads
        simp
      · rw [if_neg leads]
        rcases inductionHypothesis with ⟨free, same⟩ | ⟨leads, shorter⟩
        · exact Or.inl ⟨⟨leads, free⟩, by rw [same]⟩
        · exact Or.inr ⟨fun free => leads free.2, by simpa using shorter⟩
  cases line with
  | nil => exact Or.inl ⟨fun _ member => absurd member List.not_mem_nil, rfl⟩
  | cons field rest =>
    rcases general rest with ⟨free, same⟩ | ⟨leads, shorter⟩
    · exact Or.inl ⟨free, by rw [unlead, same]⟩
    · exact Or.inr ⟨leads, by simpa [unlead] using shorter⟩

/-- The clean-up leaves a line as it is. -/
theorem unlead_squeeze_eq_iff (line : Line) :
    unlead (squeeze line) = line ↔ FirstSingle line ∧ NoLeading line := by
  rcases squeeze_eq_or_lt line with ⟨single, same⟩ | ⟨double, shorter⟩
  · rw [same, and_iff_right single]
    rcases unlead_eq_or_lt line with ⟨free, same⟩ | ⟨leads, shorter⟩
    · exact iff_of_true same free
    · refine iff_of_false (fun same => ?_) leads
      rw [same] at shorter
      exact Nat.lt_irrefl _ shorter
  · refine iff_of_false (fun same => ?_) fun both => double both.1
    have notLonger : (unlead (squeeze line)).flatten.length ≤ (squeeze line).flatten.length := by
      rcases unlead_eq_or_lt (squeeze line) with ⟨-, same⟩ | ⟨-, shorter⟩
      · rw [same]
      · exact shorter.le
    rw [same] at notLonger
    omega

/-! ### The list of members -/

theorem clearLast_of_not_mem {name : Text} {members : List Text} (absent : name ∉ members) :
    clearLast name members = none := by
  induction members with
  | nil => rfl
  | cons head rest inductionHypothesis =>
    obtain ⟨notHead, notRest⟩ := not_or.mp (mt List.mem_cons.mpr absent)
    rw [clearLast, inductionHypothesis notRest]
    exact if_neg (Ne.symm notHead)

/-- The last member with the name becomes empty. -/
theorem clearLast_append {name : Text} (before : List Text) {after : List Text}
    (last : name ∉ after) :
    clearLast name (before ++ name :: after) = some (before ++ [] :: after) := by
  induction before with
  | nil =>
    rw [List.nil_append, clearLast, clearLast_of_not_mem last]
    exact if_pos rfl
  | cons head rest inductionHypothesis =>
    rw [List.cons_append, clearLast, inductionHypothesis]
    rfl

theorem clearMember_of_not_mem {name : Text} {members : List Text} (absent : name ∉ members) :
    clearMember name members = none := by
  match members with
  | [] | [_] => exact clearLast_of_not_mem absent
  | first :: second :: rest =>
    simp only [List.mem_cons, not_or] at absent
    obtain ⟨notFirst, notSecond, notRest⟩ := absent
    rw [clearMember, clearLast_of_not_mem notRest]
    simp only
    rw [if_neg fun isSecond => notSecond isSecond.1.symm, if_neg (Ne.symm notFirst)]

theorem clearMember_append {name : Text} {before after : List Text} (named : [] ∉ before)
    (last : name ∉ after) :
    clearMember name (before ++ name :: after) = some (before ++ [] :: after) := by
  match before, after with
  | [], [] => exact clearLast_append [] last
  | [], second :: rest =>
    obtain ⟨notSecond, notRest⟩ := not_or.mp (mt List.mem_cons.mpr last)
    rw [List.nil_append, clearMember, clearLast_of_not_mem notRest]
    simp only
    rw [if_neg fun isSecond => notSecond isSecond.1.symm]
    exact if_pos trivial
  | [first], after =>
    rw [List.singleton_append, clearMember, clearLast_of_not_mem last]
    exact if_pos ⟨rfl, fun empty => named (empty ▸ List.mem_cons_self)⟩
  | first :: second :: rest, after =>
    rw [List.cons_append, List.cons_append, clearMember, clearLast_append rest last]
    rfl

/-- The text after the last colon, behind the two clean-up expressions. -/
def cleanedField (second third members : Text) : Text :=
  let squeezed :=
    if ',' ∈ second ∨ ',' ∈ third then members
    else if ',' ∈ members then squeezeField members else members
  if second.head? = some ',' ∨ third.head? = some ',' then squeezed
  else if squeezed.head? = some ',' then squeezed.tail else squeezed

theorem head?_squeezeField {field : Text} (has : ',' ∈ field) :
    (squeezeField field).head? = some ',' ↔ field.head? = some ',' := by
  obtain ⟨before, after, rfl, noComma⟩ := List.eq_append_cons_of_mem has
  rw [squeezeField_append noComma]
  cases before with
  | nil => exact iff_of_true rfl rfl
  | cons c rest => exact Iff.rfl

theorem getLast_unlead_squeeze {group : Text} (noComma : ',' ∉ group)
    (second third members : Text) :
    (unlead (squeeze [group, second, third, members])).getLast?.getD [] =
      cleanedField second third members := by
  have unled : ∀ second third members : Text,
      (unlead [group, second, third, members]).getLast?.getD [] =
        if second.head? = some ',' ∨ third.head? = some ',' then members
        else if members.head? = some ',' then members.tail else members := by
    intro second third members
    rw [unlead, unleadFields]
    by_cases leads : second.head? = some ','
    · rw [if_pos leads, if_pos (Or.inl leads)]
      rfl
    rw [if_neg leads, unleadFields]
    by_cases leadsThird : third.head? = some ','
    · rw [if_pos leadsThird, if_pos (Or.inr leadsThird)]
      rfl
    rw [if_neg leadsThird, if_neg (not_or.mpr ⟨leads, leadsThird⟩), unleadFields, unleadFields]
    split <;> rfl
  rw [squeeze, if_neg noComma, squeeze, cleanedField]
  by_cases inSecond : ',' ∈ second
  · rw [if_pos inSecond, if_pos (Or.inl inSecond), unled]
    simp only [head?_squeezeField inSecond]
  rw [if_neg inSecond, squeeze]
  by_cases inThird : ',' ∈ third
  · rw [if_pos inThird, if_pos (Or.inr inThird), unled]
    simp only [head?_squeezeField inThird]
  rw [if_neg inThird, if_neg (not_or.mpr ⟨inSecond, inThird⟩), squeeze, squeeze]
  have moved : (if ',' ∈ members then [squeezeField members] else [members]) =
      [if ',' ∈ members then squeezeField members else members] := by
    split <;> rfl
  rw [moved, unled]

section Cleaned

variable {second third before after : Text}

theorem head?_append_comma (nonempty : before ≠ []) (noComma : ',' ∉ before) (after : Text) :
    (before ++ ',' :: after).head? ≠ some ',' := by
  rw [List.head?_append_of_ne_nil before nonempty]
  exact head?_ne_comma noComma

theorem dropWhile_comma (noLead : after.head? ≠ some ',') :
    (after.dropWhile fun c => c == ',') = after := by
  cases after with
  | nil => rfl
  | cons c rest =>
    rw [List.dropWhile_cons_of_neg]
    simpa using noLead

/-- A comma at the beginning goes. -/
theorem cleanedField_lead (noDouble : after.head? ≠ some ',') :
    cleanedField second third (',' :: after) =
      if second.head? = some ',' ∨ third.head? = some ',' then ',' :: after else after := by
  have squeezed : squeezeField (',' :: after) = ',' :: after := by
    rw [← List.nil_append (',' :: after), squeezeField_append List.not_mem_nil,
      dropWhile_comma noDouble]
  rw [cleanedField, squeezed, if_pos List.mem_cons_self, ite_self]
  rfl

/-- One of two commas goes. -/
theorem cleanedField_double (nonempty : before ≠ []) (noComma : ',' ∉ before)
    (noTriple : after.head? ≠ some ',') :
    cleanedField second third (before ++ ',' :: ',' :: after) =
      if ',' ∈ second ∨ ',' ∈ third then before ++ ',' :: ',' :: after
      else before ++ ',' :: after := by
  have leads := head?_append_comma nonempty noComma
  have squeezed : squeezeField (before ++ ',' :: ',' :: after) = before ++ ',' :: after := by
    rw [squeezeField_append noComma, List.dropWhile_cons_of_pos (by rfl), dropWhile_comma noTriple]
  have has : ',' ∈ before ++ ',' :: ',' :: after := List.mem_append_right _ List.mem_cons_self
  rw [cleanedField, squeezed, if_pos has]
  by_cases inOther : ',' ∈ second ∨ ',' ∈ third
  · rw [if_pos inOther, if_neg (leads _), ite_self]
  · rw [if_neg inOther, if_neg (leads _), ite_self]

/-- A single comma stays. -/
theorem cleanedField_single (nonempty : before ≠ []) (noComma : ',' ∉ before)
    (noDouble : after.head? ≠ some ',') :
    cleanedField second third (before ++ ',' :: after) = before ++ ',' :: after := by
  have squeezed : squeezeField (before ++ ',' :: after) = before ++ ',' :: after := by
    rw [squeezeField_append noComma, dropWhile_comma noDouble]
  rw [cleanedField, squeezed, ite_self, ite_self,
    if_neg (head?_append_comma nonempty noComma after), ite_self]

end Cleaned

/-! ### The members that are put together -/

section Pieces

variable (second third : Text) {first next : Text} {rest : List Text}

theorem splitMembers_intercalate (noComma : ∀ member ∈ first :: next :: rest, ',' ∉ member) :
    splitMembers ([','].intercalate (first :: next :: rest)) = first :: next :: rest := by
  have nonempty : [','].intercalate (first :: next :: rest) ≠ [] := by
    rw [List.intercalate_cons_cons]
    simp
  rw [splitMembers, if_neg nonempty, List.splitOn_intercalate ',' noComma (List.cons_ne_nil _ _)]

theorem head?_intercalate (nonempty : next ≠ []) (noComma : ',' ∉ next) :
    ([','].intercalate (next :: rest)).head? ≠ some ',' := by
  cases rest with
  | nil =>
    rw [List.intercalate_singleton]
    exact head?_ne_comma noComma
  | cons other rest =>
    rw [List.intercalate_cons_cons, List.append_assoc, List.head?_append_of_ne_nil next nonempty]
    exact head?_ne_comma noComma

/-- The user was the first member. -/
theorem splitMembers_cleaned_lead (nonempty : next ≠ [])
    (noComma : ∀ member ∈ next :: rest, ',' ∉ member) :
    splitMembers (cleanedField second third ([','].intercalate ([] :: next :: rest))) =
      if second.head? = some ',' ∨ third.head? = some ',' then [] :: next :: rest
      else next :: rest := by
  have isNext := noComma next List.mem_cons_self
  have text : [','].intercalate ([] :: next :: rest) = ',' :: [','].intercalate (next :: rest) :=
    List.intercalate_cons_cons
  have all : ∀ member ∈ [] :: next :: rest, ',' ∉ member :=
    List.forall_mem_cons.mpr ⟨List.not_mem_nil, noComma⟩
  rw [text, cleanedField_lead (head?_intercalate nonempty isNext)]
  split
  · rw [← text, splitMembers_intercalate all]
  · have isNot : [','].intercalate (next :: rest) ≠ [] := by
      cases rest with
      | nil => rwa [List.intercalate_singleton]
      | cons other rest =>
        rw [List.intercalate_cons_cons]
        simp
    rw [splitMembers, if_neg isNot, List.splitOn_intercalate ',' noComma (List.cons_ne_nil _ _)]

/-- The user was the second member. -/
theorem splitMembers_cleaned_double (isFirst : first ≠ []) (nonempty : next ≠ [])
    (noComma : ∀ member ∈ first :: next :: rest, ',' ∉ member) :
    splitMembers (cleanedField second third ([','].intercalate (first :: [] :: next :: rest))) =
      if ',' ∈ second ∨ ',' ∈ third then first :: [] :: next :: rest
      else first :: next :: rest := by
  obtain ⟨firstFree, noComma'⟩ := List.forall_mem_cons.mp noComma
  have isNext := noComma' next List.mem_cons_self
  have text : [','].intercalate (first :: [] :: next :: rest) =
      first ++ ',' :: ',' :: [','].intercalate (next :: rest) := by
    rw [List.intercalate_cons_cons, List.intercalate_cons_cons]
    simp
  have text' : [','].intercalate (first :: next :: rest) =
      first ++ ',' :: [','].intercalate (next :: rest) := by
    rw [List.intercalate_cons_cons]
    simp
  have all : ∀ member ∈ first :: [] :: next :: rest, ',' ∉ member :=
    List.forall_mem_cons.mpr ⟨firstFree, List.forall_mem_cons.mpr ⟨List.not_mem_nil, noComma'⟩⟩
  rw [text, cleanedField_double isFirst firstFree (head?_intercalate nonempty isNext)]
  split
  · rw [← text, splitMembers_intercalate all]
  · rw [← text', splitMembers_intercalate noComma]

/-- No member before the third is missing. -/
theorem splitMembers_cleaned_single (isFirst : first ≠ []) (nonempty : next ≠ [])
    (noComma : ∀ member ∈ first :: next :: rest, ',' ∉ member) :
    splitMembers (cleanedField second third ([','].intercalate (first :: next :: rest))) =
      first :: next :: rest := by
  obtain ⟨firstFree, noComma'⟩ := List.forall_mem_cons.mp noComma
  have text : [','].intercalate (first :: next :: rest) =
      first ++ ',' :: [','].intercalate (next :: rest) := by
    rw [List.intercalate_cons_cons]
    simp
  rw [text, cleanedField_single isFirst firstFree
    (head?_intercalate nonempty (noComma' next List.mem_cons_self)), ← text,
    splitMembers_intercalate noComma]

end Pieces

/-! ### A line of the group -/

theorem intercalate_append_singleton {members : List Text} (nonempty : members ≠ [])
    (last : Text) :
    [','].intercalate (members ++ [last]) = [','].intercalate members ++ ',' :: last := by
  induction members with
  | nil => exact absurd rfl nonempty
  | cons first rest inductionHypothesis =>
    cases rest with
    | nil =>
      rw [List.singleton_append, List.intercalate_cons_cons, List.intercalate_singleton,
        List.intercalate_singleton, List.append_assoc]
      rfl
    | cons next rest =>
      rw [List.cons_append, List.cons_append, List.intercalate_cons_cons, ← List.cons_append,
        inductionHypothesis (List.cons_ne_nil next rest), List.intercalate_cons_cons,
        List.append_assoc, List.append_assoc, List.append_assoc]

/-- What `splitOn` makes of the list of members. -/
def pieces : List Text → List Text
  | [] => [[]]
  | first :: rest => first :: rest

theorem pieces_splitMembers (members : Text) :
    pieces (splitMembers members) = members.splitOn ',' := by
  rw [splitMembers]
  by_cases none : members = []
  · rw [if_pos none, none, List.splitOn_nil]
    rfl
  · rw [if_neg none]
    cases split : members.splitOn ',' with
    | nil => exact absurd split (List.splitOn_ne_nil _ _)
    | cons first rest => rfl

/-- The members behind the first two expressions: the user is the last one, and the place it had is
empty. -/
def moved (username : Text) (members : List Text) : List Text :=
  (clearMember username (pieces members)).getD (pieces members) ++ [username]

theorem moved_append {username : Text} {members before after : List Text}
    (place : members = before ++ username :: after) (named : [] ∉ before)
    (last : username ∉ after) : moved username members = before ++ [] :: (after ++ [username]) := by
  have isPieces : pieces members = before ++ username :: after := by
    rw [place]
    cases before <;> rfl
  rw [moved, isPieces, clearMember_append named last, Option.getD_some, List.append_assoc,
    List.cons_append]

theorem removeMember_append (username members : Text) :
    removeMember username members ++ ',' :: username =
      [','].intercalate (moved username (splitMembers members)) := by
  rw [removeMember, moved, pieces_splitMembers]
  cases clears : clearMember username (members.splitOn ',') with
  | none =>
    rw [Option.getD_none, intercalate_append_singleton (List.splitOn_ne_nil _ _),
      List.intercalate_splitOn]
  | some cleared =>
    rw [Option.getD_some, intercalate_append_singleton (ne_nil_of_clearMember clears)]

/-- The members of a line of the group behind all four expressions. -/
def added (username second third : Text) (members : List Text) : List Text :=
  splitMembers (cleanedField second third ([','].intercalate (moved username members)))

/-- The members without the user, and the user. -/
def wanted (username : Text) (members : List Text) : List Text :=
  members.filter (fun member => member ≠ username) ++ [username]

theorem wanted_of_not_mem {username : Text} {members : List Text} (absent : username ∉ members) :
    wanted username members = members ++ [username] := by
  rw [wanted, List.filter_eq_self.mpr]
  exact fun member inside => decide_eq_true fun same => absent (same ▸ inside)

section User

variable {username : Text} (named : username ≠ []) (noComma : ',' ∉ username)
  (second third : Text)

include noComma in
theorem free_append {members : List Text} (free : ∀ member ∈ members, ',' ∉ member) :
    ∀ member ∈ members ++ [username], ',' ∉ member := by
  intro member inside
  rcases List.mem_append.mp inside with inside | isUser
  · exact free member inside
  · rwa [List.mem_singleton.mp isUser]

include named noComma

/-- The user is the only member of an empty list. -/
theorem added_alone {members : List Text} (alone : moved username members = [[], username])
    (want : wanted username members = [username]) :
    added username second third members = wanted username members ↔
      second.head? ≠ some ',' ∧ third.head? ≠ some ',' := by
  rw [added, alone, want, ← not_or,
    splitMembers_cleaned_lead second third named (List.forall_mem_singleton.mpr noComma)]
  split
  · rename_i leads
    exact iff_of_false (fun same => by cases same) (not_not.mpr leads)
  · rename_i leads
    exact iff_of_true rfl leads

variable {first next : Text} {rest : List Text}
  (free : ∀ member ∈ first :: next :: rest, ',' ∉ member)
  (allNamed : ∀ member ∈ first :: next :: rest, member ≠ [])

include free allNamed

omit named in
/-- The user is the first of several members. -/
theorem added_first (isFirst : first = username) (nodup : username ∉ next :: rest) :
    added username second third (first :: next :: rest) =
        wanted username (first :: next :: rest) ↔
      second.head? ≠ some ',' ∧ third.head? ≠ some ',' := by
  have cleared : moved username (first :: next :: rest) = [] :: next :: (rest ++ [username]) :=
    @moved_append _ _ [] _ (congrArg (· :: _) isFirst) List.not_mem_nil nodup
  have want : wanted username (first :: next :: rest) = next :: (rest ++ [username]) := by
    rw [wanted, List.filter_cons_of_neg (by simpa using isFirst)]
    exact wanted_of_not_mem nodup
  have nextNamed := allNamed next (List.mem_cons_of_mem first List.mem_cons_self)
  have lead : splitMembers (cleanedField second third
        ([','].intercalate ([] :: next :: (rest ++ [username])))) = _ :=
    splitMembers_cleaned_lead second third nextNamed
      (free_append noComma (List.forall_mem_cons.mp free).2)
  rw [added, cleared, want, lead, ← not_or]
  split
  · rename_i leads
    exact iff_of_false (fun same => nextNamed (List.cons.inj same).1.symm) (not_not.mpr leads)
  · rename_i leads
    exact iff_of_true rfl leads

/-- The user is the second member. -/
theorem added_second (notFirst : first ≠ username) (isNext : next = username)
    (nodup : username ∉ rest) :
    added username second third (first :: next :: rest) =
        wanted username (first :: next :: rest) ↔ ',' ∉ second ∧ ',' ∉ third := by
  have firstNamed := allNamed first List.mem_cons_self
  have noneNamed : [] ∉ [first] := by
    rw [List.mem_singleton]
    exact Ne.symm firstNamed
  have cleared : moved username (first :: next :: rest) = first :: [] :: (rest ++ [username]) :=
    @moved_append _ _ [first] _ (by rw [isNext]; rfl) noneNamed nodup
  have want : wanted username (first :: next :: rest) = first :: (rest ++ [username]) := by
    rw [wanted, List.filter_cons_of_pos (by simpa using notFirst),
      List.filter_cons_of_neg (by simpa using isNext)]
    exact congrArg (first :: ·) (wanted_of_not_mem nodup)
  obtain ⟨firstFree, restFree⟩ := List.forall_mem_cons.mp free
  have allFree : ∀ member ∈ first :: (rest ++ [username]), ',' ∉ member :=
    free_append noComma (List.forall_mem_cons.mpr ⟨firstFree, (List.forall_mem_cons.mp restFree).2⟩)
  have double : splitMembers (cleanedField second third
        ([','].intercalate (first :: [] :: (rest ++ [username])))) =
      if ',' ∈ second ∨ ',' ∈ third then first :: [] :: (rest ++ [username])
      else first :: (rest ++ [username]) := by
    cases rest with
    | nil => exact splitMembers_cleaned_double second third firstNamed named allFree
    | cons other rest =>
      have otherNamed : other ≠ [] :=
        allNamed other (List.mem_cons_of_mem _ (List.mem_cons_of_mem _ List.mem_cons_self))
      exact splitMembers_cleaned_double second third firstNamed otherNamed allFree
  rw [added, cleared, want, double, ← not_or]
  split
  · rename_i inOther
    refine iff_of_false (fun same => ?_) (not_not.mpr inOther)
    simpa using congrArg List.length same
  · rename_i inOther
    exact iff_of_true rfl inOther

/-- A user behind the second member leaves an empty one. -/
theorem added_later {before after : List Text} (place : rest = before ++ username :: after)
    (nodup : username ∉ after) :
    added username second third (first :: next :: rest) ≠
      wanted username (first :: next :: rest) := by
  have noneNamed : [] ∉ first :: next :: before := by
    intro empty
    refine allNamed [] ?_ rfl
    rw [place]
    exact List.mem_append_left (username :: after) empty
  have cleared : moved username (first :: next :: rest) =
      first :: next :: (before ++ [] :: (after ++ [username])) :=
    @moved_append _ _ (first :: next :: before) _ (by rw [place]; rfl) noneNamed nodup
  have clearedFree : ∀ member ∈ first :: next :: (before ++ [] :: after), ',' ∉ member := by
    intro member inside
    by_cases empty : member = []
    · rw [empty]
      exact List.not_mem_nil
    · refine free member ?_
      rw [place]
      simp only [List.mem_cons, List.mem_append, empty, false_or] at inside ⊢
      tauto
  have single : splitMembers (cleanedField second third
        ([','].intercalate (first :: next :: (before ++ [] :: after ++ [username])))) = _ :=
    splitMembers_cleaned_single second third (allNamed first List.mem_cons_self)
      (allNamed next (List.mem_cons_of_mem first List.mem_cons_self))
      (free_append noComma clearedFree)
  rw [List.append_assoc, List.cons_append] at single
  rw [added, cleared, single]
  intro same
  have empty : [] ∈ wanted username (first :: next :: rest) := by
    rw [← same]
    simp
  rcases List.mem_append.mp empty with inside | isUser
  · exact allNamed [] (List.mem_of_mem_filter inside) rfl
  · exact named (List.mem_singleton.mp isUser).symm

omit named in
/-- The user is no member. -/
theorem added_absent (absent : username ∉ first :: next :: rest) :
    added username second third (first :: next :: rest) =
      wanted username (first :: next :: rest) := by
  rw [added, moved, pieces, clearMember_of_not_mem absent, wanted_of_not_mem absent]
  exact splitMembers_cleaned_single second third (allNamed first List.mem_cons_self)
    (allNamed next (List.mem_cons_of_mem first List.mem_cons_self)) (free_append noComma free)

omit free allNamed

/-- By the place of the user. -/
theorem added_iff {members : List Text} (free : ∀ member ∈ members, ',' ∉ member)
    (nodup : members.Nodup) (allNamed : ∀ member ∈ members, member ≠ []) :
    added username second third members = wanted username members ↔
      Fits username second third members := by
  match members with
  | [] =>
    refine added_alone named noComma second third ?_ rfl
    rw [moved, pieces, clearMember_of_not_mem (by rw [List.mem_singleton]; exact named)]
    rfl
  | [member] =>
    by_cases isUser : member = username
    · rw [Fits, imp_iff_right isUser]
      refine added_alone named noComma second third ?_ ?_
      · exact @moved_append _ _ [] [] (congrArg ([·]) isUser) List.not_mem_nil List.not_mem_nil
      · rw [wanted, List.filter_cons_of_neg (by simpa using isUser)]
        rfl
    · have absent : username ∉ [member] := by
        rw [List.mem_singleton]
        exact Ne.symm isUser
      refine iff_of_true ?_ fun same => absurd same isUser
      rw [added, moved, pieces, clearMember_of_not_mem absent, wanted_of_not_mem absent]
      exact splitMembers_cleaned_single second third (allNamed member List.mem_cons_self) named
        (free_append noComma free)
  | first :: next :: rest =>
    obtain ⟨notFirst, nodup⟩ := List.nodup_cons.mp nodup
    obtain ⟨notNext, nodup⟩ := List.nodup_cons.mp nodup
    rw [Fits]
    by_cases isFirst : first = username
    · rw [isFirst] at notFirst
      rw [added_first noComma second third free allNamed isFirst notFirst,
        imp_iff_right isFirst]
      obtain ⟨otherNext, notRest⟩ := not_or.mp (mt List.mem_cons.mpr notFirst)
      exact (and_iff_left ⟨fun same => absurd same.symm otherNext, notRest⟩).symm
    rw [and_iff_right fun same => absurd same isFirst]
    by_cases isNext : next = username
    · rw [isNext] at notNext
      rw [added_second named noComma second third free allNamed isFirst isNext notNext,
        imp_iff_right isNext]
      exact (and_iff_left notNext).symm
    rw [and_iff_right fun same => absurd same isNext]
    by_cases isLater : username ∈ rest
    · obtain ⟨before, after, place⟩ := List.append_of_mem isLater
      refine iff_of_false ?_ (not_not.mpr isLater)
      refine added_later named noComma second third free allNamed place ?_
      rw [place] at nodup
      exact (List.nodup_cons.mp (List.nodup_append.mp nodup).2.1).1
    · refine iff_of_true (added_absent noComma second third free allNamed ?_) isLater
      simp only [List.mem_cons, not_or]
      exact ⟨Ne.symm isFirst, Ne.symm isNext, isLater⟩

end User

theorem memberList_addMemberLine {username group second third members : Text}
    (noComma : ',' ∉ group) :
    memberList (addMemberLine username group [group, second, third, members]) =
      added username second third (splitMembers members) := by
  have isHeaded : ∀ members, headed group [group, second, third, members] = true := by
    intro members
    simp [headed]
  simp only [addMemberLine, mapLast, isHeaded, List.length_cons, List.length_nil, true_and,
    Nat.reduceAdd, Nat.reduceLeDiff, if_true]
  rw [memberList, getLast_unlead_squeeze noComma, removeMember_append, added]

/-! ### The files -/

/-- One line. -/
theorem addsMember_iff {username group : Text} (named : username ≠ []) (noComma : ',' ∉ username)
    (groupFree : ',' ∉ group) (line : Line) :
    AddsMember username group line (addMemberLine username group line) ↔
      Accepts username group line := by
  rw [AddsMember, Accepts]
  refine and_congr (forall_congr' fun isLine => ?_) (forall_congr' fun other => ?_)
  · obtain ⟨length, head, nodup, allNamed⟩ := isLine
    match line, length with
    | [name, second, third, members], _ =>
      obtain rfl := Option.some.inj head
      have free : ∀ member ∈ splitMembers members, ',' ∉ member := by
        intro member inside
        rw [splitMembers] at inside
        split at inside
        · cases inside
        · exact not_mem_of_mem_splitOn inside
      rw [memberList_addMemberLine groupFree]
      exact added_iff named noComma second third free nodup
        fun member inside empty => allNamed (empty ▸ inside)
  · simp only [addMemberLine, other, Bool.false_eq_true, false_and, if_false]
    exact unlead_squeeze_eq_iff line

/-- The user comes behind the other members of the group and no other line changes, for every line
of the file, exactly when the four expressions accept every line. -/
theorem addMember_iff {username group : Text} (named : username ≠ [])
    (plain : isPlain username = true) (plainGroup : isPlain group = true) (tools : Tools)
    (file : File) :
    List.Forall₂ (AddsMember username group) file.lines
        (addMember tools username group file).lines ↔
      ∀ line ∈ file, Accepts username group line := by
  have noComma : ',' ∉ username := not_mem_of_isPlain plain (by decide)
  have groupFree : ',' ∉ group := not_mem_of_isPlain plainGroup (by decide)
  rw [addMember_of_isPlain plain plainGroup, File.map, List.forall₂_map_right_iff,
    List.forall₂_same]
  exact forall₂_congr fun line _ => addsMember_iff named noComma groupFree line

/-- A line of the group with its members, and a line of another one. -/
def groupFile (members : String) : File :=
  ⟨[["bar".toList, "x".toList, "1000".toList, members.toList],
    ["other".toList, "x".toList, "1001".toList, "a,b,foo".toList]], true⟩

theorem addMember_iff_second :
    List.Forall₂ (AddsMember "foo".toList "bar".toList) (groupFile "a,foo").lines
      (addMember plainTools "foo".toList "bar".toList (groupFile "a,foo")).lines := by
  refine (addMember_iff (by decide) (by decide) (by decide) plainTools _).mpr ?_
  intro line inside
  rcases List.mem_cons.mp inside with rfl | inside
  · refine ⟨fun _ => ?_, fun other => absurd other (by decide)⟩
    have members : memberList ["bar".toList, "x".toList, "1000".toList, "a,foo".toList] =
        ["a".toList, "foo".toList] := by decide
    rw [members]
    exact ⟨by decide, fun _ => by decide, by decide⟩
  · obtain rfl := List.mem_singleton.mp inside
    refine ⟨fun isLine => absurd isLine.head (by decide), fun _ => ⟨?_, ?_⟩⟩
    · simp only [FirstSingle]
      decide
    · unfold NoLeading
      decide

/-- The user was the third member: it leaves two commas, of which the expression that squeezes the
first run of commas takes none. -/
theorem leaves_empty_member :
    addMember plainTools "foo".toList "bar".toList (groupFile "a,b,foo") = groupFile "a,b,,foo" ∧
      ¬List.Forall₂ (AddsMember "foo".toList "bar".toList) (groupFile "a,b,foo").lines
        (addMember plainTools "foo".toList "bar".toList (groupFile "a,b,foo")).lines := by
  have result : addMember plainTools "foo".toList "bar".toList (groupFile "a,b,foo") =
      groupFile "a,b,,foo" := by decide +kernel
  refine ⟨result, fun adds => ?_⟩
  rw [result] at adds
  have members := (List.forall₂_cons.mp adds).1.1 ⟨by decide, by decide, by decide, by decide⟩
  revert members
  decide

end Buildroot4G.Users
