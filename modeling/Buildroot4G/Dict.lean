/-
This file has dictionaries that keep the order in which their keys were first set, and what
sums over them need. A dictionary is an association list whose keys are unique; its total is the
sum of its values, and the sum over any set of keys that has all of its own, with zero for a key
it does not have. A list of pairs makes a dictionary, where the last pair with a key counts.
-/

import Mathlib.Algebra.BigOperators.Group.Finset.Basic
import Mathlib.Data.List.AList

/-- A dictionary. -/
abbrev Dict (κ ν : Type) := AList fun _ : κ => ν

namespace Dict

variable {κ ν : Type} [DecidableEq κ]

/-! ### Setting a value -/

/-- What is found once the value of a key is replaced. -/
theorem dlookup_kreplace {entries : List (Sigma fun _ : κ => ν)}
    {key : κ} (member : key ∈ entries.keys) (new : ν) (other : κ) :
    (entries.kreplace key new).dlookup other =
      if other = key then some new else entries.dlookup other := by
  induction entries with
  | nil => cases member
  | cons entry rest inductionHypothesis =>
    obtain ⟨name, old⟩ := entry
    by_cases first : key = name
    · have here : List.kreplace key new (⟨name, old⟩ :: rest) = ⟨key, new⟩ :: rest :=
        List.lookmap_cons_some _ _ (if_pos first)
      rw [here]
      by_cases same : other = key
      · rw [if_pos same, same, List.dlookup_cons_eq]
      · rw [if_neg same, List.dlookup_cons_ne _ _ same,
          List.dlookup_cons_ne _ _ fun equal => same (equal.trans first.symm)]
    · have inRest : key ∈ rest.keys := (List.mem_cons.mp member).resolve_left first
      have later : List.kreplace key new (⟨name, old⟩ :: rest) =
          ⟨name, old⟩ :: rest.kreplace key new := List.lookmap_cons_none _ _ (if_neg first)
      rw [later]
      by_cases same : other = name
      · rw [same, List.dlookup_cons_eq, List.dlookup_cons_eq,
          if_neg fun equal => first equal.symm]
      · rw [List.dlookup_cons_ne _ _ same, List.dlookup_cons_ne _ _ same]
        exact inductionHypothesis inRest

theorem lookup_replace {dict : Dict κ ν} {key : κ} (known : key ∈ dict) (new : ν) (other : κ) :
    (dict.replace key new).lookup other = if other = key then some new else dict.lookup other :=
  dlookup_kreplace (AList.mem_keys.mp known) new other

omit [DecidableEq κ] in
theorem nodupKeys_concat {dict : Dict κ ν} {key : κ} (absent : key ∉ dict) (new : ν) :
    (dict.entries ++ [(⟨key, new⟩ : Sigma fun _ : κ => ν)]).NodupKeys := by
  rw [List.NodupKeys, List.keys, List.map_append, List.map_singleton, List.nodup_append]
  refine ⟨dict.nodupKeys, List.nodup_singleton key, ?_⟩
  rintro other inside _ (_ | _) rfl
  · exact absent (AList.mem_keys.mpr inside)
  · contradiction

/-- A key the dictionary has keeps its place, a new one comes last. -/
def set (dict : Dict κ ν) (key : κ) (new : ν) : Dict κ ν :=
  if known : key ∈ dict then dict.replace key new
  else ⟨dict.entries ++ [⟨key, new⟩], nodupKeys_concat known new⟩

theorem lookup_set (dict : Dict κ ν) (key : κ) (new : ν) (other : κ) :
    (dict.set key new).lookup other = if other = key then some new else dict.lookup other := by
  rw [set]
  by_cases known : key ∈ dict
  · rw [dif_pos known, lookup_replace known]
  · rw [dif_neg known]
    change (dict.entries ++ [(⟨key, new⟩ : Sigma fun _ : κ => ν)]).dlookup other = _
    rw [List.dlookup_append]
    by_cases same : other = key
    · have missing : dict.entries.dlookup key = none := AList.lookup_eq_none.mpr known
      rw [if_pos same, same, missing, List.dlookup_cons_eq, Option.none_or]
    · rw [if_neg same, List.dlookup_cons_ne _ _ same, List.dlookup_nil, Option.or_none]
      rfl

theorem lookup_set_self (dict : Dict κ ν) (key : κ) (new : ν) :
    (dict.set key new).lookup key = some new := by
  rw [lookup_set, if_pos rfl]

theorem lookup_set_of_ne (dict : Dict κ ν) {key other : κ} (new : ν) (different : other ≠ key) :
    (dict.set key new).lookup other = dict.lookup other := by
  rw [lookup_set, if_neg different]

theorem keys_set (dict : Dict κ ν) (key : κ) (new : ν) :
    (dict.set key new).keys = if key ∈ dict then dict.keys else dict.keys ++ [key] := by
  rw [set]
  by_cases known : key ∈ dict
  · rw [dif_pos known, if_pos known, AList.keys_replace]
  · rw [dif_neg known, if_neg known]
    exact List.map_append

theorem mem_keys_set {dict : Dict κ ν} {key : κ} {new : ν} {other : κ} :
    other ∈ (dict.set key new).keys ↔ other = key ∨ other ∈ dict.keys := by
  rw [keys_set]
  split
  · rename_i known
    exact ⟨Or.inr, fun inside => inside.elim (fun same => same ▸ AList.mem_keys.mp known) id⟩
  · rw [List.mem_append, List.mem_singleton, or_comm]

theorem entries_set_ne_nil (dict : Dict κ ν) (key : κ) (new : ν) :
    (dict.set key new).entries ≠ [] := by
  intro empty
  have inside : key ∈ (dict.set key new).keys := mem_keys_set.mpr (Or.inl rfl)
  rw [AList.keys, empty] at inside
  cases inside

section Total

variable [AddCommMonoid ν]

/-- The value of a key, zero for a key the dictionary does not have. -/
def value (dict : Dict κ ν) (key : κ) : ν := (dict.lookup key).getD 0

/-- The sum of the values. -/
def total (dict : Dict κ ν) : ν := (dict.entries.map Sigma.snd).sum

theorem value_of_not_mem {dict : Dict κ ν} {key : κ} (absent : key ∉ dict) :
    dict.value key = 0 := by
  rw [value, AList.lookup_eq_none.mpr absent, Option.getD_none]

theorem value_set (dict : Dict κ ν) (key : κ) (new : ν) (other : κ) :
    value (dict.set key new) other = if other = key then new else dict.value other := by
  rw [value, value]
  split
  · rename_i same
    rw [same, lookup_set_self, Option.getD_some]
  · rename_i different
    rw [lookup_set_of_ne dict new different]

theorem total_eq_sum_keys (dict : Dict κ ν) :
    dict.total = ∑ key ∈ dict.keys.toFinset, dict.value key := by
  have values : dict.entries.map Sigma.snd = dict.keys.map dict.value := by
    rw [AList.keys, List.keys, List.map_map]
    refine List.map_congr_left fun entry inside => ?_
    have found : dict.lookup entry.1 = some entry.2 := AList.mem_lookup_iff.mpr inside
    rw [Function.comp_apply, value, found, Option.getD_some]
  rw [total, values, List.sum_toFinset _ dict.keys_nodup]

/-- The total is the sum over any set with the keys in it. -/
theorem total_eq_sum {dict : Dict κ ν} {keys : Finset κ} (covers : ∀ key ∈ dict, key ∈ keys) :
    dict.total = ∑ key ∈ keys, dict.value key := by
  rw [total_eq_sum_keys]
  refine Finset.sum_subset (fun key inside => ?_) fun key _ outside => ?_
  · exact covers key (AList.mem_keys.mpr (List.mem_toFinset.mp inside))
  · exact value_of_not_mem fun inside => outside (List.mem_toFinset.mpr (AList.mem_keys.mp inside))

/-- The value of a key after a loop that adds to the values. -/
theorem value_foldl_add {α : Type} (key : α → κ) (weight : α → ν) (items : List α)
    (dict : Dict κ ν) (other : κ) :
    (items.foldl (fun dict item => dict.set (key item) (dict.value (key item) + weight item))
      dict).value other =
      dict.value other + ((items.filter fun item => key item = other).map weight).sum := by
  induction items generalizing dict with
  | nil => exact (add_zero _).symm
  | cons item rest inductionHypothesis =>
    rw [List.foldl_cons, inductionHypothesis, value_set]
    by_cases here : key item = other
    · rw [if_pos here.symm, List.filter_cons_of_pos (by simpa using here), List.map_cons,
        List.sum_cons, here, add_assoc]
    · rw [if_neg (Ne.symm here), List.filter_cons_of_neg (by simpa using here)]

/-- The sum of the values of some of the keys. -/
theorem sum_filter (dict : Dict κ ν) (included : κ → Prop) [DecidablePred included] :
    ((dict.entries.filter fun entry => included entry.1).map Sigma.snd).sum =
      ∑ key ∈ dict.keys.toFinset with included key, dict.value key := by
  have values : (dict.entries.filter fun entry => included entry.1).map Sigma.snd =
      ((dict.entries.filter fun entry => included entry.1).map Sigma.fst).map dict.value := by
    rw [List.map_map]
    refine List.map_congr_left fun entry inside => ?_
    have found : dict.lookup entry.1 = some entry.2 :=
      AList.mem_lookup_iff.mpr (List.mem_filter.mp inside).1
    rw [Function.comp_apply, value, found, Option.getD_some]
  have keys : (dict.entries.filter fun entry => included entry.1).map Sigma.fst =
      dict.keys.filter fun key => included key := by
    rw [AList.keys, List.keys, List.filter_map]
    rfl
  rw [values, keys, ← List.sum_toFinset _ (dict.keys_nodup.filter _), List.toFinset_filter]
  simp only [decide_eq_true_eq]

end Total

/-! ### Dictionaries made of pairs -/

section OfList

/-- The dictionary made of a list of pairs. -/
def ofList (pairs : List (κ × ν)) : Dict κ ν :=
  pairs.foldl (fun dict pair => dict.set pair.1 pair.2) ∅

theorem ofList_concat (pairs : List (κ × ν)) (pair : κ × ν) :
    ofList (pairs ++ [pair]) = (ofList pairs).set pair.1 pair.2 := by
  rw [ofList, List.foldl_append]
  rfl

theorem mem_ofList {key : κ} {pairs : List (κ × ν)} :
    key ∈ ofList pairs ↔ key ∈ pairs.map Prod.fst := by
  induction pairs using List.reverseRecOn with
  | nil => exact iff_of_false (AList.notMem_empty key) List.not_mem_nil
  | append_singleton pairs pair inductionHypothesis =>
    rw [ofList_concat, AList.mem_keys, mem_keys_set, ← AList.mem_keys, inductionHypothesis,
      List.map_append, List.mem_append, List.map_singleton, List.mem_singleton, or_comm]

theorem mem_of_lookup_ofList {key : κ} {found : ν} {pairs : List (κ × ν)}
    (isFound : (ofList pairs).lookup key = some found) : (key, found) ∈ pairs := by
  induction pairs using List.reverseRecOn with
  | nil => cases isFound
  | append_singleton pairs pair inductionHypothesis =>
    rw [ofList_concat] at isFound
    by_cases same : key = pair.1
    · rw [same, lookup_set_self] at isFound
      have isPair : pair = (key, found) := Prod.ext same.symm (Option.some.inj isFound)
      exact List.mem_append_right _ (List.mem_singleton.mpr isPair.symm)
    · rw [lookup_set_of_ne _ _ same] at isFound
      exact List.mem_append_left _ (inductionHypothesis isFound)

/-- A sum over the values when what a value counts depends on its key only. -/
theorem sum_ofList {μ : Type} [AddCommMonoid μ] (count : ν → μ) (weight : κ → μ)
    {pairs : List (κ × ν)} (weighs : ∀ pair ∈ pairs, count pair.2 = weight pair.1) :
    ((ofList pairs).entries.map fun entry => count entry.2).sum =
      ∑ key ∈ (pairs.map Prod.fst).toFinset, weight key := by
  have values : (ofList pairs).entries.map (fun entry => count entry.2) =
      (ofList pairs).keys.map weight := by
    rw [AList.keys, List.keys, List.map_map]
    refine List.map_congr_left fun entry inside => ?_
    exact weighs _ (mem_of_lookup_ofList (AList.mem_lookup_iff.mpr inside))
  rw [values, ← List.sum_toFinset _ (ofList pairs).keys_nodup]
  refine Finset.sum_congr (Finset.ext fun key => ?_) fun _ _ => rfl
  rw [List.mem_toFinset, List.mem_toFinset, ← AList.mem_keys]
  exact mem_ofList

/-- The sum of the values when a value depends on its key only. -/
theorem total_ofList [AddCommMonoid ν] (weight : κ → ν) {pairs : List (κ × ν)}
    (weighs : ∀ pair ∈ pairs, pair.2 = weight pair.1) :
    (ofList pairs).total = ∑ key ∈ (pairs.map Prod.fst).toFinset, weight key :=
  sum_ofList id weight weighs

end OfList

end Dict
