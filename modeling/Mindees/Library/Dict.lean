import Mathlib.Data.List.Nodup
import Mathlib.Data.List.Perm.Basic
import Mathlib.Algebra.BigOperators.Group.List.Basic
import Mathlib.Algebra.BigOperators.Group.Finset.Basic
import Mathlib.Tactic.Abel

/-!
# Insertion-ordered dictionaries

A dictionary is a list of entries whose keys are pairwise distinct.  Assigning
to a present key keeps its position and assigning to a new key appends, so the
order of the entries is the order in which the keys first arrived.  Lookups do
not depend on that order, and neither do sums over the entries.
-/

namespace Library

universe u v w

/-- A finite map that remembers the order in which its keys were added. -/
structure Dict (κ : Type u) (ν : Type v) where
  /-- The entries, oldest key first. -/
  entries : List (κ × ν)
  /-- No key occurs twice. -/
  nodupKeys : (entries.map Prod.fst).Nodup

namespace Dict

variable {κ : Type u} {ν : Type v} {M : Type w}

@[ext] theorem ext
    {left right : Dict κ ν}
    (equal : left.entries = right.entries) :
    left = right := by
  cases left
  cases right
  cases equal
  rfl

instance [DecidableEq κ] [DecidableEq ν] : DecidableEq (Dict κ ν) :=
  fun left right =>
    decidable_of_iff (left.entries = right.entries)
      ⟨ext, fun equal => equal ▸ rfl⟩

/-- The dictionary without entries. -/
def empty : Dict κ ν := ⟨[], List.nodup_nil⟩

/-- The keys, oldest first. -/
def keys (dict : Dict κ ν) : List κ := dict.entries.map Prod.fst

/-- The values, in key order. -/
def values (dict : Dict κ ν) : List ν := dict.entries.map Prod.snd

/-- The number of keys. -/
def size (dict : Dict κ ν) : Nat := dict.entries.length

/-- Apply a function to every value. -/
def mapValues
    {ν' : Type w}
    (function : ν → ν')
    (dict : Dict κ ν) : Dict κ ν' where
  entries := dict.entries.map fun entry => (entry.1, function entry.2)
  nodupKeys := by
    rw [List.map_map]
    exact dict.nodupKeys

/-- Keep the entries that satisfy a test. -/
def filter
    (test : κ → ν → Bool)
    (dict : Dict κ ν) : Dict κ ν where
  entries := dict.entries.filter fun entry => test entry.1 entry.2
  nodupKeys := dict.nodupKeys.sublist (List.filter_sublist.map Prod.fst)

/-! ## Lookup and update on entry lists -/

section Entries

variable [DecidableEq κ]

/-- The value filed under a key in a list of entries. -/
def lookup : List (κ × ν) → κ → Option ν
  | [], _ => none
  | (key, value) :: rest, wanted =>
      if key = wanted then some value else lookup rest wanted

/-- Replace the value under a key in place, or append a new entry. -/
def put : List (κ × ν) → κ → ν → List (κ × ν)
  | [], wanted, value => [(wanted, value)]
  | (key, old) :: rest, wanted, value =>
      if key = wanted then (wanted, value) :: rest
      else (key, old) :: put rest wanted value

theorem lookup_eq_none_iff
    (entries : List (κ × ν))
    (wanted : κ) :
    lookup entries wanted = none ↔ wanted ∉ entries.map Prod.fst := by
  induction entries with
  | nil => simp [lookup]
  | cons entry rest inductionHypothesis =>
      obtain ⟨key, value⟩ := entry
      by_cases same : key = wanted
      · simp [lookup, same]
      · simp [lookup, same, inductionHypothesis, Ne.symm same]

theorem lookup_put
    (entries : List (κ × ν))
    (key wanted : κ)
    (value : ν) :
    lookup (put entries key value) wanted =
      if key = wanted then some value else lookup entries wanted := by
  induction entries with
  | nil => rfl
  | cons entry rest inductionHypothesis =>
      obtain ⟨first, old⟩ := entry
      by_cases here : first = key
      · subst here
        by_cases same : first = wanted <;> simp [put, lookup, same]
      · by_cases same : first = wanted
        · subst same
          simp [put, lookup, here, Ne.symm here]
        · simp [put, lookup, here, same, inductionHypothesis]

theorem map_fst_put
    (entries : List (κ × ν))
    (wanted : κ)
    (value : ν) :
    (put entries wanted value).map Prod.fst =
      if wanted ∈ entries.map Prod.fst then entries.map Prod.fst
      else entries.map Prod.fst ++ [wanted] := by
  induction entries with
  | nil => simp [put]
  | cons entry rest inductionHypothesis =>
      obtain ⟨key, old⟩ := entry
      by_cases same : key = wanted
      · simp [put, same]
      · by_cases present : wanted ∈ rest.map Prod.fst
        · simp only [if_pos present] at inductionHypothesis
          simp [put, same, inductionHypothesis, present]
        · simp only [if_neg present] at inductionHypothesis
          simp [put, same, inductionHypothesis, present, Ne.symm same]

/-- Assigning to a new key appends an entry. -/
theorem put_of_new
    {entries : List (κ × ν)}
    {wanted : κ}
    (new : wanted ∉ entries.map Prod.fst)
    (value : ν) :
    put entries wanted value = entries ++ [(wanted, value)] := by
  induction entries with
  | nil => rfl
  | cons entry rest inductionHypothesis =>
      obtain ⟨key, old⟩ := entry
      rw [List.map_cons, List.mem_cons, not_or] at new
      rw [put, if_neg (Ne.symm new.1), inductionHypothesis new.2, List.cons_append]

theorem nodup_put
    {entries : List (κ × ν)}
    (nodup : (entries.map Prod.fst).Nodup)
    (wanted : κ)
    (value : ν) :
    ((put entries wanted value).map Prod.fst).Nodup := by
  rw [map_fst_put]
  split
  · exact nodup
  · rename_i absent
    exact nodup.append (List.nodup_singleton wanted)
      (by simpa [List.disjoint_singleton] using absent)

end Entries

/-! ## Operations -/

variable [DecidableEq κ]

/-- `d.get(k)`: the value under a key, if there is one. -/
def get? (dict : Dict κ ν) (key : κ) : Option ν := lookup dict.entries key

/-- `d.get(k, default)`. -/
def getD (dict : Dict κ ν) (key : κ) (default : ν) : ν :=
  (dict.get? key).getD default

/-- `k in d`. -/
def contains (dict : Dict κ ν) (key : κ) : Bool := (dict.get? key).isSome

/-- `d[k] = v`. -/
def set (dict : Dict κ ν) (key : κ) (value : ν) : Dict κ ν :=
  ⟨put dict.entries key value, nodup_put dict.nodupKeys key value⟩

/-- `d.pop(k, None)`, without the popped value. -/
def erase (dict : Dict κ ν) (key : κ) : Dict κ ν :=
  dict.filter fun present _ => decide (present ≠ key)

/-- `d.setdefault(k, v)`, without the value it returns. -/
def setDefault (dict : Dict κ ν) (key : κ) (value : ν) : Dict κ ν :=
  if dict.contains key then dict else dict.set key value

@[simp] theorem get?_empty (key : κ) : (empty : Dict κ ν).get? key = none := rfl

@[simp, grind =] theorem get?_set
    (dict : Dict κ ν)
    (key wanted : κ)
    (value : ν) :
    (dict.set key value).get? wanted =
      if key = wanted then some value else dict.get? wanted :=
  lookup_put dict.entries key wanted value

theorem getD_eq_of_get?
    {dict : Dict κ ν}
    {key : κ}
    {value : ν}
    (found : dict.get? key = some value)
    (default : ν) :
    dict.getD key default = value := by
  rw [getD, found, Option.getD_some]

@[grind =] theorem getD_set
    (dict : Dict κ ν)
    (key wanted : κ)
    (value default : ν) :
    (dict.set key value).getD wanted default =
      if key = wanted then value else dict.getD wanted default := by
  rw [getD, get?_set]
  split <;> rfl

@[simp] theorem getD_empty (key : κ) (default : ν) :
    (empty : Dict κ ν).getD key default = default := rfl

theorem contains_iff
    (dict : Dict κ ν)
    (key : κ) :
    dict.contains key = true ↔ ∃ value, dict.get? key = some value := by
  rw [contains, Option.isSome_iff_exists]

@[simp] theorem contains_set
    (dict : Dict κ ν)
    (key wanted : κ)
    (value : ν) :
    (dict.set key value).contains wanted =
      (decide (key = wanted) || dict.contains wanted) := by
  rw [contains, get?_set, contains]
  by_cases same : key = wanted <;> simp [same]

theorem mem_keys_iff
    (dict : Dict κ ν)
    (key : κ) :
    key ∈ dict.keys ↔ ∃ value, dict.get? key = some value := by
  have absent := lookup_eq_none_iff dict.entries key
  rw [keys, ← not_iff_not, ← absent]
  change dict.get? key = none ↔ _
  cases dict.get? key <;> simp

theorem contains_iff_mem_keys
    (dict : Dict κ ν)
    (key : κ) :
    dict.contains key = true ↔ key ∈ dict.keys := by
  rw [contains_iff, mem_keys_iff]

theorem lookup_eq_some_iff
    {entries : List (κ × ν)}
    (nodup : (entries.map Prod.fst).Nodup)
    (key : κ)
    (value : ν) :
    lookup entries key = some value ↔ (key, value) ∈ entries := by
  induction entries with
  | nil => simp [lookup]
  | cons entry rest inductionHypothesis =>
      obtain ⟨first, old⟩ := entry
      rw [List.map_cons, List.nodup_cons] at nodup
      by_cases same : first = key
      · subst same
        have outside : (first, value) ∉ rest := fun inside =>
          nodup.1 (List.mem_map.mpr ⟨(first, value), inside, rfl⟩)
        simp [lookup, outside, eq_comm]
      · simp [lookup, same, inductionHypothesis nodup.2, Ne.symm same]

/-- The entries are exactly the pairs that lookups find. -/
theorem mem_entries_iff
    (dict : Dict κ ν)
    (key : κ)
    (value : ν) :
    (key, value) ∈ dict.entries ↔ dict.get? key = some value :=
  (lookup_eq_some_iff dict.nodupKeys key value).symm

theorem mem_values_iff
    (dict : Dict κ ν)
    (value : ν) :
    value ∈ dict.values ↔ ∃ key, dict.get? key = some value := by
  simp only [values, List.mem_map, ← mem_entries_iff]
  constructor
  · rintro ⟨⟨key, found⟩, inside, rfl⟩
    exact ⟨key, inside⟩
  · rintro ⟨key, inside⟩
    exact ⟨(key, value), inside, rfl⟩

theorem get?_filter
    (dict : Dict κ ν)
    (test : κ → ν → Bool)
    (key : κ) :
    (dict.filter test).get? key = (dict.get? key).filter (test key) := by
  cases found : dict.get? key with
  | none =>
      rw [Option.filter_none]
      by_contra present
      obtain ⟨value, kept⟩ := Option.ne_none_iff_exists'.mp present
      rw [← mem_entries_iff] at kept
      have inside := (mem_entries_iff dict key value).mp (List.mem_filter.mp kept).1
      rw [found] at inside
      cases inside
  | some value =>
      by_cases kept : test key value = true
      · rw [Option.filter_some_pos kept, ← mem_entries_iff]
        exact List.mem_filter.mpr
          ⟨(mem_entries_iff dict key value).mpr found, kept⟩
      · rw [Option.filter_some_neg (by simpa using kept)]
        by_contra present
        obtain ⟨other, inside⟩ := Option.ne_none_iff_exists'.mp present
        rw [← mem_entries_iff] at inside
        obtain ⟨member, passed⟩ := List.mem_filter.mp inside
        rw [mem_entries_iff, found] at member
        cases member
        exact kept passed

@[simp, grind =] theorem get?_erase
    (dict : Dict κ ν)
    (key wanted : κ) :
    (dict.erase key).get? wanted =
      if key = wanted then none else dict.get? wanted := by
  rw [erase, get?_filter]
  by_cases same : key = wanted
  · subst same
    cases dict.get? key <;> simp
  · cases dict.get? wanted <;> simp [same, Ne.symm same]

theorem contains_erase
    (dict : Dict κ ν)
    (key wanted : κ) :
    (dict.erase key).contains wanted = (decide (key ≠ wanted) && dict.contains wanted) := by
  rw [contains, get?_erase, contains]
  split <;> simp [*]

@[grind =] theorem getD_erase
    (dict : Dict κ ν)
    (key wanted : κ)
    (default : ν) :
    (dict.erase key).getD wanted default =
      if key = wanted then default else dict.getD wanted default := by
  rw [getD, get?_erase]
  split <;> rfl

/-- Popping an absent key changes nothing. -/
theorem erase_of_none
    {dict : Dict κ ν}
    {key : κ}
    (absent : dict.get? key = none) :
    dict.erase key = dict := by
  apply ext
  refine List.filter_eq_self.mpr fun entry inside => ?_
  rw [decide_eq_true_eq]
  intro same
  have found := (dict.mem_entries_iff entry.1 entry.2).mp inside
  rw [same, absent] at found
  cases found

/-- Popping a present key removes one entry. -/
theorem size_erase
    (dict : Dict κ ν)
    {key : κ}
    {value : ν}
    (found : dict.get? key = some value) :
    (dict.erase key).size + 1 = dict.size := by
  have counted : ∀ entries : List (κ × ν), (entries.map Prod.fst).Nodup →
      key ∈ entries.map Prod.fst →
      (entries.filter fun entry => decide (entry.1 ≠ key)).length + 1 = entries.length := by
    intro entries nodup present
    induction entries with
    | nil => cases present
    | cons entry rest inductionHypothesis =>
        rw [List.map_cons, List.nodup_cons] at nodup
        by_cases same : entry.1 = key
        · subst same
          have others : rest.filter (fun other => decide (other.1 ≠ entry.1)) = rest :=
            List.filter_eq_self.mpr fun other inside => decide_eq_true fun equal =>
              nodup.1 (equal ▸ List.mem_map_of_mem inside)
          rw [List.filter_cons_of_neg (by simp), others, List.length_cons]
        · rw [List.map_cons, List.mem_cons] at present
          rw [List.filter_cons_of_pos (by simpa using same), List.length_cons, List.length_cons,
            inductionHypothesis nodup.2 (present.resolve_left (Ne.symm same))]
  refine counted dict.entries dict.nodupKeys ?_
  exact List.mem_map_of_mem ((dict.mem_entries_iff key value).mpr found)

theorem size_erase_lt
    (dict : Dict κ ν)
    {key : κ}
    {value : ν}
    (found : dict.get? key = some value) :
    (dict.erase key).size < dict.size := by
  have one := dict.size_erase found
  omega

/-- Two entries have two keys, so one of them is not a given key. -/
theorem exists_other_key
    {dict : Dict κ ν}
    (several : 1 < dict.size)
    (key : κ) :
    ∃ other value, key ≠ other ∧ dict.get? other = some value := by
  obtain ⟨entries, nodup⟩ := dict
  rw [size] at several
  obtain ⟨first, rest, rfl⟩ := List.exists_cons_of_length_pos (Nat.lt_of_succ_lt several)
  rw [List.length_cons, Nat.lt_add_left_iff_pos] at several
  obtain ⟨second, others, rfl⟩ := List.exists_cons_of_length_pos several
  simp only [List.map_cons, List.nodup_cons, List.mem_cons, not_or] at nodup
  obtain ⟨⟨distinct, _⟩, _⟩ := nodup
  by_cases same : key = first.1
  · refine ⟨second.1, second.2, same ▸ distinct, ?_⟩
    simp [get?, lookup, distinct]
  · refine ⟨first.1, first.2, same, ?_⟩
    simp [get?, lookup]

/-- Assigning adds an entry when the key is new. -/
theorem size_set_eq
    (dict : Dict κ ν)
    (key : κ)
    (value : ν) :
    (dict.set key value).size = dict.size + if dict.contains key then 0 else 1 := by
  have keys := congrArg List.length (map_fst_put dict.entries key value)
  rw [List.length_map] at keys
  have present : key ∈ dict.entries.map Prod.fst ↔ dict.contains key = true :=
    (dict.contains_iff_mem_keys key).symm
  rw [size, set, size, keys]
  simp only [present]
  split_ifs <;> simp

theorem size_set
    (dict : Dict κ ν)
    {key : κ}
    (value : ν)
    (new : dict.contains key = false) :
    (dict.set key value).size = dict.size + 1 := by
  rw [size_set_eq, new]
  rfl

theorem get?_setDefault
    (dict : Dict κ ν)
    (key wanted : κ)
    (value : ν) :
    (dict.setDefault key value).get? wanted =
      if key = wanted ∧ dict.contains key = false then some value
      else dict.get? wanted := by
  rw [setDefault]
  by_cases present : dict.contains key = true
  · simp [present]
  · rw [if_neg present, get?_set]
    simp [present]

/-- Inserting the default of a key changes no lookup with that default. -/
theorem getD_setDefault_getD
    (dict : Dict κ ν)
    (key wanted : κ)
    (default : ν) :
    (dict.setDefault key (dict.getD key default)).getD wanted default =
      dict.getD wanted default := by
  simp only [getD, get?_setDefault]
  split_ifs with missing
  · obtain ⟨rfl, absent⟩ := missing
    rw [contains, Option.isSome_eq_false_iff, Option.isNone_iff_eq_none] at absent
    rw [absent]
    rfl
  · rfl

theorem get?_mapValues
    {ν' : Type w}
    (function : ν → ν')
    (dict : Dict κ ν)
    (key : κ) :
    (dict.mapValues function).get? key = (dict.get? key).map function := by
  have onEntries (entries : List (κ × ν)) :
      lookup (entries.map fun entry => (entry.1, function entry.2)) key =
        (lookup entries key).map function := by
    induction entries with
    | nil => rfl
    | cons entry rest inductionHypothesis =>
        by_cases same : entry.1 = key <;>
          simp [lookup, same, inductionHypothesis]
  exact onEntries dict.entries

/-- Dictionaries with the same lookups have the same entries up to order. -/
theorem perm_of_get?_eq
    {left right : Dict κ ν}
    (same : ∀ key, left.get? key = right.get? key) :
    left.entries.Perm right.entries := by
  rw [List.perm_ext_iff_of_nodup left.nodupKeys.of_map right.nodupKeys.of_map]
  rintro ⟨key, value⟩
  rw [mem_entries_iff, mem_entries_iff, same]

/-! ## Sums over the entries -/

section Sums

variable [AddCommGroup M]

/-- Sum a quantity over all entries. -/
def sumBy (quantity : κ → ν → M) (dict : Dict κ ν) : M :=
  (dict.entries.map fun entry => quantity entry.1 entry.2).sum

/-- The quantity of the entry under one key, zero when there is none. -/
def quantityAt (quantity : κ → ν → M) (dict : Dict κ ν) (key : κ) : M :=
  (dict.get? key).elim 0 (quantity key)

omit [DecidableEq κ] in
@[simp] theorem sumBy_empty (quantity : κ → ν → M) :
    (empty : Dict κ ν).sumBy quantity = 0 := rfl

theorem sum_put
    (quantity : κ → ν → M)
    (entries : List (κ × ν))
    (key : κ)
    (value : ν) :
    ((put entries key value).map fun entry => quantity entry.1 entry.2).sum =
      (entries.map fun entry => quantity entry.1 entry.2).sum -
        (lookup entries key).elim 0 (quantity key) + quantity key value := by
  induction entries with
  | nil => simp [put, lookup]
  | cons entry rest inductionHypothesis =>
      obtain ⟨first, old⟩ := entry
      by_cases same : first = key
      · subst same
        simp only [put, lookup, if_true, List.map_cons, List.sum_cons, Option.elim]
        abel
      · simp only [put, lookup, same, if_false, List.map_cons, List.sum_cons,
          inductionHypothesis]
        abel

/-- Assignment exchanges one contribution for another. -/
theorem sumBy_set
    (quantity : κ → ν → M)
    (dict : Dict κ ν)
    (key : κ)
    (value : ν) :
    (dict.set key value).sumBy quantity =
      dict.sumBy quantity - dict.quantityAt quantity key + quantity key value :=
  sum_put quantity dict.entries key value

theorem sum_filter_ne
    (quantity : κ → ν → M)
    {entries : List (κ × ν)}
    (nodup : (entries.map Prod.fst).Nodup)
    (key : κ) :
    ((entries.filter fun entry => decide (entry.1 ≠ key)).map
        fun entry => quantity entry.1 entry.2).sum =
      (entries.map fun entry => quantity entry.1 entry.2).sum -
        (lookup entries key).elim 0 (quantity key) := by
  induction entries with
  | nil => simp [lookup]
  | cons entry rest inductionHypothesis =>
      obtain ⟨first, old⟩ := entry
      rw [List.map_cons, List.nodup_cons] at nodup
      by_cases same : first = key
      · subst same
        have kept : rest.filter (fun entry => decide (entry.1 ≠ first)) = rest := by
          rw [List.filter_eq_self]
          intro entry inside
          have different : entry.1 ≠ first := fun equal =>
            nodup.1 (List.mem_map.mpr ⟨entry, inside, equal⟩)
          simpa using different
        simp only [ne_eq, decide_not] at kept
        simp [lookup, kept]
      · simp only [ne_eq, decide_not] at inductionHypothesis
        simp [lookup, same, inductionHypothesis nodup.2, add_sub_assoc]

/-- Erasing a key removes its contribution. -/
theorem sumBy_erase
    (quantity : κ → ν → M)
    (dict : Dict κ ν)
    (key : κ) :
    (dict.erase key).sumBy quantity =
      dict.sumBy quantity - dict.quantityAt quantity key :=
  sum_filter_ne quantity dict.nodupKeys key

/-- A sum over the entries is a sum over any set that holds the keys. -/
theorem sumBy_eq_sum
    (quantity : κ → ν → M)
    (dict : Dict κ ν)
    {support : Finset κ}
    (covers : ∀ key ∈ dict.keys, key ∈ support) :
    dict.sumBy quantity = support.sum fun key => dict.quantityAt quantity key := by
  have inside : dict.keys.toFinset ⊆ support := by
    intro key present
    exact covers key (List.mem_toFinset.mp present)
  have outside : ∀ key ∈ support, key ∉ dict.keys.toFinset →
      dict.quantityAt quantity key = 0 := by
    intro key _ absent
    rw [List.mem_toFinset, mem_keys_iff, not_exists] at absent
    rw [quantityAt, Option.eq_none_iff_forall_ne_some.mpr absent]
    rfl
  have distinct : dict.keys.Nodup := dict.nodupKeys
  rw [← Finset.sum_subset inside outside, List.sum_toFinset _ distinct, sumBy, keys,
    List.map_map]
  congr 1
  refine List.map_congr_left fun entry present => ?_
  have found := (mem_entries_iff dict entry.1 entry.2).mp present
  rw [Function.comp_apply, quantityAt, found]
  rfl

end Sums

end Dict

end Library
