import Mindees.Node.Storage

/-!
# The genesis file

Reading the genesis file gives the parameters back that were written, with the
keys of every dictionary in order.
-/

namespace Mindees

open Library

/-! ## Sorted values -/

namespace Json

/-- Fields with distinct keys are found in any order. -/
theorem field_eq_of_perm
    {left right : List (Str × Json)}
    (perm : left.Perm right)
    (distinct : (right.map Prod.fst).Nodup)
    (key : Str) :
    field left key = field right key := by
  have lookups : ∀ fields, field fields key = Dict.lookup fields key := by
    intro fields
    induction fields with
    | nil => rfl
    | cons entry rest inductionHypothesis =>
        rw [field, Dict.lookup, inductionHypothesis]
  have leftDistinct : (left.map Prod.fst).Nodup := (perm.map Prod.fst).nodup_iff.mpr distinct
  apply Option.ext
  intro value
  rw [lookups, lookups, Dict.lookup_eq_some_iff leftDistinct, Dict.lookup_eq_some_iff distinct]
  exact perm.mem_iff

theorem perm_sortMembers (fields : List (Str × Json)) : (sortMembers fields).Perm fields :=
  List.perm_insertionSort _ _

theorem map_fst_sortedFields (fields : List (Str × Json)) :
    (sortedFields fields).map Prod.fst = fields.map Prod.fst := by
  rw [sortedFields_eq_map, List.map_map]
  rfl

/-- Sorting keys keeps a value readable. -/
theorem Readable.sorted
    {value : Json}
    (readable : value.Readable) :
    value.sorted.Readable := by
  induction readable with
  | null => exact .null
  | bool value => exact .bool value
  | int value => exact .int value
  | str value => exact .str value
  | arr _ inductionHypothesis =>
      rw [Json.sorted, sortedItems_eq_map]
      refine .arr fun item inside => ?_
      obtain ⟨item, listed, rfl⟩ := List.mem_map.mp inside
      exact inductionHypothesis item listed
  | @obj fields distinct _ inductionHypothesis =>
      rw [Json.sorted]
      have perm := perm_sortMembers (sortedFields fields)
      refine .obj ?_ fun entry inside => ?_
      · rw [(perm.map Prod.fst).nodup_iff, map_fst_sortedFields]
        exact distinct
      · have listed := perm.mem_iff.mp inside
        rw [sortedFields_eq_map] at listed
        obtain ⟨original, present, rfl⟩ := List.mem_map.mp listed
        exact inductionHypothesis original present

end Json

theorem hasFloatItems_eq_any (items : List Json) : hasFloatItems items = items.any hasFloat := by
  induction items with
  | nil => rfl
  | cons item rest inductionHypothesis => rw [hasFloatItems, inductionHypothesis, List.any_cons]

theorem hasFloatFields_eq_any (fields : List (Str × Json)) :
    hasFloatFields fields = fields.any fun entry => hasFloat entry.2 := by
  induction fields with
  | nil => rfl
  | cons entry rest inductionHypothesis => rw [hasFloatFields, inductionHypothesis, List.any_cons]

/-- A readable value holds no float. -/
theorem hasFloat_of_readable
    {value : Json}
    (readable : value.Readable) :
    hasFloat value = false := by
  induction readable with
  | null => rfl
  | bool value => rfl
  | int value => rfl
  | str value => rfl
  | arr _ inductionHypothesis =>
      rw [hasFloat, hasFloatItems_eq_any, List.any_eq_false]
      intro item inside
      rw [inductionHypothesis item inside]
      exact Bool.false_ne_true
  | obj _ _ inductionHypothesis =>
      rw [hasFloat, hasFloatFields_eq_any, List.any_eq_false]
      intro entry inside
      rw [inductionHypothesis entry inside]
      exact Bool.false_ne_true

/-! ## Dictionaries -/

/-- A dictionary with its keys in order. -/
def sortDict {ν : Type} (dict : Dict Str ν) : Dict Str ν where
  entries := dict.entries.insertionSort fun left right => left.1 ≤ right.1
  nodupKeys := by
    have perm := List.perm_insertionSort (fun left right : Str × ν => left.1 ≤ right.1) dict.entries
    rw [(perm.map Prod.fst).nodup_iff]
    exact dict.nodupKeys

section

variable {ν : Type}

/-- The order of the keys changes no lookup. -/
@[simp] theorem get?_sortDict (dict : Dict Str ν) (key : Str) :
    (sortDict dict).get? key = dict.get? key := by
  apply Option.ext
  intro value
  rw [← Dict.mem_entries_iff, ← Dict.mem_entries_iff]
  exact (List.perm_insertionSort _ _).mem_iff

/-- Sorting the object of a dictionary sorts the dictionary. -/
theorem sorted_jsonDict
    {value : ν → Json}
    (sorted : ∀ entry, (value entry).sorted = value entry)
    (dict : Dict Str ν) :
    (jsonDict value dict).sorted = jsonDict value (sortDict dict) := by
  have same : (fun entry : Str × Json => (entry.1, entry.2.sorted)) ∘
      (fun entry : Str × ν => (entry.1, value entry.2)) =
        fun entry => (entry.1, value entry.2) := by
    funext entry
    rw [Function.comp_apply, sorted]
  have commutes : (dict.entries.insertionSort fun left right => left.1 ≤ right.1).map
      (fun entry => (entry.1, value entry.2)) =
        (dict.entries.map fun entry => (entry.1, value entry.2)).insertionSort
          fun left right => left.1 ≤ right.1 :=
    List.map_insertionSort _ _ _ _ fun _ _ _ _ => Iff.rfl
  rw [jsonDict, Json.sorted, Json.sortedFields_eq_map, List.map_map, same, Json.sortMembers,
    ← commutes]
  rfl

theorem readable_jsonDict
    {value : ν → Json}
    (readable : ∀ entry, (value entry).Readable)
    (dict : Dict Str ν) :
    (jsonDict value dict).Readable := by
  refine .obj ?_ fun entry inside => ?_
  · rw [List.map_map]
    exact dict.nodupKeys
  · obtain ⟨entry, _, rfl⟩ := List.mem_map.mp inside
    exact readable entry.2

/-- Reading a dictionary undoes writing it. -/
theorem readDict_jsonDict
    {value : ν → Json}
    {read : Json → Except Error ν}
    (reads : ∀ entry, read (value entry) = .ok entry)
    (dict : Dict Str ν) :
    readDict read (jsonDict value dict) = .ok dict := by
  obtain ⟨entries, distinct⟩ := dict
  unfold readDict jsonDict
  dsimp only
  -- by induction on the entries that have been read
  induction entries using List.reverseRecOn with
  | nil => rfl
  | append_singleton entries last inductionHypothesis =>
      have split := distinct
      rw [List.map_append, List.nodup_append] at split
      obtain ⟨earlier, _, apart⟩ := split
      have new : last.1 ∉ entries.map Prod.fst :=
        fun again => apart last.1 again last.1 List.mem_cons_self rfl
      rw [List.map_append, List.map_singleton, foldlM_concat_eq_ok]
      refine ⟨_, inductionHypothesis earlier, ?_⟩
      simp only [reads, bind_eq_ok, Except.ok.injEq, exists_eq_left', pure_eq_ok]
      exact Dict.ext (Dict.put_of_new new last.2)

end

/-! ## The parameters -/

theorem sorted_jsonGrant (grant : List Int) : (jsonGrant grant).sorted = jsonGrant grant := by
  have same : Json.sorted ∘ Json.int = Json.int := by
    funext value
    rw [Function.comp_apply, Json.sorted]
    rintro _ ⟨⟩
    rintro _ ⟨⟩
  rw [jsonGrant, Json.sorted, Json.sortedItems_eq_map, List.map_map, same]

theorem readable_jsonGrant (grant : List Int) : (jsonGrant grant).Readable := by
  refine .arr fun item inside => ?_
  obtain ⟨value, _, rfl⟩ := List.mem_map.mp inside
  exact .int value

theorem readGrant_jsonGrant (grant : List Int) : readGrant (jsonGrant grant) = .ok grant := by
  unfold readGrant jsonGrant
  dsimp only
  induction grant with
  | nil => rfl
  | cons value rest inductionHypothesis =>
      rw [List.map_cons, List.mapM_cons, inductionHypothesis]
      rfl

theorem sorted_jsonTreasury (treasuryAddress : Option Str) :
    (jsonTreasury treasuryAddress).sorted = jsonTreasury treasuryAddress := by
  cases treasuryAddress <;> rfl

theorem readable_jsonTreasury (treasuryAddress : Option Str) :
    (jsonTreasury treasuryAddress).Readable := by
  cases treasuryAddress with
  | none => exact .null
  | some address => exact .str address

/-- The parameters with the keys of their dictionaries in order. -/
def GenesisArgs.keySorted (args : GenesisArgs) : GenesisArgs :=
  { args with
    allocations := sortDict args.allocations
    initialStakes := sortDict args.initialStakes
    vesting := sortDict args.vesting }

/-- The members of the genesis file with their own keys in order. -/
def genesisFields (args : GenesisArgs) : List (Str × Json) :=
  [(Key.allocations, jsonDict .int (sortDict args.allocations)),
    (Key.initialStakes, jsonDict .int (sortDict args.initialStakes)),
    (Key.timestamp, .int args.timestamp),
    (Key.vesting, jsonDict jsonGrant (sortDict args.vesting)),
    (Key.unbondingBlocks, .int args.unbondingBlocks),
    (Key.treasuryAddress, jsonTreasury args.treasuryAddress),
    (Key.epoch, .int args.epoch)]

theorem genesisKeys_nodup :
    [Key.allocations, Key.initialStakes, Key.timestamp, Key.vesting, Key.unbondingBlocks,
      Key.treasuryAddress, Key.epoch].Nodup := by decide

theorem sorted_genesisPayload (args : GenesisArgs) :
    (genesisPayload args).sorted = .obj (Json.sortMembers (genesisFields args)) := by
  have number : ∀ value : Int, (Json.int value).sorted = .int value := fun _ => rfl
  simp only [genesisPayload, Json.sorted, Json.sortedFields, sorted_jsonDict number,
    sorted_jsonDict sorted_jsonGrant, sorted_jsonTreasury, genesisFields]

theorem readable_genesisPayload (args : GenesisArgs) : (genesisPayload args).Readable := by
  refine .obj genesisKeys_nodup ?_
  intro entry inside
  simp only [List.mem_cons, List.not_mem_nil, or_false] at inside
  rcases inside with rfl | rfl | rfl | rfl | rfl | rfl | rfl
  · exact readable_jsonDict .int _
  · exact readable_jsonDict .int _
  · exact .int _
  · exact readable_jsonDict readable_jsonGrant _
  · exact .int _
  · exact readable_jsonTreasury _
  · exact .int _

section

variable [Primitives]

/-- The genesis file loses nothing: what is read is what was written, with the
keys of every dictionary in order. -/
theorem genesisParams_writeGenesis
    {args : GenesisArgs}
    {fresh : BlockStore}
    (initialised : BlockStore.writeGenesis none args = .ok fresh)
    (reads : Primitives.jsonLoads fresh.genesis = some (genesisPayload args).sorted) :
    fresh.genesisParams = .ok args.keySorted := by
  simp only [BlockStore.writeGenesis, rejectIf, bind_eq_ok, pure_eq_ok] at initialised
  obtain ⟨_, _, rfl⟩ := initialised
  have readable := (readable_genesisPayload args).sorted
  have printable : (jsonDumps (genesisPayload args).sorted).all Json.isPrintable = true :=
    readable.all_isPrintable rfl
  have oneLine : translateNewlines (jsonDumps (genesisPayload args).sorted) =
      jsonDumps (genesisPayload args).sorted :=
    translateNewlines_eq_self (not_mem_of_printable printable rfl)
  have integral := hasFloat_of_readable readable
  dsimp only at reads
  rw [sorted_genesisPayload] at oneLine reads integral
  have found : ∀ key, Json.field (Json.sortMembers (genesisFields args)) key =
      Json.field (genesisFields args) key :=
    Json.field_eq_of_perm (Json.perm_sortMembers _) genesisKeys_nodup
  have number : ∀ value : Int, readInteger (.int value) = .ok value := fun _ => rfl
  have treasury : readTreasury (some (jsonTreasury args.treasuryAddress)) =
      .ok args.treasuryAddress := by
    cases args.treasuryAddress <;> rfl
  simp only [BlockStore.genesisParams, sorted_genesisPayload, oneLine, rejectIf, bind_eq_ok,
    require_eq_ok, raiseIf_eq_ok, exists_unit]
  refine ⟨_, reads, ?_, ?_⟩
  · rw [integral]
    exact Bool.false_ne_true
  · simp only [intFieldD, found, bind_eq_ok, require_eq_ok]
    refine ⟨_, readDict_jsonDict readGrant_jsonGrant _, _, rfl, _, readDict_jsonDict number _, _,
      rfl, _, readDict_jsonDict number _, _, rfl, _, number _, _, rfl, _, treasury, _, rfl, rfl⟩

end

end Mindees
