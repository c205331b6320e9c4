import Mindees.Library.Dict

/-!
# Queues by key

Items are grouped into one queue for each key, and the queues are merged by the
priority of their heads.  A merge takes a first part of every queue and keeps
its order.
-/

namespace Library

universe u v w

variable {κ : Type u} {ν : Type v} {α : Type w} [DecidableEq κ]

/-! ## Grouping -/

/-- Append every item to the queue of its key. -/
def groupBy (key : α → κ) (items : List α) : Dict κ (List α) :=
  items.foldl
    (fun groups item => groups.set (key item) (groups.getD (key item) [] ++ [item]))
    Dict.empty

/-- The queue of a key has the items with that key in their order. -/
theorem getD_groupBy
    (key : α → κ)
    (items : List α)
    (wanted : κ) :
    (groupBy key items).getD wanted [] = items.filter fun item => key item = wanted := by
  have step : ∀ (items : List α) (groups : Dict κ (List α)),
      (items.foldl
        (fun groups item => groups.set (key item) (groups.getD (key item) [] ++ [item]))
        groups).getD wanted [] =
        groups.getD wanted [] ++ items.filter fun item => key item = wanted := by
    intro items
    induction items with
    | nil =>
        intro groups
        simp
    | cons item rest inductionHypothesis =>
        intro groups
        rw [List.foldl_cons, inductionHypothesis, Dict.getD_set]
        by_cases same : key item = wanted
        · simp [same]
        · simp [same]
  have all := step items Dict.empty
  rwa [Dict.getD_empty, List.nil_append] at all

/-- The nonempty queues that a function makes of the entries. -/
def collect (make : κ → ν → List α) (dict : Dict κ ν) : Dict κ (List α) :=
  dict.entries.foldl
    (fun queues entry =>
      let queue := make entry.1 entry.2
      if queue.isEmpty then queues else queues.set entry.1 queue)
    Dict.empty

/-- The queue of a key is made of its entry. -/
theorem getD_collect
    (make : κ → ν → List α)
    (dict : Dict κ ν)
    (key : κ) :
    (collect make dict).getD key [] = (dict.get? key).elim [] (make key) := by
  have step : ∀ (entries : List (κ × ν)) (queues : Dict κ (List α)),
      (entries.map Prod.fst).Nodup →
      (entries.foldl
        (fun queues entry =>
          let queue := make entry.1 entry.2
          if queue.isEmpty then queues else queues.set entry.1 queue)
        queues).getD key [] =
        match Dict.lookup entries key with
        | some value =>
            if (make key value).isEmpty then queues.getD key [] else make key value
        | none => queues.getD key [] := by
    intro entries
    induction entries with
    | nil =>
        intro queues _
        rfl
    | cons entry rest inductionHypothesis =>
        intro queues nodup
        obtain ⟨first, value⟩ := entry
        rw [List.map_cons, List.nodup_cons] at nodup
        rw [List.foldl_cons, inductionHypothesis _ nodup.2]
        by_cases same : first = key
        · subst same
          have absent : Dict.lookup rest first = none :=
            (Dict.lookup_eq_none_iff _ _).mpr nodup.1
          simp only [absent, Dict.lookup, if_true]
          split_ifs <;> simp [Dict.getD_set]
        · simp only [Dict.lookup, same, if_false]
          have kept : ∀ queue : List α,
              (queues.set first queue).getD key [] = queues.getD key [] := by
            intro queue
            rw [Dict.getD_set, if_neg same]
          split_ifs with empty <;> simp [kept]
  rw [collect, step dict.entries Dict.empty dict.nodupKeys, Dict.getD_empty]
  change (match dict.get? key with | some value => _ | none => _) = _
  cases dict.get? key with
  | none => rfl
  | some value =>
      by_cases empty : (make key value).isEmpty = true
      · simp [List.isEmpty_iff.mp empty]
      · simp [empty]

/-! ## Merging -/

section Merge

variable (queues : Dict κ (List α)) (priority : α → Int)

/-- The key whose head has the highest non-negative priority, the first one on
ties, with that priority. -/
def bestHead (heads : Dict κ Nat) : Option κ × Int :=
  heads.entries.foldl
    (fun best head =>
      match (queues.getD head.1 [])[head.2]? with
      | some item => if best.2 < priority item then (some head.1, priority item) else best
      | none => best)
    (none, -1)

/-- Take the best head as long as there is room and a head. -/
def mergeLoop : (room : Nat) → Dict κ Nat → List α
  | 0, _ => []
  | room + 1, heads =>
      match (bestHead queues priority heads).1 with
      | none => []
      | some key =>
          match (queues.getD key [])[heads.getD key 0]? with
          | none => []
          | some item => item :: mergeLoop room (heads.set key (heads.getD key 0 + 1))

/-- Merge the queues by priority. -/
def merge (room : Nat) : List α :=
  mergeLoop queues priority room (queues.mapValues fun _ => 0)

variable {queues}

/-- What is merged of a queue is a first part of what is left of it. -/
theorem filter_mergeLoop
    (priority : α → Int)
    {owner : α → κ}
    (owned : ∀ key, ∀ item ∈ queues.getD key [], owner item = key)
    (room : Nat)
    (heads : Dict κ Nat)
    (key : κ) :
    (mergeLoop queues priority room heads).filter (fun item => owner item = key) <+:
      (queues.getD key []).drop (heads.getD key 0) := by
  induction room generalizing heads with
  | zero => exact List.nil_prefix
  | succ room inductionHypothesis =>
      rw [mergeLoop]
      split
      · exact List.nil_prefix
      · rename_i winner _
        split
        · exact List.nil_prefix
        · rename_i item found
          have rest := inductionHypothesis (heads.set winner (heads.getD winner 0 + 1))
          have inside : item ∈ queues.getD winner [] := List.mem_of_getElem? found
          rw [List.filter_cons, owned winner item inside]
          rw [Dict.getD_set] at rest
          by_cases same : winner = key
          · subst same
            rw [if_pos rfl] at rest
            have taken : (queues.getD winner []).drop (heads.getD winner 0) =
                item :: (queues.getD winner []).drop (heads.getD winner 0 + 1) := by
              obtain ⟨bound, here⟩ := List.getElem?_eq_some_iff.mp found
              rw [List.drop_eq_getElem_cons bound, here]
            rw [taken, if_pos (decide_eq_true rfl)]
            exact List.cons_prefix_cons.mpr ⟨rfl, rest⟩
          · rw [if_neg same] at rest
            rw [if_neg (by rw [decide_eq_true_iff]; exact same)]
            exact rest

/-- A merge starts at the first item of every queue. -/
theorem getD_start (queues : Dict κ (List α)) (key : κ) :
    (queues.mapValues fun _ => 0).getD key 0 = 0 := by
  rw [Dict.getD, Dict.get?_mapValues]
  cases queues.get? key <;> rfl

/-- A merge takes a first part of every queue, in order. -/
theorem filter_merge
    (priority : α → Int)
    {owner : α → κ}
    (owned : ∀ key, ∀ item ∈ queues.getD key [], owner item = key)
    (room : Nat)
    (key : κ) :
    (merge queues priority room).filter (fun item => owner item = key) <+:
      queues.getD key [] := by
  have merged : (merge queues priority room).filter (fun item => owner item = key) <+:
      (queues.getD key []).drop ((queues.mapValues fun _ => 0).getD key 0) :=
    filter_mergeLoop priority owned room _ key
  rwa [getD_start, List.drop_zero] at merged

/-- The scan for the best head keeps its start or finds a head, and no head it
passes has a higher priority. -/
theorem foldl_bestHead
    (queues : Dict κ (List α))
    (priority : α → Int)
    (heads : List (κ × Nat))
    (start : Option κ × Int) :
    let result := heads.foldl
      (fun best head =>
        match (queues.getD head.1 [])[head.2]? with
        | some item => if best.2 < priority item then (some head.1, priority item) else best
        | none => best)
      start
    start.2 ≤ result.2 ∧
      (∀ head ∈ heads, ∀ item, (queues.getD head.1 [])[head.2]? = some item →
        priority item ≤ result.2) ∧
      (result = start ∨ ∃ head ∈ heads, ∃ item, (queues.getD head.1 [])[head.2]? = some item ∧
        result = (some head.1, priority item)) := by
  induction heads generalizing start with
  | nil => exact ⟨le_rfl, fun head inside => absurd inside List.not_mem_nil, .inl rfl⟩
  | cons head rest inductionHypothesis =>
      rw [List.foldl_cons]
      cases found : (queues.getD head.1 [])[head.2]? with
      | none =>
          obtain ⟨grows, beaten, source⟩ := inductionHypothesis start
          refine ⟨grows, fun other inside item here => ?_, source.imp_right ?_⟩
          · rcases List.mem_cons.mp inside with rfl | later
            · rw [found] at here
              cases here
            · exact beaten other later item here
          · rintro ⟨other, inside, item, here, same⟩
            exact ⟨other, List.mem_cons_of_mem head inside, item, here, same⟩
      | some item =>
          dsimp only
          split_ifs with better
          · obtain ⟨grows, beaten, source⟩ := inductionHypothesis (some head.1, priority item)
            refine ⟨better.le.trans grows, fun other inside item' here => ?_, .inr ?_⟩
            · rcases List.mem_cons.mp inside with rfl | later
              · rw [found] at here
                cases here
                exact grows
              · exact beaten other later item' here
            · rcases source with same | ⟨other, inside, item', here, same⟩
              · exact ⟨head, List.mem_cons_self, item, found, same⟩
              · exact ⟨other, List.mem_cons_of_mem head inside, item', here, same⟩
          · obtain ⟨grows, beaten, source⟩ := inductionHypothesis start
            refine ⟨grows, fun other inside item' here => ?_, source.imp_right ?_⟩
            · rcases List.mem_cons.mp inside with rfl | later
              · rw [found] at here
                cases here
                exact (not_lt.mp better).trans grows
              · exact beaten other later item' here
            · rintro ⟨other, inside, item', here, same⟩
              exact ⟨other, List.mem_cons_of_mem head inside, item', here, same⟩

/-- The winner has a head, and no other head has a higher priority. -/
theorem bestHead_eq_some
    {priority : α → Int}
    {heads : Dict κ Nat}
    {winner : κ}
    (best : (bestHead queues priority heads).1 = some winner) :
    ∃ item, (queues.getD winner [])[heads.getD winner 0]? = some item ∧
      ∀ key position other, heads.get? key = some position →
        (queues.getD key [])[position]? = some other → priority other ≤ priority item := by
  obtain ⟨_, beaten, source⟩ := foldl_bestHead queues priority heads.entries (none, -1)
  rcases source with same | ⟨head, inside, item, found, same⟩
  · rw [bestHead, same] at best
    cases best
  · rw [bestHead, same] at best
    cases best
    rw [same] at beaten
    refine ⟨item, ?_, fun key position other recorded here => ?_⟩
    · rwa [Dict.getD_eq_of_get? ((heads.mem_entries_iff head.1 head.2).mp inside)]
    · exact beaten (key, position) ((heads.mem_entries_iff key position).mpr recorded) other here

/-- Without a winner no queue has a head of priority zero or more. -/
theorem bestHead_eq_none
    {priority : α → Int}
    {heads : Dict κ Nat}
    (nonneg : ∀ key, ∀ item ∈ queues.getD key [], 0 ≤ priority item)
    (ended : (bestHead queues priority heads).1 = none)
    {key : κ}
    {position : Nat}
    (recorded : heads.get? key = some position) :
    (queues.getD key [])[position]? = none := by
  obtain ⟨_, beaten, source⟩ := foldl_bestHead queues priority heads.entries (none, -1)
  rcases source with same | ⟨head, _, item, _, same⟩
  · rw [same] at beaten
    by_contra waiting
    obtain ⟨item, found⟩ := Option.ne_none_iff_exists'.mp waiting
    have low := beaten (key, position) ((heads.mem_entries_iff key position).mpr recorded) item
      found
    have high := nonneg key item (List.mem_of_getElem? found)
    dsimp only at low
    omega
  · rw [bestHead, same] at ended
    cases ended

/-- Every queue with items has a head. -/
def Tracked (queues : Dict κ (List α)) (heads : Dict κ Nat) : Prop :=
  ∀ key, queues.getD key [] ≠ [] → heads.contains key = true

theorem Tracked.set
    {heads : Dict κ Nat}
    (tracked : Tracked queues heads)
    (winner : κ)
    (position : Nat) :
    Tracked queues (heads.set winner position) := by
  intro key filled
  rw [Dict.contains_set, tracked key filled]
  simp

theorem Tracked.get?
    {heads : Dict κ Nat}
    (tracked : Tracked queues heads)
    {key : κ}
    (filled : queues.getD key [] ≠ []) :
    heads.get? key = some (heads.getD key 0) := by
  obtain ⟨position, found⟩ := (Dict.contains_iff _ _).mp (tracked key filled)
  rw [Dict.getD_eq_of_get? found, found]

section

variable {priority : α → Int} {owner : α → κ} {room : Nat} {heads : Dict κ Nat}

/-- A merge takes the winner first, or ends. -/
theorem mergeLoop_cases
    (owned : ∀ key, ∀ item ∈ queues.getD key [], owner item = key)
    (nonneg : ∀ key, ∀ item ∈ queues.getD key [], 0 ≤ priority item)
    (tracked : Tracked queues heads) :
    (mergeLoop queues priority (room + 1) heads = [] ∧
      ∀ key, (queues.getD key []).length ≤ heads.getD key 0) ∨
    ∃ item, mergeLoop queues priority (room + 1) heads =
        item :: mergeLoop queues priority room
          (heads.set (owner item) (heads.getD (owner item) 0 + 1)) ∧
      (queues.getD (owner item) [])[heads.getD (owner item) 0]? = some item ∧
      ∀ key other, (queues.getD key [])[heads.getD key 0]? = some other →
        priority other ≤ priority item := by
  have filled : ∀ (key : κ) (position : Nat) (other : α),
      (queues.getD key [])[position]? = some other → queues.getD key [] ≠ [] := by
    intro key position other found
    exact List.ne_nil_of_mem (List.mem_of_getElem? found)
  rw [mergeLoop]
  cases best : (bestHead queues priority heads).1 with
  | none =>
      refine .inl ⟨rfl, fun key => ?_⟩
      by_contra waiting
      rw [not_le] at waiting
      have items : queues.getD key [] ≠ [] :=
        List.ne_nil_of_length_pos (Nat.zero_lt_of_lt waiting)
      have ended := bestHead_eq_none nonneg best (tracked.get? items)
      rw [List.getElem?_eq_none_iff] at ended
      omega
  | some winner =>
      obtain ⟨item, found, beaten⟩ := bestHead_eq_some best
      have mine : owner item = winner := owned winner item (List.mem_of_getElem? found)
      refine .inr ⟨item, ?_, ?_, fun key other here => ?_⟩
      · simp only [found, mine]
      · rw [mine]
        exact found
      · exact beaten key _ other (tracked.get? (filled key _ other here)) here

/-- What a merge takes next has the highest priority of all heads. -/
theorem mergeLoop_best
    (owned : ∀ key, ∀ item ∈ queues.getD key [], owner item = key)
    (nonneg : ∀ key, ∀ item ∈ queues.getD key [], 0 ≤ priority item)
    (tracked : Tracked queues heads)
    {earlier later : List α}
    {item other : α}
    (key : κ)
    (merged : mergeLoop queues priority room heads = earlier ++ item :: later)
    (waiting : (queues.getD key [])[heads.getD key 0 +
      (earlier.filter fun item => owner item = key).length]? = some other) :
    priority other ≤ priority item := by
  induction room generalizing heads earlier with
  | zero =>
      rw [mergeLoop] at merged
      exact absurd merged (by simp)
  | succ room inductionHypothesis =>
      rcases mergeLoop_cases owned nonneg tracked with ⟨ended, _⟩ | ⟨first, taken, _, beaten⟩
      · rw [ended] at merged
        exact absurd merged (by simp)
      · rw [taken] at merged
        cases earlier with
        | nil =>
            obtain ⟨rfl, _⟩ := List.cons.inj merged
            exact beaten key other waiting
        | cons before earlier =>
            obtain ⟨rfl, rest⟩ := List.cons.inj merged
            refine inductionHypothesis (tracked.set _ _) rest ?_
            rw [Dict.getD_set]
            rw [List.filter_cons] at waiting
            by_cases mine : owner first = key
            · subst mine
              simp only [decide_true, if_true, List.length_cons] at waiting ⊢
              rwa [Nat.add_assoc, Nat.add_comm 1]
            · simpa [mine] using waiting

/-- A merge that leaves room has taken all queues. -/
theorem filter_mergeLoop_of_room
    (owned : ∀ key, ∀ item ∈ queues.getD key [], owner item = key)
    (nonneg : ∀ key, ∀ item ∈ queues.getD key [], 0 ≤ priority item)
    (tracked : Tracked queues heads)
    (left : (mergeLoop queues priority room heads).length < room)
    (key : κ) :
    (mergeLoop queues priority room heads).filter (fun item => owner item = key) =
      (queues.getD key []).drop (heads.getD key 0) := by
  induction room generalizing heads with
  | zero => exact absurd left (Nat.not_lt_zero _)
  | succ room inductionHypothesis =>
      rcases mergeLoop_cases owned nonneg tracked with ⟨ended, empty⟩ | ⟨first, taken, found, _⟩
      · rw [ended, List.drop_eq_nil_of_le (empty key), List.filter_nil]
      · rw [taken] at left ⊢
        rw [List.length_cons, Nat.add_lt_add_iff_right] at left
        have rest := inductionHypothesis (tracked.set _ _) left
        rw [List.filter_cons, rest, Dict.getD_set]
        by_cases mine : owner first = key
        · subst mine
          obtain ⟨bound, here⟩ := List.getElem?_eq_some_iff.mp found
          rw [if_pos (decide_eq_true rfl), if_pos rfl, List.drop_eq_getElem_cons bound, here]
        · simp [mine]

end

theorem tracked_start (queues : Dict κ (List α)) :
    Tracked queues (queues.mapValues fun _ => 0) := by
  intro key filled
  rw [Dict.contains, Dict.get?_mapValues]
  rw [Dict.getD] at filled
  cases found : queues.get? key with
  | none => exact absurd (by rw [found]; rfl) filled
  | some queue => rfl

/-- A merge takes an item only when no head has a higher priority. -/
theorem merge_best
    {priority : α → Int}
    {owner : α → κ}
    {room : Nat}
    (owned : ∀ key, ∀ item ∈ queues.getD key [], owner item = key)
    (nonneg : ∀ key, ∀ item ∈ queues.getD key [], 0 ≤ priority item)
    {earlier later : List α}
    {item other : α}
    {key : κ}
    (merged : merge queues priority room = earlier ++ item :: later)
    (waiting : (queues.getD key [])[(earlier.filter fun item => owner item = key).length]? =
      some other) :
    priority other ≤ priority item := by
  refine mergeLoop_best owned nonneg (tracked_start queues) key merged ?_
  rwa [getD_start, Nat.zero_add]

/-- A merge that leaves room has taken all queues. -/
theorem filter_merge_of_room
    {priority : α → Int}
    {owner : α → κ}
    {room : Nat}
    (owned : ∀ key, ∀ item ∈ queues.getD key [], owner item = key)
    (nonneg : ∀ key, ∀ item ∈ queues.getD key [], 0 ≤ priority item)
    (left : (merge queues priority room).length < room)
    (key : κ) :
    (merge queues priority room).filter (fun item => owner item = key) =
      queues.getD key [] := by
  rw [merge, filter_mergeLoop_of_room owned nonneg (tracked_start queues) left, getD_start,
    List.drop_zero]

end Merge

end Library
