import Mathlib.Data.Fintype.Card
import Mathlib.Logic.Relation

/-!
# Flooding

A node that takes something new hands it on to its peers, one after the other,
except to the one it came from, and each peer does the same before the next one
has its turn.  Nodes that drop what they took before make the flood end, after
it has been everywhere it can get.
-/

namespace Library

/-- What a node makes of what it is handed. -/
inductive Verdict (ε : Type u) (σ : Type v)
  | drop (state : σ)
  | fail (error : ε) (state : σ)
  | pass (state : σ)

section

variable {ι : Type u} {σ : Type v} {ε : Type w} [DecidableEq ι]

/-- Hand on to the listed nodes in order, but not to the origin. -/
def relayLoop
    (receive : (ι → σ) → ι → Except ε Unit × (ι → σ))
    (origin : Option ι) : List ι → (ι → σ) → Except ε Unit × (ι → σ)
  | [], nodes => (.ok (), nodes)
  | peer :: rest, nodes =>
      if origin = some peer then relayLoop receive origin rest nodes
      else
        match receive nodes peer with
        | (.error error, nodes) => (.error error, nodes)
        | (.ok _, nodes) => relayLoop receive origin rest nodes

/-- What happens from the moment a node is handed something. -/
def flood
    (peers : σ → List ι)
    (handle : σ → Verdict ε σ)
    (exhausted : ε) : (fuel : Nat) → (ι → σ) → ι → Option ι → Except ε Unit × (ι → σ)
  | fuel, nodes, id, origin =>
      match handle (nodes id) with
      | .drop state => (.ok (), Function.update nodes id state)
      | .fail error state => (.error error, Function.update nodes id state)
      | .pass state =>
          match fuel with
          | 0 => (.error exhausted, Function.update nodes id state)
          | fuel + 1 =>
              relayLoop (fun nodes peer => flood peers handle exhausted fuel nodes peer (some id))
                origin (peers state) (Function.update nodes id state)

end

/-! ## Where a flood gets -/

section

variable {ι : Type u} {σ : Type v} {ε : Type w} {peers : σ → List ι}
  {handle : σ → Verdict ε σ} {start finish : ι → σ}

/-- Every node passes on the first time and drops every other time. -/
structure Spreads
    (peers : σ → List ι)
    (handle : σ → Verdict ε σ)
    (start finish : ι → σ) : Prop where
  passes : ∀ id, handle (start id) = .pass (finish id)
  drops : ∀ id, handle (finish id) = .drop (finish id)
  links : ∀ id, peers (finish id) = peers (start id)

/-- The visits that a part of a flood adds: each is a node that can be reached,
and all its peers are visited too. -/
structure Explores (link : ι → ι → Prop) (source : ι) (visited more : Finset ι) : Prop where
  grows : visited ⊆ more
  closed : ∀ id ∈ more, id ∉ visited → ∀ peer, link id peer → peer ∈ more
  reached : ∀ id ∈ more, id ∉ visited → Relation.ReflTransGen link source id

namespace Explores

variable {link : ι → ι → Prop} {source peer : ι} {visited middle more : Finset ι}

theorem refl : Explores link source visited visited where
  grows := Finset.Subset.refl _
  closed _ inside new := absurd inside new
  reached _ inside new := absurd inside new

theorem trans
    (first : Explores link source visited middle)
    (second : Explores link source middle more) :
    Explores link source visited more where
  grows := first.grows.trans second.grows
  closed id inside new other linked := by
    by_cases before : id ∈ middle
    · exact second.grows (first.closed id before new other linked)
    · exact second.closed id inside before other linked
  reached id inside new := by
    by_cases before : id ∈ middle
    · exact first.reached id before new
    · exact second.reached id inside before

theorem of_link
    (linked : link source peer)
    (explores : Explores link peer visited more) :
    Explores link source visited more :=
  ⟨explores.grows, explores.closed,
    fun id inside new => .head linked (explores.reached id inside new)⟩

/-- From nowhere, exactly what can be reached is explored. -/
theorem mem_iff
    (explores : Explores link source ∅ more)
    (first : source ∈ more)
    (id : ι) :
    id ∈ more ↔ Relation.ReflTransGen link source id := by
  constructor
  · exact fun inside => explores.reached id inside (Finset.notMem_empty id)
  · intro reached
    induction reached with
    | refl => exact first
    | tail _ linked inside => exact explores.closed _ inside (Finset.notMem_empty _) _ linked

end Explores

variable [DecidableEq ι]

/-- The nodes when the flood has been at some of them. -/
def flooded (start finish : ι → σ) (visited : Finset ι) : ι → σ :=
  fun id => if id ∈ visited then finish id else start id

theorem update_flooded
    {visited : Finset ι}
    (id : ι) :
    Function.update (flooded start finish visited) id (finish id) =
      flooded start finish (insert id visited) := by
  funext other
  by_cases same : other = id
  · subst same
    rw [Function.update_self, flooded, if_pos (Finset.mem_insert_self _ _)]
  · rw [Function.update_of_ne same, flooded, flooded]
    simp only [Finset.mem_insert, same, false_or]

/-- What is explored from a node and all its peers is explored from the node. -/
theorem Explores.of_insert
    {link : ι → ι → Prop}
    {source : ι}
    {visited more : Finset ι}
    (explores : Explores link source (insert source visited) more)
    (all : ∀ peer, link source peer → peer ∈ more) :
    Explores link source visited more where
  grows := (Finset.subset_insert _ _).trans explores.grows
  closed id inside new other linked := by
    by_cases same : id = source
    · subst same
      exact all other linked
    · exact explores.closed id inside (by simp [same, new]) other linked
  reached id inside new := by
    by_cases same : id = source
    · subst same
      exact .refl
    · exact explores.reached id inside (by simp [same, new])

/-- The peers of a node as the flood starts. -/
def linked (peers : σ → List ι) (start : ι → σ) (id peer : ι) : Prop := peer ∈ peers (start id)

/-- A round of handing on explores from the node that hands on. -/
theorem relayLoop_explores
    (receive : (ι → σ) → ι → Except ε Unit × (ι → σ))
    {link : ι → ι → Prop}
    {id : ι}
    {origin : Option ι}
    {visited : Finset ι}
    (receives : ∀ before peer, visited ⊆ before → link id peer →
      ∃ more, receive (flooded start finish before) peer = (.ok (), flooded start finish more) ∧
        Explores link peer before more ∧ peer ∈ more)
    (known : ∀ other, origin = some other → other ∈ visited)
    {listed : List ι}
    (links : ∀ peer ∈ listed, link id peer) :
    ∃ more, relayLoop receive origin listed (flooded start finish visited) =
        (.ok (), flooded start finish more) ∧
      Explores link id visited more ∧ ∀ peer ∈ listed, peer ∈ more := by
  induction listed generalizing visited with
  | nil => exact ⟨visited, rfl, .refl, fun peer inside => absurd inside List.not_mem_nil⟩
  | cons peer rest inductionHypothesis =>
      obtain ⟨first, others⟩ := List.forall_mem_cons.mp links
      rw [relayLoop]
      split_ifs with back
      · obtain ⟨more, ran, explores, all⟩ := inductionHypothesis receives known others
        refine ⟨more, ran, explores, List.forall_mem_cons.mpr ⟨?_, all⟩⟩
        exact explores.grows (known peer back)
      · obtain ⟨middle, received, explores, visitedPeer⟩ :=
          receives visited peer (Finset.Subset.refl _) first
        obtain ⟨more, ran, exploresMore, all⟩ := inductionHypothesis
          (fun before other longer => receives before other (explores.grows.trans longer))
          (fun other same => explores.grows (known other same)) others
        rw [received]
        refine ⟨more, ran, (explores.of_link first).trans exploresMore, ?_⟩
        exact List.forall_mem_cons.mpr ⟨exploresMore.grows visitedPeer, all⟩

/-- A node that was visited drops. -/
theorem Spreads.flood_visited
    {exhausted : ε}
    (spreads : Spreads peers handle start finish)
    {visited : Finset ι}
    {id : ι}
    (old : id ∈ visited)
    (fuel : Nat)
    (origin : Option ι) :
    flood peers handle exhausted fuel (flooded start finish visited) id origin =
      (.ok (), flooded start finish visited) := by
  have dropped : handle (flooded start finish visited id) = .drop (finish id) := by
    rw [flooded, if_pos old]
    exact spreads.drops id
  have unchanged : Function.update (flooded start finish visited) id (finish id) =
      flooded start finish visited := by
    rw [update_flooded, Finset.insert_eq_of_mem old]
  unfold flood
  simp only [dropped, unchanged]

variable [Fintype ι] {exhausted : ε}

/-- A flood ends, and explores from where it starts. -/
theorem Spreads.flood_explores
    (spreads : Spreads peers handle start finish)
    {fuel : Nat}
    {visited : Finset ι}
    {id : ι}
    {origin : Option ι}
    (enough : (visitedᶜ).card ≤ fuel)
    (known : ∀ other, origin = some other → other ∈ visited) :
    ∃ more, flood peers handle exhausted fuel (flooded start finish visited) id origin =
        (.ok (), flooded start finish more) ∧
      Explores (linked peers start) id visited more ∧ id ∈ more := by
  induction fuel generalizing visited id origin with
  | zero =>
      have everywhere : id ∈ visited := by
        by_contra new
        have some : 0 < (visitedᶜ).card := Finset.card_pos.mpr ⟨id, Finset.mem_compl.mpr new⟩
        omega
      exact ⟨visited, spreads.flood_visited everywhere 0 origin, .refl, everywhere⟩
  | succ fuel inductionHypothesis =>
      by_cases old : id ∈ visited
      · exact ⟨visited, spreads.flood_visited old (fuel + 1) origin, .refl, old⟩
      · have passed : handle (flooded start finish visited id) = .pass (finish id) := by
          rw [flooded, if_neg old]
          exact spreads.passes id
        -- whatever the peers do, one node less is left for them
        have fewer : ∀ before, insert id visited ⊆ before → (beforeᶜ).card ≤ fuel := by
          intro before longer
          have smaller : beforeᶜ ⊂ visitedᶜ := by
            apply Finset.compl_ssubset_compl.mpr
            exact (Finset.ssubset_insert old).trans_subset longer
          have := Finset.card_lt_card smaller
          omega
        have known' : ∀ other, origin = some other → other ∈ insert id visited :=
          fun other same => Finset.mem_insert_of_mem (known other same)
        have links : ∀ peer ∈ peers (finish id), linked peers start id peer := by
          intro peer inside
          rw [linked, ← spreads.links]
          exact inside
        obtain ⟨more, ran, explores, all⟩ := relayLoop_explores
          (fun nodes peer => flood peers handle exhausted fuel nodes peer (some id))
          (fun before peer longer _ => inductionHypothesis (fewer before longer) (by
            rintro other ⟨⟩
            exact longer (Finset.mem_insert_self _ _)))
          known' links
        refine ⟨more, ?_, explores.of_insert fun peer isLinked => ?_,
          explores.grows (Finset.mem_insert_self _ _)⟩
        · unfold flood
          simp only [passed, update_flooded]
          exact ran
        · rw [linked, ← spreads.links] at isLinked
          exact all peer isLinked

/-- A flood ends, has been exactly where it can get, and changed nothing else. -/
theorem Spreads.flood_reaches
    {fuel : Nat}
    (spreads : Spreads peers handle start finish)
    (enough : Fintype.card ι ≤ fuel)
    (source : ι) :
    (flood peers handle exhausted fuel start source none).1 = .ok () ∧
    ∀ id,
      (Relation.ReflTransGen (linked peers start) source id →
        (flood peers handle exhausted fuel start source none).2 id = finish id) ∧
      (¬Relation.ReflTransGen (linked peers start) source id →
        (flood peers handle exhausted fuel start source none).2 id = start id) := by
  have nowhere : flooded start finish ∅ = start := by
    funext id
    exact if_neg (Finset.notMem_empty id)
  have everyone : ((∅ : Finset ι)ᶜ).card ≤ fuel := by
    rw [Finset.compl_empty, Finset.card_univ]
    exact enough
  have fromNowhere : ∀ other, (none : Option ι) = some other → other ∈ (∅ : Finset ι) := by
    rintro other ⟨⟩
  obtain ⟨more, ran, explores, first⟩ :
      ∃ more, flood peers handle exhausted fuel (flooded start finish ∅) source none =
          (.ok (), flooded start finish more) ∧
        Explores (linked peers start) source ∅ more ∧ source ∈ more :=
    spreads.flood_explores everyone fromNowhere
  rw [nowhere] at ran
  rw [ran]
  refine ⟨rfl, fun id => ⟨fun reached => ?_, fun apart => ?_⟩⟩
  · exact if_pos ((explores.mem_iff first id).mpr reached)
  · exact if_neg fun inside => apart ((explores.mem_iff first id).mp inside)

end

/-! ## What a flood does in any case -/

section

variable {ι : Type u} {σ : Type v} {ε : Type w} {peers : σ → List ι}
  {handle : σ → Verdict ε σ}

/-- The node after it was handed something. -/
def Verdict.state : Verdict ε σ → σ
  | drop state => state
  | fail _ state => state
  | pass state => state

/-- A node handled something. -/
def Handles (handle : σ → Verdict ε σ) (before after : σ) : Prop :=
  after = (handle before).state

variable [DecidableEq ι]

theorem relayLoop_related
    (related : (ι → σ) → (ι → σ) → Prop)
    (refl : ∀ nodes, related nodes nodes)
    (trans : ∀ first second third, related first second → related second third →
      related first third)
    {receive : (ι → σ) → ι → Except ε Unit × (ι → σ)}
    (step : ∀ nodes peer, related nodes (receive nodes peer).2)
    (origin : Option ι)
    (listed : List ι)
    (nodes : ι → σ) :
    related nodes (relayLoop receive origin listed nodes).2 := by
  induction listed generalizing nodes with
  | nil => exact refl nodes
  | cons peer rest inductionHypothesis =>
      rw [relayLoop]
      split_ifs with back
      · exact inductionHypothesis nodes
      · have first := step nodes peer
        cases received : receive nodes peer with
        | mk answer after =>
            rw [received] at first
            cases answer with
            | error error => exact first
            | ok _ => exact trans _ _ _ first (inductionHypothesis after)

/-- A flood does to each node what handling some number of times does. -/
theorem flood_handles
    (exhausted : ε)
    (fuel : Nat)
    (nodes : ι → σ)
    (source : ι)
    (origin : Option ι)
    (id : ι) :
    Relation.ReflTransGen (Handles handle) (nodes id)
      ((flood peers handle exhausted fuel nodes source origin).2 id) := by
  have handled : ∀ (nodes : ι → σ) source id, Relation.ReflTransGen (Handles handle) (nodes id)
      (Function.update nodes source (handle (nodes source)).state id) := by
    intro nodes source id
    by_cases same : id = source
    · subst same
      rw [Function.update_self]
      exact .single rfl
    · rw [Function.update_of_ne same]
  induction fuel generalizing nodes source origin id with
  | zero =>
      have first := handled nodes source id
      unfold flood
      cases verdict : handle (nodes source) <;> rw [verdict] at first <;> exact first
  | succ fuel inductionHypothesis =>
      have first := handled nodes source id
      unfold flood
      cases verdict : handle (nodes source) with
      | drop state =>
          rw [verdict] at first
          exact first
      | fail error state =>
          rw [verdict] at first
          exact first
      | pass state =>
          rw [verdict] at first
          apply first.trans
          exact relayLoop_related
            (fun before after => ∀ id,
              Relation.ReflTransGen (Handles handle) (before id) (after id))
            (fun _ _ => .refl)
            (fun _ _ _ one two id => (one id).trans (two id))
            (fun nodes peer id => inductionHypothesis nodes peer (some source) id)
            origin (peers state) _ id

/-- Handing on is the same for receivers that agree where it gets. -/
theorem relayLoop_congr
    (holds : (ι → σ) → Prop)
    {receive other : (ι → σ) → ι → Except ε Unit × (ι → σ)}
    (agree : ∀ nodes peer, holds nodes → receive nodes peer = other nodes peer)
    (keeps : ∀ nodes peer, holds nodes → holds (receive nodes peer).2)
    (origin : Option ι)
    (listed : List ι)
    {nodes : ι → σ}
    (start : holds nodes) :
    relayLoop receive origin listed nodes = relayLoop other origin listed nodes := by
  induction listed generalizing nodes with
  | nil => rfl
  | cons peer rest inductionHypothesis =>
      rw [relayLoop, relayLoop, ← agree nodes peer start]
      split_ifs with back
      · exact inductionHypothesis start
      · have kept := keeps nodes peer start
        cases received : receive nodes peer with
        | mk answer after =>
            rw [received] at kept
            cases answer with
            | error error => rfl
            | ok _ => exact inductionHypothesis kept

/-- A handler that takes a thing once: what is taken stays taken and is never passed
on again. -/
structure TakesOnce (handle : σ → Verdict ε σ) (taken : σ → Prop) : Prop where
  takes : ∀ state after, handle state = .pass after → taken after
  keeps : ∀ state, taken state → taken (handle state).state
  stops : ∀ state after, taken state → handle state ≠ .pass after

namespace TakesOnce

variable {taken : σ → Prop}

theorem of_handles
    (once : TakesOnce handle taken)
    {before after : σ}
    (handled : Relation.ReflTransGen (Handles handle) before after)
    (already : taken before) :
    taken after := by
  induction handled with
  | refl => exact already
  | tail _ last inductionHypothesis =>
      rw [last]
      exact once.keeps _ inductionHypothesis

variable [Fintype ι]

open Classical in
/-- The nodes that have not taken the thing. -/
noncomputable def left (taken : σ → Prop) (nodes : ι → σ) : Nat :=
  (Finset.univ.filter fun id => ¬taken (nodes id)).card

omit [DecidableEq ι] in
theorem left_le
    {before after : ι → σ}
    (kept : ∀ id, taken (before id) → taken (after id)) :
    left taken after ≤ left taken before := by
  apply Finset.card_le_card
  intro id
  simp only [Finset.mem_filter, Finset.mem_univ, true_and]
  exact fun missing already => missing (kept id already)

theorem left_update_lt
    {nodes : ι → σ}
    {source : ι}
    {state : σ}
    (missing : ¬taken (nodes source))
    (took : taken state) :
    left taken (Function.update nodes source state) < left taken nodes := by
  apply Finset.card_lt_card
  refine Finset.ssubset_iff_of_subset ?_ |>.mpr ⟨source, by simp [missing], by simp [took]⟩
  intro id
  simp only [Finset.mem_filter, Finset.mem_univ, true_and]
  by_cases same : id = source
  · subst same
    exact fun _ => missing
  · rw [Function.update_of_ne same]
    exact fun missing => missing

theorem flood_fuel
    (once : TakesOnce handle taken)
    {exhausted other : ε}
    {fuel more : Nat}
    {nodes : ι → σ}
    (enough : left taken nodes ≤ fuel)
    (also : left taken nodes ≤ more)
    (source : ι)
    (origin : Option ι) :
    flood peers handle exhausted fuel nodes source origin =
      flood peers handle other more nodes source origin := by
  induction fuel generalizing more nodes source origin with
  | zero =>
      unfold flood
      cases verdict : handle (nodes source) with
      | drop state => rfl
      | fail error state => rfl
      | pass state =>
          have missing := fun already => once.stops _ _ already verdict
          have fewer := left_update_lt missing (once.takes _ _ verdict)
          omega
  | succ fuel inductionHypothesis =>
      unfold flood
      cases verdict : handle (nodes source) with
      | drop state => rfl
      | fail error state => rfl
      | pass state =>
          have missing := fun already => once.stops _ _ already verdict
          have fewer := left_update_lt missing (once.takes _ _ verdict)
          cases more with
          | zero => omega
          | succ more =>
              -- the peers start with one node less to go, and none is lost again
              refine relayLoop_congr
                (fun after => ∀ id, taken (Function.update nodes source state id) →
                  taken (after id))
                ?_ ?_ origin (peers state) fun _ already => already
              · intro after peer kept
                have lower := left_le kept
                exact inductionHypothesis (by omega) (by omega) peer (some source)
              · intro after peer kept id already
                exact once.of_handles
                  (flood_handles exhausted fuel after peer (some source) id) (kept id already)

/-- Whatever the nodes hold, a flood of a thing that is taken once ends: it does not
matter how much longer it may take, or what running out would mean. -/
theorem flood_ends
    (once : TakesOnce handle taken)
    {exhausted other : ε}
    {fuel more : Nat}
    (enough : Fintype.card ι ≤ fuel)
    (also : Fintype.card ι ≤ more)
    (nodes : ι → σ)
    (source : ι)
    (origin : Option ι) :
    flood peers handle exhausted fuel nodes source origin =
      flood peers handle other more nodes source origin := by
  have few : left taken nodes ≤ Fintype.card ι := Finset.card_le_univ _
  exact once.flood_fuel (few.trans enough) (few.trans also) source origin

end TakesOnce

end

end Library
