import Mathlib.Algebra.BigOperators.Group.Finset.Basic
import Mathlib.Algebra.Order.BigOperators.Group.Finset
import Mathlib.Data.Fintype.Basic
import Mathlib.Logic.Relation

/-!
# Relaying in a mesh

Nodes send what is new to them to all their peers.  Messages arrive in any order, nodes
act by themselves and more messages come in from outside.  When nothing is under way, a
node has dealt with everything that a node it hears from knows.
-/

namespace Library

/-- The nodes, and the messages on their way to a node. -/
structure Mesh (ι : Type u) (σ : Type v) (μ : Type w) where
  nodes : ι → σ
  flight : List (ι × μ)

namespace Mesh

variable {ι : Type u} {σ : Type v} {μ : Type w} {κ : Type x}

/-- Everything that is sent goes to every peer. -/
def fanOut (peers : List ι) (sent : List μ) : List (ι × μ) :=
  sent.flatMap fun message => peers.map fun peer => (peer, message)

theorem mem_fanOut
    {peers : List ι}
    {sent : List μ}
    {entry : ι × μ} :
    entry ∈ fanOut peers sent ↔ entry.1 ∈ peers ∧ entry.2 ∈ sent := by
  obtain ⟨peer, message⟩ := entry
  simp [fanOut, and_comm]

theorem length_fanOut
    (peers : List ι)
    (sent : List μ) :
    (fanOut peers sent).length = sent.length * peers.length := by
  simp [fanOut, List.length_flatMap]

variable [DecidableEq ι] {peers : ι → List ι} {handle : σ → μ → σ × List μ}

/-- A node gets into a state and sends something. -/
def become (peers : ι → List ι) (mesh : Mesh ι σ μ) (id : ι) (outcome : σ × List μ) :
    Mesh ι σ μ where
  nodes := Function.update mesh.nodes id outcome.1
  flight := mesh.flight ++ fanOut (peers id) outcome.2

@[simp] theorem nodes_become_self
    (mesh : Mesh ι σ μ)
    (id : ι)
    (outcome : σ × List μ) :
    (mesh.become peers id outcome).nodes id = outcome.1 :=
  Function.update_self ..

theorem nodes_become_of_ne
    (mesh : Mesh ι σ μ)
    {id other : ι}
    (apart : other ≠ id)
    (outcome : σ × List μ) :
    (mesh.become peers id outcome).nodes other = mesh.nodes other :=
  Function.update_of_ne apart ..

theorem mem_flight_become
    {mesh : Mesh ι σ μ}
    {id : ι}
    {outcome : σ × List μ}
    {entry : ι × μ} :
    entry ∈ (mesh.become peers id outcome).flight ↔
      entry ∈ mesh.flight ∨ (entry.1 ∈ peers id ∧ entry.2 ∈ outcome.2) := by
  rw [become, List.mem_append, mem_fanOut]

/-- A message arrives. -/
inductive Delivery (peers : ι → List ι) (handle : σ → μ → σ × List μ) :
    Mesh ι σ μ → Mesh ι σ μ → Prop
  | deliver {nodes : ι → σ} (earlier later : List (ι × μ)) (id : ι) (message : μ) :
      Delivery peers handle ⟨nodes, earlier ++ (id, message) :: later⟩
        (become peers ⟨nodes, earlier ++ later⟩ id (handle (nodes id) message))

/-- What can happen in a mesh.  -/
inductive Step
    (peers : ι → List ι)
    (handle : σ → μ → σ × List μ)
    (outside : μ → Prop)
    (acts : σ → σ × List μ → Prop) : Mesh ι σ μ → Mesh ι σ μ → Prop
  | delivery {before after : Mesh ι σ μ} :
      Delivery peers handle before after → Step peers handle outside acts before after
  | inject {mesh : Mesh ι σ μ} (id : ι) {message : μ} :
      outside message →
      Step peers handle outside acts mesh { mesh with flight := mesh.flight ++ [(id, message)] }
  | act {mesh : Mesh ι σ μ} (id : ι) {outcome : σ × List μ} :
      acts (mesh.nodes id) outcome →
      Step peers handle outside acts mesh (become peers mesh id outcome)

/-- Messages come in from outside one after the other. -/
theorem run_inject
    {outside : μ → Prop}
    {acts : σ → σ × List μ → Prop}
    {entries : List (ι × μ)}
    (mesh : Mesh ι σ μ)
    (come : ∀ entry ∈ entries, outside entry.2) :
    Relation.ReflTransGen (Step peers handle outside acts) mesh
      { mesh with flight := mesh.flight ++ entries } := by
  induction entries generalizing mesh with
  | nil =>
      rw [List.append_nil]
  | cons entry rest inductionHypothesis =>
      obtain ⟨first, others⟩ := List.forall_mem_cons.mp come
      have further := inductionHypothesis
        { mesh with flight := mesh.flight ++ [(entry.1, entry.2)] } others
      rw [List.append_assoc] at further
      exact .head (.inject entry.1 first) further

/-! ## What nodes know and have dealt with -/

/-- What is asked of the states and the messages. -/
structure Duties (σ : Type v) (μ : Type w) (κ : Type x) where
  sound : σ → Prop
  valid : μ → Prop
  about : μ → κ → Prop
  knows : σ → κ → Prop
  deals : σ → κ → Prop

/-- A node stays sound, sends valid messages, forgets nothing and sends what is new. -/
structure Duties.Meets (duties : Duties σ μ κ) (before : σ) (outcome : σ × List μ) : Prop where
  sound : duties.sound outcome.1
  valid : ∀ message ∈ outcome.2, duties.valid message
  deals : ∀ key, duties.deals before key → duties.deals outcome.1 key
  knows : ∀ key, duties.knows outcome.1 key →
    duties.knows before key ∨ ∃ message ∈ outcome.2, duties.about message key

/-- The handler and the acts of the nodes meet the duties. -/
structure Duties.Kept
    (duties : Duties σ μ κ)
    (handle : σ → μ → σ × List μ)
    (outside : μ → Prop)
    (acts : σ → σ × List μ → Prop) : Prop where
  outside : ∀ message, outside message → duties.valid message
  handle : ∀ state message, duties.sound state → duties.valid message →
    duties.Meets state (handle state message) ∧
      ∀ key, duties.about message key → duties.deals (handle state message).1 key
  acts : ∀ state outcome, duties.sound state → acts state outcome → duties.Meets state outcome

/-- What a node knows, every peer has dealt with or is about to hear. -/
structure Duties.Linked
    (duties : Duties σ μ κ)
    (peers : ι → List ι)
    (mesh : Mesh ι σ μ) : Prop where
  sound : ∀ id, duties.sound (mesh.nodes id)
  valid : ∀ entry ∈ mesh.flight, duties.valid entry.2
  links : ∀ id, ∀ peer ∈ peers id, ∀ key, duties.knows (mesh.nodes id) key →
    duties.deals (mesh.nodes peer) key ∨
      ∃ entry ∈ mesh.flight, entry.1 = peer ∧ duties.about entry.2 key

namespace Duties

variable {duties : Duties σ μ κ} {outside : μ → Prop} {acts : σ → σ × List μ → Prop}
  {before after mesh : Mesh ι σ μ}

/-- A node that meets its duties keeps the links, if it has dealt with what it was to
hear. -/
theorem Meets.linked
    {id : ι}
    {outcome : σ × List μ}
    (meets : duties.Meets (mesh.nodes id) outcome)
    (sound : ∀ other, duties.sound (mesh.nodes other))
    (valid : ∀ entry ∈ mesh.flight, duties.valid entry.2)
    (links : ∀ other, ∀ peer ∈ peers other, ∀ key, duties.knows (mesh.nodes other) key →
      duties.deals (mesh.nodes peer) key ∨ (peer = id ∧ duties.deals outcome.1 key) ∨
        ∃ entry ∈ mesh.flight, entry.1 = peer ∧ duties.about entry.2 key) :
    duties.Linked peers (mesh.become peers id outcome) := by
  have old : ∀ other, ∀ peer ∈ peers other, ∀ key, duties.knows (mesh.nodes other) key →
      duties.deals ((mesh.become peers id outcome).nodes peer) key ∨
        ∃ entry ∈ (mesh.become peers id outcome).flight,
          entry.1 = peer ∧ duties.about entry.2 key := by
    intro other peer linkedTo key knows
    rcases links other peer linkedTo key knows with deals | ⟨rfl, deals⟩ | told
    · left
      by_cases same : peer = id
      · subst same
        rw [nodes_become_self]
        exact meets.deals key deals
      · rw [nodes_become_of_ne mesh same]
        exact deals
    · left
      rw [nodes_become_self]
      exact deals
    · right
      obtain ⟨entry, inside, told⟩ := told
      exact ⟨entry, mem_flight_become.mpr (.inl inside), told⟩
  refine ⟨fun other => ?_, fun entry inside => ?_, fun other peer linkedTo key knows => ?_⟩
  · by_cases same : other = id
    · subst same
      rw [nodes_become_self]
      exact meets.sound
    · rw [nodes_become_of_ne mesh same]
      exact sound other
  · rcases mem_flight_become.mp inside with waiting | sent
    · exact valid entry waiting
    · exact meets.valid _ sent.2
  · by_cases same : other = id
    · subst same
      rw [nodes_become_self] at knows
      rcases meets.knows key knows with known | ⟨message, sent, about⟩
      · exact old other peer linkedTo key known
      · exact .inr ⟨(peer, message), mem_flight_become.mpr (.inr ⟨linkedTo, sent⟩), rfl, about⟩
    · rw [nodes_become_of_ne mesh same] at knows
      exact old other peer linkedTo key knows

/-- An arriving message keeps the links. -/
theorem Linked.delivery
    (kept : duties.Kept handle outside acts)
    (linked : duties.Linked peers before)
    (delivery : Delivery peers handle before after) :
    duties.Linked peers after := by
  cases delivery with
  | @deliver nodes earlier later id message =>
      obtain ⟨meets, dealt⟩ := kept.handle _ message (linked.sound id)
        (linked.valid (id, message) (List.mem_append_right _ List.mem_cons_self))
      have waiting : ∀ entry ∈ earlier ++ later, entry ∈ earlier ++ (id, message) :: later := by
        intro entry inside
        rw [List.mem_append] at inside ⊢
        exact inside.imp_right (List.mem_cons_of_mem _)
      refine @Meets.linked _ _ _ _ _ _ _ ⟨nodes, earlier ++ later⟩ id _ meets linked.sound
        (fun entry inside => linked.valid entry (waiting entry inside)) ?_
      intro other peer linkedTo key knows
      apply (linked.links other peer linkedTo key knows).imp_right
      rintro ⟨entry, inside, named, about⟩
      rcases List.mem_append.mp inside with first | rest
      · exact .inr ⟨entry, List.mem_append_left _ first, named, about⟩
      · rcases List.mem_cons.mp rest with rfl | last
        · exact .inl ⟨named.symm, dealt key about⟩
        · exact .inr ⟨entry, List.mem_append_right _ last, named, about⟩

/-- Every step keeps the links. -/
theorem Linked.step
    (kept : duties.Kept handle outside acts)
    (linked : duties.Linked peers before)
    (step : Step peers handle outside acts before after) :
    duties.Linked peers after := by
  cases step with
  | delivery delivery => exact linked.delivery kept delivery
  | inject id comes =>
      refine ⟨linked.sound, ?_, fun other peer linkedTo key knows => ?_⟩
      · intro entry inside
        rcases List.mem_append.mp inside with old | new
        · exact linked.valid entry old
        · rw [List.mem_singleton.mp new]
          exact kept.outside _ comes
      · apply (linked.links other peer linkedTo key knows).imp_right
        rintro ⟨entry, inside, told⟩
        exact ⟨entry, List.mem_append_left _ inside, told⟩
  | act id acted =>
      apply (kept.acts _ _ (linked.sound id) acted).linked linked.sound linked.valid
      intro other peer linkedTo key knows
      exact (linked.links other peer linkedTo key knows).imp_right .inr

/-- Every run keeps the links. -/
theorem Linked.run
    (kept : duties.Kept handle outside acts)
    (linked : duties.Linked peers before)
    (ran : Relation.ReflTransGen (Step peers handle outside acts) before after) :
    duties.Linked peers after := by
  induction ran with
  | refl => exact linked
  | tail _ last inductionHypothesis => exact inductionHypothesis.step kept last

omit [DecidableEq ι] in
/-- When nothing is under way, the peers have dealt with everything. -/
theorem Linked.quiet
    (linked : duties.Linked peers mesh)
    (quiet : mesh.flight = [])
    {id peer : ι}
    (linkedTo : peer ∈ peers id)
    {key : κ}
    (knows : duties.knows (mesh.nodes id) key) :
    duties.deals (mesh.nodes peer) key := by
  rcases linked.links id peer linkedTo key knows with deals | ⟨entry, inside, _⟩
  · exact deals
  · rw [quiet] at inside
    cases inside

end Duties

/-! ## Deliveries end -/

section

variable [Fintype ι] {left : σ → Nat} {duties : Duties σ μ κ} {outside : μ → Prop}
  {acts : σ → σ × List μ → Prop} {before after : Mesh ι σ μ}

/-- The messages on their way, and those that the nodes may still send. -/
def work (peers : ι → List ι) (left : σ → Nat) (mesh : Mesh ι σ μ) : Nat :=
  ∑ id, left (mesh.nodes id) * (peers id).length + mesh.flight.length

/-- A number of messages arrive, one after the other. -/
inductive Deliveries (peers : ι → List ι) (handle : σ → μ → σ × List μ) :
    Nat → Mesh ι σ μ → Mesh ι σ μ → Prop
  | none (mesh : Mesh ι σ μ) : Deliveries peers handle 0 mesh mesh
  | more {count : Nat} {first middle last : Mesh ι σ μ} :
      Delivery peers handle first middle → Deliveries peers handle count middle last →
      Deliveries peers handle (count + 1) first last

variable (peers) in
/-- A node that spends what it has left on what it sends leaves the rest as it was. -/
theorem sum_left_become
    (mesh : Mesh ι σ μ)
    (id : ι)
    {outcome : σ × List μ}
    (spends : left outcome.1 + outcome.2.length ≤ left (mesh.nodes id)) :
    ∑ other, left ((mesh.become peers id outcome).nodes other) * (peers other).length +
        outcome.2.length * (peers id).length ≤
      ∑ other, left (mesh.nodes other) * (peers other).length := by
  rw [← Finset.add_sum_erase _ _ (Finset.mem_univ id),
    ← Finset.add_sum_erase (a := id) Finset.univ _ (Finset.mem_univ id), nodes_become_self]
  have others : ∑ other ∈ Finset.univ.erase id,
      left ((mesh.become peers id outcome).nodes other) * (peers other).length =
      ∑ other ∈ Finset.univ.erase id, left (mesh.nodes other) * (peers other).length := by
    apply Finset.sum_congr rfl
    intro other inside
    rw [nodes_become_of_ne mesh (Finset.ne_of_mem_erase inside)]
  have own := Nat.mul_le_mul_right (peers id).length spends
  rw [Nat.add_mul] at own
  rw [others]
  omega

/-- An arriving message leaves less to do. -/
theorem work_delivery
    (linked : duties.Linked peers before)
    (spends : ∀ state message, duties.sound state → duties.valid message →
      left (handle state message).1 + (handle state message).2.length ≤ left state)
    (delivery : Delivery peers handle before after) :
    after.work peers left < before.work peers left := by
  cases delivery with
  | @deliver nodes earlier later id message =>
      have valid : duties.valid message :=
        linked.valid (id, message) (List.mem_append_right _ List.mem_cons_self)
      have spent := sum_left_become peers ⟨nodes, earlier ++ later⟩ id
        (spends _ message (linked.sound id) valid)
      have flight : (become peers ⟨nodes, earlier ++ later⟩ id
          (handle (nodes id) message)).flight.length =
          earlier.length + later.length +
            (handle (nodes id) message).2.length * (peers id).length := by
        rw [become, List.length_append, List.length_append, length_fanOut]
      rw [work, work, flight, List.length_append, List.length_cons]
      dsimp only at spent ⊢
      omega

/-- There are no more deliveries than there is work. -/
theorem deliveries_le
    (kept : duties.Kept handle outside acts)
    (spends : ∀ state message, duties.sound state → duties.valid message →
      left (handle state message).1 + (handle state message).2.length ≤ left state)
    (linked : duties.Linked peers before)
    {count : Nat}
    (arrive : Deliveries peers handle count before after) :
    count + after.work peers left ≤ before.work peers left := by
  induction arrive with
  | none => exact (Nat.zero_add _).le
  | more first _ inductionHypothesis =>
      have less := work_delivery linked spends first
      have rest := inductionHypothesis (linked.delivery kept first)
      omega

/-- The oldest message arrives. -/
def oldest (peers : ι → List ι) (handle : σ → μ → σ × List μ) (mesh : Mesh ι σ μ) :
    Mesh ι σ μ :=
  match mesh.flight with
  | [] => mesh
  | (id, message) :: rest =>
      become peers ⟨mesh.nodes, rest⟩ id (handle (mesh.nodes id) message)

/-- The oldest messages arrive. -/
def pump (peers : ι → List ι) (handle : σ → μ → σ × List μ) :
    (count : Nat) → Mesh ι σ μ → Mesh ι σ μ
  | 0, mesh => mesh
  | count + 1, mesh => pump peers handle count (mesh.oldest peers handle)

omit [Fintype ι] in
theorem delivery_oldest
    {mesh : Mesh ι σ μ}
    (busy : mesh.flight ≠ []) :
    Delivery peers handle mesh (mesh.oldest peers handle) := by
  obtain ⟨nodes, flight⟩ := mesh
  cases flight with
  | nil => exact absurd rfl busy
  | cons entry rest => exact .deliver [] rest entry.1 entry.2

omit [Fintype ι] in
theorem oldest_of_quiet
    {mesh : Mesh ι σ μ}
    (quiet : mesh.flight = []) :
    mesh.oldest peers handle = mesh := by
  rw [oldest, quiet]

/-- Taking messages in turn comes to an end. -/
theorem quiet_pump
    (kept : duties.Kept handle outside acts)
    (spends : ∀ state message, duties.sound state → duties.valid message →
      left (handle state message).1 + (handle state message).2.length ≤ left state)
    (linked : duties.Linked peers before)
    {count : Nat}
    (enough : before.work peers left ≤ count) :
    (before.pump peers handle count).flight = [] := by
  induction count generalizing before with
  | zero =>
      apply List.eq_nil_of_length_eq_zero
      rw [work] at enough
      rw [pump]
      omega
  | succ count inductionHypothesis =>
      rw [pump]
      by_cases quiet : before.flight = []
      · have still : ∀ count, before.pump peers handle count = before := by
          intro count
          induction count with
          | zero => rfl
          | succ count inductionHypothesis =>
              rw [pump, oldest_of_quiet quiet]
              exact inductionHypothesis
        rw [oldest_of_quiet quiet, still]
        exact quiet
      · have delivery : Delivery peers handle before (before.oldest peers handle) :=
          delivery_oldest quiet
        have less := work_delivery linked spends delivery
        exact inductionHypothesis (linked.delivery kept delivery) (by omega)

end

end Mesh

end Library
