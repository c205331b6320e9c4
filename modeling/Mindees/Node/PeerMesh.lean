import Mathlib.Algebra.Order.BigOperators.Group.Finset
import Mathlib.Data.Fintype.Card
import Mathlib.Logic.Relation
import Mindees.Node.Discovery
import Mindees.Node.OutOfOrder

/-!
# A mesh forms itself

Nodes that keep announcing their peers get to know each other.  Greetings arrive in any
order, late or never; once no node could learn from another one it knows, everybody knows
everybody to whom there is any connection at all.
-/

namespace Mindees

/-- The nodes, and the greetings on their way to an address. -/
structure PeerMesh (ι : Type u) where
  nodes : ι → Dialer
  flight : List (Peer × List (Str × Json))

namespace PeerMesh

variable {ι : Type u}

/-- The nodes have different addresses that can be dialled, and a table has room for all. -/
structure Addressed [Fintype ι] (address : ι → Peer) : Prop where
  injective : Function.Injective address
  proper : ∀ id, 0 ≤ (address id).2
  few : Fintype.card ι ≤ MAX_PEERS + 1

/-- One node knows the other one. -/
def Linked (address : ι → Peer) (mesh : PeerMesh ι) (id other : ι) : Prop :=
  address other ∈ (mesh.nodes id).peers

variable [Primitives] [Digits] [Sockets]

/-- A node greets its peers, a greeting arrives or is lost, or a node does something else. -/
inductive Step [DecidableEq ι] (address : ι → Peer) : PeerMesh ι → PeerMesh ι → Prop
  | announce (mesh : PeerMesh ι) (id : ι) :
      Step address mesh
        { mesh with
          flight := mesh.flight ++
            (mesh.nodes id).peers.map fun peer => (peer, (mesh.nodes id).announce) }
  | deliver {nodes : ι → Dialer} (earlier later : List (Peer × List (Str × Json))) (id : ι)
      (msg : List (Str × Json)) :
      Step address ⟨nodes, earlier ++ (address id, msg) :: later⟩
        ⟨Function.update nodes id ((nodes id).onMessage msg).2, earlier ++ later⟩
  | lose {nodes : ι → Dialer} (earlier later : List (Peer × List (Str × Json)))
      (entry : Peer × List (Str × Json)) :
      Step address ⟨nodes, earlier ++ entry :: later⟩ ⟨nodes, earlier ++ later⟩
  | work (mesh : PeerMesh ι) (id : ι) (node : P2PNode) :
      Step address mesh
        { mesh with nodes := Function.update mesh.nodes id { mesh.nodes id with node } }

/-- No node could learn from another one that knows it. -/
def Stable (address : ι → Peer) (mesh : PeerMesh ι) : Prop :=
  ∀ id other, Linked address mesh id other →
    ((mesh.nodes other).onMessage (mesh.nodes id).announce).2.peers = (mesh.nodes other).peers

/-! ## What greetings teach -/

section

omit [Primitives] [Sockets]

theorem text_injective
    {left right : Peer}
    (leftProper : 0 ≤ left.2)
    (rightProper : 0 ≤ right.2)
    (same : left.text = right.text) :
    left = right := by
  apply Option.some.inj
  rw [← parsePeer_text leftProper, ← parsePeer_text rightProper, same]

/-- A node learns the peers that it is told of, if there is room. -/
theorem mem_learnLoop
    {own peer : Peer}
    {told peers : List Peer}
    (within : Finset Peer)
    (few : within.card ≤ MAX_PEERS)
    (ownProper : 0 ≤ own.2)
    (proper : ∀ peer ∈ told, 0 ≤ peer.2)
    (toldWithin : ∀ peer ∈ told, peer ≠ own → peer ∈ within)
    (peersWithin : ∀ peer ∈ peers, peer ∈ within)
    (apart : peers.Nodup) :
    peer ∈ (learnLoop own.text (told.map fun peer => .str peer.text) peers).2 ↔
      peer ∈ peers ∨ (peer ∈ told ∧ peer ≠ own) := by
  induction told generalizing peers with
  | nil => simp [learnLoop]
  | cons next rest inductionHypothesis =>
      obtain ⟨nextProper, restProper⟩ := List.forall_mem_cons.mp proper
      obtain ⟨nextWithin, restWithin⟩ := List.forall_mem_cons.mp toldWithin
      have nonempty : next.text ≠ [] := List.append_ne_nil_of_right_ne_nil _ (List.cons_ne_nil _ _)
      rw [List.map_cons, learnLoop]
      by_cases self : next = own
      · rw [if_pos (.inr (congrArg Peer.text self)),
          inductionHypothesis restProper restWithin peersWithin apart, List.mem_cons]
        subst self
        tauto
      · have different : ¬(next.text = [] ∨ next.text = own.text) := by
          rintro (empty | same)
          · exact nonempty empty
          · exact self (text_injective nextProper ownProper same)
        obtain ⟨port, split, digits, read⟩ := read_text nextProper
        rw [if_neg different, split]
        simp only [digits, read, Bool.true_eq_false, if_false]
        split_ifs with fits
        · rw [inductionHypothesis restProper restWithin, List.mem_append, List.mem_singleton,
            List.mem_cons]
          · by_cases here : peer = next
            · subst here
              tauto
            · tauto
          · intro known inside
            rcases List.mem_append.mp inside with old | new
            · exact peersWithin known old
            · rw [List.mem_singleton.mp new]
              exact nextWithin self
          · rw [List.nodup_append_comm]
            exact List.nodup_cons.mpr ⟨fits.1, apart⟩
        · have known : next ∈ peers := by
            by_contra unknown
            have listed : (next :: peers).toFinset ⊆ within := by
              intro known inside
              rcases List.mem_cons.mp (List.mem_toFinset.mp inside) with rfl | old
              · exact nextWithin self
              · exact peersWithin known old
            have counted := Finset.card_le_card listed
            rw [List.toFinset_card_of_nodup (List.nodup_cons.mpr ⟨unknown, apart⟩),
              List.length_cons] at counted
            exact fits ⟨unknown, by omega⟩
          rw [inductionHypothesis restProper restWithin peersWithin apart, List.mem_cons]
          by_cases here : peer = next
          · subst here
            tauto
          · tauto

end

/-! ## Runs -/

variable [Fintype ι] [DecidableEq ι] {address : ι → Peer} {before after mesh : PeerMesh ι}

/-- Every node announces its address and knows others only, and greetings name nodes. -/
structure Formed (address : ι → Peer) (mesh : PeerMesh ι) : Prop where
  advertise : ∀ id, (mesh.nodes id).advertise = (address id).text
  others : ∀ id, ∀ peer ∈ (mesh.nodes id).peers, ∃ other, other ≠ id ∧ address other = peer
  apart : ∀ id, (mesh.nodes id).peers.Nodup
  told : ∀ entry ∈ mesh.flight, ∃ id peers, entry.2 = greeting (address id).text peers ∧
    ∀ peer ∈ peers, ∃ other, address other = peer

/-- The peers after a greeting from a node. -/
theorem Formed.mem_peers
    {id sender : ι}
    {told : List Peer}
    {peer : Peer}
    (addressed : Addressed address)
    (formed : Formed address mesh)
    (nodes : ∀ peer ∈ told, ∃ other, address other = peer) :
    peer ∈ ((mesh.nodes id).onMessage (greeting (address sender).text told)).2.peers ↔
      peer ∈ (mesh.nodes id).peers ∨
        (peer ∈ address sender :: told ∧ peer ≠ address id) := by
  have hello : Dialer.IsHello (greeting (address sender).text told) := rfl
  have proper : ∀ peer ∈ address sender :: told, 0 ≤ peer.2 := by
    refine List.forall_mem_cons.mpr ⟨addressed.proper sender, fun peer inside => ?_⟩
    obtain ⟨other, rfl⟩ := nodes peer inside
    exact addressed.proper other
  have all : ∀ peer ∈ address sender :: told, ∃ other, address other = peer :=
    List.forall_mem_cons.mpr ⟨⟨sender, rfl⟩, nodes⟩
  rw [Dialer.onMessage_hello _ hello, formed.advertise id]
  have learn : learnPeers (address id).text (greeting (address sender).text told)
      (mesh.nodes id).peers =
      learnLoop (address id).text ((address sender :: told).map fun peer => .str peer.text)
        (mesh.nodes id).peers := rfl
  dsimp only
  rw [learn]
  refine mem_learnLoop ((Finset.univ.erase id).image address) ?_ (addressed.proper id) proper ?_ ?_
    (formed.apart id)
  · have few := addressed.few
    have counted := (Finset.univ.erase id).card_image_le (f := address)
    rw [Finset.card_erase_of_mem (Finset.mem_univ id), Finset.card_univ] at counted
    omega
  · intro peer inside other
    obtain ⟨named, rfl⟩ := all peer inside
    refine Finset.mem_image_of_mem _ (Finset.mem_erase.mpr ⟨?_, Finset.mem_univ _⟩)
    rintro rfl
    exact other rfl
  · intro peer inside
    obtain ⟨named, different, rfl⟩ := formed.others id peer inside
    exact Finset.mem_image_of_mem _ (Finset.mem_erase.mpr ⟨different, Finset.mem_univ _⟩)

omit [Primitives] [Digits] [Sockets] [Fintype ι] in
/-- A mesh stays formed if one node changes properly. -/
theorem Formed.update
    {id : ι}
    {dialer : Dialer}
    {flight : List (Peer × List (Str × Json))}
    (formed : Formed address mesh)
    (advertise : dialer.advertise = (address id).text)
    (others : ∀ peer ∈ dialer.peers, ∃ other, other ≠ id ∧ address other = peer)
    (apart : dialer.peers.Nodup)
    (fewer : flight ⊆ mesh.flight) :
    Formed address ⟨Function.update mesh.nodes id dialer, flight⟩ := by
  refine ⟨?_, ?_, ?_, fun entry inside => formed.told entry (fewer inside)⟩
  · exact (Function.forall_update_iff mesh.nodes fun id dialer =>
      dialer.advertise = (address id).text).mpr ⟨advertise, fun other _ => formed.advertise other⟩
  · exact (Function.forall_update_iff mesh.nodes fun id dialer => ∀ peer ∈ dialer.peers,
      ∃ other, other ≠ id ∧ address other = peer).mpr ⟨others, fun other _ => formed.others other⟩
  · exact (Function.forall_update_iff mesh.nodes fun _ dialer =>
      dialer.peers.Nodup).mpr ⟨apart, fun other _ => formed.apart other⟩

/-- A greeting from a node keeps the mesh formed. -/
theorem Formed.greet
    {id sender : ι}
    {told : List Peer}
    {flight : List (Peer × List (Str × Json))}
    (addressed : Addressed address)
    (formed : Formed address mesh)
    (nodes : ∀ peer ∈ told, ∃ other, address other = peer)
    (fewer : flight ⊆ mesh.flight) :
    Formed address ⟨Function.update mesh.nodes id
      ((mesh.nodes id).onMessage (greeting (address sender).text told)).2, flight⟩ := by
  have hello : Dialer.IsHello (greeting (address sender).text told) := rfl
  have becomes := Dialer.onMessage_hello (mesh.nodes id) hello
  refine formed.update ?_ (fun peer inside => ?_) ?_ fewer
  · rw [becomes]
    exact formed.advertise id
  · rcases (formed.mem_peers addressed nodes).mp inside with old | ⟨named, different⟩
    · exact formed.others id peer old
    · obtain ⟨other, rfl⟩ : ∃ other, address other = peer := by
        rcases List.mem_cons.mp named with rfl | listed
        · exact ⟨sender, rfl⟩
        · exact nodes peer listed
      refine ⟨other, ?_, rfl⟩
      rintro rfl
      exact different rfl
  · rw [becomes]
    obtain ⟨_, learns, _⟩ := Dialer.learns_learnPeers (mesh.nodes id).advertise
      (greeting (address sender).text told) (mesh.nodes id).peers
    exact learns.apart (formed.apart id)

/-- Every step keeps the mesh formed, and no node forgets a peer. -/
theorem Formed.step
    (addressed : Addressed address)
    (formed : Formed address before)
    (step : Step address before after) :
    Formed address after ∧
      ∀ id, (before.nodes id).peers ⊆ (after.nodes id).peers := by
  cases step with
  | announce _ id =>
      refine ⟨⟨formed.advertise, formed.others, formed.apart, ?_⟩, fun other => List.Subset.refl _⟩
      refine List.forall_mem_append.mpr ⟨formed.told, ?_⟩
      refine List.forall_mem_map.mpr fun peer _ => ⟨id, (before.nodes id).peers, ?_, ?_⟩
      · rw [← formed.advertise id]
        rfl
      · intro known inside
        obtain ⟨other, _, same⟩ := formed.others id known inside
        exact ⟨other, same⟩
  | @deliver nodes earlier later id msg =>
      obtain ⟨sender, told, rfl, named⟩ :=
        formed.told (address id, msg) (List.mem_append_right _ List.mem_cons_self)
      refine ⟨formed.greet addressed named ?_, fun other peer inside => ?_⟩
      · intro entry inside
        rw [List.mem_append] at inside ⊢
        exact inside.imp_right (List.mem_cons_of_mem _)
      · by_cases same : other = id
        · subst same
          dsimp only
          rw [Function.update_self]
          exact (formed.mem_peers addressed named).mpr (.inl inside)
        · dsimp only
          rwa [Function.update_of_ne same]
  | @lose nodes earlier later entry =>
      refine ⟨⟨formed.advertise, formed.others, formed.apart, ?_⟩, fun other => List.Subset.refl _⟩
      intro other inside
      apply formed.told other
      rw [List.mem_append] at inside ⊢
      exact inside.imp_right (List.mem_cons_of_mem _)
  | work _ id node =>
      refine ⟨formed.update (formed.advertise id) (formed.others id) (formed.apart id)
        (List.Subset.refl _), fun other peer inside => ?_⟩
      by_cases same : other = id
      · subst same
        dsimp only
        rw [Function.update_self]
        exact inside
      · dsimp only
        rwa [Function.update_of_ne same]

/-- Every run keeps the mesh formed, and no node forgets a peer. -/
theorem Formed.run
    (addressed : Addressed address)
    (formed : Formed address before)
    (ran : Relation.ReflTransGen (Step address) before after) :
    Formed address after ∧
      ∀ id, (before.nodes id).peers ⊆ (after.nodes id).peers := by
  induction ran with
  | refl => exact ⟨formed, fun _ => List.Subset.refl _⟩
  | tail _ last inductionHypothesis =>
      obtain ⟨formedThere, grew⟩ := inductionHypothesis
      obtain ⟨formedNow, grows⟩ := formedThere.step addressed last
      exact ⟨formedNow, fun id => List.Subset.trans (grew id) (grows id)⟩

/-! ## Who knows whom in the end -/

/-- In a stable mesh a known node knows what a greeting would tell it. -/
theorem Formed.knows_told
    {id other : ι}
    {peer : Peer}
    (addressed : Addressed address)
    (formed : Formed address mesh)
    (stable : Stable address mesh)
    (linked : Linked address mesh id other)
    (told : peer ∈ address id :: (mesh.nodes id).peers)
    (different : peer ≠ address other) :
    peer ∈ (mesh.nodes other).peers := by
  have nodes : ∀ peer ∈ (mesh.nodes id).peers, ∃ other, address other = peer := by
    intro peer inside
    obtain ⟨named, _, same⟩ := formed.others id peer inside
    exact ⟨named, same⟩
  rw [← stable id other linked, Dialer.announce, formed.advertise id]
  exact (formed.mem_peers addressed nodes).mpr (.inr ⟨told, different⟩)

/-- Whom one knows knows one. -/
theorem Formed.linked_back
    {id other : ι}
    (addressed : Addressed address)
    (formed : Formed address mesh)
    (stable : Stable address mesh)
    (linked : Linked address mesh id other) :
    Linked address mesh other id := by
  apply formed.knows_told addressed stable linked List.mem_cons_self
  intro equal
  obtain ⟨named, different, same⟩ := formed.others id _ linked
  rw [← equal] at same
  exact different (addressed.injective same)

/-- Whom one knows knows the others that one knows. -/
theorem Formed.linked_on
    {id other third : ι}
    (addressed : Addressed address)
    (formed : Formed address mesh)
    (stable : Stable address mesh)
    (linked : Linked address mesh id other)
    (knows : Linked address mesh id third)
    (apart : third ≠ other) :
    Linked address mesh other third :=
  formed.knows_told addressed stable linked (List.mem_cons_of_mem _ knows)
    fun equal => apart (addressed.injective equal)

/-- A stable mesh is complete on what is connected. -/
theorem Formed.complete
    {id other : ι}
    (addressed : Addressed address)
    (formed : Formed address mesh)
    (stable : Stable address mesh)
    (connected : Relation.EqvGen (Linked address mesh) id other) :
    id = other ∨ Linked address mesh id other := by
  induction connected with
  | rel id other linked => exact .inr linked
  | refl id => exact .inl rfl
  | symm id other _ inductionHypothesis =>
      exact inductionHypothesis.imp Eq.symm (formed.linked_back addressed stable)
  | trans id middle other _ _ first second =>
      rcases first with rfl | there
      · exact second
      · rcases second with rfl | further
        · exact .inr there
        · by_cases same : id = other
          · exact .inl same
          · have back := formed.linked_back addressed stable there
            exact .inr (formed.linked_on addressed stable back further (Ne.symm same))

/-! ## Meshes get stable -/

/-- How many nodes do not know how many others. -/
def strangers (mesh : PeerMesh ι) : Nat :=
  ∑ id, (Fintype.card ι - (mesh.nodes id).peers.length)

omit [Primitives] [Digits] [Sockets] [DecidableEq ι] in
theorem Formed.length_peers_le
    (formed : Formed address mesh)
    (id : ι) :
    (mesh.nodes id).peers.length ≤ Fintype.card ι := by
  have inside : (mesh.nodes id).peers.toFinset ⊆ Finset.univ.image address := by
    intro peer listed
    obtain ⟨other, _, rfl⟩ := formed.others id peer (List.mem_toFinset.mp listed)
    exact Finset.mem_image_of_mem _ (Finset.mem_univ _)
  rw [← List.toFinset_card_of_nodup (formed.apart id)]
  exact (Finset.card_le_card inside).trans Finset.card_image_le

/-- A greeting that teaches something makes the table longer. -/
theorem length_peers_lt
    {dialer : Dialer}
    {msg : List (Str × Json)}
    (hello : Dialer.IsHello msg)
    (learns : (dialer.onMessage msg).2.peers ≠ dialer.peers) :
    dialer.peers.length < (dialer.onMessage msg).2.peers.length := by
  rw [Dialer.onMessage_hello dialer hello] at learns ⊢
  obtain ⟨_, learnt, _⟩ := Dialer.learns_learnPeers dialer.advertise msg dialer.peers
  refine lt_of_le_of_ne learnt.grows.length_le fun same => ?_
  exact learns (learnt.grows.eq_of_length same).symm

omit [Primitives] [Digits] [Sockets] [DecidableEq ι] in
/-- There are fewer strangers once somebody has learnt something. -/
theorem Formed.strangers_lt
    (formed : Formed address before)
    (formedThen : Formed address after)
    (grew : ∀ id, (before.nodes id).peers ⊆ (after.nodes id).peers)
    (longer : ∃ id, (before.nodes id).peers.length < (after.nodes id).peers.length) :
    after.strangers < before.strangers := by
  obtain ⟨id, longer⟩ := longer
  apply Finset.sum_lt_sum
  · intro other _
    have lengths := ((formed.apart other).subperm (grew other)).length_le
    omega
  · have bounded := formedThen.length_peers_le id
    exact ⟨id, Finset.mem_univ id, by omega⟩

/-- If a node could learn something, it can do so next. -/
theorem Formed.exists_step
    (addressed : Addressed address)
    (formed : Formed address mesh)
    (unstable : ¬Stable address mesh) :
    ∃ later, Relation.ReflTransGen (Step address) mesh later ∧
      later.strangers < mesh.strangers := by
  simp only [Stable, not_forall] at unstable
  obtain ⟨id, other, linked, learns⟩ := unstable
  obtain ⟨earlier, later, split⟩ := List.append_of_mem (List.mem_map_of_mem
    (f := fun peer => (peer, (mesh.nodes id).announce)) linked)
  have announced : Step address mesh ⟨mesh.nodes,
      (mesh.flight ++ earlier) ++ (address other, (mesh.nodes id).announce) :: later⟩ := by
    have announced : Step address mesh _ := .announce mesh id
    rwa [split, ← List.append_assoc] at announced
  have delivered : Step address ⟨mesh.nodes,
      (mesh.flight ++ earlier) ++ (address other, (mesh.nodes id).announce) :: later⟩ _ :=
    .deliver (mesh.flight ++ earlier) later other (mesh.nodes id).announce
  have ran := Relation.ReflTransGen.tail (.single announced) delivered
  obtain ⟨formedThen, grew⟩ := formed.run addressed ran
  refine ⟨_, ran, formed.strangers_lt formedThen grew ⟨other, ?_⟩⟩
  have hello : Dialer.IsHello (mesh.nodes id).announce := rfl
  dsimp only
  rw [Function.update_self]
  exact length_peers_lt hello learns

/-- What has formed gets stable, if the nodes go on. -/
theorem Formed.exists_stable
    (addressed : Addressed address)
    (formed : Formed address mesh) :
    ∃ later, Relation.ReflTransGen (Step address) mesh later ∧ Stable address later := by
  induction count : mesh.strangers using Nat.strong_induction_on generalizing mesh with
  | _ count inductionHypothesis =>
      subst count
      by_cases stable : Stable address mesh
      · exact ⟨mesh, .refl, stable⟩
      · obtain ⟨next, ran, fewer⟩ := formed.exists_step addressed stable
        obtain ⟨later, further, stableThen⟩ :=
          inductionHypothesis _ fewer (formed.run addressed ran).1 rfl
        exact ⟨later, ran.trans further, stableThen⟩

/-- In every run of a mesh, no node forgets a peer; once no node could learn from another one
that knows it, any two nodes with a connection at the start, however indirect, know each
other; and whatever has happened, the mesh can get there. -/
theorem forms
    (addressed : Addressed address)
    (formed : Formed address before)
    (ran : Relation.ReflTransGen (Step address) before after) :
    (∀ id, (before.nodes id).peers ⊆ (after.nodes id).peers) ∧
    (Stable address after → ∀ id other, id ≠ other →
      Relation.EqvGen (Linked address before) id other → Linked address after id other) ∧
    ∃ later, Relation.ReflTransGen (Step address) after later ∧ Stable address later := by
  obtain ⟨formedNow, grew⟩ := formed.run addressed ran
  refine ⟨grew, fun stable id other apart connected => ?_, formedNow.exists_stable addressed⟩
  have connectedNow : Relation.EqvGen (Linked address after) id other :=
    connected.mono fun id other linked => grew id linked
  exact (formedNow.complete addressed stable connectedNow).resolve_left apart

end PeerMesh

/-! ## Three nodes in a line -/

namespace PeerMeshSample

open PeerMesh

attribute [local instance] Symbolic.primitives Symbolic.digits Symbolic.sockets

def address (id : Fin 3) : Peer := (['h'], 9000 + (id.val : Int))

/-- The first node knows the second one, and that one the third one. -/
def line : PeerMesh (Fin 3) where
  nodes id :=
    { node := ForkSample.listener
      advertise := (address id).text
      peers := (List.finRange 3).filterMap fun other =>
        if other.val = id.val + 1 then some (address other) else none }
  flight := []

def next (mesh : PeerMesh (Fin 3)) (id : Fin 3) : PeerMesh (Fin 3) :=
  { mesh with
    flight := mesh.flight ++
      (mesh.nodes id).peers.map fun peer => (peer, (mesh.nodes id).announce) }

/-- The oldest greeting arrives at a node. -/
def arrive (mesh : PeerMesh (Fin 3)) (id : Fin 3) : PeerMesh (Fin 3) :=
  match mesh.flight with
  | [] => mesh
  | entry :: rest =>
      if entry.1 = address id then
        ⟨Function.update mesh.nodes id ((mesh.nodes id).onMessage entry.2).2, rest⟩
      else mesh

theorem run_arrive
    (mesh : PeerMesh (Fin 3))
    (id : Fin 3) :
    Relation.ReflTransGen (Step address) mesh (arrive mesh id) := by
  obtain ⟨nodes, flight⟩ := mesh
  cases flight with
  | nil => exact .refl
  | cons entry rest =>
      obtain ⟨peer, msg⟩ := entry
      rw [arrive]
      dsimp only
      split_ifs with here
      · subst here
        exact .single (.deliver [] rest id msg)
      · exact .refl

/-- Two nodes greet what they know, and every greeting arrives. -/
def complete (first second third : Fin 3) : PeerMesh (Fin 3) :=
  arrive (arrive (next (arrive (next line first) second) second) third) first

theorem run_complete : Relation.ReflTransGen (Step address) line (complete 0 1 2) := by
  have first : Relation.ReflTransGen (Step address) line (arrive (next line 0) 1) :=
    .head (.announce line 0) (run_arrive _ 1)
  have second : Relation.ReflTransGen (Step address) (arrive (next line 0) 1) (complete 0 1 2) :=
    .head (.announce _ 1) ((run_arrive _ 2).trans (run_arrive _ 0))
  exact first.trans second

theorem addressed : Addressed address where
  injective := by decide
  proper := by decide
  few := by decide

theorem formed : Formed address line where
  advertise _ := rfl
  others := by decide
  apart := by decide
  told _ inside := absurd inside List.not_mem_nil

theorem stable : Stable address (complete 0 1 2) := by
  unfold Stable Linked
  decide +kernel

theorem forms_line :
    (∀ id, (line.nodes id).peers ⊆ ((complete 0 1 2).nodes id).peers) ∧
      Linked address (complete 0 1 2) 0 2 ∧ Linked address (complete 0 1 2) 2 0 := by
  have linked : Relation.EqvGen (Linked address line) 0 2 := by
    refine .trans 0 1 2 (.rel 0 1 ?_) (.rel 1 2 ?_)
    · unfold Linked
      decide
    · unfold Linked
      decide
  obtain ⟨kept, complete, _⟩ := forms addressed formed run_complete
  exact ⟨kept, complete stable 0 2 (by decide) linked, complete stable 2 0 (by decide) linked.symm⟩

end PeerMeshSample

end Mindees
