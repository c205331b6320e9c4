import Mindees.Node.Discovery
import Mindees.Node.Relay
import Mindees.Node.Sync

/-!
# Outgoing messages

What a node sends while it handles a message, and to whom.  Everything goes to its peers,
but for the answer to a request for blocks, which goes back to where the request came from.
-/

namespace Mindees

open Library

namespace Key

def getBlocks : Str := ['g', 'e', 't', '_', 'b', 'l', 'o', 'c', 'k', 's']
def since : Str := ['s', 'i', 'n', 'c', 'e']
def reply : Str := ['r', 'e', 'p', 'l', 'y']

end Key

/-- A message for an address. -/
abbrev Outgoing := Peer × List (Str × Json)

namespace Dialer

section

variable [Primitives] [Digits] [Sockets]

/-- Send a message to all peers, up to the first one that cannot be sent to. -/
def broadcast (dialer : Dialer) (msg : List (Str × Json)) : List Outgoing :=
  (dialer.peers.takeWhile fun peer => (Sockets.refusal peer).isNone).map fun peer => (peer, msg)

/-- The request for the blocks above the own height. -/
def request (dialer : Dialer) : List (Str × Json) :=
  [(Key.type, .str Key.getBlocks), (Key.since, .int dialer.node.requestSync),
    (Key.reply, .str dialer.advertise)]

/-- The pool takes a transaction that is new. -/
def relaysTx (dialer : Dialer) (data : Json) : Bool :=
  match decodeTx data with
  | .error _ => false
  | .ok tx =>
      if (P2PNode.remember dialer.node.seenTx tx.txid).1 = false then false
      else succeeded (dialer.node.service.mempool.add tx dialer.node.service.chain)

/-- A block that is new has an unknown parent. -/
def asksBlocks (dialer : Dialer) (data : Json) : Bool :=
  match decodeBlock data with
  | .error _ => false
  | .ok block =>
      (P2PNode.remember dialer.node.seenBlock (blockWireId block)).1 &&
        !dialer.node.service.tree.weight.contains block.previousHash

/-- The answer to a request for blocks, if the address to reply to is on the host that
asks. -/
def answer (dialer : Dialer) (client : Str) (msg : List (Str × Json)) : List Outgoing :=
  match (Json.field msg Key.reply).getD (.str []) with
  | .str reply =>
      match rpartition reply with
      | none => []
      | some (host, port) =>
          if isDigits port = false then []
          else if host ≠ client then []
          else
            match ((Json.field msg Key.since).getD (.int 0)).integer, readPort port with
            | some since, .ok port =>
                if (Sockets.refusal (host, port)).isSome then []
                else
                  (dialer.node.serveBlocks since).map fun block =>
                    ((host, port), blockMessage block.encodeBlock)
            | _, _ => []
  | _ => []

/-- The blocks that are relayed while a message is handled.  Where a broadcast raises, the
first one is the last. -/
def relays (dialer : Dialer) (msg : List (Str × Json)) : List Json :=
  if dialer.refusal.isSome then (dialer.node.relays msg).take 1 else dialer.node.relays msg

/-- What is sent while a message from a client is handled, as long as every peer listens. -/
def sends (dialer : Dialer) (client : Str) (msg : List (Str × Json)) : List Outgoing :=
  let data := carried msg
  match Json.field msg Key.type with
  | some (.str kind) =>
      if kind = Key.tx then if dialer.relaysTx data then dialer.broadcast msg else []
      else if kind = Key.block then
        (if dialer.asksBlocks data then dialer.broadcast dialer.request else []) ++
          (dialer.relays msg).flatMap fun data => dialer.broadcast (blockMessage data)
      else if kind = Key.getBlocks then dialer.answer client msg
      else []
  | _ => []

end

/-! ## Traffic -/

/-- A message from a client, or a peer that the operator connects. -/
inductive Contact
  | message (client : Str) (msg : List (Str × Json))
  | connect (host : Str) (port : Int)

/-- What a node does in a contact. -/
def Contact.event : Contact → Event
  | .message _ msg => .message msg
  | .connect host port => .connect host port

/-- The client asks for blocks. -/
def Contact.asks (host : Str) : Contact → Bool
  | .message client msg =>
      match Json.field msg Key.type with
      | some (.str kind) => client = host ∧ kind = Key.getBlocks
      | _ => false
  | .connect _ _ => false

section

variable [Primitives] [Digits] [Sockets]

def sendsIn (dialer : Dialer) : Contact → List Outgoing
  | .message client msg => dialer.sends client msg
  | .connect _ _ => []

/-- Everything that is sent in a run. -/
def traffic : Dialer → List Contact → List Outgoing
  | _, [] => []
  | dialer, contact :: rest => dialer.sendsIn contact ++ traffic (dialer.happen contact.event) rest

/-- The messages to a host. -/
def toHost (host : Str) (sent : List Outgoing) : List Outgoing :=
  sent.filter fun outgoing => outgoing.1.1 = host

variable {dialer : Dialer} {host client : Str} {msg : List (Str × Json)}

omit [Primitives] [Digits] in
theorem fst_of_mem_broadcast
    {outgoing : Outgoing}
    (inside : outgoing ∈ dialer.broadcast msg) :
    outgoing.1 ∈ dialer.peers := by
  obtain ⟨peer, member, rfl⟩ := List.mem_map.mp inside
  exact (List.takeWhile_sublist _).subset member

/-- Everything goes to peers, or it is the answer to a request for blocks. -/
theorem sends_cases
    (dialer : Dialer)
    (client : Str)
    (msg : List (Str × Json)) :
    (∀ outgoing ∈ dialer.sends client msg, outgoing.1 ∈ dialer.peers) ∨
      (Json.field msg Key.type = some (.str Key.getBlocks) ∧
        dialer.sends client msg = dialer.answer client msg) := by
  have none : ∀ outgoing ∈ ([] : List Outgoing), outgoing.1 ∈ dialer.peers :=
    fun outgoing inside => absurd inside List.not_mem_nil
  unfold sends
  dsimp only
  split
  · rename_i kind type
    split_ifs with tx relayed block asked asks
    · exact .inl fun outgoing => fst_of_mem_broadcast
    · exact .inl none
    · refine .inl (List.forall_mem_append.mpr ⟨fun outgoing => fst_of_mem_broadcast, ?_⟩)
      intro outgoing inside
      obtain ⟨data, _, sent⟩ := List.mem_flatMap.mp inside
      exact fst_of_mem_broadcast sent
    · refine .inl fun outgoing inside => ?_
      obtain ⟨data, _, sent⟩ := List.mem_flatMap.mp inside
      exact fst_of_mem_broadcast sent
    · exact .inr ⟨asks ▸ type, rfl⟩
    · exact .inl none
  · exact .inl none

omit [Primitives] in
/-- An answer is nothing, or blocks for a port of the client. -/
theorem answer_cases
    (dialer : Dialer)
    (client : Str)
    (msg : List (Str × Json)) :
    dialer.answer client msg = [] ∨ ∃ since port, dialer.answer client msg =
      (dialer.node.serveBlocks since).map fun block =>
        ((client, port), blockMessage block.encodeBlock) := by
  unfold answer
  split
  · split
    · exact .inl rfl
    · split_ifs with digits other
      · exact .inl rfl
      · exact .inl rfl
      · rw [not_not] at other
        split
        · rename_i since port _ _
          split_ifs
          · exact .inl rfl
          · exact .inr ⟨since, port, by rw [other]⟩
        · exact .inl rfl
  · exact .inl rfl

omit [Primitives] in
/-- An answer goes to the client only and is one batch at most. -/
theorem toHost_answer
    (dialer : Dialer)
    (client host : Str)
    (msg : List (Str × Json)) :
    (toHost host (dialer.answer client msg)).length ≤
      if client = host then MAX_SYNC_BATCH else 0 := by
  rcases dialer.answer_cases client msg with nothing | ⟨since, port, blocks⟩
  · rw [nothing]
    exact Nat.zero_le _
  · rw [blocks, toHost]
    split_ifs with same
    · calc
        _ ≤ _ := List.length_filter_le _ _
        _ = (dialer.node.serveBlocks since).length := List.length_map _
        _ ≤ MAX_SYNC_BATCH := List.length_take_le _ _
    · rw [List.filter_eq_nil_iff.mpr]
      · exact le_rfl
      · exact List.forall_mem_map.mpr fun block _ => by simpa using same

/-- What one contact makes a node send to a host that is none of its peers. -/
theorem toHost_sendsIn
    (contact : Contact)
    (noPeer : ∀ peer ∈ dialer.peers, peer.1 ≠ host) :
    (toHost host (dialer.sendsIn contact)).length ≤
      if contact.asks host then MAX_SYNC_BATCH else 0 := by
  cases contact with
  | connect _ _ => exact Nat.zero_le _
  | message client msg =>
      rcases dialer.sends_cases client msg with peers | ⟨type, answered⟩
      · have nothing : toHost host (dialer.sends client msg) = [] := by
          rw [toHost, List.filter_eq_nil_iff]
          intro outgoing inside
          simpa using noPeer _ (peers outgoing inside)
        rw [sendsIn, nothing]
        exact Nat.zero_le _
      · have asks : (Contact.message client msg).asks host = decide (client = host) := by
          simp [Contact.asks, type]
        rw [sendsIn, answered, asks]
        simpa using dialer.toHost_answer client host msg

/-- The message is a block that answers a request of the host, made in the run. -/
def Answered
    (dialer : Dialer)
    (host : Str)
    (contacts : List Contact)
    (outgoing : Outgoing) : Prop :=
  ∃ earlier msg later, contacts = earlier ++ .message host msg :: later ∧
    Json.field msg Key.type = some (.str Key.getBlocks) ∧
    outgoing ∈ (dialer.run (earlier.map Contact.event)).answer host msg ∧
    ∃ since, ∃ block ∈ (dialer.run (earlier.map Contact.event)).node.serveBlocks since,
      outgoing.2 = blockMessage block.encodeBlock

theorem Answered.cons
    {contacts : List Contact}
    {outgoing : Outgoing}
    (contact : Contact)
    (answered : (dialer.happen contact.event).Answered host contacts outgoing) :
    dialer.Answered host (contact :: contacts) outgoing := by
  obtain ⟨earlier, msg, later, rfl, type, inside, blocks⟩ := answered
  exact ⟨contact :: earlier, msg, later, rfl, type, inside, blocks⟩

/-- What one contact makes a node send to a host that is none of its peers answers it. -/
theorem answered_sendsIn
    {outgoing : Outgoing}
    (contact : Contact)
    (rest : List Contact)
    (noPeer : ∀ peer ∈ dialer.peers, peer.1 ≠ host)
    (inside : outgoing ∈ toHost host (dialer.sendsIn contact)) :
    dialer.Answered host (contact :: rest) outgoing := by
  obtain ⟨sent, same⟩ := List.mem_filter.mp inside
  have toTheHost : outgoing.1.1 = host := of_decide_eq_true same
  cases contact with
  | connect _ _ => exact absurd sent List.not_mem_nil
  | message client msg =>
      rcases dialer.sends_cases client msg with peers | ⟨type, answered⟩
      · exact absurd toTheHost (noPeer _ (peers outgoing sent))
      · rw [sendsIn, answered] at sent
        rcases dialer.answer_cases client msg with nothing | ⟨since, port, blocks⟩
        · rw [nothing] at sent
          exact absurd sent List.not_mem_nil
        · have there := sent
          rw [blocks] at there
          obtain ⟨block, served, rfl⟩ := List.mem_map.mp there
          obtain rfl : client = host := toTheHost
          exact ⟨[], msg, rest, rfl, type, sent, since, block, served, rfl⟩

/-- A host that is no peer gets only what it asked for: whatever happens, every message to it
is a block that answers one of its own requests, and there is no more than one batch of them
for each request. -/
theorem traffic_reflects_nothing
    (dialer : Dialer)
    (contacts : List Contact)
    (host : Str)
    (noPeer : ∀ peer ∈ (dialer.run (contacts.map Contact.event)).peers, peer.1 ≠ host) :
    (∀ outgoing ∈ toHost host (dialer.traffic contacts), dialer.Answered host contacts outgoing) ∧
    (toHost host (dialer.traffic contacts)).length ≤
      MAX_SYNC_BATCH * contacts.countP (Contact.asks host) := by
  induction contacts generalizing dialer with
  | nil => exact ⟨fun outgoing inside => absurd inside List.not_mem_nil, Nat.zero_le _⟩
  | cons contact rest inductionHypothesis =>
      obtain ⟨answered, later⟩ := inductionHypothesis (dialer.happen contact.event) noPeer
      have kept : dialer.peers ⊆ (dialer.run ((contact :: rest).map Contact.event)).peers :=
        (dialer.grows_run _).subset
      have none : ∀ peer ∈ dialer.peers, peer.1 ≠ host := fun peer inside => noPeer peer (kept inside)
      have now := toHost_sendsIn contact none
      have split : toHost host (dialer.traffic (contact :: rest)) =
          toHost host (dialer.sendsIn contact) ++
            toHost host ((dialer.happen contact.event).traffic rest) := by
        rw [traffic, toHost, List.filter_append]
        rfl
      rw [split, List.length_append, List.countP_cons]
      refine ⟨List.forall_mem_append.mpr ⟨?_, ?_⟩, ?_⟩
      · exact fun outgoing inside => answered_sendsIn contact rest none inside
      · exact fun outgoing inside => (answered outgoing inside).cons contact
      · split_ifs at now ⊢
        · rw [Nat.mul_add, Nat.mul_one]
          omega
        · rw [Nat.add_zero]
          omega

end

end Dialer

/-! ## A request with a false address -/

namespace OutgoingSample

open Dialer

attribute [local instance] Symbolic.primitives Symbolic.digits Symbolic.sockets

def dialer : Dialer := ⟨ForkSample.listener, ['a', ':', '1'], []⟩

/-- A client asks for blocks, first in the name of another host. -/
def contacts : List Contact :=
  [['b', ':', '1'], ['c', ':', '1']].map fun reply =>
    .message ['c']
      [(Key.type, .str Key.getBlocks), (Key.since, .int (-1)), (Key.reply, .str reply)]

theorem traffic_reflects_nothing_false :
    (toHost ['c'] (dialer.traffic contacts)).length = 1 ∧
      (∀ outgoing ∈ toHost ['c'] (dialer.traffic contacts),
        dialer.Answered ['c'] contacts outgoing) ∧
      (toHost ['b'] (dialer.traffic contacts)).length ≤
        MAX_SYNC_BATCH * contacts.countP (Contact.asks ['b']) ∧
      contacts.countP (Contact.asks ['b']) = 0 :=
  ⟨by decide +kernel, (dialer.traffic_reflects_nothing contacts ['c'] (by decide +kernel)).1,
    (dialer.traffic_reflects_nothing contacts ['b'] (by decide +kernel)).2, by decide⟩

end OutgoingSample

end Mindees
