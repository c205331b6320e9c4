import Mindees.Core.Reader
import Mindees.Core.Untyped
import Mindees.Node.BlockMessages

/-!
# Peer discovery

A node tells its peers its own address and those of the peers that it knows.  What it
learns from others may come from anyone.
-/

namespace Mindees

open Library

/-- The bound on peers that are learnt. -/
def MAX_PEERS : Nat := 256

namespace Key

def hello : Str := ['h', 'e', 'l', 'l', 'o']
def addr : Str := ['a', 'd', 'd', 'r']
def peers : Str := ['p', 'e', 'e', 'r', 's']

end Key

/-- A host and a port. -/
abbrev Peer := Str × Int

/-- What sending to a peer raises that is no `OSError`: the `UnicodeError` of a host that is
no name, the `OverflowError` of a port that is too large. -/
class Sockets where
  refusal : Peer → Option Error

/-- Nothing but an `OSError`. -/
@[reducible] def Symbolic.sockets : Sockets := ⟨fun _ => none⟩

/-- `f"{host}:{port}"`. -/
def Peer.text (peer : Peer) : Str := peer.1 ++ ':' :: decimal peer.2

/-- `text.rpartition(":")`; `none` stands for an empty separator. -/
def rpartition : Str → Option (Str × Str)
  | [] => none
  | char :: rest =>
      match rpartition rest with
      | some (host, port) => some (char :: host, port)
      | none => if char = ':' then some ([], rest) else none

section

variable [Digits]

/-- `port.isdigit()`. -/
def isDigits (port : Str) : Bool := port ≠ [] ∧ port.all Digits.isDigit

/-- `int(port)` of digits. -/
def readPort (port : Str) : Except Error Int :=
  match port.mapM Digits.value with
  | none => .error .valueError
  | some digits => .ok (digits.foldl (fun sofar digit => 10 * sofar + digit) 0 : Nat)

/-- Learn addresses one after the other. -/
def learnLoop (advertise : Str) : List Json → List Peer → Except Error Unit × List Peer
  | [], peers => (.ok (), peers)
  | .str text :: rest, peers =>
      if text = [] ∨ text = advertise then learnLoop advertise rest peers
      else
        match rpartition text with
        | none => learnLoop advertise rest peers
        | some (host, port) =>
            if isDigits port = false then learnLoop advertise rest peers
            else
              match readPort port with
              | .error error => (.error error, peers)
              | .ok port =>
                  if (host, port) ∉ peers ∧ peers.length < MAX_PEERS then
                    learnLoop advertise rest (peers ++ [(host, port)])
                  else learnLoop advertise rest peers
  | addr :: rest, peers =>
      if addr.truthy then (.error .attributeError, peers) else learnLoop advertise rest peers

/-- Learn the addresses in a greeting. -/
def learnPeers (advertise : Str) (msg : List (Str × Json)) (peers : List Peer) :
    Except Error Unit × List Peer :=
  match (Json.field msg Key.peers).getD (.arr []) with
  | .arr items => learnLoop advertise ((Json.field msg Key.addr).getD .null :: items) peers
  | _ => (.error .typeError, peers)

end

/-- The greeting of a node that announces an address and knows some peers. -/
def greeting (advertise : Str) (peers : List Peer) : List (Str × Json) :=
  [(Key.type, .str Key.hello), (Key.addr, .str advertise),
    (Key.peers, .arr (peers.map fun peer => .str peer.text))]

/-- A node with the address that it announces and its peers. -/
structure Dialer where
  node : P2PNode
  advertise : Str
  peers : List Peer

namespace P2PNode

variable [Primitives]

/-- Handle a message up to its first broadcast, which raises.  A block goes out before the
blocks that wait for it are released, the request for the parent of a block after the block
is kept, and a transaction after it is pooled. -/
def onMessageCut (error : Error) (node : P2PNode) (msg : List (Str × Json)) :
    Except Error Unit × P2PNode :=
  match Json.field msg Key.type with
  | some (.str kind) =>
      if kind = Key.tx then
        match decodeTx (carried msg) with
        | .error error => (.error error, node)
        | .ok tx =>
            let (new, seenTx) := remember node.seenTx tx.txid
            let node := { node with seenTx }
            if new = false then (.ok (), node)
            else
              match node.service.mempool.add tx node.service.chain with
              | .error error => (if error.isValidation then .ok () else .error error, node)
              | .ok (_, mempool) =>
                  (.error error, { node with service := { node.service with mempool } })
      else if kind = Key.block then
        match decodeBlock (carried msg) with
        | .error error => (.error error, node)
        | .ok block =>
            let (new, seenBlock) := remember node.seenBlock (blockWireId block)
            let node := { node with seenBlock }
            if new = false then (.ok (), node)
            else if node.service.tree.weight.contains block.previousHash = false then
              (.error error, (node.applyOrBuffer block (carried msg)).2)
            else
              match node.receiveBlock (carried msg) with
              | (.error error, node) => (if error.isValidation then .ok () else .error error, node)
              | (.ok receipt, node) => (if receipt.accepted then .error error else .ok (), node)
      else (.ok (), node)
  | _ => (.ok (), node)

end P2PNode

namespace Dialer

/-- Connect to a peer. -/
def connect (dialer : Dialer) (host : Str) (port : Int) : Dialer :=
  if (host, port) ∈ dialer.peers then dialer
  else { dialer with peers := dialer.peers ++ [(host, port)] }

/-- The greeting that a node sends to all its peers. -/
def announce (dialer : Dialer) : List (Str × Json) :=
  greeting dialer.advertise dialer.peers

section

variable [Sockets]

/-- What a broadcast raises: what the first peer does that raises anything but an `OSError`. -/
def refusal (dialer : Dialer) : Option Error := dialer.peers.findSome? Sockets.refusal

end

section

variable [Primitives] [Sockets]

/-- Handle a message that is no greeting. -/
def handle (dialer : Dialer) (msg : List (Str × Json)) : Except Error Unit × P2PNode :=
  match dialer.refusal with
  | none => dialer.node.onMessage msg
  | some error => dialer.node.onMessageCut error msg

variable [Digits]

/-- Handle a message, greetings included. -/
def onMessage (dialer : Dialer) (msg : List (Str × Json)) : Except Error Unit × Dialer :=
  let (handled, node) := dialer.handle msg
  match Json.field msg Key.type with
  | some (.str kind) =>
      if kind = Key.hello then
        let (learnt, peers) := learnPeers dialer.advertise msg dialer.peers
        (learnt, { dialer with peers })
      else (handled, { dialer with node })
  | _ => (handled, { dialer with node })

end

end Dialer

/-! ## Addresses -/

theorem rpartition_eq_none
    {text : Str}
    (plain : ':' ∉ text) :
    rpartition text = none := by
  induction text with
  | nil => rfl
  | cons char rest inductionHypothesis =>
      rw [List.mem_cons, not_or] at plain
      rw [rpartition, inductionHypothesis plain.2]
      exact if_neg (Ne.symm plain.1)

theorem rpartition_append
    {port : Str}
    (host : Str)
    (plain : ':' ∉ port) :
    rpartition (host ++ ':' :: port) = some (host, port) := by
  induction host with
  | nil =>
      rw [List.nil_append, rpartition, rpartition_eq_none plain]
      exact if_pos rfl
  | cons char rest inductionHypothesis =>
      rw [List.cons_append, rpartition, inductionHypothesis]

section

variable [Digits]

/-- ASCII digits are read as they were written. -/
theorem readPort_digits
    {port : Str}
    (digits : ∀ char ∈ port, char.isDigit = true) :
    readPort port = .ok (Nat.ofDigitChars 10 port 0 : Nat) := by
  have read : ∀ port : Str, (∀ char ∈ port, char.isDigit = true) →
      port.mapM Digits.value = some (port.map fun char => char.toNat - '0'.toNat) := by
    intro port digits
    induction port with
    | nil => rfl
    | cons char rest inductionHypothesis =>
        obtain ⟨first, others⟩ := List.forall_mem_cons.mp digits
        rw [List.mapM_cons, (Digits.ascii char first).2, inductionHypothesis others]
        rfl
  rw [readPort, read port digits]
  dsimp only
  rw [List.foldl_map, Nat.ofDigitChars_eq_foldl]

/-- The address in a text, as a greeting is read. -/
def parsePeer (text : Str) : Option Peer :=
  match rpartition text with
  | none => none
  | some (host, port) =>
      if isDigits port = false then none
      else
        match readPort port with
        | .error _ => none
        | .ok port => some (host, port)

/-- The text of a peer with a port is read as the peer, whatever the host. -/
theorem read_text
    {peer : Peer}
    (proper : 0 ≤ peer.2) :
    ∃ port, rpartition peer.text = some (peer.1, port) ∧ isDigits port = true ∧
      readPort port = .ok peer.2 := by
  obtain ⟨host, number⟩ := peer
  obtain ⟨magnitude, rfl⟩ := Int.eq_ofNat_of_zero_le proper
  have digits : ∀ char ∈ Nat.toDigits 10 magnitude, char.isDigit = true := fun char inside =>
    Nat.isDigit_of_mem_toDigits (by decide) (by decide) inside
  refine ⟨Nat.toDigits 10 magnitude, rpartition_append host fun colon => ?_, ?_, ?_⟩
  · exact absurd (digits ':' colon) (by decide)
  · rw [isDigits, decide_eq_true_iff]
    refine ⟨Nat.toDigits_ne_nil, List.all_eq_true.mpr fun char inside => ?_⟩
    exact (Digits.ascii char (digits char inside)).1
  · rw [readPort_digits digits, Nat.ofDigitChars_ten_toDigits]

theorem parsePeer_text
    {peer : Peer}
    (proper : 0 ≤ peer.2) :
    parsePeer peer.text = some peer := by
  obtain ⟨port, split, digits, read⟩ := read_text proper
  rw [parsePeer, split]
  dsimp only
  rw [digits, read]
  exact if_neg (by decide)

/-! ## Learning -/

variable {advertise : Str} {entry : Json} {rest entries : List Json} {peers : List Peer}

/-- What learning makes of one address. -/
inductive LearnsOne (advertise : Str) (entry : Json) (peers : List Peer) : Prop
  | stops (error : Error) :
      (∀ rest, learnLoop advertise (entry :: rest) peers = (.error error, peers)) →
      LearnsOne advertise entry peers
  | skips :
      (∀ rest, learnLoop advertise (entry :: rest) peers = learnLoop advertise rest peers) →
      LearnsOne advertise entry peers
  | learns (text : Str) (peer : Peer) :
      entry = .str text → text ≠ advertise → parsePeer text = some peer → peer ∉ peers →
      peers.length < MAX_PEERS →
      (∀ rest, learnLoop advertise (entry :: rest) peers =
        learnLoop advertise rest (peers ++ [peer])) →
      LearnsOne advertise entry peers

theorem learnLoop_other
    (noText : ∀ text, entry ≠ .str text)
    (rest : List Json)
    (peers : List Peer) :
    learnLoop advertise (entry :: rest) peers =
      if entry.truthy then (.error .attributeError, peers) else learnLoop advertise rest peers := by
  cases entry with
  | str text => exact absurd rfl (noText text)
  | null | bool value | int value | float value | arr items | obj fields => rfl

theorem learns_one
    (advertise : Str)
    (entry : Json)
    (peers : List Peer) :
    LearnsOne advertise entry peers := by
  by_cases noText : ∀ text, entry ≠ .str text
  · cases truthy : entry.truthy with
    | true => exact .stops .attributeError fun rest => by rw [learnLoop_other noText, truthy, if_pos rfl]
    | false =>
        exact .skips fun rest => by
          rw [learnLoop_other noText, truthy, if_neg Bool.false_ne_true]
  · simp only [not_forall, not_not] at noText
    obtain ⟨text, rfl⟩ := noText
    by_cases ignored : text = [] ∨ text = advertise
    · exact .skips fun rest => by rw [learnLoop, if_pos ignored]
    · cases split : rpartition text with
      | none => exact .skips fun rest => by simp only [learnLoop, if_neg ignored, split]
      | some parts =>
          obtain ⟨host, port⟩ := parts
          cases digits : isDigits port with
          | false =>
              exact .skips fun rest => by
                simp only [learnLoop, if_neg ignored, split, digits, if_true]
          | true =>
              cases read : readPort port with
              | error error =>
                  exact .stops error fun rest => by
                    simp only [learnLoop, if_neg ignored, split, digits, read,
                      Bool.true_eq_false, if_false]
              | ok number =>
                  by_cases fits : (host, number) ∉ peers ∧ peers.length < MAX_PEERS
                  · refine .learns text (host, number) rfl (fun same => ignored (.inr same)) ?_
                      fits.1 fits.2 fun rest => ?_
                    · simp only [parsePeer, split, digits, read, Bool.true_eq_false, if_false]
                    · simp only [learnLoop, if_neg ignored, split, digits, read,
                        Bool.true_eq_false, if_false, if_pos fits]
                  · exact .skips fun rest => by
                      simp only [learnLoop, if_neg ignored, split, digits, read,
                        Bool.true_eq_false, if_false, if_neg fits]

/-- What learning does to a table of peers. -/
structure Learns
    (advertise : Str)
    (entries : List Json)
    (before after : List Peer) : Prop where
  grows : before <+: after
  apart : before.Nodup → after.Nodup
  bounded : after.length ≤ max before.length MAX_PEERS
  named : ∀ peer ∈ after, peer ∈ before ∨
    ∃ text, .str text ∈ entries ∧ text ≠ advertise ∧ parsePeer text = some peer

theorem Learns.refl
    (advertise : Str)
    (entries : List Json)
    (peers : List Peer) :
    Learns advertise entries peers peers :=
  ⟨List.prefix_refl _, id, le_max_left _ _, fun _ => .inl⟩

theorem Learns.cons
    {after : List Peer}
    (learns : Learns advertise rest peers after)
    (entry : Json) :
    Learns advertise (entry :: rest) peers after := by
  refine ⟨learns.grows, learns.apart, learns.bounded, fun peer inside => ?_⟩
  apply (learns.named peer inside).imp_right
  rintro ⟨text, listed, other, parsed⟩
  exact ⟨text, List.mem_cons_of_mem _ listed, other, parsed⟩

/-- Whatever the addresses, the table grows at its end only, has no peer twice, and holds
no more than the bound unless it did before. -/
theorem learns_learnLoop
    (advertise : Str)
    (entries : List Json)
    (peers : List Peer) :
    Learns advertise entries peers (learnLoop advertise entries peers).2 := by
  induction entries generalizing peers with
  | nil => exact .refl advertise [] peers
  | cons entry rest inductionHypothesis =>
      cases learns_one advertise entry peers with
      | stops error same =>
          rw [same]
          exact .refl advertise _ peers
      | skips same =>
          rw [same]
          exact (inductionHypothesis peers).cons entry
      | learns text peer carried other parsed new room same =>
          rw [same]
          have further := (inductionHypothesis (peers ++ [peer])).cons entry
          refine ⟨(List.prefix_append _ _).trans further.grows, fun apart => ?_, ?_, ?_⟩
          · apply further.apart
            rw [List.nodup_append_comm]
            exact List.nodup_cons.mpr ⟨new, apart⟩
          · have bounded := further.bounded
            rw [List.length_append, List.length_singleton] at bounded
            omega
          · intro known inside
            rcases further.named known inside with old | named
            · rcases List.mem_append.mp old with older | newest
              · exact .inl older
              · rw [List.mem_singleton.mp newest]
                exact .inr ⟨text, by rw [carried]; exact List.mem_cons_self, other, parsed⟩
            · exact .inr named

end

/-! ## Runs -/

namespace Dialer

/-- The message is a greeting. -/
def IsHello (msg : List (Str × Json)) : Prop := Json.field msg Key.type = some (.str Key.hello)

/-- The message names the address. -/
def Names (msg : List (Str × Json)) (text : Str) : Prop :=
  Json.field msg Key.addr = some (.str text) ∨
    ∃ items, Json.field msg Key.peers = some (.arr items) ∧ .str text ∈ items

/-- A message from anyone, or a peer that the operator connects. -/
inductive Event
  | message (msg : List (Str × Json))
  | connect (host : Str) (port : Int)

/-- The messages of a run. -/
def messages : List Event → List (List (Str × Json)) :=
  List.filterMap fun event =>
    match event with
    | .message msg => some msg
    | .connect _ _ => none

/-- The peers that are connected in a run. -/
def connected : List Event → List Peer :=
  List.filterMap fun event =>
    match event with
    | .message _ => none
    | .connect host port => some (host, port)

variable [Primitives] [Digits] [Sockets] {dialer : Dialer} {msg : List (Str × Json)}

def happen (dialer : Dialer) : Event → Dialer
  | .message msg => (dialer.onMessage msg).2
  | .connect host port => dialer.connect host port

def run (dialer : Dialer) (events : List Event) : Dialer := events.foldl happen dialer

/-- A greeting changes the peers, and nothing else. -/
theorem onMessage_hello
    (dialer : Dialer)
    (hello : IsHello msg) :
    (dialer.onMessage msg).2 =
      { dialer with peers := (learnPeers dialer.advertise msg dialer.peers).2 } := by
  rw [IsHello] at hello
  simp only [onMessage, hello, if_true]

theorem onMessage_other
    (dialer : Dialer)
    (other : ¬IsHello msg) :
    (dialer.onMessage msg).2 = { dialer with node := (dialer.handle msg).2 } := by
  rw [onMessage]
  dsimp only
  split
  · rename_i kind type
    have different : kind ≠ Key.hello := by
      rintro rfl
      exact other type
    rw [if_neg different]
  · rfl

omit [Digits] [Sockets] in
/-- A greeting is nothing to the rest of the node. -/
theorem node_hello
    (node : P2PNode)
    (hello : IsHello msg) :
    (node.onMessage msg).2 = node := by
  rw [IsHello] at hello
  have noTx : Key.hello ≠ Key.tx := by decide
  have noBlock : Key.hello ≠ Key.block := by decide
  simp only [P2PNode.onMessage, hello, if_neg noTx, if_neg noBlock]

omit [Primitives] [Sockets] in
/-- What a greeting teaches. -/
theorem learns_learnPeers
    (advertise : Str)
    (msg : List (Str × Json))
    (peers : List Peer) :
    ∃ entries, Learns advertise entries peers (learnPeers advertise msg peers).2 ∧
      ∀ text, .str text ∈ entries → Names msg text := by
  have told : ∀ {key : Str} {value text}, (Json.field msg key).getD value = .str text →
      value ≠ .str text → Json.field msg key = some (.str text) := by
    intro key value text same other
    cases found : Json.field msg key with
    | none => exact absurd (by rw [found] at same; exact same) other
    | some there =>
        rw [found] at same
        exact congrArg some same
  rw [learnPeers]
  cases listed : (Json.field msg Key.peers).getD (.arr []) with
  | arr items =>
      refine ⟨_, learns_learnLoop advertise _ peers, fun text inside => ?_⟩
      rcases List.mem_cons.mp inside with first | later
      · exact .inl (told first.symm nofun)
      · right
        cases found : Json.field msg Key.peers with
        | none =>
            rw [found] at listed
            cases listed
            exact absurd later List.not_mem_nil
        | some value =>
            rw [found] at listed
            exact ⟨items, congrArg some listed, later⟩
  | null | bool _ | int _ | float _ | str _ | obj _ =>
      exact ⟨[], .refl advertise [] peers, fun text inside => absurd inside List.not_mem_nil⟩

omit [Primitives] [Digits] in
/-- A broadcast raises nothing if no peer does. -/
theorem refusal_eq_none
    (reached : ∀ peer ∈ dialer.peers, Sockets.refusal peer = none) :
    dialer.refusal = none :=
  List.findSome?_eq_none_iff.mpr reached

/-- What a run has done to a node. -/
structure Ran (dialer : Dialer) (events : List Event) (after : Dialer) : Prop where
  /-- As long as every peer is sent to, or fails with an `OSError`. -/
  node : (∀ peer ∈ after.peers, Sockets.refusal peer = none) →
    after.node = dialer.node.hear (messages events)
  advertise : after.advertise = dialer.advertise
  grows : dialer.peers <+: after.peers
  apart : dialer.peers.Nodup → after.peers.Nodup
  bounded : after.peers.length ≤ max dialer.peers.length MAX_PEERS + (connected events).length
  named : ∀ peer ∈ after.peers, peer ∈ dialer.peers ∨ peer ∈ connected events ∨
    ∃ msg ∈ messages events, IsHello msg ∧
      ∃ text, Names msg text ∧ text ≠ dialer.advertise ∧ parsePeer text = some peer

theorem Ran.message
    {events : List Event}
    {after : Dialer}
    (ran : Ran dialer events after)
    (msg : List (Str × Json)) :
    Ran dialer (events ++ [.message msg]) (after.onMessage msg).2 := by
  have heard : messages (events ++ [.message msg]) = messages events ++ [msg] :=
    List.filterMap_append
  have linked : connected (events ++ [.message msg]) = connected events :=
    List.filterMap_append.trans (List.append_nil _)
  have node : (∀ peer ∈ after.peers, Sockets.refusal peer = none) → (after.node.onMessage msg).2 =
      dialer.node.hear (messages (events ++ [.message msg])) := by
    intro reached
    rw [heard, P2PNode.hear_append, ← ran.node reached]
    rfl
  have named : ∀ peer ∈ after.peers, peer ∈ dialer.peers ∨
      peer ∈ connected (events ++ [.message msg]) ∨
      ∃ told ∈ messages (events ++ [.message msg]), IsHello told ∧
        ∃ text, Names told text ∧ text ≠ dialer.advertise ∧ parsePeer text = some peer := by
    intro peer inside
    rw [linked, heard]
    refine (ran.named peer inside).imp_right (Or.imp_right ?_)
    rintro ⟨told, earlier, hello, names⟩
    exact ⟨told, List.mem_append_left _ earlier, hello, names⟩
  by_cases hello : IsHello msg
  · rw [onMessage_hello after hello]
    obtain ⟨entries, learns, names⟩ := learns_learnPeers after.advertise msg after.peers
    refine ⟨?_, ran.advertise, ran.grows.trans learns.grows, learns.apart ∘ ran.apart, ?_, ?_⟩
    · intro reached
      rw [← node fun peer inside => reached peer (learns.grows.subset inside),
        node_hello after.node hello]
    · have bounded := learns.bounded
      have before := ran.bounded
      rw [linked]
      dsimp only
      omega
    · intro peer inside
      rcases learns.named peer inside with old | ⟨text, listed, other, parsed⟩
      · exact named peer old
      · refine .inr (.inr ⟨msg, ?_, hello, text, names text listed, ?_, parsed⟩)
        · rw [heard]
          exact List.mem_append_right _ (List.mem_singleton.mpr rfl)
        · rwa [← ran.advertise]
  · rw [onMessage_other after hello]
    refine ⟨fun reached => ?_, ran.advertise, ran.grows, ran.apart, linked ▸ ran.bounded, named⟩
    have none : after.refusal = .none := refusal_eq_none reached
    rw [← node reached, handle, none]

theorem Ran.connect
    {events : List Event}
    {after : Dialer}
    (ran : Ran dialer events after)
    (host : Str)
    (port : Int) :
    Ran dialer (events ++ [.connect host port]) (after.connect host port) := by
  have heard : messages (events ++ [.connect host port]) = messages events :=
    List.filterMap_append.trans (List.append_nil _)
  have linked : connected (events ++ [.connect host port]) = connected events ++ [(host, port)] :=
    List.filterMap_append
  have named : ∀ peer ∈ after.peers, peer ∈ dialer.peers ∨
      peer ∈ connected (events ++ [.connect host port]) ∨
      ∃ told ∈ messages (events ++ [.connect host port]), IsHello told ∧
        ∃ text, Names told text ∧ text ≠ dialer.advertise ∧ parsePeer text = some peer := by
    intro peer inside
    rw [linked, heard]
    exact (ran.named peer inside).imp_right (Or.imp_left (List.mem_append_left _))
  have bounded := ran.bounded
  have longer : (connected (events ++ [.connect host port])).length =
      (connected events).length + 1 := by
    rw [linked, List.length_append, List.length_singleton]
  rw [Dialer.connect]
  split_ifs with known
  · exact ⟨heard ▸ ran.node, ran.advertise, ran.grows, ran.apart, by omega, named⟩
  · refine ⟨fun reached => ?_, ran.advertise, ran.grows.trans (List.prefix_append _ _), ?_, ?_, ?_⟩
    · rw [heard]
      exact ran.node fun peer inside => reached peer (List.mem_append_left _ inside)
    · intro apart
      rw [List.nodup_append_comm]
      exact List.nodup_cons.mpr ⟨known, ran.apart apart⟩
    · rw [List.length_append, List.length_singleton]
      omega
    · intro peer inside
      rcases List.mem_append.mp inside with old | new
      · exact named peer old
      · right
        left
        rw [linked]
        exact List.mem_append_right _ new

theorem Ran.refl (dialer : Dialer) : Ran dialer [] dialer where
  node _ := rfl
  advertise := rfl
  grows := List.prefix_refl _
  apart := id
  bounded := by simp [connected]
  named _ := .inl

theorem Ran.happen
    {events : List Event}
    {after : Dialer}
    (ran : Ran dialer events after)
    (event : Event) :
    Ran dialer (events ++ [event]) (after.happen event) := by
  cases event with
  | message msg => exact ran.message msg
  | connect host port => exact ran.connect host port

/-- No peer is forgotten. -/
theorem grows_run
    (dialer : Dialer)
    (events : List Event) :
    dialer.peers <+: (dialer.run events).peers := by
  induction events generalizing dialer with
  | nil => exact List.prefix_refl _
  | cons event rest inductionHypothesis =>
      have first := ((Ran.refl dialer).happen event).grows
      exact first.trans (inductionHypothesis (dialer.happen event))

/-- Whatever a node hears, and whoever it is connected to in between: it forgets no peer and
has none twice, it learns up to the bound, only from greetings and only what they name, never
its own address.  The rest of the node notices nothing of all this unless a peer that cannot
be sent to was learnt or connected. -/
theorem run_discovers
    (dialer : Dialer)
    (events : List Event) :
    Ran dialer events (dialer.run events) := by
  induction events using List.reverseRecOn with
  | nil => exact .refl dialer
  | append_singleton earlier last inductionHypothesis =>
      have next : dialer.run (earlier ++ [last]) = (dialer.run earlier).happen last :=
        List.foldl_append
      rw [next]
      exact inductionHypothesis.happen last

end Dialer

end Mindees
