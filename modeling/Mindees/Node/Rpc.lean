import Mindees.Core.Untyped
import Mindees.Node.Calls
import Mindees.Node.Spendable
import Mindees.Node.Transport
import Mindees.Node.Wallet

/-!
# The JSON-RPC server

Clients read the chain over HTTP and hand in transactions and blocks.  Reads
change nothing, writes need the token if there is one, and no method produces a
block.
-/

namespace Mindees

open Library

/-! ## The wire names -/

namespace Key

def method : Str := ['m', 'e', 't', 'h', 'o', 'd']
def params : Str := ['p', 'a', 'r', 'a', 'm', 's']
def id : Str := ['i', 'd']
def address : Str := ['a', 'd', 'd', 'r', 'e', 's', 's']
def name : Str := ['n', 'a', 'm', 'e']
def symbol : Str := ['s', 'y', 'm', 'b', 'o', 'l']
def decimals : Str := ['d', 'e', 'c', 'i', 'm', 'a', 'l', 's']
def height : Str := ['h', 'e', 'i', 'g', 'h', 't']
def head : Str := ['h', 'e', 'a', 'd']
def finalizedHeight : Str :=
  ['f', 'i', 'n', 'a', 'l', 'i', 'z', 'e', 'd', '_', 'h', 'e', 'i', 'g', 'h', 't']
def finalized : Str := ['f', 'i', 'n', 'a', 'l', 'i', 'z', 'e', 'd']
def supply : Str := ['s', 'u', 'p', 'p', 'l', 'y']
def maxSupply : Str := ['m', 'a', 'x', '_', 's', 'u', 'p', 'p', 'l', 'y']
def mempool : Str := ['m', 'e', 'm', 'p', 'o', 'o', 'l']
def nextValidator : Str :=
  ['n', 'e', 'x', 't', '_', 'v', 'a', 'l', 'i', 'd', 'a', 't', 'o', 'r']
def txid : Str := ['t', 'x', 'i', 'd']
def mined : Str := ['m', 'i', 'n', 'e', 'd']
def accepted : Str := ['a', 'c', 'c', 'e', 'p', 't', 'e', 'd']
def info : Str := ['i', 'n', 'f', 'o']
def balance : Str := ['b', 'a', 'l', 'a', 'n', 'c', 'e']
def stake : Str := ['s', 't', 'a', 'k', 'e']
def spendable : Str := ['s', 'p', 'e', 'n', 'd', 'a', 'b', 'l', 'e']
def locked : Str := ['l', 'o', 'c', 'k', 'e', 'd']
def getBlock : Str := ['g', 'e', 't', '_', 'b', 'l', 'o', 'c', 'k']
def submitTx : Str := ['s', 'u', 'b', 'm', 'i', 't', '_', 't', 'x']
def receiveBlock : Str := ['r', 'e', 'c', 'e', 'i', 'v', 'e', '_', 'b', 'l', 'o', 'c', 'k']

/-! The wire names, letter by letter, are the names of the source. -/

example :
    method = "method".toList ∧ params = "params".toList ∧ id = "id".toList ∧
    address = "address".toList ∧ name = "name".toList ∧ symbol = "symbol".toList ∧
    decimals = "decimals".toList ∧ height = "height".toList ∧ head = "head".toList ∧
    finalizedHeight = "finalized_height".toList ∧ finalized = "finalized".toList ∧
    supply = "supply".toList ∧ maxSupply = "max_supply".toList ∧ mempool = "mempool".toList ∧
    nextValidator = "next_validator".toList ∧ txid = "txid".toList ∧ mined = "mined".toList ∧
    accepted = "accepted".toList ∧ info = "info".toList ∧ balance = "balance".toList ∧
    stake = "stake".toList ∧ spendable = "spendable".toList ∧ locked = "locked".toList ∧
    getBlock = "get_block".toList ∧ submitTx = "submit_tx".toList ∧
    receiveBlock = "receive_block".toList := by decide

end Key

def NAME : String := "Mindees"

/-! ## Parameters -/

namespace Json

/-- `params[key]`: a `TypeError` on anything but an object. -/
def item (params : Json) (key : Str) : Except Error Json :=
  match params with
  | .obj fields => require (field fields key) .keyError
  | _ => .error .typeError

/-- What a dictionary with text keys is asked for: `none` is a key it cannot
have, and an unhashable one raises. -/
def textKey (value : Json) : Except Error (Option Str) :=
  match value.hashKey with
  | none => .error .typeError
  | some (.str key) => .ok (some key)
  | some _ => .ok none

/-- `0 <= value < length`. -/
def inRange (value : Json) (length : Nat) : Except Error Bool :=
  match value.number with
  | none => .error .typeError
  | some number =>
      .ok ((numberEq (.finite 0) number || numberLt (.finite 0) number) &&
        numberLt number (.finite length))

/-- `str(value)` of a value that is no list or object. -/
def scalarText [Primitives] : Json → String
  | null => "None"
  | bool value => if value then "True" else "False"
  | int value => toString value
  | float value => text (Primitives.floatText value)
  | str value => text value
  | _ => ""

end Json

section

variable [Primitives]

namespace NodeService

/-! ## The methods -/

/-- The next validator, or null while nobody is electable. -/
def safeNextValidator (service : NodeService) : Except Error Json :=
  match service.chain.nextValidator with
  | .ok elected => .ok (.str elected)
  | .error error => if error.isValidation then .ok .null else .error error

def info (service : NodeService) : Except Error Json := do
  let next ← service.safeNextValidator
  pure
    (.obj
      [(Key.name, .str NAME.toList), (Key.symbol, .str SYMBOL.toList),
        (Key.decimals, .int DECIMALS), (Key.height, .int service.chain.head.index),
        (Key.head, .str service.chain.head.hash),
        (Key.finalizedHeight, .int service.tree.finalizedHeight),
        (Key.finalized, .str service.tree.finalizedHash),
        (Key.supply, .int service.chain.state.totalSupply), (Key.maxSupply, .int MAX_SUPPLY_UNITS),
        (Key.mempool, .int service.mempool.pool.size), (Key.nextValidator, next)])

/-- A read of one number under an address; no address but a text has one. -/
def readAddress (params : Json) (read : Str → Int) : Except Error Json := do
  let address ← params.item Key.address
  let key ← address.textKey
  pure (.int ((key.map read).getD 0))

def balance (service : NodeService) (params : Json) : Except Error Json :=
  readAddress params service.chain.balanceOf

def nonce (service : NodeService) (params : Json) : Except Error Json :=
  readAddress params fun address => service.chain.state.nonces.getD address 0

def stake (service : NodeService) (params : Json) : Except Error Json :=
  readAddress params service.chain.stakeOf

def spendable (service : NodeService) (params : Json) : Except Error Json :=
  readAddress params service.chain.spendableOf

def locked (service : NodeService) (params : Json) : Except Error Json :=
  readAddress params fun address => service.chain.lockedOf address

/-- A block of the canonical chain; `True` and `False` are indices as well. -/
def getBlock (service : NodeService) (params : Json) : Except Error Json := do
  let index ← params.item Key.index
  let inside ← index.inRange service.chain.chain.length
  rejectIf (inside = false) s!"no block at index {index.scalarText}"
  let position ← require index.integer .typeError
  let block ← require service.chain.chain[position.toNat]? .indexError
  pure block.encodeBlock

end NodeService

/-- What `submit_tx` answers. -/
def minedAnswer (answer : Str × Option Json) : Json :=
  .obj [(Key.txid, .str answer.1), (Key.mined, answer.2.getD .null)]

/-- What `receive_block` answers. -/
def Receipt.toJson (receipt : Receipt) : Json :=
  .obj
    [(Key.accepted, .bool receipt.accepted), (Key.height, .int receipt.height),
      (Key.head, .str receipt.head), (Key.finalizedHeight, .int receipt.finalizedHeight)]

/-! ## The server -/

namespace Rpc

/-- The methods that need the token. -/
def WRITE_METHODS : List Str := [Key.submitTx, Key.receiveBlock]

def MAX_RPC_BODY : Int := 8000000

/-- A request, with the clock and the draw of the moment it is served. -/
structure Request where
  /-- What `int` makes of the `Content-Length` header, or zero without one. -/
  contentLength : Option Int
  /-- The `Authorization` header, or nothing. -/
  authorization : Str
  /-- The body, if it decodes. -/
  body : Option Str
  timestamp : Int
  randomness : Nat

/-- Why a request has no result. -/
inductive Refusal
  | tooLarge
  | unauthorized
  | raised (error : Error)

structure Reply where
  id : Json
  answer : Except Refusal Json

def isAscii (text : Str) : Bool := text.all fun char => char.toNat < 128

/-- `hmac.compare_digest` on texts. -/
def compareDigest (a b : Str) : Except Error Bool := do
  raiseIf (isAscii a = false ∨ isAscii b = false) Error.typeError
  pure (a = b)

def BEARER : Str := ['B', 'e', 'a', 'r', 'e', 'r', ' ']

/-- The token of an `Authorization` header. -/
def bearer (authorization : Str) : Str :=
  if BEARER.isPrefixOf authorization then authorization.drop 7 else []

/-- A write method is allowed with the token of the server, anything else always. -/
def authorised (token : Option Str) (authorization : Str) (method : Json) : Except Error Bool := do
  let key ← method.textKey
  match key, token with
  | some name, some (first :: rest) =>
      if name ∈ WRITE_METHODS then compareDigest (bearer authorization) (first :: rest)
      else pure true
  | _, _ => pure true

/-- The methods of the server.  `produce_block` is not among them. -/
inductive Method
  | info
  | balance
  | nonce
  | stake
  | spendable
  | locked
  | getBlock
  | submitTx
  | receiveBlock

/-- The names that the methods are served under. -/
def methods : List (Str × Method) :=
  [(Key.info, .info), (Key.balance, .balance), (Key.nonce, .nonce), (Key.stake, .stake),
    (Key.spendable, .spendable), (Key.locked, .locked), (Key.getBlock, .getBlock),
    (Key.submitTx, .submitTx), (Key.receiveBlock, .receiveBlock)]

def methodNamed (name : Str) : Option Method :=
  (methods.find? fun entry => entry.1 = name).map Prod.snd

/-- Call a method. -/
def callMethod
    (service : NodeService)
    (method : Method)
    (params : Json)
    (timestamp : Int)
    (randomness : Nat) : Except Error Json × NodeService :=
  match method with
  | .info => (service.info, service)
  | .balance => (service.balance params, service)
  | .nonce => (service.nonce params, service)
  | .stake => (service.stake params, service)
  | .spendable => (service.spendable params, service)
  | .locked => (service.locked params, service)
  | .getBlock => (service.getBlock params, service)
  | .submitTx =>
      match params.item Key.tx with
      | .error error => (.error error, service)
      | .ok data =>
          let (answer, after) := service.submitTx data timestamp randomness
          (answer.map minedAnswer, after)
  | .receiveBlock =>
      match params.item Key.block with
      | .error error => (.error error, service)
      | .ok data =>
          let (answer, after) := service.receiveBlock data
          (answer.map Receipt.toJson, after)

/-- Look the method up and call it. -/
def dispatch
    (service : NodeService)
    (method params : Json)
    (timestamp : Int)
    (randomness : Nat) : Except Error Json × NodeService :=
  match method.textKey with
  | .error error => (.error error, service)
  | .ok name =>
      match name.bind methodNamed with
      | none => (.error (.validation s!"unknown method: {method.scalarText}"), service)
      | some method => callMethod service method params timestamp randomness

/-- `json.loads` on a body, or on `{}` without one. -/
def loads (body : Option Str) : Option Json := do
  let text ← body
  if text = [] then pure (.obj []) else Primitives.jsonLoads text

/-- `req.get("params") or {}`. -/
def paramsOf (fields : List (Str × Json)) : Json :=
  match Json.field fields Key.params with
  | some params => if params.truthy then params else .obj []
  | none => .obj []

/-- The object that a request carries. -/
def Request.fields (request : Request) : Except Refusal (List (Str × Json)) := do
  let length ← require request.contentLength (.raised .valueError)
  raiseIf (MAX_RPC_BODY < length) .tooLarge
  let loaded ← require (loads request.body) (.raised .valueError)
  match loaded with
  | .obj fields => pure fields
  -- `req.get` on anything but an object
  | _ => .error (.raised .attributeError)

/-- The method that a request names, if it may call it. -/
def permit (token : Option Str) (authorization : Str) (fields : List (Str × Json)) :
    Except Refusal Json :=
  match Json.field fields Key.method with
  | none => .error (.raised .keyError)
  | some method =>
      match authorised token authorization method with
      | .error error => .error (.raised error)
      | .ok false => .error .unauthorized
      | .ok true => .ok method

/-- Serve one request.  Every exception becomes a reply, under the identifier of the
request once that is known. -/
def doPost (token : Option Str) (service : NodeService) (request : Request) :
    Reply × NodeService :=
  match request.fields with
  | .error refusal => (⟨.null, .error refusal⟩, service)
  | .ok fields =>
      let id := (Json.field fields Key.id).getD .null
      match permit token request.authorization fields with
      | .error refusal => (⟨id, .error refusal⟩, service)
      | .ok method =>
          let (result, after) :=
            dispatch service method (paramsOf fields) request.timestamp request.randomness
          (⟨id, result.mapError .raised⟩, after)

/-- Serve requests one after the other. -/
def serve (token : Option Str) (service : NodeService) :
    List Request → List Reply × NodeService
  | [] => ([], service)
  | request :: rest =>
      let (reply, after) := doPost token service request
      let (replies, final) := serve token after rest
      (reply :: replies, final)

theorem serve_cons
    (token : Option Str)
    (service : NodeService)
    (request : Request)
    (rest : List Request) :
    serve token service (request :: rest) =
      ((doPost token service request).1 :: (serve token (doPost token service request).2 rest).1,
        (serve token (doPost token service request).2 rest).2) :=
  rfl

/-! ## What a session writes -/

/-- The write behind a method. -/
def callOf (method : Method) (params : Json) (timestamp : Int) (randomness : Nat) :
    Option NodeService.Call :=
  match method with
  | .submitTx => (params.item Key.tx).toOption.map fun data => .submitTx data timestamp randomness
  | .receiveBlock => (params.item Key.block).toOption.map .receiveBlock
  | _ => none

/-- The write behind a name. -/
def callNamed (method params : Json) (timestamp : Int) (randomness : Nat) :
    Option NodeService.Call :=
  match method with
  | .str name => (methodNamed name).bind fun method => callOf method params timestamp randomness
  | _ => none

/-- The write that a request asks for and is allowed to make. -/
def Request.write (token : Option Str) (request : Request) : Option NodeService.Call :=
  match request.fields with
  | .error _ => none
  | .ok fields =>
      match permit token request.authorization fields with
      | .error _ => none
      | .ok method =>
          callNamed method (paramsOf fields) request.timestamp request.randomness

/-- The node after a write, or the same node. -/
def applyWrite (service : NodeService) (write : Option NodeService.Call) : NodeService :=
  write.elim service fun next => (service.call next).2

theorem callMethod_state
    (service : NodeService)
    (method : Method)
    (params : Json)
    (timestamp : Int)
    (randomness : Nat) :
    (callMethod service method params timestamp randomness).2 =
      applyWrite service (callOf method params timestamp randomness) := by
  cases method with
  | submitTx =>
      unfold callMethod callOf
      cases params.item Key.tx <;> rfl
  | receiveBlock =>
      unfold callMethod callOf
      cases params.item Key.block <;> rfl
  | _ => rfl

theorem dispatch_state
    (service : NodeService)
    (method params : Json)
    (timestamp : Int)
    (randomness : Nat) :
    (dispatch service method params timestamp randomness).2 =
      applyWrite service (callNamed method params timestamp randomness) := by
  unfold dispatch callNamed
  cases method with
  | str name =>
      cases found : methodNamed name with
      | none => simp [Json.textKey, Json.hashKey, found, applyWrite]
      | some method =>
          simp only [Json.textKey, Json.hashKey, Option.bind_some, found]
          exact callMethod_state service method params timestamp randomness
  | _ => rfl

/-- One request changes the node by its write, if it has one. -/
theorem doPost_state
    (token : Option Str)
    (service : NodeService)
    (request : Request) :
    (doPost token service request).2 = applyWrite service (request.write token) := by
  unfold doPost Request.write
  cases request.fields with
  | error refusal => rfl
  | ok fields =>
      dsimp only
      cases permit token request.authorization fields with
      | error refusal => rfl
      | ok method => exact dispatch_state _ _ _ _ _

/-- A session changes the node by its writes, one after the other. -/
theorem serve_state
    (token : Option Str)
    (service : NodeService)
    (requests : List Request) :
    (serve token service requests).2 = service.run (requests.filterMap (Request.write token)) := by
  induction requests generalizing service with
  | nil => rfl
  | cons request rest inductionHypothesis =>
      have state := doPost_state token service request
      rw [serve, inductionHypothesis, state]
      cases write : request.write token with
      | none => rw [List.filterMap_cons_none write]; rfl
      | some next => rw [List.filterMap_cons_some write]; rfl

/-! ## Who writes -/

section

variable {token : Option Str} {service : NodeService} {requests : List Request}

/-- The request carries a token. -/
def Request.Carries (request : Request) (token : Str) : Prop :=
  request.authorization = BEARER ++ token

instance (request : Request) (token : Str) : Decidable (request.Carries token) :=
  inferInstanceAs (Decidable (_ = _))

/-- The request names a write method. -/
def Request.AsksToWrite (request : Request) : Prop :=
  ∃ fields name, request.fields = .ok fields ∧
    Json.field fields Key.method = some (.str name) ∧ name ∈ WRITE_METHODS

omit [Primitives] in
/-- Only the two write methods write. -/
theorem mem_writeMethods
    {name : Str}
    {params : Json}
    {timestamp : Int}
    {randomness : Nat}
    {next : NodeService.Call}
    (writes : callNamed (.str name) params timestamp randomness = some next) :
    name ∈ WRITE_METHODS := by
  obtain ⟨method, named, called⟩ := Option.bind_eq_some_iff.mp writes
  obtain ⟨entry, found, rfl⟩ := Option.map_eq_some_iff.mp named
  have listed := List.mem_of_find?_eq_some found
  have same := List.find?_some found
  rw [decide_eq_true_iff] at same
  subst same
  simp only [methods, List.mem_cons, List.not_mem_nil, or_false] at listed
  rcases listed with rfl | rfl | rfl | rfl | rfl | rfl | rfl | rfl | rfl
  all_goals first | cases called | decide

omit [Primitives] in
theorem bearer_eq_iff
    {token authorization : Str}
    (configured : token ≠ []) :
    bearer authorization = token ↔ authorization = BEARER ++ token := by
  constructor
  · intro same
    unfold bearer at same
    split_ifs at same with begins
    · obtain ⟨rest, rfl⟩ := List.isPrefixOf_iff_prefix.mp begins
      rw [← same]
      rfl
    · exact absurd same.symm configured
  · rintro rfl
    rw [bearer, if_pos (List.isPrefixOf_iff_prefix.mpr (List.prefix_append _ _))]
    rfl

omit [Primitives] in
/-- The header with the token is the only one that passes, and none does if the
token has a character that `hmac` does not compare. -/
theorem authorised_iff
    {name token authorization : Str}
    (configured : token ≠ [])
    (writes : name ∈ WRITE_METHODS) :
    authorised (some token) authorization (.str name) = .ok true ↔
      authorization = BEARER ++ token ∧ isAscii token = true := by
  cases token with
  | nil => exact absurd rfl configured
  | cons first rest =>
      have compared : authorised (some (first :: rest)) authorization (.str name) =
          compareDigest (bearer authorization) (first :: rest) := if_pos writes
      rw [compared, ← bearer_eq_iff configured]
      simp only [compareDigest, bind_eq_ok, raiseIf_eq_ok, exists_unit, pure_eq_ok, not_or,
        Bool.not_eq_false, decide_eq_true_eq]
      constructor
      · rintro ⟨⟨_, ascii⟩, same⟩
        exact ⟨same, ascii⟩
      · rintro ⟨same, ascii⟩
        exact ⟨⟨same ▸ ascii, ascii⟩, same⟩

omit [Primitives] in
theorem permit_eq_ok
    (token : Option Str)
    (authorization : Str)
    (fields : List (Str × Json))
    (method : Json) :
    permit token authorization fields = .ok method ↔
      Json.field fields Key.method = some method ∧
        authorised token authorization method = .ok true := by
  unfold permit
  cases Json.field fields Key.method with
  | none => simp
  | some named =>
      rw [Option.some.injEq]
      dsimp only
      constructor
      · intro same
        cases allowed : authorised token authorization named with
        | error error => simp [allowed] at same
        | ok granted =>
            cases granted with
            | false => simp [allowed] at same
            | true =>
                simp only [allowed, Except.ok.injEq] at same
                exact ⟨same, same ▸ allowed⟩
      · rintro ⟨rfl, allowed⟩
        rw [allowed]

/-- A write passed the check of the token. -/
theorem Request.write_eq_some
    {request : Request}
    {next : NodeService.Call}
    (writes : request.write token = some next) :
    ∃ fields name, request.fields = .ok fields ∧
      Json.field fields Key.method = some (.str name) ∧ name ∈ WRITE_METHODS ∧
      authorised token request.authorization (.str name) = .ok true ∧
      callNamed (.str name) (paramsOf fields) request.timestamp request.randomness = some next := by
  unfold Request.write at writes
  cases read : request.fields with
  | error refusal =>
      rw [read] at writes
      cases writes
  | ok fields =>
      rw [read] at writes
      dsimp only at writes
      cases admitted : permit token request.authorization fields with
      | error refusal =>
          rw [admitted] at writes
          cases writes
      | ok method =>
          rw [admitted] at writes
          obtain ⟨named, allowed⟩ := (permit_eq_ok _ _ _ _).mp admitted
          cases method with
          | str name => exact ⟨fields, name, rfl, named, mem_writeMethods writes, allowed, writes⟩
          | _ => cases writes

/-- Without the token a request writes nothing. -/
theorem write_of_not_carries
    {token : Str}
    (configured : token ≠ [])
    {request : Request}
    (without : ¬(request.Carries token ∧ isAscii token = true)) :
    request.write (some token) = none := by
  cases writes : request.write (some token) with
  | none => rfl
  | some next =>
      obtain ⟨_, _, _, _, listed, allowed, _⟩ := Request.write_eq_some writes
      exact absurd ((authorised_iff configured listed).mp allowed) without

/-- Without the token a write is refused. -/
theorem refused_of_not_carries
    {token : Str}
    (configured : token ≠ [])
    {request : Request}
    (asks : request.AsksToWrite)
    (without : ¬(request.Carries token ∧ isAscii token = true)) :
    ∃ refusal, (doPost (some token) service request).1.answer = .error refusal := by
  obtain ⟨fields, name, read, named, listed⟩ := asks
  unfold doPost
  rw [read]
  dsimp only
  cases admitted : permit (some token) request.authorization fields with
  | error refusal => exact ⟨refusal, rfl⟩
  | ok method =>
      obtain ⟨same, allowed⟩ := (permit_eq_ok _ _ _ _).mp admitted
      obtain rfl := Option.some.inj (named.symm.trans same)
      exact absurd ((authorised_iff configured listed).mp allowed) without

/-- Requests that write nothing can be left out: the others are answered the same. -/
theorem serve_filter
    (keep : Request → Bool)
    (harmless : ∀ request ∈ requests, keep request = false → request.write token = none) :
    serve token service (requests.filter keep) =
      (((requests.zip (serve token service requests).1).filter
          fun entry => keep entry.1).map Prod.snd,
        (serve token service requests).2) := by
  induction requests generalizing service with
  | nil => rfl
  | cons request rest inductionHypothesis =>
      have later := fun other inside => harmless other (List.mem_cons_of_mem _ inside)
      cases kept : keep request with
      | false =>
          have state := doPost_state token service request
          rw [harmless request List.mem_cons_self kept] at state
          change (doPost token service request).2 = service at state
          rw [List.filter_cons_of_neg (by rw [kept]; exact Bool.false_ne_true),
            inductionHypothesis later, serve_cons, state]
          simp [kept]
      | true =>
          rw [List.filter_cons_of_pos kept, serve_cons, serve_cons, inductionHypothesis later]
          simp [kept]

theorem mem_serve
    {entry : Request × Reply}
    (served : entry ∈ requests.zip (serve token service requests).1) :
    ∃ before, entry.2 = (doPost token before entry.1).1 := by
  induction requests generalizing service with
  | nil => cases served
  | cons request rest inductionHypothesis =>
      rw [serve_cons, List.zip_cons_cons, List.mem_cons] at served
      rcases served with rfl | later
      · exact ⟨service, rfl⟩
      · exact inductionHypothesis later

/-- The token is a wall around the node. -/
structure Walled (token : Str) (service : NodeService) (requests : List Request) : Prop where
  /-- The node ends where the writes of those who hold the token lead. -/
  state :
    (serve (some token) service requests).2 =
      service.run ((requests.filter fun request => request.Carries token).filterMap
        (Request.write (some token)))
  /-- They get the answers they would get without the others. -/
  answers :
    (serve (some token) service (requests.filter fun request => request.Carries token)).1 =
      ((requests.zip (serve (some token) service requests).1).filter
        fun entry => entry.1.Carries token).map Prod.snd
  /-- The writes of the others are refused. -/
  refuses :
    ∀ entry ∈ requests.zip (serve (some token) service requests).1,
      entry.1.AsksToWrite → ¬entry.1.Carries token →
        ∃ refusal, entry.2.answer = .error refusal
  /-- A token that `hmac` does not compare locks everybody out. -/
  foreign : isAscii token = false → (serve (some token) service requests).2 = service

theorem serve_token
    {token : Str}
    (configured : token ≠ [])
    (service : NodeService)
    (requests : List Request) :
    Walled token service requests := by
  have harmless : ∀ request ∈ requests, decide (request.Carries token) = false →
      request.write (some token) = none := by
    intro request _ without
    apply write_of_not_carries configured
    exact fun both => of_decide_eq_false without both.1
  have filtered := @serve_filter _ (some token) service requests _ harmless
  refine ⟨?_, congrArg Prod.fst filtered, ?_, ?_⟩
  · rw [← serve_state]
    exact (congrArg Prod.snd filtered).symm
  · intro entry served asks without
    obtain ⟨before, reply⟩ := mem_serve served
    rw [reply]
    exact refused_of_not_carries configured asks fun both => without both.1
  · intro foreign
    have silent : requests.filterMap (Request.write (some token)) = [] := by
      rw [List.filterMap_eq_nil_iff]
      intro request _
      apply write_of_not_carries configured
      rw [foreign]
      exact fun both => Bool.false_ne_true both.2
    rw [serve_state, silent]
    rfl

end

/-! ## Where the blocks come from -/

/-- The block that a request hands in, if it may. -/
def Request.handsIn (token : Option Str) (request : Request) : Option Block :=
  match request.write token with
  | some (.receiveBlock data) => (decodeBlock data).toOption
  | _ => none

section

variable {service : NodeService}

/-- A node that does not produce by itself only keeps a submitted transaction. -/
theorem submitTx_quiet
    (quiet : service.autoproduce = false)
    (data : Json)
    (timestamp : Int)
    (randomness : Nat) :
    (service.submitTx data timestamp randomness).2.store = service.store ∧
      (service.submitTx data timestamp randomness).2.autoproduce = false := by
  unfold NodeService.submitTx
  dsimp only
  split
  · exact ⟨rfl, quiet⟩
  · rw [if_neg (by rw [quiet]; exact Bool.false_ne_true)]
    exact ⟨rfl, quiet⟩

theorem receiveBlock_autoproduce (data : Json) :
    (service.receiveBlock data).2.autoproduce = service.autoproduce := by
  unfold NodeService.receiveBlock
  cases decodeBlock data with
  | error error => rfl
  | ok block =>
      dsimp only
      split
      · rfl
      · split <;> rfl

/-- A request appends the block it hands in, or none. -/
theorem doPost_store
    {args : GenesisArgs}
    {checkpoint : Option Checkpoint}
    (consistent : service.Consistent args checkpoint)
    (quiet : service.autoproduce = false)
    (token : Option Str)
    (request : Request) :
    let after := (doPost token service request).2
    after.Consistent args checkpoint ∧ after.autoproduce = false ∧
      (after.store = service.store ∨
        ∃ block, request.handsIn token = some block ∧ after.store = service.store ++ [block]) := by
  dsimp only
  rw [doPost_state]
  unfold Request.handsIn
  cases write : request.write token with
  | none => exact ⟨consistent, quiet, .inl rfl⟩
  | some next =>
      refine ⟨consistent.call next, ?_⟩
      cases next with
      | submitTx data timestamp randomness =>
          have kept := submitTx_quiet quiet data timestamp randomness
          exact ⟨kept.2, .inl kept.1⟩
      | receiveBlock data =>
          refine ⟨(receiveBlock_autoproduce data).trans quiet, ?_⟩
          rcases consistent.receiveBlock_cases data with same | ⟨block, decoded, commits⟩
          · exact .inl (congrArg NodeService.store same)
          · refine .inr ⟨block, ?_, commits.store⟩
            dsimp only
            rw [decoded]
            rfl
      | produceBlock timestamp randomness =>
          obtain ⟨fields, name, _, _, _, _, called⟩ := Request.write_eq_some write
          obtain ⟨method, _, made⟩ := Option.bind_eq_some_iff.mp called
          cases method <;> simp [callOf] at made

/-- No client makes the node mint: what a session stores was handed in, in that
order, by clients who may write. -/
theorem serve_store
    {args : GenesisArgs}
    {checkpoint : Option Checkpoint}
    (reachable : service.Reachable args checkpoint)
    (quiet : service.autoproduce = false)
    (token : Option Str)
    (requests : List Request) :
    ∃ accepted, accepted.Sublist (requests.filterMap (Request.handsIn token)) ∧
      (serve token service requests).2.store = service.store ++ accepted := by
  have consistent := reachable.consistent
  clear reachable
  induction requests generalizing service with
  | nil => exact ⟨[], .slnil, (List.append_nil _).symm⟩
  | cons request rest inductionHypothesis =>
      obtain ⟨kept, silent, stored⟩ := doPost_store consistent quiet token request
      obtain ⟨accepted, inOrder, grown⟩ := inductionHypothesis silent kept
      rw [serve_cons]
      rcases stored with same | ⟨block, handed, one⟩
      · refine ⟨accepted, ?_, grown.trans (by rw [same])⟩
        exact inOrder.trans (List.Sublist.filterMap _ (List.sublist_cons_self _ _))
      · refine ⟨block :: accepted, ?_, ?_⟩
        · rw [List.filterMap_cons_some handed]
          exact inOrder.cons_cons block
        · rw [grown, one, List.append_assoc, List.singleton_append]

end

end Rpc

end

/-! ## A session -/

namespace RpcSample

open Rpc

attribute [local instance] Symbolic.reading

/-- One validator. -/
def args : GenesisArgs where
  allocations := Dict.empty.set (Symbolic.wallet 1).address MAX_SUPPLY_UNITS
  initialStakes := Dict.empty.set (Symbolic.wallet 1).address 500

theorem built : succeeded (BlockTree.init args) = true := by decide +kernel

def node : NodeService where
  tree := outcome (BlockTree.init args) built
  mempool := .init
  validator := none
  autoproduce := false
  store := []

theorem node_reachable : node.Reachable args none := by
  have initialised : NodeService.init args [] = .ok node := by
    simp only [NodeService.init, bind_eq_ok]
    exact ⟨_, eq_ok_outcome _ built, _, rfl, rfl⟩
  exact .init initialised

def token : Str := ['k', 'e', 'y']

/-- The validator hands in a block. -/
def handIn (authorization : Str) (timestamp : Int) : Except Error Request := do
  let block ← sealBlock node.chain.head.hash 1 (Symbolic.wallet 1) [] timestamp 0 0
  pure
    { contentLength := some 1000
      authorization
      body := some (jsonDumps
        (.obj [(Key.method, .str Key.receiveBlock),
          (Key.params, .obj [(Key.block, block.encodeBlock)])]))
      timestamp
      randomness := 0 }

/-- A stranger hands in a block, and the validator hands in another one. -/
def session : Except Error (List Request) :=
  [handIn [] 1700000010, handIn (BEARER ++ token) 1700000020].mapM fun request => request

theorem held : succeeded session = true := by decide +kernel

theorem stored :
    (serve (some token) node (outcome session held)).2.store.length = 1 := by decide +kernel

theorem serve_token_two :
    Walled token node (outcome session held) ∧
      (serve (some token) node (outcome session held)).2.store.length = 1 :=
  ⟨serve_token (by decide) node _, stored⟩

theorem serve_store_two :
    ∃ accepted : List Block, accepted.Sublist
        ((outcome session held).filterMap (Request.handsIn (some token))) ∧
      accepted.length = 1 := by
  obtain ⟨accepted, inOrder, grown⟩ :=
    serve_store node_reachable rfl (some token) (outcome session held)
  refine ⟨accepted, inOrder, ?_⟩
  have length := congrArg List.length grown
  rw [stored, List.length_append] at length
  exact (length.trans (Nat.zero_add _)).symm

end RpcSample

end Mindees
