import Mathlib.Data.List.DropRight
import Mindees.Node.BlockMessages
import Mindees.Node.GenesisFile

/-!
# Evidence in transit

Transactions travel as JSON: alone or in a block, in a message, in the block file
or in the evidence of a slash.  However often one is written and read, it comes
out as it went in, and its evidence proves what it proved of the originals.
-/

namespace Mindees

open Library

/-! ## Canonical texts -/

namespace Json

/-- Mapping the values of fields keeps their order by key. -/
theorem sortMembers_map
    (change : Json → Json)
    (fields : List (Str × Json)) :
    sortMembers (fields.map fun entry => (entry.1, change entry.2)) =
      (sortMembers fields).map fun entry => (entry.1, change entry.2) := by
  symm
  apply List.map_insertionSort
  intro left _ right _
  exact Iff.rfl

section

variable {floatText : PyFloat → Str}

/-- Items joined by commas are the rest of a list without gaps. -/
theorem commaJoin_items
    (item : Json)
    (items : List Json) :
    commaJoin ((item :: items).map (render floatText [])) ++ [']'] =
      render floatText [] item ++ itemsEnd floatText [] items := by
  induction items generalizing item with
  | nil => rfl
  | cons next items inductionHypothesis =>
      have later := inductionHypothesis next
      simp only [List.map_cons] at later ⊢
      simp only [commaJoin, itemsEnd, List.append_assoc, List.cons_append, List.nil_append, later]

/-- Members joined by commas are the rest of an object without gaps. -/
theorem commaJoin_members
    (key : Str)
    (value : Json)
    (fields : List (Str × Json)) :
    commaJoin (((key, value) :: fields).map fun entry =>
        quote entry.1 ++ ':' :: render floatText [] entry.2) ++ ['}'] =
      quote key ++ ':' :: (render floatText [] value ++ fieldsEnd floatText [] fields) := by
  induction fields generalizing key value with
  | nil =>
      simp only [List.map_cons, List.map_nil, commaJoin, fieldsEnd, List.append_assoc,
        List.cons_append]
  | cons next fields inductionHypothesis =>
      obtain ⟨nextKey, nextValue⟩ := next
      have later := inductionHypothesis nextKey nextValue
      simp only [List.map_cons] at later ⊢
      simp only [commaJoin, fieldsEnd, List.append_assoc, List.cons_append, List.nil_append, later]

/-- Canonical JSON is the compact text of the value with its keys in order. -/
theorem dumps_eq_render
    (floatText : PyFloat → Str)
    {value : Json}
    (readable : value.Readable) :
    dumps floatText value = render floatText [] value.sorted := by
  induction readable with
  | null => rfl
  | bool value => cases value <;> rfl
  | int value => rfl
  | str value => rfl
  | @arr items _ inductionHypothesis =>
      have texts : itemTexts floatText items =
          (sortedItems items).map (render floatText []) := by
        rw [itemTexts_eq_map, sortedItems_eq_map, List.map_map]
        exact List.map_congr_left inductionHypothesis
      rw [dumps, sorted, texts]
      cases sortedItems items with
      | nil => rfl
      | cons item rest => rw [commaJoin_items, render]
  | @obj fields _ _ inductionHypothesis =>
      have texts : (sortMembers fields).map (memberText floatText) =
          (sortMembers (sortedFields fields)).map fun entry =>
            quote entry.1 ++ ':' :: render floatText [] entry.2 := by
        rw [sortedFields_eq_map, sortMembers_map, List.map_map]
        apply List.map_congr_left
        intro entry inside
        have listed : entry ∈ fields := (perm_sortMembers fields).mem_iff.mp inside
        rw [Function.comp_apply, memberText, inductionHypothesis entry listed]
      rw [dumps_obj, sorted, texts]
      cases sortMembers (sortedFields fields) with
      | nil => rfl
      | cons entry rest =>
          obtain ⟨key, value⟩ := entry
          rw [commaJoin_members, render_obj_cons, List.nil_append]

end

/-! ## Values inside values -/

/-- A step into a value: to a member of an object or an item of a list. -/
inductive Step
  | member (key : Str)
  | item (position : Nat)

/-- The value one step inside. -/
def child : Json → Step → Option Json
  | obj fields, .member key => field fields key
  | arr items, .item position => items[position]?
  | _, _ => none

/-- The value at the end of a path. -/
def descend (value : Json) (path : List Step) : Option Json := path.foldlM child value

theorem field_sortedFields
    (fields : List (Str × Json))
    (key : Str) :
    field (sortedFields fields) key = (field fields key).map sorted := by
  induction fields with
  | nil => rfl
  | cons entry rest inductionHypothesis =>
      obtain ⟨found, value⟩ := entry
      rw [sortedFields, field, field, inductionHypothesis]
      split <;> rfl

/-- Sorting keys sorts the value found under each. -/
theorem field_sortMembers
    {fields : List (Str × Json)}
    (distinct : (fields.map Prod.fst).Nodup)
    (key : Str) :
    field (sortMembers (sortedFields fields)) key = (field fields key).map sorted := by
  rw [field_eq_of_perm (perm_sortMembers _) (by rw [map_fst_sortedFields]; exact distinct),
    field_sortedFields]

theorem mem_of_field
    {fields : List (Str × Json)}
    {key : Str}
    {value : Json}
    (found : field fields key = some value) :
    (key, value) ∈ fields := by
  induction fields with
  | nil => cases found
  | cons entry rest inductionHypothesis =>
      obtain ⟨first, other⟩ := entry
      rw [field] at found
      split at found
      case isTrue same =>
        cases found
        rw [same]
        exact List.mem_cons_self
      case isFalse => exact List.mem_cons_of_mem _ (inductionHypothesis found)

variable {value inside : Json}

theorem Readable.child
    {step : Step}
    (readable : value.Readable)
    (found : value.child step = some inside) :
    inside.Readable := by
  cases readable with
  | null => cases found
  | bool value => cases found
  | int value => cases found
  | str value => cases found
  | arr items =>
      cases step with
      | member key => cases found
      | item position => exact items inside (List.mem_of_getElem? found)
  | obj distinct members =>
      cases step with
      | member key => exact members _ (mem_of_field found)
      | item position => cases found

/-- Sorting keys changes the order of what is inside, not its place. -/
theorem Readable.child_sorted
    (readable : value.Readable)
    (step : Step) :
    value.sorted.child step = (value.child step).map Json.sorted := by
  cases readable with
  | null => rfl
  | bool value => rfl
  | int value => rfl
  | str value => rfl
  | @arr items _ =>
      cases step with
      | member key => rfl
      | item position =>
          rw [Json.sorted, Json.child, Json.child, sortedItems_eq_map, List.getElem?_map]
  | obj distinct _ =>
      cases step with
      | member key => exact field_sortMembers distinct key
      | item position => rfl

/-- What a path leads to in the sorted value is the sorted value it leads to. -/
theorem Readable.descend_sorted
    (readable : value.Readable)
    {path : List Step}
    (found : value.descend path = some inside) :
    inside.Readable ∧ value.sorted.descend path = some inside.sorted := by
  induction path generalizing value with
  | nil =>
      cases found
      exact ⟨readable, rfl⟩
  | cons step path inductionHypothesis =>
      rw [descend, List.foldlM_cons, Option.bind_eq_bind, Option.bind_eq_some_iff] at found
      obtain ⟨next, here, later⟩ := found
      have step_sorted := readable.child_sorted step
      rw [here] at step_sorted
      obtain ⟨readableInside, there⟩ := inductionHypothesis (readable.child here) later
      refine ⟨readableInside, ?_⟩
      rw [descend, List.foldlM_cons, step_sorted]
      exact there

end Json

/-! ## Reading sorted values -/

section

variable {fields : List (Str × Json)}

theorem stringField_sorted
    (distinct : (fields.map Prod.fst).Nodup)
    (what : String)
    (key : Str) :
    stringField what (Json.sortMembers (Json.sortedFields fields)) key =
      stringField what fields key := by
  rw [stringField, stringField, Json.field_sortMembers distinct]
  cases Json.field fields key with
  | none => rfl
  | some value => cases value <;> rfl

theorem intField_sorted
    (distinct : (fields.map Prod.fst).Nodup)
    (what : String)
    (key : Str) :
    intField what (Json.sortMembers (Json.sortedFields fields)) key =
      intField what fields key := by
  rw [intField, intField, Json.field_sortMembers distinct]
  cases Json.field fields key with
  | none => rfl
  | some value => cases value <;> rfl

theorem stringFieldD_sorted
    (distinct : (fields.map Prod.fst).Nodup)
    (key default : Str) :
    stringFieldD (Json.sortMembers (Json.sortedFields fields)) key default =
      stringFieldD fields key default := by
  rw [stringFieldD, stringFieldD, Json.field_sortMembers distinct]
  cases Json.field fields key with
  | none => rfl
  | some value => cases value <;> rfl

theorem intFieldD_sorted
    (distinct : (fields.map Prod.fst).Nodup)
    (key : Str)
    (default : Int) :
    intFieldD (Json.sortMembers (Json.sortedFields fields)) key default =
      intFieldD fields key default := by
  rw [intFieldD, intFieldD, Json.field_sortMembers distinct]
  cases Json.field fields key with
  | none => rfl
  | some value => cases value <;> rfl

/-- The order of the keys of a transaction does not matter. -/
theorem decodeTx_sorted
    {data : Json}
    (readable : data.Readable) :
    decodeTx data.sorted = decodeTx data := by
  cases readable with
  | null => rfl
  | bool value => rfl
  | int value => rfl
  | str value => rfl
  | arr _ => rfl
  | obj distinct _ =>
      rw [Json.sorted, decodeTx, decodeTx]
      simp only [stringField_sorted distinct, intField_sorted distinct]

/-- The order of the keys of listed transactions does not matter. -/
theorem mapM_decodeTx_sorted
    {items : List Json}
    (readable : ∀ item ∈ items, item.Readable) :
    (items.map Json.sorted).mapM decodeTx = items.mapM decodeTx := by
  induction items with
  | nil => rfl
  | cons item rest inductionHypothesis =>
      rw [List.map_cons, List.mapM_cons, List.mapM_cons, decodeTx_sorted
        (readable item List.mem_cons_self), inductionHypothesis
        fun item listed => readable item (List.mem_cons_of_mem _ listed)]

variable [Primitives]

/-- The order of the keys of a block does not matter. -/
theorem decodeBlock_sorted
    {data : Json}
    (readable : data.Readable) :
    decodeBlock data.sorted = decodeBlock data := by
  cases readable with
  | null => rfl
  | bool value => rfl
  | int value => rfl
  | str value => rfl
  | arr _ => rfl
  | @obj fields distinct members =>
      rw [Json.sorted, decodeBlock, decodeBlock, Json.field_sortMembers distinct]
      simp only [stringField_sorted distinct, intField_sorted distinct,
        stringFieldD_sorted distinct, intFieldD_sorted distinct]
      cases found : Json.field fields Key.transactions with
      | none => rfl
      | some listed =>
          have readableListed : listed.Readable := members _ (Json.mem_of_field found)
          cases readableListed with
          | null => rfl
          | bool value => rfl
          | int value => rfl
          | str value => rfl
          | obj _ _ => rfl
          | @arr items readableItems =>
              simp only [Option.map_some, Json.sorted, Json.sortedItems_eq_map,
                mapM_decodeTx_sorted readableItems]

end

/-! ## Messages -/

section

variable [Primitives]

/-- How a value is written: with `json.dumps`, as a line of its own, or as
canonical JSON. -/
inductive Form
  | dumped
  | line
  | canonical

/-- The text of a value. -/
def Form.write : Form → Json → Str
  | .dumped, value => jsonDumps value
  | .line, value => jsonDumps value ++ ['\n']
  | .canonical, value => canonicalText value

/-- `json.loads` undoes `json.dumps` and canonical JSON, and a newline at the end
does not disturb it. -/
structure UndoesJson : Prop where
  dumped : ∀ value : Json, value.Readable →
    Primitives.jsonLoads (Form.dumped.write value) = some value
  line : ∀ value : Json, value.Readable →
    Primitives.jsonLoads (Form.line.write value) = some value
  canonical : ∀ value : Json, value.Readable →
    Primitives.jsonLoads (Form.canonical.write value) = some value.sorted

/-- What arrives of a value: each time it stands somewhere in a message, which is
written and read, and is taken from the same place. -/
inductive Conveyed (value : Json) : Json → Prop
  | kept : Conveyed value value
  | sent {data message received arrived : Json} {path : List Json.Step} (form : Form) :
      Conveyed value data → message.Readable → message.descend path = some data →
      Primitives.jsonLoads (form.write message) = some received →
      received.descend path = some arrived → Conveyed value arrived

/-- What arrives of a transaction: each time it is encoded, alone or in a block,
conveyed and decoded. -/
inductive Carried (tx : Transaction) : Transaction → Prop
  | kept : Carried tx tx
  | alone {sent received : Transaction} {data : Json} :
      Carried tx sent → Conveyed sent.encodeTx data → decodeTx data = .ok received →
      Carried tx received
  | inBlock {sent received : Transaction} {block arrived : Block} {data : Json} (position : Nat) :
      Carried tx sent → block.transactions[position]? = some sent →
      Conveyed block.encodeBlock data → decodeBlock data = .ok arrived →
      arrived.transactions[position]? = some received → Carried tx received

variable {value data message received arrived inside : Json} {path : List Json.Step}

/-- One message delivers a value as it was, or with its keys in order. -/
theorem UndoesJson.delivers
    (undoes : UndoesJson)
    (form : Form)
    (readable : message.Readable)
    (placed : message.descend path = some data)
    (read : Primitives.jsonLoads (form.write message) = some received)
    (found : received.descend path = some arrived) :
    arrived = data ∨ arrived = data.sorted := by
  cases form with
  | dumped =>
      rw [undoes.dumped message readable] at read
      cases read
      exact .inl (Option.some.inj (found.symm.trans placed))
  | line =>
      rw [undoes.line message readable] at read
      cases read
      exact .inl (Option.some.inj (found.symm.trans placed))
  | canonical =>
      rw [undoes.canonical message readable] at read
      cases read
      have there := (readable.descend_sorted placed).2
      exact .inr (Option.some.inj (found.symm.trans there))

/-- What is conveyed decodes to what was encoded. -/
theorem Conveyed.decodes
    (undoes : UndoesJson)
    (conveyed : Conveyed value data)
    (readable : value.Readable) :
    data.Readable ∧ decodeTx data = decodeTx value ∧ decodeBlock data = decodeBlock value := by
  induction conveyed with
  | kept => exact ⟨readable, rfl, rfl⟩
  | sent form _ whole placed read found inductionHypothesis =>
      obtain ⟨readableData, asTx, asBlock⟩ := inductionHypothesis
      rcases undoes.delivers form whole placed read found with rfl | rfl
      · exact ⟨readableData, asTx, asBlock⟩
      · exact ⟨readableData.sorted, (decodeTx_sorted readableData).trans asTx,
          (decodeBlock_sorted readableData).trans asBlock⟩

/-- A transaction comes out as it went in. -/
theorem Carried.eq
    (undoes : UndoesJson)
    {tx received : Transaction}
    (carried : Carried tx received) :
    received = tx := by
  induction carried with
  | kept => rfl
  | @alone sent received data _ conveyed decoded inductionHypothesis =>
      have whole := (conveyed.decodes undoes (readable_encodeTx sent)).2.1
      rw [decoded, decodeTx_encodeTx] at whole
      cases whole
      exact inductionHypothesis
  | @inBlock sent received block arrived data position _ placed conveyed decoded found
      inductionHypothesis =>
      have whole := (conveyed.decodes undoes (readable_encodeBlock block)).2.2
      rw [decoded, decodeBlock_encodeBlock] at whole
      cases whole
      have kept : block.postInit.transactions = block.transactions := by
        rw [Block.postInit]
        split <;> rfl
      rw [kept] at found
      have same : received = sent := Option.some.inj (found.symm.trans placed)
      exact same.trans inductionHypothesis

/-! ## Evidence -/

/-- Evidence of a kind for two values. -/
def evidenceOf (kind : Str) (a b : Json) : List (Str × Json) :=
  [(Key.kind, .str kind), (Key.a, a), (Key.b, b)]

omit [Primitives] in
theorem evidenceKeys_nodup (kind : Str) (a b : Json) :
    ((evidenceOf kind a b).map Prod.fst).Nodup := by
  have keys : [Key.kind, Key.a, Key.b].Nodup := by decide
  exact keys

variable {kind : Str} {a b : Json}

/-- The evidence is read with its keys in order. -/
theorem UndoesJson.loadJson_evidence
    (undoes : UndoesJson)
    (kind : Str)
    (readableA : a.Readable)
    (readableB : b.Readable) :
    ∃ fields, loadJson (canonicalText (.obj (evidenceOf kind a b))) = .ok fields ∧
      Json.field fields Key.kind = some (.str kind) ∧
      Json.field fields Key.a = some a.sorted ∧ Json.field fields Key.b = some b.sorted := by
  have readable : (Json.obj (evidenceOf kind a b)).Readable := by
    refine .obj (evidenceKeys_nodup kind a b) ?_
    intro entry inside
    simp only [evidenceOf, List.mem_cons, List.not_mem_nil, or_false] at inside
    rcases inside with rfl | rfl | rfl
    · exact .str kind
    · exact readableA
    · exact readableB
  have loaded := undoes.canonical _ readable
  rw [Form.write, Json.sorted] at loaded
  have lookup := Json.field_sortMembers (evidenceKeys_nodup kind a b)
  refine ⟨_, ?_, lookup Key.kind, lookup Key.a, lookup Key.b⟩
  rw [loadJson, loaded]

/-- The evidence built from two blocks proves of them what the verifier proves. -/
theorem slashOffense_blocks
    (undoes : UndoesJson)
    (b1 b2 : Block) :
    slashOffense (canonicalText (.obj (evidenceOf Key.block b1.encodeBlock b2.encodeBlock))) =
      (verifyEquivocation b1.postInit b2.postInit).map
        fun proven => (proven.1, .block proven.1 proven.2) := by
  have readable1 := readable_encodeBlock b1
  have readable2 := readable_encodeBlock b2
  obtain ⟨fields, loaded, kind, a, b⟩ :=
    undoes.loadJson_evidence Key.block readable1 readable2
  have block1 := (decodeBlock_sorted readable1).trans (decodeBlock_encodeBlock b1)
  have block2 := (decodeBlock_sorted readable2).trans (decodeBlock_encodeBlock b2)
  have isBlock : (Json.str Key.block).eq (.str Key.vote) = false := by decide
  simp only [slashOffense, loaded, kind, a, b, block1, block2, bind, Except.bind, require,
    Option.getD_some, isBlock, Bool.false_eq_true, if_false]
  cases verifyEquivocation b1.postInit b2.postInit <;> rfl

/-- The evidence built from two votes proves of them what the verifier proves. -/
theorem slashOffense_votes
    (undoes : UndoesJson)
    (voteA voteB : Transaction) :
    slashOffense (canonicalText (.obj (evidenceOf Key.vote voteA.encodeTx voteB.encodeTx))) =
      (verifyVoteFault voteA voteB).map fun proven => (proven.1, .vote proven.2) := by
  have readableA := readable_encodeTx voteA
  have readableB := readable_encodeTx voteB
  obtain ⟨fields, loaded, kind, a, b⟩ := undoes.loadJson_evidence Key.vote readableA readableB
  have txA := (decodeTx_sorted readableA).trans (decodeTx_encodeTx voteA)
  have txB := (decodeTx_sorted readableB).trans (decodeTx_encodeTx voteB)
  have isVote : (Json.str Key.vote).eq (.str Key.vote) = true := by decide
  simp only [slashOffense, loaded, kind, a, b, txA, txB, bind, Except.bind, require,
    Option.getD_some, isVote, if_true]
  cases verifyVoteFault voteA voteB <;> rfl

variable {reporter : Wallet} {tx : Transaction} {nonce fee : Int} {randomness : Nat}

theorem evidence_slashTx
    {b1 b2 : Block}
    (built : slashTx reporter b1 b2 nonce fee randomness = .ok tx) :
    tx.evidence = canonicalText (.obj (evidenceOf Key.block b1.encodeBlock b2.encodeBlock)) := by
  simp only [slashTx, Transaction.sign, bind_eq_ok, pure_eq_ok] at built
  obtain ⟨_, _, rfl⟩ := built
  rfl

theorem evidence_voteSlashTx
    {voteA voteB : Transaction}
    (built : voteSlashTx reporter voteA voteB nonce fee randomness = .ok tx) :
    tx.evidence = canonicalText (.obj (evidenceOf Key.vote voteA.encodeTx voteB.encodeTx)) := by
  simp only [voteSlashTx, Transaction.sign, bind_eq_ok, pure_eq_ok] at built
  obtain ⟨_, _, rfl⟩ := built
  rfl

/-- The evidence of a slash survives any transport: what it proves on arrival is
what the verifiers return, or the error they raise, on the two blocks or the two
votes the slash was built from. -/
theorem evidence_survives
    (undoes : UndoesJson)
    (reporter : Wallet)
    (nonce fee : Int)
    (randomness : Nat) :
    (∀ (b1 b2 : Block) (tx received : Transaction),
      slashTx reporter b1.postInit b2.postInit nonce fee randomness = .ok tx →
      Carried tx received →
      slashOffense received.evidence =
        (verifyEquivocation b1.postInit b2.postInit).map
          fun proven => (proven.1, .block proven.1 proven.2)) ∧
    ∀ voteA voteB tx received : Transaction,
      voteSlashTx reporter voteA voteB nonce fee randomness = .ok tx →
      Carried tx received →
      slashOffense received.evidence =
        (verifyVoteFault voteA voteB).map fun proven => (proven.1, .vote proven.2) := by
  constructor
  · intro b1 b2 tx received built carried
    rw [carried.eq undoes, evidence_slashTx built, slashOffense_blocks undoes,
      Block.postInit_postInit, Block.postInit_postInit]
  · intro voteA voteB tx received built carried
    rw [carried.eq undoes, evidence_voteSlashTx built, slashOffense_votes undoes]

/-! ## The message of a block -/

omit [Primitives] in
theorem readable_blockMessage (block : Block) :
    (Json.obj (blockMessage block.encodeBlock)).Readable := by
  have keys : [Key.type, Key.data].Nodup := by decide
  refine .obj keys ?_
  intro entry inside
  simp only [blockMessage, List.mem_cons, List.not_mem_nil, or_false] at inside
  rcases inside with rfl | rfl
  · exact .str _
  · exact readable_encodeBlock block

/-- A block arrives with the line it is gossiped in. -/
theorem UndoesJson.conveyed_line
    (undoes : UndoesJson)
    (block : Block) :
    Conveyed block.encodeBlock block.encodeBlock := by
  have readable := readable_blockMessage block
  have placed : (Json.obj (blockMessage block.encodeBlock)).descend [.member Key.data] =
      some block.encodeBlock := rfl
  exact .sent .line .kept readable placed (undoes.line _ readable) placed

end

/-! ## A report in a gossiped block -/

namespace TransportSample

/-- The executable primitives with a reader that skips newlines at the end. -/
@[reducible] def primitives : Primitives :=
  { Symbolic.primitives with
    jsonLoads := fun input => Json.read (input.rdropWhile fun char => char = '\n') }

attribute [local instance] primitives

/-- A printable text ends in no newline. -/
theorem rdropWhile_of_printable
    {text : Str}
    (printable : text.all Json.isPrintable = true) :
    text.rdropWhile (fun char => char = '\n') = text := by
  rw [List.rdropWhile_eq_self_iff]
  intro nonempty newline
  have last := List.all_eq_true.mp printable _ (List.getLast_mem nonempty)
  rw [of_decide_eq_true newline] at last
  cases last

/-- The reader undoes any text without gaps or with blanks for gaps. -/
theorem jsonLoads_render
    {gap : Str}
    (blank : ∀ char ∈ gap, char = ' ')
    (gapPrintable : gap.all Json.isPrintable = true)
    {value : Json}
    (readable : value.Readable) :
    Primitives.jsonLoads (value.render Primitives.floatText gap) = some value := by
  have printable : (value.render Primitives.floatText gap).all Json.isPrintable = true :=
    readable.all_isPrintable gapPrintable
  have loads : Primitives.jsonLoads (value.render Primitives.floatText gap) =
      Json.read ((value.render Primitives.floatText gap).rdropWhile fun char => char = '\n') := rfl
  rw [loads, rdropWhile_of_printable printable, Json.read_render _ blank readable]

theorem undoes : UndoesJson := by
  have blank : ∀ char ∈ [' '], char = ' ' := fun char listed => List.mem_singleton.mp listed
  constructor
  · intro value readable
    exact jsonLoads_render blank rfl readable
  · intro value readable
    have skipped : Primitives.jsonLoads (Form.line.write value) =
        Primitives.jsonLoads (value.render Primitives.floatText [' ']) :=
      congrArg Json.read (List.rdropWhile_concat_pos _ _ _ rfl)
    rw [skipped, jsonLoads_render blank rfl readable]
  · intro value readable
    rw [Form.write, canonicalText, Json.dumps_eq_render _ readable]
    exact jsonLoads_render (by simp) rfl readable.sorted

/-- A validator, and the reporter of two blocks it seals. -/
def offender : Wallet := Symbolic.wallet 1

def reporter : Wallet := Symbolic.wallet 2

/-- Two blocks of one height, and the report of the pair. -/
structure Scene where
  b1 : Block
  b2 : Block
  tx : Transaction

def stage : Except Error Scene := do
  let b1 ← sealBlock ['f'] 1 offender [] 0 0 0
  let b2 ← sealBlock ['f'] 1 offender [] 1 0 0
  let tx ← slashTx reporter b1.postInit b2.postInit 0 0 0
  let proven ← verifyEquivocation b1.postInit b2.postInit
  raiseIf (proven ≠ (offender.address, 1)) Error.valueError
  pure { b1, b2, tx }

theorem staged : succeeded stage = true := by decide +kernel

/-- A report that arrives inside a gossiped block proves the offense. -/
theorem evidence_survives_gossip :
    ∃ (b1 b2 block arrived : Block) (tx received : Transaction),
      slashTx reporter b1.postInit b2.postInit 0 0 0 = .ok tx ∧ block.transactions = [tx] ∧
        Primitives.jsonLoads (Form.line.write (.obj (blockMessage block.encodeBlock))) =
          some (.obj (blockMessage block.encodeBlock)) ∧
        decodeBlock block.encodeBlock = .ok arrived ∧ arrived.transactions = [received] ∧
        slashOffense received.evidence = .ok (offender.address, .block offender.address 1) := by
  obtain ⟨scene, ran⟩ := (succeeded_iff _).mp staged
  simp only [stage, bind_eq_ok, raiseIf_eq_ok, exists_unit, pure_eq_ok, ne_eq, not_not] at ran
  obtain ⟨b1, _, b2, _, tx, built, proven, verified, rfl, rfl⟩ := ran
  let block : Block :=
    { index := 1, previousHash := ['f'], timestamp := 0, transactions := [tx],
      validator := reporter.address, nonce := 0, merkleRoot := ['f'] }
  have line := undoes.line _ (readable_blockMessage block)
  have decoded : decodeBlock block.encodeBlock = .ok block := decodeBlock_encodeBlock block
  have carried : Carried tx tx :=
    .inBlock 0 .kept rfl (undoes.conveyed_line block) decoded rfl
  have survives := (evidence_survives undoes reporter 0 0 0).1 b1 b2 tx tx built carried
  refine ⟨b1, b2, block, block, tx, tx, built, rfl, line, decoded, rfl, ?_⟩
  rw [survives, verified]
  rfl

end TransportSample

end Mindees
