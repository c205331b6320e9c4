import Mindees.Consensus.Genesis
import Mindees.Core.Reader
import Mindees.Library.LineLog

/-!
# The block store

The parameters of genesis and the accepted blocks as text on disk: one file
written once, and one with a line of JSON for every block in the order of their
acceptance.  The files are ASCII, so a byte of them is a character.
-/

namespace Mindees

open Library

namespace Key

def allocations : Str := ['a', 'l', 'l', 'o', 'c', 'a', 't', 'i', 'o', 'n', 's']
def initialStakes : Str :=
  ['i', 'n', 'i', 't', 'i', 'a', 'l', '_', 's', 't', 'a', 'k', 'e', 's']
def vesting : Str := ['v', 'e', 's', 't', 'i', 'n', 'g']
def unbondingBlocks : Str :=
  ['u', 'n', 'b', 'o', 'n', 'd', 'i', 'n', 'g', '_', 'b', 'l', 'o', 'c', 'k', 's']
def treasuryAddress : Str :=
  ['t', 'r', 'e', 'a', 's', 'u', 'r', 'y', '_', 'a', 'd', 'd', 'r', 'e', 's', 's']
def epoch : Str := ['e', 'p', 'o', 'c', 'h']

/-! The names in the genesis file, letter by letter. -/

example :
    allocations = "allocations".toList ∧ initialStakes = "initial_stakes".toList ∧
    vesting = "vesting".toList ∧ unbondingBlocks = "unbonding_blocks".toList ∧
    treasuryAddress = "treasury_address".toList ∧ epoch = "epoch".toList := by
  simp [allocations, initialStakes, vesting, unbondingBlocks, treasuryAddress, epoch]

end Key

/-! ## Reading text -/

/-- Universal newlines: every kind of line end is read as `\n`. -/
def translateNewlines : Str → Str
  | [] => []
  | '\r' :: '\n' :: rest => '\n' :: translateNewlines rest
  | '\r' :: rest => '\n' :: translateNewlines rest
  | char :: rest => char :: translateNewlines rest

/-- `str.isspace` on one code point. -/
def isSpace (char : Char) : Bool :=
  let code := char.toNat
  (9 ≤ code && code ≤ 13) || (28 ≤ code && code ≤ 32) || code = 133 || code = 160 ||
    code = 5760 || (8192 ≤ code && code ≤ 8202) || code = 8232 || code = 8233 ||
    code = 8239 || code = 8287 || code = 12288

/-- `str.strip`. -/
def strip (text : Str) : Str :=
  ((text.dropWhile isSpace).reverse.dropWhile isSpace).reverse

/-! ## The genesis file -/

/-- A dictionary as an object. -/
def jsonDict {ν : Type} (value : ν → Json) (dict : Dict Str ν) : Json :=
  .obj (dict.entries.map fun entry => (entry.1, value entry.2))

/-- The numbers of a grant as a list. -/
def jsonGrant (grant : List Int) : Json := .arr (grant.map .int)

/-- The treasury address, or `null`. -/
def jsonTreasury (treasuryAddress : Option Str) : Json := (treasuryAddress.map .str).getD .null

/-- What `write_genesis` puts into the file. -/
def genesisPayload (args : GenesisArgs) : Json :=
  .obj
    [(Key.allocations, jsonDict .int args.allocations),
      (Key.initialStakes, jsonDict .int args.initialStakes),
      (Key.timestamp, .int args.timestamp),
      (Key.vesting, jsonDict jsonGrant args.vesting),
      (Key.unbondingBlocks, .int args.unbondingBlocks),
      (Key.treasuryAddress, jsonTreasury args.treasuryAddress),
      (Key.epoch, .int args.epoch)]

/-- The error of `genesis_params` for a parameter that is missing. -/
def malformedGenesis (key : Str) : Error := .validation s!"malformed genesis.json: '{text key}'"

/-- An integer.  The parameters are declared integers, and no other kind is
modelled. -/
def readInteger : Json → Except Error Int
  | .int value => .ok value
  | _ => .error .typeError

/-- An object as a dictionary, a later value of a key in the place of an earlier
one. -/
def readDict {ν : Type} (value : Json → Except Error ν) : Json → Except Error (Dict Str ν)
  | .obj fields =>
      fields.foldlM (fun dict entry => do
        let found ← value entry.2
        pure (dict.set entry.1 found))
        Dict.empty
  | _ => .error .typeError

/-- The numbers of a grant. -/
def readGrant : Json → Except Error (List Int)
  | .arr items => items.mapM readInteger
  | _ => .error .typeError

/-- The treasury address, if there is one. -/
def readTreasury : Option Json → Except Error (Option Str)
  | none => .ok none
  | some .null => .ok none
  | some (.str address) => .ok (some address)
  | some _ => .error .typeError

mutual

/-- A number with a fraction or an exponent occurs somewhere. -/
def hasFloat : Json → Bool
  | .float _ => true
  | .arr items => hasFloatItems items
  | .obj fields => hasFloatFields fields
  | _ => false

/-- The same for the items of a list. -/
def hasFloatItems : List Json → Bool
  | [] => false
  | item :: rest => hasFloat item || hasFloatItems rest

/-- The same for the values of an object. -/
def hasFloatFields : List (Str × Json) → Bool
  | [] => false
  | (_, value) :: rest => hasFloat value || hasFloatFields rest

end

/-! ## Errors of the block file -/

/-- The text of an exception that `iter_blocks` and `load` turn into one about a
line of the file.  The texts of the JSON decoder are left out. -/
def Error.caught : Error → Option String
  | .validation message => some message
  | .conflictingFinality message => some message
  | .keyError => some ""
  | .typeError => some ""
  | _ => none

/-- `except ... as exc: raise ValidationError(...)`. -/
def atLine {α : Type} (lineno : Nat) (computation : Except Error α) : Except Error α :=
  match computation with
  | .ok value => .ok value
  | .error error =>
      match error.caught with
      | some exc => .error (.validation s!"corrupt block store at line {lineno}: {exc}")
      | none => .error error

@[simp] theorem atLine_eq_ok
    {α : Type}
    (lineno : Nat)
    (computation : Except Error α)
    (value : α) :
    atLine lineno computation = .ok value ↔ computation = .ok value := by
  unfold atLine
  cases computation with
  | ok found => rfl
  | error error =>
      constructor
      · intro impossible
        dsimp only at impossible
        split at impossible <;> cases impossible
      · intro impossible
        cases impossible

/-! ## The store -/

/-- A directory with a genesis file. -/
structure BlockStore where
  genesis : Str
  /-- The text of the block file, if there is one. -/
  blocks : Option Str

section

variable [Primitives]

/-- `json.dumps(value)`. -/
def jsonDumps (value : Json) : Str := value.render Primitives.floatText [' ']

namespace BlockStore

/-- Write the genesis file of a directory that has none. -/
def writeGenesis (directory : Option BlockStore) (args : GenesisArgs) :
    Except Error BlockStore := do
  rejectIf (directory.isSome = true) "genesis already initialised"
  pure { genesis := jsonDumps (genesisPayload args).sorted, blocks := none }

/-- The line of a block. -/
def line (block : Block) : Str := jsonDumps block.encodeBlock

/-- Write a block behind whatever the file holds. -/
def append (disk : BlockStore) (block : Block) : BlockStore :=
  { disk with blocks := some (disk.blocks.getD [] ++ (line block ++ ['\n'])) }

/-- The parameters in the genesis file. -/
def genesisParams (disk : BlockStore) : Except Error GenesisArgs := do
  let data ← require (Primitives.jsonLoads (translateNewlines disk.genesis))
    (.validation "malformed genesis.json")
  rejectIf (hasFloat data = true) "genesis.json contains a float; all amounts must be integers"
  match data with
  | .obj fields =>
      let vesting ← readDict readGrant ((Json.field fields Key.vesting).getD (.obj []))
      let allocations ← require (Json.field fields Key.allocations)
        (malformedGenesis Key.allocations)
      let allocations ← readDict readInteger allocations
      let initialStakes ← require (Json.field fields Key.initialStakes)
        (malformedGenesis Key.initialStakes)
      let initialStakes ← readDict readInteger initialStakes
      let timestamp ← require (Json.field fields Key.timestamp) (malformedGenesis Key.timestamp)
      let timestamp ← readInteger timestamp
      let unbondingBlocks ← intFieldD fields Key.unbondingBlocks 0
      let treasuryAddress ← readTreasury (Json.field fields Key.treasuryAddress)
      let epoch ← intFieldD fields Key.epoch 32
      pure
        { allocations, initialStakes, timestamp, vesting, unbondingBlocks, treasuryAddress,
          epoch }
  | _ => .error (.validation "malformed genesis.json")

/-- The lines that got their newline, without the blanks around them. -/
def committedLines (disk : BlockStore) : List Str :=
  match disk.blocks with
  | none => []
  | some text =>
      ((records '\n' (translateNewlines text)).map strip).filter fun stripped => stripped ≠ []

/-- The block on a line. -/
def decodeLine (line : Str) : Except Error Block := do
  let data ← require (Primitives.jsonLoads line) (.validation "")
  decodeBlock data

/-- The persisted blocks in the order of their lines. -/
def iterBlocks (disk : BlockStore) : Except Error (List Block) :=
  (disk.committedLines.zipIdx 1).mapM fun (line, lineno) => atLine lineno (decodeLine line)

/-- A loop over the persisted blocks; it reads a line when it gets there. -/
def forBlocks {σ : Type} (disk : BlockStore) (body : σ → Block → Except Error σ) (start : σ) :
    Except Error σ :=
  (disk.committedLines.zipIdx 1).foldlM
    (fun state (line, lineno) => do
      let block ← atLine lineno (decodeLine line)
      body state block)
    start

/-- Submit the block on a line. -/
def submitLine (chain : ProofOfStakeChain) : Str × Nat → Except Error ProofOfStakeChain
  | (line, lineno) => atLine lineno (do
      let block ← decodeLine line
      chain.submitBlock block)

/-- Rebuild a single chain from disk and validate every block again. -/
def load (disk : BlockStore) : Except Error ProofOfStakeChain := do
  let args ← disk.genesisParams
  let chain ← ProofOfStakeChain.init args
  (disk.committedLines.zipIdx 1).foldlM submitLine chain

end BlockStore

end

/-! ## Loops over lines -/

section

variable {σ : Type} {decode : Str → Except Error Block}

/-- The blocks on the lines, by any way to decode a line. -/
abbrev Spell (decode : Str → Except Error Block) (lines : List Str) (blocks : List Block) : Prop :=
  List.Forall₂ (fun line block => decode line = .ok block) lines blocks

/-- Every line spells a block. -/
theorem exists_of_spell
    {lines : List Str}
    {blocks : List Block}
    (spelled : Spell decode lines blocks)
    {line : Str}
    (inside : line ∈ lines) :
    ∃ block, decode line = .ok block := by
  induction spelled with
  | nil => cases inside
  | cons decoded _ inductionHypothesis =>
      rcases List.mem_cons.mp inside with rfl | later
      · exact ⟨_, decoded⟩
      · exact inductionHypothesis later

theorem mapM_lines_eq_ok
    (lines : List Str)
    (first : Nat)
    (blocks : List Block) :
    ((lines.zipIdx first).mapM fun (line, lineno) => atLine lineno (decode line)) =
      .ok blocks ↔ Spell decode lines blocks := by
  induction lines generalizing first blocks with
  | nil =>
      simp only [List.zipIdx_nil, List.mapM_nil, pure_eq_ok, Spell, List.forall₂_nil_left_iff]
      exact eq_comm
  | cons line lines inductionHypothesis =>
      simp only [List.zipIdx_cons, List.mapM_cons, bind_eq_ok, atLine_eq_ok, pure_eq_ok,
        inductionHypothesis, List.forall₂_cons_left_iff]
      constructor
      · rintro ⟨block, decoded, others, spelled, rfl⟩
        exact ⟨block, others, decoded, spelled, rfl⟩
      · rintro ⟨block, others, decoded, spelled, rfl⟩
        exact ⟨block, decoded, others, spelled, rfl⟩

/-- A loop that decodes each line and hands the block to a body runs the body
over the blocks. -/
theorem foldlM_lines_eq_ok
    {step : σ → Str × Nat → Except Error σ}
    {body : σ → Block → Except Error σ}
    (stepwise : ∀ state line lineno next, step state (line, lineno) = .ok next ↔
      ∃ block, decode line = .ok block ∧ body state block = .ok next)
    (lines : List Str)
    (first : Nat)
    (start finish : σ) :
    (lines.zipIdx first).foldlM step start = .ok finish ↔
      ∃ blocks, Spell decode lines blocks ∧ blocks.foldlM body start = .ok finish := by
  induction lines generalizing first start with
  | nil =>
      simp only [List.zipIdx_nil, List.foldlM_nil, List.forall₂_nil_left_iff, exists_eq_left]
  | cons line lines inductionHypothesis =>
      simp only [List.zipIdx_cons, foldlM_cons_eq_ok, stepwise, inductionHypothesis,
        List.forall₂_cons_left_iff]
      constructor
      · rintro ⟨middle, ⟨block, decoded, ran⟩, others, spelled, rest⟩
        exact ⟨block :: others, ⟨block, others, decoded, spelled, rfl⟩,
          (foldlM_cons_eq_ok _ _ _ _).mpr ⟨middle, ran, rest⟩⟩
      · rintro ⟨_, ⟨block, others, decoded, spelled, rfl⟩, ran⟩
        obtain ⟨middle, ran, rest⟩ := (foldlM_cons_eq_ok _ _ _ _).mp ran
        exact ⟨middle, ⟨block, decoded, ran⟩, others, spelled, rest⟩

end

section

variable [Primitives]

namespace BlockStore

variable {disk : BlockStore} {blocks : List Block}

theorem iterBlocks_eq_ok (disk : BlockStore) (blocks : List Block) :
    disk.iterBlocks = .ok blocks ↔ Spell decodeLine disk.committedLines blocks :=
  mapM_lines_eq_ok _ _ _

/-- A loop over a readable store runs its body over the blocks. -/
theorem forBlocks_eq_ok
    {σ : Type}
    (disk : BlockStore)
    (body : σ → Block → Except Error σ)
    (start finish : σ) :
    disk.forBlocks body start = .ok finish ↔
      ∃ blocks, disk.iterBlocks = .ok blocks ∧ blocks.foldlM body start = .ok finish := by
  simp only [iterBlocks_eq_ok]
  refine foldlM_lines_eq_ok ?_ _ _ _ _
  intro state line lineno next
  simp only [bind_eq_ok, atLine_eq_ok]

/-- Loading a readable store submits its blocks to a new chain. -/
theorem load_eq_ok
    (disk : BlockStore)
    (chain : ProofOfStakeChain) :
    disk.load = .ok chain ↔
      ∃ args start blocks, disk.genesisParams = .ok args ∧
        ProofOfStakeChain.init args = .ok start ∧ disk.iterBlocks = .ok blocks ∧
        start.submitBlocks blocks = .ok chain := by
  have loop : ∀ start, (disk.committedLines.zipIdx 1).foldlM submitLine start = .ok chain ↔
      ∃ blocks, Spell decodeLine disk.committedLines blocks ∧
        start.submitBlocks blocks = .ok chain := by
    intro start
    refine foldlM_lines_eq_ok ?_ _ _ _ _
    intro state line lineno next
    simp only [submitLine, atLine_eq_ok, bind_eq_ok]
  simp only [load, bind_eq_ok, loop, iterBlocks_eq_ok]
  constructor
  · rintro ⟨args, params, start, initialised, blocks, spelled, submitted⟩
    exact ⟨args, start, blocks, params, initialised, spelled, submitted⟩
  · rintro ⟨args, start, blocks, params, initialised, spelled, submitted⟩
    exact ⟨args, params, start, initialised, blocks, spelled, submitted⟩

end BlockStore
end

/-! ## Clean lines -/

/-- A line that comes back as it was written: printable, not empty, and without
a blank at either end. -/
structure CleanLine (line : Str) : Prop where
  printable : line.all Json.isPrintable = true
  nonempty : line ≠ []
  first : ∀ char ∈ line.head?, isSpace char = false
  last : ∀ char ∈ line.getLast?, isSpace char = false

theorem not_mem_of_printable
    {text : Str}
    {char : Char}
    (printable : text.all Json.isPrintable = true)
    (control : Json.isPrintable char = false) :
    char ∉ text := by
  intro inside
  have printed := List.all_eq_true.mp printable char inside
  rw [control] at printed
  cases printed

theorem translateNewlines_eq_self
    {text : Str}
    (inside : '\r' ∉ text) :
    translateNewlines text = text := by
  fun_induction translateNewlines text with
  | case1 => rfl
  | case2 rest _ => exact absurd List.mem_cons_self inside
  | case3 rest _ _ => exact absurd List.mem_cons_self inside
  | case4 char rest _ _ inductionHypothesis =>
      rw [inductionHypothesis fun later => inside (List.mem_cons_of_mem _ later)]

theorem dropWhile_eq_self
    {text : Str}
    (first : ∀ char ∈ text.head?, isSpace char = false) :
    text.dropWhile isSpace = text := by
  cases text with
  | nil => rfl
  | cons char rest =>
      have visible : ¬isSpace char = true := by
        rw [first char rfl]
        exact Bool.false_ne_true
      rw [List.dropWhile_cons_of_neg visible]

theorem CleanLine.strip_eq
    {line : Str}
    (clean : CleanLine line) :
    strip line = line := by
  have reversed : ∀ char ∈ line.reverse.head?, isSpace char = false := by
    rw [List.head?_reverse]
    exact clean.last
  rw [strip, dropWhile_eq_self clean.first, dropWhile_eq_self reversed, List.reverse_reverse]

/-- A log of clean lines has no control character but its newlines. -/
theorem not_mem_logText
    {written : List Str}
    (clean : ∀ line ∈ written, CleanLine line) :
    '\r' ∉ logText '\n' written := by
  intro inside
  obtain ⟨line, listed, found⟩ := List.mem_flatMap.mp inside
  rcases List.mem_append.mp found with early | last
  · exact not_mem_of_printable (clean line listed).printable rfl early
  · revert last
    decide

/-- The reader finds the lines that were written, and no torn one. -/
theorem stripped_logText
    {written : List Str}
    {torn : Str}
    (clean : ∀ line ∈ written, CleanLine line)
    (printable : torn.all Json.isPrintable = true) :
    ((records '\n' (translateNewlines (logText '\n' written ++ torn))).map strip).filter
      (fun stripped => stripped ≠ []) = written := by
  have plain : '\r' ∉ logText '\n' written ++ torn := by
    intro inside
    rcases List.mem_append.mp inside with early | late
    · exact not_mem_logText clean early
    · exact not_mem_of_printable printable rfl late
  have separate : ∀ line ∈ written, '\n' ∉ line :=
    fun line inside => not_mem_of_printable (clean line inside).printable rfl
  have whole : written.map strip = written := by
    conv_rhs => rw [← List.map_id written]
    exact List.map_congr_left fun line inside => (clean line inside).strip_eq
  rw [translateNewlines_eq_self plain,
    records_logText separate (not_mem_of_printable printable rfl), whole, List.filter_eq_self]
  intro line inside
  exact decide_eq_true (clean line inside).nonempty

section

variable [Primitives]

/-! ## The text of a block -/

omit [Primitives] in
theorem readable_encodeTx (tx : Transaction) : tx.encodeTx.Readable := by
  have keys : [Key.sender, Key.recipient, Key.amount, Key.fee, Key.nonce, Key.publicKey,
      Key.signature, Key.evidence].Nodup := by decide
  refine .obj keys ?_
  · intro entry inside
    simp only [List.mem_cons, List.not_mem_nil, or_false] at inside
    rcases inside with rfl | rfl | rfl | rfl | rfl | rfl | rfl | rfl
    all_goals first | exact .str _ | exact .int _

omit [Primitives] in
theorem readable_encodeBlock (block : Block) : block.encodeBlock.Readable := by
  have keys : [Key.index, Key.previousHash, Key.timestamp, Key.transactions, Key.validator,
      Key.nonce, Key.merkleRoot, Key.proposerPubkey, Key.validatorSig].Nodup := by decide
  refine .obj keys ?_
  · intro entry inside
    simp only [List.mem_cons, List.not_mem_nil, or_false] at inside
    rcases inside with rfl | rfl | rfl | rfl | rfl | rfl | rfl | rfl | rfl
    case inr.inr.inr.inl =>
      refine .arr fun item inside => ?_
      obtain ⟨tx, _, rfl⟩ := List.mem_map.mp inside
      exact readable_encodeTx tx
    all_goals first | exact .str _ | exact .int _

namespace BlockStore

theorem exists_line (block : Block) :
    ∃ body, line block = '{' :: '"' :: 'i' :: (body ++ ['}']) := by
  have ends := Json.exists_fieldsEnd Primitives.floatText [' ']
    [(Key.previousHash, .str block.previousHash), (Key.timestamp, .int block.timestamp),
      (Key.transactions, .arr (block.transactions.map Transaction.encodeTx)),
      (Key.validator, .str block.validator), (Key.nonce, .int block.nonce),
      (Key.merkleRoot, .str block.merkleRoot), (Key.proposerPubkey, .str block.proposerPubkey),
      (Key.validatorSig, .str block.validatorSig)]
  obtain ⟨body, ends⟩ := ends
  have key : Json.quote Key.index = '"' :: 'i' :: ['n', 'd', 'e', 'x', '"'] := rfl
  refine ⟨['n', 'd', 'e', 'x', '"'] ++ ':' :: ([' '] ++
    Json.render Primitives.floatText [' '] (.int block.index) ++ body), ?_⟩
  rw [line, jsonDumps, Block.encodeBlock, Json.render_obj_cons, key, ends]
  simp only [List.cons_append, List.append_assoc, List.nil_append]

theorem cleanLine_line (block : Block) : CleanLine (line block) := by
  obtain ⟨body, shape⟩ := exists_line block
  have printable : (line block).all Json.isPrintable = true :=
    (readable_encodeBlock block).all_isPrintable rfl
  refine ⟨printable, ?_, ?_, ?_⟩
  · rw [shape]
    exact List.cons_ne_nil _ _
  · rintro char first
    rw [shape] at first
    cases first
    rfl
  · rintro char last
    rw [shape, ← List.cons_append, ← List.cons_append, ← List.cons_append,
      List.getLast?_concat] at last
    cases last
    rfl

/-! ## The file after some appends -/

/-- The text of the block file. -/
def text (disk : BlockStore) : Str := disk.blocks.getD []

/-- `json.loads` undoes `json.dumps` on a block. -/
def ReadsBack (block : Block) : Prop :=
  Primitives.jsonLoads (line block) = some block.encodeBlock

variable {disk : BlockStore} {blocks : List Block}

/-- Appending blocks extends the file by their lines. -/
theorem text_foldl_append (disk : BlockStore) (blocks : List Block) :
    (blocks.foldl append disk).text = disk.text ++ logText '\n' (blocks.map line) := by
  induction blocks generalizing disk with
  | nil => rw [List.foldl_nil, List.map_nil, logText_nil, List.append_nil]
  | cons block rest inductionHypothesis =>
      have one : (disk.append block).text = disk.text ++ (line block ++ ['\n']) := rfl
      rw [List.foldl_cons, inductionHypothesis, one, List.map_cons, logText_cons]
      simp only [List.append_assoc, List.singleton_append]

/-- Appending blocks leaves the genesis file alone. -/
@[simp] theorem genesisParams_foldl_append (disk : BlockStore) (blocks : List Block) :
    (blocks.foldl append disk).genesisParams = disk.genesisParams := by
  induction blocks generalizing disk with
  | nil => rfl
  | cons block rest inductionHypothesis =>
      rw [List.foldl_cons, inductionHypothesis]
      rfl

omit [Primitives] in
/-- The committed lines of a log of clean lines, with or without a torn one. -/
theorem committedLines_eq
    {written : List Str}
    {torn : Str}
    (holds : disk.text = logText '\n' written ++ torn)
    (clean : ∀ line ∈ written, CleanLine line)
    (printable : torn.all Json.isPrintable = true) :
    disk.committedLines = written := by
  rw [← stripped_logText clean printable, ← holds, committedLines, text]
  cases disk.blocks with
  | none => rfl
  | some text => rfl

theorem blocks_writeGenesis
    {args : GenesisArgs}
    (initialised : writeGenesis none args = .ok disk) :
    disk.blocks = none := by
  simp only [writeGenesis, rejectIf, bind_eq_ok, pure_eq_ok] at initialised
  obtain ⟨_, _, rfl⟩ := initialised
  rfl

/-- A new directory holds no blocks. -/
theorem iterBlocks_of_empty
    (empty : disk.blocks = none) :
    disk.iterBlocks = .ok [] := by
  rw [iterBlocks_eq_ok, committedLines, empty]
  exact .nil

/-- A block comes back from its line. -/
theorem decodeLine_line
    {block : Block}
    (reads : ReadsBack block)
    (built : block.postInit = block) :
    decodeLine (line block) = .ok block := by
  simp only [decodeLine, bind_eq_ok, require_eq_ok]
  refine ⟨block.encodeBlock, reads, ?_⟩
  rw [decodeBlock_encodeBlock, built]

/-- A log of blocks is read as these blocks. -/
theorem iterBlocks_of_text
    {torn : Str}
    (holds : disk.text = logText '\n' (blocks.map line) ++ torn)
    (printable : torn.all Json.isPrintable = true)
    (reads : ∀ block ∈ blocks, ReadsBack block)
    (built : ∀ block ∈ blocks, block.postInit = block) :
    disk.iterBlocks = .ok blocks := by
  have clean : ∀ text ∈ blocks.map line, CleanLine text := by
    intro text inside
    obtain ⟨block, _, rfl⟩ := List.mem_map.mp inside
    exact cleanLine_line block
  rw [iterBlocks_eq_ok, committedLines_eq holds clean printable, Spell, List.forall₂_map_left_iff,
    List.forall₂_same]
  exact fun block inside => decodeLine_line (reads block inside) (built block inside)

end BlockStore

end

end Mindees
