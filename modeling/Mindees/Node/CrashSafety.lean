import Mindees.Core.Balance
import Mindees.Node.Restart

/-!
# A crash during an append

A crash may leave the beginning of a line at the end of the block file.  The
reader ignores it, but the writer continues it: the next block goes onto the
same line, and the store can no longer be read.  After a cut between two lines
nothing is lost but the blocks behind it.
-/

namespace Mindees

open Library

section

variable [Primitives]

namespace BlockStore

/-- The block file cut behind some bytes. -/
def truncate (disk : BlockStore) (cut : Nat) : BlockStore :=
  { disk with blocks := disk.blocks.map (List.take cut) }

/-- Reading the store yields these blocks: the generator as a list, `load` as the
chain that takes them one after the other. -/
structure Holds (disk : BlockStore) (blocks : List Block) : Prop where
  iter : disk.iterBlocks = .ok blocks
  loads : ∀ chain, disk.load = .ok chain ↔
    ∃ args start, disk.genesisParams = .ok args ∧ ProofOfStakeChain.init args = .ok start ∧
      start.submitBlocks blocks = .ok chain

/-- The store holds a prefix of what was appended before, and that prefix with
everything that is appended from now on. -/
def Survives (disk : BlockStore) (blocks more : List Block) : Prop :=
  ∃ count, disk.Holds (blocks.take count) ∧
    (more.foldl append disk).Holds (blocks.take count ++ more)

variable {disk fresh : BlockStore} {blocks more : List Block} {torn : Str}

theorem holds_of_iterBlocks
    (read : disk.iterBlocks = .ok blocks) :
    disk.Holds blocks := by
  refine ⟨read, fun chain => ?_⟩
  rw [load_eq_ok]
  constructor
  · rintro ⟨args, start, found, params, initialised, again, submitted⟩
    obtain rfl := Except.ok.inj (read.symm.trans again)
    exact ⟨args, start, params, initialised, submitted⟩
  · rintro ⟨args, start, params, initialised, submitted⟩
    exact ⟨args, start, blocks, params, initialised, read, submitted⟩

omit [Primitives] in
theorem text_truncate (disk : BlockStore) (cut : Nat) :
    (disk.truncate cut).text = disk.text.take cut := by
  unfold text truncate
  cases disk.blocks with
  | none => exact List.take_nil.symm
  | some written => rfl

/-- A cut file holds the lines of the first blocks and the beginning of the next
one. -/
theorem exists_cut
    (empty : fresh.blocks = none)
    (blocks : List Block)
    (cut : Nat) :
    ∃ count torn, ((blocks.foldl append fresh).truncate cut).text =
        logText '\n' ((blocks.take count).map line) ++ torn ∧
      (torn = [] ∨ ∃ block, torn <+: line block) := by
  have whole : (blocks.foldl append fresh).text = logText '\n' (blocks.map line) := by
    rw [text_foldl_append, text, empty]
    rfl
  obtain ⟨count, torn, split, beginning⟩ := take_logText '\n' (blocks.map line) cut
  refine ⟨count, torn, ?_, ?_⟩
  · rw [text_truncate, whole, split, List.map_take]
  · rcases beginning with nothing | ⟨record, found, begins⟩
    · exact .inl nothing
    · obtain ⟨block, inside, rfl⟩ := List.mem_map.mp (List.mem_of_getElem? found)
      exact .inr ⟨block, begins⟩

/-- The beginning of a line is printable. -/
theorem printable_of_prefix
    {block : Block}
    (begins : torn <+: line block) :
    torn.all Json.isPrintable = true := by
  rw [List.all_eq_true]
  intro char inside
  exact List.all_eq_true.mp (cleanLine_line block).printable char (begins.subset inside)

/-! ## Appending to a torn line -/

/-- The line that a block is appended to starts like a block and ends like one. -/
theorem cleanLine_torn
    {block : Block}
    (begins : torn <+: line block)
    (nonempty : torn ≠ [])
    (next : Block) :
    CleanLine (torn ++ line next) := by
  have before := cleanLine_line block
  have behind := cleanLine_line next
  refine ⟨?_, ?_, ?_, ?_⟩
  · rw [List.all_append, printable_of_prefix begins, behind.printable]
    rfl
  · exact List.append_ne_nil_of_left_ne_nil nonempty _
  · intro char first
    rw [List.head?_append_of_ne_nil _ nonempty] at first
    refine before.first char ?_
    obtain ⟨rest, whole⟩ := begins
    rw [← whole, List.head?_append_of_ne_nil _ nonempty]
    exact first
  · intro char last
    rw [List.getLast?_append_of_ne_nil _ behind.nonempty] at last
    exact behind.last char last

/-- That line is not balanced. -/
theorem not_balanced_torn
    {block : Block}
    (begins : torn <+: line block)
    (nonempty : torn ≠ [])
    (next : Block) :
    Json.balanced (torn ++ line next) = false := by
  obtain ⟨body, shape⟩ := exists_line block
  obtain ⟨nextBody, nextShape⟩ := exists_line next
  have opened : torn.head? = some '{' := by
    obtain ⟨rest, whole⟩ := begins
    have first := congrArg List.head? whole
    rw [List.head?_append_of_ne_nil _ nonempty, shape] at first
    exact first
  exact Json.not_balanced_append (List.forall_mem_singleton.mpr rfl) opened
    (readable_encodeBlock next) nextShape

/-- After an append to a torn line the store can not be read. -/
theorem iterBlocks_torn
    {block next : Block}
    {rest : List Block}
    (holds : disk.text = logText '\n' (blocks.map line) ++ torn)
    (begins : torn <+: line block)
    (nonempty : torn ≠ [])
    (rejects : ∀ text ∈ ((next :: rest).foldl append disk).committedLines,
      Json.balanced text = false → Primitives.jsonLoads text = none)
    (found : List Block) :
    ((next :: rest).foldl append disk).iterBlocks ≠ .ok found := by
  have merged : ((next :: rest).foldl append disk).text = logText '\n'
      (blocks.map line ++ (torn ++ line next) :: rest.map line) ++ [] := by
    rw [text_foldl_append, holds, List.map_cons, logText_torn, List.append_nil]
  have clean : ∀ text ∈ blocks.map line ++ (torn ++ line next) :: rest.map line,
      CleanLine text := by
    intro text inside
    rw [List.mem_append, List.mem_cons, List.mem_map, List.mem_map] at inside
    rcases inside with ⟨block, _, rfl⟩ | rfl | ⟨block, _, rfl⟩
    · exact cleanLine_line block
    · exact cleanLine_torn begins nonempty next
    · exact cleanLine_line block
  have lines := committedLines_eq merged clean rfl
  have inside : torn ++ line next ∈ ((next :: rest).foldl append disk).committedLines := by
    rw [lines]
    exact List.mem_append_right _ List.mem_cons_self
  have refused := rejects _ inside (not_balanced_torn begins nonempty next)
  rw [Ne, iterBlocks_eq_ok]
  intro spelled
  obtain ⟨block, decoded⟩ := exists_of_spell spelled inside
  rw [decodeLine, refused] at decoded
  cases decoded

/-! ## Crashes -/

/-- Whatever a crash leaves of the file, reopening the store yields a prefix of
the appended blocks.  What is appended after that is read back behind the
prefix, without an exception, exactly when nothing is appended or the crash left
no unfinished line. -/
theorem crash_survives_iff
    (empty : fresh.blocks = none)
    (cut : Nat)
    (built : ∀ block ∈ blocks ++ more, block.postInit = block)
    (reads : ∀ block ∈ blocks ++ more, ReadsBack block)
    (rejects : ∀ text ∈
      (more.foldl append ((blocks.foldl append fresh).truncate cut)).committedLines,
        Json.balanced text = false → Primitives.jsonLoads text = none) :
    (∃ count, ((blocks.foldl append fresh).truncate cut).Holds (blocks.take count)) ∧
      (((blocks.foldl append fresh).truncate cut).Survives blocks more ↔
        more = [] ∨ Closed '\n' ((blocks.foldl append fresh).truncate cut).text) := by
  obtain ⟨count, torn, holds, beginning⟩ := exists_cut empty blocks cut
  generalize (blocks.foldl append fresh).truncate cut = disk at *
  have printable : torn.all Json.isPrintable = true := by
    rcases beginning with rfl | ⟨block, begins⟩
    · rfl
    · exact printable_of_prefix begins
  have kept : ∀ block ∈ blocks.take count, block ∈ blocks ++ more :=
    fun block inside => List.mem_append_left _ (List.mem_of_mem_take inside)
  have reopened : disk.Holds (blocks.take count) :=
    holds_of_iterBlocks (iterBlocks_of_text holds printable
      (fun block inside => reads block (kept block inside))
      fun block inside => built block (kept block inside))
  refine ⟨⟨count, reopened⟩, ?_⟩
  rw [holds, closed_iff _ (not_mem_of_printable printable rfl)]
  constructor
  · rintro ⟨other, _, survived⟩
    by_contra lost
    obtain ⟨further, nonempty⟩ := not_or.mp lost
    obtain ⟨block, begins⟩ := beginning.resolve_left nonempty
    cases more with
    | nil => exact further rfl
    | cons next rest =>
        exact iterBlocks_torn holds begins nonempty rejects _ survived.iter
  · rintro (rfl | rfl)
    · refine ⟨count, reopened, ?_⟩
      rw [List.append_nil]
      exact reopened
    · refine ⟨count, reopened, holds_of_iterBlocks ?_⟩
      have every : ∀ block ∈ blocks.take count ++ more, block ∈ blocks ++ more := by
        intro block inside
        rcases List.mem_append.mp inside with early | late
        · exact kept block early
        · exact List.mem_append_right _ late
      have extended : (more.foldl append disk).text =
          logText '\n' ((blocks.take count ++ more).map line) ++ [] := by
        rw [text_foldl_append, holds, List.map_append, logText_append, List.append_nil,
          List.append_nil]
      exact iterBlocks_of_text extended rfl (fun block inside => reads block (every block inside))
        fun block inside => built block (every block inside)

end BlockStore

end

/-! ## A block behind a torn line -/

namespace CrashSafetySample

open BlockStore RestartSample

attribute [local instance] Symbolic.reading

theorem sealed_first :
    succeeded (start.nextBlock (Symbolic.wallet 1) 1700000010 0) = true := by decide +kernel

/-- The first block of the sample node. -/
@[irreducible] def first : Block := outcome _ sealed_first

theorem built : ∀ block ∈ [first] ++ [first], block.postInit = block := by
  have nextBlock : start.nextBlock (Symbolic.wallet 1) 1700000010 0 = .ok first := by
    unfold first
    exact eq_ok_outcome _ sealed_first
  obtain ⟨block, made, sealedBy⟩ := sealBlock_spec start.tree.canonical.head.hash
    (start.tree.canonical.head.index + 1) (Symbolic.wallet 1) (start.mempool.select start.chain)
    1700000010 0 0
  obtain rfl := Except.ok.inj (made.symm.trans nextBlock)
  intro block inside
  simp only [List.singleton_append, List.mem_cons, List.not_mem_nil, or_false, or_self] at inside
  rw [inside, sealedBy.postInit_eq]

theorem reads : ∀ block ∈ [first] ++ [first], ReadsBack block :=
  fun block _ => Json.read_render _ (List.forall_mem_singleton.mpr rfl) (readable_encodeBlock block)

/-- The block was appended, its line lost all but a hundred bytes, and the block
is appended again. -/
def torn : BlockStore := (fresh.append first).truncate 100

theorem rejects :
    ((torn.append first).committedLines.all fun text =>
      Json.balanced text || (Primitives.jsonLoads text).isNone) = true := by decide +kernel

theorem unreadable : succeeded (torn.append first).iterBlocks = false := by decide +kernel

/-- The store is empty after the crash, and broken after the next append. -/
theorem crash_survives_iff_torn :
    (∃ count, torn.Holds ([first].take count)) ∧
      (torn.Survives [first] [first] ↔ [first] = [] ∨ Closed '\n' torn.text) := by
  refine crash_survives_iff rfl 100 built reads fun text inside unbalanced => ?_
  have tested := List.all_eq_true.mp rejects text inside
  rw [unbalanced, Bool.false_or, Option.isNone_iff_eq_none] at tested
  exact tested

/-- A block that is appended behind a torn line makes the store unreadable. -/
theorem append_behind_torn_line_corrupts :
    ¬∀ (fresh : BlockStore) (blocks more : List Block) (cut : Nat),
      fresh.blocks = none →
      (∀ block ∈ blocks ++ more, block.postInit = block) →
      (∀ block ∈ blocks ++ more, ReadsBack block) →
      ((blocks.foldl append fresh).truncate cut).Survives blocks more := by
  intro claim
  obtain ⟨_, _, held⟩ := claim fresh [first] [first] 100 rfl built reads
  have read : succeeded (torn.append first).iterBlocks = true :=
    (succeeded_iff _).mpr ⟨_, held.iter⟩
  rw [unreadable] at read
  cases read

end CrashSafetySample

end Mindees
