import Mindees.Library.Casper
import Mindees.Consensus.Effects

/-!
# When two votes prove a fault

Two valid votes of one validator prove a fault exactly when their links are
links that no validator may vote for together.
-/

namespace Mindees

open Library

/-- The link between two checkpoints that a vote is about. -/
def Link.abstract (link : Link) : Casper.Link Str where
  source := link.source
  sourceHeight := link.sourceHeight
  target := link.target
  targetHeight := link.targetHeight

/-- The fields of a link as JSON. -/
def Link.raw (link : Link) : RawLink where
  s := .str link.source
  sh := .int link.sourceHeight
  t := .str link.target
  th := .int link.targetHeight

theorem rawLink_eq_ok
    (what : String)
    (fields : List (Str × Json))
    (raw : RawLink) :
    rawLink what fields = .ok raw ↔
      Json.field fields Key.s = some raw.s ∧ Json.field fields Key.sh = some raw.sh ∧
      Json.field fields Key.t = some raw.t ∧ Json.field fields Key.th = some raw.th := by
  obtain ⟨s, sh, t, th⟩ := raw
  simp only [rawLink, bind_eq_ok, require_eq_ok, pure_eq_ok, RawLink.mk.injEq]
  constructor
  · rintro ⟨_, source, _, sourceHeight, _, target, _, targetHeight, rfl, rfl, rfl, rfl⟩
    exact ⟨source, sourceHeight, target, targetHeight⟩
  · rintro ⟨source, sourceHeight, target, targetHeight⟩
    exact ⟨s, source, sh, sourceHeight, t, target, th, targetHeight, rfl, rfl, rfl, rfl⟩

/-- Comparing the heights of two links. -/
theorem surrounds_raw (outer inner : Link) :
    surrounds outer.raw inner.raw = .ok (decide (outer.abstract.Surrounds inner.abstract)) := by
  have below : ∀ left right : Int,
      jsonLt (.int left) (.int right) = .ok (decide (left < right)) := by
    intro left right
    simp [jsonLt, Json.lt, Json.number, Json.numberLt, require]
  simp only [surrounds, Link.raw, below, Casper.Link.Surrounds, Link.abstract]
  by_cases early : outer.sourceHeight < inner.sourceHeight <;> simp [early]

theorem isSurroundVote_raw (left right : Link) :
    isSurroundVote left.raw right.raw =
      .ok (decide (left.abstract.Surrounds right.abstract ∨
        right.abstract.Surrounds left.abstract)) := by
  simp only [isSurroundVote, surrounds_raw]
  by_cases outer : left.abstract.Surrounds right.abstract <;> simp [outer]

theorem isDoubleVote_raw (left right : Link) :
    isDoubleVote left.raw right.raw = decide (left.abstract.Double right.abstract) := by
  rw [Bool.eq_iff_iff, decide_eq_true_eq]
  simp only [isDoubleVote, Link.raw, Json.eq, Casper.Link.Double, Link.abstract,
    Bool.and_eq_true, Bool.or_eq_true, Bool.not_eq_true', decide_eq_true_eq,
    decide_eq_false_iff_not, ne_eq]
  tauto

section

variable [Primitives]

/-- An accepted link reads the same wherever its evidence is parsed. -/
theorem rawLink_of_voteLink
    {evidence : Str}
    {link : Link}
    (parsed : voteLink evidence = .ok link)
    (what : String) :
    ∃ fields, loadJson evidence = .ok fields ∧ rawLink what fields = .ok link.raw := by
  simp only [voteLink, bind_eq_ok] at parsed
  obtain ⟨fields, loaded, raw, read, typed⟩ := parsed
  refine ⟨fields, loaded, ?_⟩
  rw [rawLink_eq_ok] at read ⊢
  split at typed
  · simp only [rejectIf, bind_eq_ok, raiseIf_eq_ok, pure_eq_ok, exists_unit] at typed
    obtain ⟨_, rfl⟩ := typed
    exact read
  · cases typed

/-- Two votes with readable links prove a fault exactly when they are valid
votes of one sender whose links conflict. -/
theorem verifyVoteFault_iff
    {txA txB : Transaction}
    {left right : Link}
    (parsedA : voteLink txA.evidence = .ok left)
    (parsedB : voteLink txB.evidence = .ok right)
    (offender : Str) :
    (∃ offenseId, verifyVoteFault txA txB = .ok (offender, offenseId)) ↔
      txA.isValid = true ∧ txB.isValid = true ∧
      txA.recipient = VOTE_SENTINEL ∧ txB.recipient = VOTE_SENTINEL ∧
      txA.sender = offender ∧ txB.sender = offender ∧
      left.abstract.Conflicts right.abstract := by
  obtain ⟨fieldsA, loadedA, readA⟩ := rawLink_of_voteLink parsedA "vote-fault: link"
  obtain ⟨fieldsB, loadedB, readB⟩ := rawLink_of_voteLink parsedB "vote-fault: link"
  simp only [verifyVoteFault, rejectIf, bind_eq_ok, raiseIf_eq_ok, pure_eq_ok, exists_unit,
    loadedA, loadedB, readA, readB, Except.ok.injEq, exists_eq_left', isSurroundVote_raw,
    isDoubleVote_raw, Prod.mk.injEq, Casper.Link.Conflicts, not_or, not_and, not_not,
    Bool.not_eq_false, ne_eq, decide_eq_false_iff_not]
  constructor
  · rintro ⟨_, ⟨validA, validB⟩, ⟨namedA, namedB⟩, same, fault, sender, _⟩
    refine ⟨validA, validB, namedA, namedB, sender, same ▸ sender, ?_⟩
    by_cases double : left.abstract.Double right.abstract
    · exact .inl double
    · exact .inr (of_decide_eq_true (fault double))
  · rintro ⟨validA, validB, namedA, namedB, senderA, senderB, fault⟩
    refine ⟨_, ⟨validA, validB⟩, ⟨namedA, namedB⟩, senderA.trans senderB.symm, ?_, senderA, rfl⟩
    intro notDouble
    exact decide_eq_true (fault.resolve_left notDouble)

end

end Mindees
