import Mathlib.Data.List.Infix
import Mathlib.Tactic.Common

/-!
# Logs of terminated records

An append-only log writes every record behind its predecessor and ends it with a
terminator.  A reader takes the terminated records and ignores what follows the
last terminator.  The text may be cut anywhere; a cut log is a log of the first
records and a torn one, and the next record that is written continues it.
-/

namespace Library

universe u

variable {α : Type u}

/-- The text of a log. -/
def logText (stop : α) (records : List (List α)) : List α :=
  records.flatMap fun record => record ++ [stop]

@[simp] theorem logText_nil (stop : α) : logText stop [] = [] := rfl

theorem logText_cons
    (stop : α)
    (record : List α)
    (records : List (List α)) :
    logText stop (record :: records) = record ++ stop :: logText stop records := by
  rw [logText, List.flatMap_cons, List.append_assoc, List.singleton_append, ← logText]

theorem logText_append
    (stop : α)
    (earlier later : List (List α)) :
    logText stop (earlier ++ later) = logText stop earlier ++ logText stop later :=
  List.flatMap_append

/-- The next record continues a torn one. -/
theorem logText_torn
    (stop : α)
    (earlier later : List (List α))
    (torn record : List α) :
    logText stop earlier ++ torn ++ logText stop (record :: later) =
      logText stop (earlier ++ (torn ++ record) :: later) := by
  simp only [logText_append, logText_cons, List.append_assoc]

section

variable [DecidableEq α]

/-- The terminated records of a text. -/
def records (stop : α) : List α → List (List α)
  | [] => []
  | symbol :: rest =>
      if symbol = stop then [] :: records stop rest
      else
        match records stop rest with
        | [] => []
        | record :: others => (symbol :: record) :: others

variable {stop : α}

/-- A record is read up to its terminator. -/
theorem records_append
    {record : List α}
    (inside : stop ∉ record)
    (rest : List α) :
    records stop (record ++ stop :: rest) = record :: records stop rest := by
  induction record with
  | nil => rw [List.nil_append, records, if_pos rfl]
  | cons symbol record inductionHypothesis =>
      rw [List.mem_cons, not_or] at inside
      obtain ⟨other, inside⟩ := inside
      rw [List.cons_append, records, if_neg (Ne.symm other), inductionHypothesis inside]

/-- Text without a terminator holds no record. -/
theorem records_eq_nil
    {torn : List α}
    (inside : stop ∉ torn) :
    records stop torn = [] := by
  induction torn with
  | nil => rfl
  | cons symbol torn inductionHypothesis =>
      rw [List.mem_cons, not_or] at inside
      obtain ⟨other, inside⟩ := inside
      rw [records, if_neg (Ne.symm other), inductionHypothesis inside]

/-- Reading a log gives its records back, and a torn record is ignored. -/
theorem records_logText
    {written : List (List α)}
    {torn : List α}
    (clean : ∀ record ∈ written, stop ∉ record)
    (inside : stop ∉ torn) :
    records stop (logText stop written ++ torn) = written := by
  induction written with
  | nil =>
      rw [logText_nil, List.nil_append]
      exact records_eq_nil inside
  | cons record written inductionHypothesis =>
      have here := clean record List.mem_cons_self
      have later := inductionHypothesis
        fun record inside => clean record (List.mem_cons_of_mem _ inside)
      rw [logText_cons, List.append_assoc, List.cons_append, records_append here, later]

end

/-- The text is empty or ends with a terminator. -/
def Closed (stop : α) (text : List α) : Prop := ∀ symbol ∈ text.getLast?, symbol = stop

/-- A log with a torn record behind it is closed only if nothing is torn. -/
theorem closed_iff
    {stop : α}
    {torn : List α}
    (written : List (List α))
    (inside : stop ∉ torn) :
    Closed stop (logText stop written ++ torn) ↔ torn = [] := by
  constructor
  · intro closed
    by_contra nonempty
    have last := List.getLast?_eq_getLast_of_ne_nil nonempty
    have final : (logText stop written ++ torn).getLast? = some (torn.getLast nonempty) := by
      rw [List.getLast?_append, last]
      rfl
    have same := closed _ final
    exact inside (same ▸ List.getLast_mem nonempty)
  · rintro rfl symbol last
    rw [List.append_nil] at last
    induction written using List.reverseRecOn with
    | nil => cases last
    | append_singleton written record _ =>
        rw [logText_append, logText_cons, logText_nil, ← List.append_assoc,
          List.getLast?_concat] at last
        exact (Option.some.inj last).symm

/-- A cut log is the log of the first records and a torn one, the beginning of
the record behind them. -/
theorem take_logText
    (stop : α)
    (written : List (List α))
    (cut : Nat) :
    ∃ count torn, (logText stop written).take cut = logText stop (written.take count) ++ torn ∧
      (torn = [] ∨ ∃ record, written[count]? = some record ∧ torn <+: record) := by
  induction written generalizing cut with
  | nil => exact ⟨0, [], by rw [logText_nil, List.take_nil]; rfl, .inl rfl⟩
  | cons record written inductionHypothesis =>
      rw [logText_cons]
      by_cases before : cut ≤ record.length
      · refine ⟨0, record.take cut, ?_, .inr ⟨record, rfl, List.take_prefix cut record⟩⟩
        rw [List.take_append_of_le_length before]
        rfl
      · obtain ⟨further, rfl⟩ : ∃ further, cut = record.length + (further + 1) :=
          ⟨cut - record.length - 1, by omega⟩
        obtain ⟨count, torn, split, beginning⟩ := inductionHypothesis further
        refine ⟨count + 1, torn, ?_, ?_⟩
        · rw [List.take_length_add_append, List.take_succ_cons, split, List.take_succ_cons,
            logText_cons, List.append_assoc, List.cons_append]
        · rw [List.getElem?_cons_succ]
          exact beginning

end Library
