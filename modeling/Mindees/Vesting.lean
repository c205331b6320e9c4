import Mathlib.Algebra.Order.Ring.Int
import Mathlib.Tactic.Linarith

/-!
# Vesting schedules

Linear release with a cliff, as a pure function of the schedule and the height.
-/

namespace Mindees

/-- A grant: an amount in base units and a schedule in block heights. -/
structure Grant where
  total : Int
  start : Int
  cliff : Int
  duration : Int
  deriving DecidableEq

/-- Base units released by a height. -/
def vested (total start cliff duration height : Int) : Int :=
  if duration ≤ 0 then total
  else if height < start + cliff then 0
  else if start + duration ≤ height then total
  else total * (height - start) / duration

/-- Base units still locked at a height. -/
def locked (total start cliff duration height : Int) : Int :=
  total - vested total start cliff duration height

/-- The locked part of a grant. -/
def Grant.lockedAt (grant : Grant) (height : Int) : Int :=
  locked grant.total grant.start grant.cliff grant.duration height

/-! ## Release -/

section

variable {total start cliff duration height before after : Int}

/-- The linear part of a schedule is between nothing and the total. -/
theorem linear_bounds
    (totalNonneg : 0 ≤ total)
    (durationPositive : 0 < duration)
    (started : start ≤ height)
    (running : height < start + duration) :
    0 ≤ total * (height - start) / duration ∧ total * (height - start) / duration ≤ total := by
  have elapsed : 0 ≤ height - start := by omega
  have unfinished : height - start ≤ duration := by omega
  constructor
  · exact Int.ediv_nonneg (mul_nonneg totalNonneg elapsed) durationPositive.le
  · apply Int.ediv_le_of_le_mul durationPositive
    exact mul_le_mul_of_nonneg_left unfinished totalNonneg

theorem vested_bounds
    (totalNonneg : 0 ≤ total)
    (cliffNonneg : 0 ≤ cliff) :
    0 ≤ vested total start cliff duration height ∧
      vested total start cliff duration height ≤ total := by
  rw [vested]
  split_ifs with instant early ended
  · exact ⟨totalNonneg, le_rfl⟩
  · exact ⟨le_rfl, totalNonneg⟩
  · exact ⟨totalNonneg, le_rfl⟩
  · apply linear_bounds totalNonneg <;> omega

/-- Nothing is taken back. -/
theorem vested_mono
    (totalNonneg : 0 ≤ total)
    (cliffNonneg : 0 ≤ cliff)
    (later : before ≤ after) :
    vested total start cliff duration before ≤ vested total start cliff duration after := by
  have lower : 0 ≤ vested total start cliff duration after :=
    (vested_bounds totalNonneg cliffNonneg).1
  have upper : vested total start cliff duration before ≤ total :=
    (vested_bounds totalNonneg cliffNonneg).2
  by_cases early : before < start + cliff
  · by_cases instant : duration ≤ 0
    · rw [vested, vested, if_pos instant, if_pos instant]
    · rwa [vested, if_neg instant, if_pos early]
  by_cases ended : start + duration ≤ after
  · have full : vested total start cliff duration after = total := by
      rw [vested, if_neg (show ¬ after < start + cliff by omega), if_pos ended, ite_self]
    rwa [full]
  · -- both heights are on the linear part
    have running : ¬ duration ≤ 0 := by omega
    rw [vested, vested, if_neg running, if_neg running, if_neg early,
      if_neg (show ¬ start + duration ≤ before by omega),
      if_neg (show ¬ after < start + cliff by omega), if_neg ended]
    apply Int.ediv_le_ediv (not_le.mp running)
    apply mul_le_mul_of_nonneg_left _ totalNonneg
    omega

/-- What a schedule of release has to do. -/
structure SoundRelease (total start cliff duration : Int) : Prop where
  released : ∀ before after, before ≤ after →
    0 ≤ vested total start cliff duration before ∧
      vested total start cliff duration before ≤ vested total start cliff duration after ∧
      vested total start cliff duration after ≤ total
  before_cliff : ∀ height, height < start + cliff →
    vested total start cliff duration height = 0
  at_end : ∀ height, start + max cliff duration ≤ height →
    vested total start cliff duration height = total
  /-- Rounding never releases early. -/
  not_early : ∀ height, start + cliff ≤ height → height < start + duration →
    vested total start cliff duration height * duration ≤ total * (height - start)
  retained : ∀ before after, before ≤ after →
    0 ≤ locked total start cliff duration after ∧
      locked total start cliff duration after ≤ locked total start cliff duration before

/-- Every grant releases soundly, also when its cliff is beyond its duration. -/
theorem vested_sound
    (total start cliff duration : Int)
    (totalNonneg : 0 ≤ total)
    (cliffNonneg : 0 ≤ cliff)
    (durationPositive : 0 < duration) :
    SoundRelease total start cliff duration where
  released before after later :=
    ⟨(vested_bounds totalNonneg cliffNonneg).1, vested_mono totalNonneg cliffNonneg later,
      (vested_bounds totalNonneg cliffNonneg).2⟩
  before_cliff height early := by
    rw [vested, if_neg durationPositive.not_ge, if_pos early]
  at_end height ended := by
    have cliffPassed : cliff ≤ max cliff duration := le_max_left _ _
    have durationPassed : duration ≤ max cliff duration := le_max_right _ _
    rw [vested, if_neg durationPositive.not_ge, if_neg (by omega), if_pos (by omega)]
  not_early height cliffPassed running := by
    rw [vested, if_neg durationPositive.not_ge, if_neg cliffPassed.not_gt, if_neg running.not_ge]
    exact Int.ediv_mul_le _ durationPositive.ne'
  retained before after later := by
    have bounded : vested total start cliff duration after ≤ total :=
      (vested_bounds totalNonneg cliffNonneg).2
    have released : vested total start cliff duration before ≤
        vested total start cliff duration after := vested_mono totalNonneg cliffNonneg later
    rw [locked, locked]
    omega

/-- A cliff of five beyond a duration of four. -/
theorem vested_sound_late_cliff : SoundRelease 250000 3 5 4 :=
  vested_sound 250000 3 5 4 (by decide) (by decide) (by decide)

end

/-! ## Schedules -/

/-- The four numbers of a grant that the constructor accepts. -/
structure Grant.Valid (grant : Grant) : Prop where
  total : 0 ≤ grant.total
  start : 0 ≤ grant.start
  cliff : 0 ≤ grant.cliff
  duration : 0 ≤ grant.duration

namespace Grant

variable {grant : Grant}

/-- The locked part of a grant does not grow with the height. -/
theorem Valid.lockedAt_antitone
    (valid : grant.Valid)
    {before after : Int}
    (later : before ≤ after) :
    grant.lockedAt after ≤ grant.lockedAt before :=
  Int.sub_le_sub_left (vested_mono valid.total valid.cliff later) grant.total

/-- What is locked is at most the total. -/
theorem Valid.lockedAt_le_total
    (valid : grant.Valid)
    (height : Int) :
    grant.lockedAt height ≤ grant.total :=
  Int.sub_le_self grant.total (vested_bounds valid.total valid.cliff).1

end Grant

end Mindees
