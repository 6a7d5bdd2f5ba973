import Gavl.Consensus.Anchor
import Gavl.Lib.ParentWalk

/-!
# Difficulty retargeting

The difficulty an anchor must commit to is a function of the chain it extends: held within an
epoch, recomputed at an epoch boundary over a window of the most recent ancestors.
-/

namespace Gavl

/-- Tuning of the deterministic schedule. -/
structure RetargetSchedule where
  base : ℕ
  targetIters : ℕ
  /-- Recompute every `epoch` anchors. -/
  epoch : ℕ
  /-- Anchors averaged at each recompute. -/
  window : ℕ
  maxStep : Option ℕ

/-- Clamp to `[current / maxStep, current · maxStep]`, never below one. -/
def clampStep (current next maxStep : ℕ) : ℕ :=
  let lo := current / maxStep
  let hi := current * maxStep
  if next < lo then (if lo < 1 then 1 else lo)
  else if hi < next then hi
  else if next < 1 then 1 else next

/-- New difficulty from a window of recent anchors. -/
def retarget (current : ℕ) (window : List Anchor) (targetIters : ℕ) (maxStep : Option ℕ) : ℕ :=
  let maxStep := maxStep.getD 4
  if window.length = 0 then current
  else
    let totalIters := (window.map (·.time.iters)).sum
    let observed := totalIters / window.length
    if observed = 0 then clampStep current (current * maxStep) maxStep
    else clampStep current (current * targetIters / observed) maxStep

/-- Difficulty of the anchor that extends `prev`; `parent` steps to the predecessor held. -/
def nextDifficulty (parent : Anchor → Option Anchor) (sched : RetargetSchedule) :
    Option Anchor → ℕ
  | none => sched.base
  | some prev =>
    if (prev.height + 1) % sched.epoch ≠ 0 then prev.difficulty
    else retarget prev.difficulty (ParentWalk.walk parent sched.window prev) sched.targetIters
      sched.maxStep

end Gavl
