import PagedIndex.Error
import PagedIndex.Halt

/-!
# Gates

A gate stands in front of a pager and lets calls through or refuses them, following a schedule for
each kind of call. A refused call does not reach the pager, and fails with the reason that the schedule
has for it. Every finite pattern of refusals is the start of a schedule, whatever the reasons.
-/

namespace PagedIndex

/-- What becomes of a call. -/
inductive Verdict where
  | granted
  | refused (reason : Nat)
deriving DecidableEq, Repr

/-- What becomes of the coming calls: runs of calls with the same verdict, and the verdict on every call
after them. -/
structure Schedule where
  runs : List (Nat × Verdict)
  after : Verdict
deriving DecidableEq, Repr

namespace Schedule

/-- Every call goes through. -/
def always : Schedule := ⟨[], .granted⟩

/-- The first `n` calls go through and no other. -/
def quota (n : Nat) : Schedule := ⟨[(n, .granted)], .refused 0⟩

/-- The verdict on the next call, and the runs after it. -/
def nextRun (after : Verdict) : List (Nat × Verdict) → Verdict × List (Nat × Verdict)
  | [] => (after, [])
  | (0, _) :: rest => nextRun after rest
  | (n + 1, verdict) :: rest => (verdict, (n, verdict) :: rest)

/-- The verdict on the next call, and the schedule after it. -/
def next (schedule : Schedule) : Verdict × Schedule :=
  let (verdict, runs) := nextRun schedule.after schedule.runs
  (verdict, { schedule with runs })

/-- How many calls the runs cover. -/
def length (schedule : Schedule) : Nat := schedule.runs.foldl (fun calls run => calls + run.1) 0

end Schedule

/-- A schedule for each kind of call. -/
structure Gate where
  resolve : Schedule
  create : Schedule
  release : Schedule
  flush : Schedule
  clear : Schedule
deriving DecidableEq, Repr

namespace Gate

/-- A gate that refuses nothing. -/
def wide : Gate := ⟨.always, .always, .always, .always, .always⟩

/-- The schedule for a kind of call. -/
def schedule (gate : Gate) : Call → Schedule
  | .resolve => gate.resolve
  | .create => gate.create
  | .release => gate.release
  | .flush => gate.flush
  | .clear => gate.clear

/-- Another schedule for a kind of call. -/
def setSchedule (gate : Gate) (call : Call) (schedule : Schedule) : Gate :=
  match call with
  | .resolve => { gate with resolve := schedule }
  | .create => { gate with create := schedule }
  | .release => { gate with release := schedule }
  | .flush => { gate with flush := schedule }
  | .clear => { gate with clear := schedule }

/-- Lets a call through or refuses it. -/
def pass (call : Call) : Action IndexError Gate Unit := do
  let gate ← get
  let (verdict, schedule) := (gate.schedule call).next
  -- a call that is refused uses up its place in the schedule as well
  set (gate.setSchedule call schedule)
  match verdict with
  | .granted => return ()
  | .refused reason => Action.fail (.io (.callRefused call reason))

end Gate

end PagedIndex
