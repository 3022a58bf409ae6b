import ExactInference.Arrange
import ExactInference.Event
import ExactInference.OrderedMap

/-!
# Journals

A journal keeps timers and statistics. A silent one keeps nothing. A reporting one counts how
often each timer was stopped and writes every so manieth value of each statistic as an entry; with
a level that is not above zero it counts all the same and writes nothing. Elapsed times differ from
run to run and are not kept: a summary shows that a timer has a time, and how often it was stopped.
-/

namespace ExactInference

/-- A written line. -/
structure Entry where
  /-- The level of importance. -/
  level : Int
  /-- The line. -/
  line : String
deriving DecidableEq, Repr

/-- How a journal keeps what it is told. -/
inductive JournalKind where
  /-- Not at all. -/
  | silent
  /-- One of every `interval` values of a statistic is written, with a level. -/
  | reporting (interval : Nat) (level : Int)
deriving DecidableEq, Repr

/-- Timers and statistics. -/
structure Journal where
  /-- How the journal keeps what it is told. -/
  kind : JournalKind
  /-- The running timers. -/
  running : List String
  /-- How often each timer was stopped. -/
  stops : OrderedMap String Nat
  /-- How many values of each statistic have arrived. -/
  arrivals : OrderedMap String Nat

namespace Journal

/-- A journal that keeps nothing. -/
def silent : Journal := ⟨.silent, [], OrderedMap.empty, OrderedMap.empty⟩

/-- A journal that writes one of every `interval` values with a level. -/
def reporting (interval level : Int) : Except Fault Journal :=
  if interval < 1 then .error (.badInterval interval)
  else .ok ⟨.reporting interval.toNat level, [], OrderedMap.empty, OrderedMap.empty⟩

/-- Whether the journal keeps nothing. -/
def isSilent (j : Journal) : Bool := j.kind = .silent

/-- Start a timer, again if it runs. -/
def start (j : Journal) (name : String) : Journal :=
  if j.isSilent || j.running.contains name then j else { j with running := j.running ++ [name] }

/-- How often a timer was stopped. -/
def stopsOf (j : Journal) (name : String) : Nat := (j.stops.get? name).getD 0

/-- Stop a running timer. -/
def stop (j : Journal) (name : String) : Except Fault Journal :=
  if j.isSilent then .ok j
  else if j.running.contains name then
    .ok { j with
      running := j.running.filter (· ≠ name)
      stops := j.stops.insert name (j.stopsOf name + 1) }
  else .error (.timerNotStarted name)

/-- The timers that were stopped, in ascending order. -/
def timers (j : Journal) : List String := alphabetical j.stops.keys

/-- The entries of some lines at a level. A level that is not above zero is never written. -/
def entriesAt (level : Int) (lines : List String) : List Entry :=
  if 0 < level then lines.map fun line => ⟨level, line⟩ else []

/-- Take a value of a statistic, and write it if it is its turn. -/
def take (j : Journal) (name value : String) : Journal × List Entry :=
  match j.kind with
  | .silent => (j, [])
  | .reporting interval level =>
    let n := (j.arrivals.get? name).getD 0
    ({ j with arrivals := j.arrivals.insert name (n + 1) },
      if n % interval = 0 then entriesAt level [name ++ "=" ++ value] else [])

/-- The summary of all timers; times are not shown. -/
def summary (j : Journal) : List Entry :=
  match j.kind with
  | .silent => []
  | .reporting _ level =>
    entriesAt level ("Elapsed time statistics:" :: j.timers.map fun name =>
      name ++ ": <ms> (<ms> * " ++ toString (j.stopsOf name) ++ ")")

/-- Keep an event of a run. Runs stop only timers that they have started. -/
def keep (j : Journal) : Event → Journal × List Entry
  | .timerStarted name => (j.start name, [])
  | .timerStopped name =>
    match j.stop name with
    | .ok j => (j, [])
    | .error _ => (j, [])
  | .counted name value => j.take name (toString value)
  | _ => (j, [])

end Journal

end ExactInference
