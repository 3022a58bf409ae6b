import ExactInference.Fault

/-!
# What an inference run reports

Building a tree, passing messages and answering a query report what they do, step by step. The
events are data; a journal decides what it keeps and how it is written down. A `Traced`
computation carries its events beside its answer, so that a failing one still shows what came
before the failure.
-/

namespace ExactInference

/-- One reported step. -/
inductive Event where
  /-- A clique closed its component; the elimination goes on with another one. -/
  | closing (clique next : Nat)
  /-- A tree was built, with its edges in the order of their discovery and its schedule. -/
  | treeBuilt (edges : List (Nat × Nat)) (order : List Nat)
  /-- A message is about to be computed. -/
  | passing (start stop : Int)
  /-- All messages were passed and left these roots. -/
  | finished (roots : List Int)
  /-- A timer was started. -/
  | timerStarted (name : String)
  /-- A timer was stopped. -/
  | timerStopped (name : String)
  /-- A count was taken. -/
  | counted (name : String) (value : Nat)
deriving DecidableEq, Repr

/-- Who reports an event. -/
inductive Reporter where
  /-- The building of clique trees. -/
  | building
  /-- The passing of messages. -/
  | passing
  /-- Timers and statistics. -/
  | journal
deriving DecidableEq, Repr

namespace Event

/-- Who reports the event. -/
def reporter : Event → Reporter
  | closing .. | treeBuilt .. => .building
  | passing .. | finished _ => .passing
  | timerStarted _ | timerStopped _ | counted .. => .journal

/-- The line of an event that building and passing report; timers and statistics have none. -/
def line? : Event → Option String
  | closing f next => some s!"Clique {f} closes its component (next: {next})"
  | treeBuilt edges order =>
    some ("Clique tree edges " ++ Text.links (edges.map fun e => ((e.1 : Int), (e.2 : Int)))
      ++ ", elimination order " ++ Text.integers (order.map Int.ofNat))
  | passing a b => some s!"pass: {a} -> {b}"
  | finished roots => some ("Message passing finished; roots " ++ Text.integers roots)
  | timerStarted _ | timerStopped _ | counted .. => none

end Event

/-- A computation that may fail, with everything that it reported on the way. -/
structure Traced (α : Type) where
  /-- The events in the order in which they happened. -/
  events : List Event
  /-- The answer, or why there is none. -/
  answer : Except Fault α

namespace Traced

variable {α β : Type}

/-- Answer without an event. -/
def ofExcept (x : Except Fault α) : Traced α := ⟨[], x⟩

/-- Report an event. -/
def report (e : Event) : Traced Unit := ⟨[e], .ok ()⟩

/-- Report events. -/
def reportAll (es : List Event) : Traced Unit := ⟨es, .ok ()⟩

/-- Go on after an answer; after a failure nothing more happens. -/
def andThen (x : Traced α) (f : α → Traced β) : Traced β :=
  match x.answer with
  | .ok a => ⟨x.events ++ (f a).events, (f a).answer⟩
  | .error fault => ⟨x.events, .error fault⟩

instance : Monad Traced where
  pure a := ⟨[], .ok a⟩
  bind := andThen

instance : MonadLift (Except Fault) Traced where
  monadLift := ofExcept

@[simp] theorem answer_pure (a : α) : (pure a : Traced α).answer = .ok a := rfl

@[simp] theorem answer_ofExcept (x : Except Fault α) : (ofExcept x).answer = x := rfl

@[simp] theorem answer_report (e : Event) : (report e).answer = .ok () := rfl

@[simp] theorem answer_reportAll (es : List Event) : (reportAll es).answer = .ok () := rfl

/-- The answer of a sequence only depends on the answers of its parts. -/
@[simp] theorem answer_bind (x : Traced α) (f : α → Traced β) :
    (x >>= f).answer = x.answer >>= fun a => (f a).answer := by
  change (andThen x f).answer = _
  unfold andThen
  cases x.answer <;> rfl

end Traced

end ExactInference
