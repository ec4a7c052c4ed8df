import PackedDrawing.Graph.Drawing
/-!
# Events and the journal of a run

A layout announces when it starts, when it has finished a component and when it ends. Whoever
listens to an event has it written into the journal, where calls of traced procedures and warnings
are kept as well, in the order in which they happen.

## Main definitions

* `EventKind`, `Event`: what is announced.
* `Listeners`: who listens to which kind of event.
* `Journal`: what was written, and how many calls a procedure has had so far.
-/

namespace PackedDrawing

/-- The moments that a layout announces. -/
inductive EventKind where
  | start
  | tick
  | finish
  deriving DecidableEq, Repr

namespace EventKind

/-- The name of an event. -/
def name : EventKind → String
  | start => "start"
  | tick => "tick"
  | finish => "end"

/-- The number of an event. -/
def number : EventKind → Int
  | start => 0
  | tick => 1
  | finish => 2

/-- All kinds of events. -/
def all : List EventKind := [start, tick, finish]

/-- The event with a name. -/
def named? (s : String) : Option EventKind := all.find? (·.name == s)

/-- The event whose number a value is. -/
def numbered? {α : Type} [Scalar α] (v : Value α) : Option EventKind :=
  match v.number with
  | .ok x => all.find? fun k => x.eq (.int k.number)
  | .error _ => none

theorem named?_name (k : EventKind) : named? k.name = some k := by
  cases k <;> decide

end EventKind

/-- An announcement: its kind, how much is left to do, and the component it is about. -/
structure Event (α : Type) where
  kind : EventKind
  alpha : Option (Value α) := none
  component : Option (Value α) := none

/-- Who listens to a kind of event: nobody, or a listener that may be known by a tag. -/
structure Listeners (α : Type) where
  entries : List (EventKind × Option (Value α)) := []
  deriving Inhabited

namespace Listeners

variable {α : Type}

/-- Lets one listener, and no other, listen to a kind of event. -/
def subscribe (l : Listeners α) (k : EventKind) (tag : Option (Value α)) : Listeners α :=
  ⟨(k, tag) :: l.entries⟩

/-- The listener to a kind of event. -/
def get? (l : Listeners α) (k : EventKind) : Option (Option (Value α)) := l.entries.lookup k

/-- Lets a listener listen to the event that a value means: its name, or its number. A value that
means no event is accepted, except for a text that is no name, and for lists and tables. -/
def listen [Scalar α] (l : Listeners α) (event : Value α) (tag : Option (Value α)) :
    Except Fault (Listeners α) :=
  match event with
  | .text s =>
    match EventKind.named? s with
    | some k => .ok (l.subscribe k tag)
    | none => .error .missingKey
  | .list _ | .table _ => .error .typeMismatch
  | v =>
    match EventKind.numbered? v with
    | some k => .ok (l.subscribe k tag)
    | none => .ok l

end Listeners

/-- What a journal records: an event that somebody listened to, or a call of a traced procedure with
the drawing it was given. -/
inductive JournalEntry (α : Type) where
  | event (e : Event α) (tag : Option (Value α))
  | call (number : Nat) (drawing : Drawing α)

/-- A run that could not do what it was asked for. -/
inductive Warning where
  /-- There is nothing that could lay out the components. -/
  | noSecondary
  deriving DecidableEq, Repr

/-- The wording of a warning. -/
def Warning.text : Warning → String
  | noSecondary =>
    "ComponentSplitterLayout has no secondary layout; the drawing is left unchanged."

/-- What was written down during runs. -/
structure Journal (α : Type) where
  entries : List (JournalEntry α) := []
  warnings : List Warning := []
  calls : Nat := 0

namespace Journal

variable {α : Type}

/-- Writes an entry at the end. -/
def write (e : JournalEntry α) (j : Journal α) : Journal α := { j with entries := j.entries ++ [e] }

/-- Writes an event down if somebody listens to it. -/
def announce (l : Listeners α) (e : Event α) (j : Journal α) : Journal α :=
  match l.get? e.kind with
  | some tag => j.write (.event e tag)
  | none => j

/-- Notes a warning. -/
def warn (w : Warning) (j : Journal α) : Journal α := { j with warnings := j.warnings ++ [w] }

/-- The same journal with nothing written in it. -/
def cleared (j : Journal α) : Journal α := { j with entries := [], warnings := [] }

end Journal

end PackedDrawing
