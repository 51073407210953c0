import PhraseStructure.Grammar

/-!
# The journal

Operations leave notes on what happened: a grammar was constructed, a search gave up, a file was
written.  What can happen is an `Event`, whose wording is fixed in `Event.message`.  A `Journal` keeps
the most recent messages, each stamped with the time at which it was recorded.

## Main definitions

* `Event`, `Event.message`: what can happen, and how it is told.
* `Stamp`: a day and a time of day.
* `Journal.record`, `Journal.recent`: writing one message, reading the last few.

## Main results

* `Journal.length_entries_record_le`: a journal never outgrows its capacity.
-/

namespace PhraseStructure

/-- Something worth a note. -/
inductive Event where
  /-- A grammar with some number of productions was constructed. -/
  | constructed (productions : Nat) (level : Level)
  /-- An input has a symbol that is no terminal. -/
  | strayInput (symbol : Symbol)
  /-- The walk of a regular grammar reached its ceiling. -/
  | walkGaveUp (steps : Nat)
  /-- A chart reached its ceiling. -/
  | chartExceeded (steps : Nat)
  /-- The search over sentential forms reached its ceiling with forms still waiting. -/
  | searchGaveUp (steps waiting : Nat)
  /-- The enumeration of words reached its ceiling before it had all words asked for. -/
  | enumerationStopped (steps words wanted : Nat)
  /-- The enumeration of words ran out of forms. -/
  | enumerationExhausted (words : Nat)
  /-- A stored level differs from the level of the grammar. -/
  | levelDisagrees (stored : Nat) (computed : Level)
  /-- A grammar was written to a file. -/
  | saved (path : String)
  /-- A grammar was read from a file. -/
  | loaded (path : String)
  /-- Anything else. -/
  | remark (text : String)
deriving DecidableEq, Repr

/-- How an event is told. -/
def Event.message : Event → String
  | .constructed n level => s!"constructed grammar with {n} productions: " ++ level.text
  | .strayInput c => "input contains `" ++ c.toString ++ "`, which is not a terminal"
  | .walkGaveUp steps => s!"regular search gave up after {steps} steps"
  | .chartExceeded steps => s!"earley chart exceeded {steps} steps, input rejected"
  | .searchGaveUp steps waiting =>
    s!"rewrite search gave up after {steps} steps with {waiting} forms queued"
  | .enumerationStopped steps words wanted =>
    s!"enumeration stopped after {steps} iterations with {words} of {wanted} words"
  | .enumerationExhausted words => s!"enumeration exhausted the language with {words} words"
  | .levelDisagrees stored level =>
    s!"stored type {stored} disagrees with computed " ++ level.text ++ ", using computed"
  | .saved path => "saved grammar to " ++ path
  | .loaded path => "loaded grammar from " ++ path
  | .remark text => text

/-- The event that a grammar was constructed. -/
def Grammar.constructed (g : Grammar) : Event :=
  .constructed g.productions.length g.level

/-- A day of the year and a time of day. -/
structure Stamp where
  /-- Day of the month. -/
  day : Nat := 0
  /-- Month of the year. -/
  month : Nat := 0
  /-- Hour of the day. -/
  hour : Nat := 0
  /-- Minute of the hour. -/
  minute : Nat := 0
  /-- Second of the minute. -/
  second : Nat := 0
deriving DecidableEq, Repr

/-- A number with at least two digits. -/
def twoDigits (n : Nat) : String :=
  if n < 10 then s!"0{n}" else s!"{n}"

/-- A stamp as it stands before a message. -/
def Stamp.text (s : Stamp) : String :=
  "[" ++ twoDigits s.day ++ "." ++ twoDigits s.month ++ " " ++ twoDigits s.hour ++ ":" ++
    twoDigits s.minute ++ ":" ++ twoDigits s.second ++ "]"

/-- The most recent messages, oldest first. -/
structure Journal where
  /-- Stamped messages, oldest first. -/
  entries : List String := []
deriving DecidableEq, Repr

namespace Journal

/-- How many messages a journal keeps. -/
def capacity : Nat := 128

/-- The last `n` messages, oldest first. -/
def recent (j : Journal) (n : Nat) : List String :=
  j.entries.drop (j.entries.length - n)

/-- The journal with one more message; past its capacity the oldest one is forgotten. -/
def record (j : Journal) (stamp : Stamp) (event : Event) : Journal where
  entries := recent ⟨j.entries ++ [stamp.text ++ " " ++ event.message]⟩ capacity

/-- The journal with several more messages of the same time. -/
def recordAll (j : Journal) (stamp : Stamp) (events : List Event) : Journal :=
  events.foldl (fun j event => j.record stamp event) j

/-- A journal never outgrows its capacity. -/
theorem length_entries_record_le (j : Journal) (stamp : Stamp) (event : Event) :
    (j.record stamp event).entries.length ≤ capacity := by
  simp only [record, recent, List.length_drop]
  omega

end Journal

end PhraseStructure
