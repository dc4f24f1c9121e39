import HeaderBindings.Model.ClassSet
import HeaderBindings.Event

/-!
What reading one header yields, step by step: classes to insert and warnings to record, between
notes on the reader's progress. A class set takes findings in order, one by one while a header is
read or all of them behind it.
-/

namespace HeaderBindings

inductive Finding where
  | declared (decl : ClassDecl)
  | warned (diagnostic : Diagnostic)
  | noted (event : Event)
  deriving DecidableEq, Repr

namespace Diagnostic

def event (diagnostic : Diagnostic) : Event :=
  { level := .warn
    message := diagnostic.text
    fields := match diagnostic.help with
      | some help => [("help".toList, .plain help)]
      | none => [] }

end Diagnostic

namespace ClassSet

def record (set : ClassSet) : Finding → ClassSet
  | .declared decl => set.insert decl
  | .warned diagnostic => set.warn diagnostic
  | .noted _ => set

def recordAll (set : ClassSet) (findings : List Finding) : ClassSet := findings.foldl record set

/-- What recording a finding reports. -/
def eventsOf (set : ClassSet) : Finding → List Event
  | .declared decl =>
    if set.contains decl.name then
      [{ level := .debug
         message := "merging repeated interface".toList
         fields := [("class".toList, .plain decl.name)] }]
    else []
  | .warned diagnostic => [diagnostic.event]
  | .noted event => [event]

def eventsOfAll (set : ClassSet) : List Finding → List Event
  | [] => []
  | finding :: later => set.eventsOf finding ++ (set.record finding).eventsOfAll later

end ClassSet

/-- A class set that is at hand while a header is read, with what has been reported so far. -/
structure ClassLog where
  classes : ClassSet
  events : List Event := []
  deriving DecidableEq, Repr

namespace ClassLog

def take (log : ClassLog) (finding : Finding) : ClassLog :=
  { classes := log.classes.record finding
    events := log.events ++ log.classes.eventsOf finding }

def takeAll (log : ClassLog) (findings : List Finding) : ClassLog := findings.foldl take log

theorem takeAll_append (log : ClassLog) (first later : List Finding) :
    log.takeAll (first ++ later) = (log.takeAll first).takeAll later :=
  List.foldl_append

theorem takeAll_eq (log : ClassLog) (findings : List Finding) :
    log.takeAll findings =
      ⟨log.classes.recordAll findings, log.events ++ log.classes.eventsOfAll findings⟩ := by
  induction findings generalizing log with
  | nil => simp [takeAll, ClassSet.recordAll, ClassSet.eventsOfAll]
  | cons finding later ih =>
    have rest : (log.take finding).takeAll later = _ := ih (log.take finding)
    rw [takeAll, List.foldl_cons, ← takeAll, rest]
    simp [ClassSet.recordAll, ClassSet.eventsOfAll, take]

end ClassLog

end HeaderBindings
