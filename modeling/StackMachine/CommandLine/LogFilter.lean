import StackMachine.CommandLine.Directive

/-!
# Log filters

A log filter is a list of directives, written with commas between them.  Of the directives about a notice the one with
the longest source decides, one with a field before one without, and of two that are alike the later.  The notice is
shown if its level is within that directive's; if no directive is about it, it is not shown.
-/

namespace StackMachine.CommandLine

open Native (Notice Level)

abbrev LogFilter := List Directive

namespace LogFilter

/-- Reads a filter; the first directive that cannot be read decides. -/
def parse (text : String) : Except DirectiveError LogFilter :=
  let parts := (text.toList.splitOnP (· == ',')).filter fun part => !part.isEmpty
  match parts.mapM Directive.parse with
  | .error e => .error e
  | .ok ds => .ok (ds.filterMap id)

/-- What is shown if the user says nothing. -/
def standard (trace : Bool) : LogFilter :=
  ⟨"", none, Level.info.rank⟩ :: if trace then [⟨"stackjit", none, Level.debug.rank⟩] else []

/-- The user's filter if there is one, and the standard one if the user's is invalid.  There is no choice to be made
(`none`) if it is broken. -/
def choose? (text : Option String) (trace : Bool) : Option LogFilter :=
  match text.map parse with
  | none | some (.error .invalid) => some (standard trace)
  | some (.error .broken) => none
  | some (.ok filter) => some filter

/-- The only field of a notice. -/
def noticeField : String := "message"

def isAbout (d : Directive) (source : String) : Bool :=
  d.source.toList.isPrefixOf source.toList && d.field.all (· == noticeField)

/-- Whether `d` decides rather than `b`, which stands before it. -/
def overrules (d b : Directive) : Bool :=
  b.source.length < d.source.length || (b.source.length == d.source.length && (d.field.isSome || b.field.isNone))

def closer (best : Option Directive) (d : Directive) : Option Directive :=
  match best with
  | some b => if overrules d b then some d else some b
  | none => some d

def nearest (filter : LogFilter) (source : String) : Option Directive :=
  (filter.filter fun d => isAbout d source).foldl closer none

def shows (filter : LogFilter) (n : Notice) : Bool :=
  match nearest filter n.source with
  | some d => n.level.rank ≤ d.rank
  | none => false

end LogFilter

end StackMachine.CommandLine
