import Stencil.Log
import Stencil.Text.Blank
import Stencil.Text.Search

/-!
Filters on records. A filter is written as directives between commas; each is a level, the start of a
target, or both with an equals sign between them.
-/
namespace Stencil

/-- A rule for the targets that start with a text. -/
structure LogRule where
  start : String
  /-- Up to which detail records are let through. -/
  detail : Nat
  deriving Repr, DecidableEq

/-- The rules of a filter. -/
abbrev LogFilter := List LogRule

/-- The detail that a level is written for, whatever the case of its letters. -/
def detailOf? (s : String) : Option Nat :=
  match s.toLower with
  | "off" => some 0
  | "error" => some Level.error.detail
  | "warn" => some Level.warn.detail
  | "info" => some Level.info.detail
  | "debug" => some Level.debug.detail
  | "trace" => some Level.trace.detail
  | _ => none

namespace LogRule

/-- The rule that a directive stands for. A target alone lets through everything. -/
def ofText? (directive : String) : Option LogRule :=
  match directive.splitOn "=" with
  | [single] =>
    match detailOf? single with
    | some detail => some ⟨"", detail⟩
    | none => if single = "" then none else some ⟨single, Level.trace.detail⟩
  | [start, level] =>
    let level := Text.trim level
    if level = "" then some ⟨start, Level.trace.detail⟩
    else (detailOf? level).map fun detail => ⟨start, detail⟩
  | _ => none

/-- The rule is for the target. -/
def covers (target : String) (rule : LogRule) : Bool :=
  (Text.after? rule.start.toList target.toList).isSome

end LogRule

namespace LogFilter

/-- The filter that a text stands for; one without any directive lets errors through. -/
def ofText (s : String) : LogFilter :=
  match (s.splitOn ",").filterMap fun directive => LogRule.ofText? (Text.trim directive) with
  | [] => [⟨"", Level.error.detail⟩]
  | rules => rules

/-- The detail that is let through for a target: that of the longest start, and of the last rule for
    it. -/
def detailFor (target : String) (filter : LogFilter) : Nat :=
  let covering := filter.filter (LogRule.covers target)
  let longest := covering.foldl (fun n rule => max n rule.start.length) 0
  ((covering.filter (·.start.length = longest)).getLast?.map LogRule.detail).getD 0

/-- The record is let through. -/
def admits (filter : LogFilter) (record : Record) : Bool :=
  record.level.detail ≤ filter.detailFor record.target

end LogFilter

/-- The record as written, with its level at the left end of a field. -/
def Record.line (record : Record) : String :=
  let level := record.level.text
  level.pushn ' ' (5 - level.length) ++ " " ++ record.target ++ "] " ++ record.message

end Stencil
