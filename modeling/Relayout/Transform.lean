import Relayout.Document.Config
import Relayout.Listing
import Relayout.Rule.Basic

/-!
# Transforms

A configuration whose rules can be used together becomes a transform. A transform gives at most
one command for a file: to delete it, or to move or copy it to the path its rules make of its own.
The commands for a listing are those of its files, in order.
-/

namespace Relayout

structure Transform where
  included : Text
  excluded : List Text
  rules : RuleSets
  tests : List Command

namespace RuleSpec

/-- An append needs a guard that is not empty; without one it says nothing. -/
def compile? : RuleSpec → Option Rule
  | replaceDirectoryName source target => some (.replaceDir source target)
  | appendDirectoryName name guard =>
    match guard with
    | none | some [] => none
    | some fileRoot =>
      some (.appendDir ⟨fileRoot⟩ (if name = "@fileRoot".toList then .fileRoot else .literal name))
  | replaceFileRoot fileRoot => some (.replaceFileRoot fileRoot)

def unguarded? : RuleSpec → Option Text
  | appendDirectoryName name none | appendDirectoryName name (some []) => some name
  | _ => none

end RuleSpec

namespace Config

def supportedVersion : UInt32 := 1

def compileRules (rules : Option (List RuleSpec)) : List Rule :=
  (rules.getD []).filterMap RuleSpec.compile?

/-- Fails where the version is another one or the paths are not POSIX paths. -/
def requireSupported (c : Config) : Except Fault Unit := do
  unless c.version = supportedVersion do throw (.unsupportedVersion c.version)
  unless c.posix do throw .posixOnly

def compile (c : Config) : Except Fault RuleSets := do
  c.requireSupported
  let delete := ((c.deleteRules.bind (·.fileRoot)).getD []).map Deletion.mk
  let replace := compileRules c.replaceRules
  let copy := compileRules c.copyRules
  if replace ≠ [] ∧ copy ≠ [] then throw .conflictingRuleSets
  return { delete, replace, copy }

end Config

namespace Transform

def ofConfig (c : Config) : Except Fault Transform := do
  let rules ← c.compile
  return { included := c.includePattern, excluded := c.excludePatterns, rules, tests := c.tests }

def commandFor? (t : Transform) (p : Path) : Option Command :=
  let parts := p.parts
  if t.rules.deletes parts.fileRoot then some (.delete p)
  else if t.rules.replace ≠ [] then
    let target := Rule.destination t.rules.replace parts
    if target = p.text then none else some (.move p (.ofText target))
  else if t.rules.copy ≠ [] then
    let target := Rule.destination t.rules.copy parts
    if target = p.text then none else some (.copy p (.ofText target))
  else none

def commandsFor (t : Transform) (paths : List Path) : List Command :=
  paths.filterMap t.commandFor?

/-- Whether the commands are the expected one alone. -/
def meets (expected : Command) (actual : List Command) : Bool :=
  match actual with
  | [c] => c.Same expected
  | _ => false

end Transform

end Relayout
