import Relayout.Document.Language
import Relayout.SystemCalls
import Relayout.Transform

/-!
# Loading transforms

A transform is loaded from a file whose extension tells the language of the document in it.
-/

namespace Relayout

/-- The names that appends without a guard would have appended. -/
def Config.unguarded (c : Config) : List Text :=
  (c.replaceRules.getD [] ++ c.copyRules.getD []).filterMap RuleSpec.unguarded?

namespace Transform

variable {m : Type → Type} {Reader Writer : Type} [Monad m] [Journal m]
  [SystemCalls m Reader Writer]

def ofConfigNoted (c : Config) : ExceptT Fault m Transform := do
  liftExcept c.requireSupported
  c.unguarded.forM fun name => note (.unguardedAppend name)
  let t ← liftExcept (ofConfig c)
  note (.compiled t.rules.delete.length t.rules.replace.length t.rules.copy.length)
  return t

def load (p : Path) : ExceptT Fault m Transform := do
  match Language.ofPath? p with
  | none => throw (.unsupportedTransformFile p)
  | some language =>
    let bytes ← Execution.during .read p (SystemCalls.readFile p)
    match Text.ofUtf8? bytes with
    | none => throw (.io .read p .notUtf8)
    | some text =>
      note (.loaded p)
      let config ← liftExcept (Config.ofText language text)
      ofConfigNoted config

end Transform

end Relayout
