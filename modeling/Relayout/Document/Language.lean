import Relayout.Fault
import Relayout.Text.Utf8
import Relayout.Toml.Format
import Relayout.Yaml.Format

/-!
# Documents as texts

A document is written in one of two languages, which the extension of its file tells.
-/

namespace Relayout

/-- The language of a file, by its extension. -/
def Language.ofPath? (p : Path) : Option Language :=
  match p.extension?.bind Text.ofUtf8? with
  | some ['y', 'm', 'l'] | some ['y', 'a', 'm', 'l'] => some .yaml
  | some ['t', 'o', 'm', 'l'] => some .toml
  | _ => none

namespace Config

def ofText? : Language → Text → Option Config
  | .yaml, s => Yaml.config? s
  | .toml, s => Toml.config? s

def ofText (l : Language) (s : Text) : Except Fault Config :=
  match ofText? l s with
  | some c => .ok c
  | none => .error (.unreadable l)

def ofBytes (bytes : Bytes) : Except Fault Config :=
  match Text.ofUtf8? bytes with
  | some s => ofText .yaml s
  | none => .error (.unreadable .yaml)

end Config

end Relayout
