import SourceDelta.Config.Yaml
import SourceDelta.Path
import SourceDelta.Store

/-!
# Workspaces

A run works with a configuration and the directory that its relative paths
start from: the directory of the configuration file when one is named, and else
the working directory, whose own configuration file counts when there is one.
-/

set_option autoImplicit false

namespace SourceDelta

structure Workspace where
  config : Config
  base : String
  deriving DecidableEq

namespace Config

def load (path : String) : Task Config := do
  let text ← Task.readText path (.readConfig path)
  Task.ofExcept .config (ofYaml text)

/-- The configuration of a directory, the default when it has none. -/
def discover (directory : String) : Task Config := do
  let path := Path.join directory fileName
  if ← Task.ask (.isFile path) then load path else pure default

end Config

namespace Workspace

def resolve (directory : String) : Option String → Task Workspace
  | some path => do
    let path := Path.join directory path
    pure ⟨← Config.load path, (Path.parent? path).getD directory⟩
  | none => do pure ⟨← Config.discover directory, directory⟩

def storeRoot (w : Workspace) : String := Path.join w.base w.config.storeRoot

def openStore (w : Workspace) : Task Store :=
  Store.openAt ⟨w.storeRoot, w.config.codeExtension⟩ false

end Workspace

end SourceDelta
