import Keyspace.Files.Tree
import Keyspace.Settings.Document

/-!
# Settings in files

`Settings.load` looks for a settings file: at the place that the environment names, in the working
directory, and among the user's configuration files; without any the standard settings hold.  The
working directory is taken to be the user's home as well.
-/

namespace Keyspace

namespace Settings

/-- Reads and checks the settings in a file. -/
def ofFile (tree : FileTree) (path : String) : Except (SettingsError Float) (Settings Float) :=
  match tree.lookup path with
  | .missing => .error (.fileNotFound path)
  | .directory => .error .unreadable
  | .file text => ofToml text

/-- The settings file in the working directory. -/
def localPath (app : String) : String := app ++ ".toml"

/-- The settings file of the user. -/
def userPath (app : String) : String := ".config/" ++ app ++ "/config.toml"

/-- Looks for the settings of an application.  A path from the environment is binding, even if
nothing stands there; the other places count only if something does. -/
def load (tree : FileTree) (app : String) (environment : Option String) :
    Except (SettingsError Float) (Settings Float) :=
  match environment with
  | some path => ofFile tree path
  | none =>
    if tree.lookup (localPath app) ≠ .missing then ofFile tree (localPath app)
    else if tree.lookup (userPath app) ≠ .missing then ofFile tree (userPath app)
    else .ok standard

end Settings

end Keyspace
