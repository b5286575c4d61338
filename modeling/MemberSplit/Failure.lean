import MemberSplit.OsError
import MemberSplit.Path

/-!
# Failures

A failure stops a run before it has changed anything: the input or the configuration cannot be
read, or the settings make no sense together. The search for members never fails here, however long
the name of their owner is. An engine that bounds the size of its patterns has one more failure for
a very long owner, as soon as the owner is known and before anything is written.
-/

namespace MemberSplit

/-- What makes a configuration useless. -/
inductive ConfigProblem where
  | ownerNotIdentifier (owner : Text)
  | methodNotIdentifier (method : Text)
  /-- All dispatch files would have one name. -/
  | dispatchFileWithoutKey
  | emptyCoreFile
  | emptyHelperFile
  /-- The core file and the helper file have one template. -/
  | sharedFile
  /-- References would not say which file they mean. -/
  | referenceWithoutPath
  /-- The name of the input is no identifier, and no owner is configured. -/
  | unknownOwner (input : Path)
  deriving DecidableEq, Repr

/-- The wording of a problem. -/
def ConfigProblem.message : ConfigProblem → Text
  | .ownerNotIdentifier owner => Text.concat ["owner_type `", owner, "` is not an identifier"]
  | .methodNotIdentifier method =>
    Text.concat ["dispatch_method `", method, "` is not an identifier"]
  | .dispatchFileWithoutKey => "naming.dispatch_file must contain \x7bkey\x7d"
  | .emptyCoreFile => "naming.core_file is empty"
  | .emptyHelperFile => "naming.helper_file is empty"
  | .sharedFile => "naming.core_file and naming.helper_file name the same file"
  | .referenceWithoutPath => "reference_template must contain \x7bpath\x7d"
  | .unknownOwner input =>
    Text.concat ["cannot infer owner type from `", input, "`; pass --owner"]

/-- Why a run did not happen. A search pattern that is too large for an engine is left out. -/
inductive Failure where
  | readInput (path : Path) (cause : OsError)
  | readConfig (path : Path) (cause : OsError)
  /-- The configuration file is not in its format. -/
  | parseConfig (path : Path)
  | invalidConfig (problem : ConfigProblem)
  deriving DecidableEq, Repr

namespace Failure

/-- The wording of a failure; that of a configuration file with bad syntax names the file only. -/
def message : Failure → Text
  | .readInput path cause => Text.concat ["cannot read ", path, ": ", cause.message]
  | .readConfig path cause => Text.concat ["cannot read config ", path, ": ", cause.message]
  | .parseConfig path => Text.concat ["invalid config ", path]
  | .invalidConfig problem => Text.concat ["invalid configuration: ", problem.message]

/-- The error of the file system behind a failure. -/
def cause? : Failure → Option OsError
  | .readInput _ cause | .readConfig _ cause => some cause
  | .parseConfig _ | .invalidConfig _ => none

end Failure

end MemberSplit
