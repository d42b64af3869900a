import Dataflow.Files.Error
import Dataflow.Graph.Error

/-!
# What can be wrong with a description

The causes for which a description cannot be loaded, turned into a graph, compiled or saved.
-/

namespace Dataflow

inductive DescriptionError where
  | reading (path : String) (cause : FileError)
  | writing (path : String) (cause : FileError)
  | creating (path : String) (cause : FileError)
  /-- The text is no description. -/
  | malformed
  /-- There is no text for the value. -/
  | unwritable
  | duplicateNode (name : String)
  | unknownNode (name : String)
  | unknownType (node type : String)
  | invalidPortRef (text : String)
  | graph (error : GraphError)
  deriving DecidableEq, Repr

namespace DescriptionError

def message : DescriptionError → String
  | reading path cause => "failed to read file '" ++ path ++ "': " ++ cause.message
  | writing path cause => "failed to write file '" ++ path ++ "': " ++ cause.message
  | creating path cause => "failed to create directory '" ++ path ++ "': " ++ cause.message
  | malformed => "failed to parse TOML"
  | unwritable => "failed to serialize TOML"
  | duplicateNode name => "duplicate node name: " ++ name
  | unknownNode name => "unknown node: " ++ name
  | unknownType node type => "node '" ++ node ++ "' uses unknown element type '" ++ type ++ "'"
  | invalidPortRef text => "malformed port reference '" ++ text ++ "' (expected 'node.slot')"
  | graph error => "graph error: " ++ error.message

/-- The message of the error, and that of what caused it. -/
def chain (e : DescriptionError) : List String :=
  match e with
  | reading _ cause | writing _ cause | creating _ cause => [e.message, cause.message]
  | graph error => [e.message, error.message]
  | _ => [e.message]

end DescriptionError

end Dataflow
