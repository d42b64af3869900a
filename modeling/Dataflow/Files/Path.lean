/-!
# Paths

A path is a row of names with slashes between them. Empty names, and a dot behind the first place, add
nothing to a path.
-/

namespace Dataflow.Path

/-- What stands between the slashes. -/
def parts : List Char → List (List Char)
  | [] => [[]]
  | c :: rest =>
    if c == '/' then [] :: parts rest
    else
      match parts rest with
      | [] => [[c]]
      | part :: more => (c :: part) :: more

def names (path : String) : List String := (parts path.toList).map String.ofList

/-- The parts without those at the end that add nothing. -/
def trimRight (parts : List String) : List String :=
  ((parts.zipIdx.reverse.dropWhile fun (p, i) ↦ p.isEmpty || (p == "." && i != 0)).reverse).map (·.1)

/-- The path of the directory that holds what the path names. A lone name lies in the empty path; the
root, and the empty path, lie in none. -/
def parent? (path : String) : Option String :=
  match trimRight (names path) with
  | [] => none
  | kept =>
    match trimRight kept.dropLast, path.toList with
    | [], '/' :: _ => some "/"
    | above, _ => some ("/".intercalate above)

end Dataflow.Path
