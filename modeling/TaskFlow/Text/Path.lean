namespace TaskFlow.Text

-- What a path begins with. One slash or more than two lead to the root, two slashes to a root of
-- their own, and no slash to the current place.
def pathRoot (path : String) : String :=
  match (path.toList.takeWhile (· == '/')).length with
  | 0 => ""
  | 2 => "//"
  | _ => "/"

-- The path without repeated slashes, a slash at its end, and parts that stay where they are.
def tidyPath (path : String) : String :=
  let parts := (path.splitOn "/").filter fun part => !part.isEmpty && part != "."
  let text := pathRoot path ++ String.intercalate "/" parts
  if text.isEmpty then "." else text

end TaskFlow.Text
