import JackCompiler.Token.Basic

/-!
# The listing of tokens

A table with a row for each token: its offset and size, its kind, and its text.
-/

namespace JackCompiler

def padRight (width : Nat) (text : String) : String :=
  text ++ String.ofList (List.replicate (width - text.length) ' ')

def padLeft (width : Nat) (text : String) : String :=
  String.ofList (List.replicate (width - text.length) ' ') ++ text

def listingHeader : String :=
  "offset | len | token                | fragment \n"

def Token.row (t : Token) : String :=
  let place := padLeft 7 (toString t.span.index) ++ ":" ++ padRight 3 (toString t.span.size) ++ " "
  -- The last token has no text to show.
  if t.kind = .finish then place ++ t.kind.name ++ "\n"
  else place ++ padRight 20 t.kind.name ++ " \"" ++ t.lexeme ++ "\"\n"

def listing (tokens : List Token) : String :=
  tokens.foldl (fun text t => text ++ t.row) listingHeader

end JackCompiler
