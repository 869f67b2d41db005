import JackCompiler.Text.Position
import JackCompiler.Token.Terminal

/-!
# Tokens

A token is a terminal together with its text and the place of that text in the
source. The text of a string constant does not include its quotes.
-/

namespace JackCompiler

structure Token where
  kind : Terminal
  span : Span
  lexeme : String
deriving DecidableEq, Repr

/-! ## Markup -/

def markupChar (c : Char) : List Char :=
  if c = '<' then ['&', 'l', 't', ';']
  else if c = '>' then ['&', 'g', 't', ';']
  else if c = '"' then ['&', 'q', 'u', 'o', 't', ';']
  else if c = '&' then ['&', 'a', 'm', 'p', ';']
  else [c]

def markupText (text : String) : String :=
  String.ofList (text.toList.flatMap markupChar)

def Token.markup (t : Token) : String :=
  "<" ++ t.kind.tag ++ "> " ++ markupText t.lexeme ++ " </" ++ t.kind.tag ++ ">"

end JackCompiler
