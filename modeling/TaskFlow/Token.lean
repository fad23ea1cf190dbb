import TaskFlow.Text.Quoted

namespace TaskFlow

-- A smallest unit of meaning. A stream of lexemes ends with `endOfInput`, or with `invalid` at the
-- first character that begins no lexeme.
inductive Lexeme
  | identifier (name : String)
  | quoted (body : String)
  | ampersands
  | bars
  | arrow
  | colon
  | openParen
  | closeParen
  | openAngle
  | closeAngle
  | star
  | invalid (c : Char)
  | endOfInput
deriving DecidableEq, Repr

namespace Lexeme

def text : Lexeme → String
  | identifier name => name
  | quoted body => "'" ++ body ++ "'"
  | ampersands => "&&"
  | bars => "||"
  | arrow => "->"
  | colon => ":"
  | openParen => "("
  | closeParen => ")"
  | openAngle => "<"
  | closeAngle => ">"
  | star => "*"
  | invalid c => String.singleton c
  | endOfInput => ""

-- What a lexeme says: the text, without the quotes of a quoted one.
def value : Lexeme → String
  | quoted body => body
  | l => l.text

def wording : Lexeme → String
  | identifier name => "identifier '" ++ name ++ "'"
  | quoted body => "quoted string '" ++ body ++ "'"
  | invalid c => "invalid character " ++ Text.quoted (String.singleton c)
  | endOfInput => "end of input"
  | l => "'" ++ l.text ++ "'"

def opens : Lexeme → Bool
  | openParen | openAngle => true
  | _ => false

def closes : Lexeme → Bool
  | closeParen | closeAngle => true
  | _ => false

end Lexeme

structure Token where
  lexeme : Lexeme
  start : Nat
deriving DecidableEq, Repr

namespace Token

def stop (t : Token) : Nat :=
  t.start + t.lexeme.text.length

end Token

end TaskFlow
