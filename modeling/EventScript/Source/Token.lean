import EventScript.Text.Span
import EventScript.Width

namespace EventScript

inductive Lexeme where
  | identifier (name : String)
  | directive (name : String)
  | atom (name : String)
  | integer (value : Int) (width : Option Width)
  | string (bytes : Bytes)
  | label (name : String) (width : Option Width)
  | offset (value : Nat) (width : Option Width)
  | comma
  | openParen
  | closeParen
  | colon
  | elseWord
  | newline
  | endOfInput
  deriving DecidableEq, Repr

namespace Lexeme

def className : Lexeme → String
  | identifier _ => "identifier"
  | directive _ => "directive"
  | atom _ => "atom"
  | integer .. => "integer"
  | string _ => "string"
  | label .. => "label"
  | offset .. => "offset"
  | comma => ","
  | openParen => "("
  | closeParen => ")"
  | colon => ":"
  | elseWord => "else"
  | newline => "newline"
  | endOfInput => "end of input"

def describe : Lexeme → String
  | identifier name => "'" ++ name ++ "'"
  | directive name => "'." ++ name ++ "'"
  | atom name => "'@" ++ name ++ "'"
  | label name _ => "'*" ++ name ++ "'"
  | integer value _ => "'" ++ toString value ++ "'"
  | offset value _ => "'" ++ toString value ++ "'"
  | string _ => "a string"
  | comma => "','"
  | openParen => "'('"
  | closeParen => "')'"
  | colon => "':'"
  | elseWord => "else"
  | newline => "newline"
  | endOfInput => "end of input"

def endsItem : Lexeme → Bool
  | newline | endOfInput => true
  | _ => false

end Lexeme

structure Token where
  lexeme : Lexeme
  span : Span
  deriving DecidableEq, Repr

end EventScript
