import ScriptBundler.Text.Position
import ScriptBundler.Number.Binary64

/-!
# Token — words, signs and literals of a script

A token is a `Token.Kind` with the stretch of text it was read from.  `Token.Kind.spelling` is how a
token is shown in messages, which for all but line ends and comments is how it is written.
-/

namespace ScriptBundler

/-- The reserved words. -/
inductive Keyword where
  | if_ | then_ | else_ | end_ | while_ | for_ | in_ | function | return_ | break_ | continue_
  | and | or | not | isa | new | true | false | null
deriving DecidableEq, Repr, Inhabited

namespace Keyword

/-- How a reserved word is written. -/
def spelling : Keyword → String
  | if_ => "if"
  | then_ => "then"
  | else_ => "else"
  | end_ => "end"
  | while_ => "while"
  | for_ => "for"
  | in_ => "in"
  | function => "function"
  | return_ => "return"
  | break_ => "break"
  | continue_ => "continue"
  | and => "and"
  | or => "or"
  | not => "not"
  | isa => "isa"
  | new => "new"
  | true => "true"
  | false => "false"
  | null => "null"

/-- Every reserved word. -/
def all : List Keyword :=
  [if_, then_, else_, end_, while_, for_, in_, function, return_, break_, continue_, and, or, not,
    isa, new, true, false, null]

/-- The reserved word a text spells, if it spells one. -/
def ofString? (s : String) : Option Keyword := all.find? (·.spelling == s)

/-- The list of keywords is complete. -/
theorem mem_all (k : Keyword) : k ∈ all := by cases k <;> decide

end Keyword

/-- The operators and punctuation marks. -/
inductive Symbol where
  | plus | minus | star | slash | percent | caret | pipe | amp
  | shiftLeft | shiftRight | shiftRightZero | address
  | assign | equal | notEqual | less | greater | lessEqual | greaterEqual
  | plusAssign | minusAssign | starAssign | slashAssign | percentAssign | caretAssign
  | openParen | closeParen | openBracket | closeBracket | openBrace | closeBrace
  | comma | colon | dot | semicolon | hash
deriving DecidableEq, Repr, Inhabited

namespace Symbol

/-- How a sign is written. -/
def spelling : Symbol → String
  | plus => "+"
  | minus => "-"
  | star => "*"
  | slash => "/"
  | percent => "%"
  | caret => "^"
  | pipe => "|"
  | amp => "&"
  | shiftLeft => "<<"
  | shiftRight => ">>"
  | shiftRightZero => ">>>"
  | address => "@"
  | assign => "="
  | equal => "=="
  | notEqual => "!="
  | less => "<"
  | greater => ">"
  | lessEqual => "<="
  | greaterEqual => ">="
  | plusAssign => "+="
  | minusAssign => "-="
  | starAssign => "*="
  | slashAssign => "/="
  | percentAssign => "%="
  | caretAssign => "^="
  | openParen => "("
  | closeParen => ")"
  | openBracket => "["
  | closeBracket => "]"
  | openBrace => "\x7b"
  | closeBrace => "\x7d"
  | comma => ","
  | colon => ":"
  | dot => "."
  | semicolon => ";"
  | hash => "#"

/-- Every sign, longer spellings before the shorter ones they start with. -/
def all : List Symbol :=
  [shiftRightZero, shiftLeft, shiftRight, equal, notEqual, lessEqual, greaterEqual, plusAssign,
    minusAssign, starAssign, slashAssign, percentAssign, caretAssign, plus, minus, star, slash,
    percent, caret, pipe, amp, address, assign, less, greater, openParen, closeParen, openBracket,
    closeBracket, openBrace, closeBrace, comma, colon, dot, semicolon, hash]

/-- The longest sign in front of a text. -/
def ofChars? (cs : List Char) : Option Symbol := all.find? fun s => s.spelling.toList.isPrefixOf cs

/-- The list of symbols is complete. -/
theorem mem_all (s : Symbol) : s ∈ all := by cases s <;> decide

end Symbol

/-- What a token is. -/
inductive Token.Kind where
  | number (raw : String) (value : Binary64)
  | string (raw value : String)
  | identifier (name : String)
  | keyword (word : Keyword)
  | symbol (sign : Symbol)
  /-- A line comment; `text` is what follows the two slashes. -/
  | comment (text : String)
  | newline
  | eof
deriving DecidableEq, Repr, Inhabited

/-- A token and the stretch of text it was read from. -/
structure Token where
  kind : Token.Kind
  span : Span
deriving DecidableEq, Repr, Inhabited

namespace Token.Kind

/-- How a token is shown in messages. -/
def spelling : Kind → String
  | number raw _ => raw
  | string raw _ => raw
  | identifier name => name
  | keyword word => word.spelling
  | symbol sign => sign.spelling
  | comment text => "//" ++ text
  | newline => "newline"
  | eof => "end of file"

/-- Whether a token is a keyword. -/
def isKeyword : Kind → Bool
  | keyword _ => true
  | _ => false

/-- Tokens that a statement may end at. -/
def isTerminator : Kind → Bool
  | newline => true
  | eof => true
  | comment _ => true
  | symbol .semicolon => true
  | _ => false

/-- Tokens after which a line break does not end the statement. -/
def continuesLine : Kind → Bool
  | keyword .and => true
  | keyword .or => true
  | symbol s =>
    s ∈ [.plus, .minus, .star, .slash, .percent, .caret, .pipe, .amp, .shiftLeft, .shiftRight,
      .shiftRightZero, .equal, .notEqual, .less, .greater, .lessEqual, .greaterEqual, .comma,
      .openParen, .openBracket, .openBrace]
  | _ => false

end Token.Kind

end ScriptBundler
