/-
  Xvr.Frontend.Token — tokens (`Xvr_TokenType`, `Xvr_Token`) and the keyword table
  (`xvr_keyword_types.cpp`).

  Reserved words that are also words of this language carry a trailing underscore. A
  token's lexeme is the text its pointer and length delimit.
-/

namespace Xvr.Frontend

/-- `Xvr_TokenType`, in the order of the source. -/
inductive TokenType where
  -- types
  | null | void | boolean | integer | float | string | array | dictionary | function | opaquePtr | any
  | int8 | int16 | int32 | int64 | uint8 | uint16 | uint32 | uint64
  | float16 | float32 | float64
  -- keywords and reserved words
  | as_ | assert_ | break_ | class_ | const_ | continue_ | do_ | else_ | export_ | for_ | foreach_ | if_ | import_
  | in_ | of_ | print_ | return_ | type_ | astype_ | typeof_ | var_ | while_
  -- literal values
  | identifier | literalTrue | literalFalse | literalInteger | literalFloat | literalString
  | literalInt8 | literalInt16 | literalInt32 | literalInt64
  | literalUint8 | literalUint16 | literalUint32 | literalUint64
  | literalFloat16 | literalFloat32 | literalFloat64
  -- math operators
  | plus | minus | multiply | divide | modulo
  | plusAssign | minusAssign | multiplyAssign | divideAssign | moduloAssign
  | plusPlus | minusMinus | assign
  -- logical operators
  | parenLeft | parenRight | bracketLeft | bracketRight | braceLeft | braceRight
  | not | notEqual | equal | less | greater | lessEqual | greaterEqual | and | or
  -- other operators
  | question | colon | colonColon | semicolon | comma | dot | pipe | rest
  -- meta tokens
  | pass | error | eof
  deriving DecidableEq, Repr

/-- `Xvr_Token`. -/
structure Token where
  type : TokenType
  lexeme : List Char
  line : Nat
  deriving DecidableEq, Repr

/-- `Xvr_keywordTypes`, up to its first NULL keyword. -/
def keywordTypes : List (TokenType × List Char) := [
  -- type keywords
  (.null, "null".toList),
  (.void, "void".toList),
  (.boolean, "bool".toList),
  (.integer, "int".toList),
  (.float, "float".toList),
  (.string, "string".toList),
  (.function, "proc".toList),
  (.opaquePtr, "opaque".toList),
  (.any, "any".toList),
  -- fixed-size types
  (.int8, "int8".toList),
  (.int16, "int16".toList),
  (.int32, "int32".toList),
  (.int64, "int64".toList),
  (.uint8, "uint8".toList),
  (.uint16, "uint16".toList),
  (.uint32, "uint32".toList),
  (.uint64, "uint64".toList),
  (.float16, "float16".toList),
  (.float32, "float32".toList),
  (.float64, "float64".toList),
  -- other keywords
  (.as_, "as".toList),
  (.assert_, "assert".toList),
  (.break_, "break".toList),
  (.class_, "class".toList),
  (.const_, "const".toList),
  (.continue_, "continue".toList),
  (.do_, "do".toList),
  (.else_, "else".toList),
  (.export_, "export".toList),
  (.for_, "for".toList),
  (.foreach_, "foreach".toList),
  (.if_, "if".toList),
  (.import_, "import".toList),
  (.in_, "in".toList),
  (.of_, "of".toList),
  (.print_, "print".toList),
  (.return_, "return".toList),
  (.type_, "type".toList),
  (.astype_, "astype".toList),
  (.typeof_, "typeof".toList),
  (.var_, "var".toList),
  (.while_, "while".toList),
  -- literal values
  (.literalTrue, "true".toList),
  (.literalFalse, "false".toList)]

end Xvr.Frontend
