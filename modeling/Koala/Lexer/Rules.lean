import Koala.Basic
import Koala.Scanner

open scanner

namespace koala.lexer

set_option linter.style.nameCheck false

/-- The tokens that the grammar names, in the order of their declarations. -/
inductive YYToken where
  | TYPELESS_ASSIGN
  | PLUS_ASSGIN
  | MINUS_ASSIGN
  | MULT_ASSIGN
  | DIV_ASSIGN
  | MOD_ASSIGN
  | AND_ASSIGN
  | OR_ASSIGN
  | XOR_ASSIGN
  | RSHIFT_ASSIGN
  | LSHIFT_ASSIGN
  | OP_POWER
  | ELLIPSIS
  | DOTDOTLESS
  | OP_EQ
  | OP_NE
  | OP_GE
  | OP_LE
  | OP_AND
  | OP_OR
  | OP_NOT
  | OP_LSHIFT
  | OP_RSHIFT
  | PACKAGE
  | IF
  | ELSE
  | WHILE
  | FOR
  | SWITCH
  | CASE
  | BREAK
  | FALLTHROUGH
  | CONTINUE
  | DEFAULT
  | VAR
  | FUNC
  | TOKEN_RETURN
  | CLASS
  | TRAIT
  | EXTENDS
  | WITH
  | IN
  | CONST
  | IMPORT
  | GO
  | DEFER
  | NATIVE
  | CHAR
  | BYTE
  | INTEGER
  | FLOAT
  | BOOL
  | STRING
  | ERROR
  | ANY
  | MAP
  | SET
  | SELF
  | SUPER
  | TOKEN_NIL
  | TOKEN_TRUE
  | TOKEN_FALSE
  | DIMS
  | BYTE_LITERAL
  | CHAR_LITERAL
  | INT_LITERAL
  | FLOAT_LITERAL
  | STRING_LITERAL
  | ID
  deriving DecidableEq

/-- A character is its own number; the named tokens are numbered from 258 on. -/
def YYToken.number (t : YYToken) : Nat := 258 + t.ctorIdx

/-- The number of the opcode of this name, which is not a token of the
grammar. -/
def POWER : Nat := 45

/-- The number of a token that is one character. -/
def char (c : Char) : Nat := c.toNat

/-- The semantic values that tokens carry. Those of floats and characters are
left out. -/
inductive YYSTYPE where
  | none
  | Dims (dims : Nat)
  | IVal (ival : BitVec 64)
  | SVal (str : CString)
  deriving DecidableEq

structure Token where
  number : Nat
  value : YYSTYPE
  deriving DecidableEq

/-- The value of a hexadecimal digit. -/
def digit (c : UInt8) : Nat :=
  if c.toNat < 0x3a then c.toNat - 0x30 else if c.toNat < 0x47 then c.toNat - 0x37
  else c.toNat - 0x57

/-- The number that digits of a base stand for. -/
def digits_value (base : Nat) (text : List UInt8) : Nat :=
  text.foldl (fun n c => n * base + digit c) 0

/-- `strtol` stops at `LONG_MAX`, and its result is cut to an `int`. -/
def atoi (text : List UInt8) : BitVec 32 :=
  BitVec.ofNat 32 (min (digits_value 10 text) (2 ^ 63 - 1))

/-- `strtoul` stops at `ULONG_MAX`. -/
def strtoul (text : List UInt8) (base : Nat) : BitVec 64 :=
  BitVec.ofNat 64 (min (digits_value base text) (2 ^ 64 - 1))

/-- The tokens after which a newline ends a statement. -/
def semicolon_tokens : List Nat :=
  [YYToken.ID.number, YYToken.CHAR_LITERAL.number, YYToken.INT_LITERAL.number,
    YYToken.FLOAT_LITERAL.number, YYToken.STRING_LITERAL.number, YYToken.SELF.number,
    YYToken.SUPER.number, YYToken.TOKEN_NIL.number, YYToken.TOKEN_TRUE.number,
    YYToken.TOKEN_FALSE.number, YYToken.BREAK.number, YYToken.CONTINUE.number,
    YYToken.FALLTHROUGH.number, YYToken.TOKEN_RETURN.number, char ')', char ']', char '}',
    YYToken.CHAR.number, YYToken.BYTE.number, YYToken.INTEGER.number, YYToken.FLOAT.number,
    YYToken.BOOL.number, YYToken.STRING.number, YYToken.ERROR.number, YYToken.ANY.number,
    YYToken.ELLIPSIS.number, YYToken.MAP.number, YYToken.SET.number]

def Lexer_NeedInsertSemiColon (lastToken : Nat) : Bool := lastToken ∈ semicolon_tokens

def text (s : String) : List UInt8 := s.toList.map Char.toUInt8

/-- The bytes from `lo` to `hi`. -/
def bytes (lo hi : Nat) : List UInt8 := (List.range' lo (hi + 1 - lo)).map UInt8.ofNat

/-- All bytes but the given ones. -/
def bytes_but (cs : List UInt8) : List UInt8 := (bytes 0 255).filter fun c => c ∉ cs

/-- What a list is searched for holds of each of its bytes. -/
theorem forall_of_all {p : UInt8 → Prop} [DecidablePred p] {l : List UInt8}
    (h : (l.all fun c => decide (p c)) = true) : ∀ c ∈ l, p c :=
  fun c hc => of_decide_eq_true (List.all_eq_true.mp h c hc)

def D : List UInt8 := bytes 0x30 0x39

def H : List UInt8 := bytes 0x61 0x66 ++ bytes 0x41 0x46 ++ D

def L : List UInt8 := bytes 0x61 0x7a ++ bytes 0x41 0x5a ++ text "_"

def U : List UInt8 := bytes 0x80 0xbf

/-- A character of UTF-8 other than the newline. -/
def UANYN : RegularExpression UInt8 :=
  oneOf (bytes 0x00 0x09 ++ bytes 0x0b 0x7f) + oneOf (bytes 0xc2 0xdf) * oneOf U +
    oneOf (bytes 0xe0 0xef) * oneOf U * oneOf U +
    oneOf (bytes 0xf0 0xf4) * oneOf U * oneOf U * oneOf U

inductive Action where
  | YY_RETURN (token : Nat)
  -- YY_RETURN(yytext[0])
  | character
  | dims
  | decimal
  | strtoul (base : Nat)
  | float
  | string
  | ident
  | newline
  | char_literal
  | skip
  -- Syntax_Error
  | invalid

/-- The characters that are tokens. -/
def characters : List UInt8 := text "+-*/%&|=><,.;\x7b\x7d[]()^~:"

/-- The rules for fixed words. -/
def words : List (String × Nat) :=
  [("==", YYToken.OP_EQ.number), ("!=", YYToken.OP_NE.number), (">=", YYToken.OP_GE.number),
    ("<=", YYToken.OP_LE.number), ("and", YYToken.OP_AND.number), ("or", YYToken.OP_OR.number),
    ("not", YYToken.OP_NOT.number), ("&&", YYToken.OP_AND.number), ("||", YYToken.OP_OR.number),
    ("!", YYToken.OP_NOT.number), (">>", YYToken.OP_RSHIFT.number),
    ("<<", YYToken.OP_LSHIFT.number), (":=", YYToken.TYPELESS_ASSIGN.number),
    ("+=", YYToken.PLUS_ASSGIN.number), ("-=", YYToken.MINUS_ASSIGN.number),
    ("*=", YYToken.MULT_ASSIGN.number), ("/=", YYToken.DIV_ASSIGN.number),
    ("%=", YYToken.MOD_ASSIGN.number), ("&=", YYToken.AND_ASSIGN.number),
    ("|=", YYToken.OR_ASSIGN.number), ("^=", YYToken.XOR_ASSIGN.number),
    (">>=", YYToken.RSHIFT_ASSIGN.number), ("<<=", YYToken.LSHIFT_ASSIGN.number),
    ("...", YYToken.ELLIPSIS.number), ("**", POWER), ("..<", YYToken.DOTDOTLESS.number),
    ("package", YYToken.PACKAGE.number), ("if", YYToken.IF.number), ("else", YYToken.ELSE.number),
    ("while", YYToken.WHILE.number), ("for", YYToken.FOR.number),
    ("switch", YYToken.SWITCH.number), ("case", YYToken.CASE.number),
    ("fallthrough", YYToken.FALLTHROUGH.number), ("break", YYToken.BREAK.number),
    ("continue", YYToken.CONTINUE.number), ("default", YYToken.DEFAULT.number),
    ("var", YYToken.VAR.number), ("func", YYToken.FUNC.number),
    ("return", YYToken.TOKEN_RETURN.number), ("class", YYToken.CLASS.number),
    ("trait", YYToken.TRAIT.number), ("extends", YYToken.EXTENDS.number),
    ("with", YYToken.WITH.number), ("in", YYToken.IN.number), ("const", YYToken.CONST.number),
    ("import", YYToken.IMPORT.number), ("go", YYToken.GO.number), ("defer", YYToken.DEFER.number),
    ("native", YYToken.NATIVE.number), ("char", YYToken.CHAR.number),
    ("byte", YYToken.BYTE.number), ("int", YYToken.INTEGER.number),
    ("float", YYToken.FLOAT.number), ("bool", YYToken.BOOL.number),
    ("string", YYToken.STRING.number), ("error", YYToken.ERROR.number),
    ("any", YYToken.ANY.number), ("map", YYToken.MAP.number), ("set", YYToken.SET.number),
    ("self", YYToken.SELF.number), ("super", YYToken.SUPER.number),
    ("true", YYToken.TOKEN_TRUE.number), ("false", YYToken.TOKEN_FALSE.number),
    ("nil", YYToken.TOKEN_NIL.number)]

def word_rule (w : String × Nat) : Rule UInt8 Action := ⟨lit (text w.1), .YY_RETURN w.2⟩

/-- The rules of numbers, up to that of identifiers. -/
def literals : List (Rule UInt8 Action) :=
  [⟨many1 (lit (text "[]")), .dims⟩,
    ⟨oneOf (bytes 0x31 0x39) * (oneOf D).star + lit (text "0"), .decimal⟩,
    ⟨lit (text "0") * (oneOf (text "xX") * many1 (oneOf H)), .strtoul 16⟩,
    ⟨lit (text "0") * (oneOf (bytes 0x30 0x37)).star, .strtoul 8⟩,
    ⟨many1 (oneOf D) * (lit (text ".") * many1 (oneOf D)), .float⟩,
    ⟨lit (text "\"") * (opt ((oneOf (bytes_but (text "\"")) + lit (text "\\\"")).star *
      oneOf (bytes_but (text "\\"))) * lit (text "\"")), .string⟩]

/-- The rules after that of identifiers. -/
def others : List (Rule UInt8 Action) :=
  [⟨lit (text "\n"), .newline⟩,
    ⟨lit (text "'") * (UANYN * lit (text "'")), .char_literal⟩,
    ⟨many1 (oneOf (text "\t\r ")), .skip⟩,
    ⟨lit (text "/*") * ((((oneOf (bytes_but (text "*"))).star *
      opt (lit (text "*") * oneOf (bytes_but (text "/")))).star) * lit (text "*/")), .skip⟩,
    ⟨lit (text "#") * (oneOf (bytes_but (text "\n"))).star, .skip⟩,
    ⟨lit (text "//") * (oneOf (bytes_but (text "\n"))).star, .skip⟩,
    ⟨oneOf (bytes_but (text "\n")), .invalid⟩]

def ident_rule : Rule UInt8 Action := ⟨oneOf L * (oneOf (L ++ D)).star, .ident⟩

/-- The rules, the first of them tried first. -/
def rules : List (Rule UInt8 Action) :=
  ⟨oneOf characters, .character⟩ :: (words.map word_rule ++ literals) ++ ident_rule :: others

/-- What an action returns for the text that was matched. The outer `none` is
an invalid character, the inner one goes on without a token. -/
def Action.run (lastToken : Nat) (yytext : List UInt8) : Action → Option (Option Token)
  | .YY_RETURN token => some (some ⟨token, .none⟩)
  | .character => some (yytext.head?.map fun c => ⟨c.toNat, .none⟩)
  | .dims => some (some ⟨YYToken.DIMS.number, .Dims (yytext.length / 2)⟩)
  | .decimal => some (some ⟨YYToken.INT_LITERAL.number, .IVal ((atoi yytext).signExtend 64)⟩)
  | .strtoul base =>
    -- the prefix 0x is skipped by strtoul
    let digits := if base = 16 then yytext.drop 2 else yytext
    some (some ⟨YYToken.INT_LITERAL.number, .IVal (lexer.strtoul digits base)⟩)
  | .float => some (some ⟨YYToken.FLOAT_LITERAL.number, .none⟩)
  | .string =>
    let str := (yytext.drop 1).take (yytext.length - 2)
    some (some ⟨YYToken.STRING_LITERAL.number, .SVal (CString.ofData str)⟩)
  | .ident => some (some ⟨YYToken.ID.number, .SVal (CString.ofData yytext)⟩)
  | .newline =>
    some (if Lexer_NeedInsertSemiColon lastToken then some ⟨char ';', .none⟩ else none)
  | .char_literal => some (some ⟨YYToken.CHAR_LITERAL.number, .none⟩)
  | .skip => some none
  | .invalid => none

/-- The tokens of the input, the last token returned before it given. -/
def yylex.loop : Nat → Nat → List UInt8 → Option (List Token)
  | _, _, [] => some []
  | 0, _, _ :: _ => none
  | fuel + 1, lastToken, c :: input =>
    match scan rules (c :: input) with
    | none => none
    | some (action, yyleng) =>
      match action.run lastToken ((c :: input).take yyleng) with
      | none => none
      | some none => yylex.loop fuel lastToken ((c :: input).drop yyleng)
      | some (some token) =>
        (yylex.loop fuel token.number ((c :: input).drop yyleng)).map (token :: ·)

/-- All tokens of a text. Every match has at least one byte. -/
def yylex (input : List UInt8) : Option (List Token) := yylex.loop input.length 0 input

end koala.lexer
