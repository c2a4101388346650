import Koala.Lexer.Rules
import Koala.Parser.Symbol
import Koala.Precedence
import Koala.Lexer.Lexemes

open koala.lexer koala.parser precedence

namespace koala.syntax

set_option linter.style.nameCheck false

/-- The atoms of the expressions considered: identifiers and integers. -/
inductive Atom where
  | ID (name : CString)
  | CONSTANT (ival : BitVec 64)
  deriving DecidableEq

abbrev Expression := Tree Atom UnaryOpKind BinaryOpKind

/-- The nonterminals with binary operators. Each has the next one as its
operand, the last one has `UnaryExpression`. -/
inductive Nonterminal where
  | LogicOrExpression
  | LogicAndExpression
  | InclusiveOrExpression
  | ExclusiveOrExpression
  | AndExpression
  | EqualityExpression
  | RelationExpression
  | ShiftExpression
  | AddExpression
  | MultipleExpression
  deriving DecidableEq

def Nonterminal.all : List Nonterminal :=
  [.LogicOrExpression, .LogicAndExpression, .InclusiveOrExpression, .ExclusiveOrExpression,
    .AndExpression, .EqualityExpression, .RelationExpression, .ShiftExpression, .AddExpression,
    .MultipleExpression]

/-- The operators of the left recursive productions of a nonterminal. -/
def Nonterminal.operators : Nonterminal → List (Nat × BinaryOpKind)
  | .LogicOrExpression => [(YYToken.OP_OR.number, .BINARY_LOR)]
  | .LogicAndExpression => [(YYToken.OP_AND.number, .BINARY_LAND)]
  | .InclusiveOrExpression => [(char '|', .BINARY_BIT_OR)]
  | .ExclusiveOrExpression => [(char '^', .BINARY_BIT_XOR)]
  | .AndExpression => [(char '&', .BINARY_BIT_AND)]
  | .EqualityExpression =>
    [(YYToken.OP_EQ.number, .BINARY_EQ), (YYToken.OP_NE.number, .BINARY_NEQ)]
  | .RelationExpression =>
    [(char '<', .BINARY_LT), (char '>', .BINARY_GT), (YYToken.OP_LE.number, .BINARY_LE),
      (YYToken.OP_GE.number, .BINARY_GE)]
  | .ShiftExpression =>
    [(YYToken.OP_LSHIFT.number, .BINARY_LSHIFT), (YYToken.OP_RSHIFT.number, .BINARY_RSHIFT)]
  | .AddExpression => [(char '+', .BINARY_ADD), (char '-', .BINARY_SUB)]
  | .MultipleExpression =>
    [(char '*', .BINARY_MULT), (char '/', .BINARY_DIV), (char '%', .BINARY_MOD),
      (YYToken.OP_POWER.number, .BINARY_POWER)]

def UnaryOp : List (Nat × UnaryOpKind) :=
  [(char '+', .UNARY_PLUS), (char '-', .UNARY_NEG), (char '~', .UNARY_BIT_NOT),
    (YYToken.OP_NOT.number, .UNARY_LNOT)]

/-- The atom of a token `ID` or `INT_LITERAL`. -/
def atom (token : Token) : Option Atom :=
  match token.value with
  | .SVal str => if token.number = YYToken.ID.number then some (.ID str) else none
  | .IVal ival => if token.number = YYToken.INT_LITERAL.number then some (.CONSTANT ival) else none
  | _ => none

/-- The operator that a token is in a list of productions. -/
def operator {β : Type} (productions : List (Nat × β)) (token : Token) : Option β :=
  productions.lookup token.number

/-- The operators of the nonterminal of a level. -/
def level_operators (n : Nat) : List (Nat × BinaryOpKind) :=
  (Nonterminal.all[n]?.map Nonterminal.operators).getD []

/-- The productions from `LogicOrExpression` down to identifiers, integers and
parentheses. -/
def grammar : Grammar Token Atom UnaryOpKind BinaryOpKind where
  levels := Nonterminal.all.length
  atom := atom
  unary := operator UnaryOp
  binary n := operator (level_operators n)
  lparen := ⟨char '(', .none⟩
  rparen := ⟨char ')', .none⟩

theorem mem_of_operator {β : Type} {productions : List (Nat × β)} {token : Token} {op : β}
    (h : operator productions token = some op) : (token.number, op) ∈ productions := by
  unfold operator at h
  induction productions with
  | nil => cases h
  | cons p productions ih =>
    obtain ⟨number, op'⟩ := p
    rw [List.lookup_cons] at h
    split at h
    · next heq =>
      obtain rfl := Option.some.inj h
      rw [show token.number = number by simpa using heq]
      exact List.mem_cons_self
    · exact List.mem_cons_of_mem _ (ih h)

theorem number_of_atom {token : Token} {a : Atom} (h : atom token = some a) :
    token.number = YYToken.ID.number ∨ token.number = YYToken.INT_LITERAL.number := by
  unfold atom at h
  split at h
  · split at h
    · next hnumber => exact Or.inl hnumber
    · cases h
  · split at h
    · next hnumber => exact Or.inr hnumber
    · cases h
  · cases h

/-- No token plays two parts in the grammar. -/
theorem grammar_separate : grammar.Separate where
  level_unique m n tok b c hm hn hb hc := by
    have hall : ∀ m < Nonterminal.all.length, ∀ n < Nonterminal.all.length,
        ∀ p ∈ level_operators m, ∀ q ∈ level_operators n, p.1 = q.1 → m = n := by decide
    exact hall m hm n hn _ (mem_of_operator hb) _ (mem_of_operator hc) rfl
  rparen_not_binary := by
    change ∀ n < Nonterminal.all.length, operator (level_operators n) ⟨char ')', .none⟩ = none
    decide
  unary_not_atom tok op hop := by
    have hall : ∀ p ∈ UnaryOp, p.1 ≠ YYToken.ID.number ∧ p.1 ≠ YYToken.INT_LITERAL.number := by
      decide
    obtain ⟨hid, hint⟩ := hall _ (mem_of_operator hop)
    change atom tok = none
    cases hatom : atom tok with
    | none => rfl
    | some a =>
      rcases number_of_atom hatom with hnumber | hnumber
      · exact absurd hnumber hid
      · exact absurd hnumber hint
  lparen_not_unary := by decide
  lparen_not_atom := rfl

end koala.syntax

open koala.lexer koala.parser precedence

namespace koala.syntax

set_option linter.style.nameCheck false

abbrev ExprSymbol := Symbol Atom UnaryOpKind BinaryOpKind

def unary_lexeme : UnaryOpKind → String
  | .UNARY_PLUS => "+"
  | .UNARY_NEG => "-"
  | .UNARY_BIT_NOT => "~"
  | .UNARY_LNOT => "!"

/-- `BINARY_QUOT` is the kind of no production and has no lexeme. -/
def binary_lexeme : BinaryOpKind → String
  | .BINARY_ADD => "+"
  | .BINARY_SUB => "-"
  | .BINARY_MULT => "*"
  | .BINARY_DIV => "/"
  | .BINARY_MOD => "%"
  | .BINARY_QUOT => ""
  | .BINARY_POWER => "**"
  | .BINARY_LSHIFT => "<<"
  | .BINARY_RSHIFT => ">>"
  | .BINARY_GT => ">"
  | .BINARY_GE => ">="
  | .BINARY_LT => "<"
  | .BINARY_LE => "<="
  | .BINARY_EQ => "=="
  | .BINARY_NEQ => "!="
  | .BINARY_BIT_AND => "&"
  | .BINARY_BIT_XOR => "^"
  | .BINARY_BIT_OR => "|"
  | .BINARY_LAND => "&&"
  | .BINARY_LOR => "||"

/-- The lexeme of a symbol in a source file. -/
def lexeme : ExprSymbol → List UInt8
  | .atom (.ID name) => name.bytes
  | .atom (.CONSTANT ival) => decimal_text ival.toNat
  | .unary op => text (unary_lexeme op)
  | .binary op => text (binary_lexeme op)
  | .lparen => text "("
  | .rparen => text ")"

/-- The nonterminal whose productions build an operator. -/
def level (op : BinaryOpKind) : Nat :=
  Nonterminal.all.findIdx fun nonterminal => nonterminal.operators.any fun p => p.2 = op

def printer : Printer BinaryOpKind where
  levels := Nonterminal.all.length
  level := level

def symbols (e : Expression) : List ExprSymbol := printer.print 0 e

/-- An expression in a source file: lexemes with spaces between them, and
parentheses where the levels of the grammar need them. -/
def print (e : Expression) : List UInt8 := spaced ((symbols e).map lexeme)

/-- The expressions that have a source text: names are identifiers, literals
are not negative and all operators have a lexeme. -/
def Source (e : Expression) : Prop :=
  e.All (fun a => match a with
    | .ID name => IsIdent name.bytes
    | .CONSTANT ival => ival.toNat < 2 ^ 63) (fun _ => True) (· ≠ .BINARY_QUOT)

/-- The token that the lexer returns for the lexeme of a symbol. -/
def token : ExprSymbol → Token
  | .atom (.ID name) => ⟨YYToken.ID.number, .SVal name⟩
  | .atom (.CONSTANT ival) =>
    ⟨YYToken.INT_LITERAL.number, .IVal ((atoi (decimal_text ival.toNat)).signExtend 64)⟩
  | .unary .UNARY_PLUS => ⟨char '+', .none⟩
  | .unary .UNARY_NEG => ⟨char '-', .none⟩
  | .unary .UNARY_BIT_NOT => ⟨char '~', .none⟩
  | .unary .UNARY_LNOT => ⟨YYToken.OP_NOT.number, .none⟩
  | .binary .BINARY_ADD => ⟨char '+', .none⟩
  | .binary .BINARY_SUB => ⟨char '-', .none⟩
  | .binary .BINARY_MULT => ⟨char '*', .none⟩
  | .binary .BINARY_DIV => ⟨char '/', .none⟩
  | .binary .BINARY_MOD => ⟨char '%', .none⟩
  | .binary .BINARY_QUOT => ⟨0, .none⟩
  | .binary .BINARY_POWER => ⟨POWER, .none⟩
  | .binary .BINARY_LSHIFT => ⟨YYToken.OP_LSHIFT.number, .none⟩
  | .binary .BINARY_RSHIFT => ⟨YYToken.OP_RSHIFT.number, .none⟩
  | .binary .BINARY_GT => ⟨char '>', .none⟩
  | .binary .BINARY_GE => ⟨YYToken.OP_GE.number, .none⟩
  | .binary .BINARY_LT => ⟨char '<', .none⟩
  | .binary .BINARY_LE => ⟨YYToken.OP_LE.number, .none⟩
  | .binary .BINARY_EQ => ⟨YYToken.OP_EQ.number, .none⟩
  | .binary .BINARY_NEQ => ⟨YYToken.OP_NE.number, .none⟩
  | .binary .BINARY_BIT_AND => ⟨char '&', .none⟩
  | .binary .BINARY_BIT_XOR => ⟨char '^', .none⟩
  | .binary .BINARY_BIT_OR => ⟨char '|', .none⟩
  | .binary .BINARY_LAND => ⟨YYToken.OP_AND.number, .none⟩
  | .binary .BINARY_LOR => ⟨YYToken.OP_OR.number, .none⟩
  | .lparen => ⟨char '(', .none⟩
  | .rparen => ⟨char ')', .none⟩

/-- A fixed word of two characters or more, or the exclamation mark. -/
theorem lexesAs_fixed {w : List UInt8} {number : Nat}
    (hfind : (words.find? fun p => text p.1 = w).map Prod.snd = some number)
    (hne : w ≠ []) (hhead : disjoint w.head?.toList white = true)
    (hopens : ∀ p ∈ openers, ¬ p <+: w) (hcharacter : w ∉ characters.map ([·])) :
    LexesAs w ⟨number, .none⟩ := by
  obtain ⟨p, hp, rfl⟩ := Option.map_eq_some_iff.mp hfind
  refine lexesAs_word hp (lexeme_of hne (fun c hc => ?_) hopens) fun c hc heq => ?_
  · exact not_mem_of_disjoint hhead (Option.mem_toList.mpr hc)
  · exact hcharacter (List.mem_map.mpr ⟨c, hc, heq.symm⟩)

theorem lexesAs_unary (op : UnaryOpKind) : LexesAs (lexeme (.unary op)) (token (.unary op)) := by
  cases op with
  | UNARY_LNOT =>
    exact lexesAs_fixed (by decide) (by decide) (by decide) (by decide) (by decide)
  | _ => exact lexesAs_character (by decide)

theorem lexesAs_binary {op : BinaryOpKind} (hop : op ≠ .BINARY_QUOT) :
    LexesAs (lexeme (.binary op)) (token (.binary op)) := by
  cases op with
  | BINARY_QUOT => exact absurd rfl hop
  | BINARY_ADD | BINARY_SUB | BINARY_MULT | BINARY_DIV | BINARY_MOD | BINARY_GT | BINARY_LT
  | BINARY_BIT_AND | BINARY_BIT_XOR | BINARY_BIT_OR => exact lexesAs_character (by decide)
  | _ => exact lexesAs_fixed (by decide) (by decide) (by decide) (by decide) (by decide)

/-- The lexer reads a print as the tokens of its symbols. -/
theorem yylex_print {e : Expression} (he : Source e) :
    yylex (print e) = some ((symbols e).map token) := by
  have hsymbols : ∀ s ∈ symbols e, LexesAs (lexeme s) (token s) := by
    refine Printer.mem_print (lexesAs_character (by decide)) (lexesAs_character (by decide)) ?_
    induction e with
    | atom a =>
      cases a with
      | ID name =>
        have hname := lexesAs_ident (w := name.bytes) he
        rwa [CString.ofData_bytes] at hname
      | CONSTANT ival => exact lexesAs_decimal ival.toNat
    | unary op e ih => exact ⟨lexesAs_unary op, ih he.2⟩
    | binary op l r ihl ihr => exact ⟨lexesAs_binary he.1, ihl he.2.1, ihr he.2.2⟩
  refine yylex_spaced ?_
  rw [List.forall₂_map_left_iff, List.forall₂_map_right_iff, List.forall₂_same]
  exact hsymbols

/-- The lexer accepts the text, and the only tree that the grammar has for its
tokens is `e`. -/
def Returns (input : List UInt8) (e : Expression) : Prop :=
  ∃ tokens, yylex input = some tokens ∧ Derives grammar 0 tokens e ∧
    ∀ e', Derives grammar 0 tokens e' → e' = e

/-- The grammar has at most one tree for any tokens. -/
theorem returns_iff {input : List UInt8} {e : Expression} :
    Returns input e ↔ ∃ tokens, yylex input = some tokens ∧ Derives grammar 0 tokens e := by
  constructor
  · rintro ⟨tokens, hlex, hderives, _⟩
    exact ⟨tokens, hlex, hderives⟩
  · rintro ⟨tokens, hlex, hderives⟩
    exact ⟨tokens, hlex, hderives, fun e' h =>
      h.unique grammar_separate (Nat.zero_le _) hderives⟩

/-- No operator is `**` and every literal is an `int`. -/
def Kept (e : Expression) : Prop :=
  e.All (fun a => ∀ ival, a = .CONSTANT ival → ival.toNat < 2 ^ 31) (fun _ => True)
    (· ≠ .BINARY_POWER)

theorem atoi_small {n : Nat} (h : n < 2 ^ 31) :
    ((atoi (decimal_text n)).signExtend 64).toNat = n := by
  have hatoi : atoi (decimal_text n) = BitVec.ofNat 32 n := by
    unfold atoi
    rw [digits_value_decimal, Nat.min_eq_left (by omega)]
  rw [hatoi, BitVec.signExtend_eq_setWidth_of_msb_false]
  · simp only [BitVec.toNat_setWidth, BitVec.toNat_ofNat]
    omega
  · rw [BitVec.msb_eq_decide, decide_eq_false_iff_not, BitVec.toNat_ofNat]
    omega

/-- The value of a literal is that of an `int`. -/
theorem atoi_range (v : BitVec 32) :
    (v.signExtend 64).toNat < 2 ^ 31 ∨ 2 ^ 63 ≤ (v.signExtend 64).toNat := by
  have hint := BitVec.toInt_signExtend_of_le (x := v) (show 32 ≤ 64 by decide)
  have hle := v.le_toInt
  have hlt := v.toInt_lt
  rw [BitVec.toInt_eq_toNat_cond] at hint
  split at hint
  · next hsmall =>
    left
    omega
  · next hbig =>
    right
    omega

/-- What the grammar derives from the tokens of a print has no `**`, and
literals that are `int`s. -/
theorem kept_of_derives {e e' : Expression} (he' : Source e')
    (h : Derives grammar 0 ((symbols e).map token) e') : Kept e' := by
  have hall : e'.All (fun a => ∀ ival, a = .CONSTANT ival →
      ival.toNat < 2 ^ 31 ∨ 2 ^ 63 ≤ ival.toNat) (fun _ => True) (· ≠ .BINARY_POWER) := by
    refine h.all (fun tok htok a hatom ival ha => ?_) (fun _ _ _ _ => trivial)
      fun tok htok m op hm hop => ?_
    · obtain ⟨s, _, rfl⟩ := List.mem_map.mp htok
      subst ha
      match s with
      | .atom (.CONSTANT v) =>
        obtain rfl : (atoi (decimal_text v.toNat)).signExtend 64 = ival := by
          simpa [grammar, atom, token] using hatom
        exact atoi_range _
      | .atom (.ID name) => simp [grammar, atom, token] at hatom
      | .unary op => cases op <;> cases hatom
      | .binary op => cases op <;> cases hatom
      | .lparen => cases hatom
      | .rparen => cases hatom
    · obtain ⟨s, _, rfl⟩ := List.mem_map.mp htok
      rintro rfl
      have hpower : ∀ m < Nonterminal.all.length, ∀ p ∈ level_operators m,
          p.2 = .BINARY_POWER → p.1 = YYToken.OP_POWER.number := by decide
      have hnumber := hpower m hm _ (mem_of_operator hop) rfl
      match s with
      | .atom (.CONSTANT v) => exact absurd hnumber (by decide : YYToken.INT_LITERAL.number ≠ _)
      | .atom (.ID name) => exact absurd hnumber (by decide : YYToken.ID.number ≠ _)
      | .unary op => cases op <;> exact absurd hnumber (by decide)
      | .binary op => cases op <;> exact absurd hnumber (by decide)
      | .lparen => exact absurd hnumber (by decide)
      | .rparen => exact absurd hnumber (by decide)
  clear h
  induction e' with
  | atom a =>
    intro ival ha
    rcases hall ival ha with hsmall | hbig
    · exact hsmall
    · subst ha
      have hsource : ival.toNat < 2 ^ 63 := he'
      omega
  | unary op e' ih => exact ⟨trivial, ih he'.2 hall.2⟩
  | binary op l r ihl ihr => exact ⟨hall.1, ihl he'.2.1 hall.2.1, ihr he'.2.2 hall.2.2⟩

/-- A kept expression is derived from the tokens of its print. -/
theorem derives_of_kept {e : Expression} (he : Source e) (hkept : Kept e) :
    Derives grammar 0 ((symbols e).map token) e := by
  refine Printer.derives_print (P := printer) rfl rfl rfl ?_ (Nat.zero_le _)
  induction e with
  | atom a =>
    cases a with
    | ID name => rfl
    | CONSTANT ival =>
      have hval : (atoi (decimal_text ival.toNat)).signExtend 64 = ival :=
        BitVec.eq_of_toNat_eq (atoi_small (hkept ival rfl))
      change atom ⟨YYToken.INT_LITERAL.number, .IVal _⟩ = _
      rw [hval]
      rfl
  | unary op e ih => exact ⟨by cases op <;> decide, ih he.2 hkept.2⟩
  | binary op l r ihl ihr =>
    refine ⟨?_, ihl he.2.1 hkept.2.1, ihr he.2.2 hkept.2.2⟩
    have hquot : op ≠ .BINARY_QUOT := he.1
    have hpower : op ≠ .BINARY_POWER := hkept.1
    cases op with
    | BINARY_QUOT => exact absurd rfl hquot
    | BINARY_POWER => exact absurd rfl hpower
    | _ => decide

/-- For every expression that has a source text: lexing and parsing its print
gives it back exactly when it has no `**` and its literals are below 2^31. The
lexer returns the opcode `POWER` for `**`, which is the token number of the
minus sign, and converts literals with `atoi`. -/
theorem returns_print_iff {e : Expression} (he : Source e) : Returns (print e) e ↔ Kept e := by
  rw [returns_iff, yylex_print he]
  constructor
  · rintro ⟨tokens, htokens, hderives⟩
    obtain rfl := Option.some.inj htokens
    exact kept_of_derives he hderives
  · intro hkept
    exact ⟨_, rfl, derives_of_kept he hkept⟩

section instances

def name_a : CString := ⟨text "a", by decide⟩

def name_b : CString := ⟨text "b", by decide⟩

theorem isIdent_name : IsIdent name_a.bytes ∧ IsIdent name_b.bytes :=
  ⟨⟨⟨_, [], rfl, by decide, by simp⟩, by decide⟩, ⟨⟨_, [], rfl, by decide, by simp⟩, by decide⟩⟩

/-- `- a * 2`. -/
def product : Expression :=
  .binary .BINARY_MULT (.unary .UNARY_NEG (.atom (.ID name_a))) (.atom (.CONSTANT 2))

theorem returns_print_iff_product : Returns (print product) product ↔ Kept product :=
  returns_print_iff ⟨by decide, ⟨trivial, isIdent_name.1⟩,
    show (2 : BitVec 64).toNat < 2 ^ 63 by decide⟩

/-- `a ** b`. -/
def power : Expression := .binary .BINARY_POWER (.atom (.ID name_a)) (.atom (.ID name_b))

/-- `a ** b` is read as `a - b`. -/
theorem returns_power : Returns (print power) (.binary .BINARY_SUB (.atom (.ID name_a))
    (.atom (.ID name_b))) := by
  have hsource : Source power := ⟨by decide, isIdent_name.1, isIdent_name.2⟩
  refine returns_iff.mpr ⟨_, yylex_print hsource, ?_⟩
  have hadd : Derives grammar 8 ((symbols power).map token) (.binary .BINARY_SUB
      (.atom (.ID name_a)) (.atom (.ID name_b))) := by
    refine @Derives.binary _ _ _ _ grammar 8 _ _ [token (.atom (.ID name_a))] _ _ _
      (by decide) (by decide) ?_ ?_
    · exact (Derives.atom rfl).loosen (by decide) (by decide)
    · exact (Derives.atom rfl).loosen (by decide) (by decide)
  exact hadd.loosen (by decide) (by decide)

theorem not_returns_print : ¬ ∀ e, Source e → Returns (print e) e := by
  intro h
  have hsource : Source power := ⟨by decide, isIdent_name.1, isIdent_name.2⟩
  obtain ⟨tokens, htokens, _, hunique⟩ := h power hsource
  obtain ⟨tokens', htokens', hsub, _⟩ := returns_power
  rw [htokens] at htokens'
  obtain rfl := Option.some.inj htokens'
  have heq := hunique _ hsub
  injection heq with hop
  cases hop

end instances

end koala.syntax
