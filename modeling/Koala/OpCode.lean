import Koala.Basic

namespace koala

set_option linter.style.nameCheck false

/-- The opcodes that code is generated for or that the interpreter knows. -/
inductive OpCode where
  | POP_TOP
  | POP_TOPN
  | LOAD_CONST
  | LOAD_PKG
  | LOAD
  | LOAD_0
  | STORE
  | LOAD_FIELD
  | STORE_FIELD
  | CALL
  | RETURN
  | ADD
  | SUB
  | MUL
  | DIV
  | MOD
  | NEG
  | GT
  | GE
  | LT
  | LE
  | EQ
  | NEQ
  | JMP
  | JMP_TRUE
  | JMP_FALSE
  | NEW
  | NEW_ARRAY
  deriving DecidableEq, Repr

namespace OpCode

def number : OpCode → UInt8
  | POP_TOP => 1
  | POP_TOPN => 2
  | LOAD_CONST => 10
  | LOAD_PKG => 11
  | LOAD => 12
  | LOAD_0 => 13
  | STORE => 17
  | LOAD_FIELD => 22
  | STORE_FIELD => 23
  | CALL => 24
  | RETURN => 25
  | ADD => 40
  | SUB => 41
  | MUL => 42
  | DIV => 43
  | MOD => 44
  | NEG => 46
  | GT => 47
  | GE => 48
  | LT => 49
  | LE => 50
  | EQ => 51
  | NEQ => 52
  | JMP => 70
  | JMP_TRUE => 71
  | JMP_FALSE => 72
  | NEW => 90
  | NEW_ARRAY => 91

def all : List OpCode :=
  [POP_TOP, POP_TOPN, LOAD_CONST, LOAD_PKG, LOAD, LOAD_0, STORE, LOAD_FIELD, STORE_FIELD, CALL,
    RETURN, ADD, SUB, MUL, DIV, MOD, NEG, GT, GE, LT, LE, EQ, NEQ, JMP, JMP_TRUE, JMP_FALSE, NEW,
    NEW_ARRAY]

def ofNumber (n : UInt8) : Option OpCode := all.find? fun op => op.number = n

theorem ofNumber_number (op : OpCode) : ofNumber op.number = some op := by
  cases op <;> rfl

end OpCode

end koala
