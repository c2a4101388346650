import Koala.Eval.Fetch
import Koala.Object.Strings

open koala.eval (Objects CodeObject CodeInfo CallFrame KoalaState)

namespace koala.program

set_option linter.style.nameCheck false

/-- Packages and strings at their addresses, and tuples with their items. -/
inductive Object where
  | package (addr : Nat)
  | string (ob : Nat)
  | tuple (items : List (Option Object))

def Object.items : Object → Option (List (Option Object))
  | .tuple items => some items
  | _ => none

/-- A package with its functions `__init__` and `main`. -/
structure Package where
  addr : Nat
  init : CodeObject Object
  main : CodeObject Object

/-- `main` is about to run its first instruction: the strings, its frame, and the references that
were taken for its slots. -/
structure Started where
  strings : strings.State
  frame : CallFrame Object
  held : List Nat

def Tuple_New (size : Nat) : List (Option Nat) := List.replicate size none

/-- The old item is released before the new one is retained. -/
def Tuple_Set (st : strings.State) (items : List (Option Nat)) (index : Nat) (val : Nat) :
    Res (Int × strings.State × List (Option Nat)) :=
  if index < items.length then do
    let st ← match items[index]?.join with
      | none => .ok st
      | some old => strings.OB_DECREF st old
    let st ← strings.OB_INCREF st val
    .ok (0, st, items.set index (some val))
  else .ok (-1, st, items)

/-- The loop that copies the arguments into a tuple. `i` stays as it is. -/
def copy_args (args : List CString) (i : Nat) :
    Nat → strings.State × List (Option Nat) → Res (strings.State × List (Option Nat))
  | 0, _ => .error .fuel
  | fuel + 1, (st, items) =>
    if i < args.length then do
      let (ob, st) ← strings.String_New st (args[i]?.getD (.ofData []))
      let (_, st, items) ← Tuple_Set st items (i - 1) ob
      copy_args args i fuel (st, items)
    else .ok (st, items)

/-- The tuple of the arguments, if there are any behind the package. -/
def args_tuple (fuel : Nat) (args : List CString) (st : strings.State) :
    Res (strings.State × Option (List (Option Nat))) :=
  if args.length > 1 then do
    let (st, items) ← copy_args args 1 fuel (st, Tuple_New (args.length - 1))
    .ok (st, some items)
  else .ok (st, none)

/-- `OB_INCREF` on the items that go to the slots. -/
def take_references (st : strings.State) : List (Option Nat) → Res (strings.State × List Nat)
  | [] => .ok (st, [])
  | none :: _ => .error .null
  | some ob :: items => do
    let st ← strings.OB_INCREF st ob
    let (st, held) ← take_references st items
    .ok (st, ob :: held)

section

variable (load_field : Object → Option Object → Res (Option Object))
  (Koala_Get_Package : CString → Option Package)

abbrev objects : Objects Object := ⟨Object.items, load_field⟩

/-- `Koala_Main`, until `main` runs. Nothing runs where the package cannot be opened. -/
def Koala_Main (fuel : Nat) (args : List CString) (st : strings.State) : Res (Option Started) :=
  match args[0]? with
  | none => .error .null
  | some path =>
    match Koala_Get_Package path with
    | none => .ok none
    | some pkg => do
      let ks ← @koala.eval.Koala_RunCode Object (objects load_field) fuel pkg.init
        (some (.package pkg.addr)) none KoalaState.init
      let (st, items) ← args_tuple fuel args st
      let ks ← koala.eval.push_frame pkg.main (some (.package pkg.addr))
        (items.map fun items => .tuple (items.map (·.map Object.string))) ks
      match ks.frame with
      | [] => .error .null
      | cf :: _ => do
        let frame ← @koala.eval.prepare_frame Object (objects load_field) cf
        let (strings, held) ← take_references st (items.getD [])
        .ok (some ⟨strings, frame, held⟩)

/-- The arguments are in the slots of `main`, each with a reference. -/
def ArgsReachMain (args : List CString) (st : strings.State) : Prop :=
  ∃ fuel s, Koala_Main load_field Koala_Get_Package fuel args st = .ok (some s) ∧
    ∀ (k : Nat) (str : CString), args[k + 1]? = some str →
      ∃ ob, s.frame.locvars (k + 1) = some (.string ob) ∧ s.strings.str ob = str ∧
        s.held[k]? = some ob

/-- A package that runs: it can be opened, its `__init__` returns, and its `main` is code of the
language with not more parameters than there are arguments. -/
structure Runs (args : List CString) (pkg : Package) : Prop where
  opened : ∃ path, args[0]? = some path ∧ Koala_Get_Package path = some pkg
  initialized : ∃ fuel ks, @koala.eval.Koala_RunCode Object (objects load_field) fuel pkg.init
    (some (.package pkg.addr)) none KoalaState.init = .ok ks
  kcode : ∃ codeinfo, pkg.main.kind = .KCODE_KIND codeinfo
  argc : koala.eval.Code_Get_Argc pkg.main ≤ args.length - 1

end

/-- The copying does not end while there is an argument left. -/
theorem copy_args_ne_ok {args : List CString} {i : Nat} (h : i < args.length) (fuel : Nat)
    (s r : strings.State × List (Option Nat)) : copy_args args i fuel s ≠ .ok r := by
  induction fuel generalizing s with
  | zero => exact fun heq => nomatch heq
  | succ fuel ih =>
    obtain ⟨st, items⟩ := s
    rw [copy_args, if_pos h]
    intro heq
    obtain ⟨⟨ob, st₁⟩, _, heq⟩ := bind_eq_ok_iff.mp heq
    obtain ⟨⟨_, st₂, items₂⟩, _, heq⟩ := bind_eq_ok_iff.mp heq
    exact ih _ heq

section proofs

variable {load_field : Object → Option Object → Res (Option Object)}
  {Koala_Get_Package : CString → Option Package} {args : List CString} {pkg : Package}

end proofs

section instances

/-- A package whose functions return at once. -/
def returns : CodeObject Object := ⟨⟨[], []⟩, .KCODE_KIND ⟨none, [], [OpCode.RETURN.number]⟩⟩

def no_fields (_ : Object) (_ : Option Object) : Res (Option Object) := .error .null

def found (_ : CString) : Option Package := some ⟨0, returns, returns⟩

theorem runs_returns {path : CString} (rest : List CString) :
    Runs no_fields found (path :: rest) ⟨0, returns, returns⟩ where
  opened := ⟨path, rfl, rfl⟩
  initialized := ⟨2, _, rfl⟩
  kcode := ⟨_, rfl⟩
  argc := Nat.zero_le _

def path : CString := ⟨"a".toList.map Char.toUInt8, by decide⟩

end instances

end koala.program
