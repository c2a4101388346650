import Koala.Bytes
import Koala.HashTable.Named
import Koala.Object.Klass

open koala.hashtable koala.typedesc
open koala.object (LRONode)

namespace koala.members

set_option linter.style.nameCheck false

/-- A code object at some address. That of a function of the language has constants. -/
structure CodeObject where
  addr : Nat
  name : CString
  proto : ProtoDesc
  kcode : Bool
  consts : Option Nat

/-- A class or a trait at some address. -/
structure KlassRef where
  addr : Nat
  name : CString

/-- What a member node has beside its name. Values are addresses of objects. -/
inductive Member where
  | CONST_KIND (desc : TypeDesc) (value : Option Nat)
  | VAR_KIND (desc : TypeDesc) (offset : Nat)
  | FUNC_KIND (code : CodeObject)
  | PROTO_KIND (proto : TypeDesc)
  | CLASS_KIND (klazz : KlassRef)
  | TRAIT_KIND (klazz : KlassRef)

structure MNode where
  name : CString
  member : Member

def Find_MNode (mtbl : Buckets MNode) (name : CString) : Option MNode :=
  mtbl.get MNode.name hash_string name

/-- `HashTable_Insert`, whose result is not looked at. -/
def HashTable_Insert (mtbl : Buckets MNode) (m : MNode) : Buckets MNode :=
  mtbl.put MNode.name hash_string m

structure Package where
  name : CString
  mtbl : Buckets MNode
  nrvars : Nat
  consts : Option Nat

structure Klass where
  name : CString
  mtbl : Buckets MNode
  nrvars : Nat
  totalvars : Nat
  lro : List LRONode
  consts : Option Nat

/-- `OB_INCREF` reads what it is given. -/
def OB_INCREF (ob : Option Nat) : Res Unit :=
  match ob with
  | none => .error .null
  | some _ => .ok ()

def Pkg_Add_Const (pkg : Package) (name : CString) (desc : TypeDesc) (val : Option Nat) :
    Res (Int × Package) := do
  OB_INCREF val
  .ok (0, { pkg with mtbl := HashTable_Insert pkg.mtbl ⟨name, .CONST_KIND desc val⟩ })

def Pkg_Add_Var (pkg : Package) (name : CString) (desc : TypeDesc) : Res (Int × Package) :=
  .ok (0, { pkg with
    mtbl := HashTable_Insert pkg.mtbl ⟨name, .VAR_KIND desc pkg.nrvars⟩
    nrvars := pkg.nrvars + 1 })

/-- The code of a function of the language shares the constants of the package. -/
def Pkg_Add_Func (pkg : Package) (code : CodeObject) : Res (Int × Package) :=
  if code.kcode then do
    OB_INCREF pkg.consts
    let code := { code with consts := pkg.consts }
    .ok (0, { pkg with mtbl := HashTable_Insert pkg.mtbl ⟨code.name, .FUNC_KIND code⟩ })
  else .ok (0, { pkg with mtbl := HashTable_Insert pkg.mtbl ⟨code.name, .FUNC_KIND code⟩ })

def klass_kind (klazz : KlassRef) (trait : Bool) : Member :=
  if trait then .TRAIT_KIND klazz else .CLASS_KIND klazz

def Pkg_Add_Klass (pkg : Package) (klazz : KlassRef) (trait : Bool) : Res (Int × Package) :=
  .ok (0, { pkg with mtbl := HashTable_Insert pkg.mtbl ⟨klazz.name, klass_kind klazz trait⟩ })

def Klass_Add_Field (klazz : Klass) (name : CString) (desc : TypeDesc) : Res (Int × Klass) :=
  .ok (0, { klazz with
    mtbl := HashTable_Insert klazz.mtbl ⟨name, .VAR_KIND desc klazz.nrvars⟩
    nrvars := klazz.nrvars + 1
    totalvars := klazz.totalvars + 1 })

def Klass_Add_Method (klazz : Klass) (code : CodeObject) : Res (Int × Klass) :=
  let code' := if code.kcode then { code with consts := klazz.consts } else code
  .ok (0, { klazz with mtbl := HashTable_Insert klazz.mtbl ⟨code.name, .FUNC_KIND code'⟩ })

def Klass_Add_Proto (klazz : Klass) (name : CString) (proto : TypeDesc) : Res (Int × Klass) :=
  .ok (0, { klazz with mtbl := HashTable_Insert klazz.mtbl ⟨name, .PROTO_KIND proto⟩ })

section calls

/-- A package and a class. -/
structure State where
  pkg : Package
  klazz : Klass

inductive Call where
  | Pkg_Add_Const (name : CString) (desc : TypeDesc) (val : Option Nat)
  | Pkg_Add_Var (name : CString) (desc : TypeDesc)
  | Pkg_Add_Func (code : CodeObject)
  | Pkg_Add_Klass (klazz : KlassRef) (trait : Bool)
  | Klass_Add_Field (name : CString) (desc : TypeDesc)
  | Klass_Add_Method (code : CodeObject)
  | Klass_Add_Proto (name : CString) (proto : TypeDesc)

def State.on_pkg (st : State) (f : Package → Res (Int × Package)) : Res (Int × State) := do
  let (res, pkg) ← f st.pkg
  .ok (res, { st with pkg })

def State.on_klazz (st : State) (f : Klass → Res (Int × Klass)) : Res (Int × State) := do
  let (res, klazz) ← f st.klazz
  .ok (res, { st with klazz })

def Call.run (st : State) : Call → Res (Int × State)
  | .Pkg_Add_Const name desc val => st.on_pkg fun pkg => members.Pkg_Add_Const pkg name desc val
  | .Pkg_Add_Var name desc => st.on_pkg fun pkg => members.Pkg_Add_Var pkg name desc
  | .Pkg_Add_Func code => st.on_pkg fun pkg => members.Pkg_Add_Func pkg code
  | .Pkg_Add_Klass klazz trait => st.on_pkg fun pkg => members.Pkg_Add_Klass pkg klazz trait
  | .Klass_Add_Field name desc => st.on_klazz fun k => members.Klass_Add_Field k name desc
  | .Klass_Add_Method code => st.on_klazz fun k => members.Klass_Add_Method k code
  | .Klass_Add_Proto name proto => st.on_klazz fun k => members.Klass_Add_Proto k name proto

/-- The call is one on the class. -/
def Call.on_klazz : Call → Bool
  | .Klass_Add_Field .. | .Klass_Add_Method .. | .Klass_Add_Proto .. => true
  | _ => false

/-- The table that a call adds to. -/
def Call.mtbl (call : Call) (st : State) : Buckets MNode :=
  if call.on_klazz then st.klazz.mtbl else st.pkg.mtbl

/-- The member that a call is about. -/
def Call.mnode (st : State) : Call → MNode
  | .Pkg_Add_Const name desc val => ⟨name, .CONST_KIND desc val⟩
  | .Pkg_Add_Var name desc => ⟨name, .VAR_KIND desc st.pkg.nrvars⟩
  | .Pkg_Add_Func code =>
    ⟨code.name, .FUNC_KIND (if code.kcode then { code with consts := st.pkg.consts } else code)⟩
  | .Pkg_Add_Klass klazz trait => ⟨klazz.name, klass_kind klazz trait⟩
  | .Klass_Add_Field name desc => ⟨name, .VAR_KIND desc st.klazz.nrvars⟩
  | .Klass_Add_Method code =>
    ⟨code.name, .FUNC_KIND (if code.kcode then { code with consts := st.klazz.consts } else code)⟩
  | .Klass_Add_Proto name proto => ⟨name, .PROTO_KIND proto⟩

/-- The constant is an object, and so are the constants of a package that gets code of the
language. -/
def Call.Given (st : State) : Call → Prop
  | .Pkg_Add_Const _ _ val => val ≠ none
  | .Pkg_Add_Func code => code.kcode → st.pkg.consts ≠ none
  | _ => True

/-- A package and a class without members. -/
def State.Empty (st : State) : Prop :=
  st.pkg.mtbl = Buckets.init ∧ st.pkg.nrvars = 0 ∧ st.klazz.mtbl = Buckets.init ∧
    st.klazz.nrvars = 0

/-- The states that calls lead to. -/
inductive Reachable : State → Prop where
  | empty {st : State} (h : st.Empty) : Reachable st
  | call {st st' : State} {call : Call} {res : Int} (h : Reachable st)
    (hcall : call.run st = .ok (res, st')) : Reachable st'

/-- The name of the member is not taken. -/
def Call.Free (call : Call) (st : State) : Prop :=
  Find_MNode (call.mtbl st) (call.mnode st).name = none

/-- A call returns 0 exactly when the name was free and is found with the new member afterwards, and
else returns -1 and changes no member and no count. -/
def AddsHonestly (st : State) (call : Call) : Prop :=
  ∃ res st', call.run st = .ok (res, st') ∧
    (res = 0 ↔ call.Free st ∧
      Find_MNode (call.mtbl st') (call.mnode st).name = some (call.mnode st)) ∧
    (res ≠ 0 → res = -1 ∧ call.mtbl st' = call.mtbl st ∧ st'.pkg.nrvars = st.pkg.nrvars ∧
      st'.klazz.nrvars = st.klazz.nrvars ∧ st'.klazz.totalvars = st.klazz.totalvars)

end calls

section proofs

variable {st st' : State} {call : Call}

/-- A call inserts its member and returns 0, unless it reads through a NULL. -/
theorem Call.run_given (h : call.Given st) :
    ∃ st', call.run st = .ok (0, st') ∧
      call.mtbl st' = HashTable_Insert (call.mtbl st) (call.mnode st) ∧
      (if call.on_klazz then st'.pkg.mtbl = st.pkg.mtbl else st'.klazz.mtbl = st.klazz.mtbl) := by
  cases call with
  | Pkg_Add_Const name desc val =>
    obtain ⟨ob, rfl⟩ := Option.ne_none_iff_exists'.mp h
    exact ⟨_, rfl, rfl, rfl⟩
  | Pkg_Add_Func code =>
    cases hkcode : code.kcode with
    | false =>
      refine ⟨⟨⟨st.pkg.name, HashTable_Insert st.pkg.mtbl ⟨code.name, .FUNC_KIND code⟩,
        st.pkg.nrvars, st.pkg.consts⟩, st.klazz⟩, ?_, ?_, rfl⟩
      · simp [Call.run, State.on_pkg, members.Pkg_Add_Func, hkcode]
      · simp [Call.mtbl, Call.on_klazz, Call.mnode, hkcode]
    | true =>
      obtain ⟨consts, hconsts⟩ := Option.ne_none_iff_exists'.mp (h hkcode)
      refine ⟨⟨⟨st.pkg.name, HashTable_Insert st.pkg.mtbl
        ⟨code.name, .FUNC_KIND { code with consts := st.pkg.consts }⟩,
        st.pkg.nrvars, st.pkg.consts⟩, st.klazz⟩, ?_, ?_, rfl⟩
      · simp [Call.run, State.on_pkg, members.Pkg_Add_Func, hkcode, hconsts, OB_INCREF]
      · simp [Call.mtbl, Call.on_klazz, Call.mnode, hkcode]
  | _ => exact ⟨_, rfl, rfl, rfl⟩

/-- A call that reads through a NULL does not return. -/
theorem Call.run_not_given (h : ¬ call.Given st) : call.run st = .error .null := by
  cases call with
  | Pkg_Add_Const name desc val =>
    obtain rfl : val = none := not_not.mp h
    rfl
  | Pkg_Add_Func code =>
    obtain ⟨hkcode, hconsts⟩ := Classical.not_imp.mp h
    have hnone : st.pkg.consts = none := not_not.mp hconsts
    simp [Call.run, State.on_pkg, members.Pkg_Add_Func, hkcode, hnone, OB_INCREF]
  | _ => exact absurd trivial h

/-- What holds of the tables in every state. -/
structure Tables (st : State) : Prop where
  pkg : st.pkg.mtbl.Named MNode.name hash_string
  klazz : st.klazz.mtbl.Named MNode.name hash_string

theorem Tables.mtbl (h : Tables st) (call : Call) :
    (call.mtbl st).Named MNode.name hash_string := by
  rw [Call.mtbl]
  split
  · exact h.klazz
  · exact h.pkg

theorem Tables.run (h : Tables st) {res : Int} (hrun : call.run st = .ok (res, st')) :
    Tables st' := by
  by_cases hgiven : call.Given st
  · obtain ⟨st₁, hrun₁, hmtbl, hother⟩ := Call.run_given hgiven
    cases hrun₁.symm.trans hrun
    have hput := (h.mtbl call).put (call.mnode st)
    rw [HashTable_Insert] at hmtbl
    rw [← hmtbl] at hput
    cases hk : call.on_klazz with
    | true =>
      rw [Call.mtbl, hk] at hput
      rw [hk] at hother
      exact ⟨hother ▸ h.pkg, hput⟩
    | false =>
      rw [Call.mtbl, hk] at hput
      rw [hk] at hother
      exact ⟨hput, hother ▸ h.klazz⟩
  · rw [Call.run_not_given hgiven] at hrun
    cases hrun

theorem Reachable.tables (h : Reachable st) : Tables st := by
  induction h with
  | empty h =>
    obtain ⟨hpkg, _, hklazz, _⟩ := h
    exact ⟨hpkg ▸ Buckets.named_init, hklazz ▸ Buckets.named_init⟩
  | call _ hcall ih => exact ih.run hcall

/-- A call is honest where the name is free and what it reads is there, and only there. -/
theorem Reachable.adds_honestly_iff (h : Reachable st) (call : Call) :
    AddsHonestly st call ↔ call.Free st ∧ call.Given st := by
  constructor
  · rintro ⟨res, st', hrun, hzero, hrest⟩
    by_cases hgiven : call.Given st
    · obtain ⟨st₁, hrun₁, _⟩ := Call.run_given hgiven
      cases hrun₁.symm.trans hrun
      exact ⟨(hzero.mp rfl).1, hgiven⟩
    · rw [Call.run_not_given hgiven] at hrun
      cases hrun
  · rintro ⟨hfree, hgiven⟩
    obtain ⟨st', hrun, hmtbl, _⟩ := Call.run_given hgiven
    have hfound : Find_MNode (call.mtbl st') (call.mnode st).name = some (call.mnode st) := by
      rw [hmtbl, HashTable_Insert, Find_MNode, (h.tables.mtbl call).get_put]
      exact if_pos ⟨hfree, rfl⟩
    exact ⟨0, st', hrun, iff_of_true rfl ⟨hfree, hfound⟩, fun hne => absurd rfl hne⟩

end proofs

section instances

def x : CString := ⟨['x'.toUInt8], by decide⟩

/-- A package and a class without members, and without constants. -/
def empty : State :=
  ⟨⟨x, Buckets.init, 0, none⟩, ⟨x, Buckets.init, 0, 0, [], none⟩⟩

/-- The class with the field `x`. -/
def field_x : State :=
  { empty with klazz := { empty.klazz with
    mtbl := HashTable_Insert Buckets.init ⟨x, .VAR_KIND (.base .BASE_INT) 0⟩
    nrvars := 1
    totalvars := 1 } }

theorem reachable_empty : Reachable empty := .empty ⟨rfl, rfl, rfl, rfl⟩

theorem reachable_field_x : Reachable field_x :=
  @Reachable.call empty field_x (.Klass_Add_Field x (.base .BASE_INT)) 0 reachable_empty rfl

theorem adds_honestly_iff_variable : AddsHonestly field_x (.Pkg_Add_Var x (.base .BASE_INT)) :=
  (reachable_field_x.adds_honestly_iff _).mpr ⟨rfl, trivial⟩

/-- The field `x` is added twice. -/
theorem not_adds_honestly : Reachable field_x ∧
    ¬ AddsHonestly field_x (.Klass_Add_Field x (.base .BASE_STRING)) := by
  refine ⟨reachable_field_x, ?_⟩
  rintro ⟨res, st', hrun, hzero, _⟩
  cases hrun
  have hfree := (hzero.mp rfl).1
  cases hfree

end instances

end koala.members
