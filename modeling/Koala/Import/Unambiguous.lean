import Koala.Parser.State

open koala.parser (Position STable Symbol MAX_ERRORS deref)

namespace koala.imports

set_option linter.style.nameCheck false

/-- A package that was compiled or loaded, with its symbols in the order of their
table. -/
structure Package where
  path : CString
  pkgname : Option CString
  stbl : STable Symbol

structure Import where
  id : Option CString
  idpos : Position
  path : CString
  pathpos : Position

/-- A name that stands for a package. -/
structure PkgSymbol where
  name : CString
  pkg : Package
  filename : CString
  pos : Position

/-- A name that stands for a symbol of another package. -/
structure RefSymbol where
  name : CString
  sym : Symbol
  path : CString
  filename : CString
  pos : Position

inductive Message where
  | redeclared_during_import (name path filename : CString) (pos : Position)
  | redeclared_during_imports (name path other filename : CString) (pos : Position)
  | redeclared_dot (name path filename : CString) (pos : Position)
  | redeclared_package (name filename : CString) (pos : Position)

def Message.format : Message → String
  | .redeclared_during_import .. =>
    "'%s' redeclared during import '%s',\n\tprevious declaration at %s:%d:%d"
  | .redeclared_during_imports .. =>
    "'%s' redeclared during import '%s',\n" ++
      "\tprevious declaration during import '%s' at %s:%d:%d"
  | .redeclared_dot .. =>
    "'%s' redeclared as imported package name,\n" ++
      "\tprevious declaration during import '%s' at %s:%d:%d"
  | .redeclared_package .. =>
    "'%s' redeclared as imported package name,\n\tprevious declaration at %s:%d:%d"

structure SyntaxError where
  pos : Position
  msg : Message

/-- What the imports of a module work on. The errors reported before are counted
only. -/
structure ParserState where
  filename : CString
  extstbl : STable PkgSymbol
  extdots : STable RefSymbol
  earlier : Nat
  errors : List SyntaxError

def ParserState.errnum (ps : ParserState) : Nat := ps.earlier + ps.errors.length

def STable_New {σ : Type} : STable σ := ⟨[], 0⟩

/-- The parser of a file when its imports are read, after some errors. -/
def New_Parser (filename : CString) (earlier : Nat) : ParserState :=
  ⟨filename, STable_New, STable_New, earlier, []⟩

def Syntax_Error (ps : ParserState) (pos : Position) (msg : Message) : ParserState :=
  { ps with errors := ps.errors ++ [⟨pos, msg⟩] }

section tables

variable {σ : Type} (key : σ → CString)

def STable_Get (stbl : STable σ) (name : CString) : Option σ :=
  stbl.symbols.find? fun sym => key sym = name

/-- The table with the symbol, unless there is one of its name. -/
def HashTable_Insert (stbl : STable σ) (sym : σ) : Option (STable σ) :=
  match STable_Get key stbl (key sym) with
  | some _ => none
  | none => some { stbl with symbols := stbl.symbols ++ [sym] }

end tables

def __in_extstbl (ps : ParserState) (name : CString) : Option PkgSymbol :=
  STable_Get PkgSymbol.name ps.extstbl name

def __is_inextdots (ps : ParserState) (name : CString) : Option RefSymbol :=
  STable_Get RefSymbol.name ps.extdots name

/-- A symbol of a package whose symbols are all imported. -/
def load_dotsym_func (path : CString) (pos : Position) (ps : ParserState) (sym : Symbol) :
    ParserState :=
  if ps.errnum > MAX_ERRORS then ps
  else
    match __in_extstbl ps sym.name with
    | some pkgSym =>
      Syntax_Error ps pos
        (.redeclared_during_import sym.name path pkgSym.filename pkgSym.pos)
    | none =>
      match HashTable_Insert RefSymbol.name ps.extdots
        ⟨sym.name, sym, path, ps.filename, pos⟩ with
      | some extdots => { ps with extdots }
      | none =>
        match __is_inextdots ps sym.name with
        | some dot =>
          Syntax_Error ps pos
            (.redeclared_during_imports sym.name path dot.path dot.filename dot.pos)
        -- a name that cannot be added is there
        | none => ps

/-- The branch of `Parse_Imports` for an import under a name. -/
def add_package (pkg : Package) (name : CString) (ps : ParserState) (import_ : Import) :
    ParserState :=
  match __is_inextdots ps name with
  | some dot =>
    Syntax_Error ps import_.pathpos (.redeclared_dot name dot.path dot.filename dot.pos)
  | none =>
    let pos := if import_.id = none then import_.pathpos else import_.idpos
    match HashTable_Insert PkgSymbol.name ps.extstbl ⟨name, pkg, ps.filename, pos⟩ with
    | some extstbl => { ps with extstbl }
    | none =>
      match __in_extstbl ps name with
      | some sym =>
        Syntax_Error ps import_.pathpos (.redeclared_package name sym.filename sym.pos)
      -- a name that cannot be added is there
      | none => ps

def Find_Package (packages : List Package) (path : CString) : Option Package :=
  packages.find? fun pkg => pkg.path = path

/-- The name of an import; that of the package where none is given. -/
def Import.name (import_ : Import) (pkg : Package) : Res CString :=
  match import_.id with
  | none => deref pkg.pkgname
  | some id => .ok id

/-- A name that starts with a dot imports all symbols. -/
def is_dot (name : CString) : Bool := name.bytes.head? = some 0x2e

def Parse_Imports (packages : List Package) : List Import → ParserState → Res ParserState
  | [], ps => .ok ps
  | import_ :: imports, ps =>
    match Find_Package packages import_.path with
    | none => .error .assertion
    | some pkg => do
      let name ← import_.name pkg
      let ps :=
        if is_dot name then
          pkg.stbl.symbols.foldl (load_dotsym_func import_.path import_.pathpos) ps
        else add_package pkg name ps import_
      Parse_Imports packages imports ps

end koala.imports

open koala.parser (Position STable Symbol MAX_ERRORS deref)

namespace koala.imports

set_option linter.style.nameCheck false

/-- A name that an import brings: that of a package, or of one of its symbols. -/
inductive Introduction where
  | package (import_ : Import) (pkg : Package) (name : CString)
  | symbol (path : CString) (pos : Position) (sym : Symbol)

namespace Introduction

def name : Introduction → CString
  | .package _ _ name => name
  | .symbol _ _ sym => sym.name

/-- Where the import stands. -/
def pos : Introduction → Position
  | .package import_ _ _ => import_.pathpos
  | .symbol _ pos _ => pos

/-- The entry for the name of a package. -/
def pkgSymbol (filename : CString) : Introduction → Option PkgSymbol
  | .package import_ pkg name =>
    some ⟨name, pkg, filename, if import_.id = none then import_.pathpos else import_.idpos⟩
  | .symbol _ _ _ => none

/-- The entry for the name of a symbol. -/
def refSymbol (filename : CString) : Introduction → Option RefSymbol
  | .package _ _ _ => none
  | .symbol path pos sym => some ⟨sym.name, sym, path, filename, pos⟩

/-- The symbols of packages are no longer imported after too many errors. -/
def Skipped (ps : ParserState) : Introduction → Prop
  | .package _ _ _ => False
  | .symbol _ _ _ => ps.errnum > MAX_ERRORS

instance (ps : ParserState) (i : Introduction) : Decidable (i.Skipped ps) := by
  cases i
  · exact inferInstanceAs (Decidable False)
  · exact inferInstanceAs (Decidable (_ > _))

end Introduction

def introduce (ps : ParserState) : Introduction → ParserState
  | .package import_ pkg name => add_package pkg name ps import_
  | .symbol path pos sym => load_dotsym_func path pos ps sym

/-- The names that one import brings. -/
def Import.introductions (packages : List Package) (import_ : Import) : List Introduction :=
  match Find_Package packages import_.path with
  | none => []
  | some pkg =>
    match import_.name pkg with
    | .error _ => []
    | .ok name =>
      if is_dot name then pkg.stbl.symbols.map (.symbol import_.path import_.pathpos)
      else [.package import_ pkg name]

/-- The names that the imports bring, in their order and that of the tables. -/
def introductions (packages : List Package) (imports : List Import) : List Introduction :=
  imports.flatMap (Import.introductions packages)

/-- Those of the names that are not skipped. -/
def made : ParserState → List Introduction → List Introduction
  | _, [] => []
  | ps, i :: is =>
    if i.Skipped ps then made (introduce ps i) is else i :: made (introduce ps i) is

/-- The package of the import is there, and has a name if the import gives none. -/
def Import.Found (packages : List Package) (import_ : Import) : Prop :=
  ∃ pkg, Find_Package packages import_.path = some pkg ∧
    (import_.id = none → ∃ name, pkg.pkgname = some name)

section run

variable {packages : List Package} {ps : ParserState}

theorem Import.Found.name_ok {import_ : Import} (h : import_.Found packages) :
    ∃ pkg name, Find_Package packages import_.path = some pkg ∧ import_.name pkg = .ok name := by
  obtain ⟨pkg, hpkg, hname⟩ := h
  unfold Import.name
  cases hid : import_.id with
  | none =>
    obtain ⟨name, hname⟩ := hname hid
    exact ⟨pkg, name, hpkg, by rw [hname]; rfl⟩
  | some id => exact ⟨pkg, id, hpkg, rfl⟩

/-- The imports are read by introducing their names one after the other. -/
theorem Parse_Imports_eq {imports : List Import} (hfound : ∀ i ∈ imports, i.Found packages) :
    Parse_Imports packages imports ps =
      .ok ((introductions packages imports).foldl introduce ps) := by
  induction imports generalizing ps with
  | nil => rfl
  | cons import_ imports ih =>
    obtain ⟨himport, himports⟩ := List.forall_mem_cons.mp hfound
    obtain ⟨pkg, name, hpkg, hname⟩ := himport.name_ok
    have hhere : (import_.introductions packages).foldl introduce ps =
        if is_dot name then
          pkg.stbl.symbols.foldl (load_dotsym_func import_.path import_.pathpos) ps
        else add_package pkg name ps import_ := by
      unfold Import.introductions
      rw [hpkg]
      dsimp only
      rw [hname]
      dsimp only
      split
      · rw [List.foldl_map]
        rfl
      · rfl
    rw [Parse_Imports, hpkg]
    dsimp only
    have happend : introductions packages (import_ :: imports) =
        import_.introductions packages ++ introductions packages imports := List.flatMap_cons
    rw [hname, ok_bind, ih himports, happend, List.foldl_append, hhere]

end run

section tables

variable {σ : Type} {key : σ → CString} {stbl stbl' : STable σ} {sym : σ}

theorem STable_Get_key {name : CString} (h : STable_Get key stbl name = some sym) :
    key sym = name := by
  have hfound := List.find?_some h
  simpa using hfound

theorem HashTable_Insert_none (h : HashTable_Insert key stbl sym = none) :
    ∃ old, STable_Get key stbl (key sym) = some old := by
  unfold HashTable_Insert at h
  split at h
  · next old hold => exact ⟨old, hold⟩
  · cases h

theorem HashTable_Insert_some (h : HashTable_Insert key stbl sym = some stbl') :
    STable_Get key stbl (key sym) = none ∧ ∀ name, STable_Get key stbl' name =
      if name = key sym then some sym else STable_Get key stbl name := by
  unfold HashTable_Insert at h
  split at h
  · cases h
  · next hnone =>
    cases h
    refine ⟨hnone, fun name => ?_⟩
    unfold STable_Get at hnone ⊢
    dsimp only
    rw [List.find?_append, List.find?_singleton]
    by_cases heq : name = key sym
    · rw [heq, hnone, if_pos rfl, decide_eq_true rfl]
      rfl
    · rw [if_neg heq, decide_eq_false (Ne.symm heq), if_neg Bool.false_ne_true, Option.or_none]

end tables

/-- A name is in one of the tables. -/
def Named (ps : ParserState) (name : CString) : Prop :=
  (∃ sym, __in_extstbl ps name = some sym) ∨ ∃ dot, __is_inextdots ps name = some dot

section step

variable {ps : ParserState} {i : Introduction}

/-- What an introduction does: it is skipped, or its name is taken and an error is
reported, or its name is new and entered in its table. -/
theorem introduce_cases (ps : ParserState) (i : Introduction) :
    (i.Skipped ps ∧ introduce ps i = ps) ∨
    (¬ i.Skipped ps ∧ Named ps i.name ∧ ∃ msg, introduce ps i = Syntax_Error ps i.pos msg) ∨
    (¬ i.Skipped ps ∧ ¬ Named ps i.name ∧ (introduce ps i).errnum = ps.errnum ∧
      (introduce ps i).filename = ps.filename ∧
      ∀ name, __in_extstbl (introduce ps i) name =
          (if name = i.name then i.pkgSymbol ps.filename else __in_extstbl ps name) ∧
        __is_inextdots (introduce ps i) name =
          if name = i.name then i.refSymbol ps.filename else __is_inextdots ps name) := by
  cases i with
  | package import_ pkg name =>
    refine .inr ?_
    rw [introduce]
    unfold add_package
    cases hdot : __is_inextdots ps name with
    | some dot => exact .inl ⟨not_false, .inr ⟨dot, hdot⟩, _, rfl⟩
    | none =>
      dsimp only
      split
      · next extstbl hinsert =>
        obtain ⟨hnone, hget⟩ := HashTable_Insert_some hinsert
        refine .inr ⟨not_false, ?_, rfl, rfl, fun other => ⟨hget other, ?_⟩⟩
        · rintro (⟨sym, hsym⟩ | ⟨dot, hdot'⟩)
          · cases hnone.symm.trans hsym
          · cases hdot.symm.trans hdot'
        · change __is_inextdots ps other = if other = name then none else __is_inextdots ps other
          split
          · next heq => rw [heq, hdot]
          · rfl
      · next hinsert =>
        obtain ⟨old, hold⟩ := HashTable_Insert_none hinsert
        change __in_extstbl ps name = some old at hold
        rw [hold]
        exact .inl ⟨not_false, .inl ⟨old, hold⟩, _, rfl⟩
  | symbol path pos sym =>
    rw [introduce]
    unfold load_dotsym_func
    by_cases hskip : ps.errnum > MAX_ERRORS
    · exact .inl ⟨hskip, if_pos hskip⟩
    refine .inr ?_
    rw [if_neg hskip]
    cases hpkg : __in_extstbl ps sym.name with
    | some pkgSym => exact .inl ⟨hskip, .inl ⟨pkgSym, hpkg⟩, _, rfl⟩
    | none =>
      dsimp only
      split
      · next extdots hinsert =>
        obtain ⟨hnone, hget⟩ := HashTable_Insert_some hinsert
        refine .inr ⟨hskip, ?_, rfl, rfl, fun other => ⟨?_, hget other⟩⟩
        · rintro (⟨sym', hsym⟩ | ⟨dot, hdot⟩)
          · cases hpkg.symm.trans hsym
          · cases hnone.symm.trans hdot
        · change __in_extstbl ps other =
            if other = sym.name then none else __in_extstbl ps other
          split
          · next heq => rw [heq, hpkg]
          · rfl
      · next hinsert =>
        obtain ⟨old, hold⟩ := HashTable_Insert_none hinsert
        change __is_inextdots ps sym.name = some old at hold
        rw [hold]
        exact .inl ⟨hskip, .inr ⟨old, hold⟩, _, rfl⟩

theorem errnum_introduce_le (ps : ParserState) (i : Introduction) :
    ps.errnum ≤ (introduce ps i).errnum := by
  rcases introduce_cases ps i with ⟨-, heq⟩ | ⟨-, -, msg, heq⟩ | ⟨-, -, heq, -⟩
  · rw [heq]
  · rw [heq, ParserState.errnum, ParserState.errnum, Syntax_Error, List.length_append]
    exact Nat.add_le_add_left (Nat.le_add_right _ _) _
  · rw [heq]

theorem filename_introduce (ps : ParserState) (i : Introduction) :
    (introduce ps i).filename = ps.filename := by
  rcases introduce_cases ps i with ⟨-, heq⟩ | ⟨-, -, msg, heq⟩ | ⟨-, -, -, heq, -⟩
  · rw [heq]
  · rw [heq]
    rfl
  · exact heq

/-- A name that is taken stays as it is. -/
theorem tables_of_named {name : CString} (h : Named ps name) :
    __in_extstbl (introduce ps i) name = __in_extstbl ps name ∧
      __is_inextdots (introduce ps i) name = __is_inextdots ps name := by
  rcases introduce_cases ps i with ⟨-, heq⟩ | ⟨-, -, msg, heq⟩ | ⟨-, hnot, -, -, hget⟩
  · rw [heq]
    exact ⟨rfl, rfl⟩
  · rw [heq]
    exact ⟨rfl, rfl⟩
  · have hne : name ≠ i.name := fun heq => hnot (heq ▸ h)
    obtain ⟨hext, hdots⟩ := hget name
    rw [if_neg hne] at hext hdots
    exact ⟨hext, hdots⟩

theorem Named.introduce {name : CString} (h : Named ps name) : Named (introduce ps i) name := by
  obtain ⟨hext, hdots⟩ := @tables_of_named ps i name h
  unfold Named
  rwa [hext, hdots]

/-- The name of an introduction that is not skipped is in a table after it. -/
theorem named_of_not_skipped (h : ¬ i.Skipped ps) : Named (introduce ps i) i.name := by
  rcases introduce_cases ps i with ⟨hskip, -⟩ | ⟨-, hnamed, -⟩ | ⟨-, -, -, -, hget⟩
  · exact absurd hskip h
  · exact hnamed.introduce
  · obtain ⟨hext, hdots⟩ := hget i.name
    rw [if_pos rfl] at hext hdots
    cases i with
    | package import_ pkg name => exact .inl ⟨_, hext⟩
    | symbol path pos sym => exact .inr ⟨_, hdots⟩

end step

section whole

variable {ps : ParserState} {is : List Introduction}

theorem errnum_run_le (ps : ParserState) (is : List Introduction) :
    ps.errnum ≤ (is.foldl introduce ps).errnum := by
  induction is generalizing ps with
  | nil => exact Nat.le_refl _
  | cons i is ih => exact (errnum_introduce_le ps i).trans (ih (introduce ps i))

theorem named_run {name : CString} (h : Named ps name) : Named (is.foldl introduce ps) name := by
  induction is generalizing ps with
  | nil => exact h
  | cons i is ih => exact ih h.introduce

theorem tables_of_named_run {name : CString} (h : Named ps name) :
    __in_extstbl (is.foldl introduce ps) name = __in_extstbl ps name ∧
      __is_inextdots (is.foldl introduce ps) name = __is_inextdots ps name := by
  induction is generalizing ps with
  | nil => exact ⟨rfl, rfl⟩
  | cons i is ih =>
    obtain ⟨hext, hdots⟩ := @tables_of_named ps i name h
    rw [List.foldl_cons, ← hext, ← hdots]
    exact ih h.introduce

theorem none_of_not_named {name : CString} (h : ¬ Named ps name) :
    __in_extstbl ps name = none ∧ __is_inextdots ps name = none := by
  constructor
  · cases hext : __in_extstbl ps name with
    | none => rfl
    | some sym => exact absurd (.inl ⟨sym, hext⟩) h
  · cases hdots : __is_inextdots ps name with
    | none => rfl
    | some dot => exact absurd (.inr ⟨dot, hdots⟩) h

theorem find?_name_pos {i : Introduction} {name : CString} (h : i.name = name) :
    ((i :: is).find? fun i => i.name = name) = some i :=
  List.find?_cons_of_pos (decide_eq_true h)

theorem find?_name_neg {i : Introduction} {name : CString} (h : i.name ≠ name) :
    ((i :: is).find? fun i => i.name = name) = is.find? fun i => i.name = name :=
  List.find?_cons_of_neg (by simpa using h)

/-- What a name that was not taken is bound to is the first introduction of it. -/
theorem tables_run {name : CString} (h : ¬ Named ps name) :
    __in_extstbl (is.foldl introduce ps) name =
        ((made ps is).find? fun i => i.name = name).bind (Introduction.pkgSymbol ps.filename) ∧
      __is_inextdots (is.foldl introduce ps) name =
        ((made ps is).find? fun i => i.name = name).bind (Introduction.refSymbol ps.filename) := by
  induction is generalizing ps with
  | nil => exact none_of_not_named h
  | cons i is ih =>
    rw [List.foldl_cons, made]
    rcases introduce_cases ps i with ⟨hskip, heq⟩ | ⟨hskip, hnamed, msg, heq⟩ |
      ⟨hskip, -, -, hfile, hget⟩
    · rw [if_pos hskip, heq]
      exact ih h
    · have hne : i.name ≠ name := fun hname => h (hname ▸ hnamed)
      rw [if_neg hskip, find?_name_neg hne, heq]
      exact ih h
    · rw [if_neg hskip]
      by_cases hname : i.name = name
      · have htables := @tables_of_named_run (introduce ps i) is name
          (hname ▸ named_of_not_skipped hskip)
        obtain ⟨hext, hdots⟩ := hget name
        rw [if_pos hname.symm] at hext hdots
        rw [find?_name_pos hname, htables.1, htables.2, hext, hdots]
        exact ⟨rfl, rfl⟩
      · obtain ⟨hext, hdots⟩ := hget name
        rw [if_neg (Ne.symm hname)] at hext hdots
        have hnot : ¬ Named (introduce ps i) name := by
          unfold Named
          rwa [hext, hdots]
        rw [find?_name_neg hname, ← hfile]
        exact ih hnot

theorem made_sublist (ps : ParserState) (is : List Introduction) : (made ps is).Sublist is := by
  induction is generalizing ps with
  | nil => exact List.Sublist.refl []
  | cons i is ih =>
    rw [made]
    split
    · exact (ih (introduce ps i)).cons i
    · exact (ih (introduce ps i)).cons_cons i

/-- Nothing is skipped while there are not too many errors. -/
theorem made_eq (h : (is.foldl introduce ps).errnum ≤ MAX_ERRORS) : made ps is = is := by
  induction is generalizing ps with
  | nil => rfl
  | cons i is ih =>
    have hle : ps.errnum ≤ MAX_ERRORS := (errnum_run_le ps (i :: is)).trans h
    have hskip : ¬ i.Skipped ps := by
      cases i with
      | package import_ pkg name => exact not_false
      | symbol path pos sym => exact Nat.not_lt_of_le hle
    rw [made, if_neg hskip, ih h]

/-- A name that was introduced before is refused. -/
theorem introduce_of_mem {i j : Introduction} (hj : j ∈ is) (hname : j.name = i.name)
    (h : (is.foldl introduce ps).errnum ≤ MAX_ERRORS) :
    ∃ msg, introduce (is.foldl introduce ps) i =
      Syntax_Error (is.foldl introduce ps) i.pos msg := by
  obtain ⟨first, last, rfl⟩ := List.append_of_mem hj
  rw [List.foldl_append, List.foldl_cons] at h ⊢
  generalize first.foldl introduce ps = s at h ⊢
  have hle : s.errnum ≤ MAX_ERRORS := (errnum_run_le s (j :: last)).trans h
  have hskip : ¬ j.Skipped s := by
    cases j with
    | package import_ pkg name => exact not_false
    | symbol path pos sym => exact Nat.not_lt_of_le hle
  have hnamed : Named (last.foldl introduce (introduce s j)) i.name :=
    hname ▸ named_run (named_of_not_skipped hskip)
  rcases introduce_cases (last.foldl introduce (introduce s j)) i with
    ⟨hskipped, -⟩ | ⟨-, -, hmsg⟩ | ⟨-, hnot, -⟩
  · cases i with
    | package import_ pkg name => exact absurd hskipped not_false
    | symbol path pos sym => exact absurd hskipped (Nat.not_lt_of_le h)
  · exact hmsg
  · exact absurd hnamed hnot

end whole

/-- The tables of a module after its imports: no name is in both, each name is bound to
the first introduction of it that is made, all introductions are made while there are
not too many errors, and a name that was introduced before is refused with one error. -/
theorem Parse_Imports_unambiguous (packages : List Package) (imports : List Import)
    (filename : CString) (earlier : Nat) (hfound : ∀ i ∈ imports, i.Found packages) :
    let start := New_Parser filename earlier
    let is := introductions packages imports
    ∃ ps, Parse_Imports packages imports start = .ok ps ∧
      (∀ name, __in_extstbl ps name = none ∨ __is_inextdots ps name = none) ∧
      (∀ name, __in_extstbl ps name =
          ((made start is).find? fun i => i.name = name).bind (Introduction.pkgSymbol filename) ∧
        __is_inextdots ps name =
          ((made start is).find? fun i => i.name = name).bind (Introduction.refSymbol filename)) ∧
      (made start is).Sublist is ∧ (ps.errnum ≤ MAX_ERRORS → made start is = is) ∧
      ∀ before i after, is = before ++ i :: after →
        (before.foldl introduce start).errnum ≤ MAX_ERRORS → (∃ j ∈ before, j.name = i.name) →
        ∃ msg, introduce (before.foldl introduce start) i =
          Syntax_Error (before.foldl introduce start) i.pos msg := by
  intro start is
  have hnone : ∀ name, ¬ Named start name := by
    rintro name (⟨sym, h⟩ | ⟨dot, h⟩)
    · cases h
    · cases h
  have htables : ∀ name, _ := fun name => @tables_run start is name (hnone name)
  refine ⟨is.foldl introduce start, Parse_Imports_eq hfound, fun name => ?_, htables,
    made_sublist start is, made_eq, ?_⟩
  · obtain ⟨hext, hdots⟩ := htables name
    rw [hext, hdots]
    cases (made start is).find? fun i => i.name = name with
    | none => exact .inl rfl
    | some i =>
      cases i with
      | package import_ pkg name => exact .inr rfl
      | symbol path pos sym => exact .inl rfl
  · rintro before i after - hle ⟨j, hj, hname⟩
    exact introduce_of_mem hj hname hle

/-- A package that is imported twice under one name. -/
def io : CString := ⟨[0x69, 0x6f], by decide⟩

theorem Parse_Imports_unambiguous_io :
    ∃ ps, Parse_Imports [⟨io, some io, STable_New⟩]
        [⟨none, ⟨1, 1⟩, io, ⟨1, 8⟩⟩, ⟨some io, ⟨2, 8⟩, io, ⟨2, 11⟩⟩] (New_Parser io 0) = .ok ps ∧
      ∀ name, __in_extstbl ps name = none ∨ __is_inextdots ps name = none := by
  have hfound : ∀ i ∈ [(⟨none, ⟨1, 1⟩, io, ⟨1, 8⟩⟩ : Import), ⟨some io, ⟨2, 8⟩, io, ⟨2, 11⟩⟩],
      i.Found [⟨io, some io, STable_New⟩] := by
    refine List.forall_mem_cons.mpr ⟨⟨_, rfl, fun _ => ⟨io, rfl⟩⟩,
      List.forall_mem_singleton.mpr ⟨_, rfl, fun h => ?_⟩⟩
    cases h
  obtain ⟨ps, hrun, hone, -⟩ := Parse_Imports_unambiguous _ _ io 0 hfound
  exact ⟨ps, hrun, hone⟩

end koala.imports
