import Koala.Post
import Koala.Import.Unambiguous
import Koala.StringBuf.Total
import Mathlib.Data.List.DropRight
import Mathlib.Data.List.Nodup
import Mathlib.Data.List.Perm.Subperm

open koala.parser (Position Ident)
open koala.imports (Import is_dot)

namespace koala.koalac

set_option linter.style.nameCheck false

structure Options where
  srcpath : Option CString
  pathes : List CString
  args : List CString

/-- An import as it is written. -/
structure ImportDecl where
  id : Option Ident
  path : Ident

/-- A source file with its imports, up to where its syntax ends. -/
structure SourceFile where
  name : CString
  imports : List ImportDecl

/-- The source files of a directory. -/
structure Source where
  dir : CString
  files : List SourceFile

/-- What the file system answers. -/
structure Disk where
  dir_exist : CString → Bool
  file_exist : CString → Bool
  dir_later_file : CString → CString → Int
  sources : List Source

/-- The text that is made. -/
def AtomString_Format (fmt : String) (args : List CString) : CString :=
  let fmt := fmt.toList.map Char.toUInt8
  match stringbuf.__StringBuf_Format stringbuf.DeclareStringBuf fmt (args.map some) with
  | .ok buf => ⟨buf.text, buf.text_nonul⟩
  -- texts whose length is no `int` are left out
  | .error _ => ⟨[], CString.nil_nonul⟩

/-- The string without the slashes at its end. What stands before a string of slashes is
taken to be none. -/
def trim_tail_slashes (s : CString) : CString where
  bytes := s.bytes.rdropWhile (· = 0x2f)
  nonul h := s.nonul ((s.bytes.rdropWhile_prefix _).subset h)

/-- The packages that are known, by their paths, and those to be compiled. The paths of the
calls of `Add_ParserGroup` from imports and of `build_symbols` are noted. -/
structure State where
  packages : List CString
  groups : List CString
  imported : List CString
  built : List CString

def init_koalac : State := ⟨[], [], [], []⟩

def New_Package (s : State) (path : CString) : Res State :=
  if path ∈ s.packages then .error .assertion
  else .ok { s with packages := s.packages ++ [path] }

def Add_ParserGroup (s : State) (pkgpath : CString) : Res State :=
  if pkgpath ∈ s.groups then .ok s
  else do
    let s ← New_Package s pkgpath
    .ok { s with groups := s.groups ++ [pkgpath] }

inductive Message where
  | self_package
  | duplicately (path filename : CString) (pos : Position)
  | redeclared_package (name filename : CString) (pos : Position)
  | cannot_find (path : CString)

def Message.format : Message → String
  | .self_package => "imported self-package"
  | .duplicately .. => "'%s' imported duplicately,\n\tprevious import at %s:%d:%d"
  | .redeclared_package .. =>
    "'%s' redeclared as imported package name,\n" ++
      "\tprevious declaration during import at %s:%d:%d"
  | .cannot_find _ => "cannot find '%s' package"

structure SyntaxError where
  pos : Position
  msg : Message

/-- The parser of a file of the group with the path `grp`. -/
structure ParserState where
  filename : CString
  grp : CString
  imports : List Import
  errors : List SyntaxError

def New_Parser (grp filename : CString) : ParserState := ⟨filename, grp, [], []⟩

def Syntax_Error (ps : ParserState) (pos : Position) (msg : Message) : ParserState :=
  { ps with errors := ps.errors ++ [⟨pos, msg⟩] }

/-- The position of an import without a name is not set. -/
def new_import (id : Option Ident) (path : Ident) : Import where
  id := id.map Ident.name
  idpos := id.elim ⟨0, 0⟩ Ident.pos
  path := path.name
  pathpos := path.pos

/-- What a new import and one before it have in common that they must not. -/
def conflict (filename : CString) (id : Option Ident) (path : Ident) (import_ : Import) :
    Option SyntaxError :=
  if import_.path = path.name then
    some ⟨path.pos, .duplicately path.name filename import_.pathpos⟩
  else
    match id, import_.id with
    | some id, some name =>
      if is_dot id.name = false ∧ name = id.name then
        some ⟨id.pos, .redeclared_package id.name filename import_.idpos⟩
      else none
    | _, _ => none

section disk

variable (opts : Options) (disk : Disk)

def source_dir (path : CString) : CString :=
  match opts.srcpath with
  | none => path
  | some srcpath => AtomString_Format "#/#" [srcpath, path]

/-- The branch of `Parser_New_Import` for a package that is not known; none where it cannot
be found. -/
def find_package (s : State) (path : CString) : Res (Option State) :=
  let dir := source_dir opts path
  let compile (s : State) : Res (Option State) :=
    (Add_ParserGroup { s with imported := s.imported ++ [path] } path).map some
  let load (s : State) : Res (Option State) := (New_Package s path).map some
  if disk.dir_exist dir then
    let klc := AtomString_Format "#.klc" [dir]
    if disk.file_exist klc = false then compile s
    else if disk.dir_later_file dir klc > 0 then compile s
    else load s
  else
    match opts.pathes.find? fun pre =>
      disk.file_exist (AtomString_Format "#/#.klc" [pre, path]) with
    | some _ => load s
    | none => .ok none

def Parser_New_Import (r : State × ParserState) (decl : ImportDecl) :
    Res (State × ParserState) :=
  let (s, ps) := r
  let path := decl.path
  if path.name = ps.grp then .ok (s, Syntax_Error ps path.pos .self_package)
  else
    match ps.imports.findSome? (conflict ps.filename decl.id path) with
    | some error => .ok (s, Syntax_Error ps error.pos error.msg)
    | none =>
      let ps' := { ps with imports := ps.imports ++ [new_import decl.id path] }
      if path.name ∈ s.packages then .ok (s, ps')
      else do
        match ← find_package opts disk s path.name with
        | some s => .ok (s, ps')
        | none => .ok (s, Syntax_Error ps path.pos (.cannot_find path.name))

/-- What `Build_AST` does with the imports of a file. -/
def Build_AST (grp : CString) (s : State) (file : SourceFile) : Res State := do
  let (s, _) ← file.imports.foldlM (Parser_New_Import opts disk) (s, New_Parser grp file.name)
  .ok s

def build_symbols (s : State) (grp : CString) : Res State :=
  let s := { s with built := s.built ++ [grp] }
  match disk.sources.find? fun source => source.dir = source_dir opts grp with
  | none => .ok s
  | some source => source.files.foldlM (Build_AST opts disk grp) s

/-- The loops of `main` that add the packages of the command line and build all symbols. -/
def main (fuel : Nat) : Res State := do
  let s ← opts.args.foldlM (fun s arg => Add_ParserGroup s (trim_tail_slashes arg)) init_koalac
  for_each State.groups (build_symbols opts disk) fuel 0 s

end disk

end koala.koalac

open koala.parser (Position Ident)
open koala.imports (Import is_dot)

namespace koala.koalac

set_option linter.style.nameCheck false

variable {opts : Options} {disk : Disk}

/-- The packages that are named on the command line. -/
def Options.named (opts : Options) : List CString := opts.args.map trim_tail_slashes

/-- The packages that are imported somewhere. -/
def Disk.imported (disk : Disk) : List CString :=
  disk.sources.flatMap fun source =>
    source.files.flatMap fun file => file.imports.map fun decl => decl.path.name

/-- What holds while the packages are built. The groups that were built come first. -/
structure Inv (opts : Options) (disk : Disk) (s : State) : Prop where
  nodup : s.groups.Nodup
  packages : s.groups ⊆ s.packages
  groups : ∀ path, path ∈ s.groups ↔ path ∈ opts.named ∨ path ∈ s.imported
  bounded : s.groups ⊆ opts.named ++ disk.imported
  built : s.built <+: s.groups

section add

variable {s : State} {path : CString}

theorem New_Package_new (hpath : path ∉ s.packages) :
    New_Package s path = .ok { s with packages := s.packages ++ [path] } := if_neg hpath

theorem Add_ParserGroup_known (hpath : path ∈ s.groups) : Add_ParserGroup s path = .ok s :=
  if_pos hpath

theorem Add_ParserGroup_new (hgroups : path ∉ s.groups) (hpath : path ∉ s.packages) :
    Add_ParserGroup s path =
      .ok { s with packages := s.packages ++ [path], groups := s.groups ++ [path] } := by
  rw [Add_ParserGroup, if_neg hgroups, New_Package_new hpath, ok_bind]

theorem nodup_concat (h : s.groups.Nodup) (hpath : path ∉ s.groups) :
    (s.groups ++ [path]).Nodup := by
  rw [← List.concat_eq_append]
  exact List.Nodup.concat hpath h

/-- A new package to be compiled comes last. -/
theorem Inv.compile (h : Inv opts disk s) (hpath : path ∉ s.packages)
    (hneeded : path ∈ disk.imported) :
    Inv opts disk { s with
      packages := s.packages ++ [path], groups := s.groups ++ [path],
      imported := s.imported ++ [path] } where
  nodup := nodup_concat h.nodup fun hmem => hpath (h.packages hmem)
  packages := by
    apply List.append_subset.mpr
    exact ⟨List.Subset.trans h.packages (List.subset_append_left _ _), List.subset_append_right _ _⟩
  groups other := by
    simp only [List.mem_append, List.mem_singleton, h.groups other]
    tauto
  bounded := by
    apply List.append_subset.mpr
    refine ⟨h.bounded, ?_⟩
    intro other hother
    rw [List.mem_singleton.mp hother]
    exact List.mem_append_right _ hneeded
  built := h.built.trans (List.prefix_append _ _)

/-- A package that is loaded is known. -/
theorem Inv.load (h : Inv opts disk s) :
    Inv opts disk { s with packages := s.packages ++ [path] } where
  nodup := h.nodup
  packages := List.Subset.trans h.packages (List.subset_append_left _ _)
  groups := h.groups
  bounded := h.bounded
  built := h.built

end add

/-- What the imports of a file keep. -/
def Keeps (opts : Options) (disk : Disk) (built : List CString) (s : State) : Prop :=
  Inv opts disk s ∧ s.built = built

section imports

variable {s : State} {ps : ParserState} {built : List CString}

theorem find_package_ok {path : CString} (h : Keeps opts disk built s)
    (hpath : path ∉ s.packages) (hneeded : path ∈ disk.imported) :
    ∃ r, find_package opts disk s path = .ok r ∧ ∀ s', r = some s' → Keeps opts disk built s' := by
  have hgroups : path ∉ s.groups := fun hmem => hpath (h.1.packages hmem)
  have hcompile := @Add_ParserGroup_new { s with imported := s.imported ++ [path] } path
    hgroups hpath
  have hload := New_Package_new hpath
  have hcompiled : Keeps opts disk built _ := ⟨h.1.compile hpath hneeded, h.2⟩
  have hloaded : Keeps opts disk built { s with packages := s.packages ++ [path] } :=
    ⟨h.1.load, h.2⟩
  simp only [find_package, hcompile, hload]
  split
  · split
    · exact ⟨_, rfl, fun s' hs' => Option.some.inj hs' ▸ hcompiled⟩
    · split
      · exact ⟨_, rfl, fun s' hs' => Option.some.inj hs' ▸ hcompiled⟩
      · exact ⟨_, rfl, fun s' hs' => Option.some.inj hs' ▸ hloaded⟩
  · split
    · exact ⟨_, rfl, fun s' hs' => Option.some.inj hs' ▸ hloaded⟩
    · exact ⟨none, rfl, fun s' hs' => nomatch hs'⟩

/-- An import returns: a package is made only where none of its path is known. -/
theorem Parser_New_Import_ok {decl : ImportDecl} (h : Keeps opts disk built s)
    (hneeded : decl.path.name ∈ disk.imported) :
    ∃ r, Parser_New_Import opts disk (s, ps) decl = .ok r ∧ Keeps opts disk built r.1 := by
  rw [Parser_New_Import]
  split
  · exact ⟨_, rfl, h⟩
  · split
    · exact ⟨_, rfl, h⟩
    · by_cases hknown : decl.path.name ∈ s.packages
      · exact ⟨_, if_pos hknown, h⟩
      · obtain ⟨r, hfind, hr⟩ := find_package_ok h hknown hneeded
        simp only [if_neg hknown, hfind, ok_bind]
        cases r with
        | none => exact ⟨_, rfl, h⟩
        | some s' => exact ⟨_, rfl, hr s' rfl⟩

theorem Build_AST_ok {grp : CString} {file : SourceFile} (h : Keeps opts disk built s)
    (hfile : ∀ decl ∈ file.imports, decl.path.name ∈ disk.imported) :
    ∃ s', Build_AST opts disk grp s file = .ok s' ∧ Keeps opts disk built s' := by
  have himports : ∃ r : State × ParserState, file.imports.foldlM (Parser_New_Import opts disk)
      (s, New_Parser grp file.name) = .ok r ∧ Keeps opts disk built r.1 :=
    foldlM_ok (fun r : State × ParserState => Keeps opts disk built r.1)
      (fun r decl hdecl hr => Parser_New_Import_ok hr (hfile decl hdecl)) h
  obtain ⟨r, hrun, hr⟩ := himports
  exact ⟨r.1, by rw [Build_AST, hrun, ok_bind], hr⟩

end imports

theorem Disk.mem_imported {source : Source} {file : SourceFile} {decl : ImportDecl}
    (hsource : source ∈ disk.sources) (hfile : file ∈ source.files) (hdecl : decl ∈ file.imports) :
    decl.path.name ∈ disk.imported :=
  List.mem_flatMap.mpr ⟨source, hsource,
    List.mem_flatMap.mpr ⟨file, hfile, List.mem_map_of_mem hdecl⟩⟩

/-- The state when the first `i` groups are built. -/
def Built (opts : Options) (disk : Disk) (i : Nat) (s : State) : Prop :=
  Inv opts disk s ∧ s.built.length = i

theorem build_symbols_ok {s : State} {i : Nat} {grp : CString} (h : Built opts disk i s)
    (hgrp : s.groups[i]? = some grp) :
    ∃ s', build_symbols opts disk s grp = .ok s' ∧ Built opts disk (i + 1) s' := by
  obtain ⟨hinv, rfl⟩ := h
  have hnext : s.built ++ [grp] <+: s.groups := by
    obtain ⟨rest, hrest⟩ := hinv.built
    rw [← hrest, List.getElem?_append_right le_rfl, Nat.sub_self] at hgrp
    cases rest with
    | nil => simp at hgrp
    | cons first rest =>
      obtain rfl : first = grp := by simpa using hgrp
      exact ⟨rest, by rw [← hrest, List.append_assoc, List.singleton_append]⟩
  have hkeeps : Keeps opts disk (s.built ++ [grp]) { s with built := s.built ++ [grp] } :=
    ⟨⟨hinv.nodup, hinv.packages, hinv.groups, hinv.bounded, hnext⟩, rfl⟩
  have hlength : ∀ s', Keeps opts disk (s.built ++ [grp]) s' →
      Built opts disk (s.built.length + 1) s' := by
    rintro s' ⟨hs', hbuilt⟩
    exact ⟨hs', by rw [hbuilt, List.length_append, List.length_singleton]⟩
  rw [build_symbols]
  split
  · exact ⟨_, rfl, hlength _ hkeeps⟩
  · next source hfind =>
    obtain ⟨s', hrun, hs'⟩ := foldlM_ok (Keeps opts disk (s.built ++ [grp]))
      (fun s file hfile hs => Build_AST_ok hs fun decl hdecl =>
        Disk.mem_imported (List.mem_of_find?_eq_some hfind) hfile hdecl) hkeeps
    exact ⟨s', hrun, hlength s' hs'⟩

/-- What the command line brings. -/
structure Named (args : List CString) (s : State) : Prop where
  nodup : s.groups.Nodup
  packages : s.packages = s.groups
  groups : ∀ path, path ∈ s.groups ↔ path ∈ args.map trim_tail_slashes
  imported : s.imported = []
  built : s.built = []

theorem Named.add {args : List CString} {s : State} (h : Named args s) (arg : CString) :
    ∃ s', Add_ParserGroup s (trim_tail_slashes arg) = .ok s' ∧ Named (args ++ [arg]) s' := by
  have hmem : ∀ path, path ∈ (args ++ [arg]).map trim_tail_slashes ↔
      path ∈ args.map trim_tail_slashes ∨ path = trim_tail_slashes arg := by
    intro path
    rw [List.map_append, List.mem_append, List.map_singleton, List.mem_singleton]
  by_cases hknown : trim_tail_slashes arg ∈ s.groups
  · refine ⟨s, Add_ParserGroup_known hknown, h.nodup, h.packages, ?_, h.imported, h.built⟩
    intro path
    rw [hmem, h.groups]
    constructor
    · exact Or.inl
    · rintro (hpath | rfl)
      · exact hpath
      · exact (h.groups _).mp hknown
  · have hnew : trim_tail_slashes arg ∉ s.packages := h.packages ▸ hknown
    refine ⟨_, Add_ParserGroup_new hknown hnew, nodup_concat h.nodup hknown, ?_, ?_, h.imported,
      h.built⟩
    · exact congrArg (· ++ [trim_tail_slashes arg]) h.packages
    · intro path
      rw [hmem, List.mem_append, List.mem_singleton, h.groups]

theorem Named.run {done : List CString} {s : State} (h : Named done s) (args : List CString) :
    ∃ s', args.foldlM (fun s arg => Add_ParserGroup s (trim_tail_slashes arg)) s = .ok s' ∧
      Named (done ++ args) s' := by
  induction args generalizing done s with
  | nil => exact ⟨s, rfl, by rwa [List.append_nil]⟩
  | cons arg args ih =>
    obtain ⟨next, hadd, hnext⟩ := h.add arg
    obtain ⟨s', hrun, hs'⟩ := ih hnext
    refine ⟨s', ?_, by simpa using hs'⟩
    rw [List.foldlM_cons, hadd, ok_bind, hrun]

theorem Named.init : Named [] init_koalac where
  nodup := List.nodup_nil
  packages := rfl
  groups _ := Iff.rfl
  imported := rfl
  built := rfl

theorem Named.inv {s : State} (h : Named opts.args s) : Inv opts disk s where
  nodup := h.nodup
  packages := h.packages ▸ List.Subset.refl _
  groups path := by
    rw [h.groups, h.imported]
    exact (or_iff_left List.not_mem_nil).symm
  bounded path hpath := List.mem_append_left _ ((h.groups path).mp hpath)
  built := h.built ▸ List.nil_prefix

/-- There are no more groups than packages that are named or imported. -/
theorem Inv.length_le {s : State} (h : Inv opts disk s) :
    s.groups.length ≤ (opts.named ++ disk.imported).length :=
  (List.Nodup.subperm h.nodup h.bounded).length_le

/-- The compiler builds each package that is named on the command line or comes in through
an import once, and no other; it comes to an end, and no package is made twice. -/
theorem main_builds_once (opts : Options) (disk : Disk) :
    ∃ s, (∃ n, ∀ fuel, n < fuel → main opts disk fuel = .ok s) ∧
      ∀ path, s.built.count path =
        if path ∈ opts.args.map trim_tail_slashes ∨ path ∈ s.imported then 1 else 0 := by
  obtain ⟨s, hadd, hnamed⟩ := Named.init.run opts.args
  have hinv : Built opts disk 0 s := ⟨hnamed.inv, by rw [hnamed.built, List.length_nil]⟩
  obtain ⟨s', j, hrun, ⟨hs', hlength⟩, hj⟩ := for_each_ok (Built opts disk)
    (fun i s grp hs hgrp => build_symbols_ok hs hgrp) (fun i s hs => hs.1.length_le) hinv
  have hbuilt : s'.built = s'.groups := hs'.built.eq_of_length_le (hlength ▸ hj)
  refine ⟨s', ⟨(opts.named ++ disk.imported).length, ?_⟩, ?_⟩
  · intro fuel hfuel
    rw [main, hadd, ok_bind]
    exact hrun fuel hfuel
  · intro path
    rw [hbuilt]
    split
    · next hpath => exact List.count_eq_one_of_mem hs'.nodup ((hs'.groups path).mpr hpath)
    · next hpath => exact List.count_eq_zero.mpr fun hmem => hpath ((hs'.groups path).mp hmem)

end koala.koalac
