import Koala.Image.RoundTrip
import Koala.Properties
import Koala.State.Packages
import Koala.StringBuf.Total

open koala.pkgnode (PkgState Path Payload NodePtr Init_PkgState Add_PkgNode Find_PkgNode Grown
  io_path)
open koala.properties (Properties PropEntry Properties_Init Properties_Put Properties_Get values)
open koala.image (KImage KImage_Read_File ItemKind)
open koala.vector (Allocator Heap Succeeded)

namespace koala.state

set_option linter.style.nameCheck false

variable {V : Type}

/-- `"koala.path"`, the key of the directories that packages are searched in. -/
def KOALA_PATH : CString := .ofData ("koala.path".toList.map Char.toUInt8)

/-- `"."` -/
def DOT : CString := .ofData ['.'.toUInt8]

/-- What a call finds outside: the files, the addresses that items are copied to,
and the fuel for types of the image. -/
structure World where
  files : CString → Option (List UInt8)
  addr : Nat → Nat
  fuel : Nat

/-- The state with the environment values. -/
structure Runtime (V : Type) where
  st : State V
  properties : Properties

/-- The text of `StringBuf_Format_CStr(buf, "#/#.klc", pre, path)`. -/
def klc_path (pre path : CString) : Res CString := do
  let buf ← stringbuf.__StringBuf_Format stringbuf.DeclareStringBuf
    ("#/#.klc".toList.map Char.toUInt8) [some pre, some path]
  match buf.data with
  | none => .error .null
  | some data => .ok (CString.ofData data)

def read_file (w : World) (pre path : CString) : Res (Option KImage) := do
  let name ← klc_path pre path
  match w.files name with
  | none => .ok none
  | some file => KImage_Read_File (fun _ => true) w.addr file

/-- The loop of `Koala_Get_Package` over the directories, which are strings of the pool. -/
def search (w : World) (str : Nat → CString) (path : CString) :
    List (Option Nat) → Res (Option koala.package.Package)
  | [] => .ok none
  | none :: _ => .error .null
  | some pre :: vec => do
    match ← read_file w (str pre) path with
    | some image => do
      let pkg ← koala.package.Pkg_From_Image w.fuel image
      .ok (some pkg)
    | none => search w str path vec

/-- A new package, at the next address. -/
def State.allocate (st : State V) (p : koala.package.Package) : State V :=
  { st with pkgs := st.pkgs ++ [{ p with index := 0 }] }

def Koala_Get_Package (w : World) (rt : Runtime V) (path : CString) :
    Res (Option Nat × Runtime V) := do
  match ← Find_PkgNode rt.st.pkgstate path with
  | some node =>
    match rt.st.pkgstate.payload node with
    | some (.leaf data) => .ok (some data, rt)
    | _ => .error .assertion
  | none => do
    let vec ← Properties_Get rt.properties KOALA_PATH
    match ← search w rt.properties.pool.str path (vec.elim [] vector.Vector.list) with
    | none => .ok (none, rt)
    | some p =>
      let pkg := rt.st.pkgs.length
      let (_, st) ← Koala_Add_Package (rt.st.allocate p) path pkg
      .ok (some pkg, { rt with st })

def put_pathes (a : Allocator) (properties : Properties) : List CString → Res Properties
  | [] => .ok properties
  | path :: pathes => do
    let (_, properties) ← Properties_Put a properties KOALA_PATH path
    put_pathes a properties pathes

def koala_set_pathes (a : Allocator) (properties : Properties) (pathes : List CString) :
    Res Properties := do
  let (_, properties) ← Properties_Put a properties KOALA_PATH DOT
  put_pathes a properties pathes

/-- What happens to packages: one that C code has built is added, or one is looked up. -/
inductive Loading where
  | add (path : Path) (p : koala.package.Package) (result : Option Nat)
  | get (w : World) (path : Path) (result : Option Nat)

def Loading.path : Loading → Path
  | .add path _ _ => path
  | .get _ path _ => path

/-- The package that was added or answered. -/
def Loading.pkg : Loading → Option Nat
  | .add _ _ result => result
  | .get _ _ result => result

/-- Calls that return; an addition may be refused. -/
inductive Loading.Step (rt : Runtime V) : Loading → Runtime V → Prop where
  | add {path : Path} {p : koala.package.Package} {res : Int} {st : State V}
    (h : Koala_Add_Package (rt.st.allocate p) path.str rt.st.pkgs.length = .ok (res, st)) :
    Loading.Step rt (.add path p (if res = 0 then some rt.st.pkgs.length else none)) { rt with st }
  | get {w : World} {path : Path} {result : Option Nat} {rt' : Runtime V}
    (h : Koala_Get_Package w rt path.str = .ok (result, rt')) :
    Loading.Step rt (.get w path result) rt'

inductive Loads (rt : Runtime V) : List Loading → Runtime V → Prop where
  | nil : Loads rt [] rt
  | step {events : List Loading} {e : Loading} {rt₁ rt' : Runtime V} (h : Loads rt events rt₁)
    (hstep : e.Step rt₁ rt') : Loads rt (events ++ [e]) rt'

/-- What the files say of a package: it comes from the image in the first directory
that has one. -/
inductive Offers (w : World) (path : CString) : List CString → Option koala.package.Package → Prop
    where
  | nowhere {pathes : List CString} (h : ∀ pre ∈ pathes, read_file w pre path = .ok none) :
    Offers w path pathes none
  | first {before after : List CString} {pre : CString} {image : KImage}
    {p : koala.package.Package} (hbefore : ∀ dir ∈ before, read_file w dir path = .ok none)
    (hread : read_file w pre path = .ok (some image))
    (hp : koala.package.Pkg_From_Image w.fuel image = .ok p) :
    Offers w path (before ++ pre :: after) (some p)

end koala.state

namespace koala.pkgnode

variable {D : Type} {ps ps' : PkgState D} {p : Path} {data : D} {r : Option NodePtr}

/-- What an addition that returns has done. -/
theorem Reachable.added (h : Reachable ps) (hps : ps.Ordered)
    (hadd : Add_PkgNode ps p.str data = .ok (r, ps')) :
    (r = none ∧ ps' = ps ∧ ps.node_at p.names ≠ none) ∨
      ∃ node, r = some node ∧ ps.node_at p.names = none ∧ Grown ps ps' p.names data node := by
  rw [Add_PkgNode_eq] at hadd
  by_cases hopen : ps.Open p.names
  · rcases @add_names_ok D ps data .root [] p.names hps rfl ⟨ps.root, rfl⟩ p.names_ne_nil hopen with
      ⟨hsome, hok⟩ | ⟨hnone, node, grown, hok, hgrown⟩
    · rw [hok] at hadd
      cases hadd
      exact .inl ⟨rfl, rfl, hsome⟩
    · rw [hok] at hadd
      cases hadd
      exact .inr ⟨node, rfl, hnone, hgrown⟩
  · -- a leaf is in the way
    unfold PkgState.Open at hopen
    push Not at hopen
    obtain ⟨l, name, m, hl, q, hq, hdir⟩ := hopen
    obtain ⟨d, hleaf⟩ := (isDir_or_isLeaf hq).resolve_left hdir
    rw [hl, add_names_leaf h.rooted hq hleaf (List.cons_ne_nil name m)] at hadd
    cases hadd

end koala.pkgnode

namespace koala.state

set_option linter.style.nameCheck false

variable {V : Type} {rt rt' : Runtime V} {st st' : State V} {events : List Loading}
  {p : koala.package.Package} {path : Path} {pathes : List CString} {properties : Properties}

/-- A new package is registered under a path that named nothing, and its variables
get a tuple of their own. -/
structure Registers (st st' : State V) (p : koala.package.Package) (path : Path) : Prop where
  fresh : st.pkgstate.node_at path.names = none
  grown : ∃ node, Grown st.pkgstate st'.pkgstate path.names st.pkgs.length node
  reachable : koala.pkgnode.Reachable st'.pkgstate
  stored : p.nrvars = 0 ∧ st'.pkgs = st.pkgs ++ [{ p with index := -1 }] ∧ st'.vars = st.vars ∨
    p.nrvars ≠ 0 ∧ st'.pkgs = st.pkgs ++ [{ p with index := st.vars.length }] ∧
      st'.vars = st.vars ++ [Tuple_New p.nrvars]

theorem Koala_Add_Package_registers {res : Int} (h : koala.pkgnode.Reachable st.pkgstate)
    (hps : st.pkgstate.Ordered)
    (hadd : Koala_Add_Package (st.allocate p) path.str st.pkgs.length = .ok (res, st')) :
    res = -1 ∧ st.pkgstate.node_at path.names ≠ none ∧ st' = st.allocate p ∨
      res = 0 ∧ Registers st st' p path := by
  obtain ⟨⟨node, pkgstate⟩, htree, hadd⟩ := bind_eq_ok_iff.mp hadd
  change Add_PkgNode st.pkgstate path.str st.pkgs.length = .ok (node, pkgstate) at htree
  have hreach : koala.pkgnode.Reachable pkgstate := .add h htree
  have hget : (st.allocate p).pkgs[st.pkgs.length]? = some { p with index := 0 } :=
    List.getElem?_concat_length
  have hset : ∀ q : Package, (st.allocate p).pkgs.set st.pkgs.length q = st.pkgs ++ [q] := by
    intro q
    rw [State.allocate, List.set_append_right _ _ le_rfl, Nat.sub_self]
    rfl
  obtain ⟨rfl, rfl, hsome⟩ | ⟨node, rfl, hnone, hgrown⟩ := h.added hps htree
  · cases hadd
    exact .inl ⟨rfl, hsome, rfl⟩
  · simp only [hget] at hadd
    split at hadd
    · next hzero =>
      cases hadd
      exact .inr ⟨rfl, hnone, ⟨node, hgrown⟩, hreach, .inl ⟨hzero, hset _, rfl⟩⟩
    · next hne =>
      cases hadd
      exact .inr ⟨rfl, hnone, ⟨node, hgrown⟩, hreach, .inr ⟨hne, hset _, rfl⟩⟩

/-- The answer of a lookup: the package that its path got before, or what the files say. -/
def Answers (pathes : List CString) (before : List Loading) (w : World) (path : Path)
    (result : Option Nat) (pkgs : List Package) : Prop :=
  (∃ e ∈ before, e.path.names = path.names ∧ e.pkg = result ∧ result.isSome = true) ∨
    (∀ e ∈ before, e.path.names = path.names → e.pkg = none) ∧
      ∃ found, Offers w path.str pathes found ∧
        (found = none ∧ result = none ∨ ∃ p pkg index, found = some p ∧ result = some pkg ∧
          pkgs[pkg]? = some { p with index })

/-- A package that was added or answered. -/
def Registered (events : List Loading) (a : Nat) : Prop := ∃ e ∈ events, e.pkg = some a

/-- What the packages of a run are like. -/
structure Loaded (pathes : List CString) (events : List Loading) (st : State V) : Prop where
  /-- a path has one package, and a package one path -/
  same : ∀ e ∈ events, ∀ e' ∈ events, ∀ a b, e.pkg = some a → e'.pkg = some b →
    (a = b ↔ e.path.names = e'.path.names)
  answers : ∀ before w path result after, events = before ++ Loading.get w path result :: after →
    Answers pathes before w path result st.pkgs
  /-- each package is given up once in the end -/
  fini : (koala.pkgnode.Fini_PkgState st.pkgstate).Nodup ∧
    ∀ a, a ∈ koala.pkgnode.Fini_PkgState st.pkgstate ↔ Registered events a
  /-- the variables of a package are in a tuple of their own -/
  vars : ∀ (a : Nat) (q : Package), Registered events a → st.pkgs[a]? = some q → q.nrvars ≠ 0 →
    (∃ i : Nat, q.index = i ∧ st.vars[i]? = some (Tuple_New q.nrvars)) ∧
    ∀ (b : Nat) (q' : Package), Registered events b → st.pkgs[b]? = some q' → q'.nrvars ≠ 0 →
      q'.index = q.index → b = a

/-- What a run keeps. -/
structure LoadInv (pathes : List CString) (events : List Loading) (st : State V) : Prop extends
    Loaded pathes events st where
  reachable : koala.pkgnode.Reachable st.pkgstate
  ordered : st.pkgstate.Ordered
  node : ∀ (q : Path) a, (∃ node, st.pkgstate.node_at q.names = some node ∧
    st.pkgstate.IsLeaf node a) ↔ ∃ e ∈ events, e.path.names = q.names ∧ e.pkg = some a
  lt : ∀ e ∈ events, ∀ a, e.pkg = some a → a < st.pkgs.length

theorem loadInv_init : LoadInv pathes [] (Koala_Initialize : State V) := by
  refine ⟨⟨by simp, fun before w path result after h => ?_, ⟨List.nodup_nil, ?_⟩, ?_⟩, .init,
    koala.pkgnode.Init_PkgState_ordered, fun q a => ⟨?_, by simp⟩, by simp⟩
  · cases before <;> cases h
  · intro a
    simp [Koala_Initialize, Init_PkgState, koala.pkgnode.Fini_PkgState, Registered]
  · intro a q ha hq
    cases hq
  · rintro ⟨node, hnode, -⟩
    obtain ⟨name, l, hnames⟩ := List.exists_cons_of_ne_nil q.names_ne_nil
    rw [hnames] at hnode
    cases hnode

theorem mem_concat {e e' : Loading} : e' ∈ events ++ [e] ↔ e' ∈ events ∨ e' = e := by
  rw [List.mem_append, List.mem_singleton]

/-- A lookup of a longer run is the last one, or one of the run before. -/
theorem concat_eq_split {before after : List Loading} {e e' : Loading}
    (h : events ++ [e] = before ++ e' :: after) :
    (before = events ∧ e' = e) ∨ ∃ after', events = before ++ e' :: after' := by
  rcases List.eq_nil_or_concat after with rfl | ⟨after', x, rfl⟩
  · obtain ⟨rfl, heq⟩ := List.append_inj' h rfl
    exact .inl ⟨rfl, (List.cons.inj heq).1.symm⟩
  · rw [List.concat_eq_append, ← List.cons_append, ← List.append_assoc] at h
    exact .inr ⟨after', (List.append_inj' h rfl).1⟩

theorem Answers.extended {before : List Loading} {w : World} {result : Option Nat}
    {pkgs : List Package} (h : Answers pathes before w path result pkgs) (more : List Package) :
    Answers pathes before w path result (pkgs ++ more) := by
  obtain hold | ⟨hfresh, found, hoffers, hnone | ⟨p, pkg, index, hfound, hresult, hget⟩⟩ := h
  · exact .inl hold
  · exact .inr ⟨hfresh, found, hoffers, .inl hnone⟩
  · have hlt : pkg < pkgs.length := (List.getElem?_eq_some_iff.mp hget).1
    exact .inr ⟨hfresh, found, hoffers, .inr ⟨p, pkg, index, hfound, hresult,
      (List.getElem?_append_left hlt).trans hget⟩⟩

theorem registered_concat {e : Loading} {a : Nat} :
    Registered (events ++ [e]) a ↔ Registered events a ∨ e.pkg = some a := by
  constructor
  · rintro ⟨e', he', ha⟩
    obtain he' | rfl := mem_concat.mp he'
    · exact .inl ⟨e', he', ha⟩
    · exact .inr ha
  · rintro (⟨e', he', ha⟩ | ha)
    · exact ⟨e', mem_concat.mpr (.inl he'), ha⟩
    · exact ⟨e, mem_concat.mpr (.inr rfl), ha⟩

/-- A call that registers nothing: a lookup of a package that is there or that no file has,
or an addition that is refused. -/
theorem LoadInv.keep (h : LoadInv pathes events st) {e : Loading}
    (hold : ∀ a, e.pkg = some a → ∃ e' ∈ events, e'.path.names = e.path.names ∧ e'.pkg = some a)
    (hanswer : ∀ w path result, e = .get w path result →
      Answers pathes events w path result st.pkgs)
    (hpkgs : st.pkgs <+: st'.pkgs) (htree : st'.pkgstate = st.pkgstate)
    (hvars : st'.vars = st.vars) :
    LoadInv pathes (events ++ [e]) st' := by
  obtain ⟨more, hmore⟩ := hpkgs
  -- each package of the longer run is one of the run before, with a path of the same names
  have hback : ∀ e₁ ∈ events ++ [e], ∀ a, e₁.pkg = some a →
      ∃ e₂ ∈ events, e₂.path.names = e₁.path.names ∧ e₂.pkg = some a := by
    intro e₁ he₁ a ha
    obtain he₁ | rfl := mem_concat.mp he₁
    · exact ⟨e₁, he₁, rfl, ha⟩
    · exact hold a ha
  have hsame : ∀ a, Registered (events ++ [e]) a ↔ Registered events a := by
    intro a
    rw [registered_concat, or_iff_left_iff_imp]
    intro ha
    obtain ⟨e', he', -, ha'⟩ := hold a ha
    exact ⟨e', he', ha'⟩
  have hget : ∀ {a : Nat} {q : Package}, Registered events a → st'.pkgs[a]? = some q →
      st.pkgs[a]? = some q := by
    rintro a q ⟨e', he', ha⟩ hq
    rw [← hmore] at hq
    exact (List.getElem?_append_left (h.lt e' he' a ha)).symm.trans hq
  refine ⟨⟨fun e₁ he₁ e₂ he₂ a b ha hb => ?_, fun before w path result after hsplit => ?_,
    ⟨htree ▸ h.fini.1, fun a => ?_⟩, fun a q ha hq hne => ?_⟩, htree ▸ h.reachable,
    htree ▸ h.ordered, fun q a => ?_, fun e₁ he₁ a ha => ?_⟩
  · obtain ⟨e₃, he₃, hnames, ha⟩ := hback e₁ he₁ a ha
    obtain ⟨e₄, he₄, hnames', hb⟩ := hback e₂ he₂ b hb
    rw [← hnames, ← hnames']
    exact h.same e₃ he₃ e₄ he₄ a b ha hb
  · rw [← hmore]
    obtain ⟨rfl, rfl⟩ | ⟨after', hsplit⟩ := concat_eq_split hsplit
    · exact (hanswer w path result rfl).extended more
    · exact (h.answers before w path result after' hsplit).extended more
  · rw [htree, hsame]
    exact h.fini.2 a
  · have ha' := (hsame a).mp ha
    obtain ⟨hi, hapart⟩ := h.vars a q ha' (hget ha' hq) hne
    refine ⟨hvars ▸ hi, fun b q' hb hq' hne' hindex => ?_⟩
    have hb' := (hsame b).mp hb
    exact hapart b q' hb' (hget hb' hq') hne' hindex
  · rw [htree, h.node]
    constructor
    · rintro ⟨e₁, he₁, hnames, ha⟩
      exact ⟨e₁, mem_concat.mpr (.inl he₁), hnames, ha⟩
    · rintro ⟨e₁, he₁, hnames, ha⟩
      obtain ⟨e₂, he₂, hnames', ha'⟩ := hback e₁ he₁ a ha
      exact ⟨e₂, he₂, hnames'.trans hnames, ha'⟩
  · obtain ⟨e₂, he₂, -, ha'⟩ := hback e₁ he₁ a ha
    rw [← hmore, List.length_append]
    exact Nat.lt_add_right _ (h.lt e₂ he₂ a ha')

/-- The new package is the last one. -/
theorem Registers.last (h : Registers st st' p path) :
    ∃ index, st'.pkgs = st.pkgs ++ [{ p with index }] := by
  obtain ⟨-, hpkgs, -⟩ | ⟨-, hpkgs, -⟩ := h.stored
  · exact ⟨_, hpkgs⟩
  · exact ⟨_, hpkgs⟩

/-- The tuples of variables stay apart when a package is registered. -/
theorem LoadInv.register_vars (h : LoadInv pathes events st) (hreg : Registers st st' p path)
    {e : Loading} (hpkg : e.pkg = some st.pkgs.length) :
    ∀ (a : Nat) (q : Package), Registered (events ++ [e]) a → st'.pkgs[a]? = some q →
      q.nrvars ≠ 0 →
      (∃ i : Nat, q.index = i ∧ st'.vars[i]? = some (Tuple_New q.nrvars)) ∧
      ∀ (b : Nat) (q' : Package), Registered (events ++ [e]) b → st'.pkgs[b]? = some q' →
        q'.nrvars ≠ 0 → q'.index = q.index → b = a := by
  have hcases : ∀ {a : Nat} {q q₀ : Package}, Registered (events ++ [e]) a →
      (st.pkgs ++ [q₀])[a]? = some q →
      Registered events a ∧ st.pkgs[a]? = some q ∨ a = st.pkgs.length ∧ q = q₀ := by
    intro a q q₀ ha hq
    obtain ⟨e', he', ha'⟩ | hnew := registered_concat.mp ha
    · exact .inl ⟨⟨e', he', ha'⟩, (List.getElem?_append_left (h.lt e' he' a ha')).symm.trans hq⟩
    · obtain rfl := Option.some.inj (hpkg.symm.trans hnew)
      rw [List.getElem?_concat_length] at hq
      exact .inr ⟨rfl, (Option.some.inj hq).symm⟩
  obtain ⟨hzero, hpkgs, hvars⟩ | ⟨hne, hpkgs, hvars⟩ := hreg.stored
  · -- it has no variables
    rw [hpkgs, hvars]
    have hback : ∀ {a : Nat} {q : Package}, Registered (events ++ [e]) a →
        (st.pkgs ++ [{ p with index := -1 }])[a]? = some q → q.nrvars ≠ 0 →
        Registered events a ∧ st.pkgs[a]? = some q := by
      intro a q ha hq hne
      obtain hold | ⟨-, rfl⟩ := hcases ha hq
      · exact hold
      · exact absurd hzero hne
    intro a q ha hq hq0
    obtain ⟨ha, hq⟩ := hback ha hq hq0
    obtain ⟨hi, hapart⟩ := h.vars a q ha hq hq0
    refine ⟨hi, fun b q' hb hq' hq'0 => ?_⟩
    obtain ⟨hb, hq'⟩ := hback hb hq' hq'0
    exact hapart b q' hb hq' hq'0
  · rw [hpkgs, hvars]
    have hbound : ∀ {a : Nat} {q : Package}, Registered events a → st.pkgs[a]? = some q →
        q.nrvars ≠ 0 → q.index ≠ st.vars.length := by
      intro a q ha hq hq0 heq
      obtain ⟨⟨i, hi, htuple⟩, -⟩ := h.vars a q ha hq hq0
      have hlt := (List.getElem?_eq_some_iff.mp htuple).1
      omega
    intro a q ha hq hq0
    obtain ⟨ha, hq⟩ | ⟨rfl, rfl⟩ := hcases ha hq
    · obtain ⟨⟨i, hi, htuple⟩, hapart⟩ := h.vars a q ha hq hq0
      refine ⟨⟨i, hi, ?_⟩, fun b q' hb hq' hq'0 hindex => ?_⟩
      · exact (List.getElem?_append_left (List.getElem?_eq_some_iff.mp htuple).1).trans htuple
      · obtain ⟨hb, hq'⟩ | ⟨-, rfl⟩ := hcases hb hq'
        · exact hapart b q' hb hq' hq'0 hindex
        · exact absurd hindex.symm (hbound ha hq hq0)
    · refine ⟨⟨st.vars.length, rfl, List.getElem?_concat_length⟩, fun b q' hb hq' hq'0 hindex => ?_⟩
      obtain ⟨hb, hq'⟩ | ⟨rfl, -⟩ := hcases hb hq'
      · exact absurd hindex (hbound hb hq' hq'0)
      · rfl

/-- The places of the tree behind a registration. -/
theorem LoadInv.register_node (h : LoadInv pathes events st) (hreg : Registers st st' p path)
    (q : Path) (a : Nat) :
    (∃ node, st'.pkgstate.node_at q.names = some node ∧ st'.pkgstate.IsLeaf node a) ↔
      (∃ e ∈ events, e.path.names = q.names ∧ e.pkg = some a) ∨
        path.names = q.names ∧ a = st.pkgs.length := by
  obtain ⟨new, hgrown⟩ := hreg.grown
  have hunique : ∀ {ps : PkgState Nat} {node : NodePtr} {a b : Nat}, ps.IsLeaf node a →
      ps.IsLeaf node b → a = b := by
    intro ps node a b ha hb
    cases ha.symm.trans hb
    rfl
  constructor
  · rintro ⟨node, hnode, hleaf⟩
    by_cases hplace : q.names = path.names
    · rw [hplace, hgrown.found] at hnode
      cases hnode
      exact .inr ⟨hplace.symm, hunique hleaf hgrown.leaf⟩
    · obtain hsame | ⟨-, dir, hdir, ⟨children, hpayload⟩, -⟩ := hgrown.others q.names hplace
      · rw [hsame] at hnode
        obtain ⟨children, hpayload⟩ | ⟨b, hb⟩ := koala.pkgnode.isDir_or_isLeaf hnode
        · obtain ⟨children', hdir⟩ := hgrown.dirs node ⟨children, hpayload⟩
          cases hdir.symm.trans hleaf
        · obtain rfl := hunique hleaf (hgrown.leafs node b hb)
          exact .inl ((h.node q a).mp ⟨node, hnode, hb⟩)
      · rw [hdir] at hnode
        cases hnode
        cases hpayload.symm.trans hleaf
  · rintro (hold | ⟨hplace, rfl⟩)
    · obtain ⟨node, hnode, hleaf⟩ := (h.node q a).mpr hold
      exact ⟨node, hgrown.kept hreg.fresh hnode, hgrown.leafs node a hleaf⟩
    · exact ⟨new, hplace ▸ hgrown.found, hgrown.leaf⟩

/-- A package is registered. -/
theorem LoadInv.register (h : LoadInv pathes events st) {e : Loading}
    (hreg : Registers st st' p e.path) (hpkg : e.pkg = some st.pkgs.length)
    (hanswer : ∀ w path result, e = .get w path result →
      Answers pathes events w path result st'.pkgs) :
    LoadInv pathes (events ++ [e]) st' := by
  obtain ⟨new, hgrown⟩ := hreg.grown
  obtain ⟨index, hpkgs⟩ := hreg.last
  have hfini : koala.pkgnode.Fini_PkgState st'.pkgstate =
      koala.pkgnode.Fini_PkgState st.pkgstate ++ [st.pkgs.length] := hgrown.leaves
  have hnew : ∀ e' ∈ events, e'.path.names = e.path.names → e'.pkg = none := by
    intro e' he' hnames
    by_contra hsome
    obtain ⟨a, ha⟩ := Option.ne_none_iff_exists'.mp hsome
    obtain ⟨node, hnode, -⟩ := (h.node e.path a).mpr ⟨e', he', hnames, ha⟩
    rw [hreg.fresh] at hnode
    cases hnode
  refine ⟨⟨fun e₁ he₁ e₂ he₂ a b ha hb => ?_, fun before w path result after hsplit => ?_,
    ⟨?_, fun a => ?_⟩, h.register_vars hreg hpkg⟩, hreg.reachable, hgrown.ordered, fun q a => ?_,
    fun e' he' a ha => ?_⟩
  · obtain hold₁ | rfl := mem_concat.mp he₁
    · obtain hold₂ | rfl := mem_concat.mp he₂
      · exact h.same e₁ hold₁ e₂ hold₂ a b ha hb
      · obtain rfl := Option.some.inj (hpkg.symm.trans hb)
        refine ⟨fun heq => absurd (h.lt e₁ hold₁ a ha) (heq ▸ Nat.lt_irrefl _), fun heq => ?_⟩
        cases ha.symm.trans (hnew e₁ hold₁ heq)
    · obtain rfl := Option.some.inj (hpkg.symm.trans ha)
      obtain hold₂ | rfl := mem_concat.mp he₂
      · refine ⟨fun heq => absurd (h.lt e₂ hold₂ b hb) (heq ▸ Nat.lt_irrefl _), fun heq => ?_⟩
        cases hb.symm.trans (hnew e₂ hold₂ heq.symm)
      · exact ⟨fun _ => rfl, fun _ => Option.some.inj (hpkg.symm.trans hb)⟩
  · obtain ⟨rfl, rfl⟩ | ⟨after', hsplit⟩ := concat_eq_split hsplit
    · exact hanswer w path result rfl
    · rw [hpkgs]
      exact (h.answers before w path result after' hsplit).extended _
  · rw [hfini]
    refine List.nodup_append.mpr ⟨h.fini.1, List.nodup_singleton _, fun a ha b hb heq => ?_⟩
    obtain ⟨e', he', ha'⟩ := (h.fini.2 a).mp ha
    have hlt := h.lt e' he' a ha'
    rw [heq, List.mem_singleton.mp hb] at hlt
    exact Nat.lt_irrefl _ hlt
  · rw [hfini, List.mem_append, List.mem_singleton, h.fini.2, registered_concat, hpkg,
      Option.some_inj, eq_comm]
  · rw [h.register_node hreg]
    constructor
    · rintro (⟨e', he', hnames, ha⟩ | ⟨hnames, rfl⟩)
      · exact ⟨e', mem_concat.mpr (.inl he'), hnames, ha⟩
      · exact ⟨e, mem_concat.mpr (.inr rfl), hnames, hpkg⟩
    · rintro ⟨e', he', hnames, ha⟩
      obtain he' | rfl := mem_concat.mp he'
      · exact .inl ⟨e', he', hnames, ha⟩
      · exact .inr ⟨hnames, Option.some.inj (ha.symm.trans hpkg)⟩
  · rw [hpkgs, List.length_append, List.length_singleton]
    obtain he' | rfl := mem_concat.mp he'
    · exact Nat.lt_succ_of_lt (h.lt e' he' a ha)
    · exact Nat.lt_succ_of_le (Nat.le_of_eq (Option.some.inj (ha.symm.trans hpkg)))

/-- A directory without an image comes before those that are searched. -/
theorem Offers.cons {w : World} {name dir : CString} {found : Option koala.package.Package}
    (h : Offers w name pathes found) (hread : read_file w dir name = .ok none) :
    Offers w name (dir :: pathes) found := by
  cases h with
  | nowhere hnone =>
    refine .nowhere fun pre hpre => ?_
    obtain rfl | hpre := List.mem_cons.mp hpre
    · exact hread
    · exact hnone pre hpre
  | @first before after pre image p hbefore hread' hp =>
    refine @Offers.first w name (dir :: before) after pre image p (fun pre' hpre' => ?_) hread' hp
    obtain rfl | hpre' := List.mem_cons.mp hpre'
    · exact hread
    · exact hbefore pre' hpre'

/-- The search answers what the files say. -/
theorem search_offers {w : World} {str : Nat → CString} {name : CString} {vals : List Nat}
    {found : Option koala.package.Package} (h : search w str name (vals.map some) = .ok found) :
    Offers w name (vals.map str) found := by
  induction vals with
  | nil =>
    cases h
    exact .nowhere (by simp)
  | cons pre vals ih =>
    rw [List.map_cons, search] at h
    obtain ⟨image, hread, h⟩ := bind_eq_ok_iff.mp h
    cases image with
    | some image =>
      obtain ⟨p, hp, h⟩ := bind_eq_ok_iff.mp h
      cases h
      exact @Offers.first w name [] _ _ image p (by simp) hread hp
    | none => exact (ih h).cons hread

/-- The directories are the values that were put under their key. -/
theorem search_values {puts : List (CString × CString)} (hrep : rt.properties.Rep puts)
    (hs : Succeeded rt.properties.heap) {w : World} {name : CString}
    {vec : Option (vector.Vector Nat)} {found : Option koala.package.Package}
    (hvec : Properties_Get rt.properties KOALA_PATH = .ok vec)
    (h : search w rt.properties.pool.str name (vec.elim [] vector.Vector.list) = .ok found) :
    Offers w name (values puts KOALA_PATH) found := by
  obtain ⟨hfind, hnone⟩ | ⟨e, entry, hfind, hget, hholds, hkey, -⟩ := hrep.found KOALA_PATH
  · rw [Properties_Get, hfind] at hvec
    cases hvec
    rw [hnone]
    exact @search_offers w rt.properties.pool.str name [] found h
  · rw [Properties_Get, hfind, ok_bind] at hvec
    simp only [hget] at hvec
    cases hvec
    obtain ⟨vals, hlist, -, htext⟩ := hholds.items hs
    rw [hkey] at htext
    rw [Option.elim_some, hlist] at h
    exact htext ▸ search_offers h

/-- A path that names nothing was not registered. -/
theorem LoadInv.fresh (h : LoadInv pathes events st)
    (hnone : st.pkgstate.node_at path.names = none) :
    ∀ e ∈ events, e.path.names = path.names → e.pkg = none := by
  intro e he hnames
  by_contra hsome
  obtain ⟨a, ha⟩ := Option.ne_none_iff_exists'.mp hsome
  obtain ⟨node, hnode, -⟩ := (h.node path a).mpr ⟨e, he, hnames, ha⟩
  rw [hnone] at hnode
  cases hnode

/-- An addition of a package. -/
theorem LoadInv.add (h : LoadInv pathes events st) {res : Int}
    (hadd : Koala_Add_Package (st.allocate p) path.str st.pkgs.length = .ok (res, st')) :
    LoadInv pathes (events ++ [.add path p (if res = 0 then some st.pkgs.length else none)])
      st' := by
  obtain ⟨rfl, -, rfl⟩ | ⟨rfl, hreg⟩ := Koala_Add_Package_registers h.reachable h.ordered hadd
  · refine h.keep (fun a ha => ?_) (by simp) (List.prefix_append _ _) rfl rfl
    cases ha
  · exact h.register hreg rfl (by simp)

/-- A lookup of a package. -/
theorem LoadInv.get (h : LoadInv pathes events rt.st) {puts : List (CString × CString)}
    (hrep : rt.properties.Rep puts) (hs : Succeeded rt.properties.heap) {w : World}
    {result : Option Nat} (hget : Koala_Get_Package w rt path.str = .ok (result, rt'))
    (hpathes : values puts KOALA_PATH = pathes) :
    LoadInv pathes (events ++ [.get w path result]) rt'.st ∧ rt'.properties = rt.properties := by
  rw [Koala_Get_Package, koala.pkgnode.Find_PkgNode_eq, ok_bind] at hget
  cases hnode : rt.st.pkgstate.node_at path.names with
  | some node =>
    -- it was loaded before
    rw [hnode] at hget
    dsimp only at hget
    split at hget
    · next data hdata =>
      cases hget
      obtain ⟨e, he, hnames, hpkg⟩ := (h.node path data).mp ⟨node, hnode, hdata⟩
      refine ⟨h.keep (fun a ha => ?_) (fun w' path' result' heq => ?_) (List.prefix_refl _) rfl rfl,
        rfl⟩
      · cases ha
        exact ⟨e, he, hnames, hpkg⟩
      · cases heq
        exact .inl ⟨e, he, hnames, hpkg, rfl⟩
    · cases hget
  | none =>
    rw [hnode] at hget
    dsimp only at hget
    obtain ⟨vec, hvec, hget⟩ := bind_eq_ok_iff.mp hget
    obtain ⟨found, hsearch, hget⟩ := bind_eq_ok_iff.mp hget
    have hoffers : Offers w path.str pathes found := hpathes ▸ search_values hrep hs hvec hsearch
    cases found with
    | none =>
      cases hget
      refine ⟨h.keep (by simp [Loading.pkg]) (fun w' path' result' heq => ?_) (List.prefix_refl _)
        rfl rfl, rfl⟩
      cases heq
      exact .inr ⟨h.fresh hnode, none, hoffers, .inl ⟨rfl, rfl⟩⟩
    | some p =>
      obtain ⟨⟨res, st⟩, hadd, hget⟩ := bind_eq_ok_iff.mp hget
      cases hget
      obtain ⟨-, hsome, -⟩ | ⟨-, hreg⟩ := Koala_Add_Package_registers h.reachable h.ordered hadd
      · exact absurd hnode hsome
      · refine ⟨h.register hreg rfl fun w' path' result' heq => ?_, rfl⟩
        cases heq
        obtain ⟨index, hpkgs⟩ := hreg.last
        refine .inr ⟨h.fresh hnode, some p, hoffers, .inr ⟨p, _, index, rfl, rfl, ?_⟩⟩
        rw [hpkgs, List.getElem?_concat_length]

/-- The directories are put under their key one after another. -/
theorem put_pathes_rep {a : Allocator} {puts : List (CString × CString)} {properties' : Properties}
    (hrep : properties.Rep puts) (h : put_pathes a properties pathes = .ok properties') :
    ∃ puts', properties'.Rep puts' ∧
      values puts' KOALA_PATH = values puts KOALA_PATH ++ pathes := by
  induction pathes generalizing properties puts with
  | nil =>
    cases h
    exact ⟨puts, hrep, (List.append_nil _).symm⟩
  | cons path pathes ih =>
    obtain ⟨properties₁, hput, hrep₁, -, -⟩ := hrep.put a KOALA_PATH path
    rw [put_pathes, hput] at h
    obtain ⟨puts', hrep', hvalues⟩ := ih hrep₁ h
    refine ⟨puts', hrep', hvalues.trans ?_⟩
    rw [koala.properties.values_append, if_pos rfl, List.append_assoc, List.singleton_append]

theorem koala_set_pathes_rep {a : Allocator} {pool : koala.atomstring.StringPool} {heap : Heap}
    (hpool : pool.Interned)
    (h : koala_set_pathes a (Properties_Init pool heap) pathes = .ok properties) :
    ∃ puts, properties.Rep puts ∧ values puts KOALA_PATH = DOT :: pathes := by
  obtain ⟨properties₁, hput, hrep₁, -, -⟩ :=
    (koala.properties.rep_init hpool heap).put a KOALA_PATH DOT
  rw [koala_set_pathes, hput] at h
  obtain ⟨puts, hrep, hvalues⟩ := put_pathes_rep hrep₁ h
  exact ⟨puts, hrep, hvalues.trans (by simp [values])⟩

/-- What every run keeps. -/
theorem Loads.inv {puts : List (CString × CString)} (h : Loads rt events rt')
    (hinit : LoadInv pathes [] rt.st) (hrep : rt.properties.Rep puts)
    (hs : Succeeded rt.properties.heap) (hpathes : values puts KOALA_PATH = pathes) :
    LoadInv pathes events rt'.st ∧ rt'.properties = rt.properties := by
  induction h with
  | nil => exact ⟨hinit, rfl⟩
  | step _ hstep ih =>
    obtain ⟨hinv, hsame⟩ := ih
    cases hstep with
    | add hadd => exact ⟨hinv.add hadd, hsame⟩
    | get hget =>
      obtain ⟨hinv', hsame'⟩ := hinv.get (hsame ▸ hrep) (hsame ▸ hs) hget hpathes
      exact ⟨hinv', hsame'.trans hsame⟩

def io_pkg : koala.package.Package :=
  koala.package.Pkg_New (.ofData ("io".toList.map Char.toUInt8))

def no_files : World := ⟨fun _ => none, fun item => item, 0⟩

/-- `koala/io` is added, looked up, and added again. -/
def io_events : List Loading :=
  [.add io_path io_pkg (some 0), .get no_files io_path (some 0),
    .add io_path io_pkg none]

def io_tree : PkgState Nat :=
  ⟨[⟨"koala".toList.map Char.toUInt8, .root, .dir [.new 1]⟩,
    ⟨"io".toList.map Char.toUInt8, .new 0, .leaf 0⟩], [.new 0]⟩

def io_loaded : State Nat := ⟨[{ io_pkg with index := -1 }], io_tree, []⟩

def dot_properties : Res Properties :=
  koala_set_pathes koala.properties.generous
    (Properties_Init koala.atomstring.AtomString_Init []) []

theorem dot_properties_ok : ∃ properties, dot_properties = .ok properties ∧
    Succeeded properties.heap := by
  have hok : dot_properties.toOption.any (·.heap.all (·.2)) = true := by decide +kernel
  cases h : dot_properties with
  | error e =>
    rw [h] at hok
    cases hok
  | ok properties =>
    rw [h] at hok
    exact ⟨properties, rfl, List.all_eq_true.mp hok⟩

theorem io_loads (properties : Properties) :
    Loads (⟨Koala_Initialize, properties⟩ : Runtime Nat) io_events
      ⟨io_loaded.allocate io_pkg, properties⟩ := by
  have hadd : Koala_Add_Package ((Koala_Initialize : State Nat).allocate io_pkg)
      io_path.str 0 = .ok (0, io_loaded) := by
    rw [Koala_Add_Package, koala.pkgnode.Add_PkgNode_eq, koala.pkgnode.io_path_names]
    rfl
  have hget : Koala_Get_Package no_files (⟨io_loaded, properties⟩ : Runtime Nat) io_path.str =
      .ok (some 0, ⟨io_loaded, properties⟩) := by
    rw [Koala_Get_Package, koala.pkgnode.Find_PkgNode_eq, koala.pkgnode.io_path_names]
    rfl
  have hagain : Koala_Add_Package (io_loaded.allocate io_pkg) io_path.str 1 =
      .ok (-1, io_loaded.allocate io_pkg) := by
    rw [Koala_Add_Package, koala.pkgnode.Add_PkgNode_eq, koala.pkgnode.io_path_names]
    rfl
  have hfirst := @Loading.Step.add Nat ⟨Koala_Initialize, properties⟩ _ _ _ _ hadd
  have hsecond := Loading.Step.get hget
  have hthird := @Loading.Step.add Nat ⟨io_loaded, properties⟩ _ _ _ _ hagain
  exact ((Loads.nil.step hfirst).step hsecond).step hthird

/-- Packages are loaded once, from the first directory that has them. -/
theorem loaded_once {a : Allocator} {pool : koala.atomstring.StringPool} {heap : Heap}
    (hpool : pool.Interned)
    (hset : koala_set_pathes a (Properties_Init pool heap) pathes = .ok properties)
    (hs : Succeeded properties.heap)
    (h : Loads (⟨Koala_Initialize, properties⟩ : Runtime V) events rt) :
    Loaded (DOT :: pathes) events rt.st := by
  obtain ⟨puts, hrep, hpathes⟩ := koala_set_pathes_rep hpool hset
  exact (h.inv loadInv_init hrep hs hpathes).1.toLoaded

theorem loaded_once_io : ∃ properties, dot_properties = .ok properties ∧
    Loaded [DOT] io_events (io_loaded.allocate io_pkg) := by
  obtain ⟨properties, hset, hs⟩ := dot_properties_ok
  exact ⟨properties, hset,
    loaded_once koala.atomstring.interned_init hset hs (io_loads properties)⟩

end koala.state
