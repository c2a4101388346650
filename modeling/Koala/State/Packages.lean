import Koala.PkgNode.Model
import Koala.Package.Model
import Koala.HashTable.Named
import Koala.PkgNode.Tree

open koala.package (MNode Member CodeObject Find_MNode)
open koala.pkgnode (PkgState Init_PkgState Add_PkgNode)
open koala.typedesc

namespace koala.state

set_option linter.style.nameCheck false

/-- A package, with the index of its variables. -/
structure Package extends koala.package.Package where
  index : Int

/-- The packages that were allocated, in their order, the package tree, and the vector
`variables` of tuples with the variables of packages. -/
structure State (V : Type) where
  pkgs : List Package
  pkgstate : PkgState Nat
  vars : List (List (Option V))

variable {V : Type}

def Koala_Initialize : State V := ⟨[], Init_PkgState, []⟩

def Pkg_New (st : State V) (name : CString) : State V :=
  { st with pkgs := st.pkgs ++ [{ koala.package.Pkg_New name with index := 0 }] }

/-- A call on the package at some address. -/
def on_package (st : State V) (pkg : Nat) (f : Package → Res Package) : Res (State V) :=
  match st.pkgs[pkg]? with
  | none => .error .null
  | some p => do
    let p ← f p
    .ok { st with pkgs := st.pkgs.set pkg p }

def Pkg_Add_Var (st : State V) (pkg : Nat) (name : CString) (desc : TypeDesc) : Res (State V) :=
  on_package st pkg fun p =>
    .ok { koala.package.Pkg_Add_Var p.toPackage name desc with index := p.index }

def Pkg_Add_Const (st : State V) (pkg : Nat) (name : CString) (desc : TypeDesc)
    (val : Option koala.package.Object) : Res (State V) :=
  on_package st pkg fun p => do
    let p' ← koala.package.Pkg_Add_Const p.toPackage name desc val
    .ok { p' with index := p.index }

def Pkg_Add_Func (st : State V) (pkg : Nat) (code : CodeObject) : Res (State V) :=
  on_package st pkg fun p =>
    .ok { koala.package.Pkg_Add_Func p.toPackage code with index := p.index }

/-- The slots of a new tuple are empty. -/
def Tuple_New (size : Nat) : List (Option V) := List.replicate size none

/-- A package without variables takes no tuple. -/
def Koala_Add_Package (st : State V) (path : CString) (pkg : Nat) : Res (Int × State V) := do
  let (node, pkgstate) ← Add_PkgNode st.pkgstate path pkg
  let st := { st with pkgstate }
  match node, st.pkgs[pkg]? with
  | none, _ => .ok (-1, st)
  | some _, none => .error .null
  | some _, some p =>
    if p.nrvars = 0 then .ok (0, { st with pkgs := st.pkgs.set pkg { p with index := -1 } })
    else .ok (0, { st with
      pkgs := st.pkgs.set pkg { p with index := st.vars.length }
      vars := st.vars ++ [Tuple_New p.nrvars] })

/-- `Vector_Get`, which answers NULL behind the last element. -/
def Vector_Get {α : Type} (vec : List α) (index : Int) : Option α :=
  if index < 0 then none else vec[index.toNat]?

/-- The value replaces the one in the slot, or the index is out of bounds. -/
def Tuple_Set (tuple : List (Option V)) (index : Nat) (val : V) : Int × List (Option V) :=
  if index < tuple.length then (0, tuple.set index (some val)) else (-1, tuple)

def Tuple_Get (tuple : List (Option V)) (index : Nat) : Option V := tuple[index]?.join

def Koala_Set_Value (st : State V) (pkg : Nat) (name : CString) (value : V) :
    Res (Int × State V) :=
  match st.pkgs[pkg]? with
  | none => .error .null
  | some p =>
    match Find_MNode p.mtbl name with
    | some ⟨_, .VAR_KIND _ offset⟩ =>
      match Vector_Get st.vars p.index with
      | none => .error .null
      | some tuple =>
        let (res, tuple) := Tuple_Set tuple offset value
        .ok (res, { st with vars := st.vars.set p.index.toNat tuple })
    | _ => .error .assertion

/-- What a name of a package stands for. -/
inductive Value (V : Type) where
  | constant (value : koala.package.Object)
  | var (value : Option V)

def Koala_Get_Value (st : State V) (pkg : Nat) (name : CString) : Res (Value V) :=
  match st.pkgs[pkg]? with
  | none => .error .null
  | some p =>
    match Find_MNode p.mtbl name with
    | some ⟨_, .VAR_KIND _ offset⟩ =>
      match Vector_Get st.vars p.index with
      | none => .error .null
      | some tuple => .ok (.var (Tuple_Get tuple offset))
    | some ⟨_, .CONST_KIND _ value⟩ => .ok (.constant value)
    | _ => .error .assertion

end koala.state

open koala.hashtable
open koala.package (MNode Member CodeObject Find_MNode mtbl_insert m_hash_func m_equal_func)
open koala.pkgnode (PkgState Init_PkgState Add_PkgNode Find_PkgNode)
open koala.typedesc

namespace koala.state

set_option linter.style.nameCheck false

/-- The members of a package have names of their own. -/
abbrev Members (mtbl : Buckets MNode) : Prop := mtbl.Named MNode.name m_hash_func

theorem Find_MNode_eq (mtbl : Buckets MNode) (name : CString) :
    Find_MNode mtbl name = mtbl.get MNode.name m_hash_func name := rfl

theorem mtbl_insert_eq (mtbl : Buckets MNode) (m : MNode) :
    mtbl_insert mtbl m = mtbl.put MNode.name m_hash_func m := rfl

/-- Each variable has an offset of its own among those that are counted. -/
structure Numbered (p : Package) : Prop where
  members : Members p.mtbl
  bound : ∀ {name desc offset}, Find_MNode p.mtbl name = some ⟨name, .VAR_KIND desc offset⟩ →
    offset < p.nrvars
  apart : ∀ {name name' desc desc' offset},
    Find_MNode p.mtbl name = some ⟨name, .VAR_KIND desc offset⟩ →
    Find_MNode p.mtbl name' = some ⟨name', .VAR_KIND desc' offset⟩ → name = name'

section numbered

variable {p p' : Package}

theorem numbered_new (name : CString) :
    Numbered { koala.package.Pkg_New name with index := 0 } := by
  have hnone : ∀ n, Find_MNode (koala.package.Pkg_New name).mtbl n = none :=
    fun n => Buckets.named_init.get_eq_none_iff.mpr fun x hx => nomatch hx
  refine ⟨Buckets.named_init, fun h => ?_, fun h => ?_⟩
  · cases (hnone _).symm.trans h
  · cases (hnone _).symm.trans h

/-- A member that is no variable changes no variable. -/
theorem Numbered.insert (h : Numbered p) {m : MNode} (hmtbl : p'.mtbl = mtbl_insert p.mtbl m)
    (hnrvars : p'.nrvars = p.nrvars) (hm : ∀ name desc offset, m ≠ ⟨name, .VAR_KIND desc offset⟩) :
    Numbered p' ∧ ∀ name desc offset,
      Find_MNode p'.mtbl name = some ⟨name, .VAR_KIND desc offset⟩ ↔
        Find_MNode p.mtbl name = some ⟨name, .VAR_KIND desc offset⟩ := by
  have hfind : ∀ name desc offset,
      Find_MNode p'.mtbl name = some ⟨name, .VAR_KIND desc offset⟩ ↔
        Find_MNode p.mtbl name = some ⟨name, .VAR_KIND desc offset⟩ := by
    intro name desc offset
    rw [hmtbl, mtbl_insert_eq, Find_MNode_eq, Find_MNode_eq, h.members.get_put]
    split
    · next hnew =>
      obtain ⟨hnone, rfl⟩ := hnew
      rw [hnone]
      exact ⟨fun heq => absurd (Option.some.inj heq) (hm _ _ _), by simp⟩
    · exact Iff.rfl
  have hmembers : Members p'.mtbl := hmtbl ▸ h.members.put m
  refine ⟨⟨hmembers, fun hvar => ?_, fun hvar hvar' => ?_⟩, hfind⟩
  · rw [hnrvars]
    exact h.bound ((hfind _ _ _).mp hvar)
  · exact h.apart ((hfind _ _ _).mp hvar) ((hfind _ _ _).mp hvar')

/-- A variable with a new name takes the next offset. -/
theorem Numbered.add_var (h : Numbered p) {name : CString}
    (hnone : Find_MNode p.mtbl name = none) (desc : TypeDesc) :
    Numbered { koala.package.Pkg_Add_Var p.toPackage name desc with index := p.index } := by
  have hfind : ∀ n, Find_MNode (koala.package.Pkg_Add_Var p.toPackage name desc).mtbl n =
      if n = name then some ⟨name, .VAR_KIND desc p.nrvars⟩ else Find_MNode p.mtbl n := by
    intro n
    rw [koala.package.Pkg_Add_Var, mtbl_insert_eq, Find_MNode_eq, h.members.get_put]
    simp only [show p.mtbl.get MNode.name m_hash_func name = none from hnone, true_and]
    rfl
  refine ⟨h.members.put _, fun {n d offset} hvar => ?_, fun {n n' d d' offset} hvar hvar' => ?_⟩
  · change offset < p.nrvars + 1
    rw [hfind] at hvar
    split at hvar
    · cases hvar
      exact Nat.lt_succ_self _
    · exact Nat.lt_succ_of_lt (h.bound hvar)
  · rw [hfind] at hvar hvar'
    split at hvar <;> split at hvar'
    · next hn hn' => rw [hn, hn']
    · cases hvar
      exact absurd (h.bound hvar') (Nat.lt_irrefl _)
    · cases hvar'
      exact absurd (h.bound hvar) (Nat.lt_irrefl _)
    · exact h.apart hvar hvar'

end numbered

/-- What happens to the variables of a package: it is registered, or one of them is set. -/
inductive Event (V : Type) where
  | registered (pkg : Nat)
  | set (pkg : Nat) (name : CString) (value : V)
  deriving DecidableEq

section runs

variable {V : Type}

/-- The calls on packages that lead to a state, and what happened in them. Variables have new names,
and are added before their package is registered. -/
inductive Run : State V → List (Event V) → Prop where
  | init : Run Koala_Initialize []
  | new {st events} (h : Run st events) (name : CString) : Run (Pkg_New st name) events
  | add_var {st st' events pkg name desc} (h : Run st events) (hnot : .registered pkg ∉ events)
    (hfree : ∀ p, st.pkgs[pkg]? = some p → Find_MNode p.mtbl name = none)
    (hadd : Pkg_Add_Var st pkg name desc = .ok st') : Run st' events
  | add_const {st st' events pkg name desc val} (h : Run st events)
    (hadd : Pkg_Add_Const st pkg name desc val = .ok st') : Run st' events
  | add_func {st st' events pkg code} (h : Run st events)
    (hadd : Pkg_Add_Func st pkg code = .ok st') : Run st' events
  | register {st st' events path pkg} (h : Run st events)
    (hadd : Koala_Add_Package st path pkg = .ok (0, st')) : Run st' (events ++ [.registered pkg])
  | reject {st st' events path pkg} (h : Run st events)
    (hadd : Koala_Add_Package st path pkg = .ok (-1, st')) : Run st' events
  | set {st st' events pkg name value res} (h : Run st events) (hreg : .registered pkg ∈ events)
    (hset : Koala_Set_Value st pkg name value = .ok (res, st')) :
    Run st' (events ++ [.set pkg name value])

/-- The value a variable was set to last. -/
def last_set (pkg : Nat) (name : CString) (events : List (Event V)) : Option V :=
  events.foldl (fun last event => match event with
    | .registered _ => last
    | .set pkg' name' value => if pkg' = pkg ∧ name' = name then some value else last) none

/-- The value a variable was set to last, since its package was registered last. -/
def last_value (pkg : Nat) (name : CString) (events : List (Event V)) : Option V :=
  events.foldl (fun last event => match event with
    | .registered pkg' => if pkg' = pkg then none else last
    | .set pkg' name' value => if pkg' = pkg ∧ name' = name then some value else last) none

theorem last_value_registered (pkg pkg' : Nat) (name : CString) (events : List (Event V)) :
    last_value pkg name (events ++ [.registered pkg']) =
      if pkg' = pkg then none else last_value pkg name events := by
  rw [last_value, List.foldl_append]
  rfl

theorem last_value_set (pkg pkg' : Nat) (name name' : CString) (value : V)
    (events : List (Event V)) : last_value pkg name (events ++ [.set pkg' name' value]) =
      if pkg' = pkg ∧ name' = name then some value else last_value pkg name events := by
  rw [last_value, List.foldl_append]
  rfl

/-- The tuple of a package holds what its variables were set to. -/
structure Cells (events : List (Event V)) (pkg : Nat) (p : Package) (tuple : List (Option V)) :
    Prop where
  size : tuple.length = p.nrvars
  value : ∀ {name desc offset}, Find_MNode p.mtbl name = some ⟨name, .VAR_KIND desc offset⟩ →
    tuple[offset]? = some (last_value pkg name events)

/-- What holds in every state. -/
structure Inv (st : State V) (events : List (Event V)) : Prop where
  numbered : ∀ {pkg : Nat} {p : Package}, st.pkgs[pkg]? = some p → Numbered p
  known : ∀ {pkg : Nat}, .registered pkg ∈ events → pkg < st.pkgs.length
  cells : ∀ {pkg : Nat} {p : Package}, st.pkgs[pkg]? = some p → .registered pkg ∈ events →
    p.nrvars ≠ 0 →
    ∃ (i : Nat) (tuple : List (Option V)), p.index = i ∧ st.vars[i]? = some tuple ∧
      Cells events pkg p tuple
  apart : ∀ {pkg pkg' : Nat} {p p' : Package}, st.pkgs[pkg]? = some p →
    st.pkgs[pkg']? = some p' → .registered pkg ∈ events → .registered pkg' ∈ events →
    p.nrvars ≠ 0 → p'.nrvars ≠ 0 → p.index = p'.index → pkg = pkg'

theorem inv_init : Inv (Koala_Initialize : State V) [] :=
  ⟨fun h => by simp [Koala_Initialize] at h, fun h => (nomatch h), fun _ h => (nomatch h),
    fun _ _ h => (nomatch h)⟩

variable {st st' : State V} {events : List (Event V)} {pkg : Nat}

theorem on_package_ok {f : Package → Res Package} (h : on_package st pkg f = .ok st') :
    ∃ p p', st.pkgs[pkg]? = some p ∧ f p = .ok p' ∧
      st' = { st with pkgs := st.pkgs.set pkg p' } := by
  unfold on_package at h
  split at h
  · cases h
  · next p hp =>
    obtain ⟨p', hp', h⟩ := bind_eq_ok_iff.mp h
    cases h
    exact ⟨p, p', hp, hp', rfl⟩

theorem getElem?_set_cases {l : List Package} {n m : Nat} {p q : Package}
    (h : (l.set n p)[m]? = some q) : m = n ∧ q = p ∨ m ≠ n ∧ l[m]? = some q := by
  rw [List.getElem?_set] at h
  split at h
  · next heq =>
    split at h
    · cases h
      exact Or.inl ⟨heq.symm, rfl⟩
    · cases h
  · next hne => exact Or.inr ⟨fun heq => hne heq.symm, h⟩

/-- A package that is not registered may change. -/
theorem Inv.unregistered (h : Inv st events) {p' : Package} (hnot : .registered pkg ∉ events)
    (hp' : Numbered p') : Inv { st with pkgs := st.pkgs.set pkg p' } events := by
  have hold : ∀ {m : Nat} {q : Package}, (st.pkgs.set pkg p')[m]? = some q →
      .registered m ∈ events → st.pkgs[m]? = some q := by
    intro m q hq hreg
    rcases getElem?_set_cases hq with ⟨rfl, _⟩ | ⟨_, hq⟩
    · exact absurd hreg hnot
    · exact hq
  refine ⟨fun {m q} hq => ?_, fun hreg => ?_, fun hq hreg => ?_, fun hq hq' hreg hreg' => ?_⟩
  · rcases getElem?_set_cases hq with ⟨_, rfl⟩ | ⟨_, hq⟩
    · exact hp'
    · exact h.numbered hq
  · rw [List.length_set]
    exact h.known hreg
  · exact h.cells (hold hq hreg) hreg
  · exact h.apart (hold hq hreg) (hold hq' hreg') hreg hreg'

/-- Members that are no variables may be added at any time. -/
theorem Inv.other_member (h : Inv st events) {p p' : Package} (hp : st.pkgs[pkg]? = some p)
    {m : MNode} (hmtbl : p'.mtbl = mtbl_insert p.mtbl m) (hnrvars : p'.nrvars = p.nrvars)
    (hindex : p'.index = p.index) (hm : ∀ name desc offset, m ≠ ⟨name, .VAR_KIND desc offset⟩) :
    Inv { st with pkgs := st.pkgs.set pkg p' } events := by
  obtain ⟨hnumbered, hvars⟩ := (h.numbered hp).insert hmtbl hnrvars hm
  have hold : ∀ {m : Nat} {q : Package}, (st.pkgs.set pkg p')[m]? = some q →
      ∃ q₀, st.pkgs[m]? = some q₀ ∧ q.nrvars = q₀.nrvars ∧ q.index = q₀.index ∧ ∀ name desc offset,
        Find_MNode q.mtbl name = some ⟨name, .VAR_KIND desc offset⟩ ↔
          Find_MNode q₀.mtbl name = some ⟨name, .VAR_KIND desc offset⟩ := by
    intro m q hq
    rcases getElem?_set_cases hq with ⟨rfl, rfl⟩ | ⟨_, hq⟩
    · exact ⟨p, hp, hnrvars, hindex, hvars⟩
    · exact ⟨q, hq, rfl, rfl, fun _ _ _ => Iff.rfl⟩
  refine ⟨fun {m q} hq => ?_, fun hreg => ?_, fun {m q} hq hreg hne => ?_,
    fun hq hq' hreg hreg' hne hne' heq => ?_⟩
  · rcases getElem?_set_cases hq with ⟨_, rfl⟩ | ⟨_, hq⟩
    · exact hnumbered
    · exact h.numbered hq
  · rw [List.length_set]
    exact h.known hreg
  · obtain ⟨q₀, hq₀, hn, hi, hfind⟩ := hold hq
    obtain ⟨i, tuple, hindex, htuple, hcells⟩ := h.cells hq₀ hreg (hn ▸ hne)
    refine ⟨i, tuple, hi.trans hindex, htuple, hcells.size.trans hn.symm, fun hvar => ?_⟩
    exact hcells.value ((hfind _ _ _).mp hvar)
  · obtain ⟨q₀, hq₀, hn, hi, _⟩ := hold hq
    obtain ⟨q₁, hq₁, hn', hi', _⟩ := hold hq'
    exact h.apart hq₀ hq₁ hreg hreg' (hn ▸ hne) (hn' ▸ hne') (hi.symm.trans (heq.trans hi'))

theorem Inv.new (h : Inv st events) (name : CString) : Inv (Pkg_New st name) events := by
  have hold : ∀ {m : Nat} {q : Package}, (Pkg_New st name).pkgs[m]? = some q →
      .registered m ∈ events → st.pkgs[m]? = some q := by
    intro m q hq hreg
    rwa [Pkg_New, List.getElem?_append_left (h.known hreg)] at hq
  refine ⟨fun {m q} hq => ?_, fun hreg => ?_, fun hq hreg => ?_, fun hq hq' hreg hreg' => ?_⟩
  · rcases List.mem_append.mp (List.mem_of_getElem? hq) with hin | hin
    · obtain ⟨n, hn⟩ := List.mem_iff_getElem?.mp hin
      exact h.numbered hn
    · rw [List.mem_singleton] at hin
      exact hin ▸ numbered_new name
  · rw [Pkg_New, List.length_append]
    exact Nat.lt_add_right _ (h.known hreg)
  · exact h.cells (hold hq hreg) hreg
  · exact h.apart (hold hq hreg) (hold hq' hreg') hreg hreg'

theorem mem_registered {m : Nat} :
    Event.registered m ∈ events ++ [.registered pkg] ↔ .registered m ∈ events ∨ m = pkg := by
  rw [List.mem_append, List.mem_singleton, Event.registered.injEq]

theorem Koala_Add_Package_rejected {path : CString}
    (hadd : Koala_Add_Package st path pkg = .ok (-1, st')) :
    ∃ pkgstate, st' = { st with pkgstate } := by
  obtain ⟨⟨node, pkgstate⟩, _, hadd⟩ := bind_eq_ok_iff.mp hadd
  cases node with
  | none =>
    cases hadd
    exact ⟨pkgstate, rfl⟩
  | some node =>
    cases hp : st.pkgs[pkg]? with
    | none =>
      simp only [hp] at hadd
      cases hadd
    | some p =>
      simp only [hp] at hadd
      split at hadd <;> cases hadd

/-- A package is registered; the others keep their variables. -/
theorem Inv.register (h : Inv st events) {path : CString}
    (hadd : Koala_Add_Package st path pkg = .ok (0, st')) :
    Inv st' (events ++ [.registered pkg]) := by
  obtain ⟨⟨node, pkgstate⟩, _, hadd⟩ := bind_eq_ok_iff.mp hadd
  have hother : ∀ {m : Nat} {q : Package} {vars : List (List (Option V))} {i : Nat}
      {tuple : List (Option V)}, m ≠ pkg → q.index = i → (st.vars ++ vars)[i]? = some tuple →
      Cells events m q tuple → ∃ (i : Nat) (tuple : List (Option V)), q.index = i ∧
        (st.vars ++ vars)[i]? = some tuple ∧ Cells (events ++ [.registered pkg]) m q tuple := by
    intro m q vars i tuple hne hindex htuple hcells
    refine ⟨i, tuple, hindex, htuple, hcells.size, fun hvar => ?_⟩
    rw [last_value_registered, if_neg (Ne.symm hne)]
    exact hcells.value hvar
  cases node with
  | none => cases hadd
  | some node =>
    cases hp : st.pkgs[pkg]? with
    | none =>
      simp only [hp] at hadd
      cases hadd
    | some p =>
      simp only [hp] at hadd
      have hlt : pkg < st.pkgs.length := (List.getElem?_eq_some_iff.mp hp).1
      have hnumbered : ∀ index, Numbered { p with index } := by
        intro index
        obtain ⟨hmembers, hbound, hapart⟩ := h.numbered hp
        exact ⟨hmembers, hbound, hapart⟩
      have hnumbers : ∀ index {m : Nat} {q : Package},
          (st.pkgs.set pkg { p with index })[m]? = some q → Numbered q := by
        intro index m q hq
        rcases getElem?_set_cases hq with ⟨_, rfl⟩ | ⟨_, hq⟩
        · exact hnumbered index
        · exact h.numbered hq
      have hknown : ∀ index {m : Nat}, Event.registered m ∈ events ++ [.registered pkg] →
          m < (st.pkgs.set pkg { p with index }).length := by
        intro index m hreg
        rw [List.length_set]
        rcases mem_registered.mp hreg with hreg | rfl
        · exact h.known hreg
        · exact hlt
      split at hadd
      · next hzero =>
        cases hadd
        refine ⟨hnumbers _, hknown _, fun hq hreg hne => ?_,
          fun hq hq' hreg hreg' hne hne' heq => ?_⟩
        · rcases getElem?_set_cases hq with ⟨_, rfl⟩ | ⟨hpkg, hq⟩
          · exact absurd hzero hne
          · have hold := (mem_registered.mp hreg).resolve_right hpkg
            obtain ⟨i, tuple, hindex, htuple, hcells⟩ := h.cells hq hold hne
            rw [← List.append_nil st.vars] at htuple ⊢
            exact hother hpkg hindex htuple hcells
        · rcases getElem?_set_cases hq with ⟨_, rfl⟩ | ⟨hpkg, hq⟩
          · exact absurd hzero hne
          · rcases getElem?_set_cases hq' with ⟨_, rfl⟩ | ⟨hpkg', hq'⟩
            · exact absurd hzero hne'
            · exact h.apart hq hq' ((mem_registered.mp hreg).resolve_right hpkg)
                ((mem_registered.mp hreg').resolve_right hpkg') hne hne' heq
      · next hzero =>
        cases hadd
        have hfresh : ∀ {m : Nat} {q : Package}, m ≠ pkg → st.pkgs[m]? = some q →
            .registered m ∈ events ++ [.registered pkg] → q.nrvars ≠ 0 →
            q.index ≠ (st.vars.length : Int) := by
          intro m q hpkg hq hreg hne heq
          obtain ⟨i, tuple, hindex, htuple, _⟩ :=
            h.cells hq ((mem_registered.mp hreg).resolve_right hpkg) hne
          have hlt := (List.getElem?_eq_some_iff.mp htuple).1
          omega
        refine ⟨hnumbers _, hknown _, fun hq hreg hne => ?_,
          fun hq hq' hreg hreg' hne hne' heq => ?_⟩
        · rcases getElem?_set_cases hq with ⟨rfl, rfl⟩ | ⟨hpkg, hq⟩
          · refine ⟨st.vars.length, Tuple_New p.nrvars, rfl, List.getElem?_concat_length, ?_, ?_⟩
            · exact List.length_replicate
            · intro name desc offset hvar
              have hoffset : offset < p.nrvars := (h.numbered hp).bound hvar
              rw [last_value_registered, if_pos rfl, Tuple_New, List.getElem?_replicate,
                if_pos hoffset]
          · have hold := (mem_registered.mp hreg).resolve_right hpkg
            obtain ⟨i, tuple, hindex, htuple, hcells⟩ := h.cells hq hold hne
            have hkept : (st.vars ++ [Tuple_New p.nrvars])[i]? = some tuple := by
              rw [List.getElem?_append_left (List.getElem?_eq_some_iff.mp htuple).1, htuple]
            exact hother hpkg hindex hkept hcells
        · rcases getElem?_set_cases hq with ⟨rfl, rfl⟩ | ⟨hpkg, hq⟩
          · rcases getElem?_set_cases hq' with ⟨rfl, _⟩ | ⟨hpkg', hq'⟩
            · rfl
            · exact absurd heq.symm (hfresh hpkg' hq' hreg' hne')
          · rcases getElem?_set_cases hq' with ⟨_, rfl⟩ | ⟨hpkg', hq'⟩
            · exact absurd heq (hfresh hpkg hq hreg hne)
            · exact h.apart hq hq' ((mem_registered.mp hreg).resolve_right hpkg)
                ((mem_registered.mp hreg').resolve_right hpkg') hne hne' heq

/-- The cell of a variable of a registered package. -/
theorem Inv.cell (h : Inv st events) {p : Package} (hp : st.pkgs[pkg]? = some p)
    (hreg : .registered pkg ∈ events) {name : CString} {m : MNode} {desc : TypeDesc} {offset : Nat}
    (hfind : Find_MNode p.mtbl name = some m) (hm : m.member = .VAR_KIND desc offset) :
    ∃ (i : Nat) (tuple : List (Option V)), p.index = i ∧ st.vars[i]? = some tuple ∧
      Vector_Get st.vars p.index = some tuple ∧ Cells events pkg p tuple ∧
      Find_MNode p.mtbl name = some ⟨name, .VAR_KIND desc offset⟩ ∧ offset < tuple.length := by
  have hname : m.name = name := ((h.numbered hp).members.get_eq_some_iff.mp hfind).2
  have hvar : Find_MNode p.mtbl name = some ⟨name, .VAR_KIND desc offset⟩ := by
    rw [hfind, ← hname, ← hm]
  have hbound : offset < p.nrvars := (h.numbered hp).bound hvar
  obtain ⟨i, tuple, hindex, htuple, hcells⟩ := h.cells hp hreg (by omega)
  refine ⟨i, tuple, hindex, htuple, ?_, hcells, hvar, hcells.size ▸ hbound⟩
  rw [hindex, Vector_Get, if_neg (by omega), Int.toNat_natCast, htuple]

/-- Writing to a variable of a registered package succeeds. -/
theorem Inv.Koala_Set_Value_eq (h : Inv st events) {p : Package} (hp : st.pkgs[pkg]? = some p)
    (hreg : .registered pkg ∈ events) {name : CString} {desc : TypeDesc} {offset : Nat}
    (hvar : Find_MNode p.mtbl name = some ⟨name, .VAR_KIND desc offset⟩) (value : V) :
    ∃ (i : Nat) (tuple : List (Option V)), p.index = i ∧ st.vars[i]? = some tuple ∧
      Cells events pkg p tuple ∧ Koala_Set_Value st pkg name value =
        .ok (0, { st with vars := st.vars.set i (tuple.set offset (some value)) }) := by
  obtain ⟨i, tuple, hindex, htuple, hget, hcells, _, hlt⟩ := h.cell hp hreg hvar rfl
  refine ⟨i, tuple, hindex, htuple, hcells, ?_⟩
  have hnat : p.index.toNat = i := by rw [hindex, Int.toNat_natCast]
  simp only [Koala_Set_Value, hp, hvar, hget, Tuple_Set, if_pos hlt, hnat]

/-- A variable is set; the others keep their values. -/
theorem Inv.set (h : Inv st events) (hreg : .registered pkg ∈ events) {name : CString} {value : V}
    {res : Int} (hset : Koala_Set_Value st pkg name value = .ok (res, st')) :
    Inv st' (events ++ [.set pkg name value]) := by
  have hset' := hset
  unfold Koala_Set_Value at hset
  split at hset
  · cases hset
  next p hp =>
  split at hset
  case h_2 => cases hset
  next nm desc offset hfind =>
  obtain ⟨_, _, _, _, _, _, hvar, _⟩ := h.cell hp hreg hfind rfl
  obtain ⟨i, tuple, hindex, htuple, hcells, heq⟩ := h.Koala_Set_Value_eq hp hreg hvar value
  cases heq.symm.trans hset'
  have hmem : ∀ {m}, Event.registered m ∈ events ++ [.set pkg name value] →
      .registered m ∈ events := by
    intro m hm
    rcases List.mem_append.mp hm with hm | hm
    · exact hm
    · rw [List.mem_singleton] at hm
      cases hm
  refine ⟨h.numbered, fun hm => h.known (hmem hm), fun {m q} hq hm hne => ?_,
    fun hq hq' hm hm' => h.apart hq hq' (hmem hm) (hmem hm')⟩
  by_cases hpkg : m = pkg
  · subst hpkg
    cases hp.symm.trans hq
    have hi : i < st.vars.length := (List.getElem?_eq_some_iff.mp htuple).1
    refine ⟨i, _, hindex, List.getElem?_set_self hi, ?_, fun {n d o} hvar' => ?_⟩
    · rw [List.length_set]
      exact hcells.size
    · rw [last_value_set]
      by_cases ho : o = offset
      · subst ho
        have hname := (h.numbered hp).apart hvar hvar'
        have hlt : o < tuple.length := by
          rw [hcells.size]
          exact (h.numbered hp).bound hvar
        rw [if_pos ⟨rfl, hname⟩, List.getElem?_set_self hlt]
      · have hname : name ≠ n := by
          rintro rfl
          cases hvar.symm.trans hvar'
          exact ho rfl
        rw [if_neg fun hand => hname hand.2, List.getElem?_set_ne (Ne.symm ho)]
        exact hcells.value hvar'
  · obtain ⟨j, tuple', hindex', htuple', hcells'⟩ := h.cells hq (hmem hm) hne
    have hne' : i ≠ j := by
      rintro rfl
      have hpvars : p.nrvars ≠ 0 := by
        have hbound := (h.numbered hp).bound hvar
        omega
      exact hpkg (h.apart hq hp (hmem hm) hreg hne hpvars (hindex'.trans hindex.symm))
    refine ⟨j, tuple', hindex', ?_, hcells'.size, fun hvar' => ?_⟩
    · rw [List.getElem?_set_ne hne', htuple']
    · rw [last_value_set, if_neg fun hand => hpkg hand.1.symm]
      exact hcells'.value hvar'

theorem Run.inv (h : Run st events) : Inv st events := by
  induction h with
  | init => exact inv_init
  | new _ name ih => exact ih.new name
  | add_var _ hnot hfree hadd ih =>
    obtain ⟨p, p', hp, hp', rfl⟩ := on_package_ok hadd
    cases hp'
    exact ih.unregistered hnot ((ih.numbered hp).add_var (hfree p hp) _)
  | add_const _ hadd ih =>
    obtain ⟨p, p', hp, hp', rfl⟩ := on_package_ok hadd
    obtain ⟨pc, hconst, hp'⟩ := bind_eq_ok_iff.mp hp'
    cases hp'
    unfold koala.package.Pkg_Add_Const at hconst
    split at hconst
    · cases hconst
    · cases hconst
      exact ih.other_member hp rfl rfl rfl fun _ _ _ heq => nomatch congrArg MNode.member heq
  | add_func _ hadd ih =>
    obtain ⟨p, p', hp, hp', rfl⟩ := on_package_ok hadd
    cases hp'
    exact ih.other_member hp rfl rfl rfl fun _ _ _ heq => nomatch congrArg MNode.member heq
  | register _ hadd ih => exact ih.register hadd
  | reject _ hadd ih =>
    obtain ⟨pkgstate, rfl⟩ := Koala_Add_Package_rejected hadd
    exact ⟨ih.numbered, ih.known, ih.cells, ih.apart⟩
  | set _ hreg hset ih => exact ih.set hreg hset

/-- The variables of packages are cells of their own: in every run, a variable of a registered
package has the value that it was set to last, since its package was registered last, and can be
set to any other. -/
theorem Run.variables_independent (h : Run st events) {p : Package} (hp : st.pkgs[pkg]? = some p)
    (hreg : .registered pkg ∈ events) {name : CString} {desc : TypeDesc} {offset : Nat}
    (hvar : Find_MNode p.mtbl name = some ⟨name, .VAR_KIND desc offset⟩) :
    Koala_Get_Value st pkg name = .ok (.var (last_value pkg name events)) ∧
      ∀ value, ∃ st', Koala_Set_Value st pkg name value = .ok (0, st') := by
  obtain ⟨i, tuple, _, _, hget, hcells, _, hlt⟩ := h.inv.cell hp hreg hvar rfl
  constructor
  · simp only [Koala_Get_Value, hp, hvar, hget, Tuple_Get, hcells.value hvar, Option.join_some]
  · intro value
    obtain ⟨_, _, _, _, _, hset⟩ := h.inv.Koala_Set_Value_eq hp hreg hvar value
    exact ⟨_, hset⟩

end runs

section leaves

variable {V : Type}

/-- A path is rejected: nothing changes, and NULL is returned. -/
def Rejects (ps : PkgState Nat) (path : CString) (pkg : Nat) : Prop :=
  Add_PkgNode ps path pkg = .ok (none, ps)

/-- A path below a package is never rejected: the program is aborted. -/
theorem Koala_Add_Package_below_leaf {st : State V} (h : koala.pkgnode.Reachable st.pkgstate)
    {path : CString} (hbelow : st.pkgstate.BelowLeaf path) (pkg : Nat) :
    ¬ Rejects st.pkgstate path pkg ∧ Koala_Add_Package st path pkg = .error .assertion := by
  have hadd : Add_PkgNode st.pkgstate path pkg = .error .assertion := h.add_below_leaf hbelow pkg
  constructor
  · rw [Rejects, hadd]
    exact fun heq => nomatch heq
  · rw [Koala_Add_Package, hadd, error_bind]

end leaves

section instances

theorem word_nonul (c : Char) (h : c.toUInt8 ≠ 0) : (0 : UInt8) ∉ [c.toUInt8] := by
  simpa using h.symm

def word (c : Char) (h : c.toUInt8 ≠ 0) : CString := ⟨[c.toUInt8], word_nonul c h⟩

def a : CString := word 'a' (by decide)

def b : CString := word 'b' (by decide)

/-- A package with the variable `a`. -/
def pkg_a (index : Int) : Package :=
  { koala.package.Pkg_Add_Var (koala.package.Pkg_New a) a (.base .BASE_INT) with index }

/-- The package registered at `a`, with the value of its variable. -/
def one_package (value : Option Nat) : State Nat :=
  ⟨[pkg_a 0], ⟨[⟨a.bytes, .root, .leaf 0⟩], [.new 0]⟩, [[value]]⟩

/-- The package registered at `b` too. -/
def registered_again : State Nat :=
  ⟨[pkg_a 1], ⟨[⟨a.bytes, .root, .leaf 0⟩, ⟨b.bytes, .root, .leaf 0⟩], [.new 0, .new 1]⟩,
    [[some 7], [none]]⟩

theorem find_a : Find_MNode (pkg_a 0).mtbl a = some ⟨a, .VAR_KIND (.base .BASE_INT) 0⟩ := by rfl

theorem run_set : Run (one_package (some 7)) [.registered 0, .set 0 a 7] := by
  have hnew : Run (Pkg_New Koala_Initialize a : State Nat) [] := .new .init a
  have hadd : Pkg_Add_Var (Pkg_New Koala_Initialize a) 0 a (.base .BASE_INT) =
      .ok (⟨[pkg_a 0], Init_PkgState, []⟩ : State Nat) := rfl
  have hvar : Run (⟨[pkg_a 0], Init_PkgState, []⟩ : State Nat) [] := by
    refine .add_var hnew (by simp) (fun p hp => ?_) hadd
    cases hp
    rfl
  have hregister : Koala_Add_Package (⟨[pkg_a 0], Init_PkgState, []⟩ : State Nat) a 0 =
      .ok (0, one_package none) := by
    rw [Koala_Add_Package, Add_PkgNode, a, word, koala.pkgnode.add_loop]
    rfl
  have hset : Koala_Set_Value (one_package none) 0 a 7 = .ok (0, one_package (some 7)) := rfl
  exact .set (.register hvar hregister) List.mem_cons_self hset

theorem Run.variables_independent_a :
    Koala_Get_Value (one_package (some 7)) 0 a = .ok (.var (some 7)) :=
  (Run.variables_independent run_set rfl List.mem_cons_self find_a).1

/-- Registering a package again takes its values away. -/
theorem registered_again_empty : ∃ events, Run registered_again events ∧
    Event.registered 0 ∈ events ∧ last_set 0 a events = some 7 ∧
    Koala_Get_Value registered_again 0 a = .ok (.var none) := by
  have hregister : Koala_Add_Package (one_package (some 7)) b 0 = .ok (0, registered_again) := by
    rw [Koala_Add_Package, Add_PkgNode, b, word, koala.pkgnode.add_loop]
    rfl
  exact ⟨_, .register run_set hregister, List.mem_cons_self, rfl, rfl⟩

def a_b : CString := ⟨[a.bytes, b.bytes].intersperse [koala.pkgnode.SLASH] |>.flatten, by decide⟩

theorem reachable_a : koala.pkgnode.Reachable (one_package none).pkgstate := by
  have hadd : Add_PkgNode (Init_PkgState : PkgState Nat) a 0 =
      .ok (some (.new 0), (one_package none).pkgstate) := by
    rw [Add_PkgNode, a, word, koala.pkgnode.add_loop]
    rfl
  exact .add .init hadd

theorem below_a : (one_package none).pkgstate.BelowLeaf a_b := by
  refine ⟨a, b.bytes, .new 0, 0, by decide, by decide, ?_, rfl⟩
  rw [Find_PkgNode, a, word, koala.pkgnode.find_loop]
  rfl

theorem Koala_Add_Package_below_leaf_a : ¬ Rejects (one_package none).pkgstate a_b 1 ∧
    Koala_Add_Package (one_package none) a_b 1 = .error .assertion :=
  Koala_Add_Package_below_leaf reachable_a below_a 1

/-- The package `a/b` where there is a package `a`. -/
theorem not_rejects_a_b : ∃ ps path, koala.pkgnode.Reachable ps ∧ ps.BelowLeaf path ∧
    ¬ Rejects ps path 1 := by
  have hadd := reachable_a.add_below_leaf below_a 1
  refine ⟨_, _, reachable_a, below_a, ?_⟩
  rw [Rejects, hadd]
  exact fun heq => nomatch heq

end instances

end koala.state
