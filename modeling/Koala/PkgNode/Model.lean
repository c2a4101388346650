import Koala.Basic

namespace koala.pkgnode

set_option linter.style.nameCheck false

/-- A pointer to a node: the root, or the `n`th node that was allocated. -/
inductive NodePtr where
  | root
  | new (n : Nat)
  deriving DecidableEq

/-- The payload of a node: its children, or the data of a leaf. -/
inductive Payload (D : Type) where
  | dir (children : List NodePtr)
  | leaf (data : D)
  deriving DecidableEq

/-- A node with its name, an atom string. -/
structure PkgNode (D : Type) where
  name : List UInt8
  parent : NodePtr
  data : Payload D
  deriving DecidableEq

/-- The nodes of the hash table in insertion order, which is the order they are
allocated in, and the children of the root. -/
structure PkgState (D : Type) where
  pkgtbl : List (PkgNode D)
  root : List NodePtr
  deriving DecidableEq

variable {D : Type}

def Init_PkgState : PkgState D := ⟨[], []⟩

def find_node (ps : PkgState D) (name : List UInt8) (parent : NodePtr) : Option NodePtr :=
  (ps.pkgtbl.findIdx? fun node => node.parent = parent ∧ node.name = name).map .new

def add_node (ps : PkgState D) (name : List UInt8) (parent : NodePtr) (data : Payload D) :
    NodePtr × PkgState D :=
  (.new ps.pkgtbl.length, { ps with pkgtbl := ps.pkgtbl ++ [⟨name, parent, data⟩] })

/-- `Vector_Append` to the children of a node, which is asserted to be no leaf. -/
def append_child (ps : PkgState D) (parent child : NodePtr) : Res (PkgState D) :=
  match parent with
  | .root => .ok { ps with root := ps.root ++ [child] }
  | .new n =>
    match ps.pkgtbl[n]? with
    | none => .error .null
    | some ⟨_, _, .leaf _⟩ => .error .assertion
    | some ⟨name, above, .dir children⟩ =>
      .ok { ps with pkgtbl := ps.pkgtbl.set n ⟨name, above, .dir (children ++ [child])⟩ }

/-- A new node below its parent. -/
def add_child (ps : PkgState D) (name : List UInt8) (parent : NodePtr) (data : Payload D) :
    Res (NodePtr × PkgState D) := do
  let (node, ps) := add_node ps name parent data
  let ps ← append_child ps parent node
  .ok (node, ps)

/-- A directory on the way: the one that is there, or a new one. -/
def add_dir (ps : PkgState D) (name : List UInt8) (parent : NodePtr) :
    Res (NodePtr × PkgState D) :=
  match find_node ps name parent with
  | some node => .ok (node, ps)
  | none => add_child ps name parent (.dir [])

/-- The last name of a path. -/
def add_leaf (ps : PkgState D) (name : List UInt8) (parent : NodePtr) (data : D) :
    Res (Option NodePtr × PkgState D) :=
  match find_node ps name parent with
  | some _ => .ok (none, ps)
  | none => do
    let (node, ps) ← add_child ps name parent (.leaf data)
    .ok (some node, ps)

def SLASH : UInt8 := '/'.toUInt8

/-- What the inner loop runs over: its first character is not looked at. -/
def front (ch : UInt8) (path : List UInt8) : List UInt8 := ch :: path.takeWhile (· ≠ SLASH)

/-- Where the inner loop stops. -/
def behind (path : List UInt8) : List UInt8 := path.dropWhile (· ≠ SLASH)

def skip_slashes (path : List UInt8) : List UInt8 := path.dropWhile (· = SLASH)

theorem length_skip_slashes_behind (path : List UInt8) :
    (skip_slashes (behind path)).length ≤ path.length := by
  have hskip := (List.dropWhile_sublist (l := behind path) fun c => decide (c = SLASH)).length_le
  have hbehind := (List.dropWhile_sublist (l := path) fun c => decide (c ≠ SLASH)).length_le
  exact hskip.trans hbehind

/-- The loop of `Add_PkgNode`. -/
def add_loop (ps : PkgState D) (data : D) (parent : NodePtr) :
    List UInt8 → Res (Option NodePtr × PkgState D)
  | [] => .error .bounds
  | ch :: path =>
    if skip_slashes (behind path) = [] then add_leaf ps (front ch path) parent data
    else do
      let (node, ps) ← add_dir ps (front ch path) parent
      add_loop ps data node (skip_slashes (behind path))
termination_by path => path.length
decreasing_by exact Nat.lt_succ_of_le (length_skip_slashes_behind path)

def Add_PkgNode (ps : PkgState D) (path : CString) (data : D) :
    Res (Option NodePtr × PkgState D) :=
  add_loop ps data .root path.bytes

/-- The loop of `Find_PkgNode`. -/
def find_loop (ps : PkgState D) (parent : NodePtr) : List UInt8 → Res (Option NodePtr)
  | [] => .error .bounds
  | ch :: path =>
    match find_node ps (front ch path) parent with
    | none => .ok none
    | some node =>
      if skip_slashes (behind path) = [] then .ok (some node)
      else find_loop ps node (skip_slashes (behind path))
termination_by path => path.length
decreasing_by exact Nat.lt_succ_of_le (length_skip_slashes_behind path)

def Find_PkgNode (ps : PkgState D) (path : CString) : Res (Option NodePtr) :=
  find_loop ps .root path.bytes

/-- The data the leaf function is applied to when a node goes. -/
def fini_pkgnode : Payload D → List D
  | .leaf data => [data]
  | .dir _ => []

/-- The data the leaf function is applied to, in order. The root is given no
leaf function. -/
def Fini_PkgState (ps : PkgState D) : List D := ps.pkgtbl.flatMap fun node => fini_pkgnode node.data

end koala.pkgnode

namespace koala.pkgnode

set_option linter.style.nameCheck false

/-- A path of the callers: it is not empty and does not begin with a slash. -/
structure Path where
  str : CString
  first : ∃ ch path, str.bytes = ch :: path ∧ ch ≠ SLASH

/-- A path without its repeated and trailing slashes. -/
def squeeze : List UInt8 → List UInt8
  | [] => []
  | ch :: path =>
    if ch = SLASH ∧ (path = [] ∨ path.head? = some SLASH) then squeeze path
    else ch :: squeeze path

/-- The names both loops cut a path into. -/
def names : List UInt8 → List (List UInt8)
  | [] => []
  | ch :: path => front ch path :: names (skip_slashes (behind path))
termination_by path => path.length
decreasing_by exact Nat.lt_succ_of_le (length_skip_slashes_behind path)

/-- Names with a slash between them. -/
def join : List (List UInt8) → List UInt8
  | [] => []
  | [name] => name
  | name :: above :: l => name ++ SLASH :: join (above :: l)

/-- No name has a slash, and none is empty. -/
def Clean (l : List (List UInt8)) : Prop := ∀ name ∈ l, name ≠ [] ∧ SLASH ∉ name

@[simp] theorem names_nil : names [] = [] := by rw [names]

theorem names_cons (ch : UInt8) (path : List UInt8) :
    names (ch :: path) = front ch path :: names (skip_slashes (behind path)) := by rw [names]

theorem head_of_dropWhile {f : UInt8 → Bool} {path : List UInt8} {ch : UInt8} {rest : List UInt8}
    (h : path.dropWhile f = ch :: rest) : f ch = false := by
  have hne : path.dropWhile f ≠ [] := by
    rw [h]
    exact List.cons_ne_nil _ _
  have hhead := List.head_dropWhile_not f hne
  simpa [h] using hhead

theorem skip_slashes_head {path : List UInt8} {ch : UInt8} {rest : List UInt8}
    (h : skip_slashes path = ch :: rest) : ch ≠ SLASH := by
  simpa using head_of_dropWhile h

theorem behind_head {path : List UInt8} {ch : UInt8} {rest : List UInt8}
    (h : behind path = ch :: rest) : ch = SLASH := by
  simpa using head_of_dropWhile h

theorem slash_notMem_front {ch : UInt8} {path : List UInt8} (hch : ch ≠ SLASH) :
    SLASH ∉ front ch path := by
  rw [front, List.mem_cons, not_or]
  refine ⟨hch.symm, ?_⟩
  intro hmem
  simpa using List.mem_takeWhile_imp hmem

theorem front_append_behind (ch : UInt8) (path : List UInt8) :
    ch :: path = front ch path ++ behind path := by
  rw [front, behind, List.cons_append, List.takeWhile_append_dropWhile]

/-- The names of a path that does not begin with a slash. -/
theorem names_clean {path : List UInt8} (h : ∀ rest, path ≠ SLASH :: rest) :
    Clean (names path) := by
  induction path using names.induct with
  | case1 =>
    rw [names_nil]
    exact fun _ hmem => absurd hmem List.not_mem_nil
  | case2 ch path ih =>
    have hch : ch ≠ SLASH := by
      rintro rfl
      exact h path rfl
    rw [names_cons]
    intro name hname
    cases hname with
    | head => exact ⟨List.cons_ne_nil _ _, slash_notMem_front hch⟩
    | tail _ hname =>
      apply ih _ name hname
      intro rest hrest
      exact skip_slashes_head hrest rfl

theorem squeeze_sublist (path : List UInt8) : (squeeze path).Sublist path := by
  induction path with
  | nil => exact List.Sublist.refl _
  | cons ch path ih =>
    rw [squeeze]
    split
    · exact ih.cons _
    · exact ih.cons_cons _

theorem squeeze_append {w rest : List UInt8} (h : SLASH ∉ w) :
    squeeze (w ++ rest) = w ++ squeeze rest := by
  induction w with
  | nil => rfl
  | cons ch w ih =>
    rw [List.mem_cons, not_or] at h
    rw [List.cons_append, squeeze, if_neg (fun hslash => h.1 hslash.1.symm), ih h.2]
    rfl

/-- A run of slashes is one slash, or none at the end. -/
theorem squeeze_slashes (path : List UInt8) :
    squeeze (SLASH :: path) =
      if skip_slashes path = [] then [] else SLASH :: squeeze (skip_slashes path) := by
  induction path with
  | nil => simp [squeeze, skip_slashes]
  | cons ch path ih =>
    by_cases hch : ch = SLASH
    · subst hch
      have hskip : skip_slashes (SLASH :: path) = skip_slashes path := by simp [skip_slashes]
      have hsqueeze : squeeze (SLASH :: SLASH :: path) = squeeze (SLASH :: path) := by
        rw [squeeze, if_pos (by simp)]
      rw [hsqueeze, ih, hskip]
    · have hskip : skip_slashes (ch :: path) = ch :: path := by simp [skip_slashes, hch]
      rw [hskip, if_neg (List.cons_ne_nil _ _)]
      rw [squeeze, if_neg (by simp [hch])]

/-- Squeezing a path is joining its names. -/
theorem squeeze_eq_join {path : List UInt8} (h : ∀ rest, path ≠ SLASH :: rest) :
    squeeze path = join (names path) := by
  induction path using names.induct with
  | case1 =>
    rw [names_nil]
    rfl
  | case2 ch path ih =>
    have hch : ch ≠ SLASH := by
      rintro rfl
      exact h path rfl
    have hrest := ih fun rest hrest => skip_slashes_head hrest rfl
    rw [names_cons, front_append_behind, squeeze_append (slash_notMem_front hch)]
    cases hbehind : behind path with
    | nil => simp [skip_slashes, squeeze, join]
    | cons c rest =>
      have hc : c = SLASH := by
        exact behind_head hbehind
      subst hc
      have hskip : skip_slashes (SLASH :: rest) = skip_slashes rest := by simp [skip_slashes]
      rw [hbehind, hskip] at hrest
      rw [squeeze_slashes, hskip]
      cases hnext : skip_slashes rest with
      | nil => simp [join]
      | cons d next =>
        rw [hnext, names_cons] at hrest
        rw [if_neg (List.cons_ne_nil _ _), hrest, names_cons, join]

/-- A name and what is behind it are told apart by the first slash. -/
theorem front_behind {ch : UInt8} {w : List UInt8} (rest : List UInt8) (h : SLASH ∉ ch :: w)
    (hrest : ∀ c r, rest = c :: r → c = SLASH) :
    front ch (w ++ rest) = ch :: w ∧ behind (w ++ rest) = rest := by
  have hw : ∀ c ∈ w, decide (c ≠ SLASH) = true := by
    intro c hc
    have hne : c ≠ SLASH := by
      rintro rfl
      exact h (List.mem_cons_of_mem _ hc)
    simpa using hne
  have hstop : rest.takeWhile (fun c => decide (c ≠ SLASH)) = [] ∧
      rest.dropWhile (fun c => decide (c ≠ SLASH)) = rest := by
    cases rest with
    | nil => exact ⟨rfl, rfl⟩
    | cons c r => simp [hrest c r rfl]
  rw [front, behind, List.takeWhile_append_of_pos hw, List.dropWhile_append_of_pos hw]
  rw [hstop.1, hstop.2, List.append_nil]
  exact ⟨rfl, rfl⟩

theorem join_head {l : List (List UInt8)} (hl : Clean l) (rest : List UInt8) :
    join l ≠ SLASH :: rest := by
  cases l with
  | nil => exact (List.cons_ne_nil _ _).symm
  | cons a l =>
    obtain ⟨hne, hslash⟩ := hl a List.mem_cons_self
    obtain ⟨ch, w, rfl⟩ := List.exists_cons_of_ne_nil hne
    intro h
    have hch : ch = SLASH := by
      cases l with
      | nil => exact (List.cons.inj h).1
      | cons b l => exact (List.cons.inj h).1
    exact hslash (hch ▸ List.mem_cons_self)

theorem skip_slashes_of_head {path : List UInt8} (h : ∀ rest, path ≠ SLASH :: rest) :
    skip_slashes (SLASH :: path) = path ∧ skip_slashes path = path := by
  cases path with
  | nil => simp [skip_slashes]
  | cons ch path =>
    have hch : ch ≠ SLASH := by
      rintro rfl
      exact h path rfl
    simp [skip_slashes, hch]

/-- The names of joined names are the names. -/
theorem names_join {l : List (List UInt8)} (hl : Clean l) : names (join l) = l := by
  induction l with
  | nil => exact names_nil
  | cons a l ih =>
    obtain ⟨hne, hslash⟩ := hl a List.mem_cons_self
    have htail : Clean l := fun name hname => hl name (List.mem_cons_of_mem _ hname)
    obtain ⟨ch, w, rfl⟩ := List.exists_cons_of_ne_nil hne
    cases l with
    | nil =>
      obtain ⟨hfront, hbehind⟩ := front_behind [] hslash (by simp)
      rw [List.append_nil] at hfront hbehind
      rw [join, names_cons, hfront, hbehind]
      simp [skip_slashes]
    | cons b l =>
      obtain ⟨hfront, hbehind⟩ := front_behind (SLASH :: join (b :: l)) hslash (by simp_all)
      rw [join, List.cons_append, names_cons, hfront, hbehind]
      rw [(skip_slashes_of_head (join_head htail)).1, ih htail]

theorem join_inj {l m : List (List UInt8)} (hl : Clean l) (hm : Clean m) (h : join l = join m) :
    l = m := by
  rw [← names_join hl, ← names_join hm, h]

theorem join_append {l : List (List UInt8)} {name : List UInt8} {m : List (List UInt8)}
    (hl : l ≠ []) : join (l ++ name :: m) = join l ++ SLASH :: join (name :: m) := by
  induction l with
  | nil => exact absurd rfl hl
  | cons a l ih =>
    cases l with
    | nil => rfl
    | cons b l =>
      have htail := ih (List.cons_ne_nil _ _)
      have hcons : a :: b :: l ++ name :: m = a :: b :: (l ++ name :: m) := rfl
      rw [List.cons_append] at htail
      rw [hcons, join, htail, join, List.append_assoc, List.cons_append]

/-- The names of a path of the callers. -/
def Path.names (p : Path) : List (List UInt8) := pkgnode.names p.str.bytes

theorem Path.head (p : Path) (rest : List UInt8) : p.str.bytes ≠ SLASH :: rest := by
  obtain ⟨ch, path, hbytes, hch⟩ := p.first
  intro h
  rw [hbytes] at h
  exact hch (List.cons.inj h).1

theorem Path.clean (p : Path) : Clean p.names := names_clean p.head

theorem Path.names_ne_nil (p : Path) : p.names ≠ [] := by
  obtain ⟨ch, path, hbytes, _⟩ := p.first
  rw [Path.names, hbytes, names_cons]
  exact List.cons_ne_nil _ _

theorem Path.squeeze_eq (p : Path) : squeeze p.str.bytes = join p.names := squeeze_eq_join p.head

/-- Two paths have the same names when they differ in repeated and trailing
slashes only. -/
theorem Path.names_eq_iff {p q : Path} :
    p.names = q.names ↔ squeeze p.str.bytes = squeeze q.str.bytes := by
  rw [p.squeeze_eq, q.squeeze_eq]
  constructor
  · intro h
    rw [h]
  · exact join_inj p.clean q.clean

/-- One path lies below another. -/
def Path.Below (p q : Path) : Prop := squeeze q.str.bytes ++ [SLASH] <+: squeeze p.str.bytes

theorem Path.below_of_names {p q : Path} {name : List UInt8} {l : List (List UInt8)}
    (h : p.names = q.names ++ name :: l) : p.Below q := by
  rw [Path.Below, p.squeeze_eq, q.squeeze_eq, h, join_append q.names_ne_nil]
  exact ⟨join (name :: l), by simp⟩

/-- The path that some names in front of another path's make up. -/
theorem Path.exists_of_names {p : Path} {l m : List (List UInt8)} (hl : l ≠ [])
    (h : p.names = l ++ m) : ∃ q : Path, q.names = l := by
  have hclean : Clean l := fun name hname => p.clean name (h ▸ List.mem_append_left m hname)
  have hnonul : 0 ∉ join l := by
    intro hmem
    have hsqueeze : join l <+: squeeze p.str.bytes := by
      rw [p.squeeze_eq, h]
      cases m with
      | nil => simp
      | cons name m =>
        rw [join_append hl]
        exact List.prefix_append _ _
    exact p.str.nonul ((squeeze_sublist _).subset (hsqueeze.subset hmem))
  have hfirst : ∃ ch path, join l = ch :: path ∧ ch ≠ SLASH := by
    cases hjoin : join l with
    | nil =>
      have hnames := names_join hclean
      rw [hjoin, names_nil] at hnames
      exact absurd hnames.symm hl
    | cons ch path =>
      refine ⟨ch, path, rfl, ?_⟩
      rintro rfl
      exact join_head hclean path hjoin
  exact ⟨⟨⟨join l, hnonul⟩, hfirst⟩, names_join hclean⟩

end koala.pkgnode
