import Koala.PkgNode.Model
import Mathlib.Data.List.Induction

namespace koala.pkgnode

set_option linter.style.nameCheck false

variable {D : Type}

/-- What the hash table compares. -/
def PkgState.keys (ps : PkgState D) : List (NodePtr × List UInt8) :=
  ps.pkgtbl.map fun node => (node.parent, node.name)

def PkgState.payload (ps : PkgState D) : NodePtr → Option (Payload D)
  | .root => some (.dir ps.root)
  | .new n => ps.pkgtbl[n]?.map PkgNode.data

def PkgState.IsDir (ps : PkgState D) (node : NodePtr) : Prop :=
  ∃ children, ps.payload node = some (.dir children)

def PkgState.IsLeaf (ps : PkgState D) (node : NodePtr) (data : D) : Prop :=
  ps.payload node = some (.leaf data)

/-- The node that some names lead to. -/
def walk (ps : PkgState D) (node : NodePtr) : List (List UInt8) → Option NodePtr
  | [] => some node
  | name :: l => (find_node ps name node).bind fun child => walk ps child l

/-- The node with some names. -/
def PkgState.node_at (ps : PkgState D) (l : List (List UInt8)) : Option NodePtr := walk ps .root l

/-- Every node was allocated behind its parent. -/
def PkgState.Ordered (ps : PkgState D) : Prop :=
  ∀ {n m : Nat} {name : List UInt8}, ps.keys[n]? = some (.new m, name) → m < n

theorem keys_length (ps : PkgState D) : ps.keys.length = ps.pkgtbl.length := List.length_map _

theorem find_node_eq (ps : PkgState D) (name : List UInt8) (parent : NodePtr) :
    find_node ps name parent = (ps.keys.findIdx? fun k => k = (parent, name)).map .new := by
  rw [find_node, PkgState.keys, List.findIdx?_map]
  simp [Function.comp_def]

/-- A node is found under its own key. -/
theorem key_of_find_node {ps : PkgState D} {name : List UInt8} {parent child : NodePtr}
    (h : find_node ps name parent = some child) :
    ∃ n, child = .new n ∧ ps.keys[n]? = some (parent, name) := by
  rw [find_node_eq, Option.map_eq_some_iff] at h
  obtain ⟨n, hn, rfl⟩ := h
  obtain ⟨hlt, hkey, _⟩ := List.findIdx?_eq_some_iff_getElem.mp hn
  refine ⟨n, rfl, ?_⟩
  rw [List.getElem?_eq_getElem hlt]
  simpa using hkey

theorem find_node_ne_root {ps : PkgState D} {name : List UInt8} {parent : NodePtr} :
    find_node ps name parent ≠ some .root := by
  intro h
  obtain ⟨n, hn, _⟩ := key_of_find_node h
  cases hn

theorem walk_append (ps : PkgState D) (node : NodePtr) (l m : List (List UInt8)) :
    walk ps node (l ++ m) = (walk ps node l).bind fun child => walk ps child m := by
  induction l generalizing node with
  | nil => rfl
  | cons name l ih =>
    rw [List.cons_append, walk, walk, Option.bind_assoc]
    exact congrArg _ (funext fun child => ih child)

theorem node_at_append (ps : PkgState D) (l m : List (List UInt8)) :
    ps.node_at (l ++ m) = (ps.node_at l).bind fun child => walk ps child m :=
  walk_append ps .root l m

theorem node_at_snoc (ps : PkgState D) (l : List (List UInt8)) (name : List UInt8) :
    ps.node_at (l ++ [name]) = (ps.node_at l).bind fun parent => find_node ps name parent := by
  rw [node_at_append]
  simp [walk]

/-- A node has one place in the tree. -/
theorem node_at_inj {ps : PkgState D} {l m : List (List UInt8)} {node : NodePtr}
    (hl : ps.node_at l = some node) (hm : ps.node_at m = some node) : l = m := by
  induction l using List.reverseRecOn generalizing m node with
  | nil =>
    cases hl
    cases m using List.reverseRecOn with
    | nil => rfl
    | append_singleton m name _ =>
      rw [node_at_snoc, Option.bind_eq_some_iff] at hm
      obtain ⟨parent, _, hfind⟩ := hm
      exact absurd hfind find_node_ne_root
  | append_singleton l name ih =>
    rw [node_at_snoc, Option.bind_eq_some_iff] at hl
    obtain ⟨parent, hparent, hfind⟩ := hl
    obtain ⟨n, rfl, hkey⟩ := key_of_find_node hfind
    cases m using List.reverseRecOn with
    | nil => cases hm
    | append_singleton m name' _ =>
      rw [node_at_snoc, Option.bind_eq_some_iff] at hm
      obtain ⟨parent', hparent', hfind'⟩ := hm
      obtain ⟨n', hn', hkey'⟩ := key_of_find_node hfind'
      cases hn'
      rw [hkey] at hkey'
      cases hkey'
      rw [ih hparent hparent']

/-- The loop of `Find_PkgNode` follows the names of the path. -/
theorem find_loop_eq {ps : PkgState D} {parent : NodePtr} {path : List UInt8} (h : path ≠ []) :
    find_loop ps parent path = .ok (walk ps parent (names path)) := by
  induction path using names.induct generalizing parent with
  | case1 => exact absurd rfl h
  | case2 ch path ih =>
    rw [find_loop, names_cons, walk]
    cases find_node ps (front ch path) parent with
    | none => rfl
    | some node =>
      simp only [Option.bind_some]
      split
      · next hend => rw [hend, names_nil, walk]
      · next hend => exact ih hend

theorem Find_PkgNode_eq (ps : PkgState D) (p : Path) :
    Find_PkgNode ps p.str = .ok (ps.node_at p.names) := by
  apply find_loop_eq
  obtain ⟨ch, path, hbytes, _⟩ := p.first
  rw [hbytes]
  exact List.cons_ne_nil _ _

/-- What the loop of `Add_PkgNode` does with the names of a path. -/
def add_names (ps : PkgState D) (data : D) (parent : NodePtr) :
    List (List UInt8) → Res (Option NodePtr × PkgState D)
  | [] => .error .bounds
  | [name] => add_leaf ps name parent data
  | name :: above :: l => do
    let (node, ps) ← add_dir ps name parent
    add_names ps data node (above :: l)

theorem add_loop_eq {ps : PkgState D} {data : D} {parent : NodePtr} {path : List UInt8} :
    add_loop ps data parent path = add_names ps data parent (names path) := by
  induction path using names.induct generalizing ps parent with
  | case1 => rw [add_loop, names_nil, add_names]
  | case2 ch path ih =>
    rw [add_loop, names_cons]
    split
    · next hend => rw [hend, names_nil, add_names]
    · next hend =>
      obtain ⟨c, rest, hrest⟩ := List.exists_cons_of_ne_nil hend
      have hnames : names (skip_slashes (behind path)) =
          front c rest :: names (skip_slashes (behind rest)) := by
        rw [hrest, names_cons]
      rw [hnames, add_names, ← hnames]
      exact congrArg _ (funext fun r => ih)

theorem Add_PkgNode_eq (ps : PkgState D) (p : Path) (data : D) :
    Add_PkgNode ps p.str data = add_names ps data .root p.names := add_loop_eq

end koala.pkgnode

namespace koala.pkgnode

set_option linter.style.nameCheck false

variable {D : Type}

/-- The data of the leaves, in the order they were added. -/
def PkgState.leaves (ps : PkgState D) : List D :=
  ps.pkgtbl.flatMap fun node => fini_pkgnode node.data

/-- A node was added below a directory, and nothing else changed but the
children of that directory. -/
structure Added (ps ps' : PkgState D) (name : List UInt8) (parent : NodePtr) (data : Payload D) :
    Prop where
  keys : ps'.keys = ps.keys ++ [(parent, name)]
  newLeaf : ∀ d, data = .leaf d → ps'.IsLeaf (.new ps.pkgtbl.length) d
  newDir : ∀ children, data = .dir children → ps'.IsDir (.new ps.pkgtbl.length)
  leaf : ∀ node d, ps.IsLeaf node d → ps'.IsLeaf node d
  dir : ∀ node, ps.IsDir node → ps'.IsDir node
  leaves : ps'.leaves = ps.leaves ++ fini_pkgnode data

theorem payload_add_node {ps : PkgState D} {name : List UInt8} {parent : NodePtr}
    {data p : Payload D} {node : NodePtr} (h : ps.payload node = some p) :
    (add_node ps name parent data).2.payload node = some p := by
  cases node with
  | root => exact h
  | new n =>
    rw [PkgState.payload, Option.map_eq_some_iff] at h
    obtain ⟨entry, hentry, rfl⟩ := h
    obtain ⟨hlt, _⟩ := List.getElem?_eq_some_iff.mp hentry
    simp only [add_node, PkgState.payload, List.getElem?_append_left hlt, hentry, Option.map_some]

theorem add_node_added (ps : PkgState D) (name : List UInt8) (parent : NodePtr)
    (data : Payload D) : Added ps (add_node ps name parent data).2 name parent data where
  keys := by simp [add_node, PkgState.keys]
  newLeaf d h := by simp [add_node, PkgState.IsLeaf, PkgState.payload, h]
  newDir children h := ⟨children, by simp [add_node, PkgState.payload, h]⟩
  leaf node d h := payload_add_node h
  dir node h := by
    obtain ⟨children, hchildren⟩ := h
    exact ⟨children, payload_add_node hchildren⟩
  leaves := by simp [add_node, PkgState.leaves]

/-- Appending to the children of a directory changes only these. -/
theorem append_child_ok {ps : PkgState D} {parent : NodePtr} (child : NodePtr)
    (h : ps.IsDir parent) :
    ∃ ps', append_child ps parent child = .ok ps' ∧ ps'.keys = ps.keys ∧
      ps'.leaves = ps.leaves ∧ (∀ node d, ps.IsLeaf node d → ps'.IsLeaf node d) ∧
      ∀ node, ps.IsDir node → ps'.IsDir node := by
  obtain ⟨children, hchildren⟩ := h
  cases parent with
  | root =>
    refine ⟨{ ps with root := ps.root ++ [child] }, rfl, rfl, rfl, ?_, ?_⟩
    · intro node d hleaf
      cases node with
      | root => cases hleaf
      | new n => exact hleaf
    · intro node hdir
      cases node with
      | root => exact ⟨_, rfl⟩
      | new n => exact hdir
  | new n =>
    rw [PkgState.payload, Option.map_eq_some_iff] at hchildren
    obtain ⟨⟨name, above, data⟩, hentry, rfl⟩ := hchildren
    obtain ⟨hlt, hget⟩ := List.getElem?_eq_some_iff.mp hentry
    have hset : ∀ m : Nat, m ≠ n → (ps.pkgtbl.set n ⟨name, above, .dir (children ++ [child])⟩)[m]? =
        ps.pkgtbl[m]? := fun m hm => List.getElem?_set_ne hm.symm
    have hlist : ps.pkgtbl = ps.pkgtbl.take n ++ ⟨name, above, .dir children⟩ ::
        ps.pkgtbl.drop (n + 1) := by
      rw [← hget, ← List.drop_eq_getElem_cons hlt, List.take_append_drop]
    have hset_list : ps.pkgtbl.set n ⟨name, above, .dir (children ++ [child])⟩ =
        ps.pkgtbl.take n ++ ⟨name, above, .dir (children ++ [child])⟩ ::
          ps.pkgtbl.drop (n + 1) := by
      rw [List.set_eq_take_append_cons_drop, if_pos hlt]
    refine ⟨{ ps with pkgtbl := ps.pkgtbl.set n ⟨name, above, .dir (children ++ [child])⟩ },
      ?_, ?_, ?_, ?_, ?_⟩
    · simp only [append_child, hentry]
    · rw [PkgState.keys, PkgState.keys, hset_list]
      conv_rhs => rw [hlist]
      simp
    · rw [PkgState.leaves, PkgState.leaves, hset_list]
      conv_rhs => rw [hlist]
      simp [fini_pkgnode]
    · intro node d hleaf
      cases node with
      | root => cases hleaf
      | new m =>
        have hm : m ≠ n := by
          rintro rfl
          rw [PkgState.IsLeaf, PkgState.payload, hentry] at hleaf
          cases hleaf
        rw [PkgState.IsLeaf, PkgState.payload, hset m hm]
        exact hleaf
    · intro node hdir
      cases node with
      | root => exact hdir
      | new m =>
        by_cases hm : m = n
        · subst hm
          refine ⟨children ++ [child], ?_⟩
          simp [PkgState.payload, hlt]
        · obtain ⟨l, hl⟩ := hdir
          refine ⟨l, ?_⟩
          rw [PkgState.payload, hset m hm]
          exact hl

/-- Adding below a directory succeeds. -/
theorem add_child_ok {ps : PkgState D} (name : List UInt8) {parent : NodePtr} (data : Payload D)
    (h : ps.IsDir parent) :
    ∃ ps', add_child ps name parent data = .ok (.new ps.pkgtbl.length, ps') ∧
      Added ps ps' name parent data := by
  have hadd := add_node_added ps name parent data
  obtain ⟨ps', happend, hkeys, hleaves, hleaf, hdir⟩ :=
    append_child_ok (.new ps.pkgtbl.length) (hadd.dir parent h)
  refine ⟨ps', ?_, ?_, ?_, ?_, ?_, ?_, ?_⟩
  · rw [add_child]
    simp only [add_node] at happend ⊢
    rw [happend, ok_bind]
  · rw [hkeys, hadd.keys]
  · exact fun d hdata => hleaf _ d (hadd.newLeaf d hdata)
  · exact fun children hdata => hdir _ (hadd.newDir children hdata)
  · exact fun node d hnode => hleaf node d (hadd.leaf node d hnode)
  · exact fun node hnode => hdir node (hadd.dir node hnode)
  · rw [hleaves, hadd.leaves]

theorem lt_of_isDir {ps : PkgState D} {n : Nat} (h : ps.IsDir (.new n)) :
    n < ps.pkgtbl.length := by
  obtain ⟨children, hchildren⟩ := h
  rw [PkgState.payload, Option.map_eq_some_iff] at hchildren
  obtain ⟨entry, hentry, _⟩ := hchildren
  obtain ⟨hlt, _⟩ := List.getElem?_eq_some_iff.mp hentry
  exact hlt

theorem Added.ordered {ps ps' : PkgState D} {name : List UInt8} {parent : NodePtr}
    {data : Payload D} (h : Added ps ps' name parent data) (hps : ps.Ordered)
    (hparent : ps.IsDir parent) : ps'.Ordered := by
  intro n m nm hkey
  rw [h.keys] at hkey
  by_cases hn : n < ps.keys.length
  · rw [List.getElem?_append_left hn] at hkey
    exact hps hkey
  · rw [List.getElem?_append_right (by omega)] at hkey
    have hone : n - ps.keys.length = 0 := by
      obtain ⟨hlt, _⟩ := List.getElem?_eq_some_iff.mp hkey
      rw [List.length_singleton] at hlt
      omega
    rw [hone] at hkey
    cases hkey
    have hlt := lt_of_isDir hparent
    rw [keys_length] at hn
    omega

/-- Adding below a directory answers the new key with the new node and every
other key as before. -/
theorem Added.find_node {ps ps' : PkgState D} {name : List UInt8} {parent : NodePtr}
    {data : Payload D} (h : Added ps ps' name parent data)
    (hnone : find_node ps name parent = none) (nm : List UInt8) (q : NodePtr) :
    find_node ps' nm q =
      if (q, nm) = (parent, name) then some (.new ps.pkgtbl.length) else find_node ps nm q := by
  rw [find_node_eq, h.keys, List.findIdx?_append]
  rw [find_node_eq, Option.map_eq_none_iff] at hnone
  rw [find_node_eq]
  split
  · next heq =>
    cases heq
    rw [hnone, keys_length]
    simp
  · next hne =>
    have hnot : ([(parent, name)].findIdx? fun k => k = (q, nm)) = none := by
      simp [List.findIdx?_cons, Ne.symm hne]
    rw [hnot]
    simp

/-- Nothing lies below a node that is not there yet. -/
theorem find_node_new {ps : PkgState D} (hps : ps.Ordered) {name : List UInt8} {n : Nat}
    (hn : ps.pkgtbl.length ≤ n) : pkgnode.find_node ps name (.new n) = none := by
  cases hfind : pkgnode.find_node ps name (.new n) with
  | none => rfl
  | some child =>
    obtain ⟨m, _, hkey⟩ := key_of_find_node hfind
    have hlt := hps hkey
    obtain ⟨hm, _⟩ := List.getElem?_eq_some_iff.mp hkey
    rw [keys_length] at hm
    omega

/-- A new node appears at one place and every other place is as before. -/
theorem Added.node_at {ps ps' : PkgState D} {name : List UInt8} {parent : NodePtr}
    {data : Payload D} {base : List (List UInt8)} (h : Added ps ps' name parent data)
    (hps : ps.Ordered) (hdir : ps.IsDir parent) (hbase : ps.node_at base = some parent)
    (hnone : pkgnode.find_node ps name parent = none) (l : List (List UInt8)) :
    ps'.node_at l =
      if l = base ++ [name] then some (.new ps.pkgtbl.length) else ps.node_at l := by
  have hplace : ps.node_at (base ++ [name]) = none := by
    rw [node_at_snoc, hbase, Option.bind_some, hnone]
  induction l using List.reverseRecOn with
  | nil => simp [PkgState.node_at, walk]
  | append_singleton l nm ih =>
    rw [node_at_snoc, node_at_snoc, ih]
    by_cases hl : l = base ++ [name]
    · -- below the new node there is nothing
      have hne : base ++ [name] ++ [nm] ≠ base ++ [name] := by simp
      have hkey : (NodePtr.new ps.pkgtbl.length, nm) ≠ (parent, name) := by
        rintro ⟨⟩
        exact absurd (lt_of_isDir hdir) (Nat.lt_irrefl _)
      rw [hl, if_pos rfl, if_neg hne, hplace, Option.bind_some, Option.bind_none]
      rw [h.find_node hnone, if_neg hkey]
      exact find_node_new hps (Nat.le_refl _)
    · rw [if_neg hl]
      cases hq : ps.node_at l with
      | none =>
        have hne : l ++ [nm] ≠ base ++ [name] := by
          intro heq
          rw [(List.append_inj' heq rfl).1, hbase] at hq
          cases hq
        rw [if_neg hne, Option.bind_none, Option.bind_none]
      | some q =>
        rw [Option.bind_some, Option.bind_some, h.find_node hnone]
        have hiff : (q, nm) = (parent, name) ↔ l ++ [nm] = base ++ [name] := by
          constructor
          · rintro ⟨⟩
            rw [node_at_inj hq hbase]
          · intro heq
            obtain ⟨hlist, hname⟩ := List.append_inj' heq rfl
            cases hname
            rw [hlist, hbase] at hq
            cases hq
            rfl
        simp only [hiff]

end koala.pkgnode
