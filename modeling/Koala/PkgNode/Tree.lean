import Koala.PkgNode.Add

namespace koala.pkgnode

set_option linter.style.nameCheck false

variable {D : Type}

/-- Every node lies below a directory. -/
def PkgState.Rooted (ps : PkgState D) : Prop :=
  ∀ {n : Nat} {parent : NodePtr} {name : List UInt8}, ps.keys[n]? = some (parent, name) →
    ps.IsDir parent

theorem rooted_init : (Init_PkgState : PkgState D).Rooted := by
  intro n parent name hkey
  simp [PkgState.keys, Init_PkgState] at hkey

/-- Nothing lies below a leaf. -/
theorem PkgState.Rooted.find_node_leaf {ps : PkgState D} (h : ps.Rooted) {q : NodePtr} {d : D}
    (hq : ps.IsLeaf q d) (name : List UInt8) : find_node ps name q = none := by
  cases hfind : find_node ps name q with
  | none => rfl
  | some child =>
    obtain ⟨n, _, hkey⟩ := key_of_find_node hfind
    obtain ⟨children, hdir⟩ := h hkey
    rw [PkgState.IsLeaf, hdir] at hq
    cases hq

/-- A child that is added below a leaf fails the assertion, behind its insertion. -/
theorem add_child_leaf {ps : PkgState D} {q : NodePtr} {d : D} (hq : ps.IsLeaf q d)
    (name : List UInt8) (data : Payload D) : add_child ps name q data = .error .assertion := by
  have hkept : (add_node ps name q data).2.payload q = some (.leaf d) := payload_add_node hq
  have happend : append_child (add_node ps name q data).2 q (.new ps.pkgtbl.length) =
      .error .assertion := by
    cases q with
    | root => cases hq
    | new n =>
      rw [PkgState.payload, Option.map_eq_some_iff] at hkept
      obtain ⟨⟨name', above, data'⟩, hentry, rfl⟩ := hkept
      simp only [append_child, hentry]
  rw [add_child]
  simp only [add_node] at happend ⊢
  rw [happend, error_bind]

/-- What the names lead to is there. -/
theorem payload_of_find_node {ps : PkgState D} {name : List UInt8} {parent child : NodePtr}
    (h : find_node ps name parent = some child) :
    ps.IsDir child ∨ ∃ d, ps.IsLeaf child d := by
  obtain ⟨n, rfl, hkey⟩ := key_of_find_node h
  obtain ⟨hlt, _⟩ := List.getElem?_eq_some_iff.mp hkey
  rw [keys_length] at hlt
  have hpayload : ps.payload (.new n) = some ps.pkgtbl[n].data := by
    rw [PkgState.payload, List.getElem?_eq_getElem hlt, Option.map_some]
  cases hdata : ps.pkgtbl[n].data with
  | dir children => exact Or.inl ⟨children, by rw [hpayload, hdata]⟩
  | leaf d => exact Or.inr ⟨d, by rw [PkgState.IsLeaf, hpayload, hdata]⟩

/-- The loop fails where its names lead to a leaf and go on. -/
theorem add_names_leaf {ps : PkgState D} (h : ps.Rooted) {data : D} {parent q : NodePtr} {d : D}
    {l rest : List (List UInt8)} (hwalk : walk ps parent l = some q) (hq : ps.IsLeaf q d)
    (hrest : rest ≠ []) : add_names ps data parent (l ++ rest) = .error .assertion := by
  induction l generalizing parent with
  | nil =>
    cases hwalk
    obtain ⟨name, rest, rfl⟩ := List.exists_cons_of_ne_nil hrest
    have hfind := h.find_node_leaf hq name
    cases rest with
    | nil =>
      rw [List.nil_append, add_names, add_leaf, hfind]
      simp only [add_child_leaf hq, error_bind]
    | cons above rest =>
      rw [List.nil_append, add_names, add_dir, hfind]
      simp only [add_child_leaf hq, error_bind]
  | cons name l ih =>
    rw [walk, Option.bind_eq_some_iff] at hwalk
    obtain ⟨child, hfind, hwalk⟩ := hwalk
    obtain ⟨above, m, hm⟩ : ∃ above m, l ++ rest = above :: m := by
      refine List.exists_cons_of_ne_nil fun hnil => hrest ?_
      exact (List.append_eq_nil_iff.mp hnil).2
    rw [List.cons_append, hm, add_names, add_dir, hfind]
    simp only [ok_bind]
    rw [← hm]
    exact ih hwalk

section rooted

variable {ps ps' : PkgState D} {name : List UInt8} {parent : NodePtr}

theorem Added.rooted {data : Payload D} (hadded : Added ps ps' name parent data) (h : ps.Rooted)
    (hdir : ps.IsDir parent) : ps'.Rooted := by
  intro n q nm hkey
  rw [hadded.keys] at hkey
  rcases List.mem_append.mp (List.mem_of_getElem? hkey) with hold | hnew
  · obtain ⟨m, hm⟩ := List.mem_iff_getElem?.mp hold
    exact hadded.dir q (h hm)
  · rw [List.mem_singleton] at hnew
    cases hnew
    exact hadded.dir parent hdir

/-- A child is added below a directory only. -/
theorem add_child_rooted {data : Payload D} {node : NodePtr} (h : ps.Rooted)
    (hparent : ps.IsDir parent ∨ ∃ d, ps.IsLeaf parent d)
    (hadd : add_child ps name parent data = .ok (node, ps')) :
    ps'.Rooted ∧ node = .new ps.pkgtbl.length ∧ Added ps ps' name parent data := by
  rcases hparent with hdir | ⟨d, hleaf⟩
  · obtain ⟨ps₁, hok, hadded⟩ := add_child_ok name data hdir
    rw [hadd] at hok
    cases hok
    exact ⟨hadded.rooted h hdir, rfl, hadded⟩
  · rw [add_child_leaf hleaf] at hadd
    cases hadd

theorem add_names_rooted {data : D} {r : Option NodePtr} {l : List (List UInt8)} (h : ps.Rooted)
    (hparent : ps.IsDir parent ∨ ∃ d, ps.IsLeaf parent d)
    (hadd : add_names ps data parent l = .ok (r, ps')) : ps'.Rooted := by
  induction l generalizing ps parent with
  | nil => cases hadd
  | cons name l ih =>
    cases l with
    | nil =>
      rw [add_names, add_leaf] at hadd
      cases hfind : find_node ps name parent with
      | some q =>
        rw [hfind] at hadd
        cases hadd
        exact h
      | none =>
        rw [hfind] at hadd
        obtain ⟨⟨node, ps₁⟩, hchild, hadd⟩ := bind_eq_ok_iff.mp hadd
        cases hadd
        exact (add_child_rooted h hparent hchild).1
    | cons above l =>
      rw [add_names] at hadd
      obtain ⟨⟨node, ps₁⟩, hdir, hadd⟩ := bind_eq_ok_iff.mp hadd
      rw [add_dir] at hdir
      cases hfind : find_node ps name parent with
      | some q =>
        rw [hfind] at hdir
        cases hdir
        exact ih h (payload_of_find_node hfind) hadd
      | none =>
        rw [hfind] at hdir
        obtain ⟨hrooted, rfl, hadded⟩ := add_child_rooted h hparent hdir
        exact ih hrooted (Or.inl (hadded.newDir [] rfl)) hadd

end rooted

/-- The trees that additions lead to. -/
inductive Reachable : PkgState D → Prop where
  | init : Reachable Init_PkgState
  | add {ps ps' : PkgState D} {path : CString} {data : D} {r : Option NodePtr}
    (h : Reachable ps) (hadd : Add_PkgNode ps path data = .ok (r, ps')) : Reachable ps'

theorem Reachable.rooted {ps : PkgState D} (h : Reachable ps) : ps.Rooted := by
  induction h with
  | init => exact rooted_init
  | add _ hadd ih =>
    rw [Add_PkgNode, add_loop_eq] at hadd
    exact add_names_rooted ih (Or.inl ⟨_, rfl⟩) hadd

/-- The path goes on behind a part of it that names a leaf. -/
def PkgState.BelowLeaf (ps : PkgState D) (path : CString) : Prop :=
  ∃ (q : CString) (rest : List UInt8) (node : NodePtr) (d : D),
    path.bytes = q.bytes ++ SLASH :: rest ∧ skip_slashes rest ≠ [] ∧
      Find_PkgNode ps q = .ok (some node) ∧ ps.IsLeaf node d

theorem front_slash (ch : UInt8) (p rest : List UInt8) :
    front ch (p ++ SLASH :: rest) = front ch p := by
  rw [front, front]
  induction p with
  | nil => simp
  | cons c p ih =>
    by_cases hc : c = SLASH
    · simp [hc]
    · simpa [hc] using ih

theorem behind_slash (p rest : List UInt8) :
    behind (p ++ SLASH :: rest) = behind p ++ SLASH :: rest := by
  rw [behind, behind]
  induction p with
  | nil => simp
  | cons c p ih =>
    by_cases hc : c = SLASH
    · simp [hc]
    · simpa [hc] using ih

/-- The names of a path are those in front of a slash, and those behind it. -/
theorem names_slash {q : List UInt8} (rest : List UInt8) (hq : q ≠ []) :
    names (q ++ SLASH :: rest) = names q ++ names (skip_slashes rest) := by
  induction q using names.induct with
  | case1 => exact absurd rfl hq
  | case2 ch p ih =>
    have hskip : skip_slashes (SLASH :: rest) = skip_slashes rest := by simp [skip_slashes]
    have hslashes : skip_slashes (behind p ++ SLASH :: rest) =
        if skip_slashes (behind p) = [] then skip_slashes rest
        else skip_slashes (behind p) ++ SLASH :: rest := by
      rw [← hskip, skip_slashes, skip_slashes, skip_slashes, List.dropWhile_append]
      simp only [List.isEmpty_iff]
    rw [List.cons_append, names_cons, names_cons, front_slash, behind_slash, hslashes]
    by_cases hend : skip_slashes (behind p) = []
    · rw [if_pos hend, hend, names_nil, List.singleton_append]
    · rw [if_neg hend, ih hend, List.cons_append]

/-- In every tree, adding a path below a leaf fails the assertion. -/
theorem Reachable.add_below_leaf {ps : PkgState D} (h : Reachable ps) {path : CString}
    (hbelow : ps.BelowLeaf path) (data : D) : Add_PkgNode ps path data = .error .assertion := by
  obtain ⟨q, rest, node, d, hpath, hrest, hfind, hleaf⟩ := hbelow
  have hq : q.bytes ≠ [] := by
    intro hnil
    rw [Find_PkgNode, hnil, find_loop] at hfind
    cases hfind
  rw [Find_PkgNode, find_loop_eq hq] at hfind
  have hnames : names (skip_slashes rest) ≠ [] := by
    obtain ⟨ch, p, hp⟩ := List.exists_cons_of_ne_nil hrest
    rw [hp, names_cons]
    exact List.cons_ne_nil _ _
  rw [Add_PkgNode, add_loop_eq, hpath, names_slash rest hq]
  exact add_names_leaf h.rooted (Except.ok.inj hfind) hleaf hnames

end koala.pkgnode

namespace koala.pkgnode

set_option linter.style.nameCheck false

variable {D : Type}

/-- The tree grew by a leaf at some place and the directories missing above it. -/
structure Grown (ps ps' : PkgState D) (place : List (List UInt8)) (data : D) (node : NodePtr) :
    Prop where
  ordered : ps'.Ordered
  found : ps'.node_at place = some node
  leaf : ps'.IsLeaf node data
  leafs : ∀ q d, ps.IsLeaf q d → ps'.IsLeaf q d
  dirs : ∀ q, ps.IsDir q → ps'.IsDir q
  leaves : ps'.leaves = ps.leaves ++ [data]
  others : ∀ l, l ≠ place → ps'.node_at l = ps.node_at l ∨
    ps.node_at l = none ∧ ∃ q, ps'.node_at l = some q ∧ ps'.IsDir q ∧
      ∃ name m, place = l ++ name :: m

/-- Every node on the way to a place is a directory. -/
def PkgState.Open (ps : PkgState D) (place : List (List UInt8)) : Prop :=
  ∀ l name m, place = l ++ name :: m → ∀ q, ps.node_at l = some q → ps.IsDir q

/-- A leaf is added at once below a directory. -/
theorem Added.grown {ps ps' : PkgState D} {name : List UInt8} {parent : NodePtr} {data : D}
    {base : List (List UInt8)} (h : Added ps ps' name parent (.leaf data)) (hps : ps.Ordered)
    (hdir : ps.IsDir parent) (hbase : ps.node_at base = some parent)
    (hnone : pkgnode.find_node ps name parent = none) :
    Grown ps ps' (base ++ [name]) data (.new ps.pkgtbl.length) where
  ordered := h.ordered hps hdir
  found := by rw [h.node_at hps hdir hbase hnone, if_pos rfl]
  leaf := h.newLeaf data rfl
  leafs := h.leaf
  dirs := h.dir
  leaves := h.leaves
  others l hl := by
    left
    rw [h.node_at hps hdir hbase hnone, if_neg hl]

/-- A directory that was missing, and then the rest. -/
theorem Added.trans_grown {ps mid ps' : PkgState D} {name : List UInt8} {parent node : NodePtr}
    {data : D} {base place : List (List UInt8)} (h : Added ps mid name parent (.dir []))
    (hps : ps.Ordered) (hdir : ps.IsDir parent) (hbase : ps.node_at base = some parent)
    (hnone : pkgnode.find_node ps name parent = none)
    (hplace : ∃ above m, place = base ++ [name] ++ above :: m)
    (hgrown : Grown mid ps' place data node) : Grown ps ps' place data node where
  ordered := hgrown.ordered
  found := hgrown.found
  leaf := hgrown.leaf
  leafs q d hq := hgrown.leafs q d (h.leaf q d hq)
  dirs q hq := hgrown.dirs q (h.dir q hq)
  leaves := by
    rw [hgrown.leaves, h.leaves]
    simp [fini_pkgnode]
  others l hl := by
    have hmid := h.node_at hps hdir hbase hnone l
    have hnew : ps.node_at (base ++ [name]) = none := by
      rw [node_at_snoc, hbase, Option.bind_some, hnone]
    by_cases heq : l = base ++ [name]
    · right
      subst heq
      rw [if_pos rfl] at hmid
      refine ⟨hnew, ?_⟩
      rcases hgrown.others _ hl with hkeep | ⟨hmiss, _⟩
      · rw [hmid] at hkeep
        exact ⟨_, hkeep, hgrown.dirs _ (h.newDir [] rfl), hplace⟩
      · rw [hmid] at hmiss
        cases hmiss
    · rw [if_neg heq] at hmid
      have hothers := hgrown.others l hl
      rwa [hmid] at hothers

theorem Open.added {ps mid : PkgState D} {name : List UInt8} {parent : NodePtr}
    {base place : List (List UInt8)} (h : Added ps mid name parent (.dir [])) (hps : ps.Ordered)
    (hdir : ps.IsDir parent) (hbase : ps.node_at base = some parent)
    (hnone : pkgnode.find_node ps name parent = none) (hopen : ps.Open place) :
    mid.Open place := by
  intro l nm m hl q hq
  rw [h.node_at hps hdir hbase hnone] at hq
  split at hq
  · cases hq
    exact h.newDir [] rfl
  · exact h.dir q (hopen l nm m hl q hq)

/-- Adding below a directory, when no leaf is in the way: nothing happens when
the place is taken, and else the leaf appears there. -/
theorem add_names_ok {ps : PkgState D} {data : D} {parent : NodePtr} {base l : List (List UInt8)}
    (hps : ps.Ordered) (hbase : ps.node_at base = some parent) (hdir : ps.IsDir parent)
    (hl : l ≠ []) (hopen : ps.Open (base ++ l)) :
    (ps.node_at (base ++ l) ≠ none ∧ add_names ps data parent l = .ok (none, ps)) ∨
      (ps.node_at (base ++ l) = none ∧ ∃ node ps',
        add_names ps data parent l = .ok (some node, ps') ∧ Grown ps ps' (base ++ l) data node) := by
  induction l generalizing ps base parent with
  | nil => exact absurd rfl hl
  | cons name l ih =>
    have hfirst : ps.node_at (base ++ [name]) = pkgnode.find_node ps name parent := by
      rw [node_at_snoc, hbase, Option.bind_some]
    cases l with
    | nil =>
      rw [add_names, add_leaf, hfirst]
      cases hfind : pkgnode.find_node ps name parent with
      | some q =>
        left
        exact ⟨Option.some_ne_none q, rfl⟩
      | none =>
        right
        obtain ⟨ps', hchild, hadded⟩ := add_child_ok name (.leaf data) hdir
        refine ⟨rfl, _, ps', ?_, hadded.grown hps hdir hbase hfind⟩
        simp only [hchild, ok_bind]
    | cons above l =>
      have hassoc : base ++ name :: above :: l = base ++ [name] ++ above :: l :=
        List.append_cons _ _ _
      rw [hassoc] at hopen ⊢
      rw [add_names, add_dir]
      cases hfind : pkgnode.find_node ps name parent with
      | some q =>
        rw [hfind] at hfirst
        simp only [ok_bind]
        exact ih hps hfirst (hopen _ above l rfl q hfirst) (List.cons_ne_nil _ _) hopen
      | none =>
        rw [hfind] at hfirst
        obtain ⟨mid, hchild, hadded⟩ := add_child_ok name (.dir []) hdir
        have hplace := hadded.node_at hps hdir hbase hfind
        have hmid_at : mid.node_at (base ++ [name]) = some (.new ps.pkgtbl.length) := by
          rw [hplace, if_pos rfl]
        have hnone : ps.node_at (base ++ [name] ++ above :: l) = none := by
          rw [node_at_append, hfirst, Option.bind_none]
        have hmid_none : mid.node_at (base ++ [name] ++ above :: l) = none := by
          rw [hplace, if_neg (by simp), hnone]
        simp only [hchild, ok_bind]
        right
        refine ⟨hnone, ?_⟩
        rcases ih (hadded.ordered hps hdir) hmid_at (hadded.newDir [] rfl) (List.cons_ne_nil _ _)
          (Open.added hadded hps hdir hbase hfind hopen) with ⟨hsome, _⟩ | ⟨_, node, ps', hok, hgrown⟩
        · exact absurd hmid_none hsome
        · exact ⟨node, ps', hok,
            hadded.trans_grown hps hdir hbase hfind ⟨above, l, rfl⟩ hgrown⟩

end koala.pkgnode

namespace koala.pkgnode

set_option linter.style.nameCheck false

/-- The calls made on a tree. -/
inductive Call (D : Type) where
  | Add (path : Path) (data : D)
  | Find (path : Path)

variable {D : Type}

/-- No path is added below a leaf. -/
def Call.Allowed (ps : PkgState D) : Call D → Prop
  | .Add p _ => ∀ q : Path, p.Below q → ∀ node d,
    Find_PkgNode ps q.str = .ok (some node) → ¬ ps.IsLeaf node d
  | .Find _ => True

/-- The calls in their order, and the data of the leaves they added. -/
inductive Run : PkgState D → List (Call D) → List D → PkgState D → Prop where
  | nil {ps : PkgState D} : Run ps [] [] ps
  | find {ps ps' : PkgState D} {p : Path} {r : Option NodePtr} {calls : List (Call D)}
    {added : List D} (hfind : Find_PkgNode ps p.str = .ok r) (h : Run ps calls added ps') :
    Run ps (.Find p :: calls) added ps'
  | known {ps mid ps' : PkgState D} {p : Path} {data : D} {calls : List (Call D)}
    {added : List D} (hallowed : (Call.Add p data).Allowed ps)
    (hadd : Add_PkgNode ps p.str data = .ok (none, mid)) (h : Run mid calls added ps') :
    Run ps (.Add p data :: calls) added ps'
  | added {ps mid ps' : PkgState D} {p : Path} {data : D} {node : NodePtr}
    {calls : List (Call D)} {added : List D} (hallowed : (Call.Add p data).Allowed ps)
    (hadd : Add_PkgNode ps p.str data = .ok (some node, mid)) (h : Run mid calls added ps') :
    Run ps (.Add p data :: calls) (data :: added) ps'

theorem isDir_or_isLeaf {ps : PkgState D} {l : List (List UInt8)} {q : NodePtr}
    (h : ps.node_at l = some q) : ps.IsDir q ∨ ∃ d, ps.IsLeaf q d := by
  cases l using List.reverseRecOn with
  | nil =>
    cases h
    exact Or.inl ⟨ps.root, rfl⟩
  | append_singleton l name _ =>
    rw [node_at_snoc, Option.bind_eq_some_iff] at h
    obtain ⟨parent, _, hfind⟩ := h
    obtain ⟨n, rfl, hkey⟩ := key_of_find_node hfind
    obtain ⟨hlt, _⟩ := List.getElem?_eq_some_iff.mp hkey
    rw [keys_length] at hlt
    have hpayload : ps.payload (.new n) = some ps.pkgtbl[n].data := by
      rw [PkgState.payload, List.getElem?_eq_getElem hlt, Option.map_some]
    cases hdata : ps.pkgtbl[n].data with
    | dir children => exact Or.inl ⟨children, by rw [hpayload, hdata]⟩
    | leaf d => exact Or.inr ⟨d, by rw [PkgState.IsLeaf, hpayload, hdata]⟩

theorem Call.Allowed.isOpen {ps : PkgState D} {p : Path} {data : D}
    (h : (Call.Add p data).Allowed ps) : ps.Open p.names := by
  intro l name m hl q hq
  by_cases hnil : l = []
  · subst hnil
    cases hq
    exact ⟨ps.root, rfl⟩
  · obtain ⟨path, hpath⟩ := Path.exists_of_names hnil hl
    subst hpath
    have hfind : Find_PkgNode ps path.str = .ok (some q) := by
      rw [Find_PkgNode_eq, hq]
    have hnot := h path (Path.below_of_names hl) q
    exact (isDir_or_isLeaf hq).resolve_right fun ⟨d, hd⟩ => hnot d hfind hd

/-- An allowed addition returns: nothing happens when the path names a node,
and else the tree grows by the leaf. -/
theorem Add_PkgNode_ok {ps : PkgState D} (hps : ps.Ordered) {p : Path} {data : D}
    (h : (Call.Add p data).Allowed ps) :
    (ps.node_at p.names ≠ none ∧ Add_PkgNode ps p.str data = .ok (none, ps)) ∨
      (ps.node_at p.names = none ∧ ∃ node ps',
        Add_PkgNode ps p.str data = .ok (some node, ps') ∧
          Grown ps ps' p.names data node) := by
  rw [Add_PkgNode_eq]
  exact @add_names_ok D ps data .root [] p.names hps rfl ⟨ps.root, rfl⟩ p.names_ne_nil h.isOpen

theorem Grown.kept {ps ps' : PkgState D} {place l : List (List UInt8)} {data : D}
    {node q : NodePtr} (h : Grown ps ps' place data node) (hplace : ps.node_at place = none)
    (hl : ps.node_at l = some q) : ps'.node_at l = some q := by
  have hne : l ≠ place := by
    rintro rfl
    rw [hplace] at hl
    cases hl
  rcases h.others l hne with hkeep | ⟨hnone, _⟩
  · rw [hkeep, hl]
  · rw [hl] at hnone
    cases hnone

/-- What a run keeps: the places of nodes, the data of leaves, and the leaves in
the order they are added. -/
structure Kept (ps ps' : PkgState D) (added : List D) : Prop where
  ordered : ps'.Ordered
  place : ∀ l q, ps.node_at l = some q → ps'.node_at l = some q
  leaf : ∀ q d, ps.IsLeaf q d → ps'.IsLeaf q d
  leaves : ps'.leaves = ps.leaves ++ added

theorem Run.kept {ps ps' : PkgState D} {calls : List (Call D)} {added : List D}
    (h : Run ps calls added ps') (hps : ps.Ordered) : Kept ps ps' added := by
  induction h with
  | nil => exact ⟨hps, fun _ _ hl => hl, fun _ _ hq => hq, (List.append_nil _).symm⟩
  | find hfind h ih => exact ih hps
  | known hallowed hadd h ih =>
    rcases Add_PkgNode_ok hps hallowed with ⟨_, hok⟩ | ⟨_, node, grown, hok, _⟩
    · rw [hadd] at hok
      cases hok
      exact ih hps
    · rw [hadd] at hok
      cases hok
  | @added ps mid ps' p data node calls added hallowed hadd h ih =>
    rcases Add_PkgNode_ok hps hallowed with ⟨_, hok⟩ | ⟨hnone, node, grown, hok, hgrown⟩
    · rw [hadd] at hok
      cases hok
    · rw [hadd] at hok
      cases hok
      have hkept := ih hgrown.ordered
      refine ⟨hkept.ordered, ?_, ?_, ?_⟩
      · exact fun l q hq => hkept.place l q (hgrown.kept hnone hq)
      · exact fun q d hq => hkept.leaf q d (hgrown.leafs q d hq)
      · rw [hkept.leaves, hgrown.leaves, List.append_assoc]
        rfl

theorem Init_PkgState_ordered : (Init_PkgState : PkgState D).Ordered := by
  intro n m name h
  cases h

/-- What an addition does to the map from paths to nodes. -/
structure AddSpec (ps : PkgState D) (p : Path) (data : D) (r : Option NodePtr)
    (ps' : PkgState D) : Prop where
  null_iff : r = none ↔ Find_PkgNode ps p.str ≠ .ok none
  unchanged : r = none → ps' = ps
  found : ∀ node, r = some node → ∀ calls added ps'', Run ps' calls added ps'' →
    Find_PkgNode ps'' p.str = .ok (some node) ∧ ps''.IsLeaf node data
  others : ∀ q : Path, squeeze q.str.bytes ≠ squeeze p.str.bytes →
    Find_PkgNode ps' q.str = Find_PkgNode ps q.str ∨
      p.Below q ∧ Find_PkgNode ps q.str = .ok none ∧
        ∃ node, Find_PkgNode ps' q.str = .ok (some node) ∧ ps'.IsDir node

theorem Add_PkgNode_spec {ps : PkgState D} (hps : ps.Ordered) {p : Path} {data : D}
    (h : (Call.Add p data).Allowed ps) :
    ∃ r ps', Add_PkgNode ps p.str data = .ok (r, ps') ∧ AddSpec ps p data r ps' := by
  rcases Add_PkgNode_ok hps h with ⟨hsome, hok⟩ | ⟨hnone, node, ps', hok, hgrown⟩
  · refine ⟨none, ps, hok, ?_, fun _ => rfl, ?_, fun q _ => Or.inl rfl⟩
    · rw [Find_PkgNode_eq]
      simpa using hsome
    · intro node hnode
      cases hnode
  · refine ⟨some node, ps', hok, ?_, ?_, ?_, ?_⟩
    · rw [Find_PkgNode_eq, hnone]
      simp
    · intro hnode
      cases hnode
    · intro node' hnode calls added ps'' hrun
      cases hnode
      have hkept := hrun.kept hgrown.ordered
      rw [Find_PkgNode_eq, hkept.place _ _ hgrown.found]
      exact ⟨rfl, hkept.leaf _ _ hgrown.leaf⟩
    · intro q hq
      have hne : q.names ≠ p.names := fun heq => hq (Path.names_eq_iff.mp heq)
      rw [Find_PkgNode_eq, Find_PkgNode_eq]
      rcases hgrown.others _ hne with hkeep | ⟨hmiss, m, hm, hdir, name, l, hl⟩
      · exact Or.inl (by rw [hkeep])
      · exact Or.inr ⟨Path.below_of_names hl, by rw [hmiss], m, by rw [hm], hdir⟩

/-- A tree is a map from paths, up to repeated and trailing slashes, to nodes,
and it holds the leaves that were added. -/
structure PkgState.IsMap (ps : PkgState D) (added : List D) : Prop where
  identified : ∀ p q : Path, squeeze p.str.bytes = squeeze q.str.bytes →
    Find_PkgNode ps p.str = Find_PkgNode ps q.str ∧
      ∀ data, Add_PkgNode ps p.str data = Add_PkgNode ps q.str data
  distinct : ∀ (p q : Path) (node : NodePtr), Find_PkgNode ps p.str = .ok (some node) →
    Find_PkgNode ps q.str = .ok (some node) → squeeze p.str.bytes = squeeze q.str.bytes
  finds : ∀ p : Path, ∃ r, Find_PkgNode ps p.str = .ok r
  adds : ∀ (p : Path) (data : D), (Call.Add p data).Allowed ps →
    ∃ r ps', Add_PkgNode ps p.str data = .ok (r, ps') ∧ AddSpec ps p data r ps'
  fini : Fini_PkgState ps = added

/-- The package tree is a map in every state that calls lead to. -/
theorem PkgState.is_map {calls : List (Call D)} {added : List D} {ps : PkgState D}
    (h : Run Init_PkgState calls added ps) : ps.IsMap added := by
  have hkept := h.kept Init_PkgState_ordered
  refine ⟨?_, ?_, fun p => ⟨_, Find_PkgNode_eq ps p⟩,
    fun p data hallowed => Add_PkgNode_spec hkept.ordered hallowed, hkept.leaves⟩
  · intro p q hpq
    have hnames := Path.names_eq_iff.mpr hpq
    rw [Find_PkgNode_eq, Find_PkgNode_eq, hnames]
    refine ⟨rfl, fun data => ?_⟩
    rw [Add_PkgNode_eq, Add_PkgNode_eq, hnames]
  · intro p q node hp hq
    rw [Find_PkgNode_eq] at hp hq
    exact Path.names_eq_iff.mp (node_at_inj (Except.ok.inj hp) (Except.ok.inj hq))

def koala_io : List (List UInt8) :=
  ["koala".toList.map Char.toUInt8, "io".toList.map Char.toUInt8]

def io_path : Path := ⟨⟨join koala_io, by decide⟩, _, _, rfl, by decide⟩

/-- The tree with the single leaf `koala/io`. -/
def io_state : PkgState Nat :=
  ⟨[⟨"koala".toList.map Char.toUInt8, .root, .dir [.new 1]⟩,
    ⟨"io".toList.map Char.toUInt8, .new 0, .leaf 7⟩], [.new 0]⟩

theorem io_path_names : io_path.names = koala_io := names_join (by unfold Clean; decide)

theorem PkgState.is_map_io : io_state.IsMap [7] := by
  have hallowed : (Call.Add io_path 7).Allowed Init_PkgState := by
    intro q _ node d hfind
    rw [Find_PkgNode_eq] at hfind
    obtain ⟨name, l, hnames⟩ := List.exists_cons_of_ne_nil q.names_ne_nil
    rw [hnames] at hfind
    cases hfind
  have hadd : Add_PkgNode Init_PkgState io_path.str 7 = .ok (some (.new 1), io_state) := by
    rw [Add_PkgNode_eq, io_path_names]
    decide
  exact PkgState.is_map (.added hallowed hadd .nil)

end koala.pkgnode
