import Koala.Ast.Module

open koala.parser koala.typedesc

namespace koala.ast

set_option linter.style.nameCheck false

/-- What is not allocated is used, or an assertion fails. -/
def Faults {α : Type} (r : Res α) : Prop := ∃ e, r = .error e

section faults

variable {α β : Type} {r : Res α}

theorem Faults.bind (h : Faults r) (f : α → Res β) : Faults (r >>= f) := by
  obtain ⟨e, rfl⟩ := h
  exact ⟨e, rfl⟩

theorem null_faults : Faults (deref (none : Option α)) := ⟨_, rfl⟩

theorem deref_faults {p : Option α} (hnone : ¬ p.isSome = true) : Faults (deref p) := by
  cases p with
  | none => exact null_faults
  | some a => exact absurd rfl hnone

end faults

section lists

variable {st : State} {ids exps left right : List Expr}

/-- As many left sides as expressions of which a later one is the first that is no
identifier are freed twice; an empty list fails an assertion. -/
theorem typeless_faults (howned : st.mem.Owned (nodes_list ids ++ nodes_list exps))
    (hbad : ¬ ((ids = [] ↔ exps = []) ∧ (ids.length = exps.length →
      (∃ e ∈ ids.head?, e.isIdent = true) → ∀ e ∈ ids, e.isIdent = true))) :
    Faults (Parser_Do_Typeless_Variables ids exps st) := by
  by_cases hnil : ids = [] ↔ exps = []
  · by_cases hsame : ids.length = exps.length
    · obtain ⟨names, rfl⟩ | ⟨names, e, rest, hids, he⟩ := split_idents ids
      · exact absurd ⟨hnil, fun _ _ => named_isIdent⟩ hbad
      · cases names with
        | nil =>
          refine absurd ⟨hnil, fun _ hhead => ?_⟩ hbad
          obtain ⟨e', he', htrue⟩ := hhead
          rw [hids] at he'
          cases he'
          cases he.symm.trans htrue
        | cons p names => exact ⟨_, typeless_later he hids hsame howned⟩
    · exact absurd ⟨hnil, fun hlength => absurd hlength hsame⟩ hbad
  · unfold Parser_Do_Typeless_Variables
    cases ids with
    | nil =>
      cases exps with
      | nil => exact absurd Iff.rfl hnil
      | cons exp exps => exact null_faults.bind _
    | cons e rest =>
      cases exps with
      | nil => exact ⟨_, rfl⟩
      | cons exp exps => exact absurd (iff_of_false nofun nofun) hnil

theorem assign_faults (hbad : ¬ (right = [] → left = [])) :
    Faults (Parser_Do_Assignments left right st) := by
  cases right with
  | cons exp right => exact absurd nofun hbad
  | nil =>
    cases left with
    | nil => exact absurd (fun _ => rfl) hbad
    | cons e rest => exact ⟨_, rfl⟩

end lists

namespace grammar

variable {extstbl : List CString} {s₀ : Descs}

mutual

/-- Where a `NULL` is followed, a type is not built. -/
theorem BaseType.build_faults (base : BaseType) {s : Descs} {st : State} {held : List TypeDesc}
    {nodes : List Nat} (h : Holds s₀ st s held nodes) (hdefined : ¬ base.Defined extstbl) :
    Faults (base.build extstbl st) := by
  cases base with
  | PrimitiveType type => exact absurd (by rw [BaseType.Defined]; trivial) hdefined
  | KlassType klass => exact absurd (by rw [BaseType.Defined]; trivial) hdefined
  | FunctionType params rets =>
    rw [BaseType.Defined] at hdefined
    rw [BaseType.build]
    by_cases hparams : params.Defined extstbl
    · obtain ⟨pvec, st₁, s₁, hrun₁, htypes₁, h₁, -⟩ := params.build_holds h hparams
      rw [hrun₁, ok_bind]
      by_cases hrets : rets.Defined extstbl
      · obtain ⟨rvec, st₂, s₂, hrun₂, htypes₂, h₂, -⟩ := rets.build_holds h₁ hrets
        have hnone : ¬ ((BaseType.FunctionType params rets).desc extstbl).isSome = true := fun hsome =>
          hdefined ⟨hparams, hrets, hsome⟩
        rw [BaseType.desc, ← htypes₁, ← htypes₂] at hnone
        dsimp only
        rw [hrun₂, ok_bind]
        refine Faults.bind ?_ _
        dsimp only [ast.proto_items]
        rw [TypeDesc_Get_Proto]
        cases harg : derefs (pvec.map IdType.type) with
        | error e => exact ⟨e, rfl⟩
        | ok arg =>
          cases hret : derefs (rvec.map IdType.type) with
          | error e => exact ⟨e, rfl⟩
          | ok ret =>
            rw [harg, hret] at hnone
            exact absurd rfl hnone
      · exact (rets.build_faults h₁ hrets).bind _
    · exact (params.build_faults h hparams).bind _
  | MapType key val =>
    rw [BaseType.Defined, BaseType.desc] at hdefined
    obtain ⟨st₁, s₁, hrun₁, h₁, -⟩ := @KeyType.build_holds extstbl s₀ s st held nodes key h
    rw [BaseType.build, hrun₁]
    dsimp only
    by_cases hval : val.Defined extstbl
    · obtain ⟨st₂, s₂, hrun₂, h₂, -⟩ := val.build_holds h₁ hval
      rw [hrun₂, ok_bind]
      dsimp only
      cases hk : key.desc extstbl with
      | none => exact null_faults.bind _
      | some k =>
        cases hv : val.desc extstbl with
        | none => exact ⟨_, rfl⟩
        | some v =>
          rw [hk, hv] at hdefined
          exact absurd ⟨hval, rfl⟩ hdefined
    · exact (val.build_faults h₁ hval).bind _
  | SetType key =>
    rw [BaseType.Defined, BaseType.desc, Option.isSome_map] at hdefined
    obtain ⟨st₁, s₁, hrun₁, -⟩ := @KeyType.build_holds extstbl s₀ s st held nodes key h
    rw [BaseType.build, hrun₁]
    exact (deref_faults hdefined).bind _

theorem Ty.build_faults (type : Ty) {s : Descs} {st : State} {held : List TypeDesc}
    {nodes : List Nat} (h : Holds s₀ st s held nodes) (hdefined : ¬ type.Defined extstbl) :
    Faults (type.build extstbl st) := by
  cases type with
  | BaseType base =>
    rw [Ty.Defined] at hdefined
    rw [Ty.build]
    exact base.build_faults h hdefined
  | ArrayType dims base =>
    rw [Ty.Defined] at hdefined
    rw [Ty.build]
    by_cases hbase : base.Defined extstbl
    · obtain ⟨st₁, s₁, hrun₁, -⟩ := base.build_holds h hbase
      rw [hrun₁, ok_bind]
      exact (deref_faults fun hsome => hdefined ⟨hbase, hsome⟩).bind _
    · exact (base.build_faults h hbase).bind _

theorem IDTypes.build_faults (list : IDTypes) {s : Descs} {st : State} {held : List TypeDesc}
    {nodes : List Nat} (h : Holds s₀ st s held nodes) (hdefined : ¬ list.Defined extstbl) :
    Faults (list.build extstbl st) := by
  cases list with
  | nil => exact absurd (by rw [IDTypes.Defined]; trivial) hdefined
  | cons id type rest =>
    rw [IDTypes.Defined] at hdefined
    rw [IDTypes.build]
    by_cases htype : type.Defined extstbl
    · obtain ⟨st₁, s₁, hrun₁, h₁, hgrows₁, hmem⟩ := type.build_holds h htype
      obtain ⟨s₂, h₂, -⟩ := h₁.incref hmem
      rw [hrun₁, ok_bind]
      exact (rest.build_faults h₂ fun hrest => hdefined ⟨htype, hrest⟩).bind _
    · exact (type.build_faults h htype).bind _
  | varg id base =>
    cases base with
    | none => exact absurd (by rw [IDTypes.Defined]; trivial) hdefined
    | some base =>
      rw [IDTypes.Defined] at hdefined
      rw [IDTypes.build]
      exact (base.build_faults h hdefined).bind _

end

theorem build_type_faults {s : Descs} {st : State} {held : List TypeDesc} {nodes : List Nat}
    (type : Option Ty) (h : Holds s₀ st s held nodes) (hdefined : ¬ TypeDefined extstbl type) :
    Faults (build_type extstbl type st) := by
  cases type with
  | none => exact absurd trivial hdefined
  | some type => exact type.build_faults h hdefined

mutual

/-- So is an expression with such a type, or with a declaration that frees twice. -/
theorem Expression.build_faults (e : Expression) {s : Descs} {st : State} {held : List TypeDesc}
    {nodes : List Nat} (h : Holds s₀ st s (e.over extstbl ++ held) nodes)
    (hdefined : ¬ e.Defined extstbl) : Faults (e.build extstbl st) := by
  cases e with
  | ID | CONSTANT | TOKEN_NIL | SELF | SUPER =>
    exact absurd (by rw [Expression.Defined]; trivial) hdefined
  | AttributeExpression pos left id =>
    rw [Expression.over] at h
    rw [Expression.Defined] at hdefined
    rw [Expression.build]
    exact (left.build_faults h hdefined).bind _
  | CallExpression pos left args =>
    rw [Expression.over, List.append_assoc] at h
    rw [Expression.Defined] at hdefined
    rw [Expression.build]
    by_cases hleft : left.Defined extstbl
    · obtain ⟨left', st₁, s₁, hrun₁, -, h₁, -⟩ := left.build_holds h hleft
      rw [hrun₁, ok_bind]
      exact (build_exprs_faults args (h₁.perm (List.perm_append_comm_assoc _ _ _) (.refl _))
        fun hargs => hdefined ⟨hleft, hargs⟩).bind _
    · exact (left.build_faults h hleft).bind _
  | SubScriptExpression pos left index =>
    rw [Expression.over, List.append_assoc] at h
    rw [Expression.Defined] at hdefined
    rw [Expression.build]
    by_cases hleft : left.Defined extstbl
    · obtain ⟨left', st₁, s₁, hrun₁, -, h₁, -⟩ := left.build_holds h hleft
      rw [hrun₁, ok_bind]
      exact (index.build_faults (h₁.perm (List.perm_append_comm_assoc _ _ _) (.refl _))
        fun hindex => hdefined ⟨hleft, hindex⟩).bind _
    · exact (left.build_faults h hleft).bind _
  | SliceExpression pos left start stop =>
    rw [Expression.over, List.append_assoc, List.append_assoc] at h
    rw [Expression.Defined] at hdefined
    rw [Expression.build]
    by_cases hleft : left.Defined extstbl
    · obtain ⟨left', st₁, s₁, hrun₁, -, h₁, -⟩ := left.build_holds h hleft
      have h₁' := h₁.perm (List.perm_append_comm_assoc _ _ _) (.refl _)
      rw [hrun₁, ok_bind]
      by_cases hstart : Defined_opt extstbl start
      · obtain ⟨start', st₂, s₂, hrun₂, -, h₂, -⟩ := build_opt_holds start h₁' hstart
        have hperm : (drops_opt start' ++ (left'.drops ++ (over_opt extstbl stop ++ held))).Perm
            (over_opt extstbl stop ++ (drops_opt start' ++ (left'.drops ++ held))) := by
          refine List.perm_iff_count.mpr fun t => ?_
          simp only [List.count_append]
          omega
        dsimp only
        rw [hrun₂, ok_bind]
        exact (build_opt_faults stop (h₂.perm hperm (.refl _))
          fun hstop => hdefined ⟨hleft, hstart, hstop⟩).bind _
      · exact (build_opt_faults start h₁' hstart).bind _
    · exact (left.build_faults h hleft).bind _
  | UnaryExpression pos op exp =>
    rw [Expression.over] at h
    rw [Expression.Defined] at hdefined
    rw [Expression.build]
    exact (exp.build_faults h hdefined).bind _
  | BinaryExpression pos op left right =>
    rw [Expression.over, List.append_assoc] at h
    rw [Expression.Defined] at hdefined
    rw [Expression.build]
    by_cases hleft : left.Defined extstbl
    · obtain ⟨left', st₁, s₁, hrun₁, -, h₁, -⟩ := left.build_holds h hleft
      rw [hrun₁, ok_bind]
      exact (right.build_faults (h₁.perm (List.perm_append_comm_assoc _ _ _) (.refl _))
        fun hright => hdefined ⟨hleft, hright⟩).bind _
    · exact (left.build_faults h hleft).bind _
  | ArrayOrSetInitializer init =>
    rw [Expression.over] at h
    rw [Expression.Defined] at hdefined
    rw [Expression.build]
    exact init.build_faults h hdefined
  | MapInitializer init =>
    rw [Expression.over] at h
    rw [Expression.Defined] at hdefined
    rw [Expression.build]
    exact init.build_faults h hdefined
  | ArrayCreationExpression pos dims type init =>
    rw [Expression.over, List.append_assoc, List.append_assoc] at h
    rw [Expression.Defined] at hdefined
    rw [Expression.build]
    by_cases hdims : Defined_exprs extstbl dims
    · obtain ⟨dims', st₁, s₁, hrun₁, -, h₁, -⟩ := build_exprs_holds dims h hdims
      rw [hrun₁, ok_bind]
      by_cases htype : type.Defined extstbl
      · obtain ⟨st₂, s₂, hrun₂, h₂, -⟩ := type.build_holds h₁ htype
        have h₂' := h₂.perm (List.perm_append_comm_assoc _ _ _) (.refl _)
        dsimp only
        rw [hrun₂, ok_bind]
        by_cases hinit : Defined_array_init extstbl init
        · obtain ⟨init', st₃, s₃, hrun₃, -⟩ := build_array_init_holds init h₂' hinit
          dsimp only
          rw [hrun₃, ok_bind]
          exact (deref_faults fun hsome => hdefined ⟨hdims, htype, hsome, hinit⟩).bind _
        · exact (build_array_init_faults init h₂' hinit).bind _
      · exact (type.build_faults h₁ htype).bind _
    · exact (build_exprs_faults dims h hdims).bind _
  | ArrayDimsExpression pos dims base init =>
    rw [Expression.over] at h
    rw [Expression.Defined] at hdefined
    rw [Expression.build]
    by_cases hbase : base.Defined extstbl
    · obtain ⟨st₁, s₁, hrun₁, h₁, -⟩ := base.build_holds h hbase
      rw [hrun₁, ok_bind]
      by_cases hinit : Defined_array_init extstbl init
      · obtain ⟨init', st₂, s₂, hrun₂, -⟩ := build_array_init_holds init h₁ hinit
        dsimp only
        rw [hrun₂, ok_bind]
        exact (deref_faults fun hsome => hdefined ⟨hbase, hsome, hinit⟩).bind _
      · exact (build_array_init_faults init h₁ hinit).bind _
    · exact (base.build_faults h hbase).bind _
  | SetCreationExpression pos key init =>
    rw [Expression.over] at h
    rw [Expression.Defined] at hdefined
    rw [Expression.build]
    by_cases htype : (BaseType.SetType key).Defined extstbl
    · obtain ⟨st₁, s₁, hrun₁, h₁, -⟩ := (BaseType.SetType key).build_holds h htype
      rw [hrun₁, ok_bind]
      exact (build_array_init_faults init h₁ fun hinit => hdefined ⟨htype, hinit⟩).bind _
    · exact ((BaseType.SetType key).build_faults h htype).bind _
  | MapCreationExpression pos key val init =>
    rw [Expression.over] at h
    rw [Expression.Defined] at hdefined
    rw [Expression.build]
    by_cases htype : (BaseType.MapType key val).Defined extstbl
    · obtain ⟨st₁, s₁, hrun₁, h₁, -⟩ := (BaseType.MapType key val).build_holds h htype
      rw [hrun₁, ok_bind]
      exact (build_map_init_faults init h₁ fun hinit => hdefined ⟨htype, hinit⟩).bind _
    · exact ((BaseType.MapType key val).build_faults h htype).bind _
  | AnonyFuncExpression pos args rets body =>
    rw [Expression.over] at h
    rw [Expression.Defined] at hdefined
    rw [Expression.build]
    by_cases hargs : args.Defined extstbl
    · obtain ⟨args', st₁, s₁, hrun₁, -, h₁, -⟩ := args.build_holds h hargs
      rw [hrun₁, ok_bind]
      by_cases hrets : rets.Defined extstbl
      · obtain ⟨rets', st₂, s₂, hrun₂, -, h₂, -⟩ := rets.build_holds h₁ hrets
        have hperm : (IdType.drops rets' ++ (IdType.drops args' ++
            (over_stmts extstbl body ++ held))).Perm
              (over_stmts extstbl body ++ (IdType.drops rets' ++ (IdType.drops args' ++ held))) := by
          refine List.perm_iff_count.mpr fun t => ?_
          simp only [List.count_append]
          omega
        dsimp only
        rw [hrun₂, ok_bind]
        exact (build_stmts_faults body (h₂.perm hperm (.refl _))
          fun hbody => hdefined ⟨hargs, hrets, hbody⟩).bind _
      · exact (rets.build_faults h₁ hrets).bind _
    · exact (args.build_faults h hargs).bind _

theorem build_opt_faults (e : Option Expression) {s : Descs} {st : State} {held : List TypeDesc}
    {nodes : List Nat} (h : Holds s₀ st s (over_opt extstbl e ++ held) nodes)
    (hdefined : ¬ Defined_opt extstbl e) : Faults (build_opt extstbl e st) := by
  cases e with
  | none => exact absurd (by rw [Defined_opt]; trivial) hdefined
  | some exp =>
    rw [over_opt] at h
    rw [Defined_opt] at hdefined
    rw [build_opt]
    exact (exp.build_faults h hdefined).bind _

theorem build_exprs_faults (exps : List Expression) {s : Descs} {st : State} {held : List TypeDesc}
    {nodes : List Nat} (h : Holds s₀ st s (over_exprs extstbl exps ++ held) nodes)
    (hdefined : ¬ Defined_exprs extstbl exps) : Faults (build_exprs extstbl exps st) := by
  cases exps with
  | nil => exact absurd (by rw [Defined_exprs]; trivial) hdefined
  | cons exp exps =>
    rw [over_exprs, List.append_assoc] at h
    rw [Defined_exprs] at hdefined
    rw [build_exprs]
    by_cases hexp : exp.Defined extstbl
    · obtain ⟨exp', st₁, s₁, hrun₁, -, h₁, -⟩ := exp.build_holds h hexp
      rw [hrun₁, ok_bind]
      exact (build_exprs_faults exps (h₁.perm (List.perm_append_comm_assoc _ _ _) (.refl _))
        fun hexps => hdefined ⟨hexp, hexps⟩).bind _
    · exact (exp.build_faults h hexp).bind _

theorem ArrayInit.build_faults (init : ArrayInit) {s : Descs} {st : State} {held : List TypeDesc}
    {nodes : List Nat} (h : Holds s₀ st s (init.over extstbl ++ held) nodes)
    (hdefined : ¬ init.Defined extstbl) : Faults (init.build extstbl st) := by
  cases init with
  | mk pos vec =>
    rw [ArrayInit.over] at h
    rw [ArrayInit.Defined] at hdefined
    rw [ArrayInit.build]
    exact (build_exprs_faults vec h hdefined).bind _

theorem build_array_init_faults (init : Option ArrayInit) {s : Descs} {st : State}
    {held : List TypeDesc} {nodes : List Nat}
    (h : Holds s₀ st s (over_array_init extstbl init ++ held) nodes)
    (hdefined : ¬ Defined_array_init extstbl init) :
    Faults (build_array_init extstbl init st) := by
  cases init with
  | none => exact absurd (by rw [Defined_array_init]; trivial) hdefined
  | some init =>
    rw [over_array_init] at h
    rw [Defined_array_init] at hdefined
    rw [build_array_init]
    exact (init.build_faults h hdefined).bind _

theorem MapInit.build_faults (init : MapInit) {s : Descs} {st : State} {held : List TypeDesc}
    {nodes : List Nat} (h : Holds s₀ st s (init.over extstbl ++ held) nodes)
    (hdefined : ¬ init.Defined extstbl) : Faults (init.build extstbl st) := by
  cases init with
  | mk pos vec =>
    rw [MapInit.over] at h
    rw [MapInit.Defined] at hdefined
    rw [MapInit.build]
    exact (build_entries_faults vec h hdefined).bind _

theorem build_map_init_faults (init : Option MapInit) {s : Descs} {st : State}
    {held : List TypeDesc} {nodes : List Nat}
    (h : Holds s₀ st s (over_map_init extstbl init ++ held) nodes)
    (hdefined : ¬ Defined_map_init extstbl init) : Faults (build_map_init extstbl init st) := by
  cases init with
  | none => exact absurd (by rw [Defined_map_init]; trivial) hdefined
  | some init =>
    rw [over_map_init] at h
    rw [Defined_map_init] at hdefined
    rw [build_map_init]
    exact (init.build_faults h hdefined).bind _

theorem MapKeyValue.build_faults (entry : MapKeyValue) {s : Descs} {st : State}
    {held : List TypeDesc} {nodes : List Nat}
    (h : Holds s₀ st s (entry.over extstbl ++ held) nodes) (hdefined : ¬ entry.Defined extstbl) :
    Faults (entry.build extstbl st) := by
  cases entry with
  | mk pos key val =>
    rw [MapKeyValue.over, List.append_assoc] at h
    rw [MapKeyValue.Defined] at hdefined
    rw [MapKeyValue.build]
    by_cases hkey : key.Defined extstbl
    · obtain ⟨key', st₁, s₁, hrun₁, -, h₁, -⟩ := key.build_holds h hkey
      rw [hrun₁, ok_bind]
      exact (val.build_faults (h₁.perm (List.perm_append_comm_assoc _ _ _) (.refl _))
        fun hval => hdefined ⟨hkey, hval⟩).bind _
    · exact (key.build_faults h hkey).bind _

theorem build_entries_faults (entries : List MapKeyValue) {s : Descs} {st : State}
    {held : List TypeDesc} {nodes : List Nat}
    (h : Holds s₀ st s (over_entries extstbl entries ++ held) nodes)
    (hdefined : ¬ Defined_entries extstbl entries) :
    Faults (build_entries extstbl entries st) := by
  cases entries with
  | nil => exact absurd (by rw [Defined_entries]; trivial) hdefined
  | cons entry entries =>
    rw [over_entries, List.append_assoc] at h
    rw [Defined_entries] at hdefined
    rw [build_entries]
    by_cases hentry : entry.Defined extstbl
    · obtain ⟨entry', st₁, s₁, hrun₁, -, h₁, -⟩ := entry.build_holds h hentry
      rw [hrun₁, ok_bind]
      exact (build_entries_faults entries (h₁.perm (List.perm_append_comm_assoc _ _ _) (.refl _))
        fun hentries => hdefined ⟨hentry, hentries⟩).bind _
    · exact (entry.build_faults h hentry).bind _

theorem Statement.build_faults (stmt : Statement) {s : Descs} {st : State} {held : List TypeDesc}
    {nodes : List Nat} (h : Holds s₀ st s (stmt.over extstbl ++ held) nodes)
    (hdefined : ¬ stmt.Defined extstbl) : Faults (stmt.build extstbl st) := by
  cases stmt with
  | EMPTY => exact absurd (by rw [Statement.Defined]; trivial) hdefined
  | ExprStatement exp =>
    rw [Statement.over] at h
    rw [Statement.Defined] at hdefined
    rw [Statement.build]
    exact (exp.build_faults h hdefined).bind _
  | VariableDeclaration ids type exps =>
    rw [Statement.over] at h
    rw [Statement.Defined] at hdefined
    rw [Statement.build]
    by_cases htype : TypeDefined extstbl type
    · obtain ⟨st₁, s₁, hrun₁, h₁, -⟩ := build_type_holds type h htype
      rw [hrun₁, ok_bind]
      exact (build_exprs_faults exps h₁ fun hexps => hdefined ⟨htype, hexps⟩).bind _
    · exact (build_type_faults type h htype).bind _
  | VariableDeclarationTypeless ids exps =>
    rw [Statement.over, List.append_assoc] at h
    rw [Statement.Defined] at hdefined
    rw [Statement.build]
    by_cases hids : Defined_exprs extstbl ids
    · obtain ⟨ids', st₁, s₁, hrun₁, hmap₁, h₁, -⟩ := build_exprs_holds ids h hids
      have h₁' := h₁.perm (List.perm_append_comm_assoc _ _ _) (.refl _)
      rw [hrun₁, ok_bind]
      by_cases hexps : Defined_exprs extstbl exps
      · obtain ⟨exps', st₂, s₂, hrun₂, hmap₂, h₂, -⟩ := build_exprs_holds exps h₁' hexps
        dsimp only
        rw [hrun₂, ok_bind]
        have howned := h₂.owned.subperm (List.perm_append_comm_assoc _ _ _).subperm
        rw [← List.append_assoc] at howned
        refine typeless_faults howned.left fun hgood => hdefined ⟨hids, hexps, ?_⟩
        rw [← nil_iff_of_length (length_of_map hmap₁), ← nil_iff_of_length (length_of_map hmap₂),
          ← length_of_map hmap₁, ← length_of_map hmap₂]
        exact ⟨hgood.1, fun hsame => all_of_map hmap₁.symm (hgood.2 hsame)⟩
      · exact (build_exprs_faults exps h₁' hexps).bind _
    · exact (build_exprs_faults ids h hids).bind _
  | Assignment left right =>
    rw [Statement.over, List.append_assoc] at h
    rw [Statement.Defined] at hdefined
    rw [Statement.build]
    by_cases hleft : Defined_exprs extstbl left
    · obtain ⟨left', st₁, s₁, hrun₁, hmap₁, h₁, -⟩ := build_exprs_holds left h hleft
      have h₁' := h₁.perm (List.perm_append_comm_assoc _ _ _) (.refl _)
      rw [hrun₁, ok_bind]
      by_cases hright : Defined_exprs extstbl right
      · obtain ⟨right', st₂, s₂, hrun₂, hmap₂, h₂, -⟩ := build_exprs_holds right h₁' hright
        dsimp only
        rw [hrun₂, ok_bind]
        refine assign_faults fun hgood => hdefined ⟨hleft, hright, ?_⟩
        rw [← nil_iff_of_length (length_of_map hmap₁), ← nil_iff_of_length (length_of_map hmap₂)]
        exact hgood
      · exact (build_exprs_faults right h₁' hright).bind _
    · exact (build_exprs_faults left h hleft).bind _
  | CompAssignment pos op left right =>
    rw [Statement.over, List.append_assoc] at h
    rw [Statement.Defined] at hdefined
    rw [Statement.build]
    by_cases hleft : left.Defined extstbl
    · obtain ⟨left', st₁, s₁, hrun₁, -, h₁, -⟩ := left.build_holds h hleft
      rw [hrun₁, ok_bind]
      exact (right.build_faults (h₁.perm (List.perm_append_comm_assoc _ _ _) (.refl _))
        fun hright => hdefined ⟨hleft, hright⟩).bind _
    · exact (left.build_faults h hleft).bind _
  | ReturnStatement pos exps =>
    rw [Statement.over] at h
    rw [Statement.Defined] at hdefined
    rw [Statement.build]
    exact (build_exprs_faults exps h hdefined).bind _
  | Block stmts =>
    rw [Statement.over] at h
    rw [Statement.Defined] at hdefined
    rw [Statement.build]
    exact (build_stmts_faults stmts h hdefined).bind _

theorem build_stmts_faults (stmts : List Statement) {s : Descs} {st : State} {held : List TypeDesc}
    {nodes : List Nat} (h : Holds s₀ st s (over_stmts extstbl stmts ++ held) nodes)
    (hdefined : ¬ Defined_stmts extstbl stmts) : Faults (build_stmts extstbl stmts st) := by
  cases stmts with
  | nil => exact absurd (by rw [Defined_stmts]; trivial) hdefined
  | cons stmt stmts =>
    rw [over_stmts, List.append_assoc] at h
    rw [Defined_stmts] at hdefined
    rw [build_stmts]
    by_cases hstmt : stmt.Defined extstbl
    · obtain ⟨stmt', st₁, s₁, hrun₁, h₁, -⟩ := stmt.build_holds h hstmt
      rw [hrun₁, ok_bind]
      exact (build_stmts_faults stmts (h₁.perm (List.perm_append_comm_assoc _ _ _) (.refl _))
        fun hstmts => hdefined ⟨hstmt, hstmts⟩).bind _
    · exact (stmt.build_faults h hstmt).bind _

end

section modules

variable {s : Descs} {st : State} {held : List TypeDesc} {nodes : List Nat}

/-- The types and the body of a function. -/
theorem build_func_faults {α : Type} (args rets : IDTypes) (body : List Statement)
    (h : Holds s₀ st s (over_stmts extstbl body ++ held) nodes)
    (hdefined : ¬ (args.Defined extstbl ∧ rets.Defined extstbl ∧ Defined_stmts extstbl body))
    (f : List IdType → List IdType → List Stmt × State → Res α) :
    Faults (args.build extstbl st >>= fun p => rets.build extstbl p.2 >>= fun q =>
      build_stmts extstbl body q.2 >>= f p.1 q.1) := by
  by_cases hargs : args.Defined extstbl
  · obtain ⟨args', st₁, s₁, hrun₁, -, h₁, -⟩ := args.build_holds h hargs
    rw [hrun₁, ok_bind]
    by_cases hrets : rets.Defined extstbl
    · obtain ⟨rets', st₂, s₂, hrun₂, -, h₂, -⟩ := rets.build_holds h₁ hrets
      have hperm : (IdType.drops rets' ++ (IdType.drops args' ++
          (over_stmts extstbl body ++ held))).Perm
            (over_stmts extstbl body ++ (IdType.drops rets' ++ (IdType.drops args' ++ held))) := by
        refine List.perm_iff_count.mpr fun t => ?_
        simp only [List.count_append]
        omega
      dsimp only
      rw [hrun₂, ok_bind]
      exact (build_stmts_faults body (h₂.perm hperm (.refl _))
        fun hbody => hdefined ⟨hargs, hrets, hbody⟩).bind _
    · exact (rets.build_faults h₁ hrets).bind _
  · exact (args.build_faults h hargs).bind _

theorem build_types_faults {α : Type} (args rets : IDTypes) (h : Holds s₀ st s held nodes)
    (hdefined : ¬ (args.Defined extstbl ∧ rets.Defined extstbl))
    (f : List IdType → List IdType × State → Res α) :
    Faults (args.build extstbl st >>= fun p => rets.build extstbl p.2 >>= f p.1) := by
  by_cases hargs : args.Defined extstbl
  · obtain ⟨args', st₁, s₁, hrun₁, -, h₁, -⟩ := args.build_holds h hargs
    rw [hrun₁, ok_bind]
    exact (rets.build_faults h₁ fun hrets => hdefined ⟨hargs, hrets⟩).bind _
  · exact (args.build_faults h hargs).bind _

theorem Member.build_faults (member : Member)
    (h : Holds s₀ st s (member.over extstbl ++ held) nodes) (hdefined : ¬ member.Defined extstbl) :
    Faults (member.build extstbl st) := by
  cases member with
  | EMPTY => exact absurd trivial hdefined
  | FieldDeclaration id type exp =>
    rw [Member.over, List.append_assoc] at h
    rw [Member.build]
    by_cases htype : TypeDefined extstbl type
    · obtain ⟨st₁, s₁, hrun₁, h₁, -⟩ := build_type_holds type h htype
      rw [hrun₁, ok_bind]
      exact (build_opt_faults exp (h₁.perm (List.perm_append_comm_assoc _ _ _) (.refl _))
        fun hexp => hdefined ⟨htype, hexp⟩).bind _
    · exact (build_type_faults type h htype).bind _
  | FunctionDeclaration id args rets body =>
    rw [Member.build]
    exact build_func_faults args rets body h hdefined fun args rets p =>
      let q := Stmt_From_FuncDecl id args rets p.1 p.2
      .ok (some q.1, q.2)
  | ProtoDeclaration native id args rets =>
    rw [Member.build]
    exact build_types_faults args rets h hdefined fun args p =>
      let q := Stmt_From_ProtoDecl native id args p.1 p.2
      .ok (some q.1, q.2)

theorem build_members_faults (members : List Member)
    (h : Holds s₀ st s (over_members extstbl members ++ held) nodes)
    (hdefined : ¬ ∀ member ∈ members, member.Defined extstbl) :
    Faults (build_members extstbl members st) := by
  induction members generalizing st s held nodes with
  | nil => exact absurd (List.forall_mem_nil _) hdefined
  | cons member members ih =>
    rw [over_members, List.flatMap_cons, List.append_assoc] at h
    rw [List.forall_mem_cons] at hdefined
    rw [build_members]
    by_cases hmember : member.Defined extstbl
    · obtain ⟨stmt, st₁, s₁, hrun₁, h₁, -⟩ := member.build_holds h hmember
      rw [hrun₁, ok_bind]
      exact (ih (h₁.perm (List.perm_append_comm_assoc _ _ _) (.refl _))
        fun hmembers => hdefined ⟨hmember, hmembers⟩).bind _
    · exact (member.build_faults h hmember).bind _

theorem ModuleStatement.build_faults (stmt : ModuleStatement)
    (h : Holds s₀ st s (stmt.over extstbl ++ held) nodes) (hdefined : ¬ stmt.Defined extstbl) :
    Faults (stmt.build extstbl st) := by
  cases stmt with
  | EMPTY => exact absurd trivial hdefined
  | VariableDeclaration ids type exps | ConstDeclaration ids type exps =>
    rw [ModuleStatement.build]
    by_cases htype : TypeDefined extstbl type
    · obtain ⟨st₁, s₁, hrun₁, h₁, -⟩ := build_type_holds type h htype
      rw [hrun₁, ok_bind]
      exact (build_exprs_faults exps h₁ fun hexps => hdefined ⟨htype, hexps⟩).bind _
    · exact (build_type_faults type h htype).bind _
  | FunctionDeclaration id args rets body =>
    rw [ModuleStatement.build]
    exact build_func_faults args rets body h hdefined fun args rets p =>
      let q := Stmt_From_FuncDecl id args rets p.1 p.2
      .ok ([q.1], q.2)
  | ProtoDeclaration id args rets =>
    rw [ModuleStatement.build]
    exact build_types_faults args rets h hdefined fun args p =>
      let q := Stmt_From_ProtoDecl true id args p.1 p.2
      .ok ([q.1], q.2)
  | TypeDeclaration trait id super body =>
    rw [ModuleStatement.over, List.append_assoc] at h
    obtain ⟨descs, st₁, s₁, hrun₁, hdescs, h₁, -⟩ := build_super_holds super h
    rw [ModuleStatement.build, hrun₁]
    exact (build_members_faults body (h₁.perm (List.perm_append_comm_assoc _ _ _) (.refl _))
      hdefined).bind _

/-- A module that is not defined is not built. -/
theorem build_module_faults (stmts : List ModuleStatement)
    (h : Holds s₀ st s (over_module extstbl stmts ++ held) nodes)
    (hdefined : ¬ Defined_module extstbl stmts) : Faults (build_module extstbl stmts st) := by
  induction stmts generalizing st s held nodes with
  | nil => exact absurd (List.forall_mem_nil _) hdefined
  | cons stmt stmts ih =>
    rw [over_module, List.flatMap_cons, List.append_assoc] at h
    rw [Defined_module, List.forall_mem_cons] at hdefined
    rw [build_module]
    by_cases hstmt : stmt.Defined extstbl
    · obtain ⟨vec, st₁, s₁, hrun₁, -, h₁, -⟩ := stmt.build_holds h hstmt
      rw [hrun₁, ok_bind]
      exact (ih (h₁.perm (List.perm_append_comm_assoc _ _ _) (.refl _))
        fun hstmts => hdefined ⟨hstmt, hstmts⟩).bind _
    · exact (stmt.build_faults h hstmt).bind _

end modules

end grammar

end koala.ast
