import Koala.Parser.Running

open koala.typedesc

namespace koala.parser

set_option linter.style.nameCheck false

/-- Expressions over literals, names, sums and differences, and calls of names. -/
inductive Covered : Expr → Prop
  | CONST (value : ConstValue) (pos : Position) : Covered (.CONST value pos)
  | ID (name : CString) (pos : Position) : Covered (.ID name pos)
  | BINARY {op : BinaryOpKind} {lexp rexp : Expr} (pos : Position)
    (hop : op = .BINARY_ADD ∨ op = .BINARY_SUB) (hleft : Covered lexp) (hright : Covered rexp) :
    Covered (.BINARY op lexp rexp pos)
  | CALL {args : List Expr} (name : CString) (ipos pos : Position)
    (hargs : ∀ e ∈ args, Covered e) : Covered (.CALL args (.ID name ipos) pos)

mutual

/-- The identifiers of an expression, at their positions. -/
def Expr.idents : Expr → List Ident
  | .HEAD .. => []
  | .CONST .. => []
  | .ID name pos => [⟨name, pos⟩]
  | .UNARY _ exp _ => exp.idents
  | .BINARY _ lexp rexp _ => lexp.idents ++ rexp.idents
  | .ATTRIBUTE _ left _ => left.idents
  | .CALL args left _ => Expr.identsAll args ++ left.idents

def Expr.identsAll : List Expr → List Ident
  | [] => []
  | e :: exps => e.idents ++ Expr.identsAll exps

end

section conditions

/-- A name that is found, with a type. -/
def Typed (ps : ParserState) (name : CString) : Prop :=
  ∃ sym w, resolve ps name = some (sym, w) ∧ sym.desc.isSome = true

/-- Every value that is compared with a type is compared with one that is
there: behind the types comes no value, unless a value before it is of another
type. A `varg` comes last. -/
def Compared : List TypeDesc → List ExprInfo → Prop
  | _, [] => True
  | [], _ :: _ => False
  | desc :: descs, e :: exps =>
    match desc with
    | .varg _ => descs = []
    | _ => TypeDesc_Equal (some desc) e.desc = true → Compared descs exps

/-- Too few values are an error. -/
def FitsTypes (descs : List TypeDesc) (exps : List ExprInfo) : Prop :=
  descs.length ≤ exps.length → Compared descs exps

/-- A function type whose parameters fit the arguments. -/
def TakesArgs (desc : Option TypeDesc) (args : List ExprInfo) : Prop :=
  ∃ arg ret, desc = some (.proto arg ret) ∧ FitsTypes arg args

/-- A symbol that can be called: a class without `__init__` only with
arguments, which are an error. -/
def Symbol.Takes (sym : Symbol) (args : List ExprInfo) : Prop :=
  match sym.data with
  | .SYM_CLASS stbl =>
    match STable_Get stbl name__init__ with
    | none => args ≠ []
    | some init => TakesArgs init.desc args
  | _ => TakesArgs sym.desc args

/-- The name that is called, if it is found, can be called. -/
def Calls (left : Expr) (args : List ExprInfo) (ps : ParserState) : Prop :=
  ∀ name pos sym w, left = .ID name pos → resolve ps name = some (sym, w) → sym.Takes args

/-- Two constants of the type `desc` of which the right one has a saved value,
that of an integer if it is subtracted. -/
def Folds (op : BinaryOpKind) (desc : Option TypeDesc) (rval : Option ConstValue) : Prop :=
  ∃ base, desc = some (.base base) ∧ (base ≠ .BASE_ERROR → base ≠ .BASE_ANY →
    ∃ val, rval = some val ∧ (op = .BINARY_SUB → val.kind = .BASE_INT))

/-- If both operands are constants, they can be folded. -/
def Constants (op : BinaryOpKind) (lexp rexp : Expr) (li ri : ExprInfo) : Prop :=
  Expr_Is_Const lexp li = true → Expr_Is_Const rexp ri = true →
    ∀ rval, __get_constvalue rexp ri = .ok rval → Folds op (lexp.desc.or li.desc) rval

variable [Arith]

mutual

/-- What an expression meets in the state it is parsed in; `need` says whether
it has to have a type. Behind more than `MAX_ERRORS` errors nothing is parsed. -/
def Meets : Bool → Expr → ParserState → Prop
  | need, .ID name _, ps => need = true → ps.errnum ≤ MAX_ERRORS ∧ Typed ps name
  | need, .BINARY op lexp rexp _, ps =>
    if ps.errnum ≤ MAX_ERRORS then
      Meets true lexp ps ∧ ∀ li ps₁, Parse_Expression lexp ps = .ok (li, ps₁) →
        Meets true rexp ps₁ ∧ ∀ ri ps₂, Parse_Expression rexp ps₁ = .ok (ri, ps₂) →
          Constants op lexp rexp li ri
    else need = true → lexp.desc.isSome = true
  | need, .CALL args left _, ps =>
    if ps.errnum ≤ MAX_ERRORS then
      AllMeet args ps ∧ ∀ infos ps₁, Parse_Arguments args ps = .ok (infos, ps₁) →
        Meets need left ps₁ ∧ (ps₁.errnum ≤ MAX_ERRORS → Calls left infos ps₁)
    else need = false
  | _, _, _ => True

/-- The last argument is parsed first. -/
def AllMeet : List Expr → ParserState → Prop
  | [], _ => True
  | e :: args, ps =>
    AllMeet args ps ∧ ∀ infos ps₁, Parse_Arguments args ps = .ok (infos, ps₁) → Meets false e ps₁

end

end conditions

section finishes

variable {α : Type} {x : Res α}

theorem finishes_assert_iff {p : Prop} [Decidable p] :
    Finishes (assert p >>= fun _ => x) ↔ p ∧ Finishes x := by
  rw [finishes_bind_iff]
  exact ⟨fun ⟨_, hp, hx⟩ => ⟨assert_eq_ok_iff.mp hp, hx⟩,
    fun ⟨hp, hx⟩ => ⟨(), assert_eq_ok_iff.mpr hp, hx⟩⟩

theorem finishes_deref_iff {β : Type} {o : Option β} {f : β → Res α} :
    Finishes (deref o >>= f) ↔ ∃ b, o = some b ∧ Finishes (f b) := by
  rw [finishes_bind_iff]
  exact exists_congr fun b => and_congr_left fun _ => deref_eq_ok_iff

theorem toProto_eq_ok_iff {desc : TypeDesc} {proto : ProtoDesc} :
    toProto desc = .ok proto ↔ desc = .proto proto.arg proto.ret := by
  unfold toProto
  rw [assert_bind_ok_iff]
  constructor
  · rintro ⟨-, h⟩
    cases desc with
    | proto arg ret =>
      cases h
      rfl
    | _ => cases h
  · rintro rfl
    exact ⟨rfl, rfl⟩

/-- Once a `varg` is met, all values are compared with its type. -/
theorem check_exprs_varg {descs : List TypeDesc} {base : TypeDesc} (i : Nat)
    (exps : List ExprInfo) : Finishes (check_exprs descs i (some base) exps) := by
  induction exps generalizing i with
  | nil => exact .ok true
  | cons e exps ih => exact Finishes.ite (fun _ => ih (i + 1)) fun _ => .ok false

theorem check_exprs_finishes_iff {descs : List TypeDesc} (i : Nat) (exps : List ExprInfo) :
    Finishes (check_exprs descs i none exps) ↔ Compared (descs.drop i) exps := by
  induction exps generalizing i with
  | nil =>
    refine iff_of_true (.ok true) ?_
    cases descs.drop i <;> exact trivial
  | cons e exps ih =>
    rw [check_exprs]
    cases hdrop : descs.drop i with
    | nil =>
      rw [List.getElem?_eq_none (List.drop_eq_nil_iff.mp hdrop)]
      exact iff_of_false not_finishes_error id
    | cons desc rest =>
      have hget : descs[i]? = some desc := by
        rw [← List.head?_drop, hdrop]
        rfl
      have hrest : descs.drop (i + 1) = rest := by
        rw [← List.drop_drop, hdrop]
        rfl
      have hlast : i + 1 = descs.length ↔ rest = [] := by
        have hlen := congrArg List.length hdrop
        rw [List.length_drop, List.length_cons] at hlen
        rw [← List.length_eq_zero_iff]
        omega
      have hequal : Finishes (if TypeDesc_Equal (some desc) e.desc then
            check_exprs descs (i + 1) none exps else .ok false) ↔
          (TypeDesc_Equal (some desc) e.desc = true → Compared rest exps) := by
        rw [← hrest, ← ih (i + 1)]
        split
        · next h => exact ⟨fun hcheck _ => hcheck, fun hcheck => hcheck h⟩
        · next h => exact iff_of_true (.ok false) fun heq => absurd heq h
      rw [hget, deref_eq_ok_iff.mpr rfl, ok_bind]
      cases desc with
      | varg base =>
        refine finishes_assert_iff.trans ?_
        rw [hlast]
        exact and_iff_left (.ite (fun _ => check_exprs_varg (i + 1) exps) fun _ => .ok false)
      | _ => exact hequal

theorem __check_expr_types_finishes_iff {descs : List TypeDesc} {exps : List ExprInfo} :
    Finishes (__check_expr_types descs exps) ↔ FitsTypes descs exps := by
  unfold __check_expr_types FitsTypes
  split
  · exact iff_of_true (.ok false) fun h => by omega
  · rw [check_exprs_finishes_iff, List.drop_zero]
    exact ⟨fun h _ => h, fun h => h (by omega)⟩

/-- The arguments of a call are compared with the parameters of a type. -/
theorem takesArgs_iff {desc : Option TypeDesc} {args : List ExprInfo} {f : Bool → α} :
    Finishes (do
      let desc ← deref desc
      let proto ← toProto desc
      let matched ← __check_expr_types proto.arg args
      .ok (f matched)) ↔ TakesArgs desc args := by
  rw [finishes_deref_iff]
  constructor
  · rintro ⟨d, rfl, h⟩
    obtain ⟨proto, hproto, h⟩ := finishes_bind_iff.mp h
    obtain ⟨matched, hmatched, -⟩ := finishes_bind_iff.mp h
    rw [toProto_eq_ok_iff] at hproto
    exact ⟨proto.arg, proto.ret, congrArg some hproto,
      __check_expr_types_finishes_iff.mp ⟨matched, hmatched⟩⟩
  · rintro ⟨arg, ret, rfl, hfits⟩
    refine ⟨_, rfl, Finishes.bind ⟨⟨arg, ret⟩, rfl⟩ fun proto hproto => ?_⟩
    cases hproto
    exact (__check_expr_types_finishes_iff.mpr hfits).bind fun _ _ => .ok _

theorem check_call_finishes_iff {args : List ExprInfo} {left : Expr} {li : ExprInfo}
    {ps : ParserState} (hdesc : ∀ sym, li.sym = some sym → li.desc = sym.desc) :
    Finishes (check_call args left li ps) ↔ ∀ sym, li.sym = some sym → sym.Takes args := by
  unfold check_call
  cases hsym : li.sym with
  | none => exact iff_of_true (.ok _) fun _ h => nomatch h
  | some sym =>
    have hall : (∀ sym', some sym = some sym' → sym'.Takes args) ↔ sym.Takes args :=
      ⟨fun h => h sym rfl, fun h sym' heq => Option.some.inj heq ▸ h⟩
    rw [hall, hdesc sym hsym]
    obtain ⟨name, desc, file, pos, data⟩ := sym
    cases data with
    | SYM_CLASS stbl =>
      unfold Symbol.Takes
      dsimp only
      cases STable_Get stbl name__init__ with
      | none =>
        dsimp only
        cases args with
        | nil => exact iff_of_false not_finishes_error fun h => h rfl
        | cons e args => exact iff_of_true (.ok _) (List.cons_ne_nil e args)
      | some init => exact takesArgs_iff
    | _ => exact takesArgs_iff

end finishes

section folding

theorem get_constvalue_finishes {exp : Expr} {info : ExprInfo}
    (h : Expr_Is_Const exp info = true) : Finishes (__get_constvalue exp info) := by
  cases exp with
  | CONST value pos => exact .ok _
  | UNARY op exp pos => exact .ok _
  | BINARY op lexp rexp pos => exact .ok _
  | ID name pos =>
    rw [Expr_Is_Const] at h
    cases hsym : info.sym with
    | none =>
      rw [hsym] at h
      cases h
    | some sym =>
      rw [hsym, Option.any_some, decide_eq_true_eq] at h
      rw [__get_constvalue, hsym]
      refine finishes_deref_iff.mpr ⟨sym, rfl, finishes_assert_iff.mpr ⟨h, ?_⟩⟩
      obtain ⟨name, desc, file, pos, data⟩ := sym
      cases data with
      | SYM_CONST index value => exact .ok value
      | _ => cases h
  | _ => cases h

variable [Arith] {op : BinaryOpKind} {ps : ParserState}

theorem optimize_finishes_iff (hop : op = .BINARY_ADD ∨ op = .BINARY_SUB)
    {desc : Option TypeDesc} {lval rval : Option ConstValue} {pos : Position} :
    Finishes (__optimize_binary_expr op desc lval rval pos ps) ↔ Folds op desc rval := by
  have hadd : Finishes (__optimize_int_add lval rval pos ps) ↔ rval.isSome = true := by
    unfold __optimize_int_add
    cases rval with
    | none => exact iff_of_false not_finishes_error (by decide)
    | some v =>
      refine iff_of_true ?_ rfl
      cases v with
      | BASE_STRING str =>
        dsimp only
        split <;> exact .ok _
      | _ => exact .ok _
  have hsub : Finishes (__optimize_int_sub lval rval ps) ↔
      ∃ v, rval = some v ∧ v.kind = .BASE_INT := by
    unfold __optimize_int_sub
    cases rval with
    | none => exact iff_of_false not_finishes_error (by simp)
    | some v =>
      cases v with
      | BASE_INT v => exact iff_of_true (.ok _) ⟨_, rfl, rfl⟩
      | _ => exact iff_of_false not_finishes_error (by simp [ConstValue.kind])
  have hint : ∀ base, base ≠ .BASE_ERROR → base ≠ .BASE_ANY →
      (Finishes (__optimize_binary_expr op (some (.base base)) lval rval pos ps) ↔
        ∃ val, rval = some val ∧ (op = .BINARY_SUB → val.kind = .BASE_INT)) := by
    intro base herror hany
    rcases hop with rfl | rfl
    · have hsame : __optimize_binary_expr .BINARY_ADD (some (.base base)) lval rval pos ps =
          __optimize_int_add lval rval pos ps := by
        cases base <;> first | rfl | exact absurd rfl herror | exact absurd rfl hany
      rw [hsame]
      refine hadd.trans (Option.isSome_iff_exists.trans (exists_congr fun val => ?_))
      exact (and_iff_left (by simp)).symm
    · have hsame : __optimize_binary_expr .BINARY_SUB (some (.base base)) lval rval pos ps =
          __optimize_int_sub lval rval ps := by
        cases base <;> first | rfl | exact absurd rfl herror | exact absurd rfl hany
      rw [hsame]
      refine hsub.trans (exists_congr fun val => and_congr_right fun _ => ?_)
      exact ⟨fun h _ => h, fun h => h rfl⟩
  unfold Folds
  constructor
  · intro hfinishes
    obtain ⟨desc, rfl, h⟩ := finishes_deref_iff.mp hfinishes
    cases desc with
    | base base => exact ⟨base, rfl, fun herror hany => (hint base herror hany).mp hfinishes⟩
    | _ => exact absurd h not_finishes_error
  · rintro ⟨base, rfl, h⟩
    cases base with
    | BASE_ERROR => exact .ok _
    | BASE_ANY => exact .ok _
    | _ => exact (hint _ (by simp) (by simp)).mpr (h (by simp) (by simp))

/-- Two operands that have types are parsed. -/
theorem parse_binary_finishes_iff (hop : op = .BINARY_ADD ∨ op = .BINARY_SUB)
    {lexp rexp : Expr} {li ri : ExprInfo} :
    Finishes (parse_binary op lexp.desc lexp rexp li ri ps) ↔
      ri.desc.isSome = true ∧ Constants op lexp rexp li ri := by
  unfold parse_binary Constants
  rw [finishes_assert_iff]
  refine and_congr_right fun _ => ?_
  dsimp only
  cases hleft : Expr_Is_Const lexp li with
  | false => exact iff_of_true (.ok _) fun h => nomatch h
  | true =>
    cases hright : Expr_Is_Const rexp ri with
    | false => exact iff_of_true (.ok _) fun _ h => nomatch h
    | true =>
      obtain ⟨lval, hlval⟩ := get_constvalue_finishes hleft
      obtain ⟨rval, hrval⟩ := get_constvalue_finishes hright
      rw [hlval, hrval]
      have hfolds : Finishes (__optimize_binary_expr op (lexp.desc.or li.desc) lval rval rexp.pos ps
          >>= fun r => .ok ((⟨lexp.desc.or li.desc, none, r.1, none⟩ : ExprInfo), r.2)) ↔
          Folds op (lexp.desc.or li.desc) rval := by
        rw [← optimize_finishes_iff hop, finishes_bind_iff]
        exact ⟨fun ⟨r, hr, _⟩ => ⟨r, hr⟩, fun ⟨r, hr⟩ => ⟨r, hr, .ok _⟩⟩
      refine hfolds.trans ⟨fun h _ _ rval' heq => ?_, fun h => h rfl rfl rval rfl⟩
      cases heq
      exact h

end folding

end koala.parser
