import Koala.Post
import Koala.Parser.Table
import Koala.Parser.Variable

open koala.typedesc

namespace koala.parser

set_option linter.style.nameCheck false

section append

def CodeBlock.append (b : CodeBlock) (insts : List Inst) : CodeBlock :=
  { b with insts := b.insts ++ insts }

def ParserUnit.append (u : ParserUnit) (insts : List Inst) : ParserUnit :=
  { u with block := u.block.map fun b => b.append insts }

/-- Code goes to the current unit and errors are reported, and nothing else
changes. -/
def ParserState.append (ps : ParserState) (insts : List Inst) (es : List SyntaxError) :
    ParserState :=
  { ps with u := ps.u.map fun u => u.append insts, errors := ps.errors ++ es }

theorem errors_of_eq {es es' : List SyntaxError} (h : es' = es) : es <+: es' :=
  h ▸ List.prefix_rfl

@[simp] theorem CodeBlock.append_nil (b : CodeBlock) : b.append [] = b := by
  unfold CodeBlock.append
  rw [List.append_nil]

@[simp] theorem CodeBlock.append_append (b : CodeBlock) (insts insts' : List Inst) :
    (b.append insts).append insts' = b.append (insts ++ insts') := by
  unfold CodeBlock.append
  rw [List.append_assoc]

@[simp] theorem ParserUnit.append_nil (u : ParserUnit) : u.append [] = u := by
  cases u with
  | mk scope sym stbl block jmps => cases block <;> simp [ParserUnit.append]

@[simp] theorem ParserUnit.append_append (u : ParserUnit) (insts insts' : List Inst) :
    (u.append insts).append insts' = u.append (insts ++ insts') := by
  cases u with
  | mk scope sym stbl block jmps => cases block <;> simp [ParserUnit.append]

@[simp] theorem ParserState.append_nil (ps : ParserState) : ps.append [] [] = ps := by
  cases ps with
  | mk _ _ _ _ _ _ _ u => cases u <;> simp [ParserState.append]

@[simp] theorem ParserState.append_append (ps : ParserState) (insts insts' : List Inst)
    (es es' : List SyntaxError) :
    (ps.append insts es).append insts' es' = ps.append (insts ++ insts') (es ++ es') := by
  cases ps with
  | mk _ _ _ _ _ _ _ u => cases u <;> simp [ParserState.append]

end append

/-- Only errors are reported. -/
def Reported (ps ps' : ParserState) : Prop := ∃ es, ps' = ps.append [] es

/-- Errors are reported, and the current unit gets code without a `RETURN`. -/
def Coded (ps ps' : ParserState) : Prop :=
  ∃ insts es, (∀ i ∈ insts, i.op ≠ .RETURN) ∧ ps' = ps.append insts es

section relations

variable {ps ps₁ ps' : ParserState}

theorem Reported.refl (ps : ParserState) : Reported ps ps := ⟨[], ps.append_nil.symm⟩

theorem Reported.trans (h : Reported ps ps₁) (h' : Reported ps₁ ps') : Reported ps ps' := by
  obtain ⟨es, rfl⟩ := h
  obtain ⟨es', rfl⟩ := h'
  exact ⟨es ++ es', ps.append_append [] [] es es'⟩

theorem Syntax_Error_eq (ps : ParserState) (pos : Position) (msg : Message) :
    Syntax_Error ps pos msg = ps.append [] [⟨pos, msg⟩] := by
  cases ps with
  | mk _ _ _ _ _ _ _ u => cases u <;> simp [ParserState.append, Syntax_Error]

theorem Reported.error (ps : ParserState) (pos : Position) (msg : Message) :
    Reported ps (Syntax_Error ps pos msg) := ⟨_, Syntax_Error_eq ps pos msg⟩

theorem Reported.coded (h : Reported ps ps') : Coded ps ps' := by
  obtain ⟨es, rfl⟩ := h
  exact ⟨[], es, List.forall_mem_nil _, rfl⟩

theorem Coded.refl (ps : ParserState) : Coded ps ps := (Reported.refl ps).coded

theorem Coded.trans (h : Coded ps ps₁) (h' : Coded ps₁ ps') : Coded ps ps' := by
  obtain ⟨insts, es, hinsts, rfl⟩ := h
  obtain ⟨insts', es', hinsts', rfl⟩ := h'
  refine ⟨insts ++ insts', es ++ es', fun i hi => ?_, ps.append_append insts insts' es es'⟩
  exact (List.mem_append.mp hi).elim (hinsts i) (hinsts' i)

theorem emit_append {f : CodeBlock → CodeBlock} {insts : List Inst}
    (hf : ∀ b, f b = b.append insts) (h : ps.emit f = .ok ps') : ps' = ps.append insts [] := by
  obtain ⟨u, hu, h⟩ := bind_eq_ok_iff.mp h
  obtain ⟨b, hb, h⟩ := bind_eq_ok_iff.mp h
  cases h
  rw [deref_eq_ok_iff] at hu hb
  unfold ParserState.append ParserUnit.append
  rw [hu, List.append_nil, Option.map_some, hb, Option.map_some, hf]

end relations

section expressions

variable {ps : ParserState}

theorem Parse_Ident_Expr_reported {name : CString} {pos : Position} :
    Post (fun r => Reported ps r.2) (Parse_Ident_Expr ps name pos) := by
  unfold Parse_Ident_Expr
  refine Post.bind fun u _ => Post.bind fun found _ => ?_
  split
  · exact Post.ok (.refl ps)
  refine Post.bind fun up _ => ?_
  split
  · exact Post.ok (.refl ps)
  split
  · exact Post.ok (.refl ps)
  split
  · exact Post.ok (.refl ps)
  · exact Post.ok (.error ps pos _)

theorem Reported.error_if (matched : Bool) (pos : Position) (msg : Message) :
    Reported ps (if matched then ps else Syntax_Error ps pos msg) := by
  split
  · exact .refl ps
  · exact .error ps pos msg

variable [Build]

theorem check_call_reported {args : List ExprInfo} {left : Expr} {li : ExprInfo} :
    Post (fun r => Reported ps r.2) (check_call args left li ps) := by
  unfold check_call
  split
  · exact Post.ok (.refl ps)
  dsimp only
  split
  · split
    · split
      · exact Post.error
      · exact Post.ok (.error ps _ _)
    · exact Post.bind fun _ _ => Post.bind fun _ _ => Post.bind fun matched _ =>
        Post.ok (.error_if matched _ _)
  · exact Post.bind fun _ _ => Post.bind fun _ _ => Post.bind fun matched _ =>
      Post.ok (.error_if matched _ _)

theorem check_attribute_reported {id : Ident} {left : Expr} {li : ExprInfo} :
    Post (fun r => Reported ps r.2) (check_attribute id left li ps) := by
  unfold check_attribute
  dsimp only
  split
  · exact Post.ok (.refl ps)
  have hresults : ∀ (ret : List TypeDesc) (name : CString), Reported ps
      (if ret.length ≠ 1 then Syntax_Error ps left.pos (.multi_returns name) else ps) := by
    intro ret name
    split
    · exact .error ps _ _
    · exact .refl ps
  split
  · exact Post.bind fun _ _ => Post.bind fun _ _ => Post.ok (.refl ps)
  · exact Post.bind fun _ _ => Post.bind fun _ _ => Post.ok (.refl ps)
  · split
    · refine Post.bind fun desc _ => ?_
      cases desc with
      | proto arg ret => exact Post.ok (hresults ret _)
      | _ => exact Post.error
    · exact Post.ok (.refl ps)
  · split
    · refine Post.bind fun desc _ => ?_
      cases desc with
      | proto arg ret => exact Post.ok (hresults ret _)
      | _ => exact Post.error
    · exact Post.ok (.refl ps)
  · split
    · exact Post.ok (.error ps _ _)
    · exact Post.ok (.refl ps)
  · exact Post.bind fun _ _ => Post.ok (.refl ps)

theorem optimize_int_nothing_reported {rval : Option ConstValue} :
    Post (fun r => Reported ps r.2) (optimize_int_nothing rval ps) :=
  Post.bind fun _ _ => Post.ok (.refl ps)

variable [Arith]

theorem __optimize_int_add_reported {lval rval : Option ConstValue} {pos : Position} :
    Post (fun r => Reported ps r.2) (__optimize_int_add lval rval pos ps) := by
  unfold __optimize_int_add
  split
  · exact Post.ok (.refl ps)
  · exact Post.ok (.refl ps)
  · exact Post.ok (.error ps pos _)
  · split
    · exact Post.ok (.refl ps)
    · exact Post.ok (.error ps pos _)
  · exact Post.ok (.refl ps)
  · exact Post.bind fun _ _ => Post.ok (.refl ps)

theorem __optimize_int_sub_reported {lval rval : Option ConstValue} :
    Post (fun r => Reported ps r.2) (__optimize_int_sub lval rval ps) := by
  unfold __optimize_int_sub
  split
  · exact Post.ok (.refl ps)
  · exact Post.error
  · exact Post.bind fun _ _ => Post.error

theorem __optimize_binary_expr_reported {op : BinaryOpKind} {desc : Option TypeDesc}
    {lval rval : Option ConstValue} {pos : Position} :
    Post (fun r => Reported ps r.2) (__optimize_binary_expr op desc lval rval pos ps) := by
  refine Post.bind fun desc _ => ?_
  split
  · exact Post.ok (.refl ps)
  · exact Post.ok (.refl ps)
  · split
    · exact __optimize_int_add_reported
    · exact __optimize_int_sub_reported
    · exact optimize_int_nothing_reported
    · exact optimize_int_nothing_reported
    · exact Post.bind fun _ _ => Post.error
  · exact Post.error

theorem parse_binary_reported {op : BinaryOpKind} {built : Option TypeDesc} {lexp rexp : Expr}
    {li ri : ExprInfo} :
    Post (fun r => Reported ps r.2) (parse_binary op built lexp rexp li ri ps) := by
  refine Post.bind fun _ _ => ?_
  dsimp only
  split
  · refine Post.bind fun lval _ => Post.bind fun rval _ => Post.bind fun r hr => ?_
    exact Post.ok (__optimize_binary_expr_reported r hr)
  · exact Post.ok (.refl ps)

mutual

/-- Parsing an expression only reports errors. -/
theorem Parse_Expression_reported (exp : Expr) (ps : ParserState) :
    Post (fun r => Reported ps r.2) (Parse_Expression exp ps) := by
  rw [Parse_Expression.eq_def]
  dsimp only
  split
  · exact Post.ok (.refl ps)
  cases exp with
  | HEAD kind pos =>
    split
    all_goals try contradiction
    · exact Post.ok (.refl ps)
    · exact Post.bind fun _ _ => Post.ok (.refl ps)
  | CONST value pos => exact Post.ok (.refl ps)
  | ID name pos => exact Parse_Ident_Expr_reported
  | UNARY op exp pos => exact Post.ok (.refl ps)
  | BINARY op lexp rexp pos =>
    refine Post.bind fun l hl => Post.bind fun _ _ => Post.bind fun r hr => ?_
    have hleft := Parse_Expression_reported lexp ps l hl
    have hright := Parse_Expression_reported rexp l.2 r hr
    exact parse_binary_reported.mono fun _ h => (hleft.trans hright).trans h
  | ATTRIBUTE id left pos =>
    refine Post.bind fun l hl => ?_
    have hleft := Parse_Expression_reported left ps l hl
    exact check_attribute_reported.mono fun _ h => hleft.trans h
  | CALL args left pos =>
    refine Post.bind fun allowed _ => Post.ite (fun _ => ?_) fun _ => Post.ok (.error ps _ _)
    refine Post.bind fun as has => Post.bind fun l hl => ?_
    have hargs := Parse_Arguments_reported args ps as has
    have hleft := Parse_Expression_reported left as.2 l hl
    exact check_call_reported.mono fun _ h => (hargs.trans hleft).trans h

theorem Parse_Arguments_reported (args : List Expr) (ps : ParserState) :
    Post (fun r => Reported ps r.2) (Parse_Arguments args ps) := by
  cases args with
  | nil => exact Post.ok (.refl ps)
  | cons e args =>
    rw [Parse_Arguments]
    refine Post.bind fun as has => Post.bind fun r hr => Post.ok ?_
    have hargs := Parse_Arguments_reported args ps as has
    exact hargs.trans (Parse_Expression_reported e as.2 r hr)

end

end expressions

end koala.parser
