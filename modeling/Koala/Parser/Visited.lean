import Koala.Parser.Checked

open koala.typedesc

namespace koala.parser

set_option linter.style.nameCheck false

section readable

variable {ps ps₁ ps' : ParserState} {name : CString}

/-- A state in which names can be searched for. -/
structure Readable (ps : ParserState) : Prop where
  unit : ∃ u, ps.u = some u
  units : AllOpen ps

theorem InBody.readable {ref : SymRef} {outer : List ParserUnit} {n : Nat}
    (h : InBody ref outer n ps) : Readable ps := by
  obtain ⟨u, hu, -⟩ := h.within.unit
  exact ⟨⟨u, hu⟩, h.units⟩

theorem ParserState.symbol_append (ps : ParserState) (insts insts' : List Inst)
    (es : List SyntaxError) (u : ParserUnit) :
    (ps.append insts es).symbol (u.append insts') name = ps.symbol u name := rfl

/-- Code and errors do not change what a name is. -/
theorem resolve_append (ps : ParserState) (insts : List Inst) (es : List SyntaxError) :
    resolve (ps.append insts es) name = resolve ps name := by
  unfold resolve ParserState.append
  cases ps.u <;> rfl

theorem Coded.resolve (h : Coded ps ps') (name : CString) :
    koala.parser.resolve ps' name = koala.parser.resolve ps name := by
  obtain ⟨insts, es, -, rfl⟩ := h
  exact resolve_append ps insts es

theorem Reported.readable (h : Reported ps ps') (hread : Readable ps) : Readable ps' := by
  obtain ⟨es, rfl⟩ := h
  obtain ⟨u, hu⟩ := hread.unit
  have hu' : (ps.append [] es).u = some u := by
    rw [ParserState.append, hu, Option.map_some, ParserUnit.append_nil]
  exact ⟨⟨u, hu'⟩, hread.units.write hu hu' (.refl u) rfl (.of_pkg rfl)⟩

theorem Coded.errors (h : Coded ps ps') : ps.errors <+: ps'.errors := by
  obtain ⟨insts, es, -, rfl⟩ := h
  exact List.prefix_append ps.errors es

end readable

/-- The error about an identifier that is not found is reported, unless too many
errors are. -/
def Noticed (id : Ident) (ps : ParserState) : Prop :=
  ⟨id.pos, .no_symbol id.name⟩ ∈ ps.errors ∨ MAX_ERRORS < ps.errnum

theorem Noticed.mono {id : Ident} {ps ps' : ParserState} (h : Noticed id ps)
    (herrors : ps.errors <+: ps'.errors) : Noticed id ps' := by
  rcases h with h | h
  · exact .inl (herrors.subset h)
  · exact .inr (Nat.lt_of_lt_of_le h herrors.length_le)

section equations

variable [Build] [Arith] {ps : ParserState} {name : CString} {pos ipos : Position}

theorem Parse_Expression_many (exp : Expr) (hmany : MAX_ERRORS < ps.errnum) :
    Parse_Expression exp ps = .ok (.built exp, ps) := by
  rw [Parse_Expression.eq_def]
  exact if_pos hmany

theorem Parse_Expression_ID (hfew : ps.errnum ≤ MAX_ERRORS) :
    Parse_Expression (.ID name pos) ps = Parse_Ident_Expr ps name pos := by
  rw [Parse_Expression.eq_def]
  exact if_neg (Nat.not_lt.mpr hfew)

theorem Parse_Expression_BINARY {op : BinaryOpKind} {lexp rexp : Expr}
    (hfew : ps.errnum ≤ MAX_ERRORS) :
    Parse_Expression (.BINARY op lexp rexp pos) ps = Parse_Expression lexp ps >>= fun l =>
      assert (l.1.desc.isSome = true) >>= fun _ => Parse_Expression rexp l.2 >>= fun r =>
        parse_binary op lexp.desc lexp rexp l.1 r.1 r.2 := by
  rw [Parse_Expression.eq_def]
  exact if_neg (Nat.not_lt.mpr hfew)

theorem Parse_Expression_CALL {args : List Expr} (hfew : ps.errnum ≤ MAX_ERRORS) :
    Parse_Expression (.CALL args (.ID name ipos) pos) ps = Parse_Arguments args ps >>= fun as =>
      Parse_Expression (.ID name ipos) as.2 >>= fun l =>
        check_call as.1 (.ID name ipos) l.1 l.2 := by
  rw [Parse_Expression.eq_def]
  exact if_neg (Nat.not_lt.mpr hfew)

theorem Parse_Arguments_cons (e : Expr) (args : List Expr) :
    Parse_Arguments (e :: args) ps = Parse_Arguments args ps >>= fun as =>
      Parse_Expression e as.2 >>= fun r => .ok (r.1 :: as.1, r.2) := by
  rw [Parse_Arguments]

end equations

section parses

/-- A call has the type of the name that is called. -/
theorem check_call_desc {args : List ExprInfo} {left : Expr} {li : ExprInfo}
    {ps : ParserState} (hnone : li.sym = none → li.desc = none) :
    Post (fun r => r.1.desc = li.desc) (check_call args left li ps) := by
  unfold check_call
  split
  · next hsym => exact Post.ok (hnone hsym).symm
  dsimp only
  split
  · split
    · exact Post.ite (fun _ => Post.error) fun _ => Post.ok rfl
    · exact Post.bind fun _ _ => Post.bind fun _ _ => Post.bind fun _ _ => Post.ok rfl
  · exact Post.bind fun _ _ => Post.bind fun _ _ => Post.bind fun _ _ => Post.ok rfl

variable [Arith] {ps ps' : ParserState} {exp : Expr} {info : ExprInfo}

/-- An expression is parsed, with a type if it has to have one. -/
def Parses (need : Bool) (exp : Expr) (ps : ParserState) : Prop :=
  ∃ info ps', Parse_Expression exp ps = .ok (info, ps') ∧
    (need = true → info.desc.isSome = true)

theorem parses_false_iff : Parses false exp ps ↔ Finishes (Parse_Expression exp ps) :=
  ⟨fun ⟨info, ps', h, _⟩ => ⟨(info, ps'), h⟩, fun ⟨r, h⟩ => ⟨r.1, r.2, h, fun h => nomatch h⟩⟩

/-- What a parsed identifier is. -/
theorem Parse_Expression_ID_spec (hread : Readable ps) (hfew : ps.errnum ≤ MAX_ERRORS)
    (name : CString) (pos : Position) : ∃ info ps', Parse_Expression (.ID name pos) ps = .ok (info, ps') ∧
      (∀ sym w, resolve ps name = some (sym, w) → info.sym = some sym ∧ info.desc = sym.desc ∧
        ps' = ps ∧ ∃ scope, info.where = some (w, scope)) ∧
      (resolve ps name = none → info.sym = none ∧ info.desc = none ∧
        ps' = Syntax_Error ps pos (.no_symbol name)) := by
  obtain ⟨u, hu⟩ := hread.unit
  have hparse := Parse_Ident_Expr_of_resolve hu hread.units name pos
  rw [Parse_Expression_ID hfew]
  cases hresolve : resolve ps name with
  | none =>
    rw [hresolve] at hparse
    exact ⟨_, _, hparse, fun _ _ h => (nomatch h), fun _ => ⟨rfl, rfl, rfl⟩⟩
  | some found =>
    rw [hresolve] at hparse
    obtain ⟨scope, hparse⟩ := hparse
    refine ⟨_, _, hparse, fun sym w h => ?_, fun h => nomatch h⟩
    cases h
    exact ⟨rfl, rfl, rfl, scope, rfl⟩

theorem parses_ID_iff (hread : Readable ps) (need : Bool) (name : CString) (pos : Position) :
    Parses need (.ID name pos) ps ↔ Meets need (.ID name pos) ps := by
  rw [Meets]
  by_cases hfew : ps.errnum ≤ MAX_ERRORS
  · obtain ⟨info, ps', hparse, hfound, hnone⟩ := Parse_Expression_ID_spec hread hfew name pos
    have htyped : info.desc.isSome = true ↔ Typed ps name := by
      cases hresolve : resolve ps name with
      | none =>
        rw [(hnone hresolve).2.1]
        refine iff_of_false (by decide) ?_
        rintro ⟨sym, w, hsym, -⟩
        rw [hresolve] at hsym
        cases hsym
      | some found =>
        obtain ⟨-, hdesc, -⟩ := hfound found.1 found.2 hresolve
        rw [hdesc]
        refine ⟨fun h => ⟨_, _, hresolve, h⟩, ?_⟩
        rintro ⟨sym, w, hsym, h⟩
        rw [hresolve] at hsym
        cases hsym
        exact h
    constructor
    · rintro ⟨info', ps₁, hparse', hneed⟩ h
      cases hparse.symm.trans hparse'
      exact ⟨hfew, htyped.mp (hneed h)⟩
    · exact fun h => ⟨info, ps', hparse, fun hneed => htyped.mpr (h hneed).2⟩
  · have hparse := Parse_Expression_many (.ID name pos) (Nat.lt_of_not_le hfew)
    constructor
    · rintro ⟨info', ps₁, hparse', hneed⟩ h
      cases hparse.symm.trans hparse'
      cases hneed h
    · exact fun h => ⟨_, _, hparse, fun hneed => absurd (h hneed).1 hfew⟩

theorem parse_binary_desc {op : BinaryOpKind} {built : Option TypeDesc} {lexp rexp : Expr}
    {li ri : ExprInfo} :
    Post (fun r => r.1.desc = built.or li.desc) (parse_binary op built lexp rexp li ri ps) := by
  refine Post.bind fun _ _ => ?_
  dsimp only
  split
  · exact Post.bind fun _ _ => Post.bind fun _ _ => Post.bind fun _ _ => Post.ok rfl
  · exact Post.ok rfl

/-- A parsed name that is called. -/
theorem Parse_Expression_ID_callee (hread : Readable ps) (name : CString) (pos : Position)
    (args : List ExprInfo) : ∃ info ps', Parse_Expression (.ID name pos) ps = .ok (info, ps') ∧
      (∀ sym, info.sym = some sym → info.desc = sym.desc) ∧ (info.sym = none → info.desc = none) ∧
      ((∀ sym, info.sym = some sym → sym.Takes args) ↔
        (ps.errnum ≤ MAX_ERRORS → Calls (.ID name pos) args ps)) := by
  by_cases hfew : ps.errnum ≤ MAX_ERRORS
  · obtain ⟨info, ps', hparse, hfound, hnone⟩ := Parse_Expression_ID_spec hread hfew name pos
    refine ⟨info, ps', hparse, ?_⟩
    rw [forall_prop_of_true hfew]
    cases hresolve : resolve ps name with
    | none =>
      obtain ⟨hsym, hdesc, -⟩ := hnone hresolve
      rw [hsym]
      refine ⟨fun _ h => (nomatch h), fun _ => hdesc, iff_of_true (fun _ h => nomatch h) ?_⟩
      intro name' pos' sym w hname hsome
      cases hname
      rw [hresolve] at hsome
      cases hsome
    | some found =>
      obtain ⟨hsym, hdesc, -⟩ := hfound found.1 found.2 hresolve
      rw [hsym]
      refine ⟨fun sym h => Option.some.inj h ▸ hdesc, fun h => (nomatch h), fun h => ?_, fun h => ?_⟩
      · intro name' pos' sym w hname hsome
        cases hname
        rw [hresolve] at hsome
        cases hsome
        exact h sym rfl
      · exact fun sym hsome => Option.some.inj hsome ▸ h name pos found.1 found.2 rfl hresolve
  · refine ⟨_, _, Parse_Expression_many (.ID name pos) (Nat.lt_of_not_le hfew),
      fun _ h => (nomatch h), fun _ => rfl, iff_of_true (fun _ h => nomatch h) ?_⟩
    exact fun h => absurd h hfew

theorem parses_call_iff (hread : Readable ps) {need : Bool} {name : CString} {pos : Position}
    {args : List ExprInfo} :
    (∃ l r, Parse_Expression (.ID name pos) ps = .ok l ∧
        check_call args (.ID name pos) l.1 l.2 = .ok r ∧ (need = true → r.1.desc.isSome = true)) ↔
      Parses need (.ID name pos) ps ∧
        (ps.errnum ≤ MAX_ERRORS → Calls (.ID name pos) args ps) := by
  obtain ⟨info, ps', hparse, hdesc, hnone, hcalls⟩ :=
    Parse_Expression_ID_callee hread name pos args
  rw [← hcalls, ← check_call_finishes_iff hdesc]
  constructor
  · rintro ⟨l, r, hl, hr, hneed⟩
    cases hparse.symm.trans hl
    rw [check_call_desc hnone r hr] at hneed
    exact ⟨⟨info, ps', hparse, hneed⟩, r, hr⟩
  · rintro ⟨⟨info', ps₁, hl, hneed⟩, r, hr⟩
    cases hparse.symm.trans hl
    exact ⟨_, r, hparse, hr, fun h => (check_call_desc hnone r hr) ▸ hneed h⟩

/-- The arguments are parsed from the last on. -/
theorem Parse_Arguments_finishes_iff {args : List Expr}
    (hargs : ∀ e ∈ args, ∀ {need ps}, Readable ps → (Parses need e ps ↔ Meets need e ps))
    (hread : Readable ps) : Finishes (Parse_Arguments args ps) ↔ AllMeet args ps := by
  induction args with
  | nil => exact iff_of_true (.ok _) trivial
  | cons e args ih =>
    rw [List.forall_mem_cons] at hargs
    have ih := ih hargs.2
    rw [Parse_Arguments_cons, finishes_bind_iff, AllMeet, ← ih]
    have hlast : ∀ as, Parse_Arguments args ps = .ok as →
        (Finishes (Parse_Expression e as.2 >>= fun r => .ok (r.1 :: as.1, r.2)) ↔
          Meets false e as.2) := by
      intro as has
      have hread' := (Parse_Arguments_reported args ps as has).readable hread
      rw [← hargs.1 hread', parses_false_iff, finishes_bind_iff]
      exact ⟨fun ⟨r, hr, _⟩ => ⟨r, hr⟩, fun ⟨r, hr⟩ => ⟨r, hr, .ok _⟩⟩
    constructor
    · rintro ⟨as, has, h⟩
      refine ⟨⟨as, has⟩, fun infos ps₁ heq => ?_⟩
      cases has.symm.trans heq
      exact (hlast _ has).mp h
    · rintro ⟨⟨as, has⟩, h⟩
      exact ⟨as, has, (hlast as has).mpr (h as.1 as.2 has)⟩

/-- An expression is parsed exactly when it meets its condition. -/
theorem parses_iff (hcovered : Covered exp) {need : Bool} (hread : Readable ps) :
    Parses need exp ps ↔ Meets need exp ps := by
  induction hcovered generalizing need ps with
  | CONST value pos =>
    refine iff_of_true ⟨.built (.CONST value pos), ps, ?_, fun _ => rfl⟩ ?_
    · rw [Parse_Expression.eq_def]
      exact ite_self _
    · rw [Meets.eq_def]
      exact trivial
  | ID name pos => exact parses_ID_iff hread need name pos
  | @BINARY op lexp rexp pos hop hleft hright ihl ihr =>
    rw [Meets]
    by_cases hfew : ps.errnum ≤ MAX_ERRORS
    · rw [if_pos hfew, ← ihl hread]
      constructor
      · rintro ⟨info, ps', hparse, -⟩
        rw [Parse_Expression_BINARY hfew] at hparse
        obtain ⟨l, hl, hparse⟩ := bind_eq_ok_iff.mp hparse
        obtain ⟨hldesc, hparse⟩ := assert_bind_ok_iff.mp hparse
        obtain ⟨r, hr, hparse⟩ := bind_eq_ok_iff.mp hparse
        obtain ⟨hrdesc, hconsts⟩ := (parse_binary_finishes_iff hop).mp ⟨_, hparse⟩
        refine ⟨⟨l.1, l.2, hl, fun _ => hldesc⟩, fun li ps₁ hli => ?_⟩
        cases hl.symm.trans hli
        have hread₁ := (Parse_Expression_reported lexp ps _ hl).readable hread
        refine ⟨(ihr hread₁).mp ⟨r.1, r.2, hr, fun _ => hrdesc⟩, fun ri ps₂ hri => ?_⟩
        cases hr.symm.trans hri
        exact hconsts
      · rintro ⟨⟨li, ps₁, hl, hldesc⟩, hrest⟩
        obtain ⟨hright, hconsts⟩ := hrest li ps₁ hl
        have hread₁ := (Parse_Expression_reported lexp ps _ hl).readable hread
        obtain ⟨ri, ps₂, hr, hrdesc⟩ := (ihr hread₁).mpr hright
        have hbinary : Finishes (parse_binary op lexp.desc lexp rexp li ri ps₂) :=
          (parse_binary_finishes_iff hop).mpr ⟨hrdesc rfl, hconsts ri ps₂ hr⟩
        obtain ⟨⟨info, ps'⟩, hbinary⟩ := hbinary
        refine ⟨info, ps', ?_, fun _ => ?_⟩
        · rw [Parse_Expression_BINARY hfew, hl, ok_bind, assert_of (hldesc rfl), ok_bind, hr, ok_bind]
          exact hbinary
        · rw [parse_binary_desc _ hbinary, Option.isSome_or, hldesc rfl, Bool.or_true]
    · rw [if_neg hfew]
      have hparse := Parse_Expression_many (.BINARY op lexp rexp pos) (Nat.lt_of_not_le hfew)
      constructor
      · rintro ⟨info', ps₁, hparse', hneed⟩
        cases hparse.symm.trans hparse'
        exact hneed
      · exact fun h => ⟨_, _, hparse, h⟩
  | @CALL args name ipos pos hargs ih =>
    rw [Meets]
    by_cases hfew : ps.errnum ≤ MAX_ERRORS
    · rw [if_pos hfew, ← Parse_Arguments_finishes_iff (fun e he => ih e he) hread]
      constructor
      · rintro ⟨info, ps', hparse, hneed⟩
        rw [Parse_Expression_CALL hfew] at hparse
        obtain ⟨as, has, hparse⟩ := bind_eq_ok_iff.mp hparse
        obtain ⟨l, hl, hparse⟩ := bind_eq_ok_iff.mp hparse
        refine ⟨⟨as, has⟩, fun infos ps₁ heq => ?_⟩
        cases has.symm.trans heq
        have hread₁ := (Parse_Arguments_reported args ps _ has).readable hread
        rw [← parses_ID_iff hread₁, ← parses_call_iff hread₁]
        exact ⟨l, (info, ps'), hl, hparse, hneed⟩
      · rintro ⟨⟨⟨infos, ps₁⟩, has⟩, h⟩
        have hread₁ := (Parse_Arguments_reported args ps _ has).readable hread
        have hcall := h infos ps₁ has
        rw [← parses_ID_iff hread₁, ← parses_call_iff hread₁] at hcall
        obtain ⟨l, r, hl, hcheck, hneed⟩ := hcall
        refine ⟨r.1, r.2, ?_, hneed⟩
        rw [Parse_Expression_CALL hfew, has, ok_bind, hl, ok_bind]
        exact hcheck
    · rw [if_neg hfew]
      have hparse := Parse_Expression_many (.CALL args (.ID name ipos) pos) (Nat.lt_of_not_le hfew)
      constructor
      · rintro ⟨info', ps₁, hparse', hneed⟩
        cases hparse.symm.trans hparse'
        exact Bool.eq_false_iff.mpr fun h => nomatch hneed h
      · exact fun h => ⟨_, _, hparse, fun hneed => nomatch h.symm.trans hneed⟩

theorem Parse_Expression_ID_noticed {name : CString} {pos : Position} (hread : Readable ps)
    (hparse : Parse_Expression (.ID name pos) ps = .ok (info, ps')) :
    ∀ id ∈ (Expr.ID name pos).idents, resolve ps id.name = none → Noticed id ps' := by
  intro id hid hnone
  obtain rfl := List.mem_singleton.mp hid
  by_cases hfew : ps.errnum ≤ MAX_ERRORS
  · obtain ⟨info', ps₁, hspec, -, hnew⟩ := Parse_Expression_ID_spec hread hfew name pos
    cases hspec.symm.trans hparse
    obtain ⟨-, -, rfl⟩ := hnew hnone
    exact .inl (List.mem_append_right _ (List.mem_singleton.mpr rfl))
  · have hmany := Nat.lt_of_not_le hfew
    cases (Parse_Expression_many (.ID name pos) hmany).symm.trans hparse
    exact .inr hmany

theorem Parse_Arguments_noticed {args : List Expr} {infos : List ExprInfo}
    (hargs : ∀ e ∈ args, ∀ {ps ps' info}, Readable ps → Parse_Expression e ps = .ok (info, ps') →
      ∀ id ∈ e.idents, resolve ps id.name = none → Noticed id ps')
    (hread : Readable ps) (hparse : Parse_Arguments args ps = .ok (infos, ps')) :
    ∀ id ∈ Expr.identsAll args, resolve ps id.name = none → Noticed id ps' := by
  induction args generalizing infos ps' with
  | nil => exact fun id hid => nomatch hid
  | cons e args ih =>
    rw [List.forall_mem_cons] at hargs
    rw [Parse_Arguments_cons] at hparse
    obtain ⟨as, has, hparse⟩ := bind_eq_ok_iff.mp hparse
    obtain ⟨r, hr, hparse⟩ := bind_eq_ok_iff.mp hparse
    cases hparse
    have hfirst := Parse_Arguments_reported args ps as has
    have hlast := Parse_Expression_reported e as.2 r hr
    intro id hid hnone
    rw [Expr.identsAll, List.mem_append] at hid
    rcases hid with hid | hid
    · rw [← hfirst.coded.resolve] at hnone
      exact hargs.1 (hfirst.readable hread) hr id hid hnone
    · exact (ih hargs.2 has id hid hnone).mono hlast.coded.errors

/-- A name that is not found is an error. -/
theorem Parse_Expression_noticed (hcovered : Covered exp) (hread : Readable ps)
    (hparse : Parse_Expression exp ps = .ok (info, ps')) :
    ∀ id ∈ exp.idents, resolve ps id.name = none → Noticed id ps' := by
  induction hcovered generalizing ps ps' info with
  | CONST value pos => exact fun id hid => nomatch hid
  | ID name pos => exact Parse_Expression_ID_noticed hread hparse
  | @BINARY op lexp rexp pos hop hleft hright ihl ihr =>
    intro id hid hnone
    by_cases hfew : ps.errnum ≤ MAX_ERRORS
    · rw [Parse_Expression_BINARY hfew] at hparse
      obtain ⟨l, hl, hparse⟩ := bind_eq_ok_iff.mp hparse
      obtain ⟨-, hparse⟩ := assert_bind_ok_iff.mp hparse
      obtain ⟨r, hr, hparse⟩ := bind_eq_ok_iff.mp hparse
      have hfirst := Parse_Expression_reported lexp ps l hl
      have hlast := Parse_Expression_reported rexp l.2 r hr
      have hbinary := parse_binary_reported _ hparse
      rw [Expr.idents, List.mem_append] at hid
      rcases hid with hid | hid
      · exact (ihl hread hl id hid hnone).mono (hlast.trans hbinary).coded.errors
      · rw [← hfirst.coded.resolve] at hnone
        exact (ihr (hfirst.readable hread) hr id hid hnone).mono hbinary.coded.errors
    · have hmany := Nat.lt_of_not_le hfew
      cases (Parse_Expression_many (.BINARY op lexp rexp pos) hmany).symm.trans hparse
      exact .inr hmany
  | @CALL args name ipos pos hargs ih =>
    intro id hid hnone
    by_cases hfew : ps.errnum ≤ MAX_ERRORS
    · rw [Parse_Expression_CALL hfew] at hparse
      obtain ⟨as, has, hparse⟩ := bind_eq_ok_iff.mp hparse
      obtain ⟨l, hl, hparse⟩ := bind_eq_ok_iff.mp hparse
      have hfirst := Parse_Arguments_reported args ps as has
      have hname := Parse_Expression_reported (.ID name ipos) as.2 l hl
      have hcheck := check_call_reported _ hparse
      rw [Expr.idents, List.mem_append] at hid
      rcases hid with hid | hid
      · have hargs := Parse_Arguments_noticed (fun e he => ih e he) hread has id hid hnone
        exact hargs.mono (hname.trans hcheck).coded.errors
      · have hread₁ := hfirst.readable hread
        rw [← hfirst.coded.resolve] at hnone
        have hcallee := Parse_Expression_ID_noticed hread₁ hl id hid hnone
        exact hcallee.mono hcheck.coded.errors
    · have hmany := Nat.lt_of_not_le hfew
      cases (Parse_Expression_many (.CALL args (.ID name ipos) pos) hmany).symm.trans hparse
      exact .inr hmany

end parses

section emits

/-- What an expression meets in the state its code is generated in: a literal is
not stored to; a name is found, with a type, and is a variable unless it is of a
scope above. -/
def Emits (ctx : ExprCtx) (exp : Expr) (ps : ParserState) : Prop :=
  match exp with
  | .CONST .. => ctx = .EXPR_LOAD
  | .ID name _ => ∃ sym w, resolve ps name = some (sym, w) ∧ sym.desc.isSome = true ∧
      (w = .CURRENT_SCOPE → sym.kind = .SYM_VAR)
  | _ => True

variable {ref : SymRef} {outer : List ParserUnit} {n : Nat} {ps ps' : ParserState}

theorem InBody.emit_finishes (hin : InBody ref outer n ps) (f : CodeBlock → CodeBlock) :
    Finishes (ps.emit f) := by
  obtain ⟨u, hu, -⟩ := hin.within.unit
  obtain ⟨b, hb⟩ := Option.isSome_iff_exists.mp (hin.units.unit hu).block
  exact finishes_deref_iff.mpr ⟨u, hu, finishes_deref_iff.mpr ⟨b, hb, .ok _⟩⟩

theorem InBody.code_current_iff (hin : InBody ref outer n ps) {sym : Symbol} {ctx : ExprCtx} :
    Finishes (code_current_function_block_closure sym sym.desc ctx none ps) ↔
      sym.desc.isSome = true ∧ sym.kind = .SYM_VAR := by
  unfold code_current_function_block_closure
  rw [finishes_assert_iff, and_comm]
  refine and_congr_left fun hkind => ?_
  rw [finishes_deref_iff, Option.isSome_iff_exists]
  refine exists_congr fun desc => and_iff_left ?_
  obtain ⟨name, sdesc, file, pos, data⟩ := sym
  cases data with
  | SYM_VAR index value =>
    have hcalled : called desc none = none := by cases desc <;> rfl
    rw [hcalled]
    cases ctx with
    | EXPR_LOAD => exact hin.emit_finishes _
    | EXPR_STORE => exact hin.emit_finishes _
  | _ => cases hkind

theorem InBody.code_ident_iff (hin : InBody ref outer n ps) {info : ExprInfo} {sym : Symbol}
    {w : Where} {scope : ScopeKind} {ctx : ExprCtx} (hsym : info.sym = some sym)
    (hdesc : info.desc = sym.desc) (hwhere : info.where = some (w, scope)) :
    Finishes (Code_Ident_Expr info ctx none ps) ↔
      sym.desc.isSome = true ∧ (w = .CURRENT_SCOPE → sym.kind = .SYM_VAR) := by
  obtain ⟨u, hu, -, hscope⟩ := hin.within.unit
  unfold Code_Ident_Expr
  rw [finishes_assert_iff, hsym, hdesc, hwhere, hu]
  rw [and_iff_left (Option.isSome_some : (some sym).isSome = true)]
  refine and_congr_right fun htyped => ?_
  cases w with
  | CURRENT_SCOPE =>
    have hcode : Finishes (code_current_function_block_closure sym sym.desc ctx none ps) ↔
        sym.kind = .SYM_VAR := by
      rw [hin.code_current_iff, and_iff_right htyped]
    rw [forall_prop_of_true rfl, ← hcode]
    rcases hscope with hscope | hscope
    · simp only [deref, ok_bind, hscope]
    · simp only [deref, ok_bind, hscope]
  | UP_SCOPE =>
    refine iff_of_true ?_ (by simp)
    rcases hscope with hscope | hscope
    · simp only [deref, ok_bind, hscope]
      exact .ok ps
    · simp only [deref, ok_bind, hscope]
      exact .ok ps

variable [Arith] {exp : Expr} {info : ExprInfo} {ctx : ExprCtx}

/-- Code is generated for an expression that is parsed exactly when it meets its
condition, unless there are too many errors. -/
theorem Code_Expression_finishes_iff (hcovered : Covered exp) (hin : InBody ref outer n ps)
    (hparse : Parse_Expression exp ps = .ok (info, ps')) :
    Finishes (Code_Expression exp info ctx none ps') ↔
      (ps'.errnum ≤ MAX_ERRORS → Emits ctx exp ps') := by
  have hreported : Reported ps ps' := Parse_Expression_reported exp ps _ hparse
  have hin' : InBody ref outer n ps' := (Steps.coded hreported.coded).inBody hin
  unfold Code_Expression
  by_cases hfew : ps'.errnum ≤ MAX_ERRORS
  · rw [if_neg (Nat.not_lt.mpr hfew), forall_prop_of_true hfew]
    cases hcovered with
    | CONST value pos =>
      refine finishes_assert_iff.trans (and_iff_left ?_)
      exact hin'.emit_finishes _
    | BINARY pos hop hleft hright =>
      refine iff_of_true ?_ trivial
      dsimp only
      unfold Code_Binary_Expr
      split
      · exact .ok ps'
      · exact finishes_assert_iff.mpr ⟨rfl, hin'.emit_finishes _⟩
    | CALL name ipos pos hargs => exact iff_of_true (.ok ps') trivial
    | ID name pos =>
      have hbefore : ps.errnum ≤ MAX_ERRORS := hreported.coded.errors.length_le.trans hfew
      obtain ⟨info', ps₁, hspec, hfound, hnone⟩ := Parse_Expression_ID_spec hin.readable hbefore name pos
      cases hspec.symm.trans hparse
      unfold Emits
      dsimp only
      rw [hreported.coded.resolve]
      cases hresolve : resolve ps name with
      | none =>
        obtain ⟨-, hdesc, -⟩ := hnone hresolve
        refine iff_of_false ?_ fun ⟨_, _, h, _⟩ => nomatch h
        unfold Code_Ident_Expr
        rw [finishes_assert_iff, hdesc]
        exact fun h => nomatch h.1.1
      | some found =>
        obtain ⟨hsym, hdesc, -, scope, hwhere⟩ := hfound found.1 found.2 hresolve
        rw [hin'.code_ident_iff hsym hdesc hwhere]
        refine ⟨fun h => ⟨found.1, found.2, rfl, h⟩, ?_⟩
        rintro ⟨sym, w, h, hemits⟩
        cases h
        exact hemits
  · rw [if_pos (Nat.lt_of_not_le hfew)]
    exact iff_of_true (.ok ps') fun h => absurd h hfew

/-- What an expression meets that is no part of another one. -/
def Value (ctx : ExprCtx) (exp : Expr) (ps : ParserState) : Prop :=
  Meets false exp ps ∧ ∀ info ps₁, Parse_Expression exp ps = .ok (info, ps₁) →
    ps₁.errnum ≤ MAX_ERRORS → Emits ctx exp ps₁

theorem parser_visit_expr_finishes_iff (hcovered : Covered exp) (hin : InBody ref outer n ps) :
    Finishes (parser_visit_expr exp ctx ps) ↔ Value ctx exp ps := by
  unfold parser_visit_expr Value
  rw [← parses_iff hcovered hin.readable, parses_false_iff, finishes_bind_iff]
  constructor
  · rintro ⟨r, hr, h⟩
    obtain ⟨ps', hcode, -⟩ := finishes_bind_iff.mp h
    refine ⟨⟨r, hr⟩, fun info ps₁ heq => ?_⟩
    cases hr.symm.trans heq
    exact (Code_Expression_finishes_iff hcovered hin hr).mp ⟨ps', hcode⟩
  · rintro ⟨⟨r, hr⟩, h⟩
    have hcode := (Code_Expression_finishes_iff hcovered hin hr).mpr (h r.1 r.2 hr)
    exact ⟨r, hr, hcode.bind fun ps' _ => .ok _⟩

theorem parser_visit_expr_noticed (hcovered : Covered exp) (hin : InBody ref outer n ps)
    (hvisit : parser_visit_expr exp ctx ps = .ok (info, ps')) :
    ∀ id ∈ exp.idents, resolve ps id.name = none → Noticed id ps' := by
  obtain ⟨r, hr, hvisit⟩ := bind_eq_ok_iff.mp hvisit
  obtain ⟨ps₁, hcode, hvisit⟩ := bind_eq_ok_iff.mp hvisit
  cases hvisit
  intro id hid hnone
  have hparsed := Parse_Expression_noticed hcovered hin.readable hr id hid hnone
  exact hparsed.mono (Code_Expression_coded _ hcode).errors

end emits

end koala.parser
