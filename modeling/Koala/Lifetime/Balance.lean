import Koala.Lifetime.Package
import Koala.Lifetime.Runs

open koala.hashtable
open koala.parser (SymKind deref)

namespace koala.lifetime

set_option linter.style.nameCheck false

section visit

variable {h : Heap} {t : Nat} {table : HashTable Addr} {l : List Addr}

/-- A visit that changes no symbol goes through a table in its order. -/
theorem STable_Visit_reads {visit : Heap × List Addr → Addr → Res (Heap × List Addr)}
    {f : Addr → List Addr} (htable : h.tables t = some table) (hl : Holds table l)
    (hlive : ∀ a ∈ l, ∃ sym, h.syms a = some sym)
    (hvisit : ∀ a ∈ l, ∀ locvars, visit (h, locvars) a = .ok (h, locvars ++ f a))
    (locvars : List Addr) :
    STable_Visit Prod.fst visit t (h, locvars) = .ok (h, locvars ++ l.flatMap f) := by
  let P : List Addr → Heap × List Addr → Prop := fun rest s => ∃ done, done ++ rest = l ∧
    s = (h, locvars ++ done.flatMap f)
  have hnext : ∀ a rest s, P (a :: rest) s → ∃ sym table, s.1.syms a = some sym ∧
      s.1.tables t = some table ∧ table.llink.next (some a) = rest.head? := by
    rintro a rest s ⟨done, rfl, rfl⟩
    obtain ⟨sym, hsym⟩ := hlive a (List.mem_append_right _ List.mem_cons_self)
    exact ⟨sym, table, hsym, htable, hl.next⟩
  have hstep : ∀ a rest s, P (a :: rest) s → ∃ s', visit s a = .ok s' ∧ P rest s' := by
    rintro a rest s ⟨done, rfl, rfl⟩
    refine ⟨_, hvisit a (List.mem_append_right _ List.mem_cons_self) _, done ++ [a], ?_, ?_⟩
    · rw [List.append_assoc, List.singleton_append]
    · rw [List.flatMap_append, List.flatMap_singleton, List.append_assoc]
  have hstart : P l (h, locvars) := ⟨[], rfl, by rw [List.flatMap_nil, List.append_nil]⟩
  obtain ⟨s', hrun, done, hdone, rfl⟩ :=
    STable_Visit_spec P hnext hstep (s := (h, locvars)) htable hl.left hstart
  rw [List.append_nil] at hdone
  rw [hrun, hdone]

end visit

section generate

variable {pkg : Nat} {scopes : List Nat} {h : Heap}

/-- What a function lists is live, and a variable. -/
theorem Sound.locvec_live (hs : Sound pkg scopes h) {f b : Addr} (hb : b ∈ h.locvec f) :
    ∃ sym, h.syms b = some sym ∧ sym.kind = .SYM_VAR := by
  have hlisted := (hs.listed_of_locvec hb).2
  obtain ⟨sym, hsym⟩ := hs.listed b hlisted
  refine ⟨sym, hsym, ?_⟩
  cases hs.placed hsym with
  | declared _ _ _ _ hnot => exact absurd hlisted hnot
  | inside _ hkind => exact hkind
  | listed hkind => exact hkind

theorem __add_locvar_ok {vec : List Addr}
    (hvec : ∀ b ∈ vec, ∃ sym, h.syms b = some sym ∧ sym.kind = .SYM_VAR) :
    __add_locvar h vec = .ok vec := by
  induction vec with
  | nil => rfl
  | cons b vec ih =>
    obtain ⟨sym, hsym, hkind⟩ := hvec b List.mem_cons_self
    have hrest := ih fun c hc => hvec c (List.mem_cons_of_mem _ hc)
    rw [__add_locvar, hsym, deref_some, ok_bind, if_pos hkind, hrest, ok_bind]

/-- A symbol that is no class adds the variables that it lists, where it is a function. -/
theorem Sound.gen_plain (hs : Sound pkg scopes h) {a : Addr} {sym : Symbol}
    (ha : h.syms a = some sym) (hstbl : sym.stbl = none) (depth : Nat) (locvars : List Addr) :
    __gen_image_func (depth + 1) (h, locvars) a = .ok (h, locvars ++ h.locvec a) := by
  have hnot : ¬ sym.IsKlass := by
    rw [hs.klass ha, hstbl]
    rintro ⟨t, ht⟩
    cases ht
  rw [__gen_image_func, ha, deref_some, ok_bind]
  by_cases hfunc : sym.kind = .SYM_FUNC
  · have hadded : __add_locvar h (h.locvec a) = .ok (h.locvec a) :=
      __add_locvar_ok fun b hb => hs.locvec_live hb
    rw [locvec_eq ha] at hadded ⊢
    simp only [hfunc, hadded, ok_bind]
  · have hvec : h.locvec a = [] := by
      rw [locvec_eq ha]
      by_contra hne
      exact hfunc (hs.func ha hne)
    rw [hvec, List.append_nil]
    split
    · next hkind => exact absurd hkind hfunc
    · next hkind => exact absurd (Or.inl hkind) hnot
    · next hkind => exact absurd (Or.inr hkind) hnot
    · rfl

/-- A class adds what its functions list. -/
theorem Sound.gen_klass (hs : Sound pkg scopes h) {a : Addr} {sym : Symbol} {t : Nat}
    (ha : h.syms a = some sym) (hstbl : sym.stbl = some t) (depth : Nat) (locvars : List Addr) :
    __gen_image_func (depth + 2) (h, locvars) a =
      .ok (h, locvars ++ (h.symbols t).flatMap h.locvec) := by
  obtain ⟨_, hnot⟩ := hs.klass_table ha hstbl
  obtain ⟨table, htable⟩ := (hs.live t).mpr (Or.inr (Or.inr ⟨a, sym, ha, hstbl⟩))
  obtain ⟨l, hl, hmem⟩ := hs.holds htable
  have hsymbols : h.symbols t = l := by
    rw [Heap.symbols, htable]
    exact congrArg (Option.getD · []) (hl.left.1.visit hl.left.2)
  have hmember : ∀ b ∈ l, ∃ symb, h.syms b = some symb ∧ symb.stbl = none := by
    intro b hb
    obtain ⟨symb, hsymb, hnode⟩ := Option.bind_eq_some_iff.mp ((hmem b).mp hb)
    refine ⟨symb, hsymb, ?_⟩
    cases hstbl' : symb.stbl with
    | none => rfl
    | some t' =>
      have hhome := hnode.symm.trans (hs.klass_table hsymb hstbl').1
      exact absurd (Option.some.inj hhome ▸ List.mem_cons_self) hnot
  have hvisit : STable_Visit Prod.fst (__gen_image_func (depth + 1)) t (h, locvars) =
      .ok (h, locvars ++ l.flatMap h.locvec) := by
    refine STable_Visit_reads htable hl (fun b hb => ?_) (fun b hb locvars => ?_) locvars
    · obtain ⟨symb, hsymb, _⟩ := hmember b hb
      exact ⟨symb, hsymb⟩
    · obtain ⟨symb, hsymb, hstbl'⟩ := hmember b hb
      exact hs.gen_plain hsymb hstbl' depth locvars
  rw [__gen_image_func, ha, deref_some, ok_bind, hsymbols]
  rcases (hs.klass ha).mpr ⟨t, hstbl⟩ with hkind | hkind <;>
  · simp only [hkind, hstbl, deref_some, ok_bind]
    exact hvisit

/-- The image gets the variables of all functions of the package and its classes. -/
theorem Sound.Gen_Image_ok (hs : Sound pkg scopes h) :
    Gen_Image pkg h = .ok (h, (h.declared pkg).flatMap h.locvec) := by
  obtain ⟨table, htable⟩ := (hs.live pkg).mpr (Or.inl rfl)
  obtain ⟨l, hl, hmem⟩ := hs.holds htable
  have hsymbols : h.symbols pkg = l := by
    rw [Heap.symbols, htable]
    exact congrArg (Option.getD · []) (hl.left.1.visit hl.left.2)
  have hlive : ∀ a ∈ l, ∃ sym, h.syms a = some sym := by
    intro a ha
    obtain ⟨sym, hsym, _⟩ := Option.bind_eq_some_iff.mp ((hmem a).mp ha)
    exact ⟨sym, hsym⟩
  have hvisit : ∀ a ∈ l, ∀ locvars, __gen_image_func DEPTH (h, locvars) a =
      .ok (h, locvars ++ (h.members a ++ [a]).flatMap h.locvec) := by
    intro a ha locvars
    obtain ⟨sym, hsym⟩ := hlive a ha
    rw [Heap.members, klass_eq hsym]
    cases hstbl : sym.stbl with
    | none =>
      rw [Option.elim_none, List.nil_append, List.flatMap_singleton]
      exact hs.gen_plain hsym hstbl 2 locvars
    | some t =>
      have hvec : h.locvec a = [] := by
        rw [locvec_eq hsym]
        by_contra hne
        have hfunc := hs.func hsym hne
        rcases (hs.klass hsym).mpr ⟨t, hstbl⟩ with hkind | hkind
        · cases hfunc.symm.trans hkind
        · cases hfunc.symm.trans hkind
      rw [Option.elim_some, List.flatMap_append, List.flatMap_singleton, hvec, List.append_nil]
      exact hs.gen_klass hsym hstbl 1 locvars
  rw [Gen_Image, STable_Visit_reads htable hl hlive hvisit [], List.nil_append, Heap.declared,
    hsymbols, List.flatMap_assoc]

end generate

end koala.lifetime

open koala.hashtable
open koala.parser (SymKind ScopeKind deref)

namespace koala.lifetime

set_option linter.style.nameCheck false

/-- Leaving a function or a block gives up the symbols of its table, and nothing else. -/
theorem ParserState.Sound.exit_releases {ps ps' : ParserState} {scopes : List Nat}
    {u : ParserUnit} {t : Nat} (h : ps.Sound scopes) (hu : ps.u = some u)
    (hscope : u.scope = .SCOPE_FUNCTION ∨ u.scope = .SCOPE_BLOCK) (hstbl : u.stbl = some t)
    (hstep : step ps .exit = .ok (some ps')) :
    ps'.heap = ps.heap.dropped (ps.heap.symbols t) t none := by
  have hfree : ∀ {scopes}, koala.lifetime.Sound ps.pkg (t :: scopes) ps.heap →
      STable_Free (some t) ps.heap = .ok (ps.heap.dropped (ps.heap.symbols t) t none) := by
    intro scopes hs
    obtain ⟨table, htable⟩ := (hs.live t).mpr (Or.inr (Or.inl List.mem_cons_self))
    obtain ⟨l, hl, hmem⟩ := hs.holds htable
    have hsymbols : ps.heap.symbols t = l := by
      rw [Heap.symbols, htable]
      exact congrArg (Option.getD · []) (hl.left.1.visit hl.left.2)
    rw [hsymbols]
    exact hs.STable_Free_scope htable hl hmem
  have hmerge : merge_parser_unit ps u =
      .ok (ps.heap.dropped (ps.heap.symbols t) t none) := by
    cases h.unit hu with
    | module => simp at hscope
    | klass => simp at hscope
    | function hf hkind hus =>
      cases hstbl
      simp only [merge_parser_unit, deref_some, ok_bind, hf, if_pos hkind]
      exact hfree h.sound
    | block hne hus =>
      cases hstbl
      obtain ⟨uu, us, hus⟩ := List.exists_cons_of_ne_nil hne
      simp only [merge_parser_unit, hus, List.head?_cons, deref_some, ok_bind]
      exact hfree h.sound
  simp only [step, hu, Parser_Exit_Scope, hmerge, ok_bind] at hstep
  cases hstep
  rfl

/-- When all scopes were left, no table of a scope is open. -/
theorem ParserState.Sound.closed {ps : ParserState} {scopes : List Nat} (h : ps.Sound scopes)
    (hu : ps.u = none) : koala.lifetime.Sound ps.pkg [] ps.heap := by
  have hunits := h.units
  rw [hu, h.empty hu] at hunits
  cases hunits
  exact h.sound

/-- Symbols live as long as they are used: in every compilation each one is counted by its
owners, a scope that is left gives up the symbols of its table, the functions that go to the image
have their variables, and freeing the package frees each symbol once. -/
theorem run_balanced (actions : List Action) :
    ∃ r, run actions new_group = .ok r ∧ ∀ ps, r = some ps →
      (∀ a sym, ps.heap.syms a = some sym → sym.refcnt = ps.heap.owners a) ∧
      (∀ u t ps', ps.u = some u → u.scope = .SCOPE_FUNCTION ∨ u.scope = .SCOPE_BLOCK →
        u.stbl = some t → step ps .exit = .ok (some ps') →
        ps'.heap = ps.heap.dropped (ps.heap.symbols t) t none) ∧
      (∀ f sym, ps.heap.syms f = some sym → ∀ b ∈ sym.locvec,
        ∃ varSym, ps.heap.syms b = some varSym ∧ varSym.kind = .SYM_VAR) ∧
      (ps.u = none →
        Gen_Image ps.pkg ps.heap =
          .ok (ps.heap, (ps.heap.declared ps.pkg).flatMap ps.heap.locvec) ∧
        ∃ h', STable_Free (some ps.pkg) ps.heap = .ok h' ∧ (∀ a, h'.syms a = none) ∧
          (∀ t, h'.tables t = none) ∧ ∀ a ∈ ps.heap.addrs, h'.freed.count a = 1) := by
  obtain ⟨r, hrun, hr⟩ := run_progress new_group_sound actions
  refine ⟨r, hrun, fun ps hps => ?_⟩
  obtain ⟨_, scopes, h⟩ := hr ps hps
  refine ⟨fun a sym ha => h.sound.refcnt_eq ha, ?_, fun f sym hf b hb => ?_, fun hu => ?_⟩
  · intro u t ps' hu hscope hstbl hstep
    exact h.exit_releases hu hscope hstbl hstep
  · rw [← locvec_eq hf] at hb
    exact h.sound.locvec_live hb
  · exact ⟨h.sound.Gen_Image_ok, (h.closed hu).STable_Free_package⟩

end koala.lifetime
