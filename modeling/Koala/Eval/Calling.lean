import Koala.Eval.Counts

namespace koala.eval

set_option linter.style.nameCheck false

variable {A : Type}

section forms

variable (h : Heap A)

/-- One object that is no tuple. -/
def Heap.Single (ob : Option A) : Prop := ∃ o, ob = some o ∧ h.items o = none

/-- The arguments: none for `NULL`, the items of a tuple, or an object alone. -/
def Heap.supplied : Option A → Nat
  | none => 0
  | some ob =>
    match h.items ob with
    | none => 1
    | some items => items.length

/-- The results: none for `NULL`, the items of a tuple, or an object alone. -/
def Heap.results : Option A → List A
  | none => []
  | some ob =>
    match h.items ob with
    | none => [ob]
    | some items => items.filterMap id

/-- The preparation of a function that was compiled fails no assertion, rejects
the calls with fewer arguments than parameters, and no others. -/
structure Prepares (cf : CallFrame A) : Prop where
  asserts : @prepare_frame A h.objects cf ≠ .error .assertion
  rejects : @prepare_frame A h.objects cf = .error .exit ↔
    h.supplied cf.args < Code_Get_Argc cf.code
  returns : Code_Get_Argc cf.code ≤ h.supplied cf.args → @CallFrame.Filled A h.objects cf →
    ∃ cf', @prepare_frame A h.objects cf = .ok cf'

/-- What a C function gives is allocated; each of its results hands over one
reference for each time it is named, and `held` references are elsewhere. -/
structure Heap.Gives [DecidableEq A] (ret : Option A) (held : A → Int) : Prop where
  allocated : ∀ o, ret = some o → h.freed o = false
  filled : ∀ o items, ret = some o → h.items o = some items → none ∉ items
  freed : ∀ o ∈ h.results ret, h.freed o = false
  nonneg : ∀ o, 0 ≤ held o
  refcnt : ∀ o ∈ h.results ret, h.refcnt o = held o + (h.results ret).count o

/-- A C function that gives `ret` in the memory `h'` is not called with fewer
arguments than parameters; else no assertion fails, its results are pushed, the
first on top, and all are alive with one reference for each place on the stack. -/
def Calls [DecidableEq A] (ob_free : A → Heap A → Res (Heap A))
    (cfunc : Option A → Option A → Heap A → Res (Option A × Heap A)) (cf : CallFrame A)
    (ks : KoalaState A) (h' : Heap A) (ret : Option A) (held : A → Int) : Prop :=
  (h.supplied cf.args < Code_Get_Argc cf.code →
      heap_run_cfunction ob_free cfunc h cf ks = .error .exit) ∧
    (Code_Get_Argc cf.code ≤ h.supplied cf.args →
      ∃ h'' ks', heap_run_cfunction ob_free cfunc h cf ks = .ok (h'', ks') ∧
        ks'.stack = h'.results ret ++ ks.stack ∧
        ∀ o ∈ h'.results ret, h''.Alive o ∧ h''.refcnt o = held o + (h'.results ret).count o)

/-- The results can be pushed: there are none, or they are those of a tuple that
is not among them, and the stack has room. -/
def Heap.Pushes (ret : Option A) (ks : KoalaState A) : Prop :=
  ¬ h.Single ret ∧ (∀ o, ret = some o → o ∉ h.results ret) ∧
    ks.stack.length + (h.results ret).length ≤ MAX_STACK_SIZE

end forms

section check

variable {h : Heap A} {cf : CallFrame A}

/-- Arguments are counted as the items of a tuple. -/
theorem check_arguments_single (hsingle : h.Single cf.args) :
    @check_arguments A h.objects cf = .error .assertion := by
  obtain ⟨o, hargs, hitems⟩ := hsingle
  simp [check_arguments, Tuple_Size, hargs, hitems, Objects.items]

theorem check_arguments_form (hform : ¬ h.Single cf.args) :
    @check_arguments A h.objects cf =
      if h.supplied cf.args < Code_Get_Argc cf.code then .error .exit else .ok () := by
  have hsize : @Tuple_Size A h.objects cf.args = .ok (h.supplied cf.args) := by
    cases hargs : cf.args with
    | none => rfl
    | some o =>
      cases hitems : h.items o with
      | none => exact absurd ⟨o, hargs, hitems⟩ hform
      | some items => simp [Tuple_Size, hitems, Objects.items, Heap.supplied]
  unfold check_arguments
  rw [hsize]
  rfl

/-- A receiver or an argument that is missing is a fault of its own. -/
theorem prepare_items_error {α : Type} {cf : CallFrame α} {i : Nat} {items : List (Option α)}
    {e : Fault} (hrun : prepare_items cf i items = .error e) : e = .null := by
  induction items generalizing cf i with
  | nil => cases hrun
  | cons o items ih =>
    cases o with
    | none => exact (Except.error.inj hrun).symm
    | some ob => exact ih hrun

theorem prepare_kargs_error {α : Type} [Objects α] {cf : CallFrame α} {e : Fault}
    (hrun : prepare_kargs cf = .error e) : e = .null := by
  unfold prepare_kargs at hrun
  cases hob : cf.ob with
  | none =>
    rw [hob] at hrun
    exact (Except.error.inj hrun).symm
  | some ob =>
    rw [hob, OB_INCREF, ok_bind] at hrun
    dsimp only at hrun
    split at hrun
    · cases hrun
    · split at hrun
      · exact prepare_items_error hrun
      · cases hrun

/-- The preparation keeps the convention if and only if the argument is not an
object alone. -/
theorem prepares_iff (hindex : cf.index < 0) : Prepares h cf ↔ ¬ h.Single cf.args := by
  have hprepare : @prepare_frame A h.objects cf =
      @check_arguments A h.objects cf >>= fun _ => @prepare_kargs A h.objects cf := by
    exact if_pos hindex
  constructor
  · rintro hprepares hsingle
    apply hprepares.asserts
    rw [hprepare, check_arguments_single hsingle, error_bind]
  · intro hform
    by_cases hfew : h.supplied cf.args < Code_Get_Argc cf.code
    · have hexit : @prepare_frame A h.objects cf = .error .exit := by
        rw [hprepare, check_arguments_form hform, if_pos hfew, error_bind]
      refine ⟨?_, iff_of_true hexit hfew, fun henough => absurd hfew (Nat.not_lt.mpr henough)⟩
      rw [hexit]
      exact nofun
    · have hkargs : @prepare_frame A h.objects cf = @prepare_kargs A h.objects cf := by
        rw [hprepare, check_arguments_form hform, if_neg hfew, ok_bind]
      refine ⟨?_, iff_of_false ?_ hfew, fun _ hfilled => ?_⟩
      · rw [hkargs]
        exact fun hrun => nomatch @prepare_kargs_error A h.objects _ _ hrun
      · rw [hkargs]
        exact fun hrun => nomatch @prepare_kargs_error A h.objects _ _ hrun
      · rw [hkargs]
        exact @prepare_kargs_returns A h.objects cf hfilled

end check

section call

variable [DecidableEq A] {ob_free : A → Heap A → Res (Heap A)}
  {cfunc : Option A → Option A → Heap A → Res (Option A × Heap A)} {h h' : Heap A}
  {cf : CallFrame A} {ks : KoalaState A} {ret : Option A} {held : A → Int}

theorem Heap.Gives.items_eq (hgives : h.Gives ret held) {o : A} {items : List (Option A)}
    (hret : ret = some o) (hitems : h.items o = some items) :
    items = (h.results ret).map some := by
  subst hret
  rw [Heap.results, hitems]
  have hnone := hgives.filled o items rfl hitems
  dsimp only
  clear hitems
  induction items with
  | nil => rfl
  | cons a items ih =>
    rw [List.mem_cons, not_or] at hnone
    cases a with
    | none => exact absurd rfl hnone.1
    | some a =>
      have hrest := ih hnone.2
      simpa using hrest

theorem Heap.Gives.alive (hgives : h.Gives ret held) : ∀ o ∈ h.results ret, h.Alive o := by
  intro o ho
  have hheld := hgives.nonneg o
  have hcount := List.count_pos_iff.mpr ho
  refine ⟨hgives.freed o ho, ?_⟩
  rw [hgives.refcnt o ho]
  omega

omit [DecidableEq A] in
theorem Heap.live_ok {o o' : A} (hlive : h.live o = .ok o') : o = o' := by
  unfold Heap.live at hlive
  split at hlive
  · cases hlive
  · exact Except.ok.inj hlive

omit [DecidableEq A] in
theorem Heap.results_single (hsingle : h.Single ret) : ∃ o, ret = some o ∧ h.results ret = [o] := by
  obtain ⟨o, rfl, hitems⟩ := hsingle
  exact ⟨o, rfl, by rw [Heap.results, hitems]⟩

/-- The results of a tuple are pushed and the tuple is freed, which releases
them. -/
theorem heap_run_cfunction_tuple (hgives : h'.Gives ret held)
    (hargs : @check_arguments A h.objects cf = .ok ())
    (hret : cfunc cf.ob cf.args h = .ok (ret, h')) {o : A} {items : List (Option A)}
    (ho : ret = some o) (hitems : h'.items o = some items) {back : List (CallFrame A)}
    (hframe : ks.frame = cf :: back)
    (hroom : ks.stack.length + (h'.results ret).length ≤ MAX_STACK_SIZE) :
    heap_run_cfunction ob_free cfunc h cf ks =
      .ok ({ h' with freed := Function.update h'.freed o true },
        { ks with frame := back, stack := h'.results ret ++ ks.stack }) := by
  have hall := hgives.items_eq ho hitems
  have hpush := heap_push_results_ok hgives.alive hroom
  have hfreed := hgives.allocated o ho
  have hloop : Tuple_Free.loop ob_free (h'.retain (h'.results ret)) items = .ok h' := by
    rw [hall, Tuple_Free_loop_ok, Heap.release_retain]
    · exact hgives.freed
    · intro a ha
      have hheld := hgives.nonneg a
      have hrefcnt := hgives.refcnt a ha
      have hcount := List.count_pos_iff.mpr ha
      simp only [Heap.retain]
      omega
  have hfree : Tuple_Free ob_free (h'.retain (h'.results ret)) o =
      .ok { h' with freed := Function.update h'.freed o true } := by
    have hlive : (h'.retain (h'.results ret)).live o = .ok o := by
      simp [Heap.live, Heap.retain, hfreed]
    have hkept : (h'.retain (h'.results ret)).items o = some items := hitems
    rw [Tuple_Free, hlive, ok_bind, hkept]
    dsimp only
    rw [hloop]
    rfl
  have hlive : h'.live o = .ok o := by simp [Heap.live, hfreed]
  rw [heap_run_cfunction, hargs, ok_bind, hret, ok_bind, ho]
  dsimp only
  rw [hlive, ok_bind, hitems]
  dsimp only
  rw [← ho, hall, hpush, ok_bind]
  dsimp only
  rw [hfree, ok_bind, pop_frame]
  dsimp only
  rw [hframe]
  rfl

/-- One object alone is pushed, and then freed as a tuple. -/
theorem heap_run_cfunction_single (hargs : @check_arguments A h.objects cf = .ok ())
    (hret : cfunc cf.ob cf.args h = .ok (ret, h')) (hsingle : h'.Single ret)
    (r : Heap A × KoalaState A) : heap_run_cfunction ob_free cfunc h cf ks ≠ .ok r := by
  obtain ⟨o, rfl, hitems⟩ := hsingle
  intro hrun
  rw [heap_run_cfunction, hargs, ok_bind, hret, ok_bind] at hrun
  obtain ⟨o', hlive, hrun⟩ := bind_eq_ok_iff.mp hrun
  obtain rfl := Heap.live_ok hlive
  dsimp only at hrun
  rw [hitems] at hrun
  dsimp only at hrun
  obtain ⟨⟨o₁, h₁⟩, hincref, hrun⟩ := bind_eq_ok_iff.mp hrun
  obtain ⟨stack, -, hrun⟩ := bind_eq_ok_iff.mp hrun
  rw [ok_bind] at hrun
  obtain ⟨h₂, hfree, -⟩ := bind_eq_ok_iff.mp hrun
  have hkept : h₁.items o = none := by
    obtain ⟨o₂, -, hincref⟩ := bind_eq_ok_iff.mp hincref
    obtain ⟨o₃, -, heq⟩ := bind_eq_ok_iff.mp hincref
    cases heq
    exact hitems
  obtain ⟨o₄, hlive', hfree⟩ := bind_eq_ok_iff.mp hfree
  obtain rfl := Heap.live_ok hlive'
  rw [hkept] at hfree
  cases hfree

theorem heap_push_results_stack {items : List (Option A)} {h₁ h₂ : Heap A}
    {stack stack' : List A} (hrun : heap_push_results h₁ stack items = .ok (h₂, stack')) :
    push_results stack items = .ok stack' := by
  induction items generalizing h₂ stack' with
  | nil =>
    cases hrun
    rfl
  | cons ob items ih =>
    obtain ⟨⟨h₃, rest⟩, hrest, hrun⟩ := bind_eq_ok_iff.mp hrun
    obtain ⟨⟨o, h₄⟩, hincref, hrun⟩ := bind_eq_ok_iff.mp hrun
    obtain ⟨stack₂, hpush, heq⟩ := bind_eq_ok_iff.mp hrun
    cases heq
    obtain ⟨o₁, hob, hincref⟩ := bind_eq_ok_iff.mp hincref
    obtain ⟨o₂, hlive, heq⟩ := bind_eq_ok_iff.mp hincref
    cases heq
    obtain rfl := Heap.live_ok hlive
    rw [push_results, ih hrest, ok_bind, hob, ok_bind]
    exact hpush

/-- Without the counts a call is the call of the machine that has none. -/
theorem heap_run_cfunction_refines {h'' : Heap A} {ks' : KoalaState A}
    (hret : cfunc cf.ob cf.args h = .ok (ret, h')) (hitems : h'.items = h.items)
    (hrun : heap_run_cfunction ob_free cfunc h cf ks = .ok (h'', ks')) :
    ∃ cf', @run_cfunction A h.objects (fun _ _ => .ok ret) cf ks = .ok (cf', ks') := by
  have hwhole := hrun
  obtain ⟨_, hargs, hrun⟩ := bind_eq_ok_iff.mp hrun
  rw [hret, ok_bind] at hrun
  dsimp only at hrun
  rw [@run_cfunction.eq_1 A h.objects, hargs, ok_bind, ok_bind]
  cases ret with
  | none =>
    obtain ⟨⟨cf', ks₁⟩, hpop, heq⟩ := bind_eq_ok_iff.mp hrun
    cases heq
    exact ⟨cf', hpop⟩
  | some o =>
    dsimp only at hrun ⊢
    obtain ⟨o₁, hlive, hrun⟩ := bind_eq_ok_iff.mp hrun
    obtain rfl := Heap.live_ok hlive
    cases htuple : h'.items o with
    | none =>
      exfalso
      exact heap_run_cfunction_single hargs hret ⟨o, rfl, htuple⟩ (h'', ks') hwhole
    | some items =>
      have hsame : @Objects.items A h.objects o = some items := by
        rw [hitems] at htuple
        exact htuple
      rw [htuple] at hrun
      dsimp only at hrun
      obtain ⟨⟨h₁, stack⟩, hpush, hrun⟩ := bind_eq_ok_iff.mp hrun
      obtain ⟨h₂, -, hrun⟩ := bind_eq_ok_iff.mp hrun
      obtain ⟨⟨cf', ks₁⟩, hpop, heq⟩ := bind_eq_ok_iff.mp hrun
      cases heq
      refine ⟨cf', ?_⟩
      rw [hsame]
      dsimp only
      rw [heap_push_results_stack hpush, ok_bind]
      exact hpop

/-- A C function is called as it should be if and only if its argument is not an
object alone and, where it is called, its results can be pushed. -/
theorem calls_iff (hret : cfunc cf.ob cf.args h = .ok (ret, h')) (hgives : h'.Gives ret held)
    {back : List (CallFrame A)} (hframe : ks.frame = cf :: back)
    (hlength : ks.stack.length ≤ MAX_STACK_SIZE) :
    Calls h ob_free cfunc cf ks h' ret held ↔
      ¬ h.Single cf.args ∧
        (Code_Get_Argc cf.code ≤ h.supplied cf.args → h'.Pushes ret ks) := by
  constructor
  · rintro ⟨hreject, haccept⟩
    have hform : ¬ h.Single cf.args := by
      intro hsingle
      have hrun : heap_run_cfunction ob_free cfunc h cf ks = .error .assertion := by
        rw [heap_run_cfunction, check_arguments_single hsingle]
        rfl
      rw [hrun] at hreject haccept
      by_cases hfew : h.supplied cf.args < Code_Get_Argc cf.code
      · cases hreject hfew
      · obtain ⟨_, _, hok, -⟩ := haccept (Nat.le_of_not_lt hfew)
        cases hok
    refine ⟨hform, fun henough => ?_⟩
    obtain ⟨h'', ks', hrun, -, hcounts⟩ := haccept henough
    have hargs := check_arguments_form hform
    rw [if_neg (Nat.not_lt.mpr henough)] at hargs
    have hmany : ¬ h'.Single ret := fun hsingle =>
      heap_run_cfunction_single hargs hret hsingle _ hrun
    cases hob : ret with
    | none => exact ⟨by simp [Heap.Single], by simp, by simpa [Heap.results] using hlength⟩
    | some o =>
      cases hitems : h'.items o with
      | none => exact absurd ⟨o, hob, hitems⟩ hmany
      | some items =>
        have hroom : ks.stack.length + (h'.results ret).length ≤ MAX_STACK_SIZE := by
          by_contra hfull
          have hlive : h'.live o = .ok o := by simp [Heap.live, hgives.allocated o hob]
          have hpush := heap_push_results_full hgives.alive hlength hfull
          rw [← hgives.items_eq hob hitems] at hpush
          rw [heap_run_cfunction, hargs, ok_bind, hret, ok_bind, hob] at hrun
          dsimp only at hrun
          rw [hlive, ok_bind, hitems] at hrun
          dsimp only at hrun
          rw [hpush] at hrun
          cases hrun
        rw [heap_run_cfunction_tuple hgives hargs hret hob hitems hframe hroom] at hrun
        cases hrun
        rw [← hob]
        refine ⟨hmany, fun o' ho' hmem => ?_, hroom⟩
        obtain rfl : o = o' := Option.some.inj (hob.symm.trans ho')
        obtain ⟨⟨hfreed, -⟩, -⟩ := hcounts o hmem
        dsimp only at hfreed
        rw [Function.update_self] at hfreed
        cases hfreed
  · rintro ⟨hform, hpushes⟩
    have hargs := check_arguments_form hform
    refine ⟨fun hfew => ?_, fun henough => ?_⟩
    · rw [heap_run_cfunction, hargs, if_pos hfew]
      rfl
    · rw [if_neg (Nat.not_lt.mpr henough)] at hargs
      obtain ⟨hmany, hself, hroom⟩ := hpushes henough
      cases hob : ret with
      | none =>
        subst hob
        refine ⟨h', { ks with frame := back }, ?_, rfl, by simp [Heap.results]⟩
        rw [heap_run_cfunction, hargs, ok_bind, hret, ok_bind, pop_frame, hframe]
        rfl
      | some o =>
        cases hitems : h'.items o with
        | none => exact absurd ⟨o, hob, hitems⟩ hmany
        | some items =>
          rw [← hob]
          refine ⟨_, _, heap_run_cfunction_tuple hgives hargs hret hob hitems hframe hroom, rfl, ?_⟩
          intro a ha
          have hne : a ≠ o := fun heq => hself o hob (heq ▸ ha)
          have hcount := hgives.refcnt a ha
          refine ⟨⟨?_, (hgives.alive a ha).2⟩, hcount⟩
          dsimp only
          rw [Function.update_of_ne hne]
          exact hgives.freed a ha

end call

section instances

/-- A tuple, at address 1, of the object at 0 twice. -/
def pair : Heap Nat where
  refcnt := fun o => if o = 0 then 2 else 1
  items := fun o => if o = 1 then some [some 0, some 0] else none
  freed := fun _ => false

theorem pair_gives : pair.Gives (some 1) (fun _ => 0) where
  allocated _ _ := rfl
  filled o items hret hitems := by
    obtain rfl := Option.some.inj hret
    obtain rfl : [some 0, some 0] = items := Option.some.inj hitems
    decide
  freed _ _ := rfl
  nonneg _ := le_rfl
  refcnt o ho := by
    obtain rfl : o = 0 := by
      rw [show pair.results (some 1) = [0, 0] from rfl] at ho
      simpa using ho
    rfl

/-- One object, at address 0, that is no tuple. -/
def alone : Heap Nat := ⟨fun _ => 1, fun _ => none, fun _ => false⟩

theorem alone_gives : alone.Gives (some 0) (fun _ => 0) where
  allocated _ _ := rfl
  filled _ _ _ hitems := by cases hitems
  freed _ _ := rfl
  nonneg _ := le_rfl
  refcnt o ho := by
    obtain rfl : o = 0 := by
      rw [show alone.results (some 0) = [0] from rfl] at ho
      simpa using ho
    rfl

/-- The code of a function of as many parameters. -/
def codeOf (arg : List typedesc.TypeDesc) : CodeObject Nat := ⟨⟨arg, []⟩, .CFUNC_KIND fun _ _ => .ok none⟩

def frameOf (arg : List typedesc.TypeDesc) (args : Option Nat) : CallFrame Nat :=
  ⟨codeOf arg, some 0, args, -1, sizeofCallFrame, fun _ => none, []⟩

end instances

end koala.eval
