import Koala.Eval.Fetch

open koala.typedesc koala.package

namespace koala.eval

set_option linter.style.nameCheck false

variable {α : Type}

/-- Nothing but the slots and the position of a frame has changed. -/
structure CallFrame.Keeps (cf cf' : CallFrame α) : Prop where
  code : cf'.code = cf.code
  size : cf'.size = cf.size
  touched : cf.touched <+: cf'.touched

namespace CallFrame.Keeps

variable {cf cf' cf'' : CallFrame α}

theorem refl (cf : CallFrame α) : cf.Keeps cf := ⟨rfl, rfl, List.prefix_rfl⟩

theorem trans (h : cf.Keeps cf') (h' : cf'.Keeps cf'') : cf.Keeps cf'' :=
  ⟨h'.code.trans h.code, h'.size.trans h.size, h.touched.trans h'.touched⟩

theorem touch (cf : CallFrame α) (slots : List Nat) : cf.Keeps (cf.touch slots) :=
  ⟨rfl, rfl, List.prefix_append _ _⟩

theorem set (cf : CallFrame α) (index : Nat) (ob : α) : cf.Keeps (cf.set index ob) :=
  ⟨rfl, rfl, List.prefix_append _ _⟩

theorem load {index : Nat} {ob : Option α} (h : load cf index = .ok (ob, cf')) : cf.Keeps cf' := by
  unfold koala.eval.load at h
  split at h
  · cases h
    exact touch cf [index]
  · cases h

theorem store {index : Nat} {ob : Option α} (h : store cf index ob = .ok cf') :
    cf.Keeps cf' := by
  cases ob with
  | none => cases h
  | some ob =>
    rw [koala.eval.store] at h
    split at h
    · cases h
      exact set cf index ob
    · cases h

theorem next_code {codes : List UInt8} {byte : UInt8} (h : NEXT_CODE cf codes = .ok (byte, cf')) :
    cf.Keeps cf' := by
  unfold NEXT_CODE at h
  split at h
  · cases h
  · cases h
    exact ⟨rfl, rfl, List.prefix_rfl⟩

theorem fetch_byte {codes : List UInt8} {byte : UInt8}
    (h : fetch_byte cf codes = .ok (byte, cf')) : cf.Keeps cf' := by
  unfold koala.eval.fetch_byte at h
  split at h
  · exact next_code h
  · cases h

theorem fetch_2bytes {codes : List UInt8} {index : Nat}
    (h : fetch_2bytes cf codes = .ok (index, cf')) : cf.Keeps cf' := by
  unfold koala.eval.fetch_2bytes at h
  split at h
  · obtain ⟨⟨l, cf₁⟩, hl, h⟩ := bind_eq_ok_iff.mp h
    obtain ⟨⟨r, cf₂⟩, hr, h⟩ := bind_eq_ok_iff.mp h
    cases h
    exact (next_code hl).trans (next_code hr)
  · cases h

end CallFrame.Keeps

section locals

variable {m m' : Machine α}

theorem load_local_keeps {index : Nat} (h : load_local index m = .ok m') : m.1.Keeps m'.1 := by
  obtain ⟨⟨_, cf⟩, hload, h⟩ := bind_eq_ok_iff.mp h
  obtain ⟨_, _, h⟩ := bind_eq_ok_iff.mp h
  obtain ⟨_, _, h⟩ := bind_eq_ok_iff.mp h
  cases h
  exact .load hload

theorem store_local_keeps {index : Nat} (h : store_local index m = .ok m') :
    m.1.Keeps m'.1 := by
  obtain ⟨cf, hstore, h⟩ := bind_eq_ok_iff.mp h
  cases h
  exact .store hstore

/-- The items go to the slots from `i + 1` on. -/
theorem prepare_items_ok {cf cf' : CallFrame α} {i : Nat} {items : List (Option α)}
    (h : prepare_items cf i items = .ok cf') :
    cf.Keeps cf' ∧ cf'.touched = cf.touched ++ List.range' (i + 1) items.length ∧
      (∀ k o, items[k]? = some o → cf'.locvars (i + k + 1) = o) ∧
      ∀ slot, slot ≤ i → cf'.locvars slot = cf.locvars slot := by
  induction items generalizing cf i with
  | nil =>
    cases h
    exact ⟨.refl _, by simp, fun _ _ hk => by simp at hk, fun _ _ => rfl⟩
  | cons o items ih =>
    obtain ⟨ob, hob, hrest⟩ := bind_eq_ok_iff.mp h
    obtain ⟨hkeeps, htouched, hstored, hbelow⟩ := ih hrest
    refine ⟨(CallFrame.Keeps.set cf (i + 1) ob).trans hkeeps, ?_, fun k o' hk => ?_,
      fun slot hslot => ?_⟩
    · rw [htouched, CallFrame.set_touched, List.append_assoc, List.length_cons, List.range'_succ]
      rfl
    · cases k with
      | zero =>
        cases hk
        rw [Nat.add_zero, hbelow (i + 1) (Nat.le_refl _), CallFrame.set_locvars_self,
          OB_INCREF_eq_ok_iff.mp hob]
      | succ k =>
        have hnext := hstored k o' hk
        rw [Nat.add_right_comm i 1 k] at hnext
        exact hnext
    · have hne : slot ≠ i + 1 := by omega
      rw [hbelow slot (by omega), CallFrame.set_locvars_of_ne cf hne]

end locals

section prepare

variable [Objects α] {cf cf' : CallFrame α}

/-- The receiver goes to slot 0 and the argument number `k` to slot `k + 1`. -/
theorem prepare_kargs_ok {args : α} {items : List (Option α)} (hargs : cf.args = some args)
    (hitems : Objects.items args = some items) (h : prepare_kargs cf = .ok cf') :
    cf.Keeps cf' ∧ cf'.touched = cf.touched ++ List.range (items.length + 1) ∧
      cf'.locvars 0 = cf.ob ∧ ∀ k o, items[k]? = some o → cf'.locvars (k + 1) = o := by
  obtain ⟨ob, hob, h⟩ := bind_eq_ok_iff.mp h
  have hset : (cf.set 0 ob).args = some args := hargs
  dsimp only at h
  rw [hset] at h
  dsimp only at h
  rw [hitems] at h
  obtain ⟨hkeeps, htouched, hstored, hbelow⟩ := prepare_items_ok h
  refine ⟨(CallFrame.Keeps.set cf 0 ob).trans hkeeps, ?_, ?_, fun k o hk => ?_⟩
  · rw [htouched, CallFrame.set_touched, List.append_assoc, List.range_eq_range',
      List.range'_succ]
    rfl
  · rw [hbelow 0 (Nat.le_refl 0), CallFrame.set_locvars_self, OB_INCREF_eq_ok_iff.mp hob]
  · have hitem := hstored k o hk
    rw [Nat.zero_add] at hitem
    exact hitem

end prepare

section run

variable [Objects α]

theorem prepare_kargs_keeps {cf cf' : CallFrame α} (h : prepare_kargs cf = .ok cf') :
    cf.Keeps cf' := by
  obtain ⟨ob, _, h⟩ := bind_eq_ok_iff.mp h
  refine (CallFrame.Keeps.set cf 0 ob).trans ?_
  dsimp only at h
  split at h
  · cases h
    exact .refl _
  · split at h
    · exact (prepare_items_ok h).1
    · cases h
      exact .set _ 1 _

theorem prepare_frame_keeps {cf cf' : CallFrame α} (h : prepare_frame cf = .ok cf') :
    cf.Keeps cf' := by
  unfold prepare_frame at h
  split at h
  · obtain ⟨_, _, hprepare⟩ := bind_eq_ok_iff.mp h
    exact prepare_kargs_keeps hprepare
  · cases h
    exact .refl _

variable {m m' : Machine α} {codeinfo : CodeInfo α}

theorem load_const_keeps {index : Nat} {consts : Option α}
    (h : load_const index consts m = .ok m') : m.1.Keeps m'.1 := by
  obtain ⟨_, _, h⟩ := bind_eq_ok_iff.mp h
  obtain ⟨_, _, h⟩ := bind_eq_ok_iff.mp h
  obtain ⟨_, _, h⟩ := bind_eq_ok_iff.mp h
  cases h
  exact .refl _

theorem load_member_keeps {index : Nat} {consts : Option α}
    (h : load_member index consts m = .ok m') : m.1.Keeps m'.1 := by
  obtain ⟨_, _, h⟩ := bind_eq_ok_iff.mp h
  obtain ⟨_, _, h⟩ := bind_eq_ok_iff.mp h
  obtain ⟨_, _, h⟩ := bind_eq_ok_iff.mp h
  obtain ⟨_, _, h⟩ := bind_eq_ok_iff.mp h
  obtain ⟨_, _, h⟩ := bind_eq_ok_iff.mp h
  cases h
  exact .refl _

theorem eval_inst_keeps {loopflag : Bool} (h : eval_inst codeinfo m = .ok (loopflag, m')) :
    m.1.Keeps m'.1 := by
  obtain ⟨⟨op, cf⟩, hop, h⟩ := bind_eq_ok_iff.mp h
  refine (CallFrame.Keeps.fetch_byte hop).trans ?_
  dsimp only at h
  split at h
  iterate 5
    cases h
    exact .refl _
  · obtain ⟨⟨index, cf₁⟩, hindex, h⟩ := bind_eq_ok_iff.mp h
    obtain ⟨m₁, hload, h⟩ := bind_eq_ok_iff.mp h
    cases h
    exact (CallFrame.Keeps.fetch_2bytes hindex).trans (load_const_keeps hload)
  · obtain ⟨⟨index, cf₁⟩, hindex, h⟩ := bind_eq_ok_iff.mp h
    obtain ⟨m₁, hload, h⟩ := bind_eq_ok_iff.mp h
    cases h
    exact (CallFrame.Keeps.fetch_2bytes hindex).trans (load_local_keeps hload)
  · obtain ⟨⟨index, cf₁⟩, hindex, h⟩ := bind_eq_ok_iff.mp h
    obtain ⟨m₁, hstore, h⟩ := bind_eq_ok_iff.mp h
    cases h
    exact (CallFrame.Keeps.fetch_2bytes hindex).trans (store_local_keeps hstore)
  · obtain ⟨⟨index, cf₁⟩, hindex, h⟩ := bind_eq_ok_iff.mp h
    obtain ⟨m₁, hload, h⟩ := bind_eq_ok_iff.mp h
    cases h
    exact (CallFrame.Keeps.fetch_2bytes hindex).trans (load_member_keeps hload)
  · obtain ⟨⟨argc, cf₁⟩, hargc, h⟩ := bind_eq_ok_iff.mp h
    obtain ⟨⟨index, cf₂⟩, hindex, h⟩ := bind_eq_ok_iff.mp h
    obtain ⟨_, _, h⟩ := bind_eq_ok_iff.mp h
    cases h
    exact (CallFrame.Keeps.fetch_byte hargc).trans (CallFrame.Keeps.fetch_2bytes hindex)
  · cases h
    exact .refl _
  · cases h

theorem eval_loop_keeps {fuel : Nat} (h : eval_loop codeinfo fuel m = .ok m') :
    m.1.Keeps m'.1 := by
  induction fuel generalizing m with
  | zero => cases h
  | succ fuel ih =>
    obtain ⟨⟨loopflag, m₁⟩, hinst, h⟩ := bind_eq_ok_iff.mp h
    have hstep := eval_inst_keeps hinst
    cases loopflag with
    | false =>
      cases h
      exact hstep
    | true => exact hstep.trans (ih h)

/-- The arguments stay inside the array if and only if there is a variable more
than there are arguments. -/
theorem prepare_kargs_slots {code : CodeObject α} {ob : Option α} {args : α}
    {items : List (Option α)} {ks ks' : KoalaState α} {top cf : CallFrame α}
    (hitems : Objects.items args = some items)
    (hpush : push_frame code ob (some args) ks = .ok ks') (htop : ks'.frame = top :: ks.frame)
    (hprepare : prepare_kargs top = .ok cf) :
    (∀ slot ∈ cf.touched, slot < nrslots code) ↔ items.length < nrslots code := by
  obtain ⟨_, _, _, hframe⟩ := push_frame_ok hpush
  obtain ⟨rfl, _⟩ := List.cons.inj (htop.symm.trans hframe)
  obtain ⟨_, htouched, _⟩ := prepare_kargs_ok rfl hitems hprepare
  rw [htouched, List.nil_append]
  simp only [List.mem_range]
  exact ⟨fun h => h items.length (by omega), fun h slot hslot => by omega⟩

/-- Whatever code a frame runs and whatever it is given, freeing the frame goes
past the array: `cf->size` is the size of the frame in bytes. -/
theorem call_code_slots {code : CodeObject α} {ob args : Option α} {ks ks' : KoalaState α}
    {cf : CallFrame α} {fuel : Nat} (hcode : code.kind = .KCODE_KIND codeinfo)
    (hcall : call_code fuel code ob args ks = .ok (cf, ks')) :
    ¬ ∀ slot ∈ cf.touched, slot < nrslots code := by
  obtain ⟨ks₁, hpush, hrun⟩ := bind_eq_ok_iff.mp hcall
  obtain ⟨_, _, _, hframe⟩ := push_frame_ok hpush
  unfold run_frame at hrun
  rw [hframe] at hrun
  dsimp only at hrun
  rw [hcode] at hrun
  obtain ⟨ready, hready, heval⟩ := run_kfunction_ok hrun
  obtain ⟨_, _, last, stack, hloop, rfl⟩ := eval_frame_ok heval
  have hsize : last.size = sizeofCallFrame + nrslots code * sizeofObjectPtr :=
    ((prepare_frame_keeps hready).trans (eval_loop_keeps hloop)).size
  have hlt : nrslots code < last.size := by
    rw [hsize, sizeofCallFrame, sizeofObjectPtr]
    omega
  intro hinside
  have hmem : nrslots code ∈ (free_frame last).touched :=
    List.mem_append_right _ (List.mem_range.mpr hlt)
  exact Nat.lt_irrefl _ (hinside _ hmem)

end run

section instances

/-- Integers, and tuples of them. -/
inductive Value where
  | Integer (n : Int)
  | Tuple (items : List Int)

instance : Objects Value where
  items
    | .Integer _ => none
    | .Tuple items => some (items.map fun n => some (.Integer n))
  load_field _ _ := .ok none

/-- A function of one parameter with another variable, which returns at once. -/
def oneParameter : CodeObject Value :=
  ⟨⟨[.base .BASE_INT], []⟩, .KCODE_KIND ⟨none,
    [⟨⟨[97], by decide⟩, .base .BASE_INT, 1⟩, ⟨⟨[98], by decide⟩, .base .BASE_INT, 2⟩],
    [OpCode.RETURN.number]⟩⟩

theorem call_code_slots_one :
    ∃ cf ks', call_code 1 oneParameter (some (.Integer 0)) (some (.Tuple [5])) .init =
        .ok (cf, ks') ∧ ¬ ∀ slot ∈ cf.touched, slot < nrslots oneParameter := by
  have hcall : call_code 1 oneParameter (some (.Integer 0)) (some (.Tuple [5])) .init =
      .ok (_, _) := rfl
  exact ⟨_, _, hcall, call_code_slots rfl hcall⟩

theorem call_code_outside :
    ∃ cf ks', call_code 1 oneParameter (some (.Integer 0)) (some (.Tuple [5])) .init =
        .ok (cf, ks') ∧ ∃ slot ∈ cf.touched, nrslots oneParameter ≤ slot :=
  ⟨_, _, rfl, 2, by decide, by decide⟩

end instances

end koala.eval

namespace koala.eval

set_option linter.style.nameCheck false

theorem prepare_items_returns {α : Type} {cf : CallFrame α} {i : Nat} {items : List (Option α)}
    (h : none ∉ items) : ∃ cf', prepare_items cf i items = .ok cf' := by
  induction items generalizing cf i with
  | nil => exact ⟨cf, rfl⟩
  | cons o items ih =>
    rw [List.mem_cons, not_or] at h
    cases o with
    | none => exact absurd rfl h.1
    | some ob => exact ih h.2

section arguments

variable {α : Type} [Objects α]

/-- Argument number `k` of a frame: an item of a tuple, or a value that is alone. -/
def CallFrame.argument (cf : CallFrame α) (k : Nat) : Option α :=
  match cf.args with
  | none => none
  | some args =>
    match Objects.items args with
    | some items => items[k]?.join
    | none => if k = 0 then some args else none

/-- The receiver and the arguments of a frame are there. -/
structure CallFrame.Filled (cf : CallFrame α) : Prop where
  ob : cf.ob.isSome = true
  items : ∀ args items, cf.args = some args → Objects.items args = some items → none ∉ items

variable {cf cf' : CallFrame α}

theorem prepare_kargs_returns (h : cf.Filled) : ∃ cf', prepare_kargs cf = .ok cf' := by
  obtain ⟨ob, hob⟩ := Option.isSome_iff_exists.mp h.ob
  unfold prepare_kargs
  rw [OB_INCREF_eq_ok_iff.mpr hob, ok_bind]
  dsimp only
  split
  · exact ⟨_, rfl⟩
  next args hargs =>
    split
    · next items hitems => exact prepare_items_returns (h.items args items hargs hitems)
    · exact ⟨_, rfl⟩

/-- Argument number `k` goes to slot `k + 1`. -/
theorem prepare_kargs_argument {k : Nat} {o : α} (harg : cf.argument k = some o)
    (h : prepare_kargs cf = .ok cf') : cf'.locvars (k + 1) = some o := by
  unfold CallFrame.argument at harg
  split at harg
  · cases harg
  next args hargs =>
    split at harg
    · next items hitems =>
      obtain ⟨_, _, _, hstored⟩ := prepare_kargs_ok hargs hitems h
      exact hstored k _ (Option.join_eq_some_iff.mp harg)
    · next hitems =>
      obtain ⟨ob, _, h⟩ := bind_eq_ok_iff.mp h
      have hset : (cf.set 0 ob).args = some args := hargs
      dsimp only at h
      rw [hset] at h
      dsimp only at h
      rw [hitems] at h
      cases h
      split at harg
      · next hk =>
        cases harg
        subst hk
        exact CallFrame.set_locvars_self ..
      · cases harg

end arguments

end koala.eval
