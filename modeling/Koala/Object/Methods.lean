import Koala.Object.Hierarchy
import Koala.Object.Members

open koala.hashtable koala.typedesc
open koala.object (LRONode KlassPtr order lines base_loop base_orders lro_build is_super behind_super
  Ordering LineOrder)

namespace koala.members

set_option linter.style.nameCheck false

/-- The classes that were allocated, in their order. -/
abbrev Klasses := List Klass

/-- What the line order is built from. -/
def Klass.line (k : Klass) : koala.object.Klass := ⟨k.name, [], k.nrvars, k.totalvars, k.lro⟩

def Klass_New (ks : Klasses) (name : CString) (bases : List Nat) : Res Klasses := do
  let orders ← base_orders (ks.map Klass.line) bases
  let line := lro_build (ks.map Klass.line) (.new ks.length) orders
  .ok (ks ++ [⟨name, Buckets.init, 0, line.offset, line.lro, none⟩])

/-- A member is added to the class at some address. -/
def on_klass (ks : Klasses) (klazz : Nat) (f : Klass → Res (Int × Klass)) : Res Klasses :=
  match ks[klazz]? with
  | none => .error .null
  | some k => do
    let (_, k) ← f k
    .ok (ks.set klazz k)

/-- A call that builds classes. -/
inductive ClassCall where
  | Klass_New (name : CString) (bases : List Nat)
  | Klass_Add_Field (klazz : Nat) (name : CString) (desc : TypeDesc)
  | Klass_Add_Method (klazz : Nat) (code : CodeObject)

def ClassCall.run (ks : Klasses) : ClassCall → Res Klasses
  | .Klass_New name bases => members.Klass_New ks name bases
  | .Klass_Add_Field klazz name desc =>
    on_klass ks klazz fun k => members.Klass_Add_Field k name desc
  | .Klass_Add_Method klazz code => on_klass ks klazz fun k => members.Klass_Add_Method k code

/-- The class that a call adds a member to. -/
def ClassCall.klazz : ClassCall → Option Nat
  | .Klass_New .. => none
  | .Klass_Add_Field klazz .. => some klazz
  | .Klass_Add_Method klazz _ => some klazz

/-- The classes that calls lead to. -/
inductive Classes : Klasses → Prop where
  | nil : Classes []
  | call {ks ks' : Klasses} (h : Classes ks) (call : ClassCall) (hcall : call.run ks = .ok ks') :
    Classes ks'

/-- The members of a class. `Any_Klass` has none. -/
def mtbl (ks : Klasses) : KlassPtr → Buckets MNode
  | .Any_Klass => Buckets.init
  | .new n => ks[n]?.elim Buckets.init Klass.mtbl

/-- The second loop of `__get_m`. -/
def member_loop (ks : Klasses) (lro : List LRONode) (name : CString) : Nat → Res (Option MNode)
  | 0 => .ok none
  | index + 1 =>
    match lro[index + 1]? with
    | none => .error .null
    | some node =>
      match Find_MNode (mtbl ks node.klazz) name with
      | some m => .ok (some m)
      | none => member_loop ks lro name index

/-- The member that a name stands for from some base on. -/
def __get_m (ks : Klasses) (lro : List LRONode) (name : CString) (base : KlassPtr) :
    Res (Option MNode) :=
  let index := base_loop lro base (lro.length - 1)
  if is_super name then member_loop ks lro (behind_super name) (index - 1)
  else member_loop ks lro name index

/-- The method of an object of some class. Without a base the search starts at that class. -/
def Get_Method (ks : Klasses) (klass : Nat) (base : Option KlassPtr) (name : CString) :
    Res CodeObject :=
  match ks[klass]? with
  | none => .error .null
  | some k =>
    __get_m ks k.lro name (base.getD (.new klass)) >>= fun
      | none => .error .assertion
      | some m =>
        match m.member with
        | .FUNC_KIND code => .ok code
        | _ => .error .assertion

/-- The name of the member that is looked for. -/
def member_name (name : CString) : CString := if is_super name then behind_super name else name

/-- The positions that are searched when the base is at `i`: those up to it, or with a prefix those
below it. -/
def Searched (name : CString) (i j : Nat) : Prop := if is_super name then j < i else j ≤ i

/-- The class with the highest rank among those that are searched has the member, and no class above
it has one of that name. -/
structure Resolves (ks : Klasses) (lro : List LRONode) (base : KlassPtr) (name : CString) (j : Nat)
    (m : MNode) : Prop where
  found : ∃ i c, (order lro)[i]? = some base ∧ (order lro)[j]? = some c ∧ Searched name i j ∧
    Find_MNode (mtbl ks c) (member_name name) = some m
  highest : ∀ i j' c, (order lro)[i]? = some base → j < j' → Searched name i j' →
    (order lro)[j']? = some c → Find_MNode (mtbl ks c) (member_name name) = none

section loops

variable {ks : Klasses} {lro : List LRONode}

theorem order_getElem? (lro : List LRONode) (i : Nat) :
    (order lro)[i]? = lro[i]?.map LRONode.klazz := List.getElem?_map ..

/-- A class of the order is found at its place. -/
theorem base_loop_eq (hnodup : (order lro).Nodup) {base : KlassPtr} {i : Nat}
    (hi : (order lro)[i]? = some base) {index : Nat} (hle : i ≤ index) :
    base_loop lro base index = i := by
  induction index with
  | zero => exact (Nat.le_zero.mp hle).symm
  | succ index ih =>
    rw [base_loop]
    split
    · next hany =>
      obtain ⟨node, hnode, hklazz⟩ : ∃ node, lro[index + 1]? = some node ∧ node.klazz = base := by
        simpa [Option.any_eq_true] using hany
      have hother : (order lro)[index + 1]? = some base := by
        rw [order_getElem?, hnode, Option.map_some, hklazz]
      obtain ⟨hlt, hget⟩ := List.getElem?_eq_some_iff.mp hi
      obtain ⟨hlt', hget'⟩ := List.getElem?_eq_some_iff.mp hother
      exact (hnodup.getElem_inj_iff.mp (hget.trans hget'.symm)).symm
    · next hany =>
      refine ih (Nat.le_of_lt_succ (Nat.lt_of_le_of_ne hle fun heq => hany ?_))
      rw [heq, order_getElem?, Option.map_eq_some_iff] at hi
      obtain ⟨node, hnode, hklazz⟩ := hi
      rw [hnode]
      simpa using hklazz

/-- The search stops at the first class that has the member. -/
theorem member_loop_found {name : CString} {index j : Nat} {c : KlassPtr} {m : MNode}
    (hindex : index < lro.length) (hpos : 0 < j) (hle : j ≤ index)
    (hc : (order lro)[j]? = some c) (hm : Find_MNode (mtbl ks c) name = some m)
    (hnone : ∀ j' c, j < j' → j' ≤ index → (order lro)[j']? = some c →
      Find_MNode (mtbl ks c) name = none) :
    member_loop ks lro name index = .ok (some m) := by
  induction index with
  | zero => omega
  | succ index ih =>
    have hget : lro[index + 1]? = some lro[index + 1] := List.getElem?_eq_getElem hindex
    have hat : (order lro)[index + 1]? = some lro[index + 1].klazz := by
      rw [order_getElem?, hget, Option.map_some]
    rw [member_loop, hget]
    by_cases heq : j = index + 1
    · rw [heq, hat] at hc
      cases hc
      simp only [hm]
    · simp only [hnone (index + 1) _ (by omega) (Nat.le_refl _) hat]
      exact ih (by omega) (by omega) fun j' c hlt hle => hnone j' c hlt (by omega)

/-- The search ends when no class has the member. -/
theorem member_loop_none {name : CString} {index : Nat} (hindex : index < lro.length)
    (hnone : ∀ j c, 0 < j → j ≤ index → (order lro)[j]? = some c →
      Find_MNode (mtbl ks c) name = none) :
    member_loop ks lro name index = .ok none := by
  induction index with
  | zero => rfl
  | succ index ih =>
    have hget : lro[index + 1]? = some lro[index + 1] := List.getElem?_eq_getElem hindex
    have hat : (order lro)[index + 1]? = some lro[index + 1].klazz := by
      rw [order_getElem?, hget, Option.map_some]
    rw [member_loop, hget]
    simp only [hnone (index + 1) _ (Nat.succ_pos _) (Nat.le_refl _) hat]
    exact ih (by omega) fun j c hpos hle => hnone j c hpos (by omega)

/-- Some class up to a position has the member and none above it has, or none has it. -/
theorem exists_highest (ks : Klasses) (lro : List LRONode) (name : CString) (index : Nat) :
    (∃ j c m, j ≤ index ∧ (order lro)[j]? = some c ∧ Find_MNode (mtbl ks c) name = some m ∧
      ∀ j' c', j < j' → j' ≤ index → (order lro)[j']? = some c' →
        Find_MNode (mtbl ks c') name = none) ∨
    ∀ j c, j ≤ index → (order lro)[j]? = some c → Find_MNode (mtbl ks c) name = none := by
  -- a class is looked for from its position downwards
  have hat : ∀ index : Nat, (∃ c m, (order lro)[index]? = some c ∧
      Find_MNode (mtbl ks c) name = some m) ∨
      ∀ c, (order lro)[index]? = some c → Find_MNode (mtbl ks c) name = none := by
    intro index
    cases hc : (order lro)[index]? with
    | none => exact Or.inr fun c heq => nomatch heq
    | some c =>
      cases hm : Find_MNode (mtbl ks c) name with
      | none => exact Or.inr fun c' heq => Option.some.inj heq ▸ hm
      | some m => exact Or.inl ⟨c, m, rfl, hm⟩
  induction index with
  | zero =>
    rcases hat 0 with ⟨c, m, hc, hm⟩ | hnone
    · exact Or.inl ⟨0, c, m, Nat.le_refl _, hc, hm, fun j' c' hlt hle => by omega⟩
    · exact Or.inr fun j c hle hc => hnone c (Nat.le_zero.mp hle ▸ hc)
  | succ index ih =>
    rcases hat (index + 1) with ⟨c, m, hc, hm⟩ | hnone
    · exact Or.inl ⟨index + 1, c, m, Nat.le_refl _, hc, hm, fun j' c' hlt hle => by omega⟩
    · have hstep : ∀ j c, j ≤ index + 1 → ¬ j ≤ index → (order lro)[j]? = some c →
          Find_MNode (mtbl ks c) name = none := by
        intro j c hle hnot hc
        obtain rfl : j = index + 1 := by omega
        exact hnone c hc
      rcases ih with ⟨j, c, m, hle, hc, hm, hhighest⟩ | hall
      · refine Or.inl ⟨j, c, m, Nat.le_succ_of_le hle, hc, hm, fun j' c' hlt hle' hc' => ?_⟩
        by_cases hle₁ : j' ≤ index
        · exact hhighest j' c' hlt hle₁ hc'
        · exact hstep j' c' hle' hle₁ hc'
      · refine Or.inr fun j c hle hc => ?_
        by_cases hle₁ : j ≤ index
        · exact hall j c hle₁ hc
        · exact hstep j c hle hle₁ hc

variable {base : KlassPtr} {name : CString} {i : Nat}

/-- Some class that is searched has the member, or none has it. -/
theorem exists_resolves (hnodup : (order lro).Nodup) (hi : (order lro)[i]? = some base) :
    (∃ j m, Resolves ks lro base name j m) ∨
      ∀ j c, Searched name i j → (order lro)[j]? = some c →
        Find_MNode (mtbl ks c) (member_name name) = none := by
  have hsame : ∀ {i' : Nat}, (order lro)[i']? = some base → i' = i := by
    intro i' hi'
    obtain ⟨h₁, hget₁⟩ := List.getElem?_eq_some_iff.mp hi'
    obtain ⟨h₂, hget₂⟩ := List.getElem?_eq_some_iff.mp hi
    exact hnodup.getElem_inj_iff.mp (hget₁.trans hget₂.symm)
  have hsome : ∀ {index}, (∀ j, Searched name i j ↔ j ≤ index) →
      (∃ j m, Resolves ks lro base name j m) ∨
        ∀ j c, Searched name i j → (order lro)[j]? = some c →
          Find_MNode (mtbl ks c) (member_name name) = none := by
    intro index hindex
    rcases exists_highest ks lro (member_name name) index with
      ⟨j, c, m, hle, hc, hm, hhighest⟩ | hall
    · refine Or.inl ⟨j, m, ⟨i, c, hi, hc, (hindex j).mpr hle, hm⟩, ?_⟩
      intro i' j' c' hi' hlt hsearched hc'
      exact hhighest j' c' hlt ((hindex j').mp (hsame hi' ▸ hsearched)) hc'
    · exact Or.inr fun j c hsearched hc => hall j c ((hindex j).mp hsearched) hc
  by_cases hsuper : is_super name = true
  · by_cases hzero : i = 0
    · refine Or.inr fun j c hsearched hc => ?_
      rw [Searched, if_pos hsuper] at hsearched
      omega
    · refine @hsome (i - 1) fun j => ?_
      rw [Searched, if_pos hsuper]
      omega
  · refine @hsome i fun j => ?_
    rw [Searched, if_neg hsuper]

/-- The search starts at the base, or with a prefix below it. -/
theorem get_m_eq (hnodup : (order lro).Nodup) (hi : (order lro)[i]? = some base) :
    __get_m ks lro name base = member_loop ks lro (member_name name)
      (if is_super name then i - 1 else i) := by
  have hlt : i < lro.length := by
    have hlt := (List.getElem?_eq_some_iff.mp hi).1
    rwa [order, List.length_map] at hlt
  rw [__get_m, base_loop_eq hnodup hi (by omega), member_name]
  cases is_super name <;> rfl

/-- The member of the class with the highest rank is found. -/
theorem get_m_found (hnodup : (order lro).Nodup) (hi : (order lro)[i]? = some base) {j : Nat}
    (hpos : 0 < j) {m : MNode} (h : Resolves ks lro base name j m) :
    __get_m ks lro name base = .ok (some m) := by
  have hlt : i < lro.length := by
    have hlt := (List.getElem?_eq_some_iff.mp hi).1
    rwa [order, List.length_map] at hlt
  obtain ⟨i', c, hi', hc, hsearched, hm⟩ := h.found
  have hsame : i' = i := by
    obtain ⟨hlt₁, hget₁⟩ := List.getElem?_eq_some_iff.mp hi'
    obtain ⟨hlt₂, hget₂⟩ := List.getElem?_eq_some_iff.mp hi
    exact hnodup.getElem_inj_iff.mp (hget₁.trans hget₂.symm)
  subst hsame
  have hhighest := fun j' c' => h.highest i' j' c' hi
  simp only [Searched] at hsearched hhighest
  rw [get_m_eq hnodup hi]
  split at hsearched
  · next hsuper =>
    rw [if_pos hsuper]
    simp only [if_pos hsuper] at hhighest
    exact member_loop_found (by omega) hpos (by omega) hc hm
      fun j' c' hj hle => hhighest j' c' hj (by omega)
  · next hsuper =>
    rw [if_neg hsuper]
    simp only [if_neg hsuper] at hhighest
    exact member_loop_found hlt hpos hsearched hc hm hhighest

theorem get_m_none (hnodup : (order lro).Nodup) (hi : (order lro)[i]? = some base)
    (hnone : ∀ j c, Searched name i j → (order lro)[j]? = some c →
      Find_MNode (mtbl ks c) (member_name name) = none) :
    __get_m ks lro name base = .ok none := by
  have hlt : i < lro.length := by
    have hlt := (List.getElem?_eq_some_iff.mp hi).1
    rwa [order, List.length_map] at hlt
  simp only [Searched] at hnone
  rw [get_m_eq hnodup hi]
  split at hnone
  · next hsuper =>
    rw [if_pos hsuper]
    exact member_loop_none (by omega) fun j c hpos hle => hnone j c (by omega)
  · next hsuper =>
    rw [if_neg hsuper]
    exact member_loop_none hlt fun j c _ hle => hnone j c hle

end loops

section classes

variable {ks ks' : Klasses}

theorem on_klass_ok {klazz : Nat} {f : Klass → Res (Int × Klass)}
    (h : on_klass ks klazz f = .ok ks') :
    ∃ k k' res, ks[klazz]? = some k ∧ f k = .ok (res, k') ∧ ks' = ks.set klazz k' := by
  unfold on_klass at h
  split at h
  · cases h
  · next k hk =>
    obtain ⟨⟨res, k'⟩, hf, h⟩ := bind_eq_ok_iff.mp h
    cases h
    exact ⟨k, k', res, hk, hf, rfl⟩

/-- Members do not change the line order. -/
theorem lines_set {klazz : Nat} {k k' : Klass} (hk : ks[klazz]? = some k) (hlro : k'.lro = k.lro) :
    lines ((ks.set klazz k').map Klass.line) = lines (ks.map Klass.line) := by
  rw [List.map_set]
  refine koala.object.lines_set (k := k.line) ?_ hlro
  rw [List.getElem?_map, hk, Option.map_some]

/-- A member is added to a class, and all else stays. -/
theorem ClassCall.run_member {call : ClassCall} {klazz : Nat} (hklazz : call.klazz = some klazz)
    (hcall : call.run ks = .ok ks') : ∃ k k' m, ks[klazz]? = some k ∧ ks' = ks.set klazz k' ∧
      k'.lro = k.lro ∧ k'.mtbl = HashTable_Insert k.mtbl m := by
  cases call with
  | Klass_New name bases => cases hklazz
  | Klass_Add_Field klazz' name desc =>
    cases hklazz
    obtain ⟨k, k', res, hk, hf, rfl⟩ := on_klass_ok hcall
    cases hf
    exact ⟨k, _, _, hk, rfl, rfl, rfl⟩
  | Klass_Add_Method klazz' code =>
    cases hklazz
    obtain ⟨k, k', res, hk, hf, rfl⟩ := on_klass_ok hcall
    cases hf
    exact ⟨k, _, _, hk, rfl, rfl, rfl⟩

/-- The orders are those of the hierarchy without its members. -/
theorem Classes.ordering (h : Classes ks) :
    ∃ hist, Ordering hist (lines (ks.map Klass.line)) := by
  induction h with
  | nil => exact ⟨[], koala.object.ordering_nil⟩
  | @call ks ks' _ call hcall ih =>
    obtain ⟨hist, hordering⟩ := ih
    cases hklazz : call.klazz with
    | none =>
      cases call with
      | Klass_New name bases =>
        obtain ⟨orders, horders, hnew⟩ := bind_eq_ok_iff.mp hcall
        cases hnew
        refine ⟨hist ++ [bases], ?_⟩
        let line := lro_build (ks.map Klass.line) (.new ks.length) orders
        let k : Klass := ⟨name, Buckets.init, 0, line.offset, line.lro, none⟩
        have hsame : koala.object.Klass_New (ks.map Klass.line) name bases =
            .ok ((ks ++ [k]).map Klass.line) := by
          rw [koala.object.Klass_New, horders, ok_bind, List.map_append, List.length_map]
          rfl
        exact hordering.Klass_New hsame
      | Klass_Add_Field klazz name desc => cases hklazz
      | Klass_Add_Method klazz code => cases hklazz
    | some klazz =>
      obtain ⟨k, k', m, hk, rfl, hlro, _⟩ := ClassCall.run_member hklazz hcall
      exact ⟨hist, by rwa [lines_set hk hlro]⟩

/-- Each class is in its order once, behind `Any`, and it comes last. -/
theorem Classes.line_order (h : Classes ks) {n : Nat} {k : Klass} (hk : ks[n]? = some k) :
    (order k.lro).Nodup ∧ (order k.lro)[0]? = some .Any_Klass ∧
      (order k.lro).getLast? = some (.new n) := by
  obtain ⟨hist, hordering⟩ := h.ordering
  have hget : (lines (ks.map Klass.line))[n]? = some (order k.lro) := by
    rw [lines, List.getElem?_map, List.getElem?_map, hk]
    rfl
  have hline := hordering.line n _ hget
  refine ⟨hline.nodup, ?_, hline.last⟩
  rw [← List.head?_eq_getElem?]
  exact hline.first

theorem find_any (ks : Klasses) (name : CString) : Find_MNode (mtbl ks .Any_Klass) name = none :=
  Buckets.named_init.get_eq_none_iff.mpr fun _ hm => nomatch hm

/-- What `Get_Method` answers for a class, a base in its order and a name: the method of the class
with the highest rank, whatever is added to the classes below that one. -/
structure Dispatches (ks : Klasses) (n : Nat) (k : Klass) (base : Option KlassPtr)
    (name : CString) : Prop where
  method : ∀ j m code, Resolves ks k.lro (base.getD (.new n)) name j m →
    m.member = .FUNC_KIND code → Get_Method ks n base name = .ok code
  other : ∀ j m, Resolves ks k.lro (base.getD (.new n)) name j m →
    (∀ code, m.member ≠ .FUNC_KIND code) → Get_Method ks n base name = .error .assertion
  missing : (¬ ∃ j m, Resolves ks k.lro (base.getD (.new n)) name j m) →
    Get_Method ks n base name = .error .assertion
  stable : ∀ j m, Resolves ks k.lro (base.getD (.new n)) name j m →
    ∀ (call : ClassCall) (c j' : Nat), call.klazz = some c →
      (order k.lro)[j']? = some (.new c) → j' < j → ∀ ks', call.run ks = .ok ks' →
        Get_Method ks' n base name = Get_Method ks n base name

section dispatch

variable {n : Nat} {k : Klass} {base : Option KlassPtr} {name : CString}

theorem Get_Method_of_get_m (hk : ks[n]? = some k) {r : Option MNode}
    (hget : __get_m ks k.lro name (base.getD (.new n)) = .ok r) :
    Get_Method ks n base name = match r with
      | none => .error .assertion
      | some m => match m.member with
        | .FUNC_KIND code => .ok code
        | _ => .error .assertion := by
  simp only [Get_Method, hk, hget, ok_bind]
  cases r <;> rfl

/-- `Any` has no members, so it is not found. -/
theorem Resolves.pos {lro : List LRONode} {b : KlassPtr} {j : Nat} {m : MNode}
    (h : Resolves ks lro b name j m) (hfirst : (order lro)[0]? = some .Any_Klass) : 0 < j := by
  obtain ⟨_, c, _, hc, _, hm⟩ := h.found
  refine Nat.pos_of_ne_zero ?_
  rintro rfl
  rw [hfirst] at hc
  cases hc
  rw [find_any] at hm
  cases hm

/-- A member of a class below the one that is found does not matter. -/
theorem Resolves.add_below {lro : List LRONode} {b : KlassPtr} {j : Nat} {m : MNode}
    (h : Resolves ks lro b name j m) (hnodup : (order lro).Nodup) {c j' : Nat}
    (hc : (order lro)[j']? = some (.new c)) (hlt : j' < j) (k' : Klass) :
    Resolves (ks.set c k') lro b name j m := by
  have hother : ∀ {i : Nat} {d : KlassPtr}, j' ≠ i → (order lro)[i]? = some d →
      mtbl (ks.set c k') d = mtbl ks d := by
    intro i d hne hd
    cases d with
    | Any_Klass => rfl
    | new e =>
      have hce : c ≠ e := by
        rintro rfl
        obtain ⟨h₁, hget₁⟩ := List.getElem?_eq_some_iff.mp hc
        obtain ⟨h₂, hget₂⟩ := List.getElem?_eq_some_iff.mp hd
        exact hne (hnodup.getElem_inj_iff.mp (hget₁.trans hget₂.symm))
      rw [mtbl, mtbl, List.getElem?_set_ne hce]
  obtain ⟨i, d, hi, hd, hsearched, hm⟩ := h.found
  refine ⟨⟨i, d, hi, hd, hsearched, ?_⟩, fun i j₁ d hi hj₁ hsearched hd => ?_⟩
  · rw [hother (Nat.ne_of_lt hlt) hd, hm]
  · rw [hother (by omega) hd]
    exact h.highest i j₁ d hi hj₁ hsearched hd

/-- Method resolution follows the line order. -/
theorem Classes.Get_Method_dispatches (h : Classes ks) (hk : ks[n]? = some k)
    (hbase : ∀ b, base = some b → b ∈ order k.lro) (name : CString) :
    Dispatches ks n k base name := by
  obtain ⟨hnodup, hfirst, hlast⟩ := h.line_order hk
  have hmem : base.getD (.new n) ∈ order k.lro := by
    cases base with
    | none => exact List.mem_of_getLast? hlast
    | some b => exact hbase b rfl
  obtain ⟨i, hi⟩ := List.mem_iff_getElem?.mp hmem
  have hfound : ∀ {j m}, Resolves ks k.lro (base.getD (.new n)) name j m →
      __get_m ks k.lro name (base.getD (.new n)) = .ok (some m) := fun hres =>
    get_m_found hnodup hi (hres.pos hfirst) hres
  refine ⟨fun j m code hres hm => ?_, fun j m hres hm => ?_, fun hnone => ?_,
    fun j m hres call c j' hklazz hc hlt ks' hcall => ?_⟩
  · rw [Get_Method_of_get_m hk (hfound hres)]
    simp only [hm]
  · rw [Get_Method_of_get_m hk (hfound hres)]
    dsimp only
    split
    · next code hcode => exact absurd hcode (hm code)
    · rfl
  · have hall : ∀ j c, Searched name i j → (order k.lro)[j]? = some c →
        Find_MNode (mtbl ks c) (member_name name) = none := by
      refine (exists_resolves hnodup hi).resolve_left fun hsome => hnone hsome
    rw [Get_Method_of_get_m hk (get_m_none hnodup hi hall)]
  · obtain ⟨k₀, k', m', hk₀, rfl, _⟩ := ClassCall.run_member hklazz hcall
    have hne : c ≠ n := by
      rintro rfl
      obtain ⟨_, d, _, hd, _⟩ := hres.found
      have hlen := (List.getElem?_eq_some_iff.mp hd).1
      rw [List.getLast?_eq_getElem?] at hlast
      obtain ⟨h₁, hget₁⟩ := List.getElem?_eq_some_iff.mp hc
      obtain ⟨h₂, hget₂⟩ := List.getElem?_eq_some_iff.mp hlast
      have hsame := hnodup.getElem_inj_iff.mp (hget₁.trans hget₂.symm)
      omega
    have hk' : (ks.set c k')[n]? = some k := by rw [List.getElem?_set_ne hne, hk]
    have hres' := hres.add_below hnodup hc hlt k'
    rw [Get_Method_of_get_m hk (hfound hres),
      Get_Method_of_get_m hk' (get_m_found hnodup hi (hres.pos hfirst) hres')]

end dispatch

end classes

section instances

/-- A method `x` of native code. -/
def method_x : CodeObject := ⟨1, x, ⟨[], []⟩, false, none⟩

/-- A class with the method `x`, and a class over it. -/
def derived : Klasses :=
  [⟨x, HashTable_Insert Buckets.init ⟨x, .FUNC_KIND method_x⟩, 0, 0,
    [⟨0, .Any_Klass⟩, ⟨0, .new 0⟩], none⟩,
  ⟨x, Buckets.init, 0, 0, [⟨0, .Any_Klass⟩, ⟨0, .new 0⟩, ⟨0, .new 1⟩], none⟩]

theorem classes_derived : Classes derived :=
  let base : Classes [⟨x, Buckets.init, 0, 0, [⟨0, .Any_Klass⟩, ⟨0, .new 0⟩], none⟩] :=
    Classes.nil.call (.Klass_New x []) rfl
  (base.call (.Klass_Add_Method 0 method_x) rfl).call (.Klass_New x [0]) rfl

theorem Get_Method_dispatches_derived :
    ∃ k, derived[1]? = some k ∧ Dispatches derived 1 k none x := by
  refine ⟨_, rfl, classes_derived.Get_Method_dispatches rfl ?_ x⟩
  intro b hb
  cases hb

/-- The class over the other one gets a field of the name of its method. -/
theorem Get_Method_field : ∃ ks k, Classes ks ∧ ks[1]? = some k ∧
    (∃ m, Resolves ks k.lro (.new 1) x 2 m) ∧ Get_Method ks 1 none x = .error .assertion := by
  refine ⟨_, _, classes_derived.call (.Klass_Add_Field 1 x (.base .BASE_INT)) rfl, rfl,
    ⟨⟨x, .VAR_KIND (.base .BASE_INT) 0⟩, ?_⟩, rfl⟩
  refine ⟨⟨2, .new 1, rfl, rfl, Nat.le_refl 2, rfl⟩, fun i j c _ hlt _ hc => ?_⟩
  obtain ⟨hlen, _⟩ := List.getElem?_eq_some_iff.mp hc
  exact absurd hlen (Nat.not_lt.mpr hlt)

end instances

end koala.members
