import Koala.TypeDesc.ParseSafe
import Mathlib.Data.List.Forall2

open koala.stringbuf

namespace koala.typedesc

set_option linter.style.nameCheck false

/-- `descTable`: the descriptors that were made, no two of which have one text. -/
structure DescTable where
  descs : List TypeDesc
  distinct : (descs.map TypeDesc.text).Nodup
  basics : ∀ type : BaseType, .base type ∈ descs

namespace interning

def Init_TypeDesc : DescTable where
  descs := basic_types.map .base
  distinct := by decide
  basics type := by cases type <;> decide

def FindTypeDesc (T : DescTable) (desc : List UInt8) : Option TypeDesc :=
  T.descs.find? fun t => t.text = desc

def new_typedesc (T : DescTable) (desc : TypeDesc) (hnew : FindTypeDesc T desc.text = none) :
    DescTable where
  descs := T.descs ++ [desc]
  distinct := by
    rw [List.map_append, List.map_singleton, List.nodup_append]
    refine ⟨T.distinct, List.pairwise_singleton _ _, ?_⟩
    rintro _ hmem _ hlast rfl
    obtain ⟨t, ht, htext⟩ := List.mem_map.mp hmem
    have hne := List.find?_eq_none.mp hnew t ht
    rw [List.mem_singleton] at hlast
    exact hne (decide_eq_true (htext.trans hlast))
  basics type := List.mem_append_left _ (T.basics type)

/-- What the constructors do with the text that they have spelled: the descriptor that
has it already is returned, and a new one is made where there is none. -/
def get (T : DescTable) (desc : TypeDesc) : TypeDesc × DescTable :=
  match hfind : FindTypeDesc T desc.text with
  | some exist => (exist, T)
  | none => (desc, new_typedesc T desc hfind)

def TypeDesc_Get_Klass (T : DescTable) (path : Str) (type : CString) : TypeDesc × DescTable :=
  get T (.klass path type)

def TypeDesc_Get_Proto (T : DescTable) (arg ret : List TypeDesc) : TypeDesc × DescTable :=
  get T (.proto arg ret)

def TypeDesc_Get_Array (T : DescTable) (dims : BitVec 32) (base : TypeDesc) :
    TypeDesc × DescTable :=
  get T (.array dims base)

def TypeDesc_Get_Map (T : DescTable) (key val : TypeDesc) : TypeDesc × DescTable :=
  get T (.map key val)

def TypeDesc_Get_Set (T : DescTable) (base : TypeDesc) : TypeDesc × DescTable :=
  get T (.set base)

def TypeDesc_Get_Varg (T : DescTable) (base : TypeDesc) : TypeDesc × DescTable :=
  get T (.varg base)

def string_to_klass (T : DescTable) (s : List UInt8) (len : Nat) : Res (TypeDesc × DescTable) :=
  match s.idxOf? '.'.toUInt8 with
  | none => .error .null
  | some dot =>
    if dot < len then
      .ok (TypeDesc_Get_Klass T (some (AtomString_New_NStr s dot))
        (AtomString_New_NStr (s.drop (dot + 1)) (len - dot - 1)))
    else .error .bounds

mutual

/-- The parser on the table: each descriptor is looked up or entered as it is read. -/
def String_To_TypeDesc : Nat → DescTable → List UInt8 → Nat → Nat →
    Res ((TypeDesc × List UInt8) × DescTable)
  | 0, _, _, _, _ => .error .fuel
  | _ + 1, _, [], _, _ => .error .assertion
  | fuel + 1, T, ch :: s, _dims, _varg =>
    if ch = 'L'.toUInt8 then
      match s.idxOf? ';'.toUInt8 with
      | none => .error .bounds
      | some len =>
        if len ≤ INT_MAX then do
          let (desc, T) ← string_to_klass T s len
          .ok ((desc, s.drop (len + 1)), T)
        else .error .overflow
    else if ch = '['.toUInt8 then
      if _dims = 0 ∧ _varg = 0 then
        let dims := ((ch :: s).takeWhile (· = '['.toUInt8)).length
        if dims ≤ INT_MAX then do
          let ((base, s), T) ←
            String_To_TypeDesc fuel T ((ch :: s).dropWhile (· = '['.toUInt8)) dims 0
          let (desc, T) := TypeDesc_Get_Array T (BitVec.ofNat 32 dims) base
          .ok ((desc, s), T)
        else .error .overflow
      else .error .assertion
    else if ch = 'M'.toUInt8 then do
      let ((key, s), T) ← String_To_TypeDesc fuel T s 0 0
      let ((val, s), T) ← String_To_TypeDesc fuel T s 0 0
      let (desc, T) := TypeDesc_Get_Map T key val
      .ok ((desc, s), T)
    else if ch = 'S'.toUInt8 then do
      let ((base, s), T) ← String_To_TypeDesc fuel T s 0 0
      let (desc, T) := TypeDesc_Get_Set T base
      .ok ((desc, s), T)
    else if ch = 'P'.toUInt8 then do
      let ((args, s), T) ← types_until fuel T ':'.toUInt8 s
      let ((rets, s), T) ← types_until fuel T ';'.toUInt8 s
      let (desc, T) := TypeDesc_Get_Proto T args rets
      .ok ((desc, s), T)
    else if ch = '.'.toUInt8 then
      if _dims = 0 ∧ _varg = 0 then
        if s.take 2 = ['.'.toUInt8, '.'.toUInt8] then
          let s := s.drop 2
          if s.head? = some 'A'.toUInt8 then
            let (desc, T) := TypeDesc_Get_Varg T (.base .BASE_ANY)
            .ok ((desc, s.tail), T)
          else do
            let ((base, s), T) ← String_To_TypeDesc fuel T s 0 1
            let (desc, T) := TypeDesc_Get_Varg T base
            .ok ((desc, s), T)
        else .error .assertion
      else .error .assertion
    else
      match get_basic ch with
      | none => .error .assertion
      | some p => if _dims > 0 ∧ _varg > 0 then .error .assertion else .ok ((.base p, s), T)

def types_until : Nat → DescTable → UInt8 → List UInt8 →
    Res ((List TypeDesc × List UInt8) × DescTable)
  | 0, _, _, _ => .error .fuel
  | fuel + 1, T, stop, s =>
    if s.head? = some stop then .ok (([], s.tail), T)
    else do
      let ((base, s), T) ← String_To_TypeDesc fuel T s 0 0
      let ((vec, s), T) ← types_until fuel T stop s
      .ok ((base :: vec, s), T)

end

def typelist : Nat → DescTable → List UInt8 → Res (List TypeDesc × DescTable)
  | 0, _, _ => .error .fuel
  | _ + 1, T, [] => .ok ([], T)
  | fuel + 1, T, ch :: s => do
    let ((desc, s), T) ← String_To_TypeDesc fuel T (ch :: s) 0 0
    let (vec, T) ← typelist fuel T s
    .ok (desc :: vec, T)

def String_ToTypeList (T : DescTable) : Str → Res (Option (List TypeDesc) × DescTable)
  | none => .ok (none, T)
  | some s => do
    let (vec, T) ← typelist (2 * s.bytes.length + 2) T s.bytes
    .ok (some vec, T)

def TypeList_ToString : Option (List TypeDesc) → Str
  | none => none
  | some [] => none
  | some vec => some (CString.ofData (TypeDesc.textList vec))

/-- A descriptor of the table with the text of another. -/
def Alike (T : DescTable) (t u : TypeDesc) : Prop := u ∈ T.descs ∧ u.text = t.text

/-- A run on the table goes wrong where the run without it does, and else returns alike
and only adds to the table. -/
def Follows {α β : Type} (T : DescTable) (R : DescTable → α → β → Prop) (x : Res α)
    (y : Res (β × DescTable)) : Prop :=
  match x with
  | .error e => y = .error e
  | .ok a => ∃ b T', y = .ok (b, T') ∧ T.descs ⊆ T'.descs ∧ R T' a b

section follows

variable {α β : Type} {T : DescTable} {R : DescTable → α → β → Prop}

theorem Follows.bind {γ δ : Type} {Q : DescTable → γ → δ → Prop} {x : Res α}
    {y : Res (β × DescTable)} {f : α → Res γ} {g : β × DescTable → Res (δ × DescTable)}
    (h : Follows T R x y)
    (hf : ∀ a b T', T.descs ⊆ T'.descs → R T' a b → Follows T' Q (f a) (g (b, T'))) :
    Follows T Q (x >>= f) (y >>= g) := by
  cases x with
  | error e =>
    have hy : y = .error e := h
    rw [hy]
    rfl
  | ok a =>
    obtain ⟨b, T', rfl, hsub, hR⟩ := h
    have hrest := hf a b T' hsub hR
    rw [ok_bind, ok_bind]
    cases hfa : f a with
    | error e =>
      rw [hfa] at hrest
      exact hrest
    | ok c =>
      rw [hfa] at hrest
      obtain ⟨d, T'', hg, hsub', hQ⟩ := hrest
      exact ⟨d, T'', hg, fun _ ht => hsub' (hsub ht), hQ⟩

theorem Follows.ite {c : Prop} [Decidable c] {x x' : Res α} {y y' : Res (β × DescTable)}
    (h : Follows T R x y) (h' : Follows T R x' y') :
    Follows T R (if c then x else x') (if c then y else y') := by
  split
  · exact h
  · exact h'

theorem Follows.ok {a : α} {b : β} (h : R T a b) : Follows T R (.ok a) (.ok (b, T)) :=
  ⟨b, T, rfl, List.Subset.refl _, h⟩

theorem Follows.error {e : Fault} : Follows T R (.error e) (.error e) := rfl

theorem Alike.mono {T' : DescTable} {t u : TypeDesc} (h : Alike T t u)
    (hsub : T.descs ⊆ T'.descs) : Alike T' t u := ⟨hsub h.1, h.2⟩

theorem alike_base (type : BaseType) : Alike T (.base type) (.base type) := ⟨T.basics type, rfl⟩

/-- What is looked up or entered has the text that was spelled. -/
theorem get_alike {t u : TypeDesc} (htext : u.text = t.text) :
    T.descs ⊆ (get T u).2.descs ∧ Alike (get T u).2 t (get T u).1 := by
  rw [get]
  split
  · next exist hfind =>
    rw [FindTypeDesc] at hfind
    have heq : exist.text = u.text := by simpa using List.find?_some hfind
    exact ⟨List.Subset.refl _, List.mem_of_find?_eq_some hfind, heq.trans htext⟩
  · exact ⟨List.subset_append_left _ _, List.mem_append_right _ (List.mem_singleton_self u), htext⟩

/-- A descriptor of what was read before ends a step of the parser. -/
theorem follows_get {t u : TypeDesc} (s : List UInt8) (htext : u.text = t.text) :
    Follows T (fun T p q => Alike T p.1 q.1 ∧ p.2 = q.2) (.ok (t, s))
      (.ok (((get T u).1, s), (get T u).2)) := by
  obtain ⟨hsub, halike⟩ := get_alike (T := T) htext
  exact ⟨_, _, rfl, hsub, halike, rfl⟩

theorem follows_klass (s r : List UInt8) (len : Nat) :
    Follows T (fun T p q => Alike T p.1 q.1 ∧ p.2 = q.2)
      (typedesc.string_to_klass s len >>= fun desc => .ok (desc, r))
      (string_to_klass T s len >>= fun p => .ok ((p.1, r), p.2)) := by
  rw [typedesc.string_to_klass, string_to_klass]
  cases s.idxOf? '.'.toUInt8 with
  | none => exact .error
  | some dot =>
    dsimp only
    split
    · exact follows_get r rfl
    · exact .error

end follows

theorem text_proto_congr {args rets args' rets' : List TypeDesc}
    {T : DescTable} (hargs : List.Forall₂ (Alike T) args args')
    (hrets : List.Forall₂ (Alike T) rets rets') :
    (TypeDesc.proto args' rets').text = (TypeDesc.proto args rets).text := by
  have hmap : ∀ {l l' : List TypeDesc}, List.Forall₂ (Alike T) l l' →
      l'.flatMap TypeDesc.text = l.flatMap TypeDesc.text := by
    intro l l' h
    induction h with
    | nil => rfl
    | cons hhead htail ih => rw [List.flatMap_cons, List.flatMap_cons, hhead.2, ih]
  rw [TypeDesc.text_proto, TypeDesc.text_proto, hmap hargs, hmap hrets]

theorem forall₂_mono {T T' : DescTable} {l l' : List TypeDesc} (h : List.Forall₂ (Alike T) l l')
    (hsub : T.descs ⊆ T'.descs) : List.Forall₂ (Alike T') l l' :=
  h.imp fun _ _ halike => halike.mono hsub

/-- On the table the parser reads the same texts, and returns what the table has
for them. -/
theorem parse_follows (fuel : Nat) :
    (∀ (T : DescTable) (s : List UInt8) (dims varg : Nat),
      Follows T (fun T p q => Alike T p.1 q.1 ∧ p.2 = q.2)
        (typedesc.String_To_TypeDesc fuel s dims varg) (String_To_TypeDesc fuel T s dims varg)) ∧
    ∀ (T : DescTable) (stop : UInt8) (s : List UInt8),
      Follows T (fun T p q => List.Forall₂ (Alike T) p.1 q.1 ∧ p.2 = q.2)
        (typedesc.types_until fuel stop s) (types_until fuel T stop s) := by
  induction fuel with
  | zero =>
    refine ⟨fun T s dims varg => ?_, fun T stop s => ?_⟩
    · rw [typedesc.String_To_TypeDesc, String_To_TypeDesc]
      exact .error
    · rw [typedesc.types_until, types_until]
      exact .error
  | succ fuel ih =>
    obtain ⟨ihdesc, ihtypes⟩ := ih
    constructor
    · intro T s dims varg
      cases s with
      | nil =>
        rw [typedesc.String_To_TypeDesc, String_To_TypeDesc]
        exact .error
      | cons ch s =>
        rw [typedesc.String_To_TypeDesc, String_To_TypeDesc]
        refine .ite ?_ (.ite ?_ (.ite ?_ (.ite ?_ (.ite ?_ (.ite ?_ ?_)))))
        · cases s.idxOf? ';'.toUInt8 with
          | none => exact .error
          | some len => exact .ite (follows_klass s _ len) .error
        · refine .ite (.ite ?_ .error) .error
          refine (ihdesc T _ _ 0).bind ?_
          rintro ⟨base, r⟩ ⟨base', r'⟩ T' - ⟨hbase, rfl⟩
          exact follows_get r (by rw [TypeDesc.text, TypeDesc.text, hbase.2])
        · refine (ihdesc T s 0 0).bind ?_
          rintro ⟨key, r⟩ ⟨key', r'⟩ T' - ⟨hkey, rfl⟩
          refine (ihdesc T' r 0 0).bind ?_
          rintro ⟨val, r⟩ ⟨val', r'⟩ T'' - ⟨hval, rfl⟩
          exact follows_get r (by rw [TypeDesc.text, TypeDesc.text, hkey.2, hval.2])
        · refine (ihdesc T s 0 0).bind ?_
          rintro ⟨base, r⟩ ⟨base', r'⟩ T' - ⟨hbase, rfl⟩
          exact follows_get r (by rw [TypeDesc.text, TypeDesc.text, hbase.2])
        · refine (ihtypes T _ s).bind ?_
          rintro ⟨args, r⟩ ⟨args', r'⟩ T' - ⟨hargs, rfl⟩
          refine (ihtypes T' _ r).bind ?_
          rintro ⟨rets, r⟩ ⟨rets', r'⟩ T'' hsub ⟨hrets, rfl⟩
          exact follows_get r (text_proto_congr (forall₂_mono hargs hsub) hrets)
        · refine .ite (.ite (.ite ?_ ?_) .error) .error
          · exact follows_get _ rfl
          · refine (ihdesc T _ 0 1).bind ?_
            rintro ⟨base, r⟩ ⟨base', r'⟩ T' - ⟨hbase, rfl⟩
            exact follows_get r (by rw [TypeDesc.text, TypeDesc.text, hbase.2])
        · cases get_basic ch with
          | none => exact .error
          | some p => exact .ite .error (.ok ⟨alike_base p, rfl⟩)
    · intro T stop s
      rw [typedesc.types_until, types_until]
      refine .ite (.ok ⟨.nil, rfl⟩) ((ihdesc T s 0 0).bind ?_)
      rintro ⟨base, r⟩ ⟨base', r'⟩ T' - ⟨hbase, rfl⟩
      refine (ihtypes T' stop r).bind ?_
      rintro ⟨vec, r⟩ ⟨vec', r'⟩ T'' hsub ⟨hvec, rfl⟩
      exact .ok ⟨.cons (hbase.mono hsub) hvec, rfl⟩

theorem typelist_follows (fuel : Nat) (T : DescTable) (s : List UInt8) :
    Follows T (fun T => List.Forall₂ (Alike T)) (typedesc.typelist fuel s) (typelist fuel T s) := by
  induction fuel generalizing T s with
  | zero => exact .error
  | succ fuel ih =>
    cases s with
    | nil => exact .ok .nil
    | cons ch s =>
      rw [typedesc.typelist, typelist]
      refine ((parse_follows fuel).1 T (ch :: s) 0 0).bind ?_
      rintro ⟨desc, r⟩ ⟨desc', r'⟩ T' - ⟨hdesc, rfl⟩
      refine (ih T' r).bind ?_
      intro vec vec' T'' hsub hvec
      exact .ok (.cons (hdesc.mono hsub) hvec)

/-- On the table a list of descriptors is read as it is without the table. -/
theorem String_ToTypeList_follows (T : DescTable) (s : CString) :
    match typedesc.String_ToTypeList s with
    | .error e => String_ToTypeList T (some s) = .error e
    | .ok vec => ∃ vec' T', String_ToTypeList T (some s) = .ok (some vec', T') ∧
        T.descs ⊆ T'.descs ∧ List.Forall₂ (Alike T') vec vec' := by
  have h := typelist_follows (2 * s.bytes.length + 2) T s.bytes
  rw [typedesc.String_ToTypeList]
  cases hrun : typedesc.typelist (2 * s.bytes.length + 2) s.bytes with
  | error e =>
    rw [hrun] at h
    rw [String_ToTypeList, show typelist _ _ _ = _ from h]
    rfl
  | ok vec =>
    rw [hrun] at h
    obtain ⟨vec', T', hrun', hsub, hvec⟩ := h
    refine ⟨vec', T', ?_, hsub, hvec⟩
    rw [String_ToTypeList, hrun']
    rfl

end interning

end koala.typedesc
