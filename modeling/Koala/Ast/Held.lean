import Koala.Ast.Actions
import Koala.Ast.Descs
import Koala.Ast.Owned

open koala.parser koala.typedesc

namespace koala.ast

set_option linter.style.nameCheck false

/-- A state that is reached from the descriptors `s₀` without freeing any: what
was done leads to `s`, where the references `held` and the nodes `nodes` are
owned. -/
structure Holds (s₀ : Descs) (st : State) (s : Descs) (held : List TypeDesc) (nodes : List Nat) :
    Prop where
  run : play st.mem.changes s₀ = .ok s
  grows : Grows s₀ s
  counted : Counted s held
  owned : st.mem.Owned nodes

section holds

variable {s₀ s s' : Descs} {st st' : State} {held held' : List TypeDesc} {nodes nodes' : List Nat}
  {desc : Option TypeDesc} {t : TypeDesc}

theorem play_append (changes changes' : List Change) (s : Descs) :
    play (changes ++ changes') s = play changes s >>= play changes' := by
  induction changes generalizing s with
  | nil => rfl
  | cons c changes ih =>
    rw [List.cons_append, play, play, bind_assoc]
    exact congrArg (c.play s >>= ·) (funext ih)

theorem Holds.perm (h : Holds s₀ st s held nodes) (hheld : held.Perm held')
    (hnodes : nodes.Perm nodes') : Holds s₀ st s held' nodes' where
  run := h.run
  grows := h.grows
  counted := h.counted.perm hheld
  owned := h.owned.subperm hnodes.symm.subperm

/-- Something is done with a descriptor. -/
theorem Holds.change {c : Change} (h : Holds s₀ st s held nodes) (hplay : c.play s = .ok s')
    (hgrows : Grows s s') (hcounted : Counted s' held') : Holds s₀ (st.change c) s' held' nodes where
  run := by
    change play (st.mem.changes ++ [c]) s₀ = .ok s'
    rw [play_append, h.run, ok_bind, play, hplay]
    rfl
  grows := h.grows.trans hgrows
  counted := hcounted
  owned := ⟨h.owned.nodup, h.owned.live, h.owned.old, h.owned.freed_old⟩

theorem Holds.get (h : Holds s₀ st s held nodes) (hparts : ∀ p ∈ parts t, p ∈ s.table) :
    ∃ s', Holds s₀ (st.change (.GET t)) s' held nodes ∧ Grows s s' ∧ t ∈ s'.table := by
  obtain ⟨s', hplay, hcounted, hgrows, ht⟩ := h.counted.get hparts
  exact ⟨s', h.change hplay hgrows hcounted, hgrows, ht⟩

theorem Holds.proto {arg ret : List TypeDesc} (h : Holds s₀ st s (arg ++ ret ++ held) nodes) :
    ∃ s', Holds s₀ (st.change (.PROTO arg ret)) s' held nodes ∧ Grows s s' ∧
      .proto arg ret ∈ s'.table := by
  obtain ⟨s', hplay, hcounted, hgrows, ht⟩ := h.counted.proto
  exact ⟨s', h.change hplay hgrows hcounted, hgrows, ht⟩

theorem TYPE_INCREF_some (st : State) (t : TypeDesc) :
    st.TYPE_INCREF (some t) = st.change (.INCREF t) := rfl

theorem TYPE_INCREF_none (st : State) : st.TYPE_INCREF none = st := by
  simp [State.TYPE_INCREF, Memory.TYPE_INCREF]

theorem TYPE_DECREF_some (st : State) (t : TypeDesc) :
    st.TYPE_DECREF (some t) = st.change (.DECREF t) := rfl

theorem TYPE_DECREF_none (st : State) : st.TYPE_DECREF none = st := by
  simp [State.TYPE_DECREF, Memory.TYPE_DECREF]

theorem Grows.raise (s : Descs) (t : TypeDesc) : Grows s (s.raise t) := ⟨rfl, List.prefix_rfl⟩

theorem Grows.lower (s : Descs) (t : TypeDesc) : Grows s (s.lower t) := ⟨rfl, List.prefix_rfl⟩

theorem Holds.incref (h : Holds s₀ st s held nodes) (hdesc : ∀ t ∈ desc, t ∈ s.table) :
    ∃ s', Holds s₀ (st.TYPE_INCREF desc) s' (desc.toList ++ held) nodes ∧ Grows s s' := by
  cases desc with
  | none =>
    rw [TYPE_INCREF_none]
    exact ⟨s, h, .refl s⟩
  | some t =>
    have ht := hdesc t rfl
    refine ⟨s.raise t, ?_, .raise s t⟩
    exact h.change (if_pos ht) (.raise s t) (h.counted.incref ht)

theorem Holds.decref (h : Holds s₀ st s (desc.toList ++ held) nodes) :
    ∃ s', Holds s₀ (st.TYPE_DECREF desc) s' held nodes ∧ Grows s s' := by
  cases desc with
  | none =>
    rw [TYPE_DECREF_none]
    exact ⟨s, h, .refl s⟩
  | some t =>
    refine ⟨s.lower t, ?_, .lower s t⟩
    exact h.change h.counted.decref (.lower s t) h.counted.lower

theorem Holds.malloc (h : Holds s₀ st s held nodes) :
    Holds s₀ st.Malloc.2 s held (st.Malloc.1 :: nodes) := by
  rw [st.Malloc_eq]
  refine ⟨?_, h.grows, h.counted, ?_⟩
  · have hrun := h.run
    rw [← List.append_nil st.mem.changes] at hrun
    exact hrun
  · have hallocated := h.owned.allocated 1 []
    rw [List.range'_one] at hallocated
    exact hallocated

theorem Holds.error (h : Holds s₀ st s held nodes) (pos : Position) (fmt : String) :
    Holds s₀ (st.Syntax_Error pos fmt) s held nodes := ⟨h.run, h.grows, h.counted, h.owned⟩

/-- A node of an expression is made. -/
theorem Holds.new_expr (h : Holds s₀ st s held nodes) (pos : Position)
    (hdesc : ∀ t ∈ desc, t ∈ s.table) : ∃ hd st' s', new_expr pos desc st = (hd, st') ∧
      hd.desc = desc ∧ Holds s₀ st' s' (desc.toList ++ held) (hd.addr :: nodes) ∧ Grows s s' := by
  obtain ⟨s', hs', hgrows⟩ := h.malloc.incref hdesc
  exact ⟨_, _, s', rfl, rfl, hs', hgrows⟩

/-- References that are given back one after the other. -/
theorem Holds.drops {drops : List TypeDesc} (h : Holds s₀ st s (drops ++ held) nodes) :
    ∃ s', Holds s₀ (st.released [] drops) s' held nodes ∧ Grows s s' := by
  induction drops generalizing st s with
  | nil =>
    refine ⟨s, ?_, .refl s⟩
    rw [State.released, st.mem.release_nil]
    exact h
  | cons t drops ih =>
    obtain ⟨s₁, h₁, hgrows₁⟩ := @Holds.decref s₀ s st _ nodes (some t) h
    obtain ⟨s₂, h₂, hgrows₂⟩ := ih h₁
    refine ⟨s₂, ?_, hgrows₁.trans hgrows₂⟩
    have hmem : (st.mem.release [] [t]).release [] drops = st.mem.release [] (t :: drops) :=
      st.mem.release_release
    rw [State.released, ← hmem]
    exact h₂

/-- Nodes are freed with the references that they hold. -/
theorem Holds.released {drops : List TypeDesc} (h : Holds s₀ st s (drops ++ held) (nodes ++ nodes')) :
    ∃ s', Holds s₀ (st.released nodes drops) s' held nodes' ∧ Grows s s' := by
  obtain ⟨s', h', hgrows⟩ := h.drops
  exact ⟨s', ⟨h'.run, h'.grows, h'.counted, h.owned.release drops⟩, hgrows⟩

end holds

end koala.ast

open koala.parser koala.typedesc

namespace koala.ast

set_option linter.style.nameCheck false

section items

variable {s₀ s : Descs} {st : State} {held : List TypeDesc} {nodes : List Nat}

/-- A reference is taken to each of the types, which are known. -/
theorem Holds.proto_items (h : Holds s₀ st s held nodes) {vec : List IdType}
    (hknown : ∀ t ∈ IdType.drops vec, t ∈ s.table) : ∃ st' s',
      proto_items vec st = (vec.map IdType.type, st') ∧
        Holds s₀ st' s' (IdType.drops vec ++ held) nodes ∧ Grows s s' := by
  induction vec generalizing st s held with
  | nil => exact ⟨st, s, rfl, h, .refl s⟩
  | cons idtype vec ih =>
    rw [IdType.drops, List.flatMap_cons] at hknown
    obtain ⟨s₁, h₁, hgrows₁⟩ := h.incref fun t ht =>
      hknown t (List.mem_append_left _ (Option.mem_toList.mpr ht))
    obtain ⟨st₂, s₂, hrun, h₂, hgrows₂⟩ := ih h₁ fun t ht =>
      hgrows₁.mem (hknown t (List.mem_append_right _ ht))
    refine ⟨st₂, s₂, ?_, h₂.perm ?_ (.refl _), hgrows₁.trans hgrows₂⟩
    · rw [ast.proto_items, List.map_cons]
      exact congrArg (fun p => (idtype.type :: p.1, p.2)) hrun
    · rw [IdType.drops, IdType.drops, List.flatMap_cons, List.append_assoc]
      exact List.perm_append_comm_assoc _ _ _

theorem derefs_eq_ok {vec : List IdType} {types : List TypeDesc}
    (hderefs : derefs (vec.map IdType.type) = .ok types) : IdType.drops vec = types := by
  induction vec generalizing types with
  | nil =>
    cases hderefs
    rfl
  | cons idtype vec ih =>
    rw [List.map_cons, derefs, bind_eq_ok_iff] at hderefs
    obtain ⟨t, ht, hrest⟩ := hderefs
    obtain ⟨ts, hts, hcons⟩ := bind_eq_ok_iff.mp hrest
    cases hcons
    rw [IdType.drops, List.flatMap_cons, deref_eq_ok_iff.mp ht]
    exact congrArg (t :: ·) (ih hts)

/-- The parameters and results of a function type are freed. -/
theorem free_lists_eq (args rets : List IdType) (st : State) :
    { st with mem := Free_IdTypeList rets (Free_IdTypeList args st.mem) } =
      st.released [] (IdType.drops args ++ IdType.drops rets) := by
  rw [Free_IdTypeList_eq, Free_IdTypeList_eq, Memory.release_release]
  rfl

end items

namespace grammar

variable (extstbl : List CString)

def KlassType.desc (type : KlassType) : Option TypeDesc :=
  match type.pkg with
  | none => some (.klass none type.klazz.name)
  | some id => if id.name ∈ extstbl then some (.klass none type.klazz.name) else none

def KeyType.desc : KeyType → Option TypeDesc
  | .INTEGER => some (.base .BASE_INT)
  | .STRING => some (.base .BASE_STRING)
  | .KlassType klass => klass.desc extstbl

mutual

/-- The descriptor of a type, if it has one. -/
def BaseType.desc : BaseType → Option TypeDesc
  | .PrimitiveType type => some (.base type)
  | .KlassType klass => klass.desc extstbl
  | .FunctionType params rets =>
    match derefs params.types, derefs rets.types with
    | .ok arg, .ok ret => some (.proto arg ret)
    | _, _ => none
  | .MapType key val =>
    match key.desc extstbl, val.desc with
    | some key, some val => some (.map key val)
    | _, _ => none
  | .SetType key => (key.desc extstbl).map .set

def Ty.desc : Ty → Option TypeDesc
  | .BaseType base => base.desc
  | .ArrayType dims base => base.desc.map (.array dims)

def IDTypes.types : IDTypes → List (Option TypeDesc)
  | .nil => []
  | .cons _ type rest => type.desc :: rest.types
  | .varg _ none => [some (.varg (.base .BASE_ANY))]
  | .varg _ (some base) => [some (.varg (base.desc.getD (.base .BASE_ANY)))]

end

mutual

/-- No `NULL` is followed. -/
def BaseType.Defined : BaseType → Prop
  | .PrimitiveType _ => True
  | .KlassType _ => True
  | .FunctionType params rets => params.Defined ∧ rets.Defined ∧
    ((BaseType.FunctionType params rets).desc extstbl).isSome = true
  | .MapType key val => val.Defined ∧ ((BaseType.MapType key val).desc extstbl).isSome = true
  | .SetType key => ((BaseType.SetType key).desc extstbl).isSome = true

def Ty.Defined : Ty → Prop
  | .BaseType base => base.Defined
  | .ArrayType _ base => base.Defined ∧ (base.desc extstbl).isSome = true

def IDTypes.Defined : IDTypes → Prop
  | .nil => True
  | .cons _ type rest => type.Defined ∧ rest.Defined
  | .varg _ none => True
  | .varg _ (some base) => base.Defined

end

section types

variable {extstbl} {s₀ s : Descs} {st : State} {held : List TypeDesc} {nodes : List Nat}

theorem KlassType.build_holds (type : KlassType) (h : Holds s₀ st s held nodes) :
    ∃ st' s', type.build extstbl st = (type.desc extstbl, st') ∧ Holds s₀ st' s' held nodes ∧
      Grows s s' ∧ ∀ t ∈ type.desc extstbl, t ∈ s'.table := by
  obtain ⟨pkg, klazz⟩ := type
  obtain ⟨s', h', hgrows, ht⟩ := @Holds.get s₀ s st held nodes (.klass none klazz.name) h
    (List.forall_mem_nil _)
  have hmem : ∀ t ∈ some (TypeDesc.klass none klazz.name), t ∈ s'.table := by
    rintro t ⟨⟩
    exact ht
  cases pkg with
  | none => exact ⟨_, s', rfl, h', hgrows, hmem⟩
  | some id =>
    unfold KlassType.build Parser_New_KlassType KlassType.desc
    dsimp only
    split
    · exact ⟨_, s', rfl, h', hgrows, hmem⟩
    · exact ⟨_, s, rfl, h.error _ _, .refl s, nofun⟩

theorem KeyType.build_holds (type : KeyType) (h : Holds s₀ st s held nodes) :
    ∃ st' s', type.build extstbl st = (type.desc extstbl, st') ∧ Holds s₀ st' s' held nodes ∧
      Grows s s' ∧ ∀ t ∈ type.desc extstbl, t ∈ s'.table := by
  cases type with
  | KlassType klass => exact klass.build_holds h
  | INTEGER | STRING =>
    refine ⟨st, s, rfl, h, .refl s, ?_⟩
    rintro t ⟨⟩
    exact h.counted.basic _

/-- The descriptor of an array or a set is made of one that is known. -/
theorem get_part {t u : TypeDesc} (h : Holds s₀ st s held nodes) (hparts : parts u = [t])
    (ht : t ∈ s.table) : ∃ s', Holds s₀ (st.change (.GET u)) s' held nodes ∧ Grows s s' ∧
      ∀ v ∈ some u, v ∈ s'.table := by
  obtain ⟨s', h', hgrows, hu⟩ := @Holds.get s₀ s st held nodes u h
    (by rw [hparts]; exact List.forall_mem_singleton.mpr ht)
  refine ⟨s', h', hgrows, ?_⟩
  rintro v ⟨⟩
  exact hu

mutual

theorem BaseType.build_holds (base : BaseType) {s : Descs} {st : State} {held : List TypeDesc}
    (h : Holds s₀ st s held nodes) (hdefined : base.Defined extstbl) : ∃ st' s',
      base.build extstbl st = .ok (base.desc extstbl, st') ∧ Holds s₀ st' s' held nodes ∧
        Grows s s' ∧ ∀ t ∈ base.desc extstbl, t ∈ s'.table := by
  cases base with
  | PrimitiveType type =>
    refine ⟨st, s, by rw [BaseType.build, BaseType.desc], h, .refl s, ?_⟩
    rw [BaseType.desc]
    rintro t ⟨⟩
    exact h.counted.basic type
  | KlassType klass =>
    obtain ⟨st', s', hrun, hrest⟩ := klass.build_holds h
    refine ⟨st', s', by rw [BaseType.build, BaseType.desc, hrun], ?_⟩
    rw [BaseType.desc]
    exact hrest
  | FunctionType params rets =>
    rw [BaseType.Defined] at hdefined
    obtain ⟨hparams, hrets, hdesc⟩ := hdefined
    obtain ⟨pvec, st₁, s₁, hrun₁, htypes₁, h₁, hgrows₁⟩ := params.build_holds h hparams
    obtain ⟨rvec, st₂, s₂, hrun₂, htypes₂, h₂, hgrows₂⟩ := rets.build_holds h₁ hrets
    obtain ⟨st₃, s₃, hrun₃, h₃, hgrows₃⟩ := h₂.proto_items fun t ht =>
      h₂.counted.held_mem t (List.mem_append_right _ (List.mem_append_left _ ht))
    obtain ⟨st₄, s₄, hrun₄, h₄, hgrows₄⟩ := h₃.proto_items fun t ht =>
      h₃.counted.held_mem t (List.mem_append_right _ (List.mem_append_left _ ht))
    rw [BaseType.desc] at hdesc
    cases harg : derefs (params.types extstbl) with
    | error e =>
      rw [harg] at hdesc
      cases hdesc
    | ok arg =>
      cases hret : derefs (rets.types extstbl) with
      | error e =>
        rw [harg, hret] at hdesc
        cases hdesc
      | ok ret =>
        have hpvec := derefs_eq_ok (htypes₁ ▸ harg)
        have hrvec := derefs_eq_ok (htypes₂ ▸ hret)
        rw [hpvec, hrvec] at h₄
        have hperm : (ret ++ (arg ++ (ret ++ (arg ++ held)))).Perm
            (arg ++ ret ++ (arg ++ ret ++ held)) := by
          refine List.perm_iff_count.mpr fun t => ?_
          simp only [List.count_append]
          omega
        obtain ⟨s₅, h₅, hgrows₅, hproto⟩ := (h₄.perm hperm (.refl _)).proto
        obtain ⟨s₆, h₆, hgrows₆⟩ := h₅.drops
        have hgrows := ((hgrows₁.trans hgrows₂).trans (hgrows₃.trans hgrows₄)).trans
          (hgrows₅.trans hgrows₆)
        rw [BaseType.build, BaseType.desc, hrun₁, ok_bind]
        dsimp only
        rw [hrun₂, ok_bind]
        dsimp only
        rw [hrun₃]
        dsimp only
        rw [hrun₄, TypeDesc_Get_Proto, htypes₁, htypes₂, harg, ok_bind, hret, ok_bind, ok_bind]
        dsimp only
        rw [free_lists_eq, hpvec, hrvec]
        refine ⟨_, s₆, rfl, h₆, hgrows, ?_⟩
        rintro t ⟨⟩
        exact hgrows₆.mem hproto
  | MapType key val =>
    rw [BaseType.Defined, BaseType.desc] at hdefined
    obtain ⟨st₁, s₁, hrun₁, h₁, hgrows₁, hkey⟩ := key.build_holds h
    obtain ⟨st₂, s₂, hrun₂, h₂, hgrows₂, hval⟩ := val.build_holds h₁ hdefined.1
    rw [BaseType.build, BaseType.desc, hrun₁]
    dsimp only
    rw [hrun₂, ok_bind]
    cases hk : key.desc extstbl with
    | none =>
      rw [hk] at hdefined
      cases hdefined.2
    | some k =>
      cases hv : val.desc extstbl with
      | none =>
        rw [hk, hv] at hdefined
        cases hdefined.2
      | some v =>
        obtain ⟨s', h', hgrows, ht⟩ := @Holds.get s₀ s₂ st₂ held nodes (.map k v) h₂ <| by
          refine List.forall_mem_cons.mpr ⟨hgrows₂.mem (hkey k hk), ?_⟩
          exact List.forall_mem_singleton.mpr (hval v hv)
        refine ⟨_, s', rfl, h', (hgrows₁.trans hgrows₂).trans hgrows, ?_⟩
        rintro t ⟨⟩
        exact ht
  | SetType key =>
    rw [BaseType.Defined, BaseType.desc] at hdefined
    obtain ⟨st₁, s₁, hrun₁, h₁, hgrows₁, hkey⟩ := key.build_holds h
    rw [BaseType.build, BaseType.desc, hrun₁]
    cases hk : key.desc extstbl with
    | none =>
      rw [hk] at hdefined
      cases hdefined
    | some k =>
      obtain ⟨s', h', hgrows, ht⟩ := get_part h₁ (rfl : parts (.set k) = [k]) (hkey k hk)
      exact ⟨_, s', rfl, h', hgrows₁.trans hgrows, ht⟩

theorem Ty.build_holds (type : Ty) {s : Descs} {st : State} {held : List TypeDesc}
    (h : Holds s₀ st s held nodes) (hdefined : type.Defined extstbl) : ∃ st' s',
      type.build extstbl st = .ok (type.desc extstbl, st') ∧ Holds s₀ st' s' held nodes ∧
        Grows s s' ∧ ∀ t ∈ type.desc extstbl, t ∈ s'.table := by
  cases type with
  | BaseType base =>
    rw [Ty.Defined] at hdefined
    rw [Ty.build, Ty.desc]
    exact base.build_holds h hdefined
  | ArrayType dims base =>
    rw [Ty.Defined] at hdefined
    obtain ⟨st₁, s₁, hrun₁, h₁, hgrows₁, hbase⟩ := base.build_holds h hdefined.1
    rw [Ty.build, Ty.desc, hrun₁, ok_bind]
    cases hb : base.desc extstbl with
    | none =>
      rw [hb] at hdefined
      cases hdefined.2
    | some b =>
      obtain ⟨s', h', hgrows, ht⟩ := get_part h₁ (rfl : parts (.array dims b) = [b]) (hbase b hb)
      exact ⟨_, s', rfl, h', hgrows₁.trans hgrows, ht⟩

theorem IDTypes.build_holds (list : IDTypes) {s : Descs} {st : State} {held : List TypeDesc}
    (h : Holds s₀ st s held nodes) (hdefined : list.Defined extstbl) : ∃ vec st' s',
      list.build extstbl st = .ok (vec, st') ∧ vec.map IdType.type = list.types extstbl ∧
        Holds s₀ st' s' (IdType.drops vec ++ held) nodes ∧ Grows s s' := by
  cases list with
  | nil => exact ⟨[], st, s, by rw [IDTypes.build], by rw [IDTypes.types, List.map_nil], h, .refl s⟩
  | cons id type rest =>
    rw [IDTypes.Defined] at hdefined
    obtain ⟨st₁, s₁, hrun₁, h₁, hgrows₁, htype⟩ := type.build_holds h hdefined.1
    obtain ⟨s₂, h₂, hgrows₂⟩ := h₁.incref htype
    obtain ⟨vec, st₃, s₃, hrun₃, htypes, h₃, hgrows₃⟩ := rest.build_holds h₂ hdefined.2
    refine ⟨⟨id, type.desc extstbl⟩ :: vec, st₃, s₃, ?_, ?_, h₃.perm ?_ (.refl _),
      (hgrows₁.trans hgrows₂).trans hgrows₃⟩
    · rw [IDTypes.build, hrun₁, ok_bind]
      dsimp only [New_IdType]
      rw [hrun₃]
      rfl
    · rw [IDTypes.types, List.map_cons, htypes]
    · rw [IdType.drops, IdType.drops, List.flatMap_cons, List.append_assoc]
      exact List.perm_append_comm_assoc _ _ _
  | varg id base =>
    cases base with
    | none =>
      obtain ⟨s₁, h₁, hgrows₁, ht⟩ := get_part h
        (rfl : parts (.varg (.base .BASE_ANY)) = [.base .BASE_ANY]) (h.counted.basic _)
      obtain ⟨s₂, h₂, hgrows₂⟩ := h₁.incref ht
      exact ⟨_, _, s₂, by rw [IDTypes.build], by rw [IDTypes.types]; rfl, h₂,
        hgrows₁.trans hgrows₂⟩
    | some base =>
      rw [IDTypes.Defined] at hdefined
      obtain ⟨st₁, s₁, hrun₁, h₁, hgrows₁, hbase⟩ := base.build_holds h hdefined
      have hmem : (base.desc extstbl).getD (.base .BASE_ANY) ∈ s₁.table := by
        cases hb : base.desc extstbl with
        | none => exact h₁.counted.basic _
        | some b => exact hbase b hb
      obtain ⟨s₂, h₂, hgrows₂, ht⟩ := get_part h₁ (rfl : parts (.varg
        ((base.desc extstbl).getD (.base .BASE_ANY))) = [_]) hmem
      obtain ⟨s₃, h₃, hgrows₃⟩ := h₂.incref ht
      exact ⟨_, _, s₃, by rw [IDTypes.build, hrun₁, ok_bind], by rw [IDTypes.types]; rfl, h₃,
        (hgrows₁.trans hgrows₂).trans hgrows₃⟩

end

end types

end grammar

end koala.ast
