import Koala.DescTable.Interned
import Koala.DescTable.Get

open koala.hashtable koala.stringbuf koala.typedesc refcount

namespace koala.desctable

set_option linter.style.nameCheck false

/-- What callers do: ask for descriptors, and take and release references. -/
inductive Op where
  | Get_Base (base : UInt8)
  | Get_Klass (path : Str) (type : CString)
  | Get_Proto (arg ret : Option (List Addr))
  | Get_Array (dims : Int) (base : Addr)
  | Get_Map (key val : Addr)
  | Get_Set (base : Addr)
  | Get_Varg (base : Option Addr)
  | INCREF (desc : Option Addr)
  | DECREF (desc : Option Addr)

def Op.exec (s : State) : Op → Res State
  | .Get_Base base => do
    let _ ← TypeDesc_Get_Base base
    .ok s
  | .Get_Klass path type => Prod.snd <$> TypeDesc_Get_Klass s path type
  | .Get_Proto arg ret => Prod.snd <$> TypeDesc_Get_Proto s arg ret
  | .Get_Array dims base => Prod.snd <$> TypeDesc_Get_Array s dims base
  | .Get_Map key val => Prod.snd <$> TypeDesc_Get_Map s key val
  | .Get_Set base => Prod.snd <$> TypeDesc_Get_Set s base
  | .Get_Varg base => Prod.snd <$> TypeDesc_Get_Varg s base
  | .INCREF desc => TYPE_INCREF s desc
  | .DECREF desc => TYPE_DECREF s desc

/-- The references that callers hold behind a call. The vectors of `Get_Proto`
carry one reference for each element. -/
def Op.held (held : List Addr) : Op → List Addr
  | .Get_Proto arg ret => held.diff (arg.getD [] ++ ret.getD [])
  | .INCREF (some desc) => desc :: held
  | .DECREF (some desc) => held.erase desc
  | _ => held

/-- Callers pass descriptors that were made, strings whose length fits an
`int`, and release what they hold. -/
def Op.Legal (s : State) (held : List Addr) : Op → Prop
  | .Get_Base base => (get_basic base).isSome
  | .Get_Klass path type => path.Short ∧ Str.Short (some type)
  | .Get_Proto arg ret =>
    ∀ a, (arg.getD [] ++ ret.getD []).count a ≤ held.count a
  | .Get_Array _ base => base < s.heap.length
  | .Get_Map key val => key < s.heap.length ∧ val < s.heap.length
  | .Get_Set base => base < s.heap.length
  | .Get_Varg base => ∀ a ∈ base, a < s.heap.length
  | .INCREF desc => ∀ a ∈ desc, a < s.heap.length
  | .DECREF desc => ∀ a ∈ desc, a ∈ held

/-- The states behind `Init_TypeDesc` and any history of calls. -/
inductive Reaches : State → List Addr → Prop where
  | init {s : State} (hinit : Init_TypeDesc = .ok s) : Reaches s []
  | step {s s' : State} {held : List Addr} {op : Op} (h : Reaches s held)
    (hlegal : op.Legal s held) (hexec : op.exec s = .ok s') : Reaches s' (op.held held)

theorem map_safe {s' : Res (Addr × State)} {held : List Addr}
    (h : Safe (fun r => r.2.Interned held) s') :
    Safe (fun s => s.Interned held) (Prod.snd <$> s') := by
  cases h with
  | ok h => exact .ok h
  | overflow => exact .overflow
  | null => exact .null

/-- A legal call is safe. -/
theorem Op.exec_safe {s : State} {held : List Addr} (h : s.Interned held) {op : Op}
    (hlegal : op.Legal s held) : Safe (fun s' => s'.Interned (op.held held)) (op.exec s) := by
  cases op with
  | Get_Base base =>
    obtain ⟨type, htype⟩ := Option.isSome_iff_exists.mp hlegal
    simp only [Op.exec, TypeDesc_Get_Base, htype, ok_bind]
    exact .ok h
  | Get_Klass path type => exact map_safe (TypeDesc_Get_Klass_safe h hlegal.1 hlegal.2)
  | Get_Proto arg ret =>
    have hperm := List.subperm_append_diff_self_of_count_le fun a _ => hlegal a
    exact map_safe (TypeDesc_Get_Proto_safe (h.perm hperm.symm))
  | Get_Array dims base => exact map_safe (TypeDesc_Get_Array_safe h dims hlegal)
  | Get_Map key val => exact map_safe (TypeDesc_Get_Map_safe h hlegal.1 hlegal.2)
  | Get_Set base => exact map_safe (TypeDesc_Get_Set_safe h hlegal)
  | Get_Varg base => exact map_safe (TypeDesc_Get_Varg_safe h hlegal)
  | INCREF desc =>
    cases desc with
    | none => exact .ok h
    | some a => exact (h.incref (hlegal a rfl)).mono fun s' hs' => hs'.1
  | DECREF desc =>
    cases desc with
    | none =>
      have hrun : TYPE_DECREF s none = .ok s := by
        rw [TYPE_DECREF]
        cases s.heap.length <;> rfl
      exact (congrArg (Safe _) hrun).mpr (.ok h)
    | some a =>
      obtain ⟨m, hrun, hm⟩ := (h.perm (List.perm_cons_erase (hlegal a rfl))).decref
      exact (congrArg (Safe _) hrun).mpr (.ok hm)

theorem Reaches.interned {s : State} {held : List Addr} (h : Reaches s held) : s.Interned held := by
  induction h with
  | init hinit =>
    obtain ⟨s', hs', hbasics⟩ := Init_TypeDesc_basics
    cases hs'.symm.trans hinit
    exact hbasics.interned
  | step h hlegal hexec ih => exact (Op.exec_safe ih hlegal).of_ok hexec

/-- How often a descriptor is a component of interned descriptors. -/
def State.occurrences (s : State) (a : Addr) : Nat :=
  (s.heap.flatMap fun d => d.elim [] fun d => d.body.parts).count a

theorem State.Interned.references_eq {s : State} {held : List Addr} (h : s.Interned held) (a : Addr) :
    (references s.cells).count a = s.occurrences a := by
  rw [references, Memory.cells, List.flatMap_map, State.occurrences]
  congr 1
  refine List.flatMap_congr fun x hx => ?_
  obtain ⟨b, hb⟩ := List.mem_iff_getElem?.mp hx
  obtain ⟨d, hd, hpos⟩ := h.holds (List.getElem?_eq_some_iff.mp hb).1
  cases hb.symm.trans hd
  exact held_of_pos hpos

theorem State.Interned.refcnt {s : State} {held : List Addr} (h : s.Interned held) {a : Addr} {d : Desc}
    (hd : s.Holds a d) (hkind : d.body.kind ≠ .TYPE_BASE) :
    d.refcnt = 1 + held.count a + s.occurrences a := by
  have hcounted := h.owned.balanced.counted hd.cell
  have hbase : ¬ a < basic_types.length := mt (h.owned.base hd).mpr hkind
  have hbase' : a ∉ List.range basic_types.length := fun hmem => hbase (List.mem_range.mp hmem)
  have hmem := List.mem_range.mpr (List.getElem?_eq_some_iff.mp hd).1
  rw [Memory.outside, List.count_append, List.count_append,
    List.count_eq_one_of_mem List.nodup_range hmem, List.count_eq_zero.mpr hbase', Nat.zero_add,
    h.references_eq] at hcounted
  exact hcounted

/-- In every state that callers can reach, all descriptors are in the table, and
a descriptor that is not a base one counts the reference of the table, those of
the callers and its occurrences in others. A call that is legal there fails no
assertion and touches nothing that was freed: it returns, unless an `int`
overflows or a text was lost whole. Once callers hold no reference,
`Fini_TypeDesc` frees each such descriptor once and leaves one reference to each
base descriptor. -/
theorem Reaches.refcnt_exact {s : State} {held : List Addr} (h : Reaches s held) :
    (∃ order, HashTable_Visit s.descTable = some order ∧
      order.map DescNode.addr = List.range s.heap.length) ∧
    (∀ a < s.heap.length, ∃ d, s.Holds a d ∧ (d.body.kind ≠ .TYPE_BASE →
      d.refcnt = 1 + held.count a + s.occurrences a)) ∧
    (∀ op : Op, op.Legal s held → ∀ e, op.exec s = .error e → e = .overflow ∨ e = .null) ∧
    (held = [] → ∃ s', Fini_TypeDesc s = .ok s' ∧ s'.freed.Nodup ∧
      (∀ a, a ∈ s'.freed ↔ ∃ d, s.Holds a d ∧ d.body.kind ≠ .TYPE_BASE) ∧
      ∀ a < basic_types.length, ∃ d, s'.Holds a d ∧ d.body.kind = .TYPE_BASE ∧ d.refcnt = 1) := by
  have hinterned := h.interned
  refine ⟨?_, fun a ha => ?_, fun op hlegal e he => ?_, ?_⟩
  · obtain ⟨order, hrep, haddrs, _⟩ := hinterned.tabled
    obtain ⟨b, hrep, rfl, _⟩ := hrep
    exact ⟨b.order, hrep.visit_eq, haddrs⟩
  · obtain ⟨d, hd, _⟩ := hinterned.holds ha
    exact ⟨d, hd, fun hkind => hinterned.refcnt hd hkind⟩
  · exact (Op.exec_safe hinterned hlegal).fault he
  · rintro rfl
    exact hinterned.fini

section instances

def name_T : CString := ⟨[0x54], by decide⟩

def text_T : CString := ⟨chars "L.T;", by decide⟩

/-- The text of a class is spelled as `L.T;`. -/
theorem spell_klass : ∃ buf, __StringBuf_Format DeclareStringBuf (chars "L#.#;")
    [none, some name_T] = .ok buf ∧ cstr buf = .ok text_T := by
  have hpieces : format_pieces (chars "L#.#;") [none, some name_T] =
      [[0x4c], [], [0x2e], [0x54], [0x3b]] := by decide
  have hfit : AllFit 0 (format_pieces (chars "L#.#;") [none, some name_T]) := by
    rw [hpieces]
    exact ⟨by decide, by decide, by decide, by decide, by decide, trivial⟩
  have hputs : Puts (__StringBuf_Format · (chars "L#.#;") [none, some name_T])
      (format_pieces (chars "L#.#;") [none, some name_T]) :=
    __StringBuf_Format_puts (by decide)
  obtain ⟨buf, hrun, hholds⟩ := hputs.appends (.empty rfl) (by decide) hfit
  have htext : [] ++ (format_pieces (chars "L#.#;") [none, some name_T]).flatten =
      text_T.bytes := by decide
  rw [htext] at hholds
  refine ⟨buf, hrun, ?_⟩
  obtain ⟨bytes, hbytes⟩ : ∃ bytes, bytes = text_T.bytes := ⟨_, rfl⟩
  rw [← hbytes] at hholds
  cases hholds with
  | empty h => cases hbytes
  | stores h =>
    have hsize := h.size
    have hround := le_roundup (bytes.length + 1)
    rw [cstr, h.data]
    refine congrArg Except.ok (CString.ext ?_)
    rw [text_append_zeros h.nonul (by omega), hbytes]

/-- A class descriptor is made and a reference to it is taken. -/
theorem reaches_klass : ∃ s, Reaches s [8] := by
  obtain ⟨s, hinit, hbasics⟩ := Init_TypeDesc_basics
  have hreaches : Reaches s [] := .init hinit
  have hlength : s.heap.length = 8 := by rw [hbasics.heap, List.length_map]; rfl
  obtain ⟨order, htabled⟩ := hbasics.tabled
  have hfresh := mapRep_find desc_equal_equivalence hash_of_desc_equal htabled.rep text_T
  have hnone : ordered_map.find DescNode.desc desc_equal order text_T = none := by
    refine ordered_map.find_eq_none_iff.mpr fun hnode hmem => ?_
    obtain ⟨d, hd, hdesc⟩ := htabled.desc hnode hmem
    obtain ⟨type, rfl⟩ := hbasics.holds hd
    rw [← hdesc, desc_equal, decide_eq_false_iff_not]
    intro heq
    have hbytes := congrArg List.length (basicDesc_desc type)
    rw [heq] at hbytes
    exact absurd hbytes (show text_T.bytes.length ≠ 1 by decide)
  rw [hnone] at hfresh
  obtain ⟨t, hinsert, hnew⟩ := hreaches.interned.insert_fresh hfresh
  obtain ⟨buf, hspell, hcstr⟩ := spell_klass
  have hfind : FindTypeDesc s text_T = .ok none := by
    rw [FindTypeDesc, htabled.touch, ok_bind, hfresh]
    rfl
  have hget : (Op.Get_Klass none name_T).exec s =
      .ok (s.push t ⟨.klass none name_T, text_T, 1⟩) := by
    rw [Op.exec, TypeDesc_Get_Klass, hspell, ok_bind, hcstr, ok_bind, hfind, ok_bind]
    dsimp only
    rw [hnew]
    rfl
  have hlegal : (Op.Get_Klass none name_T).Legal s [] :=
    ⟨Nat.zero_le _, show 1 ≤ INT_MAX by decide⟩
  have hmade := hreaches.step hlegal hget
  have hself : (s.push t ⟨.klass none name_T, text_T, 1⟩).Holds 8 ⟨.klass none name_T, text_T, 1⟩ := by
    rw [← hlength]
    exact List.getElem?_concat_length
  have htake : (Op.INCREF (some 8)).exec (s.push t ⟨.klass none name_T, text_T, 1⟩) = .ok
      ((s.push t ⟨.klass none name_T, text_T, 1⟩).write 8 ⟨.klass none name_T, text_T, 2⟩) := by
    rw [Op.exec, TYPE_INCREF, State.read_eq hself, ok_bind]
    rfl
  have hlt := (List.getElem?_eq_some_iff.mp hself).1
  have hlegal' : (Op.INCREF (some 8)).Legal (s.push t ⟨.klass none name_T, text_T, 1⟩) [] := by
    intro a ha
    rwa [← Option.some.inj ha]
  exact ⟨_, hmade.step hlegal' htake⟩

/-- It has the references of the table and of its caller. -/
theorem refcnt_exact_klass : ∃ s, Reaches s [8] ∧ ∃ d, s.Holds 8 d ∧
    d.refcnt = 2 + s.occurrences 8 := by
  obtain ⟨s, h⟩ := reaches_klass
  have hlt := h.interned.lt_of_held (List.mem_singleton.mpr rfl)
  obtain ⟨d, hd, hrefcnt⟩ := h.refcnt_exact.2.1 8 hlt
  have hkind : d.body.kind ≠ .TYPE_BASE := mt (h.interned.owned.base hd).mp (by decide)
  exact ⟨s, h, d, hd, hrefcnt hkind⟩

end instances

end koala.desctable
