import Koala.DescTable.Interned

open koala.hashtable koala.stringbuf koala.typedesc refcount

namespace koala.desctable

set_option linter.style.nameCheck false

/-- A descriptor is made at the next address. -/
def State.push (s : State) (descTable : HashTable DescNode) (d : Desc) : State :=
  { s with descTable, heap := s.heap ++ [some d] }

section make

variable {s : State} {held : List Addr} {a : Addr}

theorem State.Interned.incref (h : s.Interned held) (ha : a < s.heap.length) :
    Safe (fun s' => s'.Interned (a :: held) ∧ s'.descTable = s.descTable ∧
      s'.heap.length = s.heap.length) (TYPE_INCREF s (some a)) := by
  obtain ⟨d, hd, hpos⟩ := h.holds ha
  rw [TYPE_INCREF, State.read_eq hd, ok_bind]
  refine (Safe.addInt _ _).bind ?_
  rintro n - rfl
  have howned := (h.owned.write hd (h.owned.balanced.take hd.cell hpos)).perm
    (show (a :: s.outside held).Perm (s.outside (a :: held)) from
      List.perm_middle.symm.trans (List.perm_middle.symm.append_left _))
  exact .ok ⟨h.settle howned (Settles.write hd hpos (Nat.succ_pos _)), rfl, List.length_set⟩

/-- The references of a new descriptor are taken. -/
theorem State.Interned.retain {parts : List Addr} (h : s.Interned held)
    (hparts : ∀ p ∈ parts, p < s.heap.length) :
    Safe (fun s' => s'.Interned (parts ++ held) ∧ s'.descTable = s.descTable ∧
      s'.heap.length = s.heap.length) (parts.foldlM (fun s p => TYPE_INCREF s (some p)) s) := by
  induction parts generalizing s held with
  | nil => exact .ok ⟨h, rfl, rfl⟩
  | cons p parts ih =>
    rw [List.foldlM_cons]
    refine (h.incref (hparts p List.mem_cons_self)).bind ?_
    rintro s₁ - ⟨h₁, htable₁, hlength₁⟩
    refine (ih h₁ fun q hq => ?_).mono ?_
    · rw [hlength₁]
      exact hparts q (List.mem_cons_of_mem p hq)
    · rintro s₂ ⟨h₂, htable₂, hlength₂⟩
      exact ⟨h₂.perm List.perm_middle, htable₂.trans htable₁, hlength₂.trans hlength₁⟩

/-- A counter of an earlier descriptor does not depend on the last one. -/
theorem incref_push (descTable : HashTable DescNode) (d : Desc) (ha : a < s.heap.length) :
    TYPE_INCREF (s.push descTable d) (some a) =
      (TYPE_INCREF s (some a)).map fun s => s.push descTable d := by
  have hread : (s.push descTable d).read a = s.read a := by
    rw [State.read, State.read, State.push, List.getElem?_append_left ha]
  rw [TYPE_INCREF, TYPE_INCREF, hread]
  cases s.read a with
  | error e => rfl
  | ok d' =>
    rw [ok_bind, ok_bind]
    cases addInt d'.refcnt 1 with
    | error e => rfl
    | ok n =>
      simp only [ok_bind, Except.map, State.write, State.push, List.set_append_left a _ ha]

theorem retain_push (descTable : HashTable DescNode) (d : Desc) {parts : List Addr}
    (hparts : ∀ p ∈ parts, p < s.heap.length) :
    parts.foldlM (fun s p => TYPE_INCREF s (some p)) (s.push descTable d) =
      (parts.foldlM (fun s p => TYPE_INCREF s (some p)) s).map fun s => s.push descTable d := by
  induction parts generalizing s with
  | nil => rfl
  | cons p parts ih =>
    rw [List.foldlM_cons, List.foldlM_cons, incref_push descTable d (hparts p List.mem_cons_self)]
    cases hincref : TYPE_INCREF s (some p) with
    | error e => rfl
    | ok s₁ =>
      have hlength : s₁.heap.length = s.heap.length := by
        rw [TYPE_INCREF] at hincref
        obtain ⟨d', _, hincref⟩ := bind_eq_ok_iff.mp hincref
        obtain ⟨n, _, hincref⟩ := bind_eq_ok_iff.mp hincref
        cases hincref
        exact List.length_set
      rw [ok_bind, Except.map, ok_bind]
      exact ih fun q hq => hlength ▸ hparts q (List.mem_cons_of_mem p hq)

theorem find_spec (h : s.Interned held) (text : CString) :
    ∃ found, FindTypeDesc s text = .ok found ∧ (found = none →
      HashTable_Find DescNode.desc hash_string desc_equal s.descTable text = some none) := by
  obtain ⟨order, hrep, _, _⟩ := h.tabled
  have hfind := mapRep_find desc_equal_equivalence hash_of_desc_equal hrep text
  refine ⟨_, by rw [FindTypeDesc, h.touch, ok_bind, hfind], fun hnone => ?_⟩
  rw [Option.map_eq_none_iff] at hnone
  rw [hfind, hnone]

theorem push_holds {t : HashTable DescNode} {d d' : Desc} (h : (s.push t d).Holds a d') :
    s.Holds a d' ∨ a = s.heap.length ∧ d' = d := by
  rcases Nat.lt_or_ge a s.heap.length with hlt | hge
  · rw [Memory.Holds, State.push, List.getElem?_append_left hlt] at h
    exact Or.inl h
  · have hlt := (List.getElem?_eq_some_iff.mp h).1
    rw [State.push, List.length_append, List.length_singleton] at hlt
    obtain rfl : a = s.heap.length := Nat.le_antisymm (Nat.le_of_lt_succ hlt) hge
    rw [Memory.Holds, State.push, List.getElem?_concat_length] at h
    cases h
    exact Or.inr ⟨rfl, rfl⟩

theorem State.Interned.owned_pushed {body : Body} (h : s.Interned (body.parts ++ held))
    (hkind : body.kind ≠ .TYPE_BASE) (t : HashTable DescNode) (text : CString) :
    (s.push t ⟨body, text, 1⟩).Owned ((s.push t ⟨body, text, 1⟩).outside held) where
  balanced := by
    have hparts : (s.outside (body.parts ++ held)).Perm (body.parts ++ s.outside held) :=
      ((List.perm_append_comm_assoc _ _ _).append_left _).trans (List.perm_append_comm_assoc _ _ _)
    have hnew := (h.owned.balanced.perm hparts).new
    have houtside : (s.cells.length :: s.outside held).Perm
        ((s.push t ⟨body, text, 1⟩).outside held) := by
      rw [Memory.cells, List.length_map, Memory.outside, Memory.outside, State.push,
        List.length_append, List.length_singleton, List.range_succ, List.append_assoc]
      exact List.perm_middle.symm
    rw [Memory.cells, State.push, List.map_append]
    exact hnew.perm houtside
  base {b d} hd := by
    rcases push_holds hd with hd | ⟨rfl, rfl⟩
    · exact h.owned.base hd
    · exact iff_of_false hkind (Nat.not_lt.mpr h.basics)
  freed := h.owned.freed
  mem_freed b := by
    show b ∈ s.freed ↔ (s.heap ++ [some _])[b]? = some none
    rw [h.owned.mem_freed b]
    rcases Nat.lt_or_ge b s.heap.length with hlt | hge
    · rw [List.getElem?_append_left hlt]
    · rw [List.getElem?_eq_none hge, List.getElem?_append_right hge]
      refine iff_of_false (by simp) fun hnone => ?_
      cases hsub : b - s.heap.length <;> simp [hsub] at hnone

theorem mapStep_insert_fresh {order : List DescNode} (h : s.Tabled order) {text : CString}
    (hfresh : HashTable_Find DescNode.desc hash_string desc_equal s.descTable text = some none) :
    mapStep DescNode.desc desc_equal order (.insert ⟨s.heap.length, text⟩) =
      (order ++ [⟨s.heap.length, text⟩], .code 0) := by
  have hfind := mapRep_find desc_equal_equivalence hash_of_desc_equal h.rep text
  rw [hfresh, Option.some.injEq] at hfind
  have hnew : (⟨s.heap.length, text⟩ : DescNode) ∉ order := by
    intro hmem
    have haddr := List.mem_map_of_mem (f := DescNode.addr) hmem
    rw [h.addrs, List.mem_range] at haddr
    exact Nat.lt_irrefl _ haddr
  simp [mapStep, hnew, ← hfind]

/-- A new text is entered for the next address. -/
theorem State.Interned.insert_fresh (h : s.Interned held) {text : CString}
    (hfresh : HashTable_Find DescNode.desc hash_string desc_equal s.descTable text = some none) :
    ∃ t, HashTable_Insert DescNode.desc hash_string desc_equal s.descTable
      ⟨s.heap.length, text⟩ = some (0, t) ∧ ∀ body, new_typedesc s body text =
        .ok (s.heap.length, s.push t ⟨body, text, 1⟩) := by
  obtain ⟨order, htabled⟩ := h.tabled
  have hstep := mapStep_insert_fresh htabled hfresh
  obtain ⟨r, t, hinsert, hanswer, _⟩ := mapRep_insert desc_equal_equivalence
    hash_of_desc_equal htabled.rep ⟨s.heap.length, text⟩
  rw [hstep] at hanswer
  obtain rfl : (0 : Int) = r := Answer.code.inj hanswer
  refine ⟨t, hinsert, fun body => ?_⟩
  have hrun : insert s ⟨s.heap.length, text⟩ = .ok (0, t) := by
    rw [insert, h.touch, ok_bind, hinsert]
  simp only [new_typedesc, hrun, ok_bind, if_true]
  rfl

/-- A new descriptor takes over the references it is made of. -/
theorem State.Interned.pushed {body : Body} {text : CString} (h : s.Interned (body.parts ++ held))
    (hkind : body.kind ≠ .TYPE_BASE) (htext : text.bytes.length ≤ INT_MAX)
    (hfresh : HashTable_Find DescNode.desc hash_string desc_equal s.descTable text = some none)
    {t : HashTable DescNode} (hinsert : HashTable_Insert DescNode.desc hash_string desc_equal
      s.descTable ⟨s.heap.length, text⟩ = some (0, t)) :
    (s.push t ⟨body, text, 1⟩).Interned held := by
  obtain ⟨order, htabled⟩ := h.tabled
  obtain ⟨r, t', hinsert', _, hrep⟩ := mapRep_insert desc_equal_equivalence
    hash_of_desc_equal htabled.rep ⟨s.heap.length, text⟩
  rw [mapStep_insert_fresh htabled hfresh] at hrep
  cases hinsert.symm.trans hinsert'
  have hold : ∀ {b d}, s.Holds b d → (s.push t ⟨body, text, 1⟩).Holds b d := fun hd =>
    (List.getElem?_append_left (List.getElem?_eq_some_iff.mp hd).1).trans hd
  refine ⟨h.owned_pushed hkind t text, ⟨_, hrep, ?_, fun hnode hmem => ?_⟩, ?_, fun {b d} hd => ?_⟩
  · rw [List.map_append, htabled.addrs, State.push, List.length_append, List.length_singleton,
      List.range_succ]
    rfl
  · rcases List.mem_append.mp hmem with hmem | hmem
    · obtain ⟨d, hd, heq⟩ := htabled.desc hnode hmem
      exact ⟨d, hold hd, heq⟩
    · rw [List.mem_singleton.mp hmem]
      exact ⟨_, List.getElem?_concat_length, rfl⟩
  · rw [State.push, List.length_append]
    exact Nat.le_add_right_of_le h.basics
  · rcases push_holds hd with hd | ⟨_, rfl⟩
    · exact h.short hd
    · exact htext

/-- A new descriptor is made, and then takes its references. -/
theorem State.Interned.new_typedesc {body : Body} {text : CString} (h : s.Interned held)
    (hparts : ∀ p ∈ body.parts, p < s.heap.length) (hkind : body.kind ≠ .TYPE_BASE)
    (htext : text.bytes.length ≤ INT_MAX)
    (hfresh : HashTable_Find DescNode.desc hash_string desc_equal s.descTable text = some none) :
    ∃ desc s₁, new_typedesc s body text = .ok (desc, s₁) ∧
      Safe (fun s' => s'.Interned held)
        (body.parts.foldlM (fun s p => TYPE_INCREF s (some p)) s₁) := by
  obtain ⟨t, hinsert, hnew⟩ := h.insert_fresh hfresh
  refine ⟨_, _, hnew body, ?_⟩
  rw [retain_push t _ hparts]
  have hretain := h.retain hparts
  generalize body.parts.foldlM (fun s p => TYPE_INCREF s (some p)) s = retained at hretain
  cases hretain with
  | overflow => exact .overflow
  | null => exact .null
  | ok h' =>
    obtain ⟨h', htable, hlength⟩ := h'
    rw [← htable] at hfresh hinsert
    rw [← hlength] at hinsert
    exact .ok (h'.pushed hkind htext hfresh hinsert)

end make

section get

variable {s : State} {held : List Addr} {a : Addr}

theorem cstr_safe {buf : StringBuf} {text : List UInt8} (h : buf.Sound text) :
    Safe (fun c => c.bytes.length ≤ INT_MAX) (cstr buf) := by
  cases h with
  | empty h =>
    subst h
    exact .null
  | room h =>
    have hroom := h.room
    have hbound := h.bound
    rw [cstr, h.data]
    refine .ok ?_
    rw [text_append_zeros h.nonul (by omega)]
    omega

/-- The text of a format is spelled in a new buffer. -/
theorem format_safe {fmt : List UInt8} {args : List Str} (hfmt : 0 ∉ fmt)
    (hargs : fmt.count HASH ≤ args.length) (hshort : ∀ s ∈ args, s.Short) :
    Safe (fun buf => ∃ text, buf.Sound text) (__StringBuf_Format DeclareStringBuf fmt args) :=
  (__StringBuf_Format_total hfmt hargs hshort).spells

theorem State.Interned.read (h : s.Interned held) (ha : a < s.heap.length) :
    ∃ d, s.read a = .ok d ∧ Str.Short (some d.desc) := by
  obtain ⟨d, hd, _⟩ := h.holds ha
  exact ⟨d, State.read_eq hd, h.short hd⟩

theorem append_descs_total {vec : List Addr} (h : s.Interned held)
    (hvec : ∀ a ∈ vec, a < s.heap.length) : Total (append_descs s · vec) := by
  induction vec with
  | nil => exact Total.nil
  | cons a vec ih =>
    obtain ⟨d, hread, hshort⟩ := h.read (hvec a List.mem_cons_self)
    have hrest := ih fun b hb => hvec b (List.mem_cons_of_mem a hb)
    simp only [append_descs, List.foldlM_cons, hread, ok_bind]
    exact (__StringBuf_Append_total hshort).bind hrest

theorem TypeList_ToString_safe {vec : Option (List Addr)} (h : s.Interned held)
    (hvec : ∀ a ∈ vec.getD [], a < s.heap.length) : Safe Str.Short (TypeList_ToString s vec) := by
  match vec with
  | none => exact .ok (Nat.zero_le _)
  | some [] => exact .ok (Nat.zero_le _)
  | some (a :: vec) =>
    refine (append_descs_total h hvec).spells.bind ?_
    rintro buf - ⟨text, hbuf⟩
    exact (cstr_safe hbuf).bind fun c _ hc => .ok hc

/-- A text is spelled and looked for; it is new where it is not found. -/
theorem intern_safe (h : s.Interned held) {spelled : Res StringBuf} {P : Addr × State → Prop}
    (hspelled : Safe (fun buf => ∃ text, buf.Sound text) spelled)
    {k : CString → Option Addr → Res (Addr × State)}
    (hk : ∀ text found, text.bytes.length ≤ INT_MAX → (found = none →
      HashTable_Find DescNode.desc hash_string desc_equal s.descTable text = some none) →
        Safe P (k text found)) :
    Safe P (spelled >>= fun buf => cstr buf >>= fun text => FindTypeDesc s text >>= k text) := by
  refine hspelled.bind ?_
  rintro buf - ⟨text, hbuf⟩
  refine (cstr_safe hbuf).bind ?_
  rintro text - htext
  obtain ⟨found, hfind, hfresh⟩ := find_spec h text
  rw [hfind, ok_bind]
  exact hk text found htext hfresh

theorem TypeDesc_Get_Klass_safe (h : s.Interned held) {path : Str} {type : CString}
    (hpath : path.Short) (htype : Str.Short (some type)) :
    Safe (fun r => r.2.Interned held) (TypeDesc_Get_Klass s path type) := by
  refine intern_safe h (format_safe (by decide) (show _ ≤ 2 by decide) (by simp [hpath, htype])) ?_
  intro text found htext hfresh
  cases found with
  | some desc => exact .ok h
  | none =>
    obtain ⟨t, hinsert, hnew⟩ := h.insert_fresh (hfresh rfl)
    dsimp only
    rw [hnew]
    have hbody : s.Interned ((Body.klass path type).parts ++ held) := h
    exact .ok (hbody.pushed (fun hkind => nomatch hkind) htext (hfresh rfl) hinsert)

theorem TypeDesc_Get_Proto_safe {arg ret : Option (List Addr)}
    (h : s.Interned (arg.getD [] ++ ret.getD [] ++ held)) :
    Safe (fun r => r.2.Interned held) (TypeDesc_Get_Proto s arg ret) := by
  have hbound : ∀ a ∈ arg.getD [] ++ ret.getD [], a < s.heap.length :=
    fun a ha => h.lt_of_held (List.mem_append_left _ ha)
  refine (TypeList_ToString_safe h fun a ha => hbound a (List.mem_append_left _ ha)).bind ?_
  intro sArg _ harg
  refine (TypeList_ToString_safe h fun a ha => hbound a (List.mem_append_right _ ha)).bind ?_
  intro sRet _ hret
  refine intern_safe h (format_safe (by decide) (show _ ≤ 2 by decide) (by simp [harg, hret])) ?_
  intro text found htext hfresh
  cases found with
  | some desc =>
    rw [List.append_assoc] at h
    obtain ⟨m, hrun, hm⟩ := h.free_typelist
    obtain ⟨m', hrun', hm'⟩ := hm.free_typelist
    simp only [hrun, hrun', ok_bind]
    exact .ok hm'
  | none =>
    obtain ⟨t, hinsert, hnew⟩ := h.insert_fresh (hfresh rfl)
    dsimp only
    rw [hnew]
    have hbody : s.Interned ((Body.proto arg ret).parts ++ held) := h
    exact .ok (hbody.pushed (fun hkind => nomatch hkind) htext (hfresh rfl) hinsert)

/-- What the constructors with an item do with a text that is new. -/
theorem item_safe (h : s.Interned held) {body : Body} (hparts : body.parts = [a])
    (hkind : body.kind ≠ .TYPE_BASE) (ha : a < s.heap.length) {text : CString}
    (htext : text.bytes.length ≤ INT_MAX)
    (hfresh : HashTable_Find DescNode.desc hash_string desc_equal s.descTable text = some none) :
    Safe (fun r => r.2.Interned held) (do
      let (desc, s) ← new_typedesc s body text
      let s ← TYPE_INCREF s (some a)
      .ok (desc, s)) := by
  have hall : ∀ p ∈ body.parts, p < s.heap.length := by simp [hparts, ha]
  obtain ⟨desc, s₁, hnew, hsafe⟩ := h.new_typedesc hall hkind htext hfresh
  rw [hparts, List.foldlM_cons] at hsafe
  simp only [List.foldlM_nil, bind_pure] at hsafe
  simp only [hnew, ok_bind]
  exact hsafe.bind fun s' _ hs' => .ok hs'

theorem replicate_total (n : Nat) {ch : UInt8} (hch : ch ≠ 0) :
    Total ((List.replicate n ch).foldlM __StringBuf_Append_Char ·) := by
  induction n with
  | zero => exact Total.nil
  | succ n ih =>
    simp only [List.replicate_succ, List.foldlM_cons]
    exact (__StringBuf_Append_Char_total hch).bind ih

theorem TypeDesc_Get_Array_safe (h : s.Interned held) (dims : Int) (ha : a < s.heap.length) :
    Safe (fun r => r.2.Interned held) (TypeDesc_Get_Array s dims a) := by
  obtain ⟨d, hread, hshort⟩ := h.read ha
  have htotal := (replicate_total dims.toNat (show '['.toUInt8 ≠ 0 by decide)).bind
    (__StringBuf_Append_total hshort)
  rw [TypeDesc_Get_Array, hread, ok_bind, ← bind_assoc]
  refine intern_safe h htotal.spells ?_
  intro text found htext hfresh
  cases found with
  | some desc => exact .ok h
  | none => exact item_safe h rfl (by nofun) ha htext (hfresh rfl)

theorem TypeDesc_Get_Map_safe (h : s.Interned held) {key val : Addr} (hkey : key < s.heap.length)
    (hval : val < s.heap.length) :
    Safe (fun r => r.2.Interned held) (TypeDesc_Get_Map s key val) := by
  obtain ⟨k, hreadk, hshortk⟩ := h.read hkey
  obtain ⟨v, hreadv, hshortv⟩ := h.read hval
  rw [TypeDesc_Get_Map, hreadk, ok_bind, hreadv, ok_bind]
  refine intern_safe h (format_safe (by decide) (show _ ≤ 2 by decide)
    (by simp [hshortk, hshortv])) ?_
  intro text found htext hfresh
  cases found with
  | some desc => exact .ok h
  | none =>
    have hall : ∀ p ∈ (Body.map key val).parts, p < s.heap.length := by
      simp [Body.parts, hkey, hval]
    obtain ⟨desc, s₁, hnew, hsafe⟩ := h.new_typedesc hall (by simp [Body.kind]) htext
      (hfresh rfl)
    simp only [Body.parts, List.foldlM_cons, List.foldlM_nil, bind_pure] at hsafe
    simp only [hnew, ok_bind]
    rw [← bind_assoc]
    exact hsafe.bind fun s' _ hs' => .ok hs'

theorem TypeDesc_Get_Set_safe (h : s.Interned held) (ha : a < s.heap.length) :
    Safe (fun r => r.2.Interned held) (TypeDesc_Get_Set s a) := by
  obtain ⟨d, hread, hshort⟩ := h.read ha
  rw [TypeDesc_Get_Set, hread, ok_bind]
  refine intern_safe h (format_safe (by decide) (show _ ≤ 1 by decide) (by simp [hshort])) ?_
  intro text found htext hfresh
  cases found with
  | some desc => exact .ok h
  | none => exact item_safe h rfl (by nofun) ha htext (hfresh rfl)

theorem TypeDesc_Get_Varg_safe (h : s.Interned held) {base : Option Addr}
    (hbase : ∀ a ∈ base, a < s.heap.length) :
    Safe (fun r => r.2.Interned held) (TypeDesc_Get_Varg s base) := by
  have ha : base.getD (BaseType.addr .BASE_ANY) < s.heap.length := by
    cases base with
    | none => exact Nat.lt_of_lt_of_le (by decide) h.basics
    | some a => exact hbase a rfl
  obtain ⟨d, hread, hshort⟩ := h.read ha
  rw [TypeDesc_Get_Varg]
  dsimp only
  rw [hread, ok_bind]
  refine intern_safe h (format_safe (by decide) (show _ ≤ 1 by decide) (by simp [hshort])) ?_
  intro text found htext hfresh
  cases found with
  | some desc => exact .ok h
  | none => exact item_safe h rfl (by nofun) ha htext (hfresh rfl)

end get

end koala.desctable
