import Koala.DescTable.Trees
import Koala.TypeDesc.Written

open koala.hashtable koala.stringbuf koala.typedesc refcount

namespace koala.desctable

set_option linter.style.nameCheck false

variable {s s' : State} {held : List Addr} {t : TypeDesc} {body : Body} {a : Addr}

/-- What fits is spelled as it is. -/
theorem spells {f : StringBuf → Res StringBuf} {ps : List (List UInt8)} (hf : Puts f ps)
    (hnonul : 0 ∉ ps.flatten) (hne : ps.flatten ≠ []) (hfit : AllFit 0 ps) :
    ∃ buf text, f DeclareStringBuf = .ok buf ∧ cstr buf = .ok text ∧ text.bytes = ps.flatten := by
  obtain ⟨buf, hrun, hholds⟩ := hf.appends (.empty rfl) hnonul hfit
  rw [List.nil_append] at hholds
  generalize ps.flatten = bytes at hne hholds ⊢
  cases hholds with
  | empty => exact absurd rfl hne
  | stores h =>
    refine ⟨buf, CString.ofData (bytes ++ zeros (buf.size - bytes.length)), hrun, ?_, ?_⟩
    · rw [cstr, h.data]
    · have hsize := h.size
      have hround := le_roundup (bytes.length + 1)
      exact text_append_zeros h.nonul (by omega)

/-- The text of a format is spelled. -/
theorem spells_format {fmt : List UInt8} {args : List Str} {texts : List (List UInt8)}
    (hfmt : 0 ∉ fmt) (hargs : fmt.count HASH ≤ args.length) (htexts : args.map Str.bytes = texts)
    (hfit : AllFit 0 (pieces fmt texts)) (hne : substitute fmt texts ≠ []) :
    ∃ buf text, __StringBuf_Format DeclareStringBuf fmt args = .ok buf ∧ cstr buf = .ok text ∧
      text.bytes = substitute fmt texts := by
  subst htexts
  rw [← format_pieces_flatten] at hne ⊢
  rw [← format_pieces_eq] at hfit
  exact spells (__StringBuf_Format_puts hargs) (format_pieces_nonul hfmt) hne hfit

theorem append_descs_puts {vec : List Addr} {ts : List TypeDesc}
    (h : List.Forall₂ (fun t a => ∃ d, s.Holds a d ∧ d.desc.bytes = t.text) ts vec) :
    Puts (append_descs s · vec) (ts.map TypeDesc.text) := by
  induction h with
  | nil => exact Puts.nil
  | cons hhead _ ih =>
    obtain ⟨d, hd, htext⟩ := hhead
    simp only [append_descs, List.foldlM_cons, State.read_eq hd, ok_bind]
    rw [List.map_cons, ← htext]
    exact (__StringBuf_Append_puts (some d.desc)).bind ih

/-- The text of a list of types is spelled. -/
theorem spells_typelist {vec : Option (List Addr)} {ts : List TypeDesc}
    (h : List.Forall₂ (fun t a => ∃ d, s.Holds a d ∧ d.desc.bytes = t.text) ts (vec.getD []))
    (hwell : ∀ t ∈ ts, t.WellFormed) (hfit : AllFit 0 (ts.map TypeDesc.text)) :
    ∃ text, TypeList_ToString s vec = .ok text ∧ Str.bytes text = TypeDesc.textList ts := by
  have hflat : (ts.map TypeDesc.text).flatten = TypeDesc.textList ts := by
    rw [TypeDesc.textList_eq_flatMap, List.flatMap_def]
  match vec with
  | none =>
    cases h
    exact ⟨none, rfl, rfl⟩
  | some [] =>
    cases h
    exact ⟨none, rfl, rfl⟩
  | some (a :: vec) =>
    have hputs : Puts (append_descs s · (a :: vec)) (ts.map TypeDesc.text) := append_descs_puts h
    rw [← hflat]
    have hnonul : 0 ∉ (ts.map TypeDesc.text).flatten := by
      intro hmem
      obtain ⟨text, hmem, hzero⟩ := List.mem_flatten.mp hmem
      obtain ⟨t, -, rfl⟩ := List.mem_map.mp hmem
      rw [TypeDesc.text_eq_written] at hzero
      exact TypeDesc.written_nonul (by decide) t hzero
    have hne : (ts.map TypeDesc.text).flatten ≠ [] := by
      obtain ⟨t, ts, -, -, rfl⟩ := List.forall₂_cons_right_iff.mp h
      rw [List.map_cons, List.flatten_cons]
      exact fun hnil => TypeDesc.text_ne_nil (hwell t List.mem_cons_self)
        (List.append_eq_nil_iff.mp hnil).1
    obtain ⟨buf, text, hrun, hcstr, htext⟩ := spells hputs hnonul hne hfit
    refine ⟨some text, ?_, htext⟩
    simp only [TypeList_ToString, hrun, ok_bind, hcstr]

theorem replicate_puts (n : Nat) (ch : UInt8) :
    Puts ((List.replicate n ch).foldlM __StringBuf_Append_Char ·) (List.replicate n [ch]) := by
  induction n with
  | zero => exact Puts.nil
  | succ n ih =>
    simp only [List.replicate_succ, List.foldlM_cons]
    exact (__StringBuf_Append_Char_puts ch).bind ih

theorem Memory.labels_eq_some_iff {m : Memory} {label : Body × CString} :
    m.labels[a]? = some (some label) ↔ ∃ d, m.Holds a d ∧ (d.body, d.desc) = label := by
  rw [Memory.labels, List.getElem?_map]
  constructor
  · intro h
    obtain ⟨cell, hcell, hlabel⟩ := Option.map_eq_some_iff.mp h
    cases cell with
    | none => cases hlabel
    | some d => exact ⟨d, hcell, Option.some.inj hlabel⟩
  · rintro ⟨d, hd, rfl⟩
    rw [show m.heap[a]? = _ from hd]
    rfl

theorem Memory.length_labels (m : Memory) : m.labels.length = m.heap.length := List.length_map _

/-- The text of a described descriptor is that of its type. -/
theorem Canonical.read (hc : Canonical s.labels) (h : Describes s.labels t a) :
    ∃ d, s.Holds a d ∧ d.desc.bytes = t.text := by
  obtain ⟨label, ha, hbuilds⟩ := h
  obtain ⟨u, -, hbuilds', htext⟩ := hc.tree ha
  obtain ⟨d, hd, rfl⟩ := Memory.labels_eq_some_iff.mp ha
  exact ⟨d, hd, by rw [builds_unique t hbuilds hbuilds', htext]⟩

/-- A text is found at the descriptor that has it, or no descriptor has it. -/
theorem State.Interned.find_label (h : s.Interned held) (text : CString) :
    (∃ a body, FindTypeDesc s text = .ok (some a) ∧ s.labels[a]? = some (some (body, text))) ∨
      FindTypeDesc s text = .ok none ∧ ∀ (a : Addr) (label : Body × CString),
        s.labels[a]? = some (some label) → label.2 ≠ text := by
  obtain ⟨order, htabled⟩ := h.tabled
  have hfind := mapRep_find desc_equal_equivalence hash_of_desc_equal htabled.rep text
  have hrun : FindTypeDesc s text =
      .ok ((ordered_map.find DescNode.desc desc_equal order text).map DescNode.addr) := by
    rw [FindTypeDesc, h.touch, ok_bind, hfind]
  cases hfound : ordered_map.find DescNode.desc desc_equal order text with
  | some hnode =>
    rw [hfound] at hrun
    obtain ⟨hmem, heq⟩ := ordered_map.find_eq_some hfound
    obtain ⟨d, hd, hdesc⟩ := htabled.desc hnode hmem
    have htext : hnode.desc = text := by simpa [desc_equal] using heq
    refine .inl ⟨hnode.addr, d.body, hrun, Memory.labels_eq_some_iff.mpr ⟨d, hd, ?_⟩⟩
    rw [hdesc, htext]
  | none =>
    rw [hfound] at hrun
    refine .inr ⟨hrun, fun a label ha heq => ?_⟩
    obtain ⟨d, hd, rfl⟩ := Memory.labels_eq_some_iff.mp ha
    have hlt := (List.getElem?_eq_some_iff.mp hd).1
    have hmem : a ∈ order.map DescNode.addr := htabled.addrs ▸ List.mem_range.mpr hlt
    obtain ⟨hnode, hnode_mem, rfl⟩ := List.mem_map.mp hmem
    obtain ⟨d', hd', hdesc⟩ := htabled.desc hnode hnode_mem
    cases hd.symm.trans hd'
    have hne := ordered_map.find_eq_none_iff.mp hfound hnode hnode_mem
    rw [← hdesc, desc_equal, decide_eq_false_iff_not] at hne
    exact hne heq

/-- What a call for a type returns: an address that describes it, in a canonical table that
keeps what it had, unless a counter overflows. -/
inductive Makes (s : State) (t : TypeDesc) : Res (Addr × State) → Prop where
  | ok {a : Addr} {s' : State} (hcanonical : Canonical s'.labels) (hkept : s.labels <+: s'.labels)
    (hdescribes : Describes s'.labels t a) : Makes s t (.ok (a, s'))
  | overflow : Makes s t (.error .overflow)

theorem write_labels {d d' : Desc} (hd : s.Holds a d) (hbody : d'.body = d.body)
    (hdesc : d'.desc = d.desc) : (s.write a d').labels = s.labels := by
  refine List.ext_getElem? fun b => ?_
  rw [Memory.labels, Memory.labels, List.getElem?_map, List.getElem?_map]
  by_cases hb : b = a
  · subst hb
    rw [show (s.write b d').heap[b]? = _ from State.write_holds_self hd d',
      show s.heap[b]? = _ from hd, Option.map_some, Option.map_some, Option.map_some,
      Option.map_some, hbody, hdesc]
  · rw [State.write_heap_of_ne s d' hb]

theorem incref_labels {label : Body × CString} (ha : s.labels[a]? = some (some label)) :
    (∃ s', TYPE_INCREF s (some a) = .ok s' ∧ s'.labels = s.labels) ∨
      TYPE_INCREF s (some a) = .error .overflow := by
  obtain ⟨d, hd, -⟩ := Memory.labels_eq_some_iff.mp ha
  rw [TYPE_INCREF, State.read_eq hd, ok_bind, addInt]
  split
  · exact .inl ⟨_, rfl, write_labels hd rfl rfl⟩
  · exact .inr rfl

/-- A found text is that of the type; a text that is not found gets a descriptor. -/
theorem State.Interned.makes (h : s.Interned held) (hc : Canonical s.labels) (ht : t.WellFormed)
    (hbuilds : Builds s.labels t body) {text : CString} (htext : text.bytes = t.text) :
    (∃ a, FindTypeDesc s text = .ok (some a) ∧ Describes s.labels t a) ∨
      FindTypeDesc s text = .ok none ∧ ∃ a s₁, desctable.new_typedesc s body text = .ok (a, s₁) ∧
        s.labels <+: s₁.labels ∧ Canonical s₁.labels ∧ Describes s₁.labels t a := by
  obtain ⟨a, body', hfind, ha⟩ | ⟨hfind, hfresh⟩ := h.find_label text
  · exact .inl ⟨a, hfind, _, ha, hc.found ha ht htext⟩
  · obtain ⟨found, hfind', hnone⟩ := find_spec h text
    cases hfind'.symm.trans hfind
    obtain ⟨table, -, hnew⟩ := h.insert_fresh (hnone rfl)
    have hlabels : (s.push table ⟨body, text, 1⟩).labels = s.labels ++ [some (body, text)] :=
      List.map_append
    refine .inr ⟨hfind, _, _, hnew body, ?_, ?_, ?_⟩
    · rw [hlabels]
      exact List.prefix_append _ _
    · rw [hlabels]
      exact hc.push ht hbuilds htext hfresh
    · rw [hlabels]
      refine ⟨(body, text), ?_, builds_mono t (List.prefix_append _ _) hbuilds⟩
      rw [← s.length_labels, List.getElem?_concat_length]

/-- What the constructors with an item do with the text of their type. -/
theorem item_makes (h : s.Interned held) (hc : Canonical s.labels) (ht : t.WellFormed)
    (hbuilds : Builds s.labels t body) {text : CString} (htext : text.bytes = t.text)
    {u : TypeDesc} (hitem : Describes s.labels u a) :
    Makes s t (do
      let exist ← FindTypeDesc s text
      match exist with
      | some desc => .ok (desc, s)
      | none => do
        let (desc, s) ← desctable.new_typedesc s body text
        let s ← TYPE_INCREF s (some a)
        .ok (desc, s)) := by
  obtain ⟨desc, hfind, hdesc⟩ | ⟨hfind, desc, s₁, hnew, hext, hc₁, hdesc⟩ :=
    h.makes hc ht hbuilds htext
  · simp only [hfind, ok_bind]
    exact .ok hc (List.prefix_refl _) hdesc
  · obtain ⟨label, ha, -⟩ := hitem
    simp only [hfind, hnew, ok_bind]
    obtain ⟨s₂, hrun, hlabels⟩ | hrun := incref_labels (label_mono hext ha)
    · rw [hrun]
      exact .ok (hlabels ▸ hc₁) (hlabels ▸ hext) (hlabels ▸ hdesc)
    · rw [hrun]
      exact .overflow

section ops

variable (h : s.Interned held) (hc : Canonical s.labels)

include h hc

theorem TypeDesc_Get_Klass_ok {path : Str} {type : CString}
    (ht : (TypeDesc.klass path type).WellFormed) (hfit : (TypeDesc.klass path type).Fit) :
    ∃ a s', TypeDesc_Get_Klass s path type = .ok (a, s') ∧ Canonical s'.labels ∧
      s.labels <+: s'.labels ∧ Describes s'.labels (.klass path type) a := by
  obtain ⟨buf, text, hrun, hcstr, htext⟩ := @spells_format (chars "L#.#;") [path, some type]
    [Str.bytes path, type.bytes] (by decide) (show _ ≤ 2 by decide) rfl hfit (by
      rw [← TypeDesc.text]
      exact TypeDesc.text_ne_nil ht)
  rw [← TypeDesc.text] at htext
  rw [TypeDesc_Get_Klass, hrun, ok_bind, hcstr, ok_bind]
  obtain ⟨desc, hfind, hdesc⟩ | ⟨hfind, desc, s₁, hnew, hext, hc₁, hdesc⟩ :=
    h.makes hc ht (builds_klass.mpr rfl) htext
  · simp only [hfind, ok_bind]
    exact ⟨desc, s, rfl, hc, List.prefix_refl _, hdesc⟩
  · simp only [hfind, hnew, ok_bind]
    exact ⟨desc, s₁, rfl, hc₁, hext, hdesc⟩

theorem TypeDesc_Get_Set_makes {u : TypeDesc} (hu : Describes s.labels u a)
    (ht : (TypeDesc.set u).WellFormed) (hfit : (TypeDesc.set u).Fit) :
    Makes s (.set u) (TypeDesc_Get_Set s a) := by
  obtain ⟨d, hd, hdtext⟩ := hc.read hu
  obtain ⟨buf, text, hrun, hcstr, htext⟩ := @spells_format (chars "S#") [some d.desc] [u.text]
    (by decide) (show _ ≤ 1 by decide) (by simp [hdtext]) hfit (by
      rw [← TypeDesc.text]
      exact TypeDesc.text_ne_nil ht)
  rw [← TypeDesc.text] at htext
  rw [TypeDesc_Get_Set, State.read_eq hd, ok_bind, hrun, ok_bind, hcstr, ok_bind]
  exact item_makes h hc ht (builds_set.mpr ⟨u, rfl, hu⟩) htext hu

theorem TypeDesc_Get_Varg_makes {u : TypeDesc} {base : Option Addr}
    (hu : Describes s.labels u (base.getD (BaseType.addr .BASE_ANY)))
    (ht : (TypeDesc.varg u).WellFormed) (hfit : (TypeDesc.varg u).Fit) :
    Makes s (.varg u) (TypeDesc_Get_Varg s base) := by
  obtain ⟨d, hd, hdtext⟩ := hc.read hu
  obtain ⟨buf, text, hrun, hcstr, htext⟩ := @spells_format (chars "...#") [some d.desc] [u.text]
    (by decide) (show _ ≤ 1 by decide) (by simp [hdtext]) hfit (by
      rw [← TypeDesc.text]
      exact TypeDesc.text_ne_nil ht)
  rw [← TypeDesc.text] at htext
  rw [TypeDesc_Get_Varg]
  dsimp only
  rw [State.read_eq hd, ok_bind, hrun, ok_bind, hcstr, ok_bind]
  exact item_makes h hc ht (builds_varg.mpr ⟨u, rfl, hu⟩) htext hu

theorem TypeDesc_Get_Array_makes {u : TypeDesc} {dims : BitVec 32} (hu : Describes s.labels u a)
    (ht : (TypeDesc.array dims u).WellFormed) (hfit : (TypeDesc.array dims u).Fit) :
    Makes s (.array dims u) (TypeDesc_Get_Array s dims.toInt a) := by
  obtain ⟨d, hd, hdtext⟩ := hc.read hu
  have hputs := (replicate_puts dims.toInt.toNat '['.toUInt8).bind
    (__StringBuf_Append_puts (some d.desc))
  have hflat : (List.replicate dims.toInt.toNat ['['.toUInt8] ++
      [Str.bytes (some d.desc)]).flatten = (TypeDesc.array dims u).text := by
    rw [TypeDesc.text, List.flatten_append, Str.bytes_some, hdtext]
    simp
  have hnonul : 0 ∉ (TypeDesc.array dims u).text := by
    rw [TypeDesc.text_eq_written]
    exact TypeDesc.written_nonul (by decide) _
  rw [TypeDesc.Fit, ← hdtext] at hfit
  obtain ⟨buf, text, hrun, hcstr, htext⟩ := spells hputs (hflat ▸ hnonul)
    (hflat ▸ TypeDesc.text_ne_nil ht) hfit
  rw [hflat] at htext
  rw [TypeDesc_Get_Array, State.read_eq hd, ok_bind, ← bind_assoc, hrun, ok_bind, hcstr, ok_bind]
  exact item_makes h hc ht (builds_array.mpr ⟨dims, u, rfl, rfl, hu⟩) htext hu

theorem TypeDesc_Get_Map_makes {key val : TypeDesc} {b : Addr} (hkey : Describes s.labels key a)
    (hval : Describes s.labels val b) (ht : (TypeDesc.map key val).WellFormed)
    (hfit : (TypeDesc.map key val).Fit) :
    Makes s (.map key val) (TypeDesc_Get_Map s a b) := by
  obtain ⟨k, hk, hktext⟩ := hc.read hkey
  obtain ⟨v, hv, hvtext⟩ := hc.read hval
  obtain ⟨buf, text, hrun, hcstr, htext⟩ := @spells_format (chars "M#:#")
    [some k.desc, some v.desc] [key.text, val.text] (by decide) (show _ ≤ 2 by decide)
    (by simp [hktext, hvtext]) hfit (by
      rw [← TypeDesc.text]
      exact TypeDesc.text_ne_nil ht)
  rw [← TypeDesc.text] at htext
  rw [TypeDesc_Get_Map, State.read_eq hk, ok_bind, State.read_eq hv, ok_bind, hrun, ok_bind, hcstr,
    ok_bind]
  obtain ⟨desc, hfind, hdesc⟩ | ⟨hfind, desc, s₁, hnew, hext, hc₁, hdesc⟩ :=
    h.makes hc ht (builds_map.mpr ⟨key, val, rfl, hkey, hval⟩) htext
  · simp only [hfind, ok_bind]
    exact .ok hc (List.prefix_refl _) hdesc
  · obtain ⟨label, ha, -⟩ := hkey
    obtain ⟨label', hb, -⟩ := hval
    simp only [hfind, hnew, ok_bind]
    obtain ⟨s₂, hrun, hlabels⟩ | hrun := incref_labels (label_mono hext ha)
    · rw [hrun, ok_bind]
      rw [← hlabels] at hext hc₁ hdesc
      obtain ⟨s₃, hrun', hlabels'⟩ | hrun' := incref_labels (label_mono hext hb)
      · rw [hrun']
        exact .ok (hlabels' ▸ hc₁) (hlabels' ▸ hext) (hlabels' ▸ hdesc)
      · rw [hrun']
        exact .overflow
    · rw [hrun]
      exact .overflow

end ops

/-- Counters that are given up change no label. -/
theorem settle_labels {m : Memory} (hm : State.Interned ⟨m, s.descTable⟩ held)
    (hsettles : Settles s.toMemory m) : m.labels = s.labels := by
  refine List.ext_getElem? fun b => ?_
  obtain hlt | hge := Nat.lt_or_ge b m.heap.length
  · obtain ⟨d', hd', -⟩ := hm.holds hlt
    obtain ⟨d, hd, hbody, hdesc, -⟩ := hsettles.desc hd'
    rw [Memory.labels_eq_some_iff.mpr ⟨d', hd', rfl⟩, Memory.labels_eq_some_iff.mpr ⟨d, hd, rfl⟩,
      hbody, hdesc]
  · rw [List.getElem?_eq_none (m.length_labels ▸ hge),
      List.getElem?_eq_none (s.length_labels ▸ hsettles.length ▸ hge)]

theorem State.Interned.free_labels {vec : Option (List Addr)}
    (h : s.Interned (vec.getD [] ++ held)) :
    ∃ m, desctable.free_typelist TYPE_DECREF s vec = .ok ⟨m, s.descTable⟩ ∧
      State.Interned ⟨m, s.descTable⟩ held ∧ m.labels = s.labels := by
  obtain ⟨m, hrun, hm, hsettles⟩ := h.free_settles
  exact ⟨m, hrun, hm, settle_labels hm hsettles⟩

theorem State.Interned.decref_labels (h : s.Interned (a :: held)) :
    ∃ m, TYPE_DECREF s (some a) = .ok ⟨m, s.descTable⟩ ∧ m.labels = s.labels := by
  have hvec : s.Interned ((some [a] : Option (List Addr)).getD [] ++ held) := h
  obtain ⟨m, hrun, -, hlabels⟩ := hvec.free_labels
  refine ⟨m, ?_, hlabels⟩
  rw [desctable.free_typelist, List.foldlM_cons] at hrun
  simpa only [List.foldlM_nil, bind_pure] using hrun

theorem TypeDesc_Get_Proto_makes {arg ret : Option (List Addr)} {args rets : List TypeDesc}
    (h : s.Interned (arg.getD [] ++ ret.getD [] ++ held)) (hc : Canonical s.labels)
    (hargs : BuildsEach s.labels args (arg.getD []))
    (hrets : BuildsEach s.labels rets (ret.getD []))
    (ht : (TypeDesc.proto args rets).WellFormed) (hfit : (TypeDesc.proto args rets).Fit) :
    Makes s (.proto args rets) (TypeDesc_Get_Proto s arg ret) := by
  obtain ⟨hfitarg, hfitret, hfit⟩ := hfit
  have hwell : (∀ t ∈ args, t.WellFormed) ∧ ∀ t ∈ rets, t.WellFormed := by
    cases ht with
    | proto harg hret => exact ⟨harg, hret⟩
  have hread : ∀ {ts : List TypeDesc} {vec : List Addr}, BuildsEach s.labels ts vec →
      List.Forall₂ (fun t a => ∃ d, s.Holds a d ∧ d.desc.bytes = t.text) ts vec := by
    intro ts vec hts
    exact (buildsEach_iff.mp hts).imp fun t a ha => hc.read ha
  obtain ⟨sArg, hsArg, hargtext⟩ := spells_typelist (hread hargs) hwell.1 hfitarg
  obtain ⟨sRet, hsRet, hrettext⟩ := spells_typelist (hread hrets) hwell.2 hfitret
  obtain ⟨buf, text, hrun, hcstr, htext⟩ := @spells_format (chars "P#:#;") [sArg, sRet]
    [TypeDesc.textList args, TypeDesc.textList rets] (by decide) (show _ ≤ 2 by decide)
    (by simp [hargtext, hrettext]) hfit (by
      rw [← TypeDesc.text]
      exact TypeDesc.text_ne_nil ht)
  rw [← TypeDesc.text] at htext
  rw [TypeDesc_Get_Proto, hsArg, ok_bind, hsRet, ok_bind, hrun, ok_bind, hcstr, ok_bind]
  obtain ⟨desc, hfind, hdesc⟩ | ⟨hfind, desc, s₁, hnew, hext, hc₁, hdesc⟩ :=
    h.makes hc ht (builds_proto.mpr ⟨args, rets, rfl, hargs, hrets⟩) htext
  · rw [List.append_assoc] at h
    obtain ⟨m, hfree, hm, hlabels⟩ := h.free_labels
    obtain ⟨m', hfree', -, hlabels'⟩ := hm.free_labels
    have hsame : m'.labels = s.labels := hlabels'.trans hlabels
    simp only [hfind, hfree, hfree', ok_bind]
    exact .ok (hsame ▸ hc) (hsame ▸ List.prefix_refl _) (hsame ▸ hdesc)
  · simp only [hfind, hnew, ok_bind]
    exact .ok hc₁ hext hdesc

/-- The base descriptors are at their addresses. -/
def Based (labels : Labels) : Prop :=
  ∀ type : BaseType, ∃ text, labels[BaseType.addr type]? = some (some (.base type, text))

/-- What a call leaves: what was there, and the descriptor of what was asked for. -/
structure Op.Kept (s : State) (op : Op) (r : Option Addr) (s' : State) : Prop where
  canonical : Canonical s'.labels
  kept : s.labels <+: s'.labels
  answer : ∀ body, op.body = some body → ∃ a label, r = some a ∧
    s'.labels[a]? = some (some label) ∧ label.1.norm = body.norm

theorem Makes.kept {x : Res (Addr × State)} {op : Op} (hm : Makes s t x)
    (hbuilds : Builds s.labels t body) (hbody : op.body = some body) :
    (∃ r s', Prod.map some id <$> x = .ok (r, s') ∧ op.Kept s r s') ∨
      Prod.map some id <$> x = .error .overflow := by
  cases hm with
  | overflow => exact .inr rfl
  | @ok a s' hcanonical hkept hdescribes =>
    refine .inl ⟨some a, s', rfl, hcanonical, hkept, fun body' hbody' => ?_⟩
    obtain rfl := Option.some.inj (hbody.symm.trans hbody')
    obtain ⟨label, ha, hlabel⟩ := hdescribes
    exact ⟨a, label, rfl, ha,
      hlabel.norm_eq (builds_mono t hkept hbuilds) fun hb hb' => hcanonical.inj hb hb'⟩

/-- A legal call that asks for a well-formed type answers it. -/
theorem Op.call_kept (h : s.Interned held) (hc : Canonical s.labels) (hbased : Based s.labels)
    {op : Op} (hlegal : op.Legal s held) (hspells : op.Spells s) :
    (∃ r s', op.call s = .ok (r, s') ∧ op.Kept s r s') ∨ op.call s = .error .overflow := by
  cases op with
  | Get_Base base =>
    obtain ⟨type, htype⟩ := Option.isSome_iff_exists.mp hlegal
    refine .inl ⟨some (BaseType.addr type), s, ?_, hc, List.prefix_refl _, fun body hbody => ?_⟩
    · simp only [Op.call, TypeDesc_Get_Base, htype]
      rfl
    · rw [Op.body, htype] at hbody
      obtain ⟨text, hlabel⟩ := hbased type
      cases hbody
      exact ⟨_, _, rfl, hlabel, rfl⟩
  | Get_Klass path type =>
    obtain ⟨t, hbuilds, ht, hfit⟩ := hspells _ rfl
    obtain rfl := builds_klass.mp hbuilds
    obtain ⟨a, s', hrun, hc', hext, hdesc⟩ := TypeDesc_Get_Klass_ok h hc ht hfit
    have hmakes : Makes s (.klass path type) (TypeDesc_Get_Klass s path type) :=
      hrun ▸ .ok hc' hext hdesc
    exact hmakes.kept hbuilds rfl
  | Get_Proto arg ret =>
    obtain ⟨t, hbuilds, ht, hfit⟩ := hspells _ rfl
    obtain ⟨args, rets, rfl, hargs, hrets⟩ := builds_proto.mp hbuilds
    have hperm := List.subperm_append_diff_self_of_count_le fun a _ => hlegal a
    exact (TypeDesc_Get_Proto_makes (h.perm hperm.symm) hc hargs hrets ht hfit).kept hbuilds rfl
  | Get_Array dims base =>
    obtain ⟨t, hbuilds, ht, hfit⟩ := hspells _ rfl
    obtain ⟨n, u, rfl, rfl, hu⟩ := builds_array.mp hbuilds
    exact (TypeDesc_Get_Array_makes h hc hu ht hfit).kept hbuilds rfl
  | Get_Map key val =>
    obtain ⟨t, hbuilds, ht, hfit⟩ := hspells _ rfl
    obtain ⟨k, v, rfl, hkey, hval⟩ := builds_map.mp hbuilds
    exact (TypeDesc_Get_Map_makes h hc hkey hval ht hfit).kept hbuilds rfl
  | Get_Set base =>
    obtain ⟨t, hbuilds, ht, hfit⟩ := hspells _ rfl
    obtain ⟨u, rfl, hu⟩ := builds_set.mp hbuilds
    exact (TypeDesc_Get_Set_makes h hc hu ht hfit).kept hbuilds rfl
  | Get_Varg base =>
    obtain ⟨t, hbuilds, ht, hfit⟩ := hspells _ rfl
    obtain ⟨u, rfl, hu⟩ := builds_varg.mp hbuilds
    exact (TypeDesc_Get_Varg_makes h hc hu ht hfit).kept hbuilds rfl
  | INCREF desc =>
    cases desc with
    | none => exact .inl ⟨none, s, rfl, hc, List.prefix_refl _, by simp [Op.body]⟩
    | some a =>
      obtain ⟨d, hd, -⟩ := h.holds (hlegal a rfl)
      obtain ⟨s', hrun, hlabels⟩ | hrun :=
        incref_labels (Memory.labels_eq_some_iff.mpr ⟨d, hd, rfl⟩)
      · rw [Op.call, hrun]
        exact .inl ⟨none, s', rfl, hlabels ▸ hc, hlabels ▸ List.prefix_refl _, by simp [Op.body]⟩
      · rw [Op.call, hrun]
        exact .inr rfl
  | DECREF desc =>
    cases desc with
    | none =>
      have hrun : TYPE_DECREF s none = .ok s := by
        rw [TYPE_DECREF]
        cases s.heap.length <;> rfl
      rw [Op.call, hrun]
      exact .inl ⟨none, s, rfl, hc, List.prefix_refl _, by simp [Op.body]⟩
    | some a =>
      obtain ⟨m, hrun, hlabels⟩ := (h.perm (List.perm_cons_erase (hlegal a rfl))).decref_labels
      rw [Op.call, hrun]
      exact .inl ⟨none, ⟨m, s.descTable⟩, rfl, hlabels ▸ hc, hlabels ▸ List.prefix_refl _,
        by simp [Op.body]⟩

theorem Op.exec_eq (s : State) (op : Op) : op.exec s = Prod.snd <$> op.call s := by
  have hsnd : ∀ x : Res (Addr × State), Prod.snd <$> x = Prod.snd <$> Prod.map some id <$> x := by
    intro x
    cases x <;> rfl
  cases op with
  | Get_Base base =>
    rw [Op.exec, Op.call]
    cases TypeDesc_Get_Base base <;> rfl
  | Get_Klass | Get_Proto | Get_Array | Get_Map | Get_Set | Get_Varg => exact hsnd _
  | INCREF desc =>
    rw [Op.exec, Op.call]
    cases TYPE_INCREF s desc <;> rfl
  | DECREF desc =>
    rw [Op.exec, Op.call]
    cases TYPE_DECREF s desc <;> rfl

theorem Spelled.reaches (h : Spelled s held) : Reaches s held := by
  induction h with
  | init hinit => exact .init hinit
  | step _ hlegal _ hcall ih =>
    refine ih.step hlegal ?_
    rw [Op.exec_eq, hcall]
    rfl

theorem Basics.labels (h : Basics basic_types s) :
    s.labels = basic_types.map fun type => some (.base type, (basicDesc type).desc) := by
  rw [Memory.labels, h.heap, List.map_map]
  rfl

theorem Basics.canonical (h : Basics basic_types s) : Canonical s.labels := by
  have hlabel : ∀ {a : Addr} {label : Body × CString}, s.labels[a]? = some (some label) →
      ∃ type, basic_types[a]? = some type ∧ label = (.base type, (basicDesc type).desc) := by
    intro a label ha
    rw [h.labels, List.getElem?_map] at ha
    obtain ⟨type, htype, heq⟩ := Option.map_eq_some_iff.mp ha
    exact ⟨type, htype, (Option.some.inj heq).symm⟩
  constructor
  · intro a label ha
    obtain ⟨type, -, rfl⟩ := hlabel ha
    refine ⟨.base type, .base type, builds_base.mpr rfl, ?_⟩
    rw [basicDesc_desc, TypeDesc.text]
  · intro a b label label' ha hb heq
    obtain ⟨type, htype, rfl⟩ := hlabel ha
    obtain ⟨type', htype', rfl⟩ := hlabel hb
    rw [← basicDesc_injective heq] at htype'
    have hnodup : basic_types.Nodup := by decide
    exact (List.getElem?_inj (List.getElem?_eq_some_iff.mp htype).1 hnodup).mp
      (htype.trans htype'.symm)

theorem Basics.based (h : Basics basic_types s) : Based s.labels := by
  intro type
  have hat : basic_types[BaseType.addr type]? = some type := by cases type <;> rfl
  refine ⟨(basicDesc type).desc, ?_⟩
  rw [h.labels, List.getElem?_map, hat]
  rfl

/-- What holds between calls. -/
theorem Spelled.canonical (h : Spelled s held) : Canonical s.labels ∧ Based s.labels := by
  induction h with
  | init hinit =>
    obtain ⟨s', hs', hbasics⟩ := Init_TypeDesc_basics
    cases hs'.symm.trans hinit
    exact ⟨hbasics.canonical, hbasics.based⟩
  | step h hlegal hspells hcall ih =>
    obtain ⟨hc, hbased⟩ := ih
    obtain ⟨r, s', hrun, hkept⟩ | hrun :=
      Op.call_kept h.reaches.interned hc hbased hlegal hspells
    · cases hrun.symm.trans hcall
      refine ⟨hkept.canonical, fun type => ?_⟩
      obtain ⟨text, hlabel⟩ := hbased type
      exact ⟨text, label_mono hkept.kept hlabel⟩
    · cases hrun.symm.trans hcall

theorem name_T_wellFormed : (TypeDesc.klass none name_T).WellFormed := by
  apply TypeDesc.WellFormed.klass
  · simp
  · decide
  · decide
  · decide

theorem name_T_fits : (TypeDesc.klass none name_T).Fit := by
  have hpieces : pieces (chars "L#.#;") [Str.bytes none, name_T.bytes] =
      [[0x4c], [], [0x2e], [0x54], [0x3b]] := by decide
  rw [TypeDesc.Fit, hpieces]
  exact ⟨by decide, by decide, by decide, by decide, by decide, trivial⟩

/-- A class descriptor is made. -/
theorem spelled_T : ∃ s a, Spelled s [] ∧ Describes s.labels (.klass none name_T) a := by
  obtain ⟨s, hinit, -⟩ := Init_TypeDesc_basics
  have hspelled : Spelled s [] := .init hinit
  obtain ⟨a, s', hrun, -, -, hdesc⟩ := TypeDesc_Get_Klass_ok hspelled.reaches.interned
    hspelled.canonical.1 name_T_wellFormed name_T_fits
  have hlegal : (Op.Get_Klass none name_T).Legal s [] :=
    ⟨Nat.zero_le _, show 1 ≤ INT_MAX by decide⟩
  have hspells : (Op.Get_Klass none name_T).Spells s := by
    intro body hbody
    cases hbody
    exact ⟨_, builds_klass.mpr rfl, name_T_wellFormed, name_T_fits⟩
  have hcall : (Op.Get_Klass none name_T).call s = .ok (some a, s') := by
    rw [Op.call, hrun]
    rfl
  exact ⟨s', a, hspelled.step hlegal hspells hcall, hdesc⟩

/-- Descriptors are shared exactly: in every state that calls for well-formed types reach, an
address stands for one type and a type has at most one address, and each further call returns
a descriptor of the kind and with the components that it is given, and changes none that is
there. -/
theorem Spelled.shared (h : Spelled s held) :
    (∀ a < s.heap.length, ∃ t : TypeDesc, t.WellFormed ∧ Describes s.labels t a) ∧
    (∀ t u a b, Describes s.labels t a → Describes s.labels u b → (a = b ↔ t = u)) ∧
    ∀ op : Op, op.Legal s held → op.Spells s →
      (∃ r s', op.call s = .ok (r, s') ∧ op.Kept s r s') ∨ op.call s = .error .overflow := by
  obtain ⟨hc, hbased⟩ := h.canonical
  refine ⟨fun a ha => ?_, fun t u a b ht hu => ⟨?_, ?_⟩, fun op hlegal hspells =>
    Op.call_kept h.reaches.interned hc hbased hlegal hspells⟩
  · obtain ⟨d, hd, -⟩ := h.reaches.interned.holds ha
    have hlabel := Memory.labels_eq_some_iff.mpr ⟨d, hd, rfl⟩
    obtain ⟨t, ht, hbuilds, -⟩ := hc.tree hlabel
    exact ⟨t, ht, _, hlabel, hbuilds⟩
  · rintro rfl
    exact ht.unique hu
  · rintro rfl
    exact hc.inj ht hu

theorem Spelled.shared_T : ∃ s a, Spelled s [] ∧ Describes s.labels (.klass none name_T) a ∧
    ∀ t b, Describes s.labels t b → (a = b ↔ TypeDesc.klass none name_T = t) := by
  obtain ⟨s, a, h, ha⟩ := spelled_T
  exact ⟨s, a, h, ha, fun t b hb => h.shared.2.1 _ t a b ha hb⟩

end koala.desctable
