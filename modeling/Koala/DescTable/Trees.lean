import Koala.DescTable.History

open koala.hashtable koala.stringbuf koala.typedesc refcount

namespace koala.typedesc

set_option linter.style.nameCheck false

/-- A format with a text in place of each `#`, piece by piece. -/
def pieces : List UInt8 → List (List UInt8) → List (List UInt8)
  | [], _ => []
  | ch :: fmt, args =>
    if ch = HASH then
      match args with
      | [] => []
      | s :: args => s :: pieces fmt args
    else [ch] :: pieces fmt args

theorem format_pieces_eq (fmt : List UInt8) (args : List Str) :
    format_pieces fmt args = pieces fmt (args.map Str.bytes) := by
  induction fmt generalizing args with
  | nil => cases args <;> rfl
  | cons ch fmt ih =>
    by_cases hch : ch = HASH
    · cases args with
      | nil => simp [format_pieces, pieces, hch]
      | cons s args => simp [format_pieces, pieces, hch, ih]
    · simp [format_pieces, pieces, hch, ih]

/-- The buffers that the text of a descriptor is spelled in keep all that is put into them. -/
def TypeDesc.Fit : TypeDesc → Prop
  | .base _ => True
  | .klass path type => AllFit 0 (pieces (chars "L#.#;") [Str.bytes path, type.bytes])
  | .proto arg ret => AllFit 0 (arg.map text) ∧ AllFit 0 (ret.map text) ∧
    AllFit 0 (pieces (chars "P#:#;") [textList arg, textList ret])
  | .array dims t => AllFit 0 (List.replicate dims.toInt.toNat ['['.toUInt8] ++ [t.text])
  | .map key val => AllFit 0 (pieces (chars "M#:#") [key.text, val.text])
  | .set t => AllFit 0 (pieces (chars "S#") [t.text])
  | .varg t => AllFit 0 (pieces (chars "...#") [t.text])

end koala.typedesc

namespace koala.desctable

set_option linter.style.nameCheck false

/-- What is fixed of the descriptors when they are made. -/
abbrev Labels := List (Option (Body × CString))

def Memory.labels (m : Memory) : Labels := m.heap.map (Option.map fun d => (d.body, d.desc))

mutual

/-- A body is that of a type, with its components at the addresses it has. -/
def Builds (labels : Labels) : TypeDesc → Body → Prop
  | .base type, body => body = .base type
  | .klass path type, body => body = .klass path type
  | .proto arg ret, body => ∃ as rs, body = .proto as rs ∧
    BuildsEach labels arg (as.getD []) ∧ BuildsEach labels ret (rs.getD [])
  | .array dims t, body => ∃ a, body = .array dims.toInt a ∧
    ∃ label, labels[a]? = some (some label) ∧ Builds labels t label.1
  | .map key val, body => ∃ a b, body = .map a b ∧
    (∃ label, labels[a]? = some (some label) ∧ Builds labels key label.1) ∧
    ∃ label, labels[b]? = some (some label) ∧ Builds labels val label.1
  | .set t, body => ∃ a, body = .set a ∧
    ∃ label, labels[a]? = some (some label) ∧ Builds labels t label.1
  | .varg t, body => ∃ a, body = .varg a ∧
    ∃ label, labels[a]? = some (some label) ∧ Builds labels t label.1

def BuildsEach (labels : Labels) : List TypeDesc → List Addr → Prop
  | [], vec => vec = []
  | t :: ts, vec => ∃ a rest, vec = a :: rest ∧
    (∃ label, labels[a]? = some (some label) ∧ Builds labels t label.1) ∧
    BuildsEach labels ts rest

end

example {labels : Labels} {type : BaseType} : Builds labels (.base type) (.base type) := by
  simp only [Builds]

/-- The descriptor at an address is that of a type. -/
def Describes (labels : Labels) (t : TypeDesc) (a : Addr) : Prop :=
  ∃ label, labels[a]? = some (some label) ∧ Builds labels t label.1

/-- A vector that was never made is one without elements. -/
def Body.norm : Body → Body
  | .proto arg ret => .proto (some (arg.getD [])) (some (ret.getD []))
  | body => body

/-- The table of descriptors: each is that of a well-formed type and has its text, and
no two have one text. -/
structure Canonical (labels : Labels) : Prop where
  tree : ∀ {a : Addr} {label : Body × CString}, labels[a]? = some (some label) →
    ∃ t : TypeDesc, t.WellFormed ∧ Builds labels t label.1 ∧ label.2.bytes = t.text
  distinct : ∀ {a b : Addr} {label label' : Body × CString}, labels[a]? = some (some label) →
    labels[b]? = some (some label') → label.2 = label'.2 → a = b

/-- What a call asks for. -/
def Op.body : Op → Option Body
  | .Get_Base base => (get_basic base).map .base
  | .Get_Klass path type => some (.klass path type)
  | .Get_Proto arg ret => some (.proto arg ret)
  | .Get_Array dims base => some (.array dims base)
  | .Get_Map key val => some (.map key val)
  | .Get_Set base => some (.set base)
  | .Get_Varg base => some (.varg (base.getD (BaseType.addr .BASE_ANY)))
  | .INCREF _ => none
  | .DECREF _ => none

/-- A call with the descriptor that it returns. -/
def Op.call (s : State) : Op → Res (Option Addr × State)
  | .Get_Base base => (fun desc => (some desc, s)) <$> TypeDesc_Get_Base base
  | .Get_Klass path type => Prod.map some id <$> TypeDesc_Get_Klass s path type
  | .Get_Proto arg ret => Prod.map some id <$> TypeDesc_Get_Proto s arg ret
  | .Get_Array dims base => Prod.map some id <$> TypeDesc_Get_Array s dims base
  | .Get_Map key val => Prod.map some id <$> TypeDesc_Get_Map s key val
  | .Get_Set base => Prod.map some id <$> TypeDesc_Get_Set s base
  | .Get_Varg base => Prod.map some id <$> TypeDesc_Get_Varg s base
  | .INCREF desc => (fun s => (none, s)) <$> TYPE_INCREF s desc
  | .DECREF desc => (fun s => (none, s)) <$> TYPE_DECREF s desc

/-- The type that a call asks for is well-formed, and its text fits its buffers. -/
def Op.Spells (s : State) (op : Op) : Prop :=
  ∀ body, op.body = some body → ∃ t : TypeDesc, Builds s.labels t body ∧ t.WellFormed ∧ t.Fit

/-- The states behind `Init_TypeDesc` and any history of calls that ask for well-formed types. -/
inductive Spelled : State → List Addr → Prop where
  | init {s : State} (hinit : Init_TypeDesc = .ok s) : Spelled s []
  | step {s s' : State} {held : List Addr} {op : Op} {r : Option Addr} (h : Spelled s held)
    (hlegal : op.Legal s held) (hspells : op.Spells s) (hcall : op.call s = .ok (r, s')) :
    Spelled s' (op.held held)

section labels

variable {labels labels' : Labels} {t u : TypeDesc} {body body' : Body} {a b : Addr}

theorem buildsEach_iff {ts : List TypeDesc} {vec : List Addr} :
    BuildsEach labels ts vec ↔ List.Forall₂ (Describes labels) ts vec := by
  induction ts generalizing vec with
  | nil => rw [BuildsEach, List.forall₂_nil_left_iff]
  | cons t ts ih =>
    rw [BuildsEach, List.forall₂_cons_left_iff]
    constructor
    · rintro ⟨a, rest, rfl, hhead, htail⟩
      exact ⟨a, rest, hhead, ih.mp htail, rfl⟩
    · rintro ⟨a, rest, hhead, htail, rfl⟩
      exact ⟨a, rest, rfl, hhead, ih.mpr htail⟩

theorem builds_base {type : BaseType} : Builds labels t (.base type) ↔ t = .base type := by
  cases t <;> simp [Builds, eq_comm]

theorem builds_klass {path : Str} {type : CString} :
    Builds labels t (.klass path type) ↔ t = .klass path type := by
  cases t <;> simp [Builds, eq_comm]

theorem builds_proto {arg ret : Option (List Addr)} :
    Builds labels t (.proto arg ret) ↔ ∃ args rets, t = .proto args rets ∧
      BuildsEach labels args (arg.getD []) ∧ BuildsEach labels rets (ret.getD []) := by
  cases t <;> simp [Builds]

theorem builds_array {dims : Int} :
    Builds labels t (.array dims a) ↔ ∃ (n : BitVec 32) (u : TypeDesc), n.toInt = dims ∧
      t = .array n u ∧ Describes labels u a := by
  cases t <;> simp [Builds, Describes, eq_comm]

theorem builds_map : Builds labels t (.map a b) ↔ ∃ key val, t = .map key val ∧
    Describes labels key a ∧ Describes labels val b := by
  cases t <;> simp [Builds, Describes]

theorem builds_set : Builds labels t (.set a) ↔ ∃ u, t = .set u ∧ Describes labels u a := by
  cases t <;> simp [Builds, Describes]

theorem builds_varg : Builds labels t (.varg a) ↔ ∃ u, t = .varg u ∧ Describes labels u a := by
  cases t <;> simp [Builds, Describes]

/-- Bodies of one type have the same components, if each type has one address. -/
theorem Builds.norm_eq (h : Builds labels t body) (h' : Builds labels t body')
    (hinj : ∀ {u a b}, Describes labels u a → Describes labels u b → a = b) :
    body.norm = body'.norm := by
  have heach : ∀ {ts : List TypeDesc} {as bs : List Addr}, BuildsEach labels ts as →
      BuildsEach labels ts bs → as = bs := by
    intro ts as bs has hbs
    rw [buildsEach_iff] at has hbs
    have hunique : Relator.RightUnique (Describes labels) := fun _ _ _ => hinj
    exact List.right_unique_forall₂' hunique has hbs
  cases t with
  | base type =>
    rw [Builds] at h h'
    rw [h, h']
  | klass path type =>
    rw [Builds] at h h'
    rw [h, h']
  | proto arg ret =>
    rw [Builds] at h h'
    obtain ⟨as, rs, rfl, has, hrs⟩ := h
    obtain ⟨as', rs', rfl, has', hrs'⟩ := h'
    rw [Body.norm, Body.norm, heach has has', heach hrs hrs']
  | array dims t =>
    rw [Builds] at h h'
    obtain ⟨a, rfl, ha⟩ := h
    obtain ⟨b, rfl, hb⟩ := h'
    rw [hinj ha hb]
  | map key val =>
    rw [Builds] at h h'
    obtain ⟨a, b, rfl, ha, hb⟩ := h
    obtain ⟨a', b', rfl, ha', hb'⟩ := h'
    rw [hinj ha ha', hinj hb hb']
  | set t =>
    rw [Builds] at h h'
    obtain ⟨a, rfl, ha⟩ := h
    obtain ⟨b, rfl, hb⟩ := h'
    rw [hinj ha hb]
  | varg t =>
    rw [Builds] at h h'
    obtain ⟨a, rfl, ha⟩ := h
    obtain ⟨b, rfl, hb⟩ := h'
    rw [hinj ha hb]

theorem label_mono {label : Body × CString} (hext : labels <+: labels')
    (ha : labels[a]? = some (some label)) : labels'[a]? = some (some label) := by
  obtain ⟨more, rfl⟩ := hext
  exact (List.getElem?_append_left (List.getElem?_eq_some_iff.mp ha).1).trans ha

theorem builds_mono (t : TypeDesc) : ∀ {body : Body}, labels <+: labels' →
    Builds labels t body → Builds labels' t body := by
  have heach : ∀ {ts : List TypeDesc} {vec : List Addr},
      (∀ t ∈ ts, ∀ {body : Body}, labels <+: labels' → Builds labels t body →
        Builds labels' t body) → labels <+: labels' →
      BuildsEach labels ts vec → BuildsEach labels' ts vec := by
    intro ts vec hall hext h
    rw [buildsEach_iff] at h ⊢
    induction h with
    | nil => exact .nil
    | cons hhead _ ih =>
      obtain ⟨label, ha, hbody⟩ := hhead
      refine .cons ⟨label, label_mono hext ha, hall _ List.mem_cons_self hext hbody⟩ ?_
      exact ih fun t ht => hall t (List.mem_cons_of_mem _ ht)
  induction t using TypeDesc.induct with
  | base type =>
    intro body _ h
    rw [Builds] at h ⊢
    exact h
  | klass path type =>
    intro body _ h
    rw [Builds] at h ⊢
    exact h
  | proto arg ret iharg ihret =>
    intro body hext h
    rw [Builds] at h ⊢
    obtain ⟨as, rs, hbody, has, hrs⟩ := h
    exact ⟨as, rs, hbody, heach iharg hext has, heach ihret hext hrs⟩
  | array dims t ih =>
    intro body hext h
    rw [Builds] at h ⊢
    obtain ⟨a, hbody, label, ha, hlabelled⟩ := h
    exact ⟨a, hbody, label, label_mono hext ha, ih hext hlabelled⟩
  | map key val ihkey ihval =>
    intro body hext h
    rw [Builds] at h ⊢
    obtain ⟨a, b, hbody, ⟨label, ha, hkey⟩, label', hb, hval⟩ := h
    exact ⟨a, b, hbody, ⟨label, label_mono hext ha, ihkey hext hkey⟩, label', label_mono hext hb,
      ihval hext hval⟩
  | set t ih =>
    intro body hext h
    rw [Builds] at h ⊢
    obtain ⟨a, hbody, label, ha, hlabelled⟩ := h
    exact ⟨a, hbody, label, label_mono hext ha, ih hext hlabelled⟩
  | varg t ih =>
    intro body hext h
    rw [Builds] at h ⊢
    obtain ⟨a, hbody, label, ha, hlabelled⟩ := h
    exact ⟨a, hbody, label, label_mono hext ha, ih hext hlabelled⟩

/-- What an address describes stays when descriptors are added. -/
theorem Describes.mono (hext : labels <+: labels') (h : Describes labels t a) :
    Describes labels' t a := by
  obtain ⟨label, ha, hbuilds⟩ := h
  exact ⟨label, label_mono hext ha, builds_mono t hext hbuilds⟩

/-- A body is that of one type. -/
theorem builds_unique (t : TypeDesc) : ∀ {u : TypeDesc} {body : Body}, Builds labels t body →
    Builds labels u body → t = u := by
  have hone : ∀ {t u : TypeDesc} {a : Addr},
      (∀ {u : TypeDesc} {body : Body}, Builds labels t body → Builds labels u body → t = u) →
      Describes labels t a → Describes labels u a → t = u := by
    rintro t u a hall ⟨label, ha, ht⟩ ⟨label', ha', hu⟩
    cases ha.symm.trans ha'
    exact hall ht hu
  have heach : ∀ {ts us : List TypeDesc} {vec : List Addr},
      (∀ t ∈ ts, ∀ {u : TypeDesc} {body : Body}, Builds labels t body → Builds labels u body →
        t = u) →
      BuildsEach labels ts vec → BuildsEach labels us vec → ts = us := by
    intro ts us vec hall hts hus
    rw [buildsEach_iff] at hts hus
    induction hts generalizing us with
    | nil =>
      cases hus
      rfl
    | cons hhead _ ih =>
      obtain ⟨u, us, hhead', htail, rfl⟩ := List.forall₂_cons_right_iff.mp hus
      rw [hone (hall _ List.mem_cons_self) hhead hhead',
        ih (fun t ht => hall t (List.mem_cons_of_mem _ ht)) htail]
  induction t using TypeDesc.induct with
  | base type =>
    intro u body h h'
    rw [Builds] at h
    rw [h, builds_base] at h'
    exact h'.symm
  | klass path type =>
    intro u body h h'
    rw [Builds] at h
    rw [h, builds_klass] at h'
    exact h'.symm
  | proto arg ret iharg ihret =>
    intro u body h h'
    rw [Builds] at h
    obtain ⟨as, rs, rfl, has, hrs⟩ := h
    obtain ⟨args, rets, rfl, has', hrs'⟩ := builds_proto.mp h'
    rw [heach iharg has has', heach ihret hrs hrs']
  | array dims t ih =>
    intro u body h h'
    rw [Builds] at h
    obtain ⟨a, rfl, ha⟩ := h
    obtain ⟨n, u, hn, rfl, hb⟩ := builds_array.mp h'
    rw [hone ih ha hb, BitVec.eq_of_toInt_eq hn]
  | map key val ihkey ihval =>
    intro u body h h'
    rw [Builds] at h
    obtain ⟨a, b, rfl, ha, hb⟩ := h
    obtain ⟨key', val', rfl, ha', hb'⟩ := builds_map.mp h'
    rw [hone ihkey ha ha', hone ihval hb hb']
  | set t ih =>
    intro u body h h'
    rw [Builds] at h
    obtain ⟨a, rfl, ha⟩ := h
    obtain ⟨u, rfl, hb⟩ := builds_set.mp h'
    rw [hone ih ha hb]
  | varg t ih =>
    intro u body h h'
    rw [Builds] at h
    obtain ⟨a, rfl, ha⟩ := h
    obtain ⟨u, rfl, hb⟩ := builds_varg.mp h'
    rw [hone ih ha hb]

theorem Describes.unique (h : Describes labels t a) (h' : Describes labels u a) : t = u := by
  obtain ⟨label, ha, ht⟩ := h
  obtain ⟨label', ha', hu⟩ := h'
  cases ha.symm.trans ha'
  exact builds_unique t ht hu

/-- A type has one address. -/
theorem Canonical.inj (h : Canonical labels) (ha : Describes labels t a)
    (hb : Describes labels t b) : a = b := by
  obtain ⟨label, ha, ht⟩ := ha
  obtain ⟨label', hb, hu⟩ := hb
  obtain ⟨t', -, hbuilds, htext⟩ := h.tree ha
  obtain ⟨u', -, hbuilds', htext'⟩ := h.tree hb
  refine h.distinct ha hb (CString.ext ?_)
  rw [htext, htext', ← builds_unique t ht hbuilds, ← builds_unique t hu hbuilds']

/-- A text that a well-formed type has is found at the address of the type. -/
theorem Canonical.found (h : Canonical labels) {label : Body × CString}
    (ha : labels[a]? = some (some label)) (ht : t.WellFormed) (htext : label.2.bytes = t.text) :
    Builds labels t label.1 := by
  obtain ⟨u, hu, hbuilds, htext'⟩ := h.tree ha
  have hprefix : t.text <+: u.text := (htext.symm.trans htext') ▸ List.prefix_refl _
  have hall : ∀ v ∈ [t, u], v.WellFormed := by simp [ht, hu]
  rwa [(TypeDesc.text_decodable hall hall).2 t u ht hu hprefix]

/-- A type that had no descriptor gets one. -/
theorem Canonical.push (h : Canonical labels) {text : CString} (ht : t.WellFormed)
    (hbuilds : Builds labels t body) (htext : text.bytes = t.text)
    (hfresh : ∀ (a : Addr) (label : Body × CString), labels[a]? = some (some label) →
      label.2 ≠ text) :
    Canonical (labels ++ [some (body, text)]) := by
  have hcases : ∀ {a : Addr} {label : Body × CString},
      (labels ++ [some (body, text)])[a]? = some (some label) →
      labels[a]? = some (some label) ∨ a = labels.length ∧ label = (body, text) := by
    intro a label ha
    obtain hlt | hge := Nat.lt_or_ge a labels.length
    · exact .inl ((List.getElem?_append_left hlt).symm.trans ha)
    · have hlt := (List.getElem?_eq_some_iff.mp ha).1
      rw [List.length_append, List.length_singleton] at hlt
      obtain rfl : a = labels.length := Nat.le_antisymm (Nat.le_of_lt_succ hlt) hge
      rw [List.getElem?_concat_length] at ha
      exact .inr ⟨rfl, (Option.some.inj (Option.some.inj ha)).symm⟩
  constructor
  · intro a label ha
    obtain ha | ⟨-, rfl⟩ := hcases ha
    · obtain ⟨t, ht, hbuilds, htext⟩ := h.tree ha
      exact ⟨t, ht, builds_mono t (List.prefix_append _ _) hbuilds, htext⟩
    · exact ⟨t, ht, builds_mono t (List.prefix_append _ _) hbuilds, htext⟩
  · intro a b label label' ha hb heq
    obtain ha | ⟨rfl, rfl⟩ := hcases ha
    · obtain hb | ⟨rfl, rfl⟩ := hcases hb
      · exact h.distinct ha hb heq
      · exact absurd heq (hfresh a label ha)
    · obtain hb | ⟨rfl, rfl⟩ := hcases hb
      · exact absurd heq.symm (hfresh b label' hb)
      · rfl

end labels

end koala.desctable
