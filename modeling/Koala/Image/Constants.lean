import Koala.Image.Alike
import Koala.Image.KImage

open koala.atomtable koala.typedesc

namespace koala.image

set_option linter.style.nameCheck false

theorem float_eq_iff {f g : BitVec 64} :
    float_eq f g = true ↔ isNaN f = false ∧ isNaN g = false ∧
      (f = g ∨ (f.toNat % 2 ^ 63 = 0 ∧ g.toNat % 2 ^ 63 = 0)) := by
  simp [float_eq, and_assoc]

theorem float_eq_trans {f g h : BitVec 64} (hfg : float_eq f g = true)
    (hgh : float_eq g h = true) : float_eq f h = true := by
  obtain ⟨hf, _, hfg⟩ := float_eq_iff.mp hfg
  obtain ⟨_, hh, hgh⟩ := float_eq_iff.mp hgh
  refine float_eq_iff.mpr ⟨hf, hh, ?_⟩
  rcases hfg with rfl | ⟨hzero, hzero'⟩
  · exact hgh
  · rcases hgh with rfl | ⟨_, hzero''⟩
    · exact Or.inr ⟨hzero, hzero'⟩
    · exact Or.inr ⟨hzero, hzero''⟩

/-- The constants that are hashed and compared by value. -/
def ConstVal.plain : ConstVal → Bool
  | .CONST_FLOAT _ | .CONST_BOOL _ => false
  | _ => true

theorem constitem_equal_plain {val : ConstVal} (hplain : val.plain = true) (c : ConstItem)
    (addr : Nat) : constitem_equal c ⟨addr, val⟩ = true ↔ c.val = val := by
  obtain ⟨addr', val'⟩ := c
  cases val' <;> cases val <;> simp_all [constitem_equal, ConstVal.plain]

theorem constitem_hash_plain {val : ConstVal} (hplain : val.plain = true) (addr addr' : Nat) :
    constitem_hash ⟨addr, val⟩ = constitem_hash ⟨addr', val⟩ := by
  cases val with
  | CONST_FLOAT | CONST_BOOL => cases hplain
  | _ => rfl

theorem constitem_equal_float {c : ConstItem} {addr : Nat} {f : BitVec 64}
    (h : constitem_equal c ⟨addr, .CONST_FLOAT f⟩ = true) :
    ∃ g, c.val = .CONST_FLOAT g ∧ float_eq g f = true := by
  obtain ⟨addr', val⟩ := c
  cases val with
  | CONST_FLOAT g => exact ⟨g, rfl, h⟩
  | _ => cases h

theorem constitem_equal_bool {c : ConstItem} {addr : Nat} {b : BitVec 32}
    (h : constitem_equal c ⟨addr, .CONST_BOOL b⟩ = true) : c.addr = addr := by
  obtain ⟨addr', val⟩ := c
  cases val with
  | CONST_BOOL => exact of_decide_eq_true h
  | _ => cases h

section table

variable {T T₁ : Table} {key item : Nat} {val : ConstVal} {index : Int}

/-- An entry that equals a constant is the entry of a constant. -/
theorem const_of_equal (hwf : WF T) {e : Entry} (he : e ∈ T.table.order) {j : Int}
    {c : ConstItem} (h : Item_Equal e ⟨.ITEM_CONST, j, c⟩ = true) :
    ∃ (i : Nat) (d : ConstItem), e = ⟨.ITEM_CONST, i, d⟩ ∧
      (T.items .ITEM_CONST)[i]? = some d ∧ constitem_equal d c = true := by
  have hget := hwf.entry_get e he
  obtain ⟨type, i, d⟩ := e
  obtain rfl : type = .ITEM_CONST := by
    cases type <;> first | rfl | simp [Item_Equal] at h
  obtain ⟨n, rfl, _, hd⟩ := AtomTable_Get_some hget
  exact ⟨n, d, rfl, hd, h⟩

/-- Where a search finds a constant. -/
theorem ConstItem_Get_cases (hwf : WF T) (c : ConstItem) :
    ConstItem_Get T c = -1 ∨
      ∃ (i : Nat) (d : ConstItem), ConstItem_Get T c = i ∧
        (T.items .ITEM_CONST)[i]? = some d ∧ constitem_equal d c = true := by
  rcases hwf.index_nonneg_or .ITEM_CONST c with hneg | hpos
  · exact Or.inl hneg
  · obtain ⟨e, he, hindex, _, hequal⟩ := hwf.index_found hpos
    obtain ⟨i, d, rfl, hd, hdc⟩ := const_of_equal hwf he hequal
    exact Or.inr ⟨i, d, hindex, hd, hdc⟩

/-- A constant is found, or it is appended. -/
theorem constitem_set_ok (hwf : WF T)
    (h : constitem_set key item T val = .ok (index, T₁)) :
    T₁ = T ∨ (WF T₁ ∧ T₁.items = appended T .ITEM_CONST ⟨item, val⟩) := by
  unfold constitem_set at h
  dsimp only at h
  split at h
  · exact Or.inr ⟨hwf.append h, (AtomTable_Append_ok h).2.1⟩
  · cases h
    exact Or.inl rfl

/-- A constant that is not found can be appended when no stored constant equals
it. -/
theorem constitem_set_append (hwf : WF T) (hneg : ConstItem_Get T ⟨key, val⟩ = -1)
    (habsent : ∀ c ∈ T.items .ITEM_CONST, constitem_equal c ⟨item, val⟩ = false) :
    ∃ T₁, constitem_set key item T val = .ok ((AtomTable_Size T .ITEM_CONST : Int), T₁) ∧
      WF T₁ ∧ T₁.items = appended T .ITEM_CONST ⟨item, val⟩ := by
  have hdiffer : ItemKind.unique .ITEM_CONST = true → ∀ e ∈ T.table.order,
      Item_Equal e ⟨.ITEM_CONST, AtomTable_Size T .ITEM_CONST, ⟨item, val⟩⟩ = false := by
    intro _ e he
    by_contra hne
    obtain ⟨i, d, _, hd, hequal⟩ := const_of_equal hwf he (by simpa using hne)
    rw [habsent d (List.mem_of_getElem? hd)] at hequal
    cases hequal
  obtain ⟨T₁, happend⟩ := hwf.append_differing hdiffer
  refine ⟨T₁, ?_, hwf.append happend, (AtomTable_Append_ok happend).2.1⟩
  unfold constitem_set
  rw [hneg]
  exact happend

/-- A constant that equals no stored one is appended, wherever it is hashed. -/
theorem constitem_set_new (hwf : WF T)
    (hkey : ∀ c ∈ T.items .ITEM_CONST, constitem_equal c ⟨key, val⟩ = false)
    (hitem : ∀ c ∈ T.items .ITEM_CONST, constitem_equal c ⟨item, val⟩ = false) :
    ∃ T₁, constitem_set key item T val = .ok ((AtomTable_Size T .ITEM_CONST : Int), T₁) ∧
      WF T₁ ∧ T₁.items = appended T .ITEM_CONST ⟨item, val⟩ := by
  refine constitem_set_append hwf ?_ hitem
  rcases ConstItem_Get_cases hwf ⟨key, val⟩ with hneg | ⟨i, d, _, hd, hequal⟩
  · exact hneg
  · rw [hkey d (List.mem_of_getElem? hd)] at hequal
    cases hequal

/-- Two constants with one value are never stored when it is compared by
value. -/
theorem plain_injective (hwf : WF T) (hplain : val.plain = true) {i j : Nat} {c d : ConstItem}
    (hc : (T.items .ITEM_CONST)[i]? = some c) (hd : (T.items .ITEM_CONST)[j]? = some d)
    (hcval : c.val = val) (hdval : d.val = val) : i = j := by
  by_contra hne
  rw [← AtomTable_Get_of_nonneg T .ITEM_CONST] at hc hd
  obtain ⟨addr, u⟩ := c
  obtain ⟨addr', v⟩ := d
  rw [show u = val from hcval] at hc
  rw [show v = val from hdval] at hd
  have hfalse := hwf.items_distinct Item_Equal_comm rfl (by omega) hc hd
    (constitem_hash_plain hplain addr addr')
  have htrue := (constitem_equal_plain hplain ⟨addr, val⟩ addr').mpr rfl
  rw [Item_Equal, htrue] at hfalse
  cases hfalse

/-- A stored constant is found when it is compared by value. -/
theorem ConstItem_Get_plain (hwf : WF T) (hplain : val.plain = true) {i : Nat} {c : ConstItem}
    (hc : (T.items .ITEM_CONST)[i]? = some c) (hval : c.val = val) :
    ConstItem_Get T ⟨key, val⟩ = i := by
  rcases ConstItem_Get_cases hwf ⟨key, val⟩ with hneg | ⟨j, d, hj, hd, hequal⟩
  · have hi := hc
    rw [← AtomTable_Get_of_nonneg T .ITEM_CONST] at hi
    have hhash : constitem_hash c = constitem_hash ⟨key, val⟩ := by
      obtain ⟨addr, _⟩ := c
      obtain rfl : _ = val := hval
      exact constitem_hash_plain hplain addr key
    have hfalse := hwf.index_not_found rfl hneg hi hhash
    have htrue := (constitem_equal_plain hplain c key).mpr hval
    rw [Item_Equal, htrue] at hfalse
    cases hfalse
  · have hdval := (constitem_equal_plain hplain d key).mp hequal
    rw [hj, plain_injective hwf hplain hd hc hdval hval]

theorem constitem_set_plain (hwf : WF T) (hplain : val.plain = true) {i : Nat} {c : ConstItem}
    (hc : (T.items .ITEM_CONST)[i]? = some c) (hval : c.val = val) :
    constitem_set key item T val = .ok ((i : Int), T) := by
  unfold constitem_set
  rw [ConstItem_Get_plain hwf hplain hc hval]
  exact if_neg (by omega)

/-- The search for a constant compared by value depends on the constants
alone. -/
theorem ConstItem_Get_congr {T' : Table} (hwf : WF T) (hwf' : WF T') (hplain : val.plain = true)
    (hitems : T'.items .ITEM_CONST = T.items .ITEM_CONST) :
    ConstItem_Get T' ⟨key, val⟩ = ConstItem_Get T ⟨key, val⟩ := by
  rcases ConstItem_Get_cases hwf' ⟨key, val⟩ with hneg | ⟨i, c, hi, hc, hequal⟩
  · rcases ConstItem_Get_cases hwf ⟨key, val⟩ with hneg' | ⟨i, c, _, hc, hequal⟩
    · rw [hneg, hneg']
    · rw [← hitems] at hc
      have hval := (constitem_equal_plain hplain c key).mp hequal
      rw [ConstItem_Get_plain hwf' hplain hc hval] at hneg
      omega
  · rw [hitems] at hc
    have hval := (constitem_equal_plain hplain c key).mp hequal
    rw [hi, ConstItem_Get_plain hwf hplain hc hval]

end table

/-- The same index was returned with two images that are alike. -/
def ImageAlike (K K' : List ConstItem) (r r' : Option Int × KImage) : Prop :=
  r.1 = r'.1 ∧ r.2.header = r'.2.header ∧ Alike K K' r.2.table r'.2.table

/-- The calls that store a constant. -/
def stores_const : Add → Bool
  | .Integer _ | .Float _ | .Bool _ | .String _ | .UChar _ => true
  | _ => false

variable {K K' : List ConstItem} {image image' : KImage}

theorem noindex_agree {x y : Res KImage}
    (h : Agree (fun a b => a.header = b.header ∧ Alike K K' a.table b.table) x y) :
    Agree (ImageAlike K K') (noindex x) (noindex y) :=
  h.map fun _ _ hab => ⟨rfl, hab.1, hab.2⟩

theorem withindex_agree {x y : Res (Int × KImage)}
    (h : Agree (fun a b => a.1 = b.1 ∧ a.2.header = b.2.header ∧ Alike K K' a.2.table b.2.table)
      x y) : Agree (ImageAlike K K') (withindex x) (withindex y) :=
  h.map fun _ _ hab => ⟨congrArg some hab.1, hab.2.1, hab.2.2⟩

theorem nfunc_classindex_agree {T T' : Table} (h : Alike K K' T T') (klazz : Option CString) :
    Agree (AlikeAt K K') (nfunc_classindex T klazz) (nfunc_classindex T' klazz) := by
  cases klazz with
  | none => exact .ok ⟨rfl, h⟩
  | some klazz => exact h.TypeItem_Set_agree (.klass none klazz)

/-- A call that stores no constant does not look at the constants. -/
theorem KImage.add_agree (hheader : image.header = image'.header)
    (h : Alike K K' image.table image'.table) {a : Add} (ha : stores_const a = false)
    (mem mem' : Memory) (n : Nat) :
    Agree (ImageAlike K K') (image.add mem n a) (image'.add mem' n a) := by
  cases a with
  | Integer | Float | Bool | String | UChar => cases ha
  | Var name desc konst =>
    refine noindex_agree ((h.TypeItem_Set_agree desc).bind ?_)
    rintro ⟨typeindex, T⟩ ⟨typeindex', T'⟩ ⟨rfl, hT⟩
    refine (hT.StringItem_Set_agree name).bind ?_
    rintro ⟨nameindex, T₁⟩ ⟨nameindex', T₁'⟩ ⟨rfl, hT₁⟩
    refine (hT₁.append_plain rfl _).bind ?_
    rintro ⟨index, T₂⟩ ⟨index', T₂'⟩ ⟨rfl, hT₂⟩
    exact .ok ⟨hheader, hT₂⟩
  | LocVar name desc pos index =>
    refine noindex_agree ((h.TypeItem_Set_agree desc).bind ?_)
    rintro ⟨typeindex, T⟩ ⟨typeindex', T'⟩ ⟨rfl, hT⟩
    refine (hT.StringItem_Set_agree name).bind ?_
    rintro ⟨nameindex, T₁⟩ ⟨nameindex', T₁'⟩ ⟨rfl, hT₁⟩
    refine (hT₁.append_plain rfl _).bind ?_
    rintro ⟨index, T₂⟩ ⟨index', T₂'⟩ ⟨rfl, hT₂⟩
    exact .ok ⟨hheader, hT₂⟩
  | Func name proto codes =>
    refine withindex_agree ((h.StringItem_Set_agree name).bind ?_)
    rintro ⟨nameindex, T⟩ ⟨nameindex', T'⟩ ⟨rfl, hT⟩
    refine (hT.ProtoItem_Set_agree proto).bind ?_
    rintro ⟨protoindex, T₁⟩ ⟨protoindex', T₁'⟩ ⟨rfl, hT₁⟩
    refine (hT₁.append_plain (show ItemKind.ITEM_CODE.unique = false from rfl) ⟨codes⟩).bind ?_
    rintro ⟨codeindex, T₂⟩ ⟨codeindex', T₂'⟩ ⟨rfl, hT₂⟩
    refine (hT₂.append_plain rfl _).bind ?_
    rintro ⟨index, T₃⟩ ⟨index', T₃'⟩ ⟨rfl, hT₃⟩
    exact .ok ⟨rfl, hheader, hT₃⟩
  | Class name supers =>
    refine noindex_agree ((h.TypeItem_Set_agree (.klass none name)).bind ?_)
    rintro ⟨classindex, T⟩ ⟨classindex', T'⟩ ⟨rfl, hT⟩
    refine (hT.TypeListItem_Set_agree supers).bind ?_
    rintro ⟨superindex, T₁⟩ ⟨superindex', T₁'⟩ ⟨rfl, hT₁⟩
    refine (hT₁.append_plain rfl _).bind ?_
    rintro ⟨index, T₂⟩ ⟨index', T₂'⟩ ⟨rfl, hT₂⟩
    exact .ok ⟨hheader, hT₂⟩
  | Field clazz name desc =>
    refine noindex_agree ((h.TypeItem_Set_agree (.klass none clazz)).bind ?_)
    rintro ⟨classindex, T⟩ ⟨classindex', T'⟩ ⟨rfl, hT⟩
    refine (hT.StringItem_Set_agree name).bind ?_
    rintro ⟨nameindex, T₁⟩ ⟨nameindex', T₁'⟩ ⟨rfl, hT₁⟩
    refine (hT₁.TypeItem_Set_agree desc).bind ?_
    rintro ⟨typeindex, T₂⟩ ⟨typeindex', T₂'⟩ ⟨rfl, hT₂⟩
    refine (hT₂.append_plain rfl _).bind ?_
    rintro ⟨index, T₃⟩ ⟨index', T₃'⟩ ⟨rfl, hT₃⟩
    exact .ok ⟨hheader, hT₃⟩
  | Method klazz name proto codes =>
    refine withindex_agree ((h.TypeItem_Set_agree (.klass none klazz)).bind ?_)
    rintro ⟨classindex, T⟩ ⟨classindex', T'⟩ ⟨rfl, hT⟩
    refine (hT.StringItem_Set_agree name).bind ?_
    rintro ⟨nameindex, T₁⟩ ⟨nameindex', T₁'⟩ ⟨rfl, hT₁⟩
    refine (hT₁.ProtoItem_Set_agree proto).bind ?_
    rintro ⟨protoindex, T₂⟩ ⟨protoindex', T₂'⟩ ⟨rfl, hT₂⟩
    refine (hT₂.append_plain (show ItemKind.ITEM_CODE.unique = false from rfl) ⟨codes⟩).bind ?_
    rintro ⟨codeindex, T₃⟩ ⟨codeindex', T₃'⟩ ⟨rfl, hT₃⟩
    refine (hT₃.append_plain rfl _).bind ?_
    rintro ⟨index, T₄⟩ ⟨index', T₄'⟩ ⟨rfl, hT₄⟩
    exact .ok ⟨rfl, hheader, hT₄⟩
  | Trait name traits =>
    refine noindex_agree ((h.TypeItem_Set_agree (.klass none name)).bind ?_)
    rintro ⟨classindex, T⟩ ⟨classindex', T'⟩ ⟨rfl, hT⟩
    refine (hT.TypeListItem_Set_agree traits).bind ?_
    rintro ⟨traitsindex, T₁⟩ ⟨traitsindex', T₁'⟩ ⟨rfl, hT₁⟩
    refine (hT₁.append_plain rfl _).bind ?_
    rintro ⟨index, T₂⟩ ⟨index', T₂'⟩ ⟨rfl, hT₂⟩
    exact .ok ⟨hheader, hT₂⟩
  | NFunc klazz name proto =>
    refine noindex_agree ((nfunc_classindex_agree h klazz).bind ?_)
    rintro ⟨classindex, T⟩ ⟨classindex', T'⟩ ⟨rfl, hT⟩
    refine (hT.StringItem_Set_agree name).bind ?_
    rintro ⟨nameindex, T₁⟩ ⟨nameindex', T₁'⟩ ⟨rfl, hT₁⟩
    refine (hT₁.ProtoItem_Set_agree proto).bind ?_
    rintro ⟨protoindex, T₂⟩ ⟨protoindex', T₂'⟩ ⟨rfl, hT₂⟩
    refine (hT₂.append_plain rfl _).bind ?_
    rintro ⟨index, T₃⟩ ⟨index', T₃'⟩ ⟨rfl, hT₃⟩
    exact .ok ⟨hheader, hT₃⟩
  | IMeth trait name proto =>
    refine noindex_agree ((h.TypeItem_Set_agree (.klass none trait)).bind ?_)
    rintro ⟨classindex, T⟩ ⟨classindex', T'⟩ ⟨rfl, hT⟩
    refine (hT.StringItem_Set_agree name).bind ?_
    rintro ⟨nameindex, T₁⟩ ⟨nameindex', T₁'⟩ ⟨rfl, hT₁⟩
    refine (hT₁.ProtoItem_Set_agree proto).bind ?_
    rintro ⟨protoindex, T₂⟩ ⟨protoindex', T₂'⟩ ⟨rfl, hT₂⟩
    refine (hT₂.append_plain rfl _).bind ?_
    rintro ⟨index, T₃⟩ ⟨index', T₃'⟩ ⟨rfl, hT₃⟩
    exact .ok ⟨hheader, hT₃⟩

end koala.image
