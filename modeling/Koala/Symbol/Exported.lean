import Koala.Symbol.Export

open koala.atomtable koala.image koala.parser koala.typedesc koala.typedesc.Store

namespace koala.symbol

set_option linter.style.nameCheck false

section calls

/-- A call without the code, the index of a function and the constants, which no
type depends on. -/
def declared : Add → List Add
  | .Integer _ | .Float _ | .Bool _ | .String _ | .UChar _ => []
  | .Func name proto _ => [.Func name proto []]
  | .Method klazz name proto _ => [.Method klazz name proto []]
  | .LocVar name desc pos _ => [.LocVar name desc pos 0]
  | .Var name desc konst => [.Var name desc konst]
  | .Class name supers => [.Class name supers]
  | .Field clazz name desc => [.Field clazz name desc]
  | .Trait name traits => [.Trait name traits]
  | .NFunc klazz name proto => [.NFunc klazz name proto]
  | .IMeth trait name proto => [.IMeth trait name proto]

/-- Calls one after the other, each at a later place than the one before. -/
inductive Calls (mem : Memory) : Gen → List Add → Gen → Prop where
  | done {info info' : Gen} (hle : info.n ≤ info'.n) (heq : info'.image = info.image) :
      Calls mem info [] info'
  | call {info info' : Gen} {k : Nat} {a : Add} {r : Option Int} {image : KImage}
      {adds : List Add} (hle : info.n ≤ k) (hadd : info.image.add mem k a = .ok (r, image))
      (hrest : Calls mem ⟨k + 1, image⟩ adds info') : Calls mem info (a :: adds) info'

/-- The index that a local is recorded with is that of some item. -/
def Below (T : Table) : Add → Prop
  | .LocVar _ _ _ index => ∃ (type : ItemKind) (n : Nat), index = n ∧ n ≤ AtomTable_Size T type
  | _ => True

variable {mem : Memory} {info info' info₁ : Gen} {adds adds' : List Add} {a : Add}

theorem size_le_of_extends {T T' : Table} (h : Extends T T') (type : ItemKind) :
    AtomTable_Size T type ≤ AtomTable_Size T' type := (h type).length_le

theorem Below.extends {T T' : Table} (h : Below T a) (hext : Extends T T') : Below T' a := by
  cases a with
  | LocVar name desc pos index =>
    obtain ⟨type, n, heq, hle⟩ := h
    exact ⟨type, n, heq, hle.trans (size_le_of_extends hext type)⟩
  | _ => trivial

theorem Calls.trans (h : Calls mem info adds info₁) (h' : Calls mem info₁ adds' info') :
    Calls mem info (adds ++ adds') info' := by
  induction h with
  | @done info info₁ hle heq =>
    obtain ⟨n₁, image₁⟩ := info₁
    cases heq
    cases h' with
    | done hle' heq' => exact .done (hle.trans hle') heq'
    | call hle' hadd hrest => exact .call (hle.trans hle') hadd hrest
  | call hle hadd _ ih => exact .call hle hadd (ih h')

/-- The calls only add to an image. -/
theorem Calls.sound (h : Calls mem info adds info') (hT : Sound info.image.table) :
    Sound info'.image.table ∧ Extends info.image.table info'.image.table := by
  induction h with
  | done hle heq =>
    rw [heq]
    exact ⟨hT, Extends.refl _⟩
  | call hle hadd _ ih =>
    obtain ⟨new, hrecorded⟩ := KImage.add_ok hT hadd
    obtain ⟨hsound, hext⟩ := ih hrecorded.places.sound
    exact ⟨hsound, hrecorded.places.ext.trans hext⟩

theorem KImage.add_congr {mem' : Memory} {k k' : Nat} (image : KImage)
    (hkey : mem'.key k' = mem.key k) (hitem : mem'.item k' = mem.item k) (a : Add) :
    image.add mem' k' a = image.add mem k a := by
  cases a <;> simp only [KImage.add, hkey, hitem]

/-- The places of the calls. -/
theorem Calls.places (h : Calls mem info adds info') :
    ∃ place : Nat → Nat, StrictMono place ∧ (∀ i, info.n ≤ place i) ∧
      ∀ (mem' : Memory) (k : Nat), (∀ i, mem'.key (k + i) = mem.key (place i)) →
        (∀ i, mem'.item (k + i) = mem.item (place i)) →
        KImage.run mem' k info.image adds = .ok info'.image := by
  induction h with
  | @done info info' hle heq =>
    refine ⟨fun i => info.n + i, fun i j hij => Nat.add_lt_add_left hij _,
      fun i => Nat.le_add_right _ i, fun mem' k _ _ => ?_⟩
    rw [KImage.run, heq]
  | @call info info' k a r image adds hle hadd _ ih =>
    obtain ⟨place, hmono, hplace, hrun⟩ := ih
    refine ⟨fun i => i.casesOn k place, strictMono_nat_of_lt_succ fun i => ?_, fun i => ?_,
      fun mem' n hkey hitem => ?_⟩
    · cases i with
      | zero => exact Nat.lt_of_lt_of_le (Nat.lt_succ_self k) (hplace 0)
      | succ i => exact hmono (Nat.lt_succ_self i)
    · cases i with
      | zero => exact hle
      | succ i => exact (hle.trans (Nat.le_succ k)).trans (hplace i)
    · have hfirst : info.image.add mem' n a = info.image.add mem k a :=
        KImage.add_congr info.image (hkey 0) (hitem 0) a
      rw [KImage.run, hfirst, hadd, ok_bind]
      refine hrun mem' (n + 1) (fun i => ?_) fun i => ?_
      · rw [Nat.add_right_comm]
        exact hkey (i + 1)
      · rw [Nat.add_right_comm]
        exact hitem (i + 1)

/-- The calls of a generator are a run. -/
theorem Calls.run (h : Calls mem info adds info') :
    ∃ mem' : Memory, KImage.run mem' 0 info.image adds = .ok info'.image := by
  obtain ⟨place, hmono, -, hrun⟩ := h.places
  refine ⟨⟨fun i => mem.key (place i), fun i => mem.item (place i),
    mem.item_injective.comp hmono.injective, fun m n => mem.key_ne_item _ _⟩, hrun _ 0 ?_ ?_⟩
  · exact fun i => by rw [Nat.zero_add]
  · exact fun i => by rw [Nat.zero_add]

end calls

section exports

/-- The calls that a member makes, as far as types depend on them. -/
def Member.exports (classname : Option CString) : Member → List Add
  | .SYM_CONST name desc =>
    -- no constant is a member of a class
    classname.elim (desc.toList.map fun desc => .Var name desc 1) fun _ => []
  | .SYM_VAR name desc => desc.toList.map fun desc =>
    classname.elim (.Var name desc 0) fun klass => .Field klass name desc
  | .SYM_FUNC name desc locvec _ =>
    classname.elim (.Func name desc []) (fun klass => .Method klass name desc []) ::
      locvec.flatMap fun var => var.desc.toList.map fun desc =>
        .LocVar var.name desc (BitVec.ofNat 32 var.index) 0
  | .SYM_IFUNC name desc => classname.toList.map fun klass => .IMeth klass name desc
  | .SYM_NFUNC name desc => [.NFunc classname name desc]

def Symbol.exports : Symbol → List Add
  | .member m => m.exports none
  | .SYM_CLASS name supers stbl =>
    .Class name supers :: stbl.flatMap (Member.exports (some name))
  | .SYM_TRAIT name supers stbl =>
    .Trait name supers :: stbl.flatMap (Member.exports (some name))

/-- A generator made the calls `l` and others that store constants. -/
def Exports (mem : Memory) (info : Gen) (l : List Add) (info' : Gen) : Prop :=
  ∃ adds, Calls mem info adds info' ∧ adds.flatMap declared = l ∧
    ∀ a ∈ adds, Below info'.image.table a

variable {mem : Memory} {info info' info₁ : Gen} {l l' : List Add}

theorem Exports.trans (hT : Sound info.image.table) (h : Exports mem info l info₁)
    (h' : Exports mem info₁ l' info') : Exports mem info (l ++ l') info' := by
  obtain ⟨adds, hcalls, hl, hbelow⟩ := h
  obtain ⟨adds', hcalls', hl', hbelow'⟩ := h'
  have hext := (hcalls'.sound (hcalls.sound hT).1).2
  refine ⟨adds ++ adds', hcalls.trans hcalls', ?_, fun a ha => ?_⟩
  · rw [List.flatMap_append, hl, hl']
  · rcases List.mem_append.mp ha with ha | ha
    · exact (hbelow a ha).extends hext
    · exact hbelow' a ha

theorem Exports.sound (h : Exports mem info l info') (hT : Sound info.image.table) :
    Sound info'.image.table := by
  obtain ⟨adds, hcalls, _⟩ := h
  exact (hcalls.sound hT).1

theorem exports_nil (info : Gen) : Exports mem info [] info :=
  ⟨[], .done (Nat.le_refl _) rfl, rfl, by simp⟩

theorem Gen.add_ok {a : Add} {r : Option Int} (hT : Sound info.image.table)
    (h : info.add mem a = .ok (r, info')) : ∃ new, Recorded info.image info'.image a r new := by
  obtain ⟨⟨r', image⟩, hadd, heq⟩ := bind_eq_ok_iff.mp h
  cases heq
  exact KImage.add_ok hT hadd

theorem exports_add {a : Add} {r : Option Int} (hT : Sound info.image.table)
    (hbelow : Below info.image.table a) (h : info.add mem a = .ok (r, info')) :
    Exports mem info (declared a) info' := by
  obtain ⟨new, hrecorded⟩ := Gen.add_ok hT h
  obtain ⟨⟨r', image⟩, hadd, heq⟩ := bind_eq_ok_iff.mp h
  cases heq
  refine ⟨[a], .call (Nat.le_refl _) hadd (.done (Nat.le_refl _) rfl), ?_, fun b hb => ?_⟩
  · rw [List.flatMap_singleton]
  · rw [List.mem_singleton.mp hb]
    exact hbelow.extends hrecorded.places.ext

theorem add_void_eq_ok_iff {a : Add} :
    info.add_void mem a = .ok info' ↔ ∃ r, info.add mem a = .ok (r, info') := by
  unfold Gen.add_void
  cases info.add mem a with
  | error e => simp [Except.map]
  | ok r => simp [Except.map, Prod.ext_iff]

theorem exports_add_void {a : Add} (hT : Sound info.image.table)
    (hbelow : Below info.image.table a) (h : info.add_void mem a = .ok info') :
    Exports mem info (declared a) info' := by
  obtain ⟨r, hadd⟩ := add_void_eq_ok_iff.mp h
  exact exports_add hT hbelow hadd

theorem deref_eq_ok_iff {α : Type} {o : Option α} {a : α} :
    image.deref o = .ok a ↔ o = some a := by
  cases o with
  | none => simp [image.deref]
  | some b => simp [image.deref]

/-- The index of the locals is that of an item of some kind. -/
theorem add_locvar_exports {type : ItemKind} {n : Nat} (vec : List LocVar) {info : Gen}
    (hT : Sound info.image.table) (hn : n ≤ AtomTable_Size info.image.table type)
    (h : __add_locvar mem n vec info = .ok info') :
    Exports mem info (vec.flatMap fun var => var.desc.toList.map fun desc =>
      .LocVar var.name desc (BitVec.ofNat 32 var.index) 0) info' := by
  induction vec generalizing info with
  | nil =>
    cases h
    exact exports_nil _
  | cons var vec ih =>
    obtain ⟨desc, hdesc, h⟩ := bind_eq_ok_iff.mp h
    obtain ⟨info₁, hadd, h⟩ := bind_eq_ok_iff.mp h
    have hbelow : Below info.image.table
        (.LocVar var.name desc (BitVec.ofNat 32 var.index) n) := ⟨type, n, rfl, hn⟩
    have hfirst := exports_add_void hT hbelow hadd
    obtain ⟨r, hadd'⟩ := add_void_eq_ok_iff.mp hadd
    obtain ⟨new, hrecorded⟩ := Gen.add_ok hT hadd'
    have hrest := ih hrecorded.places.sound
      (hn.trans (size_le_of_extends hrecorded.places.ext type)) h
    rw [List.flatMap_cons, deref_eq_ok_iff.mp hdesc]
    exact hfirst.trans hT hrest

section code

variable {n : Nat} {image image' : KImage} {buf buf' : koala.buffer.Buffer}

theorem withindex_of_ok {x : Res (Int × KImage)} {index : Int} (h : x = .ok (index, image)) :
    withindex x = .ok (some index, image) := by
  rw [h]
  rfl

theorem declared_of_const {a : Add} (h : stores_const a = true) :
    declared a = [] ∧ ∀ T, Below T a := by
  cases a with
  | Integer | Float | Bool | String | UChar => exact ⟨rfl, fun T => trivial⟩
  | _ => cases h

theorem exports_of_consts {adds : List Add} (hcalls : Calls mem info adds info')
    (h : ∀ a ∈ adds, stores_const a = true) : Exports mem info [] info' := by
  refine ⟨adds, hcalls, ?_, fun a ha => (declared_of_const (h a ha)).2 _⟩
  exact List.flatMap_eq_nil_iff.mpr fun a ha => (declared_of_const (h a ha)).1

theorem add_const_calls {arg : Option ConstValue} {index : Int}
    (h : codegen.add_const mem n image arg = .ok (index, image')) :
    ∃ a, stores_const a = true ∧ image.add mem n a = .ok (some index, image') := by
  cases arg with
  | none => cases h
  | some val =>
    cases val with
    | BASE_INT v => exact ⟨.Integer v, rfl, withindex_of_ok h⟩
    | BASE_FLOAT v => exact ⟨.Float v, rfl, withindex_of_ok h⟩
    | BASE_BOOL b => exact ⟨.Bool (if b then 1 else 0), rfl, withindex_of_ok h⟩
    | BASE_STRING s => exact ⟨.String s, rfl, withindex_of_ok h⟩
    | BASE_CHAR c => exact ⟨.UChar c, rfl, withindex_of_ok h⟩

theorem add_str_calls {arg : Option ConstValue} {index : Int}
    (h : codegen.add_str mem n image arg = .ok (index, image')) :
    ∃ a, stores_const a = true ∧ image.add mem n a = .ok (some index, image') := by
  obtain ⟨s, _, h⟩ := bind_eq_ok_iff.mp h
  exact ⟨.String s, rfl, withindex_of_ok h⟩

variable [Arith]

/-- An instruction makes at most one call, which stores a constant. -/
theorem inst_gen_calls {i : koala.parser.Inst}
    (h : codegen.inst_gen mem n image buf i = .ok (image', buf')) :
    ∃ adds, Calls mem ⟨n, image⟩ adds ⟨n + 1, image'⟩ ∧ ∀ a ∈ adds, stores_const a = true := by
  have hone : ∀ {a r}, stores_const a = true → image.add mem n a = .ok (r, image') →
      ∃ adds, Calls mem ⟨n, image⟩ adds ⟨n + 1, image'⟩ ∧
        ∀ a ∈ adds, stores_const a = true := by
    intro a r ha hadd
    refine ⟨[a], .call (Nat.le_refl n) hadd (.done (Nat.le_refl _) rfl), fun b hb => ?_⟩
    rw [List.mem_singleton.mp hb]
    exact ha
  obtain ⟨op, arg, argc⟩ := i
  cases op with
  | LOAD_CONST =>
    obtain ⟨⟨index, image₁⟩, hadd, heq⟩ := bind_eq_ok_iff.mp h
    cases heq
    obtain ⟨a, ha, hcall⟩ := add_const_calls hadd
    exact hone ha hcall
  | LOAD_PKG | LOAD_FIELD | STORE_FIELD | CALL | NEW =>
    obtain ⟨⟨index, image₁⟩, hadd, heq⟩ := bind_eq_ok_iff.mp h
    cases heq
    obtain ⟨a, ha, hcall⟩ := add_str_calls hadd
    exact hone ha hcall
  | POP_TOP | POP_TOPN | LOAD_0 => cases h
  | _ =>
    cases h
    exact ⟨[], .done (Nat.le_succ n) rfl, by simp⟩

theorem inst_gens_calls {insts : List koala.parser.Inst}
    (h : codegen.inst_gens mem n image buf insts = .ok (image', buf')) :
    ∃ adds, Calls mem ⟨n, image⟩ adds ⟨n + insts.length, image'⟩ ∧
      ∀ a ∈ adds, stores_const a = true := by
  induction insts generalizing n image buf with
  | nil =>
    cases h
    exact ⟨[], .done (Nat.le_refl n) rfl, by simp⟩
  | cons i insts ih =>
    obtain ⟨⟨image₁, buf₁⟩, hgen, h⟩ := bind_eq_ok_iff.mp h
    obtain ⟨adds, hcalls, hconst⟩ := inst_gen_calls hgen
    obtain ⟨adds', hcalls', hconst'⟩ := ih h
    refine ⟨adds ++ adds', ?_, fun a ha => ?_⟩
    · rw [List.length_cons, Nat.add_comm insts.length, ← Nat.add_assoc]
      exact hcalls.trans hcalls'
    · exact (List.mem_append.mp ha).elim (hconst a) (hconst' a)

/-- The code of a function only adds constants. -/
theorem code_exports {code : Option codegen.CodeBlock} {codes : List UInt8}
    (h : info.code mem code = .ok (codes, info')) : Exports mem info [] info' := by
  obtain ⟨⟨image, data, size⟩, hraw, heq⟩ := bind_eq_ok_iff.mp h
  cases heq
  cases code with
  | none =>
    cases hraw
    exact exports_nil info
  | some block =>
    obtain ⟨⟨image₁, buf⟩, hgens, heq⟩ := bind_eq_ok_iff.mp hraw
    cases heq
    obtain ⟨adds, hcalls, hconst⟩ := inst_gens_calls hgens
    rw [List.length_map] at hcalls
    exact exports_of_consts hcalls hconst

end code

section gen

variable [Arith]

theorem func_gen_exports {classname : Option CString} {name : CString} {desc : ProtoDesc}
    {locvec : List LocVar} {code : Option codegen.CodeBlock} (hT : Sound info.image.table)
    (h : __func_gen mem classname name desc locvec code info = .ok info') :
    Exports mem info ((Member.SYM_FUNC name desc locvec code).exports classname) info' := by
  obtain ⟨⟨codes, info₁⟩, hcode, hrest⟩ := bind_eq_ok_iff.mp h
  have hconsts := code_exports hcode
  have hT₁ := hconsts.sound hT
  obtain ⟨⟨r, info₂⟩, hadd, hlocvars⟩ := bind_eq_ok_iff.mp hrest
  obtain ⟨index, hderef, hlocvars⟩ := bind_eq_ok_iff.mp hlocvars
  have hr : r = some index := deref_eq_ok_iff.mp hderef
  obtain ⟨new, hrecorded⟩ := Gen.add_ok hT₁ hadd
  have hreturns := hrecorded.returns
  have hext := hrecorded.places.ext
  have hT₂ := hrecorded.places.sound
  rw [hr] at hreturns
  refine hconsts.trans hT ?_
  cases classname with
  | none =>
    have hindex : index = (AtomTable_Size info₁.image.table .ITEM_FUNC : Int) := by
      simpa [Returns] using hreturns
    rw [hindex] at hlocvars
    have hlocals := add_locvar_exports locvec hT₂ (size_le_of_extends hext .ITEM_FUNC) hlocvars
    exact (exports_add (a := .Func name desc codes) hT₁ trivial hadd).trans hT₁ hlocals
  | some klass =>
    have hindex : index = (AtomTable_Size info₁.image.table .ITEM_METHOD : Int) := by
      simpa [Returns] using hreturns
    rw [hindex] at hlocvars
    have hlocals := add_locvar_exports locvec hT₂ (size_le_of_extends hext .ITEM_METHOD) hlocvars
    exact (exports_add (a := .Method klass name desc codes) hT₁ trivial hadd).trans hT₁ hlocals

theorem Member.gen_exports {classname : Option CString} {m : Member}
    (hT : Sound info.image.table) (h : m.gen mem classname info = .ok info') :
    Exports mem info (m.exports classname) info' := by
  cases m with
  | SYM_CONST name desc =>
    obtain ⟨hnone, h⟩ := assert_bind_ok_iff.mp h
    obtain ⟨t, ht, h⟩ := bind_eq_ok_iff.mp h
    have hcall := exports_add_void (a := .Var name t 1) hT trivial h
    rw [Member.exports, deref_eq_ok_iff.mp ht, hnone]
    exact hcall
  | SYM_VAR name desc =>
    obtain ⟨t, ht, h⟩ := bind_eq_ok_iff.mp h
    rw [Member.exports, deref_eq_ok_iff.mp ht]
    cases classname with
    | none => exact exports_add_void (a := .Var name t 0) hT trivial h
    | some klass => exact exports_add_void (a := .Field klass name t) hT trivial h
  | SYM_FUNC name desc locvec code => exact func_gen_exports hT h
  | SYM_IFUNC name desc =>
    obtain ⟨klass, hklass, h⟩ := bind_eq_ok_iff.mp h
    rw [Member.exports, deref_eq_ok_iff.mp hklass]
    exact exports_add_void (a := .IMeth klass name desc) hT trivial h
  | SYM_NFUNC name desc => exact exports_add_void (a := .NFunc classname name desc) hT trivial h

theorem members_gen_exports {classname : Option CString} (stbl : List Member) {info : Gen}
    (hT : Sound info.image.table) (h : members_gen mem classname stbl info = .ok info') :
    Exports mem info (stbl.flatMap (Member.exports classname)) info' := by
  induction stbl generalizing info with
  | nil =>
    cases h
    exact exports_nil _
  | cons m stbl ih =>
    obtain ⟨info₁, hgen, h⟩ := bind_eq_ok_iff.mp h
    have hfirst := Member.gen_exports hT hgen
    exact hfirst.trans hT (ih (hfirst.sound hT) h)

theorem Symbol.gen_exports {sym : Symbol} (hT : Sound info.image.table)
    (h : sym.gen mem info = .ok info') : Exports mem info sym.exports info' := by
  cases sym with
  | member m => exact Member.gen_exports hT h
  | SYM_CLASS name supers stbl =>
    obtain ⟨info₁, hadd, h⟩ := bind_eq_ok_iff.mp h
    have hfirst := exports_add_void (a := .Class name supers) hT trivial hadd
    exact hfirst.trans hT (members_gen_exports stbl (hfirst.sound hT) h)
  | SYM_TRAIT name supers stbl =>
    obtain ⟨info₁, hadd, h⟩ := bind_eq_ok_iff.mp h
    have hfirst := exports_add_void (a := .Trait name supers) hT trivial hadd
    exact hfirst.trans hT (members_gen_exports stbl (hfirst.sound hT) h)

theorem symbols_gen_exports (stbl : List Symbol) {info : Gen} (hT : Sound info.image.table)
    (h : symbols_gen mem stbl info = .ok info') :
    Exports mem info (stbl.flatMap Symbol.exports) info' := by
  induction stbl generalizing info with
  | nil =>
    cases h
    exact exports_nil _
  | cons sym stbl ih =>
    obtain ⟨info₁, hgen, h⟩ := bind_eq_ok_iff.mp h
    have hfirst := Symbol.gen_exports hT hgen
    exact hfirst.trans hT (ih (hfirst.sound hT) h)

end gen

end exports

end koala.symbol
