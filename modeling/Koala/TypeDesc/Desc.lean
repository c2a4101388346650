import Koala.Basic

namespace koala.typedesc

/-- The primitive types. -/
inductive BaseType where
  | BASE_BYTE
  | BASE_CHAR
  | BASE_INT
  | BASE_FLOAT
  | BASE_BOOL
  | BASE_STRING
  | BASE_ERROR
  | BASE_ANY
  deriving DecidableEq, Repr

/-- The letter that stands for a primitive type. -/
def BaseType.letter : BaseType → UInt8
  | .BASE_BYTE => 'b'.toUInt8
  | .BASE_CHAR => 'c'.toUInt8
  | .BASE_INT => 'i'.toUInt8
  | .BASE_FLOAT => 'f'.toUInt8
  | .BASE_BOOL => 'z'.toUInt8
  | .BASE_STRING => 's'.toUInt8
  | .BASE_ERROR => 'e'.toUInt8
  | .BASE_ANY => 'A'.toUInt8

def basic_types : List BaseType :=
  [.BASE_BYTE, .BASE_CHAR, .BASE_INT, .BASE_FLOAT, .BASE_BOOL, .BASE_STRING, .BASE_ERROR, .BASE_ANY]

def get_basic (kind : UInt8) : Option BaseType := basic_types.find? fun p => p.letter = kind

@[simp] theorem get_basic_letter (b : BaseType) : get_basic b.letter = some b := by
  cases b <;> decide

theorem letter_of_get_basic {c : UInt8} {b : BaseType} (h : get_basic c = some b) :
    b.letter = c := by
  simpa using List.find?_some h

theorem BaseType.letter_injective {b c : BaseType} (h : b.letter = c.letter) : b = c := by
  have hb := get_basic_letter b
  rw [h, get_basic_letter] at hb
  exact (Option.some.inj hb).symm

/-- A type descriptor with everything it is made of. -/
inductive TypeDesc where
  | base (type : BaseType)
  | klass (path : Option CString) (type : CString)
  | proto (arg ret : List TypeDesc)
  | array (dims : BitVec 32) (base : TypeDesc)
  | map (key val : TypeDesc)
  | set (base : TypeDesc)
  | varg (base : TypeDesc)

/-- A descriptor of a function type. -/
structure ProtoDesc where
  arg : List TypeDesc
  ret : List TypeDesc

def ProtoDesc.desc (p : ProtoDesc) : TypeDesc := .proto p.arg p.ret

namespace TypeDesc

/-- Structural induction with the members of argument and return lists. -/
@[elab_as_elim]
theorem induct {P : TypeDesc → Prop} (base : ∀ b, P (.base b))
    (klass : ∀ path type, P (.klass path type))
    (proto : ∀ arg ret, (∀ t ∈ arg, P t) → (∀ t ∈ ret, P t) → P (.proto arg ret))
    (array : ∀ dims t, P t → P (.array dims t))
    (map : ∀ key val, P key → P val → P (.map key val))
    (set : ∀ t, P t → P (.set t)) (varg : ∀ t, P t → P (.varg t)) (t : TypeDesc) : P t :=
  @TypeDesc.rec P (fun l => ∀ t ∈ l, P t) base klass proto array map set
    varg (by simp) (fun head tail hhead htail t ht => by
      rcases List.mem_cons.mp ht with rfl | ht
      · exact hhead
      · exact htail t ht) t

mutual

/-- The nesting depth. -/
def depth : TypeDesc → Nat
  | .base _ => 1
  | .klass _ _ => 1
  | .proto arg ret => max (depthList arg) (depthList ret) + 1
  | .array _ t => t.depth + 1
  | .map k v => max k.depth v.depth + 1
  | .set t => t.depth + 1
  | .varg t => t.depth + 1

/-- The greatest nesting depth in a list. -/
def depthList : List TypeDesc → Nat
  | [] => 0
  | t :: l => max t.depth (depthList l)

end

theorem depth_le_depthList {t : TypeDesc} {l : List TypeDesc} (h : t ∈ l) :
    t.depth ≤ depthList l := by
  induction l with
  | nil => cases h
  | cons a l ih =>
    rw [depthList]
    rcases List.mem_cons.mp h with rfl | h
    · exact Nat.le_max_left _ _
    · exact (ih h).trans (Nat.le_max_right _ _)

/-- `t` occurs in a descriptor, possibly as the whole of it. -/
inductive Within (t : TypeDesc) : TypeDesc → Prop where
  | self : Within t t
  | arg {u : TypeDesc} {arg ret : List TypeDesc} (hu : u ∈ arg) (h : Within t u) :
      Within t (.proto arg ret)
  | ret {u : TypeDesc} {arg ret : List TypeDesc} (hu : u ∈ ret) (h : Within t u) :
      Within t (.proto arg ret)
  | array {u : TypeDesc} {dims : BitVec 32} (h : Within t u) : Within t (.array dims u)
  | key {u v : TypeDesc} (h : Within t u) : Within t (.map u v)
  | val {u v : TypeDesc} (h : Within t v) : Within t (.map u v)
  | set {u : TypeDesc} (h : Within t u) : Within t (.set u)
  | varg {u : TypeDesc} (h : Within t u) : Within t (.varg u)

theorem Within.trans {t u v : TypeDesc} (h : Within t u) (h' : Within u v) : Within t v := by
  induction h' with
  | self => exact h
  | arg hu _ ih => exact .arg hu ih
  | ret hu _ ih => exact .ret hu ih
  | array _ ih => exact .array ih
  | key _ ih => exact .key ih
  | val _ ih => exact .val ih
  | set _ ih => exact .set ih
  | varg _ ih => exact .varg ih

theorem Within.depth_le {t u : TypeDesc} (h : Within t u) : t.depth ≤ u.depth := by
  induction h with
  | self => exact Nat.le_refl _
  | arg hu _ ih =>
    have hle := depth_le_depthList hu
    rw [depth]
    omega
  | ret hu _ ih =>
    have hle := depth_le_depthList hu
    rw [depth]
    omega
  | array _ ih | key _ ih | val _ ih | set _ ih | varg _ ih =>
    rw [depth]
    omega

end TypeDesc

set_option linter.style.nameCheck false

namespace TypeDesc

mutual

/-- Whether two descriptors are the same. -/
def same : TypeDesc → TypeDesc → Bool
  | .base b, .base c => b = c
  | .klass path type, .klass path' type' => path = path' ∧ type = type'
  | .proto arg ret, .proto arg' ret' => sameList arg arg' && sameList ret ret'
  | .array dims t, .array dims' u => dims = dims' && same t u
  | .map k v, .map k' v' => same k k' && same v v'
  | .set t, .set u => same t u
  | .varg t, .varg u => same t u
  | _, _ => false

def sameList : List TypeDesc → List TypeDesc → Bool
  | [], [] => true
  | t :: ts, u :: us => same t u && sameList ts us
  | _, _ => false

end

theorem sameList_iff {ts us : List TypeDesc} (h : ∀ t ∈ ts, ∀ u, same t u = true ↔ t = u) :
    sameList ts us = true ↔ ts = us := by
  induction ts generalizing us with
  | nil => cases us <;> simp [sameList]
  | cons t ts ih =>
    cases us with
    | nil => simp [sameList]
    | cons u us =>
      have htail : sameList ts us = true ↔ ts = us := ih fun s hs => h s (List.mem_cons_of_mem t hs)
      rw [sameList, Bool.and_eq_true, h t List.mem_cons_self u, htail, List.cons.injEq]

theorem same_iff (t u : TypeDesc) : same t u = true ↔ t = u := by
  induction t using TypeDesc.induct generalizing u with
  | base b => cases u <;> simp [same]
  | klass path type => cases u <;> simp [same]
  | proto arg ret harg hret =>
    cases u with
    | proto arg' ret' =>
      rw [same, Bool.and_eq_true, sameList_iff harg, sameList_iff hret, proto.injEq]
    | _ => simp [same]
  | array dims t ih => cases u <;> simp [same, ih]
  | map k v ihk ihv => cases u <;> simp [same, ihk, ihv]
  | set t ih => cases u <;> simp [same, ih]
  | varg t ih => cases u <;> simp [same, ih]

instance : DecidableEq TypeDesc := fun t u => decidable_of_iff _ (same_iff t u)

end TypeDesc

/-- The kinds of descriptors. -/
inductive DescKind where
  | TYPE_BASE
  | TYPE_KLASS
  | TYPE_PROTO
  | TYPE_ARRAY
  | TYPE_MAP
  | TYPE_SET
  | TYPE_VARG
  deriving DecidableEq

def TypeDesc.kind : TypeDesc → DescKind
  | .base _ => .TYPE_BASE
  | .klass _ _ => .TYPE_KLASS
  | .proto _ _ => .TYPE_PROTO
  | .array _ _ => .TYPE_ARRAY
  | .map _ _ => .TYPE_MAP
  | .set _ => .TYPE_SET
  | .varg _ => .TYPE_VARG

/-- Descriptors are interned: equal ones are one pointer. -/
def TypeDesc_Equal : Option TypeDesc → Option TypeDesc → Bool
  | some t, some u =>
    if t = u then true
    else if t.kind ≠ u.kind then false
    else t = .base .BASE_ANY ∨ u = .base .BASE_ANY
  | _, _ => false

end koala.typedesc
