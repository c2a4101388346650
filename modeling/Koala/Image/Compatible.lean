import Koala.Image.Constants
import Mathlib.Data.Nat.ModEq

open koala.atomtable

namespace koala.image

set_option linter.style.nameCheck false

/-- Entries of one kind with one content: the string, the words of a type, the
indices of a list or prototype, the kind and the bits of a constant. -/
def SameContent : Entry → Entry → Prop
  | ⟨.ITEM_STRING, _, x⟩, ⟨.ITEM_STRING, _, y⟩ => CString.ofData x.data = CString.ofData y.data
  | ⟨.ITEM_TYPE, _, x⟩, ⟨.ITEM_TYPE, _, y⟩ => x = y
  | ⟨.ITEM_TYPELIST, _, x⟩, ⟨.ITEM_TYPELIST, _, y⟩ => x = y
  | ⟨.ITEM_PROTO, _, x⟩, ⟨.ITEM_PROTO, _, y⟩ => x = y
  | ⟨.ITEM_CONST, _, x⟩, ⟨.ITEM_CONST, _, y⟩ => x.val = y.val
  | _, _ => False

/-- The entries are of unique kinds, no float is a NaN, and what is stored at one
address is one constant. -/
structure Stored (S : Entry → Prop) : Prop where
  unique : ∀ e, S e → e.type.unique = true
  number : ∀ i addr f, S ⟨.ITEM_CONST, i, ⟨addr, .CONST_FLOAT f⟩⟩ → isNaN f = false
  placed : ∀ i j addr val val', S ⟨.ITEM_CONST, i, ⟨addr, val⟩⟩ →
    S ⟨.ITEM_CONST, j, ⟨addr, val'⟩⟩ → val = val'

/-- Entries are equal when their contents are, and then their hashes are. -/
structure Compatible (S : Entry → Prop) : Prop where
  refl : ∀ e, S e → Item_Equal e e = true
  symm : ∀ e e', S e → S e' → Item_Equal e e' = true → Item_Equal e' e = true
  trans : ∀ e e' e'', S e → S e' → S e'' → Item_Equal e e' = true → Item_Equal e' e'' = true →
    Item_Equal e e'' = true
  content : ∀ e e', S e → S e' → (Item_Equal e e' = true ↔ SameContent e e')
  hash : ∀ e e', S e → S e' → Item_Equal e e' = true → Item_Hash e = Item_Hash e'

/-- Each boolean is stored once, equal floats are stored where the low halves of
the addresses agree, and the two zeros are not both there. -/
structure Distinguished (S : Entry → Prop) : Prop where
  bool : ∀ i j addr addr' b, S ⟨.ITEM_CONST, i, ⟨addr, .CONST_BOOL b⟩⟩ →
    S ⟨.ITEM_CONST, j, ⟨addr', .CONST_BOOL b⟩⟩ → addr = addr'
  float : ∀ i j addr addr' f, S ⟨.ITEM_CONST, i, ⟨addr, .CONST_FLOAT f⟩⟩ →
    S ⟨.ITEM_CONST, j, ⟨addr', .CONST_FLOAT f⟩⟩ → addr % 2 ^ 32 = addr' % 2 ^ 32
  zero : ∀ i j addr addr' f g, S ⟨.ITEM_CONST, i, ⟨addr, .CONST_FLOAT f⟩⟩ →
    S ⟨.ITEM_CONST, j, ⟨addr', .CONST_FLOAT g⟩⟩ → f.toNat % 2 ^ 63 = 0 → g.toNat % 2 ^ 63 = 0 →
    f = g

/-- The multiplier is odd. -/
theorem hash_uint32_injective {a b : Nat} (ha : a < 2 ^ 32) (hb : b < 2 ^ 32)
    (h : hash_uint32 a = hash_uint32 b) : a = b := by
  have hmod := Nat.ModEq.cancel_right_of_coprime (m := 2 ^ 32) (c := GOLDEN_RATIO_PRIME_32)
    (by decide) h
  exact hmod.eq_of_lt_of_lt ha hb

/-- The kinds other than constants are compared and hashed by content. -/
theorem equal_iff_content {e e' : Entry} (he : e.type.unique = true)
    (hconst : e.type ≠ .ITEM_CONST) : Item_Equal e e' = true ↔ SameContent e e' := by
  obtain ⟨type, i, x⟩ := e
  obtain ⟨type', j, y⟩ := e'
  by_cases htype : type = type'
  · subst htype
    cases type with
    | ITEM_STRING => exact decide_eq_true_iff
    | ITEM_TYPE => exact type_extensional.equal_iff i j x y trivial trivial
    | ITEM_TYPELIST => exact typelist_extensional.equal_iff i j x y trivial trivial
    | ITEM_PROTO => exact proto_extensional.equal_iff i j x y trivial trivial
    | ITEM_CONST => exact absurd rfl hconst
    | _ => cases he
  · rw [Item_Equal_of_ne htype]
    cases type <;> cases type' <;>
      first
      | exact absurd rfl htype
      | exact iff_of_false Bool.false_ne_true id

theorem hash_of_content {e e' : Entry} (he : e.type.unique = true) (hconst : e.type ≠ .ITEM_CONST)
    (h : SameContent e e') : Item_Hash e = Item_Hash e' := by
  obtain ⟨type, i, x⟩ := e
  obtain ⟨type', j, y⟩ := e'
  cases type with
  | ITEM_STRING =>
    cases type' with
    | ITEM_STRING => exact congrArg hash_string h
    | _ => exact h.elim
  | ITEM_TYPE =>
    cases type' with
    | ITEM_TYPE => exact congrArg typeitem_hash h
    | _ => exact h.elim
  | ITEM_TYPELIST =>
    cases type' with
    | ITEM_TYPELIST => exact congrArg typelistitem_hash h
    | _ => exact h.elim
  | ITEM_PROTO =>
    cases type' with
    | ITEM_PROTO => exact congrArg protoitem_hash h
    | _ => exact h.elim
  | ITEM_CONST => exact absurd rfl hconst
  | _ => cases he

/-- Entries with the content of a constant are constants. -/
theorem content_const {e : Entry} {i : Int} {x : ConstItem}
    (h : SameContent ⟨.ITEM_CONST, i, x⟩ e) :
    ∃ j y, e = ⟨.ITEM_CONST, j, y⟩ ∧ x.val = y.val := by
  obtain ⟨type, j, y⟩ := e
  cases type with
  | ITEM_CONST => exact ⟨j, y, rfl, h⟩
  | _ => exact h.elim

theorem equal_const {e : Entry} {i : Int} {x : ConstItem}
    (h : Item_Equal ⟨.ITEM_CONST, i, x⟩ e = true) :
    ∃ j y, e = ⟨.ITEM_CONST, j, y⟩ ∧ constitem_equal x y = true := by
  obtain ⟨type, j, y⟩ := e
  cases type with
  | ITEM_CONST => exact ⟨j, y, rfl, h⟩
  | _ => cases h

theorem SameContent.symm {e e' : Entry} (h : SameContent e e') : SameContent e' e := by
  obtain ⟨type, i, x⟩ := e
  obtain ⟨type', j, y⟩ := e'
  cases type <;> cases type' <;> first | exact h.elim | exact Eq.symm h

theorem SameContent.trans {e e' e'' : Entry} (h : SameContent e e') (h' : SameContent e' e'') :
    SameContent e e'' := by
  obtain ⟨type, i, x⟩ := e
  obtain ⟨type', j, y⟩ := e'
  obtain ⟨type'', k, z⟩ := e''
  cases type <;> cases type' <;> first | exact h.elim | skip
  all_goals cases type'' <;> first | exact h'.elim | exact Eq.trans h h'

section stored

variable {S : Entry → Prop}

/-- Two constants of the set are compared by value when the floats and booleans are apart. -/
theorem Distinguished.const (h : Distinguished S) (hstored : Stored S) {i j : Int} {x y : ConstItem}
    (hx : S ⟨.ITEM_CONST, i, x⟩) (hy : S ⟨.ITEM_CONST, j, y⟩) :
    (constitem_equal x y = true ↔ x.val = y.val) ∧
      (x.val = y.val → constitem_hash x = constitem_hash y) := by
  obtain ⟨addr, val⟩ := x
  obtain ⟨addr', val'⟩ := y
  cases val' with
  | CONST_FLOAT g =>
    constructor
    · constructor
      · intro hequal
        obtain ⟨f, hf, heq⟩ := constitem_equal_float hequal
        dsimp only at hf
        subst hf
        obtain ⟨_, _, rfl | ⟨hzero, hzero'⟩⟩ := float_eq_iff.mp heq
        · rfl
        · exact congrArg ConstVal.CONST_FLOAT (h.zero i j addr addr' f g hx hy hzero hzero')
      · intro hval
        dsimp only at hval
        subst hval
        have hnumber := hstored.number i addr g hx
        exact float_eq_iff.mpr ⟨hnumber, hnumber, Or.inl rfl⟩
    · intro hval
      dsimp only at hval
      subst hval
      exact congrArg hash_uint32 (h.float i j addr addr' g hx hy)
  | CONST_BOOL b =>
    constructor
    · constructor
      · intro hequal
        have haddr : addr = addr' := constitem_equal_bool hequal
        subst haddr
        exact hstored.placed i j addr _ _ hx hy
      · intro hval
        dsimp only at hval
        subst hval
        exact decide_eq_true (h.bool i j addr addr' b hx hy)
    · intro hval
      dsimp only at hval
      subst hval
      exact congrArg (fun a => hash_uint32 (a % 2 ^ 32)) (h.bool i j addr addr' b hx hy)
  | CONST_INT | CONST_STRING | CONST_UCHAR =>
    refine ⟨constitem_equal_plain rfl _ addr', fun hval => ?_⟩
    dsimp only at hval
    subst hval
    exact constitem_hash_plain rfl addr addr'

theorem Distinguished.content (h : Distinguished S) (hstored : Stored S) {e e' : Entry}
    (he : S e) (he' : S e') :
    Item_Equal e e' = true ↔ SameContent e e' := by
  by_cases htype : e.type = .ITEM_CONST
  · obtain ⟨type, i, x⟩ := e
    dsimp only at htype
    subst htype
    constructor
    · intro hequal
      obtain ⟨j, y, rfl, hconst⟩ := equal_const hequal
      exact (h.const hstored he he').1.mp hconst
    · intro hsame
      obtain ⟨j, y, rfl, hval⟩ := content_const hsame
      exact (h.const hstored he he').1.mpr hval
  · exact equal_iff_content (hstored.unique e he) htype

theorem Distinguished.hash (h : Distinguished S) (hstored : Stored S) {e e' : Entry}
    (he : S e) (he' : S e')
    (hsame : SameContent e e') : Item_Hash e = Item_Hash e' := by
  by_cases htype : e.type = .ITEM_CONST
  · obtain ⟨type, i, x⟩ := e
    dsimp only at htype
    subst htype
    obtain ⟨j, y, rfl, hval⟩ := content_const hsame
    exact (h.const hstored he he').2 hval
  · exact hash_of_content (hstored.unique e he) htype hsame

theorem Stored.refl (hstored : Stored S) {e : Entry} (he : S e) : SameContent e e := by
  have hunique := hstored.unique e he
  obtain ⟨type, i, x⟩ := e
  cases type with
  | ITEM_STRING | ITEM_TYPE | ITEM_TYPELIST | ITEM_PROTO | ITEM_CONST => exact Eq.refl _
  | _ => cases hunique

/-- Hash and equality of the items fit together if and only if no boolean has two
items, the items of a float have addresses with one low half, and the two zeros
are not both stored. -/
theorem item_compatible_iff (hstored : Stored S) : Compatible S ↔ Distinguished S := by
  constructor
  · intro h
    refine ⟨fun i j addr addr' b hx hy => ?_, fun i j addr addr' f hx hy => ?_,
      fun i j addr addr' f g hx hy hf hg => ?_⟩
    · exact of_decide_eq_true ((h.content _ _ hx hy).mpr rfl)
    · have hequal := (h.content _ _ hx hy).mpr rfl
      have hhash := h.hash _ _ hx hy hequal
      exact hash_uint32_injective (Nat.mod_lt _ (by decide)) (Nat.mod_lt _ (by decide)) hhash
    · have hequal : float_eq f g = true :=
        float_eq_iff.mpr ⟨hstored.number _ _ _ hx, hstored.number _ _ _ hy, Or.inr ⟨hf, hg⟩⟩
      exact ConstVal.CONST_FLOAT.inj ((h.content _ _ hx hy).mp hequal)
  · intro h
    refine ⟨fun e he => (h.content hstored he he).mpr (hstored.refl he), fun e e' he he' hequal => ?_,
      fun e e' e'' he he' he'' hequal hequal' => ?_, fun e e' he he' => h.content hstored he he',
      fun e e' he he' hequal => h.hash hstored he he' ((h.content hstored he he').mp hequal)⟩
    · exact (h.content hstored he' he).mpr ((h.content hstored he he').mp hequal).symm
    · refine (h.content hstored he he'').mpr ?_
      exact ((h.content hstored he he').mp hequal).trans ((h.content hstored he' he'').mp hequal')

end stored

/-- Two items of one boolean, or of one float. -/
def pair (val : ConstVal) (e : Entry) : Prop :=
  e = ⟨.ITEM_CONST, 0, ⟨16, val⟩⟩ ∨ e = ⟨.ITEM_CONST, 1, ⟨64, val⟩⟩

theorem pair_stored {val : ConstVal} (hnumber : ∀ f, val = .CONST_FLOAT f → isNaN f = false) :
    Stored (pair val) := by
  refine ⟨?_, ?_, ?_⟩
  · rintro e (rfl | rfl) <;> rfl
  · rintro i addr f (heq | heq)
    · simp only [AtomEntry.mk.injEq, heq_eq_eq, ConstItem.mk.injEq, true_and] at heq
      exact hnumber f heq.2.2.symm
    · simp only [AtomEntry.mk.injEq, heq_eq_eq, ConstItem.mk.injEq, true_and] at heq
      exact hnumber f heq.2.2.symm
  · have hval : ∀ i addr v, pair val ⟨.ITEM_CONST, i, ⟨addr, v⟩⟩ → v = val := by
      rintro i addr v (heq | heq)
      · simp only [AtomEntry.mk.injEq, heq_eq_eq, ConstItem.mk.injEq, true_and] at heq
        exact heq.2.2
      · simp only [AtomEntry.mk.injEq, heq_eq_eq, ConstItem.mk.injEq, true_and] at heq
        exact heq.2.2
    intro i j addr v v' hv hv'
    rw [hval i addr v hv, hval j addr v' hv']

/-- Two items of one number fit together wherever they are. -/
theorem item_compatible_iff_int : Compatible (pair (.CONST_INT 7)) := by
  refine (item_compatible_iff (pair_stored fun f h => ConstVal.noConfusion h)).mpr ⟨?_, ?_, ?_⟩
  · rintro i j addr addr' b (h | h) <;> simp at h
  · rintro i j addr addr' f (h | h) <;> simp at h
  · rintro i j addr addr' f g (h | h) <;> simp at h

/-- Two items of `true` differ, and two items of 1.0 are equal with different hashes. -/
theorem not_item_compatible :
    (Item_Equal ⟨.ITEM_CONST, 0, ⟨16, .CONST_BOOL 1⟩⟩ ⟨.ITEM_CONST, 1, ⟨64, .CONST_BOOL 1⟩⟩ = false ∧
        ¬ Compatible (pair (.CONST_BOOL 1))) ∧
      Item_Equal ⟨.ITEM_CONST, 0, ⟨16, .CONST_FLOAT 0x3ff0000000000000⟩⟩
        ⟨.ITEM_CONST, 1, ⟨64, .CONST_FLOAT 0x3ff0000000000000⟩⟩ = true ∧
      Item_Hash ⟨.ITEM_CONST, 0, ⟨16, .CONST_FLOAT 0x3ff0000000000000⟩⟩ ≠
        Item_Hash ⟨.ITEM_CONST, 1, ⟨64, .CONST_FLOAT 0x3ff0000000000000⟩⟩ ∧
      ¬ Compatible (pair (.CONST_FLOAT 0x3ff0000000000000)) := by
  refine ⟨⟨by decide, fun h => ?_⟩, by decide, by decide, fun h => ?_⟩
  · exact absurd ((h.content _ _ (Or.inl rfl) (Or.inr rfl)).mpr rfl) (by decide)
  · exact absurd (h.hash _ _ (Or.inl rfl) (Or.inr rfl) (by decide)) (by decide)

end koala.image
