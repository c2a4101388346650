import Koala.PrefixCode
import Koala.StringBuf.Exact
import Koala.TypeDesc.Desc

open koala.stringbuf prefixcode

namespace koala.typedesc

set_option linter.style.nameCheck false

/-- The bytes of a string literal. -/
def chars (s : String) : List UInt8 := s.toList.map Char.toUInt8

namespace TypeDesc

mutual

/-- The text of a descriptor, as the formats of the constructors spell it. -/
def text : TypeDesc → List UInt8
  | .base type => [type.letter]
  | .klass path type => substitute (chars "L#.#;") [Str.bytes path, type.bytes]
  | .proto arg ret => substitute (chars "P#:#;") [textList arg, textList ret]
  | .array dims t => List.replicate dims.toInt.toNat '['.toUInt8 ++ text t
  | .map key val => substitute (chars "M#:#") [text key, text val]
  | .set t => substitute (chars "S#") [text t]
  | .varg t => substitute (chars "...#") [text t]

/-- `TypeList_ToString` -/
def textList : List TypeDesc → List UInt8
  | [] => []
  | t :: l => text t ++ textList l

end

theorem textList_eq_flatMap (l : List TypeDesc) : textList l = l.flatMap text := by
  induction l with
  | nil => rfl
  | cons t l ih => rw [textList, ih, List.flatMap_cons]

section text

variable (path : Option CString) (type : CString) (arg ret : List TypeDesc) (t key val : TypeDesc)

theorem text_klass : (klass path type).text =
    'L'.toUInt8 :: (Str.bytes path ++ '.'.toUInt8 :: (type.bytes ++ [';'.toUInt8])) := by
  rw [text]
  rfl

theorem text_proto : (proto arg ret).text =
    'P'.toUInt8 :: (arg.flatMap text ++ ':'.toUInt8 :: (ret.flatMap text ++ [';'.toUInt8])) := by
  rw [text, textList_eq_flatMap, textList_eq_flatMap]
  rfl

theorem text_map :
    (map key val).text = 'M'.toUInt8 :: (key.text ++ ':'.toUInt8 :: (val.text ++ [])) := by
  rw [text]
  rfl

theorem text_set : (set t).text = 'S'.toUInt8 :: (t.text ++ []) := by
  rw [text]
  rfl

theorem text_varg :
    (varg t).text = '.'.toUInt8 :: '.'.toUInt8 :: '.'.toUInt8 :: (t.text ++ []) := by
  rw [text]
  rfl

end text

/-- A class type has a name without a dot or a semicolon, and a path, if any,
that is not empty and has no semicolon. An array has a dimension and its base
is no array. -/
inductive WellFormed : TypeDesc → Prop where
  | base (b : BaseType) : WellFormed (.base b)
  | klass {path : Option CString} {type : CString}
    (hpath : ∀ p ∈ path, p.bytes ≠ [] ∧ ';'.toUInt8 ∉ p.bytes) (htype : type.bytes ≠ [])
    (hdot : '.'.toUInt8 ∉ type.bytes) (hsemi : ';'.toUInt8 ∉ type.bytes) :
    WellFormed (.klass path type)
  | proto {arg ret : List TypeDesc} (harg : ∀ t ∈ arg, WellFormed t)
    (hret : ∀ t ∈ ret, WellFormed t) : WellFormed (.proto arg ret)
  | array {dims : BitVec 32} {t : TypeDesc} (hdims : 0 < dims.toInt)
    (hbase : t.kind ≠ .TYPE_ARRAY) (h : WellFormed t) : WellFormed (.array dims t)
  | map {key val : TypeDesc} (hkey : WellFormed key) (hval : WellFormed val) :
    WellFormed (.map key val)
  | set {t : TypeDesc} (h : WellFormed t) : WellFormed (.set t)
  | varg {t : TypeDesc} (h : WellFormed t) : WellFormed (.varg t)

/-- The character that the text of a descriptor starts with. -/
def initial : TypeDesc → UInt8
  | .base type => type.letter
  | .klass _ _ => 'L'.toUInt8
  | .proto _ _ => 'P'.toUInt8
  | .array _ _ => '['.toUInt8
  | .map _ _ => 'M'.toUInt8
  | .set _ => 'S'.toUInt8
  | .varg _ => '.'.toUInt8

theorem text_eq_cons {t : TypeDesc} (h : t.WellFormed) : ∃ w, t.text = t.initial :: w := by
  cases h with
  | base b =>
    rw [text]
    exact ⟨[], rfl⟩
  | klass => exact ⟨_, text_klass _ _⟩
  | proto => exact ⟨_, text_proto _ _⟩
  | @array dims t hdims =>
    obtain ⟨n, hn⟩ : ∃ n, dims.toInt.toNat = n + 1 := ⟨dims.toInt.toNat - 1, by omega⟩
    rw [text, hn]
    exact ⟨_, rfl⟩
  | map => exact ⟨_, text_map _ _⟩
  | set => exact ⟨_, text_set _⟩
  | varg => exact ⟨_, text_varg _⟩

/-- The kind that a first character stands for. -/
def initial_kind (c : UInt8) : DescKind :=
  if c = 'L'.toUInt8 then .TYPE_KLASS
  else if c = 'P'.toUInt8 then .TYPE_PROTO
  else if c = '['.toUInt8 then .TYPE_ARRAY
  else if c = 'M'.toUInt8 then .TYPE_MAP
  else if c = 'S'.toUInt8 then .TYPE_SET
  else if c = '.'.toUInt8 then .TYPE_VARG
  else .TYPE_BASE

theorem initial_kind_initial (t : TypeDesc) : initial_kind t.initial = t.kind := by
  cases t with
  | base b => cases b <;> decide
  | _ => rfl

theorem kind_eq_of_initial_eq {t u : TypeDesc} (h : t.initial = u.initial) : t.kind = u.kind := by
  rw [← initial_kind_initial t, ← initial_kind_initial u, h]

/-- A character that is no letter and stands for no other kind starts no text. -/
theorem initial_ne (t : TypeDesc) {c : UInt8} (hc : initial_kind c = .TYPE_BASE)
    (hletter : ∀ b : BaseType, b.letter ≠ c) : t.initial ≠ c := by
  intro heq
  have hkind := initial_kind_initial t
  rw [heq, hc] at hkind
  cases t with
  | base b => exact hletter b heq
  | _ => cases hkind

theorem initial_ne_colon (t : TypeDesc) : t.initial ≠ ':'.toUInt8 :=
  t.initial_ne (by decide) fun b => by cases b <;> decide

theorem initial_ne_semicolon (t : TypeDesc) : t.initial ≠ ';'.toUInt8 :=
  t.initial_ne (by decide) fun b => by cases b <;> decide

theorem initial_ne_bracket {t : TypeDesc} (h : t.kind ≠ .TYPE_ARRAY) :
    t.initial ≠ '['.toUInt8 := by
  intro heq
  have hkind := initial_kind_initial t
  rw [heq] at hkind
  exact h hkind.symm

end TypeDesc

end koala.typedesc

open koala.stringbuf prefixcode

namespace koala.typedesc

set_option linter.style.nameCheck false

namespace TypeDesc

/-- The well-formed descriptors. -/
def wellFormed : Set TypeDesc := {t | t.WellFormed}

theorem text_ne_nil {t : TypeDesc} (h : t ∈ wellFormed) : t.text ≠ [] := by
  obtain ⟨w, hw⟩ := text_eq_cons h
  rw [hw]
  exact List.cons_ne_nil _ _

theorem stops_colon (x : List UInt8) : Stops text wellFormed (':'.toUInt8 :: x) := by
  apply stops_cons
  · exact fun t ht => text_ne_nil ht
  · intro t ht w hw
    obtain ⟨v, hv⟩ := text_eq_cons ht
    rw [hv] at hw
    exact t.initial_ne_colon (List.cons.inj hw).1

theorem stops_semicolon (x : List UInt8) : Stops text wellFormed (';'.toUInt8 :: x) := by
  apply stops_cons
  · exact fun t ht => text_ne_nil ht
  · intro t ht w hw
    obtain ⟨v, hv⟩ := text_eq_cons ht
    rw [hv] at hw
    exact t.initial_ne_semicolon (List.cons.inj hw).1

/-- Texts that start alike are of one kind. -/
theorem kind_eq_of_text {t u : TypeDesc} {r r' : List UInt8} (ht : t.WellFormed)
    (hu : u.WellFormed) (h : t.text ++ r = u.text ++ r') : t.kind = u.kind := by
  obtain ⟨v, hv⟩ := text_eq_cons ht
  obtain ⟨w, hw⟩ := text_eq_cons hu
  rw [hv, hw] at h
  exact kind_eq_of_initial_eq (List.cons.inj h).1

/-- A text that is not an array's does not start with a bracket. -/
theorem text_append_ne_bracket {t : TypeDesc} (ht : t.WellFormed) (hkind : t.kind ≠ .TYPE_ARRAY)
    (r w : List UInt8) : t.text ++ r ≠ '['.toUInt8 :: w := by
  obtain ⟨v, hv⟩ := text_eq_cons ht
  intro h
  rw [hv] at h
  exact initial_ne_bracket hkind (List.cons.inj h).1

theorem delimits_base {b : BaseType} : Delimits text wellFormed (.base b) := by
  intro u hu r r' h
  cases hu with
  | base c =>
    rw [text, text] at h
    obtain ⟨hletter, hr⟩ := List.cons.inj h
    rw [BaseType.letter_injective hletter]
    exact ⟨rfl, hr⟩
  | _ => cases kind_eq_of_text (.base b) (by constructor <;> assumption) h

/-- A path is empty only when it is absent. -/
theorem path_inj {p q : Option CString} (hp : ∀ s ∈ p, s.bytes ≠ []) (hq : ∀ s ∈ q, s.bytes ≠ [])
    (h : Str.bytes p = Str.bytes q) : p = q := by
  cases p with
  | none =>
    cases q with
    | none => rfl
    | some q => exact absurd h.symm (hq q rfl)
  | some p =>
    cases q with
    | none => exact absurd h (hp p rfl)
    | some q => exact congrArg some (CString.ext h)

theorem semicolon_notMem_path {path : Option CString}
    (h : ∀ p ∈ path, p.bytes ≠ [] ∧ ';'.toUInt8 ∉ p.bytes) : ';'.toUInt8 ∉ Str.bytes path := by
  cases path with
  | none => exact List.not_mem_nil
  | some p => exact (h p rfl).2

/-- The name behind the last dot of a class text is the name of the type. -/
theorem delimits_klass {path : Option CString} {type : CString}
    (h : (klass path type).WellFormed) : Delimits text wellFormed (klass path type) := by
  intro u hu r r' heq
  have hkind := kind_eq_of_text h hu heq
  cases h with
  | klass hpath htype hdot hsemi =>
    cases hu with
    | @klass path' type' hpath' htype' hdot' hsemi' =>
      have hbody : ∀ (p : List UInt8) (s : CString) (r : List UInt8),
          'L'.toUInt8 :: (p ++ '.'.toUInt8 :: (s.bytes ++ [';'.toUInt8])) ++ r =
            'L'.toUInt8 :: ((p ++ '.'.toUInt8 :: s.bytes) ++ ';'.toUInt8 :: r) := by
        intro p s r
        simp
      have hmem : ∀ {p : Option CString} {s : CString},
          (∀ q ∈ p, q.bytes ≠ [] ∧ ';'.toUInt8 ∉ q.bytes) → ';'.toUInt8 ∉ s.bytes →
            ';'.toUInt8 ∉ Str.bytes p ++ '.'.toUInt8 :: s.bytes := by
        intro p s hp hs
        rw [List.mem_append, List.mem_cons, not_or, not_or]
        exact ⟨semicolon_notMem_path hp, by decide, hs⟩
      rw [text_klass, text_klass, hbody, hbody] at heq
      obtain ⟨hname, hr⟩ :=
        split_first (hmem hpath hsemi) (hmem hpath' hsemi') (List.cons.inj heq).2
      obtain ⟨hp, hs⟩ := split_last hdot hdot' hname
      have hpath_eq := path_inj (fun s hs => (hpath s hs).1) (fun s hs => (hpath' s hs).1) hp
      rw [hpath_eq, CString.ext hs]
      exact ⟨rfl, hr⟩
    | _ => cases hkind

theorem delimits_proto {arg ret : List TypeDesc} (h : (proto arg ret).WellFormed)
    (harg : ∀ t ∈ arg, t ∈ wellFormed ∧ Delimits text wellFormed t)
    (hret : ∀ t ∈ ret, t ∈ wellFormed ∧ Delimits text wellFormed t) :
    Delimits text wellFormed (proto arg ret) := by
  intro u hu r r' heq
  have hkind := kind_eq_of_text h hu heq
  cases hu with
  | @proto arg' ret' harg' hret' =>
    rw [text_proto, text_proto] at heq
    simp only [List.cons_append, List.append_assoc] at heq
    obtain ⟨hargs, hrest⟩ := flatMap_append_inj harg harg' (stops_colon _) (stops_colon _)
      (List.cons.inj heq).2
    obtain ⟨hrets, hrest⟩ := flatMap_append_inj hret hret' (stops_semicolon _) (stops_semicolon _)
      (List.cons.inj hrest).2
    rw [hargs, hrets]
    exact ⟨rfl, (List.cons.inj hrest).2⟩
  | _ => cases hkind

theorem delimits_array {dims : BitVec 32} {t : TypeDesc} (h : (array dims t).WellFormed)
    (ht : Delimits text wellFormed t) : Delimits text wellFormed (array dims t) := by
  intro u hu r r' heq
  have hkind := kind_eq_of_text h hu heq
  cases h with
  | array hdims hbase h =>
    cases hu with
    | @array dims' t' hdims' hbase' h' =>
      rw [text, text, List.append_assoc, List.append_assoc] at heq
      obtain ⟨hcount, hrest⟩ := replicate_append_inj (text_append_ne_bracket h hbase _)
        (text_append_ne_bracket h' hbase' _) heq
      obtain ⟨hbase_eq, hr⟩ := ht t' h' _ _ hrest
      have hint : dims.toInt = dims'.toInt := by omega
      rw [hbase_eq, BitVec.eq_of_toInt_eq hint]
      exact ⟨rfl, hr⟩
    | _ => cases hkind

theorem delimits_map {key val : TypeDesc} (h : (map key val).WellFormed)
    (hkey : Delimits text wellFormed key) (hval : Delimits text wellFormed val) :
    Delimits text wellFormed (map key val) := by
  intro u hu r r' heq
  have hkind := kind_eq_of_text h hu heq
  cases hu with
  | @map key' val' hkey' hval' =>
    rw [text_map, text_map] at heq
    simp only [List.cons_append, List.append_assoc] at heq
    obtain ⟨hkey_eq, hrest⟩ := hkey key' hkey' _ _ (List.cons.inj heq).2
    obtain ⟨hval_eq, hr⟩ := hval val' hval' _ _ (List.cons.inj hrest).2
    rw [hkey_eq, hval_eq]
    exact ⟨rfl, hr⟩
  | _ => cases hkind

theorem delimits_set {t : TypeDesc} (h : (set t).WellFormed) (ht : Delimits text wellFormed t) :
    Delimits text wellFormed (set t) := by
  intro u hu r r' heq
  have hkind := kind_eq_of_text h hu heq
  cases hu with
  | @set t' h' =>
    rw [text_set, text_set] at heq
    simp only [List.cons_append, List.append_assoc] at heq
    obtain ⟨hbase, hr⟩ := ht t' h' _ _ (List.cons.inj heq).2
    rw [hbase]
    exact ⟨rfl, hr⟩
  | _ => cases hkind

theorem delimits_varg {t : TypeDesc} (h : (varg t).WellFormed) (ht : Delimits text wellFormed t) :
    Delimits text wellFormed (varg t) := by
  intro u hu r r' heq
  have hkind := kind_eq_of_text h hu heq
  cases hu with
  | @varg t' h' =>
    rw [text_varg, text_varg] at heq
    simp only [List.cons_append, List.append_assoc, List.cons.injEq, true_and] at heq
    obtain ⟨hbase, hr⟩ := ht t' h' _ _ heq
    rw [hbase]
    exact ⟨rfl, hr⟩
  | _ => cases hkind

/-- The text of a well-formed descriptor shows its own end. -/
theorem WellFormed.delimits {t : TypeDesc} (h : t.WellFormed) : Delimits text wellFormed t := by
  induction h with
  | base b => exact delimits_base
  | klass hpath htype hdot hsemi => exact delimits_klass (.klass hpath htype hdot hsemi)
  | proto harg hret iharg ihret =>
    exact delimits_proto (.proto harg hret) (fun t ht => ⟨harg t ht, iharg t ht⟩)
      (fun t ht => ⟨hret t ht, ihret t ht⟩)
  | array hdims hbase h ih => exact delimits_array (.array hdims hbase h) ih
  | map hkey hval ihkey ihval => exact delimits_map (.map hkey hval) ihkey ihval
  | set h ih => exact delimits_set (.set h) ih
  | varg h ih => exact delimits_varg (.varg h) ih

/-- Lists of well-formed descriptors with one text are equal, and the text of a
well-formed descriptor is no proper start of another one's. -/
theorem text_decodable {ts us : List TypeDesc} (hts : ∀ t ∈ ts, t.WellFormed)
    (hus : ∀ u ∈ us, u.WellFormed) :
    (textList ts = textList us → ts = us) ∧
      ∀ t u : TypeDesc, t.WellFormed → u.WellFormed → t.text <+: u.text → t = u := by
  refine ⟨?_, fun t u ht hu h => ht.delimits.eq_of_isPrefix hu h⟩
  intro h
  have hnil : Stops text wellFormed [] := stops_nil fun t ht => text_ne_nil ht
  rw [textList_eq_flatMap, textList_eq_flatMap] at h
  refine (flatMap_append_inj (fun t ht => ⟨hts t ht, (hts t ht).delimits⟩) hus hnil hnil ?_).1
  rw [h]

/-- A class type with a dotted path. -/
def file_type : TypeDesc := .klass (some ⟨chars "lang.io", by decide⟩) ⟨chars "File", by decide⟩

theorem file_type_wellFormed : file_type.WellFormed := by
  apply WellFormed.klass
  · intro p hp
    cases hp
    decide
  · decide
  · decide
  · decide

theorem text_decodable_file :
    (textList [file_type, .array 2 (.base .BASE_INT)] =
        textList [.proto [file_type] [.varg (.base .BASE_ANY)]] →
      [file_type, .array 2 (.base .BASE_INT)] = [.proto [file_type] [.varg (.base .BASE_ANY)]]) ∧
      ∀ t u : TypeDesc, t.WellFormed → u.WellFormed → t.text <+: u.text → t = u := by
  have harray : (TypeDesc.array 2 (.base .BASE_INT)).WellFormed :=
    .array (by decide) (by decide) (.base _)
  have hproto : (TypeDesc.proto [file_type] [.varg (.base .BASE_ANY)]).WellFormed :=
    .proto (by simpa using file_type_wellFormed) (by simpa using .varg (.base _))
  exact text_decodable (by simpa using ⟨file_type_wellFormed, harray⟩) (by simpa using hproto)

end TypeDesc

end koala.typedesc
