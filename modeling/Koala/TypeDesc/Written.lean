import Koala.StringBuf.Total
import Koala.TypeDesc.Interning
import Mathlib.Data.List.Nodup

open koala.stringbuf

namespace koala.typedesc

set_option linter.style.nameCheck false

namespace TypeDesc

/-- What the type grammar builds, with paths that the format `Lpath.type;` can carry.
Only a variable argument and an array are not nested in each other. -/
inductive Language : TypeDesc → Prop where
  | base (b : BaseType) : Language (.base b)
  | klass {path : Str} {type : CString} (hpath : ';'.toUInt8 ∉ Str.bytes path)
    (htype : ';'.toUInt8 ∉ type.bytes) : Language (.klass path type)
  | proto {arg ret : List TypeDesc} (harg : ∀ t ∈ arg, Language t)
    (hret : ∀ t ∈ ret, Language t) : Language (.proto arg ret)
  | array {dims : BitVec 32} {t : TypeDesc} (hdims : 0 < dims.toInt) (ht : Language t)
    (harray : t.kind ≠ .TYPE_ARRAY) (hvarg : t.kind ≠ .TYPE_VARG) : Language (.array dims t)
  | map {key val : TypeDesc} (hkey : Language key) (hval : Language val) :
    Language (.map key val)
  | set {t : TypeDesc} (ht : Language t) : Language (.set t)
  | varg {t : TypeDesc} (ht : Language t) (harray : t.kind ≠ .TYPE_ARRAY)
    (hvarg : t.kind ≠ .TYPE_VARG) : Language (.varg t)

/-- An `int` counts the characters of every class name, and maps occur only where
they may. -/
inductive Sized (maps : Prop) : TypeDesc → Prop where
  | base (b : BaseType) : Sized maps (.base b)
  | klass {path : Str} {type : CString}
    (h : (Str.bytes path).length + 1 + type.bytes.length ≤ INT_MAX) :
    Sized maps (.klass path type)
  | proto {arg ret : List TypeDesc} (harg : ∀ t ∈ arg, Sized maps t)
    (hret : ∀ t ∈ ret, Sized maps t) : Sized maps (.proto arg ret)
  | array {dims : BitVec 32} {t : TypeDesc} (ht : Sized maps t) : Sized maps (.array dims t)
  | map {key val : TypeDesc} (h : maps) (hkey : Sized maps key) (hval : Sized maps val) :
    Sized maps (.map key val)
  | set {t : TypeDesc} (ht : Sized maps t) : Sized maps (.set t)
  | varg {t : TypeDesc} (ht : Sized maps t) : Sized maps (.varg t)

mutual

/-- A descriptor with some text between the key and the value of a map: the printer
has a colon there, and the parser nothing. -/
def written (sep : List UInt8) : TypeDesc → List UInt8
  | .base type => [type.letter]
  | .klass path type =>
    'L'.toUInt8 :: (Str.bytes path ++ '.'.toUInt8 :: (type.bytes ++ [';'.toUInt8]))
  | .proto arg ret =>
    'P'.toUInt8 :: (writtenList sep arg ++ ':'.toUInt8 :: (writtenList sep ret ++ [';'.toUInt8]))
  | .array dims t => List.replicate dims.toInt.toNat '['.toUInt8 ++ written sep t
  | .map key val => 'M'.toUInt8 :: (written sep key ++ (sep ++ written sep val))
  | .set t => 'S'.toUInt8 :: written sep t
  | .varg t => '.'.toUInt8 :: '.'.toUInt8 :: '.'.toUInt8 :: written sep t

def writtenList (sep : List UInt8) : List TypeDesc → List UInt8
  | [] => []
  | t :: l => written sep t ++ writtenList sep l

end

/-- The path and the name of a class as the parser divides them: at the first dot. -/
def divide (name : List UInt8) : TypeDesc :=
  .klass (some (CString.ofData (name.takeWhile (· ≠ '.'.toUInt8))))
    (CString.ofData (name.dropWhile (· ≠ '.'.toUInt8)).tail)

mutual

/-- The descriptor that the parser makes of a text. -/
def reparse : TypeDesc → TypeDesc
  | .base type => .base type
  | .klass path type => divide (Str.bytes path ++ '.'.toUInt8 :: type.bytes)
  | .proto arg ret => .proto (reparseList arg) (reparseList ret)
  | .array dims t => .array dims (reparse t)
  | .map key val => .map (reparse key) (reparse val)
  | .set t => .set (reparse t)
  | .varg t => .varg (reparse t)

def reparseList : List TypeDesc → List TypeDesc
  | [] => []
  | t :: l => reparse t :: reparseList l

end

theorem writtenList_eq_flatMap (sep : List UInt8) (l : List TypeDesc) :
    writtenList sep l = l.flatMap (written sep) := by
  induction l with
  | nil => rfl
  | cons t l ih => rw [writtenList, ih, List.flatMap_cons]

theorem reparseList_eq_map (l : List TypeDesc) : reparseList l = l.map reparse := by
  induction l with
  | nil => rfl
  | cons t l ih => rw [reparseList, ih, List.map_cons]

theorem spellings_eq_flatMap (l : List TypeDesc) : spellings l = l.flatMap spelling := by
  induction l with
  | nil => rfl
  | cons t l ih => rw [spellings, ih, List.flatMap_cons]

theorem text_eq_written (t : TypeDesc) : t.text = written [':'.toUInt8] t := by
  induction t using TypeDesc.induct with
  | base b => rw [text, written]
  | klass path type => rw [text_klass, written]
  | proto arg ret harg hret =>
    rw [text_proto, written, writtenList_eq_flatMap, writtenList_eq_flatMap,
      List.flatMap_congr harg, List.flatMap_congr hret]
  | array dims t ih => rw [text, written, ih]
  | map key val hkey hval =>
    rw [text_map, written, hkey, hval, List.append_nil, List.singleton_append]
  | set t ih => rw [text_set, written, ih, List.append_nil]
  | varg t ih => rw [text_varg, written, ih, List.append_nil]

theorem spelling_eq_written (t : TypeDesc) : t.spelling = written [] t := by
  induction t using TypeDesc.induct with
  | base b => rw [spelling, written]
  | klass path type => rw [spelling, written]
  | proto arg ret harg hret =>
    rw [spelling, written, spellings_eq_flatMap, spellings_eq_flatMap, writtenList_eq_flatMap,
      writtenList_eq_flatMap, List.flatMap_congr harg, List.flatMap_congr hret]
  | array dims t ih => rw [spelling, written, ih]
  | map key val hkey hval => rw [spelling, written, hkey, hval, List.nil_append]
  | set t ih => rw [spelling, written, ih]
  | varg t ih => rw [spelling, written, ih]

section divide

variable {path : Str} {type : CString}

/-- The first dot of a class name divides it into a path without a dot and the rest. -/
theorem exists_divide (path : Str) (type : CString) : ∃ first rest : CString,
    divide (Str.bytes path ++ '.'.toUInt8 :: type.bytes) = .klass (some first) rest ∧
      first.bytes ++ '.'.toUInt8 :: rest.bytes = Str.bytes path ++ '.'.toUInt8 :: type.bytes ∧
      '.'.toUInt8 ∉ first.bytes := by
  have hnul : 0 ∉ Str.bytes path ++ '.'.toUInt8 :: type.bytes := by
    rw [List.mem_append, List.mem_cons, not_or, not_or]
    exact ⟨Str.bytes_nonul path, by decide, type.nonul⟩
  generalize hname : Str.bytes path ++ '.'.toUInt8 :: type.bytes = name at hnul
  have hdot : '.'.toUInt8 ∈ name := by
    rw [← hname]
    exact List.mem_append_right _ List.mem_cons_self
  have hsplit := List.takeWhile_append_dropWhile (p := (· ≠ '.'.toUInt8)) (l := name)
  have hfirst : 0 ∉ name.takeWhile (· ≠ '.'.toUInt8) := fun hmem =>
    hnul ((List.takeWhile_sublist _).subset hmem)
  have hrest : 0 ∉ (name.dropWhile (· ≠ '.'.toUInt8)).tail := fun hmem =>
    hnul ((List.dropWhile_sublist _).subset (List.mem_of_mem_tail hmem))
  have hhead : name.dropWhile (· ≠ '.'.toUInt8) =
      '.'.toUInt8 :: (name.dropWhile (· ≠ '.'.toUInt8)).tail := by
    cases hdrop : name.dropWhile (· ≠ '.'.toUInt8) with
    | nil =>
      have hall := List.dropWhile_eq_nil_iff.mp hdrop _ hdot
      simp at hall
    | cons c r =>
      have hc : c = '.'.toUInt8 := by
        have hhead := List.head?_dropWhile_not (· ≠ '.'.toUInt8) name
        rw [hdrop] at hhead
        simpa using hhead
      rw [hc, List.tail_cons]
  refine ⟨_, _, rfl, ?_, ?_⟩
  · rw [CString.bytes_ofData hfirst, CString.bytes_ofData hrest, ← hhead, hsplit]
  · rw [CString.bytes_ofData hfirst]
    intro hmem
    have hne := List.mem_takeWhile_imp hmem
    simp at hne

end divide

theorem written_reparse (sep : List UInt8) (t : TypeDesc) :
    written sep (reparse t) = written sep t := by
  induction t using TypeDesc.induct with
  | base b => rw [reparse]
  | klass path type =>
    obtain ⟨first, rest, heq, hname, -⟩ := exists_divide path type
    have happend : ∀ x y : List UInt8, x ++ '.'.toUInt8 :: (y ++ [';'.toUInt8]) =
        x ++ '.'.toUInt8 :: y ++ [';'.toUInt8] := fun x y => by
      rw [List.append_assoc, List.cons_append]
    rw [reparse, heq, written, written, happend, happend, Str.bytes_some, hname]
  | proto arg ret harg hret =>
    have hlist : ∀ l : List TypeDesc, (∀ t ∈ l, written sep (reparse t) = written sep t) →
        writtenList sep (reparseList l) = writtenList sep l := fun l hl => by
      rw [writtenList_eq_flatMap, writtenList_eq_flatMap, reparseList_eq_map, List.flatMap_map,
        List.flatMap_congr hl]
    rw [reparse, written, written, hlist arg harg, hlist ret hret]
  | array dims t ih => rw [reparse, written, written, ih]
  | map key val hkey hval => rw [reparse, written, written, hkey, hval]
  | set t ih => rw [reparse, written, written, ih]
  | varg t ih => rw [reparse, written, written, ih]

theorem written_nonul {sep : List UInt8} (hsep : 0 ∉ sep) (t : TypeDesc) : 0 ∉ written sep t := by
  have hlist : ∀ l : List TypeDesc, (∀ t ∈ l, 0 ∉ written sep t) → 0 ∉ writtenList sep l := by
    intro l hl hmem
    rw [writtenList_eq_flatMap] at hmem
    obtain ⟨t, ht, hmem⟩ := List.mem_flatMap.mp hmem
    exact hl t ht hmem
  induction t using TypeDesc.induct with
  | base b =>
    rw [written]
    cases b <;> decide
  | klass path type =>
    have hpath := Str.bytes_nonul path
    have htype := type.nonul
    rw [written]
    simp [hpath, htype]
    decide
  | proto arg ret harg hret =>
    have hargs := hlist arg harg
    have hrets := hlist ret hret
    rw [written]
    simp [hargs, hrets]
    decide
  | array dims t ih =>
    rw [written]
    simp only [List.mem_append, List.mem_replicate, ih, or_false, not_and]
    exact fun _ => by decide
  | map key val hkey hval =>
    rw [written]
    simp [hkey, hval, hsep]
    decide
  | set t ih =>
    rw [written]
    simp [ih]
    decide
  | varg t ih =>
    rw [written]
    simp [ih]
    decide

/-- No map occurs in a descriptor, and an `int` counts the characters of every class
name in it. -/
structure Carried (t : TypeDesc) : Prop where
  no_map : ∀ u, Within u t → u.kind ≠ .TYPE_MAP
  short : ∀ path type, Within (.klass path type) t →
    (Str.bytes path).length + 1 + type.bytes.length ≤ INT_MAX

theorem Carried.within {t u : TypeDesc} (h : t.Carried) (hu : Within u t) : u.Carried where
  no_map v hv := h.no_map v (hv.trans hu)
  short path type hv := h.short path type (hv.trans hu)

theorem Carried.sized {t : TypeDesc} (h : t.Carried) : t.Sized False := by
  induction t using TypeDesc.induct with
  | base b => exact .base b
  | klass path type => exact .klass (h.short path type .self)
  | proto arg ret harg hret =>
    exact .proto (fun u hu => harg u hu (h.within (.arg hu .self)))
      fun u hu => hret u hu (h.within (.ret hu .self))
  | array dims t ih => exact .array (ih (h.within (.array .self)))
  | map key val hkey hval => exact absurd rfl (h.no_map _ .self)
  | set t ih => exact .set (ih (h.within (.set .self)))
  | varg t ih => exact .varg (ih (h.within (.varg .self)))

theorem Sized.within {maps : Prop} {t u : TypeDesc} (h : t.Sized maps) (hu : Within u t) :
    u.Sized maps := by
  induction hu with
  | self => exact h
  | arg hmem _ ih =>
    cases h with
    | proto harg hret => exact ih (harg _ hmem)
  | ret hmem _ ih =>
    cases h with
    | proto harg hret => exact ih (hret _ hmem)
  | array _ ih =>
    cases h with
    | array h => exact ih h
  | key _ ih =>
    cases h with
    | map h hkey hval => exact ih hkey
  | val _ ih =>
    cases h with
    | map h hkey hval => exact ih hval
  | set _ ih =>
    cases h with
    | set h => exact ih h
  | varg _ ih =>
    cases h with
    | varg h => exact ih h

theorem sized_iff (t : TypeDesc) : t.Sized False ↔ t.Carried := by
  refine ⟨fun h => ⟨fun u hu hkind => ?_, fun path type hu => ?_⟩, Carried.sized⟩
  · cases h.within hu with
    | map hfalse => exact hfalse
    | _ => cases hkind
  · cases h.within hu with
    | klass hle => exact hle

theorem Sized.mono {maps maps' : Prop} {t : TypeDesc} (h : t.Sized maps) (hmaps : maps → maps') :
    t.Sized maps' := by
  induction h with
  | base b => exact .base b
  | klass h => exact .klass h
  | proto harg hret iharg ihret => exact .proto iharg ihret
  | array ht ih => exact .array ih
  | map h hkey hval ihkey ihval => exact .map (hmaps h) ihkey ihval
  | set ht ih => exact .set ih
  | varg ht ih => exact .varg ih

/-- Without maps it does not matter what is written in them. -/
theorem Sized.written_eq {maps : Prop} {t : TypeDesc} (h : t.Sized maps) {sep sep' : List UInt8}
    (hsep : maps → sep = sep') : written sep t = written sep' t := by
  have hlist : ∀ l : List TypeDesc, (∀ t ∈ l, written sep t = written sep' t) →
      writtenList sep l = writtenList sep' l := fun l hl => by
    rw [writtenList_eq_flatMap, writtenList_eq_flatMap, List.flatMap_congr hl]
  induction h with
  | base b => rw [written, written]
  | klass h => rw [written, written]
  | proto harg hret iharg ihret => rw [written, written, hlist _ iharg, hlist _ ihret]
  | array ht ih => rw [written, written, ih]
  | map h hkey hval ihkey ihval => rw [hsep h]
  | set ht ih => rw [written, written, ih]
  | varg ht ih => rw [written, written, ih]

theorem plain_cons {c : UInt8} {s : List UInt8} (hbracket : c ≠ '['.toUInt8)
    (hdot : c ≠ '.'.toUInt8) : Plain (c :: s) :=
  ⟨fun h => hbracket (Option.some.inj h), fun h => hdot (Option.some.inj h)⟩

/-- What is written of a list is the longer for separators, and only where there are
maps. -/
theorem length_writtenList {c : UInt8} (l : List TypeDesc)
    (hl : ∀ t ∈ l, (written [] t).length ≤ (written [c] t).length ∧
      ((written [c] t).length ≤ (written [] t).length → t.Sized False)) :
    (writtenList [] l).length ≤ (writtenList [c] l).length ∧
      ((writtenList [c] l).length ≤ (writtenList [] l).length → ∀ t ∈ l, t.Sized False) := by
  induction l with
  | nil => exact ⟨Nat.le_refl _, fun _ => List.forall_mem_nil _⟩
  | cons t l ih =>
    obtain ⟨⟨hle, hsized⟩, hl⟩ := List.forall_mem_cons.mp hl
    obtain ⟨hles, hsizeds⟩ := ih hl
    rw [writtenList, writtenList, List.length_append, List.length_append]
    refine ⟨Nat.add_le_add hle hles, fun h => List.forall_mem_cons.mpr ⟨?_, ?_⟩⟩
    · exact hsized (by omega)
    · exact hsizeds (by omega)

/-- Every map makes what is written longer by its separator. -/
theorem Sized.length_written {maps : Prop} {t : TypeDesc} (h : t.Sized maps) (c : UInt8) :
    (written [] t).length ≤ (written [c] t).length ∧
      ((written [c] t).length ≤ (written [] t).length → t.Sized False) := by
  induction h with
  | base b => exact ⟨Nat.le_refl _, fun _ => .base b⟩
  | klass h => exact ⟨by rw [written, written], fun _ => .klass h⟩
  | proto harg hret iharg ihret =>
    obtain ⟨hle, hargs⟩ := length_writtenList _ iharg
    obtain ⟨hle', hrets⟩ := length_writtenList _ ihret
    rw [written, written]
    simp only [List.length_cons, List.length_append, List.length_nil]
    exact ⟨by omega, fun h => .proto (hargs (by omega)) (hrets (by omega))⟩
  | array ht ih =>
    rw [written, written, List.length_append, List.length_append]
    exact ⟨by omega, fun h => .array (ih.2 (by omega))⟩
  | map h hkey hval ihkey ihval =>
    rw [written, written]
    simp only [List.length_cons, List.length_append, List.length_nil]
    exact ⟨by omega, fun h => absurd h (by omega)⟩
  | set ht ih =>
    rw [written, written, List.length_cons, List.length_cons]
    exact ⟨by omega, fun h => .set (ih.2 (by omega))⟩
  | varg ht ih =>
    rw [written, written]
    simp only [List.length_cons]
    exact ⟨by omega, fun h => .varg (ih.2 (by omega))⟩

/-- The head of a text that starts neither an array nor a variable argument. -/
theorem plain_spelling {t : TypeDesc} (ht : t.Grammatical) (harray : t.kind ≠ .TYPE_ARRAY)
    (hvarg : t.kind ≠ .TYPE_VARG) : Plain t.spelling := by
  cases ht with
  | base b =>
    rw [spelling]
    cases b <;> exact ⟨by decide, by decide⟩
  | klass h =>
    rw [spelling]
    exact plain_cons (by decide) (by decide)
  | proto harg hret =>
    rw [spelling]
    exact plain_cons (by decide) (by decide)
  | array hdims ht hplain => exact absurd rfl harray
  | map hkey hval =>
    rw [spelling]
    exact plain_cons (by decide) (by decide)
  | set ht =>
    rw [spelling]
    exact plain_cons (by decide) (by decide)
  | varg ht hplain => exact absurd rfl hvarg

theorem kind_reparse (t : TypeDesc) : (reparse t).kind = t.kind := by
  cases t <;> rw [reparse] <;> rfl

/-- What the grammar of types builds the parser can build, up to the division of
class names. -/
theorem Language.grammatical_reparse {maps : Prop} {t : TypeDesc} (ht : t.Language)
    (hsized : t.Sized maps) : (reparse t).Grammatical := by
  induction ht with
  | base b =>
    rw [reparse]
    exact .base b
  | @klass path type hpath htype =>
    obtain ⟨first, rest, heq, hname, hdot⟩ := exists_divide path type
    have hsemi : ';'.toUInt8 ∉ first.bytes ++ '.'.toUInt8 :: rest.bytes := by
      rw [hname, List.mem_append, List.mem_cons, not_or, not_or]
      exact ⟨hpath, by decide, htype⟩
    rw [List.mem_append, List.mem_cons, not_or, not_or] at hsemi
    have hlength := congrArg List.length hname
    rw [List.length_append, List.length_append, List.length_cons, List.length_cons] at hlength
    rw [reparse, heq]
    cases hsized with
    | klass h => exact .klass ⟨hdot, hsemi.1, hsemi.2.2, by omega⟩
  | proto harg hret iharg ihret =>
    rw [reparse, reparseList_eq_map, reparseList_eq_map]
    cases hsized with
    | proto hsarg hsret =>
      refine .proto (fun u hu => ?_) fun u hu => ?_
      · obtain ⟨t, ht, rfl⟩ := List.mem_map.mp hu
        exact iharg t ht (hsarg t ht)
      · obtain ⟨t, ht, rfl⟩ := List.mem_map.mp hu
        exact ihret t ht (hsret t ht)
  | array hdims ht harray hvarg ih =>
    rw [reparse]
    cases hsized with
    | array hs =>
      refine .array hdims (ih hs) (plain_spelling (ih hs) ?_ ?_)
      · rwa [kind_reparse]
      · rwa [kind_reparse]
  | map hkey hval ihkey ihval =>
    rw [reparse]
    cases hsized with
    | map h hskey hsval => exact .map (ihkey hskey) (ihval hsval)
  | set ht ih =>
    rw [reparse]
    cases hsized with
    | set hs => exact .set (ih hs)
  | varg ht harray hvarg ih =>
    rw [reparse]
    cases hsized with
    | varg hs =>
      refine .varg (ih hs) (plain_spelling (ih hs) ?_ ?_)
      · rwa [kind_reparse]
      · rwa [kind_reparse]

theorem spelling_reparse (t : TypeDesc) : (reparse t).spelling = t.spelling := by
  rw [spelling_eq_written, written_reparse, spelling_eq_written]

theorem text_reparse (t : TypeDesc) : (reparse t).text = t.text := by
  rw [text_eq_written, written_reparse, text_eq_written]

end TypeDesc

end koala.typedesc
