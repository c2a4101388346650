import Koala.TypeDesc.Written

open koala.stringbuf

namespace koala.typedesc

set_option linter.style.nameCheck false

open TypeDesc

section converse

variable {fuel dims varg : Nat} {stop : UInt8} {sep s : List UInt8} {t : TypeDesc}

theorem TypeDesc.Language.written_cons (ht : t.Language) (sep : List UInt8) :
    ∃ c x, written sep t = c :: x ∧ c ≠ ':'.toUInt8 ∧ c ≠ ';'.toUInt8 := by
  cases ht with
  | base b => exact ⟨_, _, by rw [written], (letter_mem b).2⟩
  | klass hpath htype => exact ⟨_, _, by rw [written], by decide, by decide⟩
  | proto harg hret => exact ⟨_, _, by rw [written], by decide, by decide⟩
  | array hdims ht harray hvarg =>
    exact ⟨_, _, by rw [written, brackets_cons (by omega)], by decide, by decide⟩
  | map hkey hval => exact ⟨_, _, by rw [written], by decide, by decide⟩
  | set ht => exact ⟨_, _, by rw [written], by decide, by decide⟩
  | varg ht harray hvarg => exact ⟨_, _, by rw [written], by decide, by decide⟩

/-- The parser reads back what is written as it reads it. -/
theorem TypeDesc.Language.reads {maps : Prop} (ht : t.Language) (hsized : t.Sized maps)
    (hsep : maps → sep = []) (hallowed : Allowed dims varg (written sep t))
    (hfuel : 2 * (written sep t ++ s).length + 1 ≤ fuel) :
    String_To_TypeDesc fuel (written sep t ++ s) dims varg = .ok (reparse t, s) := by
  have heq : written sep t = (reparse t).spelling := by
    rw [hsized.written_eq hsep, spelling_reparse, spelling_eq_written]
  rw [heq] at hallowed hfuel ⊢
  exact (ht.grammatical_reparse hsized).reads fuel s dims varg hallowed hfuel

/-- Where the parser gets through a descriptor, the descriptor was written as the parser
reads it. -/
def Converse (sep : List UInt8) (t : TypeDesc) : Prop :=
  ∀ (fuel dims varg : Nat) (s : List UInt8) (p : TypeDesc × List UInt8),
    2 * (written sep t ++ s).length + 1 ≤ fuel →
      String_To_TypeDesc fuel (written sep t ++ s) dims varg = .ok p → t.Sized (sep = [])

theorem types_until_converse {l : List TypeDesc} (hl : ∀ t ∈ l, t.Language)
    (hconv : ∀ t ∈ l, Converse sep t) (hstop : stop = ':'.toUInt8 ∨ stop = ';'.toUInt8)
    {p : List TypeDesc × List UInt8} (hfuel : 2 * (writtenList sep l ++ s).length + 2 ≤ fuel)
    (hrun : types_until fuel stop (writtenList sep l ++ s) = .ok p) :
    ∀ t ∈ l, t.Sized (sep = []) := by
  induction l generalizing fuel p with
  | nil => exact List.forall_mem_nil _
  | cons t l ih =>
    obtain ⟨ht, hl⟩ := List.forall_mem_cons.mp hl
    obtain ⟨hconvt, hconv⟩ := List.forall_mem_cons.mp hconv
    obtain ⟨fuel, rfl⟩ : ∃ f, fuel = f + 1 := ⟨fuel - 1, by omega⟩
    rw [writtenList, List.append_assoc] at hfuel hrun
    obtain ⟨c, x, hcons, hcolon, hsemi⟩ := ht.written_cons sep
    have hne : (written sep t ++ (writtenList sep l ++ s)).head? ≠ some stop := by
      rw [hcons, List.cons_append, List.head?_cons]
      rcases hstop with rfl | rfl
      · exact fun h => hcolon (Option.some.inj h)
      · exact fun h => hsemi (Option.some.inj h)
    rw [types_until, if_neg hne] at hrun
    obtain ⟨q, hdesc, hrun⟩ := bind_eq_ok_iff.mp hrun
    have hsized := hconvt fuel 0 0 _ q (by omega) hdesc
    rw [ht.reads hsized id (allowed_zero _) (by omega)] at hdesc
    cases hdesc
    obtain ⟨q, htypes, hrun⟩ := bind_eq_ok_iff.mp hrun
    rw [List.length_append, hcons, List.length_cons] at hfuel
    exact List.forall_mem_cons.mpr ⟨hsized, ih hl hconv (by omega) htypes⟩

theorem converse_klass {path : Str} {type : CString} (hpath : ';'.toUInt8 ∉ Str.bytes path)
    (htype : ';'.toUInt8 ∉ type.bytes) : Converse sep (.klass path type) := by
  intro fuel dims varg s p hfuel hrun
  obtain ⟨fuel, rfl⟩ : ∃ f, fuel = f + 1 := ⟨fuel - 1, by omega⟩
  have hnotMem : ';'.toUInt8 ∉ Str.bytes path ++ '.'.toUInt8 :: type.bytes := by
    rw [List.mem_append, List.mem_cons, not_or, not_or]
    exact ⟨hpath, by decide, htype⟩
  have heq : written sep (.klass path type) ++ s = 'L'.toUInt8 ::
      ((Str.bytes path ++ '.'.toUInt8 :: type.bytes) ++ ';'.toUInt8 :: s) := by
    rw [written]
    simp only [List.cons_append, List.append_assoc, List.nil_append]
  rw [heq, String_To_TypeDesc_L, idxOf?_append_cons hnotMem] at hrun
  dsimp only at hrun
  split at hrun
  · next hle =>
    rw [List.length_append, List.length_cons] at hle
    exact .klass (by omega)
  · cases hrun

/-- The colon that the printer puts into a map is no descriptor. -/
theorem String_To_TypeDesc_colon (p : TypeDesc × List UInt8) :
    String_To_TypeDesc fuel (':'.toUInt8 :: s) dims varg ≠ .ok p := by
  intro hrun
  cases fuel with
  | zero =>
    rw [String_To_TypeDesc] at hrun
    cases hrun
  | succ fuel =>
    rw [String_To_TypeDesc_letter (by decide), show get_basic ':'.toUInt8 = none by decide] at hrun
    cases hrun

theorem converse_map {key val : TypeDesc} (hsep : sep = [] ∨ sep = [':'.toUInt8])
    (hlang : key.Language) (hkey : Converse sep key) (hval : Converse sep val) :
    Converse sep (.map key val) := by
  intro fuel dims varg s p hfuel hrun
  obtain ⟨fuel, rfl⟩ : ∃ f, fuel = f + 1 := ⟨fuel - 1, by omega⟩
  rw [written, List.cons_append, List.append_assoc, List.append_assoc] at hfuel hrun
  rw [List.length_cons] at hfuel
  rw [String_To_TypeDesc_M] at hrun
  obtain ⟨q, hkeyrun, hrun⟩ := bind_eq_ok_iff.mp hrun
  have hskey := hkey fuel 0 0 _ q (by omega) hkeyrun
  rw [hlang.reads hskey id (allowed_zero _) (by omega)] at hkeyrun
  cases hkeyrun
  obtain ⟨q, hvalrun, hrun⟩ := bind_eq_ok_iff.mp hrun
  rcases hsep with rfl | rfl
  · rw [List.nil_append] at hfuel hvalrun
    rw [List.length_append] at hfuel
    exact .map rfl hskey (hval fuel 0 0 s q (by omega) hvalrun)
  · exact absurd hvalrun (String_To_TypeDesc_colon q)

theorem converse_proto {arg ret : List TypeDesc} (harg : ∀ t ∈ arg, t.Language)
    (hret : ∀ t ∈ ret, t.Language) (hargs : ∀ t ∈ arg, Converse sep t)
    (hrets : ∀ t ∈ ret, Converse sep t) : Converse sep (.proto arg ret) := by
  intro fuel dims varg s p hfuel hrun
  obtain ⟨fuel, rfl⟩ : ∃ f, fuel = f + 1 := ⟨fuel - 1, by omega⟩
  have heq : written sep (.proto arg ret) ++ s = 'P'.toUInt8 ::
      (writtenList sep arg ++ ':'.toUInt8 :: (writtenList sep ret ++ ';'.toUInt8 :: s)) := by
    rw [written]
    simp only [List.cons_append, List.append_assoc, List.nil_append]
  rw [heq] at hfuel hrun
  rw [List.length_cons] at hfuel
  rw [String_To_TypeDesc_P] at hrun
  obtain ⟨q, hargrun, hrun⟩ := bind_eq_ok_iff.mp hrun
  have hsarg := types_until_converse harg hargs (.inl rfl) (by omega) hargrun
  have hspell : writtenList sep arg = spellings (reparseList arg) := by
    rw [writtenList_eq_flatMap, spellings_eq_flatMap, reparseList_eq_map, List.flatMap_map]
    refine List.flatMap_congr fun t ht => ?_
    rw [(hsarg t ht).written_eq (fun h => h : sep = [] → sep = []), ← spelling_eq_written, spelling_reparse]
  have hgram : ∀ t ∈ reparseList arg, t.Grammatical := by
    rw [reparseList_eq_map]
    intro u hu
    obtain ⟨t, ht, rfl⟩ := List.mem_map.mp hu
    exact (harg t ht).grammatical_reparse (hsarg t ht)
  have hlen : (writtenList sep ret ++ ';'.toUInt8 :: s).length < (writtenList sep arg ++
      ':'.toUInt8 :: (writtenList sep ret ++ ';'.toUInt8 :: s)).length :=
    length_lt_append_cons _ _ _
  rw [hspell] at hfuel hargrun hlen
  rw [types_until_reads hgram (fun t ht => (hgram t ht).reads) (.inl rfl) (by omega)] at hargrun
  cases hargrun
  obtain ⟨q, hretrun, hrun⟩ := bind_eq_ok_iff.mp hrun
  exact .proto hsarg (types_until_converse hret hrets (.inr rfl) (by omega) hretrun)

theorem head?_written (ht : t.Language) (harray : t.kind ≠ .TYPE_ARRAY) :
    (written sep t ++ s).head? ≠ some '['.toUInt8 := by
  cases ht with
  | base b =>
    rw [written]
    intro h
    have hletter : b.letter = '['.toUInt8 := Option.some.inj h
    exact (letter_mem b).1 (hletter ▸ by decide)
  | array hdims ht _ _ => exact absurd rfl harray
  | _ =>
    rw [written]
    exact fun h => absurd (Option.some.inj h) (by decide)

theorem converse_array {dims : BitVec 32} (hdims : 0 < dims.toInt) (ht : t.Language)
    (harray : t.kind ≠ .TYPE_ARRAY) (h : Converse sep t) : Converse sep (.array dims t) := by
  intro fuel d v s p hfuel hrun
  obtain ⟨fuel, rfl⟩ : ∃ f, fuel = f + 1 := ⟨fuel - 1, by omega⟩
  rw [written, List.append_assoc] at hfuel hrun
  rw [List.length_append, List.length_replicate] at hfuel
  rw [String_To_TypeDesc_bracket (by omega) (head?_written ht harray)] at hrun
  split at hrun
  · split at hrun
    · obtain ⟨q, hbase, hrun⟩ := bind_eq_ok_iff.mp hrun
      exact .array (h fuel _ 0 s q (by omega) hbase)
    · cases hrun
  · cases hrun

theorem converse_varg (ht : t.Language) (h : Converse sep t) : Converse sep (.varg t) := by
  intro fuel d v s p hfuel hrun
  obtain ⟨fuel, rfl⟩ : ∃ f, fuel = f + 1 := ⟨fuel - 1, by omega⟩
  rw [written, List.cons_append, List.cons_append, List.cons_append] at hfuel hrun
  rw [List.length_cons, List.length_cons, List.length_cons] at hfuel
  have hdrop : ('.'.toUInt8 :: '.'.toUInt8 :: (written sep t ++ s)).drop 2 =
      written sep t ++ s := rfl
  rw [String_To_TypeDesc_dots, hdrop] at hrun
  split at hrun
  · split at hrun
    · split at hrun
      · next hany =>
        cases ht with
        | base b => exact .varg (.base b)
        | array hdims ht harray hvarg =>
          rw [written, brackets_cons (by omega)] at hany
          exact absurd (Option.some.inj hany) (by decide)
        | _ =>
          rw [written] at hany
          exact absurd (Option.some.inj hany) (by decide)
      · obtain ⟨q, hbase, hrun⟩ := bind_eq_ok_iff.mp hrun
        exact .varg (h fuel 0 1 s q (by omega) hbase)
    · cases hrun
  · cases hrun

theorem TypeDesc.Language.converse (hsep : sep = [] ∨ sep = [':'.toUInt8]) (ht : t.Language) :
    Converse sep t := by
  induction ht with
  | base b => exact fun _ _ _ _ _ _ _ => .base b
  | klass hpath htype => exact converse_klass hpath htype
  | proto harg hret iharg ihret => exact converse_proto harg hret iharg ihret
  | array hdims ht harray hvarg ih => exact converse_array hdims ht harray ih
  | map hkey hval ihkey ihval => exact converse_map hsep hkey ihkey ihval
  | set ht ih =>
    intro fuel dims varg s p hfuel hrun
    obtain ⟨fuel, rfl⟩ : ∃ f, fuel = f + 1 := ⟨fuel - 1, by omega⟩
    rw [written, List.cons_append] at hfuel hrun
    rw [List.length_cons] at hfuel
    rw [String_To_TypeDesc_S] at hrun
    obtain ⟨q, hbase, hrun⟩ := bind_eq_ok_iff.mp hrun
    exact .set (ih fuel 0 0 s q (by omega) hbase)
  | varg ht harray hvarg ih => exact converse_varg ht ih

theorem typelist_converse {l : List TypeDesc} (hsep : sep = [] ∨ sep = [':'.toUInt8])
    (hl : ∀ t ∈ l, t.Language) {vec : List TypeDesc}
    (hfuel : 2 * (writtenList sep l).length + 2 ≤ fuel)
    (hrun : typelist fuel (writtenList sep l) = .ok vec) :
    (∀ t ∈ l, t.Sized (sep = [])) ∧ vec = reparseList l := by
  induction l generalizing fuel vec with
  | nil =>
    obtain ⟨fuel, rfl⟩ : ∃ f, fuel = f + 1 := ⟨fuel - 1, by omega⟩
    cases hrun
    exact ⟨List.forall_mem_nil _, rfl⟩
  | cons t l ih =>
    obtain ⟨ht, hl⟩ := List.forall_mem_cons.mp hl
    obtain ⟨fuel, rfl⟩ : ∃ f, fuel = f + 1 := ⟨fuel - 1, by omega⟩
    obtain ⟨c, x, hcons, -, -⟩ := ht.written_cons sep
    have hstep : typelist (fuel + 1) (writtenList sep (t :: l)) =
        String_To_TypeDesc fuel (writtenList sep (t :: l)) 0 0 >>= fun r =>
          typelist fuel r.2 >>= fun vec => .ok (r.1 :: vec) := by
      rw [writtenList, hcons, List.cons_append, typelist]
    rw [hstep, writtenList] at hrun
    rw [writtenList] at hfuel
    obtain ⟨q, hdesc, hrun⟩ := bind_eq_ok_iff.mp hrun
    have hsized := ht.converse hsep fuel 0 0 _ q (by omega) hdesc
    rw [ht.reads hsized id (allowed_zero _) (by omega)] at hdesc
    cases hdesc
    obtain ⟨rest, hrest, hrun⟩ := bind_eq_ok_iff.mp hrun
    rw [List.length_append, hcons, List.length_cons] at hfuel
    obtain ⟨hall, rfl⟩ := ih hl (by omega) hrest
    cases hrun
    exact ⟨List.forall_mem_cons.mpr ⟨hsized, hall⟩, rfl⟩

theorem typelist_reads {maps : Prop} {l : List TypeDesc} (hl : ∀ t ∈ l, t.Language)
    (hsized : ∀ t ∈ l, t.Sized maps) (hsep : maps → sep = [])
    (hfuel : 2 * (writtenList sep l).length + 2 ≤ fuel) :
    typelist fuel (writtenList sep l) = .ok (reparseList l) := by
  induction l generalizing fuel with
  | nil =>
    obtain ⟨fuel, rfl⟩ : ∃ f, fuel = f + 1 := ⟨fuel - 1, by omega⟩
    rfl
  | cons t l ih =>
    obtain ⟨ht, hl⟩ := List.forall_mem_cons.mp hl
    obtain ⟨hst, hsized⟩ := List.forall_mem_cons.mp hsized
    obtain ⟨fuel, rfl⟩ : ∃ f, fuel = f + 1 := ⟨fuel - 1, by omega⟩
    obtain ⟨c, x, hcons, -, -⟩ := ht.written_cons sep
    rw [writtenList] at hfuel
    have hread : String_To_TypeDesc fuel (written sep t ++ writtenList sep l) 0 0 =
        .ok (reparse t, writtenList sep l) := ht.reads hst hsep (allowed_zero _) (by omega)
    rw [writtenList, hcons, List.cons_append, typelist]
    rw [hcons, List.cons_append] at hread
    rw [List.length_append, hcons, List.length_cons] at hfuel
    rw [hread, ok_bind]
    dsimp only
    rw [ih hl hsized (by omega)]
    rfl

end converse

section inverse

open interning

/-- The text of a list is read back as the list; a vector that was not made is empty. -/
def RoundTrips (T : DescTable) (ts : List TypeDesc) : Prop :=
  ∃ vec T', interning.String_ToTypeList T (TypeList_ToString (some ts)) = .ok (vec, T') ∧
    vec.getD [] = ts

/-- What a text is read as is written as the text. -/
def Reprints (T : DescTable) (s : CString) : Prop :=
  ∃ vec T', interning.String_ToTypeList T (some s) = .ok (vec, T') ∧
    TypeList_ToString vec = some s

variable {T : DescTable} {ts : List TypeDesc}

theorem eq_of_text_eq {t u : TypeDesc} (ht : t ∈ T.descs) (hu : u ∈ T.descs)
    (htext : t.text = u.text) : t = u :=
  List.inj_on_of_nodup_map T.distinct ht hu htext

theorem eq_of_alike {T' : DescTable} {vec vec' : List TypeDesc}
    (h : List.Forall₂ (Alike T') vec vec') (hsub : T.descs ⊆ T'.descs)
    (hts : ∀ t ∈ ts, t ∈ T.descs) (htext : vec.map text = ts.map text) : vec' = ts := by
  induction h generalizing ts with
  | nil =>
    cases ts with
    | nil => rfl
    | cons t ts => cases htext
  | cons hhead htail ih =>
    cases ts with
    | nil => cases htext
    | cons t ts =>
      rw [List.map_cons, List.map_cons] at htext
      obtain ⟨hhtext, httext⟩ := List.cons.inj htext
      obtain ⟨ht, hts⟩ := List.forall_mem_cons.mp hts
      rw [eq_of_text_eq hhead.1 (hsub ht) (hhead.2.trans hhtext), ih hts httext]

theorem textList_of_alike {T' : DescTable} {vec vec' : List TypeDesc}
    (h : List.Forall₂ (Alike T') vec vec') : textList vec' = textList vec := by
  induction h with
  | nil => rfl
  | cons hhead htail ih => rw [textList, textList, hhead.2, ih]

theorem textList_eq_written (l : List TypeDesc) : textList l = writtenList [':'.toUInt8] l := by
  rw [textList_eq_flatMap, writtenList_eq_flatMap]
  exact List.flatMap_congr fun t _ => t.text_eq_written

theorem spellings_eq_written (l : List TypeDesc) : spellings l = writtenList [] l := by
  rw [spellings_eq_flatMap, writtenList_eq_flatMap]
  exact List.flatMap_congr fun t _ => t.spelling_eq_written

theorem map_text_reparse (ts : List TypeDesc) : (reparseList ts).map text = ts.map text := by
  rw [reparseList_eq_map, List.map_map]
  exact List.map_congr_left fun t _ => text_reparse t

theorem textList_reparse (ts : List TypeDesc) : textList (reparseList ts) = textList ts := by
  rw [textList_eq_flatMap, textList_eq_flatMap, reparseList_eq_map, List.flatMap_map]
  exact List.flatMap_congr fun t _ => text_reparse t

theorem textList_nonul (ts : List TypeDesc) : 0 ∉ textList ts := by
  intro hmem
  rw [textList_eq_flatMap] at hmem
  obtain ⟨t, -, hmem⟩ := List.mem_flatMap.mp hmem
  rw [text_eq_written] at hmem
  exact written_nonul (by decide) t hmem

theorem TypeList_ToString_cons (t : TypeDesc) (ts : List TypeDesc) :
    TypeList_ToString (some (t :: ts)) = some (CString.ofData (textList (t :: ts))) := rfl

theorem roundTrips_iff (hlang : ∀ t ∈ ts, t.Language) (hts : ∀ t ∈ ts, t ∈ T.descs) :
    RoundTrips T ts ↔ ∀ t ∈ ts, t.Sized False := by
  cases ts with
  | nil => exact iff_of_true ⟨none, T, rfl, rfl⟩ (List.forall_mem_nil _)
  | cons t ts =>
    have hbytes := CString.bytes_ofData (textList_nonul (t :: ts))
    have hfollows := String_ToTypeList_follows T (CString.ofData (textList (t :: ts)))
    rw [typedesc.String_ToTypeList, hbytes, textList_eq_written] at hfollows
    constructor
    · rintro ⟨vec, T', hrun, hvec⟩
      rw [TypeList_ToString_cons, textList_eq_written] at hrun
      cases hvalue : typelist (2 * (writtenList [':'.toUInt8] (t :: ts)).length + 2)
        (writtenList [':'.toUInt8] (t :: ts)) with
      | error e =>
        rw [hvalue] at hfollows
        cases hrun.symm.trans hfollows
      | ok us =>
        obtain ⟨hsized, -⟩ := typelist_converse (.inr rfl) hlang (Nat.le_refl _) hvalue
        exact fun t ht => (hsized t ht).mono (by decide)
    · intro hsized
      rw [typelist_reads hlang hsized False.elim (Nat.le_refl _)] at hfollows
      obtain ⟨vec, T', hrun, hsub, hvec⟩ := hfollows
      refine ⟨some vec, T', ?_, eq_of_alike hvec hsub hts (map_text_reparse _)⟩
      rw [TypeList_ToString_cons, textList_eq_written]
      exact hrun

theorem reprints_iff {s : CString} (hlang : ∀ t ∈ ts, t.Language) (hs : s.bytes = spellings ts) :
    Reprints T s ↔ ts ≠ [] ∧ ∀ t ∈ ts, t.Sized False := by
  have hfollows := String_ToTypeList_follows T s
  rw [typedesc.String_ToTypeList, hs, spellings_eq_written] at hfollows
  constructor
  · rintro ⟨vec, T', hrun, hprint⟩
    cases hvalue : typelist (2 * (writtenList [] ts).length + 2) (writtenList [] ts) with
    | error e =>
      rw [hvalue] at hfollows
      cases hrun.symm.trans hfollows
    | ok us =>
      rw [hvalue] at hfollows
      obtain ⟨hsized, rfl⟩ := typelist_converse (.inl rfl) hlang (Nat.le_refl _) hvalue
      obtain ⟨vec', T'', hrun', -, hvec⟩ := hfollows
      cases hrun.symm.trans hrun'
      have htext := textList_of_alike hvec
      cases vec' with
      | nil => cases hprint
      | cons u vec' =>
        have hbytes := congrArg CString.bytes (Option.some.inj hprint)
        rw [CString.bytes_ofData (textList_nonul _), htext, textList_reparse, hs,
          textList_eq_written, spellings_eq_written] at hbytes
        refine ⟨?_, ?_⟩
        · rintro rfl
          cases hvec
        · have hlength := congrArg List.length hbytes
          exact (length_writtenList ts fun t ht => (hsized t ht).length_written _).2
            (Nat.le_of_eq hlength)
  · rintro ⟨hne, hsized⟩
    rw [typelist_reads hlang hsized (fun _ => rfl) (Nat.le_refl _)] at hfollows
    obtain ⟨vec, T', hrun, -, hvec⟩ := hfollows
    refine ⟨some vec, T', hrun, ?_⟩
    have htext := textList_of_alike hvec
    cases vec with
    | nil =>
      cases ts with
      | nil => exact absurd rfl hne
      | cons t ts => cases hvec
    | cons u vec =>
      refine congrArg some (CString.ext ?_)
      rw [CString.bytes_ofData (textList_nonul _), htext, textList_reparse, hs,
        textList_eq_written, spellings_eq_written]
      rw [writtenList_eq_flatMap, writtenList_eq_flatMap]
      exact List.flatMap_congr fun t ht => (hsized t ht).written_eq False.elim

/-- A list of descriptors is read back from its text, and a text from its descriptors,
exactly where no map occurs and an `int` counts the characters of every class name; of an
empty list nothing is written. -/
theorem inverse_iff (T : DescTable) (ts : List TypeDesc) (hlang : ∀ t ∈ ts, t.Language) :
    ((∀ t ∈ ts, t ∈ T.descs) → (RoundTrips T ts ↔ ∀ t ∈ ts, t.Carried)) ∧
    ∀ s : CString, s.bytes = spellings ts →
      (Reprints T s ↔ ts ≠ [] ∧ ∀ t ∈ ts, t.Carried) := by
  have hcond : (∀ t ∈ ts, t.Sized False) ↔ ∀ t ∈ ts, t.Carried :=
    forall₂_congr fun t _ => t.sized_iff
  refine ⟨fun hts => ?_, fun s hs => ?_⟩
  · rw [roundTrips_iff hlang hts, hcond]
  · rw [reprints_iff hlang hs, hcond]

/-- A map from `int` to `string`. -/
def map_is : TypeDesc := .map (.base .BASE_INT) (.base .BASE_STRING)

def table_is : DescTable := (TypeDesc_Get_Map Init_TypeDesc (.base .BASE_INT) (.base .BASE_STRING)).2

theorem map_is_language : map_is.Language := .map (.base _) (.base _)

theorem map_is_mem : map_is ∈ table_is.descs := by decide

/-- The printer writes `Mi:s`, on which the parser stops, and the parser reads `Mis`. -/
theorem not_inverse : ¬ RoundTrips table_is [map_is] ∧
    ¬ Reprints table_is ⟨chars "Mis", by decide⟩ := by
  constructor
  · rintro ⟨vec, T', hrun, -⟩
    have herror : interning.String_ToTypeList table_is (TypeList_ToString (some [map_is])) =
        .error .assertion := rfl
    cases herror.symm.trans hrun
  · rintro ⟨vec, T', hrun, hprint⟩
    have hread : interning.String_ToTypeList table_is (some ⟨chars "Mis", by decide⟩) =
        .ok (some [map_is], table_is) := rfl
    cases hread.symm.trans hrun
    have hbytes := congrArg (fun s : Str => s.bytes.length) hprint
    exact absurd hbytes (by decide)

theorem inverse_iff_int : RoundTrips Init_TypeDesc [.base .BASE_INT] ∧
    Reprints Init_TypeDesc ⟨chars "i", by decide⟩ := by
  have hlang : ∀ t ∈ [TypeDesc.base .BASE_INT], t.Language := fun t ht => by
    rw [List.mem_singleton.mp ht]
    exact .base _
  have hcarried : ∀ t ∈ [TypeDesc.base .BASE_INT], t.Carried := fun t ht => by
    rw [List.mem_singleton.mp ht, ← sized_iff]
    exact .base _
  have hmem : ∀ t ∈ [TypeDesc.base .BASE_INT], t ∈ Init_TypeDesc.descs := fun t ht => by
    rw [List.mem_singleton.mp ht]
    exact Init_TypeDesc.basics .BASE_INT
  obtain ⟨hround, hreprint⟩ := inverse_iff Init_TypeDesc _ hlang
  refine ⟨(hround hmem).mpr hcarried, (hreprint _ ?_).mpr ⟨List.cons_ne_nil _ _, hcarried⟩⟩
  decide

end inverse

end koala.typedesc
